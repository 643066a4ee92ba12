import Lox.Proofs.History
import Lox.Proofs.TracedRuns

/-!
# Traced steps and what is kept of them

The trace of a run from one end to the other, beside the machine: each frame goes on covering its
scopes, and each field holds what the trace says was set last. A step that makes no event sets no
field of an instance that was there. The one step that does is told in the event that ends with
it.
-/

namespace Lox.Traced

/-- Code that is no read of a property, nor what sets one, nor an assignment. -/
def Event.Plain : Event → Prop
  | .eval _ e _ _ _ => e.Plain
  | _ => True

namespace Event.Plain

variable {event : Event}

theorem not_sets (h : event.Plain) (o : InstanceId) (x : String) (v : Value) :
    ¬ event.Sets o x v := by
  rintro ⟨_, _, _, _, _, _, rfl, -⟩
  exact h

theorem not_reads (h : event.Plain) (o : InstanceId) (x : String) (result : Except Stop Value) :
    ¬ event.Reads o x result := by
  rintro ⟨_, _, _, _, _, rfl, -⟩
  exact h

theorem assigns (h : event.Plain) (excused : String → FrameId → Expr → Prop) :
    event.Assigns excused := by
  cases event with
  | eval home e before result after =>
    cases e with
    | assign => exact h.elim
    | _ => trivial
  | _ => trivial

end Event.Plain

/-- Notes how a piece of code ended that began in an earlier state. -/
def noteSince {α : Type} (before : State) (event : State → Except Stop α → State → Event)
    (act : Run α) : Run α := fun r =>
  match act r with
  | .ok a t => .ok a { t with events := t.events.push (event before (.ok a) t.toState) }
  | .error stop t =>
    .error stop { t with events := t.events.push (event before (.error stop) t.toState) }

namespace History

/-- The initializers that are running: of which variable of which frame, and what stands in them. -/
abbrev Owed := String → FrameId → Expr → Prop

/-- What holds of a log after the events `past`. An assignment is excused by a declaration in the
log or by one that is still running. -/
structure Kept (far : NodeId → Option Nat → Prop) (past : List Event) (owed : Owed) (r : Log) :
    Prop where
  sound : r.machine.Sound far
  grew : ∀ event ∈ r.events, event.Grew
  assigns : ∀ event ∈ r.events, event.Assigns fun x frame e =>
    (∃ d ∈ r.events, d.Declares x frame e) ∨ owed x frame e
  latest : ∀ {o x v}, SetLast (past ++ r.events.toList) o x v →
    r.machine.heap.field? o x = some v
  reads : ReadsLast (past ++ r.events.toList)

variable {far : NodeId → Option Nat → Prop} {past : List Event} {owed owed' : Owed}

/-- An event that a log can take on, whose last step leads from `m` to `m'`. What is owed for it
alone need not be owed any longer. -/
structure Fits (owed owed' : Owed) (m m' : Machine) (event : Event) : Prop where
  assigns : event.Assigns owed'
  owes : ∀ x frame e, owed' x frame e → owed x frame e ∨ event.Declares x frame e
  sets : ∀ {o x v}, event.Sets o x v → m'.heap.field? o x = some v
  others : ∀ {o x}, (∀ v, ¬ event.Sets o x v) → m'.heap.field? o x = m.heap.field? o x
  reads : ∀ {o x result v}, event.Reads o x result → m.heap.field? o x = some v → result = .ok v

theorem Fits.of_plain {event : Event} (h : event.Plain)
    (howes : ∀ x frame e, owed' x frame e → owed x frame e ∨ event.Declares x frame e)
    (m : Machine) : Fits owed owed' m m event where
  assigns := h.assigns owed'
  owes := howes
  sets hs := absurd hs (h.not_sets _ _ _)
  others _ := rfl
  reads hr := absurd hr (h.not_reads _ _ _)

theorem Kept.push {r : Log} {t : State} {event : Event} (h : Kept far past owed' r)
    (ht : t.machine.Sound far) (hg : event.Grew) (hf : Fits owed owed' r.machine t.machine event) :
    Kept far past owed { toState := t, events := r.events.push event } where
  sound := ht
  grew e he := by
    rcases Array.mem_push.1 he with he | rfl
    · exact h.grew e he
    · exact hg
  assigns e he := by
    have howes : ∀ x frame e, owed' x frame e →
        (∃ d ∈ r.events.push event, d.Declares x frame e) ∨ owed x frame e := fun x frame e ho =>
      (hf.owes x frame e ho).symm.imp_left fun hd => ⟨event, Array.mem_push_self, hd⟩
    rcases Array.mem_push.1 he with he | rfl
    · refine (h.assigns e he).imp fun x frame e hx => ?_
      rcases hx with ⟨d, hd, hx⟩ | hx
      · exact .inl ⟨d, Array.mem_push_of_mem event hd, hx⟩
      · exact howes x frame e hx
    · exact hf.assigns.imp howes
  latest hs := by
    rw [Array.toList_push, ← List.append_assoc] at hs
    rcases setLast_concat hs with hs | ⟨hn, hs⟩
    · exact hf.sets hs
    · exact (hf.others hn).trans (h.latest hs)
  reads := by
    rw [Array.toList_push, ← List.append_assoc]
    exact h.reads.concat fun o x result v hr hs => hf.reads hr (h.latest hs)

/-- A log beside its machine. -/
def keeping (far : NodeId → Option Nat → Prop) (past : List Event) (owed : Owed) :
    Pairing Log Machine where
  Pair := { r : Log // Kept far past owed r }
  left p := p.1
  right p := p.1.machine
  Leads p q := p.1.machine.Evolves q.1.machine
  refl p := .refl p.1.machine
  trans := .trans
  Stops s s' := s = s'
  Excused _ := False

abbrev Beside {α β : Type} (p : (keeping far past owed).Pair) (act : Run α) (other : Exec β)
    (post : α → β → Machine → Prop) : Prop :=
  (keeping far past owed).Runs p act other fun a b q => post a b q.1.machine

/-- The same value, and one that the store holds. -/
def Same (far : NodeId → Option Nat → Prop) (v w : Value) (m : Machine) : Prop :=
  v = w ∧ m.heap.Holds far v

variable {p : (keeping far past owed).Pair} {α : Type}

/-! ### Events -/

/-- The pair with more that is owed. -/
def owing (p : (keeping far past owed).Pair) (h : ∀ x frame e, owed x frame e → owed' x frame e) :
    (keeping far past owed').Pair :=
  ⟨p.1, p.2.sound, p.2.grew,
    fun event he => (p.2.assigns event he).imp fun x frame e hx => hx.imp_right (h x frame e),
    p.2.latest, p.2.reads⟩

/-- The event goes from one state to the other. -/
def Spans (event : State → Except Stop α → State → Event) : Prop :=
  ∀ before result after, (event before result after).before = before ∧
    (event before result after).after = after

theorem spans_eval (home : Home) (e : Expr) : Spans (Event.eval home e) :=
  fun _ _ _ => ⟨rfl, rfl⟩

theorem spans_exec (home : Home) (s : Stmt) : Spans (Event.exec home s) :=
  fun _ _ _ => ⟨rfl, rfl⟩

theorem Spans.grew {event : State → Except Stop α → State → Event} (h : Spans event)
    {t u : State} (ht : t.machine.Sound far) (hu : u.machine.Sound far)
    (htu : t.machine.Evolves u.machine) (result : Except Stop α) : (event t result u).Grew := by
  obtain ⟨hb, ha⟩ := h t result u
  refine ⟨?_, ?_, ?_⟩
  · rw [hb]
    exact ht.heap.ordered.rooted
  · rw [hb, ha]
    exact htu.grows
  · rw [ha]
    exact hu.heap.ordered.rooted

section

variable {β γ δ : Type} {event : State → Except Stop α → State → Event}

/-- A step is noted when it ends. -/
theorem beside_note (hspan : Spans event)
    (howed : ∀ x frame e, owed x frame e → owed' x frame e) {act : Run α} {other : Exec β}
    {post : α → β → Machine → Prop} (h : Beside (owing p howed) act other post)
    (hok : ∀ {a b} {u : State}, other p.1.machine = .ok b u.machine → post a b u.machine →
      Fits owed owed' u.machine u.machine (event p.1.toState (.ok a) u))
    (herror : ∀ {stop} {u : State}, other p.1.machine = .error stop u.machine →
      Fits owed owed' u.machine u.machine (event p.1.toState (.error stop) u)) :
    Beside p (note event act) other post := by
  intro _
  have h := h fun _ _ _ hx => hx
  simp only [keeping, owing, note] at h ⊢
  split at h
  · next hl hr =>
    obtain ⟨q, rfl, rfl, hq, hp⟩ := h
    have hg := hspan.grew p.2.sound q.2.sound hq
    rw [hl, hr]
    exact ⟨⟨_, q.2.push q.2.sound (hg _) (hok hr hp)⟩, rfl, rfl, hq, hp⟩
  · next hl hr =>
    obtain ⟨rfl, q, rfl, rfl, hq⟩ := h
    have hg := hspan.grew p.2.sound q.2.sound hq
    rw [hl, hr]
    exact ⟨rfl, ⟨_, q.2.push q.2.sound (hg _) (herror hr)⟩, rfl, rfl, hq⟩
  · exact h.elim

/-- A piece of code that reads and sets no field and assigns to nothing. -/
theorem beside_plain (hspan : Spans event)
    (hplain : ∀ before result after, (event before result after).Plain)
    {act : Run α} {other : Exec β} {post : α → β → Machine → Prop} (h : Beside p act other post) :
    Beside p (note event act) other post :=
  beside_note hspan (fun _ _ _ => id) h
    (fun _ _ => .of_plain (hplain _ _ _) (fun _ _ _ => .inl) _)
    fun _ => .of_plain (hplain _ _ _) (fun _ _ _ => .inl) _

theorem beside_eval (home : Home) {e : Expr} (he : e.Plain) {act : Run Value} {other : Exec β}
    {post : Value → β → Machine → Prop} (h : Beside p act other post) :
    Beside p (note (.eval home e) act) other post :=
  beside_plain (spans_eval home e) (fun _ _ _ => he) h

theorem beside_exec (home : Home) (s : Stmt) {act : Run Flow} {other : Exec β}
    {post : Flow → β → Machine → Prop} (h : Beside p act other post) :
    Beside p (note (.exec home s) act) other post :=
  beside_plain (spans_exec home s) (fun _ _ _ => trivial) h

/-- Of a noted step the first part may be taken. -/
theorem beside_noteSince (hspan : Spans event) {base : (keeping far past owed).Pair}
    (hb : (keeping far past owed).Leads base p) {act : Run γ} {other : Exec δ}
    {post : γ → δ → Machine → Prop} {f : γ → Run α} {g : δ → Exec β}
    {post' : α → β → (keeping far past owed).Pair → Prop} (h : Beside p act other post)
    (hf : ∀ c d q, (keeping far past owed).Leads p q → other p.1.machine = .ok d q.1.machine →
      post c d q.1.machine → (keeping far past owed).RunsFrom base q
        (noteSince base.1.toState event (f c)) (g d) post')
    (herror : ∀ stop (u : State),
      Fits owed owed u.machine u.machine (event base.1.toState (.error stop) u)) :
    (keeping far past owed).RunsFrom base p (noteSince base.1.toState event (act >>= f))
      (other >>= g) post' := by
  intro hx
  have h := h fun _ _ _ hx => hx
  simp only [keeping, noteSince, Bind.bind, EStateM.bind] at h ⊢
  split at h
  · next hl hr =>
    obtain ⟨q, rfl, rfl, hq, hp⟩ := h
    rw [hl, hr]
    exact hf _ _ q hq hr hp fun _ _ _ hx => hx
  · next hl hr =>
    obtain ⟨rfl, q, rfl, rfl, hq⟩ := h
    have hg := hspan.grew base.2.sound q.2.sound (hb.trans hq)
    rw [hl, hr]
    exact ⟨rfl, ⟨_, q.2.push q.2.sound (hg _) (herror _ _)⟩, rfl, rfl, hb.trans hq⟩
  · exact h.elim

theorem beside_noteSince_fail (hspan : Spans event) {base : (keeping far past owed).Pair}
    (hb : (keeping far past owed).Leads base p) (blamed : Token) (cause : RuntimeError.Cause)
    {post : α → β → (keeping far past owed).Pair → Prop}
    (herror : ∀ stop (u : State),
      Fits owed owed u.machine u.machine (event base.1.toState (.error stop) u)) :
    (keeping far past owed).RunsFrom base p
      (noteSince base.1.toState event (lift (Exec.fail blamed cause))) (Exec.fail blamed cause)
      post :=
  fun _ => ⟨rfl, ⟨_, p.2.push p.2.sound (hspan.grew base.2.sound p.2.sound hb _) (herror _ _)⟩, rfl,
    rfl, hb⟩

end

/-! ### Steps of the machine -/

/-- The pair after a step that makes no event and leaves the fields as they are. -/
def advance (p : (keeping far past owed).Pair) (t : State) (ht : t.machine.Sound far)
    (hf : ∀ o x, t.heap.field? o x = p.1.machine.heap.field? o x) :
    (keeping far past owed).Pair :=
  ⟨{ p.1 with toState := t }, ht, p.2.grew, p.2.assigns, fun h => (hf _ _).trans (p.2.latest h),
    p.2.reads⟩

theorem beside_of_ok {act : Run α} {other : Exec α} {post : α → α → Machine → Prop} {a : α}
    {t : State} (he : other.Evolves) (hl : act p.1 = .ok a { p.1 with toState := t })
    (hr : other p.1.machine = .ok a t.machine) (hs : t.heap.Sound far)
    (hf : ∀ o x, t.heap.field? o x = p.1.machine.heap.field? o x) (h : post a a t.machine) :
    Beside p act other post := by
  have hev : p.1.machine.Evolves t.machine := he.leads hr
  have ht : t.machine.Sound far :=
    ⟨fun hd => hev.distances_eq ▸ p.2.sound.table hd, hs⟩
  exact .of_ok (advance p t ht hf) hl hr hev h

theorem beside_lift {act : Exec α} {post : α → α → Machine → Prop} {a : α} {m : Machine}
    (he : act.Evolves) (h : act p.1.machine = .ok a m) (hs : m.heap.Sound far)
    (hf : ∀ o x, m.heap.field? o x = p.1.machine.heap.field? o x) (hpost : post a a m) :
    Beside p (lift act) act post := by
  refine beside_of_ok (t := { p.1.toState with machine := m }) he ?_ h hs hf hpost
  simp only [lift, h]

/-- A step that leaves the machine as it is. -/
theorem beside_still {act : Exec α} {post : α → α → Machine → Prop} {a : α}
    (h : act p.1.machine = .ok a p.1.machine) (hpost : post a a p.1.machine) :
    Beside p (lift act) act post :=
  .of_ok p (lift_of_ok h) h (.refl _) hpost

theorem beside_lift_error {act : Exec α} {post : α → α → Machine → Prop} (stop : Stop)
    (h : act p.1.machine = .error stop p.1.machine) : Beside p (lift act) act post := by
  have hl : lift act p.1 = .error stop p.1 := by simp only [lift, h]
  exact .of_error hl h rfl

theorem beside_fail {post : α → α → Machine → Prop} (blamed : Token) (cause : RuntimeError.Cause) :
    Beside p (lift (Exec.fail blamed cause)) (Exec.fail blamed cause) post :=
  beside_lift_error _ rfl

theorem beside_inspect (question : Heap → α) :
    (keeping far past owed).Runs p (lift (Exec.inspect question)) (Exec.inspect question)
      fun a b q => a = question p.1.machine.heap ∧ b = a ∧ q = p :=
  .of_ok p rfl rfl (.refl _) ⟨rfl, rfl, rfl⟩

theorem beside_currentFrame :
    (keeping far past owed).Runs p (lift Exec.currentFrame) Exec.currentFrame
      fun a b q => a = p.1.machine.frame ∧ b = a ∧ q = p :=
  .of_ok p rfl rfl (.refl _) ⟨rfl, rfl, rfl⟩

theorem beside_distance? (id : NodeId) :
    (keeping far past owed).Runs p (lift (Exec.distance? id)) (Exec.distance? id)
      fun a b q => a = p.1.machine.distances[id]? ∧ b = a ∧ q = p :=
  .of_ok p rfl rfl (.refl _) ⟨rfl, rfl, rfl⟩

theorem beside_print (line : String) :
    Beside p (lift (Exec.print line)) (Exec.print line) fun _ _ _ => True := by
  by_cases h : p.1.machine.sink.hasRoom = true
  · have hprint : Exec.print line p.1.machine =
        .ok () { p.1.machine with sink := p.1.machine.sink.push line } := by
      simp [Exec.print, h]
    exact beside_lift (.print line) hprint p.2.sound.heap (fun _ _ => rfl) trivial
  · exact beside_lift_error .sinkFull (by simp [Exec.print, h])

/-! ### Variables -/

theorem beside_getAt (frame : Machine → FrameId) (d : Nat) (x : String) :
    Beside p (lift (Exec.ask fun m => m.heap.getAt (frame m) d x))
      (Exec.ask fun m => m.heap.getAt (frame m) d x) (Same far) := by
  rcases hv : p.1.machine.heap.getAt (frame p.1.machine) d x with fault | v
  · exact beside_lift_error (.fault fault) (by simp only [Exec.ask, hv])
  · obtain ⟨q, hq⟩ := getAt_eq_ok hv
    exact beside_still (a := v) (by simp only [Exec.ask, hv]) ⟨rfl, p.2.sound.heap.locals hq⟩

theorem beside_getFrom (name : Token) :
    Beside p (lift (Exec.getFrom Machine.globals name)) (Exec.getFrom Machine.globals name)
      (Same far) := by
  unfold Exec.getFrom
  rw [lift_bind]
  refine (beside_inspect _).bind ?_
  rintro v _ q - ⟨rfl, rfl, rfl⟩
  rcases hv : q.1.machine.heap.get? Machine.globals name.lexeme with _ | v
  · exact beside_fail name _
  · rw [Machine.globals, Heap.get?_globals] at hv
    exact beside_still rfl ⟨rfl, q.2.sound.heap.locals hv⟩

theorem beside_read (id : NodeId) (name : Token) :
    Beside p (lift (Exec.read id name)) (Exec.read id name) (Same far) := by
  unfold Exec.read
  rw [lift_bind]
  refine (beside_distance? id).bind ?_
  rintro _ d q - ⟨-, rfl, rfl⟩
  cases d with
  | some d => exact beside_getAt (·.frame) d name.lexeme
  | none => exact beside_getFrom name

/-- A name is given a value in some frame. -/
theorem beside_defineIn {act : Exec Unit} {e : FrameId} {x : String} {v : Value}
    (he : act.Evolves)
    (h : act p.1.machine =
      .ok () { p.1.machine with heap := p.1.machine.heap.define e x v })
    (hv : (p.1.machine.heap.define e x v).Holds far v) :
    Beside p (lift act) act fun _ _ _ => True :=
  beside_lift he h (p.2.sound.heap.define e x hv) (fun _ _ => rfl) trivial

theorem beside_define {scopes : Scopes} (hc : Covers p.1.machine.heap p.1.machine.frame scopes)
    {x : String} {v : Value}
    (hv : (p.1.machine.heap.define p.1.machine.frame x v).Holds far v) :
    Beside p (lift (Exec.define x v)) (Exec.define x v) fun _ _ m =>
      (m.heap.local? m.frame x).isSome :=
  beside_lift (.define x v) rfl (p.2.sound.heap.define _ x hv) (fun _ _ => rfl)
    (hc.bound_define p.2.sound.heap.ordered x v)

theorem beside_assignFrom (e : FrameId) (name : Token) {v : Value}
    (hv : p.1.machine.heap.Holds far v) :
    Beside p (lift (Exec.assignFrom e name v)) (Exec.assignFrom e name v) fun _ _ _ => True := by
  rcases hh : p.1.machine.heap.holder? e name.lexeme with _ | q
  · refine beside_lift_error
      (.error ⟨.undefinedVariable name.lexeme, name.line⟩) ?_
    simp only [Exec.assignFrom, hh]
  · exact beside_defineIn (e := q) (x := name.lexeme) (.assignFrom e name v)
      (by simp only [Exec.assignFrom, hh]) (hv.grow (Heap.grows_define _ _ v))

theorem beside_assignAt (d : Nat) (x : String) {v : Value} (hv : p.1.machine.heap.Holds far v) :
    Beside p (lift (Exec.assignAt d x v)) (Exec.assignAt d x v) fun _ _ _ => True := by
  rcases hh : p.1.machine.heap.ancestor p.1.machine.frame d with fault | e
  · exact beside_lift_error (.fault fault) (by simp only [Exec.assignAt, hh])
  · exact beside_defineIn (e := e) (x := x) (.assignAt d x v) (by simp only [Exec.assignAt, hh])
      (hv.grow (Heap.grows_define _ _ v))

theorem beside_assign (id : NodeId) (name : Token) {v : Value}
    (hv : p.1.machine.heap.Holds far v) :
    Beside p (lift (Exec.assign id name v)) (Exec.assign id name v) fun _ _ _ => True := by
  unfold Exec.assign
  rw [lift_bind]
  refine (beside_distance? id).bind ?_
  rintro _ d q - ⟨-, rfl, rfl⟩
  cases d with
  | none => exact beside_assignFrom _ name hv
  | some d => exact beside_assignAt d name.lexeme hv

/-! ### Operators and natives -/

theorem holds_of_simple {v : Value} (hv : Simple v) (h : Heap) : h.Holds far v := by
  cases v with
  | function f => exact absurd rfl (hv.1 f)
  | «class» c => exact absurd rfl (hv.2.1 c)
  | «instance» o => exact absurd rfl (hv.2.2 o)
  | _ => trivial

theorem holds_ofLiteral (value : Literal) (h : Heap) : h.Holds far (.ofLiteral value) :=
  holds_of_simple (by cases value <;> simp [Simple, Value.ofLiteral]) h

theorem beside_ofResult (operator : Token) {result : Except RuntimeError.Cause Value}
    (h : ∀ {v}, result = .ok v → Simple v) :
    Beside p (lift (Exec.ofResult operator result)) (Exec.ofResult operator result) (Same far) := by
  cases result with
  | ok v => exact beside_still rfl ⟨rfl, holds_of_simple (h rfl) _⟩
  | error cause => exact beside_fail operator cause

theorem holds_answer {h : Heap} {arguments : List Value} (ha : ∀ v ∈ arguments, h.Holds far v)
    (answer : Native.Answer) : h.Holds far (answer.value arguments) := by
  cases answer with
  | plain value => exact holds_ofLiteral value h
  | argument i =>
    simp only [Native.Answer.value, List.getD_eq_getElem?_getD]
    rcases hi : arguments[i]? with _ | v
    · exact trivial
    · exact ha v (List.mem_of_getElem? hi)

theorem beside_callNative (paren : Token) (native : Native) {arguments : List Value}
    (ha : ∀ v ∈ arguments, p.1.machine.heap.Holds far v) :
    Beside p (lift (Exec.callNative paren native arguments))
      (Exec.callNative paren native arguments) (Same far) := by
  have hnow : Beside p (lift Exec.now) Exec.now fun a b _ => a = b :=
    beside_lift .now rfl p.2.sound.heap (fun _ _ => rfl) rfl
  unfold Exec.callNative
  rw [lift_bind]
  refine hnow.bind ?_
  rintro now _ q hq rfl
  rw [lift_bind]
  refine (beside_inspect _).bind ?_
  rintro _ answer r - ⟨-, rfl, rfl⟩
  cases answer with
  | ok answer =>
    exact beside_still rfl ⟨rfl, holds_answer (fun v hv => (ha v hv).grow hq.grows) answer⟩
  | error message => exact beside_fail paren _

/-! ### Frames -/

/-- A new frame covers the scope whose names it binds. -/
theorem beside_newFrame {outer : FrameId} {scopes : Scopes}
    (hc : Covers p.1.machine.heap outer scopes) {b : Bindings Value} {names : List String}
    (hn : ∀ x ∈ names, (b.find? x).isSome)
    (hb : ∀ x v, b.find? x = some v → p.1.machine.heap.Holds far v) :
    Beside p (lift (Exec.newFrame outer b)) (Exec.newFrame outer b)
      fun e e' m => e = e' ∧ Covers m.heap e (names :: scopes) :=
  beside_lift (.newFrame outer b) rfl
    (p.2.sound.heap.newFrame (hc.lt p.2.sound.heap.ordered) hb) (fun _ _ => rfl)
    ⟨rfl, hc.newFrame p.2.sound.heap.ordered hn⟩

/-- What the only name is bound to. -/
theorem eq_of_find?_insert {x y : String} {v w : Value}
    (h : ((Bindings.empty : Bindings Value).insert x v).find? y = some w) : w = v := by
  rw [Bindings.find?_insert, Bindings.find?_empty] at h
  split at h
  · exact (Option.some.inj h).symm
  · cases h

/-- The frame around the methods of a class whose superclass is `parent`. -/
theorem beside_methodFrame {scopes : Scopes} (superclass : Option Expr) {parent : Option ClassId}
    (hp : parent.isSome = superclass.isSome)
    (hparent : ∀ c, parent = some c → p.1.machine.heap.Holds far (.class c))
    (hc : Covers p.1.machine.heap p.1.machine.frame scopes) :
    Beside p (lift (methodFrame p.1.machine.frame parent)) (methodFrame p.1.machine.frame parent)
      fun e e' m => e = e' ∧ Covers m.heap e (scopes.ofClass superclass) := by
  cases superclass with
  | none =>
    obtain rfl : parent = none := by simpa using hp
    exact beside_still rfl ⟨rfl, hc⟩
  | some e =>
    obtain ⟨c, rfl⟩ := Option.isSome_iff_exists.1 hp
    exact beside_newFrame hc (by simp [Bindings.find?_insert]) fun x v hv =>
      eq_of_find?_insert hv ▸ hparent c rfl

/-- The pair with another current frame. -/
def enter (p : (keeping far past owed).Pair) (e : FrameId) : (keeping far past owed).Pair :=
  advance p { p.1.toState with machine := { p.1.machine with frame := e } }
    ⟨p.2.sound.table, p.2.sound.heap⟩ fun _ _ => rfl

theorem beside_withFrame {β : Type} {e : FrameId} {act : Run α} {other : Exec β}
    {post post' : α → β → Machine → Prop} (h : Beside (enter p e) act other post)
    (hpost : ∀ a b m, post a b m → post' a b { m with frame := p.1.machine.frame }) :
    Beside p (withFrame e act) (Exec.withFrame e other) post' := by
  intro _
  have h := h fun _ _ _ hx => hx
  simp only [keeping, enter, advance] at h
  simp only [keeping, withFrame, Exec.withFrame]
  split at h
  · next r m hl hr =>
    obtain ⟨q, rfl, rfl, hq, hp⟩ := h
    rw [hl, hr]
    exact ⟨enter q p.1.machine.frame, rfl, rfl, hq.back, hpost _ _ _ hp⟩
  · next r m hl hr =>
    obtain ⟨rfl, q, rfl, rfl, hq⟩ := h
    rw [hl, hr]
    exact ⟨rfl, enter q p.1.machine.frame, rfl, rfl, hq.back⟩
  · exact h.elim

/-! ### Closures -/

/-- A value that is this closure. -/
def Made (f : Closure) (v : Value) (m : Machine) : Prop :=
  ∃ i, v = .function i ∧ i.index < m.heap.closures.size ∧ m.heap.closure i = f

theorem Made.holds {f : Closure} {v : Value} {m : Machine} (hm : Made f v m) {h : Heap}
    (g : m.heap.Grows h) (hf : Enclosed far h f) : h.Holds far v := by
  obtain ⟨i, rfl, hi, rfl⟩ := hm
  refine ⟨hi.trans_le g.closures, ?_⟩
  rwa [g.closure i hi]

theorem beside_newClosure {f : Function} {scopes : Scopes}
    (hf : Covers p.1.machine.heap f.closure.frame scopes) :
    Beside p (newClosure f) (Exec.newClosure f.closure)
      fun v w m => v = w ∧ Made f.closure v m := by
  have heq := Heap.newClosure_eq p.1.machine.heap f.closure
  have hsound : (p.1.machine.heap.newClosure f.closure).2.Sound far := by
    rw [heq]
    refine p.2.sound.heap.addClosures fun g hg => ?_
    cases Array.mem_singleton.1 hg
    exact hf.lt p.2.sound.heap.ordered
  refine beside_of_ok (a := .function ⟨p.1.machine.heap.closures.size⟩) (t :=
    { machine := { p.1.machine with heap := (p.1.machine.heap.newClosure f.closure).2 }
      homes := p.1.homes.push f.home }) (.newClosure f.closure) ?_ rfl hsound (fun _ _ => rfl)
    ⟨rfl, _, rfl, ?_, Heap.closure_newClosure _ _⟩
  · simp [newClosure_eq]
  · simp [Heap.newClosure]

/-- A method that is bound stands in the scope of `this`. -/
theorem beside_bindThis {f : Function} (hf : Waiting far p.1.machine.heap f.closure)
    {o : InstanceId} (ho : p.1.machine.heap.Holds far (.instance o)) :
    Beside p (bindThis f o) (Exec.bindThis f.closure o) fun g g' m =>
      g' = g.closure ∧ g.closure.decl = f.closure.decl ∧ Enclosed far m.heap g.closure := by
  obtain ⟨scopes, hc, hd⟩ := hf
  have hlt := hc.lt p.2.sound.heap.ordered
  have hs := p.2.sound.heap.newFrame hlt (b := Bindings.empty.insert "this" (.instance o))
    fun x v hv => eq_of_find?_insert hv ▸ ho
  refine .of_ok (a := f.boundIn p.1.toState o) (b := (f.boundIn p.1.toState o).closure)
    (advance p (p.1.toState.bindFrame f.closure o) ⟨p.2.sound.table, hs⟩ fun _ _ => rfl) rfl rfl
    (.of_change (.newFrame _ _)) ⟨rfl, rfl, ["this"] :: scopes, ?_, hd⟩
  exact hc.newFrame p.2.sound.heap.ordered (by simp [Bindings.find?_insert])

theorem beside_boundMethod {f : Function} (hf : Waiting far p.1.machine.heap f.closure)
    {o : InstanceId} (ho : p.1.machine.heap.Holds far (.instance o)) :
    Beside p (do newClosure (← bindThis f o))
      (do Exec.newClosure (← Exec.bindThis f.closure o)) (Same far) := by
  refine (beside_bindThis hf ho).bind ?_
  rintro g _ q - ⟨rfl, -, hg⟩
  obtain ⟨scopes, hc, -⟩ := id hg
  refine (beside_newClosure hc).imp ?_
  rintro v _ r hr ⟨rfl, hm⟩
  exact ⟨rfl, hm.holds (.refl _) (hg.grow hr.grows)⟩

/-! ### Methods and properties -/

theorem beside_function (f : ClosureId) :
    (keeping far past owed).Runs p (function f) (Exec.inspect (·.closure f)) fun g g' q =>
      g.closure = p.1.machine.heap.closure f ∧ g' = g.closure ∧ q = p :=
  .of_ok p rfl rfl (.refl _) ⟨rfl, rfl, rfl⟩

theorem beside_method? {question : Heap → Option Closure} {c : ClassId} {x : String}
    (hq : question p.1.machine.heap = p.1.machine.heap.method? c x) :
    (keeping far past owed).Runs p (method? c x) (Exec.inspect question) fun a b q =>
      b = a.map Function.closure ∧ b = p.1.machine.heap.method? c x ∧ q = p ∧
        ∀ f, a = some f → Waiting far q.1.machine.heap f.closure := by
  refine .of_ok p (method?_eq _ c x) rfl (.refl _)
    ⟨hq.trans (p.1.toState.closure_method? c x).symm, hq, rfl, fun f hf => ?_⟩
  obtain ⟨i, hi, rfl⟩ := Option.map_eq_some_iff.1 hf
  exact (p.2.sound.heap.method_of_findMethod? hi).2

/-- A method that is found is bound, else its name is blamed. -/
theorem beside_bound {f : Option Function}
    (hf : ∀ g, f = some g → Waiting far p.1.machine.heap g.closure) {o : InstanceId}
    (ho : p.1.machine.heap.Holds far (.instance o)) (x : Token) :
    Beside p
      (match f with
        | some f => do newClosure (← bindThis f o)
        | none => lift (Exec.fail x (.undefinedProperty x.lexeme)))
      (match f.map Function.closure with
        | some f => do Exec.newClosure (← Exec.bindThis f o)
        | none => Exec.fail x (.undefinedProperty x.lexeme)) (Same far) := by
  cases f with
  | none => exact beside_fail x _
  | some f => exact beside_boundMethod (hf f rfl) ho

theorem beside_getProperty {o : InstanceId} (ho : p.1.machine.heap.Holds far (.instance o))
    (name : Token) :
    Beside p (getProperty o name) (Exec.getProperty o name) (Same far) := by
  unfold getProperty Exec.getProperty
  refine (beside_inspect _).bind ?_
  rintro _ _ q - ⟨rfl, rfl, rfl⟩
  rcases hv : q.1.machine.heap.field? o name.lexeme with _ | v
  · refine .left (a := (q.1.machine.heap.instanceAt o).classId) rfl ?_
    refine (beside_method? rfl).bind ?_
    rintro f _ r - ⟨rfl, -, rfl, hf⟩
    exact beside_bound hf ho name
  · exact .pure ⟨rfl, q.2.sound.heap.fields hv⟩

theorem beside_getSuper (id : NodeId) (keyword method : Token) :
    Beside p (getSuper id keyword method) (Exec.getSuper id keyword method) (Same far) := by
  unfold getSuper Exec.getSuper
  refine (beside_distance? id).bind ?_
  rintro _ d q - ⟨-, rfl, rfl⟩
  cases d with
  | none => exact beside_fail keyword _
  | some d =>
    refine (beside_getAt (·.frame) d "super").bind ?_
    rintro parent _ r - ⟨rfl, -⟩
    cases d with
    | zero => exact .throw rfl
    | succ inner =>
      refine (beside_getAt (·.frame) inner "this").bind ?_
      rintro receiver _ u - ⟨rfl, hreceiver⟩
      cases parent with
      | «class» c =>
        cases receiver with
        | «instance» o =>
          refine (beside_method? rfl).bind ?_
          rintro f _ w - ⟨rfl, -, rfl, hf⟩
          exact beside_bound hf hreceiver method
        | _ => exact beside_fail keyword _
      | _ => exact beside_fail keyword _

theorem beside_newInstance (c : ClassId) :
    Beside p (lift (Exec.modifyHeap fun h => h.newInstance c))
      (Exec.modifyHeap fun h => h.newInstance c) fun o o' m =>
        o = o' ∧ m.heap.Holds far (.instance o) ∧ m.heap.classes = p.1.machine.heap.classes ∧
          m.heap.closures = p.1.machine.heap.closures := by
  refine beside_lift (.newInstance c) rfl (p.2.sound.heap.newInstance c)
    (fun o x => Heap.field?_newInstance _ c o x) ⟨rfl, ?_, rfl, rfl⟩
  show p.1.machine.heap.instances.size < (p.1.machine.heap.newInstance c).2.instances.size
  simp [Heap.newInstance]

theorem beside_newClass (name : String) {parent : Option ClassId}
    (hparent : ∀ c, parent = some c → p.1.machine.heap.Holds far (.class c))
    {methods : List FunDecl} {e : FrameId} {scopes : Scopes}
    (he : Covers p.1.machine.heap e scopes)
    (hm : FunDecl.ScopedAll far (["this"] :: scopes) methods) :
    Beside p (newClass name parent methods e) (Exec.newClass name parent methods e) (Same far) := by
  have heq := Exec.newClass_eq name parent methods e p.1.machine
  refine beside_of_ok (a := .class ⟨p.1.machine.heap.classes.size⟩)
    (t := p.1.toState.pushClosures (methodClosures methods e)
      (Array.replicate methods.length ⟨none, parent⟩) (p.1.machine.heap.classes.push
        ⟨name, parent, methodTable p.1.machine.heap.closures.size methods .empty⟩))
    (.newClass name parent methods e) (newClass_of_ok heq) heq
    (p.2.sound.heap.declareClass name hparent he hm) (fun _ _ => rfl) ⟨rfl, ?_⟩
  simp [Heap.Holds, State.pushClosures]

/-! ### Reads -/

/-- How a step ended, and where. -/
def ended (result : Except Stop α) (m : Machine) : EStateM.Result Stop Machine α :=
  match result with
  | .ok a => .ok a m
  | .error stop => .error stop m

/-- Once the instance is there, what is left of a read is to look for the property. -/
theorem eval_get {object : Expr} {name : Token} {n n' : Nat} {o : InstanceId} {m m' : Machine}
    (ho : object.eval n' m = .ok (.instance o) m')
    (hends : ∀ u, (Expr.get object name).eval (n + 1) m ≠ .error .outOfFuel u) :
    (Expr.get object name).eval (n + 1) m = Exec.getProperty o name m' := by
  have hobject : object.eval n m = .ok (.instance o) m' := by
    refine Expr.eval_unique rfl ho (fun u hu => hends u ?_) (by simp)
    simp only [Expr.eval, bind, EStateM.bind, hu]
  simp only [Expr.eval, bind, EStateM.bind, hobject]

theorem instances_getProperty (o : InstanceId) (name : Token) (m : Machine) :
    ((Exec.getProperty o name).after m).heap.instances = m.heap.instances := by
  unfold Exec.after Exec.getProperty
  simp only [Exec.inspect, bind, EStateM.bind]
  rcases m.heap.field? o name.lexeme with _ | v
  · simp only [EStateM.bind, Exec.inspect]
    rcases m.heap.method? (m.heap.instanceAt o).classId name.lexeme with _ | f <;> rfl
  · rfl

/-- A field that is there is what a read comes to. -/
theorem getProperty_of_field {o : InstanceId} {name : Token} {m u : Machine}
    {result : Except Stop Value} {v : Value} (h : Exec.getProperty o name m = ended result u)
    (hv : u.heap.field? o name.lexeme = some v) : result = .ok v := by
  have hafter : (Exec.getProperty o name).after m = u := by
    rw [Exec.after, h]
    cases result <;> rfl
  have hinstances : u.heap.instances = m.heap.instances := hafter ▸ instances_getProperty o name m
  have hfield : m.heap.field? o name.lexeme = some v := by
    simpa only [Heap.field?, Heap.instanceAt, hinstances] using hv
  have hget : Exec.getProperty o name m = .ok v m := by
    simp only [Exec.getProperty, Exec.inspect, bind, EStateM.bind, hfield, pure, EStateM.pure]
  rw [hget] at h
  cases result with
  | ok w =>
    cases h
    rfl
  | error stop => cases h

theorem fits_get {object : Expr} {name : Token} {n : Nat} {home : Home} {t u : State}
    {result : Except Stop Value}
    (h : (Expr.get object name).eval (n + 1) t.machine = ended result u.machine) :
    Fits owed owed u.machine u.machine (.eval home (.get object name) t result u) where
  assigns := trivial
  owes _ _ _ := .inl
  sets hs := by simp at hs
  others _ := rfl
  reads hr hv := by
    obtain ⟨_, _, he, rfl, rfl, hends, n', m, ho⟩ := Event.reads_eval.1 hr
    cases he
    refine getProperty_of_field (m := m) ?_ hv
    rw [← h, eval_get ho]
    intro u' hu
    rw [h] at hu
    cases result with
    | ok => cases hu
    | error stop =>
      cases hu
      exact hends rfl

/-! ### Assignments -/

/-- The expression stands in the initializer that is running, if there is one. -/
def Owes (owed : Owed) (frame : FrameId) (pending : Option String) (e : Expr) : Prop :=
  ∀ x, pending = some x → ∀ part : Expr, part.Inside e → owed x frame part

theorem Owes.none (frame : FrameId) (e : Expr) : Owes owed frame none e :=
  fun _ h => by cases h

theorem Owes.part {frame : FrameId} {pending : Option String} {e part : Expr}
    (h : Owes owed frame pending e) (hp : part ∈ e.parts) : Owes owed frame pending part :=
  fun x hx _ hi => h x hx _ (hi.of_part hp)

/-- Where a name has a distance, the frame there binds it, or the name has no value yet and the
assignment is excused. -/
theorem assigned_of_bound {excused : Prop} {id : NodeId} {name : Token} {v : Value} {m : Machine}
    (hb : ∀ d, m.distances[id]? = some d → ∃ e, m.heap.ancestor? m.frame d = some e ∧
      ((m.heap.local? e name.lexeme).isSome ∨ d = 0 ∧ excused)) :
    ∃ result u, (do Exec.assign id name v; return v : Exec Value) m = ended result u ∧
      Assigned excused id name v m result u ∧ (excused ∨ m.heap.SameNames u.heap) := by
  simp only [Exec.assign, Exec.distance?, bind, EStateM.bind]
  rcases hd : m.distances[id]? with _ | d
  · have hh : m.heap.holder? Machine.globals name.lexeme = _ :=
      Heap.holder?_globals m.heap name.lexeme
    by_cases hx : (m.heap.local? Machine.globals name.lexeme).isSome
    · refine ⟨.ok v, _, ?_, .global hd hx, .inr (Heap.sameNames_define hx v)⟩
      simp only [Exec.assignFrom, hh.trans (if_pos hx)]
      rfl
    · refine ⟨_, m, ?_, .missing hd (by simpa using hx), .inr fun _ _ => rfl⟩
      simp only [Exec.assignFrom, hh.trans (if_neg hx)]
      rfl
  · obtain ⟨e, he, hx⟩ := hb d hd
    have hassign : Exec.assignAt d name.lexeme v m =
        .ok () { m with heap := m.heap.define e name.lexeme v } := by
      simp only [Exec.assignAt, Heap.ancestor, he]
    refine ⟨.ok v, { m with heap := m.heap.define e name.lexeme v }, ?_, ?_⟩
    · simp only [hassign]
      rfl
    · rcases hx with hx | ⟨rfl, hx⟩
      · exact ⟨.inFrame hd he hx, .inr (Heap.sameNames_define hx v)⟩
      · cases he
        exact ⟨.excused hd hx, .inl hx⟩

theorem fits_assign {id : NodeId} {name : Token} {value : Expr} {n : Nat} {home : Home}
    {t u : State} {result : Except Stop Value} {scopes : Scopes} {pending : Option String}
    (ht : t.machine.Sound far) (hc : CoversBut t.machine.heap t.machine.frame scopes pending)
    (ho : Owes owed t.machine.frame pending (.assign id name value))
    (hid : far id (scopes.distance? name.lexeme))
    (h : (Expr.assign id name value).eval (n + 1) t.machine = ended result u.machine) :
    Fits owed owed u.machine u.machine (.eval home (.assign id name value) t result u) where
  assigns := by
    rcases hv : value.eval n t.machine with ⟨v, m⟩ | ⟨stop, m⟩
    · have hm : t.machine.Evolves m := Exec.Evolves.leads ((evolving n).eval value) hv
      have hbound : ∀ d, m.distances[id]? = some d → ∃ e, m.heap.ancestor? m.frame d = some e ∧
          ((m.heap.local? e name.lexeme).isSome ∨
            d = 0 ∧ owed name.lexeme t.machine.frame (.assign id name value)) := by
        intro d hd
        rw [hm.distances_eq, ht.table hid] at hd
        obtain ⟨e, he, hx⟩ := (hc.grow hm.grows).bound hd
        rw [hm.frame_eq]
        exact ⟨e, he, hx.imp_right fun hx => ⟨hx.1, ho _ hx.2 _ .refl⟩⟩
      obtain ⟨result', u', hu, ha, hs⟩ := assigned_of_bound hbound (v := v)
      have heval : (Expr.assign id name value).eval (n + 1) t.machine = ended result' u' := by
        rw [← hu]
        simp only [Expr.eval, bind, EStateM.bind, hv]
      obtain ⟨rfl, rfl⟩ : result' = result ∧ u' = u.machine := by
        have := heval.symm.trans h
        cases result' <;> cases result <;> cases this <;> exact ⟨rfl, rfl⟩
      exact .inr ⟨n, v, m, hv, ha, hs⟩
    · have heval : (Expr.assign id name value).eval (n + 1) t.machine = .error stop m := by
        simp only [Expr.eval, bind, EStateM.bind, hv]
      rw [h] at heval
      cases result with
      | ok => cases heval
      | error stop' =>
        cases heval
        exact .inl ⟨n, stop, hv, rfl⟩
  owes _ _ _ := .inl
  sets hs := by simp at hs
  others _ := rfl
  reads hr := by simp at hr

/-- While an initializer runs, its variable is owed the value. -/
def Owed.declaring (owed : Owed) (name : Token) (value : Expr) (frame : FrameId) : Owed :=
  fun x e part => owed x e part ∨ name.lexeme = x ∧ frame = e ∧ part.Inside value

/-- A declaration that has ended excuses what its initializer has assigned. -/
theorem fits_var {name : Token} {value : Expr} {home : Home} {t u : State}
    {result : Except Stop Flow} :
    Fits owed (owed.declaring name value t.machine.frame) u.machine u.machine
      (.exec home (.var name (some value)) t result u) := by
  refine .of_plain ?_ (fun x frame part ho => ?_) _
  · trivial
  · exact ho.imp_right fun hd => ⟨home, name, value, t, result, u, rfl, hd⟩

/-! ### Fields that are set -/

/-- The last step of what sets a field. -/
theorem beside_setField {base : (keeping far past owed).Pair}
    (hb : (keeping far past owed).Leads base p) {object value : Expr} {name : Token} (home : Home)
    {o : InstanceId} {v : Value} {n : Nat} {m : Machine}
    (hobject : object.eval n base.1.machine = .ok (.instance o) m)
    (ho : p.1.machine.heap.Holds far (.instance o)) (hv : p.1.machine.heap.Holds far v) :
    (keeping far past owed).RunsFrom base p
      (noteSince base.1.toState (.eval home (.set object name value))
        (do lift (Exec.setProperty o name v); return v))
      (do Exec.setProperty o name v; return v) fun a b q => Same far a b q.1.machine := by
  let u : State := { p.1.toState with machine := { p.1.machine with
    heap := p.1.machine.heap.setField o name.lexeme v } }
  let event : Event := .eval home (.set object name value) base.1.toState (.ok v) u
  have hset : event.Sets o name.lexeme v :=
    ⟨home, object, name, value, _, _, rfl, rfl, n, m, hobject⟩
  have hfield := Heap.field?_setField_eq (h := p.1.machine.heap) ho (x := name.lexeme) (v := v)
  have hu : u.machine.Sound far :=
    ⟨p.2.sound.table, p.2.sound.heap.setField o name.lexeme hv⟩
  have hleads : p.1.machine.Evolves u.machine := .of_change (.setField o name.lexeme v)
  have hgrew : event.Grew :=
    ⟨base.2.sound.heap.ordered.rooted, (hb.trans hleads).grows, hu.heap.ordered.rooted⟩
  have hfits : Fits owed owed p.1.machine u.machine event :=
    { assigns := trivial
      owes := fun _ _ _ => .inl
      sets := fun {o' x' v'} hs => by
        obtain ⟨rfl, rfl, rfl⟩ := hset.unique hs
        exact (hfield o name.lexeme).trans (if_pos ⟨rfl, rfl⟩)
      others := fun {o' x'} hn => by
        refine (hfield o' x').trans (if_neg ?_)
        rintro ⟨rfl, rfl⟩
        exact hn v hset
      reads := fun hr => by simp [event] at hr }
  exact .of_ok ⟨_, p.2.push hu hgrew hfits⟩ rfl rfl (hb.trans hleads)
    ⟨rfl, hv.grow (Heap.grows_setField o name.lexeme v)⟩

end History

end Lox.Traced
