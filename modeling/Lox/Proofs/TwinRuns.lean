import Lox.Proofs.Objects

/-!
# Steps of twins

Each step that touches the state, in both machines: twins stay twins, and the results are the same.
No step stops for a reason that only a wrong distance could give.
-/

namespace Lox

/-- What only a wrong distance could make a run complain about. -/
def RuntimeError.Cause.isInternal : RuntimeError.Cause → Bool
  | .superOutsideClass => true
  | .superNotBound => true
  | _ => false

/-- A jump to a frame or name that is not there, or a `super` that is not bound. -/
def Stop.isInternal : Stop → Bool
  | .fault _ => true
  | .error e => e.cause.isInternal
  | _ => false

namespace Lexical

open Twin (Leads)

abbrev SoundTwin := { t : Twin // t.Sound }

/-- Twins with the ways they change: while an expression runs, or while a statement does. -/
def twins (grows : Bool) : Pairing Machine State where
  Pair := SoundTwin
  left t := t.1.machine
  right t := t.1.lexical
  Leads t u := Leads grows t.1 u.1
  refl t := .refl grows t.1
  trans := .trans
  Stops s s' := s = s' ∧ s.isInternal = false
  Excused _ := False

theorem Runs.loud {grows : Bool} {α β : Type} {t : SoundTwin} {act : Exec α} {other : Run β}
    {post : α → β → SoundTwin → Prop} (h : (twins grows).Runs t act other post) :
    (twins true).Runs t act other post := by
  intro hx
  have h := h hx
  simp only [twins] at h ⊢
  split at h
  · obtain ⟨u, hl, hr, hu, hp⟩ := h
    exact ⟨u, hl, hr, hu.loud, hp⟩
  · obtain ⟨hs, u, hl, hr, hu⟩ := h
    exact ⟨hs, u, hl, hr, hu.loud⟩
  · exact h.elim

/-- The same value in both machines, and one that can be called if it is a function. -/
def Same (v w : Value) (t : SoundTwin) : Prop := v = w ∧ t.1.Holds v

variable {t : SoundTwin}

/-! ### Steps on the machine alone -/

theorem onMachine_bind {α β : Type} (act : Exec α) (f : α → Exec β) :
    onMachine (act >>= f) = onMachine act >>= fun a => onMachine (f a) := by
  funext r
  simp only [onMachine, Bind.bind, EStateM.bind]
  cases act r.machine <;> rfl

/-- Both machines after a step that frames and cells have no part in. -/
def Twin.withMachine (t : Twin) (m : Machine) : Twin :=
  { t with machine := m, lexical := { t.lexical with machine := m.withoutLocals } }

theorem runs_onMachine {α : Type} {act : Exec α} {m : Machine} {a : α}
    (hl : act t.1.machine = .ok a m)
    (hr : act t.1.machine.withoutLocals = .ok a m.withoutLocals)
    (hs : (t.1.withMachine m).Sound) (hu : Leads false t.1 (t.1.withMachine m)) :
    (twins false).Runs t act (onMachine act) fun b c u => b = a ∧ c = a ∧ u = ⟨_, hs⟩ := by
  refine .of_ok ⟨_, hs⟩ hl ?_ hu ⟨rfl, rfl, rfl⟩
  simp only [twins, onMachine, t.2.machine, hr]
  rfl

theorem runs_onMachine_error {α : Type} {act : Exec α} (stop : Stop)
    {post : α → α → SoundTwin → Prop} (hl : act t.1.machine = .error stop t.1.machine)
    (hr : act t.1.machine.withoutLocals = .error stop t.1.machine.withoutLocals)
    (hs : stop.isInternal = false) : (twins false).Runs t act (onMachine act) post := by
  refine .of_error hl ?_ ⟨rfl, hs⟩
  simp only [twins, onMachine, t.2.machine, hr]
  rw [← t.2.machine]

theorem runs_fail {α : Type} (blamed : Token) {cause : RuntimeError.Cause}
    {post : α → α → SoundTwin → Prop} (h : cause.isInternal = false) :
    (twins false).Runs t (Exec.fail blamed cause) (onMachine (Exec.fail blamed cause)) post :=
  runs_onMachine_error _ rfl rfl h

theorem runs_inspect {α : Type} {question : Heap → α}
    (h : question t.1.heap.withoutLocals = question t.1.heap) :
    (twins false).Runs t (Exec.inspect question) (onMachine (Exec.inspect question))
      fun a b u => a = question t.1.heap ∧ b = a ∧ u = t := by
  refine .of_ok t rfl ?_ (.refl false t.1) ⟨rfl, rfl, rfl⟩
  have : t.1.lexical.machine.heap = t.1.heap.withoutLocals := by rw [t.2.machine]; rfl
  simp only [twins, onMachine, Exec.inspect, this, h]
  rfl

/-- Printing and the clock touch no object. -/
theorem runs_output {α : Type} {act : Exec α} (sink : Sink) (readings : Nat) {a : α}
    (hl : act t.1.machine = .ok a { t.1.machine with sink, readings })
    (hr : act t.1.machine.withoutLocals = .ok a { t.1.machine.withoutLocals with sink, readings }) :
    (twins false).Runs t act (onMachine act) fun b c _ => b = c := by
  have hu : Leads false t.1 (t.1.withMachine { t.1.machine with sink, readings }) :=
    .of_same rfl rfl rfl rfl rfl rfl le_rfl fun _ _ => ⟨rfl, rfl⟩
  have hs := t.2.of_same hu rfl rfl rfl rfl t.2.size (fun h => hu.holds (t.2.fields h))
    (fun h => hu.method (t.2.methods h))
  refine (runs_onMachine hl hr hs hu).imp fun b c _ _ h => h.1.trans h.2.1.symm

theorem runs_print (line : String) :
    (twins false).Runs t (Exec.print line) (onMachine (Exec.print line)) fun _ _ _ => True := by
  by_cases h : t.1.machine.sink.hasRoom = true
  · refine (runs_output (t.1.machine.sink.push line) t.1.machine.readings (a := ()) ?_ ?_).imp
      fun _ _ _ _ _ => trivial
    · simp [Exec.print, h]
    · simp [Exec.print, Machine.withoutLocals, h]
  · have : t.1.machine.sink.hasRoom = false := by simpa using h
    refine runs_onMachine_error .sinkFull ?_ ?_ rfl
    · simp [Exec.print, this]
    · simp [Exec.print, Machine.withoutLocals, this]

theorem runs_now : (twins false).Runs t Exec.now (onMachine Exec.now) fun a b _ => a = b :=
  runs_output t.1.machine.sink (t.1.machine.readings + 1) rfl rfl

/-! ### Variables -/

/-- Where an expression stands: the current frame stands for the list in sight, but for a variable
in front of it whose initializer is running. -/
inductive Place (t : Twin) : Scopes → Option String → Locals → Prop
  | settled {scopes : Scopes} {locals : Locals} :
      Stands t.heap t.world t.machine.frame scopes locals → Place t scopes none locals
  | pending {name : String} {names : List String} {outer : Scopes} {locals : Locals} {c : CellId} :
      Stands t.heap t.world t.machine.frame (names :: outer) locals → IsName name →
      name ∉ (t.world t.machine.frame).map Prod.fst → t.Free c →
      Place t ((name :: names) :: outer) (some name) ((name, c) :: locals)

theorem Stands.ne_globals {h : Heap} {w : World} {e : FrameId} {names : List String}
    {scopes : Scopes} {locals : Locals} (hs : Stands h w e (names :: scopes) locals) :
    e ≠ Machine.globals := by
  rintro rfl
  cases hs with
  | inside _ he _ => exact absurd (Heap.enclosing?_lt he) (Nat.not_lt_zero _)

theorem Place.after {t u : SoundTwin} (h : Leads false t.1 u.1) {scopes : Scopes}
    {pending : Option String} {locals : Locals} (hp : Place t.1 scopes pending locals) :
    Place u.1 scopes pending locals := by
  cases hp with
  | settled hs =>
    refine .settled ?_
    rw [h.frame]
    exact h.stands hs
  | pending hs hx hn hc =>
    refine .pending ?_ hx ?_ (h.free hc)
    · rw [h.frame]
      exact h.stands hs
    · rw [h.frame, h.kept _ (hs.lt t.2.globals) (by simp)]
      exact hn

/-- A name that may be read has a frame at its distance and a cell in the list, or is global. -/
theorem Place.find {scopes : Scopes} {pending : Option String} {locals : Locals}
    (hp : Place t.1 scopes pending locals) {x : String} (hx : pending ≠ some x) :
    (scopes.distance? x = none ∧ locals.lookup x = none) ∨
    ∃ d p c, scopes.distance? x = some d ∧ t.1.heap.ancestor? t.1.machine.frame d = some p ∧
      (x, c) ∈ t.1.world p ∧ locals.lookup x = some c := by
  have settled : ∀ {scopes locals}, Stands t.1.heap t.1.world t.1.machine.frame scopes locals →
      (scopes.distance? x = none ∧ locals.lookup x = none) ∨
      ∃ d p c, scopes.distance? x = some d ∧ t.1.heap.ancestor? t.1.machine.frame d = some p ∧
        (x, c) ∈ t.1.world p ∧ locals.lookup x = some c := by
    intro scopes locals hs
    rcases hd : scopes.distance? x with _ | d
    · exact .inl ⟨rfl, hs.lookup_none hd⟩
    · obtain ⟨p, c, h⟩ := hs.find hd
      exact .inr ⟨d, p, c, rfl, h⟩
  cases hp with
  | settled hs => exact settled hs
  | @pending name names outer locals c hs _ _ _ =>
    have hne : x ≠ name := fun h => hx (by rw [h])
    have hl : ((name, c) :: locals).lookup x = locals.lookup x := by
      have : (x == name) = false := by simpa using hne
      rw [List.lookup_cons, this]
    have hd : Scopes.distance? ((name :: names) :: outer) x =
        Scopes.distance? (names :: outer) x := by
      simp [Scopes.distance?_cons, hne]
    rw [hl, hd]
    exact settled hs

/-- A name that may be written likewise, and what its frame and its cell hold is not shared. -/
theorem Place.owner {scopes : Scopes} {pending : Option String} {locals : Locals}
    (hp : Place t.1 scopes pending locals) (x : String) :
    (scopes.distance? x = none ∧ locals.lookup x = none) ∨
    ∃ d p c, scopes.distance? x = some d ∧ t.1.heap.ancestor? t.1.machine.frame d = some p ∧
      locals.lookup x = some c ∧ p.index < t.1.heap.frames.size ∧ p ≠ Machine.globals ∧
      c.index < t.1.lexical.cells.size ∧
      ∀ {q y k}, (y, k) ∈ t.1.world q → (k = c ↔ p = q ∧ x = y) := by
  by_cases hx : pending = some x
  · cases hp with
    | settled hs => cases hx
    | @pending name names outer locals c hs _ hn hc =>
      cases hx
      refine .inr ⟨0, t.1.machine.frame, c, by simp [Scopes.distance?_cons], rfl, by simp,
        hs.lt t.2.globals, hs.ne_globals, hc.1, fun hk => hc.owns hn hk⟩
  · rcases hp.find hx with h | ⟨d, p, c, hd, ha, hm, hl⟩
    · exact .inl h
    · refine .inr ⟨d, p, c, hd, ha, hl, t.2.lt_of_mem hm, ?_, t.2.lt_cells hm,
        fun hk => t.2.owns hm hk⟩
      rintro rfl
      rw [t.2.noCells _ (.inl rfl)] at hm
      cases hm

theorem heap_eq (t : SoundTwin) : t.1.lexical.machine.heap = t.1.heap.withoutLocals := by
  rw [t.2.machine]
  rfl

theorem runs_getFrom (name : Token) :
    (twins false).Runs t (Exec.getFrom Machine.globals name)
      (onMachine (Exec.getFrom Machine.globals name)) Same := by
  have hg : ∀ h : Heap, h.get? Machine.globals name.lexeme = h.local? Machine.globals name.lexeme :=
    fun h => h.get?_globals name.lexeme
  unfold Exec.getFrom
  rw [onMachine_bind]
  refine (runs_inspect ?_).bind ?_
  · rw [hg, hg, Heap.local?_withoutLocals]
  rintro v _ u - ⟨rfl, rfl, rfl⟩
  rw [hg]
  rcases hv : u.1.heap.local? Machine.globals name.lexeme with _ | v
  · exact runs_fail name rfl
  · exact .pure ⟨rfl, u.2.locals hv⟩

theorem runs_assignFrom (name : Token) {v : Value} (hv : t.1.Holds v) :
    (twins false).Runs t (Exec.assignFrom Machine.globals name v)
      (onMachine (Exec.assignFrom Machine.globals name v)) fun _ _ _ => True := by
  have hl : t.1.heap.withoutLocals.local? Machine.globals name.lexeme =
    t.1.heap.local? Machine.globals name.lexeme := rfl
  have hg : ∀ h : Heap, h.holder? Machine.globals name.lexeme =
      if (h.local? Machine.globals name.lexeme).isSome then some Machine.globals else none :=
    fun h => h.holder?_globals name.lexeme
  have he := heap_eq t
  by_cases hb : (t.1.heap.local? Machine.globals name.lexeme).isSome = true
  · have hm : t.1.machine.heap.holder? Machine.globals name.lexeme = some Machine.globals := by
      rw [hg]
      exact if_pos hb
    refine .of_ok (a := ()) (b := ()) ⟨_, t.2.defineGlobal name.lexeme hv⟩ ?_ ?_
      (Twin.defineGlobal_leads t.1 name.lexeme v) trivial
    · simp only [twins, Exec.assignFrom, hm]
      rfl
    · simp only [twins, onMachine, Exec.assignFrom, hg, he, hl, hb, if_true]
      rw [← he]
      rfl
  · have hm : t.1.machine.heap.holder? Machine.globals name.lexeme = none := by
      rw [hg]
      exact if_neg hb
    have hw : t.1.machine.withoutLocals.heap = t.1.heap.withoutLocals := rfl
    refine runs_onMachine_error (.error ⟨.undefinedVariable name.lexeme, name.line⟩) ?_ ?_ rfl
    · simp only [Exec.assignFrom, hm]
    · simp only [Exec.assignFrom, hg, hw, hl, if_neg hb]

theorem runs_getAt (e : Machine → FrameId) {d : Nat} {p : FrameId} {x : String} {c : CellId}
    (hp : t.1.heap.ancestor? (e t.1.machine) d = some p) (hc : (x, c) ∈ t.1.world p) :
    (twins false).Runs t (Exec.ask fun m => m.heap.getAt (e m) d x) (readCell c)
      fun v w u => Same v w u ∧ u = t ∧ t.1.heap.local? p x = some v := by
  obtain ⟨v, hv, hcell⟩ := t.2.cell hc
  have hp : t.1.machine.heap.ancestor? (e t.1.machine) d = some p := hp
  have hv' : t.1.machine.heap.local? p x = some v := hv
  refine .of_ok (a := v) (b := v) t ?_ ?_ (.refl false t.1) ⟨⟨rfl, t.2.locals hv⟩, rfl, hv⟩
  · simp [twins, Exec.ask, Heap.getAt, Heap.ancestor, hp, hv']
  · simp [twins, readCell, hcell]

theorem runs_read {scopes : Scopes} {pending : Option String} {locals : Locals} {id : NodeId}
    {name : Token} (hp : Place t.1 scopes pending locals)
    (hd : t.1.far id (scopes.distance? name.lexeme)) (hx : pending ≠ some name.lexeme) :
    (twins false).Runs t (Exec.read id name) (read locals name) Same := by
  have hid : (twins false).RunsFrom t t (Exec.read id name) (read locals name) Same := by
    unfold Exec.read read
    refine .left (a := t.1.machine.distances[id]?) rfl ?_
    rw [hd.2]
    rcases hp.find hx with ⟨hd, hl⟩ | ⟨d, p, c, hd, ha, hm, hl⟩
    · rw [hd, hl]
      exact runs_getFrom name
    · rw [hd, hl]
      exact (runs_getAt (·.frame) ha hm).imp fun _ _ _ _ h => h.1
  exact hid

theorem runs_assign {scopes : Scopes} {pending : Option String} {locals : Locals} {id : NodeId}
    {name : Token} {v : Value} (hp : Place t.1 scopes pending locals)
    (hd : t.1.far id (scopes.distance? name.lexeme)) (hx : IsName name.lexeme)
    (hv : t.1.Holds v) :
    (twins false).Runs t (Exec.assign id name v) (assign locals name v) fun _ _ _ => True := by
  show (twins false).RunsFrom t t _ _ _
  unfold Exec.assign assign
  refine .left (a := t.1.machine.distances[id]?) rfl ?_
  rw [hd.2]
  rcases hp.owner name.lexeme with ⟨hd, hl⟩ | ⟨d, p, c, hd, ha, hl, hlt, hg, hc, hown⟩
  · rw [hd, hl]
    exact runs_assignFrom name hv
  · rw [hd, hl]
    have ha : t.1.machine.heap.ancestor? t.1.machine.frame d = some p := ha
    refine .of_ok (a := ()) (b := ()) ⟨_, t.2.write hlt hg hx hc hown hv⟩ ?_ ?_
      (Twin.write_leads t.1 p hx c v) trivial
    · simp only [twins, Exec.assignAt, Heap.ancestor, ha]
      rfl
    · rfl

end Lexical

end Lox
