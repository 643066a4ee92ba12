import Lox.Proofs.Flows
import Lox.Proofs.Homes
import Lox.Proofs.ObjectRuns

/-!
# Traced steps

A run with a trace beside the run without: the machine is the same after every step, the frames of
whatever can be called go on serving its home, and every event is as it should be.
-/

namespace Lox.Traced

/-- What holds of every event of a run. -/
def Event.Good (event : Event) : Prop := event.SeesHome ∧ event.KeepsFlow

structure Log.Faithful (far : NodeId → Option Nat → Prop) (r : Log) : Prop where
  sound : r.toState.Sound far
  events : ∀ event ∈ r.events, event.Good

variable {far : NodeId → Option Nat → Prop}

/-- A faithful log beside its machine. -/
def runs (far : NodeId → Option Nat → Prop) : Pairing Log Machine where
  Pair := { r : Log // r.Faithful far }
  left p := p.1
  right p := p.1.machine
  Leads p q := Leads p.1.toState q.1.toState
  refl p := .refl p.1.toState
  trans := .trans
  Stops s s' := s = s'
  Excused _ := False

/-- The traced step comes to what the plain one comes to, and the state is as told. -/
abbrev Beside {α β : Type} (p : (runs far).Pair) (act : Run α) (other : Exec β)
    (post : α → β → State → Prop) : Prop :=
  (runs far).Runs p act other fun a b q => post a b q.1.toState

/-- The same value, and one that can be called if it is a function. -/
def Same (far : NodeId → Option Nat → Prop) (v w : Value) (t : State) : Prop :=
  v = w ∧ t.Holds far v

variable {p : (runs far).Pair} {α : Type}

/-! ### Steps of the machine -/

/-- The pair after a step that makes no event. -/
def advance (p : (runs far).Pair) (t : State) (ht : t.Sound far) : (runs far).Pair :=
  ⟨{ p.1 with toState := t }, ht, p.2.events⟩

theorem beside_of_ok {act : Run α} {other : Exec α} {post : α → α → State → Prop} {a : α}
    {t : State} (hl : act p.1 = .ok a { p.1 with toState := t })
    (hr : other p.1.machine = .ok a t.machine) (ht : t.Sound far) (hp : Leads p.1.toState t)
    (h : post a a t) : Beside p act other post :=
  .of_ok (advance p t ht) hl hr hp h

theorem beside_of_error {act : Run α} {other : Exec α} {post : α → α → State → Prop} (stop : Stop)
    (hl : act p.1 = .error stop p.1) (hr : other p.1.machine = .error stop p.1.machine) :
    Beside p act other post :=
  .of_error hl hr rfl

theorem beside_lift {act : Exec α} {post : α → α → State → Prop} {a : α} {m : Machine}
    (h : act p.1.machine = .ok a m) (ht : State.Sound far { p.1.toState with machine := m })
    (hp : Leads p.1.toState { p.1.toState with machine := m })
    (hpost : post a a { p.1.toState with machine := m }) : Beside p (lift act) act post := by
  refine beside_of_ok (a := a) (t := { p.1.toState with machine := m }) ?_ h ht hp hpost
  simp only [lift, h]

theorem beside_lift_error {act : Exec α} {post : α → α → State → Prop} (stop : Stop)
    (h : act p.1.machine = .error stop p.1.machine) : Beside p (lift act) act post := by
  refine beside_of_error stop ?_ h
  simp only [lift, h]

theorem lift_bind {β : Type} (act : Exec α) (f : α → Exec β) :
    lift (act >>= f) = lift act >>= fun a => lift (f a) := by
  funext r
  simp only [lift, Bind.bind, EStateM.bind]
  cases act r.machine <;> rfl

theorem beside_fail {post : α → α → State → Prop} (blamed : Token) (cause : RuntimeError.Cause) :
    Beside p (lift (Exec.fail blamed cause)) (Exec.fail blamed cause) post :=
  beside_lift_error _ rfl

theorem beside_inspect (question : Heap → α) :
    (runs far).Runs p (lift (Exec.inspect question)) (Exec.inspect question)
      fun a b q => a = question p.1.heap ∧ b = a ∧ q = p :=
  .of_ok p rfl rfl (.refl _) ⟨rfl, rfl, rfl⟩

theorem beside_currentFrame :
    (runs far).Runs p (lift Exec.currentFrame) Exec.currentFrame
      fun a b q => a = p.1.machine.frame ∧ b = a ∧ q = p :=
  .of_ok p rfl rfl (.refl _) ⟨rfl, rfl, rfl⟩

/-- A step that leaves frames, closures and classes as they are. -/
theorem beside_quiet (act : Exec α) {a : α} {m : Machine} (h : act p.1.machine = .ok a m)
    (hf : m.heap.frames = p.1.heap.frames) (hc : m.heap.closures = p.1.heap.closures)
    (hk : m.heap.classes = p.1.heap.classes) (hd : m.distances = p.1.machine.distances)
    (he : m.frame = p.1.machine.frame)
    (hfields : ∀ {o x v}, m.heap.field? o x = some v → p.1.Holds far v) :
    Beside p (lift act) act fun b c _ => b = a ∧ c = a := by
  obtain ⟨ht, hl⟩ := p.2.sound.quiet hf hc hk hd he hfields
  exact beside_lift h ht hl ⟨rfl, rfl⟩

theorem beside_print (line : String) :
    Beside p (lift (Exec.print line)) (Exec.print line) fun _ _ _ => True := by
  by_cases h : p.1.machine.sink.hasRoom = true
  · have hprint : Exec.print line p.1.machine =
        .ok () { p.1.machine with sink := p.1.machine.sink.push line } := by
      simp [Exec.print, h]
    exact (beside_quiet _ hprint rfl rfl rfl rfl rfl p.2.sound.fields).imp fun _ _ _ _ _ => trivial
  · exact beside_lift_error .sinkFull (by simp [Exec.print, h])

/-! ### Variables -/

theorem getAt_eq_ok {h : Heap} {e : FrameId} {d : Nat} {x : String} {v : Value}
    (hv : h.getAt e d x = .ok v) : ∃ q, h.local? q x = some v := by
  unfold Heap.getAt at hv
  split at hv
  · cases hv
  · next q hq =>
    split at hv
    · next w hw =>
      cases hv
      exact ⟨q, hw⟩
    · cases hv

theorem beside_getAt (frame : Machine → FrameId) (d : Nat) (x : String) :
    Beside p (lift (Exec.ask fun m => m.heap.getAt (frame m) d x))
      (Exec.ask fun m => m.heap.getAt (frame m) d x) (Same far) := by
  rcases hv : p.1.machine.heap.getAt (frame p.1.machine) d x with fault | v
  · exact beside_lift_error (.fault fault) (by simp only [Exec.ask, hv])
  · obtain ⟨q, hq⟩ := getAt_eq_ok hv
    exact beside_lift (a := v) (by simp only [Exec.ask, hv]) p.2.sound (.refl _)
      ⟨rfl, p.2.sound.locals hq⟩

theorem beside_getFrom (name : Token) :
    Beside p (lift (Exec.getFrom Machine.globals name)) (Exec.getFrom Machine.globals name)
      (Same far) := by
  unfold Exec.getFrom
  rw [lift_bind]
  refine (beside_inspect _).bind ?_
  rintro v _ q - ⟨rfl, rfl, rfl⟩
  rcases hv : q.1.heap.get? Machine.globals name.lexeme with _ | v
  · exact beside_fail name _
  · rw [Machine.globals, Heap.get?_globals] at hv
    exact beside_lift rfl q.2.sound (.refl _) ⟨rfl, q.2.sound.locals hv⟩

theorem beside_distance? (id : NodeId) :
    (runs far).Runs p (lift (Exec.distance? id)) (Exec.distance? id)
      fun a b q => a = p.1.machine.distances[id]? ∧ b = a ∧ q = p :=
  .of_ok p rfl rfl (.refl _) ⟨rfl, rfl, rfl⟩

theorem beside_read (id : NodeId) (name : Token) :
    Beside p (lift (Exec.read id name)) (Exec.read id name) (Same far) := by
  unfold Exec.read
  rw [lift_bind]
  refine (beside_distance? id).bind ?_
  rintro _ d q - ⟨-, rfl, rfl⟩
  cases d with
  | some d => exact beside_getAt (·.frame) d name.lexeme
  | none => exact beside_getFrom name

/-- A name that a program may use is given a value in some frame. -/
theorem beside_defineIn {act : Exec Unit} {e : FrameId} {x : String} {v : Value}
    (h : act p.1.machine =
      .ok () { p.1.machine with heap := p.1.machine.heap.define e x v }) (hx : IsName x)
    (hv : p.1.Holds far v) : Beside p (lift act) act fun _ _ _ => True := by
  obtain ⟨ht, hl⟩ := p.2.sound.define (e := e) (.inl hx) hv
  exact beside_lift h ht hl trivial

theorem beside_define {x : String} {v : Value} (hx : IsName x) (hv : p.1.Holds far v) :
    Beside p (lift (Exec.define x v)) (Exec.define x v) fun _ _ _ => True :=
  beside_defineIn rfl hx hv

theorem beside_assignFrom (e : FrameId) {name : Token} {v : Value} (hx : IsName name.lexeme)
    (hv : p.1.Holds far v) :
    Beside p (lift (Exec.assignFrom e name v)) (Exec.assignFrom e name v) fun _ _ _ => True := by
  rcases hh : p.1.machine.heap.holder? e name.lexeme with _ | q
  · refine beside_lift_error
      (.error ⟨.undefinedVariable name.lexeme, name.line⟩) ?_
    simp only [Exec.assignFrom, hh]
  · exact beside_defineIn (e := q) (by simp only [Exec.assignFrom, hh]) hx hv

theorem beside_assignAt (d : Nat) {x : String} {v : Value} (hx : IsName x)
    (hv : p.1.Holds far v) :
    Beside p (lift (Exec.assignAt d x v)) (Exec.assignAt d x v) fun _ _ _ => True := by
  rcases hh : p.1.machine.heap.ancestor p.1.machine.frame d with fault | e
  · exact beside_lift_error (.fault fault) (by simp only [Exec.assignAt, hh])
  · exact beside_defineIn (e := e) (by simp only [Exec.assignAt, hh]) hx hv

theorem beside_assign (id : NodeId) {name : Token} {v : Value} (hx : IsName name.lexeme)
    (hv : p.1.Holds far v) :
    Beside p (lift (Exec.assign id name v)) (Exec.assign id name v) fun _ _ _ => True := by
  unfold Exec.assign
  rw [lift_bind]
  refine (beside_distance? id).bind ?_
  rintro _ d q - ⟨-, rfl, rfl⟩
  cases d with
  | none => exact beside_assignFrom _ hx hv
  | some d => exact beside_assignAt d hx hv

/-! ### Operators and natives -/

theorem simple_unaryResult {operator : Kind} {v w : Value}
    (hw : unaryResult operator v = .ok w) : Simple w := by
  unfold unaryResult at hw
  split at hw <;> cases hw <;> simp [Simple]

theorem simple_arithmetic {f : Float → Float → Float} {v w x : Value}
    (hx : arithmetic f v w = .ok x) : Simple x := by
  unfold arithmetic at hx
  split at hx <;> cases hx
  simp [Simple]

theorem simple_comparison {f : Float → Float → Bool} {v w x : Value}
    (hx : comparison f v w = .ok x) : Simple x := by
  unfold comparison at hx
  split at hx <;> cases hx
  simp [Simple]

theorem simple_sum {v w x : Value} (hx : sum v w = .ok x) : Simple x := by
  unfold sum at hx
  split at hx <;> cases hx <;> simp [Simple]

theorem simple_binaryResult {operator : Kind} {v w x : Value}
    (hx : binaryResult operator v w = .ok x) : Simple x := by
  unfold binaryResult at hx
  split at hx
  case h_3 => exact simple_sum hx
  case h_11 => cases hx
  all_goals first
    | exact simple_arithmetic hx
    | exact simple_comparison hx
    | (cases hx; simp [Simple])

theorem holds_ofLiteral {t : State} (value : Literal) : t.Holds far (.ofLiteral value) :=
  Primitive.holds (by cases value <;> simp [Primitive, Value.ofLiteral])

theorem beside_ofResult (operator : Token) {result : Except RuntimeError.Cause Value}
    (h : ∀ {v}, result = .ok v → Simple v) :
    Beside p (lift (Exec.ofResult operator result)) (Exec.ofResult operator result) (Same far) := by
  cases result with
  | ok v => exact beside_lift rfl p.2.sound (.refl _) ⟨rfl, (h rfl).primitive.holds⟩
  | error cause => exact beside_fail operator cause

theorem holds_answer {t : State} {arguments : List Value} (ha : ∀ v ∈ arguments, t.Holds far v)
    (answer : Native.Answer) : t.Holds far (answer.value arguments) := by
  cases answer with
  | plain value => exact holds_ofLiteral value
  | argument i =>
    simp only [Native.Answer.value, List.getD_eq_getElem?_getD]
    rcases hi : arguments[i]? with _ | v
    · exact holds_nil
    · exact ha v (List.mem_of_getElem? hi)

theorem beside_callNative (paren : Token) (native : Native) {arguments : List Value}
    (ha : ∀ v ∈ arguments, p.1.Holds far v) :
    Beside p (lift (Exec.callNative paren native arguments))
      (Exec.callNative paren native arguments) (Same far) := by
  have hnow : Beside p (lift Exec.now) Exec.now fun a b _ => a = b :=
    (beside_quiet Exec.now rfl rfl rfl rfl rfl rfl p.2.sound.fields).imp
      fun _ _ _ _ h => h.1.trans h.2.symm
  unfold Exec.callNative
  rw [lift_bind]
  refine hnow.bind ?_
  rintro now _ q hq rfl
  rw [lift_bind]
  refine (beside_inspect _).bind ?_
  rintro _ answer r - ⟨-, rfl, rfl⟩
  cases answer with
  | ok answer =>
    exact beside_lift rfl r.2.sound (.refl _)
      ⟨rfl, holds_answer (fun v hv => hq.holds (ha v hv)) answer⟩
  | error message => exact beside_fail paren _

/-! ### Instances and frames -/

theorem beside_setProperty (o : InstanceId) (name : Token) {v : Value} (hv : p.1.Holds far v) :
    Beside p (lift (Exec.setProperty o name v)) (Exec.setProperty o name v) fun _ _ _ => True := by
  refine (beside_quiet (Exec.setProperty o name v) rfl rfl rfl rfl rfl rfl fun h => ?_).imp
    fun _ _ _ _ _ => trivial
  rcases Heap.field?_setField h with rfl | h
  · exact hv
  · exact p.2.sound.fields h

theorem beside_newInstance (c : ClassId) :
    Beside p (lift (Exec.modifyHeap fun h => h.newInstance c))
      (Exec.modifyHeap fun h => h.newInstance c) fun o o' _ => o = o' := by
  refine (beside_quiet (Exec.modifyHeap fun h => h.newInstance c) rfl rfl rfl rfl rfl rfl
    fun h => ?_).imp fun _ _ _ _ h => h.1.trans h.2.symm
  exact p.2.sound.fields ((Heap.field?_newInstance _ c _ _).symm.trans h)

/-- What is known of a new frame: what it binds and what stands around it. -/
structure Entered (before : State) (outer : FrameId) (b : Bindings Value) (e : FrameId)
    (t : State) : Prop where
  leads : Leads before t
  binds : t.heap.frame e = ⟨b, some outer⟩
  enclosing : outer.index < before.heap.frames.size → t.heap.enclosing? e = some outer

theorem beside_newFrame (outer : FrameId) {b : Bindings Value}
    (hb : ∀ x v, b.find? x = some v → p.1.Holds far v) :
    Beside p (lift (Exec.newFrame outer b)) (Exec.newFrame outer b)
      fun e e' t => e = e' ∧ Entered p.1.toState outer b e t := by
  obtain ⟨ht, hl⟩ := p.2.sound.newFrame outer hb
  exact beside_lift rfl ht hl ⟨rfl, hl, Heap.frame_newFrame _ _ b,
    fun ho => Heap.enclosing?_newFrame _ b ho⟩

/-- The frame around the methods of a class whose superclass is `parent`. -/
theorem beside_methodFrame {scopes : Scopes} {home : Home} (superclass : Option Expr)
    {parent : Option ClassId} (hp : parent.isSome = superclass.isSome)
    (hparent : ∀ c, parent = some c → p.1.Holds far (.class c))
    (hs : Serves p.1.heap p.1.machine.frame scopes home) :
    Beside p (lift (methodFrame p.1.machine.frame parent)) (methodFrame p.1.machine.frame parent)
      fun e e' t => e = e' ∧ Around t.heap e (scopes.ofClass superclass) parent := by
  cases superclass with
  | none =>
    obtain rfl : parent = none := by simpa using hp
    exact beside_lift rfl p.2.sound (.refl _) ⟨rfl, .plain hs⟩
  | some e =>
    obtain ⟨c, rfl⟩ := Option.isSome_iff_exists.1 hp
    refine (beside_newFrame p.1.machine.frame (b := Bindings.empty.insert "super" (.class c))
      fun x v hv => ?_).imp ?_
    · rw [Bindings.find?_insert, Bindings.find?_empty] at hv
      split at hv
      · cases hv
        exact hparent c rfl
      · cases hv
    · rintro e _ q hq ⟨rfl, he⟩
      refine ⟨rfl, .derived ?_ (he.enclosing (hs.lt p.2.sound.globals)) (he.leads.serves hs)⟩
      rw [Heap.local?, he.binds, Bindings.find?_insert_self]

/-! ### Closures -/

/-- The state with a frame for `this` around which stands that of the closure. -/
def State.bindFrame (t : State) (f : Closure) (o : InstanceId) : State :=
  t.withHeap (t.heap.newFrame (some f.frame) (Bindings.empty.insert "this" (.instance o))).2

/-- The function in that frame, which runs on behalf of the instance. -/
def Function.boundIn (f : Function) (t : State) (o : InstanceId) : Function :=
  ⟨{ f.closure with frame := ⟨t.heap.frames.size⟩ }, { f.home with receiver := some o }⟩

theorem sound_bindFrame {t : State} (ht : t.Sound far) (f : Closure) (o : InstanceId) :
    (t.bindFrame f o).Sound far ∧ Leads t (t.bindFrame f o) := by
  refine ht.newFrame f.frame fun x v hv => ?_
  rw [Bindings.find?_insert, Bindings.find?_empty] at hv
  split at hv
  · cases hv
    exact holds_instance o
  · cases hv

theorem callable_boundIn {t : State} (ht : t.Sound far) {f : Function}
    (hf : Bindable far t.heap f.closure f.home) (o : InstanceId) :
    Callable far (t.bindFrame f.closure o).heap (f.boundIn t o).closure (f.boundIn t o).home := by
  obtain ⟨⟨decl, frame, isInitializer⟩, ⟨receiver, parent⟩⟩ := f
  obtain ⟨hu, scopes, hs, hd⟩ := hf
  obtain ⟨-, hl⟩ := sound_bindFrame ht ⟨decl, frame, isInitializer⟩ o
  have hthis : (t.bindFrame ⟨decl, frame, isInitializer⟩ o).heap.local? ⟨t.heap.frames.size⟩ "this" =
      some (.instance o) :=
    (Heap.local?_newFrame t.heap _ _ _).trans (Bindings.find?_insert_self _ _ _)
  have hin : frame.index < t.heap.frames.size →
      (t.bindFrame ⟨decl, frame, isInitializer⟩ o).heap.enclosing? ⟨t.heap.frames.size⟩ =
        some frame := Heap.enclosing?_newFrame t.heap _
  refine ⟨hu, ["this"] :: scopes, ?_, hd⟩
  cases hs with
  | plain hs =>
    exact .method (by simp) (by simp) hthis (hin (hs.lt ht.globals)) (hl.serves hs)
  | derived hc hq hs =>
    exact .submethod (by simp) (by simp) hthis (hin (Heap.lt_of_enclosing? hq))
      (hl.bound (ne_globals_of_enclosing? hq) not_isName_super hc) (hl.enclosing?_eq hq)
      (hl.serves hs)

theorem beside_bindThis {f : Function} (hf : Bindable far p.1.heap f.closure f.home)
    (o : InstanceId) :
    Beside p (bindThis f o) (Exec.bindThis f.closure o) fun g g' t =>
      g' = g.closure ∧ Callable far t.heap g.closure g.home := by
  obtain ⟨ht, hl⟩ := sound_bindFrame p.2.sound f.closure o
  exact .of_ok (a := f.boundIn p.1.toState o) (b := (f.boundIn p.1.toState o).closure)
    (advance p _ ht) rfl rfl hl ⟨rfl, callable_boundIn p.2.sound hf o⟩

theorem beside_newClosure {f : Function} (hf : Callable far p.1.heap f.closure f.home) :
    Beside p (newClosure f) (Exec.newClosure f.closure) (Same far) := by
  obtain ⟨ht, hv⟩ := p.2.sound.pushClosure hf
  refine beside_of_ok (a := .function ⟨p.1.heap.closures.size⟩) ?_ ?_ ht
    (p.2.sound.leads_pushClosures _ _ le_rfl) ⟨rfl, hv⟩
  · simp [newClosure_eq, Heap.newClosure, State.pushClosures, State.heap]
  · simp [Exec.newClosure, Exec.modifyHeap, Heap.newClosure, State.pushClosures, State.heap]

/-- The state with the closure of a method value, and the frame around it. -/
def State.bindMethod (t : State) (f : ClosureId) (o : InstanceId) : State :=
  let bound := (Function.mk (t.heap.closure f) (t.home f)).boundIn t o
  (t.bindFrame (t.heap.closure f) o).pushClosures #[bound.closure] #[bound.home] t.heap.classes

theorem boundMethod_eq (r : Log) (f : ClosureId) (o : InstanceId) :
    (do newClosure (← bindThis ⟨r.heap.closure f, r.home f⟩ o) : Run Value) r =
      .ok (.function ⟨r.heap.closures.size⟩) { r with toState := r.toState.bindMethod f o } := by
  simp [newClosure_eq, bindThis, lift, Exec.bindThis, Exec.newFrame, Exec.modifyHeap,
    Heap.newClosure, Heap.newFrame, State.bindMethod, State.bindFrame, State.withHeap,
    State.pushClosures, State.heap, Function.boundIn, bind, EStateM.bind, pure, EStateM.pure]

/-- The closure that a method value holds is the method bound to the instance. -/
theorem binds_bindMethod {t : State} (ht : t.Sound far) (f : ClosureId) (o : InstanceId) :
    Binds t (t.bindMethod f o) f o ⟨t.heap.closures.size⟩ := by
  have hs := (sound_bindFrame ht (t.heap.closure f) o).1
  have hclosure : (t.bindMethod f o).heap.closure ⟨t.heap.closures.size⟩ =
      { t.heap.closure f with frame := ⟨t.heap.frames.size⟩ } :=
    closure_pushClosures (t.bindFrame (t.heap.closure f) o) _ _ _ (i := 0) (by simp)
  have hhome : (t.bindMethod f o).home ⟨t.heap.closures.size⟩ =
      { t.home f with receiver := some o } :=
    home_pushClosures hs _ _ _ (i := 0) (by simp)
  have hframe : (t.bindMethod f o).heap.frame ⟨t.heap.frames.size⟩ =
      ⟨Bindings.empty.insert "this" (.instance o), some (t.heap.closure f).frame⟩ :=
    Heap.frame_newFrame t.heap _ _
  refine ⟨rfl, (congrArg Closure.decl hclosure).trans rfl,
    (congrArg Closure.isInitializer hclosure).trans rfl, hhome, ?_⟩
  exact (congrArg (fun g => (t.bindMethod f o).heap.frame g.frame) hclosure).trans hframe

theorem beside_boundMethod {f : ClosureId} (hf : p.1.Method far f) (o : InstanceId) :
    Beside p (do newClosure (← bindThis ⟨p.1.heap.closure f, p.1.home f⟩ o))
      (do Exec.newClosure (← Exec.bindThis (p.1.heap.closure f) o)) (Same far) := by
  refine (beside_bindThis (f := ⟨p.1.heap.closure f, p.1.home f⟩) hf.2 o).bind ?_
  rintro g _ q - ⟨rfl, hg⟩
  exact beside_newClosure hg

/-! ### Methods and properties -/

theorem beside_function (f : ClosureId) :
    (runs far).Runs p (function f) (Exec.inspect (·.closure f)) fun g g' q =>
      g = ⟨p.1.heap.closure f, p.1.home f⟩ ∧ g' = g.closure ∧ q = p :=
  .of_ok p rfl rfl (.refl _) ⟨rfl, rfl, rfl⟩

/-- The method that a class finds, with its home. -/
def State.method? (t : State) (c : ClassId) (x : String) : Option Function :=
  (t.heap.findMethod? c x).map fun f => ⟨t.heap.closure f, t.home f⟩

theorem State.closure_method? (t : State) (c : ClassId) (x : String) :
    (t.method? c x).map Function.closure = t.heap.method? c x := by
  rw [State.method?, Option.map_map]
  rfl

theorem method?_eq (r : Log) (c : ClassId) (x : String) :
    method? c x r = .ok (r.toState.method? c x) r := by
  unfold State.method?
  simp only [method?, lift, Exec.inspect, bind, EStateM.bind, State.heap]
  cases r.machine.heap.findMethod? c x <;> rfl

theorem beside_method? {question : Heap → Option Closure} {c : ClassId} {x : String}
    (hq : question p.1.heap = p.1.heap.method? c x) :
    (runs far).Runs p (method? c x) (Exec.inspect question) fun a b q =>
      a = p.1.toState.method? c x ∧ b = a.map Function.closure ∧ q = p := by
  exact .of_ok p (method?_eq _ c x) rfl (.refl _)
    ⟨rfl, hq.trans (p.1.toState.closure_method? c x).symm, rfl⟩

/-- A method that is found is bound, else its name is blamed. -/
theorem beside_bound (c : ClassId) (o : InstanceId) (x : Token) :
    Beside p
      (match p.1.toState.method? c x.lexeme with
        | some f => do newClosure (← bindThis f o)
        | none => lift (Exec.fail x (.undefinedProperty x.lexeme)))
      (match (p.1.toState.method? c x.lexeme).map Function.closure with
        | some f => do Exec.newClosure (← Exec.bindThis f o)
        | none => Exec.fail x (.undefinedProperty x.lexeme)) (Same far) := by
  unfold State.method?
  rcases hf : p.1.heap.findMethod? c x.lexeme with _ | f
  · exact beside_fail x _
  · exact beside_boundMethod (p.2.sound.method_of_findMethod? hf) o

theorem beside_getProperty (o : InstanceId) (name : Token) :
    Beside p (getProperty o name) (Exec.getProperty o name) (Same far) := by
  unfold getProperty Exec.getProperty
  refine (beside_inspect _).bind ?_
  rintro _ _ q - ⟨rfl, rfl, rfl⟩
  rcases hv : q.1.heap.field? o name.lexeme with _ | v
  · refine .left (a := (q.1.heap.instanceAt o).classId) rfl ?_
    refine (beside_method? rfl).bind ?_
    rintro _ _ r - ⟨rfl, rfl, rfl⟩
    exact beside_bound _ o name
  · exact .pure ⟨rfl, q.2.sound.fields hv⟩

theorem beside_newClass (name : String) {parent : Option ClassId}
    (hparent : ∀ c, parent = some c → p.1.Holds far (.class c)) {methods : List FunDecl}
    {e : FrameId} {scopes : Scopes} {c : Surroundings} (he : Around p.1.heap e scopes parent)
    (hm : FunDecl.ScopedAll far (["this"] :: scopes) methods) (hl : FunDecl.LegalAll c methods) :
    Beside p (newClass name parent methods e) (Exec.newClass name parent methods e) (Same far) := by
  have ht := p.2.sound.pushClass name (fun c hc => (hparent c hc).2 c rfl) he hm hl
  have heq := Exec.newClass_eq name parent methods e p.1.machine
  refine beside_of_ok (a := .class ⟨p.1.heap.classes.size⟩) (newClass_of_ok heq) heq ht
    (p.2.sound.leads_pushClosures _ _ (by simp [State.heap])) ⟨rfl, by simp, ?_⟩
  rintro _ ⟨⟩
  simp [State.heap]

/-! ### Frames and events -/

/-- The pair with another current frame. -/
def enter (p : (runs far).Pair) (e : FrameId) : (runs far).Pair :=
  advance p { p.1.toState with machine := { p.1.machine with frame := e } } (p.2.sound.enter e)

theorem Leads.leave {t u : State} {e : FrameId}
    (h : Leads { t with machine := { t.machine with frame := e } } u) :
    Leads t { u with machine := { u.machine with frame := t.machine.frame } } :=
  ⟨h.frames, h.enclosing, h.bound, h.closures, h.closure, h.classes, rfl, h.distances⟩

theorem beside_withFrame {β : Type} {e : FrameId} {act : Run α} {other : Exec β}
    {post post' : α → β → State → Prop} (h : Beside (enter p e) act other post)
    (hpost : ∀ a b t, post a b t →
      post' a b { t with machine := { t.machine with frame := p.1.machine.frame } }) :
    Beside p (withFrame e act) (Exec.withFrame e other) post' := by
  intro _
  have h := h fun _ _ _ hx => hx
  simp only [runs, enter, advance] at h
  simp only [runs, withFrame, Exec.withFrame]
  split at h
  · next r m hl hr =>
    obtain ⟨q, rfl, rfl, hq, hp⟩ := h
    rw [hl, hr]
    exact ⟨enter q p.1.machine.frame, rfl, rfl, hq.leave, hpost _ _ _ hp⟩
  · next r m hl hr =>
    obtain ⟨rfl, q, rfl, rfl, hq⟩ := h
    rw [hl, hr]
    exact ⟨rfl, enter q p.1.machine.frame, rfl, rfl, hq.leave⟩
  · exact h.elim

/-- The pair with one more event. -/
def noting (p : (runs far).Pair) {event : Event} (h : event.Good) : (runs far).Pair :=
  ⟨{ p.1 with events := p.1.events.push event }, p.2.sound, fun event' h' => by
    rcases Array.mem_push.1 h' with h' | rfl
    · exact p.2.events event' h'
    · exact h⟩

/-- A step is noted when it ends, and both ways of ending are as they should be. -/
theorem beside_note {β : Type} {event : State → Except Stop α → State → Event} {act : Run α}
    {other : Exec β} {post : α → β → State → Prop} (h : Beside p act other post)
    (hok : ∀ {a b r m}, act p.1 = .ok a r → other p.1.machine = .ok b m →
      post a b r.toState → (event p.1.toState (.ok a) r.toState).Good)
    (herror : ∀ {stop r}, act p.1 = .error stop r →
      (event p.1.toState (.error stop) r.toState).Good) :
    Beside p (note event act) other post := by
  intro _
  have h := h fun _ _ _ hx => hx
  simp only [runs, note] at h ⊢
  split at h
  · next hl hr =>
    obtain ⟨q, rfl, rfl, hq, hp⟩ := h
    rw [hl, hr]
    exact ⟨noting q (hok hl hr hp), rfl, rfl, hq, hp⟩
  · next hl hr =>
    obtain ⟨rfl, q, rfl, rfl, hq⟩ := h
    rw [hl, hr]
    exact ⟨rfl, noting q (herror hl), rfl, rfl, hq⟩
  · exact h.elim

/-- A piece of code of which nothing is to be seen. -/
theorem beside_silent {β : Type} {event : State → Except Stop α → State → Event} {act : Run α}
    {other : Exec β} {post : α → β → State → Prop}
    (hg : ∀ before result after, (event before result after).Good) (h : Beside p act other post) :
    Beside p (note event act) other post :=
  beside_note h (fun _ _ _ => hg _ _ _) fun _ => hg _ _ _

/-! ### This and super -/

theorem State.Sound.superclass?_eq {t : State} (ht : t.Sound far) (c : ClassId) :
    t.heap.superclass? c = (t.heap.classAt c).superclass := by
  unfold Heap.superclass?
  rcases hs : (t.heap.classAt c).superclass with _ | s
  · rfl
  · simpa using ht.chain hs

theorem State.Sound.findMethod?_iff {t : State} (ht : t.Sound far) {c : ClassId} {x : String}
    {f : ClosureId} : t.heap.findMethod? c x = some f ↔ FirstMethod t.heap x c f := by
  constructor
  · intro hf
    fun_induction t.heap.findMethod? c x with
    | case1 c g hg =>
      cases hf
      exact .own hg
    | case2 => cases hf
    | case3 c hg s hs _ ih => exact .inherited hg ((ht.superclass?_eq c).symm.trans hs) (ih hf)
  · intro hf
    induction hf with
    | own hg => rw [Heap.findMethod?_eq, hg]
    | inherited hg hs _ ih => rw [Heap.findMethod?_eq, hg, ht.superclass?_eq, hs, Option.bind_some, ih]

theorem bind_of_ok {σ β : Type} {act : EStateM Stop σ α} {f : α → EStateM Stop σ β} {a : α}
    {s s' : σ} (h : act s = .ok a s') : (act >>= f) s = f a s' := by
  simp only [bind, EStateM.bind, h]

theorem lift_of_ok {act : Exec α} {a : α} {r : Log} (h : act r.machine = .ok a r.machine) :
    lift act r = .ok a r := by
  simp only [lift, h]

theorem getAt_of_ancestor? {m : Machine} {d : Nat} {e : FrameId} {x : String} {v : Value}
    (he : m.heap.ancestor? m.frame d = some e) (hv : m.heap.local? e x = some v) :
    Exec.getAt d x m = .ok v m := by
  simp only [Exec.getAt, Exec.ask, Heap.getAt, Heap.ancestor, he, hv]

/-- The frames that `this` is read from bind it to the receiver. -/
theorem read_this {scopes : Scopes} {home : Home} (hs : Serves p.1.heap p.1.machine.frame scopes home)
    {id : NodeId} {keyword : Token} (hk : keyword.lexeme = "this")
    (hd : (scopes.distance? "this").isSome) (hid : far id (scopes.distance? "this")) :
    ∃ o, home.receiver = some o ∧
      Exec.read id keyword p.1.machine = .ok (.instance o) p.1.machine := by
  obtain ⟨d, hd⟩ := Option.isSome_iff_exists.1 hd
  obtain ⟨q, o, hq, ho, hr⟩ := hs.receiver hd
  refine ⟨o, hr, ?_⟩
  have htable : p.1.machine.distances[id]? = some d := p.2.sound.table (hd ▸ hid)
  have hdistance : Exec.distance? id p.1.machine = .ok (some d) p.1.machine := by
    rw [Exec.distance?, htable]
  refine (bind_of_ok hdistance).trans ?_
  rw [hk]
  exact getAt_of_ancestor? hq ho

/-- The frames that `super` is read from bind it to the superclass, and `this` to the receiver. -/
theorem getSuper_eq {scopes : Scopes} {home : Home}
    (hs : Serves p.1.heap p.1.machine.frame scopes home) {id : NodeId} {d : Nat}
    (keyword method : Token) (hid : far id (some (d + 1)))
    (hsuper : scopes.distance? "super" = some (d + 1)) (hthis : scopes.distance? "this" = some d) :
    ∃ o c, home.receiver = some o ∧ home.parent = some c ∧
      getSuper id keyword method p.1 =
        (match p.1.toState.method? c method.lexeme with
          | some f => do newClosure (← bindThis f o)
          | none => lift (Exec.fail method (.undefinedProperty method.lexeme)) : Run Value) p.1 ∧
      Exec.getSuper id keyword method p.1.machine =
        (match (p.1.toState.method? c method.lexeme).map Function.closure with
          | some f => do Exec.newClosure (← Exec.bindThis f o)
          | none => Exec.fail method (.undefinedProperty method.lexeme) : Exec Value)
            p.1.machine := by
  obtain ⟨q, o, hq, ho, hr⟩ := hs.receiver hthis
  obtain ⟨q', c, hq', hc, hp⟩ := hs.parent hthis hsuper
  refine ⟨o, c, hr, hp, ?_⟩
  have htable : p.1.machine.distances[id]? = some (d + 1) := p.2.sound.table hid
  have hdistance : Exec.distance? id p.1.machine = .ok (some (d + 1)) p.1.machine := by
    rw [Exec.distance?, htable]
  have hparent : Exec.getAt (d + 1) "super" p.1.machine = .ok (.class c) p.1.machine :=
    getAt_of_ancestor? hq' hc
  have hreceiver : Exec.getAt d "this" p.1.machine = .ok (.instance o) p.1.machine :=
    getAt_of_ancestor? hq ho
  constructor
  · refine (bind_of_ok (lift_of_ok hdistance)).trans ?_
    refine (bind_of_ok (lift_of_ok hparent)).trans ?_
    refine (bind_of_ok (lift_of_ok hreceiver)).trans ?_
    exact bind_of_ok (method?_eq p.1 c method.lexeme)
  · refine (bind_of_ok hdistance).trans ?_
    refine (bind_of_ok hparent).trans ?_
    refine (bind_of_ok hreceiver).trans ?_
    rw [State.closure_method?]
    exact bind_of_ok rfl

theorem beside_this {scopes : Scopes} {home : Home}
    (hs : Serves p.1.heap p.1.machine.frame scopes home) {id : NodeId} {keyword : Token}
    (hk : keyword.lexeme = "this") (hd : (scopes.distance? "this").isSome)
    (hid : far id (scopes.distance? "this")) :
    Beside p (note (.eval home (.this id keyword)) (lift (Exec.read id keyword)))
      (Exec.read id keyword) (Same far) := by
  obtain ⟨o, ho, hread⟩ := read_this hs hk hd hid
  have hl : lift (Exec.read id keyword) p.1 = .ok (.instance o) p.1 := lift_of_ok hread
  refine beside_note (beside_read id keyword) (fun ha _ _ => ?_) fun he => ?_
  · cases hl.symm.trans ha
    exact ⟨⟨o, ho, rfl, rfl⟩, trivial⟩
  · cases hl.symm.trans he

theorem beside_super {scopes : Scopes} {home : Home}
    (hs : Serves p.1.heap p.1.machine.frame scopes home) {id : NodeId} {d : Nat}
    (keyword method : Token) (hid : far id (some (d + 1)))
    (hsuper : scopes.distance? "super" = some (d + 1)) (hthis : scopes.distance? "this" = some d) :
    Beside p (note (.eval home (.super id keyword method)) (getSuper id keyword method))
      (Exec.getSuper id keyword method) (Same far) := by
  obtain ⟨o, c, ho, hc, hl, hr⟩ := getSuper_eq hs keyword method hid hsuper hthis
  have hbound : Beside p (getSuper id keyword method) (Exec.getSuper id keyword method)
      (Same far) := (beside_bound c o method).congr hl hr
  unfold State.method? at hl
  refine beside_note hbound (fun ha _ _ => ⟨⟨o, c, ho, hc, ?_⟩, trivial⟩)
    fun he => ⟨⟨o, c, ho, hc, ?_⟩, trivial⟩
  · rcases hf : p.1.heap.findMethod? c method.lexeme with _ | f
    · rw [hf] at hl
      cases ha.symm.trans hl
    · rw [hf] at hl
      cases ha.symm.trans (hl.trans (boundMethod_eq p.1 f o))
      exact .inl ⟨f, _, p.2.sound.findMethod?_iff.1 hf, rfl, binds_bindMethod p.2.sound f o⟩
  · rcases hf : p.1.heap.findMethod? c method.lexeme with _ | f
    · rw [hf] at hl
      cases he.symm.trans hl
      refine .inr ⟨?_, rfl, rfl⟩
      rintro ⟨f, hf'⟩
      cases hf.symm.trans (p.2.sound.findMethod?_iff.2 hf')
    · rw [hf] at hl
      cases he.symm.trans (hl.trans (boundMethod_eq p.1 f o))

end Lox.Traced
