import Lox.Proofs.TwinRuns

/-!
# Steps of twins on objects

Results of operators and natives, and what makes or reads closures, classes and instances. A method
that is read from an instance is bound to it by a frame and by a cell, and can be called from then on.
-/

namespace Lox.Lexical

open Twin (Leads)

variable {t : SoundTwin}

/-! ### Operators and natives -/

/-- A result that is no function, or an error that is no fault of the distances. -/
def Plain : Except RuntimeError.Cause Value → Prop
  | .ok v => ∀ f, v ≠ .function f
  | .error cause => cause.isInternal = false

theorem plain_unaryResult (operator : Kind) (v : Value) : Plain (unaryResult operator v) := by
  unfold unaryResult
  split <;> simp [Plain, RuntimeError.Cause.isInternal]

theorem plain_binaryResult (operator : Kind) (v w : Value) : Plain (binaryResult operator v w) := by
  have ha : ∀ f, Plain (arithmetic f v w) := fun f => by
    unfold arithmetic
    split <;> simp [Plain, RuntimeError.Cause.isInternal]
  have hc : ∀ f, Plain (comparison f v w) := fun f => by
    unfold comparison
    split <;> simp [Plain, RuntimeError.Cause.isInternal]
  have hs : Plain (sum v w) := by
    unfold sum
    split <;> simp [Plain, RuntimeError.Cause.isInternal]
  unfold binaryResult
  split
  · simp [Plain]
  · simp [Plain]
  · exact hs
  · exact ha _
  · exact ha _
  · exact ha _
  · exact hc _
  · exact hc _
  · exact hc _
  · exact hc _
  · rfl

theorem runs_ofResult (operator : Token) {result : Except RuntimeError.Cause Value}
    (h : Plain result) :
    (twins false).Runs t (Exec.ofResult operator result) (ofResult operator result) Same := by
  cases result with
  | ok v => exact .pure ⟨rfl, Twin.holds_of_ne h⟩
  | error cause => exact runs_fail operator h

theorem holds_ofLiteral (value : Literal) : t.1.Holds (.ofLiteral value) :=
  Twin.holds_of_ne (by cases value <;> simp [Value.ofLiteral])

theorem holds_answer {arguments : List Value} (ha : ∀ v ∈ arguments, t.1.Holds v)
    (answer : Native.Answer) : t.1.Holds (answer.value arguments) := by
  cases answer with
  | plain value => exact holds_ofLiteral value
  | argument i =>
    simp only [Native.Answer.value, List.getD_eq_getElem?_getD]
    rcases hi : arguments[i]? with _ | v
    · exact Twin.holds_of_ne (by simp)
    · exact ha v (List.mem_of_getElem? hi)

theorem runs_callNative (paren : Token) (native : Native) {arguments : List Value}
    (ha : ∀ v ∈ arguments, t.1.Holds v) :
    (twins false).Runs t (Exec.callNative paren native arguments)
      (onMachine (Exec.callNative paren native arguments)) Same := by
  unfold Exec.callNative
  rw [onMachine_bind]
  refine runs_now.bind ?_
  rintro now _ u hu rfl
  rw [onMachine_bind]
  refine (runs_inspect ?_).bind ?_
  · congr 2
    funext v
    simp
  rintro _ answer w hw ⟨-, rfl, rfl⟩
  cases answer with
  | ok answer =>
    exact .pure ⟨rfl, holds_answer (fun v hv => hu.holds (ha v hv)) answer⟩
  | error message => exact runs_fail paren rfl

/-! ### Instances -/

/-- A step that changes instances alone. -/
theorem runs_instances {α : Type} (act : Exec α) {a : α} {instances : Array Instance}
    (hl : act t.1.machine =
      .ok a { t.1.machine with heap := { t.1.machine.heap with instances } })
    (hr : act t.1.machine.withoutLocals = .ok a { t.1.machine.withoutLocals with
      heap := { t.1.machine.withoutLocals.heap with instances } })
    (hf : ∀ {o x v}, Heap.field? { t.1.machine.heap with instances } o x = some v → t.1.Holds v) :
    (twins false).Runs t act (onMachine act) fun b c u => b = a ∧ c = a ∧
      u.1.machine.heap = { t.1.machine.heap with instances } := by
  have hu : Leads false t.1 (t.1.withMachine
      { t.1.machine with heap := { t.1.machine.heap with instances } }) :=
    .of_same rfl rfl rfl rfl rfl rfl le_rfl fun _ _ => ⟨rfl, rfl⟩
  have hs := t.2.of_same hu rfl rfl rfl rfl t.2.size (fun h => hu.holds (hf h))
    (fun h => hu.method (t.2.methods h))
  refine (runs_onMachine hl hr hs hu).imp ?_
  rintro b c u - ⟨rfl, rfl, rfl⟩
  exact ⟨rfl, rfl, rfl⟩

theorem runs_setProperty (o : InstanceId) (name : Token) {v : Value} (hv : t.1.Holds v) :
    (twins false).Runs t (Exec.setProperty o name v) (onMachine (Exec.setProperty o name v))
      fun _ _ _ => True := by
  refine (runs_instances (Exec.setProperty o name v) rfl rfl fun h => ?_).imp
    fun _ _ _ _ _ => trivial
  rcases Heap.field?_setField h with rfl | h
  · exact hv
  · exact t.2.fields h

theorem runs_newInstance (c : ClassId) :
    (twins false).Runs t (Exec.modifyHeap fun h => h.newInstance c)
      (onMachine (Exec.modifyHeap fun h => h.newInstance c)) fun o p u => o = p ∧
        u.1.heap.findMethod? c = t.1.heap.findMethod? c ∧ u.1.heap.closure = t.1.heap.closure := by
  refine (runs_instances (Exec.modifyHeap fun h => h.newInstance c) rfl rfl fun h => ?_).imp ?_
  · exact t.2.fields ((Heap.field?_newInstance _ c _ _).symm.trans h)
  · rintro o p u - ⟨rfl, rfl, hu⟩
    refine ⟨rfl, ?_, ?_⟩
    · funext x
      exact Heap.findMethod?_congr (by rw [Twin.heap, hu]; rfl) c x
    · rw [Twin.heap, hu]
      rfl

/-! ### Frames and closures -/

/-- The same new frame and list, which stand for each other if what is around them does. -/
def Enters (t : SoundTwin) (outer : FrameId) (names : List String) (locals : Locals) (e : FrameId)
    (inner : Locals) (u : SoundTwin) : Prop :=
  e = ⟨t.1.heap.frames.size⟩ ∧ (u.1.world e).length = names.length ∧ ∀ scopes,
    Stands t.1.heap t.1.world outer scopes locals →
      Stands u.1.heap u.1.world e (names.reverse :: scopes) inner

theorem runs_newFrame {outer : FrameId} (locals : Locals) (pairs : List (String × Value))
    (hn : (pairs.map Prod.fst).Nodup) (ho : outer.index < t.1.heap.frames.size)
    (hv : ∀ x v, (x, v) ∈ pairs → t.1.Holds v)
    (hthis : ∀ v, ("this", v) ∈ pairs → ∃ o, v = .instance o)
    (hsuper : ∀ v, ("super", v) ∈ pairs → ∃ k, v = .class k) :
    (twins false).Runs t (Exec.newFrame outer (bindingsOf pairs)) (bindAll pairs locals)
      (Enters t outer (pairs.map Prod.fst) locals) := by
  refine .of_ok ⟨_, t.2.pushFrame outer hn hv hthis hsuper⟩ rfl (bindAll_eq pairs locals _)
    (Twin.pushFrame_leads t.1 outer pairs) ⟨rfl, ?_, fun scopes hs => ?_⟩
  · have := congrArg List.length (newLocals_fst t.1.lexical.cells.size pairs)
    show ((t.1.pushFrame outer pairs).world ⟨t.1.heap.frames.size⟩).length = _
    simpa [Twin.pushFrame] using this
  · exact Twin.stands_pushFrame pairs ho hs

theorem runs_pushClosure (f : Closure) (locals : Locals) :
    (twins false).Runs t (Exec.newClosure f)
      (newClosure ⟨{ f with frame := Machine.globals }, locals⟩) fun v w u =>
        v = .function ⟨t.1.heap.closures.size⟩ ∧ w = v ∧
          u.1 = t.1.pushClosures #[f] #[locals] t.1.heap.classes t.1.heap.instances := by
  have hl := Twin.pushClosures_leads t.2 #[f] #[locals] t.1.heap.classes t.1.heap.instances
  have hs : (t.1.pushClosures #[f] #[locals] t.1.heap.classes t.1.heap.instances).Sound :=
    t.2.pushClosures rfl t.2.fields fun h => hl.method (t.2.methods h)
  refine .of_ok ⟨_, hs⟩ ?_ ?_ hl ⟨rfl, rfl, rfl⟩
  · simp [twins, Exec.newClosure, Exec.modifyHeap, Heap.newClosure, Twin.pushClosures, Twin.heap]
  · have hp : (t.1.pushClosures #[f] #[locals] t.1.heap.classes t.1.heap.instances).lexical =
        { t.1.lexical with
          machine := { t.1.machine.withoutLocals with heap := (t.1.heap.newClosure f).2.withoutLocals }
          captured := t.1.lexical.captured.push locals } := by
      simp [Twin.pushClosures, Machine.withoutLocals, Heap.newClosure, Twin.heap]
    simp only [twins, newClosure_eq, t.2.machine, hp, Heap.withoutLocals_newClosure]
    simp [Machine.withoutLocals, Heap.withoutLocals, Twin.heap]

/-- A function of the twins, as each of the two has it. -/
def Function.of (f : Closure) (locals : Locals) : Function :=
  ⟨{ f with frame := Machine.globals }, locals⟩

theorem runs_newClosure {f : Closure} {locals : Locals} (hf : t.1.Callable f locals) :
    (twins false).Runs t (Exec.newClosure f) (newClosure (.of f locals)) Same := by
  refine (runs_pushClosure f locals).imp ?_
  rintro v w u hu ⟨rfl, rfl, he⟩
  refine ⟨rfl, ?_⟩
  intro g hg
  cases hg
  rw [he]
  refine ⟨by simp [Twin.pushClosures, Twin.heap], ?_⟩
  have hc := Twin.closure_pushClosures t.1 #[f] #[locals] t.1.heap.classes t.1.heap.instances
    (i := 0) (by simp)
  have hk := Twin.captured_pushClosures t.2 #[f] #[locals] t.1.heap.classes t.1.heap.instances
    (i := 0) (by simp)
  simp only [Nat.add_zero] at hc hk
  rw [hc, hk, ← he]
  exact hu.callable hf

/-- A method bound to an instance can be called. -/
theorem runs_bindThis {x : String} {f : ClosureId} (hf : t.1.Method x f) (o : InstanceId) :
    (twins false).Runs t (Exec.bindThis (t.1.heap.closure f) o)
      (bindThis (.of (t.1.heap.closure f) (t.1.captured f)) o) fun g b u =>
        u.1.Callable g b.locals ∧ b = .of g b.locals ∧ g.decl = (t.1.heap.closure f).decl := by
  obtain ⟨-, -, scopes, hs, hd⟩ := hf
  have hframe := runs_newFrame (t := t) (t.1.captured f) [("this", .instance o)]
    (by simp) (hs.lt t.2.globals) (by simp [Twin.holds_of_ne]) (by simp) (by simp)
  refine hframe.bind ?_
  rintro e inner u hu ⟨-, -, he⟩
  refine .pure ⟨?_, rfl, rfl⟩
  refine ⟨["this"] :: scopes, he scopes hs, ?_, fun _ => rfl⟩
  rw [hu.far]
  exact hd

/-! ### Methods and properties -/

theorem runs_function (f : ClosureId) :
    (twins false).Runs t (Exec.inspect (·.closure f)) (function f) fun c g u =>
      c = t.1.heap.closure f ∧ g = .of c (t.1.captured f) ∧ u = t := by
  refine .of_ok t rfl ?_ (.refl false t.1) ⟨rfl, rfl, rfl⟩
  simp only [twins, function, onMachine, Exec.inspect, Bind.bind, EStateM.bind, heap_eq,
    Heap.closure_withoutLocals]
  rfl

/-- No method in either machine, or the same one in both. -/
def Finds (t : SoundTwin) (c : ClassId) (x : String) (a : Option Closure) (b : Option Function) :
    Prop :=
  (t.1.heap.findMethod? c x = none ∧ a = none ∧ b = none) ∨
  ∃ f, t.1.heap.findMethod? c x = some f ∧ t.1.Method x f ∧ a = some (t.1.heap.closure f) ∧
    b = some (.of (t.1.heap.closure f) (t.1.captured f))

theorem runs_method? {question : Heap → Option Closure} {c : ClassId} {x : String}
    (hq : question t.1.heap = t.1.heap.method? c x) :
    (twins false).Runs t (Exec.inspect question) (method? c x) fun a b u =>
      Finds t c x a b ∧ u = t := by
  have hfind : (onMachine (Exec.inspect (·.findMethod? c x))) t.1.lexical =
      .ok (t.1.heap.findMethod? c x) t.1.lexical := by
    simp only [onMachine, Exec.inspect, heap_eq, Heap.findMethod?_withoutLocals]
  have hl : Exec.inspect question t.1.machine = .ok (t.1.heap.method? c x) t.1.machine := by
    simp only [Exec.inspect, ← hq]
    rfl
  rcases hf : t.1.heap.findMethod? c x with _ | f
  · refine .of_ok (b := none) t (hl.trans ?_) ?_ (.refl false t.1) ⟨.inl ⟨hf, rfl, rfl⟩, rfl⟩
    · rw [Heap.method?, hf]
      rfl
    · simp only [twins, method?, Bind.bind, EStateM.bind, hfind, hf]
      rfl
  · have hr := t.2.method_of_findMethod? c x hf
    refine .of_ok (b := some (.of (t.1.heap.closure f) (t.1.captured f))) t (hl.trans ?_) ?_
      (.refl false t.1) ⟨.inr ⟨f, hf, hr, rfl, rfl⟩, rfl⟩
    · rw [Heap.method?, hf]
      rfl
    · simp only [twins, method?, function, onMachine, Exec.inspect, Bind.bind, EStateM.bind,
        heap_eq, Heap.findMethod?_withoutLocals, Heap.closure_withoutLocals, hf]
      rfl

/-- A method that is found is bound, else its name is blamed. -/
theorem runs_boundMethod {c : ClassId} {a : Option Closure} {b : Option Function} {x : Token}
    (h : Finds t c x.lexeme a b) (o : InstanceId) :
    (twins false).Runs t
      (match a with
        | some f => do Exec.newClosure (← Exec.bindThis f o)
        | none => Exec.fail x (.undefinedProperty x.lexeme))
      (match b with
        | some f => do newClosure (← bindThis f o)
        | none => onMachine (Exec.fail x (.undefinedProperty x.lexeme))) Same := by
  rcases h with ⟨-, rfl, rfl⟩ | ⟨f, -, hm, rfl, rfl⟩
  · exact runs_fail x rfl
  · refine (runs_bindThis hm o).bind ?_
    rintro g b u - ⟨hc, hb, -⟩
    rw [hb]
    exact runs_newClosure hc

theorem runs_getProperty (o : InstanceId) (name : Token) :
    (twins false).Runs t (Exec.getProperty o name) (getProperty o name) Same := by
  unfold Exec.getProperty getProperty
  refine (runs_inspect (Heap.field?_withoutLocals t.1.heap o name.lexeme)).bind ?_
  rintro _ v u - ⟨rfl, rfl, rfl⟩
  rcases hv : u.1.heap.field? o name.lexeme with _ | v
  · refine .right (b := (u.1.heap.instanceAt o).classId) u rfl ?_ ?_
    · simp only [twins, onMachine, Exec.inspect, heap_eq u, Heap.instanceAt_withoutLocals]
    refine (runs_method? rfl).bind ?_
    rintro a b _ - ⟨h, rfl⟩
    exact runs_boundMethod h o
  · exact .pure ⟨rfl, u.2.fields hv⟩

theorem Place.pending_ne {scopes : Scopes} {pending : Option String} {locals : Locals}
    (hp : Place t.1 scopes pending locals) {x : String} (hx : ¬ IsName x) : pending ≠ some x := by
  cases hp with
  | settled => simp
  | pending _ hn =>
    rintro h
    cases h
    exact hx hn

theorem runs_getSuper {scopes : Scopes} {pending : Option String} {locals : Locals} {id : NodeId}
    {d : Nat} (keyword method : Token) (hp : Place t.1 scopes pending locals)
    (hid : t.1.far id (some (d + 1))) (hs : scopes.distance? "super" = some (d + 1))
    (ht : scopes.distance? "this" = some d) :
    (twins false).Runs t (Exec.getSuper id keyword method) (getSuper locals keyword method) Same := by
  have hns : ¬ IsName "super" := fun h => h.2 rfl
  have hnt : ¬ IsName "this" := fun h => h.1 rfl
  show (twins false).RunsFrom t t _ _ _
  rcases hp.find (hp.pending_ne hns) with ⟨h, -⟩ | ⟨_, p, c, hds, ha, hm, hl⟩
  · rw [hs] at h
    cases h
  rcases hp.find (hp.pending_ne hnt) with ⟨h, -⟩ | ⟨_, p', c', hdt, ha', hm', hl'⟩
  · rw [ht] at h
    cases h
  obtain rfl := Option.some.inj (hs.symm.trans hds)
  obtain rfl := Option.some.inj (ht.symm.trans hdt)
  obtain ⟨k, hk⟩ := t.2.super hm
  obtain ⟨o, ho⟩ := t.2.this hm'
  unfold Exec.getSuper getSuper
  refine .left (a := t.1.machine.distances[id]?) rfl ?_
  rw [hid.2, hl, hl']
  refine (runs_getAt (·.frame) ha hm).bind ?_
  rintro _ _ _ - ⟨⟨rfl, -⟩, rfl, hv⟩
  refine (runs_getAt (·.frame) ha' hm').bind ?_
  rintro _ _ _ - ⟨⟨rfl, -⟩, rfl, hw⟩
  obtain rfl := Option.some.inj (hk.symm.trans hv)
  obtain rfl := Option.some.inj (ho.symm.trans hw)
  refine (runs_method? rfl).bind ?_
  rintro a b _ - ⟨h, rfl⟩
  exact runs_boundMethod h o

/-! ### Classes -/

theorem runs_methodFrame {here : FrameId} {scopes : Scopes} {locals : Locals}
    (hs : Stands t.1.heap t.1.world here scopes locals) {superclass : Option Expr}
    {parent : Option ClassId} (hp : superclass.isSome = parent.isSome) :
    (twins false).Runs t (methodFrame here parent) (methodLocals locals parent) fun e inner u =>
      Stands u.1.heap u.1.world e (scopes.ofClass superclass) inner := by
  cases parent with
  | none =>
    obtain rfl : superclass = none := by simpa using hp
    exact .pure hs
  | some c =>
    obtain ⟨e, rfl⟩ : ∃ e, superclass = some e := Option.isSome_iff_exists.1 hp
    refine (runs_newFrame locals [("super", .class c)] (by simp) (hs.lt t.2.globals)
      (by simp [Twin.holds_of_ne]) (by simp) (by simp)).imp ?_
    rintro e inner u - ⟨-, -, he⟩
    exact he scopes hs

/-- The twins with a new class and its methods. -/
def Twin.pushClass (t : Twin) (name : String) (parent : Option ClassId) (methods : List FunDecl)
    (around : FrameId) (locals : Locals) : Twin :=
  t.pushClosures (methodClosures methods around) (Array.replicate methods.length locals)
    (t.heap.classes.push ⟨name, parent, methodTable t.heap.closures.size methods .empty⟩)
    t.heap.instances

theorem Twin.Sound.pushClass (name : String) (parent : Option ClassId) {methods : List FunDecl}
    {around : FrameId} {scopes : Scopes} {locals : Locals}
    (hs : Stands t.1.heap t.1.world around scopes locals)
    (hm : FunDecl.ScopedAll t.1.far (["this"] :: scopes) methods) :
    (t.1.pushClass name parent methods around locals).Sound := by
  have hu := Twin.pushClosures_leads t.2 (methodClosures methods around)
    (Array.replicate methods.length locals)
    (t.1.heap.classes.push ⟨name, parent, methodTable t.1.heap.closures.size methods .empty⟩)
    t.1.heap.instances
  refine t.2.pushClosures (by simp [methodClosures]) t.2.fields fun {k x f} hf => ?_
  simp only [Twin.pushClosures, Twin.heap, Heap.classAt, Array.getD_eq_getD_getElem?,
    Array.getElem?_push] at hf
  split at hf
  · rcases find?_methodTable hf with h | ⟨i, hlen, hi, hx⟩
    · cases h
    obtain rfl : f = ⟨t.1.heap.closures.size + i⟩ := hi
    have hc := Twin.closure_pushClosures t.1 (methodClosures methods around)
      (Array.replicate methods.length locals)
      (t.1.heap.classes.push ⟨name, parent, methodTable t.1.heap.closures.size methods .empty⟩)
      t.1.heap.instances (i := i) (by simpa [methodClosures] using hlen)
    have hk := Twin.captured_pushClosures t.2 (methodClosures methods around)
      (Array.replicate methods.length locals)
      (t.1.heap.classes.push ⟨name, parent, methodTable t.1.heap.closures.size methods .empty⟩)
      t.1.heap.instances (i := i) (by simpa using hlen)
    refine ⟨?_, ?_, scopes, ?_, ?_⟩
    · simp [Twin.pushClosures, Twin.heap, methodClosures, hlen]
    · rw [hc, ← hx]
      simp [methodClosures, FunDecl.isInitializer]
    · rw [hc, hk]
      simpa [methodClosures] using hu.stands hs
    · rw [hc, hu.far]
      simpa [methodClosures] using FunDecl.scoped_of_mem hm _ (List.getElem_mem hlen)
  · refine hu.method (t.2.methods (k := k) (x := x) ?_)
    simpa [Heap.classAt, Twin.heap] using hf

theorem runs_newClass (name : String) (parent : Option ClassId) {methods : List FunDecl}
    {around : FrameId} {scopes : Scopes} {locals : Locals}
    (hs : Stands t.1.heap t.1.world around scopes locals)
    (hm : FunDecl.ScopedAll t.1.far (["this"] :: scopes) methods) :
    (twins false).Runs t (Exec.newClass name parent methods around)
      (newClass name parent methods locals) Same := by
  refine .of_ok ⟨_, Twin.Sound.pushClass name parent hs hm⟩ (Exec.newClass_eq _ _ _ _ _) ?_
    (Twin.pushClosures_leads t.2 _ _ _ _) ⟨rfl, Twin.holds_of_ne (by simp)⟩
  refine (newClass_of_ok (Exec.newClass_eq _ _ _ _ _)).trans ?_
  simp only [twins, t.2.machine, Twin.pushClass, Twin.pushClosures]
  simp [Machine.withoutLocals, Heap.withoutLocals, Twin.heap, methodClosures, Heap.frame]
  rfl

end Lox.Lexical
