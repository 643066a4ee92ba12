import Lox.Proofs.Points

/-!
# The boundary of a call

What stands between a call and the body that it runs. A call goes to what can be called, with as
many arguments as it takes; anything else is an error on the line of the closing parenthesis, after
callee and arguments and nothing more. A body starts in a fresh frame inside the one its closure
captured, with the parameters bound to the arguments one by one; a class makes an instance and has
the nearest initializer run on it. An initializer gives back its instance, which nothing in its body
can change.
-/

namespace Lox

/-! ### What a call does -/

/-- The nearest method of a name: the class's own, or else the nearest one of the class above. -/
inductive Heap.Nearest (h : Heap) (name : String) : ClassId → ClosureId → Prop
  | own {c : ClassId} {f : ClosureId} :
    (h.classAt c).methods.find? name = some f → Nearest h name c f
  | inherited {c parent : ClassId} {f : ClosureId} :
    (h.classAt c).methods.find? name = none → h.superclass? c = some parent →
    Nearest h name parent f → Nearest h name c f

/-- The body of `f` is about to run in `inner`: in a fresh frame inside the one that `f` captured,
which binds the parameters to the arguments, each to its own, and nothing else. Nothing else is
new. -/
structure Machine.Activates (m : Machine) (f : Closure) (arguments : List Value) (inner : Machine) :
    Prop where
  fresh : inner.frame = ⟨m.heap.frames.size⟩
  enclosing : inner.heap.enclosing? inner.frame = some f.frame
  arity : f.decl.params.length = arguments.length
  distinct : (f.decl.params.map (·.lexeme)).Nodup
  binds : ∀ (i : Nat) (p : Token), f.decl.params[i]? = some p →
    inner.heap.local? inner.frame p.lexeme = arguments[i]?
  only : ∀ x, x ∉ f.decl.params.map (·.lexeme) → inner.heap.local? inner.frame x = none
  others : ∀ e, e ≠ inner.frame → inner.heap.frame e = m.heap.frame e
  rest : inner =
    { m with heap := { m.heap with frames := inner.heap.frames }, frame := inner.frame }

/-- A fresh instance of exactly this class, without fields, and nothing else is new. -/
structure Machine.Makes (m : Machine) (c : ClassId) (o : InstanceId) (made : Machine) : Prop where
  fresh : o = ⟨m.heap.instances.size⟩
  object : made.heap.instanceAt o = ⟨c, .empty⟩
  others : ∀ p, p ≠ o → made.heap.instanceAt p = m.heap.instanceAt p
  rest : made = { m with heap := { m.heap with instances := made.heap.instances } }

/-- The closure `g` is `f` bound to `o`: its frame is fresh, stands inside the one that `f` captured
and binds `this` alone. -/
structure Machine.BindsThis (m : Machine) (f : Closure) (o : InstanceId) (g : Closure)
    (bound : Machine) : Prop where
  fresh : g.frame = ⟨m.heap.frames.size⟩
  closure : g = { f with frame := g.frame }
  frame : bound.heap.frame g.frame = ⟨Bindings.empty.insert "this" (.instance o), some f.frame⟩
  others : ∀ e, e ≠ g.frame → bound.heap.frame e = m.heap.frame e
  rest : bound = { m with heap := { m.heap with frames := bound.heap.frames } }

/-- The body of `f` is run once on these arguments, and the result of the call is what it returns,
unless `f` is an initializer: then it is the instance that `f` is bound to. The caller's frame is
the current one again. -/
inductive Closure.Called (n : Nat) (f : Closure) (arguments : List Value) (m : Machine) :
    EStateM.Result Stop Machine Value → Prop
  | returns {inner m' : Machine} {flow : Flow} :
    m.Activates f arguments inner → runAll (Stmt.exec n) f.decl.body inner = .ok flow m' →
    f.isInitializer = false →
    Called n f arguments m (.ok flow.result { m' with frame := m.frame })
  | initializes {inner m' : Machine} {flow : Flow} {o : InstanceId} :
    m.Activates f arguments inner → runAll (Stmt.exec n) f.decl.body inner = .ok flow m' →
    f.isInitializer = true → m.heap.local? f.frame "this" = some (.instance o) →
    Called n f arguments m (.ok (.instance o) { m' with frame := m.frame })
  | stops {inner m' : Machine} {stop : Stop} :
    m.Activates f arguments inner → runAll (Stmt.exec n) f.decl.body inner = .error stop m' →
    Called n f arguments m (.error stop { m' with frame := m.frame })

/-- Control goes to a value that takes as many arguments. A native is given them, a function has its
body run on them, and a class makes an instance on which the nearest initializer, if there is one,
is run; the instance is the result unless the initializer stops. -/
inductive Value.Called (n : Nat) (paren : Token) (arguments : List Value) (m : Machine) :
    Value → EStateM.Result Stop Machine Value → Prop
  | native {id : NativeId} : (m.heap.native id).arity = arguments.length →
    Called n paren arguments m (.native id)
      (Exec.callNative paren (m.heap.native id) arguments m)
  | function {f : ClosureId} {result : EStateM.Result Stop Machine Value} :
    (m.heap.closure f).Called n arguments m result →
    Called n paren arguments m (.function f) result
  | plain {c : ClassId} {o : InstanceId} {made : Machine} :
    m.Makes c o made → (∀ f, ¬ m.heap.Nearest initializerName c f) → arguments = [] →
    Called n paren arguments m (.class c) (.ok (.instance o) made)
  | initialized {c : ClassId} {o : InstanceId} {f : ClosureId} {g : Closure} {v : Value}
      {made bound m' : Machine} :
    m.Makes c o made → m.heap.Nearest initializerName c f →
    made.BindsThis (m.heap.closure f) o g bound → g.Called n arguments bound (.ok v m') →
    Called n paren arguments m (.class c) (.ok (.instance o) m')
  | stopped {c : ClassId} {o : InstanceId} {f : ClosureId} {g : Closure} {stop : Stop}
      {made bound m' : Machine} :
    m.Makes c o made → m.heap.Nearest initializerName c f →
    made.BindsThis (m.heap.closure f) o g bound → g.Called n arguments bound (.error stop m') →
    Called n paren arguments m (.class c) (.error stop m')

/-- How a call goes: the callee first, then the arguments in order, and then control goes to the
callee or, when it takes no arguments or not so many, nothing more happens and the line of the
closing parenthesis is blamed. -/
inductive Expr.Calls (n : Nat) (callee : Expr) (paren : Token) (arguments : List Expr)
    (m : Machine) : EStateM.Result Stop Machine Value → Prop
  | calleeStops {stop : Stop} {m' : Machine} :
    callee.eval (n + 2) m = .error stop m' → Calls n callee paren arguments m (.error stop m')
  | argumentStops {f : Value} {stop : Stop} {m₁ m' : Machine} :
    callee.eval (n + 2) m = .ok f m₁ →
    arguments.mapM (Expr.eval (n + 2)) m₁ = .error stop m' →
    Calls n callee paren arguments m (.error stop m')
  | notCallable {f : Value} {vs : List Value} {m₁ m₂ : Machine} :
    callee.eval (n + 2) m = .ok f m₁ → arguments.mapM (Expr.eval (n + 2)) m₁ = .ok vs m₂ →
    m₂.heap.arity? f = none →
    Calls n callee paren arguments m (.error (.error ⟨.notCallable, paren.line⟩) m₂)
  | wrongArity {f : Value} {vs : List Value} {arity : Nat} {m₁ m₂ : Machine} :
    callee.eval (n + 2) m = .ok f m₁ → arguments.mapM (Expr.eval (n + 2)) m₁ = .ok vs m₂ →
    m₂.heap.arity? f = some arity → vs.length ≠ arity →
    Calls n callee paren arguments m
      (.error (.error ⟨.wrongArity arity vs.length, paren.line⟩) m₂)
  | transfers {f : Value} {vs : List Value} {m₁ m₂ : Machine}
      {result : EStateM.Result Stop Machine Value} :
    callee.eval (n + 2) m = .ok f m₁ → arguments.mapM (Expr.eval (n + 2)) m₁ = .ok vs m₂ →
    m₂.heap.arity? f = some vs.length → f.Called n paren vs m₂ result →
    Calls n callee paren arguments m result

/-! ### Frames and instances -/

theorem Heap.findMethod?_eq_some_iff {h : Heap} {c : ClassId} {name : String} {f : ClosureId} :
    h.findMethod? c name = some f ↔ h.Nearest name c f := by
  constructor
  · intro hf
    fun_induction h.findMethod? c name with
    | case1 c g hg =>
      cases hf
      exact .own hg
    | case2 => cases hf
    | case3 c hg parent hp _ ih => exact .inherited hg hp (ih hf)
  · intro hf
    induction hf with
    | own hg => rw [Heap.findMethod?_eq, hg]
    | inherited hg hp _ ih => rw [Heap.findMethod?_eq, hg, hp, Option.bind_some, ih]

namespace Machine

variable {m : Machine}

theorem frame_newFrame_of_ne (h : Heap) (enclosing : Option FrameId) (b : Bindings Value)
    {e : FrameId} (he : e ≠ ⟨h.frames.size⟩) :
    (h.newFrame enclosing b).2.frame e = h.frame e := by
  rcases Nat.lt_or_ge e.index h.frames.size with hlt | hge
  · exact Heap.frame_newFrame_of_lt h enclosing b hlt
  · have hne : e.index ≠ h.frames.size := fun heq => he (congrArg FrameId.mk heq)
    have hgt : ¬ e.index < h.frames.size + 1 := by omega
    simp [Heap.frame, Heap.newFrame, Nat.not_lt.2 hge, hgt]

/-- With distinct parameters and as many arguments none is bound over and none is left out. -/
theorem find?_parameterBindings {params : List Token} {arguments : List Value}
    (hn : (params.map (·.lexeme)).Nodup) {i : Nat} {p : Token} (hp : params[i]? = some p)
    (hl : params.length = arguments.length) :
    (parameterBindings params arguments).find? p.lexeme = arguments[i]? := by
  have hi : i < params.length := (List.getElem?_eq_some_iff.1 hp).1
  obtain ⟨v, hv⟩ : ∃ v, arguments[i]? = some v := ⟨_, List.getElem?_eq_getElem (hl ▸ hi)⟩
  have hfst : ((params.map (·.lexeme)).zip arguments).map Prod.fst = params.map (·.lexeme) :=
    List.map_fst_zip (by simp [hl])
  have hmem : (p.lexeme, v) ∈ (params.map (·.lexeme)).zip arguments :=
    List.mem_of_getElem? (i := i) (by simp [List.getElem?_zip_eq_some, hp, hv])
  rw [Lexical.Agrees.parameterBindings_eq, Lexical.find?_bindingsOf, hv]
  refine Lexical.lookup_of_mem ?_ (List.mem_reverse.2 hmem)
  rwa [List.map_reverse, List.nodup_reverse, hfst]

theorem find?_parameterBindings_eq_none {params : List Token} {arguments : List Value} {x : String}
    (hx : x ∉ params.map (·.lexeme)) : (parameterBindings params arguments).find? x = none := by
  rw [Lexical.Agrees.parameterBindings_eq, Lexical.find?_bindingsOf, List.lookup_eq_none_iff]
  rintro ⟨y, v⟩ hy
  have hmem := (List.of_mem_zip (List.mem_reverse.1 hy)).1
  simpa using fun h : x = y => hx (h ▸ hmem)

/-- The machine in which the body of a closure starts. -/
def activated (m : Machine) (f : Closure) (arguments : List Value) : Machine :=
  { m with
    heap := (m.heap.newFrame (some f.frame) (parameterBindings f.decl.params arguments)).2
    frame := ⟨m.heap.frames.size⟩ }

theorem activates_activated {f : Closure} {arguments : List Value}
    (hf : f.frame.index < m.heap.frames.size) (hl : f.decl.params.length = arguments.length)
    (hn : (f.decl.params.map (·.lexeme)).Nodup) :
    m.Activates f arguments (m.activated f arguments) where
  fresh := rfl
  enclosing := Heap.enclosing?_newFrame m.heap _ hf
  arity := hl
  distinct := hn
  binds _ _ hp := (Heap.local?_newFrame m.heap _ _ _).trans (find?_parameterBindings hn hp hl)
  only _ hx := (Heap.local?_newFrame m.heap _ _ _).trans (find?_parameterBindings_eq_none hx)
  others _ he := frame_newFrame_of_ne m.heap _ _ he
  rest := rfl

/-- The machine with a new instance. -/
def made (m : Machine) (c : ClassId) : Machine := { m with heap := (m.heap.newInstance c).2 }

theorem makes_made (m : Machine) (c : ClassId) :
    m.Makes c ⟨m.heap.instances.size⟩ (m.made c) where
  fresh := rfl
  object := by simp [made, Heap.instanceAt, Heap.newInstance]
  others p hp := by
    have hne : p.index ≠ m.heap.instances.size := fun heq => hp (congrArg InstanceId.mk heq)
    simp [made, Heap.instanceAt, Heap.newInstance, Array.getD_eq_getD_getElem?,
      Array.getElem?_push, hne]
  rest := rfl

/-- The machine in which a closure has been bound to an instance. -/
def bound (m : Machine) (f : Closure) (o : InstanceId) : Machine :=
  { m with heap :=
    (m.heap.newFrame (some f.frame) (Bindings.empty.insert "this" (.instance o))).2 }

theorem bindsThis_bound (m : Machine) (f : Closure) (o : InstanceId) :
    m.BindsThis f o { f with frame := ⟨m.heap.frames.size⟩ } (m.bound f o) where
  fresh := rfl
  closure := rfl
  frame := Heap.frame_newFrame m.heap _ _
  others _ he := frame_newFrame_of_ne m.heap _ _ he
  rest := rfl

end Machine

/-! ### Calls at a point -/

open Lexical
open Lexical.Twin (Leads)

variable {n : Nat} {t : SoundTwin}

/-- A closure that is an initializer has its instance in its frame. -/
theorem Lexical.Twin.Callable.receiver {f : Closure} {locals : Locals}
    (hf : t.1.Callable f locals) (hi : f.isInitializer = true) :
    f.frame ≠ Machine.globals ∧ ∃ o, t.1.heap.local? f.frame "this" = some (.instance o) := by
  obtain ⟨scopes, hs, -, hthis⟩ := hf
  obtain ⟨outer, rfl⟩ : ∃ outer, scopes = ["this"] :: outer := by
    cases scopes with
    | nil => cases hthis hi
    | cons names outer => exact ⟨outer, by simpa using hthis hi⟩
  have hd : Scopes.distance? (["this"] :: outer) "this" = some 0 := by
    simp [Scopes.distance?_cons]
  obtain ⟨p, c, hp, hc, -⟩ := hs.find hd
  obtain rfl : f.frame = p := Option.some.inj hp
  exact ⟨hs.ne_globals, t.2.this hc⟩

/-- A call steps into the new frame and, however its body ends, back out of it. -/
theorem Closure.call_eq (n : Nat) (f : Closure) (arguments : List Value) (m : Machine) :
    f.call (n + 1) arguments m =
      match runAll (Stmt.exec n) f.decl.body (m.activated f arguments) with
      | .ok flow m' =>
        if f.isInitializer then
          Exec.ask (fun m => m.heap.getAt f.frame 0 "this") { m' with frame := m.frame }
        else .ok flow.result { m' with frame := m.frame }
      | .error stop m' => .error stop { m' with frame := m.frame } := by
  simp only [Closure.call, Bind.bind, EStateM.bind, Exec.newFrame, Exec.modifyHeap, Heap.newFrame,
    Exec.withFrame, Machine.activated]
  generalize runAll (Stmt.exec n) f.decl.body _ = result
  cases result with
  | ok flow m' => cases f.isInitializer <;> rfl
  | error stop m' => rfl

theorem Closure.called {f : Closure} {locals : Locals} {arguments : List Value}
    (ha : f.decl.arity = arguments.length) (hf : t.1.Callable f locals)
    (hv : ∀ v ∈ arguments, t.1.Holds v) :
    f.Called n arguments t.1.machine (f.call (n + 1) arguments t.1.machine) := by
  have hreceiver := hf.receiver
  obtain ⟨scopes, hs, hd, -⟩ := hf
  have hacts := Machine.activates_activated (hs.lt t.2.globals) ha (by
    obtain ⟨⟨_, _, _⟩, _, _⟩ := f
    exact hd.2.1)
  have hnew : Exec.newFrame f.frame (parameterBindings f.decl.params arguments) t.1.machine =
      .ok ⟨t.1.heap.frames.size⟩ { t.1.machine.activated f arguments with
        frame := t.1.machine.frame } := rfl
  obtain ⟨u, inner, hu, -, hl, -, names, hat, hb⟩ :=
    Runs.reaches (Agrees.runs_activation ha hs hd hv) hnew
  have hrun := (agrees n).runAll (t := ⟨_, u.2.enter ⟨t.1.heap.frames.size⟩⟩) hat hb
  have hinner : (u.1.enter ⟨t.1.heap.frames.size⟩).machine =
      t.1.machine.activated f arguments := by
    simp only [Twin.enter, hu]
    rfl
  rw [Closure.call_eq]
  rcases hr : runAll (Stmt.exec n) f.decl.body (t.1.machine.activated f arguments) with
    ⟨flow, m'⟩ | ⟨stop, m'⟩
  · by_cases hi : f.isInitializer = true
    · obtain ⟨hne, o, ho⟩ := hreceiver hi
      obtain ⟨w, -, rfl, -, hw, -⟩ := Runs.reaches hrun (hinner ▸ hr)
      -- No name of the program is `this`, so the body has left it as it was.
      have hthis := hw.bound hne (fun h => h.1 rfl) (hl.bound hne (fun h => h.1 rfl) ho)
      have hthis : w.1.machine.heap.local? f.frame "this" = some (.instance o) := hthis
      simp only [hi, if_true, Exec.ask, Heap.getAt, Heap.ancestor, Heap.ancestor?, hthis]
      exact .initializes hacts hr hi ho
    · simp only [hi]
      exact .returns hacts hr (by simpa using hi)
  · exact .stops hacts hr

/-- A class takes the arguments of its initializer, and none without one. -/
theorem Heap.arity?_class (h : Heap) (c : ClassId) :
    h.arity? (.class c) =
      some (match h.findMethod? c initializerName with
        | some f => (h.closure f).decl.arity
        | none => 0) := by
  rw [arity?, classArity, method?]
  cases h.findMethod? c initializerName <;> rfl

/-- A class makes its instance first and then looks for the initializer. -/
theorem Value.call_class_eq (n : Nat) (c : ClassId) (paren : Token) (arguments : List Value)
    (m : Machine) :
    (Value.class c).call (n + 2) paren arguments m =
      match m.heap.findMethod? c initializerName with
      | none => .ok (.instance ⟨m.heap.instances.size⟩) (m.made c)
      | some f =>
        let g := { m.heap.closure f with frame := ⟨m.heap.frames.size⟩ }
        match g.call (n + 1) arguments
            ((m.made c).bound (m.heap.closure f) ⟨m.heap.instances.size⟩) with
        | .ok _ m' => .ok (.instance ⟨m.heap.instances.size⟩) m'
        | .error stop m' => .error stop m' := by
  have hfind : (m.heap.newInstance c).2.method? c initializerName =
      (m.heap.findMethod? c initializerName).map m.heap.closure :=
    congrArg (Option.map m.heap.closure)
      (@Heap.findMethod?_congr m.heap (m.heap.newInstance c).2 rfl c initializerName)
  simp only [Value.call, Bind.bind, EStateM.bind, Exec.modifyHeap, Exec.inspect, hfind]
  cases m.heap.findMethod? c initializerName with
  | none => rfl
  | some f =>
    simp only [Option.map_some, Exec.bindThis, Exec.newFrame, Exec.modifyHeap, Bind.bind,
      EStateM.bind, pure, EStateM.pure, Machine.made, Machine.bound, Heap.newFrame,
      Heap.newInstance]
    generalize Closure.call _ _ _ _ = result
    cases result <;> rfl

theorem Value.called {f : Value} (paren : Token) {arguments : List Value}
    (ha : t.1.heap.arity? f = some arguments.length) (hf : t.1.Holds f)
    (hv : ∀ v ∈ arguments, t.1.Holds v) :
    f.Called n paren arguments t.1.machine (f.call (n + 2) paren arguments t.1.machine) := by
  cases f with
  | native id => exact .native (Option.some.inj ha)
  | function f => exact .function (Closure.called (Option.some.inj ha) (hf f rfl).2 hv)
  | «class» c =>
    have hmakes := t.1.machine.makes_made c
    rw [Heap.arity?_class] at ha
    rw [Value.call_class_eq]
    rcases hm : t.1.machine.heap.findMethod? c initializerName with _ | f
    · have hm' : t.1.heap.findMethod? c initializerName = none := hm
      rw [hm'] at ha
      refine .plain hmakes (fun f hf => ?_) (List.length_eq_zero_iff.1 (Option.some.inj ha).symm)
      rw [← Heap.findMethod?_eq_some_iff, hm] at hf
      cases hf
    · have hm' : t.1.heap.findMethod? c initializerName = some f := hm
      rw [hm'] at ha
      have hnearest := Heap.findMethod?_eq_some_iff.1 hm
      have hbinds := (t.1.machine.made c).bindsThis_bound (t.1.machine.heap.closure f)
        ⟨t.1.machine.heap.instances.size⟩
      -- The initializer is bound to an instance that is already there.
      obtain ⟨u, -, hu, -, hl, -, hfind, hclosure⟩ :=
        Runs.reaches (runs_newInstance c) (t := t) (a := ⟨t.1.heap.instances.size⟩) rfl
      have hu : u.1.machine = t.1.machine.made c := hu
      have hmethod := u.2.method_of_findMethod? c initializerName (hfind ▸ hm')
      have hthis : Exec.bindThis (u.1.heap.closure f) ⟨t.1.machine.heap.instances.size⟩
          u.1.machine = .ok { t.1.machine.heap.closure f with frame := ⟨t.1.heap.frames.size⟩ }
            ((t.1.machine.made c).bound (t.1.machine.heap.closure f)
              ⟨t.1.machine.heap.instances.size⟩) := by
        rw [hclosure, hu]
        rfl
      obtain ⟨w, inner, hw, -, hb, hcallable, -, -⟩ :=
        Runs.reaches (runs_bindThis hmethod ⟨t.1.machine.heap.instances.size⟩) hthis
      have hcalled := Closure.called (n := n) (f := { t.1.machine.heap.closure f with
        frame := ⟨t.1.heap.frames.size⟩ }) (Option.some.inj ha) hcallable
        fun v h => hb.holds (hl.holds (hv v h))
      rw [hw] at hcalled
      dsimp only
      split
      · next hr => exact .initialized hmakes hnearest hbinds (hr ▸ hcalled)
      · next hr => exact .stopped hmakes hnearest hbinds (hr ▸ hcalled)
  | _ => cases ha

theorem Expr.eval_call_eq (n : Nat) (callee : Expr) (paren : Token) (arguments : List Expr)
    (m : Machine) :
    (Expr.call callee paren arguments).eval (n + 1) m =
      match callee.eval n m with
      | .error stop m' => .error stop m'
      | .ok f m₁ =>
        match arguments.mapM (Expr.eval n) m₁ with
        | .error stop m' => .error stop m'
        | .ok vs m₂ =>
          match m₂.heap.arity? f with
          | none => .error (.error ⟨.notCallable, paren.line⟩) m₂
          | some arity =>
            if vs.length = arity then f.call n paren vs m₂
            else .error (.error ⟨.wrongArity arity vs.length, paren.line⟩) m₂ := by
  simp only [Expr.eval, Bind.bind, EStateM.bind]
  cases callee.eval n m with
  | error stop m' => rfl
  | ok f m₁ =>
    simp only
    cases arguments.mapM (Expr.eval n) m₁ with
    | error stop m' => rfl
    | ok vs m₂ =>
      simp only [Exec.inspect]
      cases m₂.heap.arity? f with
      | none => rfl
      | some arity =>
        by_cases h : vs.length = arity
        · simp only [h, if_true]
        · simp only [h, if_false]
          rfl

/-- How a call goes at twins that suit it. -/
theorem Expr.calls {callee : Expr} {arguments : List Expr} {scopes : Scopes}
    {pending : Option String} {locals : Locals} (paren : Token)
    (hplace : Place t.1 scopes pending locals)
    (hs : (Expr.call callee paren arguments).Scoped t.1.far scopes pending) :
    Expr.Calls n callee paren arguments t.1.machine
      ((Expr.call callee paren arguments).eval (n + 3) t.1.machine) := by
  rw [Expr.eval_call_eq]
  rcases hf : callee.eval (n + 2) t.1.machine with ⟨f, m₁⟩ | ⟨stop, m'⟩
  case error => exact .calleeStops hf
  obtain ⟨u, rfl, hu, hholds⟩ := hplace.evaluated hs.1 hf
  dsimp only
  rcases hvs : arguments.mapM (Expr.eval (n + 2)) u.1.machine with ⟨vs, m₂⟩ | ⟨stop, m'⟩
  case error => exact .argumentStops hf hvs
  obtain ⟨w, -, rfl, -, hw, -, hall⟩ :=
    Runs.reaches ((agrees (n + 2)).evalAll (hplace.after hu) (hu.far ▸ hs.2)) hvs
  dsimp only
  rcases ha : w.1.machine.heap.arity? f with _ | arity
  case none => exact .notCallable hf hvs ha
  dsimp only
  by_cases hlen : vs.length = arity
  · subst hlen
    rw [if_pos rfl]
    exact .transfers hf hvs ha (Value.called paren ha (hw.holds hholds) hall)
  · rw [if_neg hlen]
    exact .wrongArity hf hvs ha hlen

namespace Session

end Session

end Lox
