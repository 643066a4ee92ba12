import Lox.Proofs.Agreement
import Lox.Proofs.TracedRuns

/-!
# Traced trees

A scoped and legal tree comes to the same with a trace as without one, and whatever it runs is as it
should be: one unit of fuel is peeled off at a time, and each kind of expression and statement keeps
the frames of its home in place.
-/

namespace Lox.Traced

variable {far : NodeId → Option Nat → Prop}

/-- The same flow, and a value that can be called if it returns a function. -/
def SameFlow (far : NodeId → Option Nat → Prop) (flow flow' : Flow) (t : State) : Prop :=
  flow = flow' ∧ ∀ v, flow = .return v → t.Holds far v

/-- With this much fuel, whatever is scoped and legal runs beside itself. -/
structure Agrees (far : NodeId → Option Nat → Prop) (n : Nat) : Prop where
  eval {p : (runs far).Pair} {scopes : Scopes} {pending : Option String} {home : Home} {e : Expr} :
    Serves p.1.heap p.1.machine.frame scopes home → e.Scoped far scopes pending →
    Beside p (eval n home e) (e.eval n) (Same far)
  call {p : (runs far).Pair} {v : Value} (paren : Token) {arguments : List Value} :
    p.1.Holds far v → (∀ w ∈ arguments, p.1.Holds far w) →
    Beside p (call n v paren arguments) (v.call n paren arguments) (Same far)
  callFunction {p : (runs far).Pair} {f : Function} {arguments : List Value} :
    Callable far p.1.heap f.closure f.home → (∀ w ∈ arguments, p.1.Holds far w) →
    Beside p (callFunction n f arguments) (f.closure.call n arguments) (Same far)
  exec {p : (runs far).Pair} {scopes : Scopes} {home : Home} {s : Stmt} {c : Surroundings} :
    Serves p.1.heap p.1.machine.frame scopes home → s.Scoped far scopes → s.Legal c →
    Beside p (exec n home s) (s.exec n) (SameFlow far)

/-- What a call binds to its parameters was given to it. -/
theorem mem_of_find?_parameterBindings {params : List Token} {arguments : List Value} {x : String}
    {v : Value} (hv : (parameterBindings params arguments).find? x = some v) : v ∈ arguments := by
  rw [Lexical.Agrees.parameterBindings_eq, Lexical.find?_bindingsOf] at hv
  exact (List.of_mem_zip (List.mem_reverse.1 (Lexical.mem_of_lookup hv))).2

theorem sameFlow_normal (t : State) : SameFlow far .normal .normal t := ⟨rfl, by simp⟩

/-- The next statement stands in a scope where this one has declared its name. -/
theorem Serves.after {h : Heap} {e : FrameId} {scopes : Scopes} {home : Home} {s : Stmt}
    (hs : Serves h e scopes home) (hc : s.Scoped far scopes) :
    Serves h e (s.declare scopes) home := by
  cases s with
  | var | function | «class» => exact hs.declare hc.1
  | _ => exact hs

namespace Agrees

variable {n : Nat} {p : (runs far).Pair} {scopes : Scopes} {pending : Option String} {home : Home}

/-! ### Expressions -/

theorem evalAll (h : Agrees far n) {es : List Expr}
    (hs : Serves p.1.heap p.1.machine.frame scopes home)
    (he : Expr.ScopedAll far scopes pending es) :
    Beside p (es.mapM (Traced.eval n home)) (es.mapM (Expr.eval n)) fun vs ws t =>
      vs = ws ∧ ∀ v ∈ vs, t.Holds far v := by
  induction es generalizing p with
  | nil => exact .pure ⟨rfl, by simp⟩
  | cons e es ih =>
    rw [List.mapM_cons, List.mapM_cons]
    refine (h.eval hs he.1).bind ?_
    rintro v _ q hq ⟨rfl, hv⟩
    refine (ih (hq.serving hs) he.2).bind ?_
    rintro vs _ r hr ⟨rfl, hvs⟩
    refine .pure ⟨rfl, ?_⟩
    intro w hw
    rcases List.mem_cons.1 hw with rfl | hw
    · exact hr.holds hv
    · exact hvs w hw

theorem evalCall (h : Agrees far n) {callee : Expr} (paren : Token) {arguments : List Expr}
    (hs : Serves p.1.heap p.1.machine.frame scopes home)
    (he : (Expr.call callee paren arguments).Scoped far scopes pending) :
    Beside p (Traced.eval (n + 1) home (.call callee paren arguments))
      ((Expr.call callee paren arguments).eval (n + 1)) (Same far) := by
  simp only [Traced.eval, Expr.eval]
  refine beside_silent (fun _ _ _ => ⟨trivial, trivial⟩) ?_
  refine (h.eval hs he.1).bind ?_
  rintro f _ q hq ⟨rfl, hf⟩
  refine (h.evalAll (hq.serving hs) he.2).bind ?_
  rintro vs _ r hr ⟨rfl, hvs⟩
  refine (beside_inspect _).bind ?_
  rintro _ arity r - ⟨rfl, rfl, rfl⟩
  rcases r.1.heap.arity? f with _ | arity
  · exact beside_fail paren _
  · by_cases hn : vs.length = arity
    · simp only [hn, if_true]
      exact h.call paren (hr.holds hf) hvs
    · simp only [hn, if_false]
      exact beside_fail paren _

theorem evalSucc (h : Agrees far n) {e : Expr}
    (hs : Serves p.1.heap p.1.machine.frame scopes home) (he : e.Scoped far scopes pending) :
    Beside p (Traced.eval (n + 1) home e) (e.eval (n + 1)) (Same far) := by
  cases e with
  | literal value =>
    simp only [Traced.eval, Expr.eval]
    refine beside_silent (fun _ _ _ => ⟨trivial, trivial⟩) ?_
    exact .pure ⟨rfl, holds_ofLiteral value⟩
  | grouping inner =>
    simp only [Traced.eval, Expr.eval]
    exact beside_silent (fun _ _ _ => ⟨trivial, trivial⟩) (h.eval hs he)
  | unary operator right =>
    simp only [Traced.eval, Expr.eval]
    refine beside_silent (fun _ _ _ => ⟨trivial, trivial⟩) ?_
    refine (h.eval (e := right) hs he).bind ?_
    rintro v _ q - ⟨rfl, -⟩
    exact beside_ofResult operator simple_unaryResult
  | binary left operator right =>
    simp only [Traced.eval, Expr.eval]
    refine beside_silent (fun _ _ _ => ⟨trivial, trivial⟩) ?_
    refine (h.eval hs he.1).bind ?_
    rintro v _ q hq ⟨rfl, -⟩
    refine (h.eval (hq.serving hs) he.2).bind ?_
    rintro w _ r - ⟨rfl, -⟩
    exact beside_ofResult operator simple_binaryResult
  | logical left operator right =>
    simp only [Traced.eval, Expr.eval]
    refine beside_silent (fun _ _ _ => ⟨trivial, trivial⟩) ?_
    refine (h.eval hs he.1).bind ?_
    rintro v _ q hq ⟨rfl, hv⟩
    by_cases hc : shortCircuits operator.kind v = true
    · simp only [hc, if_true]
      exact .pure ⟨rfl, hv⟩
    · simp only [hc]
      exact h.eval (hq.serving hs) he.2
  | «variable» id name =>
    simp only [Traced.eval, Expr.eval]
    exact beside_silent (fun _ _ _ => ⟨trivial, trivial⟩) (beside_read id name)
  | assign id name value =>
    simp only [Traced.eval, Expr.eval]
    refine beside_silent (fun _ _ _ => ⟨trivial, trivial⟩) ?_
    refine (h.eval hs he.1).bind ?_
    rintro v _ q hq ⟨rfl, hv⟩
    refine (beside_assign id he.2.2 hv).bind ?_
    rintro _ _ r hr -
    exact .pure ⟨rfl, hr.holds hv⟩
  | call callee paren arguments => exact h.evalCall paren hs he
  | get object name =>
    simp only [Traced.eval, Expr.eval]
    refine beside_silent (fun _ _ _ => ⟨trivial, trivial⟩) ?_
    refine (h.eval (e := object) hs he).bind ?_
    rintro v _ q - ⟨rfl, -⟩
    cases v with
    | «instance» o => exact beside_getProperty o name
    | _ => exact beside_fail name _
  | set object name value =>
    simp only [Traced.eval, Expr.eval]
    refine beside_silent (fun _ _ _ => ⟨trivial, trivial⟩) ?_
    refine (h.eval hs he.1).bind ?_
    rintro v _ q hq ⟨rfl, -⟩
    cases v with
    | «instance» o =>
      refine (h.eval (hq.serving hs) he.2).bind ?_
      rintro v _ r - ⟨rfl, hv⟩
      refine (beside_setProperty o name hv).bind ?_
      rintro _ _ u hu -
      exact .pure ⟨rfl, hu.holds hv⟩
    | _ => exact beside_fail name _
  | this id keyword =>
    simp only [Traced.eval, Expr.eval]
    exact beside_this hs he.1 he.2.1 he.2.2
  | super id keyword method =>
    simp only [Traced.eval, Expr.eval]
    obtain ⟨d, hd, hsuper, hthis⟩ := he
    exact beside_super hs keyword method hd hsuper hthis

/-! ### Statements -/

theorem runAll (h : Agrees far n) {ss : List Stmt} {c : Surroundings}
    (hs : Serves p.1.heap p.1.machine.frame scopes home) (hss : Stmt.ScopedAll far scopes ss)
    (hl : Stmt.LegalAll c ss) :
    Beside p (Traced.runAll (Traced.exec n home) ss) (Lox.runAll (Stmt.exec n) ss)
      (SameFlow far) := by
  induction ss generalizing p scopes with
  | nil => exact .pure (sameFlow_normal _)
  | cons s ss ih =>
    refine (h.exec hs hss.1 hl.1).bind ?_
    rintro flow _ q hq ⟨rfl, hv⟩
    cases flow with
    | normal => exact ih ((hq.serving hs).after hss.1) hss.2 hl.2
    | «break» => exact .pure ⟨rfl, hv⟩
    | «return» v => exact .pure ⟨rfl, hv⟩

theorem repeatWhile (h : Agrees far n) {condition : Expr} {body : Stmt} {c : Surroundings}
    (hs : Serves p.1.heap p.1.machine.frame scopes home) (hc : condition.Scoped far scopes none)
    (hb : body.Scoped far scopes) (hl : body.Legal c) (rounds : Nat) :
    Beside p (Traced.repeatWhile (Traced.eval n home condition) (Traced.exec n home body) rounds)
      (Lox.repeatWhile (condition.eval n) (body.exec n) rounds) (SameFlow far) := by
  induction rounds generalizing p with
  | zero => exact .throw rfl
  | succ rounds ih =>
    refine (h.eval hs hc).bind ?_
    rintro v _ q hq ⟨rfl, -⟩
    by_cases hv : v.isTruthy = true
    · simp only [hv, if_true]
      refine (h.exec (hq.serving hs) hb hl).bind ?_
      rintro flow _ r hr ⟨rfl, hf⟩
      cases flow with
      | normal => exact ih (hr.serving (hq.serving hs))
      | «break» => exact .pure (sameFlow_normal _)
      | «return» v => exact .pure ⟨rfl, hf⟩
    · simp only [hv]
      exact .pure (sameFlow_normal _)

theorem superclassOf (h : Agrees far n) (name : Token) {superclass : Option Expr}
    (hs : Serves p.1.heap p.1.machine.frame scopes home)
    (he : Expr.ScopedOption far scopes none superclass) :
    Beside p (Traced.superclassOf (Traced.eval n home) name superclass)
      (Lox.superclassOf (Expr.eval n) name superclass) fun a b t =>
        a = b ∧ a.isSome = superclass.isSome ∧ ∀ c, a = some c → t.Holds far (.class c) := by
  cases superclass with
  | none => exact .pure ⟨rfl, rfl, by simp⟩
  | some e =>
    refine (h.eval (e := e) hs he).bind ?_
    rintro v _ q - ⟨rfl, hv⟩
    cases v with
    | «class» c =>
      refine .pure ⟨rfl, rfl, ?_⟩
      rintro _ ⟨⟩
      exact hv
    | _ => exact .of_error rfl rfl rfl

theorem execVar (h : Agrees far n) {name : Token} {value : Option Expr}
    (hs : Serves p.1.heap p.1.machine.frame scopes home)
    (hc : (Stmt.var name value).Scoped far scopes) :
    Beside p (Traced.exec (n + 1) home (.var name value)) ((Stmt.var name value).exec (n + 1))
      (SameFlow far) := by
  obtain ⟨hx, -, hv⟩ := hc
  cases value with
  | none =>
    simp only [Traced.exec, Stmt.exec]
    refine beside_silent (fun _ _ _ => ⟨trivial, trivial⟩) ?_
    refine (beside_define hx holds_nil).bind ?_
    rintro _ _ q - -
    exact .pure (sameFlow_normal _)
  | some value =>
    simp only [Traced.exec, Stmt.exec]
    refine beside_silent (fun _ _ _ => ⟨trivial, trivial⟩) ?_
    refine (h.eval (hs.declare hx) hv).bind ?_
    rintro v _ q - ⟨rfl, hv⟩
    refine (beside_define hx hv).bind ?_
    rintro _ _ r - -
    exact .pure (sameFlow_normal _)

theorem execBlock (h : Agrees far n) {body : List Stmt} {c : Surroundings}
    (hs : Serves p.1.heap p.1.machine.frame scopes home) (hc : (Stmt.block body).Scoped far scopes)
    (hl : (Stmt.block body).Legal c) :
    Beside p (Traced.exec (n + 1) home (.block body)) ((Stmt.block body).exec (n + 1))
      (SameFlow far) := by
  simp only [Traced.exec, Stmt.exec]
  refine beside_silent (fun _ _ _ => ⟨trivial, trivial⟩) ?_
  refine beside_currentFrame.bind ?_
  rintro _ _ q - ⟨rfl, rfl, rfl⟩
  refine (beside_newFrame q.1.machine.frame (b := .empty) fun x v hv => by
    simp [Bindings.find?_empty] at hv).bind ?_
  rintro e _ r - ⟨rfl, he⟩
  have hinside : Serves (enter r e).1.heap (enter r e).1.machine.frame ([] :: scopes) home :=
    .inside (by simp) (by simp) (he.enclosing (hs.lt q.2.sound.globals)) (he.leads.serves hs)
  exact beside_withFrame (h.runAll hinside hc hl.2) fun _ _ _ h => h

theorem execIf (h : Agrees far n) {condition : Expr} {thenBranch : Stmt} {elseBranch : Option Stmt}
    {c : Surroundings} (hs : Serves p.1.heap p.1.machine.frame scopes home)
    (hc : (Stmt.if condition thenBranch elseBranch).Scoped far scopes)
    (hl : (Stmt.if condition thenBranch elseBranch).Legal c) :
    Beside p (Traced.exec (n + 1) home (.if condition thenBranch elseBranch))
      ((Stmt.if condition thenBranch elseBranch).exec (n + 1)) (SameFlow far) := by
  have hcondition : condition.Scoped far scopes none := by
    cases elseBranch <;> exact hc.1
  have hthen : thenBranch.Scoped far scopes ∧ thenBranch.Legal c := by
    cases elseBranch with
    | none => exact ⟨hc.2.2, hl.2⟩
    | some _ => exact ⟨hc.2.1.2, hl.2.1⟩
  simp only [Traced.exec, Stmt.exec]
  refine beside_silent (fun _ _ _ => ⟨trivial, trivial⟩) ?_
  refine (h.eval hs hcondition).bind ?_
  rintro v _ q hq ⟨rfl, -⟩
  by_cases hv : v.isTruthy = true
  · simp only [hv, if_true]
    exact h.exec (hq.serving hs) hthen.1 hthen.2
  · simp only [hv]
    cases elseBranch with
    | none => exact .pure (sameFlow_normal _)
    | some elseBranch => exact h.exec (hq.serving hs) hc.2.2.2 hl.2.2

theorem execFunction {decl : FunDecl} {c : Surroundings}
    (hs : Serves p.1.heap p.1.machine.frame scopes home)
    (hc : (Stmt.function decl).Scoped far scopes) (hl : (Stmt.function decl).Legal c) :
    Beside p (Traced.exec (n + 1) home (.function decl)) ((Stmt.function decl).exec (n + 1))
      (SameFlow far) := by
  obtain ⟨hx, -, hd⟩ := hc
  simp only [Traced.exec, Stmt.exec]
  refine beside_silent (fun _ _ _ => ⟨trivial, trivial⟩) ?_
  refine beside_currentFrame.bind ?_
  rintro _ _ q - ⟨rfl, rfl, rfl⟩
  have hcallable : Callable far q.1.heap ⟨decl, q.1.machine.frame, false⟩ home :=
    ⟨upright_function hl _, scopes.declare decl.name.lexeme, hs.declare hx, hd⟩
  refine (beside_newClosure (f := ⟨_, home⟩) hcallable).bind ?_
  rintro v _ r - ⟨rfl, hv⟩
  refine (beside_define hx hv).bind ?_
  rintro _ _ u - -
  exact .pure (sameFlow_normal _)

theorem execClass (h : Agrees far n) {name : Token} {superclass : Option Expr}
    {methods : List FunDecl} {c : Surroundings}
    (hs : Serves p.1.heap p.1.machine.frame scopes home)
    (hc : (Stmt.class name superclass methods).Scoped far scopes)
    (hl : (Stmt.class name superclass methods).Legal c) :
    Beside p (Traced.exec (n + 1) home (.class name superclass methods))
      ((Stmt.class name superclass methods).exec (n + 1)) (SameFlow far) := by
  obtain ⟨hx, -, hsuper, hm⟩ := hc
  simp only [Traced.exec, Stmt.exec]
  refine beside_silent (fun _ _ _ => ⟨trivial, trivial⟩) ?_
  refine (h.superclassOf name hs hsuper).bind ?_
  rintro parent _ q hq ⟨rfl, hp, hparent⟩
  refine (beside_define hx holds_nil).bind ?_
  rintro _ _ r hr -
  refine beside_currentFrame.bind ?_
  rintro _ _ r - ⟨rfl, rfl, rfl⟩
  have hs : Serves r.1.heap r.1.machine.frame (scopes.declare name.lexeme) home :=
    (hr.serving (hq.serving hs)).declare hx
  refine (beside_methodFrame superclass hp (fun k hk => hr.holds (hparent k hk)) hs).bind ?_
  rintro e _ u hu ⟨rfl, he⟩
  refine (beside_newClass name.lexeme (fun k hk => hu.holds (hr.holds (hparent k hk))) he hm
    hl.2).bind ?_
  rintro v _ w hw ⟨rfl, hv⟩
  refine (beside_assignFrom _ hx hv).bind ?_
  rintro _ _ x - -
  exact .pure (sameFlow_normal _)

theorem execSucc (h : Agrees far n) {s : Stmt} {c : Surroundings}
    (hs : Serves p.1.heap p.1.machine.frame scopes home) (hc : s.Scoped far scopes)
    (hl : s.Legal c) : Beside p (Traced.exec (n + 1) home s) (s.exec (n + 1)) (SameFlow far) := by
  cases s with
  | expression value =>
    simp only [Traced.exec, Stmt.exec]
    refine beside_silent (fun _ _ _ => ⟨trivial, trivial⟩) ?_
    refine (h.eval (e := value) hs hc).bind ?_
    rintro _ _ q - -
    exact .pure (sameFlow_normal _)
  | print value =>
    simp only [Traced.exec, Stmt.exec]
    refine beside_silent (fun _ _ _ => ⟨trivial, trivial⟩) ?_
    refine (h.eval (e := value) hs hc).bind ?_
    rintro v _ q - ⟨rfl, -⟩
    refine (beside_inspect _).bind ?_
    rintro _ line q - ⟨-, rfl, rfl⟩
    refine (beside_print _).bind ?_
    rintro _ _ r - -
    exact .pure (sameFlow_normal _)
  | var name value => exact h.execVar hs hc
  | block body => exact h.execBlock hs hc hl
  | «if» condition thenBranch elseBranch => exact h.execIf hs hc hl
  | «while» condition body =>
    simp only [Traced.exec, Stmt.exec]
    -- The event asks that no `break` leaves the loop, whatever its body does.
    refine beside_note (h.repeatWhile hs hc.1 hc.2.2 hl.2 n) ?_ ?_
    · rintro flow _ r m - hr ⟨rfl, -⟩
      have hbreak := (repeatWhile_allowed (Stmt.exec_allowed n hl.2) n _ _ _ hr).1
      exact ⟨trivial, by simpa [Event.KeepsFlow] using hbreak⟩
    · intros
      exact ⟨trivial, by simp [Event.KeepsFlow]⟩
  | «break» keyword =>
    simp only [Traced.exec, Stmt.exec]
    refine beside_silent (fun _ _ _ => ⟨trivial, trivial⟩) ?_
    exact .pure ⟨rfl, by simp⟩
  | function decl => exact execFunction hs hc hl
  | «return» keyword value =>
    cases value with
    | none =>
      simp only [Traced.exec, Stmt.exec]
      refine beside_silent (fun _ _ _ => ⟨trivial, trivial⟩) ?_
      refine .pure ⟨rfl, ?_⟩
      rintro _ ⟨⟩
      exact holds_nil
    | some value =>
      simp only [Traced.exec, Stmt.exec]
      refine beside_silent (fun _ _ _ => ⟨trivial, trivial⟩) ?_
      refine (h.eval hs (show value.Scoped far scopes none from hc)).bind ?_
      rintro v _ q - ⟨rfl, hv⟩
      refine .pure ⟨rfl, ?_⟩
      rintro _ ⟨⟩
      exact hv
  | «class» name superclass methods => exact h.execClass hs hc hl

/-! ### Calls -/

theorem closureCall (h : Agrees far n) {f : Function} {arguments : List Value}
    (hf : Callable far p.1.heap f.closure f.home) (ha : ∀ v ∈ arguments, p.1.Holds far v) :
    Beside p (Traced.callFunction (n + 1) f arguments) (f.closure.call (n + 1) arguments)
      (Same far) := by
  obtain ⟨⟨⟨name, params, body⟩, frame, isInitializer⟩, home⟩ := f
  obtain ⟨⟨c, context, hl, -, hi⟩, scopes, hs, ⟨hp, -, hb⟩⟩ := hf
  simp only [Traced.callFunction, Closure.call]
  refine (beside_newFrame frame fun x v hv => ha v (mem_of_find?_parameterBindings hv)).bind ?_
  rintro e _ q - ⟨rfl, he⟩
  -- No parameter hides the receiver or the superclass.
  have hparam {x : String} (hx : ¬ IsName x) : x ∉ (params.map (·.lexeme)).reverse := by
    intro hm
    obtain ⟨t, ht, rfl⟩ := List.mem_map.1 (List.mem_reverse.1 hm)
    exact hx (hp t ht)
  have hinside : Serves (enter q e).1.heap (enter q e).1.machine.frame
      ((params.map (·.lexeme)).reverse :: scopes) home :=
    .inside (hparam not_isName_this) (hparam not_isName_super)
      (he.enclosing (hs.lt p.2.sound.globals)) (he.leads.serves hs)
  have hrun : Beside q (withFrame e (Traced.runAll (Traced.exec n home) body))
      (Exec.withFrame e (Lox.runAll (Stmt.exec n) body)) (SameFlow far) :=
    beside_withFrame (h.runAll hinside hb hl.2) fun _ _ _ h => h
  refine (beside_note hrun ?_ ?_).bind ?_
  · rintro flow _ r m - hr ⟨rfl, -⟩
    obtain ⟨hbreak, hinit⟩ := FunDecl.body_allowed hl n e _ _ _ hr
    refine ⟨trivial, by simpa using hbreak, fun hi' flow' hflow => ?_⟩
    cases hflow
    exact hinit (hi hi')
  · intros
    exact ⟨trivial, by simp, by simp⟩
  rintro flow _ r - ⟨rfl, hflow⟩
  cases isInitializer with
  | true => exact beside_getAt (fun _ => frame) 0 "this"
  | false =>
    refine .pure ⟨rfl, ?_⟩
    cases flow with
    | «return» v => exact hflow v rfl
    | _ => exact holds_nil

theorem valueCall (h : Agrees far n) {v : Value} (paren : Token) {arguments : List Value}
    (hv : p.1.Holds far v) (ha : ∀ w ∈ arguments, p.1.Holds far w) :
    Beside p (Traced.call (n + 1) v paren arguments) (v.call (n + 1) paren arguments)
      (Same far) := by
  cases v with
  | native id =>
    simp only [Traced.call, Value.call]
    refine (beside_inspect _).bind ?_
    rintro _ _ q - ⟨-, rfl, rfl⟩
    exact beside_callNative paren _ ha
  | function f =>
    simp only [Traced.call, Value.call]
    refine (beside_function f).bind ?_
    rintro _ _ q - ⟨rfl, rfl, rfl⟩
    exact h.callFunction (hv.1 f rfl).2 ha
  | «class» c =>
    simp only [Traced.call, Value.call]
    refine (beside_newInstance c).bind ?_
    rintro o _ q hq rfl
    refine (beside_method? rfl).bind ?_
    rintro _ _ r - ⟨rfl, rfl, rfl⟩
    rcases hf : r.1.heap.findMethod? c initializerName with _ | f
    · simp only [State.method?, hf, Option.map_none]
      exact .pure ⟨rfl, holds_instance o⟩
    · simp only [State.method?, hf, Option.map_some]
      refine (beside_bindThis (r.2.sound.method_of_findMethod? hf).2 o).bind ?_
      rintro g _ u hu ⟨rfl, hg⟩
      refine (h.callFunction hg fun w hw => hu.holds (hq.holds (ha w hw))).bind ?_
      rintro _ _ w - -
      exact .pure ⟨rfl, holds_instance o⟩
  | _ => exact beside_fail paren _

end Agrees

/-- By induction on the fuel: a run that has none left stops, with a trace or without. -/
theorem agrees (far : NodeId → Option Nat → Prop) (n : Nat) : Agrees far n := by
  induction n with
  | zero =>
    exact
      { eval := fun _ _ => by
          rw [eval_zero, Expr.eval_zero]
          exact .throw rfl
        call := fun _ _ _ _ => by
          rw [call_zero, Value.call_zero]
          exact .throw rfl
        callFunction := fun _ _ => by
          rw [callFunction_zero, Closure.call_zero]
          exact .throw rfl
        exec := fun _ _ _ => by
          rw [exec_zero, Stmt.exec_zero]
          exact .throw rfl }
  | succ n ih =>
    exact
      { eval := ih.evalSucc
        call := ih.valueCall
        callFunction := ih.closureCall
        exec := ih.execSucc }

/-- A whole program: nothing is pending when a statement at the top ends. -/
theorem beside_interpret (fuel : Nat) {p : (runs far).Pair} {program : List Stmt}
    (hs : Serves p.1.heap p.1.machine.frame [] .outside) (hss : Stmt.ScopedAll far [] program)
    (hl : Stmt.LegalAll .top program) :
    Beside p (interpret fuel program) (Lox.interpret fuel program) fun _ _ _ => True := by
  induction program generalizing p with
  | nil => exact .pure trivial
  | cons s ss ih =>
    have hstmt : Beside p (do let _ ← note (.top s) (exec fuel .outside s)) (do let _ ← s.exec fuel)
        fun _ _ _ => True := by
      refine (beside_note ((agrees far fuel).exec hs hss.1 hl.1) ?_ ?_).bind ?_
      · rintro flow _ r m - hr ⟨rfl, -⟩
        refine ⟨trivial, fun flow' hf => ?_⟩
        cases hf
        exact Surroundings.normal_of_top (Stmt.exec_allowed fuel hl.1 _ _ _ hr)
      · intros
        exact ⟨trivial, by simp [Event.KeepsFlow]⟩
      · rintro _ _ q - -
        exact .pure trivial
    refine hstmt.bind ?_
    rintro _ _ q hq -
    exact ih (hq.serving hs) (s.declare_nil ▸ hss.2) hl.2

end Lox.Traced
