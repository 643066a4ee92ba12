import Lox.Proofs.HistoryRuns
import Lox.Proofs.TracedTrees

/-!
# Traced trees and what is kept of them

Any scoped tree runs from a log that is kept to one that is kept: one unit of fuel is peeled off
at a time. What the tree stands in matters at two places. An assignment finds its name in the
frame that its distance tells, and the initializer of a local variable runs while that variable is
owed its value.
-/

namespace Lox.Traced.History

variable {far : NodeId → Option Nat → Prop} {past : List Event}

/-- The frames from the current one outward cover the scopes around an expression, but for a
variable whose initializer it stands in. -/
structure Stands (owed : Owed) (m : Machine) (scopes : Scopes) (pending : Option String)
    (e : Expr) : Prop where
  covers : CoversBut m.heap m.frame scopes pending
  owes : Owes owed m.frame pending e

namespace Stands

variable {owed : Owed} {m m' : Machine} {scopes : Scopes} {pending : Option String} {e : Expr}

theorem of_covers (hc : Covers m.heap m.frame scopes) (e : Expr) : Stands owed m scopes none e :=
  ⟨.nothing hc, .none _ e⟩

theorem of_part (hs : Stands owed m scopes pending e) {inner : Expr} (hp : inner ∈ e.parts) :
    Stands owed m scopes pending inner :=
  ⟨hs.covers, hs.owes.part hp⟩

theorem evolve (hs : Stands owed m scopes pending e) (h : m.Evolves m') :
    Stands owed m' scopes pending e := by
  refine ⟨?_, ?_⟩
  · rw [h.frame_eq]
    exact hs.covers.grow h.grows
  · rw [h.frame_eq]
    exact hs.owes

end Stands

/-- The current frame goes on covering the scopes around it. -/
theorem covers_of_evolves {m m' : Machine} {scopes : Scopes} (h : m.Evolves m')
    (hc : Covers m.heap m.frame scopes) : Covers m'.heap m'.frame scopes := by
  rw [h.frame_eq]
  exact hc.grow h.grows

/-- The same flow, and a value that the store holds. -/
def SameFlow (far : NodeId → Option Nat → Prop) (flow flow' : Flow) (m : Machine) : Prop :=
  flow = flow' ∧ ∀ v, flow = .return v → m.heap.Holds far v

/-- So a statement ends, and the current frame binds what it declares. -/
def Done (far : NodeId → Option Nat → Prop) (s : Stmt) (flow flow' : Flow) (m : Machine) : Prop :=
  SameFlow far flow flow' m ∧
    ∀ name, s.declared? = some name → (m.heap.local? m.frame name.lexeme).isSome

/-- With this much fuel, whatever is scoped runs from one log that is kept to another. -/
structure Agrees (far : NodeId → Option Nat → Prop) (past : List Event) (n : Nat) : Prop where
  eval {owed : Owed} {p : (keeping far past owed).Pair} {scopes : Scopes} {pending : Option String}
    (home : Home) {e : Expr} : Stands owed p.1.machine scopes pending e →
    e.Scoped far scopes pending → Beside p (Traced.eval n home e) (e.eval n) (Same far)
  call {owed : Owed} {p : (keeping far past owed).Pair} {v : Value} (paren : Token)
    {arguments : List Value} : p.1.machine.heap.Holds far v →
    p.1.machine.heap.arity? v = some arguments.length →
    (∀ w ∈ arguments, p.1.machine.heap.Holds far w) →
    Beside p (Traced.call n v paren arguments) (v.call n paren arguments) (Same far)
  callFunction {owed : Owed} {p : (keeping far past owed).Pair} {f : Function}
    {arguments : List Value} : Enclosed far p.1.machine.heap f.closure →
    f.closure.decl.arity = arguments.length →
    (∀ w ∈ arguments, p.1.machine.heap.Holds far w) →
    Beside p (Traced.callFunction n f arguments) (f.closure.call n arguments) (Same far)
  exec {owed : Owed} {p : (keeping far past owed).Pair} {scopes : Scopes} (home : Home) {s : Stmt} :
    Covers p.1.machine.heap p.1.machine.frame scopes → s.Scoped far scopes →
    Beside p (Traced.exec n home s) (s.exec n) (Done far s)

/-- A call that gives as many arguments as there are parameters binds each of these. -/
theorem isSome_parameterBindings {params : List Token} {arguments : List Value}
    (h : params.length = arguments.length) {x : String}
    (hx : x ∈ (params.map (·.lexeme)).reverse) :
    ((parameterBindings params arguments).find? x).isSome := by
  rw [Lexical.Agrees.parameterBindings_eq, Lexical.find?_bindingsOf, Lexical.isSome_lookup,
    List.map_reverse, List.map_fst_zip (by simp [h])]
  exact hx

/-- The next statement stands in a scope where this one has declared its name. -/
theorem Done.covers {s : Stmt} {flow flow' : Flow} {m : Machine} (hd : Done far s flow flow' m)
    {scopes : Scopes} (hc : Covers m.heap m.frame scopes) :
    Covers m.heap m.frame (s.declare scopes) := by
  unfold Stmt.declare
  split
  · next name hn => exact hc.declare (hd.2 name hn)
  · exact hc

/-- A statement that declares nothing. -/
theorem SameFlow.done {s : Stmt} {flow flow' : Flow} {m : Machine} (h : SameFlow far flow flow' m)
    (hs : s.declared? = none) : Done far s flow flow' m :=
  ⟨h, fun name hn => by rw [hs] at hn; cases hn⟩

theorem sameFlow_normal (m : Machine) : SameFlow far .normal .normal m := ⟨rfl, by simp⟩

namespace Agrees

variable {n : Nat} {owed : Owed} {p : (keeping far past owed).Pair} {scopes : Scopes}
  {pending : Option String}

/-! ### Expressions -/

theorem evalAll (h : Agrees far past n) (home : Home) {es : List Expr}
    (hs : ∀ e ∈ es, Stands owed p.1.machine scopes pending e)
    (he : Expr.ScopedAll far scopes pending es) :
    Beside p (es.mapM (Traced.eval n home)) (es.mapM (Expr.eval n)) fun vs ws m =>
      vs = ws ∧ ∀ v ∈ vs, m.heap.Holds far v := by
  induction es generalizing p with
  | nil => exact .pure ⟨rfl, by simp⟩
  | cons e es ih =>
    rw [List.mapM_cons, List.mapM_cons]
    refine (h.eval home (hs e List.mem_cons_self) he.1).bind ?_
    rintro v _ q hq ⟨rfl, hv⟩
    refine (ih (fun e hm => (hs e (List.mem_cons_of_mem _ hm)).evolve hq) he.2).bind ?_
    rintro vs _ r hr ⟨rfl, hvs⟩
    refine .pure ⟨rfl, ?_⟩
    intro w hw
    rcases List.mem_cons.1 hw with rfl | hw
    · exact hv.grow hr.grows
    · exact hvs w hw

theorem evalCall (h : Agrees far past n) (home : Home) {callee : Expr} (paren : Token)
    {arguments : List Expr}
    (hs : Stands owed p.1.machine scopes pending (.call callee paren arguments))
    (he : (Expr.call callee paren arguments).Scoped far scopes pending) :
    Beside p (Traced.eval (n + 1) home (.call callee paren arguments))
      ((Expr.call callee paren arguments).eval (n + 1)) (Same far) := by
  simp only [Traced.eval, Expr.eval]
  refine beside_eval home (by trivial) ?_
  refine (h.eval home (hs.of_part List.mem_cons_self) he.1).bind ?_
  rintro f _ q hq ⟨rfl, hf⟩
  refine (h.evalAll home (fun e hm => (hs.of_part (List.mem_cons_of_mem _ hm)).evolve hq)
    he.2).bind ?_
  rintro vs _ r hr ⟨rfl, hvs⟩
  refine (beside_inspect _).bind ?_
  rintro _ arity r - ⟨ha, rfl, rfl⟩
  cases arity with
  | none => exact beside_fail paren _
  | some arity =>
    by_cases hn : vs.length = arity
    · simp only [hn, if_true]
      exact h.call paren (hf.grow hr.grows) (by rw [← ha, hn]) hvs
    · simp only [hn, if_false]
      exact beside_fail paren _

/-- What sets a field takes its last step when the instance and the value are there. -/
theorem evalSet (h : Agrees far past n) (home : Home) {object : Expr} (name : Token) {value : Expr}
    (hs : Stands owed p.1.machine scopes pending (.set object name value))
    (he : (Expr.set object name value).Scoped far scopes pending) :
    Beside p (Traced.eval (n + 1) home (.set object name value))
      ((Expr.set object name value).eval (n + 1)) (Same far) := by
  have hspan := spans_eval home (.set object name value)
  have herror : ∀ stop (u : State), Fits owed owed u.machine u.machine
      (.eval home (.set object name value) p.1.toState (.error stop) u) := fun stop u =>
    { assigns := trivial
      owes := fun _ _ _ => .inl
      sets := fun hs => by simp at hs
      others := fun _ => rfl
      reads := fun hr => by simp at hr }
  have hp : (keeping far past owed).Leads p p := .refl _
  simp only [Traced.eval, Expr.eval]
  refine beside_noteSince hspan hp
    (h.eval home (hs.of_part (by simp [Expr.parts])) he.1) ?_ herror
  rintro v _ q hq hobject ⟨rfl, ho⟩
  cases v with
  | «instance» o =>
    refine beside_noteSince hspan hq
      (h.eval home ((hs.of_part (by simp [Expr.parts])).evolve hq) he.2) ?_ herror
    rintro w _ r hr - ⟨rfl, hw⟩
    exact beside_setField (hq.trans hr) home hobject (ho.grow hr.grows) hw
  | _ => exact beside_noteSince_fail hspan hq name _ herror

theorem evalSucc (h : Agrees far past n) (home : Home) {e : Expr}
    (hs : Stands owed p.1.machine scopes pending e) (he : e.Scoped far scopes pending) :
    Beside p (Traced.eval (n + 1) home e) (e.eval (n + 1)) (Same far) := by
  cases e with
  | literal value =>
    simp only [Traced.eval, Expr.eval]
    refine beside_eval home (by trivial) ?_
    exact .pure ⟨rfl, holds_ofLiteral value _⟩
  | grouping inner =>
    simp only [Traced.eval, Expr.eval]
    exact beside_eval home (by trivial)
      (h.eval home (hs.of_part (by simp [Expr.parts])) he)
  | unary operator right =>
    simp only [Traced.eval, Expr.eval]
    refine beside_eval home (by trivial) ?_
    refine (h.eval (e := right) home (hs.of_part (by simp [Expr.parts])) he).bind ?_
    rintro v _ q - ⟨rfl, -⟩
    exact beside_ofResult operator simple_unaryResult
  | binary left operator right =>
    simp only [Traced.eval, Expr.eval]
    refine beside_eval home (by trivial) ?_
    refine (h.eval home (hs.of_part (by simp [Expr.parts])) he.1).bind ?_
    rintro v _ q hq ⟨rfl, -⟩
    refine (h.eval home ((hs.of_part (by simp [Expr.parts])).evolve hq) he.2).bind ?_
    rintro w _ r - ⟨rfl, -⟩
    exact beside_ofResult operator simple_binaryResult
  | logical left operator right =>
    simp only [Traced.eval, Expr.eval]
    refine beside_eval home (by trivial) ?_
    refine (h.eval home (hs.of_part (by simp [Expr.parts])) he.1).bind ?_
    rintro v _ q hq ⟨rfl, hv⟩
    by_cases hc : shortCircuits operator.kind v = true
    · simp only [hc, if_true]
      exact .pure ⟨rfl, hv⟩
    · simp only [hc]
      exact h.eval home ((hs.of_part (by simp [Expr.parts])).evolve hq) he.2
  | «variable» id name =>
    simp only [Traced.eval, Expr.eval]
    exact beside_eval home (by trivial) (beside_read id name)
  | assign id name value =>
    have hfits {result : Except Stop Value} {u : State}
        (hu : (Expr.assign id name value).eval (n + 1) p.1.machine = ended result u.machine) :
        Fits owed owed u.machine u.machine
          (.eval home (.assign id name value) p.1.toState result u) :=
      fits_assign p.2.sound hs.covers hs.owes he.2.1 hu
    simp only [Traced.eval, Expr.eval] at hfits ⊢
    refine beside_note (spans_eval _ _) (fun _ _ _ h => h) ?_
      (fun hr hv => hfits (hv.1 ▸ hr)) fun hr => hfits hr
    refine (h.eval home (hs.of_part (by simp [Expr.parts])) he.1).bind ?_
    rintro v _ q hq ⟨rfl, hv⟩
    refine (beside_assign id name hv).bind ?_
    rintro _ _ r hr -
    exact .pure ⟨rfl, hv.grow hr.grows⟩
  | call callee paren arguments => exact h.evalCall home paren hs he
  | get object name =>
    have hfits {result : Except Stop Value} {u : State}
        (hu : (Expr.get object name).eval (n + 1) p.1.machine = ended result u.machine) :
        Fits owed owed u.machine u.machine (.eval home (.get object name) p.1.toState result u) :=
      fits_get hu
    simp only [Traced.eval, Expr.eval] at hfits ⊢
    refine beside_note (spans_eval _ _) (fun _ _ _ h => h) ?_
      (fun hr hv => hfits (hv.1 ▸ hr)) fun hr => hfits hr
    refine (h.eval (e := object) home (hs.of_part (by simp [Expr.parts])) he).bind ?_
    rintro v _ q - ⟨rfl, hv⟩
    cases v with
    | «instance» o => exact beside_getProperty hv name
    | _ => exact beside_fail name _
  | set object name value => exact h.evalSet home name hs he
  | this id keyword =>
    simp only [Traced.eval, Expr.eval]
    exact beside_eval home (by trivial) (beside_read id keyword)
  | super id keyword method =>
    simp only [Traced.eval, Expr.eval]
    exact beside_eval home (by trivial)
      (beside_getSuper id keyword method)

/-! ### Statements -/

theorem runAll (h : Agrees far past n) (home : Home) {ss : List Stmt}
    (hc : Covers p.1.machine.heap p.1.machine.frame scopes) (hss : Stmt.ScopedAll far scopes ss) :
    Beside p (Traced.runAll (Traced.exec n home) ss) (Lox.runAll (Stmt.exec n) ss)
      (SameFlow far) := by
  induction ss generalizing p scopes with
  | nil => exact .pure (sameFlow_normal _)
  | cons s ss ih =>
    refine (h.exec home hc hss.1).bind ?_
    rintro flow _ q hq hd
    obtain ⟨rfl, hv⟩ := hd.1
    cases flow with
    | normal => exact ih (hd.covers (covers_of_evolves hq hc)) hss.2
    | «break» => exact .pure ⟨rfl, hv⟩
    | «return» v => exact .pure ⟨rfl, hv⟩

theorem repeatWhile (h : Agrees far past n) (home : Home) {condition : Expr} {body : Stmt}
    (hc : Covers p.1.machine.heap p.1.machine.frame scopes)
    (hcondition : condition.Scoped far scopes none) (hb : body.Scoped far scopes) (rounds : Nat) :
    Beside p (Traced.repeatWhile (Traced.eval n home condition) (Traced.exec n home body) rounds)
      (Lox.repeatWhile (condition.eval n) (body.exec n) rounds) (SameFlow far) := by
  induction rounds generalizing p with
  | zero => exact .throw rfl
  | succ rounds ih =>
    refine (h.eval home (.of_covers hc condition) hcondition).bind ?_
    rintro v _ q hq ⟨rfl, -⟩
    by_cases hv : v.isTruthy = true
    · simp only [hv, if_true]
      refine (h.exec home (covers_of_evolves hq hc) hb).bind ?_
      rintro flow _ r hr ⟨⟨rfl, hf⟩, -⟩
      cases flow with
      | normal => exact ih (covers_of_evolves hr (covers_of_evolves hq hc))
      | «break» => exact .pure (sameFlow_normal _)
      | «return» v => exact .pure ⟨rfl, hf⟩
    · simp only [hv]
      exact .pure (sameFlow_normal _)

theorem superclassOf (h : Agrees far past n) (home : Home) (name : Token)
    {superclass : Option Expr} (hc : Covers p.1.machine.heap p.1.machine.frame scopes)
    (he : Expr.ScopedOption far scopes none superclass) :
    Beside p (Traced.superclassOf (Traced.eval n home) name superclass)
      (Lox.superclassOf (Expr.eval n) name superclass) fun a b m =>
        a = b ∧ a.isSome = superclass.isSome ∧ ∀ c, a = some c → m.heap.Holds far (.class c) := by
  cases superclass with
  | none => exact .pure ⟨rfl, rfl, by simp⟩
  | some e =>
    refine (h.eval (e := e) home (.of_covers hc e) he).bind ?_
    rintro v _ q - ⟨rfl, hv⟩
    cases v with
    | «class» c =>
      refine .pure ⟨rfl, rfl, ?_⟩
      rintro _ ⟨⟩
      exact hv
    | _ => exact .of_error rfl rfl rfl

theorem execClass (h : Agrees far past n) (home : Home) {name : Token} {superclass : Option Expr}
    {methods : List FunDecl} (hc : Covers p.1.machine.heap p.1.machine.frame scopes)
    (hs : (Stmt.class name superclass methods).Scoped far scopes) :
    Beside p (Traced.exec (n + 1) home (.class name superclass methods))
      ((Stmt.class name superclass methods).exec (n + 1))
      (Done far (.class name superclass methods)) := by
  obtain ⟨-, -, hsuper, hm⟩ := hs
  simp only [Traced.exec, Stmt.exec]
  refine beside_exec home _ ?_
  refine (h.superclassOf home name hc hsuper).bind ?_
  rintro parent _ q hq ⟨rfl, hp, hparent⟩
  refine (beside_define (covers_of_evolves hq hc) (Heap.holds_nil _)).bind ?_
  rintro _ _ r hr hname
  refine beside_currentFrame.bind ?_
  rintro _ _ r - ⟨rfl, rfl, rfl⟩
  have hinside : Covers r.1.machine.heap r.1.machine.frame (scopes.declare name.lexeme) :=
    (covers_of_evolves (hq.trans hr) hc).declare hname
  refine (beside_methodFrame superclass hp (fun k hk => (hparent k hk).grow hr.grows)
    hinside).bind ?_
  rintro e _ u hu ⟨rfl, he⟩
  refine (beside_newClass name.lexeme (fun k hk => ((hparent k hk).grow hr.grows).grow hu.grows) he
    hm).bind ?_
  rintro v _ w hw ⟨rfl, hv⟩
  refine (beside_assignFrom _ name hv).bind ?_
  rintro _ _ x hx -
  refine .pure ⟨sameFlow_normal _, ?_⟩
  rintro _ ⟨⟩
  have hrest := (hu.trans hw).trans hx
  rw [hrest.frame_eq]
  exact hrest.grows.names _ _ hname

/-- The initializer of a variable runs while the variable is owed its value. -/
theorem execVar (h : Agrees far past n) (home : Home) {name : Token} {value : Expr}
    (hc : Covers p.1.machine.heap p.1.machine.frame scopes)
    (hv : value.Scoped far (scopes.declare name.lexeme) (scopes.pending name.lexeme)) :
    Beside p (Traced.exec (n + 1) home (.var name (some value)))
      ((Stmt.var name (some value)).exec (n + 1)) (Done far (.var name (some value))) := by
  have hstands : Stands (owed.declaring name value p.1.machine.frame) p.1.machine
      (scopes.declare name.lexeme) (scopes.pending name.lexeme) value := by
    refine ⟨.initializer hc name.lexeme, fun x hx part hi => .inr ⟨?_, rfl, hi⟩⟩
    cases scopes with
    | nil => cases hx
    | cons names outer => exact Option.some.inj hx
  simp only [Traced.exec, Stmt.exec]
  refine beside_note (spans_exec _ _) (by exact fun _ _ _ => .inl) ?_
    (fun _ _ => fits_var) fun _ => fits_var
  refine (h.eval home hstands hv).bind ?_
  rintro v _ q hq ⟨rfl, hv⟩
  refine (beside_define (covers_of_evolves hq hc) (hv.grow (Heap.grows_define _ _ _))).bind ?_
  rintro _ _ r - hname
  refine .pure ⟨sameFlow_normal _, ?_⟩
  rintro _ ⟨⟩
  exact hname

theorem execBlock (h : Agrees far past n) (home : Home) {body : List Stmt}
    (hc : Covers p.1.machine.heap p.1.machine.frame scopes)
    (hs : (Stmt.block body).Scoped far scopes) :
    Beside p (Traced.exec (n + 1) home (.block body)) ((Stmt.block body).exec (n + 1))
      (Done far (.block body)) := by
  simp only [Traced.exec, Stmt.exec]
  refine beside_exec home _ ?_
  refine beside_currentFrame.bind ?_
  rintro _ _ q - ⟨rfl, rfl, rfl⟩
  have hframe : Beside q (lift (Exec.newFrame q.1.machine.frame .empty))
      (Exec.newFrame q.1.machine.frame .empty) fun e e' m =>
        e = e' ∧ Covers m.heap e ([] :: scopes) :=
    beside_newFrame hc (by simp) fun x v hv => by simp [Bindings.find?_empty] at hv
  refine hframe.bind ?_
  rintro e _ r - ⟨rfl, he⟩
  exact beside_withFrame (h.runAll (p := enter r e) home he hs) fun _ _ _ hf =>
    ⟨hf, by simp [Stmt.declared?]⟩

theorem execIf (h : Agrees far past n) (home : Home) {condition : Expr} {thenBranch : Stmt}
    {elseBranch : Option Stmt} (hc : Covers p.1.machine.heap p.1.machine.frame scopes)
    (hs : (Stmt.if condition thenBranch elseBranch).Scoped far scopes) :
    Beside p (Traced.exec (n + 1) home (.if condition thenBranch elseBranch))
      ((Stmt.if condition thenBranch elseBranch).exec (n + 1))
      (Done far (.if condition thenBranch elseBranch)) := by
  have hcondition : condition.Scoped far scopes none := by
    cases elseBranch <;> exact hs.1
  have hthen : thenBranch.Scoped far scopes := by
    cases elseBranch with
    | none => exact hs.2.2
    | some _ => exact hs.2.1.2
  simp only [Traced.exec, Stmt.exec]
  refine beside_exec home _ ?_
  refine (h.eval home (.of_covers hc condition) hcondition).bind ?_
  rintro v _ q hq ⟨rfl, -⟩
  have hq' := covers_of_evolves hq hc
  by_cases hv : v.isTruthy = true
  · simp only [hv, if_true]
    exact (h.exec home hq' hthen).imp fun _ _ _ _ hd => hd.1.done rfl
  · simp only [hv]
    cases elseBranch with
    | none => exact .pure ((sameFlow_normal _).done rfl)
    | some elseBranch =>
      exact (h.exec home hq' hs.2.2.2).imp fun _ _ _ _ hd => hd.1.done rfl

theorem execFunction (home : Home) {decl : FunDecl}
    (hc : Covers p.1.machine.heap p.1.machine.frame scopes)
    (hs : (Stmt.function decl).Scoped far scopes) :
    Beside p (Traced.exec (n + 1) home (.function decl)) ((Stmt.function decl).exec (n + 1))
      (Done far (.function decl)) := by
  obtain ⟨-, -, hd⟩ := hs
  simp only [Traced.exec, Stmt.exec]
  refine beside_exec home _ ?_
  refine beside_currentFrame.bind ?_
  rintro _ _ q - ⟨rfl, rfl, rfl⟩
  refine (beside_newClosure (f := ⟨⟨decl, q.1.machine.frame, false⟩, home⟩) hc).bind ?_
  rintro v _ r hr ⟨rfl, hv⟩
  have hr' := covers_of_evolves hr hc
  -- The closure is held once the frame that it stands in binds its name.
  have hv : (r.1.machine.heap.define r.1.machine.frame decl.name.lexeme v).Holds far v := by
    refine hv.holds (Heap.grows_define _ _ _) ⟨scopes.declare decl.name.lexeme, ?_, hd⟩
    rw [← hr.frame_eq]
    exact hr'.define r.2.sound.heap.ordered _ _
  refine (beside_define hr' hv).bind ?_
  rintro _ _ u - hname
  refine .pure ⟨sameFlow_normal _, ?_⟩
  rintro _ ⟨⟩
  exact hname

theorem execSucc (h : Agrees far past n) (home : Home) {s : Stmt}
    (hc : Covers p.1.machine.heap p.1.machine.frame scopes) (hs : s.Scoped far scopes) :
    Beside p (Traced.exec (n + 1) home s) (s.exec (n + 1)) (Done far s) := by
  cases s with
  | expression value =>
    simp only [Traced.exec, Stmt.exec]
    refine beside_exec home _ ?_
    refine (h.eval (e := value) home (.of_covers hc value) hs).bind ?_
    rintro _ _ q - -
    exact .pure ((sameFlow_normal _).done rfl)
  | print value =>
    simp only [Traced.exec, Stmt.exec]
    refine beside_exec home _ ?_
    refine (h.eval (e := value) home (.of_covers hc value) hs).bind ?_
    rintro v _ q - ⟨rfl, -⟩
    refine (beside_inspect _).bind ?_
    rintro _ line q - ⟨-, rfl, rfl⟩
    refine (beside_print _).bind ?_
    rintro _ _ r - -
    exact .pure ((sameFlow_normal _).done rfl)
  | var name value =>
    cases value with
    | none =>
      simp only [Traced.exec, Stmt.exec]
      refine beside_exec home _ ?_
      refine (beside_define hc (Heap.holds_nil _)).bind ?_
      rintro _ _ q - hname
      refine .pure ⟨sameFlow_normal _, ?_⟩
      rintro _ ⟨⟩
      exact hname
    | some value => exact h.execVar home hc hs.2.2
  | block body => exact h.execBlock home hc hs
  | «if» condition thenBranch elseBranch => exact h.execIf home hc hs
  | «while» condition body =>
    simp only [Traced.exec, Stmt.exec]
    refine beside_exec home _ ?_
    exact (h.repeatWhile home hc hs.1 hs.2.2 n).imp fun _ _ _ _ hf => hf.done rfl
  | «break» keyword =>
    simp only [Traced.exec, Stmt.exec]
    refine beside_exec home _ ?_
    exact .pure (SameFlow.done ⟨rfl, by simp⟩ rfl)
  | function decl => exact execFunction home hc hs
  | «return» keyword value =>
    cases value with
    | none =>
      simp only [Traced.exec, Stmt.exec]
      refine beside_exec home _ ?_
      refine .pure (SameFlow.done ⟨rfl, ?_⟩ rfl)
      rintro _ ⟨⟩
      exact trivial
    | some value =>
      simp only [Traced.exec, Stmt.exec]
      refine beside_exec home _ ?_
      refine (h.eval home (.of_covers hc value) (show value.Scoped far scopes none from hs)).bind ?_
      rintro v _ q - ⟨rfl, hv⟩
      refine .pure (SameFlow.done ⟨rfl, ?_⟩ rfl)
      rintro _ ⟨⟩
      exact hv
  | «class» name superclass methods => exact h.execClass home hc hs

/-! ### Calls -/

theorem closureCall (h : Agrees far past n) {f : Function} {arguments : List Value}
    (hf : Enclosed far p.1.machine.heap f.closure)
    (hn : f.closure.decl.arity = arguments.length)
    (ha : ∀ v ∈ arguments, p.1.machine.heap.Holds far v) :
    Beside p (Traced.callFunction (n + 1) f arguments) (f.closure.call (n + 1) arguments)
      (Same far) := by
  obtain ⟨⟨⟨name, params, body⟩, frame, isInitializer⟩, home⟩ := f
  obtain ⟨scopes, hc, ⟨-, -, hb⟩⟩ := hf
  simp only [Traced.callFunction, Closure.call]
  refine (beside_newFrame hc (fun x hx => isSome_parameterBindings hn hx)
    fun x v hv => ha v (mem_of_find?_parameterBindings hv)).bind ?_
  rintro e _ q - ⟨rfl, he⟩
  have hrun : Beside q (withFrame e (Traced.runAll (Traced.exec n home) body))
      (Exec.withFrame e (Lox.runAll (Stmt.exec n) body)) (SameFlow far) :=
    beside_withFrame (h.runAll (p := enter q e) home he hb) fun _ _ _ h => h
  refine (beside_plain (fun _ _ _ => ⟨rfl, rfl⟩) (by exact fun _ _ _ => trivial) hrun).bind ?_
  rintro flow _ r - ⟨rfl, hflow⟩
  cases isInitializer with
  | true => exact beside_getAt (fun _ => frame) 0 "this"
  | false =>
    refine .pure ⟨rfl, ?_⟩
    cases flow with
    | «return» v => exact hflow v rfl
    | _ => exact trivial

theorem valueCall (h : Agrees far past n) {v : Value} (paren : Token) {arguments : List Value}
    (hv : p.1.machine.heap.Holds far v)
    (hn : p.1.machine.heap.arity? v = some arguments.length)
    (ha : ∀ w ∈ arguments, p.1.machine.heap.Holds far w) :
    Beside p (Traced.call (n + 1) v paren arguments) (v.call (n + 1) paren arguments)
      (Same far) := by
  cases v with
  | native id =>
    simp only [Traced.call, Value.call]
    refine (beside_inspect _).bind ?_
    rintro _ _ q - ⟨-, rfl, rfl⟩
    exact beside_callNative paren _ ha
  | function f =>
    simp only [Traced.call, Value.call]
    refine (beside_function f).bind ?_
    rintro g _ q - ⟨hg, rfl, rfl⟩
    refine h.callFunction ?_ ?_ ha
    · rw [hg]
      exact hv.2
    · rw [hg]
      exact Option.some.inj hn
  | «class» c =>
    simp only [Traced.call, Value.call]
    refine (beside_newInstance c).bind ?_
    rintro o _ q hq ⟨rfl, ho, hclasses, hclosures⟩
    refine (beside_method? rfl).bind ?_
    rintro f _ r - ⟨rfl, hf, rfl, hwaiting⟩
    cases f with
    | none => exact .pure ⟨rfl, ho⟩
    | some f =>
      have harity : f.closure.decl.arity = arguments.length := by
        rw [Heap.method?_congr hclasses hclosures] at hf
        simpa [Heap.arity?, Heap.classArity, ← hf] using hn
      refine (beside_bindThis (hwaiting f rfl) ho).bind ?_
      rintro g _ u hu ⟨rfl, hdecl, hg⟩
      refine (h.callFunction hg (hdecl ▸ harity)
        fun w hw => ((ha w hw).grow hq.grows).grow hu.grows).bind ?_
      rintro _ _ w hw -
      exact .pure ⟨rfl, (ho.grow hu.grows).grow hw.grows⟩
  | _ => exact beside_fail paren _

end Agrees

/-- By induction on the fuel: a run that has none left stops. -/
theorem agrees (far : NodeId → Option Nat → Prop) (past : List Event) (n : Nat) :
    Agrees far past n := by
  induction n with
  | zero =>
    exact
      { eval := fun _ _ _ _ => by
          rw [eval_zero, Expr.eval_zero]
          exact .throw rfl
        call := fun _ _ _ _ _ => by
          rw [call_zero, Value.call_zero]
          exact .throw rfl
        callFunction := fun _ _ _ => by
          rw [callFunction_zero, Closure.call_zero]
          exact .throw rfl
        exec := fun _ _ _ _ => by
          rw [exec_zero, Stmt.exec_zero]
          exact .throw rfl }
  | succ n ih =>
    exact
      { eval := ih.evalSucc
        call := ih.valueCall
        callFunction := ih.closureCall
        exec := ih.execSucc }

/-- A whole program. -/
theorem beside_interpret (fuel : Nat) {owed : Owed} {p : (keeping far past owed).Pair}
    {program : List Stmt} (hc : Covers p.1.machine.heap p.1.machine.frame [])
    (hss : Stmt.ScopedAll far [] program) :
    Beside p (interpret fuel program) (Lox.interpret fuel program) fun _ _ _ => True := by
  induction program generalizing p with
  | nil => exact .pure trivial
  | cons s ss ih =>
    have hstmt : Beside p (do let _ ← note (.top s) (exec fuel .outside s)) (do let _ ← s.exec fuel)
        fun _ _ _ => True := by
      refine (beside_plain (fun _ _ _ => ⟨rfl, rfl⟩) (by exact fun _ _ _ => trivial)
        ((agrees far past fuel).exec .outside hc hss.1)).bind ?_
      rintro _ _ q - -
      exact .pure trivial
    refine hstmt.bind ?_
    rintro _ _ q hq -
    exact ih (covers_of_evolves hq hc) (s.declare_nil ▸ hss.2)

end Lox.Traced.History
