import Lox.Proofs.StatementRuns

/-!
# Agreement

A scoped tree runs alike in twins. One unit of fuel is peeled off at a time: each kind of expression
and statement is shown to agree when all of its parts do with one unit less, and so does every call,
whose closure carries with it that its body is scoped.
-/

namespace Lox.Lexical

open Twin (Leads)

/-- The same flow, and a scope in which the next statement finds what this one has declared. -/
def Ends (scopes : Scopes) (flow : Flow) (out : Flow × Scope) (t : SoundTwin) : Prop :=
  SameFlow flow out.1 t ∧ (flow = .normal → At t.1 scopes out.2)

/-- With this much fuel, whatever is scoped runs alike in twins. -/
structure Agrees (n : Nat) : Prop where
  eval {t : SoundTwin} {scopes : Scopes} {pending : Option String} {locals : Locals} {e : Expr} :
    Place t.1 scopes pending locals → e.Scoped t.1.far scopes pending →
    (twins false).Runs t (e.eval n) (eval n locals e) Same
  call {t : SoundTwin} {v : Value} (paren : Token) {arguments : List Value} :
    t.1.heap.arity? v = some arguments.length → t.1.Holds v → (∀ w ∈ arguments, t.1.Holds w) →
    (twins false).Runs t (v.call n paren arguments) (call n v paren arguments) Same
  callFunction {t : SoundTwin} {f : Closure} {locals : Locals} {arguments : List Value} :
    f.decl.arity = arguments.length → t.1.Callable f locals → (∀ w ∈ arguments, t.1.Holds w) →
    (twins false).Runs t (f.call n arguments) (callFunction n (.of f locals) arguments) Same
  exec {t : SoundTwin} {scopes : Scopes} {scope : Scope} {s : Stmt} :
    At t.1 scopes scope → s.Scoped t.1.far scopes →
    (twins s.declared?.isSome).Runs t (s.exec n) (exec n scope s) (Ends (s.declare scopes))

namespace Agrees

variable {n : Nat} {t : SoundTwin}

theorem runAll (h : Agrees n) {ss : List Stmt} {scopes : Scopes} {scope : Scope}
    (ha : At t.1 scopes scope) (hs : Stmt.ScopedAll t.1.far scopes ss) :
    (twins true).Runs t (Lox.runAll (Stmt.exec n) ss) (Lexical.runAll (Lexical.exec n) scope ss)
      SameFlow := by
  induction ss generalizing t scopes scope with
  | nil => exact .pure ⟨rfl, by simp⟩
  | cons s ss ih =>
    refine (Runs.loud (h.exec ha hs.1)).bind ?_
    rintro flow ⟨flow', scope'⟩ u hu ⟨⟨rfl, hv⟩, hat⟩
    cases flow with
    | normal => exact ih (hat rfl) (hu.far ▸ hs.2)
    | «break» => exact .pure ⟨rfl, hv⟩
    | «return» v => exact .pure ⟨rfl, hv⟩

theorem repeatWhile (h : Agrees n) {condition : Expr} {body : Stmt} {scopes : Scopes}
    {scope : Scope} (ha : At t.1 scopes scope) (hc : condition.Scoped t.1.far scopes none)
    (hb : body.Scoped t.1.far scopes) (hd : body.declared? = none) (rounds : Nat) :
    (twins false).Runs t (Lox.repeatWhile (condition.eval n) (body.exec n) rounds)
      (Lexical.repeatWhile (Lexical.eval n scope.locals condition)
        (do
          let (flow, _) ← Lexical.exec n scope body
          return flow) rounds)
      fun flow flow' u => SameFlow flow flow' u ∧ flow ≠ .break := by
  induction rounds generalizing t with
  | zero => exact .throw ⟨rfl, rfl⟩
  | succ rounds ih =>
    refine (h.eval ha.place hc).bind ?_
    rintro v _ u hu ⟨rfl, -⟩
    have hau := ha.after hu
    by_cases hv : v.isTruthy = true
    · simp only [hv, if_true]
      have hexec := h.exec hau (hu.far ▸ hb)
      rw [hd] at hexec
      have hround : (twins false).Runs u (body.exec n)
          (do
            let (flow, _) ← Lexical.exec n scope body
            return flow) SameFlow :=
        Pairing.RunsFrom.mapRight Prod.fst hexec (fun _ => rfl) fun _ _ _ _ h => h.1
      refine hround.bind ?_
      rintro flow _ w hw ⟨rfl, hf⟩
      cases flow with
      | normal => exact ih (hau.after hw) (hu.trans hw |>.far ▸ hc) (hu.trans hw |>.far ▸ hb)
      | «break» => exact .pure ⟨⟨rfl, by simp⟩, by simp⟩
      | «return» v => exact .pure ⟨⟨rfl, hf⟩, by simp⟩
    · simp only [hv]
      exact .pure ⟨⟨rfl, by simp⟩, by simp⟩

/-! ### Calls -/

theorem parameterBindings_eq (params : List Token) (arguments : List Value) :
    parameterBindings params arguments =
      bindingsOf ((params.map (·.lexeme)).zip arguments) := by
  rw [parameterBindings, bindingsOf, List.zip_map_left, List.foldl_map]
  rfl

/-- The new frame of a call stands for the list of its parameters, and the body is scoped there. -/
theorem runs_activation {f : Closure} {scopes : Scopes} {locals : Locals} {arguments : List Value}
    (ha : f.decl.arity = arguments.length) (hs : Stands t.1.heap t.1.world f.frame scopes locals)
    (hd : f.decl.Scoped t.1.far scopes) (hv : ∀ w ∈ arguments, t.1.Holds w) :
    (twins false).Runs t (Exec.newFrame f.frame (parameterBindings f.decl.params arguments))
      (bindAll ((f.decl.params.map (·.lexeme)).zip arguments) locals) fun e inner u =>
        e = ⟨t.1.heap.frames.size⟩ ∧ ∃ names,
          At (u.1.enter e) (names :: scopes) (.inside inner) ∧
            Stmt.ScopedAll u.1.far (names :: scopes) f.decl.body := by
  obtain ⟨⟨name, params, body⟩, frame, isInitializer⟩ := f
  obtain ⟨hp, hn, hb⟩ := hd
  have hlen : params.length = arguments.length := ha
  have hfst : ((params.map (·.lexeme)).zip arguments).map Prod.fst = params.map (·.lexeme) :=
    List.map_fst_zip (by simp [hlen])
  have hname : ∀ {x v}, (x, v) ∈ (params.map (·.lexeme)).zip arguments → IsName x := by
    intro x v hx
    obtain ⟨p, hp', rfl⟩ := List.mem_map.1 (List.of_mem_zip hx).1
    exact hp p hp'
  rw [parameterBindings_eq]
  refine (runs_newFrame (t := t) locals _ (by rwa [hfst]) (hs.lt t.2.globals)
    (fun x v hx => hv v (List.of_mem_zip hx).2) (fun v hx => absurd rfl (hname hx).1)
    (fun v hx => absurd rfl (hname hx).2)).imp ?_
  rintro e inner u hu ⟨he, hl, henter⟩
  rw [hfst] at hl henter
  refine ⟨he, _, .of_stands rfl (henter scopes hs) (by rw [List.length_reverse]; exact hl), ?_⟩
  rw [hu.far]
  exact hb

/-- The new frame of a block stands for the list around it, and the block is scoped there. -/
theorem runs_blockFrame {body : List Stmt} {scopes : Scopes} {scope : Scope}
    (ha : At t.1 scopes scope) (hs : Stmt.ScopedAll t.1.far ([] :: scopes) body) :
    (twins false).Runs t (Exec.newFrame t.1.machine.frame .empty) (bindAll [] scope.locals)
      fun e inner u => e = ⟨t.1.heap.frames.size⟩ ∧
        At (u.1.enter e) ([] :: scopes) (.inside inner) ∧
          Stmt.ScopedAll u.1.far ([] :: scopes) body := by
  refine (runs_newFrame (t := t) scope.locals [] (by simp) (ha.stands.lt t.2.globals) (by simp)
    (by simp) (by simp)).imp ?_
  rintro e inner u hu ⟨he, hl, henter⟩
  exact ⟨he, .of_stands rfl (henter scopes ha.stands) hl, hu.far ▸ hs⟩

theorem closureCall (h : Agrees n) {f : Closure} {locals : Locals} {arguments : List Value}
    (ha : f.decl.arity = arguments.length) (hf : t.1.Callable f locals)
    (hv : ∀ w ∈ arguments, t.1.Holds w) :
    (twins false).Runs t (f.call (n + 1) arguments)
      (Lexical.callFunction (n + 1) (.of f locals) arguments) Same := by
  obtain ⟨scopes, hs, hd, hi⟩ := hf
  simp only [Closure.call, Lexical.callFunction, Function.of]
  refine Pairing.RunsFrom.bind (runs_activation ha hs hd hv) ?_
  rintro e inner u hu ⟨he, names, hat, hb⟩
  refine (runs_withFrame hu (he ▸ le_rfl) (h.runAll (t := ⟨_, u.2.enter e⟩) hat hb)).bind ?_
  rintro flow _ w hw ⟨rfl, hflow⟩
  by_cases hinit : f.isInitializer = true
  · simp only [hinit, if_true]
    exact (runs_receiver (hw.stands hs) (hi hinit)).since hw
  · simp only [hinit]
    refine .of_ok w rfl rfl hw ⟨rfl, ?_⟩
    cases flow with
    | «return» v => exact hflow v rfl
    | _ => exact Twin.holds_of_ne (by simp [Flow.result])

theorem valueCall (h : Agrees n) {v : Value} (paren : Token) {arguments : List Value}
    (ha : t.1.heap.arity? v = some arguments.length) (hv : t.1.Holds v)
    (hw : ∀ w ∈ arguments, t.1.Holds w) :
    (twins false).Runs t (v.call (n + 1) paren arguments)
      (Lexical.call (n + 1) v paren arguments) Same := by
  cases v with
  | native id =>
    simp only [Value.call, Lexical.call]
    refine (runs_inspect (Heap.native_withoutLocals t.1.heap id)).bind ?_
    rintro native _ u - ⟨-, rfl, rfl⟩
    exact runs_callNative paren _ hw
  | function f =>
    simp only [Value.call, Lexical.call]
    refine (runs_function f).bind ?_
    rintro _ _ _ - ⟨rfl, rfl, rfl⟩
    exact h.callFunction (Option.some.inj ha) (hv f rfl).2 hw
  | «class» c =>
    simp only [Value.call, Lexical.call]
    refine (runs_newInstance c).bind ?_
    rintro o _ u hu ⟨rfl, hfind, hclosure⟩
    refine (runs_method? rfl).bind ?_
    rintro a b u' - ⟨hm, rfl⟩
    rcases hm with ⟨-, rfl, rfl⟩ | ⟨f, hf, hm, rfl, rfl⟩
    · exact .of_ok u' rfl rfl (.refl false u'.1) ⟨rfl, Twin.holds_of_ne (by simp)⟩
    · refine (runs_bindThis hm o).bind ?_
      rintro g b q hq ⟨hcall, hb, hdecl⟩
      rw [hb]
      have harity : g.decl.arity = arguments.length := by
        rw [hfind] at hf
        rw [hdecl, hclosure]
        simpa [Heap.arity?, Heap.classArity, Heap.method?, hf] using ha
      refine (h.callFunction harity hcall fun w hm => hq.holds (hu.holds (hw w hm))).bind ?_
      rintro _ _ r - -
      exact .pure ⟨rfl, Twin.holds_of_ne (by simp)⟩
  | _ => cases ha

/-! ### Expressions -/

theorem evalAll (h : Agrees n) {es : List Expr} {scopes : Scopes} {pending : Option String}
    {locals : Locals} (hp : Place t.1 scopes pending locals)
    (hs : Expr.ScopedAll t.1.far scopes pending es) :
    (twins false).Runs t (es.mapM (Expr.eval n)) (es.mapM (Lexical.eval n locals))
      fun vs ws u => ws = vs ∧ ∀ v ∈ vs, u.1.Holds v := by
  induction es generalizing t with
  | nil => exact .pure ⟨rfl, by simp⟩
  | cons e es ih =>
    rw [List.mapM_cons, List.mapM_cons]
    refine (h.eval hp hs.1).bind ?_
    rintro v _ u hu ⟨rfl, hv⟩
    refine (ih (hp.after hu) (hu.far ▸ hs.2)).bind ?_
    rintro vs _ w hw ⟨rfl, hvs⟩
    refine .pure ⟨rfl, ?_⟩
    intro v' hv'
    rcases List.mem_cons.1 hv' with rfl | hv'
    · exact hw.holds hv
    · exact hvs v' hv'

theorem evalCall (h : Agrees n) {callee : Expr} (paren : Token) {arguments : List Expr}
    {scopes : Scopes} {pending : Option String} {locals : Locals}
    (hp : Place t.1 scopes pending locals)
    (hs : (Expr.call callee paren arguments).Scoped t.1.far scopes pending) :
    (twins false).Runs t ((Expr.call callee paren arguments).eval (n + 1))
      (Lexical.eval (n + 1) locals (.call callee paren arguments)) Same := by
  simp only [Expr.eval, Lexical.eval]
  refine (h.eval hp hs.1).bind ?_
  rintro f _ u hu ⟨rfl, hf⟩
  refine (h.evalAll (hp.after hu) (hu.far ▸ hs.2)).bind ?_
  rintro _ vs w hw ⟨rfl, hvs⟩
  refine (runs_inspect (Heap.arity?_withoutLocals w.1.heap f)).bind ?_
  rintro _ arity q - ⟨rfl, rfl, rfl⟩
  rcases ha : q.1.heap.arity? f with _ | arity
  · exact runs_fail paren rfl
  · by_cases hn : vs.length = arity
    · simp only [hn, if_true]
      exact h.call paren (ha.trans (by rw [hn])) (hw.holds hf) hvs
    · simp only [hn, if_false]
      exact runs_fail paren rfl

theorem evalSucc (h : Agrees n) {e : Expr} {scopes : Scopes} {pending : Option String}
    {locals : Locals} (hp : Place t.1 scopes pending locals) (hs : e.Scoped t.1.far scopes pending) :
    (twins false).Runs t (e.eval (n + 1)) (Lexical.eval (n + 1) locals e) Same := by
  cases e with
  | literal value =>
    simp only [Expr.eval, Lexical.eval]
    exact .pure ⟨rfl, holds_ofLiteral value⟩
  | grouping inner =>
    simp only [Expr.eval, Lexical.eval]
    exact h.eval hp hs
  | unary operator right =>
    simp only [Expr.eval, Lexical.eval]
    refine (h.eval (e := right) hp hs).bind ?_
    rintro v _ u - ⟨rfl, -⟩
    exact runs_ofResult operator (plain_unaryResult operator.kind v)
  | binary left operator right =>
    simp only [Expr.eval, Lexical.eval]
    refine (h.eval hp hs.1).bind ?_
    rintro v _ u hu ⟨rfl, -⟩
    refine (h.eval (hp.after hu) (hu.far ▸ hs.2)).bind ?_
    rintro w _ q - ⟨rfl, -⟩
    exact runs_ofResult operator (plain_binaryResult operator.kind v w)
  | logical left operator right =>
    simp only [Expr.eval, Lexical.eval]
    refine (h.eval hp hs.1).bind ?_
    rintro v _ u hu ⟨rfl, hv⟩
    by_cases hc : shortCircuits operator.kind v = true
    · simp only [hc, if_true]
      exact .pure ⟨rfl, hv⟩
    · simp only [hc]
      exact h.eval (hp.after hu) (hu.far ▸ hs.2)
  | «variable» id name =>
    simp only [Expr.eval, Lexical.eval]
    exact runs_read hp hs.1 hs.2
  | assign id name value =>
    simp only [Expr.eval, Lexical.eval]
    refine (h.eval hp hs.1).bind ?_
    rintro v _ u hu ⟨rfl, hv⟩
    refine (runs_assign (hp.after hu) (hu.far ▸ hs.2.1) hs.2.2 hv).bind ?_
    rintro _ _ w hw -
    exact .pure ⟨rfl, hw.holds hv⟩
  | call callee paren arguments => exact h.evalCall paren hp hs
  | get object name =>
    simp only [Expr.eval, Lexical.eval]
    refine (h.eval (e := object) hp hs).bind ?_
    rintro v _ u - ⟨rfl, -⟩
    cases v with
    | «instance» o => exact runs_getProperty o name
    | _ => exact runs_fail name rfl
  | set object name value =>
    simp only [Expr.eval, Lexical.eval]
    refine (h.eval hp hs.1).bind ?_
    rintro v _ u hu ⟨rfl, -⟩
    cases v with
    | «instance» o =>
      refine (h.eval (hp.after hu) (hu.far ▸ hs.2)).bind ?_
      rintro v _ w hw ⟨rfl, hv⟩
      refine (runs_setProperty o name hv).bind ?_
      rintro _ _ q hq -
      exact .pure ⟨rfl, hq.holds hv⟩
    | _ => exact runs_fail name rfl
  | this id keyword =>
    simp only [Expr.eval, Lexical.eval]
    obtain ⟨hk, -, hd⟩ := hs
    exact runs_read hp (hk ▸ hd) (hp.pending_ne (hk ▸ fun h => h.1 rfl))
  | super id keyword method =>
    simp only [Expr.eval, Lexical.eval]
    obtain ⟨d, hd, hsuper, hthis⟩ := hs
    exact runs_getSuper keyword method hp hd hsuper hthis

/-! ### Statements -/

theorem superclassOf (h : Agrees n) (name : Token) {superclass : Option Expr} {scopes : Scopes}
    {locals : Locals} (hp : Place t.1 scopes none locals)
    (hs : Expr.ScopedOption t.1.far scopes none superclass) :
    (twins false).Runs t (Lox.superclassOf (Expr.eval n) name superclass)
      (Lexical.superclassOf (Lexical.eval n locals) name superclass)
      fun a b _ => b = a ∧ superclass.isSome = a.isSome := by
  cases superclass with
  | none => exact .pure ⟨rfl, rfl⟩
  | some e =>
    refine (h.eval (e := e) hp hs).bind ?_
    rintro v _ u - ⟨rfl, -⟩
    cases v with
    | «class» c => exact .pure ⟨rfl, rfl⟩
    | _ => exact runs_fail _ rfl

theorem execVar (h : Agrees n) {name : Token} {value : Option Expr} {scopes : Scopes}
    {scope : Scope} (ha : At t.1 scopes scope) (hs : (Stmt.var name value).Scoped t.1.far scopes) :
    (twins true).Runs t ((Stmt.var name value).exec (n + 1))
      (Lexical.exec (n + 1) scope (.var name value)) (Ends (scopes.declare name.lexeme)) := by
  obtain ⟨hx, hf, hv⟩ := hs
  cases ha with
  | top hg =>
    cases value with
    | none =>
      simp only [Stmt.exec, Lexical.exec]
      refine .right (b := .top) t rfl rfl ?_
      refine (Runs.loud (runs_defineTop hg name Twin.holds_nil)).bind ?_
      rintro _ _ u hu -
      exact .pure ⟨⟨rfl, by simp⟩, fun _ => .top (hu.frame.trans hg)⟩
    | some value =>
      simp only [Stmt.exec, Lexical.exec]
      refine .right (b := .top) t rfl rfl ?_
      refine (Runs.loud (h.eval (.settled (hg ▸ .globals)) hv)).bind ?_
      rintro v _ u hu ⟨rfl, hw⟩
      have hg' := hu.frame.trans hg
      refine (Runs.loud (runs_defineTop hg' name hw)).bind ?_
      rintro _ _ w hw -
      exact .pure ⟨⟨rfl, by simp⟩, fun _ => .top (hw.frame.trans hg')⟩
  | @inside own outer scopes locals hw he hs =>
    have ha : At t.1 _ _ := .inside hw he hs
    cases value with
    | none =>
      simp only [Stmt.exec, Lexical.exec]
      refine runs_declare ha hx hf fun q c hq hc hi => ?_
      refine (runs_defineLocal hi hq hc (hi.holds Twin.holds_nil)).bind ?_
      rintro _ _ w hw ⟨hat, -⟩
      exact .of_ok w rfl rfl hw ⟨⟨rfl, by simp⟩, fun _ => hat⟩
    | some value =>
      simp only [Stmt.exec, Lexical.exec]
      refine runs_declare ha hx hf fun q c hq hc hi => ?_
      have hv : value.Scoped q.1.far _ _ := hq.far ▸ hv
      have heval : (twins false).Runs q (value.eval n)
          (Lexical.eval n ((name.lexeme, c) :: (own ++ locals)) value) fun v w u =>
          Same v w u ∧ Introduces u.1 (own.map Prod.fst :: scopes) (own ++ locals) name.lexeme c :=
        (h.eval hi.place hv).imp fun _ _ _ hu hs => ⟨hs, hi.after hu⟩
      refine ((Runs.loud heval).since hq).bind ?_
      rintro v _ u hu ⟨⟨rfl, hw⟩, hi⟩
      refine (runs_defineLocal hi hu hc (hi.holds hw)).bind ?_
      rintro _ _ w hw ⟨hat, -⟩
      exact .of_ok w rfl rfl hw ⟨⟨rfl, by simp⟩, fun _ => hat⟩

theorem execFunction {decl : FunDecl} {scopes : Scopes} {scope : Scope}
    (ha : At t.1 scopes scope) (hs : (Stmt.function decl).Scoped t.1.far scopes) :
    (twins true).Runs t ((Stmt.function decl).exec (n + 1))
      (Lexical.exec (n + 1) scope (.function decl)) (Ends (scopes.declare decl.name.lexeme)) := by
  obtain ⟨hx, hf, hd⟩ := hs
  simp only [Stmt.exec, Lexical.exec]
  cases ha with
  | top hg =>
    refine .left (a := t.1.machine.frame) rfl ?_
    refine .right (b := .top) t rfl rfl ?_
    have hcall : t.1.Callable ⟨decl, t.1.machine.frame, false⟩ [] :=
      ⟨[], hg ▸ .globals, hd, by simp⟩
    refine (Runs.loud (runs_newClosure hcall)).bind ?_
    rintro f _ u hu ⟨rfl, hf⟩
    have hg' := hu.frame.trans hg
    refine (Runs.loud (runs_defineTop hg' decl.name hf)).bind ?_
    rintro _ _ w hw -
    exact .pure ⟨⟨rfl, by simp⟩, fun _ => .top (hw.frame.trans hg')⟩
  | @inside own outer scopes locals hw he hs =>
    have ha : At t.1 _ _ := .inside hw he hs
    refine .left (a := t.1.machine.frame) rfl ?_
    refine runs_declare ha hx hf fun q c hq hc hi => ?_
    rw [← hq.frame]
    have hpush := runs_pushClosure (t := q) ⟨decl, q.1.machine.frame, false⟩
      ((decl.name.lexeme, c) :: (own ++ locals))
    have hd : decl.Scoped q.1.far _ := hq.far ▸ hd
    have hnew : (twins false).Runs q (Exec.newClosure ⟨decl, q.1.machine.frame, false⟩)
        (Lexical.newClosure (.of ⟨decl, q.1.machine.frame, false⟩
          ((decl.name.lexeme, c) :: (own ++ locals)))) fun v w u =>
        w = v ∧ Introduces u.1 (own.map Prod.fst :: scopes) (own ++ locals) decl.name.lexeme c ∧
          (u.1.introduce decl.name.lexeme c).Holds v := by
      refine hpush.imp ?_
      rintro _ _ u hu ⟨rfl, rfl, he⟩
      exact ⟨rfl, hi.after hu, hi.holds_self hd hu he⟩
    refine ((Runs.loud hnew).since hq).bind ?_
    rintro f _ u hu ⟨rfl, hi, hf⟩
    refine (runs_defineLocal hi hu hc hf).bind ?_
    rintro _ _ w hw ⟨hat, -⟩
    exact .of_ok w rfl rfl hw ⟨⟨rfl, by simp⟩, fun _ => hat⟩

/-- What a class declaration does once its name is defined. -/
theorem runs_classBody {name : Token} {superclass : Option Expr} {parent : Option ClassId}
    {methods : List FunDecl} {scopes : Scopes} {scope : Scope} (ha : At t.1 scopes scope)
    (hp : superclass.isSome = parent.isSome)
    (hm : FunDecl.ScopedAll t.1.far (["this"] :: scopes.ofClass superclass) methods)
    (hassign : ∀ {q : SoundTwin} {v : Value}, Leads false t.1 q.1 → q.1.Holds v →
      (twins false).Runs q (Exec.assignFrom q.1.machine.frame name v)
        (Lexical.assign scope.locals name v) fun _ _ _ => True) :
    (twins false).Runs t
      (do
        let here ← Exec.currentFrame
        let around ← methodFrame here parent
        let c ← Exec.newClass name.lexeme parent methods around
        Exec.assignFrom here name c
        return Flow.normal)
      (do
        let around ← methodLocals scope.locals parent
        let c ← Lexical.newClass name.lexeme parent methods around
        Lexical.assign scope.locals name c
        return (Flow.normal, scope))
      (Ends scopes) := by
  refine .left (a := t.1.machine.frame) rfl ?_
  refine Pairing.Runs.bind (runs_methodFrame ha.stands hp) ?_
  rintro e inner u hu hs
  refine (runs_newClass name.lexeme parent hs (hu.far ▸ hm)).bind ?_
  rintro c _ q hq ⟨rfl, hc⟩
  have hl := hu.trans hq
  refine Pairing.Runs.bind (hl.frame ▸ hassign hl hc) ?_
  rintro _ _ w hw -
  exact .pure ⟨⟨rfl, by simp⟩, fun _ => ha.after (hl.trans hw)⟩

theorem execClass (h : Agrees n) {name : Token} {superclass : Option Expr}
    {methods : List FunDecl} {scopes : Scopes} {scope : Scope} (ha : At t.1 scopes scope)
    (hs : (Stmt.class name superclass methods).Scoped t.1.far scopes) :
    (twins true).Runs t ((Stmt.class name superclass methods).exec (n + 1))
      (Lexical.exec (n + 1) scope (.class name superclass methods))
      (Ends (scopes.declare name.lexeme)) := by
  obtain ⟨hx, hf, hsuper, hm⟩ := hs
  simp only [Stmt.exec, Lexical.exec]
  have hparent : (twins false).Runs t (Lox.superclassOf (Expr.eval n) name superclass)
      (Lexical.superclassOf (Lexical.eval n scope.locals) name superclass) fun a b u =>
        b = a ∧ superclass.isSome = a.isSome ∧ At u.1 scopes scope :=
    (h.superclassOf name ha.place hsuper).imp fun _ _ _ hu hp => ⟨hp.1, hp.2, ha.after hu⟩
  refine (Runs.loud hparent).bind ?_
  rintro parent _ u hu ⟨rfl, hp, ha⟩
  have hm := hu.far ▸ hm
  cases ha with
  | top hg =>
    refine .right (b := .top) u rfl rfl ?_
    refine (Runs.loud (runs_defineTop hg name Twin.holds_nil)).bind ?_
    rintro _ _ w hw -
    refine Runs.loud (runs_classBody (.top (hw.frame.trans hg)) hp (hw.far ▸ hm) ?_)
    intro q v hq hv
    rw [hq.frame, hw.frame, hg]
    exact runs_assignFrom name hv
  | @inside own outer scopes locals hw he hs =>
    refine runs_declare (.inside hw he hs) hx hf fun q c hq hc hi => ?_
    refine (runs_defineLocal hi hq hc (hi.holds Twin.holds_nil)).bind ?_
    rintro _ _ w hw ⟨hat, hmem⟩
    refine (Runs.loud (runs_classBody hat hp (hw.far ▸ hm) ?_)).since hw
    intro q v hq hv
    refine runs_assignHere _ ?_ hx hv
    rw [hq.frame]
    exact (hq.world _ (w.2.lt_of_mem hmem)).subset hmem

theorem execBlock (h : Agrees n) {body : List Stmt} {scopes : Scopes} {scope : Scope}
    (ha : At t.1 scopes scope) (hs : Stmt.ScopedAll t.1.far ([] :: scopes) body) :
    (twins false).Runs t ((Stmt.block body).exec (n + 1))
      (Lexical.exec (n + 1) scope (.block body)) (Ends scopes) := by
  simp only [Stmt.exec, Lexical.exec]
  refine .left (a := t.1.machine.frame) rfl ?_
  show (twins false).RunsFrom t t _ (bindAll [] scope.locals >>= fun locals => do
    let flow ← Lexical.runAll (Lexical.exec n) (.inside locals) body
    return (flow, scope)) _
  refine Pairing.RunsFrom.bind (runs_blockFrame ha hs) ?_
  rintro e inner u hu ⟨he, hat, hb⟩
  refine (runs_withFrame hu (he ▸ le_rfl) (h.runAll (t := ⟨_, u.2.enter e⟩) hat hb)).mapRight
    (fun flow => (flow, scope)) (fun _ => rfl) ?_
  rintro flow _ w hw hflow
  exact ⟨hflow, fun _ => ha.after hw⟩

theorem execSucc (h : Agrees n) {s : Stmt} {scopes : Scopes} {scope : Scope}
    (ha : At t.1 scopes scope) (hs : s.Scoped t.1.far scopes) :
    (twins s.declared?.isSome).Runs t (s.exec (n + 1)) (Lexical.exec (n + 1) scope s)
      (Ends (s.declare scopes)) := by
  cases s with
  | expression value =>
    simp only [Stmt.exec, Lexical.exec]
    refine Pairing.Runs.bind (h.eval ha.place hs) ?_
    rintro _ _ u hu -
    exact .pure ⟨⟨rfl, by simp⟩, fun _ => ha.after hu⟩
  | print value =>
    simp only [Stmt.exec, Lexical.exec]
    refine Pairing.Runs.bind (h.eval ha.place hs) ?_
    rintro v _ u hu ⟨rfl, -⟩
    refine Pairing.Runs.bind (runs_inspect (Heap.display_withoutLocals u.1.heap v)) ?_
    rintro _ line _ - ⟨-, rfl, rfl⟩
    refine Pairing.Runs.bind (runs_print _) ?_
    rintro _ _ w hw -
    exact .pure ⟨⟨rfl, by simp⟩, fun _ => ha.after (hu.trans hw)⟩
  | var name value => exact h.execVar ha hs
  | block body => exact h.execBlock ha hs
  | «if» condition thenBranch elseBranch =>
    have hcondition : condition.Scoped t.1.far scopes none := by
      cases elseBranch <;> exact hs.1
    have hthen : thenBranch.declared? = none ∧ thenBranch.Scoped t.1.far scopes := by
      cases elseBranch with
      | none => exact hs.2
      | some _ => exact hs.2.1
    have branch : ∀ {u : SoundTwin} {s : Stmt}, Leads false t.1 u.1 → s.declared? = none →
        s.Scoped t.1.far scopes →
        (twins false).Runs u (s.exec n) (Lexical.exec n scope s) (Ends scopes) := by
      intro u s hu hd hs
      have := h.exec (ha.after hu) (hu.far ▸ hs)
      rwa [Stmt.declare, hd] at this
    simp only [Stmt.exec, Lexical.exec]
    refine Pairing.Runs.bind (h.eval ha.place hcondition) ?_
    rintro v _ u hu ⟨rfl, -⟩
    by_cases hv : v.isTruthy = true
    · simp only [hv, if_true]
      exact branch hu hthen.1 hthen.2
    · simp only [hv]
      cases elseBranch with
      | none => exact .pure ⟨⟨rfl, by simp⟩, fun _ => ha.after hu⟩
      | some elseBranch => exact branch hu hs.2.2.1 hs.2.2.2
  | «while» condition body =>
    simp only [Stmt.exec, Lexical.exec]
    refine Pairing.RunsFrom.mapRight (fun flow => (flow, scope))
      (h.repeatWhile ha hs.1 hs.2.2 hs.2.1 n) (fun _ => rfl) ?_
    rintro flow _ u hu ⟨hf, -⟩
    exact ⟨hf, fun _ => ha.after hu⟩
  | «break» keyword =>
    simp only [Stmt.exec, Lexical.exec]
    exact .pure ⟨⟨rfl, by simp⟩, by simp⟩
  | function decl => exact execFunction ha hs
  | «return» keyword value =>
    cases value with
    | none =>
      simp only [Stmt.exec, Lexical.exec]
      refine .pure ⟨⟨rfl, ?_⟩, by simp⟩
      rintro v hv
      cases hv
      exact Twin.holds_nil
    | some value =>
      simp only [Stmt.exec, Lexical.exec]
      refine Pairing.Runs.bind (h.eval ha.place hs) ?_
      rintro v _ u hu ⟨rfl, hv⟩
      refine .pure ⟨⟨rfl, ?_⟩, by simp⟩
      rintro w hw
      cases hw
      exact hv
  | «class» name superclass methods => exact h.execClass ha hs

end Agrees

/-- By induction on the fuel: a run that has none left stops, in both machines. -/
theorem agrees (n : Nat) : Agrees n := by
  induction n with
  | zero =>
    exact
      { eval := fun _ _ => .of_error rfl rfl ⟨rfl, rfl⟩
        call := fun _ _ _ _ _ => .of_error rfl rfl ⟨rfl, rfl⟩
        callFunction := fun _ _ _ => .of_error rfl rfl ⟨rfl, rfl⟩
        exec := fun _ _ => .of_error rfl rfl ⟨rfl, rfl⟩ }
  | succ n ih =>
    exact
      { eval := ih.evalSucc
        call := ih.valueCall
        callFunction := ih.closureCall
        exec := ih.execSucc }

/-- A whole program: whatever the statements end in, the next one stands at the top again. -/
theorem runs_interpret (fuel : Nat) {t : SoundTwin} {program : List Stmt}
    (hf : t.1.machine.frame = Machine.globals) (hs : Stmt.ScopedAll t.1.far [] program) :
    (twins true).Runs t (Lox.interpret fuel program) (interpret fuel program)
      fun _ _ _ => True := by
  induction program generalizing t with
  | nil => exact .pure trivial
  | cons s ss ih =>
    show (twins true).Runs t
      ((do let _ ← s.exec fuel) >>= fun _ => Lox.interpret fuel ss)
      ((do let _ ← exec fuel .top s) >>= fun _ => interpret fuel ss) _
    have hstmt : (twins true).Runs t (do let _ ← s.exec fuel) (do let _ ← exec fuel .top s)
        fun _ _ _ => True := by
      refine (Runs.loud ((agrees fuel).exec (.top hf) hs.1)).bind ?_
      rintro _ _ u hu -
      exact .pure trivial
    refine hstmt.bind ?_
    rintro _ _ u hu -
    exact ih (hu.frame.trans hf) (hu.far ▸ s.declare_nil ▸ hs.2)

end Lox.Lexical
