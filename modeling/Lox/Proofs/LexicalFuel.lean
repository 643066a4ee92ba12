import Lox.Proofs.Fuel
import Lox.Proofs.Lexical

/-!
# More fuel by name

Running by name is bounded by fuel as running in frames is, and there too a run that ended does so
with more of it in the same way.
-/

namespace Lox.Lexical

theorem curtails_runAll {run run' : Scope → Stmt → Run (Flow × Scope)}
    (h : ∀ scope s, Curtails (run scope s) (run' scope s)) (scope : Scope) (ss : List Stmt) :
    Curtails (runAll run scope ss) (runAll run' scope ss) := by
  induction ss generalizing scope with
  | nil => exact .refl _
  | cons s ss ih =>
    refine (h scope s).bind fun (flow, scope) => ?_
    cases flow with
    | normal => exact ih scope
    | _ => exact .refl _

theorem curtails_repeatWhile {condition condition' : Run Value} {body body' : Run Flow}
    (hc : Curtails condition condition') (hb : Curtails body body') {rounds rounds' : Nat}
    (hr : rounds ≤ rounds') :
    Curtails (repeatWhile condition body rounds) (repeatWhile condition' body' rounds') := by
  induction rounds generalizing rounds' with
  | zero => exact .outOfFuel _
  | succ rounds ih =>
    obtain ⟨rounds', rfl⟩ := Nat.exists_eq_add_of_le' hr
    refine hc.bind fun v => ?_
    split
    · refine hb.bind fun flow => ?_
      cases flow with
      | normal => exact ih (Nat.le_of_succ_le_succ hr)
      | _ => exact .refl _
    · exact .refl _

theorem curtails_superclassOf {run run' : Expr → Run Value}
    (h : ∀ e, Curtails (run e) (run' e)) (name : Token) (superclass : Option Expr) :
    Curtails (superclassOf run name superclass) (superclassOf run' name superclass) := by
  cases superclass with
  | none => exact .refl _
  | some e => exact (h e).bind fun v => .refl _

/-- What runs by name with `n` units of fuel runs in the same way with `n'`. -/
structure Larger (n n' : Nat) : Prop where
  le : n ≤ n'
  eval (locals : Locals) (e : Expr) : Curtails (eval n locals e) (eval n' locals e)
  call (v : Value) (paren : Token) (arguments : List Value) :
    Curtails (call n v paren arguments) (call n' v paren arguments)
  run (f : Function) (arguments : List Value) :
    Curtails (callFunction n f arguments) (callFunction n' f arguments)
  exec (scope : Scope) (s : Stmt) : Curtails (exec n scope s) (exec n' scope s)

namespace Larger

variable {n n' : Nat}

theorem evalSucc (h : Larger n n') (locals : Locals) (e : Expr) :
    Curtails (Lexical.eval (n + 1) locals e) (Lexical.eval (n' + 1) locals e) := by
  cases e with
  | grouping inner => exact h.eval locals inner
  | unary operator right => exact (h.eval locals right).bind fun v => .refl _
  | binary left operator right =>
    exact (h.eval locals left).bind fun v => (h.eval locals right).bind fun w => .refl _
  | logical left operator right =>
    refine (h.eval locals left).bind fun v => ?_
    split
    · exact .refl _
    · exact h.eval locals right
  | assign id name value => exact (h.eval locals value).bind fun v => .refl _
  | call callee paren arguments =>
    refine (h.eval locals callee).bind fun f =>
      (Curtails.mapM (h.eval locals) arguments).bind fun vs =>
        (Curtails.refl _).bind fun arity => ?_
    cases arity with
    | none => exact .refl _
    | some arity =>
      dsimp only
      split
      · exact h.call f paren vs
      · exact .refl _
  | get object name => exact (h.eval locals object).bind fun v => .refl _
  | set object name value =>
    refine (h.eval locals object).bind fun v => ?_
    cases v with
    | «instance» o => exact (h.eval locals value).bind fun v => .refl _
    | _ => exact .refl _
  | literal | «variable» | this | super => exact .refl _

theorem callSucc (h : Larger n n') (v : Value) (paren : Token) (arguments : List Value) :
    Curtails (Lexical.call (n + 1) v paren arguments)
      (Lexical.call (n' + 1) v paren arguments) := by
  cases v with
  | function f => exact (Curtails.refl _).bind fun f => h.run f arguments
  | «class» c =>
    refine (Curtails.refl _).bind fun o => (Curtails.refl _).bind fun found => ?_
    cases found with
    | none => exact .refl _
    | some f => exact (Curtails.refl _).bind fun g => (h.run g arguments).bind fun _ => .refl _
  | _ => exact .refl _

theorem runSucc (h : Larger n n') (f : Function) (arguments : List Value) :
    Curtails (callFunction (n + 1) f arguments) (callFunction (n' + 1) f arguments) :=
  (Curtails.refl _).bind fun locals =>
    (curtails_runAll h.exec (.inside locals) f.closure.decl.body).bind fun _ => .refl _

theorem execSucc (h : Larger n n') (scope : Scope) (s : Stmt) :
    Curtails (Lexical.exec (n + 1) scope s) (Lexical.exec (n' + 1) scope s) := by
  cases s with
  | expression value => exact (h.eval _ value).bind fun _ => .refl _
  | print value => exact (h.eval _ value).bind fun _ => .refl _
  | var name initializer =>
    cases initializer with
    | none => exact .refl _
    | some value =>
      exact (Curtails.refl _).bind fun scope => (h.eval _ value).bind fun _ => .refl _
  | block body => exact (curtails_runAll h.exec _ body).bind fun _ => .refl _
  | «if» condition thenBranch elseBranch =>
    refine (h.eval _ condition).bind fun v => ?_
    split
    · exact h.exec scope thenBranch
    · cases elseBranch with
      | none => exact .refl _
      | some elseBranch => exact h.exec scope elseBranch
  | «while» condition body =>
    exact (curtails_repeatWhile (h.eval _ condition) ((h.exec scope body).bind fun _ => .refl _)
      h.le).bind fun _ => .refl _
  | «return» keyword value =>
    cases value with
    | none => exact .refl _
    | some value => exact (h.eval _ value).bind fun _ => .refl _
  | «class» name superclass methods =>
    exact (curtails_superclassOf (h.eval _) name superclass).bind fun _ => .refl _
  | «break» | function => exact .refl _

end Larger

/-- A run by name that ends does so for every larger fuel in the same way. -/
theorem larger {n n' : Nat} (h : n ≤ n') : Larger n n' := by
  induction n generalizing n' with
  | zero =>
    exact
      { le := h
        eval := fun locals e => eval_zero locals e ▸ .outOfFuel _
        call := fun v paren arguments => call_zero v paren arguments ▸ .outOfFuel _
        run := fun f arguments => callFunction_zero f arguments ▸ .outOfFuel _
        exec := fun scope s => exec_zero scope s ▸ .outOfFuel _ }
  | succ n ih =>
    obtain ⟨n', rfl⟩ := Nat.exists_eq_add_of_le' h
    have ih := ih (Nat.le_of_succ_le_succ h)
    exact
      { le := h
        eval := ih.evalSucc
        call := ih.callSucc
        run := ih.runSucc
        exec := ih.execSucc }

end Lox.Lexical
