import Lox.Session

/-!
# More fuel

Fuel bounds a run and is nothing else to it: with more of it a run that ended ends in the same way,
in the same machine. So what an input comes to does not depend on the fuel that it ended with.
-/

namespace Lox

/-! ### Steps -/

/-- The other step does the same, unless this one runs out of fuel. -/
def Curtails {σ α : Type} (act other : EStateM Stop σ α) : Prop :=
  ∀ s, (∃ s', act s = .error .outOfFuel s') ∨ other s = act s

namespace Curtails

variable {σ α β : Type} {act other last : EStateM Stop σ α}

theorem refl (act : EStateM Stop σ α) : Curtails act act := fun _ => .inr rfl

theorem outOfFuel (other : EStateM Stop σ α) : Curtails (throw .outOfFuel) other :=
  fun s => .inl ⟨s, rfl⟩

theorem trans (h : Curtails act other) (h' : Curtails other last) : Curtails act last := by
  intro s
  rcases h s with hs | hs
  · exact .inl hs
  · exact hs ▸ h' s

theorem bind {f g : α → EStateM Stop σ β} (h : Curtails act other)
    (hf : ∀ a, Curtails (f a) (g a)) : Curtails (act >>= f) (other >>= g) := by
  intro s
  simp only [Bind.bind, EStateM.bind]
  rcases h s with ⟨s', hs⟩ | hs
  · exact .inl ⟨s', by rw [hs]⟩
  · rw [hs]
    rcases act s with ⟨a, s'⟩ | ⟨stop, s'⟩
    · exact hf a s'
    · exact .inr rfl

theorem withFrame {act other : Exec α} (h : Curtails act other) (e : FrameId) :
    Curtails (Exec.withFrame e act) (Exec.withFrame e other) := by
  intro m
  rcases h { m with frame := e } with ⟨m', hm⟩ | hm
  · exact .inl ⟨_, Exec.withFrame_eq_error_iff.2 ⟨m', hm, rfl⟩⟩
  · exact .inr (by simp only [Exec.withFrame, hm])

theorem mapM {ι : Type} {f g : ι → EStateM Stop σ α} (h : ∀ i, Curtails (f i) (g i))
    (is : List ι) : Curtails (is.mapM f) (is.mapM g) := by
  induction is with
  | nil => exact .refl _
  | cons i is ih =>
    rw [List.mapM_cons, List.mapM_cons]
    exact (h i).bind fun a => ih.bind fun as => .refl _

end Curtails

theorem curtails_runAll {run run' : Stmt → Exec Flow} (h : ∀ s, Curtails (run s) (run' s))
    (ss : List Stmt) : Curtails (runAll run ss) (runAll run' ss) := by
  induction ss with
  | nil => exact .refl _
  | cons s ss ih =>
    refine (h s).bind fun flow => ?_
    cases flow with
    | normal => exact ih
    | _ => exact .refl _

theorem curtails_repeatWhile {condition condition' : Exec Value} {body body' : Exec Flow}
    (hc : Curtails condition condition') (hb : Curtails body body') {rounds rounds' : Nat}
    (hr : rounds ≤ rounds') :
    Curtails (repeatWhile condition body rounds) (repeatWhile condition' body' rounds') := by
  induction rounds generalizing rounds' with
  | zero => exact .outOfFuel _
  | succ rounds ih =>
    obtain ⟨rounds', rfl⟩ := Nat.exists_eq_add_of_le' hr
    refine hc.bind fun v => ?_
    split
    · refine hb.bind fun flow => ?_
      cases flow with
      | normal => exact ih (Nat.le_of_succ_le_succ hr)
      | _ => exact .refl _
    · exact .refl _

theorem curtails_superclassOf {run run' : Expr → Exec Value}
    (h : ∀ e, Curtails (run e) (run' e)) (name : Token) (superclass : Option Expr) :
    Curtails (superclassOf run name superclass) (superclassOf run' name superclass) := by
  cases superclass with
  | none => exact .refl _
  | some e => exact (h e).bind fun v => .refl _

/-! ### Trees -/

/-- What runs with `n` units of fuel runs in the same way with `n'`. -/
structure Larger (n n' : Nat) : Prop where
  le : n ≤ n'
  eval (e : Expr) : Curtails (e.eval n) (e.eval n')
  call (v : Value) (paren : Token) (arguments : List Value) :
    Curtails (v.call n paren arguments) (v.call n' paren arguments)
  run (f : Closure) (arguments : List Value) :
    Curtails (f.call n arguments) (f.call n' arguments)
  exec (s : Stmt) : Curtails (s.exec n) (s.exec n')

namespace Larger

variable {n n' : Nat}

theorem evalSucc (h : Larger n n') (e : Expr) :
    Curtails (e.eval (n + 1)) (e.eval (n' + 1)) := by
  cases e with
  | grouping inner => exact h.eval inner
  | unary operator right => exact (h.eval right).bind fun v => .refl _
  | binary left operator right =>
    exact (h.eval left).bind fun v => (h.eval right).bind fun w => .refl _
  | logical left operator right =>
    refine (h.eval left).bind fun v => ?_
    split
    · exact .refl _
    · exact h.eval right
  | assign id name value => exact (h.eval value).bind fun v => .refl _
  | call callee paren arguments =>
    refine (h.eval callee).bind fun f => (Curtails.mapM h.eval arguments).bind fun vs =>
      (Curtails.refl _).bind fun arity => ?_
    cases arity with
    | none => exact .refl _
    | some arity =>
      dsimp only
      split
      · exact h.call f paren vs
      · exact .refl _
  | get object name => exact (h.eval object).bind fun v => .refl _
  | set object name value =>
    refine (h.eval object).bind fun v => ?_
    cases v with
    | «instance» o => exact (h.eval value).bind fun v => .refl _
    | _ => exact .refl _
  | literal | «variable» | this | super => exact .refl _

theorem callSucc (h : Larger n n') (v : Value) (paren : Token) (arguments : List Value) :
    Curtails (v.call (n + 1) paren arguments) (v.call (n' + 1) paren arguments) := by
  cases v with
  | function f => exact (Curtails.refl _).bind fun f => h.run f arguments
  | «class» c =>
    refine (Curtails.refl _).bind fun o => (Curtails.refl _).bind fun found => ?_
    cases found with
    | none => exact .refl _
    | some f => exact (Curtails.refl _).bind fun g => (h.run g arguments).bind fun _ => .refl _
  | _ => exact .refl _

theorem runSucc (h : Larger n n') (f : Closure) (arguments : List Value) :
    Curtails (f.call (n + 1) arguments) (f.call (n' + 1) arguments) :=
  (Curtails.refl _).bind fun e =>
    ((curtails_runAll h.exec f.decl.body).withFrame e).bind fun _ => .refl _

theorem execSucc (h : Larger n n') (s : Stmt) :
    Curtails (s.exec (n + 1)) (s.exec (n' + 1)) := by
  cases s with
  | expression value => exact (h.eval value).bind fun _ => .refl _
  | print value => exact (h.eval value).bind fun _ => .refl _
  | var name initializer =>
    cases initializer with
    | none => exact .refl _
    | some value => exact (h.eval value).bind fun _ => .refl _
  | block body =>
    exact (Curtails.refl _).bind fun here => (Curtails.refl _).bind fun e =>
      (curtails_runAll h.exec body).withFrame e
  | «if» condition thenBranch elseBranch =>
    refine (h.eval condition).bind fun v => ?_
    split
    · exact h.exec thenBranch
    · cases elseBranch with
      | none => exact .refl _
      | some elseBranch => exact h.exec elseBranch
  | «while» condition body => exact curtails_repeatWhile (h.eval condition) (h.exec body) h.le
  | «return» keyword value =>
    cases value with
    | none => exact .refl _
    | some value => exact (h.eval value).bind fun _ => .refl _
  | «class» name superclass methods =>
    exact (curtails_superclassOf h.eval name superclass).bind fun _ => .refl _
  | «break» | function => exact .refl _

end Larger

/-- A run that ends does so for every larger fuel in the same way. -/
theorem larger {n n' : Nat} (h : n ≤ n') : Larger n n' := by
  induction n generalizing n' with
  | zero =>
    exact
      { le := h
        eval := fun e => e.eval_zero ▸ .outOfFuel _
        call := fun v paren arguments => v.call_zero paren arguments ▸ .outOfFuel _
        run := fun f arguments => f.call_zero arguments ▸ .outOfFuel _
        exec := fun s => s.exec_zero ▸ .outOfFuel _ }
  | succ n ih =>
    obtain ⟨n', rfl⟩ := Nat.exists_eq_add_of_le' h
    have ih := ih (Nat.le_of_succ_le_succ h)
    exact
      { le := h
        eval := ih.evalSucc
        call := ih.callSucc
        run := ih.runSucc
        exec := ih.execSucc }

theorem curtails_interpret {n n' : Nat} (h : n ≤ n') (program : List Stmt) :
    Curtails (interpret n program) (interpret n' program) := by
  induction program with
  | nil => exact .refl _
  | cons s program ih =>
    exact (((larger h).exec s).bind fun _ => .refl _).bind fun _ => ih

/-! ### Sessions -/

namespace Session

/-- The input ended, in whatever way. -/
def Ends {α : Type} (outcome : Except Failure α) : Prop := outcome ≠ .error (.stopped .outOfFuel)

theorem perform_of_curtails {α : Type} {act other : Exec α} (h : Curtails act other) {s : Session}
    (hends : Ends (s.perform act).1) : s.perform other = s.perform act := by
  unfold perform at hends ⊢
  rcases h s.machine with ⟨m', hm⟩ | hm
  · rw [hm] at hends
    exact absurd rfl hends
  · rw [hm]

theorem resolved_of_curtails {α : Type} {act other : Exec α} (h : Curtails act other) {s : Session}
    {walk : Scope.Walk} (hends : Ends (s.resolved walk act).1) :
    s.resolved walk other = s.resolved walk act := by
  unfold resolved at hends ⊢
  split at hends
  · exact perform_of_curtails h hends
  · rfl

/-- With more fuel an input that ended ends in the same way. -/
theorem run_of_larger {n n' : Nat} (h : n ≤ n') {source : String} {s : Session}
    (hends : Ends (s.run n source).1) : s.run n' source = s.run n source := by
  rcases hp : Source.program? source s.nextId with ⟨errors | program, next⟩
  · simp only [run, hp]
  · simp only [run, hp] at hends ⊢
    exact resolved_of_curtails (curtails_interpret h program) hends

/-- Whatever fuel an input ends with, it ends in the same way. -/
theorem run_unique {n n' : Nat} {source : String} {s : Session} (hends : Ends (s.run n source).1)
    (hends' : Ends (s.run n' source).1) : s.run n source = s.run n' source := by
  rcases Nat.le_total n n' with h | h
  · exact (run_of_larger h hends).symm
  · exact run_of_larger h hends'

end Session

end Lox
