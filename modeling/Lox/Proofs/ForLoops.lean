import Lox.Proofs.LexicalFuel
import Lox.Proofs.Points
import Lox.Proofs.Shapes

/-!
# What a `for` means

A `for` is read as a block with a `while` in it, and with one more block in that when there is an
increment. Here it runs as it stands in the text, by name: the initializer in a scope of its own,
then round after round the condition, the body and the increment, all in that scope. With enough
fuel for both, the tree and the loop end in the same way.
-/

namespace Lox

namespace Lexical

/-! ### The loop as it stands -/

def flowOf (act : Run (Flow × Scope)) : Run Flow := do
  let (flow, _) ← act
  return flow

/-- Whether there is another round; without a condition there always is. -/
def holds (n : Nat) (locals : Locals) : Option Expr → Run Bool
  | none => return true
  | some condition => return (← eval n locals condition).isTruthy

def advance (n : Nat) (locals : Locals) : Option Expr → Run Unit
  | none => return ()
  | some increment => do let _ ← eval n locals increment

/-- The rounds of a `for`. A body that breaks or returns is the last one, and the increment does not
come after it. -/
def repeatFor (condition : Run Bool) (body : Run Flow) (increment : Run Unit) :
    (fuel : Nat) → Run Flow
  | 0 => throw .outOfFuel
  | n + 1 => do
    if ← condition then
      match ← body with
      | .normal => do
        increment
        repeatFor condition body increment n
      | .break => return .normal
      | .return v => return .return v
    else return .normal

/-- The scope of a `for`, inside the one that it stands in, with what its initializer declares. -/
def openFor (n : Nat) (locals : Locals) : Option Stmt → Run Scope
  | none => return .inside locals
  | some initializer => do
    let (_, scope) ← exec n (.inside locals) initializer
    return scope

/-- A `for` where these names are in sight. What it declares is in sight for its own parts alone. -/
def execFor (n : Nat) (locals : Locals) (initializer : Option Stmt)
    (condition increment : Option Expr) (body : Stmt) : Run Flow := do
  let scope ← openFor n locals initializer
  repeatFor (holds n scope.locals condition) (flowOf (exec n (.inside scope.locals) body))
    (advance n scope.locals increment) n

/-! ### Statements that declare nothing -/

/-- It is all the same to the statement whether it stands at the top or in a block, and it leaves
the scope as it was. -/
def Stays (s : Stmt) : Prop :=
  ∀ n scope, exec n scope s = do
    let (flow, _) ← exec n (.inside scope.locals) s
    return (flow, scope)

theorem Stays.flowOf_exec {s : Stmt} (h : Stays s) (n : Nat) (scope : Scope) :
    flowOf (exec n scope s) = flowOf (exec n (.inside scope.locals) s) := by
  rw [h n scope]
  simp only [flowOf, bind_assoc, pure_bind]

/-- By induction on the fuel: only the branches of an `if` are run in its own scope. -/
theorem stays_of_scoped {far : NodeId → Option Nat → Prop} {scopes : Scopes} {s : Stmt}
    (hs : s.Scoped far scopes) (hd : s.declared? = none) : Stays s := by
  intro n
  induction n generalizing s with
  | zero => exact fun _ => rfl
  | succ n ih =>
    intro scope
    cases s with
    | expression value => simp only [exec, bind_assoc, pure_bind, Scope.locals]
    | print value => simp only [exec, bind_assoc, pure_bind, Scope.locals]
    | block body => simp only [exec, bind_assoc, pure_bind, Scope.locals]
    | «if» condition thenBranch elseBranch =>
      have hthen : thenBranch.declared? = none ∧ thenBranch.Scoped far scopes := by
        cases elseBranch with
        | none => exact hs.2
        | some _ => exact hs.2.1
      simp only [exec, bind_assoc]
      refine bind_congr fun v => ?_
      split
      · exact ih hthen.2 hthen.1 scope
      · cases elseBranch with
        | none => rfl
        | some elseBranch => exact ih hs.2.2.2 hs.2.2.1 scope
    | «while» condition body =>
      simp only [exec, ih hs.2.2 hs.2.1 scope, bind_assoc, pure_bind, Scope.locals]
    | «return» keyword value =>
      cases value with
      | none => rfl
      | some value => simp only [exec, bind_assoc, pure_bind, Scope.locals]
    | «break» => rfl
    | _ => cases hd

/-! ### The tree of a loop -/

/-- A round whose end is that of the body, or normal after the increment. -/
def once (body : Run Flow) (increment : Run Unit) : Run Flow := do
  match ← body with
  | .normal => do
    increment
    return .normal
  | flow => return flow

theorem repeatWhile_once (condition : Run Value) (body : Run Flow) (increment : Run Unit)
    (n : Nat) : repeatWhile condition (once body increment) n =
      repeatFor (do return (← condition).isTruthy) body increment n := by
  induction n with
  | zero => rfl
  | succ n ih =>
    simp only [repeatWhile, repeatFor, once, bind_assoc, pure_bind]
    refine bind_congr fun v => ?_
    split
    · refine bind_congr fun flow => ?_
      cases flow with
      | normal => simp only [bind_assoc, pure_bind, ← ih, once]
      | _ => rfl
    · rfl

theorem curtails_once {body body' : Run Flow} {increment increment' : Run Unit}
    (hb : Curtails body body') (hi : Curtails increment increment') :
    Curtails (once body increment) (once body' increment') := by
  refine hb.bind fun flow => ?_
  cases flow with
  | normal => exact hi.bind fun _ => .refl _
  | _ => exact .refl _

theorem curtails_repeatFor {condition condition' : Run Bool} {body body' : Run Flow}
    {increment increment' : Run Unit} (hc : Curtails condition condition')
    (hb : Curtails body body') (hi : Curtails increment increment') {rounds rounds' : Nat}
    (hr : rounds ≤ rounds') :
    Curtails (repeatFor condition body increment rounds)
      (repeatFor condition' body' increment' rounds') := by
  induction rounds generalizing rounds' with
  | zero => exact .outOfFuel _
  | succ rounds ih =>
    obtain ⟨rounds', rfl⟩ := Nat.exists_eq_add_of_le' hr
    refine hc.bind fun again => ?_
    split
    · refine hb.bind fun flow => ?_
      cases flow with
      | normal => exact hi.bind fun _ => ih (Nat.le_of_succ_le_succ hr)
      | _ => exact .refl _
    · exact .refl _

/-- The condition that the tree has instead of none. -/
def always : Expr := .literal (.bool true)

def truth (condition : Run Value) : Run Bool := do
  return (← condition).isTruthy

theorem curtails_holds {k n : Nat} (h : k ≤ n) (locals : Locals) (condition : Option Expr) :
    Curtails (truth (eval k locals (condition.getD always))) (holds n locals condition) := by
  cases condition with
  | none =>
    cases k with
    | zero => exact .outOfFuel _
    | succ k => exact .refl _
  | some condition => exact ((larger h).eval locals condition).bind fun _ => .refl _

theorem holds_curtails {k n : Nat} (h : n < k) (locals : Locals) (condition : Option Expr) :
    Curtails (holds n locals condition) (truth (eval k locals (condition.getD always))) := by
  cases condition with
  | none =>
    obtain ⟨k, rfl⟩ := Nat.exists_eq_add_of_le' (Nat.one_le_of_lt h)
    exact .refl _
  | some condition => exact ((larger h.le).eval locals condition).bind fun _ => .refl _

/-- The body that the `while` has. -/
def roundBody (body : Stmt) : Option Expr → Stmt
  | none => body
  | some increment => .block [body, .expression increment]

theorem once_pure (body : Run Flow) : once body (return ()) = body := by
  refine (bind_congr fun flow => ?_).trans (bind_pure body)
  cases flow <;> rfl

theorem flowOf_block (n : Nat) (scope : Scope) (ss : List Stmt) :
    flowOf (exec (n + 1) scope (.block ss)) = runAll (exec n) (.inside scope.locals) ss := by
  rw [exec]
  simp only [flowOf, bind_assoc, pure_bind, bind_pure]

/-- The increment finds the names in sight that the body found. -/
theorem flowOf_roundBlock {body : Stmt} (hb : Stays body) (n : Nat) (scope : Scope)
    (increment : Expr) :
    flowOf (exec (n + 2) scope (.block [body, .expression increment])) =
      once (flowOf (exec (n + 1) (.inside scope.locals) body))
        (advance n scope.locals (some increment)) := by
  have hexpression : ∀ scope, exec (n + 1) scope (.expression increment) = do
      let _ ← eval n scope.locals increment
      return (.normal, scope) := fun _ => by rw [exec]
  rw [flowOf_block, runAll, hb]
  simp only [flowOf, once, advance, bind_assoc, pure_bind]
  refine bind_congr fun out => ?_
  rcases out.1 with _ | _ | v
  case normal => simp only [runAll, hexpression, bind_assoc, pure_bind, Scope.locals]
  case «break» => rfl
  case «return» => rfl

/-! ### More or less fuel -/

theorem curtails_flowOf {act other : Run (Flow × Scope)} (h : Curtails act other) :
    Curtails (flowOf act) (flowOf other) :=
  h.bind fun _ => .refl _

theorem curtails_advance {n n' : Nat} (h : n ≤ n') (locals : Locals) (increment : Option Expr) :
    Curtails (advance n locals increment) (advance n' locals increment) := by
  cases increment with
  | none => exact .refl _
  | some increment => exact ((larger h).eval locals increment).bind fun _ => .refl _

variable {body : Stmt} {k n : Nat}

theorem curtails_round (hb : Stays body) (h : k ≤ n) (scope : Scope) (increment : Option Expr) :
    Curtails (flowOf (exec k scope (roundBody body increment)))
      (once (flowOf (exec n (.inside scope.locals) body)) (advance n scope.locals increment)) := by
  cases increment with
  | none =>
    rw [advance, once_pure, roundBody, hb.flowOf_exec k scope]
    exact curtails_flowOf ((larger h).exec _ body)
  | some increment =>
    match k with
    | 0 => exact .outOfFuel _
    | 1 => exact .outOfFuel _
    | k + 2 =>
      rw [roundBody, flowOf_roundBlock hb]
      exact curtails_once (curtails_flowOf ((larger (by omega)).exec _ body))
        (curtails_advance (by omega) _ _)

theorem round_curtails (hb : Stays body) (h : n + 2 ≤ k) (scope : Scope)
    (increment : Option Expr) :
    Curtails
      (once (flowOf (exec n (.inside scope.locals) body)) (advance n scope.locals increment))
      (flowOf (exec k scope (roundBody body increment))) := by
  cases increment with
  | none =>
    rw [advance, once_pure, roundBody, hb.flowOf_exec k scope]
    exact curtails_flowOf ((larger (by omega)).exec _ body)
  | some increment =>
    obtain ⟨k, rfl⟩ := Nat.exists_eq_add_of_le' (Nat.le_of_add_left_le h)
    rw [roundBody, flowOf_roundBlock hb]
    exact curtails_once (curtails_flowOf ((larger (by omega)).exec _ body))
      (curtails_advance (by omega) _ _)

/-- The `while` that the tree of a loop has. -/
def whileOf (condition increment : Option Expr) (body : Stmt) : Stmt :=
  .while (condition.getD always) (roundBody body increment)

theorem flowOf_while (n : Nat) (scope : Scope) (condition increment : Option Expr)
    (body : Stmt) :
    flowOf (exec (n + 1) scope (whileOf condition increment body)) =
      repeatWhile (eval n scope.locals (condition.getD always))
        (flowOf (exec n scope (roundBody body increment))) n := by
  rw [whileOf, exec]
  simp only [flowOf, bind_assoc, pure_bind, bind_pure]

theorem curtails_while (hb : Stays body) (h : k ≤ n) (scope : Scope)
    (condition increment : Option Expr) :
    Curtails (flowOf (exec k scope (whileOf condition increment body)))
      (repeatFor (holds n scope.locals condition)
        (flowOf (exec n (.inside scope.locals) body)) (advance n scope.locals increment) n) := by
  cases k with
  | zero => exact .outOfFuel _
  | succ k =>
    have hk : k ≤ n := Nat.le_of_succ_le h
    rw [flowOf_while]
    refine (curtails_repeatWhile (.refl _) (curtails_round hb hk scope increment) hk).trans ?_
    rw [repeatWhile_once]
    exact curtails_repeatFor (curtails_holds hk _ _) (.refl _) (.refl _) le_rfl

theorem while_curtails (hb : Stays body) (h : n + 3 ≤ k) (scope : Scope)
    (condition increment : Option Expr) :
    Curtails (repeatFor (holds n scope.locals condition)
        (flowOf (exec n (.inside scope.locals) body)) (advance n scope.locals increment) n)
      (flowOf (exec k scope (whileOf condition increment body))) := by
  obtain ⟨k, rfl⟩ := Nat.exists_eq_add_of_le' (Nat.le_of_add_left_le h : 1 ≤ k)
  have hk : n + 2 ≤ k := Nat.le_of_succ_le_succ h
  rw [flowOf_while]
  refine .trans ?_ (curtails_repeatWhile (.refl _) (round_curtails hb hk scope increment)
    (by omega : n ≤ k))
  rw [repeatWhile_once]
  exact curtails_repeatFor (holds_curtails (by omega) _ _) (.refl _) (.refl _) le_rfl

/-- The statement ends normally or it stops. -/
def Settles (s : Stmt) : Prop :=
  ∀ n scope, exec n scope s = do
    let (_, scope) ← exec n scope s
    return (.normal, scope)

theorem settles_expression (value : Expr) : Settles (.expression value) := by
  rintro (_ | n) scope
  · rfl
  · simp only [exec, bind_assoc, pure_bind]

theorem settles_var (name : Token) (value : Option Expr) : Settles (.var name value) := by
  rintro (_ | n) scope
  · rfl
  · cases value <;> simp only [exec, bind_assoc, pure_bind]

/-- The initializer leaves its scope to the rest of the block. -/
theorem flowOf_opened {initializer : Stmt} (hi : Settles initializer) (n : Nat) (scope : Scope)
    (s : Stmt) :
    flowOf (exec (n + 1) scope (.block [initializer, s])) =
      openFor n scope.locals (some initializer) >>= fun inner => flowOf (exec n inner s) := by
  rw [flowOf_block, runAll, hi]
  simp only [openFor, bind_assoc, pure_bind]
  refine bind_congr fun out => ?_
  rw [runAll]
  refine (bind_congr fun last => ?_).trans rfl
  obtain ⟨flow, scope⟩ := last
  cases flow <;> rfl

open Grammar (loop)

theorem loop_eq (initializer : Option Stmt) (condition increment : Option Expr) (body : Stmt) :
    loop initializer condition increment body =
      match initializer with
      | none => whileOf condition increment body
      | some s => .block [s, whileOf condition increment body] := by
  cases initializer <;> cases increment <;> rfl

theorem curtails_openFor (h : k ≤ n) (locals : Locals) (initializer : Option Stmt) :
    Curtails (openFor k locals initializer) (openFor n locals initializer) := by
  cases initializer with
  | none => exact .refl _
  | some s => exact ((larger h).exec _ s).bind fun _ => .refl _

/-- A tree that ends does what the loop does with the same fuel. -/
theorem curtails_execFor {initializer : Option Stmt} (hi : ∀ s ∈ initializer, Settles s)
    (hb : Stays body) (n : Nat) (scope : Scope) (condition increment : Option Expr) :
    Curtails (flowOf (exec n scope (loop initializer condition increment body)))
      (execFor n scope.locals initializer condition increment body) := by
  rw [loop_eq]
  cases initializer with
  | none => exact curtails_while hb le_rfl scope condition increment
  | some s =>
    cases n with
    | zero => exact .outOfFuel _
    | succ n =>
      rw [flowOf_opened (hi s rfl)]
      exact (curtails_openFor n.le_succ _ _).bind fun inner =>
        curtails_while hb n.le_succ inner condition increment

/-- A loop that ends does what the tree does with more fuel, one unit for each block, for the
`while` and for the statement that the increment is. -/
theorem execFor_curtails {initializer : Option Stmt} (hi : ∀ s ∈ initializer, Settles s)
    (hb : Stays body) (n : Nat) (scope : Scope) (condition increment : Option Expr) :
    Curtails (execFor n scope.locals initializer condition increment body)
      (flowOf (exec (n + 4) scope (loop initializer condition increment body))) := by
  rw [loop_eq]
  cases initializer with
  | none => exact while_curtails hb (by omega) scope condition increment
  | some s =>
    rw [flowOf_opened (hi s rfl)]
    exact (curtails_openFor (by omega) _ _).bind fun inner =>
      while_curtails hb le_rfl inner condition increment

/-! ### Loops in a text -/

/-- The runs of the machine and by name end alike: with the same flow, or for the same reason, in
twins again. What follows finds the names in sight that were in sight before. -/
inductive EndsAlike (t : SoundTwin) (scopes : Scopes) (scope : Scope) :
    EStateM.Result Stop Machine Flow → EStateM.Result Stop State Flow → Prop
  | ok {u : SoundTwin} {flow : Flow} : Twin.Leads false t.1 u.1 → At u.1 scopes scope →
    EndsAlike t scopes scope (.ok flow u.1.machine) (.ok flow u.1.lexical)
  | error {u : SoundTwin} {stop : Stop} : Twin.Leads false t.1 u.1 → stop.isInternal = false →
    EndsAlike t scopes scope (.error stop u.1.machine) (.error stop u.1.lexical)

theorem EndsAlike.error_left {t : SoundTwin} {scopes : Scopes} {scope : Scope}
    {result : EStateM.Result Stop Machine Flow} {stop : Stop} {r : State}
    (h : EndsAlike t scopes scope result (.error stop r)) : ∃ m, result = .error stop m := by
  cases h
  exact ⟨_, rfl⟩

theorem EndsAlike.of_exec {t : SoundTwin} {scopes : Scopes} {scope : Scope} {s : Stmt}
    (ha : At t.1 scopes scope) (hs : s.Scoped t.1.far scopes) (hd : s.declared? = none) (n : Nat) :
    EndsAlike t scopes scope (s.exec n t.1.machine) (flowOf (exec n scope s) t.1.lexical) := by
  have h := (agrees n).exec ha hs
  rw [hd] at h
  have h : (twins false).Runs t (s.exec n) (flowOf (exec n scope s)) SameFlow :=
    Pairing.RunsFrom.mapRight Prod.fst h (fun _ => rfl) fun _ _ _ _ h => h.1
  have h := h fun _ _ _ => id
  simp only [twins] at h
  split at h
  · next hl hr =>
    obtain ⟨u, rfl, rfl, hu, rfl, -⟩ := h
    rw [hl, hr]
    exact .ok hu (ha.after hu)
  · next hl hr =>
    obtain ⟨⟨rfl, hstop⟩, u, rfl, rfl, hu⟩ := h
    rw [hl, hr]
    exact .error hu hstop
  · exact h.elim

end Lexical

namespace Grammar

/-- The clauses and the body of a `for`, after the word. -/
inductive Clauses (nearest dangles : Bool) : Nat → List Token → Option Stmt → Option Expr →
    Option Expr → Stmt → Nat → Prop
  | mk {a b c d e : Nat} {opening semicolon closing : Token} {ts us vs ws : List Token}
      {initializer : Option Stmt} {condition increment : Option Expr} {body : Stmt} :
    opening.kind = .punct .leftParen → ForInitializer a ts initializer b →
    OptionalExpression b us condition c → semicolon.kind = .punct .semicolon →
    OptionalExpression c vs increment d → closing.kind = .punct .rightParen →
    Statement nearest dangles d ws body e →
    Clauses nearest dangles a (opening :: ts ++ us ++ semicolon :: vs ++ closing :: ws)
      initializer condition increment body e

variable {nearest dangles : Bool} {a b : Nat} {keyword : Token} {ts : List Token} {s : Stmt}

/-- A statement that begins with the word `for` is the loop of its clauses. -/
theorem Statement.clauses (h : Statement nearest dangles a (keyword :: ts) s b)
    (hk : keyword.kind = .keyword .for) :
    ∃ initializer condition increment body,
      Clauses nearest dangles a ts initializer condition increment body b ∧
        s = loop initializer condition increment body := by
  generalize hts : keyword :: ts = us at h
  cases h with
  | «for» _ ho hi hc hs hn hl hb =>
    cases hts
    exact ⟨_, _, _, _, .mk ho hi hc hs hn hl hb, rfl⟩
  | expression h =>
    obtain ⟨t, us, rfl, ht⟩ := h.begins
    cases hts
    rw [hk] at ht
    cases ht with
    | negates h => cases h
    | denotes h => cases h
  | ifThen h | ifElse h | «while» h | block h | print h | «return» h | «break» h =>
    cases hts
    rw [hk] at h
    cases h

theorem ForInitializer.settles {initializer : Option Stmt}
    (h : ForInitializer a ts initializer b) : ∀ s ∈ initializer, Lexical.Settles s := by
  rintro s ⟨⟩
  cases h with
  | var _ hv => cases hv <;> exact Lexical.settles_var _ _
  | expression he => cases he with | mk => exact Lexical.settles_expression _

theorem Clauses.settles {initializer : Option Stmt} {condition increment : Option Expr}
    {body : Stmt} (h : Clauses nearest dangles a ts initializer condition increment body b) :
    (∀ s ∈ initializer, Lexical.Settles s) ∧ body.declared? = none := by
  cases h with
  | mk _ hi _ _ _ _ hb =>
    exact ⟨hi.settles, (hb.fits fun _ _ => (trivial : True)).2⟩

end Grammar

open Lexical

/-- Somewhere in a loop that is scoped its body is. -/
theorem Stmt.Scoped.body_of_loop {far : NodeId → Option Nat → Prop} {scopes : Scopes}
    {initializer : Option Stmt} {condition increment : Option Expr} {body : Stmt}
    (h : (Grammar.loop initializer condition increment body).Scoped far scopes) :
    ∃ inner, body.Scoped far inner := by
  have hwhile : ∀ scopes, (whileOf condition increment body).Scoped far scopes →
      ∃ inner, body.Scoped far inner := by
    rintro scopes ⟨-, -, h⟩
    cases increment with
    | none => exact ⟨_, h⟩
    | some increment => exact ⟨_, h.1⟩
  rw [loop_eq] at h
  cases initializer with
  | none => exact hwhile _ h
  | some s => exact hwhile _ h.2.1

theorem Stmt.declared?_loop (initializer : Option Stmt) (condition increment : Option Expr)
    (body : Stmt) : (Grammar.loop initializer condition increment body).declared? = none := by
  rw [loop_eq]
  cases initializer <;> rfl

namespace Session

variable {s : Session} {held : List Value}

/-- Wherever a run comes to what the parser makes of a `for`, that tree does what the loop of the
clauses does that the parser has taken: with the same fuel, unless the tree runs out of it, and with
a little more, unless the loop does. -/
theorem Reached.for_loop (h : s.Reached held) {fuel : Nat} {before after : Parser.State}
    {keyword : Token} {rest : List Token} {tree : Stmt} (hb : before.ahead = keyword :: rest)
    (hk : keyword.kind = .keyword .for) (hp : Parser.statement fuel before = .ok tree after) :
    ∃ ts dangles initializer condition increment body,
      rest = ts ++ after.ahead ∧
      Grammar.Clauses true dangles before.nextId ts initializer condition increment body
        after.nextId ∧
      ∀ k m, s.Passes ⟨k, .exec tree, m⟩ →
        ∃ (t : SoundTwin) (scopes : Scopes) (scope : Scope),
          t.1.machine = m ∧ At t.1 scopes scope ∧ ∀ n,
            let direct :=
              execFor n scope.locals initializer condition increment body t.1.lexical
            ((∃ m', tree.exec n m = .error .outOfFuel m') ∨
              EndsAlike t scopes scope (tree.exec n m) direct) ∧
            ((∃ r, direct = .error .outOfFuel r) ∨
              EndsAlike t scopes scope (tree.exec (n + 4) m) direct) := by
  obtain ⟨us, hus, dangles, hs, -⟩ := (Parser.derivesStatements fuel).statement before _ _ hp
  obtain ⟨t, ts, rfl, -⟩ := hs.begins
  obtain ⟨rfl, rfl⟩ := List.cons.inj (hb.symm.trans hus)
  obtain ⟨initializer, condition, increment, body, hclauses, rfl⟩ := hs.clauses hk
  refine ⟨ts, dangles, initializer, condition, increment, body, rfl, hclauses, fun k m hp => ?_⟩
  obtain ⟨t, rfl, scopes, scope, hat, hscoped⟩ := h.passes_sound hp
  obtain ⟨hi, hd⟩ := hclauses.settles
  obtain ⟨inner, hinner⟩ := hscoped.body_of_loop
  have hbody := stays_of_scoped hinner hd
  have htree := fun n => EndsAlike.of_exec hat hscoped
    (Stmt.declared?_loop initializer condition increment body) n
  refine ⟨t, scopes, scope, rfl, hat, fun n => ⟨?_, ?_⟩⟩
  · rcases curtails_execFor hi hbody n scope condition increment t.1.lexical with ⟨r, hr⟩ | hr
    · exact .inl (hr ▸ htree n).error_left
    · rw [hr]
      exact .inr (htree n)
  · rcases execFor_curtails hi hbody n scope condition increment t.1.lexical with hr | hr
    · exact .inl hr
    · rw [← hr]
      exact .inr (htree (n + 4))

/-- A `for` with every clause, at the top of a first input. -/
theorem for_loop_clauses :
    let s := start (fun _ => 0) none
    let a : Token := ⟨.identifier, "a", 1⟩
    let mark (p : Punct) (text : String) : Token := ⟨.punct p, text, 1⟩
    let word (k : Keyword) (text : String) : Token := ⟨.keyword k, text, 1⟩
    let rest := [mark .leftParen "(", word .var "var", a, mark .equal "=", word .true "true",
      mark .semicolon ";", a, mark .semicolon ";", a, mark .equal "=", word .nil "nil",
      mark .rightParen ")", word .print "print", a, mark .semicolon ";"]
    let tree := Stmt.block [.var a (some (.literal (.bool true))),
      .while (.variable ⟨0⟩ a)
        (.block [.print (.variable ⟨3⟩ a), .expression (.assign ⟨2⟩ a (.literal .nil))])]
    let m := s.machine.noteAll (Scope.resolve [tree]).distances
    Reached s [] ∧ s.Passes ⟨8, .exec tree, m⟩ ∧
      ∃ dangles initializer condition increment body,
        Grammar.Clauses true dangles 0 rest initializer condition increment body 4 ∧
        ∃ (t : SoundTwin) (scopes : Scopes) (scope : Scope), t.1.machine = m ∧ At t.1 scopes scope ∧
          ∀ n, (∃ m', tree.exec n m = .error .outOfFuel m') ∨
            EndsAlike t scopes scope (tree.exec n m)
              (execFor n scope.locals initializer condition increment body t.1.lexical) := by
  intro s a mark word rest tree m
  have hreached : Reached s [] := .start _ _
  have hprogram : (Source.program? "for (var a = true; a; a = nil) print a;" s.nextId).1 =
      .ok [tree] := by cbv
  have hresolved : (Scope.resolve [tree]).errors = #[] := by decide
  have hpoint : s.Passes ⟨8, .exec tree, m⟩ :=
    .enters (.begins (.run 8 hprogram hresolved)) .atTop
  have hparse : Parser.statement 40 ⟨word .for "for" :: rest, ⟨.eof, "", 1⟩, 0⟩ =
      .ok tree ⟨[], ⟨.eof, "", 1⟩, 4⟩ := by cbv
  obtain ⟨ts, dangles, initializer, condition, increment, body, hts, hclauses, hloop⟩ :=
    hreached.for_loop rfl rfl hparse
  obtain ⟨t, scopes, scope, ht, hat, hends⟩ := hloop 8 m hpoint
  rw [List.append_nil] at hts
  exact ⟨hreached, hpoint, dangles, initializer, condition, increment, body, hts ▸ hclauses, t,
    scopes, scope, ht, hat, fun n => (hends n).1⟩

end Session

end Lox
