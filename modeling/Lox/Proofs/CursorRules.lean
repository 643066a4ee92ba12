import Lox.Proofs.Recognition
import Lox.Proofs.TokenCursor

/-!
# Rules over positions follow the rules with fuel

Each rule over positions does what its counterpart does on the tokens ahead, if its calls may nest
as deep as there is fuel: it ends with the same tree or the same error, at the place where as many
tokens are left.
-/

namespace Lox.Parser.Tape

variable {x : Tape} {c : Cursor} {α β : Type} {goal goal' n d : Nat}

/-- From the cursor the rule over positions ends as the rule with fuel does. It does not look
outside the list, and where it succeeds it has come to `goal` at least. -/
inductive Follows {α : Type} (x : Tape) (c : Cursor) (goal : Nat) (p : Parser α) (q : Reading α) :
    Prop
  | ok (a : α) (c' : Cursor) (held : x.Holds c') (le : goal ≤ c'.current)
      (left : p (x.state c) = .ok a (x.state c')) (right : q.run.run c = some (.ok a, c'))
  | error (e : Error) (c' : Cursor) (held : x.Holds c')
      (left : p (x.state c) = .error e (x.state c'))
      (right : q.run.run c = some (.error (.error e), c'))

namespace Follows

variable {p : Parser α} {q : Reading α} {f : α → Parser β} {g : α → Reading β}

theorem pure (held : x.Holds c) (le : goal ≤ c.current) (a : α) :
    x.Follows c goal (Pure.pure a) (Pure.pure a) := .ok a c held le rfl rfl

/-- What runs like a pair of rules from a later cursor. -/
theorem of_runs {c' : Cursor} {p' : Parser α} {q' : Reading α} (h : x.Follows c' goal p q)
    (hp : p' (x.state c) = p (x.state c')) (hq : q'.run.run c = q.run.run c') :
    x.Follows c goal p' q' := by
  obtain ⟨a, c₁, held, le, left, right⟩ | ⟨e, c₁, held, left, right⟩ := h
  · exact .ok a c₁ held le (hp.trans left) (hq.trans right)
  · exact .error e c₁ held (hp.trans left) (hq.trans right)

theorem mono (h : x.Follows c goal p q) (le : goal' ≤ goal) : x.Follows c goal' p q := by
  obtain ⟨a, c', held, hle, left, right⟩ | ⟨e, c', held, left, right⟩ := h
  · exact .ok a c' held (Nat.le_trans le hle) left right
  · exact .error e c' held left right

theorem bind (h : x.Follows c goal p q)
    (hf : ∀ a c', x.Holds c' → goal ≤ c'.current → x.Follows c' goal' (f a) (g a)) :
    x.Follows c goal' (p >>= f) (q >>= g) := by
  obtain ⟨a, c', held, le, left, right⟩ | ⟨e, c', held, left, right⟩ := h
  · refine (hf a c' held le).of_runs ?_ (Reading.run_bind_ok right)
    simp only [Bind.bind, EStateM.bind, left]
  · refine .error e c' held ?_ (Reading.run_bind_error right)
    simp only [Bind.bind, EStateM.bind, left]

theorem ite {b : Bool} {p' : Parser α} {q' : Reading α} (ht : x.Follows c goal p q)
    (hf : x.Follows c goal p' q') :
    x.Follows c goal (if b then p else p') (if b then q else q') := by
  cases b with
  | true => exact ht
  | false => exact hf

theorem throw (held : x.Holds c) (t : Token) (cause : Cause) :
    x.Follows c goal (throw ⟨t, cause⟩ : Parser α) (Cursor.blame t cause) :=
  .error _ c held rfl rfl

theorem fail (held : x.Holds c) (cause : Cause) :
    x.Follows c goal (Parser.fail cause : Parser α)
      (Cursor.peek >>= fun t => Cursor.blame t cause) :=
  .error _ c held rfl (Reading.run_bind_ok (peek_run held))

theorem previous {t : Token} {g : Token → Reading α} (held : x.Holds c) (ht : x.Behind c t)
    (h : x.Follows c goal p (g t)) : x.Follows c goal p (Cursor.previous >>= g) :=
  h.of_runs rfl (Reading.run_bind_ok (previous_run held ht))

/-- Either the next token is not wanted, or the cursor goes on and has it behind. -/
theorem takesIf {wanted : Kind → Bool} {f : Option Token → Parser β} {g : Bool → Reading β}
    (held : x.Holds c) (hn : x.Follows c goal (f none) (g false))
    (hs : ∀ t c', x.Holds c' → c'.current = c.current + 1 → x.Behind c' t →
      x.Follows c' goal (f (some t)) (g true)) :
    x.Follows c goal (acceptIf wanted >>= f) (Cursor.takesIf wanted >>= g) := by
  unfold Cursor.takesIf
  obtain ⟨left, hcheck⟩ | ⟨t, held', ht, left, hcheck, hadvance⟩ := next_cases held wanted
  · refine hn.of_runs ?_ (Reading.run_bind_ok ?_)
    · simp only [Bind.bind, EStateM.bind, left]
    · rw [Reading.run_bind_ok hcheck]
      rfl
  · refine (hs t c.step held' rfl ht).of_runs ?_ (Reading.run_bind_ok ?_)
    · simp only [Bind.bind, EStateM.bind, left]
    · rw [Reading.run_bind_ok hcheck]
      exact Reading.run_bind_ok hadvance

/-- A branch on whether a token is the next one, where nothing depends on the token itself. -/
theorem branch {kind : Kind} {p' : Parser α} {q' : Reading α} (held : x.Holds c)
    (ht : ∀ c', x.Holds c' → c'.current = c.current + 1 → x.Follows c' goal p q)
    (hf : x.Follows c goal p' q') :
    x.Follows c goal (accept kind >>= fun o => if o.isSome then p else p')
      (Cursor.takes kind >>= fun b => if b then q else q') :=
  takesIf held hf fun _ c' held' heq _ => ht c' held' heq

theorem expect (held : x.Holds c) (kind : Kind) (cause : Cause) :
    x.Follows c (c.current + 1) (Parser.expect kind cause) (Cursor.consume kind cause) := by
  unfold Cursor.consume Cursor.check
  obtain ⟨left, hcheck⟩ | ⟨t, held', _, left, hcheck, hadvance⟩ := next_cases held (· == kind)
  · refine (fail held cause).of_runs ?_ ?_
    · simp only [Parser.expect, accept, Bind.bind, EStateM.bind, left]
    · rw [Reading.run_bind_ok hcheck]
      rfl
  · refine .ok t c.step held' (Nat.le_refl _) ?_ ?_
    · simp only [Parser.expect, accept, Bind.bind, EStateM.bind, left]
      rfl
    · rw [Reading.run_bind_ok hcheck]
      exact hadvance

theorem check {kind : Kind} {f : Bool → Parser β} {g : Bool → Reading β} (held : x.Holds c)
    (h : ∀ b, x.Follows c goal (f b) (g b)) :
    x.Follows c goal (Parser.check kind >>= f) (Cursor.check kind >>= g) :=
  (h _).of_runs rfl (Reading.run_bind_ok (checkIf_run held _))

theorem atEnd {f : Bool → Parser β} {g : Bool → Reading β} (held : x.Holds c)
    (h : ∀ b, x.Follows c goal (f b) (g b)) :
    x.Follows c goal (Parser.atEnd >>= f) (Cursor.isAtEnd >>= g) :=
  (h _).of_runs rfl (Reading.run_bind_ok (isAtEnd_run held))

theorem freshId (held : x.Holds c) :
    x.Follows c c.current Parser.freshId Cursor.freshId :=
  .ok ⟨c.nextId⟩ { c with nextId := c.nextId + 1 } ⟨held.tokens_eq, held.positions_le⟩
    (Nat.le_refl _) rfl rfl

theorem optional (held : x.Holds c) (absent : Bool) (h : x.Follows c goal p q)
    (le : c.current ≤ goal) :
    x.Follows c c.current (Parser.optional absent p) (Cursor.optional absent q) := by
  unfold Parser.optional Cursor.optional
  refine .ite (.pure held (Nat.le_refl _) _) ?_
  exact h.bind fun a c' held' le' => .pure held' (Nat.le_trans le le') _

theorem assignTo (held : x.Holds c) (target : Expr) (equals : Token) (value : Expr) :
    x.Follows c c.current (Parser.assignTo target equals value)
      (Cursor.assignTo target equals value) := by
  cases target with
  | «variable» id name => exact (freshId held).bind fun id c' held' le => .pure held' le _
  | get object name => exact .pure held (Nat.le_refl _) _
  | _ => exact .throw held _ _

end Follows

/-! ### Expressions -/

/-- The rules for expressions, from any cursor that leaves few enough tokens for this much fuel. The
calls of the rules over positions may nest as deep as `d`. -/
structure FollowsExpressions (x : Tape) (n d : Nat) : Prop where
  expression {c : Cursor} (held : x.Holds c) (hn : 32 * (x.front.length - c.current) + 15 ≤ n) :
    x.Follows c (c.current + 1) (expression n) (Cursor.expression d)
  binary {c : Cursor} (held : x.Holds c) (level : Level)
    (hn : 32 * (x.front.length - c.current) + 14 ≤ n + 2 * level.rank) :
    x.Follows c (c.current + 1) (binary n level) (Cursor.binary d level)
  binaryRest {c : Cursor} (held : x.Holds c) (level : Level) (left : Expr)
    (hn : 32 * (x.front.length - c.current) + 1 ≤ n) :
    x.Follows c c.current (binaryRest n level left) (Cursor.binaryRest d level left)
  operand {c : Cursor} (held : x.Holds c) (level : Level)
    (hn : 32 * (x.front.length - c.current) + 13 ≤ n + 2 * level.rank) :
    x.Follows c (c.current + 1) (operand n level) (Cursor.operand d level)
  unary {c : Cursor} (held : x.Holds c) (hn : 32 * (x.front.length - c.current) + 2 ≤ n) :
    x.Follows c (c.current + 1) (unary n) (Cursor.unary d)
  callRest {c : Cursor} (held : x.Holds c) (callee : Expr)
    (hn : 32 * (x.front.length - c.current) + 1 ≤ n) :
    x.Follows c c.current (callRest n callee) (Cursor.callRest d callee)
  arguments {c : Cursor} (held : x.Holds c) (count : Nat)
    (hn : 32 * (x.front.length - c.current) + 16 ≤ n) :
    x.Follows c (c.current + 1) (arguments n count) (Cursor.arguments d count)
  primary {c : Cursor} (held : x.Holds c) (hn : 32 * (x.front.length - c.current) + 1 ≤ n) :
    x.Follows c (c.current + 1) (primary n) (Cursor.primary d)

namespace FollowsExpressions

theorem expressionSucc (h : x.FollowsExpressions n d) (held : x.Holds c)
    (hn : 32 * (x.front.length - c.current) + 15 ≤ n + 1) :
    x.Follows c (c.current + 1) (Parser.expression (n + 1)) (Cursor.expression (d + 1)) := by
  rw [Parser.expression, Cursor.expression]
  have hrank : Level.or.rank = 0 := rfl
  refine (h.binary held .or (by omega)).bind fun target c₁ held₁ le₁ => ?_
  refine .takesIf held₁ (.pure held₁ le₁ target) fun equals c₂ held₂ eq₂ behind => ?_
  refine .previous held₂ behind ?_
  have hle := held₂.current_le
  refine (h.expression held₂ (by omega)).bind fun value c₃ held₃ le₃ => ?_
  exact (Follows.assignTo held₃ target equals value).mono (by omega)

theorem binaryRestSucc (h : x.FollowsExpressions n d) (held : x.Holds c) (level : Level)
    (left : Expr) (hn : 32 * (x.front.length - c.current) + 1 ≤ n + 1) :
    x.Follows c c.current (Parser.binaryRest (n + 1) level left)
      (Cursor.binaryRest (d + 1) level left) := by
  rw [Parser.binaryRest, Cursor.binaryRest]
  refine .takesIf held (.pure held (Nat.le_refl _) left) fun operator c₁ held₁ eq₁ behind => ?_
  refine .previous held₁ behind ?_
  have hle := held₁.current_le
  refine (h.operand held₁ level (by omega)).bind fun right c₂ held₂ le₂ => ?_
  exact (h.binaryRest held₂ level _ (by omega)).mono (by omega)

theorem operandSucc (h : x.FollowsExpressions n d) (held : x.Holds c) (level : Level)
    (hn : 32 * (x.front.length - c.current) + 13 ≤ n + 1 + 2 * level.rank) :
    x.Follows c (c.current + 1) (Parser.operand (n + 1) level) (Cursor.operand (d + 1) level) := by
  rw [Parser.operand, Cursor.operand]
  cases level with
  | factor => exact h.unary held (by simp only [Level.rank] at hn; omega)
  | _ => exact h.binary held _ (by simp only [Level.rank] at hn ⊢; omega)

theorem unarySucc (h : x.FollowsExpressions n d) (held : x.Holds c)
    (hn : 32 * (x.front.length - c.current) + 2 ≤ n + 1) :
    x.Follows c (c.current + 1) (Parser.unary (n + 1)) (Cursor.unary (d + 1)) := by
  rw [Parser.unary, Cursor.unary]
  refine .takesIf held ?_ fun operator c₁ held₁ eq₁ behind => ?_
  · refine (h.primary held (by omega)).bind fun e c₁ held₁ le₁ => ?_
    exact (h.callRest held₁ e (by omega)).mono le₁
  · refine .previous held₁ behind ?_
    have hle := held₁.current_le
    refine (h.unary held₁ (by omega)).bind fun right c₂ held₂ le₂ => ?_
    exact .pure held₂ (by omega) _

theorem callRestSucc (h : x.FollowsExpressions n d) (held : x.Holds c) (callee : Expr)
    (hn : 32 * (x.front.length - c.current) + 1 ≤ n + 1) :
    x.Follows c c.current (Parser.callRest (n + 1) callee) (Cursor.callRest (d + 1) callee) := by
  rw [Parser.callRest, Cursor.callRest]
  refine .branch held (fun c₁ held₁ eq₁ => ?_) ?_
  · have hle := held₁.current_le
    have close (es : List Expr) {c₂ : Cursor} (held₂ : x.Holds c₂) (le₂ : c₁.current ≤ c₂.current) :
        x.Follows c₂ c.current
          (do
            let paren ← Parser.expect (.punct .rightParen) .argumentsClose
            Parser.callRest n (.call callee paren es))
          (do
            let paren ← Cursor.consume (.punct .rightParen) .argumentsClose
            Cursor.callRest d (.call callee paren es)) := by
      refine (Follows.expect held₂ _ _).bind fun paren c₃ held₃ le₃ => ?_
      exact (h.callRest held₃ _ (by omega)).mono (by omega)
    refine .check held₁ fun closes => .ite ?_ ?_
    · exact (Follows.pure held₁ (Nat.le_refl _) []).bind fun es c₂ held₂ le₂ => close es held₂ le₂
    · exact (h.arguments held₁ 0 (by omega)).bind fun es c₂ held₂ le₂ => close es held₂ (by omega)
  · refine .branch held (fun c₁ held₁ eq₁ => ?_) (.pure held (Nat.le_refl _) callee)
    have hle := held₁.current_le
    refine (Follows.expect held₁ _ _).bind fun name c₂ held₂ le₂ => ?_
    exact (h.callRest held₂ _ (by omega)).mono (by omega)

theorem argumentsSucc (h : x.FollowsExpressions n d) (held : x.Holds c) (count : Nat)
    (hn : 32 * (x.front.length - c.current) + 16 ≤ n + 1) :
    x.Follows c (c.current + 1) (Parser.arguments (n + 1) count)
      (Cursor.arguments (d + 1) count) := by
  rw [Parser.arguments, Cursor.arguments]
  split
  · exact .fail held _
  refine (h.expression held (by omega)).bind fun first c₁ held₁ le₁ => ?_
  refine .branch held₁ (fun c₂ held₂ eq₂ => ?_) (.pure held₁ le₁ _)
  have hle := held₂.current_le
  refine (h.arguments held₂ _ (by omega)).bind fun later c₃ held₃ le₃ => ?_
  exact .pure held₃ (by omega) _

theorem primarySucc (h : x.FollowsExpressions n d) (held : x.Holds c)
    (hn : 32 * (x.front.length - c.current) + 1 ≤ n + 1) :
    x.Follows c (c.current + 1) (Parser.primary (n + 1)) (Cursor.primary (d + 1)) := by
  rw [Parser.primary, Cursor.primary]
  refine .takesIf held ?_ fun t c₁ held₁ eq₁ behind =>
    .previous held₁ behind (.pure held₁ (by omega) _)
  refine .takesIf held ?_ fun keyword c₁ held₁ eq₁ behind => .previous held₁ behind ?_
  rotate_left
  · exact (Follows.freshId held₁).bind fun id c₂ held₂ le₂ => .pure held₂ (by omega) _
  refine .takesIf held ?_ fun keyword c₁ held₁ eq₁ behind => .previous held₁ behind ?_
  rotate_left
  · refine (Follows.expect held₁ _ _).bind fun _ c₂ held₂ le₂ => ?_
    refine (Follows.expect held₂ _ _).bind fun method c₃ held₃ le₃ => ?_
    exact (Follows.freshId held₃).bind fun id c₄ held₄ le₄ => .pure held₄ (by omega) _
  refine .takesIf held ?_ fun name c₁ held₁ eq₁ behind => .previous held₁ behind ?_
  rotate_left
  · exact (Follows.freshId held₁).bind fun id c₂ held₂ le₂ => .pure held₂ (by omega) _
  refine .takesIf held (.fail held _) fun _ c₁ held₁ eq₁ _ => ?_
  have hle := held₁.current_le
  refine (h.expression held₁ (by omega)).bind fun inner c₂ held₂ le₂ => ?_
  exact (Follows.expect held₂ _ _).bind fun _ c₃ held₃ le₃ => .pure held₃ (by omega) _

end FollowsExpressions

theorem followsExpressions (x : Tape) (hd : n ≤ d) : x.FollowsExpressions n d := by
  induction n generalizing d with
  | zero =>
    -- Without fuel there is no cursor that leaves few enough tokens.
    exact
      { expression := fun _ hn => by omega
        binary := fun _ level hn => by have := level.rank_lt; omega
        binaryRest := fun _ _ _ hn => by omega
        operand := fun _ level hn => by have := level.rank_lt; omega
        unary := fun _ hn => by omega
        callRest := fun _ _ hn => by omega
        arguments := fun _ _ hn => by omega
        primary := fun _ hn => by omega }
  | succ n ih =>
    obtain ⟨d, rfl⟩ := Nat.exists_eq_add_of_lt hd
    specialize ih (Nat.le_add_right n d)
    exact
      { expression := ih.expressionSucc
        binary := fun {c} held level hn => by
          rw [Parser.binary, Cursor.binary]
          have hrank := level.rank_lt
          refine (ih.operand held level (by omega)).bind fun left c₁ held₁ le₁ => ?_
          exact (ih.binaryRest held₁ level left (by omega)).mono le₁
        binaryRest := ih.binaryRestSucc
        operand := ih.operandSucc
        unary := ih.unarySucc
        callRest := ih.callRestSucc
        arguments := ih.argumentsSucc
        primary := ih.primarySucc }

theorem follows_expression (held : x.Holds c) (hd : n ≤ d)
    (hn : 32 * (x.front.length - c.current) + 15 ≤ n) :
    x.Follows c (c.current + 1) (expression n) (Cursor.expression d) :=
  (x.followsExpressions hd).expression held hn

/-! ### Statements -/

theorem follows_parameters (held : x.Holds c) (hd : n ≤ d) (count : Nat)
    (hn : 32 * (x.front.length - c.current) + 1 ≤ n) :
    x.Follows c (c.current + 1) (parameters n count) (Cursor.parameters d count) := by
  induction n generalizing c d count with
  | zero => omega
  | succ n ih =>
    obtain ⟨d, rfl⟩ := Nat.exists_eq_add_of_lt hd
    rw [parameters, Cursor.parameters]
    split
    · exact .fail held _
    refine (Follows.expect held _ _).bind fun first c₁ held₁ le₁ => ?_
    refine .branch held₁ (fun c₂ held₂ eq₂ => ?_) (.pure held₁ le₁ _)
    have hle := held₂.current_le
    refine (ih held₂ (Nat.le_add_right n d) _ (by omega)).bind fun later c₃ held₃ le₃ => ?_
    exact .pure held₃ (by omega) _

theorem follows_expressionStatement (held : x.Holds c) (hd : n ≤ d)
    (hn : 32 * (x.front.length - c.current) + 15 ≤ n) :
    x.Follows c (c.current + 1) (expressionStatement n) (Cursor.expressionStatement d) := by
  refine (follows_expression held hd hn).bind fun value c₁ held₁ le₁ => ?_
  exact (Follows.expect held₁ _ _).bind fun _ c₂ held₂ le₂ => .pure held₂ (by omega) _

theorem follows_varDeclaration (held : x.Holds c) (hd : n ≤ d)
    (hn : 32 * (x.front.length - c.current) ≤ n) :
    x.Follows c (c.current + 1) (varDeclaration n) (Cursor.varDeclaration d) := by
  refine (Follows.expect held _ _).bind fun name c₁ held₁ le₁ => ?_
  have tail {c₂ : Cursor} (held₂ : x.Holds c₂) (le₂ : c₁.current ≤ c₂.current) (absent : Bool) :
      x.Follows c₂ (c.current + 1)
        (do
          let initializer ← Parser.optional absent (expression n)
          let _ ← Parser.expect (.punct .semicolon) .variableEnd
          return Stmt.var name initializer)
        (do
          let initializer ← Cursor.optional absent (Cursor.expression d)
          let _ ← Cursor.consume (.punct .semicolon) .variableEnd
          return Stmt.var name initializer) := by
    have hle := held₂.current_le
    have hexpr := follows_expression held₂ hd (by omega)
    refine (hexpr.optional held₂ absent (by omega)).bind fun initializer c₃ held₃ le₃ => ?_
    exact (Follows.expect held₃ _ _).bind fun _ c₄ held₄ le₄ => .pure held₄ (by omega) _
  exact .takesIf held₁ (tail held₁ (Nat.le_refl _) true) fun _ c₂ held₂ eq₂ _ =>
    tail held₂ (by omega) false

theorem follows_condition (held : x.Holds c) (hd : n ≤ d)
    (hn : 32 * (x.front.length - c.current) ≤ n) (opening : Cause) :
    x.Follows c (c.current + 1) (condition n opening) (Cursor.condition d opening) := by
  refine (Follows.expect held _ _).bind fun _ c₁ held₁ le₁ => ?_
  have hle := held₁.current_le
  refine (follows_expression held₁ hd (by omega)).bind fun value c₂ held₂ le₂ => ?_
  exact (Follows.expect held₂ _ _).bind fun _ c₃ held₃ le₃ => .pure held₃ (by omega) _

theorem follows_forInitializer (held : x.Holds c) (hd : n ≤ d)
    (hn : 32 * (x.front.length - c.current) + 15 ≤ n) :
    x.Follows c (c.current + 1) (forInitializer n) (Cursor.forInitializer d) := by
  refine .branch held (fun c₁ held₁ eq₁ => .pure held₁ (by omega) none) ?_
  refine .branch held (fun c₁ held₁ eq₁ => ?_) ?_
  · refine (follows_varDeclaration held₁ hd (by omega)).bind fun s c₂ held₂ le₂ => ?_
    exact .pure held₂ (by omega) _
  · exact (follows_expressionStatement held hd hn).bind fun s c₁ held₁ le₁ => .pure held₁ le₁ _

/-- The rules for statements, likewise. -/
structure FollowsStatements (x : Tape) (n d : Nat) : Prop where
  depth_le : n ≤ d
  declaration {c : Cursor} (held : x.Holds c) (hn : 32 * (x.front.length - c.current) + 17 ≤ n) :
    x.Follows c (c.current + 1) (declaration n) (Cursor.declaration d)
  classDeclaration {c : Cursor} (held : x.Holds c)
    (hn : 32 * (x.front.length - c.current) + 1 ≤ n) :
    x.Follows c (c.current + 1) (classDeclaration n) (Cursor.classDeclaration d)
  methods {c : Cursor} (held : x.Holds c) (hn : 32 * (x.front.length - c.current) + 2 ≤ n) :
    x.Follows c c.current (methods n) (Cursor.methods d)
  function {c : Cursor} (held : x.Holds c) (sort : FunctionSort)
    (hn : 32 * (x.front.length - c.current) + 1 ≤ n) :
    x.Follows c (c.current + 1) (function n sort) (Cursor.function d sort)
  block {c : Cursor} (held : x.Holds c) (hn : 32 * (x.front.length - c.current) + 18 ≤ n) :
    x.Follows c c.current (block n) (Cursor.block d)
  statement {c : Cursor} (held : x.Holds c) (hn : 32 * (x.front.length - c.current) + 16 ≤ n) :
    x.Follows c (c.current + 1) (statement n) (Cursor.statement d)

namespace FollowsStatements

theorem declarationSucc (h : x.FollowsStatements n d) (held : x.Holds c)
    (hn : 32 * (x.front.length - c.current) + 17 ≤ n + 1) :
    x.Follows c (c.current + 1) (Parser.declaration (n + 1)) (Cursor.declaration (d + 1)) := by
  rw [Parser.declaration, Cursor.declaration]
  refine .branch held (fun c₁ held₁ eq₁ => ?_) ?_
  · exact (h.classDeclaration held₁ (by omega)).mono (by omega)
  refine .branch held (fun c₁ held₁ eq₁ => ?_) ?_
  · refine (h.function held₁ .function (by omega)).bind fun f c₂ held₂ le₂ => ?_
    exact .pure held₂ (by omega) _
  refine .branch held (fun c₁ held₁ eq₁ => ?_) (h.statement held (by omega))
  exact (follows_varDeclaration held₁ h.depth_le (by omega)).mono (by omega)

theorem classDeclarationSucc (h : x.FollowsStatements n d) (held : x.Holds c)
    (hn : 32 * (x.front.length - c.current) + 1 ≤ n + 1) :
    x.Follows c (c.current + 1) (Parser.classDeclaration (n + 1))
      (Cursor.classDeclaration (d + 1)) := by
  rw [Parser.classDeclaration, Cursor.classDeclaration]
  refine (Follows.expect held _ _).bind fun name c₁ held₁ le₁ => ?_
  have tail {c₂ : Cursor} (held₂ : x.Holds c₂) (le₂ : c₁.current ≤ c₂.current) (absent : Bool) :
      x.Follows c₂ (c.current + 1)
        (do
          let superclass ← Parser.optional absent do
            let name ← Parser.expect .identifier .superclassName
            return Expr.variable (← Parser.freshId) name
          let _ ← Parser.expect (.punct .leftBrace) .classOpen
          let methods ← Parser.methods n
          let _ ← Parser.expect (.punct .rightBrace) .classClose
          return Stmt.class name superclass methods)
        (do
          let superclass ← Cursor.optional absent do
            let name ← Cursor.consume .identifier .superclassName
            return Expr.variable (← Cursor.freshId) name
          let _ ← Cursor.consume (.punct .leftBrace) .classOpen
          let methods ← Cursor.methods d
          let _ ← Cursor.consume (.punct .rightBrace) .classClose
          return Stmt.class name superclass methods) := by
    have parent : x.Follows c₂ (c₂.current + 1)
        (do
          let name ← Parser.expect .identifier .superclassName
          return Expr.variable (← Parser.freshId) name)
        (do
          let name ← Cursor.consume .identifier .superclassName
          return Expr.variable (← Cursor.freshId) name) := by
      refine (Follows.expect held₂ _ _).bind fun name c₃ held₃ le₃ => ?_
      exact (Follows.freshId held₃).bind fun id c₄ held₄ le₄ => .pure held₄ (by omega) _
    refine (parent.optional held₂ absent (by omega)).bind fun superclass c₃ held₃ le₃ => ?_
    refine (Follows.expect held₃ _ _).bind fun _ c₄ held₄ le₄ => ?_
    have hle := held₄.current_le
    refine (h.methods held₄ (by omega)).bind fun methods c₅ held₅ le₅ => ?_
    exact (Follows.expect held₅ _ _).bind fun _ c₆ held₆ le₆ => .pure held₆ (by omega) _
  exact .takesIf held₁ (tail held₁ (Nat.le_refl _) true) fun _ c₂ held₂ eq₂ _ =>
    tail held₂ (by omega) false

theorem methodsSucc (h : x.FollowsStatements n d) (held : x.Holds c)
    (hn : 32 * (x.front.length - c.current) + 2 ≤ n + 1) :
    x.Follows c c.current (Parser.methods (n + 1)) (Cursor.methods (d + 1)) := by
  rw [Parser.methods, Cursor.methods]
  refine .check held fun closes => .atEnd held fun ends => ?_
  refine .ite (.pure held (Nat.le_refl _) []) ?_
  refine (h.function held .method (by omega)).bind fun f c₁ held₁ le₁ => ?_
  have hle := held₁.current_le
  refine (h.methods held₁ (by omega)).bind fun fs c₂ held₂ le₂ => ?_
  exact .pure held₂ (by omega) _

theorem functionSucc (h : x.FollowsStatements n d) (held : x.Holds c) (sort : FunctionSort)
    (hn : 32 * (x.front.length - c.current) + 1 ≤ n + 1) :
    x.Follows c (c.current + 1) (Parser.function (n + 1) sort) (Cursor.function (d + 1) sort) := by
  rw [Parser.function, Cursor.function]
  refine (Follows.expect held _ _).bind fun name c₁ held₁ le₁ => ?_
  refine (Follows.expect held₁ _ _).bind fun _ c₂ held₂ le₂ => ?_
  have hle := held₂.current_le
  have body (params : List Token) {c₃ : Cursor} (held₃ : x.Holds c₃)
      (le₃ : c₂.current ≤ c₃.current) :
      x.Follows c₃ (c.current + 1)
        (do
          let _ ← Parser.expect (.punct .rightParen) .parametersClose
          let _ ← Parser.expect (.punct .leftBrace) (.bodyOpen sort)
          return FunDecl.mk name params (← Parser.block n))
        (do
          let _ ← Cursor.consume (.punct .rightParen) .parametersClose
          let _ ← Cursor.consume (.punct .leftBrace) (.bodyOpen sort)
          return FunDecl.mk name params (← Cursor.block d)) := by
    refine (Follows.expect held₃ _ _).bind fun _ c₄ held₄ le₄ => ?_
    refine (Follows.expect held₄ _ _).bind fun _ c₅ held₅ le₅ => ?_
    have hle := held₅.current_le
    exact (h.block held₅ (by omega)).bind fun ss c₆ held₆ le₆ => .pure held₆ (by omega) _
  refine .check held₂ fun closes => .ite ?_ ?_
  · exact (Follows.pure held₂ (Nat.le_refl _) []).bind fun ps c₃ held₃ le₃ => body ps held₃ le₃
  · refine (follows_parameters held₂ h.depth_le 0 (by omega)).bind fun ps c₃ held₃ le₃ => ?_
    exact body ps held₃ (by omega)

theorem blockSucc (h : x.FollowsStatements n d) (held : x.Holds c)
    (hn : 32 * (x.front.length - c.current) + 18 ≤ n + 1) :
    x.Follows c c.current (Parser.block (n + 1)) (Cursor.block (d + 1)) := by
  rw [Parser.block, Cursor.block]
  refine .check held fun closes => .atEnd held fun ends => .ite ?_ ?_
  · exact (Follows.expect held _ _).bind fun _ c₁ held₁ le₁ => .pure held₁ (by omega) []
  refine (h.declaration held (by omega)).bind fun s c₁ held₁ le₁ => ?_
  have hle := held₁.current_le
  refine (h.block held₁ (by omega)).bind fun ss c₂ held₂ le₂ => ?_
  exact .pure held₂ (by omega) _

/-- Behind the keyword of a `for`. -/
theorem forStatement (h : x.FollowsStatements n d) (held : x.Holds c)
    (hn : 32 * (x.front.length - c.current) ≤ n) :
    x.Follows c c.current
      (do
        let _ ← Parser.expect (.punct .leftParen) .forOpen
        let initializer ← Parser.forInitializer n
        let condition ← Parser.optional (← Parser.check (.punct .semicolon)) (Parser.expression n)
        let _ ← Parser.expect (.punct .semicolon) .forConditionEnd
        let increment ← Parser.optional (← Parser.check (.punct .rightParen)) (Parser.expression n)
        let _ ← Parser.expect (.punct .rightParen) .forClose
        return forLoop initializer condition increment (← Parser.statement n))
      (Cursor.forStatement d (Cursor.statement d)) := by
  refine (Follows.expect held _ _).bind fun _ c₁ held₁ le₁ => ?_
  have hle := held₁.current_le
  have hinit := follows_forInitializer held₁ h.depth_le (by omega)
  refine hinit.bind fun initializer c₂ held₂ le₂ => ?_
  have hle₂ := held₂.current_le
  have hcond := follows_expression held₂ h.depth_le (by omega)
  refine .check held₂ fun absent => ?_
  refine (hcond.optional held₂ absent (by omega)).bind fun condition c₃ held₃ le₃ => ?_
  refine (Follows.expect held₃ _ _).bind fun _ c₄ held₄ le₄ => ?_
  have hle₄ := held₄.current_le
  have hincr := follows_expression held₄ h.depth_le (by omega)
  refine .check held₄ fun absent => ?_
  refine (hincr.optional held₄ absent (by omega)).bind fun increment c₅ held₅ le₅ => ?_
  refine (Follows.expect held₅ _ _).bind fun _ c₆ held₆ le₆ => ?_
  have hle₆ := held₆.current_le
  refine (h.statement held₆ (by omega)).bind fun body c₇ held₇ le₇ => ?_
  exact .pure held₇ (by omega) _

/-- Behind the keyword of an `if`. -/
theorem ifStatement (h : x.FollowsStatements n d) (held : x.Holds c)
    (hn : 32 * (x.front.length - c.current) ≤ n) :
    x.Follows c c.current
      (do
        let condition ← Parser.condition n .ifOpen
        let thenBranch ← Parser.statement n
        let elseBranch ← Parser.optional (← accept (.keyword .else)).isNone (Parser.statement n)
        return Stmt.if condition thenBranch elseBranch)
      (Cursor.ifStatement d (Cursor.statement d)) := by
  refine (follows_condition held h.depth_le hn _).bind fun condition c₁ held₁ le₁ => ?_
  have hle := held₁.current_le
  refine (h.statement held₁ (by omega)).bind fun thenBranch c₂ held₂ le₂ => ?_
  refine .takesIf held₂ (.pure held₂ (by omega) _) fun _ c₃ held₃ eq₃ _ => ?_
  have hle := held₃.current_le
  have some_bind (f : Option Stmt → Parser Stmt) :
      (Parser.optional false (Parser.statement n) >>= f) =
        Parser.statement n >>= fun s => f (some s) := by
    simp [Parser.optional]
  refine (some_bind _).symm ▸ ?_
  refine (h.statement held₃ (by omega)).bind fun elseBranch c₄ held₄ le₄ => ?_
  exact .pure held₄ (by omega) _

theorem statementSucc (h : x.FollowsStatements n d) (held : x.Holds c)
    (hn : 32 * (x.front.length - c.current) + 16 ≤ n + 1) :
    x.Follows c (c.current + 1) (Parser.statement (n + 1)) (Cursor.statement (d + 1)) := by
  rw [Parser.statement, Cursor.statement]
  refine .branch held (fun c₁ held₁ eq₁ => ?_) ?_
  · exact (h.forStatement held₁ (by omega)).mono (by omega)
  refine .branch held (fun c₁ held₁ eq₁ => ?_) ?_
  · exact (h.ifStatement held₁ (by omega)).mono (by omega)
  refine .branch held (fun c₁ held₁ eq₁ => ?_) ?_
  · refine (follows_condition held₁ h.depth_le (by omega) _).bind fun condition c₂ held₂ le₂ => ?_
    have hle := held₂.current_le
    refine (h.statement held₂ (by omega)).bind fun body c₃ held₃ le₃ => ?_
    exact .pure held₃ (by omega) _
  refine .branch held (fun c₁ held₁ eq₁ => ?_) ?_
  · have hle := held₁.current_le
    exact (h.block held₁ (by omega)).bind fun ss c₂ held₂ le₂ => .pure held₂ (by omega) _
  refine .branch held (fun c₁ held₁ eq₁ => ?_) ?_
  · have hle := held₁.current_le
    refine (follows_expression held₁ h.depth_le (by omega)).bind fun value c₂ held₂ le₂ => ?_
    exact (Follows.expect held₂ _ _).bind fun _ c₃ held₃ le₃ => .pure held₃ (by omega) _
  refine .takesIf held ?_ fun keyword c₁ held₁ eq₁ behind => .previous held₁ behind ?_
  rotate_left
  · have hle := held₁.current_le
    have hvalue := follows_expression held₁ h.depth_le (by omega)
    refine .check held₁ fun absent => ?_
    refine (hvalue.optional held₁ absent (by omega)).bind fun value c₂ held₂ le₂ => ?_
    exact (Follows.expect held₂ _ _).bind fun _ c₃ held₃ le₃ => .pure held₃ (by omega) _
  refine .takesIf held ?_ fun keyword c₁ held₁ eq₁ behind => .previous held₁ behind ?_
  · exact follows_expressionStatement held h.depth_le (by omega)
  · exact (Follows.expect held₁ _ _).bind fun _ c₂ held₂ le₂ => .pure held₂ (by omega) _

end FollowsStatements

theorem followsStatements (x : Tape) (hd : n ≤ d) : x.FollowsStatements n d := by
  induction n generalizing d with
  | zero =>
    exact
      { depth_le := hd
        declaration := fun _ hn => by omega
        classDeclaration := fun _ hn => by omega
        methods := fun _ hn => by omega
        function := fun _ _ hn => by omega
        block := fun _ hn => by omega
        statement := fun _ hn => by omega }
  | succ n ih =>
    obtain ⟨d, rfl⟩ := Nat.exists_eq_add_of_lt hd
    specialize ih (Nat.le_add_right n d)
    exact
      { depth_le := hd
        declaration := ih.declarationSucc
        classDeclaration := ih.classDeclarationSucc
        methods := ih.methodsSucc
        function := ih.functionSucc
        block := ih.blockSucc
        statement := ih.statementSucc }

end Lox.Parser.Tape
