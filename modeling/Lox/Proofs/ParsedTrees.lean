import Lox.Proofs.Formed
import Lox.Syntax.Parser

/-!
# What the parser makes

Whatever a rule of the grammar reads, it only drops tokens from the front and only hands out ids, also
when it fails. The trees it makes are formed, and no two occurrences in them share an id.
-/

namespace Lox

namespace Parser

variable {good : Token → Prop} {α β : Type} {x : Nat} {p : Parser α} {post : Nat → α → Prop}

/-- From good tokens, with `x` the next free id, the rule drops tokens and hands out ids; when it
succeeds, `post` holds of the next free id and the result. -/
def Reads (good : Token → Prop) (x : Nat) (p : Parser α) (post : Nat → α → Prop) : Prop :=
  ∀ s : State, s.nextId = x → (∀ t ∈ s.ahead, good t) →
    match p s with
    | .ok a s' => s'.ahead <:+ s.ahead ∧ x ≤ s'.nextId ∧ post s'.nextId a
    | .error _ s' => s'.ahead <:+ s.ahead ∧ x ≤ s'.nextId

namespace Reads

theorem pure {a : α} (h : post x a) : Reads good x (Pure.pure a) post := by
  rintro s rfl -
  exact ⟨List.suffix_rfl, le_rfl, h⟩

theorem throw (e : Error) : Reads good x (throw e : Parser α) post := by
  rintro s rfl -
  exact ⟨List.suffix_rfl, le_rfl⟩

theorem fail (cause : Cause) : Reads good x (Parser.fail cause : Parser α) post := by
  rintro s rfl -
  exact ⟨List.suffix_rfl, le_rfl⟩

theorem bind {f : α → Parser β} {post' : Nat → β → Prop} (h : Reads good x p post)
    (hf : ∀ a y, x ≤ y → post y a → Reads good y (f a) post') : Reads good x (p >>= f) post' := by
  intro s hs ht
  have hp := h s hs ht
  simp only [Bind.bind, EStateM.bind]
  rcases hr : p s with ⟨a, s'⟩ | ⟨e, s'⟩
  · rw [hr] at hp
    obtain ⟨hsub, hx, hpost⟩ := hp
    have hq := hf a s'.nextId hx hpost s' rfl fun t hm => ht t (hsub.subset hm)
    dsimp only
    rcases hr' : f a s' with ⟨b, s''⟩ | ⟨e, s''⟩
    · rw [hr'] at hq
      exact ⟨hq.1.trans hsub, hx.trans hq.2.1, hq.2.2⟩
    · rw [hr'] at hq
      exact ⟨hq.1.trans hsub, hx.trans hq.2⟩
  · rw [hr] at hp
    exact hp

theorem imp {post' : Nat → α → Prop} (h : Reads good x p post)
    (hp : ∀ y a, x ≤ y → post y a → post' y a) : Reads good x p post' := by
  intro s hs ht
  have ha := h s hs ht
  rcases hr : p s with ⟨a, s'⟩ | ⟨e, s'⟩
  · rw [hr] at ha
    exact ⟨ha.1, ha.2.1, hp _ _ ha.2.1 ha.2.2⟩
  · rw [hr] at ha
    exact ha

end Reads

/-! ### Single tokens -/

theorem reads_acceptIf (wanted : Kind → Bool) :
    Reads good x (acceptIf wanted) fun y r => y = x ∧
      ∀ t, r = some t → wanted t.kind = true ∧ good t := by
  rintro s rfl ht
  unfold acceptIf
  rcases hs : s.ahead with _ | ⟨t, rest⟩
  · exact ⟨hs ▸ List.suffix_rfl, le_rfl, rfl, by simp⟩
  · dsimp only
    by_cases hw : wanted t.kind = true
    · simp only [hw, if_true]
      refine ⟨hs ▸ List.suffix_cons t rest, le_rfl, trivial, ?_⟩
      rintro _ ⟨⟩
      exact ⟨hw, ht t (by simp [hs])⟩
    · simp only [hw]
      exact ⟨hs ▸ List.suffix_rfl, le_rfl, rfl, by simp⟩

theorem reads_accept (kind : Kind) :
    Reads good x (accept kind) fun y r => y = x ∧ ∀ t, r = some t → t.kind = kind ∧ good t :=
  (reads_acceptIf (· == kind)).imp fun _ _ _ h =>
    ⟨h.1, fun t ht => ⟨by simpa using (h.2 t ht).1, (h.2 t ht).2⟩⟩

theorem reads_check (kind : Kind) : Reads good x (check kind) fun y _ => y = x := by
  rintro s rfl -
  exact ⟨List.suffix_rfl, le_rfl, rfl⟩

theorem reads_atEnd : Reads good x atEnd fun y _ => y = x := by
  rintro s rfl -
  exact ⟨List.suffix_rfl, le_rfl, rfl⟩

theorem reads_expect (kind : Kind) (cause : Cause) :
    Reads good x (expect kind cause) fun y t => y = x ∧ t.kind = kind ∧ good t := by
  refine (reads_accept kind).bind ?_
  rintro r y - ⟨rfl, hr⟩
  cases r with
  | none => exact .fail cause
  | some t => exact .pure ⟨rfl, hr t rfl⟩

theorem reads_freshId : Reads good x freshId fun y id => y = x + 1 ∧ id = ⟨x⟩ := by
  rintro s rfl -
  exact ⟨List.suffix_rfl, Nat.le_succ _, rfl, rfl⟩

theorem reads_optional (absent : Bool) (h : Reads good x p post) :
    Reads good x (optional absent p) fun y r => (r = none ∧ y = x) ∨ ∃ a, r = some a ∧ post y a := by
  unfold optional
  cases absent with
  | true => exact .pure (.inl ⟨rfl, rfl⟩)
  | false => exact h.bind fun a y _ ha => .pure (.inr ⟨a, rfl, ha⟩)

/-! ### Expressions -/

theorem Level.node_made {level : Level} {left right : Expr} {operator : Token} {a b c : Nat}
    (hl : left.Made good a b) (hr : right.Made good b c) (ha : a ≤ b) (hb : b ≤ c) :
    (level.node left operator right).Made good a c := by
  have hf := And.intro hl.1 hr.1
  have hi := hl.2.append hr.2 ha hb
  cases level <;> exact ⟨hf, hi⟩

theorem reads_assignTo {target value : Expr} {equals : Token} {a b : Nat}
    (ht : target.Made good a b) (hv : value.Made good b x) (ha : a ≤ b) (hb : b ≤ x) :
    Reads good x (assignTo target equals value) fun y e => e.Made good a y := by
  unfold assignTo
  split
  · next id name =>
    refine reads_freshId.bind ?_
    rintro id y - ⟨rfl, rfl⟩
    have hi := hv.2.append (.single x) hb (Nat.le_succ x)
    exact .pure ⟨⟨ht.1, hv.1⟩, hi.mono ha le_rfl⟩
  · exact .pure ⟨⟨ht.1, hv.1⟩, ht.2.append hv.2 ha hb⟩
  · exact .throw _

/-- What the rules for expressions make with this much fuel. -/
structure MakesExpressions (good : Token → Prop) (n : Nat) : Prop where
  expression (x : Nat) : Reads good x (expression n) fun y e => e.Made good x y
  binary (x : Nat) (level : Level) : Reads good x (binary n level) fun y e => e.Made good x y
  binaryRest {a x : Nat} (level : Level) {left : Expr} : left.Made good a x → a ≤ x →
    Reads good x (binaryRest n level left) fun y e => e.Made good a y
  operand (x : Nat) (level : Level) : Reads good x (operand n level) fun y e => e.Made good x y
  unary (x : Nat) : Reads good x (unary n) fun y e => e.Made good x y
  callRest {a x : Nat} {callee : Expr} : callee.Made good a x → a ≤ x →
    Reads good x (callRest n callee) fun y e => e.Made good a y
  arguments (x count : Nat) : Reads good x (arguments n count) fun y es =>
    Expr.FormedAll good es ∧ Within x y (Expr.idsAll es)
  primary (x : Nat) : Reads good x (primary n) fun y e => e.Made good x y

namespace MakesExpressions

variable {n : Nat}

theorem expressionSucc (h : MakesExpressions good n) (x : Nat) :
    Reads good x (Parser.expression (n + 1)) fun y e => e.Made good x y := by
  simp only [Parser.expression]
  refine (h.binary x .or).bind ?_
  rintro target y hy ht
  refine (reads_accept _).bind ?_
  rintro r y - ⟨rfl, -⟩
  cases r with
  | none => exact .pure ht
  | some equals =>
    refine (h.expression y).bind ?_
    rintro value z hz hv
    exact reads_assignTo ht hv hy hz

theorem binaryRestSucc (h : MakesExpressions good n) {a x : Nat} (level : Level) {left : Expr}
    (hl : left.Made good a x) (ha : a ≤ x) :
    Reads good x (Parser.binaryRest (n + 1) level left) fun y e => e.Made good a y := by
  simp only [Parser.binaryRest]
  refine (reads_acceptIf _).bind ?_
  rintro r _ - ⟨rfl, -⟩
  cases r with
  | none => exact .pure hl
  | some operator =>
    refine (h.operand _ level).bind ?_
    rintro right y hy hr
    exact h.binaryRest level (Level.node_made hl hr ha hy) (ha.trans hy)

theorem unarySucc (h : MakesExpressions good n) (x : Nat) :
    Reads good x (Parser.unary (n + 1)) fun y e => e.Made good x y := by
  simp only [Parser.unary]
  refine (reads_acceptIf _).bind ?_
  rintro r _ - ⟨rfl, -⟩
  cases r with
  | none =>
    refine (h.primary _).bind ?_
    rintro e y hy he
    exact h.callRest he hy
  | some operator => exact (h.unary _).bind fun e y _ he => .pure he

theorem callRestSucc (h : MakesExpressions good n) {a x : Nat} {callee : Expr} (hc : callee.Made good a x)
    (ha : a ≤ x) : Reads good x (Parser.callRest (n + 1) callee) fun y e => e.Made good a y := by
  simp only [Parser.callRest]
  refine (reads_accept _).bind ?_
  rintro r _ - ⟨rfl, -⟩
  split
  · refine (reads_check _).bind ?_
    rintro closes x - rfl
    have close : ∀ {y : Nat} {es : List Expr}, x ≤ y →
        Expr.FormedAll good es ∧ Within x y (Expr.idsAll es) →
        Reads good y
          (do
            let paren ← expect (.punct .rightParen) .argumentsClose
            Parser.callRest n (.call callee paren es)) fun z e => e.Made good a z := by
      intro y es hy hes
      refine (reads_expect _ _).bind ?_
      rintro paren _ - ⟨rfl, -⟩
      exact h.callRest ⟨⟨hc.1, hes.1⟩, hc.2.append hes.2 ha hy⟩ (ha.trans hy)
    split
    · exact Reads.bind (.pure ⟨rfl, rfl⟩) fun es y hy (he : es = [] ∧ y = x) =>
        close hy (he.1 ▸ ⟨trivial, .nil x y⟩)
    · exact (h.arguments x 0).bind fun es y hy hes => close hy hes
  · refine (reads_accept _).bind ?_
    rintro r _ - ⟨rfl, -⟩
    split
    · refine (reads_expect _ _).bind ?_
      rintro name _ - ⟨rfl, -⟩
      exact h.callRest hc ha
    · exact .pure hc

theorem argumentsSucc (h : MakesExpressions good n) (x count : Nat) :
    Reads good x (Parser.arguments (n + 1) count) fun y es =>
      Expr.FormedAll good es ∧ Within x y (Expr.idsAll es) := by
  simp only [Parser.arguments]
  split
  · exact .fail _
  refine (h.expression x).bind ?_
  rintro first y hy hf
  refine (reads_accept _).bind ?_
  rintro r y - ⟨rfl, -⟩
  split
  · refine (h.arguments y _).bind ?_
    rintro rest z hz hr
    exact .pure ⟨⟨hf.1, hr.1⟩, hf.2.append hr.2 hy hz⟩
  · exact .pure ⟨⟨hf.1, trivial⟩, by simpa [Expr.idsAll] using hf.2⟩

theorem primarySucc (h : MakesExpressions good n) (x : Nat) :
    Reads good x (Parser.primary (n + 1)) fun y e => e.Made good x y := by
  simp only [Parser.primary]
  refine (reads_acceptIf _).bind ?_
  rintro r _ - ⟨rfl, -⟩
  cases r with
  | some t => exact .pure ⟨trivial, .nil _ _⟩
  | none =>
  refine (reads_accept _).bind ?_
  rintro r x - ⟨rfl, hr⟩
  cases r with
  | some keyword =>
    have hk := hr keyword rfl
    refine reads_freshId.bind ?_
    rintro id _ - ⟨rfl, rfl⟩
    exact .pure ⟨hk, .single x⟩
  | none =>
  refine (reads_accept _).bind ?_
  rintro r x - ⟨rfl, hr⟩
  cases r with
  | some keyword =>
    have hk := hr keyword rfl
    refine (reads_expect _ _).bind ?_
    rintro _ _ - ⟨rfl, -⟩
    refine (reads_expect _ _).bind ?_
    rintro method _ - ⟨rfl, -⟩
    refine reads_freshId.bind ?_
    rintro id _ - ⟨rfl, rfl⟩
    exact .pure ⟨hk, .single _⟩
  | none =>
  refine (reads_accept _).bind ?_
  rintro r x - ⟨rfl, hr⟩
  cases r with
  | some name =>
    have hn := hr name rfl
    refine reads_freshId.bind ?_
    rintro id _ - ⟨rfl, rfl⟩
    exact .pure ⟨hn, .single x⟩
  | none =>
  refine (reads_accept _).bind ?_
  rintro r x - ⟨rfl, -⟩
  cases r with
  | some _ =>
    refine (h.expression x).bind ?_
    rintro inner y hy hi
    refine (reads_expect _ _).bind ?_
    rintro _ _ - ⟨rfl, -⟩
    exact .pure hi
  | none => exact .fail _

end MakesExpressions

theorem makesExpressions (n : Nat) : MakesExpressions good n := by
  induction n with
  | zero =>
    exact
      { expression := fun _ => .fail _
        binary := fun _ _ => .fail _
        binaryRest := fun _ _ _ _ => .fail _
        operand := fun _ _ => .fail _
        unary := fun _ => .fail _
        callRest := fun _ _ => .fail _
        arguments := fun _ _ => .fail _
        primary := fun _ => .fail _ }
  | succ n ih =>
    exact
      { expression := ih.expressionSucc
        binary := fun x level => by
          simp only [Parser.binary]
          exact (ih.operand x level).bind fun left y hy hl => ih.binaryRest level hl hy
        binaryRest := ih.binaryRestSucc
        operand := fun x level => by
          simp only [Parser.operand]
          split
          · exact ih.binary x _
          · exact ih.unary x
        unary := ih.unarySucc
        callRest := ih.callRestSucc
        arguments := ih.argumentsSucc
        primary := ih.primarySucc }

/-! ### Statements -/

theorem reads_expression (n x : Nat) : Reads good x (expression n) fun y e => e.Made good x y :=
  (makesExpressions n).expression x

theorem reads_optionalExpression (absent : Bool) (n x : Nat) :
    Reads good x (optional absent (expression n)) fun y r =>
      Expr.FormedOption good r ∧ Within x y (Expr.idsOption r) := by
  refine (reads_optional absent (reads_expression n x)).imp ?_
  rintro y r - (⟨rfl, rfl⟩ | ⟨e, rfl, he⟩)
  · exact ⟨trivial, .nil _ _⟩
  · exact he

theorem reads_expressionStatement (n x : Nat) :
    Reads good x (expressionStatement n) fun y s => s.Made good x y ∧ s.declared? = none := by
  refine (reads_expression n x).bind ?_
  rintro value y - hv
  refine (reads_expect _ _).bind ?_
  rintro _ _ - ⟨rfl, -⟩
  exact .pure ⟨hv, rfl⟩

theorem reads_varDeclaration (n x : Nat) :
    Reads good x (varDeclaration n) fun y s => s.Made good x y := by
  refine (reads_expect _ _).bind ?_
  rintro name x - ⟨rfl, hk, hs⟩
  refine (reads_accept _).bind ?_
  rintro r x - ⟨rfl, -⟩
  refine (reads_optionalExpression _ n x).bind ?_
  rintro initializer y - hi
  refine (reads_expect _ _).bind ?_
  rintro _ _ - ⟨rfl, -⟩
  exact .pure ⟨⟨⟨hk, hs⟩, hi.1⟩, hi.2⟩

theorem reads_condition (n x : Nat) (opening : Cause) :
    Reads good x (condition n opening) fun y e => e.Made good x y := by
  refine (reads_expect _ _).bind ?_
  rintro _ x - ⟨rfl, -⟩
  refine (reads_expression n x).bind ?_
  rintro value y - hv
  refine (reads_expect _ _).bind ?_
  rintro _ _ - ⟨rfl, -⟩
  exact .pure hv

theorem reads_parameters (n x count : Nat) :
    Reads good x (parameters n count) fun y params => y = x ∧ ∀ p ∈ params, p.IsGood good .identifier := by
  induction n generalizing count with
  | zero => exact .fail _
  | succ n ih =>
    simp only [parameters]
    split
    · exact .fail _
    refine (reads_expect _ _).bind ?_
    rintro first x - ⟨rfl, hk, hs⟩
    refine (reads_accept _).bind ?_
    rintro r x - ⟨rfl, -⟩
    split
    · refine (ih _).bind ?_
      rintro rest x - ⟨rfl, hr⟩
      exact .pure ⟨rfl, by simpa using ⟨⟨hk, hs⟩, hr⟩⟩
    · exact .pure ⟨rfl, by simpa using ⟨hk, hs⟩⟩

/-- The parts of a loop in the order in which they are read. -/
theorem forLoop_made {initializer : Option Stmt} {condition increment : Option Expr} {body : Stmt}
    {a b c d e : Nat} (hi : ∀ s, initializer = some s → s.Made good a b) (hab : a ≤ b)
    (hc : Expr.FormedOption good condition ∧ Within b c (Expr.idsOption condition)) (hbc : b ≤ c)
    (hn : Expr.FormedOption good increment ∧ Within c d (Expr.idsOption increment)) (hcd : c ≤ d)
    (hb : body.Made good d e) (hd : body.declared? = none) (hde : d ≤ e) :
    (forLoop initializer condition increment body).Made good a e ∧
      (forLoop initializer condition increment body).declared? = none := by
  have hcond : (condition.getD (.literal (.bool true))).Made good b c := by
    cases condition with
    | none => exact ⟨trivial, .nil b c⟩
    | some condition => exact hc
  have whole : ∀ body : Stmt, body.Made good c e → body.declared? = none →
      (forLoop initializer condition none body).Made good a e ∧
        (forLoop initializer condition none body).declared? = none := by
    intro body hb hd
    have hl : (Stmt.while (condition.getD (.literal (.bool true))) body).Made good b e :=
      ⟨⟨hcond.1, hd, hb.1⟩, hcond.2.append hb.2 hbc (hcd.trans hde)⟩
    cases initializer with
    | none => exact ⟨⟨hl.1, hl.2.mono hab le_rfl⟩, rfl⟩
    | some s =>
      have hs := hi s rfl
      refine ⟨⟨⟨hs.1, hl.1, trivial⟩, ?_⟩, rfl⟩
      simpa [forLoop, Stmt.ids, Stmt.idsAll] using
        hs.2.append hl.2 hab (hbc.trans (hcd.trans hde))
  cases increment with
  | none => exact whole body ⟨hb.1, hb.2.mono hcd le_rfl⟩ hd
  | some increment =>
    refine whole (.block [body, .expression increment]) ⟨⟨hb.1, hn.1, trivial⟩, ?_⟩ rfl
    simpa [Stmt.ids, Stmt.idsAll, Expr.idsOption] using hn.2.append_swap hb.2 hcd hde

theorem reads_superclass (absent : Bool) (x : Nat) :
    Reads good x
      (optional absent do
        let name ← expect .identifier .superclassName
        return Expr.variable (← freshId) name)
      fun y r => Expr.NamesSuperclass good r ∧ Within x y (Expr.idsOption r) := by
  have parent : Reads good x
      (do
        let name ← expect .identifier .superclassName
        return Expr.variable (← freshId) name)
      fun y e => Expr.NamesSuperclass good (some e) ∧ Within x y e.ids := by
    refine (reads_expect _ _).bind ?_
    rintro name x - ⟨rfl, hk, hs⟩
    refine reads_freshId.bind ?_
    rintro id _ - ⟨rfl, rfl⟩
    exact .pure ⟨⟨_, _, rfl, ⟨hk, hs⟩⟩, .single x⟩
  refine (reads_optional absent parent).imp ?_
  rintro y r - (⟨rfl, rfl⟩ | ⟨e, rfl, he⟩)
  · exact ⟨trivial, .nil _ _⟩
  · exact he

theorem reads_forInitializer (n x : Nat) :
    Reads good x (forInitializer n) fun y r => ∀ s, r = some s → s.Made good x y := by
  refine (reads_accept _).bind ?_
  rintro r x - ⟨rfl, -⟩
  split
  · exact .pure (by simp)
  refine (reads_accept _).bind ?_
  rintro r x - ⟨rfl, -⟩
  split
  · refine (reads_varDeclaration n x).bind ?_
    rintro s y - hs
    exact .pure (by rintro _ ⟨⟩; exact hs)
  · refine (reads_expressionStatement n x).bind ?_
    rintro s y - hs
    exact .pure (by rintro _ ⟨⟩; exact hs.1)

/-- What the rules for statements make with this much fuel. -/
structure MakesStatements (good : Token → Prop) (n : Nat) : Prop where
  declaration (x : Nat) : Reads good x (declaration n) fun y s => s.Made good x y
  classDeclaration (x : Nat) : Reads good x (classDeclaration n) fun y s => s.Made good x y
  methods (x : Nat) : Reads good x (methods n) fun y fs =>
    FunDecl.FormedAll good fs ∧ Within x y (FunDecl.idsAll fs)
  function (x : Nat) (sort : FunctionSort) : Reads good x (function n sort) fun y f =>
    f.Formed good ∧ Within x y f.ids
  block (x : Nat) : Reads good x (block n) fun y ss =>
    Stmt.FormedAll good ss ∧ Within x y (Stmt.idsAll ss)
  statement (x : Nat) : Reads good x (statement n) fun y s => s.Made good x y ∧ s.declared? = none

namespace MakesStatements

variable {n : Nat}

theorem declarationSucc (h : MakesStatements good n) (x : Nat) :
    Reads good x (Parser.declaration (n + 1)) fun y s => s.Made good x y := by
  simp only [Parser.declaration]
  refine (reads_accept _).bind ?_
  rintro r x - ⟨rfl, -⟩
  split
  · exact h.classDeclaration x
  refine (reads_accept _).bind ?_
  rintro r x - ⟨rfl, -⟩
  split
  · exact (h.function x .function).bind fun f y _ hf => .pure hf
  refine (reads_accept _).bind ?_
  rintro r x - ⟨rfl, -⟩
  split
  · exact reads_varDeclaration n x
  · exact (h.statement x).imp fun _ _ _ hs => hs.1

theorem classDeclarationSucc (h : MakesStatements good n) (x : Nat) :
    Reads good x (Parser.classDeclaration (n + 1)) fun y s => s.Made good x y := by
  simp only [Parser.classDeclaration]
  refine (reads_expect _ _).bind ?_
  rintro name x - ⟨rfl, hk, hs⟩
  refine (reads_accept _).bind ?_
  rintro r x - ⟨rfl, -⟩
  refine (reads_superclass _ x).bind ?_
  rintro superclass y hy hsuper
  refine (reads_expect _ _).bind ?_
  rintro _ y - ⟨rfl, -⟩
  refine (h.methods y).bind ?_
  rintro methods z hz hm
  refine (reads_expect _ _).bind ?_
  rintro _ _ - ⟨rfl, -⟩
  exact .pure ⟨⟨⟨hk, hs⟩, hsuper.1, hm.1⟩, hsuper.2.append hm.2 hy hz⟩

theorem methodsSucc (h : MakesStatements good n) (x : Nat) :
    Reads good x (Parser.methods (n + 1)) fun y fs =>
      FunDecl.FormedAll good fs ∧ Within x y (FunDecl.idsAll fs) := by
  simp only [Parser.methods]
  refine (reads_check _).bind ?_
  rintro closes x - rfl
  refine reads_atEnd.bind ?_
  rintro ends x - rfl
  split
  · exact .pure ⟨trivial, .nil x x⟩
  refine (h.function x .method).bind ?_
  rintro f y hy hf
  refine (h.methods y).bind ?_
  rintro fs z hz hfs
  exact .pure ⟨⟨hf.1, hfs.1⟩, hf.2.append hfs.2 hy hz⟩

theorem functionSucc (h : MakesStatements good n) (x : Nat) (sort : FunctionSort) :
    Reads good x (Parser.function (n + 1) sort) fun y f => f.Formed good ∧ Within x y f.ids := by
  simp only [Parser.function]
  refine (reads_expect _ _).bind ?_
  rintro name x - ⟨rfl, hk, hs⟩
  refine (reads_expect _ _).bind ?_
  rintro _ x - ⟨rfl, -⟩
  refine (reads_check _).bind ?_
  rintro closes x - rfl
  have rest : ∀ {params : List Token}, (∀ p ∈ params, p.IsGood good .identifier) →
      Reads good x
        (do
          let _ ← expect (.punct .rightParen) .parametersClose
          let _ ← expect (.punct .leftBrace) (.bodyOpen sort)
          return FunDecl.mk name params (← Parser.block n)) fun y f => f.Formed good ∧ Within x y f.ids := by
    intro params hp
    refine (reads_expect _ _).bind ?_
    rintro _ x - ⟨rfl, -⟩
    refine (reads_expect _ _).bind ?_
    rintro _ x - ⟨rfl, -⟩
    refine (h.block x).bind ?_
    rintro body y - hb
    exact .pure ⟨⟨⟨hk, hs⟩, hp, hb.1⟩, hb.2⟩
  split
  · exact rest (by simp)
  · refine (reads_parameters n x 0).bind ?_
    rintro params x - ⟨rfl, hp⟩
    exact rest hp

theorem blockSucc (h : MakesStatements good n) (x : Nat) :
    Reads good x (Parser.block (n + 1)) fun y ss =>
      Stmt.FormedAll good ss ∧ Within x y (Stmt.idsAll ss) := by
  simp only [Parser.block]
  refine (reads_check _).bind ?_
  rintro closes x - rfl
  refine reads_atEnd.bind ?_
  rintro ends x - rfl
  split
  · refine (reads_expect _ _).bind ?_
    rintro _ x - ⟨rfl, -⟩
    exact .pure ⟨trivial, .nil x x⟩
  refine (h.declaration x).bind ?_
  rintro s y hy hs
  refine (h.block y).bind ?_
  rintro ss z hz hss
  exact .pure ⟨⟨hs.1, hss.1⟩, hs.2.append hss.2 hy hz⟩

theorem statementSucc (h : MakesStatements good n) (x : Nat) :
    Reads good x (Parser.statement (n + 1)) fun y s => s.Made good x y ∧ s.declared? = none := by
  simp only [Parser.statement]
  refine (reads_accept _).bind ?_
  rintro r x - ⟨rfl, -⟩
  split
  · refine (reads_expect _ _).bind ?_
    rintro _ x - ⟨rfl, -⟩
    refine (reads_forInitializer n x).bind ?_
    rintro initializer y hy hi
    refine (reads_check _).bind ?_
    rintro _ y - rfl
    refine (reads_optionalExpression _ n y).bind ?_
    rintro condition z hz hc
    refine (reads_expect _ _).bind ?_
    rintro _ z - ⟨rfl, -⟩
    refine (reads_check _).bind ?_
    rintro _ z - rfl
    refine (reads_optionalExpression _ n z).bind ?_
    rintro increment w hw hn
    refine (reads_expect _ _).bind ?_
    rintro _ w - ⟨rfl, -⟩
    refine (h.statement w).bind ?_
    rintro body v hv hb
    exact .pure (forLoop_made hi hy hc hz hn hw hb.1 hb.2 hv)
  refine (reads_accept _).bind ?_
  rintro r x - ⟨rfl, -⟩
  split
  · refine (reads_condition n x _).bind ?_
    rintro condition y hy hc
    refine (h.statement y).bind ?_
    rintro thenBranch z hz ht
    refine (reads_accept _).bind ?_
    rintro r z - ⟨rfl, -⟩
    refine (reads_optional _ (h.statement z)).bind ?_
    rintro elseBranch w hw (⟨rfl, rfl⟩ | ⟨s, rfl, hs⟩)
    · exact .pure ⟨⟨⟨hc.1, ht.2, ht.1.1⟩, hc.2.append ht.1.2 hy hz⟩, rfl⟩
    · exact .pure ⟨⟨⟨hc.1, ⟨ht.2, ht.1.1⟩, hs.2, hs.1.1⟩,
        hc.2.append (ht.1.2.append hs.1.2 hz hw) hy (hz.trans hw)⟩, rfl⟩
  refine (reads_accept _).bind ?_
  rintro r x - ⟨rfl, -⟩
  split
  · refine (reads_condition n x _).bind ?_
    rintro condition y hy hc
    refine (h.statement y).bind ?_
    rintro body z hz hb
    exact .pure ⟨⟨⟨hc.1, hb.2, hb.1.1⟩, hc.2.append hb.1.2 hy hz⟩, rfl⟩
  refine (reads_accept _).bind ?_
  rintro r x - ⟨rfl, -⟩
  split
  · exact (h.block x).bind fun ss y _ hs => .pure ⟨hs, rfl⟩
  refine (reads_accept _).bind ?_
  rintro r x - ⟨rfl, -⟩
  split
  · refine (reads_expression n x).bind ?_
    rintro value y - hv
    refine (reads_expect _ _).bind ?_
    rintro _ _ - ⟨rfl, -⟩
    exact .pure ⟨hv, rfl⟩
  refine (reads_accept _).bind ?_
  rintro r x - ⟨rfl, -⟩
  cases r with
  | some keyword =>
    refine (reads_check _).bind ?_
    rintro closes x - rfl
    refine (reads_optionalExpression _ n x).bind ?_
    rintro value y - hv
    refine (reads_expect _ _).bind ?_
    rintro _ _ - ⟨rfl, -⟩
    exact .pure ⟨hv, rfl⟩
  | none =>
  refine (reads_accept _).bind ?_
  rintro r x - ⟨rfl, -⟩
  cases r with
  | some keyword =>
    refine (reads_expect _ _).bind ?_
    rintro _ _ - ⟨rfl, -⟩
    exact .pure ⟨⟨trivial, .nil _ _⟩, rfl⟩
  | none => exact reads_expressionStatement n x

end MakesStatements

theorem makesStatements (n : Nat) : MakesStatements good n := by
  induction n with
  | zero =>
    exact
      { declaration := fun _ => .fail _
        classDeclaration := fun _ => .fail _
        methods := fun _ => .fail _
        function := fun _ _ => .fail _
        block := fun _ => .fail _
        statement := fun _ => .fail _ }
  | succ n ih =>
    exact
      { declaration := ih.declarationSucc
        classDeclaration := ih.classDeclarationSucc
        methods := ih.methodsSucc
        function := ih.functionSucc
        block := ih.blockSucc
        statement := ih.statementSucc }

/-! ### Whole inputs -/

theorem dropStatement_suffix (last : Token) (ts : List Token) : dropStatement last ts <:+ ts := by
  fun_induction dropStatement last ts with
  | case1 => exact List.suffix_rfl
  | case2 => exact List.suffix_rfl
  | case3 last t rest _ ih => exact ih.trans (List.suffix_cons t rest)

theorem synchronize_suffix (s : State) :
    (synchronize s).ahead <:+ s.ahead ∧ (synchronize s).nextId = s.nextId := by
  unfold synchronize
  split
  · exact ⟨List.suffix_rfl, rfl⟩
  · next t rest hs =>
    exact ⟨hs ▸ (dropStatement_suffix t rest).trans (List.suffix_cons t rest), rfl⟩

/-- The trees are made also when there were errors between them. -/
theorem declarations_made (rounds : Nat) (s : State) (ht : ∀ t ∈ s.ahead, good t) :
    s.nextId ≤ (declarations rounds s).2.2.nextId ∧
      Stmt.FormedAll good (declarations rounds s).1 ∧
      Within s.nextId (declarations rounds s).2.2.nextId (Stmt.idsAll (declarations rounds s).1) := by
  induction rounds generalizing s with
  | zero => exact ⟨le_rfl, trivial, .nil _ _⟩
  | succ n ih =>
    unfold declarations
    split
    · exact ⟨le_rfl, trivial, .nil _ _⟩
    have hd := (makesStatements (fuelFor s.ahead)).declaration s.nextId s rfl ht
    rcases hr : declaration (fuelFor s.ahead) s with ⟨stmt, s'⟩ | ⟨e, s'⟩
    · rw [hr] at hd
      obtain ⟨hsub, hx, hm⟩ := hd
      have hrest := ih s' fun t hm => ht t (hsub.subset hm)
      exact ⟨hx.trans hrest.1, ⟨hm.1, hrest.2.1⟩, hm.2.append hrest.2.2 hx hrest.1⟩
    · rw [hr] at hd
      obtain ⟨hsub, hx⟩ := hd
      obtain ⟨hsync, hid⟩ := synchronize_suffix s'
      have hrest := ih (synchronize s') fun t hm => ht t (hsub.subset (hsync.subset hm))
      rw [hid] at hrest
      exact ⟨hx.trans hrest.1, hrest.2.1, hrest.2.2.mono hx le_rfl⟩

theorem good_ahead {tokens : List Token} (ht : ∀ t ∈ tokens, good t) :
    ∀ t ∈ (TokenStream.ofList tokens).ahead, good t :=
  fun t hm => ht t ((List.takeWhile_prefix _).subset hm)

theorem program_made {tokens : List Token} (first : Nat) (ht : ∀ t ∈ tokens, good t) :
    first ≤ (program tokens first).2 ∧ ∀ ss, (program tokens first).1 = .ok ss →
      Stmt.FormedAll good ss ∧ Within first (program tokens first).2 (Stmt.idsAll ss) := by
  have h := declarations_made (TokenStream.ofList tokens).ahead.length
    ⟨(TokenStream.ofList tokens).ahead, (TokenStream.ofList tokens).eof, first⟩ (good_ahead ht)
  refine ⟨h.1, fun ss hs => ?_⟩
  simp only [program] at hs
  split at hs
  · cases hs
    exact h.2
  · cases hs

theorem expressionOnly_made {tokens : List Token} (first : Nat) (ht : ∀ t ∈ tokens, good t) :
    first ≤ (expressionOnly tokens first).2 ∧ ∀ e, (expressionOnly tokens first).1 = .ok e →
      e.Made good first (expressionOnly tokens first).2 := by
  have rule : Reads good first
      (do
        let e ← expression (fuelFor (TokenStream.ofList tokens).ahead)
        if ← atEnd then return e else Parser.fail .endOfExpression)
      fun y e => e.Made good first y := by
    refine (reads_expression _ first).bind ?_
    rintro e y - he
    refine reads_atEnd.bind ?_
    rintro ends y - rfl
    split
    · exact .pure he
    · exact .fail _
  have h := rule ⟨(TokenStream.ofList tokens).ahead, (TokenStream.ofList tokens).eof, first⟩ rfl
    (good_ahead ht)
  unfold expressionOnly
  dsimp only
  split at h
  · next e s hr =>
    rw [hr]
    exact ⟨h.2.1, fun e' he => by cases he; exact h.2.2⟩
  · next e s hr =>
    rw [hr]
    exact ⟨h.2, fun e' he => by cases he⟩

end Parser

end Lox
