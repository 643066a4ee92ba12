import Lox.Proofs.Grammar

/-!
# What is read is derivable

When a rule succeeds, the tokens it has taken are a phrase of its kind, and the tree it gives back is
the tree of that phrase. A statement that dangles is not followed by `else`, since the rule would have
taken it: so no `else` is left for an `if` further out.
-/

namespace Lox.Parser

open Grammar

/-- When the rule succeeds from this state, `post` holds of the tokens it has taken, its result and the
state it leaves. -/
def Takes {α : Type} (s : State) (p : Parser α) (post : List Token → α → State → Prop) : Prop :=
  ∀ a s', p s = .ok a s' → ∃ ts, s.ahead = ts ++ s'.ahead ∧ post ts a s'

namespace Takes

variable {α β : Type} {s : State} {p : Parser α} {post : List Token → α → State → Prop}

theorem pure {a : α} (h : post [] a s) : Takes s (Pure.pure a) post := by
  rintro _ _ ⟨⟩
  exact ⟨[], rfl, h⟩

theorem throw (e : Error) : Takes s (throw e : Parser α) post := by
  rintro _ _ ⟨⟩

theorem fail (cause : Cause) : Takes s (Parser.fail cause : Parser α) post := by
  rintro _ _ ⟨⟩

theorem bind {f : α → Parser β} {post' : List Token → β → State → Prop} (h : Takes s p post)
    (hf : ∀ ts a s', post ts a s' → Takes s' (f a) fun us b s'' => post' (ts ++ us) b s'') :
    Takes s (p >>= f) post' := by
  intro b s'' hb
  simp only [Bind.bind, EStateM.bind] at hb
  split at hb
  · next a s' ha =>
    obtain ⟨ts, hts, hpost⟩ := h a s' ha
    obtain ⟨us, hus, hpost'⟩ := hf ts a s' hpost b s'' hb
    exact ⟨ts ++ us, by rw [hts, hus, List.append_assoc], hpost'⟩
  · cases hb

theorem imp {post' : List Token → α → State → Prop} (h : Takes s p post)
    (hp : ∀ ts a s', post ts a s' → post' ts a s') : Takes s p post' := by
  intro a s' ha
  obtain ⟨ts, hts, hpost⟩ := h a s' ha
  exact ⟨ts, hts, hp ts a s' hpost⟩

end Takes

variable {s : State}

/-! ### Single tokens -/

/-- Nothing was taken, and the next token is not wanted; or the next token was taken. -/
theorem takes_acceptIf (wanted : Kind → Bool) :
    Takes s (acceptIf wanted) fun ts r s' =>
      (r = none ∧ ts = [] ∧ s' = s ∧ ∀ t rest, s.ahead = t :: rest → wanted t.kind = false) ∨
      ∃ t, r = some t ∧ ts = [t] ∧ s.ahead = t :: s'.ahead ∧ s'.nextId = s.nextId ∧
        wanted t.kind = true := by
  intro r s' h
  unfold acceptIf at h
  split at h
  · next t rest hs =>
    split at h
    · next hw =>
      cases h
      exact ⟨[t], hs, .inr ⟨t, rfl, rfl, hs, rfl, hw⟩⟩
    · next hw =>
      cases h
      refine ⟨[], rfl, .inl ⟨rfl, rfl, rfl, ?_⟩⟩
      intro t' rest' ht
      rw [hs] at ht
      cases ht
      simpa using hw
  · next hs =>
    cases h
    exact ⟨[], rfl, .inl ⟨rfl, rfl, rfl, by simp [hs]⟩⟩

theorem takes_accept (kind : Kind) :
    Takes s (accept kind) fun ts r s' =>
      (r = none ∧ ts = [] ∧ s' = s ∧ ∀ t rest, s.ahead = t :: rest → t.kind ≠ kind) ∨
      ∃ t, r = some t ∧ ts = [t] ∧ s.ahead = t :: s'.ahead ∧ s'.nextId = s.nextId ∧
        t.kind = kind := by
  refine (takes_acceptIf (· == kind)).imp ?_
  rintro ts r s' (⟨hr, hts, hs, hk⟩ | ⟨t, hr, hts, hs, hn, hk⟩)
  · exact .inl ⟨hr, hts, hs, fun t rest ht => by simpa using hk t rest ht⟩
  · exact .inr ⟨t, hr, hts, hs, hn, by simpa using hk⟩

theorem takes_check (kind : Kind) :
    Takes s (check kind) fun ts _ s' => ts = [] ∧ s' = s := by
  rintro _ _ ⟨⟩
  exact ⟨[], rfl, rfl, rfl⟩

theorem takes_atEnd : Takes s atEnd fun ts _ s' => ts = [] ∧ s' = s := by
  rintro _ _ ⟨⟩
  exact ⟨[], rfl, rfl, rfl⟩

theorem takes_expect (kind : Kind) (cause : Cause) :
    Takes s (expect kind cause) fun ts t s' =>
      ts = [t] ∧ s'.nextId = s.nextId ∧ t.kind = kind := by
  refine (takes_accept kind).bind ?_
  rintro _ r s' (⟨rfl, rfl, rfl, -⟩ | ⟨t, rfl, rfl, -, hn, hk⟩)
  · exact .fail cause
  · exact .pure ⟨rfl, hn, hk⟩

theorem takes_freshId :
    Takes s freshId fun ts id s' => ts = [] ∧ s'.nextId = s.nextId + 1 ∧ id = ⟨s.nextId⟩ := by
  rintro _ _ ⟨⟩
  exact ⟨[], rfl, rfl, rfl, rfl⟩

/-! ### Expressions -/

theorem joins_of_accepts {level : Level} {kind : Kind} (h : level.accepts kind = true) :
    Joins level kind := by
  cases level <;> simp only [Level.accepts, Bool.or_eq_true, beq_iff_eq] at h
  case or => exact h ▸ .or
  case and => exact h ▸ .and
  case equality => rcases h with rfl | rfl <;> constructor
  case comparison => rcases h with ((rfl | rfl) | rfl) | rfl <;> constructor
  case term => rcases h with rfl | rfl <;> constructor
  case factor => rcases h with rfl | rfl <;> constructor

theorem negates_of_isUnaryOperator {kind : Kind} (h : isUnaryOperator kind = true) :
    Negates kind := by
  simp only [isUnaryOperator, Bool.or_eq_true, beq_iff_eq] at h
  rcases h with rfl | rfl <;> constructor

theorem denotes_of_literal? {kind : Kind} {value : Literal} (h : literal? kind = some value) :
    Denotes kind value := by
  unfold literal? at h
  split at h <;> cases h <;> constructor

theorem operation_node {level : Level} {a b c : Nat} {operator : Token} {ts us : List Token}
    {left right : Expr} (hl : Operation level a ts left b) (hj : Joins level operator.kind)
    (hr : Operand level b us right c) :
    Operation level a (ts ++ operator :: us) (level.node left operator right) c := by
  cases level with
  | or => exact .logical (.inl rfl) hl hj hr
  | and => exact .logical (.inr rfl) hl hj hr
  | _ => exact .binary (by simp [IsLogical]) hl hj hr

/-- Trees with an operator at the root. -/
def IsOperation : Expr → Prop
  | .unary _ _ => True
  | .binary _ _ _ => True
  | .logical _ _ _ => True
  | _ => False

mutual

/-- A tree with no operator at its root comes from the tightest level. -/
theorem call_of_operation {level : Level} {a b : Nat} {ts : List Token} {e : Expr} :
    Operation level a ts e b → ¬ IsOperation e → Call a ts e b
  | .operand h, he => call_of_operand h he
  | .logical _ _ _ _, he => absurd trivial he
  | .binary _ _ _ _, he => absurd trivial he

theorem call_of_operand {level : Level} {a b : Nat} {ts : List Token} {e : Expr} :
    Operand level a ts e b → ¬ IsOperation e → Call a ts e b
  | .and h, he => call_of_operation h he
  | .equality h, he => call_of_operation h he
  | .comparison h, he => call_of_operation h he
  | .term h, he => call_of_operation h he
  | .factor h, he => call_of_operation h he
  | .unary (.operator _ _), he => absurd trivial he
  | .unary (.call h), _ => h

end

/-- What can be assigned to: a name, or a property of what a call gives. -/
theorem takes_assignTo {a b : Nat} {ts us : List Token} {target value : Expr} {equals : Token}
    (ht : Operation .or a ts target b) (he : equals.kind = .punct .equal)
    (hv : Expression b us value s.nextId) :
    Takes s (assignTo target equals value) fun vs e s' =>
      Expression a (ts ++ equals :: us ++ vs) e s'.nextId := by
  unfold assignTo
  split
  · next id name =>
    have hc := call_of_operation ht (by simp [IsOperation])
    cases hc with
    | primary hp =>
      cases hp with
      | «variable» hk =>
        refine takes_freshId.bind ?_
        rintro _ id s' ⟨rfl, hn, rfl⟩
        refine .pure ?_
        rw [hn]
        simpa using Expression.assign hk he hv
  · next object name =>
    have hc := call_of_operation ht (by simp [IsOperation])
    cases hc with
    | primary hp => cases hp
    | property ho hd hk =>
      refine .pure ?_
      simpa using Expression.set ho hd hk he hv
  · exact .throw _

/-- What the rules for expressions take with this much fuel. -/
structure DerivesExpressions (n : Nat) : Prop where
  expression (s : State) : Takes s (expression n) fun ts e s' =>
    Expression s.nextId ts e s'.nextId
  binary (s : State) (level : Level) : Takes s (binary n level) fun ts e s' =>
    Operation level s.nextId ts e s'.nextId
  binaryRest {a : Nat} {ts : List Token} (s : State) (level : Level) {left : Expr} :
    Operation level a ts left s.nextId → Takes s (binaryRest n level left) fun us e s' =>
      Operation level a (ts ++ us) e s'.nextId
  operand (s : State) (level : Level) : Takes s (operand n level) fun ts e s' =>
    Operand level s.nextId ts e s'.nextId
  unary (s : State) : Takes s (unary n) fun ts e s' => Unary s.nextId ts e s'.nextId
  callRest {a : Nat} {ts : List Token} (s : State) {callee : Expr} :
    Call a ts callee s.nextId → Takes s (callRest n callee) fun us e s' =>
      Call a (ts ++ us) e s'.nextId
  arguments (s : State) (count : Nat) : Takes s (arguments n count) fun ts es s' =>
    ArgumentList s.nextId ts es s'.nextId ∧ count + es.length ≤ maxArity
  primary (s : State) : Takes s (primary n) fun ts e s' => Primary s.nextId ts e s'.nextId

namespace DerivesExpressions

variable {n : Nat}

theorem expressionSucc (h : DerivesExpressions n) (s : State) :
    Takes s (Parser.expression (n + 1)) fun ts e s' => Expression s.nextId ts e s'.nextId := by
  simp only [Parser.expression]
  refine (h.binary s .or).bind ?_
  rintro ts target s₁ ht
  refine (takes_accept _).bind ?_
  rintro _ _ s₂ (⟨rfl, rfl, rfl, -⟩ | ⟨equals, rfl, rfl, -, hn, hk⟩)
  · exact .pure (by simpa using .operation ht)
  · refine (h.expression s₂).bind ?_
    rintro us value s₃ hv
    rw [hn] at hv
    simpa using takes_assignTo ht hk hv

theorem binaryRestSucc (h : DerivesExpressions n) {a : Nat} {ts : List Token} (s : State)
    (level : Level) {left : Expr} (hl : Operation level a ts left s.nextId) :
    Takes s (Parser.binaryRest (n + 1) level left) fun us e s' =>
      Operation level a (ts ++ us) e s'.nextId := by
  simp only [Parser.binaryRest]
  refine (takes_acceptIf _).bind ?_
  rintro _ _ s₁ (⟨rfl, rfl, rfl, -⟩ | ⟨operator, rfl, rfl, -, hn, hk⟩)
  · exact .pure (by simpa using hl)
  · refine (h.operand s₁ level).bind ?_
    rintro us right s₂ hr
    rw [hn] at hr
    simpa using h.binaryRest s₂ level (operation_node hl (joins_of_accepts hk) hr)

theorem operandSucc (h : DerivesExpressions n) (s : State) (level : Level) :
    Takes s (Parser.operand (n + 1) level) fun ts e s' => Operand level s.nextId ts e s'.nextId := by
  cases level with
  | or => exact (h.binary s .and).imp fun _ _ _ => .and
  | and => exact (h.binary s .equality).imp fun _ _ _ => .equality
  | equality => exact (h.binary s .comparison).imp fun _ _ _ => .comparison
  | comparison => exact (h.binary s .term).imp fun _ _ _ => .term
  | term => exact (h.binary s .factor).imp fun _ _ _ => .factor
  | factor => exact (h.unary s).imp fun _ _ _ => .unary

theorem unarySucc (h : DerivesExpressions n) (s : State) :
    Takes s (Parser.unary (n + 1)) fun ts e s' => Unary s.nextId ts e s'.nextId := by
  simp only [Parser.unary]
  refine (takes_acceptIf _).bind ?_
  rintro _ _ s₁ (⟨rfl, rfl, rfl, -⟩ | ⟨operator, rfl, rfl, -, hn, hk⟩)
  · refine (h.primary s₁).bind ?_
    rintro ts e s₂ he
    exact (h.callRest s₂ (.primary he)).imp fun _ _ _ => .call
  · refine (h.unary s₁).bind ?_
    rintro ts right s₂ hr
    rw [hn] at hr
    exact .pure (by simpa using Unary.operator (negates_of_isUnaryOperator hk) hr)

theorem callRestSucc (h : DerivesExpressions n) {a : Nat} {ts : List Token} (s : State)
    {callee : Expr} (hc : Call a ts callee s.nextId) :
    Takes s (Parser.callRest (n + 1) callee) fun us e s' => Call a (ts ++ us) e s'.nextId := by
  simp only [Parser.callRest]
  refine (takes_accept _).bind ?_
  rintro _ _ s₁ (⟨rfl, rfl, rfl, -⟩ | ⟨opening, rfl, rfl, -, hn, hk⟩)
  · refine (takes_accept _).bind ?_
    rintro _ _ s₂ (⟨rfl, rfl, rfl, -⟩ | ⟨dot, rfl, rfl, -, hn, hd⟩)
    · exact .pure (by simpa using hc)
    · refine (takes_expect _ _).bind ?_
      rintro _ name s₃ ⟨rfl, hn', hk⟩
      rw [← hn, ← hn'] at hc
      simpa using h.callRest s₃ (.property hc hd hk)
  · refine (takes_check _).bind ?_
    rintro _ closes s₂ ⟨rfl, rfl⟩
    have rest : ∀ {us : List Token} {es : List Expr} (s₃ : State),
        Arguments s₂.nextId us es s₃.nextId → es.length ≤ maxArity →
        Takes s₃
          (do
            let paren ← expect (.punct .rightParen) .argumentsClose
            Parser.callRest n (.call callee paren es))
          fun vs e s' => Call a (ts ++ opening :: (us ++ vs)) e s'.nextId := by
      rintro us es s₃ he hl
      refine (takes_expect _ _).bind ?_
      rintro _ paren s₄ ⟨rfl, hn', hp⟩
      rw [hn, ← hn'] at he
      simpa using h.callRest s₄ (.arguments hc hk he hp hl)
    cases closes with
    | true => simpa using rest s₂ .none (Nat.zero_le _)
    | false =>
      refine (h.arguments s₂ 0).bind ?_
      rintro us es s₃ ⟨he, hl⟩
      simpa using rest s₃ (.some he) (by simpa using hl)

theorem argumentsSucc (h : DerivesExpressions n) (s : State) (count : Nat) :
    Takes s (Parser.arguments (n + 1) count) fun ts es s' =>
      ArgumentList s.nextId ts es s'.nextId ∧ count + es.length ≤ maxArity := by
  simp only [Parser.arguments]
  split
  · exact .fail _
  next hm =>
  refine (h.expression s).bind ?_
  rintro ts e s₁ he
  refine (takes_accept _).bind ?_
  rintro _ _ s₂ (⟨rfl, rfl, rfl, -⟩ | ⟨comma, rfl, rfl, -, hn, hk⟩)
  · exact .pure ⟨by simpa using .last he, by simp; omega⟩
  · refine (h.arguments s₂ (count + 1)).bind ?_
    rintro us es s₃ ⟨hes, hl⟩
    rw [hn] at hes
    exact .pure ⟨by simpa using ArgumentList.more he hk hes, by simp; omega⟩

theorem primarySucc (h : DerivesExpressions n) (s : State) :
    Takes s (Parser.primary (n + 1)) fun ts e s' => Primary s.nextId ts e s'.nextId := by
  simp only [Parser.primary]
  refine (takes_acceptIf _).bind ?_
  rintro _ _ s₁ (⟨rfl, rfl, rfl, -⟩ | ⟨t, rfl, rfl, -, hn, hk⟩)
  case inr =>
    obtain ⟨value, hv⟩ := Option.isSome_iff_exists.1 hk
    refine .pure ?_
    rw [hn]
    simpa [hv] using .literal (denotes_of_literal? hv)
  refine (takes_accept _).bind ?_
  rintro _ _ s₂ (⟨rfl, rfl, rfl, -⟩ | ⟨keyword, rfl, rfl, -, hn, hk⟩)
  case inr =>
    refine takes_freshId.bind ?_
    rintro _ id s₃ ⟨rfl, hn', rfl⟩
    refine .pure ?_
    rw [hn', hn]
    simpa using .this hk
  refine (takes_accept _).bind ?_
  rintro _ _ s₃ (⟨rfl, rfl, rfl, -⟩ | ⟨keyword, rfl, rfl, -, hn, hk⟩)
  case inr =>
    refine (takes_expect _ _).bind ?_
    rintro _ dot s₄ ⟨rfl, hn₄, hd⟩
    refine (takes_expect _ _).bind ?_
    rintro _ method s₅ ⟨rfl, hn₅, hm⟩
    refine takes_freshId.bind ?_
    rintro _ id s₆ ⟨rfl, hn₆, rfl⟩
    refine .pure ?_
    rw [hn₆, hn₅, hn₄, hn]
    simpa using .super hk hd hm
  refine (takes_accept _).bind ?_
  rintro _ _ s₄ (⟨rfl, rfl, rfl, -⟩ | ⟨name, rfl, rfl, -, hn, hk⟩)
  case inr =>
    refine takes_freshId.bind ?_
    rintro _ id s₅ ⟨rfl, hn', rfl⟩
    refine .pure ?_
    rw [hn', hn]
    simpa using .variable hk
  refine (takes_accept _).bind ?_
  rintro _ _ s₅ (⟨rfl, rfl, rfl, -⟩ | ⟨opening, rfl, rfl, -, hn, hk⟩)
  · exact .fail _
  · refine (h.expression s₅).bind ?_
    rintro ts inner s₆ hi
    refine (takes_expect _ _).bind ?_
    rintro _ closing s₇ ⟨rfl, hn', hc⟩
    refine .pure ?_
    rw [hn] at hi
    rw [hn']
    simpa using Primary.grouping hk hi hc

end DerivesExpressions

theorem derivesExpressions (n : Nat) : DerivesExpressions n := by
  induction n with
  | zero =>
    exact
      { expression := fun _ => .fail _
        binary := fun _ _ => .fail _
        binaryRest := fun _ _ _ _ => .fail _
        operand := fun _ _ => .fail _
        unary := fun _ => .fail _
        callRest := fun _ _ _ => .fail _
        arguments := fun _ _ => .fail _
        primary := fun _ => .fail _ }
  | succ n ih =>
    exact
      { expression := ih.expressionSucc
        binary := fun s level => (ih.operand s level).bind fun ts e s' he => by
          exact ih.binaryRest s' level (.operand he)
        binaryRest := ih.binaryRestSucc
        operand := ih.operandSucc
        unary := ih.unarySucc
        callRest := ih.callRestSucc
        arguments := ih.argumentsSucc
        primary := ih.primarySucc }

theorem takes_expression (n : Nat) (s : State) :
    Takes s (expression n) fun ts e s' => Expression s.nextId ts e s'.nextId :=
  (derivesExpressions n).expression s

/-! ### Parts of statements -/

theorem takes_optional {α : Type} {p : Parser α} {post : List Token → α → State → Prop}
    (absent : Bool) (h : Takes s p post) :
    Takes s (optional absent p) fun ts r s' =>
      (absent = true ∧ r = none ∧ ts = [] ∧ s' = s) ∨
      (absent = false ∧ ∃ a, r = some a ∧ post ts a s') := by
  cases absent with
  | true => exact .pure (.inl ⟨rfl, rfl, rfl, rfl⟩)
  | false =>
    refine h.bind ?_
    rintro ts a s' ha
    exact .pure (by simpa using ha)

theorem takes_optionalExpression (absent : Bool) (n : Nat) :
    Takes s (optional absent (expression n)) fun ts e s' =>
      OptionalExpression s.nextId ts e s'.nextId := by
  refine (takes_optional absent (takes_expression n s)).imp ?_
  rintro _ _ s' (⟨-, rfl, rfl, rfl⟩ | ⟨-, e, rfl, he⟩)
  · exact .none
  · exact .some he

theorem takes_expressionStatement (n : Nat) :
    Takes s (expressionStatement n) fun ts st s' =>
      ExpressionStatement s.nextId ts st s'.nextId := by
  refine (takes_expression n s).bind ?_
  rintro ts value s₁ hv
  refine (takes_expect _ _).bind ?_
  rintro _ semicolon s₂ ⟨rfl, hn, hk⟩
  refine .pure ?_
  rw [hn]
  simpa using .mk hv hk

theorem takes_varDeclaration (n : Nat) :
    Takes s (varDeclaration n) fun ts st s' => Variable s.nextId ts st s'.nextId := by
  refine (takes_expect _ _).bind ?_
  rintro _ name s₁ ⟨rfl, hn₁, hk₁⟩
  refine (takes_accept _).bind ?_
  rintro _ r s₂ h₂
  refine (takes_optional _ (takes_expression n s₂)).bind ?_
  rintro us initializer s₃ h₃
  refine (takes_expect _ _).bind ?_
  rintro _ semicolon s₄ ⟨rfl, hn₄, hk₄⟩
  refine .pure ?_
  rw [← hn₁, hn₄]
  obtain ⟨rfl, rfl, rfl, -⟩ | ⟨equals, rfl, rfl, -, hn₂, hk₂⟩ := h₂
  · obtain ⟨-, rfl, rfl, rfl⟩ | ⟨ha, -⟩ := h₃
    · exact .bare hk₁ hk₄
    · cases ha
  · obtain ⟨ha, -⟩ | ⟨-, value, rfl, hv⟩ := h₃
    · cases ha
    · rw [hn₂] at hv
      simpa using Variable.initialized hk₁ hk₂ hv hk₄

theorem takes_condition (n : Nat) (opening : Cause) :
    Takes s (condition n opening) fun ts e s' => Condition s.nextId ts e s'.nextId := by
  refine (takes_expect _ _).bind ?_
  rintro _ open' s₁ ⟨rfl, hn₁, hk₁⟩
  refine (takes_expression n s₁).bind ?_
  rintro ts value s₂ hv
  refine (takes_expect _ _).bind ?_
  rintro _ closing s₃ ⟨rfl, hn₃, hk₃⟩
  refine .pure ?_
  rw [hn₁] at hv
  rw [hn₃]
  simpa using Condition.mk hk₁ hv hk₃

theorem takes_forInitializer (n : Nat) :
    Takes s (forInitializer n) fun ts st s' => ForInitializer s.nextId ts st s'.nextId := by
  refine (takes_accept _).bind ?_
  rintro _ _ s₁ (⟨rfl, rfl, rfl, -⟩ | ⟨semicolon, rfl, rfl, -, hn, hk⟩)
  case inr =>
    refine .pure ?_
    rw [hn]
    exact .none hk
  refine (takes_accept _).bind ?_
  rintro _ _ s₂ (⟨rfl, rfl, rfl, -⟩ | ⟨keyword, rfl, rfl, -, hn, hk⟩)
  · refine (takes_expressionStatement n).bind ?_
    rintro ts st s₃ hs
    exact .pure (by simpa using .expression hs)
  · refine (takes_varDeclaration n).bind ?_
    rintro ts st s₃ hs
    rw [hn] at hs
    exact .pure (by simpa using ForInitializer.var hk hs)

theorem takes_parameters (n : Nat) (s : State) (count : Nat) :
    Takes s (parameters n count) fun ts names s' =>
      ParameterList ts names ∧ count + names.length ≤ maxArity ∧ s'.nextId = s.nextId := by
  induction n generalizing s count with
  | zero => exact .fail _
  | succ n ih =>
    simp only [parameters]
    split
    · exact .fail _
    next hm =>
    refine (takes_expect _ _).bind ?_
    rintro _ name s₁ ⟨rfl, hn₁, hk₁⟩
    refine (takes_accept _).bind ?_
    rintro _ _ s₂ (⟨rfl, rfl, rfl, -⟩ | ⟨comma, rfl, rfl, -, hn₂, hk₂⟩)
    · exact .pure ⟨by simpa using .last hk₁, by simp; omega, hn₁⟩
    · refine (ih s₂ (count + 1)).bind ?_
      rintro us names s₃ ⟨hp, hl, hn₃⟩
      exact .pure ⟨by simpa using ParameterList.more hk₁ hk₂ hp, by simp; omega, by omega⟩

theorem takes_superclassName :
    Takes s
      (do
        let name ← expect .identifier .superclassName
        return Expr.variable (← freshId) name)
      fun ts e s' => ∃ name, ts = [name] ∧ e = .variable ⟨s.nextId⟩ name ∧
        name.kind = .identifier ∧ s'.nextId = s.nextId + 1 := by
  refine (takes_expect _ _).bind ?_
  rintro _ name s₁ ⟨rfl, hn₁, hk₁⟩
  refine takes_freshId.bind ?_
  rintro _ id s₂ ⟨rfl, hn₂, rfl⟩
  exact .pure ⟨name, rfl, by rw [hn₁], hk₁, by omega⟩

theorem forLoop_eq_loop (initializer : Option Stmt) (condition increment : Option Expr)
    (body : Stmt) : forLoop initializer condition increment body =
      loop initializer condition increment body := by
  cases initializer <;> cases increment <;> rfl

/-! ### Statements -/

/-- The next token is not `else`. -/
def NoElse (s : State) : Prop := ∀ t rest, s.ahead = t :: rest → t.kind ≠ .keyword .else

/-- What the rules for statements take with this much fuel. -/
structure DerivesStatements (n : Nat) : Prop where
  declaration (s : State) : Takes s (declaration n) fun ts st s' =>
    Declaration true s.nextId ts st s'.nextId
  classDeclaration {keyword : Token} (s : State) : keyword.kind = .keyword .class →
    Takes s (classDeclaration n) fun ts st s' =>
      Declaration true s.nextId (keyword :: ts) st s'.nextId
  methods (s : State) : Takes s (methods n) fun ts fs s' =>
    Functions true s.nextId ts fs s'.nextId
  function (s : State) (sort : FunctionSort) : Takes s (function n sort) fun ts f s' =>
    Function true s.nextId ts f s'.nextId
  block (s : State) : Takes s (block n) fun ts ss s' => ∃ us closing, ts = us ++ [closing] ∧
    Declarations true s.nextId us ss s'.nextId ∧ closing.kind = .punct .rightBrace
  statement (s : State) : Takes s (statement n) fun ts st s' => ∃ dangles,
    Statement true dangles s.nextId ts st s'.nextId ∧ (dangles = true → NoElse s')

namespace DerivesStatements

variable {n : Nat}

theorem declarationSucc (h : DerivesStatements n) (s : State) :
    Takes s (Parser.declaration (n + 1)) fun ts st s' =>
      Declaration true s.nextId ts st s'.nextId := by
  simp only [Parser.declaration]
  refine (takes_accept _).bind ?_
  rintro _ _ s₁ (⟨rfl, rfl, rfl, -⟩ | ⟨keyword, rfl, rfl, -, hn, hk⟩)
  case inr =>
    refine (h.classDeclaration s₁ hk).imp ?_
    rintro ts st s₂ hs
    rwa [hn] at hs
  refine (takes_accept _).bind ?_
  rintro _ _ s₂ (⟨rfl, rfl, rfl, -⟩ | ⟨keyword, rfl, rfl, -, hn, hk⟩)
  case inr =>
    refine (h.function s₂ .function).bind ?_
    rintro ts f s₃ hf
    rw [hn] at hf
    exact .pure (by simpa using Declaration.function hk hf)
  refine (takes_accept _).bind ?_
  rintro _ _ s₃ (⟨rfl, rfl, rfl, -⟩ | ⟨keyword, rfl, rfl, -, hn, hk⟩)
  case inr =>
    refine (takes_varDeclaration n).imp ?_
    rintro ts st s₄ hs
    rw [hn] at hs
    simpa using Declaration.var hk hs
  refine (h.statement s₃).imp ?_
  rintro ts st s₄ ⟨dangles, hs, -⟩
  simpa using .statement hs

theorem classDeclarationSucc (h : DerivesStatements n) {keyword : Token} (s : State)
    (hk : keyword.kind = .keyword .class) :
    Takes s (Parser.classDeclaration (n + 1)) fun ts st s' =>
      Declaration true s.nextId (keyword :: ts) st s'.nextId := by
  simp only [Parser.classDeclaration]
  refine (takes_expect _ _).bind ?_
  rintro _ name s₁ ⟨rfl, hn₁, hk₁⟩
  refine (takes_accept _).bind ?_
  rintro ts less? s₂ h₂
  refine (takes_optional _ takes_superclassName).bind ?_
  rintro us superclass s₃ h₃
  have hs : Superclass s.nextId (ts ++ us) superclass s₃.nextId := by
    rw [← hn₁]
    obtain ⟨rfl, rfl, rfl, -⟩ | ⟨less, rfl, rfl, -, hn₂, hk₂⟩ := h₂
    · obtain ⟨-, rfl, rfl, rfl⟩ | ⟨ha, -⟩ := h₃
      · exact .none
      · cases ha
    · obtain ⟨ha, -⟩ | ⟨-, _, rfl, superName, rfl, rfl, hk₃, hn₃⟩ := h₃
      · cases ha
      · rw [hn₃, hn₂]
        exact .some hk₂ hk₃
  refine (takes_expect _ _).bind ?_
  rintro _ opening s₄ ⟨rfl, hn₄, hk₄⟩
  refine (h.methods s₄).bind ?_
  rintro vs methods s₅ hm
  refine (takes_expect _ _).bind ?_
  rintro _ closing s₆ ⟨rfl, hn₆, hk₆⟩
  rw [hn₄, ← hn₆] at hm
  exact .pure (by simpa using Declaration.class hk hk₁ hs hk₄ hm hk₆)

theorem methodsSucc (h : DerivesStatements n) (s : State) :
    Takes s (Parser.methods (n + 1)) fun ts fs s' => Functions true s.nextId ts fs s'.nextId := by
  simp only [Parser.methods]
  refine (takes_check _).bind ?_
  rintro _ closes s₁ ⟨rfl, rfl⟩
  refine takes_atEnd.bind ?_
  rintro _ ends s₂ ⟨rfl, rfl⟩
  split
  · exact .pure .nil
  refine (h.function s₂ .method).bind ?_
  rintro ts f s₃ hf
  refine (h.methods s₃).bind ?_
  rintro us fs s₄ hfs
  exact .pure (by simpa using Functions.cons hf hfs)

theorem functionSucc (h : DerivesStatements n) (s : State) (sort : FunctionSort) :
    Takes s (Parser.function (n + 1) sort) fun ts f s' =>
      Function true s.nextId ts f s'.nextId := by
  simp only [Parser.function]
  refine (takes_expect _ _).bind ?_
  rintro _ name s₁ ⟨rfl, hn₁, hk₁⟩
  refine (takes_expect _ _).bind ?_
  rintro _ opening s₂ ⟨rfl, hn₂, hk₂⟩
  refine (takes_check _).bind ?_
  rintro _ closes s₃ ⟨rfl, rfl⟩
  have rest : ∀ {ts params : List Token} (s₄ : State), Parameters ts params →
      params.length ≤ maxArity → s₄.nextId = s.nextId →
      Takes s₄
        (do
          let _ ← expect (.punct .rightParen) .parametersClose
          let _ ← expect (.punct .leftBrace) (.bodyOpen sort)
          return FunDecl.mk name params (← Parser.block n))
        fun us f s' => Function true s.nextId (name :: opening :: (ts ++ us)) f s'.nextId := by
    rintro ts params s₄ hp hl hn₄
    refine (takes_expect _ _).bind ?_
    rintro _ closing s₅ ⟨rfl, hn₅, hk₅⟩
    refine (takes_expect _ _).bind ?_
    rintro _ opening' s₆ ⟨rfl, hn₆, hk₆⟩
    refine (h.block s₆).bind ?_
    rintro _ body s₇ ⟨us, closing', rfl, hb, hk₇⟩
    rw [hn₆, hn₅, hn₄] at hb
    exact .pure (by simpa using Function.mk hk₁ hk₂ hp hl hk₅ hk₆ hb hk₇)
  cases closes with
  | true => simpa using rest s₃ .none (Nat.zero_le _) (by omega)
  | false =>
    refine (takes_parameters n s₃ 0).bind ?_
    rintro ts params s₄ ⟨hp, hl, hn₄⟩
    simpa using rest s₄ (.some hp) (by simpa using hl) (by omega)

theorem blockSucc (h : DerivesStatements n) (s : State) :
    Takes s (Parser.block (n + 1)) fun ts ss s' => ∃ us closing, ts = us ++ [closing] ∧
      Declarations true s.nextId us ss s'.nextId ∧ closing.kind = .punct .rightBrace := by
  simp only [Parser.block]
  refine (takes_check _).bind ?_
  rintro _ closes s₁ ⟨rfl, rfl⟩
  refine takes_atEnd.bind ?_
  rintro _ ends s₂ ⟨rfl, rfl⟩
  split
  · refine (takes_expect _ _).bind ?_
    rintro _ closing s₃ ⟨rfl, hn, hk⟩
    refine .pure ⟨[], closing, by simp, ?_, hk⟩
    rw [hn]
    exact .nil
  refine (h.declaration s₂).bind ?_
  rintro ts st s₃ hs
  refine (h.block s₃).bind ?_
  rintro _ ss s₄ ⟨us, closing, rfl, hss, hk⟩
  exact .pure ⟨ts ++ us, closing, by simp, .cons hs hss, hk⟩

theorem statementSucc (h : DerivesStatements n) (s : State) :
    Takes s (Parser.statement (n + 1)) fun ts st s' => ∃ dangles,
      Statement true dangles s.nextId ts st s'.nextId ∧ (dangles = true → NoElse s') := by
  simp only [Parser.statement]
  refine (takes_accept _).bind ?_
  rintro _ _ s₁ (⟨rfl, rfl, rfl, -⟩ | ⟨keyword, rfl, rfl, -, hn₁, hk₁⟩)
  case inr =>
    refine (takes_expect _ _).bind ?_
    rintro _ opening s₂ ⟨rfl, hn₂, hk₂⟩
    refine (takes_forInitializer n).bind ?_
    rintro ts initializer s₃ hi
    refine (takes_check _).bind ?_
    rintro _ _ s₄ ⟨rfl, rfl⟩
    refine (takes_optionalExpression _ n).bind ?_
    rintro us condition s₅ hc
    refine (takes_expect _ _).bind ?_
    rintro _ semicolon s₆ ⟨rfl, hn₆, hk₆⟩
    refine (takes_check _).bind ?_
    rintro _ _ s₇ ⟨rfl, rfl⟩
    refine (takes_optionalExpression _ n).bind ?_
    rintro vs increment s₈ hi'
    refine (takes_expect _ _).bind ?_
    rintro _ closing s₉ ⟨rfl, hn₉, hk₉⟩
    refine (h.statement s₉).bind ?_
    rintro ws body s₁₀ ⟨dangles, hb, he⟩
    rw [hn₂, hn₁] at hi
    rw [hn₆] at hi'
    rw [hn₉] at hb
    refine .pure ⟨dangles, ?_, he⟩
    rw [forLoop_eq_loop]
    simpa using Statement.for hk₁ hk₂ hi hc hk₆ hi' hk₉ hb
  refine (takes_accept _).bind ?_
  rintro _ _ s₂ (⟨rfl, rfl, rfl, -⟩ | ⟨keyword, rfl, rfl, -, hn₂, hk₂⟩)
  case inr =>
    refine (takes_condition n _).bind ?_
    rintro ts condition s₃ hc
    rw [hn₂] at hc
    refine (h.statement s₃).bind ?_
    rintro us thenBranch s₄ ⟨dangles', ht, he⟩
    refine (takes_accept _).bind ?_
    rintro _ _ s₅ (⟨rfl, rfl, rfl, hno⟩ | ⟨«else», rfl, rfl, hs₄, hn₅, hk₅⟩)
    · exact .pure ⟨true, by simpa using .ifThen hk₂ hc ht, fun _ => hno⟩
    · refine (takes_optional _ (h.statement s₅)).bind ?_
      rintro vs _ s₆ (⟨ha, -⟩ | ⟨-, elseBranch, rfl, dangles, hs, he'⟩)
      · cases ha
      · rw [hn₅] at hs
        -- A branch that dangles would have taken this `else`.
        have hd : dangles' = false := by
          cases dangles' with
          | false => rfl
          | true => exact absurd hk₅ (he rfl _ _ hs₄)
        exact .pure ⟨dangles, by simpa using Statement.ifElse hk₂ hc ht (fun _ => hd) hk₅ hs, he'⟩
  refine (takes_accept _).bind ?_
  rintro _ _ s₃ (⟨rfl, rfl, rfl, -⟩ | ⟨keyword, rfl, rfl, -, hn₃, hk₃⟩)
  case inr =>
    refine (takes_condition n _).bind ?_
    rintro ts condition s₄ hc
    rw [hn₃] at hc
    refine (h.statement s₄).bind ?_
    rintro us body s₅ ⟨dangles, hb, he⟩
    exact .pure ⟨dangles, by simpa using Statement.while hk₃ hc hb, he⟩
  refine (takes_accept _).bind ?_
  rintro _ _ s₄ (⟨rfl, rfl, rfl, -⟩ | ⟨opening, rfl, rfl, -, hn₄, hk₄⟩)
  case inr =>
    refine (h.block s₄).bind ?_
    rintro _ ss s₅ ⟨us, closing, rfl, hss, hk₅⟩
    rw [hn₄] at hss
    exact .pure ⟨false, by simpa using Statement.block hk₄ hss hk₅, by simp⟩
  refine (takes_accept _).bind ?_
  rintro _ _ s₅ (⟨rfl, rfl, rfl, -⟩ | ⟨keyword, rfl, rfl, -, hn₅, hk₅⟩)
  case inr =>
    refine (takes_expression n s₅).bind ?_
    rintro ts value s₆ hv
    refine (takes_expect _ _).bind ?_
    rintro _ semicolon s₇ ⟨rfl, hn₇, hk₇⟩
    rw [hn₅, ← hn₇] at hv
    exact .pure ⟨false, by simpa using Statement.print hk₅ hv hk₇, by simp⟩
  refine (takes_accept _).bind ?_
  rintro _ _ s₆ (⟨rfl, rfl, rfl, -⟩ | ⟨keyword, rfl, rfl, -, hn₆, hk₆⟩)
  case inr =>
    refine (takes_check _).bind ?_
    rintro _ _ s₇ ⟨rfl, rfl⟩
    refine (takes_optionalExpression _ n).bind ?_
    rintro ts value s₈ hv
    refine (takes_expect _ _).bind ?_
    rintro _ semicolon s₉ ⟨rfl, hn₉, hk₉⟩
    rw [hn₆, ← hn₉] at hv
    exact .pure ⟨false, by simpa using Statement.return hk₆ hv hk₉, by simp⟩
  refine (takes_accept _).bind ?_
  rintro _ _ s₇ (⟨rfl, rfl, rfl, -⟩ | ⟨keyword, rfl, rfl, -, hn₇, hk₇⟩)
  case inr =>
    refine (takes_expect _ _).bind ?_
    rintro _ semicolon s₈ ⟨rfl, hn₈, hk₈⟩
    refine .pure ⟨false, ?_, by simp⟩
    rw [hn₈, hn₇]
    exact .break hk₇ hk₈
  refine (takes_expressionStatement n).imp ?_
  rintro ts st s₈ hs
  exact ⟨false, by simpa using .expression hs, by simp⟩

end DerivesStatements

theorem derivesStatements (n : Nat) : DerivesStatements n := by
  induction n with
  | zero =>
    exact
      { declaration := fun _ => .fail _
        classDeclaration := fun _ _ => .fail _
        methods := fun _ => .fail _
        function := fun _ _ => .fail _
        block := fun _ => .fail _
        statement := fun _ => .fail _ }
  | succ n ih =>
    exact
      { declaration := ih.declarationSucc
        classDeclaration := ih.classDeclarationSucc
        methods := ih.methodsSucc
        function := ih.functionSucc
        block := ih.blockSucc
        statement := ih.statementSucc }

/-! ### Programs -/

/-- Without errors the declarations take everything, when there are enough rounds for it. -/
theorem declarations_derive (rounds : Nat) (s : State) (hr : s.ahead.length ≤ rounds)
    (he : (declarations rounds s).2.1 = []) :
    Declarations true s.nextId s.ahead (declarations rounds s).1
      (declarations rounds s).2.2.nextId := by
  induction rounds generalizing s with
  | zero =>
    have hs : s.ahead = [] := List.eq_nil_of_length_eq_zero (by omega)
    rw [hs]
    exact .nil
  | succ n ih =>
    unfold declarations at he ⊢
    split at he
    · next hs =>
      rw [if_pos hs, List.isEmpty_iff.1 hs]
      exact .nil
    · next hs =>
      rw [if_neg hs]
      split at he
      · next st s' hd =>
        obtain ⟨ts, hts, hst⟩ := (derivesStatements _).declaration s _ _ hd
        have hpos := hst.begins.length_pos
        rw [hts]
        refine .cons hst (ih s' ?_ he)
        have hl := congrArg List.length hts
        simp only [List.length_append] at hl
        omega
      · cases he

end Lox.Parser
