import Lox.Proofs.Derivations

/-!
# What is derivable is read

Every phrase is taken by its rule, whatever comes behind it, as long as that cannot go on with the
phrase. The rules need a bounded amount of fuel for each token, so that the amount which whole inputs
are given is enough.
-/

namespace Lox

namespace Parser

open Grammar

variable {α β : Type} {eof : Token} {a : Nat}

/-! ### Single tokens -/

theorem bind_ok {p : Parser α} {f : α → Parser β} {s s' : State} {x : α} (h : p s = .ok x s') :
    (p >>= f) s = f x s' := by
  simp only [Bind.bind, EStateM.bind, h]

theorem bind_bind_ok {γ : Type} {p : Parser α} {f : α → Parser β} {g : β → Parser γ}
    {s s' : State} {x : β} (h : (p >>= f) s = .ok x s') :
    (p >>= fun r => f r >>= g) s = g x s' := by
  simp only [Bind.bind, EStateM.bind] at h ⊢
  split at h
  · simp only [h]
  · cases h

theorem acceptIf_cons {wanted : Kind → Bool} {t : Token} (h : wanted t.kind = true)
    (ts : List Token) : acceptIf wanted ⟨t :: ts, eof, a⟩ = .ok (some t) ⟨ts, eof, a⟩ := by
  simp only [acceptIf, h, if_true]

/-- The next token, if there is one, is of no such kind. -/
def Lacks (p : Kind → Prop) (ts : List Token) : Prop := ∀ t us, ts = t :: us → ¬ p t.kind

theorem Lacks.nil {p : Kind → Prop} : Lacks p [] := by
  rintro t us ⟨⟩

theorem Lacks.cons {p : Kind → Prop} {t : Token} (h : ¬ p t.kind) (ts : List Token) :
    Lacks p (t :: ts) := by
  rintro _ _ ⟨⟩
  exact h

theorem Lacks.of_begins {p q : Kind → Prop} {ts : List Token} (h : Begins q ts)
    (hpq : ∀ k, q k → ¬ p k) (us : List Token) : Lacks p (ts ++ us) := by
  obtain ⟨t, vs, rfl, ht⟩ := h
  exact .cons (hpq _ ht) _

theorem Lacks.imp {p q : Kind → Prop} {ts : List Token} (h : Lacks p ts) (hqp : ∀ k, q k → p k) :
    Lacks q ts :=
  fun t us ht hq => h t us ht (hqp _ hq)

theorem acceptIf_none {wanted : Kind → Bool} {ts : List Token}
    (h : Lacks (wanted · = true) ts) : acceptIf wanted ⟨ts, eof, a⟩ = .ok none ⟨ts, eof, a⟩ := by
  cases ts with
  | nil => rfl
  | cons t ts => simp only [acceptIf, h t ts rfl, if_false]

theorem accept_cons {kind : Kind} {t : Token} (h : t.kind = kind) (ts : List Token) :
    accept kind ⟨t :: ts, eof, a⟩ = .ok (some t) ⟨ts, eof, a⟩ :=
  acceptIf_cons (by simpa using h) ts

theorem accept_none {kind : Kind} {ts : List Token} (h : Lacks (· = kind) ts) :
    accept kind ⟨ts, eof, a⟩ = .ok none ⟨ts, eof, a⟩ :=
  acceptIf_none (h.imp fun _ hk => by simpa using hk)

/-- A token of another kind stays where it is. -/
theorem accept_other {kind other : Kind} {t : Token} (hne : other ≠ kind) (h : t.kind = other)
    (ts : List Token) : accept kind ⟨t :: ts, eof, a⟩ = .ok none ⟨t :: ts, eof, a⟩ :=
  accept_none (.cons (by rwa [h]) ts)

theorem expect_cons {kind : Kind} {t : Token} {cause : Cause} (h : t.kind = kind)
    (ts : List Token) : expect kind cause ⟨t :: ts, eof, a⟩ = .ok t ⟨ts, eof, a⟩ :=
  bind_ok (accept_cons h ts)

theorem check_cons {kind : Kind} {t : Token} (h : t.kind = kind) (ts : List Token) :
    check kind ⟨t :: ts, eof, a⟩ = .ok true ⟨t :: ts, eof, a⟩ := by
  simp [check, h]

theorem check_none {kind : Kind} {ts : List Token} (h : Lacks (· = kind) ts) :
    check kind ⟨ts, eof, a⟩ = .ok false ⟨ts, eof, a⟩ := by
  cases ts with
  | nil => rfl
  | cons t ts => simp [check, h t ts rfl]

theorem atEnd_of_begins {p : Kind → Prop} {ts : List Token} (h : Begins p ts) (us : List Token) :
    atEnd ⟨ts ++ us, eof, a⟩ = .ok false ⟨ts ++ us, eof, a⟩ := by
  obtain ⟨t, vs, rfl, -⟩ := h
  rfl

theorem optional_ok {p : Parser α} {s s' : State} {x : α} (h : p s = .ok x s') :
    optional false p s = .ok (some x) s' :=
  bind_ok h

/-! ### What may follow an expression -/

/-- How tightly the operators of a level bind. -/
def Level.rank : Level → Nat
  | .or => 0
  | .and => 1
  | .equality => 2
  | .comparison => 3
  | .term => 4
  | .factor => 5

theorem accepts_iff_joins {level : Level} {kind : Kind} :
    level.accepts kind = true ↔ Joins level kind := by
  refine ⟨joins_of_accepts, fun h => ?_⟩
  cases h <;> simp [Level.accepts]

theorem isUnaryOperator_iff_negates {kind : Kind} : isUnaryOperator kind = true ↔ Negates kind := by
  refine ⟨negates_of_isUnaryOperator, fun h => ?_⟩
  cases h <;> simp [isUnaryOperator]

theorem literal?_of_denotes {kind : Kind} {value : Literal} (h : Denotes kind value) :
    literal? kind = some value := by
  cases h <;> rfl

theorem Level.rank_lt (level : Level) : level.rank < 6 := by
  cases level <;> decide

/-- The tokens that go on with a call, or with an operation of this or a tighter level. -/
inductive Continues (rank : Nat) : Kind → Prop
  | paren : Continues rank (.punct .leftParen)
  | dot : Continues rank (.punct .dot)
  | operator {level : Level} {kind : Kind} :
    rank ≤ level.rank → Joins level kind → Continues rank kind

theorem Continues.mono {rank rank' : Nat} (hr : rank ≤ rank') {kind : Kind} :
    Continues rank' kind → Continues rank kind
  | .paren => .paren
  | .dot => .dot
  | .operator h hj => .operator (Nat.le_trans hr h) hj

/-- The tokens that go on with an expression. -/
inductive Prolongs : Kind → Prop
  | continues {kind : Kind} : Continues 0 kind → Prolongs kind
  | equal : Prolongs (.punct .equal)

/-- The tokens that stand behind the expressions inside other phrases. -/
inductive Closes : Kind → Prop
  | paren : Closes (.punct .rightParen)
  | semicolon : Closes (.punct .semicolon)
  | comma : Closes (.punct .comma)

theorem Closes.not_prolongs {kind : Kind} (h : Closes kind) : ¬ Prolongs kind := by
  rintro (⟨_ | _ | ⟨-, hj⟩⟩ | _) <;> cases h
  all_goals cases hj

theorem Closes.not_opens {kind : Kind} (h : Closes kind) : ¬ Opens kind := by
  rintro (hn | hd | _ | _ | _ | _)
  · cases h <;> cases hn
  · cases h <;> cases hd
  all_goals cases h

/-- An operator continues no operation of a tighter level. -/
theorem not_continues_of_joins {level : Level} {kind : Kind} (h : Joins level kind) :
    ¬ Continues (level.rank + 1) kind := by
  rintro (_ | _ | ⟨hr, hj⟩)
  · cases h
  · cases h
  · cases h <;> cases hj <;> simp [Level.rank] at hr

theorem Lacks.equal (rank : Nat) {t : Token} (h : t.kind = .punct .equal) (ts : List Token) :
    Lacks (Continues rank) (t :: ts) := by
  refine .cons ?_ ts
  rw [h]
  rintro (_ | _ | ⟨-, hj⟩)
  cases hj

theorem not_opens_word {k : Keyword}
    (h : k ∈ [.class, .fun, .var, .for, .if, .while, .print, .return, .break, .else]) :
    ¬ Opens (.keyword k) := by
  rintro (⟨⟨⟩⟩ | ⟨⟨⟩⟩ | _ | _ | _ | _) <;> simp at h

theorem not_opens_leftBrace : ¬ Opens (.punct .leftBrace) := by
  rintro (⟨⟨⟩⟩ | ⟨⟨⟩⟩ | _ | _ | _ | _)

theorem not_opensStatement_word {k : Keyword} (h : k ∈ [.class, .fun, .var, .else]) :
    ¬ OpensStatement (.keyword k) := by
  simp only [List.mem_cons, List.not_mem_nil, or_false] at h
  rintro (ho | _ | ho)
  · exact not_opens_word (by rcases h with rfl | rfl | rfl | rfl <;> decide) ho
  · rcases h with rfl | rfl | rfl | rfl <;> simp at ho

theorem not_opensDeclaration_else : ¬ OpensDeclaration (.keyword .else) := by
  rintro (h | h)
  · exact not_opensStatement_word (by simp) h
  · simp at h

theorem not_opensDeclaration_brace : ¬ OpensDeclaration (.punct .rightBrace) := by
  rintro ((ho | _ | _) | _)
  rcases ho with (⟨⟨⟩⟩ | ⟨⟨⟩⟩ | _ | _ | _ | _)

theorem Lacks.closes {t : Token} {kind : Kind} (ht : t.kind = kind) (h : Closes kind)
    (ts : List Token) : Lacks Prolongs (t :: ts) :=
  .cons (ht ▸ h.not_prolongs) ts

/-! ### Expressions -/

theorem binaryRest_stop {level : Level} {rest : List Token} {m : Nat} (hm : 0 < m)
    (h : Lacks (Continues level.rank) rest) (left : Expr) :
    binaryRest m level left ⟨rest, eof, a⟩ = .ok left ⟨rest, eof, a⟩ := by
  obtain ⟨m, rfl⟩ : ∃ k, m = k + 1 := ⟨m - 1, by omega⟩
  simp only [binaryRest]
  exact bind_ok (acceptIf_none (h.imp fun _ hk => .operator (Nat.le_refl _) (accepts_iff_joins.1 hk)))

theorem binaryRest_cons {level : Level} {operator : Token} (h : Joins level operator.kind)
    (m : Nat) (left : Expr) (ts : List Token) :
    binaryRest (m + 1) level left ⟨operator :: ts, eof, a⟩ =
      (do binaryRest m level (level.node left operator (← operand m level)))
        ⟨ts, eof, a⟩ := by
  simp only [binaryRest]
  exact bind_ok (acceptIf_cons (accepts_iff_joins.2 h) ts)

/-- After its left operand an operation goes on with an operator and the right one. -/
theorem operation_step {level : Level} {operator : Token} {ts us rest : List Token}
    {n m b c : Nat} {s : State} {left right : Expr} (hj : Joins level operator.kind)
    (hm : n ≤ m + 1 + ts.length) (hn : ts.length + 1 < n)
    (hl : binary n level s = binaryRest m level left ⟨operator :: (us ++ rest), eof, b⟩)
    (hr : ∀ k, n ≤ k + 2 + ts.length →
      operand k level ⟨us ++ rest, eof, b⟩ = .ok right ⟨rest, eof, c⟩) :
    ∃ m, n ≤ m + 1 + (ts ++ operator :: us).length ∧ binary n level s =
      binaryRest m level (level.node left operator right) ⟨rest, eof, c⟩ := by
  obtain ⟨m, rfl⟩ : ∃ k, m = k + 1 := ⟨m - 1, by omega⟩
  refine ⟨m, by simp; omega, ?_⟩
  rw [hl, binaryRest_cons hj]
  exact bind_ok (hr m (by omega))

theorem callRest_stop {rank : Nat} {rest : List Token} {m : Nat} (hm : 0 < m)
    (h : Lacks (Continues rank) rest) (callee : Expr) :
    callRest m callee ⟨rest, eof, a⟩ = .ok callee ⟨rest, eof, a⟩ := by
  obtain ⟨m, rfl⟩ : ∃ k, m = k + 1 := ⟨m - 1, by omega⟩
  simp only [callRest]
  refine (bind_ok (accept_none (h.imp ?_))).trans (bind_ok (accept_none (h.imp ?_)))
  · rintro _ rfl
    exact .paren
  · rintro _ rfl
    exact .dot

theorem callRest_property {dot name : Token} (hd : dot.kind = .punct .dot)
    (hn : name.kind = .identifier) (m : Nat) (object : Expr) (ts : List Token) :
    callRest (m + 1) object ⟨dot :: name :: ts, eof, a⟩ =
      callRest m (.get object name) ⟨ts, eof, a⟩ := by
  simp only [callRest]
  exact (bind_ok (accept_other (by simp) hd _)).trans
    ((bind_ok (accept_cons hd _)).trans (bind_ok (expect_cons hn ts)))

theorem binary_of_operand {level : Level} {n b : Nat} {s : State} {e : Expr} {rest : List Token}
    (h : operand n level s = .ok e ⟨rest, eof, b⟩) (hn : 0 < n)
    (hr : Lacks (Continues level.rank) rest) :
    binary (n + 1) level s = .ok e ⟨rest, eof, b⟩ := by
  simp only [binary]
  exact (bind_ok h).trans (binaryRest_stop hn hr e)

/-- An operand is an operation of the next tighter level. -/
theorem operand_of_operation {level tighter : Level} (ht : level.tighter = some tighter)
    {ts : List Token} (hpos : 0 < ts.length) {b : Nat} {e : Expr}
    (h : ∀ (n : Nat) (rest : List Token), 32 * ts.length ≤ n + 1 + 2 * tighter.rank →
      Lacks (Continues (tighter.rank + 1)) rest → ∃ m, n ≤ m + 1 + ts.length ∧
        binary n tighter ⟨ts ++ rest, eof, a⟩ = binaryRest m tighter e ⟨rest, eof, b⟩)
    (n : Nat) (rest : List Token) (hn : 32 * ts.length ≤ n + 2 + 2 * level.rank)
    (hr : Lacks (Continues (level.rank + 1)) rest) :
    operand n level ⟨ts ++ rest, eof, a⟩ = .ok e ⟨rest, eof, b⟩ := by
  have hlt := level.rank_lt
  have hrank : tighter.rank = level.rank + 1 := by
    cases level <;> cases ht <;> rfl
  rw [← hrank] at hr
  obtain ⟨n, rfl⟩ : ∃ k, n = k + 1 := ⟨n - 1, by omega⟩
  obtain ⟨m, hm, hb⟩ := h n rest (by omega) (hr.imp fun _ => .mono (Nat.le_succ _))
  simp only [operand, ht]
  exact hb.trans (binaryRest_stop (by omega) hr e)

/-- An expression with no binary operator outside parentheses, in front of none. -/
theorem binary_of_unary {n b : Nat} {s : State} {e : Expr} {rest : List Token}
    (h : unary n s = .ok e ⟨rest, eof, b⟩) (hr : Lacks (Continues 0) rest) :
    binary (n + 12) .or s = .ok e ⟨rest, eof, b⟩ := by
  have hr' (rank : Nat) : Lacks (Continues rank) rest := hr.imp fun _ => .mono (Nat.zero_le _)
  have factor : binary (n + 2) .factor s = _ := binary_of_operand h (Nat.succ_pos _) (hr' _)
  have term : binary (n + 4) .term s = _ := binary_of_operand factor (Nat.succ_pos _) (hr' _)
  have comparison : binary (n + 6) .comparison s = _ :=
    binary_of_operand term (Nat.succ_pos _) (hr' _)
  have equality : binary (n + 8) .equality s = _ :=
    binary_of_operand comparison (Nat.succ_pos _) (hr' _)
  have and : binary (n + 10) .and s = _ := binary_of_operand equality (Nat.succ_pos _) (hr' _)
  exact binary_of_operand and (Nat.succ_pos _) (hr' _)

theorem acceptIf_negates_none {ts : List Token} (h : Begins OpensPrimary ts)
    (rest : List Token) :
    acceptIf isUnaryOperator ⟨ts ++ rest, eof, a⟩ = .ok none ⟨ts ++ rest, eof, a⟩ :=
  acceptIf_none (.of_begins h (fun _ hk hn => hk.2 (isUnaryOperator_iff_negates.1 hn)) rest)

theorem unary_of_primary {ts rest : List Token} (hts : Begins OpensPrimary ts) {n b : Nat}
    {e : Expr} (h : primary n ⟨ts ++ rest, eof, a⟩ = .ok e ⟨rest, eof, b⟩) :
    unary (n + 1) ⟨ts ++ rest, eof, a⟩ = callRest n e ⟨rest, eof, b⟩ := by
  simp only [unary]
  exact (bind_ok (acceptIf_negates_none hts rest)).trans (bind_ok h)

theorem not_literal {kind kind' : Kind} (h : literal? kind' = none) (hk : kind = kind') :
    ¬ (literal? kind).isSome = true := by
  simp [hk, h]

theorem primary_name {name : Token} (h : name.kind = .identifier) (n : Nat) (ts : List Token) :
    primary (n + 1) ⟨name :: ts, eof, a⟩ = .ok (.variable ⟨a⟩ name) ⟨ts, eof, a + 1⟩ := by
  simp only [primary]
  refine (bind_ok (acceptIf_none (.cons (not_literal rfl h) _))).trans ?_
  refine (bind_ok (accept_other (by simp) h _)).trans ?_
  refine (bind_ok (accept_other (by simp) h _)).trans ?_
  exact bind_ok (accept_cons h ts)

/-- What can be assigned to, in front of the sign of an assignment. -/
theorem expression_assign {n b c d : Nat} {s : State} {target value e : Expr} {equals : Token}
    {us rest : List Token} (ht : unary n s = .ok target ⟨equals :: (us ++ rest), eof, b⟩)
    (he : equals.kind = .punct .equal)
    (hv : expression (n + 12) ⟨us ++ rest, eof, b⟩ = .ok value ⟨rest, eof, c⟩)
    (ha : assignTo target equals value ⟨rest, eof, c⟩ = .ok e ⟨rest, eof, d⟩) :
    expression (n + 13) s = .ok e ⟨rest, eof, d⟩ := by
  have hb := binary_of_unary ht (.equal 0 he _)
  simp only [expression]
  refine (bind_ok hb).trans ?_
  refine (bind_ok (accept_cons he _)).trans ?_
  exact (bind_ok hv).trans ha

end Parser

namespace Grammar

open Lox.Parser

variable {eof : Token}

mutual

/-- An expression is read with fuel for its tokens, in front of nothing that prolongs it. -/
theorem Expression.read {a b : Nat} {ts : List Token} {e : Expr} :
    Expression a ts e b → ∀ (n : Nat) (rest : List Token), 32 * ts.length ≤ n →
      Lacks Prolongs rest → expression n ⟨ts ++ rest, eof, a⟩ = .ok e ⟨rest, eof, b⟩
  | .operation h, n, rest, hn, hr => by
    have hpos := h.begins.length_pos
    obtain ⟨n, rfl⟩ : ∃ k, n = k + 1 := ⟨n - 1, by omega⟩
    have hc : Lacks (Continues Level.or.rank) rest := hr.imp fun _ => .continues
    obtain ⟨m, hm, hb⟩ := h.read n rest (by simp [Level.rank]; omega)
      (hc.imp fun _ => Continues.mono (Nat.le_succ _))
    simp only [expression]
    refine (bind_ok (hb.trans (binaryRest_stop (by omega) hc e))).trans (bind_ok (accept_none ?_))
    refine hr.imp ?_
    rintro _ rfl
    exact .equal
  | @Expression.assign _ b name equals us value hk he hv, n, rest, hn, hr => by
    simp only [List.length_cons] at hn
    obtain ⟨n, rfl⟩ : ∃ k, n = k + 15 := ⟨n - 15, by omega⟩
    have ht : unary (n + 2) ⟨[name] ++ equals :: (us ++ rest), eof, a⟩ =
        .ok (.variable ⟨a⟩ name) ⟨equals :: (us ++ rest), eof, a + 1⟩ :=
      (@unary_of_primary eof a [name] _ (Primary.variable (a := a) hk).begins _ _ _
        (primary_name hk n _)).trans
        (callRest_stop (Nat.succ_pos _) (.equal 0 he _) _)
    exact expression_assign ht he (hv.read _ rest (by omega) hr) rfl
  | @Expression.set _ b _ dot name equals ts us object value hc hd hk he hv, n, rest, hn, hr => by
    have hpos := hc.begins.length_pos
    simp only [List.length_append, List.length_cons] at hn
    obtain ⟨n, rfl⟩ : ∃ k, n = k + 13 := ⟨n - 13, by omega⟩
    obtain ⟨m, hm, hu⟩ := hc.read n (dot :: name :: equals :: (us ++ rest)) (by omega)
    obtain ⟨m, rfl⟩ : ∃ k, m = k + 1 := ⟨m - 1, by omega⟩
    have ht : unary n ⟨ts ++ dot :: name :: equals :: (us ++ rest), eof, a⟩ =
        .ok (.get object name) ⟨equals :: (us ++ rest), eof, b⟩ :=
      (hu.trans (callRest_property hd hk m object _)).trans
        (callRest_stop (by omega) (.equal 0 he _) _)
    simp only [List.append_assoc, List.cons_append]
    exact expression_assign ht he (hv.read _ rest (by omega) hr) rfl

/-- An operation is read up to where more of its level might follow. -/
theorem Operation.read {level : Level} {a b : Nat} {ts : List Token} {e : Expr} :
    Operation level a ts e b → ∀ (n : Nat) (rest : List Token),
      32 * ts.length ≤ n + 1 + 2 * level.rank → Lacks (Continues (level.rank + 1)) rest →
      ∃ m, n ≤ m + 1 + ts.length ∧
        binary n level ⟨ts ++ rest, eof, a⟩ = binaryRest m level e ⟨rest, eof, b⟩
  | .operand h, n, rest, hn, hr => by
    have hpos := h.begins.length_pos
    have hrank := level.rank_lt
    obtain ⟨n, rfl⟩ : ∃ k, n = k + 1 := ⟨n - 1, by omega⟩
    refine ⟨n, by omega, ?_⟩
    simp only [binary]
    exact bind_ok (h.read n rest (by omega) hr)
  | .logical hl h hj hr', n, rest, hn, hr => by
    have hrank := level.rank_lt
    simp only [List.length_append, List.length_cons] at hn
    obtain ⟨m, hm, hb⟩ := h.read n _ (by omega) (.cons (not_continues_of_joins hj) _)
    have hstep := operation_step hj hm (by omega) hb fun k hk => hr'.read k rest (by omega) hr
    rw [List.append_assoc]
    obtain rfl | rfl := hl <;> exact hstep
  | .binary hl h hj hr', n, rest, hn, hr => by
    have hrank := level.rank_lt
    simp only [List.length_append, List.length_cons] at hn
    obtain ⟨m, hm, hb⟩ := h.read n _ (by omega) (.cons (not_continues_of_joins hj) _)
    have hstep := operation_step hj hm (by omega) hb fun k hk => hr'.read k rest (by omega) hr
    rw [List.append_assoc]
    cases level with
    | or => exact absurd (.inl rfl) hl
    | and => exact absurd (.inr rfl) hl
    | _ => exact hstep

theorem Operand.read {level : Level} {a b : Nat} {ts : List Token} {e : Expr} :
    Operand level a ts e b → ∀ (n : Nat) (rest : List Token),
      32 * ts.length ≤ n + 2 + 2 * level.rank → Lacks (Continues (level.rank + 1)) rest →
      operand n level ⟨ts ++ rest, eof, a⟩ = .ok e ⟨rest, eof, b⟩
  | .and h, n, rest, hn, hr =>
    operand_of_operation rfl h.begins.length_pos h.read n rest hn hr
  | .equality h, n, rest, hn, hr =>
    operand_of_operation rfl h.begins.length_pos h.read n rest hn hr
  | .comparison h, n, rest, hn, hr =>
    operand_of_operation rfl h.begins.length_pos h.read n rest hn hr
  | .term h, n, rest, hn, hr =>
    operand_of_operation rfl h.begins.length_pos h.read n rest hn hr
  | .factor h, n, rest, hn, hr =>
    operand_of_operation rfl h.begins.length_pos h.read n rest hn hr
  | .unary h, n, rest, hn, hr => by
    have hpos := h.begins.length_pos
    obtain ⟨n, rfl⟩ : ∃ k, n = k + 1 := ⟨n - 1, by simp [Level.rank] at hn; omega⟩
    exact h.read n rest hn hr

theorem Unary.read {a b : Nat} {ts : List Token} {e : Expr} :
    Unary a ts e b → ∀ (n : Nat) (rest : List Token), 32 * ts.length ≤ n + 13 →
      Lacks (Continues 6) rest → unary n ⟨ts ++ rest, eof, a⟩ = .ok e ⟨rest, eof, b⟩
  | .operator hk h, n, rest, hn, hr => by
    simp only [List.length_cons] at hn
    obtain ⟨n, rfl⟩ : ∃ k, n = k + 1 := ⟨n - 1, by omega⟩
    simp only [unary]
    refine (bind_ok (acceptIf_cons (isUnaryOperator_iff_negates.2 hk) _)).trans ?_
    exact bind_ok (h.read n rest (by omega) hr)
  | .call h, n, rest, hn, hr => by
    have hpos := h.begins.length_pos
    obtain ⟨m, hm, hu⟩ := h.read n rest hn
    exact hu.trans (callRest_stop (by omega) hr e)

theorem Call.read {a b : Nat} {ts : List Token} {e : Expr} :
    Call a ts e b → ∀ (n : Nat) (rest : List Token), 32 * ts.length ≤ n + 13 →
      ∃ m, n ≤ m + 1 + ts.length ∧
        unary n ⟨ts ++ rest, eof, a⟩ = callRest m e ⟨rest, eof, b⟩
  | .primary h, n, rest, hn => by
    have hpos := h.begins.length_pos
    obtain ⟨n, rfl⟩ : ∃ k, n = k + 1 := ⟨n - 1, by omega⟩
    exact ⟨n, by omega, unary_of_primary h.begins (h.read n rest (by omega))⟩
  | @Call.arguments _ b c opening paren ts us callee arguments h ho ha hp hl, n, rest, hn => by
    simp only [List.length_append, List.length_cons, List.length_nil] at hn
    obtain ⟨m, hm, hu⟩ := h.read n (opening :: (us ++ paren :: rest)) (by omega)
    obtain ⟨m, rfl⟩ : ∃ k, m = k + 1 := ⟨m - 1, by omega⟩
    refine ⟨m, by simp; omega, ?_⟩
    simp only [List.append_assoc, List.cons_append, List.nil_append]
    refine hu.trans ?_
    simp only [callRest]
    refine (bind_ok (accept_cons ho _)).trans ?_
    obtain ⟨hcheck, rfl, rfl, rfl⟩ | ⟨hcheck, hread⟩ := ha.read m paren rest (by omega) hp hl
    · exact (bind_ok hcheck).trans (bind_ok (expect_cons hp rest))
    · exact (bind_ok hcheck).trans ((bind_ok hread).trans (bind_ok (expect_cons hp rest)))
  | .property h hd hk, n, rest, hn => by
    simp only [List.length_append, List.length_cons, List.length_nil] at hn
    obtain ⟨m, hm, hu⟩ := h.read n _ (by omega)
    obtain ⟨m, rfl⟩ : ∃ k, m = k + 1 := ⟨m - 1, by omega⟩
    refine ⟨m, by simp; omega, ?_⟩
    rw [List.append_assoc]
    exact hu.trans (callRest_property hd hk m _ rest)

/-- Either the parenthesis is closed at once, or there are arguments before it is. -/
theorem Arguments.read {a b : Nat} {us : List Token} {es : List Expr} :
    Arguments a us es b → ∀ (n : Nat) (t : Token) (rest : List Token), 32 * us.length + 1 ≤ n →
      t.kind = .punct .rightParen → es.length ≤ maxArity →
      (check (.punct .rightParen) ⟨us ++ t :: rest, eof, a⟩ =
          .ok true ⟨us ++ t :: rest, eof, a⟩ ∧ us = [] ∧ es = [] ∧ a = b) ∨
      (check (.punct .rightParen) ⟨us ++ t :: rest, eof, a⟩ =
          .ok false ⟨us ++ t :: rest, eof, a⟩ ∧
        Parser.arguments n 0 ⟨us ++ t :: rest, eof, a⟩ = .ok es ⟨t :: rest, eof, b⟩)
  | .none, n, t, rest, hn, ht, _ => .inl ⟨check_cons ht rest, rfl, rfl, rfl⟩
  | .some h, n, t, rest, hn, ht, hl => by
    refine .inr ⟨check_none (.of_begins h.begins ?_ _), h.read n 0 t rest hn ht (by omega)⟩
    rintro _ ho rfl
    exact Closes.paren.not_opens ho

theorem ArgumentList.read {a b : Nat} {ts : List Token} {es : List Expr} :
    ArgumentList a ts es b → ∀ (n count : Nat) (t : Token) (rest : List Token),
      32 * ts.length + 1 ≤ n → t.kind = .punct .rightParen → count + es.length ≤ maxArity →
      Parser.arguments n count ⟨ts ++ t :: rest, eof, a⟩ = .ok es ⟨t :: rest, eof, b⟩
  | .last h, n, count, t, rest, hn, ht, hl => by
    simp only [List.length_singleton] at hl
    obtain ⟨n, rfl⟩ : ∃ k, n = k + 1 := ⟨n - 1, by omega⟩
    simp only [Parser.arguments]
    rw [if_neg (by omega)]
    refine (bind_ok (h.read n _ (by omega) (.closes ht .paren rest))).trans ?_
    exact bind_ok (accept_other (by simp) ht rest)
  | .more h hc hs, n, count, t, rest, hn, ht, hl => by
    simp only [List.length_append, List.length_cons] at hn hl
    obtain ⟨n, rfl⟩ : ∃ k, n = k + 1 := ⟨n - 1, by omega⟩
    simp only [Parser.arguments, List.append_assoc, List.cons_append]
    rw [if_neg (by omega)]
    refine (bind_ok (h.read n _ (by omega) (.closes hc .comma _))).trans ?_
    refine (bind_ok (accept_cons hc _)).trans ?_
    exact bind_ok (hs.read n (count + 1) t rest (by omega) ht (by omega))

theorem Primary.read {a b : Nat} {ts : List Token} {e : Expr} :
    Primary a ts e b → ∀ (n : Nat) (rest : List Token), 32 * ts.length ≤ n + 14 →
      primary n ⟨ts ++ rest, eof, a⟩ = .ok e ⟨rest, eof, b⟩
  | @Primary.literal _ t value hd, n, rest, hn => by
    simp only [List.length_singleton] at hn
    obtain ⟨n, rfl⟩ : ∃ k, n = k + 1 := ⟨n - 1, by omega⟩
    have hl := literal?_of_denotes hd
    simp only [primary]
    refine (bind_ok (acceptIf_cons (by simp [hl]) _)).trans ?_
    simp [hl]
    rfl
  | .this hk, n, rest, hn => by
    simp only [List.length_singleton] at hn
    obtain ⟨n, rfl⟩ : ∃ k, n = k + 1 := ⟨n - 1, by omega⟩
    simp only [primary]
    refine (bind_ok (acceptIf_none (.cons (not_literal rfl hk) _))).trans ?_
    exact bind_ok (accept_cons hk _)
  | .super hk hd hm, n, rest, hn => by
    simp only [List.length_cons, List.length_nil] at hn
    obtain ⟨n, rfl⟩ : ∃ k, n = k + 1 := ⟨n - 1, by omega⟩
    simp only [primary]
    refine (bind_ok (acceptIf_none (.cons (not_literal rfl hk) _))).trans ?_
    refine (bind_ok (accept_other (by simp) hk _)).trans ?_
    refine (bind_ok (accept_cons hk _)).trans ?_
    refine (bind_ok (expect_cons hd _)).trans ?_
    exact bind_ok (expect_cons hm _)
  | .variable hk, n, rest, hn => by
    simp only [List.length_singleton] at hn
    obtain ⟨n, rfl⟩ : ∃ k, n = k + 1 := ⟨n - 1, by omega⟩
    exact primary_name hk n rest
  | .grouping ho hi hc, n, rest, hn => by
    simp only [List.length_append, List.length_cons, List.length_nil] at hn
    obtain ⟨n, rfl⟩ : ∃ k, n = k + 1 := ⟨n - 1, by omega⟩
    simp only [primary, List.append_assoc, List.cons_append, List.nil_append]
    refine (bind_ok (acceptIf_none (.cons (not_literal rfl ho) _))).trans ?_
    refine (bind_ok (accept_other (by simp) ho _)).trans ?_
    refine (bind_ok (accept_other (by simp) ho _)).trans ?_
    refine (bind_ok (accept_other (by simp) ho _)).trans ?_
    refine (bind_ok (accept_cons ho _)).trans ?_
    refine (bind_ok (hi.read n _ (by omega) (.closes hc .paren rest))).trans ?_
    exact bind_ok (expect_cons hc rest)

end

/-! ### Parts of statements -/

theorem OptionalExpression.read {a b : Nat} {ts : List Token} {e : Option Expr}
    (h : OptionalExpression a ts e b) {n : Nat} {kind : Kind} {t : Token}
    (hn : 32 * ts.length ≤ n) (hk : Closes kind) (ht : t.kind = kind) (rest : List Token) :
    (check kind >>= fun closes => optional closes (expression n)) ⟨ts ++ t :: rest, eof, a⟩ =
      .ok e ⟨t :: rest, eof, b⟩ := by
  cases h with
  | none => exact bind_ok (check_cons ht rest)
  | some h =>
    refine (bind_ok (check_none (.of_begins h.begins ?_ _))).trans ?_
    · rintro _ ho rfl
      exact hk.not_opens ho
    · exact bind_ok (h.read n _ hn (.closes ht hk rest))

theorem ExpressionStatement.read {a b : Nat} {ts : List Token} {s : Stmt}
    (h : ExpressionStatement a ts s b) {n : Nat} (hn : 32 * ts.length ≤ n + 32)
    (rest : List Token) : expressionStatement n ⟨ts ++ rest, eof, a⟩ = .ok s ⟨rest, eof, b⟩ := by
  cases h with
  | mk hv hk =>
    simp only [List.length_append, List.length_singleton] at hn
    simp only [List.append_assoc, List.cons_append, List.nil_append]
    exact (bind_ok (hv.read n _ (by omega) (.closes hk .semicolon rest))).trans
      (bind_ok (expect_cons hk rest))

theorem Variable.read {a b : Nat} {ts : List Token} {s : Stmt} (h : Variable a ts s b) {n : Nat}
    (hn : 32 * ts.length ≤ n + 32) (rest : List Token) :
    varDeclaration n ⟨ts ++ rest, eof, a⟩ = .ok s ⟨rest, eof, b⟩ := by
  cases h with
  | bare hk hs =>
    refine (bind_ok (expect_cons hk _)).trans ?_
    refine (bind_ok (accept_other (by simp) hs _)).trans ?_
    exact bind_ok (expect_cons hs rest)
  | initialized hk he hv hs =>
    simp only [List.length_append, List.length_cons, List.length_nil] at hn
    simp only [List.append_assoc, List.cons_append, List.nil_append]
    refine (bind_ok (expect_cons hk _)).trans ?_
    refine (bind_ok (accept_cons he _)).trans ?_
    refine (bind_ok (optional_ok (hv.read n _ (by omega) (.closes hs .semicolon rest)))).trans ?_
    exact bind_ok (expect_cons hs rest)

theorem Condition.read {a b : Nat} {ts : List Token} {e : Expr} (h : Condition a ts e b) {n : Nat}
    (hn : 32 * ts.length ≤ n + 64) (opening : Cause) (rest : List Token) :
    condition n opening ⟨ts ++ rest, eof, a⟩ = .ok e ⟨rest, eof, b⟩ := by
  cases h with
  | mk ho hv hc =>
    simp only [List.length_append, List.length_cons, List.length_nil] at hn
    simp only [List.append_assoc, List.cons_append, List.nil_append]
    refine (bind_ok (expect_cons ho _)).trans ?_
    refine (bind_ok (hv.read n _ (by omega) (.closes hc .paren rest))).trans ?_
    exact bind_ok (expect_cons hc rest)

theorem ForInitializer.read {a b : Nat} {ts : List Token} {s : Option Stmt}
    (h : ForInitializer a ts s b) {n : Nat} (hn : 32 * ts.length ≤ n + 32) (rest : List Token) :
    forInitializer n ⟨ts ++ rest, eof, a⟩ = .ok s ⟨rest, eof, b⟩ := by
  cases h with
  | none hs => exact bind_ok (accept_cons hs _)
  | var hk hv =>
    simp only [List.length_cons] at hn
    refine (bind_ok (accept_other (by simp) hk _)).trans ?_
    refine (bind_ok (accept_cons hk _)).trans ?_
    exact bind_ok (hv.read (by omega) rest)
  | expression hs =>
    have hb := hs.begins
    refine (bind_ok (accept_none (.of_begins hb ?_ rest))).trans ?_
    · rintro _ ho rfl
      exact Closes.semicolon.not_opens ho
    refine (bind_ok (accept_none (.of_begins hb ?_ rest))).trans ?_
    · rintro _ ho rfl
      exact not_opens_word (by simp) ho
    exact bind_ok (hs.read hn rest)

theorem ParameterList.read {a : Nat} {ts names : List Token} (h : ParameterList ts names)
    {n count : Nat} {t : Token} (hn : ts.length ≤ n) (ht : t.kind = .punct .rightParen)
    (hl : count + names.length ≤ maxArity) (rest : List Token) :
    parameters n count ⟨ts ++ t :: rest, eof, a⟩ = .ok names ⟨t :: rest, eof, a⟩ := by
  induction h generalizing n count with
  | last hk =>
    simp only [List.length_singleton] at hn hl
    obtain ⟨n, rfl⟩ : ∃ k, n = k + 1 := ⟨n - 1, by omega⟩
    simp only [parameters]
    rw [if_neg (by omega)]
    refine (bind_ok (expect_cons hk _)).trans ?_
    exact bind_ok (accept_other (by simp) ht rest)
  | more hk hc _ ih =>
    simp only [List.length_cons] at hn hl
    obtain ⟨n, rfl⟩ : ∃ k, n = k + 1 := ⟨n - 1, by omega⟩
    simp only [parameters]
    rw [if_neg (by omega)]
    refine (bind_ok (expect_cons hk _)).trans ?_
    refine (bind_ok (accept_cons hc _)).trans ?_
    exact bind_ok (ih (by omega) (by omega))

/-- Either the parenthesis is closed at once, or there are parameters before it is. -/
theorem Parameters.read {a : Nat} {ts names : List Token} (h : Parameters ts names) {n : Nat}
    {t : Token} (hn : ts.length ≤ n) (ht : t.kind = .punct .rightParen)
    (hl : names.length ≤ maxArity) (rest : List Token) :
    (check (.punct .rightParen) ⟨ts ++ t :: rest, eof, a⟩ =
        .ok true ⟨ts ++ t :: rest, eof, a⟩ ∧ ts = [] ∧ names = []) ∨
    (check (.punct .rightParen) ⟨ts ++ t :: rest, eof, a⟩ =
        .ok false ⟨ts ++ t :: rest, eof, a⟩ ∧
      parameters n 0 ⟨ts ++ t :: rest, eof, a⟩ = .ok names ⟨t :: rest, eof, a⟩) := by
  cases h with
  | none => exact .inl ⟨check_cons ht rest, rfl, rfl⟩
  | some h =>
    refine .inr ⟨check_none (.of_begins h.begins ?_ _), h.read hn ht (by omega) rest⟩
    rintro _ rfl he
    cases he

theorem Superclass.read {a b : Nat} {ts : List Token} {superclass : Option Expr}
    (h : Superclass a ts superclass b) {t : Token} (ht : t.kind = .punct .leftBrace)
    (rest : List Token) :
    (accept (.punct .less) >>= fun less => optional less.isNone do
        let name ← expect .identifier .superclassName
        return Expr.variable (← freshId) name) ⟨ts ++ t :: rest, eof, a⟩ =
      .ok superclass ⟨t :: rest, eof, b⟩ := by
  cases h with
  | none => exact bind_ok (accept_other (by simp) ht rest)
  | some hl hn =>
    exact (bind_ok (accept_cons hl _)).trans (bind_ok (bind_ok (expect_cons hn _)))

/-! ### Statements -/

theorem Declarations.lacks_else {nearest : Bool} {a b : Nat} {ts : List Token} {ss : List Stmt}
    (h : Declarations nearest a ts ss b) {rest : List Token}
    (hr : Lacks (· = .keyword .else) rest) : Lacks (· = .keyword .else) (ts ++ rest) := by
  cases h with
  | nil => exact hr
  | cons h _ =>
    rw [List.append_assoc]
    refine .of_begins h.begins ?_ _
    rintro _ ho rfl
    exact not_opensDeclaration_else ho

mutual

/-- A declaration is read with fuel for its tokens, in front of anything but an `else`. -/
theorem Declaration.read {a b : Nat} {ts : List Token} {s : Stmt} :
    Declaration true a ts s b → ∀ (n : Nat) (rest : List Token), 32 * ts.length ≤ n →
      Lacks (· = .keyword .else) rest →
      declaration n ⟨ts ++ rest, eof, a⟩ = .ok s ⟨rest, eof, b⟩
  | .class hk hn hs ho hm hc, n, rest, hl, _ => by
    simp only [List.length_append, List.length_cons, List.length_nil] at hl
    obtain ⟨n, rfl⟩ : ∃ k, n = k + 2 := ⟨n - 2, by omega⟩
    simp only [declaration, classDeclaration, List.append_assoc, List.cons_append,
      List.nil_append]
    refine (bind_ok (accept_cons hk _)).trans ?_
    refine (bind_ok (expect_cons hn _)).trans ?_
    refine (bind_bind_ok (hs.read ho _)).trans ?_
    refine (bind_ok (expect_cons ho _)).trans ?_
    refine (bind_ok (hm.read n _ rest (by omega) hc)).trans ?_
    exact bind_ok (expect_cons hc rest)
  | .function hk hf, n, rest, hl, _ => by
    simp only [List.length_cons] at hl
    obtain ⟨n, rfl⟩ : ∃ k, n = k + 1 := ⟨n - 1, by omega⟩
    simp only [declaration]
    refine (bind_ok (accept_other (by simp) hk _)).trans ?_
    refine (bind_ok (accept_cons hk _)).trans ?_
    exact bind_ok (hf.read n .function rest (by omega))
  | .var hk hv, n, rest, hl, _ => by
    simp only [List.length_cons] at hl
    obtain ⟨n, rfl⟩ : ∃ k, n = k + 1 := ⟨n - 1, by omega⟩
    simp only [declaration]
    refine (bind_ok (accept_other (by simp) hk _)).trans ?_
    refine (bind_ok (accept_other (by simp) hk _)).trans ?_
    refine (bind_ok (accept_cons hk _)).trans ?_
    exact hv.read (by omega) rest
  | .statement h, n, rest, hl, hr => by
    have hpos := h.begins.length_pos
    obtain ⟨n, rfl⟩ : ∃ k, n = k + 1 := ⟨n - 1, by omega⟩
    have hno {k : Keyword} (hk : k ∈ [.class, .fun, .var, .else]) :
        Lacks (· = .keyword k) (ts ++ rest) := by
      refine .of_begins h.begins ?_ rest
      rintro _ ho rfl
      exact not_opensStatement_word hk ho
    simp only [declaration]
    refine (bind_ok (accept_none (hno (by simp)))).trans ?_
    refine (bind_ok (accept_none (hno (by simp)))).trans ?_
    refine (bind_ok (accept_none (hno (by simp)))).trans ?_
    exact h.read n rest (by omega) fun _ => hr

theorem Declarations.read {a b : Nat} {ts : List Token} {ss : List Stmt} :
    Declarations true a ts ss b → ∀ (n : Nat) (t : Token) (rest : List Token),
      32 * ts.length + 1 ≤ n → t.kind = .punct .rightBrace →
      block n ⟨ts ++ t :: rest, eof, a⟩ = .ok ss ⟨rest, eof, b⟩
  | .nil, n, t, rest, hn, ht => by
    obtain ⟨n, rfl⟩ : ∃ k, n = k + 1 := ⟨n - 1, by omega⟩
    simp only [block]
    refine (bind_ok (check_cons ht rest)).trans ?_
    exact bind_ok (expect_cons ht rest)
  | .cons h hs, n, t, rest, hn, ht => by
    have hpos := h.begins.length_pos
    simp only [List.length_append] at hn
    obtain ⟨n, rfl⟩ : ∃ k, n = k + 1 := ⟨n - 1, by omega⟩
    have hno : Lacks (· = .keyword .else) (t :: rest) := .cons (by simp [ht]) rest
    rw [List.append_assoc]
    simp only [block]
    refine (bind_ok (check_none (.of_begins h.begins ?_ _))).trans ?_
    · rintro _ hb rfl
      exact not_opensDeclaration_brace hb
    refine (bind_ok (atEnd_of_begins h.begins _)).trans ?_
    refine (bind_ok (h.read n _ (by omega) (hs.lacks_else hno))).trans ?_
    exact bind_ok (hs.read n t rest (by omega) ht)

theorem Function.read {a b : Nat} {ts : List Token} {f : FunDecl} :
    Function true a ts f b → ∀ (n : Nat) (sort : FunctionSort) (rest : List Token),
      32 * ts.length ≤ n → function n sort ⟨ts ++ rest, eof, a⟩ = .ok f ⟨rest, eof, b⟩
  | .mk hn ho hp hl hc ho' hb hc', n, sort, rest, hlen => by
    simp only [List.length_append, List.length_cons, List.length_nil] at hlen
    obtain ⟨n, rfl⟩ : ∃ k, n = k + 1 := ⟨n - 1, by omega⟩
    simp only [function, List.append_assoc, List.cons_append, List.nil_append]
    refine (bind_ok (expect_cons hn _)).trans ?_
    refine (bind_ok (expect_cons ho _)).trans ?_
    have hbody := hb.read n _ rest (by omega) hc'
    obtain ⟨hcheck, rfl, rfl⟩ | ⟨hcheck, hread⟩ := hp.read (n := n) (by omega) hc hl _
    · refine (bind_ok hcheck).trans ?_
      refine (bind_ok (expect_cons hc _)).trans ?_
      exact (bind_ok (expect_cons ho' _)).trans (bind_ok hbody)
    · refine (bind_ok hcheck).trans ((bind_ok hread).trans ?_)
      refine (bind_ok (expect_cons hc _)).trans ?_
      exact (bind_ok (expect_cons ho' _)).trans (bind_ok hbody)

theorem Functions.read {a b : Nat} {ts : List Token} {fs : List FunDecl} :
    Functions true a ts fs b → ∀ (n : Nat) (t : Token) (rest : List Token),
      32 * ts.length + 1 ≤ n → t.kind = .punct .rightBrace →
      methods n ⟨ts ++ t :: rest, eof, a⟩ = .ok fs ⟨t :: rest, eof, b⟩
  | .nil, n, t, rest, hn, ht => by
    obtain ⟨n, rfl⟩ : ∃ k, n = k + 1 := ⟨n - 1, by omega⟩
    simp only [methods]
    exact bind_ok (check_cons ht rest)
  | .cons h hs, n, t, rest, hn, ht => by
    have hpos := h.begins.length_pos
    simp only [List.length_append] at hn
    obtain ⟨n, rfl⟩ : ∃ k, n = k + 1 := ⟨n - 1, by omega⟩
    rw [List.append_assoc]
    simp only [methods]
    refine (bind_ok (check_none (.of_begins h.begins ?_ _))).trans ?_
    · rintro _ rfl hb
      cases hb
    refine (bind_ok (atEnd_of_begins h.begins _)).trans ?_
    refine (bind_ok (h.read n .method _ (by omega))).trans ?_
    exact bind_ok (hs.read n t rest (by omega) ht)

theorem Statement.read {dangles : Bool} {a b : Nat} {ts : List Token} {s : Stmt} :
    Statement true dangles a ts s b → ∀ (n : Nat) (rest : List Token), 32 * ts.length ≤ n + 1 →
      (dangles = true → Lacks (· = .keyword .else) rest) →
      statement n ⟨ts ++ rest, eof, a⟩ = .ok s ⟨rest, eof, b⟩
  | .expression h, n, rest, hl, _ => by
    have hpos := h.begins.length_pos
    obtain ⟨n, rfl⟩ : ∃ k, n = k + 1 := ⟨n - 1, by omega⟩
    have hno {kind : Kind} (hk : ¬ Opens kind) :
        accept kind ⟨ts ++ rest, eof, a⟩ = .ok none ⟨ts ++ rest, eof, a⟩ := by
      refine accept_none (.of_begins h.begins ?_ rest)
      rintro _ ho rfl
      exact hk ho
    simp only [statement]
    -- None of the words and no brace begins an expression, so every rule before the last declines.
    refine (bind_ok (hno (not_opens_word (by simp)))).trans ?_
    refine (bind_ok (hno (not_opens_word (by simp)))).trans ?_
    refine (bind_ok (hno (not_opens_word (by simp)))).trans ?_
    refine (bind_ok (hno not_opens_leftBrace)).trans ?_
    refine (bind_ok (hno (not_opens_word (by simp)))).trans ?_
    refine (bind_ok (hno (not_opens_word (by simp)))).trans ?_
    refine (bind_ok (hno (not_opens_word (by simp)))).trans ?_
    exact h.read (by omega) rest
  | .for hk ho hi hc hs hn hp hb, n, rest, hl, hr => by
    simp only [List.length_append, List.length_cons] at hl
    obtain ⟨n, rfl⟩ : ∃ k, n = k + 1 := ⟨n - 1, by omega⟩
    simp only [statement, List.append_assoc, List.cons_append]
    refine (bind_ok (accept_cons hk _)).trans ?_
    refine (bind_ok (expect_cons ho _)).trans ?_
    refine (bind_ok (hi.read (by omega) _)).trans ?_
    refine (bind_bind_ok (hc.read (by omega) .semicolon hs _)).trans ?_
    refine (bind_ok (expect_cons hs _)).trans ?_
    refine (bind_bind_ok (hn.read (by omega) .paren hp _)).trans ?_
    refine (bind_ok (expect_cons hp _)).trans ?_
    refine (bind_ok (hb.read n rest (by omega) hr)).trans ?_
    rw [forLoop_eq_loop]
    rfl
  | .ifThen hk hc ht, n, rest, hl, hr => by
    simp only [List.length_append, List.length_cons] at hl
    obtain ⟨n, rfl⟩ : ∃ k, n = k + 1 := ⟨n - 1, by omega⟩
    simp only [statement, List.append_assoc, List.cons_append]
    refine (bind_ok (accept_other (by simp) hk _)).trans ?_
    refine (bind_ok (accept_cons hk _)).trans ?_
    refine (bind_ok (hc.read (by omega) _ _)).trans ?_
    refine (bind_ok (ht.read n rest (by omega) fun _ => hr rfl)).trans ?_
    exact bind_ok (accept_none (hr rfl))
  | .ifElse hk hc ht hn he hs, n, rest, hl, hr => by
    simp only [List.length_append, List.length_cons] at hl
    obtain ⟨n, rfl⟩ : ∃ k, n = k + 1 := ⟨n - 1, by omega⟩
    simp only [statement, List.append_assoc, List.cons_append]
    refine (bind_ok (accept_other (by simp) hk _)).trans ?_
    refine (bind_ok (accept_cons hk _)).trans ?_
    refine (bind_ok (hc.read (by omega) _ _)).trans ?_
    refine (bind_ok (ht.read n _ (by omega) fun hd => ?_)).trans ?_
    · rw [hn rfl] at hd
      cases hd
    refine (bind_ok (accept_cons he _)).trans ?_
    exact bind_ok (optional_ok (hs.read n rest (by omega) hr))
  | .while hk hc hb, n, rest, hl, hr => by
    simp only [List.length_append, List.length_cons] at hl
    obtain ⟨n, rfl⟩ : ∃ k, n = k + 1 := ⟨n - 1, by omega⟩
    simp only [statement, List.append_assoc, List.cons_append]
    refine (bind_ok (accept_other (by simp) hk _)).trans ?_
    refine (bind_ok (accept_other (by simp) hk _)).trans ?_
    refine (bind_ok (accept_cons hk _)).trans ?_
    refine (bind_ok (hc.read (by omega) _ _)).trans ?_
    exact bind_ok (hb.read n rest (by omega) hr)
  | .block ho hb hc, n, rest, hl, _ => by
    simp only [List.length_append, List.length_cons, List.length_nil] at hl
    obtain ⟨n, rfl⟩ : ∃ k, n = k + 1 := ⟨n - 1, by omega⟩
    simp only [statement, List.append_assoc, List.cons_append, List.nil_append]
    refine (bind_ok (accept_other (by simp) ho _)).trans ?_
    refine (bind_ok (accept_other (by simp) ho _)).trans ?_
    refine (bind_ok (accept_other (by simp) ho _)).trans ?_
    refine (bind_ok (accept_cons ho _)).trans ?_
    exact bind_ok (hb.read n _ rest (by omega) hc)
  | .print hk hv hs, n, rest, hl, _ => by
    simp only [List.length_append, List.length_cons, List.length_nil] at hl
    obtain ⟨n, rfl⟩ : ∃ k, n = k + 1 := ⟨n - 1, by omega⟩
    simp only [statement, List.append_assoc, List.cons_append, List.nil_append]
    refine (bind_ok (accept_other (by simp) hk _)).trans ?_
    refine (bind_ok (accept_other (by simp) hk _)).trans ?_
    refine (bind_ok (accept_other (by simp) hk _)).trans ?_
    refine (bind_ok (accept_other (by simp) hk _)).trans ?_
    refine (bind_ok (accept_cons hk _)).trans ?_
    refine (bind_ok (hv.read n _ (by omega) (.closes hs .semicolon rest))).trans ?_
    exact bind_ok (expect_cons hs rest)
  | .return hk hv hs, n, rest, hl, _ => by
    simp only [List.length_append, List.length_cons, List.length_nil] at hl
    obtain ⟨n, rfl⟩ : ∃ k, n = k + 1 := ⟨n - 1, by omega⟩
    simp only [statement, List.append_assoc, List.cons_append, List.nil_append]
    refine (bind_ok (accept_other (by simp) hk _)).trans ?_
    refine (bind_ok (accept_other (by simp) hk _)).trans ?_
    refine (bind_ok (accept_other (by simp) hk _)).trans ?_
    refine (bind_ok (accept_other (by simp) hk _)).trans ?_
    refine (bind_ok (accept_other (by simp) hk _)).trans ?_
    refine (bind_ok (accept_cons hk _)).trans ?_
    refine (bind_bind_ok (hv.read (by omega) .semicolon hs rest)).trans ?_
    exact bind_ok (expect_cons hs rest)
  | .break hk hs, n, rest, hl, _ => by
    simp only [List.length_cons, List.length_nil] at hl
    obtain ⟨n, rfl⟩ : ∃ k, n = k + 1 := ⟨n - 1, by omega⟩
    simp only [statement, List.cons_append, List.nil_append]
    refine (bind_ok (accept_other (by simp) hk _)).trans ?_
    refine (bind_ok (accept_other (by simp) hk _)).trans ?_
    refine (bind_ok (accept_other (by simp) hk _)).trans ?_
    refine (bind_ok (accept_other (by simp) hk _)).trans ?_
    refine (bind_ok (accept_other (by simp) hk _)).trans ?_
    refine (bind_ok (accept_other (by simp) hk _)).trans ?_
    refine (bind_ok (accept_cons hk _)).trans ?_
    exact bind_ok (expect_cons hs rest)

end

end Grammar

namespace Parser

/-! ### Programs -/

open Grammar

/-- A list of declarations is read to its end with one round for each token. -/
theorem declarations_read {b : Nat} {ts : List Token} {ss : List Stmt} :
    Declarations true a ts ss b → ∀ rounds, ts.length ≤ rounds →
      declarations rounds ⟨ts, eof, a⟩ = (ss, [], ⟨[], eof, b⟩)
  | .nil, rounds, _ => by
    cases rounds <;> rfl
  | @Declarations.cons _ _ b c us vs s ss h hs, rounds, hr => by
    have hpos := h.begins.length_pos
    simp only [List.length_append] at hr
    obtain ⟨n, rfl⟩ : ∃ k, rounds = k + 1 := ⟨rounds - 1, by omega⟩
    have hlacks : Lacks (· = .keyword .else) vs := by simpa using hs.lacks_else .nil
    have hread : declaration (fuelFor (us ++ vs)) ⟨us ++ vs, eof, a⟩ = .ok s ⟨vs, eof, b⟩ :=
      h.read _ vs (by simp [fuelFor]; omega) hlacks
    have hne : (us ++ vs).isEmpty = false := by
      obtain ⟨t, ws, rfl, -⟩ := h.begins
      rfl
    simp only [declarations, hne, hread, declarations_read hs n (by omega), Bool.false_eq_true,
      if_false]

theorem ofList_append {ts : List Token} (hts : ∀ t ∈ ts, t.kind ≠ .eof) (heof : eof.kind = .eof) :
    TokenStream.ofList (ts ++ [eof]) = ⟨ts, eof⟩ := by
  have htake : ∀ t ∈ ts, (!(t.kind == .eof)) = true := by simpa using hts
  have hfind : ts.find? (fun t => t.kind == .eof) = none := by simpa using hts
  simp only [TokenStream.ofList]
  rw [List.takeWhile_append_of_pos htake, List.find?_append, hfind]
  simp [heof]

theorem program_eq_ok_iff {ts : List Token} (hts : ∀ t ∈ ts, t.kind ≠ .eof)
    (heof : eof.kind = .eof) (first : Nat) (ss : List Stmt) (next : Nat) :
    program (ts ++ [eof]) first = (.ok ss, next) ↔ Declarations true first ts ss next := by
  constructor
  · intro h
    simp only [program, ofList_append hts heof] at h
    obtain ⟨hss, rfl⟩ := Prod.mk.inj h
    split at hss
    · next he =>
      cases hss
      exact declarations_derive _ ⟨ts, eof, first⟩ (Nat.le_refl _) (List.isEmpty_iff.1 he)
    · cases hss
  · intro h
    simp only [program, ofList_append hts heof, declarations_read h _ (Nat.le_refl _),
      List.isEmpty_nil, if_true]

/-- The parser accepts what the grammar allows and nothing else. It gives back the trees of the
declarations, with every `else` at the nearest `if` and every `for` as the loop it stands for; what
the grammar does not allow has an error. -/
theorem program_recognizes {ts : List Token} (hts : ∀ t ∈ ts, t.kind ≠ .eof)
    (heof : eof.kind = .eof) (first : Nat) :
    ((∃ ss, (program (ts ++ [eof]) first).1 = .ok ss) ↔
      ∃ ss next, Declarations false first ts ss next) ∧
    (∀ ss next, program (ts ++ [eof]) first = (.ok ss, next) ↔
      Declarations true first ts ss next) ∧
    ((¬ ∃ ss next, Declarations false first ts ss next) →
      ∃ errors, errors ≠ [] ∧ (program (ts ++ [eof]) first).1 = .error errors) := by
  have hiff := program_eq_ok_iff hts heof first
  have haccepts : (∃ ss, (program (ts ++ [eof]) first).1 = .ok ss) ↔
      ∃ ss next, Declarations false first ts ss next := by
    constructor
    · rintro ⟨ss, h⟩
      exact ⟨ss, _, ((hiff ss _).1 (Prod.ext h rfl)).loosen⟩
    · rintro ⟨ss, next, h⟩
      obtain ⟨ss', h'⟩ := h.settle
      exact ⟨ss', congrArg Prod.fst ((hiff ss' next).2 h')⟩
  refine ⟨haccepts, hiff, fun hnot => ?_⟩
  rw [← haccepts] at hnot
  simp only [program] at hnot ⊢
  split
  · next he => exact absurd ⟨_, if_pos he⟩ hnot
  · next he => exact ⟨_, fun h => he (by rw [h]; rfl), rfl⟩

/-- The `else` of `if (a) if (b) c; else d;` belongs to the second `if`. -/
theorem program_recognizes_nested_if :
    let word (k : Keyword) (text : String) : Token := ⟨.keyword k, text, 1⟩
    let mark (p : Punct) (text : String) : Token := ⟨.punct p, text, 1⟩
    let name (text : String) : Token := ⟨.identifier, text, 1⟩
    let eof : Token := ⟨.eof, "", 1⟩
    let ts := [word .if "if", mark .leftParen "(", name "a", mark .rightParen ")",
      word .if "if", mark .leftParen "(", name "b", mark .rightParen ")",
      name "c", mark .semicolon ";", word .else "else", name "d", mark .semicolon ";"]
    (∀ t ∈ ts, t.kind ≠ .eof) ∧ eof.kind = .eof ∧
      program (ts ++ [eof]) 0 =
        (.ok [.if (.variable ⟨0⟩ (name "a"))
          (.if (.variable ⟨1⟩ (name "b")) (.expression (.variable ⟨2⟩ (name "c")))
            (some (.expression (.variable ⟨3⟩ (name "d"))))) none], 4) := by
  intro word mark name eof ts
  have hts : ∀ t ∈ ts, t.kind ≠ .eof := by simp [ts, word, mark, name]
  have hname (a : Nat) (text : String) :
      Expression a [name text] (.variable ⟨a⟩ (name text)) (a + 1) :=
    .of_call (.primary (.variable rfl))
  have hif (a : Nat) (text : String) :
      Condition a [mark .leftParen "(", name text, mark .rightParen ")"] _ (a + 1) :=
    .mk rfl (hname a text) rfl
  have hstmt (a : Nat) (text : String) :
      Statement true false a [name text, mark .semicolon ";"] _ (a + 1) :=
    .expression (.mk (hname a text) rfl)
  have hword (k : Keyword) (text : String) : (word k text).kind = .keyword k := rfl
  have hinner := Statement.ifElse (hword .if "if") (hif 1 "b") (hstmt 2 "c") (fun _ => rfl)
    (hword .else "else") (hstmt 3 "d")
  have houter := Statement.ifThen (hword .if "if") (hif 0 "a") hinner
  exact ⟨hts, rfl, ((program_recognizes hts rfl 0).2.1 _ _).2 (.cons (.statement houter) .nil)⟩

end Parser

end Lox
