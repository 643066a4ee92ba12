import Lox.Proofs.Printing
import Lox.Proofs.Violations

/-!
# The shape of parsed trees

What the grammar says of each single node of a tree: an operator belongs to its node, a name is an
identifier, a word stands where it is a keyword, no list is too long, and no declaration is a branch
of an `if` or the body of a `while`. A property of the tokens read is a property of the tokens kept.
-/

namespace Lox

/-! ### Nodes in a node -/

/-- The part stands at some depth of the node, or is the node itself. -/
def Node.Contains (node part : Node) : Prop := ∃ trail around, Node.Has trail node around part

/-- The node and everything in it are so. -/
def Node.All (P : Node → Prop) (node : Node) : Prop := ∀ part, node.Contains part → P part

namespace Node

variable {P Q : Node → Prop} {node part : Node}

theorem Has.under {trail around : List Enclosure} (h : Has trail node around part) :
    ∀ trail' : List Enclosure, ∃ around', Has trail' node around' part := by
  induction h with
  | self trail node => exact fun trail' => ⟨trail', .self trail' node⟩
  | part hp _ ih =>
    intro trail'
    obtain ⟨around', h⟩ := ih _
    exact ⟨around', .part hp h⟩

theorem Contains.self (node : Node) : node.Contains node := ⟨[], [], .self [] node⟩

theorem Contains.of_part {p : List Enclosure × Node} (hp : p ∈ node.parts)
    (h : p.2.Contains part) : node.Contains part := by
  obtain ⟨trail, around, h⟩ := h
  obtain ⟨around', h⟩ := h.under (p.1 ++ [])
  exact ⟨[], around', .part hp h⟩

theorem Contains.trans {inner : Node} (h : node.Contains part) (hi : part.Contains inner) :
    node.Contains inner := by
  obtain ⟨trail, around, h⟩ := h
  induction h with
  | self => exact hi
  | part hp _ ih => exact .of_part hp (ih hi)

theorem All.self (h : node.All P) : P node := h node (.self node)

theorem All.within (h : node.All P) (hp : node.Contains part) : part.All P :=
  fun _ hi => h _ (hp.trans hi)

theorem all_iff : node.All P ↔ P node ∧ ∀ p ∈ node.parts, p.2.All P := by
  constructor
  · exact fun h => ⟨h.self, fun p hp part hi => h part (.of_part hp hi)⟩
  · rintro ⟨h, hs⟩ part ⟨trail, around, _ | ⟨hp, hi⟩⟩
    · exact h
    · exact hs _ hp part ⟨_, _, hi⟩

/-- So is each part; of a known construct the parts are found by computing. -/
theorem All.child (h : node.All P)
    (hp : part ∈ node.parts.map Prod.snd := by simp [Node.parts, Expr.parts, Stmt.parts]) :
    part.All P := by
  obtain ⟨p, hmem, rfl⟩ := List.mem_map.1 hp
  exact (all_iff.1 h).2 p hmem

end Node

/-! ### What one node is like -/

section

variable (good : Token → Prop)

/-- A good token of this kind. -/
def Token.Of (kind : Kind) (t : Token) : Prop := t.kind = kind ∧ good t

open Grammar in
/-- The node itself is as the grammar has it, whatever stands below. -/
def Node.Fits : Node → Prop
  | .expr (.unary operator _) => Negates operator.kind ∧ good operator
  | .expr (.binary _ operator _) =>
    (∃ level, ¬ IsLogical level ∧ Joins level operator.kind) ∧ good operator
  | .expr (.logical _ operator _) =>
    (∃ level, IsLogical level ∧ Joins level operator.kind) ∧ good operator
  | .expr (.variable _ name) => name.Of good .identifier
  | .expr (.assign _ name _) => name.Of good .identifier
  | .expr (.call _ paren arguments) =>
    paren.Of good (.punct .rightParen) ∧ arguments.length ≤ maxArity
  | .expr (.get _ name) => name.Of good .identifier
  | .expr (.set _ name _) => name.Of good .identifier
  | .expr (.this _ keyword) => keyword.Of good (.keyword .this)
  | .expr (.super _ keyword method) =>
    keyword.Of good (.keyword .super) ∧ method.Of good .identifier
  | .stmt (.var name _) => name.Of good .identifier
  | .stmt (.if _ thenBranch elseBranch) =>
    thenBranch.declared? = none ∧ ∀ s ∈ elseBranch, s.declared? = none
  | .stmt (.while _ body) => body.declared? = none
  | .stmt (.break keyword) => keyword.Of good (.keyword .break)
  | .stmt (.return keyword _) => keyword.Of good (.keyword .return)
  | .stmt (.class name superclass _) =>
    name.Of good .identifier ∧ ∀ e ∈ superclass, ∃ id parent, e = .variable id parent
  | .decl f =>
    f.name.Of good .identifier ∧ (∀ p ∈ f.params, p.Of good .identifier) ∧
      f.params.length ≤ maxArity
  | _ => True

end

/-! ### Expressions -/

namespace Grammar

variable {good : Token → Prop}

mutual

theorem Expression.fits {a b : Nat} {ts : List Token} {e : Expr} :
    Expression a ts e b → (∀ t ∈ ts, good t) → (Node.expr e).All (Node.Fits good)
  | .operation h, hts => h.fits hts
  | .assign hn _ hv, hts => by
    simp only [List.forall_mem_cons] at hts
    exact Node.all_iff.2 ⟨⟨hn, hts.1⟩, by simpa [Node.parts, Expr.parts] using hv.fits hts.2.2⟩
  | .set ho _ hn _ hv, hts => by
    simp only [List.forall_mem_append, List.forall_mem_cons] at hts
    obtain ⟨hts, -, hname, -, hus⟩ := hts
    exact Node.all_iff.2 ⟨⟨hn, hname⟩, by
      simpa [Node.parts, Expr.parts] using ⟨hv.fits hus, ho.fits hts⟩⟩

theorem Operation.fits {a b : Nat} {ts : List Token} {level : Parser.Level} {e : Expr} :
    Operation level a ts e b → (∀ t ∈ ts, good t) → (Node.expr e).All (Node.Fits good)
  | .operand h, hts => h.fits hts
  | .logical hk hl hj hr, hts => by
    simp only [List.forall_mem_append, List.forall_mem_cons] at hts
    obtain ⟨hts, hoperator, hus⟩ := hts
    exact Node.all_iff.2 ⟨⟨⟨_, hk, hj⟩, hoperator⟩, by
      simpa [Node.parts, Expr.parts] using ⟨hl.fits hts, hr.fits hus⟩⟩
  | .binary hk hl hj hr, hts => by
    simp only [List.forall_mem_append, List.forall_mem_cons] at hts
    obtain ⟨hts, hoperator, hus⟩ := hts
    exact Node.all_iff.2 ⟨⟨⟨_, hk, hj⟩, hoperator⟩, by
      simpa [Node.parts, Expr.parts] using ⟨hl.fits hts, hr.fits hus⟩⟩

theorem Operand.fits {a b : Nat} {ts : List Token} {level : Parser.Level} {e : Expr} :
    Operand level a ts e b → (∀ t ∈ ts, good t) → (Node.expr e).All (Node.Fits good)
  | .and h, hts => h.fits hts
  | .equality h, hts => h.fits hts
  | .comparison h, hts => h.fits hts
  | .term h, hts => h.fits hts
  | .factor h, hts => h.fits hts
  | .unary h, hts => h.fits hts

theorem Unary.fits {a b : Nat} {ts : List Token} {e : Expr} :
    Unary a ts e b → (∀ t ∈ ts, good t) → (Node.expr e).All (Node.Fits good)
  | .operator hk hr, hts => by
    simp only [List.forall_mem_cons] at hts
    exact Node.all_iff.2 ⟨⟨hk, hts.1⟩, by simpa [Node.parts, Expr.parts] using hr.fits hts.2⟩
  | .call h, hts => h.fits hts

theorem Call.fits {a b : Nat} {ts : List Token} {e : Expr} :
    Call a ts e b → (∀ t ∈ ts, good t) → (Node.expr e).All (Node.Fits good)
  | .primary h, hts => h.fits hts
  | .arguments hc _ hs hp hl, hts => by
    simp only [List.forall_mem_append, List.forall_mem_cons] at hts
    obtain ⟨⟨hts, -, hus⟩, hparen, -⟩ := hts
    exact Node.all_iff.2 ⟨⟨⟨hp, hparen⟩, hl⟩, by
      simpa [Node.parts, Expr.parts] using ⟨hc.fits hts, hs.fits hus⟩⟩
  | .property ho _ hn, hts => by
    simp only [List.forall_mem_append, List.forall_mem_cons] at hts
    obtain ⟨hts, -, hname, -⟩ := hts
    exact Node.all_iff.2 ⟨⟨hn, hname⟩, by simpa [Node.parts, Expr.parts] using ho.fits hts⟩

theorem Arguments.fits {a b : Nat} {ts : List Token} {es : List Expr} :
    Arguments a ts es b → (∀ t ∈ ts, good t) → ∀ e ∈ es, (Node.expr e).All (Node.Fits good)
  | .none, _ => by simp
  | .some h, hts => h.fits hts

theorem ArgumentList.fits {a b : Nat} {ts : List Token} {es : List Expr} :
    ArgumentList a ts es b → (∀ t ∈ ts, good t) → ∀ e ∈ es, (Node.expr e).All (Node.Fits good)
  | .last h, hts => by simpa using h.fits hts
  | .more h _ hs, hts => by
    simp only [List.forall_mem_append, List.forall_mem_cons] at hts
    exact List.forall_mem_cons.2 ⟨h.fits hts.1, hs.fits hts.2.2⟩

theorem Primary.fits {a b : Nat} {ts : List Token} {e : Expr} :
    Primary a ts e b → (∀ t ∈ ts, good t) → (Node.expr e).All (Node.Fits good)
  | .literal _, _ => Node.all_iff.2 ⟨trivial, by simp [Node.parts, Expr.parts]⟩
  | .this hk, hts =>
    Node.all_iff.2 ⟨⟨hk, hts _ (by simp)⟩, by simp [Node.parts, Expr.parts]⟩
  | .super hk _ hm, hts =>
    Node.all_iff.2 ⟨⟨⟨hk, hts _ (by simp)⟩, hm, hts _ (by simp)⟩, by
      simp [Node.parts, Expr.parts]⟩
  | .variable hn, hts =>
    Node.all_iff.2 ⟨⟨hn, hts _ (by simp)⟩, by simp [Node.parts, Expr.parts]⟩
  | .grouping _ hi _, hts => by
    simp only [List.forall_mem_append, List.forall_mem_cons] at hts
    exact Node.all_iff.2 ⟨trivial, by simpa [Node.parts, Expr.parts] using hi.fits hts.1.2⟩

end

/-! ### Statements -/

theorem OptionalExpression.fits {a b : Nat} {ts : List Token} {e : Option Expr} (h :
    OptionalExpression a ts e b) (hts : ∀ t ∈ ts, good t) :
    ∀ value ∈ e, (Node.expr value).All (Node.Fits good) := by
  cases h with
  | none => simp
  | some h => simpa using h.fits hts

theorem ExpressionStatement.fits {a b : Nat} {ts : List Token} {s : Stmt} (h : ExpressionStatement a
    ts s b) (hts : ∀ t ∈ ts, good t) :
    (Node.stmt s).All (Node.Fits good) ∧ s.declared? = none := by
  cases h with
  | mk h _ =>
    rw [List.forall_mem_append] at hts
    exact ⟨Node.all_iff.2 ⟨trivial, by simpa [Node.parts, Stmt.parts] using h.fits hts.1⟩, rfl⟩

theorem Variable.fits {a b : Nat} {ts : List Token} {s : Stmt} (h : Variable a ts s b) (hts : ∀ t ∈
    ts, good t) :
    (Node.stmt s).All (Node.Fits good) := by
  cases h with
  | bare hn _ =>
    exact Node.all_iff.2 ⟨⟨hn, hts _ (by simp)⟩, by simp [Node.parts, Stmt.parts]⟩
  | initialized hn _ hv _ =>
    simp only [List.forall_mem_append, List.forall_mem_cons] at hts
    obtain ⟨⟨hname, -, hts⟩, -⟩ := hts
    exact Node.all_iff.2 ⟨⟨hn, hname⟩, by simpa [Node.parts, Stmt.parts] using hv.fits hts⟩

theorem Condition.fits {a b : Nat} {ts : List Token} {e : Expr} (h : Condition a ts e b) (hts : ∀ t
    ∈ ts, good t) :
    (Node.expr e).All (Node.Fits good) := by
  cases h with
  | mk _ h _ =>
    simp only [List.forall_mem_append, List.forall_mem_cons] at hts
    exact h.fits hts.1.2

theorem ForInitializer.fits {a b : Nat} {ts : List Token} {initializer : Option Stmt} (h :
    ForInitializer a ts initializer b) (hts : ∀ t ∈ ts, good t) :
    ∀ s ∈ initializer, (Node.stmt s).All (Node.Fits good) := by
  cases h with
  | none _ => simp
  | var _ h =>
    simp only [List.forall_mem_cons] at hts
    simpa using h.fits hts.2
  | expression h => simpa using (h.fits hts).1

theorem ParameterList.fits {ts names : List Token} (h : ParameterList ts names) (hts : ∀ t ∈ ts,
    good t) :
    ∀ p ∈ names, p.Of good .identifier := by
  induction h with
  | last hn => simpa [Token.Of, hn] using hts
  | more hn _ _ ih =>
    simp only [List.forall_mem_cons] at hts
    exact List.forall_mem_cons.2 ⟨⟨hn, hts.1⟩, ih hts.2.2⟩

theorem Parameters.fits {ts names : List Token} (h : Parameters ts names) (hts : ∀ t ∈ ts, good t) :
    ∀ p ∈ names, p.Of good .identifier := by
  cases h with
  | none => simp
  | some h => exact h.fits hts

theorem Superclass.fits {a b : Nat} {ts : List Token} {superclass : Option Expr} (h : Superclass a
    ts superclass b) (hts : ∀ t ∈ ts, good t) :
    ∀ e ∈ superclass, (∃ id parent, e = .variable id parent) ∧ (Node.expr e).All (Node.Fits good) :=
      by
  cases h with
  | none => simp
  | some _ hn =>
    rintro _ ⟨⟩
    exact ⟨⟨_, _, rfl⟩,
      Node.all_iff.2 ⟨⟨hn, hts _ (by simp)⟩, by simp [Node.parts, Expr.parts]⟩⟩

/-- A `for` makes a block and a `while`, neither of which is a declaration. -/
theorem fits_loop {initializer : Option Stmt} {condition increment : Option Expr} {body : Stmt}
    (hi : ∀ s ∈ initializer, (Node.stmt s).All (Node.Fits good))
    (hc : ∀ e ∈ condition, (Node.expr e).All (Node.Fits good))
    (hn : ∀ e ∈ increment, (Node.expr e).All (Node.Fits good))
    (hb : (Node.stmt body).All (Node.Fits good)) (hd : body.declared? = none) :
    (Node.stmt (loop initializer condition increment body)).All (Node.Fits good) ∧
      (loop initializer condition increment body).declared? = none := by
  have hcondition : (Node.expr (condition.getD (.literal (.bool true)))).All (Node.Fits good) := by
    cases condition with
    | none => exact Node.all_iff.2 ⟨trivial, by simp [Node.parts, Expr.parts]⟩
    | some e => exact hc e rfl
  have again : ∀ body : Stmt, (Node.stmt body).All (Node.Fits good) → body.declared? = none →
      (Node.stmt (.while (condition.getD (.literal (.bool true))) body)).All (Node.Fits good) :=
    fun body hb hd => Node.all_iff.2 ⟨hd, by
      simpa [Node.parts, Stmt.parts] using ⟨hcondition, hb⟩⟩
  have block : ∀ body : List Stmt, (∀ s ∈ body, (Node.stmt s).All (Node.Fits good)) →
      (Node.stmt (.block body)).All (Node.Fits good) :=
    fun body hb => Node.all_iff.2 ⟨trivial, by simpa [Node.parts, Stmt.parts] using hb⟩
  have more : ∀ e : Expr, (Node.expr e).All (Node.Fits good) →
      (Node.stmt (.block [body, .expression e])).All (Node.Fits good) := fun e he =>
    block _ (List.forall_mem_cons.2 ⟨hb, List.forall_mem_singleton.2
      (Node.all_iff.2 ⟨trivial, by simpa [Node.parts, Stmt.parts] using he⟩)⟩)
  have after : ∀ s ∈ initializer, ∀ body : Stmt, (Node.stmt body).All (Node.Fits good) →
      (Node.stmt (.block [s, body])).All (Node.Fits good) := fun s hs body hb =>
    block _ (List.forall_mem_cons.2 ⟨hi s hs, List.forall_mem_singleton.2 hb⟩)
  cases initializer with
  | none =>
    cases increment with
    | none => exact ⟨again _ hb hd, rfl⟩
    | some e => exact ⟨again _ (more e (hn e rfl)) rfl, rfl⟩
  | some s =>
    cases increment with
    | none => exact ⟨after s rfl _ (again _ hb hd), rfl⟩
    | some e => exact ⟨after s rfl _ (again _ (more e (hn e rfl)) rfl), rfl⟩

mutual

theorem Declaration.fits {a b : Nat} {ts : List Token} {nearest : Bool} {s : Stmt} :
    Declaration nearest a ts s b → (∀ t ∈ ts, good t) → (Node.stmt s).All (Node.Fits good)
  | .class _ hn hs _ hm _, hts => by
    simp only [List.forall_mem_append, List.forall_mem_cons] at hts
    obtain ⟨⟨⟨-, hname, hsuper⟩, -, hmethods⟩, -⟩ := hts
    refine Node.all_iff.2 ⟨⟨⟨hn, hname⟩, fun e he => (hs.fits hsuper e he).1⟩, ?_⟩
    rintro p hp
    simp only [Node.parts, Stmt.parts, List.mem_append, List.mem_map, Option.mem_toList] at hp
    rcases hp with ⟨e, he, rfl⟩ | ⟨f, hf, rfl⟩
    · exact (hs.fits hsuper e he).2
    · exact hm.fits hmethods f hf
  | .function _ hf, hts => by
    simp only [List.forall_mem_cons] at hts
    exact Node.all_iff.2 ⟨trivial, by simpa [Node.parts, Stmt.parts] using hf.fits hts.2⟩
  | .var _ hv, hts => by
    simp only [List.forall_mem_cons] at hts
    exact hv.fits hts.2
  | .statement h, hts => (h.fits hts).1

theorem Declarations.fits {a b : Nat} {ts : List Token} {nearest : Bool} {ss : List Stmt} :
    Declarations nearest a ts ss b → (∀ t ∈ ts, good t) → ∀ s ∈ ss, (Node.stmt s).All (Node.Fits
      good)
  | .nil, _ => by simp
  | .cons h hs, hts => by
    rw [List.forall_mem_append] at hts
    exact List.forall_mem_cons.2 ⟨h.fits hts.1, hs.fits hts.2⟩

theorem Function.fits {a b : Nat} {ts : List Token} {nearest : Bool} {f : FunDecl} :
    Function nearest a ts f b → (∀ t ∈ ts, good t) → (Node.decl f).All (Node.Fits good)
  | .mk hn _ hp hl _ _ hb _, hts => by
    simp only [List.forall_mem_append, List.forall_mem_cons] at hts
    obtain ⟨⟨⟨hname, -, hparams⟩, -, -, hbody⟩, -⟩ := hts
    exact Node.all_iff.2 ⟨⟨⟨hn, hname⟩, hp.fits hparams, hl⟩, by
      simpa [Node.parts] using hb.fits hbody⟩

theorem Functions.fits {a b : Nat} {ts : List Token} {nearest : Bool} {fs : List FunDecl} :
    Functions nearest a ts fs b → (∀ t ∈ ts, good t) → ∀ f ∈ fs, (Node.decl f).All (Node.Fits good)
  | .nil, _ => by simp
  | .cons h hs, hts => by
    rw [List.forall_mem_append] at hts
    exact List.forall_mem_cons.2 ⟨h.fits hts.1, hs.fits hts.2⟩

theorem Statement.fits {a b : Nat} {ts : List Token} {nearest dangles : Bool} {s : Stmt} :
    Statement nearest dangles a ts s b → (∀ t ∈ ts, good t) → (Node.stmt s).All (Node.Fits good) ∧
      s.declared? = none
  | .expression h, hts => h.fits hts
  | .for _ _ hi hc _ hn _ hb, hts => by
    simp only [List.forall_mem_append, List.forall_mem_cons] at hts
    obtain ⟨⟨⟨⟨-, -, hfirst⟩, hcondition⟩, -, hincrement⟩, -, hbody⟩ := hts
    obtain ⟨hb, hd⟩ := hb.fits hbody
    exact fits_loop (hi.fits hfirst) (hc.fits hcondition) (hn.fits hincrement) hb hd
  | .ifThen _ hc ht, hts => by
    simp only [List.forall_mem_append, List.forall_mem_cons] at hts
    obtain ⟨⟨-, hcondition⟩, hthen⟩ := hts
    obtain ⟨ht, hd⟩ := ht.fits hthen
    exact ⟨Node.all_iff.2 ⟨⟨hd, by simp⟩, by
      simpa [Node.parts, Stmt.parts] using ⟨hc.fits hcondition, ht⟩⟩, rfl⟩
  | .ifElse _ hc ht _ _ he, hts => by
    simp only [List.forall_mem_append, List.forall_mem_cons] at hts
    obtain ⟨⟨⟨-, hcondition⟩, hthen⟩, -, helse⟩ := hts
    obtain ⟨ht, hd⟩ := ht.fits hthen
    obtain ⟨he, hd'⟩ := he.fits helse
    exact ⟨Node.all_iff.2 ⟨⟨hd, by simpa using hd'⟩, by
      simpa [Node.parts, Stmt.parts] using ⟨hc.fits hcondition, ht, he⟩⟩, rfl⟩
  | .while _ hc hb, hts => by
    simp only [List.forall_mem_append, List.forall_mem_cons] at hts
    obtain ⟨⟨-, hcondition⟩, hbody⟩ := hts
    obtain ⟨hb, hd⟩ := hb.fits hbody
    exact ⟨Node.all_iff.2 ⟨hd, by
      simpa [Node.parts, Stmt.parts] using ⟨hc.fits hcondition, hb⟩⟩, rfl⟩
  | .block _ hb _, hts => by
    simp only [List.forall_mem_append, List.forall_mem_cons] at hts
    exact ⟨Node.all_iff.2 ⟨trivial, by
      simpa [Node.parts, Stmt.parts] using hb.fits hts.1.2⟩, rfl⟩
  | .print _ hv _, hts => by
    simp only [List.forall_mem_append, List.forall_mem_cons] at hts
    exact ⟨Node.all_iff.2 ⟨trivial, by
      simpa [Node.parts, Stmt.parts] using hv.fits hts.1.2⟩, rfl⟩
  | .return hk hv _, hts => by
    simp only [List.forall_mem_append, List.forall_mem_cons] at hts
    obtain ⟨⟨hkeyword, hvalue⟩, -⟩ := hts
    exact ⟨Node.all_iff.2 ⟨⟨hk, hkeyword⟩, by
      simpa [Node.parts, Stmt.parts] using hv.fits hvalue⟩, rfl⟩
  | .break hk _, hts =>
    ⟨Node.all_iff.2 ⟨⟨hk, hts _ (by simp)⟩, by simp [Node.parts, Stmt.parts]⟩, rfl⟩

end

end Grammar

/-! ### Programs and sources -/

/-- Every node of a parsed program is as the grammar has it, with tokens of the list. -/
theorem Parser.fits_program {good : Token → Prop} {ts : List Token} {eof : Token}
    (hts : ∀ t ∈ ts, t.kind ≠ .eof) (heof : eof.kind = .eof) (hgood : ∀ t ∈ ts, good t)
    {first next : Nat} {program : List Stmt}
    (h : Parser.program (ts ++ [eof]) first = (.ok program, next)) :
    ∀ s ∈ program, (Node.stmt s).All (Node.Fits good) :=
  ((Parser.program_eq_ok_iff hts heof first program next).1 h).fits hgood

namespace Source

variable {source : String} {first next : Nat}

/-- What a source may be parsed to, with everything that stands in it. -/
def Holds (source : String) (node : Node) : Prop :=
  (∃ first program next s, program? source first = (.ok program, next) ∧ s ∈ program ∧
      (Node.stmt s).Contains node) ∨
    ∃ first e next, expression? source first = (.ok e, next) ∧ (Node.expr e).Contains node

theorem Holds.fits {good : Token → Prop} (hgood : ∀ t ∈ (TokenStream.ofList (Lexer.tokens
    (Lexer.scan source))).ahead, good t) {node : Node} (h : Holds source node) :
    node.All (Node.Fits good) := by
  rcases h with ⟨first, program, next, s, hp, hs, hc⟩ | ⟨first, e, next, he, hc⟩
  · exact ((program?_eq_ok_iff.1 hp).2.fits hgood s hs).within hc
  · exact ((expression_of_ok he).2.fits hgood).within hc

end Source

end Lox
