import Lox.Proofs.Forms
import Lox.Proofs.Layout
import Lox.Proofs.Shapes

/-!
# The printed tree determines the tree

A printed tree is a form, which its text determines, and the word that a form begins with, with the
number of forms behind it, tells the construct. So two trees of parsed sources that are printed alike
are the same up to node ids and lines. String literals are left out, since their contents are printed
as they stand, and of numbers it is asked that they are written apart, each as digits with one point.
-/

namespace Lox

/-- Every node id and every line is forgotten. -/
def Renaming.bare : Renaming := ⟨fun _ => ⟨0⟩, fun _ => 0⟩

theorem Renaming.node_bare (id : NodeId) : bare.node id = ⟨0⟩ := rfl

/-! ### The form of a tree -/

mutual

def Expr.form : Expr → Form
  | .literal value => .word value.text
  | .grouping inner => .group [.word "group", inner.form]
  | .unary operator right => .group [.word operator.lexeme, right.form]
  | .binary left operator right => .group [.word operator.lexeme, left.form, right.form]
  | .logical left operator right => .group [.word operator.lexeme, left.form, right.form]
  | .variable _ name => .word name.lexeme
  | .assign _ name value => .group [.word "=", .word name.lexeme, value.form]
  | .call callee _ arguments => .group (.word "call" :: callee.form :: Expr.forms arguments)
  | .get object name => .group [.word ".", object.form, .word name.lexeme]
  | .set object name value => .group [.word ".=", object.form, .word name.lexeme, value.form]
  | .this _ _ => .word "this"
  | .super _ _ method => .group [.word "super", .word method.lexeme]

def Expr.forms : List Expr → List Form
  | [] => []
  | e :: es => e.form :: Expr.forms es

end

mutual

def Stmt.form : Stmt → Form
  | .expression value => value.form
  | .print value => .group [.word "print", value.form]
  | .var name none => .group [.word "var", .word name.lexeme]
  | .var name (some value) => .group [.word "var", .word name.lexeme, value.form]
  | .block body => .group (.word "block" :: Stmt.forms body)
  | .if condition thenBranch none => .group [.word "if", condition.form, thenBranch.form]
  | .if condition thenBranch (some elseBranch) =>
    .group [.word "if", condition.form, thenBranch.form, elseBranch.form]
  | .while condition body => .group [.word "while", condition.form, body.form]
  | .break _ => .group [.word "break"]
  | .function decl => decl.form "fun"
  | .return _ none => .group [.word "return"]
  | .return _ (some value) => .group [.word "return", value.form]
  | .class name none methods =>
    .group (.word "class" :: .word name.lexeme :: FunDecl.forms methods)
  | .class name (some superclass) methods =>
    .group (.word "class" :: .word name.lexeme :: .word "<" :: superclass.form ::
      FunDecl.forms methods)

def Stmt.forms : List Stmt → List Form
  | [] => []
  | s :: ss => s.form :: Stmt.forms ss

def FunDecl.form (word : String) : FunDecl → Form
  | ⟨name, params, body⟩ =>
    .group (.word word :: .word name.lexeme :: .group (params.map fun p => .word p.lexeme) ::
      Stmt.forms body)

def FunDecl.forms : List FunDecl → List Form
  | [] => []
  | f :: fs => f.form "method" :: FunDecl.forms fs

end

theorem Stmt.form_var (name : Token) (value : Option Expr) : (Stmt.var name value).form =
    .group (.word "var" :: .word name.lexeme :: value.toList.map Expr.form) := by
  cases value <;> rfl

theorem Stmt.form_return (keyword : Token) (value : Option Expr) :
    (Stmt.return keyword value).form = .group (.word "return" :: value.toList.map Expr.form) := by
  cases value <;> rfl

mutual

theorem Expr.text_form : ∀ e : Expr, e.form.text = e.text
  | .literal _ => rfl
  | .grouping inner => by simp [Expr.form, Expr.text, Expr.text_form inner]
  | .unary _ right => by simp [Expr.form, Expr.text, Expr.text_form right]
  | .binary left _ right => by
    simp [Expr.form, Expr.text, Expr.text_form left, Expr.text_form right]
  | .logical left _ right => by
    simp [Expr.form, Expr.text, Expr.text_form left, Expr.text_form right]
  | .variable _ _ => rfl
  | .assign _ _ value => by simp [Expr.form, Expr.text, Expr.text_form value]
  | .call callee _ arguments => by
    simp [Expr.form, Expr.text, Expr.text_form callee, Expr.texts_forms arguments]
  | .get object _ => by simp [Expr.form, Expr.text, Expr.text_form object]
  | .set object _ value => by
    simp [Expr.form, Expr.text, Expr.text_form object, Expr.text_form value]
  | .this _ _ => rfl
  | .super _ _ _ => rfl

theorem Expr.texts_forms : ∀ es : List Expr, Form.texts (Expr.forms es) = Expr.texts es
  | [] => rfl
  | e :: es => by simp [Expr.forms, Expr.texts, Expr.text_form e, Expr.texts_forms es]

end

theorem paramsText_form (params : List Token) :
    (Form.group (params.map fun p => .word p.lexeme)).text = paramsText params := by
  have words : ∀ params : List Token,
      Form.texts (params.map fun p => .word p.lexeme) = params.map (·.lexeme) := by
    intro params
    induction params with
    | nil => rfl
    | cons p params ih => rw [List.map_cons, List.map_cons, Form.texts, ih, Form.text]
  rw [Form.text, words, paramsText]

mutual

theorem Stmt.text_form : ∀ s : Stmt, s.form.text = s.text
  | .expression value => value.text_form
  | .print value => by simp [Stmt.form, Stmt.text, value.text_form]
  | .var _ none => rfl
  | .var _ (some value) => by simp [Stmt.form, Stmt.text, value.text_form]
  | .block body => by simp [Stmt.form, Stmt.text, Stmt.texts_forms body]
  | .if condition thenBranch none => by
    simp [Stmt.form, Stmt.text, condition.text_form, Stmt.text_form thenBranch]
  | .if condition thenBranch (some elseBranch) => by
    simp [Stmt.form, Stmt.text, condition.text_form, Stmt.text_form thenBranch,
      Stmt.text_form elseBranch]
  | .while condition body => by
    simp [Stmt.form, Stmt.text, condition.text_form, Stmt.text_form body]
  | .break _ => rfl
  | .function decl => FunDecl.text_form "fun" decl
  | .return _ none => rfl
  | .return _ (some value) => by simp [Stmt.form, Stmt.text, value.text_form]
  | .class _ none methods => by
    simp [Stmt.form, Stmt.text, FunDecl.texts_forms methods]
  | .class _ (some superclass) methods => by
    simp [Stmt.form, Stmt.text, superclass.text_form,
      FunDecl.texts_forms methods]

theorem Stmt.texts_forms : ∀ ss : List Stmt, Form.texts (Stmt.forms ss) = Stmt.texts ss
  | [] => rfl
  | s :: ss => by simp [Stmt.forms, Stmt.texts, Stmt.text_form s, Stmt.texts_forms ss]

theorem FunDecl.text_form (word : String) : ∀ f : FunDecl, (f.form word).text = f.text word
  | ⟨_, params, body⟩ => by
    rw [FunDecl.form, Form.text]
    simp only [Form.texts, paramsText_form, Stmt.texts_forms body, FunDecl.text]
    rfl

theorem FunDecl.texts_forms : ∀ fs : List FunDecl, Form.texts (FunDecl.forms fs) = FunDecl.texts fs
  | [] => rfl
  | f :: fs => by
    simp [FunDecl.forms, FunDecl.texts, FunDecl.text_form "method" f, FunDecl.texts_forms fs]

end

/-! ### Words -/

/-- The token is spelled as the lexical grammar has it. -/
def Token.IsLexeme (t : Token) : Prop := Lexer.Spells t.lexeme.toList t.kind

namespace Lexer.Spells

variable {text : List Char}

theorem eq_chars {p : Punct} (h : Spells text (.punct p)) : text = p.chars := by
  generalize hk : Kind.punct p = kind at h
  cases h <;> cases hk
  rfl

theorem eq_spelling {k : Keyword} (h : Spells text (.keyword k)) : text = k.spelling.toList := by
  generalize hk : Kind.keyword k = kind at h
  cases h <;> cases hk
  rfl

theorem is_name (h : Spells text .identifier) :
    text ≠ [] ∧ (∀ c ∈ text, IsLetter c ∨ IsDigit c) ∧ ∀ k : Keyword, text ≠ k.spelling.toList := by
  generalize hk : Kind.identifier = kind at h
  cases h <;> cases hk
  next c cs hc hcs hword =>
  exact ⟨by simp, List.forall_mem_cons.2 ⟨.inl hc, hcs⟩, hword⟩

end Lexer.Spells

theorem Lexer.isPlain_of_word {c : Char} (h : IsLetter c ∨ IsDigit c) : Form.IsPlain c ∧ c ≠ '.' := by
  refine ⟨⟨?_, ?_, ?_⟩, ?_⟩ <;> rintro rfl <;> exact absurd h (by decide)

namespace Token

variable {t u : Token}

/-- The spelling tells the kind. -/
theorem IsLexeme.kind_eq (ht : t.IsLexeme) (hu : u.IsLexeme) (h : t.lexeme = u.lexeme) :
    t.kind = u.kind := by
  rw [IsLexeme, h] at ht
  exact ht.unique hu

theorem IsLexeme.relabel_eq (ht : t.IsLexeme) (hu : u.IsLexeme) (h : t.lexeme = u.lexeme) :
    t.relabel Renaming.bare.line = u.relabel Renaming.bare.line := by
  simp only [relabel, Renaming.bare, ht.kind_eq hu h, h]

/-- A name is a word, and neither a keyword nor a number. -/
theorem Of.is_name (h : t.Of IsLexeme .identifier) : Form.PlainWord t.lexeme ∧
    '.' ∉ t.lexeme.toList ∧ ∀ k : Keyword, t.lexeme ≠ k.spelling := by
  obtain ⟨hk, h⟩ := h
  rw [IsLexeme, hk] at h
  obtain ⟨hne, hc, hword⟩ := h.is_name
  exact ⟨⟨hne, fun c hm => (Lexer.isPlain_of_word (hc c hm)).1⟩,
    fun hm => (Lexer.isPlain_of_word (hc _ hm)).2 rfl, fun k he => hword k (congrArg _ he)⟩

theorem Of.eq_chars {p : Punct} (hk : t.kind = .punct p) (h : t.IsLexeme) :
    t.lexeme = .ofList p.chars := by
  rw [IsLexeme, hk] at h
  rw [← h.eq_chars, String.ofList_toList]

theorem Of.eq_spelling {k : Keyword} (hk : t.kind = .keyword k) (h : t.IsLexeme) :
    t.lexeme = k.spelling := by
  rw [IsLexeme, hk] at h
  exact String.toList_inj.1 h.eq_spelling

/-- A token of a kind that has one spelling. -/
theorem Of.relabel_eq {kind : Kind} (ht : t.Of IsLexeme kind) (hu : u.Of IsLexeme kind)
    (hkind : (∃ p, kind = .punct p) ∨ ∃ k, kind = .keyword k) :
    t.relabel Renaming.bare.line = u.relabel Renaming.bare.line := by
  refine ht.2.relabel_eq hu.2 ?_
  rcases hkind with ⟨p, rfl⟩ | ⟨k, rfl⟩
  · rw [eq_chars ht.1 ht.2, eq_chars hu.1 hu.2]
  · rw [eq_spelling ht.1 ht.2, eq_spelling hu.1 hu.2]

end Token

open Grammar in
theorem Token.unary_word {t : Token} (h : Negates t.kind) (hl : t.IsLexeme) :
    t.lexeme ∈ ["!", "-"] := by
  generalize hk : t.kind = kind at h
  cases h <;> rw [Of.eq_chars hk hl] <;> decide

open Grammar in
theorem Token.logical_word {t : Token} (h : ∃ level, IsLogical level ∧ Joins level t.kind)
    (hl : t.IsLexeme) : t.lexeme ∈ ["and", "or"] := by
  obtain ⟨level, hlogical, h⟩ := h
  generalize hk : t.kind = kind at h
  rcases hlogical with rfl | rfl <;> cases h <;> rw [Of.eq_spelling hk hl] <;> decide

open Grammar in
theorem Token.binary_word {t : Token} (h : ∃ level, ¬ IsLogical level ∧ Joins level t.kind)
    (hl : t.IsLexeme) :
    t.lexeme ∈ ["!=", "==", ">", ">=", "<", "<=", "-", "+", "*", "/"] := by
  obtain ⟨level, hlogical, h⟩ := h
  generalize hk : t.kind = kind at h
  cases h with
  | or => exact absurd (.inl rfl) hlogical
  | and => exact absurd (.inr rfl) hlogical
  | _ => rw [Of.eq_chars hk hl]; decide

/-! ### Literals -/

/-- Different numbers of the class are written differently, each as digits with one point. That the
finite numbers of sources are such a class is what a host promises. -/
structure Literal.WritesApart (numbers : Float → Prop) : Prop where
  injective : ∀ x y, numbers x → numbers y → numberText x = numberText y → x = y
  digits : ∀ x, numbers x → ∀ c ∈ (numberText x).toList, Lexer.IsDigit c ∨ c = '.'
  point : ∀ x, numbers x → (numberText x).toList.count '.' = 1

/-- No string, and no number but those of the class. -/
def Literal.Within (numbers : Float → Prop) : Literal → Prop
  | .string _ => False
  | .number x => numbers x
  | _ => True

/-- No string literal stands in the node, and no number but those of the class. -/
def Node.Literals (numbers : Float → Prop) (node : Node) : Prop :=
  ∀ value, node.Contains (.expr (.literal value)) → value.Within numbers

section

variable {numbers : Float → Prop} (hw : Literal.WritesApart numbers)
include hw

theorem Literal.WritesApart.is_word {x : Float} (hx : numbers x) :
    Form.PlainWord (numberText x) ∧ '.' ∈ (numberText x).toList := by
  have hpoint : '.' ∈ (numberText x).toList :=
    List.count_pos_iff.1 (by rw [hw.point x hx]; decide)
  refine ⟨⟨List.ne_nil_of_mem hpoint, fun c hc => ?_⟩, hpoint⟩
  rcases hw.digits x hx c hc with hd | rfl
  · exact (Lexer.isPlain_of_word (.inr hd)).1
  · decide

theorem Literal.plainWord : ∀ value : Literal, value.Within numbers → Form.PlainWord value.text
  | .nil, _ => by decide
  | .bool true, _ => by decide
  | .bool false, _ => by decide
  | .number _, h => (hw.is_word h).1

theorem Literal.text_inj {value value' : Literal} (h : value.Within numbers)
    (h' : value'.Within numbers) (ht : value.text = value'.text) : value = value' := by
  have other : ∀ x, numbers x → ∀ s : String, '.' ∉ s.toList → numberText x ≠ s := by
    rintro x hx s hs rfl
    exact hs (hw.is_word hx).2
  cases value with
  | string s => exact h.elim
  | nil =>
    cases value' with
    | string s => exact h'.elim
    | nil => rfl
    | bool b => cases b <;> exact absurd ht (by decide)
    | number x => exact absurd ht.symm (other x h' _ (by decide))
  | bool b =>
    cases value' with
    | string s => exact h'.elim
    | nil => cases b <;> exact absurd ht (by decide)
    | bool b' => cases b <;> cases b' <;> first | rfl | exact absurd ht (by decide)
    | number x => cases b <;> exact absurd ht.symm (other x h' _ (by decide))
  | number x =>
    cases value' with
    | string s => exact h'.elim
    | nil => exact absurd ht (other x h _ (by decide))
    | bool b => cases b <;> exact absurd ht (other x h _ (by decide))
    | number y => rw [hw.injective x y h h' ht]

end

/-! ### Constructs -/

inductive Expr.Construct
  | literal | grouping | unary | binary | logical | variable | assign | call | get | set | this | super

def Expr.construct : Expr → Expr.Construct
  | .literal _ => .literal
  | .grouping _ => .grouping
  | .unary _ _ => .unary
  | .binary _ _ _ => .binary
  | .logical _ _ _ => .logical
  | .variable _ _ => .variable
  | .assign _ _ _ => .assign
  | .call _ _ _ => .call
  | .get _ _ => .get
  | .set _ _ _ => .set
  | .this _ _ => .this
  | .super _ _ _ => .super

inductive Stmt.Construct
  | expression | print | var | block | «if» | «while» | «break» | function | «return» | «class»

def Stmt.construct : Stmt → Stmt.Construct
  | .expression _ => .expression
  | .print _ => .print
  | .var _ _ => .var
  | .block _ => .block
  | .if _ _ _ => .if
  | .while _ _ => .while
  | .break _ => .break
  | .function _ => .function
  | .return _ _ => .return
  | .class _ _ _ => .class

namespace Form

/-- The construct that a word in front stands for, if it stands for one only. -/
def exprWords : List (String × Expr.Construct) :=
  [("group", .grouping), ("and", .logical), ("or", .logical), ("=", .assign), ("call", .call),
    (".", .get), (".=", .set), ("super", .super)]

/-- The construct of an expression, read off its form: a minus may stand for two of them. -/
def exprConstruct : Form → Expr.Construct
  | .word w =>
    if w = "this" then .this
    else if w ∈ ["nil", "true", "false"] ∨ '.' ∈ w.toList then .literal
    else .variable
  | .group (.word w :: operands) =>
    (exprWords.lookup w).getD (if operands.length = 1 then .unary else .binary)
  | .group _ => .grouping

def stmtWords : List (String × Stmt.Construct) :=
  [("print", .print), ("var", .var), ("block", .block), ("if", .if), ("while", .while),
    ("break", .break), ("fun", .function), ("return", .return), ("class", .class)]

/-- The construct of a statement, read off its form. -/
def stmtConstruct : Form → Stmt.Construct
  | .group (.word w :: _) => (stmtWords.lookup w).getD .expression
  | _ => .expression

end Form

/-- What is asked of each node so that its text determines it. -/
def Node.Printable (numbers : Float → Prop) (node : Node) : Prop :=
  node.Fits Token.IsLexeme ∧ ∀ value, node = .expr (.literal value) → value.Within numbers

section

variable {numbers : Float → Prop}

theorem Node.all_printable {node : Node} (h : node.All (Node.Fits Token.IsLexeme))
    (hl : node.Literals numbers) : node.All (Node.Printable numbers) :=
  fun part hp => ⟨h part hp, fun value he => hl value (he ▸ hp)⟩

variable (hw : Literal.WritesApart numbers)
include hw

theorem Expr.construct_form {e : Expr} (h : (Node.expr e).Printable numbers) :
    e.form.exprConstruct = e.construct := by
  obtain ⟨hfits, hliteral⟩ := h
  cases e with
  | literal value =>
    have hv := hliteral value rfl
    cases value with
    | string s => exact hv.elim
    | nil => rfl
    | bool b => cases b <;> rfl
    | number x =>
      have hpoint := (hw.is_word hv).2
      have hthis : Literal.numberText x ≠ "this" := fun he => absurd (he ▸ hpoint) (by decide)
      simp [form, construct, Form.exprConstruct, Literal.text, hpoint, hthis]
  | unary operator right =>
    have hlookup : ∀ w ∈ ["!", "-"], Form.exprWords.lookup w = none := by decide
    have hnone := hlookup _ (Token.unary_word hfits.1 hfits.2)
    simp [form, construct, Form.exprConstruct, hnone]
  | binary left operator right =>
    have hlookup : ∀ w ∈ ["!=", "==", ">", ">=", "<", "<=", "-", "+", "*", "/"],
      Form.exprWords.lookup w = none := by decide
    have hnone := hlookup _ (Token.binary_word hfits.1 hfits.2)
    simp [form, construct, Form.exprConstruct, hnone]
  | logical left operator right =>
    have hlookup : ∀ w ∈ ["and", "or"], ∃ c, Form.exprWords.lookup w = some c ∧ c = .logical := by
      simp [Form.exprWords, List.lookup]
    obtain ⟨_, hsome, rfl⟩ := hlookup _ (Token.logical_word hfits.1 hfits.2)
    simp [form, construct, Form.exprConstruct, hsome]
  | «variable» id name =>
    obtain ⟨-, hpoint, hkeyword⟩ := hfits.is_name
    have hthis : name.lexeme ≠ "this" := hkeyword .this
    have hnil : name.lexeme ≠ "nil" := hkeyword .nil
    have htrue : name.lexeme ≠ "true" := hkeyword .true
    have hfalse : name.lexeme ≠ "false" := hkeyword .false
    simp [form, construct, Form.exprConstruct, hthis, hnil, htrue, hfalse, hpoint]
  | _ => rfl

omit hw in
/-- The form of an expression does not look like that of another statement. -/
theorem Expr.stmtConstruct_form {e : Expr} (h : (Node.expr e).Fits Token.IsLexeme) :
    e.form.stmtConstruct = .expression := by
  cases e with
  | unary operator right =>
    have hlookup : ∀ w ∈ ["!", "-"], Form.stmtWords.lookup w = none := by
      simp [Form.stmtWords, List.lookup]
    have hnone := hlookup _ (Token.unary_word h.1 h.2)
    simp [form, Form.stmtConstruct, hnone]
  | binary left operator right =>
    have hlookup : ∀ w ∈ ["!=", "==", ">", ">=", "<", "<=", "-", "+", "*", "/"],
      Form.stmtWords.lookup w = none := by simp [Form.stmtWords, List.lookup]
    have hnone := hlookup _ (Token.binary_word h.1 h.2)
    simp [form, Form.stmtConstruct, hnone]
  | logical left operator right =>
    have hlookup : ∀ w ∈ ["and", "or"], Form.stmtWords.lookup w = none := by
      simp [Form.stmtWords, List.lookup]
    have hnone := hlookup _ (Token.logical_word h.1 h.2)
    simp [form, Form.stmtConstruct, hnone]
  | _ => rfl

omit hw in
theorem Stmt.construct_form {s : Stmt} (h : (Node.stmt s).All (Node.Printable numbers)) :
    s.form.stmtConstruct = s.construct := by
  cases s with
  | expression value =>
    have hv : (Node.expr value).All (Node.Printable numbers) := h.child
    exact Expr.stmtConstruct_form hv.self.1
  | var name initializer => cases initializer <;> rfl
  | «if» condition thenBranch elseBranch => cases elseBranch <;> rfl
  | function decl => cases decl; rfl
  | «return» keyword value => cases value <;> rfl
  | «class» name superclass methods => cases superclass <;> rfl
  | _ => rfl

end

/-! ### Every word is plain -/

section

variable {numbers : Float → Prop}

mutual

theorem Expr.plain_form (hw : Literal.WritesApart numbers) : ∀ e : Expr,
    (Node.expr e).All (Node.Printable numbers) → e.form.Plain
  | .literal value, h => Literal.plainWord hw value (h.self.2 value rfl)
  | .grouping inner, h =>
    ⟨by decide, Expr.plain_form hw inner h.child, trivial⟩
  | .unary operator right, h => by
    have hwords : ∀ w ∈ ["!", "-"], Form.PlainWord w := by decide
    exact ⟨hwords _ (Token.unary_word h.self.1.1 h.self.1.2),
      Expr.plain_form hw right h.child, trivial⟩
  | .binary left operator right, h => by
    have hwords : ∀ w ∈ ["!=", "==", ">", ">=", "<", "<=", "-", "+", "*", "/"],
      Form.PlainWord w := by decide
    exact ⟨hwords _ (Token.binary_word h.self.1.1 h.self.1.2),
      Expr.plain_form hw left h.child, Expr.plain_form hw right h.child, trivial⟩
  | .logical left operator right, h => by
    have hwords : ∀ w ∈ ["and", "or"], Form.PlainWord w := by decide
    exact ⟨hwords _ (Token.logical_word h.self.1.1 h.self.1.2),
      Expr.plain_form hw left h.child, Expr.plain_form hw right h.child, trivial⟩
  | .variable _ _, h => h.self.1.is_name.1
  | .assign _ _ value, h =>
    ⟨by decide, h.self.1.is_name.1, Expr.plain_form hw value h.child, trivial⟩
  | .call callee _ arguments, h =>
    ⟨by decide, Expr.plain_form hw callee h.child,
      Expr.plainAll_forms hw arguments fun e he => h.child (by simp [Node.parts, Expr.parts, he])⟩
  | .get object _, h =>
    ⟨by decide, Expr.plain_form hw object h.child, h.self.1.is_name.1, trivial⟩
  | .set object _ value, h =>
    ⟨by decide, Expr.plain_form hw object h.child,
      h.self.1.is_name.1, Expr.plain_form hw value h.child,
      trivial⟩
  | .this _ _, _ => show (Form.word "this").Plain by decide
  | .super _ _ _, h => ⟨by decide, h.self.1.2.is_name.1, trivial⟩

theorem Expr.plainAll_forms (hw : Literal.WritesApart numbers) : ∀ es : List Expr,
    (∀ e ∈ es, (Node.expr e).All (Node.Printable numbers)) → Form.PlainAll (Expr.forms es)
  | [], _ => trivial
  | e :: es, h => by
    rw [List.forall_mem_cons] at h
    exact ⟨Expr.plain_form hw e h.1, Expr.plainAll_forms hw es h.2⟩

end

theorem Form.plainAll_params {params : List Token}
    (h : ∀ p ∈ params, p.Of Token.IsLexeme .identifier) :
    Form.PlainAll (params.map fun p => .word p.lexeme) := by
  induction params with
  | nil => trivial
  | cons p params ih =>
    rw [List.forall_mem_cons] at h
    exact ⟨h.1.is_name.1, ih h.2⟩

mutual

theorem Stmt.plain_form (hw : Literal.WritesApart numbers) : ∀ s : Stmt,
    (Node.stmt s).All (Node.Printable numbers) → s.form.Plain
  | .expression value, h => value.plain_form hw h.child
  | .print value, h =>
    ⟨by decide, value.plain_form hw h.child, trivial⟩
  | .var _ none, h => ⟨by decide, h.self.1.is_name.1, trivial⟩
  | .var _ (some value), h =>
    ⟨by decide, h.self.1.is_name.1, value.plain_form hw h.child, trivial⟩
  | .block body, h =>
    ⟨by decide, Stmt.plainAll_forms hw body fun s hs =>
      h.child (by simp [Node.parts, Stmt.parts, hs])⟩
  | .if condition thenBranch none, h =>
    ⟨by decide, condition.plain_form hw h.child, Stmt.plain_form hw thenBranch h.child, trivial⟩
  | .if condition thenBranch (some elseBranch), h =>
    ⟨by decide, condition.plain_form hw h.child, Stmt.plain_form hw thenBranch h.child,
      Stmt.plain_form hw elseBranch h.child, trivial⟩
  | .while condition body, h =>
    ⟨by decide, condition.plain_form hw h.child, Stmt.plain_form hw body h.child, trivial⟩
  | .break _, _ => ⟨by decide, trivial⟩
  | .function decl, h =>
    FunDecl.plain_form hw (by decide) decl h.child
  | .return _ none, _ => ⟨by decide, trivial⟩
  | .return _ (some value), h =>
    ⟨by decide, value.plain_form hw h.child, trivial⟩
  | .class _ none methods, h =>
    ⟨by decide, h.self.1.1.is_name.1, FunDecl.plainAll_forms hw methods fun f hf =>
      h.child (by simp [Node.parts, Stmt.parts, hf])⟩
  | .class _ (some superclass) methods, h =>
    ⟨by decide, h.self.1.1.is_name.1, by decide,
      superclass.plain_form hw h.child,
      FunDecl.plainAll_forms hw methods fun f hf => h.child (by simp [Node.parts, Stmt.parts, hf])⟩

theorem Stmt.plainAll_forms (hw : Literal.WritesApart numbers) : ∀ ss : List Stmt,
    (∀ s ∈ ss, (Node.stmt s).All (Node.Printable numbers)) → Form.PlainAll (Stmt.forms ss)
  | [], _ => trivial
  | s :: ss, h => by
    rw [List.forall_mem_cons] at h
    exact ⟨Stmt.plain_form hw s h.1, Stmt.plainAll_forms hw ss h.2⟩

theorem FunDecl.plain_form (hw : Literal.WritesApart numbers) {word : String}
    (hword : Form.PlainWord word) : ∀ f : FunDecl,
    (Node.decl f).All (Node.Printable numbers) → (f.form word).Plain
  | ⟨_, _, body⟩, h =>
    ⟨hword, h.self.1.1.is_name.1, Form.plainAll_params h.self.1.2.1,
      Stmt.plainAll_forms hw body fun s hs => h.child (by simp [Node.parts, hs])⟩

theorem FunDecl.plainAll_forms (hw : Literal.WritesApart numbers) : ∀ fs : List FunDecl,
    (∀ f ∈ fs, (Node.decl f).All (Node.Printable numbers)) → Form.PlainAll (FunDecl.forms fs)
  | [], _ => trivial
  | f :: fs, h => by
    rw [List.forall_mem_cons] at h
    exact ⟨FunDecl.plain_form hw (by decide) f h.1, FunDecl.plainAll_forms hw fs h.2⟩

end

end

/-! ### Trees of one form -/

section

variable {numbers : Float → Prop}

theorem Expr.construct_eq (hw : Literal.WritesApart numbers) {e e' : Expr}
    (h : (Node.expr e).All (Node.Printable numbers))
    (h' : (Node.expr e').All (Node.Printable numbers)) (hf : e.form = e'.form) :
    e.construct = e'.construct := by
  rw [← Expr.construct_form hw h.self, hf, Expr.construct_form hw h'.self]

theorem Stmt.construct_eq {s s' : Stmt} (h : (Node.stmt s).All (Node.Printable numbers))
    (h' : (Node.stmt s').All (Node.Printable numbers)) (hf : s.form = s'.form) :
    s.construct = s'.construct := by
  rw [← Stmt.construct_form h, hf, Stmt.construct_form h']

mutual

theorem Expr.rename_eq_of_form (hw : Literal.WritesApart numbers) : ∀ e e' : Expr,
    (Node.expr e).All (Node.Printable numbers) → (Node.expr e').All (Node.Printable numbers) →
      e.form = e'.form → e.rename .bare = e'.rename .bare
  | .literal value, e', h, h', hf => by
    have hc := Expr.construct_eq hw h h' hf
    cases e' with
    | literal value' =>
      rw [Literal.text_inj hw (h.self.2 _ rfl) (h'.self.2 _ rfl) (Form.word.inj hf)]
    | _ => cases hc
  | .grouping inner, e', h, h', hf => by
    have hc := Expr.construct_eq hw h h' hf
    cases e' with
    | grouping inner' =>
      simp only [Expr.form, Form.group.injEq, List.cons.injEq, and_true, true_and] at hf
      have hinner := Expr.rename_eq_of_form hw inner inner' h.child h'.child hf
      simp only [Expr.rename, hinner]
    | _ => cases hc
  | .unary operator right, e', h, h', hf => by
    have hc := Expr.construct_eq hw h h' hf
    cases e' with
    | unary operator' right' =>
      simp only [Expr.form, Form.group.injEq, Form.word.injEq, List.cons.injEq, and_true] at hf
      have hoperator := h.self.1.2.relabel_eq h'.self.1.2 hf.1
      have hright := Expr.rename_eq_of_form hw right right' h.child h'.child hf.2
      simp only [Expr.rename, hoperator, hright]
    | _ => cases hc
  | .binary left operator right, e', h, h', hf => by
    have hc := Expr.construct_eq hw h h' hf
    cases e' with
    | binary left' operator' right' =>
      simp only [Expr.form, Form.group.injEq, Form.word.injEq, List.cons.injEq, and_true] at hf
      have hoperator := h.self.1.2.relabel_eq h'.self.1.2 hf.1
      have hleft := Expr.rename_eq_of_form hw left left' h.child h'.child hf.2.1
      have hright := Expr.rename_eq_of_form hw right right' h.child h'.child hf.2.2
      simp only [Expr.rename, hoperator, hleft, hright]
    | _ => cases hc
  | .logical left operator right, e', h, h', hf => by
    have hc := Expr.construct_eq hw h h' hf
    cases e' with
    | logical left' operator' right' =>
      simp only [Expr.form, Form.group.injEq, Form.word.injEq, List.cons.injEq, and_true] at hf
      have hoperator := h.self.1.2.relabel_eq h'.self.1.2 hf.1
      have hleft := Expr.rename_eq_of_form hw left left' h.child h'.child hf.2.1
      have hright := Expr.rename_eq_of_form hw right right' h.child h'.child hf.2.2
      simp only [Expr.rename, hoperator, hleft, hright]
    | _ => cases hc
  | .variable id name, e', h, h', hf => by
    have hc := Expr.construct_eq hw h h' hf
    cases e' with
    | «variable» id' name' =>
      have hname := h.self.1.2.relabel_eq h'.self.1.2 (Form.word.inj hf)
      simp only [Expr.rename, Renaming.node_bare, hname]
    | _ => cases hc
  | .assign id name value, e', h, h', hf => by
    have hc := Expr.construct_eq hw h h' hf
    cases e' with
    | assign id' name' value' =>
      simp only [Expr.form, Form.group.injEq, Form.word.injEq, List.cons.injEq, and_true,
        true_and] at hf
      have hname := h.self.1.2.relabel_eq h'.self.1.2 hf.1
      have hvalue := Expr.rename_eq_of_form hw value value' h.child h'.child hf.2
      simp only [Expr.rename, Renaming.node_bare, hname, hvalue]
    | _ => cases hc
  | .call callee paren arguments, e', h, h', hf => by
    have hc := Expr.construct_eq hw h h' hf
    cases e' with
    | call callee' paren' arguments' =>
      simp only [Expr.form, Form.group.injEq, List.cons.injEq, true_and] at hf
      have hparen := h.self.1.1.relabel_eq h'.self.1.1 (.inl ⟨_, rfl⟩)
      have hcallee := Expr.rename_eq_of_form hw callee callee' h.child h'.child hf.1
      have harguments := Expr.renameAll_eq_of_forms hw arguments arguments'
        (fun e he => h.child (by simp [Node.parts, Expr.parts, he]))
        (fun e he => h'.child (by simp [Node.parts, Expr.parts, he])) hf.2
      simp only [Expr.rename, hparen, hcallee, harguments]
    | _ => cases hc
  | .get object name, e', h, h', hf => by
    have hc := Expr.construct_eq hw h h' hf
    cases e' with
    | get object' name' =>
      simp only [Expr.form, Form.group.injEq, Form.word.injEq, List.cons.injEq, and_true,
        true_and] at hf
      have hname := h.self.1.2.relabel_eq h'.self.1.2 hf.2
      have hobject := Expr.rename_eq_of_form hw object object' h.child h'.child hf.1
      simp only [Expr.rename, hname, hobject]
    | _ => cases hc
  | .set object name value, e', h, h', hf => by
    have hc := Expr.construct_eq hw h h' hf
    cases e' with
    | set object' name' value' =>
      simp only [Expr.form, Form.group.injEq, Form.word.injEq, List.cons.injEq, and_true,
        true_and] at hf
      have hname := h.self.1.2.relabel_eq h'.self.1.2 hf.2.1
      have hobject := Expr.rename_eq_of_form hw object object' h.child h'.child hf.1
      have hvalue := Expr.rename_eq_of_form hw value value' h.child h'.child hf.2.2
      simp only [Expr.rename, hname, hobject, hvalue]
    | _ => cases hc
  | .this id keyword, e', h, h', hf => by
    have hc := Expr.construct_eq hw h h' hf
    cases e' with
    | this id' keyword' =>
      have hkeyword := h.self.1.relabel_eq h'.self.1 (.inr ⟨_, rfl⟩)
      simp only [Expr.rename, Renaming.node_bare, hkeyword]
    | _ => cases hc
  | .super id keyword method, e', h, h', hf => by
    have hc := Expr.construct_eq hw h h' hf
    cases e' with
    | super id' keyword' method' =>
      simp only [Expr.form, Form.group.injEq, Form.word.injEq, List.cons.injEq, and_true,
        true_and] at hf
      have hkeyword := h.self.1.1.relabel_eq h'.self.1.1 (.inr ⟨_, rfl⟩)
      have hmethod := h.self.1.2.2.relabel_eq h'.self.1.2.2 hf
      simp only [Expr.rename, Renaming.node_bare, hkeyword, hmethod]
    | _ => cases hc

theorem Expr.renameAll_eq_of_forms (hw : Literal.WritesApart numbers) : ∀ es es' : List Expr,
    (∀ e ∈ es, (Node.expr e).All (Node.Printable numbers)) →
      (∀ e ∈ es', (Node.expr e).All (Node.Printable numbers)) →
        Expr.forms es = Expr.forms es' → Expr.renameAll .bare es = Expr.renameAll .bare es'
  | [], [], _, _, _ => rfl
  | [], _ :: _, _, _, hf => by cases hf
  | _ :: _, [], _, _, hf => by cases hf
  | e :: es, e' :: es', h, h', hf => by
    rw [List.forall_mem_cons] at h h'
    obtain ⟨hfirst, hrest⟩ := List.cons.inj hf
    rw [Expr.renameAll, Expr.renameAll, Expr.rename_eq_of_form hw e e' h.1 h'.1 hfirst,
      Expr.renameAll_eq_of_forms hw es es' h.2 h'.2 hrest]

end

theorem Expr.map_rename_eq_of_forms (hw : Literal.WritesApart numbers) {e e' : Option Expr}
    (h : ∀ value ∈ e, (Node.expr value).All (Node.Printable numbers))
    (h' : ∀ value ∈ e', (Node.expr value).All (Node.Printable numbers))
    (hf : e.toList.map Expr.form = e'.toList.map Expr.form) :
    e.map (Expr.rename .bare) = e'.map (Expr.rename .bare) := by
  cases e with
  | none =>
    cases e' with
    | none => rfl
    | some value' => cases hf
  | some value =>
    cases e' with
    | none => cases hf
    | some value' =>
      have hform : value.form = value'.form := List.cons.inj hf |>.1
      exact congrArg some
        (Expr.rename_eq_of_form hw value value' (h value rfl) (h' value' rfl) hform)

theorem Token.relabel_names_eq : ∀ params params' : List Token,
    (∀ p ∈ params, p.Of IsLexeme .identifier) → (∀ p ∈ params', p.Of IsLexeme .identifier) →
      params.map (fun p => Form.word p.lexeme) = params'.map (fun p => .word p.lexeme) →
        params.map (Token.relabel Renaming.bare.line) =
          params'.map (Token.relabel Renaming.bare.line)
  | [], [], _, _, _ => rfl
  | [], _ :: _, _, _, hf => by cases hf
  | _ :: _, [], _, _, hf => by cases hf
  | p :: params, p' :: params', h, h', hf => by
    rw [List.forall_mem_cons] at h h'
    obtain ⟨hfirst, hrest⟩ := List.cons.inj hf
    rw [List.map_cons, List.map_cons, h.1.2.relabel_eq h'.1.2 (Form.word.inj hfirst),
      Token.relabel_names_eq params params' h.2 h'.2 hrest]

/-- What stands for a superclass is a word, and methods are groups. -/
theorem FunDecl.forms_ne_word (fs : List FunDecl) (w : String) (items : List Form) :
    FunDecl.forms fs ≠ .word w :: items := by
  rcases fs with _ | ⟨⟨name, params, body⟩, fs⟩ <;> simp [FunDecl.forms, FunDecl.form]

mutual

theorem Stmt.rename_eq_of_form (hw : Literal.WritesApart numbers) : ∀ s s' : Stmt,
    (Node.stmt s).All (Node.Printable numbers) → (Node.stmt s').All (Node.Printable numbers) →
      s.form = s'.form → s.rename .bare = s'.rename .bare
  | .expression value, s', h, h', hf => by
    have hc := Stmt.construct_eq h h' hf
    cases s' with
    | expression value' =>
      have hvalue := Expr.rename_eq_of_form hw value value' h.child h'.child hf
      simp only [Stmt.rename, hvalue]
    | _ => cases hc
  | .print value, s', h, h', hf => by
    have hc := Stmt.construct_eq h h' hf
    cases s' with
    | print value' =>
      simp only [Stmt.form, Form.group.injEq, List.cons.injEq, and_true, true_and] at hf
      have hvalue := Expr.rename_eq_of_form hw value value' h.child h'.child hf
      simp only [Stmt.rename, hvalue]
    | _ => cases hc
  | .var name initializer, s', h, h', hf => by
    have hc := Stmt.construct_eq h h' hf
    cases s' with
    | var name' initializer' =>
      simp only [Stmt.form_var, Form.group.injEq, Form.word.injEq, List.cons.injEq, true_and] at hf
      have hname := h.self.1.2.relabel_eq h'.self.1.2 hf.1
      have hvalue := Expr.map_rename_eq_of_forms hw
        (fun e he => h.child (by simpa [Node.parts, Stmt.parts] using he))
        (fun e he => h'.child (by simpa [Node.parts, Stmt.parts] using he)) hf.2
      simp only [Stmt.rename, hname, hvalue]
    | _ => cases hc
  | .block body, s', h, h', hf => by
    have hc := Stmt.construct_eq h h' hf
    cases s' with
    | block body' =>
      simp only [Stmt.form, Form.group.injEq, List.cons.injEq, true_and] at hf
      have hbody := Stmt.renameAll_eq_of_forms hw body body'
        (fun s hs => h.child (by simp [Node.parts, Stmt.parts, hs]))
        (fun s hs => h'.child (by simp [Node.parts, Stmt.parts, hs])) hf
      simp only [Stmt.rename, hbody]
    | _ => cases hc
  | .if condition thenBranch none, s', h, h', hf => by
    have hc := Stmt.construct_eq h h' hf
    cases s' with
    | «if» condition' thenBranch' elseBranch' =>
      cases elseBranch' with
      | none =>
        simp only [Stmt.form, Form.group.injEq, List.cons.injEq, and_true, true_and] at hf
        have hcondition := Expr.rename_eq_of_form hw condition condition' h.child h'.child hf.1
        have hthen := Stmt.rename_eq_of_form hw thenBranch thenBranch' h.child h'.child hf.2
        simp only [Stmt.rename, hcondition, hthen]
      | some elseBranch' => simp [Stmt.form] at hf
    | _ => cases hc
  | .if condition thenBranch (some elseBranch), s', h, h', hf => by
    have hc := Stmt.construct_eq h h' hf
    cases s' with
    | «if» condition' thenBranch' elseBranch' =>
      cases elseBranch' with
      | none => simp [Stmt.form] at hf
      | some elseBranch' =>
        simp only [Stmt.form, Form.group.injEq, List.cons.injEq, and_true, true_and] at hf
        have hcondition := Expr.rename_eq_of_form hw condition condition' h.child h'.child hf.1
        have hthen := Stmt.rename_eq_of_form hw thenBranch thenBranch' h.child h'.child hf.2.1
        have helse := Stmt.rename_eq_of_form hw elseBranch elseBranch' h.child h'.child hf.2.2
        simp only [Stmt.rename, hcondition, hthen, helse]
    | _ => cases hc
  | .while condition body, s', h, h', hf => by
    have hc := Stmt.construct_eq h h' hf
    cases s' with
    | «while» condition' body' =>
      simp only [Stmt.form, Form.group.injEq, List.cons.injEq, and_true, true_and] at hf
      have hcondition := Expr.rename_eq_of_form hw condition condition' h.child h'.child hf.1
      have hbody := Stmt.rename_eq_of_form hw body body' h.child h'.child hf.2
      simp only [Stmt.rename, hcondition, hbody]
    | _ => cases hc
  | .break keyword, s', h, h', hf => by
    have hc := Stmt.construct_eq h h' hf
    cases s' with
    | «break» keyword' =>
      have hkeyword := h.self.1.relabel_eq h'.self.1 (.inr ⟨_, rfl⟩)
      simp only [Stmt.rename, hkeyword]
    | _ => cases hc
  | .function decl, s', h, h', hf => by
    have hc := Stmt.construct_eq h h' hf
    cases s' with
    | function decl' =>
      have hdecl := FunDecl.rename_eq_of_form hw decl decl' h.child h'.child hf
      simp only [Stmt.rename, hdecl]
    | _ => cases hc
  | .return keyword value, s', h, h', hf => by
    have hc := Stmt.construct_eq h h' hf
    cases s' with
    | «return» keyword' value' =>
      simp only [Stmt.form_return, Form.group.injEq, List.cons.injEq, true_and] at hf
      have hkeyword := h.self.1.relabel_eq h'.self.1 (.inr ⟨_, rfl⟩)
      have hvalue := Expr.map_rename_eq_of_forms hw
        (fun e he => h.child (by simpa [Node.parts, Stmt.parts] using he))
        (fun e he => h'.child (by simpa [Node.parts, Stmt.parts] using he)) hf
      simp only [Stmt.rename, hkeyword, hvalue]
    | _ => cases hc
  | .class name superclass methods, s', h, h', hf => by
    have hc := Stmt.construct_eq h h' hf
    cases s' with
    | «class» name' superclass' methods' =>
      have hmethods := FunDecl.renameAll_eq_of_forms hw methods methods'
        (fun f hm => h.child (by simp [Node.parts, Stmt.parts, hm]))
        (fun f hm => h'.child (by simp [Node.parts, Stmt.parts, hm]))
      cases superclass with
      | none =>
        cases superclass' with
        | none =>
          simp only [Stmt.form, Form.group.injEq, Form.word.injEq, List.cons.injEq, true_and] at hf
          have hname := h.self.1.1.2.relabel_eq h'.self.1.1.2 hf.1
          simp only [Stmt.rename, hname, hmethods hf.2, Option.map_none]
        | some parent' =>
          simp only [Stmt.form, Form.group.injEq, List.cons.injEq] at hf
          exact absurd hf.2.2 (FunDecl.forms_ne_word _ _ _)
      | some parent =>
        cases superclass' with
        | none =>
          simp only [Stmt.form, Form.group.injEq, List.cons.injEq] at hf
          exact absurd hf.2.2.symm (FunDecl.forms_ne_word _ _ _)
        | some parent' =>
          simp only [Stmt.form, Form.group.injEq, Form.word.injEq, List.cons.injEq, true_and] at hf
          have hname := h.self.1.1.2.relabel_eq h'.self.1.1.2 hf.1
          have hparent := Expr.rename_eq_of_form hw parent parent' h.child h'.child hf.2.1
          simp only [Stmt.rename, hname, hparent, hmethods hf.2.2, Option.map_some]
    | _ => cases hc
termination_by structural s => s

theorem Stmt.renameAll_eq_of_forms (hw : Literal.WritesApart numbers) : ∀ ss ss' : List Stmt,
    (∀ s ∈ ss, (Node.stmt s).All (Node.Printable numbers)) →
      (∀ s ∈ ss', (Node.stmt s).All (Node.Printable numbers)) →
        Stmt.forms ss = Stmt.forms ss' → Stmt.renameAll .bare ss = Stmt.renameAll .bare ss'
  | [], [], _, _, _ => rfl
  | [], _ :: _, _, _, hf => by cases hf
  | _ :: _, [], _, _, hf => by cases hf
  | s :: ss, s' :: ss', h, h', hf => by
    rw [List.forall_mem_cons] at h h'
    obtain ⟨hfirst, hrest⟩ := List.cons.inj hf
    rw [Stmt.renameAll, Stmt.renameAll, Stmt.rename_eq_of_form hw s s' h.1 h'.1 hfirst,
      Stmt.renameAll_eq_of_forms hw ss ss' h.2 h'.2 hrest]
termination_by structural ss => ss

theorem FunDecl.rename_eq_of_form (hw : Literal.WritesApart numbers) {word : String} :
    ∀ f f' : FunDecl, (Node.decl f).All (Node.Printable numbers) →
      (Node.decl f').All (Node.Printable numbers) → f.form word = f'.form word →
        f.rename .bare = f'.rename .bare
  | ⟨name, params, body⟩, ⟨name', params', body'⟩, h, h', hf => by
    simp only [FunDecl.form, Form.group.injEq, Form.word.injEq, List.cons.injEq, true_and] at hf
    have hname := h.self.1.1.2.relabel_eq h'.self.1.1.2 hf.1
    have hparams := Token.relabel_names_eq params params' h.self.1.2.1 h'.self.1.2.1 hf.2.1
    have hbody := Stmt.renameAll_eq_of_forms hw body body'
      (fun s hs => h.child (by simp [Node.parts, hs]))
      (fun s hs => h'.child (by simp [Node.parts, hs])) hf.2.2
    simp only [FunDecl.rename, hname, hparams, hbody]
termination_by structural f => f

theorem FunDecl.renameAll_eq_of_forms (hw : Literal.WritesApart numbers) :
    ∀ fs fs' : List FunDecl, (∀ f ∈ fs, (Node.decl f).All (Node.Printable numbers)) →
      (∀ f ∈ fs', (Node.decl f).All (Node.Printable numbers)) →
        FunDecl.forms fs = FunDecl.forms fs' →
          FunDecl.renameAll .bare fs = FunDecl.renameAll .bare fs'
  | [], [], _, _, _ => rfl
  | [], _ :: _, _, _, hf => by cases hf
  | _ :: _, [], _, _, hf => by cases hf
  | f :: fs, f' :: fs', h, h', hf => by
    rw [List.forall_mem_cons] at h h'
    obtain ⟨hfirst, hrest⟩ := List.cons.inj hf
    rw [FunDecl.renameAll, FunDecl.renameAll, FunDecl.rename_eq_of_form hw f f' h.1 h'.1 hfirst,
      FunDecl.renameAll_eq_of_forms hw fs fs' h.2 h'.2 hrest]
termination_by structural fs => fs

end

end

/-! ### Sources -/

namespace Source

theorem lexemes (source : String) :
    ∀ t ∈ (TokenStream.ofList (Lexer.tokens (Lexer.scan source))).ahead, t.IsLexeme := by
  intro t ht
  have hne : t.kind ≠ .eof := by simpa using List.mem_takeWhile_imp ht
  have hmem : t ∈ Lexer.tokens (Lexer.scan source) := List.takeWhile_prefix _ |>.subset ht
  obtain ⟨item, hitem, hok⟩ := List.mem_filterMap.1 hmem
  cases item with
  | error e => cases hok
  | ok u =>
    cases hok
    exact ((Lexer.munches_pieces 1 source.toList).spells hitem).resolve_left hne

/-- Two statements of parsed sources that are printed alike are the same up to node ids and lines, if
no string literal stands in them and their numbers are written apart; and so are two expressions. -/
theorem tree_of_text {numbers : Float → Prop} (hw : Literal.WritesApart numbers)
    (source source' : String) :
    (∀ s s', Holds source (.stmt s) → Holds source' (.stmt s') →
      (Node.stmt s).Literals numbers → (Node.stmt s').Literals numbers →
        s.text = s'.text → s.rename .bare = s'.rename .bare) ∧
    ∀ e e', Holds source (.expr e) → Holds source' (.expr e') →
      (Node.expr e).Literals numbers → (Node.expr e').Literals numbers →
        e.text = e'.text → e.rename .bare = e'.rename .bare := by
  have printable : ∀ {source : String} {node : Node}, Holds source node → node.Literals numbers →
      node.All (Node.Printable numbers) :=
    fun h hl => Node.all_printable (h.fits (lexemes _)) hl
  constructor
  · intro s s' h h' hl hl' ht
    have hs := printable h hl
    have hs' := printable h' hl'
    rw [← s.text_form, ← s'.text_form] at ht
    have hform := Form.text_inj (s.plain_form hw hs) (s'.plain_form hw hs') ht
    exact Stmt.rename_eq_of_form hw s s' hs hs' hform
  · intro e e' h h' hl hl' ht
    have he := printable h hl
    have he' := printable h' hl'
    rw [← e.text_form, ← e'.text_form] at ht
    have hform := Form.text_inj (e.plain_form hw he) (e'.plain_form hw he') ht
    exact Expr.rename_eq_of_form hw e e' he he' hform

/-- A number may be spelled in two ways: the printed tree tells which number it is. -/
theorem tree_of_text_number :
    let tree (line a : Nat) : Stmt :=
      .print (.binary (.literal (.number (Decimal.toFloat 1 0))) ⟨.punct .plus, "+", line⟩
        (.variable ⟨a⟩ ⟨.identifier, "a", line⟩))
    program? "print 1 + a;" 0 = (.ok [tree 1 0], 1) ∧
      program? "print\n1.0+a;" 5 = (.ok [tree 2 5], 6) ∧
      (tree 1 0).text = (tree 2 5).text ∧ (tree 1 0).rename .bare = (tree 2 5).rename .bare := by
  intro tree
  let items (spelling : String) (line : Nat) (x : Float) : List Lexer.Item :=
    [.ok ⟨.keyword .print, "print", 1⟩, .ok ⟨.number x, spelling, line⟩,
      .ok ⟨.punct .plus, "+", line⟩, .ok ⟨.identifier, "a", line⟩,
      .ok ⟨.punct .semicolon, ";", line⟩, .ok ⟨.eof, "", line⟩]
  -- With any number in place of 1.0, so that parsing does not compute it.
  have parse : ∀ source spelling line x a, Lexer.scan source = items spelling line x →
      program? source a = (.ok [.print (.binary (.literal (.number x)) ⟨.punct .plus, "+", line⟩
        (.variable ⟨a⟩ ⟨.identifier, "a", line⟩))], a + 1) := by
    intro source spelling line x a hscan
    unfold program?
    rw [hscan]
    cbv
  have h := parse "print 1 + a;" "1" 1 (Decimal.toFloat 1 0) 0 (by decide +kernel)
  have h' := parse "print\n1.0+a;" "1.0" 2 (Decimal.toFloat 1 0) 5 (by decide +kernel)
  have ht : (tree 1 0).text = (tree 2 5).text := rfl
  have hone : (Literal.numberText (Decimal.toFloat 1 0)).toList = ['1', '.', '0'] := by
    decide +kernel
  have hw : Literal.WritesApart (· = Decimal.toFloat 1 0) := {
    injective := by
      rintro _ _ rfl rfl _
      rfl
    digits := by
      rintro _ rfl
      rw [hone]
      simp [Lexer.IsDigit]
    point := by
      rintro _ rfl
      rw [hone]
      decide }
  have hl : ∀ line a, (Node.stmt (tree line a)).Literals (· = Decimal.toFloat 1 0) := by
    intro line a
    have hall : (Node.stmt (tree line a)).All fun node =>
        ∀ value, node = .expr (.literal value) → value.Within (· = Decimal.toFloat 1 0) := by
      refine Node.all_iff.2 ⟨by simp [tree], ?_⟩
      simp only [tree, Node.parts, Stmt.parts, List.mem_singleton, forall_eq]
      refine Node.all_iff.2 ⟨by simp, ?_⟩
      simp only [Node.parts, Expr.parts, List.map_cons, List.map_nil, List.forall_mem_cons]
      exact ⟨Node.all_iff.2 ⟨by rintro _ ⟨⟩; rfl, by simp [Node.parts, Expr.parts]⟩,
        Node.all_iff.2 ⟨by simp, by simp [Node.parts, Expr.parts]⟩, by simp⟩
    exact fun value hc => hall _ hc value rfl
  exact ⟨h, h', ht, (tree_of_text hw _ _).1 _ _
    (.inl ⟨0, _, 1, _, h, List.mem_singleton_self _, .self _⟩)
    (.inl ⟨5, _, 6, _, h', List.mem_singleton_self _, .self _⟩) (hl 1 0) (hl 2 5) ht⟩

end Source

end Lox
