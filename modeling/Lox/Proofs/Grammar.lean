import Lox.Syntax.Parser

/-!
# The grammar

The rules of the grammar as relations: `Expression a ts e b` says that the tokens `ts` are an
expression whose tree is `e`, where the node ids from `a` up to `b` go to its occurrences in the order
in which they are read. Operators of one level associate to the left, and a repetition is a rule that
stands on its own left.

An `else` may belong to several `if`s. With `nearest` it belongs to the nearest one, so that a list of
tokens has one tree; without it any of them will do. A statement dangles when it ends in an `if` that
has no `else`.
-/

namespace Lox.Grammar

open Lox.Parser (Level)

/-- The operators of each level. -/
inductive Joins : Level → Kind → Prop
  | or : Joins .or (.keyword .or)
  | and : Joins .and (.keyword .and)
  | bangEqual : Joins .equality (.punct .bangEqual)
  | equalEqual : Joins .equality (.punct .equalEqual)
  | greater : Joins .comparison (.punct .greater)
  | greaterEqual : Joins .comparison (.punct .greaterEqual)
  | less : Joins .comparison (.punct .less)
  | lessEqual : Joins .comparison (.punct .lessEqual)
  | minus : Joins .term (.punct .minus)
  | plus : Joins .term (.punct .plus)
  | star : Joins .factor (.punct .star)
  | slash : Joins .factor (.punct .slash)

/-- The levels whose right operand may be left out at run time. -/
def IsLogical (level : Level) : Prop := level = .or ∨ level = .and

/-- The operators in front of one operand. -/
inductive Negates : Kind → Prop
  | bang : Negates (.punct .bang)
  | minus : Negates (.punct .minus)

/-- The tokens that are a literal. -/
inductive Denotes : Kind → Literal → Prop
  | number (x : Float) : Denotes (.number x) (.number x)
  | string (s : String) : Denotes (.string s) (.string s)
  | true : Denotes (.keyword .true) (.bool Bool.true)
  | false : Denotes (.keyword .false) (.bool Bool.false)
  | nil : Denotes (.keyword .nil) .nil

/-! ### Expressions -/

mutual

/-- `( call "." )? name "=" expression | or` -/
inductive Expression : Nat → List Token → Expr → Nat → Prop
  | operation {a b : Nat} {ts : List Token} {e : Expr} :
    Operation .or a ts e b → Expression a ts e b
  | assign {a b : Nat} {name equals : Token} {ts : List Token} {value : Expr} :
    name.kind = .identifier → equals.kind = .punct .equal → Expression (a + 1) ts value b →
    Expression a (name :: equals :: ts) (.assign ⟨b⟩ name value) (b + 1)
  | set {a b c : Nat} {dot name equals : Token} {ts us : List Token} {object value : Expr} :
    Call a ts object b → dot.kind = .punct .dot → name.kind = .identifier →
    equals.kind = .punct .equal → Expression b us value c →
    Expression a (ts ++ dot :: name :: equals :: us) (.set object name value) c

/-- `operand ( operator operand )*` -/
inductive Operation : Level → Nat → List Token → Expr → Nat → Prop
  | operand {level : Level} {a b : Nat} {ts : List Token} {e : Expr} :
    Operand level a ts e b → Operation level a ts e b
  | logical {level : Level} {a b c : Nat} {operator : Token} {ts us : List Token}
      {left right : Expr} :
    IsLogical level → Operation level a ts left b → Joins level operator.kind →
    Operand level b us right c →
    Operation level a (ts ++ operator :: us) (.logical left operator right) c
  | binary {level : Level} {a b c : Nat} {operator : Token} {ts us : List Token}
      {left right : Expr} :
    ¬ IsLogical level → Operation level a ts left b → Joins level operator.kind →
    Operand level b us right c →
    Operation level a (ts ++ operator :: us) (.binary left operator right) c

/-- What the operators of a level stand between: operations of the next tighter one. -/
inductive Operand : Level → Nat → List Token → Expr → Nat → Prop
  | and {a b : Nat} {ts : List Token} {e : Expr} : Operation .and a ts e b → Operand .or a ts e b
  | equality {a b : Nat} {ts : List Token} {e : Expr} :
    Operation .equality a ts e b → Operand .and a ts e b
  | comparison {a b : Nat} {ts : List Token} {e : Expr} :
    Operation .comparison a ts e b → Operand .equality a ts e b
  | term {a b : Nat} {ts : List Token} {e : Expr} :
    Operation .term a ts e b → Operand .comparison a ts e b
  | factor {a b : Nat} {ts : List Token} {e : Expr} :
    Operation .factor a ts e b → Operand .term a ts e b
  | unary {a b : Nat} {ts : List Token} {e : Expr} : Unary a ts e b → Operand .factor a ts e b

/-- `( "!" | "-" ) unary | call` -/
inductive Unary : Nat → List Token → Expr → Nat → Prop
  | operator {a b : Nat} {operator : Token} {ts : List Token} {right : Expr} :
    Negates operator.kind → Unary a ts right b → Unary a (operator :: ts) (.unary operator right) b
  | call {a b : Nat} {ts : List Token} {e : Expr} : Call a ts e b → Unary a ts e b

/-- `primary ( "(" arguments ")" | "." name )*` -/
inductive Call : Nat → List Token → Expr → Nat → Prop
  | primary {a b : Nat} {ts : List Token} {e : Expr} : Primary a ts e b → Call a ts e b
  | arguments {a b c : Nat} {opening paren : Token} {ts us : List Token} {callee : Expr}
      {arguments : List Expr} :
    Call a ts callee b → opening.kind = .punct .leftParen → Arguments b us arguments c →
    paren.kind = .punct .rightParen → arguments.length ≤ maxArity →
    Call a (ts ++ opening :: us ++ [paren]) (.call callee paren arguments) c
  | property {a b : Nat} {dot name : Token} {ts : List Token} {object : Expr} :
    Call a ts object b → dot.kind = .punct .dot → name.kind = .identifier →
    Call a (ts ++ [dot, name]) (.get object name) b

/-- `( expression ( "," expression )* )?` -/
inductive Arguments : Nat → List Token → List Expr → Nat → Prop
  | none {a : Nat} : Arguments a [] [] a
  | some {a b : Nat} {ts : List Token} {es : List Expr} :
    ArgumentList a ts es b → Arguments a ts es b

inductive ArgumentList : Nat → List Token → List Expr → Nat → Prop
  | last {a b : Nat} {ts : List Token} {e : Expr} :
    Expression a ts e b → ArgumentList a ts [e] b
  | more {a b c : Nat} {comma : Token} {ts us : List Token} {e : Expr} {es : List Expr} :
    Expression a ts e b → comma.kind = .punct .comma → ArgumentList b us es c →
    ArgumentList a (ts ++ comma :: us) (e :: es) c

/-- `literal | "this" | "super" "." name | name | "(" expression ")"` -/
inductive Primary : Nat → List Token → Expr → Nat → Prop
  | literal {a : Nat} {t : Token} {value : Literal} :
    Denotes t.kind value → Primary a [t] (.literal value) a
  | this {a : Nat} {keyword : Token} :
    keyword.kind = .keyword .this → Primary a [keyword] (.this ⟨a⟩ keyword) (a + 1)
  | super {a : Nat} {keyword dot method : Token} :
    keyword.kind = .keyword .super → dot.kind = .punct .dot → method.kind = .identifier →
    Primary a [keyword, dot, method] (.super ⟨a⟩ keyword method) (a + 1)
  | variable {a : Nat} {name : Token} :
    name.kind = .identifier → Primary a [name] (.variable ⟨a⟩ name) (a + 1)
  | grouping {a b : Nat} {opening closing : Token} {ts : List Token} {inner : Expr} :
    opening.kind = .punct .leftParen → Expression a ts inner b →
    closing.kind = .punct .rightParen →
    Primary a (opening :: ts ++ [closing]) (.grouping inner) b

end

/-- A call stands alone at every level. -/
theorem Expression.of_call {a b : Nat} {ts : List Token} {e : Expr} (h : Call a ts e b) :
    Expression a ts e b :=
  .operation (.operand (.and (.operand (.equality (.operand (.comparison (.operand (.term
    (.operand (.factor (.operand (.unary (.call h)))))))))))))

/-! ### Statements -/

/-- `expression?` -/
inductive OptionalExpression : Nat → List Token → Option Expr → Nat → Prop
  | none {a : Nat} : OptionalExpression a [] none a
  | some {a b : Nat} {ts : List Token} {e : Expr} :
    Expression a ts e b → OptionalExpression a ts (some e) b

/-- `expression ";"` -/
inductive ExpressionStatement : Nat → List Token → Stmt → Nat → Prop
  | mk {a b : Nat} {semicolon : Token} {ts : List Token} {value : Expr} :
    Expression a ts value b → semicolon.kind = .punct .semicolon →
    ExpressionStatement a (ts ++ [semicolon]) (.expression value) b

/-- `name ( "=" expression )? ";"`, after the word `var` -/
inductive Variable : Nat → List Token → Stmt → Nat → Prop
  | bare {a : Nat} {name semicolon : Token} :
    name.kind = .identifier → semicolon.kind = .punct .semicolon →
    Variable a [name, semicolon] (.var name none) a
  | initialized {a b : Nat} {name equals semicolon : Token} {ts : List Token} {value : Expr} :
    name.kind = .identifier → equals.kind = .punct .equal → Expression a ts value b →
    semicolon.kind = .punct .semicolon →
    Variable a (name :: equals :: ts ++ [semicolon]) (.var name (some value)) b

/-- `"(" expression ")"` after `if` or `while` -/
inductive Condition : Nat → List Token → Expr → Nat → Prop
  | mk {a b : Nat} {opening closing : Token} {ts : List Token} {value : Expr} :
    opening.kind = .punct .leftParen → Expression a ts value b →
    closing.kind = .punct .rightParen → Condition a (opening :: ts ++ [closing]) value b

/-- `"var" variable | expression ";" | ";"`, the first clause of a `for` -/
inductive ForInitializer : Nat → List Token → Option Stmt → Nat → Prop
  | none {a : Nat} {semicolon : Token} :
    semicolon.kind = .punct .semicolon → ForInitializer a [semicolon] none a
  | var {a b : Nat} {keyword : Token} {ts : List Token} {s : Stmt} :
    keyword.kind = .keyword .var → Variable a ts s b →
    ForInitializer a (keyword :: ts) (some s) b
  | expression {a b : Nat} {ts : List Token} {s : Stmt} :
    ExpressionStatement a ts s b → ForInitializer a ts (some s) b

/-- What a `for` stands for: a `while` whose body is the loop's body and then the increment, in a
block after the initializer; without a condition it goes on for ever. -/
def loop (initializer : Option Stmt) (condition increment : Option Expr) (body : Stmt) : Stmt :=
  let condition := condition.getD (.literal (.bool true))
  match initializer, increment with
  | none, none => .while condition body
  | none, some increment => .while condition (.block [body, .expression increment])
  | some s, none => .block [s, .while condition body]
  | some s, some increment =>
    .block [s, .while condition (.block [body, .expression increment])]

/-- `name ( "," name )*` -/
inductive ParameterList : List Token → List Token → Prop
  | last {name : Token} : name.kind = .identifier → ParameterList [name] [name]
  | more {name comma : Token} {ts names : List Token} :
    name.kind = .identifier → comma.kind = .punct .comma → ParameterList ts names →
    ParameterList (name :: comma :: ts) (name :: names)

inductive Parameters : List Token → List Token → Prop
  | none : Parameters [] []
  | some {ts names : List Token} : ParameterList ts names → Parameters ts names

/-- `( "<" name )?` -/
inductive Superclass : Nat → List Token → Option Expr → Nat → Prop
  | none {a : Nat} : Superclass a [] none a
  | some {a : Nat} {less name : Token} :
    less.kind = .punct .less → name.kind = .identifier →
    Superclass a [less, name] (some (.variable ⟨a⟩ name)) (a + 1)

section

variable (nearest : Bool)

mutual

/-- `"class" … | "fun" function | "var" variable | statement` -/
inductive Declaration : Nat → List Token → Stmt → Nat → Prop
  | «class» {a b c : Nat} {keyword name opening closing : Token} {ts us : List Token}
      {superclass : Option Expr} {methods : List FunDecl} :
    keyword.kind = .keyword .class → name.kind = .identifier → Superclass a ts superclass b →
    opening.kind = .punct .leftBrace → Functions b us methods c →
    closing.kind = .punct .rightBrace →
    Declaration a (keyword :: name :: ts ++ opening :: us ++ [closing])
      (.class name superclass methods) c
  | function {a b : Nat} {keyword : Token} {ts : List Token} {decl : FunDecl} :
    keyword.kind = .keyword .fun → Function a ts decl b →
    Declaration a (keyword :: ts) (.function decl) b
  | var {a b : Nat} {keyword : Token} {ts : List Token} {s : Stmt} :
    keyword.kind = .keyword .var → Variable a ts s b → Declaration a (keyword :: ts) s b
  | statement {a b : Nat} {dangles : Bool} {ts : List Token} {s : Stmt} :
    Statement dangles a ts s b → Declaration a ts s b

inductive Declarations : Nat → List Token → List Stmt → Nat → Prop
  | nil {a : Nat} : Declarations a [] [] a
  | cons {a b c : Nat} {ts us : List Token} {s : Stmt} {ss : List Stmt} :
    Declaration a ts s b → Declarations b us ss c → Declarations a (ts ++ us) (s :: ss) c

/-- `name "(" parameters ")" "{" declaration* "}"` -/
inductive Function : Nat → List Token → FunDecl → Nat → Prop
  | mk {a b : Nat} {name opening closing opening' closing' : Token} {ts us params : List Token}
      {body : List Stmt} :
    name.kind = .identifier → opening.kind = .punct .leftParen → Parameters ts params →
    params.length ≤ maxArity → closing.kind = .punct .rightParen →
    opening'.kind = .punct .leftBrace → Declarations a us body b →
    closing'.kind = .punct .rightBrace →
    Function a (name :: opening :: ts ++ closing :: opening' :: us ++ [closing'])
      ⟨name, params, body⟩ b

inductive Functions : Nat → List Token → List FunDecl → Nat → Prop
  | nil {a : Nat} : Functions a [] [] a
  | cons {a b c : Nat} {ts us : List Token} {f : FunDecl} {fs : List FunDecl} :
    Function a ts f b → Functions b us fs c → Functions a (ts ++ us) (f :: fs) c

inductive Statement : (dangles : Bool) → Nat → List Token → Stmt → Nat → Prop
  | expression {a b : Nat} {ts : List Token} {s : Stmt} :
    ExpressionStatement a ts s b → Statement false a ts s b
  | «for» {a b c d e : Nat} {dangles : Bool} {keyword opening semicolon closing : Token}
      {ts us vs ws : List Token} {initializer : Option Stmt} {condition increment : Option Expr}
      {body : Stmt} :
    keyword.kind = .keyword .for → opening.kind = .punct .leftParen →
    ForInitializer a ts initializer b → OptionalExpression b us condition c →
    semicolon.kind = .punct .semicolon → OptionalExpression c vs increment d →
    closing.kind = .punct .rightParen → Statement dangles d ws body e →
    Statement dangles a
      (keyword :: opening :: ts ++ us ++ semicolon :: vs ++ closing :: ws)
      (loop initializer condition increment body) e
  | ifThen {a b c : Nat} {dangles : Bool} {keyword : Token} {ts us : List Token} {condition : Expr}
      {thenBranch : Stmt} :
    keyword.kind = .keyword .if → Condition a ts condition b →
    Statement dangles b us thenBranch c →
    Statement true a (keyword :: ts ++ us) (.if condition thenBranch none) c
  | ifElse {a b c d : Nat} {dangles dangles' : Bool} {keyword «else» : Token}
      {ts us vs : List Token} {condition : Expr} {thenBranch elseBranch : Stmt} :
    keyword.kind = .keyword .if → Condition a ts condition b →
    Statement dangles' b us thenBranch c → (nearest = true → dangles' = false) →
    «else».kind = .keyword .else → Statement dangles c vs elseBranch d →
    Statement dangles a (keyword :: ts ++ us ++ «else» :: vs)
      (.if condition thenBranch (some elseBranch)) d
  | «while» {a b c : Nat} {dangles : Bool} {keyword : Token} {ts us : List Token}
      {condition : Expr} {body : Stmt} :
    keyword.kind = .keyword .while → Condition a ts condition b → Statement dangles b us body c →
    Statement dangles a (keyword :: ts ++ us) (.while condition body) c
  | block {a b : Nat} {opening closing : Token} {ts : List Token} {body : List Stmt} :
    opening.kind = .punct .leftBrace → Declarations a ts body b →
    closing.kind = .punct .rightBrace →
    Statement false a (opening :: ts ++ [closing]) (.block body) b
  | print {a b : Nat} {keyword semicolon : Token} {ts : List Token} {value : Expr} :
    keyword.kind = .keyword .print → Expression a ts value b →
    semicolon.kind = .punct .semicolon →
    Statement false a (keyword :: ts ++ [semicolon]) (.print value) b
  | «return» {a b : Nat} {keyword semicolon : Token} {ts : List Token} {value : Option Expr} :
    keyword.kind = .keyword .return → OptionalExpression a ts value b →
    semicolon.kind = .punct .semicolon →
    Statement false a (keyword :: ts ++ [semicolon]) (.return keyword value) b
  | «break» {a : Nat} {keyword semicolon : Token} :
    keyword.kind = .keyword .break → semicolon.kind = .punct .semicolon →
    Statement false a [keyword, semicolon] (.break keyword) a

end

end

/-! ### How phrases begin -/

/-- The tokens an expression can begin with. -/
inductive Opens : Kind → Prop
  | negates {k : Kind} : Negates k → Opens k
  | denotes {k : Kind} {value : Literal} : Denotes k value → Opens k
  | this : Opens (.keyword .this)
  | super : Opens (.keyword .super)
  | name : Opens .identifier
  | paren : Opens (.punct .leftParen)

/-- A phrase that begins with a token of such a kind. -/
def Begins (p : Kind → Prop) (ts : List Token) : Prop := ∃ t us, ts = t :: us ∧ p t.kind

theorem Begins.append {p : Kind → Prop} {ts : List Token} (h : Begins p ts) (us : List Token) :
    Begins p (ts ++ us) := by
  obtain ⟨t, vs, rfl, ht⟩ := h
  exact ⟨t, vs ++ us, rfl, ht⟩

theorem Begins.imp {p q : Kind → Prop} {ts : List Token} (h : Begins p ts) (hpq : ∀ k, p k → q k) :
    Begins q ts := by
  obtain ⟨t, us, hts, ht⟩ := h
  exact ⟨t, us, hts, hpq _ ht⟩

theorem Begins.length_pos {p : Kind → Prop} {ts : List Token} (h : Begins p ts) : 0 < ts.length := by
  obtain ⟨t, us, rfl, -⟩ := h
  simp

/-- The tokens a primary expression can begin with. -/
def OpensPrimary (k : Kind) : Prop := Opens k ∧ ¬ Negates k

theorem Primary.begins {a b : Nat} {ts : List Token} {e : Expr} (h : Primary a ts e b) :
    Begins OpensPrimary ts := by
  cases h with
  | @literal _ t _ hd =>
    refine ⟨_, _, rfl, .denotes hd, fun hn => ?_⟩
    generalize t.kind = k at hd hn
    cases hn <;> cases hd
  | this hk => exact ⟨_, _, rfl, hk ▸ .this, fun hn => by rw [hk] at hn; cases hn⟩
  | super hk => exact ⟨_, _, rfl, hk ▸ .super, fun hn => by rw [hk] at hn; cases hn⟩
  | «variable» hk => exact ⟨_, _, rfl, hk ▸ .name, fun hn => by rw [hk] at hn; cases hn⟩
  | grouping hk => exact ⟨_, _, rfl, hk ▸ .paren, fun hn => by rw [hk] at hn; cases hn⟩

theorem Call.begins {a b : Nat} {ts : List Token} {e : Expr} :
    Call a ts e b → Begins OpensPrimary ts
  | .primary h => h.begins
  | .arguments h _ _ _ _ => by
    rw [List.append_assoc]
    exact h.begins.append _
  | .property h _ _ => h.begins.append _

theorem Unary.begins {a b : Nat} {ts : List Token} {e : Expr} (h : Unary a ts e b) :
    Begins Opens ts := by
  cases h with
  | operator hk _ => exact ⟨_, _, rfl, .negates hk⟩
  | call h => exact h.begins.imp fun _ hk => hk.1

mutual

theorem Operation.begins {level : Level} {a b : Nat} {ts : List Token} {e : Expr} :
    Operation level a ts e b → Begins Opens ts
  | .operand h => h.begins
  | .logical _ h _ _ => h.begins.append _
  | .binary _ h _ _ => h.begins.append _

theorem Operand.begins {level : Level} {a b : Nat} {ts : List Token} {e : Expr} :
    Operand level a ts e b → Begins Opens ts
  | .and h => h.begins
  | .equality h => h.begins
  | .comparison h => h.begins
  | .term h => h.begins
  | .factor h => h.begins
  | .unary h => h.begins

end

theorem Expression.begins {a b : Nat} {ts : List Token} {e : Expr} (h : Expression a ts e b) :
    Begins Opens ts := by
  cases h with
  | operation h => exact h.begins
  | assign hk => exact ⟨_, _, rfl, hk ▸ .name⟩
  | set h => exact (h.begins.append _).imp fun _ hk => hk.1

theorem ArgumentList.begins {a b : Nat} {ts : List Token} {es : List Expr}
    (h : ArgumentList a ts es b) : Begins Opens ts := by
  cases h with
  | last h => exact h.begins
  | more h => exact h.begins.append _

theorem ParameterList.begins {ts names : List Token} (h : ParameterList ts names) :
    Begins (· = .identifier) ts := by
  cases h with
  | last hk => exact ⟨_, _, rfl, hk⟩
  | more hk => exact ⟨_, _, rfl, hk⟩

theorem ExpressionStatement.begins {a b : Nat} {ts : List Token} {s : Stmt}
    (h : ExpressionStatement a ts s b) : Begins Opens ts := by
  cases h with
  | mk h => exact h.begins.append _

/-- The tokens a statement can begin with. -/
inductive OpensStatement : Kind → Prop
  | expression {k : Kind} : Opens k → OpensStatement k
  | brace : OpensStatement (.punct .leftBrace)
  | word {k : Keyword} :
    k ∈ [.for, .if, .while, .print, .return, .break] → OpensStatement (.keyword k)

/-- The tokens a declaration can begin with. -/
inductive OpensDeclaration : Kind → Prop
  | statement {k : Kind} : OpensStatement k → OpensDeclaration k
  | word {k : Keyword} : k ∈ [.class, .fun, .var] → OpensDeclaration (.keyword k)

theorem Statement.begins {nearest dangles : Bool} {a b : Nat} {ts : List Token} {s : Stmt}
    (h : Statement nearest dangles a ts s b) : Begins OpensStatement ts := by
  cases h with
  | expression h => exact h.begins.imp fun _ => .expression
  | «for» hk => exact ⟨_, _, rfl, hk ▸ .word (by simp)⟩
  | ifThen hk => exact ⟨_, _, rfl, hk ▸ .word (by simp)⟩
  | ifElse hk => exact ⟨_, _, rfl, hk ▸ .word (by simp)⟩
  | «while» hk => exact ⟨_, _, rfl, hk ▸ .word (by simp)⟩
  | block hk => exact ⟨_, _, rfl, hk ▸ .brace⟩
  | print hk => exact ⟨_, _, rfl, hk ▸ .word (by simp)⟩
  | «return» hk => exact ⟨_, _, rfl, hk ▸ .word (by simp)⟩
  | «break» hk => exact ⟨_, _, rfl, hk ▸ .word (by simp)⟩

theorem Declaration.begins {nearest : Bool} {a b : Nat} {ts : List Token} {s : Stmt}
    (h : Declaration nearest a ts s b) : Begins OpensDeclaration ts := by
  cases h with
  | «class» hk => exact ⟨_, _, rfl, hk ▸ .word (by simp)⟩
  | function hk => exact ⟨_, _, rfl, hk ▸ .word (by simp)⟩
  | var hk => exact ⟨_, _, rfl, hk ▸ .word (by simp)⟩
  | statement h => exact h.begins.imp fun _ => .statement

theorem Function.begins {nearest : Bool} {a b : Nat} {ts : List Token} {f : FunDecl}
    (h : Function nearest a ts f b) : Begins (· = .identifier) ts := by
  cases h with
  | mk hk => exact ⟨_, _, rfl, hk⟩

/-! ### Dangling `else` -/

/-- An `else` after a statement that dangles goes to the nearest `if`. -/
theorem Statement.absorb {dangles dangles' : Bool} {a b c : Nat} {ts us : List Token}
    {s s' : Stmt} {«else» : Token} (he : «else».kind = .keyword .else)
    (k : Statement true dangles' b us s' c) :
    Statement true dangles a ts s b → dangles = true →
      ∃ dangles s'', Statement true dangles a (ts ++ «else» :: us) s'' c
  | .for hk ho hi hc hs hn hp hb, hd => by
    obtain ⟨_, _, h⟩ := absorb he k hb hd
    exact ⟨_, _, by simpa using Statement.for hk ho hi hc hs hn hp h⟩
  | @ifThen _ _ _ _ inner _ _ _ _ _ hk hc ht, _ => by
    by_cases hi : inner = true
    · obtain ⟨_, _, h⟩ := absorb he k ht hi
      exact ⟨_, _, by simpa using Statement.ifThen hk hc h⟩
    · exact ⟨_, _, .ifElse hk hc ht (fun _ => by simpa using hi) he k⟩
  | .ifElse hk hc ht hn he' hs, hd => by
    obtain ⟨_, _, h⟩ := absorb he k hs hd
    exact ⟨_, _, by simpa using Statement.ifElse hk hc ht hn he' h⟩
  | .while hk hc hb, hd => by
    obtain ⟨_, _, h⟩ := absorb he k hb hd
    exact ⟨_, _, by simpa using Statement.while hk hc h⟩
  | .expression _, hd => by cases hd
  | .block _ _ _, hd => by cases hd
  | .print _ _ _, hd => by cases hd
  | .return _ _ _, hd => by cases hd
  | .break _ _, hd => by cases hd

mutual

/-- The attachment of every `else` to the nearest `if` is one that the grammar allows. -/
theorem Declaration.loosen {a b : Nat} {ts : List Token} {s : Stmt} :
    Declaration true a ts s b → Declaration false a ts s b
  | .class hk hn hs ho hm hc => .class hk hn hs ho hm.loosen hc
  | .function hk hf => .function hk hf.loosen
  | .var hk hv => .var hk hv
  | .statement h => .statement h.loosen

theorem Declarations.loosen {a b : Nat} {ts : List Token} {ss : List Stmt} :
    Declarations true a ts ss b → Declarations false a ts ss b
  | .nil => .nil
  | .cons h hs => .cons h.loosen hs.loosen

theorem Function.loosen {a b : Nat} {ts : List Token} {f : FunDecl} :
    Function true a ts f b → Function false a ts f b
  | .mk hn ho hp hl hc ho' hb hc' => .mk hn ho hp hl hc ho' hb.loosen hc'

theorem Functions.loosen {a b : Nat} {ts : List Token} {fs : List FunDecl} :
    Functions true a ts fs b → Functions false a ts fs b
  | .nil => .nil
  | .cons h hs => .cons h.loosen hs.loosen

theorem Statement.loosen {dangles : Bool} {a b : Nat} {ts : List Token} {s : Stmt} :
    Statement true dangles a ts s b → Statement false dangles a ts s b
  | .expression h => .expression h
  | .for hk ho hi hc hs hn hp hb => .for hk ho hi hc hs hn hp hb.loosen
  | .ifThen hk hc ht => .ifThen hk hc ht.loosen
  | .ifElse hk hc ht _ he hs => .ifElse hk hc ht.loosen (by simp) he hs.loosen
  | .while hk hc hb => .while hk hc hb.loosen
  | .block ho hb hc => .block ho hb.loosen hc
  | .print hk hv hs => .print hk hv hs
  | .return hk hv hs => .return hk hv hs
  | .break hk hs => .break hk hs

end

mutual

/-- What the grammar allows it also allows with every `else` at the nearest `if`. -/
theorem Declaration.settle {a b : Nat} {ts : List Token} {s : Stmt} :
    Declaration false a ts s b → ∃ s', Declaration true a ts s' b
  | .class hk hn hs ho hm hc => by
    obtain ⟨_, hm⟩ := hm.settle
    exact ⟨_, .class hk hn hs ho hm hc⟩
  | .function hk hf => by
    obtain ⟨_, hf⟩ := hf.settle
    exact ⟨_, .function hk hf⟩
  | .var hk hv => ⟨_, .var hk hv⟩
  | .statement h => by
    obtain ⟨_, _, h⟩ := h.settle
    exact ⟨_, .statement h⟩

theorem Declarations.settle {a b : Nat} {ts : List Token} {ss : List Stmt} :
    Declarations false a ts ss b → ∃ ss', Declarations true a ts ss' b
  | .nil => ⟨_, .nil⟩
  | .cons h hs => by
    obtain ⟨_, h⟩ := h.settle
    obtain ⟨_, hs⟩ := hs.settle
    exact ⟨_, .cons h hs⟩

theorem Function.settle {a b : Nat} {ts : List Token} {f : FunDecl} :
    Function false a ts f b → ∃ f', Function true a ts f' b
  | .mk hn ho hp hl hc ho' hb hc' => by
    obtain ⟨_, hb⟩ := hb.settle
    exact ⟨_, .mk hn ho hp hl hc ho' hb hc'⟩

theorem Functions.settle {a b : Nat} {ts : List Token} {fs : List FunDecl} :
    Functions false a ts fs b → ∃ fs', Functions true a ts fs' b
  | .nil => ⟨_, .nil⟩
  | .cons h hs => by
    obtain ⟨_, h⟩ := h.settle
    obtain ⟨_, hs⟩ := hs.settle
    exact ⟨_, .cons h hs⟩

theorem Statement.settle {dangles : Bool} {a b : Nat} {ts : List Token} {s : Stmt} :
    Statement false dangles a ts s b → ∃ dangles s', Statement true dangles a ts s' b
  | .expression h => ⟨_, _, .expression h⟩
  | .for hk ho hi hc hs hn hp hb => by
    obtain ⟨_, _, hb⟩ := hb.settle
    exact ⟨_, _, .for hk ho hi hc hs hn hp hb⟩
  | .ifThen hk hc ht => by
    obtain ⟨_, _, ht⟩ := ht.settle
    exact ⟨_, _, .ifThen hk hc ht⟩
  | .ifElse hk hc ht _ he hs => by
    obtain ⟨dangles, _, ht⟩ := ht.settle
    obtain ⟨_, _, hs⟩ := hs.settle
    cases dangles with
    | false => exact ⟨_, _, .ifElse hk hc ht (fun _ => rfl) he hs⟩
    | true => exact Statement.absorb he hs (.ifThen hk hc ht) rfl
  | .while hk hc hb => by
    obtain ⟨_, _, hb⟩ := hb.settle
    exact ⟨_, _, .while hk hc hb⟩
  | .block ho hb hc => by
    obtain ⟨_, hb⟩ := hb.settle
    exact ⟨_, _, .block ho hb hc⟩
  | .print hk hv hs => ⟨_, _, .print hk hv hs⟩
  | .return hk hv hs => ⟨_, _, .return hk hv hs⟩
  | .break hk hs => ⟨_, _, .break hk hs⟩

end

theorem Declarations.append {nearest : Bool} {a b c : Nat} {ts us : List Token}
    {ss rs : List Stmt} : Declarations nearest a ts ss b → Declarations nearest b us rs c →
      Declarations nearest a (ts ++ us) (ss ++ rs) c
  | .nil, k => k
  | .cons h hs, k => by
    rw [List.append_assoc]
    exact .cons h (hs.append k)

end Lox.Grammar
