import Lox.Token

/-!
# Syntax trees

Expressions and statements as the parser builds them. The nodes that name a variable, `this` or
`super` carry a `NodeId`, so that two occurrences of one name stay apart.
-/

namespace Lox

/-- The number of a node. -/
structure NodeId where
  index : Nat
  deriving DecidableEq, Hashable, Repr

inductive Literal
  | nil
  | bool (b : Bool)
  | number (x : Float)
  | string (s : String)
  deriving DecidableEq, Repr

inductive Expr
  | literal (value : Literal)
  | grouping (inner : Expr)
  | unary (operator : Token) (right : Expr)
  | binary (left : Expr) (operator : Token) (right : Expr)
  | logical (left : Expr) (operator : Token) (right : Expr)
  | «variable» (id : NodeId) (name : Token)
  | assign (id : NodeId) (name : Token) (value : Expr)
  | call (callee : Expr) (paren : Token) (arguments : List Expr)
  | get (object : Expr) (name : Token)
  | set (object : Expr) (name : Token) (value : Expr)
  | this (id : NodeId) (keyword : Token)
  | super (id : NodeId) (keyword : Token) (method : Token)

instance : Inhabited Expr := ⟨.literal .nil⟩

/-- The line of the token that names the node; a literal has none and counts as line 0. -/
def Expr.line : Expr → Nat
  | .literal _ => 0
  | .grouping inner => inner.line
  | .unary operator _ => operator.line
  | .binary _ operator _ => operator.line
  | .logical _ operator _ => operator.line
  | .variable _ name => name.line
  | .assign _ name _ => name.line
  | .call _ paren _ => paren.line
  | .get _ name => name.line
  | .set _ name _ => name.line
  | .this _ keyword => keyword.line
  | .super _ keyword _ => keyword.line

mutual

/-- A `for` loop has no form of its own: it is a block around a `while`. -/
inductive Stmt
  | expression (value : Expr)
  | print (value : Expr)
  | var (name : Token) (initializer : Option Expr)
  | block (body : List Stmt)
  | «if» (condition : Expr) (thenBranch : Stmt) (elseBranch : Option Stmt)
  | «while» (condition : Expr) (body : Stmt)
  | «break» (keyword : Token)
  | function (decl : FunDecl)
  | «return» (keyword : Token) (value : Option Expr)
  | «class» (name : Token) (superclass : Option Expr) (methods : List FunDecl)

/-- A function or method: its name, its parameters and its body. -/
structure FunDecl where
  name : Token
  params : List Token
  body : List Stmt

end

instance : Inhabited Stmt := ⟨.block []⟩

/-- The method that runs when its class is called. -/
def initializerName : String := "init"

def FunDecl.arity (f : FunDecl) : Nat := f.params.length

def FunDecl.isInitializer (f : FunDecl) : Bool := f.name.lexeme == initializerName

end Lox
