import Lox.Syntax

/-!
# Trees in parenthesised form

Operators and keywords stand first, as in `(+ 1.0 (group x))`. Parentheses enclose every node but
a literal, a name and `this`; string contents stand as they are.
-/

namespace Lox

/-- A whole number has all its digits and ends in `.0`. -/
def Literal.numberText (x : Float) : String :=
  match Decimal.whole? x with
  | some (negative, n) => Decimal.sign negative ++ toString n ++ ".0"
  | none => Decimal.plain.write x

def Literal.text : Literal → String
  | .nil => "nil"
  | .bool b => toString b
  | .number x => numberText x
  | .string s => s

/-- Words between parentheses, a blank apart. -/
def parenthesize (words : List String) : String := "(" ++ " ".intercalate words ++ ")"

mutual

def Expr.text : Expr → String
  | .literal value => value.text
  | .grouping inner => parenthesize ["group", inner.text]
  | .unary operator right => parenthesize [operator.lexeme, right.text]
  | .binary left operator right => parenthesize [operator.lexeme, left.text, right.text]
  | .logical left operator right => parenthesize [operator.lexeme, left.text, right.text]
  | .variable _ name => name.lexeme
  | .assign _ name value => parenthesize ["=", name.lexeme, value.text]
  | .call callee _ arguments => parenthesize ("call" :: callee.text :: Expr.texts arguments)
  | .get object name => parenthesize [".", object.text, name.lexeme]
  | .set object name value => parenthesize [".=", object.text, name.lexeme, value.text]
  | .this _ _ => "this"
  | .super _ _ method => parenthesize ["super", method.lexeme]

def Expr.texts : List Expr → List String
  | [] => []
  | e :: es => e.text :: Expr.texts es

end

def paramsText (params : List Token) : String := parenthesize (params.map (·.lexeme))

mutual

def Stmt.text : Stmt → String
  | .expression value => value.text
  | .print value => parenthesize ["print", value.text]
  | .var name none => parenthesize ["var", name.lexeme]
  | .var name (some value) => parenthesize ["var", name.lexeme, value.text]
  | .block body => parenthesize ("block" :: Stmt.texts body)
  | .if condition thenBranch none => parenthesize ["if", condition.text, thenBranch.text]
  | .if condition thenBranch (some elseBranch) =>
    parenthesize ["if", condition.text, thenBranch.text, elseBranch.text]
  | .while condition body => parenthesize ["while", condition.text, body.text]
  | .break _ => parenthesize ["break"]
  | .function decl => decl.text "fun"
  | .return _ none => parenthesize ["return"]
  | .return _ (some value) => parenthesize ["return", value.text]
  | .class name none methods => parenthesize ("class" :: name.lexeme :: FunDecl.texts methods)
  | .class name (some superclass) methods =>
    parenthesize ("class" :: name.lexeme :: "<" :: superclass.text :: FunDecl.texts methods)

def Stmt.texts : List Stmt → List String
  | [] => []
  | s :: ss => s.text :: Stmt.texts ss

/-- `word` tells functions from methods. -/
def FunDecl.text (word : String) : FunDecl → String
  | ⟨name, params, body⟩ =>
    parenthesize (word :: name.lexeme :: paramsText params :: Stmt.texts body)

def FunDecl.texts : List FunDecl → List String
  | [] => []
  | f :: fs => f.text "method" :: FunDecl.texts fs

end

end Lox
