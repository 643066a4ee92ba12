import Lox.Scope

/-!
# Resolving names

One walk over the tree, in the order in which names come into being: a variable is declared before
its initializer is walked and ready after it, a function and a class are ready before their bodies,
and the value of an assignment is walked before its target. A broken rule does not stop the walk.
-/

namespace Lox

open Scope

mutual

def Expr.resolve : Expr → Walk → Walk
  | .literal _, w => w
  | .grouping inner, w => inner.resolve w
  | .unary _ right, w => right.resolve w
  | .binary left _ right, w => right.resolve (left.resolve w)
  | .logical left _ right, w => right.resolve (left.resolve w)
  | .variable id name, w =>
    (w.reportIf (w.innermost? name.lexeme == some false) name .ownInitializer).note id name.lexeme
  | .assign id name value, w => (value.resolve w).note id name.lexeme
  | .call callee _ arguments, w => Expr.resolveAll arguments (callee.resolve w)
  | .get object _, w => object.resolve w
  | .set object _ value, w => object.resolve (value.resolve w)
  | .this id keyword, w =>
    match w.classContext with
    | .none => w.report keyword .thisOutsideClass
    | _ => w.note id keyword.lexeme
  | .super id keyword _, w =>
    let w := match w.classContext with
      | .none => w.report keyword .superOutsideClass
      | .class => w.report keyword .superWithoutSuperclass
      | .subclass => w
    w.note id keyword.lexeme

def Expr.resolveAll : List Expr → Walk → Walk
  | [], w => w
  | e :: es, w => Expr.resolveAll es (e.resolve w)

end

def Expr.resolveOption : Option Expr → Walk → Walk
  | none, w => w
  | some e, w => e.resolve w

/-- A class named as its own superclass is an error; then the superclass opens the scope of
`super`. -/
def Expr.resolveSuperclass (name : Token) : Option Expr → Walk → Walk
  | none, w => w
  | some e, w =>
    let w := match e with
      | .variable _ parent => w.reportIf (parent.lexeme == name.lexeme) parent .selfInheritance
      | _ => w
    ((e.resolve { w with classContext := .subclass }).openScope).define "super"

def FunDecl.methodContext (f : FunDecl) : FunctionContext :=
  if f.isInitializer then .initializer else .method

mutual

def Stmt.resolve : Stmt → Walk → Walk
  | .expression value, w => value.resolve w
  | .print value, w => value.resolve w
  | .var name initializer, w =>
    (Expr.resolveOption initializer (w.declare name)).define name.lexeme
  | .block body, w => (Stmt.resolveAll body w.openScope).closeScope
  | .if condition thenBranch none, w => thenBranch.resolve (condition.resolve w)
  | .if condition thenBranch (some elseBranch), w =>
    elseBranch.resolve (thenBranch.resolve (condition.resolve w))
  | .while condition body, w =>
    let w := condition.resolve w
    let inside := body.resolve { w with loopDepth := w.loopDepth + 1 }
    { inside with loopDepth := inside.loopDepth - 1 }
  | .break keyword, w => w.reportIf (w.loopDepth == 0) keyword .breakOutsideLoop
  | .function decl, w => decl.resolve .function (w.introduce decl.name)
  | .return keyword value, w =>
    let w := w.reportIf (w.functionContext == .none) keyword .returnOutsideFunction
    let w := w.reportIf (value.isSome && w.functionContext == .initializer) keyword
      .returnValueFromInitializer
    Expr.resolveOption value w
  | .class name superclass methods, w =>
    let named := Walk.introduce { w with classContext := .class } name
    let around := Expr.resolveSuperclass name superclass named
    let inside := (FunDecl.resolveAll methods (around.openScope.define "this")).closeScope
    let outside := if superclass.isSome then inside.closeScope else inside
    { outside with classContext := w.classContext }

def Stmt.resolveAll : List Stmt → Walk → Walk
  | [], w => w
  | s :: ss, w => Stmt.resolveAll ss (s.resolve w)

/-- Parameters and body share one scope, and loops outside do not count inside. -/
def FunDecl.resolve (context : FunctionContext) : FunDecl → Walk → Walk
  | ⟨_, params, body⟩, w =>
    let inside := Walk.openScope { w with functionContext := context, loopDepth := 0 }
    let outside := (Stmt.resolveAll body (params.foldl Walk.introduce inside)).closeScope
    { outside with functionContext := w.functionContext, loopDepth := w.loopDepth }

def FunDecl.resolveAll : List FunDecl → Walk → Walk
  | [], w => w
  | f :: fs, w => FunDecl.resolveAll fs (f.resolve f.methodContext w)

end

/-- The errors and distances of a whole program. -/
def Scope.resolve (program : List Stmt) : Walk := Stmt.resolveAll program .start

/-- The errors and distances of an expression at the top level. -/
def Scope.resolveExpression (e : Expr) : Walk := e.resolve .start

theorem Stmt.resolveAll_append (ss ts : List Stmt) (w : Walk) :
    Stmt.resolveAll (ss ++ ts) w = Stmt.resolveAll ts (Stmt.resolveAll ss w) := by
  induction ss generalizing w with
  | nil => rfl
  | cons s ss ih => exact ih (s.resolve w)

end Lox
