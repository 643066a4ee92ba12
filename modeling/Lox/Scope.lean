import Lox.Store.Bindings
import Lox.Syntax

/-!
# Static scopes

A walk over a program carries the scopes around the place it has reached, what kind of function and
class and how many loops enclose that place, and what it has found so far: the broken rules and the
distances. A distance is the number of scopes between an occurrence of a name and the scope that
declares it; names declared in no scope are global and have none.
-/

namespace Lox.Scope

/-- The innermost function around a place. -/
inductive FunctionContext
  | none | function | method | initializer
  deriving DecidableEq, Repr

/-- The innermost class around a place. -/
inductive ClassContext
  | none | «class» | subclass
  deriving DecidableEq, Repr

/-- The rules a program can break before it runs. -/
inductive Cause
  | alreadyDeclared (name : String)
  | ownInitializer
  | breakOutsideLoop
  | returnOutsideFunction
  | returnValueFromInitializer
  | thisOutsideClass
  | superOutsideClass
  | superWithoutSuperclass
  | selfInheritance
  deriving DecidableEq, Repr

def Cause.message : Cause → String
  | alreadyDeclared name => "Variable with name " ++ name ++ " already declared in scope"
  | ownInitializer => "Cannot read local variable name in its own initializer"
  | breakOutsideLoop => "Can't use 'break' outside of a loop."
  | returnOutsideFunction => "Cannot return from top-level code."
  | returnValueFromInitializer => "Can't return a value from an initializer."
  | thisOutsideClass => "Can't use 'this' outside of a class."
  | superOutsideClass => "Can't use 'super' outside of a class."
  | superWithoutSuperclass => "Can't use 'super' in a class with no superclass."
  | selfInheritance => "A class can't inherit from itself."

structure Error where
  blamed : Token
  cause : Cause
  deriving DecidableEq, Repr

/-- The scopes stand innermost first; a name in one is `true` once it may be read. -/
structure Walk where
  scopes : List (Bindings Bool)
  functionContext : FunctionContext
  classContext : ClassContext
  loopDepth : Nat
  errors : Array Error
  distances : Array (NodeId × Nat)

namespace Walk

/-- At the top level of a program. -/
def start : Walk := ⟨[], .none, .none, 0, #[], #[]⟩

def report (w : Walk) (blamed : Token) (cause : Cause) : Walk :=
  { w with errors := w.errors.push ⟨blamed, cause⟩ }

def reportIf (w : Walk) (broken : Bool) (blamed : Token) (cause : Cause) : Walk :=
  if broken then w.report blamed cause else w

def openScope (w : Walk) : Walk := { w with scopes := .empty :: w.scopes }

def closeScope (w : Walk) : Walk := { w with scopes := w.scopes.tail }

/-- Sets a name in the innermost scope; global names are not kept. -/
def mark (w : Walk) (name : String) (ready : Bool) : Walk :=
  match w.scopes with
  | [] => w
  | scope :: outer => { w with scopes := scope.insert name ready :: outer }

def innermost? (w : Walk) (name : String) : Option Bool :=
  match w.scopes with
  | [] => none
  | scope :: _ => scope.find? name

/-- A name counts as not ready until it is defined; a second declaration leaves it as it is. -/
def declare (w : Walk) (name : Token) : Walk :=
  if (w.innermost? name.lexeme).isSome then w.report name (.alreadyDeclared name.lexeme)
  else w.mark name.lexeme false

def define (w : Walk) (name : String) : Walk := w.mark name true

def introduce (w : Walk) (name : Token) : Walk := (w.declare name).define name.lexeme

/-- The number of scopes inside the innermost one with the name. -/
def distance? (w : Walk) (name : String) : Option Nat :=
  w.scopes.findIdx? (·.contains name)

def note (w : Walk) (id : NodeId) (name : String) : Walk :=
  match w.distance? name with
  | some d => { w with distances := w.distances.push (id, d) }
  | none => w

end Walk

end Lox.Scope
