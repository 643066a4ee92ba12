import Lox.Syntax

/-!
# Values

Plain values stand for themselves. Functions, classes, instances and natives live in the store and
a value holds the number of one, so that a copy of the value is the same object and equality of
objects is identity.
-/

namespace Lox

structure FrameId where
  index : Nat
  deriving DecidableEq, Repr

structure NativeId where
  index : Nat
  deriving DecidableEq, Repr

structure ClosureId where
  index : Nat
  deriving DecidableEq, Repr

structure ClassId where
  index : Nat
  deriving DecidableEq, Repr

structure InstanceId where
  index : Nat
  deriving DecidableEq, Repr

inductive Value
  | nil
  | bool (b : Bool)
  | number (x : Float)
  | string (s : String)
  | native (id : NativeId)
  | function (id : ClosureId)
  | «class» (id : ClassId)
  | «instance» (id : InstanceId)
  deriving DecidableEq, Repr

namespace Value

def ofLiteral : Literal → Value
  | .nil => .nil
  | .bool b => .bool b
  | .number x => .number x
  | .string s => .string s

/-- Only `nil` and `false` are not. -/
def isTruthy : Value → Bool
  | .nil => false
  | .bool b => b
  | _ => true

/-- The language's equality: values of different kinds differ, and numbers compare as floats, so
that one which is no number differs from itself. -/
def equals : Value → Value → Bool
  | .nil, .nil => true
  | .bool a, .bool b => a == b
  | .number x, .number y => x == y
  | .string s, .string t => s == t
  | .native i, .native j => i == j
  | .function i, .function j => i == j
  | .class i, .class j => i == j
  | .instance i, .instance j => i == j
  | _, _ => false

def printLayout : Decimal.Layout :=
  { Decimal.plain with infinity := "Infinity", negativeInfinity := "-Infinity" }

/-- A whole number has all its digits and no point. -/
def numberText (x : Float) : String :=
  match Decimal.whole? x with
  | some (negative, n) => Decimal.sign negative ++ toString n
  | none => printLayout.write x

end Value

end Lox
