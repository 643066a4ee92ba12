import Lox.Decimal.Shortest

/-!
# Written forms of a float

A `Layout` says how ties between digits are settled, which decimal exponents are written
positionally, how a positive exponent is marked, whether a whole number shows a fraction, and what
stands for the values that are no finite number. `Layout.write` writes the shortest digits of a
float in it.
-/

namespace Lox.Decimal

structure Layout where
  tie : Tie
  /-- Decimal exponents written without a power of ten. -/
  positional : Int → Bool
  /-- A positive exponent carries a plus sign. -/
  plus : Bool
  /-- A whole number written positionally ends in `.0`. -/
  pointZero : Bool
  nan : String
  infinity : String
  negativeInfinity : String

def zeros (n : Nat) : List Char := List.replicate n '0'

/-- The digits before and after the point. -/
def Digits.split (d : Digits) : List Char × List Char :=
  if d.point ≤ 0 then (['0'], zeros (-d.point).toNat ++ d.digits)
  else
    let n := d.point.toNat
    (d.digits.take n ++ zeros (n - d.digits.length), d.digits.drop n)

def Digits.positional (d : Digits) (pointZero : Bool) : String :=
  match d.split with
  | (whole, []) => .ofList whole ++ if pointZero then ".0" else ""
  | (whole, fraction) => .ofList whole ++ "." ++ .ofList fraction

/-- The exponent of ten when one digit stands before the point. -/
def Digits.exponent (d : Digits) : Int := d.point - 1

def Digits.scientific (d : Digits) (plus : Bool) : String :=
  let mark := if plus ∧ 0 ≤ d.exponent then "e+" else "e"
  let head := match d.digits with
    | [] => "0"
    | [c] => .ofList [c]
    | c :: rest => .ofList [c, '.'] ++ .ofList rest
  head ++ mark ++ toString d.exponent

def Layout.writeDigits (l : Layout) (d : Digits) : String :=
  if l.positional d.exponent then d.positional l.pointZero else d.scientific l.plus

def sign (negative : Bool) : String := if negative then "-" else ""

def Layout.write (l : Layout) (x : Float) : String :=
  match Parts.of x with
  | .nan => l.nan
  | .infinite negative => if negative then l.negativeInfinity else l.infinity
  | .finite negative 0 _ => sign negative ++ l.writeDigits ⟨[], 0⟩
  | .finite negative m q => sign negative ++ l.writeDigits (shortest l.tie m q)

/-- Every digit in its place, whatever the size. -/
def plain : Layout where
  tie := .away
  positional _ := true
  plus := false
  pointZero := false
  nan := "NaN"
  infinity := "inf"
  negativeInfinity := "-inf"

end Lox.Decimal
