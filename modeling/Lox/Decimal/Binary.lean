/-!
# Floats as scaled naturals

A finite float is a natural times a power of two. `Parts.of` takes a float apart through its bits
and `nearest` goes the other way: the float closest to a quotient of naturals, ties to the even
mantissa. A float that is a whole number has `whole?` as its exact absolute value.
-/

namespace Lox.Decimal

/-- What a float stands for: `mantissa * 2 ^ exponent` with a sign, or no finite number. -/
inductive Parts
  | nan
  | infinite (negative : Bool)
  | finite (negative : Bool) (mantissa : Nat) (exponent : Int)
  deriving DecidableEq, Repr

/-- The mantissas of normal floats are at least this and less than twice it. -/
def hiddenBit : Nat := Nat.pow 2 52

/-- The exponent of the smallest positive float, shared by all floats below the normal ones. -/
def leastExponent : Int := -1074

/-- The exponent field of infinities and of values that are no number. -/
def topField : Nat := 2047

def Parts.of (x : Float) : Parts :=
  let bits := x.toBits.toNat
  let negative : Bool := Nat.pow 2 63 ≤ bits
  let field := bits / hiddenBit % (topField + 1)
  let fraction := bits % hiddenBit
  if field = topField then
    if fraction = 0 then .infinite negative else .nan
  else if field = 0 then .finite negative fraction leastExponent
  else .finite negative (hiddenBit + fraction) (leastExponent + field - 1)

/-- The exact absolute value of a float without a fractional part, with its sign in front. -/
def whole? (x : Float) : Option (Bool × Nat) :=
  match Parts.of x with
  | .finite negative m (.ofNat q) => some (negative, m * Nat.pow 2 q)
  | .finite negative m (.negSucc q) =>
    if m % Nat.pow 2 (q + 1) = 0 then some (negative, m / Nat.pow 2 (q + 1)) else none
  | _ => none

/-- The natural nearest to `num / den`; a half goes to the even neighbour. -/
def roundDiv (num den : Nat) : Nat :=
  let q := num / den
  let twice := 2 * (num % den)
  if twice > den ∨ (twice = den ∧ q % 2 = 1) then q + 1 else q

/-- The exponent at which `num / den` has a mantissa of full width, or the least one. -/
def fittingExponent (num den : Nat) : Int :=
  let low : Int := (num.log2 : Int) - den.log2 - 53
  let above :=
    if num * Nat.pow 2 (-low).toNat < 2 * hiddenBit * (den * Nat.pow 2 low.toNat) then low
    else low + 1
  max above leastExponent

/-- The float nearest to `num / den`; past the largest float it is infinity. -/
def nearest (num den : Nat) : Float :=
  if num = 0 then 0 else
    let q := fittingExponent num den
    let mantissa := roundDiv (num * Nat.pow 2 (-q).toNat) (den * Nat.pow 2 q.toNat)
    let bits := (q - leastExponent).toNat * hiddenBit + mantissa
    Float.ofBits (.ofNat (min bits (topField * hiddenBit)))

/-- The float nearest to `digits * 10 ^ exponent`. -/
def toFloat (digits : Nat) (exponent : Int) : Float :=
  nearest (digits * Nat.pow 10 exponent.toNat) (Nat.pow 10 (-exponent).toNat)

end Lox.Decimal
