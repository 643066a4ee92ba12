import Lox.Decimal.Binary

/-!
# The shortest digits of a float

Among the decimals that read back as a given float, `shortest` is one with the fewest digits, and
of those the one closest to the float; a `Tie` settles the rest. The reals that read back as
`m * 2 ^ q` form an interval whose ends belong to it when `m` is even, so the decimal grids are
tried from the coarsest on, and on each grid only the two neighbours of the float.
-/

namespace Lox.Decimal

/-- The number `0.d₁d₂… * 10 ^ point`; no digits stand for zero. -/
structure Digits where
  digits : List Char
  point : Int
  deriving DecidableEq, Repr

/-- `n * 10 ^ k`, without zeros at the end of the digits. -/
def Digits.ofScaled (n : Nat) (k : Int) : Digits :=
  let digits := Nat.toDigits 10 n
  ⟨(digits.reverse.dropWhile (· == '0')).reverse, digits.length + k⟩

/-- Which of two decimals is taken when a float lies halfway between them. -/
inductive Tie
  | toEven
  | away
  deriving DecidableEq, Repr

/-- Of two neighbours on a grid, whether the upper one is taken; the float stands at
`value / unit`. -/
def Tie.takesUpper (tie : Tie) (d value unit : Nat) : Bool :=
  match compare (2 * value) ((2 * d + 1) * unit), tie with
  | .lt, _ => false
  | .gt, _ => true
  | .eq, .away => true
  | .eq, .toEven => d % 2 == 1

/-- Position and reach of `m * 2 ^ q` on the grid of multiples of `10 ^ k`, all scaled by `unit`. -/
structure Window where
  unit : Nat
  low : Nat
  value : Nat
  high : Nat
  closed : Bool

/-- The half gap below a power of two is half the one above it. -/
def Window.at (m : Nat) (q k : Int) : Window :=
  let scale := Nat.pow 2 (q - 2).toNat * Nat.pow 10 (-k).toNat
  let below := if m = hiddenBit ∧ leastExponent < q then 1 else 2
  { unit := Nat.pow 2 (2 - q).toNat * Nat.pow 10 k.toNat
    low := (4 * m - below) * scale
    value := 4 * m * scale
    high := (4 * m + 2) * scale
    closed := m % 2 == 0 }

/-- The grid point `d` reads back as the float. -/
def Window.contains (w : Window) (d : Nat) : Bool :=
  let x := d * w.unit
  if w.closed then w.low ≤ x && x ≤ w.high else w.low < x && x < w.high

/-- The grid point nearest to the float among those that read back as it. -/
def Window.pick? (w : Window) (tie : Tie) : Option Nat :=
  let d := w.value / w.unit
  match w.contains d, w.contains (d + 1) with
  | true, true => some (if tie.takesUpper d w.value w.unit then d + 1 else d)
  | true, false => some d
  | false, true => some (d + 1)
  | false, false => none

/-- A power of ten above `m * 2 ^ q`, by at most two places. -/
def coarsest (m : Nat) (q : Int) : Int :=
  ((m.log2 : Int) + q + 1) * 30103 / 100000 + 1

/-- Twenty grids reach beyond the seventeen digits that tell any two floats apart; the exact value
stands in the last place. -/
def shortest (tie : Tie) (m : Nat) (q : Int) : Digits :=
  let tried := (List.range 20).findSome? fun (i : Nat) =>
    let k := coarsest m q - i
    ((Window.at m q k).pick? tie).map fun d => Digits.ofScaled d k
  tried.getD (.ofScaled (m * Nat.pow 2 q.toNat * Nat.pow 5 (-q).toNat) (min q 0))

end Lox.Decimal
