import HartFloat.Pattern

/-!
# The shortest decimal that reads back

A finite nonzero pattern is written with the fewest decimal digits that still round to it. For one
digit, two digits, and so on, the two neighbours of the value on the grid of decimals with that many
digits are tried; the first grid with a neighbour that rounds to the pattern gives the answer, and
of two such neighbours the nearer one is taken, and of two that are equally near the greater one.
-/
namespace HartFloat.Decimal

def power (e : Int) : Rat :=
  if 0 ≤ e then ((10 ^ e.toNat : Nat) : Rat) else mkRat 1 (10 ^ (-e).toNat)

def digitCount (n : Nat) : Nat := (Nat.toDigits 10 n).length

/-- The exponent of the greatest power of ten that does not exceed a positive fraction. -/
def floorLog10 (v : Rat) : Int :=
  if 1 ≤ v then (digitCount v.floor.toNat : Int) - 1
  else -(digitCount (v⁻¹.ceil - 1).toNat : Int)

/-- The fractions that round to a pattern: those between two bounds, and the bounds themselves if
they are included. -/
structure Interval where
  low : Rat
  high : Rat
  closed : Bool

def Interval.contains (i : Interval) (q : Rat) : Bool :=
  if i.closed then decide (i.low ≤ q ∧ q ≤ i.high) else decide (i.low < q ∧ q < i.high)

/-- The fractions that round, to nearest and ties to even, to a finite pattern with the magnitude
`v`. The gap below the least number of a binade is half as wide as the gap above it. -/
def intervalOf {F : Format} (x : Pattern F) (v : Rat) : Interval :=
  let gap := Pattern.binaryRat 1 (x.effectiveExponent - F.bias - F.fractionWidth - 1)
  let below := if x.mantissa = 0 ∧ 1 < x.exponent then gap / 2 else gap
  ⟨v - below, v + gap, x.mantissa % 2 == 0⟩

/-- The multiple of the unit next to `v` that lies in the interval, if there is one. Of two the
nearer one is taken, and a tie goes up. -/
def onGrid (i : Interval) (v unit : Rat) : Option Nat :=
  let d := (v / unit).floor.toNat
  let lower := unit * d
  let upper := unit * (d + 1 : Nat)
  match i.contains lower, i.contains upper with
  | true, true => some (if v - lower < upper - v then d else d + 1)
  | true, false => some d
  | false, true => some (d + 1)
  | false, false => none

/-- Tries grids with more and more digits, and answers a number of units and the exponent of the
unit. The last grid tried is taken without a test. -/
def search (i : Interval) (v : Rat) : (grids : Nat) → (exponent : Int) → Nat × Int
  | 0, e => ((v / power e).floor.toNat, e)
  | n + 1, e =>
    match onGrid i v (power e) with
    | some d => (d, e)
    | none => search i v n (e - 1)

/-- A number of units without its trailing zeros. -/
def digitsOf (d : Nat) : List Char :=
  match ((Nat.toDigits 10 d).reverse.dropWhile (· == '0')).reverse with
  | [] => ['0']
  | cs => cs

/-- A positive decimal with one digit before the point and an exponent. -/
def scientific (d : Nat) (e : Int) : String :=
  let exponent := e + (digitCount d : Int) - 1
  let mantissa := match digitsOf d with
    | c :: c' :: rest => c :: '.' :: c' :: rest
    | cs => cs
  String.ofList mantissa ++ "e" ++ toString exponent

def maxDigits : Nat := 17

def ofPattern {F : Format} (x : Pattern F) : String :=
  let sign := if x.sign = .negative then "-" else ""
  if x.isNaN then "NaN"
  else if x.isInfinity then sign ++ "inf"
  else if x.isZero then sign ++ "0e0"
  else
    let v := x.value.abs
    let (d, e) := search (intervalOf x v) v maxDigits (floorLog10 v)
    sign ++ scientific d e

end HartFloat.Decimal
