import HartFloat.Exact.Root

/-!
# Exact magnitudes

A magnitude is a root of a nonnegative fraction, which covers every exact result of the
arithmetic: sums, products and quotients of fractions, and their square roots. Nothing here is
approximate: the floor, its excess and the floor of the binary logarithm are decided by comparing
powers of integers.
-/
namespace HartFloat.Exact

/-- The nonnegative real number `(num / den) ^ (1 / degree)`. -/
structure Magnitude where
  num : Nat
  den : Nat
  degree : Nat
  den_pos : 0 < den
  degree_pos : 0 < degree

/-- How a magnitude lies between its floor and the next integer. -/
inductive Excess
  | none
  | belowHalf
  | half
  | aboveHalf
  deriving DecidableEq

namespace Magnitude

def ofFraction (num den : Nat) (h : 0 < den) : Magnitude := ⟨num, den, 1, h, Nat.one_pos⟩

def ofNat (n : Nat) : Magnitude := ofFraction n 1 Nat.one_pos

def root (x : Magnitude) (k : Nat) (h : 0 < k) : Magnitude :=
  { x with degree := x.degree * k, degree_pos := Nat.mul_pos x.degree_pos h }

def isZero (x : Magnitude) : Bool := x.num == 0

def scale (x : Magnitude) (s : Int) : Magnitude where
  num := x.num * 2 ^ (s.toNat * x.degree)
  den := x.den * 2 ^ ((-s).toNat * x.degree)
  degree := x.degree
  den_pos := Nat.mul_pos x.den_pos (Nat.two_pow_pos _)
  degree_pos := x.degree_pos

def floor (x : Magnitude) : Nat := floorRoot x.degree (x.num / x.den)

/-- Where the magnitude lies above its floor. -/
def excess (x : Magnitude) : Excess :=
  if x.floor ^ x.degree * x.den = x.num then .none
  else match compare ((2 * x.floor + 1) ^ x.degree * x.den) (2 ^ x.degree * x.num) with
    | .gt => .belowHalf
    | .eq => .half
    | .lt => .aboveHalf

/-- The greatest `e` for which `2 ^ e` does not exceed a nonzero magnitude. -/
def floorLog2 (x : Magnitude) : Int :=
  let e : Int := x.num.log2 - x.den.log2
  let fractionLog := if x.den * 2 ^ e.toNat ≤ x.num * 2 ^ (-e).toNat then e else e - 1
  fractionLog / x.degree

end Magnitude
end HartFloat.Exact
