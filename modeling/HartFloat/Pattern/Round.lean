import HartFloat.Pattern

/-!
# Rounding an exact value to a format

Every operation computes its exact result and rounds it once, here. A nonzero magnitude is cut at
the last place of its binade, or of the least normal binade if it lies below that, and the
direction decides between the two neighbours. Beyond the largest finite value the direction alone
decides. A format without a sign bit takes every negative value to zero. All other values are placed
by the limits of the exponent, which have to fit signed 64-bit integers.
-/
namespace HartFloat

/-- A magnitude cut to a whole number of units in the last place of a binade. -/
structure Rounded where
  exponent : Int
  significand : Nat
  inexact : Bool

namespace Format

/-- Rounds a magnitude to units in the last place of the binade of the exponent `e`. A significand
that reaches the next binade is written with that binade's exponent. -/
def roundAt (F : Format) (mode : RoundingMode) (sign : Sign) (x : Exact.Magnitude) (e : Int) :
    Rounded :=
  let (n, inexact) := mode.roundToNat sign (x.scale (F.fractionWidth - e))
  if n < 2 * F.unit then ⟨e, n, inexact⟩ else ⟨e + 1, n / 2, inexact⟩

/-- Whether a magnitude below the least normal number counts as tiny: always if that is judged
before rounding, else if it stays below when it is rounded with one more place. -/
def isTiny (F : Format) (c : Context) (sign : Sign) (x : Exact.Magnitude) : Bool :=
  match c.tininess with
  | .beforeRounding => true
  | .afterRounding =>
    decide ((F.roundAt c.mode sign x F.minExponent).significand < F.unit) ||
      decide ((F.roundAt c.mode sign x (F.minExponent - 1)).exponent < F.minExponent)

/-- Rounds a nonzero magnitude to a pattern of the given sign, and says what that raises. -/
def roundMagnitude (F : Format) (c : Context) (sign : Sign) (x : Exact.Magnitude) :
    Pattern F × Flags :=
  let e := x.floorLog2
  let infinity := Pattern.pack F sign F.infinityExponent 0
  if F.maxExponent < e then
    (if c.mode.overflowsToInfinity sign then infinity
      else Pattern.pack F sign F.maxNormalExponent F.maxMantissa,
     Flags.of ∪ Flags.nx)
  else
    let r := F.roundAt c.mode sign x (max e F.minExponent)
    let checked := r.inexact || c.exceptions == .signalExactUnderflow
    let underflow := decide (e < F.minExponent) && checked && F.isTiny c sign x
    let flags := Flags.when underflow Flags.uf ∪ Flags.when r.inexact Flags.nx
    if F.maxExponent < r.exponent then (infinity, flags ∪ Flags.of)
    else if r.significand < F.unit then (Pattern.pack F sign 0 r.significand, flags)
    else (Pattern.pack F sign (r.exponent + F.bias).toNat r.significand, flags)

/-- The pattern to which an exact value is rounded, for exponents of any size. -/
def rounding (F : Format) (c : Context) (v : Exact.Surd) : Pattern F × Flags :=
  if v.isZero then (Pattern.positiveZero F, ∅)
  else if v.sign = .negative ∧ F.signBit = false then
    (Pattern.positiveZero F, Flags.nx ∪ Flags.uf)
  else F.roundMagnitude c v.sign v.magnitude

def roundingRat (F : Format) (c : Context) (q : Rat) : Pattern F × Flags :=
  F.rounding c (Exact.Surd.ofRat q)

/-- Whether the exponent of a value matters to its rounding. -/
def looksAtExponent (F : Format) (v : Exact.Surd) : Bool :=
  !v.isZero && !(v.sign == .negative && !F.signBit)

/-- The bias and the largest exponent field of a normal number have to fit. -/
def demandLimits (F : Format) : Except Violation Unit := do
  demandExponent F.bias
  demandExponent F.maxNormalExponent

def round (F : Format) (c : Context) (v : Exact.Surd) : Outcome (Pattern F) :=
  if F.looksAtExponent v then F.demandLimits.map fun _ => F.rounding c v
  else .ok (F.rounding c v)

def roundRat (F : Format) (c : Context) (q : Rat) : Outcome (Pattern F) :=
  F.round c (Exact.Surd.ofRat q)

end Format
end HartFloat
