import HartFloat.Pattern.Arithmetic

/-!
# Neighbours, exponents and scaling

The next pattern up or down, the normal form of a pattern with an explicit leading bit, the
binary exponent of a value, and multiplication by a power of two.
-/
namespace HartFloat

/-- The two directions in which a pattern has a neighbour. -/
inductive Direction
  | up
  | down
  deriving DecidableEq

/-- The sign of the infinity that the direction leads to. -/
def Direction.sign : Direction → Sign
  | up => .positive
  | down => .negative

namespace Pattern

variable {F : Format}

/-- Shifts the mantissa of a finite pattern with an explicit leading bit up to its top place, as
far as the exponent field allows. A zero gets the exponent field zero. -/
def normalize (x : Pattern F) : Pattern F :=
  if F.implicitLeadingBit || x.exponent == F.infinityExponent || x.exponent == 0 then x
  else if x.mantissa = 0 then x.withFields 0 0
  else
    let shift := min (F.fractionWidth - x.mantissa.log2) x.exponent
    x.withFields (x.exponent - shift) (x.mantissa * 2 ^ shift)

/-- The pattern that follows a finite nonzero one away from zero. -/
def awayFromZero (x : Pattern F) : Except Violation (Pattern F) :=
  if x.mantissa < F.maxMantissa then .ok (x.withFields x.exponent (x.mantissa + 1))
  else if x.exponent = F.maxNormalExponent then infinity F x.sign
  else .ok (x.withFields (x.exponent + 1) F.minNormalMantissa)

/-- The pattern that precedes a finite nonzero one on the way to zero. -/
def towardZero (x : Pattern F) : Pattern F :=
  if F.minNormalMantissa < x.mantissa ∨ x.exponent = 0 then
    x.withFields x.exponent (x.mantissa - 1)
  else x.withFields (x.exponent - 1) F.maxMantissa

def next (d : Direction) (x : Pattern F) : Outcome (Pattern F) :=
  if x.isNaN then unaryNaN F.platform.neighbour x
  else if x.isInfinity then
    if x.sign = d.sign then .ok (x, ∅) else quietly (maxNormal F x.sign)
  else if x.isZero then quietly (minSubnormal F d.sign)
  else if x.sign = d.sign then quietly x.awayFromZero
  else .ok (x.towardZero, ∅)

def nextUp (x : Pattern F) : Outcome (Pattern F) := x.next .up

def nextDown (x : Pattern F) : Outcome (Pattern F) := x.next .down

/-- The binary exponent of a finite nonzero pattern. -/
def logB (x : Pattern F) : Option Int × Flags :=
  if !x.isFinite || x.isZero then (none, Flags.nv)
  else if F.implicitLeadingBit && x.exponent != 0 then (some (x.exponent - F.bias : Int), ∅)
  else
    let e : Int := (max x.exponent 1 : Nat) - (F.bias : Int)
    (some (e - (F.fractionWidth - x.mantissa.log2 : Nat)), ∅)

/-- The largest scale that can matter: beyond it, every result is the same. -/
def scaleLimit (F : Format) : Int :=
  ((F.maxNormalExponent : Int) - 1 + F.fractionWidth + 1) * 2

/-- The scale, brought between the limits. -/
def clampScale (F : Format) (scale : Int) : Int := min (max scale (-scaleLimit F)) (scaleLimit F)

/-- The number of places by which a value is shifted is an unsigned 64-bit integer. -/
def demandScale (s : Int) : Except Violation Unit :=
  if s.natAbs < 2 ^ (64 : Nat) then .ok () else .error .scaleTooWide

def scaleB (c : Context) (scale : Int) (x : Pattern F) : Outcome (Pattern F) :=
  if x.isNaN then unaryNaN F.platform.scaling x
  else if x.isInfinity then quietly (infinity F x.sign)
  else if x.isZero then quietly (zero F x.sign)
  else
    let s := clampScale F scale
    x.ratio.bind fun q => (demandScale s).bind fun _ => F.roundRat c (q * binaryRat 1 s)

end Pattern
end HartFloat
