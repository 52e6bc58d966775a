import HartFloat.Format
import HartFloat.Rounding

/-!
# Bit patterns of a format

A pattern is packed from a sign, an exponent field and a mantissa field. This module holds the
three fields, the class, the exact value, and the distinguished patterns. A pattern with a
negative sign can be asked for only in a format that has a sign bit.
-/
namespace HartFloat

/-- The demands that an operation on patterns may fail to meet. -/
inductive Violation
  | bitsOutOfRange
  | exponentOutOfRange
  | mantissaOutOfRange
  | noSignBit
  | environmentsDisagree
  | noRealRoot
  | exponentTooWide
  | scaleTooWide
  deriving DecidableEq

/-- What an operation yields: a result together with the exceptions raised, or the demand that was
not met. -/
abbrev Outcome (α : Type) := Except Violation (α × Flags)

/-- Exponents are computed in signed 64-bit integers, which they have to fit. -/
def demandExponent (e : Nat) : Except Violation Unit :=
  if e < 2 ^ (63 : Nat) then .ok () else .error .exponentTooWide

structure Pattern (F : Format) where
  bits : Nat
  bits_lt : bits < F.capacity
  deriving DecidableEq

namespace Pattern

variable {F : Format}

def signDigit : Sign → Nat
  | .positive => 0
  | .negative => 1

def ofBits? (F : Format) (bits : Nat) : Option (Pattern F) :=
  if h : bits < F.capacity then some ⟨bits, h⟩ else none

/-- The pattern with the given bits, which have to fit. -/
def ofBits (F : Format) (bits : Nat) : Except Violation (Pattern F) :=
  match ofBits? F bits with
  | some x => .ok x
  | none => .error .bitsOutOfRange

theorem pack_lt {e m a b : Nat} (s : Sign) (ha : a < 2 ^ e) (hb : b < 2 ^ m) :
    (signDigit s * 2 ^ e + a) * 2 ^ m + b < 2 ^ (e + m + 1) := by
  have hs : signDigit s ≤ 1 := by cases s <;> decide
  have h1 : signDigit s * 2 ^ e + a + 1 ≤ 2 ^ e * 2 := by
    have := Nat.mul_le_mul_right (2 ^ e) hs
    omega
  have h2 := Nat.mul_le_mul_right (2 ^ m) h1
  rw [Nat.add_right_comm e m 1, Nat.pow_add, Nat.pow_succ]
  rw [Nat.add_mul, Nat.one_mul] at h2
  omega

/-- Packs a sign and two fields, each taken modulo its width. -/
def pack (F : Format) (s : Sign) (exponent mantissa : Nat) : Pattern F where
  bits :=
    (signDigit s * 2 ^ F.exponentWidth + exponent % 2 ^ F.exponentWidth) * 2 ^ F.mantissaWidth
      + mantissa % 2 ^ F.mantissaWidth
  bits_lt :=
    pack_lt s (Nat.mod_lt _ (Nat.two_pow_pos _)) (Nat.mod_lt _ (Nat.two_pow_pos _))

/-- Packs a sign and two fields; a negative sign needs a sign bit. -/
def signed (F : Format) (s : Sign) (exponent mantissa : Nat) : Except Violation (Pattern F) :=
  if s = .negative ∧ F.signBit = false then .error .noSignBit
  else .ok (pack F s exponent mantissa)

def topDigit (x : Pattern F) : Nat := x.bits / 2 ^ F.signShift

/-- The sign; a format without a sign bit has positive patterns only. -/
def sign (x : Pattern F) : Sign :=
  if F.signBit ∧ x.topDigit ≠ 0 then .negative else .positive

def exponent (x : Pattern F) : Nat := x.bits / 2 ^ F.mantissaWidth % 2 ^ F.exponentWidth

def mantissa (x : Pattern F) : Nat := x.bits % 2 ^ F.mantissaWidth

def msb (x : Pattern F) : Bool := x.mantissa / F.msb % 2 == 1

/-- The number of places by which the mantissa can be shifted before its top bit is set. -/
def leadingZeros (F : Format) (mantissa : Nat) : Nat := F.msbShift - mantissa.log2

/-- The class without regard to the sign. A format whose leading bit is explicit judges a pattern
by the place of its first set bit: it is normal if the mantissa can be shifted up to its top bit
before the exponent field is used up. -/
def magnitudeClass (x : Pattern F) : NumberClass :=
  if x.exponent = 0 then
    if x.mantissa = 0 then .positiveZero else .positiveSubnormal
  else if x.exponent = F.infinityExponent then
    if x.mantissa = 0 then .positiveInfinity
    else if F.quietNaNFormat.isQuiet x.msb then .quietNaN
    else .signalingNaN
  else if F.implicitLeadingBit then .positiveNormal
  else if x.mantissa = 0 then .positiveZero
  else if leadingZeros F x.mantissa < x.exponent then .positiveNormal
  else .positiveSubnormal

def classify (x : Pattern F) : NumberClass := x.magnitudeClass.withSign x.sign

def isNaN (x : Pattern F) : Bool := x.classify.isNaN

def isSignaling (x : Pattern F) : Bool := x.classify.isSignaling

def isInfinity (x : Pattern F) : Bool := x.classify.isInfinity

def isZero (x : Pattern F) : Bool := x.classify.isZero

def isFinite (x : Pattern F) : Bool := x.classify.isFinite

/-- The integer `n` times `2 ^ e`. -/
def binaryRat (n : Int) (e : Int) : Rat :=
  if 0 ≤ e then ((n * 2 ^ e.toNat : Int) : Rat) else mkRat n (2 ^ (-e).toNat)

/-- The significand of a finite pattern as a whole number, its implied bit included. -/
def significand (x : Pattern F) : Nat :=
  if F.implicitLeadingBit ∧ x.classify.isSubnormalOrZero = false then F.unit + x.mantissa
  else x.mantissa

/-- The exponent field that the value is computed from: that of the least normal number for
subnormals and zeros. -/
def effectiveExponent (x : Pattern F) : Nat :=
  if x.classify.isSubnormalOrZero then 1 else x.exponent

/-- The exact value of a finite pattern; what the formula gives for other patterns has no use. -/
def value (x : Pattern F) : Rat :=
  binaryRat (x.sign.applyTo x.significand) (x.effectiveExponent - F.bias - F.fractionWidth)

/-- The exact value of a finite pattern, computed with an exponent and a bias that have to fit. -/
def ratio (x : Pattern F) : Except Violation Rat := do
  demandExponent x.exponent
  demandExponent F.bias
  return x.value

/-- The exact value, which infinities and NaNs do not have. -/
def value? (x : Pattern F) : Except Violation (Option Rat) :=
  if x.isFinite then x.ratio.map some else .ok none

def zero (F : Format) (s : Sign) : Except Violation (Pattern F) := signed F s 0 0

def infinity (F : Format) (s : Sign) : Except Violation (Pattern F) :=
  signed F s F.infinityExponent 0

def maxNormal (F : Format) (s : Sign) : Except Violation (Pattern F) :=
  signed F s F.maxNormalExponent F.maxMantissa

def minSubnormal (F : Format) (s : Sign) : Except Violation (Pattern F) := signed F s 0 1

def positiveZero (F : Format) : Pattern F := pack F .positive 0 0

def canonicalNaN (F : Format) : Pattern F :=
  pack F .positive F.infinityExponent <|
    match F.quietNaNFormat with
    | .standard => F.msb
    | .mipsLegacy => F.maxMantissa - F.msb

def signalingNaN (F : Format) : Pattern F :=
  pack F .positive F.infinityExponent <|
    match F.quietNaNFormat with
    | .standard => 1
    | .mipsLegacy => F.msb

/-- The pattern with other bits, which have to fit. -/
def withBits (_ : Pattern F) (bits : Nat) : Except Violation (Pattern F) := ofBits F bits

/-- The pattern with its top bit, whatever it stands for, kept and its fields replaced. -/
def withFields (x : Pattern F) (exponent mantissa : Nat) : Pattern F :=
  pack F (if x.topDigit = 0 then .positive else .negative) exponent mantissa

/-- The pattern with the given sign; a negative sign needs a sign bit, and a positive one changes
nothing where there is none. -/
def withSign (x : Pattern F) (s : Sign) : Except Violation (Pattern F) :=
  if F.signBit then .ok (pack F s x.exponent x.mantissa)
  else if s = .negative then .error .noSignBit
  else .ok x

def negate (x : Pattern F) : Except Violation (Pattern F) :=
  if F.signBit then x.withSign x.sign.flip else .error .noSignBit

def abs (x : Pattern F) : Except Violation (Pattern F) := x.withSign .positive

def copySign (x y : Pattern F) : Except Violation (Pattern F) := x.withSign y.sign

/-- The pattern with another mantissa field, which has to fit. -/
def withMantissa (x : Pattern F) (m : Nat) : Except Violation (Pattern F) :=
  if m ≤ F.maxMantissa then .ok (x.withFields x.exponent m) else .error .mantissaOutOfRange

/-- The pattern with another exponent field, which has to fit once it is shifted to its place. In
storage of a limited width the shift loses what leaves the storage. -/
def withExponent (x : Pattern F) (storage : Option Nat) (e : Nat) :
    Except Violation (Pattern F) :=
  let kept := match storage with
    | some w => e % 2 ^ (w - F.mantissaWidth)
    | none => e
  if kept ≤ F.infinityExponent then .ok (x.withFields kept x.mantissa)
  else .error .exponentOutOfRange

def withMsb (x : Pattern F) (b : Bool) : Pattern F :=
  x.withFields x.exponent (x.mantissa % F.msb + b.toNat * F.msb)

/-- The quiet NaN made from a pattern: its payload with the top bit set, or the canonical NaN where
a set bit would make it signaling. -/
def quieted (x : Pattern F) : Pattern F :=
  match F.quietNaNFormat with
  | .standard => x.withFields F.infinityExponent (x.mantissa % F.msb + F.msb)
  | .mipsLegacy => canonicalNaN F

end Pattern
end HartFloat
