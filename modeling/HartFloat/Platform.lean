import HartFloat.NaN.Propagation

/-!
# Platform conventions for NaNs

Binary formats leave to each platform what its canonical NaN looks like, which of two NaNs a
result comes from, and whether the top mantissa bit of a NaN says that it is quiet or that it is
signaling. A platform is the record of these choices; eight known ones are named.
-/
namespace HartFloat

/-- Which value of the top mantissa bit marks a quiet NaN. -/
inductive QuietNaNFormat
  | standard
  | mipsLegacy
  deriving DecidableEq

namespace QuietNaNFormat

def name : QuietNaNFormat → String
  | standard => "Standard"
  | mipsLegacy => "MIPSLegacy"

def isQuiet : QuietNaNFormat → Bool → Bool
  | standard, msb => msb
  | mipsLegacy, msb => !msb

end QuietNaNFormat

/-- The outcome of a fused multiply-add of an infinity and a zero with a quiet NaN. -/
inductive InfinityTimesZeroPlusNaN
  | followPropagation
  | canonicalAndInvalid
  | propagateAndInvalid
  deriving DecidableEq

namespace InfinityTimesZeroPlusNaN

def all : List InfinityTimesZeroPlusNaN :=
  [followPropagation, canonicalAndInvalid, propagateAndInvalid]

def name : InfinityTimesZeroPlusNaN → String
  | followPropagation => "FollowNaNPropagationMode"
  | canonicalAndInvalid => "CanonicalAndGenerateInvalid"
  | propagateAndInvalid => "PropagateAndGenerateInvalid"

end InfinityTimesZeroPlusNaN

/-- What a conversion between formats does with the payload of a NaN. -/
inductive ConversionMode
  | alwaysCanonical
  | retainMostSignificantBits
  deriving DecidableEq

namespace ConversionMode

def all : List ConversionMode := [alwaysCanonical, retainMostSignificantBits]

def name : ConversionMode → String
  | alwaysCanonical => "AlwaysCanonical"
  | retainMostSignificantBits => "RetainMostSignificantBits"

end ConversionMode

structure Platform where
  canonicalSign : Sign
  canonicalMsb : Bool
  canonicalSecondMsb : Bool
  canonicalRest : Bool
  binaryOperations : NaN.BinaryMode
  fusedMultiplyAdd : NaN.TernaryMode
  infinityTimesZeroPlusNaN : InfinityTimesZeroPlusNaN
  roundToIntegral : NaN.UnaryMode
  neighbour : NaN.UnaryMode
  scaling : NaN.UnaryMode
  squareRoot : NaN.UnaryMode
  conversion : ConversionMode
  reciprocalSquareRoot : NaN.UnaryMode
  deriving DecidableEq

namespace Platform

/-- A platform that treats all operations with one operand alike. -/
def uniform (sign : Sign) (msb second rest : Bool) (unary : NaN.UnaryMode)
    (binary : NaN.BinaryMode) (ternary : NaN.TernaryMode)
    (infinityTimesZeroPlusNaN : InfinityTimesZeroPlusNaN) (conversion : ConversionMode) :
    Platform where
  canonicalSign := sign
  canonicalMsb := msb
  canonicalSecondMsb := second
  canonicalRest := rest
  binaryOperations := binary
  fusedMultiplyAdd := ternary
  infinityTimesZeroPlusNaN := infinityTimesZeroPlusNaN
  roundToIntegral := unary
  neighbour := unary
  scaling := unary
  squareRoot := unary
  conversion := conversion
  reciprocalSquareRoot := unary

def arm : Platform :=
  uniform .positive true false false .first .firstSecondPreferringSNaN
    .thirdFirstSecondPreferringSNaN .canonicalAndInvalid .retainMostSignificantBits

def riscV : Platform :=
  uniform .positive true false false .alwaysCanonical .alwaysCanonical .alwaysCanonical
    .canonicalAndInvalid .alwaysCanonical

def power : Platform :=
  uniform .positive true false false .first .firstSecond .firstThirdSecond
    .propagateAndInvalid .retainMostSignificantBits

def mips2008 : Platform :=
  uniform .positive true false false .first .firstSecondPreferringSNaN
    .thirdFirstSecondPreferringSNaN .propagateAndInvalid .retainMostSignificantBits

def x86Sse : Platform :=
  uniform .negative true false false .first .firstSecond .firstSecondThird
    .followPropagation .retainMostSignificantBits

def sparc : Platform :=
  uniform .positive true true true .first .firstSecondPreferringSNaN
    .firstSecondThirdPreferringSNaN .followPropagation .retainMostSignificantBits

def hppa : Platform :=
  uniform .positive false true false .first .firstSecondPreferringSNaN
    .firstSecondThirdPreferringSNaN .followPropagation .retainMostSignificantBits

def mipsLegacy : Platform :=
  uniform .positive false true true .first .firstSecondPreferringSNaN
    .firstSecondThirdPreferringSNaN .canonicalAndInvalid .retainMostSignificantBits

def named : List (String × Platform) :=
  [("ARM", arm), ("RISC_V", riscV), ("POWER", power), ("MIPS_2008", mips2008),
   ("X86_SSE", x86Sse), ("SPARC", sparc), ("HPPA", hppa), ("MIPS_LEGACY", mipsLegacy)]

/-- The quiet NaNs are those whose top mantissa bit is that of the canonical NaN. -/
def quietNaNFormat (p : Platform) : QuietNaNFormat :=
  if p.canonicalMsb then .standard else .mipsLegacy

end Platform
end HartFloat
