import HartFloat.Flags
import HartFloat.Exact.Surd

/-!
# Rounding directions and the floating-point environment

The five rounding directions, the two ways to treat an exact tiny result, the two points at which
tininess is detected, and the environment that carries these together with the exceptions raised
so far.
-/
namespace HartFloat

inductive RoundingMode
  | tiesToEven
  | towardZero
  | towardNegative
  | towardPositive
  | tiesToAway
  deriving DecidableEq

/-- Whether an exact tiny result signals underflow. -/
inductive ExceptionMode
  | ignoreExactUnderflow
  | signalExactUnderflow
  deriving DecidableEq

inductive TininessMode
  | afterRounding
  | beforeRounding
  deriving DecidableEq

namespace RoundingMode

def all : List RoundingMode :=
  [tiesToEven, towardZero, towardNegative, towardPositive, tiesToAway]

def name : RoundingMode → String
  | tiesToEven => "TiesToEven"
  | towardZero => "TowardZero"
  | towardNegative => "TowardNegative"
  | towardPositive => "TowardPositive"
  | tiesToAway => "TiesToAway"

/-- Whether the direction leads away from zero for every value of the sign. -/
def isDirectedAway : RoundingMode → Sign → Bool
  | towardNegative, .negative | towardPositive, .positive => true
  | _, _ => false

def isNearest : RoundingMode → Bool
  | tiesToEven | tiesToAway => true
  | _ => false

/-- Whether a magnitude moves from its floor to the next integer, given its sign, whether the
floor is odd, and where the magnitude lies between the two. -/
def roundsUp (mode : RoundingMode) (sign : Sign) (odd : Bool) : Exact.Excess → Bool
  | .none => false
  | .belowHalf => mode.isDirectedAway sign
  | .half => mode.isDirectedAway sign || mode == tiesToAway || (mode == tiesToEven && odd)
  | .aboveHalf => mode.isDirectedAway sign || mode.isNearest

def overflowsToInfinity (mode : RoundingMode) (sign : Sign) : Bool :=
  mode.isDirectedAway sign || mode.isNearest

/-- The integer to which a magnitude of the given sign is rounded, and whether they differ. -/
def roundToNat (mode : RoundingMode) (sign : Sign) (x : Exact.Magnitude) : Nat × Bool :=
  (x.floor + (mode.roundsUp sign (x.floor % 2 == 1) x.excess).toNat, x.excess != .none)

/-- The sign of an exact zero sum of terms that are not both zeros of that sign. -/
def zeroSumSign : RoundingMode → Sign
  | towardNegative => .negative
  | _ => .positive

end RoundingMode

namespace ExceptionMode

def all : List ExceptionMode := [ignoreExactUnderflow, signalExactUnderflow]

def name : ExceptionMode → String
  | ignoreExactUnderflow => "IgnoreExactUnderflow"
  | signalExactUnderflow => "SignalExactUnderflow"

end ExceptionMode

namespace TininessMode

def all : List TininessMode := [afterRounding, beforeRounding]

def name : TininessMode → String
  | afterRounding => "AfterRounding"
  | beforeRounding => "BeforeRounding"

end TininessMode

/-- What an operation needs to know to round its exact result. -/
structure Context where
  mode : RoundingMode := .tiesToEven
  exceptions : ExceptionMode := .ignoreExactUnderflow
  tininess : TininessMode := .afterRounding
  deriving DecidableEq

def Context.override (c : Context) (mode? : Option RoundingMode) : Context :=
  { c with mode := mode?.getD c.mode }

/-- A floating-point environment: how operations round, and what they have raised so far. -/
structure Environment extends Context where
  flags : Flags := ∅
  deriving DecidableEq

namespace Environment

instance : Inhabited Environment := ⟨{}⟩

/-- The environment after the given exceptions have been raised. -/
def raise (env : Environment) (f : Flags) : Environment := { env with flags := env.flags ∪ f }

/-- Two environments merge when they round alike; the flags of both are then kept. -/
def merge? (a b : Environment) : Option Environment :=
  if a.toContext = b.toContext then some (a.raise b.flags) else none

end Environment
end HartFloat
