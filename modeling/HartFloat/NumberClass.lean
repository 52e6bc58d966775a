import HartFloat.Exact.Surd

/-!
# Classes of floating-point data

A pattern is a signed zero, subnormal, normal or infinity, or one of the two kinds of NaN.
-/
namespace HartFloat

inductive NumberClass
  | negativeInfinity
  | negativeNormal
  | negativeSubnormal
  | negativeZero
  | positiveInfinity
  | positiveNormal
  | positiveSubnormal
  | positiveZero
  | quietNaN
  | signalingNaN
  deriving DecidableEq

namespace NumberClass

def all : List NumberClass :=
  [negativeInfinity, negativeNormal, negativeSubnormal, negativeZero,
   positiveInfinity, positiveNormal, positiveSubnormal, positiveZero, quietNaN, signalingNaN]

def name : NumberClass → String
  | negativeInfinity => "NegativeInfinity"
  | negativeNormal => "NegativeNormal"
  | negativeSubnormal => "NegativeSubnormal"
  | negativeZero => "NegativeZero"
  | positiveInfinity => "PositiveInfinity"
  | positiveNormal => "PositiveNormal"
  | positiveSubnormal => "PositiveSubnormal"
  | positiveZero => "PositiveZero"
  | quietNaN => "QuietNaN"
  | signalingNaN => "SignalingNaN"

def sign? : NumberClass → Option Sign
  | negativeInfinity | negativeNormal | negativeSubnormal | negativeZero => some .negative
  | positiveInfinity | positiveNormal | positiveSubnormal | positiveZero => some .positive
  | quietNaN | signalingNaN => none

def neg : NumberClass → NumberClass
  | negativeInfinity => positiveInfinity
  | negativeNormal => positiveNormal
  | negativeSubnormal => positiveSubnormal
  | negativeZero => positiveZero
  | positiveInfinity => negativeInfinity
  | positiveNormal => negativeNormal
  | positiveSubnormal => negativeSubnormal
  | positiveZero => negativeZero
  | quietNaN => quietNaN
  | signalingNaN => signalingNaN

def abs (c : NumberClass) : NumberClass := if c.sign? = some .negative then c.neg else c

def withSign (c : NumberClass) : Sign → NumberClass
  | .positive => c
  | .negative => c.neg

def isSignaling (c : NumberClass) : Bool := c == signalingNaN

def isNaN (c : NumberClass) : Bool := c == quietNaN || c == signalingNaN

def isInfinity (c : NumberClass) : Bool := c == negativeInfinity || c == positiveInfinity

def isNormal (c : NumberClass) : Bool := c == negativeNormal || c == positiveNormal

def isSubnormal (c : NumberClass) : Bool := c == negativeSubnormal || c == positiveSubnormal

def isZero (c : NumberClass) : Bool := c == negativeZero || c == positiveZero

def isFinite (c : NumberClass) : Bool := !c.isNaN && !c.isInfinity

def isSubnormalOrZero (c : NumberClass) : Bool := c.isSubnormal || c.isZero

/-- The answers to the seventeen questions one may ask of a class: the single classes from
negative infinity to signaling NaN, then the seven families. -/
def predicates (c : NumberClass) : List Bool :=
  [c == negativeInfinity, c == negativeNormal, c == negativeSubnormal, c == negativeZero,
   c == positiveInfinity, c == positiveNormal, c == positiveSubnormal, c == positiveZero,
   c == quietNaN, c == signalingNaN,
   c.isInfinity, c.isNormal, c.isSubnormal, c.isZero, c.isNaN, c.isFinite, c.isSubnormalOrZero]

@[simp] theorem neg_neg (c : NumberClass) : c.neg.neg = c := by
  cases c <;> rfl

@[simp] theorem isNaN_neg (c : NumberClass) : c.neg.isNaN = c.isNaN := by
  cases c <;> rfl

@[simp] theorem isSignaling_neg (c : NumberClass) : c.neg.isSignaling = c.isSignaling := by
  cases c <;> rfl

end NumberClass
end HartFloat
