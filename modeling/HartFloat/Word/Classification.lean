import HartFloat.Word

/-!
# The classes of the classify instruction

The classify instruction tells ten kinds of single-precision patterns apart and answers with a word
in which one bit, the one of that kind, is set.
-/
namespace HartFloat

/-- The kinds of patterns, in the order of their bits. -/
inductive Classification
  | negInfinity
  | negNormal
  | negSubnormal
  | negZero
  | posZero
  | posSubnormal
  | posNormal
  | posInfinity
  | signalingNaN
  | quietNaN
  deriving DecidableEq

namespace Classification

/-- The kind of a pattern, from its sign, exponent and fraction. -/
def ofWord (w : Word) : Classification :=
  let exponent := w.extractLsb' 23 8
  let fraction := w.extractLsb' 0 23
  if exponent = 0xff then
    if fraction = 0 then (if w.isNegative then negInfinity else posInfinity)
    else if fraction.msb then quietNaN
    else signalingNaN
  else if exponent = 0 then
    if fraction = 0 then (if w.isNegative then negZero else posZero)
    else if w.isNegative then negSubnormal
    else posSubnormal
  else if w.isNegative then negNormal
  else posNormal

/-- The position of the kind's bit. -/
def bit : Classification → Nat
  | negInfinity => 0
  | negNormal => 1
  | negSubnormal => 2
  | negZero => 3
  | posZero => 4
  | posSubnormal => 5
  | posNormal => 6
  | posInfinity => 7
  | signalingNaN => 8
  | quietNaN => 9

def mask (c : Classification) : Word := 1#32 <<< c.bit

def name : Classification → String
  | negInfinity => "NegInfinity"
  | negNormal => "NegNormal"
  | negSubnormal => "NegSubnormal"
  | negZero => "NegZero"
  | posZero => "PosZero"
  | posSubnormal => "PosSubnormal"
  | posNormal => "PosNormal"
  | posInfinity => "PosInfinity"
  | signalingNaN => "SignalingNan"
  | quietNaN => "QuietNan"

end Classification

def Word.classify (w : Word) : Word := (Classification.ofWord w).mask

end HartFloat
