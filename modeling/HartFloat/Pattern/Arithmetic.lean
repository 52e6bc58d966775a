import HartFloat.Pattern.Round

/-!
# Arithmetic on patterns

Addition, subtraction, multiplication, division, remainder and fused multiply-add. Each operation
settles NaNs first, then infinities and zeros, and rounds the exact result of the remaining cases
once. An operation answers with a pattern and the exceptions it raises; it fails only where its
result would need the sign bit that the format does not have, or where the exponents of its exact
operands or of its result do not fit.
-/
namespace HartFloat.Pattern

variable {F : Format}

/-- An outcome that raises nothing. -/
def quietly {α : Type} (r : Except Violation α) : Outcome α := r.map (·, ∅)

/-- The outcome of an operation without a usefully definable result. -/
def invalid (F : Format) : Outcome (Pattern F) := .ok (canonicalNaN F, Flags.nv)

/-- The NaN made from the selected operand, or the canonical one. -/
def nanFrom (selected : Option (Pattern F)) : Pattern F :=
  match selected with
  | some x => x.quieted
  | none => canonicalNaN F

/-- Invalid operation if an operand is a signaling NaN. -/
def signaled (xs : List (Pattern F)) : Flags := Flags.when (xs.any isSignaling) Flags.nv

/-- The result of a basic operation with a NaN among its operands. -/
def binaryNaN (x y : Pattern F) : Outcome (Pattern F) :=
  .ok (nanFrom (F.platform.binaryOperations.select classify x y), signaled [x, y])

def unaryNaN (mode : NaN.UnaryMode) (x : Pattern F) : Outcome (Pattern F) :=
  .ok (nanFrom (mode.select classify x), signaled [x])

/-- Rounds an exact sum; a sum of zero takes its sign from the rounding direction. -/
def ofSum (F : Format) (c : Context) (q : Rat) : Outcome (Pattern F) :=
  if q = 0 then quietly (zero F c.mode.zeroSumSign) else F.roundRat c q

/-- The sum of a pattern and a second term, which is given by its class and value. -/
def addTerm (c : Context) (x y : Pattern F) (yClass : NumberClass)
    (yRatio : Except Violation Rat) : Outcome (Pattern F) :=
  let xClass := x.classify
  if xClass.isNaN || yClass.isNaN then binaryNaN x y
  else if xClass.isInfinity && yClass.isInfinity && xClass != yClass then invalid F
  else if xClass == .positiveInfinity || yClass == .positiveInfinity then
    quietly (infinity F .positive)
  else if xClass == .negativeInfinity || yClass == .negativeInfinity then
    quietly (infinity F .negative)
  else if xClass == .positiveZero && yClass == .positiveZero then quietly (zero F .positive)
  else if xClass == .negativeZero && yClass == .negativeZero then quietly (zero F .negative)
  else x.ratio.bind fun a => yRatio.bind fun b => ofSum F c (a + b)

def add (c : Context) (x y : Pattern F) : Outcome (Pattern F) :=
  addTerm c x y y.classify y.ratio

def sub (c : Context) (x y : Pattern F) : Outcome (Pattern F) :=
  addTerm c x y y.classify.neg (y.ratio.map (-·))

def mul (c : Context) (x y : Pattern F) : Outcome (Pattern F) :=
  let sign := x.sign.mul y.sign
  if x.isNaN || y.isNaN then binaryNaN x y
  else if (x.isInfinity && y.isZero) || (x.isZero && y.isInfinity) then invalid F
  else if x.isZero || y.isZero then quietly (zero F sign)
  else if x.isInfinity || y.isInfinity then quietly (infinity F sign)
  else x.ratio.bind fun a => y.ratio.bind fun b => F.roundRat c (a * b)

def div (c : Context) (x y : Pattern F) : Outcome (Pattern F) :=
  let sign := x.sign.mul y.sign
  if x.isNaN || y.isNaN then binaryNaN x y
  else if (x.isInfinity && y.isInfinity) || (x.isZero && y.isZero) then invalid F
  else if x.isZero || y.isInfinity then quietly (zero F sign)
  else if x.isInfinity then quietly (infinity F sign)
  else if y.isZero then (infinity F sign).map (·, Flags.dz)
  else x.ratio.bind fun a => y.ratio.bind fun b => F.roundRat c (a / b)

/-- The integer nearest to a fraction, the even one of two. -/
def nearestEven (q : Rat) : Int :=
  let n := q.floor
  if q - n < 1 / 2 ∨ (q - n = 1 / 2 ∧ n % 2 = 0) then n else n + 1

/-- The remainder that is left when the nearest multiple of the second operand is taken away. -/
def remainder (c : Context) (x y : Pattern F) : Outcome (Pattern F) :=
  if x.isNaN || y.isNaN then binaryNaN x y
  else if x.isInfinity || y.isZero then invalid F
  else if y.isInfinity then
    if x.isZero then quietly (zero F x.sign) else x.ratio.bind (F.roundRat c)
  else
    x.ratio.bind fun a => y.ratio.bind fun b =>
      let r := a - b * nearestEven (a / b)
      if r = 0 then quietly (zero F x.sign) else F.roundRat c r

/-- The result of a fused multiply-add with a NaN among its operands. -/
def fusedNaN (x y z : Pattern F) (infinityTimesZero : Bool) : Outcome (Pattern F) :=
  let propagated :=
    (nanFrom (F.platform.fusedMultiplyAdd.select classify x y z), signaled [x, y, z])
  if infinityTimesZero && z.classify == .quietNaN then
    match F.platform.infinityTimesZeroPlusNaN with
    | .canonicalAndInvalid => invalid F
    | .propagateAndInvalid => .ok (z, Flags.nv)
    | .followPropagation => .ok propagated
  else .ok propagated

/-- The product of the first two operands plus the third, rounded once. -/
def fusedMultiplyAdd (c : Context) (x y z : Pattern F) : Outcome (Pattern F) :=
  let sign := x.sign.mul y.sign
  let infinityTimesZero := (x.isInfinity && y.isZero) || (x.isZero && y.isInfinity)
  let infiniteProduct := x.isInfinity || y.isInfinity
  if x.isNaN || y.isNaN || z.isNaN then fusedNaN x y z infinityTimesZero
  else if infinityTimesZero || (infiniteProduct && z.isInfinity && sign != z.sign) then invalid F
  else if (x.isZero || y.isZero) && z.isZero && sign == z.sign then quietly (zero F sign)
  else if z.isInfinity then quietly (infinity F z.sign)
  else if infiniteProduct then quietly (infinity F sign)
  else
    x.ratio.bind fun a => y.ratio.bind fun b => z.ratio.bind fun d => ofSum F c (a * b + d)

end HartFloat.Pattern
