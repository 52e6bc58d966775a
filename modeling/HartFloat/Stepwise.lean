import HartFloat.Environment

/-!
# Operations that work in an environment step by step

An operation that works in an environment reads there how to round, raises its exceptions there one
after the other, as soon as each of them arises, and hands the environment on to the operations
that it uses itself. An operation may be entered without an environment: it then works in a fresh
one, and nobody learns what it has raised.
-/
namespace HartFloat

abbrev EnvironmentM := StateT Environment (Except Violation)

namespace EnvironmentM

variable {α : Type}

def raise (f : Flags) : EnvironmentM Unit := modify (·.raise f)

def raiseIf (c : Bool) (f : Flags) : EnvironmentM Unit := if c then raise f else pure ()

/-- The direction that is given, or else that of the environment. -/
def direction (mode? : Option RoundingMode) : EnvironmentM RoundingMode := do
  return mode?.getD (← get).mode

/-- A result that raises nothing, or the demand that was not met. -/
def demand (r : Except Violation α) : EnvironmentM α := fun env => r.map (·, env)

/-- Takes the steps in the environment of the caller, if there is one. -/
def enter (steps : EnvironmentM α) : Option Environment → Except Violation (α × Option Environment)
  | some env => (steps env).map fun r => (r.1, some r.2)
  | none => (steps default).map fun r => (r.1, none)

end EnvironmentM

/-- All that rounding to a format sees of an exact value: whether it is zero, its sign, the floor of
the binary logarithm of its magnitude, and the magnitude cut at the last place of any binade. -/
structure Exact.View where
  isZero : Bool
  sign : Sign
  floorLog2 : Int
  cut : RoundingMode → Int → Rounded

def Exact.Surd.view (v : Exact.Surd) (F : Format) : Exact.View where
  isZero := v.isZero
  sign := v.sign
  floorLog2 := v.magnitude.floorLog2
  cut mode := F.roundAt mode v.sign v.magnitude

namespace Stepwise

open EnvironmentM

variable {F : Format}

def isTiny (F : Format) (mode : RoundingMode) (v : Exact.View) : EnvironmentM Bool := do
  match (← get).tininess with
  | .beforeRounding => return true
  | .afterRounding =>
    return decide ((v.cut mode F.minExponent).significand < F.unit) ||
      decide ((v.cut mode (F.minExponent - 1)).exponent < F.minExponent)

def roundView (F : Format) (mode? : Option RoundingMode) (v : Exact.View) :
    EnvironmentM (Pattern F) := do
  let mode ← direction mode?
  if v.isZero then return Pattern.positiveZero F
  else if v.sign = .negative ∧ F.signBit = false then
    raise (Flags.nx ∪ Flags.uf)
    return Pattern.positiveZero F
  else
    demand (demandExponent F.bias)
    demand (demandExponent F.maxNormalExponent)
    let infinity := Pattern.pack F v.sign F.infinityExponent 0
    if F.maxExponent < v.floorLog2 then
      raise (Flags.of ∪ Flags.nx)
      return if mode.overflowsToInfinity v.sign then infinity
        else Pattern.pack F v.sign F.maxNormalExponent F.maxMantissa
    else
      let r := v.cut mode (max v.floorLog2 F.minExponent)
      let checked := r.inexact || (← get).exceptions == .signalExactUnderflow
      let tiny ← isTiny F mode v
      raiseIf (decide (v.floorLog2 < F.minExponent) && checked && tiny) Flags.uf
      raiseIf r.inexact Flags.nx
      if F.maxExponent < r.exponent then
        raise Flags.of
        return infinity
      else if r.significand < F.unit then return Pattern.pack F v.sign 0 r.significand
      else return Pattern.pack F v.sign (r.exponent + F.bias).toNat r.significand

def round (F : Format) (mode? : Option RoundingMode) (v : Exact.Surd) :
    EnvironmentM (Pattern F) :=
  roundView F mode? (v.view F)

def roundRat (F : Format) (mode? : Option RoundingMode) (q : Rat) : EnvironmentM (Pattern F) :=
  round F mode? (Exact.Surd.ofRat q)

def ofInteger (F : Format) (mode? : Option RoundingMode) (n : Int) : EnvironmentM (Pattern F) :=
  round F mode? (Exact.Surd.ofInt n)

def invalid (F : Format) : EnvironmentM (Pattern F) := do
  raise Flags.nv
  return Pattern.canonicalNaN F

def propagate (operands : List (Pattern F)) (selected : Option (Pattern F)) :
    EnvironmentM (Pattern F) := do
  raiseIf (operands.any Pattern.isSignaling) Flags.nv
  return Pattern.nanFrom selected

def binaryNaN (x y : Pattern F) : EnvironmentM (Pattern F) :=
  propagate [x, y] (F.platform.binaryOperations.select Pattern.classify x y)

def unaryNaN (mode : NaN.UnaryMode) (x : Pattern F) : EnvironmentM (Pattern F) :=
  propagate [x] (mode.select Pattern.classify x)

/-- Rounds an exact sum; a sum of zero takes its sign from the rounding direction. -/
def ofSum (F : Format) (mode : RoundingMode) (q : Rat) : EnvironmentM (Pattern F) :=
  if q = 0 then demand (Pattern.zero F mode.zeroSumSign) else roundRat F (some mode) q

/-- The sum of a pattern and a second term, which is given by its class and value. -/
def addTerm (mode? : Option RoundingMode) (x y : Pattern F) (yClass : NumberClass)
    (yRatio : Except Violation Rat) : EnvironmentM (Pattern F) := do
  let mode ← direction mode?
  let xClass := x.classify
  if xClass.isNaN || yClass.isNaN then binaryNaN x y
  else if xClass.isInfinity && yClass.isInfinity && xClass != yClass then invalid F
  else if xClass == .positiveInfinity || yClass == .positiveInfinity then
    demand (Pattern.infinity F .positive)
  else if xClass == .negativeInfinity || yClass == .negativeInfinity then
    demand (Pattern.infinity F .negative)
  else if xClass == .positiveZero && yClass == .positiveZero then
    demand (Pattern.zero F .positive)
  else if xClass == .negativeZero && yClass == .negativeZero then
    demand (Pattern.zero F .negative)
  else ofSum F mode ((← demand x.ratio) + (← demand yRatio))

def add (mode? : Option RoundingMode) (x y : Pattern F) : EnvironmentM (Pattern F) :=
  addTerm mode? x y y.classify y.ratio

def sub (mode? : Option RoundingMode) (x y : Pattern F) : EnvironmentM (Pattern F) :=
  addTerm mode? x y y.classify.neg (y.ratio.map (-·))

def mul (mode? : Option RoundingMode) (x y : Pattern F) : EnvironmentM (Pattern F) := do
  let mode ← direction mode?
  let sign := x.sign.mul y.sign
  if x.isNaN || y.isNaN then binaryNaN x y
  else if (x.isInfinity && y.isZero) || (x.isZero && y.isInfinity) then invalid F
  else if x.isZero || y.isZero then demand (Pattern.zero F sign)
  else if x.isInfinity || y.isInfinity then demand (Pattern.infinity F sign)
  else roundRat F (some mode) ((← demand x.ratio) * (← demand y.ratio))

def div (mode? : Option RoundingMode) (x y : Pattern F) : EnvironmentM (Pattern F) := do
  let mode ← direction mode?
  let sign := x.sign.mul y.sign
  if x.isNaN || y.isNaN then binaryNaN x y
  else if (x.isInfinity && y.isInfinity) || (x.isZero && y.isZero) then invalid F
  else if x.isZero || y.isInfinity then demand (Pattern.zero F sign)
  else if x.isInfinity then demand (Pattern.infinity F sign)
  else if y.isZero then
    raise Flags.dz
    demand (Pattern.infinity F sign)
  else roundRat F (some mode) ((← demand x.ratio) / (← demand y.ratio))

def remainder (mode? : Option RoundingMode) (x y : Pattern F) : EnvironmentM (Pattern F) := do
  let mode ← direction mode?
  if x.isNaN || y.isNaN then binaryNaN x y
  else if x.isInfinity || y.isZero then invalid F
  else if y.isInfinity then
    if x.isZero then demand (Pattern.zero F x.sign)
    else roundRat F (some mode) (← demand x.ratio)
  else
    let a ← demand x.ratio
    let b ← demand y.ratio
    let r := a - b * Pattern.nearestEven (a / b)
    if r = 0 then demand (Pattern.zero F x.sign) else roundRat F (some mode) r

/-- The result of a fused multiply-add with a NaN among its operands. -/
def fusedNaN (x y z : Pattern F) (infinityTimesZero : Bool) : EnvironmentM (Pattern F) := do
  let propagated := Pattern.nanFrom (F.platform.fusedMultiplyAdd.select Pattern.classify x y z)
  raiseIf ([x, y, z].any Pattern.isSignaling) Flags.nv
  if infinityTimesZero && z.classify == .quietNaN then
    match F.platform.infinityTimesZeroPlusNaN with
    | .canonicalAndInvalid => invalid F
    | .propagateAndInvalid =>
      raise Flags.nv
      return z
    | .followPropagation => return propagated
  else return propagated

def fusedMultiplyAdd (mode? : Option RoundingMode) (x y z : Pattern F) :
    EnvironmentM (Pattern F) := do
  let mode ← direction mode?
  let sign := x.sign.mul y.sign
  let infinityTimesZero := (x.isInfinity && y.isZero) || (x.isZero && y.isInfinity)
  let infiniteProduct := x.isInfinity || y.isInfinity
  if x.isNaN || y.isNaN || z.isNaN then fusedNaN x y z infinityTimesZero
  else if infinityTimesZero || (infiniteProduct && z.isInfinity && sign != z.sign) then invalid F
  else if (x.isZero || y.isZero) && z.isZero && sign == z.sign then demand (Pattern.zero F sign)
  else if z.isInfinity then demand (Pattern.infinity F z.sign)
  else if infiniteProduct then demand (Pattern.infinity F sign)
  else ofSum F mode ((← demand x.ratio) * (← demand y.ratio) + (← demand z.ratio))

def toInteger (mode? : Option RoundingMode) (exact : Bool) (x : Pattern F) :
    EnvironmentM (Option Int) := do
  let mode ← direction mode?
  if x.isSignaling then
    raise Flags.nv
    return none
  else if x.isFinite then
    let (n, inexact) := mode.roundToInt (← demand x.ratio)
    raiseIf (exact && inexact) Flags.nx
    return some n
  else return none

/-- Rounds to an integer first. Where that gives none, or none that the type holds, the exceptions
raised on the way are taken back. -/
def toIntegerType (mode? : Option RoundingMode) (exact : Bool) (t : IntegerType)
    (x : Pattern F) : EnvironmentM (Option Int) := do
  let before := (← get).flags
  let n? := (← toInteger mode? exact x).filter t.holds
  if n?.isNone then
    modify fun env => { env with flags := before ∪ Flags.nv }
  return n?

def roundToIntegral (mode? : Option RoundingMode) (exact : Bool) (x : Pattern F) :
    EnvironmentM (Pattern F) := do
  let mode ← direction mode?
  if x.isNaN then unaryNaN F.platform.roundToIntegral x
  else if x.isInfinity then demand (Pattern.infinity F x.sign)
  else
    let n := (← toInteger (some mode) exact x).getD 0
    if n = 0 then demand (Pattern.zero F x.sign) else ofInteger F (some mode) n

def next (d : Direction) (x : Pattern F) : EnvironmentM (Pattern F) :=
  if x.isNaN then unaryNaN F.platform.neighbour x
  else if x.isInfinity then
    if x.sign = d.sign then return x else demand (Pattern.maxNormal F x.sign)
  else if x.isZero then demand (Pattern.minSubnormal F d.sign)
  else if x.sign = d.sign then demand x.awayFromZero
  else return x.towardZero

def logB (x : Pattern F) : EnvironmentM (Option Int) :=
  if !x.isFinite || x.isZero then do
    raise Flags.nv
    return none
  else if F.implicitLeadingBit && x.exponent != 0 then
    return some (x.exponent - F.bias : Int)
  else
    let e : Int := (max x.exponent 1 : Nat) - (F.bias : Int)
    return some (e - (F.fractionWidth - x.mantissa.log2 : Nat))

def scaleB (mode? : Option RoundingMode) (scale : Int) (x : Pattern F) :
    EnvironmentM (Pattern F) := do
  let mode ← direction mode?
  if x.isNaN then unaryNaN F.platform.scaling x
  else if x.isInfinity then demand (Pattern.infinity F x.sign)
  else if x.isZero then demand (Pattern.zero F x.sign)
  else
    let s := Pattern.clampScale F scale
    let q ← demand x.ratio
    demand (Pattern.demandScale s)
    roundRat F (some mode) (q * Pattern.binaryRat 1 s)

/-- Rounds the square root of a fraction that is not negative. -/
def roundRoot (F : Format) (mode : RoundingMode) (q : Rat) : EnvironmentM (Pattern F) :=
  let v := Exact.Surd.ofRat q
  round F (some mode) ⟨v.sign, v.magnitude.root 2 Nat.two_pos⟩

def sqrt (mode? : Option RoundingMode) (x : Pattern F) : EnvironmentM (Pattern F) := do
  let mode ← direction mode?
  if x.isNaN then unaryNaN F.platform.squareRoot x
  else if x.isZero then demand (Pattern.zero F x.sign)
  else if x.classify == .positiveInfinity then demand (Pattern.infinity F .positive)
  else if x.sign = .negative then invalid F
  else roundRoot F mode (← demand x.ratio)

def rsqrt (mode? : Option RoundingMode) (x : Pattern F) : EnvironmentM (Pattern F) := do
  let mode ← direction mode?
  if x.isNaN then unaryNaN F.platform.reciprocalSquareRoot x
  else if x.isZero then
    raise Flags.dz
    demand (Pattern.infinity F x.sign)
  else if x.classify == .positiveInfinity then return Pattern.positiveZero F
  else if x.sign = .negative then invalid F
  else roundRoot F mode (← demand x.ratio)⁻¹

def convert {S : Format} (D : Format) (mode? : Option RoundingMode) (x : Pattern S) :
    EnvironmentM (Pattern D) := do
  let mode ← direction mode?
  if x.isNaN then
    raiseIf x.isSignaling Flags.nv
    let canonical := Pattern.canonicalNaN D
    match D.platform.conversion with
    | .alwaysCanonical => return canonical
    | .retainMostSignificantBits =>
      return (canonical.withFields canonical.exponent
        (Pattern.resizeMantissa S D x.mantissa)).quieted
  else if x.isInfinity then demand (Pattern.infinity D x.sign)
  else if x.isZero then demand (Pattern.zero D x.sign)
  else roundRat D (some mode) (← demand x.ratio)

/-- A comparison does not need an environment: it raises its exception in the one it is given, if it
is given one. -/
def compare (quiet : Bool) (x y : Pattern F) (env? : Option Environment) :
    Except Violation (Option Ordering × Option Environment) :=
  if x.isNaN || y.isNaN then
    .ok (none,
      if !quiet || x.isSignaling || y.isSignaling then env?.map (·.raise Flags.nv) else env?)
  else (x.order y).map fun o => (some o, env?)

def compareQuiet (x y : Pattern F) (env? : Option Environment) :
    Except Violation (Option Ordering × Option Environment) := compare true x y env?

def compareSignaling (x y : Pattern F) (env? : Option Environment) :
    Except Violation (Option Ordering × Option Environment) := compare false x y env?

end Stepwise
end HartFloat
