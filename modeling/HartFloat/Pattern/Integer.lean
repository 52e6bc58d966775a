import HartFloat.Pattern.Arithmetic

/-!
# Integers and integral patterns

Rounding a pattern to an integer, to an integral pattern, and to an integer type; and rounding an
integer to a pattern. Only the range of an integer type matters, not how it is stored.
-/
namespace HartFloat

/-- The integer types that a pattern can be converted to and from. -/
inductive IntegerType
  | signed (width : Nat)
  | unsigned (width : Nat)
  | integer
  | natural
  deriving DecidableEq

/-- Whether the type holds the integer. -/
def IntegerType.holds : IntegerType → Int → Bool
  | signed w, n => decide (-2 ^ (w - 1) ≤ n ∧ n < 2 ^ (w - 1))
  | unsigned w, n => decide (0 ≤ n ∧ n < 2 ^ w)
  | integer, _ => true
  | natural, n => decide (0 ≤ n)

namespace RoundingMode

/-- The integer to which a fraction is rounded, and whether they differ. -/
def roundToInt (mode : RoundingMode) (q : Rat) : Int × Bool :=
  let v := Exact.Surd.ofRat q
  let (n, inexact) := mode.roundToNat v.sign v.magnitude
  (v.sign.applyTo n, inexact)

end RoundingMode

namespace Pattern

variable {F : Format}

/-- The integer to which a finite pattern is rounded. Inexactness is signaled on request. -/
def toInteger (c : Context) (exact : Bool) (x : Pattern F) : Outcome (Option Int) :=
  if x.isFinite then
    x.ratio.map fun q =>
      let (n, inexact) := c.mode.roundToInt q
      (some n, Flags.when (exact && inexact) Flags.nx)
  else .ok (none, signaled [x])

/-- The conversion to an integer type. Where there is no result, the operation is invalid and not
inexact. -/
def toIntegerType (c : Context) (exact : Bool) (t : IntegerType) (x : Pattern F) :
    Outcome (Option Int) :=
  (x.toInteger c exact).map fun
    | (some n, flags) => if t.holds n then (some n, flags) else (none, Flags.nv)
    | (none, _) => (none, Flags.nv)

def ofInteger (F : Format) (c : Context) (n : Int) : Outcome (Pattern F) :=
  F.round c (Exact.Surd.ofInt n)

/-- The integer to which a pattern is rounded, as a pattern; a result of zero keeps the sign. -/
def roundToIntegral (c : Context) (exact : Bool) (x : Pattern F) : Outcome (Pattern F) :=
  if x.isNaN then unaryNaN F.platform.roundToIntegral x
  else if x.isInfinity then quietly (infinity F x.sign)
  else
    x.ratio.bind fun q =>
      let (n, inexact) := c.mode.roundToInt q
      let flags := Flags.when (exact && inexact) Flags.nx
      if n = 0 then (zero F x.sign).map (·, flags)
      else (ofInteger F c n).map fun r => (r.1, flags ∪ r.2)

end Pattern
end HartFloat
