import HartFloat.Pattern.Arithmetic

/-!
# Square roots

The square root and its reciprocal. Both are exact roots of fractions, rounded once.
-/
namespace HartFloat.Pattern

variable {F : Format}

/-- Rounds the square root of a fraction that is not negative. -/
def roundRoot (F : Format) (c : Context) (q : Rat) : Outcome (Pattern F) :=
  let v := Exact.Surd.ofRat q
  F.round c ⟨v.sign, v.magnitude.root 2 Nat.two_pos⟩

def sqrt (c : Context) (x : Pattern F) : Outcome (Pattern F) :=
  if x.isNaN then unaryNaN F.platform.squareRoot x
  else if x.isZero then quietly (zero F x.sign)
  else if x.classify == .positiveInfinity then quietly (infinity F .positive)
  else if x.sign = .negative then invalid F
  else x.ratio.bind (roundRoot F c)

def rsqrt (c : Context) (x : Pattern F) : Outcome (Pattern F) :=
  if x.isNaN then unaryNaN F.platform.reciprocalSquareRoot x
  else if x.isZero then (infinity F x.sign).map (·, Flags.dz)
  else if x.classify == .positiveInfinity then .ok (positiveZero F, ∅)
  else if x.sign = .negative then invalid F
  else x.ratio.bind fun q => roundRoot F c q⁻¹

end HartFloat.Pattern
