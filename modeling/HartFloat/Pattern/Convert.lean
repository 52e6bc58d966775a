import HartFloat.Pattern.Arithmetic

/-!
# Conversion between formats

The value is rounded to the new format. A NaN becomes the canonical one, or keeps as many of its
top mantissa bits as both formats have.
-/
namespace HartFloat.Pattern

variable {S : Format}

/-- The mantissa of a NaN in another format, with its top bits kept. -/
def resizeMantissa (S D : Format) (m : Nat) : Nat :=
  let kept := min S.mantissaWidth D.mantissaWidth
  m / 2 ^ (S.mantissaWidth - kept) * 2 ^ (D.mantissaWidth - kept)

/-- The pattern of another format for this one. -/
def convert (D : Format) (c : Context) (x : Pattern S) : Outcome (Pattern D) :=
  if x.isNaN then
    let canonical := canonicalNaN D
    .ok (match D.platform.conversion with
      | .alwaysCanonical => canonical
      | .retainMostSignificantBits =>
        (canonical.withFields canonical.exponent (resizeMantissa S D x.mantissa)).quieted,
      signaled [x])
  else if x.isInfinity then quietly (infinity D x.sign)
  else if x.isZero then quietly (zero D x.sign)
  else x.ratio.bind (D.roundRat c)

end HartFloat.Pattern
