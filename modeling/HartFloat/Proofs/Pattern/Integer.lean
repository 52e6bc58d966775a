import HartFloat.Pattern.Integer
import HartFloat.Proofs.Pattern.Narrow
import HartFloat.Proofs.Rounding.Integral

/-!
# Rounding patterns to integers

A finite pattern is rounded to an integer in the direction asked for, inexactly if its value is no
integer. An integer type that does not hold the result has none to give: the operation is then
invalid, and what was inexact about it is forgotten.
-/
namespace HartFloat

theorem RoundingMode.roundToInt_eq (mode : RoundingMode) (q : ℚ) :
    mode.roundToInt q = (mode.roundReal q, decide ((mode.roundReal q : ℚ) ≠ q)) := by
  obtain ⟨s, x, hsurd⟩ : ∃ s x, Exact.Surd.ofRat q = ⟨s, x⟩ := ⟨_, _, rfl⟩
  have hreal : (s.factor : ℝ) * x.toReal = q := by
    rw [← Exact.Surd.toReal_ofRat q, hsurd, Exact.Surd.toReal]
  have hround := mode.applyTo_roundToNat s x
  have hfactor : (s.factor : ℝ) ≠ 0 := Int.cast_ne_zero.mpr s.factor_ne_zero
  rw [hreal] at hround
  have hinexact : (mode.roundToNat s x).2 = decide ((mode.roundReal q : ℚ) ≠ q) := by
    rw [Bool.eq_iff_iff, decide_eq_true_iff, roundToNat_inexact_iff, ← hround, Sign.applyTo_eq,
      not_iff_not, ← mul_right_inj' hfactor, hreal]
    exact_mod_cast Iff.rfl
  rw [roundToInt, hsurd]
  exact Prod.ext hround hinexact

namespace Pattern

variable {F : Format} {x : Pattern F}

theorem toIntegerType_of_not_isFinite (hx : x.isFinite = false) (c : Context) (exact : Bool)
    (t : IntegerType) : x.toIntegerType c exact t = .ok (none, Flags.nv) := by
  rw [toIntegerType, toInteger, hx]
  rfl

theorem toIntegerType_of_isFinite (hw : F.exponentWidth ≤ 63) (hx : x.isFinite = true)
    (c : Context) (exact : Bool) (t : IntegerType) :
    x.toIntegerType c exact t = .ok
      (if t.holds (c.mode.roundReal x.value) then
        (some (c.mode.roundReal x.value),
          Flags.when (exact && decide ((c.mode.roundReal x.value : ℚ) ≠ x.value)) Flags.nx)
      else (none, Flags.nv)) := by
  rw [toIntegerType, toInteger, if_pos hx, ratio_eq hw]
  simp only [Except.map, RoundingMode.roundToInt_eq]

end Pattern
end HartFloat
