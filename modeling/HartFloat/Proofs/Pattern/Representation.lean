import HartFloat.Proofs.Arithmetic.Exceptions

/-!
# A value has one pattern

In a format with an implied leading bit the fields of a pattern can be told from its value, unless
that is zero: the larger exponent field belongs to the larger magnitude. A value that is rounded
therefore gives the pattern that it was taken from.
-/
namespace HartFloat.Pattern

variable {F : Format} {x y : Pattern F}

theorem fieldValue_eq (x : Pattern F) :
    x.fieldValue =
      x.sign.factor * (x.fieldSignificand * 2 ^ max (x.exponent : ℤ) 1) *
        2 ^ (-(F.bias + F.fractionWidth : ℤ)) := by
  rw [fieldValue, mul_assoc, mul_assoc, mul_assoc, ← zpow_add₀ two_ne_zero]
  congr 3
  ring

theorem sign_eq_of_fieldValue_eq (hne : x.fieldValue ≠ 0) (heq : x.fieldValue = y.fieldValue) :
    x.sign = y.sign := by
  have hreal : (x.fieldValue : ℝ) = y.fieldValue := congrArg _ heq
  have hzero : (x.fieldValue : ℝ) ≠ 0 := Rat.cast_ne_zero.mpr hne
  cases hx : x.sign <;> cases hy : y.sign
  · rfl
  · have hnonneg := Format.fieldValue_nonneg hx
    have hnonpos := Format.fieldValue_nonpos hy
    exact absurd (le_antisymm (hreal ▸ hnonpos) hnonneg) hzero
  · have hnonpos := Format.fieldValue_nonpos hx
    have hnonneg := Format.fieldValue_nonneg hy
    exact absurd (le_antisymm hnonpos (hreal ▸ hnonneg)) hzero
  · rfl

section

variable (h : F.Regular) (hi : F.implicitLeadingBit = true)

include h hi

/-- Of two patterns with different exponents the one with the larger exponent has the larger
magnitude. -/
theorem magnitude_lt (hlt : max (x.exponent : ℤ) 1 < max (y.exponent : ℤ) 1) :
    (x.fieldSignificand * 2 ^ max (x.exponent : ℤ) 1 : ℚ) <
      y.fieldSignificand * 2 ^ max (y.exponent : ℤ) 1 :=
  mul_two_zpow_lt x.fieldSignificand_lt
    ((y.unit_le_fieldSignificand_iff h hi).mpr (by omega)) hlt

theorem eq_of_fieldValue_eq (hne : x.fieldValue ≠ 0) (heq : x.fieldValue = y.fieldValue) :
    x = y := by
  have hsign := sign_eq_of_fieldValue_eq hne heq
  have hfactor : (y.sign.factor : ℚ) ≠ 0 := Int.cast_ne_zero.mpr y.sign.factor_ne_zero
  rw [fieldValue_eq, fieldValue_eq, hsign, mul_left_inj' (zpow_ne_zero _ two_ne_zero),
    mul_right_inj' hfactor] at heq
  have hexp : max (x.exponent : ℤ) 1 = max (y.exponent : ℤ) 1 := by
    rcases lt_trichotomy (max (x.exponent : ℤ) 1) (max (y.exponent : ℤ) 1) with hlt | hexp | hlt
    · exact absurd heq (magnitude_lt h hi hlt).ne
    · exact hexp
    · exact absurd heq (magnitude_lt h hi hlt).ne'
  rw [hexp, mul_left_inj' (zpow_ne_zero _ two_ne_zero), Nat.cast_inj] at heq
  -- The significand tells whether the exponent field is zero or one.
  have hzero : x.exponent ≠ 0 ↔ y.exponent ≠ 0 := by
    rw [← unit_le_fieldSignificand_iff h hi, ← unit_le_fieldSignificand_iff h hi, heq]
  refine eq_of_fields h.signBit hsign (by omega) ?_
  rw [fieldSignificand, fieldSignificand, if_congr (and_congr_right fun _ => hzero) rfl rfl] at heq
  split_ifs at heq
  · exact Nat.add_left_cancel heq
  · exact heq

theorem eq_of_number?_eq {a : Number} (hx : x.number? = some a) (hy : y.number? = some a) :
    x = y := by
  cases a with
  | infinite s =>
    obtain ⟨hexp, hm, hsign⟩ := number?_eq_infinite hx
    obtain ⟨hexp', hm', hsign'⟩ := number?_eq_infinite hy
    exact eq_of_fields h.signBit (hsign.trans hsign'.symm) (hexp.trans hexp'.symm)
      (hm.trans hm'.symm)
  | finite s q =>
    obtain ⟨-, hsign, hvalue⟩ := number?_eq_finite hx
    obtain ⟨-, hsign', hvalue'⟩ := number?_eq_finite hy
    rcases eq_or_ne q 0 with rfl | hq
    · rw [fieldValue_eq_zero_iff, fieldSignificand_eq_zero_iff hi] at hvalue hvalue'
      exact eq_of_fields h.signBit (hsign.trans hsign'.symm) (hvalue.1.trans hvalue'.1.symm)
        (hvalue.2.trans hvalue'.2.symm)
    · exact eq_of_fieldValue_eq h hi (hvalue ▸ hq) (hvalue.trans hvalue'.symm)

/-- The value of a finite pattern, other than zero, is rounded to the pattern in any direction. -/
theorem rounding_fieldValue (hx : x.HasFiniteFields) (hne : x.fieldValue ≠ 0) {v : Exact.Surd}
    (hv : v.toReal = x.fieldValue) (c : Context) : (F.rounding c v).1 = x := by
  have hmem : v.toReal ∈ F.finiteValues := ⟨x, hx, hv.symm⟩
  have hround := (F.isRounding_rounding h c v).extended?_eq h hmem
  obtain ⟨-, hvalue⟩ := Format.fieldValue_of_extended? hround
  have heq : x.fieldValue = (F.rounding c v).1.fieldValue := by
    exact_mod_cast hv.symm.trans hvalue.symm
  exact (eq_of_fieldValue_eq h hi hne heq).symm

end

end HartFloat.Pattern
