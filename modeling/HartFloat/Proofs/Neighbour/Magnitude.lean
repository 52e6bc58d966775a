import HartFloat.Proofs.Neighbour.Adjacent

/-!
# Steps from magnitude to magnitude

A finite pattern is in normal form if the leading bit of its significand is set exactly where the
exponent field is not zero. From such a pattern the step away from zero leads to the adjacent
magnitude above, and the step toward zero to the adjacent one below. There is one exception: where
the leading bit is written out, the step from the least normal number fills the mantissa field as it
does from the start of any binade, although the exponent fields zero and one belong to the same.
-/
namespace HartFloat

namespace Pattern

variable {F : Format} {x y : Pattern F} {e m : ℕ}

def binade (x : Pattern F) : ℤ := max (x.exponent : ℤ) 1 - F.bias

noncomputable def magnitude (x : Pattern F) : ℝ := x.fieldSignificand * F.spacing x.binade

theorem fieldValue_eq_magnitude (x : Pattern F) :
    (x.fieldValue : ℝ) = x.sign.factor * x.magnitude := by
  rw [fieldValue, magnitude, Format.spacing, binade]
  push_cast
  ring

theorem extended?_eq_orient (hx : x.HasFiniteFields) :
    x.extended? = some (x.sign.orient x.magnitude) := by
  rw [Format.extended?_of_finite hx, fieldValue_eq_magnitude, Sign.orient_coe]

theorem minExponent_le_binade (x : Pattern F) : F.minExponent ≤ x.binade := by
  rw [Format.minExponent, binade]
  omega

theorem binade_le_maxExponent (h : F.Regular) (hx : x.HasFiniteFields) :
    x.binade ≤ F.maxExponent := by
  have hlt := Format.lt_two_pow_iff.mp x.exponent_lt
  have hbias := h.bias_pos
  rw [HasFiniteFields, h.infinityExponent_eq] at hx
  rw [h.infinityExponent_eq] at hlt
  rw [binade, h.maxExponent_eq]
  omega

theorem magnitude_mem (h : F.Regular) (hx : x.HasFiniteFields) : x.magnitude ∈ F.finiteValues := by
  have hmem := Format.significand_mem_finiteValues h .positive x.fieldSignificand_lt
    x.minExponent_le_binade (binade_le_maxExponent h hx)
  rwa [Sign.factor, Int.cast_one, one_mul] at hmem

/-- The leading bit of the significand is set exactly where the exponent field is not zero. -/
def IsInNormalForm (x : Pattern F) : Prop := F.unit ≤ x.fieldSignificand ↔ x.exponent ≠ 0

/-- The least normal number in a format that writes the leading bit out. -/
def IsLeastWrittenNormal (x : Pattern F) : Prop :=
  F.implicitLeadingBit = false ∧ x.exponent = 1 ∧ x.mantissa = F.unit

theorem IsInNormalForm.exponent_eq_zero (hform : x.IsInNormalForm)
    (hzero : x.fieldSignificand = 0) : x.exponent = 0 := by
  have hu := F.unit_pos
  by_contra he
  have hlead := hform.mpr he
  omega

theorem IsInNormalForm.leads (hform : x.IsInNormalForm) :
    F.unit ≤ x.fieldSignificand ∨ x.exponent ≤ 1 := by
  by_cases he : x.exponent = 0
  · omega
  · exact Or.inl (hform.mpr he)

/-- The magnitude of the second pattern is the next significand in the binade of the first one, and
no finer binade has a significand in between. -/
structure Precedes (x y : Pattern F) : Prop where
  finite : x.HasFiniteFields
  leads : F.unit ≤ x.fieldSignificand ∨ x.exponent ≤ 1
  magnitude : y.magnitude = (x.fieldSignificand + 1) * F.spacing x.binade

theorem Precedes.adjacent (hxy : x.Precedes y) (h : F.Regular) (hy : y.HasFiniteFields) :
    F.Adjacent x.magnitude y.magnitude := by
  have hmem := magnitude_mem h hy
  rw [hxy.magnitude] at hmem ⊢
  refine Format.adjacent_significand h (hxy.leads.imp_right fun he => ?_)
    (magnitude_mem h hxy.finite) hmem
  rw [binade, Format.minExponent]
  omega

theorem fieldSignificand_withFields (x : Pattern F) (he : e < 2 ^ F.exponentWidth)
    (hm : m < 2 ^ F.mantissaWidth) :
    (x.withFields e m).fieldSignificand =
      if F.implicitLeadingBit ∧ e ≠ 0 then F.unit + m else m := by
  rw [fieldSignificand, x.exponent_withFields he, x.mantissa_withFields e hm]

theorem binade_withFields (x : Pattern F) (he : e < 2 ^ F.exponentWidth) (m : ℕ) :
    (x.withFields e m).binade = max (e : ℤ) 1 - F.bias := by
  rw [binade, x.exponent_withFields he]

theorem hasFiniteFields_withFields (x : Pattern F) (he : e < F.infinityExponent) (m : ℕ) :
    (x.withFields e m).HasFiniteFields := by
  rw [HasFiniteFields, x.exponent_withFields (Format.lt_two_pow_iff.mpr he.le)]
  exact he.ne

theorem maxMantissa_lt (F : Format) : F.maxMantissa < 2 ^ F.mantissaWidth :=
  Nat.sub_one_lt (Nat.two_pow_pos _).ne'

theorem exponent_lt_infinityExponent (hx : x.HasFiniteFields) : x.exponent < F.infinityExponent :=
  lt_of_le_of_ne (Format.lt_two_pow_iff.mp x.exponent_lt) hx

section

variable (h : F.Regular)

include h

/-- All ones in the mantissa field are one less than the significand that the next binade begins
with, or than its half if they are those of a subnormal with an implied leading bit. -/
theorem significand_maxMantissa (e : ℕ) :
    (if F.implicitLeadingBit ∧ e ≠ 0 then F.unit + F.maxMantissa else F.maxMantissa) + 1 =
      if F.implicitLeadingBit ∧ e = 0 then F.unit else 2 * F.unit := by
  have hu := F.unit_pos
  rw [Format.maxMantissa, h.two_pow_mantissaWidth]
  cases F.implicitLeadingBit <;> by_cases he : e = 0 <;> simp [he] <;> omega

theorem minNormalMantissa_lt : F.minNormalMantissa < 2 ^ F.mantissaWidth := by
  have hu := F.unit_pos
  rw [h.two_pow_mantissaWidth, Format.minNormalMantissa]
  unfold Format.unit at hu ⊢
  cases F.implicitLeadingBit
  · simp
  · simp

omit h in
theorem significand_minNormalMantissa (he : e ≠ 0) :
    (if F.implicitLeadingBit ∧ e ≠ 0 then F.unit + F.minNormalMantissa else F.minNormalMantissa) =
      F.unit := by
  rw [Format.minNormalMantissa, Format.unit]
  cases F.implicitLeadingBit <;> simp [he]

/-- The step away from zero leads to infinity or to the next significand. -/
theorem awayFromZero_eq (hx : x.HasFiniteFields) (hform : x.IsInNormalForm) :
    x.magnitude = F.largest ∧ x.awayFromZero = .ok (pack F x.sign F.infinityExponent 0) ∨
      ∃ y, x.awayFromZero = .ok y ∧ y.sign = x.sign ∧ y.HasFiniteFields ∧ x.Precedes y := by
  have hlt := exponent_lt_infinityExponent hx
  rw [awayFromZero]
  split_ifs with hm he
  · refine Or.inr ⟨_, rfl, x.sign_withFields _ _, x.hasFiniteFields_withFields hlt _,
      hx, hform.leads, ?_⟩
    have hm' : x.mantissa + 1 < 2 ^ F.mantissaWidth := by
      have := maxMantissa_lt F
      omega
    rw [magnitude, x.fieldSignificand_withFields x.exponent_lt hm',
      x.binade_withFields x.exponent_lt, fieldSignificand, binade]
    split_ifs <;> push_cast <;> ring
  all_goals
    have hfull : x.mantissa = F.maxMantissa := by
      have := x.mantissa_lt
      unfold Format.maxMantissa at hm ⊢
      omega
    have hsig : x.fieldSignificand + 1 =
        if F.implicitLeadingBit ∧ x.exponent = 0 then F.unit else 2 * F.unit := by
      rw [fieldSignificand, hfull, significand_maxMantissa h]
  · refine Or.inl ⟨?_, by rw [infinity, ExactResult.signed_eq h]⟩
    have hpos := h.bias_pos
    rw [h.maxNormalExponent_eq] at he
    have hbinade : x.binade = F.maxExponent := by
      rw [binade, he, h.maxExponent_eq]
      omega
    rw [if_neg (by omega)] at hsig
    rw [magnitude, hbinade, Format.largest_eq, show x.fieldSignificand = 2 * F.unit - 1 by omega]
  · have hnext : x.exponent + 1 < F.infinityExponent := by
      rw [Format.maxNormalExponent] at he
      omega
    have hlt' := Format.lt_two_pow_iff.mpr hnext.le
    refine Or.inr ⟨_, rfl, x.sign_withFields _ _, x.hasFiniteFields_withFields hnext _,
      hx, hform.leads, ?_⟩
    rw [magnitude, x.fieldSignificand_withFields hlt' (minNormalMantissa_lt h),
      significand_minNormalMantissa (Nat.succ_ne_zero _), x.binade_withFields hlt']
    rw [← Nat.cast_add_one, hsig, binade]
    split_ifs with hsub
    · rw [hsub.2]
      simp
    · -- The significand would be one of normal numbers, so the exponent field is not zero.
      have hne : x.exponent ≠ 0 := hform.mp (by rw [if_neg hsub] at hsig; omega)
      rw [show max ((x.exponent + 1 : ℕ) : ℤ) 1 - F.bias = max (x.exponent : ℤ) 1 - F.bias + 1 by
        omega, Format.spacing_add_one]
      push_cast
      ring

omit h in
@[simp] theorem sign_towardZero (x : Pattern F) : x.towardZero.sign = x.sign := by
  rw [towardZero]
  split_ifs <;> exact x.sign_withFields _ _

omit h in
/-- The mantissa before is that of the significand before, unless it belongs to another binade. -/
theorem withFields_pred_precedes (hx : x.HasFiniteFields) (hne : x.fieldSignificand ≠ 0)
    (hm : F.minNormalMantissa < x.mantissa ∨ x.exponent = 0) :
    (x.withFields x.exponent (x.mantissa - 1)).Precedes x := by
  have hmlt := x.mantissa_lt
  have hpos : 1 ≤ x.mantissa := by
    rcases hm with hm | he
    · omega
    · rw [fieldSignificand, if_neg (by simp [he])] at hne
      omega
  have hsig : x.fieldSignificand =
      (x.withFields x.exponent (x.mantissa - 1)).fieldSignificand + 1 := by
    rw [x.fieldSignificand_withFields x.exponent_lt (by omega), fieldSignificand]
    split_ifs <;> omega
  refine ⟨x.hasFiniteFields_withFields (exponent_lt_infinityExponent hx) _, ?_, ?_⟩
  · rw [x.exponent_withFields x.exponent_lt]
    by_cases he : x.exponent = 0
    · omega
    · -- The mantissa field is not the first one of its binade.
      have hlead : F.unit < x.fieldSignificand := by
        have hfirst := significand_minNormalMantissa (F := F) he
        have hmin := hm.resolve_right he
        rw [fieldSignificand]
        split_ifs at hfirst ⊢ <;> omega
      omega
  · rw [Pattern.magnitude, hsig, x.binade_withFields x.exponent_lt, binade]
    push_cast
    rfl

/-- All ones in the binade before come before the first significand of a binade, unless that binade
is the second one of a format that writes the leading bit out. -/
theorem withFields_maxMantissa_precedes (hx : x.HasFiniteFields)
    (hsig : x.fieldSignificand = F.unit) (he : x.exponent ≠ 0) (hleast : ¬x.IsLeastWrittenNormal) :
    (x.withFields (x.exponent - 1) F.maxMantissa).Precedes x := by
  have hlt : x.exponent - 1 < F.infinityExponent := by
    have := exponent_lt_infinityExponent hx
    omega
  have hlt' := Format.lt_two_pow_iff.mpr hlt.le
  have hnext : (x.withFields (x.exponent - 1) F.maxMantissa).fieldSignificand + 1 =
      if F.implicitLeadingBit ∧ x.exponent - 1 = 0 then F.unit else 2 * F.unit := by
    rw [x.fieldSignificand_withFields hlt' (maxMantissa_lt F), significand_maxMantissa h]
  refine ⟨x.hasFiniteFields_withFields hlt _, ?_, ?_⟩
  · rw [x.exponent_withFields hlt']
    split_ifs at hnext <;> omega
  · rw [← Nat.cast_add_one, hnext, x.binade_withFields hlt', Pattern.magnitude, hsig, binade]
    split_ifs with hsub
    · rw [show x.exponent = 1 by omega]
      simp
    · have htwo : 2 ≤ x.exponent := by
        by_contra hone
        have hexp : x.exponent = 1 := by omega
        have hi : F.implicitLeadingBit = false := by simpa [hexp] using hsub
        exact hleast ⟨hi, hexp, fieldSignificand_eq_mantissa hi x ▸ hsig⟩
      rw [show max (x.exponent : ℤ) 1 - F.bias =
        max ((x.exponent - 1 : ℕ) : ℤ) 1 - F.bias + 1 by omega, Format.spacing_add_one]
      push_cast
      ring

/-- The step toward zero leads to the significand before, except from the least normal number of a
format that writes the leading bit out. -/
theorem towardZero_precedes (hx : x.HasFiniteFields) (hform : x.IsInNormalForm)
    (hne : x.fieldSignificand ≠ 0) (hleast : ¬x.IsLeastWrittenNormal) :
    x.towardZero.Precedes x := by
  rw [towardZero]
  split_ifs with hm
  · exact withFields_pred_precedes hx hne hm
  · obtain ⟨hmin, he⟩ := not_or.mp hm
    have hsig : x.fieldSignificand = F.unit := by
      have hfirst := significand_minNormalMantissa (F := F) he
      have hlead := hform.mpr he
      rw [fieldSignificand] at hlead ⊢
      split_ifs at hfirst hlead ⊢ <;> omega
    exact withFields_maxMantissa_precedes h hx hsig he hleast

/-- From the least normal number of a format that writes the leading bit out, the step toward zero
leads away from zero. -/
theorem magnitude_towardZero_of_isLeastWrittenNormal (hleast : x.IsLeastWrittenNormal) :
    x.towardZero.exponent = 0 ∧ x.towardZero.mantissa = F.maxMantissa ∧
      x.magnitude < x.towardZero.magnitude := by
  obtain ⟨hi, hexp, hm⟩ := hleast
  have htwo := h.one_lt_unit
  have hlt := Nat.two_pow_pos F.exponentWidth
  have hstep : x.towardZero = x.withFields 0 F.maxMantissa := by
    have hmin : F.minNormalMantissa = F.unit := by
      rw [Format.minNormalMantissa, hi]
      rfl
    rw [towardZero, if_neg (by omega), hexp]
  have hfull := significand_maxMantissa h 0
  have hsig : x.fieldSignificand = F.unit := by
    rw [fieldSignificand_eq_mantissa hi, hm]
  have hbinade : x.binade = max ((0 : ℕ) : ℤ) 1 - F.bias := by
    rw [binade, hexp]
    rfl
  rw [hstep, x.exponent_withFields hlt, x.mantissa_withFields 0 (maxMantissa_lt F), magnitude,
    magnitude, x.fieldSignificand_withFields hlt (maxMantissa_lt F), x.binade_withFields hlt, hsig,
    hbinade]
  refine ⟨rfl, rfl, mul_lt_mul_of_pos_right ?_ Format.spacing_pos⟩
  rw [Nat.cast_lt]
  simp only [hi, Bool.false_eq_true, false_and, if_false] at hfull ⊢
  omega

end

end Pattern
end HartFloat
