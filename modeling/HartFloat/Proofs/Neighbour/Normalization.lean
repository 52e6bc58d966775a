import HartFloat.Pattern.Neighbour
import HartFloat.Proofs.Arithmetic.Unsigned

/-!
# Normalization

A format that writes the leading bit out has several patterns for one number. Normalization shifts
the mantissa up place by place and takes one off the exponent field for each, until the leading bit
is set or the exponent field is used up. A shift keeps the mantissa times the power of two that the
exponent field names. In the value of a pattern, however, the exponent field zero counts as one, so
that the shift which uses the exponent field up doubles the value. The numbers that get there are
those below the normal ones whose exponent field is not zero.
-/
namespace HartFloat

namespace Format

/-- The fields to which an exponent field and a mantissa field lead if the mantissa is shifted up,
and the exponent field decreased, one place after another: until the leading bit is set or the
exponent field is zero. -/
inductive ShiftsUp (F : Format) : ℕ → ℕ → ℕ → ℕ → Prop
  | done {e m} (hdone : e = 0 ∨ F.unit ≤ m) : ShiftsUp F e m e m
  | shift {e m e' m'} (hm : m < F.unit) (hnext : ShiftsUp F e (2 * m) e' m') :
      ShiftsUp F (e + 1) m e' m'

variable {F : Format} {e m e' m' e'' m'' : ℕ}

/-- The number that is so many halves of the least spacing away from zero, on the side of the
sign. -/
def ofHalves (F : Format) (s : Sign) (n : ℕ) : ℚ :=
  s.factor * n * 2 ^ (-(F.bias : ℤ) - F.fractionWidth)

theorem ofHalves_mul_two_pow (F : Format) (s : Sign) (n k : ℕ) :
    F.ofHalves s (n * 2 ^ k) = s.factor * n * 2 ^ ((k : ℤ) - F.bias - F.fractionWidth) := by
  rw [ofHalves, show (k : ℤ) - F.bias - F.fractionWidth =
    k + (-(F.bias : ℤ) - F.fractionWidth) by ring, zpow_add₀ two_ne_zero, zpow_natCast]
  push_cast
  ring

theorem ofHalves_mul (F : Format) (s : Sign) (k n : ℕ) :
    F.ofHalves s (k * n) = k * F.ofHalves s n := by
  rw [ofHalves, ofHalves]
  push_cast
  ring

namespace ShiftsUp

theorem unique (h : F.ShiftsUp e m e' m') (h' : F.ShiftsUp e m e'' m'') :
    e' = e'' ∧ m' = m'' := by
  induction h with
  | done hdone =>
    cases h' with
    | done => exact ⟨rfl, rfl⟩
    | shift hm => omega
  | shift hm hnext ih =>
    cases h' with
    | done hdone => omega
    | shift _ hnext' => exact ih hnext'

theorem exponent_le (h : F.ShiftsUp e m e' m') : e' ≤ e := by
  induction h with
  | done => exact le_rfl
  | shift _ _ ih => exact ih.trans (Nat.le_succ _)

theorem stops (h : F.ShiftsUp e m e' m') : e' = 0 ∨ F.unit ≤ m' := by
  induction h with
  | done hdone => exact hdone
  | shift _ _ ih => exact ih

theorem mantissa_lt (h : F.ShiftsUp e m e' m') (hm : m < 2 * F.unit) : m' < 2 * F.unit := by
  induction h with
  | done => exact hm
  | shift hm' _ ih => exact ih (by omega)

theorem scaled (h : F.ShiftsUp e m e' m') : m' * 2 ^ e' = m * 2 ^ e := by
  induction h with
  | done => rfl
  | shift _ _ ih => rw [ih, Nat.pow_succ, Nat.mul_comm 2, Nat.mul_assoc, Nat.mul_comm 2]

/-- The exponent field is used up if the number is below the normal ones. -/
theorem exponent_eq_zero_iff (h : F.ShiftsUp e m e' m') (hm : m < 2 * F.unit) :
    e' = 0 ↔ e = 0 ∨ m * 2 ^ (e - 1) < F.unit := by
  have hscaled := h.scaled
  rcases Nat.eq_zero_or_pos e with rfl | he
  · exact iff_of_true (Nat.le_zero.mp h.exponent_le) (Or.inl rfl)
  rw [or_iff_right he.ne']
  rw [← Nat.sub_one_add_one he.ne', Nat.pow_succ, ← Nat.mul_assoc] at hscaled
  constructor
  · rintro rfl
    have hlt := h.mantissa_lt hm
    rw [Nat.pow_zero] at hscaled
    omega
  · intro hlt
    by_contra he'
    have hlead := h.stops.resolve_left he'
    have htwo : 2 ≤ 2 ^ e' := Nat.le_self_pow he' 2
    have := Nat.mul_le_mul hlead htwo
    omega

theorem scaled_max (h : F.ShiftsUp e m e' m') (hm : m < 2 * F.unit) :
    m' * 2 ^ max e' 1 =
      (if e ≠ 0 ∧ m * 2 ^ (e - 1) < F.unit then 2 else 1) * (m * 2 ^ max e 1) := by
  have hscaled := h.scaled
  have hzero := h.exponent_eq_zero_iff hm
  rcases Nat.eq_zero_or_pos e with rfl | he
  · obtain rfl := Nat.le_zero.mp h.exponent_le
    simpa using hscaled
  rw [max_eq_left (Nat.succ_le_of_lt he)]
  rcases Nat.eq_zero_or_pos e' with rfl | he'
  · rw [if_pos ⟨he.ne', (hzero.mp rfl).resolve_left he.ne'⟩, ← hscaled]
    simp [Nat.mul_comm]
  · rw [if_neg fun hlt => he'.ne' (hzero.mpr (Or.inr hlt.2)), max_eq_left (Nat.succ_le_of_lt he'),
      hscaled, Nat.one_mul]

end ShiftsUp

/-- The number of shifts is that of the places above the first set bit, or the exponent field. -/
theorem shiftsUp_min (hm : m ≠ 0) (hlt : m < 2 * F.unit) (e : ℕ) :
    F.ShiftsUp e m (e - min (F.fractionWidth - m.log2) e)
      (m * 2 ^ min (F.fractionWidth - m.log2) e) := by
  induction e generalizing m with
  | zero => simpa using ShiftsUp.done (Or.inl rfl)
  | succ e ih =>
    rcases Nat.lt_or_ge m F.unit with hunit | hunit
    · have hlog : m.log2 < F.fractionWidth := (Nat.log2_lt hm).mpr hunit
      have hnext := ih (m := 2 * m) (by omega) (by omega)
      rw [Nat.log2_two_mul hm] at hnext
      have hmin : min (F.fractionWidth - m.log2) (e + 1) =
          min (F.fractionWidth - (m.log2 + 1)) e + 1 := by omega
      rw [hmin, Nat.add_sub_add_right, Nat.pow_succ', ← Nat.mul_assoc, Nat.mul_comm m]
      exact .shift hunit hnext
    · have hlog : F.fractionWidth - m.log2 = 0 :=
        Nat.sub_eq_zero_of_le ((Nat.le_log2 hm).mpr hunit)
      simpa [hlog] using ShiftsUp.done (e := e + 1) (Or.inr hunit)

theorem shiftsUp_zero (F : Format) (e : ℕ) : F.ShiftsUp e 0 0 0 := by
  induction e with
  | zero => exact .done (Or.inl rfl)
  | succ e ih => exact .shift unit_pos ih

end Format

namespace Pattern

variable {F : Format} {x : Pattern F} {e m : ℕ}

theorem isFinite_of_hasFiniteFields (hx : x.HasFiniteFields) : x.isFinite = true := by
  rw [isFinite, classify, magnitudeClass, if_neg (show ¬x.exponent = F.infinityExponent from hx)]
  split_ifs <;> cases x.sign <;> rfl

theorem value?_eq_iff_of_hasFiniteFields (hx : x.HasFiniteFields) {q : ℚ} :
    x.value? = .ok (some q) ↔ x.ExponentsFit ∧ x.value = q := by
  rw [value?_eq_ok_some_iff, and_iff_right (isFinite_of_hasFiniteFields hx)]

theorem normalize_of_exponent_eq_zero (he : x.exponent = 0) : x.normalize = x := by
  simp [normalize, he]

theorem normalize_of_not_hasFiniteFields (hx : ¬x.HasFiniteFields) : x.normalize = x := by
  simp [normalize, not_not.mp hx]

theorem normalize_of_isNormalized (hx : x.IsNormalized) : x.normalize = x := by
  rcases hx with he | hm | ⟨hexp, -⟩
  · exact normalize_of_exponent_eq_zero he
  · have hne : x.mantissa ≠ 0 := (F.unit_pos.trans_le hm).ne'
    have hlog : F.fractionWidth - x.mantissa.log2 = 0 :=
      Nat.sub_eq_zero_of_le ((Nat.le_log2 hne).mpr hm)
    rw [normalize]
    split_ifs
    · rfl
    · simpa [hlog] using x.withFields_self
  · exact normalize_of_not_hasFiniteFields (not_not.mpr hexp)

section

variable (hi : F.implicitLeadingBit = false) (hw : F.mantissaWidth ≠ 0)

include hi hw

theorem mantissa_lt_of_written (x : Pattern F) : x.mantissa < 2 * F.unit := by
  rw [← Format.two_pow_mantissaWidth_of_written hi hw]
  exact x.mantissa_lt

theorem normalize_eq_withFields (hx : x.HasFiniteFields)
    (h : F.ShiftsUp x.exponent x.mantissa e m) : x.normalize = x.withFields e m := by
  by_cases he : x.exponent = 0
  · rw [normalize_of_exponent_eq_zero he]
    have hdone : F.ShiftsUp x.exponent x.mantissa x.exponent x.mantissa := .done (Or.inl he)
    obtain ⟨rfl, rfl⟩ := h.unique hdone
    exact x.withFields_self.symm
  rw [normalize, if_neg (by simp [hi, he, show x.exponent ≠ F.infinityExponent from hx])]
  by_cases hm : x.mantissa = 0
  · rw [if_pos hm]
    rw [hm] at h
    obtain ⟨rfl, rfl⟩ := h.unique (F.shiftsUp_zero _)
    rfl
  · rw [if_neg hm]
    obtain ⟨rfl, rfl⟩ := h.unique (Format.shiftsUp_min hm (mantissa_lt_of_written hi hw x) _)
    rfl

/-- The shifts come to an end, and normalization arrives at the fields at which they do. -/
theorem shiftsUp_normalize (hx : x.HasFiniteFields) :
    F.ShiftsUp x.exponent x.mantissa x.normalize.exponent x.normalize.mantissa := by
  obtain ⟨e, m, h⟩ : ∃ e m, F.ShiftsUp x.exponent x.mantissa e m := by
    by_cases hm : x.mantissa = 0
    · rw [hm]
      exact ⟨0, 0, F.shiftsUp_zero _⟩
    · exact ⟨_, _, Format.shiftsUp_min hm (mantissa_lt_of_written hi hw x) _⟩
  have hlt := h.mantissa_lt (mantissa_lt_of_written hi hw x)
  rw [← Format.two_pow_mantissaWidth_of_written hi hw] at hlt
  rwa [normalize_eq_withFields hi hw hx h,
    exponent_withFields _ (h.exponent_le.trans_lt x.exponent_lt), mantissa_withFields _ _ hlt]

theorem shiftsUp_iff (hx : x.HasFiniteFields) :
    F.ShiftsUp x.exponent x.mantissa e m ↔ x.normalize.exponent = e ∧ x.normalize.mantissa = m := by
  have h := shiftsUp_normalize hi hw hx
  constructor
  · exact fun h' => h.unique h'
  · rintro ⟨rfl, rfl⟩
    exact h

theorem hasFiniteFields_normalize (hx : x.HasFiniteFields) : x.normalize.HasFiniteFields := by
  have hle := (shiftsUp_normalize hi hw hx).exponent_le
  have hlt := Format.lt_two_pow_iff.mp x.exponent_lt
  rw [HasFiniteFields] at hx ⊢
  omega

theorem exponentsFit_normalize (hx : x.HasFiniteFields) (hfit : x.ExponentsFit) :
    x.normalize.ExponentsFit :=
  ⟨(shiftsUp_normalize hi hw hx).exponent_le.trans_lt hfit.1, hfit.2⟩

omit hi hw in
theorem sign_normalize (x : Pattern F) : x.normalize.sign = x.sign := by
  rw [normalize]
  split_ifs <;> simp

/-- The second pattern is the first one, which is finite, with its mantissa shifted up as far as it
can be. -/
structure NormalizesTo (x y : Pattern F) : Prop where
  sign : y.sign = x.sign
  finite : y.HasFiniteFields
  shifts : ∀ e m, F.ShiftsUp x.exponent x.mantissa e m ↔ y.exponent = e ∧ y.mantissa = m
  stops : y.exponent = 0 ∨ F.unit ≤ y.mantissa
  stable : y.normalize = y

theorem normalizesTo_normalize (hx : x.HasFiniteFields) : NormalizesTo x x.normalize where
  sign := x.sign_normalize
  finite := hasFiniteFields_normalize hi hw hx
  shifts _ _ := shiftsUp_iff hi hw hx
  stops := (shiftsUp_normalize hi hw hx).stops
  stable := normalize_of_isNormalized <|
    (shiftsUp_normalize hi hw hx).stops.imp_right Or.inl

end

/-- A number below the normal ones that is not written with the exponent field zero. -/
def IsUnnormalizedSubnormal (x : Pattern F) : Prop :=
  x.exponent ≠ 0 ∧ x.mantissa ≠ 0 ∧ x.mantissa * 2 ^ (x.exponent - 1) < F.unit

instance : Decidable x.IsUnnormalizedSubnormal := inferInstanceAs (Decidable (_ ∧ _ ∧ _))

section

variable (hi : F.implicitLeadingBit = false)

include hi

theorem value_of_written (x : Pattern F) :
    x.value = F.ofHalves x.sign (x.mantissa * 2 ^ x.effectiveExponent) := by
  rw [value_eq, significand, if_neg (by simp [hi]), Format.ofHalves_mul_two_pow]

theorem fieldValue_of_written (x : Pattern F) :
    x.fieldValue = F.ofHalves x.sign (x.mantissa * 2 ^ max x.exponent 1) := by
  rw [fieldValue, fieldSignificand_eq_mantissa hi, Format.ofHalves_mul_two_pow]
  push_cast
  rfl

variable (hw : F.mantissaWidth ≠ 0)

include hw

theorem normalize_exponent_eq_zero_iff (hx : x.HasFiniteFields) :
    x.normalize.exponent = 0 ↔
      x.exponent = 0 ∨ x.mantissa * 2 ^ (x.exponent - 1) < F.unit :=
  (shiftsUp_normalize hi hw hx).exponent_eq_zero_iff (mantissa_lt_of_written hi hw x)

/-- A pattern counts as zero or subnormal exactly if normalization uses the exponent field up. -/
theorem isSubnormalOrZero_iff (hx : x.HasFiniteFields) :
    x.classify.isSubnormalOrZero = true ↔ x.normalize.exponent = 0 := by
  rw [classify, NumberClass.isSubnormalOrZero_withSign, magnitudeClass]
  by_cases he : x.exponent = 0
  · rw [if_pos he, normalize_of_exponent_eq_zero he]
    split_ifs <;> exact iff_of_true rfl he
  rw [if_neg he, if_neg (show ¬x.exponent = F.infinityExponent from hx), if_neg (by simp [hi])]
  by_cases hm : x.mantissa = 0
  · rw [if_pos hm, normalize_exponent_eq_zero_iff hi hw hx, hm, Nat.zero_mul]
    exact iff_of_true rfl (Or.inr F.unit_pos)
  · have h := Format.shiftsUp_min hm (mantissa_lt_of_written hi hw x) x.exponent
    have hexp := ((shiftsUp_iff hi hw hx).mp h).1
    have hplaces : leadingZeros F x.mantissa = F.fractionWidth - x.mantissa.log2 := by
      simp [leadingZeros, Format.msbShift, Format.fractionWidth, hi]
    rw [if_neg hm, hexp, hplaces]
    split_ifs
    · exact iff_of_false (by decide) (by omega)
    · exact iff_of_true rfl (by omega)

theorem effectiveExponent_of_written (hx : x.HasFiniteFields) :
    x.effectiveExponent = if x.normalize.exponent = 0 then 1 else x.exponent := by
  rw [effectiveExponent]
  exact if_congr (isSubnormalOrZero_iff hi hw hx) rfl rfl

theorem value_eq_fieldValue_of_written (hx : x.HasFiniteFields)
    (hn : ¬x.IsUnnormalizedSubnormal) : x.value = x.fieldValue := by
  rw [value_of_written hi, fieldValue_of_written hi]
  by_cases hm : x.mantissa = 0
  · rw [hm, Nat.zero_mul, Nat.zero_mul]
  have hexp : x.effectiveExponent = max x.exponent 1 := by
    have hzero := normalize_exponent_eq_zero_iff hi hw hx
    rw [effectiveExponent_of_written hi hw hx]
    by_cases he : x.exponent = 0
    · rw [if_pos (hzero.mpr (Or.inl he)), he]
      rfl
    · rw [if_neg fun hy => hn ⟨he, hm, (hzero.mp hy).resolve_left he⟩,
        max_eq_left (Nat.one_le_iff_ne_zero.mpr he)]
  rw [hexp]

theorem fieldValue_eq_of_isUnnormalizedSubnormal (hx : x.HasFiniteFields)
    (hn : x.IsUnnormalizedSubnormal) : x.fieldValue = 2 ^ (x.exponent - 1) * x.value := by
  obtain ⟨he, -, hlt⟩ := hn
  have hexp : x.effectiveExponent = 1 := by
    rw [effectiveExponent_of_written hi hw hx,
      if_pos ((normalize_exponent_eq_zero_iff hi hw hx).mpr (Or.inr hlt))]
  have hone := Nat.one_le_iff_ne_zero.mpr he
  have hsplit : x.mantissa * 2 ^ x.exponent = 2 ^ (x.exponent - 1) * (x.mantissa * 2 ^ 1) := by
    rw [Nat.mul_left_comm, ← Nat.pow_add, Nat.sub_add_cancel hone]
  rw [fieldValue_of_written hi, value_of_written hi, hexp, max_eq_left hone, hsplit,
    Format.ofHalves_mul, Nat.cast_pow, Nat.cast_ofNat]

theorem not_isUnnormalizedSubnormal_normalize (hx : x.HasFiniteFields) :
    ¬x.normalize.IsUnnormalizedSubnormal := by
  rintro ⟨he, -, hlt⟩
  have hlead := (shiftsUp_normalize hi hw hx).stops.resolve_left he
  exact absurd hlt (not_lt.mpr (hlead.trans (Nat.le_mul_of_pos_right _ (Nat.two_pow_pos _))))

/-- The normalized pattern has the number that the fields stood for, or twice that number. -/
theorem value_normalize (hx : x.HasFiniteFields) :
    x.normalize.value = if x.IsUnnormalizedSubnormal then 2 * x.fieldValue else x.fieldValue := by
  have hscaled := (shiftsUp_normalize hi hw hx).scaled_max (mantissa_lt_of_written hi hw x)
  rw [value_eq_fieldValue_of_written hi hw (hasFiniteFields_normalize hi hw hx)
    (not_isUnnormalizedSubnormal_normalize hi hw hx), fieldValue_of_written hi,
    fieldValue_of_written hi, sign_normalize, hscaled, Format.ofHalves_mul]
  by_cases hm : x.mantissa = 0
  · simp [hm, Format.ofHalves]
  · simp only [IsUnnormalizedSubnormal, ne_eq, hm, not_false_eq_true, true_and]
    split_ifs <;> simp

end

end Pattern
end HartFloat
