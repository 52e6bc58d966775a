import HartFloat.Proofs.Arithmetic.Exceptions

/-!
# The accuracy of rounding to nearest

Rounding to nearest leaves finite values as they are and never moves a number past one of them. The
error is at most half the spacing, which from the least normal number on is a fixed fraction of the
number. What can be said of a rounded number without computing it therefore depends on the finite
values around it, such as the powers of two and the doubles and halves of other finite values.
-/
namespace HartFloat.Format

variable {F : Format} {v r : ℝ}

theorem two_zpow_mem_finiteValues (h : F.Regular) {e : ℤ} (hlo : F.minExponent ≤ e)
    (hhi : e ≤ F.maxExponent) : (2 : ℝ) ^ e ∈ F.finiteValues := by
  have hu := F.unit_pos
  have hmem := significand_mem_finiteValues h .positive (show F.unit < 2 * F.unit by omega) hlo hhi
  rwa [Sign.factor, Int.cast_one, one_mul, unit_mul_spacing] at hmem

theorem two_mul_mem_finiteValues (h : F.Regular) (hr : r ∈ F.finiteValues)
    (hle : |2 * r| ≤ F.largest) : 2 * r ∈ F.finiteValues := by
  obtain ⟨s, n, k, hn, hlo, hhi, rfl⟩ := exists_of_mem_finiteValues h hr
  rcases hhi.lt_or_eq with hlt | rfl
  · have hmem := significand_mem_finiteValues h s hn (k := k + 1) (by omega) (by omega)
    rwa [spacing_add_one, mul_left_comm] at hmem
  · have htwo : 2 * (s.factor * n * F.spacing F.maxExponent) =
        s.factor * (2 * n : ℕ) * F.spacing F.maxExponent := by
      push_cast
      ring
    have hn' : 2 * n ≤ 2 * F.unit - 1 := by
      rw [htwo, abs_mul, abs_mul, Sign.abs_factor, one_mul, Nat.abs_cast, abs_of_pos spacing_pos,
        largest_eq, mul_le_mul_iff_left₀ spacing_pos] at hle
      exact_mod_cast hle
    rw [htwo]
    exact significand_mem_finiteValues h s (by omega) hlo le_rfl

theorem half_mem_finiteValues (h : F.Regular) (hr : r ∈ F.finiteValues)
    (hle : 2 ^ (F.minExponent + 1) ≤ |r|) : r / 2 ∈ F.finiteValues := by
  obtain ⟨s, n, k, hn, hlo, hhi, rfl⟩ := exists_of_mem_finiteValues h hr
  have hk : F.minExponent < k := by
    refine hlo.lt_of_ne fun heq => ?_
    rw [← heq, abs_mul, abs_mul, Sign.abs_factor, one_mul, Nat.abs_cast, abs_of_pos spacing_pos,
      ← two_unit_mul_spacing, mul_le_mul_iff_left₀ spacing_pos] at hle
    exact absurd (by exact_mod_cast hle) (not_le.mpr hn)
  have hmem := significand_mem_finiteValues h s hn (k := k - 1) (by omega) (by omega)
  have hspacing := spacing_add_one (F := F) (k - 1)
  rw [sub_add_cancel] at hspacing
  rwa [hspacing, show s.factor * (n : ℝ) * (2 * F.spacing (k - 1)) / 2 =
    s.factor * n * F.spacing (k - 1) by ring]

theorem two_pow_mul_mem_finiteValues (h : F.Regular) (hr : r ∈ F.finiteValues) (k : ℕ)
    (hle : |2 ^ k * r| ≤ F.largest) : 2 ^ k * r ∈ F.finiteValues := by
  induction k with
  | zero => rwa [pow_zero, one_mul]
  | succ k ih =>
    rw [pow_succ', mul_assoc] at hle ⊢
    refine two_mul_mem_finiteValues h (ih ?_) hle
    rw [abs_mul, abs_two] at hle
    linarith [abs_nonneg (2 ^ k * r)]

/-- The multiple of its spacing to which a number is rounded, the even one of two. -/
noncomputable def toNearest (F : Format) (v : ℝ) : ℝ :=
  F.roundToSpacing .tiesToEven (F.roundingExponent v) v

section

variable (h : F.Regular)

include h

theorem toNearest_le (hr : r ∈ F.finiteValues) (hle : v ≤ r) : F.toNearest v ≤ r := by
  have hdist : |F.toNearest v - v| ≤ |r - v| := abs_roundToSpacing_sub_le h rfl hr
  rw [abs_of_nonneg (sub_nonneg.mpr hle)] at hdist
  exact (sub_le_sub_iff_right v).mp ((le_abs_self _).trans hdist)

theorem le_toNearest (hr : r ∈ F.finiteValues) (hle : r ≤ v) : r ≤ F.toNearest v := by
  have hdist : |F.toNearest v - v| ≤ |r - v| := abs_roundToSpacing_sub_le h rfl hr
  rw [abs_of_nonpos (sub_nonpos.mpr hle), abs_sub_comm, neg_sub] at hdist
  exact (sub_le_sub_iff_left v).mp ((le_abs_self _).trans hdist)

theorem toNearest_eq (hv : v ∈ F.finiteValues) : F.toNearest v = v :=
  (toNearest_le h hv le_rfl).antisymm (le_toNearest h hv le_rfl)

end

theorem abs_toNearest_sub_le (v : ℝ) :
    |F.toNearest v - v| ≤ F.spacing (F.roundingExponent v) / 2 := by
  have hround := RoundingMode.abs_roundReal_sub_le
    (rfl : RoundingMode.tiesToEven.isNearest = true) (v / F.spacing (F.roundingExponent v))
  rw [toNearest, roundToSpacing, abs_mul_spacing_sub]
  calc _ ≤ 1 / 2 * F.spacing (F.roundingExponent v) :=
        mul_le_mul_of_nonneg_right hround spacing_pos.le
    _ = F.spacing (F.roundingExponent v) / 2 := by ring

/-- From the least normal number on the error is relative to the number. -/
theorem abs_toNearest_sub_le_mul (hv : 2 ^ F.minExponent ≤ |v|) :
    |F.toNearest v - v| ≤ 2 ^ (-(F.fractionWidth + 1 : ℤ)) * |v| := by
  have hne : v ≠ 0 := by
    rintro rfl
    rw [abs_zero] at hv
    exact absurd hv (not_le.mpr (by positivity))
  have hexp : F.roundingExponent v = Int.log 2 |v| := by
    refine max_eq_left ((Int.zpow_le_iff_le_log one_lt_two (abs_pos.mpr hne)).mp ?_)
    exact_mod_cast hv
  calc |F.toNearest v - v| ≤ F.spacing (Int.log 2 |v|) / 2 := hexp ▸ abs_toNearest_sub_le v
    _ = 2 ^ (-(F.fractionWidth + 1 : ℤ)) * 2 ^ Int.log 2 |v| := by
      rw [spacing, ← zpow_add₀ two_ne_zero, div_eq_mul_inv, ← zpow_neg_one, ← zpow_add₀ two_ne_zero]
      congr 1
      ring
    _ ≤ 2 ^ (-(F.fractionWidth + 1 : ℤ)) * |v| :=
      mul_le_mul_of_nonneg_left (two_zpow_log_le hne) (by positivity)

theorem log_abs_eq {e : ℤ} (hlo : 2 ^ e ≤ |v|) (hhi : |v| < 2 ^ (e + 1)) : Int.log 2 |v| = e := by
  have hpos : 0 < |v| := lt_of_lt_of_le (by positivity) hlo
  have hge := (Int.zpow_le_iff_le_log one_lt_two hpos).mp (by exact_mod_cast hlo)
  have hlt := (Int.lt_zpow_iff_log_lt one_lt_two hpos).mp (by exact_mod_cast hhi)
  omega

/-- What is added to a power of two is lost if it is less than half the spacing there. -/
theorem toNearest_two_zpow_add {e : ℤ} (he : F.minExponent ≤ e) (hr : 0 ≤ r)
    (hlt : r < F.spacing e / 2) : F.toNearest (2 ^ e + r) = 2 ^ e := by
  have hpow : (F.unit : ℤ) * F.spacing e = 2 ^ e := unit_mul_spacing e
  have hspacing : F.spacing e ≤ 2 ^ e := by
    rw [← hpow]
    exact le_mul_of_one_le_left spacing_pos.le (by exact_mod_cast F.unit_pos)
  have habs : |2 ^ e + r| = 2 ^ e + r := abs_of_nonneg (by positivity)
  have hexp : F.roundingExponent (2 ^ e + r) = e := by
    rw [roundingExponent, log_abs_eq (e := e), max_eq_left he]
    · linarith
    · rw [habs, zpow_add_one₀ two_ne_zero]
      linarith [spacing_pos (F := F) (e := e)]
  have hunits : RoundingMode.tiesToEven.roundReal ((2 ^ e + r) / F.spacing e) = F.unit := by
    refine RoundingMode.roundReal_eq_of_abs_sub_lt rfl ?_
    rw [add_div, ← hpow, mul_div_cancel_right₀ _ spacing_pos.ne', add_sub_cancel_left,
      abs_of_nonneg (div_nonneg hr spacing_pos.le), div_lt_iff₀ spacing_pos]
    linarith
  rw [toNearest, hexp, roundToSpacing, hunits, hpow]

theorem multiple_mem_finiteValues_of_le (h : F.Regular) {j e : ℤ} (hj : |j| ≤ (2 * F.unit : ℕ))
    (hlo : F.minExponent ≤ e) (hhi : e ≤ F.maxExponent)
    (hlast : e = F.maxExponent → |j| < (2 * F.unit : ℕ)) : j * F.spacing e ∈ F.finiteValues := by
  have hu := F.unit_pos
  rcases hj.lt_or_eq with hlt | heq
  · exact multiple_mem_finiteValues h hlt hlo hhi
  · have hhi' : e + 1 ≤ F.maxExponent := by
      refine hhi.lt_of_ne fun he => ?_
      exact absurd heq (hlast he).ne
    rw [← Exact.Surd.factor_ofInt_mul_natAbs j]
    rw [Int.abs_eq_natAbs] at heq
    have hnext : (j.natAbs : ℝ) * F.spacing e = F.unit * F.spacing (e + 1) := by
      rw [spacing_add_one, show j.natAbs = 2 * F.unit by exact_mod_cast heq]
      push_cast
      ring
    rw [mul_assoc, hnext, ← mul_assoc]
    exact significand_mem_finiteValues h _ (by omega) (by omega) hhi'

theorem toNearest_mem (h : F.Regular) (hlt : |v| < F.overflowThreshold) :
    F.toNearest v ∈ F.finiteValues := by
  have hrange : F.minExponent < F.maxExponent := by
    rw [h.maxExponent_eq]
    have := h.bias_pos
    unfold minExponent
    omega
  have hlog : Int.log 2 |v| ≤ F.maxExponent := by
    rcases eq_or_ne v 0 with rfl | hv
    · rw [abs_zero, Int.log_zero_right]
      exact h.maxExponent_nonneg
    · refine Int.lt_add_one_iff.mp ((Int.lt_zpow_iff_log_lt one_lt_two (abs_pos.mpr hv)).mp ?_)
      exact_mod_cast hlt.trans_le overflowThreshold_le
  refine multiple_mem_finiteValues_of_le h ?_ (le_max_right _ _) (max_le hlog hrange.le) ?_
  · refine RoundingMode.abs_roundReal_le _ ?_
    rw [abs_div_spacing, div_le_iff₀ spacing_pos, two_unit_mul_spacing]
    exact abs_le_two_zpow v
  · intro hlast
    have hlast' : Int.log 2 |v| = F.maxExponent := by
      unfold roundingExponent at hlast
      omega
    rw [hlast]
    by_contra hle
    have ho := (overflows_iff_of_log_eq (v := v) hlast').mpr (not_lt.mp hle)
    exact absurd ((overflows_iff_overflowThreshold_le rfl).mp ho) (not_le.mpr hlt)

section

variable {c : Context} {q : ℚ}

theorem not_overflows_of_pos (hmode : c.mode = .tiesToEven) (hlt : (q : ℝ) < F.overflowThreshold)
    (hpos : 0 < q) : ¬F.Overflows c.mode q := by
  have hnearest : c.mode.isNearest = true := by rw [hmode]; rfl
  rw [overflows_iff_overflowThreshold_le hnearest, abs_of_pos (by exact_mod_cast hpos), not_le]
  exact hlt

variable (h : F.Regular) (hmode : c.mode = .tiesToEven) (hlt : (q : ℝ) < F.overflowThreshold)

include h hmode hlt

theorem number?_roundingRat (hpos : 0 < q) :
    ∃ p : ℚ, (F.roundingRat c q).1.number? = some (.finite .positive p) ∧
      (p : ℝ) = F.toNearest q := by
  have hreal : (Exact.Surd.ofRat q).toReal = q := Exact.Surd.toReal_ofRat q
  have hpos' : (0 : ℝ) < q := by exact_mod_cast hpos
  have hzero := Exact.Surd.isZero_ofRat hpos.ne'
  have ho := not_overflows_of_pos hmode hlt hpos
  rw [← hreal] at ho hpos'
  obtain ⟨hfinite, hvalue⟩ := fieldValue_rounding_of_not_overflows (c := c) h hzero ho
  have hsign := (isRounding_rounding h c (Exact.Surd.ofRat q)).sign_of_pos hpos'
  refine ⟨(F.rounding c (Exact.Surd.ofRat q)).1.fieldValue, ?_,
    by rw [hvalue, hreal, hmode, toNearest]⟩
  rw [← hsign]
  exact if_pos hfinite

/-- A number from the least normal one on raises nothing but inexact, nor does a finite value. -/
theorem flags_roundingRat (hexceptions : c.exceptions = .ignoreExactUnderflow) (hpos : 0 < q)
    (hrange : 2 ^ F.minExponent ≤ (q : ℝ) ∨ (q : ℝ) ∈ F.finiteValues) :
    (F.roundingRat c q).2 = ∅ ∨ (F.roundingRat c q).2 = Flags.nx := by
  have hraises := raises_rounding h c (Exact.Surd.ofRat q)
  have hround := isRounding_rounding h c (Exact.Surd.ofRat q)
  rw [Exact.Surd.toReal_ofRat] at hraises hround
  have hunderflow : (F.roundingRat c q).2.underflow = false := by
    refine Bool.eq_false_iff.mpr fun hu => ?_
    obtain ⟨-, hsmall, hexact, -⟩ := hraises.underflow.mp hu
    rcases hrange with hlarge | hmem
    · rw [abs_of_pos (by exact_mod_cast hpos)] at hsmall
      exact absurd hlarge (not_le.mpr hsmall)
    · rw [hexceptions] at hexact
      rcases hexact with hne | hsignal
      · exact hne (hround.extended?_eq h hmem)
      · cases hsignal
  have hoverflow : (F.roundingRat c q).2.overflow = false :=
    Bool.eq_false_iff.mpr fun ho => not_overflows_of_pos hmode hlt hpos (hraises.overflow.mp ho)
  have hflags : (F.roundingRat c q).2 = Flags.when (F.roundingRat c q).2.inexact Flags.nx :=
    hraises.eq_when_inexact hoverflow hunderflow
  rw [hflags]
  cases (F.roundingRat c q).2.inexact with
  | false => exact Or.inl rfl
  | true => exact Or.inr rfl

end

end HartFloat.Format
