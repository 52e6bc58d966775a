import HartFloat.Proofs.Rounding.Integral
import HartFloat.Proofs.Rounding.Values

/-!
# Rounding to a multiple of the spacing

The finite values near a number are multiples of one spacing, that of the number's binade or of the
least normal one. A finite value that is not such a multiple has one between itself and the number,
so that rounding to a multiple is rounding to a finite value as far as these reach.
-/
namespace HartFloat.Format

variable (F : Format)

noncomputable def roundingExponent (v : ℝ) : ℤ := max (Int.log 2 |v|) F.minExponent

/-- A number rounded to a multiple of the spacing. -/
noncomputable def roundToSpacing (mode : RoundingMode) (e : ℤ) (v : ℝ) : ℝ :=
  mode.roundReal (v / F.spacing e) * F.spacing e

/-- A number rounded to the format's precision as if the exponent had no bounds. -/
noncomputable def roundUnbounded (mode : RoundingMode) (v : ℝ) : ℝ :=
  F.roundToSpacing mode (Int.log 2 |v|) v

variable {F} {mode : RoundingMode} {e : ℤ} {v : ℝ}

theorem abs_div_spacing (v : ℝ) (e : ℤ) : |v / F.spacing e| = |v| / F.spacing e := by
  rw [abs_div, abs_of_pos spacing_pos]

theorem abs_roundToSpacing (mode : RoundingMode) (e : ℤ) (v : ℝ) :
    |F.roundToSpacing mode e v| = |mode.roundReal (v / F.spacing e)| * F.spacing e := by
  rw [roundToSpacing, abs_mul, abs_of_pos spacing_pos, Int.cast_abs]

theorem abs_roundToSpacing_le (mode : RoundingMode) {n : ℕ} (h : |v| ≤ n * F.spacing e) :
    |F.roundToSpacing mode e v| ≤ n * F.spacing e := by
  have hint : |mode.roundReal (v / F.spacing e)| ≤ n :=
    mode.abs_roundReal_le (by rwa [abs_div_spacing, div_le_iff₀ spacing_pos])
  rw [abs_roundToSpacing]
  exact mul_le_mul_of_nonneg_right (by exact_mod_cast hint) spacing_pos.le

theorem le_abs_roundToSpacing (mode : RoundingMode) {n : ℕ} (h : n * F.spacing e ≤ |v|) :
    n * F.spacing e ≤ |F.roundToSpacing mode e v| := by
  have hint : n ≤ |mode.roundReal (v / F.spacing e)| :=
    mode.le_abs_roundReal (by rwa [abs_div_spacing, le_div_iff₀ spacing_pos])
  rw [abs_roundToSpacing]
  exact mul_le_mul_of_nonneg_right (by exact_mod_cast hint) spacing_pos.le

theorem roundToSpacing_zero (mode : RoundingMode) (e : ℤ) : F.roundToSpacing mode e 0 = 0 := by
  have hbound : |F.roundToSpacing mode e 0| ≤ (0 : ℕ) * F.spacing e :=
    abs_roundToSpacing_le mode (by simp)
  rw [Nat.cast_zero, zero_mul] at hbound
  exact abs_nonpos_iff.mp hbound

theorem exists_multiple {k : ℤ} (h : e ≤ k) (n : ℤ) :
    ∃ j : ℤ, n * F.spacing k = j * F.spacing e := by
  obtain ⟨d, rfl⟩ := Int.le.dest h
  refine ⟨n * 2 ^ d, ?_⟩
  rw [spacing, spacing, show e + d - F.fractionWidth = e - F.fractionWidth + d by ring,
    zpow_add₀ two_ne_zero, zpow_natCast]
  push_cast
  ring

/-- Between a finite value and a number lies a multiple of the number's spacing. -/
theorem exists_multiple_mem_uIcc (h : F.Regular) {r : ℝ} (hr : r ∈ F.finiteValues) (v : ℝ) :
    ∃ j : ℤ, j * F.spacing (F.roundingExponent v) ∈ Set.uIcc r v := by
  obtain ⟨s, n, k, hn, hk, -, rfl⟩ := exists_of_mem_finiteValues h hr
  rcases eq_or_ne v 0 with rfl | hv
  · exact ⟨0, by simp⟩
  by_cases hek : F.roundingExponent v ≤ k
  · obtain ⟨j, hj⟩ := exists_multiple (F := F) hek (s.factor * n)
    push_cast at hj
    exact ⟨j, hj ▸ Set.left_mem_uIcc⟩
  -- The value lies in a lower binade than the number, whose binade's bound is between them.
  have hlog : F.roundingExponent v = Int.log 2 |v| := by
    unfold roundingExponent at hek ⊢
    omega
  have hbinade : (2 : ℝ) ^ F.roundingExponent v ≤ |v| := by
    rw [hlog]
    exact Int.zpow_log_le_self one_lt_two (abs_pos.mpr hv)
  have hbelow : |s.factor * n * F.spacing k| ≤ 2 ^ F.roundingExponent v := by
    rw [abs_mul, abs_mul, Sign.abs_factor, one_mul, Nat.abs_cast, abs_of_pos spacing_pos]
    calc (n : ℝ) * F.spacing k
        ≤ (2 * F.unit : ℕ) * F.spacing k :=
          mul_le_mul_of_nonneg_right (by exact_mod_cast hn.le) spacing_pos.le
      _ = 2 ^ (k + 1) := F.two_unit_mul_spacing k
      _ ≤ 2 ^ F.roundingExponent v := zpow_le_zpow_right₀ one_le_two (by omega)
  have hbound := F.unit_mul_spacing (F.roundingExponent v)
  rcases le_total 0 v with hpos | hneg
  · rw [abs_of_nonneg hpos] at hbinade
    refine ⟨F.unit, Set.mem_uIcc.mpr (Or.inl ?_)⟩
    rw [Int.cast_natCast, hbound]
    exact ⟨(abs_le.mp hbelow).2, hbinade⟩
  · rw [abs_of_nonpos hneg] at hbinade
    refine ⟨-F.unit, Set.mem_uIcc.mpr (Or.inr ?_)⟩
    rw [Int.cast_neg, Int.cast_natCast, neg_mul, hbound]
    exact ⟨by linarith, (abs_le.mp hbelow).1⟩

theorem roundToSpacing_towardNegative_le (e : ℤ) (v : ℝ) :
    F.roundToSpacing .towardNegative e v ≤ v :=
  (le_div_iff₀ spacing_pos).mp (Int.floor_le _)

theorem le_roundToSpacing_towardPositive (e : ℤ) (v : ℝ) :
    v ≤ F.roundToSpacing .towardPositive e v :=
  (div_le_iff₀ spacing_pos).mp (Int.le_ceil _)

theorem le_roundToSpacing_towardNegative (h : F.Regular) {r : ℝ} (hr : r ∈ F.finiteValues)
    (hle : r ≤ v) : r ≤ F.roundToSpacing .towardNegative (F.roundingExponent v) v := by
  obtain ⟨j, hj⟩ := exists_multiple_mem_uIcc h hr v
  rw [Set.uIcc_of_le hle] at hj
  have hfloor : j ≤ ⌊v / F.spacing (F.roundingExponent v)⌋ :=
    Int.le_floor.mpr ((le_div_iff₀ spacing_pos).mpr hj.2)
  refine hj.1.trans (mul_le_mul_of_nonneg_right ?_ spacing_pos.le)
  exact_mod_cast hfloor

theorem roundToSpacing_towardPositive_le (h : F.Regular) {r : ℝ} (hr : r ∈ F.finiteValues)
    (hle : v ≤ r) : F.roundToSpacing .towardPositive (F.roundingExponent v) v ≤ r := by
  obtain ⟨j, hj⟩ := exists_multiple_mem_uIcc h hr v
  rw [Set.uIcc_of_ge hle] at hj
  have hceil : ⌈v / F.spacing (F.roundingExponent v)⌉ ≤ j :=
    Int.ceil_le.mpr ((div_le_iff₀ spacing_pos).mpr hj.1)
  refine le_trans (mul_le_mul_of_nonneg_right ?_ spacing_pos.le) hj.2
  exact_mod_cast hceil

theorem roundingExponent_abs (v : ℝ) : F.roundingExponent |v| = F.roundingExponent v := by
  rw [roundingExponent, abs_abs, roundingExponent]

theorem roundingExponent_neg (v : ℝ) : F.roundingExponent (-v) = F.roundingExponent v := by
  rw [roundingExponent, abs_neg, roundingExponent]

theorem abs_roundToSpacing_towardZero (e : ℤ) (v : ℝ) :
    |F.roundToSpacing .towardZero e v| = F.roundToSpacing .towardNegative e |v| := by
  rw [abs_roundToSpacing, RoundingMode.abs_roundReal_towardZero, abs_div_spacing]
  rfl

theorem roundToSpacing_towardPositive_neg (e : ℤ) (v : ℝ) :
    F.roundToSpacing .towardPositive e (-v) = -F.roundToSpacing .towardNegative e v := by
  rw [roundToSpacing, neg_div, RoundingMode.roundReal_neg, Int.cast_neg, neg_mul]
  rfl

theorem abs_le_abs_roundToSpacing_towardZero (h : F.Regular) {r : ℝ} (hr : r ∈ F.finiteValues)
    (hle : |r| ≤ |v|) : |r| ≤ |F.roundToSpacing .towardZero (F.roundingExponent v) v| := by
  obtain ⟨hlo, hhi⟩ := abs_le.mp hle
  have hdown := le_roundToSpacing_towardNegative h hr hhi
  have hup := roundToSpacing_towardPositive_le h hr hlo
  rw [roundingExponent_neg, roundToSpacing_towardPositive_neg] at hup
  rw [roundingExponent_abs] at hdown hup
  rw [abs_roundToSpacing_towardZero]
  exact abs_le.mpr ⟨hup, hdown⟩

theorem abs_mul_spacing_sub (j : ℤ) (e : ℤ) (v : ℝ) :
    |j * F.spacing e - v| = |j - v / F.spacing e| * F.spacing e := by
  rw [← abs_of_pos (spacing_pos (F := F) (e := e)), ← abs_mul, abs_of_pos spacing_pos, sub_mul,
    div_mul_cancel₀ v spacing_pos.ne']

/-- No finite value is nearer than the nearest multiple. -/
theorem abs_roundToSpacing_sub_le (h : F.Regular) (hmode : mode.isNearest = true) {r : ℝ}
    (hr : r ∈ F.finiteValues) :
    |F.roundToSpacing mode (F.roundingExponent v) v - v| ≤ |r - v| := by
  obtain ⟨j, hj⟩ := exists_multiple_mem_uIcc h hr v
  calc |F.roundToSpacing mode (F.roundingExponent v) v - v|
      ≤ |j * F.spacing (F.roundingExponent v) - v| := by
        rw [roundToSpacing, abs_mul_spacing_sub, abs_mul_spacing_sub]
        exact mul_le_mul_of_nonneg_right (mode.abs_roundReal_sub_le_abs_sub hmode _ j)
          spacing_pos.le
    _ ≤ |r - v| := by
        rw [abs_sub_comm _ v, abs_sub_comm r v]
        exact Set.abs_sub_right_of_mem_uIcc hj

/-- A finite value as near as the nearest multiple is a multiple itself. -/
theorem exists_tie (h : F.Regular) (hmode : mode.isNearest = true) {r : ℝ}
    (hr : r ∈ F.finiteValues)
    (htie : |r - v| = |F.roundToSpacing mode (F.roundingExponent v) v - v|) :
    ∃ j : ℤ, r = j * F.spacing (F.roundingExponent v) ∧
      |j - v / F.spacing (F.roundingExponent v)| =
        |mode.roundReal (v / F.spacing (F.roundingExponent v)) -
          v / F.spacing (F.roundingExponent v)| := by
  obtain ⟨j, hj⟩ := exists_multiple_mem_uIcc h hr v
  have hnear := mode.abs_roundReal_sub_le_abs_sub hmode (v / F.spacing (F.roundingExponent v)) j
  have hdist : |r - v| ≤ |j * F.spacing (F.roundingExponent v) - v| := by
    rw [htie, roundToSpacing, abs_mul_spacing_sub, abs_mul_spacing_sub]
    exact mul_le_mul_of_nonneg_right hnear spacing_pos.le
  have heq : r = j * F.spacing (F.roundingExponent v) := by
    rcases Set.mem_uIcc.mp hj with ⟨h₁, h₂⟩ | ⟨h₁, h₂⟩
    · rw [abs_of_nonpos (by linarith), abs_of_nonpos (by linarith)] at hdist
      linarith
    · rw [abs_of_nonneg (by linarith), abs_of_nonneg (by linarith)] at hdist
      linarith
  refine ⟨j, heq, ?_⟩
  rw [heq, roundToSpacing, abs_mul_spacing_sub, abs_mul_spacing_sub] at htie
  exact mul_right_cancel₀ spacing_pos.ne' htie

end HartFloat.Format
