import HartFloat.Proofs.Rounding.Overflow
import HartFloat.Pattern.Round

/-!
# The computed rounding

The significand that the rounding of a magnitude arrives at is the number of units to which the
signed real number is rounded. From this the pattern of a rounded value follows in two cases: the
value overflows, and the direction chooses between the largest finite pattern and infinity, or the
pattern stands for the nearest multiple of the spacing.
-/
namespace HartFloat.Format

open Exact

variable {F : Format} {c : Context} {mode : RoundingMode} {v : Surd} {e : ℤ}

/-- The number of units in the last place of a binade to which the magnitude is rounded. -/
def units (F : Format) (mode : RoundingMode) (v : Surd) (e : ℤ) : ℕ :=
  (mode.roundToNat v.sign (v.magnitude.scale (F.fractionWidth - e))).1

theorem toReal_div_spacing (v : Surd) (e : ℤ) :
    v.toReal / F.spacing e =
      v.sign.factor * (v.magnitude.scale (F.fractionWidth - e)).toReal := by
  rw [Magnitude.toReal_scale, Surd.toReal, spacing, div_eq_mul_inv, ← zpow_neg, neg_sub, mul_assoc]

theorem abs_toReal_div_spacing (v : Surd) (e : ℤ) :
    |v.toReal / F.spacing e| = (v.magnitude.scale (F.fractionWidth - e)).toReal := by
  rw [toReal_div_spacing, abs_mul, Sign.abs_factor, one_mul,
    abs_of_nonneg (Magnitude.toReal_nonneg _)]

theorem roundReal_toReal_div_spacing (mode : RoundingMode) (v : Surd) (e : ℤ) :
    mode.roundReal (v.toReal / F.spacing e) = v.sign.factor * F.units mode v e := by
  rw [toReal_div_spacing, ← mode.applyTo_roundToNat, Sign.applyTo_eq, units]

theorem abs_roundReal_toReal_div_spacing (mode : RoundingMode) (v : Surd) (e : ℤ) :
    |mode.roundReal (v.toReal / F.spacing e)| = F.units mode v e := by
  have hone : |v.sign.factor| = 1 := v.sign.abs_factor
  rw [roundReal_toReal_div_spacing, abs_mul, hone, one_mul, Nat.abs_cast]

theorem roundToSpacing_toReal (mode : RoundingMode) (v : Surd) (e : ℤ) :
    F.roundToSpacing mode e v.toReal = v.sign.factor * F.units mode v e * F.spacing e := by
  rw [roundToSpacing, roundReal_toReal_div_spacing]
  push_cast
  rfl

theorem units_le (mode : RoundingMode) {n : ℕ} (h : |v.toReal| ≤ n * F.spacing e) :
    F.units mode v e ≤ n := by
  have hint : |mode.roundReal (v.toReal / F.spacing e)| ≤ n :=
    mode.abs_roundReal_le (by rwa [abs_div_spacing, div_le_iff₀ spacing_pos])
  rw [abs_roundReal_toReal_div_spacing] at hint
  exact_mod_cast hint

theorem le_units (mode : RoundingMode) {n : ℕ} (h : n * F.spacing e ≤ |v.toReal|) :
    n ≤ F.units mode v e := by
  have hint : n ≤ |mode.roundReal (v.toReal / F.spacing e)| :=
    mode.le_abs_roundReal (by rwa [abs_div_spacing, le_div_iff₀ spacing_pos])
  rw [abs_roundReal_toReal_div_spacing] at hint
  exact_mod_cast hint

theorem units_le_two_unit (mode : RoundingMode) (h : |v.toReal| ≤ 2 ^ (e + 1)) :
    F.units mode v e ≤ 2 * F.unit := units_le mode (by rwa [two_unit_mul_spacing])

theorem units_le_unit (mode : RoundingMode) (h : |v.toReal| ≤ 2 ^ e) :
    F.units mode v e ≤ F.unit := units_le mode (by rwa [unit_mul_spacing])

theorem unit_le_units (mode : RoundingMode) (h : 2 ^ e ≤ |v.toReal|) :
    F.unit ≤ F.units mode v e := le_units mode (by rwa [unit_mul_spacing])

theorem inexact_iff (mode : RoundingMode) (v : Surd) (e : ℤ) :
    (mode.roundToNat v.sign (v.magnitude.scale (F.fractionWidth - e))).2 = true ↔
      F.roundToSpacing mode e v.toReal ≠ v.toReal := by
  have hfactor : (v.sign.factor : ℝ) ≠ 0 := Int.cast_ne_zero.mpr v.sign.factor_ne_zero
  have hdiv : v.sign.factor * (F.units mode v e : ℝ) = v.toReal / F.spacing e ↔
      (F.units mode v e : ℝ) = (v.magnitude.scale (F.fractionWidth - e)).toReal := by
    rw [toReal_div_spacing, mul_right_inj' hfactor]
  rw [mode.roundToNat_inexact_iff, roundToSpacing_toReal, ne_eq, ne_eq,
    ← eq_div_iff spacing_pos.ne', hdiv, units]

theorem inexact_roundAt (mode : RoundingMode) (v : Surd) (e : ℤ) :
    (F.roundAt mode v.sign v.magnitude e).inexact = true ↔
      F.roundToSpacing mode e v.toReal ≠ v.toReal := by
  rw [← inexact_iff]
  unfold roundAt
  dsimp only
  split_ifs <;> rfl

theorem roundAt_of_lt (h : F.units mode v e < 2 * F.unit) :
    (F.roundAt mode v.sign v.magnitude e).exponent = e ∧
      (F.roundAt mode v.sign v.magnitude e).significand = F.units mode v e := by
  unfold units at h
  simp [roundAt, h, units]

theorem roundAt_of_eq (h : F.units mode v e = 2 * F.unit) :
    (F.roundAt mode v.sign v.magnitude e).exponent = e + 1 ∧
      (F.roundAt mode v.sign v.magnitude e).significand = F.unit := by
  unfold units at h
  simp [roundAt, h]

/-- The exponent moves on exactly when the rounded magnitude reaches the next binade. -/
theorem exponent_roundAt_lt_iff (mode : RoundingMode) (h : |v.toReal| ≤ 2 ^ (e + 1)) :
    (F.roundAt mode v.sign v.magnitude e).exponent < e + 1 ↔
      |F.roundToSpacing mode e v.toReal| < 2 ^ (e + 1) := by
  rw [← two_unit_mul_spacing, abs_roundToSpacing, abs_roundReal_toReal_div_spacing,
    Int.cast_natCast, mul_lt_mul_iff_left₀ spacing_pos, Nat.cast_lt]
  rcases (units_le_two_unit (F := F) mode h).lt_or_eq with hlt | heq
  · simp [(roundAt_of_lt hlt).1, hlt]
  · simp [(roundAt_of_eq heq).1, heq]

/-- The rounding of a nonzero value in its binade. -/
def rounded (F : Format) (mode : RoundingMode) (v : Surd) : Rounded :=
  F.roundAt mode v.sign v.magnitude (max v.magnitude.floorLog2 F.minExponent)

variable (hv : v.isZero = false)

include hv in
theorem floorLog2_eq : v.magnitude.floorLog2 = Int.log 2 |v.toReal| := by
  rw [v.abs_toReal, Magnitude.floorLog2_eq_log v.magnitude hv]

include hv in
theorem rounded_eq : F.rounded mode v =
    F.roundAt mode v.sign v.magnitude (F.roundingExponent v.toReal) := by
  rw [rounded, floorLog2_eq hv, roundingExponent]

theorem abs_le_two_zpow (r : ℝ) : |r| ≤ 2 ^ (F.roundingExponent r + 1) :=
  (lt_two_zpow_log r).le.trans
    (zpow_le_zpow_right₀ one_le_two (by unfold roundingExponent; omega))

include hv in
/-- Either the significand fits or it is that of the next power of two. -/
theorem rounded_cases (mode : RoundingMode) :
    (F.units mode v (F.roundingExponent v.toReal) < 2 * F.unit ∧
        (F.rounded mode v).exponent = F.roundingExponent v.toReal ∧
        (F.rounded mode v).significand = F.units mode v (F.roundingExponent v.toReal)) ∨
      F.units mode v (F.roundingExponent v.toReal) = 2 * F.unit ∧
        (F.rounded mode v).exponent = F.roundingExponent v.toReal + 1 ∧
        (F.rounded mode v).significand = F.unit := by
  rw [rounded_eq hv]
  rcases (units_le_two_unit mode (abs_le_two_zpow v.toReal)).lt_or_eq with hlt | heq
  · exact Or.inl ⟨hlt, roundAt_of_lt hlt⟩
  · exact Or.inr ⟨heq, roundAt_of_eq heq⟩

include hv in
theorem rounded_value (mode : RoundingMode) :
    v.sign.factor * (F.rounded mode v).significand * F.spacing (F.rounded mode v).exponent =
      F.roundToSpacing mode (F.roundingExponent v.toReal) v.toReal := by
  rw [roundToSpacing_toReal]
  rcases rounded_cases hv mode (F := F) with ⟨-, he, hn⟩ | ⟨heq, he, hn⟩
  · rw [he, hn]
  · rw [he, hn, heq, mul_assoc, mul_assoc, unit_mul_spacing, two_unit_mul_spacing]

include hv in
theorem significand_rounded_lt (mode : RoundingMode) :
    (F.rounded mode v).significand < 2 * F.unit := by
  have hu := F.unit_pos
  rcases rounded_cases hv mode (F := F) with ⟨hlt, -, hn⟩ | ⟨-, -, hn⟩ <;> omega

include hv in
theorem minExponent_le_exponent_rounded (mode : RoundingMode) :
    F.minExponent ≤ (F.rounded mode v).exponent := by
  have hmin : F.minExponent ≤ F.roundingExponent v.toReal := le_max_right _ _
  rcases rounded_cases hv mode (F := F) with ⟨-, he, -⟩ | ⟨-, he, -⟩ <;> omega

theorem roundingExponent_of_le {r : ℝ} (h : F.minExponent ≤ Int.log 2 |r|) :
    F.roundingExponent r = Int.log 2 |r| := max_eq_left h

theorem roundingExponent_of_lt {r : ℝ} (h : Int.log 2 |r| < F.minExponent) :
    F.roundingExponent r = F.minExponent := max_eq_right h.le

theorem toReal_ne_zero (hv : v.isZero = false) : v.toReal ≠ 0 := v.isZero_eq_false_iff.mp hv

include hv in
/-- A significand below the unit occurs in the least binade only. -/
theorem exponent_rounded_of_lt (h : (F.rounded mode v).significand < F.unit) :
    (F.rounded mode v).exponent = F.minExponent := by
  rcases rounded_cases hv mode (F := F) with ⟨-, he, hn⟩ | ⟨-, -, hn⟩
  · rcases lt_or_ge (Int.log 2 |v.toReal|) F.minExponent with hlog | hlog
    · rw [he, roundingExponent_of_lt hlog]
    · rw [roundingExponent_of_le hlog] at hn
      have hge := unit_le_units (F := F) mode (two_zpow_log_le (toReal_ne_zero hv))
      omega
  · omega

theorem units_le_unit_of_log_lt (mode : RoundingMode)
    (h : Int.log 2 |v.toReal| < F.minExponent) : F.units mode v F.minExponent ≤ F.unit :=
  units_le_unit mode <| (lt_two_zpow_log _).le.trans
    (zpow_le_zpow_right₀ one_le_two (by omega))

include hv in
theorem exponent_rounded_le (h : F.Regular) (ho : ¬F.Overflows mode v.toReal) :
    (F.rounded mode v).exponent ≤ F.maxExponent := by
  have hrange := h.minExponent_le_maxExponent
  have hu := F.unit_pos
  have hlog : Int.log 2 |v.toReal| ≤ F.maxExponent :=
    not_lt.mp fun hlt => ho (overflows_of_lt_log (toReal_ne_zero hv) hlt)
  rcases rounded_cases hv mode (F := F) with ⟨-, he, -⟩ | ⟨heq, he, -⟩
  · unfold roundingExponent at he
    omega
  · rcases lt_or_ge (Int.log 2 |v.toReal|) F.minExponent with hlt | hge
    · rw [roundingExponent_of_lt hlt] at heq
      have hle := units_le_unit_of_log_lt mode hlt
      omega
    · rw [roundingExponent_of_le hge] at heq he
      rcases hlog.lt_or_eq with hlt | hlast
      · omega
      · rw [hlast] at heq
        rw [overflows_iff_of_log_eq hlast, abs_roundReal_toReal_div_spacing, heq] at ho
        exact absurd le_rfl ho

include hv in
theorem exponentField_rounded (h : F.Regular) (ho : ¬F.Overflows mode v.toReal) :
    ∃ k : ℕ, ((F.rounded mode v).exponent + F.bias).toNat = k ∧
      (F.rounded mode v).exponent = k - F.bias ∧ 1 ≤ k ∧ k ≤ F.maxNormalExponent ∧
      ((F.rounded mode v).significand < F.unit → k = 1) := by
  have hbias := h.bias_pos
  have hmax := h.maxExponent_eq
  have hmaxField := h.maxNormalExponent_eq
  have hlo := minExponent_le_exponent_rounded hv mode (F := F)
  have hhi := exponent_rounded_le hv h ho
  have hsub (hlt : (F.rounded mode v).significand < F.unit) := exponent_rounded_of_lt hv hlt
  unfold minExponent at hlo hsub
  refine ⟨_, rfl, by omega, by omega, by omega, fun hlt => ?_⟩
  have := hsub hlt
  omega

include hv in
theorem even_significand_rounded (h : F.Regular)
    (heven : Even (mode.roundReal (v.toReal / F.spacing (F.roundingExponent v.toReal)))) :
    Even (F.rounded mode v).significand := by
  rw [← even_abs, abs_roundReal_toReal_div_spacing, Int.even_coe_nat] at heven
  rcases rounded_cases hv mode (F := F) with ⟨-, -, hn⟩ | ⟨-, -, hn⟩
  · rwa [hn]
  · rw [hn]
    exact h.even_unit

/-- Whether rounding to a pattern that does not overflow signals underflow. -/
def underflows (F : Format) (c : Context) (v : Surd) : Bool :=
  decide (v.magnitude.floorLog2 < F.minExponent) &&
    ((F.rounded c.mode v).inexact || c.exceptions == .signalExactUnderflow) &&
    F.isTiny c v.sign v.magnitude

/-- The exceptions of rounding a value in its binade, apart from overflow. -/
def binadeFlags (F : Format) (c : Context) (v : Surd) : Flags :=
  Flags.when (F.underflows c v) Flags.uf ∪ Flags.when (F.rounded c.mode v).inexact Flags.nx

include hv in
theorem rounding_of_lt_floorLog2 (h : F.Regular) (hlog : F.maxExponent < v.magnitude.floorLog2) :
    F.rounding c v =
      (if c.mode.overflowsToInfinity v.sign then Pattern.pack F v.sign F.infinityExponent 0
        else Pattern.pack F v.sign F.maxNormalExponent F.maxMantissa, Flags.of ∪ Flags.nx) := by
  simp [rounding, hv, h.signBit, roundMagnitude, hlog]

include hv in
theorem rounding_of_floorLog2_le (hs : F.signBit = true)
    (hlog : v.magnitude.floorLog2 ≤ F.maxExponent) :
    F.rounding c v =
      if F.maxExponent < (F.rounded c.mode v).exponent then
        (Pattern.pack F v.sign F.infinityExponent 0, F.binadeFlags c v ∪ Flags.of)
      else
        (Pattern.ofSignificand F v.sign ((F.rounded c.mode v).exponent + F.bias).toNat
          (F.rounded c.mode v).significand, F.binadeFlags c v) := by
  rw [rounding, hv, if_neg Bool.false_ne_true, if_neg (by simp [hs]), roundMagnitude]
  unfold binadeFlags underflows rounded Pattern.ofSignificand
  rw [if_neg (not_lt.mpr hlog)]
  dsimp only
  split_ifs <;> rfl

include hv in
theorem rounding_of_not_overflows (h : F.Regular) (ho : ¬F.Overflows c.mode v.toReal) :
    F.rounding c v =
      (Pattern.ofSignificand F v.sign ((F.rounded c.mode v).exponent + F.bias).toNat
        (F.rounded c.mode v).significand, F.binadeFlags c v) := by
  have hlog : v.magnitude.floorLog2 ≤ F.maxExponent := by
    rw [floorLog2_eq hv]
    exact not_lt.mp fun hlt => ho (overflows_of_lt_log (toReal_ne_zero hv) hlt)
  rw [rounding_of_floorLog2_le hv h.signBit hlog, if_neg (not_lt.mpr (exponent_rounded_le hv h ho))]

theorem Overflows.isZero_eq_false (ho : F.Overflows mode v.toReal) : v.isZero = false :=
  v.isZero_eq_false_iff.mpr ho.ne_zero

/-- A value that overflows in the last binade is not exact and is rounded away from zero. -/
theorem Overflows.of_log_eq (h : F.Regular) (ho : F.Overflows mode v.toReal)
    (hlog : Int.log 2 |v.toReal| = F.maxExponent) :
    (F.rounded mode v).exponent = F.maxExponent + 1 ∧ (F.rounded mode v).inexact = true ∧
      mode.overflowsToInfinity v.sign = true := by
  have hv := ho.isZero_eq_false
  have hrange := h.minExponent_le_maxExponent
  have hexp : F.roundingExponent v.toReal = F.maxExponent := by
    unfold roundingExponent
    omega
  have hlt := lt_two_zpow_log v.toReal
  rw [hlog, ← two_unit_mul_spacing] at hlt
  have hunits : F.units mode v F.maxExponent = 2 * F.unit := by
    rw [overflows_iff_of_log_eq hlog, abs_roundReal_toReal_div_spacing] at ho
    exact (units_le mode hlt.le).antisymm (by exact_mod_cast ho)
  refine ⟨?_, ?_, ?_⟩
  · rw [rounded_eq hv, hexp, (roundAt_of_eq hunits).1]
  · rw [rounded_eq hv, hexp, inexact_roundAt]
    intro heq
    rw [← heq, abs_roundToSpacing, abs_roundReal_toReal_div_spacing, hunits] at hlt
    exact lt_irrefl _ (by exact_mod_cast hlt)
  · by_contra hmode
    rw [Bool.not_eq_true] at hmode
    have hle := RoundingMode.abs_roundReal_le_abs hmode
      (v.magnitude.scale (F.fractionWidth - F.maxExponent)).toReal_nonneg
    rw [← toReal_div_spacing, ← Int.cast_abs, abs_roundReal_toReal_div_spacing, hunits,
      Int.cast_natCast, ← abs_toReal_div_spacing, abs_div_spacing, le_div_iff₀ spacing_pos] at hle
    exact absurd hlt (not_lt.mpr hle)

theorem rounding_of_overflows (h : F.Regular) (ho : F.Overflows c.mode v.toReal) :
    F.rounding c v =
      (if c.mode.overflowsToInfinity v.sign then Pattern.pack F v.sign F.infinityExponent 0
        else Pattern.pack F v.sign F.maxNormalExponent F.maxMantissa, Flags.of ∪ Flags.nx) := by
  have hv := ho.isZero_eq_false
  rcases lt_or_ge F.maxExponent v.magnitude.floorLog2 with hlog | hlog
  · exact rounding_of_lt_floorLog2 hv h hlog
  · have hlast : Int.log 2 |v.toReal| = F.maxExponent := by
      rw [floorLog2_eq hv] at hlog
      exact hlog.antisymm (not_lt.mp fun hlt => not_overflows_of_log_lt hlt ho)
    obtain ⟨hexp, hinexact, hmode⟩ := ho.of_log_eq h hlast
    have hlarge : ¬v.magnitude.floorLog2 < F.minExponent := by
      have hrange := h.minExponent_le_maxExponent
      rw [floorLog2_eq hv]
      omega
    rw [rounding_of_floorLog2_le hv h.signBit hlog, hexp, if_pos (lt_add_one _), hmode, if_pos rfl,
      binadeFlags, underflows, hinexact]
    simp [hlarge]
    rfl

/-- A value overflows exactly when its rounding in its binade ends beyond the last one. -/
theorem overflows_iff_lt_exponent_rounded (h : F.Regular) (hv : v.isZero = false) :
    F.Overflows mode v.toReal ↔ F.maxExponent < (F.rounded mode v).exponent := by
  constructor
  · intro ho
    rcases lt_trichotomy (Int.log 2 |v.toReal|) F.maxExponent with hlog | hlog | hlog
    · exact absurd ho (not_overflows_of_log_lt hlog)
    · rw [(ho.of_log_eq h hlog).1]
      exact lt_add_one _
    · have hle : Int.log 2 |v.toReal| ≤ F.roundingExponent v.toReal := le_max_left _ _
      rcases rounded_cases hv mode (F := F) with ⟨-, he, -⟩ | ⟨-, he, -⟩ <;> omega
  · intro hlt
    by_contra ho
    exact absurd (exponent_rounded_le hv h ho) (not_le.mpr hlt)

theorem units_tiesToEven (v : Surd) (e : ℤ) :
    (F.units .tiesToEven v e : ℤ) =
      RoundingMode.tiesToEven.roundReal (|v.toReal| / F.spacing e) := by
  have hunits : F.units .tiesToEven v e = F.units .tiesToEven ⟨.positive, v.magnitude⟩ e := by
    obtain ⟨s, x⟩ := v
    cases s <;> rfl
  have hreal : (⟨.positive, v.magnitude⟩ : Surd).toReal = |v.toReal| := by
    rw [v.abs_toReal, Surd.toReal, Sign.factor, Int.cast_one, one_mul]
  rw [hunits, ← hreal, roundReal_toReal_div_spacing, Sign.factor, one_mul]

end HartFloat.Format
