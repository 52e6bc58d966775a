import HartFloat.Proofs.Rounding.Grid

/-!
# Overflow

A number overflows when it is larger than every finite value after it has been rounded without
bounds on the exponent. Only numbers beyond the largest finite value do, and for the nearest modes
these are the numbers from the threshold on.
-/
namespace HartFloat.Format

/-- The number rounded without bounds on the exponent is beyond the largest finite value. -/
def Overflows (F : Format) (mode : RoundingMode) (v : ℝ) : Prop :=
  F.largest < |F.roundUnbounded mode v|

variable {F : Format} {mode : RoundingMode} {v : ℝ}

theorem lt_two_zpow_log (v : ℝ) : |v| < 2 ^ (Int.log 2 |v| + 1) :=
  Int.lt_zpow_succ_log_self one_lt_two _

theorem two_zpow_log_le (hv : v ≠ 0) : (2 : ℝ) ^ Int.log 2 |v| ≤ |v| :=
  Int.zpow_log_le_self one_lt_two (abs_pos.mpr hv)

theorem le_abs_of_lt_log (hv : v ≠ 0) (h : F.maxExponent < Int.log 2 |v|) :
    (2 : ℝ) ^ (F.maxExponent + 1) ≤ |v| :=
  (zpow_le_zpow_right₀ one_le_two (by omega)).trans (two_zpow_log_le hv)

theorem abs_roundUnbounded_le (v : ℝ) : |F.roundUnbounded mode v| ≤ 2 ^ (Int.log 2 |v| + 1) := by
  rw [← two_unit_mul_spacing]
  exact abs_roundToSpacing_le mode (by rw [two_unit_mul_spacing]; exact (lt_two_zpow_log v).le)

theorem le_abs_roundUnbounded (hv : v ≠ 0) :
    2 ^ Int.log 2 |v| ≤ |F.roundUnbounded mode v| := by
  rw [← unit_mul_spacing]
  exact le_abs_roundToSpacing mode (by rw [unit_mul_spacing]; exact two_zpow_log_le hv)

theorem not_overflows_of_log_lt (h : Int.log 2 |v| < F.maxExponent) : ¬F.Overflows mode v :=
  not_lt.mpr <| calc
    |F.roundUnbounded mode v| ≤ 2 ^ (Int.log 2 |v| + 1) := abs_roundUnbounded_le v
    _ ≤ 2 ^ F.maxExponent := zpow_le_zpow_right₀ one_le_two (by omega)
    _ ≤ F.largest := two_zpow_le_largest

theorem overflows_of_lt_log (hv : v ≠ 0) (h : F.maxExponent < Int.log 2 |v|) :
    F.Overflows mode v := calc
  F.largest < 2 ^ (F.maxExponent + 1) := largest_lt
  _ ≤ 2 ^ Int.log 2 |v| := zpow_le_zpow_right₀ one_le_two (by omega)
  _ ≤ |F.roundUnbounded mode v| := le_abs_roundUnbounded hv

/-- In the last binade a number overflows if it is rounded to the lower bound of the next one. -/
theorem overflows_iff_of_log_eq (h : Int.log 2 |v| = F.maxExponent) :
    F.Overflows mode v ↔
      ((2 * F.unit : ℕ) : ℤ) ≤ |mode.roundReal (v / F.spacing F.maxExponent)| := by
  have hu := F.unit_pos
  rw [Overflows, roundUnbounded, h, abs_roundToSpacing, largest_eq,
    mul_lt_mul_iff_left₀ spacing_pos]
  constructor
  · intro hlt
    have hint : ((2 * F.unit - 1 : ℕ) : ℤ) < |mode.roundReal (v / F.spacing F.maxExponent)| := by
      exact_mod_cast hlt
    omega
  · intro hle
    have hint : ((2 * F.unit - 1 : ℕ) : ℤ) < |mode.roundReal (v / F.spacing F.maxExponent)| := by
      omega
    exact_mod_cast hint

theorem Overflows.ne_zero (h : F.Overflows mode v) : v ≠ 0 := by
  rintro rfl
  rw [Overflows, roundUnbounded, roundToSpacing_zero, abs_zero] at h
  exact absurd h largest_pos.not_gt

theorem Overflows.largest_lt_abs (h : F.Overflows mode v) : F.largest < |v| := by
  by_contra hle
  rw [not_lt] at hle
  rcases lt_trichotomy (Int.log 2 |v|) F.maxExponent with hlog | hlog | hlog
  · exact not_overflows_of_log_lt hlog h
  · rw [largest_eq] at hle
    have hbound := abs_roundToSpacing_le mode hle
    rw [Overflows, roundUnbounded, hlog, largest_eq] at h
    exact absurd h (not_lt.mpr hbound)
  · exact absurd ((le_abs_of_lt_log h.ne_zero hlog).trans hle) (not_le.mpr largest_lt)

/-- In the nearest modes the numbers from the threshold on overflow. -/
theorem overflows_iff_overflowThreshold_le (hmode : mode.isNearest = true) :
    F.Overflows mode v ↔ F.overflowThreshold ≤ |v| := by
  constructor
  · intro h
    rcases lt_trichotomy (Int.log 2 |v|) F.maxExponent with hlog | hlog | hlog
    · exact absurd h (not_overflows_of_log_lt hlog)
    · have hround : ((2 * F.unit : ℕ) : ℝ) ≤
          |(mode.roundReal (v / F.spacing F.maxExponent) : ℝ)| := by
        exact_mod_cast (overflows_iff_of_log_eq hlog).mp h
      have hdist := mode.abs_roundReal_sub_le hmode (v / F.spacing F.maxExponent)
      have hsum := (abs_sub_abs_le_abs_sub _ _).trans hdist
      rw [abs_div_spacing] at hsum
      rw [overflowThreshold_eq, ← le_div_iff₀ spacing_pos]
      push_cast at hround
      linarith
    · exact overflowThreshold_le.trans (le_abs_of_lt_log h.ne_zero hlog)
  · intro h
    have hbig : (2 : ℝ) ^ F.maxExponent ≤ |v| :=
      two_zpow_le_largest.trans (largest_lt_overflowThreshold.le.trans h)
    have hv : v ≠ 0 := abs_pos.mp (lt_of_lt_of_le (by positivity) hbig)
    have hge : F.maxExponent ≤ Int.log 2 |v| :=
      (Int.zpow_le_iff_le_log one_lt_two (abs_pos.mpr hv)).mp hbig
    rcases hge.eq_or_lt with hlog | hlog
    · refine (overflows_iff_of_log_eq hlog.symm).mpr (mode.two_mul_le_abs_roundReal hmode ?_)
      rw [overflowThreshold_eq, ← le_div_iff₀ spacing_pos] at h
      rw [abs_div_spacing]
      push_cast
      exact h
    · exact overflows_of_lt_log hv hlog

end HartFloat.Format
