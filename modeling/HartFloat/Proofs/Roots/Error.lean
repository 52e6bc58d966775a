import HartFloat.Proofs.Roots.Step

/-!
# The error of a step

Where neither the quotient nor the sum is tiny, a step gives the exact mean of the guess and the
quotient by it but for the relative errors of two roundings. The exact mean never falls short of
the root, so that only these errors can make a guess too small.
-/
namespace HartFloat.Backend.Soft

open Format (binary32 regular_binary32)

variable {a g r : ℝ}

theorem minExponent_binary32 : binary32.minExponent = -126 := by decide

theorem maxExponent_binary32 : binary32.maxExponent = 127 := by decide

theorem fractionWidth_binary32 : binary32.fractionWidth = 23 := by decide

theorem two_zpow_mem {e : ℤ} (hlo : -126 ≤ e) (hhi : e ≤ 127) :
    (2 : ℝ) ^ e ∈ binary32.finiteValues :=
  Format.two_zpow_mem_finiteValues regular_binary32 hlo hhi

theorem one_mem : (1 : ℝ) ∈ binary32.finiteValues := by
  have h := two_zpow_mem (e := 0) (by norm_num) (by norm_num)
  rwa [zpow_zero] at h

theorem two_mem : (2 : ℝ) ∈ binary32.finiteValues := by
  have h := two_zpow_mem (e := 1) (by norm_num) (by norm_num)
  rwa [zpow_one] at h

theorem largest_binary32 : binary32.largest = 2 ^ 128 - 2 ^ 104 := by
  rw [Format.largest, Format.unit, Format.spacing, maxExponent_binary32, fractionWidth_binary32]
  norm_num

theorem largest_add_two_lt : binary32.largest + 2 < binary32.overflowThreshold := by
  rw [Format.overflowThreshold_eq, Format.largest, Format.unit, Format.spacing,
    maxExponent_binary32, fractionWidth_binary32]
  norm_num

/-- The largest relative error of a rounding, half the spacing of the numbers from one on. -/
noncomputable def roundoff : ℝ := binary32.spacing (-1)

theorem roundoff_eq : roundoff = 1 / 2 ^ 24 := by
  rw [roundoff, Format.spacing, fractionWidth_binary32]
  norm_num [zpow_neg]

theorem roundoff_pos : 0 < roundoff := Format.spacing_pos

theorem roundoff_lt_one : roundoff < 1 := by
  rw [roundoff_eq]
  norm_num

theorem toNearest_mem_Icc (hr : 2 ^ binary32.minExponent ≤ r) :
    binary32.toNearest r ∈ Set.Icc ((1 - roundoff) * r) ((1 + roundoff) * r) := by
  have hpos : 0 < r := lt_of_lt_of_le (by positivity) hr
  have herror := Format.abs_toNearest_sub_le_mul (v := r) (by rwa [abs_of_pos hpos])
  have hroundoff : (2 : ℝ) ^ (-(binary32.fractionWidth + 1 : ℤ)) = roundoff := by
    rw [roundoff, Format.spacing, neg_add_rev, ← sub_eq_add_neg]
  rw [abs_of_pos hpos, hroundoff, abs_le] at herror
  constructor <;> linarith

section

variable (hg : 0 < g) (hquotient : 2 ^ binary32.minExponent ≤ a / g)
  (hsum : 2 ^ binary32.minExponent ≤ g + binary32.toNearest (a / g))

include hg hquotient hsum

theorem refined_mem_Icc :
    refined a g ∈
      Set.Icc ((1 - roundoff) ^ 2 * ((g + a / g) / 2))
        ((1 + roundoff) ^ 2 * ((g + a / g) / 2)) := by
  have hu := roundoff_pos
  have hu' := sub_pos.mpr roundoff_lt_one
  obtain ⟨hqlo, hqhi⟩ := toNearest_mem_Icc hquotient
  obtain ⟨hslo, hshi⟩ := toNearest_mem_Icc hsum
  have hlo : (1 - roundoff) * (g + a / g) ≤ g + binary32.toNearest (a / g) := by
    linarith [mul_pos hu hg]
  have hhi : g + binary32.toNearest (a / g) ≤ (1 + roundoff) * (g + a / g) := by
    linarith [mul_pos hu hg]
  rw [refined_eq]
  constructor
  · calc (1 - roundoff) ^ 2 * ((g + a / g) / 2)
        = (1 - roundoff) * ((1 - roundoff) * (g + a / g)) / 2 := by ring
      _ ≤ (1 - roundoff) * (g + binary32.toNearest (a / g)) / 2 := by gcongr
      _ ≤ binary32.toNearest (g + binary32.toNearest (a / g)) / 2 := by gcongr
  · calc binary32.toNearest (g + binary32.toNearest (a / g)) / 2
        ≤ (1 + roundoff) * (g + binary32.toNearest (a / g)) / 2 := by gcongr
      _ ≤ (1 + roundoff) * ((1 + roundoff) * (g + a / g)) / 2 := by gcongr
      _ = (1 + roundoff) ^ 2 * ((g + a / g) / 2) := by ring

end

/-- The mean of a guess and the quotient by it does not fall short of the root. -/
theorem le_sq_mean (a : ℝ) (hg : 0 < g) : a ≤ ((g + a / g) / 2) ^ 2 := by
  have hproduct : g * (a / g) = a := mul_div_cancel₀ a hg.ne'
  nlinarith [sq_nonneg (g - a / g)]

end HartFloat.Backend.Soft
