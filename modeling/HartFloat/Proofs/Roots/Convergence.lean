import HartFloat.Proofs.Roots.Range

/-!
# Ten steps suffice near one

A guess is known up to a factor if its square lies within that factor of the number, on either side.
A step takes the factor `c` to `(c + 1) ^ 2 / (4 * c)`, apart from the rounding errors: far from the
root that is a quarter of it, and near the root the excess over one is squared. The number as the
first guess is known up to itself. Six steps bring the factor 2 ^ 12 down to two and the other four
bring it next to one, where the rounding errors are all that is left.
-/
namespace HartFloat.Backend.Soft

open Format (binary32 regular_binary32)

variable {a c c' g r : ℝ} {x : Word}

/-- The square of the guess lies within the factor of the number. -/
structure Within (c a g : ℝ) : Prop where
  lower : a ≤ c * g ^ 2
  upper : g ^ 2 ≤ c * a

theorem Within.mul_sq_mean_le (h : Within c a g) (ha : 0 < a) (hg : 0 < g) :
    4 * c * ((g + a / g) / 2) ^ 2 ≤ (c + 1) ^ 2 * a := by
  have hsquare : 0 < g ^ 2 := by positivity
  -- Both bounds together say that a quadratic in the square of the guess is not positive.
  have hbounds : (c * a - g ^ 2) * (c * g ^ 2 - a) ≥ 0 :=
    mul_nonneg (sub_nonneg.mpr h.upper) (sub_nonneg.mpr h.lower)
  have hmean : ((g + a / g) / 2) ^ 2 = (g ^ 2 + a) ^ 2 / (4 * g ^ 2) := by
    field_simp
    ring
  rw [hmean, ← mul_div_assoc, div_le_iff₀ (by positivity)]
  nlinarith

/-- The factors up to which guesses are known, by the number of steps that are left. -/
def spread : ℕ → ℚ
  | 0 => 1 + 1 / 2 ^ 21
  | 1 => 1 + 1 / 2 ^ 14
  | 2 => 1 + 1 / 2 ^ 6
  | 3 => 1 + 1 / 2 ^ 2
  | n + 4 => 4 ^ n + 1

theorem spread_pos (n : ℕ) : (0 : ℝ) < spread n := by
  have hpos : 0 < spread n := by
    unfold spread
    split <;> positivity
  exact_mod_cast hpos

theorem spread_step {n : ℕ} (hn : n < 10) :
    (1 + roundoff) ^ 4 * (spread (n + 1) + 1) ^ 2 ≤ 4 * spread (n + 1) * spread n := by
  rw [roundoff_eq]
  interval_cases n <;> norm_num [spread]

theorem le_spread (n : ℕ) : 1 + 1 / 2 ^ 21 ≤ (spread n : ℝ) := by
  match n with
  | 0 | 1 | 2 | 3 => norm_num [spread]
  | n + 4 =>
    have hpow : (1 : ℝ) ≤ 4 ^ n := one_le_pow₀ (by norm_num)
    norm_num [spread]
    linarith

/-- The factors leave room for a guess that falls short by rounding errors. -/
theorem one_le_roundoff_mul_spread (n : ℕ) : 1 ≤ (1 - roundoff) ^ 4 * spread n := by
  calc (1 : ℝ) ≤ (1 - roundoff) ^ 4 * (1 + 1 / 2 ^ 21) := by norm_num [roundoff_eq]
    _ ≤ (1 - roundoff) ^ 4 * spread n := by gcongr; exact le_spread n

theorem InRange.within_next (hnormal : 2 ^ binary32.minExponent ≤ a)
    (ha : a ∈ binary32.finiteValues) (h : InRange a g) {n : ℕ} (hn : n < 10)
    (hw : Within (spread (n + 1)) a g) : Within (spread n) a (refined a g) := by
  have hg := h.pos hnormal
  have hpos : 0 < a := lt_of_lt_of_le (by positivity) hnormal
  have hc := spread_pos (n + 1)
  have hc' := spread_pos n
  constructor
  -- The exact mean does not fall short of the root, so that the factor of the guess plays no part.
  · calc a ≤ (1 - roundoff) ^ 4 * spread n * a :=
          le_mul_of_one_le_left hpos.le (one_le_roundoff_mul_spread n)
      _ = spread n * ((1 - roundoff) ^ 4 * a) := by ring
      _ ≤ spread n * refined a g ^ 2 := by
        gcongr
        exact h.le_sq_refined hnormal ha
  · have hrefined : refined a g ^ 2 ≤ ((1 + roundoff) ^ 2 * ((g + a / g) / 2)) ^ 2 := by
      have hpositive := (h.proceeds hnormal ha).refined_pos
      gcongr
      exact (refined_mem_Icc hg (h.two_zpow_le_quotient hnormal) (h.two_zpow_le_sum hnormal ha)).2
    refine le_of_mul_le_mul_left ?_ (show (0 : ℝ) < 4 * spread (n + 1) by positivity)
    calc 4 * spread (n + 1) * refined a g ^ 2
        ≤ 4 * spread (n + 1) * ((1 + roundoff) ^ 2 * ((g + a / g) / 2)) ^ 2 := by gcongr
      _ = (1 + roundoff) ^ 4 * (4 * spread (n + 1) * ((g + a / g) / 2) ^ 2) := by ring
      _ ≤ (1 + roundoff) ^ 4 * ((spread (n + 1) + 1) ^ 2 * a) := by
        have hmean := hw.mul_sq_mean_le hpos hg
        have hu := roundoff_pos
        exact mul_le_mul_of_nonneg_left hmean (by positivity)
      _ = (1 + roundoff) ^ 4 * (spread (n + 1) + 1) ^ 2 * a := by ring
      _ ≤ 4 * spread (n + 1) * spread n * a := mul_le_mul_of_nonneg_right (spread_step hn) hpos.le
      _ = 4 * spread (n + 1) * (spread n * a) := by ring

/-- The guess with the given number of steps left. -/
structure Approaches (a : ℝ) (n : ℕ) (g : ℝ) : Prop where
  steps_le : n ≤ Primitives.rootSteps
  inRange : InRange a g
  within : Within (spread n) a g

section

variable (hlo : 1 / 2 ^ 12 ≤ a) (hhi : a ≤ 2 ^ 12)

include hlo hhi

theorem within_self : Within (spread Primitives.rootSteps) a a := by
  have hpos : 0 < a := lt_of_lt_of_le (by positivity) hlo
  have hspread : (spread Primitives.rootSteps : ℝ) = 2 ^ 12 + 1 := by
    norm_num [spread, Primitives.rootSteps]
  rw [hspread]
  constructor
  · nlinarith
  · nlinarith

theorem yields_sqrtApprox_of_near_one (hx : Holds x a) : Yields (primitives.sqrtApprox x)
    fun w => ∃ r, Holds w r ∧ Approaches a 0 r := by
  have ha := hx.mem
  have hnormal : 2 ^ binary32.minExponent ≤ a := by
    rw [minExponent_binary32]
    exact le_trans (by norm_num) hlo
  refine yields_sqrtApprox (Approaches a) hx (fun n g hg => ?_) ?_
  · obtain ⟨hn, hrange, hwithin⟩ := hg
    exact ⟨hrange.proceeds hnormal ha, Nat.le_of_succ_le hn, hrange.next hnormal ha,
      hrange.within_next hnormal ha hn hwithin⟩
  · exact ⟨le_rfl, ⟨ha, min_le_right 1 a, le_max_right 1 a⟩, within_self hlo hhi⟩

end

/-- Between 2 ^ -12 and 2 ^ 12 the square of the approximate root agrees with the number up to a
relative error of 2 ^ -21, whatever exceptions were collected before. -/
theorem sqrtApprox_converges {v : ℚ} (hv : (ofWord x).value? = .ok (some v)) (hlo : 1 / 2 ^ 12 ≤ v)
    (hhi : v ≤ 2 ^ 12) (f : Flags) :
    ∃ q, (ofWord (primitives.sqrtApprox x f).1).value? = .ok (some q) ∧
      |q ^ 2 - v| ≤ 1 / 2 ^ 21 * v := by
  have hpos : 0 < v := lt_of_lt_of_le (by positivity) hlo
  have hlo' := (Rat.cast_le (K := ℝ)).mpr hlo
  have hhi' := (Rat.cast_le (K := ℝ)).mpr hhi
  push_cast at hlo' hhi'
  obtain ⟨⟨r, hr, -, -, hwithin⟩, -⟩ :=
    yields_sqrtApprox_of_near_one hlo' hhi' (holds_of_value? hv hpos) f
  obtain ⟨q, hq, rfl⟩ := hr.value?
  refine ⟨q, hq, ?_⟩
  have hlower : v ≤ spread 0 * q ^ 2 := by exact_mod_cast hwithin.lower
  have hupper : q ^ 2 ≤ spread 0 * v := by exact_mod_cast hwithin.upper
  rw [spread] at hlower hupper
  rw [abs_le]
  constructor
  · linarith
  · linarith

/-- Two. -/
theorem sqrtApprox_converges_two :
    (ofWord 0x40000000).value? = .ok (some 2) ∧ (1 : ℚ) / 2 ^ 12 ≤ 2 ∧ (2 : ℚ) ≤ 2 ^ 12 ∧
      ∃ q, (ofWord (primitives.sqrtApprox 0x40000000 ∅).1).value? = .ok (some q) ∧
        |q ^ 2 - 2| ≤ 1 / 2 ^ 21 * 2 := by
  have hv : (ofWord 0x40000000).value? = .ok (some 2) := by decide +kernel
  have hlo : (1 : ℚ) / 2 ^ 12 ≤ 2 := by norm_num
  have hhi : (2 : ℚ) ≤ 2 ^ 12 := by norm_num
  exact ⟨hv, hlo, hhi, sqrtApprox_converges hv hlo hhi ∅⟩

end HartFloat.Backend.Soft
