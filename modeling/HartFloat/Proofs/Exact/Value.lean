import HartFloat.Exact.Surd
import Mathlib.Analysis.SpecialFunctions.Pow.Real
import Mathlib.Data.Int.Log
import Mathlib.Tactic

/-!
# The real values of exact results

A magnitude stands for a real root of a fraction. The floor, the excess over it and the floor of
the binary logarithm, which are computed by comparing powers of integers, are those of this real
number.
-/
namespace HartFloat

namespace Exact

/-- What an excess says about the distance from the floor, compared with that from the next
integer. -/
def Excess.Describes : Excess → ℝ → Prop
  | none, d => d = 0
  | belowHalf, d => 0 < d ∧ d < 1 - d
  | half, d => d = 1 - d
  | aboveHalf, d => 1 - d < d ∧ d < 1

namespace Magnitude

variable (x : Magnitude)

/-- The real number that the magnitude stands for. -/
noncomputable def toReal : ℝ := ((x.num : ℝ) / x.den) ^ ((x.degree : ℝ)⁻¹)

theorem toReal_nonneg : 0 ≤ x.toReal := Real.rpow_nonneg (by positivity) _

theorem den_pos' : (0 : ℝ) < x.den := by exact_mod_cast x.den_pos

theorem toReal_pow : x.toReal ^ x.degree = (x.num : ℝ) / x.den :=
  Real.rpow_inv_natCast_pow (by positivity) x.degree_pos.ne'

/-- Numbers are compared with a root by comparing their powers with the fraction. -/
theorem le_toReal_iff {a : ℝ} (ha : 0 ≤ a) : a ≤ x.toReal ↔ a ^ x.degree * x.den ≤ x.num := by
  rw [← pow_le_pow_iff_left₀ ha x.toReal_nonneg x.degree_pos.ne', toReal_pow,
    le_div_iff₀ x.den_pos']

theorem lt_toReal_iff {a : ℝ} (ha : 0 ≤ a) : a < x.toReal ↔ a ^ x.degree * x.den < x.num := by
  rw [← pow_lt_pow_iff_left₀ ha x.toReal_nonneg x.degree_pos.ne', toReal_pow,
    lt_div_iff₀ x.den_pos']

theorem eq_toReal_iff {a : ℝ} (ha : 0 ≤ a) : a = x.toReal ↔ a ^ x.degree * x.den = x.num := by
  rw [← pow_left_inj₀ ha x.toReal_nonneg x.degree_pos.ne', toReal_pow, eq_div_iff x.den_pos'.ne']

theorem toReal_lt_iff {a : ℝ} (ha : 0 ≤ a) : x.toReal < a ↔ x.num < a ^ x.degree * x.den := by
  rw [← not_le, le_toReal_iff x ha, not_le]

theorem toReal_pos_iff : 0 < x.toReal ↔ x.isZero = false := by
  rw [lt_toReal_iff x le_rfl, zero_pow x.degree_pos.ne', zero_mul]
  simp [isZero, Nat.pos_iff_ne_zero]

theorem toReal_eq_zero_iff : x.toReal = 0 ↔ x.isZero = true := by
  have h := x.toReal_pos_iff
  rw [x.toReal_nonneg.lt_iff_ne'] at h
  cases hz : x.isZero <;> simp_all

@[simp] theorem toReal_ofFraction (n d : ℕ) (h : 0 < d) : (ofFraction n d h).toReal = n / d := by
  simp [toReal, ofFraction]

theorem toReal_root (k : ℕ) (h : 0 < k) : (x.root k h).toReal = x.toReal ^ ((k : ℝ)⁻¹) := by
  unfold toReal root
  rw [← Real.rpow_mul (by positivity)]
  push_cast
  rw [mul_inv]

theorem toReal_root_two (h : 0 < 2) : (x.root 2 h).toReal = √x.toReal := by
  rw [toReal_root, Real.sqrt_eq_rpow]
  norm_num

theorem toReal_scale (s : ℤ) : (x.scale s).toReal = x.toReal * 2 ^ s := by
  have hpow : (2 : ℝ) ^ s * 2 ^ (-s).toNat = 2 ^ s.toNat := by
    rw [← zpow_natCast, ← zpow_natCast, ← zpow_add₀ two_ne_zero]
    congr 1
    omega
  symm
  apply ((x.scale s).eq_toReal_iff (mul_nonneg x.toReal_nonneg (by positivity))).mpr
  have hx := x.toReal_pow
  rw [eq_div_iff x.den_pos'.ne'] at hx
  simp only [scale]
  push_cast
  calc (x.toReal * 2 ^ s) ^ x.degree * (x.den * 2 ^ ((-s).toNat * x.degree))
      = x.toReal ^ x.degree * x.den * ((2 : ℝ) ^ s * 2 ^ (-s).toNat) ^ x.degree := by
        rw [pow_mul]
        ring
    _ = x.num * 2 ^ (s.toNat * x.degree) := by rw [hpow, hx, pow_mul]

theorem floor_le_toReal : (x.floor : ℝ) ≤ x.toReal := by
  have h := floorRoot_pow_le (n := x.num / x.den) x.degree_pos
  have hmul := (Nat.le_div_iff_mul_le x.den_pos).mp h
  rw [le_toReal_iff x (Nat.cast_nonneg _)]
  exact_mod_cast hmul

theorem toReal_lt_floor_add_one : x.toReal < x.floor + 1 := by
  have h := lt_floorRoot_succ_pow (n := x.num / x.den) x.degree_pos
  have hmul := (Nat.div_lt_iff_lt_mul x.den_pos).mp h
  rw [toReal_lt_iff x (by positivity)]
  exact_mod_cast hmul

theorem two_pow_mul_floor_add_half :
    (2 : ℝ) ^ x.degree * (x.floor + 1 / 2 : ℝ) ^ x.degree = (2 * x.floor + 1) ^ x.degree := by
  rw [← mul_pow]
  ring_nf

theorem floor_add_half_lt_iff :
    (x.floor : ℝ) + 1 / 2 < x.toReal ↔
      (2 * x.floor + 1) ^ x.degree * x.den < 2 ^ x.degree * x.num := by
  rw [lt_toReal_iff x (by positivity), ← Nat.cast_lt (α := ℝ)]
  push_cast
  rw [← two_pow_mul_floor_add_half, mul_assoc]
  exact (mul_lt_mul_iff_right₀ (by positivity)).symm

theorem floor_add_half_eq_iff :
    (x.floor : ℝ) + 1 / 2 = x.toReal ↔
      (2 * x.floor + 1) ^ x.degree * x.den = 2 ^ x.degree * x.num := by
  rw [eq_toReal_iff x (by positivity), ← Nat.cast_inj (R := ℝ)]
  push_cast
  rw [← two_pow_mul_floor_add_half, mul_assoc]
  exact (mul_right_inj' (by positivity)).symm

theorem floor_eq_toReal_iff : (x.floor : ℝ) = x.toReal ↔ x.floor ^ x.degree * x.den = x.num := by
  rw [eq_toReal_iff x (Nat.cast_nonneg _)]
  exact_mod_cast Iff.rfl

theorem excess_describes : x.excess.Describes (x.toReal - x.floor) := by
  have hlo := x.floor_le_toReal
  have hhi := x.toReal_lt_floor_add_one
  unfold excess
  split_ifs with hexact
  · have h := x.floor_eq_toReal_iff.mpr hexact
    simp only [Excess.Describes]
    linarith
  · have hne : (x.floor : ℝ) ≠ x.toReal := fun h => hexact (x.floor_eq_toReal_iff.mp h)
    have hpos : (x.floor : ℝ) < x.toReal := lt_of_le_of_ne hlo hne
    rcases lt_trichotomy ((2 * x.floor + 1) ^ x.degree * x.den) (2 ^ x.degree * x.num)
      with hc | hc | hc
    · have h := x.floor_add_half_lt_iff.mpr hc
      simp only [Nat.compare_eq_lt.mpr hc, Excess.Describes]
      constructor <;> linarith
    · have h := x.floor_add_half_eq_iff.mpr hc
      simp only [Nat.compare_eq_eq.mpr hc, Excess.Describes]
      linarith
    · have h : x.toReal < x.floor + 1 / 2 := by
        refine lt_of_le_of_ne (not_lt.mp fun h => ?_) fun h => ?_
        · exact lt_asymm hc (x.floor_add_half_lt_iff.mp h)
        · exact hc.ne' (x.floor_add_half_eq_iff.mp h.symm)
      simp only [Nat.compare_eq_gt.mpr hc, Excess.Describes]
      constructor <;> linarith

theorem fractionLog_bounds (h : x.isZero = false) :
    ∃ l : ℤ, x.floorLog2 = l / x.degree ∧
      (2 : ℝ) ^ l ≤ (x.num : ℝ) / x.den ∧ (x.num : ℝ) / x.den < 2 ^ (l + 1) := by
  have hnum : x.num ≠ 0 := by simpa [isZero] using h
  have hden := x.den_pos'
  have hn₁ : ((2 : ℝ) ^ x.num.log2) ≤ x.num := by exact_mod_cast Nat.log2_self_le hnum
  have hn₂ : (x.num : ℝ) < 2 ^ (x.num.log2 + 1) := by exact_mod_cast Nat.lt_log2_self
  have hd₁ : ((2 : ℝ) ^ x.den.log2) ≤ x.den := by exact_mod_cast Nat.log2_self_le x.den_pos.ne'
  have hd₂ : (x.den : ℝ) < 2 ^ (x.den.log2 + 1) := by exact_mod_cast Nat.lt_log2_self
  set e : ℤ := x.num.log2 - x.den.log2 with he
  have hupper : (x.num : ℝ) / x.den < 2 ^ (e + 1) := by
    rw [div_lt_iff₀ hden]
    calc (x.num : ℝ) < 2 ^ (x.num.log2 + 1) := hn₂
      _ = (2 : ℝ) ^ (e + 1) * 2 ^ x.den.log2 := by
        rw [← zpow_natCast, ← zpow_natCast, ← zpow_add₀ two_ne_zero]
        congr 1
        push_cast
        omega
      _ ≤ (2 : ℝ) ^ (e + 1) * x.den := by gcongr
  have hlower : (2 : ℝ) ^ (e - 1) ≤ (x.num : ℝ) / x.den := by
    rw [le_div_iff₀ hden]
    calc (2 : ℝ) ^ (e - 1) * x.den ≤ (2 : ℝ) ^ (e - 1) * 2 ^ (x.den.log2 + 1) := by gcongr
      _ = (2 : ℝ) ^ x.num.log2 := by
        rw [← zpow_natCast, ← zpow_natCast, ← zpow_add₀ two_ne_zero]
        congr 1
        push_cast
        omega
      _ ≤ x.num := hn₁
  have hsplit : x.den * 2 ^ e.toNat ≤ x.num * 2 ^ (-e).toNat ↔
      (2 : ℝ) ^ e ≤ (x.num : ℝ) / x.den := by
    have hpow : (2 : ℝ) ^ e * 2 ^ (-e).toNat = 2 ^ e.toNat := by
      rw [← zpow_natCast, ← zpow_natCast, ← zpow_add₀ two_ne_zero]
      congr 1
      omega
    rw [le_div_iff₀ hden, ← Nat.cast_le (α := ℝ)]
    push_cast
    rw [← hpow, ← mul_assoc, mul_le_mul_iff_left₀ (by positivity), mul_comm]
  unfold floorLog2
  rw [← he]
  dsimp only
  split_ifs with hle
  · exact ⟨e, rfl, hsplit.mp hle, hupper⟩
  · exact ⟨e - 1, rfl, hlower, by simpa using not_le.mp fun h => hle (hsplit.mpr h)⟩

theorem two_zpow_floorLog2_le (h : x.isZero = false) : (2 : ℝ) ^ x.floorLog2 ≤ x.toReal := by
  obtain ⟨l, hl, hlo, -⟩ := x.fractionLog_bounds h
  have hmul : x.floorLog2 * x.degree ≤ l := by
    rw [hl]
    exact Int.ediv_mul_le l (by exact_mod_cast x.degree_pos.ne')
  rw [← pow_le_pow_iff_left₀ (by positivity) x.toReal_nonneg x.degree_pos.ne', toReal_pow,
    ← zpow_natCast, ← zpow_mul]
  exact (zpow_le_zpow_right₀ one_le_two hmul).trans hlo

theorem toReal_lt_two_zpow (h : x.isZero = false) : x.toReal < 2 ^ (x.floorLog2 + 1) := by
  obtain ⟨l, hl, -, hhi⟩ := x.fractionLog_bounds h
  have hmul : l + 1 ≤ (x.floorLog2 + 1) * x.degree := by
    rw [hl]
    exact Int.lt_ediv_add_one_mul_self l (by exact_mod_cast x.degree_pos)
  rw [← pow_lt_pow_iff_left₀ x.toReal_nonneg (by positivity) x.degree_pos.ne', toReal_pow,
    ← zpow_natCast ((2 : ℝ) ^ _), ← zpow_mul]
  exact hhi.trans_le (zpow_le_zpow_right₀ one_le_two hmul)

/-- The floor of the binary logarithm, as the library of real numbers has it. -/
theorem floorLog2_eq_log (h : x.isZero = false) : x.floorLog2 = Int.log 2 x.toReal := by
  have hpos := x.toReal_pos_iff.mpr h
  have hlo := (Int.zpow_le_iff_le_log (by norm_num : 1 < 2) hpos).mp
    (by exact_mod_cast x.two_zpow_floorLog2_le h)
  have hhi := (Int.lt_zpow_iff_log_lt (by norm_num : 1 < 2) hpos).mp
    (by exact_mod_cast x.toReal_lt_two_zpow h)
  omega

end Magnitude
end Exact

namespace Sign

def factor : Sign → ℤ
  | positive => 1
  | negative => -1

theorem applyTo_eq (s : Sign) (n : ℕ) : s.applyTo n = s.factor * n := by
  cases s <;> simp [applyTo, factor]

theorem factor_mul_self (s : Sign) : s.factor * s.factor = 1 := by
  cases s <;> rfl

theorem factor_ne_zero (s : Sign) : s.factor ≠ 0 := left_ne_zero_of_mul_eq_one s.factor_mul_self

theorem abs_factor {α : Type*} [Ring α] [LinearOrder α] [IsStrictOrderedRing α] (s : Sign) :
    |(s.factor : α)| = 1 := by
  cases s <;> simp [factor]

theorem factor_flip (s : Sign) : s.flip.factor = -s.factor := by
  cases s <;> rfl

theorem factor_mul (s t : Sign) : (s.mul t).factor = s.factor * t.factor := by
  cases s <;> cases t <;> rfl

end Sign

namespace Exact.Surd

noncomputable def toReal (v : Surd) : ℝ := v.sign.factor * v.magnitude.toReal

theorem abs_toReal (v : Surd) : |v.toReal| = v.magnitude.toReal := by
  rw [toReal, abs_mul, Sign.abs_factor, one_mul, abs_of_nonneg v.magnitude.toReal_nonneg]

theorem toReal_eq_zero_iff (v : Surd) : v.toReal = 0 ↔ v.isZero = true := by
  rw [← abs_eq_zero, abs_toReal, Magnitude.toReal_eq_zero_iff, isZero]

theorem isZero_eq_false_iff (v : Surd) : v.isZero = false ↔ v.toReal ≠ 0 := by
  rw [← Bool.not_eq_true, ← v.toReal_eq_zero_iff]

theorem sign_eq (v : Surd) (h : v.isZero = false) :
    v.sign = if v.toReal < 0 then .negative else .positive := by
  have hpos := v.magnitude.toReal_pos_iff.mpr h
  obtain ⟨s, x⟩ := v
  cases s
  · simp [toReal, Sign.factor, hpos.le]
  · simpa [toReal, Sign.factor] using hpos

theorem applyTo_ofInt_natAbs (n : ℤ) : (Sign.ofInt n).applyTo n.natAbs = n := by
  unfold Sign.ofInt
  split_ifs <;> simp only [Sign.applyTo] <;> omega

theorem factor_ofInt_mul_natAbs (n : ℤ) : ((Sign.ofInt n).factor : ℝ) * (n.natAbs : ℝ) = n := by
  rw [← Int.cast_natCast, ← Int.cast_mul, ← Sign.applyTo_eq, applyTo_ofInt_natAbs]

@[simp] theorem toReal_ofRat (q : ℚ) : (ofRat q).toReal = q := by
  have hden : (q.den : ℝ) ≠ 0 := by exact_mod_cast q.den_nz
  have hcast : (q : ℝ) = q.num / q.den := by exact_mod_cast (Rat.num_div_den q).symm
  rw [toReal, ofRat, Magnitude.toReal_ofFraction, hcast, ← mul_div_assoc, factor_ofInt_mul_natAbs]

theorem isZero_ofRat {q : ℚ} (hq : q ≠ 0) : (ofRat q).isZero = false := by
  simpa [isZero_eq_false_iff] using hq

@[simp] theorem toReal_ofInt (n : ℤ) : (ofInt n).toReal = n := by
  rw [toReal, ofInt, Magnitude.ofNat, Magnitude.toReal_ofFraction, Nat.cast_one, div_one,
    factor_ofInt_mul_natAbs]

end Exact.Surd
end HartFloat
