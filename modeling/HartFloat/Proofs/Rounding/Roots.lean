import HartFloat.Proofs.Rounding.Accuracy

/-!
# Rounding square roots

In a format whose exponents reach further than its significands, the square root of a positive
finite value lies between the least normal number and the largest finite value, and so does that of
an inverse of such a value. The root never lies in the middle between two finite values: it would be
an odd multiple of half a spacing, and the significand of its square would be a multiple of that odd
number, which therefore would fit a significand itself. The rounded root can for this reason be told
from others by comparing squares with the number under the root, without a tie.
-/
namespace HartFloat.Format

variable {F : Format} {c : Context} {a b q r s : ℝ} {e : ℤ} {n : ℕ}

/-- The number is not below the least normal one and not beyond the largest finite value. -/
structure InNormalRange (F : Format) (r : ℝ) : Prop where
  lower : 2 ^ F.minExponent ≤ r
  upper : r ≤ F.largest

/-- A positive finite value, or the inverse of one. -/
structure IsRadicand (F : Format) (q : ℝ) : Prop where
  pos : 0 < q
  mem : q ∈ F.finiteValues ∨ q⁻¹ ∈ F.finiteValues

theorem InNormalRange.pos (hr : F.InNormalRange r) : 0 < r :=
  lt_of_lt_of_le (by positivity) hr.lower

theorem InNormalRange.not_overflows (hr : F.InNormalRange r) (mode : RoundingMode) :
    ¬F.Overflows mode r := fun ho => by
  have hlt := ho.largest_lt_abs
  rw [abs_of_pos hr.pos] at hlt
  exact hlt.not_ge hr.upper

/-- Whatever the two modes for tiny results are, nothing but inexact is raised. -/
theorem InNormalRange.flags_eq (hr : F.InNormalRange r) {y : Pattern F} {f : Flags}
    (hf : F.Raises c r y f) : f = Flags.when f.inexact Flags.nx := by
  refine hf.eq_when_inexact (Bool.eq_false_iff.mpr fun ho => ?_)
    (Bool.eq_false_iff.mpr fun hu => ?_)
  · exact hr.not_overflows c.mode (hf.overflow.mp ho)
  · obtain ⟨-, hsmall, -⟩ := hf.underflow.mp hu
    rw [abs_of_pos hr.pos] at hsmall
    exact hsmall.not_ge hr.lower

theorem InNormalRange.sqrt (hlo : 2 ^ (2 * F.minExponent) ≤ q)
    (hhi : q ≤ 2 ^ (2 * F.maxExponent)) : F.InNormalRange √q := by
  have hsq (e : ℤ) : (2 : ℝ) ^ (2 * e) = (2 ^ e) ^ 2 := by
    rw [two_mul, zpow_add₀ two_ne_zero, pow_two]
  rw [hsq] at hlo hhi
  exact ⟨Real.le_sqrt_of_sq_le hlo,
    (Real.sqrt_le_left (by positivity) |>.mpr hhi).trans two_zpow_le_largest⟩

/-- The exponents reach far enough for the roots of subnormal values and of their inverses. -/
theorem IsRadicand.inNormalRange_sqrt (hq : F.IsRadicand q) (h : F.Regular)
    (hwide : F.fractionWidth + 1 < F.bias) : F.InNormalRange √q := by
  have hmax := h.maxExponent_eq
  have hfraction := h.one_le_fractionWidth
  -- Only the lower bound of a value and the upper bound of an inverse need the number of places.
  rcases hq.mem with hmem | hmem
  · have hlo := spacing_minExponent_le_abs h hmem hq.pos.ne'
    have hhi := (abs_lt_two_zpow_of_mem h hmem).le
    rw [abs_of_pos hq.pos] at hlo hhi
    rw [spacing] at hlo
    refine .sqrt (le_trans ?_ hlo) (hhi.trans ?_)
    · exact zpow_le_zpow_right₀ one_le_two (by unfold minExponent; omega)
    · exact zpow_le_zpow_right₀ one_le_two (by omega)
  · have hlo := spacing_minExponent_le_abs h hmem (inv_pos.mpr hq.pos).ne'
    have hhi := (abs_lt_two_zpow_of_mem h hmem).le
    rw [abs_of_pos (inv_pos.mpr hq.pos)] at hlo hhi
    rw [spacing, le_inv_comm₀ (by positivity) hq.pos, ← zpow_neg] at hlo
    rw [inv_le_comm₀ hq.pos (by positivity), ← zpow_neg] at hhi
    refine .sqrt (le_trans ?_ hhi) (hlo.trans ?_)
    · exact zpow_le_zpow_right₀ one_le_two (by unfold minExponent; omega)
    · exact zpow_le_zpow_right₀ one_le_two (by unfold minExponent; omega)

theorem dvd_of_odd {m k : ℕ} {x y : ℤ} (hn : Odd n)
    (heq : (n * m : ℝ) * 2 ^ x = k * 2 ^ y) : n ∣ k := by
  have hpow (x y : ℤ) : (2 : ℝ) ^ (x - y).toNat * 2 ^ y = 2 ^ max x y := by
    rw [← zpow_natCast, ← zpow_add₀ two_ne_zero]
    congr 1
    omega
  have hreal : (n * m : ℝ) * 2 ^ (x - y).toNat = k * 2 ^ (y - x).toNat := by
    refine mul_right_cancel₀ (zpow_ne_zero (x + y) (two_ne_zero' ℝ)) ?_
    rw [zpow_add₀ two_ne_zero]
    calc (n * m : ℝ) * 2 ^ (x - y).toNat * (2 ^ x * 2 ^ y)
        = (n * m : ℝ) * 2 ^ x * (2 ^ (x - y).toNat * 2 ^ y) := by ring
      _ = k * 2 ^ y * (2 ^ (y - x).toNat * 2 ^ x) := by rw [heq, hpow, hpow, max_comm]
      _ = k * 2 ^ (y - x).toNat * (2 ^ x * 2 ^ y) := by ring
  have hnat : n * m * 2 ^ (x - y).toNat = k * 2 ^ (y - x).toNat := by exact_mod_cast hreal
  have hdvd : n ∣ k * 2 ^ (y - x).toNat := hnat ▸ (Nat.dvd_mul_right n m).mul_right _
  exact ((Nat.coprime_two_right.mpr hn).pow_right _).dvd_of_dvd_mul_right hdvd

theorem exists_significand_of_pos (h : F.Regular) (hr : r ∈ F.finiteValues) (hpos : 0 < r) :
    ∃ (k : ℕ) (i : ℤ), k ≠ 0 ∧ k < 2 * F.unit ∧ r = k * F.spacing i := by
  obtain ⟨s, k, i, hk, -, -, hvalue⟩ := exists_of_mem_finiteValues h hr
  have habs : r = k * F.spacing i := by
    rw [← abs_of_pos hpos, hvalue, abs_mul, abs_mul, Sign.abs_factor, one_mul, Nat.abs_cast,
      abs_of_pos spacing_pos]
  refine ⟨k, i, ?_, hk, habs⟩
  rintro rfl
  rw [habs, Nat.cast_zero, zero_mul] at hpos
  exact lt_irrefl _ hpos

/-- An odd number of units whose square is a finite value or the inverse of one fits a
significand. -/
theorem IsRadicand.lt_two_unit_of_odd (hq : F.IsRadicand ((n * F.spacing e) ^ 2)) (h : F.Regular)
    (hn : Odd n) : n < 2 * F.unit := by
  have hu := F.unit_pos
  have hsquare : (n * F.spacing e) ^ 2 = (n * n : ℝ) * 2 ^ (2 * (e - F.fractionWidth)) := by
    rw [mul_pow, spacing, two_mul, zpow_add₀ two_ne_zero]
    ring
  rw [hsquare] at hq
  rcases hq.mem with hmem | hmem
  · obtain ⟨k, i, hne, hk, hvalue⟩ := exists_significand_of_pos h hmem hq.pos
    have hdvd := Nat.le_of_dvd (Nat.pos_of_ne_zero hne) (dvd_of_odd hn hvalue)
    exact hdvd.trans_lt hk
  · obtain ⟨k, i, -, -, hvalue⟩ := exists_significand_of_pos h hmem (inv_pos.mpr hq.pos)
    -- The product of the square and its inverse is one, which only an odd divisor one divides.
    have hone : (n * (n * k : ℕ) : ℝ) * 2 ^ (2 * (e - F.fractionWidth) + (i - F.fractionWidth)) =
        (1 : ℕ) * 2 ^ (0 : ℤ) := by
      rw [zpow_add₀ two_ne_zero, zpow_zero, mul_one, Nat.cast_one, ← mul_inv_cancel₀ hq.pos.ne',
        hvalue, spacing]
      push_cast
      ring
    have hdvd := Nat.le_of_dvd one_pos (dvd_of_odd hn hone)
    omega

/-- In the normal range the size of the units does not matter, as long as their number fits. -/
theorem mem_finiteValues_of_lt_two_unit (h : F.Regular) (hn : n < 2 * F.unit)
    (hrange : F.InNormalRange (n * F.spacing e)) : n * F.spacing e ∈ F.finiteValues := by
  obtain ⟨hlo, hhi⟩ := hrange
  have hmin : F.minExponent ≤ e := by
    refine Int.lt_add_one_iff.mp ((zpow_lt_zpow_iff_right₀ (one_lt_two (α := ℝ))).mp ?_)
    rw [← two_unit_mul_spacing]
    exact hlo.trans_lt (mul_lt_mul_of_pos_right (by exact_mod_cast hn) spacing_pos)
  rcases le_or_gt e F.maxExponent with hmax | hmax
  · simpa [Sign.factor] using significand_mem_finiteValues h .positive hn hmin hmax
  · obtain ⟨d, rfl⟩ := Int.le.dest hmax.le
    have hlast := significand_mem_finiteValues h .positive hn h.minExponent_le_maxExponent le_rfl
    rw [Sign.factor, Int.cast_one, one_mul] at hlast
    have hshift : n * F.spacing (F.maxExponent + d) = 2 ^ d * (n * F.spacing F.maxExponent) := by
      rw [spacing, spacing, add_sub_right_comm, zpow_add₀ two_ne_zero, zpow_natCast]
      ring
    rw [hshift] at hhi ⊢
    refine two_pow_mul_mem_finiteValues h hlast d ?_
    rwa [abs_of_nonneg (hshift ▸ mul_nonneg n.cast_nonneg spacing_pos.le)]

theorem exists_odd_mul_spacing (h : F.Regular) (ha : a ∈ F.finiteValues) (hb : b ∈ F.finiteValues)
    (hpos : 0 < (a + b) / 2) : ∃ n e, Odd n ∧ (a + b) / 2 = (n : ℕ) * F.spacing e := by
  obtain ⟨j, rfl⟩ := exists_multiple_of_mem_finiteValues h ha
  obtain ⟨k, rfl⟩ := exists_multiple_of_mem_finiteValues h hb
  have hsum : (j * F.spacing F.minExponent + k * F.spacing F.minExponent) / 2 =
      (j + k : ℤ) * F.spacing (F.minExponent - 1) := by
    have hspacing := spacing_add_one (F := F) (F.minExponent - 1)
    rw [sub_add_cancel] at hspacing
    rw [hspacing]
    push_cast
    ring
  rw [hsum] at hpos ⊢
  have hjk : 0 < j + k := by exact_mod_cast pos_of_mul_pos_left hpos spacing_pos.le
  obtain ⟨i, n, hodd, hi⟩ := Nat.exists_eq_two_pow_mul_odd (n := (j + k).toNat) (by omega)
  refine ⟨n, F.minExponent - 1 + i, hodd, ?_⟩
  rw [← Int.toNat_of_nonneg hjk.le, hi, spacing, spacing, add_sub_right_comm,
    zpow_add₀ two_ne_zero, zpow_natCast]
  push_cast
  ring

/-- A root in the middle between two finite values is a finite value itself. -/
theorem IsRadicand.sqrt_mem_of_eq_middle (hq : F.IsRadicand q) (h : F.Regular)
    (hrange : F.InNormalRange √q) (ha : a ∈ F.finiteValues) (hb : b ∈ F.finiteValues)
    (hmiddle : √q = (a + b) / 2) : √q ∈ F.finiteValues := by
  obtain ⟨n, e, hodd, heq⟩ := exists_odd_mul_spacing h ha hb (hmiddle ▸ Real.sqrt_pos.mpr hq.pos)
  rw [hmiddle, heq] at hrange ⊢
  have hsquare : (n * F.spacing e) ^ 2 = q := by
    rw [← heq, ← hmiddle, Real.sq_sqrt hq.pos.le]
  exact mem_finiteValues_of_lt_two_unit h ((hsquare ▸ hq).lt_two_unit_of_odd h hodd) hrange

/-- The pattern stands for the square root rounded in the given direction, as the squares of
candidates tell: the other finite values lie beyond the root, or at least the middles between these
and the value of the pattern do. -/
def RoundsRoot (F : Format) (mode : RoundingMode) (q : ℚ) (y : Pattern F) : Prop :=
  y.HasFiniteFields ∧ 0 ≤ y.fieldValue ∧
    match mode with
    | .towardNegative | .towardZero => y.fieldValue ^ 2 ≤ q ∧
      ∀ z : Pattern F, z.HasFiniteFields → y.fieldValue < z.fieldValue → q < z.fieldValue ^ 2
    | .towardPositive => q ≤ y.fieldValue ^ 2 ∧
      ∀ z : Pattern F, z.HasFiniteFields → 0 ≤ z.fieldValue → z.fieldValue < y.fieldValue →
        z.fieldValue ^ 2 < q
    | .tiesToEven | .tiesToAway => ∀ z : Pattern F, z.HasFiniteFields → 0 ≤ z.fieldValue →
      (y.fieldValue < z.fieldValue → q < ((y.fieldValue + z.fieldValue) / 2) ^ 2) ∧
      (z.fieldValue < y.fieldValue → ((y.fieldValue + z.fieldValue) / 2) ^ 2 < q)

theorem mul_nonneg_of_abs_sub_le (hle : |a - s| ≤ |b - s|) : 0 ≤ (b - a) * ((a + b) / 2 - s) := by
  rw [← sq_le_sq] at hle
  linarith [show (b - s) ^ 2 - (a - s) ^ 2 = 2 * ((b - a) * ((a + b) / 2 - s)) by ring]

section

variable {q : ℚ} {mode : RoundingMode} {y z : Pattern F} (h : F.Regular)
  (hnonneg : 0 ≤ y.fieldValue)

include h hnonneg

theorem roundsRoot_of_down (hq : 0 ≤ q) (hval : (y.fieldValue : ℝ) =
      F.roundToSpacing .towardNegative (F.roundingExponent √(q : ℝ)) √(q : ℝ)) :
    y.fieldValue ^ 2 ≤ q ∧ ∀ z : Pattern F, z.HasFiniteFields →
      y.fieldValue < z.fieldValue → q < z.fieldValue ^ 2 := by
  have hynonneg : (0 : ℝ) ≤ y.fieldValue := by exact_mod_cast hnonneg
  refine ⟨?_, fun z hz hlt => ?_⟩
  · have hle := hval ▸ roundToSpacing_towardNegative_le _ √(q : ℝ)
    rw [Real.le_sqrt hynonneg (by exact_mod_cast hq)] at hle
    exact_mod_cast hle
  · have hreal : (y.fieldValue : ℝ) < z.fieldValue := by exact_mod_cast hlt
    have hsqrt : √(q : ℝ) < z.fieldValue := not_le.mp fun hle =>
      hreal.not_ge (hval ▸ le_roundToSpacing_towardNegative h ⟨z, hz, rfl⟩ hle)
    rw [Real.sqrt_lt' (hynonneg.trans_lt hreal)] at hsqrt
    exact_mod_cast hsqrt

theorem roundsRoot_of_up (hval : (y.fieldValue : ℝ) =
      F.roundToSpacing .towardPositive (F.roundingExponent √(q : ℝ)) √(q : ℝ)) :
    q ≤ y.fieldValue ^ 2 ∧ ∀ z : Pattern F, z.HasFiniteFields → 0 ≤ z.fieldValue →
      z.fieldValue < y.fieldValue → z.fieldValue ^ 2 < q := by
  refine ⟨?_, fun z hz hznonneg hlt => ?_⟩
  · have hle := hval ▸ le_roundToSpacing_towardPositive _ √(q : ℝ)
    rw [Real.sqrt_le_left (by exact_mod_cast hnonneg)] at hle
    exact_mod_cast hle
  · have hreal : (z.fieldValue : ℝ) < y.fieldValue := by exact_mod_cast hlt
    have hsqrt : (z.fieldValue : ℝ) < √(q : ℝ) := not_le.mp fun hle =>
      hreal.not_ge (hval ▸ roundToSpacing_towardPositive_le h ⟨z, hz, rfl⟩ hle)
    rw [Real.lt_sqrt (by exact_mod_cast hznonneg)] at hsqrt
    exact_mod_cast hsqrt

variable (hq : F.IsRadicand q) (hrange : F.InNormalRange √(q : ℝ)) (hy : y.HasFiniteFields)
  (hval : (y.fieldValue : ℝ) = F.roundToSpacing mode (F.roundingExponent √(q : ℝ)) √(q : ℝ))

include hq hrange hy hval

omit hnonneg in
/-- The root lies on the nearer side of the middle between the value to which it is rounded and
another one, and not in the middle. -/
theorem middle_side (hmode : mode.isNearest = true) (hz : z.HasFiniteFields)
    (hne : (y.fieldValue : ℝ) ≠ z.fieldValue) :
    0 < (z.fieldValue - y.fieldValue : ℝ) *
      ((y.fieldValue + z.fieldValue : ℝ) / 2 - √(q : ℝ)) := by
  have hnear {r : ℝ} (hr : r ∈ F.finiteValues) : |y.fieldValue - √(q : ℝ)| ≤ |r - √(q : ℝ)| :=
    hval ▸ abs_roundToSpacing_sub_le h hmode hr
  refine lt_of_le_of_ne' (mul_nonneg_of_abs_sub_le (hnear ⟨z, hz, rfl⟩))
    (mul_ne_zero (sub_ne_zero.mpr hne.symm) fun hmiddle => ?_)
  have hroot := (sub_eq_zero.mp hmiddle).symm
  have hexact := hnear (hq.sqrt_mem_of_eq_middle h hrange ⟨y, hy, rfl⟩ ⟨z, hz, rfl⟩ hroot)
  rw [sub_self, abs_zero, abs_nonpos_iff, sub_eq_zero] at hexact
  exact hne (by linarith)

theorem roundsRoot_of_isNearest (hmode : mode.isNearest = true) (hz : z.HasFiniteFields)
    (hznonneg : 0 ≤ z.fieldValue) :
    (y.fieldValue < z.fieldValue → q < ((y.fieldValue + z.fieldValue) / 2) ^ 2) ∧
      (z.fieldValue < y.fieldValue → ((y.fieldValue + z.fieldValue) / 2) ^ 2 < q) := by
  constructor
  · intro hlt
    have hreal : (y.fieldValue : ℝ) < z.fieldValue := by exact_mod_cast hlt
    have hside := middle_side h hq hrange hy hval hmode hz hreal.ne
    have hmiddle : 0 < (y.fieldValue + z.fieldValue) / 2 := by linarith
    have hsqrt := sub_pos.mp (pos_of_mul_pos_right hside (sub_pos.mpr hreal).le)
    rw [Real.sqrt_lt' (by exact_mod_cast hmiddle)] at hsqrt
    exact_mod_cast hsqrt
  · intro hlt
    have hreal : (z.fieldValue : ℝ) < y.fieldValue := by exact_mod_cast hlt
    have hside := middle_side h hq hrange hy hval hmode hz hreal.ne'
    have hmiddle : 0 ≤ (y.fieldValue + z.fieldValue) / 2 := by linarith
    have hsqrt := sub_neg.mp (neg_of_mul_pos_right hside (sub_neg.mpr hreal).le)
    rw [Real.lt_sqrt (by exact_mod_cast hmiddle)] at hsqrt
    exact_mod_cast hsqrt

theorem roundsRoot : F.RoundsRoot mode q y := by
  have hqnonneg : 0 ≤ q := by exact_mod_cast hq.pos.le
  refine ⟨hy, hnonneg, ?_⟩
  cases mode with
  | towardNegative => exact roundsRoot_of_down h hnonneg hqnonneg hval
  | towardZero =>
    refine roundsRoot_of_down h hnonneg hqnonneg ?_
    rw [← abs_of_nonneg (show (0 : ℝ) ≤ y.fieldValue by exact_mod_cast hnonneg), hval,
      abs_roundToSpacing_towardZero, abs_of_nonneg (Real.sqrt_nonneg _)]
  | towardPositive => exact roundsRoot_of_up h hnonneg hval
  | tiesToEven | tiesToAway =>
    exact fun z hz => roundsRoot_of_isNearest h hnonneg hq hrange hy hval rfl hz

end

end HartFloat.Format
