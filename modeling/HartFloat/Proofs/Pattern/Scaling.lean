import HartFloat.Environment
import HartFloat.Proofs.Arithmetic.Exceptions

/-!
# Scaling by powers of two

A number scaled by a power of two is rounded once. The exponent of the power is cut to a limit
first, which does not show in the result: at the limit every number of the format has left the range
on one side or the other, and there a number is rounded by its sign and the direction alone. Beyond
the last binade it overflows. Below half of the least distance between values it lies strictly
between zero and the middle to the next value, however small it is.
-/
namespace HartFloat

namespace Format

open Exact

variable {F : Format} {c : Context} {mode : RoundingMode} {v w : Surd} {r : ℝ}

theorem overflows_of_two_zpow_le (hr : 2 ^ (F.maxExponent + 1) ≤ |r|) : F.Overflows mode r := by
  have hpos : 0 < |r| := lt_of_lt_of_le (by positivity) hr
  have hlog := (Int.zpow_le_iff_le_log one_lt_two hpos).mp (by exact_mod_cast hr)
  exact overflows_of_lt_log (abs_pos.mp hpos) (by omega)

/-- The number is nearer to zero than to any other value, but is not zero. -/
structure Vanishes (F : Format) (r : ℝ) : Prop where
  ne_zero : r ≠ 0
  abs_lt : |r| < F.spacing F.minExponent / 2

namespace Vanishes

section

variable (hv : F.Vanishes v.toReal)

include hv

theorem isZero_eq_false : v.isZero = false := v.isZero_eq_false_iff.mpr hv.ne_zero

theorem floorLog2_lt : v.magnitude.floorLog2 < F.minExponent := by
  rw [floorLog2_eq hv.isZero_eq_false, log_lt_minExponent_iff hv.ne_zero, ← unit_mul_spacing]
  calc |v.toReal| < F.spacing F.minExponent / 2 := hv.abs_lt
    _ ≤ F.spacing F.minExponent := half_le_self spacing_pos.le
    _ ≤ F.unit * F.spacing F.minExponent :=
      le_mul_of_one_le_left spacing_pos.le (by exact_mod_cast F.unit_pos)

theorem floor_excess :
    (v.magnitude.scale (F.fractionWidth - F.minExponent)).floor = 0 ∧
      (v.magnitude.scale (F.fractionWidth - F.minExponent)).excess = .belowHalf := by
  set x := v.magnitude.scale (F.fractionWidth - F.minExponent)
  have hreal : x.toReal = |v.toReal| / F.spacing F.minExponent := by
    rw [← abs_toReal_div_spacing, abs_div_spacing]
  have hpos : 0 < x.toReal := by
    rw [hreal]
    exact div_pos (abs_pos.mpr hv.ne_zero) spacing_pos
  have hlt : x.toReal < 1 / 2 := by
    rw [hreal, div_lt_iff₀ spacing_pos]
    linarith [hv.abs_lt]
  have hfloor : x.floor = 0 := by
    have hone : (x.floor : ℝ) < (1 : ℕ) := by
      push_cast
      linarith [x.floor_le_toReal]
    exact Nat.lt_one_iff.mp (by exact_mod_cast hone)
  have hdescribes := x.excess_describes
  rw [hfloor, Nat.cast_zero, sub_zero] at hdescribes
  refine ⟨hfloor, ?_⟩
  cases hexcess : x.excess with
  | belowHalf => rfl
  | none =>
    rw [hexcess] at hdescribes
    exact absurd hdescribes hpos.ne'
  | half =>
    rw [hexcess, Excess.Describes] at hdescribes
    linarith
  | aboveHalf =>
    rw [hexcess, Excess.Describes] at hdescribes
    linarith [hdescribes.1]

theorem roundAt_eq (mode : RoundingMode) :
    F.roundAt mode v.sign v.magnitude F.minExponent =
      ⟨F.minExponent, (mode.isDirectedAway v.sign).toNat, true⟩ := by
  obtain ⟨hfloor, hexcess⟩ := hv.floor_excess
  have hlt : (mode.isDirectedAway v.sign).toNat < 2 * F.unit := by
    have := F.unit_pos
    have := Bool.toNat_le (mode.isDirectedAway v.sign)
    omega
  simp [roundAt, RoundingMode.roundToNat, RoundingMode.roundsUp, hfloor, hexcess, hlt]

/-- The direction chooses between zero and the least number of the sign, and either way there is
underflow. -/
theorem round_eq (h : F.Regular) (c : Context) :
    F.rounding c v =
      (Pattern.pack F v.sign 0 (c.mode.isDirectedAway v.sign).toNat, Flags.uf ∪ Flags.nx) := by
  have hzero := hv.isZero_eq_false
  have hlog := hv.floorLog2_lt
  have hrange := h.minExponent_le_maxExponent
  have hunit : (c.mode.isDirectedAway v.sign).toNat < F.unit := by
    have := h.one_lt_unit
    have := Bool.toNat_le (c.mode.isDirectedAway v.sign)
    omega
  have hrounded : F.rounded c.mode v =
      ⟨F.minExponent, (c.mode.isDirectedAway v.sign).toNat, true⟩ := by
    rw [rounded, max_eq_right hlog.le, hv.roundAt_eq]
  have htiny : F.isTiny c v.sign v.magnitude = true := by
    unfold isTiny
    cases c.tininess with
    | beforeRounding => rfl
    | afterRounding => simp [hv.roundAt_eq, hunit]
  have hflags : F.binadeFlags c v = Flags.uf ∪ Flags.nx := by
    simp [binadeFlags, underflows, hrounded, htiny, hlog, Flags.when]
  rw [rounding_of_floorLog2_le hzero h.signBit (by omega), hrounded, hflags,
    if_neg (not_lt.mpr hrange), Pattern.ofSignificand, if_pos hunit]

end

end Vanishes

section

open Pattern (scaleLimit clampScale)

variable {q : ℚ} (h : F.Regular) (hq : q ≠ 0) (hmem : (q : ℝ) ∈ F.finiteValues) {k : ℤ}

theorem sign_ofRat_mul_two_zpow (q : ℚ) (k : ℤ) :
    (Surd.ofRat (q * 2 ^ k)).sign = (Surd.ofRat q).sign := by
  have hpos : (0 : ℚ) < 2 ^ k := by positivity
  have hneg : q * 2 ^ k < 0 ↔ q < 0 := by simp [mul_neg_iff, hpos, hpos.not_gt]
  simp only [Surd.ofRat, Sign.ofInt, Rat.num_neg, hneg]

include h hq hmem

theorem overflows_of_scaleLimit_le (hk : scaleLimit F ≤ k) :
    F.Overflows mode ((q * 2 ^ k : ℚ) : ℝ) := by
  have hleast := spacing_minExponent_le_abs h hmem (by exact_mod_cast hq)
  have hmax := h.maxNormalExponent_eq
  have hpos : (0 : ℝ) < 2 ^ k := by positivity
  refine overflows_of_two_zpow_le ?_
  push_cast
  rw [abs_mul, abs_of_pos hpos]
  calc (2 : ℝ) ^ (F.maxExponent + 1)
      ≤ 2 ^ (F.minExponent - F.fractionWidth + k) := by
        refine zpow_le_zpow_right₀ one_le_two ?_
        rw [h.maxExponent_eq]
        unfold minExponent
        unfold scaleLimit at hk
        omega
    _ = F.spacing F.minExponent * 2 ^ k := zpow_add₀ two_ne_zero _ _
    _ ≤ |(q : ℝ)| * 2 ^ k := by gcongr

theorem vanishes_of_le_neg_scaleLimit (hk : k ≤ -scaleLimit F) :
    F.Vanishes ((q * 2 ^ k : ℚ) : ℝ) := by
  have hlargest := abs_lt_two_zpow_of_mem h hmem
  have hmax := h.maxNormalExponent_eq
  have hbias := h.bias_pos
  have hpos : (0 : ℝ) < 2 ^ k := by positivity
  refine ⟨by simp [hq, zpow_ne_zero], ?_⟩
  push_cast
  rw [abs_mul, abs_of_pos hpos]
  calc |(q : ℝ)| * 2 ^ k
      < 2 ^ (F.maxExponent + 1) * 2 ^ k := by gcongr
    _ = 2 ^ (F.maxExponent + 1 + k) := (zpow_add₀ two_ne_zero _ _).symm
    _ ≤ 2 ^ (F.minExponent - F.fractionWidth - 1) := by
        refine zpow_le_zpow_right₀ one_le_two ?_
        rw [h.maxExponent_eq]
        unfold minExponent
        unfold scaleLimit at hk
        omega
    _ = F.spacing F.minExponent / 2 := zpow_sub_one₀ two_ne_zero _

omit hq hmem in
/-- Scales that leave the range on the same side are as good as each other. -/
theorem roundingRat_scale_congr {i j : ℤ} (c : Context)
    (hout : (F.Overflows c.mode ((q * 2 ^ i : ℚ) : ℝ) ∧ F.Overflows c.mode ((q * 2 ^ j : ℚ) : ℝ)) ∨
      (F.Vanishes ((q * 2 ^ i : ℚ) : ℝ) ∧ F.Vanishes ((q * 2 ^ j : ℚ) : ℝ))) :
    F.roundingRat c (q * 2 ^ i) = F.roundingRat c (q * 2 ^ j) := by
  simp only [← Surd.toReal_ofRat] at hout
  rcases hout with ⟨hi, hj⟩ | ⟨hi, hj⟩
  · rw [roundingRat, roundingRat, rounding_of_overflows h hi, rounding_of_overflows h hj,
      sign_ofRat_mul_two_zpow, sign_ofRat_mul_two_zpow]
  · rw [roundingRat, roundingRat, hi.round_eq h, hj.round_eq h, sign_ofRat_mul_two_zpow,
      sign_ofRat_mul_two_zpow]

/-- A scale that is cut to the limit does not show in the result. -/
theorem roundingRat_scale_clamp (c : Context) (k : ℤ) :
    F.roundingRat c (q * 2 ^ clampScale F k) = F.roundingRat c (q * 2 ^ k) := by
  have hlimit : -scaleLimit F ≤ scaleLimit F := by
    have := h.maxNormalExponent_eq
    have := h.bias_pos
    unfold scaleLimit
    omega
  rw [clampScale]
  rcases le_total k (-scaleLimit F) with hlo | hlo
  · rw [max_eq_right hlo, min_eq_left hlimit]
    exact roundingRat_scale_congr h c (Or.inr ⟨vanishes_of_le_neg_scaleLimit h hq hmem le_rfl,
      vanishes_of_le_neg_scaleLimit h hq hmem hlo⟩)
  · rw [max_eq_left hlo]
    rcases le_total k (scaleLimit F) with hhi | hhi
    · rw [min_eq_left hhi]
    · rw [min_eq_right hhi]
      exact roundingRat_scale_congr h c (Or.inl ⟨overflows_of_scaleLimit_le h hq hmem le_rfl,
        overflows_of_scaleLimit_le h hq hmem hhi⟩)

end

end Format

namespace Pattern

variable {F : Format} {x : Pattern F}

theorem scaleB_eq (h : F.Regular) (hi : F.implicitLeadingBit = true) (hw : F.exponentWidth ≤ 63)
    (hx : x.HasFiniteFields) (hne : x.fieldValue ≠ 0) (c : Context) {scale : ℤ}
    (hscale : (clampScale F scale).natAbs < 2 ^ 64) :
    x.scaleB c scale = .ok (F.roundingRat c (x.fieldValue * 2 ^ scale)) := by
  have hnx : x.number? = some (.finite x.sign x.fieldValue) := if_pos hx
  obtain ⟨hxInf, hxZero, -, hxValue⟩ := number?_finite h hi hnx
  have hmem : (x.fieldValue : ℝ) ∈ F.finiteValues := ⟨x, hx, rfl⟩
  have hdemand : demandScale (clampScale F scale) = .ok () := if_pos hscale
  rw [← Format.roundingRat_scale_clamp h hne hmem c scale, ← Format.roundRat_eq hw]
  simp only [scaleB, isNaN_of_number? h hi hnx, hxInf, hxZero, hne, ratio_eq hw, hxValue, hdemand,
    binaryRat_eq, Int.cast_one, one_mul, decide_false, Bool.false_eq_true, if_false, Except.bind]

end Pattern

namespace Environment

open Pattern

/-- Where the exponents fit and the scale does once it is brought between the limits, scaling by a
power of two gives the pattern and the exceptions of rounding the scaled value. -/
theorem run_scaleB_eq {F : Format} (h : F.Regular) (hi : F.implicitLeadingBit = true)
    (hw : F.exponentWidth ≤ 63) (env : Environment) (mode? : Option RoundingMode) {x : Pattern F}
    (hx : x.HasFiniteFields) (hne : x.fieldValue ≠ 0) {scale : ℤ}
    (hscale : (clampScale F scale).natAbs < 2 ^ 64) :
    ∃ y f, env.run mode? (fun c => x.scaleB c scale) = .ok (y, env.raise f) ∧
      env.run mode? (fun c => F.roundRat c (x.fieldValue * 2 ^ scale)) = .ok (y, env.raise f) := by
  refine ⟨_, _, run_eq_ok_iff.mpr ⟨_, scaleB_eq h hi hw hx hne _ hscale, rfl⟩, ?_⟩
  exact run_eq_ok_iff.mpr ⟨_, Format.roundRat_eq hw _ _, rfl⟩

/-- With 64 bits of exponent the number one cannot be scaled, nor can it be scaled by 2 ^ 64 with
63 bits of exponent. -/
theorem scaling_one_may_fail :
    (¬∀ F : Format, F.Regular → F.implicitLeadingBit = true → ∀ (env : Environment)
      (mode? : Option RoundingMode) (x : Pattern F), x.HasFiniteFields → x.fieldValue ≠ 0 →
        ∀ scale : ℤ, ∃ y f, env.run mode? (fun c => x.scaleB c scale) = .ok (y, env.raise f)) ∧
    ¬∀ F : Format, F.Regular → F.implicitLeadingBit = true → F.exponentWidth ≤ 63 →
      ∀ (env : Environment) (mode? : Option RoundingMode) (x : Pattern F), x.HasFiniteFields →
        x.fieldValue ≠ 0 → ∀ scale : ℤ,
          ∃ y f, env.run mode? (fun c => x.scaleB c scale) = .ok (y, env.raise f) := by
  constructor
  · intro h
    let one := pack .wide .positive Format.wide.bias 0
    have hone : one.HasFiniteFields ∧ one.fieldValue ≠ 0 := by decide +kernel
    have hscale : (default : Environment).run none (fun c => one.scaleB c 0) =
        .error .exponentTooWide := by
      decide +kernel
    obtain ⟨y, f, hrun⟩ :=
      h .wide Format.regular_wide rfl default none one hone.1 hone.2 0
    rw [hscale] at hrun
    cases hrun
  · intro h
    let F : Format := { exponentWidth := 63, mantissaWidth := 2 }
    let one := pack F .positive F.bias 0
    have hone : one.HasFiniteFields ∧ one.fieldValue ≠ 0 := by decide +kernel
    have hscale : (default : Environment).run none (fun c => one.scaleB c (2 ^ 64)) =
        .error .scaleTooWide := by
      decide +kernel
    obtain ⟨y, f, hrun⟩ :=
      h F ⟨rfl, by decide, by decide⟩ rfl (by decide) default none one hone.1 hone.2 (2 ^ 64)
    rw [hscale] at hrun
    cases hrun

/-- The largest half-precision number, scaled far below the least one. -/
theorem run_scaleB_eq_half :
    let F : Format := { exponentWidth := 5, mantissaWidth := 10 }
    let x := pack F .negative 30 1023
    F.Regular ∧ F.exponentWidth ≤ 63 ∧ x.HasFiniteFields ∧ x.fieldValue ≠ 0 ∧
      (clampScale F (-1000000)).natAbs < 2 ^ 64 ∧ ∃ y f,
        (default : Environment).run (some .towardNegative) (fun c => x.scaleB c (-1000000)) =
          .ok (y, raise default f) ∧
        (default : Environment).run (some .towardNegative)
          (fun c => F.roundRat c (x.fieldValue * 2 ^ (-1000000 : ℤ))) =
            .ok (y, raise default f) := by
  intro F x
  have h : F.Regular := ⟨rfl, by decide, by decide⟩
  have hw : F.exponentWidth ≤ 63 := by decide
  have hx : x.HasFiniteFields := by decide +kernel
  have hne : x.fieldValue ≠ 0 := by decide +kernel
  have hscale : (clampScale F (-1000000)).natAbs < 2 ^ 64 := by decide +kernel
  exact ⟨h, hw, hx, hne, hscale,
    run_scaleB_eq h rfl hw default (some .towardNegative) hx hne hscale⟩

/-- Its result is the negative number next to zero. -/
example :
    let F : Format := { exponentWidth := 5, mantissaWidth := 10 }
    (pack F .negative 30 1023).scaleB { mode := .towardNegative } (-1000000) =
      .ok (pack F .negative 0 1, Flags.uf ∪ Flags.nx) := by
  decide +kernel

end Environment
end HartFloat
