import HartFloat.Proofs.Pattern.Narrow
import HartFloat.Proofs.Rounding.Result
import HartFloat.Environment

/-!
# Correct rounding

Rounding to a multiple of the spacing chooses the value that the direction asks for, and beyond the
largest finite value so does the choice between that value and infinity. Both together give that
every exact value is rounded correctly, in every regular format and direction.
-/
namespace HartFloat

namespace Format

open Exact

variable {F : Format} {c : Context} {mode : RoundingMode} {v r : ℝ} {y : Pattern F}

theorem isGreatest_coe (hr : r ∈ F.finiteValues) (hle : r ≤ v)
    (hmax : ∀ t ∈ F.finiteValues, t ≤ v → t ≤ r) :
    IsGreatest {w | w ∈ F.extendedValues ∧ w ≤ (v : EReal)} r := by
  refine ⟨⟨Or.inr (Or.inr ⟨r, hr, rfl⟩), by exact_mod_cast hle⟩, ?_⟩
  rintro w ⟨rfl | rfl | ⟨t, ht, rfl⟩, hw⟩
  · exact bot_le
  · exact absurd hw (not_le.mpr (EReal.coe_lt_top v))
  · exact_mod_cast hmax t ht (by exact_mod_cast hw)

theorem isLeast_coe (hr : r ∈ F.finiteValues) (hle : v ≤ r)
    (hmin : ∀ t ∈ F.finiteValues, v ≤ t → r ≤ t) :
    IsLeast {w | w ∈ F.extendedValues ∧ (v : EReal) ≤ w} r := by
  refine ⟨⟨Or.inr (Or.inr ⟨r, hr, rfl⟩), by exact_mod_cast hle⟩, ?_⟩
  rintro w ⟨rfl | rfl | ⟨t, ht, rfl⟩, hw⟩
  · exact absurd hw (not_le.mpr (EReal.bot_lt_coe v))
  · exact le_top
  · exact_mod_cast hmin t ht (by exact_mod_cast hw)

theorem isGreatest_bot (hv : ∀ t ∈ F.finiteValues, v < t) :
    IsGreatest {w | w ∈ F.extendedValues ∧ w ≤ (v : EReal)} ⊥ := by
  refine ⟨⟨Or.inl rfl, bot_le⟩, ?_⟩
  rintro w ⟨rfl | rfl | ⟨t, ht, rfl⟩, hw⟩
  · exact le_rfl
  · exact absurd hw (not_le.mpr (EReal.coe_lt_top v))
  · exact absurd (by exact_mod_cast hw) (not_le.mpr (hv t ht))

theorem isLeast_top (hv : ∀ t ∈ F.finiteValues, t < v) :
    IsLeast {w | w ∈ F.extendedValues ∧ (v : EReal) ≤ w} ⊤ := by
  refine ⟨⟨Or.inr (Or.inl rfl), le_top⟩, ?_⟩
  rintro w ⟨rfl | rfl | ⟨t, ht, rfl⟩, hw⟩
  · exact absurd hw (not_le.mpr (EReal.bot_lt_coe v))
  · exact le_rfl
  · exact absurd (by exact_mod_cast hw) (not_le.mpr (hv t ht))

theorem extended?_of_finite (hy : y.HasFiniteFields) :
    y.extended? = some ((y.fieldValue : ℝ) : EReal) := if_pos hy

section

variable (h : F.Regular) (hy : y.HasFiniteFields)
  (hval : (y.fieldValue : ℝ) = F.roundToSpacing mode (F.roundingExponent v) v)

include h hy hval

theorem roundsToNearest_of_not_overflows (hmode : mode.isNearest = true)
    (ho : ¬F.Overflows mode v) {tie : ℝ → Prop}
    (htie : ∀ j : ℤ, |j - v / F.spacing (F.roundingExponent v)| =
        |mode.roundReal (v / F.spacing (F.roundingExponent v)) -
          v / F.spacing (F.roundingExponent v)| →
      j ≠ mode.roundReal (v / F.spacing (F.roundingExponent v)) →
      tie (j * F.spacing (F.roundingExponent v))) :
    F.RoundsToNearest v y tie := by
  rw [overflows_iff_overflowThreshold_le hmode] at ho
  rw [RoundsToNearest, if_neg ho, hval]
  refine ⟨hy, fun t ht => ⟨abs_roundToSpacing_sub_le h hmode ht, fun heq hne => ?_⟩⟩
  obtain ⟨j, rfl, hj⟩ := exists_tie h hmode ht heq
  refine htie j hj ?_
  rintro rfl
  exact hne rfl

theorem rounds_of_not_overflows (ho : ¬F.Overflows mode v)
    (heven : Even (mode.roundReal (v / F.spacing (F.roundingExponent v))) → Even y.mantissa) :
    F.Rounds mode v y := by
  have hmem : (y.fieldValue : ℝ) ∈ F.finiteValues := ⟨y, hy, rfl⟩
  cases mode with
  | towardNegative =>
    refine ⟨_, extended?_of_finite hy, isGreatest_coe hmem ?_ fun t ht hle => ?_⟩
    · rw [hval]
      exact roundToSpacing_towardNegative_le _ v
    · rw [hval]
      exact le_roundToSpacing_towardNegative h ht hle
  | towardPositive =>
    refine ⟨_, extended?_of_finite hy, isLeast_coe hmem ?_ fun t ht hle => ?_⟩
    · rw [hval]
      exact le_roundToSpacing_towardPositive _ v
    · rw [hval]
      exact roundToSpacing_towardPositive_le h ht hle
  | towardZero =>
    refine ⟨hy, ⟨⟨_, hmem, rfl⟩, ?_⟩, ?_⟩
    · rw [hval, abs_roundToSpacing_towardZero]
      exact roundToSpacing_towardNegative_le _ |v|
    · rintro a ⟨⟨t, ht, rfl⟩, hle⟩
      rw [hval]
      exact abs_le_abs_roundToSpacing_towardZero h ht hle
  | tiesToEven =>
    refine roundsToNearest_of_not_overflows h hy hval rfl ho fun j hj hne => ?_
    exact heven (RoundingMode.even_roundReal_of_tie hj hne)
  | tiesToAway =>
    refine roundsToNearest_of_not_overflows h hy hval rfl ho fun j hj hne => ?_
    have hlt := RoundingMode.abs_lt_abs_roundReal_of_tie hj hne
    rw [hval, abs_roundToSpacing, abs_mul, abs_of_pos spacing_pos, ← Int.cast_abs]
    exact mul_lt_mul_of_pos_right (by exact_mod_cast hlt) spacing_pos

end

theorem Overflows.abs_lt (h : F.Regular) (ho : F.Overflows mode v) (hr : r ∈ F.finiteValues) :
    |r| < |v| := (abs_le_largest h hr).trans_lt ho.largest_lt_abs

theorem Overflows.rounds_infinity (h : F.Regular) (ho : F.Overflows mode v) {s : Sign}
    (hs : s = if v < 0 then .negative else .positive) (hmode : mode.overflowsToInfinity s = true)
    (hy : y.extended? = some s.infinity) : F.Rounds mode v y := by
  have hbound : mode.isNearest = true → F.overflowThreshold ≤ |v| := fun hnear =>
    (overflows_iff_overflowThreshold_le hnear).mp ho
  rcases lt_or_ge v 0 with hv | hv
  · rw [if_pos hv] at hs
    subst hs
    have hbelow (t : ℝ) (ht : t ∈ F.finiteValues) : v < t := by
      have hlt := ho.abs_lt h ht
      rw [abs_of_neg hv] at hlt
      linarith [neg_abs_le t]
    cases mode with
    | towardNegative => exact ⟨⊥, hy, isGreatest_bot hbelow⟩
    | tiesToEven | tiesToAway =>
      rw [Rounds, RoundsToNearest, if_pos (hbound rfl), if_neg hv.not_ge]
      exact hy
    | towardZero | towardPositive => cases hmode
  · rw [if_neg hv.not_gt] at hs
    subst hs
    have habove (t : ℝ) (ht : t ∈ F.finiteValues) : t < v := by
      have hlt := ho.abs_lt h ht
      rw [abs_of_nonneg hv] at hlt
      exact (le_abs_self t).trans_lt hlt
    cases mode with
    | towardPositive => exact ⟨⊤, hy, isLeast_top habove⟩
    | tiesToEven | tiesToAway =>
      rw [Rounds, RoundsToNearest, if_pos (hbound rfl), if_pos hv]
      exact hy
    | towardZero | towardNegative => cases hmode

theorem Overflows.rounds_largest (h : F.Regular) (ho : F.Overflows mode v) {s : Sign}
    (hs : s = if v < 0 then .negative else .positive) (hmode : mode.overflowsToInfinity s = false)
    (hy : y.HasFiniteFields) (hval : (y.fieldValue : ℝ) = s.factor * F.largest) :
    F.Rounds mode v y := by
  have hmem : (y.fieldValue : ℝ) ∈ F.finiteValues := ⟨y, hy, rfl⟩
  have habs : |(y.fieldValue : ℝ)| = F.largest := by
    rw [hval, abs_mul, Sign.abs_factor, one_mul, abs_of_pos largest_pos]
  have hlt := ho.largest_lt_abs
  cases mode with
  | towardZero =>
    refine ⟨hy, ⟨⟨_, hmem, rfl⟩, habs ▸ hlt.le⟩, ?_⟩
    rintro a ⟨⟨t, ht, rfl⟩, -⟩
    exact habs ▸ abs_le_largest h ht
  | towardNegative =>
    rcases lt_or_ge v 0 with hv | hv
    · rw [if_pos hv] at hs
      subst hs
      cases hmode
    · rw [if_neg hv.not_gt] at hs
      subst hs
      rw [Sign.factor, Int.cast_one, one_mul] at hval
      rw [abs_of_nonneg hv] at hlt
      refine ⟨_, extended?_of_finite hy, isGreatest_coe hmem (hval ▸ hlt.le) fun t ht _ => ?_⟩
      exact hval ▸ (le_abs_self t).trans (abs_le_largest h ht)
  | towardPositive =>
    rcases lt_or_ge v 0 with hv | hv
    · rw [if_pos hv] at hs
      subst hs
      rw [Sign.factor, Int.cast_neg, Int.cast_one, neg_one_mul] at hval
      rw [abs_of_neg hv] at hlt
      refine ⟨_, extended?_of_finite hy, isLeast_coe hmem (by linarith) fun t ht _ => ?_⟩
      linarith [neg_abs_le t, abs_le_largest h ht]
    · rw [if_neg hv.not_gt] at hs
      subst hs
      cases hmode
  | tiesToEven | tiesToAway =>
    simp [RoundingMode.overflowsToInfinity, RoundingMode.isNearest] at hmode

theorem extended?_pack_infinity (h : F.Regular) (s : Sign) :
    (Pattern.pack F s F.infinityExponent 0).extended? = some s.infinity := by
  have hexp : ¬(Pattern.pack F s F.infinityExponent 0).HasFiniteFields :=
    not_not.mpr (Pattern.exponent_pack_infinity s 0)
  rw [Pattern.extended?, if_neg hexp, Pattern.mantissa_pack, Nat.zero_mod, if_pos rfl,
    Pattern.sign_pack h.signBit]

theorem isNormalized_pack_infinity (s : Sign) :
    (Pattern.pack F s F.infinityExponent 0).IsNormalized := by
  refine Or.inr (Or.inr ⟨Pattern.exponent_pack_infinity s 0, ?_⟩)
  rw [Pattern.mantissa_pack, Nat.zero_mod]

theorem IsRounding.of_rounds {v : Surd} (hv : v.isZero = false) (hy : y.sign = v.sign)
    (hr : F.Rounds mode v.toReal y) (hn : F.implicitLeadingBit = false → y.IsNormalized) :
    F.IsRounding mode v.toReal y where
  rounds := hr
  sign_of_pos hpos := by rw [hy, v.sign_eq hv, if_neg hpos.not_gt]
  sign_of_neg hneg := by rw [hy, v.sign_eq hv, if_pos hneg]
  of_zero hzero := absurd hzero (toReal_ne_zero hv)
  normalized := hn

theorem isRounding_of_overflows (h : F.Regular) {v : Surd} (ho : F.Overflows c.mode v.toReal) :
    F.IsRounding c.mode v.toReal (F.rounding c v).1 := by
  have hv := ho.isZero_eq_false
  have hu := F.unit_pos
  rw [rounding_of_overflows h ho]
  dsimp only
  split_ifs with hmode
  · exact .of_rounds hv (Pattern.sign_pack h.signBit _ _ _)
      (ho.rounds_infinity h (v.sign_eq hv) hmode (extended?_pack_infinity h _))
      fun _ => isNormalized_pack_infinity _
  · rw [Bool.not_eq_true] at hmode
    refine .of_rounds hv (Pattern.sign_pack h.signBit _ _ _)
      (ho.rounds_largest h (v.sign_eq hv) hmode (hasFiniteFields_maxMantissa h _)
        (fieldValue_maxMantissa h _)) fun hi => ?_
    rw [Pattern.pack_maxMantissa h]
    exact Pattern.isNormalized_ofSignificand h _ le_rfl (by omega) hi

theorem fieldValue_rounding_of_not_overflows (h : F.Regular) {v : Surd} (hv : v.isZero = false)
    (ho : ¬F.Overflows c.mode v.toReal) :
    (F.rounding c v).1.HasFiniteFields ∧ ((F.rounding c v).1.fieldValue : ℝ) =
      F.roundToSpacing c.mode (F.roundingExponent v.toReal) v.toReal := by
  obtain ⟨k, hk, hexp, hpos, hmax, hsub⟩ := exponentField_rounded hv h ho
  rw [rounding_of_not_overflows hv h ho, hk, ← rounded_value hv, hexp, spacing]
  refine ⟨Pattern.hasFiniteFields_ofSignificand h _ hmax, ?_⟩
  rw [Pattern.fieldValue_ofSignificand h _ hpos hmax (significand_rounded_lt hv _) hsub]
  push_cast
  rfl

theorem isRounding_of_not_overflows (h : F.Regular) {v : Surd} (hv : v.isZero = false)
    (ho : ¬F.Overflows c.mode v.toReal) : F.IsRounding c.mode v.toReal (F.rounding c v).1 := by
  obtain ⟨hfinite, hval⟩ := fieldValue_rounding_of_not_overflows h hv ho
  obtain ⟨k, hk, -, -, hmax, -⟩ := exponentField_rounded hv h ho
  have hlt := significand_rounded_lt (F := F) hv c.mode
  rw [rounding_of_not_overflows hv h ho, hk] at hfinite hval ⊢
  refine .of_rounds hv (Pattern.sign_ofSignificand h _)
    (rounds_of_not_overflows h hfinite hval ho fun heven => ?_)
    (Pattern.isNormalized_ofSignificand h _ hmax hlt)
  rw [Pattern.even_mantissa_ofSignificand h _ hlt]
  exact even_significand_rounded hv h heven

theorem fieldValue_positiveZero : (Pattern.positiveZero F).fieldValue = 0 := by
  simp [Pattern.fieldValue, Pattern.fieldSignificand, Pattern.positiveZero]

theorem hasFiniteFields_positiveZero (h : F.Regular) :
    (Pattern.positiveZero F).HasFiniteFields := by
  refine Pattern.hasFiniteFields_of_exponent_eq_zero h ?_
  rw [Pattern.positiveZero, Pattern.exponent_pack, Nat.zero_mod]

theorem isRounding_zero (h : F.Regular) (mode : RoundingMode) :
    F.IsRounding mode 0 (Pattern.positiveZero F) where
  rounds := by
    refine rounds_of_not_overflows h (hasFiniteFields_positiveZero h) ?_
      (fun ho => ho.ne_zero rfl) fun _ => ?_
    · rw [fieldValue_positiveZero, Rat.cast_zero, roundToSpacing_zero]
    · rw [Pattern.positiveZero, Pattern.mantissa_pack, Nat.zero_mod]
      exact Even.zero
  sign_of_pos hpos := absurd hpos (lt_irrefl 0)
  sign_of_neg hneg := absurd hneg (lt_irrefl 0)
  of_zero _ := rfl
  normalized _ := Or.inl (by rw [Pattern.positiveZero, Pattern.exponent_pack, Nat.zero_mod])

theorem isRounding_rounding (h : F.Regular) (c : Context) (v : Surd) :
    F.IsRounding c.mode v.toReal (F.rounding c v).1 := by
  cases hv : v.isZero with
  | false =>
    by_cases ho : F.Overflows c.mode v.toReal
    · exact isRounding_of_overflows h ho
    · exact isRounding_of_not_overflows h hv ho
  | true =>
    rw [v.toReal_eq_zero_iff.mpr hv, rounding, if_pos hv]
    exact isRounding_zero h c.mode

end Format

theorem Environment.run_eq_ok_iff {α : Type} {env after : Environment}
    {mode? : Option RoundingMode} {op : Context → Outcome α} {a : α} :
    env.run mode? op = .ok (a, after) ↔
      ∃ f, op (env.toContext.override mode?) = .ok (a, f) ∧ env.raise f = after := by
  rw [run]
  cases op (env.toContext.override mode?) with
  | error v => simp [Except.map]
  | ok r => simp [Except.map, Prod.ext_iff, and_assoc]

/-- An exact value is rounded to what the direction asks for, the one given or else that of the
environment, exactly if the exponents of the format fit or the value is zero. -/
theorem Environment.run_round_isRounding_iff {F : Format} (h : F.Regular) (env : Environment)
    (mode? : Option RoundingMode) (v : Exact.Surd) :
    (∃ y f, env.run mode? (fun c => F.round c v) = .ok (y, env.raise f) ∧
      F.IsRounding (mode?.getD env.mode) v.toReal y) ↔ F.exponentWidth ≤ 63 ∨ v.toReal = 0 := by
  rw [← Format.looksAtExponent_eq_false_iff h.signBit]
  constructor
  · rintro ⟨y, f, hrun, -⟩
    obtain ⟨g, hround, -⟩ := run_eq_ok_iff.mp hrun
    exact (Format.round_eq_ok_iff.mp hround).2
  · intro hv
    exact ⟨_, _, run_eq_ok_iff.mpr ⟨_, Format.round_eq_ok_iff.mpr ⟨rfl, hv⟩, rfl⟩,
      Format.isRounding_rounding h (env.toContext.override mode?) v⟩

/-- The number one is not rounded to a format with 64 bits of exponent. -/
theorem Environment.rounding_one_may_fail :
    ¬∀ F : Format, F.Regular → ∀ (env : Environment) (mode? : Option RoundingMode)
      (v : Exact.Surd), ∃ y f, env.run mode? (fun c => F.round c v) = .ok (y, env.raise f) ∧
        F.IsRounding (mode?.getD env.mode) v.toReal y := by
  intro h
  obtain ⟨y, f, hrun, -⟩ := h .wide Format.regular_wide default none (Exact.Surd.ofRat 1)
  obtain ⟨g, hround, -⟩ := run_eq_ok_iff.mp hrun
  rw [Format.round_wide (by simp)] at hround
  cases hround

/-- The least single-precision number that is not below the square root of two. -/
theorem Environment.run_round_isRounding_iff_sqrt_two :
    Format.binary32.Regular ∧ Format.binary32.IsRounding .towardPositive √2
      (Pattern.pack .binary32 .positive 127 0x3504f4) := by
  let v : Exact.Surd := ⟨.positive, (Exact.Magnitude.ofNat 2).root 2 two_pos⟩
  have hv : v.toReal = √2 := by
    simp [v, Exact.Surd.toReal, Sign.factor, Exact.Magnitude.toReal_root_two,
      Exact.Magnitude.ofNat]
  have hround : ((default : Environment).run (some .towardPositive)
      fun c => Format.binary32.round c v).map Prod.fst =
        .ok (Pattern.pack .binary32 .positive 127 0x3504f4) := by
    decide +kernel
  obtain ⟨y, f, hrun, hy⟩ :=
    (run_round_isRounding_iff Format.regular_binary32 default (some .towardPositive) v).mpr
      (Or.inl (by decide))
  rw [hrun] at hround
  cases hround
  rw [hv] at hy
  exact ⟨Format.regular_binary32, hy⟩

end HartFloat
