import HartFloat.Proofs.Backend.Unpacked
import HartFloat.Proofs.Rounding.Result

/-!
# Native rounding

Native numbers are rounded by shifts that keep two bits of what they drop. These bits say where the
exact number lies between two significands, and halving keeps that information. A significand that
is shifted to the exponent of the result is therefore rounded as the exact number is, and packs to
the word of the pattern to which the number is rounded.
-/
namespace HartFloat.Native

open Float.Model (UnpackedFloat totalExponent)
open Float.Model.UnpackedFloat (Accuracy ExtendedMantissa)
open Exact (Excess)
open Backend.Soft (nearest toWord)

/-- What an accuracy says, as an excess over the significand. -/
def excess : Accuracy → Excess
  | .exact => .none
  | .inexact .lt => .belowHalf
  | .inexact .eq => .half
  | .inexact .gt => .aboveHalf

/-- The number lies above the significand where the accuracy says. -/
def Describes (m : ℕ) (acc : Accuracy) (r : ℝ) : Prop := (excess acc).Describes (r - m)

variable {m : ℕ} {e : ℤ} {acc : Accuracy} {r : ℝ} {em : ExtendedMantissa}

theorem describes_exact (m : ℕ) : Describes m .exact m := sub_self (m : ℝ)

theorem Describes.le (h : Describes m acc r) : m ≤ r := by
  unfold Describes at h
  cases hex : excess acc <;> rw [hex, Excess.Describes] at h <;> linarith

theorem Describes.lt_add_one (h : Describes m acc r) : r < m + 1 := by
  unfold Describes at h
  cases hex : excess acc <;> rw [hex, Excess.Describes] at h <;> linarith

theorem accuracy_ofMantissaAndAccuracy (m : ℕ) (acc : Accuracy) :
    (ExtendedMantissa.ofMantissaAndAccuracy m acc).mantissa = m ∧
      (ExtendedMantissa.ofMantissaAndAccuracy m acc).accuracy = acc := by
  rcases acc with _ | _ | _ | _ <;> exact ⟨rfl, rfl⟩

/-- Halving keeps what the two bits say: the dropped digit becomes the first bit, and the second one
tells whether anything was left below it. -/
theorem describes_shiftRightOne (h : Describes em.mantissa em.accuracy r) :
    Describes em.shiftRightOne.mantissa em.shiftRightOne.accuracy (r / 2) := by
  obtain ⟨m, round, sticky⟩ := em
  have hsplit : (m : ℝ) = 2 * (m / 2 : ℕ) + (m % 2 : ℕ) := by
    exact_mod_cast (Nat.div_add_mod m 2).symm
  rcases Nat.mod_two_eq_zero_or_one m with hm | hm <;> cases round <;> cases sticky <;>
    simp [Describes, ExtendedMantissa.shiftRightOne, ExtendedMantissa.accuracy, excess,
      Excess.Describes, hm] at h hsplit ⊢ <;>
    first
    | linarith
    | constructor <;> linarith

theorem describes_shiftRight (h : Describes em.mantissa em.accuracy r) (k : ℕ) :
    Describes (em >>> k).mantissa (em >>> k).accuracy (r / 2 ^ k) := by
  change Describes (k.repeat ExtendedMantissa.shiftRightOne em).mantissa _ _
  induction k with
  | zero =>
    rw [pow_zero, div_one]
    exact h
  | succ k ih =>
    rw [pow_succ, ← div_div]
    exact describes_shiftRightOne ih

theorem mantissa_shiftRight (em : ExtendedMantissa) (k : ℕ) :
    (em >>> k).mantissa = em.mantissa / 2 ^ k := by
  change (k.repeat ExtendedMantissa.shiftRightOne em).mantissa = _
  induction k with
  | zero => exact (Nat.div_one _).symm
  | succ k ih =>
    rw [pow_succ, ← Nat.div_div_eq_div_mul, ← ih]
    rfl

theorem roundToNearestEven_eq (m : ℕ) (acc : Accuracy) :
    (acc.roundToNearestEven m : ℤ) =
      m + (RoundingMode.tiesToEven.roundsUp .positive (m % 2 == 1) (excess acc)).toNat := by
  rcases acc with _ | _ | _ | _
  · rfl
  · rfl
  · rcases Nat.mod_two_eq_zero_or_one m with hm | hm <;>
      simp [Accuracy.roundToNearestEven, RoundingMode.roundsUp, RoundingMode.isDirectedAway, excess,
        hm]
  · rfl

theorem roundedMantissa_eq (h : Describes em.mantissa em.accuracy r) :
    (em.roundedMantissa : ℤ) = RoundingMode.tiesToEven.roundReal r := by
  rw [RoundingMode.roundReal_of_nonneg _ h, ExtendedMantissa.roundedMantissa,
    roundToNearestEven_eq]

theorem targetExponent_totalExponent (m : ℕ) (e : ℤ) :
    single.targetExponent (totalExponent m e) = max ((m.log2 : ℤ) + 1 + e - 24) (-149) := rfl

theorem roundingExponent_eq (hr : 0 < r) :
    Format.binary32.roundingExponent r = max (Int.log 2 r) (-126) := by
  rw [Format.roundingExponent, abs_of_pos hr]
  rfl

theorem log_eq_log2_add (hm : 0 < m) (h : Describes m acc (r / 2 ^ e)) :
    Int.log 2 r = m.log2 + e := by
  have hpow : (0 : ℝ) < 2 ^ e := by positivity
  have hlo : (2 : ℝ) ^ ((m.log2 : ℤ) + e) ≤ r := by
    rw [zpow_add₀ two_ne_zero, ← le_div_iff₀ hpow, zpow_natCast]
    refine le_trans ?_ h.le
    exact_mod_cast Nat.log2_self_le hm.ne'
  have hhi : r < (2 : ℝ) ^ ((m.log2 : ℤ) + 1 + e) := by
    rw [zpow_add₀ two_ne_zero, ← div_lt_iff₀ hpow]
    refine h.lt_add_one.trans_le ?_
    exact_mod_cast (Nat.lt_log2_self : m < 2 ^ (m.log2 + 1))
  have hr : 0 < r := (zpow_pos two_pos _).trans_le hlo
  have hlog₁ := (Int.zpow_le_iff_le_log one_lt_two hr).mp (by exact_mod_cast hlo)
  have hlog₂ := (Int.lt_zpow_iff_log_lt one_lt_two hr).mp (by exact_mod_cast hhi)
  omega

/-- The exponent that a significand is shifted to is that of the units in which the number is
rounded, as long as the significand is not given in larger units. -/
theorem targetExponent_eq (hr : 0 < r) (h : Describes m acc (r / 2 ^ e))
    (he : 0 < m ∨ e ≤ Format.binary32.roundingExponent r - 23) :
    single.targetExponent (totalExponent m e) = Format.binary32.roundingExponent r - 23 := by
  rw [roundingExponent_eq hr] at he ⊢
  rw [targetExponent_totalExponent]
  rcases Nat.eq_zero_or_pos m with rfl | hm
  -- Less than one unit: then the unit is the least of all.
  · have hlt : r < 2 ^ e := by
      have := h.lt_add_one
      rwa [Nat.cast_zero, zero_add, div_lt_one (by positivity)] at this
    have hlog : Int.log 2 r < e := (Int.lt_zpow_iff_log_lt one_lt_two hr).mp (by exact_mod_cast hlt)
    rw [Nat.log2_zero]
    omega
  · rw [log_eq_log2_add hm h]
    omega

variable {v : Exact.Surd}

theorem shiftToTargetExponent_eq (m : ℕ) (e : ℤ) (acc : Accuracy) {target : ℤ}
    (htarget : single.targetExponent (totalExponent m e) = target) :
    UnpackedFloat.shiftToTargetExponent single m e acc =
      (ExtendedMantissa.ofMantissaAndAccuracy m acc >>> (target - e).toNat,
        e + (target - e).toNat) := by
  rw [UnpackedFloat.shiftToTargetExponent, htarget]
  rfl

/-- The first of the two shifts, and the rounding of the significand that it leaves. -/
theorem roundedMantissa_shift (hv : v.isZero = false)
    (h : Describes m acc (|v.toReal| / 2 ^ e))
    (he : e ≤ Format.binary32.roundingExponent v.toReal - 23) :
    (UnpackedFloat.shiftToTargetExponent single m e acc).1.roundedMantissa =
        Format.binary32.units .tiesToEven v (Format.binary32.roundingExponent v.toReal) ∧
      (UnpackedFloat.shiftToTargetExponent single m e acc).2 =
        Format.binary32.roundingExponent v.toReal - 23 := by
  have hpos : 0 < |v.toReal| := abs_pos.mpr (Format.toReal_ne_zero hv)
  rw [← Format.roundingExponent_abs] at he ⊢
  obtain ⟨hmantissa, haccuracy⟩ := accuracy_ofMantissaAndAccuracy m acc
  obtain ⟨k, hk⟩ := Int.eq_ofNat_of_zero_le (sub_nonneg.mpr he)
  rw [shiftToTargetExponent_eq m e acc (targetExponent_eq hpos h (Or.inr he)), hk,
    Int.toNat_natCast]
  refine ⟨?_, by omega⟩
  have hextended : Describes (ExtendedMantissa.ofMantissaAndAccuracy m acc).mantissa
      (ExtendedMantissa.ofMantissaAndAccuracy m acc).accuracy (|v.toReal| / 2 ^ e) := by
    rwa [hmantissa, haccuracy]
  have hshifted := describes_shiftRight hextended k
  have hspacing : |v.toReal| / 2 ^ e / 2 ^ k =
      |v.toReal| / Format.binary32.spacing (Format.binary32.roundingExponent |v.toReal|) := by
    have hexponent : Format.binary32.roundingExponent |v.toReal| - 23 = e + k := by omega
    rw [Format.spacing, show ((Format.binary32.fractionWidth : ℕ) : ℤ) = 23 from rfl, hexponent,
      zpow_add₀ two_ne_zero, zpow_natCast, div_div]
  rw [hspacing] at hshifted
  have hunits := roundedMantissa_eq hshifted
  rw [← Format.units_tiesToEven] at hunits
  exact_mod_cast hunits

theorem shiftToTargetExponent_of_lt (hm : m < 2 ^ 24) (he : -149 ≤ e) :
    UnpackedFloat.shiftToTargetExponent single m e .exact = (⟨m, false, false⟩, e) := by
  have hlog : m.log2 ≤ 23 := by
    rcases Nat.eq_zero_or_pos m with rfl | hpos
    · exact Nat.zero_le _
    · exact Nat.le_of_lt_succ ((Nat.log2_lt hpos.ne').mpr hm)
  have hshift : (max ((m.log2 : ℤ) + 1 + e - 24) (-149) - e).toNat = 0 := by omega
  rw [shiftToTargetExponent_eq m e .exact (targetExponent_totalExponent m e), hshift]
  exact congrArg (Prod.mk _) (add_zero e)

theorem shiftToTargetExponent_two_pow (he : -149 ≤ e) :
    UnpackedFloat.shiftToTargetExponent single (2 ^ 24) e .exact =
      (⟨2 ^ 23, false, false⟩, e + 1) := by
  have hshift : (max (((2 ^ 24 : ℕ).log2 : ℤ) + 1 + e - 24) (-149) - e).toNat = 1 := by
    rw [Nat.log2_two_pow]
    omega
  rw [shiftToTargetExponent_eq _ e .exact (targetExponent_totalExponent _ e), hshift]
  rfl

/-- The number with the given significand, which may have vanished. -/
def ofMantissa (s : Sign) (m : ℕ) (e : ℤ) : UnpackedFloat :=
  if h : m = 0 then .zero s.native else .finite s.native m e (Nat.pos_of_ne_zero h)

/-- Both shifts: what is left is the significand and the exponent of the rounded number. -/
theorem roundWithAccuracy_eq (hv : v.isZero = false)
    (h : Describes m acc (|v.toReal| / 2 ^ e))
    (he : e ≤ Format.binary32.roundingExponent v.toReal - 23) (s : Sign) :
    UnpackedFloat.roundWithAccuracy single s.native m e acc =
      ofMantissa s (Format.binary32.rounded .tiesToEven v).significand
        ((Format.binary32.rounded .tiesToEven v).exponent - 23) := by
  obtain ⟨hmantissa, hexponent⟩ := roundedMantissa_shift hv h he
  have hleast : -126 ≤ Format.binary32.roundingExponent v.toReal := le_max_right _ _
  have hsecond : UnpackedFloat.shiftToTargetExponent single
      (Format.binary32.units .tiesToEven v (Format.binary32.roundingExponent v.toReal))
      (Format.binary32.roundingExponent v.toReal - 23) .exact =
        (⟨(Format.binary32.rounded .tiesToEven v).significand, false, false⟩,
          (Format.binary32.rounded .tiesToEven v).exponent - 23) := by
    rcases Format.rounded_cases hv .tiesToEven (F := .binary32) with ⟨hlt, hn, hm⟩ | ⟨heq, hn, hm⟩
    · rw [hn, hm]
      exact shiftToTargetExponent_of_lt hlt (by omega)
    · rw [hn, hm, heq, show 2 * Format.binary32.unit = 2 ^ 24 from rfl,
        shiftToTargetExponent_two_pow (by omega), unit_eq]
      congr 1
      omega
  rw [UnpackedFloat.roundWithAccuracy]
  dsimp only
  rw [hmantissa, hexponent, hsecond]
  rfl

theorem canonical_rounded (hv : v.isZero = false)
    (h : (Format.binary32.rounded .tiesToEven v).significand ≠ 0) :
    Canonical (Format.binary32.rounded .tiesToEven v).significand
      ((Format.binary32.rounded .tiesToEven v).exponent - 23) := by
  have hleast := Format.minExponent_le_exponent_rounded hv .tiesToEven (F := .binary32)
  have hmin : Format.binary32.minExponent = -126 := rfl
  refine ⟨Nat.pos_of_ne_zero h, Format.significand_rounded_lt hv .tiesToEven, by omega, ?_⟩
  rcases lt_or_ge (Format.binary32.rounded .tiesToEven v).significand (2 ^ 23) with hlt | hge
  · have := Format.exponent_rounded_of_lt hv hlt
    omega
  · exact Or.inl hge

theorem pack_ofMantissa_rounded (hv : v.isZero = false) :
    pack (ofMantissa v.sign (Format.binary32.rounded .tiesToEven v).significand
        ((Format.binary32.rounded .tiesToEven v).exponent - 23)) =
      toWord (Format.binary32.rounding nearest v).1 := by
  have hmax : Format.binary32.maxExponent = 127 := rfl
  have hoverflows : Format.binary32.Overflows .tiesToEven v.toReal ↔
      Format.binary32.maxExponent < (Format.binary32.rounded .tiesToEven v).exponent :=
    Format.overflows_iff_lt_exponent_rounded Format.regular_binary32 hv
  by_cases ho : Format.binary32.Overflows nearest.mode v.toReal
  · have hlarge := hoverflows.mp ho
    have hnonzero : (Format.binary32.rounded .tiesToEven v).significand ≠ 0 := by
      intro hzero
      have := Format.exponent_rounded_of_lt hv (hzero ▸ Format.binary32.unit_pos)
      rw [this] at hlarge
      exact absurd hlarge (by decide)
    rw [Format.rounding_of_overflows Format.regular_binary32 ho, ofMantissa, dif_neg hnonzero,
      pack_finite _ (canonical_rounded hv hnonzero), if_neg (by omega)]
    rfl
  · rw [Format.rounding_of_not_overflows hv Format.regular_binary32 ho, ofMantissa]
    have hsmall := not_lt.mp fun hlt => ho (hoverflows.mpr hlt)
    change _ = toWord (Pattern.ofSignificand .binary32 v.sign
      ((Format.binary32.rounded .tiesToEven v).exponent + 127).toNat
      (Format.binary32.rounded .tiesToEven v).significand)
    split_ifs with hzero
    · rw [pack_zero, hzero]
      rfl
    · rw [pack_finite _ (canonical_rounded hv hzero), if_pos (by omega)]
      congr 3
      omega

theorem ofRat_factor_mul (s : Sign) {x : ℚ} (hx : 0 < x) :
    (Exact.Surd.ofRat (s.factor * x)).isZero = false ∧
      (Exact.Surd.ofRat (s.factor * x)).sign = s ∧
      |(Exact.Surd.ofRat (s.factor * x)).toReal| = x := by
  have hxReal : (0 : ℝ) < x := by exact_mod_cast hx
  have habs : |(Exact.Surd.ofRat (s.factor * x)).toReal| = x := by
    rw [Exact.Surd.toReal_ofRat]
    push_cast
    rw [abs_mul, s.abs_factor, one_mul, abs_of_pos hxReal]
  have hv : (Exact.Surd.ofRat (s.factor * x)).isZero = false := by
    rw [Exact.Surd.isZero_eq_false_iff, ← abs_pos, habs]
    exact hxReal
  refine ⟨hv, ?_, habs⟩
  rw [Exact.Surd.sign_eq _ hv, Exact.Surd.toReal_ofRat]
  cases s
  · simp [Sign.factor, hx.le]
  · simp [Sign.factor, hx]

theorem pack_roundWithAccuracy (s : Sign) {x : ℚ} (hx : 0 < x) (h : Describes m acc (x / 2 ^ e))
    (he : e ≤ Format.binary32.roundingExponent x - 23) :
    pack (UnpackedFloat.roundWithAccuracy single s.native m e acc) =
      toWord (Format.binary32.roundingRat nearest (s.factor * x)).1 := by
  obtain ⟨hv, hsign, habs⟩ := ofRat_factor_mul s hx
  rw [← habs, Format.roundingExponent_abs] at he
  rw [← habs] at h
  rw [roundWithAccuracy_eq hv h he, Format.roundingRat, ← pack_ofMantissa_rounded hv, hsign]

theorem describes_exact_of_eq (h : r = m * 2 ^ e) : Describes m .exact (r / 2 ^ e) := by
  rw [h, mul_div_cancel_right₀ _ (zpow_ne_zero _ two_ne_zero)]
  exact describes_exact m

theorem pack_round (s : Sign) (hm : 0 < m) (e : ℤ) :
    pack (UnpackedFloat.round single s.native m e) =
      toWord (Format.binary32.roundingRat nearest (s.factor * (m * 2 ^ e))).1 := by
  have hx : (0 : ℚ) < m * 2 ^ e := mul_pos (by exact_mod_cast hm) (zpow_pos two_pos _)
  have hxReal : (0 : ℝ) < ((m * 2 ^ e : ℚ) : ℝ) := by exact_mod_cast hx
  have htarget := targetExponent_eq hxReal
    (describes_exact_of_eq (m := m) (e := e) (by push_cast; rfl)) (Or.inl hm)
  rw [UnpackedFloat.round]
  dsimp only [UnpackedFloat.decreaseExponent]
  rw [htarget]
  refine pack_roundWithAccuracy s hx (describes_exact_of_eq ?_) (by omega)
  rw [Nat.shiftLeft_eq, zpow_sub₀ two_ne_zero, zpow_natCast]
  push_cast
  field_simp

theorem pack_normalize (n e : ℤ) :
    pack (UnpackedFloat.normalize single n e .positive) =
      toWord (if n = 0 then Pattern.pack .binary32 .positive 0 0
        else (Format.binary32.roundingRat nearest (n * 2 ^ e)).1) := by
  rw [UnpackedFloat.normalize]
  rcases lt_trichotomy n 0 with hn | rfl | hn
  · obtain ⟨m, hm, rfl⟩ := Int.exists_eq_neg_ofNat hn.le
    have hpos : 0 < m := by omega
    rw [compare_lt_iff_lt.mpr hn, if_neg hn.ne, neg_neg, Int.toNat_natCast]
    refine (pack_round .negative hpos e).trans ?_
    simp [Sign.factor]
  · exact pack_zero .positive
  · obtain ⟨m, rfl⟩ := Int.eq_ofNat_of_zero_le hn.le
    have hpos : 0 < m := by omega
    rw [compare_gt_iff_gt.mpr hn, if_neg hn.ne', Int.toNat_natCast]
    refine (pack_round .positive hpos e).trans ?_
    simp [Sign.factor]

/-- A significand that fills the format is not in larger units than its rounding. -/
theorem le_roundingExponent (hm : 2 ^ 23 ≤ m ∨ e ≤ -149) (hpos : 0 < m) :
    e ≤ Format.binary32.roundingExponent ((m * 2 ^ e : ℚ) : ℝ) - 23 := by
  have hx : (0 : ℝ) < ((m * 2 ^ e : ℚ) : ℝ) := by positivity
  rw [roundingExponent_eq hx,
    log_eq_log2_add hpos (describes_exact_of_eq (m := m) (e := e) (by push_cast; rfl))]
  rcases hm with hm | hm
  · have := (Nat.le_log2 hpos.ne').mpr hm
    omega
  · omega

theorem pack_finite_eq_roundingRat (s : Sign) (h : Canonical m e) :
    pack (.finite s.native m e h.pos) =
      toWord (Format.binary32.roundingRat nearest (s.factor * (m * 2 ^ e))).1 := by
  have hx : (0 : ℚ) < m * 2 ^ e := mul_pos (by exact_mod_cast h.pos) (zpow_pos two_pos _)
  have hshift := shiftToTargetExponent_of_lt h.lt h.le
  have hround : UnpackedFloat.roundWithAccuracy single s.native m e .exact =
      .finite s.native m e h.pos := by
    rw [UnpackedFloat.roundWithAccuracy, hshift]
    dsimp only [ExtendedMantissa.roundedMantissa, ExtendedMantissa.accuracy,
      Accuracy.roundToNearestEven]
    rw [hshift]
    exact dif_neg h.pos.ne'
  rw [← hround]
  refine pack_roundWithAccuracy s hx (describes_exact_of_eq (by push_cast; rfl)) ?_
  exact le_roundingExponent (h.normal_or_least.imp_right le_of_eq) h.pos

end HartFloat.Native
