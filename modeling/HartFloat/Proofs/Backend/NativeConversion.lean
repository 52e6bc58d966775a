import HartFloat.Proofs.Arithmetic.Operations
import HartFloat.Proofs.Backend.NativeRounding
import HartFloat.Proofs.Pattern.Integer
import HartFloat.Proofs.Word.Values

/-!
# Native conversions

Both backends convert numbers to integers by cutting them to an integer and moving what lies
outside the range of the type to the nearer end. The native conversion to signed integers takes
the magnitude first. Integers are converted to patterns by the common rounding; the native
conversion of a negative one negates what its magnitude gives.
-/
namespace HartFloat

open Float.Model (UnpackedFloat)
open Backend.Soft (nearest toWord truncating)

def Backend.Soft.ofInt (n : ℤ) : Word :=
  toWord (Format.binary32.rounding nearest (Exact.Surd.ofInt n)).1

namespace Number

noncomputable def clamp (least largest : ℤ) : Number → ℤ
  | finite _ q => max least (min largest (RoundingMode.towardZero.roundReal q))
  | infinite .positive => largest
  | infinite .negative => least

/-- The exceptions of cutting the number to an integer in a range: beyond the range the operation is
invalid, and within it inexact unless the number is the integer. -/
noncomputable def clampFlags (least largest : ℤ) : Number → Flags
  | finite _ q =>
    if RoundingMode.towardZero.roundReal q ∈ Set.Icc least largest then
      Flags.when (decide ((RoundingMode.towardZero.roundReal q : ℚ) ≠ q)) Flags.nx
    else Flags.nv
  | infinite _ => Flags.nv

def abs : Number → Number
  | finite _ q => finite .positive |q|
  | infinite _ => infinite .positive

end Number

namespace Native

variable {a : Number} {u : UnpackedFloat} {least largest : ℤ}

/-- Rounding toward zero takes the floor of the magnitude. -/
theorem roundReal_factor_mul (s : Sign) {x : ℚ} (hx : 0 ≤ x) :
    RoundingMode.towardZero.roundReal ((s.factor * x : ℚ) : ℝ) = s.factor * ⌊x⌋ := by
  have hxReal : (0 : ℝ) ≤ x := by exact_mod_cast hx
  have hfloor : RoundingMode.towardZero.roundReal x = ⌊x⌋ := by
    rw [RoundingMode.roundReal, if_pos hxReal, Rat.floor_cast]
  rw [← hfloor]
  cases s
  · push_cast [Sign.factor]
    rw [one_mul, one_mul]
  · push_cast [Sign.factor]
    rw [neg_one_mul, neg_one_mul, RoundingMode.roundReal_neg]
    rfl

theorem clamp_finite (s : Sign) {x : ℚ} (hx : 0 ≤ x) :
    (Number.finite s (s.factor * x)).clamp least largest =
      max least (min largest (s.factor * ⌊x⌋)) := by
  rw [Number.clamp, roundReal_factor_mul s hx]

/-- The integral part of a magnitude is what is left when its fractional digits are shifted out. -/
theorem roundToInt_eq (s : Sign) (m : ℕ) (e : ℤ) :
    UnpackedFloat.roundToInt s.native m e = s.factor * ⌊(m * 2 ^ e : ℚ)⌋ := by
  rw [UnpackedFloat.roundToInt]
  dsimp only [UnpackedFloat.decreaseExponent, UnpackedFloat.shiftToExponent]
  rw [apply_native, mantissa_shiftRight, (accuracy_ofMantissaAndAccuracy _ _).1]
  congr 1
  rcases le_total 0 e with he | he
  · obtain ⟨k, rfl⟩ := Int.eq_ofNat_of_zero_le he
    rw [sub_zero, Int.toNat_natCast, sub_self, sub_zero, Int.toNat_zero, pow_zero, Nat.div_one,
      Nat.shiftLeft_eq, zpow_natCast]
    exact_mod_cast (Int.floor_natCast (R := ℚ) (m * 2 ^ k)).symm
  · obtain ⟨k, rfl⟩ := Int.exists_eq_neg_ofNat he
    have hzero : (-(k : ℤ) - 0).toNat = 0 := by omega
    have hshift : (0 - (-(k : ℤ) - (0 : ℕ))).toNat = k := by omega
    have hfloor : ⌊(m : ℚ) / (2 ^ k : ℕ)⌋ = (m / 2 ^ k : ℕ) := by
      rw [Int.floor_div_natCast, Int.floor_natCast, Int.natCast_ediv]
    rw [hzero, hshift, Nat.shiftLeft_zero, zpow_neg, zpow_natCast, ← div_eq_mul_inv]
    exact_mod_cast hfloor.symm

theorem Stands.toInt (h : Stands u a) (hleast : least ≤ largest) :
    max least (min largest (u.toInt least largest)) = a.clamp least largest := by
  cases h with
  | infinite s =>
    cases s
    · change max least (min largest largest) = largest
      omega
    · change max least (min largest least) = least
      omega
  | zero s =>
    rw [Number.clamp, Rat.cast_zero, ← Int.cast_zero, RoundingMode.roundReal_intCast]
    rfl
  | finite s h hmax =>
    rw [mul_assoc, Number.clamp, roundReal_factor_mul s h.value_pos.le, ← roundToInt_eq]
    rfl

theorem unpack_and_magnitudeMask (w : Word) :
    unpack (w &&& Word.magnitudeMask) = (unpack w).abs := by
  have hparts : w &&& Word.magnitudeMask = Word.ofParts 0#1 w.exponent w.fraction := by
    rw [Word.magnitudeMask_eq, Word.and_ofParts, BitVec.and_zero, BitVec.and_allOnes,
      BitVec.and_allOnes]
  have hsign : (Backend.Soft.ofWord (Word.ofParts 0#1 w.exponent w.fraction)).sign.native =
      .positive := by
    rw [← ofBitVec_signBit, Word.signBit_ofParts]
    rfl
  rw [hparts, unpack_eq, unpack_eq w, Word.exponent_ofParts, Word.fraction_ofParts, hsign]
  split_ifs <;> rfl

theorem abs_factor_mul (s : Sign) {x : ℚ} (hx : 0 ≤ x) :
    |(s.factor * x : ℚ)| = Sign.positive.factor * x := by
  rw [abs_mul, abs_of_nonneg hx]
  cases s <;> simp [Sign.factor]

theorem Stands.abs (h : Stands u a) : Stands u.abs a.abs := by
  cases h with
  | infinite s => exact .infinite .positive
  | zero s =>
    rw [Number.abs, abs_zero]
    exact .zero .positive
  | finite s h hmax =>
    rw [Number.abs, mul_assoc, abs_factor_mul s h.value_pos.le, ← mul_assoc]
    exact .finite .positive h hmax

theorem packComponents_neg (s : UnpackedFloat.Sign) (e : BitVec 8) (f : BitVec 23) :
    UnpackedFloat.packComponents single (-s) e f =
      Word.negate (UnpackedFloat.packComponents single s e f) := by
  change Word.ofParts (-s).toBitVec e f = Word.negate (Word.ofParts s.toBitVec e f)
  rw [Word.negate, Word.signMask_eq, Word.ofParts_xor, BitVec.xor_zero, BitVec.xor_zero]
  cases s <;> rfl

theorem pack_neg (h : u ≠ .notANumber) : pack u.neg = (pack u).negate := by
  cases u with
  | notANumber => exact absurd rfl h
  | infinity s | zero s => exact packComponents_neg s _ _
  | finite s m e hm =>
    rw [UnpackedFloat.neg, pack, pack, UnpackedFloat.pack, UnpackedFloat.pack]
    dsimp only
    split_ifs
    · exact packComponents_neg s _ _
    · exact packComponents_neg s _ _
    · exact packComponents_neg s _ _

theorem round_neg (s : UnpackedFloat.Sign) (m : ℕ) (e : ℤ) :
    UnpackedFloat.round single (-s) m e = (UnpackedFloat.round single s m e).neg ∧
      UnpackedFloat.round single s m e ≠ .notANumber := by
  unfold UnpackedFloat.round UnpackedFloat.roundWithAccuracy
  dsimp only
  split_ifs
  · exact ⟨rfl, by simp⟩
  · exact ⟨rfl, by simp⟩

theorem ofInt_eq_ofRat (n : ℤ) : Exact.Surd.ofInt n = Exact.Surd.ofRat n := rfl

theorem pack_ofInt (n : ℤ) :
    pack (UnpackedFloat.ofInt single n) = Backend.Soft.ofInt n := by
  rw [UnpackedFloat.ofInt, pack_normalize, Backend.Soft.ofInt, ofInt_eq_ofRat, zpow_zero, mul_one]
  split_ifs with hn
  · rw [hn]
    rfl
  · rfl

theorem pack_ofInt_neg {n : ℤ} (hn : 0 < n) :
    pack (UnpackedFloat.ofInt single (-n)) = (pack (UnpackedFloat.ofInt single n)).negate := by
  obtain ⟨hneg, hnumber⟩ := round_neg .positive n.toNat 0
  rw [← pack_neg (u := UnpackedFloat.ofInt single n), UnpackedFloat.ofInt, UnpackedFloat.ofInt,
    UnpackedFloat.normalize, UnpackedFloat.normalize, compare_gt_iff_gt.mpr hn,
    compare_lt_iff_lt.mpr (neg_lt_zero.mpr hn), neg_neg]
  · exact congrArg pack hneg
  · rw [UnpackedFloat.ofInt, UnpackedFloat.normalize, compare_gt_iff_gt.mpr hn]
    exact hnumber

end Native

variable {w : Word} {a : Number} {least largest : ℤ}

namespace Backend.Soft

theorem isFinite_of_number? (h : (ofWord w).number? = some a) :
    (ofWord w).isFinite = !(ofWord w).isInfinity := by
  change (!(ofWord w).isNaN && !(ofWord w).isInfinity) = _
  rw [isNaN_ofWord, isNaN_of_number? h]
  rfl

theorem convert_apply {t : IntegerType} {r : Option ℤ × Flags}
    (h : (ofWord w).toIntegerType truncating true t = .ok r) (most least : Word) (s : Flags) :
    convert t most least w s =
      ((r.1.map (BitVec.ofInt 32)).getD (saturate most least w), s ∪ r.2) := by
  unfold convert
  rw [h]
  obtain ⟨_ | n, flags⟩ := r
  · rfl
  · rfl

theorem saturate_eq (h : w.isNaN = false) (most least : Word) :
    saturate most least w = if (ofWord w).sign = .positive then most else least := by
  rw [sign_ofWord, saturate, h]
  cases w.isNegative <;> rfl

theorem convert_of_isNaN (h : w.isNaN = true) (t : IntegerType) (most least : Word) (s : Flags) :
    convert t most least w s = (most, s ∪ Flags.nv) := by
  have hfinite : (ofWord w).isFinite = false := by
    change (!(ofWord w).isNaN && !(ofWord w).isInfinity) = false
    rw [isNaN_ofWord, h]
    rfl
  rw [convert_apply (Pattern.toIntegerType_of_not_isFinite hfinite truncating true t), saturate, h]
  rfl

theorem convert_eq (h : (ofWord w).number? = some a) {t : IntegerType} (hleast : least ≤ 0)
    (hlargest : 0 ≤ largest) (ht : ∀ n, t.holds n = true ↔ n ∈ Set.Icc least largest) (s : Flags) :
    convert t (BitVec.ofInt 32 largest) (BitVec.ofInt 32 least) w s =
      (BitVec.ofInt 32 (a.clamp least largest), s ∪ a.clampFlags least largest) := by
  have hfinite := isFinite_of_number? h
  have hsaturate := saturate_eq (isNaN_of_number? h)
  rcases Pattern.number?_cases h with rfl | ⟨x, hx, rfl⟩
  · obtain ⟨hinfinity, -, -⟩ := Pattern.number?_infinite Format.regular_binary32 rfl h
    rw [hinfinity] at hfinite
    rw [convert_apply (Pattern.toIntegerType_of_not_isFinite hfinite truncating true t), hsaturate]
    cases (ofWord w).sign <;> rfl
  · obtain ⟨hinfinity, -, -, hvalue⟩ := Pattern.number?_finite Format.regular_binary32 rfl h
    have hfloor := Int.floor_nonneg.mpr hx
    have htruncate := Native.roundReal_factor_mul (ofWord w).sign hx
    rw [hinfinity] at hfinite
    rw [convert_apply (Pattern.toIntegerType_of_isFinite (by decide) hfinite truncating true t),
      hsaturate, hvalue, show truncating.mode = .towardZero from rfl, Number.clampFlags,
      if_congr (ht _).symm rfl rfl, Native.clamp_finite _ hx, htruncate]
    by_cases hholds : t.holds ((ofWord w).sign.factor * ⌊x⌋) = true
    · obtain ⟨hlo, hhi⟩ := (ht _).mp hholds
      rw [if_pos hholds, if_pos hholds, min_eq_right hhi, max_eq_right hlo]
      rfl
    -- Outside the range the number lies beyond the end on the side of its sign.
    · rw [if_neg hholds, if_neg hholds]
      rw [ht, Set.mem_Icc] at hholds
      cases hsign : (ofWord w).sign
      · rw [hsign, Sign.factor, one_mul] at hholds
        rw [Sign.factor, one_mul, min_eq_left (by omega), max_eq_right (by omega)]
        rfl
      · rw [hsign, Sign.factor, neg_one_mul] at hholds
        rw [Sign.factor, neg_one_mul, min_eq_right (by omega), max_eq_left (by omega)]
        rfl

theorem toSigned_of_isNaN (h : w.isNaN = true) (s : Flags) :
    primitives.toSigned w s = (BitVec.ofInt 32 (2 ^ 31 - 1), s ∪ Flags.nv) :=
  convert_of_isNaN h _ _ _ s

theorem toUnsigned_of_isNaN (h : w.isNaN = true) (s : Flags) :
    primitives.toUnsigned w s = (BitVec.ofInt 32 (2 ^ 32 - 1), s ∪ Flags.nv) :=
  convert_of_isNaN h _ _ _ s

theorem toSigned_eq (h : (ofWord w).number? = some a) (s : Flags) :
    primitives.toSigned w s = (BitVec.ofInt 32 (a.clamp (-2 ^ 31) (2 ^ 31 - 1)),
      s ∪ a.clampFlags (-2 ^ 31) (2 ^ 31 - 1)) := by
  have hrange (n : ℤ) : (IntegerType.signed 32).holds n = true ↔
      n ∈ Set.Icc (-2 ^ 31) (2 ^ 31 - 1) := by
    rw [IntegerType.holds, decide_eq_true_iff, Set.mem_Icc]
    omega
  exact convert_eq h (by decide) (by decide) hrange s

theorem toUnsigned_eq (h : (ofWord w).number? = some a) (s : Flags) :
    primitives.toUnsigned w s =
      (BitVec.ofInt 32 (a.clamp 0 (2 ^ 32 - 1)), s ∪ a.clampFlags 0 (2 ^ 32 - 1)) := by
  have hrange (n : ℤ) : (IntegerType.unsigned 32).holds n = true ↔ n ∈ Set.Icc 0 (2 ^ 32 - 1) := by
    rw [IntegerType.holds, decide_eq_true_iff, Set.mem_Icc]
    omega
  exact convert_eq h (by decide) (by decide) hrange s

theorem ofInteger_apply (n : ℤ) (s : Flags) :
    (settleWord (Pattern.ofInteger .binary32 nearest n) s).1 = ofInt n := by
  rw [Pattern.ofInteger, Format.round_eq (by decide)]
  rfl

end Backend.Soft

namespace Backend.Host

open Native

theorem toNat_ofNatClamp (n : ℕ) : (UInt32.ofNatClamp n).toNat = min n (2 ^ 32 - 1) := by
  rw [UInt32.ofNatClamp]
  split_ifs with h
  · have : n < 2 ^ 32 := h
    rw [UInt32.toNat_ofNatLT]
    omega
  · have : ¬n < 2 ^ 32 := h
    rw [UInt32.toNat_ofNatLT]
    change 2 ^ 32 - 1 = _
    omega

theorem toNat_truncate (h : Stands (unpack w) a) :
    ((truncate (Host.ofWord w)).toNat : ℤ) = a.clamp 0 (2 ^ 32 - 1) := by
  have hclamp := h.toInt (show (0 : ℤ) ≤ 2 ^ 32 - 1 by decide)
  have hnat := toNat_ofNatClamp ((unpack w).toInt 0 (2 ^ 32 - 1)).toNat
  have htruncate : truncate (Host.ofWord w) =
      (UInt32.ofNatClamp ((unpack w).toInt 0 (2 ^ 32 - 1)).toNat).toBitVec := by
    rw [← unpack_ofWord]
    rfl
  rw [htruncate, UInt32.toNat_toBitVec, hnat]
  omega

theorem ofInt_toNat (w : Word) : BitVec.ofInt 32 w.toNat = w := by
  rw [BitVec.ofInt_natCast, BitVec.ofNat_toNat, BitVec.setWidth_eq]

theorem toUnsigned_eq (h : (Soft.ofWord w).number? = some a) :
    toUnsigned w = BitVec.ofInt 32 (a.clamp 0 (2 ^ 32 - 1)) := by
  rw [toUnsigned, Soft.isNaN_of_number? h, if_neg Bool.false_ne_true,
    ← toNat_truncate (stands_unpack h), ofInt_toNat]

/-- The magnitude, clamped to the unsigned range, with the sign of the number put back. -/
theorem clamp_signed (h : (Soft.ofWord w).number? = some a) :
    a.clamp (-2 ^ 31) (2 ^ 31 - 1) =
      if w.isNegative then max (-2 ^ 31) (-a.abs.clamp 0 (2 ^ 32 - 1))
      else min (2 ^ 31 - 1) (a.abs.clamp 0 (2 ^ 32 - 1)) := by
  have hsign := Soft.sign_ofWord w
  rcases Pattern.number?_cases h with rfl | ⟨x, hx, rfl⟩
  · rw [hsign]
    cases w.isNegative <;> rfl
  · have hfloor := Int.floor_nonneg.mpr hx
    rw [Number.abs, abs_factor_mul _ hx, clamp_finite _ hx, clamp_finite _ hx, hsign]
    cases w.isNegative
    · rw [if_neg Bool.false_ne_true, if_neg Bool.false_ne_true, Sign.factor]
      omega
    · rw [if_pos rfl, if_pos rfl, Sign.factor, Sign.factor]
      omega

theorem toSigned_eq (h : (Soft.ofWord w).number? = some a) :
    toSigned w = BitVec.ofInt 32 (a.clamp (-2 ^ 31) (2 ^ 31 - 1)) := by
  have hmagnitude := (stands_unpack h).abs
  rw [← unpack_and_magnitudeMask] at hmagnitude
  rw [toSigned, Soft.isNaN_of_number? h, if_neg Bool.false_ne_true, clamp_signed h,
    ← toNat_truncate hmagnitude]
  generalize truncate (Host.ofWord (w &&& Word.magnitudeMask)) = magnitude
  have hself := ofInt_toNat magnitude
  cases w.isNegative
  · rw [if_neg Bool.false_ne_true, if_neg Bool.false_ne_true]
    split_ifs with hsmall
    · rw [min_eq_right (by omega), hself]
    · rw [min_eq_left (by omega)]
      rfl
  · rw [if_pos rfl, if_pos rfl]
    split_ifs with hsmall
    · rw [max_eq_right (by omega), BitVec.ofInt_neg, hself]
    · rw [max_eq_left (by omega)]
      rfl

theorem ofUnsigned_eq (w : Word) : ofUnsigned w = Soft.ofInt w.toNat := pack_ofInt w.toNat

theorem ofSigned_eq (w : Word) : ofSigned w = Soft.ofInt w.toInt := by
  unfold ofSigned
  have hcases := w.toInt_eq_msb_cond
  split_ifs at hcases ⊢ with hmsb
  · have hlt := w.isLt
    have hlarge : 2 ^ 31 ≤ w.toNat := by
      have hle := BitVec.msb_eq_true_iff_two_mul_ge.mp hmsb
      omega
    have hnat : (-w).toNat = 2 ^ 32 - w.toNat := by
      rw [BitVec.toNat_neg, Nat.mod_eq_of_lt (by omega)]
    have hpos : 0 < ((-w).toNat : ℤ) := by omega
    have hneg : w.toInt = -((-w).toNat : ℤ) := by
      rw [hcases, hnat]
      omega
    rw [hneg, ← pack_ofInt, pack_ofInt_neg hpos]
    rfl
  · rw [hcases]
    exact ofUnsigned_eq w

end Backend.Host
end HartFloat
