import HartFloat.Backend.Host
import HartFloat.Proofs.Arithmetic.Number
import HartFloat.Proofs.Word.Fields
import Mathlib

/-!
# Native numbers, taken apart

The logical model of native numbers unpacks a word into a sign, a significand and an exponent and
packs the result of an operation again. What a word unpacks to stands for the same number as the
pattern in the word, and a significand in canonical form packs to the word of that pattern.
-/
namespace HartFloat

open Float.Model (UnpackedFloat)

def Sign.native : Sign → UnpackedFloat.Sign
  | positive => .positive
  | negative => .negative

namespace Native

open Backend.Soft (ofWord toWord)

abbrev single : Float.Model.Format := .binary32

/-- What a word stands for in the logical model of native numbers. -/
def unpack (w : Word) : UnpackedFloat := UnpackedFloat.unpack single w

def pack (u : UnpackedFloat) : Word := UnpackedFloat.pack single u

theorem native_beq (s t : Sign) : (s.native == t.native) = decide (s = t) := by
  cases s <;> cases t <;> rfl

theorem native_mul (s t : Sign) : s.native * t.native = (s.mul t).native := by
  cases s <;> cases t <;> rfl

theorem native_div (s t : Sign) : s.native / t.native = (s.mul t).native := by
  cases s <;> cases t <;> rfl

theorem native_flip (s : Sign) : -s.native = s.flip.native := by
  cases s <;> rfl

theorem apply_neg (s : UnpackedFloat.Sign) (n : ℤ) : (-s).apply n = -s.apply n := by
  cases s
  · exact (neg_neg n).symm
  · rfl

theorem apply_native (s : Sign) (n : ℤ) : s.native.apply n = s.factor * n := by
  cases s <;> simp [Sign.native, Sign.factor, UnpackedFloat.Sign.apply]

def signBits : Sign → BitVec 1
  | .positive => 0
  | .negative => 1

theorem toWord_pack (s : Sign) (e m : ℕ) :
    toWord (Pattern.pack .binary32 s e m) =
      Word.ofParts (signBits s) (BitVec.ofNat 8 e) (BitVec.ofNat 23 m) := by
  apply BitVec.eq_of_toNat_eq
  rw [Word.toNat_ofParts, BitVec.toNat_ofNat, BitVec.toNat_ofNat]
  cases s <;> rfl

theorem packComponents_eq (s : Sign) (e : BitVec 8) (f : BitVec 23) :
    UnpackedFloat.packComponents single s.native e f = Word.ofParts (signBits s) e f := by
  cases s <;> rfl

@[simp] theorem pack_notANumber : pack .notANumber = toWord (Pattern.canonicalNaN .binary32) := by
  decide

@[simp] theorem pack_infinity (s : Sign) :
    pack (.infinity s.native) = toWord (Pattern.pack .binary32 s 255 0) := by
  cases s <;> decide

@[simp] theorem pack_zero (s : Sign) :
    pack (.zero s.native) = toWord (Pattern.pack .binary32 s 0 0) := by
  cases s <;> decide

/-- A significand and an exponent in the form that finite numbers are packed from: as many bits as
the format has, or fewer at the least exponent. -/
structure Canonical (m : ℕ) (e : ℤ) : Prop where
  pos : 0 < m
  lt : m < 2 ^ 24
  le : -149 ≤ e
  normal_or_least : 2 ^ 23 ≤ m ∨ e = -149

theorem Canonical.value_pos {m : ℕ} {e : ℤ} (h : Canonical m e) : (0 : ℚ) < m * 2 ^ e :=
  mul_pos (by exact_mod_cast h.pos) (zpow_pos two_pos _)

theorem Canonical.signed_ne_zero {m : ℕ} {e : ℤ} (h : Canonical m e) (s : Sign) :
    (s.factor * m * 2 ^ e : ℚ) ≠ 0 := by
  have hvalue := h.value_pos.ne'
  cases s
  · simpa [Sign.factor, mul_assoc] using hvalue
  · simpa [Sign.factor, mul_assoc] using hvalue

theorem unit_eq : Format.binary32.unit = 2 ^ 23 := rfl

theorem log2_add_one_eq_iff {m : ℕ} (hpos : 0 < m) (hlt : m < 2 ^ 24) :
    m.log2 + 1 = 24 ↔ ¬m < 2 ^ 23 := by
  have hupper : m.log2 < 24 := (Nat.log2_lt hpos.ne').mpr hlt
  have hlower : m.log2 < 23 ↔ m < 2 ^ 23 := Nat.log2_lt hpos.ne'
  omega

theorem pack_finite (s : Sign) {m : ℕ} {e : ℤ} (h : Canonical m e) :
    pack (.finite s.native m e h.pos) = toWord (
      if e ≤ 104 then Pattern.ofSignificand .binary32 s (e + 150).toNat m
      else Pattern.pack .binary32 s 255 0) := by
  obtain ⟨hpos, hlt, he, hnormal⟩ := h
  have hbiased : (e + (single.exponentBias : ℤ) + (single.mantissaBitsWithoutImplicit : ℤ)).toNat =
      (e + 150).toNat := by
    change (e + (127 : ℕ) + (23 : ℕ)).toNat = (e + 150).toNat
    omega
  have hlarge : 2 ^ single.exponentBits ≤ (e + 150).toNat + 1 ↔ ¬e ≤ 104 := by
    change 2 ^ 8 ≤ (e + 150).toNat + 1 ↔ ¬e ≤ 104
    omega
  rw [pack, UnpackedFloat.pack]
  simp only [hbiased, hlarge, show single.mantissaBits = 24 from rfl, log2_add_one_eq_iff hpos hlt]
  by_cases hsmall : e ≤ 104
  · rw [if_neg (not_not.mpr hsmall), if_pos hsmall, Pattern.ofSignificand, unit_eq, toWord_pack]
    by_cases hsub : m < 2 ^ 23
    · rw [if_neg (not_not.mpr hsub), if_pos hsub]
      exact packComponents_eq s 0 (BitVec.ofNat 23 m)
    · rw [if_pos hsub, if_neg hsub]
      exact packComponents_eq s (BitVec.ofNat 8 _) (BitVec.ofNat 23 m)
  · rw [if_pos hsmall, if_neg hsmall, ← pack_infinity]
    rfl

/-- The unpacked number and the number are the same. Finite numbers are in canonical form. -/
inductive Stands : UnpackedFloat → Number → Prop
  | infinite (s : Sign) : Stands (.infinity s.native) (.infinite s)
  | zero (s : Sign) : Stands (.zero s.native) (.finite s 0)
  | finite (s : Sign) {m : ℕ} {e : ℤ} (h : Canonical m e) (hmax : e ≤ 104) :
    Stands (.finite s.native m e h.pos) (.finite s (s.factor * m * 2 ^ e))

variable {w : Word}

theorem signBits_sign (w : Word) : signBits (ofWord w).sign = w.signBit := by
  have hbit := w.isNegative_iff
  rw [Backend.Soft.sign_ofWord]
  rcases BitVec.eq_zero_or_eq_one w.signBit with hzero | hone
  · rw [hzero] at hbit ⊢
    rw [if_neg (by rw [hbit]; decide)]
    rfl
  · rw [hone] at hbit ⊢
    rw [if_pos (hbit.mpr rfl)]
    rfl

theorem ofBitVec_signBit (w : Word) :
    UnpackedFloat.Sign.ofBitVec w.signBit = (ofWord w).sign.native := by
  rw [← signBits_sign]
  cases (ofWord w).sign <;> rfl

theorem toNat_one_append (f : BitVec 23) : (1#1 ++ f).toNat = 2 ^ 23 + f.toNat := by
  have hor := Nat.two_pow_add_eq_or_of_lt f.isLt 1
  rw [mul_one] at hor
  rw [BitVec.toNat_append, Nat.shiftLeft_eq, hor]
  rfl

theorem unpack_eq (w : Word) :
    unpack w =
      if w.exponent = .allOnes 8 then
        if w.fraction = 0#23 then .infinity (ofWord w).sign.native else .notANumber
      else if w.exponent = 0#8 then
        if h : w.fraction = 0#23 then .zero (ofWord w).sign.native
        else .finite (ofWord w).sign.native w.fraction.toNat (w.exponent.toNat - 150 + 1)
          (Nat.pos_of_ne_zero fun hzero => h (BitVec.eq_of_toNat_eq hzero))
      else .finite (ofWord w).sign.native (1#1 ++ w.fraction).toNat (w.exponent.toNat - 150)
        (toNat_one_append w.fraction ▸ Nat.add_pos_left (Nat.two_pow_pos 23) _) := by
  rw [← ofBitVec_signBit]
  rfl

theorem unpack_of_isNaN (h : w.isNaN = true) : unpack w = .notANumber := by
  obtain ⟨he, hf⟩ := w.isNaN_iff.mp h
  rw [unpack_eq, if_pos he, if_neg hf]

theorem fieldValue_ofWord (w : Word) :
    (ofWord w).fieldValue =
      (ofWord w).sign.factor *
        ((if w.exponent = 0#8 then w.fraction.toNat else (1#1 ++ w.fraction).toNat : ℕ) : ℚ) *
        2 ^ (max (w.exponent.toNat : ℤ) 1 - 150) := by
  have hzero : (ofWord w).exponent ≠ 0 ↔ ¬w.exponent = 0#8 := by
    rw [Backend.Soft.exponent_ofWord, ← BitVec.toNat_inj]
    rfl
  have hsignificand : (ofWord w).fieldSignificand =
      if w.exponent = 0#8 then w.fraction.toNat else (1#1 ++ w.fraction).toNat := by
    rw [Pattern.fieldSignificand, Backend.Soft.mantissa_ofWord, toNat_one_append]
    by_cases he : w.exponent = 0#8
    · rw [if_pos he, if_neg fun h => hzero.mp h.2 he]
    · rw [if_neg he, if_pos ⟨rfl, hzero.mpr he⟩]
      rfl
  rw [Pattern.fieldValue, hsignificand, Backend.Soft.exponent_ofWord]
  congr 2
  change max (w.exponent.toNat : ℤ) 1 - (127 : ℕ) - (23 : ℕ) = _
  ring

theorem stands_unpack {a : Number} (h : (ofWord w).number? = some a) : Stands (unpack w) a := by
  have hfull : (ofWord w).exponent = Format.binary32.infinityExponent ↔
      w.exponent = .allOnes 8 := by
    rw [Backend.Soft.exponent_ofWord, ← BitVec.toNat_inj]
    rfl
  cases a with
  | infinite s =>
    obtain ⟨he, hm, rfl⟩ := Pattern.number?_eq_infinite h
    rw [Backend.Soft.mantissa_ofWord] at hm
    rw [unpack_eq, if_pos (hfull.mp he), if_pos (BitVec.eq_of_toNat_eq hm)]
    exact .infinite _
  | finite s q =>
    obtain ⟨hfinite, rfl, rfl⟩ := Pattern.number?_eq_finite h
    have hlt := w.fraction.isLt
    have hexponent := w.exponent.isLt
    have hnot : ¬w.exponent = .allOnes 8 := fun he => hfinite (hfull.mpr he)
    rw [unpack_eq, if_neg hnot, fieldValue_ofWord]
    by_cases he : w.exponent = 0#8
    · rw [if_pos he, if_pos he]
      by_cases hf : w.fraction = 0#23
      · rw [dif_pos hf, hf]
        simpa using Stands.zero (ofWord w).sign
      · rw [dif_neg hf, he]
        have hpos : 0 < w.fraction.toNat :=
          Nat.pos_of_ne_zero fun hzero => hf (BitVec.eq_of_toNat_eq hzero)
        exact .finite _ ⟨hpos, by omega, by decide, Or.inr (by decide)⟩ (by decide)
    · have hpos : w.exponent.toNat ≠ 0 := fun hzero => he (BitVec.eq_of_toNat_eq hzero)
      have hmax : w.exponent.toNat ≠ 255 := fun hmax => hnot (BitVec.eq_of_toNat_eq hmax)
      have hone := toNat_one_append w.fraction
      rw [if_neg he, if_neg he, max_eq_left (by omega)]
      exact .finite _ ⟨by omega, by omega, by omega, Or.inl (by omega)⟩ (by omega)

/-- Packing makes all NaNs the same one and keeps everything else. -/
theorem unpack_pack_unpack (w : Word) : unpack (pack (unpack w)) = unpack w := by
  have hpack : pack (unpack w) =
      if @UnpackedFloat.isNaNBits single w then UnpackedFloat.packedNaN single else w :=
    @UnpackedFloat.pack_unpack single w (by decide)
  rw [hpack]
  split_ifs with hnan
  · obtain ⟨he, hf⟩ := of_decide_eq_true hnan
    rw [unpack_of_isNaN (w.isNaN_iff.mpr ⟨he, hf⟩)]
    rfl
  · rfl

end Native

namespace Backend.Host

open Native

theorem unpack_ofWord (w : Word) : (ofWord w).toModel.unpack = unpack w := unpack_pack_unpack w

theorem toWord_add (a b : Word) :
    toWord (ofWord a + ofWord b) = pack (UnpackedFloat.add single (unpack a) (unpack b)) := by
  rw [← unpack_ofWord, ← unpack_ofWord]
  rfl

theorem toWord_sub (a b : Word) :
    toWord (ofWord a - ofWord b) = pack (UnpackedFloat.sub single (unpack a) (unpack b)) := by
  rw [← unpack_ofWord, ← unpack_ofWord]
  rfl

theorem toWord_mul (a b : Word) :
    toWord (ofWord a * ofWord b) = pack (UnpackedFloat.mul single (unpack a) (unpack b)) := by
  rw [← unpack_ofWord, ← unpack_ofWord]
  rfl

theorem toWord_div (a b : Word) :
    toWord (ofWord a / ofWord b) = pack (UnpackedFloat.div single (unpack a) (unpack b)) := by
  rw [← unpack_ofWord, ← unpack_ofWord]
  rfl

end Backend.Host
end HartFloat
