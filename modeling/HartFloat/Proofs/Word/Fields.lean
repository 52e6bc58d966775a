import HartFloat.Backend.Soft
import HartFloat.Proofs.Pattern.Fields
import HartFloat.Word.Classification

/-!
# Words as single-precision patterns

A word consists of a sign bit, an exponent of eight bits and a fraction of 23 bits. The tests that
mask its bits are questions about these three parts, and the parts are the fields of the pattern
that the word holds, so that both have the same class.
-/
namespace HartFloat

namespace Word

/-- The word with the given sign bit, exponent and fraction. -/
def ofParts (s : BitVec 1) (e : BitVec 8) (f : BitVec 23) : Word := s ++ e ++ f

def signBit (w : Word) : BitVec 1 := w.extractLsb' 31 1

def exponent (w : Word) : BitVec 8 := w.extractLsb' 23 8

def fraction (w : Word) : BitVec 23 := w.extractLsb' 0 23

variable {s s' : BitVec 1} {e e' : BitVec 8} {f f' : BitVec 23} {w : Word}

@[simp] theorem ofParts_parts (w : Word) : ofParts w.signBit w.exponent w.fraction = w := by
  unfold ofParts signBit exponent fraction
  rw [BitVec.extractLsb'_append_extractLsb'_eq_extractLsb' (show 31 = 23 + 8 from rfl),
    BitVec.extractLsb'_append_extractLsb'_eq_extractLsb' (show 23 = 0 + 23 from rfl)]
  exact BitVec.extractLsb'_eq_self

@[simp] theorem signBit_ofParts : (ofParts s e f).signBit = s := by
  unfold ofParts signBit
  simp (disch := omega) only [BitVec.extractLsb'_append_eq_of_le, Nat.reduceSub,
    BitVec.extractLsb'_eq_self]

@[simp] theorem exponent_ofParts : (ofParts s e f).exponent = e := by
  unfold ofParts exponent
  simp (disch := omega) only [BitVec.extractLsb'_append_eq_of_le, Nat.reduceSub,
    BitVec.extractLsb'_append_eq_right]

@[simp] theorem fraction_ofParts : (ofParts s e f).fraction = f :=
  BitVec.extractLsb'_append_eq_right

theorem ofParts_inj : ofParts s e f = ofParts s' e' f' ↔ s = s' ∧ e = e' ∧ f = f' := by
  constructor
  · intro h
    refine ⟨?_, ?_, ?_⟩
    · simpa using congrArg signBit h
    · simpa using congrArg exponent h
    · simpa using congrArg fraction h
  · rintro ⟨rfl, rfl, rfl⟩
    rfl

theorem ofParts_and : ofParts s e f &&& ofParts s' e' f' =
    ofParts (s &&& s') (e &&& e') (f &&& f') := by
  have h : s ++ e ++ f &&& s' ++ e' ++ f' = (s &&& s') ++ (e &&& e') ++ (f &&& f') := by
    rw [BitVec.and_append, BitVec.and_append]
  exact h

theorem ofParts_xor : ofParts s e f ^^^ ofParts s' e' f' =
    ofParts (s ^^^ s') (e ^^^ e') (f ^^^ f') := by
  have h : s ++ e ++ f ^^^ s' ++ e' ++ f' = (s ^^^ s') ++ (e ^^^ e') ++ (f ^^^ f') := by
    rw [BitVec.xor_append, BitVec.xor_append]
  exact h

theorem toNat_ofParts (s : BitVec 1) (e : BitVec 8) (f : BitVec 23) :
    (ofParts s e f).toNat = (s.toNat * 2 ^ 8 + e.toNat) * 2 ^ 23 + f.toNat := by
  have hs := s.isLt
  have he := e.isLt
  have hf := f.isLt
  have h : (s ++ e ++ f).toNat = (s.toNat * 2 ^ 8 + e.toNat) * 2 ^ 23 + f.toNat := by
    rw [BitVec.toNat_append, BitVec.toNat_append, Nat.shiftLeft_eq, Nat.shiftLeft_eq,
      Nat.mul_comm _ (2 ^ 23), Nat.mul_comm _ (2 ^ 8), ← Nat.two_pow_add_eq_or_of_lt he,
      ← Nat.two_pow_add_eq_or_of_lt hf]
    ring
  exact h

theorem zero_eq : (0 : Word) = ofParts 0#1 0#8 0#23 := by decide

theorem signMask_eq : signMask = ofParts 1#1 0#8 0#23 := by decide

theorem magnitudeMask_eq : magnitudeMask = ofParts 0#1 (.allOnes 8) (.allOnes 23) := by decide

theorem and_ofParts (w : Word) (s : BitVec 1) (e : BitVec 8) (f : BitVec 23) :
    w &&& ofParts s e f = ofParts (w.signBit &&& s) (w.exponent &&& e) (w.fraction &&& f) := by
  rw [← ofParts_and, ofParts_parts]

theorem isNegative_iff (w : Word) : w.isNegative = true ↔ w.signBit = 1#1 := by
  rw [isNegative, bne_iff_ne, signMask_eq, and_ofParts, zero_eq, ne_eq, ofParts_inj]
  generalize w.signBit = s
  simp only [BitVec.and_zero, and_true]
  revert s
  decide

theorem isZero_iff (w : Word) : w.isZero = true ↔ w.exponent = 0#8 ∧ w.fraction = 0#23 := by
  rw [isZero, beq_iff_eq, magnitudeMask_eq, and_ofParts, zero_eq, ofParts_inj]
  simp only [BitVec.and_zero, BitVec.and_allOnes, true_and]

theorem isNaN_iff (w : Word) : w.isNaN = true ↔ w.exponent = .allOnes 8 ∧ w.fraction ≠ 0#23 := by
  have hexponent : (0x7f800000 : Word) = ofParts 0#1 (.allOnes 8) 0#23 := by decide
  have hfraction : (0x007fffff : Word) = ofParts 0#1 0#8 (.allOnes 23) := by decide
  rw [isNaN, Bool.and_eq_true, beq_iff_eq, bne_iff_ne, hexponent, hfraction, and_ofParts,
    and_ofParts, zero_eq, ne_eq, ofParts_inj, ofParts_inj]
  simp only [BitVec.and_zero, BitVec.and_allOnes, true_and, and_true]

theorem negate_eq (w : Word) :
    w.negate = ofParts (w.signBit ^^^ 1#1) w.exponent w.fraction := by
  calc w.negate = ofParts w.signBit w.exponent w.fraction ^^^ signMask := by
        rw [ofParts_parts, negate]
    _ = ofParts (w.signBit ^^^ 1#1) w.exponent w.fraction := by
        rw [signMask_eq, ofParts_xor, BitVec.xor_zero, BitVec.xor_zero]

theorem isNaN_negate (w : Word) : w.negate.isNaN = w.isNaN := by
  rw [Bool.eq_iff_iff, isNaN_iff, isNaN_iff, negate_eq, exponent_ofParts, fraction_ofParts]

end Word

namespace Backend.Soft

variable {w : Word}

theorem mantissa_ofWord (w : Word) : (ofWord w).mantissa = w.fraction.toNat := by
  rw [Word.fraction, BitVec.extractLsb'_toNat, Nat.shiftRight_zero]
  rfl

theorem exponent_ofWord (w : Word) : (ofWord w).exponent = w.exponent.toNat := by
  rw [Word.exponent, BitVec.extractLsb'_toNat, Nat.shiftRight_eq_div_pow]
  rfl

theorem topDigit_ofWord (w : Word) : (ofWord w).topDigit = w.signBit.toNat := by
  have hlt : w.toNat / 2 ^ 31 < 2 := Nat.div_lt_of_lt_mul w.isLt
  rw [Word.signBit, BitVec.extractLsb'_toNat, Nat.shiftRight_eq_div_pow, Nat.mod_eq_of_lt hlt]
  rfl

theorem sign_ofWord (w : Word) :
    (ofWord w).sign = if w.isNegative then .negative else .positive := by
  have hdigit : (ofWord w).topDigit ≠ 0 ↔ w.isNegative = true := by
    rw [topDigit_ofWord, Word.isNegative_iff]
    generalize w.signBit = s
    revert s
    decide
  rw [Pattern.sign]
  exact if_congr ((and_iff_right rfl).trans hdigit) rfl rfl

theorem msb_ofWord (w : Word) : (ofWord w).msb = w.fraction.msb := by
  have hlt := w.fraction.isLt
  rw [Pattern.msb, mantissa_ofWord, BitVec.msb_eq_decide, Bool.eq_iff_iff, beq_iff_eq,
    decide_eq_true_eq]
  change w.fraction.toNat / 2 ^ 22 % 2 = 1 ↔ 2 ^ 22 ≤ w.fraction.toNat
  omega

/-- The class of the pattern, without regard to the sign, by the parts of the word. -/
theorem magnitudeClass_ofWord (w : Word) :
    (ofWord w).magnitudeClass =
      if w.exponent = 0xff then
        if w.fraction = 0 then .positiveInfinity
        else if w.fraction.msb then .quietNaN else .signalingNaN
      else if w.exponent = 0 then
        if w.fraction = 0 then .positiveZero else .positiveSubnormal
      else .positiveNormal := by
  have hexponent : (ofWord w).exponent = 255 ↔ w.exponent = 0xff := by
    rw [exponent_ofWord, ← BitVec.toNat_inj]
    rfl
  have hzero : (ofWord w).exponent = 0 ↔ w.exponent = 0 := by
    rw [exponent_ofWord, ← BitVec.toNat_inj]
    rfl
  have hfraction : (ofWord w).mantissa = 0 ↔ w.fraction = 0 := by
    rw [mantissa_ofWord, ← BitVec.toNat_inj]
    rfl
  have hquiet : Format.binary32.quietNaNFormat.isQuiet (ofWord w).msb = w.fraction.msb := by
    rw [msb_ofWord]
    rfl
  rw [Pattern.magnitudeClass, hquiet, show Format.binary32.infinityExponent = 255 from rfl,
    show Format.binary32.implicitLeadingBit = true from rfl, if_pos rfl]
  simp only [hexponent, hzero, hfraction]
  by_cases he : w.exponent = 0xff
  · rw [if_neg (by rw [he]; decide), if_pos he, if_pos he]
  · rw [if_neg he, if_neg he]

end Backend.Soft

/-- The class of the patterns of a kind. -/
def Classification.numberClass : Classification → NumberClass
  | negInfinity => .negativeInfinity
  | negNormal => .negativeNormal
  | negSubnormal => .negativeSubnormal
  | negZero => .negativeZero
  | posZero => .positiveZero
  | posSubnormal => .positiveSubnormal
  | posNormal => .positiveNormal
  | posInfinity => .positiveInfinity
  | signalingNaN => .signalingNaN
  | quietNaN => .quietNaN

namespace Backend.Soft

theorem classify_ofWord (w : Word) :
    (ofWord w).classify = (Classification.ofWord w).numberClass := by
  rw [Pattern.classify, magnitudeClass_ofWord, sign_ofWord]
  change _ = (if w.exponent = 0xff then
      if w.fraction = 0 then (if w.isNegative then .negInfinity else .posInfinity)
      else if w.fraction.msb then .quietNaN
      else .signalingNaN
    else if w.exponent = 0 then
      if w.fraction = 0 then (if w.isNegative then .negZero else .posZero)
      else if w.isNegative then .negSubnormal
      else .posSubnormal
    else if w.isNegative then .negNormal
    else .posNormal : Classification).numberClass
  cases w.isNegative <;> split_ifs <;> rfl

theorem isNaN_ofWord (w : Word) : (ofWord w).isNaN = w.isNaN := by
  rw [Bool.eq_iff_iff, Word.isNaN_iff, Pattern.isNaN, Pattern.classify, magnitudeClass_ofWord]
  change _ ↔ w.exponent = 0xff ∧ w.fraction ≠ 0
  cases (ofWord w).sign <;> split_ifs <;> simp_all <;> decide

theorem isZero_ofWord (w : Word) : (ofWord w).isZero = w.isZero := by
  rw [Bool.eq_iff_iff, Word.isZero_iff, Pattern.isZero, Pattern.classify, magnitudeClass_ofWord]
  cases (ofWord w).sign <;> split_ifs <;> simp_all <;> decide

theorem isSignaling_ofWord (w : Word) :
    (ofWord w).isSignaling = true ↔ Classification.ofWord w = .signalingNaN := by
  rw [Pattern.isSignaling, classify_ofWord]
  cases Classification.ofWord w <;> decide

end Backend.Soft
end HartFloat
