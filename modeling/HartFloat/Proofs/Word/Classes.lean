import HartFloat.Proofs.Word.Fields

/-!
# Agreement of the tests on words with the class of the pattern

The masks that tell NaNs and zeros, the kinds of the classify instruction, and the class of the
single-precision pattern in a word are each computed from the bits in a way of their own. They agree
on every word, and the classify instruction answers with the bit of the class and no other.
-/
namespace HartFloat

/-- The kind that the classify instruction has for the patterns of a class. -/
def NumberClass.classification : NumberClass → Classification
  | negativeInfinity => .negInfinity
  | negativeNormal => .negNormal
  | negativeSubnormal => .negSubnormal
  | negativeZero => .negZero
  | positiveInfinity => .posInfinity
  | positiveNormal => .posNormal
  | positiveSubnormal => .posSubnormal
  | positiveZero => .posZero
  | quietNaN => .quietNaN
  | signalingNaN => .signalingNaN

namespace Classification

/-- The classes in the order of their bits in the answer of the classify instruction. -/
def classes : List NumberClass :=
  [.negativeInfinity, .negativeNormal, .negativeSubnormal, .negativeZero, .positiveZero,
    .positiveSubnormal, .positiveNormal, .positiveInfinity, .signalingNaN, .quietNaN]

variable (c : Classification) (i : ℕ)

@[simp] theorem classification_numberClass : c.numberClass.classification = c := by
  cases c <;> rfl

theorem bit_lt_length_classes : c.bit < classes.length := by
  cases c <;> decide

theorem getElem?_classes_bit : classes[c.bit]? = some c.numberClass := by
  cases c <;> rfl

theorem getElem?_classes_eq_some_iff : classes[i]? = some c.numberClass ↔ c.bit = i := by
  have hnodup : classes.Nodup := by decide
  rw [← getElem?_classes_bit, eq_comm]
  exact List.getElem?_inj (bit_lt_length_classes c) hnodup

theorem getLsbD_mask : c.mask.getLsbD i = true ↔ c.bit = i := by
  have hwidth : c.bit < 32 := by cases c <;> decide
  have hmask : c.mask = BitVec.twoPow 32 c.bit := BitVec.twoPow_eq ..
  simp [hmask, BitVec.getLsbD_twoPow, hwidth]

end Classification

namespace Word

open Backend.Soft

/-- What is told from the bits of the word is the class of the pattern that it holds. -/
structure TellsClass (w : Word) : Prop where
  kind : Classification.ofWord w = (ofWord w).classify.classification
  isNaN_iff : w.isNaN = true ↔
    (ofWord w).classify = .signalingNaN ∨ (ofWord w).classify = .quietNaN
  isZero_iff : w.isZero = true ↔
    (ofWord w).classify = .negativeZero ∨ (ofWord w).classify = .positiveZero
  getLsbD_classify (i : ℕ) : w.classify.getLsbD i = true ↔
    Classification.classes[i]? = some (ofWord w).classify

/-- On every word the masks, the kinds and the answer of the classify instruction agree with the
class of the pattern. -/
theorem tellsClass (w : Word) : w.TellsClass where
  kind := by rw [classify_ofWord, Classification.classification_numberClass]
  isNaN_iff := by
    rw [← isNaN_ofWord, Pattern.isNaN, NumberClass.isNaN, Bool.or_eq_true, beq_iff_eq, beq_iff_eq]
    exact or_comm
  isZero_iff := by
    rw [← isZero_ofWord, Pattern.isZero, NumberClass.isZero, Bool.or_eq_true, beq_iff_eq,
      beq_iff_eq]
  getLsbD_classify i := by
    rw [classify, Classification.getLsbD_mask, classify_ofWord,
      Classification.getElem?_classes_eq_some_iff]

end Word
end HartFloat
