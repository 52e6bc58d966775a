import HartFloat.Instruction.Table
import HartFloat.Proofs.Instruction.Conflicts
import Mathlib.Tactic

/-!
# Instruction formats

Each operation has a coding: its opcode, and the function code, second source and selector where
they are fixed. The fields that a coding leaves free hold operands; an operation without a function
code has a third source and the mark of single precision in its place. Decoding reads exactly the
words that a coding assembles, and reads back what they were assembled from.
-/
namespace HartFloat

namespace Word

/-- The word with the given fields, from the function code down to the opcode. -/
def ofFields (funct7 : BitVec 7) (rs2 rs1 : BitVec 5) (funct3 : BitVec 3) (rd : BitVec 5)
    (opcode : BitVec 7) : Word :=
  funct7 ++ rs2 ++ rs1 ++ funct3 ++ rd ++ opcode

variable {f f' : BitVec 7} {t t' s s' d d' : BitVec 5} {n n' : BitVec 3} {c c' : BitVec 7}

theorem ofFields_extractLsb' (w : Word) :
    ofFields (w.extractLsb' 25 7) (w.extractLsb' 20 5) (w.extractLsb' 15 5) (w.extractLsb' 12 3)
      (w.extractLsb' 7 5) (w.extractLsb' 0 7) = w := by
  unfold ofFields
  rw [BitVec.extractLsb'_append_extractLsb'_eq_extractLsb' (show 25 = 20 + 5 from rfl),
    BitVec.extractLsb'_append_extractLsb'_eq_extractLsb' (show 20 = 15 + 5 from rfl),
    BitVec.extractLsb'_append_extractLsb'_eq_extractLsb' (show 15 = 12 + 3 from rfl),
    BitVec.extractLsb'_append_extractLsb'_eq_extractLsb' (show 12 = 7 + 5 from rfl),
    BitVec.extractLsb'_append_extractLsb'_eq_extractLsb' (show 7 = 0 + 7 from rfl)]
  exact BitVec.extractLsb'_eq_self

theorem ofFields_and :
    ofFields f t s n d c &&& ofFields f' t' s' n' d' c' =
      ofFields (f &&& f') (t &&& t') (s &&& s') (n &&& n') (d &&& d') (c &&& c') := by
  have h : (f ++ t ++ s ++ n ++ d ++ c) &&& (f' ++ t' ++ s' ++ n' ++ d' ++ c') =
      (f &&& f') ++ (t &&& t') ++ (s &&& s') ++ (n &&& n') ++ (d &&& d') ++ (c &&& c') := by
    simp only [BitVec.and_append]
  exact h

theorem extractLsb'_ofFields :
    (ofFields f t s n d c).extractLsb' 25 7 = f ∧ (ofFields f t s n d c).extractLsb' 20 5 = t ∧
      (ofFields f t s n d c).extractLsb' 15 5 = s ∧ (ofFields f t s n d c).extractLsb' 12 3 = n ∧
      (ofFields f t s n d c).extractLsb' 7 5 = d ∧ (ofFields f t s n d c).extractLsb' 0 7 = c := by
  unfold ofFields
  refine ⟨?_, ?_, ?_, ?_, ?_, ?_⟩ <;>
    simp (disch := omega) only [BitVec.extractLsb'_append_eq_of_le, Nat.reduceSub,
      BitVec.extractLsb'_append_eq_right, BitVec.extractLsb'_eq_self]

theorem ofFields_inj :
    ofFields f t s n d c = ofFields f' t' s' n' d' c' ↔
      f = f' ∧ t = t' ∧ s = s' ∧ n = n' ∧ d = d' ∧ c = c' := by
  constructor
  · intro h
    obtain ⟨hf, ht, hs, hn, hd, hc⟩ := extractLsb'_ofFields (f := f) (t := t) (s := s) (n := n)
      (d := d) (c := c)
    obtain ⟨hf', ht', hs', hn', hd', hc'⟩ := extractLsb'_ofFields (f := f') (t := t') (s := s')
      (n := n') (d := d') (c := c')
    rw [h] at hf ht hs hn hd hc
    exact ⟨hf.symm.trans hf', ht.symm.trans ht', hs.symm.trans hs', hn.symm.trans hn',
      hd.symm.trans hd', hc.symm.trans hc'⟩
  · rintro ⟨rfl, rfl, rfl, rfl, rfl, rfl⟩
    rfl

end Word

namespace Instruction

/-- What the format of an operation fixes. Without a function code the word has a third source and
the mark of single precision there; without a selector it has a rounding field. -/
structure Coding where
  funct7 : Option (BitVec 7) := none
  rs2 : Option (BitVec 5) := none
  funct3 : Option (BitVec 3) := none
  opcode : BitVec 7 := 0b1010011

namespace Coding

/-- The operands that the format has room for; those that it lacks are zero. -/
structure Admits (c : Coding) (o : Operands) : Prop where
  rs1_lt : o.rs1 < 32
  rs2_lt : o.rs2 < if c.rs2.isSome then 1 else 32
  rs3_lt : o.rs3 < if c.funct7.isSome then 1 else 32
  rd_lt : o.rd < 32
  rm_lt : o.rm < if c.funct3.isSome then 1 else 8

/-- The word that the format makes of the operands. -/
def assemble (c : Coding) (o : Operands) : Word :=
  .ofFields (c.funct7.getD (BitVec.ofNat 5 o.rs3 ++ 0b00#2)) (c.rs2.getD (.ofNat 5 o.rs2))
    (.ofNat 5 o.rs1) (c.funct3.getD (.ofNat 3 o.rm)) (.ofNat 5 o.rd) c.opcode

def operands (c : Coding) (w : Word) : Operands where
  rs1 := w.rs1
  rs2 := if c.rs2.isSome then 0 else w.rs2
  rs3 := if c.funct7.isSome then 0 else w.rs3
  rd := w.rd
  rm := if c.funct3.isSome then 0 else w.rm

def mask (c : Coding) : Word :=
  .ofFields (if c.funct7.isSome then .allOnes 7 else 0b0000011)
    (if c.rs2.isSome then .allOnes 5 else 0) 0 (if c.funct3.isSome then .allOnes 3 else 0) 0
    (.allOnes 7)

def pattern (c : Coding) : Word :=
  .ofFields (c.funct7.getD 0) (c.rs2.getD 0) 0 (c.funct3.getD 0) 0 c.opcode

variable {f : BitVec 7} {t s d : BitVec 5} {n : BitVec 3} {k : BitVec 7}

theorem and_eq_getD_iff {l : ℕ} (fixed : Option (BitVec l)) (x : BitVec l) :
    x &&& (if fixed.isSome then .allOnes l else 0) = fixed.getD 0 ↔ fixed.getD x = x := by
  cases fixed <;> simp [eq_comm]

theorem and_precision_eq_getD_iff (fixed : Option (BitVec 7)) (x : BitVec 7) :
    x &&& (if fixed.isSome then .allOnes 7 else 0b0000011) = fixed.getD 0 ↔
      fixed.getD (x.extractLsb' 2 5 ++ 0b00#2) = x := by
  cases fixed with
  | none =>
    revert x
    decide
  | some v =>
    simp only [Option.isSome_some, if_true, Option.getD_some, BitVec.and_allOnes]
    exact eq_comm

theorem operands_ofFields (c : Coding) :
    c.operands (.ofFields f t s n d k) =
      { rs1 := s.toNat
        rs2 := if c.rs2.isSome then 0 else t.toNat
        rs3 := if c.funct7.isSome then 0 else (f.extractLsb' 2 5).toNat
        rd := d.toNat
        rm := if c.funct3.isSome then 0 else n.toNat } := by
  obtain ⟨-, ht, hs, hn, hd, -⟩ := Word.extractLsb'_ofFields (f := f) (t := t) (s := s) (n := n)
    (d := d) (c := k)
  have hf : (Word.ofFields f t s n d k).extractLsb' 27 5 = f.extractLsb' 2 5 := by
    unfold Word.ofFields
    simp (disch := omega) only [BitVec.extractLsb'_append_eq_of_le, Nat.reduceSub]
  simp only [operands, Word.rs1, Word.rs2, Word.rs3, Word.rd, Word.rm, Word.funct3, Word.bits, hf,
    ht, hs, hn, hd]

theorem getD_ofNat_toNat {l : ℕ} (fixed : Option (BitVec l)) (x : BitVec l) :
    fixed.getD (.ofNat l (if fixed.isSome then 0 else x.toNat)) = fixed.getD x := by
  cases fixed <;> simp

theorem assemble_operands_ofFields (c : Coding) :
    c.assemble (c.operands (.ofFields f t s n d k)) =
      .ofFields (c.funct7.getD (f.extractLsb' 2 5 ++ 0b00#2)) (c.rs2.getD t) s (c.funct3.getD n) d
        c.opcode := by
  have hf (y : BitVec 5) : c.funct7.getD (BitVec.ofNat 5 (if c.funct7.isSome then 0 else y.toNat) ++
      0b00#2) = c.funct7.getD (y ++ 0b00#2) := by
    cases c.funct7 <;> simp
  simp only [operands_ofFields, assemble, hf, getD_ofNat_toNat, BitVec.ofNat_toNat,
    BitVec.setWidth_eq]

/-- A word has the fixed bits of a format exactly when its operands, in that format, give it. -/
theorem and_mask_eq_pattern_iff (c : Coding) (w : Word) :
    w &&& c.mask = c.pattern ↔ c.assemble (c.operands w) = w := by
  rw [← Word.ofFields_extractLsb' w, assemble_operands_ofFields, mask, pattern, Word.ofFields_and,
    Word.ofFields_inj, Word.ofFields_inj, and_precision_eq_getD_iff, and_eq_getD_iff,
    and_eq_getD_iff, BitVec.and_allOnes, eq_comm (a := c.opcode)]
  simp only [BitVec.ofNat_eq_ofNat, BitVec.and_zero, true_and]

theorem admits_operands (c : Coding) (w : Word) : c.Admits (c.operands w) := by
  refine ⟨BitVec.isLt _, ?_, ?_, BitVec.isLt _, ?_⟩ <;> dsimp only [operands] <;> split
  · decide
  · exact BitVec.isLt _
  · decide
  · exact BitVec.isLt _
  · decide
  · exact BitVec.isLt _

theorem toNat_getD {l m : ℕ} (fixed : Option (BitVec l))
    (h : m < if fixed.isSome then 1 else 2 ^ l) :
    (if fixed.isSome then 0 else (fixed.getD (.ofNat l m)).toNat) = m := by
  cases fixed with
  | none => simpa using Nat.mod_eq_of_lt h
  | some v => simpa using (Nat.lt_one_iff.mp h).symm

theorem operands_assemble {c : Coding} {o : Operands} (h : c.Admits o) :
    c.operands (c.assemble o) = o := by
  have hf : (if c.funct7.isSome then 0 else
      ((c.funct7.getD (BitVec.ofNat 5 o.rs3 ++ 0b00#2)).extractLsb' 2 5).toNat) = o.rs3 := by
    have h3 := h.rs3_lt
    cases hc : c.funct7 with
    | none =>
      rw [hc] at h3
      simp only [Option.isSome_none, Bool.false_eq_true, if_false, Option.getD_none,
        BitVec.extractLsb'_append_eq_left, BitVec.toNat_ofNat]
      exact Nat.mod_eq_of_lt h3
    | some v =>
      rw [hc] at h3
      simpa using (Nat.lt_one_iff.mp h3).symm
  rw [assemble, operands_ofFields, hf, toNat_getD c.rs2 h.rs2_lt, toNat_getD c.funct3 h.rm_lt,
    BitVec.toNat_ofNat, BitVec.toNat_ofNat, Nat.mod_eq_of_lt h.rs1_lt, Nat.mod_eq_of_lt h.rd_lt]

end Coding
end Instruction

/-- How the operation is written. The fused operations have opcodes of their own. -/
def Operation.coding : Operation → Instruction.Coding
  | fadd => { funct7 := some 0b0000000 }
  | fsub => { funct7 := some 0b0000100 }
  | fmul => { funct7 := some 0b0001000 }
  | fdiv => { funct7 := some 0b0001100 }
  | fsqrt => { funct7 := some 0b0101100, rs2 := some 0b00000 }
  | fmin => { funct7 := some 0b0010100, funct3 := some 0b000 }
  | fmax => { funct7 := some 0b0010100, funct3 := some 0b001 }
  | fmadd => { opcode := 0b1000011 }
  | fmsub => { opcode := 0b1000111 }
  | fnmadd => { opcode := 0b1001111 }
  | fnmsub => { opcode := 0b1001011 }
  | fsgnj => { funct7 := some 0b0010000, funct3 := some 0b000 }
  | fsgnjn => { funct7 := some 0b0010000, funct3 := some 0b001 }
  | fsgnjx => { funct7 := some 0b0010000, funct3 := some 0b010 }
  | feq => { funct7 := some 0b1010000, funct3 := some 0b010 }
  | flt => { funct7 := some 0b1010000, funct3 := some 0b001 }
  | fle => { funct7 := some 0b1010000, funct3 := some 0b000 }
  | fcvtWS => { funct7 := some 0b1100000, rs2 := some 0b00000 }
  | fcvtWuS => { funct7 := some 0b1100000, rs2 := some 0b00001 }
  | fcvtSW => { funct7 := some 0b1101000, rs2 := some 0b00000 }
  | fcvtSWu => { funct7 := some 0b1101000, rs2 := some 0b00001 }
  | fmvXW => { funct7 := some 0b1110000, rs2 := some 0b00000, funct3 := some 0b000 }
  | fmvWX => { funct7 := some 0b1111000, rs2 := some 0b00000, funct3 := some 0b000 }
  | fclass => { funct7 := some 0b1110000, rs2 := some 0b00000, funct3 := some 0b001 }

namespace Instruction

variable {w : Word} {d : Decoded} {op : Operation} {o : Operands}

theorem conflictsIn_table : Decoder.conflictsIn table = [] := by decide +kernel

theorem coding_of_mem_table {e : Definition} (h : e ∈ table) :
    e.mask = e.operation.coding.mask ∧ e.pattern = e.operation.coding.pattern ∧
      e.operands = e.operation.coding.operands := by
  unfold table at h
  fin_cases h <;> exact ⟨by decide, by decide, rfl⟩

theorem exists_mem_table (op : Operation) : ∃ e ∈ table, e.operation = op := by
  cases op <;> decide

theorem decode_eq_some_iff :
    decode w = some d ↔
      d.raw = w ∧ d.operands = d.operation.coding.operands w ∧
        d.operation.coding.assemble d.operands = w := by
  unfold decode Decoder.decode
  rw [Option.map_eq_some_iff]
  constructor
  · rintro ⟨e, he, rfl⟩
    obtain ⟨hmem, hw⟩ := (Decoder.find?_isMatch_eq_some_iff conflictsIn_table).mp he
    obtain ⟨hmask, hpattern, hoperands⟩ := coding_of_mem_table hmem
    rw [Definition.isMatch_iff, hmask, hpattern, Coding.and_mask_eq_pattern_iff] at hw
    simp only [Definition.decode, hoperands]
    exact ⟨trivial, trivial, hw⟩
  · obtain ⟨raw, op, o⟩ := d
    rintro ⟨hraw, ho, hw⟩
    dsimp only at hraw ho hw
    subst hraw ho
    obtain ⟨e, hmem, rfl⟩ := exists_mem_table op
    obtain ⟨hmask, hpattern, hoperands⟩ := coding_of_mem_table hmem
    refine ⟨e, (Decoder.find?_isMatch_eq_some_iff conflictsIn_table).mpr ⟨hmem, ?_⟩, ?_⟩
    · rw [Definition.isMatch_iff, hmask, hpattern, Coding.and_mask_eq_pattern_iff]
      exact hw
    · simp only [Definition.decode, hoperands]

theorem decode_assemble (h : op.coding.Admits o) :
    decode (op.coding.assemble o) = some ⟨op.coding.assemble o, op, o⟩ :=
  decode_eq_some_iff.mpr ⟨rfl, (Coding.operands_assemble h).symm, rfl⟩

theorem admits_of_decode (h : decode w = some d) : d.operation.coding.Admits d.operands := by
  rw [(decode_eq_some_iff.mp h).2.1]
  exact Coding.admits_operands _ _

theorem opcode_assemble (c : Coding) (o : Operands) : (c.assemble o).opcode = c.opcode.toNat := by
  unfold Word.opcode Word.bits Coding.assemble
  rw [Word.extractLsb'_ofFields.2.2.2.2.2]

theorem opcode_coding_mem (op : Operation) : op.coding.opcode.toNat ∈ Opcode.computational := by
  cases op <;> decide

theorem opcode_of_decode (h : decode w = some d) : w.opcode ∈ Opcode.computational := by
  rw [← (decode_eq_some_iff.mp h).2.2, opcode_assemble]
  exact opcode_coding_mem d.operation

/-- The instruction formats and the decoder agree. What a format assembles from operands it has
room for is decoded to them, and what is decoded is assembled back to the same word. So a word is
determined by its operation and operands, no two entries of the table match the same word, the
opcode is one of the five computational ones, and no load or store is decoded. -/
theorem decode_agrees_with_formats :
    (∀ (op : Operation) (o : Operands), op.coding.Admits o →
      decode (op.coding.assemble o) = some ⟨op.coding.assemble o, op, o⟩) ∧
    (∀ w d, decode w = some d →
      d.raw = w ∧ d.operation.coding.Admits d.operands ∧
        d.operation.coding.assemble d.operands = w) ∧
    (∀ w w' d d', decode w = some d → decode w' = some d' → d.operation = d'.operation →
      d.operands = d'.operands → w = w') ∧
    (∀ w, (table.filter (·.isMatch w)).length ≤ 1) ∧
    (∀ w d, decode w = some d → w.opcode ∈ Opcode.computational) ∧
    ∀ w : Word, w.opcode = Opcode.loadFloat ∨ w.opcode = Opcode.storeFloat → decode w = none := by
  refine ⟨fun op o => decode_assemble, fun w d h => ?_, fun w w' d d' h h' hop ho => ?_,
    Decoder.length_filter_isMatch_le conflictsIn_table, fun w d => opcode_of_decode,
    fun w hw => ?_⟩
  · obtain ⟨hraw, -, hword⟩ := decode_eq_some_iff.mp h
    exact ⟨hraw, admits_of_decode h, hword⟩
  · rw [← (decode_eq_some_iff.mp h).2.2, ← (decode_eq_some_iff.mp h').2.2, hop, ho]
  · by_contra hne
    obtain ⟨d, hd⟩ := Option.ne_none_iff_exists'.mp hne
    have hmem := opcode_of_decode hd
    rcases hw with hw | hw <;> rw [hw] at hmem <;> revert hmem <;> decide

/-- A fused operation with all its fields in use. -/
theorem decode_agrees_with_formats_fmadd :
    Operation.fmadd.coding.Admits ⟨1, 2, 31, 3, 7⟩ ∧
      decode 0xf820f1c3 = some ⟨0xf820f1c3, .fmadd, ⟨1, 2, 31, 3, 7⟩⟩ := by
  have h : Operation.fmadd.coding.Admits ⟨1, 2, 31, 3, 7⟩ := by
    constructor <;> decide
  exact ⟨h, decode_agrees_with_formats.1 .fmadd _ h⟩

end Instruction
end HartFloat
