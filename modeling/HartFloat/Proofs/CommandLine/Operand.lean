import HartFloat.CommandLine.Operand
import HartFloat.Proofs.Text.Numeral

/-!
# The forms of operands

A word is written as one or more hexadecimal digits, after the base mark or, for an instruction,
also without it; an integer is written as decimal digits with or without a sign. The readers accept
exactly these forms, except that a plus before hexadecimal digits is accepted as well.
-/
namespace HartFloat.CommandLine.Operand

open Text

variable {s digits : List Char} {t : String} {w : Word}

theorem mapError_eq_ok_iff {ε ε' α : Type} {x : Except ε α} {f : ε → ε'} {a : α} :
    x.mapError f = .ok a ↔ x = .ok a := by
  cases x <;> simp [Except.mapError]

theorem readWord_eq_ok_iff : readWord s = .ok w ↔ DenotesUnsigned 16 s w.toNat := by
  have hread : readWord s = .ok w ↔
      ∃ z, (Numeral.unsigned 16 32).read s = .ok z ∧ BitVec.ofInt 32 z = w := by
    unfold readWord
    cases (Numeral.unsigned 16 32).read s <;> simp [Except.map]
  simp only [hread, Numeral.read_unsigned_eq_ok_iff le_rfl]
  constructor
  · rintro ⟨-, ⟨m, hm, hlt, rfl⟩, rfl⟩
    rwa [BitVec.ofInt_natCast, BitVec.toNat_ofNat, Nat.mod_eq_of_lt hlt]
  · intro h
    exact ⟨w.toNat, ⟨w.toNat, h, w.isLt, rfl⟩, by simp⟩

theorem readInstruction_eq_ok_iff :
    readInstruction t = .ok w ↔ ∃ body, IsBody t.toList body ∧ DenotesUnsigned 16 body w.toNat := by
  simp [readInstruction, mapError_eq_ok_iff, readWord_eq_ok_iff, isBody_iff]

theorem readFloat_of_isMarked (h : IsMarked t.toList digits) :
    readFloat t = .ok w ↔ DenotesUnsigned 16 digits w.toNat := by
  simp [readFloat, afterBaseMark?_eq_some_iff.mpr h, mapError_eq_ok_iff, readWord_eq_ok_iff]

theorem readInteger_of_isMarked (h : IsMarked t.toList digits) :
    readInteger t = .ok w ↔ DenotesUnsigned 16 digits w.toNat := by
  simp [readInteger, afterBaseMark?_eq_some_iff.mpr h, mapError_eq_ok_iff, readWord_eq_ok_iff]

theorem ofInt_eq_iff {z : ℤ} : BitVec.ofInt 32 z = w ↔ (w.toNat : ℤ) = z % 2 ^ 32 := by
  have hmod : 0 ≤ z % 2 ^ 32 := Int.emod_nonneg z (by decide)
  have hvalue : ((BitVec.ofInt 32 z).toNat : ℤ) = z % 2 ^ 32 := by
    rw [BitVec.toNat_ofInt]
    exact Int.toNat_of_nonneg hmod
  rw [← BitVec.toNat_inj, ← Nat.cast_inj (R := ℤ), hvalue, eq_comm]

/-- An integer that some word stands for is in the range of the integers that are read. -/
theorem readInteger_of_not_isMarked (h : ∀ digits, ¬IsMarked t.toList digits) :
    readInteger t = .ok w ↔ ∃ z : ℤ, DenotesInteger 10 t.toList z ∧ -2 ^ 31 ≤ z ∧ z < 2 ^ 32 ∧
      (w.toNat : ℤ) = z % 2 ^ 32 := by
  have hread : readInteger t = .ok w ↔ ∃ z, (Numeral.signed 10 64).read t.toList = .ok z ∧
      (-0x80000000 ≤ z ∧ z < 0x100000000) ∧ BitVec.ofInt 32 z = w := by
    rw [readInteger, afterBaseMark?_eq_none_iff.mpr h]
    cases (Numeral.signed 10 64).read t.toList with
    | error e => simp [Except.mapError, Except.bind, bind]
    | ok z =>
      by_cases hz : -0x80000000 ≤ z ∧ z < 0x100000000
      · simp [Except.mapError, Except.bind, bind, pure, Except.pure, hz]
      · simp [Except.mapError, Except.bind, bind, hz]
  simp only [hread, Numeral.read_signed_eq_ok_iff (show 10 ≤ 16 by decide), ofInt_eq_iff]
  constructor
  · rintro ⟨z, ⟨hz, -⟩, ⟨hle, hlt⟩, hw⟩
    exact ⟨z, hz, hle, hlt, hw⟩
  · rintro ⟨z, hz, hle, hlt, hw⟩
    exact ⟨z, ⟨hz, by omega, by omega⟩, ⟨hle, hlt⟩, hw⟩

/-- Without a base mark, what is read from the text is a decimal integer, with or without a sign,
that some word stands for as signed or as unsigned. It is read as that word. -/
def TakesDecimals (t : String) : Prop :=
  (∀ digits, ¬IsMarked t.toList digits) → ∀ w : Word, readInteger t = .ok w ↔
    ∃ z : ℤ, DenotesInteger 10 t.toList z ∧ -2 ^ 31 ≤ z ∧ z < 2 ^ 32 ∧ (w.toNat : ℤ) = z % 2 ^ 32

/-- What is read from the text as a hexadecimal word is digits and nothing else. An instruction is
read so without the base mark too. -/
structure TakesDigitsOnly (t : String) : Prop where
  instruction (w : Word) :
    readInstruction t = .ok w ↔ ∃ body, IsBody t.toList body ∧ Denotes 16 body w.toNat
  float (digits : List Char) (h : IsMarked t.toList digits) (w : Word) :
    readFloat t = .ok w ↔ Denotes 16 digits w.toNat
  integer (digits : List Char) (h : IsMarked t.toList digits) (w : Word) :
    readInteger t = .ok w ↔ Denotes 16 digits w.toNat

/-- The readers take decimal integers in every text, and hexadecimal digits only in a text in which
there is no plus before digits that denote a word. Where there is one, all of them read that word.
-/
theorem takesDigitsOnly_iff (t : String) :
    TakesDecimals t ∧
      (TakesDigitsOnly t ↔
        ¬∃ digits, ∃ w : Word, IsBody t.toList ('+' :: digits) ∧ Denotes 16 digits w.toNat) ∧
      ∀ digits, ∀ w : Word, IsBody t.toList ('+' :: digits) → Denotes 16 digits w.toNat →
        readInstruction t = .ok w ∧ (IsMarked t.toList ('+' :: digits) →
          readFloat t = .ok w ∧ readInteger t = .ok w) := by
  have hplus {digits : List Char} {w : Word} (h : Denotes 16 digits w.toNat) :
      DenotesUnsigned 16 ('+' :: digits) w.toNat :=
    (denotesUnsigned_plus_iff le_rfl).mpr h
  refine ⟨fun h _ => readInteger_of_not_isMarked h, ⟨?only, ?digits⟩, ?plus⟩
  case only =>
    rintro h ⟨digits, w, hbody, hdigits⟩
    have hread := readInstruction_eq_ok_iff.mpr ⟨_, hbody, hplus hdigits⟩
    obtain ⟨body, hbody', hdenotes⟩ := (h.instruction w).mp hread
    obtain rfl := hbody.unique hbody'
    exact not_denotes_plus le_rfl hdenotes
  case digits =>
    intro hno
    have hunsigned {body : List Char} {w : Word} (hbody : IsBody t.toList body) :
        DenotesUnsigned 16 body w.toNat ↔ Denotes 16 body w.toNat := by
      refine or_iff_left ?_
      rintro ⟨digits, rfl, hdigits⟩
      exact hno ⟨digits, w, hbody, hdigits⟩
    refine ⟨fun w => ?_, fun digits h w => ?_, fun digits h w => ?_⟩
    · rw [readInstruction_eq_ok_iff]
      exact exists_congr fun body => and_congr_right hunsigned
    · rw [readFloat_of_isMarked h, hunsigned (Or.inl h)]
    · rw [readInteger_of_isMarked h, hunsigned (Or.inl h)]
  case plus =>
    intro digits w hbody hdigits
    refine ⟨readInstruction_eq_ok_iff.mpr ⟨_, hbody, hplus hdigits⟩, fun h => ⟨?_, ?_⟩⟩
    · exact (readFloat_of_isMarked h).mpr (hplus hdigits)
    · exact (readInteger_of_isMarked h).mpr (hplus hdigits)

/-- A plus after the base mark, and a negative integer. -/
theorem takesDigitsOnly_iff_marked :
    (IsMarked "0x+13".toList ['+', '1', '3'] ∧ Denotes 16 ['1', '3'] (0x13 : Word).toNat ∧
      ¬TakesDigitsOnly "0x+13" ∧ readInstruction "0x+13" = .ok 0x13 ∧
      readFloat "0x+13" = .ok 0x13 ∧ readInteger "0x+13" = .ok 0x13) ∧
    (∀ digits, ¬IsMarked "-1".toList digits) ∧ readInteger "-1" = .ok 0xffffffff := by
  have hmarked : IsMarked "0x+13".toList ['+', '1', '3'] := Or.inl (by decide)
  have hdigits : Denotes 16 ['1', '3'] (0x13 : Word).toNat :=
    ⟨by decide, [1, 3], .cons ⟨by decide, Or.inl rfl⟩ (.cons ⟨by decide, Or.inl rfl⟩ .nil), rfl⟩
  have hunmarked : ∀ digits, ¬IsMarked "-1".toList digits :=
    afterBaseMark?_eq_none_iff.mp (by decide)
  have hone : Denotes 10 ['1'] 1 := ⟨by decide, [1], .cons ⟨by decide, Or.inl rfl⟩ .nil, rfl⟩
  obtain ⟨-, hiff, hplus⟩ := takesDigitsOnly_iff "0x+13"
  obtain ⟨hinstruction, hafter⟩ := hplus ['1', '3'] 0x13 (Or.inl hmarked) hdigits
  obtain ⟨hfloat, hinteger⟩ := hafter hmarked
  refine ⟨⟨hmarked, hdigits, ?_, hinstruction, hfloat, hinteger⟩, hunmarked, ?_⟩
  · exact fun h => hiff.mp h ⟨_, _, Or.inl hmarked, hdigits⟩
  · exact ((takesDigitsOnly_iff "-1").1 hunmarked _).mpr
      ⟨-1, Or.inr ⟨['1'], 1, by decide, hone, by decide⟩, by decide, by decide, by decide⟩

/-- A plus after the base mark is no digit, yet the text is read. -/
theorem readInstruction_takes_plus :
    ¬∀ t : String, TakesDecimals t ∧ TakesDigitsOnly t := by
  intro h
  have hread : readInstruction "0x+13" = .ok 0x13 := by decide
  obtain ⟨body, hbody, hdigits⟩ := ((h "0x+13").2.instruction _).mp hread
  have hplus : IsBody "0x+13".toList ['+', '1', '3'] := Or.inl (Or.inl (by decide))
  obtain rfl := hplus.unique hbody
  exact not_denotes_plus le_rfl hdigits

end HartFloat.CommandLine.Operand
