import HartFloat.Text.Numeral
import Mathlib.Data.Nat.Digits.Defs
import Mathlib.Tactic

/-!
# What numerals denote

A run of digits denotes a number by the places of the digits. Reading accepts exactly the runs of
one or more digits whose number is in the range. A plus may stand before them, and a minus where the
range has negative integers. The range is checked after every digit, which comes to the same as a
check at the end because the values only move away from zero.
-/
namespace HartFloat.Text

/-- The character stands for the digit of the base. Digits from ten on are letters of either case.
-/
def IsDigit (base : ℕ) (c : Char) (d : ℕ) : Prop :=
  d < base ∧ (c = d.digitChar ∨ c = d.digitChar.toUpper)

/-- The text is one or more digits, the most significant first, that denote the number. -/
def Denotes (base : ℕ) (s : List Char) (m : ℕ) : Prop :=
  s ≠ [] ∧ ∃ ds, List.Forall₂ (IsDigit base) s ds ∧ Nat.ofDigits base ds.reverse = m

/-- The text denotes the number, or does so after a plus. -/
def DenotesUnsigned (base : ℕ) (s : List Char) (m : ℕ) : Prop :=
  Denotes base s m ∨ ∃ digits, s = '+' :: digits ∧ Denotes base digits m

/-- The text denotes the integer, which a sign may stand before. -/
def DenotesInteger (base : ℕ) (s : List Char) (z : ℤ) : Prop :=
  (∃ m : ℕ, DenotesUnsigned base s m ∧ z = m) ∨
    ∃ digits, ∃ m : ℕ, s = '-' :: digits ∧ Denotes base digits m ∧ z = -m

variable {base d k m : ℕ} {c : Char} {s : List Char} {z : ℤ}

theorem hexValue?_eq_some_iff : hexValue? c = some d ↔ IsDigit 16 c d := by
  constructor
  · intro h
    unfold hexValue? at h
    -- In each of the three intervals there are few codes, and the code determines the character.
    split_ifs at h with hdecimal hlower hupper <;> cases h
    · obtain ⟨hle, hge⟩ : 48 ≤ c.toNat ∧ c.toNat ≤ 57 := hdecimal
      refine ⟨?_, Or.inl (Char.toNat_inj.mp ?_)⟩ <;> interval_cases c.toNat <;> decide
    · obtain ⟨hle, hge⟩ : 97 ≤ c.toNat ∧ c.toNat ≤ 102 := hlower
      refine ⟨?_, Or.inl (Char.toNat_inj.mp ?_)⟩ <;> interval_cases c.toNat <;> decide
    · obtain ⟨hle, hge⟩ : 65 ≤ c.toNat ∧ c.toNat ≤ 70 := hupper
      refine ⟨?_, Or.inr (Char.toNat_inj.mp ?_)⟩ <;> interval_cases c.toNat <;> decide
  · rintro ⟨hd, rfl | rfl⟩ <;> interval_cases d <;> rfl

theorem not_denotes_nil : ¬Denotes base [] m := fun h => h.1 rfl

theorem not_denotes_cons (hbase : base ≤ 16) (hc : hexValue? c = none) :
    ¬Denotes base (c :: s) m := by
  rintro ⟨-, ds, hds, -⟩
  obtain ⟨d, -, ⟨hd, hchar⟩, -⟩ := List.forall₂_cons_left_iff.mp hds
  have hvalue := hexValue?_eq_some_iff.mpr ⟨hd.trans_le hbase, hchar⟩
  rw [hc] at hvalue
  cases hvalue

theorem not_denotes_plus (hbase : base ≤ 16) : ¬Denotes base ('+' :: s) m :=
  not_denotes_cons hbase (by decide)

theorem not_denotes_minus (hbase : base ≤ 16) : ¬Denotes base ('-' :: s) m :=
  not_denotes_cons hbase (by decide)

theorem denotesUnsigned_plus_iff (hbase : base ≤ 16) :
    DenotesUnsigned base ('+' :: s) m ↔ Denotes base s m := by
  simp [DenotesUnsigned, not_denotes_plus hbase]

theorem denotesUnsigned_iff (hs : ∀ digits, s ≠ '+' :: digits) :
    DenotesUnsigned base s m ↔ Denotes base s m := by
  simp [DenotesUnsigned, hs]

/-- The number that the digits make when they are written after those of `k`. -/
def extended (base k : ℕ) (ds : List ℕ) : ℕ :=
  k * base ^ ds.length + Nat.ofDigits base ds.reverse

@[simp] theorem extended_nil : extended base k [] = k := by simp [extended]

@[simp] theorem extended_zero (ds : List ℕ) :
    extended base 0 ds = Nat.ofDigits base ds.reverse := by simp [extended]

@[simp] theorem extended_cons (ds : List ℕ) :
    extended base k (d :: ds) = extended base (k * base + d) ds := by
  simp only [extended, List.reverse_cons, Nat.ofDigits_append, Nat.ofDigits_singleton,
    List.length_reverse, List.length_cons]
  ring

theorem le_extended (hbase : 0 < base) (k : ℕ) (ds : List ℕ) : k ≤ extended base k ds :=
  Nat.le_add_right_of_le (Nat.le_mul_of_pos_right k (Nat.pow_pos hbase))

namespace Numeral

variable {n : Numeral} {σ : ℤ}

/-- Zero is in the range, and all digits have a character. -/
structure Regular (n : Numeral) : Prop where
  base_le : n.base ≤ 16
  least_le : n.least ≤ 0
  le_greatest : 0 ≤ n.greatest

def InRange (n : Numeral) (z : ℤ) : Prop := n.least ≤ z ∧ z ≤ n.greatest

theorem Regular.digit?_eq_some_iff (h : n.Regular) : n.digit? c = some d ↔ IsDigit n.base c d := by
  have hbase := h.base_le
  simp only [digit?, Option.filter_eq_some_iff, hexValue?_eq_some_iff, IsDigit, decide_eq_true_eq]
  constructor
  · rintro ⟨⟨-, hc⟩, hd⟩
    exact ⟨hd, hc⟩
  · rintro ⟨hd, hc⟩
    exact ⟨⟨by omega, hc⟩, hd⟩

theorem Regular.inRange_zero (h : n.Regular) : n.InRange 0 := ⟨h.least_le, h.le_greatest⟩

theorem Regular.inRange_of_le (h : n.Regular) (hσ : σ = 1 ∨ σ = -1) (hkm : k ≤ m)
    (hm : n.InRange (σ * m)) : n.InRange (σ * k) := by
  have hleast := h.least_le
  have hgreatest := h.le_greatest
  obtain ⟨hle, hge⟩ := hm
  rcases hσ with rfl | rfl
  · constructor <;> omega
  · constructor <;> omega

theorem readDigits_cons_of_digit (hd : n.digit? c = some d) :
    n.readDigits σ (σ * k) (c :: s) =
      if n.greatest < σ * (k * n.base + d : ℕ) then .error .tooLarge
      else if σ * (k * n.base + d : ℕ) < n.least then .error .tooSmall
      else n.readDigits σ (σ * (k * n.base + d : ℕ)) s := by
  have hvalue : σ * k * n.base + σ * d = σ * (k * n.base + d : ℕ) := by
    push_cast
    ring
  rw [readDigits, hd]
  simp only [hvalue]

theorem Regular.exists_digits_cons_iff (h : n.Regular) (hd : n.digit? c = some d)
    {p : List ℕ → Prop} :
    (∃ ds, List.Forall₂ (IsDigit n.base) (c :: s) ds ∧ p ds) ↔
      ∃ ds, List.Forall₂ (IsDigit n.base) s ds ∧ p (d :: ds) := by
  constructor
  · rintro ⟨ds, hds, hp⟩
    obtain ⟨d', ds', hd', hds', rfl⟩ := List.forall₂_cons_left_iff.mp hds
    rw [← h.digit?_eq_some_iff, hd, Option.some.injEq] at hd'
    subst hd'
    exact ⟨ds', hds', hp⟩
  · rintro ⟨ds, hds, hp⟩
    exact ⟨d :: ds, .cons (h.digit?_eq_some_iff.mp hd) hds, hp⟩

/-- Digits are read on from a value in the range exactly if the number they make with those before
is in the range too. The weight tells on which side of zero it is. -/
theorem Regular.readDigits_eq_ok_iff (h : n.Regular) (hσ : σ = 1 ∨ σ = -1)
    (hk : n.InRange (σ * k)) :
    n.readDigits σ (σ * k) s = .ok z ↔
      ∃ ds, List.Forall₂ (IsDigit n.base) s ds ∧ σ * extended n.base k ds = z ∧ n.InRange z := by
  induction s generalizing k with
  | nil =>
    simp only [readDigits, Except.ok.injEq, List.forall₂_nil_left_iff, exists_eq_left, extended_nil]
    constructor
    · rintro rfl
      exact ⟨rfl, hk⟩
    · rintro ⟨rfl, -⟩
      rfl
  | cons c s ih =>
    cases hd : n.digit? c with
    | none =>
      have hno (d : ℕ) : ¬IsDigit n.base c d := by
        rw [← h.digit?_eq_some_iff, hd]
        exact nofun
      simp [readDigits, hd, List.forall₂_cons_left_iff, hno]
    | some d =>
      rw [readDigits_cons_of_digit hd, h.exists_digits_cons_iff hd]
      simp only [extended_cons]
      by_cases hin : n.InRange (σ * (k * n.base + d : ℕ))
      · rw [if_neg (not_lt.mpr hin.2), if_neg (not_lt.mpr hin.1), ih hin]
      · -- With the digits after it the value would be farther from zero than where it is refused.
        have hrefused : ¬∃ ds, List.Forall₂ (IsDigit n.base) s ds ∧
            σ * extended n.base (k * n.base + d) ds = z ∧ n.InRange z := by
          rintro ⟨ds, -, rfl, hz⟩
          have hbase : 0 < n.base := Nat.zero_lt_of_lt (h.digit?_eq_some_iff.mp hd).1
          exact hin (h.inRange_of_le hσ (le_extended hbase _ ds) hz)
        rw [iff_false_right hrefused]
        unfold InRange at hin
        split_ifs
        · exact nofun
        · exact nofun
        · omega

theorem Regular.readDigits_zero_eq_ok_iff (h : n.Regular) (hσ : σ = 1 ∨ σ = -1) (hs : s ≠ []) :
    n.readDigits σ 0 s = .ok z ↔ n.InRange z ∧ ∃ m : ℕ, Denotes n.base s m ∧ z = σ * m := by
  have hzero : n.InRange (σ * (0 : ℕ)) := by simpa using h.inRange_zero
  have hiff := h.readDigits_eq_ok_iff (s := s) (z := z) hσ hzero
  rw [Nat.cast_zero, mul_zero] at hiff
  rw [hiff]
  constructor
  · rintro ⟨ds, hds, rfl, hz⟩
    exact ⟨hz, _, ⟨hs, ds, hds, rfl⟩, by rw [extended_zero]⟩
  · rintro ⟨hz, m, ⟨-, ds, hds, rfl⟩, rfl⟩
    exact ⟨ds, hds, by rw [extended_zero], hz⟩

/-- One or more digits are read where their number is in the range. So they are after a plus, and
after a minus where the range has negative integers. -/
theorem Regular.read_eq_ok_iff (h : n.Regular) :
    n.read s = .ok z ↔ n.InRange z ∧ ((∃ m : ℕ, DenotesUnsigned n.base s m ∧ z = m) ∨
      n.least < 0 ∧ ∃ digits, ∃ m : ℕ, s = '-' :: digits ∧ Denotes n.base digits m ∧ z = -m) := by
  have hbase := h.base_le
  unfold read
  split
  · simp [denotesUnsigned_iff, not_denotes_nil]
  · simp [denotesUnsigned_plus_iff hbase, not_denotes_nil]
  · simp [denotesUnsigned_iff, not_denotes_minus hbase, not_denotes_nil]
  · next cs hcs =>
    rw [h.readDigits_zero_eq_ok_iff (Or.inl rfl) fun hnil => hcs (by rw [hnil])]
    simp [denotesUnsigned_plus_iff hbase]
  · next cs hcs =>
    split_ifs with hleast
    · rw [h.readDigits_zero_eq_ok_iff (Or.inr rfl) fun hnil => hcs (by rw [hnil])]
      simp [denotesUnsigned_iff, not_denotes_minus hbase, hleast]
    · simp [denotesUnsigned_iff, not_denotes_minus hbase, hleast]
  · next hnil _ _ hplus hminus =>
    have hunsigned (digits : List Char) : s ≠ '-' :: digits := hminus digits
    rw [h.readDigits_zero_eq_ok_iff (Or.inl rfl) hnil]
    simp [denotesUnsigned_iff hplus, hunsigned]

theorem read_unsigned_eq_ok_iff {width : ℕ} (hbase : base ≤ 16) :
    (unsigned base width).read s = .ok z ↔
      ∃ m : ℕ, DenotesUnsigned base s m ∧ m < 2 ^ width ∧ z = m := by
  have hpos : (0 : ℤ) < 2 ^ width := by positivity
  have hrange : (unsigned base width).InRange z ↔ 0 ≤ z ∧ z < 2 ^ width :=
    and_congr_right' Int.le_sub_one_iff
  have h : (unsigned base width).Regular := ⟨hbase, le_rfl, Int.le_sub_one_iff.mpr hpos⟩
  rw [h.read_eq_ok_iff, hrange]
  constructor
  · rintro ⟨⟨-, hlt⟩, ⟨m, hm, rfl⟩ | ⟨hleast, -⟩⟩
    · exact ⟨m, hm, by exact_mod_cast hlt, rfl⟩
    · exact absurd hleast (lt_irrefl 0)
  · rintro ⟨m, hm, hlt, rfl⟩
    exact ⟨⟨Int.natCast_nonneg m, by exact_mod_cast hlt⟩, Or.inl ⟨m, hm, rfl⟩⟩

theorem read_signed_eq_ok_iff {width : ℕ} (hbase : base ≤ 16) :
    (signed base width).read s = .ok z ↔
      DenotesInteger base s z ∧ -2 ^ (width - 1) ≤ z ∧ z < 2 ^ (width - 1) := by
  have hpos : (0 : ℤ) < 2 ^ (width - 1) := by positivity
  have hleast : (signed base width).least < 0 := Int.neg_neg_of_pos hpos
  have hrange : (signed base width).InRange z ↔ -2 ^ (width - 1) ≤ z ∧ z < 2 ^ (width - 1) :=
    and_congr_right' Int.le_sub_one_iff
  have h : (signed base width).Regular := ⟨hbase, hleast.le, Int.le_sub_one_iff.mpr hpos⟩
  rw [h.read_eq_ok_iff, hrange, and_comm, and_iff_right hleast]
  rfl

end Numeral

/-- The text is a base mark and what stands after it. -/
def IsMarked (s digits : List Char) : Prop := s = '0' :: 'x' :: digits ∨ s = '0' :: 'X' :: digits

/-- What is left of the text without its base mark, if it has one. A second mark stays. -/
def IsBody (s body : List Char) : Prop :=
  IsMarked s body ∨ s = body ∧ ∀ digits, ¬IsMarked s digits

variable {digits body : List Char}

theorem afterBaseMark?_eq_some_iff : afterBaseMark? s = some digits ↔ IsMarked s digits := by
  unfold afterBaseMark? IsMarked
  split <;> simp_all

theorem afterBaseMark?_eq_none_iff : afterBaseMark? s = none ↔ ∀ digits, ¬IsMarked s digits := by
  simp only [Option.eq_none_iff_forall_ne_some, ne_eq, afterBaseMark?_eq_some_iff]

theorem isBody_iff : IsBody s body ↔ (afterBaseMark? s).getD s = body := by
  rw [IsBody, ← afterBaseMark?_eq_some_iff, ← afterBaseMark?_eq_none_iff]
  cases afterBaseMark? s <;> simp

theorem IsBody.unique {body' : List Char} (h : IsBody s body) (h' : IsBody s body') :
    body = body' :=
  (isBody_iff.mp h).symm.trans (isBody_iff.mp h')

end HartFloat.Text
