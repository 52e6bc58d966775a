import HartFloat.Proofs.Core.Results

/-!
# The order of words

Comparisons and selections go by one order of the words that are no NaNs: that of the extended real
numbers they stand for, in which the infinities lie at the ends and the two zeros are equal. A word
that is a NaN is in no relation to any other, and a selection takes the other word.
-/
namespace HartFloat

open Backend.Soft (ofWord)

namespace Number

theorem compare_coe (p q : ℚ) :
    Ord.compare ((p : ℝ) : EReal) ((q : ℝ) : EReal) = Ord.compare p q := by
  rcases lt_trichotomy p q with hlt | rfl | hlt
  · rw [compare_lt_iff_lt.mpr hlt, compare_lt_iff_lt]
    exact_mod_cast hlt
  · rw [compare_eq_iff_eq.mpr rfl, compare_eq_iff_eq.mpr rfl]
  · rw [compare_gt_iff_gt.mpr hlt, compare_gt_iff_gt]
    exact_mod_cast hlt

theorem compare_eq (a b : Number) : a.compare b = Ord.compare a.extended b.extended := by
  cases a with
  | finite s p =>
    cases b with
    | finite t q => exact (compare_coe p q).symm
    | infinite t =>
      cases t
      · exact (compare_lt_iff_lt.mpr (EReal.coe_lt_top _)).symm
      · exact (compare_gt_iff_gt.mpr (EReal.bot_lt_coe _)).symm
  | infinite s =>
    cases b with
    | finite t q =>
      cases s
      · exact (compare_gt_iff_gt.mpr (EReal.coe_lt_top _)).symm
      · exact (compare_lt_iff_lt.mpr (EReal.bot_lt_coe _)).symm
    | infinite t =>
      cases s <;> cases t
      · exact (compare_eq_iff_eq.mpr rfl).symm
      · exact (compare_gt_iff_gt.mpr bot_lt_top).symm
      · exact (compare_lt_iff_lt.mpr bot_lt_top).symm
      · exact (compare_eq_iff_eq.mpr rfl).symm

end Number

namespace Word

variable {a b c : Word} {x y : EReal} {r r' : EReal → EReal → Prop}

/-- Both words stand for numbers, and these are in the relation. -/
def Related (r : EReal → EReal → Prop) (a b : Word) : Prop :=
  ∃ x y, a.extended? = some x ∧ b.extended? = some y ∧ r x y

noncomputable instance (r : EReal → EReal → Prop) : DecidableRel (Related r) := Classical.decRel _

abbrev IsLess : Word → Word → Prop := Related (· < ·)

abbrev IsEqual : Word → Word → Prop := Related (· = ·)

theorem related_iff (ha : a.extended? = some x) (hb : b.extended? = some y) :
    Related r a b ↔ r x y := by
  constructor
  · rintro ⟨x', y', hx', hy', hr⟩
    obtain rfl := Option.some.inj (ha.symm.trans hx')
    obtain rfl := Option.some.inj (hb.symm.trans hy')
    exact hr
  · exact fun hr => ⟨x, y, ha, hb, hr⟩

theorem related_congr (h : ∀ x y, r x y ↔ r' x y) : Related r a b ↔ Related r' a b := by
  obtain rfl : r = r' := funext₂ fun x y => propext (h x y)
  rfl

theorem related_swap : Related (fun x y => r y x) a b ↔ Related r b a := by
  constructor <;> rintro ⟨x, y, hx, hy, hr⟩ <;> exact ⟨y, x, hy, hx, hr⟩

/-- A NaN is in no relation to any word. -/
theorem not_related_of_isNaN (h : a.isNaN = true ∨ b.isNaN = true) : ¬Related r a b := by
  rintro ⟨x, y, hx, hy, -⟩
  rw [isNaN_of_extended? hx, isNaN_of_extended? hy] at h
  simp at h

theorem trichotomy (ha : a.isNaN = false) (hb : b.isNaN = false) :
    a.IsLess b ∧ ¬a.IsEqual b ∧ ¬b.IsLess a ∨ ¬a.IsLess b ∧ a.IsEqual b ∧ ¬b.IsLess a ∨
      ¬a.IsLess b ∧ ¬a.IsEqual b ∧ b.IsLess a := by
  obtain ⟨x, hx⟩ := exists_extended? ha
  obtain ⟨y, hy⟩ := exists_extended? hb
  rw [IsLess, IsEqual, related_iff hx hy, related_iff hx hy, related_iff hy hx]
  rcases lt_trichotomy x y with h | h | h
  · exact Or.inl ⟨h, h.ne, h.not_gt⟩
  · exact Or.inr (Or.inl ⟨h.not_lt, h, h.not_gt⟩)
  · exact Or.inr (Or.inr ⟨h.not_gt, h.ne', h⟩)

theorem IsLess.trans (hab : a.IsLess b) (hbc : b.IsLess c) : a.IsLess c := by
  obtain ⟨x, y, hx, hy, hxy⟩ := hab
  obtain ⟨y', z, hy', hz, hyz⟩ := hbc
  obtain rfl := Option.some.inj (hy.symm.trans hy')
  exact ⟨x, z, hx, hz, lt_trans hxy hyz⟩

end Word

namespace Backend.Soft

variable {a b : Word}

theorem compare_eq_some_iff (quiet : Bool) (o : Ordering) :
    (settle none ((ofWord a).compare quiet (ofWord b))).1 = some o ↔
      Word.Related (fun x y => Ord.compare x y = o) a b := by
  by_cases hnan : a.isNaN = true ∨ b.isNaN = true
  · rw [compare_of_isNaN quiet hnan]
    exact iff_of_false nofun (Word.not_related_of_isNaN hnan)
  · rw [not_or, Bool.not_eq_true, Bool.not_eq_true] at hnan
    obtain ⟨x, hx⟩ := exists_number? hnan.1
    obtain ⟨y, hy⟩ := exists_number? hnan.2
    rw [compare_of_number? quiet hx hy, Option.some.injEq, Number.compare_eq,
      Word.related_iff (Word.extended?_of_number? hx) (Word.extended?_of_number? hy)]

theorem compare_beq (quiet : Bool) {o : Ordering} {r : EReal → EReal → Prop}
    (hr : ∀ x y, Ord.compare x y = o ↔ r x y) :
    ((settle none ((ofWord a).compare quiet (ofWord b))).1 == some o) =
      decide (Word.Related r a b) := by
  rw [Bool.eq_iff_iff, beq_iff_eq, decide_eq_true_iff, compare_eq_some_iff]
  exact Word.related_congr hr

theorem isLess_eq (a b : Word) (s : Flags) :
    (primitives.isLess a b s).1 = decide (a.IsLess b) :=
  compare_beq false fun _ _ => compare_lt_iff_lt

theorem isEqual_eq (a b : Word) (s : Flags) :
    (primitives.isEqual a b s).1 = decide (a.IsEqual b) :=
  compare_beq true fun _ _ => compare_eq_iff_eq

theorem isLessOrEqual_eq (a b : Word) (s : Flags) :
    (primitives.isLessOrEqual a b s).1 = decide (a.IsLess b ∨ a.IsEqual b) := by
  have hless := compare_beq (a := a) (b := b) false fun x y => compare_lt_iff_lt
  have hequal := compare_beq (a := a) (b := b) false fun x y => compare_eq_iff_eq
  rw [Bool.decide_or]
  exact congrArg₂ or hless hequal

theorem pick_of_isNaN (firstWhen : Ordering) (h : a.isNaN = true ∨ b.isNaN = true) (s : Flags) :
    (Operation.pick primitives firstWhen a b s).1 =
      if a.isNaN then (if b.isNaN then Word.canonicalNaN else b) else a := by
  unfold Operation.pick
  cases ha : a.isNaN <;> cases hb : b.isNaN
  · simp [ha, hb] at h
  · rfl
  · rfl
  · rfl

theorem pick_eq (ha : a.isNaN = false) (hb : b.isNaN = false) {firstWhen : Ordering}
    {r : EReal → EReal → Prop}
    (hr : ∀ x y, Ord.compare x y = firstWhen ↔ r x y) (s : Flags) :
    (Operation.pick primitives firstWhen a b s).1 = if Word.Related r a b then a else b := by
  have hfirst := compare_beq (a := a) (b := b) false hr
  rw [Operation.pick, ha, hb]
  change (if (settle none ((ofWord a).compare false (ofWord b))).1 == some firstWhen then a
    else b) = _
  rw [hfirst]
  simp only [decide_eq_true_eq]

end Backend.Soft

open Operation (truth)

/-- The comparisons and selections of a backend go by one order of words. Of the answers to whether
the first of two words is less, whether they are equal and whether the second is less, exactly one
is yes if neither is a NaN. A minimum is the first word only if it is less, and a maximum is the
first word only if the second is less. With a NaN all comparisons answer no, and what is selected is
the other word, or the canonical NaN if that is a NaN too. -/
structure Primitives.OrdersWords {σ : Type} (P : Primitives σ) : Prop where
  flt (a b : Word) : P.Writes .flt [a, b] (truth (decide (a.IsLess b)))
  feq (a b : Word) : P.Writes .feq [a, b] (truth (decide (a.IsEqual b)))
  fle (a b : Word) : P.Writes .fle [a, b] (truth (decide (a.IsLess b ∨ a.IsEqual b)))
  trichotomous (a b : Word) (ha : a.isNaN = false) (hb : b.isNaN = false) :
    [truth (decide (a.IsLess b)), truth (decide (a.IsEqual b)),
      truth (decide (b.IsLess a))].count 1 = 1
  transitive (a b c : Word) (hab : a.IsLess b) (hbc : b.IsLess c) : a.IsLess c
  fmin (a b : Word) (ha : a.isNaN = false) (hb : b.isNaN = false) :
    P.Writes .fmin [a, b] (if a.IsLess b then a else b)
  fmax (a b : Word) (ha : a.isNaN = false) (hb : b.isNaN = false) :
    P.Writes .fmax [a, b] (if b.IsLess a then a else b)
  unordered (a b : Word) (h : a.isNaN = true ∨ b.isNaN = true) :
    (∀ op ∈ [.flt, .feq, .fle], P.Writes op [a, b] 0) ∧
      ∀ op ∈ [.fmin, .fmax], P.Writes op [a, b]
        (if a.isNaN then (if b.isNaN then Word.canonicalNaN else b) else a)

namespace Backend

open Soft

variable {τ : Type} (nan : Host.NaNChoice τ) (k : Backend) {a b : Word}

theorem writes_flt (a b : Word) :
    (k.primitives nan).Writes .flt [a, b] (truth (decide (a.IsLess b))) :=
  k.writes_of_result nan (by decide) (congrArg truth (isLess_eq a b ∅))

theorem writes_feq (a b : Word) :
    (k.primitives nan).Writes .feq [a, b] (truth (decide (a.IsEqual b))) :=
  k.writes_of_result nan (by decide) (congrArg truth (isEqual_eq a b ∅))

theorem writes_fle (a b : Word) :
    (k.primitives nan).Writes .fle [a, b] (truth (decide (a.IsLess b ∨ a.IsEqual b))) :=
  k.writes_of_result nan (by decide) (congrArg truth (isLessOrEqual_eq a b ∅))

theorem writes_fmin (ha : a.isNaN = false) (hb : b.isNaN = false) :
    (k.primitives nan).Writes .fmin [a, b] (if a.IsLess b then a else b) :=
  k.writes_of_result nan (by decide) (pick_eq ha hb (fun _ _ => compare_lt_iff_lt) ∅)

theorem writes_fmax (ha : a.isNaN = false) (hb : b.isNaN = false) :
    (k.primitives nan).Writes .fmax [a, b] (if b.IsLess a then a else b) := by
  have hpick := pick_eq ha hb (fun _ _ => compare_gt_iff_gt) ∅
  rw [if_congr Word.related_swap rfl rfl] at hpick
  exact k.writes_of_result nan (by decide) hpick

theorem writes_comparison_of_isNaN (h : a.isNaN = true ∨ b.isNaN = true) :
    ∀ op ∈ [.flt, .feq, .fle], (k.primitives nan).Writes op [a, b] 0 := by
  have hnot {r : EReal → EReal → Prop} := Word.not_related_of_isNaN (r := r) h
  have hflt := k.writes_flt nan a b
  have hfeq := k.writes_feq nan a b
  have hfle := k.writes_fle nan a b
  simp only [hnot, or_self, decide_false] at hflt hfeq hfle
  intro op hop
  simp only [List.mem_cons, List.not_mem_nil, or_false] at hop
  rcases hop with rfl | rfl | rfl
  · exact hflt
  · exact hfeq
  · exact hfle

theorem writes_selection_of_isNaN (h : a.isNaN = true ∨ b.isNaN = true) :
    ∀ op ∈ [.fmin, .fmax], (k.primitives nan).Writes op [a, b]
      (if a.isNaN then (if b.isNaN then Word.canonicalNaN else b) else a) := by
  intro op hop
  simp only [List.mem_cons, List.not_mem_nil, or_false] at hop
  rcases hop with rfl | rfl
  · exact k.writes_of_result nan (by decide) (pick_of_isNaN .lt h ∅)
  · exact k.writes_of_result nan (by decide) (pick_of_isNaN .gt h ∅)

/-- Either backend, on any machine, compares and selects words by the extended real numbers they
stand for. -/
theorem primitives_ordersWords {τ : Type} (nan : Host.NaNChoice τ) (k : Backend) :
    (k.primitives nan).OrdersWords where
  flt := k.writes_flt nan
  feq := k.writes_feq nan
  fle := k.writes_fle nan
  trichotomous a b ha hb := by
    rcases Word.trichotomy ha hb with ⟨hab, heq, hba⟩ | ⟨hab, heq, hba⟩ | ⟨hab, heq, hba⟩ <;>
      simp [truth, hab, heq, hba]
  transitive _ _ _ := Word.IsLess.trans
  fmin _ _ := k.writes_fmin nan
  fmax _ _ := k.writes_fmax nan
  unordered _ _ h := ⟨k.writes_comparison_of_isNaN nan h, k.writes_selection_of_isNaN nan h⟩

/-- A negative and a positive zero are equal. -/
theorem primitives_ordersWords_zeros :
    let core : Core Flags := (Core.write .float 1 0x80000000 ⟨.allocate {}, ∅⟩).2
    let o : Operands := { rs1 := 1, rs2 := 2 }
    core.registers.readAll (Operation.feq.sources o) = .ok [0x80000000, 0] ∧
      ∃ state, Core.execute (soft.primitives Host.canonical) .feq o core =
        Core.write .integer returnRegister 1 { core with state } := by
  intro core o
  have hwords : core.registers.readAll (Operation.feq.sources o) = .ok [0x80000000, 0] := by
    decide +kernel
  have hequal : Word.IsEqual 0x80000000 0 :=
    ⟨0, 0, Word.extended?_eq_zero_iff.mpr (Or.inr rfl),
      Word.extended?_eq_zero_iff.mpr (Or.inl rfl), rfl⟩
  have hwrites := (primitives_ordersWords Host.canonical soft).feq 0x80000000 0
  rw [decide_eq_true hequal] at hwrites
  exact ⟨hwords, hwrites o core hwords⟩

end Backend
end HartFloat
