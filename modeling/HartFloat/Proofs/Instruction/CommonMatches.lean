import HartFloat.Proofs.Instruction.Conflicts

/-!
# Words that two definitions share

A definition matches some word only if its pattern lies under its mask. Two definitions share a word
exactly if they are in conflict and both patterns lie under their masks; the sample of the reported
conflict is then such a word. A pattern with a bit outside its mask matches nothing, but the
definition may still be reported, because a conflict is judged by the bits under both masks alone.
-/
namespace HartFloat

variable {a b x : Definition} {table : List Definition} {w : Word} {c : Conflict}

namespace Definition

/-- No bit of the pattern is outside the mask. -/
def IsCovered (d : Definition) : Prop := d.pattern &&& d.mask = d.pattern

/-- The two patterns laid over each other, each of them cut to its mask. -/
def overlay (a b : Definition) : Word := (a.pattern &&& a.mask) ||| (b.pattern &&& b.mask)

theorem isCovered_of_isMatch (h : a.isMatch w = true) : a.IsCovered := by
  rw [isMatch_iff] at h
  rw [IsCovered, ← h, BitVec.and_assoc, BitVec.and_self]

theorem overlay_comm (a b : Definition) : overlay a b = overlay b a := BitVec.or_comm _ _

/-- Under the mask of either definition in conflict, the other one adds nothing. -/
theorem overlay_and_mask (h : a.conflictsWith b = true) :
    overlay a b &&& a.mask = a.pattern &&& a.mask := by
  have hcommon : a.pattern &&& (a.mask &&& b.mask) = b.pattern &&& (a.mask &&& b.mask) := by
    simpa [conflictsWith] using h
  have hother : b.pattern &&& b.mask &&& a.mask = a.pattern &&& a.mask &&& b.mask := by
    rw [BitVec.and_assoc, BitVec.and_comm b.mask, ← hcommon, BitVec.and_assoc]
  ext i hi
  have hbit := congrArg (·[i]) hother
  simp only [BitVec.getElem_and] at hbit
  simp only [overlay, BitVec.getElem_and, BitVec.getElem_or]
  grind

theorem isMatch_left_overlay_iff (h : a.conflictsWith b = true) :
    a.isMatch (overlay a b) = true ↔ a.IsCovered := by
  rw [isMatch_iff, overlay_and_mask h, IsCovered]

theorem isMatch_right_overlay_iff (h : a.conflictsWith b = true) :
    b.isMatch (overlay a b) = true ↔ b.IsCovered := by
  rw [conflictsWith_comm] at h
  rw [overlay_comm, isMatch_left_overlay_iff h]

theorem exists_isMatch_and_isMatch_iff (a b : Definition) :
    (∃ w, a.isMatch w = true ∧ b.isMatch w = true) ↔
      a.conflictsWith b = true ∧ a.IsCovered ∧ b.IsCovered := by
  constructor
  · rintro ⟨w, ha, hb⟩
    exact ⟨conflictsWith_of_isMatch ha hb, isCovered_of_isMatch ha, isCovered_of_isMatch hb⟩
  · rintro ⟨h, ha, hb⟩
    exact ⟨overlay a b, (isMatch_left_overlay_iff h).mpr ha, (isMatch_right_overlay_iff h).mpr hb⟩

end Definition

namespace Decoder

open Definition

theorem pair_sublist_cons_iff :
    [a, b].Sublist (x :: table) ↔ [a, b].Sublist table ∨ a = x ∧ b ∈ table := by
  rw [List.sublist_cons_iff]
  simp [eq_comm]

theorem mem_conflictsIn_iff : c ∈ conflictsIn table ↔
    ∃ a b, [a, b].Sublist table ∧ a.conflictsWith b = true ∧
      c = ⟨a.name, b.name, overlay a b⟩ := by
  induction table with
  | nil => simp [conflictsIn]
  | cons x rest ih =>
    rw [conflictsIn, List.mem_append, ih]
    simp only [conflictsAfter, List.mem_map, List.mem_filter, pair_sublist_cons_iff]
    constructor
    · rintro (⟨b, ⟨hb, hx⟩, rfl⟩ | ⟨a, b, hab, h, hc⟩)
      · exact ⟨x, b, Or.inr ⟨rfl, hb⟩, hx, rfl⟩
      · exact ⟨a, b, Or.inl hab, h, hc⟩
    · rintro ⟨a, b, hab | ⟨rfl, hb⟩, h, rfl⟩
      · exact Or.inr ⟨a, b, hab, h, rfl⟩
      · exact Or.inl ⟨b, ⟨hb, h⟩, rfl⟩

/-- Two definitions share a word exactly if they are in conflict and neither pattern has a bit
outside its mask. Each reported conflict is that of two definitions of the table, and its sample
matches those of them whose pattern has no bit outside the mask. -/
theorem conflicts_share_word_iff (d : Decoder) :
    (∀ a b : Definition, (∃ w, a.isMatch w = true ∧ b.isMatch w = true) ↔
      a.conflictsWith b = true ∧ a.IsCovered ∧ b.IsCovered) ∧
    ∀ c ∈ d.conflicts, ∃ a b, [a, b].Sublist d.definitions ∧ a.conflictsWith b = true ∧
      c.first = a.name ∧ c.second = b.name ∧
      (a.isMatch c.sample = true ↔ a.IsCovered) ∧ (b.isMatch c.sample = true ↔ b.IsCovered) := by
  refine ⟨exists_isMatch_and_isMatch_iff, fun c hc => ?_⟩
  obtain ⟨a, b, hab, h, rfl⟩ := mem_conflictsIn_iff.mp hc
  exact ⟨a, b, hab, h, rfl, rfl, isMatch_left_overlay_iff h, isMatch_right_overlay_iff h⟩

/-- An addition with any selector, and an operation with the same function code and one selector. -/
theorem conflicts_share_word_iff_selected :
    let a : Definition := ⟨"A", 0xfe00007f, 0x00000053, .fadd, fun _ => {}⟩
    let b : Definition := ⟨"B", 0xfe00707f, 0x00001053, .fsub, fun _ => {}⟩
    let d : Decoder := ⟨"AB", [a, b]⟩
    (⟨"A", "B", 0x00001053⟩ : Conflict) ∈ d.conflicts ∧
      ∃ a' b', [a', b'].Sublist d.definitions ∧ a'.conflictsWith b' = true ∧
        "A" = a'.name ∧ "B" = b'.name ∧
        (a'.isMatch 0x00001053 = true ↔ a'.IsCovered) ∧
        (b'.isMatch 0x00001053 = true ↔ b'.IsCovered) := by
  intro a b d
  have hc : (⟨"A", "B", 0x00001053⟩ : Conflict) ∈ d.conflicts := by decide
  exact ⟨hc, (conflicts_share_word_iff d).2 _ hc⟩

/-- Of two definitions that look at the opcode only, the first has a selector in its pattern. It
matches no word, yet the two are in conflict. -/
theorem conflictsWith_without_common_match :
    ¬∀ a b : Definition, a.conflictsWith b = true ↔
      ∃ w, a.isMatch w = true ∧ b.isMatch w = true := by
  intro h
  have hiff := h ⟨"A", 0x0000007f, 0x00001053, .fadd, fun _ => {}⟩
    ⟨"B", 0x0000007f, 0x00000053, .fadd, fun _ => {}⟩
  rw [exists_isMatch_and_isMatch_iff] at hiff
  obtain ⟨-, hcovered, -⟩ := hiff.mp (by decide)
  revert hcovered
  unfold IsCovered
  decide

end Decoder
end HartFloat
