import HartFloat.Instruction.Decoder
import Mathlib.Data.List.Basic

/-!
# Tables without conflicts

Two definitions that match the same word agree on the bits that both masks cover, so they are in
conflict. In a table without conflicts at most one definition matches a word, and the order of the
definitions does not matter for what is found.
-/
namespace HartFloat

variable {a b d : Definition} {table : List Definition} {w : Word}

theorem Definition.isMatch_iff : d.isMatch w = true ↔ w &&& d.mask = d.pattern := by
  simp [isMatch]

theorem Definition.conflictsWith_of_isMatch (ha : a.isMatch w = true) (hb : b.isMatch w = true) :
    a.conflictsWith b = true := by
  rw [isMatch_iff] at ha hb
  have hcommon : a.pattern &&& (a.mask &&& b.mask) = b.pattern &&& (a.mask &&& b.mask) := by
    rw [← ha, ← hb]
    ext i hi
    simp only [BitVec.getElem_and]
    grind
  simpa [conflictsWith] using hcommon

theorem Definition.conflictsWith_comm (a b : Definition) :
    a.conflictsWith b = b.conflictsWith a := by
  unfold conflictsWith
  rw [BitVec.and_comm a.mask b.mask]
  exact BEq.comm

namespace Decoder

theorem conflictsAfter_eq_nil_iff :
    conflictsAfter a table = [] ↔ ∀ b ∈ table, a.conflictsWith b = false := by
  simp [conflictsAfter]

theorem conflictsIn_eq_nil_iff :
    conflictsIn table = [] ↔ table.Pairwise fun a b => a.conflictsWith b = false := by
  induction table with
  | nil => simp [conflictsIn]
  | cons a rest ih =>
    rw [conflictsIn, List.append_eq_nil_iff, conflictsAfter_eq_nil_iff, ih, List.pairwise_cons]

theorem length_filter_isMatch_le (h : conflictsIn table = []) (w : Word) :
    (table.filter (·.isMatch w)).length ≤ 1 := by
  rw [conflictsIn_eq_nil_iff] at h
  induction h with
  | nil => simp
  | @cons a rest ha _ ih =>
    by_cases hw : a.isMatch w = true
    · have hrest : rest.filter (·.isMatch w) = [] := by
        rw [List.filter_eq_nil_iff]
        intro b hb hbw
        have hab := Definition.conflictsWith_of_isMatch hw hbw
        rw [ha b hb] at hab
        cases hab
      simp [hw, hrest]
    · simpa [hw] using ih

theorem find?_isMatch_eq_some_iff (h : conflictsIn table = []) :
    table.find? (·.isMatch w) = some d ↔ d ∈ table ∧ d.isMatch w = true := by
  constructor
  · intro hd
    have hw := List.find?_some hd
    exact ⟨List.mem_of_find?_eq_some hd, hw⟩
  · intro hd
    have hmem : d ∈ table.filter (·.isMatch w) := List.mem_filter.mpr hd
    obtain ⟨e, he⟩ := List.length_eq_one_iff.mp
      (Nat.le_antisymm (length_filter_isMatch_le h w) (List.length_pos_of_mem hmem))
    rw [he, List.mem_singleton] at hmem
    rw [← List.head?_filter, he, hmem]
    rfl

theorem conflictsIn_eq_nil_iff_of_perm {table' : List Definition} (hp : table'.Perm table) :
    conflictsIn table' = [] ↔ conflictsIn table = [] := by
  rw [conflictsIn_eq_nil_iff, conflictsIn_eq_nil_iff]
  apply hp.pairwise_iff
  intro a b hab
  rw [Definition.conflictsWith_comm]
  exact hab

/-- In a table without reported conflicts at most one definition matches a word, whatever masks and
patterns the definitions have, and a table with the same definitions in another order decodes every
word to the same. -/
theorem decode_of_conflicts_eq_nil (d : Decoder) (h : d.conflicts = []) (w : Word) :
    (d.definitions.filter (·.isMatch w)).length ≤ 1 ∧
      ∀ d' : Decoder, d'.definitions.Perm d.definitions → d'.decode w = d.decode w := by
  refine ⟨length_filter_isMatch_le h w, fun d' hp => ?_⟩
  have h' : conflictsIn d'.definitions = [] := (conflictsIn_eq_nil_iff_of_perm hp).mpr h
  have hfind : d'.definitions.find? (·.isMatch w) = d.definitions.find? (·.isMatch w) := by
    apply Option.ext
    intro e
    rw [find?_isMatch_eq_some_iff h, find?_isMatch_eq_some_iff h', hp.mem_iff]
  rw [decode, decode, hfind]

/-- Three definitions, one of them with a pattern that its mask does not cover, in two orders. -/
theorem decode_of_conflicts_eq_nil_reversed :
    let a : Definition := ⟨"A", 0xfe00007f, 0x00000053, .fadd, fun w => { rd := w.rd }⟩
    let b : Definition := ⟨"B", 0xfe00707f, 0xa0002053, .feq, fun w => { rs1 := w.rs1 }⟩
    let c : Definition := ⟨"C", 0x0000007f, 0x080000c3, .fmadd, fun _ => {}⟩
    (⟨"ABC", [a, b, c]⟩ : Decoder).conflicts = [] ∧
      ([a, b, c].filter (·.isMatch 0x003100d3)).length ≤ 1 ∧
      (⟨"CBA", [c, b, a]⟩ : Decoder).decode 0x003100d3 =
        (⟨"ABC", [a, b, c]⟩ : Decoder).decode 0x003100d3 := by
  intro a b c
  have h : (⟨"ABC", [a, b, c]⟩ : Decoder).conflicts = [] := by decide
  obtain ⟨hone, hperm⟩ := decode_of_conflicts_eq_nil ⟨"ABC", [a, b, c]⟩ h 0x003100d3
  exact ⟨h, hone, hperm ⟨"CBA", [c, b, a]⟩ (List.reverse_perm [a, b, c])⟩

end Decoder
end HartFloat
