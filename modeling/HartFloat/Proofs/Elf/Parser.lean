import HartFloat.Elf.Parser
import HartFloat.Proofs.Elf.Layout
import Mathlib.Data.List.TakeWhile

/-!
# The parser reads what is laid out

In a 32-bit little-endian file the parser finds the headers at the places where they stand, the
tables that lie inside the file, and the sections by their names.
-/
namespace HartFloat.Elf

theorem slice?_eq_some_iff {file data : Bytes} {start length : ℕ} :
    slice? file start length = some data ↔ StandsAt file start data ∧ data.length = length := by
  rw [standsAt_iff]
  unfold slice?
  constructor
  · intro h
    split_ifs at h with hle
    obtain rfl := Option.some.inj h
    have hlength : ((file.drop start).take length).length = length := by
      rw [List.length_take, List.length_drop]
      omega
    rw [hlength]
    exact ⟨⟨hle, rfl⟩, rfl⟩
  · rintro ⟨⟨hle, hdata⟩, rfl⟩
    rw [if_pos hle, hdata]

namespace Encoding

theorem numbers_slice {e : Encoding} (he : e.littleEndian = true) (file : Bytes)
    (widths : List ℕ) (start length : ℕ) (h : widths.sum ≤ length) :
    e.numbers widths ((file.drop start).take length) = numbersFrom file start widths := by
  induction widths generalizing start length with
  | nil => rfl
  | cons w ws ih =>
    rw [List.sum_cons] at h
    have hfirst : ((file.drop start).take length).take w = (file.drop start).take w := by
      rw [List.take_take, Nat.min_eq_left (by omega)]
    have hrest : ((file.drop start).take length).drop w =
        (file.drop (start + w)).take (length - w) := by
      rw [List.drop_take, List.drop_drop]
    rw [numbers, numbersFrom, hfirst, hrest, ih _ _ (by omega), number, if_pos he,
      littleNumber_slice]

theorem numbersAt?_eq_ite {e : Encoding} (he : e.littleEndian = true) (file : Bytes)
    (widths : List ℕ) (start length : ℕ) (h : widths.sum ≤ length) :
    e.numbersAt? file start length widths =
      if start + length ≤ file.length then some (numbersFrom file start widths) else none := by
  rw [numbersAt?, slice?]
  split_ifs
  · rw [Option.map_some, numbers_slice he file widths start length h]
  · rfl

end Encoding

theorem mapM_eq_some_map {α β : Type} {f : α → Option β} {g : α → β} {l : List α}
    (h : ∀ a ∈ l, f a = some (g a)) : l.mapM f = some (l.map g) := by
  induction l with
  | nil => rfl
  | cons a l ih =>
    rw [List.mapM_cons, h a List.mem_cons_self, ih fun b hb => h b (List.mem_cons_of_mem a hb)]
    rfl

theorem entries?_eq_some_iff {α : Type} {file : Bytes} {read : ℕ → Option α} {entryAt : ℕ → α}
    {size : ℕ}
    (hread : ∀ start, read start =
      if start + size ≤ file.length then some (entryAt start) else none)
    {start entrySize : ℕ} {count : Option ℕ} {entries : List α} :
    entries? file read size start entrySize count = some entries ↔
      ∃ n, count = some n ∧ entrySize = size ∧ start + size * n ≤ file.length ∧
        entries = (List.range n).map fun k => entryAt (start + size * k) := by
  cases count with
  | none => simp [entries?]
  | some n =>
    by_cases hsize : entrySize = size
    · subst hsize
      by_cases hle : start + entrySize * n ≤ file.length
      · have hentries : (List.range n).mapM (fun k => read (start + entrySize * k)) =
            some ((List.range n).map fun k => entryAt (start + entrySize * k)) := by
          refine mapM_eq_some_map fun k hk => ?_
          have hnext : entrySize * (k + 1) ≤ entrySize * n :=
            Nat.mul_le_mul_left _ (List.mem_range.mp hk)
          rw [Nat.mul_succ] at hnext
          rw [hread, if_pos (by omega)]
        simp [entries?, slice?, hle, hentries, eq_comm]
      · simp [entries?, slice?, hle]
    · simp [entries?, guard, hsize]

theorem nameAt?_eq_some_iff {names name : Bytes} {start : ℕ} :
    Header.nameAt? names start = some name ↔ Narrow.HoldsName names start name := by
  unfold Header.nameAt? Narrow.HoldsName
  generalize names.drop start = rest
  dsimp only
  constructor
  · intro h
    split_ifs at h with hmark
    obtain rfl := Option.some.inj h
    refine ⟨fun hmem => by simpa using List.mem_takeWhile_imp hmem, ?_⟩
    cases hdrop : rest.dropWhile (· != 0) with
    | nil =>
      have hall := List.dropWhile_eq_nil_iff.mp hdrop 0 (List.contains_iff_mem.mp hmark)
      simp at hall
    | cons b bs =>
      have hne : rest.dropWhile (· != 0) ≠ [] := by simp [hdrop]
      have hb : b = 0 := by simpa [hdrop] using List.head_dropWhile_not (· != 0) hne
      subst hb
      exact ⟨bs, by rw [List.append_assoc, List.singleton_append, ← hdrop,
        List.takeWhile_append_dropWhile]⟩
  · rintro ⟨hname, bs, rfl⟩
    have htake : (name ++ [0] ++ bs).takeWhile (· != 0) = name := by
      rw [List.append_assoc, List.takeWhile_append_of_pos (by
        intro b hb
        exact bne_iff_ne.mpr fun h => hname (h ▸ hb))]
      simp
    rw [if_pos (by simp), htake]

namespace Narrow

variable {file : Bytes}

theorem encodingOf?_eq_narrow_iff {identity : Bytes} :
    Header.encodingOf? identity = some .narrow ↔ identity.take 7 = mark := by
  unfold Header.encodingOf? Encoding.narrow mark
  split
  · next m₀ m₁ m₂ m₃ width order version heq =>
    rw [heq]
    split_ifs with h
    · obtain ⟨hmagic, rfl, hwidth, horder⟩ := h
      rw [Header.magic] at hmagic
      rcases hwidth with rfl | rfl <;> rcases horder with rfl | rfl <;> simp_all
    · simp only [false_iff]
      intro heq'
      simp only [List.cons.injEq] at heq'
      exact h (by simp [Header.magic, heq'])
  · next hne =>
    simp only [reduceCtorEq, false_iff]
    intro heq
    exact hne _ _ _ _ _ _ _ heq

theorem read?_eq (h : Declared file) : Header.read? file = some (header file) := by
  have hle := h.length_le
  have hslice : slice? file 0 Header.identitySize = some (file.take 16) := by
    rw [slice?, if_pos (by simp only [Header.identitySize]; omega)]
    rfl
  have hencoding : Header.encodingOf? (file.take 16) = some .narrow := by
    rw [encodingOf?_eq_narrow_iff, List.take_take]
    exact h.mark_eq
  have hnumbers := Encoding.numbersAt?_eq_ite (e := .narrow) rfl file (Header.widths .narrow)
    Header.identitySize (Header.restSize .narrow) (by decide)
  have hend : Header.identitySize + Header.restSize .narrow = 52 := rfl
  rw [hend, if_pos hle] at hnumbers
  rw [Header.read?, hslice]
  simp only [Option.bind_eq_bind, Option.bind_some, hencoding, hnumbers]
  rfl

theorem declared_of_read? {h : Header} (hread : Header.read? file = some h)
    (he : h.encoding = .narrow) : Declared file := by
  unfold Header.read? at hread
  simp only [Option.bind_eq_bind, Option.bind_eq_some_iff] at hread
  obtain ⟨identity, hslice, e, hencoding, numbers, hnumbers, hmatch⟩ := hread
  have hnarrow : e = .narrow := by
    split at hmatch
    · rw [← he, ← Option.some.inj hmatch]
    · cases hmatch
  subst hnarrow
  have hend : Header.identitySize + Header.restSize .narrow = 52 := rfl
  rw [Encoding.numbersAt?_eq_ite rfl _ _ _ _ (by decide), hend] at hnumbers
  have hmark := encodingOf?_eq_narrow_iff.mp hencoding
  unfold slice? at hslice
  split_ifs at hnumbers hslice with hle hidentity
  refine ⟨hle, ?_⟩
  rw [← hmark, ← Option.some.inj hslice, List.drop_zero, List.take_take]
  rfl

theorem section_read? (start : ℕ) :
    Section.read? .narrow file start =
      if start + 40 ≤ file.length then some (sectionAt file start) else none := by
  have hnumbers := Encoding.numbersAt?_eq_ite (e := .narrow) rfl file (Section.widths .narrow) start
    (Section.entrySize .narrow) (by decide)
  have hsize : Section.entrySize .narrow = 40 := rfl
  rw [hsize] at hnumbers
  rw [Section.read?, hsize, hnumbers]
  split_ifs <;> rfl

theorem program_read? (start : ℕ) :
    Program.read? .narrow file start =
      if start + 32 ≤ file.length then some (programAt file start) else none := by
  have hnumbers := Encoding.numbersAt?_eq_ite (e := .narrow) rfl file (Program.widths .narrow) start
    (Program.entrySize .narrow) (by decide)
  have hsize : Program.entrySize .narrow = 32 := rfl
  rw [hsize] at hnumbers
  rw [Program.read?, hsize, hnumbers]
  split_ifs <;> rfl

/-- The number of entries that the first section header holds, or that the file header gives. -/
theorem count_eq_some_iff {c : Prop} [Decidable c] {field : Section → ℕ} {given n : ℕ} :
    (if c then (Section.read? .narrow file (header file).sectionOffset).map field
      else some given) = some n ↔
      (c → (header file).sectionOffset + 40 ≤ file.length) ∧
        n = if c then field (sectionAt file (header file).sectionOffset) else given := by
  rw [section_read?]
  split_ifs with hc hle <;> simp [hc, eq_comm] <;> omega

theorem programs?_eq_some_iff {ps : Option (List Program)} :
    (header file).programs? file = some ps ↔
      ProgramTable file ∧
        ps = if (header file).programOffset = 0 then none else some (programs file) := by
  unfold Header.programs? ProgramTable programs programCount
  by_cases hoffset : (header file).programOffset = 0
  · simp [hoffset, eq_comm]
  · simp only [hoffset, if_false, false_or, Option.map_eq_some_iff]
    constructor
    · rintro ⟨entries, hentries, rfl⟩
      obtain ⟨n, hcount, hsize, hle, rfl⟩ := (entries?_eq_some_iff program_read?).mp hentries
      obtain ⟨hfits, rfl⟩ := count_eq_some_iff.mp hcount
      exact ⟨⟨hfits, hsize, hle⟩, rfl⟩
    · rintro ⟨⟨hfits, hsize, hle⟩, rfl⟩
      exact ⟨_, (entries?_eq_some_iff program_read?).mpr
        ⟨_, count_eq_some_iff.mpr ⟨hfits, rfl⟩, hsize, hle, rfl⟩, rfl⟩

theorem sections?_eq_some_iff {ss : Option (List Section)} :
    (header file).sections? file = some ss ↔
      SectionTable file ∧
        ss = if (header file).sectionOffset = 0 then none else some (sections file) := by
  unfold Header.sections? SectionTable sections sectionCount
  by_cases hoffset : (header file).sectionOffset = 0
  · simp [hoffset, eq_comm]
  · simp only [hoffset, if_false, false_or, Option.map_eq_some_iff]
    constructor
    · rintro ⟨entries, hentries, rfl⟩
      obtain ⟨n, hcount, hsize, hle, rfl⟩ := (entries?_eq_some_iff section_read?).mp hentries
      obtain ⟨hfits, rfl⟩ := count_eq_some_iff.mp hcount
      exact ⟨⟨hfits, hsize, hle⟩, rfl⟩
    · rintro ⟨⟨hfits, hsize, hle⟩, rfl⟩
      exact ⟨_, (entries?_eq_some_iff section_read?).mpr
        ⟨_, count_eq_some_iff.mpr ⟨hfits, rfl⟩, hsize, hle, rfl⟩, rfl⟩

theorem getElem?_sections {n : ℕ} {s : Section} :
    (sections file)[n]? = some s ↔ n < sectionCount file ∧ sectionHeader file n = s := by
  rw [sections, List.getElem?_map, Option.map_eq_some_iff]
  constructor
  · rintro ⟨k, hk, rfl⟩
    obtain ⟨hn, rfl⟩ := List.getElem?_eq_some_iff.mp hk
    rw [List.getElem_range]
    exact ⟨by simpa using hn, rfl⟩
  · rintro ⟨hn, rfl⟩
    exact ⟨n, List.getElem?_range hn, rfl⟩

theorem names?_eq_some_iff {names : Bytes} (hoffset : (header file).sectionOffset ≠ 0)
    (hname : (header file).nameSection ≠ 0) :
    (header file).names? file (sections file) = some names ↔ IsNames file names := by
  have hnumber : ∀ n s, ((header file).namesNumber? (sections file) = some n ∧
        (sections file)[n]? = some s) ↔
      namesNumber file = some n ∧ n < sectionCount file ∧ sectionHeader file n = s := by
    intro n s
    rw [getElem?_sections, Header.namesNumber?, namesNumber,
      if_neg (not_or.mpr ⟨hoffset, hname⟩)]
    refine and_congr_left fun hn => ?_
    have hhead : (sections file).head? = some (sectionHeader file 0) := by
      rw [List.head?_eq_getElem?, getElem?_sections]
      exact ⟨by omega, rfl⟩
    rw [hhead, Option.map_some]
  unfold Header.names? IsNames
  simp only [Option.bind_eq_bind, Option.bind_eq_some_iff, slice?_eq_some_iff]
  constructor
  · rintro ⟨n, hn, s, hs, hnames⟩
    obtain ⟨hn, hcount, rfl⟩ := (hnumber n s).mp ⟨hn, hs⟩
    exact ⟨n, hn, hcount, hnames⟩
  · rintro ⟨n, hn, hcount, hnames⟩
    obtain ⟨hn, hs⟩ := (hnumber n _).mpr ⟨hn, hcount, rfl⟩
    exact ⟨n, hn, _, hs, hnames⟩

theorem sectionNamed?_eq_some_iff {ss : Option (List Section)} {name : String} {s : Option Section}
    (hss : ss = if (header file).sectionOffset = 0 then none else some (sections file)) :
    (header file).sectionNamed? file ss name = some s ↔ Locates file name s := by
  have hfind : ∀ names : Bytes,
      ((sections file).find? fun t => Header.nameAt? names t.name == some name.toUTF8.toList) =
        (sections file).find? fun t => HoldsName names t.name name.toUTF8.toList := by
    intro names
    congr 1
    funext t
    rw [Bool.eq_iff_iff, beq_iff_eq, nameAt?_eq_some_iff, decide_eq_true_iff]
  unfold Locates
  by_cases hgiven : (header file).sectionOffset = 0 ∨ (header file).nameSection = 0
  · have hnone : namesNumber file = none := by rw [namesNumber, if_pos hgiven]
    have hnames : ¬∃ names, IsNames file names ∧
        s = (sections file).find? fun t => HoldsName names t.name name.toUTF8.toList := by
      rintro ⟨names, ⟨n, hn, -⟩, -⟩
      rw [hnone] at hn
      cases hn
    simp only [hnone, hnames, true_and, or_false]
    rcases hgiven with hoffset | hname
    · rw [hss, if_pos hoffset]
      simp [Header.sectionNamed?, eq_comm]
    · by_cases hoffset : (header file).sectionOffset = 0
      · rw [hss, if_pos hoffset]
        simp [Header.sectionNamed?, eq_comm]
      · rw [hss, if_neg hoffset]
        simp [Header.sectionNamed?, hname, eq_comm]
  · obtain ⟨hoffset, hname⟩ := not_or.mp hgiven
    have hsome : namesNumber file ≠ none := by
      rw [namesNumber, if_neg hgiven]
      split_ifs <;> exact Option.some_ne_none _
    rw [hss, if_neg hoffset]
    simp only [Header.sectionNamed?, hname, if_false, Option.map_eq_some_iff, hsome, false_and,
      false_or, names?_eq_some_iff hoffset hname, hfind]
    exact exists_congr fun names => and_congr_right fun _ => eq_comm

theorem parse_eq_some_iff {f : ObjectFile} :
    parse file = some f ↔ ∃ h ss ps, Header.read? file = some h ∧ h.sections? file = some ss ∧
      h.programs? file = some ps ∧
        f = ⟨h, ps, fun p => slice? file p.offset p.fileSize, h.sectionNamed? file ss⟩ := by
  simp only [parse, Option.bind_eq_bind, Option.bind_eq_some_iff, Option.pure_def,
    Option.some.injEq]
  constructor
  · rintro ⟨h, hread, ss, hss, ps, hps, rfl⟩
    exact ⟨h, ss, ps, hread, hss, hps, rfl⟩
  · rintro ⟨h, ss, ps, hread, hss, hps, rfl⟩
    exact ⟨h, hread, ss, hss, ps, hps, rfl⟩

end Narrow

theorem isSound_parse : Reader.IsSound parse where
  declared file f hparse he := by
    obtain ⟨h, ss, ps, hread, -, -, rfl⟩ := Narrow.parse_eq_some_iff.mp hparse
    exact Narrow.declared_of_read? hread he
  exists_iff file hd := by
    simp only [Narrow.parse_eq_some_iff, Narrow.read?_eq hd, Option.some.injEq]
    constructor
    · rintro ⟨f, h, ss, ps, rfl, hss, hps, -⟩
      exact ⟨(Narrow.sections?_eq_some_iff.mp hss).1, (Narrow.programs?_eq_some_iff.mp hps).1⟩
    · rintro ⟨hs, hp⟩
      exact ⟨_, _, _, _, rfl, Narrow.sections?_eq_some_iff.mpr ⟨hs, rfl⟩,
        Narrow.programs?_eq_some_iff.mpr ⟨hp, rfl⟩, rfl⟩
  describes file f hd hparse := by
    obtain ⟨h, ss, ps, hread, hss, hps, rfl⟩ := Narrow.parse_eq_some_iff.mp hparse
    rw [Narrow.read?_eq hd, Option.some.injEq] at hread
    subst hread
    exact {
      header_eq := rfl
      programs_eq := (Narrow.programs?_eq_some_iff.mp hps).2
      segmentData_eq_some_iff := fun p data => slice?_eq_some_iff
      sectionNamed_eq_some_iff := fun name s =>
        Narrow.sectionNamed?_eq_some_iff (Narrow.sections?_eq_some_iff.mp hss).2 }

end HartFloat.Elf
