import HartFloat.Elf.Image
import HartFloat.Proofs.Emulator.Accounting

/-!
# Scanning an image and running it

The words of a segment are its full groups of four bytes, in order, and the sites of an image are
those of its words that are instructions of the extension. A run over the words of an image traps at
exactly these sites: it emulates as many words as there are sites, counts each of them under the
operation of its site, and passes over the others.
-/
namespace HartFloat.Elf

/-- The word in the group of four bytes with the given number, the least significant byte first. -/
def wordAt (bs : Bytes) (k : ℕ) : Word :=
  BitVec.ofNat 32 (littleNumber ((bs.drop (4 * k)).take 4))

theorem wordsOf_eq_map_range (bs : Bytes) :
    wordsOf bs = (List.range (bs.length / 4)).map (wordAt bs) := by
  fun_induction wordsOf bs with
  | case1 b₀ b₁ b₂ b₃ rest ih =>
    have hlength : (b₀ :: b₁ :: b₂ :: b₃ :: rest).length / 4 = rest.length / 4 + 1 := by
      simp only [List.length_cons]
      omega
    rw [hlength, List.range_succ_eq_map, List.map_cons, List.map_map, ih]
    rfl
  | case2 bs hshort =>
    have hlength : bs.length < 4 := by
      rcases bs with _ | ⟨b₀, _ | ⟨b₁, _ | ⟨b₂, _ | ⟨b₃, rest⟩⟩⟩⟩
      case cons.cons.cons.cons => exact (hshort b₀ b₁ b₂ b₃ rest rfl).elim
      all_goals simp
    rw [Nat.div_eq_of_lt hlength]
    rfl

/-- The byte that makes no full word is left out. -/
example : wordsOf [0xd3, 0x00, 0x31, 0x00, 0x7f] = [0x003100d3] := by decide

namespace Segment

variable (s : Segment)

/-- The number of full words in the data. -/
def wordCount : ℕ := s.data.length / 4

def addressAt (k : ℕ) : Word := s.address + BitVec.ofNat 32 (4 * k)

def siteAt? (k : ℕ) : Option Site :=
  (Instruction.decode (wordAt s.data k)).map (⟨s.addressAt k, ·⟩)

theorem words_eq_map_range :
    s.words = (List.range s.wordCount).map fun k => (s.addressAt k, wordAt s.data k) := by
  rw [words, wordsOf_eq_map_range]
  apply List.ext_getElem
  · simp [wordCount]
  · intro k hk hk'
    simp [addressAt]

end Segment

namespace Image

variable (i : Image)

/-- All words of the segments with their addresses. -/
def places : List (Word × Word) := i.segments.flatMap (·.words)

theorem words_eq_map_places : i.words = i.places.map (·.2) := by
  rw [words, places, List.map_flatMap]

theorem sites_eq_filterMap_places :
    i.sites = i.places.filterMap fun p => (Instruction.decode p.2).map (⟨p.1, ·⟩) := rfl

theorem sites_eq_flatMap :
    i.sites = i.segments.flatMap fun s => (List.range s.wordCount).filterMap s.siteAt? := by
  rw [sites_eq_filterMap_places, places, List.filterMap_flatMap]
  congr 1
  funext s
  rw [s.words_eq_map_range, List.filterMap_map]
  rfl

theorem length_sites :
    i.sites.length = i.words.countP fun w => (Instruction.operation? w).isSome := by
  rw [sites_eq_filterMap_places, List.length_filterMap_eq_countP, words_eq_map_places,
    List.countP_map]
  congr 1
  funext p
  simp [Instruction.operation?]

theorem countP_sites (op : Operation) :
    i.sites.countP (·.decoded.operation == op) =
      i.words.countP (Instruction.operation? · == some op) := by
  rw [sites_eq_filterMap_places, List.countP_filterMap, words_eq_map_places, List.countP_map]
  congr 1
  funext p
  cases h : Instruction.decode p.2 <;> simp [Instruction.operation?, h]

theorem words_eq_flatMap :
    i.words = i.segments.flatMap fun s => (List.range s.wordCount).map (wordAt s.data) := by
  rw [words]
  congr 1
  funext s
  rw [s.words_eq_map_range, List.map_map]
  rfl

/-- An image lists one site for each full group of four bytes that is an instruction, in the order
of the segments and of the groups in them. A run over its words, in the default layout and with
nothing counted before, succeeds whatever the registers hold. It emulates as many words as there are
sites, counts each operation as often as it has a site, and counts all other words as not trapped.
-/
theorem run_words_traps_at_sites {σ : Type} (P : Primitives σ)
    (data : ∀ b, Vector (BitVec 8) (({} : Layout).windowSize b)) (state : σ) :
    let e : Emulator σ := { core := ⟨.holding {} data, state⟩ }
    let e' := (Emulator.run P i.words e).2
    i.words = i.segments.flatMap (fun s => (List.range s.wordCount).map (wordAt s.data)) ∧
      i.sites = i.segments.flatMap (fun s => (List.range s.wordCount).filterMap s.siteAt?) ∧
      (Emulator.run P i.words e).1 = .ok i.sites.length ∧
      (∀ op, e'.statistics.count op = i.sites.countP (·.decoded.operation == op)) ∧
      i.sites.length + e'.statistics.notTrapped = i.words.length := by
  intro e e'
  have hf : e.core.registers.Fits :=
    RegisterFile.fits_holding (Layout.validate_eq_ok_iff.mp (by decide)) data
  obtain ⟨n, e₁, hrun, -, -⟩ := Emulator.run_of_aligned hf Layout.aligned_default P i.words
  have hok : (Emulator.run P i.words e).1 = .ok n := by rw [hrun]
  obtain ⟨hn, -, htally⟩ := Emulator.run_of_ok hok
  refine ⟨i.words_eq_flatMap, i.sites_eq_flatMap, ?_, fun op => ?_, ?_⟩
  · rw [hok, hn, length_sites]
  · have hzero : e.statistics.count op = 0 := by simp [e, Statistics.count]
    rw [htally, countP_sites, Statistics.tallyAll_eq_add_countP (·.count op) (· == some op)
      (Statistics.count_tally · · op), hzero, Nat.zero_add]
  · have hzero : e.statistics.notTrapped = 0 := rfl
    have hlength := List.length_eq_countP_add_countP
      (fun w => (Instruction.operation? w).isSome) (l := i.words)
    simp only [Bool.not_eq_true, Option.isSome_eq_false_iff, Bool.decide_eq_true] at hlength
    rw [htally, length_sites, Statistics.tallyAll_eq_add_countP _ _ Statistics.notTrapped_tally,
      hzero, Nat.zero_add, hlength]

end Image
end HartFloat.Elf
