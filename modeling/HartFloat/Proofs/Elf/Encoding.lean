import HartFloat.Elf.Image
import Mathlib.Tactic

/-!
# Writing numbers and reading them back

Numbers are written with the least significant byte first, in as many bytes as their width says.
The numbers that stand at the place where they were written are those that were written, whatever
stands before and after them; so are the words of a code.
-/
namespace HartFloat.Elf

/-- The bytes of a number, the least significant first; what does not fit the width is lost. -/
def littleBytes : (width : ℕ) → ℕ → Bytes
  | 0, _ => []
  | w + 1, n => UInt8.ofNat n :: littleBytes w (n / 256)

@[simp] theorem length_littleBytes (w n : ℕ) : (littleBytes w n).length = w := by
  induction w generalizing n with
  | zero => rfl
  | succ w ih => rw [littleBytes, List.length_cons, ih]

theorem littleNumber_littleBytes (w n : ℕ) : littleNumber (littleBytes w n) = n % 256 ^ w := by
  induction w generalizing n with
  | zero => rw [littleBytes, littleNumber, Nat.pow_zero, Nat.mod_one]
  | succ w ih =>
    have hbyte : (UInt8.ofNat n).toNat = n % 256 := UInt8.toNat_ofNat'
    rw [littleBytes, littleNumber, ih, hbyte, Nat.pow_succ', Nat.mod_mul]

/-- The byte at a place of a file; zero beyond the end. -/
def byteAt (file : Bytes) (i : ℕ) : ℕ := (file.getD i 0).toNat

/-- The number in the bytes from a place on, the least significant byte first. -/
def numberAt (file : Bytes) (start width : ℕ) : ℕ :=
  ∑ k ∈ Finset.range width, byteAt file (start + k) * 256 ^ k

/-- The numbers of the given widths that stand one after the other from a place on. -/
def numbersFrom (file : Bytes) : (start : ℕ) → (widths : List ℕ) → List ℕ
  | _, [] => []
  | start, w :: ws => numberAt file start w :: numbersFrom file (start + w) ws

theorem littleNumber_take (bs : Bytes) (width : ℕ) :
    littleNumber (bs.take width) = ∑ k ∈ Finset.range width, byteAt bs k * 256 ^ k := by
  induction bs generalizing width with
  | nil => simp [littleNumber, byteAt]
  | cons b bs ih =>
    cases width with
    | zero => rfl
    | succ width =>
      have hrest : ∑ k ∈ Finset.range width, byteAt (b :: bs) (k + 1) * 256 ^ (k + 1) =
          256 * ∑ k ∈ Finset.range width, byteAt bs k * 256 ^ k := by
        rw [Finset.mul_sum]
        refine Finset.sum_congr rfl fun k _ => ?_
        rw [Nat.pow_succ']
        simp only [byteAt, List.getD_cons_succ]
        ring
      rw [List.take_succ_cons, littleNumber, ih, Finset.sum_range_succ', hrest]
      simp [byteAt, Nat.add_comm]

theorem littleNumber_slice (file : Bytes) (start width : ℕ) :
    littleNumber ((file.drop start).take width) = numberAt file start width := by
  rw [littleNumber_take, numberAt]
  refine Finset.sum_congr rfl fun k _ => ?_
  simp [byteAt, List.getD_eq_getElem?_getD]

/-- The bytes stand in the file from `start` on. -/
def StandsAt (file : Bytes) (start : ℕ) (bs : Bytes) : Prop :=
  ∃ before after, file = before ++ (bs ++ after) ∧ before.length = start

namespace StandsAt

variable {file bs cs : Bytes} {start : ℕ}

theorem self (file : Bytes) : StandsAt file 0 file := ⟨[], [], by simp, rfl⟩

theorem left (h : StandsAt file start (bs ++ cs)) : StandsAt file start bs := by
  obtain ⟨before, after, rfl, hstart⟩ := h
  exact ⟨before, cs ++ after, by simp, hstart⟩

theorem right (h : StandsAt file start (bs ++ cs)) : StandsAt file (start + bs.length) cs := by
  obtain ⟨before, after, rfl, rfl⟩ := h
  exact ⟨before ++ bs, after, by simp, List.length_append⟩

theorem le_length (h : StandsAt file start bs) : start + bs.length ≤ file.length := by
  obtain ⟨before, after, rfl, rfl⟩ := h
  simp only [List.length_append]
  omega

theorem take_drop (h : StandsAt file start bs) : (file.drop start).take bs.length = bs := by
  obtain ⟨before, after, rfl, rfl⟩ := h
  rw [List.drop_left, List.take_left]

end StandsAt

theorem standsAt_iff {file bs : Bytes} {start : ℕ} :
    StandsAt file start bs ↔
      start + bs.length ≤ file.length ∧ (file.drop start).take bs.length = bs := by
  refine ⟨fun h => ⟨h.le_length, h.take_drop⟩, ?_⟩
  rintro ⟨hle, hbs⟩
  have hdrop : file.drop start = bs ++ (file.drop start).drop bs.length :=
    (List.take_append_drop bs.length (file.drop start)).symm.trans (by rw [hbs])
  refine ⟨file.take start, (file.drop start).drop bs.length, ?_, ?_⟩
  · rw [← hdrop, List.take_append_drop]
  · rw [List.length_take]
    omega

theorem numberAt_littleBytes {file : Bytes} {start w n : ℕ}
    (h : StandsAt file start (littleBytes w n)) (hn : n < 256 ^ w) : numberAt file start w = n := by
  have htake := h.take_drop
  rw [length_littleBytes] at htake
  rw [← littleNumber_slice, htake, littleNumber_littleBytes, Nat.mod_eq_of_lt hn]

/-- The bytes of numbers that are each written in a width of their own. -/
def fields (ns : List (ℕ × ℕ)) : Bytes := ns.flatMap fun f => littleBytes f.1 f.2

/-- Every number fits its width. -/
def Fit (ns : List (ℕ × ℕ)) : Prop := ∀ f ∈ ns, f.2 < 256 ^ f.1

theorem fit_nil : Fit [] := by simp [Fit]

theorem fit_cons {w n : ℕ} {ns : List (ℕ × ℕ)} : Fit ((w, n) :: ns) ↔ n < 256 ^ w ∧ Fit ns :=
  List.forall_mem_cons

theorem fields_cons (f : ℕ × ℕ) (ns : List (ℕ × ℕ)) :
    fields (f :: ns) = littleBytes f.1 f.2 ++ fields ns := List.flatMap_cons

theorem length_fields (ns : List (ℕ × ℕ)) : (fields ns).length = (ns.map Prod.fst).sum := by
  induction ns with
  | nil => rfl
  | cons f ns ih =>
    rw [fields_cons, List.length_append, length_littleBytes, List.map_cons, List.sum_cons, ih]

theorem numbersFrom_fields {file : Bytes} {start : ℕ} {ns : List (ℕ × ℕ)} (hns : Fit ns)
    (h : StandsAt file start (fields ns)) :
    numbersFrom file start (ns.map Prod.fst) = ns.map Prod.snd := by
  induction ns generalizing start with
  | nil => rfl
  | cons f ns ih =>
    obtain ⟨hf, hns⟩ := fit_cons.mp hns
    rw [fields_cons] at h
    have hrest := h.right
    rw [length_littleBytes] at hrest
    rw [List.map_cons, List.map_cons, numbersFrom, numberAt_littleBytes h.left hf, ih hns hrest]

/-- The bytes of a code, word by word. -/
def codeBytes (code : List Word) : Bytes := code.flatMap fun w => littleBytes 4 w.toNat

theorem length_codeBytes (code : List Word) : (codeBytes code).length = 4 * code.length := by
  simp [codeBytes, Nat.mul_comm]

theorem wordsOf_codeBytes (code : List Word) : wordsOf (codeBytes code) = code := by
  induction code with
  | nil => rfl
  | cons w code ih =>
    have hword : BitVec.ofNat 32 (littleNumber (littleBytes 4 w.toNat)) = w := by
      have hlt : w.toNat < 256 ^ 4 := w.isLt
      rw [littleNumber_littleBytes, Nat.mod_eq_of_lt hlt, BitVec.ofNat_toNat, BitVec.setWidth_eq]
    calc wordsOf (codeBytes (w :: code))
        = BitVec.ofNat 32 (littleNumber (littleBytes 4 w.toNat)) :: wordsOf (codeBytes code) := rfl
      _ = w :: code := by rw [hword, ih]

end HartFloat.Elf
