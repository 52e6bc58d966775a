import HartFloat.Registers.Window
import Mathlib.Tactic

/-!
# The bytes of a memory window

A window serves the word addresses whose four bytes all belong to it. What a load returns there is
read off those bytes, and a store replaces them and no other byte. Word addresses are at least four
bytes apart, wherever the base of the window is, so a store does not reach the word at another
address.
-/
namespace HartFloat

namespace Word

theorem getLsbD_eq_byte (w : Word) (i : ℕ) : w.getLsbD i = (w.byte (i / 8)).getLsbD (i % 8) := by
  rw [byte, BitVec.getLsbD_extractLsb', Nat.div_add_mod, decide_eq_true (Nat.mod_lt i (by decide)),
    Bool.true_and]

theorem ext_byte {v w : Word} (h : ∀ j < 4, v.byte j = w.byte j) : v = w := by
  refine BitVec.eq_of_getLsbD_eq fun i hi => ?_
  rw [getLsbD_eq_byte, getLsbD_eq_byte w, h (i / 8) (by omega)]

theorem byte_ofBytes (b : Fin 4 → BitVec 8) (j : Fin 4) :
    (ofBytes (b 0) (b 1) (b 2) (b 3)).byte j = b j := by
  unfold ofBytes byte
  fin_cases j
  · exact BitVec.extractLsb'_append_eq_right
  all_goals
    simp (disch := omega) only [BitVec.extractLsb'_append_eq_of_le, Nat.reduceSub, Nat.reduceMul,
      BitVec.extractLsb'_append_eq_right, BitVec.extractLsb'_eq_self]
    rfl

end Word

namespace Window

variable {w w' : Window} {address address' value : Word} {n : ℕ}

theorem getElem?_eq_byte_wordAt (data : Vector (BitVec 8) n) (i : { i : ℕ // i + 4 ≤ n }) {j : ℕ}
    (hj : j < 4) : data[i.1 + j]? = some ((wordAt data i).byte j) := by
  have hi := i.2
  have hbyte : (wordAt data i).byte j = data[i.1 + j] :=
    Word.byte_ofBytes (fun j => data[i.1 + j]) ⟨j, hj⟩
  rw [hbyte]
  exact Vector.getElem?_eq_getElem (by omega)

theorem getElem?_setWord (data : Vector (BitVec 8) n) (i : { i : ℕ // i + 4 ≤ n }) (value : Word)
    (k : ℕ) :
    (setWord data i value)[k]? =
      if i.1 ≤ k ∧ k < i.1 + 4 then some (value.byte (k - i.1)) else data[k]? := by
  unfold setWord
  simp only [Vector.getElem?_set]
  by_cases hmem : i.1 ≤ k ∧ k < i.1 + 4
  · obtain ⟨j, rfl⟩ := Nat.exists_eq_add_of_le hmem.1
    have hj : j < 4 := by omega
    rw [if_pos hmem]
    interval_cases j <;> simp
  · rw [if_neg hmem, if_neg, if_neg, if_neg, if_neg] <;> omega

/-- The address is a multiple of four, and its first and last byte belong to the window. -/
def Serves (w : Window) (address : Word) : Prop :=
  address.toNat % 4 = 0 ∧ w.contains address = true ∧ w.contains (address + 3) = true

theorem contains_iff :
    w.contains address = true ↔
      w.base.toNat ≤ address.toNat ∧ address.toNat - w.base.toNat < w.size := by
  simp [contains]

/-- No byte of a word lies behind the end of the address space. -/
theorem toNat_add_ofNat (h : address.toNat % 4 = 0) {j : ℕ} (hj : j < 4) :
    (address + BitVec.ofNat 32 j).toNat = address.toNat + j := by
  have hlt := address.isLt
  rw [BitVec.toNat_add, BitVec.toNat_ofNat]
  omega

theorem serves_iff : w.Serves address ↔ address.toNat % 4 = 0 ∧ w.Covers address := by
  unfold Serves
  refine and_congr_right fun hmod => ?_
  have hlast : (address + 3).toNat = address.toNat + 3 := toNat_add_ofNat hmod (by decide)
  rw [contains_iff, contains_iff, hlast, Covers]
  omega

theorem locate_of_serves (h : w.Serves address) :
    w.locate address = .ok ⟨address.toNat - w.base.toNat, (serves_iff.mp h).2.2⟩ := by
  obtain ⟨hmod, hcover⟩ := serves_iff.mp h
  rw [locate, if_neg (not_not.mpr hmod), dif_pos hcover]

theorem locate_of_not_serves (h : ¬w.Serves address) :
    w.locate address = .error (if address.toNat % 4 ≠ 0 then .unaligned address
      else .outOfRange address w.base w.size) := by
  rw [serves_iff, not_and] at h
  unfold locate
  split_ifs with hmod hcover
  · rfl
  · exact absurd hcover (h (not_not.mp hmod))
  · rfl

/-- Alignment is checked before the range. -/
theorem locate_eq_unaligned_iff :
    w.locate address = .error (.unaligned address) ↔ address.toNat % 4 ≠ 0 := by
  unfold locate
  split_ifs with hmod hcover <;> simp_all

def byteAt? (w : Window) (address : Word) : Option (BitVec 8) :=
  if w.base.toNat ≤ address.toNat then w.data[address.toNat - w.base.toNat]? else none

theorem byteAt?_of_serves (h : w.Serves address) {j : ℕ} (hj : j < 4) :
    w.byteAt? (address + BitVec.ofNat 32 j) = some ((wordAt w.data
      ⟨address.toNat - w.base.toNat, (serves_iff.mp h).2.2⟩).byte j) := by
  obtain ⟨hmod, hbase, hsize⟩ := serves_iff.mp h
  have hindex : address.toNat + j - w.base.toNat = address.toNat - w.base.toNat + j := by omega
  rw [byteAt?, toNat_add_ofNat hmod hj, if_pos (by omega), hindex]
  exact getElem?_eq_byte_wordAt w.data ⟨_, hsize⟩ hj

/-- A load returns the word in the four bytes from its address on. -/
theorem load_eq_ok_iff :
    w.load address = .ok value ↔
      w.Serves address ∧
        ∀ j < 4, w.byteAt? (address + BitVec.ofNat 32 j) = some (value.byte j) := by
  by_cases h : w.Serves address
  · rw [load, locate_of_serves h, and_iff_right h]
    constructor
    · rintro hv j hj
      rw [byteAt?_of_serves h hj, ← Except.ok.inj hv]
    · intro hbytes
      refine congrArg Except.ok (Word.ext_byte fun j hj => ?_)
      exact Option.some.inj ((byteAt?_of_serves h hj).symm.trans (hbytes j hj))
  · rw [load, locate_of_not_serves h]
    exact iff_of_false nofun fun hs => h hs.1

theorem load_of_not_serves (h : ¬w.Serves address) :
    w.load address = .error (if address.toNat % 4 ≠ 0 then .unaligned address
      else .outOfRange address w.base w.size) := by
  rw [load, locate_of_not_serves h]
  rfl

theorem exists_load_iff : (∃ v, w.load address = .ok v) ↔ w.Serves address := by
  constructor
  · rintro ⟨v, hv⟩
    exact (load_eq_ok_iff.mp hv).1
  · intro h
    exact ⟨_, by rw [load, locate_of_serves h]; rfl⟩

theorem store_eq_ok_iff :
    w.store address value = .ok w' ↔
      ∃ k, w.locate address = .ok k ∧ w' = { w with data := setWord w.data k value } := by
  unfold store
  cases w.locate address with
  | error e => simp [Except.map]
  | ok k => simp [Except.map, eq_comm]

theorem exists_store_iff : (∃ w', w.store address value = .ok w') ↔ w.Serves address := by
  unfold store
  by_cases h : w.Serves address
  · rw [locate_of_serves h]
    exact iff_of_true ⟨_, rfl⟩ h
  · rw [locate_of_not_serves h]
    exact iff_of_false nofun h

theorem load_eq_unaligned_iff :
    w.load address = .error (.unaligned address) ↔ address.toNat % 4 ≠ 0 := by
  rw [← locate_eq_unaligned_iff (w := w), load]
  cases w.locate address <;> simp [Except.map]

theorem store_eq_unaligned_iff :
    w.store address value = .error (.unaligned address) ↔ address.toNat % 4 ≠ 0 := by
  rw [← locate_eq_unaligned_iff (w := w), store]
  cases w.locate address <;> simp [Except.map]

theorem base_and_size_of_store (h : w.store address value = .ok w') :
    w'.base = w.base ∧ w'.size = w.size := by
  obtain ⟨k, -, rfl⟩ := store_eq_ok_iff.mp h
  exact ⟨rfl, rfl⟩

/-- A store replaces the four bytes from its address on and leaves all others as they were. -/
theorem byteAt?_store (h : w.store address value = .ok w') (x : Word) :
    w'.byteAt? x =
      if address.toNat ≤ x.toNat ∧ x.toNat < address.toNat + 4 then
        some (value.byte (x.toNat - address.toNat))
      else w.byteAt? x := by
  have hserves := exists_store_iff.mp ⟨w', h⟩
  obtain ⟨-, hbase, hsize⟩ := serves_iff.mp hserves
  obtain ⟨k, hk, rfl⟩ := store_eq_ok_iff.mp h
  rw [locate_of_serves hserves] at hk
  obtain rfl := Except.ok.inj hk
  unfold byteAt?
  dsimp only
  by_cases hx : w.base.toNat ≤ x.toNat
  · have hsub : x.toNat - w.base.toNat - (address.toNat - w.base.toNat) =
        x.toNat - address.toNat := by omega
    have hmem : address.toNat - w.base.toNat ≤ x.toNat - w.base.toNat ∧
        x.toNat - w.base.toNat < address.toNat - w.base.toNat + 4 ↔
          address.toNat ≤ x.toNat ∧ x.toNat < address.toNat + 4 := by omega
    rw [if_pos hx, if_pos hx, getElem?_setWord, hsub, if_congr hmem rfl rfl]
  · rw [if_neg hx, if_neg hx, if_neg (by omega)]

theorem byteAt?_add_store (h : w.store address value = .ok w') {j : ℕ} (hj : j < 4) :
    w'.byteAt? (address + BitVec.ofNat 32 j) = some (value.byte j) := by
  have hsum := toNat_add_ofNat (exists_store_iff.mp ⟨w', h⟩).1 hj
  rw [byteAt?_store h, hsum, if_pos (by omega), Nat.add_sub_cancel_left]

theorem serves_congr (hbase : w'.base = w.base) (hsize : w'.size = w.size) :
    w'.Serves address ↔ w.Serves address := by
  rw [serves_iff, serves_iff, Covers, Covers, hbase, hsize]

theorem load_store_same (h : w.store address value = .ok w') : w'.load address = .ok value := by
  obtain ⟨hbase, hsize⟩ := base_and_size_of_store h
  exact load_eq_ok_iff.mpr
    ⟨(serves_congr hbase hsize).mpr (exists_store_iff.mp ⟨w', h⟩), fun j => byteAt?_add_store h⟩

/-- A store changes no word but that at its address, and does not make a load fail or succeed. -/
theorem load_store_of_ne (h : w.store address value = .ok w') (hne : address' ≠ address) :
    w'.load address' = w.load address' := by
  obtain ⟨hbase, hsize⟩ := base_and_size_of_store h
  have hserves : w'.Serves address' ↔ w.Serves address' := serves_congr hbase hsize
  have hmod := (exists_store_iff.mp ⟨w', h⟩).1
  by_cases h' : w.Serves address'
  · obtain ⟨v, hv⟩ := exists_load_iff.mpr h'
    rw [hv]
    refine load_eq_ok_iff.mpr ⟨hserves.mpr h', fun j hj => ?_⟩
    -- Both addresses are multiples of four, so the bytes of the two words lie apart.
    have hne' : address'.toNat ≠ address.toNat := fun heq => hne (BitVec.eq_of_toNat_eq heq)
    have hmod' := h'.1
    rw [byteAt?_store h, toNat_add_ofNat hmod' hj, if_neg (by omega)]
    exact (load_eq_ok_iff.mp hv).2 j hj
  · rw [load_of_not_serves h', load_of_not_serves (mt hserves.mp h'), hbase, hsize]

theorem byteAt?_empty {size : ℕ} {base x : Word} (h : (empty size base).contains x = true) :
    (empty size base).byteAt? x = some 0 := by
  obtain ⟨hbase, hsize⟩ := contains_iff.mp h
  rw [byteAt?, if_pos hbase]
  exact (Vector.getElem?_replicate ..).trans (if_pos hsize)

theorem load_empty {size : ℕ} {base : Word} (h : (empty size base).Serves address) :
    (empty size base).load address = .ok 0 := by
  obtain ⟨hmod, hbase, hsize⟩ := serves_iff.mp h
  refine load_eq_ok_iff.mpr ⟨h, fun j hj => ?_⟩
  have hcontains : (empty size base).contains (address + BitVec.ofNat 32 j) = true := by
    rw [contains_iff, toNat_add_ofNat hmod hj]
    omega
  have hzero : (0 : Word).byte j = 0 := by
    interval_cases j <;> rfl
  rw [byteAt?_empty hcontains, hzero]

theorem load_clear (h : w.Serves address) : w.clear.load address = .ok 0 :=
  load_empty ((serves_congr rfl rfl).mpr h)

end Window
end HartFloat
