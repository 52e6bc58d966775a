import HartFloat.Proofs.Registers.Bytes
import HartFloat.Registers.File

/-!
# Access to the registers of an accepted layout

An accepted layout keeps every register inside its window, and no address wraps around. Whether a
register can be read and written then depends on the base of its bank alone: strides are multiples
of four, so either all addresses of a bank are word addresses or none is.
-/
namespace HartFloat

/-- What an accepted layout promises: strides of whole words, windows inside the address space,
and no common byte. -/
structure Layout.Acceptable (l : Layout) : Prop where
  four_le_stride : ∀ b, 4 ≤ (l.stride b).toNat
  stride_mod : ∀ b, (l.stride b).toNat % 4 = 0
  stride_le : ∀ b, (l.stride b).toNat ≤ Layout.maxStride
  end_le : ∀ b, l.windowEnd b ≤ Layout.addressSpace
  disjoint : l.windowEnd .integer ≤ l.windowStart .float ∨
    l.windowEnd .float ≤ l.windowStart .integer

namespace Layout

variable {l : Layout}

theorem checkStride_eq_ok_iff (b : Bank) :
    l.checkStride b = .ok () ↔ 4 ≤ (l.stride b).toNat ∧ (l.stride b).toNat % 4 = 0 ∧
      (l.stride b).toNat ≤ maxStride := by
  unfold checkStride
  dsimp only
  split_ifs with hs hm <;> simp only [false_iff, true_iff] <;> omega

theorem validate_eq_ok_iff : l.validate = .ok () ↔ l.Acceptable := by
  have hf := checkStride_eq_ok_iff (l := l) .float
  have hi := checkStride_eq_ok_iff (l := l) .integer
  constructor
  · intro h
    unfold validate at h
    cases hcf : l.checkStride .float with
    | error e => simp [hcf, bind, Except.bind] at h
    | ok =>
      cases hci : l.checkStride .integer with
      | error e => simp [hcf, hci, bind, Except.bind] at h
      | ok =>
        obtain ⟨hf₁, hf₂, hf₃⟩ := hf.mp hcf
        obtain ⟨hi₁, hi₂, hi₃⟩ := hi.mp hci
        simp only [hcf, hci, bind, Except.bind] at h
        split_ifs at h with hend hover
        refine ⟨?_, ?_, ?_, ?_, by omega⟩ <;> intro b <;> cases b <;> omega
  · intro h
    have hcf := hf.mpr ⟨h.four_le_stride _, h.stride_mod _, h.stride_le _⟩
    have hci := hi.mpr ⟨h.four_le_stride _, h.stride_mod _, h.stride_le _⟩
    have hend : ¬(addressSpace < l.windowEnd .float ∨ addressSpace < l.windowEnd .integer) := by
      have := h.end_le .float
      have := h.end_le .integer
      omega
    have hover : ¬(l.windowStart .float < l.windowEnd .integer ∧
        l.windowStart .integer < l.windowEnd .float) := by
      have := h.disjoint
      omega
    simp only [validate, hcf, hci, bind, Except.bind, if_neg hend, if_neg hover]
    rfl

theorem offset_le_windowSize (b : Bank) {i : ℕ} (hi : i < registerCount) :
    i * (l.stride b).toNat + 4 ≤ l.windowSize b := by
  have hmul := Nat.mul_le_mul_right (l.stride b).toNat (Nat.le_sub_one_of_lt hi)
  unfold windowSize
  omega

theorem Acceptable.address_toNat (h : l.Acceptable) (b : Bank) {i : ℕ} (hi : i < registerCount) :
    (l.address b i).toNat = l.windowStart b + i * (l.stride b).toNat := by
  have hoff := offset_le_windowSize (l := l) b hi
  have hend := h.end_le b
  have hstride := h.stride_le b
  unfold registerCount at hi
  have hmul : i * (l.stride b).toNat < 2 ^ 32 := by
    unfold windowEnd addressSpace at hend
    omega
  have hi' : i % 2 ^ 32 = i := Nat.mod_eq_of_lt (by omega)
  unfold windowEnd addressSpace windowStart at hend
  unfold address windowStart
  rw [BitVec.toNat_add, BitVec.toNat_mul, BitVec.toNat_ofNat, hi', Nat.mod_eq_of_lt hmul]
  exact Nat.mod_eq_of_lt (by omega)

theorem Acceptable.address_mod (h : l.Acceptable) (b : Bank) {i : ℕ} (hi : i < registerCount) :
    (l.address b i).toNat % 4 = (l.base b).toNat % 4 := by
  rw [h.address_toNat b hi, windowStart, Nat.add_mod, Nat.mul_mod, h.stride_mod b]
  simp

end Layout

namespace RegisterFile

variable {l : Layout} {r : RegisterFile}

/-- Each window of the registers is the one that the layout describes. -/
structure Fits (r : RegisterFile) : Prop where
  acceptable : r.layout.Acceptable
  base_eq : ∀ b, (r.window b).base = r.layout.base b
  size_eq : ∀ b, (r.window b).size = r.layout.windowSize b

/-- The registers that a layout's fresh ones become by writes and resets. -/
inductive Reachable (l : Layout) : RegisterFile → Prop
  | create {r : RegisterFile} : create l = .ok r → Reachable l r
  | write {r r' : RegisterFile} {b : Bank} {i : ℕ} {w : Word} :
    Reachable l r → r.write b i w = .ok r' → Reachable l r'
  | reset {r : RegisterFile} : Reachable l r → Reachable l r.reset

theorem create_of_acceptable (h : l.Acceptable) : create l = .ok (allocate l) := by
  simp [create, Layout.validate_eq_ok_iff.mpr h]

theorem acceptable_of_create (h : create l = .ok r) : l.Acceptable ∧ r = allocate l := by
  unfold create at h
  split at h
  · next hv => exact ⟨Layout.validate_eq_ok_iff.mp hv, (Except.ok.inj h).symm⟩
  · simp at h

theorem fits_allocate (h : l.Acceptable) : (allocate l).Fits :=
  ⟨h, fun b => by cases b <;> rfl, fun b => by cases b <;> rfl⟩

theorem write_eq_ok {r' : RegisterFile} {b : Bank} {i : ℕ} {w : Word} (h : r.write b i w = .ok r') :
    ∃ data, r' = r.withWindow b { r.window b with data := data } := by
  unfold write at h
  split_ifs at h
  cases hl : (r.window b).locate (r.layout.address b i) with
  | error e => simp [Window.store, hl, Except.map, Except.mapError] at h
  | ok k =>
    simp only [Window.store, hl, Except.map, Except.mapError, Except.ok.injEq] at h
    exact ⟨_, h.symm⟩

theorem Fits.write (h : r.Fits) {r' : RegisterFile} {b : Bank} {i : ℕ} {w : Word}
    (hw : r.write b i w = .ok r') : r'.Fits ∧ r'.layout = r.layout := by
  obtain ⟨data, rfl⟩ := write_eq_ok hw
  cases b with
  | float =>
    refine ⟨⟨h.acceptable, ?_, ?_⟩, rfl⟩ <;> intro b <;> cases b
    exacts [h.base_eq .float, h.base_eq .integer, h.size_eq .float, h.size_eq .integer]
  | integer =>
    refine ⟨⟨h.acceptable, ?_, ?_⟩, rfl⟩ <;> intro b <;> cases b
    exacts [h.base_eq .float, h.base_eq .integer, h.size_eq .float, h.size_eq .integer]

theorem Fits.reset (h : r.Fits) : r.reset.Fits := by
  refine ⟨h.acceptable, ?_, ?_⟩ <;> intro b <;> cases b
  exacts [h.base_eq .float, h.base_eq .integer, h.size_eq .float, h.size_eq .integer]

/-- Writes and resets never move a window. -/
theorem Reachable.fits (h : Reachable l r) : r.Fits ∧ r.layout = l := by
  induction h with
  | create hc =>
    obtain ⟨ha, rfl⟩ := acceptable_of_create hc
    exact ⟨fits_allocate ha, rfl⟩
  | write _ hw ih =>
    obtain ⟨hfits, hlayout⟩ := ih.1.write hw
    exact ⟨hfits, hlayout.trans ih.2⟩
  | reset _ ih => exact ⟨ih.1.reset, ih.2⟩

/-- The range check never fails for a register; only the alignment check can. -/
theorem Fits.serves_address_iff (h : r.Fits) (b : Bank) {i : ℕ} (hi : i < registerCount) :
    (r.window b).Serves (r.layout.address b i) ↔ (r.layout.base b).toNat % 4 = 0 := by
  have hoff := Layout.offset_le_windowSize (l := r.layout) b hi
  rw [Window.serves_iff, Window.Covers, h.base_eq b, h.size_eq b, h.acceptable.address_mod b hi,
    h.acceptable.address_toNat b hi, Layout.windowStart]
  omega

/-- The register can be read, and any word can be written to it. -/
def Serves (r : RegisterFile) (b : Bank) (i : ℕ) : Prop :=
  (∃ v, r.read b i = .ok v) ∧ ∀ w, ∃ r', r.write b i w = .ok r'

/-- Every access to the register is refused because its address is not a word address. -/
def Refuses (r : RegisterFile) (b : Bank) (i : ℕ) : Prop :=
  r.read b i = .error (.access (.unaligned (r.layout.address b i))) ∧
    ∀ w, r.write b i w = .error (.access (.unaligned (r.layout.address b i)))

theorem Fits.serves (h : r.Fits) {b : Bank} {i : ℕ} (hi : i < registerCount)
    (hbase : (r.layout.base b).toNat % 4 = 0) : r.Serves b i := by
  have hserves := (h.serves_address_iff b hi).mpr hbase
  constructor
  · obtain ⟨v, hv⟩ := Window.exists_load_iff.mpr hserves
    exact ⟨v, by simp [read, hi, hv, Except.mapError]⟩
  · intro w
    obtain ⟨v, hv⟩ : ∃ v, (r.window b).store (r.layout.address b i) w = .ok v :=
      Window.exists_store_iff.mpr hserves
    exact ⟨r.withWindow b v, by simp [RegisterFile.write, hi, hv, Except.map, Except.mapError]⟩

theorem Fits.refuses (h : r.Fits) {b : Bank} {i : ℕ} (hi : i < registerCount)
    (hbase : (r.layout.base b).toNat % 4 ≠ 0) : r.Refuses b i := by
  rw [← h.acceptable.address_mod b hi] at hbase
  constructor
  · rw [read, if_pos hi, Window.load_eq_unaligned_iff.mpr hbase]
    rfl
  · intro w
    rw [RegisterFile.write, if_pos hi, Window.store_eq_unaligned_iff.mpr hbase]
    rfl

/-- An accepted layout gives registers that stay accessible whatever is written to them exactly
when the bank's base is a word address; otherwise no register of the bank is ever accessible. -/
theorem serves_iff_base_aligned (h : l.validate = .ok ()) :
    create l = .ok (allocate l) ∧
      ∀ r, Reachable l r → ∀ b i, i < registerCount →
        (r.Serves b i ↔ (l.base b).toNat % 4 = 0) ∧
          ((l.base b).toNat % 4 ≠ 0 → r.Refuses b i) := by
  refine ⟨create_of_acceptable (Layout.validate_eq_ok_iff.mp h), ?_⟩
  intro r hr b i hi
  obtain ⟨hfits, rfl⟩ := hr.fits
  refine ⟨⟨?_, hfits.serves hi⟩, hfits.refuses hi⟩
  rintro ⟨⟨v, hv⟩, -⟩
  by_contra hbase
  rw [(hfits.refuses hi hbase).1] at hv
  cases hv

/-- With one aligned and one unaligned base, one bank is served and the other is refused. -/
theorem serves_iff_base_aligned_mixed :
    ({ integerBase := 0xa0000002 } : Layout).validate = .ok () ∧
      (allocate { integerBase := 0xa0000002 }).Serves .float 31 ∧
      (allocate { integerBase := 0xa0000002 }).Refuses .integer 0 := by
  have hv : ({ integerBase := 0xa0000002 } : Layout).validate = .ok () := by decide
  obtain ⟨hc, hr⟩ := serves_iff_base_aligned hv
  exact ⟨hv, (hr _ (.create hc) .float 31 (by decide)).1.mpr (by decide),
    (hr _ (.create hc) .integer 0 (by decide)).2 (by decide)⟩

/-- Acceptance does not look at the bases, so it does not make registers accessible. -/
theorem accepted_layout_may_refuse :
    ¬∀ l : Layout, l.validate = .ok () → ∀ r, create l = .ok r →
      ∀ b i, i < registerCount → r.Serves b i := by
  intro h
  have hv : ({ floatBase := 0xc0000001 } : Layout).validate = .ok () := by decide
  obtain ⟨⟨v, hread⟩, -⟩ := h _ hv _ (create_of_acceptable (Layout.validate_eq_ok_iff.mp hv))
    .float 0 (by decide)
  have herr : (allocate { floatBase := 0xc0000001 }).read .float 0 =
      .error (.access (.unaligned 0xc0000001)) := by decide
  rw [herr] at hread
  cases hread

end RegisterFile
end HartFloat
