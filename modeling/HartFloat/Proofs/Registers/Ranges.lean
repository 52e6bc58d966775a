import HartFloat.Proofs.Registers.Access
import Mathlib.Order.CompletePartialOrder

/-!
# Every register has four bytes of its own

In an accepted layout the address of a register is the plain sum that its bank's base and stride
give, without a step around the end of the address space. The four bytes from there on lie in the
window of the bank and are shared with no other register of either bank.
-/
namespace HartFloat.Layout

def registerBytes (l : Layout) (b : Bank) (i : ℕ) : Set ℕ :=
  Set.Ico (l.address b i).toNat ((l.address b i).toNat + 4)

def windowBytes (l : Layout) (b : Bank) : Set ℕ :=
  Set.Ico (l.base b).toNat ((l.base b).toNat + l.windowSize b)

variable {l : Layout} {i i' : ℕ}

theorem Acceptable.registerBytes_eq (h : l.Acceptable) (b : Bank) (hi : i < registerCount) :
    l.registerBytes b i =
      Set.Ico ((l.base b).toNat + i * (l.stride b).toNat)
        ((l.base b).toNat + i * (l.stride b).toNat + 4) := by
  rw [registerBytes, h.address_toNat b hi, windowStart]

theorem Acceptable.registerBytes_subset_windowBytes (h : l.Acceptable) (b : Bank)
    (hi : i < registerCount) : l.registerBytes b i ⊆ l.windowBytes b := by
  have hoffset := offset_le_windowSize (l := l) b hi
  rw [h.registerBytes_eq b hi, windowBytes]
  exact Set.Ico_subset_Ico (Nat.le_add_right _ _) (by omega)

theorem Acceptable.windowBytes_subset_addressSpace (h : l.Acceptable) (b : Bank) :
    l.windowBytes b ⊆ Set.Iio addressSpace := by
  have hend := h.end_le b
  intro a ha
  exact lt_of_lt_of_le ha.2 hend

/-- A stride is at least as long as a register. -/
theorem Acceptable.disjoint_registerBytes_of_lt (h : l.Acceptable) (b : Bank)
    (hi' : i' < registerCount) (hlt : i < i') :
    Disjoint (l.registerBytes b i) (l.registerBytes b i') := by
  have hstride := h.four_le_stride b
  have hnext : (i + 1) * (l.stride b).toNat ≤ i' * (l.stride b).toNat :=
    Nat.mul_le_mul_right _ hlt
  rw [Nat.succ_mul] at hnext
  rw [h.registerBytes_eq b (hlt.trans hi'), h.registerBytes_eq b hi', Set.Ico_disjoint_Ico]
  omega

theorem Acceptable.disjoint_windowBytes (h : l.Acceptable) {b b' : Bank} (hne : b ≠ b') :
    Disjoint (l.windowBytes b) (l.windowBytes b') := by
  have hdisjoint : Disjoint (l.windowBytes .float) (l.windowBytes .integer) := by
    have hends := h.disjoint
    simp only [windowEnd, windowStart] at hends
    rw [windowBytes, windowBytes, Set.Ico_disjoint_Ico]
    omega
  cases b <;> cases b'
  case float.integer => exact hdisjoint
  case integer.float => exact hdisjoint.symm
  all_goals exact absurd rfl hne

theorem Acceptable.disjoint_registerBytes (h : l.Acceptable) {b b' : Bank}
    (hi : i < registerCount) (hi' : i' < registerCount) (hne : (b, i) ≠ (b', i')) :
    Disjoint (l.registerBytes b i) (l.registerBytes b' i') := by
  by_cases hb : b = b'
  · subst hb
    have hii : i ≠ i' := fun heq => hne (by rw [heq])
    rcases Nat.lt_or_gt_of_ne hii with hlt | hgt
    · exact h.disjoint_registerBytes_of_lt b hi' hlt
    · exact (h.disjoint_registerBytes_of_lt b hi hgt).symm
  · exact (h.disjoint_windowBytes hb).mono (h.registerBytes_subset_windowBytes b hi)
      (h.registerBytes_subset_windowBytes b' hi')

/-- In an accepted layout neither the product nor the sum that give a register's address wraps
around. The bytes of a register lie in the address space and in the window of its bank, and no two
of the 64 registers have a byte in common. -/
theorem registers_have_bytes_of_their_own (h : l.validate = .ok ()) :
    (∀ b i, i < registerCount →
      i * (l.stride b).toNat < addressSpace ∧
        (l.base b).toNat + i * (l.stride b).toNat < addressSpace ∧
        (l.address b i).toNat = (l.base b).toNat + i * (l.stride b).toNat ∧
        l.registerBytes b i ⊆ Set.Iio addressSpace ∧
        l.registerBytes b i ⊆ l.windowBytes b) ∧
      ∀ b i b' i', i < registerCount → i' < registerCount → (b, i) ≠ (b', i') →
        Disjoint (l.registerBytes b i) (l.registerBytes b' i') := by
  have ha := validate_eq_ok_iff.mp h
  refine ⟨?_, fun b i b' i' hi hi' hne => ha.disjoint_registerBytes hi hi' hne⟩
  intro b i hi
  have haddress := ha.address_toNat b hi
  have hwindow := ha.registerBytes_subset_windowBytes b hi
  have hspace := hwindow.trans (ha.windowBytes_subset_addressSpace b)
  have hsum : (l.base b).toNat + i * (l.stride b).toNat < addressSpace := by
    rw [windowStart] at haddress
    exact haddress ▸ (l.address b i).isLt
  exact ⟨by omega, hsum, haddress, hspace, hwindow⟩

/-- The last byte of the last register may be the last one of the address space, and the two windows
may touch. -/
theorem registers_have_bytes_of_their_own_at_the_end :
    let l : Layout := { floatBase := 0xffffff80, integerBase := 0xfffffd8c }
    l.validate = .ok () ∧
      l.registerBytes .float 31 ⊆ Set.Iio addressSpace ∧
      Disjoint (l.registerBytes .integer 31) (l.registerBytes .float 0) := by
  intro l
  have hv : l.validate = .ok () := by decide
  obtain ⟨hplaces, hdisjoint⟩ := registers_have_bytes_of_their_own hv
  exact ⟨hv, (hplaces .float 31 (by decide)).2.2.2.1,
    hdisjoint .integer 31 .float 0 (by decide) (by decide) (by decide)⟩

end HartFloat.Layout
