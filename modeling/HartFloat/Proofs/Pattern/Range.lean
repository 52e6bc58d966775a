import HartFloat.Environment
import Mathlib.Tactic

/-!
# The bits that a pattern may have

The mask of a format is the union of the masks of its three fields, and a pattern may have exactly
the bits that lie inside the mask. The mask reserves the place of a sign bit in every format, while
the width counts the sign bit only where there is one. The two ranges are therefore the same in a
format with a sign bit, and in one without it the patterns may be one bit wider than the format.
-/
namespace HartFloat

namespace Format

variable (F : Format)

/-- The place of the sign bit, also in a format that has none. -/
def signMask : ℕ := 2 ^ F.signShift

def exponentMask : ℕ := F.infinityExponent * 2 ^ F.mantissaWidth

def mantissaMask : ℕ := F.maxMantissa

theorem ones_or_ones (a b : ℕ) : (2 ^ a - 1) * 2 ^ b ||| (2 ^ b - 1) = 2 ^ (a + b) - 1 := by
  have hlow : 2 ^ b - 1 < 2 ^ b := Nat.sub_one_lt (Nat.two_pow_pos b).ne'
  have hle : 2 ^ b ≤ 2 ^ a * 2 ^ b := Nat.le_mul_of_pos_left _ (Nat.two_pow_pos a)
  rw [Nat.mul_comm, ← Nat.two_pow_add_eq_or_of_lt hlow, Nat.mul_comm, Nat.sub_mul, Nat.pow_add]
  omega

/-- The masks of the three fields leave no place of the mask out. -/
theorem mask_eq_or : F.mask = F.signMask ||| F.exponentMask ||| F.mantissaMask := by
  have hfields : F.exponentMask ||| F.mantissaMask = 2 ^ F.signShift - 1 :=
    ones_or_ones F.exponentWidth F.mantissaWidth
  have hsign : F.signMask = (2 ^ 1 - 1) * 2 ^ F.signShift := by simp [signMask]
  rw [Nat.or_assoc, hfields, hsign, ones_or_ones, Nat.add_comm]
  rfl

theorem le_mask_iff {b : ℕ} : b ≤ F.mask ↔ b < F.capacity := by
  have := Nat.two_pow_pos (F.signShift + 1)
  unfold mask capacity
  omega

theorem mask_and_eq_iff {b : ℕ} : F.mask &&& b = b ↔ b < F.capacity := by
  rw [Nat.and_comm, mask, capacity, Nat.and_two_pow_sub_one_eq_mod]
  exact ⟨fun h => h ▸ Nat.mod_lt _ (Nat.two_pow_pos _), Nat.mod_eq_of_lt⟩

theorem capacity_eq : F.capacity = 2 ^ (F.width + (!F.signBit).toNat) := by
  unfold capacity signShift width
  congr 1
  cases F.signBit
  · simp
  · simp
    omega

/-- The width tells the range of patterns exactly if the format has a sign bit. -/
theorem capacity_eq_two_pow_width_iff : F.capacity = 2 ^ F.width ↔ F.signBit = true := by
  rw [capacity_eq, Nat.pow_right_inj (by decide)]
  cases F.signBit <;> simp

/-- Of all numbers, exactly those with the property are taken as the bits of a pattern, whether it
is to be carried along, made, or given in place of another; the pattern then has these bits. -/
structure TakesExactly (p : ℕ → Prop) : Prop where
  isSome_ofBits? : ∀ b, (Carried.ofBits? F b).isSome = true ↔ p b
  ofBits_eq_error : ∀ b, Pattern.ofBits F b = .error .bitsOutOfRange ↔ ¬p b
  withBits_eq_error : ∀ (x : Pattern F) b, x.withBits b = .error .bitsOutOfRange ↔ ¬p b
  bits_eq : ∀ b x, Pattern.ofBits F b = .ok x → x.bits = b

variable {F}

theorem takesExactly_capacity : F.TakesExactly (· < F.capacity) where
  isSome_ofBits? b := by
    rw [Carried.ofBits?, Option.isSome_map, Pattern.ofBits?]
    split_ifs with h <;> simp [h]
  ofBits_eq_error b := by
    rw [Pattern.ofBits, Pattern.ofBits?]
    split_ifs with h <;> simp [h]
  withBits_eq_error x b := by
    rw [Pattern.withBits, Pattern.ofBits, Pattern.ofBits?]
    split_ifs with h <;> simp [h]
  bits_eq b x hx := by
    rw [Pattern.ofBits, Pattern.ofBits?] at hx
    split_ifs at hx with h
    · exact congrArg Pattern.bits (Except.ok.inj hx).symm

theorem TakesExactly.iff {p q : ℕ → Prop} (hp : F.TakesExactly p) (hq : F.TakesExactly q) (b : ℕ) :
    p b ↔ q b :=
  (hp.isSome_ofBits? b).symm.trans (hq.isSome_ofBits? b)

variable (F)

/-- The numbers that are taken are those up to the mask, which are those that the mask leaves as
they are. They are those below two to the width if the format has a sign bit, and only then; without
a sign bit one more binary digit is taken. -/
theorem takesExactly_two_pow_width_iff :
    F.TakesExactly (· ≤ F.signMask ||| F.exponentMask ||| F.mantissaMask) ∧
      F.TakesExactly (fun b => (F.signMask ||| F.exponentMask ||| F.mantissaMask) &&& b = b) ∧
      F.TakesExactly (· < 2 ^ (F.width + (!F.signBit).toNat)) ∧
      (F.TakesExactly (· < 2 ^ F.width) ↔ F.signBit = true) := by
  have htakes : F.TakesExactly (· < F.capacity) := takesExactly_capacity
  refine ⟨?_, ?_, F.capacity_eq ▸ htakes, ?_, ?_⟩
  · simpa only [← F.mask_eq_or, F.le_mask_iff] using htakes
  · simpa only [← F.mask_eq_or, F.mask_and_eq_iff] using htakes
  · intro hwidth
    rw [← capacity_eq_two_pow_width_iff]
    exact eq_of_forall_lt_iff (htakes.iff hwidth)
  · intro hs
    rwa [F.capacity_eq_two_pow_width_iff.mpr hs] at htakes

/-- A half-precision format without a sign bit has fifteen bits and takes a sixteenth. -/
theorem isSome_ofBits?_beyond_width :
    ¬∀ (F : Format) (b : ℕ), 1 ≤ F.exponentWidth → 1 ≤ F.mantissaWidth →
      ((Carried.ofBits? F b).isSome = true ↔ b < 2 ^ F.width) := by
  intro h
  have hunsigned := h { exponentWidth := 5, mantissaWidth := 10, signBit := false } 0x8000
    (by decide) (by decide)
  revert hunsigned
  decide

end Format
end HartFloat
