import HartFloat.Word

/-!
# Memory windows

A window is a stretch of bytes in the address space. Words are loaded from it and stored to it at
addresses that are multiples of four, with the least significant byte at the lowest address. The
base of a window may be any address.
-/
namespace HartFloat

/-- Why an access to a window fails. -/
inductive AccessError
  | unaligned (address : Word)
  | outOfRange (address base : Word) (size : Nat)
  deriving DecidableEq

namespace AccessError

def message : AccessError → String
  | unaligned a => "Unaligned Word access at " ++ a.hex
  | outOfRange a base size =>
    "Out-of-range Word access at " ++ a.hex ++ " (region=" ++ base.hex ++ ", " ++ toString size
      ++ " bytes)"

end AccessError

namespace Word

/-- A byte of a word; the least significant one has the number zero. -/
def byte (w : Word) (j : Nat) : BitVec 8 := w.extractLsb' (8 * j) 8

/-- The word of four bytes, the least significant one first. -/
def ofBytes (b₀ b₁ b₂ b₃ : BitVec 8) : Word := b₃ ++ b₂ ++ b₁ ++ b₀

end Word

/-- A window of `size` bytes from the address `base` on. -/
structure Window where
  base : Word
  size : Nat
  data : Vector (BitVec 8) size

namespace Window

def empty (size : Nat) (base : Word) : Window := ⟨base, size, Vector.replicate _ 0⟩

/-- Whether the byte at the address belongs to the window. -/
def contains (w : Window) (address : Word) : Bool :=
  decide (w.base.toNat ≤ address.toNat ∧ address.toNat - w.base.toNat < w.size)

/-- Whether the four bytes from the address on belong to the window. -/
def Covers (w : Window) (address : Word) : Prop :=
  w.base.toNat ≤ address.toNat ∧ address.toNat - w.base.toNat + 4 ≤ w.size

instance (w : Window) (address : Word) : Decidable (w.Covers address) :=
  inferInstanceAs (Decidable (_ ∧ _))

/-- The distance from the base at which the bytes of an access start. Alignment is checked before
the range. -/
def locate (w : Window) (address : Word) : Except AccessError { i : Nat // i + 4 ≤ w.size } :=
  if address.toNat % 4 ≠ 0 then .error (.unaligned address)
  else if h : w.Covers address then .ok ⟨address.toNat - w.base.toNat, h.2⟩
  else .error (.outOfRange address w.base w.size)

variable {n : Nat}

/-- The word in the four bytes from `i` on. -/
def wordAt (data : Vector (BitVec 8) n) (i : { i : Nat // i + 4 ≤ n }) : Word :=
  have := i.2
  Word.ofBytes data[i.1] data[i.1 + 1] data[i.1 + 2] data[i.1 + 3]

/-- The bytes with those from `i` on replaced by the bytes of a word. -/
def setWord (data : Vector (BitVec 8) n) (i : { i : Nat // i + 4 ≤ n }) (value : Word) :
    Vector (BitVec 8) n :=
  have := i.2
  (((data.set i.1 (value.byte 0)).set (i.1 + 1) (value.byte 1)).set (i.1 + 2) (value.byte 2)).set
    (i.1 + 3) (value.byte 3)

def load (w : Window) (address : Word) : Except AccessError Word :=
  (w.locate address).map (wordAt w.data)

def store (w : Window) (address value : Word) : Except AccessError Window :=
  (w.locate address).map fun i => { w with data := setWord w.data i value }

def clear (w : Window) : Window := empty w.size w.base

end Window
end HartFloat
