import HartFloat.Registers.Window

/-!
# Where the registers lie in memory

The two banks of 32 registers are mapped to two windows of the address space. A layout gives for
each bank the address of its first register and the distance between neighbours. It is acceptable
when both windows fit into the address space and do not overlap.
-/
namespace HartFloat

inductive Bank
  | float
  | integer
  deriving DecidableEq

def Bank.name : Bank → String
  | float => "float"
  | integer => "integer"

def registerCount : Nat := 32

/-- Why a layout is not acceptable. -/
inductive LayoutError
  | strideNotMultiple (bank : Bank) (stride : Word)
  | strideTooLarge (bank : Bank) (stride : Word)
  | exceedsAddressSpace
  | overlap (floatStart floatEnd integerStart integerEnd : Nat)
  deriving DecidableEq

structure Layout where
  floatBase : Word := 0xc0000000
  floatStride : Word := 4
  integerBase : Word := 0xa0000000
  integerStride : Word := 16
  deriving DecidableEq

namespace Layout

instance : Inhabited Layout := ⟨{}⟩

def addressSpace : Nat := 0x100000000

def maxStride : Nat := 4096

def base (l : Layout) : Bank → Word
  | .float => l.floatBase
  | .integer => l.integerBase

def stride (l : Layout) : Bank → Word
  | .float => l.floatStride
  | .integer => l.integerStride

/-- The address of a register; the sum wraps around at the end of the address space. -/
def address (l : Layout) (b : Bank) (i : Nat) : Word := l.base b + BitVec.ofNat 32 i * l.stride b

/-- The number of bytes from the first register to the end of the last one. -/
def windowSize (l : Layout) (b : Bank) : Nat := (registerCount - 1) * (l.stride b).toNat + 4

def windowStart (l : Layout) (b : Bank) : Nat := (l.base b).toNat

def windowEnd (l : Layout) (b : Bank) : Nat := l.windowStart b + l.windowSize b

/-- A stride is a positive multiple of four up to the maximum. -/
def checkStride (l : Layout) (b : Bank) : Except LayoutError Unit :=
  let s := (l.stride b).toNat
  if s < 4 ∨ s % 4 ≠ 0 then .error (.strideNotMultiple b (l.stride b))
  else if maxStride < s then .error (.strideTooLarge b (l.stride b))
  else .ok ()

/-- Accepts a layout, or says what is wrong with it first. -/
def validate (l : Layout) : Except LayoutError Unit := do
  l.checkStride .float
  l.checkStride .integer
  if addressSpace < l.windowEnd .float ∨ addressSpace < l.windowEnd .integer then
    throw .exceedsAddressSpace
  if l.windowStart .float < l.windowEnd .integer ∧ l.windowStart .integer < l.windowEnd .float then
    throw (.overlap (l.windowStart .float) (l.windowEnd .float) (l.windowStart .integer)
      (l.windowEnd .integer))

def describe (l : Layout) : String :=
  Text.record "MemoryMap"
    [("float_base", toString l.floatBase.toNat), ("float_stride", toString l.floatStride.toNat),
     ("int_base", toString l.integerBase.toNat), ("int_stride", toString l.integerStride.toNat)]

end Layout

namespace LayoutError

def message : LayoutError → String
  | strideNotMultiple b s =>
    b.name ++ " stride " ++ toString s.toNat ++ " must be a non-zero multiple of 4"
  | strideTooLarge b s =>
    b.name ++ " stride " ++ toString s.toNat ++ " exceeds the maximum of "
      ++ toString Layout.maxStride
  | exceedsAddressSpace => "register window exceeds the 32-bit address space"
  | overlap fs fe is ie =>
    let range (a b : Nat) := Text.hexMarked a 8 ++ ".." ++ Text.hexMarked b 9
    "float window " ++ range fs fe ++ " overlaps integer window " ++ range is ie

end LayoutError
end HartFloat
