import HartFloat.Flags
import HartFloat.Word

/-!
# Arithmetic backends

The operations reach single-precision arithmetic only through a backend: a record of primitives
over a state of the backend's own. Comparisons yield nothing when the operands are unordered, and
conversions to integers truncate and saturate. A backend may define the three derived comparisons
itself; as a rule they come from the two primitive ones.
-/
namespace HartFloat

/-- Single-precision arithmetic over a state. Signed integers are given as words in two's
complement. -/
structure Primitives (σ : Type) where
  name : String
  add : Word → Word → StateM σ Word
  sub : Word → Word → StateM σ Word
  mul : Word → Word → StateM σ Word
  div : Word → Word → StateM σ Word
  compareQuiet : Word → Word → StateM σ (Option Ordering)
  compareSignaling : Word → Word → StateM σ (Option Ordering)
  toSigned : Word → StateM σ Word
  toUnsigned : Word → StateM σ Word
  ofSigned : Word → StateM σ Word
  ofUnsigned : Word → StateM σ Word
  flags : σ → Flags := fun _ => ∅
  isEqual : Word → Word → StateM σ Bool := fun a b => do
    return (← compareQuiet a b) == some .eq
  isLess : Word → Word → StateM σ Bool := fun a b => do
    return (← compareSignaling a b) == some .lt
  isLessOrEqual : Word → Word → StateM σ Bool := fun a b => do
    let order ← compareSignaling a b
    return order == some .lt || order == some .eq

namespace Primitives

variable {σ : Type}

def half : Word := 0x3f000000

/-- One step of the square root iteration: the mean of the guess and the quotient by it. -/
def refineRoot (P : Primitives σ) (x guess : Word) : StateM σ Word := do
  let quotient ← P.div x guess
  let sum ← P.add guess quotient
  P.mul sum half

def iterateRoot (P : Primitives σ) (x : Word) : Nat → Word → StateM σ Word
  | 0, guess => pure guess
  | n + 1, guess => do P.iterateRoot x n (← P.refineRoot x guess)

def rootSteps : Nat := 10

/-- The approximate square root. Zeros and NaNs are returned as they are, and negative numbers give
the quotient of zero by zero. -/
def sqrtApprox (P : Primitives σ) (x : Word) : StateM σ Word :=
  if Word.isZero x || Word.isNaN x then pure x
  else if Word.isNegative x then P.div 0 0
  else P.iterateRoot x rootSteps x

end Primitives
end HartFloat
