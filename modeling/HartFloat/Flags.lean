/-!
# Exception flags

The five exceptions of binary floating-point arithmetic. A set of raised exceptions is written in
two numberings, the arithmetic's own and the one of the control and status register, and as the
text of the register's short names.
-/
namespace HartFloat

@[ext] structure Flags where
  invalid : Bool
  divisionByZero : Bool
  overflow : Bool
  underflow : Bool
  inexact : Bool
  deriving DecidableEq

namespace Flags

instance : EmptyCollection Flags := ⟨⟨false, false, false, false, false⟩⟩

instance : Inhabited Flags := ⟨∅⟩

instance : Union Flags where
  union a b :=
    { invalid := a.invalid || b.invalid
      divisionByZero := a.divisionByZero || b.divisionByZero
      overflow := a.overflow || b.overflow
      underflow := a.underflow || b.underflow
      inexact := a.inexact || b.inexact }

def nv : Flags := { (∅ : Flags) with invalid := true }

def dz : Flags := { (∅ : Flags) with divisionByZero := true }

def of : Flags := { (∅ : Flags) with overflow := true }

def uf : Flags := { (∅ : Flags) with underflow := true }

def nx : Flags := { (∅ : Flags) with inexact := true }

def when (c : Bool) (f : Flags) : Flags := if c then f else ∅

/-- Whether every exception of the second set is in the first. -/
def contains (a b : Flags) : Bool := decide (a ∪ b = a)

/-- The exceptions from invalid operation to inexact. -/
def toList (f : Flags) : List Bool :=
  [f.invalid, f.divisionByZero, f.overflow, f.underflow, f.inexact]

/-- The number whose binary digits, least first, are the list. -/
def number : List Bool → Nat
  | [] => 0
  | b :: bs => b.toNat + 2 * number bs

/-- The arithmetic's numbering: invalid operation is the lowest digit. -/
def status (f : Flags) : Nat := number f.toList

def ofStatus (n : Nat) : Flags :=
  ⟨n.testBit 0, n.testBit 1, n.testBit 2, n.testBit 3, n.testBit 4⟩

/-- The register's numbering: inexact is the lowest digit. -/
def register (f : Flags) : Nat := number f.toList.reverse

def shortNames : List String := ["NV", "DZ", "OF", "UF", "NX"]

def ofShortName? (s : String) : Option Flags :=
  (shortNames.zip [nv, dz, of, uf, nx]).lookup s

/-- The short names of the raised exceptions, joined by bars; a dash when there are none. -/
def text (f : Flags) : String :=
  match (shortNames.zip f.toList).filter (·.2) with
  | [] => "-"
  | raised => "|".intercalate (raised.map (·.1))

@[simp] theorem empty_union (f : Flags) : ∅ ∪ f = f := by
  cases f; rfl

@[simp] theorem union_empty (f : Flags) : f ∪ ∅ = f := by
  ext <;> exact Bool.or_false _

@[simp] theorem union_self (f : Flags) : f ∪ f = f := by
  ext <;> exact Bool.or_self _

theorem union_comm (f g : Flags) : f ∪ g = g ∪ f := by
  ext <;> exact Bool.or_comm _ _

theorem union_assoc (f g h : Flags) : f ∪ g ∪ h = f ∪ (g ∪ h) := by
  ext <;> exact Bool.or_assoc _ _ _

@[simp] theorem ofStatus_status (f : Flags) : ofStatus f.status = f := by
  rcases f with ⟨a, b, c, d, e⟩
  revert a b c d e
  decide

end Flags
end HartFloat
