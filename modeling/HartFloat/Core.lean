import HartFloat.Backend.Primitives
import HartFloat.Operation
import HartFloat.Registers.File
import HartFloat.Word.Classification

/-!
# The floating-point core of a hart

A core is a register file and the state of an arithmetic backend. Every operation has a handler of
its own, which reads source registers in order, computes one word, and writes it to one register.
The register check that fails first decides how the operation fails; the registers then stay as
they were, while the backend keeps what it has done.
-/
namespace HartFloat

/-- The floating-point state of a hart. -/
structure Core (σ : Type) where
  registers : RegisterFile
  state : σ

/-- Steps on a core that may fail; a failure keeps the core that was reached. -/
abbrev CoreM (σ : Type) := ExceptT Failure (StateM (Core σ))

namespace Operation

variable {σ : Type}

/-- The smaller or the larger of two words. Of a NaN and a number the number is taken, and two NaNs
give the canonical one. -/
def pick (P : Primitives σ) (firstWhen : Ordering) (a b : Word) : StateM σ Word :=
  match Word.isNaN a, Word.isNaN b with
  | true, true => pure Word.canonicalNaN
  | true, false => pure b
  | false, true => pure a
  | false, false => do
    let order ← P.compareSignaling a b
    return if order == some firstWhen then a else b

/-- One for a relation that holds and zero for one that does not. -/
def truth (b : Bool) : Word := if b then 1 else 0

end Operation

namespace Core

variable {σ : Type}

def create (layout : Layout) (state : σ) : Except Failure (Core σ) :=
  (RegisterFile.create layout).map (⟨·, state⟩)

def read (b : Bank) (i : Nat) : CoreM σ Word := do
  ((← get).registers.read b i)

def write (b : Bank) (i : Nat) (w : Word) : CoreM σ Unit := do
  let core ← get
  let registers ← core.registers.write b i w
  set { core with registers }

def calculate {α : Type} (run : StateM σ α) : CoreM σ α := do
  let core ← get
  let (r, state) := run core.state
  set { core with state }
  return r

/-- Computes a float register from two. -/
def binary (o : Operands) (f : Word → Word → StateM σ Word) : CoreM σ Unit := do
  let a ← read .float o.rs1
  let b ← read .float o.rs2
  let r ← calculate (f a b)
  write .float o.rd r

/-- Computes a float register from three. -/
def ternary (o : Operands) (f : Word → Word → Word → StateM σ Word) : CoreM σ Unit := do
  let a ← read .float o.rs1
  let b ← read .float o.rs2
  let c ← read .float o.rs3
  let r ← calculate (f a b c)
  write .float o.rd r

/-- Puts the bits of a float register together from those of two. -/
def bitwise (o : Operands) (f : Word → Word → Word) : CoreM σ Unit := do
  let a ← read .float o.rs1
  let b ← read .float o.rs2
  write .float o.rd (f a b)

/-- Tells in the return register whether two float registers are related. -/
def relate (o : Operands) (f : Word → Word → StateM σ Bool) : CoreM σ Unit := do
  let a ← read .float o.rs1
  let b ← read .float o.rs2
  let r ← calculate (f a b)
  write .integer returnRegister (Operation.truth r)

def minMax (P : Primitives σ) (o : Operands) (firstWhen : Ordering) : CoreM σ Unit := do
  let a ← read .float o.rs1
  let b ← read .float o.rs2
  let r ← calculate (Operation.pick P firstWhen a b)
  write .float o.rd r

/-- Runs the handler of an operation. The product of a fused operation is rounded before the third
source is added or subtracted. -/
def execute (P : Primitives σ) (op : Operation) (o : Operands) : CoreM σ Unit :=
  match op with
  | .fadd => binary o P.add
  | .fsub => binary o P.sub
  | .fmul => binary o P.mul
  | .fdiv => binary o P.div
  | .fsqrt => do
    let a ← read .float o.rs1
    let r ← calculate (P.sqrtApprox a)
    write .float o.rd r
  | .fmin => minMax P o .lt
  | .fmax => minMax P o .gt
  | .fmadd => ternary o fun a b c => do P.add (← P.mul a b) c
  | .fmsub => ternary o fun a b c => do P.sub (← P.mul a b) c
  | .fnmadd => ternary o fun a b c => do P.sub (Word.negate (← P.mul a b)) c
  | .fnmsub => ternary o fun a b c => do P.add (Word.negate (← P.mul a b)) c
  | .fsgnj => bitwise o fun a b => (a &&& Word.magnitudeMask) ||| (b &&& Word.signMask)
  | .fsgnjn => bitwise o fun a b => (a &&& Word.magnitudeMask) ||| (~~~b &&& Word.signMask)
  | .fsgnjx => bitwise o fun a b => a ^^^ (b &&& Word.signMask)
  | .feq => relate o P.isEqual
  | .flt => relate o P.isLess
  | .fle => relate o P.isLessOrEqual
  | .fcvtWS => do
    let a ← read .float o.rs1
    let r ← calculate (P.toSigned a)
    write .integer returnRegister r
  | .fcvtWuS => do
    let a ← read .float o.rs1
    let r ← calculate (P.toUnsigned a)
    write .integer returnRegister r
  | .fcvtSW => do
    let a ← read .integer o.rs1
    let r ← calculate (P.ofSigned a)
    write .float o.rd r
  | .fcvtSWu => do
    let a ← read .integer o.rs1
    let r ← calculate (P.ofUnsigned a)
    write .float o.rd r
  | .fmvXW => do
    let a ← read .float o.rs1
    write .integer returnRegister a
  | .fmvWX => do
    let a ← read .integer o.rs1
    write .float o.rd a
  | .fclass => do
    let a ← read .float o.rs1
    write .integer returnRegister (Word.classify a)

def executeIndex (P : Primitives σ) (i : Nat) (o : Operands) : CoreM σ Operation := do
  let op ← Operation.ofIndex i
  execute P op o
  return op

def reset : CoreM σ Unit := modify fun core => { core with registers := core.registers.reset }

def describe (P : Primitives σ) (core : Core σ) : String :=
  Text.record "FpuCore"
    [("memory_map", core.registers.layout.describe),
     ("primitives", Text.quoted P.name),
     ("exception_flags",
      "ExceptionFlags(" ++ toString (P.flags core.state).register ++ ")")]

end Core
end HartFloat
