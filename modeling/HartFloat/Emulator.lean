import HartFloat.Core
import HartFloat.Instruction.Table

/-!
# Emulating trapped instructions

An instruction that the integer core does not know traps to the emulator: the word is decoded and
its operation executed, and the emulator counts how often each operation was emulated and how many
words were none of its instructions. An instruction that fails is not counted.
-/
namespace HartFloat

-- The sum of no numbers is the core library's zero, whichever others are in scope.
attribute [local instance (10000)] Zero.ofOfNat0

/-- How often each operation was emulated, and how many words were not instructions of the
extension. -/
structure Statistics where
  counts : Vector Nat Operation.count := Vector.replicate _ 0
  notTrapped : Nat := 0
  deriving DecidableEq

namespace Statistics

instance : Inhabited Statistics := ⟨{}⟩

def count (s : Statistics) (op : Operation) : Nat := s.counts[op.index]

def record (s : Statistics) (op : Operation) : Statistics :=
  { s with counts := s.counts.set op.index (s.count op + 1) }

def total (s : Statistics) : Nat := (Operation.all.map s.count).sum

def entries (s : Statistics) : List (Operation × Nat) :=
  (Operation.all.map fun op => (op, s.count op)).filter fun e => 0 < e.2

def entryLines (entries : List (Operation × Nat)) : List String :=
  entries.map fun e => "  " ++ Text.padRight 10 e.1.mnemonic ++ " " ++ toString e.2

/-- The statistics in lines: the totals, then the operations. -/
def text (s : Statistics) : String :=
  String.join <| (("emulated: " ++ toString s.total ++ ", not trapped: " ++ toString s.notTrapped)
    :: entryLines s.entries).map (· ++ "\n")

end Statistics

structure Emulator (σ : Type) where
  core : Core σ
  statistics : Statistics := {}

/-- Steps of an emulator that may fail; a failure keeps the emulator that was reached. -/
abbrev EmulatorM (σ : Type) := ExceptT Failure (StateM (Emulator σ))

namespace Emulator

variable {σ : Type}

def create (layout : Layout) (state : σ) : Except Failure (Emulator σ) :=
  (Core.create layout state).map ({ core := · })

def onCore {α : Type} (step : CoreM σ α) : EmulatorM σ α := fun e =>
  let (r, core) := step e.core
  (r, { e with core })

def emulate (P : Primitives σ) (d : Decoded) : EmulatorM σ Unit := do
  onCore (Core.execute P d.operation d.operands)
  modify fun e => { e with statistics := e.statistics.record d.operation }

def pass : EmulatorM σ Unit :=
  modify fun e =>
    { e with statistics := { e.statistics with notTrapped := e.statistics.notTrapped + 1 } }

def trap (P : Primitives σ) (w : Word) : EmulatorM σ (Option Operation) :=
  match Instruction.decode w with
  | none => do
    pass
    return none
  | some d => do
    emulate P d
    return some d.operation

/-- Handles words in order until one fails, and answers how many were emulated. -/
def run (P : Primitives σ) : List Word → EmulatorM σ Nat
  | [] => pure 0
  | w :: ws => do
    let emulated ← trap P w
    let rest ← run P ws
    return rest + (if emulated.isSome then 1 else 0)

def reset : EmulatorM σ Unit := do
  onCore Core.reset
  modify fun e => { e with statistics := {} }

end Emulator
end HartFloat
