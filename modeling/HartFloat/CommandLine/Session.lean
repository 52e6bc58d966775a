import HartFloat.CommandLine.Operand
import HartFloat.Elf.Image
import HartFloat.Emulator
import HartFloat.Registers.Dump

/-!
# Sessions

A command runs on a fresh emulator and prints lines as it goes. It may stop with an error; what it
has printed by then stays.
-/
namespace HartFloat.CommandLine

inductive ReadError
  | notFound
  | isDirectory
  | denied
  | other (reason : String)
  deriving DecidableEq

def ReadError.message (e : ReadError) : String :=
  "IO error: " ++ match e with
    | notFound => "No such file or directory (os error 2)"
    | isDirectory => "Is a directory (os error 21)"
    | denied => "Permission denied (os error 13)"
    | other reason => reason

inductive CommandError
  | operandCount (op : Operation) (given : Nat)
  | operand (error : OperandError)
  | core (failure : Failure)
  | file (error : ReadError)
  | image (error : Elf.ImageError)
  deriving DecidableEq

def CommandError.message : CommandError → String
  | operandCount op n =>
    op.mnemonic ++ " takes " ++ toString op.sourceCount ++ " operand(s), got " ++ toString n
  | operand e => e.message
  | core e => e.message
  | file e => e.message
  | image e => e.message

/-- An emulator and what has been printed. -/
structure Console (σ : Type) where
  emulator : Emulator σ
  printed : String := ""

abbrev Session (σ : Type) := ExceptT CommandError (StateM (Console σ))

namespace Session

variable {σ : Type}

def print (s : String) : Session σ Unit := modify fun c => { c with printed := c.printed ++ s }

def printLine (s : String) : Session σ Unit := print (s ++ "\n")

def perform {α : Type} (step : EmulatorM σ α) : Session σ α := fun c =>
  let (r, emulator) := step.run c.emulator
  (r.mapError .core, { c with emulator })

def operand {α : Type} (r : Except OperandError α) : Session σ α :=
  MonadExcept.ofExcept (r.mapError .operand)

def printRegisters (asked : Bool) : Session σ Unit := do
  if asked then
    print (← perform do ((← get).core.registers.listing))

def registerName : Bank → Nat → String
  | .float, i => "f" ++ toString i
  | .integer, i => "x" ++ toString i

/-- The value of a word that was written to a bank. -/
def valueText : Bank → Word → String
  | .float, w => w.scientific
  | .integer, w => toString w.toInt

/-- A register with its word. The value follows in parentheses, that of an integer register only if
it is asked for. -/
def effect (r : Bank × Nat) (integerValues : Bool) : Session σ String := do
  let w ← perform (Emulator.onCore (Core.read r.1 r.2))
  let value := if r.1 = .float ∨ integerValues then " (" ++ valueText r.1 w ++ ")" else ""
  return registerName r.1 r.2 ++ " = " ++ w.hex ++ value

def load (b : Bank) : (i : Nat) → List String → Session σ Unit
  | _, [] => pure ()
  | i, v :: vs => do
    let w ← operand (Operand.read b v)
    perform (Emulator.onCore (Core.write b i w))
    load b (i + 1) vs

/-- The operands of an operation that is executed by itself: the sources are the registers after
the first, in order, and the destination is the first. -/
def soloOperands : Operands := { rs1 := 1, rs2 := 2, rs3 := 3 }

def exec (P : Primitives σ) (op : Operation) (values : List String) (listing : Bool) :
    Session σ Unit := do
  if values.length ≠ op.sourceCount then throw (.operandCount op values.length)
  load op.sourceBank 1 values
  perform (Emulator.onCore (Core.execute P op soloOperands))
  printLine (op.mnemonic ++ " -> " ++ (← effect (op.destination soloOperands) true))
  printLine ("flags: " ++ (P.flags (← get).emulator.core.state).text)
  printRegisters listing

def passText (w : Word) : String :=
  w.hex ++ ": "
    ++ (if Opcode.isFloat w then "load/store or reserved FP encoding" else "not an F instruction")
    ++ " (not trapped)"

/-- An emulated word, what it means and what it did. -/
def emulatedText (d : Decoded) (effect : String) : String :=
  d.raw.hex ++ ": " ++ Text.padRight 28 d.text ++ " rm=" ++ d.modeName ++ "  " ++ effect

/-- Handles one word. Words that are not instructions of the extension are not counted. -/
def decodeWord (P : Primitives σ) (s : String) : Session σ Unit := do
  let w ← operand (Operand.readInstruction s)
  match Instruction.decode w with
  | none => printLine (passText w)
  | some d => do
    perform (Emulator.emulate P d)
    printLine (emulatedText d (← effect (d.operation.destination d.operands) false))

def decode (P : Primitives σ) (words : List String) (listing : Bool) : Session σ Unit := do
  words.forM (decodeWord P)
  print (← get).emulator.statistics.text
  printRegisters listing

end Session

def imageLines (i : Elf.Image) : List String :=
  let segment (s : Elf.Segment) :=
    "segment: " ++ s.address.hex ++ " file=" ++ toString s.data.length ++ " mem="
      ++ toString s.memorySize
  let table := "dispatch table: " ++ match i.table with
    | some t =>
      t.address.hex ++ " (" ++ toString t.size ++ " bytes, offset "
        ++ Text.hexMarked t.offset ++ ")"
    | none => "not present"
  let operations := i.sites.map (·.decoded.operation)
  let counts := (Operation.all.map fun op => (op, operations.count op)).filter fun e => 0 < e.2
  ["entry: " ++ i.entry.hex] ++ i.segments.map segment ++ [table]
    ++ ["float instructions: " ++ toString i.sites.length]
    ++ i.sites.map (fun s => "  " ++ s.text)
    ++ Statistics.entryLines counts

namespace Session

variable {σ : Type}

def scan (R : Elf.Reader) (contents : Except ReadError Elf.Bytes) : Session σ Unit := do
  let file ← MonadExcept.ofExcept (contents.mapError CommandError.file)
  let image ← MonadExcept.ofExcept ((Elf.Image.ofBytes R file).mapError CommandError.image)
  (imageLines image).forM printLine

end Session
end HartFloat.CommandLine
