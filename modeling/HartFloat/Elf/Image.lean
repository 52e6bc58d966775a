import HartFloat.Elf.Object
import HartFloat.Instruction.Table

/-!
# Executable images

What the inspector takes from an object file for the 32-bit little-endian machine: the entry
point, the executable segments that are loaded, and the section that holds the dispatch table. An
image lists the instructions of the extension in its segments.
-/
namespace HartFloat.Elf

inductive ImageError
  | malformed
  | otherMachine (machine : Nat)
  | notNarrow
  | notLittleEndian
  | segmentData
  | sectionHeaders
  deriving DecidableEq

def machineNumber : Nat := 0xf3

def ImageError.message (e : ImageError) : String :=
  "ELF parse error: " ++ match e with
    | malformed => "Failed to parse ELF"
    | otherMachine m =>
      "Not a RISC-V ELF (machine type: " ++ Text.hexMarked m ++ ", expected "
        ++ Text.hexMarked machineNumber ++ ")"
    | notNarrow => "Only 32-bit ELF is supported"
    | notLittleEndian => "Only little-endian ELF is supported"
    | segmentData => "Failed to read segment data"
    | sectionHeaders => "Failed to read section headers"

structure Segment where
  address : Word
  memorySize : Nat
  data : Bytes

structure TableSection where
  address : Word
  offset : Nat
  size : Nat
  deriving DecidableEq

/-- The words of a list of bytes, the least significant byte first; bytes at the end that make no
full word are left out. -/
def wordsOf : Bytes → List Word
  | b₀ :: b₁ :: b₂ :: b₃ :: rest =>
    BitVec.ofNat 32 (littleNumber [b₀, b₁, b₂, b₃]) :: wordsOf rest
  | _ => []

namespace Segment

def words (s : Segment) : List (Word × Word) :=
  (wordsOf s.data).mapIdx fun i w => (s.address + BitVec.ofNat 32 (4 * i), w)

end Segment

structure Image where
  entry : Word
  segments : List Segment
  table : Option TableSection

/-- An instruction of the extension and its address. -/
structure Site where
  address : Word
  decoded : Decoded

def Site.text (s : Site) : String :=
  s.address.hex ++ ": " ++ Text.hex s.decoded.raw.toNat 8 ++ "  " ++ s.decoded.text

namespace Program

/-- Whether the header describes bytes that are loaded and may be executed. -/
def isExecutable (p : Program) : Bool := p.kind == 1 && p.flags.testBit 0

end Program

def ObjectFile.segment? (f : ObjectFile) (p : Program) : Option Segment :=
  (f.segmentData p).map fun data => ⟨BitVec.ofNat 32 p.address, p.memorySize, data⟩

def Section.asTable (s : Section) : TableSection := ⟨BitVec.ofNat 32 s.address, s.offset, s.size⟩

namespace Image

/-- The name of the section that holds the dispatch table. -/
def tableName : String := ".float_dispatch_table"

def require {α : Type} (e : ImageError) : Option α → Except ImageError α
  | some a => .ok a
  | none => .error e

/-- Inspects a file. It is read first; then the machine, the width and the byte order are checked,
in this order. -/
def ofBytes (R : Reader) (file : Bytes) : Except ImageError Image := do
  let f ← require .malformed (R file)
  if f.header.machine ≠ machineNumber then throw (.otherMachine f.header.machine)
  if f.header.encoding.wide then throw .notNarrow
  if f.header.encoding.littleEndian = false then throw .notLittleEndian
  let segments ← ((f.programs.getD []).filter (·.isExecutable)).mapM fun p =>
    require .segmentData (f.segment? p)
  let table ← require .sectionHeaders (f.sectionNamed tableName)
  return ⟨BitVec.ofNat 32 f.header.entry, segments, table.map (·.asTable)⟩

def words (i : Image) : List Word := i.segments.flatMap fun s => s.words.map (·.2)

def sites (i : Image) : List Site :=
  (i.segments.flatMap (·.words)).filterMap fun w => (Instruction.decode w.2).map (⟨w.1, ·⟩)

end Image
end HartFloat.Elf
