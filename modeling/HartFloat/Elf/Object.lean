/-!
# Object files

What a reader of object files finds in a file: the numbers of its headers, the bytes of a segment
and the section of a name. The inspector works with any reader.
-/
namespace HartFloat.Elf

abbrev Bytes := List UInt8

/-- The number whose bytes are given, the least significant first. -/
def littleNumber : Bytes → Nat
  | [] => 0
  | b :: bs => b.toNat + 256 * littleNumber bs

structure Encoding where
  wide : Bool
  littleEndian : Bool
  deriving DecidableEq

/-- What is used of the file header. -/
structure Header where
  encoding : Encoding
  machine : Nat
  entry : Nat
  programOffset : Nat
  sectionOffset : Nat
  programEntrySize : Nat
  programCount : Nat
  sectionEntrySize : Nat
  sectionCount : Nat
  nameSection : Nat

namespace Header

/-- The count of program headers that stands for one too large for the file header. -/
def extendedCount : Nat := 0xffff

/-- The section number that says that the number is kept in the first section header. -/
def extendedSection : Nat := 0xffff

end Header

/-- What is used of a section header. -/
structure Section where
  name : Nat
  address : Nat
  offset : Nat
  size : Nat
  link : Nat
  info : Nat

/-- What is used of a program header. -/
structure Program where
  kind : Nat
  offset : Nat
  address : Nat
  fileSize : Nat
  memorySize : Nat
  flags : Nat

/-- A file as a reader presents it. There may be no table of program headers, the bytes of a segment
may be missing, and the section headers or the table of their names may be unreadable. -/
structure ObjectFile where
  header : Header
  programs : Option (List Program)
  segmentData : Program → Option Bytes
  sectionNamed : String → Option (Option Section)

/-- Reads object files; a file may be malformed. -/
abbrev Reader := Bytes → Option ObjectFile

end HartFloat.Elf
