import HartFloat.Proofs.Elf.Encoding

/-!
# The layout of a 32-bit little-endian file

Where a 32-bit little-endian file keeps the numbers of its headers, said of its bytes alone: which
places they stand at, how many headers the tables have, when a table lies inside the file, and which
section has a name. A reader is sound if of such a file it finds what stands there. Of other files
nothing is asked of it but that it does not take them for 32-bit little-endian ones.
-/
namespace HartFloat.Elf

/-- The encoding of the machine's files. -/
def Encoding.narrow : Encoding := ⟨false, true⟩

namespace Narrow

/-- The bytes that a 32-bit little-endian file of version one begins with. -/
def mark : Bytes := [0x7f, 0x45, 0x4c, 0x46, 1, 1, 1]

/-- The file begins as a 32-bit little-endian file does, and is long enough for the file header. -/
structure Declared (file : Bytes) : Prop where
  length_le : 52 ≤ file.length
  mark_eq : file.take 7 = mark

def header (file : Bytes) : Header where
  encoding := .narrow
  machine := numberAt file 18 2
  entry := numberAt file 24 4
  programOffset := numberAt file 28 4
  sectionOffset := numberAt file 32 4
  programEntrySize := numberAt file 42 2
  programCount := numberAt file 44 2
  sectionEntrySize := numberAt file 46 2
  sectionCount := numberAt file 48 2
  nameSection := numberAt file 50 2

def sectionAt (file : Bytes) (start : ℕ) : Section where
  name := numberAt file start 4
  address := numberAt file (start + 12) 4
  offset := numberAt file (start + 16) 4
  size := numberAt file (start + 20) 4
  link := numberAt file (start + 24) 4
  info := numberAt file (start + 28) 4

def programAt (file : Bytes) (start : ℕ) : Program where
  kind := numberAt file start 4
  offset := numberAt file (start + 4) 4
  address := numberAt file (start + 8) 4
  fileSize := numberAt file (start + 16) 4
  memorySize := numberAt file (start + 20) 4
  flags := numberAt file (start + 24) 4

variable (file : Bytes)

/-- The number of section headers; the first of them holds it if the file header has a zero. -/
def sectionCount : ℕ :=
  if (header file).sectionCount = 0 then (sectionAt file (header file).sectionOffset).size
  else (header file).sectionCount

/-- The number of program headers; the first section header holds it if the file header cannot. -/
def programCount : ℕ :=
  if (header file).programOffset = 0 then 0
  else if (header file).programCount = Header.extendedCount then
    (sectionAt file (header file).sectionOffset).info
  else (header file).programCount

def sectionHeader (k : ℕ) : Section := sectionAt file ((header file).sectionOffset + 40 * k)

def programHeader (k : ℕ) : Program := programAt file ((header file).programOffset + 32 * k)

def sections : List Section := (List.range (sectionCount file)).map (sectionHeader file)

def programs : List Program := (List.range (programCount file)).map (programHeader file)

/-- There is no table of section headers, or it has entries of forty bytes and lies inside the
file. -/
def SectionTable : Prop :=
  (header file).sectionOffset = 0 ∨
    ((header file).sectionCount = 0 → (header file).sectionOffset + 40 ≤ file.length) ∧
      (header file).sectionEntrySize = 40 ∧
        (header file).sectionOffset + 40 * sectionCount file ≤ file.length

/-- There is no table of program headers, or it has entries of 32 bytes and lies inside the file. -/
def ProgramTable : Prop :=
  (header file).programOffset = 0 ∨
    ((header file).programCount = Header.extendedCount →
      (header file).sectionOffset + 40 ≤ file.length) ∧
      (header file).programEntrySize = 32 ∧
        (header file).programOffset + 32 * programCount file ≤ file.length

/-- The number of the section that holds the names of the sections, if one is given. -/
def namesNumber : Option ℕ :=
  if (header file).sectionOffset = 0 ∨ (header file).nameSection = 0 then none
  else if (header file).nameSection = Header.extendedSection then some (sectionHeader file 0).link
  else some (header file).nameSection

/-- The bytes are those of the section that holds the names. -/
def IsNames (names : Bytes) : Prop :=
  ∃ n, namesNumber file = some n ∧ n < sectionCount file ∧
    StandsAt file (sectionHeader file n).offset names ∧
      names.length = (sectionHeader file n).size

/-- The name stands in the table of names from `start` on, and an end mark follows it. -/
def HoldsName (names : Bytes) (start : ℕ) (name : Bytes) : Prop :=
  0 ∉ name ∧ name ++ [0] <+: names.drop start

instance (names : Bytes) (start : ℕ) (name : Bytes) : Decidable (HoldsName names start name) :=
  inferInstanceAs (Decidable (_ ∧ _))

/-- The first section of the name; no section has a name if the file does not say where the names
are kept. -/
def Locates (name : String) (s : Option Section) : Prop :=
  namesNumber file = none ∧ s = none ∨
    ∃ names, IsNames file names ∧
      s = (sections file).find? fun t => HoldsName names t.name name.toUTF8.toList

/-- What a reader finds in a 32-bit little-endian file is what stands there. -/
structure Describes (f : ObjectFile) : Prop where
  header_eq : f.header = header file
  programs_eq :
    f.programs = if (header file).programOffset = 0 then none else some (programs file)
  segmentData_eq_some_iff : ∀ p data,
    f.segmentData p = some data ↔ StandsAt file p.offset data ∧ data.length = p.fileSize
  sectionNamed_eq_some_iff : ∀ name s, f.sectionNamed name = some s ↔ Locates file name s

end Narrow

/-- The reader reads 32-bit little-endian files as they are laid out: those whose tables lie inside
the file and no others. -/
structure Reader.IsSound (R : Reader) : Prop where
  declared : ∀ file f, R file = some f → f.header.encoding = .narrow → Narrow.Declared file
  exists_iff : ∀ file, Narrow.Declared file →
    ((∃ f, R file = some f) ↔ Narrow.SectionTable file ∧ Narrow.ProgramTable file)
  describes : ∀ file f, Narrow.Declared file → R file = some f → Narrow.Describes file f

end HartFloat.Elf
