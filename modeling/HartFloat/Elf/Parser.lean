import HartFloat.Elf.Object

/-!
# Parsing an object file

A reader that takes the headers from the places where they stand. A file says in its first bytes how
wide its addresses are and in which order the bytes of a number stand. A table of headers is
accepted when its entries have the size that the encoding prescribes and it lies inside the file.
-/
namespace HartFloat.Elf

/-- The bytes from `start` on, if that many are in the file. An empty stretch may lie at the end of
the file but not beyond it. -/
def slice? (file : Bytes) (start length : Nat) : Option Bytes :=
  if start + length ≤ file.length then some ((file.drop start).take length) else none

namespace Encoding

def address (e : Encoding) : Nat := if e.wide then 8 else 4

def number (e : Encoding) (bs : Bytes) : Nat :=
  littleNumber (if e.littleEndian then bs else bs.reverse)

def numbers (e : Encoding) : (widths : List Nat) → Bytes → List Nat
  | [], _ => []
  | w :: ws, bs => e.number (bs.take w) :: e.numbers ws (bs.drop w)

/-- The numbers of the given widths in a stretch of the file. -/
def numbersAt? (e : Encoding) (file : Bytes) (start length : Nat) (widths : List Nat) :
    Option (List Nat) :=
  (slice? file start length).map (e.numbers widths)

end Encoding

namespace Section

def widths (e : Encoding) : List Nat :=
  let a := e.address
  [4, 4, a, a, a, a, 4, 4, a, a]

def entrySize (e : Encoding) : Nat := if e.wide then 64 else 40

def read? (e : Encoding) (file : Bytes) (start : Nat) : Option Section := do
  match ← e.numbersAt? file start (entrySize e) (widths e) with
  | [name, _, _, address, offset, size, link, info, _, _] =>
    some { name, address, offset, size, link, info }
  | _ => none

end Section

namespace Program

/-- The flags follow the kind in wide files, and the sizes in others. -/
def widths (e : Encoding) : List Nat :=
  if e.wide then [4, 4, 8, 8, 8, 8, 8, 8] else [4, 4, 4, 4, 4, 4, 4, 4]

def entrySize (e : Encoding) : Nat := if e.wide then 56 else 32

def read? (e : Encoding) (file : Bytes) (start : Nat) : Option Program := do
  let numbers ← e.numbersAt? file start (entrySize e) (widths e)
  match e.wide, numbers with
  | true, [kind, flags, offset, address, _, fileSize, memorySize, _] =>
    some { kind, offset, address, fileSize, memorySize, flags }
  | false, [kind, offset, address, _, fileSize, memorySize, flags, _] =>
    some { kind, offset, address, fileSize, memorySize, flags }
  | _, _ => none

end Program

/-- The entries of a table; nothing if their number cannot be told, if they do not have the size
that they should have, or if the table does not lie inside the file. -/
def entries? {α : Type} (file : Bytes) (read : Nat → Option α) (size start entrySize : Nat)
    (count : Option Nat) : Option (List α) := do
  let count ← count
  guard (entrySize = size)
  let _ ← slice? file start (entrySize * count)
  (List.range count).mapM fun k => read (start + entrySize * k)

namespace Header

def magic : Bytes := [0x7f, 0x45, 0x4c, 0x46]

/-- The number of bytes that identify the file and its encoding. -/
def identitySize : Nat := 16

def encodingOf? (identity : Bytes) : Option Encoding :=
  match identity.take 7 with
  | [m₀, m₁, m₂, m₃, width, order, version] =>
    if [m₀, m₁, m₂, m₃] = magic ∧ version = 1 ∧ (width = 1 ∨ width = 2) ∧ (order = 1 ∨ order = 2)
    then some ⟨width = 2, order = 1⟩
    else none
  | _ => none

def widths (e : Encoding) : List Nat :=
  let a := e.address
  [2, 2, 4, a, a, a, 4, 2, 2, 2, 2, 2, 2]

def restSize (e : Encoding) : Nat := if e.wide then 48 else 36

def read? (file : Bytes) : Option Header := do
  let e ← encodingOf? (← slice? file 0 identitySize)
  match ← e.numbersAt? file identitySize (restSize e) (widths e) with
  | [_, machine, _, entry, programOffset, sectionOffset, _, _, programEntrySize, programCount,
      sectionEntrySize, sectionCount, nameSection] =>
    some { encoding := e, machine, entry, programOffset, sectionOffset, programEntrySize,
           programCount, sectionEntrySize, sectionCount, nameSection }
  | _ => none

/-- The section headers, if the file has a table of them. A count of zero means that the first entry
holds the count. -/
def sections? (h : Header) (file : Bytes) : Option (Option (List Section)) :=
  if h.sectionOffset = 0 then some none
  else
    let read := Section.read? h.encoding file
    (entries? file read (Section.entrySize h.encoding) h.sectionOffset h.sectionEntrySize
      (if h.sectionCount = 0 then (read h.sectionOffset).map (·.size)
        else some h.sectionCount)).map some

/-- The program headers, if the file has a table of them. The count may be kept in the first section
header. -/
def programs? (h : Header) (file : Bytes) : Option (Option (List Program)) :=
  if h.programOffset = 0 then some none
  else
    (entries? file (Program.read? h.encoding file) (Program.entrySize h.encoding) h.programOffset
      h.programEntrySize
      (if h.programCount = extendedCount then
        (Section.read? h.encoding file h.sectionOffset).map (·.info)
      else some h.programCount)).map some

/-- The bytes of a name in a table of names, up to its end mark. -/
def nameAt? (names : Bytes) (start : Nat) : Option Bytes :=
  let rest := names.drop start
  if rest.contains 0 then some (rest.takeWhile (· != 0)) else none

/-- The number of the section that holds the names of the sections. -/
def namesNumber? (h : Header) (sections : List Section) : Option Nat :=
  if h.nameSection = extendedSection then sections.head?.map (·.link) else some h.nameSection

def names? (h : Header) (file : Bytes) (sections : List Section) : Option Bytes := do
  let s ← sections[← h.namesNumber? sections]?
  slice? file s.offset s.size

/-- The first section of a name. A section whose name cannot be read is passed over, but the table
of names itself has to be readable. -/
def sectionNamed? (h : Header) (file : Bytes) (sections : Option (List Section)) (name : String) :
    Option (Option Section) :=
  match sections with
  | none => some none
  | some sections =>
    if h.nameSection = 0 then some none
    else (names? h file sections).map fun names =>
      sections.find? fun s => nameAt? names s.name == some name.toUTF8.toList

end Header

/-- Reads the file header and the two tables of headers. -/
def parse : Reader := fun file => do
  let h ← Header.read? file
  let sections ← h.sections? file
  let programs ← h.programs? file
  return {
    header := h
    programs
    segmentData p := slice? file p.offset p.fileSize
    sectionNamed := h.sectionNamed? file sections }

end HartFloat.Elf
