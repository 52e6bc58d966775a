import HartFloat.Proofs.Elf.Parser

/-!
# Minimal executable files

A minimal executable consists of the file header, one program header, the code and, on request, a
table of section names and three section headers, the last of which names the code as the dispatch
table. The inspector gives back what was laid out, whichever sound reader it uses.
-/
namespace HartFloat.Elf

namespace Header

def identity : Bytes := [0x7f, 0x45, 0x4c, 0x46, 1, 1, 1, 0, 0, 0, 0, 0, 0, 0, 0, 0]

/-- The numbers of the file header of an executable of version one, with their widths. -/
def numbers (h : Header) : List (ℕ × ℕ) :=
  [(2, 2), (2, h.machine), (4, 1), (4, h.entry), (4, h.programOffset), (4, h.sectionOffset), (4, 0),
    (2, 52), (2, h.programEntrySize), (2, h.programCount), (2, h.sectionEntrySize),
    (2, h.sectionCount), (2, h.nameSection)]

end Header

/-- The numbers of a program header, with their widths; the physical address is the virtual one. -/
def Program.numbers (alignment : ℕ) (p : Program) : List (ℕ × ℕ) :=
  [(4, p.kind), (4, p.offset), (4, p.address), (4, p.address), (4, p.fileSize), (4, p.memorySize),
    (4, p.flags), (4, alignment)]

/-- The numbers of a section header, with their widths. -/
def Section.numbers (kind flags alignment : ℕ) (s : Section) : List (ℕ × ℕ) :=
  [(4, s.name), (4, kind), (4, flags), (4, s.address), (4, s.offset), (4, s.size), (4, s.link),
    (4, s.info), (4, alignment), (4, 0)]

namespace Narrow

variable {file : Bytes} {start : ℕ}

theorem header_eq {h : Header} (he : h.encoding = .narrow) (hfit : Fit h.numbers)
    (hnumbers : StandsAt file 16 (fields h.numbers)) : header file = h := by
  have hread := numbersFrom_fields hfit hnumbers
  simp only [Header.numbers, List.map_cons, List.map_nil, numbersFrom, List.cons.injEq] at hread
  cases h
  simp_all [header]

theorem programAt_eq {p : Program} {alignment : ℕ} (hfit : Fit (p.numbers alignment))
    (h : StandsAt file start (fields (p.numbers alignment))) : programAt file start = p := by
  have hread := numbersFrom_fields hfit h
  simp only [Program.numbers, List.map_cons, List.map_nil, numbersFrom, List.cons.injEq,
    Nat.add_assoc] at hread
  cases p
  simp_all [programAt]

theorem sectionAt_eq {s : Section} {kind flags alignment : ℕ}
    (hfit : Fit (s.numbers kind flags alignment))
    (h : StandsAt file start (fields (s.numbers kind flags alignment))) :
    sectionAt file start = s := by
  have hread := numbersFrom_fields hfit h
  simp only [Section.numbers, List.map_cons, List.map_nil, numbersFrom, List.cons.injEq,
    Nat.add_assoc] at hread
  cases s
  simp_all [sectionAt]

end Narrow

/-- What is laid out in a minimal executable. -/
structure Executable where
  machine : BitVec 16
  address : Word
  code : List Word
  hasTable : Bool

namespace Executable

variable (x : Executable)

def codeOffset : ℕ := 84

def codeSize : ℕ := 4 * x.code.length

def names : Bytes :=
  [0] ++ ".shstrtab".toUTF8.toList ++ [0] ++ ".float_dispatch_table".toUTF8.toList ++ [0]

def namesOffset : ℕ := codeOffset + x.codeSize

/-- The section headers stand at the next multiple of four. -/
def sectionOffset : ℕ := (x.namesOffset + names.length + 3) / 4 * 4

def padding : Bytes := List.replicate (x.sectionOffset - (x.namesOffset + names.length)) 0

def header : Header where
  encoding := .narrow
  machine := x.machine.toNat
  entry := x.address.toNat
  programOffset := 52
  sectionOffset := if x.hasTable then x.sectionOffset else 0
  programEntrySize := 32
  programCount := 1
  sectionEntrySize := 40
  sectionCount := if x.hasTable then 3 else 0
  nameSection := if x.hasTable then 1 else 0

/-- The code is loaded to be read and executed. -/
def program : Program where
  kind := 1
  offset := codeOffset
  address := x.address.toNat
  fileSize := x.codeSize
  memorySize := x.codeSize
  flags := 5

def nullSection : Section := ⟨0, 0, 0, 0, 0, 0⟩

def namesSection : Section where
  name := 1
  address := 0
  offset := x.namesOffset
  size := names.length
  link := 0
  info := 0

/-- The dispatch table is the code, and is loaded after it. -/
def tableSection : Section where
  name := 11
  address := x.address.toNat + x.codeSize
  offset := codeOffset
  size := x.codeSize
  link := 0
  info := 0

def sectionHeaders : Bytes :=
  fields (nullSection.numbers 0 0 0) ++
    (fields (x.namesSection.numbers 3 0 1) ++ fields (x.tableSection.numbers 1 2 4))

def tableBytes : Bytes := names ++ (x.padding ++ x.sectionHeaders)

def bytes : Bytes :=
  Header.identity ++ (fields x.header.numbers ++ (fields (x.program.numbers 4) ++
    (codeBytes x.code ++ if x.hasTable then x.tableBytes else [])))

/-- Addresses and offsets fit into 32 bits. -/
structure Fits : Prop where
  address_add_codeSize_lt : x.address.toNat + x.codeSize < 2 ^ 32
  sectionOffset_lt : x.hasTable = true → x.sectionOffset < 2 ^ 32

theorem length_names : names.length = 33 := by decide +kernel

theorem length_padding : x.namesOffset + names.length + x.padding.length = x.sectionOffset := by
  rw [padding, List.length_replicate, sectionOffset]
  omega

theorem standsAt_header : StandsAt x.bytes 16 (fields x.header.numbers) :=
  (StandsAt.self x.bytes).right.left

theorem standsAt_program : StandsAt x.bytes 52 (fields (x.program.numbers 4)) := by
  have h := (StandsAt.self x.bytes).right.right.left
  rwa [length_fields] at h

theorem standsAt_code : StandsAt x.bytes codeOffset (codeBytes x.code) := by
  have h := (StandsAt.self x.bytes).right.right.right.left
  rwa [length_fields, length_fields] at h

variable {x}

theorem standsAt_table (ht : x.hasTable = true) :
    StandsAt x.bytes x.namesOffset x.tableBytes := by
  have h := (StandsAt.self x.bytes).right.right.right.right
  rwa [if_pos ht, length_fields, length_fields, length_codeBytes] at h

theorem standsAt_names (ht : x.hasTable = true) : StandsAt x.bytes x.namesOffset names :=
  (standsAt_table ht).left

theorem standsAt_sectionHeaders (ht : x.hasTable = true) :
    StandsAt x.bytes x.sectionOffset x.sectionHeaders := by
  have h := (standsAt_table ht).right.right
  rwa [length_padding] at h

theorem fit_header (h : x.Fits) : Fit x.header.numbers := by
  have hmachine := x.machine.isLt
  have haddress := x.address.isLt
  simp only [Header.numbers, header, fit_cons, fit_nil, and_true]
  cases ht : x.hasTable with
  | false =>
    simp only [Bool.false_eq_true, if_false]
    omega
  | true =>
    have hoffset := h.sectionOffset_lt ht
    simp only [if_true]
    omega

theorem fit_program (h : x.Fits) : Fit (x.program.numbers 4) := by
  have hsize := h.address_add_codeSize_lt
  simp only [Program.numbers, program, codeOffset, fit_cons, fit_nil, and_true]
  omega

theorem declared_bytes (x : Executable) : Narrow.Declared x.bytes where
  length_le := (Nat.le_add_right _ _).trans x.standsAt_program.le_length
  mark_eq := rfl

theorem header_bytes (h : x.Fits) : Narrow.header x.bytes = x.header :=
  Narrow.header_eq rfl (fit_header h) x.standsAt_header

theorem programTable_bytes (h : x.Fits) : Narrow.ProgramTable x.bytes := by
  have hend := x.standsAt_program.le_length
  rw [length_fields] at hend
  unfold Narrow.ProgramTable Narrow.programCount
  rw [header_bytes h]
  exact .inr ⟨nofun, rfl, hend⟩

theorem programs_bytes (h : x.Fits) : Narrow.programs x.bytes = [x.program] := by
  have hcount : Narrow.programCount x.bytes = 1 := by
    rw [Narrow.programCount, header_bytes h]
    rfl
  have hprogram : Narrow.programHeader x.bytes 0 = x.program := by
    rw [Narrow.programHeader, header_bytes h]
    exact Narrow.programAt_eq (fit_program h) x.standsAt_program
  rw [Narrow.programs, hcount, List.range_one, List.map_singleton, hprogram]

def sections (x : Executable) : List Section := [nullSection, x.namesSection, x.tableSection]

theorem sectionOffset_pos (x : Executable) : 0 < x.sectionOffset := by
  have hnames := length_names
  unfold sectionOffset
  omega

theorem fit_sections (h : x.Fits) (ht : x.hasTable = true) :
    Fit (nullSection.numbers 0 0 0) ∧ Fit (x.namesSection.numbers 3 0 1) ∧
      Fit (x.tableSection.numbers 1 2 4) := by
  have hsize := h.address_add_codeSize_lt
  have hoffset := h.sectionOffset_lt ht
  have hnames := length_names
  have hpadding := x.length_padding
  simp only [Section.numbers, nullSection, namesSection, tableSection, codeOffset, fit_cons,
    fit_nil, and_true]
  omega

theorem sectionCount_bytes (h : x.Fits) (ht : x.hasTable = true) :
    Narrow.sectionCount x.bytes = 3 := by
  rw [Narrow.sectionCount, header_bytes h]
  simp [header, ht]

theorem length_sectionHeaders (x : Executable) : x.sectionHeaders.length = 120 := by
  simp only [sectionHeaders, List.length_append, length_fields]
  rfl

theorem sectionTable_bytes (h : x.Fits) : Narrow.SectionTable x.bytes := by
  unfold Narrow.SectionTable
  rw [header_bytes h]
  cases ht : x.hasTable with
  | false => exact .inl (by simp [header, ht])
  | true =>
    have hend := (standsAt_sectionHeaders ht).le_length
    rw [length_sectionHeaders] at hend
    rw [sectionCount_bytes h ht]
    exact .inr ⟨by simp [header, ht], rfl, by simpa [header, ht] using hend⟩

theorem sections_bytes (h : x.Fits) (ht : x.hasTable = true) :
    Narrow.sections x.bytes = x.sections := by
  obtain ⟨hfitNull, hfitNames, hfitTable⟩ := fit_sections h ht
  have hstands := standsAt_sectionHeaders ht
  have hoffset : (Narrow.header x.bytes).sectionOffset = x.sectionOffset := by
    rw [header_bytes h]
    simp [header, ht]
  have hnull : Narrow.sectionHeader x.bytes 0 = nullSection := by
    rw [Narrow.sectionHeader, hoffset]
    exact Narrow.sectionAt_eq hfitNull hstands.left
  have hnames : Narrow.sectionHeader x.bytes 1 = x.namesSection := by
    have hplace := hstands.right.left
    rw [length_fields] at hplace
    rw [Narrow.sectionHeader, hoffset]
    exact Narrow.sectionAt_eq hfitNames hplace
  have htable : Narrow.sectionHeader x.bytes 2 = x.tableSection := by
    have hplace := hstands.right.right
    rw [length_fields, length_fields] at hplace
    rw [Narrow.sectionHeader, hoffset]
    exact Narrow.sectionAt_eq hfitTable hplace
  simp [Narrow.sections, sectionCount_bytes h ht, List.range_succ, hnull, hnames, htable, sections]

theorem isNames_bytes (h : x.Fits) (ht : x.hasTable = true) : Narrow.IsNames x.bytes names := by
  have hsecond : Narrow.sectionHeader x.bytes 1 = x.namesSection := by
    have hget : (Narrow.sections x.bytes)[1]? = some x.namesSection := by
      rw [sections_bytes h ht]
      rfl
    exact (Narrow.getElem?_sections.mp hget).2
  refine ⟨1, ?_, ?_, ?_, ?_⟩
  · have hpos := x.sectionOffset_pos.ne'
    rw [Narrow.namesNumber, header_bytes h]
    simp [header, ht, hpos, Header.extendedSection]
  · rw [sectionCount_bytes h ht]
    decide
  · rw [hsecond]
    exact standsAt_names ht
  · rw [hsecond]
    rfl

theorem find?_sections (x : Executable) :
    (x.sections.find? fun t => Narrow.HoldsName names t.name Image.tableName.toUTF8.toList) =
      some x.tableSection := by
  have hnull : ¬Narrow.HoldsName names 0 Image.tableName.toUTF8.toList := by decide +kernel
  have hnames : ¬Narrow.HoldsName names 1 Image.tableName.toUTF8.toList := by decide +kernel
  have htable : Narrow.HoldsName names 11 Image.tableName.toUTF8.toList := by decide +kernel
  generalize Image.tableName.toUTF8.toList = name at hnull hnames htable ⊢
  simp [sections, nullSection, namesSection, tableSection, hnull, hnames, htable]

theorem locates_bytes (h : x.Fits) :
    Narrow.Locates x.bytes Image.tableName (if x.hasTable then some x.tableSection else none) := by
  cases ht : x.hasTable with
  | false =>
    refine .inl ⟨?_, rfl⟩
    rw [Narrow.namesNumber, header_bytes h]
    simp [header, ht]
  | true =>
    refine .inr ⟨names, isNames_bytes h ht, ?_⟩
    rw [sections_bytes h ht, find?_sections]
    rfl

/-- The image that the file was laid out for. -/
def image (x : Executable) : Image where
  entry := x.address
  segments := [⟨x.address, x.codeSize, codeBytes x.code⟩]
  table :=
    if x.hasTable then some ⟨x.address + BitVec.ofNat 32 x.codeSize, codeOffset, x.codeSize⟩
    else none

theorem words_image (x : Executable) : x.image.words = x.code := by
  apply List.ext_getElem
  · simp [Image.words, image, Segment.words, wordsOf_codeBytes]
  · intro k hk hk'
    simp [Image.words, image, Segment.words, wordsOf_codeBytes]

theorem segment?_program {f : ObjectFile} (hf : Narrow.Describes x.bytes f) :
    f.segment? x.program = some ⟨x.address, x.codeSize, codeBytes x.code⟩ := by
  have hdata : f.segmentData x.program = some (codeBytes x.code) :=
    (hf.segmentData_eq_some_iff _ _).mpr ⟨x.standsAt_code, length_codeBytes x.code⟩
  rw [ObjectFile.segment?, hdata, Option.map_some]
  simp [program]

theorem asTable_tableSection (x : Executable) :
    (if x.hasTable then some x.tableSection else none).map (·.asTable) = x.image.table := by
  cases ht : x.hasTable with
  | false => simp [image, ht]
  | true => simp [image, ht, Section.asTable, tableSection, BitVec.ofNat_add]

/-- A file that is laid out for the machine is read back as the image that was laid out, whose words
are those of the code. A file for another machine is refused. -/
theorem ofBytes_bytes {R : Reader} (hR : R.IsSound) (h : x.Fits) :
    Image.ofBytes R x.bytes =
        (if x.machine.toNat = machineNumber then .ok x.image
          else .error (.otherMachine x.machine.toNat)) ∧
      x.image.words = x.code := by
  refine ⟨?_, x.words_image⟩
  obtain ⟨f, hread⟩ := (hR.exists_iff _ x.declared_bytes).mpr
    ⟨sectionTable_bytes h, programTable_bytes h⟩
  have hf := hR.describes _ f x.declared_bytes hread
  have hheader : f.header = x.header := hf.header_eq.trans (header_bytes h)
  have hprograms : f.programs = some [x.program] := by
    rw [hf.programs_eq, header_bytes h, programs_bytes h]
    rfl
  have htable := (hf.sectionNamed_eq_some_iff _ _).mpr (locates_bytes h)
  have hexecutable : x.program.isExecutable = true := by
    simp [Program.isExecutable, program, Nat.testBit]
  have hfilter : [x.program].filter (·.isExecutable) = [x.program] := by simp [hexecutable]
  have hmachine : x.header.machine = x.machine.toNat := rfl
  simp only [Image.ofBytes, hread, Image.require, hheader, hprograms, Option.getD_some, hfilter,
    List.mapM_cons, List.mapM_nil, segment?_program hf, htable, asTable_tableSection, bind,
    Except.bind, pure, Except.pure]
  rw [hmachine]
  by_cases hm : x.machine.toNat = machineNumber
  · rw [if_pos hm, if_neg (not_not.mpr hm)]
    simp [Encoding.narrow, header, image]
  · rw [if_neg hm, if_pos hm]
    rfl

/-- A program of one addition, with a table. -/
theorem ofBytes_bytes_one_word :
    let x : Executable := ⟨0xf3, 0x80000000, [0x003100d3], true⟩
    Reader.IsSound parse ∧ x.Fits ∧
      Image.ofBytes parse x.bytes =
        .ok ⟨0x80000000, [⟨0x80000000, 4, [0xd3, 0x00, 0x31, 0x00]⟩], some ⟨0x80000004, 84, 4⟩⟩ ∧
      x.image.words = [0x003100d3] := by
  intro x
  have h : x.Fits := ⟨by decide, fun _ => by decide +kernel⟩
  obtain ⟨hread, hwords⟩ := ofBytes_bytes isSound_parse h
  exact ⟨isSound_parse, h, hread.trans rfl, hwords⟩

end Executable
end HartFloat.Elf
