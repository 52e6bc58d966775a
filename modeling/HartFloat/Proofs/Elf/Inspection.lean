import HartFloat.Proofs.Elf.Executable

/-!
# Which files are images

With a sound reader, the inspector accepts a file exactly if it is a 32-bit little-endian file for
the machine, its tables lie inside it, and so does the data of every program header that is loaded
and may be executed. The segments of the image are those headers in the order of the table. The
stretch that any other program header names is not looked at: neither where it lies nor what stands
in it.
-/
namespace HartFloat.Elf

theorem bind_eq_ok_iff {ε α β : Type} {x : Except ε α} {f : α → Except ε β} {b : β} :
    x >>= f = .ok b ↔ ∃ a, x = .ok a ∧ f a = .ok b := by
  cases x <;> simp [bind, Except.bind]

theorem bind_eq_error_iff {ε α β : Type} {x : Except ε α} {f : α → Except ε β} {e : ε} :
    x >>= f = .error e ↔ x = .error e ∨ ∃ a, x = .ok a ∧ f a = .error e := by
  cases x <;> simp [bind, Except.bind]

theorem throw_if_eq_ok_iff {ε β : Type} {c : Prop} [Decidable c] {e : ε} {rest : Unit → Except ε β}
    {b : β} : (if c then throw e >>= rest else rest ()) = .ok b ↔ ¬c ∧ rest () = .ok b := by
  split_ifs with h <;> simp [h, throw, throwThe, MonadExceptOf.throw, bind, Except.bind]

theorem mapM_eq_ok_iff {ε α β : Type} {f : α → Except ε β} {as : List α} {bs : List β} :
    as.mapM f = .ok bs ↔ List.Forall₂ (fun a b => f a = .ok b) as bs := by
  induction as generalizing bs with
  | nil => simp [pure, Except.pure, eq_comm]
  | cons a as ih =>
    rw [List.mapM_cons, bind_eq_ok_iff]
    simp only [bind_eq_ok_iff, ih, List.forall₂_cons_left_iff, pure, Except.pure, Except.ok.injEq]
    constructor
    · rintro ⟨b, hb, bs', hbs, rfl⟩
      exact ⟨b, bs', hb, hbs, rfl⟩
    · rintro ⟨b, bs', hb, hbs, rfl⟩
      exact ⟨b, hb, bs', hbs, rfl⟩

theorem exists_eq_error_of_mapM {ε α β : Type} {f : α → Except ε β} {e : ε} {as : List α}
    (h : as.mapM f = .error e) : ∃ a ∈ as, f a = .error e := by
  induction as with
  | nil => simp [pure, Except.pure] at h
  | cons a as ih =>
    rw [List.mapM_cons, bind_eq_error_iff] at h
    rcases h with h | ⟨b, -, h⟩
    · exact ⟨a, List.mem_cons_self, h⟩
    · rcases bind_eq_error_iff.mp h with h | ⟨bs, -, h⟩
      · obtain ⟨a', ha', hfa'⟩ := ih h
        exact ⟨a', List.mem_cons_of_mem a ha', hfa'⟩
      · simp [pure, Except.pure] at h

namespace Image

theorem require_eq_ok_iff {α : Type} {e : ImageError} {o : Option α} {a : α} :
    require e o = .ok a ↔ o = some a := by
  cases o <;> simp [require]

theorem require_eq_error_iff {α : Type} {e e' : ImageError} {o : Option α} :
    require e o = .error e' ↔ e = e' ∧ o = none := by
  cases o <;> simp [require]

theorem require_some_bind {α β : Type} {e : ImageError} {a : α} {f : α → Except ImageError β} :
    require e (some a) >>= f = f a := by
  rw [require]
  rfl

theorem mapM_require_eq_error_iff {α : Type} {e : ImageError} {os : List (Option α)} :
    os.mapM (require e) = .error e ↔ none ∈ os := by
  constructor
  · intro h
    obtain ⟨o, ho, hrequire⟩ := exists_eq_error_of_mapM h
    exact (require_eq_error_iff.mp hrequire).2 ▸ ho
  · intro hmem
    cases h : os.mapM (require e) with
    | error e' =>
      obtain ⟨o, -, hrequire⟩ := exists_eq_error_of_mapM h
      rw [(require_eq_error_iff.mp hrequire).1]
    | ok as =>
      obtain ⟨k, hk, hnone⟩ := List.getElem_of_mem hmem
      have hall := List.forall₂_iff_get.mp (mapM_eq_ok_iff.mp h)
      have hok := require_eq_ok_iff.mp (hall.2 k hk (hall.1 ▸ hk))
      simp [hnone] at hok

end Image

theorem exists_standsAt_iff {file : Bytes} {start length : ℕ} :
    (∃ data, StandsAt file start data ∧ data.length = length) ↔ start + length ≤ file.length := by
  constructor
  · rintro ⟨data, hstands, rfl⟩
    exact hstands.le_length
  · intro hle
    have hlength : ((file.drop start).take length).length = length := by
      rw [List.length_take, List.length_drop]
      omega
    exact ⟨(file.drop start).take length, standsAt_iff.mpr (by rw [hlength]; exact ⟨hle, rfl⟩),
      hlength⟩

theorem Program.isExecutable_iff {p : Program} :
    p.isExecutable = true ↔ p.kind = 1 ∧ p.flags % 2 = 1 := by
  simp [isExecutable, Nat.testBit_zero]

/-- The segment is what the program header describes: its data is the whole stretch that the header
names. -/
structure Program.Describes (file : Bytes) (p : Program) (s : Segment) : Prop where
  address_eq : s.address = BitVec.ofNat 32 p.address
  memorySize_eq : s.memorySize = p.memorySize
  length_eq : s.data.length = p.fileSize
  standsAt : StandsAt file p.offset s.data

namespace Narrow

theorem Describes.segment?_eq_some_iff {file : Bytes} {f : ObjectFile} (hf : Describes file f)
    {p : Program} {s : Segment} : f.segment? p = some s ↔ p.Describes file s := by
  rw [ObjectFile.segment?, Option.map_eq_some_iff]
  simp only [hf.segmentData_eq_some_iff]
  constructor
  · rintro ⟨data, ⟨hstands, hlength⟩, rfl⟩
    exact ⟨rfl, rfl, hlength, hstands⟩
  · rintro ⟨haddress, hmemory, hlength, hstands⟩
    exact ⟨s.data, ⟨hstands, hlength⟩, by rw [← haddress, ← hmemory]⟩

theorem Describes.segment?_eq_none_iff {file : Bytes} {f : ObjectFile} (hf : Describes file f)
    {p : Program} : f.segment? p = none ↔ file.length < p.offset + p.fileSize := by
  rw [ObjectFile.segment?, Option.map_eq_none_iff, Option.eq_none_iff_forall_ne_some]
  simp only [ne_eq, hf.segmentData_eq_some_iff, ← not_exists, exists_standsAt_iff, not_le]

/-- The file has a program header with the number, and it describes bytes that are loaded and may be
executed. -/
def ExecutableHeader (file : Bytes) (k : ℕ) : Prop :=
  k < programCount file ∧ (programHeader file k).kind = 1 ∧ (programHeader file k).flags % 2 = 1

/-- The segments are those of the executable headers, each once and in the order of the table. -/
def SegmentsOf (file : Bytes) (segments : List Segment) : Prop :=
  ∃ ks : List ℕ, ks.Pairwise (· < ·) ∧ (∀ k, k ∈ ks ↔ ExecutableHeader file k) ∧
    List.Forall₂ (fun k s => (programHeader file k).Describes file s) ks segments

/-- The file is a 32-bit little-endian file for the machine whose tables lie inside it, and the
image is what it describes. -/
structure IsImage (file : Bytes) (i : Image) : Prop where
  declared : Declared file
  machine : (header file).machine = 243
  sectionTable : SectionTable file
  programTable : ProgramTable file
  entry : i.entry = BitVec.ofNat 32 (header file).entry
  segments : SegmentsOf file i.segments
  table : ∃ s, Locates file Image.tableName s ∧ i.table = s.map (·.asTable)

theorem encoding_eq_narrow_iff {e : Encoding} :
    e = .narrow ↔ e.wide = false ∧ e.littleEndian = true := by
  cases e
  simp [Encoding.narrow]

theorem ofBytes_eq_ok_iff_read {R : Reader} {file : Bytes} {i : Image} :
    Image.ofBytes R file = .ok i ↔
      ∃ f s, R file = some f ∧ f.header.machine = machineNumber ∧ f.header.encoding = .narrow ∧
        List.Forall₂ (fun p s => f.segment? p = some s)
          ((f.programs.getD []).filter (·.isExecutable)) i.segments ∧
        f.sectionNamed Image.tableName = some s ∧ i.table = s.map (·.asTable) ∧
        i.entry = BitVec.ofNat 32 f.header.entry := by
  unfold Image.ofBytes
  simp only [bind_eq_ok_iff, Image.require_eq_ok_iff, throw_if_eq_ok_iff, mapM_eq_ok_iff, not_not,
    Bool.not_eq_true, Bool.not_eq_false, encoding_eq_narrow_iff]
  constructor
  · rintro ⟨f, hread, hmachine, hwide, horder, segments, hsegments, s, hs, himage⟩
    obtain rfl := Except.ok.inj himage
    exact ⟨f, s, hread, hmachine, ⟨hwide, horder⟩, hsegments, hs, rfl, rfl⟩
  · rintro ⟨f, s, hread, hmachine, ⟨hwide, horder⟩, hsegments, hs, htable, hentry⟩
    refine ⟨f, hread, hmachine, hwide, horder, i.segments, hsegments, s, hs, ?_⟩
    rw [← hentry, ← htable]
    rfl

/-- Once a 32-bit little-endian file is read, the machine may be another one, and the data or the
names may be missing. -/
theorem ofBytes_of_read {R : Reader} {file : Bytes} {f : ObjectFile} (hread : R file = some f)
    (he : f.header.encoding = .narrow) :
    Image.ofBytes R file =
      if f.header.machine = machineNumber then do
        let segments ← (((f.programs.getD []).filter (·.isExecutable)).map f.segment?).mapM
          (Image.require .segmentData)
        let s ← Image.require .sectionHeaders (f.sectionNamed Image.tableName)
        return ⟨BitVec.ofNat 32 f.header.entry, segments, s.map (·.asTable)⟩
      else .error (.otherMachine f.header.machine) := by
  have hwide : ¬f.header.encoding.wide = true := by rw [he]; exact Bool.false_ne_true
  have horder : ¬f.header.encoding.littleEndian = false := by rw [he]; exact Bool.noConfusion
  simp only [Image.ofBytes, hread, Image.require_some_bind, List.mapM_map, Function.comp_def]
  by_cases hm : f.header.machine = machineNumber
  · rw [if_neg (not_not.mpr hm), if_neg hwide, if_neg horder, if_pos hm]
  · rw [if_pos hm, if_neg hm]
    rfl

def executableNumbers (file : Bytes) : List ℕ :=
  (List.range (programCount file)).filter fun k => (programHeader file k).isExecutable

theorem mem_executableNumbers {file : Bytes} {k : ℕ} :
    k ∈ executableNumbers file ↔ ExecutableHeader file k := by
  rw [executableNumbers, List.mem_filter, List.mem_range, Program.isExecutable_iff,
    ExecutableHeader]

theorem pairwise_executableNumbers (file : Bytes) :
    (executableNumbers file).Pairwise (· < ·) :=
  List.pairwise_lt_range.filter _

theorem Describes.filter_programs {file : Bytes} {f : ObjectFile} (hf : Describes file f) :
    (f.programs.getD []).filter (·.isExecutable) =
      (executableNumbers file).map (programHeader file) := by
  have hprograms : f.programs.getD [] = programs file := by
    rw [hf.programs_eq]
    split_ifs with hoffset
    · rw [programs, programCount, if_pos hoffset, List.range_zero, List.map_nil, Option.getD_none]
    · rw [Option.getD_some]
  rw [hprograms, programs, List.filter_map, executableNumbers, Function.comp_def]

theorem Describes.segmentsOf_iff {file : Bytes} {f : ObjectFile} (hf : Describes file f)
    {segments : List Segment} :
    SegmentsOf file segments ↔
      List.Forall₂ (fun p s => f.segment? p = some s)
        ((f.programs.getD []).filter (·.isExecutable)) segments := by
  rw [hf.filter_programs, List.forall₂_map_left_iff]
  simp only [hf.segment?_eq_some_iff]
  constructor
  · rintro ⟨ks, hpairwise, hmem, hsegments⟩
    -- Numbers in increasing order are determined by which ones they are.
    have hks : ks = executableNumbers file :=
      hpairwise.eq_of_mem_iff (pairwise_executableNumbers file) fun k => by
        rw [hmem, mem_executableNumbers]
    exact hks ▸ hsegments
  · intro hsegments
    exact ⟨_, pairwise_executableNumbers file, fun k => mem_executableNumbers, hsegments⟩

/-- The bytes that an executable header describes are not all in the file. -/
def LacksData (file : Bytes) (k : ℕ) : Prop :=
  ExecutableHeader file k ∧
    file.length < (programHeader file k).offset + (programHeader file k).fileSize

section Sound

variable {R : Reader} (hR : R.IsSound) {file : Bytes}

include hR

theorem ofBytes_eq_ok_iff {i : Image} : Image.ofBytes R file = .ok i ↔ IsImage file i := by
  rw [ofBytes_eq_ok_iff_read]
  constructor
  · rintro ⟨f, s, hread, hmachine, hencoding, hsegments, hs, htable, hentry⟩
    have hd := hR.declared file f hread hencoding
    have hf := hR.describes file f hd hread
    obtain ⟨hsectionTable, hprogramTable⟩ := (hR.exists_iff file hd).mp ⟨f, hread⟩
    rw [hf.header_eq] at hmachine hentry
    exact ⟨hd, hmachine, hsectionTable, hprogramTable, hentry, hf.segmentsOf_iff.mpr hsegments,
      s, (hf.sectionNamed_eq_some_iff _ _).mp hs, htable⟩
  · intro h
    obtain ⟨f, hread⟩ := (hR.exists_iff file h.declared).mpr ⟨h.sectionTable, h.programTable⟩
    have hf := hR.describes file f h.declared hread
    obtain ⟨s, hs, htable⟩ := h.table
    refine ⟨f, s, hread, ?_, ?_, hf.segmentsOf_iff.mp h.segments,
      (hf.sectionNamed_eq_some_iff _ _).mpr hs, htable, ?_⟩
    · rw [hf.header_eq]
      exact h.machine
    · rw [hf.header_eq]
      rfl
    · rw [hf.header_eq]
      exact h.entry

/-- If the tables can be read, the inspector reports missing data exactly if some executable header
describes bytes that are not in the file. -/
theorem ofBytes_eq_segmentData_iff (hd : Declared file) (hm : (header file).machine = 243)
    (hs : SectionTable file) (hp : ProgramTable file) :
    Image.ofBytes R file = .error .segmentData ↔ ∃ k, LacksData file k := by
  obtain ⟨f, hread⟩ := (hR.exists_iff file hd).mpr ⟨hs, hp⟩
  have hf := hR.describes file f hd hread
  have hmissing : (∃ k, LacksData file k) ↔
      none ∈ ((f.programs.getD []).filter (·.isExecutable)).map f.segment? := by
    rw [hf.filter_programs, List.map_map, List.mem_map]
    exact exists_congr fun k =>
      and_congr mem_executableNumbers.symm hf.segment?_eq_none_iff.symm
  have he : f.header.encoding = .narrow := by rw [hf.header_eq]; rfl
  have hmachine : f.header.machine = machineNumber := by rw [hf.header_eq]; exact hm
  rw [ofBytes_of_read hread he, if_pos hmachine, hmissing, bind_eq_error_iff,
    Image.mapM_require_eq_error_iff, or_iff_left]
  rintro ⟨segments, -, h⟩
  rcases bind_eq_error_iff.mp h with h | ⟨table, -, h⟩
  · cases (Image.require_eq_error_iff.mp h).1
  · cases h

theorem toOption_of_not_declared (h : ¬Declared file) :
    (Image.ofBytes R file).toOption = none := by
  cases hfile : Image.ofBytes R file with
  | error e => rfl
  | ok i => exact absurd ((ofBytes_eq_ok_iff hR).mp hfile).declared h

end Sound

/-- The places whose bytes decide what the inspector returns. Of a program header that is not
executable these are the kind and the flags only. -/
inductive Examined (file : Bytes) (i : ℕ) : Prop
  | header : i < 52 → Examined file i
  | sectionHeader (k : ℕ) : k < max 1 (sectionCount file) →
    (header file).sectionOffset + 40 * k ≤ i → i < (header file).sectionOffset + 40 * k + 40 →
    Examined file i
  | names (n : ℕ) : namesNumber file = some n → n < sectionCount file →
    (sectionHeader file n).offset ≤ i →
    i < (sectionHeader file n).offset + (sectionHeader file n).size → Examined file i
  | kind (k : ℕ) : k < programCount file → (header file).programOffset + 32 * k ≤ i →
    i < (header file).programOffset + 32 * k + 4 → Examined file i
  | flags (k : ℕ) : k < programCount file → (header file).programOffset + 32 * k + 24 ≤ i →
    i < (header file).programOffset + 32 * k + 28 → Examined file i
  | executable (k : ℕ) : ExecutableHeader file k → (header file).programOffset + 32 * k ≤ i →
    i < (header file).programOffset + 32 * k + 32 → Examined file i
  | data (k : ℕ) : ExecutableHeader file k → (programHeader file k).offset ≤ i →
    i < (programHeader file k).offset + (programHeader file k).fileSize → Examined file i

/-- The files have the same length and the same bytes at all places that are examined. -/
structure Agrees (file file' : Bytes) : Prop where
  length_eq : file'.length = file.length
  getElem?_eq : ∀ i, Examined file i → file'[i]? = file[i]?

theorem numberAt_congr {file file' : Bytes} {start width : ℕ}
    (h : ∀ i, start ≤ i → i < start + width → file'[i]? = file[i]?) :
    numberAt file' start width = numberAt file start width := by
  refine Finset.sum_congr rfl fun k hk => ?_
  have hk' := Finset.mem_range.mp hk
  rw [byteAt, byteAt, List.getD_eq_getElem?_getD, List.getD_eq_getElem?_getD,
    h _ (Nat.le_add_right _ _) (by omega)]

theorem standsAt_congr {file file' bs : Bytes} {start : ℕ} (hlength : file'.length = file.length)
    (h : ∀ i, start ≤ i → i < start + bs.length → file'[i]? = file[i]?) :
    StandsAt file' start bs ↔ StandsAt file start bs := by
  have hbytes : (file'.drop start).take bs.length = (file.drop start).take bs.length := by
    apply List.ext_getElem?
    intro k
    rw [List.getElem?_take, List.getElem?_take]
    split_ifs with hk
    · rw [List.getElem?_drop, List.getElem?_drop, h _ (Nat.le_add_right _ _) (by omega)]
    · rfl
  rw [standsAt_iff, standsAt_iff, hlength, hbytes]

theorem sectionAt_congr {file file' : Bytes} {start : ℕ}
    (h : ∀ i, start ≤ i → i < start + 40 → file'[i]? = file[i]?) :
    sectionAt file' start = sectionAt file start := by
  unfold sectionAt
  congr 1 <;> exact numberAt_congr fun i hi hi' => h i (by omega) (by omega)

theorem programAt_congr {file file' : Bytes} {start : ℕ}
    (h : ∀ i, start ≤ i → i < start + 32 → file'[i]? = file[i]?) :
    programAt file' start = programAt file start := by
  unfold programAt
  congr 1 <;> exact numberAt_congr fun i hi hi' => h i (by omega) (by omega)

namespace Agrees

variable {file file' : Bytes}

theorem header_eq (h : Agrees file file') : header file' = header file := by
  unfold Narrow.header
  congr 1 <;> exact numberAt_congr fun i _ hi => h.getElem?_eq i (.header (by omega))

theorem sectionHeader_eq (h : Agrees file file') {k : ℕ} (hk : k < max 1 (sectionCount file)) :
    sectionHeader file' k = sectionHeader file k := by
  rw [Narrow.sectionHeader, Narrow.sectionHeader, h.header_eq]
  exact sectionAt_congr fun i hi hi' => h.getElem?_eq i (.sectionHeader k hk hi hi')

theorem firstSection_eq (h : Agrees file file') :
    sectionAt file' (header file).sectionOffset = sectionAt file (header file).sectionOffset := by
  have hfirst := h.sectionHeader_eq (k := 0) (lt_max_of_lt_left Nat.one_pos)
  rwa [Narrow.sectionHeader, Narrow.sectionHeader, h.header_eq, Nat.mul_zero,
    Nat.add_zero] at hfirst

theorem sectionCount_eq (h : Agrees file file') : sectionCount file' = sectionCount file := by
  rw [sectionCount, sectionCount, h.header_eq, h.firstSection_eq]

theorem programCount_eq (h : Agrees file file') : programCount file' = programCount file := by
  rw [programCount, programCount, h.header_eq, h.firstSection_eq]

theorem sections_eq (h : Agrees file file') : sections file' = sections file := by
  rw [sections, sections, h.sectionCount_eq]
  refine List.map_congr_left fun k hk => h.sectionHeader_eq ?_
  exact (List.mem_range.mp hk).trans_le (le_max_right _ _)

theorem namesNumber_eq (h : Agrees file file') : namesNumber file' = namesNumber file := by
  have hfirst := h.sectionHeader_eq (k := 0) (lt_max_of_lt_left Nat.one_pos)
  rw [namesNumber, namesNumber, h.header_eq, hfirst]

theorem isNames_iff (h : Agrees file file') {names : Bytes} :
    IsNames file' names ↔ IsNames file names := by
  unfold IsNames
  rw [h.namesNumber_eq, h.sectionCount_eq]
  refine exists_congr fun n => and_congr_right fun hn => and_congr_right fun hcount => ?_
  rw [h.sectionHeader_eq (hcount.trans_le (le_max_right _ _))]
  refine and_congr_left fun hlength => standsAt_congr h.length_eq fun i hi hi' => ?_
  exact h.getElem?_eq i (.names n hn hcount hi (hlength ▸ hi'))

theorem locates_iff (h : Agrees file file') {name : String} {s : Option Section} :
    Locates file' name s ↔ Locates file name s := by
  simp only [Locates, h.namesNumber_eq, h.isNames_iff, h.sections_eq]

theorem isExecutable_eq (h : Agrees file file') {k : ℕ} (hk : k < programCount file) :
    (programHeader file' k).isExecutable = (programHeader file k).isExecutable := by
  have hkind : (programHeader file' k).kind = (programHeader file k).kind := by
    rw [programHeader, programHeader, h.header_eq]
    exact numberAt_congr fun i hi hi' => h.getElem?_eq i (.kind k hk hi hi')
  have hflags : (programHeader file' k).flags = (programHeader file k).flags := by
    rw [programHeader, programHeader, h.header_eq]
    exact numberAt_congr fun i hi hi' => h.getElem?_eq i (.flags k hk hi hi')
  rw [Program.isExecutable, Program.isExecutable, hkind, hflags]

theorem executableNumbers_eq (h : Agrees file file') :
    executableNumbers file' = executableNumbers file := by
  rw [executableNumbers, executableNumbers, h.programCount_eq]
  exact List.filter_congr fun k hk => h.isExecutable_eq (List.mem_range.mp hk)

theorem programHeader_eq (h : Agrees file file') {k : ℕ} (hk : ExecutableHeader file k) :
    programHeader file' k = programHeader file k := by
  rw [programHeader, programHeader, h.header_eq]
  exact programAt_congr fun i hi hi' => h.getElem?_eq i (.executable k hk hi hi')

theorem describes_iff (h : Agrees file file') {k : ℕ} (hk : ExecutableHeader file k)
    {s : Segment} :
    (programHeader file' k).Describes file' s ↔ (programHeader file k).Describes file s := by
  rw [h.programHeader_eq hk]
  have hstands : s.data.length = (programHeader file k).fileSize →
      (StandsAt file' (programHeader file k).offset s.data ↔
        StandsAt file (programHeader file k).offset s.data) := fun hlength =>
    standsAt_congr h.length_eq fun i hi hi' => h.getElem?_eq i (.data k hk hi (hlength ▸ hi'))
  constructor
  · rintro ⟨haddress, hmemory, hlength, hdata⟩
    exact ⟨haddress, hmemory, hlength, (hstands hlength).mp hdata⟩
  · rintro ⟨haddress, hmemory, hlength, hdata⟩
    exact ⟨haddress, hmemory, hlength, (hstands hlength).mpr hdata⟩

theorem declared_iff (h : Agrees file file') : Declared file' ↔ Declared file := by
  have hmark : file'.take 7 = file.take 7 := by
    apply List.ext_getElem?
    intro k
    rw [List.getElem?_take, List.getElem?_take]
    split_ifs with hk
    · exact h.getElem?_eq k (.header (by omega))
    · rfl
  constructor
  · rintro ⟨hle, heq⟩
    exact ⟨h.length_eq ▸ hle, hmark ▸ heq⟩
  · rintro ⟨hle, heq⟩
    exact ⟨h.length_eq ▸ hle, hmark ▸ heq⟩

theorem sectionTable_iff (h : Agrees file file') : SectionTable file' ↔ SectionTable file := by
  rw [SectionTable, SectionTable, h.header_eq, h.sectionCount_eq, h.length_eq]

theorem programTable_iff (h : Agrees file file') : ProgramTable file' ↔ ProgramTable file := by
  rw [ProgramTable, ProgramTable, h.header_eq, h.programCount_eq, h.length_eq]

theorem ofBytes_eq {R : Reader} (hR : R.IsSound) (h : Agrees file file') (hd : Declared file) :
    Image.ofBytes R file' = Image.ofBytes R file := by
  -- Whether the tables can be read is the same for both files, and if not, both are malformed.
  have hd' := h.declared_iff.mpr hd
  have hreads : (∃ f, R file' = some f) ↔ ∃ f, R file = some f := by
    rw [hR.exists_iff file hd, hR.exists_iff file' hd', h.sectionTable_iff, h.programTable_iff]
  cases hread : R file with
  | none =>
    have hread' : R file' = none := by
      cases hf : R file' with
      | none => rfl
      | some f' =>
        obtain ⟨f, hf⟩ := hreads.mp ⟨f', hf⟩
        rw [hread] at hf
        cases hf
    rw [Image.ofBytes, Image.ofBytes, hread, hread']
  | some f =>
    obtain ⟨f', hread'⟩ := hreads.mpr ⟨f, hread⟩
    have hf := hR.describes file f hd hread
    have hf' := hR.describes file' f' hd' hread'
    have htable : f'.sectionNamed Image.tableName = f.sectionNamed Image.tableName :=
      Option.ext fun s => by
        rw [hf.sectionNamed_eq_some_iff, hf'.sectionNamed_eq_some_iff, h.locates_iff]
    have hsegments : ((f'.programs.getD []).filter (·.isExecutable)).map f'.segment? =
        ((f.programs.getD []).filter (·.isExecutable)).map f.segment? := by
      rw [hf.filter_programs, hf'.filter_programs, h.executableNumbers_eq, List.map_map,
        List.map_map]
      refine List.map_congr_left fun k hk => Option.ext fun s => ?_
      rw [Function.comp_apply, Function.comp_apply, hf.segment?_eq_some_iff,
        hf'.segment?_eq_some_iff, h.describes_iff (mem_executableNumbers.mp hk)]
    have hheader : f'.header = f.header := by rw [hf.header_eq, hf'.header_eq, h.header_eq]
    have he : f.header.encoding = .narrow := by rw [hf.header_eq]; rfl
    rw [ofBytes_of_read hread he, ofBytes_of_read hread' (hheader ▸ he), hheader, hsegments, htable]

end Agrees

/-- With a sound reader, every file is either refused or read as the image it describes, and it is
refused only if it describes none. An executable header whose data is not in the file makes it
refused, and for this reason if the tables can be read. Files that agree in the bytes that are
examined are both refused or have the same image, and if they are 32-bit little-endian files, they
are refused for the same reason. -/
theorem ofBytes_accepts_exactly_images {R : Reader} (hR : R.IsSound) (file : Bytes) :
    (∀ i, Image.ofBytes R file = .ok i ↔ IsImage file i) ∧
      ((∃ k, LacksData file k) → ∃ e, Image.ofBytes R file = .error e) ∧
      (Declared file → (header file).machine = 243 → SectionTable file → ProgramTable file →
        (Image.ofBytes R file = .error .segmentData ↔ ∃ k, LacksData file k)) ∧
      ∀ file', Agrees file file' →
        (Image.ofBytes R file').toOption = (Image.ofBytes R file).toOption ∧
          (Declared file → Image.ofBytes R file' = Image.ofBytes R file) := by
  refine ⟨fun i => ofBytes_eq_ok_iff hR, ?_, ofBytes_eq_segmentData_iff hR,
    fun file' hagrees => ⟨?_, hagrees.ofBytes_eq hR⟩⟩
  · intro hlacks
    cases h : Image.ofBytes R file with
    | error e => exact ⟨e, rfl⟩
    | ok i =>
      obtain ⟨hd, hm, hs, hp, -⟩ := (ofBytes_eq_ok_iff hR).mp h
      rw [(ofBytes_eq_segmentData_iff hR hd hm hs hp).mpr hlacks] at h
      cases h
  · by_cases hd : Declared file
    · rw [hagrees.ofBytes_eq hR hd]
    · rw [toOption_of_not_declared hR hd,
        toOption_of_not_declared hR (mt hagrees.declared_iff.mp hd)]

/-- A header that is not executable may name a stretch far beyond the end of the file. -/
theorem ofBytes_accepts_exactly_images_two_headers :
    let h : Header := ⟨.narrow, 243, 0x1000, 52, 0, 32, 2, 0, 0, 0⟩
    let file := Header.identity ++ (fields h.numbers ++
      (fields (Program.numbers 4 ⟨1, 0xffffffff, 0x2000, 0xffffffff, 0, 6⟩) ++
        (fields (Program.numbers 4 ⟨1, 116, 0x1000, 4, 4, 5⟩) ++ [0xd3, 0x00, 0x31, 0x00])))
    let i : Image := ⟨0x1000, [⟨0x1000, 4, [0xd3, 0x00, 0x31, 0x00]⟩], none⟩
    Reader.IsSound parse ∧
      file.length < (programHeader file 0).offset + (programHeader file 0).fileSize ∧
      Image.ofBytes parse file = .ok i ∧ IsImage file i := by
  intro h file i
  have hok : Image.ofBytes parse file = .ok i := by cbv
  exact ⟨isSound_parse, by decide +kernel, hok,
    ((ofBytes_accepts_exactly_images isSound_parse file).1 i).mp hok⟩

end Narrow
end HartFloat.Elf
