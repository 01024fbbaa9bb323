import TinyOS.RiruBounds

set_option autoImplicit false

/-! The packer on the host (tools/riru_pack.c): an ELF64 file to a RIRU image. -/
namespace TinyOS.Riru
open Memory

/-- The fields of `elf64_header_t` that `main` reads. -/
structure ElfHeader where
  ident : List (BitVec 8)
  machine : BitVec 16
  entry : Word
  phoff : Word
  phentsize : BitVec 16
  phnum : BitVec 16

/-- The fields of `elf64_program_header_t` that `main` reads. -/
structure ProgramHeader where
  type : BitVec 32
  flags : BitVec 32
  offset : Word
  vaddr : Word
  filesz : Word
  memsz : Word

structure SegmentInfo where
  found : Bool
  offset : Word
  vaddr : Word
  filesz : Word
  memsz : Word
  flags : BitVec 32

abbrev pfX : BitVec 32 := 1
abbrev pfW : BitVec 32 := 2
abbrev ptLoad : BitVec 32 := 1

abbrev defaultStackSize : Word := 1024*1024

abbrev uint64Max : Word := 0xFFFFFFFFFFFFFFFF

def readElfHeader (elf : Bytes) : ElfHeader where
  ident := [elf 0, elf 1, elf 2, elf 3, elf 4]
  machine := load16 elf 18
  entry := load64 elf 24
  phoff := load64 elf 32
  phentsize := load16 elf 54
  phnum := load16 elf 56

def readProgramHeader (elf : Bytes) (a : Word) : ProgramHeader where
  type := load32 elf a
  flags := load32 elf (a + 4)
  offset := load64 elf (a + 8)
  vaddr := load64 elf (a + 16)
  filesz := load64 elf (a + 32)
  memsz := load64 elf (a + 40)

def alignTo (value alignment : Word) : Word := (value + alignment - 1) &&& ~~~(alignment - 1)

def noSegment : SegmentInfo := ⟨false, 0, 0, 0, 0, 0⟩

def addSegment (segment : SegmentInfo) (ph : ProgramHeader) : SegmentInfo :=
  if !segment.found then ⟨true, ph.offset, ph.vaddr, ph.filesz, ph.memsz, ph.flags⟩
  else
    let fileEnd := ph.offset + ph.filesz
    let oldFileEnd := segment.offset + segment.filesz
    let memEnd := ph.vaddr + ph.memsz
    let oldMemEnd := segment.vaddr + segment.memsz
    { segment with
      filesz := if oldFileEnd < fileEnd then fileEnd - segment.offset else segment.filesz
      memsz := if oldMemEnd < memEnd then memEnd - segment.vaddr else segment.memsz }

/-- The first loop over the program headers: the lowest executable address. -/
def checkSegments (elfSize : Word) : List ProgramHeader → Word → Option Word
  | [], first => some first
  | ph :: rest, first =>
    if ph.type ≠ ptLoad then checkSegments elfSize rest first
    else if ph.memsz < ph.filesz then none
    else if !rangeValid ph.offset ph.filesz elfSize then none
    else checkSegments elfSize rest
      (if ph.flags &&& pfX ≠ 0 ∧ ph.vaddr < first then ph.vaddr else first)

/-- `code`, `rodata`, `data` and `bss_size`. -/
structure Segments where
  code : SegmentInfo
  rodata : SegmentInfo
  data : SegmentInfo
  bssSize : Word

def classify (firstCode : Word) (s : Segments) (ph : ProgramHeader) : Segments :=
  if ph.type ≠ ptLoad then s
  else if ph.flags &&& pfX ≠ 0 then { s with code := addSegment s.code ph }
  else if ph.flags &&& pfW ≠ 0 then
    { s with
      data := addSegment s.data ph
      bssSize := if ph.filesz < ph.memsz then s.bssSize + (ph.memsz - ph.filesz) else s.bssSize }
  else if ph.vaddr < firstCode then s
  else { s with rodata := addSegment s.rodata ph }

def elfMagic : List (BitVec 8) := [0x7F, 0x45, 0x4C, 0x46, 2]

/-- `ph`; the pointer is `elf_data + e_phoff`. -/
def programHeaders (elf : Bytes) : List ProgramHeader :=
  (List.range (readElfHeader elf).phnum.toNat).map fun i =>
    readProgramHeader elf ((readElfHeader elf).phoff + BitVec.ofNat 64 (56*i))

/-- `main` up to the layout; `none` when it returns 1. -/
def packSegments (elf : Bytes) (elfSize : Word) : Option Segments :=
  let header := readElfHeader elf
  if elfSize < 64 then none
  else if header.ident ≠ elfMagic then none
  else if header.machine ≠ 62 then none
  else if header.phentsize ≠ 56 then none
  else if elfSize < header.phoff + header.phnum.setWidth 64*header.phentsize.setWidth 64 then none
  else
    match checkSegments elfSize (programHeaders elf) uint64Max with
    | none => none
    | some first =>
      if first = uint64Max then none
      else
        let s := (programHeaders elf).foldl (classify first)
          ⟨noSegment, noSegment, noSegment, 0⟩
        if !s.code.found then none else some s

def placeSection (present : Bool) (filesz current : Word) : Word × Word :=
  if present ∧ filesz ≠ 0 then (current, alignTo (current + filesz) 16) else (0, current)

def packHeader (entry : Word) (s : Segments) : RiruHeader :=
  let code := placeSection true s.code.filesz (alignTo riruHeaderSize 16)
  let rodata := placeSection s.rodata.found s.rodata.filesz code.2
  let data := placeSection s.data.found s.data.filesz rodata.2
  { magic := riruMagic
    version := riruVersion
    architecture := riruArchX8664
    type := riruTypeExecutable
    flags := 0
    entry := entry
    codeOffset := code.1
    codeVaddr := s.code.vaddr
    codeSize := s.code.filesz
    rodataOffset := rodata.1
    rodataVaddr := if s.rodata.found then s.rodata.vaddr else 0
    rodataSize := s.rodata.filesz
    dataOffset := data.1
    dataVaddr := if s.data.found then s.data.vaddr else 0
    dataSize := s.data.filesz
    bssSize := s.bssSize
    stackSize := defaultStackSize
    imageSize := data.2 }

/-- `memcpy(out + offset, source, n)` -/
def memcpy (out : Bytes) (offset : Word) (source : Bytes) (n : Word) : Bytes := fun a =>
  if a - offset < n then source (a - offset) else out a

def fileFrom (file : Bytes) (offset : Word) : Bytes := fun a => file (offset + a)

def emitImage (elf : Bytes) (s : Segments) (header : RiruHeader) : Bytes :=
  let out := memcpy (fun _ => 0) 0 (fun a => header.byte a.toNat) riruHeaderSize
  let out := if s.code.filesz ≠ 0 then
    memcpy out header.codeOffset (fileFrom elf s.code.offset) s.code.filesz else out
  let out := if s.rodata.found ∧ s.rodata.filesz ≠ 0 then
    memcpy out header.rodataOffset (fileFrom elf s.rodata.offset) s.rodata.filesz else out
  if s.data.found ∧ s.data.filesz ≠ 0 then
    memcpy out header.dataOffset (fileFrom elf s.data.offset) s.data.filesz else out

structure Packed where
  segments : Segments
  image : Bytes
  imageSize : Word

/-- `main` on a file of `elfSize` bytes; bytes past its end are what lies behind it. -/
def riruPack (elf : Bytes) (elfSize : Word) : Option Packed :=
  (packSegments elf elfSize).map fun s =>
    let header := packHeader (readElfHeader elf).entry s
    ⟨s, emitImage elf s header, header.imageSize⟩

/-- The file range of a segment lies in the file, and is empty where there is no segment. -/
structure SegmentInfo.Inside (elfSize : Word) (s : SegmentInfo) : Prop where
  range : s.offset.toNat+s.filesz.toNat ≤ elfSize.toNat
  absent : s.found = false → s.filesz = 0

def ProgramHeader.Inside (elfSize : Word) (ph : ProgramHeader) : Prop :=
  ph.offset.toNat+ph.filesz.toNat ≤ elfSize.toNat

variable {elf : Bytes} {elfSize : Word} {s : Segments}

theorem noSegment_inside : noSegment.Inside elfSize :=
  ⟨by simp [noSegment], fun _ => rfl⟩

theorem addSegment_inside {segment : SegmentInfo} {ph : ProgramHeader}
    (h : segment.Inside elfSize) (hp : ph.Inside elfSize) :
    (addSegment segment ph).Inside elfSize := by
  have range := h.range
  rw [ProgramHeader.Inside] at hp
  have bound := elfSize.isLt
  have old : (segment.offset + segment.filesz).toNat =
      segment.offset.toNat+segment.filesz.toNat := BitVec.toNat_add_of_lt (by omega)
  have new : (ph.offset + ph.filesz).toNat = ph.offset.toNat+ph.filesz.toNat :=
    BitVec.toNat_add_of_lt (by omega)
  rw [addSegment]
  by_cases found : segment.found = true
  · rw [if_neg (by simp [found])]
    refine ⟨?_, fun h => absurd (found.symm.trans h) (by decide)⟩
    dsimp only
    split_ifs with lt
    · rw [BitVec.lt_def, old, new] at lt
      rw [BitVec.toNat_sub_of_le (BitVec.le_def.mpr (by omega)), new]
      omega
    · exact range
  · rw [if_pos (by simp [found])]
    exact ⟨hp, fun h => Bool.noConfusion h⟩

theorem checkSegments_inside {phs : List ProgramHeader} {first result : Word}
    (h : checkSegments elfSize phs first = some result) :
    ∀ ph ∈ phs, ph.type = ptLoad → ph.Inside elfSize := by
  induction phs generalizing first with
  | nil => exact fun ph hp => absurd hp List.not_mem_nil
  | cons ph rest ih =>
    rw [checkSegments] at h
    split_ifs at h with type mem range
    · intro q hq load
      rcases List.mem_cons.mp hq with rfl | hq
      · exact absurd load type
      · exact ih h q hq load
    all_goals
      intro q hq load
      rcases List.mem_cons.mp hq with rfl | hq
      · exact rangeValid_iff.mp (by simpa using range)
      · exact ih h q hq load

structure Segments.Inside (elfSize : Word) (s : Segments) : Prop where
  code : s.code.Inside elfSize
  rodata : s.rodata.Inside elfSize
  data : s.data.Inside elfSize

/-- `bss_size` behind a writable segment. -/
def addBss (bss : Word) (ph : ProgramHeader) : Word :=
  if ph.filesz < ph.memsz then bss + (ph.memsz - ph.filesz) else bss

inductive Classified (first : Word) (s : Segments) (ph : ProgramHeader) : Segments → Prop where
  | other (load : ph.type ≠ ptLoad) : Classified first s ph s
  | code (load : ph.type = ptLoad) (exec : ph.flags &&& pfX ≠ 0) :
      Classified first s ph { s with code := addSegment s.code ph }
  | data (load : ph.type = ptLoad) (exec : ph.flags &&& pfX = 0) (write : ph.flags &&& pfW ≠ 0) :
      Classified first s ph { s with data := addSegment s.data ph, bssSize := addBss s.bssSize ph }
  | below (load : ph.type = ptLoad) (exec : ph.flags &&& pfX = 0) (write : ph.flags &&& pfW = 0)
      (below : ph.vaddr < first) : Classified first s ph s
  | rodata (load : ph.type = ptLoad) (exec : ph.flags &&& pfX = 0) (write : ph.flags &&& pfW = 0)
      (above : first ≤ ph.vaddr) :
      Classified first s ph { s with rodata := addSegment s.rodata ph }

theorem classify_cases {first : Word} (s : Segments) (ph : ProgramHeader) :
    Classified first s ph (classify first s ph) := by
  rw [classify]
  by_cases load : ph.type = ptLoad
  · rw [if_neg (not_not.mpr load)]
    by_cases exec : ph.flags &&& pfX = 0
    · rw [if_neg (not_not.mpr exec)]
      by_cases write : ph.flags &&& pfW = 0
      · rw [if_neg (not_not.mpr write)]
        split_ifs with below
        · exact .below load exec write below
        · exact .rodata load exec write (BitVec.not_lt.mp below)
      · rw [if_pos write]
        exact .data load exec write
    · rw [if_pos exec]
      exact .code load exec
  · rw [if_pos load]
    exact .other load

theorem classify_inside {first : Word} {ph : ProgramHeader} (h : s.Inside elfSize)
    (hp : ph.type = ptLoad → ph.Inside elfSize) : (classify first s ph).Inside elfSize := by
  have classified := @classify_cases first s ph
  generalize classify first s ph = t at classified ⊢
  cases classified with
  | other load => exact h
  | code load exec => exact ⟨addSegment_inside h.code (hp load), h.rodata, h.data⟩
  | data load exec write => exact ⟨h.code, h.rodata, addSegment_inside h.data (hp load)⟩
  | below load exec write below => exact h
  | rodata load exec write above => exact ⟨h.code, addSegment_inside h.rodata (hp load), h.data⟩

theorem foldl_classify_inside {first : Word} {phs : List ProgramHeader}
    (hp : ∀ ph ∈ phs, ph.type = ptLoad → ph.Inside elfSize) (h : s.Inside elfSize) :
    (phs.foldl (classify first) s).Inside elfSize := by
  induction phs generalizing s with
  | nil => exact h
  | cons ph rest ih =>
    exact ih (fun q hq => hp q (List.mem_cons_of_mem _ hq))
      (classify_inside h (hp ph List.mem_cons_self))

theorem packSegments_some (h : packSegments elf elfSize = some s) :
    ∃ first, checkSegments elfSize (programHeaders elf) uint64Max = some first ∧ first ≠ uint64Max ∧
      s = (programHeaders elf).foldl (classify first) ⟨noSegment, noSegment, noSegment, 0⟩ := by
  rw [packSegments] at h
  dsimp only at h
  split_ifs at h
  cases check : checkSegments elfSize (programHeaders elf) uint64Max with
  | none =>
    rw [check] at h
    cases h
  | some first =>
    rw [check] at h
    dsimp only at h
    split_ifs at h with none found
    exact ⟨first, rfl, none, (Option.some.inj h).symm⟩

theorem packSegments_inside (h : packSegments elf elfSize = some s) : s.Inside elfSize := by
  obtain ⟨first, check, -, rfl⟩ := packSegments_some h
  exact foldl_classify_inside (checkSegments_inside check)
    ⟨noSegment_inside, noSegment_inside, noSegment_inside⟩

theorem alignTo_toNat {value : Word} (h : value.toNat+15 < 2^64) :
    (alignTo value 16).toNat = (value.toNat+15)/16*16 := by
  have sum : (value + 16 - 1).toNat = value.toNat+15 := by
    simp only [BitVec.toNat_add, BitVec.toNat_sub, BitVec.ofNat_eq_ofNat, BitVec.toNat_ofNat]
    omega
  rw [← sum]
  exact and_not_low_toNat (value + 16 - 1) 4

/-- A section placed from `current` on: its range lies between `current` and the next one. -/
theorem placeSection_spec {present : Bool} {filesz current : Word}
    (absent : present = false → filesz = 0) (small : filesz.toNat < 2^60)
    (room : current.toNat < 2^62) :
    current.toNat ≤ (placeSection present filesz current).2.toNat ∧
    (placeSection present filesz current).2.toNat ≤ current.toNat+filesz.toNat+15 ∧
    (filesz ≠ 0 → (placeSection present filesz current).1 = current ∧
      current.toNat+filesz.toNat ≤ (placeSection present filesz current).2.toNat) := by
  rw [placeSection]
  by_cases zero : filesz = 0
  · rw [if_neg (fun h => h.2 zero)]
    exact ⟨le_refl _, by dsimp only; omega, fun ne => absurd zero ne⟩
  · have here : present = true := by
      by_contra h
      exact zero (absent (by simpa using h))
    have sum : (current + filesz).toNat = current.toNat+filesz.toNat :=
      BitVec.toNat_add_of_lt (by omega)
    rw [if_pos ⟨here, zero⟩]
    dsimp only
    rw [alignTo_toNat (by omega), sum]
    refine ⟨by omega, by omega, fun _ => ⟨rfl, by omega⟩⟩

structure Stacked (s : Segments) (h : RiruHeader) (code rodata : ℕ) : Prop where
  start : 128 ≤ code
  codeEnd : code ≤ rodata
  rodataEnd : rodata ≤ h.imageSize.toNat
  room : h.imageSize.toNat < 2^63
  codeRange : s.code.filesz ≠ 0 →
    h.codeOffset.toNat = 128 ∧ 128+s.code.filesz.toNat ≤ code
  rodataRange : s.rodata.filesz ≠ 0 →
    h.rodataOffset.toNat = code ∧ code+s.rodata.filesz.toNat ≤ rodata
  dataRange : s.data.filesz ≠ 0 →
    h.dataOffset.toNat = rodata ∧ rodata+s.data.filesz.toNat ≤ h.imageSize.toNat

theorem packHeader_stacked (inside : s.Inside elfSize) (small : elfSize.toNat < 2^60)
    (entry : Word) : ∃ code rodata, Stacked s (packHeader entry s) code rodata := by
  have hc := inside.code.range
  have hr := inside.rodata.range
  have hd := inside.data.range
  have first : (alignTo riruHeaderSize 16).toNat = 128 := by decide
  obtain ⟨c1, c2, c3⟩ := @placeSection_spec true s.code.filesz
    (alignTo riruHeaderSize 16) (fun h => absurd h (by decide)) (by omega) (by omega)
  rw [first] at c1 c2
  obtain ⟨r1, r2, r3⟩ := @placeSection_spec s.rodata.found
    s.rodata.filesz ((placeSection true s.code.filesz
      (alignTo riruHeaderSize 16)).2) inside.rodata.absent (by omega) (by omega)
  obtain ⟨d1, d2, d3⟩ := @placeSection_spec s.data.found
    s.data.filesz ((placeSection s.rodata.found s.rodata.filesz
      (placeSection true s.code.filesz (alignTo riruHeaderSize 16)).2).2)
    inside.data.absent (by omega) (by omega)
  refine ⟨_, _, c1, r1, d1, ?_, fun ne => ?_, fun ne => ?_, fun ne => ?_⟩
  · change (placeSection s.data.found s.data.filesz _).2.toNat < 2^63
    omega
  · obtain ⟨offset, le⟩ := c3 ne
    rw [first] at le
    exact ⟨(congrArg BitVec.toNat offset).trans first, le⟩
  · obtain ⟨offset, le⟩ := r3 ne
    exact ⟨congrArg BitVec.toNat offset, le⟩
  · obtain ⟨offset, le⟩ := d3 ne
    exact ⟨congrArg BitVec.toNat offset, le⟩

theorem memcpy_outside {out source : Bytes} {offset n a : Word}
    (room : offset.toNat+n.toNat ≤ 2^64)
    (off : a.toNat < offset.toNat ∨ offset.toNat+n.toNat ≤ a.toNat) :
    memcpy out offset source n a = out a := by
  refine if_neg fun lt => ?_
  rw [BitVec.lt_def, BitVec.toNat_sub] at lt
  have := a.isLt
  have := n.isLt
  omega

theorem memcpy_inside {out source : Bytes} {offset n : Word} {i : ℕ} (lt : i < n.toNat) :
    memcpy out offset source n (offset + BitVec.ofNat 64 i) = source (BitVec.ofNat 64 i) := by
  have sub : offset + BitVec.ofNat 64 i - offset = BitVec.ofNat 64 i := by
    rw [BitVec.add_comm]
    exact BitVec.add_sub_cancel _ _
  rw [memcpy, sub, if_pos]
  have := n.isLt
  rw [BitVec.lt_def, BitVec.toNat_ofNat]
  omega

theorem section_outside {out source : Bytes} {offset n a : Word} {present : Prop}
    [Decidable present] (room : n ≠ 0 → offset.toNat+n.toNat ≤ 2^64)
    (off : n ≠ 0 → a.toNat < offset.toNat ∨ offset.toNat+n.toNat ≤ a.toNat)
    (copied : present → n ≠ 0) :
    (if present then memcpy out offset source n else out) a = out a := by
  split_ifs with h
  · exact memcpy_outside (room (copied h)) (off (copied h))
  · rfl

variable {h : RiruHeader} {code rodata : ℕ}

/-- Three sections one behind the other leave what lies before them alone. -/
theorem emitImage_header (st : Stacked s h code rodata) {i : ℕ} (lt : i < 120) :
    emitImage elf s h (BitVec.ofNat 64 i) = h.byte i := by
  have small : (BitVec.ofNat 64 i).toNat = i := by
    rw [BitVec.toNat_ofNat]
    omega
  have start := st.start
  have codeEnd := st.codeEnd
  have rodataEnd := st.rodataEnd
  have room := st.room
  have codeRange := st.codeRange
  have rodataRange := st.rodataRange
  have dataRange := st.dataRange
  have inside := @memcpy_inside (fun _ => 0) (fun a => h.byte a.toNat) 0 riruHeaderSize
    i lt
  rw [show (0 : Word) + BitVec.ofNat 64 i = BitVec.ofNat 64 i from BitVec.zero_add _, small]
    at inside
  rw [emitImage, section_outside (fun ne => by have := dataRange ne; omega)
      (fun ne => by have := dataRange ne; omega) (fun present => present.2),
    section_outside (fun ne => by have := rodataRange ne; omega)
      (fun ne => by have := rodataRange ne; omega) (fun present => present.2),
    section_outside (fun ne => by have := codeRange ne; omega)
      (fun ne => by have := codeRange ne; omega) id]
  exact inside

theorem readHeader_emitImage {entry : Word} (st : Stacked s (packHeader entry s) code rodata) :
    readHeader (emitImage elf s (packHeader entry s)) = packHeader entry s :=
  readHeader_bytes rfl fun _ lt => emitImage_header st lt

theorem emitImage_code (st : Stacked s h code rodata) {i : ℕ} (lt : i < s.code.filesz.toNat) :
    emitImage elf s h (h.codeOffset + BitVec.ofNat 64 i) =
      elf (s.code.offset + BitVec.ofNat 64 i) := by
  have some : s.code.filesz ≠ 0 := fun eq => by simp [eq] at lt
  have codeEnd := st.codeEnd
  have rodataEnd := st.rodataEnd
  have room := st.room
  obtain ⟨offset, le⟩ := st.codeRange some
  have at_i := @toNat_add_ofNat h.codeOffset i (by omega)
  have rodataRange := st.rodataRange
  have dataRange := st.dataRange
  rw [emitImage, section_outside (fun ne => by have := dataRange ne; omega)
      (fun ne => by have := dataRange ne; omega) (fun present => present.2),
    section_outside (fun ne => by have := rodataRange ne; omega)
      (fun ne => by have := rodataRange ne; omega) (fun present => present.2),
    if_pos some, memcpy_inside lt, fileFrom]

theorem emitImage_rodata (st : Stacked s h code rodata) (inside : s.rodata.Inside elfSize) {i : ℕ}
    (lt : i < s.rodata.filesz.toNat) :
    emitImage elf s h (h.rodataOffset + BitVec.ofNat 64 i) =
      elf (s.rodata.offset + BitVec.ofNat 64 i) := by
  have some : s.rodata.filesz ≠ 0 := fun eq => by simp [eq] at lt
  have found : s.rodata.found = true := by
    by_contra absent
    exact some (inside.absent (by simpa using absent))
  have rodataEnd := st.rodataEnd
  have room := st.room
  obtain ⟨offset, le⟩ := st.rodataRange some
  have at_i := @toNat_add_ofNat h.rodataOffset i (by omega)
  have dataRange := st.dataRange
  rw [emitImage, section_outside (fun ne => by have := dataRange ne; omega)
      (fun ne => by have := dataRange ne; omega) (fun present => present.2),
    if_pos ⟨found, some⟩, memcpy_inside lt, fileFrom]

theorem emitImage_data (inside : s.data.Inside elfSize) {i : ℕ} (lt : i < s.data.filesz.toNat) :
    emitImage elf s h (h.dataOffset + BitVec.ofNat 64 i) =
      elf (s.data.offset + BitVec.ofNat 64 i) := by
  have some : s.data.filesz ≠ 0 := fun eq => by simp [eq] at lt
  have found : s.data.found = true := by
    by_contra absent
    exact some (inside.absent (by simpa using absent))
  rw [emitImage, if_pos ⟨found, some⟩, memcpy_inside lt, fileFrom]

def RiruHeader.sections (h : RiruHeader) : List (Finset ℕ) :=
  [Finset.Ico h.codeOffset.toNat (h.codeOffset.toNat+h.codeSize.toNat),
    Finset.Ico h.rodataOffset.toNat (h.rodataOffset.toNat+h.rodataSize.toNat),
    Finset.Ico h.dataOffset.toNat (h.dataOffset.toNat+h.dataSize.toNat)]

structure Faithful (elf : Bytes) (packed : Packed) (image : RiruImage) : Prop where
  code : image.header.codeSize = packed.segments.code.filesz ∧
    ∀ i, i < packed.segments.code.filesz.toNat →
      image.byte image.code i = elf (packed.segments.code.offset + BitVec.ofNat 64 i)
  rodata : image.header.rodataSize = packed.segments.rodata.filesz ∧
    ∀ i, i < packed.segments.rodata.filesz.toNat →
      image.byte image.rodata i = elf (packed.segments.rodata.offset + BitVec.ofNat 64 i)
  data : image.header.dataSize = packed.segments.data.filesz ∧
    ∀ i, i < packed.segments.data.filesz.toNat →
      image.byte image.data i = elf (packed.segments.data.offset + BitVec.ofNat 64 i)
  entry : image.entry = (readElfHeader elf).entry
  codeVaddr : image.codeVaddr = packed.segments.code.vaddr
  rodataVaddr : image.rodataVaddr =
    if packed.segments.rodata.found then packed.segments.rodata.vaddr else 0
  dataVaddr : image.dataVaddr =
    if packed.segments.data.found then packed.segments.data.vaddr else 0
  inside : ∀ r ∈ image.header.sections, ∀ a ∈ r, 120 ≤ a ∧ a < image.header.imageSize.toNat
  apart : image.header.sections.Pairwise Disjoint
  imageSize : image.header.imageSize = packed.imageSize

theorem section_byte {file : Bytes} {header : RiruHeader} {size offset : Word} {i : ℕ}
    (lt : i < size.toNat) (c r d : Option Word) (cv rv dv entry : Word) :
    (⟨file, header, c, r, d, cv, rv, dv, entry⟩ : RiruImage).byte (sectionAt size offset) i =
      file (offset + BitVec.ofNat 64 i) := by
  have some : size ≠ 0 := fun eq => by simp [eq] at lt
  rw [sectionAt, if_pos some, RiruImage.byte]

theorem Stacked.sections (st : Stacked s h code rodata) (cs : h.codeSize = s.code.filesz)
    (rs : h.rodataSize = s.rodata.filesz) (ds : h.dataSize = s.data.filesz) :
    (∀ r ∈ h.sections, ∀ a ∈ r, 120 ≤ a ∧ a < h.imageSize.toNat) ∧
      h.sections.Pairwise Disjoint := by
  have start := st.start
  have codeEnd := st.codeEnd
  have rodataEnd := st.rodataEnd
  have nonzero {w : Word} (lt : 0 < w.toNat) : w ≠ 0 := fun eq => by simp [eq] at lt
  have codeRange (lt : 0 < s.code.filesz.toNat) := st.codeRange (nonzero lt)
  have rodataRange (lt : 0 < s.rodata.filesz.toNat) := st.rodataRange (nonzero lt)
  have dataRange (lt : 0 < s.data.filesz.toNat) := st.dataRange (nonzero lt)
  constructor
  · intro r hr a ha
    simp only [RiruHeader.sections, List.mem_cons, List.not_mem_nil, or_false] at hr
    rcases hr with rfl | rfl | rfl
    · rw [Finset.mem_Ico, cs] at ha
      have := codeRange (by omega)
      omega
    · rw [Finset.mem_Ico, rs] at ha
      have := rodataRange (by omega)
      omega
    · rw [Finset.mem_Ico, ds] at ha
      have := dataRange (by omega)
      omega
  · have apart {a b c d : ℕ} (h : a < b → c < d → b ≤ c) :
        Disjoint (Finset.Ico a b) (Finset.Ico c d) := by
      rw [Finset.disjoint_left]
      intro x hx hy
      rw [Finset.mem_Ico] at hx hy
      have := h (by omega) (by omega)
      omega
    rw [RiruHeader.sections, cs, rs, ds]
    refine List.pairwise_cons.mpr ⟨?_, List.pairwise_pair.mpr (apart ?_)⟩
    · intro r hr
      simp only [List.mem_cons, List.not_mem_nil, or_false] at hr
      rcases hr with rfl | rfl
      · refine apart fun lt lt' => ?_
        have := codeRange (by omega)
        have := rodataRange (by omega)
        omega
      · refine apart fun lt lt' => ?_
        have := codeRange (by omega)
        have := dataRange (by omega)
        omega
    · intro lt lt'
      have := rodataRange (by omega)
      have := dataRange (by omega)
      omega

/-- What the kernel parses of a packed image is what the packer merged. -/
theorem riruPack_faithful {packed : Packed} {image : RiruImage} (small : elfSize.toNat < 2^60)
    (h : riruPack elf elfSize = some packed)
    (accepted : riruValidate (some packed.image) packed.imageSize = 0)
    (parsed : riruParse (some packed.image) packed.imageSize = .ok image) :
    Faithful elf packed image := by
  obtain rfl := Except.ok.inj ((riruParse_ok accepted).symm.trans parsed)
  obtain ⟨s, segments, rfl⟩ := Option.map_eq_some_iff.mp h
  have inside := packSegments_inside segments
  obtain ⟨c, r, st⟩ := packHeader_stacked inside small (readElfHeader elf).entry
  dsimp only
  rw [readHeader_emitImage st]
  obtain ⟨sections, apart⟩ := st.sections rfl rfl rfl
  exact {
    code := ⟨rfl, fun i lt => (section_byte lt _ _ _ _ _ _ _).trans (emitImage_code st lt)⟩
    rodata := ⟨rfl, fun i lt =>
      (section_byte lt _ _ _ _ _ _ _).trans (emitImage_rodata st inside.rodata lt)⟩
    data := ⟨rfl, fun i lt =>
      (section_byte lt _ _ _ _ _ _ _).trans (emitImage_data inside.data lt)⟩
    entry := rfl
    codeVaddr := rfl
    rodataVaddr := rfl
    dataVaddr := rfl
    inside := sections
    apart := apart
    imageSize := rfl }

/-- Every accepted image the packer writes is parsed to the ranges it merged. -/
theorem packed_parses {packed : Packed} (small : elfSize.toNat < 2^60)
    (h : riruPack elf elfSize = some packed)
    (accepted : riruValidate (some packed.image) packed.imageSize = 0) :
    ∃ image, riruParse (some packed.image) packed.imageSize = .ok image ∧
      Faithful elf packed image := by
  have parsed := riruParse_ok accepted
  exact ⟨_, parsed, riruPack_faithful small h accepted parsed⟩

def le64 (n : ℕ) : List (BitVec 8) := (List.range 8).map fun i => BitVec.ofNat 8 (n/256^i)

def elfSegment (flags : BitVec 8) (offset vaddr filesz memsz : ℕ) : List (BitVec 8) :=
  [1, 0, 0, 0, flags, 0, 0, 0] ++ le64 offset ++ le64 vaddr ++ le64 vaddr ++ le64 filesz ++
    le64 memsz ++ le64 1

def elfStart (entry : ℕ) (segments : BitVec 8) : List (BitVec 8) :=
  [0x7F, 0x45, 0x4C, 0x46, 2, 1, 1, 0, 0, 0, 0, 0, 0, 0, 0, 0, 2, 0, 62, 0, 1, 0, 0, 0] ++
    le64 entry ++ le64 64 ++ le64 0 ++ [0, 0, 0, 0, 64, 0, 56, 0, segments, 0, 0, 0, 0, 0, 0, 0]

def classesElf : Bytes := fun a =>
  (elfStart 0x401000 4 ++ elfSegment 5 288 0x401000 2 2 ++ elfSegment 5 290 0x401002 1 1 ++
    elfSegment 4 291 0x402000 3 3 ++ elfSegment 6 294 0x403000 2 4 ++
    [0xEB, 0xFE, 0x90, 1, 2, 3, 4, 5]).getD a.toNat 0

theorem classesElf_packed : (riruPack classesElf 296).isSome = true := by decide +kernel

def classesPacked : Packed := (riruPack classesElf 296).get classesElf_packed

theorem classesPacked_valid :
    riruValidate (some classesPacked.image) classesPacked.imageSize = 0 := by decide +kernel

theorem packed_parses_classes : ∃ image,
    riruParse (some classesPacked.image) classesPacked.imageSize = .ok image ∧
      Faithful classesElf classesPacked image :=
  packed_parses (show (296 : Word).toNat < 2^60 by decide) (Option.some_get classesElf_packed).symm
    classesPacked_valid

def smallElf (a : Word) : BitVec 8 :=
  [127, 69, 76, 70, 2, 1, 1, 0, 0, 0, 0, 0, 0, 0, 0, 0, 2, 0, 62, 0, 1, 0, 0, 0, 0, 16, 64, 0, 0,
    0, 0, 0, 64, 0, 0, 0, 0, 0, 0, 0, 0, 0, 0, 0, 0, 0, 0, 0, 0, 0, 0, 0, 64, 0, 56, 0, 1, 0, 0,
    0, 0, 0, 0, 0, 1, 0, 0, 0, 5, 0, 0, 0, 120, 0, 0, 0, 0, 0, 0, 0, 0, 16, 64, 0, 0, 0, 0, 0, 0,
    16, 64, 0, 0, 0, 0, 0, 2, 0, 0, 0, 0, 0, 0, 0, 2, 0, 0, 0, 0, 0, 0, 0, 0, 16, 0, 0, 0, 0, 0,
    0, 235, 254].getD a.toNat 0

theorem smallElf_packed : (riruPack smallElf 122).isSome = true := by decide

def smallPacked : Packed := (riruPack smallElf 122).get smallElf_packed

end TinyOS.Riru
