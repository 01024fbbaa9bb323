import TinyOS.ProgramSpaces
import TinyOS.RiruPackValid

set_option autoImplicit false

/-! What the kernel has in memory of a packed ELF file once it is loaded (tools/riru_pack.c,
riru/loader.c). -/
namespace TinyOS.Memory
open RadixTables Riru

variable {u : ℕ} {place place₁ : Places} {k k₁ k' : Kernel} {b : Layout} {image : RiruImage}
  {end' : Word} {pages : Set ℕ} {elf : Bytes} {elfSize : Word} {s s' : Stretch}

/-- The first range to be counted sets the end of the image. -/
theorem widen_first {span : Word × Word} {base vaddr size : Word} {code : ℤ}
    (h : widen (base, 0) vaddr size code = .ok span) (some : size ≠ 0) :
    span.2 = alignUp (vaddr + size) := by
  rw [widen, if_neg some] at h
  cases valid : validRange vaddr size with
  | false =>
    rw [valid] at h
    cases h
  | true =>
    rw [valid, if_neg (by decide)] at h
    obtain rfl := Except.ok.inj h
    dsimp only
    split_ifs with pos
    · rfl
    · rw [BitVec.lt_def, show (0 : Word).toNat = 0 from rfl] at pos
      exact ((word_eq_zero _).mpr (by omega)).symm

theorem imageSpan_rodata {h : RiruHeader} {span : Word × Word} (code : h.codeSize = 0)
    (data : h.dataSize = 0) (ok : imageSpan h = .ok span) :
    h.rodataSize ≠ 0 ∧ span.2 = alignUp (h.rodataVaddr + h.rodataSize) := by
  rw [imageSpan, if_pos code] at ok
  change (widen (0xFFFFFFFFFFFFFFFF, 0) h.rodataVaddr h.rodataSize (-3) >>= fun span => do
    let span ← widen span h.dataVaddr h.dataSize (-4)
    if span.1 = 0xFFFFFFFFFFFFFFFF then .error (-5) else .ok span) = .ok span at ok
  cases first : widen (0xFFFFFFFFFFFFFFFF, 0) h.rodataVaddr h.rodataSize (-3) with
  | error code =>
    rw [first] at ok
    cases ok
  | ok span' =>
    rw [first] at ok
    change (widen span' h.dataVaddr h.dataSize (-4) >>= fun span =>
      if span.1 = 0xFFFFFFFFFFFFFFFF then .error (-5) else .ok span) = .ok span at ok
    rw [widen, if_pos data] at ok
    change (if span'.1 = 0xFFFFFFFFFFFFFFFF then .error (-5) else .ok span') = Except.ok span at ok
    split_ifs at ok with none
    obtain rfl := Except.ok.inj ok
    have some : h.rodataSize ≠ 0 := by
      intro zero
      rw [widen, if_pos zero] at first
      obtain rfl := Except.ok.inj first
      exact none rfl
    exact ⟨some, widen_first first some⟩

/-- A class of segments: the file from the start of the first one to the end of the last one, at
the address of the first one. -/
def classStretch (elf : Bytes) : List ProgramHeader → Stretch
  | [] => ⟨0, 0, fun _ => 0⟩
  | ph :: rest => ⟨ph.vaddr, BitVec.ofNat 64 (fileEnd (ph :: rest)-ph.offset.toNat),
      fun i => elf (ph.offset + BitVec.ofNat 64 i)⟩

/-- The BSS of all writable segments, behind the data, else the code, else the image. -/
def bssStretch (elf : Bytes) : Stretch :=
  let code := classStretch elf (codeSegments elf)
  let rodata := classStretch elf (rodataSegments elf)
  let data := classStretch elf (dataSegments elf)
  ⟨if data.size ≠ 0 then data.start + data.size else if code.size ≠ 0 then code.start + code.size
      else alignUp (rodata.start + rodata.size), (dataSegments elf).foldl addBss 0, fun _ => 0⟩

def plan (elf : Bytes) : List Stretch :=
  [classStretch elf (codeSegments elf), classStretch elf (rodataSegments elf),
    classStretch elf (dataSegments elf), bssStretch elf]

structure Stretch.Same (s s' : Stretch) : Prop where
  size : s.size = s'.size
  start : s.size ≠ 0 → s.start = s'.start
  byte : ∀ i < s.size.toNat, s.byte i = s'.byte i

theorem Stretch.Same.has (h : s.Same s') (a : Word) : s.Has a ↔ s'.Has a := by
  by_cases empty : s.size = 0
  · exact iff_of_false (Stretch.not_has empty a) (Stretch.not_has (h.size ▸ empty) a)
  · rw [Stretch.Has, Stretch.Has, h.size, h.start empty]

theorem Stretch.Same.at_eq (h : s.Same s') {a : Word} (here : s.Has a) : s.at a = s'.at a := by
  have some : s.size ≠ 0 := fun empty => Stretch.not_has empty a here
  obtain ⟨low, high⟩ := here
  rw [Stretch.at, Stretch.at, ← h.start some]
  exact h.byte _ (by omega)

theorem written_congr {l l' : List Stretch} (h : List.Forall₂ Stretch.Same l l') (a : Word) :
    written l a = written l' a := by
  induction h with
  | nil => rfl
  | @cons s s' l l' same rest ih =>
    rw [written, written, ih]
    congr 1
    by_cases here : s.Has a
    · rw [if_pos here, if_pos ((same.has a).mp here), same.at_eq here]
    · rw [if_neg here, if_neg fun h => here ((same.has a).mpr h)]

theorem classStretch_merged {l : List ProgramHeader} (hp : ∀ q ∈ l, q.Inside elfSize) :
    (if (l.foldl addSegment noSegment).found then (l.foldl addSegment noSegment).vaddr else 0) =
      (classStretch elf l).start ∧
    (l.foldl addSegment noSegment).vaddr = (classStretch elf l).start ∧
    (l.foldl addSegment noSegment).filesz = (classStretch elf l).size ∧
    ∀ i < (l.foldl addSegment noSegment).filesz.toNat,
      elf ((l.foldl addSegment noSegment).offset + BitVec.ofNat 64 i) =
        (classStretch elf l).byte i := by
  cases l with
  | nil => exact ⟨rfl, rfl, rfl, fun i lt => absurd lt (Nat.not_lt_zero i)⟩
  | cons ph rest =>
    obtain ⟨found, offset, vaddr, size⟩ := merged_first hp
    rw [found, if_pos rfl, vaddr, offset, classStretch]
    refine ⟨rfl, rfl, ?_, fun i _ => rfl⟩
    dsimp only
    rw [← size, Nat.add_sub_cancel_left, BitVec.ofNat_toNat, BitVec.setWidth_eq]

theorem classes_inside
    (loaded : ∀ ph ∈ programHeaders elf, ph.type = ptLoad → ph.Inside elfSize) :
    (∀ q ∈ codeSegments elf, q.Inside elfSize) ∧ (∀ q ∈ rodataSegments elf, q.Inside elfSize) ∧
      ∀ q ∈ dataSegments elf, q.Inside elfSize := by
  refine ⟨?_, ?_, ?_⟩
  all_goals
    intro ph mem
    obtain ⟨given, kind⟩ := List.mem_filter.mp mem
    exact loaded ph given (of_decide_eq_true kind).1

structure Planned (elf : Bytes) (image : RiruImage) (end' : Word) : Prop where
  code : (Stretch.mk image.header.codeVaddr image.header.codeSize
    (image.byte image.code)).Same (classStretch elf (codeSegments elf))
  rodata : (Stretch.mk image.header.rodataVaddr image.header.rodataSize
    (image.byte image.rodata)).Same (classStretch elf (rodataSegments elf))
  data : (Stretch.mk image.header.dataVaddr image.header.dataSize
    (image.byte image.data)).Same (classStretch elf (dataSegments elf))
  bss : (Stretch.mk (bssStart image.header end') image.header.bssSize fun _ => 0).Same
    (bssStretch elf)

theorem Planned.written (h : Planned elf image end') (a : Word) :
    written (stretches image (bssStart image.header end')) a = written (plan elf) a :=
  written_congr (.cons h.code (.cons h.rodata (.cons h.data (.cons h.bss .nil)))) a

/-- The loader finds the start of the BSS where the plan has it. -/
theorem bssStart_planned {code rodata data : ℕ → BitVec 8}
    (codeSame : (Stretch.mk image.header.codeVaddr image.header.codeSize code).Same
      (classStretch elf (codeSegments elf)))
    (rodataSame : (Stretch.mk image.header.rodataVaddr image.header.rodataSize rodata).Same
      (classStretch elf (rodataSegments elf)))
    (dataSame : (Stretch.mk image.header.dataVaddr image.header.dataSize data).Same
      (classStretch elf (dataSegments elf)))
    {span : Word × Word} (ok : imageSpan image.header = .ok span)
    (some : image.header.bssSize ≠ 0) :
    bssStart image.header span.2 = (bssStretch elf).start := by
  have codeSize := codeSame.size
  have rodataSize := rodataSame.size
  have dataSize := dataSame.size
  dsimp only at codeSize rodataSize dataSize
  rw [bssStart, if_neg some, bssStretch]
  dsimp only
  rw [← codeSize, ← rodataSize, ← dataSize]
  by_cases noData : image.header.dataSize = 0
  swap
  · rw [if_pos noData, if_pos noData]
    exact congrArg (· + image.header.dataSize) (dataSame.start noData)
  rw [if_neg (not_not.mpr noData), if_neg (not_not.mpr noData)]
  by_cases noCode : image.header.codeSize = 0
  swap
  · rw [if_pos noCode, if_pos noCode]
    exact congrArg (· + image.header.codeSize) (codeSame.start noCode)
  obtain ⟨someRodata, stop⟩ := imageSpan_rodata noCode noData ok
  rw [if_neg (not_not.mpr noCode), if_neg (not_not.mpr noCode), stop]
  exact congrArg (fun start => alignUp (start + image.header.rodataSize))
    (rodataSame.start someRodata)

/-- An image that the kernel parses has been packed as planned. -/
theorem packed_planned {packed : Packed} {span : Word × Word} (small : elfSize.toNat < 2^60)
    (h : riruPack elf elfSize = some packed)
    (parsed : riruParse (some packed.image) packed.imageSize = .ok image)
    (ok : imageSpan image.header = .ok span) :
    image.header = readHeader packed.image ∧ Planned elf image span.2 := by
  have accepted : riruValidate (some packed.image) packed.imageSize = 0 := by
    by_contra refused
    rw [riruParse, if_pos refused] at parsed
    cases parsed
  have faithful := riruPack_faithful small h accepted parsed
  have same : image.header = readHeader packed.image := by
    rw [← Except.ok.inj ((riruParse_ok accepted).symm.trans parsed)]
  obtain ⟨segments, merged, rfl⟩ := Option.map_eq_some_iff.mp h
  obtain ⟨_, _, st⟩ := packHeader_stacked (packSegments_inside merged) small
    (readElfHeader elf).entry
  have header : image.header = packHeader (readElfHeader elf).entry segments := by
    rw [same]
    exact readHeader_emitImage st
  obtain ⟨codeBytes, rodataBytes, dataBytes⟩ :=
    show (∀ i < segments.code.filesz.toNat,
        image.byte image.code i = elf (segments.code.offset + BitVec.ofNat 64 i)) ∧
      (∀ i < segments.rodata.filesz.toNat,
        image.byte image.rodata i = elf (segments.rodata.offset + BitVec.ofNat 64 i)) ∧
      ∀ i < segments.data.filesz.toNat,
        image.byte image.data i = elf (segments.data.offset + BitVec.ofNat 64 i) from
    ⟨faithful.code.2, faithful.rodata.2, faithful.data.2⟩
  obtain ⟨code, rodata, data, bss⟩ := packSegments_classes merged
  obtain ⟨insideCode, insideRodata, insideData⟩ := classes_inside (packSegments_loaded merged)
  obtain ⟨-, codeStart, codeSize, codeByte⟩ := @classStretch_merged elf _ _ insideCode
  obtain ⟨rodataStart, -, rodataSize, rodataByte⟩ := @classStretch_merged elf _ _ insideRodata
  obtain ⟨dataStart, -, dataSize, dataByte⟩ := @classStretch_merged elf _ _ insideData
  rw [← code] at codeStart codeSize codeByte
  rw [← rodata] at rodataStart rodataSize rodataByte
  rw [← data] at dataStart dataSize dataByte
  have codeSame : (Stretch.mk image.header.codeVaddr image.header.codeSize
      (image.byte image.code)).Same (classStretch elf (codeSegments elf)) := by
    rw [header]
    exact ⟨codeSize, fun _ => codeStart, fun i lt => (codeBytes i lt).trans (codeByte i lt)⟩
  have rodataSame : (Stretch.mk image.header.rodataVaddr image.header.rodataSize
      (image.byte image.rodata)).Same (classStretch elf (rodataSegments elf)) := by
    rw [header]
    exact ⟨rodataSize, fun _ => rodataStart,
      fun i lt => (rodataBytes i lt).trans (rodataByte i lt)⟩
  have dataSame : (Stretch.mk image.header.dataVaddr image.header.dataSize
      (image.byte image.data)).Same (classStretch elf (dataSegments elf)) := by
    rw [header]
    exact ⟨dataSize, fun _ => dataStart, fun i lt => (dataBytes i lt).trans (dataByte i lt)⟩
  refine ⟨same, codeSame, rodataSame, dataSame, ?_, fun some => ?_, fun _ _ => rfl⟩
  · rw [header]
    exact bss
  · exact bssStart_planned codeSame rodataSame dataSame ok some

variable {packed : Packed} {bytes : Bytes} {span : Word × Word}

/-- An image parsed in a buffer has been packed as planned. -/
theorem buffer_planned (small : elfSize.toNat < 2^60) (h : riruPack elf elfSize = some packed)
    (same : SameBytes packed.imageSize packed.image bytes)
    (parsed : riruParse (some bytes) packed.imageSize = .ok image)
    (ok : imageSpan image.header = .ok span) :
    image.header = readHeader packed.image ∧ Planned elf image span.2 := by
  obtain ⟨parsed', sections⟩ := riruParse_congr same parsed
  obtain ⟨header, planned⟩ := packed_planned small h parsed' ok
  have code := sections (image.code, image.header.codeSize) List.mem_cons_self
  have rodata := sections (image.rodata, image.header.rodataSize)
    (List.mem_cons_of_mem _ List.mem_cons_self)
  have data := sections (image.data, image.header.dataSize)
    (List.mem_cons_of_mem _ (List.mem_cons_of_mem _ List.mem_cons_self))
  exact ⟨header, {
    code := ⟨planned.code.size, planned.code.start,
      fun i lt => (code i lt).trans (planned.code.byte i lt)⟩
    rodata := ⟨planned.rodata.size, planned.rodata.start,
      fun i lt => (rodata i lt).trans (planned.rodata.byte i lt)⟩
    data := ⟨planned.data.size, planned.data.start,
      fun i lt => (data i lt).trans (planned.data.byte i lt)⟩
    bss := planned.bss }⟩

/-- The packed image begins with its header, and ends where `imageSize` says. -/
theorem packed_header (small : elfSize.toNat < 2^60) (h : riruPack elf elfSize = some packed) :
    128 ≤ packed.imageSize.toNat ∧
      (readHeader packed.image).entry = (readElfHeader elf).entry := by
  obtain ⟨segments, merged, rfl⟩ := Option.map_eq_some_iff.mp h
  obtain ⟨code, rodata, st⟩ := packHeader_stacked (packSegments_inside merged) small
    (readElfHeader elf).entry
  have start := st.start
  have codeEnd := st.codeEnd
  have rodataEnd := st.rodataEnd
  constructor
  · change 128 ≤ (packHeader (readElfHeader elf).entry segments).imageSize.toNat
    omega
  · exact congrArg RiruHeader.entry (readHeader_emitImage st)

structure PackedInMemory (packed : Packed) (place : Places) (k : Kernel) (file : Word) : Prop where
  nonzero : file ≠ 0
  held : Held place k file packed.imageSize
  same : SameBytes packed.imageSize packed.image fun i => k.byteAt (file + i)

theorem LoadRuns.header {result : RiruLoadResult} {file : Word} (inside : PackedInMemory packed place k file)
    (runs : LoadRuns b file packed.imageSize k result k' image k₁) (small : elfSize.toNat < 2^60)
    (pack : riruPack elf elfSize = some packed) :
    image.header = readHeader packed.image ∧ Planned elf image result.imageEnd := by
  have parsed := runs.parsed
  rw [Kernel.fileAt, if_neg inside.nonzero] at parsed
  exact buffer_planned small pack inside.same parsed runs.span

section
variable (h : KeptLoad image end' pages place k u place₁ k₁ k')
include h

theorem KeptLoad.user : physicalToTable k'.riruUserCr3 = u := by
  have lt := h.prepared.space.lt
  rw [h.finished.statics]
  exact (congrArg physicalToTable h.prepared.user).trans (physicalToTable_pageAddress (by omega))

variable (sub : imagePages image.header end' ⊆ pages)
include sub

theorem KeptLoad.allows {mask a : Word} (mem : pageOf a ∈ pages) :
    k'.allows mask u a = k₁.allows mask u a := by
  refine grants_tables fun {l i t} on hw => h.finished.off t fun here => ?_
  rw [path_eq] at on
  exact h.own mem on hw (sub here)

theorem KeptLoad.opened {a : Word} (mem : pageOf a ∈ imagePages image.header end') :
    k'.allows pageUser u a = true ∧ k'.allows pageWritable u a = true := by
  have opened := h.prepared.opened (pageOf a) (.inl mem)
  rw [h.allows sub (sub mem), h.allows sub (sub mem), Kernel.allows, Kernel.allows, path_eq]
  exact ⟨opened.user, opened.writable⟩

/-- A page that is neither asked for nor open before is not open to the program. -/
theorem KeptLoad.shut {opened : Set ℕ} (only : UserOnly opened k) {a : Word}
    (mem : pageOf a ∈ pages) (low : pageOf a < 1048576)
    (off : pageOf a ∉ opened ∪ programPages image.header end') :
    k'.allows pageUser u a = false := by
  have shut := h.prepared.space.shut h.spaces
    (h.only _ (only.mono Set.subset_union_left) Set.subset_union_right) low off
  rw [h.allows sub mem, Kernel.allows, path_eq, ← shut, Kernel.allows, path_eq,
    pageOf_pageAddress (by omega)]

end

/-- An ELF file of 180 bytes: the code at 176, a byte that belongs to no segment at 178, and the
second segment from 179 on. -/
def twoSegments (flags : BitVec 8) (vaddr filesz memsz : ℕ) : Bytes := fun a =>
  (elfStart 0x3300000 2 ++ elfSegment 5 176 0x3300000 2 2 ++ elfSegment flags 179 vaddr filesz memsz ++
    [0xEB, 0xFE, 0x90, 0xC3]).getD a.toNat 0

def codeSegment : ProgramHeader := ⟨1, 5, 176, 0x3300000, 2, 2⟩

def packedRead (packed : Packed) : FileRead where
  size := packed.imageSize.setWidth 32
  content := if packed.imageSize.toNat < 2^32 then some (packed.image, packed.imageSize) else none
  fits c given := by
    split_ifs at given with short
    obtain rfl := Option.some.inj given
    rw [BitVec.toNat_setWidth, Nat.mod_eq_of_lt short]

structure PackedLoad (packed : Packed) (k₀ : Kernel) (start : ℕ) (k : Kernel) (place : Places)
    (result : RiruLoadResult) (k' : Kernel) : Prop where
  booted : Booted desktopLayout k₀
  filled : ∃ k₁, Filled (packedRead packed) packed.image packed.imageSize k₀ start k₁ k
  spaces : Spaces place k
  only : UserOnly ∅ k
  room : k.pmm.Room 0x32F0 0x4000
  inside : PackedInMemory packed place k (pageAddress start + headerSize)
  load : (riruLoad desktopLayout (pageAddress start + headerSize) packed.imageSize).run k =
    (.loaded result, k')
  stop : result.imageEnd = 0x3301000
  keeps : KeepsFile (pageAddress start + headerSize) packed.imageSize k

theorem packed_loads (packed : Packed) (size : 0 < packed.imageSize.toNat)
    (short : packed.imageSize.toNat < 0x1000)
    (valid : riruValidate (some packed.image) packed.imageSize = 0)
    (page : OnePage (readHeader packed.image))
    (entry : (readHeader packed.image).entry = 0x3300000) :
    ∃ k₀ start k place result k', PackedLoad packed k₀ start k place result k' := by
  have width : ((packedRead packed).size.setWidth 64 : Word).toNat = packed.imageSize.toNat := by
    rw [packedRead, BitVec.toNat_setWidth, BitVec.toNat_setWidth]
    omega
  have content : (packedRead packed).content = some (packed.image, packed.imageSize) :=
    if_pos (by omega)
  obtain ⟨k₀, start, k₁, k, place, read⟩ := desktop_reads content (fun zero => by
      have none := congrArg BitVec.toNat zero
      rw [packedRead, BitVec.toNat_setWidth, show (0 : BitVec 32).toNat = 0 from rfl] at none
      omega) (by
      rw [kmallocPages_toNat (by omega), width]
      omega)
  have parsed := read.filled.parse
  rw [riruParse_ok valid] at parsed
  obtain ⟨result, k', run, stop, keeps⟩ := read.loads parsed page entry
  exact ⟨k₀, start, k, place, result, k', read.booted, ⟨k₁, read.filled⟩, read.spaces, read.only,
    read.room, ⟨read.filled.found.ptr_ne, read.held, read.filled.same⟩, run, stop, keeps⟩

end TinyOS.Memory
