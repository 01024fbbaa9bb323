import TinyOS.PackedProgram

set_option autoImplicit false

namespace TinyOS.Riru
open Memory

variable {elf : Bytes} {c d : ProgramHeader}

def writableSegments (elf : Bytes) : List ProgramHeader :=
  (programHeaders elf).filter fun ph => ph.type = ptLoad ∧ ph.flags &&& pfW ≠ 0

/-- One executable segment and one writable one, which do not overlap in memory. -/
structure OneEach (elf : Bytes) (c d : ProgramHeader) : Prop where
  code : codeSegments elf = [c]
  data : writableSegments elf = [d]
  apart : ∀ i < c.memsz.toNat, ∀ j < d.memsz.toNat,
    c.vaddr + BitVec.ofNat 64 i ≠ d.vaddr + BitVec.ofNat 64 j

/-- `[p_vaddr + p_filesz, p_vaddr + p_memsz)` -/
def ProgramHeader.ZeroPart (ph : ProgramHeader) (a : Word) : Prop :=
  ∃ j, ph.filesz.toNat ≤ j ∧ j < ph.memsz.toNat ∧ a = ph.vaddr + BitVec.ofNat 64 j

theorem dataSegments_eq (elf : Bytes) :
    dataSegments elf = (writableSegments elf).filter fun ph => ph.flags &&& pfX = 0 := by
  rw [writableSegments, List.filter_filter, dataSegments]
  refine List.filter_congr fun ph _ => ?_
  rw [Bool.eq_iff_iff, Bool.and_eq_true]
  simp only [decide_eq_true_eq]
  tauto

/-- The writable segment is not the executable one, unless it is empty. -/
theorem OneEach.dataSegments (h : OneEach elf c d) : dataSegments elf = [d] ∨ d.memsz = 0 := by
  rw [dataSegments_eq, h.data]
  by_cases exec : d.flags &&& pfX = 0
  · exact .inl (List.filter_cons_of_pos (decide_eq_true exec))
  · right
    have mem : d ∈ writableSegments elf := by
      rw [h.data]
      exact List.mem_singleton_self d
    obtain ⟨given, kind⟩ := List.mem_filter.mp mem
    have code : d ∈ codeSegments elf :=
      List.mem_filter.mpr ⟨given, decide_eq_true ⟨(of_decide_eq_true kind).1, exec⟩⟩
    rw [h.code, List.mem_singleton] at code
    rw [word_eq_zero]
    by_contra some
    have pos := Nat.pos_of_ne_zero some
    exact h.apart 0 (by rwa [← code]) 0 pos (by rw [code])

end TinyOS.Riru

namespace TinyOS.Memory
open RadixTables Riru

variable {u : ℕ} {place place₁ : Places} {k k₁ k' : Kernel} {b : Layout} {image : RiruImage}
  {end' : Word} {pages : Set ℕ} {elf : Bytes} {elfSize : Word} {packed : Packed}
  {c d : ProgramHeader} {result : RiruLoadResult}

def bssAddress (elf : Bytes) (c : ProgramHeader) : Word :=
  let rodata := classStretch elf (rodataSegments elf)
  if c.filesz ≠ 0 then c.vaddr + c.filesz else alignUp (rodata.start + rodata.size)

/-- The writable segment has bytes in the file or none in memory, or it begins where the loader
puts the BSS of a program without data. -/
def BssPlaced (elf : Bytes) (c d : ProgramHeader) : Prop :=
  d.filesz ≠ 0 ∨ d.memsz = 0 ∨ d.vaddr = bssAddress elf c

theorem classStretch_one (elf : Bytes) (ph : ProgramHeader) :
    (classStretch elf [ph]).start = ph.vaddr ∧ (classStretch elf [ph]).size = ph.filesz := by
  refine ⟨rfl, ?_⟩
  rw [classStretch, fileEnd, fileEnd]
  dsimp only
  rw [Nat.max_zero, Nat.add_sub_cancel_left, BitVec.ofNat_toNat, BitVec.setWidth_eq]

theorem oneEach_bss (one : OneEach elf c d) (some : d.filesz < d.memsz)
    (placed : BssPlaced elf c d) : (bssStretch elf).size = d.memsz - d.filesz ∧
      (bssStretch elf).start = d.vaddr + d.filesz := by
  have given := one.dataSegments.resolve_right fun zero => by
    rw [zero, BitVec.lt_def] at some
    exact absurd some (Nat.not_lt_zero _)
  obtain ⟨codeStart, codeSize⟩ := classStretch_one elf c
  obtain ⟨dataStart, dataSize⟩ := classStretch_one elf d
  rw [bssStretch, given, one.code]
  dsimp only
  rw [codeStart, codeSize, dataStart, dataSize]
  constructor
  · rw [List.foldl_cons, List.foldl_nil, addBss, if_pos some]
    exact BitVec.zero_add _
  by_cases empty : d.filesz = 0
  swap
  · rw [if_pos empty]
  have start : d.vaddr = bssAddress elf c := by
    refine (placed.resolve_left (not_not.mpr empty)).resolve_left fun zero => ?_
    rw [zero, empty] at some
    exact absurd some (by decide)
  rw [if_neg (not_not.mpr empty), empty, show d.vaddr + 0 = d.vaddr from BitVec.add_zero _, start]
  rfl

structure ZeroMapped (k : Kernel) (a : Word) : Prop where
  user : k.allows pageUser (physicalToTable k.riruUserCr3) a = true
  writable : k.allows pageWritable (physicalToTable k.riruUserCr3) a = true
  zero : k.virtualByte k.riruUserCr3 a = some 0

/-- The BSS of a program that has been loaded is open to it and holds 0. -/
theorem KeptLoad.bss (h : KeptLoad image end' pages place k u place₁ k₁ k')
    (sub : imagePages image.header end' ⊆ pages) {a : Word}
    (here : Covers (bssStart image.header end') image.header.bssSize a) : ZeroMapped k' a := by
  obtain ⟨user, writable⟩ := h.opened sub (.inr here.page)
  refine ⟨?_, ?_, h.content sub ?_⟩
  · rw [h.user]
    exact user
  · rw [h.user]
    exact writable
  · rw [← imageContent_eq, imageContent, if_pos here]

/-- The zero part of a segment is open to the program that was loaded last. -/
def BssKept (d : ProgramHeader) (k : Kernel) : Prop := ∀ a, d.ZeroPart a → ZeroMapped k a

theorem LoadRuns.asked {file size : Word} (runs : LoadRuns b file size k result k' image k₁)
    (hs : Spaces place k) (held : Held place k file size) {opened : Set ℕ}
    (only : UserOnly opened k) {a : Word} (low : a.toNat < 4294967296)
    (off : OffFile file size image.header result.imageEnd)
    (clear : ClearOfTables k
      (imagePages image.header result.imageEnd ∪ {pageOf a} ∪ rangeOf file size))
    (user : k'.allows pageUser (physicalToTable k'.riruUserCr3) a = true) :
    pageOf a ∈ opened ∪ programPages image.header result.imageEnd := by
  have page : pageOf a < 1048576 := by
    rw [pageOf]
    omega
  have sub : imagePages image.header result.imageEnd ⊆
      imagePages image.header result.imageEnd ∪ {pageOf a} ∪ rangeOf file size :=
    fun p mem => .inl (.inl mem)
  obtain ⟨u, place₁, kept⟩ := runs.kept hs held
    (Set.union_subset sub Set.subset_union_right) (fun p mem => by
    rcases mem with (mem | rfl) | mem
    · exact runs.low hs p mem
    · exact page
    · exact (held.inMemory runs.parsed).page_lt p mem) clear off
  by_contra none
  have shut := kept.shut sub only (.inl (.inr rfl)) page none
  rw [kept.user, shut] at user
  cases user

def bssElf : Bytes := twoSegments 6 0x3300010 1 17

theorem bssElf_packed : (riruPack bssElf 180).isSome = true := by decide +kernel

def bssPacked : Packed := (riruPack bssElf 180).get bssElf_packed

theorem bssPacked_valid : riruValidate (some bssPacked.image) bssPacked.imageSize = 0 := by
  decide +kernel

theorem bssPacked_page : OnePage (readHeader bssPacked.image) :=
  ⟨by decide +kernel, by decide +kernel, by decide +kernel, by decide +kernel, by decide +kernel⟩

theorem bssElf_segments : OneEach bssElf codeSegment ⟨1, 6, 179, 0x3300010, 1, 17⟩ where
  code := rfl
  data := rfl
  apart := by decide

def zeroElf : Bytes := twoSegments 6 0x3400000 0 16

theorem zeroElf_packed : (riruPack zeroElf 180).isSome = true := by decide +kernel

def zeroPacked : Packed := (riruPack zeroElf 180).get zeroElf_packed

theorem zeroPacked_valid :
    riruValidate (some zeroPacked.image) zeroPacked.imageSize = 0 := by decide +kernel

theorem zeroPacked_page : OnePage (readHeader zeroPacked.image) :=
  ⟨by decide +kernel, by decide +kernel, by decide +kernel, by decide +kernel, by decide +kernel⟩

theorem zeroElf_segments : OneEach zeroElf codeSegment ⟨1, 6, 179, 0x3400000, 0, 16⟩ where
  code := rfl
  data := rfl
  apart := by decide

end TinyOS.Memory
