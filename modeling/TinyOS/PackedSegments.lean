import TinyOS.PackedProgram

set_option autoImplicit false

namespace TinyOS.Memory
open RadixTables Riru

variable {place : Places} {k k' : Kernel} {b : Layout} {elf : Bytes} {elfSize : Word}
  {packed : Packed} {result : RiruLoadResult} {l : List ProgramHeader}

def keptSegments (elf : Bytes) : List ProgramHeader :=
  codeSegments elf ++ rodataSegments elf ++ dataSegments elf

/-- The file part of every segment is in memory for the program that was loaded last. -/
def SegmentsKept (elf : Bytes) (k : Kernel) : Prop :=
  ∀ q ∈ keptSegments elf, ∀ j < q.filesz.toNat,
    k.virtualByte k.riruUserCr3 (q.vaddr + BitVec.ofNat 64 j) =
      some (elf (q.offset + BitVec.ofNat 64 j))

def PlanKeeps (elf : Bytes) : Prop :=
  ∀ q ∈ keptSegments elf, ∀ j < q.filesz.toNat,
    written (plan elf) (q.vaddr + BitVec.ofNat 64 j) = some (elf (q.offset + BitVec.ofNat 64 j))

instance (elf : Bytes) : Decidable (PlanKeeps elf) :=
  inferInstanceAs (Decidable (∀ q ∈ keptSegments elf, ∀ j < q.filesz.toNat, _ = _))

def InStep (l : List ProgramHeader) : Prop :=
  ∀ p, l.head? = some p → ∀ q ∈ l, p.offset.toNat ≤ q.offset.toNat ∧
    q.vaddr.toNat+p.offset.toNat = p.vaddr.toNat+q.offset.toNat ∧
    q.vaddr.toNat+q.filesz.toNat ≤ 2^64

theorem fileEnd_ge {q : ProgramHeader} (mem : q ∈ l) :
    q.offset.toNat+q.filesz.toNat ≤ fileEnd l := fileEnd_le.mp le_rfl q mem

/-- The stretch of a class then has the bytes of each of its segments. -/
theorem InStep.has (step : InStep l) (inside : ∀ q ∈ l, q.Inside elfSize) {q : ProgramHeader}
    (mem : q ∈ l) {j : ℕ} (lt : j < q.filesz.toNat) :
    (classStretch elf l).Has (q.vaddr + BitVec.ofNat 64 j) ∧
      (classStretch elf l).at (q.vaddr + BitVec.ofNat 64 j) =
        elf (q.offset + BitVec.ofNat 64 j) := by
  cases l with
  | nil => cases mem
  | cons p rest =>
    obtain ⟨le, offset, high⟩ := step p rfl q mem
    have ends := fileEnd_ge mem
    have bound : fileEnd (p :: rest) ≤ elfSize.toNat := fileEnd_le.mpr inside
    have small := elfSize.isLt
    have size : (classStretch elf (p :: rest)).size.toNat = fileEnd (p :: rest)-p.offset.toNat := by
      rw [classStretch, BitVec.toNat_ofNat]
      omega
    have address : (q.vaddr + BitVec.ofNat 64 j).toNat = q.vaddr.toNat+j := by
      rw [BitVec.toNat_add, BitVec.toNat_ofNat]
      omega
    have start : (classStretch elf (p :: rest)).start = p.vaddr := rfl
    refine ⟨⟨?_, ?_⟩, ?_⟩
    · rw [start, address]
      omega
    · rw [start, address, size]
      omega
    · rw [Stretch.at, start, address, classStretch]
      dsimp only
      congr 1
      apply BitVec.eq_of_toNat_eq
      rw [BitVec.toNat_add, BitVec.toNat_add, BitVec.toNat_ofNat, BitVec.toNat_ofNat]
      omega

/-- A file whose classes are in step is packed right when its stretches agree where they meet. -/
theorem planKeeps_of_inStep
    (loaded : ∀ ph ∈ programHeaders elf, ph.type = ptLoad → ph.Inside elfSize)
    (code : InStep (codeSegments elf)) (rodata : InStep (rodataSegments elf))
    (data : InStep (dataSegments elf)) (agree : Agree (plan elf)) : PlanKeeps elf := by
  obtain ⟨insideCode, insideRodata, insideData⟩ := classes_inside loaded
  have kept {l : List ProgramHeader} (mem : classStretch elf l ∈ plan elf) (step : InStep l)
      (inside : ∀ q ∈ l, q.Inside elfSize) : ∀ q ∈ l, ∀ j < q.filesz.toNat,
      written (plan elf) (q.vaddr + BitVec.ofNat 64 j) =
        some (elf (q.offset + BitVec.ofNat 64 j)) := by
    intro q given j lt
    obtain ⟨here, same⟩ := @InStep.has elf _ _ step inside _ given _ lt
    rw [written_iff.mpr agree _ mem _ here, same]
  intro q mem
  rcases List.mem_append.mp mem with mem | mem
  · rcases List.mem_append.mp mem with mem | mem
    · exact kept List.mem_cons_self code insideCode q mem
    · exact kept (List.mem_cons_of_mem _ List.mem_cons_self) rodata insideRodata q mem
  · exact kept (List.mem_cons_of_mem _ (List.mem_cons_of_mem _ List.mem_cons_self)) data
      insideData q mem

/-- Where the plan has a byte a load of the packed file leaves it. -/
theorem LoadRuns.planned {file : Word} {image : RiruImage} {k₁ : Kernel}
    (runs : LoadRuns b file packed.imageSize k result k' image k₁) (hs : Spaces place k)
    (inside : PackedInMemory packed place k file) (small : elfSize.toNat < 2^60)
    (pack : riruPack elf elfSize = some packed)
    (keeps : KeepsFile file packed.imageSize k) {a : Word} {v : BitVec 8}
    (left : written (plan elf) a = some v) :
    k'.virtualByte k'.riruUserCr3 a = some v := by
  obtain ⟨-, planned⟩ := runs.header inside small pack
  obtain ⟨u, place₁, kept⟩ := runs.clear hs inside.held (runs.copyClear keeps)
  exact kept.content Set.subset_union_left ((planned.written a).trans left)

def SegmentsApart (elf : Bytes) : Prop :=
  ((programHeaders elf).filter fun ph => ph.type = ptLoad).Pairwise fun p q =>
    ∀ i < p.memsz.toNat, ∀ j < q.memsz.toNat,
      p.vaddr + BitVec.ofNat 64 i ≠ q.vaddr + BitVec.ofNat 64 j

instance (elf : Bytes) : Decidable (SegmentsApart elf) :=
  inferInstanceAs (Decidable (List.Pairwise _ _))

def stepElf : Bytes := twoSegments 5 0x3300003 1 1

theorem stepElf_packed : (riruPack stepElf 180).isSome = true := by decide +kernel

def stepPacked : Packed := (riruPack stepElf 180).get stepElf_packed

theorem stepPacked_valid : riruValidate (some stepPacked.image) stepPacked.imageSize = 0 := by
  decide +kernel

theorem stepPacked_page : OnePage (readHeader stepPacked.image) :=
  ⟨by decide +kernel, by decide +kernel, by decide +kernel, by decide +kernel, by decide +kernel⟩

theorem stepElf_keeps : PlanKeeps stepElf := by decide +kernel

/-- The second segment follows the first one in memory, but not in the file. -/
def gapElf : Bytes := twoSegments 5 0x3300002 1 1

theorem gapElf_packed : (riruPack gapElf 180).isSome = true := by decide +kernel

def gapPacked : Packed := (riruPack gapElf 180).get gapElf_packed

theorem gapPacked_valid : riruValidate (some gapPacked.image) gapPacked.imageSize = 0 := by
  decide +kernel

theorem gapPacked_page : OnePage (readHeader gapPacked.image) :=
  ⟨by decide +kernel, by decide +kernel, by decide +kernel, by decide +kernel, by decide +kernel⟩

end TinyOS.Memory
