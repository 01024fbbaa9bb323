import TinyOS.ElfBounds

set_option autoImplicit false

namespace TinyOS.Elf
open EventLogs Memory RadixTables Riru

variable {place : Places} {k k₀ : Kernel} {file size : Word} {bytes : Bytes} {ph : ProgramHeader}
  {P : ElfEvent → Prop}

def segmentBytes (bytes : Bytes) (size : Word) : Set Word :=
  {a | ∃ ph, Segment bytes size ph ∧ Covers ph.vaddr ph.memsz a}

def headerBytes (file : Word) (bytes : Bytes) : Set Word := {a | ∃ i, HeaderByte bytes i ∧ a = file + i}

theorem mem_segmentPages (high : ph.vaddr.toNat+ph.memsz.toNat ≤ 0x40000000) {va : Word} :
    va ∈ segmentPages ph ↔ ∃ p, ph.vaddr.toNat/4096 ≤ p ∧
      p < (ph.vaddr.toNat+ph.memsz.toNat+4095)/4096 ∧ va = pageAddress p := by
  have sum : (ph.vaddr + ph.memsz).toNat = ph.vaddr.toNat+ph.memsz.toNat := by
    rw [BitVec.toNat_add]
    omega
  have down := alignDown_toNat ph.vaddr
  have up : (alignUp (ph.vaddr + ph.memsz)).toNat =
      (ph.vaddr.toNat+ph.memsz.toNat+4095)/4096*4096 := by
    rw [alignUp_toNat (by omega), sum]
  have count : ((alignUp (ph.vaddr + ph.memsz) - alignDown ph.vaddr)/pageSize).toNat =
      (ph.vaddr.toNat+ph.memsz.toNat+4095)/4096-ph.vaddr.toNat/4096 := by
    rw [BitVec.toNat_udiv, BitVec.toNat_sub_of_le (BitVec.le_def.mpr (by omega)), down, up,
      show pageSize.toNat = 4096 from rfl]
    omega
  have address (n : ℕ) : alignDown ph.vaddr + BitVec.ofNat 64 n*pageSize =
      pageAddress (ph.vaddr.toNat/4096+n) := by
    rw [alignDown_eq, show pageSize = BitVec.ofNat 64 4096 from rfl, ← BitVec.ofNat_mul,
      pageAddress_add]
  simp only [segmentPages, List.mem_map, List.mem_range, count, address]
  constructor
  · rintro ⟨n, lt, rfl⟩
    exact ⟨_, Nat.le_add_right _ _, by omega, rfl⟩
  · rintro ⟨p, le, lt, rfl⟩
    exact ⟨p-ph.vaddr.toNat/4096, by omega, by rw [Nat.add_sub_cancel' le]⟩

/-- The pages of the headers, and those that the second loop looks up for the segments. -/
def loadPages (file size : Word) (bytes : Bytes) : Set ℕ :=
  {p | (∃ a ∈ headerBytes file bytes, pageOf a = p) ∨
    ∃ ph, Segment bytes size ph ∧ ∃ va ∈ segmentPages ph, pageOf va = p}

/-- The pages looked up are below 4 GB, where all but page 0 are mapped already. -/
def PagesLow (bytes : Bytes) (size : Word) : Prop :=
  ∀ ph, Segment bytes size ph → ∀ va ∈ segmentPages ph, va ≠ 0 ∧ pageOf va < 1048576

/-- The segments lie neither over the headers nor over a table that translates them or the
headers. -/
structure SegmentsClear (file size : Word) (bytes : Bytes) (k : Kernel) : Prop where
  headers : ∀ a ∈ segmentBytes bytes size, a ∉ headerBytes file bytes
  tables : ∀ ⦃p⦄, p ∈ loadPages file size bytes → ∀ ⦃l i t⦄, (l ++ [i]) <+: pagePath p →
    walk child k.memory k.kernelPml4 l = some t → ∀ a ∈ segmentBytes bytes size, pageOf a ≠ t

theorem mapPages_run {l : List Word} {s : Kernel × List ElfEvent}
    (mapped : ∀ va ∈ l, getPhysicalFrom s.1.memory s.1.currentPml4 va ≠ 0) :
    (mapPages l).run s = (0, s) := by
  induction l with
  | nil => rfl
  | cons va rest ih =>
    have here := mapped va List.mem_cons_self
    rw [mapPages, log_bind]
    change (if getPhysicalFrom s.1.memory s.1.currentPml4 va ≠ 0 then _ else _ : ElfM ℤ).run s = _
    rw [if_pos here]
    exact ih fun va' mem => mapped va' (List.mem_cons_of_mem va mem)

section
variable {covered : Set Word} {pages : Set ℕ}
  (c : CopyFrom place k₀.kernelPml4 covered pages k₀) (h : Copying covered k₀ k)
include c h

/-- During the copy the pages are mapped in the kernel's tables. -/
theorem mapped_kernel (kernel : k₀.currentPml4 = k₀.kernelPml4) {va : Word} (nonzero : va ≠ 0)
    (mem : pageOf va ∈ pages) : getPhysicalFrom k.memory k.currentPml4 va ≠ 0 := by
  have physical := (c.identity h mem).2
  have lt := c.space.lt
  have current : k.currentPml4 = k₀.kernelPml4 := by
    rw [h.statics]
    exact kernel
  have cr3 : physicalToTable k.cr3 = k₀.kernelPml4 := by
    rw [h.statics]
    change physicalToTable k₀.cr3 = _
    rw [c.active, physicalToTable_pageAddress (by omega)]
  rw [Kernel.physical, cr3, ← current] at physical
  rwa [physical]

/-- A program header of a file that is in memory at this moment. -/
theorem programHeaderAt_eq (small : size.toNat < 2^63) (valid : elfValidate (some bytes) size = 0)
    (page : ∀ i, HeaderByte bytes i → pageOf (file + i) ∈ pages)
    (same : ∀ i, HeaderByte bytes i → k.byteAt (file + i) = bytes i) (i : BitVec 16) :
    programHeaderAt k file size i = some (elfGetProgramHeader (some bytes) size i) := by
  have byte : ∀ j, HeaderByte bytes j → k.byteAt (k.physical (file + j)) = bytes j := by
    intro j mem
    rw [(c.identity h (page j mem)).2, same j mem]
  have there {a : Word} {n : ℕ} (part : ∀ j < n, HeaderByte bytes (a + BitVec.ofNat 64 j)) :
      readable k (file + a) n = true := by
    refine List.all_eq_true.mpr fun j mem => ?_
    rw [BitVec.add_assoc]
    exact (c.identity h (page _ (part j (List.mem_range.mp mem)))).1
  have head : readable k file 64 = true := by
    have first := there (a := 0) (n := 64) fun j lt => .inl (by
      rw [BitVec.toNat_add, BitVec.toNat_ofNat, show (0 : Word).toNat = 0 from rfl]
      omega)
    rwa [show file + 0 = file from BitVec.add_zero file] at first
  rw [programHeaderAt]
  dsimp only
  rw [head, if_neg (by decide), elfGetProgramHeader_congr small valid byte]
  cases found : elfGetProgramHeader (some bytes) size i with
  | error code => rfl
  | ok ph =>
    obtain ⟨lt, -, -⟩ := elfGetProgramHeader_inside small found
    obtain ⟨entrySize, range⟩ := elfValidate_inside small valid
    have below := BitVec.lt_def.mp lt
    have entryWord : ((readHeader bytes).phentsize.setWidth 64 : Word).toNat = 56 := by
      rw [BitVec.toNat_setWidth, entrySize]
    dsimp only
    rw [readHeader_congr fun j lt => byte j (.inl lt), there, if_pos rfl]
    intro j small'
    right
    rw [BitVec.toNat_add, BitVec.toNat_add, BitVec.toNat_mul, entryWord, BitVec.toNat_setWidth,
      BitVec.toNat_ofNat]
    omega

end

/-- A file that has passed the first loop, in the memory of a kernel in its own space. -/
structure PassedFile (place : Places) (file size : Word) (bytes : Bytes) (k : Kernel) : Prop where
  spaces : Spaces place k
  kernel : k.InKernelSpace
  content : ∀ i, bytes i = k.byteAt (file + i)
  low : file.toNat+size.toNat ≤ 4294967296
  valid : elfValidate (some bytes) size = 0
  checked : ∀ ph, Segment bytes size ph → Checked size ph

section
variable (passed : PassedFile place file size bytes k₀)
include passed

theorem PassedFile.small : size.toNat < 2^63 := by
  have low := passed.low
  omega

theorem PassedFile.header_lt {i : Word} (mem : HeaderByte bytes i) : i.toNat < size.toNat :=
  mem.lt passed.small passed.valid

theorem PassedFile.header_address {i : Word} (mem : HeaderByte bytes i) :
    (file + i).toNat = file.toNat+i.toNat := by
  have lt := passed.header_lt mem
  have low := passed.low
  rw [BitVec.toNat_add]
  omega

variable (low : PagesLow bytes size) (clear : SegmentsClear file size bytes k₀)
include low clear

/-- The stores of the second loop are a copy in the space of the kernel. -/
theorem PassedFile.copyFrom : CopyFrom place k₀.kernelPml4 (segmentBytes bytes size)
    (loadPages file size bytes) k₀ where
  spaces := passed.spaces
  space := kernelSpace passed.spaces
  own := clear.tables
  active := passed.kernel.2.trans passed.spaces.cr3
  sub := by
    rintro a ⟨ph, segment, le, lt⟩
    obtain ⟨-, -, range⟩ := passed.checked ph segment
    rcases range with zero | ⟨bottom, top⟩
    · rw [zero] at lt
      exact absurd lt (by simpa using le)
    refine .inr ⟨ph, segment, pageAddress (pageOf a), ?_, pageOf_pageAddress ?_⟩
    · rw [mem_segmentPages top, pageOf]
      exact ⟨_, by omega, by omega, rfl⟩
    · rw [pageOf]
      omega
  low := by
    rintro p (⟨a, ⟨i, mem, rfl⟩, rfl⟩ | ⟨ph, segment, va, mem, rfl⟩)
    · have lt := passed.header_lt mem
      have below := passed.low
      rw [pageOf, passed.header_address mem]
      omega
    · exact (low ph segment va mem).2

theorem PassedFile.programHeader (h : Copying (segmentBytes bytes size) k₀ k) (i : BitVec 16) :
    programHeaderAt k file size i = some (elfGetProgramHeader (some bytes) size i) := by
  refine programHeaderAt_eq (passed.copyFrom low clear) h passed.small passed.valid
    (fun j mem => .inl ⟨_, ⟨j, mem, rfl⟩, rfl⟩) (fun j mem => ?_) i
  rw [h.kept _ fun here => clear.headers _ here ⟨j, mem, rfl⟩, passed.content]

theorem PassedFile.mapPages {l : List Word}
    (pages : ∀ va ∈ l, va ≠ 0 ∧ pageOf va ∈ loadPages file size bytes) :
    Guards (Copying (segmentBytes bytes size) k₀) P (mapPages l) := by
  intro s here
  have c := passed.copyFrom low clear
  rw [mapPages_run fun va mem =>
    mapped_kernel c here passed.kernel.1 (pages va mem).1 (pages va mem).2]
  exact Guards.pure (0 : ℤ) s here

theorem PassedFile.store (segment : Segment bytes size ph) {j : ℕ} (lt : j < ph.memsz.toNat)
    (event : P (.stored (ph.vaddr + BitVec.ofNat 64 j))) (v : BitVec 8) :
    Guards (Copying (segmentBytes bytes size) k₀) P
      (store (ph.vaddr + BitVec.ofNat 64 j) v) := by
  have c := passed.copyFrom low clear
  obtain ⟨bottom, top⟩ := (passed.checked ph segment).range.resolve_left fun zero => by
    rw [zero] at lt
    exact absurd lt (Nat.not_lt_zero j)
  have address : (ph.vaddr + BitVec.ofNat 64 j).toNat = ph.vaddr.toNat+j :=
    toNat_add_ofNat (by omega)
  have mem : ph.vaddr + BitVec.ofNat 64 j ∈ segmentBytes bytes size :=
    ⟨ph, segment, by omega, by omega⟩
  refine Guards.bind (Guards.emit fun _ => event) fun _ => Guards.silent fun k h => ?_
  rw [c.store h mem]
  exact h.storeByte mem v

theorem PassedFile.copyBytes (segment : Segment bytes size ph) (source : Word) {l : List ℕ}
    (lt : ∀ j ∈ l, j < ph.memsz.toNat)
    (stored : ∀ j ∈ l, P (.stored (ph.vaddr + BitVec.ofNat 64 j)))
    (copied : ∀ j ∈ l, P (.copied (source + BitVec.ofNat 64 j))) :
    Guards (Copying (segmentBytes bytes size) k₀) P (copyBytes ph.vaddr source l) := by
  induction l with
  | nil => exact .pure true
  | cons j rest ih =>
    have later := ih (fun j' mem => lt j' (List.mem_cons_of_mem j mem))
      (fun j' mem => stored j' (List.mem_cons_of_mem j mem))
      fun j' mem => copied j' (List.mem_cons_of_mem j mem)
    have store (v : BitVec 8) := passed.store low clear segment (lt j List.mem_cons_self)
      (stored j List.mem_cons_self) v
    refine Guards.bind (Guards.emit fun _ => copied j List.mem_cons_self) fun _ =>
      Guards.read fun k _ => ?_
    cases k.loadByte (source + BitVec.ofNat 64 j) with
    | none => exact .pure _
    | some v => exact (store v).bind fun _ => .ite (.pure _) later

theorem PassedFile.zeroBytes (segment : Segment bytes size ph) {l : List ℕ}
    (lt : ∀ j ∈ l, j < ph.memsz.toNat)
    (stored : ∀ j ∈ l, P (.stored (ph.vaddr + BitVec.ofNat 64 j))) :
    Guards (Copying (segmentBytes bytes size) k₀) P (zeroBytes ph.vaddr l) := by
  induction l with
  | nil => exact .pure true
  | cons j rest ih =>
    have later := ih (fun j' mem => lt j' (List.mem_cons_of_mem j mem))
      fun j' mem => stored j' (List.mem_cons_of_mem j mem)
    have store := passed.store low clear segment (lt j List.mem_cons_self)
      (stored j List.mem_cons_self) 0
    exact store.bind fun _ => .ite (.pure _) later

theorem PassedFile.loadSegment (segment : Segment bytes size ph)
    (stored : ∀ j < ph.memsz.toNat, P (.stored (ph.vaddr + BitVec.ofNat 64 j)))
    (copied : ∀ j < ph.filesz.toNat, P (.copied (file + ph.offset + BitVec.ofNat 64 j))) :
    Guards (Copying (segmentBytes bytes size) k₀) P (loadSegment file ph) := by
  have short := (passed.checked ph segment).short
  have pages : ∀ va ∈ segmentPages ph, va ≠ 0 ∧ pageOf va ∈ loadPages file size bytes :=
    fun va mem => ⟨(low ph segment va mem).1, .inr ⟨ph, segment, va, mem, rfl⟩⟩
  refine (passed.mapPages low clear pages).bind fun _ => .ite (.pure _) ?_
  refine (passed.copyBytes low clear segment _ (fun j mem => ?_) (fun j mem => stored j ?_)
    fun j mem => copied j (List.mem_range.mp mem)).bind fun _ => .ite (.pure _) ?_
  · have := List.mem_range.mp mem
    omega
  · have := List.mem_range.mp mem
    omega
  refine (passed.zeroBytes low clear segment (fun j mem => ?_) fun j mem => stored j ?_).bind
    fun _ => .pure _
  · have := List.mem_range'_1.mp mem
    omega
  · have := List.mem_range'_1.mp mem
    omega

variable (stored : ∀ ph, Segment bytes size ph → ∀ j < ph.memsz.toNat,
    P (.stored (ph.vaddr + BitVec.ofNat 64 j)))
  (copied : ∀ ph, Segment bytes size ph → ∀ j < ph.filesz.toNat,
    P (.copied (file + ph.offset + BitVec.ofNat 64 j)))
include stored copied

theorem PassedFile.loadSegments (l : List ℕ) :
    Guards (Copying (segmentBytes bytes size) k₀) P (loadSegments file size l) := by
  induction l with
  | nil => exact .pure _
  | cons i rest ih =>
    refine Guards.read fun k h => ?_
    rw [passed.programHeader low clear h]
    cases found : elfGetProgramHeader (some bytes) size (BitVec.ofNat 16 i) with
    | error code => exact .pure _
    | ok ph =>
      dsimp only
      by_cases loadable : elfIsLoadable ph = true
      · have segment : Segment bytes size ph := ⟨_, found, loadable⟩
        rw [loadable, if_neg (by decide)]
        exact (passed.loadSegment low clear segment (stored ph segment) (copied ph segment)).bind
          fun _ => .ite (.pure _) ih
      · rw [Bool.eq_false_iff.mpr loadable, if_pos (by decide)]
        exact ih

end

theorem elfGetHeader_ok {header : Elf64Header}
    (got : elfGetHeader (some bytes) size = .ok header) : header = readHeader bytes := by
  rw [elfGetHeader] at got
  split_ifs at got
  exact (Except.ok.inj got).symm

/-- What a load adds to the log, when the second loop is held to the segments checked before. -/
theorem elfLoad_log (hs : Spaces place k) (kernel : k.InKernelSpace)
    (given : k.fileAt file = some bytes) (fits : file.toNat+size.toNat ≤ 4294967296)
    (low : (∀ ph, Segment bytes size ph → Checked size ph) → PagesLow bytes size)
    (clear : SegmentsClear file size bytes k)
    (good : (∀ ph, Segment bytes size ph → Checked size ph) →
      ∀ ph, Segment bytes size ph →
        (∀ j < ph.memsz.toNat, P (.stored (ph.vaddr + BitVec.ofNat 64 j))) ∧
        ∀ j < ph.filesz.toNat, P (.copied (file + ph.offset + BitVec.ofNat 64 j))) :
    ∀ e ∈ ((elfLoad file size).run (k, [])).2.2, P e := by
  have none : ∀ e ∈ ([] : List ElfEvent), P e := fun e mem => absurd mem List.not_mem_nil
  rw [elfLoad, log_bind, show (silent get : ElfM Kernel).run (k, []) = (k, k, []) from rfl]
  dsimp only
  rw [given]
  split_ifs with null invalid
  · exact none
  · exact none
  cases got : elfGetHeader (some bytes) size with
  | error code => exact none
  | ok header =>
    obtain rfl := elfGetHeader_ok got
    dsimp only
    cases ok : checkSegments (some bytes) size (List.range (readHeader bytes).phnum.toNat)
      (uint64Max, 0) with
    | error code => exact none
    | ok span =>
      have content : ∀ i, bytes i = k.byteAt (file + i) := by
        intro i
        rw [Kernel.fileAt, if_neg null] at given
        rw [← Option.some.inj given]
      have passed : PassedFile place file size bytes k :=
        ⟨hs, kernel, content, fits, not_not.mp invalid, fun ph segment => segment.checked ok⟩
      have all := good passed.checked
      dsimp only
      split_ifs
      · exact none
      · exact none
      have guards := passed.loadSegments (low passed.checked) clear
        (fun ph segment => (all ph segment).1)
        (fun ph segment => (all ph segment).2) (List.range (readHeader bytes).phnum.toNat)
      obtain ⟨-, new, log, events⟩ := (guards.bind fun result =>
        .pure (endLoad (readHeader bytes).entry span.1 span.2 result)) (k, []) (Copying.refl _ k)
      rw [List.nil_append] at log
      exact fun e mem => events e (log ▸ mem)

end TinyOS.Elf
