import TinyOS.ElfCopies
import TinyOS.KernelTables

set_option autoImplicit false

/-! What `elf_load` reads of its file, and a file that makes it read behind the end: a segment
lies over the header (elf/elf.c, elf/loader.c). -/
namespace TinyOS.Elf
open EventLogs Memory RadixTables Riru

variable {place : Places} {k : Kernel} {bytes : Bytes} {size : Word} {n : ℕ}

/-- The kernel, in its own space, has the file at 0x3300000, and its tables lie below. -/
structure DesktopFile (place : Places) (bytes : Bytes) (n : ℕ) (k : Kernel) : Prop where
  spaces : Spaces place k
  kernel : k.InKernelSpace
  low : ∀ ⦃p l⦄, place p = some l → p < 0x3300
  content : ∀ i : Word, i.toNat < n → k.byteAt (0x3300000 + i) = bytes i

/-- The desktop after a file of at most a page has been stored at 0x3300000. -/
def storedFile (k : Kernel) (bytes : Bytes) (size : Word) : Kernel :=
  ((storeBytes 0x3300000 (readBytes bytes size)).run k).2

theorem desktop_file (bytes : Bytes) {size : Word} (short : size.toNat ≤ 4096) :
    ∃ k place, Booted desktopLayout k ∧
      DesktopFile place bytes size.toNat (storedFile k bytes size) := by
  obtain ⟨k, booted, room, -⟩ := desktop_booted
  obtain ⟨place, spaces, kernel, fit⟩ := booted.firstFit
  have low : ∀ ⦃p l⦄, place p = some l → p < 0x3300 := fun p l placed =>
    fit placed (room.free (by decide) (by decide))
  have stores : Stores {0x3300} (storeBytes 0x3300000 (readBytes bytes size)) := by
    refine storeBytes_stores fun j lt => ?_
    rw [readBytes_length] at lt
    rw [Set.mem_singleton_iff, pageOf, toNat_add_ofNat (by simp; omega),
      show (0x3300000 : Word).toNat = 0x3300000 from rfl]
    omega
  have apart := stores.apart spaces.sound fun p mem => by
    cases placed : place p with
    | none => rfl
    | some l => exact absurd (low placed) (by rw [mem]; decide)
  have statics : storedFile k bytes size = { k with memory := (storedFile k bytes size).memory } :=
    storeBytes_statics _ _ _
  refine ⟨k, place, booted, spaces.apart apart, ?_, low, fun i lt => ?_⟩
  · rw [statics]
    exact kernel
  · have address : (0x3300000 + i : Word).toNat = 0x3300000+i.toNat := by
      rw [BitVec.toNat_add, show (0x3300000 : Word).toNat = 0x3300000 from rfl]
      omega
    rw [storedFile, storeBytes_byte (n := size.toNat) (by simp; omega) (readBytes_length _ _),
      address, show (0x3300000 : Word).toNat = 0x3300000 from rfl, if_pos (by omega), readBytes,
      Nat.add_sub_cancel_left, List.getD_eq_getElem _ _ (by simpa using lt)]
    simp

def desktopBytes (k : Kernel) : Bytes := fun i => k.byteAt (0x3300000 + i)

theorem fileAt_desktop (k : Kernel) : k.fileAt 0x3300000 = some (desktopBytes k) := by
  rw [Kernel.fileAt, if_neg (by decide)]
  rfl

section
variable (desktop : DesktopFile place bytes size.toNat k)
include desktop

/-- The tables of a page that the kernel maps lie below the file. -/
theorem DesktopFile.table_lt {p t : ℕ} {l : List (Fin 512)} {i : Fin 512}
    (on : (l ++ [i]) <+: pagePath p) (walks : walk child k.memory k.kernelPml4 l = some t) :
    t < 0x3300 := by
  have short : ([] : List (Fin 512)).length+l.length ≤ 3 := by
    have le := on.length_le
    simp only [List.length_append, List.length_cons, List.length_nil, pagePath] at le ⊢
    omega
  exact desktop.low (desktop.spaces.sound.placed.place_walk desktop.spaces.root short walks)

theorem DesktopFile.copyFrom {covered : Set Word} {pages : Set ℕ}
    (sub : ∀ a ∈ covered, pageOf a ∈ pages) (above : ∀ p ∈ pages, 0x3300 ≤ p ∧ p < 1048576) :
    CopyFrom place k.kernelPml4 covered pages k where
  spaces := desktop.spaces
  space := kernelSpace desktop.spaces
  own := by
    intro p mem l i t on walks a here eq
    have low := desktop.table_lt on walks
    have high := (above _ (sub a here)).1
    omega
  active := desktop.kernel.2.trans desktop.spaces.cr3
  sub := sub
  low p mem := (above p mem).2

variable (short : size.toNat ≤ 4096) (accepted : elfValidate (some bytes) size = 0)
include short accepted

theorem DesktopFile.same {i : Word} (mem : HeaderByte bytes i) :
    (desktopBytes k) i = bytes i := desktop.content i (mem.lt (by omega) accepted)

theorem DesktopFile.readHeader : readHeader (desktopBytes k) = Elf.readHeader bytes :=
  readHeader_congr fun _ lt => desktop.same short accepted (.inl lt)

theorem DesktopFile.valid : elfValidate (some (desktopBytes k)) size = 0 :=
  (elfValidate_congr fun _ lt => desktop.same short accepted (.inl lt)).trans accepted

theorem DesktopFile.programHeader (i : BitVec 16) :
    elfGetProgramHeader (some (desktopBytes k)) size i =
      elfGetProgramHeader (some bytes) size i :=
  elfGetProgramHeader_congr (by omega) accepted (fun _ mem => desktop.same short accepted mem) i

theorem DesktopFile.segment (ph : ProgramHeader) :
    Segment (desktopBytes k) size ph ↔ Segment bytes size ph := by
  rw [Segment, Segment]
  simp only [desktop.programHeader short accepted]

theorem DesktopFile.checkSegments (l : List ℕ) (span : Word × Word) :
    checkSegments (some (desktopBytes k)) size l span =
      Elf.checkSegments (some bytes) size l span := by
  have one : checkSegment (some (desktopBytes k)) size =
      checkSegment (some bytes) size := by
    funext span i
    rw [checkSegment, checkSegment, desktop.programHeader short accepted]
  rw [Elf.checkSegments, Elf.checkSegments, one]

/-- Segments above the file lie over neither its headers nor the tables. -/
theorem DesktopFile.clear (above : ∀ a ∈ segmentBytes bytes size, 0x3301 ≤ pageOf a) :
    SegmentsClear 0x3300000 size (desktopBytes k) k where
  headers := by
    rintro a ⟨ph, segment, cover⟩ ⟨i, mem, rfl⟩
    have high := above _ ⟨ph, (desktop.segment short accepted ph).mp segment, cover⟩
    have lt := mem.lt (by omega) (desktop.valid short accepted)
    rw [pageOf, BitVec.toNat_add, show (0x3300000 : Word).toNat = 0x3300000 from rfl] at high
    omega
  tables := by
    rintro p - l i t on walks a ⟨ph, segment, cover⟩ eq
    have high := above _ ⟨ph, (desktop.segment short accepted ph).mp segment, cover⟩
    have low := desktop.table_lt on walks
    omega

theorem DesktopFile.elfLoad_run {base stop : Word} (span : Elf.checkSegments (some bytes) size
      (List.range (Elf.readHeader bytes).phnum.toNat) (uint64Max, 0) = .ok (base, stop))
    (some : base ≠ uint64Max) (pages : (stop - base)/pageSize ≠ 0) :
    (elfLoad 0x3300000 size).run (k, []) =
      (endLoad (Elf.readHeader bytes).entry base stop
          ((loadSegments 0x3300000 size
            (List.range (Elf.readHeader bytes).phnum.toNat)).run (k, [])).1,
        ((loadSegments 0x3300000 size
          (List.range (Elf.readHeader bytes).phnum.toNat)).run (k, [])).2) := by
  have valid := desktop.valid short accepted
  rw [elfLoad, log_bind, show (silent get : ElfM Kernel).run (k, []) = (k, k, []) from rfl]
  dsimp only
  rw [fileAt_desktop, if_neg (by decide), if_neg (not_not.mpr valid), elfGetHeader,
    if_neg (not_not.mpr valid)]
  dsimp only
  rw [desktop.readHeader short accepted, desktop.checkSegments short accepted, span]
  dsimp only
  rw [if_neg some, if_neg pages]
  rfl

end

section
variable {covered : Set Word} {pages : Set ℕ} {k₀ : Kernel} {log : List ElfEvent}
  (c : CopyFrom place k₀.kernelPml4 covered pages k₀) (h : Copying covered k₀ k)
include c h

theorem store_run {va : Word} (mem : va ∈ covered) (v : BitVec 8) : (store va v).run (k, log) =
    (true, ((storeByte va v).run k).2, log ++ [.stored va]) := by
  rw [store, log_bind]
  change (((storeVirtual va v).run k).1, ((storeVirtual va v).run k).2, _) = _
  rw [c.store h mem]
  rfl

theorem zeroBytes_one {va : Word} (mem : va ∈ covered) : (zeroBytes va [0]).run (k, log) =
    (true, ((storeByte va 0).run k).2, log ++ [.stored va]) := by
  rw [zeroBytes, show va + BitVec.ofNat 64 0 = va from BitVec.add_zero va, log_bind,
    store_run c h mem]
  rfl

theorem copyBytes_one {va source : Word} (mem : va ∈ covered) (page : pageOf source ∈ pages) :
    (copyBytes va source [0]).run (k, log) =
      (true, ((storeByte va (k.byteAt source)).run k).2, log ++ [.copied source, .stored va]) := by
  rw [copyBytes, show source + BitVec.ofNat 64 0 = source from BitVec.add_zero source,
    show va + BitVec.ofNat 64 0 = va from BitVec.add_zero va, log_bind, emit_run, log_read]
  dsimp only
  rw [c.loadByte h page]
  dsimp only
  rw [log_bind, store_run c h mem, List.append_assoc]
  rfl

theorem mapPages_mapped (kernel : k₀.currentPml4 = k₀.kernelPml4) {l : List Word}
    (low : ∀ va ∈ l, va ≠ 0 ∧ pageOf va ∈ pages) : (mapPages l).run (k, log) = (0, k, log) :=
  mapPages_run fun va mem => mapped_kernel c h kernel (low va mem).1 (low va mem).2

end

/-- A loadable header that can be read has its segment loaded. -/
theorem loadSegments_run {file : Word} {i : ℕ} {rest : List ℕ} {ph : ProgramHeader}
    {log : List ElfEvent} (found : programHeaderAt k file size (BitVec.ofNat 16 i) = some (.ok ph))
    (loadable : elfIsLoadable ph = true) :
    (loadSegments file size (i :: rest)).run (k, log) =
      (loadSegment file ph >>= fun result =>
        if result ≠ some 0 then pure result else loadSegments file size rest).run (k, log) := by
  rw [loadSegments, log_read]
  dsimp only
  rw [found]
  dsimp only
  rw [loadable, if_neg (by decide)]

/-- The headers of a file at 0x3300000 lie in its first page. -/
theorem HeaderByte.page (short : size.toNat ≤ 4096) (valid : elfValidate (some bytes) size = 0)
    {i : Word} (mem : HeaderByte bytes i) : pageOf (0x3300000 + i) = 0x3300 := by
  have lt := mem.lt (by omega) valid
  rw [pageOf, BitVec.toNat_add, show (0x3300000 : Word).toNat = 0x3300000 from rfl]
  omega

def lastPageFile (a : Word) : BitVec 8 :=
  ([0x7F, 0x45, 0x4C, 0x46, 2, 1, 1, 0, 0, 0, 0, 0, 0, 0, 0, 0, 2, 0, 62, 0, 1, 0, 0, 0,
    0, 0xF0, 0xFF, 0x3F, 0, 0, 0, 0, 64, 0, 0, 0, 0, 0, 0, 0] ++ List.replicate 14 0 ++
    [56, 0, 1, 0, 0, 0, 0, 0, 0, 0, 1, 0, 0, 0, 7, 0, 0, 0, 120, 0, 0, 0, 0, 0, 0, 0,
    0, 0xF0, 0xFF, 0x3F, 0, 0, 0, 0, 0, 0, 0, 0, 0, 0, 0, 0, 1, 0, 0, 0, 0, 0, 0, 0,
    1, 0, 0, 0, 0, 0, 0, 0, 0, 16, 0, 0, 0, 0, 0, 0, 0xF4] : List (BitVec 8)).getD a.toNat 0

theorem lastPage_valid : elfValidate (some lastPageFile) 121 = 0 := by decide

theorem lastPage_fields : (readHeader lastPageFile).phnum = 1 ∧
    (readHeader lastPageFile).entry = 0x3FFFF000 := by decide

def lastPageSegment : ProgramHeader := ⟨1, 7, 120, 0x3FFFF000, 1, 1⟩

theorem lastPage_segment : elfGetProgramHeader (some lastPageFile) 121 0 = .ok lastPageSegment :=
  rfl

theorem lastPage_span :
    checkSegments (some lastPageFile) 121 [0] (uint64Max, 0) = .ok (0x3FFFF000, 0x40000000) := rfl

theorem lastPage_only {ph : ProgramHeader} (segment : Segment lastPageFile 121 ph) :
    ph = lastPageSegment := by
  obtain ⟨i, found, -⟩ := segment
  have bound : i < 1 := by
    by_contra le
    rw [elfGetProgramHeader, if_neg (not_not.mpr lastPage_valid)] at found
    dsimp only at found
    rw [lastPage_fields.1, if_pos (BitVec.not_lt.mp le)] at found
    cases found
  obtain rfl : i = 0 := by
    rw [BitVec.lt_def] at bound
    exact BitVec.eq_of_toNat_eq (by simpa using bound)
  exact (Except.ok.inj (lastPage_segment.symm.trans found)).symm

section
variable (desktop : DesktopFile place lastPageFile (121 : Word).toNat k)
include desktop

theorem lastPage_loads : ∃ k', (elfLoad 0x3300000 121).run (k, []) =
    (.loaded ⟨0x3FFFF000, 0x3FFFF000, 0x40000000, 1⟩, k',
      [.copied 0x3300078, .stored 0x3FFFF000]) := by
  obtain ⟨phnum, entry⟩ := lastPage_fields
  have list : List.range (readHeader lastPageFile).phnum.toNat = [0] := by
    rw [phnum]
    rfl
  have c : CopyFrom place k.kernelPml4 {0x3FFFF000} {0x3300, 0x3FFFF} k := by
    refine desktop.copyFrom (fun a mem => ?_) fun p mem => ?_
    · rw [Set.mem_singleton_iff.mp mem]
      exact .inr rfl
    · rcases mem with rfl | rfl
      all_goals decide
  have start := Copying.refl {0x3FFFF000} k
  have header := programHeaderAt_eq c start (by decide) (desktop.valid (by decide) lastPage_valid)
    (fun i mem => .inl (mem.page (by decide) (desktop.valid (by decide) lastPage_valid)))
    (fun i mem => rfl) 0
  rw [desktop.programHeader (by decide) lastPage_valid, lastPage_segment] at header
  have segment : ∃ k', (loadSegment 0x3300000 lastPageSegment).run (k, []) =
      (some 0, k', [.copied 0x3300078, .stored 0x3FFFF000]) := by
    have pages : segmentPages lastPageSegment = [0x3FFFF000] := by decide
    have copied : (copyBytes 0x3FFFF000 0x3300078 [0]).run (k, []) = _ :=
      copyBytes_one c start (Set.mem_singleton (0x3FFFF000 : Word)) (show pageOf 0x3300078 ∈ ({0x3300, 0x3FFFF} : Set ℕ) from .inl (by decide))
    have mapped : (mapPages [0x3FFFF000]).run (k, []) = (0, k, []) := by
      refine mapPages_mapped c start desktop.kernel.1 fun va mem => ?_
      rw [List.mem_singleton.mp mem]
      exact ⟨by decide, .inr (by decide)⟩
    refine ⟨((storeByte 0x3FFFF000 (k.byteAt 0x3300078)).run k).2, ?_⟩
    rw [loadSegment, log_bind, pages, mapped]
    dsimp only
    rw [if_neg (not_not.mpr rfl), show List.range lastPageSegment.filesz.toNat = [0] by decide,
      show (0x3300000 : Word) + lastPageSegment.offset = 0x3300078 by decide,
      show List.range' lastPageSegment.filesz.toNat
        (lastPageSegment.memsz.toNat-lastPageSegment.filesz.toNat) = [] by decide,
      log_bind, show lastPageSegment.vaddr = 0x3FFFF000 from rfl, copied]
    rfl
  obtain ⟨k', segment⟩ := segment
  have loop : (loadSegments 0x3300000 121 [0]).run (k, []) =
      (some 0, k', [.copied 0x3300078, .stored 0x3FFFF000]) := by
    rw [loadSegments_run (i := 0) header (by decide), log_bind, segment]
    rfl
  refine ⟨k', ?_⟩
  rw [desktop.elfLoad_run (by decide) lastPage_valid (list ▸ lastPage_span) (by decide)
    (by decide), list, loop, entry]
  rfl

end

/-- Its segment lies above the file and needs no page mapped. -/
theorem lastPage_clear (desktop : DesktopFile place lastPageFile (121 : Word).toNat k) :
    PagesLow (desktopBytes k) 121 ∧ SegmentsClear 0x3300000 121 (desktopBytes k) k := by
  have pages : segmentPages lastPageSegment = [0x3FFFF000] := by decide
  refine ⟨fun ph segment va mem => ?_, desktop.clear (by decide) lastPage_valid ?_⟩
  · have same := lastPage_only ((desktop.segment (by decide) lastPage_valid ph).mp segment)
    rw [same, pages, List.mem_singleton] at mem
    rw [mem]
    decide
  · rintro a ⟨ph, segment, le, lt⟩
    rw [lastPage_only segment, show lastPageSegment.vaddr.toNat = 0x3FFFF000 from rfl] at le
    rw [pageOf]
    omega

def rawHeader (type offset vaddr filesz memsz : ℕ) : List (BitVec 8) :=
  [type, 0, 0, 0, 7, 0, 0, 0, offset%256, offset/256%256, 0, 0, 0, 0, 0, 0,
    vaddr%256, vaddr/256%256, vaddr/65536%256, vaddr/16777216, 0, 0, 0, 0, 0, 0, 0, 0, 0, 0, 0, 0,
    filesz, 0, 0, 0, 0, 0, 0, 0, memsz, 0, 0, 0, 0, 0, 0, 0, 0, 16, 0, 0, 0, 0, 0, 0].map
      (BitVec.ofNat 8)

/-- Two program headers at 0x1C0. The only segment is the low byte of `e_phoff`, for a file at
0x3300000; without it the headers are at 0x100, and the second one has an offset of 0x1000. -/
def selfFile (a : Word) : BitVec 8 :=
  if a.toNat < 0x100 then
    ([0x7F, 0x45, 0x4C, 0x46, 2, 1, 1, 0, 0, 0, 0, 0, 0, 0, 0, 0, 2, 0, 62, 0, 1, 0, 0, 0,
      0x20, 0, 0x30, 3, 0, 0, 0, 0, 0xC0, 1, 0, 0, 0, 0, 0, 0] ++ List.replicate 14 0 ++
      [56, 0, 2, 0] : List (BitVec 8)).getD a.toNat 0
  else if a.toNat < 0x1C0 then
    (rawHeader 0 0 0 0 0 ++ rawHeader 1 0x1000 0x3400000 1 1).getD (a.toNat-0x100) 0
  else (rawHeader 1 0 0x3300020 0 1 ++ rawHeader 0 0 0 0 0).getD (a.toNat-0x1C0) 0

/-- The file once the low byte of `e_phoff` is 0. -/
def selfFileZeroed (a : Word) : BitVec 8 := if a = 32 then 0 else selfFile a

theorem selfFile_valid : elfValidate (some selfFile) 0x230 = 0 ∧
    elfValidate (some selfFileZeroed) 0x230 = 0 := by decide

theorem selfFile_headers :
    elfGetProgramHeader (some selfFile) 0x230 0 = .ok ⟨1, 7, 0, 0x3300020, 0, 1⟩ ∧
    elfGetProgramHeader (some selfFile) 0x230 1 = .ok ⟨0, 7, 0, 0, 0, 0⟩ ∧
    elfGetProgramHeader (some selfFileZeroed) 0x230 1 =
      .ok ⟨1, 7, 0x1000, 0x3400000, 1, 1⟩ := ⟨rfl, rfl, rfl⟩

theorem store_emits (va : Word) (v : BitVec 8) : Emits (fun _ => True) (store va v) :=
  (Emits.emit fun _ => trivial).bind fun _ => .silent _

theorem copyBytes_emits (va source : Word) (l : List ℕ) :
    Emits (fun _ => True) (copyBytes va source l) := by
  induction l with
  | nil => exact .pure true
  | cons j rest ih =>
    refine (Emits.emit fun _ => trivial).bind fun _ => (Emits.silent _).bind fun k => ?_
    cases k.loadByte (source + BitVec.ofNat 64 j) with
    | none => exact .pure _
    | some v => exact (store_emits _ v).bind fun _ => .ite (fun _ => .pure _) fun _ => ih

theorem zeroBytes_emits (va : Word) (l : List ℕ) : Emits (fun _ => True) (zeroBytes va l) := by
  induction l with
  | nil => exact .pure true
  | cons j rest ih => exact (store_emits _ 0).bind fun _ => .ite (fun _ => .pure _) fun _ => ih

/-- The first byte of a segment whose pages are mapped is read. -/
theorem loadSegment_copies {file : Word} {ph : ProgramHeader} {log : List ElfEvent}
    (mapped : (mapPages (segmentPages ph)).run (k, log) = (0, k, log)) {rest : List ℕ}
    (some : List.range ph.filesz.toNat = 0 :: rest) :
    .copied (file + ph.offset) ∈ ((loadSegment file ph).run (k, log)).2.2 := by
  have copied : .copied (file + ph.offset) ∈
      ((copyBytes ph.vaddr (file + ph.offset) (0 :: rest)).run (k, log)).2.2 := by
    rw [copyBytes, log_bind]
    refine Emits.mem (P := fun _ => True) ((Emits.silent _).bind fun k' => ?_)
      (List.mem_append_right log (List.mem_singleton.mpr ?_))
    · cases k'.loadByte (file + ph.offset + BitVec.ofNat 64 0) with
      | none => exact .pure _
      | some v =>
        exact (store_emits _ v).bind fun _ => .ite (fun _ => .pure _) fun _ => copyBytes_emits _ _ _
    · rw [show file + ph.offset + BitVec.ofNat 64 0 = file + ph.offset from BitVec.add_zero _]
  rw [loadSegment, log_bind, mapped]
  dsimp only
  rw [if_neg (not_not.mpr rfl), some, log_bind]
  exact Emits.mem (P := fun _ => True) (.ite (fun _ => .pure _) fun _ =>
    (zeroBytes_emits _ _).bind fun _ => .pure _) copied

section
variable (desktop : DesktopFile place selfFile (0x230 : Word).toNat k)
include desktop

theorem selfFile_copyFrom :
    CopyFrom place k.kernelPml4 {0x3300020} {0x3300, 0x3400} k := by
  refine desktop.copyFrom (fun a mem => ?_) fun p mem => ?_
  · rw [Set.mem_singleton_iff.mp mem]
    exact .inl rfl
  · rcases mem with rfl | rfl
    all_goals decide

theorem selfFile_first : ∃ k', (loadSegment 0x3300000 ⟨1, 7, 0, 0x3300020, 0, 1⟩).run (k, []) =
      (some 0, k', [.stored 0x3300020]) ∧ Copying {0x3300020} k k' ∧
    ∀ i : Word, i.toNat < (0x230 : Word).toNat → desktopBytes k' i = selfFileZeroed i := by
  have c := selfFile_copyFrom desktop
  have start := Copying.refl {0x3300020} k
  have pages : segmentPages ⟨1, 7, 0, 0x3300020, 0, 1⟩ = [0x3300000] := by decide
  have mapped : (mapPages [0x3300000]).run (k, []) = (0, k, []) := by
    refine mapPages_mapped c start desktop.kernel.1 fun va mem => ?_
    rw [List.mem_singleton.mp mem]
    exact ⟨by decide, .inl (by decide)⟩
  have zeroed : (zeroBytes 0x3300020 [0]).run (k, []) = _ :=
    zeroBytes_one c start (Set.mem_singleton (0x3300020 : Word))
  refine ⟨((storeByte 0x3300020 0).run k).2, ?_, start.storeByte (Set.mem_singleton _) 0,
    fun i lt => ?_⟩
  · rw [loadSegment, log_bind, pages, mapped]
    dsimp only
    rw [if_neg (not_not.mpr rfl), show List.range (0 : Word).toNat = [] by decide,
      show List.range' (0 : Word).toNat ((1 : Word).toNat-(0 : Word).toNat) = [0] by decide,
      copyBytes, log_bind, show (pure true : ElfM Bool).run (k, []) = (true, k, []) from rfl]
    dsimp only
    rw [if_neg (by decide), log_bind, zeroed]
    rfl
  · have here : (0x3300000 : Word) + i = 0x3300020 ↔ i = 32 := by
      rw [show (0x3300020 : Word) = 0x3300000 + 32 by decide]
      exact ⟨fun eq => add_left_cancel eq, fun eq => by rw [eq]⟩
    rw [desktopBytes, byteAt_storeByte, selfFileZeroed]
    by_cases low : i = 32
    · rw [if_pos (here.mpr low), if_pos low]
    · rw [if_neg (mt here.mp low), if_neg low]
      exact desktop.content i lt

end

end TinyOS.Elf
