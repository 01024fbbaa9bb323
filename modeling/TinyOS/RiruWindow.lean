import TinyOS.KernelTables
import TinyOS.RiruEvents

set_option autoImplicit false

/-! What `riru_load` maps and stores to, and a program that makes it leave the user window: its
code lies over the header that the copies go on reading (riru/loader.c). -/
namespace TinyOS.Memory
open EventLogs RadixTables Riru

namespace Logged

def LogInWindow (log : List LoadEvent) : Prop :=
  ∀ e ∈ log, ∀ va, e = .mapped va ∨ e = .stored va → InWindow va

/-- Before a store its page has been mapped present, writable and open to the user, at all levels
of `riru_user_cr3`. -/
def MappedFirst (log : List LoadEvent) : Prop :=
  ∀ l₁ va l₂, log = l₁ ++ .stored va :: l₂ → ∃ k u, .switched k ∈ l₁ ∧
    k.riruUserCr3 = pageAddress u ∧ Opened u (pageOf va) k

theorem LogInWindow.of {log : List LoadEvent} {covered : Set Word}
    (h : ∀ e ∈ log, Maps e ∨ Stores covered e ∨ ∃ k, e = .switched k) : LogInWindow log := by
  rintro e mem va (rfl | rfl)
  · rcases h _ mem with window | none | ⟨k, eq⟩
    · exact window
    · exact none.elim
    · cases eq
  · rcases h _ mem with none | ⟨window, -⟩ | ⟨k, eq⟩
    · exact none.elim
    · exact window
    · cases eq

/-- A load of the file overwrites neither its header nor a table that translates the image or the
header. -/
def KeepsHeader (file size : Word) (k : Kernel) : Prop :=
  ∀ image span, riruParse (k.fileAt file) size = .ok image → imageSpan image.header = .ok span →
    CopyClear file riruHeaderSize image.header span.2 k

variable {place : Places} {k : Kernel} {file size : Word}

/-- The log of a load: mappings, and if they succeed the switch and the stores. -/
theorem riruLoad_log (b : Layout) (hs : Spaces place k) (held : Held place k file size)
    (keeps : KeepsHeader file size k) :
    ∃ maps, (∀ e ∈ maps, Maps e) ∧ ((((riruLoad b file size).run (k, [])).2.2 = maps) ∨
      ∃ (h : RiruHeader) (stop : Word) (u : ℕ) (place₁ : Places) (k₁ : Kernel)
        (stores : List LoadEvent), PreparedSpace h stop place k u place₁ k₁ ∧
        ((riruLoad b file size).run (k, [])).2.2 = maps ++ .switched k₁ :: stores ∧
        ∀ e ∈ stores, Stores (imageBytes h stop) e) := by
  have none : ∀ e ∈ ([] : List LoadEvent), Maps e := fun e mem => absurd mem List.not_mem_nil
  rw [riruLoad, log_bind, show (silent get : LoadM Kernel).run (k, []) = (k, k, []) from rfl]
  dsimp only
  cases parsed : riruParse (k.fileAt file) size with
  | error code => exact ⟨[], none, .inl rfl⟩
  | ok image =>
    dsimp only
    cases span : imageSpan image.header with
    | error code => exact ⟨[], none, .inl rfl⟩
    | ok pair =>
      obtain ⟨base, stop⟩ := pair
      have valid := imageSpan_valid span
      obtain ⟨maps, log, all⟩ := prepareSpace_maps b valid stop (k, [])
      obtain ⟨value, state⟩ := prepareSpace_erases b image.header stop (k, [])
      obtain ⟨u, place₁, k₁, result, run, -, -, -, done⟩ := prepareSpace_spec b hs valid stop
      rw [run] at value state
      refine ⟨maps, all, ?_⟩
      dsimp only
      rw [log_bind, value]
      dsimp only
      by_cases fails : result ≠ 0
      · rw [if_pos fails]
        exact .inl log
      rw [if_neg fails]
      have prepared := done (not_not.mp fails)
      have hs₁ : Spaces place₁ k₁ := (hs.withUser (pageAddress u)).step prepared.step
      have inside := held.prepared parsed prepared.step
      have low : ∀ p ∈ imagePages image.header stop ∪ rangeOf file riruHeaderSize,
          p < 1048576 := by
        rintro p (mem | mem)
        · exact (imagePages_low valid prepared.bss p mem).2
        · exact inside.page_lt p (inside.head mem)
      have alloc := @prepareSpace_alloc k b image.header stop (by
        rw [run]
        exact not_not.mp fails)
      rw [run] at alloc
      have clear := prepared.clear hs alloc low (keeps image _ parsed span)
      obtain ⟨⟨stores, more, all'⟩, -⟩ := finishLoad_confined hs₁ prepared.space prepared.user
        inside valid prepared.bss clear base maps
      refine .inr ⟨image.header, stop, u, place₁, k₁, stores, prepared, ?_, all'⟩
      have before : ((prepareSpace b image.header stop).run (k, [])).2 = (k₁, maps) :=
        Prod.ext state log
      rw [before]
      exact more

/-- The log of `riru_load`, whatever it returns. -/
def loadLog (b : Layout) (file size : Word) (k : Kernel) : List LoadEvent :=
  ((riruLoad b file size).run (k, [])).2.2

end Logged

variable {place : Places} {u start : ℕ} {k k' : Kernel} {file : Word}

theorem widen_ok {span : Word × Word} {vaddr size : Word} (code : ℤ)
    (valid : validRange vaddr size = true) :
    ∃ span', widen span vaddr size code = .ok span' ∧ span'.1.toNat ≤ span.1.toNat := by
  rw [widen, valid]
  by_cases zero : size = 0
  · rw [if_pos zero]
    exact ⟨span, rfl, le_refl _⟩
  · rw [if_neg zero, if_neg (by decide)]
    refine ⟨_, rfl, ?_⟩
    dsimp only
    split_ifs with lower
    · exact Nat.le_of_lt (BitVec.lt_def.mp lower)
    · exact le_refl _

theorem imageSpan_ok {h : RiruHeader} (valid : SectionsValid h) (some : h.codeSize ≠ 0) :
    ∃ span, imageSpan h = .ok span := by
  obtain ⟨code, rodata, data⟩ := valid
  obtain ⟨-, high⟩ := (validRange_iff.mp code).resolve_left some
  rw [imageSpan, if_neg some, code, if_neg (by decide)]
  obtain ⟨first, run, le⟩ := @widen_ok
    (alignDown h.codeVaddr, alignUp (h.codeVaddr + h.codeSize)) _ _ (-3) rodata
  obtain ⟨second, run', le'⟩ := @widen_ok first _ _ (-4) data
  change ∃ span, (widen (alignDown h.codeVaddr, alignUp (h.codeVaddr + h.codeSize)) h.rodataVaddr
    h.rodataSize (-3) >>= fun span => do
      let span ← widen span h.dataVaddr h.dataSize (-4)
      if span.1 = 0xFFFFFFFFFFFFFFFF then .error (-5) else .ok span) = .ok span
  rw [run]
  change ∃ span, (widen first h.dataVaddr h.dataSize (-4) >>= fun span =>
    if span.1 = 0xFFFFFFFFFFFFFFFF then .error (-5) else .ok span) = .ok span
  rw [run']
  refine ⟨second, if_neg fun top => ?_⟩
  have down := alignDown_toNat h.codeVaddr
  dsimp only at le
  rw [top, show (0xFFFFFFFFFFFFFFFF : Word).toNat = 2^64-1 from rfl] at le'
  omega

/-- For a file at this address: a byte of code, over byte 3 of `data_vaddr`, and a byte of data. -/
def ownHeader (file : Word) : RiruHeader where
  magic := riruMagic
  version := riruVersion
  architecture := riruArchX8664
  type := riruTypeExecutable
  flags := 0
  entry := file
  codeOffset := 120
  codeVaddr := file + 83
  codeSize := 1
  rodataOffset := 0
  rodataVaddr := 0
  rodataSize := 0
  dataOffset := 121
  dataVaddr := 0x3300000
  dataSize := 1
  bssSize := 0
  stackSize := 0x100000
  imageSize := 122

def ownFile (file a : Word) : BitVec 8 :=
  if a.toNat < 120 then (ownHeader file).byte a.toNat else if a = 120 then 0x40 else 0

theorem readHeader_ownFile (file : Word) : readHeader (ownFile file) = ownHeader file := by
  refine readHeader_bytes rfl fun i lt => ?_
  have small : (BitVec.ofNat 64 i).toNat = i := by
    rw [BitVec.toNat_ofNat]
    omega
  rw [ownFile, small, if_pos lt]

theorem ownFile_fields (file : Word) : load64 (ownFile file) 32 = file + 83 ∧
    load64 (ownFile file) 40 = 1 ∧ load64 (ownFile file) 64 = 0 ∧ load64 (ownFile file) 88 = 1 := by
  have header := readHeader_ownFile file
  rw [readHeader, ownHeader, RiruHeader.mk.injEq] at header
  obtain ⟨-, -, -, -, -, -, -, vaddr, code, -, -, rodata, -, -, data, -⟩ := header
  exact ⟨vaddr, code, rodata, data⟩

/-- `data_vaddr` is 0x3300000, which has other bytes than 0x40300000 only at the top. -/
theorem ownFile_dataVaddr (file : Word) {i : ℕ} (lt : i < 8) (ne : i ≠ 3) :
    ownFile file (80 + BitVec.ofNat 64 i) = ((0x40300000 : Word) >>> (8*i)).setWidth 8 := by
  have small : (80 + BitVec.ofNat 64 i : Word).toNat = 80+i := by
    rw [toNat_add_ofNat (by simp; omega)]
    rfl
  rw [ownFile, small, if_pos (by omega), RiruHeader.byte, if_neg (by omega), if_neg (by omega),
    if_neg (by omega), show (80+i-16)/8 = 8 by omega, show (80+i-16)%8 = i by omega]
  change ((0x3300000 : Word) >>> (8*i)).setWidth 8 = _
  interval_cases i
  case «3» => exact absurd rfl ne
  all_goals decide

theorem ownFile_valid (high : 0x800000 ≤ file.toNat) (low : file.toNat < 0x3300000) :
    riruValidate (some (ownFile file)) 122 = 0 := by
  have same := readHeader_ownFile file
  have nonzero {a : Word} (pos : 0 < a.toNat) : a ≠ 0 := fun zero => by
    rw [zero] at pos
    exact absurd pos (Nat.lt_irrefl 0)
  have code : (file + 83).toNat = file.toNat+83 := by
    rw [BitVec.toNat_add, show (83 : Word).toNat = 83 from rfl]
    omega
  refine riruValidate_eq_zero.mpr ⟨by decide, congrArg RiruHeader.magic same,
    congrArg RiruHeader.version same, congrArg RiruHeader.architecture same,
    congrArg RiruHeader.type same, ?_, ?_, ?_, ?_, ?_, ?_⟩
  all_goals rw [same]
  · exact show 120 ≤ (122 : Word).toNat by decide
  · exact le_refl _
  · exact ⟨show (120 : Word).toNat+(1 : Word).toNat ≤ (122 : Word).toNat by decide,
      fun _ => nonzero (show 0 < (file + 83).toNat by omega)⟩
  · exact ⟨show (0 : Word).toNat+(0 : Word).toNat ≤ (122 : Word).toNat by decide,
      fun size => absurd rfl size⟩
  · exact ⟨show (121 : Word).toNat+(1 : Word).toNat ≤ (122 : Word).toNat by decide,
      fun _ => show (0x3300000 : Word) ≠ 0 by decide⟩
  · exact nonzero (show 0 < file.toNat by omega)

theorem ownHeader_valid (high : 0x800000 ≤ file.toNat) (low : file.toNat < 0x3300000) :
    SectionsValid (ownHeader file) := by
  have code : (file + 83).toNat = file.toNat+83 := by
    rw [BitVec.toNat_add, show (83 : Word).toNat = 83 from rfl]
    omega
  refine ⟨validRange_iff.mpr (.inr ⟨show 0x400000 ≤ (file + 83).toNat by omega, ?_⟩), rfl,
    show validRange 0x3300000 1 = true by decide⟩
  change (file + 83).toNat+(1 : Word).toNat ≤ 0x40000000
  rw [code, show (1 : Word).toNat = 1 from rfl]
  omega

/-- The kernel has the file in a block of one page, and has made a space for it. -/
structure OwnBlock (place : Places) (u : ℕ) (file : Word) (k : Kernel) : Prop where
  spaces : Spaces place k
  space : UserSpace place k u
  user : k.riruUserCr3 = pageAddress u
  low : file.toNat < 0x3300000
  first : file.toNat%4096 = 24
  unplaced : place (pageOf file) = none
  content : ∀ i : Word, i.toNat < 122 → k.byteAt (file + i) = ownFile file i

section
variable (own : OwnBlock place u file k)
include own

theorem OwnBlock.address {i : Word} (small : i.toNat < 122) :
    (file + i).toNat = file.toNat+i.toNat ∧ pageOf (file + i) = pageOf file := by
  have low := own.low
  have first := own.first
  have address : (file + i).toNat = file.toNat+i.toNat := by
    rw [BitVec.toNat_add]
    omega
  refine ⟨address, ?_⟩
  rw [pageOf, pageOf, address]
  omega

theorem OwnBlock.off {i : Word} (small : i.toNat < 122) (ne : i.toNat ≠ 83) :
    file + i ∉ ({file + 83} : Set Word) := by
  intro eq
  have here := (own.address small).1
  have there := (own.address (show (83 : Word).toNat < 122 by decide)).1
  rw [Set.mem_singleton_iff.mp eq, there, show (83 : Word).toNat = 83 from rfl] at here
  omega

theorem OwnBlock.copyFrom : CopyFrom place u {file + 83} {pageOf file}
    { k with currentPml4 := u, cr3 := pageAddress u } := by
  have apart : Apart place k { k with currentPml4 := u, cr3 := pageAddress u } :=
    ⟨fun _ _ _ => rfl, fun _ _ hp => (own.spaces.sound.used hp).1, own.spaces.sound.page0, rfl, rfl⟩
  have low := own.low
  have page := (own.address (show (83 : Word).toNat < 122 by decide)).2
  refine ⟨own.spaces.apart apart, own.space.apart own.spaces apart, ?_, rfl, ?_, ?_⟩
  · rintro p - l i t on walks a rfl eq
    obtain rfl : pageOf file = t := page.symm.trans eq
    have short : ([] : List (Fin 512)).length+l.length ≤ 3 := by
      have le := on.length_le
      simp only [List.length_append, List.length_cons, List.length_nil, pagePath] at le ⊢
      omega
    have placed := own.spaces.sound.placed.place_walk own.space.root short walks
    rw [own.unplaced] at placed
    cases placed
  · rintro a rfl
    exact page
  · rintro p rfl
    rw [pageOf]
    omega

variable (copying : Copying {file + 83} { k with currentPml4 := u, cr3 := pageAddress u } k')
include copying

/-- The fields that the byte is not in are read as they were. -/
theorem OwnBlock.loadWord {a : Word} (le : a.toNat+8 ≤ 120)
    (off : a.toNat+8 ≤ 83 ∨ 83 < a.toNat) :
    k'.loadWord (file + a) = some (load64 (ownFile file) a) := by
  have small {i : ℕ} (lt : i < 8) : (a + BitVec.ofNat 64 i).toNat = a.toNat+i :=
    toNat_add_ofNat (by omega)
  rw [own.copyFrom.loadWord copying, ← load64_offset]
  · refine congrArg (fun n => some (BitVec.ofNat 64 n)) (load_congr fun i lt => ?_)
    exact own.content _ (by rw [small lt]; omega)
  · intro i lt
    rw [BitVec.add_assoc]
    exact (own.address (by rw [small lt]; omega)).2
  · intro i lt
    rw [BitVec.add_assoc]
    exact own.off (by rw [small lt]; omega) (by rw [small lt]; omega)

theorem OwnBlock.loadByte {a : Word} (lt : a.toNat < 122) (ne : a.toNat ≠ 83) :
    k'.loadByte (file + a) = some (ownFile file a) := by
  rw [own.copyFrom.loadByte copying (own.address lt).2, copying.kept _ (own.off lt ne)]
  exact congrArg some (own.content a lt)

theorem OwnBlock.dataVaddr (code : k'.byteAt (file + 83) = 0x40) :
    k'.loadWord (file + 80) = some 0x40300000 := by
  have page {i : ℕ} (lt : i < 8) : pageOf (file + 80 + BitVec.ofNat 64 i) = pageOf file := by
    rw [BitVec.add_assoc]
    refine (own.address ?_).2
    rw [toNat_add_ofNat (by simp; omega), show (80 : Word).toNat = 80 from rfl]
    omega
  have all : ((List.range 8).all fun i => k'.present k'.cr3 (file + 80 + BitVec.ofNat 64 i)) =
      true := List.all_eq_true.mpr fun i lt =>
    (own.copyFrom.identity copying (page (List.mem_range.mp lt))).1
  rw [Kernel.loadWord, if_pos all]
  refine congrArg some (load64_bytes fun i lt => ?_)
  rw [(own.copyFrom.identity copying (page lt)).2]
  by_cases third : i = 3
  · rw [third, BitVec.add_assoc]
    exact code
  · have small : (80 + BitVec.ofNat 64 i : Word).toNat = 80+i := by
      rw [toNat_add_ofNat (by simp; omega)]
      rfl
    rw [BitVec.add_assoc, copying.kept _ (own.off (by omega) (by omega)),
      ← ownFile_dataVaddr file lt third]
    exact own.content _ (by omega)

end

namespace Logged

variable {f : SectionFields} {destination source size : Word} {v : BitVec 8}
  {log : List LoadEvent}

theorem copyRounds_first (read : k.loadWord (file + f.size) = some size) (more : 0 < size)
    (byte : k.loadByte source = some v) : copyRounds file f destination source 0 (k, log) =
      if ((Memory.storeVirtual destination v).run k).1 then
        copyRounds file f destination source 1
          (((Memory.storeVirtual destination v).run k).2, log ++ [.stored destination])
      else (false, ((Memory.storeVirtual destination v).run k).2, log ++ [.stored destination]) := by
  rw [copyRounds, read]
  dsimp only
  rw [if_pos more, show source + 0 = source from BitVec.add_zero source, byte,
    show destination + 0 = destination from BitVec.add_zero destination]
  rfl

theorem copySection_run (read : k.loadWord (file + f.size) = some size) (some : size ≠ 0)
    (vaddr : k.loadWord (file + f.vaddr) = .some destination) :
    (copySection file f source).run (k, log) = copyRounds file f destination source 0 (k, log) := by
  rw [copySection, log_read]
  dsimp only
  rw [read]
  dsimp only
  rw [if_neg some, vaddr]
  rfl

/-- Whatever the header says, the copy only adds to the log. -/
theorem copyRounds_emits (file : Word) (f : SectionFields) (destination source i : Word) :
    Emits (fun _ => True) (copyRounds file f destination source i) := by
  intro s
  change ∃ new, (copyRounds file f destination source i s).2.2 = s.2 ++ new ∧ ∀ e ∈ new, True
  fun_induction copyRounds file f destination source i s with
  | case1 | case2 | case5 => exact ⟨[], (List.append_nil _).symm, fun _ _ => trivial⟩
  | case3 i s size read more v load s' store ih =>
    obtain ⟨new, log, -⟩ := ih
    have first : s'.2 = s.2 ++ [.stored (destination + i)] :=
      (congrArg (fun r : Bool × Kernel × List LoadEvent => r.2.2) store).symm
    exact ⟨_, by rw [log, first, List.append_assoc], fun _ _ => trivial⟩
  | case4 i s size read more v load stored s' store fails =>
    exact ⟨[.stored (destination + i)],
      (congrArg (fun r : Bool × Kernel × List LoadEvent => r.2.2) store).symm, fun _ _ => trivial⟩

theorem copyBytes_emits (va : Word) (source : ℕ → BitVec 8) (l : List ℕ) :
    Emits (fun _ => True) (copyBytes va source l) := by
  induction l with
  | nil => exact .pure true
  | cons i rest ih =>
    have store : Emits (fun _ => True) (storeVirtual (va + BitVec.ofNat 64 i) (source i)) :=
      (Emits.emit fun _ => trivial).bind fun _ => .silent _
    exact store.bind fun _ => .ite (fun _ => .pure false) fun _ => ih

section
variable (own : OwnBlock place u file k)
include own

theorem copySection_code (log : List LoadEvent) : ∃ k',
    (copySection file codeFields (file + 120)).run
        ({ k with currentPml4 := u, cr3 := pageAddress u }, log) =
      (true, k', log ++ [.stored (file + 83)]) ∧
    Copying {file + 83} { k with currentPml4 := u, cr3 := pageAddress u } k' ∧
    k'.byteAt (file + 83) = 0x40 := by
  obtain ⟨codeVaddr, codeSize, -, -⟩ := ownFile_fields file
  have size {k' : Kernel} (copying : Copying {file + 83}
      { k with currentPml4 := u, cr3 := pageAddress u } k') :
      k'.loadWord (file + codeFields.size) = some 1 := by
    have read := own.loadWord copying (a := 40) (by decide) (.inl (by decide))
    rwa [codeSize] at read
  have start := Copying.refl {file + 83} { k with currentPml4 := u, cr3 := pageAddress u }
  have vaddr := own.loadWord start (a := 32) (by decide) (.inl (by decide))
  have byte := own.loadByte start (a := 120) (by decide) (by decide)
  rw [codeVaddr] at vaddr
  have stored := own.copyFrom.store start (Set.mem_singleton _) (0x40 : BitVec 8)
  have after := start.storeByte (Set.mem_singleton _) (0x40 : BitVec 8)
  refine ⟨_, ?_, after, ?_⟩
  · rw [copySection_run (size start) (by decide) vaddr,
      copyRounds_first (size start) (by decide) byte]
    have value : ownFile file 120 = 0x40 := rfl
    rw [value, stored, if_pos rfl, copyRounds, size after]
    rfl
  · rw [byteAt_storeByte, if_pos rfl]

theorem copySection_data {k' : Kernel} (copying : Copying {file + 83}
      { k with currentPml4 := u, cr3 := pageAddress u } k')
    (code : k'.byteAt (file + 83) = 0x40) (log : List LoadEvent) :
    .stored 0x40300000 ∈ ((copySection file dataFields (file + 121)).run (k', log)).2.2 := by
  obtain ⟨-, -, -, dataSize⟩ := ownFile_fields file
  have size := own.loadWord copying (a := 88) (by decide) (.inr (by decide))
  rw [dataSize] at size
  have byte := own.loadByte copying (a := 121) (by decide) (by decide)
  rw [copySection_run (f := dataFields) size (by decide) (own.dataVaddr copying code),
    copyRounds_first (f := dataFields) size (by decide) byte]
  have here : LoadEvent.stored 0x40300000 ∈ log ++ [.stored 0x40300000] :=
    List.mem_append_right log List.mem_cons_self
  split_ifs
  · exact (copyRounds_emits file dataFields 0x40300000 (file + 121) 1).mem here
  · exact here

theorem copyImage_escapes {image : RiruImage} (code : image.code = some 120)
    (data : image.data = some 121) (bss : Word) (log : List LoadEvent) :
    .stored 0x40300000 ∈ ((copyImage file image bss).run
      ({ k with currentPml4 := u, cr3 := pageAddress u }, log)).2.2 := by
  obtain ⟨k', first, copying, byte⟩ := copySection_code own log
  obtain ⟨-, -, rodata, -⟩ := ownFile_fields file
  have none := own.loadWord copying (a := 64) (by decide) (.inl (by decide))
  rw [rodata] at none
  have second (source : Word) (log : List LoadEvent) :
      (copySection file rodataFields source).run (k', log) = (true, k', log) := by
    have size : k'.loadWord (file + rodataFields.size) = some 0 := none
    rw [copySection, log_read]
    dsimp only
    rw [size]
    rfl
  have on : ¬(!true) = true := by decide
  rw [copyImage, code, data, log_bind, sectionPointer, first]
  dsimp only
  rw [if_neg on, log_bind, second]
  dsimp only
  rw [if_neg on, log_bind]
  refine Emits.mem (P := fun _ => True) (.ite (fun _ => .pure _) fun _ => (Emits.silent _).bind fun k => ?_)
    (copySection_data own copying byte _)
  cases k.loadWord (file + bssSizeField) with
  | none => exact .pure _
  | some size => exact copyBytes_emits _ _ _

theorem finishLoad_escapes {image : RiruImage} (code : image.code = some 120)
    (data : image.data = some 121) (base stop : Word) (log : List LoadEvent) :
    .stored 0x40300000 ∈ ((finishLoad file image base stop).run (k, log)).2.2 := by
  have switch : switchToUser.run (k, log) =
      ((), { k with currentPml4 := u, cr3 := pageAddress u }, log ++ [.switched k]) :=
    congrArg (fun s : Unit × Kernel => (s.1, s.2, log ++ [LoadEvent.switched k]))
      (own.space.switch own.user)
  rw [finishLoad, log_bind, switch, log_bind]
  exact Emits.mem (P := fun _ => True) (.ite (fun _ => .pure _) fun _ => (Emits.silent _).bind fun _ =>
    (Emits.silent _).bind fun _ => .pure _) (copyImage_escapes own code data _ _)

end

def ownRead (file : Word) : FileRead where
  size := 122
  content := some (ownFile file, 122)
  fits c given := by
    obtain rfl := Option.some.inj given
    exact show (122 : Word).toNat ≤ (122 : BitVec 32).toNat by decide

theorem riruLoad_stored {start : ℕ} {k₀ k₁ : Kernel} (hs : Spaces place k₀)
    (filled : Filled (ownRead (pageAddress start + headerSize))
      (ownFile (pageAddress start + headerSize)) 122 k₀ start k₁ k)
    (room : k₁.pmm.Room 0x3211 0x4000) (high : 2048 ≤ start) (le : start ≤ 0x3210) :
    .stored 0x40300000 ∈ loadLog desktopLayout (pageAddress start + headerSize) 122 k := by
  obtain ⟨apart, -, held⟩ := filled.apart hs.sound
  obtain ⟨used, unplaced⟩ := filled.first hs.sound
  have hs' := hs.apart apart
  have room' : k.pmm.Room 0x3211 0x4000 := by
    rw [filled.statics]
    exact room
  have address := filled.found.ptr
  have same := filled.same
  have parsed := filled.parse
  generalize pageAddress start + headerSize = file at *
  have page : pageOf file = start := by
    rw [pageOf]
    omega
  rw [riruParse_ok (ownFile_valid (by omega) (by omega)), readHeader_ownFile] at parsed
  have valid := ownHeader_valid (show 0x800000 ≤ file.toNat by omega) (by omega)
  obtain ⟨⟨base, stop⟩, spanned⟩ := imageSpan_ok valid (show (1 : Word) ≠ 0 by decide)
  have layout : desktopLayout.Low := ⟨by decide, by decide⟩
  obtain ⟨u, place', k', run, prepared, -⟩ := prepareSpace_room layout hs' valid
    (validRange_zero (bssStart (ownHeader file) stop)) room' (by decide)
  have own : OwnBlock place' u file k' := by
    refine ⟨(hs'.withUser _).step prepared.step, prepared.space, prepared.user, by omega,
      by omega, ?_, fun i lt => ?_⟩
    · rw [page]
      exact prepared.step.place_none unplaced used
    · have here : pageOf (file + i) = start := by
        rw [pageOf, BitVec.toNat_add]
        omega
      rw [byteAt_congr (prepared.step.frame ?_)]
      · exact same i lt
      · rw [here]
        exact prepared.step.place_none unplaced used
  obtain ⟨value, state⟩ := prepareSpace_erases desktopLayout (ownHeader file) stop (k, [])
  rw [run] at value state
  rw [loadLog, riruLoad, log_bind,
    show (silent get : LoadM Kernel).run (k, []) = (k, k, []) from rfl]
  dsimp only
  rw [parsed]
  dsimp only [Except.map]
  rw [spanned]
  dsimp only
  rw [log_bind, value]
  dsimp only
  rw [if_neg (not_not.mpr rfl)]
  have before : ((prepareSpace desktopLayout (ownHeader file) stop).run (k, [])).2 =
      (k', ((prepareSpace desktopLayout (ownHeader file) stop).run (k, [])).2.2) :=
    Prod.ext state rfl
  rw [before]
  exact finishLoad_escapes own rfl rfl base stop _

end Logged

end TinyOS.Memory
