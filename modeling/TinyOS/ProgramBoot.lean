import TinyOS.NanoFSBuilt
import TinyOS.PackedSegments
import TinyOS.ExecLeaks

set_option autoImplicit false

/-! From an ELF file to a process: packed, put on the disk image, read by the kernel, loaded and
started (tools/riru_pack.c, tools/nanofs_img.c, riru/loader.c, process/process.c). -/
namespace TinyOS.NanoFS
open ByteWords LibcString EntryStores Memory Riru

theorem fsRead_le (s : Fs) (name : CString) (heap : Buffer) (size : UInt32) :
    (s.call (fsRead s.dir (some name) (some heap) size)).1.1 ≤ size.toNat := by
  rw [call_fst, fsRead_run]
  split_ifs
  · change (-1 : ℤ) ≤ _
    omega
  · change (-2 : ℤ) ≤ _
    omega
  · dsimp only
    rw [extent_min]
    omega

/-- What `riru_load_file` gets of a file: the size that `fs_stat` reports, and what `fs_read` makes
of a buffer that held `heap`. Without a file `node` stays as it was. -/
def Fs.fileRead (s : Fs) (node : Inode) (heap : Buffer) (name : CString) : Option FileRead :=
  let stat := (s.call (fsStat s.dir name (some node))).1
  if stat.1 ≠ 0 then none
  else
    let size := (stat.2.getD node).size
    let read := (s.call (fsRead s.dir (some name) (some heap) size)).1
    some {
      size := size.toBitVec
      content := if read.1 < 0 then none
        else some (fun a => ((read.2.getD heap) a.toNat).toBitVec, BitVec.ofInt 64 read.1)
      fits := by
        intro c given
        have le := fsRead_le s name heap size
        have small := size.toNat_lt
        split_ifs at given with failed
        obtain rfl := Option.some.inj given
        dsimp only
        rw [BitVec.toNat_ofInt, UInt32.toNat_toBitVec]
        change read.1 ≤ _ at le
        omega }

/-- The files by the names that `process_exec` is called with. -/
def Fs.files (s : Fs) (node : Inode) (heap : Buffer) (name : List (BitVec 8)) :
    Option FileRead :=
  s.fileRead node heap ⟨cstr (name.map UInt8.ofBitVec), cstr_noNul _⟩

variable {s : Fs} {name : CString} {bytes : List UInt8}

theorem fileRead_of_keeps (sound : s.Sound) {k : UInt32}
    (keeps : s.view.Keeps shape s.dir name.chars k bytes) (fits : bytes.length ≤ 2044)
    (node : Inode) (heap : Buffer) : ∃ f content, s.fileRead node heap name = some f ∧
      f.size = BitVec.ofNat 32 bytes.length ∧
      f.content = some (content, BitVec.ofNat 64 bytes.length) ∧
      ∀ a : Word, a.toNat < bytes.length → content a = (bytes.getD a.toNat 0).toBitVec := by
  have answer := (@Fs.Sound.simulates_stat s name sound node).answer
  have item : (s.view.step shape (.stat name.chars)).1 =
      .item ⟨name.chars, false, bytes.length⟩ := by
    rw [Store.step, keeps.find rfl]
    rw [Option.bind_some, keeps.entry]
    rfl
  rw [item] at answer
  obtain ⟨code, node'⟩ := Answer.out.inj answer
  have size : ((s.call (fsStat s.dir name (some node))).1.2.getD node).size =
      UInt32.ofNat bytes.length := by
    have eq : ((s.call (fsStat s.dir name (some node))).1.2.getD node).size.toNat =
      bytes.length := congrArg Item.size node'
    rw [← eq, UInt32.ofNat_toNat]
  have whole : min bytes.length (UInt32.ofNat bytes.length).toNat = bytes.length := by
    rw [UInt32.toNat_ofNat_of_lt' (by change bytes.length < 4294967296; omega), Nat.min_self]
  have read := readsAs_keeps keeps heap (UInt32.ofNat bytes.length)
  rw [whole] at read
  refine ⟨_, fun a : Word =>
    (if a.toNat < bytes.length then bytes.getD a.toNat 0 else heap a.toNat).toBitVec,
    if_neg (not_not.mpr code), congrArg UInt32.toBitVec size, ?_,
    fun a lt => congrArg UInt8.toBitVec (if_pos lt)⟩
  dsimp only
  rw [size, read]
  dsimp only
  rw [if_neg (not_lt.mpr (Int.natCast_nonneg _)), BitVec.ofInt_natCast]
  rfl

end TinyOS.NanoFS

namespace TinyOS.Memory
open RadixTables Riru

variable {u start : ℕ} {place place₁ : Places} {k k₁ k₂ k' : Kernel} {b : Layout}
  {image : RiruImage} {end' : Word} {pages : Set ℕ} {result : RiruLoadResult} {f : FileRead}

theorem kfree_memory (k : Kernel) {ptr : Word} {p : ℕ} (ne : p ≠ pageOf (ptr - headerSize)) :
    ((kfree ptr).run k).2.memory p = k.memory p := by
  rw [kfree]
  split_ifs with null
  · rfl
  rw [run_bind, show (get : KernelM Kernel).run k = (k, k) from rfl]
  dsimp only
  split_ifs with other
  · rfl
  · exact setEntry_table _ _ _ ne

structure FileLoaded (b : Layout) (f : FileRead) (k : Kernel) (result : RiruLoadResult)
    (k' : Kernel) (bytes : Bytes) (count : Word) (start : ℕ) (k₁ k₂ k₃ : Kernel) : Prop where
  filled : Filled f bytes count k start k₁ k₂
  load : (riruLoad b (pageAddress start + headerSize) count).run k₂ = (.loaded result, k₃)
  freed : k' = ((kfree (pageAddress start + headerSize)).run k₃).2

theorem riruLoadFile_loaded {file : Option FileRead}
    (load : (riruLoadFile b file).run k = (.loaded result, k')) :
    ∃ f bytes count start k₁ k₂ k₃, file = some f ∧
      FileLoaded b f k result k' bytes count start k₁ k₂ k₃ := by
  rcases riruLoadFile_cases b file k with
    ⟨⟨code, failed⟩, -⟩ | ⟨f, bytes, count, start, k₁, k₂, rfl, filled⟩
  · rw [load] at failed
    cases failed
  rw [filled.load, run_bind] at load
  rcases run : (riruLoad b (pageAddress start + headerSize) count).run k₂ with ⟨outcome, k₃⟩
  rw [run] at load
  cases outcome with
  | halted => cases load
  | failed code => cases load
  | loaded result' =>
    obtain ⟨same, freed⟩ := Prod.mk.inj load
    obtain rfl := LoadOutcome.loaded.inj same
    exact ⟨f, bytes, count, start, k₁, k₂, k₃, rfl, filled, run, freed.symm⟩

/-- A page that is neither a table nor one of the image makes no difference to the program. -/
theorem KeptLoad.outside (h : KeptLoad image end' pages place k u place₁ k₁ k')
    (sub : imagePages image.header end' ⊆ pages) (unplaced : place₁ start = none)
    (off : start ∉ imagePages image.header end')
    (memory : ∀ p, p ≠ start → k₂.memory p = k'.memory p) (user : k₂.riruUserCr3 = k'.riruUserCr3)
    {a : Word} {v : BitVec 8}
    (left : written (stretches image (bssStart image.header end')) a = some v) :
    k₂.virtualByte k₂.riruUserCr3 a = some v := by
  have here := h.content sub left
  obtain ⟨s, mem, has, -⟩ := written_from left
  have page := stretch_pages mem has
  have low := (imagePages_low h.valid h.prepared.bss _ page).2
  have apart : pageOf a ≠ start := fun eq => off (eq ▸ page)
  have table {l : List (Fin 512)} {i : Fin 512} {t : ℕ} (on : (l ++ [i]) <+: path a)
      (hw : walk child k₁.memory u l = some t) : k'.memory t = k₁.memory t ∧ t ≠ start := by
    rw [path_eq] at on
    refine ⟨h.finished.off t fun mem => h.own (sub page) on hw (sub mem), ?_⟩
    have short : l.length+1 ≤ 4 := by simpa [pagePath] using on.length_le
    have placed := h.spaces.sound.placed.place_walk h.prepared.space.root (by simp; omega) hw
    rintro rfl
    rw [unplaced] at placed
    cases placed
  have physical' : getPhysicalFrom k'.memory u a = getPhysicalFrom k₁.memory u a :=
    getPhysicalFrom_tables fun on hw => (table on hw).1
  have physical : getPhysicalFrom k₂.memory u a = getPhysicalFrom k₁.memory u a :=
    getPhysicalFrom_tables fun on hw => by
      obtain ⟨same, ne⟩ := table on hw
      rw [memory _ ne, same]
  have identity : getPhysicalFrom k₁.memory u a = a :=
    h.prepared.space.physical h.spaces (by
      rw [pageOf] at low
      omega)
  have byte : k₂.byteAt a = k'.byteAt a := by
    rw [Kernel.byteAt, Kernel.byteAt, Kernel.wordAt, Kernel.wordAt, memory _ apart]
  rw [Kernel.virtualByte, h.user, physical', identity] at here
  rw [Kernel.virtualByte, user, h.user, physical, identity, byte]
  exact here

theorem Filled.inside {bytes : Bytes} {count : Word} (h : Filled f bytes count k start k₁ k₂)
    (fits : count.toNat ≤ 4072) :
    rangeOf (pageAddress start + headerSize) count ⊆ {start} := by
  rintro p ⟨-, le, lt⟩
  rw [h.found.ptr] at le lt
  rw [Set.mem_singleton_iff]
  omega

/-- The copy leaves the page tables and the buffer alone, and the program is in memory when the
buffer has been given back. -/
theorem FileLoaded.program {bytes : Bytes} {count : Word} {k₃ : Kernel}
    (h : FileLoaded b f k result k' bytes count start k₁ k₂ k₃) (hs : Spaces place k)
    {elf : Bytes} {elfSize : Word} {packed : Packed} (small : elfSize.toNat < 2^60)
    (pack : riruPack elf elfSize = some packed) (fits : packed.imageSize.toNat ≤ 511)
    (whole : count = packed.imageSize) (same : SameBytes packed.imageSize packed.image bytes)
    (apart : ∀ image, riruParse (some bytes) count = .ok image →
      imageSpan image.header = .ok (result.imageBase, result.imageEnd) →
      CopyApart f image result.imageEnd k ∧
        k.kernelPml4 ∉ imagePages image.header result.imageEnd) :
    result.entry = (readElfHeader elf).entry ∧ ∀ a v, written (plan elf) a = some v →
      k'.virtualByte k'.riruUserCr3 a = some v := by
  subst whole
  obtain ⟨image, kp, runs⟩ := riruLoad_runs h.load
  obtain ⟨image', parsed, header'⟩ := h.filled.parsed runs.parsed
  obtain ⟨copy, root⟩ := apart image' parsed (by rw [header']; exact runs.span)
  obtain ⟨clear, off⟩ := copy.clear hs h.filled (h.filled.inside (by omega))
  rw [header'] at clear off root
  obtain ⟨apart₂, -, held⟩ := h.filled.apart hs.sound
  have hs₂ := hs.apart apart₂
  obtain ⟨u, place₁, kept⟩ := runs.clear hs₂ held clear
  have inside : PackedInMemory packed place k₂ (pageAddress start + headerSize) :=
    ⟨h.filled.found.ptr_ne, held, fun a lt => (h.filled.same a lt).trans (same a lt)⟩
  obtain ⟨header, planned⟩ := runs.header inside small pack
  have kernelPml4 : k₂.kernelPml4 = k.kernelPml4 := apart₂.kernelPml4
  have entry := runs.entry hs₂ held clear (by rwa [kernelPml4])
  obtain ⟨taken, unplaced⟩ := h.filled.first hs.sound
  have free : place₁ start = none := kept.prepared.step.place_none unplaced taken
  have memory : ∀ p, p ≠ start → k'.memory p = k₃.memory p := by
    intro p ne
    rw [h.freed]
    refine kfree_memory k₃ ?_
    rw [BitVec.add_sub_cancel, pageOf_pageAddress (by have := h.filled.found.le; omega)]
    exact ne
  have user : k'.riruUserCr3 = k₃.riruUserCr3 := by
    rw [h.freed]
    exact keeps_kfree static_userCr3 _ k₃
  constructor
  · rw [entry, header, (packed_header small pack).2]
  · intro a v left
    exact kept.outside Set.subset_union_left free off memory user ((planned.written a).trans left)

/-- What `process_exec` has done when it returns 0. -/
structure Started (s s' : System) (slot : Slot) (entry : Word) : Prop where
  free : (s.table slot).state ≠ .running
  table : s'.table = Function.update s.table slot ⟨s.nextPid, .running, entry, riruUserStackTop,
    s'.kernel.riruUserCr3, 0, initialFrame entry riruUserStackTop⟩
  current : s'.currentIndex = s.currentIndex

theorem processExec_started {file : Option FileRead} {s s' : System}
    (run : (processExec b file).run s = (some 0, s')) : ∃ slot result,
      (riruLoadFile b file).run s.kernel = (.loaded result, s'.kernel) ∧
        Started s s' slot result.entry := by
  rw [processExec, system_bind, inKernel_run] at run
  rcases load : (riruLoadFile b file).run s.kernel with ⟨outcome, k⟩
  rw [load] at run
  cases outcome with
  | halted => cases run
  | failed code => cases run
  | loaded result =>
    dsimp only at run
    rw [system_bind, inKernel_run, show riruGetUserCr3.run k = (k.riruUserCr3, k) from rfl] at run
    dsimp only at run
    split_ifs at run with zero
    · cases run
    rw [system_bind] at run
    rcases processCreate_cases result.entry riruUserStackTop k.riruUserCr3
      { s with kernel := k } with full | ⟨slot, free, created⟩
    · rw [full] at run
      cases run
    · rw [created] at run
      obtain rfl := (Prod.mk.inj run).2
      exact ⟨slot, result, rfl, free, rfl, rfl⟩

/-- The system as a timer tick leaves it that resumes a program in its own address space. -/
structure Dispatched (s : System) (slot : Slot) (entry : Word) (r : InterruptFrame × System) :
    Prop where
  frame : r.1 = initialFrame entry riruUserStackTop
  current : r.2.currentIndex = some slot
  cr3 : r.2.kernel.cr3 = (s.table slot).cr3
  space : r.2.kernel.currentPml4 = physicalToTable (s.table slot).cr3
  memory : r.2.kernel.memory = s.kernel.memory

theorem Started.dispatched {s s' : System} {slot : Slot} {entry : Word}
    (h : Started s s' slot entry) {page : ℕ} (pos : 0 < page) (lt : page < 2^20)
    (user : s'.kernel.riruUserCr3 = pageAddress page) (idle : s.currentIndex = none)
    (alone : ∀ j, (s.table j).state ≠ .running) (frame : InterruptFrame) :
    Dispatched s' slot entry ((schedulerTick frame).run s') := by
  have current : s'.currentIndex = none := h.current.trans idle
  have here := congrFun h.table slot
  rw [Function.update_self] at here
  have saved : saveFrame s' frame = s'.table := by rw [saveFrame, current]
  rcases schedulerTick_cases frame s' with ⟨none, -⟩ | ⟨next, found, tick⟩
  · refine absurd ?_ (none slot)
    rw [here]
  rw [saved] at found tick
  have same : next = slot := by
    by_contra other
    have running := nextRunning_running found
    rw [h.table, Function.update_of_ne other] at running
    exact alone next running
  subst same
  rw [tick, here, user, vmmSwitchAddressSpace_run pos (by omega)]
  refine ⟨rfl, rfl, ?_, ?_, rfl⟩
  · rw [here, user]
  · rw [here, user, physicalToTable_pageAddress (by omega)]

/-- A load that returns 0 has taken a page for an address space. -/
theorem FileLoaded.takes {bytes : Bytes} {count : Word} {k₃ : Kernel}
    (h : FileLoaded b f k result k' bytes count start k₁ k₂ k₃)
    (parsed : riruParse (some bytes) count = .ok image)
    (span : imageSpan image.header = .ok (result.imageBase, result.imageEnd)) :
    TakesSpace f bytes count image (result.imageBase, result.imageEnd) k := by
  obtain ⟨image', kp, runs⟩ := riruLoad_runs h.load
  have done : ((prepareSpace b image'.header result.imageEnd).run k₂).1 = 0 := by
    rw [runs.prepared]
  have pmm : k₂.pmm = k₁.pmm := by rw [h.filled.statics]
  obtain ⟨cr3, nonzero⟩ := prepareSpace_cr3 done
  refine ⟨h.filled.content, ?_, parsed, span, ?_⟩
  · rw [h.filled.found.run]
    exact h.filled.found.ptr_ne
  · rw [h.filled.found.run, ← pmm, ← prepareSpace_alloc done, cr3]
    exact nonzero

def RootApart (files : List (BitVec 8) → Option FileRead) (name : Option (List (BitVec 8)))
    (k : Kernel) : Prop := ∀ f bytes count image span, named files name = some f →
  TakesSpace f bytes count image span k → k.kernelPml4 ∉ imagePages image.header span.2

end TinyOS.Memory

namespace TinyOS.Shell
open LibcString NanoFS EntryStores Memory Riru

def packedFile (packed : Packed) : List UInt8 :=
  (List.range packed.imageSize.toNat).map fun i =>
    UInt8.ofBitVec (packed.image (BitVec.ofNat 64 i))

def helloArgument : List (BitVec 8) := helloName.chars.map UInt8.toBitVec

variable {elf : Bytes} {elfSize : Word} {packed : Packed} {fuel : ℕ} {lines : List Entered}
  {s : Fs}

theorem packedFile_length (packed : Packed) :
    (packedFile packed).length = packed.imageSize.toNat := by
  rw [packedFile, List.length_map, List.length_range]

/-- What the kernel reads is what the packer wrote, after any session that spares the program. -/
theorem packed_read (small : elfSize.toNat < 2^60) (pack : riruPack elf elfSize = some packed)
    (fits : packed.imageSize.toNat ≤ 511) (totalSectors : UInt32) (st : Statics)
    (short : ∀ l ∈ lines, l.2.chars.length < cmdMax) (few : lines.length < 4294967286)
    (spares : ∀ l ∈ lines, Spares fuel helloName l)
    (after : s = (session (executeCommand fuel) lines
      (builtFs totalSectors (packedFile packed) st)).2) (home : s.dir = 0)
    (node : Inode) (heap : Buffer) : ∃ f content, s.files node heap helloArgument = some f ∧
      f.size = packed.imageSize.setWidth 32 ∧ f.content = some (content, packed.imageSize) ∧
      SameBytes packed.imageSize packed.image content := by
  have length := packedFile_length packed
  have enough := (packed_header small pack).1
  have some : packedFile packed ≠ [] := List.ne_nil_of_length_pos (by omega)
  have follows := @built_follows _ fuel lines totalSectors st some (by omega) short few
  subst after
  have keeps := session_keeps (helloStore_keeps (packedFile packed)) spares
  rw [← follows.view, ← home] at keeps
  obtain ⟨f, content, read, size, whole, same⟩ :=
    fileRead_of_keeps follows.sound keeps (by omega) node heap
  have bound := packed.imageSize.isLt
  have name : (⟨cstr (helloArgument.map UInt8.ofBitVec), cstr_noNul _⟩ : CString) = helloName :=
    chars_inj.mp (by decide)
  refine ⟨f, content, by rw [Fs.files, name, read], ?_, ?_, fun a lt => ?_⟩
  · rw [size, length, BitVec.ofNat_toNat]
  · rw [whole, length, BitVec.ofNat_toNat, BitVec.setWidth_eq]
  · rw [same a (by omega), List.getD_eq_getElem _ _ (by omega)]
    simp only [packedFile, List.getElem_map, List.getElem_range, BitVec.ofNat_toNat,
      BitVec.setWidth_eq]

theorem listing_spares (name : CString) : Spares 0 name listing := by
  intro op text r act asks
  have known : action plainSetting 0 listing.2 = ls := rfl
  rw [show listing.1 = plainSetting from rfl, known] at act
  cases act
  cases asks
  exact ⟨by simp, by simp [Request.names]⟩

theorem listing_home (a : Store UInt32 UInt8) :
    (session (planCommand 0) [listing] a).2.dir = a.dir := by
  have known : action plainSetting 0 listing.2 = ls := rfl
  rw [session, session, planCommand, show listing.1 = plainSetting from rfl, known]
  rfl

theorem stepPacked_size : stepPacked.imageSize = 144 := by decide +kernel

theorem stepPacked_entry : (readHeader stepPacked.image).entry = 0x3300000 := by decide +kernel

theorem stepElf_entry : (readElfHeader stepElf).entry = 0x3300000 := by decide +kernel

/-- The desktop starts the program, wherever it is read into. -/
theorem step_starts {f : FileRead} {content : Bytes} (size : f.size = 144)
    (whole : f.content = some (content, 144)) (same : SameBytes 144 stepPacked.image content) :
    ∃ place sys sys', Booted desktopLayout sys.kernel ∧ Spaces place sys.kernel ∧
      (processExec desktopLayout (some f)).run sys = (some 0, sys') ∧
      ∀ image span, riruParse (some content) 144 = .ok image → imageSpan image.header = .ok span →
        CopyApart f image span.2 sys.kernel ∧
          sys.kernel.kernelPml4 ∉ imagePages image.header span.2 := by
  have valid : riruValidate (some stepPacked.image) 144 = 0 := stepPacked_size ▸ stepPacked_valid
  have accepted := (riruValidate_congr same).trans valid
  have header : readHeader content = readHeader stepPacked.image :=
    readHeader_congr (by decide) same
  obtain ⟨image, parsed, given⟩ : ∃ image, riruParse (some content) 144 = .ok image ∧
      image.header = readHeader stepPacked.image := ⟨_, riruParse_ok accepted, header⟩
  have page : OnePage image.header := given ▸ stepPacked_page
  have entry : image.header.entry = 0x3300000 := by rw [given, stepPacked_entry]
  obtain ⟨k, booted, room, -⟩ := desktop_booted
  obtain ⟨place, spaces, -, -⟩ := booted.spaces
  have low : desktopLayout.Low := ⟨by decide, by decide⟩
  have nonzero : f.size ≠ 0 := by
    rw [size]
    decide
  have pages : (kmallocPages (f.size.setWidth 64)).toNat = 1 := by
    rw [size]
    decide
  obtain ⟨result, place', k', loaded, file, -⟩ := riruLoadFile_room low spaces room whole nonzero
    pages parsed page.span page.bss.valid (by rw [entry]; decide) (by decide) fun p mem => by
      rw [page.pages p mem]
      decide
  obtain ⟨u, user, -, space⟩ := file.user
  have lt := space.lt
  refine ⟨place, ⟨k, fun _ => emptyProcess, none, 1, 0⟩, _, booted, spaces,
    processExec_first space.pos (by omega) rfl loaded user, fun image' span parsed' ends => ?_⟩
  obtain rfl := Except.ok.inj (parsed.symm.trans parsed')
  rw [← Except.ok.inj (page.span.symm.trans ends)]
  refine ⟨page.copyApart spaces room nonzero pages, fun mem => ?_⟩
  have used := (spaces.sound.used spaces.root).1
  have here : k.kernelPml4 = 0x3300 := page.pages _ mem
  rw [here, room.free (by decide) (by decide)] at used
  cases used

end TinyOS.Shell
