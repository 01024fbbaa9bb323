import TinyOS.Interrupts
import TinyOS.RiruEvents

set_option autoImplicit false

namespace TinyOS.Memory
open RadixTables Riru

variable {u start n : ℕ} {place place' : Places} {k k' k₁ k₂ : Kernel} {s : Pmm} {b : Layout}
  {size : Word}

/-- The file of a name; NULL and the empty string name none. -/
def named (files : List (BitVec 8) → Option FileRead) : Option (List (BitVec 8)) → Option FileRead
  | none => none
  | some [] => none
  | some name => files name

/-- `process_exec` on a NUL-terminated name; `none` is the null pointer. -/
def execByName (b : Layout) (files : List (BitVec 8) → Option FileRead)
    (name : Option (List (BitVec 8))) : SystemM (Option ℤ) :=
  match name with
  | none => return some (-1)
  | some [] => return some (-1)
  | some name => processExec b (files name)

/-- The bitmap, the counter of free pages and `heap_used` are as before. -/
def Restored (k k' : Kernel) : Prop := k'.pmm = k.pmm ∧ k'.heapUsed = k.heapUsed

/-- A call of `riru_load` reaches `vmm_create_user_space`, with a page left for the PML4. -/
structure TakesSpace (f : FileRead) (bytes : Bytes) (count : Word) (image : RiruImage)
    (span : Word × Word) (k : Kernel) : Prop where
  content : f.content = some (bytes, count)
  buffer : ((kmalloc (f.size.setWidth 64)).run k).1 ≠ 0
  parsed : riruParse (some bytes) count = .ok image
  span : imageSpan image.header = .ok span
  page : (pmmAllocPage ((kmalloc (f.size.setWidth 64)).run k).2.pmm).1 ≠ 0

theorem freePages_takeRun_first {m : ℕ} (pos : 0 < start) (le : start+n ≤ 1048576)
    (free : ∀ p, start ≤ p → p < start+n → s.used p = false) (short : m ≤ n) :
    freePages (s.takeRun start n) (pageAddress start) m = { s with
      used := fun p => decide (start+m ≤ p ∧ p < start+n) || s.used p
      freePages := s.freePages - BitVec.ofNat 64 (n-m) } := by
  induction m with
  | zero => rfl
  | succ m ih =>
    have address : pageAddress start + BitVec.ofNat 64 m*pageSize = pageAddress (start+m) := by
      rw [show pageSize = BitVec.ofNat 64 4096 from rfl, ← BitVec.ofNat_mul, pageAddress_add]
    have last : freePages (s.takeRun start n) (pageAddress start) (m+1) =
        pmmFreePage (freePages (s.takeRun start n) (pageAddress start) m)
          (pageAddress (start+m)) := by
      rw [freePages, List.range_succ, List.foldl_concat, address]
      rfl
    rw [last, ih (by omega), pmmFreePage_pageAddress (by omega) (by omega) (by simp; omega)]
    have used : Function.update (fun p => decide (start+m ≤ p ∧ p < start+n) || s.used p)
        (start+m) false = fun p => decide (start+(m+1) ≤ p ∧ p < start+n) || s.used p := by
      funext p
      by_cases eq : p = start+m
      · rw [eq, Function.update_self, free _ (by omega) (by omega)]
        simp
      · rw [Function.update_of_ne eq]
        congr 1
        rw [decide_eq_decide]
        omega
    have count : s.freePages - BitVec.ofNat 64 (n-m) + 1 =
        s.freePages - BitVec.ofNat 64 (n-(m+1)) := by
      rw [show n-m = n-(m+1)+1 by omega, BitVec.ofNat_add]
      generalize BitVec.ofNat 64 (n-(m+1)) = x
      bv_omega
    simp only [Pmm.give, used, count]

theorem freePages_takeRun (pos : 0 < start) (le : start+n ≤ 1048576)
    (free : ∀ p, start ≤ p → p < start+n → s.used p = false) :
    freePages (s.takeRun start n) (pageAddress start) n = s := by
  rw [freePages_takeRun_first pos le free (le_refl n), Nat.sub_self]
  have used : (fun p => decide (start+n ≤ p ∧ p < start+n) || s.used p) = s.used := by
    funext p
    rw [decide_eq_false (by omega), Bool.false_or]
  rw [used]
  congr 1
  exact BitVec.sub_zero _

theorem freePages_other {m p : ℕ} (le : start+m ≤ 1048576)
    (off : p < start ∨ start+m ≤ p) : (freePages s (pageAddress start) m).used p = s.used p := by
  induction m with
  | zero => rfl
  | succ m ih =>
    have address : pageAddress start + BitVec.ofNat 64 m*pageSize = pageAddress (start+m) := by
      rw [show pageSize = BitVec.ofNat 64 4096 from rfl, ← BitVec.ofNat_mul, pageAddress_add]
    have last : freePages s (pageAddress start) (m+1) =
        pmmFreePage (freePages s (pageAddress start) m) (pageAddress (start+m)) := by
      rw [freePages, List.range_succ, List.foldl_concat, address]
      rfl
    rw [last, Bool.eq_iff_iff, pmmFreePage_used _ (pageAddress_aligned _),
      pageOf_pageAddress (by omega), ih (by omega) (by omega)]
    exact ⟨fun h => h.1, fun h => ⟨h, fun freed => by omega⟩⟩

theorem Found.heapUsed (h : Found size k start k') (nonzero : size ≠ 0) :
    k'.heapUsed = k.heapUsed + kmallocPages size*pageSize := by
  rcases alloc : pmmAllocPages k.pmm (kmallocPages size) with ⟨address, pmm⟩
  have run := h.run.symm.trans (kmalloc_run nonzero alloc)
  split_ifs at run
  · exact absurd (congrArg Prod.fst run) h.ptr_ne
  · rw [(Prod.mk.inj run).2]

/-- `kfree` of a block found whose header is as `kmalloc` left it. -/
theorem Found.kfree (h : Found size k start k₁) (small : size.toNat < 2^63)
    (same : SameHeader start k₁ k₂) :
    ((kfree (pageAddress start + headerSize)).run k₂).2.pmm =
        freePages k₂.pmm (pageAddress start) (kmallocPages size).toNat ∧
      ((kfree (pageAddress start + headerSize)).run k₂).2.heapUsed =
        if kmallocPages size*pageSize ≤ k₂.heapUsed then
          k₂.heapUsed - kmallocPages size*pageSize else 0 := by
  have le := h.le
  have run := kfree_run (h.intact small same) (by rw [h.block_first]; omega)
    (by rw [Block.pages]; omega)
  rw [h.block_first, Block.pages, ofNat_toNat] at run
  rw [run]
  exact ⟨rfl, rfl⟩

/-- A block given back with nothing else changed leaves the allocators as they were. -/
theorem Found.restored (h : Found size k start k₁) (nonzero : size ≠ 0) (small : size.toNat < 2^32)
    (heap : k.heapUsed.toNat ≤ 4294967296) (header : SameHeader start k₁ k₂)
    (same : Restored k₁ k₂) :
    Restored k ((TinyOS.Memory.kfree (pageAddress start + headerSize)).run k₂).2 := by
  obtain ⟨pmm, used⟩ := h.kfree (by omega) header
  constructor
  · rw [pmm, same.1, h.pmm]
    exact freePages_takeRun h.pos h.le h.free
  · have pages := kmallocPages_toNat (show size.toNat < 2^63 by omega)
    rw [used, same.2, h.heapUsed nonzero]
    have bytes : (kmallocPages size*pageSize).toNat = (size.toNat+4119)/4096*4096 := by
      rw [BitVec.toNat_mul, pages, show pageSize.toNat = 4096 from rfl]
      omega
    have sum : (k.heapUsed + kmallocPages size*pageSize).toNat =
        k.heapUsed.toNat+(size.toNat+4119)/4096*4096 := by
      rw [BitVec.toNat_add, bytes]
      omega
    rw [if_pos (BitVec.le_def.mpr (by omega))]
    exact BitVec.add_sub_cancel _ _

/-- Without a page left for the PML4 nothing changes but `riru_user_cr3`. -/
theorem prepareSpace_full (h0 : k.pmm.used 0 = true) (full : (pmmAllocPage k.pmm).1 = 0)
    (h : RiruHeader) (stop : Word) : (prepareSpace b h stop).run k = (-6, k.withUser 0) := by
  rcases allocateTable_cases h0 with alloc | ⟨page, -, -, -, -, alloc⟩
  · have create : (vmmCreateUserSpace b).run k = (0, k) := by
      rw [vmmCreateUserSpace, run_bind, alloc]
      rfl
    exact prepareSpace_none create
  · have table := allocateTable_fst k
    rw [alloc, if_pos full] at table
    cases table

/-- A load of a buffer that takes no page for an address space leaves the allocators and the
memory alone. -/
theorem riruLoad_early {file size : Word} (h0 : k.pmm.used 0 = true)
    (stays : ∀ image span, riruParse (k.fileAt file) size = .ok image →
      imageSpan image.header = .ok span → (pmmAllocPage k.pmm).1 = 0) :
    ∃ code k', (riruLoad b file size).run k = (.failed code, k') ∧ k'.memory = k.memory ∧
      Restored k k' := by
  rw [riruLoad, run_bind, show (get : KernelM Kernel).run k = (k, k) from rfl]
  dsimp only
  cases parsed : riruParse (k.fileAt file) size with
  | error code => exact ⟨code, k, rfl, rfl, rfl, rfl⟩
  | ok image =>
    dsimp only
    cases span : imageSpan image.header with
    | error code => exact ⟨code, k, rfl, rfl, rfl, rfl⟩
    | ok span' =>
      obtain ⟨base, stop⟩ := span'
      have full := stays image _ parsed span
      dsimp only
      rw [run_bind, prepareSpace_full h0 full]
      exact ⟨-6, k.withUser 0, rfl, rfl, rfl, rfl⟩

theorem riruLoadFile_restores (hs : Spaces place k) (heap : k.heapUsed.toNat ≤ 4294967296)
    {file : Option FileRead}
    (stays : ∀ f bytes count image span, file = some f → ¬TakesSpace f bytes count image span k) :
    (∃ code, ((riruLoadFile b file).run k).1 = .failed code) ∧
      Restored k ((riruLoadFile b file).run k).2 := by
  cases file with
  | none => exact ⟨⟨-2, rfl⟩, rfl, rfl⟩
  | some f =>
    have width : (f.size.setWidth 64 : Word).toNat < 2^32 := by
      rw [BitVec.toNat_setWidth]
      have := f.size.isLt
      omega
    rcases kmalloc_found (f.size.setWidth 64) hs.sound.page0 with none | ⟨start, k₁, found⟩
    · rw [riruLoadFile, run_bind, none, if_pos rfl]
      exact ⟨⟨-3, rfl⟩, rfl, rfl⟩
    have nonzero : (f.size.setWidth 64 : Word) ≠ 0 := by
      intro zero
      have run := found.run
      rw [kmalloc, if_pos zero] at run
      exact absurd (congrArg Prod.fst run).symm found.ptr_ne
    have back {k₃ : Kernel} (header : SameHeader start k₁ k₃) (same : Restored k₁ k₃) :=
      found.restored nonzero width heap header same
    have le := found.le
    cases content : f.content with
    | none =>
      rw [riruLoadFile, run_bind, found.run, if_neg found.ptr_ne, content]
      exact ⟨⟨-4, rfl⟩, back (.of_page (by omega) rfl) ⟨rfl, rfl⟩⟩
    | some pair =>
      obtain ⟨bytes, count⟩ := pair
      obtain ⟨k₂, filled⟩ : ∃ k₂, Filled f bytes count k start k₁ k₂ := ⟨_, content, found, rfl⟩
      have h0 : k₂.pmm.used 0 = true := by
        rw [filled.statics]
        simp only [found.pmm, Pmm.takeRun, hs.sound.page0, Bool.or_true]
      have stuck : ∀ image span,
          riruParse (k₂.fileAt (pageAddress start + headerSize)) count = .ok image →
          imageSpan image.header = .ok span → (pmmAllocPage k₂.pmm).1 = 0 := by
        intro image span parsed spanned
        obtain ⟨image', parsed', header⟩ := filled.parsed parsed
        by_contra page
        refine stays f bytes count image' span rfl ⟨content, ?_, parsed', header ▸ spanned, ?_⟩
        · rw [found.run]
          exact found.ptr_ne
        · rw [found.run]
          rw [filled.statics] at page
          exact page
      obtain ⟨code, k₃, load, memory, same⟩ := riruLoad_early (b := b) h0 stuck
      rw [filled.load, run_bind, load]
      dsimp only
      rw [LoadOutcome.release_run LoadOutcome.noConfusion]
      refine ⟨⟨code, rfl⟩, back (filled.header.trans (.of_page (by omega) (by rw [memory]))) ?_⟩
      rw [filled.statics] at same
      exact same

/-- The copy leaves the first page of the file buffer alone, and the page tables that translate
the image and that page. -/
structure CopyApart (f : FileRead) (image : RiruImage) (stop : Word) (k : Kernel) : Prop where
  tables : ClearOfTables ((kmalloc (f.size.setWidth 64)).run k).2
    (imagePages image.header stop ∪ {pageOf ((kmalloc (f.size.setWidth 64)).run k).1})
  buffer : pageOf ((kmalloc (f.size.setWidth 64)).run k).1 ∉ imagePages image.header stop

theorem prepareSpace_takes (hs : Spaces place k) {h : RiruHeader} (valid : SectionsValid h)
    (page : (pmmAllocPage k.pmm).1 ≠ 0) (stop : Word) : ∃ p, k.pmm.used p = false ∧
      ((prepareSpace b h stop).run k).2.pmm.used p = true := by
  rcases createUserSpace_spec b hs.sound hs.root with
    ⟨full, -⟩ | ⟨p, place₁, result, k₁, run, step, -, -, fresh, root, -⟩
  · exact absurd full page
  refine ⟨p, step.unused fresh root, ?_⟩
  have used := (step.sound.used root).1
  rcases createUserSpace_spaces b hs with
    ⟨r, place₂, k₂, run', -⟩ | ⟨u, place₂, k₂, run', -, step', -, space⟩
  · obtain ⟨rfl, rfl⟩ := Prod.mk.inj (run.symm.trans run')
    rw [prepareSpace_none run]
    exact used
  · obtain ⟨rfl, rfl⟩ := Prod.mk.inj (run.symm.trans run')
    have hs' := (hs.step step').withUser (pageAddress u)
    obtain ⟨result, place₃, k₃, pages, mapped, opens, -⟩ :=
      mapSections_spec hs' (space.withUser _) valid stop
    rw [prepareSpace_made run space, mapped]
    exact opens.step.used_keep used

/-- A page that holds no table and none of the image keeps what it holds. -/
theorem riruLoad_takes (hs : Spaces place k) {file count base stop : Word} {image : RiruImage}
    (held : Held place k file count) (parsed : riruParse (k.fileAt file) count = .ok image)
    (span : imageSpan image.header = .ok (base, stop)) (page : (pmmAllocPage k.pmm).1 ≠ 0)
    (clear : CopyClear file riruHeaderSize image.header stop k) (none : place start = none)
    (used : k.pmm.used start = true) (off : start ∉ imagePages image.header stop) :
    (∃ p, k.pmm.used p = false ∧ ((riruLoad b file count).run k).2.pmm.used p = true) ∧
      ((riruLoad b file count).run k).2.memory start = k.memory start := by
  have valid := imageSpan_valid span
  obtain ⟨p, free, taken⟩ := prepareSpace_takes (b := b) hs valid page stop
  obtain ⟨u, place₁, k₁, result, run, -, step, -, done⟩ := prepareSpace_spec b hs valid stop
  rw [run] at taken
  have kept : k₁.memory start = k.memory start := step.frame (step.place_none none used)
  rw [riruLoad, run_bind, show (get : KernelM Kernel).run k = (k, k) from rfl]
  dsimp only
  rw [parsed]
  dsimp only
  rw [span]
  dsimp only
  rw [run_bind, run]
  dsimp only
  by_cases zero : result = 0
  swap
  · rw [if_pos zero]
    exact ⟨⟨p, free, taken⟩, kept⟩
  rw [if_neg (not_not.mpr zero)]
  have prepared := done zero
  have hs₁ : Spaces place₁ k₁ := (hs.withUser (pageAddress u)).step prepared.step
  have alloc := @prepareSpace_alloc k b image.header stop (by
    rw [run]
    exact zero)
  rw [run] at alloc
  have inside := held.prepared parsed prepared.step
  have low : ∀ p ∈ imagePages image.header stop ∪ rangeOf file riruHeaderSize, p < 1048576 := by
    rintro p (mem | mem)
    · exact (imagePages_low valid prepared.bss p mem).2
    · exact inside.page_lt p (inside.head mem)
  obtain ⟨-, pmm, memory⟩ := Logged.finishLoad_confined hs₁ prepared.space prepared.user inside
    valid prepared.bss (prepared.clear hs alloc low clear) base []
  refine ⟨⟨p, free, ?_⟩, (memory start off).trans kept⟩
  rw [pmm]
  exact taken

/-- The header of a file in a block lies on the first page of the block. -/
theorem Filled.head {f : FileRead} {bytes : Bytes} {count : Word}
    (h : Filled f bytes count k start k₁ k₂) :
    rangeOf (pageAddress start + headerSize) riruHeaderSize ⊆ {start} := by
  rintro p ⟨-, le, lt⟩
  rw [h.found.ptr] at le lt
  rw [show riruHeaderSize.toNat = 120 from rfl] at lt
  rw [Set.mem_singleton_iff]
  omega

/-- A copy that leaves the first page of the buffer alone overwrites nothing there. -/
theorem CopyApart.clear (hs : Spaces place k) {f : FileRead} {bytes : Bytes} {count : Word}
    {image : RiruImage} {stop : Word} (filled : Filled f bytes count k start k₁ k₂)
    (apart : CopyApart f image stop k) {size : Word}
    (inside : rangeOf (pageAddress start + headerSize) size ⊆ {start}) :
    CopyClear (pageAddress start + headerSize) size image.header stop k₂ ∧
      start ∉ imagePages image.header stop := by
  obtain ⟨tables, off⟩ := apart
  have first : pageOf (pageAddress start + headerSize) = start := filled.found.block_first
  have pmm : k₂.pmm = k₁.pmm := by rw [filled.statics]
  obtain ⟨size, -, width⟩ := filled.sizes
  obtain ⟨apart₁, -⟩ := filled.found.apart (by omega) hs.sound
  obtain ⟨-, apart₂, -⟩ := filled.apart hs.sound
  rw [filled.found.run, first] at tables off
  have clear := tables.apart (hs.apart apart₁) apart₂ pmm
  refine ⟨⟨clear.mono (Set.union_subset_union_right _ inside), ?_⟩, off⟩
  intro a mem covers
  have here : pageOf a = start := inside covers.page
  exact off (here ▸ imageBytes_page mem)

theorem riruLoadFile_leaks (hs : Spaces place k) {f : FileRead} {bytes : Bytes} {count : Word}
    {image : RiruImage} {span : Word × Word} (takes : TakesSpace f bytes count image span k)
    (apart : CopyApart f image span.2 k) :
    ∃ p, k.pmm.used p = false ∧ ((riruLoadFile b (some f)).run k).2.pmm.used p = true := by
  obtain ⟨content, buffer, parsed, ok, page⟩ := takes
  obtain ⟨start, k₁, k₂, filled⟩ := filled_of content buffer
  obtain ⟨size, -, width⟩ := filled.sizes
  have small : (f.size.setWidth 64 : Word).toNat < 2^63 := by omega
  have pmm : k₂.pmm = k₁.pmm := by rw [filled.statics]
  have reads := filled.parse
  rw [parsed] at reads
  obtain ⟨clear, off⟩ := apart.clear hs filled filled.head
  obtain ⟨apart₂, -, held⟩ := filled.apart hs.sound
  obtain ⟨taken, unplaced⟩ := filled.first hs.sound
  have le := filled.found.le
  rw [filled.found.run, ← pmm] at page
  obtain ⟨⟨p, free, used⟩, memory⟩ := riruLoad_takes (b := b) (hs.apart apart₂) held reads ok page
    clear unplaced taken off
  have outside : p < start ∨ start+(kmallocPages (f.size.setWidth 64)).toNat ≤ p := by
    by_contra inside
    rw [filled.taken (by omega) (by omega)] at free
    cases free
  have before : k.pmm.used p = false := by
    rw [pmm, filled.found.pmm] at free
    simp only [Pmm.takeRun, Bool.or_eq_false_iff] at free
    exact free.2
  refine ⟨p, before, ?_⟩
  rw [filled.load, run_bind]
  generalize ((riruLoad b (pageAddress start + headerSize) count).run k₂) = done at used memory
  obtain ⟨outcome, k₃⟩ := done
  by_cases halted : outcome = .halted
  · rw [halted]
    exact used
  · dsimp only
    rw [LoadOutcome.release_run halted, (filled.found.kfree small
      (filled.header.trans (.of_page (by omega) memory))).1, freePages_other le outside]
    exact used

/-- The load of the name, if any, ends before it takes a page for an address space. -/
def NeverTakes (files : List (BitVec 8) → Option FileRead) (name : Option (List (BitVec 8)))
    (k : Kernel) : Prop :=
  ∀ f bytes count image span, named files name = some f → ¬TakesSpace f bytes count image span k

/-- If it takes one, the copy leaves the page tables and the header of the buffer alone. -/
def CopiesApart (files : List (BitVec 8) → Option FileRead) (name : Option (List (BitVec 8)))
    (k : Kernel) : Prop := ∀ f bytes count image span, named files name = some f →
  TakesSpace f bytes count image span k → CopyApart f image span.2 k

theorem execByName_cases (b : Layout) (files : List (BitVec 8) → Option FileRead)
    (name : Option (List (BitVec 8))) (s : System) :
    (named files name = none ∧ (execByName b files name).run s = (some (-1), s)) ∨
      (execByName b files name).run s = (processExec b (named files name)).run s := by
  match name with
  | none => exact .inl ⟨rfl, rfl⟩
  | some [] => exact .inl ⟨rfl, rfl⟩
  | some (c :: rest) => exact .inr rfl

theorem processExec_failed {file : Option FileRead} {s : System} {code : ℤ}
    (h : ((riruLoadFile b file).run s.kernel).1 = .failed code) :
    ((processExec b file).run s).1 = some (-3) := by
  rw [processExec, system_bind, inKernel_run, h]
  rfl

/-- A `process_exec` that fails leaves the allocators as they were if and only if it ends before
it takes a page for an address space, as long as its copy does not overwrite the page tables or
the header of the file buffer. -/
theorem exec_restored_iff {s s' : System} {files : List (BitVec 8) → Option FileRead}
    {name : Option (List (BitVec 8))} {code : ℤ} (hs : Spaces place s.kernel)
    (heap : s.kernel.heapUsed.toNat ≤ 4294967296)
    (run : (execByName b files name).run s = (some code, s')) :
    (NeverTakes files name s.kernel → code ≠ 0 ∧ Restored s.kernel s'.kernel) ∧
      (CopiesApart files name s.kernel → code ≠ 0 → Restored s.kernel s'.kernel →
        NeverTakes files name s.kernel) := by
  rcases execByName_cases b files name s with ⟨none, same⟩ | same
  · rw [same] at run
    cases run
    refine ⟨fun _ => ⟨by decide, rfl, rfl⟩, fun _ _ _ f bytes count image span found => ?_⟩
    rw [none] at found
    cases found
  rw [same] at run
  have kernel := (processExec_cases (congrArg Prod.fst run) nofun).kernel
  rw [run] at kernel
  dsimp only at kernel
  refine ⟨fun never => ?_, fun apart _ restored f bytes count image span found takes => ?_⟩
  · obtain ⟨⟨failure, outcome⟩, restored⟩ := riruLoadFile_restores (b := b) hs heap never
    have result := processExec_failed outcome
    rw [run] at result
    refine ⟨?_, ?_⟩
    · rw [Option.some.inj result]
      decide
    · rw [kernel]
      exact restored
  · obtain ⟨p, free, used⟩ := riruLoadFile_leaks (b := b) hs takes (apart f _ _ _ _ found takes)
    rw [← found, ← kernel, restored.1, free] at used
    cases used

def badEntryFile (a : Word) : BitVec 8 := if a = 18 then 0x40 else spinFile a

theorem badEntry_valid : riruValidate (some badEntryFile) 122 = 0 := by decide

theorem badEntry_page : OnePage (readHeader badEntryFile) :=
  ⟨by decide, by decide, by decide, by decide, by decide⟩

def badEntryRead : FileRead where
  size := 122
  content := some (badEntryFile, 122)
  fits c given := by
    obtain rfl := Option.some.inj given
    decide

/-- A program in one page and its buffer are apart from each other and from the tables. -/
theorem OnePage.copyApart {f : FileRead} {image : RiruImage} (page : OnePage image.header)
    (hs : Spaces place k) (room : k.pmm.Room 0x3210 0x4000) (nonzero : f.size ≠ 0)
    (pages : (kmallocPages (f.size.setWidth 64)).toNat = 1) : CopyApart f image 0x3301000 k := by
  have width := f.size.isLt
  have size : (f.size.setWidth 64 : Word).toNat = f.size.toNat := by
    rw [BitVec.toNat_setWidth]
    omega
  have some : (f.size.setWidth 64 : Word) ≠ 0 := by
    intro zero
    rw [zero] at size
    exact nonzero (BitVec.eq_of_toNat_eq size.symm)
  obtain ⟨start, k₁, found, le, room₁⟩ := kmalloc_room room some (by omega) (by rw [pages]; decide)
  rw [pages] at room₁
  obtain ⟨apart, unplaced⟩ := found.apart (by omega) hs.sound
  have first : pageOf (pageAddress start + headerSize) = start := found.block_first
  have bound := found.le
  have only {p : ℕ} : p ∈ rangeOf (pageAddress start + headerSize) 1 ↔ p = start := by
    rw [rangeOf, Set.mem_ofPred_eq, found.ptr, show (1 : Word).toNat = 1 from rfl]
    constructor
    · rintro ⟨-, low, high⟩
      omega
    · rintro rfl
      exact ⟨by decide, by omega, by omega⟩
  have held : Held place k₁ (pageAddress start + headerSize) 1 := by
    refine ⟨?_, fun p mem => ?_, fun p mem => ?_⟩
    · rw [found.ptr, show (1 : Word).toNat = 1 from rfl]
      omega
    · obtain rfl := only.mp mem
      simp only [found.pmm, Pmm.takeRun, pages, decide_eq_true (show p ≤ p ∧ p < p+1 by omega),
        Bool.true_or]
    · obtain rfl := only.mp mem
      exact unplaced p (le_refl _) (by omega)
  constructor
  · rw [found.run, first]
    have free : ∀ p ∈ imagePages image.header 0x3301000, 0x3211+1 ≤ p ∧ p < 0x4000 := by
      intro p mem
      rw [page.pages p mem]
      decide
    refine (room₁.clear (hs.apart apart) (by decide) held free).mono ?_
    exact Set.union_subset_union_right _ (Set.singleton_subset_iff.mpr (only.mpr rfl))
  · rw [found.run, first]
    intro mem
    have here := page.pages start mem
    omega

/-- The desktop refuses the program, after it has made an address space. -/
theorem badEntry_fails (hs : Spaces place k) (room : k.pmm.Room 0x3210 0x4000) :
    (∃ code, ((riruLoadFile desktopLayout (some badEntryRead)).run k).1 = .failed code) ∧
      ∃ image, TakesSpace badEntryRead badEntryFile 122 image (0x3300000, 0x3301000) k ∧
        ∀ image', image'.header = image.header → CopyApart badEntryRead image' 0x3301000 k := by
  have entry : (readHeader badEntryFile).entry = 0x3400000 := by decide
  obtain ⟨image, given, header⟩ : ∃ image, riruParse (some badEntryFile) 122 = .ok image ∧
      image.header = readHeader badEntryFile := ⟨_, riruParse_ok badEntry_valid, rfl⟩
  have page : OnePage image.header := header ▸ badEntry_page
  rw [← header] at entry
  obtain ⟨start, k₁, k₂, filled, le, room₂⟩ :=
    filled_room room (f := badEntryRead) rfl (by decide) (by decide)
  rw [show (kmallocPages (badEntryRead.size.setWidth 64)).toNat = 1 by decide] at room₂
  obtain ⟨apart, -, held⟩ := filled.apart hs.sound
  have hs₂ := hs.apart apart
  have pmm : k₂.pmm = k₁.pmm := by rw [filled.statics]
  have parsed := filled.parse
  rw [given] at parsed
  have free : ∀ p ∈ imagePages image.header 0x3301000, 0x3211+1 ≤ p ∧ p < 0x4000 := by
    intro p mem
    rw [page.pages p mem]
    decide
  have low : desktopLayout.Low := ⟨by decide, by decide⟩
  refine ⟨⟨-13, ?_⟩, image, ⟨rfl, ?_, given, page.span, ?_⟩, fun image' same =>
    OnePage.copyApart (same ▸ page) hs room (by decide) (by decide)⟩
  · obtain ⟨u, place₁, k₃, k₄, load, -, -⟩ := riruLoad_room low hs₂ room₂ (by decide) held parsed
      page.span page.bss.valid free
    rw [filled.load, run_bind, load]
    dsimp only
    rw [checkEntry_outside (by rw [entry]; decide), LoadOutcome.release_run (by nofun)]
  · rw [filled.found.run]
    exact filled.found.ptr_ne
  · obtain ⟨page', pos, lt, -, alloc, -⟩ := room₂.allocPage (by decide)
    rw [filled.found.run, ← pmm, alloc]
    exact pageAddress_ne_zero pos (by omega)

theorem badEntry_leaks : ∃ s s' code, Booted desktopLayout s.kernel ∧
    (execByName desktopLayout (fun _ => some badEntryRead) (some [0x61])).run s = (some code, s') ∧
    code ≠ 0 ∧ ¬Restored s.kernel s'.kernel := by
  obtain ⟨k, booted, room, -⟩ := desktop_booted
  obtain ⟨place, spaces, -, -⟩ := booted.spaces
  obtain ⟨⟨code, outcome⟩, image, takes, apart⟩ := badEntry_fails spaces room
  obtain ⟨p, free, used⟩ := riruLoadFile_leaks (b := desktopLayout) spaces takes (apart image rfl)
  have result := processExec_failed (s := ⟨k, fun _ => emptyProcess, none, 1, 0⟩) outcome
  have kernel := (processExec_cases result nofun).kernel
  refine ⟨⟨k, fun _ => emptyProcess, none, 1, 0⟩, _, -3, booted, Prod.ext result rfl, by decide,
    fun restored => ?_⟩
  have same : ((riruLoadFile desktopLayout (some badEntryRead)).run k).2.pmm = k.pmm := by
    rw [← restored.1]
    exact congrArg Kernel.pmm kernel.symm
  rw [same, free] at used
  cases used

def blankRead : FileRead where
  size := 122
  content := some (fun _ => 0, 122)
  fits c given := by
    obtain rfl := Option.some.inj given
    decide

/-- A file that is no program fails after it has been read, with its buffer given back; a program
with a bad entry point fails with a page taken. -/
theorem exec_restored_both : ∃ s, s.kernel.kernelPml4 ≠ 0 ∧
    (∃ s' code, (execByName desktopLayout (fun _ => some blankRead) (some [0x61])).run s =
      (some code, s') ∧ ((kmalloc 122).run s.kernel).1 ≠ 0 ∧ code ≠ 0 ∧
      Restored s.kernel s'.kernel) ∧
    ∃ s' code, (execByName desktopLayout (fun _ => some badEntryRead) (some [0x61])).run s =
      (some code, s') ∧ code ≠ 0 ∧ ¬Restored s.kernel s'.kernel := by
  obtain ⟨k, booted, room, -⟩ := desktop_booted
  obtain ⟨place, hs, -, -⟩ := booted.spaces
  have apart : Apart place k { k with heapUsed := 0 } :=
    ⟨fun _ _ _ => rfl, fun _ _ hp => (hs.sound.used hp).1, hs.sound.page0, rfl, rfl⟩
  have spaces := hs.apart apart
  have heap : (0 : Word).toNat ≤ 4294967296 := by decide
  have pos := (hs.sound.used hs.root).2.1
  have root : k.kernelPml4 ≠ 0 := fun zero => by
    rw [zero] at pos
    exact absurd pos (by decide)
  refine ⟨⟨{ k with heapUsed := 0 }, fun _ => emptyProcess, none, 1, 0⟩, root, ?_, ?_⟩
  · have never : NeverTakes (fun _ => some blankRead) (some [0x61]) { k with heapUsed := 0 } := by
      intro f bytes count image span found takes
      obtain rfl : blankRead = f := Option.some.inj found
      obtain ⟨rfl, rfl⟩ := Prod.mk.inj (Option.some.inj takes.content)
      exact absurd (riruParse_from takes.parsed).accepted (by decide)
    obtain ⟨⟨code, outcome⟩, -⟩ := riruLoadFile_restores (b := desktopLayout) spaces heap never
    have result := processExec_failed
      (s := ⟨{ k with heapUsed := 0 }, fun _ => emptyProcess, none, 1, 0⟩) outcome
    have run : (execByName desktopLayout (fun _ => some blankRead) (some [0x61])).run
        ⟨{ k with heapUsed := 0 }, fun _ => emptyProcess, none, 1, 0⟩ = (some (-3), _) :=
      Prod.ext result rfl
    obtain ⟨start, k₁, k₂, filled, -, -⟩ :=
      filled_room (k := { k with heapUsed := 0 }) room (f := blankRead) rfl (by decide) (by decide)
    refine ⟨_, -3, run, ?_, ?_⟩
    · rw [show (122 : Word) = blankRead.size.setWidth 64 by decide, filled.found.run]
      exact filled.found.ptr_ne
    · exact (exec_restored_iff spaces heap run).1 never
  · obtain ⟨⟨code, outcome⟩, image, takes, apart⟩ :=
      badEntry_fails (k := { k with heapUsed := 0 }) spaces room
    have result := processExec_failed
      (s := ⟨{ k with heapUsed := 0 }, fun _ => emptyProcess, none, 1, 0⟩) outcome
    have copies : CopiesApart (fun _ => some badEntryRead) (some [0x61])
        { k with heapUsed := 0 } := by
      intro f bytes count image' span found takes'
      obtain rfl : badEntryRead = f := Option.some.inj found
      obtain ⟨rfl, rfl⟩ := Prod.mk.inj (Option.some.inj takes'.content)
      obtain rfl := Except.ok.inj (takes.parsed.symm.trans takes'.parsed)
      obtain rfl := Except.ok.inj (takes.span.symm.trans takes'.span)
      exact apart image rfl
    have run : (execByName desktopLayout (fun _ => some badEntryRead) (some [0x61])).run
        ⟨{ k with heapUsed := 0 }, fun _ => emptyProcess, none, 1, 0⟩ = (some (-3), _) :=
      Prod.ext result rfl
    refine ⟨_, -3, run, by decide, fun restored => ?_⟩
    exact (exec_restored_iff spaces heap run).2 copies (by decide) restored _ _ _ _ _ rfl takes

end TinyOS.Memory
