import TinyOS.RiruFileBuffer

set_option autoImplicit false

namespace TinyOS.Memory
open RadixTables Riru

variable {u first stop : ℕ} {place place' : Places} {k k' : Kernel} {s : Pmm} {b : Layout}

theorem createUserSpace_alloc (b : Layout) (k : Kernel) :
    ((vmmCreateUserSpace b).run k).1 = 0 ∨
      ((vmmCreateUserSpace b).run k).1 = (pmmAllocPage k.pmm).1 := by
  have page : pageAddress (pageOf (pmmAllocPage k.pmm).1) = (pmmAllocPage k.pmm).1 := by
    rw [pmmAllocPage]
    cases found : firstFree k.pmm.used 0 k.pmm.totalPages with
    | none => exact show pageAddress (pageOf 0) = 0 by decide
    | some page =>
      obtain ⟨-, lt, -, -⟩ := firstFree_some found
      have le : k.pmm.totalPages ≤ 1048576 := k.pmm.total_le
      exact congrArg pageAddress (pageOf_pageAddress (by omega))
  rw [vmmCreateUserSpace, run_bind, allocateTable_fst]
  by_cases zero : (pmmAllocPage k.pmm).1 = 0
  · rw [if_pos zero]
    exact .inl rfl
  · rw [if_neg zero]
    simp only [run_bind]
    split_ifs
    · exact .inl rfl
    · simp only [run_bind]
      split_ifs
      · exact .inl rfl
      · exact .inr page

/-- With a page left the new space is made, and no other page is taken. -/
theorem createUserSpace_room (low : b.Low) (hs : Spaces place k) (room : k.pmm.Room first stop)
    (lt : first < stop) :
    ∃ u place' k', (vmmCreateUserSpace b).run k = (pageAddress u, k') ∧ place u = none ∧
      Step u place k place' k' ∧ UserSpace place' k' u ∧ u ≤ first ∧ k'.pmm.Room (first+1) stop := by
  obtain ⟨fb_pos, size_pos, fb_le⟩ := low.framebuffer
  have bound := room.stop_le
  obtain ⟨u, pos, le, unused, alloc, room'⟩ := allocateTable_room room lt
  have hn := hs.sound.page_unplaced unused
  have ne : k.kernelPml4 ≠ u := by
    rintro rfl
    exact absurd (hn.symm.trans hs.root) (by simp)
  obtain ⟨page, -, -, -, lowest, alloc'⟩ :=
    (allocateTable_cases hs.sound.page0).resolve_left fun none => by
      rw [alloc] at none
      cases none
  obtain rfl : page = u := by
    rw [alloc] at alloc'
    injection alloc' with h
    injection h with h
    exact h.symm
  have adopt := Step.adopt hs.sound hs.root pos (show page < 1048576 by omega) unused lowest
  have root : Function.update place page (some []) page = some [] := Function.update_self _ _ _
  obtain ⟨c, hc⟩ := hs.entry
  have space : UserSpace (Function.update place page (some [])) (k.newSpace page) page := by
    refine ⟨root, pos, by omega, ?_⟩
    have kernel : (k.newSpace page).memory k.kernelPml4 = k.memory k.kernelPml4 := by
      simp only [Kernel.newSpace, Function.update_of_ne ne]
    change child ((k.newSpace page).memory page 0) = child ((k.newSpace page).memory k.kernelPml4 0)
    rw [kernel]
    simp only [Kernel.newSpace, Function.update_self, Kernel.sharedEntries, Fin.val_zero, true_or,
      if_true]
  have hs₀ := hs.step adopt
  have vga : (0xB8 : ℕ) < 1048576 := by decide
  obtain ⟨place₁, k₁, run₁, step₁, -, pmm₁⟩ := mapAgain hs₀.sound root (p := 0xB8) (q := 0xB8)
    (by decide) (by decide) (space.identity hs₀ vga) pageWritable
  rw [vga_page] at run₁
  have hs₁ := hs₀.step step₁
  have space₁ := space.step hs₀ step₁
  have sum : (b.fbAddress + b.fbSize).toNat = b.fbAddress.toNat+b.fbSize.toNat := by
    rw [BitVec.toNat_add]
    omega
  have screen : ∀ a ∈ pageRange (alignDown b.fbAddress) (alignUp (b.fbAddress + b.fbSize)),
      ∃ p, p < 1048576 ∧ a = pageAddress p := by
    intro a mem
    rw [alignDown_eq, alignUp_eq (by omega), sum, mem_pageRange (by omega) (by omega)] at mem
    obtain ⟨p, hl, hr, rfl⟩ := mem
    exact ⟨p, by omega, rfl⟩
  obtain ⟨place₂, k₂, run₂, step₂, pmm₂⟩ := @firstError_again Word page place₁ k₁
    (fun a => mapPageIn page a a pageWritable)
    (pageRange (alignDown b.fbAddress) (alignUp (b.fbAddress + b.fbSize))) pageOf pageWritable
    hs₁.sound space₁.root
    (fun a mem => by
      obtain ⟨p, lt, rfl⟩ := screen a mem
      rw [pageOf_pageAddress (by omega)])
    (fun a mem => by
      obtain ⟨p, lt, rfl⟩ := screen a mem
      rw [pageOf_pageAddress (by omega)]
      exact ⟨lt, space₁.identity hs₁ lt⟩)
  have framebuffer : (mapFramebuffer b page).run k₁ = (0, k₂) := by
    have here : b.fbAddress ≠ 0 ∧ b.fbSize ≠ 0 := by
      constructor
      · intro zero
        rw [zero] at fb_pos
        exact absurd fb_pos (by decide)
      · intro zero
        rw [zero] at size_pos
        exact absurd size_pos (by decide)
    rw [mapFramebuffer, if_pos here]
    exact run₂
  refine ⟨page, place₂, k₂, ?_, hn, (adopt.trans step₁).trans step₂, space₁.step hs₁ step₂, le, ?_⟩
  · rw [vmmCreateUserSpace, run_bind, alloc]
    dsimp only
    rw [run_bind, copyKernelEntries_run ne]
    dsimp only
    rw [run_bind, run₁]
    dsimp only
    rw [if_neg (not_not.mpr rfl), run_bind, framebuffer]
    rfl
  · rw [pmm₂, pmm₁]
    exact room'

theorem prepareSpace_room (low : b.Low) (hs : Spaces place k) {h : RiruHeader} {end' : Word}
    (valid : SectionsValid h) (bss : validRange (bssStart h end') h.bssSize = true)
    (room : k.pmm.Room first stop) (lt : first < stop) :
    ∃ u place' k', (prepareSpace b h end').run k = (0, k') ∧
      PreparedSpace h end' place k u place' k' ∧ k'.pmm.Room (first+1) stop := by
  obtain ⟨u, place₁, k₁, run, fresh, step, space, -, room₁⟩ := createUserSpace_room low hs room lt
  have hs₁ := (hs.step step).withUser (pageAddress u)
  have space₁ := space.withUser (pageAddress u)
  obtain ⟨result, place₂, k₂, pages, run₂, opens, -, iff, all⟩ :=
    mapSections_spec hs₁ space₁ valid end'
  have zero := iff.mpr bss
  subst zero
  have user : k₂.riruUserCr3 = pageAddress u := by
    rw [opens.step.statics]
    rfl
  refine ⟨u, place₂, k₂, ?_, ⟨fresh, (step.withUser (pageAddress u)).trans opens.step, user,
    space₁.step hs₁ opens.step, bss, ?_⟩, ?_⟩
  · rw [prepareSpace_made run space]
    exact run₂
  · rw [← all rfl]
    exact opens.opened
  · rw [opens.pmm]
    exact room₁

theorem freePages_room {a n : ℕ} (h : s.Room first stop) (pos : 0 < a) (le : a+n ≤ first)
    (lt : first < stop) (used : ∀ p, a ≤ p → p < a+n → s.used p = true) :
    (freePages s (pageAddress a) n).Room first stop ∧
      ∀ p, p < a ∨ a+n ≤ p → (freePages s (pageAddress a) n).used p = s.used p := by
  have bound := h.stop_le
  induction n with
  | zero => exact ⟨h, fun _ _ => rfl⟩
  | succ n ih =>
    obtain ⟨room, same⟩ := ih (by omega) fun p hl hr => used p hl (by omega)
    have last : (freePages s (pageAddress a) n).used (a+n) = true := by
      rw [same _ (.inr (le_refl _)), used (a+n) (by omega) (by omega)]
    have step : freePages s (pageAddress a) (n+1) = (freePages s (pageAddress a) n).give (a+n) := by
      rw [freePages, List.range_succ, List.foldl_concat]
      change pmmFreePage (freePages s (pageAddress a) n) _ = _
      rw [show pageSize = BitVec.ofNat 64 4096 from rfl, ← BitVec.ofNat_mul, pageAddress_add,
        pmmFreePage_pageAddress (by omega) (by omega) last]
    rw [step]
    refine ⟨⟨⟨?_, room.marked.total⟩, ?_, bound, fun p hl hr => ?_⟩, fun p off => ?_⟩
    · exact room.marked.counted.give (show a+n < 1048576 by omega) last
    · rw [Pmm.give]
      dsimp only
      rw [Function.update_of_ne (by omega), room.page0]
    · rw [Pmm.give]
      dsimp only
      rw [Function.update_of_ne (by omega), room.free hl hr]
    · rw [Pmm.give]
      dsimp only
      rw [Function.update_of_ne (by omega), same p (by omega)]

/-- Pages that hold no table are no tables on the way to them. -/
theorem Sound.ownTables {pages : Set ℕ} (hs : Sound place k) (hr : place u = some [])
    (off : ∀ p ∈ pages, place p = none) : OwnTables k.memory u pages := by
  intro p mem l i t on hw member
  have short : l.length+1 ≤ 4 := by
    have := on.length_le
    simpa [pagePath] using this
  have placed := hs.placed.place_walk hr (by simp; omega) hw
  rw [off t member] at placed
  cases placed

theorem checkEntry_inside {entry base stop' : Word} (inside : ¬(entry < base ∨ stop' ≤ entry)) :
    checkEntry (some entry) base stop' = .loaded ⟨entry, base, stop', (stop' - base)/pageSize⟩ :=
  if_neg inside

theorem checkEntry_outside {entry base stop' : Word} (outside : entry < base ∨ stop' ≤ entry) :
    checkEntry (some entry) base stop' = .failed (-13) := if_pos outside

structure RoomyLoad (file : Word) (image : RiruImage) (stop' : Word) (place : Places) (k : Kernel)
    (u : ℕ) (place₁ : Places) (k₁ k' : Kernel) : Prop where
  prepared : PreparedSpace image.header stop' place k u place₁ k₁
  finished : Finished image stop' k₁ k'
  spaces : Spaces place₁ k₁
  off : ∀ p ∈ imagePages image.header stop', place₁ p = none

/-- Sections in free pages lie off the file and off the tables. -/
theorem PreparedSpace.undisturbed {file size stop' : Word} {h : RiruHeader} {place₁ : Places}
    {k₁ : Kernel} (prepared : PreparedSpace h stop' place k u place₁ k₁) (hs : Spaces place₁ k₁)
    (held : Held place k file size) (free : ∀ p ∈ imagePages h stop', k₁.pmm.used p = false) :
    Undisturbed file size h stop' k₁ u := by
  have held₁ : Held place₁ k₁ file size := by
    refine Held.step ?_ prepared.step
    exact ⟨held.low, held.used, held.unplaced⟩
  refine ⟨hs.sound.ownTables prepared.space.root ?_, fun a mem covers => ?_⟩
  · rintro p (mem | mem)
    · exact hs.sound.page_unplaced (free p mem)
    · exact held₁.unplaced p mem
  · have used := held₁.used _ covers.page
    rw [free _ (imageBytes_page mem)] at used
    cases used

/-- With a page left a valid image is copied, when its sections lie in free pages. -/
theorem riruLoad_room (low : b.Low) (hs : Spaces place k) (room : k.pmm.Room first stop)
    (lt : first < stop) {file size base stop' : Word} {image : RiruImage}
    (held : Held place k file size) (parsed : riruParse (k.fileAt file) size = .ok image)
    (span : imageSpan image.header = .ok (base, stop'))
    (bss : validRange (bssStart image.header stop') image.header.bssSize = true)
    (free : ∀ p ∈ imagePages image.header stop', first+1 ≤ p ∧ p < stop) :
    ∃ u place₁ k₁ k', (riruLoad b file size).run k =
        (checkEntry (some image.header.entry) base stop', k') ∧
      RoomyLoad file image stop' place k u place₁ k₁ k' ∧ k₁.pmm.Room (first+1) stop := by
  have valid := imageSpan_valid span
  obtain ⟨u, place₁, k₁, run₁, prepared, room₁⟩ := prepareSpace_room low hs valid bss room lt
  have hs₁ : Spaces place₁ k₁ := (hs.withUser (pageAddress u)).step prepared.step
  have inside := held.prepared parsed prepared.step
  have unused : ∀ p ∈ imagePages image.header stop', k₁.pmm.used p = false := fun p mem =>
    room₁.free (free p mem).1 (free p mem).2
  have clear := prepared.undisturbed hs₁ held unused
  obtain ⟨k', run₂, finished⟩ := finishLoad_spec hs₁ prepared.space prepared.user inside valid bss
    clear base
  have root : k₁.kernelPml4 ∉ imagePages image.header stop' ∪ rangeOf file size := by
    have placed := hs₁.root
    rintro (mem | mem)
    · rw [hs₁.sound.page_unplaced (unused _ mem)] at placed
      cases placed
    · rw [((held.withUser _).step prepared.step).unplaced _ mem] at placed
      cases placed
  have read := finished.entry hs₁ prepared.space inside valid bss clear root
  refine ⟨u, place₁, k₁, k', ?_, ⟨prepared, finished, hs₁,
    fun p mem => hs₁.sound.page_unplaced (unused p mem)⟩, room₁⟩
  rw [riruLoad, run_bind, show (get : KernelM Kernel).run k = (k, k) from rfl]
  dsimp only
  rw [parsed]
  dsimp only
  rw [span]
  dsimp only
  rw [run_bind, run₁]
  dsimp only
  rw [if_neg (not_not.mpr rfl), run₂, read]

theorem RoomyLoad.apart {file stop' : Word} {image : RiruImage} {place₁ : Places} {k₁ : Kernel}
    (h : RoomyLoad file image stop' place k u place₁ k₁ k') : Apart place₁ k₁ k' := by
  have pmm : k'.pmm = k₁.pmm := by rw [h.finished.statics]
  refine ⟨fun p l hp => h.finished.off p fun mem => ?_, fun p l hp => ?_, ?_, ?_, ?_⟩
  · rw [h.off p mem] at hp
    cases hp
  · rw [pmm]
    exact (h.spaces.sound.used hp).1
  · rw [pmm]
    exact h.spaces.sound.page0
  · rw [h.finished.statics]
  · rw [h.finished.statics]

theorem filled_room (room : k.pmm.Room first stop) {f : FileRead} {bytes : Bytes} {count : Word}
    (content : f.content = some (bytes, count)) (nonzero : f.size ≠ 0)
    (le : first+(kmallocPages (f.size.setWidth 64)).toNat ≤ stop) :
    ∃ start k₁ k₂, Filled f bytes count k start k₁ k₂ ∧ start ≤ first ∧
      k₂.pmm.Room (first+(kmallocPages (f.size.setWidth 64)).toNat) stop := by
  have width := f.size.isLt
  have size : (f.size.setWidth 64 : Word).toNat = f.size.toNat := by
    rw [BitVec.toNat_setWidth]
    omega
  have nonzero' : (f.size.setWidth 64 : Word) ≠ 0 := by
    intro zero
    rw [zero] at size
    exact nonzero (BitVec.eq_of_toNat_eq size.symm)
  obtain ⟨start, k₁, found, start_le, room₁⟩ := kmalloc_room room nonzero' (by omega) le
  have filled : Filled f bytes count k start k₁ _ := ⟨content, found, rfl⟩
  refine ⟨start, k₁, _, filled, start_le, ?_⟩
  rw [filled.statics]
  exact room₁

/-- A block whose header is as `kmalloc` left it is given back. -/
theorem Found.freed {size : Word} {start : ℕ} {k₁ k₂ : Kernel} (h : Found size k start k₁)
    (small : size.toNat < 2^63) (same : SameHeader start k₁ k₂)
    (room : k₂.pmm.Room first stop) (le : start+(kmallocPages size).toNat ≤ first)
    (lt : first < stop) (block : ∀ p, start ≤ p → p < start+(kmallocPages size).toNat →
      place p = none ∧ k₂.pmm.used p = true)
    (placed : ∀ ⦃p l⦄, place p = some l → k₂.pmm.used p = true) :
    ∃ k₃, (kfree (pageAddress start + headerSize)).run k₂ = ((), k₃) ∧ Apart place k₂ k₃ ∧
      k₃.pmm.Room first stop ∧ k₃ = { k₂ with
        memory := k₃.memory, pmm := k₃.pmm, heapUsed := k₃.heapUsed } := by
  have intact := h.intact small same
  have bound := room.stop_le
  have limit := h.le
  have asked : 0 < (kmallocPages size).toNat := by
    rw [kmallocPages_toNat small]
    omega
  have freed := kfree_run intact (by rw [h.block_first]; omega) (by rw [Block.pages]; omega)
  rw [h.block_first, Block.pages] at freed
  obtain ⟨room', others⟩ := freePages_room room h.pos le lt fun p hl hr => (block p hl hr).2
  refine ⟨_, freed, ⟨fun p l hp => setEntry_table _ _ _ ?_, fun p l hp => ?_, room'.page0, rfl,
    rfl⟩, room', rfl⟩
  · rw [pageOf_pageAddress (by omega)]
    intro here
    rw [here, (block start (le_refl _) (by omega)).1] at hp
    cases hp
  · have outside : p < start ∨ start+(kmallocPages size).toNat ≤ p := by
      by_contra inside
      rw [(block p (by omega) (by omega)).1] at hp
      cases hp
    exact (others p outside).trans (placed hp)

structure LoadedFile (place : Places) (k : Kernel) (place' : Places) (k' : Kernel) : Prop where
  spaces : Spaces place' k'
  keep : ∀ ⦃p l⦄, place p = some l → place' p = some l
  statics : k'.kernelPml4 = k.kernelPml4 ∧ k'.currentPml4 = k.kernelPml4 ∧ k'.cr3 = k.kernelCr3
  user : ∃ u, k'.riruUserCr3 = pageAddress u ∧ place u = none ∧ UserSpace place' k' u

/-- With enough pages a valid file is loaded, when its sections lie in free pages. -/
theorem riruLoadFile_room (low : b.Low) (hs : Spaces place k) (room : k.pmm.Room first stop)
    {f : FileRead} {bytes : Bytes} {count base stop' : Word} {image : RiruImage} {n : ℕ}
    (content : f.content = some (bytes, count)) (nonzero : f.size ≠ 0)
    (pages : (kmallocPages (f.size.setWidth 64)).toNat = n)
    (parsed : riruParse (some bytes) count = .ok image)
    (span : imageSpan image.header = .ok (base, stop'))
    (bss : validRange (bssStart image.header stop') image.header.bssSize = true)
    (entry : ¬(image.header.entry < base ∨ stop' ≤ image.header.entry)) (le : first+n+1 < stop)
    (free : ∀ p ∈ imagePages image.header stop', first+n+1 ≤ p ∧ p < stop) :
    ∃ result place' k', (riruLoadFile b (some f)).run k = (.loaded result, k') ∧
      LoadedFile place k place' k' ∧ k'.pmm.Room (first+n+1) stop := by
  subst pages
  obtain ⟨start, k₁, k₂, filled, start_le, room₂⟩ := filled_room room content nonzero (by omega)
  obtain ⟨apart₂, -, held⟩ := filled.apart hs.sound
  obtain ⟨size, -, width⟩ := filled.sizes
  have hs₂ := hs.apart apart₂
  have reads := filled.parse
  rw [parsed] at reads
  obtain ⟨u, place₃, k₃, k₄, load, roomy, room₃⟩ :=
    riruLoad_room low hs₂ room₂ (by omega) held reads span bss free
  have apart₄ := roomy.apart
  have pmm₄ : k₄.pmm = k₃.pmm := by rw [roomy.finished.statics]
  have block {p : ℕ} (hl : start ≤ p)
      (hr : p < start+(kmallocPages (f.size.setWidth 64)).toNat) :
      place₃ p = none ∧ k₄.pmm.used p = true := by
    obtain ⟨-, unplaced⟩ := filled.found.apart (by omega) hs.sound
    have taken : k₂.pmm.used p = true := by
      rw [filled.statics]
      simp only [filled.found.pmm, Pmm.takeRun, decide_eq_true (And.intro hl hr), Bool.true_or]
    refine ⟨roomy.prepared.step.place_none (unplaced p hl hr) taken, ?_⟩
    rw [pmm₄]
    exact roomy.prepared.step.used_keep taken
  -- the first page of the block, with its header, is as it was
  have asked : 0 < (kmallocPages (f.size.setWidth 64)).toNat := by
    rw [kmallocPages_toNat (by omega)]
    omega
  have limit := filled.found.le
  have same : k₄.memory start = k₂.memory start := by
    rw [roomy.finished.off start fun mem => by
      have := (free start mem).1
      omega, roomy.prepared.step.frame (block (le_refl _) (by omega)).1]
    rfl
  have header := filled.header.trans (.of_page (by omega) same)
  obtain ⟨k₅, run₅, apart₅, room₅, statics₅⟩ := filled.found.freed (by omega)
    header (pmm₄ ▸ room₃) (by omega) (by omega)
    (fun p hl hr => block hl hr) apart₄.used
  have apart := apart₄.trans apart₅
  have run : (riruLoadFile b (some f)).run k =
      (.loaded ⟨image.header.entry, base, stop', (stop' - base)/pageSize⟩, k₅) := by
    rw [filled.load, run_bind, load]
    dsimp only
    rw [checkEntry_inside entry, LoadOutcome.release_run (by intro halted; cases halted), run₅]
  have user : k₅.riruUserCr3 = pageAddress u := by
    rw [statics₅]
    change k₄.riruUserCr3 = _
    rw [roomy.finished.statics]
    exact roomy.prepared.user
  have kept : k₅.kernelPml4 = k.kernelPml4 ∧ k₅.currentPml4 = k.kernelPml4 ∧
      k₅.cr3 = k.kernelCr3 := by
    have pml4 : k₃.kernelPml4 = k.kernelPml4 :=
      roomy.prepared.step.kernelPml4.trans apart₂.kernelPml4
    have cr3 : k₃.kernelCr3 = k.kernelCr3 := roomy.prepared.step.kernelCr3.trans apart₂.kernelCr3
    rw [statics₅]
    change k₄.kernelPml4 = _ ∧ k₄.currentPml4 = _ ∧ k₄.cr3 = _
    rw [roomy.finished.statics]
    exact ⟨pml4, pml4, cr3⟩
  have keep : ∀ ⦃p l⦄, place p = some l → place₃ p = some l := fun _ _ hp =>
    roomy.prepared.step.keep hp
  exact ⟨_, place₃, k₅, run, ⟨roomy.spaces.apart apart, keep, kept, u, user,
    roomy.prepared.fresh, roomy.prepared.space.apart roomy.spaces apart⟩, room₅⟩

def InPage (start size : Word) : Prop :=
  size ≠ 0 → 0x3300000 ≤ start.toNat ∧ start.toNat+size.toNat ≤ 0x3301000

instance (start size : Word) : Decidable (InPage start size) :=
  inferInstanceAs (Decidable (size ≠ 0 → _))

structure OnePage (h : RiruHeader) : Prop where
  some : h.codeSize ≠ 0
  code : InPage h.codeVaddr h.codeSize
  rodata : InPage h.rodataVaddr h.rodataSize
  data : InPage h.dataVaddr h.dataSize
  bss : InPage (bssStart h 0x3301000) h.bssSize

theorem InPage.valid {start size : Word} (h : InPage start size) :
    validRange start size = true := by
  rw [validRange_iff, or_iff_not_imp_left]
  intro some
  have := h some
  omega

theorem InPage.ends {start size : Word} (h : InPage start size) (some : size ≠ 0) :
    alignDown start = 0x3300000 ∧ alignUp (start + size) = 0x3301000 := by
  obtain ⟨low, high⟩ := h some
  have pos : size.toNat ≠ 0 := fun zero => some (BitVec.eq_of_toNat_eq zero)
  have sum : (start + size).toNat = start.toNat+size.toNat := BitVec.toNat_add_of_lt (by omega)
  rw [alignDown_eq, alignUp_eq (by omega), sum, show start.toNat/4096 = 0x3300 by omega,
    show (start.toNat+size.toNat+4095)/4096 = 0x3301 by omega]
  decide

theorem InPage.page {start size : Word} (h : InPage start size) {p : ℕ}
    (mem : p ∈ rangeOf start size) : p = 0x3300 := by
  obtain ⟨some, le, lt⟩ := mem
  have := h some
  omega

theorem InPage.widen {vaddr size : Word} (h : InPage vaddr size) (code : ℤ) :
    widen (0x3300000, 0x3301000) vaddr size code = .ok (0x3300000, 0x3301000) := by
  rw [Memory.widen]
  split_ifs with zero outside
  · rfl
  · rw [h.valid] at outside
    exact absurd outside (by decide)
  · obtain ⟨start, stop⟩ := h.ends zero
    rw [start, stop]
    rfl

theorem OnePage.span {h : RiruHeader} (page : OnePage h) :
    imageSpan h = .ok (0x3300000, 0x3301000) := by
  obtain ⟨start, stop⟩ := page.code.ends page.some
  rw [imageSpan, if_neg page.some, page.code.valid, if_neg (by decide), start, stop]
  change (widen (0x3300000, 0x3301000) h.rodataVaddr h.rodataSize (-3) >>= fun span => do
    let span ← widen span h.dataVaddr h.dataSize (-4)
    if span.1 = 0xFFFFFFFFFFFFFFFF then .error (-5) else .ok span) = _
  rw [page.rodata.widen]
  change (widen (0x3300000, 0x3301000) h.dataVaddr h.dataSize (-4) >>= fun span =>
    if span.1 = 0xFFFFFFFFFFFFFFFF then .error (-5) else .ok span) = _
  rw [page.data.widen]
  rfl

theorem OnePage.pages {h : RiruHeader} (page : OnePage h) :
    ∀ p ∈ imagePages h 0x3301000, p = 0x3300 := by
  rintro p (((mem | mem) | mem) | mem)
  · exact page.code.page mem
  · exact page.rodata.page mem
  · exact page.data.page mem
  · exact page.bss.page mem

def spinFile (a : Word) : BitVec 8 :=
  ([0x52, 0x49, 0x52, 0x55, 1, 0, 1, 0, 1, 0, 0, 0, 0, 0, 0, 0, 0, 0, 0x30, 3, 0, 0, 0, 0,
    120, 0, 0, 0, 0, 0, 0, 0, 0, 0, 0x30, 3, 0, 0, 0, 0, 2, 0, 0, 0, 0, 0, 0, 0] ++
    List.replicate 56 0 ++
    [0, 0, 16, 0, 0, 0, 0, 0, 122, 0, 0, 0, 0, 0, 0, 0, 0xEB, 0xFE] : List (BitVec 8)).getD
      a.toNat 0

theorem spin_valid : riruValidate (some spinFile) 122 = 0 := by decide

theorem spin_header : (readHeader spinFile).codeVaddr = 0x3300000 ∧
    (readHeader spinFile).codeSize = 2 ∧ (readHeader spinFile).rodataSize = 0 ∧
    (readHeader spinFile).dataSize = 0 ∧ (readHeader spinFile).bssSize = 0 ∧
    (readHeader spinFile).entry = 0x3300000 := by decide

theorem spin_page : OnePage (readHeader spinFile) :=
  ⟨by decide, by decide, by decide, by decide, by decide⟩

def spinRead : FileRead where
  size := 122
  content := some (spinFile, 122)
  fits c given := by
    obtain rfl := Option.some.inj given
    decide

theorem spin_loads (hs : Spaces place k) (room : k.pmm.Room first 0x4000) (le : first ≤ 0x3220) :
    ∃ result place' k', (riruLoadFile desktopLayout (some spinRead)).run k = (.loaded result, k') ∧
      LoadedFile place k place' k' ∧ k'.pmm.Room (first+2) 0x4000 := by
  have low : desktopLayout.Low := ⟨by decide, by decide⟩
  obtain ⟨-, -, -, -, -, entry⟩ := spin_header
  refine riruLoadFile_room (n := 1) low hs room (f := spinRead) rfl (by decide) (by decide)
    (riruParse_ok spin_valid) spin_page.span spin_page.bss.valid ?_ (by omega) fun p mem => ?_
  · dsimp only
    rw [entry]
    decide
  · obtain rfl := spin_page.pages p mem
    omega

end TinyOS.Memory
