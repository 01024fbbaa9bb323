import TinyOS.RiruCopy

set_option autoImplicit false

namespace TinyOS.Memory
open RadixTables Riru

variable {u start : ℕ} {place place' : Places} {k k' k₁ k₂ : Kernel} {file size : Word}
  {image : RiruImage} {f : FileRead} {bytes : Bytes} {count : Word} {b : Layout}

/-- The pages of the file have been given out by the allocator and hold no table. -/
structure Held (place : Places) (k : Kernel) (file size : Word) : Prop where
  low : file.toNat+size.toNat ≤ 4294967296
  used : ∀ p ∈ rangeOf file size, k.pmm.used p = true
  unplaced : ∀ p ∈ rangeOf file size, place p = none

/-- A table stands on no page in use before that holds none. -/
theorem Step.place_none (h : Step u place k place' k') {p : ℕ} (hp : place p = none)
    (used : k.pmm.used p = true) : place' p = none := by
  cases placed : place' p with
  | none => rfl
  | some l =>
    rw [h.unused hp placed] at used
    cases used

theorem Held.step (h : Held place k file size) (step : Step u place k place' k') :
    Held place' k' file size where
  low := h.low
  used p mem := step.used_keep (h.used p mem)
  unplaced p mem := step.place_none (h.unplaced p mem) (h.used p mem)

theorem byteAt_congr {a : Word} (same : k'.memory (pageOf a) = k.memory (pageOf a)) :
    k'.byteAt a = k.byteAt a := by
  rw [Kernel.byteAt, Kernel.byteAt, Kernel.wordAt, Kernel.wordAt, same]

theorem fileAt_parsed (parsed : riruParse (k.fileAt file) size = .ok image) :
    k.fileAt file = some image.file ∧ image.file = fun i => k.byteAt (file + i) := by
  rw [Kernel.fileAt] at parsed ⊢
  by_cases null : file = 0
  · rw [if_pos null] at parsed
    cases parsed
  · rw [if_neg null] at parsed ⊢
    have same := (riruParse_from parsed).bytes
    rw [same]
    exact ⟨rfl, rfl⟩

theorem Held.inMemory (h : Held place k file size)
    (parsed : riruParse (k.fileAt file) size = .ok image) : InMemory file size image k := by
  obtain ⟨given, same⟩ := fileAt_parsed parsed
  refine ⟨given ▸ parsed, h.low, fun i _ => ?_⟩
  rw [same]

theorem InMemory.step (inside : InMemory file size image k) (h : Held place k file size)
    (step : Step u place k place' k') : InMemory file size image k' where
  parsed := inside.parsed
  low := inside.low
  bytes i lt := by
    have page := (inside.covers lt).page
    rw [byteAt_congr (step.frame ((h.step step).unplaced _ page)), inside.bytes i lt]

theorem Held.withUser (h : Held place k file size) (c : Word) :
    Held place (k.withUser c) file size := ⟨h.low, h.used, h.unplaced⟩

/-- The file is read as it was before the load took pages. -/
theorem Held.prepared {c : Word} (h : Held place k file size)
    (parsed : riruParse (k.fileAt file) size = .ok image)
    (step : Step u place (k.withUser c) place' k') : InMemory file size image k' := by
  refine InMemory.step ?_ (h.withUser c) step
  exact (h.withUser c).inMemory parsed

theorem Found.block_first {size : Word} {start : ℕ} (h : Found size k start k') :
    (⟨pageAddress start + headerSize, size⟩ : Block).first = start := by
  rw [Block.first, pageOf, h.ptr]
  omega

/-- The magic number and the number of pages before a block are as they were. -/
def SameHeader (start : ℕ) (k k' : Kernel) : Prop :=
  k'.wordAt (pageAddress start) = k.wordAt (pageAddress start) ∧
    k'.wordAt (pageAddress start + 8) = k.wordAt (pageAddress start + 8)

theorem SameHeader.of_page (lt : start < 2^52) (same : k'.memory start = k.memory start) :
    SameHeader start k k' := by
  have word {a : Word} (here : pageOf a = start) : k'.wordAt a = k.wordAt a := by
    rw [Kernel.wordAt, Kernel.wordAt, here, same]
  exact ⟨word (pageOf_pageAddress lt), word (page_word lt (show 8 < 4096 by decide)).1⟩

theorem SameHeader.trans (h : SameHeader start k k₁) (h' : SameHeader start k₁ k₂) :
    SameHeader start k k₂ := ⟨h'.1.trans h.1, h'.2.trans h.2⟩

/-- A block found is intact as long as its header stays as it is. -/
theorem Found.intact {size : Word} {start : ℕ} {k'' : Kernel} (h : Found size k start k')
    (small : size.toNat < 2^63) (same : SameHeader start k' k'') :
    (⟨pageAddress start + headerSize, size⟩ : Block).Intact k'' := by
  obtain ⟨magic, pages⟩ := same
  have le := h.le
  have header : pageAddress start + headerSize - headerSize = pageAddress start :=
    BitVec.add_sub_cancel _ _
  constructor
  · rw [h.block_first]
  · exact small
  · rw [Block.pages, kmallocPages_toNat small]
    omega
  · rw [header, magic, h.header.1]
  · rw [header, pages, h.header.2, Block.pages, ofNat_toNat]

/-- `kmalloc` has found the block, and `fs_read` has stored the file in it. -/
structure Filled (f : FileRead) (bytes : Bytes) (count : Word) (k : Kernel) (start : ℕ)
    (k₁ k₂ : Kernel) : Prop where
  content : f.content = some (bytes, count)
  found : Found (f.size.setWidth 64) k start k₁
  stored : k₂ = ((storeBytes (pageAddress start + headerSize) (readBytes bytes count)).run k₁).2

theorem filled_of {f : FileRead} {bytes : Bytes} {count : Word}
    (content : f.content = some (bytes, count))
    (block : ((kmalloc (f.size.setWidth 64)).run k).1 ≠ 0) :
    ∃ start k₁ k₂, Filled f bytes count k start k₁ k₂ := by
  obtain ⟨start, k₁, found⟩ := kmalloc_nonzero block
  exact ⟨start, k₁, _, content, found, rfl⟩

def afterRead (f : FileRead) (bytes : Bytes) (count : Word) (k : Kernel) : Kernel :=
  ((kmalloc (f.size.setWidth 64) >>= fun buffer => storeBytes buffer (readBytes bytes count)).run
    k).2

theorem readBytes_length (bytes : Bytes) (count : Word) :
    (readBytes bytes count).length = count.toNat := by
  rw [readBytes, List.length_map, List.length_range]

theorem LoadOutcome.release_run {outcome : LoadOutcome} {buffer : Word}
    (alive : outcome ≠ .halted) :
    (outcome.release buffer).run k = (outcome, ((kfree buffer).run k).2) := by
  cases outcome with
  | halted => exact absurd rfl alive
  | failed code => rfl
  | loaded result => rfl

section
variable (h : Filled f bytes count k start k₁ k₂)
include h

theorem Filled.sizes : (f.size.setWidth 64 : Word).toNat = f.size.toNat ∧
    count.toNat ≤ f.size.toNat ∧ f.size.toNat < 2^32 := by
  have width := f.size.isLt
  refine ⟨?_, f.fits _ h.content, width⟩
  rw [BitVec.toNat_setWidth]
  omega

theorem Filled.pages {j : ℕ} (lt : j < count.toNat) :
    pageOf (pageAddress start + headerSize + BitVec.ofNat 64 j) ∈
      Set.Ico start (start+(kmallocPages (f.size.setWidth 64)).toNat) := by
  obtain ⟨size, fits, small⟩ := h.sizes
  refine block_page h.found.le ?_
  rw [kmallocPages_toNat (by omega), size]
  omega

theorem Filled.range {p : ℕ} (mem : p ∈ rangeOf (pageAddress start + headerSize) count) :
    start ≤ p ∧ p < start+(kmallocPages (f.size.setWidth 64)).toNat := by
  obtain ⟨size, fits, small⟩ := h.sizes
  obtain ⟨some, le, lt⟩ := mem
  rw [h.found.ptr] at le lt
  rw [kmallocPages_toNat (by omega), size]
  omega

theorem Filled.statics : k₂ = { k₁ with memory := k₂.memory } := by
  rw [h.stored]
  exact storeBytes_statics _ _ _

theorem Filled.takes {p : ℕ} (used : k.pmm.used p = true) : k₂.pmm.used p = true := by
  rw [h.statics]
  simp only [h.found.pmm, Pmm.takeRun, used, Bool.or_true]

theorem Filled.taken {p : ℕ} (hl : start ≤ p)
    (hr : p < start+(kmallocPages (f.size.setWidth 64)).toNat) : k₂.pmm.used p = true := by
  rw [h.statics]
  simp only [h.found.pmm, Pmm.takeRun, decide_eq_true (And.intro hl hr), Bool.true_or]

theorem Filled.memory {p : ℕ}
    (off : p < start ∨ start+(kmallocPages (f.size.setWidth 64)).toNat ≤ p) :
    k₂.memory p = k₁.memory p := by
  have stores : Stores (Set.Ico start (start+(kmallocPages (f.size.setWidth 64)).toNat))
      (storeBytes (pageAddress start + headerSize) (readBytes bytes count)) := by
    refine storeBytes_stores fun j lt => ?_
    rw [readBytes_length] at lt
    exact h.pages lt
  obtain ⟨memory, run, same⟩ := stores k₁
  rw [h.stored, run]
  refine same p fun mem => ?_
  rw [Set.mem_Ico] at mem
  omega

theorem Filled.afterRead : Memory.afterRead f bytes count k = k₂ := by
  rw [Memory.afterRead, run_bind, h.found.run, h.stored]

theorem Filled.header : SameHeader start k₁ k₂ := by
  have le := h.found.le
  obtain ⟨size, fits, small⟩ := h.sizes
  have word {off : ℕ} (low : off < 24) :
      k₂.wordAt (pageAddress start + BitVec.ofNat 64 off) =
        k₁.wordAt (pageAddress start + BitVec.ofNat 64 off) := by
    rw [h.stored]
    refine storeBytes_word fun j lt page index => ?_
    rw [readBytes_length] at lt
    have here := page_word (show start < 2^52 by omega) (show off < 4096 by omega)
    have address : (pageAddress start + headerSize + BitVec.ofNat 64 j).toNat =
        start*4096+24+j := by
      rw [toNat_add_ofNat, h.found.ptr]
      rw [h.found.ptr]
      omega
    have slot := congrArg Fin.val index
    rw [here.2] at slot
    rw [here.1, pageOf, address] at page
    simp only [wordIndex, address] at slot
    omega
  refine ⟨?_, word (show 8 < 24 by decide)⟩
  have first := word (show 0 < 24 by decide)
  rwa [show pageAddress start + BitVec.ofNat 64 0 = pageAddress start from BitVec.add_zero _]
    at first

theorem Filled.same :
    SameBytes count bytes (fun i => k₂.byteAt (pageAddress start + headerSize + i)) := by
  obtain ⟨size, fits, small⟩ := h.sizes
  have le := h.found.le
  intro i lt
  have address : (pageAddress start + headerSize + i).toNat = start*4096+24+i.toNat := by
    rw [BitVec.toNat_add, h.found.ptr]
    omega
  dsimp only
  rw [h.stored, storeBytes_byte (n := count.toNat) (by rw [h.found.ptr]; omega)
    (readBytes_length _ _), h.found.ptr, address, if_pos (by omega), readBytes,
    Nat.add_sub_cancel_left, List.getD_eq_getElem _ _ (by simpa using lt)]
  simp

theorem Filled.parse : riruParse (k₂.fileAt (pageAddress start + headerSize)) count =
    (riruParse (some bytes) count).map fun image =>
      { image with file := fun i => k₂.byteAt (pageAddress start + headerSize + i) } := by
  rw [Kernel.fileAt, if_neg h.found.ptr_ne]
  exact riruParse_same h.same

theorem Filled.parsed {image : RiruImage}
    (parsed : riruParse (k₂.fileAt (pageAddress start + headerSize)) count = .ok image) :
    ∃ image', riruParse (some bytes) count = .ok image' ∧ image'.header = image.header := by
  rw [h.parse] at parsed
  cases given : riruParse (some bytes) count with
  | error code =>
    rw [given] at parsed
    cases parsed
  | ok image' =>
    rw [given] at parsed
    obtain rfl := Except.ok.inj parsed
    exact ⟨image', rfl, rfl⟩

theorem Filled.apart (hs : Sound place k) : Apart place k k₂ ∧ Apart place k₁ k₂ ∧
    Held place k₂ (pageAddress start + headerSize) count := by
  obtain ⟨size, fits, small⟩ := h.sizes
  obtain ⟨apart, unplaced⟩ := h.found.apart (by omega) hs
  have pmm : k₂.pmm = k₁.pmm := by rw [h.statics]
  have fill : Apart place k₁ k₂ := by
    refine ⟨fun p l hp => h.memory ?_, fun p l hp => ?_, ?_, ?_, ?_⟩
    · by_contra inside
      rw [unplaced p (by omega) (by omega)] at hp
      cases hp
    · rw [pmm]
      exact apart.used hp
    · rw [pmm]
      exact apart.page0
    · rw [h.statics]
    · rw [h.statics]
  have le := h.found.le
  refine ⟨apart.trans fill, fill, ?_, fun p mem => ?_, fun p mem => ?_⟩
  · rw [h.found.ptr]
    have pages := @kmallocPages_toNat (f.size.setWidth 64) (by omega)
    omega
  · obtain ⟨hl, hr⟩ := h.range mem
    exact h.taken hl hr
  · obtain ⟨hl, hr⟩ := h.range mem
    exact unplaced p hl hr

/-- The first page of the block is in use and holds no table. -/
theorem Filled.first (hs : Sound place k) : k₂.pmm.used start = true ∧ place start = none := by
  obtain ⟨size, fits, small⟩ := h.sizes
  have pages : 0 < (kmallocPages (f.size.setWidth 64)).toNat := by
    rw [kmallocPages_toNat (by omega)]
    omega
  obtain ⟨-, unplaced⟩ := h.found.apart (by omega) hs
  exact ⟨h.taken (le_refl _) (by omega), unplaced start (le_refl _) (by omega)⟩

/-- The load of the file is the load of the block, which is given back at the end. -/
theorem Filled.load : (riruLoadFile b (some f)).run k =
    (riruLoad b (pageAddress start + headerSize) count >>=
      LoadOutcome.release (pageAddress start + headerSize)).run k₂ := by
  rw [riruLoadFile, run_bind, h.found.run]
  dsimp only
  rw [if_neg h.found.ptr_ne, h.content]
  dsimp only
  rw [run_bind, h.stored]

end

end TinyOS.Memory
