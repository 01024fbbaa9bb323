import TinyOS.VirtualAccess
import TinyOS.VmmRoom

set_option autoImplicit false

/-! The memory side of `kmain` (kernel.c, `fb_enable_backbuffer` of framebuffer.c). -/
namespace TinyOS.Memory
open RadixTables

variable {α β : Type} {r : ℕ} {place place' : Places} {k k' : Kernel} {va pa flags : Word}
variable {first stop : ℕ} {b : Layout}

/-- The loop of `fb_enable_backbuffer` over the pixels, four bytes each. -/
def clearPixels (draw display : Word) : List ℕ → KernelM Unit
  | [] => return ()
  | i :: rest => do
    storeBytes (draw + BitVec.ofNat 64 (4*i)) [0, 0, 0, 0]
    storeBytes (display + BitVec.ofNat 64 (4*i)) [0, 0, 0, 0]
    clearPixels draw display rest

def fbEnableBackbuffer (width height : BitVec 32) : KernelM (Word × Word) := do
  let total := width.setWidth 64 * height.setWidth 64
  let bytes := total*4
  if total = 0 ∨ bytes = 0 then return (0, 0)
  let draw ← kmalloc bytes
  let display ← kmalloc bytes
  if draw = 0 ∨ display = 0 then return (0, 0)
  clearPixels draw display (List.range total.toNat)
  return (draw, display)

/-- `kmain` up to the switch to the kernel's own tables; `false` when it stops the machine. -/
def boot (b : Layout) (width height : BitVec 32) : KernelM Bool := do
  kmallocInit
  let prepared ← vmmPrepareKernelSpace b
  if !prepared then return false
  let buffers ← fbEnableBackbuffer width height
  let size := width.setWidth 64 * height.setWidth 64 * 4
  let mapped ← vmmMapKernelMemory b buffers.1 buffers.2 size
  if mapped ≠ 0 then return false
  vmmSwitchKernelSpace
  return true

/-- The kernel as boot leaves it, on any machine of this layout; the pixels of the screen
have a size in bytes. -/
def Booted (b : Layout) (k : Kernel) : Prop := ∃ fuel m info k₀ width height,
  width.toNat*height.toNat*4 < 2^63 ∧ pmmInit fuel b m info = some k₀.pmm ∧
    (boot b width height).run k₀ = (true, k)

/-- The tables stay as they are, on pages in use. -/
structure Apart (place : Places) (k k' : Kernel) : Prop where
  memory : ∀ ⦃p l⦄, place p = some l → k'.memory p = k.memory p
  used : ∀ ⦃p l⦄, place p = some l → k'.pmm.used p = true
  page0 : k'.pmm.used 0 = true
  kernelPml4 : k'.kernelPml4 = k.kernelPml4
  kernelCr3 : k'.kernelCr3 = k.kernelCr3

theorem Apart.trans {k'' : Kernel} (h : Apart place k k') (h' : Apart place k' k'') :
    Apart place k k'' where
  memory _ _ hp := (h'.memory hp).trans (h.memory hp)
  used := h'.used
  page0 := h'.page0
  kernelPml4 := h'.kernelPml4.trans h.kernelPml4
  kernelCr3 := h'.kernelCr3.trans h.kernelCr3

theorem Sound.apart (hs : Sound place k) (h : Apart place k k') : Sound place k' where
  placed := hs.placed.congr fun hp => h.memory hp
  closed := hs.closed.congr hs.placed fun hp => h.memory hp
  small := by
    intro p l i hp lt
    rw [h.memory hp]
    exact hs.small hp lt
  used := by
    intro p l hp
    exact ⟨h.used hp, (hs.used hp).2⟩
  page0 := h.page0

theorem Spaces.apart (hs : Spaces place k) (h : Apart place k k') : Spaces place k' where
  sound := hs.sound.apart h
  writable := by
    intro p l i c hp lt hc
    rw [h.memory hp] at hc ⊢
    exact hs.writable hp lt hc
  root := by
    rw [h.kernelPml4]
    exact hs.root
  cr3 := by
    rw [h.kernelPml4, h.kernelCr3]
    exact hs.cr3
  identity := by
    intro p lt
    obtain ⟨hw, hg⟩ := hs.identity lt
    rw [h.kernelPml4]
    refine ⟨?_, ?_⟩
    · rw [hs.sound.placed.walk_congr (fun hp => h.memory hp) hs.root (by simp [pagePath]), hw]
    · refine hs.sound.placed.grants_keep (fun {q l i c} hp hc => ?_) hs.root (by simp [pagePath]) hg
      rw [h.memory hp]
      exact ⟨hc, id⟩

theorem NoUser.apart (h : NoUser place k) (apart : Apart place k k') : NoUser place k' := by
  intro p l i hp
  rw [apart.memory hp]
  exact h i hp

def Stores (pages : Set ℕ) (x : KernelM α) : Prop := ∀ k, ∃ memory,
  (x.run k).2 = { k with memory := memory } ∧ ∀ p, p ∉ pages → memory p = k.memory p

theorem Stores.pure {pages : Set ℕ} (a : α) : Stores pages (pure a : KernelM α) :=
  fun k => ⟨k.memory, rfl, fun _ _ => rfl⟩

theorem Stores.bind {pages : Set ℕ} {x : KernelM α} {f : α → KernelM β} (hx : Stores pages x)
    (hf : ∀ a, Stores pages (f a)) : Stores pages (x >>= f) := by
  intro k
  obtain ⟨m, run, same⟩ := hx k
  obtain ⟨m', run', same'⟩ := hf (x.run k).1 (x.run k).2
  rw [run] at run' same'
  refine ⟨m', ?_, fun p hp => (same' p hp).trans (same p hp)⟩
  rw [run_bind, run]
  exact run'

theorem storeByte_stores {pages : Set ℕ} {a : Word} (v : BitVec 8) (h : pageOf a ∈ pages) :
    Stores pages (storeByte a v) := by
  intro k
  refine ⟨_, rfl, fun p hp => setEntry_table _ _ _ ?_⟩
  rintro rfl
  exact hp h

theorem storeBytes_stores {pages : Set ℕ} {a : Word} {l : List (BitVec 8)}
    (h : ∀ j, j < l.length → pageOf (a + BitVec.ofNat 64 j) ∈ pages) :
    Stores pages (storeBytes a l) := by
  induction l generalizing a with
  | nil => exact .pure ()
  | cons v rest ih =>
    have here := h 0 (Nat.zero_lt_succ _)
    rw [show a + BitVec.ofNat 64 0 = a from BitVec.add_zero a] at here
    refine (storeByte_stores v here).bind fun _ => ih fun j lt => ?_
    have next := h (j+1) (Nat.succ_lt_succ lt)
    rwa [BitVec.ofNat_add, BitVec.add_comm (BitVec.ofNat 64 j), ← BitVec.add_assoc] at next

theorem block_page {start pages off : ℕ} (le : start+pages ≤ 1048576) (lt : 24+off < pages*4096) :
    pageOf (pageAddress start + headerSize + BitVec.ofNat 64 off) ∈ Set.Ico start (start+pages) := by
  have sum : (pageAddress start + headerSize + BitVec.ofNat 64 off).toNat =
      start*4096+24+off := by
    rw [BitVec.toNat_add, BitVec.toNat_add, pageAddress_toNat (by omega)]
    simp only [BitVec.ofNat_eq_ofNat, BitVec.toNat_ofNat]
    omega
  rw [pageOf, sum, Set.mem_Ico]
  omega

theorem clearPixels_stores {pages : Set ℕ} {draw display : Word} {l : List ℕ}
    (h : ∀ i ∈ l, ∀ j, j < 4 → pageOf (draw + BitVec.ofNat 64 (4*i+j)) ∈ pages ∧
      pageOf (display + BitVec.ofNat 64 (4*i+j)) ∈ pages) :
    Stores pages (clearPixels draw display l) := by
  have split (a : Word) (i j : ℕ) : a + BitVec.ofNat 64 (4*i) + BitVec.ofNat 64 j =
      a + BitVec.ofNat 64 (4*i+j) := by
    rw [BitVec.ofNat_add, BitVec.add_assoc]
  induction l with
  | nil => exact .pure ()
  | cons i rest ih =>
    have here := h i List.mem_cons_self
    refine Stores.bind (storeBytes_stores fun j lt => ?_) fun _ =>
      Stores.bind (storeBytes_stores fun j lt => ?_) fun _ =>
        ih fun i' mem => h i' (List.mem_cons_of_mem i mem)
    · rw [split]
      exact (here j lt).1
    · rw [split]
      exact (here j lt).2

theorem storeWord_stores {pages : Set ℕ} {a : Word} (w : Word) (h : pageOf a ∈ pages) :
    Stores pages (storeWord a w) := by
  intro k
  refine ⟨_, rfl, fun p hp => setEntry_table _ _ _ ?_⟩
  rintro rfl
  exact hp h

theorem header_stores {page : ℕ} (lt : page < 2^52) (k : Kernel) (pages size : Word) :
    ∃ memory, k.header page pages size = { k with memory := memory } ∧
      ∀ p, p ≠ page → memory p = k.memory p := by
  have word {off : ℕ} (h : off < 4096) : pageOf (pageAddress page + BitVec.ofNat 64 off) ∈
      ({page} : Set ℕ) := (page_word lt h).1
  have first : pageOf (pageAddress page) ∈ ({page} : Set ℕ) := pageOf_pageAddress lt
  have stores : Stores {page} (do
      storeWord (pageAddress page) kmallocMagic
      storeWord (pageAddress page + 8) pages
      storeWord (pageAddress page + 16) size) :=
    (storeWord_stores _ first).bind fun _ => (storeWord_stores _ (word (show 8 < 4096 by decide))).bind
      fun _ => storeWord_stores _ (word (show 16 < 4096 by decide))
  exact stores k

/-- A block of the heap that was free before. -/
structure Found (size : Word) (k : Kernel) (start : ℕ) (k' : Kernel) : Prop where
  run : (kmalloc size).run k = (pageAddress start + headerSize, k')
  pos : 0 < start
  le : start+(kmallocPages size).toNat ≤ 1048576
  free : ∀ p, start ≤ p → p < start+(kmallocPages size).toNat → k.pmm.used p = false
  pmm : k'.pmm = k.pmm.takeRun start (kmallocPages size).toNat
  header : k'.wordAt (pageAddress start) = kmallocMagic ∧
    k'.wordAt (pageAddress start + 8) = kmallocPages size
  memory : ∀ p, p ≠ start → k'.memory p = k.memory p
  statics : k' = { k with
    memory := k'.memory, pmm := k'.pmm, heapUsed := k'.heapUsed, heapTotal := k'.heapTotal }

theorem Found.of {size : Word} {start : ℕ} (nonzero : size ≠ 0)
    (run : pmmAllocPages k.pmm (kmallocPages size) =
      (pageAddress start, k.pmm.takeRun start (kmallocPages size).toNat))
    (pos : 0 < start) (le : start+(kmallocPages size).toNat ≤ 1048576)
    (free : ∀ p, start ≤ p → p < start+(kmallocPages size).toNat → k.pmm.used p = false) :
    ∃ k', Found size k start k' := by
  obtain ⟨memory, header, same⟩ := header_stores (show start < 2^52 by omega)
    { k with pmm := k.pmm.takeRun start (kmallocPages size).toNat } (kmallocPages size) size
  obtain ⟨magic, pages, -⟩ := header_words (show start < 2^52 by omega)
    { k with pmm := k.pmm.takeRun start (kmallocPages size).toNat } (kmallocPages size) size
  rw [header] at magic pages
  rw [Kernel.header] at header
  have result := kmalloc_run nonzero run
  rw [if_neg (pageAddress_ne_zero pos (by omega)), header] at result
  exact ⟨_, result, pos, le, free, rfl, ⟨magic, pages⟩, same, rfl⟩

theorem kmalloc_found (size : Word) (h0 : k.pmm.used 0 = true) :
    (kmalloc size).run k = (0, k) ∨ ∃ start k', Found size k start k' := by
  by_cases nonzero : size = 0
  · left
    rw [kmalloc, if_pos nonzero]
    rfl
  rcases pmmAllocPages_cases h0 (kmallocPages size) with none | ⟨start, pos, -, le, free, run⟩
  · left
    rw [kmalloc_run nonzero none, if_pos rfl]
  · exact .inr ⟨start, Found.of nonzero run pos (le.trans k.pmm.total_le) free⟩

theorem kmalloc_nonzero {size : Word} (h : ((kmalloc size).run k).1 ≠ 0) :
    ∃ start k', Found size k start k' := by
  by_cases nonzero : size = 0
  · rw [kmalloc, if_pos nonzero] at h
    exact absurd rfl h
  rcases pmmAllocPages_run k.pmm (kmallocPages size) with none | ⟨start, -, le, free, run⟩
  · rw [kmalloc_run nonzero none, if_pos rfl] at h
    exact absurd rfl h
  · rcases Nat.eq_zero_or_pos start with rfl | pos
    · rw [kmalloc_run nonzero run, if_pos (show pageAddress 0 = 0 by decide)] at h
      exact absurd rfl h
    · exact ⟨start, Found.of nonzero run pos (le.trans k.pmm.total_le) free⟩

theorem Found.apart {size : Word} {start : ℕ} (h : Found size k start k')
    (small : size.toNat < 2^63) (hs : Sound place k) : Apart place k k' ∧
      ∀ p, start ≤ p → p < start+(kmallocPages size).toNat → place p = none := by
  refine ⟨⟨fun p l hp => h.memory p ?_, fun p l hp => ?_, ?_, ?_, ?_⟩, fun p hl hr => ?_⟩
  · rintro rfl
    have asked : 0 < (kmallocPages size).toNat := by
      rw [kmallocPages_toNat small]
      omega
    have := h.free p (le_refl p) (by omega)
    rw [(hs.used hp).1] at this
    cases this
  · simp only [h.pmm, Pmm.takeRun, (hs.used hp).1, Bool.or_true]
  · simp only [h.pmm, Pmm.takeRun, hs.page0, Bool.or_true]
  · rw [h.statics]
  · rw [h.statics]
  · exact hs.page_unplaced (h.free p hl hr)

theorem kmalloc_room {size : Word} (room : k.pmm.Room first stop) (nonzero : size ≠ 0)
    (small : size.toNat < 2^63) (le : first+(kmallocPages size).toNat ≤ stop) :
    ∃ start k', Found size k start k' ∧ start ≤ first ∧
      k'.pmm.Room (first+(kmallocPages size).toNat) stop := by
  have bound := room.stop_le
  have asked : 0 < (kmallocPages size).toNat := by
    rw [kmallocPages_toNat small]
    omega
  obtain ⟨start, pos, low, free, run, room'⟩ := room.allocPages asked le
  obtain ⟨k', found⟩ := Found.of nonzero run pos (by omega) free
  refine ⟨start, k', found, low, ?_⟩
  rw [found.pmm]
  exact room'

theorem Apart.refl (hs : Sound place k) : Apart place k k :=
  ⟨fun _ _ _ => rfl, fun _ _ hp => (hs.used hp).1, hs.page0, rfl, rfl⟩

theorem Stores.apart {pages : Set ℕ} {x : KernelM α} (h : Stores pages x) (hs : Sound place k)
    (off : ∀ p ∈ pages, place p = none) : Apart place k (x.run k).2 := by
  obtain ⟨memory, run, same⟩ := h k
  rw [run]
  refine ⟨fun p l hp => same p fun mem => ?_, fun _ _ hp => (hs.used hp).1, hs.page0, rfl, rfl⟩
  rw [off p mem] at hp
  cases hp

theorem kmalloc_apart {size : Word} (small : size.toNat < 2^63) (hs : Sound place k) :
    Apart place k ((kmalloc size).run k).2 := by
  rcases kmalloc_found size hs.page0 with none | ⟨start, k', found⟩
  · rw [none]
    exact .refl hs
  · rw [found.run]
    exact (found.apart small hs).1

theorem pixels_toNat {width height : BitVec 32} (small : width.toNat*height.toNat*4 < 2^63) :
    (width.setWidth 64 * height.setWidth 64 : Word).toNat = width.toNat*height.toNat ∧
      (width.setWidth 64 * height.setWidth 64 * 4 : Word).toNat =
        width.toNat*height.toNat*4 := by
  have hw := width.isLt
  have hh := height.isLt
  have total : (width.setWidth 64 * height.setWidth 64 : Word).toNat =
      width.toNat*height.toNat := by
    rw [BitVec.toNat_mul, BitVec.toNat_setWidth, BitVec.toNat_setWidth,
      Nat.mod_eq_of_lt (show width.toNat < 2^64 by omega),
      Nat.mod_eq_of_lt (show height.toNat < 2^64 by omega), Nat.mod_eq_of_lt (by omega)]
  refine ⟨total, ?_⟩
  rw [BitVec.toNat_mul, total, BitVec.ofNat_eq_ofNat, BitVec.toNat_ofNat, Nat.mod_eq_of_lt
    (show 4 < 2^64 by decide), Nat.mod_eq_of_lt (by omega)]

theorem clearPixels_apart {size : Word} {start start' n : ℕ}
    (hs : Sound place k) (small : size.toNat < 2^63) (le : 4*n ≤ size.toNat)
    (draw : start+(kmallocPages size).toNat ≤ 1048576)
    (display : start'+(kmallocPages size).toNat ≤ 1048576)
    (off : ∀ p, start ≤ p → p < start+(kmallocPages size).toNat → place p = none)
    (off' : ∀ p, start' ≤ p → p < start'+(kmallocPages size).toNat → place p = none) :
    Apart place k ((clearPixels (pageAddress start + headerSize) (pageAddress start' + headerSize)
      (List.range n)).run k).2 := by
  have stores : Stores (Set.Ico start (start+(kmallocPages size).toNat) ∪
      Set.Ico start' (start'+(kmallocPages size).toNat))
      (clearPixels (pageAddress start + headerSize) (pageAddress start' + headerSize)
        (List.range n)) := by
    refine clearPixels_stores fun i mem j lt => ?_
    have hi := List.mem_range.mp mem
    have fits : 24+(4*i+j) < (kmallocPages size).toNat*4096 := by
      rw [kmallocPages_toNat small]
      omega
    exact ⟨.inl (block_page draw fits), .inr (block_page display fits)⟩
  refine stores.apart hs fun p hp => ?_
  rcases hp with hp | hp
  · exact off p hp.1 hp.2
  · exact off' p hp.1 hp.2

theorem fbEnableBackbuffer_apart {width height : BitVec 32} (hs : Sound place k)
    (small : width.toNat*height.toNat*4 < 2^63) :
    Apart place k ((fbEnableBackbuffer width height).run k).2 := by
  obtain ⟨total, bytes⟩ := pixels_toNat small
  rw [fbEnableBackbuffer]
  generalize (width.setWidth 64 * height.setWidth 64 : Word) = t at total bytes
  by_cases zero : t = 0 ∨ t*4 = 0
  · rw [if_pos zero]
    exact .refl hs
  rw [if_neg zero, run_bind, run_bind]
  have small' : (t*4).toNat < 2^63 := by omega
  have first := kmalloc_apart small' hs
  have second := kmalloc_apart small' (hs.apart first)
  by_cases fails : ((kmalloc (t*4)).run k).1 = 0 ∨
      ((kmalloc (t*4)).run ((kmalloc (t*4)).run k).2).1 = 0
  · rw [if_pos fails]
    exact first.trans second
  rw [if_neg fails, run_bind]
  obtain ⟨draw, display⟩ := not_or.mp fails
  rcases kmalloc_found (t*4) hs.page0 with none | ⟨start, k₁, found⟩
  · rw [none] at draw
    exact absurd rfl draw
  rw [found.run] at first second display ⊢
  have hs₁ := hs.apart first
  rcases kmalloc_found (t*4) hs₁.page0 with none | ⟨start', k₂, found'⟩
  · rw [none] at display
    exact absurd rfl display
  rw [found'.run] at second ⊢
  refine (first.trans second).trans ?_
  exact clearPixels_apart (hs₁.apart second) small' (by omega) found.le found'.le
    (found.apart small' hs).2 (found'.apart small' hs₁).2

/-- The loop of `vmm_map_kernel_range`. -/
def mapKernelPages (r : ℕ) (va pa size flags : Word) : KernelM ℤ :=
  firstError (fun i => mapPageIn r (alignDown va + BitVec.ofNat 64 i*pageSize)
      (alignDown pa + BitVec.ofNat 64 i*pageSize) flags)
    (List.range ((size + (va &&& (pageSize - 1)) + pageSize - 1)/pageSize).toNat)

theorem mapKernelRange_run (va pa size flags : Word) (k : Kernel) :
    (vmmMapKernelRange va pa size flags).run k =
      if size = 0 then (0, k) else (mapKernelPages k.kernelPml4 va pa size flags).run k := by
  rw [vmmMapKernelRange]
  split_ifs <;> rfl

/-- The ranges map pages of the kernel, for the supervisor. -/
theorem mapKernelRange_step (hs : Sound place k) (hr : place k.kernelPml4 = some [])
    (va pa size : Word) :
    (∃ place', Step k.kernelPml4 place k place'
      ((vmmMapKernelRange va pa size pageWritable).run k).2) ∧
    Supervised k ((vmmMapKernelRange va pa size pageWritable).run k).2 := by
  rw [mapKernelRange_run]
  split_ifs
  · exact ⟨⟨place, Step.refl hs⟩, fun _ _ _ h => ⟨h, rfl⟩⟩
  · exact ⟨firstError_maps (fun _ => mapPageIn_maps _ _ _ _) _ hs hr,
      firstError_plain (fun _ => mapPageIn_plain _ _ _ (by decide)) _ k⟩

theorem mapKernelMemory_step (b : Layout) (draw display size : Word) (hs : Sound place k)
    (hr : place k.kernelPml4 = some []) :
    (∃ place', Step k.kernelPml4 place k place'
      ((vmmMapKernelMemory b draw display size).run k).2) ∧
    Supervised k ((vmmMapKernelMemory b draw display size).run k).2 := by
  have none : (∃ place', Step k.kernelPml4 place k place' k) ∧ Supervised k k :=
    ⟨⟨place, Step.refl hs⟩, fun _ _ _ h => ⟨h, rfl⟩⟩
  rw [vmmMapKernelMemory]
  by_cases buffers : draw = 0 ∨ display = 0
  · rw [if_pos buffers]
    exact none
  rw [if_neg buffers]
  by_cases framebuffer : b.fbAddress = 0 ∨ b.fbSize = 0
  · rw [if_pos framebuffer]
    exact none
  rw [if_neg framebuffer, run_bind]
  obtain ⟨⟨place₁, step₁⟩, plain₁⟩ := mapKernelRange_step hs hr draw draw size
  generalize (vmmMapKernelRange draw draw size pageWritable).run k = x at step₁ plain₁
  obtain ⟨result, k₁⟩ := x
  dsimp only at step₁ plain₁ ⊢
  split_ifs
  · exact ⟨⟨place₁, step₁⟩, plain₁⟩
  rw [run_bind]
  have hr₁ : place₁ k₁.kernelPml4 = some [] := by
    rw [step₁.kernelPml4]
    exact step₁.keep hr
  obtain ⟨⟨place₂, step₂⟩, plain₂⟩ := mapKernelRange_step step₁.sound hr₁ display display size
  generalize (vmmMapKernelRange display display size pageWritable).run k₁ = x at step₂ plain₂
  obtain ⟨result₂, k₂⟩ := x
  dsimp only at step₂ plain₂ ⊢
  rw [step₁.kernelPml4] at step₂
  have to₂ := step₁.trans step₂
  split_ifs
  · exact ⟨⟨place₂, to₂⟩, plain₁.trans plain₂⟩
  have hr₂ : place₂ k₂.kernelPml4 = some [] := by
    rw [to₂.kernelPml4]
    exact to₂.keep hr
  obtain ⟨⟨place₃, step₃⟩, plain₃⟩ := mapKernelRange_step to₂.sound hr₂ b.fbAddress b.fbAddress
    b.fbSize
  rw [to₂.kernelPml4] at step₃
  exact ⟨⟨place₃, to₂.trans step₃⟩, plain₁.trans (plain₂.trans plain₃)⟩

def Kernel.InKernelSpace (k : Kernel) : Prop :=
  k.currentPml4 = k.kernelPml4 ∧ k.cr3 = k.kernelCr3

structure BootCalls (b : Layout) (width height : BitVec 32) (buffers : Word × Word)
    (k k₁ k₂ k₃ : Kernel) : Prop where
  prepared : (vmmPrepareKernelSpace b).run (kmallocInit.run k).2 = (true, k₁)
  enabled : (fbEnableBackbuffer width height).run k₁ = (buffers, k₂)
  mapped : (vmmMapKernelMemory b buffers.1 buffers.2
    (width.setWidth 64 * height.setWidth 64 * 4)).run k₂ = (0, k₃)

theorem boot_of {width height : BitVec 32} {buffers : Word × Word} {k₁ k₂ k₃ : Kernel}
    (h : BootCalls b width height buffers k k₁ k₂ k₃) :
    (boot b width height).run k = (true, (vmmSwitchKernelSpace.run k₃).2) := by
  rw [boot, run_bind, run_bind, h.prepared]
  dsimp only
  rw [if_neg (by decide), run_bind, h.enabled, run_bind, h.mapped]
  rfl

theorem boot_cases {width height : BitVec 32} (run : (boot b width height).run k = (true, k')) :
    ∃ buffers k₁ k₂ k₃, BootCalls b width height buffers k k₁ k₂ k₃ ∧
      k' = (vmmSwitchKernelSpace.run k₃).2 := by
  rw [boot, run_bind, run_bind] at run
  rcases prepared : (vmmPrepareKernelSpace b).run (kmallocInit.run k).2 with ⟨returns, k₁⟩
  rw [prepared] at run
  cases returns with
  | false => cases run
  | true =>
    dsimp only at run
    rw [if_neg (by decide), run_bind] at run
    rcases enabled : (fbEnableBackbuffer width height).run k₁ with ⟨buffers, k₂⟩
    rw [enabled, run_bind] at run
    rcases mapped : (vmmMapKernelMemory b buffers.1 buffers.2
      (width.setWidth 64 * height.setWidth 64 * 4)).run k₂ with ⟨result, k₃⟩
    rw [mapped] at run
    dsimp only at run
    by_cases zero : result = 0
    · subst zero
      rw [if_neg (not_not.mpr rfl)] at run
      cases run
      exact ⟨buffers, k₁, k₂, k₃, ⟨prepared, enabled, mapped⟩, rfl⟩
    · rw [if_pos zero] at run
      cases run

/-- After boot the kernel runs on its own tables, which map the first 4 GB to themselves and
are closed to the user. -/
theorem Booted.spaces (h : Booted b k) :
    ∃ place, Spaces place k ∧ NoUser place k ∧ k.InKernelSpace := by
  obtain ⟨fuel, m, info, k₀, width, height, small, init, run⟩ := h
  have h0 : k₀.pmm.used 0 = true := (Initialised.low ⟨fuel, b, m, info, init⟩ (by decide))
  obtain ⟨buffers, k₁, k₂, k₃, calls, rfl⟩ := boot_cases run
  obtain ⟨place₁, prepared, -⟩ := prepareKernelSpace_spec b (k := (kmallocInit.run k₀).2) h0
    calls.prepared
  have apart := fbEnableBackbuffer_apart prepared.spaces.sound small
  rw [calls.enabled] at apart
  have spaces₂ := prepared.spaces.apart apart
  obtain ⟨⟨place₃, step⟩, plain⟩ := mapKernelMemory_step b buffers.1 buffers.2
    (width.setWidth 64 * height.setWidth 64 * 4) spaces₂.sound spaces₂.root
  rw [calls.mapped] at step plain
  have spaces := spaces₂.step step
  have none := (prepared.plain.apart apart).step step plain
  refine ⟨place₃, ⟨?_, spaces.writable, spaces.root, spaces.cr3, spaces.identity⟩,
    fun p l i hp => none i hp, rfl, rfl⟩
  have sound := spaces.sound
  exact ⟨sound.placed, sound.closed, sound.small, sound.used, sound.page0⟩

theorem rangePages_toNat {size : Word} (fits : va.toNat+size.toNat ≤ 2^63) :
    ((size + (va &&& (pageSize - 1)) + pageSize - 1)/pageSize).toNat =
      (size.toNat+va.toNat%4096+4095)/4096 := by
  have sum : (size + (va &&& (pageSize - 1)) + pageSize - 1).toNat =
      size.toNat+va.toNat%4096+4095 := by
    rw [BitVec.toNat_sub, BitVec.toNat_add, BitVec.toNat_add, low_bits]
    simp only [BitVec.ofNat_eq_ofNat, BitVec.toNat_ofNat]
    omega
  rw [BitVec.toNat_udiv, sum]
  rfl

theorem rangePage_eq (va : Word) (i : ℕ) :
    alignDown va + BitVec.ofNat 64 i*pageSize = pageAddress (va.toNat/4096+i) := by
  rw [alignDown_eq, show pageSize = BitVec.ofNat 64 4096 from rfl, ← BitVec.ofNat_mul,
    pageAddress_add]

theorem mapKernelRange_again {size : Word} (flags : Word) (hs : Spaces place k)
    (fits : va.toNat+size.toNat ≤ 4294967296) :
    ∃ place' k', (vmmMapKernelRange va va size flags).run k = (0, k') ∧
      Step k.kernelPml4 place k place' k' ∧ k'.pmm = k.pmm := by
  rw [mapKernelRange_run]
  split_ifs with zero
  · exact ⟨place, k, rfl, Step.refl hs.sound, rfl⟩
  rw [mapKernelPages, rangePages_toNat (by omega)]
  refine firstError_again (fun i => va.toNat/4096+i) flags hs.sound hs.root
    (fun i _ => ?_) fun i mem => ?_
  · rw [rangePage_eq]
  · have lt := List.mem_range.mp mem
    have low : va.toNat/4096+i < 1048576 := by omega
    exact ⟨low, (hs.identity low).1⟩

structure Layout.Low (b : Layout) : Prop where
  image : b.kernelStart.toNat ≤ b.kernelEnd.toNat ∧ b.kernelEnd.toNat ≤ 4294967296
  framebuffer : 0 < b.fbAddress.toNat ∧ 0 < b.fbSize.toNat ∧
    b.fbAddress.toNat+b.fbSize.toNat ≤ 4294967296

def Layout.imagePages (b : Layout) : ℕ :=
  (b.kernelEnd.toNat+4095)/4096-b.kernelStart.toNat/4096

def Layout.fbPages (b : Layout) : ℕ :=
  (b.fbAddress.toNat+b.fbSize.toNat+4095)/4096-b.fbAddress.toNat/4096

def Layout.bootPages (b : Layout) (bytes : ℕ) : ℕ :=
  3*b.imagePages+3*b.fbPages+6148+2*((bytes+4119)/4096)

theorem Layout.Low.prepared (low : b.Low) (room : k.pmm.Room first stop)
    (le : first+3*b.imagePages+3*b.fbPages+6151 < stop) :
    ∃ k', (vmmPrepareKernelSpace b).run k = (true, k') ∧
      k'.pmm.Room (first+3*b.imagePages+3*b.fbPages+6148) stop := by
  obtain ⟨⟨start_le, end_le⟩, -, -, fb_le⟩ := low
  have fbEnd : (b.fbAddress + b.fbSize).toNat = b.fbAddress.toNat+b.fbSize.toNat := by
    rw [BitVec.toNat_add]
    omega
  have imageEnd : alignUp b.kernelEnd = pageAddress (b.kernelStart.toNat/4096+b.imagePages) := by
    rw [alignUp_eq (by omega), Layout.imagePages]
    congr 1
    omega
  have framebufferEnd : alignUp (b.fbAddress + b.fbSize) =
      pageAddress (b.fbAddress.toNat/4096+b.fbPages) := by
    rw [alignUp_eq (by omega), fbEnd, Layout.fbPages]
    congr 1
    omega
  obtain ⟨k', run, room'⟩ := prepareKernelSpace_room (alignDown_eq _) imageEnd (alignDown_eq _)
    framebufferEnd (by rw [Layout.imagePages]; omega) (by rw [Layout.fbPages]; omega) room
    (by omega)
  exact ⟨k', run, room'.mono (by omega)⟩

theorem Found.ptr {size : Word} {start : ℕ} (h : Found size k start k') :
    (pageAddress start + headerSize).toNat = start*4096+24 := by
  have le := h.le
  rw [BitVec.toNat_add, pageAddress_toNat (by omega)]
  simp only [BitVec.ofNat_eq_ofNat, BitVec.toNat_ofNat]
  omega

theorem Found.ptr_ne {size : Word} {start : ℕ} (h : Found size k start k') :
    pageAddress start + headerSize ≠ 0 := by
  intro zero
  have := h.ptr
  rw [zero] at this
  simp at this

theorem fbEnableBackbuffer_room {width height : BitVec 32}
    (pixels : 0 < width.toNat*height.toNat) (small : width.toNat*height.toNat*4 < 2^31)
    (room : k.pmm.Room first stop)
    (le : first+2*((width.toNat*height.toNat*4+4119)/4096) ≤ stop) :
    ∃ draw display k', (fbEnableBackbuffer width height).run k = ((draw, display), k') ∧
      draw ≠ 0 ∧ display ≠ 0 ∧ draw.toNat+width.toNat*height.toNat*4 ≤ 4294967296 ∧
      display.toNat+width.toNat*height.toNat*4 ≤ 4294967296 ∧
      k'.pmm.Room (first+2*((width.toNat*height.toNat*4+4119)/4096)) stop ∧
      ∃ p, (width.toNat*height.toNat*4+4119)/4096 ≤ p ∧ p < stop ∧ k'.pmm.used p = true := by
  obtain ⟨total, bytes⟩ := pixels_toNat (show width.toNat*height.toNat*4 < 2^63 by omega)
  rw [fbEnableBackbuffer]
  generalize (width.setWidth 64 * height.setWidth 64 : Word) = t at total bytes
  generalize width.toNat*height.toNat = n at pixels small le total bytes ⊢
  have nonzero : t*4 ≠ 0 := by
    intro zero
    rw [zero] at bytes
    simp only [BitVec.ofNat_eq_ofNat, BitVec.toNat_ofNat] at bytes
    omega
  have positive : ¬(t = 0 ∨ t*4 = 0) := by
    rintro (zero | zero)
    · rw [zero] at total
      simp only [BitVec.ofNat_eq_ofNat, BitVec.toNat_ofNat] at total
      omega
    · exact nonzero zero
  have pages : (kmallocPages (t*4)).toNat = (n*4+4119)/4096 := by
    rw [kmallocPages_toNat (by omega), bytes]
  obtain ⟨start, k₁, found, low, room₁⟩ := kmalloc_room room nonzero (by omega) (by omega)
  obtain ⟨start', k₂, found', -, room₂⟩ := kmalloc_room room₁ nonzero (by omega) (by omega)
  rw [if_neg positive, run_bind, found.run, run_bind, found'.run]
  dsimp only
  rw [if_neg (not_or.mpr ⟨found.ptr_ne, found'.ptr_ne⟩), run_bind]
  have stores : Stores Set.univ (clearPixels (pageAddress start + headerSize)
      (pageAddress start' + headerSize) (List.range t.toNat)) :=
    clearPixels_stores fun _ _ _ _ => ⟨trivial, trivial⟩
  obtain ⟨memory, run, -⟩ := stores k₂
  rw [run]
  have le₁ := found.le
  have le₂ := found'.le
  have ptr₁ := found.ptr
  have ptr₂ := found'.ptr
  have taken {p : ℕ} (hl : start ≤ p) (hr : p < start+(kmallocPages (t*4)).toNat) :
      k₂.pmm.used p = true := by
    simp only [found'.pmm, found.pmm, Pmm.takeRun, decide_eq_true (show start ≤ p ∧
      p < start+(kmallocPages (t*4)).toNat from ⟨hl, hr⟩), Bool.true_or, Bool.or_true]
  have pos := found.pos
  refine ⟨_, _, _, rfl, found.ptr_ne, found'.ptr_ne, ?_, ?_, ?_, start+(n*4+4119)/4096-1, ?_, ?_,
    taken ?_ ?_⟩
  · rw [ptr₁]
    omega
  · rw [ptr₂]
    omega
  · rw [pages] at room₂
    exact room₂.mono (by omega)
  · omega
  · omega
  · omega
  · omega

theorem boot_returns {width height : BitVec 32} (low : b.Low) (pixels : 0 < width.toNat*height.toNat)
    (small : width.toNat*height.toNat*4 < 2^31) (room : k.pmm.Room first stop)
    (le : first+b.bootPages (width.toNat*height.toNat*4)+3 < stop) :
    ∃ k', (boot b width height).run k = (true, k') ∧
      k'.pmm.Room (first+b.bootPages (width.toNat*height.toNat*4)) stop ∧
      ∃ p, (width.toNat*height.toNat*4+4119)/4096 ≤ p ∧ p < stop ∧ k'.pmm.used p = true := by
  rw [Layout.bootPages] at le ⊢
  obtain ⟨k₁, prepared, room₁⟩ := low.prepared (k := (kmallocInit.run k).2) room (by omega)
  obtain ⟨place₁, spaces₁, -⟩ := prepareKernelSpace_spec b (k := (kmallocInit.run k).2) room.page0
    prepared
  obtain ⟨draw, display, k₂, enabled, draw_ne, display_ne, draw_le, display_le, room₂, taken⟩ :=
    fbEnableBackbuffer_room pixels small room₁ (by omega)
  have apart := fbEnableBackbuffer_apart spaces₁.spaces.sound
    (show width.toNat*height.toNat*4 < 2^63 by omega)
  rw [enabled] at apart
  have spaces₂ : Spaces place₁ k₂ := spaces₁.spaces.apart apart
  obtain ⟨-, bytes⟩ := pixels_toNat (show width.toNat*height.toNat*4 < 2^63 by omega)
  rw [← bytes] at draw_le display_le
  obtain ⟨place₃, k₃, run₃, step₃, pmm₃⟩ := mapKernelRange_again pageWritable spaces₂
    draw_le
  obtain ⟨place₄, k₄, run₄, step₄, pmm₄⟩ := mapKernelRange_again pageWritable
    (spaces₂.step step₃) display_le
  obtain ⟨fb_pos, size_pos, fb_le⟩ := low.framebuffer
  obtain ⟨place₅, k₅, run₅, step₅, pmm₅⟩ := mapKernelRange_again pageWritable
    ((spaces₂.step step₃).step step₄) fb_le
  have buffers : ¬(draw = 0 ∨ display = 0) := not_or.mpr ⟨draw_ne, display_ne⟩
  have framebuffer : ¬(b.fbAddress = 0 ∨ b.fbSize = 0) := by
    rintro (zero | zero)
    · rw [zero] at fb_pos
      exact absurd fb_pos (by decide)
    · rw [zero] at size_pos
      exact absurd size_pos (by decide)
  have mapped : (vmmMapKernelMemory b draw display
      (width.setWidth 64 * height.setWidth 64 * 4)).run k₂ = (0, k₅) := by
    rw [vmmMapKernelMemory, if_neg buffers, if_neg framebuffer, run_bind, run₃]
    dsimp only
    rw [if_neg (not_not.mpr rfl), run_bind, run₄]
    dsimp only
    rw [if_neg (not_not.mpr rfl)]
    exact run₅
  have pmm : (vmmSwitchKernelSpace.run k₅).2.pmm = k₂.pmm := by
    change k₅.pmm = k₂.pmm
    rw [pmm₅, pmm₄, pmm₃]
  refine ⟨_, boot_of ⟨prepared, enabled, mapped⟩, ?_⟩
  rw [pmm]
  exact ⟨room₂.mono (by omega), taken⟩

def desktopLayout : Layout := ⟨0x100000, 0x102000, 0xFD000000, 0x500000⟩

def desktopInfo (a : Word) : BitVec 8 :=
  ([56, 0, 0, 0, 0, 0, 0, 0,
    6, 0, 0, 0, 40, 0, 0, 0, 24, 0, 0, 0, 0, 0, 0, 0,
    0, 0, 0x10, 0, 0, 0, 0, 0, 0, 0, 0xF0, 3, 0, 0, 0, 0, 1, 0, 0, 0, 0, 0, 0, 0,
    0, 0, 0, 0, 8, 0, 0, 0] : List (BitVec 8)).getD (a.toNat-0x10000) 0

theorem desktopInfo_tags (s : Pmm) :
    markTags desktopInfo 0x10038 3 0x10008 s = some (markRangeFree s 0x100000 0x3F00000) := by
  have memoryMap : load32 desktopInfo 0x10008 = 6 ∧ load32 desktopInfo (0x10008 + 4) = 40 ∧
      load32 desktopInfo (0x10008 + 8) = 24 := by decide
  have region : load64 desktopInfo 0x10018 = 0x100000 ∧ load64 desktopInfo (0x10018 + 8) = 0x3F00000 ∧
      load32 desktopInfo (0x10018 + 16) = 1 := by decide
  have last : load32 desktopInfo 0x10030 = 0 := by decide
  have entries (s : Pmm) : markEntries desktopInfo 24 0x10030 2 0x10018 s =
      some (markRangeFree s 0x100000 0x3F00000) := by
    rw [markEntries, if_pos (by decide), region.1, region.2.1, region.2.2]
    dsimp only
    rw [if_pos rfl, markEntries, if_neg (by decide)]
  rw [markTags, if_pos (by decide), memoryMap.1, memoryMap.2.1, memoryMap.2.2]
  dsimp only
  rw [if_neg (by decide), if_pos rfl, show (0x10008 : Word) + 16 = 0x10018 by decide,
    show (0x10008 : Word) + (40 : BitVec 32).setWidth 64 = 0x10030 by decide, entries,
    Option.bind_some, show (0x10008 : Word) + ((40 + 7 : BitVec 32) &&& ~~~7).setWidth 64 = 0x10030
      by decide, markTags, if_pos (by decide), last]
  rfl

theorem desktopInit : ∃ s, pmmInit 3 desktopLayout desktopInfo 0x10000 = some s ∧
    s.Room 0x102 0x4000 := by
  have size : load32 desktopInfo 0x10000 = 56 := by decide
  have run : ∃ s, pmmInit 3 desktopLayout desktopInfo 0x10000 = some s ∧ s =
      markRangeUsed (markRangeUsed (markRangeUsed (markRangeUsed (markRangeFree
        ⟨fun _ => true, maxPages, 0, le_refl _⟩ 0x100000 0x3F00000) 0 0x100000) 0x100000 0x2000)
        0x10000 56) 0xFD000000 0x500000 := by
    refine ⟨_, ?_, rfl⟩
    rw [pmmInit, size, show (0x10000 : Word) + (56 : BitVec 32).setWidth 64 = 0x10038 by decide,
      show (0x10000 : Word) + 8 = 0x10008 by decide, desktopInfo_tags]
    rfl
  obtain ⟨s, run, eq⟩ := run
  have init : Initialised s := ⟨3, desktopLayout, desktopInfo, 0x10000, run⟩
  refine ⟨s, run, init.marked.1, init.marked.2, by decide, fun p hl hr => ?_⟩
  have free : p ∈ rangePages (alignUp 0x100000) (alignDown (0x100000 + 0x3F00000)) := by
    rw [show alignUp 0x100000 = pageAddress 0x100 by decide,
      show alignDown (0x100000 + 0x3F00000) = pageAddress 0x4000 by decide]
    exact (mem_rangePages (by decide) (by decide)).mpr ⟨by omega, hr⟩
  have outside {a c : ℕ} {u v : Word} (hu : u = pageAddress a) (hv : v = pageAddress c)
      (le : c ≤ 1048576) (lt : a < 1048576) (off : c ≤ p ∨ p < a) : p ∉ rangePages u v := by
    rw [hu, hv, mem_rangePages le lt]
    omega
  rw [Bool.eq_false_iff]
  intro used
  rw [eq] at used
  simp only [markRangeUsed_used, markRangeFree_used] at used
  rcases used with (((⟨-, kept⟩ | low) | image) | info) | framebuffer
  · exact kept free
  · exact outside (a := 0) (c := 0x100) (by decide) (by decide) (by decide) (by decide)
      (by omega) low
  · exact outside (a := 0x100) (c := 0x102) (by decide) (by decide) (by decide) (by decide)
      (by omega) image
  · exact outside (a := 0x10) (c := 0x11) (by decide) (by decide) (by decide) (by decide)
      (by omega) info
  · exact outside (a := 0xFD000) (c := 0xFD500) (by decide) (by decide) (by decide) (by decide)
      (by omega) framebuffer

/-- The machine boots with a screen of 1280 by 1024 pixels: many pages are left, and its
buffers reach into the user window. -/
theorem desktop_booted : ∃ k, Booted desktopLayout k ∧ k.pmm.Room 0x3210 0x4000 ∧
    ∃ p, 0x400 ≤ p ∧ p < 0x4000 ∧ k.pmm.used p = true := by
  obtain ⟨s, init, room⟩ := desktopInit
  have low : desktopLayout.Low := ⟨by decide, by decide⟩
  obtain ⟨k, run, left, p, le, lt, used⟩ := boot_returns
    (k := ⟨fun _ _ => 0, s, 0, 0, 0, 0, 0, 0, 0⟩) low
    (show 0 < (1280 : BitVec 32).toNat*(1024 : BitVec 32).toNat by decide) (by decide) room
    (by decide)
  have enough : 0x400 ≤ ((1280 : BitVec 32).toNat*(1024 : BitVec 32).toNat*4+4119)/4096 := by decide
  exact ⟨k, ⟨3, desktopInfo, 0x10000, _, 1280, 1024, by decide, init, run⟩, left.mono (by decide),
    p, enough.trans le, lt, used⟩

end TinyOS.Memory
