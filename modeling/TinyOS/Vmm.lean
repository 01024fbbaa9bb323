import TinyOS.Pmm
import TinyOS.RadixTables

set_option autoImplicit false

/-! Four-level page tables (memory/vmm.c). The kernel reaches a table at its physical
address, by the identity map; a pointer to a table is the number of its page. -/
namespace TinyOS.Memory
open RadixTables

/-- Physical memory by page and word, the allocator, the static variables of vmm.c, the
register CR3, `riru_user_cr3` of riru/loader.c and the counters of kmalloc.c. -/
structure Kernel where
  memory : ℕ → Fin 512 → Word
  pmm : Pmm
  currentPml4 : ℕ
  kernelPml4 : ℕ
  kernelCr3 : Word
  cr3 : Word
  riruUserCr3 : Word
  heapUsed : Word
  heapTotal : Word

abbrev KernelM := StateM Kernel

def allocPage : KernelM Word := fun k =>
  ((pmmAllocPage k.pmm).1, { k with pmm := (pmmAllocPage k.pmm).2 })

def freePage (address : Word) : KernelM Unit := fun k =>
  ((), { k with pmm := pmmFreePage k.pmm address })

def readEntry (table : ℕ) (i : Fin 512) : KernelM Word := fun k => (k.memory table i, k)

def writeEntry (table : ℕ) (i : Fin 512) (e : Word) : KernelM Unit := fun k =>
  ((), { k with memory := setEntry k.memory table i e })

def writeTable (table : ℕ) (entries : Fin 512 → Word) : KernelM Unit := fun k =>
  ((), { k with memory := Function.update k.memory table entries })

/-- `allocate_table`; `none` is the null pointer. -/
def allocateTable : KernelM (Option ℕ) := do
  let physical ← allocPage
  if physical = 0 then return none
  writeTable (pageOf physical) fun _ => 0
  return some (pageOf physical)

/-- One level of `map_page_in`: the table below an entry, allocated where there is
none, or else with `PAGE_USER` merged into the entry. -/
def enterTable (table : ℕ) (i : Fin 512) (flags : Word) : KernelM (Option ℕ) := do
  let e ← readEntry table i
  if has pagePresent e then
    writeEntry table i (e ||| (flags &&& pageUser))
    return some (physicalToTable e)
  let some below ← allocateTable | return none
  writeEntry table i (tableEntry below flags)
  return some below

def mapPageIn (pml4 : ℕ) (va pa flags : Word) : KernelM ℤ := do
  if va &&& (pageSize - 1) ≠ 0 then return -1
  if pa &&& (pageSize - 1) ≠ 0 then return -1
  let some pdpt ← enterTable pml4 (pml4Index va) flags | return -2
  let some pd ← enterTable pdpt (pdptIndex va) flags | return -3
  let pde ← readEntry pd (pdIndex va)
  if has hugePage pde then return -4
  let some pt ← enterTable pd (pdIndex va) flags | return -5
  let e ← readEntry pt (ptIndex va)
  if has pagePresent e then
    if e &&& pageMask = pa &&& pageMask then
      writeEntry pt (ptIndex va) (e ||| (flags &&& (pageUser ||| pageWritable)))
      return 0
    return -6
  writeEntry pt (ptIndex va) (leafEntry pa flags)
  return 0

def getPhysicalFrom (memory : ℕ → Fin 512 → Word) (pml4 : ℕ) (va : Word) : Word :=
  let pml4e := memory pml4 (pml4Index va)
  let pdpte := memory (physicalToTable pml4e) (pdptIndex va)
  let pde := memory (physicalToTable pdpte) (pdIndex va)
  let pte := memory (physicalToTable pde) (ptIndex va)
  if !has pagePresent pml4e then 0
  else if !has pagePresent pdpte then 0
  else if !has pagePresent pde then 0
  else if has hugePage pde then (pde &&& 0x000FFFFFFFE00000) + (va &&& 0x1FFFFF)
  else if !has pagePresent pte then 0
  else (pte &&& pageMask) + (va &&& 0xFFF)

def vmmUnmapPage (va : Word) : KernelM Unit := fun k =>
  let pml4e := k.memory k.currentPml4 (pml4Index va)
  let pdpte := k.memory (physicalToTable pml4e) (pdptIndex va)
  let pde := k.memory (physicalToTable pdpte) (pdIndex va)
  if !has pagePresent pml4e then ((), k)
  else if !has pagePresent pdpte then ((), k)
  else if !has pagePresent pde then ((), k)
  else if has hugePage pde then ((), k)
  else (writeEntry (physicalToTable pde) (ptIndex va) 0).run k

/-- A loop that stops at the first call with a result other than 0. -/
def firstError {α : Type} (body : α → KernelM ℤ) : List α → KernelM ℤ
  | [] => return 0
  | a :: rest => do
    let result ← body a
    if result ≠ 0 then return result
    firstError body rest

def mapIdentity (pml4 : ℕ) (start stop : Word) : KernelM ℤ :=
  firstError (fun a => mapPageIn pml4 a a pageWritable) (pageRange start stop)

/-- The loop over the framebuffer in `vmm_prepare_kernel_space` and
`vmm_create_user_space`. -/
def mapFramebuffer (b : Layout) (pml4 : ℕ) : KernelM ℤ :=
  if b.fbAddress ≠ 0 ∧ b.fbSize ≠ 0 then
    mapIdentity pml4 (alignDown b.fbAddress) (alignUp (b.fbAddress + b.fbSize))
  else return 0

def vmmIdentityMapPhysicalMemory (kernelPml4 : ℕ) : KernelM ℤ :=
  mapIdentity kernelPml4 0 maxPhysicalMemory

/-- Whether the function returns; on `false` it has stopped the machine. -/
def vmmPrepareKernelSpace (b : Layout) : KernelM Bool := do
  let some kernelPml4 ← allocateTable | return false
  modify fun k => { k with kernelPml4 := kernelPml4 }
  let image ← mapIdentity kernelPml4 (alignDown b.kernelStart) (alignUp b.kernelEnd)
  if image ≠ 0 then return false
  let framebuffer ← mapFramebuffer b kernelPml4
  if framebuffer ≠ 0 then return false
  let vga ← mapPageIn kernelPml4 0xB8000 0xB8000 pageWritable
  let identity ← vmmIdentityMapPhysicalMemory kernelPml4
  if identity ≠ 0 then return false
  if vga ≠ 0 then return false
  modify fun k => { k with kernelCr3 := pageAddress kernelPml4 }
  return true

def vmmSwitchKernelSpace : KernelM Unit :=
  modify fun k => { k with currentPml4 := k.kernelPml4, cr3 := k.kernelCr3 }

def vmmMapKernelRange (va pa size flags : Word) : KernelM ℤ := do
  if size = 0 then return 0
  let offset := va &&& (pageSize - 1)
  let pages := (size + offset + pageSize - 1)/pageSize
  let k ← get
  firstError (fun i => mapPageIn k.kernelPml4 (alignDown va + BitVec.ofNat 64 i*pageSize)
    (alignDown pa + BitVec.ofNat 64 i*pageSize) flags) (List.range pages.toNat)

def vmmMapKernelMemory (b : Layout) (draw display bufferSize : Word) : KernelM ℤ := do
  if draw = 0 ∨ display = 0 then return -1
  if b.fbAddress = 0 ∨ b.fbSize = 0 then return -2
  let result ← vmmMapKernelRange draw draw bufferSize pageWritable
  if result ≠ 0 then return result
  let result ← vmmMapKernelRange display display bufferSize pageWritable
  if result ≠ 0 then return result
  vmmMapKernelRange b.fbAddress b.fbAddress b.fbSize pageWritable

def copyKernelEntries (userPml4 : ℕ) : KernelM Unit := fun k =>
  ((), { k with memory := Function.update k.memory userPml4 fun i =>
    if i.val = 0 ∨ 256 ≤ i.val then k.memory k.kernelPml4 i else k.memory userPml4 i })

def vmmCreateUserSpace (b : Layout) : KernelM Word := do
  let some userPml4 ← allocateTable | return 0
  copyKernelEntries userPml4
  let vga ← mapPageIn userPml4 0xB8000 0xB8000 pageWritable
  if vga ≠ 0 then return 0
  let framebuffer ← mapFramebuffer b userPml4
  if framebuffer ≠ 0 then return 0
  return pageAddress userPml4

def vmmMapUserPage (cr3 va pa flags : Word) : KernelM ℤ := do
  if cr3 = 0 then return -1
  if 0x0000800000000000 ≤ va then return -2
  mapPageIn (physicalToTable cr3) va pa (flags ||| pageUser)

def vmmGetPhysicalIn (cr3 va : Word) : KernelM Word := fun k =>
  (if cr3 = 0 then 0 else getPhysicalFrom k.memory (physicalToTable cr3) va, k)

def vmmSwitchAddressSpace (cr3 : Word) : KernelM Unit :=
  if cr3 = 0 then return ()
  else modify fun k => { k with currentPml4 := physicalToTable cr3, cr3 := cr3 &&& pageMask }

/-- `RIRU_USER_MIN` and `RIRU_USER_MAX`, the ends of the loop below too. -/
abbrev userMin : Word := 0x400000
abbrev userMax : Word := 0x40000000

/-- The loop of `vmm_destroy_user_space`. -/
def freeUserPages (pml4 : ℕ) : List Word → KernelM Unit
  | [] => return ()
  | va :: rest => do
    let k ← get
    let physical := getPhysicalFrom k.memory pml4 va
    if physical ≠ 0 then freePage (physical &&& pageMask)
    freeUserPages pml4 rest

def vmmDestroyUserSpace (cr3 : Word) : KernelM ℤ := do
  if cr3 = 0 then return -1
  vmmSwitchKernelSpace
  freeUserPages (physicalToTable cr3) (pageRange userMin userMax)
  freePage (pageAddress (physicalToTable cr3))
  return 0

theorem run_bind {α β : Type} (x : KernelM α) (f : α → KernelM β) (k : Kernel) :
    (x >>= f).run k = (f (x.run k).1).run (x.run k).2 := rfl

theorem readEntry_run (t : ℕ) (i : Fin 512) (k : Kernel) :
    (readEntry t i).run k = (k.memory t i, k) := rfl

theorem vmmSwitchAddressSpace_run {page : ℕ} (pos : 0 < page) (lt : page < 2^40) (k : Kernel) :
    (vmmSwitchAddressSpace (pageAddress page)).run k =
      ((), { k with currentPml4 := page, cr3 := pageAddress page }) := by
  have ne : pageAddress page ≠ 0 := pageAddress_ne_zero pos (by omega)
  rw [vmmSwitchAddressSpace, if_neg ne]
  change ((), { k with
    currentPml4 := physicalToTable (pageAddress page)
    cr3 := pageAddress page &&& pageMask }) = _
  rw [physicalToTable_pageAddress lt, pageAddress_and_mask lt]

variable {α β γ : Type} {f : Kernel → γ}

def Static (f : Kernel → γ) : Prop := ∀ k m p used total,
  f { k with memory := m, pmm := p, heapUsed := used, heapTotal := total } = f k

def Keeps (f : Kernel → γ) (x : KernelM α) : Prop := ∀ k, f (x.run k).2 = f k

theorem Keeps.pure (a : α) : Keeps f (pure a : KernelM α) := fun _ => rfl

theorem Keeps.bind {x : KernelM α} {g : α → KernelM β} (hx : Keeps f x)
    (hg : ∀ a, Keeps f (g a)) : Keeps f (x >>= g) := by
  intro k
  rw [run_bind]
  exact (hg _ _).trans (hx k)

theorem Keeps.ite {p : Prop} [Decidable p] {x y : KernelM α} (hx : Keeps f x)
    (hy : Keeps f y) : Keeps f (if p then x else y) := by
  split_ifs
  · exact hx
  · exact hy

section
variable (hf : Static f)
include hf

theorem keeps_allocPage : Keeps f allocPage := fun k => hf k _ _ _ _

theorem keeps_freePage (a : Word) : Keeps f (freePage a) := fun k => hf k _ _ _ _

theorem keeps_writeEntry (t : ℕ) (i : Fin 512) (e : Word) : Keeps f (writeEntry t i e) :=
  fun k => hf k _ _ _ _

omit hf in
theorem keeps_readEntry (t : ℕ) (i : Fin 512) : Keeps f (readEntry t i) := fun _ => rfl

theorem keeps_allocateTable : Keeps f allocateTable :=
  (keeps_allocPage hf).bind fun _ =>
    .ite (.pure _) (.bind (fun k => hf k _ _ _ _) fun _ => .pure _)

theorem keeps_enterTable (t : ℕ) (i : Fin 512) (flags : Word) :
    Keeps f (enterTable t i flags) := by
  refine (keeps_readEntry t i).bind fun e => .ite ?_ ?_
  · exact (keeps_writeEntry hf _ _ _).bind fun _ => .pure _
  · refine (keeps_allocateTable hf).bind fun below => ?_
    cases below with
    | none => exact .pure _
    | some below => exact (keeps_writeEntry hf _ _ _).bind fun _ => .pure _

theorem keeps_mapPageIn (pml4 : ℕ) (va pa flags : Word) : Keeps f (mapPageIn pml4 va pa flags) := by
  refine .ite (.pure _) (.ite (.pure _) ?_)
  refine (keeps_enterTable hf _ _ _).bind fun pdpt => ?_
  cases pdpt with
  | none => exact .pure _
  | some pdpt =>
    refine (keeps_enterTable hf _ _ _).bind fun pd => ?_
    cases pd with
    | none => exact .pure _
    | some pd =>
      refine (keeps_readEntry _ _).bind fun pde => .ite (.pure _) ?_
      refine (keeps_enterTable hf _ _ _).bind fun pt => ?_
      cases pt with
      | none => exact .pure _
      | some pt =>
        refine (keeps_readEntry _ _).bind fun e => .ite (.ite ?_ (.pure _)) ?_
        · exact (keeps_writeEntry hf _ _ _).bind fun _ => .pure _
        · exact (keeps_writeEntry hf _ _ _).bind fun _ => .pure _

omit hf in
theorem keeps_firstError {body : α → KernelM ℤ} (h : ∀ a, Keeps f (body a)) (l : List α) :
    Keeps f (firstError body l) := by
  induction l with
  | nil => exact .pure _
  | cons a rest ih => exact (h a).bind fun _ => .ite (.pure _) ih

theorem keeps_mapFramebuffer (b : Layout) (pml4 : ℕ) : Keeps f (mapFramebuffer b pml4) :=
  .ite (keeps_firstError (fun _ => keeps_mapPageIn hf _ _ _ _) _) (.pure _)

theorem keeps_createUserSpace (b : Layout) : Keeps f (vmmCreateUserSpace b) := by
  refine (keeps_allocateTable hf).bind fun user => ?_
  cases user with
  | none => exact .pure _
  | some user =>
    refine .bind (fun k => hf k _ _ _ _) fun _ => (keeps_mapPageIn hf _ _ _ _).bind fun _ =>
      .ite (.pure _) ((keeps_mapFramebuffer hf _ _).bind fun _ => .ite (.pure _) (.pure _))

theorem keeps_mapUserPage (cr3 va pa flags : Word) : Keeps f (vmmMapUserPage cr3 va pa flags) :=
  .ite (.pure _) (.ite (.pure _) (keeps_mapPageIn hf _ _ _ _))

end

/-- CR3 and `current_pml4`. -/
def Kernel.space (k : Kernel) : ℕ × Word := (k.currentPml4, k.cr3)

theorem static_space : Static Kernel.space := fun _ _ _ _ _ => rfl

end TinyOS.Memory
