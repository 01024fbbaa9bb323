import TinyOS.RiruRoom
import TinyOS.StateRuns

set_option autoImplicit false

namespace TinyOS.Memory
open RadixTables StateRuns

variable {r u : ℕ} {place place' : Places} {k k' : Kernel} {b : Layout} {a : Word}

def Layout.imageRange (b : Layout) : List Word :=
  pageRange (alignDown b.kernelStart) (alignUp b.kernelEnd)

def Layout.fbRange (b : Layout) : List Word :=
  if b.fbAddress ≠ 0 ∧ b.fbSize ≠ 0 then
    pageRange (alignDown b.fbAddress) (alignUp (b.fbAddress + b.fbSize))
  else []

/-- The pages that `vmm_prepare_kernel_space` maps. -/
inductive KernelPage (b : Layout) : Word → Prop where
  | image {a : Word} (h : a ∈ b.imageRange) : KernelPage b a
  | framebuffer {a : Word} (h : a ∈ b.fbRange) : KernelPage b a
  | vga : KernelPage b 0xB8000
  | identity {a : Word} (h : a ∈ pageRange 0 maxPhysicalMemory) : KernelPage b a

def Resident (b : Layout) (k : Kernel) (r : ℕ) : Prop :=
  ∀ a, KernelPage b a → walk child k.memory r (path a) = some (physicalToTable a)

def Shared (a : Word) : Prop := (pml4Index a).val = 0 ∨ 256 ≤ (pml4Index a).val

theorem mapFramebuffer_mapped (hs : Sound place k) (hr : place r = some [])
    (upper : UpperWritable place k) (run : (mapFramebuffer b r).run k = (0, k')) :
    ∀ a ∈ b.fbRange, walk child k'.memory r (path a) = some (physicalToTable a) := by
  intro a mem
  rw [Layout.fbRange] at mem
  split_ifs at mem with here
  · rw [mapFramebuffer, if_pos here] at run
    exact (mapIdentity_mapped hs hr upper run a mem).1
  · exact absurd mem List.not_mem_nil

theorem Resident.step (h : Resident b k r) (hs : Sound place k) (hr : place r = some [])
    (step : Step u place k place' k') : Resident b k' r :=
  fun a page => step.walk_keep hs hr (by simp [path]) (h a page)

theorem prepareKernelSpace_resident (h0 : k.pmm.used 0 = true)
    (returns : (vmmPrepareKernelSpace b).run k = (true, k')) : Resident b k' k'.kernelPml4 := by
  rcases allocateTable_cases h0 with alloc | ⟨page, pos, lt, -, -, alloc⟩
  · rw [vmmPrepareKernelSpace, run_bind, alloc] at returns
    cases returns
  obtain ⟨k₁, k₂, k₃, k₄, runs, rfl⟩ := prepareKernelSpace_cases alloc returns
  obtain ⟨place₁, place₂, place₃, place₄, step₁, step₂, step₃, step₄⟩ := runs.steps h0 pos lt
  have upper := @firstTable_upper k page
  have root : Function.update (fun _ => none : Places) page (some []) page = some [] :=
    Function.update_self _ _ _
  have root₁ := step₁.keep root
  have root₂ := step₂.keep root₁
  have root₃ := step₃.keep root₂
  have upper₁ := step₁.writable upper
  have image := mapIdentity_mapped (firstTable_sound h0 pos lt) root upper runs.image
  have framebuffer := mapFramebuffer_mapped step₁.sound root₁ upper₁ runs.framebuffer
  have vga := @mapPageIn_mapped page place₂ k₂ 0xB8000 0xB8000 pageWritable step₂.sound root₂
    (by decide) (by rw [runs.vga])
  rw [runs.vga] at vga
  have identity := runs.identity
  rw [vmmIdentityMapPhysicalMemory] at identity
  have low := mapIdentity_mapped step₃.sound root₃ (step₃.writable (step₂.writable upper₁)) identity
  have static : k₄.kernelPml4 = page :=
    ((step₁.trans step₂).trans (step₃.trans step₄)).kernelPml4
  rw [static]
  intro a page
  cases page with
  | image mem =>
    exact ((step₂.trans step₃).trans step₄).walk_keep step₁.sound root₁ (by simp [path])
      (image a mem).1
  | framebuffer mem =>
    exact (step₃.trans step₄).walk_keep step₂.sound root₂ (by simp [path]) (framebuffer a mem)
  | vga => exact step₄.walk_keep step₃.sound root₃ (by simp [path]) vga
  | identity mem => exact (low a mem).1

theorem createUserSpace_framebuffer (hs : Spaces place k) (ne : ((vmmCreateUserSpace b).run k).1 ≠ 0) :
    ∃ u, ((vmmCreateUserSpace b).run k).1 = pageAddress u ∧ u < 1048576 ∧
      ∀ a ∈ b.fbRange, walk child ((vmmCreateUserSpace b).run k).2.memory u (path a) =
        some (physicalToTable a) := by
  rcases allocateTable_cases hs.sound.page0 with h | ⟨page, pos, lt, unused, lowest, h⟩
  · rw [vmmCreateUserSpace, run_bind, h] at ne
    exact absurd rfl ne
  have hn := hs.sound.page_unplaced unused
  have other : k.kernelPml4 ≠ page := by
    rintro rfl
    exact absurd (hn.symm.trans hs.root) (by simp)
  have adopt := Step.adopt hs.sound hs.root pos lt unused lowest
  have root : Function.update place page (some []) page = some [] := Function.update_self _ _ _
  obtain ⟨place₁, first⟩ := mapPageIn_maps page 0xB8000 0xB8000 pageWritable adopt.sound root
  have upper := first.writable (adopt.writable hs.writable)
  rw [vmmCreateUserSpace, run_bind, h] at ne ⊢
  simp only [run_bind] at ne ⊢
  rw [copyKernelEntries_run other] at ne ⊢
  by_cases vga : ((mapPageIn page 0xB8000 0xB8000 pageWritable).run (k.newSpace page)).1 = 0
  swap
  · rw [if_pos vga] at ne
    exact absurd rfl ne
  rw [if_neg (not_not.mpr vga)] at ne ⊢
  rcases run : (mapFramebuffer b page).run
    ((mapPageIn page 0xB8000 0xB8000 pageWritable).run (k.newSpace page)).2 with ⟨result, k₂⟩
  rw [run_bind, run] at ne ⊢
  dsimp only at ne ⊢
  by_cases zero : result = 0
  swap
  · rw [if_pos zero] at ne
    exact absurd rfl ne
  rw [if_neg (not_not.mpr zero)]
  subst zero
  exact ⟨page, rfl, lt, mapFramebuffer_mapped first.sound (first.keep root) upper run⟩

/-- A new address space shares the tables of the kernel, and maps the framebuffer itself. -/
theorem createUserSpace_resident (hs : Spaces place k) (kernel : Resident b k k.kernelPml4)
    (image : ∀ a ∈ b.imageRange, Shared a) {cr3 : Word}
    (run : (vmmCreateUserSpace b).run k = (cr3, k')) (ne : cr3 ≠ 0) :
    ∃ u place', cr3 = pageAddress u ∧ u < 1048576 ∧ Step u place k place' k' ∧
      place' u = some [] ∧ Resident b k' u := by
  obtain ⟨u, cr3_eq, ult, framebuffer⟩ := createUserSpace_framebuffer hs (b := b) (by rwa [run])
  rw [run] at cr3_eq framebuffer
  dsimp only at cr3_eq framebuffer
  rcases createUserSpace_spec b hs.sound hs.root with
    ⟨-, none⟩ | ⟨page, place', result, k₁, run', step, pos, lt, -, root, copied, -, outcome⟩
  · rw [run] at none
    exact absurd (congrArg Prod.fst none) ne
  obtain ⟨rfl, rfl⟩ := Prod.mk.inj (run.symm.trans run')
  have limit : page < 1048576 := lt
  obtain rfl : page = u := by
    have eq := (outcome.resolve_left ne).symm.trans cr3_eq
    rw [← pageOf_pageAddress (show page < 2^52 by omega), eq, pageOf_pageAddress (by omega)]
  refine ⟨page, place', cr3_eq, ult, step, root, fun a mem => ?_⟩
  have split : path a = pml4Index a :: [pdptIndex a, pdIndex a, ptIndex a] := rfl
  -- the tables below a shared entry are those of the kernel
  have shared (h : Shared a) : walk child k'.memory page (path a) = some (physicalToTable a) := by
    have before := kernel a mem
    rw [split, walk] at before ⊢
    obtain ⟨c, hc, below⟩ := Option.bind_eq_some_iff.mp before
    rw [copied h hc, Option.bind_some]
    exact step.walk_keep hs.sound (hs.sound.placed.below hs.root (by decide) hc) (by simp) below
  have low {p : ℕ} (lt : p < 1048576) : Shared (pageAddress p) := by
    left
    have here : path (pageAddress p) = pagePath p := by rw [path_eq, pageOf_pageAddress (by omega)]
    have index := (List.cons.inj here).1
    rw [index]
    dsimp only
    omega
  cases mem with
  | image mem => exact shared (image a mem)
  | framebuffer mem => exact framebuffer a mem
  | vga =>
    refine shared ?_
    rw [show (0xB8000 : Word) = pageAddress 0xB8 by decide]
    exact low (by decide)
  | identity mem =>
    rw [show (0 : Word) = pageAddress 0 by decide,
      show maxPhysicalMemory = pageAddress 1048576 by decide] at mem
    obtain ⟨p, -, lt, rfl⟩ := (mem_pageRange (by decide) (by decide)).mp mem
    exact shared (low lt)

structure SpacesState where
  kernel : Kernel
  spaces : List Word

/-- A call of `vmm_create_user_space`, of `vmm_map_user_page` or `vmm_switch_address_space` on a
space handed out, or what others do. -/
inductive SpaceCall where
  | create
  | map (cr3 va pa flags : Word)
  | switch (cr3 : Word)
  | other (k : Kernel)

def SpaceCall.Goes (b : Layout) : SpaceCall → SpacesState → SpacesState → Prop
  | .create, s, t => ∃ cr3 k', (vmmCreateUserSpace b).run s.kernel = (cr3, k') ∧
      t = ⟨k', if cr3 = 0 then s.spaces else cr3 :: s.spaces⟩
  | .map cr3 va pa flags, s, t => cr3 ∈ s.spaces ∧
      t = ⟨((vmmMapUserPage cr3 va pa flags).run s.kernel).2, s.spaces⟩
  | .switch cr3, s, t => cr3 ∈ s.spaces ∧
      t = ⟨((vmmSwitchAddressSpace cr3).run s.kernel).2, s.spaces⟩
  | .other k, s, t => t = ⟨k, s.spaces⟩ ∧
      Others (s.kernel.kernelPml4 :: s.spaces.map physicalToTable) s.kernel k

/-- `vmm_prepare_kernel_space` has returned. -/
def KernelPrepared (b : Layout) (s : SpacesState) : Prop := ∃ k, k.pmm.used 0 = true ∧
  (vmmPrepareKernelSpace b).run k = (true, s.kernel) ∧ s.spaces = []

abbrev SpacesReach (b : Layout) : SpacesState → Prop :=
  Reach (KernelPrepared b) (SpaceCall.Goes b) fun _ _ => True

structure SpacesState.Inv (b : Layout) (place : Places) (s : SpacesState) : Prop where
  spaces : Spaces place s.kernel
  kernel : Resident b s.kernel s.kernel.kernelPml4
  user : ∀ cr3 ∈ s.spaces, ∃ u, cr3 = pageAddress u ∧ u < 1048576 ∧ place u = some [] ∧
    Resident b s.kernel u

variable {s t : SpacesState}

theorem Resident.apart (h : Resident b k r) (hs : Sound place k) (hr : place r = some [])
    (apart : Apart place k k') : Resident b k' r := by
  intro a page
  rw [hs.placed.walk_congr (fun hp => apart.memory hp) hr (by simp [path])]
  exact h a page

theorem SpacesState.Inv.step {k' : Kernel} (h : s.Inv b place)
    (step : Step r place s.kernel place' k') : SpacesState.Inv b place' ⟨k', s.spaces⟩ where
  spaces := h.spaces.step step
  kernel := by
    rw [step.kernelPml4]
    exact h.kernel.step h.spaces.sound h.spaces.root step
  user cr3 mem := by
    obtain ⟨u, eq, lt, root, resident⟩ := h.user cr3 mem
    exact ⟨u, eq, lt, step.keep root, resident.step h.spaces.sound root step⟩

theorem SpacesState.Inv.apart {k' : Kernel} (h : s.Inv b place)
    (apart : Apart place s.kernel k') : SpacesState.Inv b place ⟨k', s.spaces⟩ where
  spaces := h.spaces.apart apart
  kernel := by
    rw [apart.kernelPml4]
    exact h.kernel.apart h.spaces.sound h.spaces.root apart
  user cr3 mem := by
    obtain ⟨u, eq, lt, root, resident⟩ := h.user cr3 mem
    exact ⟨u, eq, lt, root, resident.apart h.spaces.sound root apart⟩

theorem switch_apart (hs : Sound place k) (cr3 : Word) :
    Apart place k ((vmmSwitchAddressSpace cr3).run k).2 := by
  rw [vmmSwitchAddressSpace]
  split_ifs
  · exact Apart.refl hs
  · exact ⟨fun _ _ _ => rfl, fun _ _ hp => (hs.used hp).1, hs.page0, rfl, rfl⟩

/-- The tables of the kernel and of some spaces on their own. -/
theorem Spaces.restrict {roots : List ℕ} (hs : Spaces place k) (hr : ∀ r ∈ roots, place r = some [])
    (mem : k.kernelPml4 ∈ roots) : ∃ place', Spaces place' k ∧ (∀ r ∈ roots, place' r = some []) ∧
      ∀ {p l}, place' p = some l → IsTable roots k p := by
  obtain ⟨place', sound, root, inside⟩ := hs.sound.restrict hr
  refine ⟨place', ⟨sound, ?_, root _ mem, hs.cr3, hs.identity⟩, root, fun hp => (inside hp).1⟩
  intro p l i c hp lt hc
  exact hs.writable (inside hp).2 lt hc

theorem Spaces.others {roots : List ℕ} (hs : Spaces place k) (hr : ∀ r ∈ roots, place r = some [])
    (mem : k.kernelPml4 ∈ roots) (others : Others roots k k') :
    ∃ place', Spaces place' k ∧ (∀ r ∈ roots, place' r = some []) ∧ Apart place' k k' := by
  obtain ⟨place', spaces, root, inside⟩ := hs.restrict hr mem
  refine ⟨place', spaces, root, ⟨fun p l hp => others.memory (inside hp),
    fun p l hp => others.used (inside hp), others.page0, ?_, ?_⟩⟩
  · rw [others.statics]
  · rw [others.statics]

theorem SpacesState.Inv.roots (h : s.Inv b place) :
    ∀ r ∈ s.kernel.kernelPml4 :: s.spaces.map physicalToTable, place r = some [] := by
  intro r mem
  rcases List.mem_cons.mp mem with rfl | mem
  · exact h.spaces.root
  · obtain ⟨cr3, given, rfl⟩ := List.mem_map.mp mem
    obtain ⟨u, rfl, lt, root, -⟩ := h.user cr3 given
    rwa [physicalToTable_pageAddress (by omega)]

theorem SpacesState.Inv.next (h : s.Inv b place) (image : ∀ a ∈ b.imageRange, Shared a)
    {call : SpaceCall} (go : call.Goes b s t) : ∃ place', t.Inv b place' := by
  cases call with
  | create =>
    obtain ⟨cr3, k', run, rfl⟩ := go
    by_cases zero : cr3 = 0
    · rw [if_pos zero]
      rcases createUserSpace_spec b h.spaces.sound h.spaces.root with
        ⟨-, none⟩ | ⟨page, place', result, k₁, run', step, -⟩
      · obtain ⟨-, rfl⟩ := Prod.mk.inj (run.symm.trans none)
        exact ⟨place, h⟩
      · obtain ⟨-, rfl⟩ := Prod.mk.inj (run.symm.trans run')
        exact ⟨place', h.step step⟩
    · rw [if_neg zero]
      obtain ⟨u, place', eq, lt, step, root, resident⟩ :=
        createUserSpace_resident h.spaces h.kernel image run zero
      have before := h.step step
      refine ⟨place', before.spaces, before.kernel, fun c mem => ?_⟩
      rcases List.mem_cons.mp mem with rfl | mem
      · exact ⟨u, eq, lt, root, resident⟩
      · exact before.user c mem
  | map cr3 va pa flags =>
    obtain ⟨mem, rfl⟩ := go
    obtain ⟨u, rfl, lt, root, -⟩ := h.user cr3 mem
    obtain ⟨place', step⟩ := mapUserPage_maps (physicalToTable_pageAddress (by omega)) va pa flags
      h.spaces.sound root
    exact ⟨place', h.step step⟩
  | switch cr3 =>
    obtain ⟨mem, rfl⟩ := go
    exact ⟨place, h.apart (switch_apart h.spaces.sound cr3)⟩
  | other k =>
    obtain ⟨rfl, others⟩ := go
    obtain ⟨place', spaces, root, apart⟩ := h.spaces.others h.roots List.mem_cons_self others
    have restricted : s.Inv b place' := by
      refine ⟨spaces, h.kernel, fun cr3 mem => ?_⟩
      obtain ⟨u, rfl, lt, -, resident⟩ := h.user cr3 mem
      refine ⟨u, rfl, lt, ?_, resident⟩
      have mem' : physicalToTable (pageAddress u) ∈ s.spaces.map physicalToTable :=
        List.mem_map_of_mem mem
      rw [physicalToTable_pageAddress (by omega)] at mem'
      exact root u (List.mem_cons_of_mem _ mem')
    exact ⟨place', restricted.apart apart⟩

theorem SpacesReach.inv (image : ∀ a ∈ b.imageRange, Shared a) (h : SpacesReach b s) :
    ∃ place, s.Inv b place := by
  refine h.invariant (I := fun s => ∃ place, s.Inv b place) ?_ ?_
  · rintro s ⟨k, h0, run, none⟩
    obtain ⟨place, prepared, -⟩ := prepareKernelSpace_spec b h0 run
    refine ⟨place, prepared.spaces, prepareKernelSpace_resident h0 run, fun cr3 mem => ?_⟩
    rw [none] at mem
    exact absurd mem List.not_mem_nil
  · rintro s t call - ⟨place, inv⟩ - go
    exact inv.next image go

/-- When the image lies in entries of the PML4 that are shared, every page that
`vmm_prepare_kernel_space` mapped stays mapped in every address space, where the kernel has it. -/
theorem kernel_resident (image : ∀ a ∈ b.imageRange, Shared a) (h : SpacesReach b s) {cr3 : Word}
    (mem : cr3 ∈ s.spaces) {va : Word} (page : KernelPage b (alignDown va)) :
    (∃ f, walk child s.kernel.memory (physicalToTable cr3) (path va) = some f ∧
      walk child s.kernel.memory s.kernel.kernelPml4 (path va) = some f) ∧
    getPhysicalFrom s.kernel.memory (physicalToTable cr3) va =
      getPhysicalFrom s.kernel.memory s.kernel.kernelPml4 va := by
  obtain ⟨place, inv⟩ := h.inv image
  obtain ⟨u, rfl, lt, root, resident⟩ := inv.user cr3 mem
  have here : path va = path (alignDown va) := by
    rw [path_eq, path_eq, pageOf, pageOf, alignDown_toNat, Nat.mul_div_cancel _ (by decide)]
  have user := resident _ page
  have kernel := inv.kernel _ page
  rw [← here] at user kernel
  rw [physicalToTable_pageAddress (by omega)]
  refine ⟨⟨_, user, kernel⟩, ?_⟩
  rw [getPhysicalFrom_eq inv.spaces.sound root, getPhysicalFrom_eq inv.spaces.sound inv.spaces.root,
    user, kernel]

/-- On a machine with 64 MB a new space has the first page of the kernel. -/
theorem kernel_resident_desktop : ∃ s cr3, SpacesReach desktopLayout s ∧ cr3 ∈ s.spaces ∧
    getPhysicalFrom s.kernel.memory (physicalToTable cr3) 0x100000 =
      getPhysicalFrom s.kernel.memory s.kernel.kernelPml4 0x100000 := by
  obtain ⟨pmm, -, room⟩ := desktopInit
  have low : desktopLayout.Low := ⟨by decide, by decide⟩
  obtain ⟨k, run, room'⟩ := low.prepared (k := ⟨fun _ _ => 0, pmm, 0, 0, 0, 0, 0, 0, 0⟩) room
    (by decide)
  obtain ⟨place, prepared, -⟩ := prepareKernelSpace_spec desktopLayout room.page0 run
  obtain ⟨u, place', k', create, -, -, space, -⟩ := createUserSpace_room low prepared.spaces room'
    (by decide)
  have ne : pageAddress u ≠ 0 := pageAddress_ne_zero space.pos (by
    have := space.lt
    omega)
  have start : SpacesReach desktopLayout ⟨k, []⟩ := .start ⟨_, room.page0, run, rfl⟩
  have reach : SpacesReach desktopLayout ⟨k', [pageAddress u]⟩ := by
    refine start.step (i := .create) trivial ⟨_, k', create, ?_⟩
    rw [if_neg ne]
  have shared : ∀ a ∈ desktopLayout.imageRange, Shared a := by
    have pages : desktopLayout.imageRange = [0x100000, 0x101000] := by decide
    intro a mem
    rw [pages] at mem
    left
    rcases List.mem_cons.mp mem with rfl | mem
    · decide
    · obtain rfl := List.mem_singleton.mp mem
      decide
  have page : KernelPage desktopLayout (alignDown 0x100000) := .image (by decide)
  exact ⟨_, _, reach, List.mem_cons_self, (kernel_resident shared reach List.mem_cons_self page).2⟩

end TinyOS.Memory
