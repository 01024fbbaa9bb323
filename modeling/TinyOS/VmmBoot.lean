import TinyOS.Kmalloc
import TinyOS.VmmSpaces

set_option autoImplicit false

/-! The address space of the kernel from boot on (kernel.c, memory/vmm.c). -/
namespace TinyOS.Memory
open RadixTables

variable {α β : Type} {r : ℕ} {place place' : Places} {k k' : Kernel} {va pa flags : Word}

/-- The tables of the kernel map the first 4 GB to themselves, writable. -/
structure Spaces (place : Places) (k : Kernel) : Prop where
  sound : Sound place k
  writable : UpperWritable place k
  root : place k.kernelPml4 = some []
  cr3 : k.kernelCr3 = pageAddress k.kernelPml4
  identity : ∀ ⦃p⦄, p < 1048576 → walk child k.memory k.kernelPml4 (pagePath p) = some p ∧
    grants child (has pageWritable) k.memory k.kernelPml4 (pagePath p) = true

theorem Step.kernelPml4 (h : Step r place k place' k') : k'.kernelPml4 = k.kernelPml4 := by
  rw [h.statics]

theorem Step.kernelCr3 (h : Step r place k place' k') : k'.kernelCr3 = k.kernelCr3 := by
  rw [h.statics]

theorem Spaces.step (h : Spaces place k) (step : Step r place k place' k') :
    Spaces place' k' where
  sound := step.sound
  writable := step.writable h.writable
  root := by
    rw [step.kernelPml4]
    exact step.keep h.root
  cr3 := by
    rw [step.kernelPml4, step.kernelCr3]
    exact h.cr3
  identity := by
    intro p lt
    rw [step.kernelPml4]
    obtain ⟨hw, hg⟩ := h.identity lt
    exact ⟨step.walk_keep h.sound h.root (by simp [pagePath]) hw,
      step.grants_keep h.sound h.root (by simp [pagePath]) hg⟩

def NoUser (place : Places) (k : Kernel) : Prop :=
  ∀ ⦃p l⦄ i, place p = some l → has pageUser (k.memory p i) = false

theorem NoUser.step (h : NoUser place k) (step : Step r place k place' k')
    (plain : Supervised k k') : NoUser place' k' := by
  intro p l i hp
  obtain ⟨used, pos, -⟩ := step.sound.used hp
  rw [Bool.eq_false_iff]
  intro hu
  obtain ⟨before, same⟩ := plain p i (by omega) hu
  cases placed : place p with
  | some l' =>
    rw [h i placed] at before
    cases before
  | none =>
    rw [used, step.unused placed hp] at same
    cases same

def Kernel.firstTable (k : Kernel) (page : ℕ) : Kernel :=
  { k.newTable page with kernelPml4 := page }

/-- The four mappings of `vmm_prepare_kernel_space` succeed. -/
structure FourMappings (b : Layout) (page : ℕ) (k k₁ k₂ k₃ k₄ : Kernel) : Prop where
  image : (mapIdentity page (alignDown b.kernelStart) (alignUp b.kernelEnd)).run
    (k.firstTable page) = (0, k₁)
  framebuffer : (mapFramebuffer b page).run k₁ = (0, k₂)
  vga : (mapPageIn page 0xB8000 0xB8000 pageWritable).run k₂ = (0, k₃)
  identity : (vmmIdentityMapPhysicalMemory page).run k₃ = (0, k₄)

theorem prepareKernelSpace_of {b : Layout} {page : ℕ} {k₁ k₂ k₃ k₄ : Kernel}
    (alloc : allocateTable.run k = (some page, k.newTable page))
    (h : FourMappings b page k k₁ k₂ k₃ k₄) :
    (vmmPrepareKernelSpace b).run k = (true, { k₄ with kernelCr3 := pageAddress page }) := by
  rw [vmmPrepareKernelSpace, run_bind, alloc]
  dsimp only
  rw [run_bind, show (modify fun k => { k with kernelPml4 := page } : KernelM Unit).run
    (k.newTable page) = ((), k.firstTable page) from rfl, run_bind, h.image]
  dsimp only
  rw [if_neg (not_not.mpr rfl), run_bind, h.framebuffer]
  dsimp only
  rw [if_neg (not_not.mpr rfl), run_bind, h.vga, run_bind, h.identity]
  rfl

theorem prepareKernelSpace_cases {b : Layout} {page : ℕ}
    (alloc : allocateTable.run k = (some page, k.newTable page))
    (returns : (vmmPrepareKernelSpace b).run k = (true, k')) : ∃ k₁ k₂ k₃ k₄,
      FourMappings b page k k₁ k₂ k₃ k₄ ∧ k' = { k₄ with kernelCr3 := pageAddress page } := by
  rw [vmmPrepareKernelSpace, run_bind, alloc] at returns
  dsimp only at returns
  rw [run_bind, show (modify fun k => { k with kernelPml4 := page } : KernelM Unit).run
    (k.newTable page) = ((), k.firstTable page) from rfl, run_bind] at returns
  rcases image : (mapIdentity page (alignDown b.kernelStart) (alignUp b.kernelEnd)).run
    (k.firstTable page) with ⟨result, k₁⟩
  rw [image] at returns
  dsimp only at returns
  by_cases h₁ : result = 0
  swap
  · rw [if_pos h₁] at returns
    cases returns
  rw [if_neg (not_not.mpr h₁), run_bind] at returns
  rcases framebuffer : (mapFramebuffer b page).run k₁ with ⟨result₂, k₂⟩
  rw [framebuffer] at returns
  dsimp only at returns
  by_cases h₂ : result₂ = 0
  swap
  · rw [if_pos h₂] at returns
    cases returns
  rw [if_neg (not_not.mpr h₂), run_bind] at returns
  rcases vga : (mapPageIn page 0xB8000 0xB8000 pageWritable).run k₂ with ⟨result₃, k₃⟩
  rw [vga, run_bind] at returns
  rcases identity : (vmmIdentityMapPhysicalMemory page).run k₃ with ⟨result₄, k₄⟩
  rw [identity] at returns
  dsimp only at returns
  by_cases h₄ : result₄ = 0
  swap
  · rw [if_pos h₄] at returns
    cases returns
  by_cases h₃ : result₃ = 0
  swap
  · rw [if_neg (not_not.mpr h₄), if_pos h₃] at returns
    cases returns
  rw [if_neg (not_not.mpr h₄), if_neg (not_not.mpr h₃)] at returns
  subst h₁ h₂ h₃ h₄
  cases returns
  exact ⟨k₁, k₂, k₃, k₄, ⟨image, framebuffer, vga, identity⟩, rfl⟩

/-- What `vmm_prepare_kernel_space` leaves when it returns. -/
structure Prepared (place : Places) (k : Kernel) : Prop where
  spaces : Spaces place k
  fit : FirstFit place k
  plain : NoUser place k

theorem FirstFit.first {page : ℕ} (lowest : ∀ q, q < page → k.pmm.used q = true) :
    FirstFit (Function.update (fun _ => none) page (some [])) (k.newTable page) := by
  have update_used (q : ℕ) : (k.newTable page).pmm.used q = (decide (q = page) || k.pmm.used q) :=
    take_used _ _ _
  have none : FirstFit (fun _ => none) k := by
    intro p l q hp
    cases hp
  exact taken_fit update_used lowest none

theorem firstTable_empty {page p : ℕ} {l : List (Fin 512)} (i : Fin 512)
    (hp : Function.update (fun _ => none : Places) page (some []) p = some l) :
    (k.firstTable page).memory p i = 0 := by
  have eq : p = page := by
    by_contra ne
    rw [Function.update_of_ne ne] at hp
    cases hp
  rw [eq]
  simp only [Kernel.firstTable, Kernel.newTable, Function.update_self]

theorem firstTable_upper {page : ℕ} :
    UpperWritable (Function.update (fun _ => none) page (some [])) (k.firstTable page) := by
  intro p l i c hp _ hc
  rw [firstTable_empty i hp] at hc
  cases child_zero.symm.trans hc

theorem firstTable_sound {page : ℕ} (h0 : k.pmm.used 0 = true) (pos : 0 < page)
    (lt : page < maxPages) :
    Sound (Function.update (fun _ => none) page (some [])) (k.firstTable page) := by
  have first := Sound.first (k := k) h0 pos lt
  exact ⟨first.placed, first.closed, first.small, first.used, first.page0⟩

section Mappings

variable {b : Layout} {page : ℕ} {k₁ k₂ k₃ k₄ : Kernel}

structure FourSteps (page : ℕ) (place₀ : Places) (k₀ : Kernel) (place₁ : Places) (k₁ : Kernel)
    (place₂ : Places) (k₂ : Kernel) (place₃ : Places) (k₃ : Kernel) (place₄ : Places)
    (k₄ : Kernel) : Prop where
  image : Step page place₀ k₀ place₁ k₁
  framebuffer : Step page place₁ k₁ place₂ k₂
  vga : Step page place₂ k₂ place₃ k₃
  identity : Step page place₃ k₃ place₄ k₄

theorem FourMappings.steps (runs : FourMappings b page k k₁ k₂ k₃ k₄)
    (h0 : k.pmm.used 0 = true) (pos : 0 < page) (lt : page < maxPages) :
    ∃ place₁ place₂ place₃ place₄, FourSteps page (Function.update (fun _ => none) page (some []))
      (k.firstTable page) place₁ k₁ place₂ k₂ place₃ k₃ place₄ k₄ := by
  have sound := @firstTable_sound k page h0 pos lt
  have root : Function.update (fun _ => none : Places) page (some []) page = some [] :=
    Function.update_self _ _ _
  obtain ⟨place₁, step₁⟩ := mapIdentity_maps page (alignDown b.kernelStart) (alignUp b.kernelEnd)
    sound root
  rw [runs.image] at step₁
  have root₁ := step₁.keep root
  obtain ⟨place₂, step₂⟩ := mapFramebuffer_maps b page step₁.sound root₁
  rw [runs.framebuffer] at step₂
  have root₂ := step₂.keep root₁
  obtain ⟨place₃, step₃⟩ := mapPageIn_maps page 0xB8000 0xB8000 pageWritable step₂.sound root₂
  rw [runs.vga] at step₃
  obtain ⟨place₄, step₄⟩ := mapIdentity_maps page 0 maxPhysicalMemory step₃.sound
    (step₃.keep root₂)
  have identity := runs.identity
  rw [vmmIdentityMapPhysicalMemory] at identity
  rw [identity] at step₄
  exact ⟨place₁, place₂, place₃, place₄, step₁, step₂, step₃, step₄⟩

theorem FourMappings.plain (runs : FourMappings b page k k₁ k₂ k₃ k₄) :
    Supervised (k.firstTable page) k₄ := by
  have plain₁ := mapIdentity_plain page (alignDown b.kernelStart) (alignUp b.kernelEnd)
    (k.firstTable page)
  rw [runs.image] at plain₁
  have plain₂ := mapFramebuffer_plain b page k₁
  rw [runs.framebuffer] at plain₂
  have supervisor : has pageUser pageWritable = false := by decide
  have plain₃ := mapPageIn_plain page 0xB8000 0xB8000 supervisor k₂
  rw [runs.vga] at plain₃
  have plain₄ := mapIdentity_plain page 0 maxPhysicalMemory k₃
  have identity := runs.identity
  rw [vmmIdentityMapPhysicalMemory] at identity
  rw [identity] at plain₄
  exact plain₁.trans (plain₂.trans (plain₃.trans plain₄))

end Mappings

theorem prepareKernelSpace_spec (b : Layout) (h0 : k.pmm.used 0 = true)
    (returns : (vmmPrepareKernelSpace b).run k = (true, k')) :
    ∃ place, Prepared place k' ∧ (∀ {p}, k.pmm.used p = true → k'.pmm.used p = true) ∧
      (∀ {p l}, place p = some l → k.pmm.used p = false) ∧
      ∀ {p}, k'.pmm.used p = true → k.pmm.used p = true ∨ ∃ l, place p = some l := by
  rcases allocateTable_cases h0 with alloc | ⟨page, pos, lt, unused, lowest, alloc⟩
  · rw [vmmPrepareKernelSpace, run_bind, alloc] at returns
    cases returns
  obtain ⟨k₁, k₂, k₃, k₄, runs, rfl⟩ := prepareKernelSpace_cases alloc returns
  obtain ⟨place₁, place₂, place₃, place₄, step₁, step₂, step₃, step₄⟩ := runs.steps h0 pos lt
  have upper := @firstTable_upper k page
  have root : Function.update (fun _ => none : Places) page (some []) page = some [] :=
    Function.update_self _ _ _
  have plain : NoUser (Function.update (fun _ => none) page (some [])) (k.firstTable page) := by
    intro p l i hp
    rw [firstTable_empty i hp]
    decide
  have to₃ := (step₁.trans step₂).trans step₃
  have to₄ := to₃.trans step₄
  have identity := runs.identity
  rw [vmmIdentityMapPhysicalMemory] at identity
  have mapped := mapIdentity_mapped to₃.sound (to₃.keep root) (to₃.writable upper) identity
  have static : k₄.kernelPml4 = page := to₄.kernelPml4
  have taken {p : ℕ} : (k.firstTable page).pmm.used p = (decide (p = page) || k.pmm.used p) :=
    take_used _ _ _
  refine ⟨place₄, ⟨⟨?_, ?_, ?_, ?_, ?_⟩, ?_, ?_⟩, ?_, ?_, ?_⟩
  · have sound₄ := to₄.sound
    exact ⟨sound₄.placed, sound₄.closed, sound₄.small, sound₄.used, sound₄.page0⟩
  · exact to₄.writable upper
  · rw [static]
    exact to₄.keep root
  · rw [static]
  · intro p lt'
    have mem : pageAddress p ∈ pageRange 0 maxPhysicalMemory := by
      rw [show (0 : Word) = pageAddress 0 by decide,
        show maxPhysicalMemory = pageAddress 1048576 by decide]
      exact (mem_pageRange (by decide) (by decide)).mpr ⟨p, Nat.zero_le p, lt', rfl⟩
    have here := mapped _ mem
    rw [path_eq, pageOf_pageAddress (by omega), physicalToTable_pageAddress (by omega)] at here
    rw [static]
    exact here
  · exact to₄.fit (FirstFit.first lowest)
  · have none := plain.step to₄ runs.plain
    exact fun p l i hp => none i hp
  · intro p hu
    refine to₄.used_keep ?_
    rw [taken, hu, Bool.or_true]
  · intro p l hp
    by_cases eq : p = page
    · rw [eq, unused]
    · have none : Function.update (fun _ => none : Places) page (some []) p = none :=
        Function.update_of_ne eq _ _
      have free := to₄.unused none hp
      rw [taken, Bool.or_eq_false_iff] at free
      exact free.2
  · intro p hu
    by_cases eq : p = page
    · exact .inr ⟨[], by rw [eq]; exact to₄.keep root⟩
    · cases before : k.pmm.used p with
      | true => exact .inl rfl
      | false =>
        refine .inr (to₄.taken ?_ hu)
        rw [taken, before, decide_eq_false eq, Bool.or_false]

end TinyOS.Memory
