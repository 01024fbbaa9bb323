import TinyOS.KernelBoot

set_option autoImplicit false

namespace TinyOS.Memory
open RadixTables

variable {place : Places} {k k' : Kernel} {b : Layout} {t : ℕ}

def tablePath (n : ℕ) : List (Fin 512) :=
  [⟨n*512/2^27%512, Nat.mod_lt _ (by decide)⟩, ⟨n*512/2^18%512, Nat.mod_lt _ (by decide)⟩,
    ⟨n*512/2^9%512, Nat.mod_lt _ (by decide)⟩]

theorem pagePath_table (n : ℕ) :
    pagePath (n*512) = tablePath n ++ [⟨n*512%512, Nat.mod_lt _ (by decide)⟩] := rfl

theorem tablePath_inj {n m : ℕ} (hn : n < 2048) (hm : m < 2048) (h : tablePath n = tablePath m) :
    n = m := by
  simp only [tablePath, List.cons.injEq, Fin.mk.injEq, and_true] at h
  omega

theorem Spaces.pageTable (h : Spaces place k) {n : ℕ} (lt : n < 2048) :
    ∃ t, place t = some (tablePath n) := by
  have mapped := (h.identity (show n*512 < 1048576 by omega)).1
  rw [pagePath_table, walk_append] at mapped
  obtain ⟨t, walks, -⟩ := Option.bind_eq_some_iff.mp mapped
  exact ⟨t, h.sound.placed.place_walk h.root le_rfl walks⟩

theorem Spaces.high_table (h : Spaces place k) :
    ∃ t l, 2047 ≤ t ∧ place t = some l := by
  choose f placed using fun n : Fin 2048 => h.pageTable n.isLt
  by_contra none
  have low (n : Fin 2048) : f n < 2047 := by
    by_contra le
    exact none ⟨f n, _, Nat.le_of_not_lt le, placed n⟩
  have distinct : Function.Injective fun n : Fin 2048 => (⟨f n, low n⟩ : Fin 2047) := by
    intro n m eq
    have same : f n = f m := congrArg Fin.val eq
    have paths := (placed n).symm.trans ((congrArg place same).trans (placed m))
    exact Fin.ext (tablePath_inj n.isLt m.isLt (Option.some.inj paths))
  have count := Fintype.card_le_of_injective _ distinct
  rw [Fintype.card_fin, Fintype.card_fin] at count
  omega

theorem kmalloc_takes (size : Word) (h0 : k.pmm.used 0 = true) {p : ℕ}
    (used : k.pmm.used p = true) : ((kmalloc size).run k).2.pmm.used p = true := by
  rcases kmalloc_found size h0 with none | ⟨start, k', found⟩
  · rwa [none]
  · rw [found.run]
    simp only [found.pmm, Pmm.takeRun, used, Bool.or_true]

theorem fbEnableBackbuffer_takes (width height : BitVec 32) (h0 : k.pmm.used 0 = true) {p : ℕ}
    (used : k.pmm.used p = true) :
    ((fbEnableBackbuffer width height).run k).2.pmm.used p = true := by
  rw [fbEnableBackbuffer]
  generalize (width.setWidth 64 * height.setWidth 64 : Word) = pixels
  by_cases zero : pixels = 0 ∨ pixels*4 = 0
  · rw [if_pos zero]
    exact used
  rw [if_neg zero, run_bind, run_bind]
  have first := kmalloc_takes (pixels*4) h0 used
  have second := kmalloc_takes (pixels*4) (kmalloc_takes (pixels*4) h0 h0) first
  by_cases fails : ((kmalloc (pixels*4)).run k).1 = 0 ∨
      ((kmalloc (pixels*4)).run ((kmalloc (pixels*4)).run k).2).1 = 0
  · rw [if_pos fails]
    exact second
  · rw [if_neg fails, run_bind]
    have stores {draw display : Word} {l : List ℕ} :
        Stores Set.univ (clearPixels draw display l) :=
      clearPixels_stores fun _ _ _ _ => ⟨trivial, trivial⟩
    obtain ⟨memory, run, -⟩ := stores ((kmalloc (pixels*4)).run ((kmalloc (pixels*4)).run k).2).2
    change ((clearPixels _ _ _).run _).2.pmm.used p = true
    rw [run]
    exact second

theorem FirstFit.takes (h : FirstFit place k)
    (takes : ∀ {p}, k.pmm.used p = true → k'.pmm.used p = true) : FirstFit place k' := by
  intro p l q placed free
  refine h placed (Bool.eq_false_iff.mpr fun used => ?_)
  rw [takes used] at free
  cases free

/-- After boot the tables lie below every page that is free. -/
theorem Booted.firstFit (h : Booted b k) :
    ∃ place, Spaces place k ∧ k.InKernelSpace ∧ FirstFit place k := by
  obtain ⟨fuel, m, info, k₀, width, height, small, init, run⟩ := h
  have h0 : k₀.pmm.used 0 = true := (Initialised.low ⟨fuel, b, m, info, init⟩ (by decide))
  obtain ⟨buffers, k₁, k₂, k₃, calls, rfl⟩ := boot_cases run
  obtain ⟨place₁, prepared, -⟩ := prepareKernelSpace_spec b (k := (kmallocInit.run k₀).2) h0
    calls.prepared
  have page0 := prepared.spaces.sound.page0
  have apart := fbEnableBackbuffer_apart prepared.spaces.sound small
  have fit := prepared.fit.takes (fbEnableBackbuffer_takes width height page0)
  rw [calls.enabled] at apart fit
  have spaces₂ := prepared.spaces.apart apart
  obtain ⟨⟨place₃, step⟩, -⟩ := mapKernelMemory_step b buffers.1 buffers.2
    (width.setWidth 64 * height.setWidth 64 * 4) spaces₂.sound spaces₂.root
  rw [calls.mapped] at step
  have spaces := spaces₂.step step
  have sound := spaces.sound
  exact ⟨place₃, ⟨⟨sound.placed, sound.closed, sound.small, sound.used, sound.page0⟩,
    spaces.writable, spaces.root, spaces.cr3, spaces.identity⟩, ⟨rfl, rfl⟩, step.fit fit⟩

def BootedFrom (b : Layout) (k₁ k : Kernel) : Prop := ∃ fuel m info k₀ width height,
  width.toNat*height.toNat*4 < 2^63 ∧ pmmInit fuel b m info = some k₀.pmm ∧
    (vmmPrepareKernelSpace b).run (kmallocInit.run k₀).2 = (true, k₁) ∧
    (boot b width height).run k₀ = (true, k)

/-- The kernel with its tables built in `k₁`: right after `vmm_prepare_kernel_space`, or after
the whole boot. -/
def TablesBuilt (b : Layout) (k₁ k : Kernel) : Prop :=
  BootedFrom b k₁ k ∨ k₁ = k ∧ ∃ k₀, k₀.pmm.used 0 = true ∧
    (vmmPrepareKernelSpace b).run k₀ = (true, k)

variable {k₁ : Kernel}

theorem Booted.from (h : Booted b k) : ∃ k₁, TablesBuilt b k₁ k := by
  obtain ⟨fuel, m, info, k₀, width, height, small, init, run⟩ := h
  obtain ⟨buffers, k₁, k₂, k₃, calls, -⟩ := boot_cases run
  exact ⟨k₁, .inl ⟨fuel, m, info, k₀, width, height, small, init, calls.prepared, run⟩⟩

theorem BootedFrom.booted (h : BootedFrom b k₁ k) : Booted b k := by
  obtain ⟨fuel, m, info, k₀, width, height, small, init, -, run⟩ := h
  exact ⟨fuel, m, info, k₀, width, height, small, init, run⟩

section
variable (h : TablesBuilt b k₁ k)
include h

theorem TablesBuilt.prepared : ∃ place, Prepared place k₁ := by
  obtain ⟨fuel, m, info, k₀, width, height, small, init, run, -⟩ | ⟨rfl, k₀, h0, run⟩ := h
  · have h0 : k₀.pmm.used 0 = true := (Initialised.low ⟨fuel, b, m, info, init⟩ (by decide))
    obtain ⟨place, prepared, -⟩ := prepareKernelSpace_spec b (k := (kmallocInit.run k₀).2) h0 run
    exact ⟨place, prepared⟩
  · obtain ⟨place, prepared, -⟩ := prepareKernelSpace_spec b h0 run
    exact ⟨place, prepared⟩

theorem TablesBuilt.tables : ∃ place, Spaces place k ∧ NoUser place k := by
  obtain booted | ⟨rfl, -⟩ := id h
  · obtain ⟨place, spaces, plain, -⟩ := booted.booted.spaces
    exact ⟨place, spaces, plain⟩
  · obtain ⟨place, prepared⟩ := h.prepared
    exact ⟨place, prepared.spaces, prepared.plain⟩

theorem TablesBuilt.used {p : ℕ} (used : k₁.pmm.used p = true) : k.pmm.used p = true := by
  obtain ⟨place, prepared⟩ := h.prepared
  obtain ⟨fuel, m, info, k₀, width, height, small, init, run, boots⟩ | ⟨rfl, -⟩ := h
  swap
  · exact used
  obtain ⟨buffers, k₁', k₂, k₃, calls, rfl⟩ := boot_cases boots
  obtain rfl : k₁ = k₁' := congrArg Prod.snd (run.symm.trans calls.prepared)
  have page0 := prepared.spaces.sound.page0
  have enabled := fbEnableBackbuffer_takes width height page0 used
  have apart := fbEnableBackbuffer_apart prepared.spaces.sound small
  rw [calls.enabled] at enabled apart
  have spaces₂ := prepared.spaces.apart apart
  obtain ⟨⟨place₃, step⟩, -⟩ := mapKernelMemory_step b buffers.1 buffers.2
    (width.setWidth 64 * height.setWidth 64 * 4) spaces₂.sound spaces₂.root
  rw [calls.mapped] at step
  exact step.used_keep enabled

theorem TablesBuilt.free_high {p : ℕ} (free : k.pmm.used p = false) : 2048 ≤ p := by
  obtain ⟨place, prepared⟩ := h.prepared
  obtain ⟨t, l, high, placed⟩ := prepared.spaces.high_table
  have before : k₁.pmm.used p = false := by
    rw [Bool.eq_false_iff]
    intro used
    rw [h.used used] at free
    cases free
  have below := prepared.fit placed before
  omega

theorem TablesBuilt.window : ∃ p, 0x400 ≤ p ∧ p < 0x40000 ∧ k₁.pmm.used p = true := by
  obtain ⟨place, prepared⟩ := h.prepared
  obtain ⟨t, l, high, placed⟩ := prepared.spaces.high_table
  by_cases low : t < 0x40000
  · exact ⟨t, by omega, low, (prepared.spaces.sound.used placed).1⟩
  · refine ⟨0x400, le_rfl, by decide, ?_⟩
    by_contra free
    have below := prepared.fit placed (Bool.eq_false_iff.mpr free)
    omega

end

end TinyOS.Memory
