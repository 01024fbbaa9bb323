import TinyOS.VmmIsolation
import TinyOS.VmmRanges

set_option autoImplicit false

namespace TinyOS.Memory
open RadixTables LeafTrees

variable {r page p : ℕ} {place place' : Places} {k k' : Kernel} {b : Layout} {S T : Set ℕ}

def Layout.FbPage (b : Layout) (p : ℕ) : Prop :=
  b.fbAddress ≠ 0 ∧ ∃ i, i < b.fbSize.toNat ∧ p = pageOf (b.fbAddress + BitVec.ofNat 64 i)

/-- The pages of the set are mapped to themselves, and no other page is mapped. -/
structure IdentityOn (r : ℕ) (S : Set ℕ) (place : Places) (k : Kernel) : Prop where
  tree : PageTree place k
  root : place r = some []
  mapped : ∀ p, p < 2^36 → p ∈ S →
    lookup entrySlot k.memory 0 r (pagePath p) = some ⟨false, pageAddress p⟩
  others : ∀ p, p < 2^36 → p ∉ S → lookup entrySlot k.memory 0 r (pagePath p) = none

theorem IdentityOn.add {l : List ℕ} (h : IdentityOn r S place k) (small : ∀ p ∈ l, p < 2^36)
    (maps : PagesMapped r (l.map fun p => (pageAddress p, pageAddress p)) place k place' k') :
    IdentityOn r (S ∪ {p | p ∈ l}) place' k' := by
  have apart {p : ℕ} (lt : p < 2^36) (off : p ∉ l) :
      ∀ x ∈ l.map fun p => (pageAddress p, pageAddress p), pagePath p ≠ path x.1 := by
    intro x mem eq
    obtain ⟨q, hq, rfl⟩ := List.mem_map.mp mem
    have ltq := small q hq
    dsimp only at eq
    rw [path_eq, pageOf_pageAddress (by omega)] at eq
    rw [pagePath_inj lt ltq eq] at off
    exact off hq
  constructor
  · exact maps.tree
  · exact maps.keep h.root

  · intro p lt mem
    by_cases here : p ∈ l
    · have leaf := maps.mapped _ (List.mem_map_of_mem here)
      rwa [path_eq, pageOf_pageAddress (by omega), pageAddress_and_mask (by omega)] at leaf
    · rw [maps.same h.root rfl (apart lt here)]
      exact h.mapped p lt (mem.resolve_right here)
  · intro p lt off
    rw [maps.same h.root rfl (apart lt fun mem => off (.inr mem))]
    exact h.others p lt fun mem => off (.inl mem)

theorem mapPages_identity {l : List ℕ} (h : IdentityOn r S place k) (small : ∀ p ∈ l, p < 2^36)
    (run : (firstError (fun a => mapPageIn r a a pageWritable) (l.map pageAddress)).run k =
      (0, k')) :
    (∃ place', IdentityOn r (S ∪ {p | p ∈ l}) place' k') ∧
      k' = { k with memory := k'.memory, pmm := k'.pmm } := by
  have pairs : firstError (fun a => mapPageIn r a a pageWritable) (l.map pageAddress) =
      firstError (fun x : Word × Word => mapPageIn r x.1 x.2 pageWritable)
        (l.map fun p => (pageAddress p, pageAddress p)) := by
    rw [← firstError_map, ← firstError_map]
  rw [pairs] at run
  have same : ∀ x ∈ l.map fun p => (pageAddress p, pageAddress p),
      ∀ y ∈ l.map fun p => (pageAddress p, pageAddress p),
        path x.1 = path y.1 → x.2 &&& pageMask = y.2 &&& pageMask := by
    intro x hx y hy eq
    obtain ⟨p, hp, rfl⟩ := List.mem_map.mp hx
    obtain ⟨q, hq, rfl⟩ := List.mem_map.mp hy
    have ltp := small p hp
    have ltq := small q hq
    dsimp only at eq ⊢
    rw [path_eq, path_eq, pageOf_pageAddress (by omega), pageOf_pageAddress (by omega)] at eq
    rw [pagePath_inj ltp ltq eq]
  obtain ⟨place', maps⟩ := mapPages_maps h.tree h.root (by decide) same run
  exact ⟨⟨place', h.add small maps⟩, maps.statics⟩

theorem IdentityOn.congr (h : IdentityOn r S place k) (same : ∀ p, p ∈ S ↔ p ∈ T) :
    IdentityOn r T place k where
  tree := h.tree
  root := h.root
  mapped p lt mem := h.mapped p lt ((same p).mpr mem)
  others p lt off := h.others p lt fun mem => off ((same p).mp mem)

/-- The loops of `vmm_prepare_kernel_space` run over whole pages. -/
theorem mapIdentity_identity {start stop : Word} {a c : ℕ} (h : IdentityOn r S place k)
    (first : start = pageAddress a) (last : stop = pageAddress c) (ha : a < 2^52) (hc : c ≤ 2^36)
    (run : (mapIdentity r start stop).run k = (0, k')) :
    (∃ place', IdentityOn r (S ∪ {p | a ≤ p ∧ p < c}) place' k') ∧
      k' = { k with memory := k'.memory, pmm := k'.pmm } := by
  rw [mapIdentity, first, last, pageRange_eq ha (by omega)] at run
  have small : ∀ p ∈ List.range' a (c-a), p < 2^36 := by
    intro p mem
    rw [List.mem_range'_1] at mem
    omega
  obtain ⟨⟨place', next⟩, statics⟩ := mapPages_identity h small run
  refine ⟨⟨place', next.congr fun p => ?_⟩, statics⟩
  simp only [Set.mem_union, Set.mem_ofPred_eq, List.mem_range'_1]
  refine or_congr_right ⟨?_, ?_⟩ <;> omega

theorem mapFramebuffer_identity (h : IdentityOn r S place k)
    (fits : b.fbAddress.toNat+b.fbSize.toNat ≤ 2^47)
    (run : (mapFramebuffer b r).run k = (0, k')) :
    (∃ place', IdentityOn r (S ∪ {p | b.FbPage p}) place' k') ∧
      k' = { k with memory := k'.memory, pmm := k'.pmm } := by
  rw [mapFramebuffer] at run
  split_ifs at run with here
  · have sum : (b.fbAddress + b.fbSize).toNat = b.fbAddress.toNat+b.fbSize.toNat := by
      rw [BitVec.toNat_add, Nat.mod_eq_of_lt (by omega)]
    have pos : 0 < b.fbSize.toNat := count_pos here.2
    obtain ⟨⟨place', next⟩, statics⟩ := mapIdentity_identity h (alignDown_eq _)
      (alignUp_eq (by omega)) (by omega) (by omega) run
    refine ⟨⟨place', next.congr fun p => or_congr_right ?_⟩, statics⟩
    simp only [Set.mem_ofPred_eq, Layout.FbPage, sum]
    constructor
    · rintro ⟨low, high⟩
      refine ⟨here.1, p*4096-b.fbAddress.toNat, by omega, ?_⟩
      rw [pageOf, toNat_add_ofNat (by omega)]
      omega
    · rintro ⟨-, i, lt, rfl⟩
      rw [pageOf, toNat_add_ofNat (by omega)]
      omega
  · obtain rfl : k = k' := congrArg Prod.snd run
    refine ⟨⟨place, h.congr fun p => ⟨.inl, fun mem => mem.resolve_right ?_⟩⟩, rfl⟩
    rintro ⟨address, i, lt, -⟩
    refine here ⟨address, ?_⟩
    rintro zero
    rw [zero] at lt
    exact absurd lt (Nat.not_lt_zero i)

theorem IdentityOn.first :
    IdentityOn page ∅ (Function.update (fun _ => none) page (some [])) (k.firstTable page) := by
  have only {p : ℕ} {l : List (Fin 512)}
      (hp : Function.update (fun _ => none : Places) page (some []) p = some l) : p = page := by
    by_contra ne
    rw [Function.update_of_ne ne] at hp
    cases hp
  have empty (i : Fin 512) : (k.firstTable page).memory page i = 0 := by
    simp only [Kernel.firstTable, Kernel.newTable, Function.update_self]
  constructor
  · constructor
    · intro p l i c hp link
      rw [only hp, empty i] at link
      cases link
    · intro p l hp _
      rw [only hp]
      exact (take_used _ _ _).trans (by rw [decide_eq_true rfl, Bool.true_or])
  · exact Function.update_self _ _ _
  · exact fun p _ mem => absurd mem (Set.notMem_empty p)
  · exact fun p _ _ => lookup_absent (entrySlot_absent.mpr (by rw [empty]; exact child_zero))

/-- The pages that are mapped, and no entry of the PML4 is open to the user. -/
theorem prepareKernelSpace_identityOn (image : b.kernelEnd.toNat ≤ 2^32)
    (fits : b.fbAddress.toNat+b.fbSize.toNat ≤ 2^47)
    (returns : (vmmPrepareKernelSpace b).run k = (true, k')) :
    (∃ place, IdentityOn k'.kernelPml4 {p | p < 2^20 ∨ b.FbPage p} place k') ∧
      ∀ i, has pageUser (k'.memory k'.kernelPml4 i) = false := by
  rcases allocateTable_outcome k with ⟨k₀, none, -⟩ | ⟨page, pos, within, -, alloc⟩
  · rw [vmmPrepareKernelSpace, run_bind, none] at returns
    cases returns
  obtain ⟨k₁, k₂, k₃, k₄, runs, rfl⟩ := prepareKernelSpace_cases alloc returns
  obtain ⟨⟨place₁, on₁⟩, static₁⟩ := mapIdentity_identity (IdentityOn.first)
    (alignDown_eq b.kernelStart) (alignUp_eq (x := b.kernelEnd) (by omega)) (by omega) (by omega)
    runs.image
  obtain ⟨⟨place₂, on₂⟩, static₂⟩ := mapFramebuffer_identity on₁ fits runs.framebuffer
  obtain ⟨place₃, maps⟩ := mapPageIn_maps_page on₂.tree on₂.root (by decide) runs.vga
  have static₃ := maps.statics
  rw [show ((0xB8000 : Word), (0xB8000 : Word)) = (pageAddress 0xB8, pageAddress 0xB8) by decide]
    at maps
  have on₃ := on₂.add (l := [0xB8]) (by decide) maps
  obtain ⟨⟨place₄, on₄⟩, static₄⟩ := mapIdentity_identity on₃
    (show (0 : Word) = pageAddress 0 by decide)
    (show maxPhysicalMemory = pageAddress 1048576 by decide) (by decide) (by decide) runs.identity
  have root : k₄.kernelPml4 = page := by
    rw [static₄, static₃, static₂, static₁]
    rfl
  rw [root]
  constructor
  · have on : IdentityOn page {p | p < 2^20 ∨ b.FbPage p} place₄ k₄ := by
      refine on₄.congr fun p => ?_
      simp only [Set.mem_union, Set.mem_ofPred_eq, Set.mem_empty_iff_false, false_or,
        List.mem_singleton]
      constructor
      · rintro (((low | fb) | rfl) | low)
        · exact .inl (by omega)
        · exact .inr fb
        · exact .inl (by decide)
        · exact .inl (by omega)
      · rintro (low | fb)
        · exact .inr (by omega)
        · exact .inl (.inl (.inr fb))
    exact ⟨place₄, ⟨⟨on.tree.stands, on.tree.used⟩, on.root, on.mapped, on.others⟩⟩
  · intro i
    rw [Bool.eq_false_iff]
    intro granted
    have before := (runs.plain page i (by omega) granted).1
    rw [show (k.firstTable page).memory page i = 0 by
      simp only [Kernel.firstTable, Kernel.newTable, Function.update_self]] at before
    cases before

/-- Every address below 4 GB and in the pages of the framebuffer translates to itself, none of
them for the user, and the rest of the address space has no leaf. -/
theorem prepareKernelSpace_maps (b : Layout) (k k' : Kernel) (image : b.kernelEnd.toNat ≤ 2^32)
    (fits : b.fbAddress.toNat+b.fbSize.toNat ≤ 2^47)
    (returns : (vmmPrepareKernelSpace b).run k = (true, k')) :
    (∀ a : Word, a.toNat < 2^32 ∨ b.FbPage (pageOf a) →
      getPhysicalFrom k'.memory k'.kernelPml4 a = a ∧
        k'.allows pageUser k'.kernelPml4 a = false) ∧
    ∀ a : Word, a.toNat < 2^48 → ¬(a.toNat < 2^32 ∨ b.FbPage (pageOf a)) →
      lookup entrySlot k'.memory 0 k'.kernelPml4 (path a) = none ∧
        getPhysicalFrom k'.memory k'.kernelPml4 a = 0 := by
  obtain ⟨⟨place, on⟩, plain⟩ := prepareKernelSpace_identityOn image fits returns
  have low (a : Word) : a.toNat < 2^32 ↔ pageOf a < 2^20 := by
    rw [pageOf]
    omega
  constructor
  · intro a here
    rw [low] at here
    have small : pageOf a < 2^36 := by
      rcases here with low | ⟨-, i, lt, eq⟩
      · omega
      · rw [eq, pageOf, toNat_add_ofNat (by omega)]
        omega
    have leaf := on.mapped (pageOf a) small here
    constructor
    · rw [getPhysicalFrom_lookup, path_eq, leaf]
      change pageAddress (pageOf a) + (a &&& 0xFFF) = a
      apply BitVec.eq_of_toNat_eq
      rw [BitVec.toNat_add, pageAddress_toNat (by omega),
        show (0xFFF : Word) = pageSize - 1 by decide, low_bits, pageOf]
      have lt := a.isLt
      omega
    · rw [Kernel.allows, path, grants]
      cases child (k'.memory k'.kernelPml4 (pml4Index a)) with
      | none => rfl
      | some c =>
        dsimp only
        rw [plain, Bool.false_and]
  · intro a within off
    rw [low] at off
    have none := on.others (pageOf a) (by rw [pageOf]; omega) off
    rw [← path_eq] at none
    refine ⟨none, ?_⟩
    rw [getPhysicalFrom_lookup, none]
    rfl

theorem prepareKernelSpace_maps_desktop : ∃ k : Kernel,
    getPhysicalFrom k.memory k.kernelPml4 0xFD000123 = 0xFD000123 := by
  obtain ⟨pmm, -, room⟩ := desktopInit
  have low : desktopLayout.Low := ⟨by decide, by decide⟩
  obtain ⟨k, run, -⟩ := low.prepared (k := ⟨fun _ _ => 0, pmm, 0, 0, 0, 0, 0, 0, 0⟩) room
    (by decide)
  have maps := prepareKernelSpace_maps desktopLayout _ k (by decide) (by decide) run
  exact ⟨k, (maps.1 0xFD000123 (.inl (by decide))).1⟩

end TinyOS.Memory
