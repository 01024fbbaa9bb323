import TinyOS.VmmRefine

set_option autoImplicit false

namespace TinyOS.Memory
open RadixTables

variable {α β : Type} {r : ℕ} {place place' : Places} {k k' : Kernel} {va pa flags : Word}

def Maps (r : ℕ) (x : KernelM α) : Prop := ∀ ⦃place k⦄, Sound place k → place r = some [] →
  ∃ place', Step r place k place' (x.run k).2

theorem Maps.pure (a : α) : Maps r (pure a : KernelM α) :=
  fun place _ hs _ => ⟨place, Step.refl hs⟩

theorem Maps.bind {x : KernelM α} {f : α → KernelM β} (hx : Maps r x) (hf : ∀ a, Maps r (f a)) :
    Maps r (x >>= f) := by
  intro place k hs hr
  obtain ⟨place₁, first⟩ := hx hs hr
  obtain ⟨place₂, second⟩ := hf (x.run k).1 first.sound (first.keep hr)
  rw [run_bind]
  exact ⟨place₂, first.trans second⟩

theorem Maps.ite {p : Prop} [Decidable p] {x y : KernelM α} (hx : Maps r x) (hy : Maps r y) :
    Maps r (if p then x else y) := by
  split_ifs
  · exact hx
  · exact hy

theorem mapPageIn_maps (r : ℕ) (va pa flags : Word) : Maps r (mapPageIn r va pa flags) := by
  intro place k hs hr
  obtain ⟨result, place', k', run, step, -⟩ := mapPageIn_spec hs hr va pa flags
  rw [run]
  exact ⟨place', step⟩

theorem firstError_maps {body : α → KernelM ℤ} (h : ∀ a, Maps r (body a)) (l : List α) :
    Maps r (firstError body l) := by
  induction l with
  | nil => exact .pure 0
  | cons a rest ih => exact (h a).bind fun result => .ite (.pure result) ih

theorem mapIdentity_maps (r : ℕ) (start stop : Word) : Maps r (mapIdentity r start stop) :=
  firstError_maps (fun _ => mapPageIn_maps r _ _ _) _

theorem mapFramebuffer_maps (b : Layout) (r : ℕ) : Maps r (mapFramebuffer b r) :=
  .ite (mapIdentity_maps r _ _) (.pure 0)

theorem mapUserPage_maps {cr3 : Word} (hr : physicalToTable cr3 = r) (va pa flags : Word) :
    Maps r (vmmMapUserPage cr3 va pa flags) := by
  subst hr
  exact .ite (.pure (-1)) (.ite (.pure (-2)) (mapPageIn_maps _ _ _ _))

theorem mapPageIn_mapped (hs : Sound place k) (hr : place r = some [])
    (low : flags &&& pageMask = 0) (zero : ((mapPageIn r va pa flags).run k).1 = 0) :
    walk child ((mapPageIn r va pa flags).run k).2.memory r (path va) =
      some (physicalToTable pa) := by
  obtain ⟨result, place', k', run, step, -, outcome⟩ := mapPageIn_spec hs hr va pa flags
  rw [run] at zero ⊢
  cases zero
  cases outcome with
  | noPage code => simp at code
  | merged before => exact step.walk_keep hs hr (by simp [path]) before
  | filled before upper entry =>
    rw [show path va = upperPath va ++ [ptIndex va] from rfl, walk_append, upper, Option.bind_some,
      walk, entry, child_leafEntry pa low]
    rfl

theorem mapPageIn_leaf (hs : Sound place k) (hr : place r = some [])
    (zero : ((mapPageIn r va pa flags).run k).1 = 0) :
    ∃ t, walk child ((mapPageIn r va pa flags).run k).2.memory r (upperPath va) = some t ∧
      ∀ {mask}, (pageUser ||| pageWritable) &&& mask = mask → has mask flags = true →
        has mask (((mapPageIn r va pa flags).run k).2.memory t (ptIndex va)) = true := by
  obtain ⟨result, place', k', run, step, -, outcome⟩ := mapPageIn_spec hs hr va pa flags
  rw [run] at zero ⊢
  cases zero
  cases outcome with
  | noPage code => simp at code
  | @merged t before upper _ entry =>
    refine ⟨t, step.walk_keep hs hr (by simp [upperPath]) upper, fun {mask} sub hf => ?_⟩
    have kept : has mask (flags &&& (pageUser ||| pageWritable)) = true := by
      rwa [has, BitVec.and_assoc, sub, ← has]
    rw [entry, has_or, kept, Bool.or_true]
  | @filled t before upper entry =>
    refine ⟨t, upper, fun _ hf => ?_⟩
    rw [entry, leafEntry, has_or, has_or, hf, Bool.or_true, Bool.true_or]

/-- All entries of the address are writable after a call for a writable page. -/
theorem mapPageIn_writable (hs : Sound place k) (hr : place r = some [])
    (upper : UpperWritable place k) (low : flags &&& pageMask = 0)
    (hf : has pageWritable flags = true) (zero : ((mapPageIn r va pa flags).run k).1 = 0) :
    grants child (has pageWritable) ((mapPageIn r va pa flags).run k).2.memory r (path va) =
      true := by
  obtain ⟨t, hw, entry⟩ := mapPageIn_leaf hs hr zero
  have mapped := mapPageIn_mapped hs hr low zero
  obtain ⟨place', step⟩ := mapPageIn_maps r va pa flags hs hr
  have above := step.sound.placed.grants_upper (fun hp lt hc => step.writable upper hp lt hc)
    (step.keep hr) (by simp [upperPath]) hw
  rw [show path va = upperPath va ++ [ptIndex va] from rfl] at mapped ⊢
  rw [walk_append, hw, Option.bind_some, walk] at mapped
  obtain ⟨c, hc, -⟩ := Option.bind_eq_some_iff.mp mapped
  rw [grants_append, hw]
  simp only [above, grants, hc, entry (show (pageUser ||| pageWritable) &&& pageWritable =
    pageWritable by decide) hf, Bool.and_self]

/-- All entries of the address are open to the user after a call for a user page. -/
theorem mapPageIn_user (hs : Sound place k) (hr : place r = some [])
    (low : flags &&& pageMask = 0) (hf : has pageUser flags = true)
    (zero : ((mapPageIn r va pa flags).run k).1 = 0) :
    grants child (has pageUser) ((mapPageIn r va pa flags).run k).2.memory r (path va) = true := by
  obtain ⟨t, hw, entry⟩ := mapPageIn_leaf hs hr zero
  have mapped := mapPageIn_mapped hs hr low zero
  have root : has pageUser (((mapPageIn r va pa flags).run k).2.memory r (pml4Index va)) = true := by
    obtain ⟨result, place', k', run, step, -, outcome⟩ := mapPageIn_spec hs hr va pa flags
    rw [run] at zero ⊢
    cases zero
    cases outcome with
    | noPage code => simp at code
    | merged _ _ _ _ user => exact user hf
    | filled _ _ _ user _ => exact user hf
  obtain ⟨place', step⟩ := mapPageIn_maps r va pa flags hs hr
  rw [show path va = pml4Index va :: ([pdptIndex va, pdIndex va] ++ [ptIndex va]) from rfl]
    at mapped ⊢
  obtain ⟨pdpt, hd, mapped⟩ := Option.bind_eq_some_iff.mp mapped
  have below := step.sound.placed.below (step.keep hr) (by decide) hd
  rw [upperPath, walk, hd, Option.bind_some] at hw
  rw [walk_append, hw, Option.bind_some, walk] at mapped
  obtain ⟨c, hc, -⟩ := Option.bind_eq_some_iff.mp mapped
  have leaf := (step.sound.closed.grants_iff step.sound.placed below (by simp) (by simp) hw).mpr
    ⟨c, hc, entry (by decide) hf⟩
  rw [grants, hd]
  simp only [root, Bool.true_and]
  exact leaf

theorem firstError_zero {body : α → KernelM ℤ} {a : α} {l : List α}
    (zero : ((firstError body (a :: l)).run k).1 = 0) :
    ((body a).run k).1 = 0 ∧
      (firstError body (a :: l)).run k = (firstError body l).run ((body a).run k).2 := by
  rw [firstError, run_bind] at zero ⊢
  by_cases h : ((body a).run k).1 = 0
  · rw [if_neg (not_not.mpr h)]
    exact ⟨h, rfl⟩
  · rw [if_pos h] at zero
    exact absurd zero h

theorem firstError_mapped {l : List Word} (hs : Sound place k) (hr : place r = some [])
    (upper : UpperWritable place k)
    (zero : ((firstError (fun a => mapPageIn r a a pageWritable) l).run k).1 = 0) :
    ∀ a ∈ l, walk child ((firstError (fun a => mapPageIn r a a pageWritable) l).run k).2.memory r
        (path a) = some (physicalToTable a) ∧
      grants child (has pageWritable)
        ((firstError (fun a => mapPageIn r a a pageWritable) l).run k).2.memory r (path a) =
          true := by
  induction l generalizing place k with
  | nil => exact fun a h => absurd h List.not_mem_nil
  | cons b rest ih =>
    obtain ⟨here, run⟩ := firstError_zero zero
    rw [run] at zero ⊢
    obtain ⟨place₁, first⟩ := mapPageIn_maps r b b pageWritable hs hr
    obtain ⟨place₂, second⟩ :=
      firstError_maps (fun a => mapPageIn_maps r a a pageWritable) rest first.sound (first.keep hr)
    intro a mem
    rcases List.mem_cons.mp mem with rfl | mem
    · have mapped := mapPageIn_mapped hs hr (show pageWritable &&& pageMask = 0 by decide) here
      have writable := mapPageIn_writable hs hr upper (by decide) (by decide) here
      exact ⟨second.walk_keep first.sound (first.keep hr) (by simp [path]) mapped,
        second.grants_keep first.sound (first.keep hr) (by simp [path]) writable⟩
    · exact ih first.sound (first.keep hr) (first.writable upper) zero a mem

/-- After an identity loop that returns 0 every page is mapped to itself, writable. -/
theorem mapIdentity_mapped {start stop : Word} (hs : Sound place k) (hr : place r = some [])
    (upper : UpperWritable place k) (run : (mapIdentity r start stop).run k = (0, k')) :
    ∀ a ∈ pageRange start stop, walk child k'.memory r (path a) = some (physicalToTable a) ∧
      grants child (has pageWritable) k'.memory r (path a) = true := by
  have zero : ((mapIdentity r start stop).run k).1 = 0 := by rw [run]
  have mapped := firstError_mapped hs hr upper zero
  rw [mapIdentity] at run
  rwa [run] at mapped

/-- A page that is mapped is mapped again where it is, and no page is taken. -/
theorem mapAgain (hs : Sound place k) (hr : place r = some []) {p q : ℕ} (hp : p < 2^52)
    (hq : q < 2^40) (there : walk child k.memory r (pagePath p) = some q) (flags : Word) :
    ∃ place' k', (mapPageIn r (pageAddress p) (pageAddress q) flags).run k = (0, k') ∧
      Step r place k place' k' ∧ Grows child 3 r (pagePath p) place k.memory place' k'.memory ∧
      k'.pmm = k.pmm := by
  have here : path (pageAddress p) = pagePath p := by rw [path_eq, pageOf_pageAddress hp]
  obtain ⟨result, place', k', run, step, grows, outcome⟩ :=
    mapPageIn_spec hs hr (pageAddress p) (pageAddress q) flags
  rw [here] at grows
  have page : physicalToTable (pageAddress q) = q := physicalToTable_pageAddress hq
  have mapped : walk child k.memory r (path (pageAddress p)) = some q := by rw [here, there]
  cases outcome with
  | unaligned un _ =>
    rcases un with un | un
    · exact absurd (pageAddress_aligned p) un
    · exact absurd (pageAddress_aligned q) un
  | noPage _ before => cases before.symm.trans mapped
  | conflict before ne =>
    rw [page] at ne
    exact absurd (Option.some.inj (before.symm.trans mapped)) ne
  | merged _ _ pmm => exact ⟨place', k', run, step, grows, pmm⟩
  | filled before => cases before.symm.trans mapped

theorem firstError_again {body : α → KernelM ℤ} {l : List α} (page : α → ℕ) (flags : Word)
    (hs : Sound place k)
    (hr : place r = some [])
    (each : ∀ a ∈ l, body a = mapPageIn r (pageAddress (page a)) (pageAddress (page a)) flags)
    (there : ∀ a ∈ l, page a < 1048576 ∧ walk child k.memory r (pagePath (page a)) = some (page a)) :
    ∃ place' k', (firstError body l).run k = (0, k') ∧ Step r place k place' k' ∧
      k'.pmm = k.pmm := by
  induction l generalizing place k with
  | nil => exact ⟨place, k, rfl, Step.refl hs, rfl⟩
  | cons a rest ih =>
    obtain ⟨lt, here⟩ := there a List.mem_cons_self
    obtain ⟨place₁, k₁, run₁, step₁, -, pmm₁⟩ := mapAgain hs hr (by omega) (by omega) here flags
    obtain ⟨place₂, k₂, run₂, step₂, pmm₂⟩ := ih step₁.sound (step₁.keep hr)
      (fun a' mem => each a' (List.mem_cons_of_mem a mem)) fun a' mem => by
        obtain ⟨lt', here'⟩ := there a' (List.mem_cons_of_mem a mem)
        exact ⟨lt', step₁.walk_keep hs hr (by simp [pagePath]) here'⟩
    refine ⟨place₂, k₂, ?_, step₁.trans step₂, pmm₂.trans pmm₁⟩
    rw [firstError, run_bind, each a List.mem_cons_self, run₁]
    exact run₂

theorem grants_cons (mask : Word) (p : ℕ) (i : Fin 512) (q : List (Fin 512)) :
    grants child (has mask) k.memory p (i :: q) =
      (has pagePresent (k.memory p i) && has mask (k.memory p i) &&
        grants child (has mask) k.memory (physicalToTable (k.memory p i)) q) := by
  rw [grants, child]
  cases has pagePresent (k.memory p i) with
  | false => rfl
  | true => rfl

/-- No entry becomes open to the user, and what a page taken held is gone. -/
def Supervised (k k' : Kernel) : Prop := ∀ p i, p ≠ 0 → has pageUser (k'.memory p i) = true →
  has pageUser (k.memory p i) = true ∧ k'.pmm.used p = k.pmm.used p

theorem Supervised.trans {k'' : Kernel} (h : Supervised k k') (h' : Supervised k' k'') :
    Supervised k k'' := by
  intro p i ne hu
  obtain ⟨h₁, used₁⟩ := h' p i ne hu
  obtain ⟨h₀, used₀⟩ := h p i ne h₁
  exact ⟨h₀, used₁.trans used₀⟩

def Plain (x : KernelM α) : Prop := ∀ k, Supervised k (x.run k).2

theorem Plain.pure (a : α) : Plain (pure a : KernelM α) := fun _ _ _ _ h => ⟨h, rfl⟩

theorem Plain.bind {x : KernelM α} {f : α → KernelM β} (hx : Plain x) (hf : ∀ a, Plain (f a)) :
    Plain (x >>= f) := by
  intro k
  rw [run_bind]
  exact (hx k).trans (hf _ _)

theorem Plain.ite {p : Prop} [Decidable p] {x y : KernelM α} (hx : Plain x) (hy : Plain y) :
    Plain (if p then x else y) := by
  split_ifs
  · exact hx
  · exact hy

theorem writeEntry_supervised {t : ℕ} {i : Fin 512} {e : Word}
    (h : has pageUser e = true → has pageUser (k.memory t i) = true) :
    Supervised k ((writeEntry t i e).run k).2 := by
  intro p j _ hu
  have run : ((writeEntry t i e).run k).2.memory = setEntry k.memory t i e := rfl
  rw [run] at hu
  refine ⟨?_, rfl⟩
  by_cases eq : p = t ∧ j = i
  · obtain ⟨rfl, rfl⟩ := eq
    rw [setEntry_self] at hu
    exact h hu
  · rwa [setEntry_ne _ _ fun hp hj => eq ⟨hp, hj⟩] at hu

theorem allocateTable_plain : Plain allocateTable := by
  intro k p i ne h
  have taken : (pmmAllocPage k.pmm).2.used p = k.pmm.used p ∨
      pageOf (pmmAllocPage k.pmm).1 = p ∧ (pmmAllocPage k.pmm).1 ≠ 0 := by
    rw [pmmAllocPage]
    cases found : firstFree k.pmm.used 0 k.pmm.totalPages with
    | none => exact .inl rfl
    | some page =>
      obtain ⟨-, lt, -, -⟩ := firstFree_some found
      have le : k.pmm.totalPages ≤ 1048576 := k.pmm.total_le
      by_cases eq : p = page
      · subst eq
        exact .inr ⟨pageOf_pageAddress (by omega), pageAddress_ne_zero (by omega) (by omega)⟩
      · refine .inl ?_
        simp [eq]
  rw [allocateTable_run] at h ⊢
  by_cases zero : (pmmAllocPage k.pmm).1 = 0
  · rw [if_pos zero] at h ⊢
    refine ⟨h, ?_⟩
    rcases taken with same | ⟨-, nonzero⟩
    · exact same
    · exact absurd zero nonzero
  · rw [if_neg zero] at h ⊢
    dsimp only at h ⊢
    rcases taken with same | ⟨rfl, -⟩
    · by_cases eq : p = pageOf (pmmAllocPage k.pmm).1
      · rw [eq, Function.update_self] at h
        cases h
      · rw [Function.update_of_ne eq] at h
        exact ⟨h, same⟩
    · rw [Function.update_self] at h
      cases h

theorem pageAddress_plain (page : ℕ) : has pageUser (pageAddress page) = false := by
  rw [has, show pageUser = (pageSize - 1) &&& pageUser by decide, ← BitVec.and_assoc,
    pageAddress_aligned]
  decide

theorem merge_plain {e : Word} (m : Word) (plain : has pageUser flags = false)
    (h : has pageUser (e ||| (flags &&& m)) = true) : has pageUser e = true := by
  rw [has_or, Bool.or_eq_true] at h
  refine h.resolve_right fun hf => ?_
  have none : flags &&& pageUser = 0 := by simpa [has] using plain
  rw [has, BitVec.and_assoc, BitVec.and_comm m, ← BitVec.and_assoc, none] at hf
  simp at hf

theorem enterTable_plain (t : ℕ) (i : Fin 512) (plain : has pageUser flags = false) :
    Plain (enterTable t i flags) := by
  intro k
  cases hc : child (k.memory t i) with
  | some c =>
    rw [enterTable_present hc]
    exact writeEntry_supervised fun h => merge_plain pageUser plain h
  | none =>
    have fresh := allocateTable_plain k
    rw [enterTable_absent hc]
    generalize allocateTable.run k = r at fresh
    obtain ⟨_ | page, k'⟩ := r
    · exact fresh
    · intro p j ne h
      have entry : has pageUser (tableEntry page flags) = false := by
        rw [tableEntry_eq, has_or, pageAddress_plain, has_or, has_and_self, plain]
        decide
      refine fresh.trans (writeEntry_supervised fun hu => ?_) p j ne h
      rw [entry] at hu
      cases hu

theorem leafEntry_plain (pa : Word) (plain : has pageUser flags = false) :
    has pageUser (leafEntry pa flags) = false := by
  rw [leafEntry, has_or, has_or, plain, has_and_of_disjoint pa (by decide)]
  decide

theorem mapPageIn_plain (r : ℕ) (va pa : Word) (plain : has pageUser flags = false) :
    Plain (mapPageIn r va pa flags) := by
  intro k
  by_cases hv : va &&& (pageSize - 1) = 0
  swap
  · rw [mapPageIn_unaligned (.inl hv)]
    exact fun _ _ _ h => ⟨h, rfl⟩
  by_cases hp : pa &&& (pageSize - 1) = 0
  swap
  · rw [mapPageIn_unaligned (.inr hp)]
    exact fun _ _ _ h => ⟨h, rfl⟩
  have first := enterTable_plain r (pml4Index va) plain k
  rw [mapPageIn_aligned hv hp]
  generalize (enterTable r (pml4Index va) flags).run k = x at first
  obtain ⟨_ | pdpt, k₁⟩ := x
  · exact first
  have second := first.trans (enterTable_plain pdpt (pdptIndex va) plain k₁)
  dsimp only
  generalize (enterTable pdpt (pdptIndex va) flags).run k₁ = x at second
  obtain ⟨_ | pd, k₂⟩ := x
  · exact second
  dsimp only
  split_ifs
  · exact second
  have third := second.trans (enterTable_plain pd (pdIndex va) plain k₂)
  generalize (enterTable pd (pdIndex va) flags).run k₂ = x at third
  obtain ⟨_ | pt, k₃⟩ := x
  · exact third
  dsimp only
  split_ifs
  · exact third.trans (writeEntry_supervised fun h => merge_plain _ plain h)
  · exact third
  · refine third.trans (writeEntry_supervised fun h => ?_)
    rw [leafEntry_plain pa plain] at h
    cases h

theorem firstError_plain {body : α → KernelM ℤ} (h : ∀ a, Plain (body a)) (l : List α) :
    Plain (firstError body l) := by
  induction l with
  | nil => exact .pure 0
  | cons a rest ih => exact (h a).bind fun result => .ite (.pure result) ih

theorem mapIdentity_plain (r : ℕ) (start stop : Word) : Plain (mapIdentity r start stop) :=
  firstError_plain (fun _ => mapPageIn_plain r _ _ (by decide)) _

theorem mapFramebuffer_plain (b : Layout) (r : ℕ) : Plain (mapFramebuffer b r) :=
  .ite (mapIdentity_plain r _ _) (.pure 0)

def Kernel.sharedEntries (k : Kernel) (i : Fin 512) : Word :=
  if i.val = 0 ∨ 256 ≤ i.val then k.memory k.kernelPml4 i else 0

def Kernel.newSpace (k : Kernel) (page : ℕ) : Kernel :=
  { k with memory := Function.update k.memory page k.sharedEntries, pmm := k.pmm.take page }

theorem copyKernelEntries_run {page : ℕ} (ne : k.kernelPml4 ≠ page) :
    (copyKernelEntries page).run (k.newTable page) = ((), k.newSpace page) := by
  have entries : (fun i : Fin 512 => if i.val = 0 ∨ 256 ≤ i.val
      then (k.newTable page).memory k.kernelPml4 i else (k.newTable page).memory page i) =
        k.sharedEntries := by
    funext i
    simp only [Kernel.newTable, Function.update_self, Function.update_of_ne ne,
      Kernel.sharedEntries]
  have run : (copyKernelEntries page).run (k.newTable page) = ((), { k.newTable page with
      memory := Function.update (k.newTable page).memory page (fun i : Fin 512 =>
        if i.val = 0 ∨ 256 ≤ i.val then (k.newTable page).memory k.kernelPml4 i
        else (k.newTable page).memory page i) }) := rfl
  rw [run, entries, Kernel.newSpace]
  simp only [Kernel.newTable, Function.update_idem]

/-- The PML4 of a user stands over the tables of the kernel. -/
theorem Step.adopt (hs : Sound place k) (root : place k.kernelPml4 = some []) {page : ℕ}
    (pos : 0 < page) (lt : page < maxPages) (unused : k.pmm.used page = false)
    (lowest : ∀ q, q < page → k.pmm.used q = true) :
    Step page place k (Function.update place page (some [])) (k.newSpace page) := by
  have hn := hs.page_unplaced unused
  have ne {p : ℕ} {l : List (Fin 512)} (hp : place p = some l) : p ≠ page := by
    rintro rfl
    exact absurd (hn.symm.trans hp) (by simp)
  have same {p : ℕ} (h : p ≠ page) : (k.newSpace page).memory p = k.memory p := by
    simp only [Kernel.newSpace, Function.update_of_ne h]
  have own : (k.newSpace page).memory page = k.sharedEntries := by
    simp only [Kernel.newSpace, Function.update_self]
  have shared {i : Fin 512} {d : ℕ} (h : child (k.sharedEntries i) = some d) :
      child (k.memory k.kernelPml4 i) = some d ∧
        k.sharedEntries i = k.memory k.kernelPml4 i := by
    rw [Kernel.sharedEntries] at h ⊢
    split_ifs at h ⊢
    · exact ⟨h, rfl⟩
    · cases child_zero.symm.trans h
  have leads {i : Fin 512} {d : ℕ} (h : child (k.sharedEntries i) = some d) :
      ([] : List (Fin 512)) = [] ∧ place d = some [i] :=
    ⟨rfl, hs.placed.below root (by decide) (shared h).1⟩
  have update_used (q : ℕ) : (k.newSpace page).pmm.used q =
      (decide (q = page) || k.pmm.used q) := take_used _ _ _
  constructor
  · constructor
    · exact hs.placed.add hn leads
    · exact hs.closed.add hs.placed hn fun h => (leads h).1
    · intro p l i hp lt'
      by_cases h : p = page
      · rw [h, own, Kernel.sharedEntries]
        split_ifs
        · exact hs.small root (by decide)
        · decide
      · rw [Function.update_of_ne h] at hp
        rw [same h]
        exact hs.small hp lt'
    · intro p l hp
      rw [update_used]
      by_cases h : p = page
      · exact ⟨by simp [h], by omega, by omega⟩
      · rw [Function.update_of_ne h] at hp
        obtain ⟨hu, h0, hm⟩ := hs.used hp
        exact ⟨by rw [hu, Bool.or_true], h0, hm⟩
    · rw [update_used, hs.page0, Bool.or_true]
  · intro p l hp
    rw [Function.update_of_ne (ne hp), hp]
  · intro p l i c hp hc
    rwa [same (ne hp)]
  · intro p l i c mask hp hc hf
    rwa [same (ne hp)]
  · intro p l i c mask hp _ hc _
    rw [same (ne hp)]
  · intro p hp _
    exact same (ne hp)
  · intro p hp
    refine same ?_
    rintro rfl
    rw [Function.update_self] at hp
    cases hp
  · exact taken_keep update_used
  · exact taken_placed update_used
  · exact taken_unused unused
  · exact taken_fit update_used lowest
  · intro hw p l i c hp lt' hc
    by_cases h : p = page
    · rw [h, own] at hc ⊢
      obtain ⟨hc, eq⟩ := shared hc
      rw [eq]
      exact hw root (by decide) hc
    · rw [Function.update_of_ne h] at hp
      rw [same h] at hc ⊢
      exact hw hp lt' hc
  · rfl
  · rfl

/-- What `vmm_create_user_space` leaves: nothing changed, or a new PML4 over the tables of
the kernel, returned unless some mapping failed. -/
theorem createUserSpace_spec (b : Layout) (hs : Sound place k)
    (root : place k.kernelPml4 = some []) :
    ((pmmAllocPage k.pmm).1 = 0 ∧ (vmmCreateUserSpace b).run k = (0, k)) ∨
    ∃ page place' result k', (vmmCreateUserSpace b).run k = (result, k') ∧
      Step page place k place' k' ∧ 0 < page ∧ page < maxPages ∧ place page = none ∧
      place' page = some [] ∧
      (∀ {i : Fin 512} {c}, i.val = 0 ∨ 256 ≤ i.val → child (k.memory k.kernelPml4 i) = some c →
        child (k'.memory page i) = some c) ∧
      (∀ {p i}, p ≠ 0 → p ≠ page → has pageUser (k'.memory p i) = true →
        has pageUser (k.memory p i) = true) ∧
      (result = 0 ∨ result = pageAddress page) := by
  rcases allocateTable_cases hs.page0 with h | ⟨page, pos, lt, unused, lowest, h⟩
  · left
    refine ⟨?_, ?_⟩
    · have table := allocateTable_fst k
      rw [h] at table
      by_contra some
      rw [if_neg some] at table
      cases table
    · rw [vmmCreateUserSpace, run_bind, h]
      rfl
  have hn := hs.page_unplaced unused
  have ne : k.kernelPml4 ≠ page := by
    rintro rfl
    exact absurd (hn.symm.trans root) (by simp)
  have adopt := Step.adopt hs root pos lt unused lowest
  have entry {i : Fin 512} {c : ℕ} (hi : i.val = 0 ∨ 256 ≤ i.val)
      (hc : child (k.memory k.kernelPml4 i) = some c) :
      child ((k.newSpace page).memory page i) = some c := by
    simp only [Kernel.newSpace, Function.update_self, Kernel.sharedEntries, if_pos hi]
    exact hc
  -- the mappings of the VGA buffer and the framebuffer
  have maps : ∃ result place' k', (vmmCreateUserSpace b).run k = (result, k') ∧
      Step page (Function.update place page (some [])) (k.newSpace page) place' k' ∧
      Supervised (k.newSpace page) k' ∧ (result = 0 ∨ result = pageAddress page) := by
    rw [vmmCreateUserSpace, run_bind, h]
    simp only [run_bind]
    rw [copyKernelEntries_run ne]
    obtain ⟨place₁, first⟩ := mapPageIn_maps page 0xB8000 0xB8000 pageWritable adopt.sound
      (Function.update_self _ _ _)
    obtain ⟨place₂, second⟩ := mapFramebuffer_maps b page first.sound
      (first.keep (Function.update_self _ _ _))
    have plain₁ := mapPageIn_plain page 0xB8000 0xB8000 (show has pageUser pageWritable = false by decide)
      (k.newSpace page)
    have plain₂ := mapFramebuffer_plain b page
      ((mapPageIn page 0xB8000 0xB8000 pageWritable).run (k.newSpace page)).2
    split_ifs
    · exact ⟨_, _, _, rfl, first, plain₁, .inl rfl⟩
    · simp only [run_bind]
      split_ifs
      · exact ⟨_, _, _, rfl, first.trans second, plain₁.trans plain₂, .inl rfl⟩
      · exact ⟨_, _, _, rfl, first.trans second, plain₁.trans plain₂, .inr rfl⟩
  obtain ⟨result, place', k', run, step, plain, outcome⟩ := maps
  have own : Function.update place page (some []) page = some [] := Function.update_self _ _ _
  refine .inr ⟨page, place', result, k', run, adopt.trans step, pos, lt, hn, step.keep own,
    fun hi hc => step.child_keep own (entry hi hc), fun {p i} ne off hu => ?_, outcome⟩
  have before := (plain p i ne hu).1
  simp only [Kernel.newSpace] at before
  rwa [Function.update_of_ne off] at before

end TinyOS.Memory
