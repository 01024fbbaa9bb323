import TinyOS.KernelBoot
import TinyOS.VmmRefine
import TinyOS.VmmTrees

set_option autoImplicit false

namespace TinyOS.Memory
open RadixTables LeafTrees

variable {ι : Type} {r : ℕ} {place place' place'' : Places} {k k' k'' : Kernel}
variable {va pa size flags : Word} {pages rest : List (Word × Word)}

/-- `vmm_map_page`; the processor's cache of translations is not part of the state. -/
def vmmMapPage (va pa flags : Word) : KernelM ℤ := do
  let k ← get
  mapPageIn k.currentPml4 va pa flags

def vmmMapRange (va pa size flags : Word) : KernelM ℤ := do
  if size = 0 then return 0
  let offset := va &&& (pageSize - 1)
  let pages := (size + offset + pageSize - 1)/pageSize
  firstError (fun i => vmmMapPage (alignDown va + BitVec.ofNat 64 i*pageSize)
    (alignDown pa + BitVec.ofNat 64 i*pageSize) flags) (List.range pages.toNat)

structure PagesMapped (r : ℕ) (pages : List (Word × Word)) (place : Places) (k : Kernel)
    (place' : Places) (k' : Kernel) : Prop where
  tree : PageTree place' k'
  keep : ∀ {p l}, place p = some l → place' p = some l
  mapped : ∀ x ∈ pages,
    lookup entrySlot k'.memory 0 r (path x.1) = some ⟨false, x.2 &&& pageMask⟩
  same : ∀ {s q}, place s = some [] → q.length = 4 → (∀ x ∈ pages, q ≠ path x.1) →
    lookup entrySlot k'.memory 0 s q = lookup entrySlot k.memory 0 s q
  statics : k' = { k with memory := k'.memory, pmm := k'.pmm }

theorem PagesMapped.nil (hs : PageTree place k) : PagesMapped r [] place k place k where
  tree := hs
  keep hp := hp
  mapped _ mem := absurd mem List.not_mem_nil
  same _ _ _ := rfl
  statics := rfl

theorem entrySlot_leafEntry (pa : Word) (low : flags &&& pageMask = 0) :
    entrySlot 3 (leafEntry pa flags) = .leaf ⟨false, pa &&& pageMask⟩ := by
  have mask : (flags ||| pagePresent) &&& pageMask = 0 := by
    rw [BitVec.and_or_distrib_right, low]
    decide
  rw [entrySlot_page (leafEntry_present pa flags), leafEntry, BitVec.or_assoc, or_and_mask mask,
    BitVec.and_assoc, BitVec.and_self]

theorem Descent.fill {t : ℕ} {tables : List ℕ} {e : Word}
    (h : Descent r flags (upperPath va) t place k place' k' tables) (hs : PageTree place k)
    (hr : place r = some []) (leaf : entrySlot 3 e = .leaf ⟨false, pa &&& pageMask⟩) :
    PagesMapped r [(va, pa)] place k place' (k'.setEntry t (ptIndex va) e) := by
  have stands := h.spread.widened.stands
  have keep {p : ℕ} {l : List (Fin 512)} (hp : place p = some l) := h.spread.widened.keep hp
  constructor
  · exact ⟨stands.fill h.here leaf, h.spread.used⟩
  · exact keep
  · intro x mem
    obtain rfl := List.mem_singleton.mp mem
    have upto : tableAt entrySlot (k'.setEntry t (ptIndex va) e).memory 0 r (upperPath va) =
        some t := by
      refine (stands.tableAt_off (k := []) h.here (keep hr) fun on => ?_).trans h.upto
      have le := on.length_le
      simp [upperPath] at le
    rw [show path va = upperPath va ++ [ptIndex va] from rfl, lookup_append upto]
    refine lookup_leaf ?_
    simp only [Kernel.setEntry, setEntry_self]
    exact leaf
  · intro s q hp four off
    have other : ¬(upperPath va ++ [ptIndex va]) <+: [] ++ q := fun on =>
      off _ List.mem_cons_self (on.eq_of_length four.symm).symm
    exact (stands.lookup_off (k := []) h.here (keep hp) other).trans
      (h.spread.widened.lookup_eq hs.stands hp)
  · rw [h.spread.statics]
    rfl

theorem mapPageIn_maps_page (hs : PageTree place k) (hr : place r = some [])
    (low : flags &&& pageMask = 0) (run : (mapPageIn r va pa flags).run k = (0, k')) :
    ∃ place', PagesMapped r [(va, pa)] place k place' k' := by
  obtain ⟨code, k'', run', outcome⟩ := mapPageIn_outcome hs hr va pa flags
  obtain ⟨rfl, rfl⟩ := Prod.mk.inj (run'.symm.trans run)
  cases outcome with
  | full h =>
    rcases h with ⟨h, -⟩ | h | h <;> cases h
  | @merged t place₁ k₁ tables descent present frame eq =>
    subst eq
    refine ⟨place₁, descent.fill hs hr ?_⟩
    have mask := low_and_mask flags (show (pageUser ||| pageWritable) &&& pageMask = 0 by decide)
    rw [entrySlot_or present mask (has_and_of_disjoint flags (by decide)), entrySlot_page present,
      frame]
  | @filled t place₁ k₁ tables descent eq =>
    subst eq
    exact ⟨place₁, descent.fill hs hr (entrySlot_leafEntry pa low)⟩

/-- What is mapped first stays, as long as no later page takes its address. -/
theorem PagesMapped.cons {x : Word × Word} (h : PagesMapped r [x] place k place' k')
    (h' : PagesMapped r rest place' k' place'' k'') (hr : place r = some [])
    (same : ∀ y ∈ rest, path x.1 = path y.1 → x.2 &&& pageMask = y.2 &&& pageMask) :
    PagesMapped r (x :: rest) place k place'' k'' where
  tree := h'.tree
  keep hp := h'.keep (h.keep hp)
  mapped := by
    intro y mem
    rcases List.mem_cons.mp mem with rfl | mem
    · by_cases again : ∃ z ∈ rest, path y.1 = path z.1
      · obtain ⟨z, later, eq⟩ := again
        rw [eq, h'.mapped z later, same z later eq]
      · rw [not_exists] at again
        rw [h'.same (h.keep hr) rfl fun z later eq => again z ⟨later, eq⟩]
        exact h.mapped y List.mem_cons_self
    · exact h'.mapped y mem
  same := by
    intro s q hp four off
    rw [h'.same (h.keep hp) four fun y mem => off y (List.mem_cons_of_mem x mem)]
    exact h.same hp four fun y mem => by
      rw [List.mem_singleton.mp mem]
      exact off x List.mem_cons_self
  statics := by
    rw [h'.statics, h.statics]

theorem mapPages_maps (hs : PageTree place k) (hr : place r = some [])
    (low : flags &&& pageMask = 0)
    (same : ∀ x ∈ pages, ∀ y ∈ pages, path x.1 = path y.1 → x.2 &&& pageMask = y.2 &&& pageMask)
    (run : (firstError (fun x => mapPageIn r x.1 x.2 flags) pages).run k = (0, k')) :
    ∃ place', PagesMapped r pages place k place' k' := by
  induction pages generalizing place k with
  | nil =>
    obtain rfl : k = k' := congrArg Prod.snd run
    exact ⟨place, .nil hs⟩
  | cons x rest ih =>
    obtain ⟨zero, next⟩ := firstError_zero (by rw [run])
    rw [run] at next
    obtain ⟨place₁, first⟩ := mapPageIn_maps_page hs hr low (Prod.ext zero rfl)
    obtain ⟨place₂, later⟩ := ih first.tree (first.keep hr)
      (fun y my z mz => same y (List.mem_cons_of_mem x my) z (List.mem_cons_of_mem x mz)) next.symm
    exact ⟨place₂, first.cons later hr fun y mem =>
      same x List.mem_cons_self y (List.mem_cons_of_mem x mem)⟩

theorem static_current : Static Kernel.currentPml4 := fun _ _ _ _ _ => rfl

theorem firstError_current (f g : ι → Word) (flags : Word) {l : List ι} (here : k.currentPml4 = r) :
    (firstError (fun i => vmmMapPage (f i) (g i) flags) l).run k =
      (firstError (fun i => mapPageIn r (f i) (g i) flags) l).run k := by
  induction l generalizing k with
  | nil => rfl
  | cons i rest ih =>
    have same : (vmmMapPage (f i) (g i) flags).run k = (mapPageIn r (f i) (g i) flags).run k := by
      rw [← here]
      rfl
    rw [firstError, firstError, run_bind, run_bind, same]
    split_ifs
    · rfl
    · exact ih ((keeps_mapPageIn static_current r (f i) (g i) flags k).trans here)

theorem mapRange_run (va pa size flags : Word) (k : Kernel) :
    (vmmMapRange va pa size flags).run k =
      if size = 0 then (0, k) else (mapKernelPages k.currentPml4 va pa size flags).run k := by
  rw [vmmMapRange]
  split_ifs
  · rfl
  · exact firstError_current _ _ flags rfl

theorem firstError_map {κ : Type} (body : κ → KernelM ℤ) (f : ι → κ) (l : List ι) :
    firstError (fun i => body (f i)) l = firstError body (l.map f) := by
  induction l with
  | nil => rfl
  | cons i rest ih => rw [List.map_cons, firstError, firstError, ih]

def pairedPages (va pa size : Word) : List (Word × Word) :=
  (List.range ((size.toNat+va.toNat%4096+4095)/4096)).map fun i =>
    (pageAddress (va.toNat/4096+i), pageAddress (pa.toNat/4096+i))

theorem mapKernelPages_eq (fits : va.toNat+size.toNat ≤ 2^63) : mapKernelPages r va pa size flags =
    firstError (fun x => mapPageIn r x.1 x.2 flags) (pairedPages va pa size) := by
  rw [mapKernelPages, rangePages_toNat fits, pairedPages, ← firstError_map]
  exact congrArg (firstError · _) (funext fun i => by rw [rangePage_eq, rangePage_eq])

/-- Each byte of a range has its own physical address, and no address outside the pages of the
range has another one than before. A walk reads the low 48 bits of an address. -/
structure RangeMapped (r : ℕ) (va pa size : Word) (k k' : Kernel) : Prop where
  bytes : ∀ i, i < size.toNat →
    getPhysicalFrom k'.memory r (va + BitVec.ofNat 64 i) = pa + BitVec.ofNat 64 i
  others : ∀ a, (∀ i, i < size.toNat → pageOf a%2^36 ≠ pageOf (va + BitVec.ofNat 64 i)) →
    getPhysicalFrom k'.memory r a = getPhysicalFrom k.memory r a

theorem pagePath_mod {p q : ℕ} (h : pagePath p = pagePath q) : p%2^36 = q%2^36 := by
  simp only [pagePath, List.cons.injEq, Fin.mk.injEq, and_true] at h
  omega

/-- What a range of pages gives its bytes: the physical start is rounded down on its own. -/
theorem PagesMapped.byte (h : PagesMapped r (pairedPages va pa size) place k place' k')
    (hv : va.toNat+size.toNat ≤ 2^47) (hp : pa.toNat+size.toNat ≤ 2^47) {i : ℕ}
    (lt : i < size.toNat) : (getPhysicalFrom k'.memory r (va + BitVec.ofNat 64 i)).toNat =
      pa.toNat/4096*4096+va.toNat%4096+i := by
  have sum : (va + BitVec.ofNat 64 i).toNat = va.toNat+i := toNat_add_ofNat (by omega)
  have page : pageOf (va + BitVec.ofNat 64 i) = va.toNat/4096+(va.toNat%4096+i)/4096 := by
    rw [pageOf, sum]
    omega
  have mem : (pageAddress (va.toNat/4096+(va.toNat%4096+i)/4096),
      pageAddress (pa.toNat/4096+(va.toNat%4096+i)/4096)) ∈ pairedPages va pa size :=
    List.mem_map.mpr ⟨(va.toNat%4096+i)/4096, List.mem_range.mpr (by omega), rfl⟩
  have leaf := h.mapped _ mem
  dsimp only at leaf
  rw [path_eq, pageOf_pageAddress (by omega), pageAddress_and_mask (by omega)] at leaf
  rw [getPhysicalFrom_lookup, path_eq, page, leaf]
  change (pageAddress (pa.toNat/4096+(va.toNat%4096+i)/4096) +
    ((va + BitVec.ofNat 64 i) &&& 0xFFF)).toNat = _
  rw [BitVec.toNat_add, pageAddress_toNat (by omega), show (0xFFF : Word) = pageSize - 1 by decide,
    low_bits, sum]
  omega

theorem PagesMapped.outside (h : PagesMapped r (pairedPages va pa size) place k place' k')
    (hr : place r = some []) (hv : va.toNat+size.toNat ≤ 2^47) (pos : 0 < size.toNat) {a : Word}
    (off : ∀ i, i < size.toNat → pageOf a%2^36 ≠ pageOf (va + BitVec.ofNat 64 i)) :
    getPhysicalFrom k'.memory r a = getPhysicalFrom k.memory r a := by
  refine getPhysicalFrom_congr (h.same hr rfl fun x mem eq => ?_)
  obtain ⟨j, hj, rfl⟩ := List.mem_map.mp mem
  have lt := List.mem_range.mp hj
  dsimp only at eq
  rw [path_eq, path_eq, pageOf_pageAddress (by omega)] at eq
  have same := pagePath_mod eq
  refine off (j*4096-va.toNat%4096) (by omega) ?_
  rw [same, pageOf, toNat_add_ofNat (by omega)]
  omega

/-- A loop that returns 0 gives the bytes their addresses exactly when both starts have the same
offset in their page. -/
theorem mapKernelPages_exact (hs : PageTree place k) (hr : place r = some [])
    (hv : va.toNat+size.toNat ≤ 2^47) (hp : pa.toNat+size.toNat ≤ 2^47) (pos : 0 < size.toNat)
    (low : flags &&& pageMask = 0) (run : (mapKernelPages r va pa size flags).run k = (0, k')) :
    RangeMapped r va pa size k k' ↔ va.toNat%4096 = pa.toNat%4096 := by
  rw [mapKernelPages_eq (by omega)] at run
  have apart : ∀ x ∈ pairedPages va pa size, ∀ y ∈ pairedPages va pa size,
      path x.1 = path y.1 → x.2 &&& pageMask = y.2 &&& pageMask := by
    intro x hx y hy eq
    obtain ⟨i, hi, rfl⟩ := List.mem_map.mp hx
    obtain ⟨j, hj, rfl⟩ := List.mem_map.mp hy
    have lti := List.mem_range.mp hi
    have ltj := List.mem_range.mp hj
    dsimp only at eq ⊢
    rw [path_eq, path_eq, pageOf_pageAddress (by omega), pageOf_pageAddress (by omega)] at eq
    have same := pagePath_inj (by omega) (by omega) eq
    rw [show i = j by omega]
  obtain ⟨place', maps⟩ := mapPages_maps hs hr low apart run
  constructor
  · intro mapped
    have first := maps.byte hv hp pos
    rw [mapped.bytes 0 pos, toNat_add_ofNat (by omega)] at first
    omega
  · intro offset
    refine ⟨fun i lt => ?_, fun a => maps.outside hr hv pos⟩
    apply BitVec.eq_of_toNat_eq
    rw [maps.byte hv hp lt, toNat_add_ofNat (by omega)]
    omega

/-- Both functions, where they return 0. -/
theorem mapRange_exact_iff (place : Places) (k : Kernel) (va pa size flags : Word)
    (hs : PageTree place k) (pos : 0 < size.toNat)
    (hv : va.toNat+size.toNat < 2^47) (hp : pa.toNat+size.toNat < 2^47)
    (hf : flags &&& ~~~(pageWritable ||| pageUser ||| pageNx) = 0) :
    (place k.currentPml4 = some [] →
      ∀ k', (vmmMapRange va pa size flags).run k = (0, k') →
        (RangeMapped k.currentPml4 va pa size k k' ↔ va.toNat%4096 = pa.toNat%4096)) ∧
    (place k.kernelPml4 = some [] →
      ∀ k', (vmmMapKernelRange va pa size flags).run k = (0, k') →
        (RangeMapped k.kernelPml4 va pa size k k' ↔ va.toNat%4096 = pa.toNat%4096)) := by
  have nonzero : size ≠ 0 := by
    rintro rfl
    exact absurd pos (by decide)
  constructor
  · intro root k' run
    rw [mapRange_run, if_neg nonzero] at run
    exact mapKernelPages_exact hs root hv.le hp.le pos (flags_low hf) run
  · intro root k' run
    rw [mapKernelRange_run, if_neg nonzero] at run
    exact mapKernelPages_exact hs root hv.le hp.le pos (flags_low hf) run

theorem returns_zero {x : ℤ × Kernel} (zero : x.1 = 0) : x = (0, x.2) := Prod.ext zero rfl

/-- Pages 1 to 4 are the tables of the first 2 MB, with nothing mapped yet. -/
def shallowKernel : Kernel where
  memory := fun p i =>
    if i.val = 0 then
      if p = 0 then 0
      else if p < 4 then tableEntry (p+1) 0
      else 0
    else 0
  pmm := ⟨fun _ => true, 5, 0, by decide⟩
  currentPml4 := 1
  kernelPml4 := 1
  kernelCr3 := 0x1000
  cr3 := 0x1000
  riruUserCr3 := 0
  heapUsed := 0
  heapTotal := 0

def shallowPlaces : Places := fun p =>
  if p = 0 then none
  else if p ≤ 4 then some ((pagePath 0).take (p-1))
  else none

theorem shallowKernel_link {p : ℕ} (pos : 0 < p) (lt : p < 4) :
    shallowKernel.memory p 0 = tableEntry (p+1) 0 := by
  change (if p = 0 then 0 else if p < 4 then tableEntry (p+1) 0 else 0) = tableEntry (p+1) 0
  rw [if_neg pos.ne', if_pos lt]

theorem shallowKernel_empty {p : ℕ} {i : Fin 512} (off : ¬(i = 0 ∧ 1 ≤ p ∧ p < 4)) :
    shallowKernel.memory p i = 0 := by
  rw [← Fin.val_eq_zero_iff] at off
  change (if i.val = 0 then
    if p = 0 then 0 else if p < 4 then tableEntry (p+1) 0 else 0 else 0) = 0
  split_ifs <;> first | rfl | omega

theorem shallowPlaces_some {p : ℕ} (pos : 0 < p) (le : p ≤ 4) :
    shallowPlaces p = some (List.replicate (p-1) 0) := by
  rw [shallowPlaces, if_neg pos.ne', if_pos le]
  interval_cases p <;> rfl

theorem shallowKernel_tree : PageTree shallowPlaces shallowKernel where
  stands := by
    intro p l i c hp link
    by_cases first : i = 0 ∧ 1 ≤ p ∧ p < 4
    · obtain ⟨rfl, pos, lt⟩ := first
      rw [shallowPlaces_some pos lt.le] at hp
      obtain rfl := Option.some.inj hp
      rw [shallowKernel_link pos lt] at link
      have next := child_tableEntry (show p+1 < 2^40 by omega) 0
      obtain rfl := Option.some.inj (next.symm.trans (entrySlot_table.mp link).1)
      rw [shallowPlaces_some (by omega) (by omega), Nat.add_sub_cancel, ← List.replicate_succ',
        Nat.sub_add_cancel pos]
    · rw [shallowKernel_empty first] at link
      cases link
  used _ _ := rfl

theorem mapRange_exact_shallow :
    ∃ k', RangeMapped shallowKernel.currentPml4 0x1234 0x5234 0x2000 shallowKernel k' := by
  have run : ((vmmMapRange 0x1234 0x5234 0x2000 pageWritable).run shallowKernel).1 = 0 := by
    decide +kernel
  obtain ⟨inUse, -⟩ := mapRange_exact_iff shallowPlaces shallowKernel 0x1234 0x5234 0x2000
    pageWritable shallowKernel_tree (by decide) (by decide) (by decide) (by decide)
  refine ⟨((vmmMapRange 0x1234 0x5234 0x2000 pageWritable).run shallowKernel).2, ?_⟩
  exact (inUse rfl _ (returns_zero run)).mpr (by decide)

theorem mapRange_not_exact : ¬∀ (place : Places) (k : Kernel) (va pa size flags : Word),
    PageTree place k → 0 < size.toNat → va.toNat+size.toNat < 2^47 →
    pa.toNat+size.toNat < 2^47 → flags &&& ~~~(pageWritable ||| pageUser ||| pageNx) = 0 →
    (place k.currentPml4 = some [] →
      ∀ k', (vmmMapRange va pa size flags).run k = (0, k') →
        RangeMapped k.currentPml4 va pa size k k') ∧
    (place k.kernelPml4 = some [] →
      ∀ k', (vmmMapKernelRange va pa size flags).run k = (0, k') →
        RangeMapped k.kernelPml4 va pa size k k') := by
  intro all
  have run : ((vmmMapRange 0x1000 0x5001 1 pageWritable).run shallowKernel).1 = 0 := by
    decide +kernel
  have mapped := (all shallowPlaces shallowKernel 0x1000 0x5001 1 pageWritable shallowKernel_tree
    (by decide) (by decide) (by decide) (by decide)).1 rfl _ (returns_zero run)
  have byte : getPhysicalFrom
      ((vmmMapRange 0x1000 0x5001 1 pageWritable).run shallowKernel).2.memory 1
      (0x1000 + BitVec.ofNat 64 0) = 0x5000 := by
    decide +kernel
  have same := (mapped.bytes 0 (by decide)).symm.trans byte
  exact absurd same (by decide)

end TinyOS.Memory
