import TinyOS.StateRuns
import TinyOS.VmmMap

set_option autoImplicit false

namespace TinyOS.Memory
open RadixTables StateRuns

/-- What an address space is for: virtual pages bound to physical pages. -/
abbrev PageMap := ℕ → Option ℕ

def PageMap.value (m : PageMap) (a : Word) : Word :=
  match m (pageOf a) with
  | none => 0
  | some f => pageAddress f + (a &&& 0xFFF)

/-- A call of `map_page_in` with this result binds a page that was not bound. -/
def PageMap.bind (m : PageMap) (va pa : Word) (result : ℤ) : PageMap :=
  if m (pageOf va) = none ∧ result = 0 then Function.update m (pageOf va) (some (pageOf pa)) else m

inductive SpaceOp where
  | map (va pa flags : Word)
  | unmap (va : Word)
  | other (k : Kernel)

structure AddressSpace where
  kernel : Kernel
  map : PageMap

def AddressSpace.next (r : ℕ) (s : AddressSpace) : SpaceOp → AddressSpace
  | .map va pa flags =>
    let x := (mapPageIn r va pa flags).run s.kernel
    ⟨x.2, s.map.bind va pa x.1⟩
  | .unmap va => ⟨((vmmUnmapPage va).run s.kernel).2, Function.update s.map (pageOf va) none⟩
  | .other k => ⟨k, s.map⟩

abbrev pageNx : Word := 0x8000000000000000

theorem flags_low {flags : Word}
    (h : flags &&& ~~~(pageWritable ||| pageUser ||| pageNx) = 0) : flags &&& pageMask = 0 := by
  rw [show pageMask = ~~~(pageWritable ||| pageUser ||| pageNx) &&& pageMask by decide,
    ← BitVec.and_assoc, h]
  exact BitVec.zero_and

/-- Aligned addresses in range, flags that are flags, and others that leave the tables alone. -/
def SpaceOp.Ok (r : ℕ) (s : AddressSpace) : SpaceOp → Prop
  | .map va pa flags => va &&& (pageSize - 1) = 0 ∧ va < 0x1000000000000 ∧
    pa &&& (pageSize - 1) = 0 ∧ pa < 0x10000000000000 ∧
    flags &&& ~~~(pageWritable ||| pageUser ||| pageNx) = 0
  | .unmap va => va < 0x1000000000000
  | .other k => Others [r] s.kernel k

def Empty (r : ℕ) (s : AddressSpace) : Prop :=
  ∃ k k', k.pmm.used 0 = true ∧ allocateTable.run k = (some r, k') ∧
    s = ⟨{ k' with currentPml4 := r }, fun _ => none⟩

abbrev SpaceReach (r : ℕ) : AddressSpace → Prop :=
  Reach (Empty r) (fun op s t => t = s.next r op) (SpaceOp.Ok r)

structure Refines (r : ℕ) (place : Places) (s : AddressSpace) : Prop where
  sound : Sound place s.kernel
  root : place r = some []
  current : s.kernel.currentPml4 = r
  map : ∀ p, p < 2^36 → walk child s.kernel.memory r (pagePath p) = s.map p

variable {r : ℕ} {place : Places} {k : Kernel} {s : AddressSpace}

theorem getPhysicalFrom_eq (hs : Sound place k) (hr : place r = some []) (a : Word) :
    getPhysicalFrom k.memory r a =
      match walk child k.memory r (path a) with
      | none => 0
      | some f => pageAddress f + (a &&& 0xFFF) := by
  have entry {p : ℕ} {i : Fin 512} {q : List (Fin 512)} (h : has pagePresent (k.memory p i) = true) :
      walk child k.memory p (i :: q) =
        walk child k.memory (physicalToTable (k.memory p i)) q := by
    rw [walk, child_of_present h, Option.bind_some]
  have absent {p : ℕ} {i : Fin 512} {q : List (Fin 512)}
      (h : ¬has pagePresent (k.memory p i) = true) : walk child k.memory p (i :: q) = none := by
    rw [walk, child, if_neg h, Option.bind_none]
  rw [path]
  simp only [getPhysicalFrom, Bool.not_eq_true', Bool.eq_false_iff]
  by_cases h₁ : has pagePresent (k.memory r (pml4Index a)) = true
  swap
  · rw [absent h₁, if_pos h₁]
  have p₁ := hs.placed.below hr (by decide) (child_of_present h₁)
  rw [entry h₁, if_neg (not_not.mpr h₁)]
  by_cases h₂ : has pagePresent
      (k.memory (physicalToTable (k.memory r (pml4Index a))) (pdptIndex a)) = true
  swap
  · rw [absent h₂, if_pos h₂]
  have p₂ := hs.placed.below p₁ (by simp) (child_of_present h₂)
  rw [entry h₂, if_neg (not_not.mpr h₂)]
  by_cases h₃ : has pagePresent (k.memory (physicalToTable
      (k.memory (physicalToTable (k.memory r (pml4Index a))) (pdptIndex a))) (pdIndex a)) = true
  swap
  · rw [absent h₃, if_pos h₃]
  rw [entry h₃, if_neg (not_not.mpr h₃), hs.small p₂ (by simp), if_neg (by decide)]
  by_cases h₄ : has pagePresent (k.memory (physicalToTable (k.memory (physicalToTable
      (k.memory (physicalToTable (k.memory r (pml4Index a))) (pdptIndex a))) (pdIndex a)))
      (ptIndex a)) = true
  swap
  · rw [absent h₄, if_pos h₄]
  rw [entry h₄, if_neg (not_not.mpr h₄), walk, and_mask_eq]

theorem vmmUnmapPage_run (hs : Sound place k) (hr : place k.currentPml4 = some []) (va : Word) :
    ((vmmUnmapPage va).run k).2 =
      match walk child k.memory k.currentPml4 (upperPath va) with
      | none => k
      | some t => k.setEntry t (ptIndex va) 0 := by
  have run : (vmmUnmapPage va).run k = vmmUnmapPage va k := rfl
  rw [run]
  simp only [vmmUnmapPage, upperPath, walk, Bool.not_eq_true', Bool.eq_false_iff]
  by_cases h₁ : has pagePresent (k.memory k.currentPml4 (pml4Index va)) = true
  swap
  · rw [child, if_neg h₁, if_pos h₁]
    rfl
  have p₁ := hs.placed.below hr (by decide) (child_of_present h₁)
  rw [child_of_present h₁, if_neg (not_not.mpr h₁), Option.bind_some]
  by_cases h₂ : has pagePresent
      (k.memory (physicalToTable (k.memory k.currentPml4 (pml4Index va))) (pdptIndex va)) = true
  swap
  · rw [child, if_neg h₂, if_pos h₂]
    rfl
  have p₂ := hs.placed.below p₁ (by simp) (child_of_present h₂)
  rw [child_of_present h₂, if_neg (not_not.mpr h₂), Option.bind_some]
  by_cases h₃ : has pagePresent (k.memory (physicalToTable (k.memory
      (physicalToTable (k.memory k.currentPml4 (pml4Index va))) (pdptIndex va))) (pdIndex va)) = true
  swap
  · rw [child, if_neg h₃, if_pos h₃]
    rfl
  rw [child_of_present h₃, if_neg (not_not.mpr h₃), hs.small p₂ (by simp), if_neg (by decide)]
  rfl

theorem pagePath_off {p q : ℕ} (hp : p < 2^36) (hq : q < 2^36) (ne : p ≠ q) :
    ¬pagePath p <+: pagePath q := fun h => ne (pagePath_inj hp hq (h.eq_of_length rfl))

theorem pageOf_lt {va : Word} (h : va < 0x1000000000000) : pageOf va < 2^36 := by
  have := BitVec.lt_def.mp h
  simp only [BitVec.ofNat_eq_ofNat, BitVec.toNat_ofNat] at this
  simp only [pageOf]
  omega

theorem Refines.empty (h : Empty r s) : ∃ place, Refines r place s := by
  obtain ⟨k, k', h0, run, rfl⟩ := h
  rcases allocateTable_cases h0 with h | ⟨page, pos, lt, unused, _, h⟩
  · rw [h] at run
    cases run
  rw [h] at run
  cases run
  refine ⟨Function.update (fun _ => none) r (some []), ?_, Function.update_self _ _ _, rfl, ?_⟩
  · have first := Sound.first h0 pos lt
    exact ⟨first.placed, first.closed, first.small, first.used, first.page0⟩
  · intro p _
    simp only [Kernel.newTable, pagePath, walk, Function.update_self, child_zero, Option.bind_none]

theorem Refines.bound (h : Refines r place s) {va pa flags : Word}
    (ok : SpaceOp.Ok r s (.map va pa flags)) :
    (∃ place', Refines r place' (s.next r (.map va pa flags))) ∧
      ∀ f, s.map (pageOf va) = some f →
        ((mapPageIn r va pa flags).run s.kernel).1 = if f = pageOf pa then 0 else -6 := by
  obtain ⟨hv, ltv, hp, ltp, hfl⟩ := ok
  obtain ⟨result, place', k', run, step, grows, outcome⟩ :=
    mapPageIn_spec h.sound h.root va pa flags
  have lt := pageOf_lt ltv
  have frame : physicalToTable pa = pageOf pa := physicalToTable_aligned hp ltp
  have low := flags_low hfl
  have before : walk child s.kernel.memory r (path va) = s.map (pageOf va) := by
    rw [path_eq, h.map _ lt]
  have after : walk child k'.memory r (path va) =
      (s.map.bind va pa result) (pageOf va) ∧ ∀ f, s.map (pageOf va) = some f →
        result = if f = pageOf pa then 0 else -6 := by
    have kept {f : ℕ} (hw : walk child s.kernel.memory r (path va) = some f) :
        walk child k'.memory r (path va) = (s.map.bind va pa result) (pageOf va) := by
      rw [step.walk_keep h.sound h.root (by simp [path]) hw, PageMap.bind, if_neg, ← before, hw]
      rw [← before, hw]
      simp
    have free (hw : walk child s.kernel.memory r (path va) = none) {f : ℕ}
        (hf : s.map (pageOf va) = some f) : False := by
      rw [before, hf] at hw
      cases hw
    cases outcome with
    | unaligned un _ => rcases un with h | h <;> exact absurd (by assumption) h
    | noPage hc hb ha =>
      refine ⟨?_, fun f hf => (free hb hf).elim⟩
      rw [ha, PageMap.bind, if_neg, ← before, hb]
      rcases hc with rfl | rfl | rfl <;> simp
    | @conflict f hb ne =>
      refine ⟨kept hb, fun f' hf => ?_⟩
      rw [before, hf] at hb
      cases hb
      rw [if_neg (by rwa [frame] at ne)]
    | merged hb =>
      refine ⟨kept hb, fun f' hf => ?_⟩
      rw [before, hf] at hb
      cases hb
      rw [if_pos frame]
    | filled hb upper entry =>
      refine ⟨?_, fun f hf => (free hb hf).elim⟩
      rw [show path va = upperPath va ++ [ptIndex va] from rfl, walk_append, upper,
        Option.bind_some, walk, entry, child_leafEntry pa low, frame, PageMap.bind,
        if_pos ⟨before.symm.trans hb, rfl⟩, Function.update_self]
      rfl
  have next : s.next r (.map va pa flags) = ⟨k', s.map.bind va pa result⟩ := by
    simp only [AddressSpace.next, run]
  rw [next, run]
  refine ⟨⟨place', step.sound, step.keep h.root, ?_, ?_⟩, after.2⟩
  · rw [show k'.currentPml4 = s.kernel.currentPml4 by rw [step.statics]]
    exact h.current
  · intro p hp
    by_cases eq : p = pageOf va
    · rw [eq, ← path_eq]
      exact after.1
    · have off : ¬pagePath p <+: path va := by
        rw [path_eq]
        exact pagePath_off hp lt eq
      have other : (s.map.bind va pa result) p = s.map p := by
        rw [PageMap.bind]
        split_ifs
        · rw [Function.update_of_ne eq]
        · rfl
      change walk child k'.memory r (pagePath p) = (s.map.bind va pa result) p
      rw [other, ← h.map p hp]
      exact grows.walk_off h.sound.placed step.sound.placed h.root rfl off

theorem Refines.unbound (h : Refines r place s) {va : Word} (lt : va < 0x1000000000000) :
    Refines r place (s.next r (.unmap va)) := by
  have cur : place s.kernel.currentPml4 = some [] := by rw [h.current, h.root]
  have run := vmmUnmapPage_run h.sound cur va
  rw [h.current] at run
  have split : path va = upperPath va ++ [ptIndex va] := rfl
  cases hw : walk child s.kernel.memory r (upperPath va) with
  | none =>
    rw [hw] at run
    rw [show s.next r (.unmap va) = ⟨s.kernel, Function.update s.map (pageOf va) none⟩ by
      rw [AddressSpace.next, run]]
    refine ⟨h.sound, h.root, h.current, fun p hp => ?_⟩
    dsimp only
    by_cases eq : p = pageOf va
    · rw [eq, Function.update_self, ← path_eq, split, walk_append, hw]
      rfl
    · rw [Function.update_of_ne eq, h.map p hp]
  | some t =>
    rw [hw] at run
    rw [show s.next r (.unmap va) = ⟨s.kernel.setEntry t (ptIndex va) 0,
      Function.update s.map (pageOf va) none⟩ by rw [AddressSpace.next, run]]
    have ht := h.sound.placed.place_walk h.root (by simp [upperPath]) hw
    refine ⟨h.sound.clear _ ht rfl, h.root, h.current, fun p hp => ?_⟩
    simp only [Kernel.setEntry]
    by_cases eq : p = pageOf va
    · rw [eq, Function.update_self, ← path_eq, split, walk_append,
        h.sound.placed.walk_setEntry ht h.root (by simp [upperPath]) (fun hpre => by
          have := hpre.length_le
          simp [upperPath] at this), hw, Option.bind_some, walk, setEntry_self]
      rfl
    · rw [Function.update_of_ne eq, ← h.map p hp]
      refine h.sound.placed.walk_setEntry ht h.root (by simp [pagePath]) fun hpre => ?_
      have := hpre.eq_of_length rfl
      refine pagePath_off (pageOf_lt lt) hp (Ne.symm eq) ?_
      rw [← path_eq]
      exact hpre

theorem refines (h : SpaceReach r s) : ∃ place, Refines r place s := by
  refine h.invariant (fun s => Refines.empty) ?_
  rintro s t op - ⟨place, h⟩ ok rfl
  cases op with
  | map va pa flags => exact (h.bound ok).1
  | unmap va => exact ⟨place, h.unbound ok⟩
  | other k =>
    have root : ∀ q ∈ [r], place q = some [] := fun q hq => by
      rw [List.mem_singleton.mp hq, h.root]
    obtain ⟨place', hs, hr, _, hw⟩ := h.sound.others root ok
    refine ⟨place', hs, hr r (List.mem_singleton_self r), ?_, fun p hp => ?_⟩
    · rw [AddressSpace.next, show k.currentPml4 = s.kernel.currentPml4 by rw [ok.statics]]
      exact h.current
    · rw [AddressSpace.next, hw r (List.mem_singleton_self r) _ (by simp [pagePath])]
      exact h.map p hp

abbrev lowBits : Word := 0xFFFFFFFFFFFF

theorem path_low (a : Word) : path a = pagePath (pageOf (a &&& lowBits)) := by
  have low : (a &&& lowBits).toNat = a.toNat%2^48 := by
    rw [BitVec.toNat_and]
    exact Nat.and_two_pow_sub_one_eq_mod _ 48
  simp only [path_eq, pagePath, pageOf, low, List.cons.injEq, Fin.mk.injEq, and_true]
  omega

/-- At every point the tables give the value of the map, and a page that is bound can
only be bound again to its own page. -/
theorem pageTables_refine (h : SpaceReach r s) :
    (∀ a, getPhysicalFrom s.kernel.memory r a = s.map.value (a &&& lowBits)) ∧
    ∀ va pa flags, SpaceOp.Ok r s (.map va pa flags) → ∀ f, s.map (pageOf va) = some f →
      ((mapPageIn r va pa flags).run s.kernel).1 = if f = pageOf pa then 0 else -6 := by
  obtain ⟨place, inv⟩ := refines h
  refine ⟨fun a => ?_, fun va pa flags ok => (inv.bound ok).2⟩
  have lt : pageOf (a &&& lowBits) < 2^36 := by
    refine pageOf_lt (BitVec.lt_def.mpr ?_)
    rw [BitVec.toNat_and]
    exact lt_of_le_of_lt Nat.and_le_right (by decide)
  rw [getPhysicalFrom_eq inv.sound inv.root, path_low, inv.map _ lt, PageMap.value,
    BitVec.and_assoc, show lowBits &&& 0xFFF = (0xFFF : Word) by decide]

def bareKernel : Kernel where
  memory _ _ := 0
  pmm := ⟨fun p => p == 0, maxPages, 0xFFFFF, le_refl _⟩
  currentPml4 := 1
  kernelPml4 := 0
  kernelCr3 := 0
  cr3 := 0
  riruUserCr3 := 0
  heapUsed := 0
  heapTotal := 0

def bareSpace : AddressSpace := ⟨(allocateTable.run bareKernel).2, fun _ => none⟩

theorem bareSpace_reach : SpaceReach 1 bareSpace := by
  have run : allocateTable.run bareKernel = (some 1, (allocateTable.run bareKernel).2) := rfl
  exact .start ⟨bareKernel, _, rfl, run, rfl⟩

/-- Once page 1 is bound to page 5 it cannot be bound to page 6. -/
theorem pageTables_refine_bare :
    getPhysicalFrom (bareSpace.next 1 (.map 0x1000 0x5000 2)).kernel.memory 1 0x1234 = 0x5234 ∧
    ((mapPageIn 1 0x1000 0x6000 2).run (bareSpace.next 1 (.map 0x1000 0x5000 2)).kernel).1 =
      -6 := by
  have ok : SpaceOp.Ok 1 bareSpace (.map 0x1000 0x5000 2) := by
    unfold SpaceOp.Ok
    decide
  have reach : SpaceReach 1 (bareSpace.next 1 (.map 0x1000 0x5000 2)) :=
    .step bareSpace_reach ok rfl
  have bound : (bareSpace.next 1 (.map 0x1000 0x5000 2)).map 1 = some 5 := rfl
  have h := pageTables_refine reach
  refine ⟨?_, h.2 0x1000 0x6000 2 ?_ 5 bound⟩
  · rw [h.1]
    rfl
  · unfold SpaceOp.Ok
    decide

end TinyOS.Memory
