import TinyOS.VmmTrees

set_option autoImplicit false

namespace TinyOS.Memory
open RadixTables LeafTrees

variable {r : ℕ} {place place' : Places} {k k' k'' : Kernel} {va pa flags : Word} {code : ℤ}
variable {q : List (Fin 512)} {tables pages : List ℕ}

/-- A call has failed and taken the pages: no address of any address space has another
translation, and only upper entries on the way have changed. -/
structure MapFailed (va flags : Word) (place : Places) (k k' : Kernel) (pages : List ℕ) : Prop where
  translations : ∀ ⦃s⦄, place s = some [] → ∀ a,
    getPhysicalFrom k'.memory s a = getPhysicalFrom k.memory s a
  leaves : ∀ ⦃p l⦄, place p = some l → l.length = 3 → k'.memory p = k.memory p
  entry : ∀ ⦃p l⦄ i, place p = some l → k'.memory p i = k.memory p i ∨
    (l ++ [i]) <+: upperPath va ∧ Merged flags pages (k.memory p i) (k'.memory p i)
  new : ∀ c ∈ pages, c ≠ 0 → ∀ i, k'.memory c i = 0 ∨
    ∃ d ∈ pages, k'.memory c i = tableEntry d flags
  others : ∀ ⦃p⦄, place p = none → p ∉ pages ∨ p = 0 → k'.memory p = k.memory p
  unused : ∀ c ∈ pages, c < k.pmm.totalPages ∧ k.pmm.used c = false
  nodup : pages.Nodup
  bits : ∀ p, k'.pmm.used p = (decide (p ∈ pages) || k.pmm.used p)
  free : k'.pmm.freePages = k.pmm.freePages - BitVec.ofNat 64 pages.length
  statics : k' = { k with memory := k'.memory, pmm := k'.pmm }

theorem Spread.leaf_same (h : Spread flags q place k place' k' tables) {p : ℕ}
    {l : List (Fin 512)} (hp : place p = some l) (last : l.length = 3) :
    k'.memory p = k.memory p := by
  funext i
  rcases h.entry i hp with same | ⟨-, upper, -⟩
  · exact same
  · omega

theorem Spread.failed (h : Spread flags (upperPath va) place k place' k' tables)
    (hs : PageTree place k) : MapFailed va flags place k k' tables where
  translations := by
    intro s hp a
    exact getPhysicalFrom_congr (h.widened.lookup_eq (q := path a) hs.stands hp)
  leaves _ _ := h.leaf_same
  entry _ _ i hp := (h.entry i hp).imp_right fun both => ⟨both.1, both.2.2⟩
  new c mem _ := h.new c mem
  others := by
    intro p hp off
    refine h.others hp fun mem => ?_
    rcases off with off | rfl
    · exact off mem
    · exact absurd (h.fresh 0 mem).1 (lt_irrefl 0)
  unused c mem := (h.fresh c mem).2
  nodup := h.nodup
  bits := h.bits
  free := h.free
  statics := h.statics

theorem MapFailed.lose (h : MapFailed va flags place k k' tables) (zero : 0 ∉ tables)
    (unused : k'.pmm.used 0 = false) (within : 0 < k.pmm.totalPages) :
    MapFailed va flags place k { k' with pmm := k'.pmm.take 0 } (0 :: tables) where
  translations := h.translations
  leaves := h.leaves
  entry := by
    intro p l i hp
    rcases h.entry i hp with same | ⟨on, merged⟩
    · exact .inl same
    · exact .inr ⟨on, merged.mono fun c => List.mem_cons_of_mem 0⟩
  new := by
    intro c mem ne i
    rcases List.mem_cons.mp mem with rfl | mem
    · exact absurd rfl ne
    · rcases h.new c mem ne i with zero | ⟨d, dmem, eq⟩
      · exact .inl zero
      · exact .inr ⟨d, List.mem_cons_of_mem 0 dmem, eq⟩
  others := by
    intro p hp off
    refine h.others hp ?_
    rcases off with off | rfl
    · exact .inl fun mem => off (List.mem_cons_of_mem 0 mem)
    · exact .inr rfl
  unused := by
    intro c mem
    rcases List.mem_cons.mp mem with rfl | mem
    · have bits := h.bits 0
      rw [unused] at bits
      exact ⟨within, (Bool.or_eq_false_iff.mp bits.symm).2⟩
    · exact h.unused c mem
  nodup := List.nodup_cons.mpr ⟨zero, h.nodup⟩
  bits := by
    intro p
    rw [take_used, h.bits p]
    simp only [List.mem_cons, Bool.decide_or, Bool.or_assoc]
  free := by
    have step : (k'.pmm.take 0).freePages = k'.pmm.freePages - 1 := rfl
    rw [step, h.free, List.length_cons, BitVec.ofNat_add, BitVec.sub_sub]
    rfl
  statics := by
    rw [h.statics]

/-- What a failed call leaves. The code -1 changes nothing, -2 at most the bit of page 0, and
-4 and -6 take no page. -/
theorem mapPageIn_failed (hs : PageTree place k) (hr : place r = some [])
    (run : (mapPageIn r va pa flags).run k = (code, k')) (failed : code ≠ 0) :
    ∃ pages, MapFailed va flags place k k' pages ∧ (code = -1 → k' = k) ∧
      (code = -2 → k'.memory = k.memory ∧ ∀ c ∈ pages, c = 0) ∧
      (code = -4 ∨ code = -6 → pages = []) := by
  obtain ⟨code', k'', run', outcome⟩ := mapPageIn_outcome hs hr va pa flags
  obtain ⟨rfl, rfl⟩ := Prod.mk.inj (run'.symm.trans run)
  cases outcome with
  | unaligned same =>
    subst same
    have same : Spread flags (upperPath va) place k'' place k'' [] := .refl hs
    exact ⟨[], same.failed hs, fun _ => rfl, fun h => absurd h (by decide), fun _ => rfl⟩
  | huge spread =>
    exact ⟨[], spread.failed hs, fun h => absurd h (by decide), fun h => absurd h (by decide),
      fun _ => rfl⟩
  | conflict spread =>
    exact ⟨[], spread.failed hs, fun h => absurd h (by decide), fun h => absurd h (by decide),
      fun _ => rfl⟩
  | merged => exact absurd rfl failed
  | filled => exact absurd rfl failed
  | @full _ place₁ k₁ tables h spread lost =>
    have other : code' ≠ -1 ∧ ¬(code' = -4 ∨ code' = -6) := by
      rcases h with ⟨rfl, -⟩ | rfl | rfl <;> decide
    have first (two : code' = -2) : k₁ = k ∧ tables = [] := by
      rcases h with ⟨-, same⟩ | rfl | rfl
      · exact same
      · cases two
      · cases two
    have before := spread.failed hs
    rcases lost with rfl | ⟨⟨within, unused⟩, rfl⟩
    · refine ⟨tables, before, fun h => absurd h other.1, fun two => ?_, fun h => absurd h other.2⟩
      obtain ⟨rfl, rfl⟩ := first two
      exact ⟨rfl, fun c mem => absurd mem List.not_mem_nil⟩
    · rw [spread.total] at within
      have zero : 0 ∉ tables := fun mem => absurd (spread.fresh 0 mem).1 (lt_irrefl 0)
      refine ⟨0 :: tables, before.lose zero unused within, fun h => absurd h other.1,
        fun two => ?_, fun h => absurd h other.2⟩
      obtain ⟨rfl, rfl⟩ := first two
      exact ⟨rfl, fun c mem => List.mem_singleton.mp mem⟩

/-- Page 1 is a PML4 with one entry, page 2 the table below it; no page is free. -/
def fullKernel : Kernel where
  memory := fun p i => if p = 1 ∧ i = 0 then 0x2003 else 0
  pmm := ⟨fun _ => true, 3, 0, by decide⟩
  currentPml4 := 1
  kernelPml4 := 1
  kernelCr3 := 0x1000
  cr3 := 0x1000
  riruUserCr3 := 0
  heapUsed := 0
  heapTotal := 0

def fullPlaces : Places := fun p => if p = 1 then some [] else if p = 2 then some [0] else none

theorem fullKernel_tree : PageTree fullPlaces fullKernel where
  stands := by
    intro p l i c hp link
    rw [fullPlaces] at hp
    split_ifs at hp with one two
    · subst one
      obtain rfl := Option.some.inj hp
      by_cases first : i = 0
      · subst first
        obtain ⟨here, -⟩ := entrySlot_table.mp link
        obtain rfl : 2 = c := Option.some.inj (here.symm.trans (by decide)).symm
        rfl
      · rw [show fullKernel.memory 1 i = 0 from if_neg fun both => first both.2] at link
        cases link
    · rw [show fullKernel.memory p i = 0 from if_neg fun both => one both.1] at link
      cases link
  used _ _ := rfl

theorem fullKernel_run : ∃ k', (mapPageIn 1 0 0 pageUser).run fullKernel = (-3, k') ∧
    k'.memory 1 0 = 0x2007 := by
  have first : child (fullKernel.memory 1 (pml4Index 0)) = some 2 := by decide
  have second : child ((fullKernel.setEntry 1 (pml4Index 0) 0x2007).memory 2 (pdptIndex 0)) =
    none := by decide
  have none : allocateTable.run (fullKernel.setEntry 1 (pml4Index 0) 0x2007) =
      (none, fullKernel.setEntry 1 (pml4Index 0) 0x2007) := by
    rcases allocateTable_cases (k := fullKernel.setEntry 1 (pml4Index 0) 0x2007) rfl with
      none | ⟨page, -, -, unused, -⟩
    · exact none
    · cases unused
  refine ⟨fullKernel.setEntry 1 (pml4Index 0) 0x2007, ?_, by decide⟩
  rw [mapPageIn_aligned (by decide) (by decide), enterTable_present first,
    show fullKernel.memory 1 (pml4Index 0) ||| (pageUser &&& pageUser) = 0x2007 by decide]
  dsimp only
  rw [enterTable_absent second, none]

def scarceKernel : Kernel :=
  { fullKernel with memory := fun _ _ => 0, pmm := ⟨fun p => p != 2, 3, 1, by decide⟩ }

def scarcePlaces : Places := fun p => if p = 1 then some [] else none

theorem scarceKernel_tree : PageTree scarcePlaces scarceKernel where
  stands := by
    intro p l i c hp link
    rw [show scarceKernel.memory p i = 0 from rfl] at link
    cases link
  used := by
    intro p l hp _
    rw [scarcePlaces] at hp
    split_ifs at hp with one
    rw [one]
    rfl

theorem scarceKernel_run : ∃ k', (mapPageIn 1 0 0 0).run scarceKernel = (-3, k') ∧
    k'.pmm.freePages = 0 := by
  have alloc : allocateTable.run scarceKernel = (some 2, scarceKernel.newTable 2) := by
    rw [allocateTable_run, pmmAllocPage_of (show 2 < 3 by decide) rfl fun q lt =>
      bne_iff_ne.mpr (Nat.ne_of_lt lt)]
    rfl
  have absent : child (((scarceKernel.newTable 2).setEntry 1 (pml4Index 0)
      (tableEntry 2 0)).memory 2 (pdptIndex 0)) = none := by decide
  have none : allocateTable.run ((scarceKernel.newTable 2).setEntry 1 (pml4Index 0)
      (tableEntry 2 0)) = (none, (scarceKernel.newTable 2).setEntry 1 (pml4Index 0)
        (tableEntry 2 0)) := by
    have used (p : ℕ) : ((scarceKernel.newTable 2).setEntry 1 (pml4Index 0)
        (tableEntry 2 0)).pmm.used p = true := by
      rw [show ((scarceKernel.newTable 2).setEntry 1 (pml4Index 0) (tableEntry 2 0)).pmm.used p =
        (decide (p = 2) || p != 2) from take_used _ _ _]
      by_cases two : p = 2
      · rw [decide_eq_true two, Bool.true_or]
      · rw [bne_iff_ne.mpr two, Bool.or_true]
    rcases allocateTable_cases (used 0) with none | ⟨page, -, -, unused, -⟩
    · exact none
    · rw [used page] at unused
      cases unused
  refine ⟨(scarceKernel.newTable 2).setEntry 1 (pml4Index 0) (tableEntry 2 0), ?_, rfl⟩
  rw [mapPageIn_aligned (by decide) (by decide), enterTable_absent child_zero, alloc]
  dsimp only
  rw [enterTable_absent absent, none]

theorem mapPageIn_not_atomic :
    (¬∀ (r : ℕ) (place : Places) (k k' : Kernel) (va pa flags : Word) (code : ℤ),
      PageTree place k → place r = some [] →
      (mapPageIn r va pa flags).run k = (code, k') → code ≠ 0 →
      ∀ p l, place p = some l → k'.memory p = k.memory p) ∧
    ¬∀ (r : ℕ) (place : Places) (k k' : Kernel) (va pa flags : Word) (code : ℤ),
      PageTree place k → place r = some [] →
      (mapPageIn r va pa flags).run k = (code, k') → code ≠ 0 → k'.pmm = k.pmm := by
  constructor
  · intro all
    obtain ⟨k', run, merged⟩ := fullKernel_run
    have same := all 1 fullPlaces _ _ _ _ _ _ fullKernel_tree rfl run (by decide) 1 [] rfl
    rw [same] at merged
    exact absurd merged (by decide)
  · intro all
    obtain ⟨k', run, taken⟩ := scarceKernel_run
    have same := all 1 scarcePlaces _ _ _ _ _ _ scarceKernel_tree rfl run (by decide)
    rw [same] at taken
    exact absurd taken (by decide)

theorem mapPageIn_failed_full : ∃ k' pages, k'.memory 1 0 = 0x2007 ∧
    MapFailed 0 pageUser fullPlaces fullKernel k' pages := by
  obtain ⟨k', run, merged⟩ := fullKernel_run
  obtain ⟨pages, failed, -⟩ := mapPageIn_failed fullKernel_tree rfl run (by decide)
  exact ⟨k', pages, merged, failed⟩

end TinyOS.Memory
