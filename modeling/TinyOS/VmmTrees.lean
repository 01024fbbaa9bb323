import TinyOS.LeafTrees
import TinyOS.VmmMap

set_option autoImplicit false

namespace TinyOS.Memory
open RadixTables LeafTrees

variable {r t c page : ℕ} {place place' : Places} {k k' : Kernel} {va pa flags e low : Word}
variable {l q : List (Fin 512)} {i : Fin 512} {d : ℕ} {tables : List ℕ}

structure Frame where
  large : Bool
  base : Word

def Frame.address (f : Frame) (va : Word) : Word :=
  f.base + (va &&& if f.large then 0x1FFFFF else 0xFFF)

def entrySlot (d : ℕ) (e : Word) : Link ℕ Frame :=
  if has pagePresent e then
    if d = 2 ∧ has hugePage e = true then .leaf ⟨true, e &&& 0x000FFFFFFFE00000⟩
    else if d < 3 then .table (physicalToTable e)
    else .leaf ⟨false, e &&& pageMask⟩
  else .absent

theorem entrySlot_absent : entrySlot d e = .absent ↔ child e = none := by
  rw [entrySlot, child]
  split_ifs <;> simp

theorem entrySlot_table : entrySlot d e = .table c ↔
    child e = some c ∧ d < 3 ∧ (d = 2 → has hugePage e = false) := by
  rw [entrySlot, child]
  by_cases present : has pagePresent e = true
  swap
  · rw [if_neg present, if_neg present]
    simp
  rw [if_pos present, if_pos present]
  by_cases huge : d = 2 ∧ has hugePage e = true
  · rw [if_pos huge]
    constructor
    · intro eq
      cases eq
    · rintro ⟨-, -, plain⟩
      rw [plain huge.1] at huge
      cases huge.2
  · rw [if_neg huge]
    rw [not_and, Bool.not_eq_true] at huge
    by_cases upper : d < 3
    · rw [if_pos upper]
      simp only [Link.table.injEq, Option.some.injEq]
      exact ⟨fun eq => ⟨eq, upper, huge⟩, fun h => h.1⟩
    · rw [if_neg upper]
      simp [upper]

theorem entrySlot_page (h : has pagePresent e = true) :
    entrySlot 3 e = .leaf ⟨false, e &&& pageMask⟩ := by
  rw [entrySlot, if_pos h, if_neg fun both => absurd both.1 (by decide), if_neg (by decide)]

/-- Permissions merged into a present entry do not change what it says. -/
theorem entrySlot_or (h : has pagePresent e = true) (mask : low &&& pageMask = 0)
    (huge : has hugePage low = false) : entrySlot d (e ||| low) = entrySlot d e := by
  have large : low &&& 0x000FFFFFFFE00000 = 0 := by
    have inside : (0x000FFFFFFFE00000 : Word) = pageMask &&& 0x000FFFFFFFE00000 := by decide
    rw [inside, ← BitVec.and_assoc, mask]
    exact BitVec.zero_and
  have present : has pagePresent (e ||| low) = true := by rw [has_or, h, Bool.true_or]
  have base : (e ||| low) &&& 0x000FFFFFFFE00000 = e &&& 0x000FFFFFFFE00000 := by
    rw [BitVec.and_or_distrib_right, large]
    exact BitVec.or_zero
  rw [entrySlot, entrySlot, if_pos present, if_pos h, has_or, huge, Bool.or_false, base,
    or_and_mask mask, physicalToTable, or_and_mask mask, ← physicalToTable]

theorem user_mask (flags : Word) : flags &&& pageUser &&& pageMask = 0 :=
  low_and_mask flags (by decide)

theorem user_plain (flags : Word) : has hugePage (flags &&& pageUser) = false :=
  has_and_of_disjoint flags (by decide)

theorem entrySlot_tableEntry (flags : Word) (lt : page < 2^40) (upper : d < 3) :
    entrySlot d (tableEntry page flags) = .table page := by
  have plain : has hugePage (tableEntry page flags) = false := by
    rw [has_tableEntry lt flags (by decide), user_plain]
    decide
  exact entrySlot_table.mpr ⟨child_tableEntry lt flags, upper, fun _ => plain⟩

theorem getPhysicalFrom_lookup (memory : ℕ → Fin 512 → Word) (r : ℕ) (va : Word) :
    getPhysicalFrom memory r va =
      ((lookup entrySlot memory 0 r (path va)).map fun f => f.address va).getD 0 := by
  have level {d p : ℕ} {i : Fin 512} {q : List (Fin 512)} {rest : Word} (upper : d < 3)
      (plain : d = 2 → has hugePage (memory p i) = false)
      (below : rest = ((lookup entrySlot memory (d+1) (physicalToTable (memory p i)) q).map
        fun f => f.address va).getD 0) :
      (if !has pagePresent (memory p i) then 0 else rest) =
        ((lookup entrySlot memory d p (i :: q)).map fun f => f.address va).getD 0 := by
    by_cases present : has pagePresent (memory p i) = true
    · rw [lookup_table (entrySlot_table.mpr ⟨child_of_present present, upper, plain⟩), present,
        below]
      rfl
    · rw [Bool.not_eq_true] at present
      rw [lookup_absent (entrySlot_absent.mpr (child_eq_none.mpr present)), present]
      rfl
  rw [getPhysicalFrom, path]
  refine level (by decide) (fun h => absurd h (by decide))
    (level (by decide) (fun h => absurd h (by decide)) ?_)
  generalize physicalToTable (memory (physicalToTable (memory r (pml4Index va)))
    (pdptIndex va)) = pd
  by_cases huge : has hugePage (memory pd (pdIndex va)) = true
  · by_cases present : has pagePresent (memory pd (pdIndex va)) = true
    · have leaf : entrySlot 2 (memory pd (pdIndex va)) =
          .leaf ⟨true, memory pd (pdIndex va) &&& 0x000FFFFFFFE00000⟩ := by
        rw [entrySlot, if_pos present, if_pos ⟨rfl, huge⟩]
      rw [lookup_leaf leaf, present, huge]
      rfl
    · rw [Bool.not_eq_true] at present
      rw [lookup_absent (entrySlot_absent.mpr (child_eq_none.mpr present)), present]
      rfl
  · rw [Bool.not_eq_true] at huge
    refine level (by decide) (fun _ => huge) ?_
    rw [huge]
    generalize physicalToTable (memory pd (pdIndex va)) = pt
    by_cases present : has pagePresent (memory pt (ptIndex va)) = true
    · rw [lookup_leaf (entrySlot_page present), present]
      rfl
    · rw [Bool.not_eq_true] at present
      rw [lookup_absent (entrySlot_absent.mpr (child_eq_none.mpr present)), present]
      rfl

theorem getPhysicalFrom_congr {memory memory' : ℕ → Fin 512 → Word}
    (same : lookup entrySlot memory' 0 r (path va) = lookup entrySlot memory 0 r (path va)) :
    getPhysicalFrom memory' r va = getPhysicalFrom memory r va := by
  rw [getPhysicalFrom_lookup, getPhysicalFrom_lookup, same]

/-- The tables stand in trees, none of them on a page that can be handed out. -/
structure PageTree (place : Places) (k : Kernel) : Prop where
  stands : Stands entrySlot place k.memory
  used : ∀ {p l}, place p = some l → p < k.pmm.totalPages → k.pmm.used p = true

/-- No page was found for a table; page 0 is lost when it was free, as its address counts as
a failure. -/
def NoTable (k k' : Kernel) : Prop :=
  k' = k ∨
    (0 < k.pmm.totalPages ∧ k.pmm.used 0 = false) ∧ k' = { k with pmm := k.pmm.take 0 }

theorem allocateTable_outcome (k : Kernel) :
    (∃ k', allocateTable.run k = (none, k') ∧ NoTable k k') ∨
    ∃ page, 0 < page ∧ page < k.pmm.totalPages ∧ k.pmm.used page = false ∧
      allocateTable.run k = (some page, k.newTable page) := by
  rw [allocateTable_run]
  cases found : firstFree k.pmm.used 0 k.pmm.totalPages with
  | none =>
    have none : pmmAllocPage k.pmm = (0, k.pmm) := by rw [pmmAllocPage, found]
    rw [none, if_pos rfl]
    exact .inl ⟨_, rfl, .inl rfl⟩
  | some page =>
    obtain ⟨-, lt, unused, -⟩ := firstFree_some found
    have taken : pmmAllocPage k.pmm = (pageAddress page, k.pmm.take page) := by
      rw [pmmAllocPage, found]
    have bound : k.pmm.totalPages ≤ 1048576 := k.pmm.total_le
    rw [taken]
    rcases Nat.eq_zero_or_pos page with rfl | pos
    · rw [if_pos (show pageAddress 0 = 0 by decide)]
      exact .inl ⟨_, rfl, .inr ⟨⟨by omega, unused⟩, rfl⟩⟩
    · have lt52 : page < 2^52 := by omega
      rw [if_neg (pageAddress_ne_zero pos lt52), pageOf_pageAddress lt52]
      exact .inr ⟨page, pos, by omega, unused, rfl⟩

theorem PageTree.page_unplaced (hs : PageTree place k) (within : page < k.pmm.totalPages)
    (unused : k.pmm.used page = false) : place page = none := by
  cases placed : place page with
  | none => rfl
  | some l =>
    rw [hs.used placed within] at unused
    cases unused

theorem Pmm.page_lt {s : Pmm} (within : page < s.totalPages) : page < 2^40 :=
  within.trans_le (s.total_le.trans (by decide))

theorem PageTree.install (hs : PageTree place k) (flags : Word) (ht : place t = some l) (lt : l.length < 3)
    (absent : child (k.memory t i) = none) (within : page < k.pmm.totalPages)
    (unused : k.pmm.used page = false) :
    Widened entrySlot place k.memory (Function.update place page (some (l ++ [i])))
      ((k.newTable page).setEntry t i (tableEntry page flags)).memory :=
  Widened.install hs.stands ht (entrySlot_absent.mpr absent) (hs.page_unplaced within unused)
    (entrySlot_tableEntry flags (Pmm.page_lt within) lt)
    fun _ => entrySlot_absent.mpr child_zero

/-- `PAGE_USER` has been merged into an entry, or the entry was absent and has got a table. -/
def Merged (flags : Word) (tables : List ℕ) (e e' : Word) : Prop :=
  has pagePresent e = true ∧ e' = e ||| (flags &&& pageUser) ∨
    has pagePresent e = false ∧ ∃ c ∈ tables, e' = tableEntry c flags

/-- A call has come along the indices `q`: entries of upper tables have changed on them, and
there are new tables, the last one first. -/
structure Spread (flags : Word) (q : List (Fin 512)) (place : Places) (k : Kernel)
    (place' : Places) (k' : Kernel) (tables : List ℕ) : Prop where
  used : ∀ {p l}, place' p = some l → p < k'.pmm.totalPages → k'.pmm.used p = true
  widened : Widened entrySlot place k.memory place' k'.memory
  entry : ∀ {p l} i, place p = some l → k'.memory p i = k.memory p i ∨
    (l ++ [i]) <+: q ∧ l.length < 3 ∧ Merged flags tables (k.memory p i) (k'.memory p i)
  new : ∀ c ∈ tables, ∀ i, k'.memory c i = 0 ∨ ∃ d ∈ tables, k'.memory c i = tableEntry d flags
  placed : ∀ {p l}, place' p = some l → place p = some l ∨ p ∈ tables
  others : ∀ {p}, place p = none → p ∉ tables → k'.memory p = k.memory p
  fresh : ∀ c ∈ tables, 0 < c ∧ c < k.pmm.totalPages ∧ k.pmm.used c = false
  nodup : tables.Nodup
  bits : ∀ p, k'.pmm.used p = (decide (p ∈ tables) || k.pmm.used p)
  free : k'.pmm.freePages = k.pmm.freePages - BitVec.ofNat 64 tables.length
  total : k'.pmm.totalPages = k.pmm.totalPages
  statics : k' = { k with memory := k'.memory, pmm := k'.pmm }

theorem Spread.refl (h : PageTree place k) : Spread flags q place k place k [] where
  used := h.used
  widened := .refl h.stands
  entry _ _ := .inl rfl
  new _ mem := absurd mem List.not_mem_nil
  placed hp := .inl hp
  others _ _ := rfl
  fresh _ mem := absurd mem List.not_mem_nil
  nodup := List.nodup_nil
  bits _ := by simp
  free := by simp
  total := rfl
  statics := rfl

theorem Spread.tree (h : Spread flags q place k place' k' tables) : PageTree place' k' :=
  ⟨h.widened.stands, h.used⟩

theorem Spread.unplaced (h : Spread flags q place k place' k' tables) (hs : PageTree place k)
    (mem : c ∈ tables) : place c = none := by
  obtain ⟨-, lt, unused⟩ := h.fresh c mem
  exact hs.page_unplaced lt unused

theorem Merged.mono {tables' : List ℕ} {e' : Word} (h : Merged flags tables e e')
    (sub : ∀ c ∈ tables, c ∈ tables') : Merged flags tables' e e' := by
  rcases h with present | ⟨absent, c, mem, eq⟩
  · exact .inl present
  · exact .inr ⟨absent, c, sub c mem, eq⟩

theorem tableEntry_merge (c : ℕ) (flags : Word) :
    tableEntry c flags ||| (flags &&& pageUser) = tableEntry c flags := by
  rw [tableEntry, BitVec.or_assoc, BitVec.or_self]

/-- Nothing has changed yet in the table that the indices lead to. -/
theorem Spread.entry_same (h : Spread flags l place k place' k' tables) (ht : place' t = some l)
    (hp : place t = some q) (i : Fin 512) : q = l ∧ k'.memory t i = k.memory t i := by
  obtain rfl : q = l := Option.some.inj ((h.widened.keep hp).symm.trans ht)
  refine ⟨rfl, ?_⟩
  rcases h.entry i hp with same | ⟨on, -⟩
  · exact same
  · have le := on.length_le
    rw [List.length_append, List.length_singleton] at le
    omega

theorem Spread.merge (h : Spread flags l place k place' k' tables)
    (ht : place' t = some l) (lt : l.length < 3)
    (present : has pagePresent (k'.memory t i) = true) :
    Spread flags (l ++ [i]) place k place'
      (k'.setEntry t i (k'.memory t i ||| (flags &&& pageUser))) tables where
  used := h.used
  widened := h.widened.trans (Widened.edit h.widened.stands ht
    (entrySlot_or present (user_mask flags) (user_plain flags)))
  entry := by
    intro p q j hp
    by_cases here : p = t ∧ j = i
    · obtain ⟨rfl, rfl⟩ := here
      obtain ⟨rfl, same⟩ := h.entry_same ht hp j
      simp only [Kernel.setEntry, setEntry_self]
      rw [same] at present ⊢
      exact .inr ⟨List.prefix_refl _, lt, .inl ⟨present, rfl⟩⟩
    · simp only [Kernel.setEntry]
      rw [setEntry_ne _ _ fun hp hj => here ⟨hp, hj⟩]
      rcases h.entry j hp with same | ⟨on, upper, merged⟩
      · exact .inl same
      · exact .inr ⟨on.trans (List.prefix_append _ _), upper, merged⟩
  new := by
    intro c mem j
    by_cases here : c = t ∧ j = i
    · obtain ⟨rfl, rfl⟩ := here
      simp only [Kernel.setEntry, setEntry_self]
      rcases h.new c mem j with zero | ⟨d, dmem, eq⟩
      · rw [zero] at present
        cases present
      · rw [eq, tableEntry_merge]
        exact .inr ⟨d, dmem, rfl⟩
    · simp only [Kernel.setEntry]
      rw [setEntry_ne _ _ fun hp hj => here ⟨hp, hj⟩]
      exact h.new c mem j
  placed := h.placed
  others := by
    intro p hp off
    simp only [Kernel.setEntry]
    rw [setEntry_table, h.others hp off]
    rintro rfl
    rcases h.placed ht with old | mem
    · rw [hp] at old
      cases old
    · exact off mem
  fresh := h.fresh
  nodup := h.nodup
  bits := h.bits
  free := h.free
  total := h.total
  statics := by
    rw [h.statics]
    rfl

theorem Spread.install (h : Spread flags l place k place' k' tables)
    (ht : place' t = some l) (lt : l.length < 3) (absent : child (k'.memory t i) = none)
    (pos : 0 < page) (within : page < k'.pmm.totalPages) (unused : k'.pmm.used page = false) :
    Spread flags (l ++ [i]) place k (Function.update place' page (some (l ++ [i])))
      ((k'.newTable page).setEntry t i (tableEntry page flags)) (page :: tables) := by
  have unplaced := h.tree.page_unplaced within unused
  have bits := h.bits page
  rw [unused] at bits
  have before := (Bool.or_eq_false_iff.mp bits.symm).2
  have outside : page ∉ tables := of_decide_eq_false (Bool.or_eq_false_iff.mp bits.symm).1
  have ne {p : ℕ} {m : List (Fin 512)} (hp : place' p = some m) : p ≠ page := by
    rintro rfl
    rw [unplaced] at hp
    cases hp
  have empty (j : Fin 512) :
      ((k'.newTable page).setEntry t i (tableEntry page flags)).memory page j = 0 := by
    simp only [Kernel.setEntry, Kernel.newTable]
    rw [setEntry_table _ _ _ (ne ht).symm, Function.update_self]
  have other {p : ℕ} {j : Fin 512} (here : ¬(p = t ∧ j = i)) (hp : p ≠ page) :
      ((k'.newTable page).setEntry t i (tableEntry page flags)).memory p j = k'.memory p j := by
    simp only [Kernel.setEntry, Kernel.newTable]
    rw [setEntry_ne _ _ fun hp hj => here ⟨hp, hj⟩, Function.update_of_ne hp]
  have linked : ((k'.newTable page).setEntry t i (tableEntry page flags)).memory t i =
      tableEntry page flags := setEntry_self _ _ _ _
  constructor
  · intro p m hp lt'
    rw [show ((k'.newTable page).setEntry t i (tableEntry page flags)).pmm.used p =
      (decide (p = page) || k'.pmm.used p) from take_used _ _ _]
    by_cases here : p = page
    · rw [decide_eq_true here, Bool.true_or]
    · rw [Function.update_of_ne here] at hp
      rw [h.used hp lt', Bool.or_true]
  · exact h.widened.trans (h.tree.install flags ht lt absent within unused)
  · intro p m j hp
    by_cases here : p = t ∧ j = i
    · obtain ⟨rfl, rfl⟩ := here
      obtain ⟨rfl, same⟩ := h.entry_same ht hp j
      rw [same] at absent
      rw [linked]
      exact .inr ⟨List.prefix_refl _, lt, .inr ⟨child_eq_none.mp absent, page, List.mem_cons_self, rfl⟩⟩
    · rw [other here (ne (h.widened.keep hp))]
      rcases h.entry j hp with same | ⟨on, upper, merged⟩
      · exact .inl same
      · exact .inr ⟨on.trans (List.prefix_append _ _), upper,
          merged.mono fun c => List.mem_cons_of_mem page⟩
  · intro c mem j
    rcases List.mem_cons.mp mem with rfl | older
    · exact .inl (empty j)
    · by_cases here : c = t ∧ j = i
      · obtain ⟨rfl, rfl⟩ := here
        exact .inr ⟨page, List.mem_cons_self, linked⟩
      · have old : c ≠ page := by
          rintro rfl
          exact outside older
        rw [other here old]
        rcases h.new c older j with zero | ⟨d, dmem, eq⟩
        · exact .inl zero
        · exact .inr ⟨d, List.mem_cons_of_mem page dmem, eq⟩
  · intro p m hp
    by_cases here : p = page
    · exact .inr (here ▸ List.mem_cons_self)
    · rw [Function.update_of_ne here] at hp
      exact (h.placed hp).imp_right (List.mem_cons_of_mem page)
  · intro p hp off
    rw [List.mem_cons, not_or] at off
    have away : p ≠ t := by
      rintro rfl
      rcases h.placed ht with old | mem
      · rw [hp] at old
        cases old
      · exact off.2 mem
    funext j
    rw [other (fun here => away here.1) off.1, h.others hp off.2]
  · intro c mem
    rcases List.mem_cons.mp mem with rfl | mem
    · exact ⟨pos, h.total ▸ within, before⟩
    · exact h.fresh c mem
  · exact List.nodup_cons.mpr ⟨outside, h.nodup⟩
  · intro p
    rw [show ((k'.newTable page).setEntry t i (tableEntry page flags)).pmm.used p =
      (decide (p = page) || k'.pmm.used p) from take_used _ _ _, h.bits p]
    simp only [List.mem_cons, Bool.decide_or, Bool.or_assoc]
  · have step : ((k'.newTable page).setEntry t i (tableEntry page flags)).pmm.freePages =
        k'.pmm.freePages - 1 := rfl
    rw [step, h.free, List.length_cons, BitVec.ofNat_add, BitVec.sub_sub]
    rfl
  · exact h.total
  · rw [h.statics]
    rfl

structure Descent (r : ℕ) (flags : Word) (l : List (Fin 512)) (t : ℕ) (place : Places) (k : Kernel)
    (place' : Places) (k' : Kernel) (tables : List ℕ) : Prop where
  spread : Spread flags l place k place' k' tables
  here : place' t = some l
  upto : tableAt entrySlot k'.memory 0 r l = some t
  kept : tableAt entrySlot k.memory 0 r l ≠ none → tables = []

/-- The next level is entered, or there is no page for a table. -/
theorem Descent.enter (h : Descent r flags l t place k place' k' tables) (hs : PageTree place k)
    (hr : place r = some []) (lt : l.length < 3)
    (plain : l.length = 2 → has hugePage (k'.memory t i) = false) :
    (∃ k'', (enterTable t i flags).run k' = (none, k'') ∧ NoTable k' k'') ∨
    ∃ c place'' k'' tables', (enterTable t i flags).run k' = (some c, k'') ∧
      Descent r flags (l ++ [i]) c place k place'' k'' tables' := by
  have reach {m : ℕ → Fin 512 → Word} {c : ℕ} (upto : tableAt entrySlot m 0 r l = some t)
      (link : entrySlot l.length (m t i) = .table c) :
      tableAt entrySlot m 0 r (l ++ [i]) = some c := by
    rw [tableAt_append, upto, Option.bind_some, Nat.zero_add, tableAt_table link]
    rfl
  have root := h.spread.widened.keep hr
  -- a table that was there before is found again, and none has been added above it
  have old (there : tableAt entrySlot k.memory 0 r (l ++ [i]) ≠ none) :
      tables = [] ∧ ∃ c, entrySlot l.length (k'.memory t i) = .table c := by
    obtain ⟨c, there⟩ := Option.ne_none_iff_exists'.mp there
    rw [tableAt_append] at there
    obtain ⟨t', first, last⟩ := Option.bind_eq_some_iff.mp there
    have again := h.spread.widened.tableAt_keep (q := l) hs.stands hr first
    obtain rfl : t' = t := Option.some.inj (again.symm.trans h.upto)
    have none := h.kept (by rw [first]; exact Option.some_ne_none _)
    refine ⟨none, ?_⟩
    obtain ⟨c', slot, -⟩ := tableAt_cons last
    rw [Nat.zero_add] at slot
    have placed : place t' = some l := by
      rcases h.spread.placed h.here with placed | mem
      · exact placed
      · rw [none] at mem
        exact absurd mem List.not_mem_nil
    rw [(h.spread.entry_same h.here placed i).2]
    exact ⟨c', slot⟩
  cases link : child (k'.memory t i) with
  | some c =>
    have present := (present_of_child link).1
    have slot := entrySlot_table.mpr ⟨link, lt, plain⟩
    have same := entrySlot_or (d := l.length) present (user_mask flags) (user_plain flags)
    have edit := Widened.edit h.spread.widened.stands h.here same
    refine .inr ⟨c, place', _, tables, enterTable_present link,
      h.spread.merge h.here lt present, h.spread.widened.stands h.here slot,
      reach (edit.tableAt_keep h.spread.widened.stands root h.upto) ?_, fun there => (old there).1⟩
    simp only [Kernel.setEntry, setEntry_self]
    rw [same, slot]
  | none =>
    rw [enterTable_absent link]
    rcases allocateTable_outcome k' with ⟨k'', run, lost⟩ | ⟨page, pos, within, unused, run⟩
    · rw [run]
      exact .inl ⟨k'', rfl, lost⟩
    · rw [run]
      have tree := h.spread.tree
      have widened := tree.install flags h.here lt link within unused
      refine .inr ⟨page, _, _, page :: tables, rfl,
        h.spread.install h.here lt link pos within unused, Function.update_self _ _ _,
        reach (widened.tableAt_keep tree.stands root h.upto) ?_, fun there => ?_⟩
      · simp only [Kernel.setEntry, setEntry_self]
        exact entrySlot_tableEntry flags (Pmm.page_lt within) lt
      · obtain ⟨-, c, full⟩ := old there
        rw [entrySlot_absent.mpr link] at full
        cases full

theorem Spread.mono {q' : List (Fin 512)} (h : Spread flags q place k place' k' tables)
    (sub : q <+: q') : Spread flags q' place k place' k' tables :=
  { h with
    entry := fun i hp => (h.entry i hp).imp_right fun both => ⟨both.1.trans sub, both.2⟩ }

/-- On the way to a table that was there before, none has been added. -/
theorem Descent.old (h : Descent r flags l t place k place' k' tables) (hs : PageTree place k)
    (hr : place r = some []) (old : place t ≠ none) : tables = [] := by
  refine h.kept ?_
  have back := h.spread.widened.tableAt_back (q := l) hs.stands hr h.upto old
  exact fun none => absurd (none.symm.trans back) (by simp)

/-- A new table has no huge page, and no page at all where only pages can be. -/
theorem Descent.huge (h : Descent r flags l t place k place' k' tables) (hs : PageTree place k)
    (hr : place r = some []) (huge : has hugePage (k'.memory t i) = true) : tables = [] := by
  refine h.old hs hr fun none => ?_
  rcases h.spread.placed h.here with placed | mem
  · rw [none] at placed
    cases placed
  rcases h.spread.new t mem i with zero | ⟨d, dmem, eq⟩
  · rw [zero] at huge
    cases huge
  · have lt := Pmm.page_lt (h.spread.fresh d dmem).2.1
    rw [eq, has_tableEntry lt flags (by decide), user_plain] at huge
    cases huge

theorem Descent.present (h : Descent r flags l t place k place' k' tables) (hs : PageTree place k)
    (hr : place r = some []) (last : l.length = 3)
    (present : has pagePresent (k'.memory t i) = true) : tables = [] := by
  refine h.old hs hr fun none => ?_
  rcases h.spread.widened.fresh i none h.here with absent | ⟨c, link, -⟩
  · rw [entrySlot_absent, child_of_present present] at absent
    cases absent
  · have upper := (entrySlot_table.mp link).2.1
    omega

inductive MapOutcome (r : ℕ) (va pa flags : Word) (place : Places) (k k' : Kernel) : ℤ → Prop where
  | unaligned (same : k' = k) : MapOutcome r va pa flags place k k' (-1)
  | full {code : ℤ} {place₁ : Places} {k₁ : Kernel} {tables : List ℕ}
      (h : code = -2 ∧ k₁ = k ∧ tables = [] ∨ code = -3 ∨ code = -5)
      (spread : Spread flags (upperPath va) place k place₁ k₁ tables) (lost : NoTable k₁ k') :
      MapOutcome r va pa flags place k k' code
  | huge {place' : Places} (spread : Spread flags (upperPath va) place k place' k' []) :
      MapOutcome r va pa flags place k k' (-4)
  | conflict {place' : Places} (spread : Spread flags (upperPath va) place k place' k' []) :
      MapOutcome r va pa flags place k k' (-6)
  | merged {t : ℕ} {place₁ : Places} {k₁ : Kernel} {tables : List ℕ}
      (descent : Descent r flags (upperPath va) t place k place₁ k₁ tables)
      (present : has pagePresent (k₁.memory t (ptIndex va)) = true)
      (frame : k₁.memory t (ptIndex va) &&& pageMask = pa &&& pageMask)
      (eq : k' = k₁.setEntry t (ptIndex va)
        (k₁.memory t (ptIndex va) ||| (flags &&& (pageUser ||| pageWritable)))) :
      MapOutcome r va pa flags place k k' 0
  | filled {t : ℕ} {place₁ : Places} {k₁ : Kernel} {tables : List ℕ}
      (descent : Descent r flags (upperPath va) t place k place₁ k₁ tables)
      (eq : k' = k₁.setEntry t (ptIndex va) (leafEntry pa flags)) :
      MapOutcome r va pa flags place k k' 0

theorem mapPageIn_outcome (hs : PageTree place k) (hr : place r = some []) (va pa flags : Word) :
    ∃ code k', (mapPageIn r va pa flags).run k = (code, k') ∧
      MapOutcome r va pa flags place k k' code := by
  by_cases hv : va &&& (pageSize - 1) = 0
  swap
  · exact ⟨_, k, mapPageIn_unaligned (.inl hv), .unaligned rfl⟩
  by_cases hp : pa &&& (pageSize - 1) = 0
  swap
  · exact ⟨_, k, mapPageIn_unaligned (.inr hp), .unaligned rfl⟩
  rw [mapPageIn_aligned hv hp]
  have start : Descent r flags [] r place k place k [] := ⟨.refl hs, hr, rfl, fun _ => rfl⟩
  rcases start.enter (i := pml4Index va) hs hr (by decide) (fun h => by cases h) with
    ⟨k', run, lost⟩ | ⟨pdpt, place₁, k₁, tables₁, run, h₁⟩
  · rw [run]
    exact ⟨_, k', rfl, .full (.inl ⟨rfl, rfl, rfl⟩) (.refl hs) lost⟩
  rw [run]
  dsimp only
  rcases h₁.enter (i := pdptIndex va) hs hr (by simp) (fun h => by cases h) with
    ⟨k', run, lost⟩ | ⟨pd, place₂, k₂, tables₂, run, h₂⟩
  · rw [run]
    exact ⟨_, k', rfl, .full (.inr (.inl rfl)) (h₁.spread.mono ⟨_, rfl⟩) lost⟩
  rw [run]
  dsimp only
  by_cases huge : has hugePage (k₂.memory pd (pdIndex va)) = true
  · rw [if_pos huge]
    obtain rfl := h₂.huge hs hr huge
    exact ⟨_, k₂, rfl, .huge (h₂.spread.mono ⟨_, rfl⟩)⟩
  rw [if_neg huge]
  rw [Bool.not_eq_true] at huge
  rcases h₂.enter (i := pdIndex va) hs hr (by simp) (fun _ => huge) with
    ⟨k', run, lost⟩ | ⟨pt, place₃, k₃, tables₃, run, h₃⟩
  · rw [run]
    exact ⟨_, k', rfl, .full (.inr (.inr rfl)) (h₂.spread.mono ⟨_, rfl⟩) lost⟩
  rw [run]
  dsimp only
  by_cases present : has pagePresent (k₃.memory pt (ptIndex va)) = true
  · rw [if_pos present]
    by_cases same : k₃.memory pt (ptIndex va) &&& pageMask = pa &&& pageMask
    · rw [if_pos same]
      exact ⟨_, _, rfl, .merged h₃ present same rfl⟩
    · rw [if_neg same]
      obtain rfl := h₃.present hs hr rfl present
      exact ⟨_, k₃, rfl, .conflict h₃.spread⟩
  · rw [if_neg present]
    exact ⟨_, _, rfl, .filled h₃ rfl⟩

end TinyOS.Memory
