import TinyOS.PmmInit
import TinyOS.StateRuns

set_option autoImplicit false

namespace TinyOS.Memory
open StateRuns

inductive PmmOp where
  | allocPage
  | allocPages (count : Word)
  | freePage (address : Word)

structure PmmState where
  pmm : Pmm
  owned : Finset ℕ

def PmmOp.count : PmmOp → ℕ
  | .allocPage => 1
  | .allocPages count => count.toNat
  | .freePage _ => 0

/-- The address returned, 0 from `pmm_free_page`, and the allocator after the call. -/
def PmmOp.run (s : Pmm) : PmmOp → Word × Pmm
  | .allocPage => pmmAllocPage s
  | .allocPages count => pmmAllocPages s count
  | .freePage address => (0, pmmFreePage s address)

def runPages (address : Word) (count : ℕ) : Finset ℕ :=
  Finset.Ico (pageOf address) (pageOf address+count)

def PmmState.next (s : PmmState) (op : PmmOp) : PmmState where
  pmm := (op.run s.pmm).2
  owned :=
    match op with
    | .freePage address => s.owned.erase (pageOf address)
    | _ => if (op.run s.pmm).1 = 0 then s.owned
      else s.owned ∪ runPages (op.run s.pmm).1 op.count

def PmmOp.Ok (s : PmmState) : PmmOp → Prop
  | .freePage address => pageOf address ∈ s.owned ∧ address = pageAddress (pageOf address)
  | _ => True

abbrev PmmReach (start : Pmm) : PmmState → Prop :=
  Reach (fun s => s = ⟨start, ∅⟩) (fun op s t => t = s.next op) PmmOp.Ok

/-- A page is used when it was reserved at the start or is held, never both. -/
structure Accounted (start : Pmm) (s : PmmState) : Prop where
  counted : s.pmm.Counted
  total : s.pmm.totalPages = maxPages
  used : ∀ p, s.pmm.used p = true ↔ start.used p = true ∨ p ∈ s.owned
  apart : ∀ p, p ∈ s.owned → start.used p = false
  owned_lt : ∀ p, p ∈ s.owned → 0 < p ∧ p < maxPages

/-- What an allocation returns: 0 with nothing changed, or a run of pages nobody has. -/
inductive Allocation (start : Pmm) (s : PmmState) (op : PmmOp) : Prop where
  | failed (h : op.run s.pmm = (0, s.pmm))
  | run (first : ℕ) (pos : 0 < first) (asked : 0 < op.count) (le : first+op.count ≤ maxPages)
      (free : ∀ p, first ≤ p → p < first+op.count → p ∉ s.owned ∧ start.used p = false)
      (h : op.run s.pmm = (pageAddress first, s.pmm.takeRun first op.count))

variable {start : Pmm} {s : PmmState} {op : PmmOp}

theorem Accounted.page0 (h : Accounted start s) (h0 : start.used 0 = true) :
    s.pmm.used 0 = true := (h.used 0).mpr (.inl h0)

theorem Accounted.free (h : Accounted start s) {p : ℕ} (hp : s.pmm.used p = false) :
    p ∉ s.owned ∧ start.used p = false := by
  constructor
  · intro hm
    rw [(h.used p).mpr (.inr hm)] at hp
    cases hp
  · by_contra hu
    rw [(h.used p).mpr (.inl (Bool.not_eq_false _ ▸ hu))] at hp
    cases hp

theorem Accounted.allocation (h : Accounted start s) (h0 : start.used 0 = true)
    (alloc : ∀ address, op ≠ .freePage address) : Allocation start s op := by
  cases op with
  | freePage address => exact absurd rfl (alloc address)
  | allocPage =>
    rcases pmmAllocPage_cases (h.page0 h0) with run | ⟨page, pos, lt, free, -, run⟩
    · exact .failed run
    · rw [h.total] at lt
      rw [take_eq_takeRun] at run
      refine .run page pos (by simp [PmmOp.count]) lt (fun p hl hr => ?_) run
      simp only [PmmOp.count] at hr
      exact h.free (by rw [show p = page by omega, free])
  | allocPages count =>
    rcases pmmAllocPages_cases (h.page0 h0) count with run | ⟨first, pos, asked, le, free, run⟩
    · exact .failed run
    · rw [h.total] at le
      exact .run first pos asked le (fun p hl hr => h.free (free p hl hr)) run

theorem Accounted.initial (hs : Marked start) :
    Accounted start ⟨start, ∅⟩ where
  counted := hs.counted
  total := hs.total
  used p := by simp
  apart p hp := absurd hp (Finset.notMem_empty p)
  owned_lt p hp := absurd hp (Finset.notMem_empty p)

theorem Accounted.take (h : Accounted start s) {first count : ℕ} (pos : 0 < first)
    (le : first+count ≤ maxPages)
    (free : ∀ p, first ≤ p → p < first+count → p ∉ s.owned ∧ start.used p = false) :
    Accounted start ⟨s.pmm.takeRun first count, s.owned ∪ Finset.Ico first (first+count)⟩ where
  counted := by
    refine h.counted.takeRun le fun p hl hr => ?_
    obtain ⟨hm, hu⟩ := free p hl hr
    by_contra hp
    rcases (h.used p).mp (Bool.not_eq_false _ ▸ hp) with hp | hp
    · rw [hu] at hp
      cases hp
    · exact hm hp
  total := h.total
  used p := by
    simp only [Pmm.takeRun, Bool.or_eq_true, decide_eq_true_eq, h.used, Finset.mem_union,
      Finset.mem_Ico]
    tauto
  apart p hp := by
    rcases Finset.mem_union.mp hp with hp | hp
    · exact h.apart p hp
    · obtain ⟨hl, hr⟩ := Finset.mem_Ico.mp hp
      exact (free p hl hr).2
  owned_lt p hp := by
    rcases Finset.mem_union.mp hp with hp | hp
    · exact h.owned_lt p hp
    · obtain ⟨hl, hr⟩ := Finset.mem_Ico.mp hp
      exact ⟨by omega, by omega⟩

theorem pageAddress_lt {page : ℕ} (lt : page < 1048576) : pageAddress page < maxPhysicalMemory := by
  rw [BitVec.lt_def, pageAddress_toNat (by omega)]
  simp only [BitVec.ofNat_eq_ofNat, BitVec.toNat_ofNat]
  omega

theorem pmmFreePage_pageAddress {t : Pmm} {page : ℕ} (pos : 0 < page) (lt : page < 1048576)
    (used : t.used page = true) : pmmFreePage t (pageAddress page) = t.give page := by
  rw [pmmFreePage, if_neg (pageAddress_ne_zero pos (by omega)),
    if_neg (BitVec.not_le.mpr (pageAddress_lt lt)), if_neg (not_not.mpr (pageAddress_aligned page)),
    pageOf_pageAddress (by omega), if_pos used]

theorem Accounted.give (h : Accounted start s) {page : ℕ} (held : page ∈ s.owned) :
    Accounted start ⟨s.pmm.give page, s.owned.erase page⟩ where
  counted := h.counted.give (h.owned_lt page held).2 ((h.used page).mpr (.inr held))
  total := h.total
  used p := by
    rw [Pmm.give, Finset.mem_erase]
    dsimp only
    rw [Function.update_apply]
    by_cases eq : p = page
    · simp [eq, h.apart page held]
    · simp [eq, h.used p]
  apart p hp := h.apart p (Finset.mem_of_mem_erase hp)
  owned_lt p hp := h.owned_lt p (Finset.mem_of_mem_erase hp)

theorem Accounted.next (h : Accounted start s) (h0 : start.used 0 = true) (ok : op.Ok s) :
    Accounted start (s.next op) := by
  have allocated (alloc : ∀ address, op ≠ .freePage address) : Accounted start (s.next op) := by
    have owned : (s.next op).owned = if (op.run s.pmm).1 = 0 then s.owned
        else s.owned ∪ runPages (op.run s.pmm).1 op.count := by
      cases op with
      | freePage address => exact absurd rfl (alloc address)
      | _ => rfl
    have pmm : (s.next op).pmm = (op.run s.pmm).2 := rfl
    rw [show s.next op = ⟨(s.next op).pmm, (s.next op).owned⟩ from rfl, owned, pmm]
    rcases h.allocation h0 alloc with run | ⟨first, pos, asked, le, free, run⟩
    · rw [run, if_pos rfl]
      exact h
    · have lt52 : first < 2^52 := by
        have : maxPages = 1048576 := rfl
        omega
      rw [run, if_neg (pageAddress_ne_zero pos lt52), runPages, pageOf_pageAddress lt52]
      exact h.take pos le free
  cases op with
  | allocPage => exact allocated fun _ => nofun
  | allocPages count => exact allocated fun _ => nofun
  | freePage address =>
    obtain ⟨held, eq⟩ := ok
    obtain ⟨pos, lt⟩ := h.owned_lt _ held
    have run : pmmFreePage s.pmm address = s.pmm.give (pageOf address) := by
      rw [eq, pmmFreePage_pageAddress pos lt ((h.used _).mpr (.inr held)),
        pageOf_pageAddress (lt.trans (by decide))]
    rw [PmmState.next, PmmOp.run, run]
    exact h.give held

theorem PmmReach.accounted (hs : Initialised start) (h : PmmReach start s) : Accounted start s := by
  obtain ⟨marked, h0⟩ := hs.marked
  refine h.invariant (fun s hs => hs ▸ .initial marked) ?_
  rintro s t op - h ok rfl
  exact h.next h0 ok

/-- The counter is right, and no page is handed out that is held or reserved. -/
theorem allocations_apart (hs : Initialised start) (h : PmmReach start s) :
    s.pmm.freePages = BitVec.ofNat 64 s.pmm.clear.card ∧
    ∀ op, (∀ address, op ≠ .freePage address) → Allocation start s op := by
  have inv := h.accounted hs
  exact ⟨inv.counted, fun op => inv.allocation hs.marked.2⟩

/-- An information block at 0x10000 with one available region, the four pages from
0x200000 on. -/
def smallInfo (a : Word) : BitVec 8 :=
  [48, 0, 0, 0, 0, 0, 0, 0, 6, 0, 0, 0, 40, 0, 0, 0, 24, 0, 0, 0, 0, 0, 0, 0,
    0, 0, 32, 0, 0, 0, 0, 0, 0, 64, 0, 0, 0, 0, 0, 0, 1, 0, 0, 0, 0, 0, 0, 0].getD
    (a - 0x10000).toNat 0

def smallLayout : Layout := ⟨0x100000, 0x102000, 0xFD000000, 0x1000⟩

theorem smallInit : (pmmInit 4 smallLayout smallInfo 0x10000).isSome = true := by decide

def smallStart : Pmm := (pmmInit 4 smallLayout smallInfo 0x10000).get smallInit

theorem smallStart_init : Initialised smallStart :=
  ⟨4, smallLayout, smallInfo, 0x10000, (Option.some_get smallInit).symm⟩

theorem allocations_apart_small :
    Allocation smallStart (PmmState.next ⟨smallStart, ∅⟩ .allocPage) (.allocPages 2) :=
  (allocations_apart smallStart_init
    (.step (.start rfl) (show PmmOp.Ok _ .allocPage from trivial) rfl)).2 _ fun _ => nofun

end TinyOS.Memory
