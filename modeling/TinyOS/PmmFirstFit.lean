import TinyOS.Pmm

set_option autoImplicit false

namespace TinyOS.Memory

variable {s : Pmm} {count : Word} {a b : ℕ}

/-- `count` free pages from `a` on, below `total_pages`. -/
structure Pmm.FreeRun (s : Pmm) (count a : ℕ) : Prop where
  below : a+count ≤ s.totalPages
  free : ∀ q, a ≤ q → q < a+count → s.used q = false

structure Pmm.FirstRun (s : Pmm) (count a : ℕ) : Prop extends s.FreeRun count a where
  lowest : ∀ b, s.FreeRun count b → a ≤ b

/-- A pass that has not gone beyond the start of a free run finds one that starts no later. -/
theorem findRun_le {used : ℕ → Bool} {count consecutive start page n a : ℕ}
    (lt : consecutive < count) (run : 0 < consecutive → start+consecutive = page)
    (le : page ≤ a+consecutive) (stop : a+count ≤ page+n)
    (free : ∀ q, a ≤ q → q < a+count → used q = false) :
    ∃ b, b ≤ a ∧ findRun used count consecutive start page n = some b := by
  induction n generalizing consecutive start page with
  | zero => omega
  | succ n ih =>
    rw [findRun]
    by_cases hu : used page = true
    · rw [if_pos hu]
      have before : page < a := by
        by_contra ge
        rw [free page (by omega) (by omega)] at hu
        cases hu
      exact ih (by omega) (fun h => absurd h (by omega)) (by omega) (by omega)
    · rw [if_neg hu]
      have begin : (if consecutive = 0 then page else start)+consecutive = page := by
        split_ifs with hz
        · omega
        · exact run (by omega)
      generalize (if consecutive = 0 then page else start) = b at begin
      by_cases hc : consecutive+1 = count
      · rw [if_pos hc]
        exact ⟨b, by omega, rfl⟩
      · rw [if_neg hc]
        exact ih (by omega) (fun _ => by omega) (by omega) (by omega)

theorem Pmm.Counted.toNat {t : Pmm} (h : t.Counted) : t.freePages.toNat = t.clear.card := by
  have le : t.clear.card ≤ 1048576 := by
    have := Finset.card_filter_le (Finset.range maxPages) fun page => t.used page = false
    rwa [Finset.card_range] at this
  rw [Pmm.Counted] at h
  generalize t.clear.card = n at h le
  rw [h, BitVec.toNat_ofNat]
  omega

theorem Pmm.FreeRun.subset_clear {n : ℕ} (run : s.FreeRun n a) :
    Finset.Ico a (a+n) ⊆ s.clear := by
  intro q hq
  obtain ⟨hl, hr⟩ := Finset.mem_Ico.mp hq
  have below := run.below
  have total := s.total_le
  exact mem_clear.mpr ⟨by omega, run.free q hl hr⟩

theorem Pmm.Counted.run_le {n : ℕ} (h : s.Counted) (run : s.FreeRun n a) :
    n ≤ s.freePages.toNat := by
  have le := Finset.card_le_card run.subset_clear
  rwa [Nat.card_Ico, Nat.add_sub_cancel_left, ← h.toNat] at le

theorem Pmm.FreeRun.pos {n : ℕ} (run : s.FreeRun n a) (h0 : s.used 0 = true) (pos : 0 < n) :
    0 < a := by
  rcases Nat.eq_zero_or_pos a with rfl | start
  · rw [run.free 0 (le_refl 0) (by omega)] at h0
    cases h0
  · exact start

theorem count_pos (nonzero : count ≠ 0) : 0 < count.toNat := by
  rcases Nat.eq_zero_or_pos count.toNat with zero | pos
  · exact absurd (BitVec.eq_of_toNat_eq zero) nonzero
  · exact pos

theorem Pmm.FreeRun.found {n : ℕ} (run : s.FreeRun n b) (pos : 0 < n) :
    ∃ start, start ≤ b ∧ findRun s.used n 0 0 0 s.totalPages = some start :=
  findRun_le pos (fun h => absurd h (lt_irrefl 0)) (Nat.zero_le _)
    (by rw [Nat.zero_add]; exact run.below) run.free

theorem Pmm.firstRun_found {n start : ℕ} (pos : 0 < n)
    (found : findRun s.used n 0 0 0 s.totalPages = some start) : s.FirstRun n start := by
  obtain ⟨below, free⟩ := findRun_some pos (fun h => absurd h (lt_irrefl 0))
    (fun _ h => absurd h (lt_irrefl 0)) found
  rw [Nat.zero_add] at below
  refine ⟨⟨below, free⟩, fun q other => ?_⟩
  obtain ⟨first, le, same⟩ := other.found pos
  rw [found] at same
  obtain rfl := Option.some.inj same
  exact le

/-- What is not 0 is the address of the lowest run, in any state of the bitmap. -/
theorem pmmAllocPages_ne (got : (pmmAllocPages s count).1 ≠ 0) :
    0 < count.toNat ∧ count.toNat ≤ s.freePages.toNat ∧
    ∃ start, 0 < start ∧ s.FirstRun count.toNat start ∧
      pmmAllocPages s count = (pageAddress start, s.takeRun start count.toNat) := by
  rw [pmmAllocPages] at got ⊢
  split_ifs at got with zero few
  · exact absurd rfl got
  · exact absurd rfl got
  · have pos := count_pos zero
    rw [if_neg zero, if_neg few]
    cases found : findRun s.used count.toNat 0 0 0 s.totalPages with
    | none =>
      rw [found] at got
      exact absurd rfl got
    | some start =>
      rw [found] at got
      refine ⟨pos, BitVec.not_lt.mp few, start, ?_, Pmm.firstRun_found pos found, rfl⟩
      rcases Nat.eq_zero_or_pos start with rfl | start_pos
      · exact absurd rfl got
      · exact start_pos

/-- Where a run is left and the counter allows it the lowest one is taken. -/
theorem Pmm.FreeRun.taken (run : s.FreeRun count.toNat b) (nonzero : count ≠ 0)
    (enough : count.toNat ≤ s.freePages.toNat) : ∃ start, s.FirstRun count.toNat start ∧
      pmmAllocPages s count = (pageAddress start, s.takeRun start count.toNat) := by
  have pos := count_pos nonzero
  obtain ⟨start, -, found⟩ := run.found pos
  refine ⟨start, Pmm.firstRun_found pos found, ?_⟩
  rw [pmmAllocPages, if_neg nonzero, if_neg (by rw [BitVec.lt_def]; omega), found]

theorem Pmm.Counted.firstRun (h : s.Counted) (nonzero : count ≠ 0)
    (run : s.FreeRun count.toNat b) : ∃ start, s.FirstRun count.toNat start ∧
      pmmAllocPages s count = (pageAddress start, s.takeRun start count.toNat) :=
  run.taken nonzero (h.run_le run)

theorem Pmm.Counted.takeRun_freePages (h : s.Counted) {n : ℕ} (run : s.FreeRun n a) :
    (s.takeRun a n).freePages.toNat + n = s.freePages.toNat := by
  have le := h.run_le run
  have lt := s.freePages.isLt
  change (s.freePages - BitVec.ofNat 64 n).toNat + n = s.freePages.toNat
  rw [BitVec.toNat_sub, BitVec.toNat_ofNat]
  omega

theorem takeRun_used (p n : ℕ) :
    (s.takeRun a n).used p = true ↔ s.used p = true ∨ a ≤ p ∧ p < a+n := by
  simp only [Pmm.takeRun, Bool.or_eq_true, decide_eq_true_eq]
  tauto

/-- `pmm_alloc_pages` returns the lowest run that is free, and 0 only when there is none. -/
theorem pmmAllocPages_firstFit (counted : s.Counted) (page0 : s.used 0 = true)
    (nonzero : count ≠ 0) :
    ((pmmAllocPages s count).1 ≠ 0 ↔ ∃ a, s.FreeRun count.toNat a) ∧
    ((pmmAllocPages s count).1 ≠ 0 → ∃ start, s.FirstRun count.toNat start ∧
      (pmmAllocPages s count).1.toNat = start*4096 ∧
      (∀ p, (pmmAllocPages s count).2.used p = true ↔
        s.used p = true ∨ start ≤ p ∧ p < start+count.toNat) ∧
      (pmmAllocPages s count).2.freePages.toNat + count.toNat = s.freePages.toNat ∧
      (pmmAllocPages s count).2.totalPages = s.totalPages) ∧
    ((pmmAllocPages s count).1 = 0 → (pmmAllocPages s count).2 = s) := by
  have pos := count_pos nonzero
  have total : s.totalPages ≤ 1048576 := s.total_le
  rcases pmmAllocPages_cases page0 count with run | ⟨first, start, -, below, free, run⟩
  · have none : ¬∃ a, s.FreeRun count.toNat a := by
      rintro ⟨a, other⟩
      obtain ⟨start, taken, run'⟩ := counted.firstRun nonzero other
      have below := taken.below
      rw [run] at run'
      exact pageAddress_ne_zero (taken.pos page0 pos) (by omega) (Prod.mk.inj run').1.symm
    rw [run]
    exact ⟨⟨fun h => absurd rfl h, fun h => absurd h none⟩, fun h => absurd rfl h, fun _ => rfl⟩
  · have here : s.FreeRun count.toNat first := ⟨below, free⟩
    obtain ⟨start', taken, run'⟩ := counted.firstRun nonzero here
    have below' := taken.below
    have ne : pageAddress start' ≠ 0 := pageAddress_ne_zero (taken.pos page0 pos) (by omega)
    rw [run']
    refine ⟨⟨fun _ => ⟨first, here⟩, fun _ => ne⟩, fun _ => ⟨start', taken, ?_, ?_, ?_, rfl⟩,
      fun zero => absurd zero ne⟩
    · exact pageAddress_toNat (by omega)
    · exact fun p => takeRun_used p count.toNat
    · exact counted.takeRun_freePages taken.toFreeRun

def scatteredPages : Pmm := ⟨fun page => decide (page ∉ ({3, 5, 6, 7} : Finset ℕ)), 16, 4, by decide⟩

theorem scatteredPages_counted : scatteredPages.Counted := by
  have clear : scatteredPages.clear = {3, 5, 6, 7} := by
    ext page
    rw [mem_clear, scatteredPages]
    simp only [decide_eq_false_iff_not, not_not, Finset.mem_insert, Finset.mem_singleton]
    constructor
    · exact fun h => h.2
    · exact fun h => ⟨show page < 1048576 by omega, h⟩
  rw [Pmm.Counted, clear]
  decide

theorem pmmAllocPages_firstFit_scattered :
    (pmmAllocPages scatteredPages 2).1 ≠ 0 ∧ ∃ start, scatteredPages.FirstRun 2 start ∧
      (pmmAllocPages scatteredPages 2).1.toNat = start*4096 := by
  obtain ⟨found, lowest, -⟩ := pmmAllocPages_firstFit (s := scatteredPages)
    scatteredPages_counted (by decide) (show (2 : Word) ≠ 0 by decide)
  have got : (pmmAllocPages scatteredPages 2).1 ≠ 0 := by
    refine found.mpr ⟨5, ⟨by decide, fun q hl hr => ?_⟩⟩
    have two : (2 : Word).toNat = 2 := by decide
    have cases : q = 5 ∨ q = 6 := by omega
    rcases cases with rfl | rfl
    all_goals decide
  obtain ⟨start, first, address, -⟩ := lowest got
  exact ⟨got, start, first, address⟩

end TinyOS.Memory
