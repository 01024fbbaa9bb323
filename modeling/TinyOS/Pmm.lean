import TinyOS.Pages

set_option autoImplicit false

/-! The physical page allocator (memory/pmm.c): one bit for each page below 4 GB, the
lowest free page first. -/
namespace TinyOS.Memory

abbrev maxPages : ℕ := 1048576

abbrev maxPhysicalMemory : Word := 0x100000000

/-- `page_bitmap`, `total_pages`, `free_pages` -/
structure Pmm where
  used : ℕ → Bool
  totalPages : ℕ
  freePages : Word
  total_le : totalPages ≤ maxPages

/-- What the boot loader reports: the kernel image and the framebuffer. -/
structure Layout where
  kernelStart : Word
  kernelEnd : Word
  fbAddress : Word
  fbSize : Word

/-- The scan of `pmm_alloc_page`, `n` pages from `page` on. -/
def firstFree (used : ℕ → Bool) (page : ℕ) : ℕ → Option ℕ
  | 0 => none
  | n+1 => if used page then firstFree used (page+1) n else some page

def Pmm.take (s : Pmm) (page : ℕ) : Pmm :=
  { s with used := Function.update s.used page true, freePages := s.freePages - 1 }

def Pmm.give (s : Pmm) (page : ℕ) : Pmm :=
  { s with used := Function.update s.used page false, freePages := s.freePages + 1 }

def pmmAllocPage (s : Pmm) : Word × Pmm :=
  match firstFree s.used 0 s.totalPages with
  | some page => (pageAddress page, s.take page)
  | none => (0, s)

/-- The scan of `pmm_alloc_pages`, `n` pages from `page` on; `consecutive` free pages from
`start` on lie just before. -/
def findRun (used : ℕ → Bool) (count consecutive start page : ℕ) : ℕ → Option ℕ
  | 0 => none
  | n+1 =>
    if used page then findRun used count 0 start (page+1) n
    else
      let start := if consecutive = 0 then page else start
      if consecutive+1 = count then some start
      else findRun used count (consecutive+1) start (page+1) n

def Pmm.takeRun (s : Pmm) (start count : ℕ) : Pmm :=
  { s with
    used := fun page => decide (start ≤ page ∧ page < start+count) || s.used page
    freePages := s.freePages - BitVec.ofNat 64 count }

def pmmAllocPages (s : Pmm) (count : Word) : Word × Pmm :=
  if count = 0 then (0, s)
  else if s.freePages < count then (0, s)
  else
    match findRun s.used count.toNat 0 0 0 s.totalPages with
    | some start => (pageAddress start, s.takeRun start count.toNat)
    | none => (0, s)

def pmmFreePage (s : Pmm) (address : Word) : Pmm :=
  if address = 0 then s
  else if maxPhysicalMemory ≤ address then s
  else if address &&& (pageSize - 1) ≠ 0 then s
  else if s.used (pageOf address) then s.give (pageOf address) else s

@[simp] theorem take_used (s : Pmm) (page q : ℕ) :
    (s.take page).used q = (decide (q = page) || s.used q) := by
  simp only [Pmm.take, Function.update_apply]
  split_ifs with h <;> simp [h]

@[simp] theorem take_total (s : Pmm) (page : ℕ) : (s.take page).totalPages = s.totalPages := rfl

theorem firstFree_some {used : ℕ → Bool} {a n p : ℕ} (h : firstFree used a n = some p) :
    a ≤ p ∧ p < a+n ∧ used p = false ∧ ∀ q, a ≤ q → q < p → used q = true := by
  induction n generalizing a with
  | zero => simp [firstFree] at h
  | succ n ih =>
    rw [firstFree] at h
    split_ifs at h with hu
    · obtain ⟨le, lt, hp, hq⟩ := ih h
      refine ⟨by omega, by omega, hp, fun q ha hlt => ?_⟩
      rcases Nat.eq_or_lt_of_le ha with rfl | ha
      · exact hu
      · exact hq q ha hlt
    · cases h
      exact ⟨le_refl _, by omega, by simpa using hu, fun q ha hlt => absurd hlt (by omega)⟩

theorem firstFree_of {used : ℕ → Bool} {a n p : ℕ} (ha : a ≤ p) (hn : p < a+n)
    (hp : used p = false) (hq : ∀ q, a ≤ q → q < p → used q = true) :
    firstFree used a n = some p := by
  induction n generalizing a with
  | zero => omega
  | succ n ih =>
    rw [firstFree]
    rcases Nat.eq_or_lt_of_le ha with rfl | lt
    · rw [hp, if_neg Bool.false_ne_true]
    · rw [hq a (le_refl a) lt, if_pos rfl]
      exact ih lt (by omega) fun q ha' => hq q (by omega)

/-- An allocation takes the lowest free page or finds none; page 0 is never free. -/
theorem pmmAllocPage_cases {s : Pmm} (h0 : s.used 0 = true) :
    pmmAllocPage s = (0, s) ∨ ∃ page, 0 < page ∧ page < s.totalPages ∧ s.used page = false ∧
      (∀ q, q < page → s.used q = true) ∧ pmmAllocPage s = (pageAddress page, s.take page) := by
  rw [pmmAllocPage]
  cases h : firstFree s.used 0 s.totalPages with
  | none => exact .inl rfl
  | some page =>
    obtain ⟨_, lt, hp, hq⟩ := firstFree_some h
    refine .inr ⟨page, ?_, by omega, hp, fun q => hq q (Nat.zero_le q), rfl⟩
    rcases Nat.eq_zero_or_pos page with rfl | pos
    · rw [h0] at hp
      cases hp
    · exact pos

theorem pmmAllocPage_of {s : Pmm} {page : ℕ} (lt : page < s.totalPages)
    (hp : s.used page = false) (hq : ∀ q, q < page → s.used q = true) :
    pmmAllocPage s = (pageAddress page, s.take page) := by
  rw [pmmAllocPage, firstFree_of (Nat.zero_le page) (by omega) hp fun q _ => hq q]

theorem pageAddress_ne_zero {page : ℕ} (pos : 0 < page) (lt : page < 2^52) :
    pageAddress page ≠ 0 := by
  intro h
  have := congrArg BitVec.toNat h
  rw [pageAddress_toNat lt] at this
  simp only [BitVec.ofNat_eq_ofNat, BitVec.toNat_ofNat, Nat.zero_mod] at this
  omega

/-- What a call frees: the page of an aligned address below 4 GB, other than page 0. -/
theorem pmmFreePage_used (s : Pmm) {address : Word} (aligned : address &&& (pageSize - 1) = 0)
    (page : ℕ) : (pmmFreePage s address).used page = true ↔ s.used page = true ∧
      ¬(address ≠ 0 ∧ address < maxPhysicalMemory ∧ pageOf address = page) := by
  rw [pmmFreePage, if_neg (show ¬address &&& (pageSize - 1) ≠ 0 from not_not.mpr aligned)]
  split_ifs with h0 h4 hu
  · exact ⟨fun h => ⟨h, fun h' => h'.1 h0⟩, fun h => h.1⟩
  · exact ⟨fun h => ⟨h, fun h' => absurd h'.2.1 (BitVec.not_lt.mpr h4)⟩, fun h => h.1⟩
  · have lt : address < maxPhysicalMemory := BitVec.not_le.mp h4
    by_cases hp : page = pageOf address
    · subst hp
      exact ⟨fun h => absurd h (by simp [Pmm.give]), fun h => absurd ⟨h0, lt, rfl⟩ h.2⟩
    · simp [Pmm.give, hp, Ne.symm hp]
  · refine ⟨fun h => ⟨h, fun h' => hu ?_⟩, fun h => h.1⟩
    rw [h'.2.2, h]

theorem findRun_some {used : ℕ → Bool} {count consecutive start page n a : ℕ}
    (lt : consecutive < count) (run : 0 < consecutive → start+consecutive = page)
    (free : ∀ q, 0 < consecutive → start ≤ q → q < page → used q = false)
    (h : findRun used count consecutive start page n = some a) :
    a+count ≤ page+n ∧ ∀ q, a ≤ q → q < a+count → used q = false := by
  induction n generalizing consecutive start page with
  | zero => simp [findRun] at h
  | succ n ih =>
    rw [findRun] at h
    by_cases hu : used page = true
    · rw [if_pos hu] at h
      have := ih (by omega) (fun h => absurd h (by omega)) (fun _ h => absurd h (by omega)) h
      exact ⟨by omega, this.2⟩
    · rw [if_neg hu] at h
      rw [Bool.not_eq_true] at hu
      have begin : (if consecutive = 0 then page else start)+consecutive = page := by
        split_ifs with hz
        · omega
        · exact run (by omega)
      have free' (q : ℕ) (hl : (if consecutive = 0 then page else start) ≤ q) (hr : q < page+1) :
          used q = false := by
        rcases Nat.lt_or_ge q page with hq | hq
        · split_ifs at hl with hz
          · omega
          · exact free q (by omega) hl hq
        · rw [show q = page by omega, hu]
      generalize (if consecutive = 0 then page else start) = first at h begin free'
      by_cases hc : consecutive+1 = count
      · rw [if_pos hc] at h
        cases h
        exact ⟨by omega, fun q hl hr => free' q hl (by omega)⟩
      · rw [if_neg hc] at h
        have := ih (by omega) (fun _ => by omega) (fun q _ => free' q) h
        exact ⟨by omega, this.2⟩

/-- A ranged allocation takes a free run or changes nothing. -/
theorem pmmAllocPages_run (s : Pmm) (count : Word) :
    pmmAllocPages s count = (0, s) ∨ ∃ start, 0 < count.toNat ∧ start+count.toNat ≤ s.totalPages ∧
      (∀ q, start ≤ q → q < start+count.toNat → s.used q = false) ∧
      pmmAllocPages s count = (pageAddress start, s.takeRun start count.toNat) := by
  rw [pmmAllocPages]
  split_ifs with hz hf
  · exact .inl rfl
  · exact .inl rfl
  · have pos : 0 < count.toNat := by
      rcases Nat.eq_zero_or_pos count.toNat with h | h
      · exact absurd (BitVec.eq_of_toNat_eq h) hz
      · exact h
    cases h : findRun s.used count.toNat 0 0 0 s.totalPages with
    | none => exact .inl rfl
    | some start =>
      obtain ⟨le, free⟩ := findRun_some pos (fun h => absurd h (by omega))
        (fun _ h => absurd h (by omega)) h
      exact .inr ⟨start, pos, by omega, free, rfl⟩

theorem pmmAllocPages_cases {s : Pmm} (h0 : s.used 0 = true) (count : Word) :
    pmmAllocPages s count = (0, s) ∨ ∃ start, 0 < start ∧ 0 < count.toNat ∧
      start+count.toNat ≤ s.totalPages ∧
      (∀ q, start ≤ q → q < start+count.toNat → s.used q = false) ∧
      pmmAllocPages s count = (pageAddress start, s.takeRun start count.toNat) := by
  rcases pmmAllocPages_run s count with none | ⟨start, pos, le, free, run⟩
  · exact .inl none
  · refine .inr ⟨start, ?_, pos, le, free, run⟩
    rcases Nat.eq_zero_or_pos start with rfl | h
    · rw [free 0 (le_refl 0) (by omega)] at h0
      cases h0
    · exact h

def Pmm.clear (s : Pmm) : Finset ℕ := (Finset.range maxPages).filter fun page => s.used page = false

/-- `free_pages` is the number of clear bits. -/
def Pmm.Counted (s : Pmm) : Prop := s.freePages = BitVec.ofNat 64 s.clear.card

theorem mem_clear {s : Pmm} {page : ℕ} : page ∈ s.clear ↔ page < maxPages ∧ s.used page = false := by
  rw [Pmm.clear, Finset.mem_filter, Finset.mem_range]

theorem ofNat_add_sub (n count : ℕ) :
    BitVec.ofNat 64 (n+count) - BitVec.ofNat 64 count = BitVec.ofNat 64 n := by
  apply BitVec.eq_of_toNat_eq
  simp only [BitVec.toNat_sub, BitVec.toNat_ofNat]
  omega

theorem ofNat_succ (n : ℕ) : BitVec.ofNat 64 n + 1 = BitVec.ofNat 64 (n+1) := by
  apply BitVec.eq_of_toNat_eq
  simp only [BitVec.toNat_add, BitVec.toNat_ofNat, show (1 : Word).toNat = 1 from rfl]
  omega

theorem Pmm.Counted.takeRun {s : Pmm} (h : s.Counted) {start count : ℕ}
    (le : start+count ≤ maxPages) (free : ∀ q, start ≤ q → q < start+count → s.used q = false) :
    (s.takeRun start count).Counted := by
  have sub : Finset.Ico start (start+count) ⊆ s.clear := by
    intro q hq
    obtain ⟨hl, hr⟩ := Finset.mem_Ico.mp hq
    exact mem_clear.mpr ⟨by omega, free q hl hr⟩
  have rest : (s.takeRun start count).clear = s.clear \ Finset.Ico start (start+count) := by
    ext q
    rw [Finset.mem_sdiff, mem_clear, mem_clear, Finset.mem_Ico, Pmm.takeRun]
    simp only [Bool.or_eq_false_iff, decide_eq_false_iff_not]
    tauto
  have card : (s.takeRun start count).clear.card + count = s.clear.card := by
    rw [rest]
    have := Finset.card_sdiff_add_card_eq_card sub
    rwa [Nat.card_Ico, Nat.add_sub_cancel_left] at this
  have counter : (s.takeRun start count).freePages = s.freePages - BitVec.ofNat 64 count := rfl
  rw [Pmm.Counted, counter, h, ← card, ofNat_add_sub]

theorem take_eq_takeRun (s : Pmm) (page : ℕ) : s.take page = s.takeRun page 1 := by
  simp only [Pmm.take, Pmm.takeRun]
  congr 1
  funext q
  rw [Function.update_apply]
  by_cases h : q = page
  · simp [h]
  · rw [if_neg h, decide_eq_false (by omega), Bool.false_or]

theorem Pmm.Counted.give {s : Pmm} (h : s.Counted) {page : ℕ} (lt : page < maxPages)
    (used : s.used page = true) : (s.give page).Counted := by
  have fresh : page ∉ s.clear := fun hm => by
    rw [(mem_clear.mp hm).2] at used
    cases used
  have more : (s.give page).clear = insert page s.clear := by
    ext q
    rw [Finset.mem_insert, mem_clear, mem_clear, Pmm.give]
    dsimp only
    rw [Function.update_apply]
    by_cases h : q = page
    · simp [h, lt]
    · simp [h]
  have counter : (s.give page).freePages = s.freePages + 1 := rfl
  rw [Pmm.Counted, counter, h, more, Finset.card_insert_of_notMem fresh, ofNat_succ]

end TinyOS.Memory
