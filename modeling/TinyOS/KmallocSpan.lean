import TinyOS.KernelBoot

set_option autoImplicit false

namespace TinyOS.Memory

variable {k : Kernel} {s : Pmm} {size : Word}

theorem kmallocPages_wrap (size : Word) :
    (kmallocPages size).toNat = (size.toNat+4119)%2^64/4096 := by
  rw [kmallocPages, BitVec.toNat_udiv]
  have sum : (headerSize + size + pageSize - 1).toNat = (size.toNat+4119)%2^64 := by
    simp only [BitVec.toNat_add, BitVec.toNat_sub, BitVec.ofNat_eq_ofNat, BitVec.toNat_ofNat]
    omega
  rw [sum]
  rfl

/-- A pointer that is not NULL lies behind the header of the lowest run. -/
theorem kmalloc_ne (got : ((kmalloc size).run k).1 ≠ 0) : 0 < (kmallocPages size).toNat ∧
    (kmallocPages size).toNat ≤ k.pmm.freePages.toNat ∧
    ∃ start, 0 < start ∧ k.pmm.FirstRun (kmallocPages size).toNat start ∧
      ((kmalloc size).run k).1.toNat = start*4096+24 ∧
      ((kmalloc size).run k).2.pmm = k.pmm.takeRun start (kmallocPages size).toNat := by
  by_cases none : size = 0
  · rw [none] at got
    exact absurd rfl got
  have alloc : (pmmAllocPages k.pmm (kmallocPages size)).1 ≠ 0 := by
    intro zero
    rw [kmalloc_run none (Prod.ext zero rfl), if_pos rfl] at got
    exact got rfl
  obtain ⟨pos, enough, start, start_pos, first, taken⟩ := pmmAllocPages_ne alloc
  have below := first.below
  have total : k.pmm.totalPages ≤ 1048576 := k.pmm.total_le
  rw [kmalloc_run none taken, if_neg (pageAddress_ne_zero start_pos (by omega))]
  refine ⟨pos, enough, start, start_pos, first, ?_, rfl⟩
  dsimp only
  rw [BitVec.toNat_add, pageAddress_toNat (by omega), show headerSize.toNat = 24 from rfl]
  omega

/-- A block that `kmalloc` returns lies in the memory it manages. -/
theorem kmalloc_bound (got : ((kmalloc size).run k).1 ≠ 0) :
    0 < (kmallocPages size).toNat ∧ (kmallocPages size).toNat ≤ 1048576 := by
  obtain ⟨pos, -, start, -, first, -⟩ := kmalloc_ne got
  have below := first.below
  have total : k.pmm.totalPages ≤ 1048576 := k.pmm.total_le
  exact ⟨pos, by omega⟩

/-- The header and the `size` bytes behind it lie in pages that the call takes. -/
def BlockInside (size : Word) (k : Kernel) : Prop :=
  ((kmalloc size).run k).1 ≠ 0 → ∀ a, ((kmalloc size).run k).1.toNat ≤ a+24 →
    a < ((kmalloc size).run k).1.toNat+size.toNat →
    k.pmm.used (a/4096) = false ∧ ((kmalloc size).run k).2.pmm.used (a/4096) = true

structure Pmm.OnePage (s : Pmm) : Prop where
  counter : s.freePages ≠ 0
  page : ∃ p, 0 < p ∧ p < s.totalPages ∧ s.used p = false ∧ ∀ q, q < p → s.used q = true

theorem Pmm.freeRun_one {p : ℕ} (lt : p < s.totalPages) (free : s.used p = false) :
    s.FreeRun 1 p := ⟨lt, fun q hl hr => by rw [show q = p by omega, free]⟩

theorem Pmm.Counted.onePage (h : s.Counted) (page0 : s.used 0 = true) {p : ℕ}
    (lt : p < s.totalPages) (free : s.used p = false) : s.OnePage := by
  constructor
  · intro zero
    have le := h.run_le (Pmm.freeRun_one lt free)
    rw [zero] at le
    exact absurd le (by decide)
  · have some_free : ∃ p, s.used p = false := ⟨p, free⟩
    have unused := Nat.find_spec some_free
    have le := Nat.find_min' some_free free
    have lowest (q : ℕ) (hq : q < Nat.find some_free) : s.used q = true := by
      have := Nat.find_min some_free hq
      rwa [Bool.not_eq_false] at this
    generalize Nat.find some_free = first at unused le lowest
    refine ⟨first, ?_, by omega, unused, lowest⟩
    rcases Nat.eq_zero_or_pos first with rfl | pos
    · rw [page0] at unused
      cases unused
    · exact pos

/-- A request for one page is a request for the lowest one. -/
theorem Pmm.onePage_iff : s.OnePage ↔ (pmmAllocPages s 1).1 ≠ 0 := by
  have one : (1 : Word).toNat = 1 := by decide
  have total : s.totalPages ≤ 1048576 := s.total_le
  constructor
  · rintro ⟨counter, p, pos, lt, free, lowest⟩
    have run : s.FreeRun (1 : Word).toNat p := Pmm.freeRun_one lt free
    obtain ⟨start, first, taken⟩ := run.taken (by decide) (count_pos counter)
    have below := first.below
    have start_pos : 0 < start := by
      rcases Nat.eq_zero_or_pos start with rfl | start_pos
      · have unused := first.free 0 (le_refl 0) (by decide)
        rw [lowest 0 pos] at unused
        cases unused
      · exact start_pos
    rw [taken]
    exact pageAddress_ne_zero start_pos (by omega)
  · intro got
    obtain ⟨-, enough, start, start_pos, first, -⟩ := pmmAllocPages_ne got
    rw [one] at enough first
    have below := first.below
    refine ⟨?_, start, start_pos, by omega, first.free start (le_refl _) (by omega), ?_⟩
    · intro zero
      rw [zero] at enough
      exact absurd enough (by decide)
    · intro q lt
      by_contra unused
      have le := first.lowest q (Pmm.freeRun_one (by omega) (Bool.eq_false_of_not_eq_true unused))
      omega

theorem kmallocPages_big (big : 2^64-24 < size.toNat) : kmallocPages size = 1 := by
  have lt := size.isLt
  apply BitVec.eq_of_toNat_eq
  rw [kmallocPages_wrap, show (1 : Word).toNat = 1 from rfl]
  omega

theorem blockInside_of_le (small : size.toNat ≤ 2^64-24) : BlockInside size k := by
  intro got a low high
  obtain ⟨pos, -, start, -, first, ptr, taken⟩ := kmalloc_ne got
  rw [kmallocPages_wrap] at pos first taken
  rw [ptr] at low high
  have left : start ≤ a/4096 := by omega
  have right : a/4096 < start+(size.toNat+4119)%2^64/4096 := by omega
  rw [taken]
  exact ⟨first.free _ left right, (takeRun_used _ _).mpr (.inr ⟨left, right⟩)⟩

theorem not_blockInside (big : 2^64-24 < size.toNat) (page : k.pmm.OnePage) :
    ¬BlockInside size k := by
  have pages := kmallocPages_big big
  have nonzero : size ≠ 0 := by
    rintro rfl
    exact absurd big (by decide)
  have got : ((kmalloc size).run k).1 ≠ 0 := by
    have alloc := Pmm.onePage_iff.mp page
    rw [← pages] at alloc
    obtain ⟨pos, -, start, start_pos, first, taken⟩ := pmmAllocPages_ne alloc
    have below := first.below
    have total : k.pmm.totalPages ≤ 1048576 := k.pmm.total_le
    rw [kmalloc_run nonzero taken, if_neg (pageAddress_ne_zero start_pos (by omega))]
    intro zero
    have ptr := congrArg BitVec.toNat zero
    rw [BitVec.toNat_add, pageAddress_toNat (by omega), show headerSize.toNat = 24 from rfl,
      show (0 : Word).toNat = 0 from rfl] at ptr
    omega
  obtain ⟨-, -, start, -, first, ptr, taken⟩ := kmalloc_ne got
  rw [pages] at taken
  intro inside
  -- the second page of the block
  obtain ⟨before, after⟩ := inside got ((start+1)*4096) (by omega) (by omega)
  rw [Nat.mul_div_cancel _ (show 0 < 4096 by decide)] at before after
  rw [taken, takeRun_used, before] at after
  rcases after with used | ⟨-, lt⟩
  · cases used
  · exact absurd lt (lt_irrefl _)

/-- A block covers what was asked for, unless the sum wraps and a page is left. -/
theorem kmalloc_inside_iff (size : Word) (k : Kernel) :
    BlockInside size k ↔ size.toNat ≤ 2^64-24 ∨ ¬k.pmm.OnePage := by
  constructor
  · intro inside
    by_contra no
    rw [not_or, not_not] at no
    exact not_blockInside (not_le.mp no.1) no.2 inside
  · intro holds
    by_cases small : size.toNat ≤ 2^64-24
    · exact blockInside_of_le small
    intro got
    obtain ⟨-, -, start, start_pos, first, -⟩ := kmalloc_ne got
    refine absurd (Pmm.onePage_iff.mpr fun zero => got ?_) (holds.resolve_left small)
    rw [← kmallocPages_big (not_le.mp small)] at zero
    by_cases none : size = 0
    · rw [none]
      rfl
    · rw [kmalloc_run none (Prod.ext zero rfl), if_pos rfl]

/-- With 64 MB of memory a request for all 2^64-1 bytes gets one page. -/
theorem kmalloc_wraps : ¬∀ (size : Word) (k : Kernel), BlockInside size k := by
  intro all
  obtain ⟨s, -, room⟩ := desktopInit
  have page : s.OnePage := room.marked.counted.onePage room.page0 (p := 0x102)
    (by rw [room.marked.total]; decide) (room.free (by decide) (by decide))
  exact not_blockInside (k := heapKernel s) (show 2^64-24 < (0xFFFFFFFFFFFFFFFF : Word).toNat by decide) page (all _ _)

end TinyOS.Memory
