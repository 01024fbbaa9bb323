import TinyOS.Pmm

set_option autoImplicit false

/-! `pmm_init` (memory/pmm.c): every page is used, then the available regions of the
Multiboot2 memory map are free, then what the boot loader and the kernel occupy is used. -/
namespace TinyOS.Memory

def load (m : Word → BitVec 8) (a : Word) : ℕ → ℕ
  | 0 => 0
  | n+1 => (m a).toNat + 256*load m (a+1) n

def load32 (m : Word → BitVec 8) (a : Word) : BitVec 32 := BitVec.ofNat 32 (load m a 4)

def load64 (m : Word → BitVec 8) (a : Word) : Word := BitVec.ofNat 64 (load m a 8)

structure Access where
  address : Word
  count : ℕ

def rangePages (start stop : Word) : List ℕ :=
  if maxPhysicalMemory ≤ start then []
  else (pageRange start (if maxPhysicalMemory < stop then maxPhysicalMemory else stop)).map pageOf

def markRangeFree (s : Pmm) (base length : Word) : Pmm :=
  (rangePages (alignUp base) (alignDown (base + length))).foldl
    (fun s page => if s.used page then s.give page else s) s

def markRangeUsed (s : Pmm) (base length : Word) : Pmm :=
  (rangePages (alignDown base) (alignUp (base + length))).foldl
    (fun s page => if !s.used page then s.take page else s) s

/-- The entries of a memory map tag; `none` when `fuel` runs out. -/
def markEntries (m : Word → BitVec 8) (entrySize : BitVec 32) (stop : Word) :
    ℕ → Word → Pmm → Option Pmm
  | 0, _, _ => none
  | fuel+1, entry, s =>
    if entry < stop then
      let base := load64 m entry
      let length := load64 m (entry + 8)
      let type := load32 m (entry + 16)
      let s := if type = 1 then markRangeFree s base length else s
      markEntries m entrySize stop fuel (entry + entrySize.setWidth 64) s
    else some s

def markTags (m : Word → BitVec 8) (stop : Word) : ℕ → Word → Pmm → Option Pmm
  | 0, _, _ => none
  | fuel+1, tag, s =>
    if tag < stop then
      let type := load32 m tag
      let size := load32 m (tag + 4)
      if type = 0 then some s
      else
        let marked :=
          if type = 6 then
            markEntries m (load32 m (tag + 8)) (tag + size.setWidth 64) fuel (tag + 16) s
          else some s
        marked.bind (markTags m stop fuel (tag + ((size + 7) &&& ~~~7).setWidth 64))
    else some s

/-- `none` when `fuel` does not suffice for the loops. -/
def pmmInit (fuel : ℕ) (b : Layout) (m : Word → BitVec 8) (info : Word) : Option Pmm :=
  let s : Pmm := ⟨fun _ => true, maxPages, 0, le_refl _⟩
  let totalSize := load32 m info
  (markTags m (info + totalSize.setWidth 64) fuel (info + 8) s).map fun s =>
    let s := markRangeUsed s 0 0x100000
    let s := markRangeUsed s b.kernelStart (b.kernelEnd - b.kernelStart)
    let s := markRangeUsed s info (totalSize.setWidth 64)
    markRangeUsed s b.fbAddress b.fbSize

/-- The allocator as `pmm_init` leaves it, on any machine. -/
def Initialised (s : Pmm) : Prop := ∃ fuel b m info, pmmInit fuel b m info = some s

structure Marked (s : Pmm) : Prop where
  counted : s.Counted
  total : s.totalPages = maxPages

theorem rangePages_lt {start stop : Word} {page : ℕ} (h : page ∈ rangePages start stop) :
    page < 1048576 := by
  rw [rangePages] at h
  split_ifs at h with h4 hs
  · cases h
  all_goals
    obtain ⟨a, ha, rfl⟩ := List.mem_map.mp h
    obtain ⟨i, hi, rfl⟩ := List.mem_map.mp ha
    have lt := BitVec.lt_def.mp (BitVec.not_le.mp h4)
    rw [List.mem_range] at hi
    simp only [BitVec.ofNat_eq_ofNat, BitVec.toNat_ofNat] at lt hi
    simp only [pageOf, BitVec.toNat_add, BitVec.toNat_ofNat, Nat.reducePow, Nat.reduceMod] at *
  · omega
  · have := BitVec.not_lt.mp hs
    have := BitVec.le_def.mp this
    simp only [BitVec.ofNat_eq_ofNat, BitVec.toNat_ofNat] at this
    omega

theorem mem_rangePages {start stop page : ℕ} (h : stop ≤ 1048576) (lt : start < 1048576) :
    page ∈ rangePages (pageAddress start) (pageAddress stop) ↔ start ≤ page ∧ page < stop := by
  have low : (pageAddress start).toNat = start*4096 := pageAddress_toNat (by omega)
  have high : (pageAddress stop).toNat = stop*4096 := pageAddress_toNat (by omega)
  have below : ¬maxPhysicalMemory ≤ pageAddress start := by
    rw [BitVec.le_def, low]
    simp only [BitVec.ofNat_eq_ofNat, BitVec.toNat_ofNat]
    omega
  have cut : ¬maxPhysicalMemory < pageAddress stop := by
    rw [BitVec.lt_def, high]
    simp only [BitVec.ofNat_eq_ofNat, BitVec.toNat_ofNat]
    omega
  rw [rangePages, if_neg below, if_neg cut, List.mem_map]
  constructor
  · rintro ⟨va, mem, rfl⟩
    obtain ⟨p, le, lt', rfl⟩ := (mem_pageRange (by omega) (by omega)).mp mem
    rw [pageOf_pageAddress (by omega)]
    exact ⟨le, lt'⟩
  · rintro ⟨le, lt'⟩
    exact ⟨pageAddress page, (mem_pageRange (by omega) (by omega)).mpr ⟨page, le, lt', rfl⟩,
      pageOf_pageAddress (by omega)⟩

theorem markRangeFree_used (s : Pmm) (base length : Word) (page : ℕ) :
    (markRangeFree s base length).used page = true ↔ s.used page = true ∧
      page ∉ rangePages (alignUp base) (alignDown (base + length)) := by
  rw [markRangeFree]
  generalize rangePages (alignUp base) (alignDown (base + length)) = pages
  induction pages generalizing s with
  | nil => simp
  | cons q rest ih =>
    have head : (if s.used q then s.give q else s).used page = true ↔
        s.used page = true ∧ page ≠ q := by
      by_cases eq : page = q
      · subst eq
        split_ifs with hu
        · simp [Pmm.give]
        · simp [hu]
      · split_ifs
        · simp [Pmm.give, eq]
        · simp [eq]
    rw [List.foldl_cons, ih, head, List.mem_cons, not_or, and_assoc]

theorem markRangeUsed_used (s : Pmm) (base length : Word) (page : ℕ) :
    (markRangeUsed s base length).used page = true ↔ s.used page = true ∨
      page ∈ rangePages (alignDown base) (alignUp (base + length)) := by
  rw [markRangeUsed]
  generalize rangePages (alignDown base) (alignUp (base + length)) = pages
  induction pages generalizing s with
  | nil => simp
  | cons q rest ih =>
    have head : (if !s.used q then s.take q else s).used page = true ↔
        s.used page = true ∨ page = q := by
      by_cases eq : page = q
      · subst eq
        split_ifs with hu
        · simp
        · simpa using hu
      · split_ifs
        · simp [eq]
        · simp [eq]
    rw [List.foldl_cons, ih, head, List.mem_cons, or_assoc]

theorem markRangeFree_marked {s : Pmm} (h : Marked s) (base length : Word) :
    Marked (markRangeFree s base length) := by
  rw [markRangeFree]
  refine List.foldlRecOn _ _ h fun t ht page mem => ?_
  split_ifs with hu
  · exact ⟨ht.counted.give (rangePages_lt mem) hu, ht.total⟩
  · exact ht

theorem Pmm.Counted.take {s : Pmm} (h : s.Counted) {page : ℕ} (lt : page < maxPages)
    (free : s.used page = false) : (s.take page).Counted := by
  rw [take_eq_takeRun]
  refine h.takeRun (by omega) fun q hl hr => ?_
  rw [show q = page by omega, free]

theorem markRangeUsed_marked {s : Pmm} (h : Marked s) (base length : Word) :
    Marked (markRangeUsed s base length) := by
  rw [markRangeUsed]
  refine List.foldlRecOn _ _ h fun t ht page mem => ?_
  split_ifs with hu
  · rw [Bool.not_eq_true'] at hu
    exact ⟨ht.counted.take (rangePages_lt mem) hu, ht.total⟩
  · exact ht

theorem markEntries_marked {m : Word → BitVec 8} {entrySize : BitVec 32} {stop : Word} {fuel : ℕ}
    {entry : Word} {s t : Pmm} (hs : Marked s)
    (h : markEntries m entrySize stop fuel entry s = some t) : Marked t := by
  induction fuel generalizing entry s with
  | zero => simp [markEntries] at h
  | succ fuel ih =>
    rw [markEntries] at h
    by_cases he : entry < stop
    · rw [if_pos he] at h
      refine ih ?_ h
      split_ifs
      · exact markRangeFree_marked hs _ _
      · exact hs
    · rw [if_neg he] at h
      cases h
      exact hs

theorem markTags_marked {m : Word → BitVec 8} {stop : Word} {fuel : ℕ} {tag : Word} {s t : Pmm}
    (hs : Marked s) (h : markTags m stop fuel tag s = some t) : Marked t := by
  induction fuel generalizing tag s with
  | zero => simp [markTags] at h
  | succ fuel ih =>
    rw [markTags] at h
    by_cases he : tag < stop
    · rw [if_pos he] at h
      dsimp only at h
      by_cases h0 : load32 m tag = 0
      · rw [if_pos h0] at h
        cases h
        exact hs
      · rw [if_neg h0] at h
        obtain ⟨u, hu, h⟩ := Option.bind_eq_some_iff.mp h
        refine ih ?_ h
        split_ifs at hu
        · exact markEntries_marked hs hu
        · cases hu
          exact hs
    · rw [if_neg he] at h
      cases h
      exact hs

theorem Initialised.low {s : Pmm} (h : Initialised s) {page : ℕ} (lt : page < 256) :
    s.used page = true := by
  obtain ⟨fuel, b, m, info, h⟩ := h
  obtain ⟨t, -, rfl⟩ := Option.map_eq_some_iff.mp h
  have mem : page ∈ rangePages (alignDown 0) (alignUp (0 + 0x100000)) := by
    rw [show alignDown 0 = pageAddress 0 by decide,
      show alignUp (0 + 0x100000) = pageAddress 256 by decide]
    exact (mem_rangePages (by decide) (by decide)).mpr ⟨Nat.zero_le page, lt⟩
  simp only [markRangeUsed_used]
  exact .inl (.inl (.inl (.inr mem)))

theorem Initialised.marked {s : Pmm} (h : Initialised s) : Marked s ∧ s.used 0 = true := by
  have low := h.low (show 0 < 256 by decide)
  obtain ⟨fuel, b, m, info, h⟩ := h
  obtain ⟨t, ht, rfl⟩ := Option.map_eq_some_iff.mp h
  have full : Marked ⟨fun _ => true, maxPages, 0, le_refl _⟩ := by
    refine ⟨?_, rfl⟩
    rw [Pmm.Counted, Finset.card_eq_zero.mpr]
    · rfl
    · exact Finset.eq_empty_of_forall_notMem fun q hq => by
        simpa using (mem_clear.mp hq).2
  have h1 := markRangeUsed_marked (markTags_marked full ht) 0 0x100000
  have h2 := markRangeUsed_marked h1 b.kernelStart (b.kernelEnd - b.kernelStart)
  have h3 := markRangeUsed_marked h2 info ((load32 m info).setWidth 64)
  exact ⟨markRangeUsed_marked h3 b.fbAddress b.fbSize, low⟩

end TinyOS.Memory
