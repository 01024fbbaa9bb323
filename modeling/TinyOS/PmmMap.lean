import TinyOS.PmmFirstFit
import TinyOS.PmmInit

set_option autoImplicit false

namespace TinyOS.Memory

variable {m : Word → BitVec 8} {b : Layout} {s : Pmm}

structure Region where
  base : Word
  length : Word
  type : BitVec 32

def readRegion (m : Word → BitVec 8) (entry : Word) : Region :=
  ⟨load64 m entry, load64 m (entry + 8), load32 m (entry + 16)⟩

def tagType (m : Word → BitVec 8) (tag : ℕ) : BitVec 32 := load32 m (BitVec.ofNat 64 tag)

def tagSize (m : Word → BitVec 8) (tag : ℕ) : ℕ := (load32 m (BitVec.ofNat 64 tag + 4)).toNat

/-- `entry_size` of a memory map tag. -/
def entrySize (m : Word → BitVec 8) (tag : ℕ) : ℕ := (load32 m (BitVec.ofNat 64 tag + 8)).toNat

/-- The tag behind a tag of `size` bytes starts at the next multiple of 8. -/
def nextTag (m : Word → BitVec 8) (tag : ℕ) : ℕ := tag+(tagSize m tag+7)/8*8

def tagRegions (m : Word → BitVec 8) (tag n : ℕ) : List Region :=
  (List.range n).map fun i => readRegion m (BitVec.ofNat 64 (tag+16+i*entrySize m tag))

/-- Tags from an address on, up to an END tag before `stop`, and the entries of their memory
maps. -/
inductive TagChain (m : Word → BitVec 8) (stop : ℕ) : ℕ → List Region → Prop where
  | last {tag : ℕ} (type : tagType m tag = 0) (inside : tag+8 ≤ stop) : TagChain m stop tag []
  | memoryMap {tag n : ℕ} {regions : List Region} (type : tagType m tag = 6)
      (entry : 24 ≤ entrySize m tag) (filled : tagSize m tag = 16+n*entrySize m tag)
      (rest : TagChain m stop (nextTag m tag) regions) :
      TagChain m stop tag (tagRegions m tag n ++ regions)
  | other {tag : ℕ} {regions : List Region} (last : tagType m tag ≠ 0) (map : tagType m tag ≠ 6)
      (size : 8 ≤ tagSize m tag) (rest : TagChain m stop (nextTag m tag) regions) :
      TagChain m stop tag regions

def totalSize (m : Word → BitVec 8) (info : Word) : ℕ := (load32 m info).toNat

structure RangeOk (base : Word) (length : ℕ) : Prop where
  some : 0 < length
  below : base.toNat+length ≤ 2^64-4096

structure WellFormedBlock (b : Layout) (m : Word → BitVec 8) (info : Word)
    (regions : List Region) : Prop where
  tags : TagChain m (info.toNat+totalSize m info) (info.toNat+8) regions
  regions : ∀ r ∈ regions, r.base.toNat+r.length.toNat ≤ 2^64-4096
  block : RangeOk info (totalSize m info)
  order : b.kernelStart.toNat ≤ b.kernelEnd.toNat
  kernel : RangeOk b.kernelStart (b.kernelEnd.toNat-b.kernelStart.toNat)
  framebuffer : RangeOk b.fbAddress b.fbSize.toNat

def pageBytes (page : ℕ) : Set ℕ := Set.Ico (page*4096) (page*4096+4096)

def byteRange (base length : ℕ) : Set ℕ := Set.Ico base (base+length)

/-- A page lies in one available region, and what is reserved does not meet it. -/
structure Usable (b : Layout) (m : Word → BitVec 8) (info : Word) (regions : List Region)
    (page : ℕ) : Prop where
  available : ∃ r ∈ regions, r.type = 1 ∧ pageBytes page ⊆ byteRange r.base.toNat r.length.toNat
  low : Disjoint (pageBytes page) (byteRange 0 0x100000)
  kernel : Disjoint (pageBytes page)
    (byteRange b.kernelStart.toNat (b.kernelEnd.toNat-b.kernelStart.toNat))
  block : Disjoint (pageBytes page) (byteRange info.toNat (totalSize m info))
  framebuffer : Disjoint (pageBytes page) (byteRange b.fbAddress.toNat b.fbSize.toNat)

theorem pageBytes_subset {page base length : ℕ} : pageBytes page ⊆ byteRange base length ↔
    base ≤ page*4096 ∧ page*4096+4096 ≤ base+length := by
  rw [pageBytes, byteRange, Set.Ico_subset_Ico_iff (by omega)]

theorem pageBytes_meets {page base length : ℕ} (some : 0 < length) :
    ¬Disjoint (pageBytes page) (byteRange base length) ↔
      base < page*4096+4096 ∧ page*4096 < base+length := by
  rw [pageBytes, byteRange, Set.Ico_disjoint_Ico]
  omega

theorem mem_rangePages_cut {start stop page : ℕ} (h : start < 2^52) (h' : stop < 2^52) :
    page ∈ rangePages (pageAddress start) (pageAddress stop) ↔
      start ≤ page ∧ page < stop ∧ page < 1048576 := by
  have low : (pageAddress start).toNat = start*4096 := pageAddress_toNat h
  have high : (pageAddress stop).toNat = stop*4096 := pageAddress_toNat h'
  have limit : maxPhysicalMemory.toNat = 1048576*4096 := rfl
  have top : maxPhysicalMemory = pageAddress 1048576 := rfl
  by_cases large : 1048576 ≤ start
  · rw [rangePages, if_pos (by rw [BitVec.le_def, low, limit]; omega)]
    simp only [List.not_mem_nil, false_iff]
    omega
  by_cases cut : 1048576 < stop
  · have same : rangePages (pageAddress start) (pageAddress stop) =
        rangePages (pageAddress start) (pageAddress 1048576) := by
      have beyond : maxPhysicalMemory < pageAddress stop := by
        rw [BitVec.lt_def, high, limit]
        omega
      rw [rangePages, rangePages, if_pos beyond, ← top, if_neg (BitVec.lt_irrefl _)]
    rw [same, mem_rangePages (le_refl _) (by omega)]
    omega
  · rw [mem_rangePages (by omega) (by omega)]
    omega

theorem markRangeFree_page {base length : Word} (h : base.toNat+length.toNat ≤ 2^64-4096)
    {page : ℕ} (lt : page < 1048576) : (markRangeFree s base length).used page = true ↔
      s.used page = true ∧ ¬pageBytes page ⊆ byteRange base.toNat length.toNat := by
  have sum : (base + length).toNat = base.toNat+length.toNat := BitVec.toNat_add_of_lt (by omega)
  rw [markRangeFree_used, alignUp_eq (by omega), alignDown_eq, sum,
    mem_rangePages_cut (by omega) (by omega), pageBytes_subset]
  have same : ((base.toNat+4095)/4096 ≤ page ∧ page < (base.toNat+length.toNat)/4096 ∧
      page < 1048576) ↔ (base.toNat ≤ page*4096 ∧ page*4096+4096 ≤ base.toNat+length.toNat) := by
    omega
  rw [same]

theorem markRangeUsed_page {base length : Word} (ok : RangeOk base length.toNat) {page : ℕ}
    (lt : page < 1048576) : (markRangeUsed s base length).used page = true ↔
      s.used page = true ∨ ¬Disjoint (pageBytes page) (byteRange base.toNat length.toNat) := by
  have some := ok.some
  have below := ok.below
  have sum : (base + length).toNat = base.toNat+length.toNat := BitVec.toNat_add_of_lt (by omega)
  rw [markRangeUsed_used, alignDown_eq, alignUp_eq (by omega), sum,
    mem_rangePages_cut (by omega) (by omega), pageBytes_meets some]
  have same : (base.toNat/4096 ≤ page ∧ page < (base.toNat+length.toNat+4095)/4096 ∧
      page < 1048576) ↔ (base.toNat < page*4096+4096 ∧ page*4096 < base.toNat+length.toNat) := by
    omega
  rw [same]

def markRegion (s : Pmm) (r : Region) : Pmm :=
  if r.type = 1 then markRangeFree s r.base r.length else s

theorem ofNat_add_ofNat (a c : ℕ) :
    BitVec.ofNat 64 a + BitVec.ofNat 64 c = BitVec.ofNat 64 (a+c) := (BitVec.ofNat_add a c).symm

theorem ofNat_lt {a c : ℕ} (h : a < 2^64) (h' : c < 2^64) :
    BitVec.ofNat 64 a < BitVec.ofNat 64 c ↔ a < c := by
  rw [BitVec.lt_def, BitVec.toNat_ofNat, BitVec.toNat_ofNat, Nat.mod_eq_of_lt h, Nat.mod_eq_of_lt h']

theorem setWidth_eq (x : BitVec 32) : x.setWidth 64 = BitVec.ofNat 64 x.toNat := by
  apply BitVec.eq_of_toNat_eq
  rw [BitVec.toNat_setWidth, BitVec.toNat_ofNat]

theorem markEntries_step {size : BitVec 32} {stop entry : Word} (lt : entry < stop) (fuel : ℕ)
    (s : Pmm) : markEntries m size stop (fuel+1) entry s =
      markEntries m size stop fuel (entry + size.setWidth 64) (markRegion s (readRegion m entry)) := by
  rw [markEntries, if_pos lt]
  rfl

theorem markEntries_run {size : BitVec 32} (pos : 0 < size.toNat) {stop k fuel entry : ℕ}
    (enough : k < fuel) (filled : entry+k*size.toNat = stop) (small : stop < 2^64) (s : Pmm) :
    markEntries m size (BitVec.ofNat 64 stop) fuel (BitVec.ofNat 64 entry) s =
      some (((List.range k).map fun i =>
        readRegion m (BitVec.ofNat 64 (entry+i*size.toNat))).foldl markRegion s) := by
  induction k generalizing entry fuel s with
  | zero =>
    obtain ⟨fuel, rfl⟩ := Nat.exists_eq_succ_of_ne_zero (show fuel ≠ 0 by omega)
    rw [Nat.zero_mul, Nat.add_zero] at filled
    rw [markEntries, if_neg (by rw [filled]; exact BitVec.lt_irrefl _)]
    rfl
  | succ k ih =>
    obtain ⟨fuel, rfl⟩ := Nat.exists_eq_succ_of_ne_zero (show fuel ≠ 0 by omega)
    rw [Nat.succ_mul] at filled
    have before : entry < stop := by omega
    have later := @ih fuel (entry+size.toNat) (by omega) (by omega)
      (markRegion s (readRegion m (BitVec.ofNat 64 entry)))
    have rest : (List.range k).map ((fun i =>
        readRegion m (BitVec.ofNat 64 (entry+i*size.toNat))) ∘ Nat.succ) =
        (List.range k).map fun i =>
          readRegion m (BitVec.ofNat 64 (entry+size.toNat+i*size.toNat)) := by
      refine List.map_congr_left fun i _ => ?_
      rw [Function.comp_apply, Nat.succ_mul, Nat.add_assoc, Nat.add_comm size.toNat]
    rw [markEntries_step ((ofNat_lt (by omega) small).mpr before), setWidth_eq, ofNat_add_ofNat,
      later, List.range_succ_eq_map, List.map_cons, List.map_map, rest, List.foldl_cons,
      Nat.zero_mul, Nat.add_zero]

variable {stop tag : ℕ} {regions : List Region}

theorem TagChain.inside (h : TagChain m stop tag regions) : tag+8 ≤ stop := by
  induction h with
  | last _ inside => exact inside
  | memoryMap _ _ _ _ ih => exact (Nat.add_le_add_right (Nat.le_add_right _ _) 8).trans ih
  | other _ _ _ _ ih => exact (Nat.add_le_add_right (Nat.le_add_right _ _) 8).trans ih

theorem tag_step (small : tagSize m tag+7 < 2^32) :
    BitVec.ofNat 64 tag +
        ((load32 m (BitVec.ofNat 64 tag + 4) + 7) &&& ~~~7).setWidth 64 =
      BitVec.ofNat 64 (nextTag m tag) := by
  have sum : (load32 m (BitVec.ofNat 64 tag + 4) + 7).toNat = tagSize m tag+7 :=
    BitVec.toNat_add_of_lt small
  have rounded : ((load32 m (BitVec.ofNat 64 tag + 4) + 7) &&& ~~~7).toNat =
      (tagSize m tag+7)/8*8 := by
    rw [← sum]
    exact and_not_low_toNat _ 3
  rw [setWidth_eq, rounded, ofNat_add_ofNat, nextTag]

/-- With enough fuel the loop marks the regions of the block in order. -/
theorem TagChain.marks (h : TagChain m stop tag regions) (small : stop < 2^64)
    (near : stop < tag+2^32) : ∃ n, ∀ fuel, n ≤ fuel → ∀ s,
      markTags m (BitVec.ofNat 64 stop) fuel (BitVec.ofNat 64 tag) s =
        some (regions.foldl markRegion s) := by
  induction h with
  | @last tag type inside =>
    refine ⟨1, fun fuel enough s => ?_⟩
    obtain ⟨fuel, rfl⟩ := Nat.exists_eq_succ_of_ne_zero (show fuel ≠ 0 by omega)
    rw [markTags, if_pos ((ofNat_lt (by omega) small).mpr (by omega))]
    exact if_pos type
  | @memoryMap tag n regions type entry filled rest ih =>
    have below := rest.inside
    rw [nextTag] at below
    obtain ⟨k, later⟩ := ih (by rw [nextTag]; omega)
    refine ⟨n+k+2, fun fuel enough s => ?_⟩
    obtain ⟨fuel, rfl⟩ := Nat.exists_eq_succ_of_ne_zero (show fuel ≠ 0 by omega)
    have entries := @markEntries_run m (load32 m (BitVec.ofNat 64 tag + 8))
      (show 0 < entrySize m tag by omega) (tag+tagSize m tag) n fuel (tag+16) (by omega)
      (by rw [filled]; change tag+16+n*entrySize m tag = _; omega) (by omega) s
    rw [markTags, if_pos ((ofNat_lt (by omega) small).mpr (by omega))]
    dsimp only
    have kind : load32 m (BitVec.ofNat 64 tag) = 6 := type
    rw [if_neg (by rw [kind]; decide), if_pos kind, tag_step (by omega), setWidth_eq, ofNat_add_ofNat,
      show BitVec.ofNat 64 tag + 16 = BitVec.ofNat 64 (tag+16) from ofNat_add_ofNat tag 16]
    change (markEntries m _ (BitVec.ofNat 64 (tag+tagSize m tag)) fuel _ s).bind _ = _
    rw [entries, Option.bind_some, later fuel (by omega), List.foldl_append]
    rfl
  | @other tag regions last map size rest ih =>
    have below := rest.inside
    rw [nextTag] at below
    obtain ⟨k, later⟩ := ih (by rw [nextTag]; omega)
    refine ⟨k+1, fun fuel enough s => ?_⟩
    obtain ⟨fuel, rfl⟩ := Nat.exists_eq_succ_of_ne_zero (show fuel ≠ 0 by omega)
    rw [markTags, if_pos ((ofNat_lt (by omega) small).mpr (by omega))]
    dsimp only
    have kind : load32 m (BitVec.ofNat 64 tag) ≠ 0 ∧ load32 m (BitVec.ofNat 64 tag) ≠ 6 := ⟨last, map⟩
    rw [if_neg kind.1, if_neg kind.2, Option.bind_some, tag_step (by omega), later fuel (by omega)]

theorem markRegions_page (ok : ∀ r ∈ regions, r.base.toNat+r.length.toNat ≤ 2^64-4096) {page : ℕ}
    (lt : page < 1048576) : (regions.foldl markRegion s).used page = true ↔ s.used page = true ∧
      ∀ r ∈ regions, r.type = 1 → ¬pageBytes page ⊆ byteRange r.base.toNat r.length.toNat := by
  induction regions generalizing s with
  | nil => exact (and_iff_left fun r mem => absurd mem List.not_mem_nil).symm
  | cons r rest ih =>
    have here : (markRegion s r).used page = true ↔ s.used page = true ∧
        (r.type = 1 → ¬pageBytes page ⊆ byteRange r.base.toNat r.length.toNat) := by
      rw [markRegion]
      split_ifs with type
      · rw [markRangeFree_page (ok r List.mem_cons_self) lt]
        exact and_congr_right fun _ => ⟨fun off _ => off, fun off => off type⟩
      · exact (and_iff_left fun eq => absurd eq type).symm
    rw [List.foldl_cons, ih fun r' mem => ok r' (List.mem_cons_of_mem r mem), here,
      List.forall_mem_cons, and_assoc]

theorem markRegions_marked (h : Marked s) : Marked (regions.foldl markRegion s) := by
  induction regions generalizing s with
  | nil => exact h
  | cons r rest ih =>
    refine ih ?_
    rw [markRegion]
    split_ifs
    · exact markRangeFree_marked h _ _
    · exact h

def allUsed : Pmm := ⟨fun _ => true, maxPages, 0, le_refl _⟩

/-- The calls of `mark_range_used` at the end of `pmm_init`. -/
def markReserved (b : Layout) (m : Word → BitVec 8) (info : Word) (s : Pmm) : Pmm :=
  markRangeUsed (markRangeUsed (markRangeUsed (markRangeUsed s 0 0x100000) b.kernelStart
    (b.kernelEnd - b.kernelStart)) info ((load32 m info).setWidth 64)) b.fbAddress b.fbSize

theorem pmmInit_of {fuel : ℕ} {info : Word} {t : Pmm}
    (h : markTags m (info + (load32 m info).setWidth 64) fuel (info + 8) allUsed = some t) :
    pmmInit fuel b m info = some (markReserved b m info t) := by
  rw [allUsed] at h
  rw [pmmInit, h]
  rfl

variable {info : Word}

theorem markReserved_page (block : WellFormedBlock b m info regions) {page : ℕ}
    (lt : page < 1048576) : (markReserved b m info s).used page = false ↔ s.used page = false ∧
      Disjoint (pageBytes page) (byteRange 0 0x100000) ∧
      Disjoint (pageBytes page)
        (byteRange b.kernelStart.toNat (b.kernelEnd.toNat-b.kernelStart.toNat)) ∧
      Disjoint (pageBytes page) (byteRange info.toNat (totalSize m info)) ∧
      Disjoint (pageBytes page) (byteRange b.fbAddress.toNat b.fbSize.toNat) := by
  have kernelSize : (b.kernelEnd - b.kernelStart).toNat =
      b.kernelEnd.toNat-b.kernelStart.toNat :=
    BitVec.toNat_sub_of_le (BitVec.le_def.mpr block.order)
  have blockSize : ((load32 m info).setWidth 64 : Word).toNat = totalSize m info := by
    have small := (load32 m info).isLt
    rw [BitVec.toNat_setWidth, totalSize]
    omega
  have kernel := block.kernel
  have inside := block.block
  rw [← kernelSize] at kernel
  rw [← blockSize] at inside
  rw [← not_iff_not, Bool.not_eq_false, markReserved, markRangeUsed_page block.framebuffer lt,
    markRangeUsed_page inside lt, markRangeUsed_page kernel lt,
    markRangeUsed_page ⟨by decide, by decide⟩ lt, kernelSize, blockSize,
    show (0 : Word).toNat = 0 from rfl, show (0x100000 : Word).toNat = 0x100000 from rfl]
  cases s.used page
  all_goals tauto

theorem markReserved_marked (h : Marked s) : Marked (markReserved b m info s) :=
  markRangeUsed_marked (markRangeUsed_marked (markRangeUsed_marked (markRangeUsed_marked h _ _)
    _ _) _ _) _ _

theorem allUsed_marked : Marked allUsed := by
  refine ⟨?_, rfl⟩
  have none : allUsed.clear = ∅ := Finset.eq_empty_of_forall_notMem fun page mem => by
    have used := (mem_clear.mp mem).2
    cases used
  rw [Pmm.Counted, none]
  rfl

/-- After `pmm_init` the pages that lie in one available region and meet nothing reserved are
free, and the counter is their number. -/
theorem pmmInit_usable (block : WellFormedBlock b m info regions) :
    ∃ s, (∃ n, ∀ fuel, n ≤ fuel → pmmInit fuel b m info = some s) ∧
      (∀ page, page < 1048576 → (s.used page = false ↔ Usable b m info regions page)) ∧
      s.freePages.toNat = {page | page < 1048576 ∧ Usable b m info regions page}.ncard := by
  have below := block.block.below
  have size := (load32 m info).isLt
  have total : totalSize m info = (load32 m info).toNat := rfl
  obtain ⟨n, run⟩ := block.tags.marks (by omega) (by omega)
  have first : info + 8 = BitVec.ofNat 64 (info.toNat+8) := by
    apply BitVec.eq_of_toNat_eq
    rw [BitVec.toNat_add, BitVec.toNat_ofNat]
    rfl
  have last : info + (load32 m info).setWidth 64 =
      BitVec.ofNat 64 (info.toNat+totalSize m info) := by
    apply BitVec.eq_of_toNat_eq
    rw [BitVec.toNat_add, BitVec.toNat_setWidth, BitVec.toNat_ofNat]
    omega
  have free (page : ℕ) (lt : page < 1048576) :
      (markReserved b m info (regions.foldl markRegion allUsed)).used page = false ↔
        Usable b m info regions page := by
    have available : (regions.foldl markRegion allUsed).used page = false ↔
        ∃ r ∈ regions, r.type = 1 ∧ pageBytes page ⊆ byteRange r.base.toNat r.length.toNat := by
      rw [← not_iff_not, Bool.not_eq_false, markRegions_page block.regions lt]
      push Not
      exact and_iff_right rfl
    rw [markReserved_page block lt, available]
    constructor
    · rintro ⟨available, low, kernel, block, framebuffer⟩
      exact ⟨available, low, kernel, block, framebuffer⟩
    · exact fun h => ⟨h.available, h.low, h.kernel, h.block, h.framebuffer⟩
  have marked : Marked (markReserved b m info (regions.foldl markRegion allUsed)) :=
    markReserved_marked (markRegions_marked allUsed_marked)
  refine ⟨_, ⟨n, fun fuel enough => pmmInit_of ?_⟩, free, ?_⟩
  · rw [first, last]
    exact run fuel enough allUsed
  · have same : {page | page < 1048576 ∧ Usable b m info regions page} =
        ((markReserved b m info (regions.foldl markRegion allUsed)).clear : Set ℕ) := by
      ext page
      rw [Set.mem_ofPred_eq, Finset.mem_coe, mem_clear]
      exact and_congr_right fun lt => (free page lt).symm
    rw [same, Set.ncard_coe_finset]
    exact marked.counted.toNat

/-- A block at 0x10000 with one available region of four pages and one that is not available. -/
def twoRegionInfo (a : Word) : BitVec 8 :=
  ([80, 0, 0, 0, 0, 0, 0, 0,
    6, 0, 0, 0, 64, 0, 0, 0, 24, 0, 0, 0, 0, 0, 0, 0,
    0, 0, 0x20, 0, 0, 0, 0, 0, 0, 0x40, 0, 0, 0, 0, 0, 0, 1, 0, 0, 0, 0, 0, 0, 0,
    0, 0x40, 0x20, 0, 0, 0, 0, 0, 0, 0x10, 0, 0, 0, 0, 0, 0, 2, 0, 0, 0, 0, 0, 0, 0,
    0, 0, 0, 0, 8, 0, 0, 0] : List (BitVec 8)).getD (a.toNat-0x10000) 0

def twoRegionLayout : Layout := ⟨0x100000, 0x102000, 0xFD000000, 0x1000⟩

theorem twoRegionInfo_wellFormed : WellFormedBlock twoRegionLayout twoRegionInfo 0x10000
    (tagRegions twoRegionInfo 0x10008 2 ++ []) where
  tags := by
    have start : (0x10000 : Word).toNat+8 = 0x10008 := by decide
    have stop : (0x10000 : Word).toNat+totalSize twoRegionInfo 0x10000 = 0x10050 := by decide
    have next : nextTag twoRegionInfo 0x10008 = 0x10048 := by decide
    rw [start, stop]
    refine .memoryMap (by decide) (by decide) (by decide) ?_
    rw [next]
    exact .last (by decide) (by decide)
  regions := by decide
  block := ⟨by decide, by decide⟩
  order := by decide
  kernel := ⟨by decide, by decide⟩
  framebuffer := ⟨by decide, by decide⟩

theorem pmmInit_usable_twoRegions : ∃ s,
    (∃ n, ∀ fuel, n ≤ fuel → pmmInit fuel twoRegionLayout twoRegionInfo 0x10000 = some s) ∧
      (s.used 0x200 = false ↔ Usable twoRegionLayout twoRegionInfo 0x10000
        (tagRegions twoRegionInfo 0x10008 2 ++ []) 0x200) := by
  obtain ⟨s, run, free, -⟩ := pmmInit_usable twoRegionInfo_wellFormed
  exact ⟨s, run, free 0x200 (by decide)⟩

end TinyOS.Memory
