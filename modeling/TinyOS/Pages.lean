import Mathlib

set_option autoImplicit false

/-! Pages, addresses and page-table entries as 64-bit words (memory/vmm.h). -/
namespace TinyOS.Memory

abbrev Word := BitVec 64

abbrev pageSize : Word := 4096
abbrev pagePresent : Word := 1
abbrev pageWritable : Word := 2
abbrev pageUser : Word := 4
abbrev hugePage : Word := 128
abbrev pageMask : Word := 0x000FFFFFFFFFF000

def pageOf (address : Word) : ℕ := address.toNat/4096

def pageAddress (page : ℕ) : Word := BitVec.ofNat 64 (page*4096)

/-- `e & mask` as a condition -/
def has (mask e : Word) : Bool := e &&& mask != 0

/-- The page of the table the pointer `address & PAGE_MASK` points to. -/
def physicalToTable (address : Word) : ℕ := pageOf (address &&& pageMask)

def child (e : Word) : Option ℕ := if has pagePresent e then some (physicalToTable e) else none

/-- `for (a = start; a < stop; a += PAGE_SIZE)`, both ends page-aligned. -/
def pageRange (start stop : Word) : List Word :=
  (List.range ((stop.toNat - start.toNat)/4096)).map fun i => start + BitVec.ofNat 64 (i*4096)

def alignDown (value : Word) : Word := value &&& ~~~(pageSize - 1)

def alignUp (value : Word) : Word := (value + pageSize - 1) &&& ~~~(pageSize - 1)

theorem entries_pos : 0 < 512 := by decide

def index (shift : ℕ) (va : Word) : Fin 512 :=
  ⟨(va >>> shift).toNat%512, Nat.mod_lt _ entries_pos⟩

abbrev pml4Index (va : Word) : Fin 512 := index 39 va
abbrev pdptIndex (va : Word) : Fin 512 := index 30 va
abbrev pdIndex (va : Word) : Fin 512 := index 21 va
abbrev ptIndex (va : Word) : Fin 512 := index 12 va

def path (va : Word) : List (Fin 512) := [pml4Index va, pdptIndex va, pdIndex va, ptIndex va]

theorem pageOf_pageAddress {page : ℕ} (h : page < 2^52) : pageOf (pageAddress page) = page := by
  simp only [pageOf, pageAddress, BitVec.toNat_ofNat]
  omega

theorem pageAddress_toNat {page : ℕ} (h : page < 2^52) : (pageAddress page).toNat = page*4096 := by
  simp only [pageAddress, BitVec.toNat_ofNat]
  omega

theorem mask_bit (i : ℕ) : pageMask.getLsbD i = (decide (12 ≤ i) && decide (i < 52)) := by
  have : pageMask = (BitVec.allOnes 40).setWidth 64 <<< 12 := by decide
  rw [this]
  simp only [BitVec.getLsbD_shiftLeft, BitVec.getLsbD_setWidth, BitVec.getLsbD_allOnes]
  by_cases h : 12 ≤ i
  · by_cases h' : i < 52
    · simp [show i < 64 by omega, show ¬i < 12 by omega, show i-12 < 64 by omega,
        show i-12 < 40 by omega, h, h']
    · simp [show ¬i-12 < 40 by omega, h']
  · simp [show i < 12 by omega, h]

theorem pageAddress_and_mask {page : ℕ} (h : page < 2^40) :
    pageAddress page &&& pageMask = pageAddress page := by
  apply BitVec.eq_of_getLsbD_eq
  intro i hi
  rw [BitVec.getLsbD_and, mask_bit, pageAddress, BitVec.getLsbD_ofNat, show 4096 = 2^12 by rfl,
    Nat.testBit_mul_two_pow]
  by_cases h12 : 12 ≤ i
  · by_cases h52 : i < 52
    · simp [h12, h52, hi]
    · have : page.testBit (i-12) = false :=
        Nat.testBit_lt_two_pow (h.trans_le (Nat.pow_le_pow_right (by decide) (by omega)))
      simp [this]
  · simp [h12]

theorem low_bits (x : Word) : (x &&& (pageSize - 1)).toNat = x.toNat%4096 := by
  rw [BitVec.toNat_and]
  exact Nat.and_two_pow_sub_one_eq_mod x.toNat 12

theorem pageAddress_aligned (page : ℕ) : pageAddress page &&& (pageSize - 1) = 0 := by
  apply BitVec.eq_of_toNat_eq
  rw [low_bits]
  simp only [pageAddress, BitVec.toNat_ofNat, BitVec.ofNat_eq_ofNat]
  omega

theorem and_mask_eq (x : Word) : x &&& pageMask = pageAddress (physicalToTable x) := by
  have low : (x &&& pageMask).toNat%4096 = 0 := by
    rw [← low_bits, BitVec.and_assoc]
    simp
  apply BitVec.eq_of_toNat_eq
  have lt := (x &&& pageMask).isLt
  simp only [pageAddress, physicalToTable, pageOf, BitVec.toNat_ofNat]
  omega

theorem aligned_eq {x : Word} (h : x &&& (pageSize - 1) = 0) : pageAddress (pageOf x) = x := by
  have low : x.toNat%4096 = 0 := by
    rw [← low_bits, h]
    rfl
  apply BitVec.eq_of_toNat_eq
  have lt := x.isLt
  simp only [pageAddress, pageOf, BitVec.toNat_ofNat]
  omega

theorem or_and_mask {e low : Word} (h : low &&& pageMask = 0) :
    (e ||| low) &&& pageMask = e &&& pageMask := by
  rw [BitVec.and_or_distrib_right, h]
  exact BitVec.or_zero

@[simp] theorem has_or (mask a b : Word) : has mask (a ||| b) = (has mask a || has mask b) := by
  rw [Bool.eq_iff_iff]
  simp only [has, BitVec.and_or_distrib_right, Bool.or_eq_true, bne_iff_ne, ne_eq]
  rw [show (0 : Word) = 0#64 from rfl, BitVec.or_eq_zero_iff, not_and_or]

theorem has_and_self (mask e : Word) : has mask (e &&& mask) = has mask e := by
  rw [has, BitVec.and_assoc, BitVec.and_self, has]

theorem has_and_of_disjoint {mask m : Word} (e : Word) (h : m &&& mask = 0) :
    has mask (e &&& m) = false := by
  rw [has, BitVec.and_assoc, h]
  simp

theorem low_and_mask {m : Word} (e : Word) (h : m &&& pageMask = 0) : e &&& m &&& pageMask = 0 := by
  rw [BitVec.and_assoc, h]
  exact BitVec.and_zero

theorem child_of_present {e : Word} (h : has pagePresent e = true) :
    child e = some (physicalToTable e) := by rw [child, if_pos h]

theorem child_eq_none {e : Word} : child e = none ↔ has pagePresent e = false := by
  rw [child]
  cases has pagePresent e <;> simp

theorem present_of_child {e : Word} {c : ℕ} (h : child e = some c) :
    has pagePresent e = true ∧ physicalToTable e = c := by
  rw [child] at h
  split_ifs at h with hp
  exact ⟨hp, Option.some.inj h⟩

theorem child_or {e low : Word} {c : ℕ} (h : child e = some c) (hl : low &&& pageMask = 0) :
    child (e ||| low) = some c := by
  obtain ⟨hp, rfl⟩ := present_of_child h
  have hp' : has pagePresent (e ||| low) = true := by rw [has_or, hp, Bool.true_or]
  rw [child_of_present hp', physicalToTable, or_and_mask hl, physicalToTable]

@[simp] theorem child_zero : child 0 = none := by decide

theorem physicalToTable_pageAddress {page : ℕ} (h : page < 2^40) :
    physicalToTable (pageAddress page) = page := by
  rw [physicalToTable, pageAddress_and_mask h,
    pageOf_pageAddress (h.trans_le (Nat.pow_le_pow_right (by decide) (by decide)))]

theorem physicalToTable_aligned {x : Word} (h : x &&& (pageSize - 1) = 0)
    (lt : x < 0x10000000000000) : physicalToTable x = pageOf x := by
  have := BitVec.lt_def.mp lt
  simp only [BitVec.ofNat_eq_ofNat, BitVec.toNat_ofNat] at this
  have lt40 : pageOf x < 2^40 := by
    simp only [pageOf]
    omega
  calc
    physicalToTable x = physicalToTable (pageAddress (pageOf x)) := by rw [aligned_eq h]
    _ = pageOf x := physicalToTable_pageAddress lt40

/-- The entry `map_page_in` links a new table with. -/
def tableEntry (page : ℕ) (flags : Word) : Word :=
  pageAddress page ||| pagePresent ||| pageWritable ||| (flags &&& pageUser)

theorem tableEntry_eq (page : ℕ) (flags : Word) : tableEntry page flags =
    pageAddress page ||| (pagePresent ||| pageWritable ||| (flags &&& pageUser)) := by
  simp only [tableEntry, BitVec.or_assoc]

theorem tableEntry_low (flags : Word) :
    (pagePresent ||| pageWritable ||| (flags &&& pageUser)) &&& pageMask = 0 := by
  rw [BitVec.and_or_distrib_right, low_and_mask flags (by decide)]
  decide

theorem has_pageAddress {page : ℕ} {mask : Word} (h : page < 2^40) (hm : pageMask &&& mask = 0) :
    has mask (pageAddress page) = false := by
  rw [← pageAddress_and_mask h]
  exact has_and_of_disjoint _ hm

theorem child_tableEntry {page : ℕ} (h : page < 2^40) (flags : Word) :
    child (tableEntry page flags) = some page := by
  have hp : has pagePresent (tableEntry page flags) = true := by
    rw [tableEntry, has_or, has_or, has_or, show has pagePresent pagePresent = true by decide]
    simp
  rw [child_of_present hp, physicalToTable, tableEntry_eq, or_and_mask (tableEntry_low flags),
    ← physicalToTable, physicalToTable_pageAddress h]

theorem has_tableEntry {page : ℕ} {mask : Word} (h : page < 2^40) (flags : Word)
    (hm : pageMask &&& mask = 0) : has mask (tableEntry page flags) =
      (has mask pagePresent || has mask pageWritable || has mask (flags &&& pageUser)) := by
  simp only [tableEntry, has_or, has_pageAddress h hm, Bool.false_or]

/-- The entry `map_page_in` fills a leaf with. -/
def leafEntry (physical flags : Word) : Word := physical &&& pageMask ||| flags ||| pagePresent

theorem leafEntry_present (physical flags : Word) :
    has pagePresent (leafEntry physical flags) = true := by
  rw [leafEntry, has_or, show has pagePresent pagePresent = true by decide, Bool.or_true]

theorem child_leafEntry (physical : Word) {flags : Word} (h : flags &&& pageMask = 0) :
    child (leafEntry physical flags) = some (physicalToTable physical) := by
  have low : (flags ||| pagePresent) &&& pageMask = 0 := by
    rw [BitVec.and_or_distrib_right, h]
    decide
  rw [child_of_present (leafEntry_present physical flags), physicalToTable, leafEntry,
    BitVec.or_assoc, or_and_mask low, BitVec.and_assoc, BitVec.and_self, physicalToTable]

theorem and_not_low {w : ℕ} (x : BitVec w) (k : ℕ) :
    x &&& ~~~(BitVec.ofNat w (2^k-1)) = (x >>> k) <<< k := by
  apply BitVec.eq_of_getLsbD_eq
  intro i hi
  rw [BitVec.getLsbD_and, BitVec.getLsbD_not, BitVec.getLsbD_ofNat, Nat.testBit_two_pow_sub_one,
    BitVec.getLsbD_shiftLeft, BitVec.getLsbD_ushiftRight]
  by_cases h : i < k
  · simp [h, hi]
  · simp [h, hi, show k+(i-k) = i by omega]

theorem and_not_low_toNat {w : ℕ} (x : BitVec w) (k : ℕ) :
    (x &&& ~~~(BitVec.ofNat w (2^k-1))).toNat = x.toNat/2^k*2^k := by
  rw [and_not_low, BitVec.toNat_shiftLeft, BitVec.toNat_ushiftRight, Nat.shiftRight_eq_div_pow,
    Nat.shiftLeft_eq]
  exact Nat.mod_eq_of_lt (lt_of_le_of_lt (Nat.div_mul_le_self _ _) x.isLt)

theorem alignDown_toNat (x : Word) : (alignDown x).toNat = x.toNat/4096*4096 :=
  and_not_low_toNat x 12

theorem alignUp_toNat {x : Word} (h : x.toNat+4095 < 2^64) :
    (alignUp x).toNat = (x.toNat+4095)/4096*4096 := by
  have sum : (x + pageSize - 1).toNat = x.toNat+4095 := by
    simp only [BitVec.toNat_add, BitVec.toNat_sub, BitVec.ofNat_eq_ofNat, BitVec.toNat_ofNat]
    omega
  rw [← sum]
  exact and_not_low_toNat (x + pageSize - 1) 12

theorem alignDown_eq (x : Word) : alignDown x = pageAddress (x.toNat/4096) := by
  apply BitVec.eq_of_toNat_eq
  have lt := x.isLt
  rw [alignDown_toNat, pageAddress_toNat (by omega)]

theorem alignUp_eq {x : Word} (h : x.toNat+4095 < 2^64) :
    alignUp x = pageAddress ((x.toNat+4095)/4096) := by
  apply BitVec.eq_of_toNat_eq
  rw [alignUp_toNat h, pageAddress_toNat (by omega)]

theorem pageAddress_add (a i : ℕ) :
    pageAddress a + BitVec.ofNat 64 (i*4096) = pageAddress (a+i) := by
  rw [pageAddress, pageAddress, Nat.add_mul, BitVec.ofNat_add]

theorem pageRange_eq {a c : ℕ} (ha : a < 2^52) (hc : c < 2^52) :
    pageRange (pageAddress a) (pageAddress c) = (List.range' a (c-a)).map pageAddress := by
  have count : ((pageAddress c).toNat - (pageAddress a).toNat)/4096 = c-a := by
    rw [pageAddress_toNat ha, pageAddress_toNat hc]
    omega
  rw [pageRange, count, List.range'_eq_map_range, List.map_map]
  exact List.map_congr_left fun i _ => pageAddress_add a i

theorem mem_pageRange {a c : ℕ} {va : Word} (ha : a < 2^52) (hc : c < 2^52) :
    va ∈ pageRange (pageAddress a) (pageAddress c) ↔ ∃ p, a ≤ p ∧ p < c ∧ va = pageAddress p := by
  rw [pageRange_eq ha hc, List.mem_map]
  constructor
  · rintro ⟨p, mem, rfl⟩
    rw [List.mem_range'_1] at mem
    exact ⟨p, by omega, by omega, rfl⟩
  · rintro ⟨p, le, lt, rfl⟩
    exact ⟨p, List.mem_range'_1.mpr (by omega), rfl⟩

theorem toNat_add_ofNat {p : Word} {i : ℕ} (h : p.toNat+i < 2^64) :
    (p+BitVec.ofNat 64 i).toNat = p.toNat+i := by
  rw [BitVec.toNat_add, BitVec.toNat_ofNat, Nat.mod_eq_of_lt (show i < 2^64 by omega),
    Nat.mod_eq_of_lt h]

def pagePath (page : ℕ) : List (Fin 512) :=
  [⟨page/2^27%512, Nat.mod_lt _ entries_pos⟩, ⟨page/2^18%512, Nat.mod_lt _ entries_pos⟩,
    ⟨page/2^9%512, Nat.mod_lt _ entries_pos⟩, ⟨page%512, Nat.mod_lt _ entries_pos⟩]

theorem path_eq (va : Word) : path va = pagePath (pageOf va) := by
  have shift {k : ℕ} : (va >>> (12+k)).toNat%512 = va.toNat/4096/2^k%512 := by
    rw [BitVec.toNat_ushiftRight, Nat.shiftRight_eq_div_pow, pow_add, Nat.div_div_eq_div_mul]
    rfl
  have h39 := @shift 27
  have h30 := @shift 18
  have h21 := @shift 9
  have h12 := @shift 0
  simp only [Nat.reduceAdd, pow_zero, Nat.div_one] at h39 h30 h21 h12
  simp only [path, pagePath, index, pageOf, h39, h30, h21, h12]

theorem pagePath_inj {p q : ℕ} (hp : p < 2^36) (hq : q < 2^36) (h : pagePath p = pagePath q) :
    p = q := by
  simp only [pagePath, List.cons.injEq, Fin.mk.injEq, and_true] at h
  omega

end TinyOS.Memory
