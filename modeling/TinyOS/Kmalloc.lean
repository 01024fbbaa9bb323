import TinyOS.PmmFirstFit
import TinyOS.PmmRuns
import TinyOS.Vmm

set_option autoImplicit false

/-! The kernel heap (memory/kmalloc.c): whole pages behind a header of three words. -/
namespace TinyOS.Memory
open StateRuns

abbrev kmallocMagic : Word := 0x4B4D414C4C4F43

/-- `sizeof(allocation_header_t)` -/
abbrev headerSize : Word := 24

def wordIndex (a : Word) : Fin 512 := ⟨a.toNat/8%512, Nat.mod_lt _ entries_pos⟩

def Kernel.wordAt (k : Kernel) (a : Word) : Word := k.memory (pageOf a) (wordIndex a)

def storeWord (a w : Word) : KernelM Unit := writeEntry (pageOf a) (wordIndex a) w

def setByte (w : Word) (i : ℕ) (b : BitVec 8) : Word :=
  (w &&& ~~~((0xFF : Word) <<< (8*i))) ||| (b.setWidth 64 <<< (8*i))

def storeByte (a : Word) (b : BitVec 8) : KernelM Unit := fun k =>
  (storeWord a (setByte (k.wordAt a) (a.toNat%8) b)).run k

def allocPages (count : Word) : KernelM Word := fun k =>
  ((pmmAllocPages k.pmm count).1, { k with pmm := (pmmAllocPages k.pmm count).2 })

def kmallocInit : KernelM Unit := modify fun k => { k with heapUsed := 0, heapTotal := 0 }

/-- The pages a block of `size` bytes takes, in the arithmetic of the code. -/
def kmallocPages (size : Word) : Word := (headerSize + size + pageSize - 1)/pageSize

def kmalloc (size : Word) : KernelM Word := do
  if size = 0 then return 0
  let pages := kmallocPages size
  let address ← allocPages pages
  if address = 0 then return 0
  storeWord address kmallocMagic
  storeWord (address + 8) pages
  storeWord (address + 16) size
  modify fun k => { k with
    heapUsed := k.heapUsed + pages*pageSize
    heapTotal := k.heapTotal + pages*pageSize }
  return address + headerSize

def freePages (s : Pmm) (address : Word) (pages : ℕ) : Pmm :=
  (List.range pages).foldl (fun s i => pmmFreePage s (address + BitVec.ofNat 64 i*pageSize)) s

def kfree (ptr : Word) : KernelM Unit := do
  if ptr = 0 then return ()
  let header := ptr - headerSize
  let k ← get
  if k.wordAt header ≠ kmallocMagic then return ()
  let pages := k.wordAt (header + 8)
  modify fun k => { k with
    pmm := freePages k.pmm header pages.toNat
    heapUsed := if pages*pageSize ≤ k.heapUsed then k.heapUsed - pages*pageSize else 0 }
  storeWord header 0

structure Block where
  ptr : Word
  size : Word

def Block.first (b : Block) : ℕ := pageOf b.ptr

def Block.pages (b : Block) : ℕ := (kmallocPages b.size).toNat

def Block.run (b : Block) : Finset ℕ := Finset.Ico b.first (b.first+b.pages)

inductive HeapOp where
  | kmalloc (size : Word)
  | kfree (ptr : Word)
  | write (a : Word) (b : BitVec 8)

structure HeapState where
  kernel : Kernel
  live : List Block

def HeapState.next (s : HeapState) : HeapOp → HeapState
  | .kmalloc size =>
    let r := (kmalloc size).run s.kernel
    ⟨r.2, if r.1 = 0 then s.live else ⟨r.1, size⟩ :: s.live⟩
  | .kfree ptr => ⟨((kfree ptr).run s.kernel).2, s.live.filter fun b => b.ptr ≠ ptr⟩
  | .write a b => ⟨((storeByte a b).run s.kernel).2, s.live⟩

/-- Sizes below 2^63, only NULL or live pointers freed, only bytes of live blocks written. -/
def HeapOp.Ok (s : HeapState) : HeapOp → Prop
  | .kmalloc size => size.toNat < 2^63
  | .kfree ptr => ptr = 0 ∨ ∃ b ∈ s.live, b.ptr = ptr
  | .write a _ => ∃ b ∈ s.live, b.ptr.toNat ≤ a.toNat ∧ a.toNat < b.ptr.toNat+b.size.toNat

/-- `kmalloc_init` after `pmm_init`. -/
def HeapStart (start : Pmm) (s : HeapState) : Prop :=
  ∃ k : Kernel, k.pmm = start ∧ s = ⟨(kmallocInit.run k).2, []⟩

abbrev HeapReach (start : Pmm) : HeapState → Prop :=
  Reach (HeapStart start) (fun op s t => t = s.next op) HeapOp.Ok

def held : List Block → Finset ℕ
  | [] => ∅
  | b :: rest => held rest ∪ b.run

def heldCount (live : List Block) : ℕ := (live.map Block.pages).sum

/-- A block is where its pointer says and its header is as `kmalloc` wrote it. -/
structure Block.Intact (k : Kernel) (b : Block) : Prop where
  ptr : b.ptr = pageAddress b.first + headerSize
  small : b.size.toNat < 2^63
  pos : 0 < b.pages
  magic : k.wordAt (b.ptr - headerSize) = kmallocMagic
  pages : k.wordAt (b.ptr - headerSize + 8) = BitVec.ofNat 64 b.pages

structure HeapInv (start : Pmm) (s : HeapState) : Prop where
  accounted : Accounted start ⟨s.kernel.pmm, held s.live⟩
  apart : s.live.Pairwise fun b c => Disjoint b.run c.run
  intact : ∀ b ∈ s.live, b.Intact s.kernel
  used : s.kernel.heapUsed = BitVec.ofNat 64 (4096*heldCount s.live)

variable {start : Pmm} {s : HeapState} {k : Kernel}

theorem mem_held {live : List Block} {p : ℕ} : p ∈ held live ↔ ∃ b ∈ live, p ∈ b.run := by
  induction live with
  | nil => simp [held]
  | cons b rest ih =>
    rw [held, Finset.mem_union, ih, List.exists_mem_cons_iff]
    exact or_comm

theorem card_held {live : List Block} (h : live.Pairwise fun b c => Disjoint b.run c.run) :
    (held live).card = heldCount live := by
  induction live with
  | nil => rfl
  | cons b rest ih =>
    obtain ⟨hb, hr⟩ := List.pairwise_cons.mp h
    have disjoint : Disjoint (held rest) b.run := by
      rw [Finset.disjoint_left]
      intro p hp hq
      obtain ⟨c, hc, hp⟩ := mem_held.mp hp
      exact Finset.disjoint_left.mp (hb c hc) hq hp
    have size : b.run.card = b.pages := by rw [Block.run, Nat.card_Ico, Nat.add_sub_cancel_left]
    rw [held, Finset.card_union_of_disjoint disjoint, ih hr, size, heldCount, heldCount,
      List.map_cons, List.sum_cons, Nat.add_comm]

theorem HeapInv.count_le (h : HeapInv start s) : heldCount s.live ≤ 1048576 := by
  rw [← card_held h.apart]
  have sub : held s.live ⊆ Finset.range 1048576 := fun p hp =>
    Finset.mem_range.mpr (h.accounted.owned_lt p hp).2
  have := Finset.card_le_card sub
  rwa [Finset.card_range] at this

theorem kmallocPages_toNat {size : Word} (h : size.toNat < 2^63) :
    (kmallocPages size).toNat = (size.toNat+4119)/4096 := by
  rw [kmallocPages, BitVec.toNat_udiv]
  have sum : (headerSize + size + pageSize - 1).toNat = size.toNat+4119 := by
    simp only [BitVec.toNat_add, BitVec.toNat_sub, BitVec.ofNat_eq_ofNat, BitVec.toNat_ofNat]
    omega
  rw [sum]
  rfl

theorem page_word {page off : ℕ} (hp : page < 2^52) (ho : off < 4096) :
    pageOf (pageAddress page + BitVec.ofNat 64 off) = page ∧
      (wordIndex (pageAddress page + BitVec.ofNat 64 off)).val = off/8 := by
  have sum : (pageAddress page + BitVec.ofNat 64 off).toNat = page*4096+off := by
    rw [BitVec.toNat_add, pageAddress_toNat hp, BitVec.toNat_ofNat]
    omega
  simp only [pageOf, wordIndex, sum]
  omega

theorem wordAt_storeWord (a w : Word) (k : Kernel) :
    ((storeWord a w).run k).2.wordAt a = w := RadixTables.setEntry_self _ _ _ _

theorem wordAt_storeWord_ne {a b : Word} (w : Word) (k : Kernel)
    (ne : pageOf a = pageOf b → wordIndex a ≠ wordIndex b) :
    ((storeWord b w).run k).2.wordAt a = k.wordAt a := RadixTables.setEntry_ne _ _ ne

def Kernel.header (k : Kernel) (page : ℕ) (pages size : Word) : Kernel :=
  ((storeWord (pageAddress page + 16) size).run ((storeWord (pageAddress page + 8) pages).run
    ((storeWord (pageAddress page) kmallocMagic).run k).2).2).2

theorem header_words {page : ℕ} (hp : page < 2^52) (k : Kernel) (pages size : Word) :
    (k.header page pages size).wordAt (pageAddress page) = kmallocMagic ∧
    (k.header page pages size).wordAt (pageAddress page + 8) = pages ∧
    ∀ a, pageOf a ≠ page → (k.header page pages size).wordAt a = k.wordAt a := by
  have w0 : pageOf (pageAddress page) = page ∧ (wordIndex (pageAddress page)).val = 0 := by
    have := page_word hp (show 0 < 4096 by decide)
    rwa [show pageAddress page + BitVec.ofNat 64 0 = pageAddress page from BitVec.add_zero _]
      at this
  have w8 : pageOf (pageAddress page + 8) = page ∧ (wordIndex (pageAddress page + 8)).val = 1 :=
    page_word hp (show 8 < 4096 by decide)
  have w16 : pageOf (pageAddress page + 16) = page ∧ (wordIndex (pageAddress page + 16)).val = 2 :=
    page_word hp (show 16 < 4096 by decide)
  have apart {a b : Word} {i j : ℕ} (ha : (wordIndex a).val = i) (hb : (wordIndex b).val = j)
      (ne : i ≠ j) : wordIndex a ≠ wordIndex b := fun h => ne (by rw [← ha, ← hb, h])
  rw [Kernel.header]
  refine ⟨?_, ?_, fun a ne => ?_⟩
  · rw [wordAt_storeWord_ne _ _ fun _ => apart w0.2 w16.2 (by decide),
      wordAt_storeWord_ne _ _ fun _ => apart w0.2 w8.2 (by decide), wordAt_storeWord]
  · rw [wordAt_storeWord_ne _ _ fun _ => apart w8.2 w16.2 (by decide), wordAt_storeWord]
  · rw [wordAt_storeWord_ne _ _ fun h => absurd (h.trans w16.1) ne,
      wordAt_storeWord_ne _ _ fun h => absurd (h.trans w8.1) ne,
      wordAt_storeWord_ne _ _ fun h => absurd (h.trans w0.1) ne]

theorem kmalloc_run {size address : Word} {pmm : Pmm} (hz : size ≠ 0)
    (h : pmmAllocPages k.pmm (kmallocPages size) = (address, pmm)) :
    (kmalloc size).run k = if address = 0 then (0, { k with pmm := pmm })
      else (address + headerSize, { ((storeWord (address + 16) size).run
        ((storeWord (address + 8) (kmallocPages size)).run
          ((storeWord address kmallocMagic).run { k with pmm := pmm }).2).2).2 with
        heapUsed := k.heapUsed + kmallocPages size*pageSize
        heapTotal := k.heapTotal + kmallocPages size*pageSize }) := by
  have alloc : (allocPages (kmallocPages size)).run k = (address, { k with pmm := pmm }) := by
    change ((pmmAllocPages k.pmm _).1, _) = _
    rw [h]
  simp only [kmalloc, if_neg hz, run_bind, alloc]
  split_ifs <;> rfl

/-- `kmalloc` fails with nothing changed, or takes a free run and writes its header. -/
theorem kmalloc_cases (size : Word) (acc : Accounted start ⟨k.pmm, held s.live⟩)
    (h0 : start.used 0 = true) :
    (kmalloc size).run k = (0, k) ∨ ∃ first, 0 < first ∧ 0 < (kmallocPages size).toNat ∧
      first+(kmallocPages size).toNat ≤ maxPages ∧
      (∀ p, first ≤ p → p < first+(kmallocPages size).toNat →
        p ∉ held s.live ∧ start.used p = false) ∧
      (kmalloc size).run k = (pageAddress first + headerSize,
        { Kernel.header { k with pmm := k.pmm.takeRun first (kmallocPages size).toNat } first
            (kmallocPages size) size with
          heapUsed := k.heapUsed + kmallocPages size*pageSize
          heapTotal := k.heapTotal + kmallocPages size*pageSize }) := by
  by_cases hz : size = 0
  · refine .inl ?_
    rw [kmalloc, if_pos hz]
    rfl
  have allocation : Allocation start ⟨k.pmm, held s.live⟩ (.allocPages (kmallocPages size)) :=
    acc.allocation h0 fun _ => nofun
  rcases allocation with h | ⟨first, pos, asked, le, free, h⟩
  · refine .inl ?_
    rw [kmalloc_run hz h, if_pos rfl]
  · refine .inr ⟨first, pos, asked, le, free, ?_⟩
    rw [kmalloc_run hz h, if_neg (pageAddress_ne_zero pos (by
      have : maxPages = 1048576 := rfl
      omega))]
    rfl

theorem freePages_held {t : Pmm} {owned : Finset ℕ} {first count : ℕ}
    (acc : Accounted start ⟨t, owned⟩) (sub : Finset.Ico first (first+count) ⊆ owned) :
    Accounted start ⟨freePages t (pageAddress first) count,
      owned \ Finset.Ico first (first+count)⟩ := by
  induction count with
  | zero =>
    rw [Nat.add_zero, Finset.Ico_self, Finset.sdiff_empty]
    exact acc
  | succ count ih =>
    have sub' : Finset.Ico first (first+count) ⊆ owned := fun p hp =>
      sub (Finset.Ico_subset_Ico_right (by omega) hp)
    have last : first+count ∈ owned := sub (Finset.mem_Ico.mpr ⟨by omega, by omega⟩)
    obtain ⟨pos, lt⟩ := acc.owned_lt _ last
    have held : first+count ∈ owned \ Finset.Ico first (first+count) := by
      rw [Finset.mem_sdiff, Finset.mem_Ico]
      exact ⟨last, by omega⟩
    have address : pageAddress first + BitVec.ofNat 64 count*pageSize =
        pageAddress (first+count) := by
      rw [pageAddress, pageAddress, Nat.add_mul, BitVec.ofNat_add, BitVec.ofNat_mul count]
      rfl
    have step : freePages t (pageAddress first) (count+1) =
        (freePages t (pageAddress first) count).give (first+count) := by
      rw [freePages, List.range_succ, List.foldl_append, List.foldl_cons, List.foldl_nil, address]
      exact pmmFreePage_pageAddress pos lt (((ih sub').used _).mpr (.inr held))
    have rest : (owned \ Finset.Ico first (first+count)).erase (first+count) =
        owned \ Finset.Ico first (first+(count+1)) := by
      ext p
      simp only [Finset.mem_erase, Finset.mem_sdiff, Finset.mem_Ico]
      refine ⟨fun h => ⟨h.2.1, ?_⟩, fun h => ⟨?_, h.1, ?_⟩⟩
      · omega
      · omega
      · omega
    rw [step, ← rest]
    exact (ih sub').give held

theorem Accounted.unique {t t' : Pmm} {owned : Finset ℕ} (h : Accounted start ⟨t, owned⟩)
    (h' : Accounted start ⟨t', owned⟩) : t = t' := by
  have used : t.used = t'.used := by
    funext p
    rw [Bool.eq_iff_iff]
    exact (h.used p).trans (h'.used p).symm
  have clear : t.clear = t'.clear := by rw [Pmm.clear, Pmm.clear, used]
  have counted : t.freePages = t'.freePages := by
    have := h.counted
    rw [Pmm.Counted, clear] at this
    exact this.trans h'.counted.symm
  have total : t.totalPages = t'.totalPages := h.total.trans h'.total.symm
  cases t
  cases t'
  cases used
  cases total
  cases counted
  rfl

/-- The free pages and the pages held add up to the pages free at the start. -/
theorem Accounted.free_add (hs : Marked start) {t : Pmm} {owned : Finset ℕ}
    (h : Accounted start ⟨t, owned⟩) :
    t.freePages.toNat + owned.card = start.freePages.toNat := by
  have disjoint : Disjoint t.clear owned := by
    rw [Finset.disjoint_left]
    intro p hp hm
    have := (h.used p).mpr (.inr hm)
    rw [(mem_clear.mp hp).2] at this
    cases this
  have union : t.clear ∪ owned = start.clear := by
    ext p
    rw [Finset.mem_union, mem_clear, mem_clear]
    constructor
    · rintro (⟨lt, free⟩ | hm)
      · exact ⟨lt, (h.free free).2⟩
      · exact ⟨(h.owned_lt p hm).2, h.apart p hm⟩
    · rintro ⟨lt, free⟩
      by_cases hm : p ∈ owned
      · exact .inr hm
      · refine .inl ⟨lt, ?_⟩
        by_contra hu
        rcases (h.used p).mp (Bool.not_eq_false _ ▸ hu) with hu | hu
        · rw [free] at hu
          cases hu
        · exact hm hu
  rw [h.counted.toNat, hs.counted.toNat, ← Finset.card_union_of_disjoint disjoint, union]

theorem HeapInv.first_lt (h : HeapInv start s) {b : Block} (hb : b ∈ s.live) :
    0 < b.first ∧ b.first+b.pages ≤ 1048576 := by
  have pos := (h.intact b hb).pos
  have mem (p : ℕ) (hl : b.first ≤ p) (hr : p < b.first+b.pages) : 0 < p ∧ p < 1048576 :=
    h.accounted.owned_lt p (mem_held.mpr ⟨b, hb, Finset.mem_Ico.mpr ⟨hl, hr⟩⟩)
  have low := mem b.first (le_refl _) (by omega)
  have high := mem (b.first+b.pages-1) (by omega) (by omega)
  omega

theorem Block.Intact.header {b : Block} (h : b.Intact k) :
    b.ptr - headerSize = pageAddress b.first := by
  rw [h.ptr]
  exact BitVec.add_sub_cancel _ _

theorem Block.Intact.frame {b : Block} {k' : Kernel} (h : b.Intact k) (lt : b.first < 2^52)
    (same : ∀ a, pageOf a = b.first → (wordIndex a).val < 3 → k'.wordAt a = k.wordAt a) :
    b.Intact k' where
  ptr := h.ptr
  small := h.small
  pos := h.pos
  magic := by
    have word := page_word lt (show 0 < 4096 by decide)
    rw [show pageAddress b.first + BitVec.ofNat 64 0 = pageAddress b.first from
      BitVec.add_zero _] at word
    rw [← h.magic, h.header]
    exact same _ word.1 (by rw [word.2]; decide)
  pages := by
    have word := page_word lt (show 8 < 4096 by decide)
    rw [← h.pages, h.header]
    exact same _ word.1 (by
      change (wordIndex (pageAddress b.first + BitVec.ofNat 64 8)).val < 3
      rw [word.2]
      decide)

theorem ofNat_toNat (w : Word) : BitVec.ofNat 64 w.toNat = w := by
  rw [BitVec.ofNat_toNat, BitVec.setWidth_eq]

theorem ofNat_pages (n m : ℕ) : BitVec.ofNat 64 (4096*n) + BitVec.ofNat 64 m*pageSize =
    BitVec.ofNat 64 (4096*(m+n)) := by
  rw [show pageSize = BitVec.ofNat 64 4096 from rfl, ← BitVec.ofNat_mul, ← BitVec.ofNat_add]
  congr 1
  omega

theorem HeapInv.initial (hs : Marked start) (h : HeapStart start s) : HeapInv start s := by
  obtain ⟨k, rfl, rfl⟩ := h
  exact {
    accounted := .initial hs
    apart := List.Pairwise.nil
    intact := fun b hb => absurd hb List.not_mem_nil
    used := rfl }

theorem HeapInv.allocated (h : HeapInv start s) (h0 : start.used 0 = true) {size : Word}
    (small : size.toNat < 2^63) : HeapInv start (s.next (.kmalloc size)) := by
  rcases kmalloc_cases size h.accounted h0 with run | ⟨first, pos, asked, le, free, run⟩
  · have : s.next (.kmalloc size) = s := by
      rw [HeapState.next, run, if_pos rfl]
    rw [this]
    exact h
  have le' : first+(kmallocPages size).toNat ≤ 1048576 := le
  have lt52 : first < 2^52 := by omega
  have sum : (pageAddress first + headerSize).toNat = first*4096+24 := by
    rw [BitVec.toNat_add, pageAddress_toNat lt52]
    simp only [BitVec.ofNat_eq_ofNat, BitVec.toNat_ofNat]
    omega
  have ne : pageAddress first + headerSize ≠ 0 := by
    intro eq
    rw [eq] at sum
    simp at sum
  let b : Block := ⟨pageAddress first + headerSize, size⟩
  have at_first : b.first = first := by
    change pageOf (pageAddress first + headerSize) = first
    rw [pageOf, sum]
    omega
  have b_run : b.run = Finset.Ico first (first+(kmallocPages size).toNat) := by
    rw [Block.run, at_first]
    rfl
  have state : s.next (.kmalloc size) =
      ⟨(kmalloc size).run s.kernel |>.2, b :: s.live⟩ := by
    rw [HeapState.next, run, if_neg ne]
  obtain ⟨magic, pages, frame⟩ := header_words lt52
    { s.kernel with pmm := s.kernel.pmm.takeRun first (kmallocPages size).toNat }
    (kmallocPages size) size
  rw [state, run]
  exact {
    accounted := by
      have := h.accounted.take pos le free
      rw [← b_run] at this
      exact this
    apart := by
      refine List.pairwise_cons.mpr ⟨fun c hc => ?_, h.apart⟩
      rw [b_run, Finset.disjoint_left]
      intro p hp hq
      obtain ⟨hl, hr⟩ := Finset.mem_Ico.mp hp
      exact (free p hl hr).1 (mem_held.mpr ⟨c, hc, hq⟩)
    intact := by
      intro c hc
      rcases List.mem_cons.mp hc with rfl | hc
      · exact {
          ptr := by rw [at_first]
          small := small
          pos := asked
          magic := (congrArg _ (BitVec.add_sub_cancel _ _)).trans magic
          pages := by
            refine Eq.trans (congrArg _ (congrArg (· + 8) (BitVec.add_sub_cancel _ _))) ?_
            exact pages.trans (ofNat_toNat _).symm }
      · have live : c ∈ s.live := hc
        obtain ⟨cpos, cle⟩ := h.first_lt live
        refine (h.intact c live).frame (by omega) fun a page _ => frame a fun eq => ?_
        have pos := (h.intact c live).pos
        have own : c.first ∈ c.run := Finset.mem_Ico.mpr ⟨le_refl _, by omega⟩
        rw [← page, eq] at own
        exact (free _ (le_refl _) (by omega)).1 (mem_held.mpr ⟨c, live, own⟩)
    used := by
      change s.kernel.heapUsed + kmallocPages size*pageSize =
        BitVec.ofNat 64 (4096*heldCount (b :: s.live))
      rw [heldCount, List.map_cons, List.sum_cons, ← heldCount, h.used, ← ofNat_pages]
      congr 2
      exact (ofNat_toNat _).symm }

theorem HeapInv.apart_of (h : HeapInv start s) {b c : Block} (hb : b ∈ s.live) (hc : c ∈ s.live)
    (ne : b ≠ c) : Disjoint b.run c.run := by
  have : Std.Symm fun b c : Block => Disjoint b.run c.run := ⟨fun _ _ h => Disjoint.symm h⟩
  exact h.apart.forall hb hc ne

theorem Block.Intact.first_mem {b : Block} (h : b.Intact k) : b.first ∈ b.run := by
  have := h.pos
  exact Finset.mem_Ico.mpr ⟨le_refl _, by omega⟩

theorem HeapInv.first_inj (h : HeapInv start s) {b c : Block} (hb : b ∈ s.live) (hc : c ∈ s.live)
    (eq : b.first = c.first) : b = c := by
  by_contra ne
  have own := (h.intact b hb).first_mem
  have own' := (h.intact c hc).first_mem
  rw [← eq] at own'
  exact Finset.disjoint_left.mp (h.apart_of hb hc ne) own own'

theorem ptr_toNat {b : Block} (h : b.Intact k) (lt : b.first < 2^51) :
    b.ptr.toNat = b.first*4096+24 := by
  rw [h.ptr, BitVec.toNat_add, pageAddress_toNat (by omega)]
  simp only [BitVec.ofNat_eq_ofNat, BitVec.toNat_ofNat]
  omega

theorem kfree_run {b : Block} (h : b.Intact k) (lt : b.first < 2^51) (few : b.pages < 2^64) :
    (kfree b.ptr).run k = (storeWord (pageAddress b.first) 0).run { k with
      pmm := freePages k.pmm (pageAddress b.first) b.pages
      heapUsed := if BitVec.ofNat 64 b.pages*pageSize ≤ k.heapUsed then
        k.heapUsed - BitVec.ofNat 64 b.pages*pageSize else 0 } := by
  have ne : b.ptr ≠ 0 := by
    intro eq
    have := ptr_toNat h lt
    rw [eq] at this
    simp at this
  have magic : ¬k.wordAt (b.ptr - headerSize) ≠ kmallocMagic := not_not.mpr h.magic
  have count : (BitVec.ofNat 64 b.pages).toNat = b.pages := by
    rw [BitVec.toNat_ofNat]
    omega
  rw [kfree, if_neg ne]
  change (if k.wordAt (b.ptr - headerSize) ≠ kmallocMagic then (pure () : KernelM Unit) else do
    let pages := k.wordAt (b.ptr - headerSize + 8)
    modify fun k => { k with
      pmm := freePages k.pmm (b.ptr - headerSize) pages.toNat
      heapUsed := if pages*pageSize ≤ k.heapUsed then k.heapUsed - pages*pageSize else 0 }
    storeWord (b.ptr - headerSize) 0).run k = _
  rw [if_neg magic, h.pages, h.header]
  dsimp only
  rw [count]
  rfl

theorem HeapInv.filter (h : HeapInv start s) {b : Block} (hb : b ∈ s.live) :
    held (s.live.filter fun c => c.ptr ≠ b.ptr) = held s.live \ b.run ∧
    b.pages+heldCount (s.live.filter fun c => c.ptr ≠ b.ptr) = heldCount s.live := by
  have rest : held (s.live.filter fun c => c.ptr ≠ b.ptr) = held s.live \ b.run := by
    ext p
    rw [Finset.mem_sdiff, mem_held, mem_held]
    constructor
    · rintro ⟨c, hc, hp⟩
      obtain ⟨hc, ne⟩ := List.mem_filter.mp hc
      refine ⟨⟨c, hc, hp⟩, fun hq => ?_⟩
      have ne : c ≠ b := fun eq => by simp [eq] at ne
      exact Finset.disjoint_left.mp (h.apart_of hc hb ne) hp hq
    · rintro ⟨⟨c, hc, hp⟩, hq⟩
      refine ⟨c, List.mem_filter.mpr ⟨hc, ?_⟩, hp⟩
      have ne : c.ptr ≠ b.ptr := fun eq => by
        have := h.first_inj hc hb (congrArg pageOf eq)
        rw [this] at hp
        exact hq hp
      exact decide_eq_true ne
  have sub : b.run ⊆ held s.live := fun p hp => mem_held.mpr ⟨b, hb, hp⟩
  have size : b.run.card = b.pages := by rw [Block.run, Nat.card_Ico, Nat.add_sub_cancel_left]
  refine ⟨rest, ?_⟩
  rw [← card_held (h.apart.filter _), ← card_held h.apart, rest, ← size, Nat.add_comm]
  exact Finset.card_sdiff_add_card_eq_card sub

theorem HeapInv.freed (h : HeapInv start s) {ptr : Word}
    (ok : ptr = 0 ∨ ∃ b ∈ s.live, b.ptr = ptr) : HeapInv start (s.next (.kfree ptr)) := by
  have nonzero {c : Block} (hc : c ∈ s.live) : c.ptr ≠ 0 := by
    intro eq
    have := ptr_toNat (h.intact c hc) (by have := h.first_lt hc; omega)
    rw [eq] at this
    simp at this
  rcases ok with rfl | ⟨b, hb, rfl⟩
  · have : s.next (.kfree 0) = s := by
      have keep : (s.live.filter fun c => c.ptr ≠ 0) = s.live :=
        List.filter_eq_self.mpr fun c hc => decide_eq_true (nonzero hc)
      rw [HeapState.next, keep]
      rfl
    rw [this]
    exact h
  obtain ⟨bpos, ble⟩ := h.first_lt hb
  have run := kfree_run (h.intact b hb) (by omega) (by omega)
  obtain ⟨rest, count⟩ := h.filter hb
  have total := h.count_le
  have used : s.kernel.heapUsed =
      BitVec.ofNat 64 (4096*heldCount (s.live.filter fun c => c.ptr ≠ b.ptr)) +
        BitVec.ofNat 64 b.pages*pageSize := by
    rw [ofNat_pages, count, h.used]
  have enough : BitVec.ofNat 64 b.pages*pageSize ≤ s.kernel.heapUsed := by
    rw [BitVec.le_def, h.used, ← count, BitVec.toNat_mul, BitVec.toNat_ofNat, BitVec.toNat_ofNat,
      show pageSize.toNat = 4096 from rfl]
    omega
  rw [if_pos enough] at run
  have state : s.next (.kfree b.ptr) = ⟨((kfree b.ptr).run s.kernel).2,
      s.live.filter fun c => c.ptr ≠ b.ptr⟩ := rfl
  rw [state, run]
  exact {
    accounted := by
      have sub : Finset.Ico b.first (b.first+b.pages) ⊆ held s.live := fun p hp =>
        mem_held.mpr ⟨b, hb, hp⟩
      have := freePages_held h.accounted sub
      rw [← Block.run, ← rest] at this
      exact this
    apart := h.apart.filter _
    intact := by
      intro c hc
      obtain ⟨live, ne⟩ := List.mem_filter.mp hc
      obtain ⟨cpos, cle⟩ := h.first_lt live
      refine (h.intact c live).frame (by omega) fun a page _ => wordAt_storeWord_ne _ _ ?_
      intro eq
      rw [page, pageOf_pageAddress (by omega)] at eq
      rw [h.first_inj live hb eq] at ne
      simp at ne
    used := by
      change s.kernel.heapUsed - BitVec.ofNat 64 b.pages*pageSize = _
      rw [used]
      exact BitVec.add_sub_cancel _ _ }

/-- A byte of a block lies on its pages, past the three words of its header. -/
theorem HeapInv.write_inside (h : HeapInv start s) {b : Block} (hb : b ∈ s.live) {a : Word}
    (le : b.ptr.toNat ≤ a.toNat) (lt : a.toNat < b.ptr.toNat+b.size.toNat) :
    pageOf a ∈ b.run ∧ (pageOf a = b.first → 3 ≤ (wordIndex a).val) := by
  obtain ⟨bpos, ble⟩ := h.first_lt hb
  have ptr := ptr_toNat (h.intact b hb) (by omega)
  have pages : b.pages = (b.size.toNat+4119)/4096 := kmallocPages_toNat (h.intact b hb).small
  constructor
  · refine Finset.mem_Ico.mpr ⟨?_, ?_⟩
    · rw [pageOf]
      omega
    · rw [pageOf]
      omega
  · intro eq
    rw [pageOf] at eq
    simp only [wordIndex]
    omega

theorem HeapInv.written (h : HeapInv start s) {a : Word} {v : BitVec 8}
    (ok : ∃ b ∈ s.live, b.ptr.toNat ≤ a.toNat ∧ a.toNat < b.ptr.toNat+b.size.toNat) :
    HeapInv start (s.next (.write a v)) := by
  obtain ⟨b, hb, le, lt⟩ := ok
  obtain ⟨inside, beyond⟩ := h.write_inside hb le lt
  exact {
    accounted := h.accounted
    apart := h.apart
    intact := by
      intro c hc
      have live : c ∈ s.live := hc
      obtain ⟨cpos, cle⟩ := h.first_lt live
      refine (h.intact c live).frame (by omega) fun x page low => wordAt_storeWord_ne _ _ ?_
      intro eq
      have own := (h.intact c live).first_mem
      rw [← page, eq] at own
      have same : c = b := by
        by_contra ne
        exact Finset.disjoint_left.mp (h.apart_of live hb ne) own inside
      rw [same, eq] at page
      have := beyond page
      intro index
      rw [index] at low
      omega
    used := h.used }

theorem HeapReach.inv (hs : Initialised start) (h : HeapReach start s) : HeapInv start s := by
  obtain ⟨marked, h0⟩ := hs.marked
  refine h.invariant (fun s hs => .initial marked hs) ?_
  rintro s t op - inv ok rfl
  cases op with
  | kmalloc size => exact inv.allocated h0 ok
  | kfree ptr => exact inv.freed ok
  | write a b => exact inv.written ok

structure HeapSound (start : Pmm) (s : HeapState) : Prop where
  apart : s.live.Pairwise fun b c => Disjoint b.run c.run
  marked : ∀ b ∈ s.live, ∀ p ∈ b.run, s.kernel.pmm.used p = true
  header : ∀ b ∈ s.live, s.kernel.wordAt (b.ptr - headerSize) = kmallocMagic ∧
    (s.kernel.wordAt (b.ptr - headerSize + 8)).toNat = b.pages
  used : s.kernel.heapUsed.toNat = 4096*heldCount s.live
  free : s.kernel.pmm.freePages.toNat+heldCount s.live = start.freePages.toNat

theorem HeapInv.sound (hs : Marked start) (h : HeapInv start s) : HeapSound start s where
  apart := h.apart
  marked b hb p hp := (h.accounted.used p).mpr (.inr (mem_held.mpr ⟨b, hb, hp⟩))
  header b hb := by
    refine ⟨(h.intact b hb).magic, ?_⟩
    have := h.first_lt hb
    rw [(h.intact b hb).pages, BitVec.toNat_ofNat]
    omega
  used := by
    have := h.count_le
    rw [h.used, BitVec.toNat_ofNat]
    omega
  free := by
    rw [← card_held h.apart]
    exact h.accounted.free_add hs

/-- Freeing the block just allocated undoes the allocation. -/
theorem HeapInv.restored (h : HeapInv start s) (h0 : start.used 0 = true) {size : Word}
    (small : size.toNat < 2^63) (ne : ((kmalloc size).run s.kernel).1 ≠ 0) :
    ((kfree ((kmalloc size).run s.kernel).1).run ((kmalloc size).run s.kernel).2).2.pmm =
      s.kernel.pmm := by
  have after := h.allocated h0 small
  have state : s.next (.kmalloc size) = ⟨((kmalloc size).run s.kernel).2,
      ⟨((kmalloc size).run s.kernel).1, size⟩ :: s.live⟩ := by
    rw [HeapState.next, if_neg ne]
  rw [state] at after
  have freed := after.freed (.inr ⟨_, List.mem_cons_self, rfl⟩)
  obtain ⟨rest, -⟩ := after.filter List.mem_cons_self
  have disjoint : Disjoint (held s.live) (Block.run ⟨((kmalloc size).run s.kernel).1, size⟩) := by
    rw [Finset.disjoint_left]
    intro p hp hq
    obtain ⟨c, hc, hp⟩ := mem_held.mp hp
    exact Finset.disjoint_left.mp ((List.pairwise_cons.mp after.apart).1 c hc) hq hp
  have accounted := freed.accounted
  have live : held (HeapState.next ⟨((kmalloc size).run s.kernel).2,
      ⟨((kmalloc size).run s.kernel).1, size⟩ :: s.live⟩
        (.kfree ((kmalloc size).run s.kernel).1)).live = held s.live := by
    refine rest.trans ?_
    rw [held, Finset.union_sdiff_right]
    exact Finset.sdiff_eq_self_of_disjoint disjoint
  rw [live] at accounted
  exact accounted.unique h.accounted

/-- The kernel heap is sound in every run, and `kfree` undoes the last `kmalloc`. -/
theorem heap_sound (hs : Initialised start) (h : HeapReach start s) :
    HeapSound start s ∧ ∀ size : Word, size.toNat < 2^63 → ((kmalloc size).run s.kernel).1 ≠ 0 →
      ((kfree ((kmalloc size).run s.kernel).1).run ((kmalloc size).run s.kernel).2).2.pmm =
        s.kernel.pmm := by
  obtain ⟨marked, h0⟩ := hs.marked
  have inv := h.inv hs
  exact ⟨inv.sound marked, fun size small ne => inv.restored h0 small ne⟩

def heapKernel (pmm : Pmm) : Kernel where
  memory _ _ := 0
  pmm := pmm
  currentPml4 := 0
  kernelPml4 := 0
  kernelCr3 := 0
  cr3 := 0
  riruUserCr3 := 0
  heapUsed := 0
  heapTotal := 0

theorem heapKernel_start (pmm : Pmm) : HeapStart pmm ⟨heapKernel pmm, []⟩ :=
  ⟨heapKernel pmm, rfl, rfl⟩

theorem heap_sound_small :
    HeapSound smallStart (HeapState.next ⟨heapKernel smallStart, []⟩ (.kmalloc 100)) := by
  have ok : HeapOp.Ok ⟨heapKernel smallStart, []⟩ (.kmalloc 100) := by
    change (100 : Word).toNat < 2^63
    decide
  have reach : HeapReach smallStart
      (HeapState.next ⟨heapKernel smallStart, []⟩ (.kmalloc 100)) :=
    Reach.step (.start (heapKernel_start smallStart)) ok rfl
  exact (heap_sound smallStart_init reach).1

end TinyOS.Memory
