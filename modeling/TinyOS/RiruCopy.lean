import TinyOS.RiruFiles
import TinyOS.RiruSpaces

set_option autoImplicit false

namespace TinyOS.Memory
open RadixTables Riru

variable {r u : ℕ} {place place' : Places} {k k' k₀ : Kernel} {va : Word} {covered : Set Word}
  {pages : Set ℕ}

def Kernel.virtualByte (k : Kernel) (cr3 va : Word) : Option (BitVec 8) :=
  let physical := getPhysicalFrom k.memory (physicalToTable cr3) va
  if physical = 0 then none else some (k.byteAt physical)

def OwnTables (M : ℕ → Fin 512 → Word) (u : ℕ) (pages : Set ℕ) : Prop :=
  ∀ ⦃p⦄, p ∈ pages → ∀ ⦃l i t⦄, (l ++ [i]) <+: pagePath p → walk child M u l = some t → t ∉ pages

theorem getPhysicalFrom_tables {M M' : ℕ → Fin 512 → Word}
    (same : ∀ {l i t}, (l ++ [i]) <+: path va → walk child M u l = some t → M' t = M t) :
    getPhysicalFrom M' u va = getPhysicalFrom M u va := by
  have h₀ : M' u = M u := same (l := []) (i := pml4Index va) ⟨_, rfl⟩ rfl
  simp only [getPhysicalFrom, h₀]
  cases e₀ : has pagePresent (M u (pml4Index va)) with
  | false => rfl
  | true =>
    have w₁ : walk child M u [pml4Index va] = some (physicalToTable (M u (pml4Index va))) := by
      rw [walk, child_of_present e₀]
      rfl
    have h₁ := same (l := [pml4Index va]) (i := pdptIndex va) ⟨_, rfl⟩ w₁
    simp only [h₁]
    generalize physicalToTable (M u (pml4Index va)) = t₁ at w₁
    cases e₁ : has pagePresent (M t₁ (pdptIndex va)) with
    | false => rfl
    | true =>
      have w₂ : walk child M u [pml4Index va, pdptIndex va] =
          some (physicalToTable (M t₁ (pdptIndex va))) := by
        rw [show [pml4Index va, pdptIndex va] = [pml4Index va] ++ [pdptIndex va] from rfl,
          walk_append, w₁, Option.bind_some, walk, child_of_present e₁]
        rfl
      have h₂ := same (l := [pml4Index va, pdptIndex va]) (i := pdIndex va) ⟨_, rfl⟩ w₂
      simp only [h₂]
      generalize physicalToTable (M t₁ (pdptIndex va)) = t₂ at w₂
      cases e₂ : has pagePresent (M t₂ (pdIndex va)) with
      | false => rfl
      | true =>
        have w₃ : walk child M u [pml4Index va, pdptIndex va, pdIndex va] =
            some (physicalToTable (M t₂ (pdIndex va))) := by
          rw [show [pml4Index va, pdptIndex va, pdIndex va] =
            [pml4Index va, pdptIndex va] ++ [pdIndex va] from rfl, walk_append, w₂, Option.bind_some,
            walk, child_of_present e₂]
          rfl
        have h₃ := same (l := [pml4Index va, pdptIndex va, pdIndex va]) (i := ptIndex va) ⟨_, rfl⟩ w₃
        simp only [h₃]

structure Copying (covered : Set Word) (k₀ k : Kernel) : Prop where
  statics : k = { k₀ with memory := k.memory }
  off : ∀ p, (∀ a ∈ covered, pageOf a ≠ p) → k.memory p = k₀.memory p
  kept : ∀ a, a ∉ covered → k.byteAt a = k₀.byteAt a

theorem Copying.refl (covered : Set Word) (k : Kernel) : Copying covered k k :=
  ⟨rfl, fun _ _ => rfl, fun _ _ => rfl⟩

theorem Copying.storeByte (h : Copying covered k₀ k) (mem : va ∈ covered) (v : BitVec 8) :
    Copying covered k₀ ((Memory.storeByte va v).run k).2 where
  statics := by
    conv_lhs => rw [h.statics]
    rfl
  off p none := (storeByte_memory va v fun eq => none va mem eq.symm).trans (h.off p none)
  kept a none := by
    have ne : a ≠ va := fun eq => none (eq ▸ mem)
    rw [byteAt_storeByte, if_neg ne, h.kept a none]

/-- A copy in the space `u`, to addresses in the pages, none of them in a table on the walk of
one of the pages. -/
structure CopyFrom (place : Places) (u : ℕ) (covered : Set Word) (pages : Set ℕ) (k : Kernel) :
    Prop where
  spaces : Spaces place k
  space : UserSpace place k u
  own : ∀ ⦃p⦄, p ∈ pages → ∀ ⦃l i t⦄, (l ++ [i]) <+: pagePath p →
    walk child k.memory u l = some t → ∀ a ∈ covered, pageOf a ≠ t
  active : k.cr3 = pageAddress u
  sub : ∀ a ∈ covered, pageOf a ∈ pages
  low : ∀ p ∈ pages, p < 1048576

section
variable (c : CopyFrom place u covered pages k₀) (h : Copying covered k₀ k)
include c h

theorem CopyFrom.identity (mem : pageOf va ∈ pages) :
    k.present k.cr3 va = true ∧ k.physical va = va := by
  have lt := c.low _ mem
  have ult := c.space.lt
  have cr3 : k.cr3 = pageAddress u := by
    rw [h.statics]
    exact c.active
  have root : physicalToTable (pageAddress u) = u := physicalToTable_pageAddress (by omega)
  have same : ∀ {l i t}, (l ++ [i]) <+: path va → walk child k₀.memory u l = some t →
      k.memory t = k₀.memory t := by
    intro l i t on hw
    rw [path_eq] at on
    exact h.off t (c.own mem on hw)
  have mapped := c.space.identity c.spaces lt
  rw [← path_eq, ← walk_tables same] at mapped
  refine ⟨?_, ?_⟩
  · rw [cr3]
    exact present_of_walk root mapped
  · rw [Kernel.physical, cr3, root, getPhysicalFrom_tables same,
      c.space.physical c.spaces (by rw [pageOf] at lt; omega)]

theorem CopyFrom.loadByte (mem : pageOf va ∈ pages) : k.loadByte va = some (k.byteAt va) := by
  obtain ⟨there, here⟩ := c.identity h mem
  rw [Kernel.loadByte, if_pos there, here]

theorem CopyFrom.loadWord (mem : ∀ i < 8, pageOf (va + BitVec.ofNat 64 i) ∈ pages)
    (off : ∀ i < 8, va + BitVec.ofNat 64 i ∉ covered) :
    k.loadWord va = some (load64 k₀.byteAt va) := by
  have all : ((List.range 8).all fun i => k.present k.cr3 (va + BitVec.ofNat 64 i)) = true :=
    List.all_eq_true.mpr fun i lt => (c.identity h (mem i (List.mem_range.mp lt))).1
  rw [Kernel.loadWord, if_pos all]
  refine congrArg (fun n => some (BitVec.ofNat 64 n)) (load_congr fun i lt => ?_)
  rw [(c.identity h (mem i lt)).2, h.kept _ (off i lt)]

theorem CopyFrom.store (mem : va ∈ covered) (v : BitVec 8) :
    (storeVirtual va v).run k = (true, ((storeByte va v).run k).2) := by
  obtain ⟨there, here⟩ := c.identity h (c.sub va mem)
  rw [storeVirtual_run, if_pos there, here]

end

/-- The addresses of a section. -/
def Covers (start size a : Word) : Prop := start.toNat ≤ a.toNat ∧ a.toNat < start.toNat+size.toNat

instance (start size a : Word) : Decidable (Covers start size a) := instDecidableAnd

/-- What a load stores at an address: the last of the sections there. -/
def imageContent (image : RiruImage) (bss a : Word) : Option (BitVec 8) :=
  let h := image.header
  if Covers bss h.bssSize a then some 0
  else if Covers h.dataVaddr h.dataSize a then
    some (image.byte image.data (a.toNat-h.dataVaddr.toNat))
  else if Covers h.rodataVaddr h.rodataSize a then
    some (image.byte image.rodata (a.toNat-h.rodataVaddr.toNat))
  else if Covers h.codeVaddr h.codeSize a then
    some (image.byte image.code (a.toNat-h.codeVaddr.toNat))
  else none

def imageBytes (h : RiruHeader) (stop : Word) : Set Word :=
  {a | Covers h.codeVaddr h.codeSize a ∨ Covers h.rodataVaddr h.rodataSize a ∨
    Covers h.dataVaddr h.dataSize a ∨ Covers (bssStart h stop) h.bssSize a}

def imagePages (h : RiruHeader) (stop : Word) : Set ℕ :=
  sectionPages h ∪ rangeOf (bssStart h stop) h.bssSize

theorem Covers.page {start size a : Word} (h : Covers start size a) :
    pageOf a ∈ rangeOf start size := by
  obtain ⟨le, lt⟩ := h
  refine ⟨?_, ?_, ?_⟩
  · rintro rfl
    simp at lt
    omega
  · rw [pageOf]
    omega
  · rw [pageOf]
    omega

theorem imageBytes_page {h : RiruHeader} {stop a : Word} (mem : a ∈ imageBytes h stop) :
    pageOf a ∈ imagePages h stop := by
  rcases mem with here | here | here | here
  · exact .inl (.inl (.inl here.page))
  · exact .inl (.inl (.inr here.page))
  · exact .inl (.inr here.page)
  · exact .inr here.page

section
variable (c : CopyFrom place u covered pages k₀) {start size : Word}
  (cover : ∀ a, Covers start size a → a ∈ covered) (valid : validRange start size = true)

include cover valid in
theorem section_covered {i : ℕ} (lt : i < size.toNat) : start + BitVec.ofNat 64 i ∈ covered := by
  obtain ⟨low, high⟩ := (validRange_iff.mp valid).resolve_left fun zero => by
    rw [zero] at lt
    exact absurd lt (Nat.not_lt_zero i)
  have address : (start + BitVec.ofNat 64 i).toNat = start.toNat+i := toNat_add_ofNat (by omega)
  exact cover _ ⟨by omega, by omega⟩

include c

theorem copyBytes_spec (source : ℕ → BitVec 8) {s n : ℕ}
    (range : ∀ i, s ≤ i → i < s+n → va + BitVec.ofNat 64 i ∈ covered)
    (high : va.toNat+s+n ≤ 4294967296) (h : Copying covered k₀ k) :
    ∃ k', (copyBytes va source (List.range' s n)).run k = (true, k') ∧ Copying covered k₀ k' ∧
      ∀ a, k'.byteAt a = if va.toNat+s ≤ a.toNat ∧ a.toNat < va.toNat+s+n then
        source (a.toNat-va.toNat) else k.byteAt a := by
  induction n generalizing s k with
  | zero =>
    refine ⟨k, rfl, h, fun a => ?_⟩
    rw [if_neg (by omega)]
  | succ n ih =>
    have address : (va + BitVec.ofNat 64 s).toNat = va.toNat+s := toNat_add_ofNat (by omega)
    have mem := range s (le_refl s) (by omega)
    obtain ⟨k', run, copied, bytes⟩ := ih (s := s+1) (fun i hl hr => range i (by omega) (by omega))
      (by omega) (h.storeByte mem (source s))
    refine ⟨k', ?_, copied, fun a => ?_⟩
    · rw [List.range'_succ, copyBytes, run_bind, c.store h mem]
      exact run
    · rw [bytes a, byteAt_storeByte]
      by_cases here : a = va + BitVec.ofNat 64 s
      · have : a.toNat = va.toNat+s := by rw [here, address]
        rw [if_neg (by omega), if_pos here, if_pos (by omega), this, Nat.add_sub_cancel_left]
      · have apart : a.toNat ≠ va.toNat+s := by
          intro eq
          exact here (BitVec.eq_of_toNat_eq (by rw [eq, address]))
        rw [if_neg here]
        by_cases later : va.toNat+(s+1) ≤ a.toNat ∧ a.toNat < va.toNat+(s+1)+n
        · rw [if_pos later, if_pos (by omega)]
        · rw [if_neg later, if_neg (by omega)]

include cover valid

theorem copyKnown_spec (source : ℕ → BitVec 8) (h : Copying covered k₀ k) :
    ∃ k', (copyBytes start source (List.range size.toNat)).run k = (true, k') ∧
      Copying covered k₀ k' ∧ ∀ a, k'.byteAt a =
        if Covers start size a then source (a.toNat-start.toNat) else k.byteAt a := by
  by_cases zero : size = 0
  · rw [zero]
    refine ⟨k, rfl, h, fun a => (if_neg ?_).symm⟩
    rintro ⟨le, lt⟩
    rw [show (0 : Word).toNat = 0 from rfl] at lt
    omega
  obtain ⟨low, high⟩ := (validRange_iff.mp valid).resolve_left zero
  obtain ⟨k', run, copied, bytes⟩ := copyBytes_spec c source (s := 0) (n := size.toNat) (fun i _ lt => section_covered cover valid (by omega)) (by omega) h
  refine ⟨k', ?_, copied, fun a => ?_⟩
  · rw [List.range_eq_range']
    exact run
  · rw [bytes a, Nat.add_zero]
    rfl

variable {file source : Word} {f : SectionFields} {v : ℕ → BitVec 8}
  (reads : ∀ {k}, Copying covered k₀ k → k.loadWord (file + f.size) = some size)
  (loads : ∀ {k}, Copying covered k₀ k → ∀ i < size.toNat,
    k.loadByte (source + BitVec.ofNat 64 i) = some (v i))
include reads loads

/-- When the copy stores neither to the size in the header nor to the section in the file, it
stores the bytes the section had before. -/
theorem copyRounds_eq {s n : ℕ} (sum : s+n = size.toNat) (h : Copying covered k₀ k) :
    copyRounds file f start source (BitVec.ofNat 64 s) k =
      (copyBytes start v (List.range' s n)).run k := by
  have small := size.isLt
  have here : (BitVec.ofNat 64 s).toNat = s := by
    rw [BitVec.toNat_ofNat]
    omega
  induction n generalizing s k with
  | zero =>
    rw [copyRounds, reads h]
    dsimp only
    rw [if_neg (by rw [BitVec.lt_def, here]; omega)]
    rfl
  | succ n ih =>
    have mem := section_covered cover valid (show s < size.toNat by omega)
    have next := ih (s := s+1) (by omega) (h.storeByte mem (v s)) (by
      rw [BitVec.toNat_ofNat]
      omega)
    rw [copyRounds, reads h]
    dsimp only
    rw [if_pos (by rw [BitVec.lt_def, here]; omega), loads h s (by omega)]
    dsimp only
    rw [c.store h mem, List.range'_succ, copyBytes, run_bind, c.store h mem]
    rw [BitVec.ofNat_add] at next
    exact next

theorem copySection_spec
    (vaddr : ∀ {k}, Copying covered k₀ k → k.loadWord (file + f.vaddr) = some start)
    (h : Copying covered k₀ k) :
    ∃ k', (copySection file f source).run k = (true, k') ∧ Copying covered k₀ k' ∧
      ∀ a, k'.byteAt a = if Covers start size a then v (a.toNat-start.toNat) else k.byteAt a := by
  obtain ⟨k', run, copied, bytes⟩ := copyKnown_spec c cover valid v h
  refine ⟨k', ?_, copied, bytes⟩
  rw [copySection, run_bind, show (get : KernelM Kernel).run k = (k, k) from rfl]
  dsimp only
  rw [reads h]
  dsimp only
  by_cases zero : size = 0
  · rw [if_pos zero]
    rw [zero] at run
    exact run
  · rw [if_neg zero, vaddr h]
    dsimp only
    rw [List.range_eq_range'] at run
    exact (copyRounds_eq c cover valid reads loads (Nat.zero_add _) h).trans run

end

theorem imagePages_low {h : RiruHeader} {stop : Word} (valid : SectionsValid h)
    (bss : validRange (bssStart h stop) h.bssSize = true) :
    ∀ p ∈ imagePages h stop, 0 < p ∧ p < 1048576 := by
  have window {start size : Word} (range : validRange start size = true) {p : ℕ}
      (mem : p ∈ rangeOf start size) : 0 < p ∧ p < 1048576 := by
    obtain ⟨ne, le, lt⟩ := mem
    obtain ⟨low, high⟩ := (validRange_iff.mp range).resolve_left ne
    omega
  rintro p (((mem | mem) | mem) | mem)
  · exact window valid.code mem
  · exact window valid.rodata mem
  · exact window valid.data mem
  · exact window bss mem

structure InMemory (file size : Word) (image : RiruImage) (k : Kernel) : Prop where
  parsed : riruParse (some image.file) size = .ok image
  low : file.toNat+size.toNat ≤ 4294967296
  bytes : ∀ i : Word, i.toNat < size.toNat → k.byteAt (file + i) = image.file i

section
variable {file size : Word} {image : RiruImage} (inside : InMemory file size image k)
include inside

theorem InMemory.header : 120 ≤ size.toNat ∧ image.header = readHeader image.file :=
  ⟨(riruValidate_eq_zero.mp (riruParse_from inside.parsed).accepted).header,
    (riruParse_from inside.parsed).header⟩

/-- The fields that the copies read. -/
theorem InMemory.fields : load64 image.file 40 = image.header.codeSize ∧
    load64 image.file 32 = image.header.codeVaddr ∧
    load64 image.file 64 = image.header.rodataSize ∧
    load64 image.file 56 = image.header.rodataVaddr ∧
    load64 image.file 88 = image.header.dataSize ∧
    load64 image.file 80 = image.header.dataVaddr ∧
    load64 image.file 96 = image.header.bssSize := by
  rw [inside.header.2]
  exact ⟨rfl, rfl, rfl, rfl, rfl, rfl, rfl⟩

theorem InMemory.page_lt : ∀ p ∈ rangeOf file size, p < 1048576 := by
  have low := inside.low
  rintro p ⟨-, -, lt⟩
  omega

theorem InMemory.covers {i : Word} (lt : i.toNat < size.toNat) : Covers file size (file + i) := by
  have low := inside.low
  have address : (file + i).toNat = file.toNat+i.toNat := by
    rw [BitVec.toNat_add]
    omega
  exact ⟨by omega, by omega⟩

theorem InMemory.field {a : Word} (lt : a.toNat+8 ≤ 120) :
    load64 k.byteAt (file + a) = load64 image.file a := by
  have enough := inside.header.1
  rw [← load64_offset]
  refine congrArg (BitVec.ofNat 64) (load_congr fun i small => inside.bytes _ ?_)
  rw [BitVec.toNat_add, BitVec.toNat_ofNat]
  omega

end

section
variable {file size : Word} {image : RiruImage} (inside : InMemory file size image k₀)
  (c : CopyFrom place u covered pages k₀)
include inside

theorem InMemory.head : rangeOf file riruHeaderSize ⊆ rangeOf file size := by
  obtain ⟨enough, -⟩ := inside.header
  rintro p ⟨-, le, lt⟩
  refine ⟨?_, le, ?_⟩
  · rintro rfl
    exact absurd enough (by decide)
  · rw [show riruHeaderSize.toNat = 120 from rfl] at lt
    omega

include c

theorem InMemory.loadWord (sub : rangeOf file riruHeaderSize ⊆ pages) {a : Word} (lt : a.toNat+8 ≤ 120)
    (off : ∀ i : Word, i.toNat < 120 → file + i ∉ covered) (h : Copying covered k₀ k) :
    k.loadWord (file + a) = some (load64 image.file a) := by
  have enough := inside.header.1
  have low := inside.low
  have byte {i : ℕ} (small : i < 8) : (a + BitVec.ofNat 64 i).toNat < 120 := by
    rw [BitVec.toNat_add, BitVec.toNat_ofNat]
    omega
  rw [c.loadWord h, inside.field lt]
  · intro i small
    rw [BitVec.add_assoc]
    have lt := byte small
    have address : (file + (a + BitVec.ofNat 64 i)).toNat =
        file.toNat+(a + BitVec.ofNat 64 i).toNat := by
      rw [BitVec.toNat_add]
      omega
    refine sub (Covers.page ⟨by omega, ?_⟩)
    rw [show riruHeaderSize.toNat = 120 from rfl]
    omega
  · intro i small
    rw [BitVec.add_assoc]
    exact off _ (byte small)

end

def OffFile (file size : Word) (h : RiruHeader) (stop : Word) : Prop :=
  ∀ a ∈ imageBytes h stop, ¬Covers file size a

section
variable {file size stop : Word} {image : RiruImage} (inside : InMemory file size image k₀)
  (c : CopyFrom place u covered pages k₀) (sub : rangeOf file size ⊆ pages)
include inside c sub

theorem InMemory.loadByte {i : Word} (lt : i.toNat < size.toNat) (off : file + i ∉ covered)
    (h : Copying covered k₀ k) : k.loadByte (file + i) = some (image.file i) := by
  rw [c.loadByte h (sub (inside.covers lt).page), h.kept _ off, inside.bytes i lt]

theorem InMemory.loadSection {start : Option Word} {n offset : Word}
    (mem : (start, n) ∈ image.ranges) (given : start = sectionAt n offset)
    (off : ∀ i : Word, i.toNat < size.toNat → file + i ∉ covered)
    (h : Copying covered k₀ k) : ∀ i < n.toNat,
      k.loadByte (sectionPointer file start + BitVec.ofNat 64 i) = some (image.byte start i) := by
  intro i lt
  have some : n ≠ 0 := by
    rintro rfl
    exact absurd lt (Nat.not_lt_zero i)
  rw [sectionAt, if_pos some] at given
  subst given
  have bound := riruParse_ranges inside.parsed _ mem offset rfl i lt
  have limit := size.isLt
  have small : (offset + BitVec.ofNat 64 i).toNat < size.toNat := by
    rw [BitVec.toNat_add, BitVec.toNat_ofNat]
    omega
  rw [sectionPointer, BitVec.add_assoc, inside.loadByte c sub small (off _ small) h]
  rfl

end

theorem copyImage_spec {file size stop : Word} {image : RiruImage}
    (inside : InMemory file size image k)
    (c : CopyFrom place u (imageBytes image.header stop) pages k) (sub : rangeOf file size ⊆ pages)
    (off : OffFile file size image.header stop) (valid : SectionsValid image.header)
    (bss : validRange (bssStart image.header stop) image.header.bssSize = true) :
    ∃ k', (copyImage file image (bssStart image.header stop)).run k = (true, k') ∧
      Copying (imageBytes image.header stop) k k' ∧ ∀ a, k'.byteAt a =
        (imageContent image (bssStart image.header stop) a).getD (k.byteAt a) := by
  obtain ⟨enough, -⟩ := inside.header
  obtain ⟨-, -, -, codeAt, rodataAt, dataAt⟩ := riruParse_from inside.parsed
  have none (i : Word) (lt : i.toNat < size.toNat) : file + i ∉ imageBytes image.header stop :=
    fun mem => off _ mem (inside.covers lt)
  have word {k' : Kernel} {a : Word} (lt : a.toNat+8 ≤ 120)
      (h : Copying (imageBytes image.header stop) k k') :
      k'.loadWord (file + a) = some (load64 image.file a) :=
    inside.loadWord c (inside.head.trans sub) lt (fun i small => none i (by omega)) h
  obtain ⟨codeSize, codeVaddr, rodataSize, rodataVaddr, dataSize, dataVaddr, bssSize⟩ :=
    inside.fields
  obtain ⟨k₁, run₁, copied₁, bytes₁⟩ := copySection_spec c (f := codeFields)
    (fun a here => .inl here) valid.code (fun h => codeSize ▸ word (by decide) h)
    (inside.loadSection c sub List.mem_cons_self codeAt none)
    (fun h => codeVaddr ▸ word (by decide) h) (Copying.refl _ k)
  obtain ⟨k₂, run₂, copied₂, bytes₂⟩ := copySection_spec c (f := rodataFields)
    (fun a here => .inr (.inl here)) valid.rodata (fun h => rodataSize ▸ word (by decide) h)
    (inside.loadSection c sub (List.mem_cons_of_mem _ List.mem_cons_self) rodataAt none)
    (fun h => rodataVaddr ▸ word (by decide) h) copied₁
  obtain ⟨k₃, run₃, copied₃, bytes₃⟩ := copySection_spec c (f := dataFields)
    (fun a here => .inr (.inr (.inl here))) valid.data (fun h => dataSize ▸ word (by decide) h)
    (inside.loadSection c sub
      (List.mem_cons_of_mem _ (List.mem_cons_of_mem _ List.mem_cons_self)) dataAt none)
    (fun h => dataVaddr ▸ word (by decide) h) copied₂
  obtain ⟨k₄, run₄, copied₄, bytes₄⟩ := copyKnown_spec c (fun a here => .inr (.inr (.inr here)))
    bss (fun _ => 0) copied₃
  refine ⟨k₄, ?_, copied₄, fun a => ?_⟩
  · rw [copyImage, run_bind, run₁]
    dsimp only
    rw [if_neg (by decide), run_bind, run₂]
    dsimp only
    rw [if_neg (by decide), run_bind, run₃]
    dsimp only
    rw [if_neg (by decide), run_bind, show (get : KernelM Kernel).run k₃ = (k₃, k₃) from rfl]
    dsimp only
    rw [word (by decide) copied₃, bssSize]
    exact run₄
  · rw [bytes₄, bytes₃, bytes₂, bytes₁, imageContent]
    split_ifs <;> rfl

structure Finished (image : RiruImage) (stop : Word) (k k' : Kernel) : Prop where
  statics : k' = { k with memory := k'.memory, currentPml4 := k.kernelPml4, cr3 := k.kernelCr3 }
  off : ∀ p, p ∉ imagePages image.header stop → k'.memory p = k.memory p
  bytes : ∀ a, k'.byteAt a =
    (imageContent image (bssStart image.header stop) a).getD (k.byteAt a)

/-- What a load stores to is neither its file nor a table on the way to it or to the file. -/
structure Undisturbed (file size : Word) (h : RiruHeader) (stop : Word) (k : Kernel) (u : ℕ) :
    Prop where
  tables : OwnTables k.memory u (imagePages h stop ∪ rangeOf file size)
  file : OffFile file size h stop

theorem UserSpace.switch (space : UserSpace place k u) (user : k.riruUserCr3 = pageAddress u) :
    (vmmSwitchAddressSpace k.riruUserCr3).run k =
      ((), { k with currentPml4 := u, cr3 := pageAddress u }) := by
  have lt := space.lt
  exact (congrArg (fun c => (vmmSwitchAddressSpace c).run k) user).trans
    (vmmSwitchAddressSpace_run space.pos (by omega) k)

theorem Undisturbed.copyFrom (hs : Spaces place k) (space : UserSpace place k u)
    {file size stop : Word} {h : RiruHeader} (valid : SectionsValid h)
    (bss : validRange (bssStart h stop) h.bssSize = true)
    (clear : Undisturbed file size h stop k u) (low : ∀ p ∈ rangeOf file size, p < 1048576) :
    CopyFrom place u (imageBytes h stop) (imagePages h stop ∪ rangeOf file size)
      { k with currentPml4 := u, cr3 := pageAddress u } := by
  have apart : Apart place k { k with currentPml4 := u, cr3 := pageAddress u } :=
    ⟨fun _ _ _ => rfl, fun _ _ hp => (hs.sound.used hp).1, hs.sound.page0, rfl, rfl⟩
  refine ⟨hs.apart apart, space.apart hs apart, fun p mem l i t on hw a here eq => ?_, rfl,
    fun a mem => .inl (imageBytes_page mem), ?_⟩
  · exact clear.tables mem on hw (.inl (eq ▸ imageBytes_page here))
  rintro p (mem | mem)
  · exact (imagePages_low valid bss p mem).2
  · exact low p mem

/-- Unless the sections lie over the file or the tables, they are stored where they belong, and
the kernel goes back to its own space. -/
theorem finishLoad_spec (hs : Spaces place k) (space : UserSpace place k u)
    (user : k.riruUserCr3 = pageAddress u) {file size stop : Word} {image : RiruImage}
    (inside : InMemory file size image k) (valid : SectionsValid image.header)
    (bss : validRange (bssStart image.header stop) image.header.bssSize = true)
    (clear : Undisturbed file size image.header stop k u) (base : Word) :
    ∃ k', (finishLoad file image base stop).run k =
        (checkEntry (k'.loadWord (file + entryField)) base stop, k') ∧
      Finished image stop k k' := by
  have c := clear.copyFrom hs space valid bss inside.page_lt
  have inside : InMemory file size image { k with currentPml4 := u, cr3 := pageAddress u } :=
    ⟨inside.parsed, inside.low, inside.bytes⟩
  obtain ⟨k', run, copied, bytes⟩ := copyImage_spec inside c
    Set.subset_union_right clear.file valid bss
  refine ⟨(vmmSwitchKernelSpace.run k').2, ?_, ?_, ?_, bytes⟩
  · rw [finishLoad, run_bind, show (get : KernelM Kernel).run k = (k, k) from rfl]
    dsimp only
    rw [run_bind, space.switch user, run_bind, run]
    dsimp only
    rw [if_neg (by decide), run_bind]
    rfl
  · have kept := copied.statics
    change { k' with currentPml4 := k'.kernelPml4, cr3 := k'.kernelCr3 } = _
    rw [kept]
    rfl
  · exact fun p none => copied.off p fun a mem eq => none (eq ▸ imageBytes_page mem)

theorem imagePages_byte {h : RiruHeader} {stop : Word} {p : ℕ} (mem : p ∈ imagePages h stop)
    (low : p < 1048576) : ∃ a ∈ imageBytes h stop, pageOf a = p := by
  have byte {start size : Word} (mem : p ∈ rangeOf start size) :
      ∃ a, Covers start size a ∧ pageOf a = p := by
    obtain ⟨some, le, lt⟩ := mem
    have pos : size.toNat ≠ 0 := fun zero => some (BitVec.eq_of_toNat_eq zero)
    have address : (BitVec.ofNat 64 (max start.toNat (p*4096))).toNat =
        max start.toNat (p*4096) := by
      rw [BitVec.toNat_ofNat]
      have := start.isLt
      omega
    refine ⟨BitVec.ofNat 64 (max start.toNat (p*4096)), ⟨?_, ?_⟩, ?_⟩
    · omega
    · omega
    · rw [pageOf, address]
      omega
  rcases mem with ((mem | mem) | mem) | mem
  all_goals obtain ⟨a, here, page⟩ := byte mem
  · exact ⟨a, .inl here, page⟩
  · exact ⟨a, .inr (.inl here), page⟩
  · exact ⟨a, .inr (.inr (.inl here)), page⟩
  · exact ⟨a, .inr (.inr (.inr here)), page⟩

theorem imageContent_none {image : RiruImage} {stop a : Word} (off : a ∉ imageBytes image.header stop) :
    imageContent image (bssStart image.header stop) a = none := by
  simp only [imageBytes, Set.mem_ofPred_eq, not_or] at off
  obtain ⟨code, rodata, data, bss⟩ := off
  rw [imageContent, if_neg bss, if_neg data, if_neg rodata, if_neg code]

/-- The same tables below entry 0 translate for the kernel. -/
theorem OwnTables.kernel {M : ℕ → Fin 512 → Word} {pages : Set ℕ} (own : OwnTables M u pages)
    (shared : child (M u 0) = child (M r 0)) (root : r ∉ pages) (low : ∀ p ∈ pages, p < 1048576) :
    OwnTables M r pages := by
  intro p mem l i t on hw
  cases l with
  | nil =>
    obtain rfl := Option.some.inj hw
    exact root
  | cons c rest =>
    obtain ⟨q, split⟩ := pagePath_low (low p mem)
    obtain ⟨tail, whole⟩ := id on
    obtain rfl : c = 0 := by
      rw [split] at whole
      exact (List.cons.inj whole).1
    refine own mem on ?_
    rw [walk] at hw ⊢
    rw [shared]
    exact hw

/-- Unless the stores have hit the PML4 of the kernel, the entry point is read back from the
header at the end. -/
theorem Finished.entry {file size stop : Word} {image : RiruImage}
    (h : Finished image stop k k') (hs : Spaces place k) (space : UserSpace place k u)
    (inside : InMemory file size image k) (valid : SectionsValid image.header)
    (bss : validRange (bssStart image.header stop) image.header.bssSize = true)
    (clear : Undisturbed file size image.header stop k u)
    (root : k.kernelPml4 ∉ imagePages image.header stop ∪ rangeOf file size) :
    k'.loadWord (file + entryField) = some image.header.entry := by
  obtain ⟨enough, header⟩ := inside.header
  have low : ∀ p ∈ imagePages image.header stop ∪ rangeOf file size, p < 1048576 := by
    rintro p (mem | mem)
    · exact (imagePages_low valid bss p mem).2
    · exact inside.page_lt p mem
  have apart : Apart place k { k with currentPml4 := k.kernelPml4, cr3 := k.kernelCr3 } :=
    ⟨fun _ _ _ => rfl, fun _ _ hp => (hs.sound.used hp).1, hs.sound.page0, rfl, rfl⟩
  have c : CopyFrom place k.kernelPml4 (imageBytes image.header stop)
      (imagePages image.header stop ∪ rangeOf file size)
      { k with currentPml4 := k.kernelPml4, cr3 := k.kernelCr3 } := {
    spaces := hs.apart apart
    space := (kernelSpace hs).apart hs apart
    own := fun p mem l i t on hw a here eq =>
      clear.tables.kernel space.shared root low mem on hw (.inl (eq ▸ imageBytes_page here))
    active := hs.cr3
    sub := fun a mem => .inl (imageBytes_page mem)
    low := low }
  have copied : Copying (imageBytes image.header stop)
      { k with currentPml4 := k.kernelPml4, cr3 := k.kernelCr3 } k' := by
    refine ⟨h.statics, fun p none => ?_, fun a off => ?_⟩
    · refine h.off p fun mem => ?_
      obtain ⟨a, here, page⟩ := imagePages_byte mem (low p (.inl mem))
      exact none a here page
    · rw [h.bytes a, imageContent_none off]
      rfl
  have inside : InMemory file size image
      { k with currentPml4 := k.kernelPml4, cr3 := k.kernelCr3 } :=
    ⟨inside.parsed, inside.low, inside.bytes⟩
  rw [inside.loadWord c (inside.head.trans Set.subset_union_right) (by decide)
    (fun i lt mem => clear.file _ mem (inside.covers (lt.trans_le enough))) copied, header]
  rfl

end TinyOS.Memory
