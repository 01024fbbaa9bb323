import TinyOS.RiruRoom

set_option autoImplicit false

namespace TinyOS.Memory
open RadixTables Riru

variable {u first stop : ℕ} {place place' : Places} {k k' : Kernel} {b : Layout}

structure Stretch where
  start : Word
  size : Word
  byte : ℕ → BitVec 8

def Stretch.Has (s : Stretch) (a : Word) : Prop := Covers s.start s.size a

instance (s : Stretch) (a : Word) : Decidable (s.Has a) :=
  inferInstanceAs (Decidable (Covers s.start s.size a))

def Stretch.at (s : Stretch) (a : Word) : BitVec 8 := s.byte (a.toNat-s.start.toNat)

/-- What the stretches leave at an address: the byte of the last one there. -/
def written : List Stretch → Word → Option (BitVec 8)
  | [], _ => none
  | s :: rest, a => (written rest a).or (if s.Has a then some (s.at a) else none)

def Agree (l : List Stretch) : Prop :=
  ∀ s ∈ l, ∀ s' ∈ l, ∀ a, s.Has a → s'.Has a → s.at a = s'.at a

theorem written_from {l : List Stretch} {a : Word} {v : BitVec 8} (h : written l a = some v) :
    ∃ s ∈ l, s.Has a ∧ s.at a = v := by
  induction l with
  | nil => cases h
  | cons s rest ih =>
    rw [written] at h
    cases later : written rest a with
    | some w =>
      rw [later, Option.some_or] at h
      obtain ⟨s', mem, here, eq⟩ := ih (later.trans h)
      exact ⟨s', List.mem_cons_of_mem s mem, here, eq⟩
    | none =>
      rw [later, Option.none_or] at h
      split_ifs at h with here
      exact ⟨s, List.mem_cons_self, here, Option.some.inj h⟩

theorem written_isSome {l : List Stretch} {s : Stretch} {a : Word} (mem : s ∈ l) (here : s.Has a) :
    ∃ v, written l a = some v := by
  induction l with
  | nil => cases mem
  | cons s' rest ih =>
    rw [written]
    rcases List.mem_cons.mp mem with rfl | mem
    · cases written rest a with
      | some w => exact ⟨w, rfl⟩
      | none => exact ⟨s.at a, by rw [if_pos here, Option.none_or]⟩
    · obtain ⟨v, hv⟩ := ih mem
      exact ⟨v, by rw [hv, Option.some_or]⟩

/-- Every stretch is there in the end when they agree, and only then. -/
theorem written_iff {l : List Stretch} :
    (∀ s ∈ l, ∀ a, s.Has a → written l a = some (s.at a)) ↔ Agree l := by
  constructor
  · intro all s mem s' mem' a here here'
    exact Option.some.inj ((all s mem a here).symm.trans (all s' mem' a here'))
  · intro agree s mem a here
    obtain ⟨v, hv⟩ := written_isSome mem here
    obtain ⟨s', mem', here', eq⟩ := written_from hv
    rw [hv, ← eq, agree s mem s' mem' a here here']

def stretches (image : RiruImage) (bss : Word) : List Stretch :=
  let h := image.header
  [⟨h.codeVaddr, h.codeSize, image.byte image.code⟩,
    ⟨h.rodataVaddr, h.rodataSize, image.byte image.rodata⟩,
    ⟨h.dataVaddr, h.dataSize, image.byte image.data⟩, ⟨bss, h.bssSize, fun _ => 0⟩]

theorem imageContent_eq (image : RiruImage) (bss a : Word) :
    imageContent image bss a = written (stretches image bss) a := by
  rw [imageContent, stretches]
  simp only [written, Stretch.Has, Stretch.at, Option.none_or]
  by_cases bss : Covers bss image.header.bssSize a
  · simp [bss]
  by_cases data : Covers image.header.dataVaddr image.header.dataSize a
  · simp [bss, data]
  by_cases rodata : Covers image.header.rodataVaddr image.header.rodataSize a
  · simp [bss, data, rodata]
  · simp [bss, data, rodata]
    rfl

/-- `[RIRU_USER_STACK_TOP - RIRU_USER_STACK_SIZE, RIRU_USER_STACK_TOP)` -/
def OnStack (a : Word) : Prop := Covers (riruUserStackTop - riruUserStackSize) riruUserStackSize a

def OffStack (l : List Stretch) : Prop := ∀ s ∈ l, ∀ a, s.Has a → ¬OnStack a

/-- The new address space holds what the file describes, away from the stack. -/
structure AsDescribed (l : List Stretch) (k : Kernel) : Prop where
  bytes : ∀ s ∈ l, ∀ j, j < s.size.toNat →
    k.virtualByte k.riruUserCr3 (s.start + BitVec.ofNat 64 j) = some (s.byte j)
  stack : OffStack l

/-- None of the pages is a table that translates one of them: neither the next page allocated,
which becomes the PML4, nor a table below the kernel's PML4. -/
structure ClearOfTables (k : Kernel) (pages : Set ℕ) : Prop where
  fresh : pageOf (pmmAllocPage k.pmm).1 ∉ pages
  kernel : ∀ ⦃p⦄, p ∈ pages → ∀ ⦃l i t⦄, l ≠ [] → (l ++ [i]) <+: pagePath p →
    walk child k.memory k.kernelPml4 l = some t → t ∉ pages

/-- The PML4 of the new space is the next page of the allocator. -/
theorem prepareSpace_alloc {h : RiruHeader} {end' : Word}
    (done : ((prepareSpace b h end').run k).1 = 0) :
    ((prepareSpace b h end').run k).2.riruUserCr3 = (pmmAllocPage k.pmm).1 := by
  obtain ⟨cr3, nonzero⟩ := prepareSpace_cr3 done
  exact cr3.trans ((createUserSpace_alloc b k).resolve_left nonzero)

/-- The tables that translate the image are not overwritten when none of its pages holds one. -/
theorem PreparedSpace.ownTables {h : RiruHeader} {end' : Word} {pages : Set ℕ}
    (prepared : PreparedSpace h end' place k u place' k') (hs : Spaces place k)
    (alloc : k'.riruUserCr3 = (pmmAllocPage k.pmm).1) (low : ∀ p ∈ pages, p < 1048576)
    (clear : ClearOfTables k pages) : OwnTables k'.memory u pages := by
  have hs' : Spaces place' k' := (hs.withUser (pageAddress u)).step prepared.step
  have lt := prepared.space.lt
  have kernelPml4 : k'.kernelPml4 = k.kernelPml4 := prepared.step.kernelPml4
  have fresh : u ∉ pages := by
    have eq := clear.fresh
    rwa [← alloc, prepared.user, pageOf_pageAddress (by omega)] at eq
  intro p mem l i t on hw
  cases l with
  | nil =>
    obtain rfl := Option.some.inj hw
    exact fresh
  | cons c rest =>
    obtain ⟨q, split⟩ := pagePath_low (low p mem)
    obtain ⟨tail, whole⟩ := id on
    obtain rfl : c = 0 := by
      rw [split] at whole
      exact (List.cons.inj whole).1
    -- the same table is below the PML4 of the kernel, since before the call
    have kernel : walk child k'.memory k.kernelPml4 (0 :: rest) = some t := by
      rw [walk] at hw ⊢
      rw [← kernelPml4, ← prepared.space.shared]
      exact hw
    have mapped := (hs.identity (low p mem)).1
    rw [← whole, List.append_assoc, walk_append] at mapped
    obtain ⟨t', before, -⟩ := Option.bind_eq_some_iff.mp mapped
    have short : ((0 : Fin 512) :: rest).length ≤ 4 := by
      have le := on.length_le
      rw [List.length_append] at le
      exact (Nat.le_add_right _ _).trans (le.trans (by simp [pagePath]))
    have kept := prepared.step.walk_keep (hs.sound.withUser _) hs.root
      (show ([] : List (Fin 512)).length + (0 :: rest).length ≤ 4 by simpa using short) before
    obtain rfl : t' = t := Option.some.inj (kept.symm.trans kernel)
    exact clear.kernel mem (List.cons_ne_nil 0 rest) on before

/-- The copy overwrites neither the file nor a table that translates the image or the file. -/
structure CopyClear (file size : Word) (h : RiruHeader) (stop : Word) (k : Kernel) : Prop where
  tables : ClearOfTables k (imagePages h stop ∪ rangeOf file size)
  file : OffFile file size h stop

theorem ClearOfTables.mono {pages pages' : Set ℕ} (h : ClearOfTables k pages')
    (sub : pages ⊆ pages') : ClearOfTables k pages :=
  ⟨fun mem => h.fresh (sub mem), fun _ mem _ _ _ nonempty on hw here =>
    h.kernel (sub mem) nonempty on hw (sub here)⟩

theorem ClearOfTables.apart {pages : Set ℕ} (h : ClearOfTables k pages) (hs : Spaces place k)
    (apart : Apart place k k') (pmm : k'.pmm = k.pmm) : ClearOfTables k' pages := by
  refine ⟨by rw [pmm]; exact h.fresh, fun p mem l i t nonempty on hw => ?_⟩
  have short : ([] : List (Fin 512)).length+l.length ≤ 4 := by
    have := on.length_le
    simp only [List.length_append, List.length_cons, List.length_nil, pagePath] at this ⊢
    omega
  rw [apart.kernelPml4, hs.sound.placed.walk_congr (fun hp => apart.memory hp) hs.root short] at hw
  exact h.kernel mem nonempty on hw

theorem CopyClear.head {file size end' : Word} {image : RiruImage}
    (clear : CopyClear file size image.header end' k) (inside : InMemory file size image k) :
    CopyClear file riruHeaderSize image.header end' k := by
  obtain ⟨enough, -⟩ := inside.header
  refine ⟨clear.tables.mono (Set.union_subset_union_right _ inside.head), ?_⟩
  rintro a mem ⟨le, lt⟩
  rw [show riruHeaderSize.toNat = 120 from rfl] at lt
  exact clear.file a mem ⟨le, by omega⟩

/-- A load of the file overwrites neither it nor a table that translates the image or the file. -/
def KeepsFile (file size : Word) (k : Kernel) : Prop :=
  ∀ image span, riruParse (k.fileAt file) size = .ok image → imageSpan image.header = .ok span →
    CopyClear file size image.header span.2 k

/-- The tables that translate the image and the file are those there were before. -/
theorem PreparedSpace.clear {file size end' : Word} {h : RiruHeader}
    (prepared : PreparedSpace h end' place k u place' k') (hs : Spaces place k)
    (alloc : k'.riruUserCr3 = (pmmAllocPage k.pmm).1)
    (low : ∀ p ∈ imagePages h end' ∪ rangeOf file size, p < 1048576)
    (clear : CopyClear file size h end' k) : Undisturbed file size h end' k' u :=
  ⟨prepared.ownTables hs alloc low clear.tables, clear.file⟩

structure LoadRuns (b : Layout) (file size : Word) (k : Kernel) (result : RiruLoadResult)
    (k' : Kernel) (image : RiruImage) (k₁ : Kernel) : Prop where
  parsed : riruParse (k.fileAt file) size = .ok image
  span : imageSpan image.header = .ok (result.imageBase, result.imageEnd)
  prepared : (prepareSpace b image.header result.imageEnd).run k = (0, k₁)
  finished : (finishLoad file image result.imageBase result.imageEnd).run k₁ = (.loaded result, k')

theorem LoadRuns.copyClear {file size : Word} {result : RiruLoadResult} {image : RiruImage}
    {k₁ : Kernel} (h : LoadRuns b file size k result k' image k₁) (keeps : KeepsFile file size k) :
    CopyClear file size image.header result.imageEnd k := keeps image _ h.parsed h.span

theorem finishLoad_run (file : Word) (image : RiruImage) (base end' : Word) (k : Kernel) :
    (∃ k₁, (finishLoad file image base end').run k = (.halted, k₁)) ∨
      ∃ k₁, (finishLoad file image base end').run k =
        (checkEntry (k₁.loadWord (file + entryField)) base end', k₁) := by
  rw [finishLoad, run_bind, show (get : KernelM Kernel).run k = (k, k) from rfl]
  dsimp only
  rw [run_bind, run_bind]
  split_ifs
  · exact .inl ⟨_, rfl⟩
  · exact .inr ⟨_, rfl⟩

theorem checkEntry_loaded {entry : Option Word} {base end' : Word} {result : RiruLoadResult}
    (h : checkEntry entry base end' = .loaded result) : entry = some result.entry ∧
      result.imageBase = base ∧ result.imageEnd = end' ∧
      ¬(result.entry < base ∨ end' ≤ result.entry) := by
  cases entry with
  | none => cases h
  | some entry =>
    rw [checkEntry] at h
    split_ifs at h with outside
    obtain rfl := LoadOutcome.loaded.inj h
    exact ⟨rfl, rfl, rfl, outside⟩

theorem finishLoad_loaded {file : Word} {image : RiruImage} {base end' : Word}
    {result : RiruLoadResult}
    (run : (finishLoad file image base end').run k = (.loaded result, k')) :
    k'.loadWord (file + entryField) = some result.entry ∧ result.imageBase = base ∧
      result.imageEnd = end' ∧ ¬(result.entry < base ∨ end' ≤ result.entry) := by
  rcases finishLoad_run file image base end' k with ⟨k₁, halted⟩ | ⟨k₁, checked⟩
  · rw [halted] at run
    cases run
  · rw [checked] at run
    obtain ⟨outcome, rfl⟩ := Prod.mk.inj run
    exact checkEntry_loaded outcome

theorem riruLoad_runs {file size : Word} {result : RiruLoadResult}
    (load : (riruLoad b file size).run k = (.loaded result, k')) :
    ∃ image k₁, LoadRuns b file size k result k' image k₁ := by
  rw [riruLoad, run_bind, show (get : KernelM Kernel).run k = (k, k) from rfl] at load
  dsimp only at load
  cases parsed : riruParse (k.fileAt file) size with
  | error code =>
    rw [parsed] at load
    cases load
  | ok image =>
    rw [parsed] at load
    dsimp only at load
    cases span : imageSpan image.header with
    | error code =>
      rw [span] at load
      cases load
    | ok pair =>
      obtain ⟨base, end'⟩ := pair
      rw [span] at load
      dsimp only at load
      rw [run_bind] at load
      rcases prepared : (prepareSpace b image.header end').run k with ⟨code, k₁⟩
      rw [prepared] at load
      dsimp only at load
      by_cases zero : code = 0
      swap
      · rw [if_pos zero] at load
        cases load
      rw [if_neg (not_not.mpr zero)] at load
      subst zero
      obtain ⟨-, rfl, rfl, -⟩ := finishLoad_loaded load
      exact ⟨image, k₁, parsed, span, prepared, load⟩

section
variable {image : RiruImage} {end' : Word} {s : Stretch} (valid : SectionsValid image.header)
  (bss : validRange (bssStart image.header end') image.header.bssSize = true)

theorem stretch_pages (mem : s ∈ stretches image (bssStart image.header end')) {a : Word}
    (here : s.Has a) : pageOf a ∈ imagePages image.header end' := by
  have page := Covers.page here
  simp only [stretches, List.mem_cons, List.not_mem_nil, or_false] at mem
  rcases mem with rfl | rfl | rfl | rfl
  · exact .inl (.inl (.inl page))
  · exact .inl (.inl (.inr page))
  · exact .inl (.inr page)
  · exact .inr page

include valid bss

theorem stretch_window (mem : s ∈ stretches image (bssStart image.header end'))
    (pos : 0 < s.size.toNat) :
    0x400000 ≤ s.start.toNat ∧ s.start.toNat+s.size.toNat ≤ 0x40000000 := by
  have range : validRange s.start s.size = true := by
    simp only [stretches, List.mem_cons, List.not_mem_nil, or_false] at mem
    rcases mem with rfl | rfl | rfl | rfl
    · exact valid.code
    · exact valid.rodata
    · exact valid.data
    · exact bss
  refine (validRange_iff.mp range).resolve_left fun zero => ?_
  rw [zero] at pos
  exact absurd pos (by decide)

theorem stretch_byte (mem : s ∈ stretches image (bssStart image.header end')) {j : ℕ}
    (lt : j < s.size.toNat) : s.Has (s.start + BitVec.ofNat 64 j) ∧
      s.at (s.start + BitVec.ofNat 64 j) = s.byte j ∧
      (s.start + BitVec.ofNat 64 j).toNat < 0x40000000 := by
  obtain ⟨le, high⟩ := stretch_window valid bss mem (by omega)
  have address : (s.start + BitVec.ofNat 64 j).toNat = s.start.toNat+j :=
    toNat_add_ofNat (by omega)
  refine ⟨⟨by omega, by omega⟩, ?_, by omega⟩
  rw [Stretch.at, address, Nat.add_sub_cancel_left]

/-- In the end every address of the image holds what the last stretch there left. -/
theorem Finished.virtualByte (h : Finished image end' k k') (hs : Spaces place k)
    (space : UserSpace place k u) (user : k.riruUserCr3 = pageAddress u)
    (own : OwnTables k.memory u (imagePages image.header end'))
    (mem : s ∈ stretches image (bssStart image.header end')) {j : ℕ} (lt : j < s.size.toNat) :
    k'.virtualByte k'.riruUserCr3 (s.start + BitVec.ofNat 64 j) =
      written (stretches image (bssStart image.header end')) (s.start + BitVec.ofNat 64 j) := by
  obtain ⟨here, -, high⟩ := stretch_byte valid bss mem lt
  have ult := space.lt
  have user' : k'.riruUserCr3 = pageAddress u := by
    rw [h.statics]
    exact user
  have page := stretch_pages mem here
  have physical : getPhysicalFrom k'.memory u (s.start + BitVec.ofNat 64 j) =
      s.start + BitVec.ofNat 64 j := by
    have same : getPhysicalFrom k'.memory u (s.start + BitVec.ofNat 64 j) =
        getPhysicalFrom k.memory u (s.start + BitVec.ofNat 64 j) :=
      getPhysicalFrom_tables fun {l i t} on hw =>
        h.off t (own page (i := i) (by rwa [← path_eq]) hw)
    rw [same, space.physical hs (by omega)]
  have ne : s.start + BitVec.ofNat 64 j ≠ 0 := by
    intro zero
    obtain ⟨low, -⟩ := stretch_window valid bss mem (by omega)
    have le := here.1
    rw [zero] at le
    simp at le
    rw [le] at low
    exact absurd low (by decide)
  obtain ⟨v, content⟩ := written_isSome mem here
  rw [Kernel.virtualByte, user', physicalToTable_pageAddress (by omega), physical, if_neg ne,
    h.bytes, imageContent_eq, content]
  rfl

end

/-- A load that returns 0 and overwrites no table that translates one of the pages. -/
structure KeptLoad (image : RiruImage) (end' : Word) (pages : Set ℕ) (place : Places) (k : Kernel)
    (u : ℕ) (place₁ : Places) (k₁ k' : Kernel) : Prop where
  valid : SectionsValid image.header
  prepared : PreparedSpace image.header end' place k u place₁ k₁
  only : ∀ s, UserOnly s k → programPages image.header end' ⊆ s → UserOnly s k₁
  spaces : Spaces place₁ k₁
  own : OwnTables k₁.memory u pages
  finished : Finished image end' k₁ k'

theorem OwnTables.mono {M : ℕ → Fin 512 → Word} {pages pages' : Set ℕ} (h : OwnTables M u pages')
    (sub : pages ⊆ pages') : OwnTables M u pages :=
  fun _ mem _ _ _ on hw here => h (sub mem) on hw (sub here)

/-- The space that a load has prepared when the copy begins, with the file in memory. -/
structure Begun (file size : Word) (image : RiruImage) (stop : Word) (place : Places) (k : Kernel)
    (u : ℕ) (place₁ : Places) (k₁ : Kernel) : Prop where
  prepared : PreparedSpace image.header stop place k u place₁ k₁
  only : ∀ s, UserOnly s k → programPages image.header stop ⊆ s → UserOnly s k₁
  spaces : Spaces place₁ k₁
  inside : InMemory file size image k₁
  own : ∀ pages, (∀ p ∈ pages, p < 1048576) → ClearOfTables k pages → OwnTables k₁.memory u pages

section
variable {file size : Word} {result : RiruLoadResult} {image : RiruImage} {k₁ : Kernel}
  (h : LoadRuns b file size k result k' image k₁) (hs : Spaces place k)
  (held : Held place k file size)
include h hs held

theorem LoadRuns.begun : ∃ u place₁, Begun file size image result.imageEnd place k u place₁ k₁ := by
  have valid := imageSpan_valid h.span
  obtain ⟨u, place₁, k₁', code, run, -, -, only, done⟩ :=
    prepareSpace_spec b hs valid result.imageEnd
  obtain ⟨rfl, rfl⟩ := Prod.mk.inj (h.prepared.symm.trans run)
  have prepared := done rfl
  have alloc := @prepareSpace_alloc k b image.header result.imageEnd
    (by rw [h.prepared])
  rw [h.prepared] at alloc
  have inside := held.prepared h.parsed prepared.step
  exact ⟨u, place₁, prepared, only, (hs.withUser (pageAddress u)).step prepared.step, inside,
    fun pages low clear => prepared.ownTables hs alloc low clear⟩

theorem LoadRuns.kept {pages : Set ℕ}
    (sub : imagePages image.header result.imageEnd ∪ rangeOf file size ⊆ pages)
    (low : ∀ p ∈ pages, p < 1048576) (clear : ClearOfTables k pages)
    (off : OffFile file size image.header result.imageEnd) :
    ∃ u place₁, KeptLoad image result.imageEnd pages place k u place₁ k₁ k' := by
  have valid := imageSpan_valid h.span
  obtain ⟨u, place₁, begun⟩ := h.begun hs held
  have own := begun.own pages low clear
  obtain ⟨k₂, run₂, finished⟩ := finishLoad_spec begun.spaces begun.prepared.space
    begun.prepared.user begun.inside valid begun.prepared.bss ⟨own.mono sub, off⟩ result.imageBase
  obtain rfl : k₂ = k' := congrArg Prod.snd (run₂.symm.trans h.finished)
  exact ⟨u, place₁, valid, begun.prepared, begun.only, begun.spaces, own, finished⟩

end

theorem LoadRuns.low {file size : Word} {result : RiruLoadResult} {image : RiruImage}
    {k₁ : Kernel} (h : LoadRuns b file size k result k' image k₁) (hs : Spaces place k) :
    ∀ p ∈ imagePages image.header result.imageEnd, p < 1048576 := by
  have valid := imageSpan_valid h.span
  obtain ⟨u, place₁, k₁', code, run, -, -, -, done⟩ := prepareSpace_spec b hs valid result.imageEnd
  obtain ⟨rfl, rfl⟩ := Prod.mk.inj (h.prepared.symm.trans run)
  exact fun p mem => (imagePages_low valid (done rfl).bss p mem).2

/-- A load that overwrites neither its file nor its tables. -/
theorem LoadRuns.clear {file size : Word} {result : RiruLoadResult} {image : RiruImage}
    {k₁ : Kernel} (h : LoadRuns b file size k result k' image k₁) (hs : Spaces place k)
    (held : Held place k file size)
    (clear : CopyClear file size image.header result.imageEnd k) : ∃ u place₁, KeptLoad image
      result.imageEnd (imagePages image.header result.imageEnd ∪ rangeOf file size) place k u place₁
      k₁ k' := by
  refine h.kept hs held subset_rfl ?_ clear.tables clear.file
  rintro p (mem | mem)
  · exact h.low hs p mem
  · exact (held.inMemory h.parsed).page_lt p mem

/-- The entry point of the result is the one in the file, if the PML4 of the kernel is kept. -/
theorem LoadRuns.entry {file size : Word} {result : RiruLoadResult} {image : RiruImage}
    {k₁ : Kernel} (h : LoadRuns b file size k result k' image k₁) (hs : Spaces place k)
    (held : Held place k file size) (clear : CopyClear file size image.header result.imageEnd k)
    (root : k.kernelPml4 ∉ imagePages image.header result.imageEnd) :
    result.entry = image.header.entry := by
  have valid := imageSpan_valid h.span
  obtain ⟨u, place₁, begun⟩ := h.begun hs held
  have low : ∀ p ∈ imagePages image.header result.imageEnd ∪ rangeOf file size, p < 1048576 := by
    rintro p (mem | mem)
    · exact h.low hs p mem
    · exact begun.inside.page_lt p mem
  have undisturbed : Undisturbed file size image.header result.imageEnd k₁ u :=
    ⟨begun.own _ low clear.tables, clear.file⟩
  obtain ⟨k₂, run₂, finished⟩ := finishLoad_spec begun.spaces begun.prepared.space
    begun.prepared.user begun.inside valid begun.prepared.bss undisturbed result.imageBase
  have kernelPml4 : k₁.kernelPml4 = k.kernelPml4 := begun.prepared.step.kernelPml4
  have entry := finished.entry begun.spaces begun.prepared.space begun.inside valid
    begun.prepared.bss undisturbed <| by
    rw [kernelPml4]
    rintro (mem | mem)
    · exact root mem
    · cases (held.unplaced _ mem).symm.trans hs.root
  have loaded := congrArg Prod.fst (run₂.symm.trans h.finished)
  dsimp only at loaded
  rw [entry] at loaded
  exact (Option.some.inj (checkEntry_loaded loaded).1).symm

theorem Stretch.Has.byte {s : Stretch} {a : Word} (here : s.Has a) :
    ∃ j, j < s.size.toNat ∧ a = s.start + BitVec.ofNat 64 j := by
  have le := here.1
  have short := here.2
  have lt := a.isLt
  refine ⟨a.toNat-s.start.toNat, by omega, BitVec.eq_of_toNat_eq ?_⟩
  rw [BitVec.toNat_add, BitVec.toNat_ofNat]
  omega

section
variable {image : RiruImage} {end' : Word} {pages : Set ℕ} {place₁ : Places} {k₁ : Kernel}
  (h : KeptLoad image end' pages place k u place₁ k₁ k')
  (sub : imagePages image.header end' ⊆ pages)
include h sub

/-- At an address of the image the new space holds what the last stretch there left. -/
theorem KeptLoad.content {a : Word} {v : BitVec 8}
    (left : written (stretches image (bssStart image.header end')) a = some v) :
    k'.virtualByte k'.riruUserCr3 a = some v := by
  obtain ⟨s, mem, here, -⟩ := written_from left
  obtain ⟨j, lt, rfl⟩ := here.byte
  rw [h.finished.virtualByte h.valid h.prepared.bss h.spaces h.prepared.space h.prepared.user
    (h.own.mono sub) mem lt, left]

/-- The last stretch is what the new space holds everywhere exactly when the stretches agree. -/
theorem KeptLoad.described :
    AsDescribed (stretches image (bssStart image.header end')) k' ↔
      Agree (stretches image (bssStart image.header end')) ∧
        OffStack (stretches image (bssStart image.header end')) := by
  constructor
  · intro described
    refine ⟨written_iff.mp fun s mem a here => ?_, described.stack⟩
    obtain ⟨j, lt, rfl⟩ := here.byte
    obtain ⟨-, at', -⟩ := stretch_byte h.valid h.prepared.bss mem lt
    obtain ⟨v, left⟩ := written_isSome mem here
    rw [left, ← h.content sub left, described.bytes s mem j lt, at']
  · rintro ⟨agree, stack⟩
    refine ⟨fun s mem j lt => ?_, stack⟩
    obtain ⟨here, at', -⟩ := stretch_byte h.valid h.prepared.bss mem lt
    rw [h.content sub (written_iff.mpr agree s mem _ here), at']

end

/-- Pages above the ones taken hold no table, and a file none either. -/
theorem Pmm.Room.clear (hs : Spaces place k) (room : k.pmm.Room first stop) (lt : first < stop)
    {file size : Word} (held : Held place k file size) {pages : Set ℕ}
    (free : ∀ p ∈ pages, first+1 ≤ p ∧ p < stop) : ClearOfTables k (pages ∪ rangeOf file size) := by
  have bound := room.stop_le
  obtain ⟨page, pos, le, unused, alloc, -⟩ := room.allocPage lt
  refine ⟨fun mem => ?_, fun p _ l i t _ on hw mem => ?_⟩
  · rw [alloc, pageOf_pageAddress (by omega)] at mem
    rcases mem with mem | mem
    · have := (free page mem).1
      omega
    · rw [held.used page mem] at unused
      cases unused
  · have short : l.length+1 ≤ 4 := by
      have := on.length_le
      simpa [pagePath] using this
    have placed := hs.sound.placed.place_walk hs.root (by simp; omega) hw
    have used := (hs.sound.used placed).1
    rcases mem with mem | mem
    · obtain ⟨hl, hr⟩ := free t mem
      rw [room.free (by omega) hr] at used
      cases used
    · rw [held.unplaced t mem] at placed
      cases placed

/-- A program above the pages taken overwrites neither its file nor a table. -/
theorem Pmm.Room.copyClear (hs : Spaces place k) (room : k.pmm.Room first stop) (lt : first < stop)
    {file size : Word} (held : Held place k file size) {h : RiruHeader} {end' : Word}
    (free : ∀ p ∈ imagePages h end', first+1 ≤ p ∧ p < stop) : CopyClear file size h end' k := by
  refine ⟨room.clear hs lt held free, fun a mem covers => ?_⟩
  obtain ⟨hl, hr⟩ := free _ (imageBytes_page mem)
  have used := held.used _ covers.page
  rw [room.free (by omega) hr] at used
  cases used

def overlapFile (a : Word) : BitVec 8 :=
  ([0x52, 0x49, 0x52, 0x55, 1, 0, 1, 0, 1, 0, 0, 0, 0, 0, 0, 0, 0, 0, 0x30, 3, 0, 0, 0, 0,
    120, 0, 0, 0, 0, 0, 0, 0, 0, 0, 0x30, 3, 0, 0, 0, 0, 2, 0, 0, 0, 0, 0, 0, 0,
    122, 0, 0, 0, 0, 0, 0, 0, 0, 0, 0x30, 3, 0, 0, 0, 0, 1, 0, 0, 0, 0, 0, 0, 0] ++
    List.replicate 32 0 ++
    [0, 0, 16, 0, 0, 0, 0, 0, 123, 0, 0, 0, 0, 0, 0, 0, 0xEB, 0xFE, 0x90] :
      List (BitVec 8)).getD a.toNat 0

theorem overlap_valid : riruValidate (some overlapFile) 123 = 0 := by decide

theorem overlap_header : (readHeader overlapFile).codeVaddr = 0x3300000 ∧
    (readHeader overlapFile).codeSize = 2 ∧ (readHeader overlapFile).rodataVaddr = 0x3300000 ∧
    (readHeader overlapFile).rodataSize = 1 ∧ (readHeader overlapFile).dataSize = 0 ∧
    (readHeader overlapFile).bssSize = 0 ∧ (readHeader overlapFile).entry = 0x3300000 := by decide

theorem overlap_page : OnePage (readHeader overlapFile) :=
  ⟨by decide, by decide, by decide, by decide, by decide⟩

structure DesktopRead (f : FileRead) (bytes : Bytes) (count : Word) (k₀ : Kernel) (start : ℕ)
    (k₁ k : Kernel) (place : Places) : Prop where
  booted : Booted desktopLayout k₀
  filled : Filled f bytes count k₀ start k₁ k
  spaces : Spaces place k
  only : UserOnly ∅ k
  held : Held place k (pageAddress start + headerSize) count
  room : k.pmm.Room 0x32F0 0x4000

theorem desktop_reads {f : FileRead} {bytes : Bytes} {count : Word}
    (content : f.content = some (bytes, count)) (nonzero : f.size ≠ 0)
    (short : (kmallocPages (f.size.setWidth 64)).toNat ≤ 0xE0) :
    ∃ k₀ start k₁ k place, DesktopRead f bytes count k₀ start k₁ k place := by
  obtain ⟨k₀, booted, room, -⟩ := desktop_booted
  obtain ⟨place, spaces, plain, -⟩ := booted.spaces
  obtain ⟨start, k₁, k, filled, -, room'⟩ := filled_room room content nonzero (by omega)
  obtain ⟨apart, -, held⟩ := filled.apart spaces.sound
  exact ⟨k₀, start, k₁, k, place, booted, filled, spaces.apart apart,
    (plain.userOnly spaces).apart spaces apart, held, room'.mono (by omega)⟩

/-- A one-page program at 0x3300000 that has been read is loaded. -/
theorem DesktopRead.loads {f : FileRead} {bytes : Bytes} {count : Word} {k₀ k₁ : Kernel}
    {start : ℕ} (read : DesktopRead f bytes count k₀ start k₁ k place) {image : RiruImage}
    (parsed : riruParse (k.fileAt (pageAddress start + headerSize)) count = .ok image)
    (page : OnePage image.header) (entry : image.header.entry = 0x3300000) :
    ∃ result k', (riruLoad desktopLayout (pageAddress start + headerSize) count).run k =
        (.loaded result, k') ∧ result.imageEnd = 0x3301000 ∧
      KeepsFile (pageAddress start + headerSize) count k := by
  have low : desktopLayout.Low := ⟨by decide, by decide⟩
  have free : ∀ p ∈ imagePages image.header 0x3301000, 0x32F0+1 ≤ p ∧ p < 0x4000 := by
    intro p mem
    rw [page.pages p mem]
    decide
  obtain ⟨u, place₁, k₂, k', run, -, -⟩ := riruLoad_room low read.spaces read.room (by decide)
    read.held parsed page.span page.bss.valid free
  rw [checkEntry_inside (by rw [entry]; decide)] at run
  refine ⟨_, k', run, rfl, fun image' span parsed' spanned => ?_⟩
  obtain rfl := Except.ok.inj (parsed.symm.trans parsed')
  obtain rfl := Except.ok.inj (page.span.symm.trans spanned)
  exact read.room.copyClear read.spaces (by decide) read.held free

theorem Stretch.not_has {s : Stretch} (empty : s.size = 0) (a : Word) : ¬s.Has a := by
  rintro ⟨le, lt⟩
  rw [empty] at lt
  simp only [BitVec.ofNat_eq_ofNat, BitVec.toNat_ofNat, Nat.zero_mod, Nat.add_zero] at lt
  omega

/-- A program of code only, below the stack, keeps its sections apart. -/
theorem codeOnly_apart {image : RiruImage} {bss : Word} (rodata : image.header.rodataSize = 0)
    (data : image.header.dataSize = 0) (none : image.header.bssSize = 0)
    (low : image.header.codeVaddr.toNat+image.header.codeSize.toNat ≤ 0x3FFFB000) :
    Agree (stretches image bss) ∧ OffStack (stretches image bss) := by
  have only {s : Stretch} (mem : s ∈ stretches image bss) {a : Word} (here : s.Has a) :
      s = ⟨image.header.codeVaddr, image.header.codeSize, image.byte image.code⟩ := by
    simp only [stretches, List.mem_cons, List.not_mem_nil, or_false] at mem
    rcases mem with rfl | rfl | rfl | rfl
    · rfl
    · exact absurd here (Stretch.not_has rodata a)
    · exact absurd here (Stretch.not_has data a)
    · exact absurd here (Stretch.not_has none a)
  have bottom : (riruUserStackTop - riruUserStackSize).toNat = 0x3FFFB000 := by decide
  refine ⟨fun s mem s' mem' a here here' => ?_, fun s mem a here stack => ?_⟩
  · rw [only mem here, only mem' here']
  · rw [only mem here] at here
    have lt := here.2
    have le := stack.1
    dsimp only at lt
    omega

def overlapRead : FileRead where
  size := 123
  content := some (overlapFile, 123)
  fits c given := by
    obtain rfl := Option.some.inj given
    decide

end TinyOS.Memory
