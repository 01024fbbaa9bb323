import TinyOS.KernelTables
import TinyOS.RiruContent
import TinyOS.VmmIsolation

set_option autoImplicit false

/-! The pages of programs over the runs of the kernel: what a load opens to the user
(riru/loader.c) and what `vmm_destroy_user_space` gives back (memory/vmm.c). -/
namespace TinyOS.Memory
open RadixTables StateRuns Riru

variable {u : ℕ} {place place' : Places} {k k' : Kernel} {b : Layout}

def freeMapped (memory : ℕ → Fin 512 → Word) (r : ℕ) (s : Pmm) (va : Word) : Pmm :=
  if getPhysicalFrom memory r va ≠ 0 then pmmFreePage s (getPhysicalFrom memory r va &&& pageMask)
  else s

theorem freeUserPages_run (r : ℕ) (l : List Word) (k : Kernel) : (freeUserPages r l).run k =
    ((), { k with pmm := l.foldl (freeMapped k.memory r) k.pmm }) := by
  induction l generalizing k with
  | nil => rfl
  | cons va rest ih =>
    rw [freeUserPages, run_bind, show (get : KernelM Kernel).run k = (k, k) from rfl, List.foldl_cons,
      freeMapped]
    dsimp only
    by_cases mapped : getPhysicalFrom k.memory r va ≠ 0
    · rw [if_pos mapped, if_pos mapped, run_bind]
      exact ih _
    · rw [if_neg mapped, if_neg mapped]
      exact ih k

theorem freed_used {l : List ℕ} (range : ∀ p ∈ l, 0 < p ∧ p < 1048576) (s : Pmm) (q : ℕ) :
    (l.foldl (fun s p => pmmFreePage s (pageAddress p)) s).used q = true ↔
      s.used q = true ∧ q ∉ l := by
  induction l generalizing s with
  | nil => simp
  | cons p rest ih =>
    obtain ⟨pos, lt⟩ := range p List.mem_cons_self
    have below : pageAddress p < maxPhysicalMemory := by
      rw [BitVec.lt_def, pageAddress_toNat (by omega), show maxPhysicalMemory.toNat = 4294967296
        by decide]
      omega
    rw [List.foldl_cons, ih (fun p' mem => range p' (List.mem_cons_of_mem p mem)),
      pmmFreePage_used _ (pageAddress_aligned p), pageOf_pageAddress (by omega), List.mem_cons]
    constructor
    · rintro ⟨⟨used, ne⟩, off⟩
      refine ⟨used, fun both => ?_⟩
      rcases both with rfl | mem
      · exact ne ⟨pageAddress_ne_zero pos (by omega), below, rfl⟩
      · exact off mem
    · rintro ⟨used, off⟩
      exact ⟨⟨used, fun both => off (.inl both.2.2.symm)⟩, fun mem => off (.inr mem)⟩

def windowPages : Set ℕ := {p | 0x400 ≤ p ∧ p < 0x40000}

structure Destroyed (u : ℕ) (k k' : Kernel) : Prop where
  used : ∀ p, k'.pmm.used p = true ↔ k.pmm.used p = true ∧ p ∉ windowPages ∧ p ≠ u
  memory : k'.memory = k.memory
  kernelPml4 : k'.kernelPml4 = k.kernelPml4
  kernelCr3 : k'.kernelCr3 = k.kernelCr3

theorem destroyUserSpace_spec (hs : Spaces place k) (h : UserSpace place k u) :
    ∃ k', (vmmDestroyUserSpace (pageAddress u)).run k = (0, k') ∧ Destroyed u k k' := by
  have lt := h.lt
  have page : physicalToTable (pageAddress u) = u := physicalToTable_pageAddress (by omega)
  have window : pageRange userMin userMax = (List.range' 0x400 (0x40000-0x400)).map pageAddress := by
    rw [show userMin = pageAddress 0x400 by decide, show userMax = pageAddress 0x40000 by decide,
      pageRange_eq (by decide) (by decide)]
  have member {p : ℕ} : p ∈ List.range' 0x400 (0x40000-0x400) ↔ p ∈ windowPages := by
    rw [List.mem_range'_1, windowPages, Set.mem_ofPred_eq]
  have physical {p : ℕ} (mem : p ∈ List.range' 0x400 (0x40000-0x400)) :
      getPhysicalFrom k.memory u (pageAddress p) = pageAddress p := by
    rw [List.mem_range'_1] at mem
    refine h.physical hs ?_
    rw [pageAddress_toNat (by omega)]
    omega
  -- on the identity map the loop frees the pages of the window
  have loop : ((List.range' 0x400 (0x40000-0x400)).map pageAddress).foldl
      (freeMapped k.memory u) k.pmm =
      (List.range' 0x400 (0x40000-0x400)).foldl (fun s p => pmmFreePage s (pageAddress p)) k.pmm := by
    rw [List.foldl_map]
    refine List.foldl_ext _ _ _ fun s p mem => ?_
    have range := List.mem_range'_1.mp mem
    rw [freeMapped, physical mem, if_pos (pageAddress_ne_zero (by omega) (by omega)),
      pageAddress_and_mask (by omega)]
  have run : (vmmDestroyUserSpace (pageAddress u)).run k = (0, { k with
      currentPml4 := k.kernelPml4
      cr3 := k.kernelCr3
      pmm := pmmFreePage ((List.range' 0x400 (0x40000-0x400)).foldl
        (fun s p => pmmFreePage s (pageAddress p)) k.pmm) (pageAddress u) }) := by
    rw [vmmDestroyUserSpace, if_neg (pageAddress_ne_zero h.pos (by omega)), run_bind,
      show vmmSwitchKernelSpace.run k = ((), { k with
        currentPml4 := k.kernelPml4, cr3 := k.kernelCr3 }) from rfl]
    dsimp only
    rw [run_bind, freeUserPages_run, page, window]
    dsimp only
    rw [loop]
    generalize (List.range' 0x400 (0x40000-0x400)).foldl (fun s p => pmmFreePage s (pageAddress p))
      k.pmm = s
    rw [run_bind]
    rfl
  refine ⟨_, run, fun p => ?_, rfl, rfl, rfl⟩
  have freed := freed_used (l := List.range' 0x400 (0x40000-0x400) ++ [u]) (fun p mem => by
    rcases List.mem_append.mp mem with mem | mem
    · rw [List.mem_range'_1] at mem
      omega
    · obtain rfl := List.mem_singleton.mp mem
      exact ⟨h.pos, lt⟩) k.pmm p
  rw [List.foldl_concat] at freed
  dsimp only
  rw [freed, List.mem_append, member, List.mem_singleton, not_or]

def touchedPages (file : Option Bytes) (size : Word) : Set ℕ :=
  {p | ∃ image span, riruParse file size = .ok image ∧ imageSpan image.header = .ok span ∧
    p ∈ programPages image.header span.2}

/-- The file lies in pages in use that hold no table, below 4 GB. When the copy begins no page of
the image is a table of the kernel, of the new space or of another, nor does the image meet the
file. -/
structure ImageClear (b : Layout) (file size : Word) (others : List ℕ) (k : Kernel)
    (h : RiruHeader) (stop : Word) : Prop where
  low : file.toNat+size.toNat ≤ 4294967296
  held : ∀ p ∈ rangeOf file size, k.pmm.used p = true ∧ ¬IsTable (k.kernelPml4 :: others) k p
  file : OffFile file size h stop
  tables : ∀ k₁, (prepareSpace b h stop).run k = (0, k₁) → ∀ p ∈ imagePages h stop,
    ¬IsTable (k₁.kernelPml4 :: physicalToTable k₁.riruUserCr3 :: others) k₁ p

/-- A file whose image would be copied over nothing that the copy goes by. -/
def ImageApart (b : Layout) (file size : Word) (others : List ℕ) (k : Kernel) : Prop :=
  ∀ image span, riruParse (k.fileAt file) size = .ok image → imageSpan image.header = .ok span →
    ImageClear b file size others k image.header span.2

structure LoadLeaves (b : Layout) (others : List ℕ) (opens : Set ℕ) (place : Places) (k : Kernel)
    (outcome : LoadOutcome) (place' : Places) (k' : Kernel) : Prop where
  spaces : Spaces place' k'
  kernelPml4 : k'.kernelPml4 = k.kernelPml4
  other : ∀ r ∈ others, UserSpace place k r → UserSpace place' k' r
  used : ∀ p, k.pmm.used p = true → k'.pmm.used p = true
  only : ∀ pages, UserOnly pages k → UserOnly (pages ∪ opens) k'
  returns : outcome ≠ .halted
  loaded : ∀ result, outcome = .loaded result → ∃ u, k'.riruUserCr3 = pageAddress u ∧
    UserSpace place' k' u ∧ place u = none ∧ k.pmm.used u = false ∧ k'.pmm.used u = true
  pmm : ∀ result, outcome = .loaded result → k'.pmm = ((vmmCreateUserSpace b).run k).2.pmm

/-- The pages a load takes are those of the new space: for the program it takes none. -/
theorem prepareSpace_pmm (hs : Spaces place k) {h : RiruHeader} (valid : SectionsValid h)
    {stop : Word} (run : (prepareSpace b h stop).run k = (0, k')) :
    k'.pmm = ((vmmCreateUserSpace b).run k).2.pmm := by
  rcases createUserSpace_spaces b hs with
    ⟨u, place₁, k₁, create, -⟩ | ⟨u, place₁, k₁, create, -, step, -, space⟩
  · rw [prepareSpace_none create] at run
    exact absurd (show (-6 : ℤ) = 0 from congrArg Prod.fst run) (by decide)
  · obtain ⟨result, place₂, k₂, pages, run₂, opens, -⟩ :=
      mapSections_spec ((hs.step step).withUser (pageAddress u)) (space.withUser _) valid stop
    rw [prepareSpace_made create space] at run
    obtain ⟨-, rfl⟩ := Prod.mk.inj (run₂.symm.trans run)
    rw [create, opens.pmm]
    rfl

theorem UserOnly.mono {pages pages' : Set ℕ} (h : UserOnly pages k) (sub : pages ⊆ pages') :
    UserOnly pages' k := fun _ _ lt hw hu => sub (h lt hw hu)

/-- Nothing but the memory and the allocator changes before the switch to the new space. -/
theorem Spaces.prepared (hs : Spaces place k) {c : Word}
    (step : Step u (place) (k.withUser c) place' k') : Spaces place' k' :=
  (hs.withUser c).step step

theorem UserSpace.prepared (hs : Spaces place k) {r : ℕ} (h : UserSpace place k r) {c : Word}
    (step : Step u place (k.withUser c) place' k') : UserSpace place' k' r :=
  UserSpace.step (hs.withUser c) ⟨h.root, h.pos, h.lt, h.shared⟩ step

/-- The copy of an image that is clear goes by its file and its tables as they were. -/
theorem ImageClear.undisturbed {file size stop : Word} {others : List ℕ} {h : RiruHeader}
    {place₁ : Places} {k₁ : Kernel} (clear : ImageClear b file size others k h stop)
    (run : (prepareSpace b h stop).run k = (0, k₁)) (held : Held place₁ k₁ file size)
    (hs : Spaces place₁ k₁) (space : UserSpace place₁ k₁ u) (user : k₁.riruUserCr3 = pageAddress u) :
    Undisturbed file size h stop k₁ u := by
  refine ⟨fun p _ l i t on hw member => ?_, clear.file⟩
  have short := on.length_le
  simp only [List.length_append, pagePath, List.length_cons, List.length_nil] at short
  rcases member with member | member
  · have lt := space.lt
    have apart := clear.tables k₁ run t member
    rw [user, physicalToTable_pageAddress (by omega)] at apart
    exact apart ⟨u, List.mem_cons_of_mem _ List.mem_cons_self, l, by omega, hw⟩
  · have placed := hs.sound.placed.place_walk space.root
      (by simp only [List.length_nil]; omega) hw
    rw [held.unplaced t member] at placed
    cases placed

/-- A copy onto no table of these spaces leaves them as they are. -/
theorem Spaces.copied {rs : List ℕ} {place₁ : Places} {k₁ k₂ : Kernel} {image : RiruImage}
    {stop : Word} (hs : Spaces place₁ k₁) (roots : ∀ r ∈ k₁.kernelPml4 :: rs, place₁ r = some [])
    (finished : Finished image stop k₁ k₂)
    (off : ∀ p ∈ imagePages image.header stop, ¬IsTable (k₁.kernelPml4 :: rs) k₁ p) :
    ∃ place₂, Spaces place₂ k₁ ∧ Apart place₂ k₁ k₂ ∧
      ∀ r ∈ k₁.kernelPml4 :: rs, UserSpace place₁ k₁ r → UserSpace place₂ k₂ r := by
  obtain ⟨place₂, hs₂, root₂, tables₂⟩ := hs.restrict roots List.mem_cons_self
  have copy : Apart place₂ k₁ k₂ := by
    refine ⟨fun p l hp => finished.off p fun mem => off p mem (tables₂ hp), fun p l hp => ?_, ?_,
      ?_, ?_⟩
    · rw [finished.statics]
      exact (hs₂.sound.used hp).1
    · rw [finished.statics]
      exact hs₂.sound.page0
    · rw [finished.statics]
    · rw [finished.statics]
  exact ⟨place₂, hs₂, copy, fun r mem h =>
    UserSpace.apart hs₂ ⟨root₂ r mem, h.pos, h.lt, h.shared⟩ copy⟩

theorem riruLoad_leaves (hs : Spaces place k) {others : List ℕ}
    (roots : ∀ r ∈ others, place r = some [])
    (tables : ∀ {p l}, place p = some l → IsTable (k.kernelPml4 :: others) k p) {file size : Word}
    (apart : ImageApart b file size others k) :
    ∃ place' outcome k', (riruLoad b file size).run k = (outcome, k') ∧
      LoadLeaves b others (touchedPages (k.fileAt file) size) place k outcome place' k' := by
  have stays (code : ℤ) : LoadLeaves b others (touchedPages (k.fileAt file) size) place k
      (.failed code) place k :=
    ⟨hs, rfl, fun _ _ h => h, fun _ h => h, fun _ h => h.mono Set.subset_union_left, nofun, nofun,
      nofun⟩
  rw [riruLoad, run_bind, show (get : KernelM Kernel).run k = (k, k) from rfl]
  dsimp only
  cases parsed : riruParse (k.fileAt file) size with
  | error code => exact ⟨place, _, k, rfl, stays code⟩
  | ok image =>
    dsimp only
    cases span : imageSpan image.header with
    | error code => exact ⟨place, _, k, rfl, stays code⟩
    | ok pair =>
      obtain ⟨base, stop⟩ := pair
      have valid := imageSpan_valid span
      have clear := apart image (base, stop) parsed span
      have held : Held place k file size := by
        refine ⟨clear.low, fun p mem => (clear.held p mem).1, fun p mem => ?_⟩
        cases placed : place p with
        | none => rfl
        | some l => exact absurd (tables placed) (clear.held p mem).2
      obtain ⟨u, place₁, k₁, result, run₁, fresh, step, only, done⟩ := prepareSpace_spec b hs valid stop
      have hs₁ : Spaces place₁ k₁ := hs.prepared step
      have opens {pages : Set ℕ} (before : UserOnly pages k) :
          UserOnly (pages ∪ touchedPages (k.fileAt file) size) k₁ :=
        only _ (before.mono Set.subset_union_left) fun p mem =>
          .inr ⟨image, (base, stop), parsed, span, mem⟩
      dsimp only
      rw [run_bind, run₁]
      dsimp only
      by_cases zero : result = 0
      swap
      · rw [if_pos zero]
        exact ⟨place₁, _, k₁, rfl, hs₁, step.kernelPml4, fun r _ h => h.prepared hs step,
          fun p h => step.used_keep h, fun _ before => opens before, nofun, nofun, nofun⟩
      subst zero
      rw [if_neg (not_not.mpr rfl)]
      have prepared := done rfl
      have lt := prepared.space.lt
      have inside := held.prepared parsed step
      have off := clear.tables k₁ run₁
      rw [prepared.user, physicalToTable_pageAddress (by omega)] at off
      have held₁ := (held.withUser _).step step
      have undisturbed := clear.undisturbed run₁ held₁ hs₁ prepared.space prepared.user
      obtain ⟨k₂, run₂, finished⟩ := finishLoad_spec hs₁ prepared.space prepared.user inside valid
        prepared.bss undisturbed base
      have entry := finished.entry hs₁ prepared.space inside valid prepared.bss undisturbed <| by
        rintro (mem | mem)
        · exact off _ mem ⟨_, List.mem_cons_self, [], Nat.zero_le 3, rfl⟩
        · cases (held₁.unplaced _ mem).symm.trans hs₁.root
      have root : ∀ r ∈ k₁.kernelPml4 :: u :: others, place₁ r = some [] := by
        intro r mem
        rcases List.mem_cons.mp mem with rfl | mem
        · exact hs₁.root
        rcases List.mem_cons.mp mem with rfl | mem
        · exact prepared.space.root
        · exact step.keep (roots r mem)
      obtain ⟨place₂, hs₂, copy, restricted⟩ := hs₁.copied root finished off
      have kept : k₂.pmm = k₁.pmm := by rw [finished.statics]
      have user : k₂.riruUserCr3 = pageAddress u := by
        rw [finished.statics]
        exact prepared.user
      have taken : k.pmm.used u = false ∧ k₂.pmm.used u = true := by
        rw [kept]
        exact ⟨step.unused fresh prepared.space.root, (hs₁.sound.used prepared.space.root).1⟩
      refine ⟨place₂, _, k₂, run₂, hs₂.apart copy, copy.kernelPml4.trans step.kernelPml4, ?_, ?_, ?_, ?_,
        fun result _ => ?_, fun result _ => kept.trans (prepareSpace_pmm hs valid run₁)⟩
      · exact fun r mem h => restricted r (List.mem_cons_of_mem _ (List.mem_cons_of_mem _ mem))
          (h.prepared hs step)
      · intro p h
        rw [kept]
        exact step.used_keep h
      · exact fun pages before => (opens before).apart hs₂ copy
      · rw [entry, checkEntry]
        split_ifs
        all_goals
          intro halted
          cases halted
      · exact ⟨u, user, restricted u (List.mem_cons_of_mem _ List.mem_cons_self) prepared.space, fresh,
          taken⟩

/-- The kernel, the address spaces of the programs, for which of them `pmm_alloc_page` handed
out a page, the pages that loads have opened so far, and those that were in use once the kernel
had built its tables. -/
structure ProgramsState where
  kernel : Kernel
  spaces : List Word
  owner : ℕ → Option Word
  opened : Set ℕ
  reserved : Set ℕ

/-- Pages that a call has taken belong to `taker`; pages it has given back, to none. -/
def ownerAfter (taker : Option Word) (before after : Pmm) (owner : ℕ → Option Word) (p : ℕ) :
    Option Word :=
  if before.used p = after.used p then owner p else if after.used p then taker else none

/-- A call of `riru_load`, or what others do. -/
inductive ProgramCall where
  | load (file size : Word)
  | other (k : Kernel)

structure Outside (roots : List ℕ) (k k' : Kernel) : Prop where
  memory : ∀ {p}, IsTable roots k p → k'.memory p = k.memory p
  used : ∀ {p}, IsTable roots k p → k'.pmm.used p = true
  page0 : k'.pmm.used 0 = true
  kernelPml4 : k'.kernelPml4 = k.kernelPml4
  kernelCr3 : k'.kernelCr3 = k.kernelCr3

def ProgramsState.roots (s : ProgramsState) : List ℕ :=
  s.kernel.kernelPml4 :: s.spaces.map physicalToTable

def ProgramsState.otherRoots (s : ProgramsState) (cr3 : Word) : List ℕ :=
  s.kernel.kernelPml4 :: (s.spaces.filter (· ≠ cr3)).map physicalToTable

/-- The page was obtained for the space, and no other reaches it as a table. -/
def ProgramsState.Own (s : ProgramsState) (cr3 : Word) (p : ℕ) : Prop :=
  s.owner p = some cr3 ∧ ¬IsTable (s.otherRoots cr3) s.kernel p

def ProgramCall.Goes (b : Layout) : ProgramCall → ProgramsState → ProgramsState → Prop
  | .load file size, s, t => ∃ outcome k', (riruLoad b file size).run s.kernel = (outcome, k') ∧
      match outcome with
      | .halted => False
      | .failed _ => t = ⟨k', s.spaces, ownerAfter none s.kernel.pmm k'.pmm s.owner,
          s.opened ∪ touchedPages (s.kernel.fileAt file) size, s.reserved⟩
      | .loaded _ => t = ⟨k', k'.riruUserCr3 :: s.spaces,
          ownerAfter (some k'.riruUserCr3) s.kernel.pmm k'.pmm s.owner,
          s.opened ∪ touchedPages (s.kernel.fileAt file) size, s.reserved⟩
  | .other k, s, t => Outside s.roots s.kernel k ∧
      t = ⟨k, s.spaces, ownerAfter none s.kernel.pmm k.pmm s.owner, s.opened, s.reserved⟩

def ProgramCall.Careful (b : Layout) (s : ProgramsState) : ProgramCall → Prop
  | .load file size => ImageApart b file size (s.spaces.map physicalToTable) s.kernel
  | .other _ => True

/-- Others give back no page that was in use before any was handed out to them. -/
def ProgramCall.Honest (s : ProgramsState) : ProgramCall → Prop
  | .load _ _ => True
  | .other k => ∀ p ∈ s.reserved, k.pmm.used p = true

/-- The kernel after `vmm_prepare_kernel_space`, or after the whole boot. -/
def ProgramsStart (b : Layout) (s : ProgramsState) : Prop := ∃ k₁, TablesBuilt b k₁ s.kernel ∧
  s.spaces = [] ∧ s.owner = (fun _ => none) ∧ s.opened = ∅ ∧
  s.reserved = {p | k₁.pmm.used p = true}

abbrev ProgramsReach (b : Layout) : ProgramsState → Prop :=
  Reach (ProgramsStart b) (ProgramCall.Goes b) (ProgramCall.Careful b)

abbrev HonestReach (b : Layout) : ProgramsState → Prop :=
  Reach (ProgramsStart b) (ProgramCall.Goes b) fun s call => call.Careful b s ∧ call.Honest s

structure ProgramsState.Inv (place : Places) (s : ProgramsState) : Prop where
  spaces : Spaces place s.kernel
  user : ∀ cr3 ∈ s.spaces, ∃ u, cr3 = pageAddress u ∧ UserSpace place s.kernel u ∧
    u ≠ s.kernel.kernelPml4 ∧ s.owner u = some cr3
  only : UserOnly s.opened s.kernel

variable {s t : ProgramsState} {cr3 : Word}

theorem ownerAfter_kept {taker : Option Word} {before after : Pmm} {owner : ℕ → Option Word} {p : ℕ}
    (first : before.used p = true) (last : after.used p = true) :
    ownerAfter taker before after owner p = owner p := by
  rw [ownerAfter, first, last, if_pos rfl]

theorem ownerAfter_taken {taker : Option Word} {before after : Pmm} {owner : ℕ → Option Word} {p : ℕ}
    (first : before.used p = false) (last : after.used p = true) :
    ownerAfter taker before after owner p = taker := by
  rw [ownerAfter, first, last, if_neg (by decide), if_pos rfl]

theorem ProgramsState.Inv.root (h : s.Inv place) (spaces : List Word)
    (sub : ∀ c ∈ spaces, c ∈ s.spaces) :
    ∀ r ∈ s.kernel.kernelPml4 :: spaces.map physicalToTable, place r = some [] := by
  intro r mem
  rcases List.mem_cons.mp mem with rfl | mem
  · exact h.spaces.root
  · obtain ⟨cr3, given, rfl⟩ := List.mem_map.mp mem
    obtain ⟨u, rfl, space, -⟩ := h.user cr3 (sub cr3 given)
    have lt := space.lt
    rw [physicalToTable_pageAddress (by omega)]
    exact space.root

/-- The tables may be taken to be those that the walks pass. -/
theorem ProgramsState.Inv.restrict (h : s.Inv place) : ∃ place', s.Inv place' ∧
    ∀ {p l}, place' p = some l → IsTable s.roots s.kernel p := by
  obtain ⟨place', hs, root, tables⟩ := h.spaces.restrict (h.root s.spaces fun c mem => mem)
    List.mem_cons_self
  refine ⟨place', ⟨hs, fun cr3 mem => ?_, h.only⟩, tables⟩
  obtain ⟨u, rfl, space, ne, owner⟩ := h.user cr3 mem
  have lt := space.lt
  have given : physicalToTable (pageAddress u) ∈ s.spaces.map physicalToTable :=
    List.mem_map_of_mem mem
  rw [physicalToTable_pageAddress (by omega)] at given
  exact ⟨u, rfl, ⟨root u (List.mem_cons_of_mem _ given), space.pos, space.lt, space.shared⟩, ne,
    owner⟩

theorem ProgramsState.Inv.outside (h : s.Inv place) {spaces : List Word}
    (sub : ∀ c ∈ spaces, c ∈ s.spaces)
    (out : Outside (s.kernel.kernelPml4 :: spaces.map physicalToTable) s.kernel k') :
    ∃ place', ProgramsState.Inv place'
      ⟨k', spaces, ownerAfter none s.kernel.pmm k'.pmm s.owner, s.opened, s.reserved⟩ := by
  obtain ⟨place', hs, root, tables⟩ := h.spaces.restrict (h.root _ sub) List.mem_cons_self
  have apart : Apart place' s.kernel k' := ⟨fun p l hp => out.memory (tables hp),
    fun p l hp => out.used (tables hp), out.page0, out.kernelPml4, out.kernelCr3⟩
  refine ⟨place', hs.apart apart, fun cr3 mem => ?_, h.only.apart hs apart⟩
  obtain ⟨u, rfl, space, ne, owner⟩ := h.user cr3 (sub cr3 mem)
  have lt := space.lt
  have given : physicalToTable (pageAddress u) ∈ spaces.map physicalToTable := List.mem_map_of_mem mem
  rw [physicalToTable_pageAddress (by omega)] at given
  have root := root u (List.mem_cons_of_mem _ given)
  refine ⟨u, rfl, UserSpace.apart hs ⟨root, space.pos, space.lt, space.shared⟩ apart, ?_, ?_⟩
  · rw [apart.kernelPml4]
    exact ne
  · dsimp only
    rw [ownerAfter_kept (hs.sound.used root).1 (apart.used root)]
    exact owner

/-- No other space has the PML4 of a space among its tables. -/
theorem ProgramsState.Inv.root_alone (h : s.Inv place) (space : UserSpace place s.kernel u)
    (mem : pageAddress u ∈ s.spaces) : ¬IsTable (s.otherRoots (pageAddress u)) s.kernel u := by
  rintro ⟨r, given, l, le, walks⟩
  have root := h.root (s.spaces.filter (· ≠ pageAddress u))
    (fun c mem => (List.mem_filter.mp mem).1) r given
  have placed := h.spaces.sound.placed.place_walk root (by simpa using le) walks
  rw [space.root] at placed
  obtain rfl := Option.some.inj placed
  obtain rfl := Option.some.inj walks
  obtain ⟨v, eq, space', ne, -⟩ := h.user _ mem
  have ltu := space.lt
  have ltv := space'.lt
  obtain rfl : r = v := by
    rw [← pageOf_pageAddress (show r < 2^52 by omega), eq, pageOf_pageAddress (by omega)]
  rcases List.mem_cons.mp given with kernel | given
  · exact ne kernel
  · obtain ⟨c, other, eq'⟩ := List.mem_map.mp given
    obtain ⟨there, differ⟩ := List.mem_filter.mp other
    obtain ⟨w, rfl, space'', -⟩ := h.user c there
    have ltw := space''.lt
    rw [physicalToTable_pageAddress (by omega)] at eq'
    rw [eq'] at differ
    simp at differ

theorem ProgramsState.Inv.own (h : s.Inv place) (mem : cr3 ∈ s.spaces) :
    ∃ u, cr3 = pageAddress u ∧ UserSpace place s.kernel u ∧ s.Own cr3 u := by
  obtain ⟨u, rfl, space, -, owner⟩ := h.user cr3 mem
  exact ⟨u, rfl, space, owner, h.root_alone space mem⟩

theorem ProgramsState.Inv.next (h : s.Inv place) {call : ProgramCall}
    (careful : call.Careful b s) (go : call.Goes b s t) : ∃ place', t.Inv place' := by
  cases call with
  | load file size =>
    obtain ⟨outcome, k', run, go⟩ := go
    obtain ⟨place, h, tables⟩ := h.restrict
    have roots : ∀ r ∈ s.spaces.map physicalToTable, place r = some [] := fun r mem =>
      h.root s.spaces (fun c mem => mem) r (List.mem_cons_of_mem _ mem)
    obtain ⟨place', outcome', k₁, run', leaves⟩ := riruLoad_leaves h.spaces roots tables careful
    obtain ⟨rfl, rfl⟩ := Prod.mk.inj (run.symm.trans run')
    -- the spaces there were before
    have kept (taker : Option Word) : ∀ cr3 ∈ s.spaces, ∃ u, cr3 = pageAddress u ∧
        UserSpace place' k' u ∧ u ≠ k'.kernelPml4 ∧
        ownerAfter taker s.kernel.pmm k'.pmm s.owner u = some cr3 := by
      intro cr3 mem
      obtain ⟨u, rfl, space, ne, owner⟩ := h.user cr3 mem
      have lt := space.lt
      have given : physicalToTable (pageAddress u) ∈ s.spaces.map physicalToTable :=
        List.mem_map_of_mem mem
      rw [physicalToTable_pageAddress (by omega)] at given
      have used := (h.spaces.sound.used space.root).1
      refine ⟨u, rfl, leaves.other u given space, ?_, ?_⟩
      · rw [leaves.kernelPml4]
        exact ne
      · rw [ownerAfter_kept used (leaves.used u used)]
        exact owner
    cases outcome with
    | halted => exact absurd rfl leaves.returns
    | failed code =>
      rw [show t = _ from go]
      exact ⟨place', leaves.spaces, kept none, leaves.only _ h.only⟩
    | loaded result =>
      rw [show t = _ from go]
      obtain ⟨u, user, space, fresh, free, taken⟩ := leaves.loaded result rfl
      refine ⟨place', leaves.spaces, fun cr3 mem => ?_, leaves.only _ h.only⟩
      rcases List.mem_cons.mp mem with rfl | mem
      · refine ⟨u, user, space, ?_, ownerAfter_taken free taken⟩
        dsimp only
        rw [leaves.kernelPml4]
        rintro rfl
        rw [h.spaces.root] at fresh
        cases fresh
      · exact kept _ cr3 mem
  | other k =>
    obtain ⟨out, rfl⟩ := go
    exact h.outside (fun c mem => mem) out

theorem ProgramsReach.inv (h : ProgramsReach b s) : ∃ place, s.Inv place := by
  refine h.invariant (I := fun s => ∃ place, s.Inv place) ?_ ?_
  · rintro s ⟨k₁, built, none, -, opened, -⟩
    obtain ⟨place, spaces, plain⟩ := built.tables
    refine ⟨place, spaces, fun cr3 mem => ?_, ?_⟩
    · rw [none] at mem
      exact absurd mem List.not_mem_nil
    · rw [opened]
      exact plain.userOnly spaces
  · rintro s t call - ⟨place, inv⟩ careful go
    exact inv.next careful go

/-- In every state that careful calls reach, the pages that a load leaves open to the user of the
new space are those at the same addresses, which this load or one before it has asked for; none is
taken for them. -/
theorem load_opens_mapped_pages (h : ProgramsReach b s) {file size : Word}
    {result : RiruLoadResult}
    (apart : ImageApart b file size (s.spaces.map physicalToTable) s.kernel)
    (load : (riruLoad b file size).run s.kernel = (.loaded result, k')) :
    k'.pmm = ((vmmCreateUserSpace b).run s.kernel).2.pmm ∧
      ∀ va, userMin ≤ va → va < userMax →
        k'.allows pageUser (physicalToTable k'.riruUserCr3) va = true →
        getPhysicalFrom k'.memory (physicalToTable k'.riruUserCr3) va = va ∧
          pageOf va ∈ s.opened ∪ touchedPages (s.kernel.fileAt file) size := by
  obtain ⟨_, all⟩ := h.inv
  obtain ⟨place, inv, tables⟩ := all.restrict
  obtain ⟨place', outcome, k₁, run, leaves⟩ := riruLoad_leaves inv.spaces
    (fun r mem => inv.root s.spaces (fun c mem => mem) r (List.mem_cons_of_mem _ mem)) tables apart
  obtain ⟨rfl, rfl⟩ := Prod.mk.inj (load.symm.trans run)
  obtain ⟨u, user, space, -⟩ := leaves.loaded result rfl
  have lt := space.lt
  refine ⟨leaves.pmm result rfl, fun va low high allowed => ?_⟩
  rw [user, physicalToTable_pageAddress (by omega)] at allowed ⊢
  have below : va.toNat < 4294967296 := by
    have lt := BitVec.lt_def.mp high
    rw [show userMax.toNat = 0x40000000 by decide] at lt
    omega
  refine ⟨space.physical leaves.spaces below, ?_⟩
  by_contra off
  have shut := space.shut leaves.spaces (leaves.only _ inv.only) (p := pageOf va)
    (by rw [pageOf]; omega) off
  rw [Kernel.allows, path_eq, pageOf_pageAddress (by rw [pageOf]; omega), ← path_eq,
    ← Kernel.allows, allowed] at shut
  cases shut

/-- The reserved pages are in use and nobody's; some are in the user window. -/
structure ProgramsState.Reserves (s : ProgramsState) : Prop where
  used : ∀ p ∈ s.reserved, s.kernel.pmm.used p = true ∧ s.owner p = none
  window : ∃ p ∈ s.reserved, p ∈ windowPages

theorem ProgramsStart.reserves (h : ProgramsStart b s) : s.Reserves := by
  obtain ⟨k₁, built, -, none, -, reserved⟩ := h
  constructor
  · intro p mem
    rw [reserved] at mem
    exact ⟨built.used mem, congrFun none p⟩
  · obtain ⟨p, low, high, used⟩ := built.window
    exact ⟨p, by rw [reserved]; exact used, low, high⟩

theorem ProgramsState.Reserves.next (h : s.Reserves) (inv : s.Inv place) {call : ProgramCall}
    (careful : call.Careful b s) (honest : call.Honest s) (go : call.Goes b s t) : t.Reserves := by
  have kept {k' : Kernel} (taker : Option Word)
      (used : ∀ p ∈ s.reserved, k'.pmm.used p = true) : ∀ p ∈ s.reserved,
        k'.pmm.used p = true ∧ ownerAfter taker s.kernel.pmm k'.pmm s.owner p = none := by
    intro p mem
    obtain ⟨before, owner⟩ := h.used p mem
    rw [ownerAfter_kept before (used p mem)]
    exact ⟨used p mem, owner⟩
  cases call with
  | load file size =>
    obtain ⟨outcome, k', run, go⟩ := go
    obtain ⟨place, inv, tables⟩ := inv.restrict
    obtain ⟨place', outcome', k₁, run', leaves⟩ := riruLoad_leaves inv.spaces
      (fun r mem => inv.root s.spaces (fun c mem => mem) r (List.mem_cons_of_mem _ mem)) tables
      careful
    obtain ⟨rfl, rfl⟩ := Prod.mk.inj (run.symm.trans run')
    have used : ∀ p ∈ s.reserved, k'.pmm.used p = true :=
      fun p mem => leaves.used p (h.used p mem).1
    cases outcome with
    | halted => exact absurd rfl leaves.returns
    | failed code =>
      rw [show t = _ from go]
      exact ⟨kept none used, h.window⟩
    | loaded result =>
      rw [show t = _ from go]
      exact ⟨kept _ used, h.window⟩
  | other k =>
    obtain ⟨-, rfl⟩ := go
    exact ⟨kept none honest, h.window⟩

theorem HonestReach.programs (h : HonestReach b s) : ProgramsReach b s :=
  h.mono fun _ _ _ allowed => allowed.1

theorem HonestReach.reserves (h : HonestReach b s) : s.Reserves := by
  refine h.invariant (fun s start => start.reserves) ?_
  intro s t call reach reserves allowed go
  obtain ⟨place, inv⟩ := (HonestReach.programs reach).inv
  exact reserves.next inv allowed.1 allowed.2 go

/-- In every state reached, `vmm_destroy_user_space` of a program's space frees a page that was
not obtained for it. -/
theorem destroy_frees_reserved (h : HonestReach b s) (mem : cr3 ∈ s.spaces) :
    ∃ p, s.kernel.pmm.used p = true ∧
      ((vmmDestroyUserSpace cr3).run s.kernel).2.pmm.used p = false ∧ ¬s.Own cr3 p := by
  obtain ⟨place, inv⟩ := h.programs.inv
  obtain ⟨u, rfl, space, -⟩ := inv.own mem
  obtain ⟨k', run, destroyed⟩ := destroyUserSpace_spec inv.spaces space
  obtain ⟨used, p, reserved, window⟩ := h.reserves
  obtain ⟨before, none⟩ := used p reserved
  refine ⟨p, before, ?_, fun own => ?_⟩
  · rw [run, Bool.eq_false_iff]
    exact fun still => ((destroyed.used p).mp still).2.1 window
  · have owner := own.1
    rw [none] at owner
    cases owner

theorem Opened.apart (hs : Sound place k) (hr : place u = some []) {p : ℕ} (h : Opened u p k)
    (apart : Apart place k k') : Opened u p k' := by
  have kept {mask : Word} (granted : grants child (has mask) k.memory u (pagePath p) = true) :
      grants child (has mask) k'.memory u (pagePath p) = true := by
    refine hs.placed.grants_keep (fun hp hc => ?_) hr (by simp [pagePath]) granted
    rw [apart.memory hp]
    exact ⟨hc, id⟩
  exact ⟨kept h.user, kept h.writable⟩

theorem Pmm.Room.imageApart {first stop : ℕ} (low : b.Low) (hs : Spaces place k)
    (room : k.pmm.Room first stop) (lt : first < stop) {file size base end' : Word}
    (held : Held place k file size) {image : RiruImage}
    (parsed : riruParse (k.fileAt file) size = .ok image)
    (span : imageSpan image.header = .ok (base, end'))
    (bss : validRange (bssStart image.header end') image.header.bssSize = true)
    (free : ∀ p ∈ imagePages image.header end', first+1 ≤ p ∧ p < stop) (others : List ℕ)
    (roots : ∀ r ∈ others, place r = some []) : ImageApart b file size others k := by
  intro image' span' parsed' span_eq
  obtain rfl := Except.ok.inj (parsed.symm.trans parsed')
  obtain rfl := Except.ok.inj (span.symm.trans span_eq)
  have unplaced {place' : Places} {k' : Kernel} (hs' : Spaces place' k') {rs : List ℕ}
      (root : ∀ r ∈ rs, place' r = some []) {q : ℕ} (none : place' q = none) :
      ¬IsTable rs k' q := by
    rintro ⟨r, mem, l, short, walks⟩
    have placed := hs'.sound.placed.place_walk (root r mem) (by simpa using short) walks
    rw [none] at placed
    cases placed
  refine ⟨held.low, fun p mem => ⟨held.used p mem, unplaced hs ?_ (held.unplaced p mem)⟩,
    (room.copyClear hs lt held free).file, fun k₂ run₂ q mem => ?_⟩
  · exact fun r mem => (List.mem_cons.mp mem).elim (fun eq => eq ▸ hs.root) (roots r)
  obtain ⟨u, place₁, k₁, run₁, prepared, room₁⟩ :=
    prepareSpace_room low hs (imageSpan_valid span) bss room lt
  obtain ⟨-, rfl⟩ := Prod.mk.inj (run₁.symm.trans run₂)
  have hs₁ : Spaces place₁ k₁ := hs.prepared prepared.step
  have ult := prepared.space.lt
  obtain ⟨hl, hr⟩ := free q mem
  refine unplaced hs₁ (fun r root => ?_) (hs₁.sound.page_unplaced (room₁.free hl hr))
  rw [prepared.user, physicalToTable_pageAddress (by omega)] at root
  rcases List.mem_cons.mp root with rfl | root
  · exact hs₁.root
  rcases List.mem_cons.mp root with rfl | root
  · exact prepared.space.root
  · exact prepared.step.keep (roots r root)

/-- A load in free pages leaves its sections open to the user. -/
theorem RoomyLoad.opened {file end' : Word} {image : RiruImage} {place₁ : Places} {k₁ : Kernel}
    (h : RoomyLoad file image end' place k u place₁ k₁ k') {p : ℕ}
    (mem : p ∈ imagePages image.header end') : Opened u p k' :=
  (h.prepared.opened p (.inl mem)).apart h.spaces.sound h.prepared.space.root h.apart

theorem Apart.outside (h : Apart place k k') (hs : Sound place k) {roots : List ℕ}
    (root : ∀ r ∈ roots, place r = some []) : Outside roots k k' := by
  have placed {p : ℕ} (table : IsTable roots k p) : ∃ l, place p = some l := by
    obtain ⟨r, mem, l, short, walks⟩ := table
    exact ⟨_, hs.placed.place_walk (root r mem) (by simpa using short) walks⟩
  refine ⟨fun table => ?_, fun table => ?_, h.page0, h.kernelPml4, h.kernelCr3⟩
  all_goals obtain ⟨l, hp⟩ := placed table
  · exact h.memory hp
  · exact h.used hp

structure DesktopProgram (s : ProgramsState) (file : Word) (result : RiruLoadResult) (k' : Kernel)
    (u : ℕ) : Prop where
  reach : HonestReach desktopLayout s
  first : s.spaces = []
  apart : ImageApart desktopLayout file 122 (s.spaces.map physicalToTable) s.kernel
  load : (riruLoad desktopLayout file 122).run s.kernel = (.loaded result, k')
  user : k'.riruUserCr3 = pageAddress u
  lt : u < 1048576
  opened : Opened u 0x3300 k'
  unused : k'.pmm.used 0x3300 = false

theorem desktop_program : ∃ s file result k' u, DesktopProgram s file result k' u := by
  obtain ⟨vaddr, code, -, -, -, entry⟩ := spin_header
  obtain ⟨k₀, start, k₁, k, place, read⟩ := desktop_reads (f := spinRead) rfl (by decide) (by decide)
  obtain ⟨kt, built⟩ := read.booted.from
  obtain ⟨place₀, spaces₀, -⟩ := read.booted.spaces
  obtain ⟨fill, -⟩ := read.filled.apart spaces₀.sound
  have low : desktopLayout.Low := ⟨by decide, by decide⟩
  have begun : HonestReach desktopLayout ⟨k₀, [], fun _ => none, ∅, {p | kt.pmm.used p = true}⟩ :=
    .start ⟨kt, built, rfl, rfl, rfl, rfl⟩
  have outside : Outside [k₀.kernelPml4] k₀ k := fill.outside spaces₀.sound fun r mem => List.mem_singleton.mp mem ▸ spaces₀.root
  have honest : ∀ p, kt.pmm.used p = true → k.pmm.used p = true :=
    fun p used => read.filled.takes (built.used used)
  have parsed := read.filled.parse
  rw [riruParse_ok spin_valid] at parsed
  have free : ∀ p ∈ imagePages (readHeader spinFile) 0x3301000, 0x32F0+1 ≤ p ∧ p < 0x4000 := by
    intro p mem
    rw [spin_page.pages p mem]
    decide
  have apart := read.room.imageApart low read.spaces (by decide) read.held parsed spin_page.span
    spin_page.bss.valid free [] (fun r mem => absurd mem List.not_mem_nil)
  obtain ⟨u, place₁, k₂, k', run, loaded, room₁⟩ := riruLoad_room low read.spaces read.room
    (by decide) read.held parsed spin_page.span spin_page.bss.valid free
  rw [checkEntry_inside (by rw [entry]; decide)] at run
  have here : 0x3300 ∈ imagePages (readHeader spinFile) 0x3301000 := by
    refine .inl (.inl (.inl ?_))
    rw [vaddr, code]
    exact ⟨by decide, by decide, by decide⟩
  refine ⟨_, _, _, k', u, begun.step (i := .other k) ⟨trivial, honest⟩ ⟨outside, rfl⟩, rfl, apart, run,
    ?_, loaded.prepared.space.lt, loaded.opened here, ?_⟩
  · rw [loaded.finished.statics]
    exact loaded.prepared.user
  · rw [loaded.finished.statics]
    exact room₁.free (by decide) (by decide)

theorem load_opens_mapped_pages_desktop : ∃ (s : ProgramsState) (file : Word) (k' : Kernel),
    ProgramsReach desktopLayout s ∧ k'.pmm = ((vmmCreateUserSpace desktopLayout).run s.kernel).2.pmm ∧
      ∀ va, userMin ≤ va → va < userMax →
        k'.allows pageUser (physicalToTable k'.riruUserCr3) va = true →
        getPhysicalFrom k'.memory (physicalToTable k'.riruUserCr3) va = va ∧
          pageOf va ∈ s.opened ∪ touchedPages (s.kernel.fileAt file) 122 := by
  obtain ⟨s, file, result, k', u, program⟩ := desktop_program
  exact ⟨s, file, k', program.reach.programs,
    load_opens_mapped_pages program.reach.programs program.apart program.load⟩

/-- The page of the first program is not in use for the allocator. -/
theorem program_page_unused : ¬∀ (b : Layout) (s : ProgramsState), ProgramsReach b s →
    ∀ file size result k', (riruLoad b file size).run s.kernel = (.loaded result, k') →
    ∀ va, userMin ≤ va → va < userMax →
      k'.allows pageUser (physicalToTable k'.riruUserCr3) va = true →
      s.kernel.pmm.used (pageOf (getPhysicalFrom k'.memory (physicalToTable k'.riruUserCr3) va)) =
        false ∧
      k'.pmm.used (pageOf (getPhysicalFrom k'.memory (physicalToTable k'.riruUserCr3) va)) = true := by
  intro claim
  obtain ⟨s, file, result, k', u, program⟩ := desktop_program
  obtain ⟨_, all⟩ := program.reach.programs.inv
  obtain ⟨place, inv, tables⟩ := all.restrict
  obtain ⟨place', outcome, k₁, run, leaves⟩ := riruLoad_leaves inv.spaces
    (fun r mem => inv.root s.spaces (fun c mem => mem) r (List.mem_cons_of_mem _ mem)) tables
    program.apart
  obtain ⟨rfl, rfl⟩ := Prod.mk.inj (program.load.symm.trans run)
  obtain ⟨v, user', space, -⟩ := leaves.loaded result rfl
  have ltu := program.lt
  have ltv := space.lt
  have root : physicalToTable k'.riruUserCr3 = u := by
    rw [program.user, physicalToTable_pageAddress (by omega)]
  obtain rfl : v = u := by
    rw [← root, user', physicalToTable_pageAddress (by omega)]
  have allowed : k'.allows pageUser (physicalToTable k'.riruUserCr3) (pageAddress 0x3300) = true := by
    rw [root, Kernel.allows, path_eq, pageOf_pageAddress (by decide)]
    exact program.opened.user
  have taken := (claim _ s program.reach.programs _ _ result k' program.load (pageAddress 0x3300)
    (by decide) (by decide) allowed).2
  rw [root, space.physical leaves.spaces (by decide), pageOf_pageAddress (by decide),
    program.unused] at taken
  cases taken

theorem desktop_space : ∃ (s : ProgramsState) (cr3 : Word), HonestReach desktopLayout s ∧
    cr3 ∈ s.spaces := by
  obtain ⟨s, file, result, k', u, program⟩ := desktop_program
  exact ⟨_, k'.riruUserCr3, program.reach.step (i := .load file 122) ⟨program.apart, trivial⟩
    ⟨_, k', program.load, rfl⟩, List.mem_cons_self⟩

theorem destroy_frees_reserved_desktop : ∃ (s : ProgramsState) (cr3 : Word),
    HonestReach desktopLayout s ∧ cr3 ∈ s.spaces ∧ ∃ p, s.kernel.pmm.used p = true ∧
      ((vmmDestroyUserSpace cr3).run s.kernel).2.pmm.used p = false ∧ ¬s.Own cr3 p := by
  obtain ⟨s, cr3, reach, mem⟩ := desktop_space
  exact ⟨s, cr3, reach, mem, destroy_frees_reserved reach mem⟩

/-- A page in use before the first program is freed with it. -/
theorem destroy_frees_others : ¬∀ (b : Layout) (s : ProgramsState), ProgramsReach b s →
    ∀ cr3 ∈ s.spaces, ∀ p, s.kernel.pmm.used p = true →
      ((vmmDestroyUserSpace cr3).run s.kernel).2.pmm.used p = false → s.Own cr3 p := by
  intro claim
  obtain ⟨s, cr3, reach, mem⟩ := desktop_space
  obtain ⟨place, inv⟩ := reach.programs.inv
  obtain ⟨u, rfl, space, -⟩ := inv.own mem
  obtain ⟨k', run, destroyed⟩ := destroyUserSpace_spec inv.spaces space
  obtain ⟨used, p, reserved, window⟩ := reach.reserves
  obtain ⟨before, owner⟩ := used p reserved
  have freed : ((vmmDestroyUserSpace (pageAddress u)).run s.kernel).2.pmm.used p = false := by
    rw [run, Bool.eq_false_iff]
    intro still
    exact ((destroyed.used p).mp still).2.1 window
  have own := (claim _ s reach.programs _ mem p before freed).1
  rw [owner] at own
  cases own

end TinyOS.Memory
