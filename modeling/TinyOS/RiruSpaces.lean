import TinyOS.KernelBoot
import TinyOS.RiruLoader

set_option autoImplicit false

/-! What a load does to the address spaces (riru/loader.c): the pages of a program are the
pages of physical memory at the same addresses, opened to the user. -/
namespace TinyOS.Memory
open RadixTables Riru

variable {α β : Type} {r u : ℕ} {place place' : Places} {k k' : Kernel} {cr3 va pa flags : Word}

/-- A PML4 that shares the kernel's tables for the first 512 GB. -/
structure UserSpace (place : Places) (k : Kernel) (u : ℕ) : Prop where
  root : place u = some []
  pos : 0 < u
  lt : u < 1048576
  shared : child (k.memory u 0) = child (k.memory k.kernelPml4 0)

theorem pagePath_low {p : ℕ} (lt : p < 1048576) : ∃ q : List (Fin 512), pagePath p = 0 :: q := by
  refine ⟨_, congrArg₂ List.cons (Fin.ext ?_) rfl⟩
  simp only [Fin.val_zero]
  omega

theorem UserSpace.identity (hs : Spaces place k) (h : UserSpace place k u) {p : ℕ}
    (lt : p < 1048576) : walk child k.memory u (pagePath p) = some p := by
  have kernel := (hs.identity lt).1
  obtain ⟨q, split⟩ := pagePath_low lt
  rw [split, walk] at kernel ⊢
  rw [h.shared, kernel]

theorem Spaces.entry (hs : Spaces place k) : ∃ c, child (k.memory k.kernelPml4 0) = some c := by
  have kernel := (hs.identity (show 0 < 1048576 by decide)).1
  obtain ⟨q, split⟩ := pagePath_low (show 0 < 1048576 by decide)
  rw [split] at kernel
  obtain ⟨c, hc, -⟩ := Option.bind_eq_some_iff.mp kernel
  exact ⟨c, hc⟩

theorem UserSpace.step (hs : Spaces place k) (h : UserSpace place k u)
    (step : Step r place k place' k') : UserSpace place' k' u where
  root := step.keep h.root
  pos := h.pos
  lt := h.lt
  shared := by
    obtain ⟨c, hc⟩ := hs.entry
    rw [step.kernelPml4, step.child_keep h.root (h.shared.trans hc), step.child_keep hs.root hc]

theorem UserSpace.apart (hs : Spaces place k) (h : UserSpace place k u)
    (apart : Apart place k k') : UserSpace place k' u where
  root := h.root
  pos := h.pos
  lt := h.lt
  shared := by rw [apart.memory h.root, apart.kernelPml4, apart.memory hs.root, h.shared]

theorem UserSpace.physical (hs : Spaces place k) (h : UserSpace place k u)
    (lt : va.toNat < 4294967296) : getPhysicalFrom k.memory u va = va := by
  have page : pageOf va < 1048576 := by
    rw [pageOf]
    omega
  rw [getPhysicalFrom_eq hs.sound h.root, path_eq, h.identity hs page]
  apply BitVec.eq_of_toNat_eq
  have low : (va &&& 0xFFF).toNat = va.toNat%4096 := low_bits va
  rw [BitVec.toNat_add, pageAddress_toNat (by omega), low, pageOf]
  omega

/-- The address space of the kernel, as one of the spaces over its tables. -/
theorem kernelSpace (hs : Spaces place k) : UserSpace place k k.kernelPml4 := by
  obtain ⟨-, pos, lt⟩ := hs.sound.used hs.root
  exact ⟨hs.root, pos, lt, rfl⟩

/-- A page that the walk reaches is there for the processor. -/
theorem present_of_walk {c : ℕ} (root : physicalToTable cr3 = u)
    (mapped : walk child k.memory u (path va) = some c) : k.present cr3 va = true := by
  have there {p c : ℕ} {i : Fin 512} {q : List (Fin 512)}
      (go : walk child k.memory p (i :: q) = some c) :
      has pagePresent (k.memory p i) = true ∧
        walk child k.memory (physicalToTable (k.memory p i)) q = some c := by
    obtain ⟨d, hd, go⟩ := Option.bind_eq_some_iff.mp go
    rw [child] at hd
    split_ifs at hd with present
    · exact ⟨present, by rw [Option.some.inj hd]; exact go⟩
  rw [path] at mapped
  obtain ⟨first, mapped⟩ := there mapped
  obtain ⟨second, mapped⟩ := there mapped
  obtain ⟨third, mapped⟩ := there mapped
  obtain ⟨fourth, -⟩ := there mapped
  simp only [Kernel.present, Kernel.pte, Kernel.pde, Kernel.pdpte, Kernel.pml4e, root, first,
    second, third, fourth, Bool.or_true, Bool.and_true]

theorem UserSpace.present (hs : Spaces place k) (h : UserSpace place k u)
    (lt : va.toNat < 4294967296) : k.present (pageAddress u) va = true := by
  have ult := h.lt
  have page : pageOf va < 1048576 := by
    rw [pageOf]
    omega
  refine present_of_walk (physicalToTable_pageAddress (by omega)) (c := pageOf va) ?_
  rw [path_eq]
  exact h.identity hs page

def Closer (place : Places) (k k' : Kernel) : Prop :=
  ∀ ⦃p l⦄ i, place p = some l → has pageUser (k'.memory p i) = true →
    has pageUser (k.memory p i) = true

theorem Sound.page_zero (hs : Sound place k) : place 0 = none := by
  cases hp : place 0 with
  | none => rfl
  | some l => exact absurd (hs.used hp).2.1 (lt_irrefl 0)

/-- `vmm_create_user_space` fails, with nothing changed or a page lost, or makes a space. -/
theorem createUserSpace_spaces (b : Layout) (hs : Spaces place k) :
    (∃ r place' k', (vmmCreateUserSpace b).run k = (0, k') ∧ place r = none ∧
      Step r place k place' k' ∧ Closer place k k') ∨
    ∃ u place' k', (vmmCreateUserSpace b).run k = (pageAddress u, k') ∧ place u = none ∧
      Step u place k place' k' ∧ Closer place k k' ∧ UserSpace place' k' u := by
  rcases createUserSpace_spec b hs.sound hs.root with
    ⟨-, run⟩ | ⟨u, place', result, k', run, step, pos, lt, fresh, root, copied, plain, outcome⟩
  · exact .inl ⟨0, place, k, run, hs.sound.page_zero, Step.refl hs.sound, fun _ _ _ _ hu => hu⟩
  have closer : Closer place k k' := by
    intro p l i hp hu
    refine plain ?_ ?_ hu
    · rintro rfl
      rw [hs.sound.page_zero] at hp
      cases hp
    · rintro rfl
      rw [fresh] at hp
      cases hp
  rcases outcome with rfl | rfl
  · exact .inl ⟨u, place', k', run, fresh, step, closer⟩
  · refine .inr ⟨u, place', k', run, fresh, step, closer, root, pos, lt, ?_⟩
    obtain ⟨c, hc⟩ := hs.entry
    rw [step.kernelPml4, copied (.inl rfl) hc, step.child_keep hs.root hc]

/-- The only pages below 4 GB whose last entry is open to the user. -/
def UserOnly (pages : Set ℕ) (k : Kernel) : Prop := ∀ ⦃p t⦄, p < 1048576 →
  walk child k.memory k.kernelPml4 (upperPath (pageAddress p)) = some t →
  has pageUser (k.memory t (ptIndex (pageAddress p))) = true → p ∈ pages

theorem path_pageAddress {p : ℕ} (lt : p < 1048576) :
    pagePath p = upperPath (pageAddress p) ++ [ptIndex (pageAddress p)] := by
  rw [← show path (pageAddress p) = pagePath p by rw [path_eq, pageOf_pageAddress (by omega)]]
  rfl

theorem Spaces.table (hs : Spaces place k) (step : Step r place k place' k') {p t : ℕ}
    (lt : p < 1048576)
    (hw : walk child k'.memory k'.kernelPml4 (upperPath (pageAddress p)) = some t) :
    walk child k.memory k.kernelPml4 (upperPath (pageAddress p)) = some t ∧
      place t = some (upperPath (pageAddress p)) := by
  have mapped := (hs.identity lt).1
  rw [path_pageAddress lt, walk_append] at mapped
  obtain ⟨t', ht, -⟩ := Option.bind_eq_some_iff.mp mapped
  have kept := step.walk_keep hs.sound hs.root (by simp [upperPath]) ht
  rw [step.kernelPml4] at hw
  obtain rfl : t' = t := Option.some.inj (kept.symm.trans hw)
  exact ⟨ht, hs.sound.placed.place_walk hs.root (by simp) ht⟩

theorem UserOnly.closer {pages : Set ℕ} (h : UserOnly pages k) (hs : Spaces place k)
    (step : Step r place k place' k') (closer : Closer place k k') : UserOnly pages k' := by
  intro p t lt hw hu
  obtain ⟨before, placed⟩ := hs.table step lt hw
  exact h lt before (closer _ placed hu)

theorem UserOnly.created {pages : Set ℕ} (h : UserOnly pages k) (hs : Spaces place k)
    {b : Layout} (step : Step r place k place' k') (pos : 0 < u) (lt : u < 1048576)
    (run : (vmmCreateUserSpace b).run k = (pageAddress u, k')) : UserOnly pages k' := by
  rcases createUserSpace_spaces b hs with
    ⟨r, place', k₁, run₁, -⟩ | ⟨v, place', k₁, run₁, -, -, closer, -⟩
  · rw [run] at run₁
    exact absurd (Prod.mk.inj run₁).1 (pageAddress_ne_zero pos (by omega))
  · rw [run] at run₁
    refine h.closer hs step ?_
    rw [(Prod.mk.inj run₁).2]
    exact closer

theorem UserOnly.grows {pages : Set ℕ} (h : UserOnly pages k) (hs : Spaces place k)
    (step : Step r place k place' k') {q : ℕ} (lt : q < 1048576) (mem : q ∈ pages)
    (grows : Grows child 3 r (pagePath q) place k.memory place' k'.memory) : UserOnly pages k' := by
  intro p t ltp hw hu
  obtain ⟨before, placed⟩ := hs.table step ltp hw
  by_cases eq : p = q
  · rw [eq]
    exact mem
  · have off : ¬(upperPath (pageAddress p) ++ [ptIndex (pageAddress p)]) <+: pagePath q := by
      rw [← path_pageAddress ltp]
      exact pagePath_off (by omega) (by omega) eq
    rw [grows.off placed off] at hu
    exact h ltp before hu

theorem UserOnly.apart {pages : Set ℕ} (h : UserOnly pages k) (hs : Spaces place k)
    (apart : Apart place k k') : UserOnly pages k' := by
  intro p t lt hw hu
  have same : walk child k'.memory k.kernelPml4 (upperPath (pageAddress p)) =
      walk child k.memory k.kernelPml4 (upperPath (pageAddress p)) :=
    hs.sound.placed.walk_congr (fun hp => apart.memory hp) hs.root (by simp [upperPath])
  rw [apart.kernelPml4, same] at hw
  have placed := hs.sound.placed.place_walk hs.root (by simp [upperPath]) hw
  rw [apart.memory placed] at hu
  exact h lt hw hu

theorem NoUser.userOnly (h : NoUser place k) (hs : Spaces place k) : UserOnly ∅ k := by
  intro p t _ hw hu
  have placed := hs.sound.placed.place_walk hs.root (by simp [upperPath]) hw
  rw [h _ placed] at hu
  cases hu

/-- What mapping a page for the user gives: the page at the same address, open to the user. -/
structure Opened (u p : ℕ) (k : Kernel) : Prop where
  user : grants child (has pageUser) k.memory u (pagePath p) = true
  writable : grants child (has pageWritable) k.memory u (pagePath p) = true

theorem Opened.step (hs : Sound place k) (hr : place u = some []) {p : ℕ} (h : Opened u p k)
    (step : Step r place k place' k') : Opened u p k' :=
  ⟨step.grants_keep hs hr (by simp [pagePath]) h.user,
    step.grants_keep hs hr (by simp [pagePath]) h.writable⟩

theorem low_flags (h : flags &&& pageMask = 0) : (flags ||| pageUser) &&& pageMask = 0 := by
  rw [BitVec.and_or_distrib_right, h]
  decide

theorem mapUserPage_opens (hs : Spaces place k) (h : UserSpace place k u) {p : ℕ}
    (lt : p < 1048576) (low : flags &&& pageMask = 0) (writable : has pageWritable flags = true) :
    ∃ place' k',
      (vmmMapUserPage (pageAddress u) (pageAddress p) (pageAddress p) flags).run k = (0, k') ∧
      Step u place k place' k' ∧
      Grows child 3 u (pagePath p) place k.memory place' k'.memory ∧ k'.pmm = k.pmm ∧
      Opened u p k' := by
  have ult := h.lt
  have page : physicalToTable (pageAddress u) = u := physicalToTable_pageAddress (by omega)
  have here : path (pageAddress p) = pagePath p := by rw [path_eq, pageOf_pageAddress (by omega)]
  have ne : pageAddress u ≠ 0 := pageAddress_ne_zero h.pos (by omega)
  have address := pageAddress_toNat (show p < 2^52 by omega)
  have below : ¬(0x0000800000000000 : Word) ≤ pageAddress p := by
    rw [BitVec.le_def, address]
    simp only [BitVec.ofNat_eq_ofNat, BitVec.toNat_ofNat]
    omega
  obtain ⟨place', k', run, step, grows, pmm⟩ := mapAgain hs.sound h.root (p := p) (q := p)
    (by omega) (by omega) (h.identity hs lt) (flags ||| pageUser)
  have done : ((mapPageIn u (pageAddress p) (pageAddress p) (flags ||| pageUser)).run k).1 = 0 := by
    rw [run]
  have user := mapPageIn_user hs.sound h.root
    (low_flags low) (by rw [has_or, show has pageUser pageUser = true by decide, Bool.or_true])
    done
  have write := mapPageIn_writable hs.sound h.root
    hs.writable (low_flags low) (by rw [has_or, writable, Bool.true_or]) done
  rw [run, here] at user write
  refine ⟨place', k', ?_, step, grows, pmm, user, write⟩
  rw [vmmMapUserPage, if_neg ne, if_neg below, page]
  exact run

/-- One round of `map_range` or `map_user_stack` below 4 GB: no page is allocated, the page at
the same address is opened. -/
theorem mapUser_page (hs : Spaces place k) (h : UserSpace place k u) {p : ℕ} (pos : 0 < p)
    (lt : p < 1048576) (low : flags &&& pageMask = 0) (writable : has pageWritable flags = true) :
    ∃ place' k', (mapUser (pageAddress u) flags (pageAddress p)).run k = (0, k') ∧
      Step u place k place' k' ∧
      Grows child 3 u (pagePath p) place k.memory place' k'.memory ∧ k'.pmm = k.pmm ∧
      Opened u p k' := by
  have ult := h.lt
  have page : physicalToTable (pageAddress u) = u := physicalToTable_pageAddress (by omega)
  have ne : pageAddress u ≠ 0 := pageAddress_ne_zero h.pos (by omega)
  have address := pageAddress_toNat (show p < 2^52 by omega)
  have existing : (vmmGetPhysicalIn (pageAddress u) (pageAddress p)).run k = (pageAddress p, k) := by
    change (if pageAddress u = 0 then 0
      else getPhysicalFrom k.memory (physicalToTable (pageAddress u)) (pageAddress p), k) = _
    rw [if_neg ne, page, h.physical hs (by omega)]
  obtain ⟨place', k', run, step, grows, pmm, opened⟩ := mapUserPage_opens hs h lt low writable
  refine ⟨place', k', ?_, step, grows, pmm, opened⟩
  rw [mapUser, run_bind, existing]
  dsimp only
  rw [if_pos (pageAddress_ne_zero pos (by omega)), run_bind, run]
  rfl

structure Opens (u : ℕ) (pages : Set ℕ) (place : Places) (k : Kernel) (place' : Places)
    (k' : Kernel) : Prop where
  step : Step u place k place' k'
  pmm : k'.pmm = k.pmm
  opened : ∀ p ∈ pages, Opened u p k'
  only : ∀ s, UserOnly s k → pages ⊆ s → UserOnly s k'

theorem Opens.refl (hs : Sound place k) : Opens u ∅ place k place k :=
  ⟨Step.refl hs, rfl, fun _ h => h.elim, fun _ h _ => h⟩

theorem Opens.trans {pages pages' : Set ℕ} {place'' : Places} {k'' : Kernel}
    (h : Opens u pages place k place' k') (hr : place u = some [])
    (h' : Opens u pages' place' k' place'' k'') :
    Opens u (pages ∪ pages') place k place'' k'' where
  step := h.step.trans h'.step
  pmm := h'.pmm.trans h.pmm
  opened := by
    intro p mem
    rcases mem with mem | mem
    · exact (h.opened p mem).step h.step.sound (h.step.keep hr) h'.step
    · exact h'.opened p mem
  only s hs sub := h'.only s (h.only s hs (Set.subset_union_left.trans sub))
    (Set.subset_union_right.trans sub)

/-- The loops of `map_range` and `map_user_stack` open their pages and take none. -/
theorem mapUser_pages (hs : Spaces place k) (h : UserSpace place k u)
    (low : flags &&& pageMask = 0) (writable : has pageWritable flags = true) {l : List ℕ}
    (range : ∀ p ∈ l, 0 < p ∧ p < 1048576) :
    ∃ place' k', (firstError (mapUser (pageAddress u) flags) (l.map pageAddress)).run k = (0, k') ∧
      Opens u {p | p ∈ l} place k place' k' := by
  induction l generalizing place k with
  | nil => exact ⟨place, k, rfl, by simpa using Opens.refl hs.sound⟩
  | cons p rest ih =>
    obtain ⟨pos, lt⟩ := range p List.mem_cons_self
    obtain ⟨place₁, k₁, run₁, step₁, grows, pmm₁, opened⟩ := mapUser_page hs h pos lt low writable
    have first : Opens u {p} place k place₁ k₁ := by
      refine ⟨step₁, pmm₁, fun q mem => ?_, fun s only sub => ?_⟩
      · rw [Set.mem_singleton_iff.mp mem]
        exact opened
      · exact only.grows hs step₁ lt (sub rfl) grows
    obtain ⟨place₂, k₂, run₂, second⟩ := ih (hs.step step₁) (h.step hs step₁)
      fun q mem => range q (List.mem_cons_of_mem p mem)
    refine ⟨place₂, k₂, ?_, ?_⟩
    · rw [List.map_cons, firstError, run_bind, run₁]
      exact run₂
    · have all := first.trans h.root second
      rwa [show ({p} ∪ {q | q ∈ rest} : Set ℕ) = {q | q ∈ p :: rest} by
        ext q
        simp [List.mem_cons]] at all

def rangeOf (address size : Word) : Set ℕ :=
  {p | size ≠ 0 ∧ address.toNat/4096 ≤ p ∧ p*4096 < address.toNat+size.toNat}

theorem validRange_iff {address size : Word} : validRange address size = true ↔ size = 0 ∨
    0x400000 ≤ address.toNat ∧ address.toNat+size.toNat ≤ 0x40000000 := by
  have lt := address.isLt
  have window : userMin.toNat = 0x400000 ∧ userMax.toNat = 0x40000000 := by decide
  rw [validRange]
  by_cases zero : size = 0
  · simp [zero]
  have pos : 0 < size.toNat := by
    rcases Nat.eq_zero_or_pos size.toNat with h | h
    · exact absurd (BitVec.eq_of_toNat_eq h) zero
    · exact h
  rw [if_neg zero, or_iff_right zero]
  by_cases below : address < userMin
  · rw [if_pos below]
    rw [BitVec.lt_def, window.1] at below
    simp only [Bool.false_eq_true, false_iff]
    omega
  rw [if_neg below]
  rw [BitVec.lt_def, window.1] at below
  by_cases above : userMax ≤ address
  · rw [if_pos above]
    rw [BitVec.le_def, window.2] at above
    simp only [Bool.false_eq_true, false_iff]
    omega
  rw [if_neg above]
  rw [BitVec.le_def, window.2] at above
  have left : (userMax - address).toNat = 0x40000000-address.toNat := by
    rw [BitVec.toNat_sub, window.2]
    omega
  by_cases short : userMax - address < size
  · rw [if_pos short]
    rw [BitVec.lt_def, left] at short
    simp only [Bool.false_eq_true, false_iff]
    omega
  · rw [if_neg short]
    rw [BitVec.lt_def, left] at short
    simp only [true_iff]
    omega

theorem mapRange_valid (hs : Spaces place k) (h : UserSpace place k u) {address size : Word}
    (valid : validRange address size = true) :
    ∃ place' k', (mapRange (pageAddress u) address size pageWritable).run k = (0, k') ∧
      Opens u (rangeOf address size) place k place' k' := by
  rw [mapRange]
  by_cases zero : size = 0
  · rw [if_pos zero]
    refine ⟨place, k, rfl, ?_⟩
    rw [show rangeOf address size = ∅ by
      ext p
      simp [rangeOf, zero]]
    exact Opens.refl hs.sound
  obtain ⟨low, high⟩ := (validRange_iff.mp valid).resolve_left zero
  have sum : (address + size).toNat = address.toNat+size.toNat := by
    rw [BitVec.toNat_add]
    omega
  rw [if_neg zero, alignDown_eq, alignUp_eq (by rw [sum]; omega), sum,
    pageRange_eq (by omega) (by omega)]
  obtain ⟨place', k', run, opens⟩ := mapUser_pages hs h
    (show (pageWritable ||| pageUser) &&& pageMask = 0 by decide) (by decide) (l := List.range' (address.toNat/4096)
      ((address.toNat+size.toNat+4095)/4096-address.toNat/4096)) fun p mem => by
        rw [List.mem_range'_1] at mem
        omega
  refine ⟨place', k', run, ?_⟩
  have same : {p | p ∈ List.range' (address.toNat/4096)
      ((address.toNat+size.toNat+4095)/4096-address.toNat/4096)} = rangeOf address size := by
    ext p
    simp only [rangeOf, Set.mem_ofPred_eq, List.mem_range'_1]
    constructor
    · rintro ⟨le, lt⟩
      exact ⟨zero, le, by omega⟩
    · rintro ⟨-, le, lt⟩
      omega
  rwa [same] at opens

def stackPages : Set ℕ := {p | 0x3FFFB ≤ p ∧ p < 0x3FFFF}

theorem mapUserStack_run (hs : Spaces place k) (h : UserSpace place k u) :
    ∃ place' k', (mapUserStack (pageAddress u)).run k = (0, k') ∧
      Opens u stackPages place k place' k' := by
  have bottom : riruUserStackTop - riruUserStackSize = pageAddress 0x3FFFB := by decide
  have top : riruUserStackTop = pageAddress 0x3FFFF := by decide
  rw [mapUserStack, bottom, top, pageRange_eq (by decide) (by decide)]
  obtain ⟨place', k', run, opens⟩ := mapUser_pages hs h
    (show (pageUser ||| pageWritable) &&& pageMask = 0 by decide) (by decide) (l := List.range' 0x3FFFB (0x3FFFF-0x3FFFB)) fun p mem => by
      rw [List.mem_range'_1] at mem
      omega
  refine ⟨place', k', run, ?_⟩
  have same : {p | p ∈ List.range' 0x3FFFB (0x3FFFF-0x3FFFB)} = stackPages := by
    ext p
    simp only [stackPages, Set.mem_ofPred_eq, List.mem_range'_1, Nat.reduceSub, Nat.reduceAdd]
  rwa [same] at opens

structure SectionsValid (h : RiruHeader) : Prop where
  code : validRange h.codeVaddr h.codeSize = true
  rodata : validRange h.rodataVaddr h.rodataSize = true
  data : validRange h.dataVaddr h.dataSize = true

def sectionPages (h : RiruHeader) : Set ℕ :=
  rangeOf h.codeVaddr h.codeSize ∪ rangeOf h.rodataVaddr h.rodataSize ∪
    rangeOf h.dataVaddr h.dataSize

def programPages (h : RiruHeader) (imageEnd : Word) : Set ℕ :=
  sectionPages h ∪ rangeOf (bssStart h imageEnd) h.bssSize ∪ stackPages

theorem validRange_zero (address : Word) : validRange address 0 = true := rfl

/-- The mappings succeed unless the BSS lies outside the user window. -/
theorem mapSections_spec (hs : Spaces place k) (space : UserSpace place k u) {h : RiruHeader}
    (valid : SectionsValid h) (stop : Word) :
    ∃ result place' k' pages, (mapSections (pageAddress u) h stop).run k = (result, k') ∧
      Opens u pages place k place' k' ∧ pages ⊆ programPages h stop ∧
      (result = 0 ↔ validRange (bssStart h stop) h.bssSize = true) ∧
      (result = 0 → pages = programPages h stop) := by
  obtain ⟨place₁, k₁, run₁, opens₁⟩ := mapRange_valid hs space valid.code
  have hs₁ := hs.step opens₁.step
  have space₁ := space.step hs opens₁.step
  obtain ⟨place₂, k₂, run₂, opens₂⟩ := mapRange_valid hs₁ space₁ valid.rodata
  have hs₂ := hs₁.step opens₂.step
  have space₂ := space₁.step hs₁ opens₂.step
  obtain ⟨place₃, k₃, run₃, opens₃⟩ := mapRange_valid hs₂ space₂ valid.data
  have hs₃ := hs₂.step opens₃.step
  have space₃ := space₂.step hs₂ opens₃.step
  have to₃ : Opens u (sectionPages h) place k place₃ k₃ :=
    (opens₁.trans space.root opens₂).trans space.root opens₃
  have sections : (mapSections (pageAddress u) h stop).run k =
      (do
        let bss ← mapBss (pageAddress u) (bssStart h stop) h.bssSize
        if bss ≠ 0 then return bss
        let stack ← mapUserStack (pageAddress u)
        return if stack ≠ 0 then -12 else 0 : KernelM ℤ).run k₃ := by
    rw [mapSections, run_bind, run₁]
    dsimp only
    rw [if_neg (not_not.mpr rfl), run_bind, run₂]
    dsimp only
    rw [if_neg (not_not.mpr rfl), run_bind, run₃]
    dsimp only
    rw [if_neg (not_not.mpr rfl)]
  rw [sections, run_bind]
  by_cases bss : validRange (bssStart h stop) h.bssSize = true
  · have mapped : ∃ place₄ k₄,
        (mapBss (pageAddress u) (bssStart h stop) h.bssSize).run k₃ = (0, k₄) ∧
        Opens u (rangeOf (bssStart h stop) h.bssSize) place₃ k₃ place₄ k₄ := by
      obtain ⟨place₄, k₄, run₄, opens₄⟩ := mapRange_valid hs₃ space₃ bss
      refine ⟨place₄, k₄, ?_, opens₄⟩
      rw [mapBss]
      by_cases zero : h.bssSize = 0
      · rw [if_pos zero]
        rw [mapRange, if_pos zero] at run₄
        exact run₄
      · rw [if_neg zero, bss, if_neg (by decide), run_bind, run₄]
        rfl
    obtain ⟨place₄, k₄, run₄, opens₄⟩ := mapped
    have hs₄ := hs₃.step opens₄.step
    obtain ⟨place₅, k₅, run₅, opens₅⟩ := mapUserStack_run hs₄ (space₃.step hs₃ opens₄.step)
    have all : Opens u (programPages h stop) place k place₅ k₅ :=
      (to₃.trans space.root opens₄).trans space.root opens₅
    rw [run₄]
    dsimp only
    rw [if_neg (not_not.mpr rfl), run_bind, run₅]
    exact ⟨0, place₅, k₅, _, rfl, all, subset_refl _, ⟨fun _ => bss, fun _ => rfl⟩, fun _ => rfl⟩
  · have fails : (mapBss (pageAddress u) (bssStart h stop) h.bssSize).run k₃ = (-10, k₃) := by
      have nonzero : h.bssSize ≠ 0 := by
        intro zero
        rw [zero] at bss
        exact bss (validRange_zero _)
      rw [Bool.not_eq_true] at bss
      rw [mapBss, if_neg nonzero, bss]
      rfl
    rw [fails]
    refine ⟨-10, place₃, k₃, _, rfl, to₃, ?_, ⟨fun h => absurd h (by decide), fun h => ?_⟩,
      fun h => absurd h (by decide)⟩
    · exact fun p mem => .inl (.inl mem)
    · exact absurd h bss

/-- The kernel with another `riru_user_cr3`. -/
def Kernel.withUser (k : Kernel) (cr3 : Word) : Kernel := { k with riruUserCr3 := cr3 }

theorem Sound.withUser (hs : Sound place k) (c : Word) : Sound place (k.withUser c) :=
  ⟨hs.placed, hs.closed, hs.small, hs.used, hs.page0⟩

theorem Spaces.withUser (hs : Spaces place k) (c : Word) : Spaces place (k.withUser c) :=
  ⟨hs.sound.withUser c, hs.writable, hs.root, hs.cr3, hs.identity⟩

theorem Step.withUser (h : Step r place k place' k') (c : Word) :
    Step r place (k.withUser c) place' (k'.withUser c) where
  sound := h.sound.withUser c
  keep := h.keep
  child_keep := h.child_keep
  flag_keep := h.flag_keep
  upper := h.upper
  roots := h.roots
  frame := h.frame
  used_keep := h.used_keep
  taken := h.taken
  unused := h.unused
  fit := h.fit
  writable := h.writable
  statics := by
    rw [h.statics]
    rfl
  total := h.total

theorem UserSpace.withUser (space : UserSpace place k u) (c : Word) :
    UserSpace place (k.withUser c) u :=
  ⟨space.root, space.pos, space.lt, space.shared⟩

theorem prepareSpace_run (b : Layout) (h : RiruHeader) (stop : Word) (k : Kernel) :
    (prepareSpace b h stop).run k =
      if ((vmmCreateUserSpace b).run k).1 = 0 then
        (-6, ((vmmCreateUserSpace b).run k).2.withUser ((vmmCreateUserSpace b).run k).1)
      else (mapSections ((vmmCreateUserSpace b).run k).1 h stop).run
        (((vmmCreateUserSpace b).run k).2.withUser ((vmmCreateUserSpace b).run k).1) := by
  rw [prepareSpace]
  simp only [run_bind]
  split_ifs <;> rfl

theorem prepareSpace_none {b : Layout} {h : RiruHeader} {stop : Word}
    (run : (vmmCreateUserSpace b).run k = (0, k')) :
    (prepareSpace b h stop).run k = (-6, k'.withUser 0) := by
  rw [prepareSpace_run, run]
  exact if_pos rfl

theorem prepareSpace_made {b : Layout} {h : RiruHeader} {stop : Word}
    (run : (vmmCreateUserSpace b).run k = (pageAddress u, k')) (space : UserSpace place' k' u) :
    (prepareSpace b h stop).run k =
      (mapSections (pageAddress u) h stop).run (k'.withUser (pageAddress u)) := by
  have lt := space.lt
  rw [prepareSpace_run, run]
  exact if_neg (pageAddress_ne_zero space.pos (by omega))

theorem prepareSpace_cr3 {b : Layout} {h : RiruHeader} {stop : Word}
    (done : ((prepareSpace b h stop).run k).1 = 0) :
    ((prepareSpace b h stop).run k).2.riruUserCr3 = ((vmmCreateUserSpace b).run k).1 ∧
      ((vmmCreateUserSpace b).run k).1 ≠ 0 := by
  rw [prepareSpace_run] at done ⊢
  split_ifs at done ⊢ with none
  · exact absurd (show (-6 : ℤ) = 0 from done) (by decide)
  · exact ⟨keeps_mapSections static_userCr3 _ h stop _, none⟩

/-- What `riru_load` leaves before it switches to the new space. -/
structure PreparedSpace (h : RiruHeader) (stop : Word) (place : Places) (k : Kernel) (u : ℕ)
    (place' : Places) (k' : Kernel) : Prop where
  fresh : place u = none
  step : Step u place (k.withUser (pageAddress u)) place' k'
  user : k'.riruUserCr3 = pageAddress u
  space : UserSpace place' k' u
  bss : validRange (bssStart h stop) h.bssSize = true
  opened : ∀ p ∈ programPages h stop, Opened u p k'

theorem prepareSpace_spec (b : Layout) (hs : Spaces place k) {h : RiruHeader}
    (valid : SectionsValid h) (stop : Word) :
    ∃ u place' k' result, (prepareSpace b h stop).run k = (result, k') ∧ place u = none ∧
      Step u place (k.withUser k'.riruUserCr3) place' k' ∧
      (∀ s, UserOnly s k → programPages h stop ⊆ s → UserOnly s k') ∧
      (result = 0 → PreparedSpace h stop place k u place' k') := by
  rcases createUserSpace_spaces b hs with
    ⟨u, place₁, k₁, run, fresh, step, closer⟩ | ⟨u, place₁, k₁, run, fresh, step, closer, space⟩
  · refine ⟨u, place₁, k₁.withUser 0, -6, ?_, fresh, step.withUser 0,
      fun s only _ => ?_, fun h => absurd h (by decide)⟩
    swap
    · exact show UserOnly s k₁ from only.closer hs step closer
    exact prepareSpace_none run
  · have hs₁ := (hs.step step).withUser (pageAddress u)
    have space₁ := space.withUser (pageAddress u)
    obtain ⟨result, place₂, k₂, pages, run₂, opens, sub, iff, all⟩ :=
      mapSections_spec hs₁ space₁ valid stop
    have user : k₂.riruUserCr3 = pageAddress u := by
      rw [opens.step.statics]
      rfl
    have both := (step.withUser (pageAddress u)).trans opens.step
    refine ⟨u, place₂, k₂, result, ?_, fresh, ?_, fun s only le => ?_, fun zero => ?_⟩
    · rw [prepareSpace_made run space]
      exact run₂
    · rw [user]
      exact both
    · exact opens.only s (show UserOnly s k₁ from only.closer hs step closer) (sub.trans le)
    · refine ⟨fresh, both, user, space₁.step hs₁ opens.step, iff.mp zero, ?_⟩
      rw [← all zero]
      exact opens.opened

theorem widen_valid {span span' : Word × Word} {vaddr size : Word} {code : ℤ}
    (h : widen span vaddr size code = .ok span') : validRange vaddr size = true := by
  rw [widen] at h
  by_cases zero : size = 0
  · rw [zero]
    exact validRange_zero vaddr
  · rw [if_neg zero] at h
    cases valid : validRange vaddr size with
    | true => rfl
    | false =>
      rw [valid] at h
      cases h

theorem imageSpan_valid {h : RiruHeader} {span : Word × Word} (ok : imageSpan h = .ok span) :
    SectionsValid h := by
  have bind {first : Except ℤ (Word × Word)} (run : (first >>= fun span => do
      let span ← widen span h.rodataVaddr h.rodataSize (-3)
      let span ← widen span h.dataVaddr h.dataSize (-4)
      if span.1 = 0xFFFFFFFFFFFFFFFF then .error (-5) else .ok span) = .ok span) :
      validRange h.rodataVaddr h.rodataSize = true ∧
        validRange h.dataVaddr h.dataSize = true := by
    cases first with
    | error code => cases run
    | ok s =>
      change (widen s h.rodataVaddr h.rodataSize (-3) >>= fun span => do
        let span ← widen span h.dataVaddr h.dataSize (-4)
        if span.1 = 0xFFFFFFFFFFFFFFFF then .error (-5) else .ok span) = .ok span at run
      cases rodata : widen s h.rodataVaddr h.rodataSize (-3) with
      | error code =>
        rw [rodata] at run
        cases run
      | ok s' =>
        rw [rodata] at run
        change (widen s' h.dataVaddr h.dataSize (-4) >>= fun span =>
          if span.1 = 0xFFFFFFFFFFFFFFFF then .error (-5) else .ok span) = .ok span at run
        cases data : widen s' h.dataVaddr h.dataSize (-4) with
        | error code =>
          rw [data] at run
          cases run
        | ok s'' => exact ⟨widen_valid rodata, widen_valid data⟩
  rw [imageSpan] at ok
  by_cases zero : h.codeSize = 0
  · rw [if_pos zero] at ok
    refine ⟨?_, (bind ok).1, (bind ok).2⟩
    rw [zero]
    exact validRange_zero _
  · rw [if_neg zero] at ok
    cases valid : validRange h.codeVaddr h.codeSize with
    | true =>
      rw [valid, if_neg (by decide)] at ok
      exact ⟨valid, (bind ok).1, (bind ok).2⟩
    | false =>
      rw [valid, if_pos (by decide)] at ok
      cases ok

end TinyOS.Memory
