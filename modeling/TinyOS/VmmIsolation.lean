import TinyOS.VmmResident

set_option autoImplicit false

namespace TinyOS.Memory
open RadixTables StateRuns

variable {r u t f : ℕ} {place place' : Places} {k k' : Kernel} {b : Layout} {va pa flags : Word}

def Kernel.allows (k : Kernel) (mask : Word) (r : ℕ) (va : Word) : Bool :=
  grants child (has mask) k.memory r (path va)

theorem path_split (va : Word) : path va = upperPath va ++ [ptIndex va] := rfl

theorem mapped_leaf (mapped : walk child k.memory r (path va) = some f) :
    ∃ t, walk child k.memory r (upperPath va) = some t ∧
      child (k.memory t (ptIndex va)) = some f := by
  rw [path_split, walk_append] at mapped
  obtain ⟨t, upper, mapped⟩ := Option.bind_eq_some_iff.mp mapped
  obtain ⟨c, leaf, mapped⟩ := Option.bind_eq_some_iff.mp mapped
  rw [← Option.some.inj mapped]
  exact ⟨t, upper, leaf⟩

theorem not_allows {mask : Word} (unmapped : walk child k.memory r (path va) = none) :
    k.allows mask r va = false := by
  rw [Kernel.allows, Bool.eq_false_iff]
  intro granted
  obtain ⟨c, mapped⟩ := walk_of_grants granted
  rw [unmapped] at mapped
  cases mapped

/-- The user gets to a page by the first entry and the last. -/
theorem Sound.allows_user (hs : Sound place k) (hr : place r = some [])
    (upper : walk child k.memory r (upperPath va) = some t)
    (leaf : child (k.memory t (ptIndex va)) = some f) :
    k.allows pageUser r va = (has pageUser (k.memory r (pml4Index va)) &&
      has pageUser (k.memory t (ptIndex va))) := by
  rw [upperPath, walk] at upper
  obtain ⟨pdpt, root, upper⟩ := Option.bind_eq_some_iff.mp upper
  have below := hs.placed.below hr (by decide) root
  have last := hs.closed.grants_iff hs.placed below (by simp) (by simp) upper (i := ptIndex va)
  rw [leaf] at last
  have rest : grants child (has pageUser) k.memory pdpt ([pdptIndex va, pdIndex va] ++ [ptIndex va]) =
      has pageUser (k.memory t (ptIndex va)) := by
    rw [Bool.eq_iff_iff, last]
    constructor
    · rintro ⟨_, -, h⟩
      exact h
    · intro h
      exact ⟨f, rfl, h⟩
  rw [Kernel.allows, show path va = pml4Index va :: ([pdptIndex va, pdIndex va] ++ [ptIndex va])
    from rfl, grants, root]
  dsimp only
  rw [rest]

theorem Sound.allows_writable (hs : Sound place k) (writable : UpperWritable place k)
    (hr : place r = some []) (upper : walk child k.memory r (upperPath va) = some t)
    (leaf : child (k.memory t (ptIndex va)) = some f) :
    k.allows pageWritable r va = has pageWritable (k.memory t (ptIndex va)) := by
  have above := hs.placed.grants_upper (fun hp lt hc => writable hp lt hc) hr
    (by simp [upperPath]) upper
  rw [Kernel.allows, path_split, grants_append, upper]
  dsimp only
  rw [above, Bool.true_and, grants, leaf]
  dsimp only
  rw [grants, Bool.and_true]

/-- What a call for `va` in another space changes for the space `r`: the user may reach the page
where the first entry of `r` lets him. -/
structure SeenFrom (r : ℕ) (va : Word) (result : ℤ) (k k' : Kernel) : Prop where
  physical : ∀ va', getPhysicalFrom k'.memory r va' = getPhysicalFrom k.memory r va'
  writable : ∀ va', k'.allows pageWritable r va' = k.allows pageWritable r va'
  user : ∀ va', k'.allows pageUser r va' =
    if result = 0 ∧ path va' = path va then has pageUser (k.memory r (pml4Index va))
    else k.allows pageUser r va'

theorem Spaces.kernelSpace (hs : Spaces place k) : UserSpace place k k.kernelPml4 where
  root := hs.root
  pos := (hs.sound.used hs.root).2.1
  lt := (hs.sound.used hs.root).2.2
  shared := rfl

theorem UserSpace.walk_eq (h : UserSpace place k u) (h' : UserSpace place k r)
    (index : pml4Index va = 0) :
    walk child k.memory u (upperPath va) = walk child k.memory r (upperPath va) := by
  rw [upperPath, walk, walk, index, h.shared, h'.shared]

/-- A page that is not opened is shut in every address space. -/
theorem UserSpace.shut (hs : Spaces place k) (h : UserSpace place k u) {pages : Set ℕ}
    (only : UserOnly pages k) {p : ℕ} (lt : p < 1048576) (off : p ∉ pages) :
    k.allows pageUser u (pageAddress p) = false := by
  have here : path (pageAddress p) = pagePath p := by rw [path_eq, pageOf_pageAddress (by omega)]
  have mapped := h.identity hs lt
  rw [← here] at mapped
  obtain ⟨t, upper, leaf⟩ := mapped_leaf mapped
  have index : pml4Index (pageAddress p) = 0 := by
    obtain ⟨q, split⟩ := pagePath_low lt
    rw [← here] at split
    exact (List.cons.inj split).1
  have kernel := (hs.kernelSpace.walk_eq h index).trans upper
  rw [hs.sound.allows_user h.root upper leaf, Bool.eq_false_iff]
  intro both
  exact off (only lt kernel (Bool.and_eq_true_iff.mp both).2)

theorem path_off {va' : Word} (ne : path va' ≠ path va) : ¬path va' <+: path va :=
  fun pre => ne (pre.eq_of_length rfl)

theorem user_flags (flags : Word) :
    has pageUser ((flags ||| pageUser) &&& (pageUser ||| pageWritable)) = true := by
  rw [has, BitVec.and_assoc, show (pageUser ||| pageWritable) &&& pageUser = pageUser by decide,
    ← has, has_or, show has pageUser pageUser = true by decide, Bool.or_true]

theorem mapPageIn_entry (hs : Spaces place k) (h : UserSpace place k u) (page : pageOf va < 1048576)
    (upper : walk child k.memory u (upperPath va) = some t) {result : ℤ}
    (outcome : MapCase u va pa flags place k k' result) : k'.memory t (ptIndex va) =
      if result = 0 then k.memory t (ptIndex va) ||| (flags &&& (pageUser ||| pageWritable))
      else k.memory t (ptIndex va) := by
  have mapped := h.identity hs page
  rw [← path_eq] at mapped
  have placed := hs.sound.placed.place_walk h.root (by simp [upperPath]) upper
  cases outcome with
  | unaligned _ same => rw [same, if_neg (by decide)]
  | noPage _ before => cases before.symm.trans mapped
  | conflict _ _ _ leaves => rw [leaves placed rfl, if_neg (by decide)]
  | merged _ upper' _ entry =>
    obtain rfl := Option.some.inj (upper.symm.trans upper')
    rw [entry, if_pos rfl]
  | filled before => cases before.symm.trans mapped

theorem mapUserPage_seen (hs : Spaces place k) (h : UserSpace place k u) (h' : UserSpace place k r)
    (ne : r ≠ u) (lt : va.toNat < 4294967296) (pa flags : Word) :
    ∃ place' result k', (vmmMapUserPage (pageAddress u) va pa flags).run k = (result, k') ∧
      Step u place k place' k' ∧ SeenFrom r va result k k' := by
  have ult := h.lt
  have page : pageOf va < 1048576 := by
    rw [pageOf]
    omega
  have index : pml4Index va = 0 := by
    obtain ⟨q, split⟩ := pagePath_low page
    rw [← path_eq] at split
    exact (List.cons.inj split).1
  have nonzero : pageAddress u ≠ 0 := pageAddress_ne_zero h.pos (by omega)
  have below : ¬(0x0000800000000000 : Word) ≤ va := by
    rw [BitVec.le_def]
    simp only [BitVec.ofNat_eq_ofNat, BitVec.toNat_ofNat]
    omega
  obtain ⟨result, place', k', run, step, grows, outcome⟩ :=
    mapPageIn_spec hs.sound h.root va pa (flags ||| pageUser)
  refine ⟨place', result, k', ?_, step, ?_⟩
  · rw [vmmMapUserPage, if_neg nonzero, if_neg below, physicalToTable_pageAddress (by omega)]
    exact run
  have hs' := hs.step step
  have root' := step.keep h'.root
  have mapped := h'.identity hs page
  rw [← path_eq] at mapped
  obtain ⟨t, upper, leaf⟩ := mapped_leaf mapped
  have entry := mapPageIn_entry hs h page ((h.walk_eq h' index).trans upper) outcome
  -- no translation changes
  have same (va' : Word) : walk child k'.memory r (path va') = walk child k.memory r (path va') := by
    by_cases on : path va' = path va
    · rw [on, step.walk_keep hs.sound h'.root (by simp [path]) mapped, mapped]
    · exact grows.walk_off hs.sound.placed step.sound.placed h'.root rfl (path_off on)
  -- nor does the last entry of another page
  have other {va' : Word} {t' : ℕ} (off : path va' ≠ path va)
      (upper' : walk child k.memory r (upperPath va') = some t') :
      k'.memory t' (ptIndex va') = k.memory t' (ptIndex va') := by
    have placed := hs.sound.placed.place_walk h'.root (by simp [upperPath]) upper'
    exact grows.off placed (path_off off)
  have first : k'.memory r = k.memory r := step.roots h'.root ne
  refine ⟨fun va' => ?_, fun va' => ?_, fun va' => ?_⟩
  · rw [getPhysicalFrom_eq hs'.sound root', getPhysicalFrom_eq hs.sound h'.root, same va']
  · by_cases on : path va' = path va
    · -- the first 4 GB are writable
      have before : k.allows pageWritable r va' = true := by
        obtain ⟨walks, writes⟩ := hs.identity page
        rw [← path_eq, ← Kernel.allows] at writes
        have kernel := (hs.kernelSpace.walk_eq h' index).trans upper
        rw [hs.sound.allows_writable hs.writable hs.root kernel leaf] at writes
        rw [Kernel.allows, on, ← Kernel.allows,
          hs.sound.allows_writable hs.writable h'.root upper leaf, writes]
      rw [before]
      exact step.grants_keep hs.sound h'.root (by simp [path]) before
    · cases there : walk child k.memory r (path va') with
      | none => rw [not_allows there, not_allows ((same va').trans there)]
      | some f' =>
        obtain ⟨t', upper', leaf'⟩ := mapped_leaf there
        have upper₁ := step.walk_keep hs.sound h'.root (by simp [upperPath]) upper'
        have leaf₁ : child (k'.memory t' (ptIndex va')) = some f' := by
          rw [other on upper', leaf']
        rw [hs'.sound.allows_writable hs'.writable root' upper₁ leaf₁,
          hs.sound.allows_writable hs.writable h'.root upper' leaf', other on upper']
  · cases there : walk child k.memory r (path va') with
    | none =>
      have off : path va' ≠ path va := by
        intro on
        rw [on, mapped] at there
        cases there
      rw [not_allows there, not_allows ((same va').trans there), if_neg fun both => off both.2]
    | some f' =>
      obtain ⟨t', upper', leaf'⟩ := mapped_leaf there
      have upper₁ := step.walk_keep hs.sound h'.root (by simp [upperPath]) upper'
      have placed := hs.sound.placed.place_walk h'.root (by simp [upperPath]) upper'
      have leaf₁ := step.child_keep placed leaf'
      rw [hs'.sound.allows_user root' upper₁ leaf₁, hs.sound.allows_user h'.root upper' leaf', first]
      by_cases on : path va' = path va
      · obtain ⟨upper_eq, last_eq⟩ := List.append_inj
          (show upperPath va' ++ [ptIndex va'] = upperPath va ++ [ptIndex va] from on) rfl
        have first_eq : pml4Index va' = pml4Index va := (List.cons.inj on).1
        have last_eq : ptIndex va' = ptIndex va := (List.cons.inj last_eq).1
        rw [upper_eq, upper] at upper'
        obtain rfl := Option.some.inj upper'
        rw [first_eq, last_eq, entry]
        by_cases zero : result = 0
        · rw [if_pos zero, if_pos ⟨zero, on⟩, has_or, user_flags, Bool.or_true, Bool.and_true]
        · rw [if_neg zero, if_neg fun both => zero both.1]
      · rw [other on upper', if_neg fun both => on both.2]

variable {s s' : SpacesState}

/-- The spaces handed out have the tables of the kernel, and a PML4 of their own. -/
structure SpacesState.Sharing (place : Places) (s : SpacesState) : Prop where
  spaces : Spaces place s.kernel
  user : ∀ cr3 ∈ s.spaces, ∃ u, cr3 = pageAddress u ∧ UserSpace place s.kernel u ∧
    u ≠ s.kernel.kernelPml4

theorem SpacesState.Sharing.step (h : s.Sharing place) (step : Step r place s.kernel place' k') :
    SpacesState.Sharing place' ⟨k', s.spaces⟩ where
  spaces := h.spaces.step step
  user cr3 mem := by
    obtain ⟨u, eq, space, ne⟩ := h.user cr3 mem
    refine ⟨u, eq, space.step h.spaces step, ?_⟩
    rw [step.kernelPml4]
    exact ne

theorem SpacesState.Sharing.apart (h : s.Sharing place) (apart : Apart place s.kernel k') :
    SpacesState.Sharing place ⟨k', s.spaces⟩ where
  spaces := h.spaces.apart apart
  user cr3 mem := by
    obtain ⟨u, eq, space, ne⟩ := h.user cr3 mem
    refine ⟨u, eq, space.apart h.spaces apart, ?_⟩
    rw [apart.kernelPml4]
    exact ne

theorem SpacesState.Sharing.next (h : s.Sharing place) {call : SpaceCall}
    (go : call.Goes b s s') : ∃ place', s'.Sharing place' := by
  cases call with
  | create =>
    obtain ⟨cr3, k', run, rfl⟩ := go
    rcases createUserSpace_spaces b h.spaces with
      ⟨r, place', k₁, run', -, step, -⟩ | ⟨u, place', k₁, run', fresh, step, -, space⟩
    · obtain ⟨rfl, rfl⟩ := Prod.mk.inj (run.symm.trans run')
      exact ⟨place', h.step step⟩
    · obtain ⟨rfl, rfl⟩ := Prod.mk.inj (run.symm.trans run')
      have lt := space.lt
      have before := h.step step
      rw [if_neg (pageAddress_ne_zero space.pos (by omega))]
      refine ⟨place', before.spaces, fun cr3 mem => ?_⟩
      rcases List.mem_cons.mp mem with rfl | mem
      · refine ⟨u, rfl, space, ?_⟩
        rw [step.kernelPml4]
        rintro rfl
        rw [h.spaces.root] at fresh
        cases fresh
      · exact before.user cr3 mem
  | map cr3 va pa flags =>
    obtain ⟨mem, rfl⟩ := go
    obtain ⟨u, rfl, space, -⟩ := h.user cr3 mem
    have lt := space.lt
    obtain ⟨place', step⟩ := mapUserPage_maps (physicalToTable_pageAddress (by omega)) va pa flags
      h.spaces.sound space.root
    exact ⟨place', h.step step⟩
  | switch cr3 =>
    obtain ⟨-, rfl⟩ := go
    exact ⟨place, h.apart (switch_apart h.spaces.sound cr3)⟩
  | other k =>
    obtain ⟨rfl, others⟩ := go
    have roots : ∀ r ∈ s.kernel.kernelPml4 :: s.spaces.map physicalToTable, place r = some [] := by
      intro r mem
      rcases List.mem_cons.mp mem with rfl | mem
      · exact h.spaces.root
      · obtain ⟨cr3, given, rfl⟩ := List.mem_map.mp mem
        obtain ⟨u, rfl, space, -⟩ := h.user cr3 given
        have lt := space.lt
        rw [physicalToTable_pageAddress (by omega)]
        exact space.root
    obtain ⟨place', spaces, root, apart⟩ := h.spaces.others roots List.mem_cons_self others
    have restricted : s.Sharing place' := by
      refine ⟨spaces, fun cr3 mem => ?_⟩
      obtain ⟨u, rfl, space, ne⟩ := h.user cr3 mem
      have lt := space.lt
      have given : physicalToTable (pageAddress u) ∈ s.spaces.map physicalToTable :=
        List.mem_map_of_mem mem
      rw [physicalToTable_pageAddress (by omega)] at given
      exact ⟨u, rfl, ⟨root u (List.mem_cons_of_mem _ given), space.pos, space.lt, space.shared⟩, ne⟩
    exact ⟨place', restricted.apart apart⟩

theorem SpacesReach.sharing (h : SpacesReach b s) : ∃ place, s.Sharing place := by
  refine h.invariant (I := fun s => ∃ place, s.Sharing place) ?_ ?_
  · rintro s ⟨k, h0, run, none⟩
    obtain ⟨place, prepared, -⟩ := prepareKernelSpace_spec b h0 run
    refine ⟨place, prepared.spaces, fun cr3 mem => ?_⟩
    rw [none] at mem
    exact absurd mem List.not_mem_nil
  · rintro s t call - ⟨place, sharing⟩ - go
    exact sharing.next go

def SpacesState.Other (s : SpacesState) (cr3 : Word) (r : ℕ) : Prop :=
  r = s.kernel.kernelPml4 ∨ ∃ other ∈ s.spaces, other ≠ cr3 ∧ r = physicalToTable other

/-- A call of `vmm_map_user_page` for an address of the user window changes no translation of
another address space, nor where it may write, and opens to its user at most the page of the
address. -/
theorem mapUserPage_seen_by_others (h : SpacesReach b s) {cr3 : Word} (mem : cr3 ∈ s.spaces)
    (window : userMin ≤ va ∧ va < userMax) (pa flags : Word) {r : ℕ} (other : s.Other cr3 r) :
    SeenFrom r va ((vmmMapUserPage cr3 va pa flags).run s.kernel).1 s.kernel
      ((vmmMapUserPage cr3 va pa flags).run s.kernel).2 := by
  obtain ⟨place, sharing⟩ := h.sharing
  obtain ⟨u, rfl, space, ne⟩ := sharing.user cr3 mem
  have below : va.toNat < 4294967296 := by
    have lt := BitVec.lt_def.mp window.2
    rw [show userMax.toNat = 0x40000000 by decide] at lt
    omega
  have apart : UserSpace place s.kernel r ∧ r ≠ u := by
    rcases other with rfl | ⟨cr3, given, differ, rfl⟩
    · exact ⟨sharing.spaces.kernelSpace, ne.symm⟩
    · obtain ⟨u', rfl, space', -⟩ := sharing.user cr3 given
      have lt := space'.lt
      rw [physicalToTable_pageAddress (by omega)]
      refine ⟨space', ?_⟩
      rintro rfl
      exact differ rfl
  obtain ⟨place', result, k', run, -, seen⟩ := mapUserPage_seen sharing.spaces space apart.1 apart.2
    below pa flags
  rw [run]
  exact seen

/-- Two address spaces on a machine with 64 MB; the second has one page open to its user. -/
theorem desktop_spaces : ∃ s place u v, SpacesReach desktopLayout s ∧
    s.spaces = [pageAddress v, pageAddress u] ∧ v ≠ u ∧ Spaces place s.kernel ∧
    UserSpace place s.kernel u ∧ UserSpace place s.kernel v ∧ Opened v 0x500 s.kernel ∧
    UserOnly {0x500} s.kernel := by
  obtain ⟨pmm, -, room⟩ := desktopInit
  have low : desktopLayout.Low := ⟨by decide, by decide⟩
  obtain ⟨k, run, room'⟩ := low.prepared (k := ⟨fun _ _ => 0, pmm, 0, 0, 0, 0, 0, 0, 0⟩) room
    (by decide)
  obtain ⟨place, prepared, -⟩ := prepareKernelSpace_spec desktopLayout room.page0 run
  have start : SpacesReach desktopLayout ⟨k, []⟩ := .start ⟨_, room.page0, run, rfl⟩
  have shut := prepared.plain.userOnly prepared.spaces
  obtain ⟨u, place₁, k₁, run₁, -, step₁, space₁, le₁, room₁⟩ :=
    createUserSpace_room low prepared.spaces room' (by decide)
  have spaces₁ := prepared.spaces.step step₁
  have shut₁ := shut.created prepared.spaces step₁ space₁.pos space₁.lt run₁
  have ltu := space₁.lt
  have ne₁ : pageAddress u ≠ 0 := pageAddress_ne_zero space₁.pos (by omega)
  have first : SpacesReach desktopLayout ⟨k₁, [pageAddress u]⟩ := by
    refine start.step (i := .create) trivial ⟨_, k₁, run₁, ?_⟩
    rw [if_neg ne₁]
  obtain ⟨v, place₂, k₂, run₂, fresh, step₂, space₂, le₂, -⟩ :=
    createUserSpace_room low spaces₁ room₁ (by decide)
  have spaces₂ := spaces₁.step step₂
  have shut₂ := shut₁.created spaces₁ step₂ space₂.pos space₂.lt run₂
  have ltv := space₂.lt
  have ne₂ : pageAddress v ≠ 0 := pageAddress_ne_zero space₂.pos (by omega)
  have second : SpacesReach desktopLayout ⟨k₂, [pageAddress v, pageAddress u]⟩ := by
    refine first.step (i := .create) trivial ⟨_, k₂, run₂, ?_⟩
    rw [if_neg ne₂]
  obtain ⟨place₃, k₃, run₃, step₃, grows, -, opened⟩ := mapUserPage_opens spaces₂ space₂
    (show 0x500 < 1048576 by decide) (show pageWritable &&& pageMask = 0 by decide) (by decide)
  have third : SpacesReach desktopLayout ⟨k₃, [pageAddress v, pageAddress u]⟩ := by
    refine second.step (i := .map (pageAddress v) (pageAddress 0x500) (pageAddress 0x500) pageWritable)
      trivial ⟨List.mem_cons_self, ?_⟩
    rw [run₃]
  have none : UserOnly {0x500} k₂ := fun p t lt hw hu => absurd (shut₂ lt hw hu) (Set.notMem_empty p)
  refine ⟨_, place₃, u, v, third, rfl, ?_, spaces₂.step step₃,
    (space₁.step spaces₁ step₂).step spaces₂ step₃, space₂.step spaces₂ step₃, opened,
    none.grows spaces₂ step₃ (by decide) rfl grows⟩
  rintro rfl
  rw [space₁.root] at fresh
  cases fresh

/-- What the kernel sees of a call for the first page of the user window. -/
theorem mapUserPage_seen_by_others_desktop : ∃ s cr3, SpacesReach desktopLayout s ∧
    cr3 ∈ s.spaces ∧ SeenFrom s.kernel.kernelPml4 0x400000
      ((vmmMapUserPage cr3 0x400000 0x400000 0).run s.kernel).1 s.kernel
      ((vmmMapUserPage cr3 0x400000 0x400000 0).run s.kernel).2 := by
  obtain ⟨s, -, u, v, reach, spaces, -⟩ := desktop_spaces
  have mem : pageAddress v ∈ s.spaces := by
    rw [spaces]
    exact List.mem_cons_self
  exact ⟨s, _, reach, mem,
    mapUserPage_seen_by_others reach mem (by decide) 0x400000 0 (.inl rfl)⟩

/-- A page opened in one space is opened in another that has a page open in the same 512 GB. -/
theorem shared_page_opens : ¬∀ (b : Layout) (s : SpacesState), SpacesReach b s →
    ∀ cr3 ∈ s.spaces, ∀ r, s.Other cr3 r → ∀ va pa flags, userMin ≤ va ∧ va < userMax →
    ∀ va', getPhysicalFrom ((vmmMapUserPage cr3 va pa flags).run s.kernel).2.memory r va' =
        getPhysicalFrom s.kernel.memory r va' ∧
      ∀ mask ∈ [pageUser, pageWritable],
        ((vmmMapUserPage cr3 va pa flags).run s.kernel).2.allows mask r va' =
          s.kernel.allows mask r va' := by
  intro claim
  obtain ⟨s, place, u, v, reach, spaces, ne, hs, hu, hv, opened, only⟩ := desktop_spaces
  have ltu := hu.lt
  have ltv := hv.lt
  have first : pageAddress u ∈ s.spaces := by
    rw [spaces]
    exact List.mem_cons_of_mem _ List.mem_cons_self
  have second : pageAddress v ∈ s.spaces := by
    rw [spaces]
    exact List.mem_cons_self
  have differ : pageAddress v ≠ pageAddress u := by
    intro eq
    rw [← pageOf_pageAddress (show v < 2^52 by omega), eq, pageOf_pageAddress (by omega)] at ne
    exact ne rfl
  have same := (claim _ s reach _ first v
    (.inr ⟨_, second, differ, (physicalToTable_pageAddress (by omega)).symm⟩)
    (pageAddress 0x400) (pageAddress 0x400) pageWritable (by decide) (pageAddress 0x400)).2
    pageUser List.mem_cons_self
  obtain ⟨place', k', run, -⟩ := mapUserPage_opens hs hu (show 0x400 < 1048576 by decide)
    (show pageWritable &&& pageMask = 0 by decide) (by decide)
  obtain ⟨place₁, result, k₁, run₁, -, seen⟩ := mapUserPage_seen hs hu hv ne
    (show (pageAddress 0x400).toNat < 4294967296 by decide) (pageAddress 0x400) pageWritable
  obtain ⟨rfl, rfl⟩ := Prod.mk.inj (run.symm.trans run₁)
  rw [run, seen.user, if_pos ⟨rfl, rfl⟩] at same
  -- the first entry of the other space is open, its page is not
  have entry : has pageUser (s.kernel.memory v (pml4Index (pageAddress 0x400))) = true := by
    have granted := opened.user
    rw [show pagePath 0x500 = pml4Index (pageAddress 0x400) ::
      [pdptIndex (pageAddress 0x500), pdIndex (pageAddress 0x500), ptIndex (pageAddress 0x500)]
      by decide, grants_cons, Bool.and_eq_true, Bool.and_eq_true] at granted
    exact granted.1.2
  have mapped := hv.identity hs (show 0x400 < 1048576 by decide)
  rw [show pagePath 0x400 = path (pageAddress 0x400) by decide] at mapped
  obtain ⟨t, upper, leaf⟩ := mapped_leaf mapped
  have kernel := (hs.kernelSpace.walk_eq hv (show pml4Index (pageAddress 0x400) = 0 by decide)).trans
    upper
  rw [entry, hs.sound.allows_user hv.root upper leaf, entry, Bool.true_and] at same
  exact absurd (only (by decide) kernel same.symm) (by decide)

end TinyOS.Memory
