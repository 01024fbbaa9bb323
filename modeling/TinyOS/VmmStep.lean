import TinyOS.Vmm

set_option autoImplicit false

namespace TinyOS.Memory
open RadixTables

/-- Where a page holds a table: `[]` for a PML4, then the indices that lead to it. -/
abbrev Places := ℕ → Option (List (Fin 512))

/-- The page tables are as vmm.c builds them, on pages in use. -/
structure Sound (place : Places) (k : Kernel) : Prop where
  placed : Placed child 3 place k.memory
  closed : Closed child 3 place (has pageUser) k.memory
  small : ∀ {p l i}, place p = some l → l.length < 3 → has hugePage (k.memory p i) = false
  used : ∀ {p l}, place p = some l → k.pmm.used p = true ∧ 0 < p ∧ p < maxPages
  page0 : k.pmm.used 0 = true

def FirstFit (place : Places) (k : Kernel) : Prop :=
  ∀ ⦃p l q⦄, place p = some l → k.pmm.used q = false → p < q

def UpperWritable (place : Places) (k : Kernel) : Prop :=
  ∀ ⦃p l i c⦄, place p = some l → l.length < 3 → child (k.memory p i) = some c →
    has pageWritable (k.memory p i) = true

/-- What mapping pages into the tables of the root `r` can do. -/
structure Step (r : ℕ) (place : Places) (k : Kernel) (place' : Places) (k' : Kernel) : Prop where
  sound : Sound place' k'
  keep : ∀ {p l}, place p = some l → place' p = some l
  child_keep : ∀ {p l i c}, place p = some l → child (k.memory p i) = some c →
    child (k'.memory p i) = some c
  flag_keep : ∀ {p l i c mask}, place p = some l → child (k.memory p i) = some c →
    has mask (k.memory p i) = true → has mask (k'.memory p i) = true
  upper : ∀ {p l i c mask}, place p = some l → l.length < 3 → child (k.memory p i) = some c →
    pageUser &&& mask = 0 → has mask (k'.memory p i) = has mask (k.memory p i)
  roots : ∀ {p}, place p = some [] → p ≠ r → k'.memory p = k.memory p
  frame : ∀ {p}, place' p = none → k'.memory p = k.memory p
  used_keep : ∀ {p}, k.pmm.used p = true → k'.pmm.used p = true
  taken : ∀ {p}, k.pmm.used p = false → k'.pmm.used p = true → ∃ l, place' p = some l
  unused : ∀ {p l}, place p = none → place' p = some l → k.pmm.used p = false
  fit : FirstFit place k → FirstFit place' k'
  writable : UpperWritable place k → UpperWritable place' k'
  statics : k' = { k with memory := k'.memory, pmm := k'.pmm }
  total : k'.pmm.totalPages = k.pmm.totalPages

variable {r : ℕ} {place place' place'' : Places} {k k' k'' : Kernel}

section Taken

variable {page : ℕ} {l : List (Fin 512)}

theorem taken_keep (used : ∀ q, k'.pmm.used q = (decide (q = page) || k.pmm.used q)) {p : ℕ}
    (h : k.pmm.used p = true) : k'.pmm.used p = true := by
  rw [used, h, Bool.or_true]

theorem taken_placed (used : ∀ q, k'.pmm.used q = (decide (q = page) || k.pmm.used q)) {p : ℕ}
    (free : k.pmm.used p = false) (h : k'.pmm.used p = true) :
    ∃ l', Function.update place page (some l) p = some l' := by
  rw [used, free, Bool.or_false, decide_eq_true_eq] at h
  exact ⟨l, by rw [h, Function.update_self]⟩

theorem taken_unused (unused : k.pmm.used page = false) {p : ℕ} {l' : List (Fin 512)}
    (before : place p = none) (after : Function.update place page (some l) p = some l') :
    k.pmm.used p = false := by
  by_cases here : p = page
  · rw [here, unused]
  · rw [Function.update_of_ne here] at after
    exact absurd (before.symm.trans after) (by simp)

theorem taken_fit (used : ∀ q, k'.pmm.used q = (decide (q = page) || k.pmm.used q))
    (lowest : ∀ q, q < page → k.pmm.used q = true) (fit : FirstFit place k) :
    FirstFit (Function.update place page (some l)) k' := by
  intro p l' q hp hq
  rw [used, Bool.or_eq_false_iff, decide_eq_false_iff_not] at hq
  by_cases here : p = page
  · subst here
    rcases lt_trichotomy q p with lt | same | gt
    · rw [lowest q lt] at hq
      exact absurd hq.2 (by decide)
    · exact absurd same hq.1
    · exact gt
  · rw [Function.update_of_ne here] at hp
    exact fit hp hq.2

end Taken

theorem Step.refl (h : Sound place k) : Step r place k place k where
  sound := h
  keep hp := hp
  child_keep _ hc := hc
  flag_keep _ _ hf := hf
  upper _ _ _ _ := rfl
  roots _ _ := rfl
  frame _ := rfl
  used_keep hu := hu
  taken hn hu := absurd (hn.symm.trans hu) (by decide)
  unused hn hp := absurd (hn.symm.trans hp) (by simp)
  fit hf := hf
  writable hw := hw
  statics := rfl
  total := rfl

theorem Step.trans (h : Step r place k place' k') (h' : Step r place' k' place'' k'') :
    Step r place k place'' k'' where
  sound := h'.sound
  keep hp := h'.keep (h.keep hp)
  child_keep hp hc := h'.child_keep (h.keep hp) (h.child_keep hp hc)
  flag_keep hp hc hf := h'.flag_keep (h.keep hp) (h.child_keep hp hc) (h.flag_keep hp hc hf)
  upper hp lt hc hm :=
    (h'.upper (h.keep hp) lt (h.child_keep hp hc) hm).trans (h.upper hp lt hc hm)
  roots hp ne := (h'.roots (h.keep hp) ne).trans (h.roots hp ne)
  frame := by
    intro p hn
    have hn' : place' p = none := by
      cases hp : place' p with
      | none => rfl
      | some l => exact absurd (hn.symm.trans (h'.keep hp)) (by simp)
    exact (h'.frame hn).trans (h.frame hn')
  used_keep hu := h'.used_keep (h.used_keep hu)
  taken := by
    intro p hn hu
    cases hp : k'.pmm.used p with
    | false => exact h'.taken hp hu
    | true =>
      obtain ⟨l, hl⟩ := h.taken hn hp
      exact ⟨l, h'.keep hl⟩
  unused := by
    intro p l hn hp
    cases hp' : place' p with
    | some l' => exact h.unused hn hp'
    | none =>
      by_contra hu
      have hu' := h'.unused hp' hp
      rw [h.used_keep (Bool.not_eq_false _ ▸ hu)] at hu'
      cases hu'
  fit hf := h'.fit (h.fit hf)
  writable hw := h'.writable (h.writable hw)
  statics := by
    rw [h'.statics, h.statics]
  total := h'.total.trans h.total

theorem Step.walk_keep (h : Step r place k place' k') (hs : Sound place k) {p c : ℕ}
    {l q : List (Fin 512)} (hp : place p = some l) (le : l.length + q.length ≤ 4)
    (hw : walk child k.memory p q = some c) : walk child k'.memory p q = some c :=
  hs.placed.walk_keep h.child_keep hp le hw

theorem Step.grants_keep (h : Step r place k place' k') (hs : Sound place k) {p : ℕ} {mask : Word}
    {l q : List (Fin 512)} (hp : place p = some l) (le : l.length + q.length ≤ 4)
    (hg : grants child (has mask) k.memory p q = true) :
    grants child (has mask) k'.memory p q = true :=
  hs.placed.grants_keep (fun hp hc => ⟨h.child_keep hp hc, h.flag_keep hp hc⟩) hp le hg

def Kernel.newTable (k : Kernel) (page : ℕ) : Kernel :=
  { k with memory := Function.update k.memory page fun _ => 0, pmm := k.pmm.take page }

def Kernel.setEntry (k : Kernel) (t : ℕ) (i : Fin 512) (e : Word) : Kernel :=
  { k with memory := RadixTables.setEntry k.memory t i e }

theorem allocateTable_fst (k : Kernel) : (allocateTable.run k).1 =
    if (pmmAllocPage k.pmm).1 = 0 then none else some (pageOf (pmmAllocPage k.pmm).1) := by
  rw [allocateTable, run_bind, show (allocPage.run k).1 = (pmmAllocPage k.pmm).1 from rfl]
  split_ifs <;> rfl

theorem allocateTable_run (k : Kernel) : allocateTable.run k = if (pmmAllocPage k.pmm).1 = 0
    then (none, { k with pmm := (pmmAllocPage k.pmm).2 })
    else (some (pageOf (pmmAllocPage k.pmm).1), { k with
      memory := Function.update k.memory (pageOf (pmmAllocPage k.pmm).1) fun _ => 0
      pmm := (pmmAllocPage k.pmm).2 }) := by
  simp only [allocateTable, allocPage, StateT.run, bind, StateT.bind, pure]
  split_ifs <;> rfl

theorem allocateTable_cases (h0 : k.pmm.used 0 = true) :
    allocateTable.run k = (none, k) ∨ ∃ page, 0 < page ∧ page < maxPages ∧
      k.pmm.used page = false ∧ (∀ q, q < page → k.pmm.used q = true) ∧
      allocateTable.run k = (some page, k.newTable page) := by
  rw [allocateTable_run]
  rcases pmmAllocPage_cases h0 with h | ⟨page, pos, lt, hp, hq, h⟩
  · rw [h, if_pos rfl]
    exact .inl rfl
  · have lt' : page < 1048576 := lt.trans_le k.pmm.total_le
    have lt52 : page < 2^52 := by omega
    rw [h, if_neg (pageAddress_ne_zero pos lt52), pageOf_pageAddress lt52]
    exact .inr ⟨page, pos, lt', hp, hq, rfl⟩

theorem enterTable_present {t : ℕ} {i : Fin 512} {flags : Word} {c : ℕ}
    (h : child (k.memory t i) = some c) : (enterTable t i flags).run k =
      (some c, k.setEntry t i (k.memory t i ||| (flags &&& pageUser))) := by
  obtain ⟨hp, rfl⟩ := present_of_child h
  simp only [enterTable, readEntry, writeEntry, StateT.run, bind, StateT.bind, hp, if_true]
  rfl

theorem enterTable_absent {t : ℕ} {i : Fin 512} {flags : Word}
    (h : child (k.memory t i) = none) : (enterTable t i flags).run k =
      match allocateTable.run k with
      | (none, k') => (none, k')
      | (some page, k') => (some page, k'.setEntry t i (tableEntry page flags)) := by
  have hp := child_eq_none.mp h
  simp only [enterTable, readEntry, StateT.run, bind, StateT.bind, hp,
    Bool.false_eq_true, if_false]
  rcases allocateTable k with ⟨_ | page, k'⟩ <;> rfl

theorem Step.edit (hs : Sound place k) {t : ℕ} {l : List (Fin 512)} {i : Fin 512} {e : Word}
    (ht : place t = some l) (root : l = [] → t = r)
    (same : l.length < 3 → child e = child (k.memory t i))
    (keep : ∀ {d mask}, child (k.memory t i) = some d → child e = some d ∧
      (has mask (k.memory t i) = true → has mask e = true))
    (upper : ∀ {mask}, l.length < 3 → pageUser &&& mask = 0 →
      has mask e = has mask (k.memory t i))
    (mono : l.length < 3 → has pageUser (k.memory t i) = true → has pageUser e = true)
    (up : has pageUser e = true → Raised child 3 place (has pageUser) k.memory t) :
    Step r place k place (k.setEntry t i e) where
  sound := {
    placed := hs.placed.edit ht same
    closed := hs.closed.edit hs.placed ht same mono up
    small := by
      intro p l' j hp lt
      by_cases h : p = t ∧ j = i
      · obtain ⟨rfl, rfl⟩ := h
        rw [ht] at hp
        cases hp
        simp only [Kernel.setEntry, setEntry_self]
        rw [upper lt (by decide), hs.small ht lt]
      · simp only [Kernel.setEntry]
        rw [setEntry_ne _ _ fun hp hj => h ⟨hp, hj⟩, hs.small hp lt]
    used := hs.used
    page0 := hs.page0 }
  keep hp := hp
  child_keep := by
    intro p l' j c hp hc
    by_cases h : p = t ∧ j = i
    · obtain ⟨rfl, rfl⟩ := h
      simp only [Kernel.setEntry, setEntry_self]
      exact (@keep _ 0 hc).1
    · simp only [Kernel.setEntry]
      rwa [setEntry_ne _ _ fun hp hj => h ⟨hp, hj⟩]
  flag_keep := by
    intro p l' j c mask hp hc hf
    by_cases h : p = t ∧ j = i
    · obtain ⟨rfl, rfl⟩ := h
      simp only [Kernel.setEntry, setEntry_self]
      exact (keep hc).2 hf
    · simp only [Kernel.setEntry]
      rwa [setEntry_ne _ _ fun hp hj => h ⟨hp, hj⟩]
  upper := by
    intro p l' j c mask hp lt hc hm
    by_cases h : p = t ∧ j = i
    · obtain ⟨rfl, rfl⟩ := h
      rw [ht] at hp
      cases hp
      simp only [Kernel.setEntry, setEntry_self]
      exact upper lt hm
    · simp only [Kernel.setEntry]
      rw [setEntry_ne _ _ fun hp hj => h ⟨hp, hj⟩]
  roots := by
    intro p hp ne
    refine setEntry_table _ _ _ ?_
    rintro rfl
    rw [ht] at hp
    exact ne (root (Option.some.inj hp))
  frame := by
    intro p hp
    refine setEntry_table _ _ _ ?_
    rintro rfl
    exact absurd (hp.symm.trans ht) (by simp)
  used_keep hu := hu
  taken hn hu := absurd (hn.symm.trans hu) (by decide)
  unused hn hp := absurd (hn.symm.trans hp) (by simp)
  fit hf := hf
  writable := by
    intro hw p l' j c hp lt hc
    by_cases h : p = t ∧ j = i
    · obtain ⟨rfl, rfl⟩ := h
      rw [ht] at hp
      cases hp
      simp only [Kernel.setEntry, setEntry_self] at hc ⊢
      rw [upper lt (by decide)]
      exact hw ht lt ((same lt).symm.trans hc)
    · simp only [Kernel.setEntry] at hc ⊢
      rw [setEntry_ne _ _ fun hp hj => h ⟨hp, hj⟩] at hc ⊢
      exact hw hp lt hc
  statics := rfl
  total := rfl

theorem Sound.page_unplaced (hs : Sound place k) {page : ℕ} (unused : k.pmm.used page = false) :
    place page = none := by
  cases h : place page with
  | none => rfl
  | some l =>
    rw [(hs.used h).1] at unused
    cases unused

theorem Step.install (hs : Sound place k) {t page : ℕ} {l : List (Fin 512)} {i : Fin 512}
    {flags : Word} (ht : place t = some l) (root : l = [] → t = r)
    (absent : child (k.memory t i) = none) (pos : 0 < page) (lt : page < maxPages)
    (unused : k.pmm.used page = false) (lowest : ∀ q, q < page → k.pmm.used q = true)
    (up : has pageUser flags = true → Raised child 3 place (has pageUser) k.memory t) :
    Step r place k (Function.update place page (some (l ++ [i])))
      ((k.newTable page).setEntry t i (tableEntry page flags)) := by
  have hn := hs.page_unplaced unused
  have lt40 : page < 2^40 := lt.trans (by decide)
  have he := child_tableEntry lt40 flags
  have hz (j : Fin 512) : child ((fun _ => 0 : Fin 512 → Word) j) = none := child_zero
  have hfl : has pageUser (tableEntry page flags) = true →
      Raised child 3 place (has pageUser) k.memory t := fun h => up (by
    rw [has_tableEntry lt40 flags (by decide), has_and_self,
      show has pageUser pagePresent = false by decide,
      show has pageUser pageWritable = false by decide] at h
    simpa only [Bool.false_or] using h)
  have grows : Grows child 3 r (l ++ [i]) place k.memory _ _ :=
    Grows.install ht absent hn he hz (List.prefix_refl _) root
  have ne {p : ℕ} {l : List (Fin 512)} (hp : place p = some l) : p ≠ page := by
    rintro rfl
    exact absurd (hn.symm.trans hp) (by simp)
  have old {p : ℕ} {l' : List (Fin 512)} {j : Fin 512} {c : ℕ} (hp : place p = some l')
      (hc : child (k.memory p j) = some c) :
      ((k.newTable page).setEntry t i (tableEntry page flags)).memory p j = k.memory p j := by
    simp only [Kernel.setEntry, Kernel.newTable]
    rw [setEntry_ne, Function.update_of_ne (ne hp)]
    rintro rfl rfl
    exact absurd (absent.symm.trans hc) (by simp)
  have update_used (q : ℕ) : ((k.newTable page).setEntry t i (tableEntry page flags)).pmm.used q =
      (decide (q = page) || k.pmm.used q) := take_used _ _ _
  constructor
  · constructor
    · exact hs.placed.install ht hn he hz
    · exact hs.closed.install hs.placed ht hn he hz hfl
    · intro p l' j hp lt'
      by_cases h : p = t ∧ j = i
      · obtain ⟨rfl, rfl⟩ := h
        simp only [Kernel.setEntry, setEntry_self]
        rw [has_tableEntry lt40 flags (by decide), has_and_of_disjoint flags (by decide)]
        decide
      · simp only [Kernel.setEntry, Kernel.newTable]
        rw [setEntry_ne _ _ fun hp hj => h ⟨hp, hj⟩]
        by_cases h' : p = page
        · rw [h', Function.update_self]
          decide
        · rw [Function.update_of_ne h'] at hp ⊢
          exact hs.small hp lt'
    · intro p l' hp
      rw [update_used]
      by_cases h : p = page
      · subst h
        exact ⟨by simp, pos, lt⟩
      · rw [Function.update_of_ne h] at hp
        obtain ⟨hu, h0, hm⟩ := hs.used hp
        exact ⟨by rw [hu, Bool.or_true], h0, hm⟩
    · rw [update_used, hs.page0, Bool.or_true]
  · exact grows.keep
  · exact grows.child_keep
  · intro p l' j c mask hp hc hf
    rwa [old hp hc]
  · intro p l' j c mask hp _ hc _
    rw [old hp hc]
  · exact grows.roots
  · intro p hp
    have h : p ≠ page := by
      rintro rfl
      rw [Function.update_self] at hp
      cases hp
    have h' : p ≠ t := by
      rintro rfl
      rw [grows.keep ht] at hp
      cases hp
    simp only [Kernel.setEntry, Kernel.newTable]
    rw [setEntry_table _ _ _ h', Function.update_of_ne h]
  · exact taken_keep update_used
  · exact taken_placed update_used
  · exact taken_unused unused
  · exact taken_fit update_used lowest
  · intro hw p l' j c hp lt' hc
    by_cases h : p = t ∧ j = i
    · obtain ⟨rfl, rfl⟩ := h
      simp only [Kernel.setEntry, setEntry_self]
      rw [has_tableEntry lt40 flags (by decide), show has pageWritable pageWritable = true by decide]
      simp
    · simp only [Kernel.setEntry, Kernel.newTable] at hc ⊢
      rw [setEntry_ne _ _ fun hp hj => h ⟨hp, hj⟩] at hc ⊢
      by_cases h' : p = page
      · rw [h', Function.update_self, child_zero] at hc
        cases hc
      · rw [Function.update_of_ne h'] at hp hc ⊢
        exact hw hp lt' hc
  · rfl
  · rfl

theorem Sound.raised_root (hs : Sound place k) {t : ℕ} (ht : place t = some []) :
    Raised child 3 place (has pageUser) k.memory t := by
  intro p l i hp _ lt hc
  have := Option.some.inj (ht.symm.trans (hs.placed.below hp lt hc))
  exact absurd this.symm (by simp)

/-- A level is entered or no page is left. The table entered stands for the one the walk
found, and its entry is raised like the path above. -/
theorem enterTable_spec (hs : Sound place k) {t : ℕ} {l path : List (Fin 512)} {i : Fin 512}
    {flags : Word} (ht : place t = some l) (lt : l.length < 3) (root : l = [] → t = r)
    (on : (l ++ [i]) <+: path)
    (up : has pageUser flags = true → Raised child 3 place (has pageUser) k.memory t) :
    ((enterTable t i flags).run k = (none, k) ∧ child (k.memory t i) = none ∧
      allocateTable.run k = (none, k)) ∨
    ∃ c place' k', (enterTable t i flags).run k = (some c, k') ∧ Step r place k place' k' ∧
      Grows child 3 r path place k.memory place' k'.memory ∧ place' c = some (l ++ [i]) ∧
      child (k'.memory t i) = some c ∧ (child (k.memory t i) ≠ none → k'.pmm = k.pmm) ∧
      (∀ j q, l.length + 2 + q.length = 4 →
        walk child k'.memory c (j :: q) = walk child k.memory t (i :: j :: q)) ∧
      (∀ {p l'}, place p = some l' → p ≠ t → k'.memory p = k.memory p) ∧
      (has pageUser flags = true → Raised child 3 place' (has pageUser) k'.memory c) ∧
      (has pageUser flags = true → has pageUser (k'.memory t i) = true) := by
  have raised {place' : Places} {k' : Kernel} {c : ℕ} (hs' : Sound place' k')
      (ht' : place' t = some l) (hc : child (k'.memory t i) = some c)
      (he : has pageUser flags = true → has pageUser (k'.memory t i) = true)
      (hf : has pageUser flags = true) : Raised child 3 place' (has pageUser) k'.memory c :=
    hs'.placed.raised ht' lt hc (he hf)
  cases hc : child (k.memory t i) with
  | some c =>
    have low := low_and_mask flags (show pageUser &&& pageMask = 0 by decide)
    have he : child (k.memory t i ||| (flags &&& pageUser)) = some c := child_or hc low
    have step : Step r place k place (k.setEntry t i (k.memory t i ||| (flags &&& pageUser))) := by
      refine Step.edit hs ht root (fun _ => he.trans hc.symm) ?_ ?_ ?_ ?_
      · intro d mask hd
        refine ⟨child_or hd low, fun hf => ?_⟩
        rw [has_or, hf, Bool.true_or]
      · intro mask _ hm
        rw [has_or, has_and_of_disjoint flags hm, Bool.or_false]
      · intro _ hf
        rw [has_or, hf, Bool.true_or]
      · intro hf
        rw [has_or, has_and_self, Bool.or_eq_true] at hf
        rcases hf with hf | hf
        · intro p l' j hp ne lt' hj
          exact hs.closed hp ne lt' hj hc hf
        · exact up hf
    have entry : (k.setEntry t i (k.memory t i ||| (flags &&& pageUser))).memory t i =
        k.memory t i ||| (flags &&& pageUser) := setEntry_self _ _ _ _
    have grows (path : List (Fin 512)) (on : (l ++ [i]) <+: path) : Grows child 3 r path place
        k.memory place (k.setEntry t i (k.memory t i ||| (flags &&& pageUser))).memory :=
      Grows.edit ht on root (fun d hd => child_or hd low) fun _ => he.trans hc.symm
    have hp := hs.placed.below ht lt hc
    refine .inr ⟨c, place, _, enterTable_present hc, step, grows path on, hp, ?_, fun _ => rfl,
      fun j q le => ?_, fun _ ne => setEntry_table _ _ _ ne, ?_, fun hf => ?_⟩
    · rw [entry, he]
    · have off : ¬(l ++ [i] ++ j :: q) <+: l ++ [i] := fun h => by
        have := h.length_le
        simp only [List.length_append, List.length_cons, List.length_nil] at this
        omega
      rw [(grows _ (List.prefix_refl _)).walk_off hs.placed step.sound.placed hp
        (by simp only [List.length_append, List.length_singleton]; omega) off]
      rw [walk, walk, hc]
      rfl
    · refine raised step.sound ht (by rw [entry, he]) fun hf => ?_
      rw [entry, has_or, has_and_self, hf, Bool.or_true]
    · rw [entry, has_or, has_and_self, hf, Bool.or_true]
  | none =>
    rw [enterTable_absent hc]
    rcases allocateTable_cases hs.page0 with h | ⟨page, pos, ltp, unused, lowest, h⟩
    · rw [h]
      exact .inl ⟨rfl, rfl, rfl⟩
    · have lt40 : page < 2^40 := ltp.trans (by decide)
      have step := Step.install hs ht root hc pos ltp unused lowest up
      have entry : ((k.newTable page).setEntry t i (tableEntry page flags)).memory t i =
        tableEntry page flags := setEntry_self _ _ _ _
      rw [h]
      refine .inr ⟨page, _, _, rfl, step, ?_, Function.update_self _ _ _, ?_,
        fun h => absurd rfl h, fun j q _ => ?_, fun hp ne => ?_, ?_, fun hf => ?_⟩
      · exact Grows.install ht hc (hs.page_unplaced unused) (child_tableEntry lt40 flags)
          (fun _ => child_zero) on root
      · rw [entry, child_tableEntry lt40]
      · have ne : page ≠ t := by
          rintro rfl
          exact absurd ((hs.page_unplaced unused).symm.trans ht) (by simp)
        have zero : ((k.newTable page).setEntry t i (tableEntry page flags)).memory page j = 0 := by
          simp only [Kernel.setEntry, Kernel.newTable]
          rw [setEntry_table _ _ _ ne, Function.update_self]
        rw [walk, zero, walk, hc]
        rfl
      · simp only [Kernel.setEntry, Kernel.newTable]
        rw [setEntry_table _ _ _ ne, Function.update_of_ne]
        rintro rfl
        exact absurd ((hs.page_unplaced unused).symm.trans hp) (by simp)
      · refine raised step.sound (step.keep ht) (by rw [entry, child_tableEntry lt40]) fun hf => ?_
        rw [entry, has_tableEntry lt40 flags (by decide), has_and_self, hf, Bool.or_true]
      · rw [entry, has_tableEntry lt40 flags (by decide), has_and_self, hf, Bool.or_true]

theorem Sound.clear (hs : Sound place k) {t : ℕ} {l : List (Fin 512)} (i : Fin 512)
    (ht : place t = some l) (hl : l.length = 3) : Sound place (k.setEntry t i 0) where
  placed := hs.placed.edit ht fun lt => absurd lt (by omega)
  closed := hs.closed.edit hs.placed ht (fun lt => absurd lt (by omega))
    (fun lt => absurd lt (by omega)) fun h => absurd h (by decide)
  small := by
    intro p l' j hp lt
    simp only [Kernel.setEntry]
    rw [setEntry_table, hs.small hp lt]
    rintro rfl
    rw [ht] at hp
    cases hp
    omega
  used := hs.used
  page0 := hs.page0

theorem Sound.first {page : ℕ} (h0 : k.pmm.used 0 = true) (pos : 0 < page) (lt : page < maxPages) :
    Sound (Function.update (fun _ => none) page (some [])) (k.newTable page) := by
  have nothing : Placed child 3 (fun _ => none) k.memory :=
    ⟨fun h => absurd h (by simp), fun h => absurd h (by simp)⟩
  have only {p : ℕ} {l : List (Fin 512)}
      (hp : Function.update (fun _ => none : Places) page (some []) p = some l) :
      p = page ∧ l = [] := by
    by_cases h : p = page
    · rw [h, Function.update_self] at hp
      exact ⟨h, (Option.some.inj hp).symm⟩
    · rw [Function.update_of_ne h] at hp
      cases hp
  constructor
  · exact nothing.add rfl fun h => absurd (child_zero.symm.trans h) (by simp)
  · refine Closed.add nothing ?_ rfl fun h => absurd (child_zero.symm.trans h) (by simp)
    intro p l i c j d hp
    cases hp
  · intro p l i hp _
    obtain ⟨rfl, rfl⟩ := only hp
    simp only [Kernel.newTable, Function.update_self]
    decide
  · intro p l hp
    obtain ⟨rfl, rfl⟩ := only hp
    exact ⟨by simp [Kernel.newTable], pos, lt⟩
  · simp [Kernel.newTable, h0]

def IsTable (roots : List ℕ) (k : Kernel) (p : ℕ) : Prop :=
  ∃ r ∈ roots, ∃ l : List (Fin 512), l.length ≤ 3 ∧ walk child k.memory r l = some p

/-- Pages are taken, given back and written by others; no page of a table is among them,
nor is page 0 given back. -/
structure Others (roots : List ℕ) (k k' : Kernel) : Prop where
  memory : ∀ {p}, IsTable roots k p → k'.memory p = k.memory p
  used : ∀ {p}, IsTable roots k p → k'.pmm.used p = true
  page0 : k'.pmm.used 0 = true
  statics : k' = { k with
    memory := k'.memory, pmm := k'.pmm, heapUsed := k'.heapUsed, heapTotal := k'.heapTotal }

theorem Sound.restrict {roots : List ℕ} (hs : Sound place k) (hr : ∀ r ∈ roots, place r = some []) :
    ∃ place', Sound place' k ∧ (∀ r ∈ roots, place' r = some []) ∧
      ∀ {p l}, place' p = some l → IsTable roots k p ∧ place p = some l := by
  classical
  have closed {p c : ℕ} {l : List (Fin 512)} {i : Fin 512} (hS : IsTable roots k p)
      (hp : place p = some l) (lt : l.length < 3) (hc : child (k.memory p i) = some c) :
      IsTable roots k c := by
    obtain ⟨r, hmem, q, le, hw⟩ := hS
    have := hs.placed.place_walk (hr r hmem) (by simpa using le) hw
    obtain rfl : l = q := Option.some.inj (hp.symm.trans this)
    refine ⟨r, hmem, l ++ [i], by simpa using lt, ?_⟩
    rw [walk_append, hw, Option.bind_some, walk, hc]
    rfl
  have inside {p : ℕ} {l : List (Fin 512)}
      (h : (if IsTable roots k p then place p else none) = some l) :
      IsTable roots k p ∧ place p = some l := by
    split_ifs at h with hS
    exact ⟨hS, h⟩
  refine ⟨fun p => if IsTable roots k p then place p else none, ?_, ?_, inside⟩
  · have placed := hs.placed.restrict (IsTable roots k) closed
    constructor
    · exact placed
    · intro p l i c j d hp ne lt hc hd hf
      exact hs.closed (inside hp).2 ne lt hc hd hf
    · intro p l i hp lt
      exact hs.small (inside hp).2 lt
    · intro p l hp
      exact hs.used (inside hp).2
    · exact hs.page0
  · intro r hmem
    dsimp only
    rw [if_pos ⟨r, hmem, [], by simp, rfl⟩, hr r hmem]

theorem Sound.others {roots : List ℕ} (hs : Sound place k)
    (hr : ∀ r ∈ roots, place r = some []) (h : Others roots k k') :
    ∃ place', Sound place' k' ∧ (∀ r ∈ roots, place' r = some []) ∧
      (∀ {p l}, place' p = some l → k'.memory p = k.memory p) ∧
      ∀ r ∈ roots, ∀ q : List (Fin 512), q.length ≤ 4 →
        walk child k'.memory r q = walk child k.memory r q := by
  obtain ⟨place', sound, root, inside⟩ := hs.restrict hr
  have same {p : ℕ} {l : List (Fin 512)} (hp : place' p = some l) : k'.memory p = k.memory p :=
    h.memory (inside hp).1
  refine ⟨place', ?_, root, same, ?_⟩
  · constructor
    · exact sound.placed.congr same
    · exact sound.closed.congr sound.placed same
    · intro p l i hp lt
      rw [same hp]
      exact sound.small hp lt
    · intro p l hp
      exact ⟨h.used (inside hp).1, (sound.used hp).2⟩
    · exact h.page0
  · intro r hmem q le
    refine sound.placed.walk_congr same (root r hmem) ?_
    simpa using le

end TinyOS.Memory
