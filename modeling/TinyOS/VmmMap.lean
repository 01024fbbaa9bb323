import TinyOS.VmmStep

set_option autoImplicit false

namespace TinyOS.Memory
open RadixTables

variable {r : ℕ} {place place' : Places} {k k' : Kernel} {va pa flags : Word}

def upperPath (va : Word) : List (Fin 512) := [pml4Index va, pdptIndex va, pdIndex va]

/-- The ways a call ends, with the translation before and after. -/
inductive MapCase (r : ℕ) (va pa flags : Word) (place : Places) (k k' : Kernel) : ℤ → Prop where
  | unaligned (h : va &&& (pageSize - 1) ≠ 0 ∨ pa &&& (pageSize - 1) ≠ 0) (same : k' = k) :
      MapCase r va pa flags place k k' (-1)
  | noPage {code : ℤ} (h : code = -2 ∨ code = -3 ∨ code = -5)
      (before : walk child k.memory r (path va) = none)
      (after : walk child k'.memory r (path va) = none)
      (full : allocateTable.run k' = (none, k'))
      (leaves : ∀ {p l}, place p = some l → l.length = 3 → k'.memory p = k.memory p) :
      MapCase r va pa flags place k k' code
  | conflict {f : ℕ} (before : walk child k.memory r (path va) = some f)
      (ne : f ≠ physicalToTable pa) (pmm : k'.pmm = k.pmm)
      (leaves : ∀ {p l}, place p = some l → l.length = 3 → k'.memory p = k.memory p) :
      MapCase r va pa flags place k k' (-6)
  | merged {t : ℕ} (before : walk child k.memory r (path va) = some (physicalToTable pa))
      (upper : walk child k.memory r (upperPath va) = some t) (pmm : k'.pmm = k.pmm)
      (entry : k'.memory t (ptIndex va) =
        k.memory t (ptIndex va) ||| (flags &&& (pageUser ||| pageWritable)))
      (user : has pageUser flags = true → has pageUser (k'.memory r (pml4Index va)) = true) :
      MapCase r va pa flags place k k' 0
  | filled {t : ℕ} (before : walk child k.memory r (path va) = none)
      (upper : walk child k'.memory r (upperPath va) = some t)
      (entry : k'.memory t (ptIndex va) = leafEntry pa flags)
      (user : has pageUser flags = true → has pageUser (k'.memory r (pml4Index va)) = true)
      (pmm : walk child k.memory r (upperPath va) ≠ none → k'.pmm = k.pmm) :
      MapCase r va pa flags place k k' 0

theorem mapPageIn_aligned (hv : va &&& (pageSize - 1) = 0) (hp : pa &&& (pageSize - 1) = 0) :
    (mapPageIn r va pa flags).run k =
      match (enterTable r (pml4Index va) flags).run k with
      | (none, k₁) => (-2, k₁)
      | (some pdpt, k₁) =>
        match (enterTable pdpt (pdptIndex va) flags).run k₁ with
        | (none, k₂) => (-3, k₂)
        | (some pd, k₂) =>
          if has hugePage (k₂.memory pd (pdIndex va)) then (-4, k₂)
          else
            match (enterTable pd (pdIndex va) flags).run k₂ with
            | (none, k₃) => (-5, k₃)
            | (some pt, k₃) =>
              if has pagePresent (k₃.memory pt (ptIndex va)) then
                if k₃.memory pt (ptIndex va) &&& pageMask = pa &&& pageMask then
                  (0, k₃.setEntry pt (ptIndex va)
                    (k₃.memory pt (ptIndex va) ||| (flags &&& (pageUser ||| pageWritable))))
                else (-6, k₃)
              else (0, k₃.setEntry pt (ptIndex va) (leafEntry pa flags)) := by
  simp only [mapPageIn, hv, hp, ne_eq, not_true_eq_false, if_false, run_bind]
  rcases (enterTable r (pml4Index va) flags).run k with ⟨_ | pdpt, k₁⟩
  · rfl
  simp only [run_bind]
  rcases (enterTable pdpt (pdptIndex va) flags).run k₁ with ⟨_ | pd, k₂⟩
  · rfl
  simp only [run_bind, readEntry_run]
  by_cases huge : has hugePage (k₂.memory pd (pdIndex va)) = true
  · simp only [huge, if_true]
    rfl
  simp only [huge, Bool.false_eq_true, if_false, run_bind]
  rcases (enterTable pd (pdIndex va) flags).run k₂ with ⟨_ | pt, k₃⟩
  · rfl
  simp only [run_bind, readEntry_run]
  by_cases present : has pagePresent (k₃.memory pt (ptIndex va)) = true
  · by_cases same : k₃.memory pt (ptIndex va) &&& pageMask = pa &&& pageMask
    · simp only [present, same, if_true]
      rfl
    · simp only [present, same, if_true, if_false]
      rfl
  · simp only [present, Bool.false_eq_true, if_false]
    rfl

theorem mapPageIn_unaligned (h : va &&& (pageSize - 1) ≠ 0 ∨ pa &&& (pageSize - 1) ≠ 0) :
    (mapPageIn r va pa flags).run k = (-1, k) := by
  by_cases hv : va &&& (pageSize - 1) = 0
  · have hp := h.resolve_left (not_not.mpr hv)
    simp only [mapPageIn, hv, ne_eq, not_true_eq_false, if_false, hp, not_false_eq_true, if_true]
    rfl
  · simp only [mapPageIn, ne_eq, hv, not_false_eq_true, if_true]
    rfl

/-- `map_page_in` has come down to the table `t` at the place `l` on its path. -/
structure Descends (r : ℕ) (q : List (Fin 512)) (flags : Word) (place : Places) (k : Kernel)
    (l : List (Fin 512)) (t : ℕ) (place' : Places) (k' : Kernel) : Prop where
  step : Step r place k place' k'
  grows : Grows child 3 r q place k.memory place' k'.memory
  here : place' t = some l
  upto : walk child k'.memory r l = some t
  below : ∀ j m, l.length + 1 + m.length = 4 →
    walk child k'.memory t (j :: m) = walk child k.memory r (l ++ j :: m)
  leaves : ∀ {p l'}, place p = some l' → l'.length = 3 → k'.memory p = k.memory p
  pmm : walk child k.memory r l ≠ none → k'.pmm = k.pmm
  up : has pageUser flags = true → Raised child 3 place' (has pageUser) k'.memory t
  user : ∀ i m, l = i :: m → has pageUser flags = true → has pageUser (k'.memory r i) = true

theorem Descends.root (hs : Sound place k) (hr : place r = some []) (q : List (Fin 512)) :
    Descends r q flags place k [] r place k where
  step := Step.refl hs
  grows := Grows.refl
  here := hr
  upto := rfl
  below _ _ _ := rfl
  leaves _ _ := rfl
  pmm _ := rfl
  up _ := hs.raised_root hr
  user _ _ h := by cases h

theorem Descends.enter {q l : List (Fin 512)} {t : ℕ} {i : Fin 512}
    (h : Descends r q flags place k l t place' k') (hs : Sound place k) (hr : place r = some [])
    (lt : l.length < 3) (on : (l ++ [i]) <+: q) :
    ((enterTable t i flags).run k' = (none, k') ∧ child (k'.memory t i) = none ∧
      allocateTable.run k' = (none, k')) ∨
    ∃ c place'' k'', (enterTable t i flags).run k' = (some c, k'') ∧
      Descends r q flags place k (l ++ [i]) c place'' k'' := by
  have root : l = [] → t = r := by
    rintro rfl
    exact (Option.some.inj h.upto).symm
  rcases enterTable_spec (r := r) h.step.sound h.here lt root on h.up with
    none | ⟨c, place₁, k₁, run, step, grows, here, link, pmm, below, only, up, user⟩
  · exact .inl none
  · refine .inr ⟨c, place₁, k₁, run, h.step.trans step, h.grows.trans grows, here, ?_, ?_, ?_, ?_,
      up, ?_⟩
    · have keep := step.walk_keep h.step.sound (h.step.keep hr) (q := l)
        (by simp only [List.length_nil]; omega) h.upto
      rw [walk_append, keep, Option.bind_some, walk, link]
      rfl
    · intro j m le
      simp only [List.length_append, List.length_singleton] at le
      rw [below j m (by omega), h.below i (j :: m) (by simp only [List.length_cons]; omega),
        List.append_assoc, List.singleton_append]
    · intro p l' hp le
      rw [only (h.step.keep hp), h.leaves hp le]
      rintro rfl
      have := Option.some.inj (h.here.symm.trans (h.step.keep hp))
      rw [this] at lt
      omega
    · intro there
      rw [walk_append] at there
      have first : walk child k.memory r l ≠ none := fun hn => there (by rw [hn]; rfl)
      obtain ⟨t', ht'⟩ := Option.ne_none_iff_exists'.mp first
      have same : t' = t := Option.some.inj
        ((h.step.walk_keep hs hr (by simp only [List.length_nil]; omega) ht').symm.trans h.upto)
      subst same
      obtain ⟨d, hd⟩ := Option.ne_none_iff_exists'.mp there
      rw [ht', Option.bind_some] at hd
      obtain ⟨c', hc', _⟩ := Option.bind_eq_some_iff.mp hd
      have placed := hs.placed.place_walk hr (by simp only [List.length_nil]; omega) ht'
      rw [pmm (by rw [h.step.child_keep placed hc']; simp), h.pmm first]
    · intro i' m split hf
      cases l with
      | nil =>
        obtain ⟨rfl, -⟩ := List.cons.inj split
        rw [← root rfl]
        exact user hf
      | cons j l =>
        obtain ⟨rfl, -⟩ := List.cons.inj split
        have placed := h.step.keep hr
        have linked : child (k'.memory r j) ≠ none := fun hn => by
          have := h.upto
          rw [walk, hn] at this
          cases this
        obtain ⟨d, hd⟩ := Option.ne_none_iff_exists'.mp linked
        exact step.flag_keep placed hd (h.user j l rfl hf)

/-- Where a level finds no page, the address was not mapped. -/
theorem Descends.stuck {l m : List (Fin 512)} {t : ℕ} {i : Fin 512} {code : ℤ}
    (h : Descends r (path va) flags place k l t place' k') (split : path va = l ++ i :: m)
    (absent : child (k'.memory t i) = none) (full : allocateTable.run k' = (none, k'))
    (hc : code = -2 ∨ code = -3 ∨ code = -5) : MapCase r va pa flags place k k' code := by
  have len : l.length + 1 + m.length = 4 := by
    have := congrArg List.length split
    simp only [path, List.length_append, List.length_cons, List.length_nil] at this
    omega
  have after : walk child k'.memory t (i :: m) = none := by rw [walk, absent]; rfl
  refine .noPage hc ?_ ?_ full h.leaves
  · rw [split, ← h.below i m len, after]
  · rw [split, walk_append, h.upto, Option.bind_some, after]

section Leaf

variable {pt : ℕ}

theorem Descends.leaf_child (h : Descends r (path va) flags place k (upperPath va) pt place' k') :
    child (k'.memory pt (ptIndex va)) = walk child k.memory r (path va) := by
  have split : path va = upperPath va ++ [ptIndex va] := rfl
  have := h.below (ptIndex va) [] rfl
  rw [split, ← this, walk]
  cases child (k'.memory pt (ptIndex va)) <;> rfl

/-- A store to the last table that keeps what the entry maps and allows. -/
theorem Descends.fill (h : Descends r (path va) flags place k (upperPath va) pt place' k') {e : Word}
    (keep : ∀ {d mask}, child (k'.memory pt (ptIndex va)) = some d → child e = some d ∧
      (has mask (k'.memory pt (ptIndex va)) = true → has mask e = true))
    (up : has pageUser e = true → Raised child 3 place' (has pageUser) k'.memory pt) :
    Step r place' k' place' (k'.setEntry pt (ptIndex va) e) ∧
      Grows child 3 r (path va) place k.memory place' (k'.setEntry pt (ptIndex va) e).memory := by
  have len : (upperPath va).length = 3 := rfl
  have below : upperPath va ≠ [] := List.cons_ne_nil _ _
  constructor
  · exact Step.edit h.step.sound h.here (fun nil => absurd nil below)
      (fun lt => absurd lt (by simp [len])) keep (fun lt => absurd lt (by simp [len]))
      (fun lt => absurd lt (by simp [len])) up
  · exact h.grows.trans (Grows.edit h.here (List.prefix_refl _) (fun nil => absurd nil below)
      (fun d hd => (@keep d 0 hd).1) fun lt => absurd lt (by simp [len]))

theorem Descends.leaf_user (h : Descends r (path va) flags place k (upperPath va) pt place' k')
    (hr : place r = some []) (e : Word) (hf : has pageUser flags = true) :
    has pageUser ((k'.setEntry pt (ptIndex va) e).memory r (pml4Index va)) = true := by
  have ne : r ≠ pt := by
    rintro rfl
    have := Option.some.inj ((h.step.keep hr).symm.trans h.here)
    cases this
  simp only [Kernel.setEntry]
  rw [setEntry_table _ _ _ ne]
  exact h.user _ _ rfl hf

theorem Descends.leaf_old (h : Descends r (path va) flags place k (upperPath va) pt place' k')
    (hs : Sound place k) (hr : place r = some []) {f : ℕ}
    (before : walk child k.memory r (path va) = some f) :
    walk child k.memory r (upperPath va) = some pt ∧ k'.pmm = k.pmm ∧
      k'.memory pt = k.memory pt := by
  have split : path va = upperPath va ++ [ptIndex va] := rfl
  have short : ([] : List (Fin 512)).length + (upperPath va).length ≤ 3 := le_refl 3
  rw [split, walk_append] at before
  obtain ⟨t, ht, -⟩ := Option.bind_eq_some_iff.mp before
  have same : t = pt := Option.some.inj
    ((h.step.walk_keep hs hr (Nat.le_succ_of_le short) ht).symm.trans h.upto)
  subst same
  have there : walk child k.memory r (upperPath va) ≠ none := by
    rw [ht]
    exact Option.some_ne_none t
  exact ⟨ht, h.pmm there, h.leaves (hs.placed.place_walk hr short ht) rfl⟩

theorem Descends.leaf_present (h : Descends r (path va) flags place k (upperPath va) pt place' k')
    (hs : Sound place k) (hr : place r = some [])
    (present : has pagePresent (k'.memory pt (ptIndex va)) = true) :
    ∃ result k'', (if k'.memory pt (ptIndex va) &&& pageMask = pa &&& pageMask then
        (0, k'.setEntry pt (ptIndex va)
          (k'.memory pt (ptIndex va) ||| (flags &&& (pageUser ||| pageWritable))))
      else ((-6 : ℤ), k')) = (result, k'') ∧ Step r place k place' k'' ∧
      Grows child 3 r (path va) place k.memory place' k''.memory ∧
      MapCase r va pa flags place k k'' result := by
  have before : walk child k.memory r (path va) =
      some (physicalToTable (k'.memory pt (ptIndex va))) := by
    rw [← h.leaf_child, child_of_present present]
  obtain ⟨upper, pmm, old⟩ := h.leaf_old hs hr before
  have mask : (k'.memory pt (ptIndex va) &&& pageMask = pa &&& pageMask) ↔
      physicalToTable (k'.memory pt (ptIndex va)) = physicalToTable pa :=
    ⟨fun eq => by rw [physicalToTable, eq, physicalToTable],
      fun eq => by rw [and_mask_eq, eq, ← and_mask_eq]⟩
  by_cases eq : physicalToTable (k'.memory pt (ptIndex va)) = physicalToTable pa
  · have low := low_and_mask flags (show (pageUser ||| pageWritable) &&& pageMask = 0 by decide)
    have up (hf : has pageUser (k'.memory pt (ptIndex va) |||
        (flags &&& (pageUser ||| pageWritable))) = true) :
        Raised child 3 place' (has pageUser) k'.memory pt := by
      rw [has_or, Bool.or_eq_true] at hf
      rcases hf with hf | hf
      · intro p l j hp ne lt hj
        exact h.step.sound.closed hp ne lt hj (child_of_present present) hf
      · refine h.up ?_
        rwa [has, BitVec.and_assoc, show (pageUser ||| pageWritable) &&& pageUser = pageUser
          by decide, ← has] at hf
    obtain ⟨step, grows⟩ := h.fill
      (fun hd => ⟨child_or hd low, fun hf => by rw [has_or, hf, Bool.true_or]⟩) up
    rw [if_pos (mask.mpr eq)]
    refine ⟨_, _, rfl, h.step.trans step, grows,
      .merged (before.trans (by rw [eq])) upper pmm ?_ (h.leaf_user hr _)⟩
    simp only [Kernel.setEntry, setEntry_self, old]
  · rw [if_neg (mt mask.mp eq)]
    exact ⟨_, _, rfl, h.step, h.grows, .conflict before eq pmm h.leaves⟩

theorem Descends.leaf_absent (h : Descends r (path va) flags place k (upperPath va) pt place' k')
    (hr : place r = some []) (absent : ¬has pagePresent (k'.memory pt (ptIndex va)) = true) :
    Step r place k place' (k'.setEntry pt (ptIndex va) (leafEntry pa flags)) ∧
      Grows child 3 r (path va) place k.memory place'
        (k'.setEntry pt (ptIndex va) (leafEntry pa flags)).memory ∧
      MapCase r va pa flags place k (k'.setEntry pt (ptIndex va) (leafEntry pa flags)) 0 := by
  have empty : child (k'.memory pt (ptIndex va)) = none := by
    rw [child, if_neg absent]
  have up (hf : has pageUser (leafEntry pa flags) = true) :
      Raised child 3 place' (has pageUser) k'.memory pt := by
    refine h.up ?_
    rw [leafEntry, has_or, has_or, has_and_of_disjoint pa (by decide),
      show has pageUser pagePresent = false by decide] at hf
    simpa only [Bool.false_or, Bool.or_false] using hf
  obtain ⟨step, grows⟩ := h.fill (fun hd => absurd (empty.symm.trans hd) (by simp)) up
  exact ⟨h.step.trans step, grows, .filled (h.leaf_child.symm.trans empty)
    (step.walk_keep h.step.sound (h.step.keep hr) (Nat.le_succ 3) h.upto) (setEntry_self _ _ _ _)
    (h.leaf_user hr _) h.pmm⟩

end Leaf

/-- One call: the tables grow along the path of the address, and one of the cases. -/
theorem mapPageIn_spec (hs : Sound place k) (hr : place r = some []) (va pa flags : Word) :
    ∃ result place' k', (mapPageIn r va pa flags).run k = (result, k') ∧
      Step r place k place' k' ∧ Grows child 3 r (path va) place k.memory place' k'.memory ∧
      MapCase r va pa flags place k k' result := by
  by_cases hv : va &&& (pageSize - 1) = 0
  swap
  · exact ⟨_, place, k, mapPageIn_unaligned (.inl hv), Step.refl hs, Grows.refl,
      .unaligned (.inl hv) rfl⟩
  by_cases hp : pa &&& (pageSize - 1) = 0
  swap
  · exact ⟨_, place, k, mapPageIn_unaligned (.inr hp), Step.refl hs, Grows.refl,
      .unaligned (.inr hp) rfl⟩
  rw [mapPageIn_aligned hv hp]
  have start : Descends r (path va) flags place k [] r place k := .root hs hr _
  rcases start.enter hs hr (by decide)
    ⟨[pdptIndex va, pdIndex va, ptIndex va], rfl⟩ with
    ⟨run₁, none₁, full₁⟩ | ⟨pdpt, place₁, k₁, run₁, h₁⟩
  · rw [run₁]
    exact ⟨_, _, _, rfl, start.step, start.grows, start.stuck rfl none₁ full₁ (.inl rfl)⟩
  rw [run₁]
  rcases h₁.enter hs hr (by simp) ⟨[pdIndex va, ptIndex va], rfl⟩ with
    ⟨run₂, none₂, full₂⟩ | ⟨pd, place₂, k₂, run₂, h₂⟩
  · simp only [run₂]
    exact ⟨_, _, _, rfl, h₁.step, h₁.grows, h₁.stuck rfl none₂ full₂ (.inr (.inl rfl))⟩
  simp only [run₂]
  rw [if_neg (by rw [h₂.step.sound.small h₂.here (by simp)]; decide)]
  rcases h₂.enter hs hr (by simp) ⟨[ptIndex va], rfl⟩ with
    ⟨run₃, none₃, full₃⟩ | ⟨pt, place₃, k₃, run₃, h₃⟩
  · simp only [run₃]
    exact ⟨_, _, _, rfl, h₂.step, h₂.grows, h₂.stuck rfl none₃ full₃ (.inr (.inr rfl))⟩
  simp only [run₃]
  have last : Descends r (path va) flags place k (upperPath va) pt place₃ k₃ := h₃
  by_cases present : has pagePresent (k₃.memory pt (ptIndex va)) = true
  · rw [if_pos present]
    obtain ⟨result, k', run, step, grows, done⟩ := last.leaf_present hs hr present
    exact ⟨result, place₃, k', run, step, grows, done⟩
  · rw [if_neg present]
    exact ⟨_, place₃, _, rfl, last.leaf_absent hr present⟩

end TinyOS.Memory
