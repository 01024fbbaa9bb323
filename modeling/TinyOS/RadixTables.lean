import Mathlib

set_option autoImplicit false

/-! Trees of tables kept in a memory of pages: the walk from a root along a path of
indices, the flags granted on the way, and what an update along one path leaves alone.
Roots may share the tables under them, each table at one place of the path. -/
namespace TinyOS.RadixTables

variable {P I E : Type} (child : E → Option P)

/-- The page reached; `M p i` is entry `i` of the table in page `p`. -/
def walk (M : P → I → E) : P → List I → Option P
  | p, [] => some p
  | p, i :: q => (child (M p i)).bind fun c => walk M c q

def grants (flag : E → Bool) (M : P → I → E) : P → List I → Bool
  | _, [] => true
  | p, i :: q =>
    match child (M p i) with
    | none => false
    | some c => flag (M p i) && grants flag M c q

/-- The tables and where they stand: roots at `[]`, and the table an entry `i` points
to one step below. Below the roots a table has one parent; the entries of a table at
`depth` are the leaves. -/
structure Placed (depth : ℕ) (place : P → Option (List I)) (M : P → I → E) : Prop where
  below : ∀ {p l i c}, place p = some l → l.length < depth → child (M p i) = some c →
    place c = some (l ++ [i])
  single : ∀ {p p' l l' i i' c}, place p = some l → place p' = some l' → 1 ≤ l.length →
    l.length < depth → l'.length < depth → child (M p i) = some c → child (M p' i') = some c →
    p = p'

/-- A flag on an entry is on the entry above it too, roots left out. -/
def Closed (depth : ℕ) (place : P → Option (List I)) (flag : E → Bool) (M : P → I → E) : Prop :=
  ∀ ⦃p l i c j d⦄, place p = some l → 1 ≤ l.length → l.length < depth →
    child (M p i) = some c → child (M c j) = some d → flag (M c j) = true → flag (M p i) = true

/-- Tables may have been added and entries filled along `path` from the root `r`. -/
structure Grows (depth : ℕ) (r : P) (path : List I) (place : P → Option (List I)) (M : P → I → E)
    (place' : P → Option (List I)) (M' : P → I → E) : Prop where
  keep : ∀ {p l}, place p = some l → place' p = some l
  child_keep : ∀ {p l i c}, place p = some l → child (M p i) = some c → child (M' p i) = some c
  off : ∀ {p l i}, place p = some l → ¬(l ++ [i]) <+: path → M' p i = M p i
  roots : ∀ {p}, place p = some [] → p ≠ r → M' p = M p
  fresh : ∀ {p l i c}, place p = none → place' p = some l → child (M' p i) = some c →
    (l ++ [i]) <+: path
  link : ∀ {p l i c}, place' p = some l → l.length < depth → child (M' p i) = some c →
    place p = some l ∧ child (M p i) = some c ∨ place c = none

variable {child} {depth : ℕ} {place place' place'' : P → Option (List I)} {M M' M'' : P → I → E}
variable {r : P} {path : List I} {flag : E → Bool}

theorem walk_append (p : P) (q q' : List I) :
    walk child M p (q ++ q') = (walk child M p q).bind fun c => walk child M c q' := by
  induction q generalizing p with
  | nil => rfl
  | cons i q ih =>
    simp only [List.cons_append, walk]
    cases child (M p i) with
    | none => rfl
    | some c => exact ih c

theorem Placed.place_walk (h : Placed child depth place M) {p c : P} {l q : List I}
    (hp : place p = some l) (le : l.length + q.length ≤ depth)
    (hw : walk child M p q = some c) : place c = some (l ++ q) := by
  induction q generalizing p l with
  | nil =>
    cases hw
    rw [hp, List.append_nil]
  | cons i q ih =>
    simp only [List.length_cons] at le
    obtain ⟨d, hd, hw⟩ := Option.bind_eq_some_iff.mp hw
    have hq := h.below hp (by omega) hd
    have hc := ih hq (by simp only [List.length_append, List.length_singleton]; omega) hw
    rw [hc, List.append_assoc, List.singleton_append]

theorem Grows.refl : Grows child depth r path place M place M where
  keep h := h
  child_keep _ h := h
  off _ _ := rfl
  roots _ _ := rfl
  fresh hn hs := absurd (hn.symm.trans hs) (by simp)
  link hp _ hc := .inl ⟨hp, hc⟩

theorem Grows.trans (h : Grows child depth r path place M place' M')
    (h' : Grows child depth r path place' M' place'' M'') :
    Grows child depth r path place M place'' M'' where
  keep hp := h'.keep (h.keep hp)
  child_keep hp hc := h'.child_keep (h.keep hp) (h.child_keep hp hc)
  off hp hn := (h'.off (h.keep hp) hn).trans (h.off hp hn)
  roots hp ne := (h'.roots (h.keep hp) ne).trans (h.roots hp ne)
  fresh := by
    intro p l i c hn hp hc
    cases hp' : place' p with
    | none => exact h'.fresh hp' hp hc
    | some l' =>
      obtain rfl : l' = l := Option.some.inj ((h'.keep hp').symm.trans hp)
      by_contra off
      rw [h'.off hp' off] at hc
      exact off (h.fresh hn hp' hc)
  link := by
    intro p l i c hp lt hc
    have unplaced : place' c = none → place c = none := fun hn => by
      cases hc' : place c with
      | none => rfl
      | some k => exact absurd (hn.symm.trans (h.keep hc')) (by simp)
    rcases h'.link hp lt hc with ⟨hp', hc'⟩ | hn
    · exact h.link hp' lt hc'
    · exact .inr (unplaced hn)

theorem Placed.walk_keep (hM : Placed child depth place M)
    (keep : ∀ {p l i c}, place p = some l → child (M p i) = some c → child (M' p i) = some c)
    {p c : P} {l q : List I} (hp : place p = some l) (le : l.length + q.length ≤ depth+1)
    (hw : walk child M p q = some c) : walk child M' p q = some c := by
  induction q generalizing p l with
  | nil => exact hw
  | cons i q ih =>
    obtain ⟨d, hd, hw⟩ := Option.bind_eq_some_iff.mp hw
    simp only [walk, keep hp hd, Option.bind_some]
    cases q with
    | nil => exact hw
    | cons j q =>
      simp only [List.length_cons] at le
      refine ih (hM.below hp (by omega) hd) ?_ hw
      simp only [List.length_append, List.length_cons, List.length_nil]
      omega

theorem Grows.walk_fresh (h : Grows child depth r path place M place' M')
    (hM' : Placed child depth place' M') {p : P} {l q : List I} {i : I} (hn : place p = none)
    (hp : place' p = some l) (le : l.length + q.length = depth)
    (off : ¬(l ++ i :: q) <+: path) : walk child M' p (i :: q) = none := by
  induction q generalizing p l i with
  | nil =>
    cases hc : child (M' p i) with
    | none => simp only [walk, hc, Option.bind_none]
    | some c => exact absurd (h.fresh hn hp hc) off
  | cons j q ih =>
    cases hc : child (M' p i) with
    | none => simp only [walk, hc, Option.bind_none]
    | some c =>
      simp only [List.length_cons] at le
      have hn' : place c = none := by
        rcases h.link hp (by omega) hc with ⟨hp', _⟩ | hn'
        · exact absurd (hn.symm.trans hp') (by simp)
        · exact hn'
      have off' : ¬(l ++ [i] ++ j :: q) <+: path := by
        rwa [List.append_assoc, List.singleton_append]
      have le' : (l ++ [i]).length + q.length = depth := by
        simp only [List.length_append, List.length_singleton]
        omega
      rw [walk, hc]
      exact ih hn' (hM'.below hp (by omega) hc) le' off'

theorem Grows.walk_off (h : Grows child depth r path place M place' M')
    (hM : Placed child depth place M) (hM' : Placed child depth place' M') {p : P} {l q : List I}
    {i : I} (hp : place p = some l) (le : l.length + q.length = depth)
    (off : ¬(l ++ i :: q) <+: path) : walk child M' p (i :: q) = walk child M p (i :: q) := by
  induction q generalizing p l i with
  | nil => rw [walk, walk, h.off hp off]; rfl
  | cons j q ih =>
    simp only [List.length_cons] at le
    have off' : ¬(l ++ [i] ++ j :: q) <+: path := by
      rwa [List.append_assoc, List.singleton_append]
    have le' : (l ++ [i]).length + q.length = depth := by
      simp only [List.length_append, List.length_singleton]
      omega
    cases hc : child (M p i) with
    | some c =>
      rw [walk, walk, hc, h.child_keep hp hc]
      exact ih (hM.below hp (by omega) hc) le' off'
    | none =>
      rw [walk, walk, hc]
      cases hc' : child (M' p i) with
      | none => rfl
      | some c =>
        have hn : place c = none := by
          rcases h.link (h.keep hp) (by omega) hc' with ⟨_, hk⟩ | hn
          · exact absurd (hc.symm.trans hk) (by simp)
          · exact hn
        exact h.walk_fresh hM' hn (hM'.below (h.keep hp) (by omega) hc') le' off'

theorem walk_of_grants {p : P} {q : List I} (h : grants child flag M p q = true) :
    ∃ c, walk child M p q = some c := by
  induction q generalizing p with
  | nil => exact ⟨p, rfl⟩
  | cons i q ih =>
    cases hc : child (M p i) with
    | none => simp only [grants, hc, Bool.false_eq_true] at h
    | some c =>
      simp only [grants, hc, Bool.and_eq_true] at h
      simpa only [walk, hc, Option.bind_some] using ih h.2

theorem Placed.grants_keep (hM : Placed child depth place M)
    (keep : ∀ {p l i c}, place p = some l → child (M p i) = some c →
      child (M' p i) = some c ∧ (flag (M p i) = true → flag (M' p i) = true))
    {p : P} {l q : List I} (hp : place p = some l) (le : l.length + q.length ≤ depth+1)
    (hg : grants child flag M p q = true) : grants child flag M' p q = true := by
  induction q generalizing p l with
  | nil => rfl
  | cons i q ih =>
    cases hc : child (M p i) with
    | none => simp only [grants, hc, Bool.false_eq_true] at hg
    | some c =>
      simp only [grants, hc, Bool.and_eq_true] at hg
      obtain ⟨hk, hf⟩ := keep hp hc
      simp only [grants, hk, hf hg.1, Bool.true_and]
      cases q with
      | nil => rfl
      | cons j q =>
        simp only [List.length_cons] at le
        refine ih (hM.below hp (by omega) hc) ?_ hg.2
        simp only [List.length_append, List.length_cons, List.length_nil]
        omega

theorem grants_tables {p : P} {q : List I}
    (same : ∀ {l i t}, (l ++ [i]) <+: q → walk child M p l = some t → M' t = M t) :
    grants child flag M' p q = grants child flag M p q := by
  induction q generalizing p with
  | nil => rfl
  | cons j q ih =>
    have here : M' p = M p := same (l := []) (i := j) ⟨q, rfl⟩ rfl
    rw [grants, grants, here]
    cases hc : child (M p j) with
    | none => rfl
    | some c =>
      dsimp only
      rw [ih fun {l i t} on hw => same (l := j :: l) (i := i) ?_ ?_]
      · exact (List.cons_prefix_cons).mpr ⟨rfl, on⟩
      · rw [walk, hc]
        exact hw

theorem walk_tables {p : P} {q : List I}
    (same : ∀ {l i t}, (l ++ [i]) <+: q → walk child M p l = some t → M' t = M t) :
    walk child M' p q = walk child M p q := by
  induction q generalizing p with
  | nil => rfl
  | cons j q ih =>
    have here : M' p = M p := same (l := []) (i := j) ⟨q, rfl⟩ rfl
    rw [walk, walk, here]
    cases hc : child (M p j) with
    | none => rfl
    | some c =>
      refine ih fun {l i t} on hw => same (l := j :: l) (i := i) ?_ ?_
      · obtain ⟨r, rfl⟩ := on
        exact ⟨r, rfl⟩
      · rw [walk, hc]
        exact hw

theorem grants_append (p : P) (q q' : List I) : grants child flag M p (q ++ q') =
    match walk child M p q with
    | none => false
    | some c => grants child flag M p q && grants child flag M c q' := by
  induction q generalizing p with
  | nil => rfl
  | cons i q ih =>
    rw [List.cons_append, grants, walk]
    cases hc : child (M p i) with
    | none => rfl
    | some c =>
      dsimp only [Option.bind_some]
      rw [ih]
      cases walk child M c q with
      | none => rw [Bool.and_false]
      | some d => simp only [grants, hc, Bool.and_assoc]

/-- Where all entries above the leaves have the flag, so does every walk to a leaf. -/
theorem Placed.grants_upper (hM : Placed child depth place M)
    (upper : ∀ {p l i c}, place p = some l → l.length < depth → child (M p i) = some c →
      flag (M p i) = true)
    {p c : P} {l q : List I} (hp : place p = some l) (le : l.length + q.length ≤ depth)
    (hw : walk child M p q = some c) : grants child flag M p q = true := by
  induction q generalizing p l with
  | nil => rfl
  | cons i q ih =>
    simp only [List.length_cons] at le
    obtain ⟨d, hd, hw⟩ := Option.bind_eq_some_iff.mp hw
    have below := hM.below hp (by omega) hd
    simp only [grants, hd, upper hp (by omega) hd, Bool.true_and]
    exact ih below (by simp only [List.length_append, List.length_singleton]; omega) hw

/-- Where the flag is closed upwards, the last entry alone decides below a root. -/
theorem Closed.grants_iff (hM : Placed child depth place M) (hf : Closed child depth place flag M)
    {p t : P} {l q : List I} {i : I} (hp : place p = some l) (ne : 1 ≤ l.length)
    (le : l.length + q.length = depth) (hw : walk child M p q = some t) :
    grants child flag M p (q ++ [i]) = true ↔
      ∃ d, child (M t i) = some d ∧ flag (M t i) = true := by
  induction q generalizing p l with
  | nil =>
    cases hw
    cases hc : child (M t i) with
    | none => simp [grants, hc]
    | some c => simp [grants, hc]
  | cons j q ih =>
    simp only [List.length_cons] at le
    obtain ⟨c, hc, hw⟩ := Option.bind_eq_some_iff.mp hw
    have hp' := hM.below hp (by omega) hc
    have below := ih hp' (by simp) (by
      simp only [List.length_append, List.length_singleton]
      omega) hw
    rw [← below, List.cons_append, grants, hc]
    simp only [Bool.and_eq_true, and_iff_right_iff_imp]
    intro hg
    -- the entry below has the flag, so this one does
    cases q with
    | nil =>
      simp only [List.nil_append, grants] at hg
      cases hd : child (M c i) with
      | none => simp [hd] at hg
      | some d =>
        simp only [hd, Bool.and_true] at hg
        exact hf hp ne (by omega) hc hd hg
    | cons m q =>
      simp only [List.cons_append, grants] at hg
      cases hd : child (M c m) with
      | none => simp [hd] at hg
      | some d =>
        simp only [hd, Bool.and_eq_true] at hg
        exact hf hp ne (by omega) hc hd hg.1

/-- All entries that point to the table `t` have the flag, those of roots left out. -/
def Raised (child : E → Option P) (depth : ℕ) (place : P → Option (List I)) (flag : E → Bool)
    (M : P → I → E) (t : P) : Prop :=
  ∀ ⦃p l i⦄, place p = some l → 1 ≤ l.length → l.length < depth → child (M p i) = some t →
    flag (M p i) = true

theorem Placed.raised (hM : Placed child depth place M) {t c : P} {l : List I} {i : I}
    (ht : place t = some l) (lt : l.length < depth) (hc : child (M t i) = some c)
    (hf : flag (M t i) = true) : Raised child depth place flag M c := by
  intro p k j hp ne lt' hj
  have hp' := hM.below hp lt' hj
  have ht' := hM.below ht lt hc
  have same : k ++ [j] = l ++ [i] := Option.some.inj (hp'.symm.trans ht')
  obtain ⟨hk, hji⟩ := List.append_inj' same rfl
  obtain rfl : p = t := hM.single hp ht ne lt' lt hj hc
  obtain rfl : j = i := by simpa using hji
  exact hf

theorem Placed.restrict (hM : Placed child depth place M) (S : P → Prop) [DecidablePred S]
    (closed : ∀ {p l i c}, S p → place p = some l → l.length < depth → child (M p i) = some c → S c) :
    Placed child depth (fun p => if S p then place p else none) M := by
  have inside {p : P} {l : List I} (h : (if S p then place p else none) = some l) :
      S p ∧ place p = some l := by
    split_ifs at h with hS
    exact ⟨hS, h⟩
  constructor
  · intro p l i c hp lt hc
    obtain ⟨hS, hp⟩ := inside hp
    rw [if_pos (closed hS hp lt hc)]
    exact hM.below hp lt hc
  · intro p p' l l' i i' c hp hp' ne lt lt' hc hc'
    exact hM.single (inside hp).2 (inside hp').2 ne lt lt' hc hc'

theorem Placed.congr (hM : Placed child depth place M)
    (same : ∀ {p l}, place p = some l → M' p = M p) : Placed child depth place M' := by
  constructor
  · intro p l i c hp lt hc
    rw [same hp] at hc
    exact hM.below hp lt hc
  · intro p p' l l' i i' c hp hp' ne lt lt' hc hc'
    rw [same hp] at hc
    rw [same hp'] at hc'
    exact hM.single hp hp' ne lt lt' hc hc'

theorem Closed.congr (hM : Placed child depth place M) (hf : Closed child depth place flag M)
    (same : ∀ {p l}, place p = some l → M' p = M p) : Closed child depth place flag M' := by
  intro p l i c j d hp ne lt hc hd hfl
  rw [same hp] at hc ⊢
  rw [same (hM.below hp lt hc)] at hd hfl
  exact hf hp ne lt hc hd hfl

theorem Placed.walk_congr (hM : Placed child depth place M)
    (same : ∀ {p l}, place p = some l → M' p = M p) {p : P} {l q : List I} (hp : place p = some l)
    (le : l.length + q.length ≤ depth+1) : walk child M' p q = walk child M p q := by
  induction q generalizing p l with
  | nil => rfl
  | cons i q ih =>
    rw [walk, walk, same hp]
    cases hc : child (M p i) with
    | none => rfl
    | some c =>
      cases q with
      | nil => rfl
      | cons j q =>
        simp only [List.length_cons] at le
        refine ih (hM.below hp (by omega) hc) ?_
        simp only [List.length_append, List.length_cons, List.length_nil]
        omega

section Updates
variable [DecidableEq P] {t c : P} {l : List I} {i : I} {e : E} {z : I → E}

/-- A page becomes a table: an empty one, or a root over tables that are there. -/
theorem Placed.add {k : List I} (hM : Placed child depth place M) (hn : place c = none)
    (hz : ∀ {j d}, child (z j) = some d → k = [] ∧ place d = some [j]) :
    Placed child depth (Function.update place c (some k)) (Function.update M c z) := by
  have old {p : P} {k' : List I} {j : I} {d : P} (hp : p ≠ c) (lt : k'.length < depth)
      (hk : Function.update place c (some k) p = some k')
      (hc : child (Function.update M c z p j) = some d) :
      place p = some k' ∧ child (M p j) = some d := by
    rw [Function.update_of_ne hp] at hk hc
    exact ⟨hk, hc⟩
  have placed {d : P} {k' : List I} (hd : place d = some k') :
      Function.update place c (some k) d = some k' := by
    rw [Function.update_of_ne, hd]
    rintro rfl
    exact absurd (hn.symm.trans hd) (by simp)
  constructor
  · intro p k' j d hp lt hc
    by_cases h : p = c
    · subst h
      rw [Function.update_self] at hp hc
      cases hp
      obtain ⟨rfl, hd⟩ := hz hc
      exact placed hd
    · obtain ⟨hp, hc⟩ := old h lt hp hc
      exact placed (hM.below hp lt hc)
  · intro p p' k₁ k₂ j j' d hp hp' ne lt lt' hc hc'
    have root {q : P} {k' : List I} {j : I} (hq : q = c)
        (hk : Function.update place c (some k) q = some k')
        (hc : child (Function.update M c z q j) = some d) : k' = [] ∧ place d = some [j] := by
      subst hq
      rw [Function.update_self] at hk hc
      cases hk
      exact hz hc
    by_cases h : p = c
    · obtain ⟨rfl, _⟩ := root h hp hc
      simp at ne
    · obtain ⟨hp, hc⟩ := old h lt hp hc
      by_cases h' : p' = c
      · obtain ⟨_, hd⟩ := root h' hp' hc'
        have same := Option.some.inj (hd.symm.trans (hM.below hp lt hc))
        have := congrArg List.length same
        simp only [List.length_singleton, List.length_append] at this
        omega
      · obtain ⟨hp', hc'⟩ := old h' lt' hp' hc'
        exact hM.single hp hp' ne lt lt' hc hc'

theorem Closed.add {k : List I} (hM : Placed child depth place M)
    (hf : Closed child depth place flag M) (hn : place c = none)
    (hz : ∀ {j d}, child (z j) = some d → k = []) :
    Closed child depth (Function.update place c (some k)) flag (Function.update M c z) := by
  intro p k' j d m d' hp ne lt hc hd hfl
  by_cases h : p = c
  · subst h
    rw [Function.update_self] at hp hc
    cases hp
    rw [hz hc] at ne
    simp at ne
  · rw [Function.update_of_ne h] at hp hc ⊢
    have hd' := hM.below hp lt hc
    have : d ≠ c := by
      rintro rfl
      exact absurd (hn.symm.trans hd') (by simp)
    rw [Function.update_of_ne this] at hd hfl
    exact hf hp ne lt hc hd hfl

variable [DecidableEq I]

def setEntry (M : P → I → E) (t : P) (i : I) (e : E) : P → I → E :=
  Function.update M t (Function.update (M t) i e)

@[simp] theorem setEntry_self (M : P → I → E) (t : P) (i : I) (e : E) : setEntry M t i e t i = e := by
  simp only [setEntry, Function.update_self]

theorem setEntry_table {p : P} (M : P → I → E) (i : I) (e : E) (ne : p ≠ t) :
    setEntry M t i e p = M p := Function.update_of_ne ne _ _

theorem setEntry_ne {p : P} {j : I} (M : P → I → E) (e : E) (ne : p = t → j ≠ i) :
    setEntry M t i e p j = M p j := by
  by_cases h : p = t
  · subst h
    rw [setEntry, Function.update_self, Function.update_of_ne (ne rfl)]
  · rw [setEntry_table M i e h]

/-- An entry changes and leads where it led; only a leaf may be filled. -/
theorem Placed.edit (hM : Placed child depth place M) (ht : place t = some l)
    (same : l.length < depth → child e = child (M t i)) :
    Placed child depth place (setEntry M t i e) := by
  have entry {p : P} {k : List I} {j : I} (hp : place p = some k) (lt : k.length < depth) :
      child (setEntry M t i e p j) = child (M p j) := by
    by_cases h : p = t ∧ j = i
    · obtain ⟨rfl, rfl⟩ := h
      rw [setEntry_self]
      rw [ht] at hp
      cases hp
      exact same lt
    · rw [setEntry_ne M e fun hp hj => h ⟨hp, hj⟩]
  constructor
  · intro p k j d hp lt hc
    rw [entry hp lt] at hc
    exact hM.below hp lt hc
  · intro p p' k k' j j' d hp hp' ne lt lt' hc hc'
    rw [entry hp lt] at hc
    rw [entry hp' lt'] at hc'
    exact hM.single hp hp' ne lt lt' hc hc'

theorem Grows.edit (ht : place t = some l) (on : (l ++ [i]) <+: path) (root : l = [] → t = r)
    (keep : ∀ d, child (M t i) = some d → child e = some d)
    (same : l.length < depth → child e = child (M t i)) :
    Grows child depth r path place M place (setEntry M t i e) where
  keep h := h
  child_keep := by
    intro p k j d _ hc
    by_cases h : p = t ∧ j = i
    · obtain ⟨rfl, rfl⟩ := h
      rw [setEntry_self]
      exact keep d hc
    · rw [setEntry_ne M e fun hp hj => h ⟨hp, hj⟩]
      exact hc
  off := by
    intro p k j hp off
    refine setEntry_ne M e ?_
    rintro rfl rfl
    rw [ht] at hp
    cases hp
    exact off on
  roots := by
    intro p hp ne
    refine setEntry_table M i e ?_
    rintro rfl
    rw [ht] at hp
    exact ne (root (Option.some.inj hp))
  fresh hn hs := absurd (hn.symm.trans hs) (by simp)
  link := by
    intro p k j d hp lt hc
    refine .inl ⟨hp, ?_⟩
    by_cases h : p = t ∧ j = i
    · obtain ⟨rfl, rfl⟩ := h
      rw [setEntry_self] at hc
      rw [ht] at hp
      cases hp
      rwa [same lt] at hc
    · rwa [setEntry_ne M e fun hp hj => h ⟨hp, hj⟩] at hc

theorem Placed.walk_setEntry (hM : Placed child depth place M) (ht : place t = some l) {p : P}
    {k q : List I} (hp : place p = some k) (le : k.length + q.length ≤ depth+1)
    (off : ¬(l ++ [i]) <+: k ++ q) : walk child (setEntry M t i e) p q = walk child M p q := by
  induction q generalizing p k with
  | nil => rfl
  | cons j q ih =>
    have entry : setEntry M t i e p j = M p j := by
      refine setEntry_ne M e ?_
      rintro rfl rfl
      rw [ht] at hp
      cases hp
      exact off ⟨q, by rw [List.append_assoc, List.singleton_append]⟩
    rw [walk, walk, entry]
    cases hc : child (M p j) with
    | none => rfl
    | some c =>
      cases q with
      | nil => rfl
      | cons m q =>
        simp only [List.length_cons] at le
        refine ih (hM.below hp (by omega) hc) ?_ ?_
        · simp only [List.length_append, List.length_cons, List.length_nil]
          omega
        · rwa [List.append_assoc, List.singleton_append]

theorem Closed.edit (hM : Placed child depth place M) (hf : Closed child depth place flag M)
    (ht : place t = some l) (same : l.length < depth → child e = child (M t i))
    (mono : l.length < depth → flag (M t i) = true → flag e = true)
    (up : flag e = true → Raised child depth place flag M t) :
    Closed child depth place flag (setEntry M t i e) := by
  intro p k j d m d' hp ne lt hc hd hfl
  have away : d ≠ p := by
    rintro rfl
    have hc' : child (M d j) = some d := by
      by_cases h : d = t ∧ j = i
      · obtain ⟨rfl, rfl⟩ := h
        rw [setEntry_self] at hc
        rw [ht] at hp
        cases hp
        rwa [same lt] at hc
      · rwa [setEntry_ne M e fun hp hj => h ⟨hp, hj⟩] at hc
    have := Option.some.inj (hp.symm.trans (hM.below hp lt hc'))
    simpa using congrArg List.length this
  by_cases h : p = t ∧ j = i
  · obtain ⟨rfl, rfl⟩ := h
    rw [ht] at hp
    cases hp
    rw [setEntry_self] at hc ⊢
    rw [same lt] at hc
    rw [setEntry_table M j e away] at hd hfl
    exact mono lt (hf ht ne lt hc hd hfl)
  · rw [setEntry_ne M e fun hp hj => h ⟨hp, hj⟩] at hc ⊢
    by_cases h' : d = t ∧ m = i
    · obtain ⟨rfl, rfl⟩ := h'
      rw [setEntry_self] at hfl
      exact up hfl hp ne lt hc
    · rw [setEntry_ne M e fun hp hj => h' ⟨hp, hj⟩] at hd hfl
      exact hf hp ne lt hc hd hfl

/-- An empty table takes the place an entry is filled to point to. -/
theorem Placed.install (hM : Placed child depth place M) (ht : place t = some l)
    (hn : place c = none)
    (he : child e = some c) (hz : ∀ j, child (z j) = none) :
    Placed child depth (Function.update place c (some (l ++ [i])))
      (setEntry (Function.update M c z) t i e) := by
  have hadd : Placed child depth (Function.update place c (some (l ++ [i])))
      (Function.update M c z) := hM.add hn fun h => absurd h (by simp [hz])
  have htc : t ≠ c := by
    rintro rfl
    exact absurd (hn.symm.trans ht) (by simp)
  have ht' : Function.update place c (some (l ++ [i])) t = some l := by
    rw [Function.update_of_ne htc, ht]
  have alone {p : P} {k : List I} {j : I}
      (hp : Function.update place c (some (l ++ [i])) p = some k) (lt : k.length < depth)
      (hc : child (Function.update M c z p j) = some c) : False := by
    by_cases h : p = c
    · subst h
      rw [Function.update_self, hz] at hc
      cases hc
    · rw [Function.update_of_ne h] at hp hc
      exact absurd (hn.symm.trans (hM.below hp lt hc)) (by simp)
  have entry {p d : P} {k : List I} {j : I}
      (hp : Function.update place c (some (l ++ [i])) p = some k)
      (hc : child (setEntry (Function.update M c z) t i e p j) = some d) :
      p = t ∧ j = i ∧ d = c ∨ child (Function.update M c z p j) = some d := by
    by_cases h : p = t ∧ j = i
    · obtain ⟨rfl, rfl⟩ := h
      rw [setEntry_self, he] at hc
      exact .inl ⟨rfl, rfl, (Option.some.inj hc).symm⟩
    · rw [setEntry_ne _ e fun hp hj => h ⟨hp, hj⟩] at hc
      exact .inr hc
  constructor
  · intro p k j d hp lt' hc
    rcases entry hp hc with ⟨rfl, rfl, rfl⟩ | hc
    · rw [ht'] at hp
      cases hp
      rw [Function.update_self]
    · exact hadd.below hp lt' hc
  · intro p p' k k' j j' d hp hp' ne lt₁ lt₂ hc hc'
    rcases entry hp hc with ⟨rfl, rfl, rfl⟩ | old
    · rcases entry hp' hc' with ⟨rfl, -, -⟩ | old'
      · rfl
      · exact (alone hp' lt₂ old').elim
    · rcases entry hp' hc' with ⟨rfl, rfl, rfl⟩ | old'
      · exact (alone hp lt₁ old).elim
      · exact hadd.single hp hp' ne lt₁ lt₂ old old'

theorem Grows.install (ht : place t = some l)
    (absent : child (M t i) = none) (hn : place c = none) (he : child e = some c)
    (hz : ∀ j, child (z j) = none) (on : (l ++ [i]) <+: path) (root : l = [] → t = r) :
    Grows child depth r path place M (Function.update place c (some (l ++ [i])))
      (setEntry (Function.update M c z) t i e) := by
  have htc : t ≠ c := by
    rintro rfl
    exact absurd (hn.symm.trans ht) (by simp)
  have ne {p : P} {k : List I} (hp : place p = some k) : p ≠ c := by
    rintro rfl
    exact absurd (hn.symm.trans hp) (by simp)
  constructor
  · intro p k hp
    rw [Function.update_of_ne (ne hp), hp]
  · intro p k j d hp hc
    rw [setEntry_ne, Function.update_of_ne (ne hp), hc]
    rintro rfl rfl
    exact absurd (absent.symm.trans hc) (by simp)
  · intro p k j hp off
    rw [setEntry_ne, Function.update_of_ne (ne hp)]
    rintro rfl rfl
    rw [ht] at hp
    cases hp
    exact off on
  · intro p hp hr
    rw [setEntry_table, Function.update_of_ne (ne hp)]
    rintro rfl
    rw [ht] at hp
    exact hr (root (Option.some.inj hp))
  · intro p k j d hp hp' hc
    have h : p = c := by
      by_contra h
      rw [Function.update_of_ne h] at hp'
      exact absurd (hp.symm.trans hp') (by simp)
    subst h
    rw [setEntry_table _ _ _ htc.symm, Function.update_self, hz] at hc
    cases hc
  · intro p k j d hp lt' hc
    by_cases h : p = t ∧ j = i
    · obtain ⟨rfl, rfl⟩ := h
      rw [setEntry_self, he] at hc
      cases hc
      exact .inr hn
    · rw [setEntry_ne _ e fun hp hj => h ⟨hp, hj⟩] at hc
      by_cases h' : p = c
      · subst h'
        rw [Function.update_self, hz] at hc
        cases hc
      · rw [Function.update_of_ne h'] at hp hc
        exact .inl ⟨hp, hc⟩

theorem Closed.install (hM : Placed child depth place M) (hf : Closed child depth place flag M)
    (ht : place t = some l) (hn : place c = none) (he : child e = some c)
    (hz : ∀ j, child (z j) = none)
    (up : flag e = true → Raised child depth place flag M t) :
    Closed child depth (Function.update place c (some (l ++ [i]))) flag
      (setEntry (Function.update M c z) t i e) := by
  have hadd : Closed child depth (Function.update place c (some (l ++ [i]))) flag
      (Function.update M c z) := hf.add hM hn fun h => absurd h (by simp [hz])
  have htc : t ≠ c := by
    rintro rfl
    exact absurd (hn.symm.trans ht) (by simp)
  intro p k j d m d' hp ne lt' hc hd hfl
  by_cases h : p = t ∧ j = i
  · obtain ⟨rfl, rfl⟩ := h
    rw [setEntry_self, he] at hc
    cases hc
    rw [setEntry_table _ _ _ htc.symm, Function.update_self, hz] at hd
    cases hd
  · rw [setEntry_ne _ e fun hp hj => h ⟨hp, hj⟩] at hc ⊢
    have hpc : p ≠ c := by
      rintro rfl
      rw [Function.update_self, hz] at hc
      cases hc
    by_cases h' : d = t ∧ m = i
    · obtain ⟨rfl, rfl⟩ := h'
      rw [setEntry_self] at hfl
      rw [Function.update_of_ne hpc] at hp hc ⊢
      exact up hfl hp ne lt' hc
    · rw [setEntry_ne _ e fun hp hj => h' ⟨hp, hj⟩] at hd hfl
      exact hadd hp ne lt' hc hd hfl

end Updates

end TinyOS.RadixTables
