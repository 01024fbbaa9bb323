import TinyOS.RadixTables

set_option autoImplicit false

/-! Trees of tables whose leaves may stand at several depths: what an entry says depends on the
depth of its table. -/
namespace TinyOS.LeafTrees
open RadixTables

inductive Link (P V : Type) where
  | absent
  | table (c : P)
  | leaf (v : V)

variable {P I E V : Type} (slot : ℕ → E → Link P V)

def lookup (M : P → I → E) : ℕ → P → List I → Option V
  | _, _, [] => none
  | d, p, i :: q =>
    match slot d (M p i) with
    | .absent => none
    | .table c => lookup M (d+1) c q
    | .leaf v => some v

def tableAt (M : P → I → E) : ℕ → P → List I → Option P
  | _, p, [] => some p
  | d, p, i :: q =>
    match slot d (M p i) with
    | .table c => tableAt M (d+1) c q
    | _ => none

/-- Each table stands one step below its entry; roots stand at `[]`. -/
def Stands (place : P → Option (List I)) (M : P → I → E) : Prop :=
  ∀ ⦃p l i c⦄, place p = some l → slot l.length (M p i) = .table c → place c = some (l ++ [i])

def Bare (place : P → Option (List I)) (s : Link P V) : Prop :=
  s = .absent ∨ ∃ c, s = .table c ∧ place c = none

structure Widened (place : P → Option (List I)) (M : P → I → E)
    (place' : P → Option (List I)) (M' : P → I → E) : Prop where
  keep : ∀ {p l}, place p = some l → place' p = some l
  entry : ∀ {p l} i, place p = some l → slot l.length (M' p i) = slot l.length (M p i) ∨
    slot l.length (M p i) = .absent ∧ Bare place (slot l.length (M' p i))
  fresh : ∀ {p l} i, place p = none → place' p = some l → Bare place (slot l.length (M' p i))
  stands : Stands slot place' M'

variable {slot} {place place' place'' : P → Option (List I)} {M M' M'' : P → I → E}
variable {p t c : P} {l q : List I} {i : I} {e : E} {d : ℕ}

theorem lookup_absent (h : slot d (M p i) = .absent) : lookup slot M d p (i :: q) = none := by
  rw [lookup, h]

theorem lookup_table (h : slot d (M p i) = .table c) :
    lookup slot M d p (i :: q) = lookup slot M (d+1) c q := by
  rw [lookup, h]

theorem lookup_leaf {v : V} (h : slot d (M p i) = .leaf v) :
    lookup slot M d p (i :: q) = some v := by
  rw [lookup, h]

theorem tableAt_table (h : slot d (M p i) = .table c) :
    tableAt slot M d p (i :: q) = tableAt slot M (d+1) c q := by
  rw [tableAt, h]

theorem tableAt_cons (h : tableAt slot M d p (i :: q) = some t) :
    ∃ c, slot d (M p i) = .table c ∧ tableAt slot M (d+1) c q = some t := by
  rw [tableAt] at h
  cases s : slot d (M p i) with
  | absent => rw [s] at h; cases h
  | leaf v => rw [s] at h; cases h
  | table c =>
    rw [s] at h
    exact ⟨c, rfl, h⟩

theorem lookup_append {q' : List I} (h : tableAt slot M d p q = some t) :
    lookup slot M d p (q ++ q') = lookup slot M (d+q.length) t q' := by
  induction q generalizing d p with
  | nil =>
    obtain rfl := Option.some.inj h
    rfl
  | cons j q ih =>
    obtain ⟨c, s, below⟩ := tableAt_cons h
    rw [List.cons_append, lookup_table s, ih below, List.length_cons, Nat.add_assoc,
      Nat.add_comm 1]

theorem tableAt_append (M : P → I → E) (d : ℕ) (p : P) (q q' : List I) :
    tableAt slot M d p (q ++ q') =
      (tableAt slot M d p q).bind fun t => tableAt slot M (d+q.length) t q' := by
  induction q generalizing d p with
  | nil => rfl
  | cons j q ih =>
    rw [List.cons_append, tableAt, tableAt]
    cases slot d (M p j) with
    | absent => rfl
    | leaf v => rfl
    | table c =>
      dsimp only
      rw [ih, List.length_cons, Nat.add_assoc, Nat.add_comm 1]

theorem Bare.earlier {s : Link P V} (h : Bare place' s)
    (keep : ∀ {p l}, place p = some l → place' p = some l) : Bare place s := by
  rcases h with none | ⟨c, here, new⟩
  · exact .inl none
  · refine .inr ⟨c, here, ?_⟩
    cases old : place c with
    | none => rfl
    | some k =>
      rw [keep old] at new
      cases new

theorem Widened.refl (h : Stands slot place M) : Widened slot place M place M where
  keep hp := hp
  entry _ _ := .inl rfl
  fresh _ hn hp := by
    rw [hn] at hp
    cases hp
  stands := h

theorem Widened.trans (h : Widened slot place M place' M')
    (h' : Widened slot place' M' place'' M'') : Widened slot place M place'' M'' where
  keep hp := h'.keep (h.keep hp)
  entry := by
    intro p l i hp
    rcases h.entry i hp with same | ⟨none, bare⟩
    · rcases h'.entry i (h.keep hp) with same' | ⟨none, bare⟩
      · exact .inl (same'.trans same)
      · exact .inr ⟨same.symm.trans none, bare.earlier h.keep⟩
    · rcases h'.entry i (h.keep hp) with same' | ⟨-, bare'⟩
      · rw [← same'] at bare
        exact .inr ⟨none, bare⟩
      · exact .inr ⟨none, bare'.earlier h.keep⟩
  fresh := by
    intro p l i hn hp
    cases between : place' p with
    | none => exact (h'.fresh i between hp).earlier h.keep
    | some k =>
      obtain rfl : k = l := Option.some.inj ((h'.keep between).symm.trans hp)
      rcases h'.entry i between with same | ⟨-, bare⟩
      · rw [same]
        exact h.fresh i hn between
      · exact bare.earlier h.keep
  stands := h'.stands

theorem Widened.lookup_fresh (h : Widened slot place M place' M') (hn : place p = none)
    (hp : place' p = some l) : lookup slot M' l.length p q = none := by
  induction q generalizing p l with
  | nil => rfl
  | cons i q ih =>
    rcases h.fresh i hn hp with none | ⟨c, here, new⟩
    · exact lookup_absent none
    · have below := ih new (h.stands hp here)
      rw [List.length_append, List.length_singleton] at below
      rw [lookup_table here, below]

theorem Widened.lookup_eq (h : Widened slot place M place' M') (hM : Stands slot place M)
    (hp : place p = some l) : lookup slot M' l.length p q = lookup slot M l.length p q := by
  induction q generalizing p l with
  | nil => rfl
  | cons i q ih =>
    rcases h.entry i hp with same | ⟨none, bare⟩
    · rw [lookup, lookup, same]
      cases here : slot l.length (M p i) with
      | absent => rfl
      | leaf v => rfl
      | table c =>
        have below := ih (hM hp here)
        rw [List.length_append, List.length_singleton] at below
        exact below
    · rw [lookup_absent none]
      rcases bare with none' | ⟨c, here, new⟩
      · exact lookup_absent none'
      · have below := h.lookup_fresh (q := q) new (h.stands (h.keep hp) here)
        rw [List.length_append, List.length_singleton] at below
        rw [lookup_table here, below]

theorem Widened.tableAt_keep (h : Widened slot place M place' M') (hM : Stands slot place M)
    (hp : place p = some l) (there : tableAt slot M l.length p q = some t) :
    tableAt slot M' l.length p q = some t := by
  induction q generalizing p l with
  | nil => exact there
  | cons i q ih =>
    obtain ⟨c, here, below⟩ := tableAt_cons there
    rcases h.entry i hp with same | ⟨none, -⟩
    · rw [tableAt_table (same.trans here)]
      have next := ih (hM hp here)
      rw [List.length_append, List.length_singleton] at next
      exact next below
    · rw [none] at here
      cases here

theorem Widened.tableAt_fresh (h : Widened slot place M place' M') (hn : place p = none)
    (hp : place' p = some l) (there : tableAt slot M' l.length p q = some t) : place t = none := by
  induction q generalizing p l with
  | nil =>
    obtain rfl := Option.some.inj there
    exact hn
  | cons i q ih =>
    obtain ⟨c, here, below⟩ := tableAt_cons there
    rcases h.fresh i hn hp with none | ⟨c', here', new⟩
    · rw [none] at here
      cases here
    · obtain rfl := Link.table.inj (here'.symm.trans here)
      have next := ih new (h.stands hp here)
      rw [List.length_append, List.length_singleton] at next
      exact next below

theorem Widened.tableAt_back (h : Widened slot place M place' M') (hM : Stands slot place M)
    (hp : place p = some l) (there : tableAt slot M' l.length p q = some t)
    (old : place t ≠ none) : tableAt slot M l.length p q = some t := by
  induction q generalizing p l with
  | nil => exact there
  | cons i q ih =>
    obtain ⟨c, here, below⟩ := tableAt_cons there
    rcases h.entry i hp with same | ⟨-, bare⟩
    · rw [same] at here
      have next := ih (hM hp here)
      rw [List.length_append, List.length_singleton] at next
      rw [tableAt_table here]
      exact next below
    · rcases bare with none | ⟨c', here', new⟩
      · rw [none] at here
        cases here
      · obtain rfl := Link.table.inj (here'.symm.trans here)
        have next := h.tableAt_fresh (q := q) (t := t) new (h.stands (h.keep hp) here)
        rw [List.length_append, List.length_singleton] at next
        exact absurd (next below) old

section Updates
variable [DecidableEq P] [DecidableEq I]

theorem Widened.edit (hM : Stands slot place M) (ht : place t = some l)
    (same : slot l.length e = slot l.length (M t i)) :
    Widened slot place M place (setEntry M t i e) := by
  have entry {p : P} {k : List I} (j : I) (hp : place p = some k) :
      slot k.length (setEntry M t i e p j) = slot k.length (M p j) := by
    by_cases h : p = t ∧ j = i
    · obtain ⟨rfl, rfl⟩ := h
      obtain rfl := Option.some.inj (ht.symm.trans hp)
      rw [setEntry_self, same]
    · rw [setEntry_ne M e fun hp hj => h ⟨hp, hj⟩]
  constructor
  · exact fun hp => hp
  · exact fun j hp => .inl (entry j hp)
  · intro p k j hn hp
    rw [hn] at hp
    cases hp
  · intro p k j c hp here
    rw [entry j hp] at here
    exact hM hp here

theorem Widened.install {z : I → E} (hM : Stands slot place M) (ht : place t = some l)
    (absent : slot l.length (M t i) = .absent) (hn : place c = none)
    (he : slot l.length e = .table c) (hz : ∀ j, slot (l.length+1) (z j) = .absent) :
    Widened slot place M (Function.update place c (some (l ++ [i])))
      (setEntry (Function.update M c z) t i e) := by
  have ne {p : P} {k : List I} (hp : place p = some k) : p ≠ c := by
    rintro rfl
    rw [hn] at hp
    cases hp
  have entry {p : P} {k : List I} (j : I) (hp : place p = some k) :
      slot k.length (setEntry (Function.update M c z) t i e p j) = slot k.length (M p j) ∨
      (p = t ∧ j = i) ∧ k = l ∧
        slot k.length (setEntry (Function.update M c z) t i e p j) = .table c := by
    by_cases h : p = t ∧ j = i
    · obtain ⟨rfl, rfl⟩ := h
      obtain rfl := Option.some.inj (ht.symm.trans hp)
      rw [setEntry_self]
      exact .inr ⟨⟨rfl, rfl⟩, rfl, he⟩
    · rw [setEntry_ne _ e fun hp hj => h ⟨hp, hj⟩, Function.update_of_ne (ne hp)]
      exact .inl rfl
  have new (j : I) : setEntry (Function.update M c z) t i e c j = z j := by
    rw [setEntry_table _ _ _ (ne ht).symm, Function.update_self]
  have only {p : P} {k : List I} (hp : Function.update place c (some (l ++ [i])) p = some k) :
      (p = c ∧ k = l ++ [i]) ∨ place p = some k := by
    by_cases h : p = c
    · subst h
      rw [Function.update_self] at hp
      exact .inl ⟨rfl, (Option.some.inj hp).symm⟩
    · rw [Function.update_of_ne h] at hp
      exact .inr hp
  have empty (j : I) :
      slot (l ++ [i]).length (setEntry (Function.update M c z) t i e c j) = .absent := by
    rw [new, List.length_append, List.length_singleton]
    exact hz j
  constructor
  · intro p k hp
    rw [Function.update_of_ne (ne hp), hp]
  · intro p k j hp
    rcases entry j hp with same | ⟨⟨rfl, rfl⟩, rfl, here⟩
    · exact .inl same
    · exact .inr ⟨absent, .inr ⟨c, here, hn⟩⟩
  · intro p k j hp hp'
    rcases only hp' with ⟨rfl, rfl⟩ | old
    · exact .inl (empty j)
    · rw [hp] at old
      cases old
  · intro p k j d hp here
    rcases only hp with ⟨rfl, rfl⟩ | old
    · rw [empty j] at here
      cases here
    · rcases entry j old with same | ⟨⟨rfl, rfl⟩, rfl, there⟩
      · rw [same] at here
        have placed := hM old here
        rw [Function.update_of_ne (ne placed), placed]
      · rw [there] at here
        obtain rfl := Link.table.inj here
        rw [Function.update_self]

theorem Stands.fill {v : V} (hM : Stands slot place M) (ht : place t = some l)
    (leaf : slot l.length e = .leaf v) : Stands slot place (setEntry M t i e) := by
  intro p k j c hp here
  by_cases h : p = t ∧ j = i
  · obtain ⟨rfl, rfl⟩ := h
    obtain rfl := Option.some.inj (ht.symm.trans hp)
    rw [setEntry_self, leaf] at here
    cases here
  · rw [setEntry_ne M e fun hp hj => h ⟨hp, hj⟩] at here
    exact hM hp here

/-- A path that does not lead through the entry reads another one. -/
theorem entry_off {k : List I} {j : I} (ht : place t = some l) (hp : place p = some k)
    (off : ¬(l ++ [i]) <+: k ++ j :: q) : setEntry M t i e p j = M p j := by
  refine setEntry_ne M e ?_
  rintro rfl rfl
  obtain rfl := Option.some.inj (ht.symm.trans hp)
  exact off ⟨q, by rw [List.append_assoc, List.singleton_append]⟩

theorem Stands.lookup_off {k : List I} (hM : Stands slot place M) (ht : place t = some l)
    (hp : place p = some k) (off : ¬(l ++ [i]) <+: k ++ q) :
    lookup slot (setEntry M t i e) k.length p q = lookup slot M k.length p q := by
  induction q generalizing p k with
  | nil => rfl
  | cons j q ih =>
    rw [lookup, lookup, entry_off ht hp off]
    cases here : slot k.length (M p j) with
    | absent => rfl
    | leaf v => rfl
    | table c =>
      have below := ih (hM hp here) (by rwa [List.append_assoc, List.singleton_append])
      rw [List.length_append, List.length_singleton] at below
      exact below

theorem Stands.tableAt_off {k : List I} (hM : Stands slot place M) (ht : place t = some l)
    (hp : place p = some k) (off : ¬(l ++ [i]) <+: k ++ q) :
    tableAt slot (setEntry M t i e) k.length p q = tableAt slot M k.length p q := by
  induction q generalizing p k with
  | nil => rfl
  | cons j q ih =>
    rw [tableAt, tableAt, entry_off ht hp off]
    cases here : slot k.length (M p j) with
    | absent => rfl
    | leaf v => rfl
    | table c =>
      have below := ih (hM hp here) (by rwa [List.append_assoc, List.singleton_append])
      rw [List.length_append, List.length_singleton] at below
      exact below

end Updates

end TinyOS.LeafTrees
