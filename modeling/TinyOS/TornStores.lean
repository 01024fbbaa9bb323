import TinyOS.EntryStores

set_option autoImplicit false

/-! What a power failure in the middle of a request leaves of a store, and runs in which the
power fails again and again. -/
namespace TinyOS.EntryStores

variable {κ α : Type} [DecidableEq κ] [DecidableEq α]

/-- The first `n` of the old values give way to the new ones, and to `blank` behind these. -/
def overlay (blank : α) (n : ℕ) (new old : List α) : List α :=
  old.mapIdx fun k x => if k < n then new.getD k blank else x

def Store.restart (s : Shape κ) (a : Store κ α) : Store κ α := { a with dir := s.root }

/-- What a request leaves when the power fails: all of it or nothing, but for a write, which may
have changed the first block of its file, and a format, which may have cleared a part of the
slots. -/
inductive Store.Cut (s : Shape κ) (blank : α) (a : Store κ α) : Request α → Store κ α → Prop where
  | before {r : Request α} : Store.Cut s blank a r (a.restart s)
  | done {r : Request α} : Store.Cut s blank a r ((a.step s r).2.restart s)
  | torn {name text old : List α} {k : κ} (found : a.find s name = some k)
      (file : a.entry k = some ⟨name, a.dir, .file old⟩) :
      Store.Cut s blank a (.write name text)
        ((a.put k (some ⟨name, a.dir, .file (overlay blank s.blockMax text old)⟩)).restart s)
  | wiped {b : Store κ α} (valid : b.valid = true) (root : b.dir = s.root)
      (cleared : ∀ k, b.entry k = a.entry k ∨ b.entry k = none) : Store.Cut s blank a .format b

/-- A request, which is carried out, or cut off by a power failure. -/
inductive Event (ρ : Type) where
  | call (r : ρ)
  | failure (r : ρ)
  deriving DecidableEq

/-- A run: the replies to the requests, with one for each start after a power failure, and the
store in the end. -/
inductive Store.Runs (s : Shape κ) (blank : α) :
    Store κ α → List (Event (Request α)) → List (Reply α) → Store κ α → Prop where
  | nil {a : Store κ α} : Store.Runs s blank a [] [] a
  | call {a b : Store κ α} {r : Request α} {rest : List (Event (Request α))}
      {replies : List (Reply α)} (later : Store.Runs s blank (a.step s r).2 rest replies b) :
      Store.Runs s blank a (.call r :: rest) ((a.step s r).1 :: replies) b
  | failure {a b c : Store κ α} {r : Request α} {rest : List (Event (Request α))}
      {replies : List (Reply α)} (cut : a.Cut s blank r b)
      (later : Store.Runs s blank b rest replies c) :
      Store.Runs s blank a (.failure r :: rest) (.done :: replies) c

def Event.request {ρ : Type} : Event ρ → ρ
  | .call r => r
  | .failure r => r

variable {s : Shape κ} {blank : α} {a b : Store κ α} {dir k : κ} {name bytes : List α}
  {r : Request α}

omit [DecidableEq α] in
theorem overlay_length (n : ℕ) (new old : List α) :
    (overlay blank n new old).length = old.length := List.length_mapIdx

omit [DecidableEq α] in
theorem overlay_self {n : ℕ} {new old : List α}
    (same : ∀ k, (h : k < old.length) → k < n → new.getD k blank = old[k]) :
    overlay blank n new old = old := by
  refine List.ext_getElem (overlay_length n new old) fun k lt lt' => ?_
  simp only [overlay, List.getElem_mapIdx]
  split_ifs with front
  · exact same k lt' front
  · rfl

omit [DecidableEq α] in
theorem overlay_zero (new old : List α) : overlay blank 0 new old = old :=
  overlay_self fun k _ before => absurd before (Nat.not_lt_zero k)

theorem Store.keeps_found (entry : a.entry k = some ⟨name, a.dir, .file bytes⟩)
    (found : a.find s name = some k) : a.Keeps s a.dir name k bytes := ⟨entry, found⟩

theorem Store.Keeps.restart (h : a.Keeps s dir name k bytes) :
    (a.restart s).Keeps s dir name k bytes := h.moved _ _

/-- A power failure in a request that spares the name keeps its file. -/
theorem Store.Keeps.cut (h : a.Keeps s dir name k bytes) (spares : r.Spares s name)
    (cut : a.Cut s blank r b) : b.Keeps s dir name k bytes := by
  cases cut with
  | before => exact h.restart
  | done => exact (h.step spares).restart
  | @torn n text old j found file =>
    have unnamed := spares.2
    simp only [Request.names, List.mem_cons, List.not_mem_nil, or_false] at unnamed
    refine Store.Keeps.restart (h.put (h.other found (Ne.symm unnamed)) ?_)
    rintro e eq _ named
    cases eq
    exact absurd named (Ne.symm unnamed)
  | wiped => exact absurd rfl spares.1

theorem Store.Keeps.runs {events : List (Event (Request α))} {replies : List (Reply α)}
    (h : a.Keeps s dir name k bytes) (spares : ∀ e ∈ events, e.request.Spares s name)
    (run : Store.Runs s blank a events replies b) : b.Keeps s dir name k bytes := by
  induction run with
  | nil => exact h
  | call _ ih =>
    obtain ⟨first, rest⟩ := List.forall_mem_cons.mp spares
    exact ih (h.step first) rest
  | failure cut _ ih =>
    obtain ⟨first, rest⟩ := List.forall_mem_cons.mp spares
    exact ih (h.cut first cut) rest

end TinyOS.EntryStores
