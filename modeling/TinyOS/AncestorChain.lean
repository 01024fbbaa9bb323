import Mathlib

set_option autoImplicit false

/-! Following a parent pointer up to a root, in any type of nodes. -/
namespace TinyOS.AncestorChain

variable {α : Type*}

/-- `l` lists the nodes passed from a node up to `root`, `root` left out. -/
inductive Chain (parent : α → α) (root : α) : α → List α → Prop where
  | root : Chain parent root root []
  | up {a : α} {l : List α} (ne : a ≠ root) (tail : Chain parent root (parent a) l) :
      Chain parent root a (a :: l)

variable {parent parent' : α → α} {root a b : α} {l m : List α}

theorem Chain.unique (h : Chain parent root a l) (h' : Chain parent root a m) : l = m := by
  induction h generalizing m with
  | root =>
    cases h' with
    | root => rfl
    | up ne _ => exact absurd rfl ne
  | up ne _ ih =>
    cases h' with
    | root => exact absurd rfl ne
    | up _ tail => rw [ih tail]

/-- Every node on the chain has its own chain, which is a suffix. -/
theorem Chain.suffix (h : Chain parent root a l) (hb : b ∈ l) :
    ∃ m, Chain parent root b (b :: m) ∧ (b :: m) <:+ l := by
  induction h with
  | root => simp at hb
  | @up a l ne tail ih =>
    rcases List.mem_cons.mp hb with rfl | hb
    · exact ⟨l, .up ne tail, List.suffix_rfl⟩
    · obtain ⟨m, hm, hs⟩ := ih hb
      exact ⟨m, hm, hs.trans (List.suffix_cons a l)⟩

theorem Chain.not_mem_tail (h : Chain parent root (parent a) l) (ne : a ≠ root) : a ∉ l := by
  intro ha
  obtain ⟨m, hm, hs⟩ := h.suffix ha
  have he := hm.unique (.up ne h)
  have hl := hs.length_le
  rw [he] at hl
  simp at hl

theorem Chain.nodup (h : Chain parent root a l) : l.Nodup := by
  induction h with
  | root => exact List.nodup_nil
  | up ne tail ih => exact List.nodup_cons.mpr ⟨tail.not_mem_tail ne, ih⟩

theorem Chain.congr (h : Chain parent root a l) (same : ∀ b ∈ l, parent' b = parent b) :
    Chain parent' root a l := by
  induction h with
  | root => exact .root
  | @up a l ne _ ih =>
    refine .up ne ?_
    rw [same a List.mem_cons_self]
    exact ih fun b hb => same b (List.mem_cons_of_mem a hb)

theorem Chain.above (h : Chain parent root a l) (ne : a ≠ root) :
    Chain parent root (parent a) l.tail := by
  cases h with
  | root => exact absurd rfl ne
  | up _ tail => exact tail

theorem Chain.mem (h : Chain parent root a l) (ne : a ≠ root) : a ∈ l := by
  cases h with
  | root => exact absurd rfl ne
  | up _ _ => exact List.mem_cons_self

/-- A chain inside a finite set of nodes is no longer than the set. -/
theorem Chain.length_le (h : Chain parent root a l) (s : Finset α) (hs : ∀ b ∈ l, b ∈ s) :
    l.length ≤ s.card := by
  classical
  rw [← List.toFinset_card_of_nodup h.nodup]
  exact Finset.card_le_card fun b hb => hs b (List.mem_toFinset.mp hb)

end TinyOS.AncestorChain
