import Mathlib.Data.List.Basic
import Mathlib.Tactic

set_option autoImplicit false

/-! Sequences of steps that need not be defined everywhere. -/
namespace TinyOS.PartialRuns

variable {σ : Type} {ι : Type*} {exec : ι → StateT σ Option Unit} {I : σ → Prop}
  {Safe : ι → σ → Prop} {s : σ}

/-- A sequence can be run when every step of it is safe where it starts, for steps that keep an
invariant and are defined in it just when they are safe. -/
theorem forM_defined_iff
    (keeps : ∀ i s, I s → Safe i s → ∃ s', (exec i).run s = some ((), s') ∧ I s')
    (only : ∀ i s, I s → ¬Safe i s → (exec i).run s = none) (h : I s) (ops : List ι) :
    (∃ s', (ops.forM exec).run s = some ((), s')) ↔
      ∀ before i after t, ops = before ++ i :: after →
        (before.forM exec).run s = some ((), t) → Safe i t := by
  induction ops generalizing s with
  | nil =>
    refine iff_of_true ⟨s, rfl⟩ fun before i after t eq => ?_
    exact absurd eq.symm (List.append_ne_nil_of_right_ne_nil _ (List.cons_ne_nil _ _))
  | cons i ops ih =>
    have first (t : σ) (go : (exec i).run s = some ((), t)) (rest : List ι) :
        ((i :: rest).forM exec).run s = (rest.forM exec).run t := by
      change ((exec i).run s).bind (fun p => (rest.forM exec).run p.2) = _
      rw [go]
      rfl
    by_cases safe : Safe i s
    · obtain ⟨t, go, ht⟩ := keeps i s h safe
      rw [first t go, ih ht]
      constructor
      · intro each before j after u eq ran
        cases before with
        | nil =>
          obtain ⟨rfl, _⟩ := List.cons.inj eq
          obtain rfl := (Prod.mk.inj (Option.some.inj ran)).2
          exact safe
        | cons k before =>
          obtain ⟨rfl, rest⟩ := List.cons.inj eq
          rw [first t go] at ran
          exact each before j after u rest ran
      · intro each before j after u eq ran
        refine each (i :: before) j after u (by rw [eq]; rfl) ?_
        rwa [first t go]
    · refine iff_of_false ?_ fun each => safe (each [] i ops s rfl rfl)
      rintro ⟨t, ran⟩
      change ((exec i).run s).bind (fun p => (ops.forM exec).run p.2) = _ at ran
      rw [only i s h safe] at ran
      exact absurd ran (by simp)

variable {α β ι' : Type} {R : σ → σ → Prop}

def Relates (R : σ → σ → Prop) (x : StateT σ Option α) : Prop :=
  ∀ s a s', x.run s = some (a, s') → R s s'

theorem Relates.pure (refl : ∀ s, R s s) (a : α) : Relates R (pure a : StateT σ Option α) := by
  intro s a' s' run
  obtain rfl := (Prod.mk.inj (Option.some.inj run)).2
  exact refl s

theorem Relates.bind (trans : ∀ s t u, R s t → R t u → R s u) {x : StateT σ Option α}
    {f : α → StateT σ Option β} (hx : Relates R x) (hf : ∀ a, Relates R (f a)) :
    Relates R (x >>= f) := by
  intro s b s' run
  rw [StateT.run_bind] at run
  obtain ⟨⟨a, t⟩, first, rest⟩ := Option.bind_eq_some_iff.mp run
  exact trans s t s' (hx s a t first) (hf a t b s' rest)

theorem Relates.ite {p : Prop} [Decidable p] {x y : StateT σ Option α} (hx : p → Relates R x)
    (hy : ¬p → Relates R y) : Relates R (if p then x else y) := by
  split_ifs with hp
  · exact hx hp
  · exact hy hp

theorem Relates.forM (refl : ∀ s, R s s) (trans : ∀ s t u, R s t → R t u → R s u)
    {f : ι' → StateT σ Option PUnit} (l : List ι') (h : ∀ i ∈ l, Relates R (f i)) :
    Relates R (l.forM f) := by
  induction l with
  | nil => exact .pure refl _
  | cons i rest ih =>
    change Relates R (f i >>= fun _ => rest.forM f)
    exact .bind trans (h i List.mem_cons_self) fun _ => ih fun j mem =>
      h j (List.mem_cons_of_mem i mem)

end TinyOS.PartialRuns
