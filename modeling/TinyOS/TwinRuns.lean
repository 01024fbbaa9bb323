import Mathlib

set_option autoImplicit false

/-! One program run from two states, and loops with an invariant. A program that fails stops. -/
namespace TinyOS.TwinRuns

variable {σ α β ι : Type}

/-- From related states the program ends in both, with one value, in related states. -/
def Twin (R : σ → σ → Prop) (x : StateT σ Option α) : Prop :=
  ∀ s t, R s t → ∃ a s' t', x.run s = some (a, s') ∧ x.run t = some (a, t') ∧ R s' t'

variable {R : σ → σ → Prop}

theorem bind_some {x : StateT σ Option α} {f : α → StateT σ Option β} {s s' : σ} {a : α}
    (h : x.run s = some (a, s')) : (x >>= f).run s = (f a).run s' := by
  rw [StateT.run_bind, h]
  rfl

theorem bind_none {x : StateT σ Option α} {f : α → StateT σ Option β} {s : σ}
    (h : x.run s = none) : (x >>= f).run s = none := by
  rw [StateT.run_bind, h]
  rfl

theorem Twin.pure (a : α) : Twin R (pure a : StateT σ Option α) :=
  fun s t h => ⟨a, s, t, rfl, rfl, h⟩

theorem Twin.bind {x : StateT σ Option α} {f : α → StateT σ Option β} (hx : Twin R x)
    (hf : ∀ a, Twin R (f a)) : Twin R (x >>= f) := by
  intro s t h
  obtain ⟨a, s', t', run, run', h'⟩ := hx s t h
  obtain ⟨b, s'', t'', next, next', h''⟩ := hf a s' t' h'
  exact ⟨b, s'', t'', (bind_some run).trans next, (bind_some run').trans next', h''⟩

theorem Twin.ite {p : Prop} [Decidable p] {x y : StateT σ Option α} (hx : p → Twin R x)
    (hy : ¬p → Twin R y) : Twin R (if p then x else y) := by
  split_ifs with hp
  · exact hx hp
  · exact hy hp

/-- A program that reads the state, but does the same in related states. -/
theorem Twin.get {f : σ → StateT σ Option α} (same : ∀ s t, R s t → f s = f t)
    (each : ∀ s, Twin R (f s)) : Twin R (get >>= f) := by
  intro s t h
  obtain ⟨a, s', t', run, run', h'⟩ := each s s t h
  rw [same s t h] at run'
  exact ⟨a, s', t', run, run', h'⟩

theorem Twin.forM {f : ι → StateT σ Option PUnit} (l : List ι) (h : ∀ i ∈ l, Twin R (f i)) :
    Twin R (l.forM f) := by
  induction l with
  | nil => exact .pure _
  | cons i rest ih =>
    change Twin R (f i >>= fun _ => rest.forM f)
    exact (h i List.mem_cons_self).bind fun _ => ih fun j mem => h j (List.mem_cons_of_mem i mem)

theorem forM_invariant_from {f : ι → StateT σ Option PUnit} (I : List ι → σ → Prop) (l : List ι)
    (step : ∀ done i s, i ∈ l → I done s → ∃ s', (f i).run s = some (⟨⟩, s') ∧ I (done ++ [i]) s')
    (done : List ι) {s : σ} (start : I done s) :
    ∃ s', (l.forM f).run s = some (⟨⟩, s') ∧ I (done ++ l) s' := by
  induction l generalizing done s with
  | nil =>
    refine ⟨s, rfl, ?_⟩
    rw [List.append_nil]
    exact start
  | cons i rest ih =>
    obtain ⟨s₁, run, next⟩ := step done i s List.mem_cons_self start
    obtain ⟨s₂, run', last⟩ := ih (fun done j s mem => step done j s (List.mem_cons_of_mem i mem))
      (done ++ [i]) next
    rw [List.append_assoc] at last
    refine ⟨s₂, ?_, last⟩
    change (f i >>= fun _ => rest.forM f).run s = _
    rw [bind_some run]
    exact run'

/-- A loop whose turns end and keep an invariant of the elements done ends with it. -/
theorem forM_invariant {f : ι → StateT σ Option PUnit} (I : List ι → σ → Prop) (l : List ι)
    (step : ∀ done i s, i ∈ l → I done s → ∃ s', (f i).run s = some (⟨⟩, s') ∧ I (done ++ [i]) s')
    {s : σ} (start : I [] s) : ∃ s', (l.forM f).run s = some (⟨⟩, s') ∧ I l s' :=
  forM_invariant_from I l step [] start

/-- Two nested loops, with an invariant of the points done. -/
theorem nested_invariant {f : ℕ → ℕ → StateT σ Option PUnit} (I : (ℕ → ℕ → Prop) → σ → Prop)
    (w h : ℕ)
    (step : ∀ done x y s, x < w → y < h → I done s → ∃ s', (f x y).run s = some (⟨⟩, s') ∧
      I (fun x' y' => done x' y' ∨ x' = x ∧ y' = y) s')
    (mono : ∀ {done done' : ℕ → ℕ → Prop} {s}, (∀ x y, done' x y → done x y) → I done s → I done' s)
    {s : σ} (start : I (fun _ _ => False) s) :
    ∃ s', ((List.range h).forM fun y => (List.range w).forM fun x => f x y).run s = some (⟨⟩, s') ∧
      I (fun x y => x < w ∧ y < h) s' := by
  obtain ⟨s', run, last⟩ := forM_invariant (f := fun y => (List.range w).forM fun x => f x y)
    (fun rows s => I (fun x y => x < w ∧ y ∈ rows) s) (List.range h)
    (fun rows y s mem before => by
      obtain ⟨s', run, row⟩ := forM_invariant (f := fun x => f x y)
        (fun cols s => I (fun x' y' => x' < w ∧ y' ∈ rows ∨ x' ∈ cols ∧ y' = y) s) (List.range w)
        (fun cols x s mem' before => by
          obtain ⟨s', run, next⟩ := step _ x y s (List.mem_range.mp mem') (List.mem_range.mp mem)
            before
          refine ⟨s', run, mono (fun x' y' => ?_) next⟩
          rintro (old | ⟨here, rfl⟩)
          · exact .inl (.inl old)
          · rcases List.mem_append.mp here with old | new
            · exact .inl (.inr ⟨old, rfl⟩)
            · exact .inr ⟨List.mem_singleton.mp new, rfl⟩)
        (mono (fun x' y' => by
          rintro (old | ⟨none, -⟩)
          · exact old
          · exact absurd none List.not_mem_nil) before)
      refine ⟨s', run, mono (fun x' y' => ?_) row⟩
      rintro ⟨lt, here⟩
      rcases List.mem_append.mp here with old | new
      · exact .inl ⟨lt, old⟩
      · exact .inr ⟨List.mem_range.mpr lt, List.mem_singleton.mp new⟩)
    (mono (fun x y none => absurd none.2 List.not_mem_nil) start)
  exact ⟨s', run, mono (fun x y here => ⟨here.1, List.mem_range.mpr here.2⟩) last⟩

/-- A loop with a turn that fails whatever the state fails. -/
theorem forM_fails {f : ι → StateT σ Option PUnit} {P : σ → Prop} (l : List ι) {i : ι}
    (mem : i ∈ l) (fails : ∀ s, P s → (f i).run s = none)
    (keep : ∀ j s s', P s → (f j).run s = some (⟨⟩, s') → P s') {s : σ} (start : P s) :
    (l.forM f).run s = none := by
  induction l generalizing s with
  | nil => cases mem
  | cons j rest ih =>
    change (f j >>= fun _ => rest.forM f).run s = none
    cases run : (f j).run s with
    | none => exact bind_none run
    | some r =>
      obtain ⟨_, s'⟩ := r
      rw [bind_some run]
      rcases List.mem_cons.mp mem with rfl | mem
      · rw [fails s start] at run
        cases run
      · exact ih mem (keep j s s' start run)

end TinyOS.TwinRuns
