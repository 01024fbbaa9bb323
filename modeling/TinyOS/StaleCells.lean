import Mathlib

set_option autoImplicit false

/-! Two stores that agree off some stale cells, and steps that repaint these. -/
namespace TinyOS.StaleCells

variable {ι V α : Type*} {S : ι → Prop} {f h : (ι → V) → ι → V} {b b' : ι → V} {i : ι}

def AgreeOff (S : ι → Prop) (b b' : ι → V) : Prop := ∀ i, ¬S i → b i = b' i

def Blind (S : ι → Prop) (f : (ι → V) → ι → V) : Prop :=
  ∀ b b', AgreeOff S b b' → AgreeOff S (f b) (f b')

/-- What the step leaves in the cell does not depend on the store. -/
def Covers (f : (ι → V) → ι → V) (i : ι) : Prop := ∀ b b', f b i = f b' i

def Keeps (f : (ι → V) → ι → V) (i : ι) : Prop := ∀ b, f b i = b i

/-- Each stale cell is covered by some step, before anything of it is brought elsewhere. -/
def Refreshed : List ((ι → V) → ι → V) → (ι → Prop) → Prop
  | [], S => ∀ i, ¬S i
  | f :: rest, S => Blind S f ∧ Refreshed rest fun i => S i ∧ ¬Covers f i

def runAll (l : List ((ι → V) → ι → V)) (b : ι → V) : ι → V := l.foldl (fun b f => f b) b

theorem runAll_cons (f : (ι → V) → ι → V) (rest : List ((ι → V) → ι → V)) (b : ι → V) :
    runAll (f :: rest) b = runAll rest (f b) := rfl

theorem AgreeOff.eq_of_none (agree : AgreeOff S b b') (none : ∀ i, ¬S i) : b = b' :=
  funext fun i => agree i (none i)

theorem Blind.of_none (none : ∀ i, ¬S i) (f : (ι → V) → ι → V) : Blind S f := by
  intro b b' agree
  rw [agree.eq_of_none none]
  exact fun _ _ => rfl

theorem Blind.uncovered (blind : Blind S f) (agree : AgreeOff S b b') :
    AgreeOff (fun i => S i ∧ ¬Covers f i) (f b) (f b') := by
  intro i fresh
  by_cases covers : Covers f i
  · exact covers b b'
  · exact blind b b' agree i fun stale => fresh ⟨stale, covers⟩

/-- Steps that refresh every stale cell end in the same store. -/
theorem Refreshed.runAll_eq {l : List ((ι → V) → ι → V)} (refreshed : Refreshed l S)
    (agree : AgreeOff S b b') : runAll l b = runAll l b' := by
  induction l generalizing S b b' with
  | nil => exact agree.eq_of_none refreshed
  | cons f rest ih =>
    rw [runAll_cons, runAll_cons]
    exact ih refreshed.2 (refreshed.1.uncovered agree)

theorem Refreshed.of_none (l : List ((ι → V) → ι → V)) (none : ∀ i, ¬S i) : Refreshed l S := by
  induction l generalizing S with
  | nil => exact none
  | cons f rest ih => exact ⟨.of_none none f, ih fun i stale => none i stale.1⟩

/-- Each cell is either kept or overwritten without regard to the store. -/
def Overwrites (f : (ι → V) → ι → V) : Prop := ∀ i, Keeps f i ∨ Covers f i

theorem Overwrites.blind (overwrites : Overwrites f) (S : ι → Prop) : Blind S f := by
  intro b b' agree i fresh
  rcases overwrites i with keeps | covers
  · rw [keeps, keeps, agree i fresh]
  · exact covers b b'

/-- The fresh background comes first, and then any steps at all. -/
theorem Refreshed.of_covered {l : List ((ι → V) → ι → V)} (rest : List ((ι → V) → ι → V))
    (each : ∀ f ∈ l, Overwrites f) (covered : ∀ i, S i → ∃ f ∈ l, Covers f i) :
    Refreshed (l ++ rest) S := by
  induction l generalizing S with
  | nil =>
    refine .of_none _ fun i stale => ?_
    obtain ⟨f, mem, -⟩ := covered i stale
    exact List.not_mem_nil mem
  | cons f l ih =>
    refine ⟨(each f List.mem_cons_self).blind S,
      ih (fun f' mem => each f' (List.mem_cons_of_mem f mem)) fun i stale => ?_⟩
    obtain ⟨f', mem, covers⟩ := covered i stale.1
    rcases List.mem_cons.mp mem with rfl | mem
    · exact absurd covers stale.2
    · exact ⟨f', mem, covers⟩

theorem Keeps.comp (hf : Keeps f i) (hh : Keeps h i) : Keeps (fun b => h (f b)) i :=
  fun b => (hh (f b)).trans (hf b)

theorem Covers.comp_left (hf : Covers f i) (hh : Keeps h i) : Covers (fun b => h (f b)) i := by
  intro b b'
  exact ((hh (f b)).trans (hf b b')).trans (hh (f b')).symm

theorem Covers.comp_right (hh : Covers h i) (f : (ι → V) → ι → V) :
    Covers (fun b => h (f b)) i := fun b b' => hh (f b) (f b')

theorem Overwrites.comp (hf : Overwrites f) (hh : Overwrites h) :
    Overwrites fun b => h (f b) := by
  intro i
  rcases hh i with keeps | covers
  · rcases hf i with keeps' | covers'
    · exact .inl (keeps'.comp keeps)
    · exact .inr (covers'.comp_left keeps)
  · exact .inr (covers.comp_right f)

section Loops

variable {each : (ι → V) → α → ι → V} {l : List α}

theorem Keeps.foldl (keeps : ∀ a ∈ l, Keeps (fun b => each b a) i) :
    Keeps (fun b => l.foldl each b) i := by
  induction l with
  | nil => exact fun b => rfl
  | cons a l ih =>
    exact (keeps a List.mem_cons_self).comp (ih fun a' mem => keeps a' (List.mem_cons_of_mem a mem))

theorem Overwrites.foldl (overwrites : ∀ a ∈ l, Overwrites fun b => each b a) :
    Overwrites fun b => l.foldl each b := by
  induction l with
  | nil => exact fun i => .inl fun b => rfl
  | cons a l ih =>
    exact (overwrites a List.mem_cons_self).comp
      (ih fun a' mem => overwrites a' (List.mem_cons_of_mem a mem))

theorem Covers.foldl (overwrites : ∀ a ∈ l, Overwrites fun b => each b a)
    (covered : ∃ a ∈ l, Covers (fun b => each b a) i) : Covers (fun b => l.foldl each b) i := by
  induction l with
  | nil =>
    obtain ⟨a, mem, -⟩ := covered
    exact absurd mem List.not_mem_nil
  | cons a l ih =>
    have rest : ∀ a' ∈ l, Overwrites fun b => each b a' :=
      fun a' mem => overwrites a' (List.mem_cons_of_mem a mem)
    by_cases later : ∃ a' ∈ l, Covers (fun b => each b a') i
    · exact (ih rest later).comp_right fun b => each b a
    -- no later turn covers the cell, so every later turn keeps what this one wrote
    obtain ⟨a', mem, covers⟩ := covered
    rcases List.mem_cons.mp mem with rfl | mem
    · refine covers.comp_left (Keeps.foldl fun a' mem => ?_)
      exact (rest a' mem i).resolve_right fun covers => later ⟨a', mem, covers⟩
    · exact absurd ⟨a', mem, covers⟩ later

theorem foldl_fixed (fixed : ∀ a ∈ l, each b a = b) : l.foldl each b = b := by
  induction l with
  | nil => rfl
  | cons a l ih =>
    rw [List.foldl_cons, fixed a List.mem_cons_self]
    exact ih fun a' mem => fixed a' (List.mem_cons_of_mem a mem)

end Loops

theorem runAll_fixed {l : List ((ι → V) → ι → V)} (fixed : ∀ f ∈ l, f b = b) : runAll l b = b :=
  foldl_fixed fixed

/-- Steps that write what the other store holds bring its values into the cells they cover. -/
theorem Covers.of_fixed (covers : Covers f i) (fixed : f b' = b') (b : ι → V) : f b i = b' i := by
  rw [covers b b', fixed]

end TinyOS.StaleCells
