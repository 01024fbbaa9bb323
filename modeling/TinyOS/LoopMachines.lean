import Mathlib

set_option autoImplicit false

/-! Loops as machines: the rounds of a partial step function, whether they end, and what they
read on the way. -/
namespace TinyOS.LoopMachines

variable {α ε : Type} {next : α → Option α} {a b c : α}

/-- The state after `n` rounds; `none` when the loop has ended before. -/
def after (next : α → Option α) : ℕ → α → Option α
  | 0, a => some a
  | n+1, a => (next a).bind (after next n)

def Visits (next : α → Option α) (a b : α) : Prop := ∃ n, after next n a = some b

/-- The loop ends after finitely many rounds. -/
def Ends (next : α → Option α) (a : α) : Prop := ∃ n, after next n a = none

def Bounded (next : α → Option α) (reads : α → List ε) (P : ε → Prop) (a : α) : Prop :=
  Ends next a ∧ ∀ b, Visits next a b → ∀ e ∈ reads b, P e

theorem after_succ (h : next a = some b) (n : ℕ) : after next (n+1) a = after next n b := by
  rw [after, h, Option.bind_some]

theorem after_succ_last (h : next b = some c) {n : ℕ} (run : after next n a = some b) :
    after next (n+1) a = some c := by
  induction n generalizing a with
  | zero =>
    obtain rfl := Option.some.inj run
    rw [after_succ h, after]
  | succ n ih =>
    rw [after] at run
    obtain ⟨a', first, rest⟩ := Option.bind_eq_some_iff.mp run
    rw [after_succ first]
    exact ih rest

theorem Visits.refl (a : α) : Visits next a a := ⟨0, rfl⟩

theorem Visits.tail (v : Visits next a b) (h : next b = some c) : Visits next a c := by
  obtain ⟨n, run⟩ := v
  exact ⟨n+1, after_succ_last h run⟩

theorem Visits.head (h : next a = some b) (v : Visits next b c) : Visits next a c := by
  obtain ⟨n, run⟩ := v
  exact ⟨n+1, by rw [after_succ h, run]⟩

theorem Visits.trans (v : Visits next a b) (w : Visits next b c) : Visits next a c := by
  obtain ⟨n, run⟩ := v
  induction n generalizing a with
  | zero =>
    obtain rfl := Option.some.inj run
    exact w
  | succ n ih =>
    rw [after] at run
    obtain ⟨a', first, rest⟩ := Option.bind_eq_some_iff.mp run
    exact (ih rest).head first

/-- What holds at first and is kept by a round holds in every state the loop comes to. -/
theorem Visits.keeps {I : α → Prop} (v : Visits next a b) (start : I a)
    (keep : ∀ b c, I b → next b = some c → I c) : I b := by
  obtain ⟨n, run⟩ := v
  induction n generalizing a with
  | zero =>
    obtain rfl := Option.some.inj run
    exact start
  | succ n ih =>
    rw [after] at run
    obtain ⟨a', first, rest⟩ := Option.bind_eq_some_iff.mp run
    exact ih (keep a a' start first) rest

theorem Ends.stop (h : next a = none) : Ends next a := ⟨1, by rw [after, h, Option.bind_none]⟩

theorem Ends.step (h : next a = some b) (e : Ends next b) : Ends next a := by
  obtain ⟨n, run⟩ := e
  exact ⟨n+1, by rw [after_succ h, run]⟩

theorem Ends.induct {motive : α → Prop} (stop : ∀ a, next a = none → motive a)
    (step : ∀ a b, next a = some b → motive b → motive a) (e : Ends next a) : motive a := by
  obtain ⟨n, run⟩ := e
  induction n generalizing a with
  | zero => cases run
  | succ n ih =>
    cases h : next a with
    | none => exact stop a h
    | some b =>
      rw [after_succ h] at run
      exact step a b h (ih run)

theorem Ends.rest (e : Ends next a) (h : next a = some b) : Ends next b := by
  obtain ⟨_ | n, run⟩ := e
  · cases run
  · rw [after_succ h] at run
    exact ⟨n, run⟩

theorem Ends.visits (e : Ends next a) (v : Visits next a b) : Ends next b :=
  v.keeps e fun _ _ e h => e.rest h

theorem not_ends_of_closed {S : α → Prop} (closed : ∀ b, S b → ∃ c, next b = some c ∧ S c)
    (h : S a) : ¬Ends next a := by
  intro e
  refine e.induct (motive := fun b => S b → False) (fun b stop inside => ?_)
    (fun b c go ih inside => ?_) h
  · obtain ⟨c, go, -⟩ := closed b inside
    rw [stop] at go
    cases go
  · obtain ⟨c', go', inside'⟩ := closed b inside
    rw [go] at go'
    obtain rfl := Option.some.inj go'
    exact ih inside'

theorem ends_of_measure {I : α → Prop} (size : α → ℕ) (h : I a)
    (keep : ∀ b c, I b → next b = some c → I c)
    (smaller : ∀ b c, I b → next b = some c → size c < size b) : Ends next a := by
  generalize bound : size a = n
  induction n using Nat.strong_induction_on generalizing a with
  | _ n ih =>
    cases go : next a with
    | none => exact .stop go
    | some b =>
      have lt := smaller a b h go
      rw [bound] at lt
      exact .step go (ih _ lt (keep a b h go) rfl)

end TinyOS.LoopMachines
