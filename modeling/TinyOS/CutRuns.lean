import TinyOS.FaultyRuns

set_option autoImplicit false

/-! Programs on a device that loses power: the writes of a run reach the device in order, up to
one of them, and none after it. -/
namespace TinyOS.CutRuns
open FaultyRuns

variable {σ ω α β ε : Type}

structure Powered (σ : Type) where
  state : σ
  left : ℕ

abbrev CutM (σ : Type) := StateM (Powered σ)

/-- Without power no write follows a read, so what it returns then does not matter. -/
def look (f : σ → α) : CutM σ α := fun p => (f p.state, p)

def store (f : σ → σ) (a : α) : CutM σ α := fun p =>
  match p.left with
  | 0 => (a, p)
  | n+1 => (a, ⟨f p.state, n⟩)

def applyAll (apply : ω → σ → σ) (w : List ω) (d : σ) : σ := w.foldl (fun d x => apply x d) d

/-- `x` does what `y` does, by the writes `w`, as far as they reach the device. -/
structure Traced (apply : ω → σ → σ) (x : CutM σ α) (y : StateM σ α) (w : σ → List ω) : Prop where
  final : ∀ d, (y.run d).2 = applyAll apply (w d) d
  whole : ∀ d n, (w d).length ≤ n → x.run ⟨d, n⟩ = ((y.run d).1, ⟨(y.run d).2, n-(w d).length⟩)
  cut : ∀ d n, n < (w d).length → (x.run ⟨d, n⟩).2 = ⟨applyAll apply ((w d).take n) d, 0⟩

abbrev Reads (apply : ω → σ → σ) (x : CutM σ α) (y : StateM σ α) : Prop :=
  Traced apply x y fun _ => []

variable {apply : ω → σ → σ} {x : CutM σ α} {y : StateM σ α} {w : σ → List ω}

theorem run_bind (x : CutM σ α) (f : α → CutM σ β) (p : Powered σ) :
    (x >>= f).run p = (f (x.run p).1).run (x.run p).2 := rfl

theorem Traced.dead (h : Traced apply x y w) (d : σ) : (x.run ⟨d, 0⟩).2 = ⟨d, 0⟩ := by
  cases none : w d with
  | nil =>
    rw [h.whole d 0 (by rw [none]; exact le_rfl), h.final, none]
    rfl
  | cons a l =>
    rw [h.cut d 0 (by rw [none]; exact Nat.succ_pos _), List.take_zero]
    rfl

theorem Traced.congr {w' : σ → List ω} (h : Traced apply x y w) (eq : ∀ d, w d = w' d) :
    Traced apply x y w' := by
  obtain rfl : w = w' := funext eq
  exact h

theorem Traced.left_state (h : Traced apply x y w) (d : σ) (n : ℕ) :
    (x.run ⟨d, n⟩).2.state = applyAll apply ((w d).take n) d := by
  rcases Nat.lt_or_ge n (w d).length with lt | le
  · rw [h.cut d n lt]
  · rw [h.whole d n le, List.take_of_length_le le]
    exact h.final d

/-- A program that writes once at most leaves the old device or the new one. -/
theorem Traced.atomic (h : Traced apply x y w) {d : σ} (once : (w d).length ≤ 1) (n : ℕ) :
    (x.run ⟨d, n⟩).2.state = d ∨ (x.run ⟨d, n⟩).2.state = (y.run d).2 := by
  rw [h.left_state, h.final]
  cases n with
  | zero => exact .inl rfl
  | succ n => exact .inr (by rw [List.take_of_length_le (once.trans (Nat.succ_le_succ n.zero_le))])

theorem Traced.pure (a : α) : Reads apply (pure a : CutM σ α) (pure a) where
  final _ := rfl
  whole _ _ _ := rfl
  cut _ _ lt := absurd lt (Nat.not_lt_zero _)

theorem Traced.look {f : σ → α} (hy : ∀ d, y.run d = (f d, d)) : Reads apply (look f) y where
  final d := by
    rw [hy]
    rfl
  whole d n _ := by
    rw [hy]
    rfl
  cut _ _ lt := absurd lt (Nat.not_lt_zero _)

theorem Traced.store {a : α} {b : ω} (hy : ∀ d, y.run d = (a, apply b d)) :
    Traced apply (store (apply b) a) y fun _ => [b] where
  final d := by
    rw [hy]
    rfl
  whole d n le := by
    obtain ⟨k, rfl⟩ := Nat.exists_eq_add_of_le' le
    rw [hy]
    rfl
  cut d n lt := by
    obtain rfl : n = 0 := Nat.lt_one_iff.mp lt
    rfl

theorem applyAll_append (w w' : List ω) (d : σ) :
    applyAll apply (w ++ w') d = applyAll apply w' (applyAll apply w d) := List.foldl_append

theorem Traced.bind {f : α → CutM σ β} {g : α → StateM σ β} {w' : α → σ → List ω}
    (h : Traced apply x y w) (hf : ∀ a, Traced apply (f a) (g a) (w' a)) :
    Traced apply (x >>= f) (y >>= g) fun d => w d ++ w' (y.run d).1 (y.run d).2 where
  final d := by
    rw [applyAll_append, ← h.final]
    exact (hf _).final _
  whole d n le := by
    rw [List.length_append] at le
    have rest : (w' (y.run d).1 (y.run d).2).length ≤ n-(w d).length := by omega
    rw [run_bind, h.whole d n (by omega), (hf _).whole _ _ rest, List.length_append, Nat.sub_sub]
    rfl
  cut d n lt := by
    rw [List.length_append] at lt
    rw [run_bind]
    rcases Nat.lt_or_ge n (w d).length with early | late
    · rw [h.cut d n early, (hf _).dead, List.take_append_of_le_length early.le]
    · have rest : n-(w d).length < (w' (y.run d).1 (y.run d).2).length := by omega
      rw [h.whole d n late, (hf _).cut _ _ rest, List.take_append, List.take_of_length_le late,
        applyAll_append, ← h.final]

theorem Traced.silent (h : Traced apply x y w) :
    Traced apply (x >>= fun _ => Pure.pure ()) (y >>= fun _ => Pure.pure ()) w :=
  (h.bind fun _ => .pure ()).congr fun _ => List.append_nil _

theorem Traced.after {f : α → CutM σ β} {g : α → StateM σ β} {w' : α → σ → List ω}
    (h : Reads apply x y) (hf : ∀ a, Traced apply (f a) (g a) (w' a)) :
    Traced apply (x >>= f) (y >>= g) fun d => w' (y.run d).1 d := by
  have same (d : σ) : (y.run d).2 = d := h.final d
  have both := h.bind hf
  simp only [List.nil_append, same] at both
  exact both

theorem Traced.ite {x' : CutM σ α} {y' : StateM σ α} {c : Prop} [Decidable c]
    (h : Traced apply x y w) (h' : Traced apply x' y' w) :
    Traced apply (if c then x else x') (if c then y else y') w := by
  split_ifs
  · exact h
  · exact h'

def behind (w : α → σ → List ω) : Except ε α → σ → List ω
  | .error _, _ => []
  | .ok a, d => w a d

theorem Traced.guarded {done : ε} {check : CutM σ (Except ε α)} {check' : StateM σ (Except ε α)}
    {body : α → CutM σ Unit} {body' : α → StateM σ Unit} {w : α → σ → List ω}
    (hc : Reads apply check check') (hb : ∀ a, Traced apply (body a) (body' a) (w a)) :
    Traced apply (guarded done check body) (guarded done check' body')
      fun d => behind w (check'.run d).1 d := by
  refine @Traced.after σ ω _ _ apply _ _ _ _ (behind w) hc fun v => ?_
  cases v with
  | error e => exact .pure e
  | ok a => exact ((hb a).bind fun _ => .pure done).congr fun _ => List.append_nil _

end TinyOS.CutRuns
