import Mathlib

set_option autoImplicit false

/-! Programs whose transfers fail by a pattern fixed in advance, next to the same
programs on a device that never fails. -/
namespace TinyOS.FaultyRuns

variable {σ γ α β ε : Type}

/-- A device, the outcomes of its transfers, and the number of the next one. A
transfer fails where the pattern has an entry. -/
structure Faulty (σ γ : Type) where
  state : σ
  pattern : ℕ → Option γ
  clock : ℕ

abbrev FaultyM (σ γ : Type) := StateM (Faulty σ γ)

def transfer (good : σ → α × σ) (bad : γ → σ → α × σ) : FaultyM σ γ α := fun s =>
  match s.pattern s.clock with
  | none => ((good s.state).1, ⟨(good s.state).2, s.pattern, s.clock+1⟩)
  | some g => ((bad g s.state).1, ⟨(bad g s.state).2, s.pattern, s.clock+1⟩)

def Fine (p : ℕ → Option γ) (a b : ℕ) : Prop := ∀ n, a ≤ n → n < b → p n = none

theorem Fine.mono {p : ℕ → Option γ} {a b b' : ℕ} (h : Fine p a b) (le : b' ≤ b) : Fine p a b' :=
  fun n ha hb => h n ha (lt_of_lt_of_le hb le)

theorem Fine.append {p : ℕ → Option γ} {a b c : ℕ} (h : Fine p a b) (h' : Fine p b c) :
    Fine p a c := fun n ha hc => if hb : n < b then h n ha hb else h' n (not_lt.mp hb) hc

theorem Fine.from {p : ℕ → Option γ} {a b c : ℕ} (h : Fine p a c) (le : a ≤ b) : Fine p b c :=
  fun n hb => h n (le.trans hb)

theorem run_bind (x : FaultyM σ γ α) (f : α → FaultyM σ γ β) (s : Faulty σ γ) :
    (x >>= f).run s = (f (x.run s).1).run (x.run s).2 := rfl

theorem run_pure (a : α) (s : Faulty σ γ) : (pure a : FaultyM σ γ α).run s = (a, s) := rfl

def finish (x : FaultyM σ γ α) (d : σ) (c : ℕ) : ℕ := (x.run ⟨d, fun _ => none, c⟩).2.clock

/-- `x` does what `y` does as long as none of its transfers fails; and when one of the
transfers of that run would fail, one that `x` issues does. -/
structure Agrees (x : FaultyM σ γ α) (y : StateM σ α) : Prop where
  pattern : ∀ s, (x.run s).2.pattern = s.pattern
  later : ∀ s, s.clock ≤ (x.run s).2.clock
  fine : ∀ d p c, Fine p c (finish x d c) →
    x.run ⟨d, p, c⟩ = ((y.run d).1, ⟨(y.run d).2, p, finish x d c⟩)
  shown : ∀ d p c, Fine p c (x.run ⟨d, p, c⟩).2.clock → Fine p c (finish x d c)

theorem Agrees.pure (a : α) : Agrees (pure a : FaultyM σ γ α) (pure a) where
  pattern _ := rfl
  later _ := le_refl _
  fine _ _ _ _ := rfl
  shown _ _ _ h := h

theorem Agrees.transfer {good : σ → α × σ} (bad : γ → σ → α × σ) {y : StateM σ α}
    (hy : ∀ d, y.run d = good d) : Agrees (transfer good bad) y where
  pattern s := by
    cases h : s.pattern s.clock <;>
      simp only [FaultyRuns.transfer, StateT.run, h]
  later s := by
    cases h : s.pattern s.clock <;>
      simp only [FaultyRuns.transfer, StateT.run, h] <;> exact Nat.le_succ _
  fine d p c h := by
    have hc : p c = none := h c (le_refl c) (Nat.lt_succ_self c)
    rw [hy]
    simp only [FaultyRuns.transfer, StateT.run, finish, hc]
  shown d p c h := by
    refine h.mono ?_
    cases hc : p c <;> simp only [FaultyRuns.transfer, StateT.run, finish, hc, le_refl]

theorem Agrees.finish_bind {x : FaultyM σ γ α} {y : StateM σ α} (h : Agrees x y)
    (f : α → FaultyM σ γ β) (d : σ) (c : ℕ) :
    finish (x >>= f) d c = finish (f (y.run d).1) (y.run d).2 (finish x d c) := by
  have hx := h.fine d (fun _ => none) c fun _ _ _ => rfl
  rw [finish, run_bind, hx]
  rfl

theorem Agrees.bind {x : FaultyM σ γ α} {y : StateM σ α} {f : α → FaultyM σ γ β}
    {g : α → StateM σ β} (h : Agrees x y) (hf : ∀ a, Agrees (f a) (g a)) :
    Agrees (x >>= f) (y >>= g) where
  pattern s := by rw [run_bind, (hf _).pattern, h.pattern]
  later s := by
    rw [run_bind]
    exact (h.later s).trans ((hf _).later _)
  fine d p c fine := by
    have before := h.later ⟨d, fun _ => none, c⟩
    have after := (hf (y.run d).1).later ⟨(y.run d).2, fun _ => none, finish x d c⟩
    rw [h.finish_bind] at fine ⊢
    rw [run_bind, h.fine d p c (fine.mono after), (hf _).fine _ _ _ (fine.from before)]
    rfl
  shown d p c fine := by
    have before := h.later ⟨d, fun _ => none, c⟩
    rw [run_bind] at fine
    have first := h.shown d p c (fine.mono ((hf _).later _))
    rw [h.fine d p c first] at fine
    rw [h.finish_bind]
    exact first.append ((hf _).shown _ p _ (fine.from before))

theorem Agrees.ite {x x' : FaultyM σ γ α} {y y' : StateM σ α} {c : Prop} [Decidable c]
    (h : Agrees x y) (h' : Agrees x' y') :
    Agrees (if c then x else x') (if c then y else y') := by
  split_ifs
  · exact h
  · exact h'

/-- A failure among the transfers issued is one among those of the perfect run. -/
theorem Agrees.fine_iff {x : FaultyM σ γ α} {y : StateM σ α} (h : Agrees x y) (d : σ)
    (p : ℕ → Option γ) (c : ℕ) : Fine p c (x.run ⟨d, p, c⟩).2.clock ↔ Fine p c (finish x d c) := by
  refine ⟨h.shown d p c, fun fine => ?_⟩
  rw [h.fine d p c fine]
  exact fine

def Keeps (x : FaultyM σ γ α) : Prop := ∀ s, (x.run s).2.state = s.state

theorem Keeps.pure (a : α) : Keeps (pure a : FaultyM σ γ α) := fun _ => rfl

theorem Keeps.bind {x : FaultyM σ γ α} {f : α → FaultyM σ γ β} (h : Keeps x)
    (hf : ∀ a, Keeps (f a)) : Keeps (x >>= f) := fun s => by rw [run_bind, hf, h]

theorem Keeps.ite {x y : FaultyM σ γ α} {c : Prop} [Decidable c] (h : Keeps x) (h' : Keeps y) :
    Keeps (if c then x else y) := by
  split_ifs
  · exact h
  · exact h'

theorem Keeps.transfer {good : σ → α × σ} {bad : γ → σ → α × σ} (hg : ∀ d, (good d).2 = d)
    (hb : ∀ g d, (bad g d).2 = d) : Keeps (FaultyRuns.transfer good bad) := fun s => by
  cases h : s.pattern s.clock
  · simp only [FaultyRuns.transfer, StateT.run, h, hg]
  · simp only [FaultyRuns.transfer, StateT.run, h, hb]

def Refuses (done : ε) (x : FaultyM σ γ (Except ε α)) : Prop :=
  ∀ s e, (x.run s).1 = .error e → e ≠ done

theorem Refuses.error {done e : ε} (ne : e ≠ done) :
    Refuses done (pure (.error e) : FaultyM σ γ (Except ε α)) := fun _ _ h =>
  Except.error.inj h ▸ ne

theorem Refuses.ok {done : ε} (a : α) : Refuses done (pure (.ok a) : FaultyM σ γ (Except ε α)) :=
  fun _ _ h => nomatch h

theorem Refuses.bind {done : ε} (x : FaultyM σ γ β) {f : β → FaultyM σ γ (Except ε α)}
    (hf : ∀ b, Refuses done (f b)) : Refuses done (x >>= f) := fun _ e h => hf _ _ e h

theorem Refuses.ite {done : ε} {x y : FaultyM σ γ (Except ε α)} {c : Prop} [Decidable c]
    (h : Refuses done x) (h' : Refuses done y) : Refuses done (if c then x else y) := by
  split_ifs
  · exact h
  · exact h'

theorem Refuses.map {done : ε} {x : FaultyM σ γ (Except ε α)} (h : Refuses done x) (f : α → β) :
    Refuses done (x >>= fun v => pure (v.map f)) := by
  intro s e he
  rw [run_bind, run_pure] at he
  cases hv : (x.run s).1 with
  | error e' =>
    rw [hv] at he
    exact h s e (hv.trans (congrArg Except.error (Except.error.inj he)))
  | ok a =>
    rw [hv] at he
    contradiction

/-- Checks first, which may refuse with an error; then the work, and `done`. -/
def guarded {m : Type → Type} [Monad m] (done : ε) (check : m (Except ε α)) (body : α → m Unit) :
    m ε :=
  check >>= fun v => match v with
    | .error e => pure e
    | .ok a => body a >>= fun _ => pure done

section Guarded

variable {done : ε} {check : FaultyM σ γ (Except ε α)} {check' : StateM σ (Except ε α)}
  {body : α → FaultyM σ γ Unit} {body' : α → StateM σ Unit}

theorem Agrees.guarded (hc : Agrees check check') (hb : ∀ a, Agrees (body a) (body' a)) :
    Agrees (guarded done check body) (guarded done check' body') := by
  refine hc.bind fun v => ?_
  cases v with
  | error e => exact .pure e
  | ok a => exact (hb a).bind fun _ => .pure done

/-- Without a failure the checks say what they say in the perfect run. -/
theorem guarded_check (hc : Agrees check check') (hb : ∀ a, Agrees (body a) (body' a)) {d : σ}
    {p : ℕ → Option γ} {c : ℕ} (fine : Fine p c (finish (guarded done check body) d c)) :
    (check.run ⟨d, p, c⟩).1 = (check'.run d).1 := by
  have le : finish check d c ≤ finish (guarded done check body) d c := by
    rw [guarded, hc.finish_bind]
    cases (check'.run d).1 with
    | error e => exact le_refl _
    | ok b =>
      exact ((hb b).bind fun _ => .pure done).later
        ⟨(check'.run d).2, fun _ => none, finish check d c⟩
  rw [hc.fine d p c (fine.mono le)]

/-- A guarded program whose checks change nothing meets a relation between the device
before and after, and reports every failure, exactly when it refuses or when no
transfer fails and the perfect run meets the relation. -/
theorem guarded_contained (hc : Agrees check check') (hb : ∀ a, Agrees (body a) (body' a))
    (keeps : Keeps check) (errors : Refuses done check)
    (R : Except ε α → σ → σ → Prop) (hR : ∀ v d, R v d d) (d : σ) (p : ℕ → Option γ) (c : ℕ) :
    (R (check.run ⟨d, p, c⟩).1 d ((guarded done check body).run ⟨d, p, c⟩).2.state ∧
      (((guarded done check body).run ⟨d, p, c⟩).1 = done →
        Fine p c ((guarded done check body).run ⟨d, p, c⟩).2.clock)) ↔
    (∃ e, (check.run ⟨d, p, c⟩).1 = .error e) ∨
      Fine p c (finish (guarded done check body) d c) ∧
        ∃ a, (check'.run d).1 = .ok a ∧ R (.ok a) d ((guarded done check' body').run d).2 := by
  have agrees : Agrees (guarded done check body) (guarded done check' body') := hc.guarded hb
  cases hv : (check.run ⟨d, p, c⟩).1 with
  | error e =>
    have run : (guarded done check body).run ⟨d, p, c⟩ = (e, (check.run ⟨d, p, c⟩).2) := by
      rw [guarded, run_bind, hv]
      rfl
    simp only [run, keeps ⟨d, p, c⟩, Except.error.injEq, exists_eq', true_or, iff_true]
    exact ⟨hR _ d, fun h => absurd h (errors _ e hv)⟩
  | ok a =>
    have ret : ((guarded done check body).run ⟨d, p, c⟩).1 = done := by
      rw [guarded, run_bind, hv]
      rfl
    have first (fine : Fine p c (finish (guarded done check body) d c)) :
        (check'.run d).1 = .ok a := (guarded_check hc hb fine).symm.trans hv
    simp only [ret, true_imp_iff, agrees.fine_iff, reduceCtorEq, exists_false, false_or]
    constructor
    · rintro ⟨rel, fine⟩
      rw [agrees.fine d p c fine] at rel
      exact ⟨fine, a, first fine, rel⟩
    · rintro ⟨fine, b, hb', rel⟩
      obtain rfl : a = b := Except.ok.inj ((first fine).symm.trans hb')
      rw [agrees.fine d p c fine]
      exact ⟨rel, fine⟩

end Guarded

end TinyOS.FaultyRuns
