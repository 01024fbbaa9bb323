import Mathlib

set_option autoImplicit false

/-! Programs that log what they do: a logging program computes what the program without the log
does, and a property of all events is proved call by call. -/
namespace TinyOS.EventLogs

variable {σ ε α β : Type}

abbrev LogM (σ ε : Type) := StateM (σ × List ε)

def silent (x : StateM σ α) : LogM σ ε α := fun s => ((x.run s.1).1, ((x.run s.1).2, s.2))

def emit (event : σ → ε) : LogM σ ε Unit := fun s => ((), (s.1, s.2 ++ [event s.1]))

def fetch (e : ε) (f : σ → α) : LogM σ ε α := fun s => (f s.1, (s.1, s.2 ++ [e]))

theorem log_bind (x : LogM σ ε α) (f : α → LogM σ ε β) (s : σ × List ε) :
    (x >>= f).run s = (f (x.run s).1).run (x.run s).2 := rfl

theorem log_read (f : σ → LogM σ ε β) (s : σ × List ε) :
    (silent get >>= f).run s = (f s.1).run s := rfl

theorem emit_run (event : σ → ε) (s : σ × List ε) :
    (emit event).run s = ((), (s.1, s.2 ++ [event s.1])) := rfl

def Erases (x : LogM σ ε α) (y : StateM σ α) : Prop :=
  ∀ s, (x.run s).1 = (y.run s.1).1 ∧ (x.run s).2.1 = (y.run s.1).2

theorem Erases.pure (a : α) : Erases (pure a : LogM σ ε α) (pure a) := fun _ => ⟨rfl, rfl⟩

theorem Erases.silent (x : StateM σ α) : Erases (silent x : LogM σ ε α) x := fun _ => ⟨rfl, rfl⟩

theorem Erases.bind {x : LogM σ ε α} {y : StateM σ α} {f : α → LogM σ ε β} {g : α → StateM σ β}
    (h : Erases x y) (h' : ∀ a, Erases (f a) (g a)) : Erases (x >>= f) (y >>= g) := by
  intro s
  obtain ⟨value, state⟩ := h s
  have next := h' (y.run s.1).1 (x.run s).2
  rw [log_bind, value]
  rw [state] at next
  exact next

theorem Erases.emit {event : σ → ε} {x : LogM σ ε α} {y : StateM σ α} (h : Erases x y) :
    Erases (emit event >>= fun _ => x) y := fun s => h (s.1, s.2 ++ [event s.1])

theorem Erases.fetch (e : ε) (f : σ → α) : Erases (fetch e f) fun s => (f s, s) :=
  fun _ => ⟨rfl, rfl⟩

theorem Erases.ite {p : Prop} [Decidable p] {x x' : LogM σ ε α} {y y' : StateM σ α}
    (h : Erases x y) (h' : Erases x' y') :
    Erases (if p then x else x') (if p then y else y') := by
  split_ifs
  · exact h
  · exact h'

def Reads (x : LogM σ ε α) (f : σ → α) : Prop := Erases x fun s => (f s, s)

theorem Reads.pure (a : α) : Reads (pure a : LogM σ ε α) fun _ => a := fun _ => ⟨rfl, rfl⟩

theorem Reads.fetch (e : ε) (f : σ → α) : Reads (fetch e f) f := Erases.fetch e f

theorem Reads.get : Reads (silent get : LogM σ ε σ) id := fun _ => ⟨rfl, rfl⟩

theorem Reads.bind {x : LogM σ ε α} {f : σ → α} {y : α → LogM σ ε β} {g : α → σ → β}
    (h : Reads x f) (h' : ∀ a, Reads (y a) (g a)) : Reads (x >>= y) fun s => g (f s) s := by
  intro s
  obtain ⟨value, state⟩ := h s
  obtain ⟨value', state'⟩ := h' (f s.1) (x.run s).2
  change (x.run s).1 = f s.1 at value
  change (x.run s).2.1 = s.1 at state
  rw [log_bind, value, value', state', state]
  exact ⟨rfl, rfl⟩

theorem Reads.ite {p : Prop} [Decidable p] {x y : LogM σ ε α} {f g : σ → α}
    (h : Reads x f) (h' : Reads y g) :
    Reads (if p then x else y) fun s => if p then f s else g s := by
  split_ifs
  · exact h
  · exact h'

theorem Reads.check {x : LogM σ ε α} {f : σ → α} {p : α → Prop} [DecidablePred p] {stop : β}
    {rest : LogM σ ε β} {g : σ → β} (h : Reads x f) (h' : Reads rest g) :
    Reads (x >>= fun a => if p a then Pure.pure stop else rest)
      fun s => if p (f s) then stop else g s :=
  h.bind fun _ => .ite (.pure stop) h'

def Emits (P : ε → Prop) (x : LogM σ ε α) : Prop :=
  ∀ s, ∃ new, (x.run s).2.2 = s.2 ++ new ∧ ∀ e ∈ new, P e

variable {P Q : ε → Prop}

theorem Emits.pure (a : α) : Emits P (pure a : LogM σ ε α) :=
  fun s => ⟨[], (List.append_nil s.2).symm, fun _ h => absurd h List.not_mem_nil⟩

theorem Emits.silent (x : StateM σ α) : Emits P (silent x : LogM σ ε α) :=
  fun s => ⟨[], (List.append_nil s.2).symm, fun _ h => absurd h List.not_mem_nil⟩

theorem Emits.emit {event : σ → ε} (h : ∀ s, P (event s)) : Emits P (emit event) := by
  refine fun s => ⟨[event s.1], rfl, fun e mem => ?_⟩
  rw [List.mem_singleton.mp mem]
  exact h s.1

theorem Emits.fetch {e : ε} (h : P e) (f : σ → α) : Emits P (fetch e f) := by
  refine fun s => ⟨[e], rfl, fun e' mem => ?_⟩
  rw [List.mem_singleton.mp mem]
  exact h

theorem Emits.bind {x : LogM σ ε α} {f : α → LogM σ ε β} (h : Emits P x)
    (h' : ∀ a, Emits P (f a)) : Emits P (x >>= f) := by
  intro s
  obtain ⟨first, run₁, all₁⟩ := h s
  obtain ⟨second, run₂, all₂⟩ := h' (x.run s).1 (x.run s).2
  refine ⟨first ++ second, ?_, fun e mem => (List.mem_append.mp mem).elim (all₁ e) (all₂ e)⟩
  rw [log_bind, run₂, run₁, List.append_assoc]

theorem Emits.ite {p : Prop} [Decidable p] {x x' : LogM σ ε α} (h : p → Emits P x)
    (h' : ¬p → Emits P x') : Emits P (if p then x else x') := by
  split_ifs with hp
  · exact h hp
  · exact h' hp

theorem Emits.check {x : LogM σ ε α} {p : α → Prop} [DecidablePred p] {stop : β}
    {rest : LogM σ ε β} (h : Emits P x) (h' : Emits P rest) :
    Emits P (x >>= fun a => if p a then Pure.pure stop else rest) :=
  h.bind fun _ => .ite (fun _ => .pure stop) fun _ => h'

theorem Emits.mono {x : LogM σ ε α} (h : Emits P x) (le : ∀ e, P e → Q e) : Emits Q x := by
  intro s
  obtain ⟨new, run, all⟩ := h s
  exact ⟨new, run, fun e mem => le e (all e mem)⟩

theorem Emits.mem {x : LogM σ ε α} (h : Emits P x) {s : σ × List ε} {e : ε} (mem : e ∈ s.2) :
    e ∈ (x.run s).2.2 := by
  obtain ⟨new, run, -⟩ := h s
  rw [run]
  exact List.mem_append_left new mem

/-- From states with an invariant on the program keeps it and adds only events with the
property. -/
def Guards (I : σ → Prop) (P : ε → Prop) (x : LogM σ ε α) : Prop := ∀ s, I s.1 →
  I (x.run s).2.1 ∧ ∃ new, (x.run s).2.2 = s.2 ++ new ∧ ∀ e ∈ new, P e

section
variable {I : σ → Prop}

theorem Guards.pure (a : α) : Guards I P (pure a : LogM σ ε α) :=
  fun s h => ⟨h, [], (List.append_nil s.2).symm, fun _ mem => absurd mem List.not_mem_nil⟩

theorem Guards.silent {x : StateM σ α} (h : ∀ s, I s → I (x.run s).2) :
    Guards I P (silent x : LogM σ ε α) :=
  fun s here => ⟨h s.1 here, [], (List.append_nil s.2).symm,
    fun _ mem => absurd mem List.not_mem_nil⟩

theorem Guards.emit {event : σ → ε} (h : ∀ s, P (event s)) : Guards I P (emit event) := by
  refine fun s here => ⟨here, [event s.1], rfl, fun e mem => ?_⟩
  rw [List.mem_singleton.mp mem]
  exact h s.1

theorem Guards.bind {x : LogM σ ε α} {f : α → LogM σ ε β} (h : Guards I P x)
    (h' : ∀ a, Guards I P (f a)) : Guards I P (x >>= f) := by
  intro s here
  obtain ⟨kept, first, run₁, all₁⟩ := h s here
  obtain ⟨kept', second, run₂, all₂⟩ := h' (x.run s).1 (x.run s).2 kept
  refine ⟨kept', first ++ second, ?_,
    fun e mem => (List.mem_append.mp mem).elim (all₁ e) (all₂ e)⟩
  rw [log_bind, run₂, run₁, List.append_assoc]

theorem Guards.ite {p : Prop} [Decidable p] {x x' : LogM σ ε α} (h : Guards I P x)
    (h' : Guards I P x') : Guards I P (if p then x else x') := by
  split_ifs
  · exact h
  · exact h'

theorem Guards.read {f : σ → LogM σ ε β} (h : ∀ s, I s → Guards I P (f s)) :
    Guards I P (EventLogs.silent get >>= f) := fun s here => h s.1 here s here

theorem Guards.mono {x : LogM σ ε α} (h : Guards I P x) (le : ∀ e, P e → Q e) : Guards I Q x := by
  intro s here
  obtain ⟨kept, new, run, all⟩ := h s here
  exact ⟨kept, new, run, fun e mem => le e (all e mem)⟩

end

/-- An event that is not in the first part of a log is in the second. -/
theorem split_after {first second l₁ l₂ : List ε} {e : ε} (h : first ++ second = l₁ ++ e :: l₂)
    (out : e ∉ first) : ∃ l, l₁ = first ++ l ∧ second = l ++ e :: l₂ := by
  rcases List.append_eq_append_iff.mp h with ⟨l, eq, rest⟩ | ⟨l, eq, rest⟩
  · exact ⟨l, eq, rest⟩
  · cases l with
    | nil => exact ⟨[], by rw [eq, List.append_nil, List.append_nil], by rw [rest]; rfl⟩
    | cons e' l =>
      obtain rfl : e = e' := (List.cons.inj rest).1
      rw [eq] at out
      exact absurd (List.mem_append_right l₁ List.mem_cons_self) out

end TinyOS.EventLogs
