import Mathlib

set_option autoImplicit false

/-! Numerals in a base, the most significant digit first, and bounded stacks that take their
digits one by one. -/
namespace TinyOS.Numerals

variable {b n : ℕ} {ds : List ℕ}

def value (b : ℕ) (ds : List ℕ) : ℕ := ds.foldl (fun v d => v*b+d) 0

structure Canonical (b n : ℕ) (ds : List ℕ) : Prop where
  nonempty : ds ≠ []
  digit : ∀ d ∈ ds, d < b
  value_eq : value b ds = n
  leading : ds.head? = some 0 → ds = [0]

def numeral (b n : ℕ) : List ℕ := if n = 0 then [0] else (Nat.digits b n).reverse

theorem numeral_zero : numeral b 0 = [0] := if_pos rfl

theorem numeral_of_ne (h : n ≠ 0) : numeral b n = (Nat.digits b n).reverse := if_neg h

theorem value_reverse (b : ℕ) (ds : List ℕ) : value b ds.reverse = Nat.ofDigits b ds := by
  rw [value, List.foldl_reverse, Nat.ofDigits_eq_foldr]
  congr 1
  funext d v
  rw [Nat.cast_id, Nat.mul_comm, Nat.add_comm]

theorem value_single (b d : ℕ) : value b [d] = d := by
  rw [value, List.foldl_cons, List.foldl_nil, Nat.zero_mul, Nat.zero_add]

theorem canonical_numeral (hb : 1 < b) (n : ℕ) : Canonical b n (numeral b n) := by
  by_cases h0 : n = 0
  · subst h0
    rw [numeral_zero]
    refine ⟨List.cons_ne_nil _ _, ?_, value_single b 0, fun _ => rfl⟩
    intro d hd
    rw [List.mem_singleton.mp hd]
    omega
  · rw [numeral_of_ne h0]
    have nonempty : Nat.digits b n ≠ [] := Nat.digits_ne_nil_iff_ne_zero.mpr h0
    refine ⟨fun h => nonempty (List.reverse_eq_nil_iff.mp h), ?_, ?_, ?_⟩
    · intro d hd
      exact Nat.digits_lt_base hb (List.mem_reverse.mp hd)
    · rw [value_reverse, Nat.ofDigits_digits]
    · intro first
      rw [List.head?_reverse, List.getLast?_eq_getLast_of_ne_nil nonempty] at first
      exact absurd (Option.some.inj first) (Nat.getLast_digit_ne_zero b h0)

theorem canonical_iff (hb : 1 < b) : Canonical b n ds ↔ ds = numeral b n := by
  constructor
  · intro h
    by_cases lone : ds = [0]
    · have zero : n = 0 := by
        rw [← h.value_eq, lone, value_single]
      rw [lone, zero, numeral_zero]
    · have last (hne : ds.reverse ≠ []) : ds.reverse.getLast hne ≠ 0 := by
        intro zero
        refine lone (h.leading ?_)
        rw [← List.getLast?_reverse, List.getLast?_eq_getLast_of_ne_nil hne, zero]
      have number : Nat.ofDigits b ds.reverse = n := by
        rw [← value_reverse, List.reverse_reverse, h.value_eq]
      have digits : Nat.digits b n = ds.reverse := by
        rw [← number]
        exact Nat.digits_ofDigits b hb ds.reverse
          (fun d hd => h.digit d (List.mem_reverse.mp hd)) last
      have ne : n ≠ 0 := by
        rintro rfl
        rw [Nat.digits_zero] at digits
        exact h.nonempty (List.reverse_eq_nil_iff.mp digits.symm)
      rw [numeral_of_ne ne, digits, List.reverse_reverse]
  · rintro rfl
    exact canonical_numeral hb n

variable {α σ : Type} {push : α → σ → Option σ} {holds : σ → List α → Prop} {good : α → Prop}
  {room : ℕ} {s : σ} {l : List α}

/-- Pushing a good item succeeds below `room` items, and leaves it on top of the others. -/
structure Stack (push : α → σ → Option σ) (holds : σ → List α → Prop) (good : α → Prop)
    (room : ℕ) : Prop where
  step : ∀ a s l, good a → holds s l → l.length < room →
    ∃ s', push a s = some s' ∧ holds s' (a :: l)

theorem Stack.push_all (h : Stack push holds good room) (items : List α)
    (all : ∀ a ∈ items, good a) (start : holds s l) (fits : items.length+l.length ≤ room) :
    ∃ s', items.foldlM (fun s a => push a s) s = some s' ∧ holds s' (items.reverse++l) := by
  induction items generalizing s l with
  | nil => exact ⟨s, rfl, start⟩
  | cons a items ih =>
    rw [List.length_cons] at fits
    obtain ⟨t, first, ht⟩ := h.step a s l (all a List.mem_cons_self) start (by omega)
    obtain ⟨u, rest, hu⟩ := ih (fun c hc => all c (List.mem_cons_of_mem a hc)) ht
      (by rw [List.length_cons]; omega)
    refine ⟨u, ?_, ?_⟩
    · rw [List.foldlM_cons, first]
      exact rest
    · rw [List.reverse_cons, List.append_assoc]
      exact hu

end TinyOS.Numerals
