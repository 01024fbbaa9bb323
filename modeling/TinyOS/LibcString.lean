import Mathlib

set_option autoImplicit false

/-! The string routines of libc/string.c that the file system calls. Memory from
a `char *` on is a list of bytes; a byte past its end reads as NUL. -/
namespace TinyOS.LibcString

def cstr (s : List UInt8) : List UInt8 := s.takeWhile (· ≠ 0)

/-- A string argument: its characters, the terminator left out. -/
structure CString where
  chars : List UInt8
  noNul : 0 ∉ chars
  deriving DecidableEq

theorem chars_inj {m n : CString} : m.chars = n.chars ↔ m = n := by
  constructor
  · intro h
    cases m
    cases n
    congr
  · rintro rfl
    rfl

def strlen : List UInt8 → ℕ
  | [] => 0
  | c :: s => if c = 0 then 0 else strlen s+1

def strcmp : List UInt8 → List UInt8 → ℤ
  | [], b => 0-(b.headD 0).toNat
  | c :: a, b =>
    if c ≠ 0 ∧ c = b.headD 0 then strcmp a b.tail else (c.toNat : ℤ)-(b.headD 0).toNat

def strncpy : List UInt8 → ℕ → List UInt8
  | _, 0 => []
  | [], n+1 => 0 :: strncpy [] n
  | c :: s, n+1 => if c = 0 then 0 :: strncpy [] n else c :: strncpy s n

@[simp] theorem cstr_nil : cstr [] = [] := rfl

theorem cstr_cons (c : UInt8) (s : List UInt8) :
    cstr (c :: s) = if c = 0 then [] else c :: cstr s := by
  by_cases h : c = 0 <;> simp [cstr, h]

theorem cstr_noNul (s : List UInt8) : 0 ∉ cstr s := fun h => by
  simpa using List.mem_takeWhile_imp h

theorem cstr_of_noNul {s : List UInt8} (h : 0 ∉ s) : cstr s = s := by
  rw [cstr, List.takeWhile_eq_self_iff]
  intro c hc
  have hne : c ≠ 0 := by rintro rfl; exact h hc
  simpa using hne

@[simp] theorem cstr_chars (n : CString) : cstr n.chars = n.chars := cstr_of_noNul n.noNul

theorem strlen_eq (s : List UInt8) : strlen s = (cstr s).length := by
  induction s with
  | nil => rfl
  | cons c s ih =>
    rw [strlen, cstr_cons]
    split_ifs <;> simp [ih]

@[simp] theorem strlen_chars (n : CString) : strlen n.chars = n.chars.length := by
  rw [strlen_eq, cstr_chars]

theorem uint8_sub_eq_zero {a b : UInt8} : (a.toNat : ℤ)-b.toNat = 0 ↔ a = b := by
  rw [sub_eq_zero, Nat.cast_inj, UInt8.toNat_inj]

/-- `strcmp` finds two strings equal when they agree up to their terminators. -/
theorem strcmp_eq_zero (a b : List UInt8) : strcmp a b = 0 ↔ cstr a = cstr b := by
  induction a generalizing b with
  | nil =>
    cases b with
    | nil => simp [strcmp]
    | cons d b =>
      have h : strcmp [] (d :: b) = ((0 : UInt8).toNat : ℤ)-d.toNat := rfl
      rw [h, uint8_sub_eq_zero, cstr_nil, cstr_cons]
      split_ifs with hd
      · simp [hd]
      · simp [Ne.symm hd]
  | cons c a ih =>
    rw [strcmp]
    by_cases hc : c = 0
    · subst hc
      cases b with
      | nil => simp [cstr_cons]
      | cons d b =>
        simp only [ne_eq, not_true_eq_false, false_and, ↓reduceIte, List.headD_cons,
          uint8_sub_eq_zero, cstr_cons]
        split_ifs with hd
        · simp [hd]
        · simp [Ne.symm hd]
    · cases b with
      | nil =>
        simp only [List.headD_nil, ne_eq, hc, not_false_eq_true, and_false, ↓reduceIte,
          uint8_sub_eq_zero, cstr_cons, cstr_nil, reduceCtorEq]
      | cons d b =>
        simp only [ne_eq, hc, not_false_eq_true, List.headD_cons, true_and, List.tail_cons,
          cstr_cons, ↓reduceIte]
        by_cases hd : c = d
        · subst hd
          simp [ih b, hc]
        · rw [if_neg hd, uint8_sub_eq_zero]
          split_ifs <;> simp [hd]

@[simp] theorem strncpy_length (s : List UInt8) (n : ℕ) : (strncpy s n).length = n := by
  fun_induction strncpy s n with
  | case1 => rfl
  | case2 n ih => simpa using ih
  | case3 s n ih => simpa using ih
  | case4 c s n hc ih => simpa using ih

theorem cstr_strncpy (s : List UInt8) (n : ℕ) : cstr (strncpy s n) = (cstr s).take n := by
  fun_induction strncpy s n with
  | case1 => simp
  | case2 n ih => simp [cstr_cons]
  | case3 s n ih => simp [cstr_cons]
  | case4 c s n hc ih => simp [cstr_cons, hc, ih]

/-- Cutting a padded copy at `m` cells keeps the first `m` characters. -/
theorem strncpy_take (s : List UInt8) (n m : ℕ) (h : m ≤ n) :
    (strncpy s n).take m = strncpy s m := by
  fun_induction strncpy s n generalizing m with
  | case1 => simp [Nat.le_zero.mp h, strncpy]
  | case2 n ih =>
    cases m with
    | zero => simp [strncpy]
    | succ m => simp [strncpy, ih m (by omega)]
  | case3 s n ih =>
    cases m with
    | zero => simp [strncpy]
    | succ m => simp [strncpy, ih m (by omega)]
  | case4 c s n hc ih =>
    cases m with
    | zero => simp [strncpy]
    | succ m => simp [strncpy, hc, ih m (by omega)]

end TinyOS.LibcString
