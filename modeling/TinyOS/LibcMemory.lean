import TinyOS.Pages

set_option autoImplicit false

/-! memcpy and memmove of libc/string.c on a byte memory with 64-bit pointers. -/
namespace TinyOS.LibcMemory
open Memory

abbrev Bytes := Word → BitVec 8

/-- `while (n--) *d++ = *s++;` -/
def copyUp : ℕ → Word → Word → Bytes → Bytes
  | 0, _, _, m => m
  | n+1, d, s, m => copyUp n (d+1) (s+1) (Function.update m d (m s))

/-- `while (n--) *--d = *--s;` -/
def copyDown : ℕ → Word → Word → Bytes → Bytes
  | 0, _, _, m => m
  | n+1, d, s, m => copyDown n (d-1) (s-1) (Function.update m (d-1) (m (s-1)))

def memcpy (dest src n : Word) : StateM Bytes Word := fun m => (dest, copyUp n.toNat dest src m)

def memmove (dest src n : Word) : StateM Bytes Word := fun m =>
  if dest < src then (dest, copyUp n.toNat dest src m)
  else (dest, copyDown n.toNat (dest+n) (src+n) m)

/-- `n` bytes from `src` are in place at `dest`, and nothing else has changed. -/
structure Moved (m m' : Bytes) (dest src : Word) (n : ℕ) : Prop where
  copied : ∀ i < n, m' (dest+BitVec.ofNat 64 i) = m (src+BitVec.ofNat 64 i)
  frame : ∀ a, (∀ i < n, a ≠ dest+BitVec.ofNat 64 i) → m' a = m a

variable {m m' : Bytes} {dest src a : Word} {n : ℕ}

theorem add_ofNat_succ (p : Word) (i : ℕ) :
    p+1+BitVec.ofNat 64 i = p+BitVec.ofNat 64 (i+1) := by
  rw [BitVec.ofNat_add, BitVec.add_assoc, BitVec.add_comm (BitVec.ofNat 64 i)]
  rfl

theorem cells_ne {p : Word} {i j : ℕ} (h : p.toNat+n ≤ 2^64) (hi : i < n) (hj : j < n)
    (ne : i ≠ j) : p+BitVec.ofNat 64 i ≠ p+BitVec.ofNat 64 j := by
  intro eq
  have eq := congrArg BitVec.toNat eq
  rw [toNat_add_ofNat (by omega), toNat_add_ofNat (by omega)] at eq
  omega

theorem copyUp_moved
    (cells : ∀ i j, i < j → j < n → dest+BitVec.ofNat 64 i ≠ dest+BitVec.ofNat 64 j)
    (unread : ∀ i j, i < j → j < n → src+BitVec.ofNat 64 j ≠ dest+BitVec.ofNat 64 i) :
    Moved m (copyUp n dest src m) dest src n := by
  induction n generalizing dest src m with
  | zero => exact ⟨fun i hi => absurd hi (Nat.not_lt_zero i), fun _ _ => rfl⟩
  | succ n ih =>
    have zero (p : Word) : p+BitVec.ofNat 64 0 = p := by simp
    obtain ⟨copied, frame⟩ := @ih (Function.update m dest (m src)) (dest+1) (src+1)
      (fun i j lt hj => by
        rw [add_ofNat_succ, add_ofNat_succ]
        exact cells (i+1) (j+1) (by omega) (by omega))
      (fun i j lt hj => by
        rw [add_ofNat_succ, add_ofNat_succ]
        exact unread (i+1) (j+1) (by omega) (by omega))
    rw [copyUp]
    constructor
    · intro i hi
      cases i with
      | zero =>
        rw [zero, zero, frame, Function.update_self]
        intro j hj
        rw [add_ofNat_succ]
        have ne := cells 0 (j+1) (by omega) (by omega)
        rwa [zero] at ne
      | succ i =>
        have ne := unread 0 (i+1) (by omega) hi
        rw [zero] at ne
        rw [← add_ofNat_succ, ← add_ofNat_succ, copied i (by omega), add_ofNat_succ,
          Function.update_of_ne ne]
    · intro a outside
      have ne := outside 0 (by omega)
      rw [zero] at ne
      rw [frame, Function.update_of_ne ne]
      intro i hi
      rw [add_ofNat_succ]
      exact outside (i+1) (by omega)

/-- Going down from the ends, no cell is written before it is read. -/
theorem copyDown_moved
    (cells : ∀ i j, i < j → j < n → dest+BitVec.ofNat 64 i ≠ dest+BitVec.ofNat 64 j)
    (unread : ∀ i j, i < j → j < n → src+BitVec.ofNat 64 i ≠ dest+BitVec.ofNat 64 j) :
    Moved m (copyDown n (dest+BitVec.ofNat 64 n) (src+BitVec.ofNat 64 n) m) dest src n := by
  induction n generalizing m with
  | zero => exact ⟨fun i hi => absurd hi (Nat.not_lt_zero i), fun _ _ => rfl⟩
  | succ n ih =>
    have last (p : Word) : p+BitVec.ofNat 64 (n+1)-1 = p+BitVec.ofNat 64 n := by
      rw [← add_ofNat_succ, BitVec.add_assoc, BitVec.add_comm 1, ← BitVec.add_assoc,
        BitVec.add_sub_cancel]
    rw [copyDown, last, last]
    obtain ⟨copied, frame⟩ := @ih
      (Function.update m (dest+BitVec.ofNat 64 n) (m (src+BitVec.ofNat 64 n)))
      (fun i j lt hj => cells i j lt (by omega)) (fun i j lt hj => unread i j lt (by omega))
    constructor
    · intro i hi
      by_cases eq : i = n
      · rw [eq, frame, Function.update_self]
        exact fun j hj => (cells j n hj (by omega)).symm
      · rw [copied i (by omega), Function.update_of_ne (unread i n (by omega) (by omega))]
    · intro a outside
      rw [frame a fun i hi => outside i (by omega),
        Function.update_of_ne (outside n (by omega))]

theorem Moved.unique {m₁ m₂ : Bytes} (h₁ : Moved m m₁ dest src n) (h₂ : Moved m m₂ dest src n) :
    m₁ = m₂ := by
  funext a
  by_cases inside : ∃ i < n, a = dest+BitVec.ofNat 64 i
  · obtain ⟨i, hi, rfl⟩ := inside
    rw [h₁.copied i hi, h₂.copied i hi]
  · have outside : ∀ i < n, a ≠ dest+BitVec.ofNat 64 i := fun i hi eq => inside ⟨i, hi, eq⟩
    rw [h₁.frame a outside, h₂.frame a outside]

section Ranges

variable {count : Word} (hd : dest.toNat+count.toNat ≤ 2^64) (hs : src.toNat+count.toNat ≤ 2^64)
include hd hs

theorem copyUp_range (apart : dest < src ∨ src.toNat+count.toNat ≤ dest.toNat) :
    Moved m (copyUp count.toNat dest src m) dest src count.toNat := by
  refine copyUp_moved (fun i j lt hj => cells_ne hd (by omega) hj (by omega)) ?_
  intro i j lt hj eq
  have eq := congrArg BitVec.toNat eq
  rw [toNat_add_ofNat (by omega), toNat_add_ofNat (by omega)] at eq
  rw [BitVec.lt_def] at apart
  omega

theorem memmove_moved : Moved m ((memmove dest src count).run m).2 dest src count.toNat := by
  change Moved m (memmove dest src count m).2 dest src count.toNat
  by_cases below : dest < src
  · simp only [memmove, if_pos below]
    exact copyUp_range hd hs (.inl below)
  · simp only [memmove, if_neg below]
    rw [BitVec.lt_def] at below
    have down := @copyDown_moved m dest src count.toNat
      (fun i j lt hj => cells_ne hd (by omega) hj (by omega))
      (fun i j lt hj eq => by
        have eq := congrArg BitVec.toNat eq
        rw [toNat_add_ofNat (by omega), toNat_add_ofNat (by omega)] at eq
        omega)
    rwa [BitVec.ofNat_toNat, BitVec.setWidth_eq] at down

theorem memcpy_moved (apart : dest.toNat+count.toNat ≤ src.toNat ∨
    src.toNat+count.toNat ≤ dest.toNat) :
    Moved m ((memcpy dest src count).run m).2 dest src count.toNat := by
  change Moved m (copyUp count.toNat dest src m) dest src count.toNat
  rcases Nat.eq_zero_or_pos count.toNat with zero | pos
  · rw [zero]
    exact ⟨fun i hi => absurd hi (Nat.not_lt_zero i), fun _ _ => rfl⟩
  · refine copyUp_range hd hs (apart.imp_left fun le => ?_)
    rw [BitVec.lt_def]
    omega

end Ranges

/-- Whatever the overlap, `memmove` copies the bytes the source held before, changes no
other byte and returns `dest`; `memcpy` agrees with it on ranges that lie apart. -/
theorem memmove_correct (dest src n : Word) (m : Bytes) (hd : dest.toNat+n.toNat ≤ 2^64)
    (hs : src.toNat+n.toNat ≤ 2^64) :
    ((memmove dest src n).run m).1 = dest ∧
    (∀ i < n.toNat, ((memmove dest src n).run m).2 (dest+BitVec.ofNat 64 i) =
      m (src+BitVec.ofNat 64 i)) ∧
    (∀ a : Word, ¬(dest.toNat ≤ a.toNat ∧ a.toNat < dest.toNat+n.toNat) →
      ((memmove dest src n).run m).2 a = m a) ∧
    (dest.toNat+n.toNat ≤ src.toNat ∨ src.toNat+n.toNat ≤ dest.toNat →
      (memcpy dest src n).run m = (memmove dest src n).run m) := by
  have returns : ((memmove dest src n).run m).1 = dest := by
    change (memmove dest src n m).1 = dest
    rw [memmove]
    split_ifs <;> rfl
  have moved := @memmove_moved m dest src n hd hs
  refine ⟨returns, moved.copied, fun a outside => moved.frame a fun i hi eq => ?_, fun apart => ?_⟩
  · rw [eq, toNat_add_ofNat (by omega)] at outside
    omega
  · exact Prod.ext returns.symm ((memcpy_moved hd hs apart).unique moved)

theorem memmove_correct_overlap :
    ((memmove 0x1001 0x1000 3).run fun a => a.setWidth 8).2 0x1003 = 2 :=
  (memmove_correct 0x1001 0x1000 3 (fun a => a.setWidth 8) (by decide)
    (by decide)).2.1 2 (by decide)

end TinyOS.LibcMemory
