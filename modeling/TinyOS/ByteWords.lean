import Mathlib

set_option autoImplicit false

/-! Little-endian words inside byte records, and fixed-size records inside
larger blocks. Nothing here depends on what the bytes mean. -/
namespace TinyOS.ByteWords

def wordByte (w : UInt32) (i : ℕ) : UInt8 := UInt8.ofNat (w.toNat / 256^i)

/-- The word whose bytes are `f off .. f (off+3)`. -/
def wordAt (f : ℕ → UInt8) (off : ℕ) : UInt32 :=
  UInt32.ofNat ((f off).toNat + 256*(f (off+1)).toNat +
    65536*(f (off+2)).toNat + 16777216*(f (off+3)).toNat)

theorem wordByte_toNat (w : UInt32) (i : ℕ) :
    (wordByte w i).toNat = w.toNat / 256^i % 256 := by
  simp [wordByte]

theorem wordAt_toNat (f : ℕ → UInt8) (off : ℕ) :
    (wordAt f off).toNat = (f off).toNat + 256*(f (off+1)).toNat +
      65536*(f (off+2)).toNat + 16777216*(f (off+3)).toNat := by
  have h0 := (f off).toNat_lt
  have h1 := (f (off+1)).toNat_lt
  have h2 := (f (off+2)).toNat_lt
  have h3 := (f (off+3)).toNat_lt
  rw [wordAt, UInt32.toNat_ofNat_of_lt']
  change _ < 4294967296
  omega

theorem wordAt_wordByte (f : ℕ → UInt8) (off : ℕ) (w : UInt32)
    (h : ∀ i < 4, f (off+i) = wordByte w i) : wordAt f off = w := by
  have hw := w.toNat_lt
  have h0 : f off = wordByte w 0 := h 0 (by omega)
  apply UInt32.toNat_inj.mp
  rw [wordAt_toNat, h0, h 1 (by omega), h 2 (by omega), h 3 (by omega)]
  simp only [wordByte_toNat, pow_zero, pow_one, Nat.div_one]
  norm_num
  omega

theorem wordByte_wordAt (f : ℕ → UInt8) (off i : ℕ) (hi : i < 4) :
    wordByte (wordAt f off) i = f (off+i) := by
  have h0 := (f off).toNat_lt
  have h1 := (f (off+1)).toNat_lt
  have h2 := (f (off+2)).toNat_lt
  have h3 := (f (off+3)).toNat_lt
  apply UInt8.toNat_inj.mp
  rw [wordByte_toNat, wordAt_toNat]
  interval_cases i
  · simp only [pow_zero, Nat.div_one, Nat.add_zero]; omega
  · simp only [pow_one]; omega
  · norm_num; omega
  · norm_num; omega

theorem slot_lt {R K S : ℕ} (fit : K*R ≤ S) (k : Fin K) (j : Fin R) : k.val*R+j.val < S := by
  have hk := Nat.mul_le_mul_right R (Nat.succ_le_of_lt k.isLt)
  have hj := j.isLt
  rw [Nat.succ_mul] at hk
  omega

theorem slot_disjoint {a b j R : ℕ} (hj : j < R) (hne : a ≠ b) :
    ¬(a*R ≤ b*R+j ∧ b*R+j < a*R+R) := by
  rintro ⟨hl, hr⟩
  rcases Nat.lt_or_gt_of_ne hne with h | h
  · have hm := Nat.mul_le_mul_right R (Nat.succ_le_of_lt h)
    rw [Nat.succ_mul] at hm
    omega
  · have hm := Nat.mul_le_mul_right R (Nat.succ_le_of_lt h)
    rw [Nat.succ_mul] at hm
    omega

section Slots

variable {β : Type*} {R K S : ℕ}

def getSlot (fit : K*R ≤ S) (block : Fin S → β) (k : Fin K) : Fin R → β :=
  fun j => block ⟨k.val*R+j.val, slot_lt fit k j⟩

def putSlot (block : Fin S → β) (k : Fin K) (r : Fin R → β) : Fin S → β := fun i =>
  if h : k.val*R ≤ i.val ∧ i.val < k.val*R+R then r ⟨i.val-k.val*R, by omega⟩ else block i

variable (fit : K*R ≤ S) (block : Fin S → β) (k l : Fin K) (r : Fin R → β)

@[simp] theorem getSlot_putSlot : getSlot fit (putSlot block k r) k = r := by
  funext j
  simp [getSlot, putSlot]

theorem getSlot_putSlot_of_ne (hne : k ≠ l) :
    getSlot fit (putSlot block k r) l = getSlot fit block l := by
  funext j
  have hv : k.val ≠ l.val := fun h => hne (Fin.ext h)
  simp only [getSlot, putSlot, slot_disjoint j.isLt hv, ↓reduceDIte]

theorem putSlot_outside (i : Fin S) (hi : i.val < k.val*R ∨ k.val*R+R ≤ i.val) :
    putSlot block k r i = block i := by
  have hn : ¬(k.val*R ≤ i.val ∧ i.val < k.val*R+R) := by omega
  simp only [putSlot, hn, ↓reduceDIte]

end Slots

end TinyOS.ByteWords
