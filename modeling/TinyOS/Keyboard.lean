import TinyOS.ShellCat

set_option autoImplicit false

/-! drivers/keyboard/keyboard.c: scan codes of set 1 to characters. -/
namespace TinyOS.Keys
open Shell

def scAscii : List UInt8 :=
  [0, 0] ++ literal "1234567890-=" ++ [8, 9] ++ literal "qwertyuiop[]" ++ [10, 0] ++
    literal "asdfghjkl;" ++ [39, 96, 0, 92] ++ literal "zxcvbnm,./" ++ [0, 42, 0, 32, 0]

def scAsciiShift : List UInt8 :=
  [0, 0] ++ literal "!@#$%^&*()_+" ++ [8, 9] ++ literal "QWERTYUIOP" ++ [123, 125, 10, 0] ++
    literal "ASDFGHJKL:" ++ [34, 126, 0, 124] ++ literal "ZXCVBNM<>?" ++ [0, 42, 0, 32, 0]

/-- The static variables that `keyboard_handler` works on. -/
structure Keyboard where
  irqCount : UInt64
  shift : ℕ
  caps : ℕ

/-- What goes to `shell_input`, if anything, and the new state. -/
def keyboardHandler (sc : UInt8) (k : Keyboard) : Option UInt8 × Keyboard :=
  let k := { k with irqCount := k.irqCount+1 }
  if sc &&& 128 ≠ 0 then
    let released := sc &&& 127
    (none, if released = 42 ∨ released = 54 then { k with shift := 0 } else k)
  else if sc = 42 ∨ sc = 54 then (none, { k with shift := 1 })
  else if sc = 58 then (none, { k with caps := if k.caps = 0 then 1 else 0 })
  else if sc ≥ 128 then (none, k)
  else
    let upper := k.shift ^^^ k.caps
    let c := if upper ≠ 0 then scAsciiShift.getD sc.toNat 0 else scAscii.getD sc.toNat 0
    (if c ≠ 0 then some c else none, k)

def ofShift (sc : UInt8) : Bool := sc ∈ [42, 54, 170, 182]

def shiftDown (codes : List UInt8) : Bool :=
  match codes.reverse.find? ofShift with
  | some sc => sc < 128
  | none => false

def capsOn (codes : List UInt8) : Bool := codes.count 58 % 2 = 1

def typed (codes : List UInt8) (sc : UInt8) : Option UInt8 :=
  if sc < 128 ∧ ofShift sc = false then
    let c := (if shiftDown codes ≠ capsOn codes then scAsciiShift else scAscii).getD sc.toNat 0
    if c = 0 then none else some c
  else none

structure Tracks (codes : List UInt8) (k : Keyboard) : Prop where
  shift : k.shift = if shiftDown codes then 1 else 0
  caps : k.caps = if capsOn codes then 1 else 0

variable {codes : List UInt8} {k : Keyboard} {sc : UInt8}

theorem high_bit (sc : UInt8) : sc &&& 128 ≠ 0 ↔ ¬sc < 128 := by
  have lt : sc.toNat < 256 := sc.toNat_lt
  rw [ne_eq, ← UInt8.toNat_inj, UInt8.toNat_and, UInt8.lt_iff_toNat_lt,
    show (128 : UInt8).toNat = 2^7 from rfl, show (0 : UInt8).toNat = 0 from rfl, Nat.and_two_pow,
    Nat.testBit_eq_decide_div_mod_eq]
  by_cases low : sc.toNat < 128
  · rw [decide_eq_false (by omega)]
    simpa using low
  · rw [decide_eq_true (by omega)]
    simpa using low

theorem low_bits (sc : UInt8) : (sc &&& 127).toNat = sc.toNat%128 := by
  rw [UInt8.toNat_and]
  exact Nat.and_two_pow_sub_one_eq_mod sc.toNat 7

theorem shiftDown_append : shiftDown (codes ++ [sc]) =
    if ofShift sc then decide (sc < 128) else shiftDown codes := by
  rw [shiftDown, List.reverse_append, List.reverse_singleton, List.singleton_append,
    List.find?_cons]
  cases shift : ofShift sc with
  | true => rfl
  | false => rfl

theorem capsOn_append : capsOn (codes ++ [sc]) = if sc = 58 then !capsOn codes else capsOn codes := by
  rw [capsOn, capsOn, List.count_append, List.count_singleton]
  by_cases caps : sc = 58
  · rw [if_pos caps, caps]
    simp only [beq_self_eq_true, ↓reduceIte]
    rw [← decide_not]
    exact decide_eq_decide.mpr (by omega)
  · have other : (sc == 58) = false := by simpa using caps
    rw [if_neg caps, other]
    simp only [Bool.false_eq_true, ↓reduceIte, Nat.add_zero]

theorem ofShift_make (make : sc < 128) : ofShift sc = true ↔ sc = 42 ∨ sc = 54 := by
  have other (n : UInt8) (high : ¬n < 128) : sc ≠ n := fun eq => high (eq ▸ make)
  simp [ofShift, other 170 (by decide), other 182 (by decide)]

theorem ofShift_break (high : ¬sc < 128) :
    ofShift sc = true ↔ sc &&& 127 = 42 ∨ sc &&& 127 = 54 := by
  have lt : sc.toNat < 256 := sc.toNat_lt
  rw [UInt8.lt_iff_toNat_lt, show (128 : UInt8).toNat = 128 from rfl] at high
  simp only [ofShift, List.mem_cons, List.not_mem_nil, or_false, decide_eq_true_eq,
    ← UInt8.toNat_inj, low_bits, UInt8.reduceToNat]
  omega

theorem keyboardHandler_press (make : sc < 128) (other : ofShift sc = false) :
    keyboardHandler sc k = if sc = 58
      then (none, ⟨k.irqCount+1, k.shift, if k.caps = 0 then 1 else 0⟩)
      else (if (if k.shift ^^^ k.caps ≠ 0 then scAsciiShift.getD sc.toNat 0
          else scAscii.getD sc.toNat 0) ≠ 0
        then some (if k.shift ^^^ k.caps ≠ 0 then scAsciiShift.getD sc.toNat 0
          else scAscii.getD sc.toNat 0)
        else none, ⟨k.irqCount+1, k.shift, k.caps⟩) := by
  have low : ¬sc &&& 128 ≠ 0 := fun high => (high_bit sc).mp high make
  have noShift : ¬(sc = 42 ∨ sc = 54) := by rw [← ofShift_make make, other]; simp
  rw [keyboardHandler, if_neg low, if_neg noShift, if_neg (UInt8.not_le.mpr make)]

theorem Tracks.upper (h : Tracks codes k) :
    k.shift ^^^ k.caps ≠ 0 ↔ shiftDown codes ≠ capsOn codes := by
  rw [h.shift, h.caps]
  cases shiftDown codes <;> cases capsOn codes <;> decide

theorem Tracks.shiftPress (h : Tracks codes k) (make : sc < 128) (code : ofShift sc = true) :
    Tracks (codes ++ [sc]) (keyboardHandler sc k).2 ∧ (keyboardHandler sc k).1 = typed codes sc := by
  have low : ¬sc &&& 128 ≠ 0 := fun high => (high_bit sc).mp high make
  have isShift := (ofShift_make make).mp code
  have notCaps : sc ≠ 58 := by
    rcases isShift with rfl | rfl <;> decide
  rw [keyboardHandler, if_neg low, if_pos isShift, typed, if_neg (by simp [code])]
  refine ⟨⟨?_, ?_⟩, rfl⟩
  · rw [shiftDown_append, if_pos code, decide_eq_true make]
    rfl
  · rw [capsOn_append, if_neg notCaps]
    exact h.caps

theorem Tracks.keyPress (h : Tracks codes k) (make : sc < 128) (code : ofShift sc = false) :
    Tracks (codes ++ [sc]) (keyboardHandler sc k).2 ∧ (keyboardHandler sc k).1 = typed codes sc := by
  rw [keyboardHandler_press make code, typed, if_pos (And.intro make code)]
  by_cases isCaps : sc = 58
  · subst isCaps
    rw [if_pos rfl]
    refine ⟨⟨?_, ?_⟩, ?_⟩
    · rw [shiftDown_append, code]
      exact h.shift
    · rw [capsOn_append, if_pos rfl]
      dsimp only
      rw [h.caps]
      cases capsOn codes <;> rfl
    · cases shiftDown codes <;> cases capsOn codes <;> rfl
  · rw [if_neg isCaps]
    refine ⟨⟨?_, ?_⟩, ?_⟩
    · rw [shiftDown_append, code]
      exact h.shift
    · rw [capsOn_append, if_neg isCaps]
      exact h.caps
    · dsimp only
      rw [ite_not]
      by_cases upper : k.shift ^^^ k.caps ≠ 0
      · rw [if_pos upper, if_pos (h.upper.mp upper)]
      · rw [if_neg upper, if_neg (h.upper.not.mp upper)]

theorem Tracks.release (h : Tracks codes k) (make : ¬sc < 128) :
    Tracks (codes ++ [sc]) (keyboardHandler sc k).2 ∧ (keyboardHandler sc k).1 = typed codes sc := by
  have high := (high_bit sc).mpr make
  have notCaps : sc ≠ 58 := fun eq => make (eq ▸ by decide)
  rw [keyboardHandler, if_pos high, typed, if_neg fun press => make press.1]
  dsimp only
  refine ⟨⟨?_, ?_⟩, rfl⟩
  · rw [shiftDown_append]
    cases code : ofShift sc with
    | true =>
      rw [if_pos ((ofShift_break make).mp code), if_pos rfl, decide_eq_false make]
      rfl
    | false =>
      rw [if_neg fun released => by
        rw [(ofShift_break make).mpr released] at code
        cases code]
      exact h.shift
  · rw [capsOn_append, if_neg notCaps]
    by_cases released : sc &&& 127 = 42 ∨ sc &&& 127 = 54
    · rw [if_pos released]
      exact h.caps
    · rw [if_neg released]
      exact h.caps

/-- The handler follows the stream, and delivers its characters. -/
theorem Tracks.step (h : Tracks codes k) (sc : UInt8) :
    Tracks (codes ++ [sc]) (keyboardHandler sc k).2 ∧ (keyboardHandler sc k).1 = typed codes sc := by
  by_cases make : sc < 128
  · cases code : ofShift sc with
    | true => exact h.shiftPress make code
    | false => exact h.keyPress make code
  · exact h.release make

end TinyOS.Keys
