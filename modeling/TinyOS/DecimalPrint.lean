import TinyOS.Numerals
import TinyOS.ShellCat

set_option autoImplicit false

/-! The decimal numbers that the kernel prints: `print_uint` (terminal/shell.c) and the two
copies of `print_decimal` (memory/pmm.c, memory/memory.c). -/
namespace TinyOS.Decimal
open NanoFS Numerals Shell

def InArray (i : ℤ) : Prop := 0 ≤ i ∧ i < 21

instance (i : ℤ) : Decidable (InArray i) := instDecidableAnd

/-- `buf[i] = c` -/
def store (buf : Buffer) (i : ℤ) (c : UInt8) : Option Buffer :=
  if InArray i then some (Function.update buf i.toNat c) else none

/-- `buf[i]` -/
def load (buf : Buffer) (i : ℤ) : Option UInt8 :=
  if InArray i then some (buf i.toNat) else none

/-- `buf[i++] = c` -/
def pushUp (c : UInt8) (p : Buffer × ℤ) : Option (Buffer × ℤ) :=
  (store p.1 p.2 c).map fun buf => (buf, p.2+1)

/-- `buffer[--i] = c` -/
def pushDown (c : UInt8) (p : Buffer × ℤ) : Option (Buffer × ℤ) :=
  (store p.1 (p.2-1) c).map fun buffer => (buffer, p.2-1)

theorem div_ten_lt {value : UInt64} (pos : 0 < value) : (value/10).toNat < value.toNat := by
  rw [UInt64.toNat_div]
  exact Nat.div_lt_self (UInt64.lt_iff_toNat_lt.mp pos) (by decide)

/-- The loop `while (value > 0)`; `push` is the assignment in it. -/
def digitLoop {σ : Type} (push : UInt8 → σ → Option σ) (value : UInt64) (s : σ) : Option σ :=
  if _h : 0 < value then
    (push (48+value%10).toUInt8 s).bind fun s => digitLoop push (value/10) s
  else some s
termination_by value.toNat
decreasing_by exact div_ten_lt _h

/-- The loop `while (i > 0)`: the characters that it hands to `terminal_putchar`. -/
def popAll (buf : Buffer) (i : ℤ) : Option (List UInt8) :=
  if _h : 0 < i then
    (load buf (i-1)).bind fun c => (popAll buf (i-1)).map (c :: ·)
  else some []
termination_by i.toNat
decreasing_by omega

/-- `terminal_print(&buffer[i])`, given up at the end of the array. -/
def printTail (buffer : Buffer) (i : ℤ) : Option (List UInt8) :=
  if InArray i then printFrom buffer i.toNat (20-i.toNat) else none

/-- `print_uint`: the characters that it hands to `terminal_putchar`. `buf` is what the stack
holds before it. -/
def printUint (value : UInt64) (buf : Buffer) : Option (List UInt8) :=
  if value = 0 then some [48]
  else (digitLoop pushUp value (buf, 0)).bind fun p => popAll p.1 p.2

/-- `print_decimal`, as it stands in both files. -/
def printDecimal (value : UInt64) (buffer : Buffer) : Option (List UInt8) :=
  (store buffer 20 0).bind fun buffer =>
    if value = 0 then some (literal "0")
    else (digitLoop pushDown value (buffer, 20)).bind fun p => printTail p.1 p.2

/-- `print_decimal` of memory/pmm.c -/
def pmmPrintDecimal (value : UInt64) (buffer : Buffer) : Option (List UInt8) :=
  printDecimal value buffer

/-- `print_decimal` of memory/memory.c -/
def memoryPrintDecimal (value : UInt64) (buffer : Buffer) : Option (List UInt8) :=
  printDecimal value buffer

def digitChar (d : ℕ) : UInt8 := UInt8.ofNat (48+d)

def decimal (n : ℕ) : List UInt8 := (numeral 10 n).map digitChar

variable {value : UInt64} {buf : Buffer} {i j : ℤ} {c : UInt8} {k : ℕ} {l : List UInt8}

theorem digitChar_toNat {d : ℕ} (h : d < 10) : (digitChar d).toNat = 48+d := by
  rw [digitChar, UInt8.toNat_ofNat']
  omega

theorem digitChar_ne_zero {d : ℕ} (h : d < 10) : digitChar d ≠ 0 := by
  intro h0
  have nat := digitChar_toNat h
  rw [h0] at nat
  exact absurd nat (by rw [UInt8.toNat_zero]; omega)

theorem char_of_digit (value : UInt64) :
    (48+value%10).toUInt8 = digitChar (value.toNat%10) := by
  have digit : value.toNat%10 < 10 := Nat.mod_lt _ (by decide)
  rw [← UInt8.toNat_inj, digitChar_toNat digit, UInt64.toNat_toUInt8, UInt64.toNat_add,
    UInt64.toNat_mod, show (48 : UInt64).toNat = 48 from rfl,
    show (10 : UInt64).toNat = 10 from rfl]
  omega

/-- The loop pushes the digits, the least significant first. -/
theorem digitLoop_eq {σ : Type} (push : UInt8 → σ → Option σ) (value : UInt64) (s : σ) :
    digitLoop push value s =
      ((Nat.digits 10 value.toNat).map digitChar).foldlM (fun s c => push c s) s := by
  induction value, s using digitLoop.induct with
  | case1 value s pos ih =>
    have more : 0 < value.toNat := UInt64.lt_iff_toNat_lt.mp pos
    rw [digitLoop, dif_pos pos, Nat.digits_def' (by decide) more, List.map_cons,
      List.foldlM_cons, char_of_digit]
    refine congrArg (Option.bind (push (digitChar (value.toNat%10)) s)) ?_
    funext t
    rw [ih t, UInt64.toNat_div]
    rfl
  | case2 value s stop =>
    have zero : value.toNat = 0 := by
      by_contra ne
      exact stop (UInt64.lt_iff_toNat_lt.mpr (Nat.pos_of_ne_zero ne))
    rw [digitLoop, dif_neg stop, zero, Nat.digits_zero]
    rfl

theorem digits_length_le (value : UInt64) : (Nat.digits 10 value.toNat).length ≤ 20 := by
  rw [Nat.digits_length_le_iff (by decide)]
  exact value.toNat_lt.trans (by decide)

theorem decimal_of_ne {n : ℕ} (ne : n ≠ 0) :
    decimal n = ((Nat.digits 10 n).map digitChar).reverse := by
  rw [decimal, numeral_of_ne ne, List.map_reverse]

/-- With room for 20 characters the loop ends with the numeral on the stack. -/
theorem digitLoop_decimal {σ : Type} {push : UInt8 → σ → Option σ} {holds : σ → List UInt8 → Prop}
    {good : UInt8 → Prop} {room : ℕ} {s : σ} (stack : Stack push holds good room)
    (chars : ∀ d < 10, good (digitChar d)) (enough : 20 ≤ room) (start : holds s [])
    (ne : value ≠ 0) :
    ∃ s', digitLoop push value s = some s' ∧ holds s' (decimal value.toNat) := by
  have fits := digits_length_le value
  have all : ∀ c ∈ (Nat.digits 10 value.toNat).map digitChar, good c := by
    intro c hc
    obtain ⟨d, hd, rfl⟩ := List.mem_map.mp hc
    exact chars d (Nat.digits_lt_base (by decide) hd)
  obtain ⟨t, run, ht⟩ := stack.push_all _ all start
    (by rw [List.length_map, List.length_nil]; omega)
  refine ⟨t, ?_, ?_⟩
  · rw [digitLoop_eq, run]
  · rw [List.append_nil] at ht
    rwa [decimal_of_ne fun h => ne (UInt64.toNat_inj.mp h)]

theorem popAll_update (le : i ≤ j) (inside : 0 ≤ j) (c : UInt8) :
    popAll (Function.update buf j.toNat c) i = popAll buf i := by
  induction i using popAll.induct with
  | case1 i pos ih =>
    have other : (i-1).toNat ≠ j.toNat := by omega
    rw [popAll, popAll.eq_def buf, dif_pos pos, dif_pos pos, ih (by omega), load, load,
      Function.update_of_ne other]
  | case2 i stop => rw [popAll, popAll.eq_def buf, dif_neg stop, dif_neg stop]

def Up (p : Buffer × ℤ) (l : List UInt8) : Prop := p.2 = l.length ∧ popAll p.1 p.2 = some l

theorem up_stack : Stack pushUp Up (fun _ => True) 21 where
  step := by
    rintro c ⟨buf, i⟩ l _ ⟨(top : i = l.length), (reads : popAll buf i = some l)⟩ room
    have inside : InArray i := ⟨by omega, by omega⟩
    refine ⟨(Function.update buf i.toNat c, i+1), ?_, ?_, ?_⟩
    · rw [pushUp, store, if_pos inside]
      rfl
    · change i+1 = (l.length+1 : ℕ)
      omega
    · have pos : 0 < i+1 := by omega
      change popAll (Function.update buf i.toNat c) (i+1) = some (c :: l)
      rw [popAll, dif_pos pos, show i+1-1 = i by omega, popAll_update le_rfl inside.1, reads, load,
        if_pos inside, Function.update_self]
      rfl

theorem holds_update {n : ℕ} (h : Holds buf k l) (below : n < k) (c : UInt8) :
    Holds (Function.update buf n c) k l := by
  induction l generalizing k with
  | nil => exact (Function.update_of_ne below.ne' c buf).trans h
  | cons a l ih =>
    refine ⟨(Function.update_of_ne below.ne' c buf).trans h.1, h.2.1, ?_⟩
    exact ih h.2.2 (below.trans (Nat.lt_succ_self k))

def Down (p : Buffer × ℤ) (l : List UInt8) : Prop :=
  p.2 = 20-l.length ∧ 0 ≤ p.2 ∧ Holds p.1 p.2.toNat l

theorem down_stack : Stack pushDown Down (· ≠ 0) 20 where
  step := by
    rintro c ⟨buffer, i⟩ l good ⟨(top : i = 20-l.length), _, reads⟩ room
    have inside : InArray (i-1) := ⟨by omega, by omega⟩
    refine ⟨(Function.update buffer (i-1).toNat c, i-1), ?_, ?_, inside.1, ?_⟩
    · rw [pushDown, store, if_pos inside]
      rfl
    · change i-1 = 20-(l.length+1 : ℕ)
      omega
    · have below : (i-1).toNat < i.toNat := by omega
      have next : (i-1).toNat+1 = i.toNat := by omega
      refine ⟨Function.update_self _ _ _, good, ?_⟩
      rw [next]
      exact holds_update reads below c

theorem printTail_of_down {p : Buffer × ℤ} (h : Down p l) : printTail p.1 p.2 = some l := by
  obtain ⟨top, low, reads⟩ := h
  rw [printTail, if_pos ⟨low, by omega⟩, printFrom_iff]
  exact ⟨by omega, reads⟩

theorem decimal_zero : decimal 0 = literal "0" := by
  rw [decimal, numeral_zero]
  decide

theorem printUint_eq (value : UInt64) (buf : Buffer) :
    printUint value buf = some (decimal value.toNat) := by
  rw [printUint]
  split_ifs with h0
  · rw [h0, UInt64.toNat_zero, decimal_zero]
    rfl
  · have start : Up (buf, 0) [] := ⟨rfl, by rw [popAll, dif_neg (lt_irrefl 0)]⟩
    obtain ⟨p, run, top, reads⟩ :=
      digitLoop_decimal up_stack (fun _ _ => trivial) (by decide) start h0
    rw [run, Option.bind_some, reads]

example : printUint 1907 (fun _ => 7) = some (literal "1907") := by decide +kernel

theorem printDecimal_eq (value : UInt64) (buffer : Buffer) :
    printDecimal value buffer = some (decimal value.toNat) := by
  rw [printDecimal, store, if_pos ⟨by decide, by decide⟩, Option.bind_some]
  split_ifs with h0
  · rw [h0, UInt64.toNat_zero, decimal_zero]
  · have start : Down (Function.update buffer 20 0, 20) [] := by
      refine ⟨rfl, Int.natCast_nonneg 20, ?_⟩
      exact Function.update_self 20 0 buffer
    obtain ⟨p, run, down⟩ :=
      digitLoop_decimal down_stack (fun _ => digitChar_ne_zero) (by decide) start h0
    rw [show (20 : ℤ).toNat = 20 from rfl, run, Option.bind_some, printTail_of_down down]

/-- On the terminal it is the same whether the numeral comes as a string or character by
character. -/
theorem terminalPrint_decimal (n : ℕ) :
    Display.terminalPrint (decimal n) = (decimal n).forM Display.terminalPutchar := by
  have noNul : 0 ∉ decimal n := by
    intro mem
    obtain ⟨d, hd, nul⟩ := List.mem_map.mp mem
    exact digitChar_ne_zero ((canonical_numeral (by decide) n).digit d hd) nul
  rw [terminalPrint_chars, LibcString.cstr_of_noNul noNul]

/-- All three functions print the one numeral that the value has, whatever the stack held, and
keep to their arrays. -/
theorem decimal_printing (value : UInt64) (buf buffer buffer' : Buffer) :
    ∃ ds, (∀ ds', Canonical 10 value.toNat ds' ↔ ds' = ds) ∧
      printUint value buf = some (ds.map digitChar) ∧
      pmmPrintDecimal value buffer = some (ds.map digitChar) ∧
      memoryPrintDecimal value buffer' = some (ds.map digitChar) := by
  refine ⟨numeral 10 value.toNat, fun ds' => canonical_iff (by decide), ?_, ?_, ?_⟩
  · exact printUint_eq value buf
  · exact printDecimal_eq value buffer
  · exact printDecimal_eq value buffer'

end TinyOS.Decimal
