import TinyOS.LibcString

set_option autoImplicit false

/-! The number fields of the shell's commands `bg` and `time set`, and the clock they
set (terminal/shell.c, system/clock.c). An `int` has 32 bits and wraps around. -/
namespace TinyOS.Shell
open LibcString

abbrev CInt := BitVec 32

/-- `'0' ≤ c && c ≤ '9'` -/
def IsDigit (c : UInt8) : Prop := 48 ≤ c.toNat ∧ c.toNat ≤ 57

instance (c : UInt8) : Decidable (IsDigit c) := instDecidableAnd

/-- The loop over the digits, from the value so far; it stops before `**s`. -/
def readDigits (v : CInt) : List UInt8 → CInt × List UInt8
  | [] => (v, [])
  | c :: s =>
    if IsDigit c then readDigits (v*10+BitVec.ofNat 32 (c.toNat-48)) s else (v, c :: s)

/-- What both readers of a field do: spaces, then a number, which `store` turns into
the value of `*out`. -/
def parseField (store : CInt → CInt) (s : List UInt8) : Option (CInt × List UInt8) :=
  let s := s.dropWhile (· = 32)
  if IsDigit (s.headD 0) then
    let r := readDigits 0 s
    some (store r.1, r.2)
  else none

def parseColorChannel : List UInt8 → Option (CInt × List UInt8) :=
  parseField fun v => if 255 < v.toInt then 255 else v

def parseUintField : List UInt8 → Option (CInt × List UInt8) := parseField fun v => v

def parseThree (field : List UInt8 → Option (CInt × List UInt8)) (s : List UInt8) :
    Option (CInt × CInt × CInt) := do
  let a ← field s
  let b ← field a.2
  let c ← field b.2
  pure (a.1, b.1, c.1)

def parseRgb : List UInt8 → Option (CInt × CInt × CInt) := parseThree parseColorChannel

/-- `if (x < 0) x = 0; if (x > top) x = top;` -/
def clampTo (top x : ℤ) : ℤ :=
  let x := if x < 0 then 0 else x
  if x > top then top else x

/-- The new `clock_offset`. -/
def clockSet (ticks : ℕ) (h m s : ℤ) : ℤ :=
  let target := clampTo 23 h*3600+clampTo 59 m*60+clampTo 59 s
  let now : ℤ := ((ticks/100 : ℕ) : ℤ)
  target-now

def clockGet (ticks : ℕ) (offset : ℤ) : ℤ × ℤ × ℤ :=
  let total := (((ticks/100 : ℕ) : ℤ)+offset).tmod 86400
  let total := if total < 0 then total+86400 else total
  (total.tdiv 3600, (total.tmod 3600).tdiv 60, total.tmod 60)

/-- `time set`: the new `clock_offset`, when all three fields are there. -/
def timeSet (ticks : ℕ) (rest : List UInt8) : Option ℤ :=
  (parseThree parseUintField rest).map fun v => clockSet ticks v.1.toInt v.2.1.toInt v.2.2.toInt

def decimal (ds : List UInt8) : ℕ := Nat.ofDigits 10 (ds.reverse.map fun c => c.toNat-48)

structure StartsNumber (s : List UInt8) (n : ℕ) (rest : List UInt8) : Prop where
  split : ∃ spaces ds, s = spaces++(ds++rest) ∧ (∀ c ∈ spaces, c = 32) ∧ ds ≠ [] ∧
    (∀ c ∈ ds, IsDigit c) ∧ decimal ds = n
  whole : ¬IsDigit (rest.headD 0)

def StartsThree (s : List UInt8) (a b c : ℕ) : Prop :=
  ∃ s₁ s₂ s₃, StartsNumber s a s₁ ∧ StartsNumber s₁ b s₂ ∧ StartsNumber s₂ c s₃

theorem decimal_cons (c : UInt8) (ds : List UInt8) :
    decimal (c :: ds) = (c.toNat-48)*10^ds.length+decimal ds := by
  rw [decimal, List.reverse_cons, List.map_append, Nat.ofDigits_append]
  simp only [List.map_cons, List.map_nil, Nat.ofDigits_singleton, List.length_map,
    List.length_reverse, decimal]
  ring

theorem readDigits_append (n : ℕ) {ds rest : List UInt8} (digits : ∀ c ∈ ds, IsDigit c)
    (whole : ¬IsDigit (rest.headD 0)) : readDigits (BitVec.ofNat 32 n) (ds++rest) =
      (BitVec.ofNat 32 (n*10^ds.length+decimal ds), rest) := by
  induction ds generalizing n with
  | nil =>
    cases rest with
    | nil => simp [readDigits, decimal]
    | cons c rest =>
      have stop : ¬IsDigit c := whole
      rw [List.nil_append, readDigits, if_neg stop]
      simp [decimal]
  | cons c ds ih =>
    have next : BitVec.ofNat 32 n*10+BitVec.ofNat 32 (c.toNat-48) =
        BitVec.ofNat 32 (n*10+(c.toNat-48)) := by
      rw [BitVec.ofNat_add, BitVec.ofNat_mul]
      rfl
    rw [List.cons_append, readDigits, if_pos (digits c List.mem_cons_self), next,
      ih _ fun d hd => digits d (List.mem_cons_of_mem c hd), decimal_cons, List.length_cons]
    congr 2
    ring

theorem parseField_some {s rest : List UInt8} {n : ℕ} (store : CInt → CInt)
    (h : StartsNumber s n rest) : parseField store s = some (store (BitVec.ofNat 32 n), rest) := by
  obtain ⟨⟨spaces, ds, rfl, blank, ne, digits, rfl⟩, whole⟩ := h
  obtain ⟨c, ds, rfl⟩ := List.exists_cons_of_ne_nil ne
  have first : IsDigit c := digits c List.mem_cons_self
  have stop : ¬decide (c = 32) = true := by
    rw [decide_eq_true_iff]
    rintro rfl
    exact absurd first (by decide)
  have skipped : (spaces++(c :: ds++rest)).dropWhile (· = 32) = c :: ds++rest := by
    rw [List.dropWhile_append_of_pos fun d hd => decide_eq_true (blank d hd), List.cons_append,
      List.dropWhile_cons_of_neg (p := fun d : UInt8 => decide (d = 32)) stop]
  have read := readDigits_append 0 digits whole
  rw [Nat.zero_mul, Nat.zero_add] at read
  unfold parseField
  dsimp only
  rw [skipped, if_pos (show IsDigit ((c :: ds++rest).headD 0) from first),
    show (0 : CInt) = BitVec.ofNat 32 0 from rfl, read]

theorem parseField_isSome (store : CInt → CInt) (s : List UInt8) :
    (parseField store s).isSome ↔ ∃ n rest, StartsNumber s n rest := by
  constructor
  · intro read
    have first : IsDigit ((s.dropWhile (· = 32)).headD 0) := by
      by_contra none
      unfold parseField at read
      dsimp only at read
      rw [if_neg none] at read
      exact absurd read (by decide)
    refine ⟨_, (s.dropWhile (· = 32)).dropWhile (fun c => decide (IsDigit c)),
      ⟨⟨s.takeWhile (· = 32), (s.dropWhile (· = 32)).takeWhile (fun c => decide (IsDigit c)),
        ?_, fun c hc => ?_, ?_, fun c hc => ?_, rfl⟩, ?_⟩⟩
    · rw [List.takeWhile_append_dropWhile, List.takeWhile_append_dropWhile]
    · have blank := List.mem_takeWhile_imp hc
      exact of_decide_eq_true blank
    · cases ht : s.dropWhile (· = 32) with
      | nil =>
        rw [ht] at first
        exact absurd first (by decide)
      | cons c t =>
        have digit : IsDigit c := by rwa [ht] at first
        rw [List.takeWhile_cons_of_pos (p := fun c => decide (IsDigit c)) (decide_eq_true digit)]
        exact List.cons_ne_nil _ _
    · have digit := List.mem_takeWhile_imp hc
      exact of_decide_eq_true digit
    · generalize s.dropWhile (· = 32) = t
      induction t with
      | nil => decide
      | cons c t ih =>
        rw [List.dropWhile_cons]
        split_ifs with digit
        · exact ih
        · exact fun h => digit (decide_eq_true h)
  · rintro ⟨n, rest, starts⟩
    rw [parseField_some store starts]
    rfl

/-- What the three fields hold, as far as there are numbers. -/
theorem parseThree_some {s : List UInt8} {a b c : ℕ} (store : CInt → CInt)
    (h : StartsThree s a b c) : parseThree (parseField store) s =
      some (store (BitVec.ofNat 32 a), store (BitVec.ofNat 32 b), store (BitVec.ofNat 32 c)) := by
  obtain ⟨s₁, s₂, s₃, first, second, third⟩ := h
  simp only [parseThree, parseField_some store first, parseField_some store second,
    parseField_some store third, Option.bind_eq_bind, Option.bind_some, Option.pure_def]

theorem parseThree_isSome (store : CInt → CInt) (s : List UInt8) :
    (parseThree (parseField store) s).isSome ↔ ∃ a b c, StartsThree s a b c := by
  constructor
  · intro read
    obtain ⟨v, hv⟩ := Option.isSome_iff_exists.mp read
    simp only [parseThree, Option.bind_eq_bind, Option.bind_eq_some_iff] at hv
    obtain ⟨x, hx, y, hy, z, hz, _⟩ := hv
    obtain ⟨a, s₁, ha⟩ := (parseField_isSome store s).mp (Option.isSome_of_eq_some hx)
    obtain rfl := Option.some.inj ((parseField_some store ha).symm.trans hx)
    obtain ⟨b, s₂, hb⟩ := (parseField_isSome store _).mp (Option.isSome_of_eq_some hy)
    obtain rfl := Option.some.inj ((parseField_some store hb).symm.trans hy)
    obtain ⟨c, s₃, hc⟩ := (parseField_isSome store _).mp (Option.isSome_of_eq_some hz)
    exact ⟨a, b, c, s₁, s₂, s₃, ha, hb, hc⟩
  · rintro ⟨a, b, c, starts⟩
    rw [parseThree_some store starts]
    rfl

/-- The number survives the accumulator as far as a clamp to `top` needs it. -/
def ClampsAt (top n : ℕ) : Prop := n ≤ top ∨ top ≤ n%2^32 ∧ n%2^32 < 2^31

theorem toInt_ofNat (n : ℕ) : (BitVec.ofNat 32 n).toInt =
    if n%2^32 < 2^31 then ((n%2^32 : ℕ) : ℤ) else ((n%2^32 : ℕ) : ℤ)-2^32 := by
  rw [BitVec.toInt_eq_toNat_cond, BitVec.toNat_ofNat]
  split_ifs <;> omega

theorem channel_exact_iff (n : ℕ) :
    (if 255 < (BitVec.ofNat 32 n).toInt then (255 : CInt) else BitVec.ofNat 32 n).toInt =
      ((min 255 n : ℕ) : ℤ) ↔ ClampsAt 255 n := by
  have top : (255 : CInt).toInt = 255 := by decide
  rw [apply_ite BitVec.toInt, top, toInt_ofNat, ClampsAt]
  split_ifs <;> omega

theorem clampTo_exact_iff (top n : ℕ) (pos : 0 < top) (small : top ≤ 59) :
    clampTo top (BitVec.ofNat 32 n).toInt = ((min top n : ℕ) : ℤ) ↔ ClampsAt top n := by
  rw [toInt_ofNat, ClampsAt, clampTo]
  split_ifs <;> omega

/-- `parse_rgb` on three numbers gives three channels, each the number or 255. -/
def RgbExact (s : List UInt8) : Prop :=
  ∀ a b c, StartsThree s a b c → ∃ v, parseRgb s = some v ∧
    v.1.toInt = ((min 255 a : ℕ) : ℤ) ∧ v.2.1.toInt = ((min 255 b : ℕ) : ℤ) ∧
    v.2.2.toInt = ((min 255 c : ℕ) : ℤ)

/-- The clock then shows the three numbers, each cut to its largest value. -/
def TimeExact (s : List UInt8) : Prop :=
  ∀ ticks a b c, StartsThree s a b c → ∃ offset, timeSet ticks s = some offset ∧
    clockGet ticks offset =
      (((min 23 a : ℕ) : ℤ), ((min 59 b : ℕ) : ℤ), ((min 59 c : ℕ) : ℤ))

theorem clampTo_range (top x : ℤ) (pos : 0 ≤ top) : 0 ≤ clampTo top x ∧ clampTo top x ≤ top := by
  rw [clampTo]
  split_ifs <;> omega

theorem clockGet_clockSet (ticks : ℕ) (h m s : ℤ) :
    clockGet ticks (clockSet ticks h m s) = (clampTo 23 h, clampTo 59 m, clampTo 59 s) := by
  obtain ⟨h0, h23⟩ := clampTo_range 23 h (by decide)
  obtain ⟨m0, m59⟩ := clampTo_range 59 m (by decide)
  obtain ⟨s0, s59⟩ := clampTo_range 59 s (by decide)
  unfold clockGet clockSet
  generalize clampTo 23 h = h at *
  generalize clampTo 59 m = m at *
  generalize clampTo 59 s = s at *
  have total : ((ticks/100 : ℕ) : ℤ)+(h*3600+m*60+s-((ticks/100 : ℕ) : ℤ)) = h*3600+m*60+s := by
    ring
  have day : (h*3600+m*60+s).tmod 86400 = h*3600+m*60+s :=
    Int.tmod_eq_of_lt (by omega) (by omega)
  dsimp only
  rw [total, day, if_neg (by omega)]
  rw [Int.tmod_eq_emod_of_nonneg (by omega), Int.tmod_eq_emod_of_nonneg (by omega),
    Int.tdiv_eq_ediv_of_nonneg (by omega), Int.tdiv_eq_ediv_of_nonneg (by omega)]
  refine Prod.ext ?_ (Prod.ext ?_ ?_)
  · change (h*3600+m*60+s)/3600 = h
    omega
  · change (h*3600+m*60+s)%3600/60 = m
    omega
  · change (h*3600+m*60+s)%60 = s
    omega

theorem rgbExact_iff (s : List UInt8) : RgbExact s ↔
    ∀ a b c, StartsThree s a b c → ClampsAt 255 a ∧ ClampsAt 255 b ∧ ClampsAt 255 c := by
  refine forall_congr' fun a => forall_congr' fun b => forall_congr' fun c => ?_
  refine forall_congr' fun starts => ?_
  have parsed : parseRgb s = _ := parseThree_some _ starts
  rw [parsed]
  simp only [Option.some.injEq, exists_eq_left', channel_exact_iff]

theorem timeExact_iff (s : List UInt8) : TimeExact s ↔
    ∀ a b c, StartsThree s a b c → ClampsAt 23 a ∧ ClampsAt 59 b ∧ ClampsAt 59 c := by
  have each (ticks a b c : ℕ) (starts : StartsThree s a b c) :
      (∃ offset, timeSet ticks s = some offset ∧ clockGet ticks offset =
        (((min 23 a : ℕ) : ℤ), ((min 59 b : ℕ) : ℤ), ((min 59 c : ℕ) : ℤ))) ↔
      ClampsAt 23 a ∧ ClampsAt 59 b ∧ ClampsAt 59 c := by
    have parsed : parseThree parseUintField s = _ := parseThree_some _ starts
    rw [timeSet, parsed]
    simp only [Option.map_some, Option.some.injEq, exists_eq_left', clockGet_clockSet,
      Prod.mk.injEq]
    have hour := clampTo_exact_iff 23 a (by decide) (by decide)
    have sixty (n : ℕ) := clampTo_exact_iff 59 n (by decide) (by decide)
    rw [Nat.cast_ofNat] at hour
    simp only [Nat.cast_ofNat] at sixty
    rw [hour, sixty, sixty]
  constructor
  · exact fun exact a b c starts => (each 0 a b c starts).mp (exact 0 a b c starts)
  · exact fun clamps ticks a b c starts => (each ticks a b c starts).mpr (clamps a b c starts)

/-- The fields are found exactly, but a value past 2^31 need not reach the clamp as a
large one. -/
theorem fields_exact_iff (s : List UInt8) :
    ((parseRgb s).isSome ↔ ∃ a b c, StartsThree s a b c) ∧
    (RgbExact s ↔
      ∀ a b c, StartsThree s a b c → ClampsAt 255 a ∧ ClampsAt 255 b ∧ ClampsAt 255 c) ∧
    (TimeExact s ↔
      ∀ a b c, StartsThree s a b c → ClampsAt 23 a ∧ ClampsAt 59 b ∧ ClampsAt 59 c) :=
  ⟨parseThree_isSome _ s, rgbExact_iff s, timeExact_iff s⟩

def pastRange : List UInt8 := [50, 49, 52, 55, 52, 56, 51, 54, 52, 56, 32, 48, 32, 48]

theorem pastRange_starts : StartsThree pastRange 2147483648 0 0 := by
  have zero (rest : List UInt8) (whole : ¬IsDigit (rest.headD 0)) :
      StartsNumber (32 :: 48 :: rest) 0 rest :=
    ⟨⟨[32], [48], rfl, by simp, by simp, by simp [IsDigit], by simp [decimal]⟩, whole⟩
  refine ⟨[32, 48, 32, 48], [32, 48], [], ⟨⟨[], [50, 49, 52, 55, 52, 56, 51, 54, 52, 56], rfl,
    by simp, by simp, by simp [IsDigit], by simp [decimal, Nat.ofDigits]⟩, by decide⟩,
    zero _ (by decide), zero _ (by decide)⟩

theorem fields_wrap : (∃ v, parseRgb pastRange = some v ∧ v.1.toInt = -2147483648) ∧
    ¬RgbExact pastRange ∧ ¬TimeExact pastRange := by
  have bad (top : ℕ) (small : top < 2147483648) : ¬ClampsAt top 2147483648 := by
    rw [ClampsAt]
    omega
  refine ⟨⟨_, parseThree_some _ pastRange_starts, by decide⟩, ?_, ?_⟩
  · rw [rgbExact_iff]
    exact fun clamps => bad 255 (by decide) (clamps _ _ _ pastRange_starts).1
  · rw [timeExact_iff]
    exact fun clamps => bad 23 (by decide) (clamps _ _ _ pastRange_starts).1

end TinyOS.Shell
