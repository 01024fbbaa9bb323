import TinyOS.ShellCat
import TinyOS.StateRuns
import TinyOS.TerminalViewport

set_option autoImplicit false

/-! The command line: `cmd_buf` of shell.c beside the cells of the terminal. -/
namespace TinyOS.Shell
open Display NanoFS StateRuns

/-- The static variables of shell.c, and the terminal. -/
structure Line where
  cmdBuf : ℕ → UInt8
  cmdLen : ℕ
  terminal : Terminal

abbrev LineM := StateT Line Option

/-- A call of terminal.c. -/
def onTerminal (x : TerminalM Unit) : LineM Unit := fun s =>
  (x.run s.terminal).map fun r => ((), { s with terminal := r.2 })

def shellInput (execute : LineM Unit) (c : UInt8) : LineM Unit := do
  if c = newline then
    execute
    return ()
  if c = backspace then
    let s ← get
    if 0 < s.cmdLen then
      modify fun s => { s with cmdLen := s.cmdLen-1 }
      onTerminal (terminalPutchar backspace)
    return ()
  let s ← get
  if cmdMax-1 ≤ s.cmdLen then return ()
  modify fun s => { s with
    cmdBuf := Function.update s.cmdBuf s.cmdLen c
    cmdLen := s.cmdLen+1 }
  onTerminal (terminalPutchar c)

/-- `cmd_buf[0..cmd_len)` -/
def Line.command (s : Line) : List UInt8 := (List.range s.cmdLen).map s.cmdBuf

def gridCell (t : Terminal) (k : ℕ) : UInt8 :=
  t.screenBuf (k/t.cols.toNat) (k%t.cols.toNat)

def textFrom (t : Terminal) (p : ℕ) : List UInt8 :=
  ((List.range (64*t.cols.toNat-p)).map fun j => gridCell t (p+j)).filter (· ≠ 0)

/-- The cell of the cursor; behind a full row it is the first one of the next row. -/
def cursorCell (t : Terminal) : ℤ := t.bufRow*t.cols+t.bufCol

/-- The grid holds a text from cell `p` on and nothing behind it, where the cursor is. -/
structure Holding (t : Terminal) (p : ℕ) (l : List UInt8) : Prop extends t.Inside where
  some : 1 ≤ t.cols
  left : 0 ≤ t.bufCol
  right : t.bufCol ≤ t.cols
  cursor : cursorCell t = p+l.length
  cells : ∀ j, p+j < 64*t.cols.toNat → gridCell t (p+j) = l.getD j 0
  noNul : 0 ∉ l

variable {t t' : Terminal} {p : ℕ} {l : List UInt8}

theorem Holding.place (h : Holding t p l) : ∃ r c n : ℕ, t.bufRow = r ∧ t.bufCol = c ∧ t.cols = n ∧
    r < 64 ∧ c ≤ n ∧ 1 ≤ n ∧ n ≤ 120 ∧ r*n+c = p+l.length := by
  obtain ⟨row0, row⟩ := h.row
  have left := h.left
  have right := h.right
  have some := h.some
  have cols := h.cols
  have cursor := h.cursor
  have limit : maxRows = 64 := rfl
  have limit' : maxCols = 120 := rfl
  obtain ⟨r, hr⟩ := Int.eq_ofNat_of_zero_le row0
  obtain ⟨c, hc⟩ := Int.eq_ofNat_of_zero_le left
  obtain ⟨n, hn⟩ := Int.eq_ofNat_of_zero_le (show 0 ≤ t.cols by omega)
  refine ⟨r, c, n, hr, hc, hn, by omega, by omega, by omega, by omega, ?_⟩
  rw [cursorCell, hr, hc, hn] at cursor
  exact_mod_cast cursor

theorem Holding.ends (h : Holding t p l) : p+l.length ≤ 64*t.cols.toNat := by
  obtain ⟨r, c, n, -, -, hn, row, col, -, -, pos⟩ := h.place
  have le : r*n ≤ 63*n := Nat.mul_le_mul_right n (by omega)
  rw [hn, Int.toNat_natCast]
  omega

theorem Holding.textFrom (h : Holding t p l) : textFrom t p = l := by
  have ends := h.ends
  have split : ((List.range (64*t.cols.toNat-p)).map fun j => gridCell t (p+j)) =
      l++List.replicate (64*t.cols.toNat-p-l.length) 0 := by
    apply List.ext_getElem
    · rw [List.length_map, List.length_range, List.length_append, List.length_replicate]
      omega
    · intro j hj _
      rw [List.length_map, List.length_range] at hj
      rw [List.getElem_map, List.getElem_range, h.cells j (by omega)]
      by_cases lt : j < l.length
      · rw [List.getElem_append_left lt, List.getD_eq_getElem _ _ lt]
      · rw [List.getElem_append_right (by omega), List.getElem_replicate,
          List.getD_eq_default _ _ (by omega)]
  have keep : l.filter (fun c => decide (c ≠ 0)) = l := by
    rw [List.filter_eq_self]
    intro c mem
    refine decide_eq_true ?_
    rintro rfl
    exact h.noNul mem
  rw [Shell.textFrom, split, List.filter_append, keep, List.filter_eq_nil_iff.mpr]
  · rw [List.append_nil]
  · intro c mem
    rw [List.eq_of_mem_replicate mem]
    decide

theorem cell_eq_iff {n r c k : ℕ} (lt : c < n) : k/n = r ∧ k%n = c ↔ k = r*n+c := by
  constructor
  · rintro ⟨rfl, rfl⟩
    exact (Nat.div_add_mod' k n).symm
  · rintro rfl
    exact ⟨by rw [Nat.mul_comm, Nat.mul_add_div (by omega), Nat.div_eq_of_lt lt, Nat.add_zero],
      by rw [Nat.mul_comm, Nat.mul_add_mod, Nat.mod_eq_of_lt lt]⟩

theorem gridCell_set {r c : ℕ} (lt : c < t.cols.toNat) (v : UInt8) (k : ℕ) :
    gridCell { t with screenBuf := setCell t.screenBuf r c v } k =
      if k = r*t.cols.toNat+c then v else gridCell t k := by
  have same := cell_eq_iff (r := r) (k := k) lt
  change setCell t.screenBuf r c v (k/t.cols.toNat) (k%t.cols.toNat) = _
  rw [setCell]
  by_cases row : k/t.cols.toNat = r
  · by_cases col : k%t.cols.toNat = c
    · rw [if_pos (same.mp ⟨row, col⟩), row, col, Function.update_self, Function.update_self]
    · rw [if_neg fun eq => col (same.mpr eq).2, row, Function.update_self,
        Function.update_of_ne col, gridCell, row]
  · rw [if_neg fun eq => row (same.mpr eq).1, Function.update_of_ne row, gridCell]

theorem Holding.put (h : Holding t p l) (room : t.bufCol < t.cols) {c : UInt8} (ne : c ≠ 0) :
    Holding (t.put c) p (l++[c]) := by
  obtain ⟨row, col, n, hr, hc, hn, -, -, -, le, pos⟩ := h.place
  have cols : t.cols.toNat = n := by rw [hn, Int.toNat_natCast]
  have lt : col < n := by omega
  refine ⟨⟨h.row, ?_, h.top, h.cols⟩, h.some, ?_, ?_, ?_, fun j hj => ?_, ?_⟩
  · change t.bufCol+1 ≤ maxCols
    have limit : maxCols = 120 := rfl
    omega
  · change 0 ≤ t.bufCol+1
    omega
  · change t.bufCol+1 ≤ t.cols
    omega
  · have before := h.cursor
    rw [cursorCell] at before
    change t.bufRow*t.cols+(t.bufCol+1) = _
    rw [List.length_append, List.length_singleton]
    push_cast
    omega
  · have stored := gridCell_set (t := t) (r := row) (c := col) (by rw [cols]; exact lt) c (p+j)
    rw [cols, pos] at stored
    have here : gridCell (t.put c) (p+j) = gridCell { t with
        screenBuf := setCell t.screenBuf row col c } (p+j) := by
      rw [Terminal.put, hr, hc]
      rfl
    rw [here, stored]
    by_cases last : j = l.length
    · rw [if_pos (by omega), last, List.getD_append_right _ _ _ _ (le_refl _), Nat.sub_self]
      rfl
    · rw [if_neg (by omega), h.cells j hj]
      by_cases inside : j < l.length
      · rw [List.getD_append _ _ _ _ inside]
      · rw [List.getD_eq_default _ _ (by omega), List.getD_eq_default _ _ (by
          rw [List.length_append, List.length_singleton]
          omega)]
  · rw [List.mem_append, not_or]
    exact ⟨h.noNul, fun mem => ne (List.mem_singleton.mp mem).symm⟩

/-- The last character is taken back where it is on the cursor's row. -/
theorem Holding.erase {c : UInt8} (h : Holding t p (l++[c])) (some : 0 < t.bufCol) :
    Holding t.erased p l := by
  obtain ⟨row, col, n, hr, hc, hn, -, right, -, le, pos⟩ := h.place
  have cols : t.cols.toNat = n := by rw [hn, Int.toNat_natCast]
  rw [List.length_append, List.length_singleton] at pos
  have back : (t.bufCol-1).toNat = col-1 := by omega
  refine ⟨⟨h.row, ?_, h.top, h.cols⟩, h.some, ?_, ?_, ?_, fun j hj => ?_, ?_⟩
  · change t.bufCol-1 ≤ maxCols
    have := h.col
    omega
  · change 0 ≤ t.bufCol-1
    omega
  · change t.bufCol-1 ≤ t.cols
    have := h.right
    omega
  · have before := h.cursor
    rw [cursorCell, List.length_append, List.length_singleton] at before
    push_cast at before
    change t.bufRow*t.cols+(t.bufCol-1) = _
    omega
  · have stored := gridCell_set (t := t) (r := row) (c := col-1) (by rw [cols]; omega) 0 (p+j)
    rw [cols] at stored
    have here : gridCell t.erased (p+j) = gridCell { t with
        screenBuf := setCell t.screenBuf row (col-1) 0 } (p+j) := by
      rw [Terminal.erased, back, hr]
      rfl
    rw [here, stored]
    by_cases last : j = l.length
    · rw [if_pos (by omega), last, List.getD_eq_default _ _ (le_refl _)]
    · rw [if_neg (by omega), h.cells j hj]
      by_cases inside : j < l.length
      · rw [List.getD_append _ _ _ _ inside]
      · rw [List.getD_eq_default _ _ (by
          rw [List.length_append, List.length_singleton]
          omega), List.getD_eq_default _ _ (by omega)]
  · exact fun mem => h.noNul (List.mem_append_left _ mem)

/-- The next row is below the buffer, so the line feed shifts all rows up. -/
def Shifts (t : Terminal) : Prop := t.cols ≤ t.bufCol ∧ maxRows ≤ t.bufRow+1

instance (t : Terminal) : Decidable (Shifts t) := instDecidableAnd

def promptAfter (t : Terminal) (p : ℤ) : ℤ := if Shifts t then p-t.cols else p

/-- The line feed at the end of a row keeps the text, as long as it stays in the buffer. -/
theorem Holding.wrapped (h : Holding t p l) (fits : p%t.cols.toNat+l.length+1 ≤ 64*t.cols.toNat) :
    ∃ q : ℕ, promptAfter t p = q ∧ q%t.cols.toNat = p%t.cols.toNat ∧ Holding t.wrapped q l ∧
      t.wrapped.bufCol < t.wrapped.cols := by
  obtain ⟨row, col, n, hr, hc, hn, low, right, pos, le, cursor⟩ := h.place
  have cols : t.cols.toNat = n := by rw [hn, Int.toNat_natCast]
  have limit : maxRows = 64 := rfl
  rw [cols] at fits ⊢
  by_cases full : t.cols ≤ t.bufCol
  · have fed : t.wrapped = t.lineFeed.follow := if_pos full
    have inside := h.toInside.wrapped
    have at_end : col = n := by omega
    rw [fed] at inside ⊢
    by_cases last : maxRows ≤ t.bufRow+1
    · have shifted : t.lineFeed = { t with
          bufRow := maxRows-1
          bufCol := 0
          screenBuf := Function.update (shiftRows t.screenBuf) 63 fun _ => 0 } :=
        if_neg (by omega)
      have prompt : promptAfter t p = p-t.cols := if_pos ⟨full, last⟩
      obtain rfl : row = 63 := by omega
      -- the text began below the first row, or it could not have the room it needs
      have below : n ≤ p := by
        by_contra above
        rw [Nat.mod_eq_of_lt (by omega)] at fits
        omega
      refine ⟨p-n, by rw [prompt, hn]; omega, ?_, ?_, ?_⟩
      · conv_rhs => rw [← Nat.sub_add_cancel below, Nat.add_mod_right]
      · rw [shifted] at inside ⊢
        refine ⟨inside, h.some, le_refl 0, ?_, ?_, fun j hj => ?_, h.noNul⟩
        · change 0 ≤ t.cols
          omega
        · change (maxRows-1)*t.cols+0 = _
          rw [hn, limit]
          omega
        · change Function.update (shiftRows t.screenBuf) 63 (fun _ => 0) ((p-n+j)/t.cols.toNat)
            ((p-n+j)%t.cols.toNat) = _
          change p-n+j < 64*t.cols.toNat at hj
          rw [cols] at hj ⊢
          have row_le : (p-n+j)/n < 64 := (Nat.div_lt_iff_lt_mul pos).mpr hj
          by_cases bottom : (p-n+j)/n = 63
          · have start : 63*n ≤ p-n+j := by
              rw [← bottom]
              exact Nat.div_mul_le_self _ n
            rw [bottom, Function.update_self, List.getD_eq_default _ _ (by omega)]
          · have next : (p+j)/n = (p-n+j)/n+1 := by
              rw [show p+j = p-n+j+n by omega, Nat.add_div_right _ pos]
            have same : (p+j)%n = (p-n+j)%n := by
              rw [show p+j = p-n+j+n by omega, Nat.add_mod_right]
            have before := h.cells j (by
              rw [cols]
              have := (Nat.div_lt_iff_lt_mul pos).mp (show (p+j)/n < 64 by omega)
              omega)
            rw [gridCell, cols, next, same] at before
            rw [Function.update_of_ne bottom, shiftRows_eq, if_pos (by omega), before]
      · rw [shifted]
        change 0 < t.cols
        omega
    · have fed' : t.lineFeed = { t with bufRow := t.bufRow+1, bufCol := 0 } :=
        if_pos (by omega)
      have prompt : promptAfter t p = p := if_neg fun shifts => last shifts.2
      refine ⟨p, prompt, rfl, ?_, ?_⟩
      · rw [fed'] at inside ⊢
        refine ⟨inside, h.some, le_refl 0, ?_, ?_, h.cells, h.noNul⟩
        · change 0 ≤ t.cols
          omega
        · have before := h.cursor
          rw [cursorCell] at before
          change (t.bufRow+1)*t.cols+0 = _
          rw [add_mul, one_mul]
          omega
      · rw [fed']
        change 0 < t.cols
        omega
  · have same : t.wrapped = t := if_neg full
    rw [same]
    exact ⟨p, if_neg fun shifts => full shifts.1, rfl, h, by omega⟩

theorem Holding.drew (h : Holding t p l) (drew : Drew t t') : Holding t' p l := by
  rw [drew]
  exact ⟨⟨h.row, h.col, h.top, h.cols⟩, h.some, h.left, h.right, h.cursor, h.cells, h.noNul⟩

/-- The command line and the cell behind the prompt, which a shift moves off with its row. -/
abbrev Editing := Line × ℤ

def Key (c : UInt8) : Prop := c ≠ 0 ∧ c ≠ newline

def Line.accepts (s : Line) (c : UInt8) : Prop := c ≠ backspace ∧ s.cmdLen < cmdMax-1

instance (s : Line) (c : UInt8) : Decidable (s.accepts c) := instDecidableAnd

def Types (execute : LineM Unit) (c : UInt8) (x y : Editing) : Prop :=
  (shellInput execute c).run x.1 = some ((), y.1) ∧
    y.2 = if x.1.accepts c then promptAfter x.1.terminal x.2 else x.2

def Prompted (x : Editing) : Prop :=
  ∃ p : ℕ, x.2 = p ∧ Holding x.1.terminal p [] ∧ x.1.cmdLen = 0

/-- A backspace stays on its row, and a character finds room in the buffer. -/
def EditFits (c : UInt8) (x : Editing) : Prop :=
  if c = backspace then 0 < x.1.cmdLen → 0 < x.1.terminal.bufCol
  else x.1.cmdLen < cmdMax-1 →
    x.2%x.1.terminal.cols+x.1.cmdLen+1 ≤ 64*x.1.terminal.cols

def Shown (x : Editing) : Prop := textFrom x.1.terminal x.2.toNat = x.1.command

def Edited (x : Editing) : Prop :=
  ∃ p : ℕ, x.2 = p ∧ Holding x.1.terminal p x.1.command ∧ x.1.cmdLen ≤ cmdMax-1

variable {s : Line} {c : UInt8} {execute : LineM Unit} {x y : Editing}

theorem command_length (s : Line) : s.command.length = s.cmdLen := by
  rw [Line.command, List.length_map, List.length_range]

theorem command_put (s : Line) (c : UInt8) (t : Terminal) :
    Line.command ⟨Function.update s.cmdBuf s.cmdLen c, s.cmdLen+1, t⟩ = s.command++[c] := by
  rw [Line.command, List.range_succ, List.map_append, List.map_singleton, Line.command]
  dsimp only
  rw [Function.update_self]
  congr 1
  refine List.map_congr_left fun i mem => Function.update_of_ne ?_ _ _
  exact (List.mem_range.mp mem).ne

theorem command_back (s : Line) (some : 0 < s.cmdLen) (t : Terminal) :
    s.command = Line.command ⟨s.cmdBuf, s.cmdLen-1, t⟩++[s.cmdBuf (s.cmdLen-1)] := by
  obtain ⟨n, eq⟩ := Nat.exists_eq_succ_of_ne_zero some.ne'
  rw [Line.command, Line.command, eq]
  simp only [Nat.succ_eq_add_one, Nat.add_sub_cancel]
  rw [List.range_succ, List.map_append, List.map_singleton]

theorem shellInput_back (some : 0 < s.cmdLen) : (shellInput execute backspace).run s =
    ((terminalPutchar backspace).run s.terminal).map fun r =>
      ((), ⟨s.cmdBuf, s.cmdLen-1, r.2⟩) := by
  have ne : backspace ≠ newline := by decide
  rw [shellInput, if_neg ne, if_pos rfl]
  change StateT.run (if 0 < s.cmdLen then _ else _) s = _
  rw [if_pos some]
  change (((terminalPutchar backspace).run s.terminal).map _).bind _ = _
  cases (terminalPutchar backspace).run s.terminal with
  | none => rfl
  | some r => rfl

theorem shellInput_idle (ne : c ≠ newline) (idle : c = backspace ∧ s.cmdLen = 0 ∨
    c ≠ backspace ∧ cmdMax-1 ≤ s.cmdLen) : (shellInput execute c).run s = some ((), s) := by
  rw [shellInput, if_neg ne]
  rcases idle with ⟨back, none⟩ | ⟨back, full⟩
  · rw [if_pos back]
    change StateT.run (if 0 < s.cmdLen then _ else _) s = _
    rw [if_neg (by omega)]
    rfl
  · rw [if_neg back]
    change StateT.run (if cmdMax-1 ≤ s.cmdLen then _ else _) s = _
    rw [if_pos full]
    rfl

theorem shellInput_put (ne : c ≠ newline) (accepts : s.accepts c) : (shellInput execute c).run s =
    ((terminalPutchar c).run s.terminal).map fun r =>
      ((), ⟨Function.update s.cmdBuf s.cmdLen c, s.cmdLen+1, r.2⟩) := by
  rw [shellInput, if_neg ne, if_neg accepts.1]
  change StateT.run (if cmdMax-1 ≤ s.cmdLen then _ else _) s = _
  rw [if_neg (not_le.mpr accepts.2)]
  rfl

theorem putchar_next (h : Holding t p l) (c : UInt8) :
    ∃ t', (terminalPutchar c).run t = some ((), t') ∧ Drew (t.typed c) t' := by
  have left := h.left
  obtain ⟨t', run, draws⟩ := exec_run h.toInside (.putchar c) fun _ _ lost => by
    rw [Terminal.LeftOf] at lost
    omega
  exact ⟨t', run, draws.drew⟩

theorem Edited.shown (h : Edited x) : Shown x := by
  obtain ⟨p, at_p, holds, -⟩ := h
  rw [Shown, at_p, Int.toNat_natCast]
  exact holds.textFrom

theorem edited_step (h : Edited x) (key : Key c) (fits : EditFits c x) :
    ∃ y, Types execute c x y ∧ Edited y := by
  have edited := h
  obtain ⟨p, at_p, holds, short⟩ := h
  obtain ⟨t', run, drew⟩ := putchar_next holds c
  by_cases back : c = backspace
  · rw [EditFits, if_pos back] at fits
    have other : ¬x.1.accepts c := fun accepts => accepts.1 back
    by_cases none : x.1.cmdLen = 0
    · refine ⟨x, ⟨shellInput_idle key.2 (.inl ⟨back, none⟩), (if_neg other).symm⟩, edited⟩
    · have some : 0 < x.1.cmdLen := Nat.pos_of_ne_zero none
      subst back
      refine ⟨(⟨x.1.cmdBuf, x.1.cmdLen-1, t'⟩, x.2), ⟨?_, (if_neg other).symm⟩,
        p, at_p, ?_, ?_⟩
      · rw [shellInput_back some, run]
        rfl
      · have typed : x.1.terminal.typed backspace = x.1.terminal.erased := by
          rw [Terminal.typed, if_neg (by decide), if_pos rfl, if_pos (fits some)]
        rw [typed] at drew
        rw [command_back x.1 some t'] at holds
        exact (holds.erase (fits some)).drew drew
      · change x.1.cmdLen-1 ≤ cmdMax-1
        omega
  · rw [EditFits, if_neg back] at fits
    by_cases full : cmdMax-1 ≤ x.1.cmdLen
    · have other : ¬x.1.accepts c := fun accepts => absurd accepts.2 (not_lt.mpr full)
      exact ⟨x, ⟨shellInput_idle key.2 (.inr ⟨back, full⟩), (if_neg other).symm⟩, edited⟩
    · have accepts : x.1.accepts c := ⟨back, not_le.mp full⟩
      have cols : ((x.1.terminal.cols.toNat : ℕ) : ℤ) = x.1.terminal.cols := by
        have := holds.some
        omega
      have room := fits accepts.2
      rw [at_p, ← cols] at room
      obtain ⟨q, prompt, -, wrapped, lt⟩ := holds.wrapped (by
        rw [command_length]
        exact_mod_cast room)
      have typed : x.1.terminal.typed c = x.1.terminal.wrapped.put c := by
        rw [Terminal.typed, if_neg key.2, if_neg back]
      rw [typed] at drew
      refine ⟨(⟨Function.update x.1.cmdBuf x.1.cmdLen c, x.1.cmdLen+1, t'⟩, q),
        ⟨?_, ?_⟩, q, rfl, ?_, ?_⟩
      · rw [shellInput_put key.2 accepts, run]
        rfl
      · rw [if_pos accepts, at_p]
        exact prompt.symm
      · rw [command_put]
        exact (wrapped.put lt key.1).drew drew
      · change x.1.cmdLen+1 ≤ cmdMax-1
        omega

theorem Types.unique {z : Editing} (h : Types execute c x y) (h' : Types execute c x z) : y = z := by
  refine Prod.ext ?_ (h.2.trans h'.2.symm)
  exact (Prod.mk.inj (Option.some.inj (h.1.symm.trans h'.1))).2

theorem shifted_bottom (last : maxRows ≤ t.bufRow+1) {k : ℕ} (low : 63*t.cols.toNat ≤ k)
    (high : k < 64*t.cols.toNat) : gridCell t.lineFeed.follow k = 0 := by
  have some : 0 < t.cols.toNat := by omega
  have row : k/t.cols.toNat = 63 := by
    have le := (Nat.le_div_iff_mul_le some).mpr low
    have lt := (Nat.div_lt_iff_lt_mul some).mpr high
    omega
  have shifted : t.lineFeed = { t with
      bufRow := maxRows-1
      bufCol := 0
      screenBuf := Function.update (shiftRows t.screenBuf) 63 fun _ => 0 } := if_neg (by omega)
  rw [shifted]
  change Function.update (shiftRows t.screenBuf) 63 (fun _ => 0) (k/t.cols.toNat)
    (k%t.cols.toNat) = 0
  rw [row, Function.update_self]

theorem filter_length_le {f : ℕ → UInt8} {m n : ℕ} (blank : ∀ j, m ≤ j → j < n → f j = 0) :
    (((List.range n).map f).filter (· ≠ 0)).length ≤ m := by
  induction n with
  | zero => exact Nat.zero_le m
  | succ n ih =>
    have before := ih fun j le lt => blank j le (by omega)
    by_cases le : m ≤ n
    · rw [List.range_succ, List.map_append, List.map_singleton, blank n le (by omega),
        List.filter_append, List.length_append]
      exact before
    · refine (List.length_filter_le _ _).trans ?_
      rw [List.length_map, List.length_range]
      omega

/-- A character without room shifts the first ones off the buffer. -/
theorem lost_text (h : Holding t p l) (full : 64*t.cols.toNat < p%t.cols.toNat+l.length+1)
    (c : UInt8) : (textFrom (t.wrapped.put c) (promptAfter t p).toNat).length < l.length+1 := by
  obtain ⟨row, col, n, hr, hc, hn, low, right, pos, le, cursor⟩ := h.place
  have cols : t.cols.toNat = n := by rw [hn, Int.toNat_natCast]
  have ends := h.ends
  have limit : maxRows = 64 := rfl
  rw [cols] at full ends
  have first : p = p%n := by
    have le := Nat.mod_le p n
    omega
  have lt : p < n := by
    rw [first]
    exact Nat.mod_lt _ pos
  have rows : row*n ≤ 63*n := Nat.mul_le_mul_right n (by omega)
  have at_end : col = n := by omega
  have last : row = 63 := Nat.eq_of_mul_eq_mul_right pos (by omega)
  have wraps : t.cols ≤ t.bufCol := by omega
  have shifts : maxRows ≤ t.bufRow+1 := by omega
  have prompt : promptAfter t p = p-t.cols := if_pos ⟨wraps, shifts⟩
  have fed : t.wrapped = t.lineFeed.follow := if_pos wraps
  have size : t.lineFeed.follow.cols = t.cols := t.lineFeed_size.1
  have bottom : t.lineFeed.follow.bufRow = 63 := by
    change t.lineFeed.bufRow = 63
    rw [Terminal.lineFeed, if_neg (by omega)]
    rfl
  have start := lineFeed_col t
  rw [prompt, show (p-t.cols).toNat = 0 by omega, textFrom, fed,
    show (t.lineFeed.follow.put c).cols = t.lineFeed.follow.cols from rfl, size, cols]
  refine lt_of_le_of_lt (filter_length_le (m := 63*n+1) fun j low high => ?_) (by omega)
  have size' : t.lineFeed.follow.cols.toNat = n := by rw [size, cols]
  have stored := gridCell_set (t := t.lineFeed.follow) (r := 63) (c := 0)
    (by rw [size']; exact pos) c (0+j)
  rw [if_neg (by rw [size']; omega)] at stored
  have here : gridCell (t.lineFeed.follow.put c) (0+j) = gridCell { t.lineFeed.follow with
      screenBuf := setCell t.lineFeed.follow.screenBuf 63 0 c } (0+j) := by
    rw [Terminal.put, bottom, start]
    rfl
  have blank := shifted_bottom shifts (k := 0+j) (by rw [cols]; omega) (by rw [cols]; omega)
  exact here.trans (stored.trans blank)

/-- A key that does not fit sets the text and the buffer apart. -/
theorem fits_of_shown (h : Edited x) (key : Key c) (types : Types execute c x y)
    (shown : Shown y) : EditFits c x := by
  obtain ⟨p, at_p, holds, short⟩ := h
  obtain ⟨t', run, drew⟩ := putchar_next holds c
  have left := holds.left
  rw [Shown] at shown
  by_cases back : c = backspace
  · rw [EditFits, if_pos back]
    intro some
    by_contra start
    subst back
    have same : x.1.terminal.typed backspace = x.1.terminal := by
      rw [Terminal.typed, if_neg (by decide), if_pos rfl, if_neg start]
    rw [same] at drew
    have ran := types.1
    rw [shellInput_back some, run] at ran
    have line := (Prod.mk.inj (Option.some.inj ran)).2
    have prompt : y.2 = p := by
      rw [types.2, if_neg fun accepts : x.1.accepts backspace => accepts.1 rfl, at_p]
    rw [prompt, ← line, Int.toNat_natCast] at shown
    have lengths := congrArg List.length ((holds.drew drew).textFrom.symm.trans shown)
    rw [command_length, command_length] at lengths
    change x.1.cmdLen = x.1.cmdLen-1 at lengths
    omega
  · rw [EditFits, if_neg back]
    intro room
    by_contra none
    have accepts : x.1.accepts c := ⟨back, room⟩
    have cols : ((x.1.terminal.cols.toNat : ℕ) : ℤ) = x.1.terminal.cols := by
      have := holds.some
      omega
    have typed : x.1.terminal.typed c = x.1.terminal.wrapped.put c := by
      rw [Terminal.typed, if_neg key.2, if_neg back]
    rw [typed] at drew
    have ran := types.1
    rw [shellInput_put key.2 accepts, run] at ran
    have line := (Prod.mk.inj (Option.some.inj ran)).2
    have prompt : y.2 = promptAfter x.1.terminal p := by
      rw [types.2, if_pos accepts, at_p]
    have lost := lost_text holds (by
      rw [command_length]
      rw [at_p, ← cols, not_le] at none
      exact_mod_cast none) c
    have same : textFrom (x.1.terminal.wrapped.put c) y.2.toNat = textFrom t' y.2.toNat := by
      rw [drew]
      rfl
    rw [← prompt, same, command_length] at lost
    rw [← line] at shown
    have lengths := congrArg List.length shown
    rw [command_put, List.length_append, List.length_singleton, command_length] at lengths
    exact absurd lengths lost.ne

theorem edited_of_prompted (h : Prompted x) : Edited x := by
  obtain ⟨p, at_p, holds, none⟩ := h
  refine ⟨p, at_p, ?_, by rw [none]; exact Nat.zero_le _⟩
  have empty : x.1.command = [] := by
    rw [Line.command, none]
    rfl
  rw [empty]
  exact holds

def EditsFitting (execute : LineM Unit) : Editing → Prop :=
  Reach Prompted (Types execute) fun x c => Key c ∧ EditFits c x

theorem edited_of_fitting (h : EditsFitting execute x) : Edited x := by
  refine Reach.invariant (I := Edited) h (fun s start => edited_of_prompted start) ?_
  intro s u c _ edited ok types
  obtain ⟨z, types', next⟩ := edited_step edited ok.1 ok.2
  rw [types.unique types']
  exact next

theorem shellInput_length (short : s.cmdLen ≤ cmdMax-1) (ne : c ≠ newline) {s' : Line}
    (run : (shellInput execute c).run s = some ((), s')) : s'.cmdLen ≤ cmdMax-1 := by
  have idle (none : c = backspace ∧ s.cmdLen = 0 ∨ c ≠ backspace ∧ cmdMax-1 ≤ s.cmdLen) :
      s'.cmdLen ≤ cmdMax-1 := by
    have same := (Prod.mk.inj (Option.some.inj ((shellInput_idle ne none).symm.trans run))).2
    rw [← same]
    exact short
  by_cases back : c = backspace
  · by_cases none : s.cmdLen = 0
    · exact idle (.inl ⟨back, none⟩)
    · subst back
      rw [shellInput_back (Nat.pos_of_ne_zero none)] at run
      obtain ⟨r, -, eq⟩ := Option.map_eq_some_iff.mp run
      rw [← (Prod.mk.inj eq).2]
      change s.cmdLen-1 ≤ cmdMax-1
      omega
  · by_cases full : cmdMax-1 ≤ s.cmdLen
    · exact idle (.inr ⟨back, full⟩)
    · rw [shellInput_put ne ⟨back, not_le.mp full⟩] at run
      obtain ⟨r, -, eq⟩ := Option.map_eq_some_iff.mp run
      rw [← (Prod.mk.inj eq).2]
      change s.cmdLen+1 ≤ cmdMax-1
      omega

/-- As long as the keys fit the line shows what is in the buffer, and the first key that does
not fit sets them apart; the buffer never overflows. -/
theorem line_shown (execute : LineM Unit) :
    (∀ x, EditsFitting execute x → Shown x ∧ ∀ c, Key c →
      (EditFits c x → ∃ y, Types execute c x y) ∧
      ∀ y, Types execute c x y → (Shown y ↔ EditFits c x)) ∧
    ∀ x, Reach Prompted (Types execute) (fun _ c => Key c) x → x.1.cmdLen ≤ cmdMax-1 := by
  constructor
  · intro x h
    have edited := edited_of_fitting h
    refine ⟨edited.shown, fun c key => ⟨fun fits => ?_, fun y types => ⟨?_, fun fits => ?_⟩⟩⟩
    · obtain ⟨y, types, -⟩ := edited_step edited key fits
      exact ⟨y, types⟩
    · exact fits_of_shown edited key types
    · obtain ⟨z, types', next⟩ := edited_step edited key fits
      rw [types.unique types']
      exact next.shown
  · intro x h
    refine Reach.invariant (I := fun x : Editing => x.1.cmdLen ≤ cmdMax-1) h ?_ ?_
    · rintro s ⟨p, -, -, none⟩
      rw [none]
      exact Nat.zero_le _
    · exact fun s u c _ short key types => shellInput_length short key.2 types.1

def narrowLine : Line := ⟨fun _ => 0, 0, ⟨16, 10, 2, 1, 0, 0, fun _ _ => 0, 0, 0, 0, []⟩⟩

theorem narrowLine_prompted : Prompted (narrowLine, 0) := by
  refine ⟨0, rfl, ⟨⟨⟨le_refl 0, by decide⟩, by decide, le_refl 0, by decide⟩, by decide,
    le_refl 0, by decide, rfl, fun j _ => rfl, by decide⟩, rfl⟩

def press (c : UInt8) (x : Editing) : Editing :=
  (((shellInput (pure ()) c).run x.1).elim x.1 Prod.snd,
    if x.1.accepts c then promptAfter x.1.terminal x.2 else x.2)

theorem types_press (c : UInt8) (x : Editing)
    (ends : ((shellInput (pure ()) c).run x.1).isSome = true) :
    Types (pure ()) c x (press c x) := by
  refine ⟨?_, rfl⟩
  obtain ⟨⟨⟨⟩, s⟩, run⟩ := Option.isSome_iff_exists.mp ends
  rw [press, run]
  rfl

/-- Three characters wrap, and the second backspace does not go back over the wrap. -/
theorem backspace_stops : ∃ x, Reach Prompted (Types (pure ())) (fun _ c => Key c) x ∧
    ¬Shown x ∧ x.1.command = [97] ∧ textFrom x.1.terminal x.2.toNat = [97, 98] := by
  have key (c : UInt8) (ne : c ≠ 0 ∧ c ≠ newline) : Key c := ne
  have text : textFrom (press 8 (press 8 (press 99 (press 98 (press 97
      (narrowLine, 0)))))).1.terminal (press 8 (press 8 (press 99 (press 98 (press 97
        (narrowLine, 0)))))).2.toNat = [97, 98] := by decide +kernel
  have line : (press 8 (press 8 (press 99 (press 98 (press 97 (narrowLine, 0)))))).1.command =
      [97] := by decide +kernel
  refine ⟨_, ((((Reach.start narrowLine_prompted).step (key 97 (by decide))
    (types_press 97 _ rfl)).step (key 98 (by decide)) (types_press 98 _ rfl)).step
    (key 99 (by decide)) (types_press 99 _ rfl)).step (key 8 (by decide))
    (types_press 8 _ rfl) |>.step (key 8 (by decide)) (types_press 8 _ rfl), ?_, line, text⟩
  rw [Shown, text, line]
  decide

end TinyOS.Shell
