import TinyOS.FramebufferDraw
import TinyOS.PartialRuns
import TinyOS.TerminalScrollback

set_option autoImplicit false

/-! The terminal in a viewport: the calls of terminal.c in any order, what each of them
does to the grid and the cursor, and the accesses to `screen_buf`. -/
namespace TinyOS.Display
open PartialRuns

def drawBar (c : Color) : TerminalM Unit := do
  let t ← get
  let x := t.originX + t.bufCol*charWidth
  let y := t.originY + (t.bufRow - t.scrollTop)*charHeight
  draw (.fillRect x (y + charHeight - 2) charWidth 2 c)
  draw .present

def terminalHideCursor : TerminalM Unit := drawBar colBg

def terminalDrawCursor : TerminalM Unit := drawBar colText

/-- `W / CHAR_W` or `H / CHAR_H`, at most what the buffer has. -/
def gridSize (pixels cell most : ℤ) : ℤ :=
  let n := pixels.tdiv cell
  if n > most then most else n

/-- The stores that `terminal_init` and `terminal_set_viewport` begin with. -/
def Terminal.area (t : Terminal) (x y w h : ℤ) : Terminal := { t with
  originX := x
  originY := y
  width := w
  height := h
  cols := gridSize w charWidth maxCols
  rows := gridSize h charHeight maxRows }

def terminalInit (width height : ℤ) : TerminalM Unit := do
  modify fun t => t.area 0 0 width height
  terminalClear
  redrawTerminal
  terminalDrawCursor

def clampCursorToGrid (t : Terminal) : Terminal :=
  let bufCol := if t.bufCol > t.cols then t.cols else t.bufCol
  let bufRow := if maxRows ≤ t.bufRow then maxRows - 1 else t.bufRow
  let scrollTop := if t.rows ≤ bufRow then bufRow - t.rows + 1 else 0
  { t with
    bufCol := bufCol
    bufRow := bufRow
    scrollTop := if scrollTop < 0 then 0 else scrollTop }

def terminalSetViewport (x y w h : ℤ) : TerminalM Unit := do
  modify fun t => clampCursorToGrid (t.area x y w h)
  redrawTerminal
  terminalDrawCursor

def Terminal.moved (t : Terminal) (x y : ℤ) : Terminal := { t with originX := x, originY := y }

def terminalMoveViewport (x y : ℤ) : TerminalM Unit := do
  modify fun t => t.moved x y
  redrawTerminal
  terminalDrawCursor

/-- The stores of `terminal_scroll`. -/
def Terminal.scrolled (t : Terminal) (lines : ℤ) : Terminal :=
  let maxScroll := if t.rows ≤ t.bufRow then t.bufRow - t.rows + 1 else 0
  let top := asInt (t.scrollTop - lines)
  let top := if top < 0 then 0 else top
  { t with scrollTop := if top > maxScroll then maxScroll else top }

def terminalScroll (lines : ℤ) : TerminalM Unit := do
  modify fun t => t.scrolled lines
  redrawTerminal
  terminalDrawCursor

/-- A call of terminal.c with its arguments. -/
inductive TerminalOp where
  | init (width height : ℤ)
  | setViewport (x y w h : ℤ)
  | moveViewport (x y : ℤ)
  | putchar (c : UInt8)
  | clear
  | scroll (lines : ℤ)
  | drawCursor
  | hideCursor

def TerminalOp.exec : TerminalOp → TerminalM Unit
  | .init width height => terminalInit width height
  | .setViewport x y w h => terminalSetViewport x y w h
  | .moveViewport x y => terminalMoveViewport x y
  | .putchar c => terminalPutchar c
  | .clear => terminalClear
  | .scroll lines => terminalScroll lines
  | .drawCursor => terminalDrawCursor
  | .hideCursor => terminalHideCursor

def bootTerminal : Terminal := ⟨0, 0, 0, 0, 0, 0, fun _ _ => 0, 0, 0, 0, []⟩

/-- The bounds that all calls keep; `buf_col` may be negative. -/
structure Terminal.Inside (t : Terminal) : Prop where
  row : 0 ≤ t.bufRow ∧ t.bufRow < maxRows
  col : t.bufCol ≤ maxCols
  top : 0 ≤ t.scrollTop
  cols : t.cols ≤ maxCols

def Terminal.wrapped (t : Terminal) : Terminal :=
  if t.cols ≤ t.bufCol then t.lineFeed.follow else t

def Terminal.erased (t : Terminal) : Terminal := { t with
  bufCol := t.bufCol - 1
  screenBuf := setCell t.screenBuf t.bufRow.toNat (t.bufCol - 1).toNat 0 }

def Terminal.typed (t : Terminal) (c : UInt8) : Terminal :=
  if c = newline then t.lineFeed.follow
  else if c = backspace then if 0 < t.bufCol then t.erased else t
  else t.wrapped.put c

def Terminal.cleared (t : Terminal) : Terminal :=
  { t with screenBuf := fun _ _ => 0, bufRow := 0, bufCol := 0, scrollTop := 0 }

def TerminalOp.next : TerminalOp → Terminal → Terminal
  | .init width height, t => (t.area 0 0 width height).cleared
  | .setViewport x y w h, t => clampCursorToGrid (t.area x y w h)
  | .moveViewport x y, t => t.moved x y
  | .putchar c, t => t.typed c
  | .clear, t => t.cleared
  | .scroll lines, t => t.scrolled lines
  | .drawCursor, t => t
  | .hideCursor, t => t

def Terminal.LeftOf (t : Terminal) : Prop := t.bufCol < 0 ∧ t.bufCol < t.cols

def TerminalOp.Safe : TerminalOp → Terminal → Prop
  | .putchar c, t => c ≠ newline → c ≠ backspace → ¬t.LeftOf
  | _, _ => True

def Terminal.cellX (t : Terminal) : ℤ := t.originX + t.bufCol*charWidth

def Terminal.cellY (t : Terminal) : ℤ := t.originY + (t.bufRow - t.scrollTop)*charHeight

def Terminal.Bar (t : Terminal) (call : DrawCall) : Prop :=
  ∃ c, call = .fillRect t.cellX (t.cellY + charHeight - 2) charWidth 2 c

def Terminal.Glyph (t : Terminal) (call : DrawCall) : Prop :=
  ∃ ch, call = .drawChar t.cellX t.cellY ch colText colBg

def Terminal.Blank (t : Terminal) (call : DrawCall) : Prop :=
  call = .fillRect t.cellX t.cellY charWidth charHeight colBg

def TerminalOp.Calls : TerminalOp → Terminal → DrawCall → Prop
  | .putchar c, t, call => call = .present ∨
    if c = newline then RedrawCall t.lineFeed.follow call
    else if c = backspace then 0 < t.bufCol ∧ t.erased.Blank call
    else RedrawCall t.wrapped call ∨ t.wrapped.Glyph call
  | .clear, t, call => call = .present ∨ RedrawCall t.cleared call
  | op, t, call => call = .present ∨ RedrawCall (op.next t) call ∨ (op.next t).Bar call

variable {t t' : Terminal} {P : DrawCall → Prop}

theorem gridSize_le (pixels cell most : ℤ) : gridSize pixels cell most ≤ most := by
  rw [gridSize]
  split_ifs
  · exact le_refl _
  · omega

theorem lineFeed_col (t : Terminal) : t.lineFeed.follow.bufCol = 0 := by
  change t.lineFeed.bufCol = 0
  rw [Terminal.lineFeed]
  split_ifs
  · rfl
  · rfl

theorem lineFeed_row (row : 0 ≤ t.bufRow ∧ t.bufRow < maxRows) :
    0 ≤ t.lineFeed.bufRow ∧ t.lineFeed.bufRow < maxRows := by
  rw [Terminal.lineFeed]
  split_ifs with room
  · change 0 ≤ t.bufRow + 1 ∧ t.bufRow + 1 < maxRows
    omega
  · change 0 ≤ maxRows - 1 ∧ maxRows - 1 < maxRows
    omega

theorem Terminal.Inside.lineFeed (h : t.Inside) : t.lineFeed.follow.Inside where
  row := lineFeed_row h.row
  col := by
    rw [lineFeed_col]
    exact (by decide : (0 : ℤ) ≤ maxCols)
  top := follow_top _
  cols := t.lineFeed_size.1.trans_le h.cols

theorem Terminal.Inside.wrapped (h : t.Inside) : t.wrapped.Inside := by
  rw [Terminal.wrapped]
  split_ifs
  · exact h.lineFeed
  · exact h

/-- The cell for the next character is in the buffer, or it is to the left of its row. -/
theorem Terminal.Inside.next_cell (h : t.Inside) :
    InBuffer t.wrapped.bufRow t.wrapped.bufCol ↔ ¬t.LeftOf := by
  obtain ⟨row0, row⟩ := h.wrapped.row
  have cols := h.cols
  have most : maxCols = 120 := rfl
  rw [Terminal.LeftOf]
  by_cases full : t.cols ≤ t.bufCol
  · have first : t.wrapped.bufCol = 0 := by
      rw [Terminal.wrapped, if_pos full, lineFeed_col]
    refine iff_of_true ⟨row0, row, ?_, ?_⟩ (by omega)
    · omega
    · omega
  · have same : t.wrapped.bufCol = t.bufCol := by rw [Terminal.wrapped, if_neg full]
    rw [InBuffer, same]
    omega

theorem Terminal.Inside.next (h : t.Inside) (op : TerminalOp) (safe : op.Safe t) :
    (op.next t).Inside := by
  have most : maxCols = 120 := rfl
  have limit : maxRows = 64 := rfl
  have zero : (0 : ℤ) ≤ maxCols := by decide
  have first : (0 : ℤ) < maxRows := by decide
  obtain ⟨row0, row⟩ := h.row
  cases op with
  | init width height => exact ⟨⟨le_refl 0, first⟩, zero, le_refl 0, gridSize_le ..⟩
  | setViewport x y w v =>
    have cols := gridSize_le w charWidth maxCols
    refine ⟨?_, ?_, ?_, cols⟩
    · change 0 ≤ (if maxRows ≤ t.bufRow then maxRows - 1 else t.bufRow) ∧
        (if maxRows ≤ t.bufRow then maxRows - 1 else t.bufRow) < maxRows
      rw [if_neg (by omega)]
      exact ⟨row0, row⟩
    · change (if t.bufCol > gridSize w charWidth maxCols then gridSize w charWidth maxCols
        else t.bufCol) ≤ maxCols
      split_ifs
      · exact cols
      · exact h.col
    · rw [TerminalOp.next, clampCursorToGrid]
      dsimp only
      omega
  | moveViewport x y => exact ⟨h.row, h.col, h.top, h.cols⟩
  | putchar c =>
    rw [TerminalOp.next, Terminal.typed]
    split_ifs with nl bs some
    · exact h.lineFeed
    · have col := h.col
      exact ⟨h.row, show t.bufCol - 1 ≤ maxCols by omega, h.top, h.cols⟩
    · exact h
    · have inside := h.next_cell.mpr (safe nl bs)
      have col : t.wrapped.bufCol + 1 ≤ maxCols := inside.2.2.2
      exact ⟨h.wrapped.row, col, h.wrapped.top, h.wrapped.cols⟩
  | clear => exact ⟨⟨le_refl 0, first⟩, zero, le_refl 0, h.cols⟩
  | scroll lines =>
    refine ⟨h.row, h.col, ?_, h.cols⟩
    rw [TerminalOp.next, Terminal.scrolled]
    dsimp only
    omega
  | drawCursor => exact h
  | hideCursor => exact h

theorem draw_once {call : DrawCall} (ok : P call) (t : Terminal) :
    (draw call).run t = some ((), { t with drawn := t.drawn ++ [call] }) ∧
      Draws P t { t with drawn := t.drawn ++ [call] } :=
  ⟨rfl, [call], rfl, by simpa using ok⟩

theorem drawBar_run (c : Color) (bar : ∀ call, t.Bar call → P call) (present : P .present) :
    ∃ t', (drawBar c).run t = some ((), t') ∧ Draws P t t' := by
  obtain ⟨run₁, draws₁⟩ := draw_once (bar _ ⟨c, rfl⟩) t
  exact ⟨_, rfl, draws₁.trans (draw_once present _).2⟩

theorem RedrawCall.drew {calls : List DrawCall} {call : DrawCall}
    (h : RedrawCall { t with drawn := calls } call) : RedrawCall t call := by
  cases h with
  | background => exact .background
  | cell row col ch => exact RedrawCall.cell (t := t) row col ch

/-- The end of the calls that move the terminal or its text. -/
theorem redraw_cursor_run (top : 0 ≤ t.scrollTop) (cols : t.cols ≤ maxCols) :
    ∃ t', (do
      redrawTerminal
      terminalDrawCursor : TerminalM Unit).run t = some ((), t') ∧
        Draws (fun call => call = .present ∨ RedrawCall t call ∨ t.Bar call) t t' := by
  obtain ⟨t₁, run₁, draws₁⟩ := redrawTerminal_run top cols
  have drew := draws₁.drew
  have same (call : DrawCall) (bar : t₁.Bar call) : t.Bar call := by
    rw [drew] at bar
    exact bar
  obtain ⟨t₂, run₂, draws₂⟩ := drawBar_run (t := t₁)
    (P := fun call => call = .present ∨ RedrawCall t call ∨ t.Bar call) colText
    (fun call bar => .inr (.inr (same call bar))) (.inl rfl)
  refine ⟨t₂, ?_, (draws₁.mono fun call redraw => .inr (.inl redraw)).trans draws₂⟩
  rw [terminal_bind, run₁, Option.bind_some]
  exact run₂

theorem putchar_newline (h : t.Inside) : ∃ t', (terminalPutchar newline).run t = some ((), t') ∧
    Draws ((TerminalOp.putchar newline).Calls t) t.lineFeed.follow t' := by
  obtain ⟨t₁, run₁, draws₁⟩ := scrollDown_run h.cols
  refine ⟨_, ?_, (draws₁.mono fun call redraw => .inr ?_).trans (draw_once (.inl rfl) t₁).2⟩
  · rw [terminalPutchar, if_pos rfl, terminal_bind, run₁, Option.bind_some, terminal_bind,
      (draw_once (P := fun _ => True) trivial t₁).1]
    rfl
  · rw [if_pos rfl]
    exact redraw

theorem putchar_backspace (h : t.Inside) :
    ∃ t', (terminalPutchar backspace).run t = some ((), t') ∧
      Draws ((TerminalOp.putchar backspace).Calls t) (t.typed backspace) t' := by
  have ne : backspace ≠ newline := by decide
  have limit : maxCols = 120 := rfl
  rw [Terminal.typed, if_neg ne, if_pos rfl, terminalPutchar, if_neg ne, if_pos rfl, terminal_bind,
    show (get : TerminalM Terminal).run t = some (t, t) from rfl, Option.bind_some]
  dsimp only
  by_cases some : 0 < t.bufCol
  · have col := h.col
    have inside : InBuffer t.bufRow (t.bufCol - 1) :=
      ⟨h.row.1, h.row.2, by omega, by omega⟩
    rw [if_pos some, if_pos some]
    have blank : (TerminalOp.putchar backspace).Calls t
        (.fillRect t.erased.cellX t.erased.cellY charWidth charHeight colBg) := by
      refine .inr ?_
      rw [if_neg ne, if_pos rfl]
      exact ⟨some, rfl⟩
    refine ⟨_, ?_, (draw_once blank t.erased).2.trans (draw_once (.inl rfl) _).2⟩
    rw [terminal_bind, show (modify fun t : Terminal => { t with bufCol := t.bufCol - 1 } :
      TerminalM Unit).run t = Option.some ((), { t with bufCol := t.bufCol - 1 }) from rfl,
      Option.bind_some, terminal_bind, show (get : TerminalM Terminal).run
      { t with bufCol := t.bufCol - 1 } = Option.some (_, _) from rfl, Option.bind_some]
    dsimp only
    rw [terminal_bind, writeCell_run inside]
    rfl
  · rw [if_neg some, if_neg some]
    exact ⟨t, rfl, .refl t⟩

/-- The end of `terminal_putchar`, where the character has its cell. -/
theorem putCell_run (c : UInt8) (inside : InBuffer t.bufRow t.bufCol)
    (glyph : ∀ call, t.Glyph call → P call) (present : P .present) (draws : Draws P t t') :
    ∃ u, (do
      let t ← get
      writeCell t.bufRow t.bufCol c
      draw (.drawChar (t.originX + t.bufCol*charWidth)
        (t.originY + (t.bufRow - t.scrollTop)*charHeight) c colText colBg)
      modify fun t => { t with bufCol := t.bufCol + 1 }
      draw .present : TerminalM Unit).run t' = some ((), u) ∧ Draws P (t.put c) u := by
  obtain ⟨calls, rfl, each⟩ := draws
  refine ⟨{ t.put c with drawn := t.drawn ++ calls ++
    [.drawChar t.cellX t.cellY c colText colBg] ++ [.present] }, ?_,
    calls ++ [.drawChar t.cellX t.cellY c colText colBg, .present], ?_, fun call mem => ?_⟩
  · rw [terminal_bind, show (get : TerminalM Terminal).run { t with drawn := t.drawn ++ calls } =
      some (_, _) from rfl, Option.bind_some, terminal_bind, writeCell_run inside]
    rfl
  · rw [List.append_assoc, List.append_assoc]
    rfl
  · rcases List.mem_append.mp mem with old | new
    · exact each call old
    · rcases List.mem_cons.mp new with rfl | last
      · exact glyph _ ⟨c, rfl⟩
      · rw [List.mem_singleton.mp last]
        exact present

theorem putchar_visible (h : t.Inside) {c : UInt8} (nl : c ≠ newline) (bs : c ≠ backspace)
    (left : ¬t.LeftOf) : ∃ t', (terminalPutchar c).run t = some ((), t') ∧
      Draws ((TerminalOp.putchar c).Calls t) (t.typed c) t' := by
  have inside := h.next_cell.mpr left
  have glyph (call : DrawCall) (glyph : t.wrapped.Glyph call) :
      (TerminalOp.putchar c).Calls t call := by
    rw [TerminalOp.Calls, if_neg nl, if_neg bs]
    exact .inr (.inr glyph)
  rw [Terminal.typed, if_neg nl, if_neg bs, terminalPutchar, if_neg nl, if_neg bs, terminal_bind,
    show (get : TerminalM Terminal).run t = some (t, t) from rfl, Option.bind_some]
  dsimp only
  by_cases full : t.cols ≤ t.bufCol
  · obtain ⟨t₁, run₁, draws₁⟩ := scrollDown_run h.cols
    have fed : t.wrapped = t.lineFeed.follow := if_pos full
    rw [← fed] at draws₁
    obtain ⟨t₂, run₂, draws₂⟩ := putCell_run c inside glyph (.inl rfl)
      (draws₁.mono fun call redraw => show (TerminalOp.putchar c).Calls t call by
        rw [TerminalOp.Calls, if_neg nl, if_neg bs]
        exact .inr (.inl redraw))
    rw [if_pos full]
    refine ⟨t₂, ?_, draws₂⟩
    rw [terminal_bind, run₁, Option.bind_some]
    exact run₂
  · have same : t.wrapped = t := if_neg full
    rw [same] at inside glyph ⊢
    rw [if_neg full]
    exact putCell_run c inside glyph (.inl rfl) (.refl t)

theorem clear_run (t : Terminal) : ∃ t', terminalClear.run t = some ((), t') ∧
    Draws (TerminalOp.clear.Calls t) t.cleared t' :=
  ⟨_, rfl, (draw_once (.inr .background) t.cleared).2.trans (draw_once (.inl rfl) _).2⟩

/-- What a safe call does: it stores `next` and makes only such calls to framebuffer.c. -/
theorem exec_run (h : t.Inside) (op : TerminalOp) (safe : op.Safe t) :
    ∃ t', op.exec.run t = some ((), t') ∧ Draws (op.Calls t) (op.next t) t' := by
  have inside := h.next op safe
  cases op with
  | init width height =>
    obtain ⟨t₁, run₁, draws₁⟩ := clear_run (t.area 0 0 width height)
    have drew := draws₁.drew
    have at_next : t₁.scrollTop = 0 ∧ t₁.cols = gridSize width charWidth maxCols := by
      rw [drew]
      exact ⟨rfl, rfl⟩
    obtain ⟨t₂, run₂, draws₂⟩ := redraw_cursor_run (t := t₁) (by rw [at_next.1])
      (by rw [at_next.2]; exact gridSize_le ..)
    refine ⟨t₂, ?_, (draws₁.mono fun call calls => ?_).trans (draws₂.mono fun call calls => ?_)⟩
    · change (terminalClear.run (t.area 0 0 width height)).bind (fun p => (do
        redrawTerminal
        terminalDrawCursor : TerminalM Unit).run p.2) = _
      rw [run₁]
      exact run₂
    · exact calls.imp_right .inl
    · rw [drew] at calls
      exact calls.imp_right (Or.imp_left RedrawCall.drew)
  | setViewport x y w v => exact redraw_cursor_run inside.top inside.cols
  | moveViewport x y => exact redraw_cursor_run inside.top inside.cols
  | putchar c =>
    by_cases nl : c = newline
    · have fed : t.typed newline = t.lineFeed.follow := if_pos rfl
      rw [nl, TerminalOp.next, fed]
      exact putchar_newline h
    by_cases bs : c = backspace
    · rw [bs]
      exact putchar_backspace h
    · exact putchar_visible h nl bs (safe nl bs)
  | clear => exact clear_run t
  | scroll lines => exact redraw_cursor_run inside.top inside.cols
  | drawCursor => exact drawBar_run colText (fun call bar => .inr (.inr bar)) (.inl rfl)
  | hideCursor => exact drawBar_run colBg (fun call bar => .inr (.inr bar)) (.inl rfl)

/-- The store of a character to the left of its row is outside the buffer. -/
theorem exec_none (op : TerminalOp) (leaves : ¬op.Safe t) :
    op.exec.run t = none := by
  cases op with
  | putchar c =>
    have visible : c ≠ newline ∧ c ≠ backspace ∧ t.LeftOf := by
      by_contra
      refine leaves fun nl bs left => ?_
      exact this ⟨nl, bs, left⟩
    obtain ⟨nl, bs, left⟩ := visible
    have outside : ¬InBuffer t.bufRow t.bufCol := fun inside => absurd inside.2.2.1 (by
      rw [Terminal.LeftOf] at left
      omega)
    have fails : (writeCell t.bufRow t.bufCol c).run t = none := if_neg outside
    change (terminalPutchar c).run t = none
    rw [terminalPutchar, if_neg nl, if_neg bs, terminal_bind,
      show (get : TerminalM Terminal).run t = some (t, t) from rfl, Option.bind_some]
    dsimp only
    rw [if_neg (by rw [Terminal.LeftOf] at left; omega), terminal_bind,
      show (get : TerminalM Terminal).run t = some (t, t) from rfl, Option.bind_some, terminal_bind,
      fails]
    rfl
  | _ => exact absurd trivial leaves

theorem boot_inside : bootTerminal.Inside :=
  ⟨⟨le_refl 0, by decide⟩, by decide, le_refl 0, by decide⟩

/-- A sequence of calls keeps all its accesses inside the buffer exactly when none of them
puts a character to the left of its row. -/
theorem accesses_inside_iff (ops : List TerminalOp) :
    (∃ t, (ops.forM TerminalOp.exec).run bootTerminal = some ((), t)) ↔
      ∀ before op after t, ops = before ++ op :: after →
        (before.forM TerminalOp.exec).run bootTerminal = some ((), t) → op.Safe t := by
  have keeps (op : TerminalOp) (t : Terminal) (inside : t.Inside) (safe : op.Safe t) :
      ∃ t', op.exec.run t = some ((), t') ∧ t'.Inside := by
    obtain ⟨t', run, draws⟩ := exec_run inside op safe
    refine ⟨t', run, ?_⟩
    have next := inside.next op safe
    rw [draws.drew]
    exact ⟨next.row, next.col, next.top, next.cols⟩
  exact forM_defined_iff keeps (fun op t _ leaves => exec_none op leaves) boot_inside ops

def narrowed : List TerminalOp :=
  [.setViewport 0 0 (-8) 10, .setViewport 0 0 80 10, .putchar 65]

theorem narrowed_leaves :
    ¬∃ t, (narrowed.forM TerminalOp.exec).run bootTerminal = some ((), t) := by
  rintro ⟨t, ran⟩
  have none : (narrowed.forM TerminalOp.exec).run bootTerminal = none := rfl
  rw [none] at ran
  exact absurd ran (by simp)

end TinyOS.Display
