import TinyOS.FramebufferTouch
import TinyOS.StateRuns
import TinyOS.TerminalViewport

set_option autoImplicit false

namespace TinyOS.Display
open PartialRuns StateRuns

def Terminal.viewport (t : Terminal) : FbRect := ⟨t.originX, t.originY, t.width, t.height⟩

/-- Every point that the call hands to `fb_put_pixel` lies in the viewport. -/
def Confined (t : Terminal) (call : DrawCall) : Prop :=
  ∀ x y, call.Touches x y → t.viewport.Has x y

def TerminalOp.Sized : TerminalOp → Prop
  | .init width height => 0 ≤ width ∧ 0 ≤ height
  | .setViewport _ _ w h => 0 ≤ w ∧ 0 ≤ h
  | _ => True

def Terminal.RowFits (t : Terminal) (h : ℤ) : Prop :=
  t.scrollTop ≤ t.bufRow ∧ (t.bufRow - t.scrollTop)*charHeight + h ≤ t.height

def Terminal.ColFits (t : Terminal) : Prop := t.bufCol*charWidth + charWidth ≤ t.width

def TerminalOp.Fits : TerminalOp → Terminal → Prop
  | .init width height, _ => charWidth ≤ width ∧ charHeight ≤ height
  | .setViewport _ _ w h, t => t.bufCol*charWidth + charWidth ≤ w ∧ charHeight ≤ h
  | .putchar c, t =>
    if c = newline then True
    else if c = backspace then
      0 < t.bufCol → t.RowFits charHeight ∧ t.bufCol*charWidth ≤ t.width
    else if t.bufCol < t.cols then t.RowFits 8
    else charWidth ≤ t.width ∧ charHeight ≤ t.height
  | .clear, _ => True
  | .scroll lines, t => t.ColFits ∧ charHeight ≤ t.height ∧
    (t.bufRow < t.rows ∨ t.bufRow - t.rows + 1 ≤ asInt (t.scrollTop - lines))
  | _, t => t.RowFits charHeight ∧ t.ColFits

structure Terminal.Framed (t : Terminal) : Prop extends t.Inside where
  left : 0 ≤ t.bufCol
  wide : 0 ≤ t.width
  high : 0 ≤ t.height
  cols_eq : t.cols = gridSize t.width charWidth maxCols
  rows_eq : t.rows = gridSize t.height charHeight maxRows

variable {t t' : Terminal} {op : TerminalOp}

theorem gridSize_nonneg {pixels cell most : ℤ} (pos : 0 ≤ pixels) (pos' : 0 ≤ cell)
    (pos'' : 0 ≤ most) : 0 ≤ gridSize pixels cell most := by
  have quotient : 0 ≤ pixels.tdiv cell := Int.tdiv_nonneg pos pos'
  rw [gridSize]
  split_ifs
  · exact pos''
  · exact quotient

theorem cell_le {pixels cell most : ℤ} (pos : 0 ≤ pixels) (pos' : 0 < cell) {n : ℕ}
    (lt : (n : ℤ) < gridSize pixels cell most) : (n : ℤ)*cell + cell ≤ pixels := by
  have le : gridSize pixels cell most ≤ pixels.tdiv cell := by
    rw [gridSize]
    split_ifs
    · omega
    · omega
  rw [Int.tdiv_eq_ediv_of_nonneg pos] at le
  have whole : pixels / cell * cell ≤ pixels := Int.ediv_mul_le pixels (by omega)
  have more : ((n : ℤ) + 1)*cell ≤ pixels / cell * cell :=
    mul_le_mul_of_nonneg_right (by omega) (by omega)
  rw [add_mul, one_mul] at more
  omega

theorem Terminal.Framed.safe (h : t.Framed) (op : TerminalOp) : op.Safe t := by
  have left := h.left
  cases op with
  | putchar c =>
    intro _ _ lost
    rw [Terminal.LeftOf] at lost
    omega
  | _ => trivial

theorem redraw_confined (h : t.Framed) {call : DrawCall} (redraw : RedrawCall t call) :
    Confined t call := by
  intro x y touches
  cases redraw with
  | background => exact touches
  | @cell r c row col ch =>
    rw [h.rows_eq] at row
    rw [h.cols_eq] at col
    have right := cell_le h.wide (by decide) col
    have low := cell_le h.high (by decide) row
    change t.originX ≤ x ∧ x < t.originX + t.width ∧ t.originY ≤ y ∧ y < t.originY + t.height
    obtain ⟨x0, x1, y0, y1⟩ := has_iff.mp touches
    have small : charWidth = 8 ∧ charHeight = 10 := ⟨rfl, rfl⟩
    have col0 : 0 ≤ (c : ℤ)*charWidth := Int.mul_nonneg (Int.natCast_nonneg c) (by decide)
    have row0 : 0 ≤ (r : ℤ)*charHeight := Int.mul_nonneg (Int.natCast_nonneg r) (by decide)
    omega

structure SameArea (t t' : Terminal) : Prop where
  viewport : t'.viewport = t.viewport
  cols : t'.cols = t.cols
  rows : t'.rows = t.rows
  drawn : t'.drawn = t.drawn

theorem SameArea.refl (t : Terminal) : SameArea t t := ⟨rfl, rfl, rfl, rfl⟩

theorem lineFeed_area (t : Terminal) : SameArea t t.lineFeed.follow := by
  rw [Terminal.lineFeed]
  split_ifs
  · exact ⟨rfl, rfl, rfl, rfl⟩
  · exact ⟨rfl, rfl, rfl, rfl⟩

theorem wrapped_area (t : Terminal) : SameArea t t.wrapped := by
  rw [Terminal.wrapped]
  split_ifs
  · exact lineFeed_area t
  · exact .refl t

theorem typed_area (t : Terminal) (c : UInt8) : SameArea t (t.typed c) := by
  rw [Terminal.typed]
  split_ifs
  · exact lineFeed_area t
  · exact ⟨rfl, rfl, rfl, rfl⟩
  · exact .refl t
  · obtain ⟨viewport, cols, rows, drawn⟩ := wrapped_area t
    exact ⟨viewport, cols, rows, drawn⟩

theorem Terminal.Framed.of_area (h : t.Framed) (inside : t'.Inside) (left : 0 ≤ t'.bufCol)
    (area : SameArea t t') : t'.Framed := by
  have width : t'.width = t.width := congrArg FbRect.w area.viewport
  have height : t'.height = t.height := congrArg FbRect.h area.viewport
  refine ⟨inside, left, ?_, ?_, ?_, ?_⟩
  · rw [width]
    exact h.wide
  · rw [height]
    exact h.high
  · rw [width, area.cols]
    exact h.cols_eq
  · rw [height, area.rows]
    exact h.rows_eq

theorem Terminal.Framed.wrapped (h : t.Framed) : t.wrapped.Framed := by
  refine h.of_area h.toInside.wrapped ?_ (wrapped_area t)
  rw [Terminal.wrapped]
  split_ifs
  · exact (lineFeed_col t).ge
  · exact h.left

theorem Terminal.Framed.next (h : t.Framed) (op : TerminalOp) (sized : op.Sized) :
    (op.next t).Framed := by
  have inside := h.toInside.next op (h.safe op)
  have left := h.left
  cases op with
  | init width height => exact ⟨inside, le_refl 0, sized.1, sized.2, rfl, rfl⟩
  | setViewport x y w v =>
    refine ⟨inside, ?_, sized.1, sized.2, rfl, rfl⟩
    have cols : 0 ≤ gridSize w charWidth maxCols :=
      gridSize_nonneg sized.1 (by decide) (by decide)
    change 0 ≤ if t.bufCol > gridSize w charWidth maxCols then gridSize w charWidth maxCols
      else t.bufCol
    split_ifs
    · exact cols
    · exact left
  | moveViewport x y => exact ⟨inside, left, h.wide, h.high, h.cols_eq, h.rows_eq⟩
  | putchar c =>
    refine h.of_area inside ?_ (typed_area t c)
    have wrapped := h.wrapped.left
    rw [TerminalOp.next, Terminal.typed]
    split_ifs with nl bs some
    · exact (lineFeed_col t).ge
    · change 0 ≤ t.bufCol - 1
      omega
    · exact left
    · change 0 ≤ t.wrapped.bufCol + 1
      omega
  | clear => exact ⟨inside, le_refl 0, h.wide, h.high, h.cols_eq, h.rows_eq⟩
  | scroll lines => exact ⟨inside, left, h.wide, h.high, h.cols_eq, h.rows_eq⟩
  | drawCursor => exact h
  | hideCursor => exact h

theorem next_drawn (t : Terminal) (op : TerminalOp) : (op.next t).drawn = t.drawn := by
  cases op with
  | putchar c => exact (typed_area t c).drawn
  | _ => rfl

theorem Confined.of_viewport {call : DrawCall} (h : Confined t call)
    (same : t'.viewport = t.viewport) : Confined t' call := by
  intro x y touches
  rw [same]
  exact h x y touches

theorem present_confined (t : Terminal) : Confined t .present := fun _ _ touches => touches.elim

/-- What is drawn from the cursor's corner on stays inside when its cell does. -/
theorem cell_confined (skip h : ℤ) (left : 0 ≤ t.bufCol) (from' : 0 ≤ skip)
    (row : t.RowFits (skip + h)) (col : t.ColFits) {call : DrawCall}
    (box : ∀ x y, call.Touches x y → FbRect.Has ⟨t.cellX, t.cellY + skip, charWidth, h⟩ x y) :
    Confined t call := by
  intro x y touches
  obtain ⟨x0, x1, y0, y1⟩ := has_iff.mp (box x y touches)
  obtain ⟨above, below⟩ := row
  change t.originX ≤ x ∧ x < t.originX + t.width ∧ t.originY ≤ y ∧ y < t.originY + t.height
  change (t.bufRow - t.scrollTop)*10 + (skip + h) ≤ t.height at below
  change t.bufCol*8 + 8 ≤ t.width at col
  change t.originX + t.bufCol*8 ≤ x at x0
  change x < t.originX + t.bufCol*8 + 8 at x1
  change t.originY + (t.bufRow - t.scrollTop)*10 + skip ≤ y at y0
  change y < t.originY + (t.bufRow - t.scrollTop)*10 + skip + h at y1
  omega

theorem bar_confined (left : 0 ≤ t.bufCol) (row : t.RowFits charHeight) (col : t.ColFits)
    {call : DrawCall} (bar : t.Bar call) : Confined t call := by
  obtain ⟨c, rfl⟩ := bar
  refine cell_confined 8 2 left (by decide) row col fun x y touches => ?_
  obtain ⟨x0, x1, y0, y1⟩ := has_iff.mp touches
  change t.cellY + 10 - 2 ≤ y at y0
  change y < t.cellY + 10 - 2 + 2 at y1
  exact has_iff.mpr ⟨x0, x1, by omega, by omega⟩

theorem gridSize_pos {pixels cell most : ℤ} (pos : 0 < cell) (le : cell ≤ pixels)
    (one : 1 ≤ most) : 1 ≤ gridSize pixels cell most := by
  have quotient : 1 ≤ pixels.tdiv cell := by
    rw [Int.tdiv_eq_ediv_of_nonneg (by omega)]
    exact (Int.le_ediv_iff_mul_le pos).mpr (by omega)
  rw [gridSize]
  split_ifs
  · exact one
  · exact quotient

theorem Terminal.Framed.row_le (h : t.Framed) {r : ℤ} (nonneg : 0 ≤ r) (lt : r < t.rows) :
    r*charHeight + charHeight ≤ t.height := by
  obtain ⟨n, rfl⟩ := Int.eq_ofNat_of_zero_le nonneg
  rw [h.rows_eq] at lt
  exact cell_le h.high (by decide) lt

theorem Terminal.Framed.col_le (h : t.Framed) {c : ℤ} (nonneg : 0 ≤ c) (lt : c < t.cols) :
    c*charWidth + charWidth ≤ t.width := by
  obtain ⟨n, rfl⟩ := Int.eq_ofNat_of_zero_le nonneg
  rw [h.cols_eq] at lt
  exact cell_le h.wide (by decide) lt

theorem Terminal.Framed.row_fits (h : t.Framed) {v : ℤ} (le : v ≤ charHeight)
    (above : t.scrollTop ≤ t.bufRow) (lt : t.bufRow - t.scrollTop < t.rows) : t.RowFits v := by
  have fits := h.row_le (by omega) lt
  exact ⟨above, by omega⟩

theorem Terminal.Framed.follow_fits (h : t.follow.Framed) {v : ℤ} (le : v ≤ charHeight)
    (room : charHeight ≤ t.height) : t.follow.RowFits v := by
  have rows : 1 ≤ t.rows := by
    have eq : t.rows = gridSize t.height charHeight maxRows := h.rows_eq
    rw [eq]
    exact gridSize_pos (by decide) room (by decide)
  have row : 0 ≤ t.bufRow := h.row.1
  refine h.row_fits le ?_ ?_
  · change (if t.rows ≤ t.bufRow then t.bufRow - t.rows + 1 else 0) ≤ t.bufRow
    split_ifs
    · omega
    · exact row
  · change t.bufRow - (if t.rows ≤ t.bufRow then t.bufRow - t.rows + 1 else 0) < t.rows
    split_ifs
    · omega
    · omega

/-- Where the call has room, the bar that it ends with has room. -/
theorem TerminalOp.Fits.bar (h : t.Framed) (framed : (op.next t).Framed) (fits : op.Fits t)
    (last : ∀ c, op ≠ .putchar c) (ends : op ≠ .clear) :
    (op.next t).RowFits charHeight ∧ (op.next t).ColFits := by
  have limit : maxRows = 64 := rfl
  cases op with
  | init width height =>
    obtain ⟨wide, high⟩ := fits
    refine ⟨⟨le_refl 0, ?_⟩, ?_⟩
    · change (0 - 0)*charHeight + charHeight ≤ height
      omega
    · change 0*charWidth + charWidth ≤ width
      omega
  | setViewport x y w v =>
    obtain ⟨wide, high⟩ := fits
    obtain ⟨row0, row⟩ := h.row
    have rows : 1 ≤ gridSize v charHeight maxRows := gridSize_pos (by decide) high (by decide)
    constructor
    · refine framed.row_fits (le_refl _) ?_ ?_
      all_goals
        simp only [TerminalOp.next, clampCursorToGrid, Terminal.area]
        split_ifs
        all_goals omega
    · rw [Terminal.ColFits, TerminalOp.next, clampCursorToGrid]
      change (if t.bufCol > gridSize w charWidth maxCols then gridSize w charWidth maxCols
        else t.bufCol)*8 + 8 ≤ w
      change t.bufCol*8 + 8 ≤ w at wide
      split_ifs
      · omega
      · exact wide
  | moveViewport x y => exact fits
  | putchar c => exact absurd rfl (last c)
  | clear => exact absurd rfl ends
  | scroll lines =>
    obtain ⟨col, high, visible⟩ := fits
    obtain ⟨row0, row⟩ := h.row
    have rows : 1 ≤ t.rows := by
      rw [h.rows_eq]
      exact gridSize_pos (by decide) high (by decide)
    refine ⟨framed.row_fits (le_refl _) ?_ ?_, col⟩
    all_goals
      simp only [TerminalOp.next, Terminal.scrolled]
      split_ifs
      all_goals omega
  | drawCursor => exact fits
  | hideCursor => exact fits

/-- Where it has room, all that a call draws is in the viewport it leaves. -/
theorem calls_confined (h : t.Framed) (sized : op.Sized) (fits : op.Fits t) {call : DrawCall}
    (calls : op.Calls t call) : Confined (op.next t) call := by
  have framed := h.next op sized
  have left := h.left
  -- the calls that end with the cursor
  have cursor (last : ∀ c, op ≠ .putchar c) (ends : op ≠ .clear)
      (calls : call = .present ∨ RedrawCall (op.next t) call ∨ (op.next t).Bar call) :
      Confined (op.next t) call := by
    obtain ⟨row, col⟩ := fits.bar h framed last ends
    rcases calls with rfl | redraw | bar
    · exact present_confined _
    · exact redraw_confined framed redraw
    · exact bar_confined framed.left row col bar
  cases op with
  | putchar c =>
    have area := (typed_area t c).viewport
    rcases calls with rfl | calls
    · exact present_confined _
    rw [TerminalOp.Fits] at fits
    split_ifs at calls fits with nl bs grid
    · refine (redraw_confined (h.of_area h.toInside.lineFeed (lineFeed_col t).ge
        (lineFeed_area t)) calls).of_viewport ?_
      rw [(lineFeed_area t).viewport]
      exact area
    · obtain ⟨some, rfl⟩ := calls
      obtain ⟨row, col⟩ := fits some
      have first : 0 ≤ t.erased.bufCol := show 0 ≤ t.bufCol - 1 by omega
      have column : t.erased.ColFits := by
        change t.bufCol*8 ≤ t.width at col
        change (t.bufCol - 1)*8 + 8 ≤ t.width
        omega
      have confined : Confined t.erased
          (.fillRect t.erased.cellX t.erased.cellY charWidth charHeight colBg) :=
        cell_confined 0 charHeight first (le_refl 0) row column fun x y touches => by rwa [add_zero]
      exact confined.of_viewport area
    · have same : t.wrapped = t := if_neg (by omega)
      rw [same] at calls
      rcases calls with redraw | ⟨ch, rfl⟩
      · exact (redraw_confined h redraw).of_viewport area
      · have confined : Confined t (.drawChar t.cellX t.cellY ch colText colBg) :=
          cell_confined 0 8 left (le_refl 0) fits (h.col_le left grid) fun x y touches => by rwa [add_zero]
        exact confined.of_viewport area
    · obtain ⟨wide, high⟩ := fits
      have fed : t.wrapped = t.lineFeed.follow := if_pos (by omega)
      rw [fed] at calls
      have framed' := h.of_area h.toInside.lineFeed (lineFeed_col t).ge (lineFeed_area t)
      have same : (t.typed c).viewport = t.lineFeed.follow.viewport :=
        area.trans (lineFeed_area t).viewport.symm
      rcases calls with redraw | ⟨ch, rfl⟩
      · exact (redraw_confined framed' redraw).of_viewport same
      · have size : t.lineFeed.height = t.height ∧ t.lineFeed.follow.width = t.width :=
          ⟨congrArg FbRect.h (lineFeed_area t).viewport,
            congrArg FbRect.w (lineFeed_area t).viewport⟩
        have row := framed'.follow_fits (v := 8) (by decide) (by rw [size.1]; exact high)
        have col : t.lineFeed.follow.ColFits := by
          rw [Terminal.ColFits, lineFeed_col, size.2]
          omega
        have confined : Confined t.lineFeed.follow
            (.drawChar t.lineFeed.follow.cellX t.lineFeed.follow.cellY ch colText colBg) :=
          cell_confined 0 8 (lineFeed_col t).ge (le_refl 0) row col fun x y touches => by rwa [add_zero]
        exact confined.of_viewport same
  | clear =>
    rcases calls with rfl | redraw
    · exact present_confined _
    · exact redraw_confined framed redraw
  | init width height => exact cursor (fun _ => nofun) nofun calls
  | setViewport x y w v => exact cursor (fun _ => nofun) nofun calls
  | moveViewport x y => exact cursor (fun _ => nofun) nofun calls
  | scroll lines => exact cursor (fun _ => nofun) nofun calls
  | drawCursor => exact cursor (fun _ => nofun) nofun calls
  | hideCursor => exact cursor (fun _ => nofun) nofun calls

def TerminalOp.Step (op : TerminalOp) (t t' : Terminal) : Prop := op.exec.run t = some ((), t')

def Fitting : Terminal → Prop :=
  Reach (fun t => t = bootTerminal) TerminalOp.Step fun t op => op.Sized ∧ op.Fits t

theorem framed_of_fitting (h : Fitting t) : t.Framed := by
  refine Reach.invariant (I := Terminal.Framed) h ?_ ?_
  · rintro s rfl
    exact ⟨boot_inside, le_refl 0, le_refl 0, le_refl 0, rfl, rfl⟩
  · intro s u op _ framed ok run
    obtain ⟨u', run', draws⟩ := exec_run framed.toInside op (framed.safe op)
    obtain rfl := (Prod.mk.inj (Option.some.inj (run.symm.trans run'))).2
    have next := framed.next op ok.1
    rw [draws.drew]
    exact ⟨⟨next.row, next.col, next.top, next.cols⟩, next.left, next.wide, next.high,
      next.cols_eq, next.rows_eq⟩

/-- In the runs whose calls have room, each call draws in the current rectangle only, and what is
drawn at the other pixels of the screen stays. -/
theorem terminal_confined (h : Fitting t) (sized : op.Sized) (fits : op.Fits t) :
    ∃ t' calls, op.Step t t' ∧ t'.drawn = t.drawn ++ calls ∧
      (∀ call ∈ calls, Confined t' call) ∧
      ∀ g : Mode, g.Good → ∀ font X Y, X < g.w.toNat → Y < g.h.toNat →
        g.Misses t'.viewport X Y →
        Relates (Kept g X Y) (calls.forM fun call => call.perform g font) := by
  have framed := framed_of_fitting h
  obtain ⟨t', run, calls, eq, each⟩ := exec_run framed.toInside op (framed.safe op)
  have confined (call : DrawCall) (mem : call ∈ calls) : Confined t' call := by
    have next := calls_confined framed sized fits (each call mem)
    rw [eq]
    exact next
  refine ⟨t', calls, run, ?_, confined, fun g good font X Y lt lt' misses => ?_⟩
  · rw [eq, next_drawn]
  · refine .forM .refl .trans _ fun call mem => perform_kept good lt lt' call ?_
    exact fun x y touches => misses x y (confined call mem x y touches)

theorem terminal_confined_first : ∃ t, (TerminalOp.setViewport 0 0 80 100).Step bootTerminal t ∧
    ∃ t' calls, (TerminalOp.putchar 65).Step t t' ∧ t'.drawn = t.drawn ++ calls ∧
      (∀ call ∈ calls, Confined t' call) ∧
      ∀ g : Mode, g.Good → ∀ font X Y, X < g.w.toNat → Y < g.h.toNat →
        g.Misses t'.viewport X Y →
        Relates (Kept g X Y) (calls.forM fun call => call.perform g font) := by
  have sized : (TerminalOp.setViewport 0 0 80 100).Sized := ⟨by decide, by decide⟩
  have room : (TerminalOp.setViewport 0 0 80 100).Fits bootTerminal := ⟨by decide, by decide⟩
  obtain ⟨t, run, draws⟩ := exec_run boot_inside (.setViewport 0 0 80 100) trivial
  refine ⟨t, run, terminal_confined (.step (.start rfl) ⟨sized, room⟩ run) trivial ?_⟩
  rw [draws.drew, TerminalOp.Fits, if_neg (by decide), if_neg (by decide)]
  exact (if_pos (show (0 : ℤ) < 10 by decide)).mpr
    ⟨le_refl 0, show (0 - 0 : ℤ)*10 + 8 ≤ 100 by decide⟩

/-- One character fills the line of a window of one cell, and the cursor is drawn to the right
of it. -/
theorem cursor_outside : ∃ t t' call,
    ([TerminalOp.setViewport 0 0 8 10, .putchar 65].forM TerminalOp.exec).run bootTerminal =
      some ((), t) ∧ TerminalOp.drawCursor.Step t t' ∧ call ∈ t'.drawn.drop t.drawn.length ∧
      ∃ x y, call.Touches x y ∧ ¬desktopMode.Off x y ∧ ¬t'.viewport.Has x y := by
  refine ⟨_, _, .fillRect 8 8 8 2 colText, rfl, rfl, .head _, 8, 8, has_iff.mpr (by decide),
    by decide, fun inside => ?_⟩
  exact absurd inside.2.1 (by decide)

end TinyOS.Display
