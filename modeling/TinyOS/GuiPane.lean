import TinyOS.GuiWindow
import TinyOS.Panes

set_option autoImplicit false

namespace TinyOS.Desktop
open Display Panes PartialRuns

def Window.home (w : Window) : ℤ × ℤ :=
  if w.maximized then (w.restoreX, w.restoreY) else (w.x, w.y)

def shownFrame (s : FbSize) (full : Bool) (home : ℤ × ℤ) : FbRect :=
  if full then maximizedFrame s else ⟨home.1, home.2, (initFrame s).w, (initFrame s).h⟩

def frameControl (s : FbSize) (r : FbRect) (pos : ℤ × ℤ) : Control :=
  let b := buttonRects s r
  if pointInRect pos.1 pos.2 b.close then .close
  else if pointInRect pos.1 pos.2 b.max then .zoom
  else if pointInRect pos.1 pos.2 b.min then .hide
  else if r.x ≤ pos.1 ∧ pos.1 < r.x + r.w ∧ r.y ≤ pos.2 ∧ pos.2 < r.y + titlebarHeight s then .grip
  else .nothing

def windowControl (s : FbSize) (full : Bool) (home pos : ℤ × ℤ) : Control :=
  frameControl s (shownFrame s full home) pos

def Window.pane (w : Window) : Pane (ℤ × ℤ) :=
  if !w.visible then .hidden w.home w.maximized
  else if w.maximized then .zoomed w.home
  else if w.dragging then .held w.home (w.dragOffsetX, w.dragOffsetY)
  else .normal w.home

def buttonOf (prevLeft left : Bool) : Button :=
  if !left then .up else if prevLeft then .hold else .press

/-- What a call of `gui_update` is for the pane. -/
def Input.events (s : FbSize) (prevLeft : Bool) (i : Input) : List (Panes.Event (ℤ × ℤ)) :=
  let clicked := !prevLeft && i.left
  (if clicked && decide (sidebarNavHitTest s i.mouseX i.mouseY = 0) then [.show] else []) ++
    (if clicked && decide (dockHitTest s i.mouseX i.mouseY = 0) then [.show] else []) ++
    [.pointer (i.mouseX, i.mouseY) (buttonOf prevLeft i.left)]

/-- What the calls are for the pane, after one of `gui_update` with the button `prevLeft`. -/
def paneEvents (s : FbSize) (prevLeft : Bool) : List Event → List (Panes.Event (ℤ × ℤ))
  | [] => []
  | .update i :: rest => i.events s prevLeft ++ paneEvents s i.left rest
  | .restore _ :: rest => .show :: paneEvents s prevLeft rest
  | _ :: rest => paneEvents s prevLeft rest

def lastLeft (prevLeft : Bool) : List Event → Bool
  | [] => prevLeft
  | .update i :: rest => lastLeft i.left rest
  | _ :: rest => lastLeft prevLeft rest

/-- The window has its own size or the maximized one, and is dragged only by its title bar. -/
structure Window.Good (s : FbSize) (w : Window) : Prop where
  used : w.used = true
  normal : w.maximized = false → w.width = (initFrame s).w ∧ w.height = (initFrame s).h
  full : w.maximized = true → w.frame = maximizedFrame s ∧
    w.restoreW = (initFrame s).w ∧ w.restoreH = (initFrame s).h
  drag : w.dragging = true → w.visible = true ∧ w.maximized = false ∧
    (0 ≤ w.dragOffsetX ∧ w.dragOffsetX < w.width) ∧
    (0 ≤ w.dragOffsetY ∧ w.dragOffsetY < titlebarHeight s)

def Window.prevFrame (w : Window) : FbRect := ⟨w.prevX, w.prevY, w.prevW, w.prevH⟩

/-- What the window's next drawing depends on is what it was at the last one. -/
def Window.Settled (w : Window) : Prop := w.prevFrame = w.frame ∧ w.prevVisible = w.visible

/-- The terminal's window is the only one, and the terminal stays where it was drawn. -/
structure Desk.Holds (s : FbSize) (d : Desk) (w : Window) : Prop where
  windows : d.gui.windows = [w]
  terminal : d.gui.terminalWindow = some 0
  good : w.Good s
  held : w.dragging = true → d.gui.prevLeft = true
  framed : d.terminal.Framed
  drawn : w.prevVisible = true → d.terminal.viewport = terminalContentRect s w.prevFrame
  settled : d.gui.guiDirty = false → w.Settled

variable {s : FbSize} {i : Input} {w : Window} {t : Terminal}

theorem Window.Good.frame_eq (h : w.Good s) : w.frame = shownFrame s w.maximized w.home := by
  cases full : w.maximized with
  | true => exact (h.full full).1
  | false =>
    obtain ⟨width, height⟩ := h.normal full
    rw [Window.frame, shownFrame, Window.home, full, width, height]
    rfl

theorem clicked_some (w : Window) : w.clicked s i true =
    match frameControl s w.frame (i.mouseX, i.mouseY) with
    | .close => ({ w with closed := true, dragging := false }, true)
    | .zoom => ({ toggleMaximize s w with dragging := false }, true)
    | .hide => ({ w with minimized := true, dragging := false }, true)
    | .grip =>
      if w.maximized then (w, false)
      else ({ w with
        dragging := true
        dragOffsetX := i.mouseX - w.x
        dragOffsetY := i.mouseY - w.y }, false)
    | .nothing => (w, false) := by
  rw [Window.clicked, frameControl]
  simp only [Bool.true_and]
  by_cases close : pointInRect i.mouseX i.mouseY (buttonRects s w.frame).close = true
  · simp only [close, if_true]
  by_cases max : pointInRect i.mouseX i.mouseY (buttonRects s w.frame).max = true
  · simp only [close, max, if_true, if_false, Bool.false_eq_true]
  by_cases min : pointInRect i.mouseX i.mouseY (buttonRects s w.frame).min = true
  · simp only [close, max, min, if_true, if_false, Bool.false_eq_true]
  simp only [close, max, min, if_false, Bool.false_eq_true, insideTitlebar]
  by_cases title : i.mouseX ≥ w.frame.x ∧ i.mouseX < w.frame.x + w.frame.w ∧
      i.mouseY ≥ w.frame.y ∧ i.mouseY < w.frame.y + titlebarHeight s
  · cases w.maximized <;> simp [title]
  · simp [title]

theorem dragged_eq (w : Window) : (w.dragged i).1 =
    if i.left && w.dragging then
      { w with x := i.mouseX - w.dragOffsetX, y := i.mouseY - w.dragOffsetY }
    else { w with dragging := false } := by
  obtain ⟨x, y, width, height, dragging⟩ := w
  rw [Window.dragged]
  cases left : i.left <;> cases dragging <;> simp
  split_ifs with moved
  · rfl
  · rw [not_or, not_not, not_not] at moved
    rw [moved.1, moved.2]

theorem frameControl_grip {r : FbRect} {pos : ℤ × ℤ} (grip : frameControl s r pos = .grip) :
    r.x ≤ pos.1 ∧ pos.1 < r.x + r.w ∧ r.y ≤ pos.2 ∧ pos.2 < r.y + titlebarHeight s := by
  rw [frameControl] at grip
  split_ifs at grip with close max min title
  exact title

theorem Window.Good.clicked (h : w.Good s) (visible : w.visible = true) :
    (w.clicked s i true).1.Good s := by
  rw [clicked_some]
  cases control : frameControl s w.frame (i.mouseX, i.mouseY) with
  | close => exact ⟨h.used, h.normal, h.full, fun drag => absurd drag (by simp)⟩
  | zoom =>
    dsimp only
    rw [toggleMaximize]
    cases full : w.maximized with
    | true =>
      obtain ⟨_, restoreW, restoreH⟩ := h.full full
      exact ⟨h.used, fun _ => ⟨restoreW, restoreH⟩, fun full => absurd full (by simp),
        fun drag => absurd drag (by simp)⟩
    | false =>
      obtain ⟨width, height⟩ := h.normal full
      exact ⟨h.used, fun small => absurd small (by simp), fun _ => ⟨rfl, width, height⟩,
        fun drag => absurd drag (by simp)⟩
  | hide => exact ⟨h.used, h.normal, h.full, fun drag => absurd drag (by simp)⟩
  | grip =>
    obtain ⟨left, right, top, bottom⟩ := frameControl_grip control
    dsimp only [Window.frame] at left right top bottom ⊢
    split_ifs with full
    · exact h
    · have small := eq_false_of_ne_true full
      refine ⟨h.used, h.normal, h.full, fun _ => ⟨visible, small, ?_, ?_⟩⟩
      · change 0 ≤ i.mouseX - w.x ∧ i.mouseX - w.x < w.width
        omega
      · change 0 ≤ i.mouseY - w.y ∧ i.mouseY - w.y < titlebarHeight s
        omega
  | nothing => exact h

theorem Window.Good.dragged (h : w.Good s) : (w.dragged i).1.Good s := by
  rw [dragged_eq]
  split_ifs with drag
  · obtain ⟨_, small, grab⟩ := h.drag (Bool.and_eq_true_iff.mp drag).2
    exact ⟨h.used, h.normal, fun full => absurd (small.symm.trans full) (by simp), h.drag⟩
  · exact ⟨h.used, h.normal, h.full, fun drag => absurd drag (by simp)⟩

theorem Window.Good.update (h : w.Good s) (visible : w.visible = true) (clicked : Bool) :
    (w.update s i clicked t).1.Good s := by
  change ((w.clicked s i clicked).1.dragged i).1.Good s
  cases clicked with
  | true => exact (h.clicked visible).dragged
  | false => exact h.dragged

theorem visible_iff : w.visible = true ↔ w.used = true ∧ w.minimized = false ∧ w.closed = false := by
  simp [Window.visible, and_assoc]

theorem Window.pane_shown (visible : w.visible = true) (loose : w.dragging = false) :
    w.pane = if w.maximized then .zoomed w.home else .normal w.home := by
  rw [Window.pane, visible, loose]
  rfl

theorem pane_pressed {pos : ℤ × ℤ} (full : Bool) (home : ℤ × ℤ) :
    (if full then Pane.zoomed home else .normal home).react (windowControl s) (.pointer pos .press) =
      .pressed full home pos (windowControl s full home pos) := by
  cases full <;> rfl

theorem clicked_pane (h : w.Good s) (visible : w.visible = true) (loose : w.dragging = false)
    (left : i.left = true) : ((w.clicked s i true).1.dragged i).1.pane =
      w.pane.react (windowControl s) (.pointer (i.mouseX, i.mouseY) .press) := by
  obtain ⟨used, minimized, closed⟩ := visible_iff.mp visible
  rw [Window.pane_shown visible loose, pane_pressed, windowControl, ← h.frame_eq, dragged_eq,
    clicked_some, left]
  cases frameControl s w.frame (i.mouseX, i.mouseY) with
  | close => simp [Pane.pressed, Window.pane, Window.visible, Window.home]
  | zoom =>
    cases full : w.maximized <;>
      simp [Pane.pressed, Window.pane, Window.visible, Window.home, toggleMaximize, full, used,
        minimized, closed]
  | hide => simp [Pane.pressed, Window.pane, Window.visible, Window.home]
  | grip =>
    cases full : w.maximized <;>
      simp [Pane.pressed, Window.pane, Window.visible, Window.home, full, used, minimized,
        closed, loose]
  | nothing =>
    cases full : w.maximized <;>
      simp [Pane.pressed, Window.pane, Window.visible, Window.home, full, used, minimized,
        closed, loose]

theorem dragged_pane (h : w.Good s) (visible : w.visible = true) (prevLeft : Bool)
    (held : w.dragging = true → prevLeft = true) (old : (!prevLeft && i.left) = false) :
    (w.dragged i).1.pane =
      w.pane.react (windowControl s) (.pointer (i.mouseX, i.mouseY) (buttonOf prevLeft i.left)) := by
  obtain ⟨used, minimized, closed⟩ := visible_iff.mp visible
  rw [dragged_eq]
  cases drag : w.dragging with
  | false =>
    rw [Bool.and_false, Window.pane_shown visible drag]
    cases left : i.left with
    | false => cases full : w.maximized <;>
      simp [Window.pane, Window.visible, Window.home, full, used, minimized, closed, buttonOf,
        Pane.react]
    | true =>
      obtain rfl : prevLeft = true := by simpa [left] using old
      cases full : w.maximized <;>
        simp [Window.pane, Window.visible, Window.home, full, used, minimized, closed, buttonOf,
          Pane.react]
  | true =>
    obtain rfl := held drag
    have small := (h.drag drag).2.1
    cases left : i.left <;>
      simp [Window.pane, Window.visible, Window.home, small, used, minimized, closed, drag,
        buttonOf, Pane.react]

theorem update_pane (h : w.Good s) (visible : w.visible = true) (prevLeft : Bool)
    (held : w.dragging = true → prevLeft = true) :
    (w.update s i (!prevLeft && i.left) t).1.pane =
      w.pane.react (windowControl s) (.pointer (i.mouseX, i.mouseY) (buttonOf prevLeft i.left)) := by
  change ((w.clicked s i (!prevLeft && i.left)).1.dragged i).1.pane = _
  cases click : !prevLeft && i.left with
  | false => exact dragged_pane h visible prevLeft held click
  | true =>
    obtain ⟨up, left⟩ : prevLeft = false ∧ i.left = true := by simpa using click
    have loose : w.dragging = false := by
      cases drag : w.dragging with
      | false => rfl
      | true => exact absurd ((held drag).symm.trans up) (by simp)
    rw [clicked_pane h visible loose left, left, up]
    rfl

/-- The window that `gui_restore_terminal` leaves. -/
def Window.restored (ticks : UInt64) (w : Window) : Window :=
  { w with minimized := false, closed := false, fading := true, fadeStartTick := ticks }

theorem Window.Good.restored (h : w.Good s) (ticks : UInt64) : (w.restored ticks).Good s :=
  ⟨h.used, h.normal, h.full, fun drag => ⟨visible_iff.mpr ⟨h.used, rfl, rfl⟩, (h.drag drag).2⟩⟩

theorem restored_pane (h : w.Good s) (ticks : UInt64) :
    (w.restored ticks).pane = w.pane.react (windowControl s) .show := by
  have used := h.used
  by_cases visible : w.visible = true
  · obtain ⟨_, minimized, closed⟩ := visible_iff.mp visible
    cases full : w.maximized <;> cases drag : w.dragging <;>
      simp [Window.pane, Window.visible, Window.home, Window.restored, used, minimized, closed,
        full, drag, Pane.react]
  · have loose : w.dragging = false := by
      cases drag : w.dragging with
      | false => rfl
      | true => exact absurd (h.drag drag).1 visible
    have hidden : w.pane = .hidden w.home w.maximized := by
      rw [Window.pane, eq_false_of_ne_true visible]
      rfl
    rw [hidden]
    cases full : w.maximized <;>
      simp [Window.pane, Window.visible, Window.home, Window.restored, used, full, loose,
        Pane.react]

theorem update_prev (clicked : Bool) : (w.update s i clicked t).1.prevFrame = w.prevFrame ∧
    (w.update s i clicked t).1.prevVisible = w.prevVisible := by
  have first : (w.clicked s i clicked).1.prevFrame = w.prevFrame ∧
      (w.clicked s i clicked).1.prevVisible = w.prevVisible := by
    rw [Window.clicked, toggleMaximize]
    split_ifs <;> exact ⟨rfl, rfl⟩
  change ((w.clicked s i clicked).1.dragged i).1.prevFrame = w.prevFrame ∧
    ((w.clicked s i clicked).1.dragged i).1.prevVisible = w.prevVisible
  rw [dragged_eq]
  split_ifs
  · exact first
  · exact first

/-- Without a mark in `gui_dirty` the window looks the same. -/
theorem update_clean {clicked : Bool} (clean : (w.update s i clicked t).2.1 = false) :
    (w.update s i clicked t).1.frame = w.frame ∧
      (w.update s i clicked t).1.visible = w.visible := by
  obtain ⟨still, moved⟩ := Bool.or_eq_false_iff.mp (show ((w.clicked s i clicked).2 ||
    ((w.clicked s i clicked).1.dragged i).2) = false from clean)
  have first : (w.clicked s i clicked).1.frame = w.frame ∧
      (w.clicked s i clicked).1.visible = w.visible := by
    rw [Window.clicked] at still ⊢
    split_ifs at still ⊢ <;> exact ⟨rfl, rfl⟩
  have second : ((w.clicked s i clicked).1.dragged i).1.frame = (w.clicked s i clicked).1.frame ∧
      ((w.clicked s i clicked).1.dragged i).1.visible = (w.clicked s i clicked).1.visible := by
    generalize (w.clicked s i clicked).1 = w₁ at moved ⊢
    rw [Window.dragged] at moved ⊢
    dsimp only at moved ⊢
    split_ifs at moved ⊢ <;> exact ⟨rfl, rfl⟩
  exact ⟨second.1.trans first.1, second.2.trans first.2⟩

theorem hidden_pointer (hidden : ¬w.visible = true) (pos : ℤ × ℤ) (button : Button) :
    w.pane.react (windowControl s) (.pointer pos button) = w.pane := by
  have hidden : w.pane = .hidden w.home w.maximized := by
    rw [Window.pane, eq_false_of_ne_true hidden]
    rfl
  rw [hidden]
  cases w.maximized <;> rfl

end TinyOS.Desktop
