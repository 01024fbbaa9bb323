import TinyOS.GuiLayout
import TinyOS.TerminalConfined

set_option autoImplicit false

/-! The terminal's window (window.h, gui.c): what the statics of gui.c are after each of its
calls, and which calls of terminal.c it makes. -/
namespace TinyOS.Desktop
open Display

inductive WindowKind where
  | terminal
  deriving DecidableEq

structure Window where
  x : ℤ
  y : ℤ
  width : ℤ
  height : ℤ
  dragging : Bool
  dragOffsetX : ℤ
  dragOffsetY : ℤ
  minimized : Bool
  closed : Bool
  maximized : Bool
  restoreX : ℤ
  restoreY : ℤ
  restoreW : ℤ
  restoreH : ℤ
  fading : Bool
  fadeStartTick : UInt64
  used : Bool
  kind : WindowKind
  title : List UInt8
  prevX : ℤ
  prevY : ℤ
  prevW : ℤ
  prevH : ℤ
  prevVisible : Bool

/-- The statics of gui.c; those of the wallpaper and the cursor are left out. -/
structure Gui where
  prevLeft : Bool
  guiDirty : Bool
  firstDraw : Bool
  lastClockTotal : ℤ
  windows : List Window
  terminalWindow : Option ℕ
  notifications : List (List UInt8)
  dockHover : ℤ
  quickHover : ℤ

/-- The statics before `gui_init`. -/
def bootGui : Gui := ⟨false, true, true, -1, [], none, [], -1, -1⟩

abbrev maxWindows : ℕ := 8

abbrev maxNotifications : ℕ := 4

def clipText (room : ℕ) (text : List UInt8) : List UInt8 := (text.takeWhile (· ≠ 0)).take room

def Window.frame (w : Window) : FbRect := ⟨w.x, w.y, w.width, w.height⟩

def Window.visible (w : Window) : Bool := w.used && !w.minimized && !w.closed

/-- The fields that `window_create` leaves are still 0. -/
def windowCreate (kind : WindowKind) (title : List UInt8) (x y w h : ℤ) (ticks : UInt64)
    (d : Gui) : Option ℕ × Gui :=
  if maxWindows ≤ d.windows.length then (none, d)
  else
    let win : Window := {
      x := x
      y := y
      width := w
      height := h
      dragging := false
      dragOffsetX := 0
      dragOffsetY := 0
      minimized := false
      closed := false
      maximized := false
      restoreX := 0
      restoreY := 0
      restoreW := 0
      restoreH := 0
      fading := true
      fadeStartTick := ticks
      used := true
      kind := kind
      title := clipText 31 title
      prevX := 0
      prevY := 0
      prevW := 0
      prevH := 0
      prevVisible := false }
    (some d.windows.length, { d with windows := d.windows ++ [win] })

def guiNotify (text : List UInt8) (d : Gui) : Gui :=
  { d with
    notifications := if d.notifications.length < maxNotifications
      then d.notifications ++ [clipText 39 text] else d.notifications
    guiDirty := true }

def terminalTitle : List UInt8 := [84, 101, 114, 109, 105, 110, 97, 108]

def systemReady : List UInt8 := [83, 121, 115, 116, 101, 109, 32, 82, 101, 97, 100, 121]

/-- The place that `gui_init` gives the terminal's window. -/
def initFrame (s : FbSize) : FbRect :=
  ⟨perMille s.width 175, perMille s.height 60, perMille s.width 290, perMille s.height 340⟩

def guiInit (s : FbSize) (ticks : UInt64) (d : Gui) : Gui :=
  let r := initFrame s
  let (window, d) := windowCreate .terminal terminalTitle r.x r.y r.w r.h ticks d
  { guiNotify systemReady { d with terminalWindow := window } with guiDirty := true }

def titlebarHeight (s : FbSize) : ℤ := uiScaled s 30

def windowBtnSize (s : FbSize) : ℤ := uiScaled s 11

/-- The buttons `close_r`, `max_r` and `min_r`. -/
structure WindowButtons where
  close : FbRect
  max : FbRect
  min : FbRect

def buttonRects (s : FbSize) (r : FbRect) : WindowButtons :=
  let th := titlebarHeight s
  let bs := windowBtnSize s
  let gap := uiScaled s 9
  let y := r.y + th.tdiv 2 - bs.tdiv 2
  let x := r.x + r.w - bs - uiScaled s 14
  ⟨⟨x, y, bs, bs⟩, ⟨x - (bs + gap), y, bs, bs⟩, ⟨x - (bs + gap) - (bs + gap), y, bs, bs⟩⟩

def terminalContentRect (s : FbSize) (r : FbRect) : FbRect :=
  let margin := uiScaled s 10
  let th := titlebarHeight s
  ⟨r.x + margin, r.y + th + margin, r.w - margin*2, r.h - th - margin*2⟩

def maximizedFrame (s : FbSize) : FbRect :=
  let l := recomputeLayout s
  let gap := uiScaled s 14
  let x := l.sidebar.x + l.sidebar.w + gap
  ⟨x, gap, s.width - x - uiScaled s 230 - gap, l.dock.y - gap*2⟩

def toggleMaximize (s : FbSize) (w : Window) : Window :=
  if w.maximized then
    { w with
      x := w.restoreX
      y := w.restoreY
      width := w.restoreW
      height := w.restoreH
      maximized := false }
  else
    let r := maximizedFrame s
    { w with
      restoreX := w.x
      restoreY := w.y
      restoreW := w.width
      restoreH := w.height
      x := r.x
      y := r.y
      width := r.w
      height := r.h
      maximized := true }

/-- What a call reads: the mouse, what `mouse_get_scroll` has for it, the clock, the ticks. -/
structure Input where
  mouseX : ℤ
  mouseY : ℤ
  left : Bool
  scroll : ℤ
  hour : ℤ
  minute : ℤ
  second : ℤ
  ticks : UInt64

/-- `reboot_system` and `shutdown_system` do not return. -/
inductive Power where
  | reboot
  | shutdown
  deriving DecidableEq

def guiRestoreTerminal (ticks : UInt64) (d : Gui) : Gui :=
  match d.terminalWindow with
  | none => d
  | some i =>
    { d with
      windows := d.windows.modify i fun w =>
        { w with minimized := false, closed := false, fading := true, fadeStartTick := ticks }
      guiDirty := true }

def Gui.watched (s : FbSize) (i : Input) (d : Gui) : Gui :=
  let total := i.hour*3600 + i.minute*60 + i.second
  let d := if total ≠ d.lastClockTotal then { d with lastClockTotal := total, guiDirty := true }
    else d
  let dockHover := dockHitTest s i.mouseX i.mouseY
  let d := if dockHover ≠ d.dockHover then { d with dockHover := dockHover, guiDirty := true }
    else d
  let quickHover := quickHitTest s i.mouseX i.mouseY
  let d := if quickHover ≠ d.quickHover then { d with quickHover := quickHover, guiDirty := true }
    else d
  { d with guiDirty := d.guiDirty || d.windows.any (·.fading) }

def Gui.clicked (s : FbSize) (i : Input) (d : Gui) : Except Power Gui :=
  let d := if sidebarNavHitTest s i.mouseX i.mouseY = 0 then guiRestoreTerminal i.ticks d else d
  let d := if dockHitTest s i.mouseX i.mouseY = 0 then guiRestoreTerminal i.ticks d else d
  let b := powerButtonRects s (recomputeLayout s).sidebar
  if pointInRect i.mouseX i.mouseY b.restart then .error .reboot
  else if pointInRect i.mouseX i.mouseY b.off then .error .shutdown
  else .ok d

def insideTitlebar (s : FbSize) (i : Input) (r : FbRect) : Bool :=
  decide (i.mouseX ≥ r.x ∧ i.mouseX < r.x + r.w ∧ i.mouseY ≥ r.y ∧
    i.mouseY < r.y + titlebarHeight s)

/-- The branches on the window's buttons and its title bar, and whether they set `gui_dirty`. -/
def Window.clicked (s : FbSize) (i : Input) (clicked : Bool) (w : Window) : Window × Bool :=
  let b := buttonRects s w.frame
  if clicked && pointInRect i.mouseX i.mouseY b.close then
    ({ w with closed := true, dragging := false }, true)
  else if clicked && pointInRect i.mouseX i.mouseY b.max then
    ({ toggleMaximize s w with dragging := false }, true)
  else if clicked && pointInRect i.mouseX i.mouseY b.min then
    ({ w with minimized := true, dragging := false }, true)
  else if clicked && insideTitlebar s i w.frame && !w.maximized then
    ({ w with
      dragging := true
      dragOffsetX := i.mouseX - w.x
      dragOffsetY := i.mouseY - w.y }, false)
  else (w, false)

/-- The window goes with the pointer, and whether that sets `gui_dirty`. -/
def Window.dragged (i : Input) (w : Window) : Window × Bool :=
  let w := if !i.left then { w with dragging := false } else w
  if w.dragging then
    let newX := i.mouseX - w.dragOffsetX
    let newY := i.mouseY - w.dragOffsetY
    if newX ≠ w.x ∨ newY ≠ w.y then ({ w with x := newX, y := newY }, true) else (w, false)
  else (w, false)

def terminalContains (t : Terminal) (x y : ℤ) : Bool :=
  decide (x ≥ t.originX ∧ x < t.originX + t.width ∧ y ≥ t.originY ∧ y < t.originY + t.height)

def Window.scrolls (i : Input) (t : Terminal) (w : Window) : List TerminalOp :=
  if w.kind = .terminal ∧ i.scroll ≠ 0 ∧ terminalContains t i.mouseX i.mouseY = true then
    [.scroll i.scroll]
  else []

def Window.update (s : FbSize) (i : Input) (clicked : Bool) (t : Terminal) (w : Window) :
    Window × Bool × List TerminalOp :=
  let (w, pressed) := w.clicked s i clicked
  let (w, moved) := w.dragged i
  (w, pressed || moved, w.scrolls i t)

/-- The loop of `gui_update`, over the windows from the last one down. -/
def updateWindows (s : FbSize) (i : Input) (clicked : Bool) (t : Terminal) :
    List Window → List Window × Bool × List TerminalOp
  | [] => ([], false, [])
  | w :: below =>
    if !w.visible then
      let (below, dirty, ops) := updateWindows s i clicked t below
      (w :: below, dirty, ops)
    else
      let (w, dirty, ops) := w.update s i clicked t
      (w :: below, dirty, ops)

def guiUpdate (s : FbSize) (i : Input) (t : Terminal) (d : Gui) :
    Except Power (Gui × List TerminalOp) := do
  let clicked := !d.prevLeft && i.left
  let d := d.watched s i
  let d ← if clicked then d.clicked s i else .ok d
  let (windows, dirty, ops) := updateWindows s i clicked t d.windows.reverse
  return ({ d with
    windows := windows.reverse
    guiDirty := d.guiDirty || dirty
    prevLeft := i.left }, ops)

def windowOpacityPm (hz : UInt32) (now : UInt64) (w : Window) : ℤ × Bool :=
  if !w.fading then (1000, false)
  else if hz = 0 then (1000, false)
  else
    let elapsed := now - w.fadeStartTick
    let duration := (hz/4).toUInt64
    let duration := if duration = 0 then 1 else duration
    if elapsed ≥ duration then (1000, false) else ((elapsed*1000/duration).toNat, true)

/-- The turn of one window in the loops of `gui_draw`. -/
def Window.drawn (s : FbSize) (first : Bool) (hz : UInt32) (ticks : UInt64) (w : Window) :
    Window × List TerminalOp :=
  let visible := w.visible
  let c := terminalContentRect s w.frame
  let ops : List TerminalOp :=
    if visible ∧ w.kind = .terminal then
      if first ∨ !w.prevVisible ∨ w.prevW ≠ w.width ∨ w.prevH ≠ w.height then
        [.setViewport c.x c.y c.w c.h]
      else [.moveViewport c.x c.y]
    else []
  ({ w with
    fading := if visible then (windowOpacityPm hz ticks w).2 else w.fading
    prevX := w.x
    prevY := w.y
    prevW := w.width
    prevH := w.height
    prevVisible := visible }, ops)

def guiDraw (s : FbSize) (hz : UInt32) (ticks : UInt64) (d : Gui) : Gui × List TerminalOp :=
  if d.guiDirty then
    let drawn := d.windows.map (Window.drawn s d.firstDraw hz ticks)
    ({ d with guiDirty := false, firstDraw := false, windows := drawn.map (·.1) },
      drawn.flatMap (·.2))
  else (d, [])

/-- The calls with which the shell and the drivers write to the terminal. -/
inductive Output where
  | putchar (c : UInt8)
  | clear
  | drawCursor
  | hideCursor

def Output.op : Output → TerminalOp
  | .putchar c => .putchar c
  | .clear => .clear
  | .drawCursor => .drawCursor
  | .hideCursor => .hideCursor

structure Desk where
  gui : Gui
  terminal : Terminal

inductive Event where
  | update (i : Input)
  | draw (hz : UInt32) (ticks : UInt64)
  | restore (ticks : UInt64)
  | notify (text : List UInt8)
  | setBackground
  | output (o : Output)

def Desk.react (s : FbSize) (e : Event) (d : Desk) : Except Power (Gui × List TerminalOp) :=
  match e with
  | .update i => guiUpdate s i d.terminal d.gui
  | .draw hz ticks => .ok (guiDraw s hz ticks d.gui)
  | .restore ticks => .ok (guiRestoreTerminal ticks d.gui, [])
  | .notify text => .ok (guiNotify text d.gui, [])
  | .setBackground => .ok ({ d.gui with guiDirty := true }, [])
  | .output o => .ok (d.gui, [o.op])

/-- One call; `none` is an access outside `screen_buf`. -/
def Desk.step (s : FbSize) (e : Event) (d : Desk) : Except Power (Option Desk) := do
  let (gui, ops) ← d.react s e
  return ((ops.forM TerminalOp.exec).run d.terminal).map fun r => ⟨gui, r.2⟩

/-- The terminal has the screen to itself and has been written to; then `gui_init` is called. -/
def Started (s : FbSize) (d : Desk) : Prop :=
  ∃ (ticks : UInt64) (out : List Output),
    (((.init s.width s.height : TerminalOp) :: out.map Output.op).forM TerminalOp.exec).run
      bootTerminal = some ((), d.terminal) ∧ d.gui = guiInit s ticks bootGui

inductive Runs (s : FbSize) : Desk → List Event → Desk → Prop where
  | nil (d : Desk) : Runs s d [] d
  | snoc {d d' d'' : Desk} {events : List Event} {e : Event} (h : Runs s d events d')
      (go : d'.step s e = .ok (some d'')) : Runs s d (events ++ [e]) d''

end TinyOS.Desktop
