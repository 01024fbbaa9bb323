import TinyOS.FramebufferTouch
import TinyOS.StaleCells
import TinyOS.StateRuns

set_option autoImplicit false

/-! The mouse cursor in the back buffer (gui.c). A coordinate is an integer, and `/` rounds to
zero; what is presented on the screen is left out. -/
namespace TinyOS.Gui
open Display StaleCells StateRuns TwinRuns

/-- A channel of a pixel value holds the value's bits in its lane. -/
theorem lane_read (v : BitVec 32) (p : ℕ) {i : ℕ} (lt : i < 32) :
    ((((v >>> p) &&& 255#32).setWidth 8).setWidth 32 <<< p).getLsbD i =
      (decide (p ≤ i ∧ i-p < 8) && v.getLsbD i) := by
  simp only [BitVec.getLsbD_shiftLeft, BitVec.getLsbD_setWidth, BitVec.getLsbD_and,
    BitVec.getLsbD_ushiftRight]
  by_cases lane : p ≤ i ∧ i-p < 8
  · have ones : (255#32).getLsbD (i-p) = true := by
      have small := lane.2
      generalize i-p = j at small
      interval_cases j <;> decide
    rw [Nat.add_sub_cancel' lane.1, ones]
    simp [lane, lt, show ¬i < p by omega, show i-p < 32 by omega]
  · rw [not_and_or, Nat.not_le, Nat.not_lt] at lane
    rcases lane with lane | lane
    · simp [lane]
    · simp [show ¬i-p < 8 by omega]

theorem lane_write (c : BitVec 8) (p : ℕ) {i : ℕ} (bit : (c.setWidth 32 <<< p).getLsbD i = true) :
    p ≤ i ∧ i-p < 8 := by
  rw [BitVec.getLsbD_shiftLeft, BitVec.getLsbD_setWidth] at bit
  simp only [Bool.and_eq_true, Bool.not_eq_true', decide_eq_false_iff_not, decide_eq_true_eq] at bit
  obtain ⟨⟨-, le⟩, -, bit⟩ := bit
  exact ⟨by omega, BitVec.lt_of_getLsbD bit⟩

theorem pixelValue_toBitVec (g : Mode) (c : Color) : (g.pixelValue c).toBitVec =
    c.r.toBitVec.setWidth 32 <<< (g.rPos.toNat%32) |||
      c.g.toBitVec.setWidth 32 <<< (g.gPos.toNat%32)
      ||| c.b.toBitVec.setWidth 32 <<< (g.bPos.toNat%32) := by
  simp [Mode.pixelValue]

theorem colorOf_toBitVec (v : UInt32) (pos : UInt8) :
    (v >>> pos.toUInt32 &&& 255).toUInt8.toBitVec =
      (v.toBitVec >>> (pos.toNat%32) &&& 255#32).setWidth 8 := by
  simp

theorem pixelValue_colorOf (g : Mode) (c : Color) :
    g.pixelValue (g.colorOf (g.pixelValue c)) = g.pixelValue c := by
  apply UInt32.eq_of_toBitVec_eq
  apply BitVec.eq_of_getLsbD_eq
  intro i lt
  rw [pixelValue_toBitVec, Mode.colorOf, colorOf_toBitVec, colorOf_toBitVec, colorOf_toBitVec,
    BitVec.getLsbD_or, BitVec.getLsbD_or, lane_read _ _ lt, lane_read _ _ lt, lane_read _ _ lt]
  cases bit : (g.pixelValue c).toBitVec.getLsbD i with
  | false => simp
  | true =>
    -- the bit comes from one of the channels, so it lies in that one's lane
    rw [pixelValue_toBitVec, BitVec.getLsbD_or, BitVec.getLsbD_or, Bool.or_eq_true,
      Bool.or_eq_true] at bit
    rcases bit with (red | green) | blue
    · simp [lane_write _ _ red]
    · simp [lane_write _ _ green]
    · simp [lane_write _ _ blue]

abbrev Stored (g : Mode) := {px : UInt32 // g.pixelValue (g.colorOf px) = px}

def store (g : Mode) (c : Color) : Stored g := ⟨g.pixelValue c, pixelValue_colorOf g c⟩

abbrev Pixels (g : Mode) := ℕ × ℕ → Stored g

variable {g : Mode}

def pixelAt (x y : ℤ) : ℕ × ℕ := (asUnsigned x, asUnsigned y)

def putPixel (x y : ℤ) (c : Color) (b : Pixels g) : Pixels g :=
  if g.Off x y then b else Function.update b (pixelAt x y) (store g c)

def getPixel (x y : ℤ) (b : Pixels g) : Color :=
  if g.Off x y then ⟨0, 0, 0⟩ else g.colorOf (b (pixelAt x y)).val

def putPixels (x y w h : ℤ) (color : ℕ → ℕ → Color) (b : Pixels g) : Pixels g :=
  (List.range h.toNat).foldl (fun b (dy : ℕ) =>
    (List.range w.toNat).foldl (fun b (dx : ℕ) => putPixel (x+dx) (y+dy) (color dx dy) b) b) b

def fillRect (x y w h : ℤ) (c : Color) (b : Pixels g) : Pixels g :=
  if w ≤ 0 ∨ h ≤ 0 then b else putPixels x y w h (fun _ _ => c) b

section Points

variable {x y w h : ℤ} {p : ℕ × ℕ}

theorem putPixel_keeps (c : Color) (other : g.Elsewhere x y p.1 p.2) :
    Keeps (putPixel x y c : Pixels g → Pixels g) p := by
  intro b
  rw [putPixel]
  split_ifs with off
  · rfl
  · refine Function.update_of_ne (fun eq => other off ?_) _ _
    rw [eq]
    exact ⟨rfl, rfl⟩

theorem putPixel_covers (c : Color) (on : ¬g.Off x y) :
    Covers (putPixel x y c : Pixels g → Pixels g) (pixelAt x y) := by
  intro b b'
  rw [putPixel, putPixel, if_neg on, if_neg on, Function.update_self, Function.update_self]

theorem putPixel_overwrites (c : Color) :
    Overwrites (putPixel x y c : Pixels g → Pixels g) := by
  intro p
  by_cases other : g.Elsewhere x y p.1 p.2
  · exact .inl (putPixel_keeps c other)
  · rw [Mode.Elsewhere, Classical.not_imp, not_not] at other
    obtain ⟨on, col, row⟩ := other
    obtain rfl : p = pixelAt x y := Prod.ext col row
    exact .inr (putPixel_covers c on)

theorem putPixel_fixed {c : Color} {b : Pixels g}
    (held : ¬g.Off x y → b (pixelAt x y) = store g c) : putPixel x y c b = b := by
  rw [putPixel]
  split_ifs with off
  · rfl
  · rw [← held off, Function.update_eq_self]

variable {color : ℕ → ℕ → Color}

theorem putPixels_overwrites : Overwrites (putPixels x y w h color : Pixels g → Pixels g) :=
  .foldl fun _ _ => .foldl fun _ _ => putPixel_overwrites _

theorem putPixels_keeps (miss : g.Misses ⟨x, y, w, h⟩ p.1 p.2) :
    Keeps (putPixels x y w h color : Pixels g → Pixels g) p := by
  refine .foldl fun dy mem => .foldl fun dx mem' => putPixel_keeps _ (miss _ _ ?_)
  rw [List.mem_range] at mem mem'
  rw [has_iff]
  omega

/-- A pixel of the rectangle is one of its points on the screen. -/
theorem exists_point (hit : ¬g.Misses ⟨x, y, w, h⟩ p.1 p.2) : ∃ dx dy : ℕ,
    (dx : ℤ) < w ∧ (dy : ℤ) < h ∧ ¬g.Off (x+dx) (y+dy) ∧ p = pixelAt (x+dx) (y+dy) := by
  unfold Mode.Misses Mode.Elsewhere at hit
  push Not at hit
  obtain ⟨x', y', has, on, col, row⟩ := hit
  rw [has_iff] at has
  obtain ⟨dx, rfl⟩ : ∃ dx : ℕ, x' = x+dx := ⟨(x'-x).toNat, by omega⟩
  obtain ⟨dy, rfl⟩ : ∃ dy : ℕ, y' = y+dy := ⟨(y'-y).toNat, by omega⟩
  exact ⟨dx, dy, by omega, by omega, on, Prod.ext col row⟩

theorem putPixels_covers (hit : ¬g.Misses ⟨x, y, w, h⟩ p.1 p.2) :
    Covers (putPixels x y w h color : Pixels g → Pixels g) p := by
  obtain ⟨dx, dy, lt, lt', on, rfl⟩ := exists_point hit
  refine .foldl (fun _ _ => .foldl fun _ _ => putPixel_overwrites _)
    ⟨dy, List.mem_range.mpr (by omega), ?_⟩
  exact .foldl (fun _ _ => putPixel_overwrites _)
    ⟨dx, List.mem_range.mpr (by omega), putPixel_covers _ on⟩

theorem putPixels_fixed {b : Pixels g} (held : ∀ dx dy : ℕ, (dx : ℤ) < w → (dy : ℤ) < h →
    ¬g.Off (x+dx) (y+dy) → b (pixelAt (x+dx) (y+dy)) = store g (color dx dy)) :
    putPixels x y w h color b = b := by
  refine foldl_fixed fun dy mem => foldl_fixed fun dx mem' => putPixel_fixed (held dx dy ?_ ?_)
  · rw [List.mem_range] at mem'
    omega
  · rw [List.mem_range] at mem
    omega

theorem fillRect_eq (c : Color) :
    (fillRect x y w h c : Pixels g → Pixels g) = putPixels x y w h fun _ _ => c := by
  funext b
  rw [fillRect]
  split_ifs with empty
  · exact (putPixels_fixed fun dx dy lt lt' => by omega).symm
  · rfl

theorem fillRect_keeps (c : Color) (miss : g.Misses ⟨x, y, w, h⟩ p.1 p.2) :
    Keeps (fillRect x y w h c : Pixels g → Pixels g) p := by
  rw [fillRect_eq]
  exact putPixels_keeps miss

theorem fillRect_hit (c : Color) (b : Pixels g) (hit : ¬g.Misses ⟨x, y, w, h⟩ p.1 p.2) :
    fillRect x y w h c b p = store g c := by
  have held : putPixels x y w h (fun _ _ => c) (fun _ => store g c) = fun _ => store g c :=
    putPixels_fixed fun _ _ _ _ _ => rfl
  rw [fillRect_eq]
  exact (putPixels_covers hit).of_fixed held b

end Points

structure Holds (t : Screen) (b : Buffers) (p : Pixels g) : Prop where
  buffers : t.buffers = some b
  room : g.w.toNat*g.h.toNat ≤ b.cells
  cells : ∀ X Y, X < g.w.toNat → Y < g.h.toNat → b.draw (g.cell X Y) = (p (X, Y)).val

/-- The program paints on the draw buffer what the function does on the pixels. -/
def Draws (m : DrawM Unit) (f : Pixels g → Pixels g) : Prop :=
  ∀ t b p, Holds t b p → ∃ t' b', m.run t = some ((), t') ∧ Holds t' b' (f p)

theorem putPixel_draws (good : g.Good) (x y : ℤ) (c : Color) :
    Draws (fbPutPixel g x y c) (putPixel x y c : Pixels g → Pixels g) := by
  intro t b p holds
  by_cases off : g.Off x y
  · refine ⟨t, b, ?_, ?_⟩
    · rw [fbPutPixel_off g c off]
      rfl
    · rw [putPixel, if_pos off]
      exact holds
  refine ⟨_, _, fbPutPixel_buffer good c off holds.buffers holds.room, rfl, holds.room,
    fun X Y lt lt' => ?_⟩
  rw [putPixel, if_neg off]
  rw [Mode.Off, not_or, Nat.not_le, Nat.not_le] at off
  by_cases here : X = asUnsigned x ∧ Y = asUnsigned y
  · obtain ⟨rfl, rfl⟩ := here
    change _ = (Function.update p (pixelAt x y) _ (pixelAt x y)).val
    dsimp only
    rw [Function.update_self, Function.update_self]
    exact rfl
  · have cell : g.cell X Y ≠ g.cell (asUnsigned x) (asUnsigned y) :=
      fun eq => here (Mode.cell_inj lt off.1 eq)
    have point : (X, Y) ≠ pixelAt x y := fun eq => here (Prod.mk.inj eq)
    dsimp only
    rw [Function.update_of_ne cell, Function.update_of_ne point]
    exact holds.cells X Y lt lt'

theorem getPixel_drawn (good : g.Good) {t : Screen} {b : Buffers} {p : Pixels g}
    (holds : Holds t b p) (x y : ℤ) : (fbGetPixel g x y).run t = some (getPixel x y p, t) := by
  rw [fbGetPixel, getPixel]
  by_cases off : g.Off x y
  · rw [if_pos off, if_pos off]
    rfl
  rw [if_neg off, if_neg off, good.index_eq off]
  rw [Mode.Off, not_or, Nat.not_le, Nat.not_le] at off
  have lt := Mode.cell_lt off.1 off.2
  obtain ⟨hw, buffers, force⟩ := t
  obtain ⟨rfl, room, cells⟩ := holds
  change StateT.run (if _ then _ else _) _ = _
  rw [if_pos (by omega), cells _ _ off.1 off.2]
  rfl

theorem Draws.forM {ι : Type} {m : ι → DrawM Unit} {each : Pixels g → ι → Pixels g} {l : List ι}
    (draws : ∀ i, Draws (m i) fun p => each p i) : Draws (l.forM m) fun p => l.foldl each p := by
  induction l with
  | nil => exact fun t b p holds => ⟨t, b, rfl, holds⟩
  | cons i l ih =>
    intro t b p holds
    obtain ⟨t₁, b₁, run, holds₁⟩ := draws i t b p holds
    obtain ⟨t₂, b₂, run', holds₂⟩ := ih t₁ b₁ _ holds₁
    exact ⟨t₂, b₂, (bind_some run).trans run', holds₂⟩

theorem fillRect_draws (good : g.Good) (x y w h : ℤ) (c : Color) :
    Draws (fbFillRect g x y w h c) (fillRect x y w h c : Pixels g → Pixels g) := by
  intro t b p holds
  rw [fbFillRect, fillRect]
  split_ifs with empty
  · exact ⟨t, b, rfl, holds⟩
  · exact Draws.forM (fun dy => Draws.forM fun dx => putPixel_draws good _ _ c) t b p holds

/-- What `gui_set_background` and `gui_set_bg_color` set. -/
structure Wallpaper where
  bgPixels : Option (ℕ → Color)
  bgWidth : ℤ
  bgHeight : ℤ
  solidBgColor : Color

structure Fit where
  bgScalePm : ℤ
  bgOffX : ℤ
  bgOffY : ℤ

def Wallpaper.picture (a : Wallpaper) : Option (ℕ → Color) :=
  if a.bgWidth ≤ 0 ∨ a.bgHeight ≤ 0 then none else a.bgPixels

def recomputeWallpaperFit (g : Mode) (a : Wallpaper) (fit : Fit) : Fit :=
  if a.picture.isNone then fit
  else
    let fw := asInt g.w.toNat
    let fh := asInt g.h.toNat
    let sx := (fw*1000).tdiv a.bgWidth
    let sy := (fh*1000).tdiv a.bgHeight
    let scale := if sx > sy then sx else sy
    let scale := if scale < 1 then 1000 else scale
    let scaledW := (a.bgWidth*scale).tdiv 1000
    let scaledH := (a.bgHeight*scale).tdiv 1000
    ⟨scale, (fw-scaledW).tdiv 2, (fh-scaledH).tdiv 2⟩

/-- A row or column of the picture, the nearest one outside of it. -/
def clampTo (n z : ℤ) : ℤ :=
  let z := if z < 0 then 0 else z
  if z ≥ n then n-1 else z

/-- `row[sx]` for a point of a rectangle that starts at `x`, `y`. -/
def Wallpaper.pictureColor (a : Wallpaper) (fit : Fit) (bgPixels : ℕ → Color) (x y : ℤ)
    (dx dy : ℕ) : Color :=
  let sy := clampTo a.bgHeight (((y+dy-fit.bgOffY)*1000).tdiv fit.bgScalePm)
  let sx := clampTo a.bgWidth (((x+dx-fit.bgOffX)*1000).tdiv fit.bgScalePm)
  bgPixels ((sy*a.bgWidth%4294967296).toNat+sx.toNat)

def drawBackgroundRect (a : Wallpaper) (fit : Fit) (x y w h : ℤ) (b : Pixels g) : Pixels g :=
  if w ≤ 0 ∨ h ≤ 0 then b
  else
    match a.picture with
    | none => fillRect x y w h a.solidBgColor b
    | some bgPixels => putPixels x y w h (a.pictureColor fit bgPixels x y) b

theorem drawBackgroundRect_solid {a : Wallpaper} (solid : a.picture = none) {fit : Fit}
    {x y w h : ℤ} : (drawBackgroundRect a fit x y w h : Pixels g → Pixels g) =
      fillRect x y w h a.solidBgColor := by
  funext b
  rw [drawBackgroundRect, solid]
  split_ifs with empty
  · exact (if_pos empty).symm
  · rfl

theorem drawBackgroundRect_eq (a : Wallpaper) (fit : Fit) (x y w h : ℤ) : ∃ color,
    (drawBackgroundRect a fit x y w h : Pixels g → Pixels g) = putPixels x y w h color := by
  cases picture : a.picture with
  | none =>
    exact ⟨fun _ _ => a.solidBgColor, (drawBackgroundRect_solid picture).trans (fillRect_eq _)⟩
  | some bgPixels =>
    refine ⟨a.pictureColor fit bgPixels x y, funext fun b => ?_⟩
    rw [drawBackgroundRect, picture]
    split_ifs with empty
    · exact (putPixels_fixed fun dx dy lt lt' => by omega).symm
    · rfl

/-- A drawing routine, and the rectangle outside of which it writes nothing. -/
structure Routine (g : Mode) where
  area : FbRect
  paint : Pixels g → Pixels g
  frame : ∀ p : ℕ × ℕ, g.Misses area p.1 p.2 → Keeps paint p

inductive WindowKind where
  | terminal
  deriving DecidableEq

/-- `window_t`, and what `draw_window` and the terminal's two viewport functions paint for it in
this call. -/
structure Window (g : Mode) where
  x : ℤ
  y : ℤ
  width : ℤ
  height : ℤ
  used : Bool
  minimized : Bool
  closed : Bool
  kind : WindowKind
  drawWindow : Routine g
  terminalSetViewport : Routine g
  terminalMoveViewport : Routine g

def Window.visible (w : Window g) : Bool := w.used && !w.minimized && !w.closed

/-- The `prev_` fields of a `window_t`. -/
structure Prev where
  x : ℤ
  y : ℤ
  w : ℤ
  h : ℤ
  visible : Bool

/-- The static variables that a redraw reads and sets, the cursor's apart. -/
structure Desk where
  firstDraw : Bool
  fit : Fit
  prev : ℕ → Prev

/-- What one call of `gui_draw` finds. -/
structure Call (g : Mode) where
  mouseX : ℤ
  mouseY : ℤ
  guiDirty : Bool
  wallpaper : Wallpaper
  drawSidebar : Routine g
  drawClockWidget : Routine g
  drawMusicWidget : Routine g
  drawQuickAccess : Routine g
  drawNotifications : Routine g
  drawDock : Routine g
  drawWorkspaceSwitcher : Routine g
  windows : List (Window g)

def Call.widgets (c : Call g) : List (Routine g) :=
  [c.drawSidebar, c.drawClockWidget, c.drawMusicWidget, c.drawQuickAccess, c.drawNotifications,
    c.drawDock, c.drawWorkspaceSwitcher]

/-- `draw_window`, and the terminal in its window: the viewport is set anew in the first redraw
and where the window was hidden or had another size. -/
def Desk.paintWindow (d : Desk) (w : Window g) (i : ℕ) : List (Routine g) :=
  if w.visible then
    w.drawWindow :: (if w.kind = .terminal then
      [if d.firstDraw ∨ ¬(d.prev i).visible ∨ (d.prev i).w ≠ w.width ∨ (d.prev i).h ≠ w.height then
        w.terminalSetViewport
      else w.terminalMoveViewport]
    else [])
  else []

def Desk.erased (g : Mode) (d : Desk) (count : ℕ) : List FbRect :=
  if d.firstDraw then [⟨0, 0, asInt g.w.toNat, asInt g.h.toNat⟩]
  else ((List.range count).filter fun i => (d.prev i).visible).map fun i =>
    ⟨(d.prev i).x, (d.prev i).y, (d.prev i).w, (d.prev i).h⟩

/-- `draw_background_full` fits the wallpaper first. -/
def Call.fit (c : Call g) (d : Desk) : Fit :=
  if d.firstDraw then recomputeWallpaperFit g c.wallpaper d.fit else d.fit

def Call.eraser (c : Call g) (d : Desk) (r : FbRect) : Pixels g → Pixels g :=
  drawBackgroundRect c.wallpaper (c.fit d) r.x r.y r.w r.h

def Call.redraw (c : Call g) (d : Desk) : List (Pixels g → Pixels g) :=
  (d.erased g c.windows.length).map (c.eraser d) ++
    (c.widgets ++ c.windows.zipIdx.flatMap fun wi => d.paintWindow wi.1 wi.2).map (·.paint)

def Call.nextDesk (c : Call g) (d : Desk) : Desk where
  firstDraw := false
  fit := c.fit d
  prev i := match c.windows[i]? with
    | some w => ⟨w.x, w.y, w.width, w.height, w.visible⟩
    | none => d.prev i

/-- `prev_cursor_x`, `prev_cursor_y` and `cursor_bg`. -/
structure Cursor where
  x : ℤ
  y : ℤ
  bg : ℕ → Color

structure Desktop (g : Mode) where
  desk : Desk
  cursor : Cursor
  buf : Pixels g

def white : Color := ⟨255, 255, 255⟩

def Cursor.restore (k : Cursor) (b : Pixels g) : Pixels g :=
  putPixels k.x k.y 8 8 (fun dx dy => k.bg (dy*8+dx)) b

def capture (x y : ℤ) (b : Pixels g) (i : ℕ) : Color :=
  getPixel (x+(i%8 : ℕ)) (y+(i/8 : ℕ)) b

/-- The block under `if (gui_dirty)`. -/
def Desktop.refresh (s : Desktop g) (c : Call g) : Desktop g :=
  if c.guiDirty then
    { desk := c.nextDesk s.desk, cursor := { s.cursor with x := -1 },
      buf := runAll (c.redraw s.desk) s.buf }
  else s

def Desktop.cleared (s : Desktop g) : Pixels g :=
  if s.cursor.x ≥ 0 then s.cursor.restore s.buf else s.buf

def guiDraw (c : Call g) (s : Desktop g) : Desktop g :=
  let s := s.refresh c
  { desk := s.desk
    cursor := ⟨c.mouseX, c.mouseY, capture c.mouseX c.mouseY s.cleared⟩
    buf := fillRect c.mouseX c.mouseY 8 8 white s.cleared }

structure Plain (g : Mode) where
  desk : Desk
  buf : Pixels g

def plainDraw (c : Call g) (s : Plain g) : Plain g :=
  if c.guiDirty then
    { desk := c.nextDesk s.desk, buf := runAll (c.redraw s.desk) s.buf }
  else s

structure Round (g : Mode) where
  output : List (Routine g)
  call : Call g

def Round.print (r : Round g) : Pixels g → Pixels g := runAll (r.output.map (·.paint))

structure Both (g : Mode) where
  desktop : Desktop g
  plain : Plain g

def Both.next (r : Round g) (s : Both g) : Both g where
  desktop := guiDraw r.call { s.desktop with buf := r.print s.desktop.buf }
  plain := plainDraw r.call { s.plain with buf := r.print s.plain.buf }

def bootDesk : Desk := ⟨true, ⟨1000, 0, 0⟩, fun _ => ⟨0, 0, 0, 0, false⟩⟩

/-- Before the first call; the boot's text is in the buffer already. -/
def boot (b : Pixels g) : Both g :=
  ⟨⟨bootDesk, ⟨-1, -1, fun _ => ⟨0, 0, 0⟩⟩, b⟩, ⟨bootDesk, b⟩⟩

def FirstDrawn (s : Both g) : Prop := ∃ b r, s = (boot b).next r

/-- The states of the runs from the first call on in which each round is allowed. -/
abbrev GuiReach (allow : Desktop g → Round g → Prop) : Both g → Prop :=
  Reach FirstDrawn (fun r s t => t = s.next r) fun s r => allow s.desktop r

def Cursor.area (k : Cursor) : FbRect := ⟨k.x, k.y, 8, 8⟩

/-- Points of the cursor's square whose saved color is not the cursor's own. -/
def Desktop.Stale (s : Desktop g) (p : ℕ × ℕ) : Prop :=
  ∃ dx dy : ℕ, dx < 8 ∧ dy < 8 ∧ ¬g.Off (s.cursor.x+dx) (s.cursor.y+dy) ∧
    p = pixelAt (s.cursor.x+dx) (s.cursor.y+dy) ∧ store g (s.cursor.bg (dy*8+dx)) ≠ store g white

/-- Where the call puts nothing back, what is painted since the last one refreshes the stale
points; where it does, the terminal has left the square alone. -/
def Careful (s : Desktop g) (r : Round g) : Prop :=
  if r.call.guiDirty then
    Refreshed (r.output.map (·.paint) ++ r.call.redraw s.desk) s.Stale
  else if s.cursor.x ≥ 0 then
    Blind s.Stale r.print ∧ ∀ p : ℕ × ℕ, ¬g.Misses s.cursor.area p.1 p.2 → Keeps r.print p
  else Refreshed (r.output.map (·.paint)) s.Stale

theorem getPixel_stored {x y : ℤ} {b : Pixels g} (on : ¬g.Off x y) :
    store g (getPixel x y b) = b (pixelAt x y) := by
  rw [getPixel, if_neg on]
  exact Subtype.ext (b (pixelAt x y)).property

/-- The two buffers agree outside the square; inside it the cursor is shown, and what the other
buffer holds there is saved. -/
structure Synced (s : Both g) : Prop where
  desk : s.desktop.desk = s.plain.desk
  outside : ∀ p : ℕ × ℕ, g.Misses s.desktop.cursor.area p.1 p.2 →
    s.desktop.buf p = s.plain.buf p
  shown : ∀ p : ℕ × ℕ, ¬g.Misses s.desktop.cursor.area p.1 p.2 →
    s.desktop.buf p = store g white
  saved : ∀ dx dy : ℕ, dx < 8 → dy < 8 → ¬g.Off (s.desktop.cursor.x+dx) (s.desktop.cursor.y+dy) →
    s.plain.buf (pixelAt (s.desktop.cursor.x+dx) (s.desktop.cursor.y+dy)) =
      store g (s.desktop.cursor.bg (dy*8+dx))

theorem Cursor.area_hit {k : Cursor} {dx dy : ℕ} (lt : dx < 8) (lt' : dy < 8)
    (on : ¬g.Off (k.x+dx) (k.y+dy)) :
    ¬g.Misses k.area (pixelAt (k.x+dx) (k.y+dy)).1 (pixelAt (k.x+dx) (k.y+dy)).2 := by
  intro miss
  refine miss _ _ ?_ on ⟨rfl, rfl⟩
  rw [Cursor.area, has_iff]
  omega

theorem Desktop.Stale.hit {s : Desktop g} {p : ℕ × ℕ} (stale : s.Stale p) :
    ¬g.Misses s.cursor.area p.1 p.2 := by
  obtain ⟨dx, dy, lt, lt', on, rfl, -⟩ := stale
  exact Cursor.area_hit lt lt' on

theorem Synced.agree {s : Both g} (synced : Synced s) :
    AgreeOff s.desktop.Stale s.desktop.buf s.plain.buf := by
  intro p fresh
  by_cases miss : g.Misses s.desktop.cursor.area p.1 p.2
  · exact synced.outside p miss
  obtain ⟨dx, dy, lt, lt', on, rfl⟩ := exists_point miss
  have lt : dx < 8 := Int.ofNat_lt.mp lt
  have lt' : dy < 8 := Int.ofNat_lt.mp lt'
  have same : store g (s.desktop.cursor.bg (dy*8+dx)) = store g white :=
    not_not.mp fun differs => fresh ⟨dx, dy, lt, lt', on, rfl, differs⟩
  rw [synced.shown _ miss, synced.saved dx dy lt lt' on, same]

/-- Where the buffer without the cursor is in place, saving and drawing the cursor keep it so. -/
theorem synced_of_cleared (d : Desk) (x y : ℤ) (b : Pixels g) :
    Synced ⟨⟨d, ⟨x, y, capture x y b⟩, fillRect x y 8 8 white b⟩, ⟨d, b⟩⟩ where
  desk := rfl
  outside p miss := fillRect_keeps white miss b
  shown p hit := fillRect_hit white b hit
  saved dx dy lt lt' on := by
    have col : (dy*8+dx)%8 = dx := by omega
    have row : (dy*8+dx)/8 = dy := by omega
    change b _ = store g (getPixel _ _ b)
    rw [col, row]
    exact (getPixel_stored on).symm

theorem runAll_append (l l' : List (Pixels g → Pixels g)) (b : Pixels g) :
    runAll (l ++ l') b = runAll l' (runAll l b) := List.foldl_append

theorem refresh_dirty {c : Call g} (dirty : c.guiDirty = true) (s : Desktop g) :
    s.refresh c = ⟨c.nextDesk s.desk, { s.cursor with x := -1 }, runAll (c.redraw s.desk) s.buf⟩ :=
  if_pos dirty

theorem plain_dirty {c : Call g} (dirty : c.guiDirty = true) (s : Plain g) :
    plainDraw c s = ⟨c.nextDesk s.desk, runAll (c.redraw s.desk) s.buf⟩ := if_pos dirty

theorem refresh_clean {c : Call g} (clean : ¬c.guiDirty = true) (s : Desktop g) :
    s.refresh c = s := if_neg clean

theorem cleared_none (s : Desktop g) (none : ¬s.cursor.x ≥ 0) : s.cleared = s.buf := if_neg none

theorem cleared_dirty {c : Call g} (dirty : c.guiDirty = true) (s : Desktop g) :
    (s.refresh c).cleared = runAll (c.redraw s.desk) s.buf := by
  have gone : ¬(-1 : ℤ) ≥ 0 := by decide
  rw [refresh_dirty dirty]
  exact if_neg gone

def Both.cleared (r : Round g) (s : Both g) : Pixels g :=
  (Desktop.refresh { s.desktop with buf := r.print s.desktop.buf } r.call).cleared

theorem next_synced {s : Both g} {r : Round g} (desk : s.desktop.desk = s.plain.desk)
    (same : s.cleared r = (s.next r).plain.buf) : Synced (s.next r) := by
  have desks : (Desktop.refresh { s.desktop with buf := r.print s.desktop.buf } r.call).desk =
      (s.next r).plain.desk := by
    rw [Both.next, plainDraw]
    by_cases dirty : r.call.guiDirty = true
    · rw [refresh_dirty dirty, if_pos dirty]
      exact congrArg r.call.nextDesk desk
    · rw [refresh_clean dirty, if_neg dirty]
      exact desk
  have drawn : (s.next r).desktop = ⟨(s.next r).plain.desk, ⟨r.call.mouseX, r.call.mouseY,
      capture r.call.mouseX r.call.mouseY (s.next r).plain.buf⟩,
      fillRect r.call.mouseX r.call.mouseY 8 8 white (s.next r).plain.buf⟩ := by
    rw [← desks, ← same]
    rfl
  change Synced ⟨(s.next r).desktop, (s.next r).plain⟩
  rw [drawn]
  exact synced_of_cleared _ _ _ _

theorem first_synced {s : Both g} (first : FirstDrawn s) : Synced s := by
  obtain ⟨b, r, rfl⟩ := first
  refine next_synced rfl ?_
  rw [Both.cleared, Both.next, plainDraw]
  by_cases dirty : r.call.guiDirty = true
  · rw [cleared_dirty dirty, if_pos dirty]
    dsimp only [boot]
  · have unknown : ¬(-1 : ℤ) ≥ 0 := by decide
    rw [refresh_clean dirty, if_neg dirty]
    dsimp only [boot]
    exact cleared_none _ unknown

theorem restore_square {s : Both g} (synced : Synced s) {b t : Pixels g}
    (agree : AgreeOff s.desktop.Stale b t)
    (kept : ∀ p : ℕ × ℕ, ¬g.Misses s.desktop.cursor.area p.1 p.2 → t p = s.plain.buf p) :
    s.desktop.cursor.restore b = t := by
  funext p
  by_cases miss : g.Misses s.desktop.cursor.area p.1 p.2
  · rw [Cursor.restore, ← agree p fun stale => stale.hit miss]
    exact putPixels_keeps miss b
  · have held : s.desktop.cursor.restore t = t := by
      refine putPixels_fixed fun dx dy lt lt' on => ?_
      have lt₈ : dx < 8 := by omega
      have lt₈' : dy < 8 := by omega
      rw [kept _ (Cursor.area_hit lt₈ lt₈' on)]
      exact synced.saved dx dy lt₈ lt₈' on
    exact Covers.of_fixed (putPixels_covers miss) held b

theorem Synced.next {s : Both g} {r : Round g} (synced : Synced s)
    (careful : Careful s.desktop r) : Synced (s.next r) := by
  refine next_synced synced.desk ?_
  have agree := synced.agree
  rw [Careful] at careful
  rw [Both.cleared, Both.next, plainDraw]
  by_cases dirty : r.call.guiDirty = true
  · rw [if_pos dirty] at careful
    have painted := careful.runAll_eq agree
    rw [runAll_append, runAll_append] at painted
    rw [cleared_dirty dirty, if_pos dirty, ← synced.desk]
    exact painted
  rw [if_neg dirty] at careful
  rw [refresh_clean dirty, if_neg dirty]
  by_cases known : s.desktop.cursor.x ≥ 0
  · rw [if_pos known] at careful
    refine (if_pos known).trans (restore_square synced (careful.1 _ _ agree) fun p hit => ?_)
    exact careful.2 p hit s.plain.buf
  · rw [if_neg known] at careful
    exact (cleared_none { s.desktop with buf := r.print s.desktop.buf } known).trans
      (careful.runAll_eq agree)

theorem Call.eraser_overwrites (c : Call g) (d : Desk) (r : FbRect) :
    Overwrites (c.eraser d r) := by
  obtain ⟨color, eq⟩ := drawBackgroundRect_eq (g := g) c.wallpaper (c.fit d) r.x r.y r.w r.h
  rw [Call.eraser, eq]
  exact putPixels_overwrites

theorem Call.eraser_covers (c : Call g) (d : Desk) {r : FbRect} {p : ℕ × ℕ}
    (hit : ¬g.Misses r p.1 p.2) : Covers (c.eraser d r) p := by
  obtain ⟨color, eq⟩ := drawBackgroundRect_eq (g := g) c.wallpaper (c.fit d) r.x r.y r.w r.h
  rw [Call.eraser, eq]
  exact putPixels_covers hit

/-- Whatever the widgets and windows paint, a redraw takes the cursor away that lies in what it
erases. -/
theorem careful_dirty {s : Desktop g} {r : Round g} (dirty : r.call.guiDirty = true)
    (plain : ∀ o ∈ r.output, Overwrites o.paint)
    (erased : ∀ p, s.Stale p → ∃ a ∈ s.desk.erased g r.call.windows.length,
      ¬g.Misses a p.1 p.2) : Careful s r := by
  rw [Careful, if_pos dirty, Call.redraw, ← List.append_assoc]
  refine .of_covered _ (fun f mem => ?_) fun p stale => ?_
  · rcases List.mem_append.mp mem with mem | mem
    · obtain ⟨o, printed, rfl⟩ := List.mem_map.mp mem
      exact plain o printed
    · obtain ⟨a, -, rfl⟩ := List.mem_map.mp mem
      exact r.call.eraser_overwrites s.desk a
  · obtain ⟨a, mem, hit⟩ := erased p stale
    exact ⟨_, List.mem_append_right _ (List.mem_map_of_mem mem), r.call.eraser_covers s.desk hit⟩

/-- Terminal output that stays clear of the cursor does no harm before a call without redraw. -/
theorem careful_clean {s : Desktop g} {r : Round g} (clean : ¬r.call.guiDirty = true)
    (known : s.cursor.x ≥ 0) (plain : ∀ o ∈ r.output, Overwrites o.paint)
    (apart : ∀ o ∈ r.output, ∀ p : ℕ × ℕ, ¬g.Misses s.cursor.area p.1 p.2 →
      g.Misses o.area p.1 p.2) : Careful s r := by
  rw [Careful, if_neg clean, if_pos known]
  refine ⟨Overwrites.blind (.foldl fun f mem => ?_) _, fun p hit => .foldl fun f mem => ?_⟩
  · obtain ⟨o, printed, rfl⟩ := List.mem_map.mp mem
    exact plain o printed
  · obtain ⟨o, printed, rfl⟩ := List.mem_map.mp mem
    exact o.frame p (apart o printed p hit)

/-- A stale point that nothing repaints stays behind when a redraw leaves it. -/
theorem trail_left {s : Both g} {r : Round g} (synced : Synced s) (dirty : r.call.guiDirty = true)
    {p : ℕ × ℕ} (stale : s.desktop.Stale p)
    (keeps : ∀ f ∈ r.output.map (·.paint) ++ r.call.redraw s.desktop.desk, Keeps f p)
    (outside : g.Misses (s.next r).desktop.cursor.area p.1 p.2) :
    (s.next r).desktop.buf p ≠ (s.next r).plain.buf p := by
  have kept : ∀ b, runAll (r.call.redraw s.desktop.desk) (r.print b) p = b p := by
    intro b
    rw [Round.print, ← runAll_append]
    exact Keeps.foldl keeps b
  have drawn : (s.next r).desktop.buf p = s.desktop.buf p := by
    refine (fillRect_keeps white outside _).trans ?_
    rw [cleared_dirty dirty]
    exact kept s.desktop.buf
  have undrawn : (s.next r).plain.buf p = s.plain.buf p := by
    rw [Both.next, plainDraw, if_pos dirty, ← synced.desk]
    exact kept s.plain.buf
  have hit := stale.hit
  obtain ⟨dx, dy, lt, lt', on, rfl, differs⟩ := stale
  rw [drawn, undrawn, synced.shown _ hit, synced.saved dx dy lt lt' on]
  exact differs.symm

/-- In every run of careful rounds, after every call the buffer is what it would be without a
cursor, the cursor's square at the mouse apart. -/
theorem cursor_no_trail {s : Both g} (h : GuiReach Careful s) (X Y : ℕ)
    (outside : g.Misses s.desktop.cursor.area X Y) :
    s.desktop.buf (X, Y) = s.plain.buf (X, Y) := by
  have synced : Synced s :=
    h.invariant (fun _ => first_synced) fun s t r _ synced careful next => by
      rw [next]
      exact synced.next careful
  exact synced.outside (X, Y) outside

def still : Routine desktopMode := ⟨⟨0, 0, 0, 0⟩, fun b => b, fun _ _ _ => rfl⟩

def stillCall (x y : ℤ) (guiDirty : Bool) (windows : List (Window desktopMode)) :
    Call desktopMode :=
  ⟨x, y, guiDirty, ⟨none, 0, 0, ⟨0, 0, 0⟩⟩, still, still, still, still, still, still, still,
    windows⟩

def wholeWindow : Window desktopMode :=
  ⟨0, 0, 1280, 1024, true, false, false, .terminal, still, still, still⟩

def blankCell : Routine desktopMode :=
  ⟨⟨100, 100, 8, 8⟩, fillRect 100 100 8 8 ⟨0, 0, 0⟩, fun _ miss => fillRect_keeps _ miss⟩

/-- A rectangle of small coordinates hits its own points on the screen and no others. -/
theorem hit_iff {r : FbRect} {X Y : ℕ} (on : X < 1280 ∧ Y < 1024) (left : 0 ≤ r.x) (top : 0 ≤ r.y)
    (right : r.x+r.w ≤ 4294967296) (bottom : r.y+r.h ≤ 4294967296) :
    ¬desktopMode.Misses r X Y ↔ r.Has X Y := by
  constructor
  · intro hit
    by_contra outside
    refine hit fun x y has on here => outside ?_
    rw [asUnsigned, asUnsigned] at here
    unfold FbRect.Has at has ⊢
    omega
  · intro has miss
    have col : asUnsigned X = X := asUnsigned_natCast on.1 (by decide)
    have row : asUnsigned Y = Y := asUnsigned_natCast on.2 (by decide)
    refine miss X Y has ?_ ⟨col.symm, row.symm⟩
    rw [Mode.Off, col, row, not_or, Nat.not_le, Nat.not_le]
    exact on

theorem on_of_hit {r : FbRect} {X Y : ℕ} (hit : ¬desktopMode.Misses r X Y) :
    X < 1280 ∧ Y < 1024 := by
  obtain ⟨dx, dy, -, -, on, here⟩ := @exists_point desktopMode r.x r.y r.w r.h (X, Y) hit
  rw [Mode.Off, not_or, Nat.not_le, Nat.not_le] at on
  cases here
  exact on

def black : Pixels desktopMode := fun _ => store desktopMode ⟨0, 0, 0⟩

def startRun (windows : List (Window desktopMode)) : Both desktopMode :=
  (boot black).next ⟨[], stillCall 0 0 true windows⟩

theorem startRun_reach (allow : Desktop desktopMode → Round desktopMode → Prop)
    (windows : List (Window desktopMode)) : GuiReach allow (startRun windows) :=
  .start ⟨_, _, rfl⟩

def blankRound (x y : ℤ) (guiDirty : Bool) : Round desktopMode :=
  ⟨[blankCell], stillCall x y guiDirty [wholeWindow]⟩

theorem blankCell_overwrites (x y : ℤ) (guiDirty : Bool) :
    ∀ o ∈ (blankRound x y guiDirty).output, Overwrites o.paint := by
  intro o mem
  obtain rfl := List.mem_singleton.mp mem
  change Overwrites (fillRect 100 100 8 8 _)
  rw [fillRect_eq]
  exact putPixels_overwrites

theorem coveredRun_reach : GuiReach Careful
    (((startRun [wholeWindow]).next (blankRound 5 5 false)).next (blankRound 700 500 true)) := by
  refine .step (.step (startRun_reach _ _) ?_ rfl) ?_ rfl
  · refine careful_clean Bool.false_ne_true le_rfl (blankCell_overwrites 5 5 false) ?_
    intro o mem p hit
    obtain rfl := List.mem_singleton.mp mem
    have on := on_of_hit hit
    by_contra hit'
    change ¬desktopMode.Misses ⟨0, 0, 8, 8⟩ p.1 p.2 at hit
    change ¬desktopMode.Misses ⟨100, 100, 8, 8⟩ p.1 p.2 at hit'
    rw [hit_iff on (by decide) (by decide) (by decide) (by decide), has_iff] at hit hit'
    omega
  · refine careful_dirty rfl (blankCell_overwrites 700 500 true) fun p stale => ?_
    have on := on_of_hit stale.hit
    refine ⟨⟨0, 0, 1280, 1024⟩, List.mem_singleton.mpr rfl, ?_⟩
    rw [hit_iff on (by decide) (by decide) (by decide) (by decide), has_iff]
    omega

theorem cursor_no_trail_covered :
    (((startRun [wholeWindow]).next (blankRound 5 5 false)).next
      (blankRound 700 500 true)).desktop.buf (0, 0) =
    (((startRun [wholeWindow]).next (blankRound 5 5 false)).next
      (blankRound 700 500 true)).plain.buf (0, 0) :=
  cursor_no_trail coveredRun_reach 0 0 fun x y has on here => by
    change FbRect.Has ⟨700, 500, 8, 8⟩ x y at has
    rw [has_iff] at has
    rw [asUnsigned] at here
    omega

def leavingRound : Round desktopMode := ⟨[], stillCall 100 100 true []⟩

theorem still_redraw {x y : ℤ} {d : Desk} {f : Pixels desktopMode → Pixels desktopMode}
    (mem : f ∈ (stillCall x y true []).redraw d) :
    (∃ a ∈ d.erased desktopMode 0, f = (stillCall x y true []).eraser d a) ∨ f = fun b => b := by
  rw [Call.redraw] at mem
  rcases List.mem_append.mp mem with mem | mem
  · obtain ⟨a, erased, rfl⟩ := List.mem_map.mp mem
    exact .inl ⟨a, erased, rfl⟩
  · obtain ⟨o, painted, rfl⟩ := List.mem_map.mp mem
    have eq : o = still := by
      simpa [Call.widgets, stillCall] using painted
    rw [eq]
    exact .inr rfl

theorem startRun_black : (startRun []).plain.buf = black := by
  have drawn : (startRun []).plain = plainDraw (stillCall 0 0 true []) ⟨bootDesk, black⟩ := rfl
  rw [drawn, plain_dirty rfl]
  dsimp only
  refine runAll_fixed fun f mem => ?_
  rcases still_redraw mem with ⟨a, -, rfl⟩ | rfl
  · rw [Call.eraser, drawBackgroundRect_solid rfl, fillRect_eq]
    exact putPixels_fixed fun _ _ _ _ _ => rfl
  · rfl

theorem startRun_stale : (startRun []).desktop.Stale (0, 0) := by
  have synced : Synced (startRun []) := first_synced ⟨_, _, rfl⟩
  have saved := synced.saved 0 0 (by decide) (by decide) (by decide)
  rw [startRun_black] at saved
  refine ⟨0, 0, by decide, by decide, by decide, rfl, ?_⟩
  rw [← saved]
  decide

theorem cursor_trail : ¬∀ (g : Mode) (s : Both g), GuiReach (fun _ _ => True) s →
    ∀ X Y, g.Misses s.desktop.cursor.area X Y → s.desktop.buf (X, Y) = s.plain.buf (X, Y) := by
  intro always
  have outside : desktopMode.Misses ((startRun []).next leavingRound).desktop.cursor.area 0 0 := by
    intro x y has on here
    change FbRect.Has ⟨100, 100, 8, 8⟩ x y at has
    rw [has_iff] at has
    rw [asUnsigned] at here
    omega
  have reach : GuiReach (fun _ _ => True) ((startRun []).next leavingRound) :=
    .step (startRun_reach (fun _ _ => True) []) trivial rfl
  refine trail_left (first_synced ⟨_, _, rfl⟩) rfl
    startRun_stale ?_ outside (always _ _ reach 0 0 outside)
  intro f mem
  rcases still_redraw mem with ⟨a, mem, -⟩ | rfl
  · exact absurd mem List.not_mem_nil
  · exact fun b => rfl

end TinyOS.Gui
