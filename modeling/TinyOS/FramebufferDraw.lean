import TinyOS.ByteWords
import TinyOS.Framebuffer
import TinyOS.Kmalloc
import TinyOS.TwinRuns

set_option autoImplicit false

/-! The drawing functions of framebuffer.c, on the screen or on the back buffer. -/
namespace TinyOS.Display
open ByteWords Memory

structure FbTag where
  addr : UInt64
  pitch : UInt32
  width : UInt32
  height : UInt32
  bpp : UInt8
  fbType : UInt8
  redPos : UInt8
  greenPos : UInt8
  bluePos : UInt8

/-- The static variables that `fb_init` sets. -/
structure Mode where
  addr : UInt64
  pitch : UInt32
  w : UInt32
  h : UInt32
  bpp : UInt8
  rPos : UInt8
  gPos : UInt8
  bPos : UInt8

/-- On the framebuffer tag, `none` where there is none; the mode is set on 0 only. -/
def fbInit : Option FbTag → ℤ × Option Mode
  | none => (-1, none)
  | some fb =>
    if fb.fbType ≠ 1 then (-2, none)
    else if fb.bpp ≠ 32 ∧ fb.bpp ≠ 24 then (-3, none)
    else if fb.width = 0 ∨ fb.height = 0 then (-4, none)
    else if fb.pitch = 0 then (-5, none)
    else (0, some ⟨fb.addr, fb.pitch, fb.width, fb.height, fb.bpp, fb.redPos, fb.greenPos,
      fb.bluePos⟩)

/-- `draw_buf` and `display_buf`, with the number of pixels that each block has room for. -/
structure Buffers where
  draw : ℕ → UInt32
  display : ℕ → UInt32
  cells : ℕ

/-- The bytes from `fb_addr` on, the buffers, if any, and `fb_force_full`. -/
structure Screen where
  hw : ℕ → UInt8
  buffers : Option Buffers
  forceFull : Bool

/-- `none` is an access outside the blocks of the buffers. -/
abbrev DrawM := StateT Screen Option

def Mode.pixelValue (g : Mode) (c : Color) : UInt32 :=
  c.r.toUInt32 <<< g.rPos.toUInt32 ||| c.g.toUInt32 <<< g.gPos.toUInt32 |||
    c.b.toUInt32 <<< g.bPos.toUInt32

def Mode.bytesPerPixel (g : Mode) : ℕ := (g.bpp/8).toNat

def asInt (z : ℤ) : ℤ := z.bmod 4294967296

def asUnsigned (z : ℤ) : ℕ := (z%4294967296).toNat

/-- `(uint64_t)y * fb_w + x` -/
def Mode.index (g : Mode) (x y : ℤ) : ℕ :=
  ((asInt y*g.w.toNat + asInt x)%18446744073709551616).toNat

/-- `(uint64_t)y * fb_pitch + (uint64_t)x * (fb_bpp / 8)` -/
def Mode.offset (g : Mode) (x y : ℤ) : ℕ :=
  ((asInt y*g.pitch.toNat + asInt x*g.bytesPerPixel)%18446744073709551616).toNat

def storePixel (hw : ℕ → UInt8) (p n : ℕ) (px : UInt32) : ℕ → UInt8 := fun a =>
  if p ≤ a ∧ a < p+n then wordByte px (a-p) else hw a

/-- The loop of `fb_get_pixel` over the bytes of a pixel. -/
def loadPixel (hw : ℕ → UInt8) (p n : ℕ) : UInt32 :=
  (List.range n).foldl (fun px i => px ||| (hw (p+i)).toUInt32 <<< UInt32.ofNat (8*i)) 0

def Mode.colorOf (g : Mode) (px : UInt32) : Color where
  r := (px >>> g.rPos.toUInt32 &&& 0xFF).toUInt8
  g := (px >>> g.gPos.toUInt32 &&& 0xFF).toUInt8
  b := (px >>> g.bPos.toUInt32 &&& 0xFF).toUInt8

def writeDraw (i : ℕ) (px : UInt32) : DrawM Unit := fun s =>
  match s.buffers with
  | none => none
  | some b =>
    if i < b.cells then
      some ((), { s with buffers := some { b with draw := Function.update b.draw i px } })
    else none

def writeDisplay (i : ℕ) (px : UInt32) : DrawM Unit := fun s =>
  match s.buffers with
  | none => none
  | some b =>
    if i < b.cells then
      some ((), { s with buffers := some { b with display := Function.update b.display i px } })
    else none

def writeHw (p n : ℕ) (px : UInt32) : DrawM Unit :=
  modify fun s => { s with hw := storePixel s.hw p n px }

def Mode.Off (g : Mode) (x y : ℤ) : Prop := g.w.toNat ≤ asUnsigned x ∨ g.h.toNat ≤ asUnsigned y

instance (g : Mode) (x y : ℤ) : Decidable (g.Off x y) := inferInstanceAs (Decidable (_ ∨ _))

def fbPutPixel (g : Mode) (x y : ℤ) (c : Color) : DrawM Unit := do
  if g.Off x y then return ()
  let s ← get
  match s.buffers with
  | some _ => writeDraw (g.index x y) (g.pixelValue c)
  | none => writeHw (g.offset x y) g.bytesPerPixel (g.pixelValue c)

def fbGetPixel (g : Mode) (x y : ℤ) : DrawM Color := do
  if g.Off x y then return ⟨0, 0, 0⟩
  let s ← get
  match s.buffers with
  | some b => if g.index x y < b.cells then return g.colorOf (b.draw (g.index x y)) else failure
  | none => return g.colorOf (loadPixel s.hw (g.offset x y) g.bytesPerPixel)

/-- `(uint64_t)fb_w * fb_h` -/
def Mode.total (g : Mode) : UInt64 := g.w.toUInt64*g.h.toUInt64

def fbClear (g : Mode) (c : Color) : DrawM Unit := do
  let s ← get
  match s.buffers with
  | some _ => (List.range g.total.toNat).forM fun i => writeDraw i (g.pixelValue c)
  | none =>
    (List.range g.h.toNat).forM fun y => (List.range g.w.toNat).forM fun x => fbPutPixel g x y c

/-- The loops over `h` rows of `w` points; a negative bound is none. -/
def forPoints (w h : ℤ) (f : ℕ → ℕ → DrawM Unit) : DrawM Unit :=
  (List.range h.toNat).forM fun dy => (List.range w.toNat).forM fun dx => f dx dy

def fbFillRect (g : Mode) (x y w h : ℤ) (c : Color) : DrawM Unit := do
  if w ≤ 0 ∨ h ≤ 0 then return ()
  forPoints w h fun dx dy => fbPutPixel g (x+dx) (y+dy) c

def fbDrawImage (g : Mode) (x y w h : ℤ) (pixels : ℕ → Color) : DrawM Unit := do
  if w ≤ 0 ∨ h ≤ 0 then return ()
  forPoints w h fun dx dy =>
    fbPutPixel g (x+dx) (y+dy) (pixels (asUnsigned (dy*w+dx)))

/-- `font8x8_basic`, rows of eight bits. -/
abbrev Font := ℕ → ℕ → UInt8

/-- Whether a point of a glyph is set; characters outside the font are '?'. -/
def Font.on (font : Font) (ch : UInt8) (col row : ℕ) : Bool :=
  (font (if ch.toNat < 32 ∨ 127 < ch.toNat then 63 else ch.toNat) row).toNat.testBit col

def fbDrawChar (g : Mode) (font : Font) (x y : ℤ) (ch : UInt8) (fg bg : Color) : DrawM Unit :=
  forPoints 8 8 fun col row => fbPutPixel g (x+col) (y+row) (if font.on ch col row then fg else bg)

/-- The loop of `fb_draw_string` from character `i` on. -/
def drawChars (g : Mode) (font : Font) (x y : ℤ) (fg bg : Color) : ℕ → List UInt8 → DrawM Unit
  | _, [] => return ()
  | i, ch :: rest => do
    fbDrawChar g font (x+i*8) y ch fg bg
    drawChars g font x y fg bg (i+1) rest

def fbDrawString (g : Mode) (font : Font) (x y : ℤ) (s : List UInt8) (fg bg : Color) :
    DrawM Unit := drawChars g font x y fg bg 0 s

/-- `if (scale < 1) scale = 1` -/
def clampScale (scale : ℤ) : ℤ := if scale < 1 then 1 else scale

def fbDrawCharEx (g : Mode) (font : Font) (x y : ℤ) (ch : UInt8) (fg bg : Color) (scale : ℤ)
    (transparent : Bool) : DrawM Unit :=
  forPoints 8 8 fun col row =>
    if !font.on ch col row && transparent then return ()
    else forPoints (clampScale scale) (clampScale scale) fun sx sy =>
      fbPutPixel g (x+col*clampScale scale+sx) (y+row*clampScale scale+sy)
        (if font.on ch col row then fg else bg)

/-- The loop of `fb_draw_string_ex` from character `i` on. -/
def drawCharsEx (g : Mode) (font : Font) (x y : ℤ) (fg bg : Color) (scale : ℤ)
    (transparent : Bool) : ℕ → List UInt8 → DrawM Unit
  | _, [] => return ()
  | i, ch :: rest => do
    fbDrawCharEx g font (x+i*(8*scale)) y ch fg bg scale transparent
    drawCharsEx g font x y fg bg scale transparent (i+1) rest

def fbDrawStringEx (g : Mode) (font : Font) (x y : ℤ) (s : List UInt8) (fg bg : Color)
    (scale : ℤ) (transparent : Bool) : DrawM Unit :=
  drawCharsEx g font x y fg bg (clampScale scale) transparent 0 s

/-- The pixels that a block of `bytes` bytes has room for, up to the end of its last page. -/
def blockCells (bytes : Word) : ℕ := ((kmallocPages bytes).toNat*4096-24)/4

/-- The loop of `fb_enable_backbuffer`. -/
def clearBuffers (total : ℕ) : DrawM Unit :=
  (List.range total).forM fun i => do
    writeDraw i 0
    writeDisplay i 0

def fbEnableBackbuffer (g : Mode) (k : Kernel) (found : ℕ → UInt32) : DrawM Kernel := do
  let s ← get
  if s.buffers.isSome then return k
  let bytes := g.total*4
  if g.total = 0 ∨ bytes = 0 then return k
  let newDraw := (kmalloc bytes.toBitVec).run k
  let newDisplay := (kmalloc bytes.toBitVec).run newDraw.2
  if newDraw.1 = 0 ∨ newDisplay.1 = 0 then return newDisplay.2
  set { s with buffers := some ⟨found, found, blockCells bytes.toBitVec⟩ }
  clearBuffers g.total.toNat
  modify fun s => { s with forceFull := true }
  return newDisplay.2

/-- One column of a row of `blit_rect`; a pixel of 32 bits is one store. -/
def blitPixel (g : Mode) (col row : ℤ) : DrawM Unit := do
  let s ← get
  match s.buffers with
  | none => return ()
  | some b =>
    if g.index col row < b.cells then
      if s.forceFull || b.draw (g.index col row) != b.display (g.index col row) then
        writeHw (g.offset col row) (if g.bpp = 32 then 4 else g.bytesPerPixel)
          (b.draw (g.index col row))
        writeDisplay (g.index col row) (b.draw (g.index col row))
      else return ()
    else failure

def blitRect (g : Mode) (x y w h : ℤ) : DrawM Unit := do
  let s ← get
  if s.buffers.isNone ∨ g.addr = 0 then return ()
  let w := if x < 0 then w+x else w
  let x := max x 0
  let h := if y < 0 then h+y else h
  let y := max y 0
  if asInt g.w.toNat ≤ x ∨ asInt g.h.toNat ≤ y then return ()
  let w := if asInt g.w.toNat < x+w then asInt g.w.toNat-x else w
  let h := if asInt g.h.toNat < y+h then asInt g.h.toNat-y else h
  if w ≤ 0 ∨ h ≤ 0 then return ()
  forPoints w h fun col row => blitPixel g (x+col) (y+row)

structure FbRect where
  x : ℤ
  y : ℤ
  w : ℤ
  h : ℤ

def fbPresentRects (g : Mode) (rects : List FbRect) : DrawM Unit := do
  let s ← get
  if s.buffers.isNone ∨ rects = [] then return ()
  rects.forM fun r => blitRect g r.x r.y r.w r.h
  modify fun s => { s with forceFull := false }

def fbPresent (g : Mode) : DrawM Unit := do
  let s ← get
  if s.buffers.isNone then return ()
  fbPresentRects g [⟨0, 0, asInt g.w.toNat, asInt g.h.toNat⟩]

def DrawCall.perform (g : Mode) (font : Font) : DrawCall → DrawM Unit
  | .clear c => fbClear g c
  | .putPixel x y c => fbPutPixel g x y c
  | .fillRect x y w h c => fbFillRect g x y w h c
  | .drawImage x y w h pixels => fbDrawImage g x y w h pixels
  | .drawChar x y ch fg bg => fbDrawChar g font x y ch fg bg
  | .drawString x y s fg bg => fbDrawString g font x y s fg bg
  | .drawCharEx x y ch fg bg scale transparent => fbDrawCharEx g font x y ch fg bg scale transparent
  | .drawStringEx x y s fg bg scale transparent =>
    fbDrawStringEx g font x y s fg bg scale transparent
  | .present => fbPresent g

/-- A sequence of calls; after a pixel is read the rest may depend on its color. -/
inductive Drawing where
  | stop
  | call (c : DrawCall) (next : Drawing)
  | read (x y : ℤ) (next : Color → Drawing)

def Drawing.run (g : Mode) (font : Font) : Drawing → DrawM Unit
  | .stop => return ()
  | .call c next => do
    c.perform g font
    next.run g font
  | .read x y next => do
    let c ← fbGetPixel g x y
    (next c).run g font

end TinyOS.Display
