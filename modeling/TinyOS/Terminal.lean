import TinyOS.Framebuffer

set_option autoImplicit false

/-! The terminal and its scrolling buffer (terminal/terminal.c). -/
namespace TinyOS.Display

abbrev maxRows : ℤ := 64

abbrev maxCols : ℤ := 120

abbrev charWidth : ℤ := 8

abbrev charHeight : ℤ := 10

def colBg : Color := ⟨0, 0, 0⟩

def colText : Color := ⟨255, 255, 255⟩

abbrev newline : UInt8 := 10
abbrev backspace : UInt8 := 8

/-- The static variables of terminal.c, and the calls made to framebuffer.c. -/
structure Terminal where
  width : ℤ
  height : ℤ
  cols : ℤ
  rows : ℤ
  originX : ℤ
  originY : ℤ
  screenBuf : ℕ → ℕ → UInt8
  bufRow : ℤ
  bufCol : ℤ
  scrollTop : ℤ
  drawn : List DrawCall

/-- `none` is an access outside `screen_buf`. -/
abbrev TerminalM := StateT Terminal Option

/-- Row and column of a cell of `screen_buf`. -/
def InBuffer (r c : ℤ) : Prop := 0 ≤ r ∧ r < maxRows ∧ 0 ≤ c ∧ c < maxCols

instance (r c : ℤ) : Decidable (InBuffer r c) := instDecidableAnd

def setCell (buf : ℕ → ℕ → UInt8) (r c : ℕ) (v : UInt8) : ℕ → ℕ → UInt8 :=
  Function.update buf r (Function.update (buf r) c v)

def readCell (r c : ℤ) : TerminalM UInt8 := fun t =>
  if InBuffer r c then some (t.screenBuf r.toNat c.toNat, t) else none

def writeCell (r c : ℤ) (v : UInt8) : TerminalM Unit := fun t =>
  if InBuffer r c then some ((), { t with screenBuf := setCell t.screenBuf r.toNat c.toNat v })
  else none

def draw (call : DrawCall) : TerminalM Unit :=
  modify fun t => { t with drawn := t.drawn ++ [call] }

/-- The inner loop of `redraw_terminal`, over the columns left. -/
def redrawCells (bufR : ℤ) (r : ℕ) : List ℕ → TerminalM Unit
  | [] => return ()
  | c :: rest => do
    let ch ← readCell bufR c
    if ch = 0 then return ()
    let t ← get
    draw (.drawChar (t.originX + c*charWidth) (t.originY + r*charHeight) ch colText colBg)
    redrawCells bufR r rest

/-- The outer loop of `redraw_terminal`, over the rows left. -/
def redrawRows : List ℕ → TerminalM Unit
  | [] => return ()
  | r :: rest => do
    let t ← get
    let bufR := t.scrollTop + r
    if maxRows ≤ bufR then return ()
    redrawCells bufR r (List.range t.cols.toNat)
    redrawRows rest

def redrawTerminal : TerminalM Unit := do
  let t ← get
  draw (.fillRect t.originX t.originY t.width t.height colBg)
  redrawRows (List.range t.rows.toNat)

/-- The loop of `scroll_down` that moves every row up by one. -/
def shiftRows (buf : ℕ → ℕ → UInt8) : ℕ → ℕ → UInt8 :=
  (List.range 63).foldl (fun buf r => Function.update buf r (buf (r+1))) buf

def scrollDown : TerminalM Unit := do
  modify fun t => { t with bufRow := t.bufRow + 1, bufCol := 0 }
  modify fun t =>
    if maxRows ≤ t.bufRow then
      { t with
        bufRow := maxRows - 1
        screenBuf := Function.update (shiftRows t.screenBuf) 63 fun _ => 0 }
    else t
  modify fun t =>
    { t with scrollTop := if t.rows ≤ t.bufRow then t.bufRow - t.rows + 1 else 0 }
  redrawTerminal

def terminalPutchar (c : UInt8) : TerminalM Unit := do
  if c = newline then
    scrollDown
    draw .present
    return ()
  if c = backspace then
    let t ← get
    if 0 < t.bufCol then
      modify fun t => { t with bufCol := t.bufCol - 1 }
      let t ← get
      writeCell t.bufRow t.bufCol 0
      draw (.fillRect (t.originX + t.bufCol*charWidth)
        (t.originY + (t.bufRow - t.scrollTop)*charHeight) charWidth charHeight colBg)
      draw .present
    return ()
  let t ← get
  if t.cols ≤ t.bufCol then scrollDown
  let t ← get
  writeCell t.bufRow t.bufCol c
  draw (.drawChar (t.originX + t.bufCol*charWidth)
    (t.originY + (t.bufRow - t.scrollTop)*charHeight) c colText colBg)
  modify fun t => { t with bufCol := t.bufCol + 1 }
  draw .present

/-- On a string and what lies behind its terminator, if anything. -/
def terminalPrint : List UInt8 → TerminalM Unit
  | [] => return ()
  | c :: rest => do
    if c = 0 then return ()
    terminalPutchar c
    terminalPrint rest

def terminalClear : TerminalM Unit := do
  modify fun t => { t with screenBuf := fun _ _ => 0, bufRow := 0, bufCol := 0, scrollTop := 0 }
  let t ← get
  draw (.fillRect t.originX t.originY t.width t.height colBg)
  draw .present

end TinyOS.Display
