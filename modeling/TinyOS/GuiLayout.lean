import TinyOS.FramebufferTouch

set_option autoImplicit false

/-! The places of the desktop's panels and controls (ui_layout.c, gui.c). An `int` is an integer,
and `/` rounds to zero. -/
namespace TinyOS.Desktop
open Display

/-- `fb_width()` and `fb_height()`, of which a thousand times still fits an `int`. -/
structure FbSize where
  width : ℤ
  height : ℤ
  width_fits : -2147483 ≤ width ∧ width ≤ 2147483
  height_fits : -2147483 ≤ height ∧ height ≤ 2147483

/-- `(n * k) / 1000` -/
def perMille (n k : ℤ) : ℤ := (n*k).tdiv 1000

def uiPmRight (s : FbSize) (rightPm topPm wPm hPm : ℤ) : FbRect :=
  let w := perMille s.width wPm
  let h := perMille s.height hPm
  ⟨s.width - perMille s.width rightPm - w, perMille s.height topPm, w, h⟩

def uiPmBottom (s : FbSize) (leftPm bottomPm wPm hPm : ℤ) : FbRect :=
  let w := perMille s.width wPm
  let h := perMille s.height hPm
  ⟨perMille s.width leftPm, s.height - perMille s.height bottomPm - h, w, h⟩

def uiPmBottomCenter (s : FbSize) (bottomPm wPm hPm : ℤ) : FbRect :=
  let w := perMille s.width wPm
  let h := perMille s.height hPm
  ⟨(s.width - w).tdiv 2, s.height - perMille s.height bottomPm - h, w, h⟩

def uiScalePm (s : FbSize) : ℤ :=
  if s.width ≤ 0 ∨ s.height ≤ 0 then 1000
  else
    let sx := (s.width*1000).tdiv 1440
    let sy := (s.height*1000).tdiv 900
    let m := if sx < sy then sx else sy
    let m := if m < 600 then 600 else m
    if m > 1600 then 1600 else m

def uiScaled (s : FbSize) (basePx : ℤ) : ℤ :=
  let v := perMille basePx (uiScalePm s)
  if v < 1 then 1 else v

structure DesktopLayout where
  sidebar : FbRect
  clock : FbRect
  music : FbRect
  quick : FbRect
  notif : FbRect
  dock : FbRect
  wsw : FbRect

def recomputeLayout (s : FbSize) : DesktopLayout :=
  let gap := uiScaled s 14
  let sidebarY := perMille s.height 40
  let clock := uiPmRight s 30 50 210 105
  let musicW := perMille s.width 230
  let music : FbRect := ⟨s.width - perMille s.width 30 - musicW, clock.y + clock.h + gap,
    musicW, perMille s.height 165⟩
  let quick : FbRect :=
    ⟨music.x, music.y + music.h + gap, music.w, perMille s.height 220⟩
  let notif : FbRect := ⟨quick.x, quick.y + quick.h + gap, quick.w, perMille s.height 150⟩
  let limit := s.height - perMille s.height 30
  { sidebar := ⟨perMille s.width 10, sidebarY, perMille s.width 150,
      s.height - sidebarY - perMille s.height 50⟩
    clock := clock
    music := music
    quick := quick
    notif := if notif.y + notif.h > limit then ⟨notif.x, limit - notif.h, notif.w, notif.h⟩
      else notif
    dock := uiPmBottomCenter s 28 400 68
    wsw := uiPmBottom s 15 28 180 46 }

def pointInRect (px py : ℤ) (r : FbRect) : Bool :=
  decide (px ≥ r.x ∧ px < r.x + r.w ∧ py ≥ r.y ∧ py < r.y + r.h)

/-- The loops of the hit tests: the first index below `n` that passes, or -1. -/
def firstHit (n : ℕ) (hit : ℕ → Bool) : ℤ :=
  match (List.range n).find? hit with
  | some i => i
  | none => -1

abbrev navItemCount : ℕ := 8

abbrev dockItemCount : ℕ := 6

abbrev quickCols : ℕ := 2

abbrev quickRows : ℕ := 3

def navStartY (s : FbSize) (r : FbRect) : ℤ := r.y + uiScaled s 90

def navItemH (s : FbSize) : ℤ := uiScaled s 36

def dockItemRect (s : FbSize) (dock : FbRect) (index : ℕ) : FbRect :=
  let pad := uiScaled s 10
  let gap := uiScaled s 6
  let size := dock.h - pad*2
  let totalW := dockItemCount*size + (dockItemCount - 1)*gap
  let x0 := dock.x + (dock.w - totalW).tdiv 2
  ⟨x0 + index*(size + gap), dock.y + pad, size, size⟩

def quickTileRect (s : FbSize) (r : FbRect) (index : ℕ) : FbRect :=
  let pad := uiScaled s 14
  let gap := uiScaled s 8
  let gx0 := r.x + pad
  let gy0 := r.y + uiScaled s 38
  let tileW := (r.w - pad*2 - gap*(quickCols - 1)).tdiv quickCols
  let tileH := (r.h - uiScaled s 38 - pad - gap*(quickRows - 1)).tdiv quickRows
  let col := index % quickCols
  let row := index / quickCols
  ⟨gx0 + col*(tileW + gap), gy0 + row*(tileH + gap), tileW, tileH⟩

/-- The buttons `restart_r`, `lock_r` and `off_r`. -/
structure PowerButtons where
  restart : FbRect
  lock : FbRect
  off : FbRect

def powerButtonRects (s : FbSize) (r : FbRect) : PowerButtons :=
  let pad := uiScaled s 16
  let bw := (r.w - pad*2 - uiScaled s 24).tdiv 3
  let bh := uiScaled s 36
  let y := r.y + r.h - bh - uiScaled s 14
  let restartX := r.x + pad
  let lockX := restartX + bw + uiScaled s 12
  let offX := lockX + bw + uiScaled s 12
  ⟨⟨restartX, y, bw, bh⟩, ⟨lockX, y, bw, bh⟩, ⟨offX, y, bw, bh⟩⟩

/-- The test on row `i` of `sidebar_nav_hit_test`. -/
def navRow (s : FbSize) (my : ℤ) (i : ℕ) : Bool :=
  let iy := navStartY s (recomputeLayout s).sidebar + i*navItemH s
  decide (my ≥ iy ∧ my < iy + navItemH s - uiScaled s 6)

def sidebarNavHitTest (s : FbSize) (mx my : ℤ) : ℤ :=
  let r := (recomputeLayout s).sidebar
  if mx < r.x ∨ mx ≥ r.x + r.w then -1 else firstHit navItemCount (navRow s my)

def dockHitTest (s : FbSize) (mx my : ℤ) : ℤ :=
  let d := (recomputeLayout s).dock
  if !pointInRect mx my d then -1
  else firstHit dockItemCount fun i => pointInRect mx my (dockItemRect s d i)

def quickHitTest (s : FbSize) (mx my : ℤ) : ℤ :=
  let r := (recomputeLayout s).quick
  if !pointInRect mx my r then -1
  else firstHit (quickRows*quickCols) fun i => pointInRect mx my (quickTileRect s r i)

variable {s : FbSize} {mx my : ℤ}

theorem perMille_eq {n k : ℤ} (pos : 0 ≤ n) (pos' : 0 ≤ k) : perMille n k = n*k/1000 := by
  rw [perMille]
  exact Int.tdiv_eq_ediv_of_nonneg (mul_nonneg pos pos')

/-- The scale lies between 600 and 1600, and above 600 the screen has room for it. -/
theorem uiScalePm_bounds (wide : 0 < s.width) (high : 0 < s.height) :
    600 ≤ uiScalePm s ∧ uiScalePm s ≤ 1600 ∧
      (uiScalePm s = 600 ∨ uiScalePm s*1440 ≤ s.width*1000 ∧ uiScalePm s*900 ≤ s.height*1000) := by
  have across : (s.width*1000).tdiv 1440 = s.width*1000/1440 :=
    Int.tdiv_eq_ediv_of_nonneg (by omega)
  have down : (s.height*1000).tdiv 900 = s.height*1000/900 :=
    Int.tdiv_eq_ediv_of_nonneg (by omega)
  rw [uiScalePm, if_neg (by omega), across, down]
  dsimp only
  split_ifs <;> omega

theorem uiScaled_pos (b : ℤ) : 1 ≤ uiScaled s b := by
  rw [uiScaled]
  split_ifs <;> omega

/-- A scaled length is the length times the scale, rounded down, and at least one pixel. -/
theorem uiScaled_bounds (wide : 0 < s.width) (high : 0 < s.height) {b : ℤ} (pos : 0 ≤ b) :
    uiScaled s b ≤ 1 ∨ uiScaled s b*1000 ≤ b*uiScalePm s := by
  have scale := (uiScalePm_bounds wide high).1
  have product : 0 ≤ b*uiScalePm s := mul_nonneg pos (by omega)
  rw [uiScaled, perMille_eq pos (by omega)]
  split_ifs <;> omega

theorem uiScaled_mono (wide : 0 < s.width) (high : 0 < s.height) {a b : ℤ} (pos : 0 ≤ a)
    (le : a ≤ b) : uiScaled s a ≤ uiScaled s b := by
  have scale := (uiScalePm_bounds wide high).1
  have product : a*uiScalePm s ≤ b*uiScalePm s := mul_le_mul_of_nonneg_right le (by omega)
  rw [uiScaled, uiScaled, perMille_eq pos (by omega), perMille_eq (by omega) (by omega)]
  split_ifs <;> omega

theorem pointInRect_iff {r : FbRect} : pointInRect mx my r = true ↔ r.Has mx my := by
  rw [pointInRect, decide_eq_true_iff]
  exact Iff.rfl

/-- Two slots of a row with room between them share no point. -/
theorem slot_unique {x0 pitch size p : ℤ} (le : size ≤ pitch) {i j : ℕ}
    (hi : x0 + i*pitch ≤ p ∧ p < x0 + i*pitch + size)
    (hj : x0 + j*pitch ≤ p ∧ p < x0 + j*pitch + size) : i = j := by
  have apart {i j : ℕ} (hi : x0 + i*pitch ≤ p ∧ p < x0 + i*pitch + size)
      (hj : x0 + j*pitch ≤ p ∧ p < x0 + j*pitch + size) : ¬i < j := by
    intro lt
    have next : ((i : ℤ) + 1)*pitch ≤ j*pitch :=
      mul_le_mul_of_nonneg_right (by omega) (by omega)
    rw [add_mul] at next
    omega
  exact le_antisymm (not_lt.mp (apart hj hi)) (not_lt.mp (apart hi hj))

/-- With one passing index at most, the loop finds that one and no other. -/
theorem firstHit_eq_iff {n : ℕ} {hit : ℕ → Bool}
    (unique : ∀ i j, hit i = true → hit j = true → i = j) (i : ℕ) :
    firstHit n hit = i ↔ i < n ∧ hit i = true := by
  rw [firstHit]
  cases found : (List.range n).find? hit with
  | some j =>
    have passes := List.find?_some found
    have below := List.mem_range.mp (List.mem_of_find?_eq_some found)
    constructor
    · intro eq
      obtain rfl : j = i := Int.ofNat_inj.mp eq
      exact ⟨below, passes⟩
    · intro h
      rw [unique j i passes h.2]
  | none =>
    constructor
    · intro eq
      change (-1 : ℤ) = i at eq
      omega
    · intro h
      exact absurd h.2 (List.find?_eq_none.mp found i (List.mem_range.mpr h.1))

theorem dockItem_unique (d : FbRect) (i j : ℕ)
    (hi : pointInRect mx my (dockItemRect s d i) = true)
    (hj : pointInRect mx my (dockItemRect s d j) = true) : i = j := by
  have gap := uiScaled_pos (s := s) 6
  rw [pointInRect_iff, dockItemRect, has_iff] at hi hj
  exact slot_unique (by omega) ⟨hi.1, hi.2.1⟩ ⟨hj.1, hj.2.1⟩

theorem quickTile_unique (r : FbRect) (i j : ℕ)
    (hi : pointInRect mx my (quickTileRect s r i) = true)
    (hj : pointInRect mx my (quickTileRect s r j) = true) : i = j := by
  have gap := uiScaled_pos (s := s) 8
  rw [pointInRect_iff, quickTileRect, has_iff] at hi hj
  have col : i%quickCols = j%quickCols :=
    slot_unique (by omega) ⟨hi.1, hi.2.1⟩ ⟨hj.1, hj.2.1⟩
  have row : i/quickCols = j/quickCols := slot_unique (by omega) hi.2.2 hj.2.2
  rw [← Nat.div_add_mod i quickCols, ← Nat.div_add_mod j quickCols, col, row]

theorem navRow_unique (i j : ℕ) (hi : navRow s my i = true) (hj : navRow s my j = true) :
    i = j := by
  have gap := uiScaled_pos (s := s) 6
  rw [navRow, decide_eq_true_iff] at hi hj
  refine @slot_unique _ (navItemH s) (navItemH s - uiScaled s 6) my (by omega) i j
    ⟨hi.1, ?_⟩ ⟨hj.1, ?_⟩
  · omega
  · omega

theorem dockHitTest_eq_iff (i : ℕ) : dockHitTest s mx my = i ↔ i < dockItemCount ∧
    (recomputeLayout s).dock.Has mx my ∧
      (dockItemRect s (recomputeLayout s).dock i).Has mx my := by
  rw [dockHitTest]
  by_cases inside : pointInRect mx my (recomputeLayout s).dock = true
  · rw [if_neg (by simp [inside]), firstHit_eq_iff fun i j => dockItem_unique _ i j]
    rw [pointInRect_iff] at inside ⊢
    exact ⟨fun h => ⟨h.1, inside, h.2⟩, fun h => ⟨h.1, h.2.2⟩⟩
  · rw [if_pos (by simp [inside])]
    rw [pointInRect_iff] at inside
    exact iff_of_false (by omega) fun h => inside h.2.1

theorem quickHitTest_eq_iff (i : ℕ) : quickHitTest s mx my = i ↔ i < quickRows*quickCols ∧
    (recomputeLayout s).quick.Has mx my ∧
      (quickTileRect s (recomputeLayout s).quick i).Has mx my := by
  rw [quickHitTest]
  by_cases inside : pointInRect mx my (recomputeLayout s).quick = true
  · rw [if_neg (by simp [inside]), firstHit_eq_iff fun i j => quickTile_unique _ i j]
    rw [pointInRect_iff] at inside ⊢
    exact ⟨fun h => ⟨h.1, inside, h.2⟩, fun h => ⟨h.1, h.2.2⟩⟩
  · rw [if_pos (by simp [inside])]
    rw [pointInRect_iff] at inside
    exact iff_of_false (by omega) fun h => inside h.2.1

def navRowRect (s : FbSize) (i : ℕ) : FbRect :=
  let r := (recomputeLayout s).sidebar
  ⟨r.x, navStartY s r + i*navItemH s, r.w, navItemH s - uiScaled s 6⟩

theorem sidebarNavHitTest_eq_iff (i : ℕ) : sidebarNavHitTest s mx my = i ↔
    i < navItemCount ∧ (navRowRect s i).Has mx my := by
  rw [sidebarNavHitTest]
  have row : (navRowRect s i).Has mx my ↔ ((recomputeLayout s).sidebar.x ≤ mx ∧
      mx < (recomputeLayout s).sidebar.x + (recomputeLayout s).sidebar.w) ∧
        navRow s my i = true := by
    rw [navRow, decide_eq_true_iff, navRowRect, has_iff]
    omega
  rw [row]
  by_cases outside : mx < (recomputeLayout s).sidebar.x ∨
      mx ≥ (recomputeLayout s).sidebar.x + (recomputeLayout s).sidebar.w
  · rw [if_pos outside]
    refine iff_of_false (by omega) fun h => ?_
    have inside := h.2.1
    omega
  · rw [if_neg outside, firstHit_eq_iff navRow_unique]
    have inside : (recomputeLayout s).sidebar.x ≤ mx ∧
        mx < (recomputeLayout s).sidebar.x + (recomputeLayout s).sidebar.w := by omega
    exact ⟨fun h => ⟨h.1, inside, h.2⟩, fun h => ⟨h.1, h.2.2⟩⟩

structure FbSize.Roomy (s : FbSize) : Prop where
  wide : 320 ≤ s.width
  high : 200 ≤ s.height

structure FbSize.Shows (s : FbSize) (r : FbRect) : Prop where
  left : 0 ≤ r.x
  top : 0 ≤ r.y
  wide : 0 ≤ r.w
  high : 0 ≤ r.h
  right : r.x + r.w ≤ s.width
  bottom : r.y + r.h ≤ s.height

theorem shows_iff {x y w h : ℤ} : s.Shows ⟨x, y, w, h⟩ ↔
    0 ≤ x ∧ 0 ≤ y ∧ 0 ≤ w ∧ 0 ≤ h ∧ x + w ≤ s.width ∧ y + h ≤ s.height :=
  ⟨fun h => ⟨h.left, h.top, h.wide, h.high, h.right, h.bottom⟩,
    fun h => ⟨h.1, h.2.1, h.2.2.1, h.2.2.2.1, h.2.2.2.2.1, h.2.2.2.2.2⟩⟩

def DesktopLayout.panels (l : DesktopLayout) : List FbRect :=
  [l.sidebar, l.clock, l.music, l.quick, l.notif, l.dock, l.wsw]

theorem panels_shown (roomy : s.Roomy) {r : FbRect}
    (mem : r ∈ (recomputeLayout s).panels) : s.Shows r := by
  have wide := roomy.wide
  have high := roomy.high
  have gap := uiScaled_pos (s := s) 14
  have scale := uiScalePm_bounds (s := s) (by omega) (by omega)
  have gap' := uiScaled_bounds (s := s) (by omega) (by omega) (b := 14) (by omega)
  have across (k : ℤ) (pos : 0 ≤ k) : perMille s.width k = s.width*k/1000 :=
    perMille_eq (by omega) pos
  have down (k : ℤ) (pos : 0 ≤ k) : perMille s.height k = s.height*k/1000 :=
    perMille_eq (by omega) pos
  have half : (s.width - s.width*400/1000).tdiv 2 = (s.width - s.width*400/1000)/2 :=
    Int.tdiv_eq_ediv_of_nonneg (by omega)
  rw [recomputeLayout, uiPmRight, uiPmBottom, uiPmBottomCenter] at mem
  simp only [DesktopLayout.panels, across, down, half, Nat.ofNat_nonneg, List.mem_cons,
    List.not_mem_nil, or_false] at mem
  rcases mem with rfl | rfl | rfl | rfl | rfl | rfl | rfl
  · exact shows_iff.mpr (by omega)
  · exact shows_iff.mpr (by omega)
  · exact shows_iff.mpr (by omega)
  · exact shows_iff.mpr (by omega)
  · split_ifs
    · exact shows_iff.mpr (by omega)
    · exact shows_iff.mpr (by omega)
  · exact shows_iff.mpr (by omega)
  · exact shows_iff.mpr (by omega)

end TinyOS.Desktop
