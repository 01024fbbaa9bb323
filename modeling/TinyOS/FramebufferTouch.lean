import TinyOS.FramebufferTwin
import TinyOS.PartialRuns

set_option autoImplicit false

namespace TinyOS.Display
open PartialRuns

def FbRect.Has (r : FbRect) (x y : ℤ) : Prop := r.x ≤ x ∧ x < r.x+r.w ∧ r.y ≤ y ∧ y < r.y+r.h

theorem has_iff {x y w h x' y' : ℤ} :
    FbRect.Has ⟨x, y, w, h⟩ x' y' ↔ x ≤ x' ∧ x' < x+w ∧ y ≤ y' ∧ y' < y+h := Iff.rfl

/-- The points that a call hands to `fb_put_pixel`; a clear changes every point, and a
present none of what is drawn. -/
def DrawCall.Touches : DrawCall → ℤ → ℤ → Prop
  | .clear _ => fun _ _ => True
  | .putPixel x y _ => FbRect.Has ⟨x, y, 1, 1⟩
  | .fillRect x y w h _ => FbRect.Has ⟨x, y, w, h⟩
  | .drawImage x y w h _ => FbRect.Has ⟨x, y, w, h⟩
  | .drawChar x y _ _ _ => FbRect.Has ⟨x, y, 8, 8⟩
  | .drawString x y s _ _ => FbRect.Has ⟨x, y, s.length*8, 8⟩
  | .drawCharEx x y _ _ _ scale _ => FbRect.Has ⟨x, y, 8*clampScale scale, 8*clampScale scale⟩
  | .drawStringEx x y s _ _ scale _ =>
    FbRect.Has ⟨x, y, s.length*(8*clampScale scale), 8*clampScale scale⟩
  | .present => fun _ _ => False

/-- What has been drawn at a pixel: in the draw buffer, without one on the screen. -/
def Screen.surface (g : Mode) (s : Screen) (X Y : ℕ) : UInt32 :=
  match s.buffers with
  | some b => b.draw (g.cell X Y)
  | none => loadPixel s.hw (g.place X Y) g.bytesPerPixel

def Kept (g : Mode) (X Y : ℕ) (s s' : Screen) : Prop := s'.surface g X Y = s.surface g X Y

variable {g : Mode} {X Y : ℕ} {x y : ℤ} {s s' : Screen}

theorem Kept.refl (s : Screen) : Kept g X Y s s := rfl

theorem Kept.trans (s t u : Screen) (h : Kept g X Y s t) (h' : Kept g X Y t u) : Kept g X Y s u :=
  Eq.trans h' h

theorem loadPixel_congr {hw hw' : ℕ → UInt8} {p n : ℕ} (same : ∀ i < n, hw' (p+i) = hw (p+i)) :
    loadPixel hw' p n = loadPixel hw p n := by
  unfold loadPixel
  refine List.foldl_ext _ _ _ fun px i mem => ?_
  rw [same i (List.mem_range.mp mem)]

def Mode.Elsewhere (g : Mode) (x y : ℤ) (X Y : ℕ) : Prop :=
  ¬g.Off x y → ¬(X = asUnsigned x ∧ Y = asUnsigned y)

theorem putPixel_kept (good : g.Good) (lt : X < g.w.toNat) (c : Color)
    (other : g.Elsewhere x y X Y) : Relates (Kept g X Y) (fbPutPixel g x y c) := by
  by_cases off : g.Off x y
  · rw [fbPutPixel_off g c off]
    exact .pure .refl ()
  have ne := other off
  have on := off
  rw [Mode.Off, not_or, Nat.not_le, Nat.not_le] at on
  rintro ⟨hw, buffers, force⟩ ⟨⟩ s' run
  cases buffers with
  | none =>
    rw [fbPutPixel_direct good c off rfl] at run
    obtain rfl := (Prod.mk.inj (Option.some.inj run)).2
    refine loadPixel_congr fun i small => ?_
    dsimp only
    rw [storePixel, if_neg]
    rintro ⟨lower, upper⟩
    obtain ⟨col, row, -⟩ := good.place_inj lt on.1 small
      (show g.place X Y+i-g.place (asUnsigned x) (asUnsigned y) < g.bytesPerPixel by omega)
      (show g.place X Y+i = g.place (asUnsigned x) (asUnsigned y)+
        (g.place X Y+i-g.place (asUnsigned x) (asUnsigned y)) by omega)
    exact ne ⟨col, row⟩
  | some b =>
    rw [fbPutPixel, if_neg off, good.index_eq off] at run
    change (if g.cell (asUnsigned x) (asUnsigned y) < b.cells then some ((), _) else none) = _ at run
    split_ifs at run with inside
    obtain rfl := (Prod.mk.inj (Option.some.inj run)).2
    change Function.update b.draw (g.cell (asUnsigned x) (asUnsigned y)) (g.pixelValue c)
      (g.cell X Y) = b.draw (g.cell X Y)
    exact Function.update_of_ne (fun eq => ne (Mode.cell_inj lt on.1 eq)) _ _

theorem forPoints_kept {w h : ℤ} {f : ℕ → ℕ → DrawM Unit}
    (each : ∀ dx dy : ℕ, (dx : ℤ) < w → (dy : ℤ) < h → Relates (Kept g X Y) (f dx dy)) :
    Relates (Kept g X Y) (forPoints w h f) := by
  refine .forM .refl .trans _ fun dy mem => .forM .refl .trans _ fun dx mem' => ?_
  rw [List.mem_range] at mem mem'
  exact each dx dy (by omega) (by omega)

def Mode.Misses (g : Mode) (r : FbRect) (X Y : ℕ) : Prop :=
  ∀ x y, r.Has x y → g.Elsewhere x y X Y

theorem Mode.Misses.sub {r r' : FbRect} (h : g.Misses r X Y)
    (le : ∀ x y, r'.Has x y → r.Has x y) : g.Misses r' X Y :=
  fun x y has => h x y (le x y has)

variable {font : Font} {fg bg : Color}

theorem fillRect_kept (good : g.Good) (lt : X < g.w.toNat) (c : Color) {w h : ℤ}
    (misses : g.Misses ⟨x, y, w, h⟩ X Y) : Relates (Kept g X Y) (fbFillRect g x y w h c) := by
  refine .ite (fun _ => .pure .refl ()) fun _ => forPoints_kept fun dx dy hx hy => ?_
  exact putPixel_kept good lt c (misses _ _ (has_iff.mpr (by omega)))

theorem drawImage_kept (good : g.Good) (lt : X < g.w.toNat) (pixels : ℕ → Color) {w h : ℤ}
    (misses : g.Misses ⟨x, y, w, h⟩ X Y) :
    Relates (Kept g X Y) (fbDrawImage g x y w h pixels) := by
  refine .ite (fun _ => .pure .refl ()) fun _ => forPoints_kept fun dx dy hx hy => ?_
  exact putPixel_kept good lt _ (misses _ _ (has_iff.mpr (by omega)))

theorem drawChar_kept (good : g.Good) (lt : X < g.w.toNat) (ch : UInt8)
    (misses : g.Misses ⟨x, y, 8, 8⟩ X Y) :
    Relates (Kept g X Y) (fbDrawChar g font x y ch fg bg) := by
  refine forPoints_kept fun col row hc hr => putPixel_kept good lt _ (misses _ _ ?_)
  exact has_iff.mpr (by omega)

theorem drawChars_kept (good : g.Good) (lt : X < g.w.toNat) (i : ℕ) (l : List UInt8)
    (misses : g.Misses ⟨x+i*8, y, l.length*8, 8⟩ X Y) :
    Relates (Kept g X Y) (drawChars g font x y fg bg i l) := by
  induction l generalizing i with
  | nil => exact .pure .refl ()
  | cons ch rest ih =>
    rw [List.length_cons] at misses
    refine .bind .trans (drawChar_kept good lt ch (misses.sub fun x' y' has => ?_)) fun _ =>
      ih (i+1) (misses.sub fun x' y' has => ?_)
    · rw [has_iff] at has ⊢
      omega
    · rw [has_iff] at has ⊢
      omega

theorem clampScale_pos (scale : ℤ) : 1 ≤ clampScale scale := by
  rw [clampScale]
  split_ifs <;> omega

theorem scaled_lt {n : ℕ} {k scale : ℤ} (pos : 1 ≤ scale) (lt : (n : ℤ) < 8) (lt' : k < scale) :
    n*scale+k < 8*scale := by
  have le : ((n : ℤ)+1)*scale ≤ 8*scale := mul_le_mul_of_nonneg_right (by omega) (by omega)
  rw [add_mul, one_mul] at le
  omega

theorem drawCharEx_kept (good : g.Good) (lt : X < g.w.toNat) (ch : UInt8) (scale : ℤ)
    (transparent : Bool)
    (misses : g.Misses ⟨x, y, 8*clampScale scale, 8*clampScale scale⟩ X Y) :
    Relates (Kept g X Y) (fbDrawCharEx g font x y ch fg bg scale transparent) := by
  have pos := clampScale_pos scale
  refine forPoints_kept fun col row hc hr => .ite (fun _ => .pure .refl ()) fun _ =>
    forPoints_kept fun sx sy hx hy => putPixel_kept good lt _ (misses _ _ ?_)
  have right := scaled_lt pos hc hx
  have low := scaled_lt pos hr hy
  have left : 0 ≤ (col : ℤ)*clampScale scale := by positivity
  have top : 0 ≤ (row : ℤ)*clampScale scale := by positivity
  exact has_iff.mpr (by omega)

theorem drawCharsEx_kept (good : g.Good) (lt : X < g.w.toNat) {scale : ℤ}
    (clamped : clampScale scale = scale) (transparent : Bool) (i : ℕ) (l : List UInt8)
    (misses : g.Misses ⟨x+i*(8*scale), y, l.length*(8*scale), 8*scale⟩ X Y) :
    Relates (Kept g X Y) (drawCharsEx g font x y fg bg scale transparent i l) := by
  have pos := clampScale_pos scale
  rw [clamped] at pos
  induction l generalizing i with
  | nil => exact .pure .refl ()
  | cons ch rest ih =>
    rw [List.length_cons] at misses
    push_cast at misses
    have first : 0 ≤ (rest.length : ℤ)*(8*scale) := by positivity
    refine .bind .trans (drawCharEx_kept good lt ch scale transparent ?_) fun _ =>
      ih (i+1) (misses.sub fun x' y' has => ?_)
    · rw [clamped]
      refine misses.sub fun x' y' has => ?_
      rw [has_iff] at has ⊢
      rw [add_mul, one_mul]
      omega
    · push_cast at has
      rw [has_iff, add_mul, one_mul] at has
      rw [has_iff, add_mul, one_mul]
      omega

def Undrawn (s s' : Screen) : Prop :=
  s'.buffers.map (fun b => b.draw) = s.buffers.map fun b => b.draw

theorem Undrawn.refl (s : Screen) : Undrawn s s := rfl

theorem Undrawn.trans (s t u : Screen) (h : Undrawn s t) (h' : Undrawn t u) : Undrawn s u :=
  Eq.trans h' h

theorem get_undrawn : Relates Undrawn (get : DrawM Screen) := by
  intro s a s' run
  obtain rfl := (Prod.mk.inj (Option.some.inj run)).2
  rfl

theorem writeHw_undrawn (p n : ℕ) (px : UInt32) : Relates Undrawn (writeHw p n px) := by
  intro s a s' run
  obtain rfl := (Prod.mk.inj (Option.some.inj run)).2
  rfl

theorem writeDisplay_undrawn (i : ℕ) (px : UInt32) : Relates Undrawn (writeDisplay i px) := by
  rintro ⟨hw, buffers, force⟩ ⟨⟩ s' run
  cases buffers with
  | none => exact absurd run (by intro h; cases h)
  | some b =>
    change (if i < b.cells then some ((), _) else none) = _ at run
    split_ifs at run
    obtain rfl := (Prod.mk.inj (Option.some.inj run)).2
    rfl

theorem blitPixel_undrawn (col row : ℤ) : Relates Undrawn (blitPixel g col row) := by
  refine .bind .trans get_undrawn fun s => ?_
  cases s.buffers with
  | none => exact .pure .refl ()
  | some b =>
    refine .ite (fun _ => .ite (fun _ => ?_) fun _ => .pure .refl ()) fun _ => ?_
    · exact .bind .trans (writeHw_undrawn _ _ _) fun _ => writeDisplay_undrawn _ _
    · exact fun s a s' run => absurd run (by intro h; cases h)

theorem forPoints_undrawn {w h : ℤ} {f : ℕ → ℕ → DrawM Unit}
    (each : ∀ dx dy, Relates Undrawn (f dx dy)) : Relates Undrawn (forPoints w h f) :=
  .forM .refl .trans _ fun dy _ => .forM .refl .trans _ fun dx _ => each dx dy

theorem blitRect_undrawn (x y w h : ℤ) : Relates Undrawn (blitRect g x y w h) := by
  refine .bind .trans get_undrawn fun s => .ite (fun _ => .pure .refl ()) fun _ => ?_
  refine .ite (fun _ => .pure .refl ()) fun _ => .ite (fun _ => .pure .refl ()) fun _ => ?_
  exact forPoints_undrawn fun col row => blitPixel_undrawn _ _

theorem presentRects_undrawn (rects : List FbRect) : Relates Undrawn (fbPresentRects g rects) := by
  refine .bind .trans get_undrawn fun s => .ite (fun _ => .pure .refl ()) fun _ => ?_
  refine .bind .trans (.forM .refl .trans _ fun r _ => blitRect_undrawn _ _ _ _) fun _ => ?_
  intro s a s' run
  obtain rfl := (Prod.mk.inj (Option.some.inj run)).2
  rfl

theorem present_undrawn : Relates Undrawn (fbPresent g) :=
  .bind .trans get_undrawn fun _ => .ite (fun _ => .pure .refl ()) fun _ =>
    presentRects_undrawn _

theorem present_kept : Relates (Kept g X Y) (fbPresent g) := by
  intro s a s' run
  have undrawn := present_undrawn s a s' run
  cases none : s.buffers with
  | none =>
    have now : (fbPresent g).run s = some ((), s) := by
      obtain ⟨hw, buffers, force⟩ := s
      obtain rfl : buffers = Option.none := none
      rfl
    obtain rfl := (Prod.mk.inj (Option.some.inj (now.symm.trans run))).2
    rfl
  | some b =>
    rw [Undrawn, none, Option.map_some, Option.map_eq_some_iff] at undrawn
    obtain ⟨b', buffers, draw⟩ := undrawn
    rw [Kept, Screen.surface, Screen.surface, none, buffers]
    exact congrFun draw _

/-- A call leaves alone what is drawn at the pixels that none of its points is. -/
theorem perform_kept (good : g.Good) (lt : X < g.w.toNat) (lt' : Y < g.h.toNat) (call : DrawCall)
    (misses : ∀ x y, call.Touches x y → g.Elsewhere x y X Y) :
    Relates (Kept g X Y) (call.perform g font) := by
  cases call with
  | clear c =>
    obtain ⟨on, col, row⟩ := good.on lt lt'
    exact absurd ⟨col.symm, row.symm⟩ (misses X Y trivial on)
  | putPixel x y c => exact putPixel_kept good lt c (misses x y (has_iff.mpr (by omega)))
  | fillRect x y w h c => exact fillRect_kept good lt c misses
  | drawImage x y w h pixels => exact drawImage_kept good lt pixels misses
  | drawChar x y ch fg bg => exact drawChar_kept good lt ch misses
  | drawString x y l fg bg =>
    refine drawChars_kept good lt 0 l fun x' y' has => misses x' y' ?_
    rw [has_iff] at has
    exact has_iff.mpr (by omega)
  | drawCharEx x y ch fg bg scale transparent =>
    exact drawCharEx_kept good lt ch scale transparent misses
  | drawStringEx x y l fg bg scale transparent =>
    have clamped : clampScale (clampScale scale) = clampScale scale :=
      if_neg (not_lt.mpr (clampScale_pos scale))
    refine drawCharsEx_kept good lt clamped transparent 0 l fun x' y' has => misses x' y' ?_
    rw [has_iff] at has
    exact has_iff.mpr (by omega)
  | present => exact present_kept

end TinyOS.Display
