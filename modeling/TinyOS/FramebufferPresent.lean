import TinyOS.FramebufferTouch

set_option autoImplicit false

/-! Presenting only the rectangles that have changed (`fb_present_rects`). A rectangle is of
integers; below 2^30 no sum of its fields overflows an `int`. -/
namespace TinyOS.Display
open Memory PartialRuns TwinRuns

/-- A call after `fb_enable_backbuffer`. -/
inductive ScreenCall where
  | draw (call : DrawCall)
  | presentRects (rects : List FbRect)

def ScreenCall.perform (g : Mode) (font : Font) : ScreenCall → DrawM Unit
  | .draw call => call.perform g font
  | .presentRects rects => fbPresentRects g rects

def presenting (g : Mode) (font : Font) (first : List DrawCall) (calls : List ScreenCall) :
    DrawM Unit := do
  first.forM fun call => call.perform g font
  fbPresent g
  calls.forM fun call => call.perform g font

def Mode.shown (g : Mode) (hw : ℕ → UInt8) (X Y : ℕ) : UInt32 :=
  loadPixel hw (g.place X Y) g.bytesPerPixel

/-- `display_buf` is what the framebuffer shows. -/
def Mode.Synced (g : Mode) (t : Screen) : Prop :=
  ∃ b, t.buffers = some b ∧ ∀ X Y, X < g.w.toNat → Y < g.h.toNat →
    b.display (g.cell X Y) = g.shown t.hw X Y

def Covered (rects : List FbRect) (X Y : ℕ) : Prop := ∃ r ∈ rects, r.Has X Y

/-- The program shows what is drawn in the rectangles, and leaves the other pixels as they are. -/
def Mode.Presents (g : Mode) (rects : List FbRect) (p : DrawM Unit) (t : Screen) : Prop :=
  ∃ t' b b', p.run t = some ((), t') ∧ t.buffers = some b ∧ t'.buffers = some b' ∧
    b'.draw = b.draw ∧ ∀ X Y, X < g.w.toNat → Y < g.h.toNat →
      (Covered rects X Y → g.shown t'.hw X Y = b.draw (g.cell X Y)) ∧
      (¬Covered rects X Y → g.shown t'.hw X Y = g.shown t.hw X Y)

structure Beyond where
  hw : ℕ → UInt8
  draw : ℕ → UInt32
  display : ℕ → UInt32

def upTo {α : Type} (n : ℕ) (f rest : ℕ → α) (i : ℕ) : α := if i < n then f i else rest i

def Buffers.beyond (g : Mode) (e : Beyond) (b : Buffers) : Buffers where
  draw := upTo (g.w.toNat*g.h.toNat) b.draw e.draw
  display := upTo (g.w.toNat*g.h.toNat) b.display e.display
  cells := b.cells

def Screen.beyond (g : Mode) (e : Beyond) (s : Screen) : Screen where
  hw := upTo (g.pitch.toNat*g.h.toNat) s.hw e.hw
  buffers := s.buffers.map fun b => b.beyond g e
  forceFull := s.forceFull

def Mode.Confines (g : Mode) (p : DrawM Unit) (s : Screen) : Prop :=
  ∀ e, p.run (s.beyond g e) = (p.run s).map fun r => (r.1, r.2.beyond g e)

variable {g : Mode} {font : Font} {s t t' : Screen} {b b' : Buffers} {X Y : ℕ}

def clipStart (x : ℤ) : ℕ := (max x 0).toNat

def clipLength (x w : ℤ) (n : ℕ) : ℕ := (min (x+w) n-max x 0).toNat

theorem clip_iff {x w : ℤ} {n i : ℕ} :
    (∃ j < clipLength x w n, i = clipStart x+j) ↔ i < n ∧ x ≤ i ∧ i < x+w := by
  rw [clipLength, clipStart]
  constructor
  · rintro ⟨j, lt, rfl⟩
    omega
  · rintro ⟨lt, left, right⟩
    exact ⟨i-(max x 0).toNat, by omega, by omega⟩

theorem clip_lt {x w : ℤ} {n j : ℕ} (lt : j < clipLength x w n) : clipStart x+j < n :=
  (clip_iff.mp ⟨j, lt, rfl⟩).1

/-- The loops of `blit_rect`. -/
def blitClipped (g : Mode) (r : FbRect) : DrawM Unit :=
  (List.range (clipLength r.y r.h g.h.toNat)).forM fun row =>
    (List.range (clipLength r.x r.w g.w.toNat)).forM fun col =>
      blitPixel g (clipStart r.x+col : ℕ) (clipStart r.y+row : ℕ)

theorem forM_idle (n : ℕ) : ((List.range n).forM fun _ => (pure () : DrawM Unit)) = pure () := by
  induction List.range n with
  | nil => rfl
  | cons i rest ih => exact ih

theorem blitClipped_empty {r : FbRect} (empty : clipLength r.x r.w g.w.toNat = 0 ∨
    clipLength r.y r.h g.h.toNat = 0) : blitClipped g r = pure () := by
  rw [blitClipped]
  rcases empty with zero | zero
  · rw [zero]
    exact forM_idle _
  · rw [zero]
    rfl

theorem clipStart_cast (x : ℤ) (i : ℕ) : ((clipStart x+i : ℕ) : ℤ) = max x 0+i := by
  rw [clipStart]
  omega

/-- The clipped bounds of `blit_rect` are those of the part on the screen. -/
theorem clipped_length (x w : ℤ) (n : ℕ) :
    (if (n : ℤ) < max x 0+(if x < 0 then w+x else w) then (n : ℤ)-max x 0
      else if x < 0 then w+x else w) = min (x+w) n-max x 0 := by
  have moved : (if x < 0 then w+x else w) = x+w-max x 0 := by
    split_ifs
    · omega
    · omega
  rw [moved]
  split_ifs
  · omega
  · omega

theorem blitRect_eq (good : g.Good) (r : FbRect) : blitRect g r.x r.y r.w r.h = (do
    let s ← get
    if s.buffers.isNone ∨ g.addr = 0 then return ()
    blitClipped g r : DrawM Unit) := by
  obtain ⟨wide, high⟩ := good.asInt
  obtain ⟨x, y, w, h⟩ := r
  rw [blitRect, wide, high]
  refine congrArg (bind get) (funext fun s => ?_)
  by_cases off : s.buffers.isNone ∨ g.addr = 0
  · rw [if_pos off, if_pos off]
  rw [if_neg off, if_neg off]
  dsimp only
  rw [clipped_length, clipped_length]
  by_cases outside : (g.w.toNat : ℤ) ≤ max x 0 ∨ (g.h.toNat : ℤ) ≤ max y 0
  · rw [if_pos outside, blitClipped_empty]
    dsimp only [clipLength]
    omega
  rw [if_neg outside]
  by_cases empty : min (x+w) g.w.toNat-max x 0 ≤ 0 ∨ min (y+h) g.h.toNat-max y 0 ≤ 0
  · rw [if_pos empty, blitClipped_empty]
    dsimp only [clipLength]
    omega
  · rw [if_neg empty]
    dsimp only [blitClipped, forPoints, clipLength]
    simp only [clipStart_cast]

/-- There are buffers with room for all pixels, and what is drawn are pixels. -/
structure Backed (g : Mode) (t : Screen) (b : Buffers) : Prop where
  buffers : t.buffers = some b
  room : g.w.toNat*g.h.toNat ≤ b.cells
  drawn : ∀ i < g.w.toNat*g.h.toNat, (b.draw i).toNat < 256^g.bytesPerPixel

def Mode.Paints (g : Mode) (p : DrawM Unit) : Prop := ∀ t b, Backed g t b →
  ∃ t' b', p.run t = some ((), t') ∧ Backed g t' b' ∧ b'.display = b.display ∧
    t'.hw = t.hw ∧ t'.forceFull = t.forceFull

theorem paints_idle (g : Mode) : g.Paints (pure ()) :=
  fun t b backed => ⟨t, b, rfl, backed, rfl, rfl, rfl⟩

theorem Mode.Paints.bind {p q : DrawM Unit} (hp : g.Paints p) (hq : g.Paints q) :
    g.Paints (p >>= fun _ => q) := by
  intro t b backed
  obtain ⟨t₁, b₁, run, backed₁, display, hw, force⟩ := hp t b backed
  obtain ⟨t₂, b₂, run', backed₂, display', hw', force'⟩ := hq t₁ b₁ backed₁
  exact ⟨t₂, b₂, (bind_some run).trans run', backed₂, display'.trans display, hw'.trans hw,
    force'.trans force⟩

theorem putPixel_paints (good : g.Good) (x y : ℤ) (c : Color) : g.Paints (fbPutPixel g x y c) := by
  by_cases off : g.Off x y
  · rw [fbPutPixel_off g c off]
    exact paints_idle g
  intro t b backed
  refine ⟨_, _, fbPutPixel_buffer good c off backed.buffers backed.room, ⟨rfl, backed.room, ?_⟩,
    rfl, rfl, rfl⟩
  intro i lt
  dsimp only
  by_cases here : i = g.cell (asUnsigned x) (asUnsigned y)
  · rw [here, Function.update_self]
    exact good.pixelValue_lt c
  · rw [Function.update_of_ne here]
    exact backed.drawn i lt

theorem clear_paints (good : g.Good) (c : Color) : g.Paints (fbClear g c) := by
  intro t b backed
  obtain ⟨draw, run, all⟩ := clear_buffer g c backed.buffers backed.room
  refine ⟨_, _, run, ⟨rfl, backed.room, fun i lt => ?_⟩, rfl, rfl, rfl⟩
  dsimp only
  rw [all i lt]
  exact good.pixelValue_lt c

theorem perform_paints (good : g.Good) {call : DrawCall} (draws : call ≠ .present) :
    g.Paints (call.perform g font) :=
  perform_of (paints_idle g) Mode.Paints.bind (putPixel_paints good) (clear_paints good) draws

variable {done done' : ℕ → ℕ → Prop} {rects : List FbRect}

theorem Blitted.mono (h : Blitted g t b done t' b')
    (sub : ∀ X Y, X < g.w.toNat → Y < g.h.toNat → done' X Y → done X Y) :
    Blitted g t b done' t' b' :=
  { h with done := fun X Y lt lt' here => h.done X Y lt lt' (sub X Y lt lt' here) }

theorem blitClipped_blitted (good : g.Good) (room : g.w.toNat*g.h.toNat ≤ b.cells) (r : FbRect)
    (before : Blitted g t b done t' b') :
    ∃ t'', (blitClipped g r).run t' = some ((), t'') ∧
      ∃ b'', Blitted g t b (fun X Y => done X Y ∨ r.Has X Y) t'' b'' := by
  obtain ⟨t'', run, b'', last⟩ := nested_invariant
    (f := fun col row => blitPixel g (clipStart r.x+col : ℕ) (clipStart r.y+row : ℕ))
    (fun d t'' => ∃ b'', Blitted g t b (fun X Y => done X Y ∨
      ∃ col row, d col row ∧ X = clipStart r.x+col ∧ Y = clipStart r.y+row) t'' b'')
    (clipLength r.x r.w g.w.toNat) (clipLength r.y r.h g.h.toNat)
    (fun d col row t'' lt lt' blitted => by
      obtain ⟨b'', blitted⟩ := blitted
      obtain ⟨t₁, run, b₁, next⟩ := blitPixel_blitted good room (clip_lt lt) (clip_lt lt') blitted
      refine ⟨t₁, run, b₁, next.mono fun X Y _ _ here => ?_⟩
      rcases here with old | ⟨col', row', old | ⟨rfl, rfl⟩, rfl, rfl⟩
      · exact .inl (.inl old)
      · exact .inl (.inr ⟨col', row', old, rfl, rfl⟩)
      · exact .inr ⟨rfl, rfl⟩)
    (fun sub blitted => by
      obtain ⟨b'', blitted⟩ := blitted
      refine ⟨b'', blitted.mono fun X Y _ _ here => here.imp id ?_⟩
      rintro ⟨col, row, some, place⟩
      exact ⟨col, row, sub col row some, place⟩)
    (s := t') ⟨b', before.mono fun X Y _ _ here => here.resolve_right (by
      rintro ⟨col, row, none, -⟩
      exact none)⟩
  refine ⟨t'', run, b'', last.mono fun X Y lt lt' here => here.imp id fun has => ?_⟩
  obtain ⟨left, right, top, bottom⟩ := has
  obtain ⟨col, ltCol, eq⟩ := clip_iff.mpr ⟨lt, left, right⟩
  obtain ⟨row, ltRow, eq'⟩ := clip_iff.mpr ⟨lt', top, bottom⟩
  exact ⟨col, row, ⟨ltCol, ltRow⟩, eq, eq'⟩

theorem blitRect_blitted (good : g.Good) (mapped : g.addr ≠ 0)
    (room : g.w.toNat*g.h.toNat ≤ b.cells) (r : FbRect) (before : Blitted g t b done t' b') :
    ∃ t'', (blitRect g r.x r.y r.w r.h).run t' = some ((), t'') ∧
      ∃ b'', Blitted g t b (fun X Y => done X Y ∨ r.Has X Y) t'' b'' := by
  have now : (get : DrawM Screen).run t' = some (t', t') := rfl
  have some : ¬(t'.buffers.isNone ∨ g.addr = 0) := by
    rw [before.buffers]
    exact not_or.mpr ⟨Bool.false_ne_true, mapped⟩
  rw [blitRect_eq good, bind_some now, if_neg some]
  exact blitClipped_blitted good room r before

/-- `display_buf` holds the pixels of the framebuffer. -/
def Mode.Shadowed (g : Mode) (t : Screen) (b : Buffers) : Prop :=
  ∀ X Y, X < g.w.toNat → Y < g.h.toNat → g.Shows t.hw X Y (b.display (g.cell X Y)) ∧
    (b.display (g.cell X Y)).toNat < 256^g.bytesPerPixel

theorem presentRects_blitted (good : g.Good) (mapped : g.addr ≠ 0) (backed : Backed g t b)
    (presented : t.forceFull = true ∨ g.Shadowed t b) (rects : List FbRect) :
    ∃ t' b', Blitted g t b (Covered rects) t' b' ∧ (fbPresentRects g rects).run t =
      some ((), { t' with forceFull := t.forceFull && rects.isEmpty }) := by
  obtain ⟨t', run, b', last⟩ := forM_invariant
    (f := fun r : FbRect => blitRect g r.x r.y r.w r.h)
    (fun done t' => ∃ b', Blitted g t b (Covered done) t' b') rects
    (fun done r t' _ before => by
      obtain ⟨b', before⟩ := before
      obtain ⟨t'', run, b'', next⟩ := blitRect_blitted good mapped backed.room r before
      refine ⟨t'', run, b'', next.mono fun X Y _ _ here => ?_⟩
      obtain ⟨r', mem, has⟩ := here
      rcases List.mem_append.mp mem with old | new
      · exact .inl ⟨r', old, has⟩
      · exact .inr (List.mem_singleton.mp new ▸ has))
    (s := t) ⟨b, backed.buffers, rfl, rfl, rfl,
      presented.imp id fun shadowed X Y lt lt' => (shadowed X Y lt lt').1,
      fun X Y _ _ none => by
        obtain ⟨r, mem, -⟩ := none
        exact absurd mem List.not_mem_nil⟩
  have now : (get : DrawM Screen).run t = some (t, t) := rfl
  have some : ¬t.buffers.isNone = true := by
    rw [backed.buffers]
    exact Bool.false_ne_true
  refine ⟨t', b', last, ?_⟩
  rw [fbPresentRects, bind_some now]
  cases rects with
  | nil =>
    rw [if_pos (.inr rfl)]
    obtain rfl := (Prod.mk.inj (Option.some.inj run)).2
    rw [List.isEmpty_nil, Bool.and_true]
    rfl
  | cons r rest =>
    rw [if_neg (not_or.mpr ⟨some, List.cons_ne_nil _ _⟩), bind_some run, List.isEmpty_cons,
      Bool.and_false]
    rfl

/-- The pixel is on the framebuffer and in `display_buf` as before. -/
def Unsent (g : Mode) (X Y : ℕ) (s s' : Screen) : Prop :=
  (∀ i < g.bytesPerPixel, s'.hw (g.place X Y+i) = s.hw (g.place X Y+i)) ∧
    s'.buffers.map (fun b => b.display (g.cell X Y)) =
      s.buffers.map fun b => b.display (g.cell X Y)

theorem Unsent.refl (s : Screen) : Unsent g X Y s s := ⟨fun _ _ => rfl, rfl⟩

theorem Unsent.trans (s t u : Screen) (h : Unsent g X Y s t) (h' : Unsent g X Y t u) :
    Unsent g X Y s u :=
  ⟨fun i small => (h'.1 i small).trans (h.1 i small), h'.2.trans h.2⟩

theorem get_unsent : Relates (Unsent g X Y) (get : DrawM Screen) := by
  intro s a s' run
  obtain rfl := (Prod.mk.inj (Option.some.inj run)).2
  exact .refl s

variable {X' Y' : ℕ}

theorem writeHw_unsent (good : g.Good) (lt : X < g.w.toNat) (lt' : X' < g.w.toNat)
    (ne : ¬(X = X' ∧ Y = Y')) (px : UInt32) :
    Relates (Unsent g X Y) (writeHw (g.place X' Y') g.bytesPerPixel px) := by
  intro s a s' run
  obtain rfl := (Prod.mk.inj (Option.some.inj run)).2
  refine ⟨fun i small => ?_, rfl⟩
  dsimp only
  rw [storePixel, if_neg]
  rintro ⟨lower, upper⟩
  obtain ⟨col, row, -⟩ := good.place_inj lt lt' small
    (show g.place X Y+i-g.place X' Y' < g.bytesPerPixel by omega)
    (show g.place X Y+i = g.place X' Y'+(g.place X Y+i-g.place X' Y') by omega)
  exact ne ⟨col, row⟩

theorem writeDisplay_unsent (lt : X < g.w.toNat) (lt' : X' < g.w.toNat)
    (ne : ¬(X = X' ∧ Y = Y')) (px : UInt32) :
    Relates (Unsent g X Y) (writeDisplay (g.cell X' Y') px) := by
  rintro ⟨hw, buffers, force⟩ ⟨⟩ s' run
  cases buffers with
  | none => exact absurd run (by intro h; cases h)
  | some b =>
    change (if g.cell X' Y' < b.cells then some ((), _) else none) = _ at run
    split_ifs at run
    obtain rfl := (Prod.mk.inj (Option.some.inj run)).2
    refine ⟨fun _ _ => rfl, congrArg some ?_⟩
    exact Function.update_of_ne (fun eq => ne (Mode.cell_inj lt lt' eq)) _ _

theorem blitPixel_unsent (good : g.Good) (lt : X < g.w.toNat) (lt' : X' < g.w.toNat)
    (lt'' : Y' < g.h.toNat) (ne : ¬(X = X' ∧ Y = Y')) :
    Relates (Unsent g X Y) (blitPixel g X' Y') := by
  obtain ⟨on, col, row⟩ := good.on lt' lt''
  rw [blitPixel, good.index_eq on, good.offset_eq on, good.bytes_stored, col, row]
  refine .bind .trans get_unsent fun s => ?_
  cases s.buffers with
  | none => exact .pure .refl ()
  | some b =>
    refine .ite (fun _ => .ite (fun _ => ?_) fun _ => .pure .refl ()) fun _ => ?_
    · exact .bind .trans (writeHw_unsent good lt lt' ne _) fun _ =>
        writeDisplay_unsent lt lt' ne _
    · exact fun s a s' run => absurd run (by intro h; cases h)

theorem blitRect_unsent (good : g.Good) (lt : X < g.w.toNat) {r : FbRect} (outside : ¬r.Has X Y) :
    Relates (Unsent g X Y) (blitRect g r.x r.y r.w r.h) := by
  rw [blitRect_eq good]
  refine .bind .trans get_unsent fun s => .ite (fun _ => .pure .refl ()) fun _ => ?_
  refine .forM .refl .trans _ fun row mem => .forM .refl .trans _ fun col mem' => ?_
  rw [List.mem_range] at mem mem'
  refine blitPixel_unsent good lt (clip_lt mem') (clip_lt mem) ?_
  rintro ⟨rfl, rfl⟩
  obtain ⟨-, left, right⟩ := clip_iff.mp ⟨col, mem', rfl⟩
  obtain ⟨-, top, bottom⟩ := clip_iff.mp ⟨row, mem, rfl⟩
  exact outside ⟨left, right, top, bottom⟩

theorem presentRects_unsent (good : g.Good) (lt : X < g.w.toNat) (outside : ¬Covered rects X Y) :
    Relates (Unsent g X Y) (fbPresentRects g rects) := by
  refine .bind .trans get_unsent fun s => .ite (fun _ => .pure .refl ()) fun _ => ?_
  refine .bind .trans (.forM .refl .trans _ fun r mem => blitRect_unsent good lt fun has =>
    outside ⟨r, mem, has⟩) fun _ => ?_
  intro s a s' run
  obtain rfl := (Prod.mk.inj (Option.some.inj run)).2
  exact .refl s

theorem presentRects_spec (good : g.Good) (mapped : g.addr ≠ 0) (backed : Backed g t b)
    (presented : t.forceFull = true ∨ g.Shadowed t b) (rects : List FbRect) :
    ∃ t' b', (fbPresentRects g rects).run t = some ((), t') ∧ Backed g t' b' ∧ b'.draw = b.draw ∧
      t'.forceFull = (t.forceFull && rects.isEmpty) ∧
      ∀ X Y, X < g.w.toNat → Y < g.h.toNat →
        (Covered rects X Y → g.Shows t'.hw X Y (b.draw (g.cell X Y)) ∧
          b'.display (g.cell X Y) = b.draw (g.cell X Y)) ∧
        (¬Covered rects X Y →
          (∀ i < g.bytesPerPixel, t'.hw (g.place X Y+i) = t.hw (g.place X Y+i)) ∧
          b'.display (g.cell X Y) = b.display (g.cell X Y)) := by
  obtain ⟨t', b', blitted, run⟩ := presentRects_blitted good mapped backed presented rects
  refine ⟨_, b', run, ⟨blitted.buffers, blitted.cells.symm ▸ backed.room,
    blitted.draw.symm ▸ backed.drawn⟩, blitted.draw, rfl, fun X Y lt lt' =>
    ⟨blitted.done X Y lt lt', fun outside => ?_⟩⟩
  obtain ⟨bytes, display⟩ := presentRects_unsent good lt outside _ _ _ run
  rw [backed.buffers, blitted.buffers] at display
  exact ⟨bytes, Option.some.inj display⟩

theorem shown_of_shows (good : g.Good) {hw : ℕ → UInt8} {px : UInt32} (shows : g.Shows hw X Y px)
    (small : px.toNat < 256^g.bytesPerPixel) : g.shown hw X Y = px :=
  loadPixel_eq good.le_four.2 small shows

theorem presentRects_presents (good : g.Good) (mapped : g.addr ≠ 0) (backed : Backed g t b)
    (presented : t.forceFull = true ∨ g.Shadowed t b) (rects : List FbRect) :
    g.Presents rects (fbPresentRects g rects) t := by
  obtain ⟨t', b', run, backed', draw, -, pixels⟩ :=
    presentRects_spec good mapped backed presented rects
  refine ⟨t', b, b', run, backed.buffers, backed'.buffers, draw, fun X Y lt lt' => ⟨?_, ?_⟩⟩
  · intro covered
    have shows := ((pixels X Y lt lt').1 covered).1
    exact shown_of_shows good shows (backed.drawn _ (Mode.cell_lt lt lt'))
  · intro outside
    exact loadPixel_congr ((pixels X Y lt lt').2 outside).1

/-- The rectangle of `fb_present`. -/
def Mode.full (g : Mode) : FbRect := ⟨0, 0, asInt g.w.toNat, asInt g.h.toNat⟩

theorem Mode.Good.full_covers (good : g.Good) (lt : X < g.w.toNat) (lt' : Y < g.h.toNat) :
    Covered [g.full] X Y := by
  obtain ⟨wide, high⟩ := good.asInt
  refine ⟨g.full, List.mem_cons_self, ?_⟩
  rw [Mode.full, wide, high]
  exact has_iff.mpr (by omega)

theorem present_run (buffers : t.buffers = some b) :
    (fbPresent g).run t = (fbPresentRects g [g.full]).run t := by
  have now : (get : DrawM Screen).run t = some (t, t) := rfl
  rw [fbPresent, bind_some now, buffers]
  rfl

/-- Before the first present every pixel is still to be sent; after it the framebuffer shows what
is in `display_buf`. -/
structure Pending (g : Mode) (t : Screen) (b : Buffers) : Prop extends Backed g t b where
  presented : t.forceFull = true ∨ g.Shadowed t b

structure Presented (g : Mode) (t : Screen) (b : Buffers) : Prop extends Backed g t b where
  shadowed : g.Shadowed t b
  unforced : t.forceFull = false

theorem Presented.pending (h : Presented g t b) : Pending g t b := ⟨h.toBacked, .inr h.shadowed⟩

theorem Presented.synced (good : g.Good) (h : Presented g t b) : g.Synced t := by
  refine ⟨b, h.buffers, fun X Y lt lt' => ?_⟩
  obtain ⟨shows, small⟩ := h.shadowed X Y lt lt'
  exact (shown_of_shows good shows small).symm

/-- A present keeps `display_buf` the shadow of the framebuffer where each pixel is sent or was
shadowed before. -/
theorem presentRects_shadowed (good : g.Good) (mapped : g.addr ≠ 0) (pending : Pending g t b)
    (every : g.Shadowed t b ∨ ∀ X Y, X < g.w.toNat → Y < g.h.toNat → Covered rects X Y) :
    ∃ t' b', (fbPresentRects g rects).run t = some ((), t') ∧ Backed g t' b' ∧
      g.Shadowed t' b' ∧ t'.forceFull = (t.forceFull && rects.isEmpty) := by
  obtain ⟨t', b', run, backed, -, force, pixels⟩ :=
    presentRects_spec good mapped pending.toBacked pending.presented rects
  refine ⟨t', b', run, backed, fun X Y lt lt' => ?_, force⟩
  by_cases covered : Covered rects X Y
  · obtain ⟨shows, eq⟩ := (pixels X Y lt lt').1 covered
    rw [eq]
    exact ⟨shows, pending.drawn _ (Mode.cell_lt lt lt')⟩
  · obtain ⟨bytes, eq⟩ := (pixels X Y lt lt').2 covered
    have shadowed := every.resolve_right fun all => covered (all X Y lt lt')
    obtain ⟨shows, small⟩ := shadowed X Y lt lt'
    rw [eq]
    exact ⟨fun i le => (bytes i le).trans (shows i le), small⟩

theorem present_presented (good : g.Good) (mapped : g.addr ≠ 0) (pending : Pending g t b) :
    ∃ t', (fbPresent g).run t = some ((), t') ∧ ∃ b', Presented g t' b' := by
  obtain ⟨t', b', run, backed, shadowed, force⟩ := presentRects_shadowed good mapped pending
    (.inr fun X Y lt lt' => good.full_covers lt lt')
  rw [List.isEmpty_cons, Bool.and_false] at force
  rw [present_run pending.buffers]
  exact ⟨t', run, b', backed, shadowed, force⟩

theorem presentRects_presented (good : g.Good) (mapped : g.addr ≠ 0) (before : Presented g t b)
    (rects : List FbRect) :
    ∃ t', (fbPresentRects g rects).run t = some ((), t') ∧ ∃ b', Presented g t' b' := by
  obtain ⟨t', b', run, backed, shadowed, force⟩ := presentRects_shadowed good mapped
    before.pending (.inl before.shadowed)
  rw [before.unforced, Bool.false_and] at force
  exact ⟨t', run, b', backed, shadowed, force⟩

theorem Mode.Shadowed.keep (h : g.Shadowed t b) (hw : t'.hw = t.hw)
    (display : b'.display = b.display) : g.Shadowed t' b' := by
  intro X Y lt lt'
  rw [hw, display]
  exact h X Y lt lt'

theorem perform_pending (good : g.Good) (mapped : g.addr ≠ 0) (pending : Pending g t b)
    (call : DrawCall) :
    ∃ t', (call.perform g font).run t = some ((), t') ∧ ∃ b', Pending g t' b' := by
  by_cases presents : call = .present
  · obtain ⟨t', run, b', presented⟩ := present_presented good mapped pending
    rw [presents]
    exact ⟨t', run, b', presented.pending⟩
  · obtain ⟨t', b', run, backed, display, hw, force⟩ :=
      perform_paints good presents t b pending.toBacked
    exact ⟨t', run, b', backed, pending.presented.imp force.trans fun h => h.keep hw display⟩

theorem perform_presented (good : g.Good) (mapped : g.addr ≠ 0) (before : Presented g t b)
    (call : ScreenCall) :
    ∃ t', (call.perform g font).run t = some ((), t') ∧ ∃ b', Presented g t' b' := by
  cases call with
  | presentRects rects => exact presentRects_presented good mapped before rects
  | draw call =>
    by_cases presents : call = .present
    · rw [presents]
      exact present_presented good mapped before.pending
    · obtain ⟨t', b', run, backed, display, hw, force⟩ :=
        perform_paints good presents t b before.toBacked
      exact ⟨t', run, b', backed, before.shadowed.keep hw display, force.trans before.unforced⟩

theorem first_pending (good : g.Good) (mapped : g.addr ≠ 0) (pending : Pending g t b)
    (first : List DrawCall) : ∃ t',
      (first.forM fun call => call.perform g font).run t = some ((), t') ∧ ∃ b', Pending g t' b' :=
  forM_invariant (fun _ t' => ∃ b', Pending g t' b') first
    (fun _ call _ _ h => perform_pending good mapped h.choose_spec call) ⟨b, pending⟩

theorem presenting_presented (good : g.Good) (mapped : g.addr ≠ 0) (pending : Pending g t b)
    (first : List DrawCall) (calls : List ScreenCall) :
    ∃ t', (presenting g font first calls).run t = some ((), t') ∧ ∃ b', Presented g t' b' := by
  obtain ⟨t₁, run, b₁, pending₁⟩ := first_pending good mapped pending first
  obtain ⟨t₂, run', presented⟩ := present_presented good mapped pending₁
  obtain ⟨t₃, run'', last⟩ := forM_invariant (f := fun call => call.perform g font)
    (fun _ t' => ∃ b', Presented g t' b') calls
    (fun _ call _ _ h => perform_presented good mapped h.choose_spec call) presented
  refine ⟨t₃, ?_, last⟩
  rw [presenting, bind_some run, bind_some run']
  exact run''

variable {e : Beyond}

/-- The screen with all its pixels in buffers, and the same where other bytes lie beyond. -/
def Around (g : Mode) (e : Beyond) (s t : Screen) : Prop :=
  (∃ b, s.buffers = some b ∧ g.w.toNat*g.h.toNat ≤ b.cells) ∧ t = s.beyond g e

theorem upTo_lt {α : Type} {n i : ℕ} (lt : i < n) (f rest : ℕ → α) : upTo n f rest i = f i :=
  if_pos lt

theorem upTo_update {α : Type} {n i : ℕ} (lt : i < n) (f rest : ℕ → α) (a : α) :
    Function.update (upTo n f rest) i a = upTo n (Function.update f i a) rest := by
  funext j
  by_cases eq : j = i
  · rw [eq, Function.update_self, upTo_lt lt, Function.update_self]
  · rw [Function.update_of_ne eq, upTo, upTo, Function.update_of_ne eq]

theorem upTo_storePixel {n p m : ℕ} (le : p+m ≤ n) (hw rest : ℕ → UInt8) (px : UInt32) :
    storePixel (upTo n hw rest) p m px = upTo n (storePixel hw p m px) rest := by
  funext a
  by_cases inside : p ≤ a ∧ a < p+m
  · rw [storePixel, if_pos inside, upTo_lt (by omega), storePixel, if_pos inside]
  · rw [storePixel, if_neg inside, upTo, upTo, storePixel, if_neg inside]

theorem Mode.Good.place_le (good : g.Good) (lt : X < g.w.toNat) (lt' : Y < g.h.toNat) :
    g.place X Y+g.bytesPerPixel ≤ g.pitch.toNat*g.h.toNat := by
  have four := good.le_four
  have column := good.column lt (show g.bytesPerPixel-1 < g.bytesPerPixel by omega)
  have rows : (Y+1)*g.pitch.toNat ≤ g.h.toNat*g.pitch.toNat := Nat.mul_le_mul_right _ lt'
  rw [Nat.succ_mul, Nat.mul_comm g.h.toNat] at rows
  rw [Mode.place]
  omega

theorem writeDraw_around {i : ℕ} (lt : i < g.w.toNat*g.h.toNat) (px : UInt32) :
    Twin (Around g e) (writeDraw i px) := by
  rintro ⟨hw, buffers, force⟩ t ⟨⟨b, eq, room⟩, rfl⟩
  obtain rfl : buffers = some b := eq
  refine ⟨(), ⟨hw, some { b with draw := Function.update b.draw i px }, force⟩, _,
    if_pos (by omega), if_pos (show i < b.cells by omega), ⟨_, rfl, room⟩, ?_⟩
  dsimp only [Screen.beyond, Buffers.beyond, Option.map_some]
  rw [upTo_update lt]

theorem putPixel_around (good : g.Good) (x y : ℤ) (c : Color) :
    Twin (Around g e) (fbPutPixel g x y c) := by
  by_cases off : g.Off x y
  · rw [fbPutPixel_off g c off]
    exact .pure ()
  have on := off
  rw [Mode.Off, not_or, Nat.not_le, Nat.not_le] at on
  rintro ⟨hw, buffers, force⟩ t ⟨⟨b, eq, room⟩, rfl⟩
  obtain rfl : buffers = some b := eq
  rw [fbPutPixel, if_neg off, good.index_eq off]
  exact writeDraw_around (Mode.cell_lt on.1 on.2) (g.pixelValue c) ⟨hw, some b, force⟩ _
    ⟨⟨b, rfl, room⟩, rfl⟩

theorem clear_around (g : Mode) (c : Color) : Twin (Around g e) (fbClear g c) := by
  have loop : Twin (Around g e)
      ((List.range g.total.toNat).forM fun i => writeDraw i (g.pixelValue c)) :=
    .forM _ fun i mem => writeDraw_around (by rwa [g.total_toNat, List.mem_range] at mem) _
  rintro ⟨hw, buffers, force⟩ t ⟨⟨b, eq, room⟩, rfl⟩
  obtain rfl : buffers = some b := eq
  exact loop _ _ ⟨⟨b, rfl, room⟩, rfl⟩

theorem blitPixel_around (good : g.Good) (lt : X < g.w.toNat) (lt' : Y < g.h.toNat) :
    Twin (Around g e) (blitPixel g X Y) := by
  rintro s t ⟨⟨b, eq, room⟩, rfl⟩
  have cell := Mode.cell_lt lt lt'
  have eq' : (s.beyond g e).buffers = some (b.beyond g e) := by
    rw [Screen.beyond, eq]
    rfl
  have run := blitPixel_run good eq room lt lt'
  have run' := blitPixel_run good eq' room lt lt'
  have draw : (b.beyond g e).draw (g.cell X Y) = b.draw (g.cell X Y) := upTo_lt cell _ _
  have display : (b.beyond g e).display (g.cell X Y) = b.display (g.cell X Y) := upTo_lt cell _ _
  have force : (s.beyond g e).forceFull = s.forceFull := rfl
  rw [draw, display, force] at run'
  by_cases store : (s.forceFull || b.draw (g.cell X Y) != b.display (g.cell X Y)) = true
  · rw [if_pos store] at run run'
    refine ⟨(), _, _, run, run', ⟨_, rfl, room⟩, ?_⟩
    dsimp only [Screen.beyond, Buffers.beyond, Option.map_some]
    rw [upTo_storePixel (good.place_le lt lt'), upTo_update cell]
  · rw [if_neg store] at run run'
    exact ⟨(), s, _, run, run', ⟨b, eq, room⟩, rfl⟩

theorem beyond_isNone (s : Screen) : (s.beyond g e).buffers.isNone = s.buffers.isNone :=
  Option.isNone_map

theorem blitRect_around (good : g.Good) (r : FbRect) :
    Twin (Around g e) (blitRect g r.x r.y r.w r.h) := by
  rw [blitRect_eq good]
  refine .get ?_ fun s => .ite (fun _ => .pure ()) fun _ => ?_
  · rintro s t ⟨-, rfl⟩
    rw [beyond_isNone]
  · refine .forM _ fun row mem => .forM _ fun col mem' => ?_
    rw [List.mem_range] at mem mem'
    exact blitPixel_around good (clip_lt mem') (clip_lt mem)

theorem unforce_around :
    Twin (Around g e) (modify fun s => { s with forceFull := false } : DrawM Unit) := by
  rintro s t ⟨some, rfl⟩
  exact ⟨(), _, _, rfl, rfl, some, rfl⟩

theorem presentRects_around (good : g.Good) (rects : List FbRect) :
    Twin (Around g e) (fbPresentRects g rects) := by
  refine .get ?_ fun s => .ite (fun _ => .pure ()) fun _ => ?_
  · rintro s t ⟨-, rfl⟩
    rw [beyond_isNone]
  · exact (Twin.forM _ fun r _ => blitRect_around good r).bind fun _ => unforce_around

theorem present_around (good : g.Good) : Twin (Around g e) (fbPresent g) := by
  refine .get ?_ fun s => .ite (fun _ => .pure ()) fun _ => presentRects_around good _
  rintro s t ⟨-, rfl⟩
  rw [beyond_isNone]

theorem perform_around (good : g.Good) (call : DrawCall) :
    Twin (Around g e) (call.perform g font) := by
  by_cases presents : call = .present
  · rw [presents]
    exact present_around good
  · exact perform_of (.pure ()) (fun first rest => first.bind fun _ => rest) (putPixel_around good)
      (clear_around g) presents

theorem presenting_around (good : g.Good) (first : List DrawCall) (calls : List ScreenCall) :
    Twin (Around g e) (presenting g font first calls) := by
  refine (Twin.forM _ fun call _ => perform_around good call).bind fun _ =>
    (present_around good).bind fun _ => .forM _ fun call _ => ?_
  cases call with
  | draw call => exact perform_around good call
  | presentRects rects => exact presentRects_around good rects

theorem presenting_confines (good : g.Good) (backed : Backed g t b) (first : List DrawCall)
    (calls : List ScreenCall) : g.Confines (presenting g font first calls) t := by
  intro e
  have around : Twin (Around g e) (presenting g font first calls) :=
    presenting_around good first calls
  obtain ⟨_, s', t', run, run', -, rfl⟩ := around t _ ⟨⟨b, backed.buffers, backed.room⟩, rfl⟩
  rw [run, run']
  rfl

/-- After the first full present, `display_buf` is always what the framebuffer shows; a present of
rectangles shows what is drawn in them and changes no other pixel; and nothing outside the pixels
of the buffers and the bytes of the framebuffer is read or changed. -/
theorem presents_exact {tag : FbTag} (accepted : g.Accepted tag) (mapped : g.addr ≠ 0)
    (small : g.w.toNat < 1073741824 ∧ g.h.toNat < 1073741824) {k : Kernel}
    (enabled : Allocates g k) (font : Font) (found : ℕ → UInt32) (hw : ℕ → UInt8) (force : Bool) :
    ∃ k' t₀, (fbEnableBackbuffer g k found).run ⟨hw, none, force⟩ = some (k', t₀) ∧
      ∀ (first : List DrawCall) (calls : List ScreenCall),
        (∃ t₁, (first.forM fun call => call.perform g font).run t₀ = some ((), t₁) ∧
          g.Presents [g.full] (fbPresent g) t₁) ∧
        (∃ t, (presenting g font first calls).run t₀ = some ((), t) ∧ g.Synced t ∧
          ∀ rects, g.Presents rects (fbPresentRects g rects) t) ∧
        g.Confines (presenting g font first calls) t₀ := by
  have pixels : g.w.toNat*g.h.toNat ≤ 1073741824*1073741824 :=
    Nat.mul_le_mul small.1.le small.2.le
  obtain ⟨few, room⟩ : g.w.toNat*g.h.toNat ≤ 1073741824 ∧
      g.w.toNat*g.h.toNat ≤ blockCells g.bufferBytes := by
    rcases enabled.cells with ⟨-, few, room⟩ | ⟨large, -⟩
    · exact ⟨few, room⟩
    · omega
  have good := accepted.good few
  obtain ⟨k', t₀, b, enable, ready, -, forced, empty⟩ := enable_ready (s := ⟨hw, none, force⟩)
    found enabled enabled.nonzero.1 enabled.nonzero.2 room rfl
  have pending : Pending g t₀ b := by
    refine ⟨⟨ready.buffers, ready.room, fun i lt => ?_⟩, .inl forced⟩
    rw [empty i lt]
    exact Nat.pow_pos (by decide)
  refine ⟨k', t₀, enable, fun first calls => ⟨?_, ?_, ?_⟩⟩
  · obtain ⟨t₁, run, b₁, pending₁⟩ := first_pending good mapped pending first
    refine ⟨t₁, run, ?_⟩
    rw [Mode.Presents, present_run pending₁.buffers]
    exact presentRects_presents good mapped pending₁.toBacked pending₁.presented [g.full]
  · obtain ⟨t, run, b', presented⟩ := presenting_presented good mapped pending first calls
    exact ⟨t, run, presented.synced good, fun rects =>
      presentRects_presents good mapped presented.toBacked (.inr presented.shadowed) rects⟩
  · exact presenting_confines good pending.toBacked first calls

theorem presents_exact_desktop : ∃ k, ∃ k' t₀,
    (fbEnableBackbuffer desktopMode k fun _ => 0).run ⟨fun _ => 0, none, false⟩ =
        some (k', t₀) ∧
      ∀ (first : List DrawCall) (calls : List ScreenCall),
        (∃ t₁, (first.forM fun call => call.perform desktopMode fun _ _ => 0).run t₀ =
            some ((), t₁) ∧
          desktopMode.Presents [desktopMode.full] (fbPresent desktopMode) t₁) ∧
        (∃ t, (presenting desktopMode (fun _ _ => 0) first calls).run t₀ = some ((), t) ∧
          desktopMode.Synced t ∧
          ∀ rects, desktopMode.Presents rects (fbPresentRects desktopMode rects) t) ∧
        desktopMode.Confines (presenting desktopMode (fun _ _ => 0) first calls) t₀ := by
  obtain ⟨k, -, room, -⟩ := desktop_booted
  have accepted : desktopMode.Accepted desktopTag :=
    ⟨rfl, by decide, by decide, by decide, by decide⟩
  have enabled : Allocates desktopMode k :=
    Pmm.Room.allocates room (by decide) (by decide) (by decide)
  exact ⟨k, presents_exact accepted (by decide) ⟨by decide, by decide⟩ enabled _ _ _ _⟩

end TinyOS.Display
