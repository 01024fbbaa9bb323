import TinyOS.FramebufferDraw
import TinyOS.KmallocSpan

set_option autoImplicit false

namespace TinyOS.Display
open ByteWords Memory TwinRuns

variable {g : Mode} {s t : Screen} {b : Buffers} {hw : ℕ → UInt8} {px : UInt32} {x y : ℤ}
variable {X Y X' Y' : ℕ}

/-- What `fb_init` accepts, with rows that fit the pitch, channels inside the pixel, and no more
pixels than the heap has room for. -/
structure Mode.Good (g : Mode) : Prop where
  bytes : g.bytesPerPixel = 3 ∧ g.bpp = 24 ∨ g.bytesPerPixel = 4 ∧ g.bpp = 32
  rows : g.w.toNat*g.bytesPerPixel ≤ g.pitch.toNat
  red : g.rPos.toNat+8 ≤ 8*g.bytesPerPixel
  green : g.gPos.toNat+8 ≤ 8*g.bytesPerPixel
  blue : g.bPos.toNat+8 ≤ 8*g.bytesPerPixel
  wide : 0 < g.w.toNat
  high : 0 < g.h.toNat
  few : g.w.toNat*g.h.toNat ≤ 1073741824

theorem Mode.Good.le_four (good : g.Good) : 3 ≤ g.bytesPerPixel ∧ g.bytesPerPixel ≤ 4 := by
  rcases good.bytes with ⟨eq, -⟩ | ⟨eq, -⟩
  · omega
  · omega

theorem Mode.Good.small (good : g.Good) : g.w.toNat ≤ 1073741824 ∧ g.h.toNat ≤ 1073741824 :=
  ⟨(Nat.le_mul_of_pos_right _ good.high).trans good.few,
    (Nat.le_mul_of_pos_left _ good.wide).trans good.few⟩

theorem Mode.total_toNat (g : Mode) : g.total.toNat = g.w.toNat*g.h.toNat := by
  have wide := g.w.toNat_lt
  have high := g.h.toNat_lt
  have bound : g.w.toNat*g.h.toNat ≤ 4294967295*4294967295 :=
    Nat.mul_le_mul (by omega) (by omega)
  rw [Mode.total, UInt64.toNat_mul, UInt32.toNat_toUInt64, UInt32.toNat_toUInt64,
    Nat.mod_eq_of_lt (by omega)]

theorem shifted_lt (c : UInt8) {pos : UInt8} {m : ℕ} (le : pos.toNat+8 ≤ m) (le' : m ≤ 32) :
    (c.toUInt32 <<< pos.toUInt32).toNat < 2^m := by
  have byte := c.toNat_lt
  rw [UInt32.toNat_shiftLeft, UInt8.toNat_toUInt32, UInt8.toNat_toUInt32,
    Nat.mod_eq_of_lt (show pos.toNat < 32 by omega), Nat.shiftLeft_eq]
  refine lt_of_le_of_lt (Nat.mod_le _ _) ?_
  calc c.toNat*2^pos.toNat < 2^8*2^pos.toNat :=
        Nat.mul_lt_mul_of_pos_right byte (Nat.two_pow_pos _)
    _ = 2^(8+pos.toNat) := (pow_add 2 8 _).symm
    _ ≤ 2^m := Nat.pow_le_pow_right (by decide) (by omega)

theorem Mode.Good.pixelValue_lt (good : g.Good) (c : Color) :
    (g.pixelValue c).toNat < 256^g.bytesPerPixel := by
  have four := good.le_four.2
  rw [show (256 : ℕ) = 2^8 from rfl, ← pow_mul, Mode.pixelValue, UInt32.toNat_or, UInt32.toNat_or]
  exact Nat.or_lt_two_pow (Nat.or_lt_two_pow (shifted_lt c.r good.red (by omega))
    (shifted_lt c.g good.green (by omega))) (shifted_lt c.b good.blue (by omega))

def Bytes (hw : ℕ → UInt8) (p n : ℕ) (px : UInt32) : Prop := ∀ i < n, hw (p+i) = wordByte px i

theorem loadPixel_toNat {p n : ℕ} (le : n ≤ 4) (bytes : Bytes hw p n px) :
    (loadPixel hw p n).toNat = px.toNat%256^n := by
  induction n with
  | zero => rw [pow_zero, Nat.mod_one]; rfl
  | succ n ih =>
    have before := ih (by omega) fun i lt => bytes i (by omega)
    have lower : px.toNat%256^n < 2^(8*n) := by
      rw [pow_mul]
      exact Nat.mod_lt _ (by positivity)
    have byte : ((hw (p+n)).toUInt32 <<< UInt32.ofNat (8*n)).toNat =
        2^(8*n)*(px.toNat/256^n%256) := by
      have upper : px.toNat/256^n%256 < 256 := Nat.mod_lt _ (by decide)
      have bound : 2^(8*n)*(px.toNat/256^n%256) < 2^32 := by
        calc 2^(8*n)*(px.toNat/256^n%256) < 2^(8*n)*2^8 :=
              Nat.mul_lt_mul_of_pos_left upper (Nat.two_pow_pos _)
          _ = 2^(8*n+8) := (pow_add 2 _ 8).symm
          _ ≤ 2^32 := Nat.pow_le_pow_right (by decide) (by omega)
      rw [UInt32.toNat_shiftLeft, UInt8.toNat_toUInt32, bytes n (by omega), wordByte_toNat,
        UInt32.toNat_ofNat_of_lt' (by change 8*n < 4294967296; omega),
        Nat.mod_eq_of_lt (show 8*n < 32 by omega), Nat.shiftLeft_eq, Nat.mul_comm,
        Nat.mod_eq_of_lt bound]
    have split : loadPixel hw p (n+1) =
        loadPixel hw p n ||| (hw (p+n)).toUInt32 <<< UInt32.ofNat (8*n) := by
      rw [loadPixel, List.range_succ, List.foldl_append]
      rfl
    rw [split, UInt32.toNat_or, before, byte, Nat.or_comm, ← Nat.two_pow_add_eq_or_of_lt lower,
      pow_succ, Nat.mod_mul, Nat.add_comm, show 2^(8*n) = 256^n from pow_mul 2 8 n]

theorem loadPixel_eq {p n : ℕ} (le : n ≤ 4) (lt : px.toNat < 256^n) (bytes : Bytes hw p n px) :
    loadPixel hw p n = px := by
  apply UInt32.toNat_inj.mp
  rw [loadPixel_toNat le bytes, Nat.mod_eq_of_lt lt]

theorem storePixel_bytes (hw : ℕ → UInt8) (p n : ℕ) (px : UInt32) :
    Bytes (storePixel hw p n px) p n px := by
  intro i lt
  rw [storePixel, if_pos (by omega), Nat.add_sub_cancel_left]

def Mode.cell (g : Mode) (X Y : ℕ) : ℕ := Y*g.w.toNat+X

def Mode.place (g : Mode) (X Y : ℕ) : ℕ := Y*g.pitch.toNat+X*g.bytesPerPixel

theorem row_inj {n Y Y' r r' : ℕ} (lt : r < n) (lt' : r' < n) (eq : Y*n+r = Y'*n+r') :
    Y = Y' ∧ r = r' := by
  have pos : 0 < n := by omega
  have row := congrArg (fun a => a/n) eq
  have rest := congrArg (fun a => a%n) eq
  rw [Nat.mul_comm Y, Nat.mul_comm Y', Nat.mul_add_div pos, Nat.mul_add_div pos,
    Nat.div_eq_of_lt lt, Nat.div_eq_of_lt lt'] at row
  rw [Nat.mul_comm Y, Nat.mul_comm Y', Nat.mul_add_mod, Nat.mul_add_mod, Nat.mod_eq_of_lt lt,
    Nat.mod_eq_of_lt lt'] at rest
  exact ⟨by omega, rest⟩

theorem Mode.cell_inj (lt : X < g.w.toNat) (lt' : X' < g.w.toNat)
    (eq : g.cell X Y = g.cell X' Y') : X = X' ∧ Y = Y' := by
  obtain ⟨row, col⟩ := row_inj lt lt' eq
  exact ⟨col, row⟩

theorem Mode.Good.column (good : g.Good) {i : ℕ} (lt : X < g.w.toNat)
    (small : i < g.bytesPerPixel) : X*g.bytesPerPixel+i < g.pitch.toNat := by
  have rows := good.rows
  have le : (X+1)*g.bytesPerPixel ≤ g.w.toNat*g.bytesPerPixel :=
    Nat.mul_le_mul_right _ lt
  rw [Nat.succ_mul] at le
  omega

theorem Mode.Good.place_inj (good : g.Good) {i i' : ℕ} (lt : X < g.w.toNat)
    (lt' : X' < g.w.toNat) (small : i < g.bytesPerPixel) (small' : i' < g.bytesPerPixel)
    (eq : g.place X Y+i = g.place X' Y'+i') : X = X' ∧ Y = Y' ∧ i = i' := by
  rw [Mode.place, Mode.place, Nat.add_assoc, Nat.add_assoc] at eq
  obtain ⟨row, rest⟩ := row_inj (good.column lt small) (good.column lt' small') eq
  obtain ⟨col, byte⟩ := row_inj small small' rest
  exact ⟨col, row, byte⟩

theorem asInt_of_lt {m : ℕ} (lt : asUnsigned x < m) (small : m ≤ 1073741824) :
    asInt x = asUnsigned x := by
  rw [asUnsigned] at lt ⊢
  rw [asInt, Int.bmod_def]
  split_ifs with half
  · omega
  · omega

theorem Mode.Good.index_eq (good : g.Good) (on : ¬g.Off x y) :
    g.index x y = g.cell (asUnsigned x) (asUnsigned y) := by
  rw [Mode.Off, not_or, Nat.not_le, Nat.not_le] at on
  obtain ⟨wide, high⟩ := good.small
  have few := good.few
  rw [Mode.index, asInt_of_lt on.1 wide, asInt_of_lt on.2 high, Mode.cell]
  have bound : asUnsigned y*g.w.toNat ≤ 1073741824*1073741824 :=
    Nat.mul_le_mul (by omega) wide
  rw [← Int.natCast_mul, ← Int.natCast_add]
  omega

theorem Mode.Good.offset_eq (good : g.Good) (on : ¬g.Off x y) :
    g.offset x y = g.place (asUnsigned x) (asUnsigned y) := by
  rw [Mode.Off, not_or, Nat.not_le, Nat.not_le] at on
  obtain ⟨wide, high⟩ := good.small
  have pitch := g.pitch.toNat_lt
  rw [Mode.offset, asInt_of_lt on.1 wide, asInt_of_lt on.2 high, Mode.place]
  have rowBound : asUnsigned y*g.pitch.toNat ≤ 1073741824*4294967296 :=
    Nat.mul_le_mul (by omega) (by omega)
  have column := good.column on.1 (show 0 < g.bytesPerPixel by have := good.le_four; omega)
  rw [← Int.natCast_mul, ← Int.natCast_mul, ← Int.natCast_add]
  omega

def Mode.Shows (g : Mode) (hw : ℕ → UInt8) (X Y : ℕ) (px : UInt32) : Prop :=
  Bytes hw (g.place X Y) g.bytesPerPixel px

theorem Mode.Good.shows_here (g : Mode) (X Y : ℕ) (hw : ℕ → UInt8) (px : UInt32) :
    g.Shows (storePixel hw (g.place X Y) g.bytesPerPixel px) X Y px :=
  storePixel_bytes hw _ _ px

theorem Mode.Good.shows_other (good : g.Good) {px' : UInt32} (lt : X < g.w.toNat)
    (lt' : X' < g.w.toNat) (ne : ¬(X' = X ∧ Y' = Y)) (shown : g.Shows hw X' Y' px') :
    g.Shows (storePixel hw (g.place X Y) g.bytesPerPixel px) X' Y' px' := by
  intro i small
  rw [storePixel, if_neg]
  · exact shown i small
  · rintro ⟨lower, upper⟩
    obtain ⟨col, row, -⟩ := good.place_inj lt' lt small
      (show g.place X' Y'+i-g.place X Y < g.bytesPerPixel by omega)
      (show g.place X' Y'+i = g.place X Y+(g.place X' Y'+i-g.place X Y) by omega)
    exact ne ⟨col, row⟩

/-- The buffers hold all pixels, and what was presented last is on the screen. -/
structure Ready (g : Mode) (s t : Screen) (b : Buffers) : Prop where
  direct : s.buffers = none
  buffers : t.buffers = some b
  room : g.w.toNat*g.h.toNat ≤ b.cells
  presented : t.forceFull = true ∨ ∀ X Y, X < g.w.toNat → Y < g.h.toNat →
    g.Shows t.hw X Y (b.display (g.cell X Y))

/-- The screen that is drawn on directly shows what is in the draw buffer. -/
structure Twins (g : Mode) (s t : Screen) (b : Buffers) : Prop extends Ready g s t b where
  drawn : ∀ X Y, X < g.w.toNat → Y < g.h.toNat → (b.draw (g.cell X Y)).toNat < 256^g.bytesPerPixel ∧
    g.Shows s.hw X Y (b.draw (g.cell X Y))

def Alike (g : Mode) (s t : Screen) : Prop := ∃ b, Twins g s t b

theorem Mode.cell_lt (lt : X < g.w.toNat) (lt' : Y < g.h.toNat) :
    g.cell X Y < g.w.toNat*g.h.toNat := by
  have le : (Y+1)*g.w.toNat ≤ g.h.toNat*g.w.toNat := Nat.mul_le_mul_right _ lt'
  rw [Nat.succ_mul, Nat.mul_comm g.h.toNat] at le
  rw [Mode.cell]
  omega

theorem fbPutPixel_off (g : Mode) (c : Color) (off : g.Off x y) :
    fbPutPixel g x y c = pure () := by
  rw [fbPutPixel, if_pos off]

theorem fbPutPixel_direct (good : g.Good) (c : Color) (on : ¬g.Off x y) (direct : s.buffers = none) :
    (fbPutPixel g x y c).run s = some ((), { s with
      hw := storePixel s.hw (g.place (asUnsigned x) (asUnsigned y)) g.bytesPerPixel
        (g.pixelValue c) }) := by
  rw [fbPutPixel, if_neg on, good.offset_eq on]
  obtain ⟨hw, buffers, force⟩ := s
  obtain rfl : buffers = none := direct
  rfl

theorem fbPutPixel_buffer (good : g.Good) (c : Color) (on : ¬g.Off x y)
    (buffers : t.buffers = some b) (room : g.w.toNat*g.h.toNat ≤ b.cells) :
    (fbPutPixel g x y c).run t = some ((), { t with buffers := some { b with
      draw := Function.update b.draw (g.cell (asUnsigned x) (asUnsigned y)) (g.pixelValue c) } }) := by
  rw [fbPutPixel, if_neg on, good.index_eq on]
  obtain ⟨hw, buffers', force⟩ := t
  obtain rfl : buffers' = some b := buffers
  rw [Mode.Off, not_or, Nat.not_le, Nat.not_le] at on
  have lt := Mode.cell_lt on.1 on.2
  change (writeDraw (g.cell (asUnsigned x) (asUnsigned y)) (g.pixelValue c)).run
    ⟨hw, some b, force⟩ = _
  exact if_pos (by omega)

theorem putPixel_twin (good : g.Good) (x y : ℤ) (c : Color) : Twin (Alike g) (fbPutPixel g x y c) := by
  by_cases off : g.Off x y
  · rw [fbPutPixel_off g c off]
    exact .pure ()
  rintro s t ⟨b, twins⟩
  have on := off
  rw [Mode.Off, not_or, Nat.not_le, Nat.not_le] at on
  refine ⟨(), _, _, fbPutPixel_direct good c off twins.direct,
    fbPutPixel_buffer good c off twins.buffers twins.room, _,
    ⟨twins.direct, rfl, twins.room, twins.presented⟩, fun X Y lt lt' => ?_⟩
  dsimp only
  by_cases here : X = asUnsigned x ∧ Y = asUnsigned y
  · obtain ⟨rfl, rfl⟩ := here
    rw [Function.update_self]
    exact ⟨good.pixelValue_lt c, Mode.Good.shows_here g _ _ _ _⟩
  · have ne : g.cell X Y ≠ g.cell (asUnsigned x) (asUnsigned y) :=
      fun eq => here (Mode.cell_inj lt on.1 eq)
    rw [Function.update_of_ne ne]
    obtain ⟨small, shown⟩ := twins.drawn X Y lt lt'
    exact ⟨small, good.shows_other on.1 lt here shown⟩

theorem getPixel_twin (good : g.Good) (x y : ℤ) : Twin (Alike g) (fbGetPixel g x y) := by
  by_cases off : g.Off x y
  · rw [fbGetPixel, if_pos off]
    exact .pure _
  rintro s t ⟨b, twins⟩
  have on := off
  rw [Mode.Off, not_or, Nat.not_le, Nat.not_le] at on
  obtain ⟨small, shown⟩ := twins.drawn _ _ on.1 on.2
  have lt := Mode.cell_lt on.1 on.2
  have room := twins.room
  have load := loadPixel_eq good.le_four.2 small shown
  refine ⟨g.colorOf (b.draw (g.cell (asUnsigned x) (asUnsigned y))), s, t, ?_, ?_, b, twins⟩
  · rw [fbGetPixel, if_neg off, good.offset_eq off]
    have direct := twins.direct
    obtain ⟨hw, buffers, force⟩ := s
    obtain rfl : buffers = none := direct
    change some (g.colorOf (loadPixel hw _ _), _) = _
    rw [load]
  · rw [fbGetPixel, if_neg off, good.index_eq off]
    have buffers := twins.buffers
    obtain ⟨hw, buffers', force⟩ := t
    obtain rfl : buffers' = some b := buffers
    change StateT.run (if _ then _ else _) _ = _
    rw [if_pos (by omega)]
    rfl

theorem asUnsigned_natCast {m n : ℕ} (lt : m < n) (small : n ≤ 1073741824) :
    asUnsigned (m : ℤ) = m := by
  rw [asUnsigned]
  omega

theorem Mode.Good.on (good : g.Good) (lt : X < g.w.toNat) (lt' : Y < g.h.toNat) :
    ¬g.Off (X : ℤ) (Y : ℤ) ∧ asUnsigned (X : ℤ) = X ∧ asUnsigned (Y : ℤ) = Y := by
  have col := asUnsigned_natCast lt good.small.1
  have row := asUnsigned_natCast lt' good.small.2
  refine ⟨?_, col, row⟩
  rw [Mode.Off, col, row]
  omega

/-- Cleared without buffers, the screen shows the color everywhere. -/
theorem clear_direct (good : g.Good) (c : Color) (direct : s.buffers = none) :
    ∃ s', (fbClear g c).run s = some ((), s') ∧ s'.buffers = none ∧
      ∀ X Y, X < g.w.toNat → Y < g.h.toNat → g.Shows s'.hw X Y (g.pixelValue c) := by
  obtain ⟨s', run, none, all⟩ := nested_invariant
    (f := fun x y => fbPutPixel g (x : ℤ) (y : ℤ) c)
    (fun done s => s.buffers = none ∧ ∀ X Y, X < g.w.toNat → Y < g.h.toNat → done X Y →
      g.Shows s.hw X Y (g.pixelValue c)) g.w.toNat g.h.toNat
    (fun done x y s lt lt' before => by
      obtain ⟨on, col, row⟩ := good.on lt lt'
      refine ⟨_, fbPutPixel_direct good c on before.1, before.1, fun X Y ltX ltY here => ?_⟩
      rw [col, row]
      by_cases same : X = x ∧ Y = y
      · obtain ⟨rfl, rfl⟩ := same
        exact Mode.Good.shows_here g _ _ _ _
      · exact good.shows_other lt ltX same
          (before.2 X Y ltX ltY (here.resolve_right same)))
    (fun sub before => ⟨before.1, fun X Y ltX ltY here => before.2 X Y ltX ltY (sub X Y here)⟩)
    (s := s) ⟨direct, fun X Y _ _ none => none.elim⟩
  refine ⟨s', ?_, none, fun X Y lt lt' => all X Y lt lt' ⟨lt, lt'⟩⟩
  rw [← run]
  obtain ⟨hw, buffers, force⟩ := s
  obtain rfl : buffers = Option.none := direct
  rfl

/-- Cleared with buffers, the draw buffer holds the color everywhere. -/
theorem clear_buffer (g : Mode) (c : Color) (buffers : t.buffers = some b)
    (room : g.w.toNat*g.h.toNat ≤ b.cells) :
    ∃ draw, (fbClear g c).run t = some ((), { t with buffers := some { b with draw := draw } }) ∧
      ∀ i < g.w.toNat*g.h.toNat, draw i = g.pixelValue c := by
  obtain ⟨t', run, draw, rfl, all⟩ := forM_invariant
    (f := fun i => writeDraw i (g.pixelValue c))
    (fun done t' => ∃ draw, t' = { t with buffers := some { b with draw := draw } } ∧
      ∀ i ∈ done, draw i = g.pixelValue c) (List.range g.total.toNat)
    (fun done i t' mem before => by
      obtain ⟨draw, rfl, all⟩ := before
      rw [g.total_toNat, List.mem_range] at mem
      refine ⟨_, if_pos (lt_of_lt_of_le mem room), _, rfl, fun j here => ?_⟩
      rcases List.mem_append.mp here with old | new
      · by_cases eq : j = i
        · rw [eq, Function.update_self]
        · rw [Function.update_of_ne eq]
          exact all j old
      · rw [List.mem_singleton.mp new, Function.update_self])
    (s := t) ⟨b.draw, by
      obtain ⟨hw, buffers', force⟩ := t
      obtain rfl : buffers' = some b := buffers
      rfl, fun i none => absurd none List.not_mem_nil⟩
  refine ⟨draw, ?_, fun i lt => all i (by rw [g.total_toNat, List.mem_range]; exact lt)⟩
  rw [← run]
  obtain ⟨hw, buffers', force⟩ := t
  obtain rfl : buffers' = some b := buffers
  rfl

theorem clear_twins (good : g.Good) (c : Color) (ready : Ready g s t b) :
    ∃ s' t', (fbClear g c).run s = some ((), s') ∧ (fbClear g c).run t = some ((), t') ∧
      Alike g s' t' := by
  obtain ⟨s', run, direct, shown⟩ := clear_direct good c ready.direct
  obtain ⟨draw, run', all⟩ := clear_buffer g c ready.buffers ready.room
  refine ⟨s', _, run, run', _, ⟨direct, rfl, ready.room, ready.presented⟩, fun X Y lt lt' => ?_⟩
  dsimp only
  rw [all _ (Mode.cell_lt lt lt')]
  exact ⟨good.pixelValue_lt c, shown X Y lt lt'⟩

structure Blitted (g : Mode) (t : Screen) (b : Buffers) (done : ℕ → ℕ → Prop) (t' : Screen)
    (b' : Buffers) : Prop where
  buffers : t'.buffers = some b'
  draw : b'.draw = b.draw
  cells : b'.cells = b.cells
  forceFull : t'.forceFull = t.forceFull
  presented : t.forceFull = true ∨ ∀ X Y, X < g.w.toNat → Y < g.h.toNat →
    g.Shows t'.hw X Y (b'.display (g.cell X Y))
  done : ∀ X Y, X < g.w.toNat → Y < g.h.toNat → done X Y →
    g.Shows t'.hw X Y (b.draw (g.cell X Y)) ∧ b'.display (g.cell X Y) = b.draw (g.cell X Y)

theorem Mode.Good.bytes_stored (good : g.Good) :
    (if g.bpp = 32 then 4 else g.bytesPerPixel) = g.bytesPerPixel := by
  rcases good.bytes with ⟨-, eq⟩ | ⟨eq, -⟩
  · rw [eq, if_neg (by decide)]
  · rw [eq, ite_self]

theorem blitPixel_run (good : g.Good) (buffers : t.buffers = some b)
    (room : g.w.toNat*g.h.toNat ≤ b.cells) (lt : X < g.w.toNat) (lt' : Y < g.h.toNat) :
    (blitPixel g X Y).run t =
      if t.forceFull || b.draw (g.cell X Y) != b.display (g.cell X Y) then
        some ((), { t with
          hw := storePixel t.hw (g.place X Y) g.bytesPerPixel (b.draw (g.cell X Y))
          buffers := some { b with
            display := Function.update b.display (g.cell X Y) (b.draw (g.cell X Y)) } })
      else some ((), t) := by
  obtain ⟨on, col, row⟩ := good.on lt lt'
  have inside : g.cell X Y < b.cells := lt_of_lt_of_le (Mode.cell_lt lt lt') room
  have index : g.index X Y = g.cell X Y := by rw [good.index_eq on, col, row]
  have offset : g.offset X Y = g.place X Y := by rw [good.offset_eq on, col, row]
  obtain ⟨hw, buffers', force⟩ := t
  obtain rfl : buffers' = some b := buffers
  rw [blitPixel, index, offset, good.bytes_stored]
  change StateT.run (if g.cell X Y < b.cells then _ else _) _ = _
  rw [if_pos inside]
  change StateT.run (if force || _ then _ else _) _ = if force || _ then _ else _
  split_ifs with store
  · change (writeDisplay (g.cell X Y) (b.draw (g.cell X Y))).run
      ⟨storePixel hw (g.place X Y) g.bytesPerPixel (b.draw (g.cell X Y)), some b, force⟩ = _
    exact if_pos inside
  · rfl

theorem blitPixel_blitted (good : g.Good) (room : g.w.toNat*g.h.toNat ≤ b.cells)
    {done : ℕ → ℕ → Prop} {t' : Screen} {b' : Buffers} (lt : X < g.w.toNat) (lt' : Y < g.h.toNat)
    (before : Blitted g t b done t' b') :
    ∃ t'', (blitPixel g X Y).run t' = some ((), t'') ∧
      ∃ b'', Blitted g t b (fun X' Y' => done X' Y' ∨ X' = X ∧ Y' = Y) t'' b'' := by
  have room' : g.w.toNat*g.h.toNat ≤ b'.cells := before.cells.symm ▸ room
  rw [blitPixel_run good before.buffers room' lt lt']
  split_ifs with store
  · refine ⟨_, rfl, _, rfl, before.draw, before.cells, before.forceFull, ?_, ?_⟩
    · refine before.presented.imp id fun shown X' Y' ltX ltY => ?_
      dsimp only
      by_cases same : X' = X ∧ Y' = Y
      · obtain ⟨rfl, rfl⟩ := same
        rw [Function.update_self]
        exact Mode.Good.shows_here g _ _ _ _
      · rw [Function.update_of_ne fun eq => same (Mode.cell_inj ltX lt eq)]
        exact good.shows_other lt ltX same (shown X' Y' ltX ltY)
    · intro X' Y' ltX ltY here
      dsimp only
      by_cases same : X' = X ∧ Y' = Y
      · obtain ⟨rfl, rfl⟩ := same
        rw [Function.update_self, before.draw]
        exact ⟨Mode.Good.shows_here g _ _ _ _, rfl⟩
      · obtain ⟨shown, eq⟩ := before.done X' Y' ltX ltY (here.resolve_right same)
        rw [Function.update_of_ne fun eq => same (Mode.cell_inj ltX lt eq)]
        exact ⟨good.shows_other lt ltX same shown, eq⟩
  · rw [Bool.or_eq_true, not_or, Bool.not_eq_true, bne_iff_ne, not_not] at store
    obtain ⟨unforced, same⟩ := store
    rw [before.forceFull] at unforced
    have shown := before.presented.resolve_left (by rw [unforced]; decide)
    refine ⟨t', rfl, b', before.buffers, before.draw, before.cells, before.forceFull,
      before.presented, fun X' Y' ltX ltY here => ?_⟩
    by_cases eq : X' = X ∧ Y' = Y
    · obtain ⟨rfl, rfl⟩ := eq
      rw [← before.draw, same]
      exact ⟨shown X' Y' ltX ltY, rfl⟩
    · exact before.done X' Y' ltX ltY (here.resolve_right eq)

theorem Mode.Good.asInt (good : g.Good) :
    Display.asInt g.w.toNat = g.w.toNat ∧ Display.asInt g.h.toNat = g.h.toNat := by
  obtain ⟨wide, high⟩ := good.small
  constructor
  · rw [Display.asInt, Int.bmod_def]
    split_ifs with half
    · omega
    · omega
  · rw [Display.asInt, Int.bmod_def]
    split_ifs with half
    · omega
    · omega

/-- With buffers a present is one blit of the whole screen. -/
theorem present_blit (buffers : t.buffers = some b) {t' : Screen}
    (blit : (blitRect g 0 0 (asInt g.w.toNat) (asInt g.h.toNat)).run t = some ((), t')) :
    (fbPresent g).run t = some ((), { t' with forceFull := false }) := by
  have some : ¬t.buffers.isNone = true := by
    rw [buffers]
    exact Bool.false_ne_true
  have now : (get : DrawM Screen).run t = Option.some (t, t) := rfl
  have loop : (List.forM [(⟨0, 0, asInt g.w.toNat, asInt g.h.toNat⟩ : FbRect)]
      fun r => blitRect g r.x r.y r.w r.h).run t = Option.some ((), t') := by
    unfold List.forM
    rw [bind_some blit]
    rfl
  rw [fbPresent, bind_some now, if_neg some, fbPresentRects, bind_some now,
    if_neg (not_or.mpr ⟨some, List.cons_ne_nil _ _⟩), bind_some loop]
  rfl

/-- On a mapped framebuffer the screen shows the draw buffer after `fb_present`. -/
theorem present_shown (good : g.Good) (mapped : g.addr ≠ 0) (buffers : t.buffers = some b)
    (room : g.w.toNat*g.h.toNat ≤ b.cells)
    (presented : t.forceFull = true ∨ ∀ X Y, X < g.w.toNat → Y < g.h.toNat →
      g.Shows t.hw X Y (b.display (g.cell X Y))) :
    ∃ t' b', (fbPresent g).run t = some ((), t') ∧ t'.buffers = some b' ∧ b'.draw = b.draw ∧
      b'.cells = b.cells ∧ ∀ X Y, X < g.w.toNat → Y < g.h.toNat →
        g.Shows t'.hw X Y (b.draw (g.cell X Y)) ∧ b'.display (g.cell X Y) = b.draw (g.cell X Y) := by
  obtain ⟨t', run, b', last⟩ := nested_invariant
    (f := fun x y => blitPixel g (0+(x : ℤ)) (0+(y : ℤ)))
    (fun done t' => ∃ b', Blitted g t b done t' b') g.w.toNat g.h.toNat
    (fun done x y s lt lt' before => by
      obtain ⟨b', before⟩ := before
      rw [zero_add, zero_add]
      exact blitPixel_blitted good room lt lt' before)
    (fun sub before => by
      obtain ⟨b', before⟩ := before
      exact ⟨b', before.buffers, before.draw, before.cells, before.forceFull, before.presented,
        fun X Y lt lt' here => before.done X Y lt lt' (sub X Y here)⟩)
    (s := t) ⟨b, buffers, rfl, rfl, rfl, presented, fun X Y _ _ none => none.elim⟩
  obtain ⟨wide, high⟩ := good.asInt
  have posW := good.wide
  have posH := good.high
  have some : ¬t.buffers.isNone = true := by
    rw [buffers]
    exact Bool.false_ne_true
  have now : (get : DrawM Screen).run t = Option.some (t, t) := rfl
  have blit : (blitRect g 0 0 (Display.asInt g.w.toNat) (Display.asInt g.h.toNat)).run t =
      Option.some ((), t') := by
    rw [blitRect, wide, high, bind_some now, if_neg (not_or.mpr ⟨some, mapped⟩),
      if_neg (lt_irrefl 0), if_neg (lt_irrefl 0), max_self]
    dsimp only
    rw [if_neg (by omega), if_neg (by omega), if_neg (by omega), if_neg (by omega)]
    exact run
  exact ⟨{ t' with forceFull := false }, b', present_blit buffers blit, last.buffers, last.draw,
    last.cells, fun X Y lt lt' => last.done X Y lt lt' ⟨lt, lt'⟩⟩

theorem present_twin (good : g.Good) (mapped : g.addr ≠ 0) : Twin (Alike g) (fbPresent g) := by
  rintro s t ⟨b, twins⟩
  obtain ⟨t', b', run, buffers, draw, cells, shown⟩ :=
    present_shown good mapped twins.buffers twins.room twins.presented
  have now : (get : DrawM Screen).run s = some (s, s) := rfl
  refine ⟨(), s, t', ?_, run, b', ⟨twins.direct, buffers, cells ▸ twins.room,
    .inr fun X Y lt lt' => ?_⟩, fun X Y lt lt' => ?_⟩
  · rw [fbPresent, bind_some now, twins.direct]
    rfl
  · rw [(shown X Y lt lt').2]
    exact (shown X Y lt lt').1
  · rw [draw]
    exact twins.drawn X Y lt lt'

variable {font : Font}

section
variable {P : DrawM Unit → Prop} (idle : P (pure ()))
  (seq : ∀ {x y : DrawM Unit}, P x → P y → P (x >>= fun _ => y))
include idle seq

theorem forM_of {ι : Type} {f : ι → DrawM Unit} (l : List ι) (each : ∀ i, P (f i)) :
    P (l.forM f) := by
  induction l with
  | nil => exact idle
  | cons i rest ih => exact seq (each i) ih

theorem forPoints_of {w h : ℤ} {f : ℕ → ℕ → DrawM Unit} (each : ∀ dx dy, P (f dx dy)) :
    P (forPoints w h f) :=
  forM_of idle seq _ fun dy => forM_of idle seq _ fun dx => each dx dy

variable (put : ∀ x y c, P (fbPutPixel g x y c))
include put

theorem drawChar_of (x y : ℤ) (ch : UInt8) (fg bg : Color) : P (fbDrawChar g font x y ch fg bg) :=
  forPoints_of idle seq fun _ _ => put _ _ _

theorem drawChars_of (x y : ℤ) (fg bg : Color) (i : ℕ) (l : List UInt8) :
    P (drawChars g font x y fg bg i l) := by
  induction l generalizing i with
  | nil => exact idle
  | cons ch rest ih => exact seq (drawChar_of idle seq put _ _ ch fg bg) (ih (i+1))

theorem drawCharEx_of (x y : ℤ) (ch : UInt8) (fg bg : Color) (scale : ℤ) (transparent : Bool) :
    P (fbDrawCharEx g font x y ch fg bg scale transparent) := by
  refine forPoints_of idle seq fun col row => ?_
  by_cases clear : (!font.on ch col row && transparent) = true
  · rw [if_pos clear]
    exact idle
  · rw [if_neg clear]
    exact forPoints_of idle seq fun _ _ => put _ _ _

theorem drawCharsEx_of (x y : ℤ) (fg bg : Color) (scale : ℤ) (transparent : Bool) (i : ℕ)
    (l : List UInt8) : P (drawCharsEx g font x y fg bg scale transparent i l) := by
  induction l generalizing i with
  | nil => exact idle
  | cons ch rest ih =>
    exact seq (drawCharEx_of idle seq put _ _ ch fg bg scale transparent) (ih (i+1))

/-- What holds of `fb_put_pixel` and of `fb_clear`, and of sequences of programs it holds of,
holds of every call that draws. -/
theorem perform_of (clear : ∀ c, P (fbClear g c)) {call : DrawCall} (draws : call ≠ .present) :
    P (call.perform g font) := by
  cases call with
  | clear c => exact clear c
  | putPixel x y c => exact put x y c
  | fillRect x y w h c =>
    rw [DrawCall.perform, fbFillRect]
    split_ifs with empty
    · exact idle
    · exact forPoints_of idle seq fun _ _ => put _ _ _
  | drawImage x y w h pixels =>
    rw [DrawCall.perform, fbDrawImage]
    split_ifs with empty
    · exact idle
    · exact forPoints_of idle seq fun _ _ => put _ _ _
  | drawChar x y ch fg bg => exact drawChar_of idle seq put x y ch fg bg
  | drawString x y s fg bg => exact drawChars_of idle seq put x y fg bg 0 s
  | drawCharEx x y ch fg bg scale transparent =>
    exact drawCharEx_of idle seq put x y ch fg bg scale transparent
  | drawStringEx x y s fg bg scale transparent =>
    exact drawCharsEx_of idle seq put x y fg bg _ transparent 0 s
  | present => exact absurd rfl draws

end

theorem perform_twin (good : g.Good) (mapped : g.addr ≠ 0) (font : Font) (call : DrawCall) :
    Twin (Alike g) (call.perform g font) := by
  by_cases presents : call = .present
  · rw [presents]
    exact present_twin good mapped
  · refine perform_of (.pure ()) (fun first rest => first.bind fun _ => rest) (putPixel_twin good)
      (fun c => ?_) presents
    rintro s t ⟨b, twins⟩
    obtain ⟨s', t', run, run', alike⟩ := clear_twins good c twins.toReady
    exact ⟨(), s', t', run, run', alike⟩

theorem drawing_twin (good : g.Good) (mapped : g.addr ≠ 0) (font : Font) (p : Drawing) :
    Twin (Alike g) (p.run g font) := by
  induction p with
  | stop => exact .pure ()
  | call c next ih => exact (perform_twin good mapped font c).bind fun _ => ih
  | read x y next ih => exact (getPixel_twin good x y).bind fun c => ih c

variable {k : Kernel} {size : Word} {found : ℕ → UInt32}

/-- `bytes` in `fb_enable_backbuffer` -/
def Mode.bufferBytes (g : Mode) : Word := (g.total*4).toBitVec

/-- Both calls of `kmalloc` in `fb_enable_backbuffer` succeed. -/
structure Allocates (g : Mode) (k : Kernel) : Prop where
  draw : ((kmalloc g.bufferBytes).run k).1 ≠ 0
  display : ((kmalloc g.bufferBytes).run ((kmalloc g.bufferBytes).run k).2).1 ≠ 0

theorem Mode.bufferBytes_toNat (g : Mode) :
    g.bufferBytes.toNat = g.w.toNat*g.h.toNat*4%2^64 := by
  change (g.total*4).toNat = _
  rw [UInt64.toNat_mul, g.total_toNat]
  rfl

/-- The blocks hold all pixels exactly when the size of a buffer does not overflow. -/
theorem Allocates.cells (enabled : Allocates g k) :
    g.w.toNat*g.h.toNat*4+24 < 2^64 ∧ g.w.toNat*g.h.toNat ≤ 1073741824 ∧
        g.w.toNat*g.h.toNat ≤ blockCells g.bufferBytes ∨
      2^64 ≤ g.w.toNat*g.h.toNat*4+24 ∧ blockCells g.bufferBytes < g.w.toNat*g.h.toNat := by
  obtain ⟨pos, le⟩ := kmalloc_bound enabled.draw
  rw [kmallocPages_wrap, g.bufferBytes_toNat] at pos le
  rw [blockCells, kmallocPages_wrap, g.bufferBytes_toNat]
  omega

/-- Without buffers `fb_enable_backbuffer` installs and clears them. -/
theorem enable_run (enabled : Allocates g k) (some : g.total ≠ 0) (bytes : g.total*4 ≠ 0)
    (direct : s.buffers = none) : (fbEnableBackbuffer g k found).run s =
      (do
        clearBuffers g.total.toNat
        modify fun s => { s with forceFull := true }
        return ((kmalloc g.bufferBytes).run ((kmalloc g.bufferBytes).run k).2).2 : DrawM Kernel).run
        { s with buffers := Option.some ⟨found, found, blockCells g.bufferBytes⟩ } := by
  have now : (get : DrawM Screen).run s = Option.some (s, s) := rfl
  have empty : ¬s.buffers.isSome = true := by
    rw [direct]
    exact Bool.false_ne_true
  rw [fbEnableBackbuffer, bind_some now, if_neg empty]
  dsimp only
  rw [if_neg (not_or.mpr ⟨some, bytes⟩), show (g.total*4).toBitVec = g.bufferBytes from rfl,
    if_neg (not_or.mpr ⟨enabled.draw, enabled.display⟩)]
  rfl

theorem clearTurn_run (hw : ℕ → UInt8) (b : Buffers) (force : Bool) (i : ℕ) :
    (do writeDraw i 0; writeDisplay i 0 : DrawM Unit).run ⟨hw, some b, force⟩ =
      if i < b.cells then some ((), ⟨hw, some ⟨Function.update b.draw i 0,
        Function.update b.display i 0, b.cells⟩, force⟩) else none := by
  split_ifs with inside
  · have first : (writeDraw i 0).run ⟨hw, some b, force⟩ =
        some ((), ⟨hw, some { b with draw := Function.update b.draw i 0 }, force⟩) := if_pos inside
    rw [bind_some first]
    exact if_pos inside
  · exact bind_none (if_neg inside)

/-- The draw buffer is empty then, and the next present sends every pixel. -/
theorem enable_ready (found : ℕ → UInt32) (enabled : Allocates g k) (some : g.total ≠ 0)
    (bytes : g.total*4 ≠ 0) (room : g.w.toNat*g.h.toNat ≤ blockCells g.bufferBytes)
    (direct : s.buffers = none) :
    ∃ k' t b, (fbEnableBackbuffer g k found).run s = Option.some (k', t) ∧ Ready g s t b ∧
      t.hw = s.hw ∧ t.forceFull = true ∧ ∀ i < g.w.toNat*g.h.toNat, b.draw i = 0 := by
  obtain ⟨t, run, b, buffers, cells, hw, empty⟩ := forM_invariant
    (f := fun i => (do writeDraw i 0; writeDisplay i 0 : DrawM Unit))
    (fun done t => ∃ b, t.buffers = Option.some b ∧ b.cells = blockCells g.bufferBytes ∧
      t.hw = s.hw ∧ ∀ i ∈ done, b.draw i = 0)
    (List.range g.total.toNat)
    (fun done i t mem before => by
      obtain ⟨b, buffers, cells, hw, empty⟩ := before
      obtain ⟨hw', buffers', force⟩ := t
      obtain rfl : buffers' = Option.some b := buffers
      rw [g.total_toNat, List.mem_range] at mem
      refine ⟨_, (clearTurn_run hw' b force i).trans (if_pos (by omega)), _, rfl, cells, hw,
        fun j here => ?_⟩
      by_cases eq : j = i
      · rw [eq]
        exact Function.update_self i _ _
      · rcases List.mem_append.mp here with old | new
        · exact (Function.update_of_ne eq _ _).trans (empty j old)
        · exact absurd (List.mem_singleton.mp new) eq)
    (s := { s with buffers := Option.some ⟨found, found, blockCells g.bufferBytes⟩ })
    ⟨_, rfl, rfl, rfl, fun i none => absurd none List.not_mem_nil⟩
  refine ⟨((kmalloc g.bufferBytes).run ((kmalloc g.bufferBytes).run k).2).2,
    { t with forceFull := true }, b, ?_, ⟨direct, buffers, cells ▸ room, .inl rfl⟩, hw, rfl,
    fun i lt => empty i (by rw [g.total_toNat, List.mem_range]; exact lt)⟩
  rw [enable_run enabled some bytes direct, clearBuffers, bind_some run]
  rfl

/-- Where a buffer is too small its clearing leaves the block. -/
theorem enable_fails (enabled : Allocates g k) (some : g.total ≠ 0) (bytes : g.total*4 ≠ 0)
    (short : blockCells g.bufferBytes < g.w.toNat*g.h.toNat) (direct : s.buffers = none) :
    (fbEnableBackbuffer g k found).run s = none := by
  rw [enable_run enabled some bytes direct, clearBuffers]
  refine bind_none (forM_fails (P := fun t => ∃ b, t.buffers = Option.some b ∧
    b.cells = blockCells g.bufferBytes) _ (i := blockCells g.bufferBytes) ?_ ?_ ?_ ⟨_, rfl, rfl⟩)
  · rw [g.total_toNat, List.mem_range]
    exact short
  · rintro ⟨hw, _, force⟩ ⟨b, rfl, cells⟩
    exact (clearTurn_run hw b force _).trans (if_neg (by rw [cells]; exact lt_irrefl _))
  · rintro j ⟨hw, _, force⟩ t' ⟨b, rfl, cells⟩ run
    have turn := clearTurn_run hw b force j
    rw [run] at turn
    split_ifs at turn with inside
    cases turn
    exact ⟨_, rfl, cells⟩

theorem Allocates.nonzero (enabled : Allocates g k) : g.total ≠ 0 ∧ g.total*4 ≠ 0 := by
  have bytes : g.total*4 ≠ 0 := by
    intro zero
    refine enabled.draw ?_
    rw [show g.bufferBytes = 0 by rw [Mode.bufferBytes, zero]; rfl]
    rfl
  refine ⟨fun zero => bytes ?_, bytes⟩
  rw [zero]
  rfl

/-- `fb_init` accepts the mode, a row of pixels fits the pitch, and the channels of eight bits lie
inside the pixel. -/
structure Mode.Accepted (g : Mode) (tag : FbTag) : Prop where
  init : fbInit (some tag) = (0, some g)
  rows : g.w.toNat*g.bpp.toNat/8 ≤ g.pitch.toNat
  red : g.rPos.toNat+8 ≤ g.bpp.toNat
  green : g.gPos.toNat+8 ≤ g.bpp.toNat
  blue : g.bPos.toNat+8 ≤ g.bpp.toNat

theorem Mode.Accepted.good {tag : FbTag} (accepted : g.Accepted tag)
    (few : g.w.toNat*g.h.toNat ≤ 1073741824) : g.Good := by
  obtain ⟨init, rows, red, green, blue⟩ := accepted
  have kinds : (g.bpp = 32 ∨ g.bpp = 24) ∧ g.w ≠ 0 ∧ g.h ≠ 0 := by
    rw [fbInit] at init
    split_ifs at init with type depth zero pitch
    · exact absurd (Prod.mk.inj init).1 (by decide)
    · exact absurd (Prod.mk.inj init).1 (by decide)
    · exact absurd (Prod.mk.inj init).1 (by decide)
    · exact absurd (Prod.mk.inj init).1 (by decide)
    · rw [not_and_or, not_not, not_not] at depth
      rw [not_or] at zero
      rw [← Option.some.inj (Prod.mk.inj init).2]
      exact ⟨depth, zero⟩
  obtain ⟨depth, wide, high⟩ := kinds
  have pos {n : UInt32} (ne : n ≠ 0) : 0 < n.toNat :=
    Nat.pos_of_ne_zero fun zero => ne (UInt32.toNat_inj.mp zero)
  rcases depth with eq | eq
  · have bytes : g.bytesPerPixel = 4 := by rw [Mode.bytesPerPixel, eq]; rfl
    rw [eq, show (32 : UInt8).toNat = 32 from rfl] at rows red green blue
    exact ⟨.inr ⟨bytes, eq⟩, by rw [bytes]; omega, by omega, by omega, by omega, pos wide, pos high, few⟩
  · have bytes : g.bytesPerPixel = 3 := by rw [Mode.bytesPerPixel, eq]; rfl
    rw [eq, show (24 : UInt8).toNat = 24 from rfl] at rows red green blue
    exact ⟨.inl ⟨bytes, eq⟩, by rw [bytes]; omega, by omega, by omega, by omega, pos wide, pos high, few⟩

/-- `fb_enable_backbuffer`, the drawing, and `fb_present`. -/
def Drawing.buffered (g : Mode) (font : Font) (k : Kernel) (found : ℕ → UInt32) (p : Drawing) :
    DrawM Unit := do
  let _ ← fbEnableBackbuffer g k found
  p.run g font
  fbPresent g

/-- Drawn directly and drawn into the back buffer, the visible bytes are the same. -/
def Agrees (g : Mode) (font : Font) (k : Kernel) (found : ℕ → UInt32) (hw : ℕ → UInt8)
    (p : Drawing) : Prop :=
  ∃ s t, (p.run g font).run ⟨hw, none, false⟩ = some ((), s) ∧
    (p.buffered g font k found).run ⟨hw, none, false⟩ = some ((), t) ∧
    ∀ X Y i, X < g.w.toNat → Y < g.h.toNat → i < g.bytesPerPixel →
      s.hw (g.place X Y+i) = t.hw (g.place X Y+i)

theorem agrees_of_fits (good : g.Good) (mapped : g.addr ≠ 0) (enabled : Allocates g k)
    (room : g.w.toNat*g.h.toNat ≤ blockCells g.bufferBytes) (font : Font) (found : ℕ → UInt32)
    (hw : ℕ → UInt8) (c : Color) (p : Drawing) :
    Agrees g font k found hw (.call (.clear c) p) := by
  obtain ⟨k', t₀, b₀, enable, ready, -⟩ := enable_ready (s := ⟨hw, none, false⟩) found
    enabled enabled.nonzero.1 enabled.nonzero.2 room rfl
  obtain ⟨s₁, t₁, direct, buffered, alike⟩ := clear_twins good c ready
  obtain ⟨_, s₂, t₂, direct', buffered', b₂, twins⟩ := drawing_twin good mapped font p _ _ alike
  obtain ⟨t₃, b₃, present, -, -, -, shown⟩ :=
    present_shown good mapped twins.buffers twins.room twins.presented
  refine ⟨s₂, t₃, (bind_some direct).trans direct', ?_, fun X Y i lt lt' small => ?_⟩
  · have drawn : (Drawing.run g font (.call (.clear c) p)).run t₀ = some ((), t₂) :=
      (bind_some buffered).trans buffered'
    rw [Drawing.buffered, bind_some enable, bind_some drawn]
    exact present
  · rw [(twins.drawn X Y lt lt').2 i small, (shown X Y lt lt').1 i small]

theorem present_null (null : g.addr = 0) (buffers : t.buffers = some b) :
    (fbPresent g).run t = some ((), { t with forceFull := false }) := by
  have now : (get : DrawM Screen).run t = Option.some (t, t) := rfl
  have blit : (blitRect g 0 0 (asInt g.w.toNat) (asInt g.h.toNat)).run t = Option.some ((), t) := by
    rw [blitRect, bind_some now, if_pos (.inr null)]
    rfl
  exact present_blit buffers blit

theorem agrees_mapped (good : g.Good) (enabled : Allocates g k)
    (room : g.w.toNat*g.h.toNat ≤ blockCells g.bufferBytes) (font : Font)
    (agrees : ∀ found hw c p, Agrees g font k found hw (.call (.clear c) p)) : g.addr ≠ 0 := by
  intro null
  obtain ⟨s, t, direct, buffered, same⟩ := agrees (fun _ => 0)
    (fun _ => wordByte (g.pixelValue ⟨0, 0, 0⟩) 0+1) ⟨0, 0, 0⟩ .stop
  obtain ⟨k', t₀, b₀, enable, ready, hw, -⟩ := @enable_ready g
    ⟨fun _ => wordByte (g.pixelValue ⟨0, 0, 0⟩) 0+1, none, false⟩ k (fun _ => 0)
    enabled enabled.nonzero.1 enabled.nonzero.2 room rfl
  obtain ⟨s₁, cleared, -, shown⟩ := clear_direct good ⟨0, 0, 0⟩
    (show (⟨fun _ => wordByte (g.pixelValue ⟨0, 0, 0⟩) 0+1, none, false⟩ : Screen).buffers = none
      from rfl)
  obtain ⟨draw, filled, -⟩ := clear_buffer g ⟨0, 0, 0⟩ ready.buffers ready.room
  have bytes : 0 < g.bytesPerPixel := by have := good.le_four; omega
  have pixel := same 0 0 0 good.wide good.high bytes
  have drawn : s = s₁ := by
    have run : (Drawing.run g font (.call (.clear ⟨0, 0, 0⟩) .stop)).run
        ⟨fun _ => wordByte (g.pixelValue ⟨0, 0, 0⟩) 0+1, none, false⟩ = some ((), s₁) :=
      bind_some cleared
    rw [direct] at run
    exact (Prod.mk.inj (Option.some.inj run)).2
  have kept : t.hw = t₀.hw := by
    have run : (Drawing.buffered g font k (fun _ => 0) (.call (.clear ⟨0, 0, 0⟩) .stop)).run
        ⟨fun _ => wordByte (g.pixelValue ⟨0, 0, 0⟩) 0+1, none, false⟩ =
        (fbPresent g).run { t₀ with buffers := some { b₀ with draw := draw } } := by
      rw [Drawing.buffered, bind_some enable]
      exact bind_some ((bind_some filled).trans rfl)
    rw [buffered, present_null null rfl] at run
    rw [(Prod.mk.inj (Option.some.inj run)).2]
  rw [drawn, shown 0 0 good.wide good.high 0 bytes, kept, hw] at pixel
  have value := congrArg UInt8.toNat pixel
  rw [UInt8.toNat_add, show (1 : UInt8).toNat = 1 from rfl] at value
  have small := (wordByte (g.pixelValue ⟨0, 0, 0⟩) 0).toNat_lt
  omega

/-- Drawing directly and through the back buffer agree for every drawing that starts with
`fb_clear` if and only if the framebuffer has an address and the size of a buffer, with the header
of its block, does not overflow 64 bits. -/
theorem backbuffer_agrees_iff {tag : FbTag} (accepted : g.Accepted tag) (font : Font)
    (enabled : Allocates g k) :
    (∀ found hw c p, Agrees g font k found hw (.call (.clear c) p)) ↔
      g.addr ≠ 0 ∧ g.w.toNat*g.h.toNat*4+24 < 2^64 := by
  constructor
  · intro agrees
    rcases enabled.cells with ⟨fits, few, room⟩ | ⟨-, short⟩
    · exact ⟨agrees_mapped (accepted.good few) enabled room font agrees, fits⟩
    · obtain ⟨-, t, -, buffered, -⟩ := agrees (fun _ => 0) (fun _ => 0) ⟨0, 0, 0⟩ .stop
      rw [Drawing.buffered, bind_none (enable_fails enabled enabled.nonzero.1 enabled.nonzero.2
        short rfl)] at buffered
      cases buffered
  · rintro ⟨mapped, fits⟩ found hw c p
    rcases enabled.cells with ⟨-, few, room⟩ | ⟨large, -⟩
    · exact agrees_of_fits (accepted.good few) mapped enabled room font found hw c p
    · exact absurd fits (Nat.not_lt.mpr large)

theorem Pmm.Room.allocates {first stop : ℕ} (room : k.pmm.Room first stop)
    (nonzero : g.bufferBytes ≠ 0) (small : g.bufferBytes.toNat < 2^63)
    (le : first+2*(kmallocPages g.bufferBytes).toNat ≤ stop) : Allocates g k := by
  obtain ⟨start, k₁, found₁, -, room₁⟩ := kmalloc_room room nonzero small (by omega)
  obtain ⟨start', k₂, found₂, -, -⟩ := kmalloc_room room₁ nonzero small (by omega)
  have draw : ((kmalloc g.bufferBytes).run k).1 ≠ 0 := by
    rw [found₁.run]
    exact found₁.ptr_ne
  refine ⟨draw, ?_⟩
  rw [found₁.run, found₂.run]
  exact found₂.ptr_ne

def desktopTag : FbTag := ⟨0xFD000000, 5120, 1280, 1024, 32, 1, 16, 8, 0⟩

def desktopMode : Mode := ⟨0xFD000000, 5120, 1280, 1024, 32, 16, 8, 0⟩

theorem backbuffer_agrees_desktop : ∃ k, ∀ font found hw c p,
    Agrees desktopMode font k found hw (.call (.clear c) p) := by
  obtain ⟨k, -, room, -⟩ := desktop_booted
  have accepted : desktopMode.Accepted desktopTag :=
    ⟨rfl, by decide, by decide, by decide, by decide⟩
  have enabled : Allocates desktopMode k :=
    Pmm.Room.allocates room (by decide) (by decide) (by decide)
  exact ⟨k, fun font => (backbuffer_agrees_iff accepted font enabled).mpr
    ⟨by decide, by decide⟩⟩

def hugeTag : FbTag := ⟨0xFD000000, 4294967295, 1073758208, 4294901761, 24, 1, 16, 8, 0⟩

def hugeMode : Mode := ⟨0xFD000000, 4294967295, 1073758208, 4294901761, 24, 16, 8, 0⟩

theorem huge_disagrees : ¬∀ (g : Mode) (tag : FbTag) (font : Font) (k : Kernel), g.Accepted tag →
    Allocates g k → ∀ found hw c p, Agrees g font k found hw (.call (.clear c) p) := by
  intro all
  obtain ⟨k, -, room, -⟩ := desktop_booted
  have accepted : hugeMode.Accepted hugeTag :=
    ⟨rfl, by decide, by decide, by decide, by decide⟩
  have enabled : Allocates hugeMode k :=
    Pmm.Room.allocates room (by decide) (by decide) (by decide)
  obtain ⟨-, t, -, buffered, -⟩ := all hugeMode hugeTag (fun _ _ => 0) k accepted enabled
    (fun _ => 0) (fun _ => 0) ⟨0, 0, 0⟩ .stop
  have short : blockCells hugeMode.bufferBytes < hugeMode.w.toNat*hugeMode.h.toNat := by decide
  rw [Drawing.buffered, bind_none (enable_fails enabled enabled.nonzero.1 enabled.nonzero.2
    short rfl)] at buffered
  cases buffered

end TinyOS.Display
