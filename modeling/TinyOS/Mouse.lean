import TinyOS.StateRuns

set_option autoImplicit false

/-! The mouse driver (drivers/mouse/mouse.c): the interrupt handler assembles packets that the
main loop applies. -/
namespace TinyOS.Mouse
open StateRuns

abbrev Byte := BitVec 8

structure Pointer where
  x : ℤ
  y : ℤ
  buttons : Byte
  deriving DecidableEq

/-- The static variables of mouse.c; `packet` has four cells. -/
structure Driver where
  pointer : Pointer
  packet : ℕ → Byte
  packetIndex : ℕ
  packetReady : Bool
  packetSize : ℕ
  scrollAccum : BitVec 32
  irqCount : BitVec 64

abbrev MouseM := StateM Driver

/-- `mouse_handler` with the byte it finds at the data port. -/
def mouseHandler (byte : Byte) : MouseM Unit := modify fun s =>
  let s := { s with irqCount := s.irqCount+1 }
  if s.packetIndex = 0 ∧ byte &&& 0x08 = 0 then s
  else
    let s := { s with
      packet := Function.update s.packet s.packetIndex byte
      packetIndex := s.packetIndex+1 }
    if s.packetIndex = s.packetSize then { s with packetIndex := 0, packetReady := true } else s

structure Screen where
  fbWidth : ℤ
  fbHeight : ℤ

def clampTo (size v : ℤ) : ℤ :=
  let v := if v < 0 then 0 else v
  if size ≤ v then size-1 else v

/-- Where a packet takes the pointer: the overflow bits drop a movement. -/
def Pointer.move (screen : Screen) (p : Pointer) (packet : ℕ → Byte) : Pointer where
  x := clampTo screen.fbWidth (p.x+if packet 0 &&& 0x40 = 0 then (packet 1).toInt else 0)
  y := clampTo screen.fbHeight (p.y+if packet 0 &&& 0x80 = 0 then -(packet 2).toInt else 0)
  buttons := packet 0 &&& 0x07

def wheel (packetSize : ℕ) (packet : ℕ → Byte) : BitVec 32 :=
  if packetSize = 4 then (packet 3).signExtend 32 else 0

def mouseTick (screen : Screen) : MouseM Bool := fun s =>
  if !s.packetReady then (false, s)
  else
    let s := { s with packetReady := false }
    let moved := s.pointer.move screen s.packet
    let dz := wheel s.packetSize s.packet
    let s := if dz ≠ 0 then { s with scrollAccum := s.scrollAccum+dz } else s
    if moved = s.pointer ∧ dz = 0 then (false, s)
    else (true, { s with pointer := moved })

def mouseGetScroll : MouseM (BitVec 32) := fun s => (s.scrollAccum, { s with scrollAccum := 0 })

inductive MouseOp where
  | byte (b : Byte)
  | tick
  | getScroll

/-- The driver, with the bytes received so far, the packets applied so far, in order, and the
scrolling handed out. -/
structure Run where
  driver : Driver
  received : List Byte
  applied : List (List Byte)
  scrolled : BitVec 32

def Driver.buffer (s : Driver) : List Byte := (List.range s.packetSize).map s.packet

def Run.next (screen : Screen) (r : Run) : MouseOp → Run
  | .byte b => { r with
      driver := ((mouseHandler b).run r.driver).2
      received := r.received ++ [b] }
  | .tick => { r with
      driver := ((mouseTick screen).run r.driver).2
      applied := if r.driver.packetReady then r.applied ++ [r.driver.buffer] else r.applied }
  | .getScroll => { r with
      driver := (mouseGetScroll.run r.driver).2
      scrolled := r.scrolled+(mouseGetScroll.run r.driver).1 }

structure Fresh (size : ℕ) (start : Pointer) (r : Run) : Prop where
  size : r.driver.packetSize = size
  pointer : r.driver.pointer = start
  index : r.driver.packetIndex = 0
  ready : r.driver.packetReady = false
  scroll : r.driver.scrollAccum = 0
  received : r.received = []
  applied : r.applied = []
  scrolled : r.scrolled = 0

abbrev MouseReach (screen : Screen) (size : ℕ) (start : Pointer) (allow : Run → MouseOp → Prop) :
    Run → Prop :=
  Reach (Fresh size start) (fun op r r' => r' = r.next screen op) allow

/-- A stream of packets of `size` bytes: the first byte of each has bit 3 set. -/
def WellFormed (size : ℕ) (stream : List Byte) : Prop :=
  ∀ (i : ℕ) (lt : i < stream.length), i%size = 0 → stream[i] &&& 0x08 ≠ 0

def complete (size : ℕ) (stream : List Byte) : List (List Byte) :=
  (List.range (stream.length/size)).map fun k => (stream.drop (k*size)).take size

def cells (packet : List Byte) (i : ℕ) : Byte := packet.getD i 0

/-- The packets applied are the first ones received, all of them unless one waits, and the
pointer and the scrolling are what they say. -/
structure Delivered (screen : Screen) (size : ℕ) (start : Pointer) (r : Run) : Prop where
  whole : r.applied <+: complete size r.received
  all : r.driver.packetReady = false → r.applied = complete size r.received
  pointer : r.driver.pointer = r.applied.foldl (fun p q => p.move screen (cells q)) start
  scroll : r.scrolled+r.driver.scrollAccum = (r.applied.map fun q => wheel size (cells q)).sum

def TickFirst (r : Run) : MouseOp → Prop
  | .byte _ => r.driver.packetReady = false
  | .tick => True
  | .getScroll => True

variable {screen : Screen} {size : ℕ} {start : Pointer} {r : Run} {allow : Run → MouseOp → Prop}

theorem complete_flatten (pos : 0 < size) {packets : List (List Byte)} {part : List Byte}
    (sizes : ∀ p ∈ packets, p.length = size) (short : part.length < size) :
    complete size (packets.flatten ++ part) = packets := by
  induction packets with
  | nil =>
    rw [complete, List.flatten_nil, List.nil_append, Nat.div_eq_of_lt short]
    rfl
  | cons p rest ih =>
    have len : p.length = size := sizes p List.mem_cons_self
    have rest' := ih fun q hq => sizes q (List.mem_cons_of_mem _ hq)
    have count : ((p :: rest).flatten ++ part).length/size =
        (rest.flatten ++ part).length/size+1 := by
      rw [List.flatten_cons, List.append_assoc, List.length_append, len, Nat.add_comm,
        Nat.add_div_right _ pos]
    rw [complete, count, List.range_succ_eq_map, List.map_cons, List.map_map]
    congr 1
    · rw [Nat.zero_mul, List.drop_zero, List.flatten_cons, List.append_assoc, ← len,
        List.take_left]
    · conv_rhs => rw [← rest']
      rw [complete]
      refine List.map_congr_left fun k _ => ?_
      have skip : (k+1)*size = p.length+k*size := by
        rw [len, Nat.succ_mul, Nat.add_comm]
      simp only [Function.comp_apply, Nat.succ_eq_add_one]
      rw [skip, List.flatten_cons, List.append_assoc, ← List.drop_drop, List.drop_left]

def Run.waiting (r : Run) : List (List Byte) :=
  if r.driver.packetReady then [r.driver.buffer] else []

def Run.begun (r : Run) : List Byte := (List.range r.driver.packetIndex).map r.driver.packet

structure Framed (screen : Screen) (size : ℕ) (start : Pointer) (r : Run) : Prop where
  size_eq : r.driver.packetSize = size
  index : r.driver.packetIndex < size
  idle : r.driver.packetReady = true → r.driver.packetIndex = 0
  framed : r.received = (r.applied ++ r.waiting).flatten ++ r.begun
  sizes : ∀ p ∈ r.applied ++ r.waiting, p.length = size
  pointer : r.driver.pointer = r.applied.foldl (fun p q => p.move screen (cells q)) start
  scroll : r.scrolled+r.driver.scrollAccum = (r.applied.map fun q => wheel size (cells q)).sum

theorem Framed.delivered (pos : 0 < size) (h : Framed screen size start r) :
    Delivered screen size start r := by
  have part : r.begun.length < size := by
    rw [Run.begun, List.length_map, List.length_range]
    exact h.index
  have whole : complete size r.received = r.applied ++ r.waiting := by
    rw [h.framed]
    exact complete_flatten pos h.sizes part
  refine ⟨?_, fun idle => ?_, h.pointer, h.scroll⟩
  · rw [whole]
    exact List.prefix_append _ _
  · rw [whole, Run.waiting, idle, if_neg Bool.false_ne_true, List.append_nil]

theorem cells_buffer {d : Driver} {i : ℕ} (lt : i < d.packetSize) :
    cells d.buffer i = d.packet i := by
  rw [cells, Driver.buffer, List.getD_eq_getElem _ _ (by simpa using lt)]
  simp

theorem move_buffer {d : Driver} (three : 3 ≤ d.packetSize) (p : Pointer) :
    p.move screen (cells d.buffer) = p.move screen d.packet := by
  rw [Pointer.move, cells_buffer (by omega), cells_buffer (by omega), cells_buffer (by omega)]
  rfl

theorem wheel_buffer (d : Driver) :
    wheel d.packetSize (cells d.buffer) = wheel d.packetSize d.packet := by
  rw [wheel, wheel]
  split_ifs with four
  · rw [cells_buffer (by omega)]
  · rfl

theorem mouseTick_ready {d : Driver} (ready : d.packetReady = true) :
    ((mouseTick screen).run d).2 = { d with
      packetReady := false
      pointer := d.pointer.move screen d.packet
      scrollAccum := d.scrollAccum+wheel d.packetSize d.packet } := by
  change (mouseTick screen d).2 = _
  rw [mouseTick, ready]
  by_cases dz : wheel d.packetSize d.packet = 0
  · by_cases still : d.pointer.move screen d.packet = d.pointer
    · simp [dz, still]
    · simp [dz, still]
  · simp only [Bool.not_true, Bool.false_eq_true, ne_eq, dz, not_false_eq_true, ↓reduceIte, and_false]

theorem mouseTick_idle {d : Driver} (idle : d.packetReady = false) :
    ((mouseTick screen).run d).2 = d := by
  change (mouseTick screen d).2 = _
  rw [mouseTick, idle]
  rfl

theorem Framed.tick (three : 3 ≤ size) (h : Framed screen size start r) :
    Framed screen size start (r.next screen .tick) := by
  cases ready : r.driver.packetReady with
  | false =>
    have same : r.next screen .tick = r := by
      rw [Run.next, mouseTick_idle ready, ready]
      rfl
    rw [same]
    exact h
  | true =>
    have waits : r.waiting = [r.driver.buffer] := by
      rw [Run.waiting, if_pos ready]
    have state : r.next screen .tick = { r with
        driver := { r.driver with
          packetReady := false
          pointer := r.driver.pointer.move screen r.driver.packet
          scrollAccum := r.driver.scrollAccum+wheel r.driver.packetSize r.driver.packet }
        applied := r.applied ++ [r.driver.buffer] } := by
      rw [Run.next, mouseTick_ready ready, if_pos ready]
    have framed := h.framed
    have sizes := h.sizes
    rw [waits] at framed sizes
    rw [state]
    refine ⟨h.size_eq, h.index, fun busy => (by cases busy), ?_, ?_, ?_, ?_⟩
    · change r.received = (r.applied ++ [r.driver.buffer] ++ []).flatten ++ r.begun
      rw [List.append_nil]
      exact framed
    · change ∀ p ∈ r.applied ++ [r.driver.buffer] ++ [], p.length = size
      rw [List.append_nil]
      exact sizes
    · dsimp only
      rw [List.foldl_append, ← h.pointer, List.foldl_cons, List.foldl_nil,
        move_buffer (three.trans_eq h.size_eq.symm)]
    · dsimp only
      rw [List.map_append, List.sum_append, ← h.scroll, List.map_singleton, List.sum_singleton,
        ← h.size_eq, wheel_buffer, add_assoc]

theorem Framed.getScroll (h : Framed screen size start r) :
    Framed screen size start (r.next screen .getScroll) := by
  refine ⟨h.size_eq, h.index, h.idle, h.framed, h.sizes, h.pointer, ?_⟩
  change r.scrolled+r.driver.scrollAccum+0 = _
  rw [add_zero]
  exact h.scroll

/-- The byte goes into the buffer and may complete the packet. -/
theorem mouseHandler_stored {d : Driver} {b : Byte} (first : d.packetIndex = 0 → b &&& 0x08 ≠ 0) :
    ((mouseHandler b).run d).2 = { d with
      irqCount := d.irqCount+1
      packet := Function.update d.packet d.packetIndex b
      packetIndex := if d.packetIndex+1 = d.packetSize then 0 else d.packetIndex+1
      packetReady := if d.packetIndex+1 = d.packetSize then true else d.packetReady } := by
  have stored : ¬(d.packetIndex = 0 ∧ b &&& 0x08 = 0) := fun h => first h.1 h.2
  change (if _ ∧ _ then _ else _ : Driver) = _
  rw [if_neg stored]
  dsimp only
  split_ifs <;> rfl

theorem flatten_length {packets : List (List Byte)} (sizes : ∀ p ∈ packets, p.length = size) :
    packets.flatten.length = packets.length*size := by
  rw [List.length_flatten, List.map_congr_left sizes, List.map_const', List.sum_replicate,
    smul_eq_mul]

theorem Framed.byte {b : Byte} (h : Framed screen size start r)
    (idle : r.driver.packetReady = false) (stream : WellFormed size (r.received ++ [b])) :
    Framed screen size start (r.next screen (.byte b)) := by
  have waits : r.waiting = [] := by
    rw [Run.waiting, idle, if_neg Bool.false_ne_true]
  have framed := h.framed
  have sizes := h.sizes
  rw [waits, List.append_nil] at framed sizes
  have first : r.driver.packetIndex = 0 → b &&& 0x08 ≠ 0 := by
    intro zero
    have len : r.received.length = r.applied.length*size := by
      rw [framed, Run.begun, zero, List.range_zero, List.map_nil, List.append_nil,
        flatten_length sizes]
    have bit := stream r.received.length (by simp) (by rw [len, Nat.mul_mod_left])
    rwa [List.getElem_append_right (le_refl _), List.getElem_singleton] at bit
  have begun : (List.range (r.driver.packetIndex+1)).map
      (Function.update r.driver.packet r.driver.packetIndex b) = r.begun ++ [b] := by
    rw [List.range_succ, List.map_append, List.map_singleton, Function.update_self, Run.begun]
    congr 1
    refine List.map_congr_left fun i lt => ?_
    rw [Function.update_of_ne (Nat.ne_of_lt (List.mem_range.mp lt))]
  have state : r.next screen (.byte b) = { r with
      driver := { r.driver with
        irqCount := r.driver.irqCount+1
        packet := Function.update r.driver.packet r.driver.packetIndex b
        packetIndex := if r.driver.packetIndex+1 = r.driver.packetSize then 0
          else r.driver.packetIndex+1
        packetReady := if r.driver.packetIndex+1 = r.driver.packetSize then true
          else r.driver.packetReady }
      received := r.received ++ [b] } := by
    rw [Run.next, mouseHandler_stored first]
  rw [state]
  have received : r.received ++ [b] = r.applied.flatten ++ (r.begun ++ [b]) := by
    rw [framed, List.append_assoc]
  by_cases last : r.driver.packetIndex+1 = r.driver.packetSize
  · rw [if_pos last, if_pos last]
    rw [last] at begun
    refine ⟨h.size_eq, lt_of_le_of_lt (Nat.zero_le _) h.index, fun _ => rfl, ?_, ?_, h.pointer,
      h.scroll⟩
    · change r.received ++ [b] = (r.applied ++ [(List.range r.driver.packetSize).map
        (Function.update r.driver.packet r.driver.packetIndex b)]).flatten ++ []
      rw [begun, received, List.flatten_append, List.flatten_singleton, List.append_nil]
    · change ∀ p ∈ r.applied ++ [(List.range r.driver.packetSize).map
        (Function.update r.driver.packet r.driver.packetIndex b)], p.length = size
      intro p mem
      rcases List.mem_append.mp mem with mem | mem
      · exact sizes p mem
      · rw [List.mem_singleton.mp mem, List.length_map, List.length_range, h.size_eq]
  · rw [if_neg last, if_neg last]
    have index := h.index
    rw [h.size_eq] at last
    refine ⟨h.size_eq, ?_, fun busy => absurd (idle.symm.trans busy) Bool.false_ne_true, ?_, ?_,
      h.pointer, h.scroll⟩
    · dsimp only
      omega
    · change r.received ++ [b] = (r.applied ++ if r.driver.packetReady then _ else []).flatten ++
        (List.range (r.driver.packetIndex+1)).map
          (Function.update r.driver.packet r.driver.packetIndex b)
      rw [begun, idle, if_neg Bool.false_ne_true, List.append_nil, received]
    · change ∀ p ∈ r.applied ++ if r.driver.packetReady then _ else [], p.length = size
      rw [idle, if_neg Bool.false_ne_true, List.append_nil]
      exact sizes

theorem WellFormed.front {l l' : List Byte} (h : WellFormed size (l ++ l')) :
    WellFormed size l := by
  intro i lt begins
  have bit := h i (by rw [List.length_append]; omega) begins
  rwa [List.getElem_append_left lt] at bit

theorem MouseReach.framed (three : 3 ≤ size) (h : MouseReach screen size start TickFirst r)
    (stream : WellFormed size r.received) : Framed screen size start r := by
  induction h with
  | start fresh =>
    have waits := fresh.ready
    refine ⟨fresh.size, ?_, fun _ => fresh.index, ?_, ?_, ?_, ?_⟩
    · rw [fresh.index]
      omega
    · rw [fresh.received, fresh.applied, Run.waiting, waits, Run.begun, fresh.index]
      rfl
    · rw [fresh.applied, Run.waiting, waits]
      exact fun p mem => absurd mem List.not_mem_nil
    · rw [fresh.applied, fresh.pointer]
      rfl
    · rw [fresh.applied, fresh.scroll, fresh.scrolled]
      rfl
  | step h ok go ih =>
    rename_i r r' op
    subst go
    cases op with
    | byte b => exact (ih stream.front).byte ok stream
    | tick => exact (ih stream).tick three
    | getScroll => exact (ih stream).getScroll

/-- When no byte comes while a packet waits, the packets applied are those received, each once
and in order. -/
theorem packets_delivered (size : ℕ) (sizes : size = 3 ∨ size = 4)
    (h : MouseReach screen size start TickFirst r) (stream : WellFormed size r.received) :
    Delivered screen size start r :=
  (MouseReach.framed (by omega) h stream).delivered (by omega)

def desktop : Screen := ⟨1024, 768⟩

def freshRun (size : ℕ) : Run :=
  ⟨⟨⟨512, 384, 0⟩, fun _ => 0, 0, false, size, 0, 0⟩, [], [], 0⟩

theorem freshRun_fresh (size : ℕ) : Fresh size ⟨512, 384, 0⟩ (freshRun size) :=
  ⟨rfl, rfl, rfl, rfl, rfl, rfl, rfl, rfl⟩

def Meets (allow : Run → MouseOp → Prop) (screen : Screen) : List MouseOp → Run → Prop
  | [], _ => True
  | op :: ops, r => allow r op ∧ Meets allow screen ops (r.next screen op)

theorem run_reach {ops : List MouseOp} (h : MouseReach screen size start allow r)
    (ok : Meets allow screen ops r) :
    MouseReach screen size start allow (ops.foldl (Run.next screen) r) := by
  induction ops generalizing r with
  | nil => exact h
  | cons op rest ih => exact ih (.step h ok.1 rfl) ok.2

/-- A movement with the wheel, and a click behind it that turns the wheel back. -/
def twoPackets : List MouseOp :=
  [.byte 0x08, .byte 5, .byte 0, .byte 2, .tick, .byte 0x09, .byte 0, .byte 0, .byte 0xFF, .tick]

theorem packets_delivered_two : ∃ r : Run, r.applied = [[0x08, 5, 0, 2], [0x09, 0, 0, 0xFF]] ∧
    r.driver.pointer = ⟨517, 384, 1⟩ ∧ r.driver.scrollAccum = 1 ∧
    Delivered desktop 4 ⟨512, 384, 0⟩ r := by
  have reach : MouseReach desktop 4 ⟨512, 384, 0⟩ TickFirst
      (twoPackets.foldl (Run.next desktop) (freshRun 4)) :=
    run_reach (.start (freshRun_fresh 4))
      ⟨rfl, rfl, rfl, rfl, trivial, rfl, rfl, rfl, rfl, trivial, trivial⟩
  refine ⟨_, by decide, by decide, by decide, packets_delivered 4 (.inr rfl) reach ?_⟩
  have received : (twoPackets.foldl (Run.next desktop) (freshRun 4)).received =
      [0x08, 5, 0, 2, 0x09, 0, 0, 0xFF] := by decide
  rw [received]
  unfold WellFormed
  decide

/-- A packet that moves right, and the first byte of one that presses a button, before a tick. -/
def tornRun : Run :=
  [MouseOp.byte 0x08, .byte 5, .byte 0, .byte 0x09, .tick].foldl (Run.next desktop) (freshRun 3)

/-- The click takes over the movement of the packet before it. -/
theorem packet_torn : ¬∀ (screen : Screen) (size : ℕ) (start : Pointer) (r : Run),
    size = 3 ∨ size = 4 → MouseReach screen size start (fun _ _ => True) r →
      WellFormed size r.received → Delivered screen size start r := by
  intro all
  have stream : WellFormed 3 tornRun.received := by
    have received : tornRun.received = [0x08, 5, 0, 0x09] := by decide
    rw [received]
    unfold WellFormed
    decide
  have reach : MouseReach desktop 3 ⟨512, 384, 0⟩ (fun _ _ => True) tornRun :=
    run_reach (.start (freshRun_fresh 3)) (by simp [Meets])
  have whole := (all desktop 3 ⟨512, 384, 0⟩ tornRun (.inl rfl) reach stream).all (by decide)
  exact absurd whole (by decide)

end TinyOS.Mouse
