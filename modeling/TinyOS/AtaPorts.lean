import TinyOS.StateRuns

set_option autoImplicit false

/-! The port accesses of `ata_read_sector` and `ata_write_sector` (drivers/ata/ata.c), and a
device that on READ streams the sector its LBA registers name. What the device answers to a
status read, or to a data read when it streams nothing, is not fixed. -/
namespace TinyOS.AtaPorts
open StateRuns

abbrev Byte := BitVec 8
abbrev Word16 := BitVec 16
abbrev Lba := BitVec 32

abbrev ataSrErr : Byte := 0x01
abbrev ataSrDrq : Byte := 0x08
abbrev ataSrDf : Byte := 0x20
abbrev ataSrBsy : Byte := 0x80
abbrev ataTimeout : ℕ := 1000000

structure Registers where
  hddevsel : Byte
  lba0 : Byte
  lba1 : Byte
  lba2 : Byte
  deriving DecidableEq

/-- The sector named: 28 bits. -/
def Registers.named (r : Registers) : ℕ :=
  r.hddevsel.toNat%16*2^24+r.lba2.toNat*2^16+r.lba1.toNat*2^8+r.lba0.toNat

/-- `0xE0 | ((lba >> 24) & 0x0F)` -/
def driveSelect (lba : Lba) : Byte := (0xE0 : Byte) ||| ((lba >>> 24).setWidth 8 &&& (0x0F : Byte))

def registersOf (lba : Lba) : Registers where
  hddevsel := driveSelect lba
  lba0 := lba.setWidth 8
  lba1 := (lba >>> 8).setWidth 8
  lba2 := (lba >>> 16).setWidth 8

inductive Transfer where
  | none
  | reading (sector i : ℕ)
  | writing (sector i : ℕ)

structure Device where
  sectors : ℕ → ℕ → Word16
  registers : Registers
  secCount : Byte
  transfer : Transfer

/-- `inw(ATA_DATA)`; the word is `other` when nothing is streamed. -/
def Device.inw (d : Device) (other : Word16) : Word16 × Device :=
  match d.transfer with
  | .reading sector i =>
    if i < 256 then (d.sectors sector i, { d with transfer := .reading sector (i+1) })
    else (other, d)
  | .none => (other, d)
  | .writing _ _ => (other, d)

/-- `outw(ATA_DATA, w)` -/
def Device.outw (d : Device) (w : Word16) : Device :=
  match d.transfer with
  | .writing sector i =>
    if i < 256 then
      { d with
        sectors := Function.update d.sectors sector (Function.update (d.sectors sector) i w)
        transfer := .writing sector (i+1) }
    else d
  | .none => d
  | .reading _ _ => d

/-- A call of `ata_read_sector`, or of `ata_write_sector` with the words to write. -/
inductive Command where
  | read
  | write (words : ℕ → Word16)

structure Call where
  command : Command
  lba : Lba

inductive Pc where
  | hddevsel
  | delay (n : ℕ)
  | secCount
  | lba0
  | lba1
  | lba2
  | command
  | waitBsy (n : ℕ)
  | waitDrq (n : ℕ)
  | data (n : ℕ)
  | flush
  | waitFlush (n : ℕ)
  | done (result : ℤ)

/-- One status read of `ata_wait_bsy` or `ata_wait_drq`. -/
def poll (status : Byte) (ready : Bool) (n : ℕ) (again : ℕ → Pc) (next : Pc) : Pc :=
  if status &&& ataSrErr ≠ 0 then .done (-2)
  else if status &&& ataSrDf ≠ 0 then .done (-3)
  else if ready then next
  else if n+1 < ataTimeout then again (n+1)
  else .done (-1)

structure Progress where
  call : Call
  pc : Pc
  buffer : ℕ → Word16

structure Bus where
  progress : Progress
  device : Device

def Bus.goto (b : Bus) (pc : Pc) : Bus := { b with progress := { b.progress with pc := pc } }

def Bus.access (b : Bus) (input : Word16) : Bus :=
  let status := input.setWidth 8
  let p := b.progress
  let d := b.device
  let r := d.registers
  match p.pc with
  | .hddevsel => { (b.goto (.delay 0)) with
      device := { d with registers := { r with hddevsel := driveSelect p.call.lba } } }
  | .delay n => b.goto (if n+1 < 4 then .delay (n+1) else .secCount)
  | .secCount => { (b.goto .lba0) with device := { d with secCount := 1 } }
  | .lba0 => { (b.goto .lba1) with
      device := { d with registers := { r with lba0 := p.call.lba.setWidth 8 } } }
  | .lba1 => { (b.goto .lba2) with
      device := { d with registers := { r with lba1 := (p.call.lba >>> 8).setWidth 8 } } }
  | .lba2 => { (b.goto .command) with
      device := { d with registers := { r with lba2 := (p.call.lba >>> 16).setWidth 8 } } }
  | .command => { (b.goto (.waitBsy 0)) with
      device := { d with transfer :=
        match p.call.command with
        | .read => .reading r.named 0
        | .write _ => .writing r.named 0 } }
  | .waitBsy n => b.goto (poll status (status &&& ataSrBsy = 0) n .waitBsy (.waitDrq 0))
  | .waitDrq n => b.goto (poll status (status &&& ataSrDrq ≠ 0) n .waitDrq (.data 0))
  | .data n =>
    match p.call.command with
    | .read =>
      let w := d.inw input
      { progress := { p with
          buffer := Function.update p.buffer n w.1
          pc := if n+1 < 256 then .data (n+1) else .done 0 }
        device := w.2 }
    | .write words => { (b.goto (if n+1 < 256 then .data (n+1) else .flush)) with
        device := d.outw (words n) }
  | .flush => { (b.goto (.waitFlush 0)) with device := { d with transfer := .none } }
  | .waitFlush n => b.goto (poll status (status &&& ataSrBsy = 0) n .waitFlush (.done 0))
  | .done _ => b

def Call.start (c : Call) (buffer : ℕ → Word16) : Progress := ⟨c, .hddevsel, buffer⟩

def Completes (c : Call) (d d' : Device) : Prop :=
  ∃ (buffer : ℕ → Word16) (inputs : List Word16) (result : ℤ) (b : Bus),
    inputs.foldl Bus.access ⟨c.start buffer, d⟩ = b ∧ b.progress.pc = .done result ∧
      b.device = d'

inductive Interrupts : List Call → Device → Device → Prop where
  | nil (d : Device) : Interrupts [] d d
  | cons {c : Call} {rest : List Call} {d d' d'' : Device} (first : Completes c d d')
      (others : Interrupts rest d' d'') : Interrupts (c :: rest) d d''

/-- A port access of the call in the main loop, or an interrupt between two of them. -/
inductive ReadOp where
  | access (input : Word16)
  | interrupt (calls : List Call)

inductive ReadStep : ReadOp → Bus → Bus → Prop where
  | access (input : Word16) (b : Bus) : ReadStep (.access input) b (b.access input)
  | interrupt {calls : List Call} {b : Bus} {d : Device} (busy : ∀ r, b.progress.pc ≠ .done r)
      (go : Interrupts calls b.device d) : ReadStep (.interrupt calls) b { b with device := d }

/-- The runs of `ata_read_sector(lba)` with interrupts. -/
abbrev ReadReach (lba : Lba) (allow : Bus → ReadOp → Prop) : Bus → Prop :=
  Reach (fun b => ∃ buffer d, b = ⟨(⟨.read, lba⟩ : Call).start buffer, d⟩) ReadStep allow

def Written : Pc → Registers → Registers → Prop
  | .hddevsel, _, _ => True
  | .delay _, r, r' => r.hddevsel = r'.hddevsel
  | .secCount, r, r' => r.hddevsel = r'.hddevsel
  | .lba0, r, r' => r.hddevsel = r'.hddevsel
  | .lba1, r, r' => r.hddevsel = r'.hddevsel ∧ r.lba0 = r'.lba0
  | .lba2, r, r' => r.hddevsel = r'.hddevsel ∧ r.lba0 = r'.lba0 ∧ r.lba1 = r'.lba1
  | _, r, r' => r = r'

def Pc.setup : Pc → Bool
  | .hddevsel => true
  | .delay _ => true
  | .secCount => true
  | .lba0 => true
  | .lba1 => true
  | .lba2 => true
  | .command => true
  | _ => false

/-- The last call of an interrupt leaves the registers written so far as they are, and none comes
once the command is given. -/
def Harmless (b : Bus) : ReadOp → Prop
  | .access _ => True
  | .interrupt calls => ∀ c ∈ calls.getLast?, b.progress.pc.setup = true ∧
      Written b.progress.pc (registersOf c.lba) (registersOf b.progress.call.lba)

variable {lba : Lba} {b b' : Bus} {d d' : Device} {c : Call} {calls : List Call} {input : Word16}
  {r : Registers} {n : ℕ}

theorem named_registersOf (small : lba.toNat < 2^28) : (registersOf lba).named = lba.toNat := by
  have head (y : Byte) : ((0xE0 : Byte) ||| (y &&& (0x0F : Byte))).toNat%16 = y.toNat%16 := by
    revert y
    decide
  have byte (k : ℕ) : ((lba >>> k).setWidth 8).toNat = lba.toNat/2^k%2^8 := by
    rw [BitVec.toNat_setWidth, BitVec.toNat_ushiftRight, Nat.shiftRight_eq_div_pow]
  rw [Registers.named, registersOf, driveSelect]
  dsimp only
  rw [head, byte, byte, byte, BitVec.toNat_setWidth]
  omega

@[simp] theorem inw_registers : (d.inw input).2.registers = d.registers := by
  rw [Device.inw]
  cases d.transfer with
  | none => rfl
  | reading sector i =>
    dsimp only
    split_ifs <;> rfl
  | writing sector i => rfl

@[simp] theorem outw_registers : (d.outw input).registers = d.registers := by
  rw [Device.outw]
  cases d.transfer with
  | none => rfl
  | reading sector i => rfl
  | writing sector i =>
    dsimp only
    split_ifs <;> rfl

/-- After a status read the registers still have to be the call's. -/
theorem written_poll {status : Byte} {ready : Bool} {again : ℕ → Pc} {next : Pc}
    {r r' : Registers} (eq : r = r') (h₁ : ∀ k, Written (again k) r r') (h₂ : Written next r r') :
    Written (poll status ready n again next) r r' := by
  rw [poll]
  split_ifs
  · exact eq
  · exact eq
  · exact h₂
  · exact h₁ _
  · exact eq

/-- A port access keeps the call, and the registers it has written. -/
theorem access_written
    (h : Written b.progress.pc b.device.registers (registersOf b.progress.call.lba)) :
    (b.access input).progress.call = b.progress.call ∧
      Written (b.access input).progress.pc (b.access input).device.registers
        (registersOf b.progress.call.lba) := by
  obtain ⟨⟨⟨command, lba⟩, pc, buffer⟩, device⟩ := b
  cases pc with
  | hddevsel => exact ⟨rfl, rfl⟩
  | delay n =>
    refine ⟨rfl, ?_⟩
    change Written (if n+1 < 4 then .delay (n+1) else .secCount) _ _
    split_ifs <;> exact h
  | secCount => exact ⟨rfl, h⟩
  | lba0 => exact ⟨rfl, h, rfl⟩
  | lba1 => exact ⟨rfl, h.1, h.2, rfl⟩
  | lba2 =>
    refine ⟨rfl, ?_⟩
    obtain ⟨head, first, second⟩ := h
    change (⟨device.registers.hddevsel, device.registers.lba0, device.registers.lba1, _⟩ :
      Registers) = _
    rw [head, first, second]
    rfl
  | command => exact ⟨rfl, h⟩
  | waitBsy n => exact ⟨rfl, written_poll h (fun _ => h) h⟩
  | waitDrq n => exact ⟨rfl, written_poll h (fun _ => h) h⟩
  | data n =>
    cases command with
    | read =>
      refine ⟨rfl, ?_⟩
      change Written (if n+1 < 256 then .data (n+1) else .done 0) (device.inw input).2.registers _
      rw [inw_registers]
      split_ifs <;> exact h
    | write words =>
      refine ⟨rfl, ?_⟩
      change Written (if n+1 < 256 then .data (n+1) else .flush) (device.outw (words n)).registers _
      rw [outw_registers]
      split_ifs <;> exact h
  | flush => exact ⟨rfl, h⟩
  | waitFlush n => exact ⟨rfl, written_poll h (fun _ => h) h⟩
  | done result => exact ⟨rfl, h⟩

/-- A complete call leaves its own sector in the registers. -/
theorem Completes.registers (h : Completes c d d') : d'.registers = registersOf c.lba := by
  obtain ⟨buffer, inputs, result, b, run, done, rfl⟩ := h
  have keeps (inputs : List Word16) (b : Bus) (call : b.progress.call = c)
      (written : Written b.progress.pc b.device.registers (registersOf c.lba)) :
      Written (inputs.foldl Bus.access b).progress.pc (inputs.foldl Bus.access b).device.registers
        (registersOf c.lba) := by
    induction inputs generalizing b with
    | nil => exact written
    | cons input rest ih =>
      subst call
      obtain ⟨call, written⟩ := @access_written b input written
      exact ih (b.access input) call written
  have last := keeps inputs ⟨c.start buffer, d⟩ rfl trivial
  rw [run, done] at last
  exact last

theorem Interrupts.registers (h : Interrupts calls d d') :
    calls = [] ∧ d' = d ∨ ∃ c ∈ calls.getLast?, d'.registers = registersOf c.lba := by
  induction h with
  | nil d => exact .inl ⟨rfl, rfl⟩
  | cons first others ih =>
    rename_i c rest d d' d''
    rcases ih with ⟨rfl, rfl⟩ | ⟨last, mem, eq⟩
    · exact .inr ⟨c, rfl, first.registers⟩
    · refine .inr ⟨last, ?_, eq⟩
      rw [List.getLast?_cons, Option.mem_def.mp mem]
      rfl

def Streams (sector : ℕ) (b : Bus) : Prop :=
  match b.progress.pc with
  | .waitBsy _ => b.device.transfer = .reading sector 0
  | .waitDrq _ => b.device.transfer = .reading sector 0
  | .data n => n < 256 ∧ b.device.transfer = .reading sector n ∧
      ∀ j < n, b.progress.buffer j = b.device.sectors sector j
  | .done result => result = 0 → ∀ j < 256, b.progress.buffer j = b.device.sectors sector j
  | .flush => False
  | .waitFlush _ => False
  | _ => True

structure Reading (lba : Lba) (b : Bus) : Prop where
  call : b.progress.call = ⟨.read, lba⟩
  written : Written b.progress.pc b.device.registers (registersOf lba)
  streams : Streams (registersOf lba).named b

theorem streams_poll {sector : ℕ} {status : Byte} {ready : Bool} {again : ℕ → Pc} {next : Pc}
    (h₁ : ∀ k, Streams sector (b.goto (again k))) (h₂ : Streams sector (b.goto next)) :
    Streams sector (b.goto (poll status ready n again next)) := by
  have failed {result : ℤ} (ne : result ≠ 0) : Streams sector (b.goto (.done result)) :=
    fun zero => absurd zero ne
  rw [poll]
  split_ifs
  · exact failed (by decide)
  · exact failed (by decide)
  · exact h₂
  · exact h₁ _
  · exact failed (by decide)

theorem streams_data {sector : ℕ} (read : b.progress.call.command = .read)
    (pc : b.progress.pc = .data n) (h : Streams sector b) : Streams sector (b.access input) := by
  obtain ⟨⟨⟨command, lba⟩, pc', buffer⟩, device⟩ := b
  obtain rfl : command = .read := read
  obtain rfl : pc' = .data n := pc
  obtain ⟨lt, transfer, words⟩ := h
  have inw : device.inw input = (device.sectors sector n,
      { device with transfer := .reading sector (n+1) }) := by
    rw [Device.inw]
    change device.transfer = _ at transfer
    rw [transfer]
    exact if_pos lt
  have next (j : ℕ) (le : j < n+1) :
      Function.update buffer n (device.sectors sector n) j = device.sectors sector j := by
    by_cases eq : j = n
    · rw [eq, Function.update_self]
    · rw [Function.update_of_ne eq]
      exact words j (by omega)
  change Streams sector
    ⟨⟨_, if n+1 < 256 then .data (n+1) else .done 0, Function.update buffer n (device.inw input).1⟩,
      (device.inw input).2⟩
  rw [inw]
  split_ifs with more
  · exact ⟨more, rfl, next⟩
  · exact fun _ j lt => next j (by omega)

theorem streams_access {sector : ℕ} (read : b.progress.call.command = .read)
    (given : b.progress.pc.setup = false) (h : Streams sector b) :
    Streams sector (b.access input) := by
  have streams := h
  cases pc : b.progress.pc with
  | data n => exact streams_data read pc h
  | waitBsy n =>
    rw [Streams, pc] at streams
    rw [Bus.access, pc]
    exact streams_poll (fun _ => streams) streams
  | waitDrq n =>
    rw [Streams, pc] at streams
    rw [Bus.access, pc]
    refine streams_poll (fun _ => streams) ⟨by decide, streams, fun j lt => ?_⟩
    exact absurd lt (Nat.not_lt_zero j)
  | flush =>
    rw [Streams, pc] at streams
    exact streams.elim
  | waitFlush n =>
    rw [Streams, pc] at streams
    exact streams.elim
  | done result =>
    rw [Bus.access, pc]
    exact h
  | _ =>
    rw [pc] at given
    cases given

theorem Reading.access (h : Reading lba b) : Reading lba (b.access input) := by
  have call := h.call
  have written := h.written
  obtain ⟨same, written'⟩ := @access_written b input (by rw [call]; exact written)
  rw [call] at same written'
  refine ⟨same, written', ?_⟩
  cases given : b.progress.pc.setup with
  | false => exact streams_access (by rw [call]) given h.streams
  | true =>
    cases pc : b.progress.pc with
    | command =>
      rw [pc] at written
      rw [Bus.access, pc, call]
      change Transfer.reading b.device.registers.named 0 = _
      rw [show b.device.registers = registersOf lba from written]
    | delay n =>
      rw [Bus.access, pc]
      dsimp only
      split_ifs <;> trivial
    | _ =>
      rw [pc] at given
      rw [Bus.access, pc]
      trivial

/-- An interrupt that does no harm leaves the registers written so far as they are. -/
theorem Reading.interrupt (h : Reading lba b) (go : Interrupts calls b.device d)
    (ok : Harmless b (.interrupt calls)) : Reading lba { b with device := d } := by
  rcases go.registers with ⟨-, rfl⟩ | ⟨c, last, registers⟩
  · exact h
  · obtain ⟨setup, written⟩ := ok c last
    rw [h.call] at written
    refine ⟨h.call, by rw [registers]; exact written, ?_⟩
    rw [Streams]
    dsimp only
    cases pc : b.progress.pc <;> rw [pc] at setup <;> trivial

theorem ReadReach.reading (h : ReadReach lba Harmless b) : Reading lba b := by
  refine h.invariant ?_ ?_
  · rintro b ⟨buffer, d, rfl⟩
    exact ⟨rfl, trivial, trivial⟩
  · rintro b b' op - inv ok go
    cases go with
    | access input b => exact inv.access
    | interrupt busy go => exact inv.interrupt go ok

/-- A read that no interrupt harms returns 0 with its sector in the buffer. -/
theorem interrupted_read (lba : Lba) (small : lba.toNat < 2^28) (b : Bus)
    (h : ReadReach lba Harmless b) (ok : b.progress.pc = .done 0) :
    ∀ j < 256, b.progress.buffer j = b.device.sectors lba.toNat j := by
  have streams := h.reading.streams
  rw [Streams, ok, named_registersOf small] at streams
  exact streams rfl

theorem access_sectors (read : b.progress.call.command = .read) :
    (b.access input).progress.call = b.progress.call ∧
      (b.access input).device.sectors = b.device.sectors := by
  obtain ⟨⟨⟨command, lba⟩, pc, buffer⟩, device⟩ := b
  obtain rfl : command = .read := read
  cases pc with
  | data n =>
    refine ⟨rfl, ?_⟩
    change (device.inw input).2.sectors = device.sectors
    rw [Device.inw]
    cases device.transfer with
    | none => rfl
    | reading sector i =>
      dsimp only
      split_ifs <;> rfl
    | writing sector i => rfl
  | _ => exact ⟨rfl, rfl⟩

theorem data_next (read : b.progress.call.command = .read) (pc : b.progress.pc = .data n) :
    (b.access input).progress.pc = if n+1 < 256 then .data (n+1) else .done 0 := by
  obtain ⟨⟨⟨command, lba⟩, pc', buffer⟩, device⟩ := b
  obtain rfl : command = .read := read
  obtain rfl : pc' = .data n := pc
  rfl

theorem data_accesses (k : ℕ) {sector : ℕ} (read : b.progress.call.command = .read)
    (pc : b.progress.pc = .data n) (left : n+k = 255) (h : Streams sector b) :
    ∃ b', (List.replicate (k+1) (0 : Word16)).foldl Bus.access b = b' ∧
      b'.progress.pc = .done 0 ∧ Streams sector b' ∧ b'.device.sectors = b.device.sectors := by
  have step := @data_next b 0 n read pc
  have next := @streams_data b 0 n sector read pc h
  obtain ⟨call, sectors⟩ := @access_sectors b 0 read
  induction k generalizing b n with
  | zero =>
    rw [if_neg (by omega)] at step
    exact ⟨_, rfl, step, next, sectors⟩
  | succ k ih =>
    rw [if_pos (by omega)] at step
    have read' : (b.access 0).progress.call.command = .read := by rw [call, read]
    obtain ⟨call', sectors'⟩ := @access_sectors (b.access 0) 0 read'
    obtain ⟨b', run, done, streams, same⟩ := ih read' step (by omega) next (data_next read' step)
      (streams_data read' step next) call' sectors'
    exact ⟨b', run, done, streams, same.trans sectors⟩

/-- From the READ command on a read returns the sector that the registers name. -/
theorem command_accesses (read : b.progress.call.command = .read) (pc : b.progress.pc = .command) :
    ∃ (inputs : List Word16) (b' : Bus), inputs.foldl Bus.access b = b' ∧
      b'.progress.pc = .done 0 ∧ b'.device.sectors = b.device.sectors ∧
      ∀ j < 256, b'.progress.buffer j = b.device.sectors b.device.registers.named j := by
  obtain ⟨⟨⟨command, lba⟩, pc', buffer⟩, device⟩ := b
  obtain rfl : command = .read := read
  obtain rfl : pc' = .command := pc
  have first : ([0, 0x58, 0x58] : List Word16).foldl Bus.access
      ⟨⟨⟨.read, lba⟩, .command, buffer⟩, device⟩ = ⟨⟨⟨.read, lba⟩, .data 0, buffer⟩,
        { device with transfer := .reading device.registers.named 0 }⟩ := rfl
  obtain ⟨b', run, done, streams, sectors⟩ := @data_accesses
    ⟨⟨⟨.read, lba⟩, .data 0, buffer⟩,
      { device with transfer := .reading device.registers.named 0 }⟩ 0 255
    device.registers.named rfl rfl rfl ⟨by decide, rfl, fun j lt => absurd lt (Nat.not_lt_zero j)⟩
  refine ⟨[0, 0x58, 0x58] ++ List.replicate 256 0, b', ?_, done, sectors, fun j lt => ?_⟩
  · rw [List.foldl_append, first]
    exact run
  · rw [Streams, done] at streams
    rw [streams rfl j lt, sectors]

theorem read_completes (lba : Lba) (d : Device) :
    ∃ d', Completes ⟨.read, lba⟩ d d' ∧ d'.sectors = d.sectors := by
  obtain ⟨inputs, b, run, done, sectors, -⟩ := @command_accesses
    ((List.replicate 9 (0 : Word16)).foldl Bus.access
      ⟨(⟨.read, lba⟩ : Call).start fun _ => 0, d⟩) rfl rfl
  refine ⟨b.device, ⟨fun _ => 0, List.replicate 9 0 ++ inputs, 0, b, ?_, done, rfl⟩, sectors⟩
  rw [List.foldl_append]
  exact run

theorem ReadReach.accesses {allow : Bus → ReadOp → Prop} (h : ReadReach lba allow b)
    (ok : ∀ b input, allow b (.access input)) (inputs : List Word16) :
    ReadReach lba allow (inputs.foldl Bus.access b) := by
  induction inputs generalizing b with
  | nil => exact h
  | cons input rest ih => exact ih (.step h (ok b input) (.access input b))

def numbered : Device := ⟨fun sector _ => BitVec.ofNat 16 sector, ⟨0, 0, 0, 0⟩, 0, .none⟩

/-- A read of sector 2 up to the access after the first LBA register, when a read of sector 9
comes in between. -/
theorem read_misdirected : ¬∀ (lba : Lba) (b : Bus), lba.toNat < 2^28 →
    ReadReach lba (fun _ _ => True) b → b.progress.pc = .done 0 →
      ∀ j < 256, b.progress.buffer j = b.device.sectors lba.toNat j := by
  intro all
  let b₁ : Bus := (List.replicate 7 (0 : Word16)).foldl Bus.access
    ⟨(⟨.read, 2⟩ : Call).start fun _ => 0, numbered⟩
  have reach₁ : ReadReach 2 (fun _ _ => True) b₁ :=
    ReadReach.accesses (.start ⟨_, _, rfl⟩) (fun _ _ => trivial) _
  obtain ⟨d, completes, same⟩ := read_completes 9 b₁.device
  have go : ReadStep (.interrupt [⟨.read, 9⟩]) b₁ { b₁ with device := d } :=
    .interrupt (fun r eq => by cases eq) (.cons completes (.nil d))
  have reach₂ : ReadReach 2 (fun _ _ => True) { b₁ with device := d } := .step reach₁ trivial go
  let b₃ : Bus := ([0, 0] : List Word16).foldl Bus.access { b₁ with device := d }
  have reach₃ : ReadReach 2 (fun _ _ => True) b₃ := reach₂.accesses (fun _ _ => trivial) _
  obtain ⟨inputs, b₄, run, done, sectors, words⟩ := @command_accesses b₃ rfl rfl
  have reach₄ : ReadReach 2 (fun _ _ => True) b₄ := run ▸ reach₃.accesses (fun _ _ => trivial) _
  have wrong := all 2 b₄ (by decide) reach₄ done 0 (by decide)
  have names : b₃.device.registers.named = 9 := by
    change Registers.named ⟨d.registers.hddevsel, d.registers.lba0, ((2 : Lba) >>> 8).setWidth 8,
      ((2 : Lba) >>> 16).setWidth 8⟩ = 9
    rw [completes.registers]
    decide
  have kept : b₃.device.sectors = numbered.sectors := same
  rw [words 0 (by decide), names, sectors, kept] at wrong
  exact absurd wrong (by decide)

/-- An interrupt before the first access that reads another sector does no harm. -/
theorem interrupted_read_five : ∃ b : Bus, b.progress.pc = .done 0 ∧
    ∀ j < 256, b.progress.buffer j = b.device.sectors 5 j := by
  let b₀ : Bus := ⟨(⟨.read, 5⟩ : Call).start fun _ => 0, numbered⟩
  have start : ReadReach 5 Harmless b₀ := .start ⟨_, _, rfl⟩
  obtain ⟨d, completes, -⟩ := read_completes 9 b₀.device
  have go : ReadStep (.interrupt [⟨.read, 9⟩]) b₀ { b₀ with device := d } :=
    .interrupt (fun r eq => by cases eq) (.cons completes (.nil d))
  have reach₁ : ReadReach 5 Harmless { b₀ with device := d } :=
    .step start (fun _ _ => ⟨rfl, trivial⟩) go
  have reach₂ := reach₁.accesses (fun _ _ => trivial) (List.replicate 9 0)
  obtain ⟨inputs, b, run, done, -, -⟩ := @command_accesses
    ((List.replicate 9 (0 : Word16)).foldl Bus.access { b₀ with device := d }) rfl rfl
  have reach₃ : ReadReach 5 Harmless b := run ▸ reach₂.accesses (fun _ _ => trivial) inputs
  exact ⟨b, done, interrupted_read 5 (by decide) b reach₃ done⟩

end TinyOS.AtaPorts
