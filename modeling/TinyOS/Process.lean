import TinyOS.Vmm

set_option autoImplicit false

/-! The process table and the round-robin scheduler (process/process.c). -/
namespace TinyOS.Memory

structure InterruptFrame where
  r15 : Word
  r14 : Word
  r13 : Word
  r12 : Word
  r11 : Word
  r10 : Word
  r9 : Word
  r8 : Word
  rbp : Word
  rdi : Word
  rsi : Word
  rdx : Word
  rcx : Word
  rbx : Word
  rax : Word
  intNum : Word
  errorCode : Word
  rip : Word
  cs : Word
  rflags : Word
  rsp : Word
  ss : Word

/-- `memset(&frame, 0, sizeof(frame))` -/
def zeroFrame : InterruptFrame := ⟨0, 0, 0, 0, 0, 0, 0, 0, 0, 0, 0, 0, 0, 0, 0, 0, 0, 0, 0, 0, 0, 0⟩

inductive ProcessState where
  | unused
  | running
  | exited
  deriving DecidableEq

structure Process where
  pid : Word
  state : ProcessState
  entry : Word
  stack : Word
  cr3 : Word
  exitCode : BitVec 32
  frame : InterruptFrame

abbrev maxProcesses : ℕ := 4

abbrev Slot := Fin maxProcesses

/-- The kernel with the static variables of process.c; `none` is the index -1. -/
structure System where
  kernel : Kernel
  table : Slot → Process
  currentIndex : Option Slot
  nextPid : Word
  busyTicks : Word

abbrev SystemM := StateM System

/-- `process_exit_return` and `gdt_kernel_stack()`, addresses the linker chooses. -/
structure Symbols where
  processExitReturn : Word
  kernelStack : Word

abbrev gdtUserCode : Word := 0x18
abbrev gdtUserData : Word := 0x20

def emptyProcess : Process := ⟨0, .unused, 0, 0, 0, 0, zeroFrame⟩

def processInit : SystemM Unit :=
  modify fun s => { s with table := fun _ => emptyProcess, currentIndex := none }

def findFreeSlot (table : Slot → Process) : Option Slot :=
  (List.finRange maxProcesses).find? fun i =>
    (table i).state = .unused ∨ (table i).state = .exited

def initialFrame (entry stack : Word) : InterruptFrame :=
  { zeroFrame with
    rip := entry
    cs := gdtUserCode ||| 3
    rflags := 0x202
    rsp := stack
    ss := gdtUserData ||| 3 }

def processCreate (entry stack cr3 : Word) : SystemM (Option Slot) := fun s =>
  match findFreeSlot s.table with
  | none => (none, s)
  | some slot => (some slot, { s with
      table := Function.update s.table slot
        ⟨s.nextPid, .running, entry, stack, cr3, 0, initialFrame entry stack⟩
      nextPid := s.nextPid + 1 })

/-- The address spaces after `process_exit_from_syscall`. -/
def leaveSpace (cr3 : Word) : KernelM Unit := do
  vmmSwitchKernelSpace
  if cr3 ≠ 0 then
    let _ ← vmmDestroyUserSpace cr3

def processExitFromSyscall (b : Symbols) (frame : InterruptFrame) : SystemM InterruptFrame :=
  fun s =>
    match s.currentIndex with
    | none => (frame, s)
    | some i =>
      ({ frame with
          rip := b.processExitReturn
          cs := 0x08
          rflags := frame.rflags ||| 0x200
          rsp := b.kernelStack
          ss := 0x10 },
        { s with
          kernel := ((leaveSpace (s.table i).cr3).run s.kernel).2
          table := Function.update s.table i { s.table i with
            exitCode := frame.rdi.setWidth 32
            state := .exited
            cr3 := 0 }
          currentIndex := none })

theorem maxProcesses_pos : 0 < maxProcesses := by decide

def slotAt (start offset : ℕ) : Slot :=
  ⟨(start+offset)%maxProcesses, Nat.mod_lt _ maxProcesses_pos⟩

/-- The search of `scheduler_tick`. -/
def nextRunning (table : Slot → Process) (start : ℕ) : Option Slot :=
  ((List.range maxProcesses).map (slotAt start)).find? fun i => (table i).state = .running

def searchStart : Option Slot → ℕ
  | some i => i.val+1
  | none => 0

def saveFrame (s : System) (frame : InterruptFrame) : Slot → Process :=
  match s.currentIndex with
  | some i =>
    if (s.table i).state = .running then
      Function.update s.table i { s.table i with frame := frame }
    else s.table
  | none => s.table

def schedulerTick (frame : InterruptFrame) : SystemM InterruptFrame := fun s =>
  let table := saveFrame s frame
  match nextRunning table (searchStart s.currentIndex) with
  | none => (frame, { s with
      kernel := if s.currentIndex = none then s.kernel else (vmmSwitchKernelSpace.run s.kernel).2
      table := table
      currentIndex := none })
  | some next => ((table next).frame, { s with
      kernel := ((vmmSwitchAddressSpace (table next).cr3).run s.kernel).2
      table := table
      currentIndex := some next
      busyTicks := s.busyTicks + 1 })

variable {table : Slot → Process} {s : System}

theorem findFreeSlot_some {slot : Slot} (h : findFreeSlot table = some slot) :
    (table slot).state ≠ .running := by
  have := List.find?_some h
  intro running
  simp [running] at this

theorem nextRunning_running {start : ℕ} {i : Slot} (h : nextRunning table start = some i) :
    (table i).state = .running := by
  simpa using List.find?_some h

def slotOffset (start : ℕ) (j : Slot) : ℕ := (j.val+(4-start%4))%4

theorem slotAt_val (start offset : ℕ) : (slotAt start offset).val = (start+offset)%4 := rfl

theorem slotAt_slotOffset (start : ℕ) (j : Slot) : slotAt start (slotOffset start j) = j := by
  have lt : j.val < 4 := j.isLt
  apply Fin.ext
  rw [slotAt_val, slotOffset]
  omega

/-- No slot is passed over: the slot found lies before any other running slot, seen from
the start of the search. -/
theorem nextRunning_first {start : ℕ} {i j : Slot} (h : nextRunning table start = some i)
    (running : (table j).state = .running) (le : start ≤ 4) :
    (start ≤ j.val → start ≤ i.val ∧ i.val ≤ j.val) ∧
      (j.val < start → start ≤ i.val ∨ i.val ≤ j.val) := by
  rw [nextRunning, List.find?_map, Option.map_eq_some_iff] at h
  obtain ⟨offset, found, rfl⟩ := h
  rw [List.find?_range_eq_some] at found
  obtain ⟨-, -, miss⟩ := found
  have other : offset ≤ slotOffset start j := by
    by_contra gt
    have := miss _ (Nat.lt_of_not_le gt)
    simp [slotAt_slotOffset, running] at this
  have lt : j.val < 4 := j.isLt
  rw [slotOffset] at other
  rw [slotAt_val]
  omega

theorem nextRunning_isSome {j : Slot} (running : (table j).state = .running) (start : ℕ) :
    ∃ i, nextRunning table start = some i := by
  rw [← Option.isSome_iff_exists, nextRunning, List.find?_isSome]
  refine ⟨j, List.mem_map.mpr ⟨slotOffset start j, ?_, slotAt_slotOffset start j⟩, ?_⟩
  · exact List.mem_range.mpr (Nat.mod_lt _ (by decide))
  · exact decide_eq_true running

theorem saveFrame_slot (s : System) (frame : InterruptFrame) (j : Slot) :
    saveFrame s frame j = s.table j ∨ saveFrame s frame j = { s.table j with frame := frame } := by
  rw [saveFrame]
  cases s.currentIndex with
  | none => exact .inl rfl
  | some i =>
    dsimp only
    split_ifs with running
    · by_cases eq : j = i
      · rw [eq, Function.update_self]
        exact .inr rfl
      · rw [Function.update_of_ne eq]
        exact .inl rfl
    · exact .inl rfl

theorem saveFrame_state (frame : InterruptFrame) (j : Slot) :
    (saveFrame s frame j).state = (s.table j).state ∧
      (saveFrame s frame j).cr3 = (s.table j).cr3 := by
  rcases saveFrame_slot s frame j with eq | eq
  · rw [eq]
    exact ⟨rfl, rfl⟩
  · rw [eq]
    exact ⟨rfl, rfl⟩

end TinyOS.Memory
