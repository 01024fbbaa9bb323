import TinyOS.Process
import TinyOS.StateRuns

set_option autoImplicit false

namespace TinyOS.Memory
open StateRuns

inductive ProcessOp where
  | tick (frame : InterruptFrame)
  | create (entry stack cr3 : Word)
  | exit (frame : InterruptFrame)

def System.next (b : Symbols) (s : System) : ProcessOp → System
  | .tick frame => ((schedulerTick frame).run s).2
  | .create entry stack cr3 => ((processCreate entry stack cr3).run s).2
  | .exit frame => ((processExitFromSyscall b frame).run s).2

/-- A call and the state it found. -/
structure Event where
  op : ProcessOp
  before : System

def Event.after (b : Symbols) (e : Event) : System := e.before.next b e.op

structure History where
  system : System
  past : List Event

def History.next (b : Symbols) (s : History) (op : ProcessOp) : History :=
  ⟨s.system.next b op, ⟨op, s.system⟩ :: s.past⟩

abbrev ProcessReach (b : Symbols) : History → Prop :=
  Reach (fun s => ∃ s₀, s = ⟨(processInit.run s₀).2, []⟩) (fun op s t => t = s.next b op)
    fun _ _ => True

/-- The frame a slot is to be resumed with: the one of the last tick that interrupted it,
or the one it was created with. -/
def resumeFrame (i : Slot) : List Event → Option InterruptFrame
  | [] => none
  | e :: earlier =>
    match e.op with
    | .tick frame => if e.before.currentIndex = some i then some frame else resumeFrame i earlier
    | .create entry stack cr3 =>
      if ((processCreate entry stack cr3).run e.before).1 = some i then
        some (initialFrame entry stack)
      else resumeFrame i earlier
    | .exit _ => resumeFrame i earlier

def Event.Dispatches (b : Symbols) (i : Slot) (e : Event) : Prop :=
  ∃ frame, e.op = .tick frame ∧ (e.after b).currentIndex = some i

structure Resumable (s : History) : Prop where
  current : ∀ {i}, s.system.currentIndex = some i → (s.system.table i).state = .running
  saved : ∀ {i}, (s.system.table i).state = .running → s.system.currentIndex ≠ some i →
    resumeFrame i s.past = some (s.system.table i).frame

variable {b : Symbols} {s : History} {i j : Slot} {e : Event}

theorem processCreate_cases (entry stack cr3 : Word) (s : System) :
    (processCreate entry stack cr3).run s = (none, s) ∨
      ∃ slot, (s.table slot).state ≠ .running ∧
        (processCreate entry stack cr3).run s = (some slot, { s with
          table := Function.update s.table slot
            ⟨s.nextPid, .running, entry, stack, cr3, 0, initialFrame entry stack⟩
          nextPid := s.nextPid + 1 }) := by
  cases h : findFreeSlot s.table with
  | none =>
    refine .inl ?_
    change processCreate entry stack cr3 s = _
    simp only [processCreate, h]
  | some slot =>
    refine .inr ⟨slot, findFreeSlot_some h, ?_⟩
    change processCreate entry stack cr3 s = _
    simp only [processCreate, h]

/-- What a tick does: nothing runs and no slot is current, or a running slot gets the
processor with its saved frame. -/
theorem schedulerTick_cases (frame : InterruptFrame) (s : System) :
    ((∀ i, (s.table i).state ≠ .running) ∧ (schedulerTick frame).run s = (frame, { s with
        kernel :=
          if s.currentIndex = none then s.kernel else (vmmSwitchKernelSpace.run s.kernel).2
        table := saveFrame s frame
        currentIndex := none })) ∨
    ∃ next, nextRunning (saveFrame s frame) (searchStart s.currentIndex) = some next ∧
      (schedulerTick frame).run s = ((saveFrame s frame next).frame, { s with
        kernel := ((vmmSwitchAddressSpace (s.table next).cr3).run s.kernel).2
        table := saveFrame s frame
        currentIndex := some next
        busyTicks := s.busyTicks + 1 }) := by
  cases h : nextRunning (saveFrame s frame) (searchStart s.currentIndex) with
  | none =>
    refine .inl ⟨fun i running => ?_, ?_⟩
    · obtain ⟨n, found⟩ := nextRunning_isSome
        ((saveFrame_state frame i).1.trans running) (searchStart s.currentIndex)
      rw [h] at found
      cases found
    · change schedulerTick frame s = _
      simp only [schedulerTick, h]
  | some next =>
    refine .inr ⟨next, rfl, ?_⟩
    change schedulerTick frame s = _
    simp only [schedulerTick, h, (saveFrame_state frame next).2]

theorem processExit_none (frame : InterruptFrame) {s : System} (h : s.currentIndex = none) :
    (processExitFromSyscall b frame).run s = (frame, s) := by
  change processExitFromSyscall b frame s = _
  simp only [processExitFromSyscall, h]

theorem processExit_run (frame : InterruptFrame) {s : System} (h : s.currentIndex = some i) :
    ((processExitFromSyscall b frame).run s).2 = { s with
      kernel := ((leaveSpace (s.table i).cr3).run s.kernel).2
      table := Function.update s.table i { s.table i with
        exitCode := frame.rdi.setWidth 32
        state := .exited
        cr3 := 0 }
      currentIndex := none } := by
  change (processExitFromSyscall b frame s).2 = _
  simp only [processExitFromSyscall, h]

theorem processExit_some (frame : InterruptFrame) {s : System} (h : s.currentIndex = some i) :
    (((processExitFromSyscall b frame).run s).2.table i).state = .exited ∧
    (((processExitFromSyscall b frame).run s).2.table i).frame = (s.table i).frame ∧
    (∀ j ≠ i, ((processExitFromSyscall b frame).run s).2.table j = s.table j) ∧
    ((processExitFromSyscall b frame).run s).2.currentIndex = none := by
  rw [processExit_run frame h]
  refine ⟨?_, ?_, fun j ne => ?_, rfl⟩
  · dsimp only
    rw [Function.update_self]
  · dsimp only
    rw [Function.update_self]
  · exact Function.update_of_ne ne _ _

/-- After the save every running slot holds the frame it is to be resumed with. -/
theorem Resumable.afterSave (h : Resumable s) (frame : InterruptFrame)
    (running : (s.system.table i).state = .running) :
    resumeFrame i (⟨.tick frame, s.system⟩ :: s.past) =
      some (saveFrame s.system frame i).frame := by
  simp only [resumeFrame]
  by_cases current : s.system.currentIndex = some i
  · rw [if_pos current, saveFrame, current]
    dsimp only
    rw [if_pos running, Function.update_self]
  · rw [if_neg current, h.saved running current, saveFrame]
    cases other : s.system.currentIndex with
    | none => rfl
    | some c =>
      have ne : i ≠ c := fun eq => current (by rw [other, eq])
      dsimp only
      rw [if_pos (h.current other), Function.update_of_ne ne]

theorem Resumable.next (h : Resumable s) (op : ProcessOp) : Resumable (s.next b op) := by
  cases op with
  | tick frame =>
    rcases schedulerTick_cases frame s.system with ⟨idle, run⟩ | ⟨next, found, run⟩
    · have state : s.next b (.tick frame) = ⟨{ s.system with
          kernel := if s.system.currentIndex = none then s.system.kernel
            else (vmmSwitchKernelSpace.run s.system.kernel).2
          table := saveFrame s.system frame
          currentIndex := none }, ⟨.tick frame, s.system⟩ :: s.past⟩ := by
        rw [History.next, System.next, run]
      rw [state]
      constructor
      · exact fun current => absurd current (by simp)
      · intro i running _
        exact absurd ((saveFrame_state frame i).1.symm.trans running) (idle i)
    · have state : s.next b (.tick frame) = ⟨{ s.system with
          kernel := ((vmmSwitchAddressSpace (s.system.table next).cr3).run s.system.kernel).2
          table := saveFrame s.system frame
          currentIndex := some next
          busyTicks := s.system.busyTicks + 1 }, ⟨.tick frame, s.system⟩ :: s.past⟩ := by
        rw [History.next, System.next, run]
      rw [state]
      constructor
      · intro i current
        cases current
        exact nextRunning_running found
      · intro i running _
        exact h.afterSave frame ((saveFrame_state frame i).1.symm.trans running)
  | create entry stack cr3 =>
    rcases processCreate_cases entry stack cr3 s.system with run | ⟨slot, free, run⟩
    · have state : s.next b (.create entry stack cr3) =
          ⟨s.system, ⟨.create entry stack cr3, s.system⟩ :: s.past⟩ := by
        rw [History.next, System.next, run]
      rw [state]
      refine ⟨h.current, fun running ne => ?_⟩
      simp only [resumeFrame, run, reduceCtorEq, if_false]
      exact h.saved running ne
    · have state : s.next b (.create entry stack cr3) = ⟨{ s.system with
          table := Function.update s.system.table slot
            ⟨s.system.nextPid, .running, entry, stack, cr3, 0, initialFrame entry stack⟩
          nextPid := s.system.nextPid + 1 },
          ⟨.create entry stack cr3, s.system⟩ :: s.past⟩ := by
        rw [History.next, System.next, run]
      rw [state]
      constructor
      · intro i current
        have ne : i ≠ slot := fun eq => free (eq ▸ h.current current)
        dsimp only
        rw [Function.update_of_ne ne]
        exact h.current current
      · intro i running current
        simp only [resumeFrame, run, Option.some.injEq]
        by_cases eq : slot = i
        · rw [if_pos eq, eq, Function.update_self]
        · rw [if_neg eq]
          dsimp only at running ⊢
          rw [Function.update_of_ne (Ne.symm eq)] at running ⊢
          exact h.saved running current
  | exit frame =>
    cases current : s.system.currentIndex with
    | none =>
      have state : s.next b (.exit frame) = ⟨s.system, ⟨.exit frame, s.system⟩ :: s.past⟩ := by
        rw [History.next, System.next, processExit_none frame current]
      rw [state]
      exact ⟨h.current, fun running ne => h.saved running ne⟩
    | some c =>
      obtain ⟨exited, -, others, idle⟩ := processExit_some (b := b) frame current
      constructor
      · intro i now
        exact absurd (idle.symm.trans now) (by simp)
      · intro i running _
        change ((_ : System).table i).state = _ at running
        have ne : i ≠ c := by
          rintro rfl
          exact absurd (exited.symm.trans running) (by decide)
        have same := others i ne
        change resumeFrame i s.past =
          some (((processExitFromSyscall b frame).run s.system).2.table i).frame
        rw [same]
        refine h.saved ?_ fun eq => ne (Option.some.inj (eq.symm.trans current))
        rw [← same]
        exact running

theorem ProcessReach.resumable (h : ProcessReach b s) : Resumable s := by
  refine h.invariant ?_ ?_
  · rintro s ⟨s₀, rfl⟩
    exact ⟨fun current => absurd current (by simp [processInit]),
      fun running => absurd running (by simp [processInit, emptyProcess])⟩
  · rintro s t op - inv - rfl
    exact inv.next op

theorem Resumable.dispatched (h : Resumable s) {frame : InterruptFrame}
    (go : (s.next b (.tick frame)).system.currentIndex = some i) :
    resumeFrame i (⟨.tick frame, s.system⟩ :: s.past) =
      some ((schedulerTick frame).run s.system).1 := by
  change ((schedulerTick frame).run s.system).2.currentIndex = some i at go
  rcases schedulerTick_cases frame s.system with ⟨-, run⟩ | ⟨next, found, run⟩
  · rw [run] at go
    cases go
  · rw [run] at go ⊢
    cases go
    exact h.afterSave frame
      ((saveFrame_state frame i).1.symm.trans (nextRunning_running found))

/-- A call changes the saved frame of a running slot only by interrupting it. -/
theorem Resumable.frame_keep (h : Resumable s) (running : (s.system.table j).state = .running)
    (op : ProcessOp) :
    ((s.next b op).system.table j).frame = (s.system.table j).frame ∨
      s.system.currentIndex = some j ∧ op = .tick ((s.next b op).system.table j).frame := by
  cases op with
  | tick frame =>
    have table : (s.next b (.tick frame)).system.table = saveFrame s.system frame := by
      change ((schedulerTick frame).run s.system).2.table = _
      rcases schedulerTick_cases frame s.system with ⟨-, run⟩ | ⟨next, -, run⟩ <;> rw [run]
    rw [table, saveFrame]
    cases current : s.system.currentIndex with
    | none => exact .inl rfl
    | some c =>
      dsimp only
      rw [if_pos (h.current current)]
      by_cases eq : j = c
      · rw [eq, Function.update_self]
        exact .inr ⟨rfl, rfl⟩
      · rw [Function.update_of_ne eq]
        exact .inl rfl
  | create entry stack cr3 =>
    refine .inl ?_
    change (((processCreate entry stack cr3).run s.system).2.table j).frame = _
    rcases processCreate_cases entry stack cr3 s.system with run | ⟨slot, free, run⟩
    · rw [run]
    · have ne : j ≠ slot := fun eq => free (eq ▸ running)
      rw [run]
      dsimp only
      rw [Function.update_of_ne ne]
  | exit frame =>
    refine .inl ?_
    change (((processExitFromSyscall b frame).run s.system).2.table j).frame = _
    cases current : s.system.currentIndex with
    | none => rw [processExit_none frame current]
    | some c =>
      obtain ⟨-, same, others, -⟩ := processExit_some (b := b) frame current
      by_cases eq : j = c
      · rw [eq, same]
      · rw [others j eq]

theorem ProcessReach.suffix (h : ProcessReach b s) {later earlier : List Event}
    (past : s.past = later ++ e :: earlier) : ProcessReach b ⟨e.before, earlier⟩ := by
  induction h generalizing later with
  | start h =>
    obtain ⟨s₀, rfl⟩ := h
    simp at past
  | step h ok go ih =>
    rename_i s t op
    subst go
    cases later with
    | nil =>
      injection past with head tail
      rw [← head, ← tail]
      exact h
    | cons first later =>
      injection past with head tail
      exact ih tail

/-- In every run the current slot is running, a dispatched slot goes on with the frame it
was last interrupted at or created with, and no other call touches that frame. -/
theorem contexts_preserved (h : ProcessReach b s) :
    (∀ i, s.system.currentIndex = some i → (s.system.table i).state = .running) ∧
    (∀ later frame before earlier i, s.past = later ++ ⟨.tick frame, before⟩ :: earlier →
      (before.next b (.tick frame)).currentIndex = some i →
        resumeFrame i (⟨.tick frame, before⟩ :: earlier) =
          some ((schedulerTick frame).run before).1) ∧
    ∀ op j, (s.system.table j).state = .running →
      ((s.system.next b op).table j).frame = (s.system.table j).frame ∨
        s.system.currentIndex = some j ∧ op = .tick ((s.system.next b op).table j).frame := by
  refine ⟨fun i => h.resumable.current, ?_, fun op j running => ?_⟩
  · intro later frame before earlier i past go
    exact (h.suffix past).resumable.dispatched (b := b) go
  · exact h.resumable.frame_keep running op

def Event.Exits (c : Slot) (e : Event) : Prop :=
  (∃ frame, e.op = .exit frame) ∧ e.before.currentIndex = some c

def Event.StaysRunning (b : Symbols) (j : Slot) (e : Event) : Prop :=
  (e.before.table j).state = .running ∧ ((e.after b).table j).state = .running

/-- Slot `i` is dispatched twice while slot `j` runs all the time and is not dispatched. -/
structure Overtaking (b : Symbols) (i j : Slot) (past : List Event) where
  later : List Event
  second : Event
  between : List Event
  first : Event
  earlier : List Event
  past_eq : past = later ++ second :: (between ++ first :: earlier)
  other : i ≠ j
  first_dispatch : first.Dispatches b i
  second_dispatch : second.Dispatches b i
  waits : ∀ e ∈ between, ¬e.Dispatches b j
  running : ∀ e ∈ second :: (between ++ [first]), e.StaysRunning b j

def Ahead (i j : Slot) : Option Slot → Prop
  | some c => i ≤ c ∧ c < j ∨ j < i ∧ (i ≤ c ∨ c < j)
  | none => j < i

/-- Before the scheduler comes to slot `j` it does not come back to slot `i`. -/
theorem tick_ahead {frame : InterruptFrame} {s : System} {n : Slot}
    (running : (s.table j).state = .running) (ahead : Ahead i j s.currentIndex)
    (go : ((schedulerTick frame).run s).2.currentIndex = some n) (ne : n ≠ j) :
    n ≠ i ∧ Ahead i j (some n) := by
  rcases schedulerTick_cases frame s with ⟨-, run⟩ | ⟨next, found, run⟩
  · rw [run] at go
    cases go
  · rw [run] at go
    cases go
    have saved := (saveFrame_state (s := s) frame j).1.trans running
    have ne : n.val ≠ j.val := fun eq => ne (Fin.ext eq)
    cases current : s.currentIndex with
    | none =>
      rw [current] at found ahead
      obtain ⟨near, -⟩ := nextRunning_first found saved (by decide)
      have := near (Nat.zero_le _)
      have lt : j.val < i.val := ahead
      refine ⟨fun eq => ?_, .inr ⟨lt, .inr ?_⟩⟩
      · rw [eq] at this
        omega
      · exact Fin.lt_def.mpr (by omega)
    | some c =>
      rw [current] at found ahead
      have le : searchStart (some c) ≤ 4 := c.isLt
      obtain ⟨near, far⟩ := nextRunning_first found saved le
      simp only [searchStart] at near far
      simp only [Ahead, Fin.lt_def, Fin.le_def] at ahead ⊢
      refine ⟨fun eq => ?_, ?_⟩
      · rw [eq] at near far ne
        omega
      · omega

theorem ProcessReach.last {s : System} {past : List Event} (h : ProcessReach b ⟨s, e :: past⟩) :
    s = e.after b ∧ ProcessReach b ⟨e.before, past⟩ := by
  generalize eq : (⟨s, e :: past⟩ : History) = t at h
  cases h with
  | start h =>
    obtain ⟨s₀, rfl⟩ := h
    cases eq
  | step h ok go =>
    rw [go] at eq
    cases eq
    exact ⟨rfl, h⟩

theorem create_current (entry stack cr3 : Word) (s : System) :
    ((processCreate entry stack cr3).run s).2.currentIndex = s.currentIndex := by
  rcases processCreate_cases entry stack cr3 s with run | ⟨slot, -, run⟩ <;> rw [run]

theorem Event.ahead (running : e.StaysRunning b j) (waits : ¬e.Dispatches b j)
    (stay : ∀ c, e.Exits c → i < j → i ≤ c → ¬c < j) (ahead : Ahead i j e.before.currentIndex) :
    Ahead i j (e.after b).currentIndex := by
  obtain ⟨op, s⟩ := e
  cases op with
  | tick frame =>
    have waits (n : Slot) (go : ((schedulerTick frame).run s).2.currentIndex = some n) : n ≠ j :=
      fun eq => waits ⟨frame, rfl, eq ▸ go⟩
    change Ahead i j ((schedulerTick frame).run s).2.currentIndex
    cases go : ((schedulerTick frame).run s).2.currentIndex with
    | none =>
      exfalso
      rcases schedulerTick_cases frame s with ⟨idle, -⟩ | ⟨next, -, run⟩
      · exact idle j running.1
      · rw [run] at go
        cases go
    | some n => exact (tick_ahead running.1 ahead go (waits n go)).2
  | create entry stack cr3 =>
    change Ahead i j ((processCreate entry stack cr3).run s).2.currentIndex
    rw [create_current]
    exact ahead
  | exit frame =>
    change Ahead i j ((processExitFromSyscall b frame).run s).2.currentIndex
    cases current : s.currentIndex with
    | none =>
      rw [processExit_none frame current]
      exact ahead
    | some c =>
      have stay := stay c ⟨⟨frame, rfl⟩, current⟩
      obtain ⟨-, -, -, idle⟩ := processExit_some (b := b) frame current
      rw [idle]
      change Ahead i j s.currentIndex at ahead
      rw [current] at ahead
      rcases ahead with ⟨le, lt⟩ | ⟨lt, -⟩
      · exact absurd lt (stay (lt_of_le_of_lt le lt) le)
      · exact lt

theorem ahead_run {s : System} {between earlier : List Event} {first : Event}
    (h : ProcessReach b ⟨s, between ++ first :: earlier⟩) (dispatch : first.Dispatches b i)
    (other : i ≠ j) (waits : ∀ e ∈ between, ¬e.Dispatches b j)
    (running : ∀ e ∈ between, e.StaysRunning b j)
    (stay : ∀ e ∈ between, ∀ c, e.Exits c → i < j → i ≤ c → ¬c < j) :
    Ahead i j s.currentIndex := by
  induction between generalizing s with
  | nil =>
    obtain ⟨rfl, -⟩ := h.last
    obtain ⟨frame, -, current⟩ := dispatch
    rw [current]
    rcases lt_or_gt_of_ne other with lt | gt
    · exact .inl ⟨le_refl i, lt⟩
    · exact .inr ⟨gt, .inl (le_refl i)⟩
  | cons e rest ih =>
    obtain ⟨rfl, before⟩ := h.last
    refine e.ahead (running e List.mem_cons_self) (waits e List.mem_cons_self)
      (stay e List.mem_cons_self) ?_
    exact ih before (fun e he => waits e (List.mem_cons_of_mem _ he))
      (fun e he => running e (List.mem_cons_of_mem _ he))
      fun e he => stay e (List.mem_cons_of_mem _ he)

/-- A slot is overtaken only by a lower one, and only once a process below it has exited. -/
theorem overtaking_exit (h : ProcessReach b s) (o : Overtaking b i j s.past) :
    i < j ∧ ∃ e ∈ o.between, ∃ c, e.Exits c ∧ i ≤ c ∧ c < j := by
  by_contra none
  have stay : ∀ e ∈ o.between, ∀ c, e.Exits c → i < j → i ≤ c → ¬c < j := by
    intro e he c exits lt le lt'
    exact none ⟨lt, e, he, c, exits, le, lt'⟩
  have ahead : Ahead i j o.second.before.currentIndex := by
    refine ahead_run (h.suffix o.past_eq) o.first_dispatch o.other o.waits ?_ stay
    intro e he
    exact o.running e (List.mem_cons_of_mem _ (List.mem_append_left _ he))
  obtain ⟨frame, op, current⟩ := o.second_dispatch
  have running := (o.running o.second List.mem_cons_self).1
  rw [Event.after, op] at current
  exact (tick_ahead running ahead current o.other).1 rfl

def threeSymbols : Symbols := ⟨0x101000, 0x108000⟩

def threeStart : System where
  kernel := {
    memory := fun _ _ => 0
    pmm := ⟨fun _ => true, maxPages, 0, le_refl _⟩
    currentPml4 := 0
    kernelPml4 := 0
    kernelCr3 := 0
    cr3 := 0
    riruUserCr3 := 0
    heapUsed := 0
    heapTotal := 0 }
  table _ := emptyProcess
  currentIndex := none
  nextPid := 1
  busyTicks := 0

def threeCreated : System :=
  ((threeStart.next threeSymbols (.create 0x401000 0x3FFFF000 0x10000)).next threeSymbols
    (.create 0x402000 0x3FFFF000 0x20000)).next threeSymbols (.create 0x403000 0x3FFFF000 0x30000)

def threeTicked (n : ℕ) : System :=
  (([.tick zeroFrame, .tick zeroFrame, .exit zeroFrame, .tick zeroFrame] : List ProcessOp).take
    n).foldl (System.next threeSymbols) threeCreated

def threeRun : History where
  system := threeTicked 4
  past := [⟨.tick zeroFrame, threeTicked 3⟩, ⟨.exit zeroFrame, threeTicked 2⟩,
    ⟨.tick zeroFrame, threeTicked 1⟩, ⟨.tick zeroFrame, threeTicked 0⟩,
    ⟨.create 0x403000 0x3FFFF000 0x30000, (threeStart.next threeSymbols
      (.create 0x401000 0x3FFFF000 0x10000)).next threeSymbols
        (.create 0x402000 0x3FFFF000 0x20000)⟩,
    ⟨.create 0x402000 0x3FFFF000 0x20000,
      threeStart.next threeSymbols (.create 0x401000 0x3FFFF000 0x10000)⟩,
    ⟨.create 0x401000 0x3FFFF000 0x10000, threeStart⟩]

theorem History.run_reach {start : History → Prop} {b : Symbols} {s : History}
    (h : Reach start (fun op s t => t = s.next b op) (fun _ _ => True) s) (ops : List ProcessOp) :
    Reach start (fun op s t => t = s.next b op) (fun _ _ => True)
      (ops.foldl (History.next b) s) := by
  induction ops generalizing s with
  | nil => exact h
  | cons op rest ih => exact ih (.step h trivial rfl)

theorem threeRun_reach : ProcessReach threeSymbols threeRun := by
  have start : ProcessReach threeSymbols ⟨threeStart, []⟩ := .start ⟨threeStart, rfl⟩
  exact History.run_reach start [.create 0x401000 0x3FFFF000 0x10000,
    .create 0x402000 0x3FFFF000 0x20000, .create 0x403000 0x3FFFF000 0x30000, .tick zeroFrame,
    .tick zeroFrame, .exit zeroFrame, .tick zeroFrame]

theorem mem_pair {α : Type} {a b c : α} (h : a ∈ [b, c]) : a = b ∨ a = c := by
  simpa using h

theorem mem_four {α : Type} {a b c d e : α} (h : a ∈ [b, c, d, e]) :
    a = b ∨ a = c ∨ a = d ∨ a = e := by
  simpa using h

def threeOvertaking : Overtaking threeSymbols 0 2 threeRun.past where
  later := []
  second := ⟨.tick zeroFrame, threeTicked 3⟩
  between := [⟨.exit zeroFrame, threeTicked 2⟩, ⟨.tick zeroFrame, threeTicked 1⟩]
  first := ⟨.tick zeroFrame, threeTicked 0⟩
  earlier := threeRun.past.drop 4
  past_eq := rfl
  other := by decide
  first_dispatch := ⟨zeroFrame, rfl, rfl⟩
  second_dispatch := ⟨zeroFrame, rfl, rfl⟩
  waits e he := by
    rintro ⟨frame, op, go⟩
    rcases mem_pair he with rfl | rfl
    · cases op
    · cases go
  running e he := by
    rcases mem_four he with rfl | rfl | rfl | rfl
    · exact ⟨rfl, rfl⟩
    · exact ⟨rfl, rfl⟩
    · exact ⟨rfl, rfl⟩
    · exact ⟨rfl, rfl⟩

theorem overtaking_possible : ¬∀ (b : Symbols) (s : History), ProcessReach b s →
    ∀ i j, IsEmpty (Overtaking b i j s.past) :=
  fun h => (h threeSymbols threeRun threeRun_reach 0 2).false threeOvertaking

theorem overtaking_exit_three : ∃ e ∈ threeOvertaking.between, ∃ c, e.Exits c ∧ 0 ≤ c ∧ c < 2 :=
  (overtaking_exit threeRun_reach threeOvertaking).2

theorem contexts_preserved_three :
    resumeFrame 0 threeRun.past = some ((schedulerTick zeroFrame).run (threeTicked 3)).1 :=
  (contexts_preserved threeRun_reach).2.1 [] zeroFrame (threeTicked 3) _ 0 rfl rfl

end TinyOS.Memory
