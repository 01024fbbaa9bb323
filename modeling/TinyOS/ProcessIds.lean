import TinyOS.ProcessRuns

set_option autoImplicit false

namespace TinyOS.Memory
open StateRuns

/-- `process_by_pid`; the pointer it returns as a slot. -/
def processByPid (table : Slot → Process) (pid : Word) : Option Slot :=
  (List.finRange maxProcesses).find? fun i => (table i).state ≠ .unused ∧ (table i).pid = pid

/-- The runs from an empty process table with `next_pid` at 1. -/
abbrev BootReach (b : Symbols) : History → Prop :=
  Reach (fun s => ∃ s₀ : System, s₀.nextPid = 1 ∧ s = ⟨(processInit.run s₀).2, []⟩)
    (fun op s t => t = s.next b op) fun _ _ => True

/-- The slot that a call of `process_create` takes. -/
def Event.created (e : Event) : Option Slot :=
  match e.op with
  | .tick _ => none
  | .create entry stack cr3 => ((processCreate entry stack cr3).run e.before).1
  | .exit _ => none

def creations (past : List Event) : ℕ := past.countP fun e => e.created.isSome

def Reused (i : Slot) (later : List Event) : Prop := ∃ e ∈ later, e.created = some i

/-- The process with this pid has left `code` in slot `i`, or slot `i` was taken since. -/
structure Ended (table : Slot → Process) (pid : Word) (code : BitVec 32) (i : Slot)
    (later : List Event) : Prop where
  kept : ¬Reused i later →
    (table i).state = .exited ∧ (table i).pid = pid ∧ (table i).exitCode = code
  gone : Reused i later → ∀ j, (table j).state ≠ .unused → (table j).pid ≠ pid

/-- What holds between the calls while `next_pid` has not wrapped. -/
structure Identified (s : History) : Prop where
  counted : s.system.nextPid.toNat = 1+creations s.past
  used : ∀ i, (s.system.table i).state ≠ .unused →
    0 < (s.system.table i).pid.toNat ∧ (s.system.table i).pid.toNat < s.system.nextPid.toNat
  distinct : ∀ i j, (s.system.table i).state ≠ .unused → (s.system.table j).state ≠ .unused →
    (s.system.table i).pid = (s.system.table j).pid → i = j
  issued : ∀ later frame before earlier i, s.past = later ++ ⟨.exit frame, before⟩ :: earlier →
    before.currentIndex = some i → (before.table i).pid.toNat < s.system.nextPid.toNat
  ended : ∀ later frame before earlier i, s.past = later ++ ⟨.exit frame, before⟩ :: earlier →
    before.currentIndex = some i →
      Ended s.system.table (before.table i).pid (frame.rdi.setWidth 32) i later

variable {b : Symbols} {s : History} {i j : Slot} {e : Event} {table : Slot → Process}

theorem findFreeSlot_none : findFreeSlot table = none ↔ ∀ i, (table i).state = .running := by
  rw [findFreeSlot, List.find?_eq_none]
  constructor
  · intro full i
    have taken := full i (List.mem_finRange i)
    cases state : (table i).state with
    | unused => simp [state] at taken
    | running => rfl
    | exited => simp [state] at taken
  · intro full i _
    simp [full i]

/-- A call of `process_create` fails when the table is full and else takes a slot that does
not run. -/
theorem processCreate_none (entry stack cr3 : Word) (s : System) :
    ((processCreate entry stack cr3).run s).1 = none ↔ ∀ i, (s.table i).state = .running := by
  rw [← findFreeSlot_none]
  change (processCreate entry stack cr3 s).1 = none ↔ _
  cases free : findFreeSlot s.table with
  | none => simp only [processCreate, free]
  | some slot => simp only [processCreate, free, reduceCtorEq]

theorem processCreate_running (entry stack cr3 : Word) {s : System}
    (running : (s.table j).state = .running) :
    ((processCreate entry stack cr3).run s).2.table j = s.table j := by
  rcases processCreate_cases entry stack cr3 s with run | ⟨slot, free, run⟩
  · rw [run]
  · have ne : j ≠ slot := fun eq => free (eq ▸ running)
    rw [run]
    exact Function.update_of_ne ne _ _

theorem processExit_slot (frame : InterruptFrame) {s : System} (h : s.currentIndex = some i) :
    (((processExitFromSyscall b frame).run s).2.table i).pid = (s.table i).pid ∧
    (((processExitFromSyscall b frame).run s).2.table i).exitCode = frame.rdi.setWidth 32 ∧
    ((processExitFromSyscall b frame).run s).2.nextPid = s.nextPid := by
  rw [processExit_run frame h]
  dsimp only
  rw [Function.update_self]
  exact ⟨rfl, rfl, rfl⟩

theorem saveFrame_identity (s : System) (frame : InterruptFrame) (j : Slot) :
    (saveFrame s frame j).pid = (s.table j).pid ∧
      (saveFrame s frame j).exitCode = (s.table j).exitCode := by
  rcases saveFrame_slot s frame j with eq | eq
  · rw [eq]
    exact ⟨rfl, rfl⟩
  · rw [eq]
    exact ⟨rfl, rfl⟩

structure KeepsIds (s t : System) : Prop where
  nextPid : t.nextPid = s.nextPid
  pid : ∀ j, (t.table j).pid = (s.table j).pid
  unused : ∀ j, (t.table j).state = .unused ↔ (s.table j).state = .unused
  exited : ∀ j, (s.table j).state = .exited →
    (t.table j).state = .exited ∧ (t.table j).exitCode = (s.table j).exitCode

theorem keepsIds_tick (frame : InterruptFrame) (s : System) :
    KeepsIds s (s.next b (.tick frame)) := by
  have step : ((schedulerTick frame).run s).2.table = saveFrame s frame ∧
      ((schedulerTick frame).run s).2.nextPid = s.nextPid := by
    rcases schedulerTick_cases frame s with ⟨-, run⟩ | ⟨next, -, run⟩ <;> rw [run] <;>
      exact ⟨rfl, rfl⟩
  obtain ⟨table, nextPid⟩ := step
  refine ⟨nextPid, fun j => ?_, fun j => ?_, fun j exited => ?_⟩
  · rw [System.next, table, (saveFrame_identity s frame j).1]
  · rw [System.next, table, (saveFrame_state frame j).1]
  · rw [System.next, table, (saveFrame_state frame j).1, (saveFrame_identity s frame j).2]
    exact ⟨exited, rfl⟩

theorem keepsIds_exit (frame : InterruptFrame) {s : System}
    (current : ∀ i, s.currentIndex = some i → (s.table i).state = .running) :
    KeepsIds s (s.next b (.exit frame)) := by
  rw [System.next]
  cases index : s.currentIndex with
  | none =>
    rw [processExit_none frame index]
    exact ⟨rfl, fun _ => rfl, fun _ => Iff.rfl, fun _ exited => ⟨exited, rfl⟩⟩
  | some c =>
    have running := current c index
    obtain ⟨state, -, others, -⟩ := processExit_some (b := b) frame index
    obtain ⟨pid, -, nextPid⟩ := processExit_slot (b := b) frame index
    refine ⟨nextPid, fun j => ?_, fun j => ?_, fun j exited => ?_⟩
    · by_cases eq : j = c
      · rw [eq, pid]
      · rw [others j eq]
    · by_cases eq : j = c
      · rw [eq, state, running]
        decide
      · rw [others j eq]
    · have ne : j ≠ c := by
        rintro rfl
        exact absurd (running.symm.trans exited) (by decide)
      rw [others j ne]
      exact ⟨exited, rfl⟩

/-- A call keeps the identities, or it is a creation and adds one. -/
theorem Event.ids (e : Event)
    (current : ∀ i, e.before.currentIndex = some i → (e.before.table i).state = .running) :
    e.created = none ∧ KeepsIds e.before (e.after b) ∨
      ∃ slot p, e.created = some slot ∧ p.pid = e.before.nextPid ∧
        (e.after b).table = Function.update e.before.table slot p ∧
          (e.after b).nextPid = e.before.nextPid+1 := by
  obtain ⟨op, s⟩ := e
  cases op with
  | tick frame => exact .inl ⟨rfl, keepsIds_tick frame s⟩
  | exit frame => exact .inl ⟨rfl, keepsIds_exit frame current⟩
  | create entry stack cr3 =>
    simp only [Event.created, Event.after, System.next]
    rcases processCreate_cases entry stack cr3 s with run | ⟨slot, free, run⟩
    · rw [run]
      exact .inl ⟨rfl, rfl, fun _ => rfl, fun _ => Iff.rfl, fun _ exited => ⟨exited, rfl⟩⟩
    · rw [run]
      exact .inr ⟨slot, _, rfl, rfl, rfl, rfl⟩

theorem reused_cons {later : List Event} :
    Reused i (e :: later) ↔ e.created = some i ∨ Reused i later := by
  simp [Reused]

theorem creations_cons (past : List Event) :
    creations (e :: past) = creations past+(if e.created.isSome then 1 else 0) := by
  rw [creations, creations, List.countP_cons]

theorem Ended.keeps {pid : Word} {code : BitVec 32} {later : List Event}
    {s s' : System} (h : Ended s.table pid code i later) (ids : KeepsIds s s')
    (none : e.created = none) : Ended s'.table pid code i (e :: later) := by
  have same : Reused i (e :: later) ↔ Reused i later := by
    rw [reused_cons, none]
    simp
  constructor
  · intro fresh
    obtain ⟨state, pid, code⟩ := h.kept (same.not.mp fresh)
    obtain ⟨state', code'⟩ := ids.exited i state
    exact ⟨state', (ids.pid i).trans pid, code'.trans code⟩
  · intro reused j used
    rw [ids.pid j]
    exact h.gone (same.mp reused) j ((ids.unused j).not.mp used)

theorem ended_fresh {t : Slot → Process} {pid : Word} {code : BitVec 32}
    (state : (t i).state = .exited) (same : (t i).pid = pid) (left : (t i).exitCode = code) :
    Ended t pid code i [] :=
  ⟨fun _ => ⟨state, same, left⟩, fun reused => by simp [Reused] at reused⟩

theorem Identified.keeps (h : Identified s) (op : ProcessOp)
    (current : ∀ i, s.system.currentIndex = some i → (s.system.table i).state = .running)
    (none : (⟨op, s.system⟩ : Event).created = none)
    (ids : KeepsIds s.system (s.system.next b op)) : Identified (s.next b op) := by
  constructor
  · change (s.system.next b op).nextPid.toNat = 1+creations (⟨op, s.system⟩ :: s.past)
    rw [ids.nextPid, h.counted, creations_cons, none]
    rfl
  · intro i used
    change 0 < ((s.system.next b op).table i).pid.toNat ∧
      ((s.system.next b op).table i).pid.toNat < (s.system.next b op).nextPid.toNat
    rw [ids.pid i, ids.nextPid]
    exact h.used i ((ids.unused i).not.mp used)
  · intro i j usedI usedJ same
    change ((s.system.next b op).table i).pid = ((s.system.next b op).table j).pid at same
    rw [ids.pid i, ids.pid j] at same
    exact h.distinct i j ((ids.unused i).not.mp usedI) ((ids.unused j).not.mp usedJ) same
  · intro later frame before earlier i past index
    change _ < (s.system.next b op).nextPid.toNat
    rw [ids.nextPid]
    cases later with
    | nil =>
      injection past with head _
      cases head
      refine (h.used i ?_).2
      rw [current i index]
      decide
    | cons e later =>
      injection past with _ tail
      exact h.issued later frame before earlier i tail index
  · intro later frame before earlier i past index
    cases later with
    | nil =>
      injection past with head _
      cases head
      obtain ⟨state, -, -, -⟩ := processExit_some (b := b) frame index
      obtain ⟨pid, code, -⟩ := processExit_slot (b := b) frame index
      exact ended_fresh state pid code
    | cons e later =>
      injection past with head tail
      subst head
      exact (h.ended later frame before earlier i tail index).keeps ids none

structure Creates (s s' : System) (slot : Slot) : Prop where
  nextPid : s'.nextPid.toNat = s.nextPid.toNat+1
  self : (s'.table slot).pid = s.nextPid
  other : ∀ {j}, j ≠ slot → s'.table j = s.table j

theorem creates_of {op : ProcessOp} {s : System} {slot : Slot} {p : Process}
    (few : s.nextPid.toNat+1 < 2^64) (pid : p.pid = s.nextPid)
    (table : (s.next b op).table = Function.update s.table slot p)
    (nextPid : (s.next b op).nextPid = s.nextPid+1) : Creates s (s.next b op) slot where
  nextPid := by
    rw [nextPid, BitVec.toNat_add]
    exact Nat.mod_eq_of_lt few
  self := by rw [table, Function.update_self, pid]
  other ne := by rw [table, Function.update_of_ne ne]

theorem Identified.fresh (h : Identified s) {j : Slot}
    (used : (s.system.table j).state ≠ .unused) :
    (s.system.table j).pid ≠ s.system.nextPid := by
  intro eq
  have lt := (h.used j used).2
  rw [eq] at lt
  exact lt_irrefl _ lt

theorem Creates.distinct {s' : System} {slot : Slot} (made : Creates s.system s' slot)
    (h : Identified s) {i j : Slot} (usedI : (s'.table i).state ≠ .unused)
    (usedJ : (s'.table j).state ≠ .unused) (same : (s'.table i).pid = (s'.table j).pid) :
    i = j := by
  by_cases eqI : i = slot
  · by_cases eqJ : j = slot
    · rw [eqI, eqJ]
    · rw [made.other eqJ] at usedJ same
      rw [eqI, made.self] at same
      exact absurd same.symm (h.fresh usedJ)
  · rw [made.other eqI] at usedI same
    by_cases eqJ : j = slot
    · rw [eqJ, made.self] at same
      exact absurd same (h.fresh usedI)
    · rw [made.other eqJ] at usedJ same
      exact h.distinct i j usedI usedJ same

/-- A creation either leaves an ended process alone, or takes its slot with another pid. -/
theorem Ended.creates {pid : Word} {code : BitVec 32} {later : List Event} {s' : System}
    {slot : Slot} (ended : Ended s.system.table pid code i later)
    (made : Creates s.system s' slot) (h : Identified s)
    (issued : pid.toNat < s.system.nextPid.toNat) (created : e.created = some slot) :
    Ended s'.table pid code i (e :: later) := by
  constructor
  · intro fresh
    rw [reused_cons, not_or, created, Option.some.injEq] at fresh
    rw [made.other (Ne.symm fresh.1)]
    exact ended.kept fresh.2
  · intro reused j used
    rw [reused_cons, created, Option.some.injEq] at reused
    by_cases eq : j = slot
    · rw [eq, made.self]
      intro again
      rw [again] at issued
      exact lt_irrefl _ issued
    · rw [made.other eq] at used ⊢
      by_cases before : Reused i later
      · exact ended.gone before j used
      · obtain ⟨state, same, -⟩ := ended.kept before
        have taken : slot = i := reused.resolve_right before
        intro again
        refine eq ?_
        rw [taken]
        refine h.distinct j i used ?_ (again.trans same.symm)
        rw [state]
        decide

theorem Identified.creates (h : Identified s) (op : ProcessOp) {slot : Slot} {p : Process}
    (few : s.system.nextPid.toNat+1 < 2^64)
    (created : (⟨op, s.system⟩ : Event).created = some slot) (pid : p.pid = s.system.nextPid)
    (table : (s.system.next b op).table = Function.update s.system.table slot p)
    (nextPid : (s.system.next b op).nextPid = s.system.nextPid+1) :
    Identified (s.next b op) := by
  have made : Creates s.system (s.system.next b op) slot := creates_of few pid table nextPid
  constructor
  · change (s.system.next b op).nextPid.toNat = 1+creations (⟨op, s.system⟩ :: s.past)
    rw [made.nextPid, h.counted, creations_cons, created]
    rfl
  · intro i used
    change 0 < ((s.system.next b op).table i).pid.toNat ∧
      ((s.system.next b op).table i).pid.toNat < (s.system.next b op).nextPid.toNat
    change ((s.system.next b op).table i).state ≠ .unused at used
    rw [made.nextPid]
    by_cases eq : i = slot
    · rw [eq, made.self, h.counted]
      omega
    · rw [made.other eq] at used ⊢
      have := h.used i used
      omega
  · exact fun i j usedI usedJ same => made.distinct h usedI usedJ same
  · intro later frame before earlier i past index
    change _ < (s.system.next b op).nextPid.toNat
    rw [made.nextPid]
    cases later with
    | nil =>
      injection past with head _
      cases head
      cases created
    | cons e later =>
      injection past with _ tail
      exact Nat.lt_succ_of_lt (h.issued later frame before earlier i tail index)
  · intro later frame before earlier i past index
    cases later with
    | nil =>
      injection past with head _
      cases head
      cases created
    | cons e later =>
      injection past with head tail
      subst head
      exact (h.ended later frame before earlier i tail index).creates made h
        (h.issued later frame before earlier i tail index) created

theorem BootReach.process (h : BootReach b s) : ProcessReach b s := by
  induction h with
  | start h =>
    obtain ⟨s₀, -, eq⟩ := h
    exact .start ⟨s₀, eq⟩
  | step h ok go ih => exact .step ih ok go

theorem BootReach.identified (h : BootReach b s) (few : creations s.past < 2^64-1) :
    Identified s := by
  induction h with
  | start h =>
    obtain ⟨s₀, one, rfl⟩ := h
    constructor
    · change s₀.nextPid.toNat = _
      rw [one]
      rfl
    · exact fun i used => absurd rfl used
    · exact fun i j used => absurd rfl used
    · intro later frame before earlier i past
      simp at past
    · intro later frame before earlier i past
      simp at past
  | step h ok go ih =>
    rename_i s t op
    subst go
    have count := creations_cons (e := ⟨op, s.system⟩) s.past
    change creations (⟨op, s.system⟩ :: s.past) < _ at few
    have inv := ih (by omega)
    have current := fun i => (BootReach.process h).resumable.current (i := i)
    rcases (⟨op, s.system⟩ : Event).ids (b := b) current with
      ⟨none, ids⟩ | ⟨slot, p, created, pid, table, nextPid⟩
    · exact inv.keeps op current none ids
    · refine inv.creates op ?_ created pid table nextPid
      rw [created, Option.isSome_some, if_pos rfl] at count
      rw [inv.counted]
      omega

theorem processByPid_some {pid : Word} (used : (table i).state ≠ .unused)
    (same : (table i).pid = pid)
    (only : ∀ j, (table j).state ≠ .unused → (table j).pid = pid → j = i) :
    processByPid table pid = some i := by
  cases found : processByPid table pid with
  | none =>
    rw [processByPid, List.find?_eq_none] at found
    simpa [used, same] using found i (List.mem_finRange i)
  | some j =>
    have := List.find?_some found
    simp only [decide_eq_true_eq] at this
    rw [only j this.1 this.2]

theorem processByPid_none {pid : Word} (gone : ∀ j, (table j).state ≠ .unused →
    (table j).pid ≠ pid) : processByPid table pid = none := by
  rw [processByPid, List.find?_eq_none]
  intro j _
  simpa using gone j

/-- Pids name at most one slot, a creation takes no running slot and fails when there is no
other, and an exit code is found under its pid until the slot is taken. -/
theorem process_identity (h : BootReach b s) (few : creations s.past < 2^64-1) :
    (∀ i, (s.system.table i).state ≠ .unused → (s.system.table i).pid ≠ 0) ∧
    (∀ i j, (s.system.table i).state ≠ .unused → (s.system.table j).state ≠ .unused →
      (s.system.table i).pid = (s.system.table j).pid → i = j) ∧
    (∀ entry stack cr3,
      (((processCreate entry stack cr3).run s.system).1 = none ↔
        ∀ i, (s.system.table i).state = .running) ∧
      ∀ i, (s.system.table i).state = .running →
        ((processCreate entry stack cr3).run s.system).2.table i = s.system.table i) ∧
    ∀ later frame before earlier i, s.past = later ++ ⟨.exit frame, before⟩ :: earlier →
      before.currentIndex = some i →
        (¬Reused i later → processByPid s.system.table (before.table i).pid = some i ∧
          (s.system.table i).state = .exited ∧
          (s.system.table i).exitCode = frame.rdi.setWidth 32) ∧
        (Reused i later → processByPid s.system.table (before.table i).pid = none) := by
  have ids := h.identified few
  refine ⟨fun i used => ?_, ids.distinct, fun entry stack cr3 => ?_, ?_⟩
  · intro zero
    have := (ids.used i used).1
    rw [zero] at this
    exact absurd this (by decide)
  · exact ⟨processCreate_none entry stack cr3 s.system,
      fun i running => processCreate_running entry stack cr3 running⟩
  · intro later frame before earlier i past index
    obtain ⟨kept, gone⟩ := ids.ended later frame before earlier i past index
    constructor
    · intro fresh
      obtain ⟨state, pid, code⟩ := kept fresh
      have used : (s.system.table i).state ≠ .unused := by
        rw [state]
        decide
      refine ⟨processByPid_some used pid fun j usedJ same => ?_, state, code⟩
      exact ids.distinct j i usedJ used (same.trans pid.symm)
    · intro reused
      exact processByPid_none (gone reused)

theorem threeRun_boot : BootReach threeSymbols threeRun := by
  have start : BootReach threeSymbols ⟨threeStart, []⟩ := .start ⟨threeStart, rfl, rfl⟩
  exact History.run_reach start [.create 0x401000 0x3FFFF000 0x10000,
    .create 0x402000 0x3FFFF000 0x20000, .create 0x403000 0x3FFFF000 0x30000, .tick zeroFrame,
    .tick zeroFrame, .exit zeroFrame, .tick zeroFrame]

theorem process_identity_three : processByPid threeRun.system.table 2 = some 1 ∧
    (threeRun.system.table 1).state = .exited ∧ (threeRun.system.table 1).exitCode = 0 := by
  have fresh : ¬Reused 1 [(⟨.tick zeroFrame, threeTicked 3⟩ : Event)] := by
    rintro ⟨e, mem, created⟩
    cases List.mem_singleton.mp mem
    cases created
  exact ((process_identity threeRun_boot (by decide)).2.2.2
    [⟨.tick zeroFrame, threeTicked 3⟩] zeroFrame (threeTicked 2) _ 1 rfl rfl).1 fresh

end TinyOS.Memory
