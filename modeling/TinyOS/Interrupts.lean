import TinyOS.ProcessRuns
import TinyOS.RiruRoom

set_option autoImplicit false

/-! Interrupts and system calls (idt.c, syscalls.c, `process_exec`), and the address space a
process goes on in. -/
namespace TinyOS.Memory
open StateRuns Riru

variable {α : Type}

def inKernel (x : KernelM α) : SystemM α := fun s =>
  ((x.run s.kernel).1, { s with kernel := (x.run s.kernel).2 })

theorem system_bind {β : Type} (x : SystemM α) (g : α → SystemM β) (s : System) :
    (x >>= g).run s = (g (x.run s).1).run (x.run s).2 := rfl

theorem inKernel_run (x : KernelM α) (s : System) : (inKernel x).run s =
    ((x.run s.kernel).1, { s with kernel := (x.run s.kernel).2 }) := rfl

/-- On a name that is not empty; `none` when a page fault stops the machine. -/
def processExec (b : Layout) (file : Option FileRead) : SystemM (Option ℤ) := do
  let outcome ← inKernel (riruLoadFile b file)
  match outcome with
  | .halted => return none
  | .failed _ => return some (-3)
  | .loaded result => do
    let cr3 ← inKernel riruGetUserCr3
    if cr3 = 0 then return some (-4)
    let slot ← processCreate result.entry riruUserStackTop cr3
    match slot with
    | none => return some (-5)
    | some _ => return some 0

abbrev sysExit : Word := 1
abbrev sysWrite : Word := 2

/-- `USER_MIN` and `USER_MAX` are the bounds of the RIRU loader. -/
def userRangeValid (address size : Word) : Bool :=
  if size = 0 then true
  else if address < userMin then false
  else if userMax ≤ address then false
  else if userMax - address < size then false
  else true

/-- `SYS_WRITE` prints the bytes and returns their number. -/
def syscallHandler (b : Symbols) (frame : InterruptFrame) : SystemM InterruptFrame :=
  if frame.rax = sysWrite then
    return { frame with rax := if userRangeValid frame.rdi frame.rsi then frame.rsi else -1 }
  else if frame.rax = sysExit then processExitFromSyscall b frame
  else return { frame with rax := -1 }

/-- What an interrupt comes with: the registers of the code interrupted, and the program
that the key pressed makes the shell run, if any. -/
structure Interrupt where
  frame : InterruptFrame
  run : Option (Option FileRead)

/-- `none` when the handler does not return. -/
def isrHandler (l : Layout) (b : Symbols) (e : Interrupt) : SystemM (Option InterruptFrame) :=
  let n := e.frame.intNum
  if n = 0x80 then some <$> syscallHandler b e.frame
  else if n < 32 then return none
  else if n = 0x20 then some <$> schedulerTick e.frame
  else if n = 0x21 then
    match e.run with
    | none => return some e.frame
    | some file => do
      let result ← processExec l file
      return result.map fun _ => e.frame
  else return some e.frame

/-- The kernel, and the code segment of the code that runs between interrupts. -/
structure Machine where
  system : System
  cs : Word

def Ring3 (cs : Word) : Prop := cs &&& 3 = 3

def Machine.Step (l : Layout) (b : Symbols) (e : Interrupt) (m m' : Machine) : Prop :=
  ∃ frame, (isrHandler l b e).run m.system = (some frame, m'.system) ∧ m'.cs = frame.cs

def Interrupt.Comes (m : Machine) (e : Interrupt) : Prop := Ring3 e.frame.cs ↔ Ring3 m.cs

def Machine.Start (kernel : Kernel → Prop) (m : Machine) : Prop :=
  ∃ s, kernel s.kernel ∧ m = ⟨(processInit.run s).2, 0x08⟩

/-- The active address space is that of the running process in the current slot. -/
def System.InSpace (s : System) : Prop :=
  ∃ i, s.currentIndex = some i ∧ (s.table i).state = .running ∧
    s.kernel.cr3 = (s.table i).cr3 ∧ pageAddress s.kernel.currentPml4 = (s.table i).cr3

/-- What the load of a program does before it switches address spaces succeeds. -/
def Switches (l : Layout) (file : Option FileRead) (k : Kernel) : Prop :=
  ∃ f bytes count image span, file = some f ∧ f.content = some (bytes, count) ∧
    ((kmalloc (f.size.setWidth 64)).run k).1 ≠ 0 ∧
    riruParse (some bytes) count = .ok image ∧ imageSpan image.header = .ok span ∧
    ((prepareSpace l image.header span.2).run (afterRead f bytes count k)).1 = 0

def Interrupt.Calm (l : Layout) (m : Machine) (e : Interrupt) : Prop :=
  Ring3 e.frame.cs → e.frame.intNum = 0x21 → ∀ file, e.run = some file →
    ¬Switches l file m.system.kernel

/-- What holds between interrupts. -/
structure Machine.Inv (m : Machine) : Prop where
  idle : m.system.currentIndex = none → ¬Ring3 m.cs
  current : ∀ {i}, m.system.currentIndex = some i → Ring3 m.cs ∧ m.system.InSpace
  space : ∀ {i}, (m.system.table i).state = .running →
    ∃ p, 0 < p ∧ p < 2^40 ∧ (m.system.table i).cr3 = pageAddress p
  frame : ∀ {i}, (m.system.table i).state = .running → Ring3 (m.system.table i).frame.cs

variable {l : Layout} {b : Symbols} {m m' : Machine} {e : Interrupt} {k : Kernel}

theorem allocPage_lt (s : Pmm) : (pmmAllocPage s).1 = 0 ∨
    ∃ page, 0 < page ∧ page < 2^20 ∧ (pmmAllocPage s).1 = pageAddress page := by
  rw [pmmAllocPage]
  cases h : firstFree s.used 0 s.totalPages with
  | none => exact .inl rfl
  | some page =>
    obtain ⟨-, lt, -, -⟩ := firstFree_some h
    have le := s.total_le
    have : maxPages = 1048576 := rfl
    rcases Nat.eq_zero_or_pos page with rfl | pos
    · exact .inl rfl
    · exact .inr ⟨page, pos, by omega, rfl⟩

theorem prepareSpace_page {h : RiruHeader} {stop : Word}
    (zero : ((prepareSpace l h stop).run k).1 = 0) :
    ∃ page, 0 < page ∧ page < 2^20 ∧
      ((prepareSpace l h stop).run k).2.riruUserCr3 = pageAddress page := by
  obtain ⟨cr3, nonzero⟩ := prepareSpace_cr3 zero
  have alloc := (createUserSpace_alloc l k).resolve_left nonzero
  rcases allocPage_lt k.pmm with none | ⟨page, pos, lt, eq⟩
  · exact absurd (alloc.trans none) nonzero
  · exact ⟨page, pos, lt, (cr3.trans alloc).trans eq⟩

theorem finishLoad_userCr3 (file : Word) (image : RiruImage) (base stop : Word) :
    Keeps Kernel.riruUserCr3 (finishLoad file image base stop) := by
  refine .bind (fun _ => rfl) fun k => .bind (.ite (.pure _) fun _ => rfl) fun _ => ?_
  refine (keeps_copyImage static_userCr3 _ _ _).bind fun _ => .ite (.pure _) ?_
  exact .bind (fun _ => rfl) fun _ => .bind (fun _ => rfl) fun _ => .pure _

/-- What a load of a file comes to, once the file has been read. -/
theorem riruLoadFile_cases (l : Layout) (file : Option FileRead) (k : Kernel) :
    ((∃ code, ((riruLoadFile l file).run k).1 = .failed code) ∧
        ((riruLoadFile l file).run k).2.space = k.space) ∨
      ∃ f bytes count start k₁ k₂, file = some f ∧ Filled f bytes count k start k₁ k₂ := by
  cases file with
  | none => exact .inl ⟨⟨-2, rfl⟩, rfl⟩
  | some f =>
    have buffer := keeps_kmalloc static_space (f.size.setWidth 64) k
    by_cases zero : ((kmalloc (f.size.setWidth 64)).run k).1 = 0
    · left
      rw [riruLoadFile, run_bind, if_pos zero]
      exact ⟨⟨-3, rfl⟩, buffer⟩
    cases content : f.content with
    | none =>
      left
      rw [riruLoadFile, run_bind, if_neg zero, content]
      exact ⟨⟨-4, rfl⟩, (keeps_kfree static_space _ _).trans buffer⟩
    | some pair =>
      obtain ⟨start, k₁, k₂, filled⟩ := filled_of content zero
      exact .inr ⟨f, pair.1, pair.2, start, k₁, k₂, rfl, filled⟩

/-- A load that does not come to the switch leaves the active address space. -/
theorem riruLoadFile_space {file : Option FileRead} (stays : ¬Switches l file k) :
    ((riruLoadFile l file).run k).2.space = k.space := by
  rcases riruLoadFile_cases l file k with ⟨-, same⟩ | ⟨f, bytes, count, start, k₁, k₂, rfl, filled⟩
  · exact same
  have before : k₂.space = k.space := by
    have buffer := keeps_kmalloc static_space (f.size.setWidth 64) k
    rw [filled.found.run] at buffer
    rw [filled.statics]
    exact buffer
  have load : ((riruLoad l (pageAddress start + headerSize) count).run k₂).2.space = k₂.space := by
    rw [riruLoad, run_bind, show (get : KernelM Kernel).run k₂ = (k₂, k₂) from rfl]
    dsimp only
    cases parsed : riruParse (k₂.fileAt (pageAddress start + headerSize)) count with
    | error code => rfl
    | ok image =>
      dsimp only
      cases span : imageSpan image.header with
      | error code => rfl
      | ok pair =>
        obtain ⟨base, stop⟩ := pair
        dsimp only
        rw [run_bind]
        by_cases fails : ((prepareSpace l image.header stop).run k₂).1 ≠ 0
        · rw [if_pos fails]
          exact keeps_prepareSpace l image.header stop _
        · obtain ⟨image', parsed', header⟩ := filled.parsed parsed
          refine absurd ⟨f, bytes, count, image', (base, stop), rfl, filled.content, ?_, parsed',
            header ▸ span, ?_⟩ stays
          · rw [filled.found.run]
            exact filled.found.ptr_ne
          · rw [filled.afterRead, header]
            exact not_not.mp fails
  rw [filled.load, run_bind]
  exact (keeps_release static_space _ _ _).trans (load.trans before)

/-- After a load the address space of the program is a page. -/
theorem riruLoad_page {file size : Word} {result : RiruLoadResult}
    (h : ((riruLoad l file size).run k).1 = .loaded result) :
    ∃ page, 0 < page ∧ page < 2^20 ∧
      ((riruLoad l file size).run k).2.riruUserCr3 = pageAddress page := by
  rw [riruLoad, run_bind, show (get : KernelM Kernel).run k = (k, k) from rfl] at h ⊢
  dsimp only at h ⊢
  cases parsed : riruParse (k.fileAt file) size with
  | error code =>
    rw [parsed] at h
    cases h
  | ok image =>
    rw [parsed] at h
    dsimp only at h ⊢
    cases span : imageSpan image.header with
    | error code =>
      rw [span] at h
      cases h
    | ok pair =>
      obtain ⟨base, stop⟩ := pair
      rw [span] at h
      dsimp only at h ⊢
      rw [run_bind] at h ⊢
      by_cases fails : ((prepareSpace l image.header stop).run k).1 ≠ 0
      · rw [if_pos fails] at h
        cases h
      · rw [if_neg fails] at h ⊢
        obtain ⟨page, pos, lt, eq⟩ := prepareSpace_page (not_not.mp fails)
        exact ⟨page, pos, lt, (finishLoad_userCr3 file image base stop _).trans eq⟩

theorem riruLoadFile_page {file : Option FileRead} {result : RiruLoadResult}
    (h : ((riruLoadFile l file).run k).1 = .loaded result) :
    ∃ page, 0 < page ∧ page < 2^20 ∧
      ((riruLoadFile l file).run k).2.riruUserCr3 = pageAddress page := by
  rcases riruLoadFile_cases l file k with
    ⟨⟨code, failed⟩, -⟩ | ⟨f, bytes, count, start, k₁, k₂, rfl, filled⟩
  · rw [failed] at h
    cases h
  rw [filled.load, run_bind] at h ⊢
  cases outcome : ((riruLoad l (pageAddress start + headerSize) count).run k₂).1 with
  | halted =>
    rw [outcome] at h
    cases h
  | failed code =>
    rw [outcome] at h
    cases h
  | loaded r =>
    obtain ⟨page, pos, lt, eq⟩ := riruLoad_page outcome
    exact ⟨page, pos, lt, (keeps_release static_userCr3 _ _ _).trans eq⟩

/-- What `process_exec` does to the process table: nothing, or a free slot gets a process
that starts in ring 3. -/
structure Executed (s s' : System) (k : Kernel) : Prop where
  kernel : s'.kernel = k
  current : s'.currentIndex = s.currentIndex
  keep : ∀ {j}, (s.table j).state = .running → s'.table j = s.table j
  fresh : ∀ {j}, (s'.table j).state = .running → (s.table j).state ≠ .running →
    Ring3 (s'.table j).frame.cs ∧ ∃ p, 0 < p ∧ p < 2^40 ∧ (s'.table j).cr3 = pageAddress p

theorem processExec_cases {file : Option FileRead} {s : System} {r : Option ℤ}
    (h : ((processExec l file).run s).1 = r) (returns : r ≠ none) :
    Executed s ((processExec l file).run s).2 ((riruLoadFile l file).run s.kernel).2 := by
  have run : (processExec l file).run s =
      match ((riruLoadFile l file).run s.kernel).1 with
      | .halted => (none, { s with kernel := ((riruLoadFile l file).run s.kernel).2 })
      | .failed _ => (some (-3), { s with kernel := ((riruLoadFile l file).run s.kernel).2 })
      | .loaded result =>
        if ((riruLoadFile l file).run s.kernel).2.riruUserCr3 = 0 then
          (some (-4), { s with kernel := ((riruLoadFile l file).run s.kernel).2 })
        else
          match (processCreate result.entry riruUserStackTop
              ((riruLoadFile l file).run s.kernel).2.riruUserCr3).run
                { s with kernel := ((riruLoadFile l file).run s.kernel).2 } with
          | (none, t) => (some (-5), t)
          | (some _, t) => (some 0, t) := by
    rw [processExec, system_bind, inKernel_run]
    cases ((riruLoadFile l file).run s.kernel).1 with
    | halted => rfl
    | failed code => rfl
    | loaded result =>
      dsimp only
      rw [system_bind, inKernel_run, show (riruGetUserCr3.run
        ((riruLoadFile l file).run s.kernel).2) = (((riruLoadFile l file).run s.kernel).2.riruUserCr3,
          ((riruLoadFile l file).run s.kernel).2) from rfl]
      dsimp only
      by_cases zero : ((riruLoadFile l file).run s.kernel).2.riruUserCr3 = 0
      · rw [if_pos zero, if_pos zero]
        rfl
      · rw [if_neg zero, if_neg zero, system_bind]
        generalize (processCreate result.entry riruUserStackTop
          ((riruLoadFile l file).run s.kernel).2.riruUserCr3).run
            { s with kernel := ((riruLoadFile l file).run s.kernel).2 } = created
        rcases created with ⟨_ | slot, t⟩
        · rfl
        · rfl
  have same : Executed s { s with kernel := ((riruLoadFile l file).run s.kernel).2 }
      ((riruLoadFile l file).run s.kernel).2 :=
    ⟨rfl, rfl, fun _ => rfl, fun now before => absurd now before⟩
  rw [run]
  cases outcome : ((riruLoadFile l file).run s.kernel).1 with
  | halted =>
    rw [run, outcome] at h
    exact absurd h.symm returns
  | failed code => exact same
  | loaded result =>
    obtain ⟨page, pos, lt, cr3⟩ := riruLoadFile_page outcome
    dsimp only
    rw [cr3, if_neg (pageAddress_ne_zero pos (by omega))]
    rcases processCreate_cases result.entry riruUserStackTop (pageAddress page)
      { s with kernel := ((riruLoadFile l file).run s.kernel).2 } with run | ⟨slot, free, run⟩
    · rw [run]
      exact same
    · rw [run]
      refine ⟨rfl, rfl, fun {j} running => ?_, fun {j} now before => ?_⟩
      · have ne : j ≠ slot := by
          rintro rfl
          exact free running
        exact Function.update_of_ne ne _ _
      · by_cases eq : j = slot
        · dsimp only
          rw [eq, Function.update_self]
          exact ⟨show (gdtUserCode ||| 3 : Word) &&& 3 = 3 by decide, page, pos, by omega, rfl⟩
        · dsimp only at now
          rw [Function.update_of_ne eq] at now
          exact absurd now before

theorem syscallHandler_cases (frame : InterruptFrame) (s : System) :
    (((syscallHandler b frame).run s).2 = s ∧ ((syscallHandler b frame).run s).1.cs = frame.cs) ∨
      (syscallHandler b frame).run s = (processExitFromSyscall b frame).run s := by
  rw [syscallHandler]
  by_cases write : frame.rax = sysWrite
  · rw [if_pos write]
    exact .inl ⟨rfl, rfl⟩
  rw [if_neg write]
  by_cases exit : frame.rax = sysExit
  · rw [if_pos exit]
    exact .inr rfl
  · rw [if_neg exit]
    exact .inl ⟨rfl, rfl⟩

theorem Machine.Step.cases (go : m.Step l b e m') :
    (m'.system = m.system ∧ m'.cs = e.frame.cs) ∨
    (m'.system = ((processExitFromSyscall b e.frame).run m.system).2 ∧
      m'.cs = ((processExitFromSyscall b e.frame).run m.system).1.cs) ∨
    (m'.system = ((schedulerTick e.frame).run m.system).2 ∧
      m'.cs = ((schedulerTick e.frame).run m.system).1.cs) ∨
    ∃ file, e.frame.intNum = 0x21 ∧ e.run = some file ∧ m'.cs = e.frame.cs ∧
      Executed m.system m'.system ((riruLoadFile l file).run m.system.kernel).2 := by
  obtain ⟨frame, handled, cs⟩ := go
  have returned (h : (some e.frame, m.system) = (some frame, m'.system)) :
      m'.system = m.system ∧ m'.cs = e.frame.cs := by
    injection h with h h'
    injection h with h
    exact ⟨h'.symm, by rw [cs, h]⟩
  rw [isrHandler] at handled
  split_ifs at handled with syscall exception timer key
  · have run : (syscallHandler b e.frame).run m.system = (frame, m'.system) := by
      change (some ((syscallHandler b e.frame).run m.system).1,
        ((syscallHandler b e.frame).run m.system).2) = _ at handled
      injection handled with h h'
      injection h with h
      exact Prod.ext h h'
    rcases syscallHandler_cases (b := b) e.frame m.system with ⟨same, seg⟩ | exit
    · rw [run] at same seg
      exact .inl ⟨same, cs.trans seg⟩
    · rw [← exit, run]
      exact .inr (.inl ⟨rfl, cs⟩)
  · cases handled
  · have run : (schedulerTick e.frame).run m.system = (frame, m'.system) := by
      change (some ((schedulerTick e.frame).run m.system).1,
        ((schedulerTick e.frame).run m.system).2) = _ at handled
      injection handled with h h'
      injection h with h
      exact Prod.ext h h'
    rw [run]
    exact .inr (.inr (.inl ⟨rfl, cs⟩))
  · cases command : e.run with
    | none =>
      rw [command] at handled
      exact .inl (returned handled)
    | some file =>
      rw [command] at handled
      change (((processExec l file).run m.system).1.map fun _ => e.frame,
        ((processExec l file).run m.system).2) = _ at handled
      injection handled with h h'
      obtain ⟨r, exec, rfl⟩ := Option.map_eq_some_iff.mp h
      have executed := processExec_cases exec (by simp)
      rw [h'] at executed
      exact .inr (.inr (.inr ⟨file, key, rfl, cs, executed⟩))
  · exact .inl (returned handled)

theorem saveFrame_ring {s : System} {frame : InterruptFrame} {i : Slot}
    (saved : Ring3 (s.table i).frame.cs) (ring : s.currentIndex = some i → Ring3 frame.cs) :
    Ring3 (saveFrame s frame i).frame.cs := by
  rw [saveFrame]
  cases current : s.currentIndex with
  | none => exact saved
  | some c =>
    dsimp only
    split_ifs with running
    · by_cases eq : i = c
      · rw [eq, Function.update_self]
        exact ring (by rw [current, eq])
      · rw [Function.update_of_ne eq]
        exact saved
    · exact saved

theorem Machine.Inv.user (h : m.Inv) (comes : e.Comes m) {i : Slot}
    (current : m.system.currentIndex = some i) : Ring3 e.frame.cs :=
  comes.mpr (h.current current).1

theorem Machine.Inv.stays (h : m.Inv) (comes : e.Comes m) (same : m'.system = m.system)
    (cs : m'.cs = e.frame.cs) : m'.Inv := by
  refine ⟨?_, ?_, ?_, ?_⟩
  · intro none
    rw [cs]
    exact fun ring => h.idle (same ▸ none) (comes.mp ring)
  · intro i current
    rw [same] at current ⊢
    exact ⟨cs ▸ h.user comes current, (h.current current).2⟩
  · rw [same]
    exact h.space
  · rw [same]
    exact h.frame

theorem Machine.Inv.exits (h : m.Inv) (comes : e.Comes m)
    (exit : m'.system = ((processExitFromSyscall b e.frame).run m.system).2)
    (cs : m'.cs = ((processExitFromSyscall b e.frame).run m.system).1.cs) : m'.Inv := by
  cases current : m.system.currentIndex with
  | none =>
    rw [processExit_none e.frame current] at exit cs
    exact h.stays comes exit cs
  | some c =>
    obtain ⟨exited, -, others, idle⟩ := processExit_some (b := b) e.frame current
    have kernelCode : m'.cs = 0x08 := by
      rw [cs]
      change ((processExitFromSyscall b e.frame) m.system).1.cs = _
      simp only [processExitFromSyscall, current]
    have same {i : Slot} (running : (m'.system.table i).state = .running) :
        m'.system.table i = m.system.table i := by
      rw [exit] at running ⊢
      refine others i ?_
      rintro rfl
      rw [exited] at running
      cases running
    refine ⟨?_, ?_, ?_, ?_⟩
    · intro _
      rw [kernelCode, Ring3]
      decide
    · intro i now
      rw [exit, idle] at now
      cases now
    · intro i running
      have eq := same running
      rw [eq] at running ⊢
      exact h.space running
    · intro i running
      have eq := same running
      rw [eq] at running ⊢
      exact h.frame running

theorem Machine.Inv.ticks (h : m.Inv) (comes : e.Comes m)
    (tick : m'.system = ((schedulerTick e.frame).run m.system).2)
    (cs : m'.cs = ((schedulerTick e.frame).run m.system).1.cs) : m'.Inv := by
  rcases schedulerTick_cases e.frame m.system with ⟨idle, run⟩ | ⟨next, found, run⟩
  · have current : m.system.currentIndex = none := by
      cases current : m.system.currentIndex with
      | none => rfl
      | some i =>
        obtain ⟨-, j, eq, running, -⟩ := h.current current
        exact absurd running (idle j)
    rw [run] at tick cs
    refine ⟨?_, ?_, ?_, ?_⟩
    · intro _
      rw [cs]
      exact fun ring => h.idle current (comes.mp ring)
    · intro i now
      rw [tick] at now
      cases now
    all_goals
      intro i running
      rw [tick] at running
      exact absurd ((saveFrame_state e.frame i).1.symm.trans running) (idle i)
  · rw [run] at tick cs
    have running := nextRunning_running found
    have before := (saveFrame_state e.frame next).1.symm.trans running
    have saved {i : Slot} (r : (m.system.table i).state = .running) :
        Ring3 (saveFrame m.system e.frame i).frame.cs :=
      saveFrame_ring (h.frame r) fun current => h.user comes current
    obtain ⟨p, pos, lt, cr3⟩ := h.space before
    have switch : (vmmSwitchAddressSpace (m.system.table next).cr3).run m.system.kernel =
        ((), { m.system.kernel with currentPml4 := p, cr3 := pageAddress p }) := by
      rw [cr3]
      exact vmmSwitchAddressSpace_run pos lt m.system.kernel
    rw [switch] at tick
    refine ⟨?_, ?_, ?_, ?_⟩
    · intro now
      rw [tick] at now
      cases now
    · intro i now
      rw [tick] at now ⊢
      cases now
      refine ⟨cs ▸ saved before, next, rfl, running, ?_, ?_⟩
      · exact (((saveFrame_state e.frame next).2).trans cr3).symm
      · exact (((saveFrame_state e.frame next).2).trans cr3).symm
    · intro i running
      rw [tick] at running ⊢
      have eq := saveFrame_state (s := m.system) e.frame i
      obtain ⟨q, qpos, qlt, qcr3⟩ := h.space (eq.1.symm.trans running)
      exact ⟨q, qpos, qlt, eq.2.trans qcr3⟩
    · intro i running
      rw [tick] at running ⊢
      exact saved ((saveFrame_state e.frame i).1.symm.trans running)

theorem Machine.Inv.executes (h : m.Inv) (comes : e.Comes m) {file : Option FileRead}
    (stays : m.system.currentIndex ≠ none → ¬Switches l file m.system.kernel)
    (cs : m'.cs = e.frame.cs)
    (executed : Executed m.system m'.system ((riruLoadFile l file).run m.system.kernel).2) :
    m'.Inv := by
  refine ⟨?_, ?_, ?_, ?_⟩
  · intro none
    rw [cs]
    exact fun ring => h.idle (executed.current.symm.trans none) (comes.mp ring)
  · intro i now
    have current := executed.current.symm.trans now
    obtain ⟨-, j, eq, running, cr3, pml4⟩ := h.current current
    have kept : (m'.system.kernel.currentPml4, m'.system.kernel.cr3) =
        (m.system.kernel.currentPml4, m.system.kernel.cr3) := by
      rw [executed.kernel]
      exact riruLoadFile_space (stays (by rw [current]; exact Option.some_ne_none i))
    obtain ⟨samePml4, sameCr3⟩ := Prod.mk.inj kept
    refine ⟨cs ▸ h.user comes current, j, executed.current.trans eq, ?_, ?_, ?_⟩
    all_goals rw [executed.keep running]
    · exact running
    · exact sameCr3.trans cr3
    · rw [samePml4]
      exact pml4
  · intro i running
    by_cases before : (m.system.table i).state = .running
    · rw [executed.keep before]
      exact h.space before
    · exact (executed.fresh running before).2
  · intro i running
    by_cases before : (m.system.table i).state = .running
    · rw [executed.keep before]
      exact h.frame before
    · exact (executed.fresh running before).1

theorem Machine.Inv.step (h : m.Inv) (comes : e.Comes m) (calm : e.Calm l m)
    (go : m.Step l b e m') : m'.Inv := by
  rcases go.cases with ⟨same, cs⟩ | ⟨exit, cs⟩ | ⟨tick, cs⟩ | ⟨file, key, command, cs, executed⟩
  · exact h.stays comes same cs
  · exact h.exits comes exit cs
  · exact h.ticks comes tick cs
  · refine h.executes comes (fun some => ?_) cs executed
    obtain ⟨i, current⟩ := Option.ne_none_iff_exists'.mp some
    exact calm (h.user comes current) key file command

/-- The runs of the machine in which every interrupt is that of the code that runs. -/
abbrev MachineReach (l : Layout) (b : Symbols) (start : Kernel → Prop)
    (allow : Machine → Interrupt → Prop) : Machine → Prop :=
  Reach (Machine.Start start) (fun e m m' => m.Step l b e m') fun m e => e.Comes m ∧ allow m e

theorem Machine.Start.inv {start : Kernel → Prop} (h : m.Start start) : m.Inv := by
  obtain ⟨s, -, rfl⟩ := h
  refine ⟨fun _ => ?_, fun now => ?_, fun running => ?_, fun running => ?_⟩
  · change ¬(0x08 : Word) &&& 3 = 3
    decide
  · cases now
  · cases running
  · cases running

def desktopSymbols : Symbols := ⟨0x100100, 0x101000⟩

def startKey (cs : Word) : Interrupt :=
  ⟨{ zeroFrame with intNum := 0x21, cs := cs }, some (some spinRead)⟩

def timer : Interrupt := ⟨{ zeroFrame with intNum := 0x20, cs := 0x08 }, none⟩

theorem isrHandler_key (l : Layout) (b : Symbols) {e : Interrupt} {file : Option FileRead}
    {s : System} (key : e.frame.intNum = 0x21) (command : e.run = some file) :
    (isrHandler l b e).run s = (((processExec l file).run s).1.map fun _ => e.frame,
      ((processExec l file).run s).2) := by
  rw [isrHandler, key, if_neg (by decide), if_neg (by decide), if_neg (by decide), if_pos rfl, command]
  rfl

theorem isrHandler_timer (l : Layout) (b : Symbols) {e : Interrupt} {s : System}
    (timer : e.frame.intNum = 0x20) : (isrHandler l b e).run s =
      (some ((schedulerTick e.frame).run s).1, ((schedulerTick e.frame).run s).2) := by
  rw [isrHandler, timer, if_neg (by decide), if_neg (by decide), if_pos rfl]
  rfl

theorem processExec_first {file : Option FileRead} {s : System} {result : RiruLoadResult}
    {u : ℕ} (pos : 0 < u) (lt : u < 2^52) (table : s.table = fun _ => emptyProcess)
    (loaded : (riruLoadFile l file).run s.kernel = (.loaded result, k))
    (user : k.riruUserCr3 = pageAddress u) :
    (processExec l file).run s = (some 0, { s with
      kernel := k
      table := Function.update s.table 0 ⟨s.nextPid, .running, result.entry, riruUserStackTop,
        pageAddress u, 0, initialFrame result.entry riruUserStackTop⟩
      nextPid := s.nextPid + 1 }) := by
  have ne : pageAddress u ≠ 0 := pageAddress_ne_zero pos lt
  have slot : findFreeSlot s.table = some 0 := by
    rw [table]
    rfl
  rw [processExec, system_bind, inKernel_run, loaded]
  dsimp only
  rw [system_bind, inKernel_run, show riruGetUserCr3.run k = (k.riruUserCr3, k) from rfl, user]
  dsimp only
  rw [if_neg ne, system_bind]
  have created : (processCreate result.entry riruUserStackTop (pageAddress u)).run
      { s with kernel := k } = (some 0, { s with
        kernel := k
        table := Function.update s.table 0 ⟨s.nextPid, .running, result.entry, riruUserStackTop,
          pageAddress u, 0, initialFrame result.entry riruUserStackTop⟩
        nextPid := s.nextPid + 1 }) := by
    change processCreate result.entry riruUserStackTop (pageAddress u) _ = _
    simp only [processCreate, slot]
  rw [created]
  rfl

/-- The first program runs in its own space, and there is room for another. -/
theorem desktop_dispatched : ∃ m place u, MachineReach desktopLayout desktopSymbols
    (Booted desktopLayout) (fun m e => e.Calm desktopLayout m) m ∧ Ring3 m.cs ∧
    Spaces place m.system.kernel ∧ m.system.kernel.pmm.Room 0x3212 0x4000 ∧
    m.system.currentIndex = some 0 ∧ (m.system.table 0).state = .running ∧
    (m.system.table 0).cr3 = pageAddress u ∧ u < 1048576 ∧ m.system.kernel.kernelPml4 ≠ u := by
  obtain ⟨k, booted, room, -⟩ := desktop_booted
  obtain ⟨place, spaces, -, -⟩ := booted.spaces
  obtain ⟨result, place', k', loaded, file, room'⟩ := spin_loads spaces room (by decide)
  obtain ⟨u, user, fresh, space⟩ := file.user
  have lt := space.lt
  have ne : k'.kernelPml4 ≠ u := by
    rw [file.statics.1]
    rintro rfl
    cases fresh.symm.trans spaces.root
  have kernelCode : ¬(0x08 : Word) &&& 3 = 3 := by decide
  -- the program is loaded
  have started : MachineReach desktopLayout desktopSymbols (Booted desktopLayout)
      (fun m e => e.Calm desktopLayout m) ⟨⟨k, fun _ => emptyProcess, none, 1, 0⟩, 0x08⟩ :=
    .start ⟨⟨k, fun _ => emptyProcess, none, 1, 0⟩, booted, rfl⟩
  have exec := processExec_first (s := ⟨k, fun _ => emptyProcess, none, 1, 0⟩) space.pos
    (by omega) rfl loaded user
  generalize first : (⟨1, .running, result.entry, riruUserStackTop, pageAddress u, 0,
    initialFrame result.entry riruUserStackTop⟩ : Process) = program at exec
  have run : program.state = .running ∧ program.cr3 = pageAddress u ∧ Ring3 program.frame.cs := by
    subst first
    exact ⟨rfl, rfl, show (gdtUserCode ||| 3 : Word) &&& 3 = 3 by decide⟩
  have created : MachineReach desktopLayout desktopSymbols (Booted desktopLayout)
      (fun m e => e.Calm desktopLayout m)
      ⟨⟨k', Function.update (fun _ => emptyProcess) 0 program, none, 2, 0⟩, 0x08⟩ := by
    refine started.step (i := startKey 0x08) ⟨Iff.rfl, fun ring => absurd ring kernelCode⟩ ?_
    refine ⟨(startKey 0x08).frame, ?_, rfl⟩
    rw [isrHandler_key desktopLayout desktopSymbols rfl rfl, exec]
    rfl
  -- the timer dispatches it
  obtain ⟨idle, -⟩ | ⟨next, found, tick⟩ := schedulerTick_cases timer.frame
    ⟨k', Function.update (fun _ => emptyProcess) 0 program, none, 2, 0⟩
  · refine absurd ?_ (idle 0)
    dsimp only
    rw [Function.update_self]
    exact run.1
  have slot : next = 0 := by
    by_contra other
    have running := nextRunning_running found
    rw [(saveFrame_state _ _).1] at running
    dsimp only at running
    rw [Function.update_of_ne other] at running
    cases running
  subst slot
  have saved : saveFrame ⟨k', Function.update (fun _ => emptyProcess) 0 program, none, 2, 0⟩
      timer.frame = Function.update (fun _ => emptyProcess) 0 program := rfl
  rw [saved] at tick
  dsimp only at tick
  rw [Function.update_self, run.2.1, vmmSwitchAddressSpace_run space.pos (by omega)] at tick
  have dispatched : MachineReach desktopLayout desktopSymbols (Booted desktopLayout)
      (fun m e => e.Calm desktopLayout m) ⟨⟨{ k' with currentPml4 := u, cr3 := pageAddress u },
        Function.update (fun _ => emptyProcess) 0 program, some 0, 2, 0 + 1⟩, program.frame.cs⟩ := by
    refine created.step (i := timer) ⟨Iff.rfl, fun ring => absurd ring kernelCode⟩ ?_
    refine ⟨program.frame, ?_, rfl⟩
    rw [isrHandler_timer desktopLayout desktopSymbols rfl, tick]
  have apart : Apart place' k' { k' with currentPml4 := u, cr3 := pageAddress u } :=
    ⟨fun _ _ _ => rfl, fun _ _ hp => (file.spaces.sound.used hp).1, file.spaces.sound.page0, rfl,
      rfl⟩
  refine ⟨_, place', u, dispatched, run.2.2, file.spaces.apart apart, room', rfl, ?_, ?_, lt, ne⟩
  · dsimp only
    rw [Function.update_self]
    exact run.1
  · dsimp only
    rw [Function.update_self]
    exact run.2.1

end TinyOS.Memory
