import TinyOS.Interrupts
import TinyOS.EventLogs
import TinyOS.VmmIsolation

set_option autoImplicit false

/-! What `SYS_WRITE` sends to the terminal (syscalls.c). The handler loads the bytes in ring 0,
through the tables the processor runs on. The buffers of the terminal and of the framebuffer are
no part of the memory it loads from. -/
namespace TinyOS.Memory
open RadixTables EventLogs

variable {b : Symbols} {k k' : Kernel} {s : System} {i : Slot} {frame : InterruptFrame}

/-- `PAGE_PRESENT` and `PAGE_USER` on all four levels. -/
def Kernel.userPage (k : Kernel) (cr3 va : Word) : Bool :=
  !has hugePage (k.pde cr3 va) &&
    [k.pml4e cr3 va, k.pdpte cr3 va, k.pde cr3 va, k.pte cr3 va].all fun e =>
      has pagePresent e && has pageUser e

/-- A call of `terminal_putchar`: the byte, and the address it was loaded from. -/
structure Sent where
  address : Word
  byte : BitVec 8

/-- The loop over the buffer; on `false` a page fault has stopped the machine. -/
def putBytes (buffer : Word) : List ℕ → LogM System Sent Bool
  | [] => return true
  | i :: rest => do
    let c ← silent fun s => (s.kernel.loadByte (buffer + BitVec.ofNat 64 i), s)
    match c with
    | none => return false
    | some c => do
      emit fun _ => ⟨buffer + BitVec.ofNat 64 i, c⟩
      putBytes buffer rest

/-- `syscall_handler` with the bytes it sends; `none` when a page fault stops the machine. -/
def sendingHandler (b : Symbols) (frame : InterruptFrame) :
    LogM System Sent (Option InterruptFrame) :=
  if frame.rax = sysWrite then
    if userRangeValid frame.rdi frame.rsi then do
      let sent ← putBytes frame.rdi (List.range frame.rsi.toNat)
      return if sent then some { frame with rax := frame.rsi } else none
    else return some { frame with rax := -1 }
  else silent (some <$> syscallHandler b frame)

def sent (b : Symbols) (frame : InterruptFrame) (s : System) : List Sent :=
  ((sendingHandler b frame).run (s, [])).2.2

def Kernel.loads (k : Kernel) (buffer : Word) : List ℕ → List Sent
  | [] => []
  | i :: rest =>
    match k.loadByte (buffer + BitVec.ofNat 64 i) with
    | none => []
    | some c => ⟨buffer + BitVec.ofNat 64 i, c⟩ :: k.loads buffer rest

theorem putBytes_run (buffer : Word) (l : List ℕ) (s : System) (log : List Sent) :
    ((putBytes buffer l).run (s, log)).2 = (s, log ++ s.kernel.loads buffer l) := by
  induction l generalizing log with
  | nil =>
    rw [Kernel.loads, List.append_nil]
    rfl
  | cons i rest ih =>
    rw [putBytes, log_bind, Kernel.loads]
    cases e : s.kernel.loadByte (buffer + BitVec.ofNat 64 i) with
    | none =>
      have step : ((silent fun s => (s.kernel.loadByte (buffer + BitVec.ofNat 64 i), s) :
          LogM System Sent (Option (BitVec 8))).run (s, log)) = (none, (s, log)) := by
        rw [← e]
        rfl
      rw [step, List.append_nil]
      rfl
    | some c =>
      have step : ((silent fun s => (s.kernel.loadByte (buffer + BitVec.ofNat 64 i), s) :
          LogM System Sent (Option (BitVec 8))).run (s, log)) = (some c, (s, log)) := by
        rw [← e]
        rfl
      rw [step]
      have next := ih (log ++ [⟨buffer + BitVec.ofNat 64 i, c⟩])
      rw [List.append_assoc] at next
      exact next

/-- The bytes sent are those of the range up to the first page that is absent. -/
theorem mem_loads {buffer : Word} {a n : ℕ} {e : Sent} :
    e ∈ k.loads buffer (List.range' a n) ↔ ∃ j, a ≤ j ∧ j < a+n ∧
      e.address = buffer + BitVec.ofNat 64 j ∧ k.loadByte e.address = some e.byte ∧
      ∀ m, a ≤ m → m ≤ j → k.loadByte (buffer + BitVec.ofNat 64 m) ≠ none := by
  induction n generalizing a with
  | zero =>
    constructor
    · exact fun mem => absurd mem List.not_mem_nil
    · rintro ⟨j, le, lt, -⟩
      omega
  | succ n ih =>
    rw [List.range'_succ, Kernel.loads]
    cases load : k.loadByte (buffer + BitVec.ofNat 64 a) with
    | none =>
      constructor
      · exact fun mem => absurd mem List.not_mem_nil
      · rintro ⟨j, le, -, -, -, all⟩
        exact absurd load (all a (le_refl a) le)
    | some c =>
      constructor
      · intro mem
        rcases List.mem_cons.mp mem with rfl | mem
        · refine ⟨a, le_refl a, by omega, rfl, load, fun m le ge => ?_⟩
          obtain rfl : m = a := by omega
          rw [load]
          exact Option.some_ne_none c
        · obtain ⟨j, le, lt, address, byte, all⟩ := ih.mp mem
          refine ⟨j, by omega, by omega, address, byte, fun m lm mj => ?_⟩
          rcases Nat.eq_or_lt_of_le lm with rfl | lt
          · rw [load]
            exact Option.some_ne_none c
          · exact all m lt mj
      · rintro ⟨j, le, lt, address, byte, all⟩
        rcases Nat.eq_or_lt_of_le le with rfl | lt'
        · rw [address, load] at byte
          obtain ⟨_, _⟩ := e
          dsimp only at address byte
          rw [address, Option.some.inj byte]
          exact List.mem_cons_self
        · exact List.mem_cons_of_mem _ (ih.mpr
            ⟨j, lt', by omega, address, byte, fun m lm mj => all m (by omega) mj⟩)

/-- Without its log the handler is `syscall_handler`, as long as no page fault stops it. -/
theorem sendingHandler_result (b : Symbols) (frame : InterruptFrame) (s : System) :
    ((sendingHandler b frame).run (s, [])).1 = none ∨
      (((sendingHandler b frame).run (s, [])).1, ((sendingHandler b frame).run (s, [])).2.1) =
        (some ((syscallHandler b frame).run s).1, ((syscallHandler b frame).run s).2) := by
  unfold sendingHandler
  by_cases write : frame.rax = sysWrite
  swap
  · rw [if_neg write]
    exact .inr rfl
  rw [if_pos write]
  by_cases valid : userRangeValid frame.rdi frame.rsi = true
  swap
  · rw [if_neg valid, syscallHandler, if_pos write, if_neg valid]
    exact .inr rfl
  rw [if_pos valid, log_bind]
  have state := congrArg Prod.fst
    (putBytes_run frame.rdi (List.range frame.rsi.toNat) s [])
  generalize (putBytes frame.rdi (List.range frame.rsi.toNat)).run (s, []) = r at state
  obtain ⟨done, t, log⟩ := r
  obtain rfl : t = s := state
  cases done with
  | false => exact .inl rfl
  | true =>
    rw [syscallHandler, if_pos write, if_pos valid]
    exact .inr rfl

theorem sent_eq (write : frame.rax = sysWrite) (valid : userRangeValid frame.rdi frame.rsi = true) :
    sent b frame s = s.kernel.loads frame.rdi (List.range frame.rsi.toNat) := by
  have log := congrArg Prod.snd (putBytes_run frame.rdi (List.range frame.rsi.toNat) s [])
  rw [sent, sendingHandler, if_pos write, if_pos valid]
  exact log

/-- The pages of the buffer, up to the first one that is absent, are open to the process. -/
def BufferOpen (k : Kernel) (cr3 buffer length : Word) : Prop :=
  ∀ j < length.toNat, (∀ m ≤ j, k.present k.cr3 (buffer + BitVec.ofNat 64 m) = true) →
    k.userPage cr3 (buffer + BitVec.ofNat 64 j) = true

/-- The same pages are there, and the memory differs only where the process has no access. -/
structure Alike (cr3 : Word) (k k' : Kernel) : Prop where
  active : k'.cr3 = k.cr3
  present : ∀ va, k'.present cr3 va = k.present cr3 va
  same : ∀ va, k.userPage cr3 va = true →
    k'.byteAt (getPhysicalFrom k'.memory (physicalToTable cr3) va) =
      k.byteAt (getPhysicalFrom k.memory (physicalToTable cr3) va)

theorem loadByte_ne_none {va : Word} : k.loadByte va ≠ none ↔ k.present k.cr3 va = true := by
  rw [Kernel.loadByte]
  split_ifs with there
  · exact ⟨fun _ => there, fun _ => Option.some_ne_none _⟩
  · exact ⟨fun h => absurd rfl h, fun h => absurd h there⟩

theorem Alike.loads (h : Alike k.cr3 k k') {buffer : Word} {l : List ℕ}
    (user : ∀ e ∈ k.loads buffer l, k.userPage k.cr3 e.address = true) :
    k'.loads buffer l = k.loads buffer l := by
  induction l with
  | nil => rfl
  | cons i rest ih =>
    rw [Kernel.loads, Kernel.loads]
    rw [Kernel.loads] at user
    cases load : k.loadByte (buffer + BitVec.ofNat 64 i) with
    | none =>
      have absent : k'.loadByte (buffer + BitVec.ofNat 64 i) = none := by
        by_contra there
        rw [← ne_eq, loadByte_ne_none, h.active, h.present, ← loadByte_ne_none] at there
        exact there load
      rw [absent]
    | some c =>
      rw [load] at user
      have here := user _ List.mem_cons_self
      have there : k.present k.cr3 (buffer + BitVec.ofNat 64 i) = true := by
        rw [← loadByte_ne_none, load]
        exact Option.some_ne_none c
      have same : k'.loadByte (buffer + BitVec.ofNat 64 i) = some c := by
        rw [← load, Kernel.loadByte, Kernel.loadByte, Kernel.physical, Kernel.physical, h.active,
          h.present, h.same _ here]
      rw [same]
      dsimp only
      rw [ih fun e mem => user e (List.mem_cons_of_mem _ mem)]

theorem bufferOpen_iff {cr3 : Word} (write : frame.rax = sysWrite)
    (valid : userRangeValid frame.rdi frame.rsi = true) :
    (∀ e ∈ sent b frame s, s.kernel.userPage cr3 e.address = true) ↔
      BufferOpen s.kernel cr3 frame.rdi frame.rsi := by
  rw [sent_eq write valid, List.range_eq_range']
  constructor
  · intro all j lt there
    obtain ⟨c, load⟩ := Option.ne_none_iff_exists'.mp (loadByte_ne_none.mpr (there j (le_refl j)))
    exact all ⟨_, c⟩ (mem_loads.mpr ⟨j, Nat.zero_le j, by omega, rfl, load,
      fun m _ le => loadByte_ne_none.mpr (there m le)⟩)
  · intro opened e mem
    obtain ⟨j, -, lt, address, -, all⟩ := mem_loads.mp mem
    rw [address]
    exact opened j (by omega) fun m le => loadByte_ne_none.mp (all m (Nat.zero_le m) le)

section Tables

variable {place place' : Places} {u r : ℕ} {cr3 va : Word}

theorem Sound.pde (hs : Sound place k) (hr : place r = some []) (page : physicalToTable cr3 = r)
    (first : has pagePresent (k.pml4e cr3 va) = true)
    (second : has pagePresent (k.pdpte cr3 va) = true) : has hugePage (k.pde cr3 va) = false := by
  have reach : walk child k.memory r [pml4Index va, pdptIndex va] =
      some (physicalToTable (k.pdpte cr3 va)) := by
    rw [Kernel.pml4e, page] at first
    rw [Kernel.pdpte, Kernel.pml4e, page] at second ⊢
    rw [walk, child_of_present first, Option.bind_some, walk, child_of_present second]
    rfl
  exact hs.small (hs.placed.place_walk hr (by simp) reach) (by simp)

theorem Sound.userPage (hs : Sound place k) (hr : place r = some [])
    (page : physicalToTable cr3 = r) :
    k.userPage cr3 va = grants child (has pageUser) k.memory r (path va) := by
  have entries : grants child (has pageUser) k.memory r (path va) =
      [k.pml4e cr3 va, k.pdpte cr3 va, k.pde cr3 va, k.pte cr3 va].all fun e =>
        has pagePresent e && has pageUser e := by
    rw [path, grants_cons, grants_cons, grants_cons, grants_cons, grants, ← page]
    rfl
  rw [Kernel.userPage, entries]
  by_cases there : has pagePresent (k.pml4e cr3 va) = true ∧ has pagePresent (k.pdpte cr3 va) = true
  · rw [hs.pde hr page there.1 there.2]
    rfl
  · have absent : ([k.pml4e cr3 va, k.pdpte cr3 va, k.pde cr3 va, k.pte cr3 va].all fun e =>
        has pagePresent e && has pageUser e) = false := by
      rw [Bool.eq_false_iff]
      intro all
      rw [List.all_cons, List.all_cons, Bool.and_eq_true, Bool.and_eq_true, Bool.and_eq_true,
        Bool.and_eq_true] at all
      exact there ⟨all.1.1, all.2.1.1⟩
    rw [absent, Bool.and_false]

/-- A page that is not opened is not open in any address space. -/
theorem UserSpace.closed (hs : Spaces place k) (h : UserSpace place k u) {pages : Set ℕ}
    (only : UserOnly pages k) {p : ℕ} (lt : p < 1048576) (off : p ∉ pages) :
    k.userPage (pageAddress u) (pageAddress p) = false := by
  have ult := h.lt
  rw [hs.sound.userPage h.root (physicalToTable_pageAddress (by omega))]
  exact h.shut hs only lt off

end Tables

/-- A process of the desktop in its address space, with one page opened to it. -/
theorem desktop_process : ∃ (s : System) (place : Places) (u : ℕ), Spaces place s.kernel ∧
    UserSpace place s.kernel u ∧ s.currentIndex = some 0 ∧ s.InSpace ∧ s.kernel.cr3 = pageAddress u ∧
    Opened u 0x3300 s.kernel ∧ UserOnly {0x3300} s.kernel := by
  obtain ⟨k, booted, room, -⟩ := desktop_booted
  obtain ⟨place, spaces, none, -⟩ := booted.spaces
  have low : desktopLayout.Low := ⟨by decide, by decide⟩
  obtain ⟨u, place₁, k₁, run, fresh, step, space, -, -⟩ :=
    createUserSpace_room low spaces room (by decide)
  have lt := space.lt
  have shut := (none.userOnly spaces).created spaces step space.pos lt run
  obtain ⟨place₂, k₂, -, step₂, grows, -, opened⟩ := mapUser_page (spaces.step step) space
    (show 0 < 0x3300 by decide) (by decide) (show pageWritable &&& pageMask = 0 by decide) (by decide)
  have only : UserOnly {0x3300} k₂ := UserOnly.grows
    (fun p t lt hw hu => absurd (shut lt hw hu) (Set.notMem_empty p)) (spaces.step step) step₂
    (by decide) rfl grows
  have spaces₂ := (spaces.step step).step step₂
  have apart : Apart place₂ k₂ { k₂ with currentPml4 := u, cr3 := pageAddress u } :=
    ⟨fun _ _ _ => rfl, fun _ _ hp => (spaces₂.sound.used hp).1, spaces₂.sound.page0, rfl, rfl⟩
  refine ⟨⟨{ k₂ with currentPml4 := u, cr3 := pageAddress u },
    Function.update (fun _ => emptyProcess) 0 ⟨1, .running, 0x3300000, riruUserStackTop,
      pageAddress u, 0, initialFrame 0x3300000 riruUserStackTop⟩, some 0, 2, 1⟩, place₂, u,
    spaces₂.apart apart, (space.step (spaces.step step) step₂).apart spaces₂ apart, rfl, ?_, rfl,
    ⟨opened.user, opened.writable⟩, only⟩
  refine ⟨0, rfl, ?_⟩
  dsimp only
  rw [Function.update_self]
  exact ⟨rfl, rfl, rfl⟩

end TinyOS.Memory
