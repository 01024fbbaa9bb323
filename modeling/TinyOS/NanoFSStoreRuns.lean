import TinyOS.NanoFSRefine

set_option autoImplicit false

namespace TinyOS.NanoFS
open ByteWords LibcString StateRuns EntryStores

variable {s : Fs} {op : FsOp}

theorem Fs.Sound.simulates (h : s.Sound) (left : NumbersLeft s) {r : Request UInt8}
    (asks : op.request = some r) : Simulates s op r := by
  cases op with
  | format =>
    cases asks
    exact simulates_format
  | mount =>
    cases asks
    exact simulates_mount
  | create name =>
    cases name with
    | none => cases asks
    | some name =>
      simp only [FsOp.request, Option.ite_none_left_eq_some, Option.some.injEq] at asks
      obtain ⟨some, rfl⟩ := asks
      exact h.simulates_create left some
  | mkdir name =>
    simp only [FsOp.request, Option.ite_none_left_eq_some, Option.some.injEq] at asks
    obtain ⟨some, rfl⟩ := asks
    exact h.simulates_mkdir left some
  | rename old new =>
    simp only [FsOp.request, Option.ite_none_left_eq_some, Option.some.injEq] at asks
    obtain ⟨some, rfl⟩ := asks
    exact h.simulates_rename left some
  | delete name =>
    cases asks
    exact h.simulates_delete left
  | write name data =>
    cases name with
    | none => cases asks
    | some name =>
      cases data with
      | none => cases asks
      | some data =>
        simp only [FsOp.request, Option.ite_none_right_eq_some, Option.some.injEq] at asks
        obtain ⟨short, rfl⟩ := asks
        exact h.simulates_write left short
  | append scratch name data =>
    cases name with
    | none => cases asks
    | some name =>
      cases data with
      | none => cases asks
      | some data =>
        simp only [FsOp.request, Option.ite_none_right_eq_some, Option.some.injEq] at asks
        obtain ⟨short, rfl⟩ := asks
        exact h.simulates_append left scratch short
  | read name buffer bufSize =>
    cases name with
    | none => cases asks
    | some name =>
      cases buffer with
      | none => cases asks
      | some buffer =>
        cases asks
        exact simulates_read buffer bufSize
  | changeDir name => exact h.simulates_changeDir asks
  | stat name out =>
    cases out with
    | none => cases asks
    | some out =>
      cases asks
      exact h.simulates_stat out
  | list maxOut =>
    simp only [FsOp.request, Option.ite_none_right_eq_some, Option.some.injEq] at asks
    obtain ⟨room, rfl⟩ := asks
    exact h.simulates_list room
  | writeBinary name data size => cases asks
  | getPwd fuel tmp => cases asks
  | diskStats => cases asks

structure Follows (s : Fs) (ops : List FsOp) (requests : List (Request UInt8)) : Prop where
  answers : s.answers ops = List.zipWith FsOp.report ops (s.view.run shape requests).1
  view : (runOps ops s).view = (s.view.run shape requests).2
  sound : (runOps ops s).Sound

theorem Fs.Sound.follows (h : s.Sound) {ops : List FsOp} {requests : List (Request UInt8)}
    (asks : ops.map FsOp.request = requests.map some)
    (room : s.disk.highest.toNat+ops.length < 4294967295) : Follows s ops requests := by
  induction ops generalizing s requests with
  | nil =>
    obtain rfl := List.map_eq_nil_iff.mp asks.symm
    exact ⟨rfl, rfl, h⟩
  | cons op ops ih =>
    obtain ⟨r, rest, rfl, first, others⟩ := List.map_eq_cons_iff.mp asks.symm
    rw [List.length_cons] at room
    have left := numbersLeft_of_lt (s := s) (by omega)
    have step := h.simulates left first.symm
    have higher := effect_highest left (exec_effect h.blocks op)
    have run := ih (h.step left (by rw [← first]; rfl)) others.symm (by omega)
    constructor
    · rw [Fs.answers, step.answer, run.answers, step.view]
      rfl
    · rw [runOps_cons, run.view, step.view]
      rfl
    · exact run.sound

theorem formatted_sound (formatted : Formatted s) : s.Sound ∧ s.disk.highest = 8 ∧
    s.view = ⟨fun _ => none, 0, true⟩ := by
  obtain ⟨table, dir⟩ := formatted_table formatted
  refine ⟨empty_sound table dir, highest_empty fun id live => ?_, empty_view table dir ?_⟩
  · rw [show s.disk.inode id = s.inode id from rfl, table] at live
    exact zero_not_live live
  · obtain ⟨sectors, st, rfl⟩ := formatted
    exact format_mounts _

/-- From `fs_format` on the calls of the shell behave as a store of named entries does, down to
the bytes that they leave in the caller's buffers. A call uses up one block number at most, and
there are 32 bits of them. -/
theorem refines_store {s : Fs} (formatted : Formatted s) {ops : List FsOp}
    {requests : List (Request UInt8)} (asks : ops.map FsOp.request = requests.map some)
    (few : ops.length < 4294967287) :
    s.answers ops =
      List.zipWith FsOp.report ops (Store.run shape ⟨fun _ => none, 0, true⟩ requests).1 ∧
    (runOps ops s).view = (Store.run shape ⟨fun _ => none, 0, true⟩ requests).2 := by
  obtain ⟨sound, highest, view⟩ := formatted_sound formatted
  have run := sound.follows asks (by rw [highest]; change 8+ops.length < _; omega)
  rw [← view]
  exact ⟨run.answers, run.view⟩

def sessionF : List FsOp :=
  [.create (some nameF), .write (some nameF) (some nameD), .append (fun _ => 0) (some nameF)
    (some nameD), .read (some nameF) (some fun _ => 0) 2048]

theorem refines_store_fresh :
    freshFs.answers sessionF = List.zipWith FsOp.report sessionF [.done, .done, .done,
      .bytes [100, 100]] ∧
    (runOps sessionF freshFs).view = (Store.run shape ⟨fun _ => none, 0, true⟩
      [.create [102], .write [102] [100], .append [102] [100], .read [102]]).2 := by
  have run := @refines_store freshFs freshFs_formatted sessionF
    [.create [102], .write [102] [100], .append [102] [100], .read [102]] (by decide) (by decide)
  have replies : (Store.run shape ⟨fun _ => none, 0, true⟩
      [.create [102], .write [102] [100], .append [102] [100], .read [102]] :
      List (Reply UInt8) × Store UInt32 UInt8).1 = [.done, .done, .done, .bytes [100, 100]] := by
    decide +kernel
  rw [replies] at run
  exact run

end TinyOS.NanoFS
