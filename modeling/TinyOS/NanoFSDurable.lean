import TinyOS.NanoFSRestart

set_option autoImplicit false

namespace TinyOS.NanoFS
open ByteWords LibcString StateRuns CutRuns EntryStores

/-- A call, or a call in which the power fails after `n` sector writes. -/
inductive FsEvent where
  | call (op : FsOp)
  | failure (op : FsOp) (n : ℕ)

def FsEvent.request : FsEvent → Option (Event (Request UInt8))
  | .call op => op.request.map .call
  | .failure op _ => op.request.map .failure

def FsEvent.report : FsEvent → Reply UInt8 → Answer
  | .call op => op.report
  | .failure _ _ => FsOp.mount.report

/-- What is answered, and the state it leaves. A power failure is followed by the start of the
kernel, which mounts the disk. -/
def Fs.happen (s : Fs) : FsEvent → Answer × Fs
  | .call op => (s.answer op, (exec op s).2)
  | .failure op n => ((boot (crash s op n)).answer .mount, (exec .mount (boot (crash s op n))).2)

def Fs.history (s : Fs) : List FsEvent → List Answer × Fs
  | [] => ([], s)
  | e :: rest =>
    let r := s.happen e
    let h := Fs.history r.2 rest
    (r.1 :: h.1, h.2)

variable {s : Fs} {name : CString} {c : List UInt8}

theorem history_cons (e : FsEvent) (rest : List FsEvent) : s.history (e :: rest) =
    ((s.happen e).1 :: ((s.happen e).2.history rest).1, ((s.happen e).2.history rest).2) := rfl

theorem happen_failure (op : FsOp) (n : ℕ) : s.happen (.failure op n) =
    ((boot (crash s op n)).answer .mount, (exec .mount (boot (crash s op n))).2) := rfl

theorem history_append (before after : List FsEvent) :
    (s.history (before ++ after)).2 = ((s.history before).2.history after).2 := by
  induction before generalizing s with
  | nil => rfl
  | cons e before ih => exact ih

structure Survives (s : Fs) (events : List FsEvent) (requests : List (Event (Request UInt8))) :
    Prop where
  sound : (s.history events).2.Sound
  mounts : (s.history events).2.disk.Mounts
  highest : (s.history events).2.disk.highest.toNat ≤ s.disk.highest.toNat+events.length
  run : ∃ replies, s.view.Runs shape 0 requests replies (s.history events).2.view ∧
    (s.history events).1 = List.zipWith FsEvent.report events replies

theorem Fs.Sound.survives (h : s.Sound) (mounts : s.disk.Mounts) {events : List FsEvent}
    {requests : List (Event (Request UInt8))} (asks : events.map FsEvent.request = requests.map some)
    (room : s.disk.highest.toNat+events.length < 4294967295) : Survives s events requests := by
  induction events generalizing s requests with
  | nil =>
    obtain rfl := List.map_eq_nil_iff.mp asks.symm
    exact ⟨h, mounts, le_rfl, [], .nil, rfl⟩
  | cons e events ih =>
    obtain ⟨q, rest, rfl, first, others⟩ := List.map_eq_cons_iff.mp asks.symm
    rw [List.length_cons] at room
    have left := numbersLeft_of_lt (s := s) (by omega)
    cases e with
    | call op =>
      obtain ⟨r, asked, rfl⟩ := Option.map_eq_some_iff.mp first.symm
      have step := h.simulates left asked
      have higher := effect_highest left (exec_effect h.blocks op)
      have kept : (exec op s).2.disk.Mounts := by
        by_cases isFormat : op = .format
        · rw [isFormat]
          exact format_mounts s
        · exact (exec_mounts left isFormat).mpr mounts
      have later := ih (h.step left (by rw [asked]; rfl)) kept others.symm (by omega)
      obtain ⟨replies, run, answers⟩ := later.run
      rw [step.view] at run
      have highest := later.highest
      refine ⟨later.sound, later.mounts, ?_, _, .call run, ?_⟩
      · rw [List.length_cons]
        exact highest.trans (by omega)
      · rw [Fs.history, Fs.happen]
        dsimp only
        rw [answers, step.answer]
        rfl
    | failure op n =>
      obtain ⟨r, asked, rfl⟩ := Option.map_eq_some_iff.mp first.symm
      have start := h.restarts left mounts asked n
      have higher := start.highest
      have kept : (exec .mount (boot (crash s op n))).2.disk.Mounts := by
        obtain ⟨total, run⟩ := boot_mount start.mounts
        rw [run]
        exact start.mounts
      have later := ih start.sound kept others.symm (by omega)
      obtain ⟨replies, run, answers⟩ := later.run
      have highest := later.highest
      have reply : (boot (crash s op n)).answer .mount = .code 1 :=
        congrArg Answer.code start.mounted
      constructor
      · rw [history_cons, happen_failure]
        exact later.sound
      · rw [history_cons, happen_failure]
        exact later.mounts
      · rw [history_cons, happen_failure, List.length_cons]
        exact highest.trans (by omega)
      · rw [history_cons, happen_failure]
        refine ⟨_, .failure start.cut run, ?_⟩
        dsimp only
        rw [answers, reply]
        rfl

/-- From `fs_format` on, with the power failing at any call and between any two of its sector
writes, every start mounts the file system, and it behaves as the store does: a call is done or
not done, but for an `fs_write` cut off behind its data, which leaves the old size over new
bytes, and an `fs_format`, which leaves some of the entries. -/
theorem failures_on_store (formatted : Formatted s) {events : List FsEvent}
    {requests : List (Event (Request UInt8))} (asks : events.map FsEvent.request = requests.map some)
    (few : events.length < 4294967287) :
    ∃ replies, Store.Runs shape 0 ⟨fun _ => none, 0, true⟩ requests replies
        (s.history events).2.view ∧
      (s.history events).1 = List.zipWith FsEvent.report events replies := by
  obtain ⟨sound, highest, view⟩ := formatted_sound formatted
  have mounts : s.disk.Mounts := by
    obtain ⟨sectors, st, rfl⟩ := formatted
    exact format_mounts _
  have run := sound.survives mounts asks (by rw [highest]; change 8+events.length < _; omega)
  rw [← view]
  exact run.run

/-- A file is made; the power fails when another one is made, and again in a write of the first
behind its data. -/
def brokenF : List FsEvent :=
  [.call (.create (some nameF)), .failure (.create (some nameD)) 1,
    .failure (.write (some nameF) (some nameD)) 1]

theorem failures_on_store_fresh :
    ∃ replies, Store.Runs shape 0 ⟨fun _ => none, 0, true⟩
        [.call (.create [102]), .failure (.create [100]), .failure (.write [102] [100])] replies
        (freshFs.history brokenF).2.view ∧
      (freshFs.history brokenF).1 = List.zipWith FsEvent.report brokenF replies :=
  failures_on_store freshFs_formatted (by decide) (by decide)

theorem keeps_reads (reads : s.ReadsAs name c) :
    s.view.Keeps shape s.dir name.chars (s.disk.lookup name s.dir) c := by
  obtain ⟨found, file⟩ := readsAs_found reads
  have first := @find_view s name
  rw [if_neg found] at first
  refine Store.keeps_found ?_ first
  rw [entry_lookup found, body_file file, ← readsAs_eq reads]
  rfl

theorem readsAs_keeps {k : UInt32} (keeps : s.view.Keeps shape s.dir name.chars k c) :
    s.ReadsAs name c := by
  have first := keeps.find rfl
  have entry := keeps.entry
  rw [find_view] at first
  split_ifs at first with absent
  cases first
  rw [entry_lookup absent] at entry
  have body := congrArg Entry.body (Option.some.inj entry)
  by_cases file : (s.inode (s.disk.lookup name s.dir)).isDirectory = 0
  · rw [body_file file] at body
    rw [← Body.file.inj body]
    exact readsAs_fileBytes absent file
  · rw [body_dir file] at body
    cases body

theorem requests_known {events : List FsEvent} (known : ∀ e ∈ events, e.request.isSome) :
    ∃ requests : List (Event (Request UInt8)),
      events.map FsEvent.request = requests.map some := by
  induction events with
  | nil => exact ⟨[], rfl⟩
  | cons e events ih =>
    obtain ⟨first, rest⟩ := List.forall_mem_cons.mp known
    obtain ⟨q, asked⟩ := Option.isSome_iff_exists.mp first
    obtain ⟨requests, same⟩ := ih rest
    exact ⟨q :: requests, by rw [List.map_cons, List.map_cons, asked, same]⟩

/-- A file outlives every later call, and every power failure in one, that does not name it. -/
theorem files_survive (formatted : Formatted s) {before after : List FsEvent}
    (known : ∀ e ∈ before ++ after, e.request.isSome)
    (few : (before ++ after).length < 4294967287)
    (spares : ∀ e ∈ after, ∀ q, e.request = some q → q.request.Spares shape name.chars)
    (reads : (s.history before).2.ReadsAs name c)
    (back : (s.history (before ++ after)).2.dir = (s.history before).2.dir) :
    (s.history (before ++ after)).2.ReadsAs name c := by
  obtain ⟨sound, highest, _⟩ := formatted_sound formatted
  have mounts : s.disk.Mounts := by
    obtain ⟨sectors, st, rfl⟩ := formatted
    exact format_mounts _
  obtain ⟨early, late⟩ := List.forall_mem_append.mp known
  obtain ⟨requests, asks⟩ := requests_known early
  obtain ⟨requests', asks'⟩ := requests_known late
  rw [List.length_append] at few
  have eight : s.disk.highest.toNat = 8 := by rw [highest]; rfl
  have first := sound.survives mounts asks (by omega)
  have bound := first.highest
  have second := first.sound.survives first.mounts asks' (by omega)
  obtain ⟨replies, run, _⟩ := second.run
  have named : ∀ q ∈ requests', q.request.Spares shape name.chars := by
    intro q mem
    have listed : some q ∈ after.map FsEvent.request := asks' ▸ List.mem_map_of_mem mem
    obtain ⟨e, there, asked⟩ := List.mem_map.mp listed
    exact spares e there q asked
  have kept := (keeps_reads reads).runs named run
  rw [history_append] at back ⊢
  rw [← back] at kept
  exact readsAs_keeps kept

theorem boot_dir (d : Disk) : (exec .mount (boot d)).2.dir = 0 := by
  rw [mount_exec]
  split_ifs <;> rfl

def otherD : FsEvent := .failure (.create (some nameD)) 1

theorem otherD_spares (q : Event (Request UInt8)) (asked : otherD.request = some q) :
    q.request.Spares shape nameF.chars := by
  obtain rfl := Option.some.inj asked
  exact ⟨by decide, by decide⟩

theorem otherD_dir (s : Fs) : (s.happen otherD).2.dir = 0 := by
  rw [otherD, happen_failure]
  dsimp only
  exact boot_dir _

theorem history_single (e : FsEvent) : (s.history [e]).2 = (s.happen e).2 := rfl

theorem withF_history : (freshFs.history [.call (.create (some nameF))]).2 = withF := rfl

theorem files_survive_withF :
    (freshFs.history ([.call (.create (some nameF))] ++ [otherD])).2.ReadsAs nameF [] := by
  refine files_survive freshFs_formatted (by decide) (by decide) ?_ ?_ ?_
  · intro e mem
    obtain rfl := List.mem_singleton.mp mem
    exact otherD_spares
  · rw [withF_history]
    exact withF_empty
  · rw [history_append, withF_history, history_single, otherD_dir]
    rfl

end TinyOS.NanoFS
