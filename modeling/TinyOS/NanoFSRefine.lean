import TinyOS.NanoFSSound

set_option autoImplicit false

namespace TinyOS.NanoFS
open ByteWords LibcString StateRuns EntryStores

/-- The call answers as the store does, and leaves what the store's step leaves. -/
structure Simulates (s : Fs) (op : FsOp) (r : Request UInt8) : Prop where
  answer : s.answer op = op.report (s.view.step shape r).1
  view : (exec op s).2.view = (s.view.step shape r).2

variable {s t : Fs} {op : FsOp} {id : UInt32} {v : Inode} {name : CString}

theorem view_update (table : ∀ j, t.inode j = if j = id then v else s.inode j)
    (bytes : ∀ j, (s.inode j).live → j ≠ id →
      t.disk.fileBytes (s.inode j) = s.disk.fileBytes (s.inode j))
    (dir : t.dir = s.dir) (mounts : t.disk.Mounts ↔ s.disk.Mounts) :
    t.view = s.view.put id (t.disk.entryOf v) := by
  have entry : (fun j => t.disk.entryOf (t.inode j)) =
      Function.update (fun j => s.disk.entryOf (s.inode j)) id (t.disk.entryOf v) := by
    funext j
    rw [table]
    by_cases here : j = id
    · rw [here, Function.update_self, if_pos rfl]
    · rw [Function.update_of_ne here, if_neg here, Disk.entryOf, Disk.entryOf, Disk.body, Disk.body]
      split_ifs with live file
      · rw [bytes j live here]
      · rfl
      · rfl
  rw [Store.put, Fs.view, Fs.view, entry, dir, decide_eq_decide.mpr mounts]

/-- The record a call works on is the only entry that changes. -/
theorem Fs.Sound.view_target (h : s.Sound) (left : NumbersLeft s) (ne : op ≠ .format)
    (target : s.target op = id)
    (table : ∀ j, (exec op s).2.inode j = if j = id then v else s.inode j)
    (dir : (exec op s).2.dir = s.dir) :
    (exec op s).2.view = s.view.put id ((exec op s).2.disk.entryOf v) :=
  view_update table (fun _ live other => h.other_bytes left ne live (target ▸ other)) dir
    (exec_mounts left ne)

theorem simulates_same {r : Request UInt8} (reply : Reply UInt8)
    (step : s.view.step shape r = (reply, s.view)) (answer : s.answer op = op.report reply)
    (same : (exec op s).2 = s) : Simulates s op r :=
  ⟨by rw [step, answer], by rw [step, same]⟩

section New

theorem newFile_entry {d : Disk} {dir block : UInt32} (some : name.chars ≠ []) :
    d.entryOf (newFile dir name block) = .some ⟨name.chars.take 27, dir, .file []⟩ := by
  rw [Disk.entryOf, if_pos ((newFile_live dir name block).mpr some), newFile_nameStr,
    body_file rfl, fileBytes_empty rfl]
  rfl

theorem newDir_entry {d : Disk} {dir : UInt32} (some : name.chars ≠ []) :
    d.entryOf (newDir dir name) = .some ⟨name.chars.take 27, dir, .dir⟩ := by
  rw [Disk.entryOf, if_pos ((newDir_live dir name).mpr some), newDir_nameStr,
    body_dir (show (1 : UInt8) ≠ 0 by decide)]
  rfl

theorem Fs.Sound.simulates_add (h : s.Sound) (left : NumbersLeft s) {r : Request UInt8}
    {body : Body UInt8} (ne : op ≠ .format) (target : s.target op = s.disk.freeInode)
    (step : s.view.step shape r = s.view.add shape name.chars body)
    (answer : s.answer op = .code (exec op s).1)
    (report : op.report .done = .code 0 ∧ op.report (.failed .taken) = .code (-1) ∧
      op.report (.failed .full) = .code (-2))
    (run : exec op s = if s.disk.lookup name s.dir ≠ 0 then (-1, s)
      else if s.disk.freeInode = 0 then (-2, s)
      else (0, { s with disk := s.disk.putInode s.disk.freeInode v }))
    (entry : ∀ d : Disk, d.entryOf v = some ⟨name.chars.take 27, s.dir, body⟩) :
    Simulates s op r := by
  obtain ⟨done, taken, full⟩ := report
  by_cases absent : s.disk.lookup name s.dir = 0
  · by_cases none : s.disk.freeInode = 0
    · have result : s.view.step shape r = (.failed .full, s.view) := by
        rw [step, Store.add, find_view, if_pos absent, vacant_view, if_pos none]
      rw [if_neg (not_not.mpr absent), if_pos none] at run
      exact ⟨by rw [answer, result, full, run], by rw [result, run]⟩
    · have result : s.view.step shape r = (.done, s.view.put s.disk.freeInode
          (some ⟨name.chars.take 27, s.dir, body⟩)) := by
        rw [step, Store.add, find_view, if_pos absent, vacant_view, if_neg none]
        rfl
      rw [if_neg (not_not.mpr absent), if_neg none] at run
      have view := h.view_target left ne target (v := v)
        (by rw [run]; exact inode_putInode _ _ (freeInode_spec none).1) (by rw [run])
      rw [entry] at view
      exact ⟨by rw [answer, result, done, run], by rw [view, result]⟩
  · have result : s.view.step shape r = (.failed .taken, s.view) := by
      rw [step, Store.add, find_view, if_neg absent]
    rw [if_pos absent] at run
    exact ⟨by rw [answer, result, taken, run], by rw [result, run]⟩

theorem Fs.Sound.simulates_create (h : s.Sound) (left : NumbersLeft s) (some : name.chars ≠ []) :
    Simulates s (.create (.some name)) (.create name.chars) :=
  h.simulates_add left (by simp) rfl rfl rfl ⟨rfl, rfl, rfl⟩
    (by
      simp only [exec, Fs.call, fsCreate_run]
      split_ifs <;> rfl)
    fun _ => newFile_entry some

theorem Fs.Sound.simulates_mkdir (h : s.Sound) (left : NumbersLeft s) (some : name.chars ≠ []) :
    Simulates s (.mkdir name) (.mkdir name.chars) :=
  h.simulates_add left (by simp) rfl rfl rfl ⟨rfl, rfl, rfl⟩
    (by
      simp only [exec, Fs.call, fsMkdir_run]
      split_ifs <;> rfl)
    fun _ => newDir_entry some

end New

theorem entry_lookup (found : s.disk.lookup name s.dir ≠ 0) :
    s.view.entry (s.disk.lookup name s.dir) =
      some ⟨name.chars, s.dir, s.disk.body (s.inode (s.disk.lookup name s.dir))⟩ := by
  obtain ⟨live, parent, same⟩ := lookup_matches found
  rw [entry_of_live live]
  change some (Entry.mk (s.disk.inode _).nameStr (s.disk.inode _).parent _) = _
  rw [parent, same]

theorem Fs.Sound.simulates_delete (h : s.Sound) (left : NumbersLeft s) :
    Simulates s (.delete name) (.delete name.chars) := by
  by_cases absent : s.disk.lookup name s.dir = 0
  · have run : exec (.delete name) s = (-1, s) := by
      simp only [exec, Fs.call, fsDelete_run]
      rw [if_pos absent]
    refine simulates_same (.failed .missing) ?_ ?_ (by rw [run])
    · rw [Store.step, find_view, if_pos absent]
    · exact congrArg (fun e : ℤ × Fs => Answer.code e.1) run
  · have step : s.view.step shape (.delete name.chars) =
        (.done, s.view.put (s.disk.lookup name s.dir) none) := by
      rw [Store.step, find_view, if_neg absent]
    constructor
    · rw [step]
      exact congrArg Answer.code (delete_ok_iff.mpr absent)
    · rw [step, h.view_target left (by simp) rfl (delete_table absent) rfl, Disk.entryOf,
        if_neg zero_not_live]
      rfl

theorem Fs.Sound.simulates_rename (h : s.Sound) (left : NumbersLeft s) {new : CString}
    (some : new.chars ≠ []) : Simulates s (.rename name new) (.rename name.chars new.chars) := by
  by_cases absent : s.disk.lookup name s.dir = 0
  · have run : exec (.rename name new) s = (-1, s) := by
      simp only [exec, Fs.call, fsRename_run]
      rw [if_pos absent]
    refine simulates_same (.failed .missing) ?_ ?_ (by rw [run])
    · rw [Store.step, find_view, if_pos absent]
    · exact congrArg (fun e : ℤ × Fs => Answer.code e.1) run
  by_cases taken : s.disk.lookup new s.dir = 0
  · have step : s.view.step shape (.rename name.chars new.chars) =
        (.done, s.view.put (s.disk.lookup name s.dir) (.some ⟨new.chars.take 27, s.dir,
          s.disk.body (s.inode (s.disk.lookup name s.dir))⟩)) := by
      rw [Store.step, find_view, if_neg absent]
      dsimp only
      rw [find_view, if_pos taken]
      dsimp only
      rw [entry_lookup absent]
      rfl
    have ok := rename_ok_iff.mpr ⟨absent, taken⟩
    have live := (lookup_matches absent).1
    have same : (exec (.rename name new) s).2.disk.body
        ((s.inode (s.disk.lookup name s.dir)).setName new) =
        s.disk.body (s.inode (s.disk.lookup name s.dir)) := by
      simp only [exec, Fs.call, fsRename_run]
      rw [if_neg absent, if_neg (not_not.mpr taken), Disk.body, Disk.body]
      refine if_congr Iff.rfl ?_ rfl
      exact congrArg Body.file (putInode_fileBytes (h.blocks _ live))
    have parent : ((s.inode (s.disk.lookup name s.dir)).setName new).parent = s.dir :=
      (lookup_matches absent).2.1
    constructor
    · rw [step]
      exact congrArg Answer.code ok
    · rw [step, h.view_target left (by simp) rfl (rename_table ok) rfl, Disk.entryOf,
        if_pos ((setName_live _ new).mpr some), setName_nameStr, same, parent]
      rfl
  · have run : exec (.rename name new) s = (-2, s) := by
      simp only [exec, Fs.call, fsRename_run]
      rw [if_neg absent, if_pos taken]
    refine simulates_same (.failed .taken) ?_ ?_ (by rw [run])
    · rw [Store.step, find_view, if_neg absent]
      dsimp only
      rw [find_view, if_neg taken]
    · exact congrArg (fun e : ℤ × Fs => Answer.code e.1) run

theorem Fs.Sound.simulates_store (h : s.Sound) (left : NumbersLeft s) {r : Request UInt8}
    {size : UInt32} {data : Buffer} {bs : List (Fin 4)} (content : List UInt8)
    (ne : op ≠ .format) (found : s.disk.lookup name s.dir ≠ 0)
    (file : (s.inode (s.disk.lookup name s.dir)).isDirectory = 0)
    (target : s.target op = s.disk.lookup name s.dir)
    (step : s.view.step shape r = (.done, s.view.put (s.disk.lookup name s.dir)
      (some ⟨name.chars, s.dir, .file content⟩)))
    (answer : s.answer op = .code (exec op s).1) (report : op.report .done = .code 0)
    (run : exec op s = (0, { s with
      disk := s.disk.store (s.disk.lookup name s.dir) data size bs }))
    (bytes : (s.disk.store (s.disk.lookup name s.dir) data size bs).fileBytes
      (s.disk.grown (s.inode (s.disk.lookup name s.dir)) size) = content) : Simulates s op r := by
  obtain ⟨live, parent, same⟩ := lookup_matches found
  have view := h.view_target left ne target
    (v := s.disk.grown (s.inode (s.disk.lookup name s.dir)) size)
    (by rw [run]; exact store_inode h.blocks live data size bs) (by rw [run])
  have entry : (exec op s).2.disk.entryOf (s.disk.grown (s.inode (s.disk.lookup name s.dir)) size) =
      some ⟨name.chars, s.dir, .file content⟩ := by
    have kept : (s.disk.grown (s.inode (s.disk.lookup name s.dir)) size).live := live
    have isFile : (s.disk.grown (s.inode (s.disk.lookup name s.dir)) size).isDirectory = 0 := file
    rw [run, Disk.entryOf, if_pos kept, grown_nameStr h.terminated, body_file isFile, bytes]
    change some (Entry.mk (s.disk.inode _).nameStr (s.disk.inode _).parent _) = _
    rw [parent, same]
  exact ⟨by rw [answer, step, report, run], by rw [step, view, entry]⟩

theorem edit_failed {f : List UInt8 → List UInt8} :
    (s.disk.lookup name s.dir = 0 →
      s.view.edit shape name.chars f = (.failed .missing, s.view)) ∧
    (s.disk.lookup name s.dir ≠ 0 → (s.inode (s.disk.lookup name s.dir)).isDirectory ≠ 0 →
      s.view.edit shape name.chars f = (.failed .isDirectory, s.view)) := by
  constructor
  · intro absent
    rw [Store.edit, find_view, if_pos absent]
  · intro found isDir
    rw [Store.edit, find_view, if_neg found]
    dsimp only
    rw [entry_lookup found, body_dir isDir]

theorem edit_file {f : List UInt8 → List UInt8} (found : s.disk.lookup name s.dir ≠ 0)
    (file : (s.inode (s.disk.lookup name s.dir)).isDirectory = 0) :
    s.view.edit shape name.chars f = (.done, s.view.put (s.disk.lookup name s.dir)
      (some ⟨name.chars, s.dir, .file ((f (s.disk.fileBytes
        (s.inode (s.disk.lookup name s.dir)))).take 2044)⟩)) := by
  rw [Store.edit, find_view, if_neg found]
  dsimp only
  rw [entry_lookup found, body_file file]
  rfl

theorem text_bytes {data : CString} :
    (List.range data.chars.length).map (text data) = data.chars := by
  refine List.ext_getElem (by rw [List.length_map, List.length_range]) fun k lt lt' => ?_
  rw [List.getElem_map, List.getElem_range, text, List.getD_eq_getElem _ _ lt']

theorem Fs.Sound.simulates_write (h : s.Sound) (left : NumbersLeft s) {data : CString}
    (short : data.chars.length < cmdMax) :
    Simulates s (.write (some name) (some data)) (.write name.chars data.chars) := by
  have short : data.chars.length < 256 := short
  by_cases absent : s.disk.lookup name s.dir = 0
  · have run : exec (.write (some name) (some data)) s = (-1, s) := by
      simp only [exec, Fs.call, fsWrite_run]
      rw [if_pos absent]
    exact simulates_same _ (edit_failed.1 absent)
      (congrArg (fun e : ℤ × Fs => Answer.code e.1) run) (by rw [run])
  by_cases file : (s.inode (s.disk.lookup name s.dir)).isDirectory = 0
  · obtain ⟨len, size⟩ := @textLen_eq data (by omega)
    have run : exec (.write (some name) (some data)) s = (0, { s with
        disk := s.disk.store (s.disk.lookup name s.dir) (text data) (textLen data)
          (textRange (textLen data)) }) := by
      simp only [exec, Fs.call, fsWrite_run]
      rw [if_neg absent, if_neg (not_not.mpr file)]
    refine h.simulates_store left data.chars (by simp) absent file rfl ?_ rfl rfl run ?_
    · rw [Store.step, edit_file absent file, List.take_of_length_le (by omega)]
    · by_cases empty : textLen data = 0
      · have none : data.chars = [] := by
          rw [size] at empty
          rw [empty] at len
          exact List.eq_nil_of_length_eq_zero len.symm
        rw [fileBytes_empty empty, none]
      · have live := (lookup_matches absent).1
        have grown := @grown_filled s.disk _ (textLen data) (h.filled _ live file)
          (by rw [size, len]; omega) (textLen_le data) (next_ne_zero left)
          fun b => next_ne_block left live b
        rw [textRange, if_neg empty, h.stored_bytes absent file grown, size, len, text_bytes]
  · have run : exec (.write (some name) (some data)) s = (-2, s) := by
      simp only [exec, Fs.call, fsWrite_run]
      rw [if_neg absent, if_pos file]
    exact simulates_same _ (edit_failed.2 absent file)
      (congrArg (fun e : ℤ × Fs => Answer.code e.1) run) (by rw [run])

theorem Fs.Sound.simulates_append (h : s.Sound) (left : NumbersLeft s) {data : CString}
    (scratch : Buffer) (short : data.chars.length < cmdMax) :
    Simulates s (.append scratch (some name) (some data)) (.append name.chars data.chars) := by
  have short : data.chars.length < 256 := short
  by_cases absent : s.disk.lookup name s.dir = 0
  · have run : exec (.append scratch (some name) (some data)) s = (-1, s) := by
      simp only [exec, Fs.call, fsAppend_run]
      rw [if_pos absent]
    exact simulates_same _ (edit_failed.1 absent)
      (congrArg (fun e : ℤ × Fs => Answer.code e.1) run) (by rw [run])
  by_cases file : (s.inode (s.disk.lookup name s.dir)).isDirectory = 0
  · have live := (lookup_matches absent).1
    have filled := h.filled _ live file
    have size := appendSize_toNat filled.fits short
    have bytes := appended_bytes (d := s.disk) filled scratch short
    have step := edit_file (f := fun bytes => bytes ++ data.chars) absent file
    by_cases full : appendSize (s.inode (s.disk.lookup name s.dir)).size data-
        (s.inode (s.disk.lookup name s.dir)).size = 0
    · have run : exec (.append scratch (some name) (some data)) s = (0, s) := by
        simp only [exec, Fs.call, fsAppend_run]
        rw [if_neg absent, if_neg (not_not.mpr file), if_pos full]
      -- nothing is written, and nothing would change
      have same : ((s.disk.fileBytes (s.inode (s.disk.lookup name s.dir))) ++ data.chars).take 2044 =
          s.disk.fileBytes (s.inode (s.disk.lookup name s.dir)) := by
        have eq := UInt32.toNat_inj.mpr (sub_eq_zero.mp full)
        have length := fileBytes_length s.disk (s.inode (s.disk.lookup name s.dir))
        rw [filled_extent filled] at length
        rw [size] at eq
        rcases Nat.eq_zero_or_pos data.chars.length with none | some
        · rw [List.length_eq_zero_iff.mp none, List.append_nil,
            List.take_of_length_le (by omega)]
        · rw [List.take_append_of_le_length (by omega), List.take_of_length_le (by omega)]
      refine simulates_same .done ?_ (congrArg (fun e : ℤ × Fs => Answer.code e.1) run)
        (by rw [run])
      rw [Store.step, step, same, ← body_file file, ← entry_lookup absent, Store.put,
        Function.update_eq_self]
    · have run : exec (.append scratch (some name) (some data)) s = (0, { s with
          disk := s.disk.store (s.disk.lookup name s.dir)
            (s.disk.appended (s.inode (s.disk.lookup name s.dir)) scratch data)
            (appendSize (s.inode (s.disk.lookup name s.dir)).size data)
            (blockRange (blocksFor
              (appendSize (s.inode (s.disk.lookup name s.dir)).size data))) }) := by
        simp only [exec, Fs.call, fsAppend_run]
        rw [if_neg absent, if_neg (not_not.mpr file), if_neg full]
      have grown := @grown_filled s.disk _ (appendSize (s.inode (s.disk.lookup name s.dir)).size data)
        filled (by rw [size]; exact (Nat.min_le_left _ _).trans (Nat.add_le_add_left (by omega) _))
        (appendSize_le _ data) (next_ne_zero left) fun b => next_ne_block left live b
      refine h.simulates_store left _ (by simp) absent file rfl step rfl rfl run ?_
      rw [h.stored_bytes absent file grown, bytes]
  · have run : exec (.append scratch (some name) (some data)) s = (-2, s) := by
      simp only [exec, Fs.call, fsAppend_run]
      rw [if_neg absent, if_pos file]
    exact simulates_same _ (edit_failed.2 absent file)
      (congrArg (fun e : ℤ × Fs => Answer.code e.1) run) (by rw [run])

theorem simulates_read (buffer : Buffer) (bufSize : UInt32) :
    Simulates s (.read (some name) (some buffer) bufSize) (.read name.chars) := by
  have same := read_unchanged (s := s) (some name) (some buffer) bufSize
  by_cases absent : s.disk.lookup name s.dir = 0
  · refine simulates_same (.failed .missing) ?_ ?_ same
    · rw [Store.step, find_view, if_pos absent]
    · simp only [Fs.answer, call_fst, fsRead_run]
      rw [if_pos absent]
      rfl
  by_cases file : (s.inode (s.disk.lookup name s.dir)).isDirectory = 0
  · refine simulates_same (.bytes
      (s.disk.fileBytes (s.inode (s.disk.lookup name s.dir)))) ?_ ?_ same
    · rw [Store.step, find_view, if_neg absent]
      dsimp only
      rw [entry_lookup absent, body_file file]
    · rw [Fs.answer, readsAs_fileBytes absent file buffer bufSize]
      rfl
  · refine simulates_same (.failed .isDirectory) ?_ ?_ same
    · rw [Store.step, find_view, if_neg absent]
      dsimp only
      rw [entry_lookup absent, body_dir file]
    · simp only [Fs.answer, call_fst, fsRead_run]
      rw [if_neg absent, if_pos file]
      rfl

/-- The record that a listing shows and the entry it stands for. -/
theorem Fs.Sound.item_eq (h : s.Sound) (live : (s.inode id).live) :
    (s.inode id).item = (s.disk.body (s.inode id)).item (s.inode id).nameStr := by
  by_cases file : (s.inode id).isDirectory = 0
  · rw [body_file file, Inode.item, Body.item, fileBytes_length,
      filled_extent (h.filled id live file), decide_eq_false (not_not.mpr file)]
  · rw [body_dir file, Inode.item, Body.item, h.sizeless id live file, decide_eq_true file]
    rfl

theorem Fs.Sound.simulates_stat (h : s.Sound) (out : Inode) :
    Simulates s (.stat name (some out)) (.stat name.chars) := by
  have same := stat_unchanged (s := s) name (some out)
  by_cases absent : s.disk.lookup name s.dir = 0
  · refine simulates_same (.failed .missing) ?_ ?_ same
    · rw [Store.step, find_view, if_pos absent]
      rfl
    · rw [Fs.answer, fsStat_stat, Fs.stat, if_pos absent]
      rfl
  · obtain ⟨live, _, called⟩ := lookup_matches absent
    refine simulates_same (.item (s.inode (s.disk.lookup name s.dir)).item) ?_ ?_ same
    · rw [Store.step, find_view, if_neg absent, Option.bind_some, entry_lookup absent]
      dsimp only
      rw [h.item_eq live, Entry.item]
      exact congrArg (fun n => (Reply.item (Body.item n _), s.view)) called.symm
    · rw [Fs.answer, fsStat_stat, Fs.stat, if_neg absent]
      rfl

theorem fsListFrom_run (dir : UInt32) (d : Disk) {ids : List UInt32} {room : ℕ}
    (enough : ids.length ≤ room) : (fsListFrom dir ids room : DiskM (List Inode)).run d =
      ((ids.map d.inode).filter fun v => decide (v.live ∧ v.parent = dir), d) := by
  induction ids generalizing room with
  | nil => rfl
  | cons id ids ih =>
    cases room with
    | zero => simp at enough
    | succ room =>
      have rest : ids.length ≤ room := Nat.le_of_succ_le_succ enough
      rw [fsListFrom, bind_run, inodeRead_run, List.map_cons]
      dsimp only
      rw [ite_run, ite_run]
      by_cases dead : (d.inode id).name 0 = 0
      · rw [if_pos dead, ih (Nat.le_succ_of_le rest), List.filter_cons_of_neg]
        simp [Inode.live, dead]
      rw [if_neg dead]
      by_cases here : (d.inode id).parent = dir
      · rw [if_neg (not_not.mpr here), bind_run, ih rest, pure_run, List.filter_cons_of_pos]
        simpa [Inode.live, here] using dead
      · rw [if_pos here, ih (Nat.le_succ_of_le rest), List.filter_cons_of_neg]
        simp [here]

/-- The entries of a directory, as they stand in the table. -/
theorem Fs.Sound.items_eq (h : s.Sound) (ids : List UInt32) :
    ((ids.map s.inode).filter fun v => decide (v.live ∧ v.parent = s.dir)).map Inode.item =
      (ids.filterMap fun k => (s.view.entry k).filter fun e => e.parent = s.view.dir).map
        Entry.item := by
  induction ids with
  | nil => rfl
  | cons id ids ih =>
    rw [List.map_cons]
    by_cases live : (s.inode id).live
    · by_cases here : (s.inode id).parent = s.dir
      · rw [List.filter_cons_of_pos (by simp [live, here]), List.map_cons, ih,
          List.filterMap_cons_some (b := ⟨(s.inode id).nameStr, (s.inode id).parent,
            s.disk.body (s.inode id)⟩), List.map_cons, h.item_eq live]
        · rfl
        · rw [entry_of_live live]
          exact Option.filter_some_pos (decide_eq_true here)
      · rw [List.filter_cons_of_neg (by simp [here]), List.filterMap_cons_none, ih]
        rw [entry_of_live live]
        exact Option.filter_some_neg (decide_eq_false here)
    · rw [List.filter_cons_of_neg (by simp [live]), List.filterMap_cons_none, ih]
      rw [entry_of_dead live]
      rfl

theorem Fs.Sound.simulates_list (h : s.Sound) {maxOut : ℕ} (room : 72 ≤ maxOut) :
    Simulates s (.list maxOut) .list := by
  have ids : inodeIds.length ≤ maxOut := by simpa [inodeIds] using room
  refine simulates_same _ rfl ?_ ?_
  · rw [Fs.answer, call_fst, fsList, fsListFrom_run s.dir s.disk ids]
    exact congrArg Answer.list (h.items_eq inodeIds)
  · simp only [exec, call_readOnly s (fsList_readOnly s.dir maxOut)]

theorem changeDir_run (s : Fs) (name : CString) : exec (.changeDir name) s =
    let r := (fsChangeDir s.dir name : DiskM (ℤ × UInt32)).run s.disk
    (r.1.1, ⟨r.2, { s.statics with currentDir := r.1.2 }⟩) := rfl

theorem moved_view (st : Statics) :
    (Fs.mk s.disk st).view = { s.view with dir := st.currentDir } := by
  rw [Fs.view, Fs.view]

theorem stayed_view (s : Fs) : s.view = { s.view with dir := s.dir } := moved_view s.statics

theorem view_valid : s.view.valid = decide s.disk.Mounts := by rw [Fs.view]

/-- A call of `fs_change_dir` and the step of the store that goes to the same directory. -/
theorem simulates_moved {r : Request UInt8} {code : ℤ} {dir : UInt32} {reply : Reply UInt8}
    (run : exec (.changeDir name) s = (code, ⟨s.disk, { s.statics with currentDir := dir }⟩))
    (step : s.view.step shape r = (reply, { s.view with dir := dir }))
    (answer : .code code = FsOp.report (.changeDir name) reply) :
    Simulates s (.changeDir name) r := by
  have given : s.answer (.changeDir name) = .code code :=
    congrArg (fun e : ℤ × Fs => Answer.code e.1) run
  constructor
  · rw [step, given, answer]
  · rw [run, step]
    exact moved_view _

theorem Fs.Sound.step_up (h : s.Sound) : s.view.step shape .up =
    (.done, { s.view with dir := if s.dir ≠ 0 then (s.inode s.dir).parent else s.dir }) := by
  rw [Store.step, show s.view.dir = s.dir from rfl]
  by_cases root : s.dir = 0
  · have none : s.view.entry s.dir = none := by
      rw [root]
      exact entry_of_dead zero_not_live
    rw [none, if_neg (not_not.mpr root)]
    exact congrArg (Prod.mk Reply.done) (stayed_view s)
  · obtain ⟨l, ancestors⟩ := h.ancestors
    rw [entry_of_live (ancestors.dir_isDir root).1, if_pos root]

theorem step_enter (s : Fs) (name : CString) : s.view.step shape (.enter name.chars) =
    if s.disk.lookup name s.dir = 0 then (.failed .missing, s.view)
    else if (s.inode (s.disk.lookup name s.dir)).isDirectory = 0 then
      (.failed .notDirectory, s.view)
    else (.done, { s.view with dir := s.disk.lookup name s.dir }) := by
  rw [Store.step, find_view]
  split_ifs with absent file
  · rfl
  · dsimp only
    rw [entry_lookup absent, body_file file]
  · dsimp only
    rw [entry_lookup absent, body_dir file]

theorem Fs.Sound.simulates_changeDir (h : s.Sound) {r : Request UInt8}
    (asks : (FsOp.changeDir name).request = some r) : Simulates s (.changeDir name) r := by
  have run := changeDir_run s name
  rw [fsChangeDir_run] at run
  rw [FsOp.request] at asks
  by_cases top : name.chars = [47]
  · rw [if_pos top] at run asks
    cases asks
    exact simulates_moved run rfl rfl
  rw [if_neg top] at run asks
  by_cases up : name.chars = [46, 46]
  · rw [if_pos up] at run asks
    cases asks
    refine simulates_moved ?_ h.step_up rfl
    rw [run]
    split_ifs
    · rfl
    · rfl
  rw [if_neg up] at run asks
  by_cases stay : name.chars = [46]
  · rw [if_pos stay] at run asks
    cases asks
    exact simulates_moved run (congrArg (Prod.mk Reply.done) (stayed_view s)) rfl
  rw [if_neg stay] at run asks
  cases asks
  have step := step_enter s name
  split_ifs at run step with absent file
  · exact simulates_moved run (step.trans (congrArg (Prod.mk _) (stayed_view s))) rfl
  · exact simulates_moved run (step.trans (congrArg (Prod.mk _) (stayed_view s))) rfl
  · exact simulates_moved run step rfl

theorem mount_exec (s : Fs) : exec .mount s = if s.disk.Mounts
    then (1, ⟨s.disk, ⟨0, (Superblock.ofSector (s.disk.sectors 0)).totalSectors⟩⟩) else (0, s) := by
  rw [exec, fsMount, bind_run, ataReadSector_run]
  dsimp only
  rw [if_neg (not_not.mpr rfl)]
  by_cases magic : strcmp (List.ofFn (s.disk.sectors 0)) fsMagic = 0
  · rw [if_neg (not_not.mpr magic)]
    by_cases version : (Superblock.ofSector (s.disk.sectors 0)).version = fsVersion
    · rw [if_neg (not_not.mpr version), if_pos ⟨magic, version⟩, pure_run]
    · rw [if_pos version, if_neg fun mounts => version mounts.2, pure_run]
  · rw [if_pos magic, if_neg fun mounts => magic mounts.1, pure_run]

theorem simulates_mount : Simulates s .mount .mount := by
  have run := mount_exec s
  by_cases mounts : s.disk.Mounts
  · rw [if_pos mounts] at run
    have step : s.view.step shape .mount = (.done, { s.view with dir := 0 }) := by
      rw [Store.step, if_pos (view_valid.trans (decide_eq_true mounts))]
      rfl
    exact ⟨by rw [step]; exact congrArg (fun e : ℤ × Fs => Answer.code e.1) run,
      by rw [step, run, moved_view]⟩
  · rw [if_neg mounts] at run
    have step : s.view.step shape .mount = (.failed .invalid, s.view) := by
      rw [Store.step, if_neg (by rw [view_valid, decide_eq_true_iff]; exact mounts)]
    exact simulates_same _ step (congrArg (fun e : ℤ × Fs => Answer.code e.1) run) (by rw [run])

theorem freshSuperblock_magic : cstr (List.ofFn freshSuperblock.sector) = fsMagic := by
  have front : (List.ofFn freshSuperblock.sector).take 8 = fsMagic++[0] := by
    apply List.ext_getElem
    · rw [List.length_take, List.length_ofFn]
      rfl
    · intro i lt lt'
      have small : i < 8 := lt'
      rw [List.getElem_take, List.getElem_ofFn]
      interval_cases i <;> rfl
  have split := List.take_append_drop 8 (List.ofFn freshSuperblock.sector)
  rw [front] at split
  rw [← split, cstr_append_of_mem (by decide)]
  rfl

theorem freshSuperblock_version :
    (Superblock.ofSector freshSuperblock.sector).version = fsVersion := by
  refine wordAt_wordByte _ _ _ fun i lt => ?_
  rw [cell_of_lt _ (show 8+i < 512 by omega)]
  interval_cases i <;> rfl

theorem format_mounts (s : Fs) : (exec .format s).2.disk.Mounts := by
  have sector : (exec .format s).2.disk.sectors 0 = freshSuperblock.sector := by
    simp only [exec, fsFormat_run]
    rfl
  rw [Disk.Mounts, sector, strcmp_eq_zero, freshSuperblock_magic]
  exact ⟨rfl, freshSuperblock_version⟩

theorem empty_view (table : ∀ j, s.inode j = Inode.zero) (dir : s.dir = 0)
    (mounts : s.disk.Mounts) : s.view = ⟨fun _ => none, 0, true⟩ := by
  have entry : (fun id => s.disk.entryOf (s.inode id)) = fun _ => none := by
    funext id
    rw [table, Disk.entryOf, if_neg zero_not_live]
  rw [Fs.view, entry, dir, decide_eq_true mounts]

theorem simulates_format : Simulates s .format .format := by
  obtain ⟨table, dir⟩ := format_table s
  exact ⟨rfl, empty_view table dir (format_mounts s)⟩

end TinyOS.NanoFS
