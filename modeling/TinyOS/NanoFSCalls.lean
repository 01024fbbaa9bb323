import TinyOS.NanoFSEffect

set_option autoImplicit false

namespace TinyOS.NanoFS
open ByteWords LibcString StateRuns

def runOps (ops : List FsOp) (s : Fs) : Fs := ops.foldl (fun s op => (exec op s).2) s

@[simp] theorem runOps_nil (s : Fs) : runOps [] s = s := rfl

@[simp] theorem runOps_cons (op : FsOp) (ops : List FsOp) (s : Fs) :
    runOps (op :: ops) s = runOps ops (exec op s).2 := rfl

theorem runOps_append (ops ops' : List FsOp) (s : Fs) :
    runOps (ops++ops') s = runOps ops' (runOps ops s) := List.foldl_append

theorem reachable_runOps {s : Fs} (h : Reachable anyCall s) (ops : List FsOp) :
    Reachable anyCall (runOps ops s) := by
  induction ops generalizing s with
  | nil => exact h
  | cons op ops ih => exact ih (.step h trivial rfl)

/-- A zeroed disk right after `fs_format`. -/
def freshFs : Fs := (exec .format ⟨⟨fun _ => emptySector, []⟩, ⟨0, 131072⟩⟩).2

theorem freshFs_formatted : Formatted freshFs := ⟨_, _, rfl⟩

theorem freshFs_reachable {allow : Fs → FsOp → Prop} : Reachable allow freshFs :=
  .start freshFs_formatted

@[simp] theorem freshFs_inode (j : UInt32) : freshFs.inode j = Inode.zero :=
  (formatted_table freshFs_formatted).1 j

@[simp] theorem freshFs_dir : freshFs.dir = 0 := (formatted_table freshFs_formatted).2

def nameD : CString := ⟨[100], by decide⟩
def nameF : CString := ⟨[102], by decide⟩
def nameUp : CString := ⟨[46, 46], by decide⟩

theorem freeInode_ne_zero {d : Disk} :
    d.freeInode ≠ 0 ↔ ∃ id ∈ inodeIds, ¬(d.inode id).live := by
  constructor
  · intro h
    exact ⟨_, freeInode_spec h⟩
  · rintro ⟨id, hid, hd⟩
    unfold Disk.freeInode
    cases hf : inodeIds.find? fun id => decide ((d.inode id).name 0 = 0) with
    | none =>
      have hn := List.find?_eq_none.mp hf id hid
      exact absurd (by simpa [Inode.live] using hd) hn
    | some j => exact inodeIds_ne_zero (List.mem_of_find?_eq_some hf)

/-- A name that only one entry bears is found at that entry. -/
theorem lookup_unique {d : Disk} {name : CString} {dir id : UInt32}
    (h : (d.inode id).Matches name dir) (only : ∀ j, (d.inode j).Matches name dir → j = id) :
    d.lookup name dir = id := by
  by_cases h0 : d.lookup name dir = 0
  · exact absurd h (lookup_eq_zero.mp h0 id)
  · exact only _ (lookup_matches h0)

theorem find?_first {α : Type*} {r : α → α → Prop} {p : α → Bool} {l : List α} {a b : α}
    (sorted : l.Pairwise r) (h : l.find? p = some a) (hb : b ∈ l) (hp : p b = true) :
    b = a ∨ r a b := by
  induction l with
  | nil => simp at h
  | cons c l ih =>
    obtain ⟨above, sorted⟩ := List.pairwise_cons.mp sorted
    rw [List.find?_cons] at h
    cases hc : p c with
    | true =>
      rw [hc] at h
      cases h
      rcases List.mem_cons.mp hb with rfl | hb
      · exact .inl rfl
      · exact .inr (above b hb)
    | false =>
      rw [hc] at h
      rcases List.mem_cons.mp hb with rfl | hb
      · rw [hc] at hp
        contradiction
      · exact ih sorted h hb

theorem inodeIds_sorted : inodeIds.Pairwise (· < ·) := by decide

/-- Among the entries of one name the scan finds the first. -/
theorem lookup_first {d : Disk} {name : CString} {dir id : UInt32}
    (h : (d.inode id).Matches name dir) (first : ∀ j < id, ¬(d.inode j).Matches name dir) :
    d.lookup name dir = id := by
  obtain ⟨as, bs, split⟩ := List.mem_iff_append.mp (live_mem h.1)
  have sorted := inodeIds_sorted
  rw [split, List.pairwise_append] at sorted
  have found : (inodeIds.find? fun j => decide ((d.inode j).Matches name dir)) = some id := by
    rw [List.find?_eq_some_iff_append]
    refine ⟨decide_eq_true h, as, bs, split, fun j mem => ?_⟩
    have before : j < id := sorted.2.2 j mem id (List.mem_cons_self ..)
    simpa using first j before
  rw [Disk.lookup, found, Option.getD_some]

theorem lookup_least {d : Disk} {name : CString} {dir j : UInt32} (found : d.lookup name dir ≠ 0)
    (before : j < d.lookup name dir) : ¬(d.inode j).Matches name dir := by
  intro h
  unfold Disk.lookup at found before
  cases hf : inodeIds.find? fun id => decide ((d.inode id).Matches name dir) with
  | none => simp [hf] at found
  | some id =>
    rw [hf, Option.getD_some] at before
    rcases find?_first inodeIds_sorted hf (live_mem h.1) (by simpa using h) with same | after
    · rw [same] at before
      exact UInt32.lt_irrefl _ before
    · exact UInt32.lt_irrefl _ (UInt32.lt_trans before after)

/-- The scans of `lookup` and `inode_alloc` over a table given as a function. -/
def scanName (table : UInt32 → Inode) (name : CString) (dir : UInt32) : UInt32 :=
  (inodeIds.find? fun id => decide ((table id).Matches name dir)).getD 0

def scanFree (table : UInt32 → Inode) : UInt32 :=
  (inodeIds.find? fun id => decide ((table id).name 0 = 0)).getD 0

theorem lookup_scan {s : Fs} {table : UInt32 → Inode} (h : ∀ j, s.inode j = table j)
    (name : CString) (dir : UInt32) : s.disk.lookup name dir = scanName table name dir := by
  obtain rfl : s.inode = table := funext h
  rfl

theorem freeInode_scan {s : Fs} {table : UInt32 → Inode} (h : ∀ j, s.inode j = table j) :
    s.disk.freeInode = scanFree table := by
  obtain rfl : s.inode = table := funext h
  rfl

section Calls

variable {s : Fs} {name new : CString}

theorem create_ok_iff : (exec (.create (some name)) s).1 = 0 ↔
    s.disk.lookup name s.dir = 0 ∧ s.disk.freeInode ≠ 0 := by
  simp only [exec, Fs.call, fsCreate_run]
  split_ifs with h1 h2
  · simp [h1]
  · simp [h2]
  · simpa [h2] using h1

theorem mkdir_ok_iff : (exec (.mkdir name) s).1 = 0 ↔
    s.disk.lookup name s.dir = 0 ∧ s.disk.freeInode ≠ 0 := by
  simp only [exec, Fs.call, fsMkdir_run]
  split_ifs with h1 h2
  · simp [h1]
  · simp [h2]
  · simpa [h2] using h1

theorem delete_ok_iff : (exec (.delete name) s).1 = 0 ↔ s.disk.lookup name s.dir ≠ 0 := by
  simp only [exec, Fs.call, fsDelete_run]
  split_ifs with h1 <;> simp [h1]

theorem rename_ok_iff : (exec (.rename name new) s).1 = 0 ↔
    s.disk.lookup name s.dir ≠ 0 ∧ s.disk.lookup new s.dir = 0 := by
  simp only [exec, Fs.call, fsRename_run]
  split_ifs with h1 h2
  · simp [h1]
  · simp [h2]
  · simpa [h1] using h2

theorem create_fails (h : (exec (.create (some name)) s).1 ≠ 0) :
    (exec (.create (some name)) s).2 = s := by
  simp only [exec, Fs.call, fsCreate_run] at h ⊢
  split_ifs at h ⊢
  · rfl
  · rfl
  · exact absurd rfl h

theorem mkdir_fails (h : (exec (.mkdir name) s).1 ≠ 0) : (exec (.mkdir name) s).2 = s := by
  simp only [exec, Fs.call, fsMkdir_run] at h ⊢
  split_ifs at h ⊢
  · rfl
  · rfl
  · exact absurd rfl h

theorem delete_fails (h : (exec (.delete name) s).1 ≠ 0) : (exec (.delete name) s).2 = s := by
  simp only [exec, Fs.call, fsDelete_run] at h ⊢
  split_ifs at h ⊢
  · rfl
  · exact absurd rfl h

theorem rename_fails (h : (exec (.rename name new) s).1 ≠ 0) :
    (exec (.rename name new) s).2 = s := by
  simp only [exec, Fs.call, fsRename_run] at h ⊢
  split_ifs at h ⊢
  · rfl
  · rfl
  · exact absurd rfl h

theorem create_table (h : (exec (.create (some name)) s).1 = 0) (j : UInt32) :
    (exec (.create (some name)) s).2.inode j = if j = s.disk.freeInode
      then newFile s.dir name (s.disk.highest+1) else s.inode j := by
  obtain ⟨h1, h2⟩ := create_ok_iff.mp h
  simp only [exec, Fs.call, fsCreate_run, h1, h2, ne_eq, not_true_eq_false, ↓reduceIte]
  exact inode_putInode _ _ (freeInode_spec h2).1 j

theorem mkdir_table (h : (exec (.mkdir name) s).1 = 0) (j : UInt32) :
    (exec (.mkdir name) s).2.inode j =
      if j = s.disk.freeInode then newDir s.dir name else s.inode j := by
  obtain ⟨h1, h2⟩ := mkdir_ok_iff.mp h
  simp only [exec, Fs.call, fsMkdir_run, h1, h2, ne_eq, not_true_eq_false, ↓reduceIte]
  exact inode_putInode _ _ (freeInode_spec h2).1 j

theorem delete_table (h : s.disk.lookup name s.dir ≠ 0) (j : UInt32) :
    (exec (.delete name) s).2.inode j =
      if j = s.disk.lookup name s.dir then Inode.zero else s.inode j := by
  simp only [exec, Fs.call, fsDelete_run, h, ↓reduceIte]
  exact inode_putInode _ _ (live_mem (lookup_matches h).1) j

theorem rename_table (h : (exec (.rename name new) s).1 = 0) (j : UInt32) :
    (exec (.rename name new) s).2.inode j = if j = s.disk.lookup name s.dir
      then (s.inode (s.disk.lookup name s.dir)).setName new else s.inode j := by
  obtain ⟨h1, h2⟩ := rename_ok_iff.mp h
  simp only [exec, Fs.call, fsRename_run, h1, h2, ne_eq, not_true_eq_false, ↓reduceIte]
  exact inode_putInode _ _ (live_mem (lookup_matches h1).1) j

theorem highest_empty {d : Disk} (h : ∀ id, ¬(d.inode id).live) : d.highest = 8 := by
  refine UInt32.le_antisymm ?_ (eight_le_highest d)
  exact (highest_le _ _).mpr ⟨UInt32.le_refl _, fun id hl => absurd hl (h id)⟩

@[simp] theorem create_dir (n : Option CString) : (exec (.create n) s).2.dir = s.dir := rfl

@[simp] theorem mkdir_dir : (exec (.mkdir name) s).2.dir = s.dir := rfl

@[simp] theorem delete_dir : (exec (.delete name) s).2.dir = s.dir := rfl

@[simp] theorem rename_dir : (exec (.rename name new) s).2.dir = s.dir := rfl

@[simp] theorem changeDir_inode (j : UInt32) : (exec (.changeDir name) s).2.inode j = s.inode j := by
  simp only [exec, fsChangeDir_run]
  split_ifs <;> rfl

/-- Names that `fs_change_dir` looks up. -/
def PlainName (name : CString) : Prop :=
  name.chars ≠ [47] ∧ name.chars ≠ [46, 46] ∧ name.chars ≠ [46]

instance (name : CString) : Decidable (PlainName name) := inferInstanceAs (Decidable (_ ∧ _))

theorem changeDir_enter (plain : PlainName name) (found : s.disk.lookup name s.dir ≠ 0)
    (isDir : (s.inode (s.disk.lookup name s.dir)).isDirectory ≠ 0) :
    (exec (.changeDir name) s).2.dir = s.disk.lookup name s.dir := by
  simp only [exec, fsChangeDir_run, plain.1, plain.2.1, plain.2.2, found, isDir, ↓reduceIte]

theorem changeDir_up (up : name.chars = [46, 46]) (ne : s.dir ≠ 0) :
    (exec (.changeDir name) s).2.dir = (s.inode s.dir).parent := by
  have h47 : ¬(([46, 46] : List UInt8) = [47]) := by decide
  simp only [exec, fsChangeDir_run, up, h47, ne, ne_eq, not_false_eq_true, ↓reduceIte]

end Calls

def withF : Fs := (exec (.create (some nameF)) freshFs).2

theorem withF_inode (j : UInt32) :
    withF.inode j = if j = 1 then newFile 0 nameF 9 else Inode.zero := by
  have ok : (exec (.create (some nameF)) freshFs).1 = 0 := by
    rw [create_ok_iff, lookup_scan freshFs_inode, freeInode_scan freshFs_inode, freshFs_dir]
    decide +kernel
  have free : scanFree (fun _ => Inode.zero) = 1 := by decide +kernel
  have high : freshFs.disk.highest = 8 :=
    highest_empty fun id => by
      rw [show freshFs.disk.inode id = _ from freshFs_inode id]
      exact zero_not_live
  rw [withF, create_table ok, freeInode_scan freshFs_inode, free, high, freshFs_inode, freshFs_dir]
  rfl

@[simp] theorem withF_dir : withF.dir = 0 := freshFs_dir

theorem withF_lookup : withF.disk.lookup nameF withF.dir = 1 := by
  rw [lookup_scan withF_inode, withF_dir]
  decide +kernel

theorem withF_stat : withF.stat nameF = some (newFile 0 nameF 9) := by
  rw [Fs.stat, withF_lookup, if_neg (by decide), withF_inode]
  rfl

theorem withF_reachable : Reachable anyCall withF := .step freshFs_reachable trivial rfl

section Failures

variable {s : Fs}

theorem read_unchanged (name : Option CString) (buffer : Option Buffer) (bufSize : UInt32) :
    (exec (.read name buffer bufSize) s).2 = s :=
  call_readOnly s (fsRead_readOnly s.dir name buffer bufSize)

theorem stat_unchanged (name : CString) (out : Option Inode) : (exec (.stat name out) s).2 = s :=
  call_readOnly s (fsStat_readOnly s.dir name out)

theorem changeDir_fails {name : CString} (h : (exec (.changeDir name) s).1 < 0) :
    (exec (.changeDir name) s).2 = s := by
  simp only [exec, fsChangeDir_run] at h ⊢
  split_ifs at h ⊢
  · exact absurd h (lt_irrefl 0)
  · exact absurd h (lt_irrefl 0)
  · exact absurd h (lt_irrefl 0)
  · exact absurd h (lt_irrefl 0)
  · rfl
  · rfl
  · exact absurd h (lt_irrefl 0)

theorem mount_not_negative (s : Fs) : ¬(exec .mount s).1 < 0 := by
  have mounted : ¬(1 : ℤ) < 0 := by decide
  simp only [exec, fsMount, bind_run, ite_run, pure_run]
  split_ifs
  · exact lt_irrefl 0
  · exact lt_irrefl 0
  · exact lt_irrefl 0
  · exact mounted

/-- A call that returns a negative code leaves the disk and the static variables as they were. -/
theorem negative_unchanged (op : FsOp) (s : Fs) (h : (exec op s).1 < 0) : (exec op s).2 = s := by
  cases op with
  | format => exact absurd h (lt_irrefl 0)
  | mount => exact absurd h (mount_not_negative s)
  | create name =>
    cases name with
    | none => rfl
    | some name => exact create_fails h.ne
  | write name data => exact (exec_written (.write name data) trivial).fails h
  | writeBinary name data size => exact (exec_written (.writeBinary name data size) trivial).fails h
  | read name buffer bufSize => exact read_unchanged name buffer bufSize
  | append scratch name data => exact (exec_written (.append scratch name data) trivial).fails h
  | delete name => exact delete_fails h.ne
  | rename oldName newName => exact rename_fails h.ne
  | mkdir name => exact mkdir_fails h.ne
  | changeDir name => exact changeDir_fails h
  | list maxOut => exact absurd h (not_lt.mpr (Int.natCast_nonneg _))
  | stat name out => exact stat_unchanged name out
  | getPwd fuel tmp => exact absurd h (lt_irrefl 0)
  | diskStats => exact absurd h (lt_irrefl 0)

theorem negative_unchanged_rename : (exec (.rename nameF nameF) withF).1 = -2 ∧
    (exec (.rename nameF nameF) withF).2 = withF := by
  have result : (exec (.rename nameF nameF) withF).1 = -2 := by
    simp only [exec, Fs.call, fsRename_run, withF_lookup]
    rfl
  exact ⟨result, negative_unchanged _ _ (by rw [result]; decide)⟩

end Failures

end TinyOS.NanoFS
