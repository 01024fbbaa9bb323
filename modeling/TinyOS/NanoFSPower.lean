import TinyOS.NanoFSCrash

set_option autoImplicit false

namespace TinyOS.NanoFS
open ByteWords LibcString FaultyRuns CutRuns

variable {s : Fs} {op : FsOp}

theorem inodeWrites_length (id : UInt32) (v : Inode) (d : Disk) :
    (inodeWrites id v d).length ≤ 1 := by
  unfold inodeWrites
  split_ifs <;> simp

theorem behind_length {ε α : Type} {w : α → Disk → List SectorWrite} {d : Disk}
    (once : ∀ a, (w a d).length ≤ 1) (v : Except ε α) : (behind w v d).length ≤ 1 := by
  cases v with
  | error e => exact Nat.zero_le _
  | ok a => exact once a

theorem crashed_guarded {α : Type} {check : PowerM (Except ℤ α)} {check' : DiskM (Except ℤ α)}
    {body : α → PowerM Unit} {body' : α → DiskM Unit} {w : α → Disk → List SectorWrite}
    (hc : Reads put check check') (hb : ∀ a, Traced put (body a) (body' a) (w a))
    (once : ∀ a d, (w a d).length ≤ 1) {x : PowerM ℤ} {y : DiskM ℤ}
    (code : x = guarded 0 check body) (code' : y = guarded 0 check' body')
    (runs : (perform s.statics op : PowerM Unit) = x >>= fun _ => pure ())
    (runs' : (perform s.statics op : DiskM Unit) = y >>= fun _ => pure ())
    (result : ((perform s.statics op : DiskM Unit).run s.disk).2 = (exec op s).2.disk) (n : ℕ) :
    Crashed s op (crash s op n) := by
  have call : Traced put (guarded 0 check body) (guarded 0 check' body') _ := .guarded hc hb
  rw [← code, ← code'] at call
  have traced := call.silent
  rw [← runs, ← runs'] at traced
  exact crashed_once traced (behind_length (fun a => once a _) _) result n

theorem crashed_create (name : Option CString) (n : ℕ) :
    Crashed s (.create name) (crash s (.create name) n) := by
  cases name with
  | none => exact .before rfl
  | some name =>
    exact crashed_guarded (checkNew_reads s.dir name) (fun id => blockAlloc_reads.after fun block =>
      inodeWrite_traced id (newFile s.dir name block)) (fun _ _ => inodeWrites_length _ _ _)
      (fsCreate_guarded _ _) (fsCreate_guarded _ _) rfl rfl rfl n

theorem crashed_mkdir (name : CString) (n : ℕ) :
    Crashed s (.mkdir name) (crash s (.mkdir name) n) := by
  exact crashed_guarded (checkNew_reads s.dir name)
    (fun id => inodeWrite_traced id (newDir s.dir name)) (fun _ _ => inodeWrites_length _ _ _)
    (fsMkdir_guarded _ _) (fsMkdir_guarded _ _) rfl rfl rfl n

theorem crashed_delete (name : CString) (n : ℕ) :
    Crashed s (.delete name) (crash s (.delete name) n) := by
  exact crashed_guarded (checkFound_reads s.dir name)
    (fun id => inodeWrite_traced id Inode.zero) (fun _ _ => inodeWrites_length _ _ _)
    (fsDelete_guarded _ _) (fsDelete_guarded _ _) rfl rfl rfl n

theorem crashed_rename (old new : CString) (n : ℕ) :
    Crashed s (.rename old new) (crash s (.rename old new) n) := by
  exact crashed_guarded (checkRename_reads s.dir old new)
    (fun id => (inodeRead_reads id).after fun node => inodeWrite_traced id (node.setName new))
    (fun _ _ => inodeWrites_length _ _ _)
    (fsRename_guarded _ _ _) (fsRename_guarded _ _ _) rfl rfl rfl n

theorem crashed_reads {α : Type} {x : PowerM α} {y : DiskM α} (h : Reads put x y)
    (code : (perform s.statics op : PowerM Unit) = x >>= fun _ => pure ()) (n : ℕ) :
    Crashed s op (crash s op n) := by
  refine .before ?_
  rw [crash, code, h.silent.left_state, List.take_nil]
  rfl

theorem crashed_transfer {w : Disk → List SectorWrite}
    (h : Traced put (perform s.statics op : PowerM Unit) (perform s.statics op) w)
    (writes : w s.disk = (s.transfer op).elim [] fun tr =>
      storeTrace tr.id (s.inode tr.id) tr.data tr.size tr.slots s.disk)
    (result : ((perform s.statics op : DiskM Unit).run s.disk).2 = (exec op s).2.disk) (n : ℕ) :
    Crashed s op (crash s op n) := by
  cases busy : s.transfer op with
  | none =>
    rw [busy] at writes
    exact crashed_once h (by rw [writes]; exact Nat.zero_le _) result n
  | some tr =>
    rw [busy] at writes
    exact crashed_store h busy writes result n

theorem crashed_write (name data : Option CString) (n : ℕ) :
    Crashed s (.write name data) (crash s (.write name data) n) := by
  match name, data with
  | none, _ => exact .before rfl
  | some _, none => exact .before rfl
  | some name, some data =>
    have call : Traced put (guarded 0 (checkFile s.dir name) fun f => storeString f.1 f.2 data)
        (guarded 0 (checkFile s.dir name) fun f => storeString f.1 f.2 data) _ :=
      .guarded (checkFile_reads s.dir name) fun f => storeString_traced f.1 f.2 data
    rw [← fsWrite_guarded, ← fsWrite_guarded] at call
    have traced : Traced put (perform s.statics (.write (some name) (some data)) : PowerM Unit)
      (perform s.statics (.write (some name) (some data))) _ := call.silent
    refine crashed_transfer traced ?_ rfl n
    rw [checkFile_run]
    by_cases absent : s.disk.lookup name s.dir = 0
    · rw [if_pos absent, Fs.transfer, file_none absent]
      rfl
    by_cases file : (s.disk.inode (s.disk.lookup name s.dir)).isDirectory = 0
    · rw [if_neg absent, if_neg (not_not.mpr file), Fs.transfer,
        file_some absent (not_not.mpr file)]
      rfl
    · rw [if_neg absent, if_pos file, Fs.transfer, file_dir file]
      rfl

theorem crashed_writeBinary (name : Option CString) (data : Option Buffer) (size : UInt32) (n : ℕ) :
    Crashed s (.writeBinary name data size) (crash s (.writeBinary name data size) n) := by
  match name, data with
  | none, _ => exact .before rfl
  | some _, none => exact .before rfl
  | some name, some data =>
    have call : Traced put
        (guarded 0 (checkSized s.dir name size) fun f => storeBytes f.1 f.2 data size)
        (guarded 0 (checkSized s.dir name size) fun f => storeBytes f.1 f.2 data size) _ :=
      .guarded (checkSized_reads s.dir name size) fun f => storeBytes_traced f.1 f.2 data size
    rw [← fsWriteBinary_guarded, ← fsWriteBinary_guarded] at call
    have traced : Traced put
      (perform s.statics (.writeBinary (some name) (some data) size) : PowerM Unit)
      (perform s.statics (.writeBinary (some name) (some data) size)) _ := call.silent
    refine crashed_transfer traced ?_ rfl n
    rw [checkSized_run]
    by_cases absent : s.disk.lookup name s.dir = 0
    · rw [if_pos absent, Fs.transfer, file_none absent]
      rfl
    by_cases file : (s.disk.inode (s.disk.lookup name s.dir)).isDirectory = 0
    · rw [if_neg absent, if_neg (not_not.mpr file), Fs.transfer,
        file_some absent (not_not.mpr file), Option.bind_some]
      by_cases large : size > fsMaxBlocks*511
      · rw [if_pos large, if_pos large]
        rfl
      · have fits : size.toNat ≤ 2044 := by
          rwa [gt_iff_lt, UInt32.lt_iff_toNat_lt, maxSize_toNat, not_lt] at large
        rw [if_neg large, if_neg large]
        exact bytesTrace_eq _ _ _ fits _
    · rw [if_neg absent, if_pos file, Fs.transfer, file_dir file]
      rfl

theorem crashed_append (scratch : Buffer) (name data : Option CString) (n : ℕ) :
    Crashed s (.append scratch name data) (crash s (.append scratch name data) n) := by
  match name, data with
  | none, _ => exact .before rfl
  | some _, none => exact .before rfl
  | some name, some data =>
    have call : Traced put
        (guarded 0 (checkAppend s.dir scratch name data) fun f => storePending f.1 f.2)
        (guarded 0 (checkAppend s.dir scratch name data) fun f => storePending f.1 f.2) _ :=
      .guarded (checkAppend_reads s.dir name scratch data) fun f => storePending_traced f.1 f.2
    rw [← fsAppend_guarded, ← fsAppend_guarded] at call
    have traced : Traced put
      (perform s.statics (.append scratch (some name) (some data)) : PowerM Unit)
      (perform s.statics (.append scratch (some name) (some data))) _ := call.silent
    refine crashed_transfer traced ?_ rfl n
    rw [checkAppend_run]
    by_cases absent : s.disk.lookup name s.dir = 0
    · rw [if_pos absent, Fs.transfer, file_none absent]
      rfl
    by_cases file : (s.disk.inode (s.disk.lookup name s.dir)).isDirectory = 0
    · rw [if_neg absent, Fs.transfer, file_some absent (not_not.mpr file), Option.bind_some]
      dsimp only
      rw [if_neg (not_not.mpr file)]
      by_cases same : appendSize (s.disk.inode (s.disk.lookup name s.dir)).size data-
          (s.disk.inode (s.disk.lookup name s.dir)).size = 0
      · rw [if_pos same, if_pos same]
        rfl
      · rw [if_neg same, if_neg same]
        exact bytesTrace_eq _ _ _ (appendSize_le _ data) _
    · rw [if_neg absent, Fs.transfer, file_dir file]
      dsimp only
      rw [if_pos file]
      rfl

theorem crashed_format (n : ℕ) : Crashed s .format (crash s .format n) := by
  have traced : Traced put (perform s.statics .format : PowerM Unit) (perform s.statics .format)
    _ := fsFormat_traced.silent
  have left := traced.left_state s.disk n
  cases n with
  | zero => exact .before left
  | succ n => exact .wiped n rfl left

theorem crashed (s : Fs) (op : FsOp) (n : ℕ) : Crashed s op (crash s op n) := by
  cases op with
  | format => exact crashed_format n
  | mount => exact crashed_reads (fsMount_reads s.statics) (by rw [perform]) n
  | create name => exact crashed_create name n
  | write name data => exact crashed_write name data n
  | writeBinary name data size => exact crashed_writeBinary name data size n
  | read name buffer bufSize => exact crashed_reads (fsRead_reads s.dir name buffer bufSize) rfl n
  | append scratch name data => exact crashed_append scratch name data n
  | delete name => exact crashed_delete name n
  | rename old new => exact crashed_rename old new n
  | mkdir name => exact crashed_mkdir name n
  | changeDir name => exact crashed_reads (fsChangeDir_reads s.dir name) rfl n
  | list maxOut => exact crashed_reads (fsList_reads s.dir maxOut) rfl n
  | stat name out => exact crashed_reads (fsStat_reads s.dir name out) rfl n
  | getPwd fuel tmp => exact crashed_reads (fsGetPwd_reads s.dir fuel tmp) rfl n
  | diskStats => exact crashed_reads (fsDiskStats_reads s.statics) rfl n

end TinyOS.NanoFS
