import TinyOS.NanoFSOps

set_option autoImplicit false

/-! NanoFS as a machine: the disk and the static variables, every call of fs.c as
a step, and what one step can do to the inode table. -/
namespace TinyOS.NanoFS
open ByteWords LibcString StateRuns

structure Fs where
  disk : Disk
  statics : Statics

abbrev Fs.dir (s : Fs) : UInt32 := s.statics.currentDir

abbrev Fs.inode (s : Fs) (id : UInt32) : Inode := s.disk.inode id

inductive FsOp where
  | format
  | mount
  | create (name : Option CString)
  | write (name data : Option CString)
  | writeBinary (name : Option CString) (data : Option Buffer) (size : UInt32)
  | read (name : Option CString) (buffer : Option Buffer) (bufSize : UInt32)
  | append (scratch : Buffer) (name data : Option CString)
  | delete (name : CString)
  | rename (oldName newName : CString)
  | mkdir (name : CString)
  | changeDir (name : CString)
  | list (maxOut : ℕ)
  | stat (name : CString) (out : Option Inode)
  | getPwd (fuel : ℕ) (tmp : ℤ → UInt8)
  | diskStats

def Fs.call {α : Type} (s : Fs) (x : DiskM α) : α × Fs :=
  ((x.run s.disk).1, { s with disk := (x.run s.disk).2 })

/-- The `int` a call returns, 0 for the calls that return something else. -/
def exec (op : FsOp) (s : Fs) : ℤ × Fs :=
  match op with
  | .format =>
    let r := (fsFormat : DiskM Statics).run s.disk
    (0, ⟨r.2, r.1⟩)
  | .mount =>
    let r := (fsMount s.statics : DiskM (ℤ × Statics)).run s.disk
    (r.1.1, ⟨r.2, r.1.2⟩)
  | .create name => s.call (fsCreate s.dir name)
  | .write name data => s.call (fsWrite s.dir name data)
  | .writeBinary name data size => s.call (fsWriteBinary s.dir name data size)
  | .read name buffer bufSize =>
    let r := s.call (fsRead s.dir name buffer bufSize)
    (r.1.1, r.2)
  | .append scratch name data => s.call (fsAppend s.dir scratch name data)
  | .delete name => s.call (fsDelete s.dir name)
  | .rename oldName newName => s.call (fsRename s.dir oldName newName)
  | .mkdir name => s.call (fsMkdir s.dir name)
  | .changeDir name =>
    let r := (fsChangeDir s.dir name : DiskM (ℤ × UInt32)).run s.disk
    (r.1.1, ⟨r.2, { s.statics with currentDir := r.1.2 }⟩)
  | .list maxOut =>
    let r := s.call (fsList s.dir maxOut)
    (r.1.length, r.2)
  | .stat name out =>
    let r := s.call (fsStat s.dir name out)
    (r.1.1, r.2)
  | .getPwd fuel tmp => (0, (s.call (fsGetPwd fuel s.dir tmp)).2)
  | .diskStats => (0, (s.call (fsDiskStats s.statics)).2)

/-- What `fs_stat` tells about a name. -/
def Fs.stat (s : Fs) (name : CString) : Option Inode :=
  if s.disk.lookup name s.dir = 0 then none else some (s.inode (s.disk.lookup name s.dir))

theorem fsStat_stat (s : Fs) (name : CString) (out : Inode) :
    (s.call (fsStat s.dir name (some out))).1 =
      match s.stat name with
      | none => (-1, some out)
      | some v => (0, some v) := by
  simp only [Fs.call, fsStat_run, Fs.stat, Fs.inode]
  split_ifs <;> rfl

/-- States right after `fs_format`, on any disk; the write log starts empty. -/
def Formatted (s : Fs) : Prop :=
  ∃ sectors st, s = (exec .format ⟨⟨sectors, []⟩, st⟩).2

/-- The states of the runs from `fs_format` whose calls are all allowed. -/
abbrev Reachable (allow : Fs → FsOp → Prop) : Fs → Prop :=
  Reach Formatted (fun op s t => t = (exec op s).2) allow

def anyCall (_ : Fs) (_ : FsOp) : Prop := True

theorem lookup_matches {d : Disk} {name : CString} {dir : UInt32} (h : d.lookup name dir ≠ 0) :
    (d.inode (d.lookup name dir)).Matches name dir := by
  unfold Disk.lookup at h ⊢
  cases hf : inodeIds.find? fun id => decide ((d.inode id).Matches name dir) with
  | none => simp [hf] at h
  | some id => simpa using List.find?_some hf

theorem lookup_eq_zero {d : Disk} {name : CString} {dir : UInt32} :
    d.lookup name dir = 0 ↔ ∀ id, ¬(d.inode id).Matches name dir := by
  constructor
  · intro h id hm
    cases hf : inodeIds.find? fun id => decide ((d.inode id).Matches name dir) with
    | none =>
      have hn := List.find?_eq_none.mp hf id (live_mem hm.1)
      exact hn (by simpa using hm)
    | some j =>
      rw [Disk.lookup, hf] at h
      exact inodeIds_ne_zero (List.mem_of_find?_eq_some hf) h
  · intro h
    by_contra hn
    exact h _ (lookup_matches hn)

theorem lookup_congr {d e : Disk} {name : CString} {dir : UInt32}
    (h : ∀ id, (d.inode id).Matches name dir ↔ (e.inode id).Matches name dir) :
    d.lookup name dir = e.lookup name dir := by
  simp only [Disk.lookup, h]

theorem freeInode_spec {d : Disk} (h : d.freeInode ≠ 0) :
    d.freeInode ∈ inodeIds ∧ ¬(d.inode d.freeInode).live := by
  unfold Disk.freeInode at h ⊢
  cases hf : inodeIds.find? fun id => decide ((d.inode id).name 0 = 0) with
  | none => simp [hf] at h
  | some id =>
    have hp := List.find?_some hf
    exact ⟨List.mem_of_find?_eq_some hf, by simpa [Inode.live] using hp⟩

def ReadOnly {α : Type} (x : DiskM α) : Prop := ∀ d, (x.run d).2 = d

theorem ReadOnly.pure {α : Type} (a : α) : ReadOnly (pure a : DiskM α) := fun _ => rfl

theorem ReadOnly.bind {α β : Type} {x : DiskM α} {f : α → DiskM β} (hx : ReadOnly x)
    (hf : ∀ a, ReadOnly (f a)) : ReadOnly (x >>= f) := fun d => by
  rw [bind_run, hf, hx]

theorem ReadOnly.inodeRead (id : UInt32) : ReadOnly (inodeRead id) := fun d => by
  rw [inodeRead_run]

theorem ReadOnly.lookup (name : CString) (dir : UInt32) : ReadOnly (lookup name dir) := fun d => by
  rw [lookup_run]

theorem fsList_readOnly (dir : UInt32) (maxOut : ℕ) : ReadOnly (fsList dir maxOut) := by
  have loop (ids : List UInt32) (room : ℕ) : ReadOnly (fsListFrom dir ids room) := by
    induction ids generalizing room with
    | nil => exact .pure _
    | cons id ids ih =>
      cases room with
      | zero => exact .pure _
      | succ room =>
        refine .bind (.inodeRead id) fun node => ?_
        split_ifs
        · exact ih _
        · exact ih _
        · exact .bind (ih _) fun _ => .pure _
  exact loop _ _

theorem fsGetPwd_readOnly (fuel : ℕ) (dir : UInt32) (tmp : ℤ → UInt8) :
    ReadOnly (fsGetPwd fuel dir tmp) := by
  have loop (fuel : ℕ) (dir : UInt32) (st : ℤ × (ℤ → UInt8)) : ReadOnly (pwdLoop fuel dir st) := by
    induction fuel generalizing dir st with
    | zero =>
      unfold pwdLoop
      split_ifs
      · exact .pure _
      · exact .pure _
    | succ fuel ih =>
      unfold pwdLoop
      split_ifs
      · exact .pure _
      · exact .bind (.inodeRead dir) fun node => ih _ _
  unfold fsGetPwd
  split_ifs
  · exact .pure _
  · exact .bind (loop _ _ _) fun _ => .pure _

theorem fsDiskStats_readOnly (st : Statics) : ReadOnly (fsDiskStats st) := by
  have loop (used : UInt32) (ids : List UInt32) : ReadOnly (diskStatsFrom used ids) := by
    induction ids generalizing used with
    | nil => exact .pure _
    | cons id ids ih =>
      refine .bind (.inodeRead id) fun node => ?_
      split_ifs
      · exact ih _
      · exact ih _
  exact .bind (loop _ _) fun _ => .pure _

theorem fsMount_run (st : Statics) (d : Disk) : ∃ r st',
    (fsMount st : DiskM (ℤ × Statics)).run d = ((r, st'), d) ∧
      (st'.currentDir = 0 ∨ st' = st) := by
  have hd := congrArg Prod.snd (ataReadSector_run 0 d)
  rw [fsMount, bind_run]
  generalize StateT.run (ataReadSector 0 : DiskM (ℤ × Sector)) d = r at hd ⊢
  obtain ⟨r, e⟩ := r
  obtain rfl : e = d := hd
  simp only [ite_run, pure_run]
  split_ifs
  · exact ⟨0, st, rfl, .inr rfl⟩
  · exact ⟨0, st, rfl, .inr rfl⟩
  · exact ⟨0, st, rfl, .inr rfl⟩
  · exact ⟨1, _, rfl, .inl rfl⟩

def freshSectors (sectors : UInt32 → Sector) : UInt32 → Sector := fun lba =>
  if lba = 0 then freshSuperblock.sector
  else if lba < fsDataStart then emptySector
  else sectors lba

theorem fsFormat_run (d : Disk) : (fsFormat : DiskM Statics).run d =
    (⟨0, 131072⟩, ⟨freshSectors d.sectors, [8, 7, 6, 5, 4, 3, 2, 1, 0]++d.written⟩) := by
  have hd : ((fsFormat : DiskM Statics).run d).2 =
      ((((((((((d.write 0 freshSuperblock.sector).write 1 emptySector).write 2 emptySector).write 3
        emptySector).write 4 emptySector).write 5 emptySector).write 6 emptySector).write 7
        emptySector).write 8 emptySector)) := rfl
  refine Prod.ext rfl ?_
  rw [hd]
  simp only [Disk.write, Disk.mk.injEq, List.cons_append, List.nil_append, and_true]
  funext lba
  simp only [freshSectors, Function.update_apply, fsDataStart, UInt32.lt_iff_toNat_lt,
    ← UInt32.toNat_inj, UInt32.reduceToNat]
  split_ifs <;> first | rfl | omega

theorem getSlot_empty (k : Fin 9) : Inode.ofBytes (getSlot inode_fit emptySector k) = Inode.zero := by
  have h : getSlot inode_fit emptySector k = Inode.zero.bytes := by
    funext i
    simp [getSlot, emptySector, Inode.zero, Inode.bytes, wordByte]
  rw [h, ofBytes_bytes]

theorem fsFormat_inode (d : Disk) (id : UInt32) :
    ((fsFormat : DiskM Statics).run d).2.inode id = Inode.zero := by
  by_cases h : id ∈ inodeIds
  · have hr := inodeSector_range h
    have h0 : ¬(inodeSector id = 0) := fun e => by rw [e] at hr; simp at hr
    have h9 : inodeSector id < fsDataStart := by
      rw [UInt32.lt_iff_toNat_lt]
      simp only [fsDataStart, UInt32.reduceToNat]
      omega
    rw [fsFormat_run, inode_eq h]
    simp only [freshSectors, h0, h9, ↓reduceIte, getSlot_empty]
  · exact inode_of_not_mem h

end TinyOS.NanoFS
