import TinyOS.NanoFSChecks

set_option autoImplicit false

namespace TinyOS.NanoFS
open ByteWords LibcString FaultyRuns

/-- A failed transfer carries what the caller's buffer holds after a failed read. -/
abbrev FaultM := FaultyM Disk Sector

instance : Ata FaultM where
  ataReadSector lba := transfer (fun d => ((0, d.sectors lba), d)) fun garbage d => ((-1, garbage), d)
  ataWriteSector lba v := transfer (fun d => (0, d.write lba v)) fun _ d => (-1, d)

section Agreement

variable (dir : UInt32) (name : CString)

theorem ataReadSector_agrees (lba : UInt32) :
    Agrees (ataReadSector lba : FaultM (ℤ × Sector)) (ataReadSector lba : DiskM (ℤ × Sector)) :=
  .transfer _ fun _ => rfl

theorem ataWriteSector_agrees (lba : UInt32) (v : Sector) :
    Agrees (ataWriteSector lba v : FaultM ℤ) (ataWriteSector lba v : DiskM ℤ) :=
  .transfer _ fun _ => rfl

theorem inodeRead_agrees (id : UInt32) :
    Agrees (inodeRead id : FaultM Inode) (inodeRead id : DiskM Inode) :=
  .ite (.pure _) (.bind (ataReadSector_agrees _) fun _ => .pure _)

theorem inodeWrite_agrees (id : UInt32) (v : Inode) :
    Agrees (inodeWrite id v : FaultM Unit) (inodeWrite id v : DiskM Unit) :=
  .ite (.pure _) (.bind (ataReadSector_agrees _) fun _ =>
    .bind (ataWriteSector_agrees _ _) fun _ => .pure _)

theorem lookup_agrees : Agrees (lookup name dir : FaultM UInt32) (lookup name dir : DiskM UInt32) := by
  have scan (ids : List UInt32) : Agrees (lookupFrom name dir ids : FaultM UInt32)
      (lookupFrom name dir ids : DiskM UInt32) := by
    induction ids with
    | nil => exact .pure _
    | cons id ids ih =>
      exact .bind (inodeRead_agrees id) fun _ => .ite ih (.ite ih (.ite (.pure _) ih))
  exact scan _

theorem inodeAlloc_agrees : Agrees (inodeAlloc : FaultM UInt32) (inodeAlloc : DiskM UInt32) := by
  have scan (ids : List UInt32) : Agrees (inodeAllocFrom ids : FaultM UInt32)
      (inodeAllocFrom ids : DiskM UInt32) := by
    induction ids with
    | nil => exact .pure _
    | cons id ids ih => exact .bind (inodeRead_agrees id) fun _ => .ite (.pure _) ih
  exact scan _

theorem blockAlloc_agrees : Agrees (blockAlloc : FaultM UInt32) (blockAlloc : DiskM UInt32) := by
  have scan (h : UInt32) (ids : List UInt32) : Agrees (blockAllocFrom h ids : FaultM UInt32)
      (blockAllocFrom h ids : DiskM UInt32) := by
    induction ids generalizing h with
    | nil => exact .pure _
    | cons id ids ih => exact .bind (inodeRead_agrees id) fun _ => .ite (ih _) (ih _)
  exact scan _ _

theorem allocBlocks_agrees (bs : List (Fin 4)) (node : Inode) :
    Agrees (allocBlocks bs node : FaultM Inode) (allocBlocks bs node : DiskM Inode) := by
  induction bs generalizing node with
  | nil => exact .pure _
  | cons b bs ih =>
    unfold allocBlocks
    exact .ite (.bind blockAlloc_agrees fun _ => ih _) (ih _)

theorem readBlocks_agrees (node : Inode) (n : UInt32) (bs : List (Fin 4)) (pos : UInt32)
    (buffer : Buffer) : Agrees (readBlocks node n bs pos buffer : FaultM (UInt32 × Buffer))
      (readBlocks node n bs pos buffer : DiskM (UInt32 × Buffer)) := by
  induction bs generalizing pos buffer with
  | nil => exact .pure _
  | cons b bs ih =>
    unfold readBlocks
    exact .ite (.ite (.pure _) (.bind (ataReadSector_agrees _) fun _ => ih _ _)) (.pure _)

theorem writeText_agrees (data : Buffer) (node : Inode) (len : UInt32) (bs : List (Fin 4))
    (written : UInt32) : Agrees (writeText data node len bs written : FaultM Unit)
      (writeText data node len bs written : DiskM Unit) := by
  induction bs generalizing written with
  | nil => exact .pure _
  | cons b bs ih => exact .ite (.bind (ataWriteSector_agrees _ _) fun _ => ih _) (.pure _)

theorem writeBytes_agrees (data : Buffer) (node : Inode) (size : UInt32) (bs : List (Fin 4))
    (written : UInt32) : Agrees (writeBytes data node size bs written : FaultM Unit)
      (writeBytes data node size bs written : DiskM Unit) := by
  induction bs generalizing written with
  | nil => exact .pure _
  | cons b bs ih => exact .bind (ataWriteSector_agrees _ _) fun _ => .ite (.pure _) (ih _)

theorem checkNew_agrees : Agrees (checkNew dir name : FaultM (Except ℤ UInt32))
    (checkNew dir name : DiskM (Except ℤ UInt32)) :=
  .bind (lookup_agrees dir name) fun _ => .ite (.pure _)
    (.bind inodeAlloc_agrees fun _ => .ite (.pure _) (.pure _))

theorem checkFound_agrees : Agrees (checkFound dir name : FaultM (Except ℤ UInt32))
    (checkFound dir name : DiskM (Except ℤ UInt32)) :=
  .bind (lookup_agrees dir name) fun _ => .ite (.pure _) (.pure _)

theorem checkRename_agrees (newName : CString) :
    Agrees (checkRename dir name newName : FaultM (Except ℤ UInt32))
      (checkRename dir name newName : DiskM (Except ℤ UInt32)) :=
  .bind (lookup_agrees dir name) fun _ => .ite (.pure _)
    (.bind (lookup_agrees dir newName) fun _ => .ite (.pure _) (.pure _))

theorem checkFile_agrees : Agrees (checkFile dir name : FaultM (Except ℤ (UInt32 × Inode)))
    (checkFile dir name : DiskM (Except ℤ (UInt32 × Inode))) :=
  .bind (lookup_agrees dir name) fun _ => .ite (.pure _)
    (.bind (inodeRead_agrees _) fun _ => .ite (.pure _) (.pure _))

theorem checkSized_agrees (size : UInt32) :
    Agrees (checkSized dir name size : FaultM (Except ℤ (UInt32 × Inode)))
      (checkSized dir name size : DiskM (Except ℤ (UInt32 × Inode))) :=
  .bind (lookup_agrees dir name) fun _ => .ite (.pure _)
    (.bind (inodeRead_agrees _) fun _ => .ite (.pure _) (.ite (.pure _) (.pure _)))

theorem checkAppend_agrees (scratch : Buffer) (data : CString) :
    Agrees (checkAppend dir scratch name data : FaultM (Except ℤ (UInt32 × Pending)))
      (checkAppend dir scratch name data : DiskM (Except ℤ (UInt32 × Pending))) :=
  .bind (lookup_agrees dir name) fun _ => .ite (.pure _)
    (.bind (inodeRead_agrees _) fun _ => .ite (.pure _) (.ite (.pure _)
      (.bind (readBlocks_agrees _ _ _ _ _) fun _ =>
        .bind (checkSized_agrees dir name _) fun _ => .pure _)))

theorem storeBytes_agrees (id : UInt32) (node : Inode) (data : Buffer) (size : UInt32) :
    Agrees (storeBytes id node data size : FaultM Unit)
      (storeBytes id node data size : DiskM Unit) :=
  .bind (allocBlocks_agrees _ _) fun _ => .bind (writeBytes_agrees _ _ _ _ _) fun _ =>
    inodeWrite_agrees _ _

theorem storeString_agrees (id : UInt32) (node : Inode) (data : CString) :
    Agrees (storeString id node data : FaultM Unit) (storeString id node data : DiskM Unit) :=
  .bind (allocBlocks_agrees _ _) fun _ => .bind (writeText_agrees _ _ _ _ _) fun _ =>
    inodeWrite_agrees _ _

theorem storePending_agrees (id : UInt32) (pending : Pending) :
    Agrees (storePending id pending : FaultM Unit) (storePending id pending : DiskM Unit) := by
  cases pending with
  | none => exact .pure _
  | some f => exact storeBytes_agrees _ _ _ _

end Agreement

section Checks

variable (dir : UInt32) (name : CString)

theorem inodeRead_keeps (id : UInt32) : Keeps (inodeRead id : FaultM Inode) :=
  .ite (.pure _) (.bind (.transfer (fun _ => rfl) fun _ _ => rfl) fun _ => .pure _)

theorem lookup_keeps : Keeps (lookup name dir : FaultM UInt32) := by
  have scan (ids : List UInt32) : Keeps (lookupFrom name dir ids : FaultM UInt32) := by
    induction ids with
    | nil => exact .pure _
    | cons id ids ih =>
      exact .bind (inodeRead_keeps id) fun _ => .ite ih (.ite ih (.ite (.pure _) ih))
  exact scan _

theorem inodeAlloc_keeps : Keeps (inodeAlloc : FaultM UInt32) := by
  have scan (ids : List UInt32) : Keeps (inodeAllocFrom ids : FaultM UInt32) := by
    induction ids with
    | nil => exact .pure _
    | cons id ids ih => exact .bind (inodeRead_keeps id) fun _ => .ite (.pure _) ih
  exact scan _

theorem readBlocks_keeps (node : Inode) (n : UInt32) (bs : List (Fin 4)) (pos : UInt32)
    (buffer : Buffer) : Keeps (readBlocks node n bs pos buffer : FaultM (UInt32 × Buffer)) := by
  induction bs generalizing pos buffer with
  | nil => exact .pure _
  | cons b bs ih =>
    unfold readBlocks
    exact .ite (.ite (.pure _)
      (.bind (.transfer (fun _ => rfl) fun _ _ => rfl) fun _ => ih _ _)) (.pure _)

theorem checkNew_keeps : Keeps (checkNew dir name : FaultM (Except ℤ UInt32)) :=
  .bind (lookup_keeps dir name) fun _ => .ite (.pure _)
    (.bind inodeAlloc_keeps fun _ => .ite (.pure _) (.pure _))

theorem checkFound_keeps : Keeps (checkFound dir name : FaultM (Except ℤ UInt32)) :=
  .bind (lookup_keeps dir name) fun _ => .ite (.pure _) (.pure _)

theorem checkRename_keeps (newName : CString) :
    Keeps (checkRename dir name newName : FaultM (Except ℤ UInt32)) :=
  .bind (lookup_keeps dir name) fun _ => .ite (.pure _)
    (.bind (lookup_keeps dir newName) fun _ => .ite (.pure _) (.pure _))

theorem checkFile_keeps : Keeps (checkFile dir name : FaultM (Except ℤ (UInt32 × Inode))) :=
  .bind (lookup_keeps dir name) fun _ => .ite (.pure _)
    (.bind (inodeRead_keeps _) fun _ => .ite (.pure _) (.pure _))

theorem checkSized_keeps (size : UInt32) :
    Keeps (checkSized dir name size : FaultM (Except ℤ (UInt32 × Inode))) :=
  .bind (lookup_keeps dir name) fun _ => .ite (.pure _)
    (.bind (inodeRead_keeps _) fun _ => .ite (.pure _) (.ite (.pure _) (.pure _)))

theorem checkAppend_keeps (scratch : Buffer) (data : CString) :
    Keeps (checkAppend dir scratch name data : FaultM (Except ℤ (UInt32 × Pending))) :=
  .bind (lookup_keeps dir name) fun _ => .ite (.pure _)
    (.bind (inodeRead_keeps _) fun _ => .ite (.pure _) (.ite (.pure _)
      (.bind (readBlocks_keeps _ _ _ _ _) fun _ =>
        .bind (checkSized_keeps dir name _) fun _ => .pure _)))

theorem minus_one_ne : (-1 : ℤ) ≠ 0 := by decide

theorem minus_two_ne : (-2 : ℤ) ≠ 0 := by decide

theorem minus_three_ne : (-3 : ℤ) ≠ 0 := by decide

theorem checkNew_refuses : Refuses 0 (checkNew dir name : FaultM (Except ℤ UInt32)) :=
  .bind _ fun _ => .ite (.error minus_one_ne) (.bind _ fun _ => .ite (.error minus_two_ne) (.ok _))

theorem checkFound_refuses : Refuses 0 (checkFound dir name : FaultM (Except ℤ UInt32)) :=
  .bind _ fun _ => .ite (.error minus_one_ne) (.ok _)

theorem checkRename_refuses (newName : CString) :
    Refuses 0 (checkRename dir name newName : FaultM (Except ℤ UInt32)) :=
  .bind _ fun _ => .ite (.error minus_one_ne) (.bind _ fun _ => .ite (.error minus_two_ne) (.ok _))

theorem checkFile_refuses : Refuses 0 (checkFile dir name : FaultM (Except ℤ (UInt32 × Inode))) :=
  .bind _ fun _ => .ite (.error minus_one_ne) (.bind _ fun _ => .ite (.error minus_two_ne) (.ok _))

theorem checkSized_refuses (size : UInt32) :
    Refuses 0 (checkSized dir name size : FaultM (Except ℤ (UInt32 × Inode))) :=
  .bind _ fun _ => .ite (.error minus_one_ne) (.bind _ fun _ =>
    .ite (.error minus_two_ne) (.ite (.error minus_three_ne) (.ok _)))

theorem checkAppend_refuses (scratch : Buffer) (data : CString) :
    Refuses 0 (checkAppend dir scratch name data : FaultM (Except ℤ (UInt32 × Pending))) :=
  .bind _ fun _ => .ite (.error minus_one_ne) (.bind _ fun _ =>
    .ite (.error minus_two_ne) (.ite (.ok _) (.bind _ fun _ =>
      .map (checkSized_refuses dir name _) _)))

end Checks

def Mutation : FsOp → Prop
  | .create _ | .write _ _ | .writeBinary _ _ _ | .append _ _ _ | .delete _ | .rename _ _
  | .mkdir _ => True
  | _ => False

/-- Under a pattern of failures the call leaves every inode record but that of the inode
it writes as it was, and returns 0 only when every transfer it issued has succeeded. -/
def Contained (s : Fs) (op : FsOp) (pattern : ℕ → Option Sector) : Prop :=
  let start : Faulty Disk Sector := ⟨s.disk, pattern, 0⟩
  let r := (mutate s.dir op : FaultM ℤ).run start
  (∀ j, ((verdict s.dir op : FaultM (Except ℤ UInt32)).run start).1 ≠ .ok j →
    r.2.state.inode j = s.inode j) ∧
  (r.1 = 0 → Fine pattern 0 r.2.clock)

def Refused (s : Fs) (op : FsOp) (pattern : ℕ → Option Sector) : Prop :=
  ∃ e, ((verdict s.dir op : FaultM (Except ℤ UInt32)).run ⟨s.disk, pattern, 0⟩).1 = .error e

def transfers (s : Fs) (op : FsOp) : ℕ := finish (mutate s.dir op : FaultM ℤ) s.disk 0

/-- Where the blocks of a write lie in the inode table, the bytes that end up there are
those of the records already there. -/
def SparesTable (s : Fs) (op : FsOp) : Prop :=
  ∀ tr, s.transfer op = some tr → ∀ j ∈ inodeIds, j ≠ tr.id → ∀ c,
    (tr.slots.reverse.find? fun b =>
      (s.disk.grown (s.inode tr.id) tr.size).blocks b = inodeSector j) = some c →
    getSlot inode_fit (blockSector tr.data tr.size.toNat c) (inodeSlot j) =
      getSlot inode_fit (s.disk.sectors (inodeSector j)) (inodeSlot j)

theorem ofBytes_inj {r r' : Fin 54 → UInt8} : Inode.ofBytes r = Inode.ofBytes r' ↔ r = r' :=
  ⟨fun h => by rw [← bytes_ofBytes r, h, bytes_ofBytes], congrArg _⟩

/-- On a perfect disk the other records stay exactly when the write spares them. -/
theorem spares_iff {s : Fs} {op : FsOp} (ne : op ≠ .format) :
    (∀ j, j ≠ s.target op → (exec op s).2.inode j = s.inode j) ↔ SparesTable s op := by
  have c := exec_disk s op
  unfold SparesTable
  generalize (exec op s).2 = t at c
  cases c with
  | same idle disk => simp [Fs.inode, disk, idle]
  | format isFormat _ => exact absurd isFormat ne
  | put idle mem target disk =>
    rw [idle, target]
    refine ⟨fun _ _ busy => by contradiction, fun _ j hj => ?_⟩
    rw [Fs.inode, disk, inode_putInode _ _ mem, if_neg hj]
  | @store tr busy live target disk =>
    rw [target]
    have record {j : UInt32} (hj : j ≠ tr.id) : t.inode j =
        (s.disk.writeBlocks tr.data (s.disk.grown (s.inode tr.id) tr.size).blocks tr.size.toNat
          tr.slots).inode j := by
      rw [Fs.inode, disk, Disk.store, inode_putInode _ _ (live_mem live), if_neg hj]
    constructor
    · intro h tr' busy' j hj ne c last
      obtain rfl : tr = tr' := Option.some.inj (busy.symm.trans busy')
      have same := (record ne).symm.trans (h j ne)
      rw [inode_eq hj, show s.inode j = _ from inode_eq hj, ofBytes_inj, writeBlocks_sectors,
        last] at same
      exact same
    · intro h j ne
      rw [record ne]
      by_cases hj : j ∈ inodeIds
      · rw [inode_eq hj, show s.inode j = _ from inode_eq hj, ofBytes_inj, writeBlocks_sectors]
        cases last : tr.slots.reverse.find? fun b =>
          decide ((s.disk.grown (s.inode tr.id) tr.size).blocks b = inodeSector j) with
        | none => rfl
        | some c => exact h tr busy j hj ne c last
      · rw [inode_of_not_mem hj, show s.inode j = _ from inode_of_not_mem hj]

theorem except_map_id {α : Type} (v : Except ℤ α) : v = v.map id := by cases v <;> rfl

/-- The exact condition, for a call given as its checks and its work. -/
theorem contained_of_guarded {α : Type} (s : Fs) (op : FsOp) {check : FaultM (Except ℤ α)}
    {check' : DiskM (Except ℤ α)} {body : α → FaultM Unit} {body' : α → DiskM Unit}
    (target : α → UInt32) (ne : op ≠ .format)
    (disk : (exec op s).2.disk = ((mutate s.dir op : DiskM ℤ).run s.disk).2)
    (hm : mutate s.dir op = guarded 0 check body) (hm' : mutate s.dir op = guarded 0 check' body')
    (hv : ∀ t, ((verdict s.dir op : FaultM (Except ℤ UInt32)).run t).1 =
      (check.run t).1.map target)
    (hc : Agrees check check') (hb : ∀ a, Agrees (body a) (body' a)) (keeps : Keeps check)
    (refuses : Refuses 0 check)
    (aim : ∀ a, (check'.run s.disk).1 = .ok a → target a = s.target op)
    (p : ℕ → Option Sector) :
    Contained s op p ↔ Refused s op p ∨ Fine p 0 (transfers s op) ∧ SparesTable s op := by
  have key := guarded_contained hc hb keeps refuses
    (fun v (d e : Disk) => ∀ j, v.map target ≠ .ok j → e.inode j = d.inode j)
    (fun _ _ _ _ => rfl) s.disk p 0
  have refused : Refused s op p ↔ ∃ e, (check.run ⟨s.disk, p, 0⟩).1 = .error e := by
    rw [Refused, hv]
    cases (check.run ⟨s.disk, p, 0⟩).1 <;> simp [Except.map]
  unfold Contained
  simp only [hv, transfers, hm, refused]
  rw [key]
  refine or_congr_right' fun hn => and_congr_right fun fine => ?_
  rw [guarded_check hc hb fine] at hn
  rw [← spares_iff ne]
  have final : ((guarded 0 check' body').run s.disk).2 = (exec op s).2.disk := by rw [disk, hm']
  cases hv' : (check'.run s.disk).1 with
  | error e => exact absurd ⟨e, hv'⟩ hn
  | ok a =>
    simp only [Except.ok.injEq, exists_eq_left', Except.map, ne_eq, aim a hv', final]
    exact ⟨fun h j hj => h j (Ne.symm hj), fun h j hj => h j (Ne.symm hj)⟩

theorem checkNew_aim {d : Disk} {dir a : UInt32} {name : CString}
    (h : ((checkNew dir name : DiskM (Except ℤ UInt32)).run d).1 = .ok a) : a = d.freeInode := by
  simp only [checkNew, bind_run, lookup_run, ite_run, inodeAlloc_run, pure_run] at h
  split_ifs at h
  exact (Except.ok.inj h).symm

theorem checkFound_aim {d : Disk} {dir a : UInt32} {name : CString}
    (h : ((checkFound dir name : DiskM (Except ℤ UInt32)).run d).1 = .ok a) :
    a = d.lookup name dir := by
  simp only [checkFound, bind_run, lookup_run, ite_run, pure_run] at h
  split_ifs at h
  exact (Except.ok.inj h).symm

theorem checkRename_aim {d : Disk} {dir a : UInt32} {name newName : CString}
    (h : ((checkRename dir name newName : DiskM (Except ℤ UInt32)).run d).1 = .ok a) :
    a = d.lookup name dir := by
  simp only [checkRename, bind_run, lookup_run, ite_run, pure_run] at h
  split_ifs at h
  exact (Except.ok.inj h).symm

theorem checkFile_aim {d : Disk} {dir : UInt32} {a : UInt32 × Inode} {name : CString}
    (h : ((checkFile dir name : DiskM (Except ℤ (UInt32 × Inode))).run d).1 = .ok a) :
    a.1 = d.lookup name dir := by
  simp only [checkFile, bind_run, lookup_run, inodeRead_run, ite_run, pure_run] at h
  split_ifs at h
  rw [← Except.ok.inj h]

theorem checkSized_aim {d : Disk} {dir size : UInt32} {a : UInt32 × Inode} {name : CString}
    (h : ((checkSized dir name size : DiskM (Except ℤ (UInt32 × Inode))).run d).1 = .ok a) :
    a.1 = d.lookup name dir := by
  simp only [checkSized, bind_run, lookup_run, inodeRead_run, ite_run, pure_run] at h
  split_ifs at h
  rw [← Except.ok.inj h]

theorem checkAppend_aim {d : Disk} {dir : UInt32} {a : UInt32 × Pending} {scratch : Buffer}
    {name data : CString}
    (h : ((checkAppend dir scratch name data : DiskM (Except ℤ (UInt32 × Pending))).run d).1 =
      .ok a) : a.1 = d.lookup name dir := by
  simp only [checkAppend, bind_run, lookup_run, inodeRead_run, ite_run, readBlocks_run, pure_run]
    at h
  split_ifs at h
  · rw [← Except.ok.inj h]
  · generalize hv : ((checkSized dir name _ : DiskM (Except ℤ (UInt32 × Inode))).run d).1 = v at h
    cases v with
    | error e => contradiction
    | ok f =>
      rw [← checkSized_aim hv, ← Except.ok.inj h]

/-- Whatever fails, the call stays within its inode and reports the failure exactly when
its checks refuse, or when nothing fails and the write spares the inode table. -/
theorem failures_contained_iff (s : Fs) {op : FsOp} (h : Mutation op)
    (pattern : ℕ → Option Sector) : Contained s op pattern ↔
      Refused s op pattern ∨ Fine pattern 0 (transfers s op) ∧ SparesTable s op := by
  -- a call with a null pointer refuses at once
  have null (op : FsOp) (ne : op ≠ .format)
      (disk : (exec op s).2.disk = ((mutate s.dir op : DiskM ℤ).run s.disk).2)
      (hm : (mutate s.dir op : FaultM ℤ) = guarded 0 (pure (.error (-1))) fun _ : UInt32 => pure ())
      (hm' : (mutate s.dir op : DiskM ℤ) = guarded 0 (pure (.error (-1))) fun _ => pure ())
      (hv : ∀ t, ((verdict s.dir op : FaultM (Except ℤ UInt32)).run t).1 = .error (-1)) :
      Contained s op pattern ↔
        Refused s op pattern ∨ Fine pattern 0 (transfers s op) ∧ SparesTable s op :=
    contained_of_guarded s op id ne disk hm hm' hv (.pure _) (fun _ => .pure _)
      (.pure _) (.error minus_one_ne) (fun _ h => by contradiction) pattern
  cases op with
  | create name =>
    cases name with
    | none => exact null (.create none) (by simp) rfl rfl rfl fun _ => rfl
    | some name =>
      exact contained_of_guarded s (.create (some name)) id (by simp) rfl (fsCreate_guarded _ _)
        (fsCreate_guarded _ _) (fun _ => except_map_id _) (checkNew_agrees _ _)
        (fun _ => .bind blockAlloc_agrees fun _ => inodeWrite_agrees _ _) (checkNew_keeps _ _)
        (checkNew_refuses _ _) (fun _ => checkNew_aim) pattern
  | write name data =>
    cases name with
    | none => exact null (.write none data) (by simp) rfl rfl rfl fun _ => rfl
    | some name =>
      cases data with
      | none => exact null (.write (some name) none) (by simp) rfl rfl rfl fun _ => rfl
      | some data =>
        exact contained_of_guarded s (.write (some name) (some data)) Prod.fst (by simp) rfl
          (fsWrite_guarded _ _ _) (fsWrite_guarded _ _ _) (fun _ => rfl) (checkFile_agrees _ _)
          (fun _ => storeString_agrees _ _ _) (checkFile_keeps _ _) (checkFile_refuses _ _)
          (fun _ => checkFile_aim) pattern
  | writeBinary name data size =>
    cases name with
    | none => exact null (.writeBinary none data size) (by simp) rfl rfl rfl fun _ => rfl
    | some name =>
      cases data with
      | none => exact null (.writeBinary (some name) none size) (by simp) rfl rfl rfl fun _ => rfl
      | some data =>
        exact contained_of_guarded s (.writeBinary (some name) (some data) size) Prod.fst (by simp)
          rfl (fsWriteBinary_guarded _ _ _ _) (fsWriteBinary_guarded _ _ _ _) (fun _ => rfl)
          (checkSized_agrees _ _ _) (fun _ => storeBytes_agrees _ _ _ _) (checkSized_keeps _ _ _)
          (checkSized_refuses _ _ _) (fun _ => checkSized_aim) pattern
  | append scratch name data =>
    cases name with
    | none => exact null (.append scratch none data) (by simp) rfl rfl rfl fun _ => rfl
    | some name =>
      cases data with
      | none => exact null (.append scratch (some name) none) (by simp) rfl rfl rfl fun _ => rfl
      | some data =>
        exact contained_of_guarded s (.append scratch (some name) (some data)) Prod.fst (by simp)
          rfl (fsAppend_guarded _ _ _ _) (fsAppend_guarded _ _ _ _) (fun _ => rfl)
          (checkAppend_agrees _ _ _ _) (fun _ => storePending_agrees _ _) (checkAppend_keeps _ _ _ _)
          (checkAppend_refuses _ _ _ _) (fun _ => checkAppend_aim) pattern
  | delete name =>
    exact contained_of_guarded s (.delete name) id (by simp) rfl (fsDelete_guarded _ _)
      (fsDelete_guarded _ _) (fun _ => except_map_id _) (checkFound_agrees _ _)
      (fun _ => inodeWrite_agrees _ _) (checkFound_keeps _ _) (checkFound_refuses _ _)
      (fun _ => checkFound_aim) pattern
  | rename oldName newName =>
    exact contained_of_guarded s (.rename oldName newName) id (by simp) rfl
      (fsRename_guarded _ _ _) (fsRename_guarded _ _ _) (fun _ => except_map_id _)
      (checkRename_agrees _ _ _)
      (fun _ => .bind (inodeRead_agrees _) fun _ => inodeWrite_agrees _ _)
      (checkRename_keeps _ _ _) (checkRename_refuses _ _ _) (fun _ => checkRename_aim) pattern
  | mkdir name =>
    exact contained_of_guarded s (.mkdir name) id (by simp) rfl (fsMkdir_guarded _ _)
      (fsMkdir_guarded _ _) (fun _ => except_map_id _) (checkNew_agrees _ _)
      (fun _ => inodeWrite_agrees _ _) (checkNew_keeps _ _) (checkNew_refuses _ _)
      (fun _ => checkNew_aim) pattern
  | _ => exact absurd h (by simp [Mutation])

/-- The second transfer fails, and the buffer then holds 255 in every byte. -/
def secondFails : ℕ → Option Sector := fun n => if n = 1 then some fun _ => 255 else none

theorem failures_contained_iff_withF : Contained withF (.delete nameF) secondFails ↔
    Refused withF (.delete nameF) secondFails ∨
      Fine secondFails 0 (transfers withF (.delete nameF)) ∧ SparesTable withF (.delete nameF) :=
  @failures_contained_iff withF (.delete nameF) trivial secondFails

theorem lookup_secondFails : (lookup nameF withF.dir : FaultM UInt32).run
    ⟨withF.disk, secondFails, 0⟩ = (1, ⟨withF.disk, secondFails, 1⟩) := by
  have read : (inodeRead 1 : FaultM Inode).run ⟨withF.disk, secondFails, 0⟩ =
      (withF.inode 1, ⟨withF.disk, secondFails, 1⟩) := rfl
  have ids : inodeIds = 1 :: inodeIds.tail := by decide
  have hit : strcmp (newFile 0 nameF 9).nameStr nameF.chars = 0 := by decide +kernel
  have at1 : withF.inode 1 = newFile 0 nameF 9 := (withF_inode 1).trans (if_pos rfl)
  have root : ¬(newFile 0 nameF 9).parent ≠ 0 := not_not.mpr rfl
  have live : ¬(newFile 0 nameF 9).name 0 = 0 := by decide
  rw [lookup, ids, lookupFrom, run_bind, read, at1, withF_dir]
  dsimp only
  rw [if_neg live, if_neg root, if_pos hit]
  rfl

/-- `fs_delete` of "f" when the read inside `inode_write` fails: the buffer goes to the
disk, the other eight records of the sector with it, and the call returns 0. -/
theorem failedRead_spreads :
    let r := (mutate withF.dir (.delete nameF) : FaultM ℤ).run ⟨withF.disk, secondFails, 0⟩
    r.1 = 0 ∧ withF.inode 2 = Inode.zero ∧ r.2.state.inode 2 = Inode.ofBytes (fun _ => 255) ∧
      ¬Contained withF (.delete nameF) secondFails := by
  intro r
  have run : r = (0, ⟨withF.disk.write 1 (putSlot (fun _ => 255) (inodeSlot 1) Inode.zero.bytes),
      secondFails, 3⟩) := by
    change (fsDelete withF.dir nameF : FaultM ℤ).run _ = _
    rw [fsDelete, run_bind, lookup_secondFails]
    rfl
  have before : withF.inode 2 = Inode.zero := by
    rw [withF_inode]
    rfl
  have after : r.2.state.inode 2 = Inode.ofBytes (fun _ => 255) := by
    have mem : (2 : UInt32) ∈ inodeIds := by decide
    have sector : inodeSector 2 = 1 := by decide
    have slot : inodeSlot 1 ≠ inodeSlot 2 := by decide
    rw [run, inode_eq mem, write_sectors, sector, Function.update_self,
      getSlot_putSlot_of_ne _ _ _ _ _ slot]
    rfl
  refine ⟨by rw [run], before, after, fun h => ?_⟩
  have verdict1 : ((verdict withF.dir (.delete nameF) : FaultM (Except ℤ UInt32)).run
      ⟨withF.disk, secondFails, 0⟩).1 = .ok 1 := by
    change ((checkFound withF.dir nameF : FaultM (Except ℤ UInt32)).run _).1 = _
    rw [checkFound, run_bind, lookup_secondFails]
    rfl
  have same := h.1 2 (by rw [verdict1]; decide)
  rw [before] at same
  have first := congrArg (fun v => v.name 0) (after.symm.trans same)
  exact absurd first (by decide)

end TinyOS.NanoFS
