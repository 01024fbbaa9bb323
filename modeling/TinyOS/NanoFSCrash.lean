import TinyOS.NanoFSChecks
import TinyOS.CutRuns

set_option autoImplicit false

/-! fs.c on a disk that loses power: the sector writes of each call, in order, and the disk that
is left when only the first of them have reached it. A sector is written whole or not at all. -/
namespace TinyOS.NanoFS
open ByteWords LibcString FaultyRuns CutRuns

abbrev PowerM := CutM Disk

abbrev SectorWrite := UInt32 × Sector

def put (w : SectorWrite) (d : Disk) : Disk := d.write w.1 w.2

instance : Ata PowerM where
  ataReadSector lba := look fun d => (0, d.sectors lba)
  ataWriteSector lba v := store (put (lba, v)) 0

section Code

variable {m : Type → Type} [Monad m] [Ata m]

def perform (st : Statics) : FsOp → m Unit
  | .format => do
    let _ ← fsFormat
    pure ()
  | .mount => do
    let _ ← fsMount st
    pure ()
  | .read name buffer bufSize => do
    let _ ← fsRead st.currentDir name buffer bufSize
    pure ()
  | .changeDir name => do
    let _ ← fsChangeDir st.currentDir name
    pure ()
  | .list maxOut => do
    let _ ← fsList st.currentDir maxOut
    pure ()
  | .stat name out => do
    let _ ← fsStat st.currentDir name out
    pure ()
  | .getPwd fuel tmp => do
    let _ ← fsGetPwd fuel st.currentDir tmp
    pure ()
  | .diskStats => do
    let _ ← fsDiskStats st
    pure ()
  | op => do
    let _ ← mutate st.currentDir op
    pure ()

end Code

/-- The disk after a call of which `n` sector writes have reached it. -/
def crash (s : Fs) (op : FsOp) (n : ℕ) : Disk :=
  ((perform s.statics op : PowerM Unit).run ⟨s.disk, n⟩).2.state

/-- The static variables as the kernel image has them. -/
def boot (d : Disk) : Fs := ⟨d, ⟨0, 131072⟩⟩

section Reading

variable (dir : UInt32) (name : CString)

theorem ataReadSector_reads (lba : UInt32) :
    Reads put (ataReadSector lba : PowerM (ℤ × Sector)) (ataReadSector lba : DiskM (ℤ × Sector)) :=
  .look fun _ => rfl

theorem inodeRead_reads (id : UInt32) :
    Reads put (inodeRead id : PowerM Inode) (inodeRead id : DiskM Inode) :=
  .ite (.pure _) (.after (ataReadSector_reads _) fun _ => .pure _)

theorem lookup_reads : Reads put (lookup name dir : PowerM UInt32) (lookup name dir) := by
  have scan (ids : List UInt32) : Reads put (lookupFrom name dir ids : PowerM UInt32)
      (lookupFrom name dir ids) := by
    induction ids with
    | nil => exact .pure _
    | cons id ids ih =>
      exact .after (inodeRead_reads id) fun _ => .ite ih (.ite ih (.ite (.pure _) ih))
  exact scan _

theorem inodeAlloc_reads : Reads put (inodeAlloc : PowerM UInt32) inodeAlloc := by
  have scan (ids : List UInt32) : Reads put (inodeAllocFrom ids : PowerM UInt32)
      (inodeAllocFrom ids) := by
    induction ids with
    | nil => exact .pure _
    | cons id ids ih => exact .after (inodeRead_reads id) fun _ => .ite (.pure _) ih
  exact scan _

theorem blockAlloc_reads : Reads put (blockAlloc : PowerM UInt32) blockAlloc := by
  have scan (h : UInt32) (ids : List UInt32) : Reads put (blockAllocFrom h ids : PowerM UInt32)
      (blockAllocFrom h ids) := by
    induction ids generalizing h with
    | nil => exact .pure _
    | cons id ids ih => exact .after (inodeRead_reads id) fun _ => .ite (ih _) (ih _)
  exact scan _ _

theorem allocBlocks_reads (bs : List (Fin 4)) (node : Inode) :
    Reads put (allocBlocks bs node : PowerM Inode) (allocBlocks bs node) := by
  induction bs generalizing node with
  | nil => exact .pure _
  | cons b bs ih =>
    unfold allocBlocks
    exact .ite (.after blockAlloc_reads fun _ => ih _) (ih _)

theorem readBlocks_reads (node : Inode) (n : UInt32) (bs : List (Fin 4)) (pos : UInt32)
    (buffer : Buffer) : Reads put (readBlocks node n bs pos buffer : PowerM (UInt32 × Buffer))
      (readBlocks node n bs pos buffer) := by
  induction bs generalizing pos buffer with
  | nil => exact .pure _
  | cons b bs ih =>
    unfold readBlocks
    exact .ite (.ite (.pure _) (.after (ataReadSector_reads _) fun _ => ih _ _)) (.pure _)

theorem checkNew_reads : Reads put (checkNew dir name : PowerM (Except ℤ UInt32))
    (checkNew dir name) :=
  .after (lookup_reads dir name) fun _ => .ite (.pure _)
    (.after inodeAlloc_reads fun _ => .ite (.pure _) (.pure _))

theorem checkFound_reads : Reads put (checkFound dir name : PowerM (Except ℤ UInt32))
    (checkFound dir name) :=
  .after (lookup_reads dir name) fun _ => .ite (.pure _) (.pure _)

theorem checkRename_reads (newName : CString) :
    Reads put (checkRename dir name newName : PowerM (Except ℤ UInt32))
      (checkRename dir name newName) :=
  .after (lookup_reads dir name) fun _ => .ite (.pure _)
    (.after (lookup_reads dir newName) fun _ => .ite (.pure _) (.pure _))

theorem checkFile_reads : Reads put (checkFile dir name : PowerM (Except ℤ (UInt32 × Inode)))
    (checkFile dir name) :=
  .after (lookup_reads dir name) fun _ => .ite (.pure _)
    (.after (inodeRead_reads _) fun _ => .ite (.pure _) (.pure _))

theorem checkSized_reads (size : UInt32) :
    Reads put (checkSized dir name size : PowerM (Except ℤ (UInt32 × Inode)))
      (checkSized dir name size) :=
  .after (lookup_reads dir name) fun _ => .ite (.pure _)
    (.after (inodeRead_reads _) fun _ => .ite (.pure _) (.ite (.pure _) (.pure _)))

theorem checkAppend_reads (scratch : Buffer) (data : CString) :
    Reads put (checkAppend dir scratch name data : PowerM (Except ℤ (UInt32 × Pending)))
      (checkAppend dir scratch name data) :=
  .after (lookup_reads dir name) fun _ => .ite (.pure _)
    (.after (inodeRead_reads _) fun _ => .ite (.pure _) (.ite (.pure _)
      (.after (readBlocks_reads _ _ _ _ _) fun _ =>
        .after (checkSized_reads dir name _) fun _ => .pure _)))

theorem fsMount_reads (st : Statics) : Reads put (fsMount st : PowerM (ℤ × Statics)) (fsMount st) :=
  .after (ataReadSector_reads _) fun _ => .ite (.pure _) (.ite (.pure _) (.ite (.pure _) (.pure _)))

theorem readNode_reads (node : Inode) (buffer : Buffer) (bufSize : UInt32) :
    Reads put (readNode node buffer bufSize : PowerM (ℤ × Buffer)) (readNode node buffer bufSize) :=
  .ite (.pure _) (.after (readBlocks_reads _ _ _ _ _) fun _ => .pure _)

theorem fsRead_reads (name : Option CString) (buffer : Option Buffer) (bufSize : UInt32) :
    Reads put (fsRead dir name buffer bufSize : PowerM (ℤ × Option Buffer))
      (fsRead dir name buffer bufSize) := by
  match name, buffer with
  | none, _ => exact .pure _
  | some _, none => exact .pure _
  | some name, some buffer =>
    exact .after (lookup_reads dir name) fun _ => .ite (.pure _)
      (.after (inodeRead_reads _) fun _ => .after (readNode_reads _ _ _) fun _ => .pure _)

theorem fsChangeDir_reads : Reads put (fsChangeDir dir name : PowerM (ℤ × UInt32))
    (fsChangeDir dir name) :=
  .ite (.pure _) (.ite (.ite (.after (inodeRead_reads _) fun _ => .pure _) (.pure _))
    (.ite (.pure _) (.after (lookup_reads dir name) fun _ => .ite (.pure _)
      (.after (inodeRead_reads _) fun _ => .ite (.pure _) (.pure _)))))

theorem fsList_reads (maxOut : ℕ) : Reads put (fsList dir maxOut : PowerM (List Inode))
    (fsList dir maxOut) := by
  have scan (ids : List UInt32) (room : ℕ) : Reads put
      (fsListFrom dir ids room : PowerM (List Inode)) (fsListFrom dir ids room) := by
    induction ids generalizing room with
    | nil => exact .pure _
    | cons id ids ih =>
      cases room with
      | zero => exact .pure _
      | succ room =>
        exact .after (inodeRead_reads id) fun _ => .ite (ih _) (.ite (ih _)
          (.after (ih _) fun _ => .pure _))
  exact scan _ _

theorem fsStat_reads (out : Option Inode) : Reads put (fsStat dir name out : PowerM (ℤ × Option Inode))
    (fsStat dir name out) := by
  cases out with
  | none => exact .pure _
  | some out =>
    exact .after (lookup_reads dir name) fun _ => .ite (.pure _)
      (.after (inodeRead_reads _) fun _ => .pure _)

theorem fsGetPwd_reads (fuel : ℕ) (tmp : ℤ → UInt8) :
    Reads put (fsGetPwd fuel dir tmp : PowerM (Option (List UInt8))) (fsGetPwd fuel dir tmp) := by
  have loop (fuel : ℕ) (dir : UInt32) (st : ℤ × (ℤ → UInt8)) :
      Reads put (pwdLoop fuel dir st : PowerM (Option (ℤ × (ℤ → UInt8)))) (pwdLoop fuel dir st) := by
    induction fuel generalizing dir st with
    | zero =>
      unfold pwdLoop
      exact .ite (.pure _) (.pure _)
    | succ fuel ih =>
      unfold pwdLoop
      exact .ite (.pure _) (.after (inodeRead_reads _) fun _ => ih _ _)
  exact .ite (.pure _) (.after (loop _ _ _) fun _ => .pure _)

theorem fsDiskStats_reads (st : Statics) : Reads put (fsDiskStats st : PowerM (UInt32 × UInt32))
    (fsDiskStats st) := by
  have scan (ids : List UInt32) (used : UInt32) :
      Reads put (diskStatsFrom used ids : PowerM UInt32) (diskStatsFrom used ids) := by
    induction ids generalizing used with
    | nil => exact .pure _
    | cons id ids ih => exact .after (inodeRead_reads id) fun _ => .ite (ih _) (ih _)
  exact .after (scan _ _) fun _ => .pure _

end Reading

theorem ataWriteSector_traced (lba : UInt32) (v : Sector) :
    Traced put (ataWriteSector lba v : PowerM ℤ) (ataWriteSector lba v) fun _ => [(lba, v)] :=
  .store fun _ => rfl

/-- The one write of `inode_write`. -/
def inodeWrites (id : UInt32) (v : Inode) (d : Disk) : List SectorWrite :=
  if id = 0 ∨ id > fsMaxInodes then []
  else [(inodeSector id, putSlot (d.sectors (inodeSector id)) (inodeSlot id) v.bytes)]

theorem inodeWrite_traced (id : UInt32) (v : Inode) :
    Traced put (inodeWrite id v : PowerM Unit) (inodeWrite id v) (inodeWrites id v) := by
  unfold inodeWrite inodeWrites
  split_ifs
  · exact .pure _
  · exact .after (ataReadSector_reads _) fun r =>
      (ataWriteSector_traced _ (putSlot r.2 _ _)).bind fun _ => .pure _

/-- The writes of the loop of `fs_write_binary`. -/
def bytesWrites (data : Buffer) (node : Inode) (size : UInt32) :
    List (Fin 4) → UInt32 → List SectorWrite
  | [], _ => []
  | b :: bs, written =>
    (node.blocks b, chunkSector data written (chunkOf (size-written))) ::
      if written+chunkOf (size-written) ≥ size then []
      else bytesWrites data node size bs (written+chunkOf (size-written))

theorem writeBytes_traced (data : Buffer) (node : Inode) (size : UInt32) (bs : List (Fin 4))
    (written : UInt32) : Traced put (writeBytes data node size bs written : PowerM Unit)
      (writeBytes data node size bs written) fun _ => bytesWrites data node size bs written := by
  induction bs generalizing written with
  | nil => exact .pure _
  | cons b bs ih =>
    unfold writeBytes bytesWrites
    dsimp only
    split_ifs
    · exact (ataWriteSector_traced _ _).bind fun _ => .pure _
    · exact (ataWriteSector_traced _ _).bind fun _ => ih _

/-- The writes of the loop of `fs_write`. -/
def textWrites (data : Buffer) (node : Inode) (len : UInt32) :
    List (Fin 4) → UInt32 → List SectorWrite
  | [], _ => []
  | b :: bs, written =>
    if written < len then
      (node.blocks b, chunkSector data written (chunkOf (len-written))) ::
        textWrites data node len bs (written+chunkOf (len-written))
    else []

theorem writeText_traced (data : Buffer) (node : Inode) (len : UInt32) (bs : List (Fin 4))
    (written : UInt32) : Traced put (writeText data node len bs written : PowerM Unit)
      (writeText data node len bs written) fun _ => textWrites data node len bs written := by
  induction bs generalizing written with
  | nil => exact .pure _
  | cons b bs ih =>
    unfold writeText textWrites
    dsimp only
    split_ifs
    · exact (ataWriteSector_traced _ _).bind fun _ => ih _
    · exact .pure _

def blockWrite (data : Buffer) (blocks : Fin 4 → UInt32) (size : ℕ) (b : Fin 4) : SectorWrite :=
  (blocks b, blockSector data size b)

theorem applyAll_blocks (d : Disk) (data : Buffer) (blocks : Fin 4 → UInt32) (size : ℕ)
    (bs : List (Fin 4)) : applyAll put (bs.map (blockWrite data blocks size)) d =
      d.writeBlocks data blocks size bs := by
  rw [applyAll, List.foldl_map]
  rfl

theorem chunk_next {size written : UInt32} {b : Fin 4} (start : written.toNat = 511*b.val)
    (le : 511*b.val ≤ size.toNat) : (written+chunkOf (size-written)).toNat =
      511*b.val+min (size.toNat-511*b.val) 511 := by
  have left : (size-written).toNat = size.toNat-511*b.val := by
    rw [UInt32.toNat_sub_of_le _ _ (by rw [UInt32.le_iff_toNat_le]; omega), start]
  rw [UInt32.toNat_add, chunkOf_toNat, left, start]
  omega

theorem bytesWrites_from (data : Buffer) (node : Inode) {size : UInt32} {bs : List (Fin 4)}
    {j : ℕ} {written : UInt32} (start : written.toNat = 511*j) (inOrder : Consecutive j bs)
    (le : 511*j ≤ size.toNat) (left : ∀ b ∈ bs, j < b.val → 511*b.val < size.toNat) :
    bytesWrites data node size bs written =
      bs.map (blockWrite data node.blocks size.toNat) := by
  induction bs generalizing j written with
  | nil => rfl
  | cons b bs ih =>
    obtain ⟨rfl, rest⟩ := inOrder
    have next := chunk_next start le
    rw [bytesWrites, List.map_cons, chunkSector_eq data start le]
    refine congrArg _ ?_
    cases bs with
    | nil => split_ifs <;> rfl
    | cons c bs =>
      have more := left c (by simp) (by rw [rest.1]; exact Nat.lt_succ_self _)
      have after := rest.1
      rw [if_neg (by rw [ge_iff_le, UInt32.le_iff_toNat_le, next]; omega)]
      refine ih (by rw [next]; omega) rest (by omega) fun e mem lt => ?_
      exact left e (List.mem_cons_of_mem b mem) (by omega)

theorem textWrites_from (data : Buffer) (node : Inode) {len : UInt32} {bs : List (Fin 4)}
    {j : ℕ} {written : UInt32} (start : written.toNat = 511*j) (inOrder : Consecutive j bs)
    (left : ∀ b ∈ bs, 511*b.val < len.toNat) :
    textWrites data node len bs written = bs.map (blockWrite data node.blocks len.toNat) := by
  induction bs generalizing j written with
  | nil => rfl
  | cons b bs ih =>
    obtain ⟨rfl, rest⟩ := inOrder
    have here := left b (by simp)
    have next := chunk_next start here.le
    rw [textWrites, if_pos (by rw [UInt32.lt_iff_toNat_lt]; omega), List.map_cons,
      chunkSector_eq data start here.le]
    refine congrArg _ ?_
    cases bs with
    | nil => rfl
    | cons c bs =>
      have more := left c (by simp)
      have after := rest.1
      exact ih (by rw [next]; omega) rest fun e mem => left e (List.mem_cons_of_mem b mem)

def storeTrace (id : UInt32) (node : Inode) (data : Buffer) (size : UInt32) (bs : List (Fin 4))
    (d : Disk) : List SectorWrite :=
  bs.map (blockWrite data (d.grown node size).blocks size.toNat) ++
    inodeWrites id (d.grown node size)
      (d.writeBlocks data (d.grown node size).blocks size.toNat bs)

def bytesTrace (id : UInt32) (node : Inode) (data : Buffer) (size : UInt32) (d : Disk) :
    List SectorWrite :=
  let node := ((allocBlocks (blockRange (blocksFor size)) node : DiskM Inode).run d).1
  bytesWrites data node size (blockRange (blocksFor size)) 0 ++
    inodeWrites id { node with size := size }
      ((writeBytes data node size (blockRange (blocksFor size)) 0 : DiskM Unit).run d).2

theorem storeBytes_traced (id : UInt32) (node : Inode) (data : Buffer) (size : UInt32) :
    Traced put (storeBytes id node data size : PowerM Unit) (storeBytes id node data size)
      (bytesTrace id node data size) :=
  (allocBlocks_reads (blockRange (blocksFor size)) node).after fun node =>
    (writeBytes_traced data node size (blockRange (blocksFor size)) 0).bind fun _ =>
      inodeWrite_traced id { node with size := size }

theorem bytesTrace_eq (id : UInt32) (node : Inode) (data : Buffer) {size : UInt32}
    (fits : size.toNat ≤ 2044) (d : Disk) : bytesTrace id node data size d =
      storeTrace id node data size (blockRange (blocksFor size)) d := by
  rw [bytesTrace, allocBlocks_run]
  dsimp only
  rw [writeBytes_run _ _ fits]
  refine congrArg (· ++ _) (bytesWrites_from data _ rfl (consecutive_blockRange _) (by simp) ?_)
  intro b mem pos
  exact ((mem_blocksFor fits).mp mem).resolve_left fun zero => by simp [zero] at pos

theorem storeString_traced (id : UInt32) (node : Inode) (data : CString) :
    Traced put (storeString id node data : PowerM Unit) (storeString id node data)
      (storeTrace id node (text data) (textLen data) (textRange (textLen data))) := by
  have steps := (allocBlocks_reads (blockRange (blocksFor (textLen data))) node).after fun node =>
    (writeText_traced (text data) node (textLen data) (blockRange (blocksFor (textLen data)))
      0).bind fun _ => inodeWrite_traced id { node with size := textLen data }
  have length : clampSize (UInt32.ofNat (strlen data.chars)) = textLen data := by
    rw [strlen_chars]
    rfl
  rw [storeString, storeString, length]
  refine steps.congr fun d => ?_
  rw [allocBlocks_run, writeText_run _ _ (textLen_le data)]
  refine congrArg (· ++ _) ?_
  by_cases empty : textLen data = 0
  · rw [empty]
    rfl
  · have range : textRange (textLen data) = blockRange (blocksFor (textLen data)) := if_neg empty
    rw [range]
    refine textWrites_from (text data) _ rfl (consecutive_blockRange _) fun b mem => ?_
    exact (mem_textRange (textLen_le data)).mp (by rwa [range])

def pendingTrace (id : UInt32) : Pending → Disk → List SectorWrite
  | none, _ => []
  | some (node, data, size), d => bytesTrace id node data size d

theorem storePending_traced (id : UInt32) (pending : Pending) :
    Traced put (storePending id pending : PowerM Unit) (storePending id pending)
      (pendingTrace id pending) := by
  match pending with
  | none => exact .pure _
  | some (node, data, size) => exact storeBytes_traced id node data size

def formatWrites : List SectorWrite :=
  (0, freshSuperblock.sector) :: (List.range fsInodeTableSectors).map fun s =>
    (fsInodeTableStart+UInt32.ofNat s, emptySector)

theorem fsFormat_traced : Traced put (fsFormat : PowerM Statics) fsFormat fun _ => formatWrites := by
  have table (l : List ℕ) : Traced put
      (l.forM fun s => do
        let _ ← ataWriteSector (fsInodeTableStart+UInt32.ofNat s) emptySector : PowerM PUnit)
      (l.forM fun s => do
        let _ ← ataWriteSector (fsInodeTableStart+UInt32.ofNat s) emptySector : DiskM PUnit)
      fun _ => l.map fun s => (fsInodeTableStart+UInt32.ofNat s, emptySector) := by
    induction l with
    | nil => exact .pure _
    | cons s l ih =>
      exact ((ataWriteSector_traced _ _).bind fun _ => .pure _).bind fun _ => ih
  have steps := (ataWriteSector_traced 0 freshSuperblock.sector).bind fun _ =>
    (table (List.range fsInodeTableSectors)).bind fun _ =>
      Traced.pure (Statics.mk 0 freshSuperblock.totalSectors)
  exact steps.congr fun d => by rw [List.append_nil]; rfl

theorem checkFile_run (dir : UInt32) (name : CString) (d : Disk) :
    (checkFile dir name : DiskM (Except ℤ (UInt32 × Inode))).run d =
      (if d.lookup name dir = 0 then .error (-1)
        else if (d.inode (d.lookup name dir)).isDirectory ≠ 0 then .error (-2)
        else .ok (d.lookup name dir, d.inode (d.lookup name dir)), d) := by
  simp only [checkFile, bind_run, lookup_run, ite_run, inodeRead_run, pure_run]
  split_ifs <;> rfl

theorem checkSized_run (dir : UInt32) (name : CString) (size : UInt32) (d : Disk) :
    (checkSized dir name size : DiskM (Except ℤ (UInt32 × Inode))).run d =
      (if d.lookup name dir = 0 then .error (-1)
        else if (d.inode (d.lookup name dir)).isDirectory ≠ 0 then .error (-2)
        else if size > fsMaxBlocks*511 then .error (-3)
        else .ok (d.lookup name dir, d.inode (d.lookup name dir)), d) := by
  simp only [checkSized, bind_run, lookup_run, ite_run, inodeRead_run, pure_run]
  split_ifs <;> rfl

theorem checkAppend_run (dir : UInt32) (scratch : Buffer) (name data : CString) (d : Disk) :
    (checkAppend dir scratch name data : DiskM (Except ℤ (UInt32 × Pending))).run d =
      (if d.lookup name dir = 0 then .error (-1)
        else
          let node := d.inode (d.lookup name dir)
          if node.isDirectory ≠ 0 then .error (-2)
          else if appendSize node.size data-node.size = 0 then .ok (d.lookup name dir, none)
          else .ok (d.lookup name dir,
            some (node, d.appended node scratch data, appendSize node.size data)), d) := by
  have fits : ¬clampSize ((d.inode (d.lookup name dir)).size+UInt32.ofNat data.chars.length) >
      fsMaxBlocks*511 := by
    rw [gt_iff_lt, UInt32.lt_iff_toNat_lt, maxSize_toNat, clampSize_toNat]
    omega
  simp only [checkAppend, bind_run, lookup_run, ite_run, inodeRead_run, pure_run, strlen_chars,
    readBlocks_run, checkSized_run, fits, ↓reduceIte]
  split_ifs <;> first | rfl | contradiction

/-- The disk after the first `n` blocks of a write that has not come to its inode. -/
def Transfer.torn (tr : Transfer) (d : Disk) (n : ℕ) : Disk :=
  d.writeBlocks tr.data (d.grown (d.inode tr.id) tr.size).blocks tr.size.toNat (tr.slots.take n)

inductive Crashed (s : Fs) (op : FsOp) (d : Disk) : Prop where
  | before (disk : d = s.disk) : Crashed s op d
  | done (disk : d = (exec op s).2.disk) : Crashed s op d
  | torn {tr : Transfer} (n : ℕ) (busy : s.transfer op = some tr) (disk : d = tr.torn s.disk n) :
      Crashed s op d
  | wiped (n : ℕ) (isFormat : op = .format)
      (disk : d = applyAll put (formatWrites.take (n+1)) s.disk) : Crashed s op d

variable {s : Fs} {op : FsOp} {tr : Transfer} {w : Disk → List SectorWrite}

theorem crashed_once
    (h : Traced put (perform s.statics op : PowerM Unit) (perform s.statics op) w)
    (once : (w s.disk).length ≤ 1)
    (result : ((perform s.statics op : DiskM Unit).run s.disk).2 = (exec op s).2.disk) (n : ℕ) :
    Crashed s op (crash s op n) := by
  rcases h.atomic once n with old | new
  · exact .before old
  · exact .done (new.trans result)

theorem storeTrace_take (id : UInt32) (node : Inode) (data : Buffer) (size : UInt32)
    (bs : List (Fin 4)) (d : Disk) (n : ℕ) :
    applyAll put ((storeTrace id node data size bs d).take n) d =
        d.writeBlocks data (d.grown node size).blocks size.toNat (bs.take n) ∨
      (storeTrace id node data size bs d).take n = storeTrace id node data size bs d := by
  rcases Nat.lt_or_ge bs.length n with late | early
  · right
    refine List.take_of_length_le ?_
    rw [storeTrace, List.length_append, List.length_map, inodeWrites]
    split_ifs
    · exact late.le
    · exact late
  · left
    rw [storeTrace, List.take_append_of_le_length (by rwa [List.length_map]), ← List.map_take,
      applyAll_blocks]

theorem crashed_store
    (h : Traced put (perform s.statics op : PowerM Unit) (perform s.statics op) w)
    (busy : s.transfer op = some tr)
    (writes : w s.disk = storeTrace tr.id (s.inode tr.id) tr.data tr.size tr.slots s.disk)
    (result : ((perform s.statics op : DiskM Unit).run s.disk).2 = (exec op s).2.disk) (n : ℕ) :
    Crashed s op (crash s op n) := by
  have left := h.left_state s.disk n
  rw [writes] at left
  rcases storeTrace_take tr.id (s.inode tr.id) tr.data tr.size tr.slots s.disk n with torn | whole
  · exact .torn n busy (left.trans torn)
  · refine .done (left.trans ?_)
    rw [whole, ← writes, ← h.final]
    exact result

end TinyOS.NanoFS
