import TinyOS.NanoFSTransfer
import TinyOS.StateRuns

set_option autoImplicit false

namespace TinyOS.NanoFS
open ByteWords LibcString

def Disk.grown (d : Disk) (node : Inode) (size : UInt32) : Inode :=
  { node with blocks := d.fill node (blockRange (blocksFor size)), size := size }

def Disk.store (d : Disk) (id : UInt32) (data : Buffer) (size : UInt32) (bs : List (Fin 4)) : Disk :=
  (d.writeBlocks data (d.grown (d.inode id) size).blocks size.toNat bs).putInode id
    (d.grown (d.inode id) size)

def newFile (dir : UInt32) (name : CString) (block : UInt32) : Inode :=
  { Inode.zero.setName name with
    parent := dir, blocks := Function.update (fun _ => 0) 0 block }

def newDir (dir : UInt32) (name : CString) : Inode :=
  { Inode.zero.setName name with parent := dir, isDirectory := 1 }

theorem ite_run {α : Type} (c : Prop) [Decidable c] (x y : DiskM α) (d : Disk) :
    (if c then x else y).run d = if c then x.run d else y.run d := by
  split_ifs <;> rfl

section Equations

variable (dir : UInt32) (name : CString) (d : Disk)

theorem fsCreate_run : (fsCreate dir (some name) : DiskM ℤ).run d =
    if d.lookup name dir ≠ 0 then (-1, d)
    else if d.freeInode = 0 then (-2, d)
    else (0, d.putInode d.freeInode (newFile dir name (d.highest+1))) := by
  simp only [fsCreate, bind_run, lookup_run, ite_run, inodeAlloc_run, blockAlloc_run,
    inodeWrite_run, pure_run]
  rfl

theorem fsMkdir_run : (fsMkdir dir name : DiskM ℤ).run d =
    if d.lookup name dir ≠ 0 then (-1, d)
    else if d.freeInode = 0 then (-2, d)
    else (0, d.putInode d.freeInode (newDir dir name)) := by
  simp only [fsMkdir, bind_run, lookup_run, ite_run, inodeAlloc_run, inodeWrite_run, pure_run]
  rfl

theorem fsDelete_run : (fsDelete dir name : DiskM ℤ).run d =
    if d.lookup name dir = 0 then (-1, d)
    else (0, d.putInode (d.lookup name dir) Inode.zero) := by
  simp only [fsDelete, bind_run, lookup_run, ite_run, inodeWrite_run, pure_run]

theorem fsRename_run (newName : CString) : (fsRename dir name newName : DiskM ℤ).run d =
    if d.lookup name dir = 0 then (-1, d)
    else if d.lookup newName dir ≠ 0 then (-2, d)
    else (0, d.putInode (d.lookup name dir) ((d.inode (d.lookup name dir)).setName newName)) := by
  simp only [fsRename, bind_run, lookup_run, ite_run, inodeRead_run, inodeWrite_run, pure_run]

theorem fsStat_run (out : Inode) : (fsStat dir name (some out) : DiskM (ℤ × Option Inode)).run d =
    if d.lookup name dir = 0 then ((-1, some out), d)
    else ((0, some (d.inode (d.lookup name dir))), d) := by
  simp only [fsStat, bind_run, lookup_run, ite_run, inodeRead_run, pure_run]

theorem fsChangeDir_run : (fsChangeDir dir name : DiskM (ℤ × UInt32)).run d =
    if name.chars = [47] then ((0, 0), d)
    else if name.chars = [46, 46] then
      if dir ≠ 0 then ((0, (d.inode dir).parent), d) else ((0, dir), d)
    else if name.chars = [46] then ((0, dir), d)
    else if d.lookup name dir = 0 then ((-1, dir), d)
    else if (d.inode (d.lookup name dir)).isDirectory = 0 then ((-2, dir), d)
    else ((0, d.lookup name dir), d) := by
  simp only [fsChangeDir, bind_run, lookup_run, ite_run, inodeRead_run, pure_run]

theorem maxSize_toNat : (fsMaxBlocks*511).toNat = 2044 := rfl

theorem fsWriteBinary_run (data : Buffer) (size : UInt32) :
    (fsWriteBinary dir (some name) (some data) size : DiskM ℤ).run d =
      if d.lookup name dir = 0 then (-1, d)
      else if (d.inode (d.lookup name dir)).isDirectory ≠ 0 then (-2, d)
      else if size > fsMaxBlocks*511 then (-3, d)
      else (0, d.store (d.lookup name dir) data size (blockRange (blocksFor size))) := by
  simp only [fsWriteBinary, bind_run, lookup_run, ite_run, inodeRead_run, pure_run,
    allocBlocks_run, inodeWrite_run]
  split_ifs with h1 h2 h3
  · rfl
  · rfl
  · rfl
  · have hs : size.toNat ≤ 2044 := by
      rw [gt_iff_lt, UInt32.lt_iff_toNat_lt, maxSize_toNat] at h3
      omega
    rw [writeBytes_run _ _ hs]
    rfl

theorem clampSize_toNat (n : UInt32) : (clampSize n).toNat = min n.toNat 2044 := by
  unfold clampSize
  split_ifs with h
  all_goals rw [gt_iff_lt, UInt32.lt_iff_toNat_lt, maxSize_toNat] at h
  · rw [maxSize_toNat]; omega
  · omega

/-- `len` in `fs_write` -/
def textLen (data : CString) : UInt32 := clampSize (UInt32.ofNat data.chars.length)

theorem textLen_le (data : CString) : (textLen data).toNat ≤ 2044 := by
  rw [textLen, clampSize_toNat]
  omega

theorem fsWrite_run (data : CString) : (fsWrite dir (some name) (some data) : DiskM ℤ).run d =
    if d.lookup name dir = 0 then (-1, d)
    else if (d.inode (d.lookup name dir)).isDirectory ≠ 0 then (-2, d)
    else (0, d.store (d.lookup name dir) (text data) (textLen data) (textRange (textLen data))) := by
  simp only [fsWrite, bind_run, lookup_run, ite_run, inodeRead_run, pure_run, allocBlocks_run,
    inodeWrite_run, strlen_chars]
  split_ifs with h1 h2
  · rfl
  · rfl
  · rw [← textLen, writeText_run _ _ (textLen_le data)]
    rfl

/-- `new_size` in `fs_append` -/
def appendSize (size : UInt32) (data : CString) : UInt32 :=
  clampSize (size+UInt32.ofNat data.chars.length)

theorem appendSize_le (size : UInt32) (data : CString) : (appendSize size data).toNat ≤ 2044 := by
  rw [appendSize, clampSize_toNat]
  omega

/-- What `fs_append` hands to `fs_write_binary`: the old content, then the text. -/
def Disk.appended (d : Disk) (node : Inode) (scratch : Buffer) (data : CString) : Buffer :=
  storeText (d.readInto node node.size.toNat scratch) node.size
    (appendSize node.size data-node.size) (text data)

theorem fsAppend_run (scratch : Buffer) (data : CString) :
    (fsAppend dir scratch (some name) (some data) : DiskM ℤ).run d =
      if d.lookup name dir = 0 then (-1, d)
      else if (d.inode (d.lookup name dir)).isDirectory ≠ 0 then (-2, d)
      else if appendSize (d.inode (d.lookup name dir)).size data-
        (d.inode (d.lookup name dir)).size = 0 then (0, d)
      else (0, d.store (d.lookup name dir)
        (d.appended (d.inode (d.lookup name dir)) scratch data)
        (appendSize (d.inode (d.lookup name dir)).size data)
        (blockRange (blocksFor (appendSize (d.inode (d.lookup name dir)).size data)))) := by
  have hn : ¬clampSize ((d.inode (d.lookup name dir)).size+UInt32.ofNat data.chars.length) >
      fsMaxBlocks*511 := by
    rw [gt_iff_lt, UInt32.lt_iff_toNat_lt, maxSize_toNat, clampSize_toNat]
    omega
  simp only [fsAppend, bind_run, lookup_run, ite_run, inodeRead_run, pure_run, strlen_chars,
    readBlocks_run, fsWriteBinary_run, hn, ↓reduceIte]
  split_ifs <;> first | rfl | contradiction

theorem readNode_run (node : Inode) (buffer : Buffer) (bufSize : UInt32) :
    (readNode node buffer bufSize : DiskM (ℤ × Buffer)).run d =
      if node.isDirectory ≠ 0 then (((-2 : ℤ), buffer), d)
      else ((((node.extent (min node.size.toNat bufSize.toNat) : ℕ) : ℤ),
        d.readInto node (min node.size.toNat bufSize.toNat) buffer), d) := by
  simp only [readNode, ite_run, bind_run, readBlocks_run, pure_run]
  have hm : (if node.size > bufSize then bufSize else node.size).toNat =
      min node.size.toNat bufSize.toNat := by
    simp only [gt_iff_lt, UInt32.lt_iff_toNat_lt]
    split_ifs <;> omega
  have he := extent_le node (min node.size.toNat bufSize.toNat)
  rw [hm, UInt32.toNat_ofNat_of_lt' (by change _ < 4294967296; omega)]

theorem fsRead_run (buffer : Buffer) (bufSize : UInt32) :
    (fsRead dir (some name) (some buffer) bufSize : DiskM (ℤ × Option Buffer)).run d =
      if d.lookup name dir = 0 then (((-1 : ℤ), some buffer), d)
      else if (d.inode (d.lookup name dir)).isDirectory ≠ 0 then ((-2, some buffer), d)
      else
        let node := d.inode (d.lookup name dir)
        let toRead := min node.size.toNat bufSize.toNat
        ((((node.extent toRead : ℕ) : ℤ), some (d.readInto node toRead buffer)), d) := by
  simp only [fsRead, bind_run, lookup_run, ite_run, inodeRead_run, pure_run, readNode_run]
  split_ifs <;> rfl

end Equations

end TinyOS.NanoFS
