import TinyOS.NanoFSBlocks
import TinyOS.FaultyRuns

set_option autoImplicit false

namespace TinyOS.NanoFS
open ByteWords LibcString FaultyRuns

section Code

variable {m : Type → Type} [Monad m] [Ata m]

def mutate (currentDir : UInt32) : FsOp → m ℤ
  | .create name => fsCreate currentDir name
  | .write name data => fsWrite currentDir name data
  | .writeBinary name data size => fsWriteBinary currentDir name data size
  | .append scratch name data => fsAppend currentDir scratch name data
  | .delete name => fsDelete currentDir name
  | .rename oldName newName => fsRename currentDir oldName newName
  | .mkdir name => fsMkdir currentDir name
  | _ => pure 0

/-- `fs_create` and `fs_mkdir`: the name is new and there is a free inode. -/
def checkNew (currentDir : UInt32) (name : CString) : m (Except ℤ UInt32) := do
  let old ← lookup name currentDir
  if old ≠ 0 then pure (.error (-1))
  else
    let id ← inodeAlloc
    if id = 0 then pure (.error (-2)) else pure (.ok id)

def checkFound (currentDir : UInt32) (name : CString) : m (Except ℤ UInt32) := do
  let id ← lookup name currentDir
  if id = 0 then pure (.error (-1)) else pure (.ok id)

def checkRename (currentDir : UInt32) (oldName newName : CString) : m (Except ℤ UInt32) := do
  let id ← lookup oldName currentDir
  if id = 0 then pure (.error (-1))
  else
    let taken ← lookup newName currentDir
    if taken ≠ 0 then pure (.error (-2)) else pure (.ok id)

def checkFile (currentDir : UInt32) (name : CString) : m (Except ℤ (UInt32 × Inode)) := do
  let id ← lookup name currentDir
  if id = 0 then pure (.error (-1))
  else
    let node ← inodeRead id
    if node.isDirectory ≠ 0 then pure (.error (-2)) else pure (.ok (id, node))

def checkSized (currentDir : UInt32) (name : CString) (size : UInt32) :
    m (Except ℤ (UInt32 × Inode)) := do
  let id ← lookup name currentDir
  if id = 0 then pure (.error (-1))
  else
    let node ← inodeRead id
    if node.isDirectory ≠ 0 then pure (.error (-2))
    else if size > fsMaxBlocks*511 then pure (.error (-3))
    else pure (.ok (id, node))

/-- What is left to write: nothing, or a content for an inode as read the second time. -/
abbrev Pending := Option (Inode × Buffer × UInt32)

/-- `fs_append` up to the checks that `fs_write_binary` makes for it. -/
def checkAppend (currentDir : UInt32) (scratch : Buffer) (name data : CString) :
    m (Except ℤ (UInt32 × Pending)) := do
  let id ← lookup name currentDir
  if id = 0 then pure (.error (-1))
  else
    let node ← inodeRead id
    if node.isDirectory ≠ 0 then pure (.error (-2))
    else
      let newSize := clampSize (node.size+UInt32.ofNat (strlen data.chars))
      let extra := newSize-node.size
      if extra = 0 then pure (.ok (id, none))
      else
        let r ← readBlocks node node.size (blockRange fsMaxBlocks) 0 scratch
        let v ← checkSized currentDir name newSize
        pure (v.map fun f => (f.1, some (f.2, storeText r.2 node.size extra (text data), newSize)))

def storeBytes (id : UInt32) (node : Inode) (data : Buffer) (size : UInt32) : m Unit := do
  let node ← allocBlocks (blockRange (blocksFor size)) node
  writeBytes data node size (blockRange (blocksFor size)) 0
  inodeWrite id { node with size := size }

def storeString (id : UInt32) (node : Inode) (data : CString) : m Unit := do
  let len := clampSize (UInt32.ofNat (strlen data.chars))
  let node ← allocBlocks (blockRange (blocksFor len)) node
  writeText (text data) node len (blockRange (blocksFor len)) 0
  inodeWrite id { node with size := len }

def storePending (id : UInt32) : Pending → m Unit
  | none => pure ()
  | some (node, data, size) => storeBytes id node data size

/-- The inode that a call is going to write, or the error it refuses with. -/
def verdict (currentDir : UInt32) : FsOp → m (Except ℤ UInt32)
  | .create (some name) | .mkdir name => checkNew currentDir name
  | .delete name => checkFound currentDir name
  | .rename oldName newName => checkRename currentDir oldName newName
  | .write (some name) (some _) => do
    let v ← checkFile currentDir name
    pure (v.map Prod.fst)
  | .writeBinary (some name) (some _) size => do
    let v ← checkSized currentDir name size
    pure (v.map Prod.fst)
  | .append scratch (some name) (some data) => do
    let v ← checkAppend currentDir scratch name data
    pure (v.map Prod.fst)
  | _ => pure (.error (-1))

end Code

section Equations

theorem ite_bind {m : Type → Type} [Monad m] {α β : Type} (c : Prop) [Decidable c] (x y : m α) (f : α → m β) :
    (if c then x else y) >>= f = if c then x >>= f else y >>= f := by
  split_ifs <;> rfl

variable {m : Type → Type} [Monad m] [LawfulMonad m] [Ata m]

theorem fsCreate_guarded (dir : UInt32) (name : CString) :
    (fsCreate dir (some name) : m ℤ) = guarded 0 (checkNew dir name) fun id =>
      blockAlloc >>= fun block => inodeWrite id (newFile dir name block) := by
  simp only [fsCreate, guarded, checkNew, bind_assoc, ite_bind, pure_bind]
  rfl

theorem fsMkdir_guarded (dir : UInt32) (name : CString) :
    (fsMkdir dir name : m ℤ) = guarded 0 (checkNew dir name) fun id =>
      inodeWrite id (newDir dir name) := by
  simp only [fsMkdir, guarded, checkNew, bind_assoc, ite_bind, pure_bind]
  rfl

theorem fsDelete_guarded (dir : UInt32) (name : CString) :
    (fsDelete dir name : m ℤ) = guarded 0 (checkFound dir name) fun id =>
      inodeWrite id Inode.zero := by
  simp only [fsDelete, guarded, checkFound, bind_assoc, ite_bind, pure_bind]

theorem fsRename_guarded (dir : UInt32) (oldName newName : CString) :
    (fsRename dir oldName newName : m ℤ) = guarded 0 (checkRename dir oldName newName) fun id =>
      inodeRead id >>= fun node => inodeWrite id (node.setName newName) := by
  simp only [fsRename, guarded, checkRename, bind_assoc, ite_bind, pure_bind]

theorem fsWrite_guarded (dir : UInt32) (name data : CString) :
    (fsWrite dir (some name) (some data) : m ℤ) = guarded 0 (checkFile dir name) fun f =>
      storeString f.1 f.2 data := by
  simp only [fsWrite, guarded, checkFile, storeString, bind_assoc, ite_bind, pure_bind]

theorem fsWriteBinary_guarded (dir : UInt32) (name : CString) (data : Buffer) (size : UInt32) :
    (fsWriteBinary dir (some name) (some data) size : m ℤ) =
      guarded 0 (checkSized dir name size) fun f => storeBytes f.1 f.2 data size := by
  simp only [fsWriteBinary, guarded, checkSized, storeBytes, bind_assoc, ite_bind, pure_bind]

theorem fsAppend_guarded (dir : UInt32) (scratch : Buffer) (name data : CString) :
    (fsAppend dir scratch (some name) (some data) : m ℤ) =
      guarded 0 (checkAppend dir scratch name data) fun f => storePending f.1 f.2 := by
  have hn (node : Inode) : ¬clampSize (node.size+UInt32.ofNat (strlen data.chars)) >
      fsMaxBlocks*511 := by
    rw [gt_iff_lt, UInt32.lt_iff_toNat_lt, maxSize_toNat, clampSize_toNat]
    omega
  simp only [fsAppend, guarded, checkAppend, checkSized, fsWriteBinary, storePending, storeBytes,
    bind_assoc, ite_bind, pure_bind, hn, ↓reduceIte, Except.map]

end Equations

end TinyOS.NanoFS
