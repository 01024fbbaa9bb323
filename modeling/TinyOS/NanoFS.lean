import TinyOS.NanoFSLayout

set_option autoImplicit false

/-! fs/fs.c over any disk driver. The two static variables are passed in and, by
the functions that assign them, handed back. -/
namespace TinyOS.NanoFS
open ByteWords LibcString

/-- The driver calls of fs.c. A read hands back its result and what the caller's
buffer then holds. -/
class Ata (m : Type → Type) where
  ataReadSector : UInt32 → m (ℤ × Sector)
  ataWriteSector : UInt32 → Sector → m ℤ

export Ata (ataReadSector ataWriteSector)

/-- `current_dir` and `mounted_total_sectors` -/
structure Statics where
  currentDir : UInt32
  mountedTotalSectors : UInt32
  deriving DecidableEq

abbrev Buffer := ℕ → UInt8

section Code

variable {m : Type → Type} [Monad m] [Ata m]

def inodeSector (id : UInt32) : UInt32 := fsInodeTableStart+(id-1)/9

def inodeSlot (id : UInt32) : Fin 9 := Fin.ofNat 9 (id-1).toNat

theorem inode_fit : 9*54 ≤ 512 := by decide

def inodeRead (id : UInt32) : m Inode :=
  if id = 0 ∨ id > fsMaxInodes then pure Inode.zero
  else do
    let r ← ataReadSector (inodeSector id)
    pure (Inode.ofBytes (getSlot inode_fit r.2 (inodeSlot id)))

def inodeWrite (id : UInt32) (v : Inode) : m Unit :=
  if id = 0 ∨ id > fsMaxInodes then pure ()
  else do
    let r ← ataReadSector (inodeSector id)
    let _ ← ataWriteSector (inodeSector id) (putSlot r.2 (inodeSlot id) v.bytes)
    pure ()

/-- `for (id = 1; id <= FS_MAX_INODES; id++)` -/
def inodeIds : List UInt32 := (List.range 72).map fun i => UInt32.ofNat (i+1)

def inodeAllocFrom : List UInt32 → m UInt32
  | [] => pure 0
  | id :: ids => do
    let node ← inodeRead id
    if node.name 0 = 0 then pure id else inodeAllocFrom ids

def inodeAlloc : m UInt32 := inodeAllocFrom inodeIds

/-- The inner loop of `block_alloc`. -/
def raise (highest : UInt32) (node : Inode) : UInt32 :=
  (List.finRange 4).foldl (fun h b => if node.blocks b > h then node.blocks b else h) highest

def blockAllocFrom (highest : UInt32) : List UInt32 → m UInt32
  | [] => pure (highest+1)
  | id :: ids => do
    let node ← inodeRead id
    if node.name 0 = 0 then blockAllocFrom highest ids
    else blockAllocFrom (raise highest node) ids

def blockAlloc : m UInt32 := blockAllocFrom (fsDataStart-1) inodeIds

def lookupFrom (name : CString) (parentDir : UInt32) : List UInt32 → m UInt32
  | [] => pure 0
  | id :: ids => do
    let node ← inodeRead id
    if node.name 0 = 0 then lookupFrom name parentDir ids
    else if node.parent ≠ parentDir then lookupFrom name parentDir ids
    else if strcmp node.nameStr name.chars = 0 then pure id
    else lookupFrom name parentDir ids

def lookup (name : CString) (parentDir : UInt32) : m UInt32 :=
  lookupFrom name parentDir inodeIds

def freshSuperblock : Superblock where
  magic i := (strncpy fsMagic 8).getD i 0
  version := fsVersion
  totalSectors := 131072
  inodeCount := 0

def fsFormat : m Statics := do
  let _ ← ataWriteSector 0 freshSuperblock.sector
  (List.range fsInodeTableSectors).forM fun s => do
    let _ ← ataWriteSector (fsInodeTableStart+UInt32.ofNat s) emptySector
  pure ⟨0, freshSuperblock.totalSectors⟩

def fsMount (st : Statics) : m (ℤ × Statics) := do
  let r ← ataReadSector 0
  if r.1 ≠ 0 then pure (0, st)
  else
    let sb := Superblock.ofSector r.2
    if strcmp (List.ofFn r.2) fsMagic ≠ 0 then pure (0, st)
    else if sb.version ≠ fsVersion then pure (0, st)
    else pure (1, ⟨0, sb.totalSectors⟩)

def fsCreate (currentDir : UInt32) : Option CString → m ℤ
  | none => pure (-1)
  | some name => do
    let old ← lookup name currentDir
    if old ≠ 0 then pure (-1)
    else
      let id ← inodeAlloc
      if id = 0 then pure (-2)
      else
        let block ← blockAlloc
        inodeWrite id { Inode.zero.setName name with
          parent := currentDir, blocks := Function.update (fun _ => 0) 0 block }
        pure 0

/-- `for (b = 0; b < n; b++)` over the block slots of an inode. -/
def blockRange (n : UInt32) : List (Fin 4) := (List.finRange 4).take n.toNat

def allocBlocks : List (Fin 4) → Inode → m Inode
  | [], node => pure node
  | b :: bs, node =>
    if node.blocks b = 0 then do
      let block ← blockAlloc
      allocBlocks bs { node with blocks := Function.update node.blocks b block }
    else allocBlocks bs node

/-- `if (chunk > 511) chunk = 511` -/
def chunkOf (rest : UInt32) : UInt32 := if rest > 511 then 511 else rest

/-- A zeroed sector buffer with `chunk` bytes of `data` from `written` on. -/
def chunkSector (data : Buffer) (written chunk : UInt32) : Sector := fun j =>
  if j.val < chunk.toNat then data (written.toNat+j) else 0

def blocksFor (size : UInt32) : UInt32 :=
  if (size+510)/511 < 1 then 1 else (size+510)/511

def writeText (data : Buffer) (node : Inode) (len : UInt32) : List (Fin 4) → UInt32 → m Unit
  | [], _ => pure ()
  | b :: bs, written =>
    if written < len then do
      let chunk := chunkOf (len-written)
      let _ ← ataWriteSector (node.blocks b) (chunkSector data written chunk)
      writeText data node len bs (written+chunk)
    else pure ()

def text (s : CString) : Buffer := fun i => s.chars.getD i 0

/-- `if (len > max_size) len = max_size` -/
def clampSize (n : UInt32) : UInt32 := if n > fsMaxBlocks*511 then fsMaxBlocks*511 else n

def fsWrite (currentDir : UInt32) : Option CString → Option CString → m ℤ
  | some name, some data => do
    let id ← lookup name currentDir
    if id = 0 then pure (-1)
    else
      let node ← inodeRead id
      if node.isDirectory ≠ 0 then pure (-2)
      else
        let len := clampSize (UInt32.ofNat (strlen data.chars))
        let node ← allocBlocks (blockRange (blocksFor len)) node
        writeText (text data) node len (blockRange (blocksFor len)) 0
        inodeWrite id { node with size := len }
        pure 0
  | _, _ => pure (-1)

def writeBytes (data : Buffer) (node : Inode) (size : UInt32) : List (Fin 4) → UInt32 → m Unit
  | [], _ => pure ()
  | b :: bs, written => do
    let chunk := chunkOf (size-written)
    let _ ← ataWriteSector (node.blocks b) (chunkSector data written chunk)
    if written+chunk ≥ size then pure ()
    else writeBytes data node size bs (written+chunk)

def fsWriteBinary (currentDir : UInt32) : Option CString → Option Buffer → UInt32 → m ℤ
  | some name, some data, size => do
    let id ← lookup name currentDir
    if id = 0 then pure (-1)
    else
      let node ← inodeRead id
      if node.isDirectory ≠ 0 then pure (-2)
      else if size > fsMaxBlocks*511 then pure (-3)
      else
        let node ← allocBlocks (blockRange (blocksFor size)) node
        writeBytes data node size (blockRange (blocksFor size)) 0
        inodeWrite id { node with size := size }
        pure 0
  | _, _, _ => pure (-1)

def storeChunk (buffer : Buffer) (pos chunk : UInt32) (sector : Sector) : Buffer := fun k =>
  if pos.toNat ≤ k ∧ k < pos.toNat+chunk.toNat then cell sector (k-pos.toNat) else buffer k

/-- The block loop that `fs_read` and `fs_append` share; a missing block ends it. -/
def readBlocks (node : Inode) (toRead : UInt32) :
    List (Fin 4) → UInt32 → Buffer → m (UInt32 × Buffer)
  | [], pos, buffer => pure (pos, buffer)
  | b :: bs, pos, buffer =>
    if pos < toRead then
      if node.blocks b = 0 then pure (pos, buffer)
      else do
        let r ← ataReadSector (node.blocks b)
        let chunk := chunkOf (toRead-pos)
        readBlocks node toRead bs (pos+chunk) (storeChunk buffer pos chunk r.2)
    else pure (pos, buffer)

/-- What `fs_read` does once the name has been found. -/
def readNode (node : Inode) (buffer : Buffer) (bufSize : UInt32) : m (ℤ × Buffer) :=
  if node.isDirectory ≠ 0 then pure (-2, buffer)
  else do
    let toRead := if node.size > bufSize then bufSize else node.size
    let r ← readBlocks node toRead (blockRange fsMaxBlocks) 0 buffer
    pure (r.1.toNat, r.2)

def fsRead (currentDir : UInt32) :
    Option CString → Option Buffer → UInt32 → m (ℤ × Option Buffer)
  | some name, some buffer, bufSize => do
    let id ← lookup name currentDir
    if id = 0 then pure (-1, some buffer)
    else
      let node ← inodeRead id
      let r ← readNode node buffer bufSize
      pure (r.1, some r.2)
  | _, buffer, _ => pure (-1, buffer)

/-- The copy loop of `fs_append`: index `size+i` is a 32-bit sum. -/
def storeText (scratch : Buffer) (size extra : UInt32) (data : Buffer) : Buffer := fun k =>
  if UInt32.ofNat k-size < extra then data (UInt32.ofNat k-size).toNat else scratch k

/-- `scratch` is what the uninitialised stack buffer of that name holds. -/
def fsAppend (currentDir : UInt32) (scratch : Buffer) : Option CString → Option CString → m ℤ
  | some name, some data => do
    let id ← lookup name currentDir
    if id = 0 then pure (-1)
    else
      let node ← inodeRead id
      if node.isDirectory ≠ 0 then pure (-2)
      else
        let newSize := clampSize (node.size+UInt32.ofNat (strlen data.chars))
        let extra := newSize-node.size
        if extra = 0 then pure 0
        else
          let r ← readBlocks node node.size (blockRange fsMaxBlocks) 0 scratch
          fsWriteBinary currentDir (some name)
            (some (storeText r.2 node.size extra (text data))) newSize
  | _, _ => pure (-1)

def fsDelete (currentDir : UInt32) (name : CString) : m ℤ := do
  let id ← lookup name currentDir
  if id = 0 then pure (-1)
  else
    inodeWrite id Inode.zero
    pure 0

def fsRename (currentDir : UInt32) (oldName newName : CString) : m ℤ := do
  let id ← lookup oldName currentDir
  if id = 0 then pure (-1)
  else
    let taken ← lookup newName currentDir
    if taken ≠ 0 then pure (-2)
    else
      let node ← inodeRead id
      inodeWrite id (node.setName newName)
      pure 0

def fsMkdir (currentDir : UInt32) (name : CString) : m ℤ := do
  let old ← lookup name currentDir
  if old ≠ 0 then pure (-1)
  else
    let id ← inodeAlloc
    if id = 0 then pure (-2)
    else
      inodeWrite id { Inode.zero.setName name with parent := currentDir, isDirectory := 1 }
      pure 0

/-- The result and the new `current_dir`. The names are "/", ".." and ".". -/
def fsChangeDir (currentDir : UInt32) (name : CString) : m (ℤ × UInt32) :=
  if name.chars = [47] then pure (0, 0)
  else if name.chars = [46, 46] then
    if currentDir ≠ 0 then do
      let node ← inodeRead currentDir
      pure (0, node.parent)
    else pure (0, currentDir)
  else if name.chars = [46] then pure (0, currentDir)
  else do
    let id ← lookup name currentDir
    if id = 0 then pure (-1, currentDir)
    else
      let node ← inodeRead id
      if node.isDirectory = 0 then pure (-2, currentDir) else pure (0, id)

def fsListFrom (currentDir : UInt32) : List UInt32 → ℕ → m (List Inode)
  | [], _ => pure []
  | _ :: _, 0 => pure []
  | id :: ids, room+1 => do
    let node ← inodeRead id
    if node.name 0 = 0 then fsListFrom currentDir ids (room+1)
    else if node.parent ≠ currentDir then fsListFrom currentDir ids (room+1)
    else
      let rest ← fsListFrom currentDir ids room
      pure (node :: rest)

def fsList (currentDir : UInt32) (maxOut : ℕ) : m (List Inode) :=
  fsListFrom currentDir inodeIds maxOut

def fsStat (currentDir : UInt32) (name : CString) : Option Inode → m (ℤ × Option Inode)
  | none => pure (-1, none)
  | some out => do
    let id ← lookup name currentDir
    if id = 0 then pure (-1, some out)
    else
      let node ← inodeRead id
      pure (0, some node)

/-- `tmp[--pos] = c`. The index is unchecked, so it may leave the array. -/
def pushChar (c : UInt8) (st : ℤ × (ℤ → UInt8)) : ℤ × (ℤ → UInt8) :=
  (st.1-1, Function.update st.2 (st.1-1) c)

/-- One turn of the path loop: the name from its last character on, then '/'. -/
def pushName (name : List UInt8) (st : ℤ × (ℤ → UInt8)) : ℤ × (ℤ → UInt8) :=
  pushChar 47 (name.foldr pushChar st)

/-- `while (dir != 0)`, given up after `fuel` turns. -/
def pwdLoop : ℕ → UInt32 → ℤ × (ℤ → UInt8) → m (Option (ℤ × (ℤ → UInt8)))
  | fuel, dir, st =>
    if dir = 0 then pure (some st)
    else match fuel with
      | 0 => pure none
      | fuel+1 => do
        let node ← inodeRead dir
        pwdLoop fuel node.parent (pushName node.nameStr st)

/-- The returned string; `tmp` is what the static buffer of that name holds. -/
def fsGetPwd (fuel : ℕ) (currentDir : UInt32) (tmp : ℤ → UInt8) : m (Option (List UInt8)) :=
  if currentDir = 0 then pure (some [47])
  else do
    let r ← pwdLoop fuel currentDir (255, Function.update tmp 255 0)
    pure (r.map fun st =>
      cstr ((strncpy (List.ofFn fun i : Fin 256 => st.2 (st.1+i.val)) 256).set 255 0))

def diskStatsFrom (used : UInt32) : List UInt32 → m UInt32
  | [] => pure used
  | id :: ids => do
    let node ← inodeRead id
    if node.name 0 = 0 then diskStatsFrom used ids
    else diskStatsFrom ((List.finRange 4).foldl
      (fun u b => if node.blocks b ≥ u then node.blocks b+1 else u) used) ids

/-- `*used_sectors` and `*total_sectors` -/
def fsDiskStats (st : Statics) : m (UInt32 × UInt32) := do
  let used ← diskStatsFrom fsDataStart inodeIds
  pure (used, st.mountedTotalSectors)

end Code

end TinyOS.NanoFS
