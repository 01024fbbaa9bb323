import TinyOS.ByteWords
import TinyOS.LibcString

set_option autoImplicit false

/-! On-disk layout of NanoFS (fs/fs.h): 54-byte inodes, nine to a sector, in the
sectors 1..8, then data sectors. -/
namespace TinyOS.NanoFS
open ByteWords LibcString

abbrev fsVersion : UInt32 := 2
abbrev fsMaxInodes : UInt32 := 72
abbrev fsInodeTableStart : UInt32 := 1
abbrev fsInodeTableSectors : ℕ := 8
abbrev fsDataStart : UInt32 := 9
abbrev fsMaxBlocks : UInt32 := 4
abbrev fsNameMax : ℕ := 28
/-- `512 / sizeof(fs_inode_t)` -/
abbrev inodesPerSector : ℕ := 9

scoped instance nameMax_neZero : NeZero 28 := ⟨by decide⟩

scoped instance maxBlocks_neZero : NeZero 4 := ⟨by decide⟩

/-- `FS_MAGIC`, "NANOFS2". -/
def fsMagic : List UInt8 := [78, 65, 78, 79, 70, 83, 50]

abbrev Sector := Fin 512 → UInt8

def emptySector : Sector := fun _ => 0

/-- `fs_inode_t`: `FS_NAME_MAX` name bytes, `FS_MAX_BLOCKS` block numbers. -/
@[ext] structure Inode where
  name : Fin 28 → UInt8
  parent : UInt32
  blocks : Fin 4 → UInt32
  size : UInt32
  isDirectory : UInt8
  pad : UInt8
  deriving DecidableEq

/-- `fs_superblock_t`; the magic is the eight bytes with its terminator. -/
structure Superblock where
  magic : Fin 8 → UInt8
  version : UInt32
  totalSectors : UInt32
  inodeCount : UInt32

def cell {n : ℕ} (r : Fin n → UInt8) (i : ℕ) : UInt8 := if h : i < n then r ⟨i, h⟩ else 0

def Inode.zero : Inode := ⟨fun _ => 0, 0, fun _ => 0, 0, 0, 0⟩

def Inode.bytes (v : Inode) : Fin 54 → UInt8 := fun i =>
  if h : i.val < 28 then v.name ⟨i, h⟩
  else if i.val < 32 then wordByte v.parent (i-28)
  else if h : i.val < 48 then wordByte (v.blocks ⟨(i-32)/4, by omega⟩) ((i-32)%4)
  else if i.val < 52 then wordByte v.size (i-48)
  else if i.val = 52 then v.isDirectory
  else v.pad

def Inode.ofBytes (r : Fin 54 → UInt8) : Inode where
  name i := r ⟨i, by omega⟩
  parent := wordAt (cell r) 28
  blocks b := wordAt (cell r) (32+4*b)
  size := wordAt (cell r) 48
  isDirectory := r 52
  pad := r 53

theorem cell_of_lt {n i : ℕ} (r : Fin n → UInt8) (h : i < n) : cell r i = r ⟨i, h⟩ := by
  simp only [cell, h, ↓reduceDIte]

@[simp] theorem ofBytes_bytes (v : Inode) : Inode.ofBytes v.bytes = v := by
  have word {off : ℕ} {w : UInt32} (h : ∀ i < 4, cell v.bytes (off+i) = wordByte w i) :
      wordAt (cell v.bytes) off = w := wordAt_wordByte _ _ _ h
  ext i
  · simp [Inode.ofBytes, Inode.bytes]
  · refine congrArg _ (word fun i hi => ?_)
    rw [cell_of_lt _ (show 28+i < 54 by omega)]
    simp [Inode.bytes, show ¬28+i < 28 by omega, show 28+i < 32 by omega]
  · refine congrArg _ (word fun j hj => ?_)
    have hi := i.isLt
    rw [cell_of_lt _ (show 32+4*i.val+j < 54 by omega)]
    have hb : (32+4*i.val+j-32)/4 = i.val := by omega
    have hm : (32+4*i.val+j-32)%4 = j := by omega
    simp [Inode.bytes, show ¬32+4*i.val+j < 28 by omega, show ¬32+4*i.val+j < 32 by omega,
      show 32+4*i.val+j < 48 by omega, hb, hm]
  · refine congrArg _ (word fun i hi => ?_)
    rw [cell_of_lt _ (show 48+i < 54 by omega)]
    simp [Inode.bytes, show ¬48+i < 28 by omega, show ¬48+i < 32 by omega,
      show ¬48+i < 48 by omega, show 48+i < 52 by omega]
  · simp [Inode.ofBytes, Inode.bytes]
  · simp [Inode.ofBytes, Inode.bytes]

@[simp] theorem bytes_ofBytes (r : Fin 54 → UInt8) : (Inode.ofBytes r).bytes = r := by
  funext i
  have hi := i.isLt
  have word {off j : ℕ} (hj : j < 4) (he : off+j = i.val) :
      wordByte (wordAt (cell r) off) j = r i := by
    rw [wordByte_wordAt _ _ _ hj, he, cell_of_lt _ i.isLt]
  simp only [Inode.bytes]
  split_ifs with h1 h2 h3 h4 h5
  · rfl
  · exact word (by omega) (by omega)
  · exact @word (32+4*((i.val-32)/4)) _ (by omega) (by omega)
  · exact word (by omega) (by omega)
  · exact congrArg r (Fin.ext h5.symm)
  · exact congrArg r (Fin.ext (show 53 = i.val by omega))

/-- The string a `char *` to the name reads: the packed record has no gap, so a
name without terminator runs on into the next fields. -/
def Inode.nameStr (v : Inode) : List UInt8 := cstr (List.ofFn v.bytes)

/-- `node.name[0] != '\0'` -/
def Inode.live (v : Inode) : Prop := v.name 0 ≠ 0

instance (v : Inode) : Decidable v.live := inferInstanceAs (Decidable (_ ≠ _))

/-- `strncpy(node.name, name, FS_NAME_MAX); node.name[FS_NAME_MAX - 1] = '\0'` -/
def Inode.setName (v : Inode) (name : CString) : Inode :=
  { v with name := Function.update (fun i => (strncpy name.chars fsNameMax).getD i 0) 27 0 }

def Superblock.sector (sb : Superblock) : Sector := fun i =>
  if h : i.val < 8 then sb.magic ⟨i, h⟩
  else if i.val < 12 then wordByte sb.version (i-8)
  else if i.val < 16 then wordByte sb.totalSectors (i-12)
  else if i.val < 20 then wordByte sb.inodeCount (i-16)
  else 0

def Superblock.ofSector (s : Sector) : Superblock where
  magic i := s ⟨i, by omega⟩
  version := wordAt (cell s) 8
  totalSectors := wordAt (cell s) 12
  inodeCount := wordAt (cell s) 16

end TinyOS.NanoFS
