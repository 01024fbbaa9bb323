import TinyOS.NanoFSAppend
import TinyOS.NanoFSTree
import TinyOS.EntryStores

set_option autoImplicit false

/-! The file system as a store of named entries: what a state stands for, what each call asks
of the store, and what it answers. -/
namespace TinyOS.NanoFS
open ByteWords LibcString StateRuns EntryStores

/-- The inodes in the order of the scans, and what a name and four blocks hold. -/
def shape : Shape UInt32 := ⟨inodeIds, 0, 27, 2044, 511⟩

def Disk.body (d : Disk) (v : Inode) : Body UInt8 :=
  if v.isDirectory = 0 then .file (d.fileBytes v) else .dir

def Disk.entryOf (d : Disk) (v : Inode) : Option (Entry UInt32 UInt8) :=
  if v.live then some ⟨v.nameStr, v.parent, d.body v⟩ else none

/-- The checks of `fs_mount`. -/
def Disk.Mounts (d : Disk) : Prop :=
  strcmp (List.ofFn (d.sectors 0)) fsMagic = 0 ∧
    (Superblock.ofSector (d.sectors 0)).version = fsVersion

instance (d : Disk) : Decidable d.Mounts := inferInstanceAs (Decidable (_ ∧ _))

def Fs.view (s : Fs) : Store UInt32 UInt8 :=
  ⟨fun id => s.disk.entryOf (s.inode id), s.dir, decide s.disk.Mounts⟩

/-- What the calls of the shell's commands ask of the store. The other calls, and those that no
command makes, ask nothing. -/
def FsOp.request : FsOp → Option (Request UInt8)
  | .format => some .format
  | .mount => some .mount
  | .create (some name) => if name.chars = [] then none else some (.create name.chars)
  | .mkdir name => if name.chars = [] then none else some (.mkdir name.chars)
  | .rename old new => if new.chars = [] then none else some (.rename old.chars new.chars)
  | .delete name => some (.delete name.chars)
  | .write (some name) (some data) =>
    if data.chars.length < cmdMax then some (.write name.chars data.chars) else none
  | .append _ (some name) (some data) =>
    if data.chars.length < cmdMax then some (.append name.chars data.chars) else none
  | .read (some name) (some _) _ => some (.read name.chars)
  | .changeDir name =>
    if name.chars = [47] then some .top
    else if name.chars = [46, 46] then some .up
    else if name.chars = [46] then some .stay
    else some (.enter name.chars)
  | .stat name (some _) => some (.stat name.chars)
  | .list maxOut => if 72 ≤ maxOut then some .list else none
  | _ => none

def Inode.item (v : Inode) : Item UInt8 := ⟨v.nameStr, decide (v.isDirectory ≠ 0), v.size.toNat⟩

inductive Answer where
  | code (r : ℤ)
  | buffer (r : ℤ) (into : Buffer)
  | out (r : ℤ) (node : Item UInt8)
  | list (l : List (Item UInt8))

def Fs.answer (s : Fs) : FsOp → Answer
  | .read (some name) (some buffer) bufSize =>
    let r := (s.call (fsRead s.dir (some name) (some buffer) bufSize)).1
    .buffer r.1 (r.2.getD buffer)
  | .stat name (some out) =>
    let r := (s.call (fsStat s.dir name (some out))).1
    .out r.1 (r.2.getD out).item
  | .list maxOut => .list ((s.call (fsList s.dir maxOut)).1.map Inode.item)
  | op => .code (exec op s).1

def FsOp.failure : FsOp → Failure → ℤ
  | .mount, _ => 0
  | .rename .., .taken => -2
  | _, .taken => -1
  | _, .missing => -1
  | _, _ => -2

def FsOp.report : FsOp → Reply UInt8 → Answer
  | .read _ (some buffer) bufSize, .bytes content =>
    let n := min content.length bufSize.toNat
    .buffer n fun k => if k < n then content.getD k 0 else buffer k
  | .read name (some buffer) bufSize, .failed why =>
    .buffer (FsOp.failure (.read name (some buffer) bufSize) why) buffer
  | .stat _ (some _), .item i => .out 0 i
  | .stat name (some out), .failed why => .out (FsOp.failure (.stat name (some out)) why) out.item
  | .list _, .items l => .list l
  | .mount, .done => .code 1
  | _, .done => .code 0
  | op, .failed why => .code (op.failure why)
  | _, _ => .code 0

def Fs.answers (s : Fs) : List FsOp → List Answer
  | [] => []
  | op :: ops => s.answer op :: Fs.answers (exec op s).2 ops

variable {s t : Fs} {name : CString} {id : UInt32} {v : Inode}

theorem entryOf_eq_some {d : Disk} {e : Entry UInt32 UInt8} :
    d.entryOf v = some e ↔ v.live ∧ e = ⟨v.nameStr, v.parent, d.body v⟩ := by
  unfold Disk.entryOf
  split_ifs with live
  · simp only [Option.some.injEq, live, true_and, eq_comm]
  · simp only [live, false_and]

theorem here_iff : s.view.Here name.chars id ↔ (s.inode id).Matches name s.dir := by
  simp only [Store.Here, Fs.view, entryOf_eq_some, Inode.Matches]
  constructor
  · rintro ⟨e, ⟨live, rfl⟩, parent, same⟩
    exact ⟨live, parent, same⟩
  · rintro ⟨live, parent, same⟩
    exact ⟨_, ⟨live, rfl⟩, parent, same⟩

theorem find_view : s.view.find shape name.chars =
    if s.disk.lookup name s.dir = 0 then none else some (s.disk.lookup name s.dir) := by
  have same : (fun id => decide (s.view.Here name.chars id)) =
      fun id => decide ((s.disk.inode id).Matches name s.dir) := by
    funext id
    exact decide_eq_decide.mpr here_iff
  rw [Store.find, shape, same, Disk.lookup]
  cases found : inodeIds.find? fun id => decide ((s.disk.inode id).Matches name s.dir) with
  | none => rfl
  | some id =>
    rw [Option.getD_some, if_neg (inodeIds_ne_zero (List.mem_of_find?_eq_some found))]

theorem vacant_view : s.view.vacant shape =
    if s.disk.freeInode = 0 then none else some s.disk.freeInode := by
  have same : (fun id => (s.view.entry id).isNone) =
      fun id => decide ((s.disk.inode id).name 0 = 0) := by
    funext id
    simp only [Fs.view, Disk.entryOf, Inode.live]
    by_cases dead : (s.disk.inode id).name 0 = 0
    · simp [dead]
    · simp [dead]
  rw [Store.vacant, shape, same, Disk.freeInode]
  cases found : inodeIds.find? fun id => decide ((s.disk.inode id).name 0 = 0) with
  | none => rfl
  | some id =>
    rw [Option.getD_some, if_neg (inodeIds_ne_zero (List.mem_of_find?_eq_some found))]

theorem entry_of_live (live : (s.inode id).live) : s.view.entry id =
    some ⟨(s.inode id).nameStr, (s.inode id).parent, s.disk.body (s.inode id)⟩ := if_pos live

theorem entry_of_dead (dead : ¬(s.inode id).live) : s.view.entry id = none := if_neg dead

theorem body_file {d : Disk} (file : v.isDirectory = 0) : d.body v = .file (d.fileBytes v) :=
  if_pos file

theorem body_dir {d : Disk} (isDir : v.isDirectory ≠ 0) : d.body v = .dir := if_neg isDir

end TinyOS.NanoFS
