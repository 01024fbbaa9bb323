import TinyOS.NanoFSBlocks

set_option autoImplicit false

namespace TinyOS.NanoFS
open ByteWords LibcString StateRuns

def storedName (name : CString) : CString :=
  ⟨name.chars.take 27, fun h => name.noNul (List.mem_of_mem_take h)⟩

structure Naming where
  slot : UInt32
  name : CString
  /-- What `fs_read` will find in the slot; the block of a new file is not read. -/
  entry : Inode

def Fs.naming (s : Fs) : FsOp → Option Naming
  | .create (some name) =>
    if s.disk.lookup name s.dir = 0 ∧ s.disk.freeInode ≠ 0
    then some ⟨s.disk.freeInode, name, newFile s.dir name 0⟩ else none
  | .mkdir name =>
    if s.disk.lookup name s.dir = 0 ∧ s.disk.freeInode ≠ 0
    then some ⟨s.disk.freeInode, name, newDir s.dir name⟩ else none
  | .rename oldName newName =>
    if s.disk.lookup oldName s.dir ≠ 0 ∧ s.disk.lookup newName s.dir = 0
    then some ⟨s.disk.lookup oldName s.dir, newName, s.inode (s.disk.lookup oldName s.dir)⟩ else none
  | _ => none

def Fs.readEntry (s : Fs) (v : Inode) (buffer : Buffer) (bufSize : UInt32) : ℤ × Buffer :=
  ((readNode v buffer bufSize : DiskM (ℤ × Buffer)).run s.disk).1

def Fs.readName (s : Fs) (name : CString) (dir : UInt32) (buffer : Buffer) (bufSize : UInt32) :
    ℤ × Option Buffer :=
  ((fsRead dir (some name) (some buffer) bufSize : DiskM (ℤ × Option Buffer)).run s.disk).1

/-- An entry found under the name as it is stored, in a later slot, reads the same. -/
def hidesNothing (s : Fs) (op : FsOp) : Prop :=
  ∀ n, s.naming op = some n → n.slot < s.disk.lookup (storedName n.name) s.dir →
    ∀ buffer bufSize, s.readEntry n.entry buffer bufSize =
      s.readEntry (s.inode (s.disk.lookup (storedName n.name) s.dir)) buffer bufSize

/-- Every entry but the one of the call keeps its record, its content and what `fs_read` gives
under its name. -/
def othersKept (s : Fs) (op : FsOp) : Prop :=
  ∀ j, (s.inode j).live → j ≠ s.target op →
    (exec op s).2.inode j = s.inode j ∧
    (∀ buffer bufSize, (exec op s).2.readEntry (s.inode j) buffer bufSize =
      s.readEntry (s.inode j) buffer bufSize) ∧
    ∀ name dir, s.disk.lookup name dir = j → ∀ buffer bufSize,
      (exec op s).2.readName name dir buffer bufSize = s.readName name dir buffer bufSize

section Names

variable {s t : Fs} {op : FsOp} {name : CString} {dir id : UInt32} {v : Inode} {n : Naming}

theorem readName_found (found : s.disk.lookup name dir ≠ 0) (buffer : Buffer) (bufSize : UInt32) :
    s.readName name dir buffer bufSize =
      ((s.readEntry (s.inode (s.disk.lookup name dir)) buffer bufSize).1,
        some (s.readEntry (s.inode (s.disk.lookup name dir)) buffer bufSize).2) := by
  unfold Fs.readName Fs.readEntry
  simp only [fsRead, bind_run, lookup_run, inodeRead_run, pure_run, found, ↓reduceIte]

/-- A lookup after one slot has changed that it did not find before. -/
theorem lookup_update (table : ∀ j, t.inode j = if j = id then v else s.inode j)
    (found : s.disk.lookup name dir ≠ 0) (other : s.disk.lookup name dir ≠ id) :
    t.disk.lookup name dir =
      if v.Matches name dir ∧ id < s.disk.lookup name dir then id else s.disk.lookup name dir := by
  have old := lookup_matches found
  have same {j : UInt32} (ne : j ≠ id) : t.disk.inode j = s.disk.inode j :=
    (table j).trans (if_neg ne)
  split_ifs with h
  · refine lookup_first ?_ fun j before hm => ?_
    · rw [show t.disk.inode id = v from (table id).trans (if_pos rfl)]
      exact h.1
    · rw [same (UInt32.ne_of_lt before)] at hm
      exact lookup_least found (UInt32.lt_trans before h.2) hm
  · refine lookup_first ?_ fun j before hm => ?_
    · rw [same other]
      exact old
    · by_cases here : j = id
      · subst here
        rw [show t.disk.inode j = v from (table j).trans (if_pos rfl)] at hm
        exact h ⟨hm, before⟩
      · rw [same here] at hm
        exact lookup_least found before hm

theorem naming_table (h : s.naming op = some n) :
    n.slot = s.target op ∧ n.slot ∈ inodeIds ∧ ∃ v,
    (∀ j, (exec op s).2.inode j = if j = n.slot then v else s.inode j) ∧
    v.parent = s.dir ∧ v.nameStr = n.name.chars.take 27 ∧
    ∀ buffer bufSize, s.readEntry v buffer bufSize = s.readEntry n.entry buffer bufSize := by
  cases op with
  | create name =>
    cases name with
    | none => cases h
    | some name =>
      rw [Fs.naming] at h
      split_ifs at h with room
      cases h
      refine ⟨rfl, (freeInode_spec room.2).1, _, create_table (create_ok_iff.mpr room), rfl,
        newFile_nameStr _ _ _, ?_⟩
      intro buffer bufSize
      -- nothing is read of a file of size 0
      have nothing (block : UInt32) : s.readEntry (newFile s.dir name block) buffer bufSize =
          (0, buffer) := by
        have size : min (newFile s.dir name block).size.toNat bufSize.toNat = 0 :=
          Nat.zero_min _
        have isFile : ¬(newFile s.dir name block).isDirectory ≠ 0 := not_not.mpr rfl
        rw [Fs.readEntry, readNode_run, if_neg isFile, size]
        have empty : (newFile s.dir name block).extent 0 = 0 := Nat.zero_min _
        have unread : s.disk.readInto (newFile s.dir name block) 0 buffer = buffer :=
          funext fun k => if_neg (by rw [empty]; exact Nat.not_lt_zero k)
        rw [empty, unread]
        rfl
      rw [nothing, nothing]
  | mkdir name =>
    rw [Fs.naming] at h
    split_ifs at h with room
    cases h
    exact ⟨rfl, (freeInode_spec room.2).1, _, mkdir_table (mkdir_ok_iff.mpr room), rfl,
      newDir_nameStr _ _, fun _ _ => rfl⟩
  | rename old new =>
    rw [Fs.naming] at h
    split_ifs at h with room
    cases h
    have old := lookup_matches room.1
    exact ⟨rfl, live_mem old.1, _, rename_table (rename_ok_iff.mpr room), old.2.1,
      setName_nameStr _ _, fun _ _ => rfl⟩
  | _ => cases h

/-- Only the name that a call stores can come to hide another entry. -/
theorem lookup_hidden (d : DataBlocks s.disk) (terminated : s.NamesTerminated) (ne : op ≠ .format)
    (found : s.disk.lookup name dir ≠ 0) (other : s.disk.lookup name dir ≠ s.target op) :
    (exec op s).2.disk.lookup name dir = s.disk.lookup name dir ∨
      ∃ n, s.naming op = some n ∧ name = storedName n.name ∧ dir = s.dir ∧
        n.slot < s.disk.lookup name dir ∧ (exec op s).2.disk.lookup name dir = n.slot := by
  cases h : s.naming op with
  | some n =>
    obtain ⟨target, _, v, table, parent, stored, _⟩ := naming_table h
    have after := lookup_update table found (target ▸ other)
    split_ifs at after with hides
    · refine .inr ⟨n, rfl, ?_, hides.1.2.1.symm.trans parent, hides.2, after⟩
      exact chars_inj.mp (hides.1.2.2.symm.trans stored)
    · exact .inl after
  | none =>
    left
    have e := exec_effect d op
    have record := exec_other_inode d ne other
    generalize (exec op s).2 = t at e record
    have still : (t.inode (s.disk.lookup name dir)).Matches name dir := by
      rw [record]
      exact lookup_matches found
    refine lookup_keep found still fun j hm => ?_
    change (t.inode j).Matches name dir at hm
    change (s.inode j).Matches name dir
    cases e with
    | quiet table _ | home table _ | up table _ _ | enter table _ _ => rwa [table] at hm
    | format _ _ => exact absurd rfl ne
    | newFile absent free dead _ _ | newDir absent free dead _ _ =>
      have room := freeInode_ne_zero.mpr ⟨_, free, dead⟩
      rw [Fs.naming, if_pos ⟨absent, room⟩] at h
      cases h
    | @grow _ _ id size live _ _ table _ =>
      rw [table] at hm
      split_ifs at hm with here
      · rw [here]
        exact ⟨live, hm.2.1, (grown_nameStr terminated id size).symm.trans hm.2.2⟩
      · exact hm
    | rename found absent _ _ =>
      rw [Fs.naming, if_pos ⟨found, absent⟩] at h
      cases h
    | delete _ table _ =>
      rw [table] at hm
      split_ifs at hm
      · exact absurd hm.1 zero_not_live
      · exact hm

theorem naming_reads (d : DataBlocks s.disk) (h : s.naming op = some n)
    (live : ((exec op s).2.inode n.slot).live) (buffer : Buffer) (bufSize : UInt32) :
    (exec op s).2.readEntry ((exec op s).2.inode n.slot) buffer bufSize =
      s.readEntry n.entry buffer bufSize := by
  obtain ⟨_, _, v, table, _, _, reads⟩ := naming_table h
  have idle : s.transfer op = none := by
    cases op with
    | create _ | mkdir _ | rename _ _ => rfl
    | _ => cases h
  have ne : op ≠ .format := by
    rintro rfl
    cases h
  have data := effect_dataBlocks d (exec_effect d op) n.slot live
  rw [← reads buffer bufSize]
  rw [show (exec op s).2.inode n.slot = v from (table n.slot).trans (if_pos rfl)]
  rw [show (exec op s).2.disk.inode n.slot = v from (table n.slot).trans (if_pos rfl)] at data
  refine readNode_congr buffer bufSize fun b hb => ?_
  refine exec_other_sector ne ((data b).resolve_left hb) fun tr busy => ?_
  rw [idle] at busy
  cases busy

theorem naming_found (h : s.naming op = some n)
    (later : n.slot < s.disk.lookup (storedName n.name) s.dir) :
    (exec op s).2.disk.lookup (storedName n.name) s.dir = n.slot := by
  obtain ⟨_, _, v, table, parent, stored, _⟩ := naming_table h
  have found : s.disk.lookup (storedName n.name) s.dir ≠ 0 := by
    intro zero
    rw [zero] at later
    exact UInt32.not_lt_zero later
  have old := lookup_matches found
  have named : v.nameStr = (storedName n.name).chars := stored
  have live : v.live := by
    rw [live_iff_nameStr, named, ← old.2.2]
    exact (live_iff_nameStr _).mp old.1
  rw [lookup_update table found (UInt32.ne_of_lt later).symm,
    if_pos ⟨⟨live, parent, named⟩, later⟩]

theorem hidesNothing_of_othersKept (d : DataBlocks s.disk) (kept : othersKept s op) :
    hidesNothing s op := by
  intro n naming later buffer bufSize
  obtain ⟨target, mem, _⟩ := naming_table naming
  have found : s.disk.lookup (storedName n.name) s.dir ≠ 0 := by
    intro zero
    rw [zero] at later
    exact UInt32.not_lt_zero later
  have other : s.disk.lookup (storedName n.name) s.dir ≠ s.target op :=
    target ▸ (UInt32.ne_of_lt later).symm
  have after := naming_found naming later
  have found' : (exec op s).2.disk.lookup (storedName n.name) s.dir ≠ 0 := by
    rw [after]
    exact inodeIds_ne_zero mem
  have same := (kept _ (lookup_matches found).1 other).2.2 _ _ rfl buffer bufSize
  rw [readName_found found, readName_found found', after] at same
  rw [naming_reads d naming (after ▸ (lookup_matches found').1) buffer bufSize] at same
  have result := congrArg Prod.fst same
  have stored := Option.some.inj (congrArg Prod.snd same)
  exact Prod.ext result stored

theorem othersKept_of_hidesNothing (d : DataBlocks s.disk) (terminated : s.NamesTerminated)
    (apart : s.BlocksApart) (left : NumbersLeft s) (ne : op ≠ .format)
    (hides : hidesNothing s op) : othersKept s op := by
  intro j hl hj
  have record := exec_other_inode d ne hj
  have content (buffer : Buffer) (bufSize : UInt32) :
      (exec op s).2.readEntry (s.inode j) buffer bufSize = s.readEntry (s.inode j) buffer bufSize :=
    readNode_congr buffer bufSize (exec_other_file apart d left ne hl hj)
  refine ⟨record, content, ?_⟩
  rintro name dir rfl buffer bufSize
  have found : s.disk.lookup name dir ≠ 0 := inodeIds_ne_zero (live_mem hl)
  rw [readName_found found]
  rcases lookup_hidden d terminated ne found hj with same | hidden
  · have found' : (exec op s).2.disk.lookup name dir ≠ 0 := same ▸ found
    rw [readName_found found', same, record, content]
  · obtain ⟨n, naming, rfl, rfl, later, after⟩ := hidden
    have found' : (exec op s).2.disk.lookup (storedName n.name) s.dir ≠ 0 := by
      rw [after]
      exact inodeIds_ne_zero (naming_table naming).2.1
    have reads := naming_reads d naming (after ▸ (lookup_matches found').1) buffer bufSize
    rw [readName_found found', after, reads, hides n naming later]

end Names

/-- As long as the block numbers have not run out, the blocks of live inodes are data sectors and
no two files share one; and a call leaves all other entries as they were unless the name it stores
hides one of them. -/
theorem files_apart {s : Fs} (h : Reachable (fun s _ => NumbersLeft s) s) (left : NumbersLeft s) :
    (∀ id, (s.inode id).live → ∀ b, (s.inode id).blocks b ≠ 0 →
      fsDataStart ≤ (s.inode id).blocks b) ∧
    s.BlocksApart ∧
    ∀ op, op ≠ .format → (othersKept s op ↔ hidesNothing s op) := by
  have d := reachable_dataBlocks h
  have apart := reachable_blocksApart h
  refine ⟨fun id hl b hb => (d id hl b).resolve_left hb, apart, fun op ne => ?_⟩
  constructor
  · exact hidesNothing_of_othersKept d
  · exact othersKept_of_hidesNothing d (reachable_terminated h) apart left ne

theorem files_apart_withF :
    (∀ id, (withF.inode id).live → ∀ b, (withF.inode id).blocks b ≠ 0 →
      fsDataStart ≤ (withF.inode id).blocks b) ∧
    withF.BlocksApart ∧
    ∀ op, op ≠ .format → (othersKept withF op ↔ hidesNothing withF op) :=
  files_apart (.step freshFs_reachable freshFs_numbersLeft rfl) withF_numbersLeft

def fullName : CString := storedName longName

def withFull : Fs := (exec (.create (some fullName)) withF).2

def withFullText : Fs := (exec (.write (some fullName) (some nameD)) withFull).2

theorem withFull_inode (j : UInt32) : withFull.inode j =
    if j = 2 then newFile 0 fullName 10 else if j = 1 then newFile 0 nameF 9 else Inode.zero := by
  have ok : (exec (.create (some fullName)) withF).1 = 0 := by
    rw [create_ok_iff, lookup_scan withF_inode, freeInode_scan withF_inode, withF_dir]
    decide +kernel
  have free : scanFree (fun j => if j = 1 then newFile 0 nameF 9 else Inode.zero) = 2 := by
    decide +kernel
  rw [withFull, create_table ok, freeInode_scan withF_inode, free, withF_highest, withF_inode, withF_dir]
  rfl

theorem withFull_lookup : withFull.disk.lookup fullName withFull.dir = 2 := by
  rw [lookup_scan withFull_inode, show withFull.dir = 0 from withF_dir]
  decide +kernel

theorem withFull_reachable : Reachable (fun s _ => NumbersLeft s) withFull :=
  .step (.step freshFs_reachable freshFs_numbersLeft rfl) withF_numbersLeft rfl

theorem withFullText_inode (j : UInt32) : withFullText.inode j =
    if j = 2 then { newFile 0 fullName 10 with size := 1 } else withFull.inode j := by
  have found : ¬withFull.disk.lookup fullName withFull.dir = 0 := by
    rw [withFull_lookup]
    decide
  have isFile : ¬(withFull.disk.inode 2).isDirectory ≠ 0 := by
    rw [show withFull.disk.inode 2 = _ from withFull_inode 2]
    decide
  have live : (withFull.disk.inode 2).live := by
    rw [show withFull.disk.inode 2 = _ from withFull_inode 2]
    decide
  have table := store_inode (reachable_dataBlocks withFull_reachable) live (text nameD)
    (textLen nameD) (textRange (textLen nameD)) j
  have grown : withFull.disk.grown (withFull.disk.inode 2) (textLen nameD) =
      { newFile 0 fullName 10 with size := 1 } := by
    rw [show withFull.disk.inode 2 = newFile 0 fullName 10 from withFull_inode 2]
    have size : textLen nameD = 1 := by decide
    have slots : blockRange (blocksFor 1) = [0] := by decide
    have kept : withFull.disk.fill (newFile 0 fullName 10) [0] = (newFile 0 fullName 10).blocks := by
      funext b
      rw [Disk.fill, if_neg]
      rintro ⟨first, missing⟩
      rw [List.mem_singleton.mp first] at missing
      exact absurd missing (by decide)
    rw [Disk.grown, size, slots, kept]
  rw [grown] at table
  rw [withFullText]
  simp only [exec, Fs.call, fsWrite_run]
  rw [withFull_lookup] at found ⊢
  rw [if_neg found, if_neg isFile]
  exact table

theorem withFull_numbersLeft : NumbersLeft withFull ∧ NumbersLeft withFullText := by
  have one : withFull.disk.highest.toNat ≤ withF.disk.highest.toNat+1 :=
    effect_highest withF_numbersLeft
      (exec_effect (reachable_dataBlocks withF_reachable) (.create (some fullName)))
  simp only [withF_highest, UInt32.reduceToNat] at one
  have first : NumbersLeft withFull := numbersLeft_of_lt (by omega)
  have two : withFullText.disk.highest.toNat ≤ withFull.disk.highest.toNat+1 :=
    effect_highest first (exec_effect (reachable_dataBlocks withFull_reachable)
      (.write (some fullName) (some nameD)))
  exact ⟨first, numbersLeft_of_lt (by omega)⟩

/-- "f" is renamed to a name of 28 characters, stored as the name of the second file: `fs_read` of
that file now finds "f", which is empty. -/
theorem longName_hides : Reachable (fun s _ => NumbersLeft s) withFullText ∧
    NumbersLeft withFullText ∧
    (withFullText.readName fullName 0 (fun _ => 0) 511).1 = 1 ∧
    ((exec (.rename nameF longName) withFullText).2.readName fullName 0 (fun _ => 0) 511).1 = 0 ∧
    ¬othersKept withFullText (.rename nameF longName) := by
  have reach : Reachable (fun s _ => NumbersLeft s) withFullText :=
    .step withFull_reachable withFull_numbersLeft.1 rfl
  have dir : withFullText.dir = 0 := withF_dir
  have table (j : UInt32) : withFullText.inode j =
      if j = 2 then { newFile 0 fullName 10 with size := 1 }
      else if j = 1 then newFile 0 nameF 9 else Inode.zero := by
    rw [withFullText_inode, withFull_inode]
    split_ifs <;> rfl
  have old : withFullText.disk.lookup nameF withFullText.dir = 1 := by
    rw [lookup_scan table, dir]
    decide +kernel
  have full : withFullText.disk.lookup fullName 0 = 2 := by
    rw [lookup_scan table]
    decide +kernel
  have absent : withFullText.disk.lookup longName withFullText.dir = 0 := by
    rw [lookup_scan table, dir]
    decide +kernel
  have named : withFullText.naming (.rename nameF longName) =
      some ⟨1, longName, withFullText.inode 1⟩ := by
    rw [Fs.naming, old, absent, if_pos (by decide)]
  have cut : storedName longName = fullName := rfl
  have found : withFullText.disk.lookup fullName 0 ≠ 0 := by
    rw [full]
    decide
  have before : (withFullText.readName fullName 0 (fun _ => 0) 511).1 = 1 := by
    rw [readName_found found, full, table, Fs.readEntry, readNode_run]
    decide +kernel
  have hidden : (exec (.rename nameF longName) withFullText).2.disk.lookup fullName 0 = 1 := by
    have later := naming_found named
    rw [cut, dir, full] at later
    exact later (by decide)
  have after : ((exec (.rename nameF longName) withFullText).2.readName fullName 0
      (fun _ => 0) 511).1 = 0 := by
    have found' : (exec (.rename nameF longName) withFullText).2.disk.lookup fullName 0 ≠ 0 := by
      rw [hidden]
      decide
    have live := (lookup_matches found').1
    rw [hidden] at live
    have reads := naming_reads (reachable_dataBlocks reach) named live (fun _ => 0) 511
    rw [readName_found found', hidden, reads, table, Fs.readEntry, readNode_run]
    decide +kernel
  refine ⟨reach, withFull_numbersLeft.2, before, after, fun kept => ?_⟩
  have target : withFullText.target (.rename nameF longName) = 1 := old
  have live : (withFullText.inode 2).live := by
    rw [table]
    decide
  have same := (kept 2 live (by rw [target]; decide)).2.2 fullName 0 full (fun _ => 0) 511
  rw [same, before] at after
  exact absurd after (by decide)

end TinyOS.NanoFS
