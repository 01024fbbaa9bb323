import TinyOS.NanoFSCalls

set_option autoImplicit false

namespace TinyOS.NanoFS
open ByteWords LibcString StateRuns

abbrev Directories := UInt32 → CString → Option Inode

def Fs.entries (s : Fs) : Directories := fun dir name =>
  if s.disk.lookup name dir = 0 then none else some (s.inode (s.disk.lookup name dir))

theorem stat_entries (s : Fs) (name : CString) : s.stat name = s.entries s.dir name := rfl

def Directories.set (e : Directories) (dir : UInt32) (name : CString) (v : Option Inode) :
    Directories := fun dir' name' => if dir' = dir ∧ name' = name then v else e dir' name'

@[simp] theorem set_self (e : Directories) (dir : UInt32) (name : CString) (v : Option Inode) :
    e.set dir name v dir name = v := if_pos ⟨rfl, rfl⟩

def Fs.NamesUnique (s : Fs) : Prop :=
  ∀ i j, (s.inode i).live → (s.inode j).live → (s.inode i).parent = (s.inode j).parent →
    (s.inode i).nameStr = (s.inode j).nameStr → i = j

theorem entries_of_matches {s : Fs} {id dir : UInt32} {name : CString} (u : s.NamesUnique)
    (h : (s.inode id).Matches name dir) : s.entries dir name = some (s.inode id) := by
  have found : s.disk.lookup name dir = id := by
    refine lookup_unique h fun j hm => ?_
    exact u j id hm.1 h.1 (hm.2.1.trans h.2.1.symm) (hm.2.2.trans h.2.2.symm)
  rw [Fs.entries, found, if_neg (inodeIds_ne_zero (live_mem h.1))]

theorem entries_none {s : Fs} {dir : UInt32} {name : CString}
    (h : ∀ id, ¬(s.inode id).Matches name dir) : s.entries dir name = none :=
  if_pos (lookup_eq_zero.mpr h)

theorem entries_congr {s t : Fs} {dir : UInt32} {name : CString}
    (same : ∀ id, (s.inode id).Matches name dir ∨ (t.inode id).Matches name dir →
      s.inode id = t.inode id) : s.entries dir name = t.entries dir name := by
  have look : s.disk.lookup name dir = t.disk.lookup name dir := by
    refine lookup_congr fun id => ⟨fun hm => ?_, fun hm => ?_⟩
    · change (t.inode id).Matches name dir
      rw [← same id (.inl hm)]
      exact hm
    · change (s.inode id).Matches name dir
      rw [same id (.inr hm)]
      exact hm
  unfold Fs.entries
  rw [look]
  split_ifs with h0
  · rfl
  · exact congrArg some (same _ (.inr (lookup_matches h0)))

theorem entries_update {s t : Fs} {id : UInt32} {v : Inode} (us : s.NamesUnique)
    (ut : t.NamesUnique) (table : ∀ j, t.inode j = if j = id then v else s.inode j)
    (dir : UInt32) (name : CString) : t.entries dir name =
      if v.Matches name dir then some v
      else if (s.inode id).Matches name dir then none
      else s.entries dir name := by
  have hid : t.inode id = v := by rw [table, if_pos rfl]
  split_ifs with h1 h2
  · rw [← hid] at h1
    rw [entries_of_matches ut h1, hid]
  · refine entries_none fun j hm => ?_
    rw [table] at hm
    split_ifs at hm with hj
    · exact h1 hm
    · exact hj (us j id hm.1 h2.1 (hm.2.1.trans h2.2.1.symm) (hm.2.2.trans h2.2.2.symm))
  · refine (entries_congr fun j hm => ?_).symm
    rw [table] at hm ⊢
    split_ifs at hm ⊢ with hj
    · subst hj
      rcases hm with hm | hm
      · exact absurd hm h2
      · exact absurd hm h1
    · rfl

/-- An inode whose name is new in its directory keeps names unique. -/
theorem Fs.NamesUnique.update {s t : Fs} {id : UInt32} {v : Inode} (u : s.NamesUnique)
    (table : ∀ j, t.inode j = if j = id then v else s.inode j)
    (fresh : ∀ j, j ≠ id → v.live → (s.inode j).live → (s.inode j).parent = v.parent →
      (s.inode j).nameStr ≠ v.nameStr) : t.NamesUnique := by
  intro i j hi hj hp hn
  rw [table] at hi hp hn
  rw [table] at hj hp hn
  split_ifs at hi hj hp hn with h1 h2 h2
  · rw [h1, h2]
  · exact absurd hn.symm (fresh j h2 hi hj hp.symm)
  · exact absurd hn (fresh i h1 hj hi hp)
  · exact u i j hi hj hp hn

theorem Fs.NamesUnique.same {s t : Fs} (u : s.NamesUnique) (table : ∀ j, t.inode j = s.inode j) :
    t.NamesUnique := by
  intro i j
  simp only [table]
  exact u i j

def Fs.NamesTerminated (s : Fs) : Prop := ∀ j, 0 ∈ List.ofFn (s.inode j).name

theorem zero_terminated : 0 ∈ List.ofFn Inode.zero.name := List.mem_ofFn.mpr ⟨0, rfl⟩

theorem Fs.NamesTerminated.update {s t : Fs} {id : UInt32} {v : Inode} (h : s.NamesTerminated)
    (table : ∀ j, t.inode j = if j = id then v else s.inode j) (hv : 0 ∈ List.ofFn v.name) :
    t.NamesTerminated := by
  intro j
  rw [table]
  split_ifs
  · exact hv
  · exact h j

theorem effect_terminated {s t : Fs} {op : FsOp} (h : s.NamesTerminated) (e : Effect s op t) :
    t.NamesTerminated := by
  cases e with
  | quiet table _ | home table _ | up table _ _ | enter table _ _ =>
    intro j
    rw [table]
    exact h j
  | format table _ =>
    intro j
    rw [table]
    exact zero_terminated
  | newFile _ _ _ table _ => exact h.update table (setName_terminated Inode.zero _)
  | newDir _ _ _ table _ => exact h.update table (setName_terminated Inode.zero _)
  | @grow _ _ id _ _ _ _ table _ => exact h.update table (h id)
  | rename _ _ table _ => exact h.update table (setName_terminated _ _)
  | delete _ table _ => exact h.update table zero_terminated

theorem reachable_terminated {allow : Fs → FsOp → Prop} {s : Fs} (h : Reachable allow s) :
    s.NamesTerminated := by
  refine reachable_invariant (I := Fs.NamesTerminated) h (fun s table _ j => ?_) ?_
  · rw [table]
    exact zero_terminated
  · exact fun s t op hi _ e => effect_terminated hi e

theorem grown_nameStr {s : Fs} (h : s.NamesTerminated) (id size : UInt32) :
    (s.disk.grown (s.inode id) size).nameStr = (s.inode id).nameStr :=
  nameStr_congr rfl (h id)

def namesNonempty : FsOp → Prop
  | .create name | .write name _ | .writeBinary name _ _ | .read name _ _ | .append _ name _ =>
    ∀ n ∈ name, n.chars ≠ []
  | .delete name | .mkdir name | .changeDir name | .stat name _ => name.chars ≠ []
  | .rename oldName newName => oldName.chars ≠ [] ∧ newName.chars ≠ []
  | _ => True

/-- `fs_create` and `fs_mkdir` get as far as writing an inode. -/
def Fs.room (s : Fs) (name : CString) : Prop :=
  s.disk.lookup name s.dir = 0 ∧ s.disk.freeInode ≠ 0

def storesName (s : Fs) : FsOp → Prop
  | .create (some name) | .mkdir name => s.room name → name.chars.length < fsNameMax
  | .rename oldName newName =>
    s.disk.lookup oldName s.dir ≠ 0 → s.disk.lookup newName s.dir = 0 →
      newName.chars.length < fsNameMax
  | _ => True

def shortNames (s : Fs) (op : FsOp) : Prop := namesNonempty op ∧ storesName s op

theorem take_27_of_short {l : List UInt8} (h : l.length < fsNameMax) : l.take 27 = l :=
  List.take_of_length_le (Nat.le_of_lt_succ h)

theorem absent_ne {s : Fs} {name : CString} {dir j : UInt32} (absent : s.disk.lookup name dir = 0)
    (hl : (s.inode j).live) (hp : (s.inode j).parent = dir) : (s.inode j).nameStr ≠ name.chars :=
  fun hn => lookup_eq_zero.mp absent j ⟨hl, hp, hn⟩

theorem rename_fresh {s : Fs} {old new : CString} (found : s.disk.lookup old s.dir ≠ 0)
    (absent : s.disk.lookup new s.dir = 0) (short : new.chars.length < fsNameMax) (j : UInt32)
    (hj : (s.inode j).live)
    (hp : (s.inode j).parent = ((s.inode (s.disk.lookup old s.dir)).setName new).parent) :
    (s.inode j).nameStr ≠ ((s.inode (s.disk.lookup old s.dir)).setName new).nameStr := by
  rw [setName_nameStr, take_27_of_short short]
  exact absent_ne absent hj (hp.trans (lookup_matches found).2.1)

theorem exec_namesUnique {s : Fs} {op : FsOp} (d : DataBlocks s.disk) (ht : s.NamesTerminated)
    (u : s.NamesUnique) (ok : storesName s op) : (exec op s).2.NamesUnique := by
  have e := exec_effect d op
  generalize (exec op s).2 = t at e
  cases e with
  | quiet table _ | home table _ | up table _ _ | enter table _ _ => exact u.same table
  | format table _ =>
    intro i j hi
    rw [table] at hi
    exact absurd hi zero_not_live
  | @newFile name _ _ absent free dead table _ =>
    refine u.update table fun j _ _ hj hp => ?_
    rw [newFile_nameStr, take_27_of_short (ok ⟨absent, freeInode_ne_zero.mpr ⟨_, free, dead⟩⟩)]
    exact absent_ne absent hj hp
  | @newDir name _ _ absent free dead table _ =>
    refine u.update table fun j _ _ hj hp => ?_
    rw [newDir_nameStr, take_27_of_short (ok ⟨absent, freeInode_ne_zero.mpr ⟨_, free, dead⟩⟩)]
    exact absent_ne absent hj hp
  | @grow _ _ id size live _ _ table _ =>
    refine u.update table fun j hne _ hj hp hn => hne (u j id hj live hp ?_)
    rwa [grown_nameStr ht] at hn
  | @rename old new _ found absent table _ =>
    exact u.update table fun j _ _ hj hp => rename_fresh found absent (ok found absent) j hj hp
  | delete found table _ => exact u.update table fun _ _ hv => absurd hv zero_not_live

theorem reachable_namesUnique {s : Fs} (h : Reachable shortNames s) : s.NamesUnique := by
  refine h.invariant (I := Fs.NamesUnique) ?_ ?_
  · intro s hs i j hi
    rw [(formatted_table hs).1] at hi
    exact absurd hi zero_not_live
  · rintro s t op hr hu ok rfl
    exact exec_namesUnique (reachable_dataBlocks hr) (reachable_terminated hr) hu ok.2

/-- A call updates the maps as its name says: with the new entry, without the old
one, or with the old one under its new name; a call that fails changes nothing. -/
def MapLaw (s : Fs) (op : FsOp) : Prop :=
  let r := (exec op s).1
  let t := (exec op s).2
  match op with
  | .create (some name) => t.entries = if r = 0
      then s.entries.set s.dir name (some (newFile s.dir name (s.disk.highest+1)))
      else s.entries
  | .mkdir name => t.entries = if r = 0
      then s.entries.set s.dir name (some (newDir s.dir name)) else s.entries
  | .delete name => t.entries = if r = 0 then s.entries.set s.dir name none else s.entries
  | .rename oldName newName => t.entries = if r = 0
      then (s.entries.set s.dir oldName none).set s.dir newName
        ((s.entries s.dir oldName).map fun v => v.setName newName)
      else s.entries
  | _ => True

theorem matches_iff_same {v : Inode} {name name' : CString} {dir dir' : UInt32}
    (h : v.Matches name dir) : v.Matches name' dir' ↔ dir' = dir ∧ name' = name := by
  constructor
  · rintro ⟨_, hp, hn⟩
    exact ⟨hp.symm.trans h.2.1, chars_inj.mp (hn.symm.trans h.2.2)⟩
  · rintro ⟨rfl, rfl⟩
    exact h

theorem newFile_matches {dir block : UInt32} {name : CString} (ne : name.chars ≠ [])
    (short : name.chars.length < fsNameMax) : (newFile dir name block).Matches name dir :=
  ⟨(newFile_live _ _ _).mpr ne, rfl, by rw [newFile_nameStr, take_27_of_short short]⟩

theorem newDir_matches {dir : UInt32} {name : CString} (ne : name.chars ≠ [])
    (short : name.chars.length < fsNameMax) : (newDir dir name).Matches name dir :=
  ⟨(newDir_live _ _).mpr ne, rfl, by rw [newDir_nameStr, take_27_of_short short]⟩

theorem setName_matches {v : Inode} {dir : UInt32} {name : CString} (hp : v.parent = dir)
    (ne : name.chars ≠ []) (short : name.chars.length < fsNameMax) :
    (v.setName name).Matches name dir :=
  ⟨(setName_live _ _).mpr ne, hp, by rw [setName_nameStr, take_27_of_short short]⟩

theorem entries_put {s t : Fs} {id dir : UInt32} {name : CString} {v : Inode} (us : s.NamesUnique)
    (ut : t.NamesUnique) (table : ∀ j, t.inode j = if j = id then v else s.inode j)
    (dead : ¬(s.inode id).live) (hv : v.Matches name dir) :
    t.entries = s.entries.set dir name (some v) := by
  funext dir' name'
  rw [entries_update us ut table, Directories.set]
  simp only [matches_iff_same hv, show ¬(s.inode id).Matches name' dir' from fun hm => dead hm.1,
    ↓reduceIte]

theorem mapLaw_of_storesName {s : Fs} {op : FsOp} (d : DataBlocks s.disk) (ht : s.NamesTerminated)
    (u : s.NamesUnique) (ne : namesNonempty op) (ok : storesName s op) : MapLaw s op := by
  have ut := exec_namesUnique d ht u ok
  cases op with
  | create name =>
    cases name with
    | none => trivial
    | some name =>
      simp only [MapLaw]
      split_ifs with h
      · have hr := create_ok_iff.mp h
        exact entries_put u ut (create_table h) (freeInode_spec hr.2).2
          (newFile_matches (ne name rfl) (ok hr))
      · rw [create_fails h]
  | mkdir name =>
    simp only [MapLaw]
    split_ifs with h
    · have hr := mkdir_ok_iff.mp h
      exact entries_put u ut (mkdir_table h) (freeInode_spec hr.2).2 (newDir_matches ne (ok hr))
    · rw [mkdir_fails h]
  | delete name =>
    simp only [MapLaw]
    split_ifs with h
    · have found := delete_ok_iff.mp h
      funext dir' name'
      rw [entries_update u ut (delete_table found), Directories.set,
        if_neg (fun hm => zero_not_live hm.1)]
      simp only [matches_iff_same (lookup_matches found)]
    · rw [delete_fails h]
  | rename old new =>
    simp only [MapLaw]
    split_ifs with h
    · obtain ⟨found, absent⟩ := rename_ok_iff.mp h
      have hold := lookup_matches found
      have hnew := setName_matches hold.2.1 ne.2 (ok found absent)
      have at_old : s.entries s.dir old = some (s.inode (s.disk.lookup old s.dir)) := if_neg found
      funext dir' name'
      rw [entries_update u ut (rename_table h)]
      simp only [matches_iff_same hnew, matches_iff_same hold, Directories.set, at_old,
        Option.map_some]
    · rw [rename_fails h]
  | _ => trivial

theorem matches_of_entries {s : Fs} {dir : UInt32} {name : CString} {v : Inode}
    (h : s.entries dir name = some v) : v.Matches name dir := by
  unfold Fs.entries at h
  split_ifs at h with h0
  rw [← Option.some.inj h]
  exact lookup_matches h0

theorem short_of_take {l : List UInt8} (h : l.take 27 = l) : l.length < fsNameMax := by
  have hl := congrArg List.length h
  rw [List.length_take] at hl
  change l.length < 28
  omega

theorem storesName_of_mapLaw {s : Fs} {op : FsOp} (law : MapLaw s op) : storesName s op := by
  cases op with
  | create name =>
    cases name with
    | none => trivial
    | some name =>
      intro hr
      simp only [MapLaw, create_ok_iff.mpr hr, ↓reduceIte] at law
      have hm := matches_of_entries (law ▸ set_self _ _ _ _)
      exact short_of_take ((newFile_nameStr _ _ _).symm.trans hm.2.2)
  | mkdir name =>
    intro hr
    simp only [MapLaw, mkdir_ok_iff.mpr hr, ↓reduceIte] at law
    have hm := matches_of_entries (law ▸ set_self _ _ _ _)
    exact short_of_take ((newDir_nameStr _ _).symm.trans hm.2.2)
  | rename old new =>
    intro found absent
    have at_old : s.entries s.dir old = some (s.inode (s.disk.lookup old s.dir)) := if_neg found
    simp only [MapLaw, rename_ok_iff.mpr ⟨found, absent⟩, ↓reduceIte, at_old, Option.map_some]
      at law
    have hm := matches_of_entries (law ▸ set_self _ _ _ _)
    exact short_of_take ((setName_nameStr _ _).symm.trans hm.2.2)
  | _ => trivial

/-- In the runs whose stored names all fit, each directory is a finite map that
`fs_stat` reads, and a call with a name that fits is the update it stands for; a
call whose name is cut is not. -/
theorem directories_are_maps {s : Fs} (h : Reachable shortNames s) :
    s.NamesUnique ∧
      (∀ name out, (s.call (fsStat s.dir name (some out))).1 =
        match s.entries s.dir name with
        | none => (-1, some out)
        | some v => (0, some v)) ∧
      ∀ op, namesNonempty op → (MapLaw s op ↔ storesName s op) := by
  have hu := reachable_namesUnique h
  refine ⟨hu, fsStat_stat s, fun op ne => ⟨storesName_of_mapLaw, fun ok => ?_⟩⟩
  exact mapLaw_of_storesName (reachable_dataBlocks h) (reachable_terminated h) hu ne ok

theorem directories_are_maps_fresh : freshFs.NamesUnique ∧
    (∀ name out, (freshFs.call (fsStat freshFs.dir name (some out))).1 =
      match freshFs.entries freshFs.dir name with
      | none => (-1, some out)
      | some v => (0, some v)) ∧
    ∀ op, namesNonempty op → (MapLaw freshFs op ↔ storesName freshFs op) :=
  directories_are_maps freshFs_reachable

def longName : CString := ⟨List.replicate 28 97, by decide⟩

/-- The file cannot be found under the name it was made with, so it can be made again. -/
theorem longName_breaks : (exec (.create (some longName)) freshFs).1 = 0 ∧
    (exec (.create (some longName)) freshFs).2.stat longName = none ∧
    (exec (.create (some longName)) (exec (.create (some longName)) freshFs).2).1 = 0 ∧
    ¬(runOps [.create (some longName), .create (some longName)] freshFs).NamesUnique := by
  rw [runOps_cons, runOps_cons, runOps_nil]
  have ok1 : (exec (.create (some longName)) freshFs).1 = 0 := by
    rw [create_ok_iff, lookup_scan freshFs_inode, freeInode_scan freshFs_inode, freshFs_dir]
    decide +kernel
  have table1 := create_table ok1
  have dir1 : (exec (.create (some longName)) freshFs).2.dir = 0 := by rw [create_dir, freshFs_dir]
  simp only [freeInode_scan freshFs_inode, show scanFree (fun _ => Inode.zero) = 1 by decide +kernel,
    freshFs_inode, freshFs_dir] at table1
  generalize (exec (.create (some longName)) freshFs).2 = s, freshFs.disk.highest+1 = block at *
  -- no stored name has 28 characters
  have absent (id : UInt32) : ¬(s.inode id).Matches longName 0 := by
    intro hm
    rw [table1] at hm
    split_ifs at hm
    · have hn := (newFile_nameStr _ _ _).symm.trans hm.2.2
      exact absurd hn (by decide)
    · exact zero_not_live hm.1
  have free : s.disk.freeInode ≠ 0 := by
    refine freeInode_ne_zero.mpr ⟨2, by decide, ?_⟩
    change ¬(s.inode 2).live
    rw [table1]
    exact zero_not_live
  have ok2 : (exec (.create (some longName)) s).1 = 0 :=
    create_ok_iff.mpr ⟨by rw [dir1]; exact lookup_eq_zero.mpr absent, free⟩
  have table2 := create_table ok2
  rw [dir1] at table2
  refine ⟨ok1, ?_, ok2, fun u => ?_⟩
  · rw [stat_entries, dir1]
    exact entries_none absent
  · have ne : 1 ≠ s.disk.freeInode := by
      intro he
      have dead := (freeInode_spec free).2
      rw [← he] at dead
      refine dead ?_
      change (s.inode 1).live
      rw [table1, if_pos rfl]
      exact (newFile_live _ _ _).mpr (by decide)
    have first := table2 1
    have second := table2 s.disk.freeInode
    rw [if_neg ne, table1, if_pos rfl] at first
    rw [if_pos rfl] at second
    refine ne (u _ _ ?_ ?_ ?_ ?_)
    · rw [first]; exact (newFile_live _ _ _).mpr (by decide)
    · rw [second]; exact (newFile_live _ _ _).mpr (by decide)
    · rw [first, second]; rfl
    · rw [first, second, newFile_nameStr, newFile_nameStr]

end TinyOS.NanoFS
