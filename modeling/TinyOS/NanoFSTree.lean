import TinyOS.NanoFSCalls
import TinyOS.AncestorChain

set_option autoImplicit false

namespace TinyOS.NanoFS
open ByteWords LibcString StateRuns AncestorChain

abbrev Fs.parentOf (s : Fs) (id : UInt32) : UInt32 := (s.inode id).parent

def Fs.IsDir (s : Fs) (id : UInt32) : Prop := (s.inode id).live ∧ (s.inode id).isDirectory ≠ 0

/-- The directories from `current_dir` up to the root. -/
structure Fs.Ancestors (s : Fs) (l : List UInt32) : Prop where
  chain : Chain s.parentOf 0 s.dir l
  isDir : ∀ id ∈ l, s.IsDir id

theorem live_ne_zero {s : Fs} {id : UInt32} (h : (s.inode id).live) : id ≠ 0 :=
  inodeIds_ne_zero (live_mem h)

theorem Fs.Ancestors.congr {s t : Fs} {l : List UInt32} (h : s.Ancestors l) (dir : t.dir = s.dir)
    (parent : ∀ j ∈ l, t.parentOf j = s.parentOf j) (isDir : ∀ j ∈ l, s.IsDir j → t.IsDir j) :
    t.Ancestors l where
  chain := by
    rw [dir]
    exact h.chain.congr parent
  isDir j hj := isDir j hj (h.isDir j hj)

theorem Fs.Ancestors.same {s t : Fs} {l : List UInt32} (h : s.Ancestors l)
    (table : ∀ j, t.inode j = s.inode j) (dir : t.dir = s.dir) : t.Ancestors l := by
  refine h.congr dir (fun j _ => ?_) (fun j _ hd => ?_)
  · simp only [Fs.parentOf, table]
  · simpa only [Fs.IsDir, table] using hd

theorem Fs.Ancestors.update {s t : Fs} {l : List UInt32} {id : UInt32} {v : Inode}
    (h : s.Ancestors l) (off : id ∉ l) (table : ∀ j, t.inode j = if j = id then v else s.inode j)
    (dir : t.dir = s.dir) : t.Ancestors l := by
  have hne {j : UInt32} (hj : j ∈ l) : t.inode j = s.inode j := by
    rw [table, if_neg (by rintro rfl; exact off hj)]
  refine h.congr dir (fun j hj => ?_) (fun j hj hd => ?_)
  · simp only [Fs.parentOf, hne hj]
  · simpa only [Fs.IsDir, hne hj] using hd

theorem Fs.Ancestors.entry_off {s : Fs} {l : List UInt32} {name : CString} (h : s.Ancestors l)
    (found : s.disk.lookup name s.dir ≠ 0) : s.disk.lookup name s.dir ∉ l := by
  have hm := lookup_matches found
  have hp : s.parentOf (s.disk.lookup name s.dir) = s.dir := hm.2.1
  exact (hp ▸ h.chain).not_mem_tail found

theorem Fs.Ancestors.dead_off {s : Fs} {l : List UInt32} {id : UInt32} (h : s.Ancestors l)
    (dead : ¬(s.inode id).live) : id ∉ l := fun hm => dead (h.isDir id hm).1

theorem effect_ancestors {s t : Fs} {op : FsOp} {l : List UInt32} (h : s.Ancestors l)
    (e : Effect s op t) : ∃ m, t.Ancestors m := by
  have root (hd : t.dir = 0) : t.Ancestors [] := ⟨hd ▸ .root, by simp⟩
  cases e with
  | quiet table dir => exact ⟨l, h.same table dir⟩
  | format _ dir => exact ⟨[], root dir⟩
  | home _ dir => exact ⟨[], root dir⟩
  | up table ne dir =>
    have hsame : ∀ j, t.parentOf j = s.parentOf j := fun j => by simp only [Fs.parentOf, table]
    refine ⟨l.tail, ?_, fun j hj => ?_⟩
    · rw [dir]
      exact (h.chain.above ne).congr fun j _ => hsame j
    · simpa only [Fs.IsDir, table] using h.isDir j (List.mem_of_mem_tail hj)
  | enter table found isDir =>
    have hp : s.parentOf t.dir = s.dir := found.2.1
    refine ⟨t.dir :: l, ?_, fun j hj => ?_⟩
    · refine (Chain.up (live_ne_zero found.1) (hp ▸ h.chain)).congr fun j _ => ?_
      simp only [Fs.parentOf, table]
    · rcases List.mem_cons.mp hj with rfl | hj
      · simpa only [Fs.IsDir, table] using And.intro found.1 isDir
      · simpa only [Fs.IsDir, table] using h.isDir j hj
  | newFile _ _ dead table dir => exact ⟨l, h.update (h.dead_off dead) table dir⟩
  | newDir _ _ dead table dir => exact ⟨l, h.update (h.dead_off dead) table dir⟩
  | @grow _ _ id size live _ _ table dir =>
    -- a write keeps name, parent and kind of the file
    refine ⟨l, h.congr dir (fun j _ => ?_) (fun j _ hd => ?_)⟩
    · simp only [Fs.parentOf, table]
      split_ifs with hj
      · rw [hj]; rfl
      · rfl
    · unfold Fs.IsDir at hd ⊢
      rw [table]
      split_ifs with hj
      · rw [hj] at hd; exact hd
      · exact hd
  | rename found _ table dir => exact ⟨l, h.update (h.entry_off found) table dir⟩
  | delete found table dir => exact ⟨l, h.update (h.entry_off found) table dir⟩

theorem reachable_ancestors {allow : Fs → FsOp → Prop} {s : Fs} (h : Reachable allow s) :
    ∃ l, s.Ancestors l := by
  refine reachable_invariant (I := fun s => ∃ l, s.Ancestors l) h ?_ ?_
  · intro s _ hd
    exact ⟨[], hd ▸ .root, by simp⟩
  · rintro s t op ⟨l, hl⟩ _ e
    exact effect_ancestors hl e

theorem inodeIds_toFinset_card : inodeIds.toFinset.card = 72 := by decide

theorem Fs.Ancestors.length_le {s : Fs} {l : List UInt32} (h : s.Ancestors l) : l.length ≤ 72 := by
  rw [← inodeIds_toFinset_card]
  exact h.chain.length_le _ fun j hj => List.mem_toFinset.mpr (live_mem (h.isDir j hj).1)

theorem Fs.Ancestors.dir_isDir {s : Fs} {l : List UInt32} (h : s.Ancestors l) (ne : s.dir ≠ 0) :
    s.IsDir s.dir := h.isDir _ (h.chain.mem ne)

theorem pwdLoop_run {d : Disk} {dir : UInt32} {l : List UInt32}
    (h : Chain (fun id => (d.inode id).parent) 0 dir l) (fuel : ℕ) (hf : l.length ≤ fuel)
    (st : ℤ × (ℤ → UInt8)) :
    (pwdLoop fuel dir st : DiskM (Option (ℤ × (ℤ → UInt8)))).run d =
      (some (l.foldl (fun st id => pushName (d.inode id).nameStr st) st), d) := by
  induction h generalizing fuel st with
  | root =>
    unfold pwdLoop
    rw [if_pos rfl]
    rfl
  | @up a l ne _ ih =>
    cases fuel with
    | zero => simp at hf
    | succ fuel =>
      unfold pwdLoop
      rw [if_neg ne, bind_run, inodeRead_run, List.foldl_cons]
      exact ih fuel (by simpa using hf) _

theorem fsGetPwd_run {s : Fs} {l : List UInt32} (h : s.Ancestors l) (tmp : ℤ → UInt8) :
    ∃ path, ∀ fuel, l.length ≤ fuel →
      (fsGetPwd fuel s.dir tmp : DiskM (Option (List UInt8))).run s.disk = (some path, s.disk) := by
  unfold fsGetPwd
  split_ifs with h0
  · exact ⟨[47], fun _ _ => rfl⟩
  · refine ⟨?path, fun fuel hf => ?run⟩
    case run => rw [bind_run, pwdLoop_run h.chain fuel hf, Option.map_some, pure_run]

/-- The path to the root passes distinct live directories, at most one for each
inode, so the loop of `fs_get_pwd` ends and its fuel does not show. -/
theorem getPwd_terminates {s : Fs} (h : Reachable anyCall s) :
    (s.dir = 0 ∨ s.IsDir s.dir) ∧
      ∃ l, Chain s.parentOf 0 s.dir l ∧ l.Nodup ∧ (∀ id ∈ l, s.IsDir id) ∧
        l.length ≤ fsMaxInodes.toNat ∧
        ∀ tmp, ∃ path, ∀ fuel, l.length ≤ fuel →
          (fsGetPwd fuel s.dir tmp : DiskM (Option (List UInt8))).run s.disk =
            (some path, s.disk) := by
  obtain ⟨l, hl⟩ := reachable_ancestors h
  refine ⟨?_, l, hl.chain, hl.chain.nodup, hl.isDir, hl.length_le, fsGetPwd_run hl⟩
  by_cases h0 : s.dir = 0
  · exact .inl h0
  · exact .inr (hl.dir_isDir h0)

def insideD : Fs := runOps [.mkdir nameD, .changeDir nameD] freshFs

def tableD : UInt32 → Inode := fun j => if j = 1 then newDir 0 nameD else Inode.zero

theorem insideD_inode (j : UInt32) : insideD.inode j = tableD j := by
  have ok : (exec (.mkdir nameD) freshFs).1 = 0 := by
    rw [mkdir_ok_iff, lookup_scan freshFs_inode, freeInode_scan freshFs_inode, freshFs_dir]
    decide +kernel
  have free : scanFree (fun _ => Inode.zero) = 1 := by decide +kernel
  rw [insideD, runOps_cons, runOps_cons, runOps_nil, changeDir_inode, mkdir_table ok,
    freeInode_scan freshFs_inode, free, freshFs_inode, freshFs_dir, tableD]

theorem insideD_dir : insideD.dir = 1 := by
  have table (j : UInt32) : (exec (.mkdir nameD) freshFs).2.inode j = tableD j := by
    rw [← insideD_inode, insideD, runOps_cons, runOps_cons, runOps_nil, changeDir_inode]
  have look : (exec (.mkdir nameD) freshFs).2.disk.lookup nameD freshFs.dir = 1 := by
    rw [lookup_scan table, freshFs_dir]
    decide +kernel
  have enter := @changeDir_enter (exec (.mkdir nameD) freshFs).2 nameD (by decide)
  rw [mkdir_dir, look, table] at enter
  exact enter (by decide) (by decide)

theorem getPwd_terminates_insideD : (insideD.dir = 0 ∨ insideD.IsDir insideD.dir) ∧
    ∃ l, Chain insideD.parentOf 0 insideD.dir l ∧ l.Nodup ∧ (∀ id ∈ l, insideD.IsDir id) ∧
      l.length ≤ fsMaxInodes.toNat ∧
      ∀ tmp, ∃ path, ∀ fuel, l.length ≤ fuel →
        (fsGetPwd fuel insideD.dir tmp : DiskM (Option (List UInt8))).run insideD.disk =
          (some path, insideD.disk) :=
  getPwd_terminates (reachable_runOps freshFs_reachable _)

def Fs.TreeOK (s : Fs) : Prop :=
  ∀ j, (s.inode j).live → s.parentOf j = 0 ∨ s.IsDir (s.parentOf j)

def Fs.Childless (s : Fs) (id : UInt32) : Prop :=
  id ≠ 0 → ∀ j, (s.inode j).live → s.parentOf j ≠ id

/-- The calls that free no inode with entries; a rename to "" frees one too. -/
def keepsTree (s : Fs) : FsOp → Prop
  | .delete name => s.Childless (s.disk.lookup name s.dir)
  | .rename oldName newName => newName.chars = [] → s.Childless (s.disk.lookup oldName s.dir)
  | _ => True

theorem Fs.TreeOK.same {s t : Fs} (h : s.TreeOK) (table : ∀ j, t.inode j = s.inode j) :
    t.TreeOK := by
  intro j hl
  simp only [Fs.parentOf, Fs.IsDir, table] at hl ⊢
  exact h j hl

/-- One inode changes: it needs a directory above it, its entries need it. -/
theorem Fs.TreeOK.update {s t : Fs} {id : UInt32} {v : Inode} (h : s.TreeOK)
    (table : ∀ j, t.inode j = if j = id then v else s.inode j)
    (above : v.live → v.parent = 0 ∨ v.parent ≠ id ∧ s.IsDir v.parent)
    (below : ∀ j, (s.inode j).live → s.parentOf j = id → id = 0 ∨ v.live ∧ v.isDirectory ≠ 0) :
    t.TreeOK := by
  have keep {p : UInt32} (ne : p ≠ id) (hd : s.IsDir p) : t.IsDir p := by
    rw [Fs.IsDir, table, if_neg ne]
    exact hd
  intro j hl
  rw [Fs.parentOf]
  rw [table] at hl ⊢
  split_ifs at hl ⊢ with hj
  · exact (above hl).imp_right fun ⟨ne, hd⟩ => keep ne hd
  · by_cases hp : s.parentOf j = id
    · rw [show (s.inode j).parent = id from hp]
      refine (below j hl hp).imp_right fun hd => ?_
      rw [Fs.IsDir, table, if_pos rfl]
      exact hd
    · exact (h j hl).imp_right (keep hp)

theorem Fs.TreeOK.no_orphans {s : Fs} {id j : UInt32} (h : s.TreeOK) (dead : ¬(s.inode id).live)
    (hl : (s.inode j).live) (hp : s.parentOf j = id) : id = 0 := by
  rcases h j hl with h0 | hd
  · exact hp ▸ h0
  · exact absurd (hp ▸ hd.1) dead

theorem Fs.Ancestors.lookup_ne_dir {s : Fs} {l : List UInt32} {name : CString}
    (h : s.Ancestors l) (found : s.disk.lookup name s.dir ≠ 0) :
    s.dir ≠ s.disk.lookup name s.dir := by
  intro he
  have hd : s.dir ∈ l := h.chain.mem (he ▸ found)
  exact h.entry_off found (he ▸ hd)

theorem effect_treeOK {s t : Fs} {op : FsOp} {l : List UInt32} (h : s.TreeOK) (ha : s.Ancestors l)
    (ok : keepsTree s op) (e : Effect s op t) : t.TreeOK := by
  -- the directory a new entry is put in
  have here {id : UInt32} (dead : ¬(s.inode id).live) : s.dir = 0 ∨ s.dir ≠ id ∧ s.IsDir s.dir := by
    by_cases h0 : s.dir = 0
    · exact .inl h0
    · refine .inr ⟨?_, ha.dir_isDir h0⟩
      rintro rfl
      exact dead (ha.dir_isDir h0).1
  cases e with
  | quiet table _ | home table _ | up table _ _ | enter table _ _ => exact h.same table
  | format table _ =>
    intro j hl
    rw [table] at hl
    exact absurd hl zero_not_live
  | newFile _ _ dead table _ =>
    exact h.update table (fun _ => here dead) fun j hl hp => .inl (h.no_orphans dead hl hp)
  | newDir _ _ dead table _ =>
    exact h.update table (fun _ => here dead) fun j hl hp => .inl (h.no_orphans dead hl hp)
  | @grow _ _ id size live isFile _ table _ =>
    -- a file has no entries, so it is not its own parent either
    have leaf (j : UInt32) (hl : (s.inode j).live) (hp : s.parentOf j = id) : id = 0 := by
      rcases h j hl with h0 | hd
      · exact hp ▸ h0
      · exact absurd isFile (hp ▸ hd.2)
    refine h.update table (fun _ => ?_) fun j hl hp => .inl (leaf j hl hp)
    refine (h id live).imp_right fun hd => ⟨?_, hd⟩
    intro hp
    exact live_ne_zero live (leaf id live hp)
  | @rename old new _ found _ table _ =>
    have hm := lookup_matches found
    have hp : (s.inode (s.disk.lookup old s.dir)).parent = s.dir := hm.2.1
    refine h.update table (fun _ => ?_) fun j hl hp => ?_
    · change (s.inode (s.disk.lookup old s.dir)).parent = 0 ∨ _
      by_cases h0 : s.dir = 0
      · exact .inl (hp.trans h0)
      · refine .inr ⟨?_, ?_⟩
        · change (s.inode (s.disk.lookup old s.dir)).parent ≠ _
          rw [hp]
          exact ha.lookup_ne_dir found
        · change s.IsDir (s.inode (s.disk.lookup old s.dir)).parent
          rw [hp]
          exact ha.dir_isDir h0
    · refine .inr ⟨(setName_live _ _).mpr fun hn => ok hn found j hl hp, ?_⟩
      rcases h j hl with h0 | hd
      · exact absurd (hp.symm.trans h0) found
      · exact hp ▸ hd.2
  | delete found table _ =>
    refine h.update table (fun hl => absurd hl zero_not_live) fun j hl hp => ?_
    exact absurd hp (ok found j hl)

theorem not_treeOK_of_freed {s t : Fs} {id j : UInt32} {v : Inode}
    (table : ∀ j, t.inode j = if j = id then v else s.inode j) (dead : ¬v.live)
    (ne0 : id ≠ 0) (hl : (s.inode j).live) (hp : s.parentOf j = id) (ne : j ≠ id) : ¬t.TreeOK := by
  intro h
  have hj : t.inode j = s.inode j := by rw [table, if_neg ne]
  have hid : t.inode id = v := by rw [table, if_pos rfl]
  rcases h j (hj ▸ hl) with h0 | hd
  · rw [Fs.parentOf, hj] at h0
    exact ne0 (hp.symm.trans h0)
  · rw [Fs.parentOf, hj, show (s.inode j).parent = id from hp, Fs.IsDir, hid] at hd
    exact dead hd.1

theorem keepsTree_of_treeOK {s : Fs} {op : FsOp} {l : List UInt32} (ha : s.Ancestors l)
    (h : (exec op s).2.TreeOK) : keepsTree s op := by
  have own {name : CString} (found : s.disk.lookup name s.dir ≠ 0) :
      s.parentOf (s.disk.lookup name s.dir) ≠ s.disk.lookup name s.dir := by
    have hp : s.parentOf (s.disk.lookup name s.dir) = s.dir := (lookup_matches found).2.1
    rw [hp]
    exact ha.lookup_ne_dir found
  cases op with
  | delete name =>
    intro found j hl hp
    refine not_treeOK_of_freed (delete_table found) zero_not_live found hl hp ?_ h
    rintro rfl
    exact own found hp
  | rename old new =>
    intro hn found j hl hp
    have absent : s.disk.lookup new s.dir = 0 := by
      rw [lookup_eq_zero]
      rintro id ⟨hlive, _, he⟩
      exact (live_iff_nameStr _).mp hlive (he.trans hn)
    have hok := rename_ok_iff.mpr ⟨found, absent⟩
    refine not_treeOK_of_freed (rename_table hok) (fun hv => (setName_live _ _).mp hv hn) found hl
      hp ?_ h
    rintro rfl
    exact own found hp
  | _ => trivial

theorem reachable_treeOK {s : Fs} (h : Reachable keepsTree s) : s.TreeOK := by
  have both : s.TreeOK ∧ ∃ l, s.Ancestors l := by
    refine reachable_invariant (I := fun s => s.TreeOK ∧ ∃ l, s.Ancestors l) h ?_ ?_
    · intro s table hd
      refine ⟨fun j hl => ?_, [], hd ▸ .root, by simp⟩
      rw [table] at hl
      exact absurd hl zero_not_live
    · rintro s t op ⟨ht, l, hl⟩ ok e
      exact ⟨effect_treeOK ht hl ok e, effect_ancestors hl e⟩
  exact both.1

/-- In the runs that free no inode with entries the table is a tree; the first
call that frees one breaks it. -/
theorem tree_iff_keepsTree {s : Fs} (h : Reachable keepsTree s) :
    s.TreeOK ∧ ∀ op, (exec op s).2.TreeOK ↔ keepsTree s op := by
  obtain ⟨l, hl⟩ := reachable_ancestors h
  have ht := reachable_treeOK h
  refine ⟨ht, fun op => ⟨keepsTree_of_treeOK hl, fun ok => ?_⟩⟩
  exact effect_treeOK ht hl ok (exec_effect (reachable_dataBlocks h) op)

theorem insideD_keepsTree : Reachable keepsTree insideD := by
  rw [insideD, runOps_cons, runOps_cons, runOps_nil]
  exact .step (i := .changeDir nameD) (.step (i := .mkdir nameD) freshFs_reachable trivial rfl)
    trivial rfl

theorem tree_iff_keepsTree_insideD :
    insideD.TreeOK ∧ ∀ op, (exec op insideD).2.TreeOK ↔ keepsTree insideD op :=
  tree_iff_keepsTree insideD_keepsTree

def orphaned : Fs :=
  runOps [.create (some nameF), .changeDir nameUp, .delete nameD] insideD

theorem orphaned_not_tree : Reachable anyCall orphaned ∧ ¬orphaned.TreeOK := by
  refine ⟨reachable_runOps (reachable_runOps freshFs_reachable _) _, ?_⟩
  have ok : (exec (.create (some nameF)) insideD).1 = 0 := by
    rw [create_ok_iff, lookup_scan insideD_inode, freeInode_scan insideD_inode, insideD_dir]
    decide +kernel
  have table (j : UInt32) : (exec (.create (some nameF)) insideD).2.inode j =
      if j = 2 then newFile 1 nameF (insideD.disk.highest+1) else tableD j := by
    have free : scanFree tableD = 2 := by decide +kernel
    rw [create_table ok, freeInode_scan insideD_inode, free, insideD_inode, insideD_dir]
  have dir : (exec (.create (some nameF)) insideD).2.dir = 1 := by rw [create_dir, insideD_dir]
  rw [orphaned, runOps_cons, runOps_cons, runOps_cons, runOps_nil]
  generalize (exec (.create (some nameF)) insideD).2 = s, insideD.disk.highest+1 = block at *
  have up : (exec (.changeDir nameUp) s).2.dir = 0 := by
    rw [changeDir_up rfl (by rw [dir]; decide), dir, table]
    rfl
  have found : (exec (.changeDir nameUp) s).2.disk.lookup nameD 0 = 1 := by
    have at1 : (exec (.changeDir nameUp) s).2.inode 1 = newDir 0 nameD := by
      rw [changeDir_inode, table]
      rfl
    refine lookup_unique ?_ fun j (hm : Inode.Matches (Fs.inode _ j) nameD 0) => ?_
    · change Inode.Matches (Fs.inode _ 1) nameD 0
      rw [at1]
      exact ⟨(newDir_live _ _).mpr (by decide), rfl, newDir_nameStr _ _⟩
    rw [changeDir_inode, table, tableD] at hm
    split_ifs at hm with h2 h1
    · exact absurd hm.2.1 (show ¬(1 : UInt32) = 0 by decide)
    · exact h1
    · exact absurd hm.1 zero_not_live
  have at2 : (exec (.changeDir nameUp) s).2.inode 2 = newFile 1 nameF block := by
    rw [changeDir_inode, table]
    rfl
  rw [← up] at found
  refine not_treeOK_of_freed (j := 2) (delete_table ?_) zero_not_live ?_ ?_ ?_ ?_
  · rw [found]; decide
  · rw [found]; decide
  · rw [at2]; exact (newFile_live _ _ _).mpr (by decide)
  · rw [Fs.parentOf, at2, found]; rfl
  · rw [found]; decide

end TinyOS.NanoFS
