import TinyOS.NanoFSMachine

set_option autoImplicit false

namespace TinyOS.NanoFS
open ByteWords LibcString StateRuns

theorem cstr_append_of_mem {a b : List UInt8} (h : 0 ∈ a) : cstr (a++b) = cstr a := by
  induction a with
  | nil => simp at h
  | cons c a ih =>
    rw [List.cons_append, cstr_cons, cstr_cons]
    split_ifs with hc
    · rfl
    · rw [ih (by rcases List.mem_cons.mp h with h | h; exacts [absurd h.symm hc, h])]

theorem bytes_take (v : Inode) : (List.ofFn v.bytes).take 28 = List.ofFn v.name := by
  apply List.ext_getElem
  · rw [List.length_take, List.length_ofFn, List.length_ofFn]
    rfl
  · intro i _ h2
    rw [List.length_ofFn] at h2
    rw [List.getElem_take, List.getElem_ofFn, List.getElem_ofFn]
    exact dif_pos h2

/-- A name with a terminator does not run on into the next fields. -/
theorem nameStr_of_mem {v : Inode} (h : 0 ∈ List.ofFn v.name) : v.nameStr = cstr (List.ofFn v.name) := by
  have hs := List.take_append_drop 28 (List.ofFn v.bytes)
  rw [bytes_take] at hs
  rw [Inode.nameStr, ← hs, cstr_append_of_mem h]

theorem live_iff_nameStr (v : Inode) : v.live ↔ v.nameStr ≠ [] := by
  have hb : List.ofFn v.bytes = v.name 0 :: List.ofFn fun i : Fin 53 => v.bytes i.succ := by
    rw [List.ofFn_succ]
    rfl
  rw [Inode.nameStr, hb, cstr_cons, Inode.live]
  split_ifs with h <;> simp [h]

theorem setName_list (v : Inode) (name : CString) :
    List.ofFn (v.setName name).name = strncpy name.chars 27++[0] := by
  have hlen := strncpy_length name.chars 28
  apply List.ext_getElem
  · simp
  · intro i h1 h2
    have hi : i < 28 := by simpa using h1
    rw [List.getElem_ofFn]
    by_cases h27 : i < 27
    · have hne : (⟨i, hi⟩ : Fin 28) ≠ 27 := fun e => by
        have := congrArg Fin.val e
        simp at this
        omega
      rw [List.getElem_append_left (by simpa using h27)]
      simp only [Inode.setName, Function.update_of_ne hne, fsNameMax]
      rw [List.getD_eq_getElem _ _ (by omega)]
      simp only [← strncpy_take name.chars 28 27 (by omega), List.getElem_take]
    · have he : i = 27 := by omega
      subst he
      simp [Inode.setName]

theorem setName_nameStr (v : Inode) (name : CString) :
    (v.setName name).nameStr = name.chars.take 27 := by
  rw [nameStr_of_mem (by rw [setName_list]; simp), setName_list]
  by_cases h : 0 ∈ strncpy name.chars 27
  · rw [cstr_append_of_mem h, cstr_strncpy, cstr_chars]
  · have hc := cstr_strncpy name.chars 27
    rw [cstr_of_noNul h, cstr_chars] at hc
    rw [hc, cstr, List.takeWhile_append_of_pos]
    · simp
    · intro c hm
      rw [← hc] at hm
      simpa using fun e : c = 0 => h (e ▸ hm)

theorem nameStr_congr {v w : Inode} (h : v.name = w.name) (hw : 0 ∈ List.ofFn w.name) :
    v.nameStr = w.nameStr := by
  rw [nameStr_of_mem hw, nameStr_of_mem (h ▸ hw), h]

theorem setName_terminated (v : Inode) (name : CString) : 0 ∈ List.ofFn (v.setName name).name := by
  rw [setName_list]
  simp

@[simp] theorem newFile_nameStr (dir : UInt32) (name : CString) (block : UInt32) :
    (newFile dir name block).nameStr = name.chars.take 27 := by
  have hn : (newFile dir name block).name = (Inode.zero.setName name).name := rfl
  rw [nameStr_congr hn (setName_terminated Inode.zero name), setName_nameStr]

@[simp] theorem newDir_nameStr (dir : UInt32) (name : CString) :
    (newDir dir name).nameStr = name.chars.take 27 := by
  have hn : (newDir dir name).name = (Inode.zero.setName name).name := rfl
  rw [nameStr_congr hn (setName_terminated Inode.zero name), setName_nameStr]

theorem take_27_ne_nil {l : List UInt8} : l.take 27 ≠ [] ↔ l ≠ [] := by
  cases l <;> simp

theorem setName_live (v : Inode) (name : CString) : (v.setName name).live ↔ name.chars ≠ [] := by
  rw [live_iff_nameStr, setName_nameStr, take_27_ne_nil]

theorem newFile_live (dir : UInt32) (name : CString) (block : UInt32) :
    (newFile dir name block).live ↔ name.chars ≠ [] := by
  rw [live_iff_nameStr, newFile_nameStr, take_27_ne_nil]

theorem newDir_live (dir : UInt32) (name : CString) :
    (newDir dir name).live ↔ name.chars ≠ [] := by
  rw [live_iff_nameStr, newDir_nameStr, take_27_ne_nil]

theorem zero_not_live : ¬Inode.zero.live := fun h => h rfl

/-- No live inode points into the superblock's neighbours: block numbers are 0 or
data sectors. -/
def DataBlocks (d : Disk) : Prop :=
  ∀ id, (d.inode id).live → ∀ b, (d.inode id).blocks b = 0 ∨ fsDataStart ≤ (d.inode id).blocks b

/-- What one call does to the table and to `current_dir`. -/
inductive Effect (s : Fs) : FsOp → Fs → Prop where
  | quiet {op : FsOp} {t : Fs} (table : ∀ j, t.inode j = s.inode j) (dir : t.dir = s.dir) :
      Effect s op t
  | format {t : Fs} (table : ∀ j, t.inode j = Inode.zero) (dir : t.dir = 0) : Effect s .format t
  | home {op : FsOp} {t : Fs} (table : ∀ j, t.inode j = s.inode j) (dir : t.dir = 0) : Effect s op t
  | up {name : CString} {t : Fs} (table : ∀ j, t.inode j = s.inode j) (ne : s.dir ≠ 0)
      (dir : t.dir = (s.inode s.dir).parent) : Effect s (.changeDir name) t
  | enter {name : CString} {t : Fs} (table : ∀ j, t.inode j = s.inode j)
      (found : (s.inode t.dir).Matches name s.dir) (isDir : (s.inode t.dir).isDirectory ≠ 0) :
      Effect s (.changeDir name) t
  | newFile {name : CString} {t : Fs} {id : UInt32} (absent : s.disk.lookup name s.dir = 0)
      (free : id ∈ inodeIds) (dead : ¬(s.inode id).live)
      (table : ∀ j, t.inode j =
        if j = id then newFile s.dir name (s.disk.highest+1) else s.inode j)
      (dir : t.dir = s.dir) : Effect s (.create (some name)) t
  | newDir {name : CString} {t : Fs} {id : UInt32} (absent : s.disk.lookup name s.dir = 0)
      (free : id ∈ inodeIds) (dead : ¬(s.inode id).live)
      (table : ∀ j, t.inode j = if j = id then newDir s.dir name else s.inode j)
      (dir : t.dir = s.dir) : Effect s (.mkdir name) t
  | grow {op : FsOp} {t : Fs} {id size : UInt32} (live : (s.inode id).live)
      (isFile : (s.inode id).isDirectory = 0) (fits : size.toNat ≤ 2044)
      (table : ∀ j, t.inode j = if j = id then s.disk.grown (s.inode id) size else s.inode j)
      (dir : t.dir = s.dir) : Effect s op t
  | rename {old new : CString} {t : Fs} (found : s.disk.lookup old s.dir ≠ 0)
      (absent : s.disk.lookup new s.dir = 0)
      (table : ∀ j, t.inode j = if j = s.disk.lookup old s.dir
        then (s.inode (s.disk.lookup old s.dir)).setName new else s.inode j)
      (dir : t.dir = s.dir) : Effect s (.rename old new) t
  | delete {name : CString} {t : Fs} (found : s.disk.lookup name s.dir ≠ 0)
      (table : ∀ j, t.inode j = if j = s.disk.lookup name s.dir then Inode.zero else s.inode j)
      (dir : t.dir = s.dir) : Effect s (.delete name) t

theorem highest_add_one (d : Disk) : d.highest+1 = 0 ∨
    (d.highest+1).toNat = d.highest.toNat+1 ∧ fsDataStart ≤ d.highest+1 := by
  have h8 := eight_le_highest d
  have hlt := d.highest.toNat_lt
  have hadd := UInt32.toNat_add d.highest 1
  rw [UInt32.le_iff_toNat_le] at h8
  simp only [fsDataStart, UInt32.le_iff_toNat_le, UInt32.reduceToNat, ← UInt32.toNat_inj] at *
  omega

theorem grown_blocks {d : Disk} {id : UInt32} (h : DataBlocks d) (hl : (d.inode id).live)
    (size : UInt32) (b : Fin 4) : (d.grown (d.inode id) size).blocks b = 0 ∨
      fsDataStart ≤ (d.grown (d.inode id) size).blocks b := by
  simp only [Disk.grown, Disk.fill]
  split_ifs
  · exact (highest_add_one d).imp_right And.right
  · exact h id hl b

theorem writeBlocks_inode (d : Disk) (data : Buffer) (blocks : Fin 4 → UInt32) (size : ℕ)
    (bs : List (Fin 4)) (h : ∀ b, blocks b = 0 ∨ fsDataStart ≤ blocks b) (j : UInt32) :
    (d.writeBlocks data blocks size bs).inode j = d.inode j := by
  induction bs generalizing d with
  | nil => rfl
  | cons b bs ih => exact (ih _).trans (inode_write d _ _ (h b) j)

theorem store_inode {d : Disk} {id : UInt32} (h : DataBlocks d) (hl : (d.inode id).live)
    (data : Buffer) (size : UInt32) (bs : List (Fin 4)) (j : UInt32) :
    (d.store id data size bs).inode j =
      if j = id then d.grown (d.inode id) size else d.inode j := by
  rw [Disk.store, inode_putInode _ _ (live_mem hl),
    writeBlocks_inode _ _ _ _ _ (grown_blocks h hl size)]

theorem call_readOnly {α : Type} (s : Fs) {x : DiskM α} (h : ReadOnly x) : (s.call x).2 = s := by
  unfold Fs.call
  rw [h]

theorem fsRead_readOnly (dir : UInt32) (name : Option CString) (buffer : Option Buffer)
    (bufSize : UInt32) : ReadOnly (fsRead dir name buffer bufSize) := by
  intro d
  cases name with
  | none => rfl
  | some name =>
    cases buffer with
    | none => rfl
    | some buffer =>
      rw [fsRead_run]
      split_ifs <;> rfl

theorem fsStat_readOnly (dir : UInt32) (name : CString) (out : Option Inode) :
    ReadOnly (fsStat dir name out) := by
  intro d
  cases out with
  | none => rfl
  | some out =>
    rw [fsStat_run]
    split_ifs <;> rfl

/-- A write that goes through: the file, its new content and size, and the slots
stored to. -/
structure Transfer where
  id : UInt32
  data : Buffer
  size : UInt32
  slots : List (Fin 4)

/-- The regular file of a name in `current_dir`. -/
def Fs.file (s : Fs) (name : CString) : Option UInt32 :=
  if s.disk.lookup name s.dir = 0 then none
  else if (s.inode (s.disk.lookup name s.dir)).isDirectory ≠ 0 then none
  else some (s.disk.lookup name s.dir)

def Fs.transfer (s : Fs) : FsOp → Option Transfer
  | .write (some name) (some data) =>
    (s.file name).map fun id => ⟨id, text data, textLen data, textRange (textLen data)⟩
  | .writeBinary (some name) (some data) size =>
    (s.file name).bind fun id =>
      if size > fsMaxBlocks*511 then none else some ⟨id, data, size, blockRange (blocksFor size)⟩
  | .append scratch (some name) (some data) =>
    (s.file name).bind fun id =>
      let newSize := appendSize (s.inode id).size data
      if newSize-(s.inode id).size = 0 then none
      else some ⟨id, s.disk.appended (s.inode id) scratch data, newSize,
        blockRange (blocksFor newSize)⟩
  | _ => none

def Fs.target (s : Fs) : FsOp → UInt32
  | .create _ | .mkdir _ => s.disk.freeInode
  | .write (some name) _ | .writeBinary (some name) _ _ | .append _ (some name) _ =>
    s.disk.lookup name s.dir
  | .delete name | .rename name _ => s.disk.lookup name s.dir
  | _ => 0

theorem file_none {s : Fs} {name : CString} (h : s.disk.lookup name s.dir = 0) :
    s.file name = none := if_pos h

theorem file_dir {s : Fs} {name : CString}
    (h : (s.inode (s.disk.lookup name s.dir)).isDirectory ≠ 0) : s.file name = none := by
  unfold Fs.file
  split_ifs <;> rfl

theorem file_some {s : Fs} {name : CString} (h : s.disk.lookup name s.dir ≠ 0)
    (hf : ¬(s.inode (s.disk.lookup name s.dir)).isDirectory ≠ 0) :
    s.file name = some (s.disk.lookup name s.dir) := by
  rw [Fs.file, if_neg h, if_neg hf]

def FsOp.Writes : FsOp → Prop
  | .write .. | .writeBinary .. | .append .. => True
  | _ => False

/-- What such a call comes to: it leaves everything as it was, or stores a transfer. -/
inductive Written (s : Fs) (op : FsOp) (r : ℤ × Fs) : Prop where
  | idle (none : s.transfer op = none) (same : r.2 = s) : Written s op r
  | stored {tr : Transfer} (some : s.transfer op = some tr) (live : (s.inode tr.id).live)
      (target : s.target op = tr.id) (isFile : (s.inode tr.id).isDirectory = 0)
      (fits : tr.size.toNat ≤ 2044)
      (result : r = (0, { s with disk := s.disk.store tr.id tr.data tr.size tr.slots })) :
      Written s op r

theorem exec_written {s : Fs} (op : FsOp) (writes : op.Writes) : Written s op (exec op s) := by
  cases op with
  | write name data =>
    cases name with
    | none => exact .idle rfl rfl
    | some name =>
      cases data with
      | none => exact .idle rfl rfl
      | some data =>
        simp only [exec, Fs.call, fsWrite_run]
        split_ifs with h1 h2
        · exact .idle (by rw [Fs.transfer, file_none h1, Option.map_none]) rfl
        · exact .idle (by rw [Fs.transfer, file_dir h2, Option.map_none]) rfl
        · have busy : s.transfer (.write (some name) (some data)) =
              some ⟨s.disk.lookup name s.dir, text data, textLen data, textRange (textLen data)⟩ := by
            rw [Fs.transfer, file_some h1 h2, Option.map_some]
          exact .stored busy (lookup_matches h1).1 rfl (not_not.mp h2) (textLen_le data) rfl
  | writeBinary name data size =>
    cases name with
    | none => exact .idle rfl rfl
    | some name =>
      cases data with
      | none => exact .idle rfl rfl
      | some data =>
        simp only [exec, Fs.call, fsWriteBinary_run]
        split_ifs with h1 h2 h3
        · exact .idle (by rw [Fs.transfer, file_none h1, Option.bind_none]) rfl
        · exact .idle (by rw [Fs.transfer, file_dir h2, Option.bind_none]) rfl
        · exact .idle (by rw [Fs.transfer, file_some h1 h2, Option.bind_some, if_pos h3]) rfl
        · have fits : size.toNat ≤ 2044 := by
            rwa [gt_iff_lt, UInt32.lt_iff_toNat_lt, maxSize_toNat, not_lt] at h3
          have busy : s.transfer (.writeBinary (some name) (some data) size) =
              some ⟨s.disk.lookup name s.dir, data, size, blockRange (blocksFor size)⟩ := by
            rw [Fs.transfer, file_some h1 h2, Option.bind_some, if_neg h3]
          exact .stored busy (lookup_matches h1).1 rfl (not_not.mp h2) fits rfl
  | append scratch name data =>
    cases name with
    | none => exact .idle rfl rfl
    | some name =>
      cases data with
      | none => exact .idle rfl rfl
      | some data =>
        -- the size is clamped, so the `fs_write_binary` at the end does not refuse it
        simp only [exec, Fs.call, fsAppend_run]
        split_ifs with h1 h2 h3
        · exact .idle (by rw [Fs.transfer, file_none h1, Option.bind_none]) rfl
        · exact .idle (by rw [Fs.transfer, file_dir h2, Option.bind_none]) rfl
        · exact .idle (by rw [Fs.transfer, file_some h1 h2, Option.bind_some, if_pos h3]) rfl
        · have busy : s.transfer (.append scratch (some name) (some data)) =
              some ⟨s.disk.lookup name s.dir,
                s.disk.appended (s.inode (s.disk.lookup name s.dir)) scratch data,
                appendSize (s.inode (s.disk.lookup name s.dir)).size data,
                blockRange (blocksFor
                  (appendSize (s.inode (s.disk.lookup name s.dir)).size data))⟩ := by
            rw [Fs.transfer, file_some h1 h2, Option.bind_some, if_neg h3]
          exact .stored busy (lookup_matches h1).1 rfl (not_not.mp h2) (appendSize_le _ data) rfl
  | _ => exact writes.elim

theorem Written.effect {s : Fs} {op : FsOp} {r : ℤ × Fs} (h : Written s op r)
    (blocks : DataBlocks s.disk) : Effect s op r.2 := by
  cases h with
  | idle none same => exact .quiet (fun _ => by rw [same]) (by rw [same])
  | stored some live target isFile fits result =>
    rw [result]
    exact .grow live isFile fits (store_inode blocks live _ _ _) rfl

/-- A negative result is returned before the first sector is written. -/
theorem Written.fails {s : Fs} {op : FsOp} {r : ℤ × Fs} (h : Written s op r) (negative : r.1 < 0) :
    r.2 = s := by
  cases h with
  | idle none same => exact same
  | stored some live target isFile fits result =>
    rw [result] at negative
    exact absurd negative (lt_irrefl 0)

theorem exec_effect {s : Fs} (h : DataBlocks s.disk) (op : FsOp) : Effect s op (exec op s).2 := by
  cases op with
  | format => exact .format (fsFormat_inode s.disk) (by simp only [exec, fsFormat_run])
  | mount =>
    obtain ⟨r, st', hr, hd⟩ := fsMount_run s.statics s.disk
    simp only [exec, hr]
    rcases hd with hd | rfl
    · exact .home (fun _ => rfl) hd
    · exact .quiet (fun _ => rfl) rfl
  | create name =>
    cases name with
    | none => exact .quiet (fun _ => rfl) rfl
    | some name =>
      simp only [exec, Fs.call, fsCreate_run]
      split_ifs with h1 h2
      · exact .quiet (fun _ => rfl) rfl
      · exact .quiet (fun _ => rfl) rfl
      · obtain ⟨hf, hd⟩ := freeInode_spec h2
        exact .newFile (not_not.mp h1) hf hd (inode_putInode _ _ hf) rfl
  | write name data => exact (exec_written (.write name data) trivial).effect h
  | writeBinary name data size => exact (exec_written (.writeBinary name data size) trivial).effect h
  | append scratch name data => exact (exec_written (.append scratch name data) trivial).effect h
  | read name buffer bufSize =>
    simp only [exec, call_readOnly s (fsRead_readOnly s.dir name buffer bufSize)]
    exact .quiet (fun _ => rfl) rfl
  | delete name =>
    simp only [exec, Fs.call, fsDelete_run]
    split_ifs with h1
    · exact .quiet (fun _ => rfl) rfl
    · exact .delete h1 (inode_putInode _ _ (live_mem (lookup_matches h1).1)) rfl
  | rename oldName newName =>
    simp only [exec, Fs.call, fsRename_run]
    split_ifs with h1 h2
    · exact .quiet (fun _ => rfl) rfl
    · exact .quiet (fun _ => rfl) rfl
    · exact .rename h1 (not_not.mp h2) (inode_putInode _ _ (live_mem (lookup_matches h1).1)) rfl
  | mkdir name =>
    simp only [exec, Fs.call, fsMkdir_run]
    split_ifs with h1 h2
    · exact .quiet (fun _ => rfl) rfl
    · exact .quiet (fun _ => rfl) rfl
    · obtain ⟨hf, hd⟩ := freeInode_spec h2
      exact .newDir (not_not.mp h1) hf hd (inode_putInode _ _ hf) rfl
  | changeDir name =>
    simp only [exec, fsChangeDir_run]
    split_ifs with h1 h2 h3 h4 h5 h6
    · exact .home (fun _ => rfl) rfl
    · exact .up (fun _ => rfl) h3 rfl
    · exact .quiet (fun _ => rfl) rfl
    · exact .quiet (fun _ => rfl) rfl
    · exact .quiet (fun _ => rfl) rfl
    · exact .quiet (fun _ => rfl) rfl
    · exact .enter (fun _ => rfl) (lookup_matches h5) h6
  | list maxOut =>
    simp only [exec, call_readOnly s (fsList_readOnly s.dir maxOut)]
    exact .quiet (fun _ => rfl) rfl
  | stat name out =>
    simp only [exec, call_readOnly s (fsStat_readOnly s.dir name out)]
    exact .quiet (fun _ => rfl) rfl
  | getPwd fuel tmp =>
    simp only [exec, call_readOnly s (fsGetPwd_readOnly fuel s.dir tmp)]
    exact .quiet (fun _ => rfl) rfl
  | diskStats =>
    simp only [exec, call_readOnly s (fsDiskStats_readOnly s.statics)]
    exact .quiet (fun _ => rfl) rfl

theorem formatted_table {s : Fs} (h : Formatted s) : (∀ j, s.inode j = Inode.zero) ∧ s.dir = 0 := by
  obtain ⟨sectors, st, rfl⟩ := h
  exact ⟨fsFormat_inode _, by simp only [exec, fsFormat_run]⟩

theorem effect_dataBlocks {s t : Fs} {op : FsOp} (h : DataBlocks s.disk) (e : Effect s op t) :
    DataBlocks t.disk := by
  intro j hl b
  change (t.inode j).live at hl
  change (t.inode j).blocks b = 0 ∨ fsDataStart ≤ (t.inode j).blocks b
  cases e with
  | quiet table _ | home table _ | up table _ _ | enter table _ _ =>
    rw [table] at hl ⊢
    exact h j hl b
  | format table _ =>
    rw [table] at hl
    exact absurd hl zero_not_live
  | newFile _ _ _ table _ =>
    rw [table] at hl ⊢
    split_ifs at hl ⊢ with hj
    · by_cases hb : b = 0
      · subst hb
        exact (highest_add_one s.disk).imp_right And.right
      · exact .inl (by simp only [newFile, Function.update_of_ne hb])
    · exact h j hl b
  | newDir _ _ _ table _ =>
    rw [table] at hl ⊢
    split_ifs at hl ⊢ with hj
    · exact .inl rfl
    · exact h j hl b
  | @grow _ _ id size live _ _ table _ =>
    rw [table] at hl ⊢
    split_ifs at hl ⊢ with hj
    · exact grown_blocks h live size b
    · exact h j hl b
  | rename found _ table _ =>
    rw [table] at hl ⊢
    split_ifs at hl ⊢ with hj
    · exact h _ (lookup_matches found).1 b
    · exact h j hl b
  | delete _ table _ =>
    rw [table] at hl ⊢
    split_ifs at hl ⊢ with hj
    · exact absurd hl zero_not_live
    · exact h j hl b

theorem reachable_dataBlocks {allow : Fs → FsOp → Prop} {s : Fs} (h : Reachable allow s) :
    DataBlocks s.disk := by
  refine h.invariant (I := fun s => DataBlocks s.disk) ?_ ?_
  · intro s hs id hl
    have hz := (formatted_table hs).1 id
    change (s.inode id).live at hl
    rw [hz] at hl
    exact absurd hl zero_not_live
  · rintro s t op _ hd _ rfl
    exact effect_dataBlocks hd (exec_effect hd op)

/-- An invariant of the table and of `current_dir` need only survive each effect. -/
theorem reachable_invariant {allow : Fs → FsOp → Prop} {I : Fs → Prop} {s : Fs}
    (h : Reachable allow s) (base : ∀ s, (∀ j, s.inode j = Inode.zero) → s.dir = 0 → I s)
    (next : ∀ s t op, I s → allow s op → Effect s op t → I t) : I s := by
  refine h.invariant (fun s hs => base s (formatted_table hs).1 (formatted_table hs).2) ?_
  rintro s t op hr hi ok rfl
  exact next s _ op hi ok (exec_effect (reachable_dataBlocks hr) op)

end TinyOS.NanoFS
