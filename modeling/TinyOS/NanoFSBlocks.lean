import TinyOS.NanoFSNames

set_option autoImplicit false

namespace TinyOS.NanoFS
open ByteWords LibcString StateRuns

theorem transfer_slots {s : Fs} {op : FsOp} {tr : Transfer} (busy : s.transfer op = some tr) :
    ∀ b ∈ tr.slots, b ∈ blockRange (blocksFor tr.size) := by
  have text (len : UInt32) : ∀ b ∈ textRange len, b ∈ blockRange (blocksFor len) := by
    intro b mem
    unfold textRange at mem
    split_ifs at mem
    · cases mem
    · exact mem
  cases op with
  | write name data =>
    match name, data with
    | some name, some data =>
      obtain ⟨id, _, rfl⟩ := Option.map_eq_some_iff.mp busy
      exact text _
    | none, _ => cases busy
    | some _, none => cases busy
  | writeBinary name data size =>
    match name, data with
    | some name, some data =>
      obtain ⟨id, _, eq⟩ := Option.bind_eq_some_iff.mp busy
      split_ifs at eq
      cases eq
      exact fun b mem => mem
    | none, _ => cases busy
    | some _, none => cases busy
  | append scratch name data =>
    match name, data with
    | some name, some data =>
      obtain ⟨id, _, eq⟩ := Option.bind_eq_some_iff.mp busy
      dsimp only at eq
      split_ifs at eq
      cases eq
      exact fun b mem => mem
    | none, _ => cases busy
    | some _, none => cases busy
  | _ => cases busy

inductive DiskChange (s : Fs) (op : FsOp) (d : Disk) : Prop where
  | same (idle : s.transfer op = none) (disk : d = s.disk) : DiskChange s op d
  | format (isFormat : op = .format) (disk : d = ((fsFormat : DiskM Statics).run s.disk).2) :
      DiskChange s op d
  | put {id : UInt32} {v : Inode} (idle : s.transfer op = none) (mem : id ∈ inodeIds)
      (target : s.target op = id) (disk : d = s.disk.putInode id v) : DiskChange s op d
  | store {tr : Transfer} (busy : s.transfer op = some tr)
      (live : (s.inode tr.id).live) (target : s.target op = tr.id)
      (disk : d = s.disk.store tr.id tr.data tr.size tr.slots) : DiskChange s op d

theorem Written.disk {s : Fs} {op : FsOp} {r : ℤ × Fs} (h : Written s op r) :
    DiskChange s op r.2.disk := by
  cases h with
  | idle none same => exact .same none (congrArg Fs.disk same)
  | stored some live target isFile fits result =>
    exact .store some live target (congrArg (fun r => r.2.disk) result)

theorem exec_disk (s : Fs) (op : FsOp) : DiskChange s op (exec op s).2.disk := by
  cases op with
  | format => exact .format rfl rfl
  | mount =>
    obtain ⟨r, st', hr, _⟩ := fsMount_run s.statics s.disk
    simp only [exec, hr]
    exact .same rfl rfl
  | create name =>
    cases name with
    | none => exact .same rfl rfl
    | some name =>
      simp only [exec, Fs.call, fsCreate_run]
      split_ifs with h1 h2
      · exact .same rfl rfl
      · exact .same rfl rfl
      · exact .put rfl (freeInode_spec h2).1 rfl rfl
  | write name data => exact (exec_written (.write name data) trivial).disk
  | writeBinary name data size => exact (exec_written (.writeBinary name data size) trivial).disk
  | append scratch name data => exact (exec_written (.append scratch name data) trivial).disk
  | delete name =>
    simp only [exec, Fs.call, fsDelete_run]
    split_ifs with h1
    · exact .same rfl rfl
    · exact .put rfl (live_mem (lookup_matches h1).1) rfl rfl
  | rename oldName newName =>
    simp only [exec, Fs.call, fsRename_run]
    split_ifs with h1 h2
    · exact .same rfl rfl
    · exact .same rfl rfl
    · exact .put rfl (live_mem (lookup_matches h1).1) rfl rfl
  | mkdir name =>
    simp only [exec, Fs.call, fsMkdir_run]
    split_ifs with h1 h2
    · exact .same rfl rfl
    · exact .same rfl rfl
    · exact .put rfl (freeInode_spec h2).1 rfl rfl
  | read name buffer bufSize =>
    refine .same rfl ?_
    simp only [exec, call_readOnly s (fsRead_readOnly s.dir name buffer bufSize)]
  | changeDir name =>
    refine .same rfl ?_
    simp only [exec, fsChangeDir_run]
    split_ifs <;> rfl
  | list maxOut =>
    exact .same rfl (by simp only [exec, call_readOnly s (fsList_readOnly s.dir maxOut)])
  | stat name out =>
    exact .same rfl (by simp only [exec, call_readOnly s (fsStat_readOnly s.dir name out)])
  | getPwd fuel tmp =>
    exact .same rfl (by simp only [exec, call_readOnly s (fsGetPwd_readOnly fuel s.dir tmp)])
  | diskStats =>
    exact .same rfl (by simp only [exec, call_readOnly s (fsDiskStats_readOnly s.statics)])

theorem exec_other_inode {s : Fs} {op : FsOp} (h : DataBlocks s.disk) (ne : op ≠ .format)
    {j : UInt32} (hj : j ≠ s.target op) : (exec op s).2.inode j = s.inode j := by
  have c := exec_disk s op
  rw [Fs.inode]
  generalize (exec op s).2.disk = d at c
  cases c with
  | same _ disk => rw [disk]
  | format isFormat _ => exact absurd isFormat ne
  | put _ mem target disk => rw [disk, inode_putInode _ _ mem, if_neg (target ▸ hj)]
  | store _ live target disk => rw [disk, store_inode h live, if_neg (target ▸ hj)]

/-- The last slot that goes to a sector decides its content. -/
theorem writeBlocks_sectors (d : Disk) (data : Buffer) (blocks : Fin 4 → UInt32) (size : ℕ)
    (bs : List (Fin 4)) (lba : UInt32) : (d.writeBlocks data blocks size bs).sectors lba =
      match bs.reverse.find? fun c => blocks c = lba with
      | none => d.sectors lba
      | some c => blockSector data size c := by
  induction bs using List.reverseRecOn with
  | nil => rfl
  | append_singleton bs b ih =>
    have hw : d.writeBlocks data blocks size (bs++[b]) =
        (d.writeBlocks data blocks size bs).write (blocks b) (blockSector data size b) := by
      simp only [Disk.writeBlocks, List.foldl_append, List.foldl_cons, List.foldl_nil]
    rw [hw, write_sectors, List.reverse_append, List.reverse_singleton, List.singleton_append,
      List.find?_cons]
    by_cases hb : blocks b = lba
    · simp only [hb, Function.update_self, decide_true]
    · simp only [hb, decide_false, Function.update_of_ne (Ne.symm hb), ih]

theorem writeBlocks_sectors_of_ne (d : Disk) (data : Buffer) (blocks : Fin 4 → UInt32) (size : ℕ)
    (bs : List (Fin 4)) {lba : UInt32} (h : ∀ b ∈ bs, blocks b ≠ lba) :
    (d.writeBlocks data blocks size bs).sectors lba = d.sectors lba := by
  have none : (bs.reverse.find? fun c => decide (blocks c = lba)) = none :=
    List.find?_eq_none.mpr fun b hb => by simpa using h b (List.mem_reverse.mp hb)
  rw [writeBlocks_sectors, none]

/-- A data sector changes only when a write goes through one of its blocks. -/
theorem exec_other_sector {s : Fs} {op : FsOp} (ne : op ≠ .format) {lba : UInt32}
    (data : fsDataStart ≤ lba)
    (h : ∀ tr, s.transfer op = some tr → ∀ b ∈ tr.slots,
      (s.disk.grown (s.inode tr.id) tr.size).blocks b ≠ lba) :
    (exec op s).2.disk.sectors lba = s.disk.sectors lba := by
  have c := exec_disk s op
  generalize (exec op s).2.disk = d at c
  cases c with
  | same _ disk => rw [disk]
  | format isFormat _ => exact absurd isFormat ne
  | put _ _ _ disk => rw [disk, sectors_putInode _ _ _ (.inr data)]
  | store busy _ _ disk =>
    rw [disk, Disk.store, sectors_putInode _ _ _ (.inr data),
      writeBlocks_sectors_of_ne _ _ _ _ _ (h _ busy)]

def NumbersLeft (s : Fs) : Prop :=
  ∀ id, (s.inode id).live → ∀ b, (s.inode id).blocks b ≠ 4294967295

theorem highest_lt {s : Fs} (h : NumbersLeft s) : s.disk.highest.toNat < 4294967295 := by
  have hle : s.disk.highest ≤ 4294967294 := by
    refine (highest_le _ _).mpr ⟨by decide, fun id hl b => ?_⟩
    have hb := h id hl b
    have hlt := ((s.inode id).blocks b).toNat_lt
    change (s.inode id).blocks b ≤ 4294967294
    simp only [UInt32.le_iff_toNat_le, ← UInt32.toNat_inj, ne_eq, UInt32.reduceToNat] at *
    omega
  rw [UInt32.le_iff_toNat_le] at hle
  exact Nat.lt_of_le_of_lt hle (by decide)

theorem next_ne_block {s : Fs} (h : NumbersLeft s) {id : UInt32} (hl : (s.inode id).live)
    (b : Fin 4) : s.disk.highest+1 ≠ (s.inode id).blocks b := by
  have hle := block_le_highest hl b
  have hlt := highest_lt h
  intro he
  have hadd := UInt32.toNat_add s.disk.highest 1
  rw [← he, UInt32.le_iff_toNat_le, hadd] at hle
  simp only [UInt32.reduceToNat] at hle
  omega

def Fs.BlocksApart (s : Fs) : Prop :=
  ∀ i j, (s.inode i).live → (s.inode j).live → i ≠ j → ∀ a b, (s.inode i).blocks a ≠ 0 →
    (s.inode i).blocks a ≠ (s.inode j).blocks b

theorem Fs.BlocksApart.same {s t : Fs} (h : s.BlocksApart) (table : ∀ j, t.inode j = s.inode j) :
    t.BlocksApart := by
  intro i j
  simp only [table]
  exact h i j

theorem Fs.BlocksApart.update {s t : Fs} {id : UInt32} {v : Inode} (h : s.BlocksApart)
    (table : ∀ j, t.inode j = if j = id then v else s.inode j)
    (own : v.live → ∀ j, j ≠ id → (s.inode j).live → ∀ a b, v.blocks a ≠ 0 →
      v.blocks a ≠ (s.inode j).blocks b) : t.BlocksApart := by
  intro i j hi hj hij a b ha
  rw [table] at hi ha ⊢
  rw [table] at hj ⊢
  split_ifs at hi hj ha ⊢ with h1 h2 h2
  · exact absurd (h1.trans h2.symm) hij
  · exact own hi j h2 hj a b ha
  · by_cases hb : v.blocks b = 0
    · rw [hb]
      exact ha
    · exact (own hj i h1 hi b a hb).symm
  · exact h i j hi hj hij a b ha

theorem grown_apart {s : Fs} (h : s.BlocksApart) (left : NumbersLeft s) {id : UInt32}
    (live : (s.inode id).live) (size : UInt32) {j : UInt32} (hj : j ≠ id)
    (hl : (s.inode j).live) (a b : Fin 4) (ne : (s.disk.grown (s.inode id) size).blocks a ≠ 0) :
    (s.disk.grown (s.inode id) size).blocks a ≠ (s.inode j).blocks b := by
  simp only [Disk.grown, Disk.fill] at ne ⊢
  split_ifs at ne ⊢
  · exact next_ne_block left hl b
  · exact h id j live hl hj.symm a b ne

theorem effect_blocksApart {s t : Fs} {op : FsOp} (h : s.BlocksApart) (left : NumbersLeft s)
    (e : Effect s op t) : t.BlocksApart := by
  cases e with
  | quiet table _ | home table _ | up table _ _ | enter table _ _ => exact h.same table
  | format table _ =>
    intro i j hi
    rw [table] at hi
    exact absurd hi zero_not_live
  | @newFile name _ _ _ _ _ table _ =>
    refine h.update table fun _ j _ hj a b ha => ?_
    by_cases h0 : a = 0
    · subst h0
      exact next_ne_block left hj b
    · exact absurd (by simp only [newFile, Function.update_of_ne h0]) ha
  | newDir _ _ _ table _ => exact h.update table fun _ _ _ _ _ _ ha => absurd rfl ha
  | grow live _ _ table _ =>
    exact h.update table fun _ j hne hj a b => grown_apart h left live _ hne hj a b
  | rename found _ table _ =>
    exact h.update table fun _ j hne hj a b =>
      h _ j (lookup_matches found).1 hj hne.symm a b
  | delete _ table _ => exact h.update table fun hv => absurd hv zero_not_live

theorem reachable_blocksApart {s : Fs} (h : Reachable (fun s _ => NumbersLeft s) s) :
    s.BlocksApart := by
  refine reachable_invariant (I := Fs.BlocksApart) h ?_ ?_
  · intro s table _ i j hi
    rw [table] at hi
    exact absurd hi zero_not_live
  · exact fun s t op hi left e => effect_blocksApart hi left e

theorem readNode_congr {d e : Disk} {node : Inode} (buffer : Buffer) (bufSize : UInt32)
    (h : ∀ b, node.blocks b ≠ 0 → d.sectors (node.blocks b) = e.sectors (node.blocks b)) :
    ((readNode node buffer bufSize : DiskM (ℤ × Buffer)).run d).1 =
      ((readNode node buffer bufSize : DiskM (ℤ × Buffer)).run e).1 := by
  have content (n : ℕ) : d.readInto node n buffer = e.readInto node n buffer := by
    funext k
    unfold Disk.readInto
    split_ifs with hk
    · have hlt : k/511 < node.leading := by
        unfold Inode.extent at hk
        omega
      have h4 : k/511 < 4 := by
        have hle := extent_le node n
        omega
      rw [Disk.content, Disk.content, dif_pos h4, dif_pos h4,
        h _ ((lt_leading h4).mp hlt ⟨k/511, h4⟩ (Nat.le_refl _))]
    · rfl
  rw [readNode_run, readNode_run]
  split_ifs
  · rfl
  · rw [content]

theorem transfer_live {s : Fs} {op : FsOp} {tr : Transfer} (h : s.transfer op = some tr) :
    (s.inode tr.id).live ∧ s.target op = tr.id := by
  have c := exec_disk s op
  cases c with
  | same idle _ => rw [idle] at h; contradiction
  | format isFormat _ => subst isFormat; contradiction
  | put idle _ _ _ => rw [idle] at h; contradiction
  | store busy live target _ =>
    rw [h] at busy
    cases busy
    exact ⟨live, target⟩

theorem exec_other_file {s : Fs} {op : FsOp} (apart : s.BlocksApart) (d : DataBlocks s.disk)
    (left : NumbersLeft s) (ne : op ≠ .format) {j : UInt32} (hl : (s.inode j).live)
    (hj : j ≠ s.target op) (b : Fin 4) (hb : (s.inode j).blocks b ≠ 0) :
    (exec op s).2.disk.sectors ((s.inode j).blocks b) = s.disk.sectors ((s.inode j).blocks b) := by
  refine exec_other_sector ne ((d j hl b).resolve_left hb) fun tr busy a _ he => ?_
  obtain ⟨live, target⟩ := transfer_live busy
  exact grown_apart apart left live tr.size (target ▸ hj) hl a b (he ▸ hb) he

/-- An entry found first stays so when nothing new bears its name. -/
theorem lookup_keep {d e : Disk} {name : CString} {dir : UInt32} (found : d.lookup name dir ≠ 0)
    (still : (e.inode (d.lookup name dir)).Matches name dir)
    (le : ∀ j, (e.inode j).Matches name dir → (d.inode j).Matches name dir) :
    e.lookup name dir = d.lookup name dir := by
  refine lookup_first still fun i before hm => ?_
  exact lookup_least found before (le i hm)

theorem numbersLeft_of_lt {s : Fs} (lt : s.disk.highest.toNat < 4294967295) : NumbersLeft s := by
  intro id live b eq
  have le := block_le_highest live b
  change (s.inode id).blocks b ≤ s.disk.highest at le
  rw [eq, UInt32.le_iff_toNat_le] at le
  exact absurd lt (not_lt.mpr le)

theorem effect_highest {s t : Fs} {op : FsOp} (left : NumbersLeft s) (e : Effect s op t) :
    t.disk.highest.toNat ≤ s.disk.highest.toNat+1 := by
  have lt := highest_lt left
  have next : (s.disk.highest+1).toNat = s.disk.highest.toNat+1 := by
    rw [UInt32.toNat_add]
    change (s.disk.highest.toNat+1)%4294967296 = _
    omega
  have below {x : UInt32} (le : x ≤ s.disk.highest) : x ≤ s.disk.highest+1 := by
    rw [UInt32.le_iff_toNat_le] at le ⊢
    omega
  have old {j : UInt32} (live : (s.inode j).live) (b : Fin 4) :
      (s.inode j).blocks b ≤ s.disk.highest+1 := below (block_le_highest live b)
  rw [← next, ← UInt32.le_iff_toNat_le, highest_le]
  refine ⟨below (eight_le_highest _), fun j live b => ?_⟩
  change (t.inode j).live at live
  change (t.inode j).blocks b ≤ s.disk.highest+1
  cases e with
  | quiet table _ | home table _ | up table _ _ | enter table _ _ =>
    rw [table] at live ⊢
    exact old live b
  | format table _ =>
    rw [table] at live
    exact absurd live zero_not_live
  | newFile _ _ _ table _ =>
    rw [table] at live ⊢
    split_ifs at live ⊢
    · by_cases first : b = 0
      · rw [first]
        exact UInt32.le_refl _
      · simp only [newFile, Function.update_of_ne first]
        exact UInt32.le_iff_toNat_le.mpr (Nat.zero_le _)
    · exact old live b
  | newDir _ _ _ table _ =>
    rw [table] at live ⊢
    split_ifs at live ⊢
    · exact UInt32.le_iff_toNat_le.mpr (Nat.zero_le _)
    · exact old live b
  | grow here _ _ table _ =>
    rw [table] at live ⊢
    split_ifs at live ⊢
    · simp only [Disk.grown, Disk.fill]
      split_ifs
      · exact UInt32.le_refl _
      · exact old here b
    · exact old live b
  | rename found _ table _ =>
    rw [table] at live ⊢
    split_ifs at live ⊢
    · exact old (lookup_matches found).1 b
    · exact old live b
  | delete _ table _ =>
    rw [table] at live ⊢
    split_ifs at live ⊢
    · exact absurd live zero_not_live
    · exact old live b

theorem freshFs_numbersLeft : NumbersLeft freshFs := by
  intro id hl
  rw [freshFs_inode] at hl
  exact absurd hl zero_not_live

theorem withF_highest : withF.disk.highest = 9 := by
  refine UInt32.le_antisymm ((highest_le _ _).mpr ⟨by decide, fun id live b => ?_⟩) ?_
  · rw [show withF.disk.inode id = _ from withF_inode id] at live ⊢
    split_ifs at live ⊢
    · revert b
      decide
    · exact absurd live zero_not_live
  · have own := @block_le_highest withF.disk 1 ?_ 0
    · rwa [show withF.disk.inode 1 = _ from withF_inode 1] at own
    · rw [show withF.disk.inode 1 = _ from withF_inode 1]
      decide

theorem withF_numbersLeft : NumbersLeft withF := numbersLeft_of_lt (by rw [withF_highest]; decide)

end TinyOS.NanoFS
