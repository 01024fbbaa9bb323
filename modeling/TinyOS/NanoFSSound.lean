import TinyOS.NanoFSStore

set_option autoImplicit false

namespace TinyOS.NanoFS
open ByteWords LibcString StateRuns EntryStores

structure Fs.Sound (s : Fs) : Prop where
  blocks : DataBlocks s.disk
  terminated : s.NamesTerminated
  apart : s.BlocksApart
  filled : s.FilesFilled
  ancestors : ∃ l, s.Ancestors l
  /-- Directories keep the size they were made with. -/
  sizeless : ∀ id, (s.inode id).live → (s.inode id).isDirectory ≠ 0 → (s.inode id).size = 0

variable {s t : Fs} {op : FsOp} {id : UInt32} {v : Inode} {tr : Transfer}

theorem empty_sound (table : ∀ j, s.inode j = Inode.zero) (dir : s.dir = 0) : s.Sound := by
  have dead (id : UInt32) : ¬(s.inode id).live := by
    rw [table]
    exact zero_not_live
  exact {
    blocks := fun id live => absurd live (dead id)
    terminated := fun id => by
      rw [table]
      exact zero_terminated
    apart := fun id _ live => absurd live (dead id)
    filled := fun id live => absurd live (dead id)
    ancestors := ⟨[], dir ▸ .root, by simp⟩
    sizeless := fun id live => absurd live (dead id) }

theorem format_table (s : Fs) : (∀ j, (exec .format s).2.inode j = Inode.zero) ∧
    (exec .format s).2.dir = 0 :=
  ⟨fsFormat_inode s.disk, by simp only [exec, fsFormat_run]⟩

theorem effect_sizeless (e : Effect s op t)
    (h : ∀ id, (s.inode id).live → (s.inode id).isDirectory ≠ 0 → (s.inode id).size = 0) :
    ∀ id, (t.inode id).live → (t.inode id).isDirectory ≠ 0 → (t.inode id).size = 0 := by
  intro j live isDir
  cases e with
  | quiet table _ | home table _ | up table _ _ | enter table _ _ =>
    rw [table] at live isDir ⊢
    exact h j live isDir
  | format table _ =>
    rw [table] at live
    exact absurd live zero_not_live
  | newFile _ _ _ table _ | newDir _ _ _ table _ =>
    rw [table] at live isDir ⊢
    split_ifs at live isDir ⊢
    · rfl
    · exact h j live isDir
  | grow _ isFile _ table _ =>
    rw [table] at live isDir ⊢
    split_ifs at live isDir ⊢
    · exact absurd isFile isDir
    · exact h j live isDir
  | rename found _ table _ =>
    rw [table] at live isDir ⊢
    split_ifs at live isDir ⊢
    · exact h _ (lookup_matches found).1 isDir
    · exact h j live isDir
  | delete _ table _ =>
    rw [table] at live isDir ⊢
    split_ifs at live isDir ⊢
    · exact absurd live zero_not_live
    · exact h j live isDir

theorem Fs.Sound.filled_step (h : s.Sound) (left : NumbersLeft s) (known : op.request.isSome) :
    (exec op s).2.FilesFilled := by
  have quiet (table : ∀ j, (exec op s).2.inode j = s.inode j) : (exec op s).2.FilesFilled :=
    h.filled.same table
  cases op with
  | format => exact (empty_sound (format_table s).1 (format_table s).2).filled
  | mount =>
    obtain ⟨r, st', run, _⟩ := fsMount_run s.statics s.disk
    exact quiet fun j => by simp only [exec, run]
  | create name => exact filesFilled_step h.blocks h.filled ⟨left, trivial⟩
  | mkdir name => exact filesFilled_step h.blocks h.filled ⟨left, trivial⟩
  | changeDir name => exact filesFilled_step h.blocks h.filled ⟨left, trivial⟩
  | rename old new => exact filesFilled_step h.blocks h.filled ⟨left, trivial⟩
  | delete name => exact filesFilled_step h.blocks h.filled ⟨left, trivial⟩
  | write name data =>
    cases name with
    | none => cases known
    | some name =>
      cases data with
      | none => cases known
      | some data =>
        refine filesFilled_step h.blocks h.filled ⟨left, ?_⟩
        by_contra long
        simp [FsOp.request, long] at known
  | append scratch name data =>
    cases name with
    | none => cases known
    | some name =>
      cases data with
      | none => cases known
      | some data =>
        refine filesFilled_step h.blocks h.filled ⟨left, ?_⟩
        by_contra long
        simp [FsOp.request, long] at known
  | read name buffer bufSize => exact quiet fun j => by rw [read_unchanged]
  | stat name out => exact quiet fun j => by rw [stat_unchanged]
  | list maxOut =>
    exact quiet fun j => by simp only [exec, call_readOnly s (fsList_readOnly s.dir maxOut)]
  | writeBinary name data size => simp [FsOp.request] at known
  | getPwd fuel tmp => simp [FsOp.request] at known
  | diskStats => simp [FsOp.request] at known

theorem Fs.Sound.step (h : s.Sound) (left : NumbersLeft s) (known : op.request.isSome) :
    (exec op s).2.Sound := by
  have e := exec_effect h.blocks op
  obtain ⟨l, ancestors⟩ := h.ancestors
  exact {
    blocks := effect_dataBlocks h.blocks e
    terminated := effect_terminated h.terminated e
    apart := effect_blocksApart h.apart left e
    filled := h.filled_step left known
    ancestors := effect_ancestors ancestors e
    sizeless := effect_sizeless e h.sizeless }

/-- While there are numbers left, only `fs_format` writes sector 0. -/
theorem exec_superblock (left : NumbersLeft s) (ne : op ≠ .format) :
    (exec op s).2.disk.sectors 0 = s.disk.sectors 0 := by
  have c := exec_disk s op
  generalize (exec op s).2.disk = d at c
  cases c with
  | same _ disk => rw [disk]
  | format isFormat _ => exact absurd isFormat ne
  | put _ _ _ disk => rw [disk, sectors_putInode _ _ _ (.inl rfl)]
  | @store tr busy live _ disk =>
    rw [disk, Disk.store, sectors_putInode _ _ _ (.inl rfl), writeBlocks_sectors_of_ne]
    intro b mem zero
    have slot := transfer_slots busy b mem
    simp only [Disk.grown, Disk.fill, slot, true_and] at zero
    split_ifs at zero with missing
    · exact next_ne_zero left zero
    · exact missing zero

theorem exec_mounts (left : NumbersLeft s) (ne : op ≠ .format) :
    (exec op s).2.disk.Mounts ↔ s.disk.Mounts := by
  rw [Disk.Mounts, Disk.Mounts, exec_superblock left ne]

theorem fileBytes_congr {d e : Disk}
    (same : ∀ b, v.blocks b ≠ 0 → d.sectors (v.blocks b) = e.sectors (v.blocks b)) :
    d.fileBytes v = e.fileBytes v := by
  refine List.map_congr_left fun k mem => ?_
  have lt : k < v.extent v.size.toNat := List.mem_range.mp mem
  have slot : k/511 < v.leading := by
    unfold Inode.extent at lt
    omega
  have four : k/511 < 4 := by
    have le := extent_le v v.size.toNat
    omega
  rw [Disk.content, Disk.content, dif_pos four, dif_pos four,
    same _ ((lt_leading four).mp slot ⟨k/511, four⟩ (Nat.le_refl _))]

theorem Fs.Sound.other_bytes (h : s.Sound) (left : NumbersLeft s) (ne : op ≠ .format)
    (live : (s.inode id).live) (other : id ≠ s.target op) :
    (exec op s).2.disk.fileBytes (s.inode id) = s.disk.fileBytes (s.inode id) :=
  fileBytes_congr (exec_other_file h.apart h.blocks left ne live other)

theorem putInode_fileBytes {d : Disk} {w : Inode}
    (real : ∀ b, v.blocks b = 0 ∨ fsDataStart ≤ v.blocks b) :
    (d.putInode id w).fileBytes v = d.fileBytes v :=
  fileBytes_congr fun b _ => sectors_putInode d id w (real b)

theorem fileBytes_empty {d : Disk} (empty : v.size = 0) : d.fileBytes v = [] := by
  refine List.eq_nil_of_length_eq_zero ?_
  rw [fileBytes_length, empty]
  exact Nat.zero_min _

theorem Fs.Sound.stored_bytes (h : s.Sound) {name : CString}
    (found : s.disk.lookup name s.dir ≠ 0)
    (file : (s.inode (s.disk.lookup name s.dir)).isDirectory = 0) {size : UInt32}
    (grown : (s.disk.grown (s.inode (s.disk.lookup name s.dir)) size).Filled) (data : Buffer) :
    (s.disk.store (s.disk.lookup name s.dir) data size (blockRange (blocksFor size))).fileBytes
      (s.disk.grown (s.inode (s.disk.lookup name s.dir)) size) =
      (List.range size.toNat).map data := by
  have small : ¬size > fsMaxBlocks*511 := by
    rw [gt_iff_lt, UInt32.lt_iff_toNat_lt, maxSize_toNat, not_lt]
    exact grown.fits
  have run : (exec (.writeBinary (some name) (some data) size) s).2 = { s with
      disk := s.disk.store (s.disk.lookup name s.dir) data size (blockRange (blocksFor size)) } := by
    simp only [exec, Fs.call, fsWriteBinary_run]
    rw [if_neg found, if_neg (not_not.mpr file), if_neg small]
  have reads := readsAs_of_roundTrip
    (roundTrip_filled h.blocks h.terminated found file grown data)
  have content := readsAs_eq reads
  have look := @store_lookup s name size h.blocks h.terminated found data
    (blockRange (blocksFor size))
  rw [run] at content
  dsimp only [Fs.inode] at content
  rw [look, store_inode h.blocks (lookup_matches found).1, if_pos rfl] at content
  exact content.symm

end TinyOS.NanoFS
