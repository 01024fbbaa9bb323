import TinyOS.NanoFSBlocks

set_option autoImplicit false

namespace TinyOS.NanoFS
open ByteWords LibcString StateRuns

abbrev wallpaperHeaderSector : UInt32 := 100000

def ClearOfWallpaper (s : Fs) : Prop := ∀ lba ∈ s.disk.written, lba < wallpaperHeaderSector

/-- Each slot a write goes through holds a block number before the wallpaper or is empty, and
where one is empty the number after the highest live one still lies before it. -/
def belowWallpaper (s : Fs) (op : FsOp) : Prop :=
  ∀ tr, s.transfer op = some tr → ∀ b ∈ tr.slots,
    (s.inode tr.id).blocks b < wallpaperHeaderSector ∧
      ((s.inode tr.id).blocks b = 0 → s.disk.highest+1 < wallpaperHeaderSector)

def AllAlong (ok : Fs → FsOp → Prop) : List FsOp → Fs → Prop
  | [], _ => True
  | op :: ops, s => ok s op ∧ AllAlong ok ops (exec op s).2

theorem writeBlocks_written (d : Disk) (data : Buffer) (blocks : Fin 4 → UInt32) (size : ℕ)
    (bs : List (Fin 4)) (P : UInt32 → Prop) :
    (∀ lba ∈ (d.writeBlocks data blocks size bs).written, P lba) ↔
      (∀ lba ∈ d.written, P lba) ∧ ∀ b ∈ bs, P (blocks b) := by
  induction bs generalizing d with
  | nil => simp [Disk.writeBlocks]
  | cons b bs ih =>
    have step := ih (d.write (blocks b) (blockSector data size b))
    rw [write_written, List.forall_mem_cons] at step
    rw [List.forall_mem_cons, and_left_comm, ← and_assoc]
    exact step

theorem putInode_written {d : Disk} {id : UInt32} {v : Inode} (h : id ∈ inodeIds)
    (P : UInt32 → Prop) (table : ∀ lba, lba < fsDataStart → P lba) :
    (∀ lba ∈ (d.putInode id v).written, P lba) ↔ ∀ lba ∈ d.written, P lba := by
  have hs : P (inodeSector id) := by
    refine table _ ?_
    rw [UInt32.lt_iff_toNat_lt]
    exact Nat.lt_succ_of_le (inodeSector_range h).2
  rw [putInode_eq h, write_written, List.forall_mem_cons, and_iff_right hs]

theorem before_wallpaper {lba : UInt32} (h : lba < fsDataStart) : lba < wallpaperHeaderSector :=
  UInt32.lt_trans h (by decide)

theorem idle_below {s : Fs} {op : FsOp} (idle : s.transfer op = none) : belowWallpaper s op := by
  intro tr busy
  rw [idle] at busy
  cases busy

theorem grown_below {s : Fs} {op : FsOp} {tr : Transfer} (busy : s.transfer op = some tr) :
    (∀ b ∈ tr.slots, (s.disk.grown (s.inode tr.id) tr.size).blocks b < wallpaperHeaderSector) ↔
      belowWallpaper s op := by
  have one : ∀ b ∈ tr.slots,
      ((s.disk.grown (s.inode tr.id) tr.size).blocks b < wallpaperHeaderSector ↔
        (s.inode tr.id).blocks b < wallpaperHeaderSector ∧
          ((s.inode tr.id).blocks b = 0 → s.disk.highest+1 < wallpaperHeaderSector)) := by
    intro b mem
    have slot := transfer_slots busy b mem
    simp only [Disk.grown, Disk.fill, slot, true_and]
    split_ifs with missing
    · simp [missing, wallpaperHeaderSector]
    · simp [missing]
  constructor
  · intro below other eq b mem
    cases busy.symm.trans eq
    exact (one b mem).mp (below b mem)
  · intro below b mem
    exact (one b mem).mpr (below tr busy b mem)

theorem exec_clear (s : Fs) (op : FsOp) :
    ClearOfWallpaper (exec op s).2 ↔ ClearOfWallpaper s ∧ belowWallpaper s op := by
  have c := exec_disk s op
  unfold ClearOfWallpaper
  generalize (exec op s).2.disk = d at c
  cases c with
  | same idle disk =>
    rw [disk, and_iff_left (idle_below idle)]
  | format isFormat disk =>
    subst isFormat
    have low : ∀ lba ∈ ([8, 7, 6, 5, 4, 3, 2, 1, 0] : List UInt32), lba < fsDataStart := by
      simp only [List.forall_mem_cons, List.not_mem_nil, false_imp_iff, implies_true, and_true]
      decide
    have idle : s.transfer .format = none := rfl
    rw [disk, fsFormat_run, List.forall_mem_append,
      and_iff_right fun lba hm => before_wallpaper (low lba hm), and_iff_left (idle_below idle)]
  | put idle mem _ disk =>
    rw [disk, putInode_written mem _ fun _ => before_wallpaper, and_iff_left (idle_below idle)]
  | @store tr busy live _ disk =>
    rw [disk, Disk.store, putInode_written (live_mem live) _ fun _ => before_wallpaper,
      writeBlocks_written, ← grown_below busy]

theorem run_clear (ops : List FsOp) (s : Fs) : ClearOfWallpaper (runOps ops s) ↔
    ClearOfWallpaper s ∧ AllAlong belowWallpaper ops s := by
  induction ops generalizing s with
  | nil => simp [AllAlong]
  | cons op ops ih => rw [runOps_cons, ih, exec_clear, AllAlong, and_assoc]

theorem formatted_clear {s : Fs} (h : Formatted s) : ClearOfWallpaper s := by
  obtain ⟨sectors, st, rfl⟩ := h
  exact (exec_clear _ _).mpr ⟨fun _ hm => absurd hm List.not_mem_nil, fun _ h => nomatch h⟩

/-- A run from `fs_format` writes to no sector of the wallpaper exactly when every
write in it goes through block numbers below it. -/
theorem wallpaper_untouched_iff {s : Fs} (h : Formatted s) (ops : List FsOp) :
    ClearOfWallpaper (runOps ops s) ↔ AllAlong belowWallpaper ops s := by
  rw [run_clear, and_iff_right (formatted_clear h)]

theorem wallpaper_untouched_iff_fresh :
    ClearOfWallpaper (runOps [.create (some nameF)] freshFs) ↔
      AllAlong belowWallpaper [.create (some nameF)] freshFs :=
  wallpaper_untouched_iff freshFs_formatted _

def nameG : CString := ⟨[103], by decide⟩

def OnlyF (block : UInt32) (s : Fs) : Prop :=
  s.dir = 0 ∧ ∃ id ∈ inodeIds, ∀ j, s.inode j = if j = id then newFile 0 nameF block else Inode.zero

def replaceF : List FsOp := [.create (some nameG), .delete nameF, .rename nameG nameF]

theorem onlyF_highest {block : UInt32} {s : Fs} (h : OnlyF block s) (low : 8 ≤ block) :
    s.disk.highest = block := by
  obtain ⟨_, id, _, table⟩ := h
  have at_id : s.disk.inode id = newFile 0 nameF block := (table id).trans (if_pos rfl)
  refine UInt32.le_antisymm ((highest_le _ _).mpr ⟨low, fun j hl b => ?_⟩) ?_
  · rw [show s.disk.inode j = _ from table j] at hl ⊢
    split_ifs at hl ⊢
    · by_cases hb : b = 0
      · subst hb
        exact UInt32.le_refl _
      · simp only [newFile, Function.update_of_ne hb]
        exact UInt32.zero_le
    · exact absurd hl zero_not_live
  · have hb := @block_le_highest s.disk id ?_ 0
    · rwa [at_id] at hb
    · rw [at_id]
      exact (newFile_live _ _ _).mpr (by decide)

theorem onlyF_matches {s : Fs} {id block : UInt32}
    (table : ∀ j, s.inode j = if j = id then newFile 0 nameF block else Inode.zero)
    {j : UInt32} {name : CString} :
    (s.inode j).Matches name 0 ↔ j = id ∧ name = nameF := by
  have hf : (newFile 0 nameF block).Matches nameF 0 := newFile_matches (by decide) (by decide)
  rw [table]
  split_ifs with h
  · rw [matches_iff_same hf]
    simp [h]
  · simp [h, Inode.Matches, zero_not_live]

theorem onlyF_replace {block : UInt32} {s : Fs} (h : OnlyF block s) (low : 8 ≤ block) :
    OnlyF (block+1) (runOps replaceF s) := by
  have high := onlyF_highest h low
  obtain ⟨dir, id, mem, table⟩ := h
  have hfg : nameG ≠ nameF := by decide
  have hg (b : UInt32) : (newFile 0 nameG b).Matches nameG 0 :=
    newFile_matches (by decide) (by decide)
  -- "g" is new, and there is a free inode
  have absent : s.disk.lookup nameG s.dir = 0 := by
    rw [dir]
    exact lookup_eq_zero.mpr fun j hm => hfg ((onlyF_matches table).mp hm).2
  have free : s.disk.freeInode ≠ 0 := by
    have dead {j : UInt32} (hj : j ≠ id) : ¬(s.disk.inode j).live := by
      rw [show s.disk.inode j = _ from table j, if_neg hj]
      exact zero_not_live
    by_cases h1 : id = 1
    · exact freeInode_ne_zero.mpr ⟨2, by decide, dead (by rw [h1]; decide)⟩
    · exact freeInode_ne_zero.mpr ⟨1, by decide, dead (Ne.symm h1)⟩
  have ok1 := create_ok_iff.mpr ⟨absent, free⟩
  have table1 := create_table ok1
  have new : s.disk.freeInode ≠ id := by
    intro he
    refine (freeInode_spec free).2 ?_
    rw [show s.disk.inode _ = _ from table _, if_pos he]
    exact (newFile_live _ _ _).mpr (by decide)
  have kmem := (freeInode_spec free).1
  rw [high, dir] at table1
  have dir1 : (exec (.create (some nameG)) s).2.dir = 0 := by rw [create_dir, dir]
  rw [replaceF, runOps_cons, runOps_cons, runOps_cons, runOps_nil]
  generalize (exec (.create (some nameG)) s).2 = s1, s.disk.freeInode = k at *
  have matches1 {j : UInt32} {name : CString} : (s1.inode j).Matches name 0 ↔
      j = k ∧ name = nameG ∨ j = id ∧ name = nameF := by
    rw [table1]
    split_ifs with h
    · rw [matches_iff_same (hg _), h]
      simp [new]
    · rw [onlyF_matches table]
      simp [h]
  have found1 : s1.disk.lookup nameF s1.dir = id := by
    rw [dir1]
    refine lookup_unique (matches1.mpr (.inr ⟨rfl, rfl⟩)) fun j hm => ?_
    rcases matches1.mp hm with ⟨_, he⟩ | ⟨he, _⟩
    · exact absurd he.symm hfg
    · exact he
  have hid := inodeIds_ne_zero mem
  have table2 := @delete_table s1 nameF (by rw [found1]; exact hid)
  have dir2 : (exec (.delete nameF) s1).2.dir = 0 := by rw [delete_dir, dir1]
  rw [found1] at table2
  generalize (exec (.delete nameF) s1).2 = s2 at *
  have only2 (j : UInt32) : s2.inode j = if j = k then newFile 0 nameG (block+1) else Inode.zero := by
    rw [table2, table1, table]
    split_ifs with h1 h2
    · exact absurd (h2.symm.trans h1) new
    · rfl
    · rfl
    · rfl
  have matches2 {j : UInt32} {name : CString} : (s2.inode j).Matches name 0 ↔
      j = k ∧ name = nameG := by
    rw [only2]
    split_ifs with h
    · rw [matches_iff_same (hg _)]
      simp [h]
    · simp [h, Inode.Matches, zero_not_live]
  have found2 : s2.disk.lookup nameG s2.dir = k := by
    rw [dir2]
    exact lookup_unique (matches2.mpr ⟨rfl, rfl⟩) fun j hm => (matches2.mp hm).1
  have ok3 := (@rename_ok_iff s2 nameG nameF).mpr ⟨?_, ?_⟩
  · refine ⟨by rw [rename_dir, dir2], k, kmem, fun j => ?_⟩
    rw [rename_table ok3, found2, only2, only2, if_pos rfl]
    split_ifs <;> rfl
  · rw [found2]
    exact free
  · rw [dir2]
    exact lookup_eq_zero.mpr fun j hm => hfg (matches2.mp hm).2.symm

theorem onlyF_rounds (n : ℕ) {block : UInt32} {s : Fs} (h : OnlyF block s) (low : 8 ≤ block)
    (fits : block.toNat+n < 4294967296) :
    OnlyF (block+UInt32.ofNat n) (runOps (List.replicate n replaceF).flatten s) := by
  induction n generalizing block s with
  | zero => simpa using h
  | succ n ih =>
    have hadd : (block+1).toNat = block.toNat+1 := by
      rw [UInt32.toNat_add]
      simp only [UInt32.reduceToNat]
      omega
    have low' : 8 ≤ block+1 := by
      rw [UInt32.le_iff_toNat_le] at low ⊢
      rw [hadd]
      exact Nat.le_succ_of_le low
    have hn : block+UInt32.ofNat (n+1) = block+1+UInt32.ofNat n := by
      rw [UInt32.ofNat_add, UInt32.add_assoc, UInt32.add_comm (UInt32.ofNat n)]
      rfl
    rw [List.replicate_succ, List.flatten_cons, runOps_append, hn]
    exact ih (onlyF_replace h low) low' (by omega)

/-- 99991 times the only file is replaced by a new one; then a byte is written to it. -/
def wallpaperRun : List FsOp :=
  .create (some nameF) :: (List.replicate 99991 replaceF).flatten++
    [.writeBinary (some nameF) (some fun _ => 0) 1]

theorem wallpaper_overwritten : Reachable anyCall (runOps wallpaperRun freshFs) ∧
    ∃ lba ∈ (runOps wallpaperRun freshFs).disk.written, wallpaperHeaderSector ≤ lba := by
  refine ⟨reachable_runOps freshFs_reachable _, ?_⟩
  have start : OnlyF 9 withF := ⟨withF_dir, 1, by decide, withF_inode⟩
  have last := onlyF_rounds 99991 start (by decide) (by decide)
  rw [show (9 : UInt32)+UInt32.ofNat 99991 = 100000 from rfl] at last
  rw [wallpaperRun, List.cons_append, runOps_cons, runOps_append, runOps_cons, runOps_nil]
  rw [show (exec (.create (some nameF)) freshFs).2 = withF from rfl]
  generalize runOps (List.replicate 99991 replaceF).flatten withF = s at last ⊢
  obtain ⟨dir, id, mem, table⟩ := last
  have look : s.disk.lookup nameF s.dir = id := by
    rw [dir]
    exact lookup_unique ((onlyF_matches table).mpr ⟨rfl, rfl⟩) fun j hm =>
      ((onlyF_matches table).mp hm).1
  have reached : ¬ClearOfWallpaper (exec (.writeBinary (some nameF) (some fun _ => 0) 1) s).2 := by
    rw [exec_clear]
    rintro ⟨_, below⟩
    have at_id : s.inode id = newFile 0 nameF 100000 := (table id).trans (if_pos rfl)
    have file : s.file nameF = some id := by
      rw [Fs.file, look, at_id, if_neg (inodeIds_ne_zero mem)]
      rfl
    have busy : s.transfer (.writeBinary (some nameF) (some fun _ => 0) 1) =
        some ⟨id, fun _ => 0, 1, blockRange (blocksFor 1)⟩ := by
      rw [Fs.transfer, file, Option.bind_some, if_neg (by decide)]
    have slot : (0 : Fin 4) ∈ blockRange (blocksFor 1) := by decide
    have first := (below _ busy 0 slot).1
    rw [at_id] at first
    exact absurd first (UInt32.lt_irrefl _)
  simp only [ClearOfWallpaper, not_forall] at reached
  obtain ⟨lba, mem, hlba⟩ := reached
  exact ⟨lba, mem, UInt32.not_lt.mp hlba⟩

end TinyOS.NanoFS
