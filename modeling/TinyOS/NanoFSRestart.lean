import TinyOS.NanoFSPower
import TinyOS.NanoFSStoreRuns
import TinyOS.TornStores

set_option autoImplicit false

namespace TinyOS.NanoFS
open ByteWords LibcString StateRuns CutRuns EntryStores

variable {s t : Fs} {op : FsOp} {tr : Transfer} {id : UInt32} {v : Inode} {name : CString}

/-- What is left of a table is sound: some records are gone, the rest is as it was. -/
theorem Fs.Sound.remains (h : s.Sound) (dir : t.dir = 0)
    (table : ∀ j, t.inode j = s.inode j ∨ t.inode j = Inode.zero) : t.Sound := by
  have kept {j : UInt32} (live : (t.inode j).live) :
      t.inode j = s.inode j ∧ (s.inode j).live := by
    rcases table j with same | zero
    · exact ⟨same, same ▸ live⟩
    · rw [zero] at live
      exact absurd live zero_not_live
  exact {
    blocks := fun j live => by
      obtain ⟨same, old⟩ := @kept j live
      change ∀ b, (t.inode j).blocks b = 0 ∨ fsDataStart ≤ (t.inode j).blocks b
      rw [same]
      exact h.blocks j old
    terminated := fun j => by
      rcases table j with same | zero
      · rw [same]
        exact h.terminated j
      · rw [zero]
        exact zero_terminated
    apart := fun i j live live' => by
      obtain ⟨same, old⟩ := kept live
      obtain ⟨same', old'⟩ := kept live'
      rw [same, same']
      exact h.apart i j old old'
    filled := fun j live file => by
      obtain ⟨same, old⟩ := kept live
      rw [same] at file ⊢
      exact h.filled j old file
    ancestors := ⟨[], dir ▸ .root, by simp⟩
    sizeless := fun j live isDir => by
      obtain ⟨same, old⟩ := kept live
      rw [same] at isDir ⊢
      exact h.sizeless j old isDir }

theorem remains_highest (table : ∀ j, t.inode j = s.inode j ∨ t.inode j = Inode.zero) :
    t.disk.highest.toNat ≤ s.disk.highest.toNat := by
  rw [← UInt32.le_iff_toNat_le, highest_le]
  refine ⟨eight_le_highest _, fun j live b => ?_⟩
  change (t.inode j).live at live
  change (t.inode j).blocks b ≤ s.disk.highest
  rcases table j with same | zero
  · rw [same] at live ⊢
    exact block_le_highest live b
  · rw [zero] at live
    exact absurd live zero_not_live

theorem restart_view (u : Fs) (total : UInt32) :
    (Fs.mk u.disk ⟨0, total⟩).view = u.view.restart shape := by
  rw [moved_view]
  rfl

section Torn

variable {size : UInt32} {data : Buffer} {bs : List (Fin 4)}

theorem grown_ne_zero (left : NumbersLeft s) {b : Fin 4} (slot : b ∈ blockRange (blocksFor size)) :
    (s.disk.grown v size).blocks b ≠ 0 := by
  intro zero
  simp only [Disk.grown, Disk.fill, slot, true_and] at zero
  split_ifs at zero with missing
  · exact next_ne_zero left zero
  · exact missing zero

theorem writeBlocks_superblock (left : NumbersLeft s)
    (slots : ∀ b ∈ bs, b ∈ blockRange (blocksFor size)) :
    (s.disk.writeBlocks data (s.disk.grown v size).blocks size.toNat bs).sectors 0 =
      s.disk.sectors 0 :=
  writeBlocks_sectors_of_ne _ _ _ _ _ fun b mem => grown_ne_zero left (slots b mem)

theorem writeBlocks_sectors_unique (d : Disk) (data : Buffer) {blocks : Fin 4 → UInt32} (size : ℕ)
    {b : Fin 4} (mem : b ∈ bs) (unique : ∀ c ∈ bs, blocks c = blocks b → c = b) :
    (d.writeBlocks data blocks size bs).sectors (blocks b) = blockSector data size b := by
  rw [writeBlocks_sectors]
  cases found : bs.reverse.find? fun c => decide (blocks c = blocks b) with
  | none =>
    have away := List.find?_eq_none.mp found b (List.mem_reverse.mpr mem)
    exact absurd (decide_eq_true rfl) away
  | some c =>
    have here := List.find?_some found
    simp only [decide_eq_true_eq] at here
    rw [unique c (List.mem_reverse.mp (List.mem_of_find?_eq_some found)) here]

/-- The bytes of the first `m` blocks are new, and the others are as they were. -/
theorem torn_content (left : NumbersLeft s) (live : (s.inode id).live)
    (filled : (s.inode id).Filled) (m : ℕ) {k : ℕ} (lt : k < (s.inode id).size.toNat) :
    (s.disk.writeBlocks data (s.disk.grown (s.inode id) size).blocks size.toNat
        ((List.finRange 4).take m)).content (s.inode id).blocks k =
      if k < 511*m then if k < size.toNat then data k else 0
      else s.disk.content (s.inode id).blocks k := by
  have fits := filled.fits
  have four : k/511 < 4 := by omega
  have real : (s.inode id).blocks ⟨k/511, four⟩ ≠ 0 := filled.real _ (.inr (by
    change 511*(k/511) < _
    omega))
  have same : (s.disk.grown (s.inode id) size).blocks ⟨k/511, four⟩ =
      (s.inode id).blocks ⟨k/511, four⟩ := if_neg fun new => real new.2
  -- a block of the file is the block of one slot only
  have unique (c : Fin 4) (eq : (s.disk.grown (s.inode id) size).blocks c =
      (s.inode id).blocks ⟨k/511, four⟩) : c = ⟨k/511, four⟩ := by
    simp only [Disk.grown, Disk.fill] at eq
    split_ifs at eq
    · exact absurd eq (next_ne_block left live _)
    · exact (filled.apart _ _ real eq.symm).symm
  have slot : (⟨k/511, four⟩ : Fin 4) ∈ (List.finRange 4).take m ↔ k < 511*m := by
    rw [List.mem_take_iff_getElem]
    simp only [List.length_finRange, List.getElem_finRange, Fin.cast_mk, Fin.mk.injEq]
    constructor
    · rintro ⟨i, small, rfl⟩
      omega
    · intro front
      exact ⟨k/511, by omega, rfl⟩
  rw [Disk.content, dif_pos four]
  by_cases front : k < 511*m
  · rw [if_pos front, ← same, writeBlocks_sectors_unique _ _ _ (slot.mpr front)
      fun c _ eq => unique c (eq.trans same), cell_of_lt _ (by omega), blockSector]
    have whole : 511*(k/511)+k%511 = k := by omega
    simp only [whole]
    refine if_congr (by omega) rfl rfl
  · rw [if_neg front, writeBlocks_sectors_of_ne, Disk.content, dif_pos four]
    intro c mem eq
    rw [unique c eq] at mem
    exact front (slot.mp mem)

theorem torn_bytes (left : NumbersLeft s) (live : (s.inode id).live)
    (filled : (s.inode id).Filled) (data : Buffer) (size : UInt32) (m : ℕ) :
    (s.disk.writeBlocks data (s.disk.grown (s.inode id) size).blocks size.toNat
        ((List.finRange 4).take m)).fileBytes (s.inode id) =
      overlay 0 (511*m) ((List.range size.toNat).map data) (s.disk.fileBytes (s.inode id)) := by
  refine List.ext_getElem ?_ fun k lt lt' => ?_
  · rw [overlay_length, fileBytes_length, fileBytes_length]
  · rw [fileBytes_length, filled_extent filled] at lt
    simp only [overlay, Disk.fileBytes, List.getElem_map, List.getElem_mapIdx, List.getElem_range]
    rw [torn_content left live filled m lt]
    refine if_congr Iff.rfl ?_ rfl
    by_cases inside : k < size.toNat
    · rw [if_pos inside, getD_map_range data inside]
    · rw [if_neg inside, List.getD_eq_default _ _ (by simpa using inside)]

theorem Fs.Sound.torn_disk (h : s.Sound) (left : NumbersLeft s) (busy : s.transfer op = some tr)
    (n : ℕ) : (∀ j, (tr.torn s.disk n).inode j = s.inode j) ∧
      ((tr.torn s.disk n).Mounts ↔ s.disk.Mounts) := by
  have live := (transfer_live busy).1
  constructor
  · exact fun j => writeBlocks_inode _ _ _ _ _ (grown_blocks h.blocks live tr.size) j
  · rw [Disk.Mounts, Disk.Mounts, Transfer.torn, writeBlocks_superblock left]
    exact fun b mem => transfer_slots busy b (List.mem_of_mem_take mem)

theorem Fs.Sound.torn_view (h : s.Sound) (left : NumbersLeft s) (busy : s.transfer op = some tr)
    (target : tr.id = s.disk.lookup name s.dir) (found : s.disk.lookup name s.dir ≠ 0)
    (file : (s.inode (s.disk.lookup name s.dir)).isDirectory = 0) {n m : ℕ}
    (slots : tr.slots.take n = (List.finRange 4).take m) (total : UInt32) :
    (Fs.mk (tr.torn s.disk n) ⟨0, total⟩).view =
      (s.view.put (s.disk.lookup name s.dir) (some ⟨name.chars, s.dir,
        .file (overlay 0 (511*m) ((List.range tr.size.toNat).map tr.data)
          (s.disk.fileBytes (s.inode (s.disk.lookup name s.dir))))⟩)).restart shape := by
  obtain ⟨live, parent, same⟩ := lookup_matches found
  obtain ⟨table, mounts⟩ := h.torn_disk left busy n
  have update := @view_update s ⟨tr.torn s.disk n, s.statics⟩ (s.disk.lookup name s.dir)
    (s.inode (s.disk.lookup name s.dir))
    (fun j => by
      split_ifs with here
      · rw [here]
        exact table _
      · exact table j)
    (fun j live' other => fileBytes_congr fun b real => by
      refine writeBlocks_sectors_of_ne _ _ _ _ _ fun c mem => ?_
      have slot := transfer_slots busy c (List.mem_of_mem_take mem)
      rw [target]
      exact fun eq => grown_apart h.apart left live tr.size other live' c b
        (grown_ne_zero left slot) eq)
    rfl mounts
  have entry : (tr.torn s.disk n).entryOf (s.inode (s.disk.lookup name s.dir)) =
      some ⟨name.chars, s.dir, .file (overlay 0 (511*m) ((List.range tr.size.toNat).map tr.data)
        (s.disk.fileBytes (s.inode (s.disk.lookup name s.dir))))⟩ := by
    rw [Disk.entryOf, if_pos live, body_file file, Transfer.torn, slots, target]
    have bytes := torn_bytes left live (h.filled _ live file) tr.data tr.size m
    dsimp only [Fs.inode] at bytes parent same ⊢
    rw [bytes, parent, same]
  rw [entry] at update
  rw [← update]
  exact restart_view (Fs.mk _ s.statics) total

end Torn

theorem cleared_sectors {l : List ℕ} (small : ∀ i ∈ l, i < 8) (d : Disk) (lba : UInt32) :
    (applyAll put (l.map fun i => (fsInodeTableStart+UInt32.ofNat i, emptySector)) d).sectors lba =
        d.sectors lba ∨
      (applyAll put (l.map fun i => (fsInodeTableStart+UInt32.ofNat i, emptySector)) d).sectors lba =
          emptySector ∧ 1 ≤ lba.toNat ∧ lba.toNat < fsDataStart.toNat := by
  induction l generalizing d with
  | nil => exact .inl rfl
  | cons i l ih =>
    obtain ⟨first, rest⟩ := List.forall_mem_cons.mp small
    have place : (fsInodeTableStart+UInt32.ofNat i).toNat = 1+i := by
      rw [UInt32.toNat_add, UInt32.toNat_ofNat_of_lt' (by change i < 4294967296; omega)]
      simp only [fsInodeTableStart, UInt32.reduceToNat]
      omega
    rw [List.map_cons, applyAll, List.foldl_cons]
    rcases ih rest (put (fsInodeTableStart+UInt32.ofNat i, emptySector) d) with same | empty
    · rw [applyAll] at same
      rw [same, put, write_sectors]
      by_cases here : lba = fsInodeTableStart+UInt32.ofNat i
      · right
        rw [here, Function.update_self, place]
        exact ⟨rfl, by omega, by simp only [fsDataStart, UInt32.reduceToNat]; omega⟩
      · exact .inl (Function.update_of_ne here _ _)
    · exact .inr empty

structure Wiped (d e : Disk) : Prop where
  superblock : e.sectors 0 = freshSuperblock.sector
  data : ∀ lba, fsDataStart ≤ lba → e.sectors lba = d.sectors lba
  table : ∀ j, e.inode j = d.inode j ∨ e.inode j = Inode.zero

theorem wiped (d : Disk) (n : ℕ) : Wiped d (applyAll put (formatWrites.take (n+1)) d) := by
  have start : applyAll put (formatWrites.take (n+1)) d =
      applyAll put (((List.range fsInodeTableSectors).take n).map fun i =>
        (fsInodeTableStart+UInt32.ofNat i, emptySector)) (d.write 0 freshSuperblock.sector) := by
    rw [formatWrites, List.take_succ_cons, ← List.map_take]
    rfl
  have sectors := cleared_sectors (l := (List.range fsInodeTableSectors).take n)
    (fun i mem => List.mem_range.mp (List.mem_of_mem_take mem)) (d.write 0 freshSuperblock.sector)
  rw [start]
  constructor
  · rcases sectors 0 with same | ⟨_, low, _⟩
    · rw [same, write_sectors, Function.update_self]
    · simp at low
  · intro lba far
    rcases sectors lba with same | ⟨_, _, high⟩
    · rw [same, write_sectors, Function.update_of_ne]
      rintro rfl
      exact absurd far (by decide)
    · rw [UInt32.le_iff_toNat_le] at far
      omega
  · intro j
    by_cases mem : j ∈ inodeIds
    · rcases sectors (inodeSector j) with same | ⟨empty, _⟩
      · left
        rw [inode_eq mem, same, ← inode_eq mem]
        exact inode_write d 0 _ (.inl rfl) j
      · right
        rw [inode_eq mem, empty, getSlot_empty]
    · left
      rw [inode_of_not_mem mem, inode_of_not_mem mem]

theorem Wiped.mounts {d e : Disk} (h : Wiped d e) : e.Mounts := by
  rw [Disk.Mounts, h.superblock, strcmp_eq_zero, freshSuperblock_magic]
  exact ⟨rfl, freshSuperblock_version⟩

theorem Fs.Sound.wiped_entry (h : s.Sound) {e : Disk} (w : Wiped s.disk e) (st : Statics)
    (j : UInt32) : (Fs.mk e st).view.entry j = s.view.entry j ∨
      (Fs.mk e st).view.entry j = none := by
  rcases w.table j with same | zero
  · by_cases live : (s.inode j).live
    · left
      have bytes : e.fileBytes (s.inode j) = s.disk.fileBytes (s.inode j) :=
        fileBytes_congr fun b real => w.data _ ((h.blocks j live b).resolve_left real)
      change e.entryOf (e.inode j) = s.disk.entryOf (s.disk.inode j)
      rw [same, Disk.entryOf, Disk.entryOf, Disk.body, Disk.body]
      exact if_congr Iff.rfl (by rw [bytes]) rfl
    · right
      change e.entryOf (e.inode j) = none
      rw [same]
      exact if_neg live
  · right
    change e.entryOf (e.inode j) = none
    rw [zero]
    exact if_neg zero_not_live

/-- `fs_mount` finds its file system, and there is what the request may leave. -/
structure Restarts (s : Fs) (r : Request UInt8) (d : Disk) : Prop where
  mounted : (exec .mount (boot d)).1 = 1
  sound : (exec .mount (boot d)).2.Sound
  mounts : d.Mounts
  highest : (exec .mount (boot d)).2.disk.highest.toNat ≤ s.disk.highest.toNat+1
  cut : s.view.Cut shape 0 r (exec .mount (boot d)).2.view

theorem boot_mount {d : Disk} (mounts : d.Mounts) :
    ∃ total, exec .mount (boot d) = (1, ⟨d, ⟨0, total⟩⟩) := by
  rw [mount_exec]
  exact ⟨_, if_pos mounts⟩

theorem Fs.Sound.restarts_from (h : s.Sound) {r : Request UInt8} {d : Disk} (mounts : d.Mounts)
    (table : ∀ j, d.inode j = s.inode j ∨ d.inode j = Inode.zero)
    (cut : ∀ total, s.view.Cut shape 0 r (Fs.mk d ⟨0, total⟩).view) : Restarts s r d := by
  obtain ⟨total, run⟩ := boot_mount mounts
  constructor
  · rw [run]
  · rw [run]
    exact h.remains rfl table
  · exact mounts
  · rw [run]
    exact (remains_highest (t := ⟨d, ⟨0, total⟩⟩) table).trans (Nat.le_succ _)
  · rw [run]
    exact cut total

theorem file_eq_some (busy : s.file name = some id) : s.disk.lookup name s.dir ≠ 0 ∧
    (s.inode (s.disk.lookup name s.dir)).isDirectory = 0 ∧ id = s.disk.lookup name s.dir := by
  unfold Fs.file at busy
  split_ifs at busy with absent isDir
  exact ⟨absent, not_not.mp isDir, (Option.some.inj busy).symm⟩

theorem blockRange_take (size : UInt32) (n : ℕ) : ∃ m,
    (blockRange size).take n = (List.finRange 4).take m :=
  ⟨_, List.take_take⟩

theorem textRange_take {len : UInt32} (short : len.toNat ≤ 511) (n : ℕ) : ∃ m ≤ 1,
    (textRange len).take n = (List.finRange 4).take m := by
  obtain ⟨m, range⟩ : ∃ m, (textRange len).take n = (List.finRange 4).take m := by
    unfold textRange
    split_ifs
    · exact ⟨0, List.take_nil⟩
    · exact blockRange_take _ n
  refine ⟨m, ?_, range⟩
  by_contra more
  have second : (1 : Fin 4) ∈ (textRange len).take n := by
    rw [range, List.mem_take_iff_getElem]
    exact ⟨1, by rw [List.length_finRange]; omega, rfl⟩
  have covered := (mem_textRange (by omega)).mp (List.mem_of_mem_take second)
  change 511*1 < len.toNat at covered
  omega

/-- What `fs_append` has written of a file is what the file held. -/
theorem appended_front {d : Disk} {v : Inode} (filled : v.Filled) (extra : List UInt8) (n : ℕ) :
    overlay 0 n ((d.fileBytes v ++ extra).take 2044) (d.fileBytes v) = d.fileBytes v := by
  refine overlay_self fun k lt _ => ?_
  have length := fileBytes_length d v
  rw [filled_extent filled] at length
  have fits := filled.fits
  rw [List.getD_eq_getElem _ _ (by rw [List.length_take, List.length_append]; omega),
    List.getElem_take, List.getElem_append_left lt]

/-- The store behind a transfer that a request of the shell has begun. -/
theorem Fs.Sound.torn_cut (h : s.Sound) (left : NumbersLeft s) {r : Request UInt8}
    (asks : op.request = some r) (busy : s.transfer op = some tr) (n : ℕ) (total : UInt32) :
    s.view.Cut shape 0 r (Fs.mk (tr.torn s.disk n) ⟨0, total⟩).view := by
  cases op with
  | write name data =>
    cases name with
    | none => cases asks
    | some name =>
      cases data with
      | none => cases asks
      | some data =>
        simp only [FsOp.request, Option.ite_none_right_eq_some, Option.some.injEq] at asks
        obtain ⟨short, rfl⟩ := asks
        obtain ⟨id, file, rfl⟩ := Option.map_eq_some_iff.mp busy
        obtain ⟨found, isFile, rfl⟩ := file_eq_some file
        have short : data.chars.length < 256 := short
        obtain ⟨len, size⟩ := @textLen_eq data (by omega)
        have block : (textLen data).toNat ≤ 511 := by
          rw [size, len]
          omega
        obtain ⟨m, one, range⟩ := textRange_take block n
        rw [h.torn_view left busy rfl found isFile range total]
        dsimp only
        obtain rfl | rfl : m = 0 ∨ m = 1 := by omega
        · rw [overlay_zero, ← body_file isFile, Store.put_same (entry_lookup found)]
          exact .before
        · rw [size, len, text_bytes]
          refine .torn ?_ ?_
          · rw [find_view, if_neg found]
          · rw [entry_lookup found, body_file isFile]
            rfl
  | append scratch name data =>
    cases name with
    | none => cases asks
    | some name =>
      cases data with
      | none => cases asks
      | some data =>
        simp only [FsOp.request, Option.ite_none_right_eq_some, Option.some.injEq] at asks
        obtain ⟨short, rfl⟩ := asks
        obtain ⟨id, file, more⟩ := Option.bind_eq_some_iff.mp busy
        obtain ⟨found, isFile, rfl⟩ := file_eq_some file
        dsimp only at more
        split_ifs at more
        cases more
        obtain ⟨m, range⟩ := blockRange_take
          (blocksFor (appendSize (s.inode (s.disk.lookup name s.dir)).size data)) n
        have filled := h.filled _ (lookup_matches found).1 isFile
        rw [h.torn_view left busy rfl found isFile range total]
        dsimp only
        -- the old content is written again, so nothing has changed
        rw [appended_bytes filled scratch short, appended_front filled, ← body_file isFile,
          Store.put_same (entry_lookup found)]
        exact .before
  | writeBinary name data size => cases asks
  | _ => cases busy

/-- After a power failure in a call the system starts again. -/
theorem Fs.Sound.restarts (h : s.Sound) (left : NumbersLeft s) (mounts : s.disk.Mounts)
    {r : Request UInt8} (asks : op.request = some r) (n : ℕ) : Restarts s r (crash s op n) := by
  have outcome := crashed s op n
  generalize crash s op n = d at outcome
  cases outcome with
  | before disk =>
    subst disk
    refine h.restarts_from mounts (fun j => .inl rfl) fun total => ?_
    rw [restart_view]
    exact .before
  | done disk =>
    have kept : d.Mounts := by
      rw [disk]
      by_cases isFormat : op = .format
      · rw [isFormat]
        exact format_mounts s
      · exact (exec_mounts left isFormat).mpr mounts
    obtain ⟨total, run⟩ := boot_mount kept
    have after := h.step left (by rw [asks]; rfl)
    have higher := effect_highest left (exec_effect h.blocks op)
    constructor
    · rw [run]
    · rw [run, disk]
      exact after.remains rfl fun j => .inl rfl
    · exact kept
    · rw [run, disk]
      exact higher
    · rw [run, disk, restart_view, (h.simulates left asks).view]
      exact .done
  | torn n busy disk =>
    subst disk
    obtain ⟨table, same⟩ := h.torn_disk left busy n
    exact h.restarts_from (same.mpr mounts) (fun j => .inl (table j)) (h.torn_cut left asks busy n)
  | wiped n isFormat disk =>
    subst disk isFormat
    cases asks
    have w := wiped s.disk n
    refine h.restarts_from w.mounts w.table fun total => ?_
    refine .wiped ?_ rfl (h.wiped_entry w _)
    rw [view_valid]
    exact decide_eq_true w.mounts

end TinyOS.NanoFS
