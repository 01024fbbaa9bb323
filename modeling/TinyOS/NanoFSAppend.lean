import TinyOS.NanoFSRoundTrip

set_option autoImplicit false

namespace TinyOS.NanoFS
open ByteWords LibcString StateRuns

theorem textLen_eq {data : CString} (fits : data.chars.length ≤ 2044) :
    (UInt32.ofNat data.chars.length).toNat = data.chars.length ∧
      textLen data = UInt32.ofNat data.chars.length := by
  have len : (UInt32.ofNat data.chars.length).toNat = data.chars.length :=
    UInt32.toNat_ofNat_of_lt' (by change data.chars.length < 4294967296; omega)
  refine ⟨len, UInt32.toNat_inj.mp ?_⟩
  rw [textLen, clampSize_toNat, len]
  omega

/-- On a text that is not empty and fits, both write the same; on the empty text `fs_write_binary`
writes one sector more, outside the inode table. -/
theorem write_paths_agree (dir : UInt32) (name data : CString) (d : Disk) :
    (1 ≤ data.chars.length → data.chars.length ≤ (fsMaxBlocks*511).toNat →
      (fsWrite dir (some name) (some data) : DiskM ℤ).run d =
        (fsWriteBinary dir (some name) (some (text data))
          (UInt32.ofNat (strlen data.chars)) : DiskM ℤ).run d) ∧
    (data.chars = [] → DataBlocks d →
      ((fsWrite dir (some name) (some data) : DiskM ℤ).run d).1 =
        ((fsWriteBinary dir (some name) (some (text data))
          (UInt32.ofNat (strlen data.chars)) : DiskM ℤ).run d).1 ∧
      ∀ lba, fsInodeTableStart ≤ lba → lba < fsDataStart →
        ((fsWrite dir (some name) (some data) : DiskM ℤ).run d).2.sectors lba =
          ((fsWriteBinary dir (some name) (some (text data))
            (UInt32.ofNat (strlen data.chars)) : DiskM ℤ).run d).2.sectors lba) := by
  have small (fits : data.chars.length ≤ 2044) :
      ¬UInt32.ofNat data.chars.length > fsMaxBlocks*511 := by
    rw [gt_iff_lt, UInt32.lt_iff_toNat_lt, maxSize_toNat, (textLen_eq fits).1]
    omega
  rw [strlen_chars, fsWrite_run, fsWriteBinary_run]
  constructor
  · intro some fits
    rw [maxSize_toNat] at fits
    obtain ⟨len, eq⟩ := textLen_eq fits
    have ne : UInt32.ofNat data.chars.length ≠ 0 := by
      intro zero
      rw [zero] at len
      change 0 = data.chars.length at len
      omega
    rw [eq, textRange, if_neg ne, if_neg (small fits)]
  · intro empty blocks
    have fits : data.chars.length ≤ 2044 := by
      rw [empty]
      exact Nat.zero_le _
    have none : textLen data = 0 := by
      rw [(textLen_eq fits).2, empty]
      rfl
    rw [if_neg (small fits), none, show UInt32.ofNat data.chars.length = 0 by rw [empty]; rfl,
      show textRange 0 = [] from rfl]
    split_ifs with absent isDir
    · exact ⟨rfl, fun _ _ _ => rfl⟩
    · exact ⟨rfl, fun _ _ _ => rfl⟩
    · refine ⟨rfl, fun lba low high => ?_⟩
      -- the inode is stored over table sectors that the data block leaves alone
      have same (l : UInt32) (low : fsInodeTableStart ≤ l) (high : l < fsDataStart) :
          (d.writeBlocks (text data) (d.grown (d.inode (d.lookup name dir)) 0).blocks
            (0 : UInt32).toNat (blockRange (blocksFor 0))).sectors l = d.sectors l := by
        refine writeBlocks_sectors_of_ne _ _ _ _ _ fun b _ eq => ?_
        have real := grown_blocks blocks (lookup_matches absent).1 0 b
        simp only [eq, ← UInt32.toNat_inj, UInt32.le_iff_toNat_le, UInt32.lt_iff_toNat_lt,
          fsInodeTableStart, fsDataStart, UInt32.reduceToNat] at real low high
        omega
      have mem := live_mem (lookup_matches absent).1
      have range := inodeSector_range mem
      have place := same (inodeSector (d.lookup name dir))
        (UInt32.le_iff_toNat_le.mpr range.1)
        (UInt32.lt_iff_toNat_lt.mpr (Nat.lt_succ_of_le range.2))
      rw [Disk.store, Disk.store, putInode_eq mem, putInode_eq mem, write_sectors, write_sectors,
        place]
      by_cases here : lba = inodeSector (d.lookup name dir)
      · rw [here, Function.update_self, Function.update_self]
        rfl
      · rw [Function.update_of_ne here, Function.update_of_ne here, same lba low high]
        rfl

def nameEmpty : CString := ⟨[], by decide⟩

theorem write_paths_agree_withF :
    (fsWrite withF.dir (some nameF) (some nameD) : DiskM ℤ).run withF.disk =
      (fsWriteBinary withF.dir (some nameF) (some (text nameD)) 1 : DiskM ℤ).run withF.disk ∧
    ((fsWrite withF.dir (some nameF) (some nameEmpty) : DiskM ℤ).run withF.disk).1 =
      ((fsWriteBinary withF.dir (some nameF) (some (text nameEmpty)) 0 : DiskM ℤ).run
        withF.disk).1 :=
  ⟨(write_paths_agree withF.dir nameF nameD withF.disk).1 (by decide) (by decide),
    ((write_paths_agree withF.dir nameF nameEmpty withF.disk).2 rfl
      (reachable_dataBlocks withF_reachable)).1⟩

/-- `fs_read` returns this content, as much as fits the buffer, and stores nothing else. -/
def Fs.ReadsAs (s : Fs) (name : CString) (c : List UInt8) : Prop :=
  ∀ buffer bufSize, (s.call (fsRead s.dir (some name) (some buffer) bufSize)).1 =
    (((min c.length bufSize.toNat : ℕ) : ℤ),
      some fun k => if k < min c.length bufSize.toNat then c.getD k 0 else buffer k)

/-- The bytes of a file that `fs_read` can reach. -/
def Disk.fileBytes (d : Disk) (node : Inode) : List UInt8 :=
  (List.range (node.extent node.size.toNat)).map (d.content node.blocks)

variable {s : Fs} {name data : CString} {c c' : List UInt8}

theorem extent_min (v : Inode) (n m : ℕ) : v.extent (min n m) = min (v.extent n) m := by
  rw [Inode.extent, Inode.extent]
  omega

theorem getD_map_range (f : ℕ → UInt8) {k n : ℕ} (lt : k < n) :
    ((List.range n).map f).getD k 0 = f k := by
  rw [List.getD_eq_getElem _ _ (by rwa [List.length_map, List.length_range]), List.getElem_map,
    List.getElem_range]

theorem readsAs_fileBytes (found : s.disk.lookup name s.dir ≠ 0)
    (file : (s.inode (s.disk.lookup name s.dir)).isDirectory = 0) :
    s.ReadsAs name (s.disk.fileBytes (s.inode (s.disk.lookup name s.dir))) := by
  intro buffer bufSize
  rw [call_fst, fsRead_run, if_neg found, if_neg (not_not.mpr file), Disk.fileBytes,
    List.length_map, List.length_range]
  dsimp only
  rw [extent_min, show s.disk.inode = s.inode from rfl]
  refine congrArg (fun into : Buffer => (_, some into)) (funext fun k => ?_)
  rw [Disk.readInto, extent_min]
  split_ifs with lt
  · rw [getD_map_range _ (by omega)]
  · rfl

theorem readsAs_found (reads : s.ReadsAs name c) : s.disk.lookup name s.dir ≠ 0 ∧
    (s.inode (s.disk.lookup name s.dir)).isDirectory = 0 := by
  have read := congrArg Prod.fst (reads (fun _ => 0) 0)
  rw [call_fst, fsRead_run] at read
  split_ifs at read with absent isDir
  · change (-1 : ℤ) = ((min c.length (0 : UInt32).toNat : ℕ) : ℤ) at read
    omega
  · change (-2 : ℤ) = ((min c.length (0 : UInt32).toNat : ℕ) : ℤ) at read
    omega
  · exact ⟨absent, not_not.mp isDir⟩

theorem fileBytes_length (d : Disk) (node : Inode) :
    (d.fileBytes node).length = node.extent node.size.toNat := by
  rw [Disk.fileBytes, List.length_map, List.length_range]

theorem readsAs_eq (reads : s.ReadsAs name c) :
    c = s.disk.fileBytes (s.inode (s.disk.lookup name s.dir)) := by
  obtain ⟨found, file⟩ := readsAs_found reads
  have small := extent_le (s.inode (s.disk.lookup name s.dir))
    (s.inode (s.disk.lookup name s.dir)).size.toNat
  have same := (reads (fun _ => 0) 4294967295).symm.trans
    (readsAs_fileBytes found file (fun _ => 0) 4294967295)
  rw [Prod.mk.injEq, Option.some.injEq, Nat.cast_inj, fileBytes_length,
    show (4294967295 : UInt32).toNat = 4294967295 from rfl] at same
  obtain ⟨length, bytes⟩ := same
  have size : c.length = (s.disk.fileBytes (s.inode (s.disk.lookup name s.dir))).length := by
    rw [fileBytes_length]
    omega
  refine List.ext_getElem size fun k lt lt' => ?_
  have byte := congrFun bytes k
  rw [fileBytes_length] at lt'
  rwa [if_pos (by omega), if_pos (by omega), List.getD_eq_getElem _ _ lt,
    List.getD_eq_getElem] at byte

structure Inode.Filled (v : Inode) : Prop where
  fits : v.size.toNat ≤ 2044
  real : ∀ b : Fin 4, b = 0 ∨ 511*b.val < v.size.toNat → v.blocks b ≠ 0
  apart : ∀ a b, v.blocks a ≠ 0 → v.blocks a = v.blocks b → a = b

def Fs.FilesFilled (s : Fs) : Prop :=
  ∀ id, (s.inode id).live → (s.inode id).isDirectory = 0 → (s.inode id).Filled

/-- A write that ends at most one block behind the old end misses one block at most. -/
theorem grown_filled {d : Disk} {v : Inode} {size : UInt32} (h : v.Filled)
    (near : size.toNat ≤ v.size.toNat+511) (fits : size.toNat ≤ 2044) (next : d.highest+1 ≠ 0)
    (fresh : ∀ b, d.highest+1 ≠ v.blocks b) : (d.grown v size).Filled := by
  have block (b : Fin 4) : (d.grown v size).blocks b =
      if b ∈ blockRange (blocksFor size) ∧ v.blocks b = 0 then d.highest+1 else v.blocks b := rfl
  have missing {b : Fin 4} (new : b ∈ blockRange (blocksFor size) ∧ v.blocks b = 0) :
      v.size.toNat ≤ 511*b.val ∧ 511*b.val < size.toNat := by
    obtain ⟨mem, zero⟩ := new
    have start : b ≠ 0 := fun eq => h.real b (.inl eq) zero
    refine ⟨not_lt.mp fun lt => h.real b (.inr lt) zero, ?_⟩
    exact ((mem_blocksFor fits).mp mem).resolve_left start
  constructor
  · exact fits
  · intro b here
    rw [block]
    split_ifs with new
    · exact next
    · exact fun zero => new ⟨(mem_blocksFor fits).mpr here, zero⟩
  · intro a b some eq
    rw [block] at some eq
    rw [block] at eq
    split_ifs at some eq with newA newB newB
    · have first := missing newA
      have second := missing newB
      exact Fin.ext (by omega)
    · exact absurd eq (fresh b)
    · exact absurd eq.symm (fresh a)
    · exact h.apart a b some eq

theorem Fs.FilesFilled.same {t : Fs} (h : s.FilesFilled) (table : ∀ j, t.inode j = s.inode j) :
    t.FilesFilled := by
  intro id
  rw [table]
  exact h id

theorem Fs.FilesFilled.update {t : Fs} {id : UInt32} {v : Inode} (h : s.FilesFilled)
    (table : ∀ j, t.inode j = if j = id then v else s.inode j)
    (new : v.live → v.isDirectory = 0 → v.Filled) : t.FilesFilled := by
  intro j
  rw [table]
  split_ifs
  · exact new
  · exact h j

theorem newFile_filled {dir block : UInt32} (next : block ≠ 0) :
    (newFile dir name block).Filled := by
  have zero {b : Fin 4} (ne : b ≠ 0) : (newFile dir name block).blocks b = 0 :=
    by simp only [newFile, Function.update_of_ne ne]
  constructor
  · exact Nat.zero_le _
  · rintro b (rfl | lt)
    · exact next
    · exact absurd lt (Nat.not_lt_zero _)
  · intro a b some eq
    by_cases first : a = 0
    · by_cases second : b = 0
      · rw [first, second]
      · rw [eq, zero second] at some
        exact absurd rfl some
    · exact absurd (zero first) some

abbrev cmdMax : ℕ := 256

/-- The calls of the commands touch, mkdir, cd, mv, rm, write and append, while there are block
numbers left; a line is shorter than `CMD_MAX`. -/
def shellCall (s : Fs) (op : FsOp) : Prop :=
  NumbersLeft s ∧ match op with
    | .create _ | .mkdir _ | .changeDir _ | .rename _ _ | .delete _ => True
    | .write _ (some data) | .append _ _ (some data) => data.chars.length < cmdMax
    | _ => False

theorem next_ne_zero (left : NumbersLeft s) : s.disk.highest+1 ≠ 0 := by
  have lt := highest_lt left
  rw [Ne, ← UInt32.toNat_inj, UInt32.toNat_add]
  simp only [UInt32.reduceToNat]
  omega

theorem appendSize_toNat {size : UInt32} (fits : size.toNat ≤ 2044)
    (short : data.chars.length < 256) :
    (appendSize size data).toNat = min (size.toNat+data.chars.length) 2044 := by
  have len : (UInt32.ofNat data.chars.length).toNat = data.chars.length :=
    UInt32.toNat_ofNat_of_lt' (by change data.chars.length < 4294967296; omega)
  rw [appendSize, clampSize_toNat, UInt32.toNat_add, len, Nat.mod_eq_of_lt (by omega)]

theorem filesFilled_step (d : DataBlocks s.disk) (h : s.FilesFilled) {op : FsOp}
    (ok : shellCall s op) : (exec op s).2.FilesFilled := by
  obtain ⟨left, kind⟩ := ok
  have next := next_ne_zero left
  have stored {name : CString} (found : s.disk.lookup name s.dir ≠ 0)
      (isDir : ¬(s.inode (s.disk.lookup name s.dir)).isDirectory ≠ 0) {size : UInt32}
      (near : size.toNat ≤ (s.inode (s.disk.lookup name s.dir)).size.toNat+511)
      (fits : size.toNat ≤ 2044) (buffer : Buffer) (bs : List (Fin 4)) :
      Fs.FilesFilled { s with
        disk := s.disk.store (s.disk.lookup name s.dir) buffer size bs } := by
    have live := (lookup_matches found).1
    refine h.update (store_inode d live buffer size bs) fun _ _ => ?_
    exact grown_filled (h _ live (not_not.mp isDir)) near fits next fun b =>
      next_ne_block left live b
  cases op with
  | create name =>
    cases name with
    | none => exact h
    | some name =>
      by_cases result : (exec (.create (some name)) s).1 = 0
      · exact h.update (create_table result) fun _ _ => newFile_filled next
      · rwa [create_fails result]
  | mkdir name =>
    by_cases result : (exec (.mkdir name) s).1 = 0
    · exact h.update (mkdir_table result) fun _ isFile => absurd isFile (show (1 : UInt8) ≠ 0 by decide)
    · rwa [mkdir_fails result]
  | changeDir name => exact h.same fun j => changeDir_inode j
  | rename name new =>
    by_cases result : (exec (.rename name new) s).1 = 0
    · refine h.update (rename_table result) fun _ isFile => ?_
      obtain ⟨fits, real, apart⟩ :=
        h _ (lookup_matches (rename_ok_iff.mp result).1).1 isFile
      exact ⟨fits, real, apart⟩
    · rwa [rename_fails result]
  | delete name =>
    by_cases result : (exec (.delete name) s).1 = 0
    · exact h.update (delete_table (delete_ok_iff.mp result)) fun live => absurd live zero_not_live
    · rwa [delete_fails result]
  | write name data =>
    cases data with
    | none => exact kind.elim
    | some data =>
      cases name with
      | none => exact h
      | some name =>
        have short : data.chars.length < 256 := kind
        simp only [exec, Fs.call, fsWrite_run]
        split_ifs with absent isDir
        · exact h
        · exact h
        · have len := textLen_eq (show data.chars.length ≤ 2044 by omega)
          exact stored absent isDir (by rw [len.2, len.1]; omega) (textLen_le data) _ _
  | append scratch name data =>
    cases data with
    | none => exact kind.elim
    | some data =>
      cases name with
      | none => exact h
      | some name =>
        have short : data.chars.length < 256 := kind
        simp only [exec, Fs.call, fsAppend_run]
        split_ifs with absent isDir full
        · exact h
        · exact h
        · exact h
        · have fits := (h _ (lookup_matches absent).1 (not_not.mp isDir)).fits
          have near : (appendSize (s.inode (s.disk.lookup name s.dir)).size data).toNat ≤
              (s.inode (s.disk.lookup name s.dir)).size.toNat+511 := by
            rw [appendSize_toNat fits short]
            exact (Nat.min_le_left _ _).trans (Nat.add_le_add_left (by omega) _)
          exact stored absent isDir near (appendSize_le _ data) _ _
  | _ => exact kind.elim

theorem reachable_filesFilled (h : Reachable shellCall s) : s.FilesFilled := by
  refine h.invariant (I := Fs.FilesFilled) ?_ ?_
  · intro s start id live
    rw [(formatted_table start).1] at live
    exact absurd live zero_not_live
  · rintro s t op reach filled ok rfl
    exact filesFilled_step (reachable_dataBlocks reach) filled ok

theorem filled_extent {v : Inode} (h : v.Filled) : v.extent v.size.toNat = v.size.toNat :=
  (extent_eq h.fits).mpr fun b lt => h.real b (.inr lt)

/-- The bytes that `fs_append` hands on: the content, then the text, cut at four blocks. -/
theorem appended_bytes {d : Disk} {v : Inode} (h : v.Filled) (scratch : Buffer)
    (short : data.chars.length < 256) :
    (List.range (appendSize v.size data).toNat).map (d.appended v scratch data) =
      (d.fileBytes v ++ data.chars).take 2044 := by
  have fits := h.fits
  have size := appendSize_toNat fits short
  have length := fileBytes_length d v
  rw [filled_extent h] at length
  have extra : (appendSize v.size data-v.size).toNat =
      (appendSize v.size data).toNat-v.size.toNat :=
    UInt32.toNat_sub_of_le _ _ (by rw [UInt32.le_iff_toNat_le, size]; omega)
  have index {k : ℕ} (lt : k < 2044) : (UInt32.ofNat k-v.size).toNat =
      if v.size.toNat ≤ k then k-v.size.toNat else 4294967296+k-v.size.toNat := by
    rw [UInt32.toNat_sub, UInt32.toNat_ofNat_of_lt' (by change k < 4294967296; omega)]
    split_ifs
    · omega
    · omega
  refine List.ext_getElem ?_ fun k lt lt' => ?_
  · rw [List.length_map, List.length_range, size, List.length_take, List.length_append, length]
    omega
  · rw [List.length_map, List.length_range, size] at lt
    have behind : UInt32.ofNat k-v.size < appendSize v.size data-v.size ↔ v.size.toNat ≤ k := by
      rw [UInt32.lt_iff_toNat_lt, extra, index (by omega), size]
      split_ifs
      · omega
      · omega
    rw [List.getElem_map, List.getElem_range, List.getElem_take, Disk.appended, storeText]
    by_cases old : k < v.size.toNat
    · rw [if_neg (behind.not.mpr (by omega)), List.getElem_append_left (by omega), Disk.readInto,
        filled_extent h, if_pos old]
      simp only [Disk.fileBytes, List.getElem_map, List.getElem_range]
    · rw [if_pos (behind.mpr (by omega)), index (by omega), if_pos (by omega), text,
        List.getElem_append_right (by omega), List.getD_eq_getElem _ _ (by omega)]
      congr 1
      omega

theorem readsAs_of_roundTrip {buffer : Buffer} {size : UInt32}
    (trip : ∀ into bufSize, RoundTrip s name buffer size into bufSize) :
    (exec (.writeBinary (some name) (some buffer) size) s).2.ReadsAs name
      ((List.range size.toNat).map buffer) := by
  intro into bufSize
  rw [(trip into bufSize).2, List.length_map, List.length_range]
  congr 2
  funext k
  split_ifs with lt
  · rw [getD_map_range _ (by omega)]
  · rfl

/-- A write to a file without gaps that keeps it so is read back. -/
theorem roundTrip_filled (d : DataBlocks s.disk) (terminated : s.NamesTerminated)
    (found : s.disk.lookup name s.dir ≠ 0)
    (file : (s.inode (s.disk.lookup name s.dir)).isDirectory = 0) {size : UInt32}
    (grown : (s.disk.grown (s.inode (s.disk.lookup name s.dir)) size).Filled) (buffer into : Buffer)
    (bufSize : UInt32) : RoundTrip s name buffer size into bufSize := by
  refine (roundTrip_iff d terminated found file grown.fits buffer into bufSize).mpr
    (kept_of_slotsApart grown.fits bufSize (fun b lt => ?_) buffer)
  have real := grown.real b (.inr (lt_of_lt_of_le lt (Nat.min_le_left _ _)))
  refine ⟨real, fun c later _ eq => ?_⟩
  exact absurd (grown.apart b c real eq.symm) (ne_of_lt later)

theorem append_reads (h : Reachable shellCall s) (left : NumbersLeft s)
    (short : data.chars.length < cmdMax) (scratch : Buffer) (before : s.ReadsAs name c) :
    (exec (.append scratch (some name) (some data)) s).1 = 0 ∧
      (exec (.append scratch (some name) (some data)) s).2.ReadsAs name
        ((c ++ data.chars).take 2044) := by
  have short : data.chars.length < 256 := short
  have d := reachable_dataBlocks h
  have terminated := reachable_terminated h
  obtain ⟨found, file⟩ := readsAs_found before
  have live := (lookup_matches found).1
  have filled := reachable_filesFilled h _ live file
  have size := appendSize_toNat filled.fits short
  have content := readsAs_eq before
  have length := fileBytes_length s.disk (s.inode (s.disk.lookup name s.dir))
  rw [filled_extent filled, ← content] at length
  by_cases full : appendSize (s.inode (s.disk.lookup name s.dir)).size data-
      (s.inode (s.disk.lookup name s.dir)).size = 0
  · have same : exec (.append scratch (some name) (some data)) s = (0, s) := by
      simp only [exec, Fs.call, fsAppend_run]
      rw [if_neg found, if_neg (not_not.mpr file), if_pos full]
    have noMore : min (c.length+data.chars.length) 2044 = c.length := by
      have eq := UInt32.toNat_inj.mpr (sub_eq_zero.mp full)
      rw [size] at eq
      rw [length]
      exact eq
    rw [same]
    refine ⟨rfl, ?_⟩
    have cut : (c ++ data.chars).take 2044 = c := by
      rcases Nat.eq_zero_or_pos data.chars.length with none | some
      · rw [List.length_eq_zero_iff.mp none, List.append_nil, List.take_of_length_le (by omega)]
      · rw [List.take_append_of_le_length (by omega), List.take_of_length_le (by omega)]
    rwa [cut]
  · have same : exec (.append scratch (some name) (some data)) s =
        exec (.writeBinary (some name)
          (some (s.disk.appended (s.inode (s.disk.lookup name s.dir)) scratch data))
          (appendSize (s.inode (s.disk.lookup name s.dir)).size data)) s := by
      have small : ¬appendSize (s.inode (s.disk.lookup name s.dir)).size data > fsMaxBlocks*511 := by
        rw [gt_iff_lt, UInt32.lt_iff_toNat_lt, maxSize_toNat, size]
        omega
      simp only [exec, Fs.call, fsAppend_run, fsWriteBinary_run]
      rw [if_neg found, if_neg (not_not.mpr file), if_neg full, if_neg found,
        if_neg (not_not.mpr file), if_neg small]
    have grown : (s.disk.grown (s.inode (s.disk.lookup name s.dir))
        (appendSize (s.inode (s.disk.lookup name s.dir)).size data)).Filled := by
      refine grown_filled filled ?_ (appendSize_le _ data) (next_ne_zero left) fun b =>
        next_ne_block left live b
      rw [size]
      exact (Nat.min_le_left _ _).trans (Nat.add_le_add_left (by omega) _)
    have trip := roundTrip_filled d terminated found file grown
      (s.disk.appended (s.inode (s.disk.lookup name s.dir)) scratch data)
    have result := (trip (fun _ => 0) 0).1
    have reads := readsAs_of_roundTrip trip
    rw [appended_bytes filled scratch short, ← content, ← same] at reads
    rw [← same] at result
    exact ⟨result, reads⟩

/-- `fs_append` to a file returns 0, and then the file reads as its old content and the text, cut
at the largest size, and no two of its blocks are the same. -/
theorem append_law (h : Reachable shellCall s) (left : NumbersLeft s)
    (short : data.chars.length < cmdMax) (scratch : Buffer) (before : s.ReadsAs name c) :
    let t := (exec (.append scratch (some name) (some data)) s).2
    (exec (.append scratch (some name) (some data)) s).1 = 0 ∧
    t.ReadsAs name ((c ++ data.chars).take 2044) ∧
      ∀ a b, a ≠ b → (t.inode (t.disk.lookup name t.dir)).blocks a ≠ 0 →
        (t.inode (t.disk.lookup name t.dir)).blocks a ≠
          (t.inode (t.disk.lookup name t.dir)).blocks b := by
  intro t
  obtain ⟨result, reads⟩ := append_reads h left short scratch before
  have allowed : shellCall s (.append scratch (some name) (some data)) := ⟨left, short⟩
  have after := filesFilled_step (reachable_dataBlocks h) (reachable_filesFilled h) allowed
  obtain ⟨here, isFile⟩ := readsAs_found reads
  refine ⟨result, reads, fun a b ne some eq => ne ?_⟩
  exact (after _ (lookup_matches here).1 isFile).apart a b some eq

theorem withF_empty : withF.ReadsAs nameF [] := by
  have reads := @readsAs_fileBytes withF nameF (by rw [withF_lookup]; decide)
    (by rw [withF_lookup, withF_inode]; rfl)
  rw [withF_lookup, withF_inode] at reads
  exact reads

theorem withF_shell : Reachable shellCall withF :=
  .step (i := .create (some nameF)) freshFs_reachable ⟨freshFs_numbersLeft, trivial⟩ rfl

def withText : Fs := (exec (.append (fun _ => 0) (some nameF) (some nameD)) withF).2

theorem withText_reads : withText.ReadsAs nameF [100] :=
  (append_reads withF_shell withF_numbersLeft (by decide) (fun _ => 0) withF_empty).2

theorem withText_shell : Reachable shellCall withText :=
  .step withF_shell ⟨withF_numbersLeft, by decide⟩ rfl

theorem withText_numbersLeft : NumbersLeft withText := by
  have one : withText.disk.highest.toNat ≤ withF.disk.highest.toNat+1 :=
    effect_highest withF_numbersLeft (exec_effect (reachable_dataBlocks withF_shell)
      (.append (fun _ => 0) (some nameF) (some nameD)))
  simp only [withF_highest, UInt32.reduceToNat] at one
  exact numbersLeft_of_lt (by omega)

theorem append_law_withText :
    let t := (exec (.append (fun _ => 0) (some nameF) (some nameD)) withText).2
    (exec (.append (fun _ => 0) (some nameF) (some nameD)) withText).1 = 0 ∧
    t.ReadsAs nameF (([100] ++ nameD.chars).take 2044) ∧
      ∀ a b, a ≠ b → (t.inode (t.disk.lookup nameF t.dir)).blocks a ≠ 0 →
        (t.inode (t.disk.lookup nameF t.dir)).blocks a ≠
          (t.inode (t.disk.lookup nameF t.dir)).blocks b :=
  append_law withText_shell withText_numbersLeft (by decide) (fun _ => 0) withText_reads

end TinyOS.NanoFS
