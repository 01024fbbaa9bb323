import TinyOS.NanoFSBlocks

set_option autoImplicit false

namespace TinyOS.NanoFS
open ByteWords LibcString StateRuns

/-- The call of `fs_write_binary` returns 0, and `fs_read` after it returns the
data cut at the buffer size and stores nothing else. -/
def RoundTrip (s : Fs) (name : CString) (data : Buffer) (size : UInt32) (buffer : Buffer)
    (bufSize : UInt32) : Prop :=
  let w := exec (.writeBinary (some name) (some data) size) s
  let n := min size.toNat bufSize.toNat
  w.1 = 0 ∧ (w.2.call (fsRead w.2.dir (some name) (some buffer) bufSize)).1 =
    ((n : ℤ), some fun k => if k < n then data k else buffer k)

def Fs.numbers (s : Fs) (name : CString) (size : UInt32) : Fin 4 → UInt32 :=
  s.disk.fill (s.inode (s.disk.lookup name s.dir)) (blockRange (blocksFor size))

def keeper (blocks : Fin 4 → UInt32) (bs : List (Fin 4)) (b : Fin 4) : Fin 4 :=
  (bs.reverse.find? fun c => blocks c = blocks b).getD b

/-- Every byte to be read lies in a real block, whose last writer has this byte. -/
def Kept (s : Fs) (name : CString) (data : Buffer) (size bufSize : UInt32) : Prop :=
  ∀ b : Fin 4, ∀ i < 511, 511*b.val+i < min size.toNat bufSize.toNat →
    s.numbers name size b ≠ 0 ∧
    let c := keeper (s.numbers name size) (blockRange (blocksFor size)) b
    (if 511*c.val+i < size.toNat then data (511*c.val+i) else 0) = data (511*b.val+i)

/-- Every slot to be read has a real block, which no later slot of the write shares. -/
def SlotsApart (s : Fs) (name : CString) (size bufSize : UInt32) : Prop :=
  ∀ b : Fin 4, 511*b.val < min size.toNat bufSize.toNat →
    s.numbers name size b ≠ 0 ∧
    ∀ c, b < c → 511*c.val < size.toNat → s.numbers name size c ≠ s.numbers name size b

/-- The sector of a slot holds what the last write to it put there. -/
theorem writeBlocks_keeper (d : Disk) (data : Buffer) (blocks : Fin 4 → UInt32) (size : ℕ)
    {bs : List (Fin 4)} {b : Fin 4} (hb : b ∈ bs) :
    (d.writeBlocks data blocks size bs).sectors (blocks b) =
      blockSector data size (keeper blocks bs b) := by
  rw [writeBlocks_sectors, keeper]
  cases hf : bs.reverse.find? fun c => decide (blocks c = blocks b) with
  | none =>
    have hn := List.find?_eq_none.mp hf b (List.mem_reverse.mpr hb)
    simp at hn
  | some c => rfl

theorem extent_eq {v : Inode} {n : ℕ} (h : n ≤ 2044) :
    v.extent n = n ↔ ∀ b : Fin 4, 511*b.val < n → v.blocks b ≠ 0 := by
  constructor
  · intro he b hb
    have hlt : b.val < v.leading := by
      unfold Inode.extent at he
      omega
    exact (lt_leading b.isLt).mp hlt b (Nat.le_refl _)
  · intro hall
    unfold Inode.extent
    by_cases h0 : n = 0
    · omega
    · have hlt : (n-1)/511 < v.leading := by
        rw [lt_leading (by omega)]
        exact fun b hb => hall b (by omega)
      omega

section Run

variable {s : Fs} {name : CString} {size : UInt32}

theorem numbers_real (d : DataBlocks s.disk) (found : s.disk.lookup name s.dir ≠ 0) (b : Fin 4) :
    s.numbers name size b = 0 ∨ fsDataStart ≤ s.numbers name size b :=
  grown_blocks d (lookup_matches found).1 size b

theorem store_lookup (d : DataBlocks s.disk) (terminated : s.NamesTerminated)
    (found : s.disk.lookup name s.dir ≠ 0) (data : Buffer) (bs : List (Fin 4)) :
    (s.disk.store (s.disk.lookup name s.dir) data size bs).lookup name s.dir =
      s.disk.lookup name s.dir := by
  have hm := lookup_matches found
  have grown : (s.disk.grown (s.disk.inode (s.disk.lookup name s.dir)) size).Matches name s.dir :=
    ⟨hm.1, hm.2.1, (grown_nameStr terminated _ size).trans hm.2.2⟩
  refine lookup_keep found ?_ fun j hj => ?_
  · rw [store_inode d hm.1, if_pos rfl]
    exact grown
  · rw [store_inode d hm.1] at hj
    split_ifs at hj with h
    · rw [h]
      exact hm
    · exact hj

theorem call_fst {α : Type} (s : Fs) (x : DiskM α) : (s.call x).1 = (x.run s.disk).1 := rfl

theorem write_read_run (d : DataBlocks s.disk) (terminated : s.NamesTerminated)
    (found : s.disk.lookup name s.dir ≠ 0)
    (file : (s.inode (s.disk.lookup name s.dir)).isDirectory = 0) (fits : size.toNat ≤ 2044)
    (data buffer : Buffer) (bufSize : UInt32) :
    let id := s.disk.lookup name s.dir
    let node := s.disk.grown (s.inode id) size
    let n := min size.toNat bufSize.toNat
    let w := exec (.writeBinary (some name) (some data) size) s
    w.1 = 0 ∧ (w.2.call (fsRead w.2.dir (some name) (some buffer) bufSize)).1 =
      ((node.extent n : ℤ), some ((s.disk.store id data size
        (blockRange (blocksFor size))).readInto node n buffer)) := by
  intro id node n w
  have hn : ¬size > fsMaxBlocks*511 := by
    rw [gt_iff_lt, UInt32.lt_iff_toNat_lt, maxSize_toNat, not_lt]
    exact fits
  have hid : ¬s.disk.lookup name s.dir = 0 := found
  have hdir : ¬(s.disk.inode (s.disk.lookup name s.dir)).isDirectory ≠ 0 := not_not.mpr file
  have hw : w = (0, { s with disk := s.disk.store id data size (blockRange (blocksFor size)) }) := by
    simp only [w, exec, Fs.call, fsWriteBinary_run, hid, hdir, hn, ↓reduceIte]
    rfl
  have record : (s.disk.store id data size (blockRange (blocksFor size))).inode id = node := by
    rw [store_inode d (lookup_matches found).1, if_pos rfl]
  have look := @store_lookup s name size d terminated found data (blockRange (blocksFor size))
  have isFile : ¬node.isDirectory ≠ 0 := hdir
  rw [hw]
  refine ⟨rfl, ?_⟩
  rw [call_fst]
  dsimp only
  rw [fsRead_run, look, if_neg hid, record, if_neg isFile]
  rfl

/-- The byte a read finds at place `i` of a slot that was written. -/
theorem store_content (d : DataBlocks s.disk) (found : s.disk.lookup name s.dir ≠ 0)
    (fits : size.toNat ≤ 2044) (data : Buffer) {b : Fin 4} {i : ℕ} (hi : i < 511)
    (hb : 511*b.val+i < size.toNat) :
    (s.disk.store (s.disk.lookup name s.dir) data size (blockRange (blocksFor size))).content
      (s.numbers name size) (511*b.val+i) =
      let c := keeper (s.numbers name size) (blockRange (blocksFor size)) b
      if 511*c.val+i < size.toNat then data (511*c.val+i) else 0 := by
  have hdiv : (511*b.val+i)/511 = b.val := by omega
  have hmod : (511*b.val+i)%511 = i := by omega
  have hb4 := b.isLt
  have mem : b ∈ blockRange (blocksFor size) := (mem_blocksFor fits).mpr (.inr (by omega))
  have slot : (⟨(511*b.val+i)/511, by omega⟩ : Fin 4) = b := Fin.ext hdiv
  have sector := writeBlocks_keeper s.disk data (s.numbers name size) size.toNat mem
  rw [Disk.content, dif_pos (by omega), slot, hmod, Disk.store,
    sectors_putInode _ _ _ (numbers_real d found b)]
  change cell ((s.disk.writeBlocks data (s.numbers name size) _ _).sectors _) i = _
  rw [sector, cell_of_lt _ (show i < 512 by omega)]
  simp only [blockSector, hi, true_and]

theorem roundTrip_iff (d : DataBlocks s.disk) (terminated : s.NamesTerminated)
    (found : s.disk.lookup name s.dir ≠ 0)
    (file : (s.inode (s.disk.lookup name s.dir)).isDirectory = 0) (fits : size.toNat ≤ 2044)
    (data buffer : Buffer) (bufSize : UInt32) :
    RoundTrip s name data size buffer bufSize ↔ Kept s name data size bufSize := by
  obtain ⟨ret, read⟩ := write_read_run d terminated found file fits data buffer bufSize
  have extent := extent_eq (v := s.disk.grown (s.inode (s.disk.lookup name s.dir)) size)
    (n := min size.toNat bufSize.toNat) (by omega)
  simp only [RoundTrip, ret, read, true_and, Prod.mk.injEq, Nat.cast_inj, Option.some.injEq]
  rw [extent]
  constructor
  · rintro ⟨real, bytes⟩ b i hi hk
    refine ⟨real b (by omega), ?_⟩
    have hb := congrFun bytes (511*b.val+i)
    rw [Disk.readInto, extent.mpr real, if_pos hk, if_pos hk] at hb
    rw [← hb]
    exact (store_content d found fits data hi (by omega)).symm
  · intro kept
    have real (b : Fin 4) (hb : 511*b.val < min size.toNat bufSize.toNat) :
        s.numbers name size b ≠ 0 := (kept b 0 (by omega) hb).1
    refine ⟨real, ?_⟩
    funext k
    rw [Disk.readInto, extent.mpr real]
    split_ifs with hk
    · have hkey : 511*(⟨k/511, by omega⟩ : Fin 4).val+k%511 = k := Nat.div_add_mod k 511
      have hlt : k%511 < 511 := by omega
      have content := store_content d found fits data (b := ⟨k/511, by omega⟩) hlt (by omega)
      have byte := content.trans (kept ⟨k/511, by omega⟩ (k%511) hlt (by omega)).2
      rw [hkey] at byte
      exact byte
    · rfl

theorem blockRange_sorted (n : UInt32) : (blockRange n).reverse.Pairwise (· > ·) := by
  rw [List.pairwise_reverse]
  exact (List.pairwise_lt_finRange 4).sublist (List.take_sublist _ _)

/-- The keeper is a later slot of the write with the same number, or the slot itself. -/
theorem keeper_spec (blocks : Fin 4 → UInt32) {n : UInt32} {b : Fin 4} (hb : b ∈ blockRange n) :
    let c := keeper blocks (blockRange n) b
    c ∈ blockRange n ∧ blocks c = blocks b ∧
      ∀ e ∈ blockRange n, blocks e = blocks b → e ≤ c := by
  intro c
  cases hf : (blockRange n).reverse.find? fun c => decide (blocks c = blocks b) with
  | none =>
    have hn := List.find?_eq_none.mp hf b (List.mem_reverse.mpr hb)
    simp at hn
  | some a =>
    have hc : c = a := by simp only [c, keeper, hf, Option.getD_some]
    rw [hc]
    refine ⟨List.mem_reverse.mp (List.mem_of_find?_eq_some hf), ?_, fun e he hblocks => ?_⟩
    · simpa using List.find?_some hf
    · rcases find?_first (blockRange_sorted n) hf (List.mem_reverse.mpr he) (by simpa using hblocks)
        with rfl | hgt
      · exact le_refl e
      · exact le_of_lt hgt

theorem kept_of_slotsApart (fits : size.toNat ≤ 2044) (bufSize : UInt32)
    (h : SlotsApart s name size bufSize) (data : Buffer) : Kept s name data size bufSize := by
  intro b i hi hk
  obtain ⟨real, apart⟩ := h b (by omega)
  refine ⟨real, ?_⟩
  have mem : b ∈ blockRange (blocksFor size) := (mem_blocksFor fits).mpr (.inr (by omega))
  obtain ⟨hc, same, last⟩ := keeper_spec (s.numbers name size) mem
  have own : keeper (s.numbers name size) (blockRange (blocksFor size)) b = b := by
    by_contra hne
    have hlt := lt_of_le_of_ne (last b mem rfl) (Ne.symm hne)
    refine apart _ hlt ?_ same
    rcases (mem_blocksFor fits).mp hc with h0 | hcov
    · rw [h0] at hlt
      exact absurd hlt (Fin.not_lt_zero b)
    · exact hcov
  simp only [own]
  rw [if_pos (by omega)]

/-- A file whose first byte in each slot tells the slot shows every clash. -/
theorem slotsApart_of_kept (fits : size.toNat ≤ 2044) (bufSize : UInt32)
    (h : ∀ data, Kept s name data size bufSize) : SlotsApart s name size bufSize := by
  intro b hb
  refine ⟨(h (fun _ => 0) b 0 (by omega) hb).1, fun c hlt hc clash => ?_⟩
  have mem : b ∈ blockRange (blocksFor size) := (mem_blocksFor fits).mpr (.inr (by omega))
  have memc : c ∈ blockRange (blocksFor size) := (mem_blocksFor fits).mpr (.inr hc)
  have last := (keeper_spec (s.numbers name size) mem).2.2 c memc clash
  have byte := (h (fun k => if k = 511*b.val then 1 else 0) b 0 (by omega) hb).2
  have hne : 511*(keeper (s.numbers name size) (blockRange (blocksFor size)) b).val ≠ 511*b.val := by
    have hv : b.val < (keeper (s.numbers name size) (blockRange (blocksFor size)) b).val :=
      lt_of_lt_of_le hlt last
    omega
  simp [hne] at byte

end Run

/-- What has been written is read back exactly when no byte read lies in a missing
block or in one that a later slot of the same write goes through; for all contents
alike, when the slots read have real blocks of their own. Slots without a block all
get the same next number, so at most one of them may be without. -/
theorem write_then_read {s : Fs} (h : Reachable anyCall s) {name : CString} {v : Inode}
    (found : s.stat name = some v) (file : v.isDirectory = 0) {size : UInt32}
    (fits : size ≤ fsMaxBlocks*511) (bufSize : UInt32) :
    (∀ data buffer, RoundTrip s name data size buffer bufSize ↔ Kept s name data size bufSize) ∧
    ((∀ data buffer, RoundTrip s name data size buffer bufSize) ↔
      SlotsApart s name size bufSize) := by
  have look : s.disk.lookup name s.dir ≠ 0 := by
    intro h0
    rw [Fs.stat, if_pos h0] at found
    contradiction
  rw [Fs.stat, if_neg look, Option.some.injEq] at found
  have hfits : size.toNat ≤ 2044 := by rwa [UInt32.le_iff_toNat_le, maxSize_toNat] at fits
  have each (data buffer : Buffer) := roundTrip_iff (reachable_dataBlocks h)
    (reachable_terminated h) look (found ▸ file) hfits data buffer bufSize
  refine ⟨each, fun all => ?_, fun apart data buffer => ?_⟩
  · exact slotsApart_of_kept hfits bufSize fun data => (each data data).mp (all data data)
  · exact (each data buffer).mpr (kept_of_slotsApart hfits bufSize apart data)

theorem write_then_read_withF :
    (∀ data buffer, RoundTrip withF nameF data 500 buffer 600 ↔ Kept withF nameF data 500 600) ∧
    ((∀ data buffer, RoundTrip withF nameF data 500 buffer 600) ↔
      SlotsApart withF nameF 500 600) :=
  write_then_read withF_reachable withF_stat rfl (by decide) 600

def secondSlotMark : Buffer := fun k => if k = 511 then 1 else 0

/-- Of the two missing blocks of a write of three, the second loses its content. -/
theorem secondSlot_lost : Reachable anyCall withF ∧
    withF.stat nameF = some (newFile 0 nameF 9) ∧ (newFile 0 nameF 9).isDirectory = 0 ∧
    (1023 : UInt32) ≤ fsMaxBlocks*511 ∧
    ¬RoundTrip withF nameF secondSlotMark 1023 (fun _ => 0) 1023 := by
  refine ⟨withF_reachable, withF_stat, rfl, by decide, ?_⟩
  have look : withF.disk.lookup nameF withF.dir ≠ 0 := by
    rw [withF_lookup]
    decide
  have file : (withF.inode (withF.disk.lookup nameF withF.dir)).isDirectory = 0 := by
    rw [withF_lookup, withF_inode]
    rfl
  rw [roundTrip_iff (reachable_dataBlocks withF_reachable) (reachable_terminated withF_reachable)
    look file (by decide)]
  intro kept
  have same : withF.numbers nameF 1023 2 = withF.numbers nameF 1023 1 := by
    rw [Fs.numbers, withF_lookup, withF_inode]
    rfl
  have last : keeper (withF.numbers nameF 1023) (blockRange (blocksFor 1023)) 1 = 2 := by
    rw [show blockRange (blocksFor 1023) = [0, 1, 2] by decide, keeper]
    simp [same]
  have byte := (kept 1 0 (by decide) (by decide)).2
  rw [last] at byte
  exact absurd byte (by decide)

end TinyOS.NanoFS
