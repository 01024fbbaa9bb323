import TinyOS.NanoFSDisk

set_option autoImplicit false

namespace TinyOS.NanoFS
open ByteWords LibcString

theorem inodeSector_toNat {id : UInt32} (h : id ∈ inodeIds) :
    (inodeSector id).toNat = 1+(id.toNat-1)/9 ∧ 1 ≤ id.toNat ∧ id.toNat ≤ 72 := by
  rw [inodeIds_mem] at h
  simp only [gt_iff_lt, UInt32.lt_iff_toNat_lt, ← UInt32.toNat_inj, fsMaxInodes,
    UInt32.reduceToNat] at h
  have hs : (id-1).toNat = id.toNat-1 := by
    rw [UInt32.toNat_sub_of_le _ _ (by rw [UInt32.le_iff_toNat_le]; simp; omega)]
    rfl
  refine ⟨?_, by omega, by omega⟩
  rw [inodeSector, UInt32.toNat_add, UInt32.toNat_div, hs]
  simp only [fsInodeTableStart, UInt32.reduceToNat]
  omega

theorem inodeSlot_val {id : UInt32} (h : id ∈ inodeIds) :
    (inodeSlot id).val = (id.toNat-1)%9 := by
  have hi := (inodeSector_toNat h).2
  have hs : (id-1).toNat = id.toNat-1 := by
    rw [UInt32.toNat_sub_of_le _ _ (by rw [UInt32.le_iff_toNat_le]; simp; omega)]
    rfl
  simp only [inodeSlot, Fin.ofNat, hs]

theorem inodeSector_range {id : UInt32} (h : id ∈ inodeIds) :
    1 ≤ (inodeSector id).toNat ∧ (inodeSector id).toNat ≤ 8 := by
  obtain ⟨hs, hl, hu⟩ := inodeSector_toNat h
  omega

theorem inode_place_inj {i j : UInt32} (hi : i ∈ inodeIds) (hj : j ∈ inodeIds)
    (hs : inodeSector i = inodeSector j) (hk : inodeSlot i = inodeSlot j) : i = j := by
  obtain ⟨si, li, _⟩ := inodeSector_toNat hi
  obtain ⟨sj, lj, _⟩ := inodeSector_toNat hj
  have ki := inodeSlot_val hi
  have kj := inodeSlot_val hj
  rw [hs] at si
  rw [hk] at ki
  apply UInt32.toNat_inj.mp
  omega

def Disk.putInode (d : Disk) (id : UInt32) (v : Inode) : Disk :=
  if id = 0 ∨ id > fsMaxInodes then d
  else d.write (inodeSector id) (putSlot (d.sectors (inodeSector id)) (inodeSlot id) v.bytes)

@[simp] theorem inodeWrite_run (id : UInt32) (v : Inode) (d : Disk) :
    (inodeWrite id v : DiskM Unit).run d = ((), d.putInode id v) := by
  unfold inodeWrite Disk.putInode
  split_ifs <;> rfl

theorem putInode_eq {d : Disk} {id : UInt32} {v : Inode} (h : id ∈ inodeIds) : d.putInode id v =
    d.write (inodeSector id) (putSlot (d.sectors (inodeSector id)) (inodeSlot id) v.bytes) :=
  if_neg (inodeIds_mem.mp h)

theorem inode_eq {d : Disk} {id : UInt32} (h : id ∈ inodeIds) : d.inode id =
    Inode.ofBytes (getSlot inode_fit (d.sectors (inodeSector id)) (inodeSlot id)) :=
  if_neg (inodeIds_mem.mp h)

theorem inode_putInode (d : Disk) {id : UInt32} (v : Inode) (h : id ∈ inodeIds) (j : UInt32) :
    (d.putInode id v).inode j = if j = id then v else d.inode j := by
  by_cases hj : j ∈ inodeIds
  · rw [putInode_eq h, inode_eq hj, inode_eq hj, write_sectors]
    by_cases hs : inodeSector j = inodeSector id
    · rw [hs, Function.update_self]
      by_cases hk : inodeSlot j = inodeSlot id
      · rw [hk, getSlot_putSlot, ofBytes_bytes, if_pos (inode_place_inj hj h hs hk)]
      · rw [getSlot_putSlot_of_ne _ _ _ _ _ (Ne.symm hk), if_neg (by rintro rfl; exact hk rfl)]
    · rw [Function.update_of_ne hs, if_neg (by rintro rfl; exact hs rfl)]
  · rw [inode_of_not_mem hj, inode_of_not_mem hj, if_neg (by rintro rfl; exact hj h)]

/-- Outside the inode table a sector write leaves every inode alone. -/
theorem inode_write (d : Disk) (lba : UInt32) (s : Sector) (h : lba = 0 ∨ fsDataStart ≤ lba)
    (j : UInt32) : (d.write lba s).inode j = d.inode j := by
  by_cases hj : j ∈ inodeIds
  · have hr := inodeSector_range hj
    have hne : inodeSector j ≠ lba := by
      rintro rfl
      simp only [← UInt32.toNat_inj, UInt32.le_iff_toNat_le, fsDataStart, UInt32.reduceToNat] at h
      omega
    rw [inode_eq hj, inode_eq hj, write_sectors, Function.update_of_ne hne]
  · rw [inode_of_not_mem hj, inode_of_not_mem hj]

theorem sectors_putInode (d : Disk) (id : UInt32) (v : Inode) {lba : UInt32}
    (h : lba = 0 ∨ fsDataStart ≤ lba) : (d.putInode id v).sectors lba = d.sectors lba := by
  by_cases hid : id ∈ inodeIds
  · have hr := inodeSector_range hid
    have hne : lba ≠ inodeSector id := by
      rintro rfl
      simp only [← UInt32.toNat_inj, UInt32.le_iff_toNat_le, fsDataStart, UInt32.reduceToNat] at h
      omega
    rw [putInode_eq hid, write_sectors, Function.update_of_ne hne]
  · rw [Disk.putInode, if_pos (not_not.mp (inodeIds_mem.not.mp hid))]

theorem putInode_outside {d : Disk} {id lba : UInt32} {v : Inode} (h : id ∈ inodeIds)
    (i : Fin 512) (changed : (d.putInode id v).sectors lba i ≠ d.sectors lba i) :
    lba = inodeSector id ∧ (inodeSlot id).val*54 ≤ i.val ∧ i.val < (inodeSlot id).val*54+54 := by
  rw [putInode_eq h, write_sectors] at changed
  by_cases there : lba = inodeSector id
  · refine ⟨there, ?_⟩
    rw [there, Function.update_self] at changed
    by_contra outside
    exact changed (putSlot_outside _ _ _ _ (by omega))
  · rw [Function.update_of_ne there] at changed
    exact absurd rfl changed

/-- `inode_read` and `inode_write` are get and put of a table packed into the sectors 1..8. -/
theorem inode_table (d : Disk) (id : UInt32) (v : Inode) :
    (0 < id.toNat ∧ id.toNat ≤ 72 →
      (∀ id₂, ((inodeRead id₂ : DiskM Inode).run ((inodeWrite id v : DiskM Unit).run d).2).1 =
        if id₂ = id then v else ((inodeRead id₂ : DiskM Inode).run d).1) ∧
      (∀ lba (i : Fin 512),
        ((inodeWrite id v : DiskM Unit).run d).2.sectors lba i ≠ d.sectors lba i →
          lba.toNat = 1+(id.toNat-1)/9 ∧
            (id.toNat-1)%9*54 ≤ i.val ∧ i.val < (id.toNat-1)%9*54+54) ∧
      ∃ lba : UInt32, 1 ≤ lba.toNat ∧ lba.toNat ≤ 8 ∧
        ((inodeWrite id v : DiskM Unit).run d).2.written = lba :: d.written) ∧
    (id.toNat = 0 ∨ 72 < id.toNat → ((inodeWrite id v : DiskM Unit).run d).2 = d) := by
  have mem : id ∈ inodeIds ↔ 0 < id.toNat ∧ id.toNat ≤ 72 := by
    rw [inodeIds_mem, ← UInt32.toNat_inj, gt_iff_lt, UInt32.lt_iff_toNat_lt]
    simp only [fsMaxInodes, UInt32.reduceToNat]
    omega
  rw [inodeWrite_run]
  constructor
  · intro range
    have range := mem.mpr range
    refine ⟨fun id₂ => ?_, fun lba i changed => ?_, inodeSector id, ?_⟩
    · rw [inodeRead_run, inodeRead_run]
      exact inode_putInode d v range id₂
    · obtain ⟨sector, slot⟩ := putInode_outside range i changed
      rw [inodeSlot_val range] at slot
      rw [sector]
      exact ⟨(inodeSector_toNat range).1, slot⟩
    · obtain ⟨low, high⟩ := inodeSector_range range
      exact ⟨low, high, by rw [putInode_eq range, write_written]⟩
  · intro outside
    exact if_pos (not_not.mp (inodeIds_mem.not.mp (by rw [mem]; omega)))

/-- The blocks of a write: the missing ones among `bs` all get the same number. -/
def Disk.fill (d : Disk) (node : Inode) (bs : List (Fin 4)) : Fin 4 → UInt32 := fun b =>
  if b ∈ bs ∧ node.blocks b = 0 then d.highest+1 else node.blocks b

@[simp] theorem allocBlocks_run (bs : List (Fin 4)) (node : Inode) (d : Disk) :
    (allocBlocks bs node : DiskM Inode).run d = ({ node with blocks := d.fill node bs }, d) := by
  induction bs generalizing node with
  | nil =>
    have hf : d.fill node [] = node.blocks := by funext b; simp [Disk.fill]
    rw [allocBlocks, pure_run, hf]
  | cons b bs ih =>
    unfold allocBlocks
    split_ifs with hb
    · rw [bind_run, blockAlloc_run, ih]
      congr 2
      funext c
      by_cases hc : c = b
      · subst hc; simp [Disk.fill, hb]
      · simp [Disk.fill, hc]
    · rw [ih]
      congr 2
      funext c
      by_cases hc : c = b
      · subst hc; simp [Disk.fill, hb]
      · simp [Disk.fill, hc]

/-- Bytes `511*b ..` of the data, cut at `size` and padded with zeros. -/
def blockSector (data : Buffer) (size : ℕ) (b : Fin 4) : Sector := fun j =>
  if j.val < 511 ∧ 511*b.val+j.val < size then data (511*b.val+j.val) else 0

def Disk.writeBlocks (d : Disk) (data : Buffer) (blocks : Fin 4 → UInt32) (size : ℕ)
    (bs : List (Fin 4)) : Disk :=
  bs.foldl (fun d b => d.write (blocks b) (blockSector data size b)) d

theorem chunkOf_toNat (r : UInt32) : (chunkOf r).toNat = min r.toNat 511 := by
  unfold chunkOf
  simp only [gt_iff_lt, UInt32.lt_iff_toNat_lt, UInt32.reduceToNat]
  split_ifs <;> simp <;> omega

theorem chunkSector_eq (data : Buffer) {size written : UInt32} {b : Fin 4}
    (hw : written.toNat = 511*b.val) (hs : 511*b.val ≤ size.toNat) :
    chunkSector data written (chunkOf (size-written)) = blockSector data size.toNat b := by
  have hsub : (size-written).toNat = size.toNat-511*b.val := by
    rw [UInt32.toNat_sub_of_le _ _ (by rw [UInt32.le_iff_toNat_le]; omega), hw]
  funext j
  simp only [chunkSector, blockSector, chunkOf_toNat, hsub, hw]
  congr 1
  simp only [eq_iff_iff]
  omega

def Consecutive (j : ℕ) : List (Fin 4) → Prop
  | [] => True
  | b :: bs => b.val = j ∧ Consecutive (j+1) bs

theorem finRange_four : List.finRange 4 = [0, 1, 2, 3] := rfl

theorem consecutive_blockRange (n : UInt32) : Consecutive 0 (blockRange n) := by
  rw [blockRange, finRange_four]
  rcases n.toNat with _ | _ | _ | _ | _ <;> simp [Consecutive]

theorem mem_blockRange {n : UInt32} {b : Fin 4} : b ∈ blockRange n ↔ b.val < n.toNat := by
  rw [blockRange, List.mem_take_iff_getElem]
  simp only [List.length_finRange, List.getElem_finRange, Fin.cast_mk]
  constructor
  · rintro ⟨i, hi, rfl⟩
    exact (lt_min_iff.mp hi).1
  · intro h
    exact ⟨b.val, lt_min h b.isLt, rfl⟩

theorem blocksFor_toNat {size : UInt32} (h : size.toNat ≤ 2044) :
    (blocksFor size).toNat = max 1 ((size.toNat+510)/511) := by
  have ha : (size+510).toNat = size.toNat+510 := by
    rw [UInt32.toNat_add]
    simp only [UInt32.reduceToNat]
    omega
  have hd : ((size+510)/511).toNat = (size.toNat+510)/511 := by
    rw [UInt32.toNat_div, ha]
    rfl
  unfold blocksFor
  simp only [UInt32.lt_iff_toNat_lt, hd, UInt32.reduceToNat]
  split_ifs with h1
  · simp only [UInt32.reduceToNat]; omega
  · rw [hd]; omega

/-- The blocks a write of `size` bytes covers, block 0 always among them. -/
theorem mem_blocksFor {size : UInt32} (h : size.toNat ≤ 2044) {b : Fin 4} :
    b ∈ blockRange (blocksFor size) ↔ b = 0 ∨ 511*b.val < size.toNat := by
  rw [mem_blockRange, blocksFor_toNat h, ← Fin.val_inj]
  simp only [Fin.val_zero]
  omega

end TinyOS.NanoFS
