import TinyOS.NanoFS

set_option autoImplicit false

namespace TinyOS.NanoFS
open ByteWords LibcString

/-- A disk, with the sectors written so far, the last one first. -/
structure Disk where
  sectors : UInt32 → Sector
  written : List UInt32

def Disk.write (d : Disk) (lba : UInt32) (s : Sector) : Disk :=
  ⟨Function.update d.sectors lba s, lba :: d.written⟩

@[simp] theorem write_sectors (d : Disk) (lba : UInt32) (s : Sector) :
    (d.write lba s).sectors = Function.update d.sectors lba s := rfl

@[simp] theorem write_written (d : Disk) (lba : UInt32) (s : Sector) :
    (d.write lba s).written = lba :: d.written := rfl

abbrev DiskM := StateM Disk

instance : Ata DiskM where
  ataReadSector lba := fun d => ((0, d.sectors lba), d)
  ataWriteSector lba s := fun d => (0, d.write lba s)

theorem bind_run {α β : Type} (x : DiskM α) (f : α → DiskM β) (d : Disk) :
    (x >>= f).run d = (f (x.run d).1).run (x.run d).2 := rfl

theorem pure_run {α : Type} (a : α) (d : Disk) : (pure a : DiskM α).run d = (a, d) := rfl

@[simp] theorem ataReadSector_run (lba : UInt32) (d : Disk) :
    (ataReadSector lba : DiskM (ℤ × Sector)).run d = ((0, d.sectors lba), d) := rfl

@[simp] theorem ataWriteSector_run (lba : UInt32) (s : Sector) (d : Disk) :
    (ataWriteSector lba s : DiskM ℤ).run d = (0, d.write lba s) := rfl

def Disk.inode (d : Disk) (id : UInt32) : Inode :=
  if id = 0 ∨ id > fsMaxInodes then Inode.zero
  else Inode.ofBytes (getSlot inode_fit (d.sectors (inodeSector id)) (inodeSlot id))

@[simp] theorem inodeRead_run (id : UInt32) (d : Disk) :
    (inodeRead id : DiskM Inode).run d = (d.inode id, d) := by
  unfold inodeRead Disk.inode
  split_ifs <;> rfl

theorem inodeIds_mem {id : UInt32} : id ∈ inodeIds ↔ ¬(id = 0 ∨ id > fsMaxInodes) := by
  simp only [inodeIds, List.mem_map, List.mem_range, gt_iff_lt, UInt32.lt_iff_toNat_lt,
    ← UInt32.toNat_inj, fsMaxInodes, UInt32.reduceToNat]
  constructor
  · rintro ⟨i, hi, he⟩
    rw [UInt32.toNat_ofNat_of_lt' (show i+1 < 4294967296 by omega)] at he
    omega
  · intro h
    refine ⟨id.toNat-1, by omega, ?_⟩
    rw [UInt32.toNat_ofNat_of_lt' (show id.toNat-1+1 < 4294967296 by omega)]
    omega

theorem inodeIds_ne_zero {id : UInt32} (h : id ∈ inodeIds) : id ≠ 0 :=
  fun h0 => inodeIds_mem.mp h (.inl h0)

theorem inode_of_not_mem {d : Disk} {id : UInt32} (h : id ∉ inodeIds) : d.inode id = Inode.zero := by
  rw [inodeIds_mem, not_not] at h
  simp only [Disk.inode, h, ↓reduceIte]

theorem live_mem {d : Disk} {id : UInt32} (h : (d.inode id).live) : id ∈ inodeIds := by
  by_contra hn
  rw [inode_of_not_mem hn] at h
  exact h rfl

def Inode.Matches (v : Inode) (name : CString) (dir : UInt32) : Prop :=
  v.live ∧ v.parent = dir ∧ v.nameStr = name.chars

instance (v : Inode) (name : CString) (dir : UInt32) : Decidable (v.Matches name dir) :=
  inferInstanceAs (Decidable (_ ∧ _))

/-- The first entry of `dir` called `name`, 0 when there is none. -/
def Disk.lookup (d : Disk) (name : CString) (dir : UInt32) : UInt32 :=
  (inodeIds.find? fun id => decide ((d.inode id).Matches name dir)).getD 0

theorem nameStr_cstr (v : Inode) : cstr v.nameStr = v.nameStr := cstr_of_noNul (cstr_noNul _)

theorem matches_iff (v : Inode) (name : CString) (dir : UInt32) :
    v.Matches name dir ↔ v.name 0 ≠ 0 ∧ v.parent = dir ∧ strcmp v.nameStr name.chars = 0 := by
  rw [strcmp_eq_zero, nameStr_cstr, cstr_chars]
  rfl

theorem lookupFrom_run (name : CString) (dir : UInt32) (ids : List UInt32) (d : Disk) :
    (lookupFrom name dir ids : DiskM UInt32).run d =
      ((ids.find? fun id => decide ((d.inode id).Matches name dir)).getD 0, d) := by
  induction ids with
  | nil => rfl
  | cons id ids ih =>
    have hm := matches_iff (d.inode id) name dir
    simp only [lookupFrom, bind_run, inodeRead_run, List.find?_cons]
    by_cases h1 : (d.inode id).name 0 = 0
    · simpa [hm, h1] using ih
    by_cases h2 : (d.inode id).parent = dir
    · by_cases h3 : strcmp (d.inode id).nameStr name.chars = 0
      · simp only [hm, h1, h2, h3, ↓reduceIte, ne_eq, not_true_eq_false, not_false_eq_true,
          and_self, decide_true, Option.getD_some, pure_run]
      · simpa [hm, h1, h2, h3] using ih
    · simpa [hm, h1, h2] using ih

@[simp] theorem lookup_run (name : CString) (dir : UInt32) (d : Disk) :
    (lookup name dir : DiskM UInt32).run d = (d.lookup name dir, d) :=
  lookupFrom_run name dir inodeIds d

def Disk.freeInode (d : Disk) : UInt32 :=
  (inodeIds.find? fun id => decide ((d.inode id).name 0 = 0)).getD 0

theorem inodeAllocFrom_run (ids : List UInt32) (d : Disk) :
    (inodeAllocFrom ids : DiskM UInt32).run d =
      ((ids.find? fun id => decide ((d.inode id).name 0 = 0)).getD 0, d) := by
  induction ids with
  | nil => rfl
  | cons id ids ih =>
    simp only [inodeAllocFrom, bind_run, inodeRead_run, List.find?_cons]
    by_cases h : (d.inode id).name 0 = 0
    · simp only [h, ↓reduceIte, decide_true, Option.getD_some, pure_run]
    · simpa [h] using ih

@[simp] theorem inodeAlloc_run (d : Disk) :
    (inodeAlloc : DiskM UInt32).run d = (d.freeInode, d) := inodeAllocFrom_run inodeIds d

/-- The largest block number of a live inode, 8 when there is none above. -/
def Disk.highest (d : Disk) : UInt32 :=
  inodeIds.foldl (fun h id => if (d.inode id).live then raise h (d.inode id) else h) (fsDataStart-1)

theorem blockAllocFrom_run (h : UInt32) (ids : List UInt32) (d : Disk) :
    (blockAllocFrom h ids : DiskM UInt32).run d =
      (ids.foldl (fun h id => if (d.inode id).live then raise h (d.inode id) else h) h+1, d) := by
  induction ids generalizing h with
  | nil => rfl
  | cons id ids ih =>
    simp only [blockAllocFrom, bind_run, inodeRead_run, List.foldl_cons, Inode.live]
    by_cases hl : (d.inode id).name 0 = 0
    · simp only [hl, ↓reduceIte, ne_eq, not_true_eq_false]
      exact ih h
    · simp only [hl, ↓reduceIte, ne_eq, not_false_eq_true]
      exact ih _

@[simp] theorem blockAlloc_run (d : Disk) :
    (blockAlloc : DiskM UInt32).run d = (d.highest+1, d) :=
  blockAllocFrom_run (fsDataStart-1) inodeIds d

theorem larger_le (a h x : UInt32) : (if a > h then a else h) ≤ x ↔ h ≤ x ∧ a ≤ x := by
  simp only [gt_iff_lt, UInt32.lt_iff_toNat_lt, UInt32.le_iff_toNat_le]
  split_ifs <;> omega

theorem raise_le (h x : UInt32) (v : Inode) : raise h v ≤ x ↔ h ≤ x ∧ ∀ b, v.blocks b ≤ x := by
  have fold (bs : List (Fin 4)) (h : UInt32) :
      bs.foldl (fun h b => if v.blocks b > h then v.blocks b else h) h ≤ x ↔
        h ≤ x ∧ ∀ b ∈ bs, v.blocks b ≤ x := by
    induction bs generalizing h with
    | nil => simp
    | cons b bs ih => rw [List.foldl_cons, ih, List.forall_mem_cons, larger_le, and_assoc]
  rw [raise, fold]
  simp

/-- The bounds of the highest block are the bounds of 8 and of every live block. -/
theorem highest_le (d : Disk) (x : UInt32) :
    d.highest ≤ x ↔ 8 ≤ x ∧ ∀ id, (d.inode id).live → ∀ b, (d.inode id).blocks b ≤ x := by
  have fold (ids : List UInt32) (h : UInt32) :
      ids.foldl (fun h id => if (d.inode id).live then raise h (d.inode id) else h) h ≤ x ↔
        h ≤ x ∧ ∀ id ∈ ids, (d.inode id).live → ∀ b, (d.inode id).blocks b ≤ x := by
    induction ids generalizing h with
    | nil => simp
    | cons id ids ih =>
      simp only [List.foldl_cons, ih, List.forall_mem_cons]
      split_ifs with hl
      · simp only [raise_le, hl, true_imp_iff, and_assoc]
      · simp only [hl, false_imp_iff, true_and]
  rw [Disk.highest, fold, show fsDataStart-1 = 8 from rfl]
  exact and_congr_right fun _ => ⟨fun h id hl => h id (live_mem hl) hl, fun h id _ => h id⟩

theorem block_le_highest {d : Disk} {id : UInt32} (hl : (d.inode id).live) (b : Fin 4) :
    (d.inode id).blocks b ≤ d.highest := ((highest_le d _).mp (UInt32.le_refl _)).2 id hl b

theorem eight_le_highest (d : Disk) : 8 ≤ d.highest := ((highest_le d _).mp (UInt32.le_refl _)).1

end TinyOS.NanoFS
