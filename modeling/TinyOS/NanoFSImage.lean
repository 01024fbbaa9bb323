import TinyOS.NanoFSAppend

set_option autoImplicit false

/-! tools/nanofs_img.c, which writes a disk image with one program on it, and the file system of
the kernel on that image. -/
namespace TinyOS.NanoFS
open ByteWords LibcString StateRuns

def helloName : CString := ⟨[104, 101, 108, 108, 111, 46, 114, 105, 114, 117], by decide⟩

def newImage : Disk := ⟨fun _ => emptySector, []⟩

def writeSector (sector : UInt32) (data : Sector) : DiskM Unit :=
  modify fun d => d.write sector data

/-- `TOTAL_SECTORS` is a parameter: the product in its definition overflows an `int`. -/
def createEmptyDisk (totalSectors : UInt32) : DiskM Unit :=
  (List.range totalSectors.toNat).forM fun sector => writeSector (UInt32.ofNat sector) emptySector

def imageSuperblock (totalSectors : UInt32) : Superblock where
  magic i := fsMagic.getD i 0
  version := fsVersion
  totalSectors := totalSectors
  inodeCount := 1

def createSuperblock (totalSectors : UInt32) : DiskM Unit :=
  writeSector 0 (imageSuperblock totalSectors).sector

def helloInode (riruSize : ℕ) : Inode :=
  { Inode.zero with
    name := fun i => (strncpy helloName.chars 27).getD i 0
    blocks := Function.update (fun _ => 0) 0 fsDataStart
    size := UInt32.ofNat riruSize }

def createInodeTable (riruSize : ℕ) : DiskM Unit :=
  writeSector fsInodeTableStart (putSlot emptySector (inodeSlot 1) (helloInode riruSize).bytes)

/-- A zeroed sector buffer with `chunk` bytes of the file from `offset` on. -/
def fileChunk (riru : List UInt8) (offset chunk : ℕ) : Sector := fun j =>
  if j.val < chunk then riru.getD (offset+j.val) 0 else 0

/-- The loop of `write_riru`. -/
def writeRiruFrom (riru : List UInt8) : List ℕ → ℕ → DiskM Unit
  | [], _ => pure ()
  | block :: rest, offset =>
    if offset < riru.length then do
      let chunk := if riru.length-offset > 511 then 511 else riru.length-offset
      writeSector (fsDataStart+UInt32.ofNat block) (fileChunk riru offset chunk)
      writeRiruFrom riru rest (offset+chunk)
    else pure ()

def writeRiru (riru : List UInt8) : DiskM ℕ :=
  if riru.length = 0 then pure 1
  else if riru.length > 4*511 then pure 1
  else do
    writeRiruFrom riru (List.range 4) 0
    pure 0

def nanofsImg (totalSectors : UInt32) (riru : List UInt8) : DiskM ℕ := do
  createEmptyDisk totalSectors
  createSuperblock totalSectors
  createInodeTable riru.length
  writeRiru riru

/-- `fs_create`, and `fs_write` to another name than "hello.riru". -/
def otherCall (_ : Fs) : FsOp → Prop
  | .create _ => True
  | .write name _ => name ≠ some helloName
  | _ => False

/-- The image is written and can be mounted, and whatever other files are created and written
after that, `fs_read` gives the bytes of the program. -/
def Served (totalSectors : UInt32) (st : Statics) (riru : List UInt8) : Prop :=
  ((nanofsImg totalSectors riru).run newImage).1 = 0 ∧
    let mounted := exec .mount ⟨((nanofsImg totalSectors riru).run newImage).2, st⟩
    mounted.1 = 1 ∧ ∀ t, Reach (fun s => s = mounted.2) (fun op s t => t = (exec op s).2) otherCall t →
      t.ReadsAs helloName riru

variable {d : Disk} {s t : Fs} {op : FsOp} {riru : List UInt8} {totalSectors : UInt32}

theorem writeSector_run (sector : UInt32) (data : Sector) (d : Disk) :
    (writeSector sector data).run d = ((), d.write sector data) := rfl

theorem createEmptyDisk_run (totalSectors : UInt32) {d : Disk}
    (empty : d.sectors = fun _ => emptySector) :
    ((createEmptyDisk totalSectors).run d).2.sectors = fun _ => emptySector := by
  rw [createEmptyDisk]
  induction List.range totalSectors.toNat generalizing d with
  | nil => exact empty
  | cons sector rest ih =>
    refine ih (d := d.write (UInt32.ofNat sector) emptySector) ?_
    rw [write_sectors, empty]
    exact Function.update_eq_self _ _

theorem writeRiruFrom_sectors (riru : List UInt8) (blocks : List ℕ) (offset : ℕ) (d : Disk)
    {lba : UInt32} (ne : ∀ block ∈ blocks, lba ≠ fsDataStart+UInt32.ofNat block) :
    ((writeRiruFrom riru blocks offset).run d).2.sectors lba = d.sectors lba := by
  induction blocks generalizing offset d with
  | nil => rfl
  | cons block rest ih =>
    rw [writeRiruFrom]
    by_cases more : offset < riru.length
    · rw [if_pos more]
      dsimp only
      rw [bind_run, writeSector_run, ih _ _ fun b mem => ne b (List.mem_cons_of_mem block mem),
        write_sectors, Function.update_of_ne (ne block List.mem_cons_self)]
    · rw [if_neg more]
      rfl

structure Image (totalSectors : UInt32) (riru : List UInt8) (d : Disk) : Prop where
  superblock : d.sectors 0 = (imageSuperblock totalSectors).sector
  hello : d.inode 1 = helloInode riru.length
  others : ∀ id, id ≠ 1 → d.inode id = Inode.zero
  chunk : d.sectors fsDataStart = fileChunk riru 0 (min riru.length 511)

theorem tableSector_inode {v : Inode} (table : d.sectors fsInodeTableStart =
      putSlot emptySector (inodeSlot 1) v.bytes)
    (empty : ∀ lba, fsInodeTableStart < lba → lba < fsDataStart → d.sectors lba = emptySector)
    (id : UInt32) : d.inode id = if id = 1 then v else Inode.zero := by
  have first : (1 : UInt32) ∈ inodeIds := by decide
  by_cases mem : id ∈ inodeIds
  · rw [inode_eq mem]
    obtain ⟨low, high⟩ := inodeSector_range mem
    by_cases here : inodeSector id = fsInodeTableStart
    · rw [here, table]
      by_cases eq : id = 1
      · rw [if_pos eq, eq, getSlot_putSlot, ofBytes_bytes]
      · have slot : inodeSlot 1 ≠ inodeSlot id := fun same =>
          eq (inode_place_inj mem first here same.symm)
        rw [if_neg eq, getSlot_putSlot_of_ne _ _ _ _ _ slot, getSlot_empty]
    · have ne : (inodeSector id).toNat ≠ 1 := fun eq => here (UInt32.toNat_inj.mp eq)
      rw [empty (inodeSector id) (UInt32.lt_iff_toNat_lt.mpr (show 1 < _ by omega))
        (UInt32.lt_iff_toNat_lt.mpr (show _ < 9 by omega)), getSlot_empty,
        if_neg fun eq => here (by rw [eq]; rfl)]
  · rw [inode_of_not_mem mem, if_neg fun eq => mem (by rw [eq]; exact first)]

/-- The sectors of the image outside the last three data blocks. -/
theorem nanofsImg_sectors (totalSectors : UInt32) {riru : List UInt8} (some : riru ≠ [])
    (fits : riru.length ≤ 2044) : ((nanofsImg totalSectors riru).run newImage).1 = 0 ∧
      ∀ lba ≤ fsDataStart, ((nanofsImg totalSectors riru).run newImage).2.sectors lba =
        if lba = fsDataStart then fileChunk riru 0 (min riru.length 511)
        else if lba = fsInodeTableStart then
          putSlot emptySector (inodeSlot 1) (helloInode riru.length).bytes
        else if lba = 0 then (imageSuperblock totalSectors).sector else emptySector := by
  have pos : 0 < riru.length := List.length_pos_iff.mpr some
  have empty := createEmptyDisk_run totalSectors (d := newImage) rfl
  have chunk : (if riru.length-0 > 511 then 511 else riru.length-0) = min riru.length 511 := by
    split_ifs <;> omega
  have loop (d : Disk) : (writeRiruFrom riru (List.range 4) 0).run d =
      (writeRiruFrom riru [1, 2, 3] (0+min riru.length 511)).run
        (d.write fsDataStart (fileChunk riru 0 (min riru.length 511))) := by
    change (writeRiruFrom riru [0, 1, 2, 3] 0).run d = _
    rw [writeRiruFrom, if_pos pos]
    dsimp only
    rw [chunk, bind_run, writeSector_run]
    rfl
  have run : (nanofsImg totalSectors riru).run newImage =
      (0, ((writeRiruFrom riru (List.range 4) 0).run
        ((((createEmptyDisk totalSectors).run newImage).2.write 0
          (imageSuperblock totalSectors).sector).write fsInodeTableStart
          (putSlot emptySector (inodeSlot 1) (helloInode riru.length).bytes))).2) := by
    rw [nanofsImg, bind_run, bind_run, bind_run, writeRiru, if_neg (by omega), if_neg (by omega)]
    rfl
  rw [run]
  refine ⟨rfl, fun lba le => ?_⟩
  dsimp only
  rw [loop, writeRiruFrom_sectors]
  · rw [write_sectors, write_sectors, write_sectors, empty]
    simp only [Function.update_apply]
  · rintro block mem rfl
    simp only [List.mem_cons, List.not_mem_nil, or_false] at mem
    rcases mem with rfl | rfl | rfl <;> exact absurd le (by decide)

theorem nanofsImg_image (totalSectors : UInt32) {riru : List UInt8} (some : riru ≠ [])
    (fits : riru.length ≤ 2044) :
    Image totalSectors riru ((nanofsImg totalSectors riru).run newImage).2 := by
  have sectors := (nanofsImg_sectors totalSectors some fits).2
  have table := tableSector_inode (sectors fsInodeTableStart (by decide)) fun lba low high => by
    rw [sectors lba (UInt32.le_of_lt high), if_neg, if_neg, if_neg]
    · rintro rfl
      exact absurd low (by decide)
    · rintro rfl
      exact absurd low (by decide)
    · rintro rfl
      exact absurd high (by decide)
  refine ⟨sectors 0 (by decide), ?_, fun id ne => ?_, sectors fsDataStart (by decide)⟩
  · rw [table, if_pos rfl]
  · rw [table, if_neg ne]

theorem imageSuperblock_magic (totalSectors : UInt32) :
    cstr (List.ofFn (imageSuperblock totalSectors).sector) = fsMagic := by
  have front : (List.ofFn (imageSuperblock totalSectors).sector).take 8 = fsMagic++[0] := by
    apply List.ext_getElem
    · rw [List.length_take, List.length_ofFn]
      rfl
    · intro i lt lt'
      have small : i < 8 := lt'
      rw [List.getElem_take, List.getElem_ofFn]
      interval_cases i <;> rfl
  have split := List.take_append_drop 8 (List.ofFn (imageSuperblock totalSectors).sector)
  rw [front] at split
  rw [← split, cstr_append_of_mem (by decide)]
  rfl

theorem imageSuperblock_version (totalSectors : UInt32) :
    (Superblock.ofSector (imageSuperblock totalSectors).sector).version = fsVersion := by
  refine wordAt_wordByte _ _ _ fun i lt => ?_
  rw [cell_of_lt _ (show 8+i < 512 by omega)]
  interval_cases i <;> rfl

theorem Image.mounts (image : Image totalSectors riru d) (st : Statics) :
    ∃ total, exec .mount ⟨d, st⟩ = (1, ⟨d, ⟨0, total⟩⟩) := by
  have magic : ¬strcmp (List.ofFn (imageSuperblock totalSectors).sector) fsMagic ≠ 0 := by
    rw [not_not, strcmp_eq_zero, imageSuperblock_magic]
    rfl
  have run : (fsMount st : DiskM (ℤ × Statics)).run d =
      ((1, ⟨0, (Superblock.ofSector (d.sectors 0)).totalSectors⟩), d) := by
    rw [fsMount, bind_run, ataReadSector_run]
    dsimp only
    rw [if_neg (not_not.mpr rfl), image.superblock, if_neg magic,
      if_neg (not_not.mpr (imageSuperblock_version totalSectors))]
    rfl
  refine ⟨(Superblock.ofSector (d.sectors 0)).totalSectors, ?_⟩
  rw [exec, run]

theorem helloInode_matches (n : ℕ) : (helloInode n).Matches helloName 0 := by
  have name : (helloInode n).name = (Inode.zero.setName helloName).name := by
    have all : ∀ i : Fin 28, (strncpy helloName.chars 27).getD i 0 =
        (Inode.zero.setName helloName).name i := by decide
    exact funext all
  refine ⟨?_, rfl, ?_⟩
  · rw [Inode.live, name]
    decide
  · rw [nameStr_congr name (setName_terminated _ _), setName_nameStr]
    rfl

structure Holds (riru : List UInt8) (s : Fs) : Prop where
  root : s.dir = 0
  blocks : DataBlocks s.disk
  hello : s.inode 1 = helloInode riru.length
  chunk : s.disk.sectors fsDataStart = fileChunk riru 0 (min riru.length 511)
  apart : ∀ id, id ≠ 1 → (s.inode id).live → ∀ b, (s.inode id).blocks b ≠ fsDataStart

theorem Holds.lookup (h : Holds riru s) : s.disk.lookup helloName s.dir = 1 := by
  have same : s.disk.inode 1 = helloInode riru.length := h.hello
  refine lookup_first ?_ fun j before found => ?_
  · rw [same, h.root]
    exact helloInode_matches _
  · -- there is no inode 0
    have one := UInt32.lt_iff_toNat_lt.mp before
    refine inodeIds_ne_zero (live_mem found.1) (UInt32.toNat_inj.mp ?_)
    simp only [UInt32.reduceToNat] at one ⊢
    omega

theorem helloInode_size {n : ℕ} (fits : n ≤ 2044) : (helloInode n).size.toNat = n :=
  UInt32.toNat_ofNat_of_lt' (by change n < 4294967296; omega)

theorem helloInode_extent {n : ℕ} (fits : n ≤ 2044) :
    (helloInode n).extent (helloInode n).size.toNat = min n 511 := by
  rw [Inode.extent, helloInode_size fits]
  rfl

theorem Holds.reads (h : Holds riru s) (small : riru.length ≤ 511) : s.ReadsAs helloName riru := by
  have found : s.disk.lookup helloName s.dir ≠ 0 := by
    rw [h.lookup]
    decide
  have file : (s.inode (s.disk.lookup helloName s.dir)).isDirectory = 0 := by
    rw [h.lookup, h.hello]
    rfl
  have bytes : s.disk.fileBytes (s.inode (s.disk.lookup helloName s.dir)) = riru := by
    rw [h.lookup, h.hello, Disk.fileBytes, helloInode_extent (by omega), Nat.min_eq_left small]
    refine List.ext_getElem (by rw [List.length_map, List.length_range]) fun k lt lt' => ?_
    have div : k/511 = 0 := Nat.div_eq_of_lt (by omega)
    have slot : (⟨k/511, by omega⟩ : Fin 4) = 0 := Fin.ext div
    rw [List.getElem_map, List.getElem_range, Disk.content, dif_pos (by omega), slot,
      show (helloInode riru.length).blocks 0 = fsDataStart from rfl, h.chunk,
      Nat.mod_eq_of_lt (by omega), cell_of_lt _ (show k < 512 by omega), fileChunk,
      if_pos (show k < min riru.length 511 by omega), zero_add,
      List.getD_eq_getElem _ _ lt']
  exact bytes ▸ readsAs_fileBytes found file

theorem Holds.cut (h : Holds riru s) (fits : riru.length ≤ 2044)
    (reads : s.ReadsAs helloName riru) : riru.length ≤ 511 := by
  have length := congrArg List.length (readsAs_eq reads)
  rw [fileBytes_length, h.lookup, h.hello, helloInode_extent fits] at length
  omega

theorem Image.holds (image : Image totalSectors riru d) (total : UInt32) :
    Holds riru ⟨d, ⟨0, total⟩⟩ := by
  have dead (id : UInt32) (ne : id ≠ 1) : ¬(d.inode id).live := by
    rw [image.others id ne]
    exact zero_not_live
  refine ⟨rfl, fun id live b => ?_, image.hello, image.chunk, fun id ne live => ?_⟩
  · by_cases first : id = 1
    · rw [first, image.hello]
      have all : ∀ b, Function.update (fun _ : Fin 4 => (0 : UInt32)) 0 fsDataStart b = 0 ∨
          fsDataStart ≤ Function.update (fun _ : Fin 4 => (0 : UInt32)) 0 fsDataStart b := by decide
      exact all b
    · exact absurd live (dead id first)
  · exact absurd live (dead id ne)

theorem Holds.live (h : Holds riru s) : (s.inode 1).live := by
  rw [h.hello]
  exact (helloInode_matches _).1

theorem Holds.next (h : Holds riru s) : s.disk.highest+1 ≠ fsDataStart := by
  have le := block_le_highest h.live 0
  rw [show (s.disk.inode 1).blocks 0 = fsDataStart by
    rw [show s.disk.inode 1 = helloInode riru.length from h.hello]; rfl] at le
  intro eq
  have sum := congrArg UInt32.toNat eq
  rw [UInt32.toNat_add] at sum
  rw [UInt32.le_iff_toNat_le] at le
  have lt := s.disk.highest.toNat_lt
  change 9 ≤ s.disk.highest.toNat at le
  change (s.disk.highest.toNat+1)%4294967296 = 9 at sum
  omega

theorem Holds.grown (h : Holds riru s) {id : UInt32} (ne : id ≠ 1) (live : (s.inode id).live)
    (size : UInt32) (b : Fin 4) : (s.disk.grown (s.inode id) size).blocks b ≠ fsDataStart := by
  simp only [Disk.grown, Disk.fill]
  split_ifs
  · exact h.next
  · exact h.apart id ne live b

theorem Holds.target (h : Holds riru s) (ok : otherCall s op) : s.target op ≠ 1 := by
  cases op with
  | create name =>
    intro free
    have spec := freeInode_spec (d := s.disk) (by rw [show s.disk.freeInode = 1 from free]; decide)
    rw [show s.disk.freeInode = 1 from free] at spec
    exact spec.2 h.live
  | write name data =>
    cases name with
    | none => exact show (0 : UInt32) ≠ 1 by decide
    | some name =>
      intro found
      have found' : s.disk.lookup name s.dir = 1 := found
      have hit := lookup_matches (show s.disk.lookup name s.dir ≠ 0 by rw [found']; decide)
      rw [found'] at hit
      have same : (helloInode riru.length).nameStr = name.chars := by
        rw [← show s.disk.inode 1 = helloInode riru.length from h.hello]
        exact hit.2.2
      rw [(helloInode_matches _).2.2, chars_inj] at same
      exact ok (by rw [same])
  | _ => exact ok.elim

theorem effect_apart (h : Holds riru s) (e : Effect s op t) :
    ∀ id, id ≠ 1 → (t.inode id).live → ∀ b, (t.inode id).blocks b ≠ fsDataStart := by
  intro j ne live b
  cases e with
  | quiet table _ | home table _ | up table _ _ | enter table _ _ =>
    rw [table] at live ⊢
    exact h.apart j ne live b
  | format table _ =>
    rw [table] at live
    exact absurd live zero_not_live
  | @newFile name _ _ _ _ _ table _ =>
    rw [table] at live ⊢
    split_ifs at live ⊢ with new
    · by_cases first : b = 0
      · rw [first]
        exact h.next
      · have zero : (newFile s.dir name (s.disk.highest+1)).blocks b = 0 := by
          simp only [newFile, Function.update_of_ne first]
        rw [zero]
        decide
    · exact h.apart j ne live b
  | newDir _ _ _ table _ =>
    rw [table] at live ⊢
    split_ifs at live ⊢ with new
    · exact show (0 : UInt32) ≠ 9 by decide
    · exact h.apart j ne live b
  | @grow _ _ id size here _ _ table _ =>
    rw [table] at live ⊢
    split_ifs at live ⊢ with same
    · exact h.grown (same ▸ ne) here size b
    · exact h.apart j ne live b
  | rename found _ table _ =>
    rw [table] at live ⊢
    split_ifs at live ⊢ with same
    · exact h.apart _ (same ▸ ne) (lookup_matches found).1 b
    · exact h.apart j ne live b
  | delete _ table _ =>
    rw [table] at live ⊢
    split_ifs at live ⊢ with same
    · exact absurd live zero_not_live
    · exact h.apart j ne live b

theorem Holds.step (h : Holds riru s) (ok : otherCall s op) : Holds riru (exec op s).2 := by
  have format : op ≠ .format := by
    rintro rfl
    exact ok
  have target := h.target ok
  have effect := exec_effect h.blocks op
  refine ⟨?_, effect_dataBlocks h.blocks effect,
    (exec_other_inode h.blocks format target.symm).trans h.hello, ?_, effect_apart h effect⟩
  · cases op with
    | create name => exact h.root
    | write name data => exact h.root
    | _ => exact ok.elim
  · rw [exec_other_sector format (UInt32.le_refl _) fun tr busy b _ => ?_]
    · exact h.chunk
    · obtain ⟨live, same⟩ := transfer_live busy
      exact h.grown (same ▸ target) live tr.size b

theorem served_of_small (totalSectors : UInt32) (st : Statics) {riru : List UInt8}
    (some : riru ≠ []) (small : riru.length ≤ 511) : Served totalSectors st riru := by
  have image := nanofsImg_image totalSectors some (by omega)
  obtain ⟨total, mounted⟩ := image.mounts st
  refine ⟨(nanofsImg_sectors totalSectors some (by omega)).1, ?_⟩
  dsimp only
  rw [mounted]
  refine ⟨rfl, fun t reach => ?_⟩
  have holds : Holds riru t := by
    refine reach.invariant ?_ ?_
    · rintro s rfl
      exact image.holds total
    · rintro s t op _ h ok rfl
      exact h.step ok
  exact holds.reads small

theorem small_of_served {totalSectors : UInt32} {st : Statics} {riru : List UInt8}
    (some : riru ≠ []) (fits : riru.length ≤ 2044) (served : Served totalSectors st riru) :
    riru.length ≤ 511 := by
  have image := nanofsImg_image totalSectors some fits
  obtain ⟨total, mounted⟩ := image.mounts st
  obtain ⟨-, -, reads⟩ := served
  refine (image.holds total).cut fits ?_
  rw [mounted] at reads
  exact reads _ (.start rfl)

/-- The image serves the program if and only if the program fits one block: the others are
written, but their numbers are not in the inode. -/
theorem image_served_iff (totalSectors : UInt32) (st : Statics) {riru : List UInt8}
    (some : riru ≠ []) (fits : riru.length ≤ 2044) :
    Served totalSectors st riru ↔ riru.length ≤ 511 :=
  ⟨small_of_served some fits, served_of_small totalSectors st some⟩

theorem image_served_iff_one : Served 0 ⟨0, 0⟩ [82] ↔ [(82 : UInt8)].length ≤ 511 :=
  image_served_iff 0 ⟨0, 0⟩ (List.cons_ne_nil _ _) (by decide)

theorem secondBlock_lost : ¬∀ (totalSectors : UInt32) (st : Statics) (riru : List UInt8),
    riru ≠ [] → riru.length ≤ 2044 → Served totalSectors st riru := by
  intro all
  have ne : List.replicate 512 (82 : UInt8) ≠ [] := List.cons_ne_nil _ _
  have length : (List.replicate 512 (82 : UInt8)).length = 512 := List.length_replicate
  have small := small_of_served ne (by omega) (all 0 ⟨0, 0⟩ _ ne (by omega))
  omega

end TinyOS.NanoFS
