import TinyOS.NanoFSWallpaper

set_option autoImplicit false

/-! The desktop wallpaper (wallpaper_layout.h): tools/wallpaper_pack.c writes it to the disk and
gui/wallpaper.c reads it back. -/
namespace TinyOS.Wallpaper
open ByteWords NanoFS

/-- `WALLPAPER_MAGIC`, "WPBMP01". -/
def wallpaperMagic : List UInt8 := [87, 80, 66, 77, 80, 48, 49]

abbrev wallpaperDataStartSector : UInt32 := wallpaperHeaderSector+1
abbrev wallpaperDiskSectors : UInt32 := 131072
abbrev wallpaperMaxBytes : UInt32 := (wallpaperDiskSectors-wallpaperDataStartSector)*512

structure WallpaperHeader where
  magic : Fin 8 → UInt8
  width : UInt32
  height : UInt32
  sizeBytes : UInt32

def WallpaperHeader.sector (hdr : WallpaperHeader) : Sector := fun i =>
  if h : i.val < 8 then hdr.magic ⟨i, h⟩
  else if i.val < 12 then wordByte hdr.width (i-8)
  else if i.val < 16 then wordByte hdr.height (i-12)
  else if i.val < 20 then wordByte hdr.sizeBytes (i-16)
  else 0

theorem magic_inside (i : Fin 8) : i.val < 512 := by omega

def WallpaperHeader.ofSector (s : Sector) : WallpaperHeader where
  magic i := s ⟨i, magic_inside i⟩
  width := wordAt (cell s) 8
  height := wordAt (cell s) 12
  sizeBytes := wordAt (cell s) 16

/-- `if (chunk > SECTOR_SIZE) chunk = SECTOR_SIZE` -/
def chunkOf (rest : UInt32) : UInt32 := if rest > 512 then 512 else rest

theorem chunk_progress {offset size : UInt32} (lt : offset < size) :
    offset.toNat+(chunkOf (size-offset)).toNat ≤ size.toNat ∧ 0 < (chunkOf (size-offset)).toNat ∧
      (chunkOf (size-offset)).toNat ≤ 512 ∧
      (offset+chunkOf (size-offset)).toNat = offset.toNat+(chunkOf (size-offset)).toNat ∧
      (offset+chunkOf (size-offset) < size → (chunkOf (size-offset)).toNat = 512) := by
  have bound := size.toNat_lt
  rw [UInt32.lt_iff_toNat_lt] at lt
  have rest : (size-offset).toNat = size.toNat-offset.toNat :=
    UInt32.toNat_sub_of_le _ _ (UInt32.le_iff_toNat_le.mpr (by omega))
  have chunk : (chunkOf (size-offset)).toNat = min (size.toNat-offset.toNat) 512 := by
    rw [chunkOf]
    split_ifs with h
    · rw [gt_iff_lt, UInt32.lt_iff_toNat_lt, rest, show (512 : UInt32).toNat = 512 from rfl] at h
      rw [show (512 : UInt32).toNat = 512 from rfl]
      omega
    · rw [gt_iff_lt, UInt32.lt_iff_toNat_lt, rest, show (512 : UInt32).toNat = 512 from rfl] at h
      rw [rest]
      omega
  have sum : (offset+chunkOf (size-offset)).toNat =
      offset.toNat+(chunkOf (size-offset)).toNat := by
    rw [UInt32.toNat_add, Nat.mod_eq_of_lt (by omega)]
  rw [UInt32.lt_iff_toNat_lt, sum]
  omega

/-- `write_sector` on the disk image, which is long enough or grows. -/
def writeSector (sector : UInt32) (data : Sector) : DiskM Unit := fun d => ((), d.write sector data)

def writePixels (pixels : Buffer) (expectedSize offset sector : UInt32) : DiskM Unit :=
  if offset < expectedSize then do
    writeSector sector (chunkSector pixels offset (chunkOf (expectedSize-offset)))
    writePixels pixels expectedSize (offset+chunkOf (expectedSize-offset)) (sector+1)
  else return ()
termination_by expectedSize.toNat-offset.toNat
decreasing_by
  obtain ⟨le, pos, -, sum, -⟩ := chunk_progress ‹offset < expectedSize›
  rw [sum]
  omega

def pixelBuffer (bytes : List UInt8) : Buffer := fun i => bytes.getD i 0

def packedHeader (width height : Int64) (expectedSize : UInt32) : WallpaperHeader where
  magic i := wallpaperMagic.getD i 0
  width := width.toUInt64.toUInt32
  height := height.toUInt64.toUInt32
  sizeBytes := expectedSize

/-- `main` on the parsed arguments and the contents of the pixel file; the product of the longs
wraps. The result is the exit code. -/
def wallpaperPack (width height : Int64) (rgb : List UInt8) : DiskM ℤ :=
  if width ≤ 0 ∨ height ≤ 0 then return 1
  else
    let expectedSize := (width*height*3).toUInt64.toUInt32
    if expectedSize > wallpaperMaxBytes then return 1
    else
      let pixels := rgb.take expectedSize.toNat
      let extra := !(rgb.drop pixels.length).isEmpty
      if pixels.length ≠ expectedSize.toNat ∨ extra then return 1
      else do
        writeSector wallpaperHeaderSector (packedHeader width height expectedSize).sector
        writePixels (pixelBuffer pixels) expectedSize 0 wallpaperDataStartSector
        return 0

/-- What `gui_set_background` is called with. -/
structure Background where
  pixels : Buffer
  width : ℤ
  height : ℤ

section Load

variable {m : Type → Type} [Monad m] [Ata m]

/-- The loop that reads the pixels; `none` when a read fails. -/
def readPixels (sizeBytes sector offset : UInt32) (pixels : Buffer) : m (Option Buffer) :=
  if offset < sizeBytes then do
    let r ← ataReadSector sector
    if r.1 ≠ 0 then return none
    else
      readPixels sizeBytes (sector+1) (offset+chunkOf (sizeBytes-offset))
        (storeChunk pixels offset (chunkOf (sizeBytes-offset)) r.2)
  else return some pixels
termination_by sizeBytes.toNat-offset.toNat
decreasing_by
  obtain ⟨le, pos, -, sum, -⟩ := chunk_progress ‹offset < sizeBytes›
  rw [sum]
  omega

/-- `wallpaper_load`, with the block `kmalloc` returns for a size, `none` the null pointer. -/
def wallpaperLoad (kmalloc : UInt32 → Option Buffer) : m (ℤ × Option Background) := do
  let r ← ataReadSector wallpaperHeaderSector
  if r.1 ≠ 0 then return (-1, none)
  else
    let hdr := WallpaperHeader.ofSector r.2
    if (List.ofFn hdr.magic).take 7 ≠ wallpaperMagic then return (-1, none)
    else if hdr.width = 0 ∨ hdr.height = 0 then return (-2, none)
    else if hdr.width.toUInt64*hdr.height.toUInt64*3 ≠ hdr.sizeBytes.toUInt64 then
      return (-2, none)
    else if hdr.sizeBytes = 0 ∨ hdr.sizeBytes > wallpaperMaxBytes then return (-2, none)
    else
      match kmalloc hdr.sizeBytes with
      | none => return (-2, none)
      | some block => do
        let read ← readPixels hdr.sizeBytes wallpaperDataStartSector 0 block
        match read with
        | none => return (-2, none)
        | some pixels =>
          return (0, some ⟨pixels, hdr.width.toBitVec.toInt, hdr.height.toBitVec.toInt⟩)

end Load

variable {d : Disk} {pixels : Buffer} {size offset sector : UInt32}

theorem cell_chunkSector {written chunk : UInt32} {j : ℕ} (lt : j < chunk.toNat) (le : j < 512) :
    cell (chunkSector pixels written chunk) j = pixels (written.toNat+j) := by
  rw [cell_of_lt _ le, chunkSector, if_pos lt]

theorem next_sector (room : sector.toNat+1 < 4294967296) :
    (sector+1).toNat = sector.toNat+1 := by
  rw [UInt32.toNat_add, show (1 : UInt32).toNat = 1 from rfl, Nat.mod_eq_of_lt room]

/-- A byte behind a whole sector lies where the next round finds it. -/
theorem next_cell {i o : ℕ} (first : ℕ) (behind : o+512 ≤ i) :
    first+(i-o)/512 = first+1+(i-(o+512))/512 ∧ (i-o)%512 = (i-(o+512))%512 := by
  have whole : i-o = i-(o+512)+512 := by omega
  rw [whole, Nat.add_div_right _ (by decide), Nat.add_mod_right]
  exact ⟨by omega, rfl⟩

/-- The packer stores the pixels from `offset` on to the sectors from `sector` on. -/
structure Packed (pixels : Buffer) (size offset sector : UInt32) (d d' : Disk) : Prop where
  before : ∀ lba : UInt32, lba < sector → d'.sectors lba = d.sectors lba
  data : ∀ i, offset.toNat ≤ i → i < size.toNat →
    cell (d'.sectors (UInt32.ofNat (sector.toNat+(i-offset.toNat)/512))) ((i-offset.toNat)%512) =
      pixels i
  written : ∃ new, d'.written = new++d.written ∧ ∀ lba ∈ new, sector ≤ lba ∧
    lba.toNat < sector.toNat+(size.toNat-offset.toNat+511)/512

theorem Packed.step {d' : Disk} (lt : offset < size)
    (room : sector.toNat+(size.toNat-offset.toNat) < 4294967295)
    (rest : Packed pixels size (offset+chunkOf (size-offset)) (sector+1)
      (d.write sector (chunkSector pixels offset (chunkOf (size-offset)))) d') :
    Packed pixels size offset sector d d' := by
  obtain ⟨inside, pos, small, sum, full⟩ := chunk_progress lt
  have here := UInt32.lt_iff_toNat_lt.mp lt
  have next : (sector+1).toNat = sector.toNat+1 := next_sector (by omega)
  rw [UInt32.lt_iff_toNat_lt, sum] at full
  obtain ⟨before, data, new, log, range⟩ := rest
  rw [sum, next] at data
  refine ⟨fun lba lower => ?_, fun i le stop => ?_, new++[sector], ?_, fun lba mem => ?_⟩
  · have ne : lba ≠ sector := fun eq => UInt32.lt_irrefl _ (eq ▸ lower)
    rw [before lba (UInt32.lt_iff_toNat_lt.mpr (by
      rw [next]
      exact Nat.lt_succ_of_lt (UInt32.lt_iff_toNat_lt.mp lower))), write_sectors,
      Function.update_of_ne ne]
  · by_cases first : i < offset.toNat+(chunkOf (size-offset)).toNat
    · have zero : (i-offset.toNat)/512 = 0 := by omega
      have rem : (i-offset.toNat)%512 = i-offset.toNat := by omega
      rw [zero, rem, Nat.add_zero, UInt32.ofNat_toNat, before sector
        (UInt32.lt_iff_toNat_lt.mpr (by rw [next]; exact Nat.lt_succ_self _)), write_sectors,
        Function.update_self, cell_chunkSector (by omega) (by omega), Nat.add_sub_cancel' le]
    · have whole := full (by omega)
      have found := data i (by omega) stop
      obtain ⟨atSector, atByte⟩ := next_cell sector.toNat (show offset.toNat+512 ≤ i by omega)
      rw [whole, ← atSector, ← atByte] at found
      exact found
  · rw [log, write_written, List.append_assoc]
    rfl
  · rcases List.mem_append.mp mem with mem | mem
    · obtain ⟨lower, upper⟩ := range lba mem
      rw [UInt32.le_iff_toNat_le, next] at lower
      rw [sum, next] at upper
      exact ⟨UInt32.le_iff_toNat_le.mpr (by omega), by omega⟩
    · rw [List.mem_singleton.mp mem]
      exact ⟨UInt32.le_refl _, by omega⟩

theorem writePixels_packed (le : offset ≤ size)
    (room : sector.toNat+(size.toNat-offset.toNat) < 4294967295) :
    Packed pixels size offset sector d ((writePixels pixels size offset sector).run d).2 := by
  fun_induction writePixels pixels size offset sector generalizing d with
  | case1 offset sector lt ih =>
    obtain ⟨inside, pos, small, sum, full⟩ := chunk_progress lt
    have here := UInt32.lt_iff_toNat_lt.mp lt
    have next : (sector+1).toNat = sector.toNat+1 := next_sector (by omega)
    have rest := @ih (d.write sector (chunkSector pixels offset (chunkOf (size-offset))))
      (by rw [UInt32.le_iff_toNat_le, sum]; omega) (by rw [next, sum]; omega)
    change Packed pixels size offset sector d
      ((writePixels pixels size (offset+chunkOf (size-offset)) (sector+1)).run
        (d.write sector (chunkSector pixels offset (chunkOf (size-offset))))).2
    exact rest.step lt room
  | case2 offset sector done =>
    have stop : size.toNat ≤ offset.toNat := by
      rw [UInt32.lt_iff_toNat_lt] at done
      omega
    refine ⟨fun lba _ => rfl, fun i le lt => ?_, [], rfl, fun lba mem => ?_⟩
    · omega
    · exact absurd mem List.not_mem_nil

/-- The loader reads the pixels from `offset` on from the sectors from `sector` on. -/
structure Unpacked (d : Disk) (size sector offset : UInt32) (block pixels : Buffer) : Prop where
  before : ∀ i < offset.toNat, pixels i = block i
  data : ∀ i, offset.toNat ≤ i → i < size.toNat → pixels i =
    cell (d.sectors (UInt32.ofNat (sector.toNat+(i-offset.toNat)/512))) ((i-offset.toNat)%512)

theorem readPixels_unpacked (block : Buffer)
    (room : sector.toNat+(size.toNat-offset.toNat) < 4294967295) :
    ∃ pixels, (readPixels size sector offset block : DiskM (Option Buffer)).run d =
      (some pixels, d) ∧ Unpacked d size sector offset block pixels := by
  fun_induction readPixels (m := DiskM) size sector offset block with
  | case1 sector offset block lt ih =>
    obtain ⟨inside, pos, small, sum, full⟩ := chunk_progress lt
    have here := UInt32.lt_iff_toNat_lt.mp lt
    have next : (sector+1).toNat = sector.toNat+1 := next_sector (by omega)
    obtain ⟨pixels, run, before, data⟩ := ih (0, d.sectors sector) (by rw [next, sum]; omega)
    rw [sum] at before
    rw [sum, next] at data
    rw [UInt32.lt_iff_toNat_lt, sum] at full
    refine ⟨pixels, ?_, fun i lower => ?_, fun i le stop => ?_⟩
    · rw [bind_run, ataReadSector_run]
      dsimp only
      rw [if_neg (not_not.mpr rfl)]
      exact run
    · rw [before i (by omega), storeChunk, if_neg (by omega)]
    · by_cases first : i < offset.toNat+(chunkOf (size-offset)).toNat
      · rw [before i first, storeChunk, if_pos ⟨le, first⟩]
        dsimp only
        rw [show (i-offset.toNat)/512 = 0 by omega, show (i-offset.toNat)%512 = i-offset.toNat by
          omega, Nat.add_zero, UInt32.ofNat_toNat]
      · have whole := full (by omega)
        have found := data i (by omega) stop
        obtain ⟨atSector, atByte⟩ := next_cell sector.toNat (show offset.toNat+512 ≤ i by omega)
        rw [whole, ← atSector, ← atByte] at found
        exact found
  | case2 sector offset block done =>
    have stop : size.toNat ≤ offset.toNat := by
      rw [UInt32.lt_iff_toNat_lt] at done
      omega
    exact ⟨block, rfl, fun i _ => rfl, fun i le lt => by omega⟩

theorem ofSector_sector (hdr : WallpaperHeader) : WallpaperHeader.ofSector hdr.sector = hdr := by
  obtain ⟨magic, width, height, sizeBytes⟩ := hdr
  have word {off : ℕ} {w : UInt32} (lt : off+3 < 512)
      (h : ∀ i < 4, ∀ lt : off+i < 512,
        WallpaperHeader.sector ⟨magic, width, height, sizeBytes⟩ ⟨off+i, lt⟩ = wordByte w i) :
      wordAt (cell (WallpaperHeader.sector ⟨magic, width, height, sizeBytes⟩)) off = w := by
    refine wordAt_wordByte _ _ _ fun i small => ?_
    rw [cell_of_lt _ (show off+i < 512 by omega)]
    exact h i small _
  simp only [WallpaperHeader.ofSector, WallpaperHeader.mk.injEq]
  refine ⟨?_, word (by omega) fun i small lt => ?_, word (by omega) fun i small lt => ?_,
    word (by omega) fun i small lt => ?_⟩
  · funext i
    simp [WallpaperHeader.sector]
  · simp [WallpaperHeader.sector, show 8+i < 12 by omega]
  · simp [WallpaperHeader.sector, show 12+i < 16 by omega, show ¬12+i < 8 by omega]
  · simp [WallpaperHeader.sector, show 16+i < 20 by omega, show ¬16+i < 8 by omega,
      show ¬16+i < 12 by omega]

variable {width height : Int64} {rgb : List UInt8} {kmalloc : UInt32 → Option Buffer} {d' : Disk}

def OnlyWallpaper (d d' : Disk) : Prop := ∃ new, d'.written = new++d.written ∧
  ∀ lba ∈ new, wallpaperHeaderSector ≤ lba ∧ lba < wallpaperDiskSectors

/-- The loader hands the image to `gui_set_background`. -/
def Shown (kmalloc : UInt32 → Option Buffer) (width height : Int64) (rgb : List UInt8) (d : Disk) :
    Prop :=
  ∃ bg, ((wallpaperLoad kmalloc : DiskM (ℤ × Option Background)).run d).1 = (0, some bg) ∧
    bg.width = width.toInt ∧ bg.height = height.toInt ∧
    ∀ i (lt : i < rgb.length), bg.pixels i = rgb[i]

abbrev packedSize (width height : Int64) : UInt32 := (width*height*3).toUInt64.toUInt32

theorem long_toNat {x : Int64} (pos : 0 < x) :
    (x.toUInt64.toNat : ℤ) = x.toInt ∧ x.toUInt64.toNat < 2^63 := by
  have le : 0 ≤ x := by
    rw [Int64.le_iff_toInt_le]
    exact le_of_lt (Int64.lt_iff_toInt_lt.mp pos)
  have upper := x.toInt_lt
  have lower : (0 : ℤ) < x.toInt := Int64.lt_iff_toInt_lt.mp pos
  have clamp : x.toUInt64.toNat = x.toInt.toNat := Int64.toNat_toUInt64_of_le le
  rw [clamp]
  omega

theorem packedSize_toNat (width height : Int64) : (packedSize width height).toNat =
    width.toUInt64.toNat*height.toUInt64.toNat*3%4294967296 := by
  rw [packedSize, UInt64.toNat_toUInt32, Int64.toUInt64_mul, Int64.toUInt64_mul, UInt64.toNat_mul,
    UInt64.toNat_mul, Nat.mod_mul_mod, show (3 : Int64).toUInt64.toNat = 3 from rfl]
  exact Nat.mod_mod_of_dvd _ (by decide)

theorem wrongSize_iff {n : ℕ} : ((rgb.take n).length ≠ n ∨
    (!(rgb.drop (rgb.take n).length).isEmpty) = true) ↔ rgb.length ≠ n := by
  simp only [List.length_take, Bool.not_eq_true', Bool.eq_false_iff, ne_eq, List.isEmpty_iff,
    List.drop_eq_nil_iff]
  omega

def headerDisk (width height : Int64) (d : Disk) : Disk :=
  d.write wallpaperHeaderSector (packedHeader width height (packedSize width height)).sector

theorem wallpaperPack_run (width height : Int64) (rgb : List UInt8) (d : Disk) :
    (wallpaperPack width height rgb).run d =
      if 0 < width ∧ 0 < height ∧ packedSize width height ≤ wallpaperMaxBytes ∧
        rgb.length = (packedSize width height).toNat
      then (0, ((writePixels (pixelBuffer rgb) (packedSize width height) 0
        wallpaperDataStartSector).run (headerDisk width height d)).2)
      else (1, d) := by
  rw [wallpaperPack]
  by_cases sign : width ≤ 0 ∨ height ≤ 0
  · rw [if_pos sign, if_neg]
    · rfl
    · rintro ⟨w, h, -⟩
      rcases sign with le | le
      · exact absurd w (Int64.not_lt.mpr le)
      · exact absurd h (Int64.not_lt.mpr le)
  rw [if_neg sign]
  rw [not_or, Int64.not_le, Int64.not_le] at sign
  dsimp only
  by_cases large : packedSize width height > wallpaperMaxBytes
  · rw [if_pos large, if_neg]
    · rfl
    · rintro ⟨-, -, le, -⟩
      exact absurd large (UInt32.not_lt.mpr le)
  rw [if_neg large]
  by_cases wrong : rgb.length = (packedSize width height).toNat
  · rw [if_neg (fun h => absurd wrong (wrongSize_iff.mp h)),
      if_pos ⟨sign.1, sign.2, UInt32.not_lt.mp large, wrong⟩, List.take_of_length_le (le_of_eq wrong)]
    rfl
  · rw [if_pos (wrongSize_iff.mpr wrong), if_neg]
    · rfl
    · rintro ⟨-, -, -, same⟩
      exact wrong same

structure Accepted (width height : Int64) (rgb : List UInt8) : Prop where
  wide : 0 < width
  high : 0 < height
  size : packedSize width height ≤ wallpaperMaxBytes
  length : rgb.length = (packedSize width height).toNat

theorem wallpaperPack_accepted (packed : ((wallpaperPack width height rgb).run d).1 = 0) :
    Accepted width height rgb ∧ ((wallpaperPack width height rgb).run d).2 =
      ((writePixels (pixelBuffer rgb) (packedSize width height) 0
        wallpaperDataStartSector).run (headerDisk width height d)).2 := by
  rw [wallpaperPack_run] at packed ⊢
  split_ifs at packed ⊢ with ok
  · exact ⟨⟨ok.1, ok.2.1, ok.2.2.1, ok.2.2.2⟩, rfl⟩
  · exact absurd packed (show ¬(1 : ℤ) = 0 by decide)

/-- The packed disk: the header and the pixels are there, and nothing else was written. -/
theorem wallpaperPack_disk (packed : ((wallpaperPack width height rgb).run d).1 = 0) :
    WallpaperHeader.ofSector
        (((wallpaperPack width height rgb).run d).2.sectors wallpaperHeaderSector) =
      packedHeader width height (packedSize width height) ∧
    Packed (pixelBuffer rgb) (packedSize width height) 0 wallpaperDataStartSector
      (headerDisk width height d) ((wallpaperPack width height rgb).run d).2 ∧
    OnlyWallpaper d ((wallpaperPack width height rgb).run d).2 := by
  obtain ⟨accepted, disk⟩ := wallpaperPack_accepted packed
  have size := UInt32.le_iff_toNat_le.mp accepted.size
  have most : wallpaperMaxBytes.toNat = 15908352 := rfl
  have first : wallpaperDataStartSector.toNat = 100001 := rfl
  have zero : (0 : UInt32).toNat = 0 := rfl
  have stored : Packed (pixelBuffer rgb) (packedSize width height) 0 wallpaperDataStartSector
      (headerDisk width height d) ((wallpaperPack width height rgb).run d).2 := by
    rw [disk]
    exact writePixels_packed (UInt32.le_iff_toNat_le.mpr (by omega)) (by omega)
  refine ⟨?_, stored, ?_⟩
  · rw [stored.before wallpaperHeaderSector (by decide), headerDisk, write_sectors,
      Function.update_self, ofSector_sector]
  · obtain ⟨new, log, range⟩ := stored.written
    refine ⟨new++[wallpaperHeaderSector], ?_, fun lba mem => ?_⟩
    · rw [log, headerDisk, write_written, List.append_assoc]
      rfl
    · rcases List.mem_append.mp mem with mem | mem
      · obtain ⟨lower, upper⟩ := range lba mem
        rw [UInt32.le_iff_toNat_le, first] at lower
        rw [UInt32.le_iff_toNat_le, UInt32.lt_iff_toNat_lt, show wallpaperHeaderSector.toNat = 100000
          from rfl, show wallpaperDiskSectors.toNat = 131072 from rfl]
        omega
      · rw [List.mem_singleton.mp mem]
        exact ⟨UInt32.le_refl _, by decide⟩

structure Sane (hdr : WallpaperHeader) : Prop where
  magic : (List.ofFn hdr.magic).take 7 = wallpaperMagic
  width : hdr.width ≠ 0
  height : hdr.height ≠ 0
  product : hdr.width.toUInt64*hdr.height.toUInt64*3 = hdr.sizeBytes.toUInt64
  nonempty : hdr.sizeBytes ≠ 0
  size : hdr.sizeBytes ≤ wallpaperMaxBytes

theorem wallpaperLoad_sane (sane : Sane (WallpaperHeader.ofSector (d.sectors wallpaperHeaderSector)))
    {block : Buffer}
    (memory : kmalloc (WallpaperHeader.ofSector (d.sectors wallpaperHeaderSector)).sizeBytes =
      some block) :
    ∃ pixels, ((wallpaperLoad kmalloc : DiskM (ℤ × Option Background)).run d).1 = (0, some ⟨pixels,
        (WallpaperHeader.ofSector (d.sectors wallpaperHeaderSector)).width.toBitVec.toInt,
        (WallpaperHeader.ofSector (d.sectors wallpaperHeaderSector)).height.toBitVec.toInt⟩) ∧
      Unpacked d (WallpaperHeader.ofSector (d.sectors wallpaperHeaderSector)).sizeBytes
        wallpaperDataStartSector 0 block pixels := by
  have size := UInt32.le_iff_toNat_le.mp sane.size
  have most : wallpaperMaxBytes.toNat = 15908352 := rfl
  have first : wallpaperDataStartSector.toNat = 100001 := rfl
  obtain ⟨pixels, run, unpacked⟩ := @readPixels_unpacked d
    (WallpaperHeader.ofSector (d.sectors wallpaperHeaderSector)).sizeBytes 0
    wallpaperDataStartSector block (by omega)
  refine ⟨pixels, ?_, unpacked⟩
  rw [wallpaperLoad, bind_run, ataReadSector_run]
  dsimp only
  rw [if_neg (not_not.mpr rfl), if_neg (not_not.mpr sane.magic),
    if_neg (not_or.mpr ⟨sane.width, sane.height⟩), if_neg (not_not.mpr sane.product),
    if_neg (not_or.mpr ⟨sane.nonempty, UInt32.not_lt.mpr sane.size⟩), memory]
  dsimp only
  rw [bind_run, run]
  rfl

theorem wallpaperLoad_zero {bg : Background}
    (done : ((wallpaperLoad kmalloc : DiskM (ℤ × Option Background)).run d).1 = (0, some bg)) :
    Sane (WallpaperHeader.ofSector (d.sectors wallpaperHeaderSector)) ∧
      bg.width =
        (WallpaperHeader.ofSector (d.sectors wallpaperHeaderSector)).width.toBitVec.toInt ∧
      bg.height =
        (WallpaperHeader.ofSector (d.sectors wallpaperHeaderSector)).height.toBitVec.toInt := by
  have refused {r : ℤ} (ne : r ≠ 0)
      (h : (((pure (r, none) : DiskM (ℤ × Option Background))).run d).1 = (0, some bg)) : False :=
    ne (Prod.mk.inj h).1
  rw [wallpaperLoad, bind_run, ataReadSector_run] at done
  dsimp only at done
  rw [if_neg (not_not.mpr rfl)] at done
  split_ifs at done with magic zero product bounds
  · exact (refused (by decide) done).elim
  · exact (refused (by decide) done).elim
  · exact (refused (by decide) done).elim
  · exact (refused (by decide) done).elim
  · rw [not_or] at zero bounds
    refine ⟨⟨not_not.mp magic, zero.1, zero.2, not_not.mp product, bounds.1,
      UInt32.not_lt.mp bounds.2⟩, ?_⟩
    cases memory : kmalloc (WallpaperHeader.ofSector (d.sectors wallpaperHeaderSector)).sizeBytes with
    | none =>
      rw [memory] at done
      exact (refused (by decide) done).elim
    | some block =>
      rw [memory] at done
      dsimp only at done
      rw [bind_run] at done
      generalize (readPixels _ _ _ block : DiskM (Option Buffer)).run d = r at done
      obtain ⟨_ | pixels, e⟩ := r
      · exact (refused (by decide) done).elim
      · rw [← Option.some.inj (Prod.mk.inj done).2]
        exact ⟨rfl, rfl⟩

theorem packed_toInt {x : Int64} (pos : 0 < x) (same : x.toUInt64.toUInt32.toBitVec.toInt = x.toInt) :
    x.toUInt64.toNat < 2147483648 ∧ x.toUInt64.toUInt32.toNat = x.toUInt64.toNat := by
  obtain ⟨value, -⟩ := long_toNat pos
  have lower : (0 : ℤ) < x.toInt := Int64.lt_iff_toInt_lt.mp pos
  have bound := x.toUInt64.toUInt32.toNat_lt
  have nat : x.toUInt64.toUInt32.toBitVec.toNat = x.toUInt64.toUInt32.toNat := rfl
  rw [BitVec.toInt_eq_toNat_cond, nat] at same
  split_ifs at same with small
  · omega
  · omega

/-- Where the product of the dimensions is too large, the loader refuses what was packed or
shows other dimensions. -/
theorem Shown.fits (packed : ((wallpaperPack width height rgb).run d).1 = 0)
    (shown : Shown kmalloc width height rgb ((wallpaperPack width height rgb).run d).2) :
    width.toInt*height.toInt*3 ≤ wallpaperMaxBytes.toNat := by
  obtain ⟨accepted, -⟩ := wallpaperPack_accepted packed
  obtain ⟨header, -, -⟩ := wallpaperPack_disk packed
  obtain ⟨bg, done, wide, high, -⟩ := shown
  obtain ⟨sane, bgWidth, bgHeight⟩ := wallpaperLoad_zero done
  rw [header] at sane bgWidth bgHeight
  obtain ⟨smallWidth, sameWidth⟩ := packed_toInt accepted.wide (bgWidth.symm.trans wide)
  obtain ⟨smallHeight, sameHeight⟩ := packed_toInt accepted.high (bgHeight.symm.trans high)
  have product := congrArg UInt64.toNat sane.product
  have size := UInt32.le_iff_toNat_le.mp sane.size
  have area : width.toUInt64.toNat*height.toUInt64.toNat ≤ 2147483648*2147483648 :=
    Nat.mul_le_mul (le_of_lt smallWidth) (le_of_lt smallHeight)
  have three : (3 : UInt64).toNat = 3 := rfl
  rw [UInt64.toNat_mul, UInt64.toNat_mul, Nat.mod_mul_mod, three, UInt32.toNat_toUInt64,
    UInt32.toNat_toUInt64, UInt32.toNat_toUInt64] at product
  change width.toUInt64.toUInt32.toNat*height.toUInt64.toUInt32.toNat*3%2^64 = _ at product
  rw [sameWidth, sameHeight, Nat.mod_eq_of_lt (by omega)] at product
  rw [← (long_toNat accepted.wide).1, ← (long_toNat accepted.high).1]
  exact_mod_cast product ▸ size

theorem Shown.of_fits (packed : ((wallpaperPack width height rgb).run d).1 = 0)
    (memory : ∀ size, kmalloc size ≠ none)
    (fits : width.toInt*height.toInt*3 ≤ wallpaperMaxBytes.toNat) :
    Shown kmalloc width height rgb ((wallpaperPack width height rgb).run d).2 := by
  obtain ⟨accepted, -⟩ := wallpaperPack_accepted packed
  obtain ⟨header, stored, -⟩ := wallpaperPack_disk packed
  have most : wallpaperMaxBytes.toNat = 15908352 := rfl
  have area : width.toUInt64.toNat*height.toUInt64.toNat*3 ≤ 15908352 := by
    rw [← (long_toNat accepted.wide).1, ← (long_toNat accepted.high).1] at fits
    exact_mod_cast fits
  have posWidth : 0 < width.toUInt64.toNat := by
    have lower : (0 : ℤ) < width.toInt := Int64.lt_iff_toInt_lt.mp accepted.wide
    have value := (long_toNat accepted.wide).1
    omega
  have posHeight : 0 < height.toUInt64.toNat := by
    have lower : (0 : ℤ) < height.toInt := Int64.lt_iff_toInt_lt.mp accepted.high
    have value := (long_toNat accepted.high).1
    omega
  have leWidth : width.toUInt64.toNat ≤ width.toUInt64.toNat*height.toUInt64.toNat :=
    Nat.le_mul_of_pos_right _ posHeight
  have leHeight : height.toUInt64.toNat ≤ width.toUInt64.toNat*height.toUInt64.toNat :=
    Nat.le_mul_of_pos_left _ posWidth
  have sameWidth : width.toUInt64.toUInt32.toNat = width.toUInt64.toNat := by
    rw [UInt64.toNat_toUInt32, Nat.mod_eq_of_lt (by omega)]
  have sameHeight : height.toUInt64.toUInt32.toNat = height.toUInt64.toNat := by
    rw [UInt64.toNat_toUInt32, Nat.mod_eq_of_lt (by omega)]
  have size : (packedSize width height).toNat =
      width.toUInt64.toNat*height.toUInt64.toNat*3 := by
    rw [packedSize_toNat, Nat.mod_eq_of_lt (by omega)]
  have sane : Sane (packedHeader width height (packedSize width height)) := by
    refine ⟨rfl, fun zero => ?_, fun zero => ?_, ?_, fun zero => ?_, accepted.size⟩
    · have := congrArg UInt32.toNat (show width.toUInt64.toUInt32 = 0 from zero)
      rw [sameWidth] at this
      exact absurd this (Nat.pos_iff_ne_zero.mp posWidth)
    · have := congrArg UInt32.toNat (show height.toUInt64.toUInt32 = 0 from zero)
      rw [sameHeight] at this
      exact absurd this (Nat.pos_iff_ne_zero.mp posHeight)
    · apply UInt64.toNat_inj.mp
      rw [UInt64.toNat_mul, UInt64.toNat_mul, Nat.mod_mul_mod, UInt32.toNat_toUInt64,
        UInt32.toNat_toUInt64, UInt32.toNat_toUInt64]
      change width.toUInt64.toUInt32.toNat*height.toUInt64.toUInt32.toNat*3%2^64 =
        (packedSize width height).toNat
      rw [sameWidth, sameHeight, size, Nat.mod_eq_of_lt (by omega)]
    · have := congrArg UInt32.toNat (show packedSize width height = 0 from zero)
      rw [size, show (0 : UInt32).toNat = 0 from rfl] at this
      omega
  obtain ⟨block, some⟩ := Option.ne_none_iff_exists'.mp (memory (packedSize width height))
  rw [← header] at sane
  have enough : kmalloc (WallpaperHeader.ofSector (((wallpaperPack width height rgb).run d).2.sectors
      wallpaperHeaderSector)).sizeBytes = Option.some block := by
    rw [header]
    exact some
  obtain ⟨pixels, done, unpacked⟩ := wallpaperLoad_sane sane enough
  rw [header] at done unpacked
  refine ⟨_, done, ?_, ?_, fun i lt => ?_⟩
  · change width.toUInt64.toUInt32.toBitVec.toInt = width.toInt
    rw [← (long_toNat accepted.wide).1, BitVec.toInt_eq_toNat_cond, if_pos]
    · change (width.toUInt64.toUInt32.toNat : ℤ) = _
      rw [sameWidth]
    · change 2*width.toUInt64.toUInt32.toNat < 2^32
      omega
  · change height.toUInt64.toUInt32.toBitVec.toInt = height.toInt
    rw [← (long_toNat accepted.high).1, BitVec.toInt_eq_toNat_cond, if_pos]
    · change (height.toUInt64.toUInt32.toNat : ℤ) = _
      rw [sameHeight]
    · change 2*height.toUInt64.toUInt32.toNat < 2^32
      omega
  · have read := unpacked.data i (Nat.zero_le i) (accepted.length ▸ lt)
    have written := stored.data i (Nat.zero_le i) (accepted.length ▸ lt)
    dsimp only
    rw [read, written, pixelBuffer, List.getD_eq_getElem _ _ lt]

/-- The packer writes only sectors of the wallpaper, and the loader shows what was packed if and
only if the product of the dimensions fits the wallpaper region. -/
theorem wallpaper_shown_iff (packed : ((wallpaperPack width height rgb).run d).1 = 0)
    (memory : ∀ size, kmalloc size ≠ none) :
    OnlyWallpaper d ((wallpaperPack width height rgb).run d).2 ∧
      (Shown kmalloc width height rgb ((wallpaperPack width height rgb).run d).2 ↔
        width.toInt*height.toInt*3 ≤ wallpaperMaxBytes.toNat) :=
  ⟨(wallpaperPack_disk packed).2.2, Shown.fits packed, Shown.of_fits packed memory⟩

/-- An image of 20 by 10 pixels: 600 bytes, so its data ends in a second sector. -/
def twoSectors : List UInt8 := (List.range 600).map UInt8.ofNat

theorem wallpaper_shown_twoSectors :
    let packed := (wallpaperPack 20 10 twoSectors).run ⟨fun _ => emptySector, []⟩
    OnlyWallpaper ⟨fun _ => emptySector, []⟩ packed.2 ∧
      Shown (fun _ => some fun _ => 0) 20 10 twoSectors packed.2 := by
  intro result
  have length : twoSectors.length = 600 := by
    rw [twoSectors, List.length_map, List.length_range]
  have packed : result.1 = 0 := by
    change ((wallpaperPack 20 10 twoSectors).run ⟨fun _ => emptySector, []⟩).1 = 0
    rw [wallpaperPack_run, length, if_pos (by decide)]
  obtain ⟨only, shown⟩ := wallpaper_shown_iff packed fun _ => Option.some_ne_none _
  exact ⟨only, shown.mpr (by decide)⟩

/-- 1431655766 pixels are accepted with a file of two bytes, and not shown. -/
theorem truncated_not_shown : ¬∀ (width height : Int64) (rgb : List UInt8) (d : Disk)
    (kmalloc : UInt32 → Option Buffer), ((wallpaperPack width height rgb).run d).1 = 0 →
      (∀ size, kmalloc size ≠ none) →
      Shown kmalloc width height rgb ((wallpaperPack width height rgb).run d).2 := by
  intro all
  have packed : ((wallpaperPack 1431655766 1 [0, 0]).run ⟨fun _ => emptySector, []⟩).1 = 0 := by
    rw [wallpaperPack_run, if_pos (by decide)]
  have shown := all _ _ _ _ (fun _ => some fun _ => 0) packed fun _ => Option.some_ne_none _
  exact absurd (shown.fits packed) (by decide)

end TinyOS.Wallpaper
