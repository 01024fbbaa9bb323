import TinyOS.PmmInit

set_option autoImplicit false

/-! The RIRU executable format (riru/riru.h, riru/riru.c). -/
namespace TinyOS.Riru
open Memory

abbrev Bytes := Word → BitVec 8

structure RiruHeader where
  magic : List (BitVec 8)
  version : BitVec 16
  architecture : BitVec 16
  type : BitVec 16
  flags : BitVec 16
  entry : Word
  codeOffset : Word
  codeVaddr : Word
  codeSize : Word
  rodataOffset : Word
  rodataVaddr : Word
  rodataSize : Word
  dataOffset : Word
  dataVaddr : Word
  dataSize : Word
  bssSize : Word
  stackSize : Word
  imageSize : Word

/-- `sizeof(riru_header_t)` -/
abbrev riruHeaderSize : Word := 120

/-- `RIRU_MAGIC0` to `RIRU_MAGIC3` -/
def riruMagic : List (BitVec 8) := [0x52, 0x49, 0x52, 0x55]

abbrev riruVersion : BitVec 16 := 1
abbrev riruArchX8664 : BitVec 16 := 1
abbrev riruTypeExecutable : BitVec 16 := 1

def load16 (m : Bytes) (a : Word) : BitVec 16 := BitVec.ofNat 16 (load m a 2)

/-- `(const riru_header_t *)file` -/
def readHeader (file : Bytes) : RiruHeader where
  magic := [file 0, file 1, file 2, file 3]
  version := load16 file 4
  architecture := load16 file 6
  type := load16 file 8
  flags := load16 file 10
  entry := load64 file 16
  codeOffset := load64 file 24
  codeVaddr := load64 file 32
  codeSize := load64 file 40
  rodataOffset := load64 file 48
  rodataVaddr := load64 file 56
  rodataSize := load64 file 64
  dataOffset := load64 file 72
  dataVaddr := load64 file 80
  dataSize := load64 file 88
  bssSize := load64 file 96
  stackSize := load64 file 104
  imageSize := load64 file 112

structure SectionFields where
  offset : Word
  vaddr : Word
  size : Word

abbrev codeFields : SectionFields := ⟨24, 32, 40⟩
abbrev rodataFields : SectionFields := ⟨48, 56, 64⟩
abbrev dataFields : SectionFields := ⟨72, 80, 88⟩
abbrev entryField : Word := 16
abbrev bssSizeField : Word := 96

def rangeValid (offset size fileSize : Word) : Bool :=
  if fileSize < offset then false
  else if fileSize - offset < size then false
  else true

/-- `none` is the null pointer. -/
def riruValidate (file : Option Bytes) (size : Word) : ℤ :=
  match file with
  | none => -1
  | some file =>
    let header := readHeader file
    if size < riruHeaderSize then -2
    else if header.magic ≠ riruMagic then -3
    else if header.version ≠ riruVersion then -4
    else if header.architecture ≠ riruArchX8664 then -5
    else if header.type ≠ riruTypeExecutable then -6
    else if size < header.imageSize then -7
    else if header.imageSize < riruHeaderSize then -8
    else if !rangeValid header.codeOffset header.codeSize header.imageSize then -9
    else if !rangeValid header.rodataOffset header.rodataSize header.imageSize then -10
    else if !rangeValid header.dataOffset header.dataSize header.imageSize then -11
    else if header.entry = 0 then -12
    else if header.codeSize ≠ 0 ∧ header.codeVaddr = 0 then -13
    else if header.rodataSize ≠ 0 ∧ header.rodataVaddr = 0 then -14
    else if header.dataSize ≠ 0 ∧ header.dataVaddr = 0 then -15
    else 0

/-- `riru_image_t`; a section is the offset of its pointer, `none` the null pointer. -/
structure RiruImage where
  file : Bytes
  header : RiruHeader
  code : Option Word
  rodata : Option Word
  data : Option Word
  codeVaddr : Word
  rodataVaddr : Word
  dataVaddr : Word
  entry : Word

def sectionAt (size offset : Word) : Option Word := if size ≠ 0 then some offset else none

/-- The image, or the result of `riru_validate` when that is not 0. -/
def riruParse (file : Option Bytes) (size : Word) : Except ℤ RiruImage :=
  if riruValidate file size ≠ 0 then .error (riruValidate file size)
  else
    match file with
    | none => .error (-1)
    | some file =>
      let header := readHeader file
      .ok {
        file := file
        header := header
        code := sectionAt header.codeSize header.codeOffset
        rodata := sectionAt header.rodataSize header.rodataOffset
        data := sectionAt header.dataSize header.dataOffset
        codeVaddr := header.codeVaddr
        rodataVaddr := header.rodataVaddr
        dataVaddr := header.dataVaddr
        entry := header.entry }

def RiruImage.byte (image : RiruImage) (start : Option Word) (i : ℕ) : BitVec 8 :=
  match start with
  | none => 0
  | some offset => image.file (offset + BitVec.ofNat 64 i)

def RiruHeader.halves (h : RiruHeader) : List (BitVec 16) :=
  [h.version, h.architecture, h.type, h.flags]

def RiruHeader.words (h : RiruHeader) : List Word :=
  [h.entry, h.codeOffset, h.codeVaddr, h.codeSize, h.rodataOffset, h.rodataVaddr, h.rodataSize,
    h.dataOffset, h.dataVaddr, h.dataSize, h.bssSize, h.stackSize, h.imageSize]

/-- Byte `i` of the header in memory; bytes 12 to 15 are padding. -/
def RiruHeader.byte (h : RiruHeader) (i : ℕ) : BitVec 8 :=
  if i < 4 then h.magic.getD i 0
  else if i < 12 then ((h.halves.getD ((i-4)/2) 0) >>> (8*((i-4)%2))).setWidth 8
  else if i < 16 then 0
  else ((h.words.getD ((i-16)/8) 0) >>> (8*((i-16)%8))).setWidth 8

theorem load_digits {m : Bytes} {a : Word} {n v : ℕ}
    (h : ∀ i, i < n → (m (a + BitVec.ofNat 64 i)).toNat = v/256^i%256) :
    load m a n = v%256^n := by
  induction n generalizing a v with
  | zero => rw [load, pow_zero, Nat.mod_one]
  | succ n ih =>
    have head := h 0 (by omega)
    rw [show a + BitVec.ofNat 64 0 = a from BitVec.add_zero a, pow_zero, Nat.div_one] at head
    have tail : load m (a+1) n = v/256%256^n := by
      refine ih fun i hi => ?_
      rw [show a + 1 + BitVec.ofNat 64 i = a + BitVec.ofNat 64 (i+1) by
        rw [BitVec.add_assoc, Nat.add_comm, BitVec.ofNat_add]
        rfl, h (i+1) (by omega), Nat.div_div_eq_div_mul, pow_succ']
    rw [load, head, tail, pow_succ', Nat.mod_mul]

theorem byte_toNat {w : ℕ} (x : BitVec w) (i : ℕ) :
    ((x >>> (8*i)).setWidth 8).toNat = x.toNat/256^i%256 := by
  rw [BitVec.toNat_setWidth, BitVec.toNat_ushiftRight, Nat.shiftRight_eq_div_pow, pow_mul]
  rfl

theorem load64_bytes {m : Bytes} {a w : Word}
    (h : ∀ i, i < 8 → m (a + BitVec.ofNat 64 i) = (w >>> (8*i)).setWidth 8) : load64 m a = w := by
  have digits : load m a 8 = w.toNat%256^8 := by
    refine load_digits fun i hi => ?_
    rw [h i hi, byte_toNat]
  rw [load64, digits]
  apply BitVec.eq_of_toNat_eq
  have := w.isLt
  rw [BitVec.toNat_ofNat]
  omega

theorem load16_bytes {m : Bytes} {a : Word} {w : BitVec 16}
    (h : ∀ i, i < 2 → m (a + BitVec.ofNat 64 i) = (w >>> (8*i)).setWidth 8) : load16 m a = w := by
  have digits : load m a 2 = w.toNat%256^2 := by
    refine load_digits fun i hi => ?_
    rw [h i hi, byte_toNat]
  rw [load16, digits]
  apply BitVec.eq_of_toNat_eq
  have := w.isLt
  rw [BitVec.toNat_ofNat]
  omega

theorem readHeader_bytes {file : Bytes} {h : RiruHeader} (magic : h.magic.length = 4)
    (bytes : ∀ i, i < 120 → file (BitVec.ofNat 64 i) = h.byte i) : readHeader file = h := by
  have half (k : ℕ) (lt : k < 4) : load16 file (BitVec.ofNat 64 (4+2*k)) = h.halves.getD k 0 := by
    refine load16_bytes fun i hi => ?_
    rw [← BitVec.ofNat_add, bytes _ (by omega), RiruHeader.byte, if_neg (by omega),
      if_pos (by omega), show (4+2*k+i-4)/2 = k by omega, show (4+2*k+i-4)%2 = i by omega]
  have word (k : ℕ) (lt : k < 13) : load64 file (BitVec.ofNat 64 (16+8*k)) = h.words.getD k 0 := by
    refine load64_bytes fun i hi => ?_
    rw [← BitVec.ofNat_add, bytes _ (by omega), RiruHeader.byte, if_neg (by omega),
      if_neg (by omega), if_neg (by omega), show (16+8*k+i-16)/8 = k by omega,
      show (16+8*k+i-16)%8 = i by omega]
  have first (k : ℕ) (lt : k < 4) : file (BitVec.ofNat 64 k) = h.magic.getD k 0 := by
    rw [bytes k (by omega), RiruHeader.byte, if_pos lt]
  have list : [file 0, file 1, file 2, file 3] = h.magic := by
    have first := first
    revert first magic
    generalize h.magic = l
    intro magic first
    match l, magic with
    | [b0, b1, b2, b3], _ =>
      exact congrArg₂ _ (first 0 (by decide)) (congrArg₂ _ (first 1 (by decide))
        (congrArg₂ _ (first 2 (by decide)) (congrArg₂ _ (first 3 (by decide)) rfl)))
  have halves : load16 file 4 = h.version ∧ load16 file 6 = h.architecture ∧
      load16 file 8 = h.type ∧ load16 file 10 = h.flags :=
    ⟨half 0 (by decide), half 1 (by decide), half 2 (by decide), half 3 (by decide)⟩
  obtain ⟨version, architecture, type, flags⟩ := halves
  rw [readHeader, list, version, architecture, type, flags,
    show load64 file 16 = h.entry from word 0 (by decide),
    show load64 file 24 = h.codeOffset from word 1 (by decide),
    show load64 file 32 = h.codeVaddr from word 2 (by decide),
    show load64 file 40 = h.codeSize from word 3 (by decide),
    show load64 file 48 = h.rodataOffset from word 4 (by decide),
    show load64 file 56 = h.rodataVaddr from word 5 (by decide),
    show load64 file 64 = h.rodataSize from word 6 (by decide),
    show load64 file 72 = h.dataOffset from word 7 (by decide),
    show load64 file 80 = h.dataVaddr from word 8 (by decide),
    show load64 file 88 = h.dataSize from word 9 (by decide),
    show load64 file 96 = h.bssSize from word 10 (by decide),
    show load64 file 104 = h.stackSize from word 11 (by decide),
    show load64 file 112 = h.imageSize from word 12 (by decide)]

theorem riruParse_ok {file : Bytes} {size : Word} (h : riruValidate (some file) size = 0) :
    riruParse (some file) size = .ok {
      file := file
      header := readHeader file
      code := sectionAt (readHeader file).codeSize (readHeader file).codeOffset
      rodata := sectionAt (readHeader file).rodataSize (readHeader file).rodataOffset
      data := sectionAt (readHeader file).dataSize (readHeader file).dataOffset
      codeVaddr := (readHeader file).codeVaddr
      rodataVaddr := (readHeader file).rodataVaddr
      dataVaddr := (readHeader file).dataVaddr
      entry := (readHeader file).entry } := by
  rw [riruParse, if_neg (not_not.mpr h)]

end TinyOS.Riru
