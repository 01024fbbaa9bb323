import TinyOS.ElfLoader

set_option autoImplicit false

namespace TinyOS.Elf
open Memory Riru

variable {bytes : Bytes} {size : Word}

/-- What the header of a file that passes the checks says about the program headers. -/
structure HeadersInside (header : Elf64Header) (size : Word) : Prop where
  entrySize : header.phentsize.toNat = 56
  range : header.phoff.toNat+header.phnum.toNat*56 ≤ size.toNat

theorem elfValidate_inside (small : size.toNat < 2^63)
    (valid : elfValidate (some bytes) size = 0) : HeadersInside (readHeader bytes) size := by
  rw [elfValidate] at valid
  rw [check_eq_zero (by decide), check_eq_zero (by decide), check_eq_zero (by decide),
    check_eq_zero (by decide), check_eq_zero (by decide), check_eq_zero (by decide),
    check_eq_zero (by decide), check_eq_zero (by decide), check_eq_zero (by decide),
    check_eq_zero (by decide)] at valid
  obtain ⟨-, -, -, -, -, -, entrySize, offset, stop, -⟩ := valid
  have entrySize : (readHeader bytes).phentsize = 56 := not_not.mp entrySize
  rw [entrySize] at stop
  rw [BitVec.lt_def, not_lt] at offset stop
  have count := (readHeader bytes).phnum.isLt
  have product : ((readHeader bytes).phnum.setWidth 64 * (56 : BitVec 16).setWidth 64).toNat =
      (readHeader bytes).phnum.toNat*56 := by
    rw [BitVec.toNat_mul, BitVec.toNat_setWidth, BitVec.toNat_setWidth,
      show (56 : BitVec 16).toNat = 56 from rfl]
    omega
  rw [BitVec.toNat_add, product] at stop
  refine ⟨by rw [entrySize]; rfl, ?_⟩
  omega

theorem elfValidate_long (valid : elfValidate (some bytes) size = 0) : 64 ≤ size.toNat := by
  rw [elfValidate] at valid
  rw [check_eq_zero (by decide)] at valid
  have long := valid.1
  rwa [BitVec.lt_def, not_lt] at long

theorem elfGetProgramHeader_inside (small : size.toNat < 2^63) {index : BitVec 16}
    {ph : ProgramHeader} (found : elfGetProgramHeader (some bytes) size index = .ok ph) :
    index < (readHeader bytes).phnum ∧
    (readHeader bytes).phoff.toNat+index.toNat*(readHeader bytes).phentsize.toNat+56 ≤
      size.toNat ∧
    ph = readProgramHeader bytes (BitVec.ofNat 64
      ((readHeader bytes).phoff.toNat+index.toNat*(readHeader bytes).phentsize.toNat)) := by
  rw [elfGetProgramHeader] at found
  dsimp only at found
  split_ifs at found with invalid outside
  obtain ⟨entrySize, range⟩ := elfValidate_inside small (not_not.mp invalid)
  have below : index < (readHeader bytes).phnum := BitVec.not_le.mp outside
  have lt := BitVec.lt_def.mp below
  rw [entrySize]
  refine ⟨below, by omega, ?_⟩
  rw [← Except.ok.inj found]
  congr 1
  apply BitVec.eq_of_toNat_eq
  have entryWord : ((readHeader bytes).phentsize.setWidth 64 : Word).toNat = 56 := by
    rw [BitVec.toNat_setWidth, entrySize]
  rw [BitVec.toNat_add, BitVec.toNat_mul, entryWord, BitVec.toNat_setWidth, BitVec.toNat_ofNat]
  omega

structure Checked (size : Word) (ph : ProgramHeader) : Prop where
  short : ph.filesz.toNat ≤ ph.memsz.toNat
  source : ph.offset.toNat+ph.filesz.toNat ≤ size.toNat
  range : ph.memsz = 0 ∨ 0x400000 ≤ ph.vaddr.toNat ∧ ph.vaddr.toNat+ph.memsz.toNat ≤ 0x40000000

theorem checkSegment_checked {file : Option Bytes} {span span' : Word × Word} {i : ℕ}
    {ph : ProgramHeader} (ok : checkSegment file size span i = .ok span')
    (found : elfGetProgramHeader file size (BitVec.ofNat 16 i) = .ok ph)
    (loadable : elfIsLoadable ph = true) : Checked size ph := by
  rw [checkSegment, found] at ok
  dsimp only at ok
  rw [loadable, if_neg (by decide)] at ok
  split_ifs at ok with large offset length valid
  rw [BitVec.lt_def, not_lt] at offset large
  rw [BitVec.lt_def, BitVec.toNat_sub_of_le (BitVec.le_def.mpr offset)] at length
  exact ⟨large, by omega, rangeValid_iff.mp (by simpa using valid)⟩

theorem checkSegments_checked {file : Option Bytes} {span span' : Word × Word} {l : List ℕ}
    (ok : checkSegments file size l span = .ok span') : ∀ i ∈ l, ∀ ph,
      elfGetProgramHeader file size (BitVec.ofNat 16 i) = .ok ph → elfIsLoadable ph = true →
        Checked size ph := by
  induction l generalizing span with
  | nil => exact fun i mem => absurd mem List.not_mem_nil
  | cons i rest ih =>
    rw [checkSegments, List.foldlM_cons] at ok
    cases here : checkSegment file size span i with
    | error code =>
      rw [here] at ok
      cases ok
    | ok next =>
      rw [here] at ok
      intro i' mem ph found loadable
      rcases List.mem_cons.mp mem with rfl | mem
      · exact checkSegment_checked here found loadable
      · exact ih ok i' mem ph found loadable

def Segment (bytes : Bytes) (size : Word) (ph : ProgramHeader) : Prop :=
  ∃ i, elfGetProgramHeader (some bytes) size i = .ok ph ∧ elfIsLoadable ph = true

theorem Segment.checked {ph : ProgramHeader} (h : Segment bytes size ph) {span span' : Word × Word}
    (ok : checkSegments (some bytes) size (List.range (readHeader bytes).phnum.toNat) span =
      .ok span') : Checked size ph := by
  obtain ⟨i, found, loadable⟩ := h
  have lt : i < (readHeader bytes).phnum := by
    rw [elfGetProgramHeader] at found
    dsimp only at found
    split_ifs at found with invalid outside
    exact BitVec.not_le.mp outside
  have mem := List.mem_range.mpr (BitVec.lt_def.mp lt)
  refine checkSegments_checked ok i.toNat mem ph ?_ loadable
  rwa [BitVec.ofNat_toNat, BitVec.setWidth_eq]

def HeaderByte (bytes : Bytes) (i : Word) : Prop := i.toNat < 64 ∨
  (readHeader bytes).phoff.toNat ≤ i.toNat ∧
    i.toNat < (readHeader bytes).phoff.toNat+(readHeader bytes).phnum.toNat*56

theorem HeaderByte.lt (small : size.toNat < 2^63) (valid : elfValidate (some bytes) size = 0)
    {i : Word} (mem : HeaderByte bytes i) : i.toNat < size.toNat := by
  obtain ⟨-, range⟩ := elfValidate_inside small valid
  have long := elfValidate_long valid
  rcases mem with lt | ⟨-, lt⟩
  · omega
  · omega

variable {bytes' : Bytes}

theorem readHeader_congr (same : ∀ i : Word, i.toNat < 64 → bytes' i = bytes i) :
    readHeader bytes' = readHeader bytes := by
  have word (a : Word) (lt : a.toNat+8 ≤ 64) : load64 bytes' a = load64 bytes a := by
    refine congrArg (BitVec.ofNat 64) (load_congr fun i small => same _ ?_)
    rw [BitVec.toNat_add, BitVec.toNat_ofNat]
    omega
  have half (a : Word) (lt : a.toNat+2 ≤ 64) : load16 bytes' a = load16 bytes a := by
    refine congrArg (BitVec.ofNat 16) (load_congr fun i small => same _ ?_)
    rw [BitVec.toNat_add, BitVec.toNat_ofNat]
    omega
  rw [readHeader, readHeader, same 0 (by decide), same 1 (by decide), same 2 (by decide),
    same 3 (by decide), same 4 (by decide), same 5 (by decide), half 16 (by decide),
    half 18 (by decide), word 24 (by decide), word 32 (by decide), half 54 (by decide),
    half 56 (by decide)]

theorem elfValidate_congr (same : ∀ i : Word, i.toNat < 64 → bytes' i = bytes i) :
    elfValidate (some bytes') size = elfValidate (some bytes) size := by
  rw [elfValidate, elfValidate, readHeader_congr same]

theorem readProgramHeader_congr {a : Word} (low : a.toNat+56 < 2^64)
    (same : ∀ i : Word, a.toNat ≤ i.toNat → i.toNat < a.toNat+56 → bytes' i = bytes i) :
    readProgramHeader bytes' a = readProgramHeader bytes a := by
  have part (offset : Word) (n i : ℕ) (lt : offset.toNat+n ≤ 56) (small : i < n) :
      bytes' (a + offset + BitVec.ofNat 64 i) = bytes (a + offset + BitVec.ofNat 64 i) := by
    refine same _ ?_ ?_
    all_goals
      rw [BitVec.toNat_add, BitVec.toNat_add, BitVec.toNat_ofNat]
      omega
  have word (offset : Word) (lt : offset.toNat+8 ≤ 56) :
      load64 bytes' (a + offset) = load64 bytes (a + offset) :=
    congrArg (BitVec.ofNat 64) (load_congr fun i small => part offset 8 i lt small)
  have half (offset : Word) (lt : offset.toNat+4 ≤ 56) :
      load32 bytes' (a + offset) = load32 bytes (a + offset) :=
    congrArg (BitVec.ofNat 32) (load_congr fun i small => part offset 4 i lt small)
  have type := half 0 (by decide)
  rw [show a + 0 = a from BitVec.add_zero a] at type
  rw [readProgramHeader, readProgramHeader, type, half 4 (by decide), word 8 (by decide),
    word 16 (by decide), word 32 (by decide), word 40 (by decide)]

/-- The program headers depend on the headers of the file only. -/
theorem elfGetProgramHeader_congr (small : size.toNat < 2^63)
    (valid : elfValidate (some bytes) size = 0)
    (same : ∀ i, HeaderByte bytes i → bytes' i = bytes i) (index : BitVec 16) :
    elfGetProgramHeader (some bytes') size index = elfGetProgramHeader (some bytes) size index := by
  have header : ∀ i : Word, i.toNat < 64 → bytes' i = bytes i := fun i lt => same i (.inl lt)
  obtain ⟨entrySize, range⟩ := elfValidate_inside small valid
  rw [elfGetProgramHeader, elfGetProgramHeader, elfValidate_congr header, readHeader_congr header]
  dsimp only
  rw [if_neg (not_not.mpr valid), if_neg (not_not.mpr valid)]
  by_cases outside : (readHeader bytes).phnum ≤ index
  · rw [if_pos outside, if_pos outside]
  rw [if_neg outside, if_neg outside]
  have lt := BitVec.lt_def.mp (BitVec.not_le.mp outside)
  have entryWord : ((readHeader bytes).phentsize.setWidth 64 : Word).toNat = 56 := by
    rw [BitVec.toNat_setWidth, entrySize]
  have address : ((readHeader bytes).phoff +
      index.setWidth 64*(readHeader bytes).phentsize.setWidth 64).toNat =
        (readHeader bytes).phoff.toNat+index.toNat*56 := by
    rw [BitVec.toNat_add, BitVec.toNat_mul, entryWord, BitVec.toNat_setWidth]
    omega
  refine congrArg Except.ok (readProgramHeader_congr (by rw [address]; omega) fun i le below => ?_)
  rw [address] at le below
  exact same i (.inr ⟨by omega, by omega⟩)

end TinyOS.Elf
