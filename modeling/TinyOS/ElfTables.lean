import TinyOS.ElfBounds

set_option autoImplicit false

namespace TinyOS.Elf
open Memory Riru

variable {bytes : Bytes} {size : Word}

/-- What both programs check first: a header of 64 bytes, of an ELF64 file for x86-64, with the
supported entry size. -/
structure X64File (bytes : Bytes) (size : Word) : Prop where
  header : 64 ≤ size.toNat
  ident : (readElfHeader bytes).ident = elfMagic
  machine : (readElfHeader bytes).machine = 62
  entrySize : (readElfHeader bytes).phentsize = 56

/-- `main` of the packer goes on: `ph_end > elf_size` does not hold. -/
def packTable (bytes : Bytes) (size : Word) : Bool :=
  let header := readElfHeader bytes
  !(size < header.phoff + header.phnum.setWidth 64*header.phentsize.setWidth 64)

/-- `elf_validate` goes on: neither `e_phoff > size` nor `ph_end > size` holds. -/
def validateTable (bytes : Bytes) (size : Word) : Bool :=
  let header := readHeader bytes
  !(size < header.phoff) &&
    !(size < header.phoff + header.phnum.setWidth 64*header.phentsize.setWidth 64)

theorem packSegments_table (file : X64File bytes size) : packSegments bytes size =
    if packTable bytes size then
      match Riru.checkSegments size (programHeaders bytes) uint64Max with
      | none => none
      | some first =>
        if first = uint64Max then none
        else
          let s := (programHeaders bytes).foldl (classify first)
            ⟨noSegment, noSegment, noSegment, 0⟩
          if !s.code.found then none else some s
    else none := by
  have long : ¬size < 64 := by
    rw [BitVec.lt_def, not_lt]
    exact file.header
  rw [packSegments, packTable]
  dsimp only
  rw [if_neg long, if_neg (not_not.mpr file.ident), if_neg (not_not.mpr file.machine),
    if_neg (not_not.mpr file.entrySize)]
  by_cases outside : size < (readElfHeader bytes).phoff +
      (readElfHeader bytes).phnum.setWidth 64*(readElfHeader bytes).phentsize.setWidth 64
  · rw [if_pos outside, decide_eq_true outside, Bool.not_true, if_neg Bool.false_ne_true]
  · rw [decide_eq_false outside, Bool.not_false, if_pos rfl]
    exact if_neg outside

theorem ident_prefix (file : X64File bytes size) :
    elfCheckMagic (readHeader bytes).ident = true ∧
      (readHeader bytes).ident.getD 4 0 = elfClass64 := by
  obtain ⟨h₀, h₁, h₂, h₃, h₄⟩ : bytes 0 = 0x7F ∧ bytes 1 = 0x45 ∧ bytes 2 = 0x4C ∧
      bytes 3 = 0x46 ∧ bytes 4 = 2 := by
    have ident := file.ident
    simpa only [readElfHeader, elfMagic, List.cons.injEq, and_true] using ident
  constructor
  · simp only [elfCheckMagic, readHeader, h₀, h₁, h₂, h₃, List.take_succ_cons, List.take_zero,
      beq_self_eq_true]
  · exact h₄

/-- For a little-endian program the codes of `elf_validate` tell of its check. -/
theorem elfValidate_table (file : X64File bytes size)
    (data : (readHeader bytes).ident.getD 5 0 = elfData2Lsb)
    (type : (readHeader bytes).type = etExec ∨ (readHeader bytes).type = etDyn) :
    elfValidate (some bytes) size = -9 ∨ elfValidate (some bytes) size = -10 ↔
      validateTable bytes size = false := by
  have long : ¬size < 64 := by
    rw [BitVec.lt_def, not_lt]
    exact file.header
  obtain ⟨magic, class64⟩ := ident_prefix file
  have machine : (readHeader bytes).machine = emX8664 := file.machine
  have entrySize : (readHeader bytes).phentsize = 56 := file.entrySize
  rw [elfValidate, validateTable]
  rw [if_neg long, if_neg (by rw [magic]; decide), if_neg (not_not.mpr class64),
    if_neg (not_not.mpr data), if_neg (not_not.mpr machine),
    if_neg (by rw [not_and_or, not_not, not_not]; exact type), if_neg (not_not.mpr entrySize)]
  by_cases offset : size < (readHeader bytes).phoff
  · rw [if_pos offset, decide_eq_true offset, Bool.not_true, Bool.false_and]
    decide
  rw [if_neg offset, decide_eq_false offset]
  by_cases stop : size < (readHeader bytes).phoff +
      (readHeader bytes).phnum.setWidth 64*(readHeader bytes).phentsize.setWidth 64
  · rw [if_pos stop, decide_eq_true stop]
    decide
  · rw [if_neg stop, decide_eq_false stop]
    split_ifs
    · decide
    · decide

/-- The two checks agree, and the table that the packer accepts lies in the file. -/
structure TablesAgree (bytes : Bytes) (size : Word) : Prop where
  checks : packTable bytes size = validateTable bytes size
  inside : packTable bytes size = true → ∀ i < (readElfHeader bytes).phnum.toNat,
    ((readElfHeader bytes).phoff + BitVec.ofNat 64 (56*i)).toNat+56 ≤ size.toNat

def tableEnd (bytes : Bytes) : ℕ :=
  (readElfHeader bytes).phoff.toNat+56*(readElfHeader bytes).phnum.toNat

theorem tableEnd_wraps (file : X64File bytes size) :
    ((readElfHeader bytes).phoff + (readElfHeader bytes).phnum.setWidth 64*
      (readElfHeader bytes).phentsize.setWidth 64).toNat = tableEnd bytes%2^64 := by
  have count := (readElfHeader bytes).phnum.isLt
  rw [file.entrySize, BitVec.toNat_add, BitVec.toNat_mul, BitVec.toNat_setWidth,
    BitVec.toNat_setWidth, show (56 : BitVec 16).toNat = 56 from rfl, tableEnd]
  omega

theorem packTable_iff (file : X64File bytes size) :
    packTable bytes size = true ↔ tableEnd bytes%2^64 ≤ size.toNat := by
  rw [packTable, Bool.not_eq_true', decide_eq_false_iff_not, BitVec.lt_def, not_lt,
    tableEnd_wraps file]

theorem validateTable_iff (file : X64File bytes size) : validateTable bytes size = true ↔
    (readElfHeader bytes).phoff.toNat ≤ size.toNat ∧ tableEnd bytes%2^64 ≤ size.toNat := by
  rw [← tableEnd_wraps file, validateTable, Bool.and_eq_true, Bool.not_eq_true',
    Bool.not_eq_true', decide_eq_false_iff_not, decide_eq_false_iff_not, BitVec.lt_def, not_lt,
    BitVec.lt_def, not_lt]
  exact Iff.rfl

/-- One of the headers of a table that reaches 2^64 runs past every file. -/
theorem table_outside (size : Word) (wraps : 2^64 ≤ tableEnd bytes) :
    ∃ i < (readElfHeader bytes).phnum.toNat,
      size.toNat < ((readElfHeader bytes).phoff + BitVec.ofNat 64 (56*i)).toNat+56 := by
  have start := (readElfHeader bytes).phoff.isLt
  have bound := size.isLt
  rw [tableEnd] at wraps
  refine ⟨(2^64-1-(readElfHeader bytes).phoff.toNat)/56, by omega, ?_⟩
  rw [BitVec.toNat_add, BitVec.toNat_ofNat]
  omega

/-- The two checks agree, and keep the table in the file, exactly when the end of the table does
not reach 2^64 or is beyond 2^64 by more than the size of the file. -/
theorem tables_agree_iff (file : X64File bytes size) : TablesAgree bytes size ↔
    tableEnd bytes < 2^64 ∨ 2^64+size.toNat < tableEnd bytes := by
  have start := (readElfHeader bytes).phoff.isLt
  have count := (readElfHeader bytes).phnum.isLt
  have pack := packTable_iff file
  have validate := validateTable_iff file
  constructor
  · intro agree
    by_contra neither
    rw [not_or, not_lt, not_lt] at neither
    obtain ⟨wraps, near⟩ := neither
    have accepted : packTable bytes size = true := by
      rw [pack]
      rw [tableEnd] at *
      omega
    obtain ⟨i, lt, outside⟩ := table_outside size wraps
    exact absurd (agree.inside accepted i lt) (Nat.not_le.mpr outside)
  · rintro (plain | far)
    · rw [Nat.mod_eq_of_lt plain] at pack validate
      constructor
      · rw [Bool.eq_iff_iff, pack, validate, tableEnd]
        omega
      · intro accepted i lt
        have le := pack.mp accepted
        rw [tableEnd] at le
        rw [BitVec.toNat_add, BitVec.toNat_ofNat]
        omega
    · have rejected : ¬tableEnd bytes%2^64 ≤ size.toNat := by
        rw [tableEnd] at *
        omega
      constructor
      · rw [Bool.eq_iff_iff, pack, validate]
        exact ⟨fun le => absurd le rejected, fun both => absurd both.2 rejected⟩
      · exact fun accepted => absurd (pack.mp accepted) rejected

def wrappedElf : Bytes := fun a =>
  ([0x7F, 0x45, 0x4C, 0x46, 2, 1, 1, 0, 0, 0, 0, 0, 0, 0, 0, 0, 2, 0, 62, 0, 1, 0, 0, 0,
    0, 0, 0x40, 0, 0, 0, 0, 0, 0xC8, 0xFF, 0xFF, 0xFF, 0xFF, 0xFF, 0xFF, 0xFF,
    0, 0, 0, 0, 0, 0, 0, 0, 0, 0, 0, 0, 64, 0, 56, 0, 1, 0] : List (BitVec 8)).getD a.toNat 0

theorem wrappedElf_file : X64File wrappedElf 64 :=
  ⟨by decide, by decide +kernel, by decide +kernel, by decide +kernel⟩

theorem tables_disagree : ¬∀ (bytes : Bytes) (size : Word), X64File bytes size →
    TablesAgree bytes size := by
  intro all
  have accepted : packTable wrappedElf 64 = true := by decide +kernel
  have refused : validateTable wrappedElf 64 = false := by decide +kernel
  have same := (all wrappedElf 64 wrappedElf_file).checks
  rw [accepted, refused] at same
  exact Bool.noConfusion same

theorem smallElf_file : X64File smallElf 122 :=
  ⟨by decide, by decide +kernel, by decide +kernel, by decide +kernel⟩

theorem tables_agree_small : TablesAgree smallElf 122 :=
  (tables_agree_iff smallElf_file).mpr (.inl (by decide +kernel))

end TinyOS.Elf
