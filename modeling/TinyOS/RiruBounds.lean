import TinyOS.EventLogs
import TinyOS.Riru

set_option autoImplicit false

namespace TinyOS.Riru
open EventLogs Memory

abbrev ReadM := LogM Bytes Access

def fetch8 (a : Word) : ReadM (BitVec 8) := fetch ⟨a, 1⟩ fun file => file a

def fetch16 (a : Word) : ReadM (BitVec 16) := fetch ⟨a, 2⟩ fun file => load16 file a

def fetch64 (a : Word) : ReadM Word := fetch ⟨a, 8⟩ fun file => load64 file a

/-- `riru_check_magic`, one byte after the other. -/
def riruCheckMagicLog : ReadM Bool := do
  if (← fetch8 0) ≠ 0x52 then return false
  if (← fetch8 1) ≠ 0x49 then return false
  if (← fetch8 2) ≠ 0x52 then return false
  return (← fetch8 3) = 0x55

/-- `range_valid` on the fields of a section. -/
def rangeValidLog (f : SectionFields) : ReadM Bool := do
  return rangeValid (← fetch64 f.offset) (← fetch64 f.size) (← fetch64 112)

def unloadedLog (f : SectionFields) : ReadM Bool := do
  if (← fetch64 f.size) = 0 then return false
  return (← fetch64 f.vaddr) = 0

/-- `riru_validate` on a buffer, with its reads. -/
def riruValidateLog (size : Word) : ReadM ℤ := do
  if size < riruHeaderSize then return -2
  if !(← riruCheckMagicLog) then return -3
  if (← fetch16 4) ≠ riruVersion then return -4
  if (← fetch16 6) ≠ riruArchX8664 then return -5
  if (← fetch16 8) ≠ riruTypeExecutable then return -6
  if size < (← fetch64 112) then return -7
  if (← fetch64 112) < riruHeaderSize then return -8
  if !(← rangeValidLog codeFields) then return -9
  if !(← rangeValidLog rodataFields) then return -10
  if !(← rangeValidLog dataFields) then return -11
  if (← fetch64 16) = 0 then return -12
  if (← unloadedLog codeFields) then return -13
  if (← unloadedLog rodataFields) then return -14
  if (← unloadedLog dataFields) then return -15
  return 0

def sectionLog (f : SectionFields) : ReadM (Option Word) := do
  if (← fetch64 f.size) = 0 then return none
  return some (← fetch64 f.offset)

/-- `riru_parse` on a buffer, with its reads. -/
def riruParseLog (size : Word) : ReadM (Except ℤ RiruImage) := do
  let result ← riruValidateLog size
  if result ≠ 0 then return .error result
  let file ← silent get
  let code ← sectionLog codeFields
  let rodata ← sectionLog rodataFields
  let data ← sectionLog dataFields
  let codeVaddr ← fetch64 codeFields.vaddr
  let rodataVaddr ← fetch64 rodataFields.vaddr
  let dataVaddr ← fetch64 dataFields.vaddr
  let entry ← fetch64 16
  return .ok ⟨file, readHeader file, code, rodata, data, codeVaddr, rodataVaddr, dataVaddr, entry⟩

variable {file : Bytes} {size : Word}

theorem riruCheckMagicLog_reads : Reads riruCheckMagicLog fun file =>
    decide ([file 0, file 1, file 2, file 3] = riruMagic) := by
  have bytes : Reads riruCheckMagicLog _ := .check (.fetch _ _) <| .check (.fetch _ _) <|
    .check (.fetch _ _) <| .bind (.fetch _ _) fun _ => .pure _
  convert bytes using 2 with file
  simp only [riruMagic, List.cons.injEq, and_true, ne_eq]
  split_ifs with h₀ h₁ h₂
  · exact decide_eq_decide.mpr ⟨fun h => h.2.2.2, fun h => ⟨h₀, h₁, h₂, h⟩⟩
  · exact decide_eq_false fun h => h₂ h.2.2.1
  · exact decide_eq_false fun h => h₁ h.2.1
  · exact decide_eq_false fun h => h₀ h.1

theorem rangeValidLog_reads (f : SectionFields) : Reads (rangeValidLog f) fun file =>
    rangeValid (load64 file f.offset) (load64 file f.size) (load64 file 112) := by
  have fields : Reads (rangeValidLog f) _ := .bind (.fetch _ _) fun _ =>
    .bind (.fetch _ _) fun _ => .bind (.fetch _ _) fun _ => .pure _
  exact fields

theorem unloadedLog_reads (f : SectionFields) : Reads (unloadedLog f) fun file =>
    decide (load64 file f.size ≠ 0 ∧ load64 file f.vaddr = 0) := by
  have fields : Reads (unloadedLog f) _ :=
    .check (.fetch _ _) <| .bind (.fetch _ _) fun _ => .pure _
  convert fields using 2 with file
  split_ifs with h
  · exact decide_eq_false fun h' => h'.1 h
  · exact decide_eq_decide.mpr ⟨fun h' => h'.2, fun h' => ⟨h, h'⟩⟩

theorem riruValidateLog_reads (size : Word) :
    Reads (riruValidateLog size) fun file => riruValidate (some file) size := by
  have checks : Reads (riruValidateLog size) _ := .ite (.pure _) <|
    .check riruCheckMagicLog_reads <| .check (.fetch _ _) <| .check (.fetch _ _) <|
    .check (.fetch _ _) <| .check (.fetch _ _) <| .check (.fetch _ _) <|
    .check (rangeValidLog_reads codeFields) <| .check (rangeValidLog_reads rodataFields) <|
    .check (rangeValidLog_reads dataFields) <| .check (.fetch _ _) <|
    .check (unloadedLog_reads codeFields) <| .check (unloadedLog_reads rodataFields) <|
    .check (unloadedLog_reads dataFields) <| .pure _
  convert checks using 2 with file
  simp only [riruValidate, readHeader, Bool.not_eq_true', decide_eq_false_iff_not,
    decide_eq_true_eq, ne_eq]
  congr!

theorem sectionLog_reads (f : SectionFields) : Reads (sectionLog f) fun file =>
    sectionAt (load64 file f.size) (load64 file f.offset) := by
  have fields : Reads (sectionLog f) _ :=
    .check (.fetch _ _) <| .bind (.fetch _ _) fun _ => .pure _
  convert fields using 2 with file
  exact ite_not _ _ _

theorem riruParseLog_reads (size : Word) :
    Reads (riruParseLog size) fun file => riruParse (some file) size := by
  have parsed : Reads (riruParseLog size) _ := .bind (riruValidateLog_reads size) fun _ =>
    .ite (.pure _) <| .bind .get fun _ => .bind (sectionLog_reads codeFields) fun _ =>
    .bind (sectionLog_reads rodataFields) fun _ => .bind (sectionLog_reads dataFields) fun _ =>
    .bind (.fetch _ _) fun _ => .bind (.fetch _ _) fun _ => .bind (.fetch _ _) fun _ =>
    .bind (.fetch _ _) fun _ => .pure _
  exact parsed

/-- The bytes lie in a buffer of `size` bytes. -/
def Within (size : Word) (a : Access) : Prop := a.address.toNat+a.count ≤ size.toNat

theorem within_header {a : Access} (le : a.address.toNat+a.count ≤ 120)
    (large : ¬size < riruHeaderSize) : Within size a := by
  rw [BitVec.lt_def, show riruHeaderSize.toNat = 120 from rfl] at large
  rw [Within]
  omega

structure SectionFields.InHeader (f : SectionFields) : Prop where
  offset : f.offset.toNat+8 ≤ 120
  vaddr : f.vaddr.toNat+8 ≤ 120
  size : f.size.toNat+8 ≤ 120

theorem codeFields_inHeader : codeFields.InHeader := ⟨by decide, by decide, by decide⟩

theorem rodataFields_inHeader : rodataFields.InHeader := ⟨by decide, by decide, by decide⟩

theorem dataFields_inHeader : dataFields.InHeader := ⟨by decide, by decide, by decide⟩

section
variable (large : ¬size < riruHeaderSize) {f : SectionFields} (inside : f.InHeader)
include large

theorem fetch_within {α : Type} {a : Access} (le : a.address.toNat+a.count ≤ 120)
    (g : Bytes → α) : Emits (Within size) (fetch a g) :=
  .fetch (within_header le large) g

theorem riruCheckMagicLog_within : Emits (Within size) riruCheckMagicLog :=
  .check (fetch_within large (by decide) _) <| .check (fetch_within large (by decide) _) <|
    .check (fetch_within large (by decide) _) <|
    .bind (fetch_within large (by decide) _) fun _ => .pure _

include inside

theorem rangeValidLog_within : Emits (Within size) (rangeValidLog f) :=
  .bind (fetch_within large inside.offset _) fun _ => .bind (fetch_within large inside.size _)
    fun _ => .bind (fetch_within large (by decide) _) fun _ => .pure _

theorem unloadedLog_within : Emits (Within size) (unloadedLog f) :=
  .check (fetch_within large inside.size _) <|
    .bind (fetch_within large inside.vaddr _) fun _ => .pure _

theorem sectionLog_within : Emits (Within size) (sectionLog f) :=
  .check (fetch_within large inside.size _) <|
    .bind (fetch_within large inside.offset _) fun _ => .pure _

end

theorem riruValidateLog_within (size : Word) :
    Emits (Within size) (riruValidateLog size) :=
  .ite (fun _ => .pure _) fun large => .check (riruCheckMagicLog_within large) <|
    .check (fetch_within large (by decide) _) <| .check (fetch_within large (by decide) _) <|
    .check (fetch_within large (by decide) _) <| .check (fetch_within large (by decide) _) <|
    .check (fetch_within large (by decide) _) <|
    .check (rangeValidLog_within large codeFields_inHeader) <|
    .check (rangeValidLog_within large rodataFields_inHeader) <|
    .check (rangeValidLog_within large dataFields_inHeader) <|
    .check (fetch_within large (by decide) _) <|
    .check (unloadedLog_within large codeFields_inHeader) <|
    .check (unloadedLog_within large rodataFields_inHeader) <|
    .check (unloadedLog_within large dataFields_inHeader) <| .pure _

theorem rangeValid_iff {offset size fileSize : Word} : rangeValid offset size fileSize = true ↔
    offset.toNat+size.toNat ≤ fileSize.toNat := by
  simp only [rangeValid, BitVec.lt_def]
  split_ifs with h h'
  · simp only [false_iff]
    omega
  · rw [BitVec.toNat_sub_of_le (BitVec.le_def.mpr (by omega))] at h'
    simp only [false_iff]
    omega
  · rw [BitVec.toNat_sub_of_le (BitVec.le_def.mpr (by omega))] at h'
    simp only [true_iff]
    omega

/-- The file range of a section lies in the image, and its bytes have a load address. -/
structure SectionOk (imageSize offset vaddr size : Word) : Prop where
  range : offset.toNat+size.toNat ≤ imageSize.toNat
  loaded : size ≠ 0 → vaddr ≠ 0

structure WellFormed (file : Bytes) (size : Word) : Prop where
  header : 120 ≤ size.toNat
  magic : (readHeader file).magic = riruMagic
  version : (readHeader file).version = riruVersion
  architecture : (readHeader file).architecture = riruArchX8664
  type : (readHeader file).type = riruTypeExecutable
  low : 120 ≤ (readHeader file).imageSize.toNat
  high : (readHeader file).imageSize.toNat ≤ size.toNat
  code : SectionOk (readHeader file).imageSize (readHeader file).codeOffset
    (readHeader file).codeVaddr (readHeader file).codeSize
  rodata : SectionOk (readHeader file).imageSize (readHeader file).rodataOffset
    (readHeader file).rodataVaddr (readHeader file).rodataSize
  data : SectionOk (readHeader file).imageSize (readHeader file).dataOffset
    (readHeader file).dataVaddr (readHeader file).dataSize
  entry : (readHeader file).entry ≠ 0

theorem check_eq_zero {p : Prop} [Decidable p] {c x : ℤ} (h : c ≠ 0) :
    (if p then c else x) = 0 ↔ ¬p ∧ x = 0 := by
  split_ifs with hp
  · exact ⟨fun zero => absurd zero h, fun no => absurd hp no.1⟩
  · exact ⟨fun zero => ⟨hp, zero⟩, fun zero => zero.2⟩

theorem riruValidate_eq_zero : riruValidate (some file) size = 0 ↔ WellFormed file size := by
  have limit : riruHeaderSize.toNat = 120 := rfl
  rw [riruValidate]
  rw [check_eq_zero (by decide), check_eq_zero (by decide), check_eq_zero (by decide),
    check_eq_zero (by decide), check_eq_zero (by decide), check_eq_zero (by decide),
    check_eq_zero (by decide), check_eq_zero (by decide), check_eq_zero (by decide),
    check_eq_zero (by decide), check_eq_zero (by decide), check_eq_zero (by decide),
    check_eq_zero (by decide), check_eq_zero (by decide)]
  simp only [Bool.not_eq_true', Bool.not_eq_false, rangeValid_iff, BitVec.lt_def, limit, not_lt,
    not_and, ne_eq, not_not, and_true]
  constructor
  · rintro ⟨header, magic, version, architecture, type, high, low, code, rodata, data, entry,
      codeLoaded, rodataLoaded, dataLoaded⟩
    exact ⟨header, magic, version, architecture, type, low, high, ⟨code, codeLoaded⟩,
      ⟨rodata, rodataLoaded⟩, ⟨data, dataLoaded⟩, entry⟩
  · intro h
    exact ⟨h.header, h.magic, h.version, h.architecture, h.type, h.high, h.low, h.code.range,
      h.rodata.range, h.data.range, h.entry, h.code.loaded, h.rodata.loaded, h.data.loaded⟩

def RiruImage.ranges (image : RiruImage) : List (Option Word × Word) :=
  [(image.code, image.header.codeSize), (image.rodata, image.header.rodataSize),
    (image.data, image.header.dataSize)]

theorem SectionOk.pointer {imageSize offset vaddr length start : Word}
    (ok : SectionOk imageSize offset vaddr length) (high : imageSize.toNat ≤ size.toNat)
    (given : sectionAt length offset = some start) {i : ℕ} (lt : i < length.toNat) :
    start.toNat+i < size.toNat := by
  rw [sectionAt] at given
  split_ifs at given
  obtain rfl := Option.some.inj given
  have range := ok.range
  omega

structure ParsedFrom (file : Bytes) (size : Word) (image : RiruImage) : Prop where
  accepted : riruValidate (some file) size = 0
  bytes : image.file = file
  header : image.header = readHeader file
  code : image.code = sectionAt image.header.codeSize (readHeader file).codeOffset
  rodata : image.rodata = sectionAt image.header.rodataSize (readHeader file).rodataOffset
  data : image.data = sectionAt image.header.dataSize (readHeader file).dataOffset

theorem riruParse_from {image : RiruImage} (parsed : riruParse (some file) size = .ok image) :
    ParsedFrom file size image := by
  have accepted : riruValidate (some file) size = 0 := by
    by_contra refused
    rw [riruParse, if_pos refused] at parsed
    cases parsed
  have given := Except.ok.inj ((riruParse_ok accepted).symm.trans parsed)
  constructor
  · exact accepted
  all_goals rw [← given]

theorem riruParse_ranges {image : RiruImage} (parsed : riruParse (some file) size = .ok image) :
    ∀ r ∈ image.ranges, ∀ start, r.1 = some start → ∀ i, i < r.2.toNat →
      start.toNat+i < size.toNat := by
  obtain ⟨accepted, -, header, code, rodata, data⟩ := riruParse_from parsed
  have ok := riruValidate_eq_zero.mp accepted
  intro r mem start pointer i lt
  simp only [RiruImage.ranges, List.mem_cons, List.not_mem_nil, or_false] at mem
  rcases mem with rfl | rfl | rfl
  · rw [header] at code lt
    exact ok.code.pointer ok.high (code.symm.trans pointer) lt
  · rw [header] at rodata lt
    exact ok.rodata.pointer ok.high (rodata.symm.trans pointer) lt
  · rw [header] at data lt
    exact ok.data.pointer ok.high (data.symm.trans pointer) lt

/-- The well-formed images are accepted, their sections lie in the buffer, and nothing is read
from a buffer that is too short for a header. -/
theorem riruValidate_accepts (file : Bytes) (size : Word) :
    (riruValidate (some file) size = 0 ↔ WellFormed file size) ∧
    (∀ image, riruParse (some file) size = .ok image →
      ∀ r ∈ image.ranges, ∀ start, r.1 = some start → ∀ i, i < r.2.toNat →
        start.toNat+i < size.toNat) ∧
    (size < riruHeaderSize →
      (riruValidateLog size).run (file, []) = (riruValidate (some file) size, file, []) ∧
      (riruParseLog size).run (file, []) = (riruParse (some file) size, file, [])) := by
  refine ⟨riruValidate_eq_zero, fun _ => riruParse_ranges, fun short => ?_⟩
  have validate : riruValidate (some file) size = -2 := by
    rw [riruValidate, if_pos short]
  have validateLog : riruValidateLog size = pure (-2) := by
    rw [riruValidateLog, if_pos short]
  constructor
  · rw [validateLog, validate]
    rfl
  · rw [riruParseLog, validateLog, riruParse, validate]
    rfl

end TinyOS.Riru
