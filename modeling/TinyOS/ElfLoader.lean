import TinyOS.Interrupts
import TinyOS.RiruEvents
import TinyOS.RiruPack

set_option autoImplicit false

/-! The loader of ELF programs (elf/elf.c, elf/loader.c), with a log of the addresses it maps,
copies from and stores to. -/
namespace TinyOS.Elf
open EventLogs Memory Riru

/-- The fields of `elf64_header_t` that are read. -/
structure Elf64Header where
  ident : List (BitVec 8)
  type : BitVec 16
  machine : BitVec 16
  entry : Word
  phoff : Word
  phentsize : BitVec 16
  phnum : BitVec 16

/-- `(const elf64_header_t *)file` -/
def readHeader (file : Bytes) : Elf64Header where
  ident := [file 0, file 1, file 2, file 3, file 4, file 5]
  type := load16 file 16
  machine := load16 file 18
  entry := load64 file 24
  phoff := load64 file 32
  phentsize := load16 file 54
  phnum := load16 file 56

abbrev elfClass64 : BitVec 8 := 2
abbrev elfData2Lsb : BitVec 8 := 1
abbrev emX8664 : BitVec 16 := 62
abbrev etExec : BitVec 16 := 2
abbrev etDyn : BitVec 16 := 3

def elfCheckMagic (ident : List (BitVec 8)) : Bool := ident.take 4 == [0x7F, 0x45, 0x4C, 0x46]

/-- `none` is the null pointer. -/
def elfValidate (file : Option Bytes) (size : Word) : ℤ :=
  match file with
  | none => -1
  | some file =>
    let header := readHeader file
    if size < 64 then -2
    else if !elfCheckMagic header.ident then -3
    else if header.ident.getD 4 0 ≠ elfClass64 then -4
    else if header.ident.getD 5 0 ≠ elfData2Lsb then -5
    else if header.machine ≠ emX8664 then -6
    else if header.type ≠ etExec ∧ header.type ≠ etDyn then -7
    else if header.phentsize ≠ 56 then -8
    else if size < header.phoff then -9
    else if size < header.phoff + header.phnum.setWidth 64*header.phentsize.setWidth 64 then -10
    else if header.entry = 0 then -11
    else 0

def elfGetHeader (file : Option Bytes) (size : Word) : Except ℤ Elf64Header :=
  match file with
  | none => .error (-2)
  | some bytes => if elfValidate file size ≠ 0 then .error (-2) else .ok (readHeader bytes)

def elfGetProgramHeader (file : Option Bytes) (size : Word) (index : BitVec 16) :
    Except ℤ ProgramHeader :=
  match file with
  | none => .error (-2)
  | some bytes =>
    if elfValidate file size ≠ 0 then .error (-2)
    else
      let elf := readHeader bytes
      if elf.phnum ≤ index then .error (-3)
      else .ok (readProgramHeader bytes
        (elf.phoff + index.setWidth 64*elf.phentsize.setWidth 64))

def elfIsLoadable (ph : ProgramHeader) : Bool := ph.type = ptLoad

/-- `USER_MIN_ADDRESS` and `USER_MAX_ADDRESS` are `RIRU_USER_MIN` and `RIRU_USER_MAX`. -/
def rangeValid (start size : Word) : Bool :=
  if size = 0 then true
  else if start < userMin then false
  else if userMax < start then false
  else if userMax - start < size then false
  else true

/-- `image_base` and `image_end` widened by a segment. -/
def widen (span : Word × Word) (ph : ProgramHeader) : Word × Word :=
  let start := alignDown ph.vaddr
  let stop := alignUp (ph.vaddr + ph.memsz)
  (if start < span.1 then start else span.1, if span.2 < stop then stop else span.2)

def checkSegment (file : Option Bytes) (size : Word) (span : Word × Word) (i : ℕ) :
    Except ℤ (Word × Word) :=
  match elfGetProgramHeader file size (BitVec.ofNat 16 i) with
  | .error _ => .error (-3)
  | .ok ph =>
    if !elfIsLoadable ph then .ok span
    else if ph.memsz < ph.filesz then .error (-4)
    else if size < ph.offset then .error (-5)
    else if size - ph.offset < ph.filesz then .error (-6)
    else if !rangeValid ph.vaddr ph.memsz then .error (-7)
    else .ok (widen span ph)

def checkSegments (file : Option Bytes) (size : Word) (l : List ℕ) (span : Word × Word) :
    Except ℤ (Word × Word) := l.foldlM (checkSegment file size) span

/-- A call of `vmm_map_page` with `PAGE_USER`, a read of a source byte, or a store of a segment
byte or a zero. -/
inductive ElfEvent where
  | mapped (va : Word)
  | copied (a : Word)
  | stored (va : Word)

abbrev ElfM := LogM Kernel ElfEvent

def vmmGetPhysical (va : Word) : KernelM Word := fun k =>
  (getPhysicalFrom k.memory k.currentPml4 va, k)

def vmmMapPage (va pa flags : Word) : KernelM ℤ := fun k =>
  (mapPageIn k.currentPml4 va pa flags).run k

def mapPages : List Word → ElfM ℤ
  | [] => return 0
  | va :: rest => do
    let existing ← silent (vmmGetPhysical va)
    if existing ≠ 0 then mapPages rest
    else
      let physical ← silent allocPage
      if physical = 0 then return -11
      emit fun _ => .mapped va
      let result ← silent (vmmMapPage va physical (pageWritable ||| pageUser))
      if result ≠ 0 then
        silent (freePage physical)
        return -12
      mapPages rest

/-- `false` when a page fault stops the machine. -/
def store (va : Word) (v : BitVec 8) : ElfM Bool := do
  emit fun _ => .stored va
  silent (storeVirtual va v)

/-- The loop that copies; `false` when a page fault stops the machine. -/
def copyBytes (destination source : Word) : List ℕ → ElfM Bool
  | [] => return true
  | j :: rest => do
    emit fun _ => .copied (source + BitVec.ofNat 64 j)
    let k ← silent get
    match k.loadByte (source + BitVec.ofNat 64 j) with
    | none => return false
    | some v => do
      let stored ← store (destination + BitVec.ofNat 64 j) v
      if !stored then return false
      copyBytes destination source rest

def zeroBytes (destination : Word) : List ℕ → ElfM Bool
  | [] => return true
  | j :: rest => do
    let stored ← store (destination + BitVec.ofNat 64 j) 0
    if !stored then return false
    zeroBytes destination rest

def segmentPages (ph : ProgramHeader) : List Word :=
  let start := alignDown ph.vaddr
  let stop := alignUp (ph.vaddr + ph.memsz)
  (List.range ((stop - start)/pageSize).toNat).map fun page =>
    start + BitVec.ofNat 64 page*pageSize

/-- `none` when a page fault stops the machine. -/
def loadSegment (file : Word) (ph : ProgramHeader) : ElfM (Option ℤ) := do
  let result ← mapPages (segmentPages ph)
  if result ≠ 0 then return some result
  let copied ← copyBytes ph.vaddr (file + ph.offset) (List.range ph.filesz.toNat)
  if !copied then return none
  let zeroed ← zeroBytes ph.vaddr
    (List.range' ph.filesz.toNat (ph.memsz.toNat-ph.filesz.toNat))
  return if zeroed then some 0 else none

def readable (k : Kernel) (a : Word) (n : ℕ) : Bool :=
  (List.range n).all fun j => k.present k.cr3 (a + BitVec.ofNat 64 j)

/-- What `elf_get_program_header` returns at this moment, when the file may have been stored to;
`none` when a page fault stops the machine. -/
def programHeaderAt (k : Kernel) (file size : Word) (i : BitVec 16) :
    Option (Except ℤ ProgramHeader) :=
  let bytes : Bytes := fun a => k.byteAt (k.physical (file + a))
  if !readable k file 64 then none
  else
    match elfGetProgramHeader (some bytes) size i with
    | .error code => some (.error code)
    | .ok ph =>
      let elf := readHeader bytes
      if readable k (file + (elf.phoff + i.setWidth 64*elf.phentsize.setWidth 64)) 56 then
        some (.ok ph)
      else none

def loadSegments (file size : Word) : List ℕ → ElfM (Option ℤ)
  | [] => return some 0
  | i :: rest => do
    let k ← silent get
    match programHeaderAt k file size (BitVec.ofNat 16 i) with
    | none => return none
    | some (.error _) => return some (-10)
    | some (.ok ph) =>
      if !elfIsLoadable ph then loadSegments file size rest
      else
        let result ← loadSegment file ph
        if result ≠ some 0 then return result
        loadSegments file size rest

structure ElfLoadResult where
  entry : Word
  imageBase : Word
  imageEnd : Word
  pages : Word

/-- How a load ends: not at all, with an error code, or with 0 and a result. -/
inductive ElfOutcome where
  | halted
  | failed (code : ℤ)
  | loaded (result : ElfLoadResult)

def endLoad (entry base stop : Word) : Option ℤ → ElfOutcome
  | none => .halted
  | some code =>
    if code ≠ 0 then .failed code
    else if entry < base ∨ stop ≤ entry then .failed (-13)
    else .loaded ⟨entry, base, stop, (stop - base)/pageSize⟩

def elfLoad (file size : Word) : ElfM ElfOutcome := do
  let k ← silent get
  let bytes := k.fileAt file
  if file = 0 then return .failed (-1)
  else if elfValidate bytes size ≠ 0 then return .failed (elfValidate bytes size)
  else
    match elfGetHeader bytes size with
    | .error _ => return .failed (-2)
    | .ok elf =>
      match checkSegments bytes size (List.range elf.phnum.toNat) (uint64Max, 0) with
      | .error code => return .failed code
      | .ok (base, stop) =>
        if base = uint64Max then return .failed (-8)
        else if (stop - base)/pageSize = 0 then return .failed (-9)
        else do
          let result ← loadSegments file size (List.range elf.phnum.toNat)
          return endLoad elf.entry base stop result

variable {file : Option Bytes} {bytes : Bytes} {size : Word} {span span' : Word × Word}
  {ph : ProgramHeader}

structure Inside (ph : ProgramHeader) : Prop where
  low : 0x400000 ≤ ph.vaddr.toNat
  high : ph.vaddr.toNat+ph.memsz.toNat ≤ 0x40000000
  file : ph.filesz.toNat ≤ ph.memsz.toNat

def ZeroSizedInside (file : Option Bytes) (size : Word) : Prop :=
  ∀ i ph, elfGetProgramHeader file size i = .ok ph → elfIsLoadable ph = true → ph.memsz = 0 →
    userMin ≤ ph.vaddr ∧ ph.vaddr ≤ userMax

/-- Letting `USER_MAX_ADDRESS` itself through makes no difference: nothing fits there. -/
theorem rangeValid_eq (start size : Word) : rangeValid start size = validRange start size := by
  rw [rangeValid, validRange]
  by_cases zero : size = 0
  · rw [if_pos zero, if_pos zero]
  rw [if_neg zero, if_neg zero]
  by_cases low : start < userMin
  · rw [if_pos low, if_pos low]
  rw [if_neg low, if_neg low]
  by_cases edge : start = userMax
  · have pos : userMax - start < size := by
      rw [edge, BitVec.sub_self, BitVec.lt_def]
      exact Nat.pos_of_ne_zero fun h => zero (BitVec.eq_of_toNat_eq h)
    rw [if_pos pos, ite_self, if_pos (BitVec.le_of_eq edge.symm)]
  · have same : userMax < start ↔ userMax ≤ start := by
      have ne := mt BitVec.eq_of_toNat_eq edge
      rw [BitVec.lt_def, BitVec.le_def]
      omega
    rw [if_congr same rfl rfl]

theorem rangeValid_iff {start size : Word} : rangeValid start size = true ↔ size = 0 ∨
    0x400000 ≤ start.toNat ∧ start.toNat+size.toNat ≤ 0x40000000 := by
  rw [rangeValid_eq]
  exact validRange_iff

/-- The three checks of a user range are one predicate. -/
theorem user_ranges_agree (address size : Word) :
    userRangeValid address size = validRange address size ∧
    rangeValid address size = validRange address size ∧
    (validRange address size = true ↔ size = 0 ∨
      0x400000 ≤ address.toNat ∧ address.toNat+size.toNat ≤ 0x40000000) :=
  ⟨rfl, rangeValid_eq address size, validRange_iff⟩

/-- What a segment that passes the checks of the first loop does to the span. -/
theorem checkSegment_ok {i : ℕ} (inside : ZeroSizedInside file size)
    (ok : checkSegment file size span i = .ok span')
    (found : elfGetProgramHeader file size (BitVec.ofNat 16 i) = .ok ph) :
    (elfIsLoadable ph = false ∧ span' = span) ∨ Inside ph ∧ span' = widen span ph := by
  rw [checkSegment, found] at ok
  dsimp only at ok
  cases loadable : elfIsLoadable ph with
  | false =>
    rw [loadable] at ok
    exact .inl ⟨rfl, (Except.ok.inj ok).symm⟩
  | true =>
    rw [loadable, if_neg (by decide)] at ok
    split_ifs at ok with short _ _ valid
    rw [BitVec.lt_def, not_lt] at short
    have range : rangeValid ph.vaddr ph.memsz = true := by simpa using valid
    refine .inr ⟨?_, (Except.ok.inj ok).symm⟩
    rcases rangeValid_iff.mp range with zero | ⟨low, high⟩
    · have window : userMin.toNat = 0x400000 ∧ userMax.toNat = 0x40000000 := by decide
      obtain ⟨low, high⟩ := inside _ ph found loadable zero
      rw [BitVec.le_def, window.1] at low
      rw [BitVec.le_def, window.2] at high
      have none : ph.memsz.toNat = 0 := by
        rw [zero]
        rfl
      exact ⟨low, by omega, short⟩
    · exact ⟨low, high, short⟩

def SpanInside (span : Word × Word) : Prop := span = (uint64Max, 0) ∨
  0x400000 ≤ span.1.toNat ∧ span.1.toNat ≤ span.2.toNat ∧ span.2.toNat ≤ 0x40000000

/-- The pages of a segment, rounded outwards, lie in the user window. -/
theorem Inside.pages (h : Inside ph) : (alignDown ph.vaddr).toNat = ph.vaddr.toNat/4096*4096 ∧
    (alignUp (ph.vaddr + ph.memsz)).toNat = (ph.vaddr.toNat+ph.memsz.toNat+4095)/4096*4096 := by
  have high := h.high
  have sum : (ph.vaddr + ph.memsz).toNat = ph.vaddr.toNat+ph.memsz.toNat := by
    rw [BitVec.toNat_add]
    omega
  refine ⟨alignDown_toNat _, ?_⟩
  rw [alignUp_toNat (by omega), sum]

theorem SpanInside.widen (h : SpanInside span) (inside : Inside ph) :
    SpanInside (widen span ph) := by
  obtain ⟨down, up⟩ := inside.pages
  have low := inside.low
  have high := inside.high
  have limits : uint64Max.toNat = 2^64-1 ∧ (0 : Word).toNat = 0 := by decide
  right
  simp only [Elf.widen, BitVec.lt_def]
  rcases h with rfl | ⟨le₁, le₂, le₃⟩
  · dsimp only
    rw [limits.1, limits.2]
    split_ifs
    all_goals omega
  · split_ifs
    all_goals omega

/-- When the first loop returns no error every loadable segment is in the user window. -/
theorem checkSegments_ok (inside : ZeroSizedInside file size) {l : List ℕ}
    (ok : checkSegments file size l span = .ok span') (start : SpanInside span) :
    SpanInside span' ∧ ∀ i ∈ l, ∀ ph, elfGetProgramHeader file size (BitVec.ofNat 16 i) = .ok ph →
      elfIsLoadable ph = true → Inside ph := by
  induction l generalizing span with
  | nil =>
    obtain rfl := Except.ok.inj ok
    exact ⟨start, fun i mem => absurd mem List.not_mem_nil⟩
  | cons i rest ih =>
    rw [checkSegments, List.foldlM_cons] at ok
    cases first : checkSegment file size span i with
    | error code =>
      rw [first] at ok
      cases ok
    | ok next =>
      rw [first] at ok
      cases found : elfGetProgramHeader file size (BitVec.ofNat 16 i) with
      | error code =>
        rw [checkSegment, found] at first
        cases first
      | ok ph =>
        have step := checkSegment_ok inside first found
        have kept : SpanInside next := by
          rcases step with ⟨-, rfl⟩ | ⟨segment, rfl⟩
          · exact start
          · exact start.widen segment
        obtain ⟨final, others⟩ := ih ok kept
        refine ⟨final, fun j mem ph' found' loadable => ?_⟩
        rcases List.mem_cons.mp mem with rfl | mem
        · obtain rfl := Except.ok.inj (found.symm.trans found')
          rcases step with ⟨none, -⟩ | ⟨segment, -⟩
          · rw [none] at loadable
            cases loadable
          · exact segment
        · exact others j mem ph' found' loadable

end TinyOS.Elf
