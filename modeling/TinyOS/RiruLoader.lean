import TinyOS.Riru
import TinyOS.VirtualAccess

set_option autoImplicit false

/-! The loader of RIRU programs (riru/loader.c). -/
namespace TinyOS.Memory
open Riru

abbrev riruUserStackTop : Word := 0x3FFFF000

abbrev riruUserStackSize : Word := 16*1024

def validRange (address size : Word) : Bool :=
  if size = 0 then true
  else if address < userMin then false
  else if userMax ≤ address then false
  else if userMax - address < size then false
  else true

/-- One round of the loops of `map_range` and `map_user_stack`: a page already mapped is
mapped again where it is, with the flags merged. -/
def mapUser (cr3 flags va : Word) : KernelM ℤ := do
  let existing ← vmmGetPhysicalIn cr3 va
  if existing ≠ 0 then
    let result ← vmmMapUserPage cr3 va existing flags
    return if result ≠ 0 then -2 else 0
  let physical ← allocPage
  if physical = 0 then return -1
  let result ← vmmMapUserPage cr3 va physical flags
  if result ≠ 0 then
    freePage physical
    return -2
  return 0

def mapRange (cr3 address size flags : Word) : KernelM ℤ :=
  if size = 0 then return 0
  else firstError (mapUser cr3 (flags ||| pageUser))
    (pageRange (alignDown address) (alignUp (address + size)))

def mapUserStack (cr3 : Word) : KernelM ℤ :=
  firstError (mapUser cr3 (pageUser ||| pageWritable))
    (pageRange (riruUserStackTop - riruUserStackSize) riruUserStackTop)

/-- `image_base` and `image_end` widened by a section, or the error of the section. -/
def widen (span : Word × Word) (vaddr size : Word) (code : ℤ) : Except ℤ (Word × Word) :=
  if size = 0 then .ok span
  else if !validRange vaddr size then .error code
  else
    let start := alignDown vaddr
    let stop := alignUp (vaddr + size)
    .ok (if start < span.1 then start else span.1, if span.2 < stop then stop else span.2)

def imageSpan (h : RiruHeader) : Except ℤ (Word × Word) := do
  let span ←
    if h.codeSize = 0 then .ok (0xFFFFFFFFFFFFFFFF, 0)
    else if !validRange h.codeVaddr h.codeSize then .error (-2)
    else .ok (alignDown h.codeVaddr, alignUp (h.codeVaddr + h.codeSize))
  let span ← widen span h.rodataVaddr h.rodataSize (-3)
  let span ← widen span h.dataVaddr h.dataSize (-4)
  if span.1 = 0xFFFFFFFFFFFFFFFF then .error (-5) else .ok span

def bssStart (h : RiruHeader) (imageEnd : Word) : Word :=
  if h.bssSize = 0 then 0
  else if h.dataSize ≠ 0 then h.dataVaddr + h.dataSize
  else if h.codeSize ≠ 0 then h.codeVaddr + h.codeSize
  else imageEnd

def mapBss (cr3 start size : Word) : KernelM ℤ := do
  if size = 0 then return 0
  if !validRange start size then return -10
  let result ← mapRange cr3 start size pageWritable
  return if result ≠ 0 then -11 else 0

def mapSections (cr3 : Word) (h : RiruHeader) (imageEnd : Word) : KernelM ℤ := do
  let code ← mapRange cr3 h.codeVaddr h.codeSize pageWritable
  if code ≠ 0 then return -7
  let rodata ← mapRange cr3 h.rodataVaddr h.rodataSize pageWritable
  if rodata ≠ 0 then return -8
  let data ← mapRange cr3 h.dataVaddr h.dataSize pageWritable
  if data ≠ 0 then return -9
  let bss ← mapBss cr3 (bssStart h imageEnd) h.bssSize
  if bss ≠ 0 then return bss
  let stack ← mapUserStack cr3
  return if stack ≠ 0 then -12 else 0

/-- `riru_load` from `vmm_create_user_space` up to the switch of address spaces. -/
def prepareSpace (b : Layout) (h : RiruHeader) (imageEnd : Word) : KernelM ℤ := do
  let cr3 ← vmmCreateUserSpace b
  modify fun k => { k with riruUserCr3 := cr3 }
  if cr3 = 0 then return -6
  mapSections cr3 h imageEnd

/-- The file at a pointer, as the kernel reads it through its identity map. -/
def Kernel.fileAt (k : Kernel) (file : Word) : Option Bytes :=
  if file = 0 then none else some fun i => k.byteAt (file + i)

/-- `image.code`, `image.rodata` or `image.data`. -/
def sectionPointer (file : Word) : Option Word → Word
  | none => 0
  | some offset => file + offset

/-- The loop of a copy. The pages of the image may lie over the file, so the size is read from
the header again in each round. -/
def copyRounds (file : Word) (f : SectionFields) (destination source i : Word) (k : Kernel) :
    Bool × Kernel :=
  match k.loadWord (file + f.size) with
  | none => (false, k)
  | some size =>
    if i < size then
      match k.loadByte (source + i) with
      | none => (false, k)
      | some v =>
        let (stored, k) := (storeVirtual (destination + i) v).run k
        if stored then copyRounds file f destination source (i+1) k else (false, k)
    else (true, k)
termination_by 2^64-i.toNat
decreasing_by
  have lt := size.isLt
  simp only [BitVec.lt_def] at *
  rw [BitVec.toNat_add, show (1 : Word).toNat = 1 from rfl]
  omega

def copySection (file : Word) (f : SectionFields) (source : Word) : KernelM Bool := do
  let k ← get
  match k.loadWord (file + f.size) with
  | none => return false
  | some size =>
    if size = 0 then return true
    else
      match k.loadWord (file + f.vaddr) with
      | none => return false
      | some destination => copyRounds file f destination source 0

def copyBytes (va : Word) (source : ℕ → BitVec 8) : List ℕ → KernelM Bool
  | [] => return true
  | i :: rest => do
    let stored ← storeVirtual (va + BitVec.ofNat 64 i) (source i)
    if !stored then return false
    copyBytes va source rest

def zeroMemory (address size : Word) : KernelM Bool :=
  copyBytes address (fun _ => 0) (List.range size.toNat)

def copyImage (file : Word) (image : RiruImage) (bss : Word) : KernelM Bool := do
  let code ← copySection file codeFields (sectionPointer file image.code)
  if !code then return false
  let rodata ← copySection file rodataFields (sectionPointer file image.rodata)
  if !rodata then return false
  let data ← copySection file dataFields (sectionPointer file image.data)
  if !data then return false
  let k ← get
  match k.loadWord (file + bssSizeField) with
  | none => return false
  | some size => zeroMemory bss size

structure RiruLoadResult where
  entry : Word
  imageBase : Word
  imageEnd : Word
  pages : Word

/-- How a load ends: not at all, with an error code, or with 0 and a result. -/
inductive LoadOutcome where
  | halted
  | failed (code : ℤ)
  | loaded (result : RiruLoadResult)

/-- What the last test makes of the entry point in the header; `none` is a page fault. -/
def checkEntry (entry : Option Word) (base stop : Word) : LoadOutcome :=
  match entry with
  | none => .halted
  | some entry =>
    if entry < base ∨ stop ≤ entry then .failed (-13)
    else .loaded ⟨entry, base, stop, (stop - base)/pageSize⟩

/-- `riru_load` from the switch of address spaces on. -/
def finishLoad (file : Word) (image : RiruImage) (base stop : Word) : KernelM LoadOutcome := do
  let k ← get
  vmmSwitchAddressSpace k.riruUserCr3
  let copied ← copyImage file image (bssStart image.header stop)
  if !copied then return .halted
  vmmSwitchKernelSpace
  let k ← get
  return checkEntry (k.loadWord (file + entryField)) base stop

/-- Up to the switch to the new space only page tables are stored to, and the header stays as it
was parsed. -/
def riruLoad (b : Layout) (file size : Word) : KernelM LoadOutcome := do
  let k ← get
  match riruParse (k.fileAt file) size with
  | .error code => return .failed code
  | .ok image =>
    match imageSpan image.header with
    | .error code => return .failed code
    | .ok (base, stop) => do
      let result ← prepareSpace b image.header stop
      if result ≠ 0 then return .failed result
      finishLoad file image base stop

def riruGetUserCr3 : KernelM Word := do
  let k ← get
  return k.riruUserCr3

/-- What `fs_stat` and `fs_read` report of a file: its size, and unless the read fails the
bytes read and how many. -/
structure FileRead where
  size : BitVec 32
  content : Option (Bytes × Word)
  fits : ∀ c, content = some c → c.2.toNat ≤ size.toNat

/-- The bytes that `fs_read` stores. -/
def readBytes (bytes : Bytes) (count : Word) : List (BitVec 8) :=
  (List.range count.toNat).map fun i => bytes (BitVec.ofNat 64 i)

/-- Unless it has stopped the kernel, a load gives its file back. -/
def LoadOutcome.release (buffer : Word) : LoadOutcome → KernelM LoadOutcome
  | .halted => return .halted
  | outcome => do
    kfree buffer
    return outcome

/-- `none` when `fs_stat` does not find the name. -/
def riruLoadFile (b : Layout) (file : Option FileRead) : KernelM LoadOutcome :=
  match file with
  | none => return .failed (-2)
  | some file => do
    let buffer ← kmalloc (file.size.setWidth 64)
    if buffer = 0 then return .failed (-3)
    match file.content with
    | none => do
      kfree buffer
      return .failed (-4)
    | some (bytes, count) => do
      storeBytes buffer (readBytes bytes count)
      let outcome ← riruLoad b buffer count
      outcome.release buffer

variable {α β γ : Type} {g : Kernel → γ}

section
variable (hf : Static g)
include hf

theorem keeps_mapUser (cr3 flags va : Word) : Keeps g (mapUser cr3 flags va) := by
  refine .bind (fun _ => rfl) fun existing => .ite ?_ ?_
  · exact (keeps_mapUserPage hf _ _ _ _).bind fun _ => .pure _
  · refine (keeps_allocPage hf).bind fun physical => .ite (.pure _) ?_
    exact (keeps_mapUserPage hf _ _ _ _).bind fun _ =>
      .ite ((keeps_freePage hf _).bind fun _ => .pure _) (.pure _)

theorem keeps_mapRange (cr3 address size flags : Word) :
    Keeps g (mapRange cr3 address size flags) :=
  .ite (.pure _) (keeps_firstError (fun _ => keeps_mapUser hf _ _ _) _)

theorem keeps_mapBss (cr3 start size : Word) : Keeps g (mapBss cr3 start size) :=
  .ite (.pure _) (.ite (.pure _) ((keeps_mapRange hf _ _ _ _).bind fun _ => .pure _))

theorem keeps_mapSections (cr3 : Word) (h : RiruHeader) (stop : Word) :
    Keeps g (mapSections cr3 h stop) := by
  refine (keeps_mapRange hf _ _ _ _).bind fun _ => .ite (.pure _) ?_
  refine (keeps_mapRange hf _ _ _ _).bind fun _ => .ite (.pure _) ?_
  refine (keeps_mapRange hf _ _ _ _).bind fun _ => .ite (.pure _) ?_
  refine (keeps_mapBss hf _ _ _).bind fun _ => .ite (.pure _) ?_
  exact (keeps_firstError (fun _ => keeps_mapUser hf _ _ _) _).bind fun _ => .pure _

theorem keeps_storeWord (a w : Word) : Keeps g (storeWord a w) := keeps_writeEntry hf _ _ _

theorem keeps_kmalloc (size : Word) : Keeps g (kmalloc size) := by
  refine .ite (.pure _) (.bind (fun k => hf k _ _ _ _) fun address => .ite (.pure _) ?_)
  exact (keeps_storeWord hf _ _).bind fun _ => (keeps_storeWord hf _ _).bind fun _ =>
    (keeps_storeWord hf _ _).bind fun _ => .bind (fun k => hf k _ _ _ _) fun _ => .pure _

theorem keeps_kfree (ptr : Word) : Keeps g (kfree ptr) := by
  refine .ite (.pure _) (.bind (fun _ => rfl) fun k => .ite (.pure _) ?_)
  exact .bind (fun k => hf k _ _ _ _) fun _ => keeps_storeWord hf _ _

theorem keeps_release (buffer : Word) (outcome : LoadOutcome) :
    Keeps g (outcome.release buffer) := by
  cases outcome with
  | halted => exact .pure _
  | failed code => exact (keeps_kfree hf _).bind fun _ => .pure _
  | loaded result => exact (keeps_kfree hf _).bind fun _ => .pure _

theorem keeps_copyRounds (file : Word) (f : SectionFields) (destination source i : Word) :
    Keeps g (copyRounds file f destination source i) := by
  intro k
  change g (copyRounds file f destination source i k).2 = g k
  fun_induction copyRounds file f destination source i k with
  | case1 | case2 | case5 => rfl
  | case3 i k size read more v load k' store ih =>
    have kept := keeps_storeVirtual hf (destination + i) v k
    rw [store] at kept
    exact ih.trans kept
  | case4 i k size read more v load stored k' store fails =>
    have kept := keeps_storeVirtual hf (destination + i) v k
    rwa [store] at kept

theorem keeps_copySection (file : Word) (f : SectionFields) (source : Word) :
    Keeps g (copySection file f source) := by
  refine .bind (fun _ => rfl) fun k => ?_
  cases k.loadWord (file + f.size) with
  | none => exact .pure _
  | some size =>
    refine .ite (.pure _) ?_
    cases k.loadWord (file + f.vaddr) with
    | none => exact .pure _
    | some destination => exact keeps_copyRounds hf _ _ _ _ _

theorem keeps_copyBytes (va : Word) (source : ℕ → BitVec 8) (l : List ℕ) :
    Keeps g (copyBytes va source l) := by
  induction l with
  | nil => exact .pure _
  | cons i rest ih => exact (keeps_storeVirtual hf _ _).bind fun stored => .ite (.pure _) ih

theorem keeps_copyImage (file : Word) (image : RiruImage) (bss : Word) :
    Keeps g (copyImage file image bss) := by
  refine (keeps_copySection hf _ _ _).bind fun _ => .ite (.pure _) ?_
  refine (keeps_copySection hf _ _ _).bind fun _ => .ite (.pure _) ?_
  refine (keeps_copySection hf _ _ _).bind fun _ => .ite (.pure _) ?_
  refine .bind (fun _ => rfl) fun k => ?_
  cases k.loadWord (file + bssSizeField) with
  | none => exact .pure _
  | some size => exact keeps_copyBytes hf _ _ _

end

theorem static_userCr3 : Static Kernel.riruUserCr3 := fun _ _ _ _ _ => rfl

theorem keeps_prepareSpace (b : Layout) (h : RiruHeader) (stop : Word) :
    Keeps Kernel.space (prepareSpace b h stop) := by
  refine (keeps_createUserSpace static_space b).bind fun cr3 => .bind (fun _ => rfl) fun _ => ?_
  exact .ite (.pure _) (keeps_mapSections static_space _ _ _)

end TinyOS.Memory
