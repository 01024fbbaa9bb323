import TinyOS.EventLogs
import TinyOS.RiruContent

set_option autoImplicit false

namespace TinyOS.Memory
open EventLogs RadixTables Riru

/-- A call of `vmm_map_user_page` on `riru_user_cr3`, the switch to that address space, or a
store of a section byte or a zero. -/
inductive LoadEvent where
  | mapped (va : Word)
  | switched (before : Kernel)
  | stored (va : Word)

abbrev LoadM := LogM Kernel LoadEvent

namespace Logged

def vmmMapUserPage (cr3 va pa flags : Word) : LoadM ℤ := do
  emit fun _ => .mapped va
  silent (Memory.vmmMapUserPage cr3 va pa flags)

def mapUser (cr3 flags va : Word) : LoadM ℤ := do
  let existing ← silent (vmmGetPhysicalIn cr3 va)
  if existing ≠ 0 then
    let result ← vmmMapUserPage cr3 va existing flags
    return if result ≠ 0 then -2 else 0
  let physical ← silent allocPage
  if physical = 0 then return -1
  let result ← vmmMapUserPage cr3 va physical flags
  if result ≠ 0 then
    silent (freePage physical)
    return -2
  return 0

def firstError {α : Type} (body : α → LoadM ℤ) : List α → LoadM ℤ
  | [] => return 0
  | a :: rest => do
    let result ← body a
    if result ≠ 0 then return result
    firstError body rest

def mapRange (cr3 address size flags : Word) : LoadM ℤ :=
  if size = 0 then return 0
  else firstError (mapUser cr3 (flags ||| pageUser))
    (pageRange (alignDown address) (alignUp (address + size)))

def mapUserStack (cr3 : Word) : LoadM ℤ :=
  firstError (mapUser cr3 (pageUser ||| pageWritable))
    (pageRange (riruUserStackTop - riruUserStackSize) riruUserStackTop)

def mapBss (cr3 start size : Word) : LoadM ℤ := do
  if size = 0 then return 0
  if !validRange start size then return -10
  let result ← mapRange cr3 start size pageWritable
  return if result ≠ 0 then -11 else 0

def mapSections (cr3 : Word) (h : RiruHeader) (imageEnd : Word) : LoadM ℤ := do
  let code ← mapRange cr3 h.codeVaddr h.codeSize pageWritable
  if code ≠ 0 then return -7
  let rodata ← mapRange cr3 h.rodataVaddr h.rodataSize pageWritable
  if rodata ≠ 0 then return -8
  let data ← mapRange cr3 h.dataVaddr h.dataSize pageWritable
  if data ≠ 0 then return -9
  let bss ← mapBss cr3 (bssStart h imageEnd) h.bssSize
  if bss ≠ 0 then return bss
  let stack ← mapUserStack cr3
  return if stack ≠ 0 then -12 else 0

def prepareSpace (b : Layout) (h : RiruHeader) (imageEnd : Word) : LoadM ℤ := do
  let cr3 ← silent (vmmCreateUserSpace b)
  silent (modify fun k => { k with riruUserCr3 := cr3 })
  if cr3 = 0 then return -6
  mapSections cr3 h imageEnd

def storeVirtual (va : Word) (v : BitVec 8) : LoadM Bool := do
  emit fun _ => .stored va
  silent (Memory.storeVirtual va v)

def copyBytes (va : Word) (source : ℕ → BitVec 8) : List ℕ → LoadM Bool
  | [] => return true
  | i :: rest => do
    let stored ← storeVirtual (va + BitVec.ofNat 64 i) (source i)
    if !stored then return false
    copyBytes va source rest

def copyRounds (file : Word) (f : SectionFields) (destination source i : Word)
    (s : Kernel × List LoadEvent) : Bool × Kernel × List LoadEvent :=
  match s.1.loadWord (file + f.size) with
  | none => (false, s)
  | some size =>
    if i < size then
      match s.1.loadByte (source + i) with
      | none => (false, s)
      | some v =>
        let (stored, s) := (storeVirtual (destination + i) v).run s
        if stored then copyRounds file f destination source (i+1) s else (false, s)
    else (true, s)
termination_by 2^64-i.toNat
decreasing_by
  have lt := size.isLt
  simp only [BitVec.lt_def] at *
  rw [BitVec.toNat_add, show (1 : Word).toNat = 1 from rfl]
  omega

def copySection (file : Word) (f : SectionFields) (source : Word) : LoadM Bool := do
  let k ← silent get
  match k.loadWord (file + f.size) with
  | none => return false
  | some size =>
    if size = 0 then return true
    else
      match k.loadWord (file + f.vaddr) with
      | none => return false
      | some destination => copyRounds file f destination source 0

def zeroMemory (address size : Word) : LoadM Bool :=
  copyBytes address (fun _ => 0) (List.range size.toNat)

def copyImage (file : Word) (image : RiruImage) (bss : Word) : LoadM Bool := do
  let code ← copySection file codeFields (sectionPointer file image.code)
  if !code then return false
  let rodata ← copySection file rodataFields (sectionPointer file image.rodata)
  if !rodata then return false
  let data ← copySection file dataFields (sectionPointer file image.data)
  if !data then return false
  let k ← silent get
  match k.loadWord (file + bssSizeField) with
  | none => return false
  | some size => zeroMemory bss size

def switchToUser : LoadM Unit := do
  emit .switched
  silent (get >>= fun k => vmmSwitchAddressSpace k.riruUserCr3)

def finishLoad (file : Word) (image : RiruImage) (base stop : Word) : LoadM LoadOutcome := do
  switchToUser
  let copied ← copyImage file image (bssStart image.header stop)
  if !copied then return .halted
  silent vmmSwitchKernelSpace
  let k ← silent get
  return checkEntry (k.loadWord (file + entryField)) base stop

def riruLoad (b : Layout) (file size : Word) : LoadM LoadOutcome := do
  let k ← silent get
  match riruParse (k.fileAt file) size with
  | .error code => return .failed code
  | .ok image =>
    match imageSpan image.header with
    | .error code => return .failed code
    | .ok (base, stop) => do
      let result ← prepareSpace b image.header stop
      if result ≠ 0 then return .failed result
      finishLoad file image base stop

variable {α : Type}

theorem mapUser_erases (cr3 flags va : Word) :
    Erases (mapUser cr3 flags va) (Memory.mapUser cr3 flags va) := by
  refine (Erases.silent _).bind fun existing => .ite ?_ ?_
  · exact ((Erases.silent _).emit).bind fun result => .pure _
  · refine (Erases.silent _).bind fun physical => .ite (.pure _) ?_
    refine ((Erases.silent _).emit).bind fun result => .ite ?_ (.pure _)
    exact (Erases.silent _).bind fun _ => .pure _

theorem firstError_erases {body : α → LoadM ℤ} {plain : α → KernelM ℤ}
    (h : ∀ a, Erases (body a) (plain a)) (l : List α) :
    Erases (firstError body l) (Memory.firstError plain l) := by
  induction l with
  | nil => exact .pure 0
  | cons a rest ih => exact (h a).bind fun result => .ite (.pure result) ih

theorem mapRange_erases (cr3 address size flags : Word) :
    Erases (mapRange cr3 address size flags) (Memory.mapRange cr3 address size flags) :=
  .ite (.pure 0) (firstError_erases (fun _ => mapUser_erases _ _ _) _)

theorem mapBss_erases (cr3 start size : Word) :
    Erases (mapBss cr3 start size) (Memory.mapBss cr3 start size) :=
  .ite (.pure 0) (.ite (.pure _) ((mapRange_erases _ _ _ _).bind fun _ => .pure _))

theorem mapSections_erases (cr3 : Word) (h : RiruHeader) (stop : Word) :
    Erases (mapSections cr3 h stop) (Memory.mapSections cr3 h stop) := by
  refine (mapRange_erases _ _ _ _).bind fun _ => .ite (.pure _) ?_
  refine (mapRange_erases _ _ _ _).bind fun _ => .ite (.pure _) ?_
  refine (mapRange_erases _ _ _ _).bind fun _ => .ite (.pure _) ?_
  refine (mapBss_erases _ _ _).bind fun _ => .ite (.pure _) ?_
  exact (firstError_erases (fun _ => mapUser_erases _ _ _) _).bind fun _ => .pure _

theorem prepareSpace_erases (b : Layout) (h : RiruHeader) (stop : Word) :
    Erases (prepareSpace b h stop) (Memory.prepareSpace b h stop) :=
  (Erases.silent _).bind fun _ => (Erases.silent _).bind fun _ =>
    .ite (.pure _) (mapSections_erases _ _ _)

theorem copyBytes_erases (va : Word) (source : ℕ → BitVec 8) (l : List ℕ) :
    Erases (copyBytes va source l) (Memory.copyBytes va source l) := by
  induction l with
  | nil => exact .pure true
  | cons i rest ih => exact ((Erases.silent _).emit).bind fun _ => .ite (.pure false) ih

theorem storeVirtual_plain {va : Word} {v : BitVec 8} {s s' : Kernel × List LoadEvent}
    {stored : Bool} (store : (storeVirtual va v).run s = (stored, s')) :
    (Memory.storeVirtual va v).run s.1 = (stored, s'.1) := by
  obtain ⟨value, state⟩ := Prod.mk.inj store
  exact Prod.ext value (congrArg Prod.fst state)

theorem copyRounds_erases (file : Word) (f : SectionFields) (destination source i : Word) :
    Erases (copyRounds file f destination source i)
      (Memory.copyRounds file f destination source i) := by
  intro s
  change (copyRounds file f destination source i s).1 =
      (Memory.copyRounds file f destination source i s.1).1 ∧
    (copyRounds file f destination source i s).2.1 =
      (Memory.copyRounds file f destination source i s.1).2
  fun_induction copyRounds file f destination source i s with
  | case1 i s fault =>
    rw [Memory.copyRounds, fault]
    exact ⟨rfl, rfl⟩
  | case2 i s size read more fault =>
    rw [Memory.copyRounds, read]
    dsimp only
    rw [if_pos more, fault]
    exact ⟨rfl, rfl⟩
  | case3 i s size read more v load s' store ih =>
    rw [Memory.copyRounds, read]
    dsimp only
    rw [if_pos more, load]
    dsimp only
    rw [storeVirtual_plain store]
    exact ih
  | case4 i s size read more v load stored s' store fails =>
    rw [Memory.copyRounds, read]
    dsimp only
    rw [if_pos more, load]
    dsimp only
    rw [storeVirtual_plain store]
    dsimp only
    rw [if_neg fails]
    exact ⟨rfl, rfl⟩
  | case5 i s size read less =>
    rw [Memory.copyRounds, read]
    dsimp only
    rw [if_neg less]
    exact ⟨rfl, rfl⟩

theorem copySection_erases (file : Word) (f : SectionFields) (source : Word) :
    Erases (copySection file f source) (Memory.copySection file f source) := by
  refine (Erases.silent _).bind fun k => ?_
  cases k.loadWord (file + f.size) with
  | none => exact .pure _
  | some size =>
    refine .ite (.pure _) ?_
    cases k.loadWord (file + f.vaddr) with
    | none => exact .pure _
    | some destination => exact copyRounds_erases _ _ _ _ _

theorem copyImage_erases (file : Word) (image : RiruImage) (bss : Word) :
    Erases (copyImage file image bss) (Memory.copyImage file image bss) := by
  refine (copySection_erases _ _ _).bind fun _ => .ite (.pure _) ?_
  refine (copySection_erases _ _ _).bind fun _ => .ite (.pure _) ?_
  refine (copySection_erases _ _ _).bind fun _ => .ite (.pure _) ?_
  refine (Erases.silent _).bind fun k => ?_
  cases k.loadWord (file + bssSizeField) with
  | none => exact .pure _
  | some size => exact copyBytes_erases _ _ _

theorem finishLoad_erases (file : Word) (image : RiruImage) (base stop : Word) :
    Erases (finishLoad file image base stop) (Memory.finishLoad file image base stop) := by
  have switch : Erases switchToUser (get >>= fun k => vmmSwitchAddressSpace k.riruUserCr3) :=
    (Erases.silent _).emit
  have rest : Erases (finishLoad file image base stop)
      ((get >>= fun k => vmmSwitchAddressSpace k.riruUserCr3) >>= fun _ => do
        let copied ← Memory.copyImage file image (bssStart image.header stop)
        if !copied then return .halted
        vmmSwitchKernelSpace
        let k ← get
        return checkEntry (k.loadWord (file + entryField)) base stop) :=
    switch.bind fun _ => (copyImage_erases _ _ _).bind fun _ => .ite (.pure _)
      ((Erases.silent _).bind fun _ => (Erases.silent _).bind fun _ => .pure _)
  exact rest

theorem riruLoad_erases (b : Layout) (file size : Word) :
    Erases (riruLoad b file size) (Memory.riruLoad b file size) := by
  refine (Erases.silent _).bind fun k => ?_
  cases riruParse (k.fileAt file) size with
  | error code => exact .pure _
  | ok image =>
    dsimp only
    cases imageSpan image.header with
    | error code => exact .pure _
    | ok span =>
      exact (prepareSpace_erases _ _ _).bind fun _ => .ite (.pure _) (finishLoad_erases _ _ _ _)

/-- `[RIRU_USER_MIN, RIRU_USER_MAX)` -/
def InWindow (va : Word) : Prop := userMin ≤ va ∧ va < userMax

def Maps : LoadEvent → Prop
  | .mapped va => InWindow va
  | _ => False

def Stores (covered : Set Word) : LoadEvent → Prop
  | .stored va => InWindow va ∧ va ∈ covered
  | _ => False

theorem inWindow_iff {va : Word} : InWindow va ↔ 0x400000 ≤ va.toNat ∧ va.toNat < 0x40000000 := by
  have window : userMin.toNat = 0x400000 ∧ userMax.toNat = 0x40000000 := by decide
  rw [InWindow, BitVec.le_def, BitVec.lt_def, window.1, window.2]

theorem mapUser_maps (cr3 flags : Word) {va : Word} (window : InWindow va) :
    Emits Maps (mapUser cr3 flags va) := by
  have event : Emits Maps (emit fun _ => .mapped va : LoadM Unit) := Emits.emit fun _ => window
  have call (pa flags : Word) : Emits Maps (vmmMapUserPage cr3 va pa flags) :=
    event.bind fun _ => .silent _
  refine (Emits.silent _).bind fun existing => .ite (fun _ => ?_) fun _ => ?_
  · exact (call _ _).bind fun _ => .pure _
  · refine (Emits.silent _).bind fun physical => .ite (fun _ => .pure _) fun _ => ?_
    exact (call _ _).bind fun _ =>
      .ite (fun _ => (Emits.silent _).bind fun _ => .pure _) fun _ => .pure _

theorem firstError_emits {P : LoadEvent → Prop} {body : α → LoadM ℤ} {l : List α}
    (h : ∀ a ∈ l, Emits P (body a)) : Emits P (firstError body l) := by
  induction l with
  | nil => exact .pure 0
  | cons a rest ih =>
    refine (h a List.mem_cons_self).bind fun result => .ite (fun _ => .pure result) fun _ => ?_
    exact ih fun a' mem => h a' (List.mem_cons_of_mem a mem)

theorem mapRange_maps (cr3 flags : Word) {address size : Word}
    (valid : validRange address size = true) : Emits Maps (mapRange cr3 address size flags) := by
  refine .ite (fun _ => .pure 0) fun nonzero => firstError_emits fun va mem => mapUser_maps _ _ ?_
  obtain ⟨low, high⟩ := (validRange_iff.mp valid).resolve_left nonzero
  have sum : (address + size).toNat = address.toNat+size.toNat := by
    rw [BitVec.toNat_add]
    omega
  rw [alignDown_eq, alignUp_eq (by rw [sum]; omega), sum, mem_pageRange (by omega) (by omega)] at mem
  obtain ⟨p, le, lt, rfl⟩ := mem
  rw [inWindow_iff, pageAddress_toNat (by omega)]
  omega

theorem mapUserStack_maps (cr3 : Word) : Emits Maps (mapUserStack cr3) := by
  refine firstError_emits fun va mem => mapUser_maps _ _ ?_
  rw [show riruUserStackTop - riruUserStackSize = pageAddress 0x3FFFB by decide,
    show riruUserStackTop = pageAddress 0x3FFFF by decide,
    mem_pageRange (by decide) (by decide)] at mem
  obtain ⟨p, le, lt, rfl⟩ := mem
  rw [inWindow_iff, pageAddress_toNat (by omega)]
  omega

theorem mapBss_maps (cr3 start size : Word) : Emits Maps (mapBss cr3 start size) := by
  refine .ite (fun _ => .pure 0) fun _ => .ite (fun _ => .pure _) fun valid => ?_
  refine (mapRange_maps cr3 pageWritable ?_).bind fun _ => .pure _
  cases h : validRange start size with
  | true => rfl
  | false =>
    rw [h] at valid
    exact absurd rfl valid

theorem prepareSpace_maps (b : Layout) {h : RiruHeader} (valid : SectionsValid h) (stop : Word) :
    Emits Maps (prepareSpace b h stop) := by
  refine (Emits.silent _).bind fun cr3 => (Emits.silent _).bind fun _ =>
    .ite (fun _ => .pure _) fun _ => ?_
  refine (mapRange_maps cr3 _ valid.code).bind fun _ => .ite (fun _ => .pure _) fun _ => ?_
  refine (mapRange_maps cr3 _ valid.rodata).bind fun _ => .ite (fun _ => .pure _) fun _ => ?_
  refine (mapRange_maps cr3 _ valid.data).bind fun _ => .ite (fun _ => .pure _) fun _ => ?_
  refine (mapBss_maps cr3 _ _).bind fun _ => .ite (fun _ => .pure _) fun _ => ?_
  exact (mapUserStack_maps cr3).bind fun _ => .pure _

section
variable {place : Places} {u : ℕ} {covered : Set Word} {pages : Set ℕ} {k₀ : Kernel}
  (c : CopyFrom place u covered pages k₀) {start size : Word}
  (cover : ∀ a, Covers start size a → a ∈ covered) (valid : validRange start size = true)
include c cover valid

theorem storeVirtual_guards {i : Word} (lt : i < size) (v : BitVec 8) :
    Guards (Copying covered k₀) (Stores covered) (storeVirtual (start + i) v) := by
  have small := BitVec.lt_def.mp lt
  obtain ⟨low, high⟩ := (validRange_iff.mp valid).resolve_left fun zero => by
    rw [zero] at small
    exact absurd small (Nat.not_lt_zero _)
  have address : (start + i).toNat = start.toNat+i.toNat := by
    rw [BitVec.toNat_add]
    omega
  have mem : start + i ∈ covered := cover _ ⟨by omega, by omega⟩
  have window : InWindow (start + i) := by
    rw [inWindow_iff]
    omega
  have event : Guards (Copying covered k₀) (Stores covered)
      (emit fun _ => .stored (start + i) : LoadM Unit) := Guards.emit fun _ => ⟨window, mem⟩
  refine event.bind fun _ => Guards.silent fun k h => ?_
  rw [c.store h mem]
  exact h.storeByte mem v

theorem zeroMemory_guards : Guards (Copying covered k₀) (Stores covered) (zeroMemory start size) := by
  have rounds (l : List ℕ) (le : ∀ i ∈ l, i < size.toNat) : Guards (Copying covered k₀)
      (Stores covered) (copyBytes start (fun _ => 0) l) := by
    induction l with
    | nil => exact .pure true
    | cons i rest ih =>
      have lt := le i List.mem_cons_self
      have width := size.isLt
      have small : BitVec.ofNat 64 i < size := by
        rw [BitVec.lt_def, BitVec.toNat_ofNat]
        omega
      refine (storeVirtual_guards c cover valid small 0).bind fun _ => .ite (.pure _) ?_
      exact ih fun i' mem => le i' (List.mem_cons_of_mem i mem)
  exact rounds _ fun i mem => List.mem_range.mp mem

variable {file source : Word} {f : SectionFields}
  (reads : ∀ {k}, Copying covered k₀ k → k.loadWord (file + f.size) = some size)
include reads

/-- As long as the size in the header stays, every round stores in the section. -/
theorem copyRounds_guards (i : Word) : Guards (Copying covered k₀) (Stores covered)
    (copyRounds file f start source i) := by
  intro s here
  change Copying covered k₀ (copyRounds file f start source i s).2.1 ∧
    ∃ new, (copyRounds file f start source i s).2.2 = s.2 ++ new ∧ ∀ e ∈ new, Stores covered e
  fun_induction copyRounds file f start source i s with
  | case1 | case2 | case5 =>
    exact ⟨here, [], (List.append_nil _).symm, fun _ mem => absurd mem List.not_mem_nil⟩
  | case3 i s size' read more v load s' store ih =>
    obtain rfl := Option.some.inj ((reads here).symm.trans read)
    obtain ⟨kept, first, log, all⟩ := storeVirtual_guards c cover valid more v s here
    rw [store] at kept log
    obtain ⟨kept', second, log', all'⟩ := ih kept
    refine ⟨kept', first ++ second, ?_,
      fun e mem => (List.mem_append.mp mem).elim (all e) (all' e)⟩
    rw [log', log, List.append_assoc]
  | case4 i s size' read more v load stored s' store fails =>
    obtain rfl := Option.some.inj ((reads here).symm.trans read)
    have guards := storeVirtual_guards c cover valid more v s here
    rwa [store] at guards

theorem copySection_guards
    (vaddr : ∀ {k}, Copying covered k₀ k → k.loadWord (file + f.vaddr) = some start) :
    Guards (Copying covered k₀) (Stores covered) (copySection file f source) := by
  refine Guards.read fun k here => ?_
  rw [reads here]
  refine .ite (.pure _) ?_
  rw [vaddr here]
  exact copyRounds_guards c cover valid reads 0

end

/-- As long as the header stays, every store is one of the image. -/
theorem copyImage_guards {place : Places} {u : ℕ} {pages : Set ℕ} {k₀ : Kernel}
    {file size stop : Word} {image : RiruImage} (inside : InMemory file size image k₀)
    (c : CopyFrom place u (imageBytes image.header stop) pages k₀)
    (sub : rangeOf file riruHeaderSize ⊆ pages)
    (off : OffFile file riruHeaderSize image.header stop) (valid : SectionsValid image.header)
    (bss : validRange (bssStart image.header stop) image.header.bssSize = true) :
    Guards (Copying (imageBytes image.header stop) k₀) (Stores (imageBytes image.header stop))
      (copyImage file image (bssStart image.header stop)) := by
  obtain ⟨enough, -⟩ := inside.header
  have low := inside.low
  have word {k : Kernel} {a : Word} (lt : a.toNat+8 ≤ 120)
      (h : Copying (imageBytes image.header stop) k₀ k) :
      k.loadWord (file + a) = some (load64 image.file a) := by
    refine inside.loadWord c sub lt (fun i small mem => off _ mem ?_) h
    have address : (file + i).toNat = file.toNat+i.toNat := by
      rw [BitVec.toNat_add]
      omega
    refine ⟨by omega, ?_⟩
    rw [show riruHeaderSize.toNat = 120 from rfl]
    omega
  obtain ⟨codeSize, codeVaddr, rodataSize, rodataVaddr, dataSize, dataVaddr, bssSize⟩ :=
    inside.fields
  refine (copySection_guards c (f := codeFields) (fun a here => .inl here) valid.code
    (fun h => codeSize ▸ word (by decide) h) (fun h => codeVaddr ▸ word (by decide) h)).bind
    fun _ => .ite (.pure _) ?_
  refine (copySection_guards c (f := rodataFields) (fun a here => .inr (.inl here)) valid.rodata
    (fun h => rodataSize ▸ word (by decide) h) (fun h => rodataVaddr ▸ word (by decide) h)).bind
    fun _ => .ite (.pure _) ?_
  refine (copySection_guards c (f := dataFields) (fun a here => .inr (.inr (.inl here)))
    valid.data (fun h => dataSize ▸ word (by decide) h)
    (fun h => dataVaddr ▸ word (by decide) h)).bind fun _ => .ite (.pure _) ?_
  refine Guards.read fun k here => ?_
  rw [show k.loadWord (file + bssSizeField) = some image.header.bssSize from
    bssSize ▸ word (by decide) here]
  exact zeroMemory_guards c (fun a here => .inr (.inr (.inr here))) bss

/-- The end of a load that leaves the header and the tables alone: it stores in the image only. -/
theorem finishLoad_confined {place : Places} {u : ℕ} {k : Kernel} (hs : Spaces place k)
    (space : UserSpace place k u) (user : k.riruUserCr3 = pageAddress u) {file size stop : Word}
    {image : RiruImage} (inside : InMemory file size image k) (valid : SectionsValid image.header)
    (bss : validRange (bssStart image.header stop) image.header.bssSize = true)
    (clear : Undisturbed file riruHeaderSize image.header stop k u) (base : Word)
    (log : List LoadEvent) :
    (∃ stores, ((finishLoad file image base stop).run (k, log)).2.2 =
        log ++ .switched k :: stores ∧ ∀ e ∈ stores, Stores (imageBytes image.header stop) e) ∧
      ((Memory.finishLoad file image base stop).run k).2.pmm = k.pmm ∧
      ∀ p, p ∉ imagePages image.header stop →
        ((Memory.finishLoad file image base stop).run k).2.memory p = k.memory p := by
  have c := clear.copyFrom hs space valid bss fun p mem => inside.page_lt p (inside.head mem)
  have inside' : InMemory file size image { k with currentPml4 := u, cr3 := pageAddress u } :=
    ⟨inside.parsed, inside.low, inside.bytes⟩
  have guards := copyImage_guards inside' c Set.subset_union_right clear.file valid bss
  obtain ⟨copied, stores, more, all⟩ := guards
    ({ k with currentPml4 := u, cr3 := pageAddress u }, log ++ [.switched k]) (Copying.refl _ _)
  have switch : switchToUser.run (k, log) =
      ((), { k with currentPml4 := u, cr3 := pageAddress u }, log ++ [.switched k]) :=
    congrArg (fun s : Unit × Kernel => (s.1, s.2, log ++ [LoadEvent.switched k]))
      (space.switch user)
  obtain ⟨k', run, pmm, memory⟩ : ∃ k', ((finishLoad file image base stop).run (k, log)).2 =
      (k', log ++ .switched k :: stores) ∧ k'.pmm = k.pmm ∧
      ∀ p, p ∉ imagePages image.header stop → k'.memory p = k.memory p := by
    have off (p : ℕ) (none : p ∉ imagePages image.header stop) :=
      copied.off p fun a mem eq => none (eq ▸ imageBytes_page mem)
    have pmm := congrArg Kernel.pmm copied.statics
    rw [List.append_assoc] at more
    rw [finishLoad, log_bind, switch, log_bind]
    dsimp only
    split_ifs
    · exact ⟨_, Prod.ext rfl more, pmm, off⟩
    · exact ⟨_, Prod.ext rfl more, pmm, off⟩
  obtain ⟨-, plain⟩ := finishLoad_erases file image base stop (k, log)
  rw [run] at plain
  rw [run, ← plain]
  exact ⟨⟨stores, rfl, all⟩, pmm, memory⟩

end Logged

end TinyOS.Memory
