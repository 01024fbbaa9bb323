import TinyOS.ByteWords
import TinyOS.EventLogs

set_option autoImplicit false

/-! The ACPI tables (acpi/acpi.c): the search of the root table and the walk of the MADT.
Firmware memory is addressed by natural numbers; what is read of it is logged. -/
namespace TinyOS.Acpi
open ByteWords EventLogs

abbrev Firmware := ℕ → UInt8

abbrev acpiMaxCpus : ℕ := 4

/-- `sizeof(acpi_sdt_header_t)`, `sizeof(acpi_madt_t)` and `sizeof(acpi_madt_lapic_t)` -/
abbrev sdtHeaderSize : UInt32 := 36
abbrev madtSize : ℕ := 44
abbrev lapicSize : UInt8 := 8

/-- `g_lapic_ids`, `g_cpu_count` and `g_lapic_base` -/
structure Cpus where
  lapicIds : Fin acpiMaxCpus → UInt32
  cpuCount : ℕ
  lapicBase : UInt64

structure FirmwareRead where
  address : ℕ
  count : ℕ
  entry : Bool
  deriving DecidableEq

abbrev AcpiM := LogM Cpus FirmwareRead

def read8 (m : Firmware) (p : ℕ) : AcpiM UInt8 := fetch ⟨p, 1, false⟩ fun _ => m p

def read32 (m : Firmware) (p : ℕ) : AcpiM UInt32 := fetch ⟨p, 4, false⟩ fun _ => wordAt m p

def readLength (m : Firmware) (table : ℕ) : AcpiM UInt32 := read32 m (table+4)

/-- The loop of `checksum_ok`. -/
def checksumFrom (m : Firmware) (data : ℕ) : List ℕ → UInt8 → AcpiM UInt8
  | [], sum => pure sum
  | i :: rest, sum => do
    let byte ← read8 m (data+i)
    checksumFrom m data rest (sum+byte)

def checksumOk (m : Firmware) (data : ℕ) (length : UInt32) : AcpiM Bool := do
  let sum ← checksumFrom m data (List.range length.toNat) 0
  return sum = 0

/-- The `i`-th address in the root table; there are less than `2^30` of them, so the 32-bit
offset does not wrap. -/
def readEntry (m : Firmware) (useXsdt : Bool) (entries i : ℕ) : AcpiM ℕ :=
  if useXsdt then
    fetch ⟨entries+i*8, 8, true⟩ fun _ =>
      (wordAt m (entries+i*8)).toNat+2^32*(wordAt m (entries+i*8+4)).toNat
  else fetch ⟨entries+i*4, 4, true⟩ fun _ => (wordAt m (entries+i*4)).toNat

/-- `memcmp(table->signature, signature, 4) == 0` -/
def signatureIs (m : Firmware) (table : ℕ) (signature : List UInt8) : AcpiM Bool :=
  fetch ⟨table, 4, false⟩ fun _ => (List.range 4).map (fun i => m (table+i)) = signature

/-- The loop of `find_table`. -/
def findEntry (m : Firmware) (useXsdt : Bool) (signature : List UInt8) (entries : ℕ) :
    List ℕ → AcpiM ℕ
  | [] => pure 0
  | i :: rest => do
    let phys ← readEntry m useXsdt entries i
    let found ← signatureIs m phys signature
    if found then pure phys else findEntry m useXsdt signature entries rest

def findTable (m : Firmware) (tableBase : ℕ) (useXsdt : Bool) (signature : List UInt8) :
    AcpiM ℕ := do
  let length ← readLength m tableBase
  let entryCount :=
    if useXsdt then (length-sdtHeaderSize)/8 else (length-sdtHeaderSize)/4
  findEntry m useXsdt signature (tableBase+36) (List.range entryCount.toNat)

/-- `g_lapic_ids[g_cpu_count++] = id`, if there is room -/
def Cpus.add (s : Cpus) (id : UInt32) : Cpus :=
  if room : s.cpuCount < acpiMaxCpus then
    { s with
      lapicIds := Function.update s.lapicIds ⟨s.cpuCount, room⟩ id
      cpuCount := s.cpuCount+1 }
  else s

def noteLapic (m : Firmware) (p : ℕ) : AcpiM Unit := do
  let entry ← fetch ⟨p, 8, false⟩ fun _ => (m (p+3), wordAt m (p+4))
  if entry.2 &&& 1 ≠ 0 then silent (modify fun s => s.add entry.1.toUInt32)

/-- `while (p + 2 <= end)` -/
def madtLoop (m : Firmware) (stop p : ℕ) : AcpiM Unit :=
  if p+2 ≤ stop then do
    let type ← read8 m p
    let len ← read8 m (p+1)
    if _ : len < 2 then pure ()
    else do
      if type = 0 ∧ lapicSize ≤ len then noteLapic m p
      madtLoop m stop (p+len.toNat)
  else pure ()
termination_by stop-p
decreasing_by
  have long := ‹¬len < 2›
  rw [UInt8.lt_iff_toNat_lt] at long
  have two : (2 : UInt8).toNat = 2 := rfl
  omega

def parseMadt (m : Firmware) (madt : ℕ) : AcpiM Bool := do
  let length ← readLength m madt
  let ok ← checksumOk m madt length
  if ok then do
    let base ← read32 m (madt+36)
    silent (modify fun s => { s with lapicBase := base.toUInt64 })
    let length ← readLength m madt
    madtLoop m (madt+length.toNat) (madt+madtSize)
    let s ← silent get
    return decide (0 < s.cpuCount)
  else return false

def tableLength (m : Firmware) (table : ℕ) : ℕ := (wordAt m (table+4)).toNat

def ChecksumOk (m : Firmware) (table : ℕ) : Prop :=
  (List.range (tableLength m table)).foldl (fun sum i => sum+m (table+i)) 0 = 0

/-- An MADT entry is its bytes: the second one is their number, at least 2. -/
structure Entry where
  bytes : List UInt8
  long : 2 ≤ bytes.length
  sized : (bytes.getD 1 0).toNat = bytes.length

def Entry.apicId (e : Entry) : Option UInt32 :=
  if e.bytes.getD 0 0 = 0 ∧ 8 ≤ e.bytes.length ∧ e.bytes.getD 4 0 &&& 1 ≠ 0 then
    some (e.bytes.getD 3 0).toUInt32
  else none

def Tiles (m : Firmware) (stop : ℕ) : List Entry → ℕ → Prop
  | [], p => p = stop
  | e :: rest, p => (∀ i < e.bytes.length, m (p+i) = e.bytes.getD i 0) ∧
      Tiles m stop rest (p+e.bytes.length)

variable {m : Firmware} {data stop p : ℕ} {s : Cpus} {l : List FirmwareRead}

theorem read8_run : (read8 m p).run (s, l) = (m p, (s, l ++ [⟨p, 1, false⟩])) := rfl

theorem read32_run : (read32 m p).run (s, l) = (wordAt m p, (s, l ++ [⟨p, 4, false⟩])) := rfl

theorem checksumFrom_run (is : List ℕ) (sum : UInt8) :
    (checksumFrom m data is sum).run (s, l) =
      (is.foldl (fun sum i => sum+m (data+i)) sum,
        (s, l ++ is.map fun i => ⟨data+i, 1, false⟩)) := by
  induction is generalizing sum l with
  | nil =>
    rw [List.map_nil, List.append_nil]
    rfl
  | cons i rest ih =>
    change (checksumFrom m data rest (sum+m (data+i))).run (s, l ++ [⟨data+i, 1, false⟩]) = _
    rw [ih, List.append_assoc]
    rfl

theorem checksumOk_run (length : UInt32) : (checksumOk m data length).run (s, l) =
    (decide ((List.range length.toNat).foldl (fun sum i => sum+m (data+i)) 0 = 0),
      (s, l ++ (List.range length.toNat).map fun i => ⟨data+i, 1, false⟩)) := by
  rw [checksumOk, log_bind, checksumFrom_run]
  rfl

theorem wordAt_and_one : wordAt m p &&& 1 ≠ 0 ↔ m p &&& 1 ≠ 0 := by
  have low : (wordAt m p).toNat%2 = (m p).toNat%2 := by
    rw [wordAt_toNat]
    omega
  rw [ne_eq, ne_eq, not_iff_not, ← UInt32.toNat_inj, ← UInt8.toNat_inj, UInt32.toNat_and,
    UInt8.toNat_and]
  change (wordAt m p).toNat &&& 1 = 0 ↔ (m p).toNat &&& 1 = 0
  rw [Nat.and_one_is_mod, Nat.and_one_is_mod, low]

def roundReads (m : Firmware) (p : ℕ) : List FirmwareRead :=
  ⟨p, 1, false⟩ :: ⟨p+1, 1, false⟩ ::
    if m p = 0 ∧ lapicSize ≤ m (p+1) then [⟨p, 8, false⟩] else []

def Cpus.visit (m : Firmware) (p : ℕ) (s : Cpus) : Cpus :=
  if m p = 0 ∧ lapicSize ≤ m (p+1) ∧ wordAt m (p+4) &&& 1 ≠ 0 then s.add (m (p+3)).toUInt32 else s

theorem noteLapic_run : (noteLapic m p).run (s, l) =
    ((), (if wordAt m (p+4) &&& 1 ≠ 0 then s.add (m (p+3)).toUInt32 else s,
      l ++ [⟨p, 8, false⟩])) := by
  rw [noteLapic, log_bind]
  change (if wordAt m (p+4) &&& 1 ≠ 0 then _ else _ : AcpiM Unit).run _ = _
  split_ifs <;> rfl

theorem madtLoop_run (m : Firmware) (stop p : ℕ) (s : Cpus) (l : List FirmwareRead) :
    (madtLoop m stop p).run (s, l) =
      if p+2 ≤ stop then
        if m (p+1) < 2 then ((), (s, l ++ [⟨p, 1, false⟩, ⟨p+1, 1, false⟩]))
        else (madtLoop m stop (p+(m (p+1)).toNat)).run (s.visit m p, l ++ roundReads m p)
      else ((), (s, l)) := by
  rw [madtLoop]
  by_cases inside : p+2 ≤ stop
  · rw [if_pos inside, if_pos inside, log_bind, read8_run, log_bind, read8_run]
    dsimp only
    rw [List.append_assoc]
    by_cases short : m (p+1) < 2
    · rw [dif_pos short, if_pos short]
      rfl
    · rw [dif_neg short, if_neg short]
      by_cases lapic : m p = 0 ∧ lapicSize ≤ m (p+1)
      · rw [if_pos lapic, log_bind, noteLapic_run, roundReads, if_pos lapic, List.append_assoc,
          Cpus.visit]
        simp only [lapic, true_and]
        rfl
      · have off : ¬(m p = 0 ∧ lapicSize ≤ m (p+1) ∧ wordAt m (p+4) &&& 1 ≠ 0) :=
          fun h => lapic ⟨h.1, h.2.1⟩
        rw [if_neg lapic, roundReads, if_neg lapic, Cpus.visit, if_neg off]
        rfl
  · rw [if_neg inside, if_neg inside]
    rfl

theorem visit_entry {e : Entry} (here : ∀ i < e.bytes.length, m (p+i) = e.bytes.getD i 0) :
    s.visit m p = (e.apicId.elim s s.add) := by
  have long := e.long
  have type : m p = e.bytes.getD 0 0 := here 0 (by omega)
  have len := here 1 (by omega)
  have size : lapicSize ≤ m (p+1) ↔ 8 ≤ e.bytes.length := by
    rw [len, UInt8.le_iff_toNat_le, e.sized]
    rfl
  rw [Cpus.visit, Entry.apicId]
  by_cases lapic : m p = 0 ∧ lapicSize ≤ m (p+1)
  · have eight := size.mp lapic.2
    have flags : wordAt m (p+4) &&& 1 ≠ 0 ↔ e.bytes.getD 4 0 &&& 1 ≠ 0 := by
      rw [wordAt_and_one, here 4 (by omega)]
    have cond : (m p = 0 ∧ lapicSize ≤ m (p+1) ∧ wordAt m (p+4) &&& 1 ≠ 0) ↔
        (e.bytes.getD 0 0 = 0 ∧ 8 ≤ e.bytes.length ∧ e.bytes.getD 4 0 &&& 1 ≠ 0) := by
      rw [type, size, flags]
    by_cases enabled : e.bytes.getD 0 0 = 0 ∧ 8 ≤ e.bytes.length ∧ e.bytes.getD 4 0 &&& 1 ≠ 0
    · rw [if_pos enabled, if_pos (cond.mpr enabled), here 3 (by omega)]
      rfl
    · rw [if_neg enabled, if_neg (cond.not.mpr enabled)]
      rfl
  · rw [if_neg fun h => lapic ⟨h.1, h.2.1⟩, if_neg fun h => lapic ⟨type.trans h.1, size.mpr h.2.1⟩]
    rfl

/-- Over tiling entries the walk adds the ids of the enabled ones in order. -/
theorem madtLoop_tiles {entries : List Entry} (tiles : Tiles m stop entries p) :
    ((madtLoop m stop p).run (s, l)).2.1 = (entries.filterMap Entry.apicId).foldl Cpus.add s := by
  induction entries generalizing p s l with
  | nil =>
    obtain rfl : p = stop := tiles
    rw [madtLoop_run, if_neg (by omega)]
    rfl
  | cons e rest ih =>
    obtain ⟨here, later⟩ := tiles
    have long := e.long
    have len : (m (p+1)).toNat = e.bytes.length := by
      rw [here 1 (by omega), e.sized]
    have inside : p+e.bytes.length ≤ stop := by
      clear ih here len
      generalize p+e.bytes.length = q at later
      induction rest generalizing q with
      | nil => exact le_of_eq later
      | cons e' rest ih => exact (Nat.le_add_right q _).trans (ih _ later.2)
    have some : ¬m (p+1) < 2 := by
      rw [UInt8.lt_iff_toNat_lt, len]
      exact Nat.not_lt.mpr long
    rw [madtLoop_run, if_pos (by omega), if_neg some, len, ih later, visit_entry here,
      List.filterMap_cons]
    cases e.apicId <;> rfl

theorem foldl_add (ids : List UInt32) {given : List UInt32}
    (count : s.cpuCount = min acpiMaxCpus given.length)
    (same : ∀ i : Fin acpiMaxCpus, i.val < s.cpuCount → given[i.val]? = some (s.lapicIds i)) :
    (ids.foldl Cpus.add s).cpuCount = min acpiMaxCpus (given ++ ids).length ∧
      ∀ i : Fin acpiMaxCpus, i.val < (ids.foldl Cpus.add s).cpuCount →
        (given ++ ids)[i.val]? = some ((ids.foldl Cpus.add s).lapicIds i) := by
  induction ids generalizing s given with
  | nil =>
    rw [List.append_nil]
    exact ⟨count, same⟩
  | cons id rest ih =>
    rw [List.foldl_cons, List.append_cons]
    have size : (given ++ [id]).length = given.length+1 := by simp
    by_cases room : s.cpuCount < acpiMaxCpus
    · have whole : s.cpuCount = given.length := by omega
      refine ih ?_ fun i lt => ?_
      · rw [Cpus.add, dif_pos room, size]
        dsimp only
        omega
      · rw [Cpus.add, dif_pos room] at lt ⊢
        dsimp only at lt ⊢
        by_cases last : i.val = s.cpuCount
        · have self : i = ⟨s.cpuCount, room⟩ := Fin.ext last
          rw [self, Function.update_self, ← self, last, whole]
          simp
        · rw [Function.update_of_ne (fun eq => last (congrArg Fin.val eq)),
            List.getElem?_append_left (by omega)]
          exact same i (by omega)
    · refine ih ?_ fun i lt => ?_
      · rw [Cpus.add, dif_neg room, size]
        omega
      · rw [Cpus.add, dif_neg room] at lt ⊢
        rw [List.getElem?_append_left (by omega)]
        exact same i lt

/-- What `parse_madt` reads before the entries. -/
def headReads (m : Firmware) (madt : ℕ) : List FirmwareRead :=
  ⟨madt+4, 4, false⟩ :: (List.range (tableLength m madt)).map fun i => ⟨madt+i, 1, false⟩

theorem parseMadt_run (valid : ChecksumOk m p) : (parseMadt m p).run (s, l) =
    let base := { s with lapicBase := (wordAt m (p+36)).toUInt64 }
    let walk := (madtLoop m (p+tableLength m p) (p+madtSize)).run
      (base, l ++ headReads m p ++ [⟨p+36, 4, false⟩] ++ [⟨p+4, 4, false⟩])
    (decide (0 < walk.2.1.cpuCount), walk.2) := by
  have head : (checksumOk m p (wordAt m (p+4))).run (s, l ++ [⟨p+4, 4, false⟩]) =
      (true, (s, l ++ headReads m p)) := by
    rw [checksumOk_run, headReads, List.append_assoc]
    congr 1
    exact decide_eq_true valid
  rw [parseMadt, readLength, log_bind, read32_run, log_bind, head]
  dsimp only
  rw [if_pos rfl, log_bind, read32_run, log_bind, log_bind]
  rfl

/-- On tiling entries `parse_madt` keeps the first ids and tells whether there are any. -/
theorem parseMadt_cpus (m : Firmware) (madt : ℕ) (s : Cpus) (entries : List Entry)
    (valid : ChecksumOk m madt) (tiles : Tiles m (madt+tableLength m madt) entries (madt+madtSize))
    (fresh : s.cpuCount = 0) :
    let ids := entries.filterMap Entry.apicId
    let result := (parseMadt m madt).run (s, [])
    result.2.1.cpuCount = min acpiMaxCpus ids.length ∧
      (∀ i : Fin acpiMaxCpus, i.val < result.2.1.cpuCount →
        ids[i.val]? = some (result.2.1.lapicIds i)) ∧
      (result.1 = true ↔ ids ≠ []) := by
  intro ids result
  have run : result.2.1 =
      ids.foldl Cpus.add { s with lapicBase := (wordAt m (madt+36)).toUInt64 } := by
    change ((parseMadt m madt).run (s, [])).2.1 = _
    rw [parseMadt_run valid]
    exact madtLoop_tiles tiles
  have value : result.1 = decide (0 < result.2.1.cpuCount) := by
    change ((parseMadt m madt).run (s, [])).1 =
      decide (0 < ((parseMadt m madt).run (s, [])).2.1.cpuCount)
    rw [parseMadt_run valid]
  have all := @foldl_add { s with lapicBase := (wordAt m (madt+36)).toUInt64 } ids []
    (fresh.trans (by simp)) fun i lt => by
      change i.val < s.cpuCount at lt
      omega
  rw [List.nil_append, ← run] at all
  obtain ⟨count, same⟩ := all
  refine ⟨count, same, ?_⟩
  rw [value, decide_eq_true_eq, count, ← List.length_pos_iff]
  simp

/-- Two enabled processors of APIC ids 7 and 9, a disabled one between them and an I/O APIC. -/
def mixedEntries : List Entry :=
  [⟨[0, 8, 0, 7, 1, 0, 0, 0], by decide, by decide⟩,
    ⟨[0, 8, 1, 5, 0, 0, 0, 0], by decide, by decide⟩,
    ⟨[1, 12, 2, 0, 0, 0, 192, 254, 0, 0, 0, 0], by decide, by decide⟩,
    ⟨[0, 8, 3, 9, 1, 0, 0, 0], by decide, by decide⟩]

/-- Their MADT, at address 0: 44 bytes of header, the Local APIC at 0xFEE00000. -/
def mixedMadt (a : ℕ) : UInt8 :=
  ([65, 80, 73, 67, 80, 0, 0, 0, 0, 181] ++ List.replicate 26 0 ++ [0, 0, 224, 254, 0, 0, 0, 0] ++
    (mixedEntries.map Entry.bytes).flatten).getD a 0

def noCpus : Cpus := ⟨fun _ => 0, 0, 0⟩

theorem mixedMadt_valid : ChecksumOk mixedMadt 0 := by
  unfold ChecksumOk
  decide +kernel

theorem mixedMadt_length : tableLength mixedMadt 0 = 80 := by
  decide +kernel

theorem mixedMadt_tiles : Tiles mixedMadt 80 mixedEntries 44 := by
  refine ⟨?_, ?_, ?_, ?_, rfl⟩ <;> decide +kernel

theorem parseMadt_cpus_mixed : ((parseMadt mixedMadt 0).run (noCpus, [])).1 = true ∧
    ((parseMadt mixedMadt 0).run (noCpus, [])).2.1.cpuCount = 2 ∧
    ((parseMadt mixedMadt 0).run (noCpus, [])).2.1.lapicIds 0 = 7 ∧
    ((parseMadt mixedMadt 0).run (noCpus, [])).2.1.lapicIds 1 = 9 := by
  have ids : mixedEntries.filterMap Entry.apicId = [7, 9] := by decide
  have tiles : Tiles mixedMadt (0+tableLength mixedMadt 0) mixedEntries (0+madtSize) := by
    rw [Nat.zero_add, Nat.zero_add, mixedMadt_length]
    exact mixedMadt_tiles
  have known := parseMadt_cpus mixedMadt 0 noCpus mixedEntries mixedMadt_valid tiles rfl
  dsimp only at known
  rw [ids] at known
  generalize (parseMadt mixedMadt 0).run (noCpus, []) = result at known ⊢
  obtain ⟨count, same, found⟩ := known
  have first := same 0 (by rw [count]; decide)
  have second := same 1 (by rw [count]; decide)
  exact ⟨found.mpr (List.cons_ne_nil 7 [9]), count, (Option.some.inj first).symm,
    (Option.some.inj second).symm⟩

end TinyOS.Acpi
