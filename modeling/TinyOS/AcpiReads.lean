import TinyOS.Acpi

set_option autoImplicit false

namespace TinyOS.Acpi
open ByteWords EventLogs

variable {m : Firmware} {stop p q table entries : ℕ} {useXsdt : Bool} {signature : List UInt8}
  {s : Cpus} {l : List FirmwareRead} {r : FirmwareRead}

/-- The bytes lie in the table. -/
def Within (m : Firmware) (table : ℕ) (r : FirmwareRead) : Prop :=
  table ≤ r.address ∧ r.address+r.count ≤ table+tableLength m table

def firmwareReads {α : Type} (x : AcpiM α) (s : Cpus) : List FirmwareRead := (x.run (s, [])).2.2

/-- The entries that follow one another from `p` on. -/
inductive Comes (m : Firmware) (stop p : ℕ) : ℕ → Prop where
  | start : Comes m stop p p
  | next {q : ℕ} (h : Comes m stop p q) (inside : q+2 ≤ stop) (long : ¬m (q+1) < 2) :
      Comes m stop p (q+(m (q+1)).toNat)

/-- No Local APIC entry is cut off by the end of the table. -/
def LapicsWhole (m : Firmware) (madt : ℕ) : Prop :=
  ∀ q, Comes m (madt+tableLength m madt) (madt+madtSize) q → q+2 ≤ madt+tableLength m madt →
    m q = 0 → lapicSize ≤ m (q+1) → q+8 ≤ madt+tableLength m madt

def entryWidth (useXsdt : Bool) : ℕ := if useXsdt then 8 else 4

def entryRead (useXsdt : Bool) (entries i : ℕ) : FirmwareRead :=
  ⟨entries+i*entryWidth useXsdt, entryWidth useXsdt, true⟩

theorem readEntry_run {i : ℕ} : ∃ phys, (readEntry m useXsdt entries i).run (s, l) =
    (phys, (s, l ++ [entryRead useXsdt entries i])) := by
  cases useXsdt <;> exact ⟨_, rfl⟩

/-- The search reads the entries it comes to, the first one for certain. -/
theorem findEntry_reads (is : List ℕ) : ∃ new,
    ((findEntry m useXsdt signature entries is).run (s, l)).2.2 = l ++ new ∧
    (∀ r ∈ new, r.entry = true → ∃ i ∈ is, r = entryRead useXsdt entries i) ∧
    ∀ i ∈ is.head?, entryRead useXsdt entries i ∈ new := by
  induction is generalizing l with
  | nil => exact ⟨[], (List.append_nil l).symm, fun r mem => absurd mem List.not_mem_nil,
      fun i mem => by cases mem⟩
  | cons i rest ih =>
    obtain ⟨phys, entry⟩ := @readEntry_run m entries useXsdt s l i
    have compare (l' : List FirmwareRead) : ∃ found,
        (signatureIs m phys signature).run (s, l') = (found, (s, l' ++ [⟨phys, 4, false⟩])) :=
      ⟨_, rfl⟩
    obtain ⟨found, compared⟩ :=
      compare (l ++ [entryRead useXsdt entries i])
    rw [findEntry, log_bind, entry]
    dsimp only
    rw [log_bind, compared]
    dsimp only
    cases found with
    | true =>
      refine ⟨[entryRead useXsdt entries i, ⟨phys, 4, false⟩], List.append_assoc _ _ _,
        fun r mem isEntry => ?_, fun j head => ?_⟩
      · rcases List.mem_cons.mp mem with rfl | mem
        · exact ⟨i, List.mem_cons_self, rfl⟩
        · rw [List.mem_singleton.mp mem] at isEntry
          cases isEntry
      · obtain rfl := Option.some.inj head
        exact List.mem_cons_self
    | false =>
      rw [if_neg Bool.false_ne_true]
      obtain ⟨new, log, all, -⟩ := @ih
        (l ++ [entryRead useXsdt entries i] ++ [⟨phys, 4, false⟩])
      refine ⟨entryRead useXsdt entries i :: ⟨phys, 4, false⟩ :: new, ?_,
        fun r mem isEntry => ?_, fun j head => ?_⟩
      · rw [log, List.append_assoc, List.append_assoc]
        rfl
      · rcases List.mem_cons.mp mem with rfl | mem
        · exact ⟨i, List.mem_cons_self, rfl⟩
        · rcases List.mem_cons.mp mem with rfl | mem
          · cases isEntry
          · obtain ⟨j, hj, eq⟩ := all r mem isEntry
            exact ⟨j, List.mem_cons_of_mem _ hj, eq⟩
      · obtain rfl := Option.some.inj head
        exact List.mem_cons_self

/-- The number of entries `find_table` goes by. -/
def entryCount (m : Firmware) (table : ℕ) (useXsdt : Bool) : ℕ :=
  (wordAt m (table+4)-sdtHeaderSize).toNat/entryWidth useXsdt

theorem findTable_run : (findTable m table useXsdt signature).run (s, l) =
    (findEntry m useXsdt signature (table+36) (List.range (entryCount m table useXsdt))).run
      (s, l ++ [⟨table+4, 4, false⟩]) := by
  have count : (if useXsdt then (wordAt m (table+4)-sdtHeaderSize)/8
      else (wordAt m (table+4)-sdtHeaderSize)/4).toNat = entryCount m table useXsdt := by
    cases useXsdt <;> exact UInt32.toNat_div _ _
  rw [findTable, readLength, log_bind, read32_run]
  dsimp only
  rw [count]

/-- The root table must have room for its own header, and that is enough. -/
theorem findTable_within :
    (∀ r ∈ firmwareReads (findTable m table useXsdt signature) s,
      r.entry = true → Within m table r) ↔ 36 ≤ tableLength m table := by
  obtain ⟨new, log, entry, first⟩ := @findEntry_reads m (table+36) useXsdt signature s
    [⟨table+4, 4, false⟩] (List.range (entryCount m table useXsdt))
  have reads : firmwareReads (findTable m table useXsdt signature) s =
      [⟨table+4, 4, false⟩] ++ new := by
    rw [firmwareReads, findTable_run]
    exact log
  have small : (wordAt m (table+4)).toNat < 2^32 := (wordAt m (table+4)).toNat_lt
  have header : sdtHeaderSize.toNat = 36 := rfl
  have width : entryWidth useXsdt = 8 ∨ entryWidth useXsdt = 4 := by
    cases useXsdt
    · exact .inr rfl
    · exact .inl rfl
  rw [reads]
  constructor
  · intro inside
    by_contra short
    rw [tableLength] at short
    have wrapped : (wordAt m (table+4)-sdtHeaderSize).toNat =
        2^32-36+(wordAt m (table+4)).toNat := by
      rw [UInt32.toNat_sub, header]
      omega
    have some : 0 < entryCount m table useXsdt := by
      rw [entryCount, wrapped]
      rcases width with eq | eq <;> rw [eq] <;> omega
    have head : 0 ∈ (List.range (entryCount m table useXsdt)).head? := by
      rw [List.head?_range, if_neg (by omega)]
      rfl
    obtain ⟨-, high⟩ := inside _ (List.mem_append_right _ (first 0 head)) rfl
    rw [tableLength, entryRead] at high
    dsimp only at high
    rcases width with eq | eq <;> rw [eq] at high <;> omega
  · intro room r mem isEntry
    rw [tableLength] at room
    have exact' : (wordAt m (table+4)-sdtHeaderSize).toNat = (wordAt m (table+4)).toNat-36 := by
      rw [UInt32.toNat_sub_of_le _ _ (UInt32.le_iff_toNat_le.mpr (header.le.trans room)),
        header]
    rcases List.mem_append.mp mem with head | mem
    · rw [List.mem_singleton.mp head] at isEntry
      cases isEntry
    · obtain ⟨i, hi, rfl⟩ := entry r mem isEntry
      rw [List.mem_range, entryCount, exact'] at hi
      rw [Within, tableLength, entryRead]
      dsimp only
      rcases width with eq | eq <;> rw [eq] at hi ⊢ <;> omega

theorem Comes.le (h : Comes m stop p q) : p ≤ q := by
  induction h with
  | start => exact le_refl p
  | next h inside long ih => exact ih.trans (Nat.le_add_right _ _)

theorem Comes.head (inside : p+2 ≤ stop) (long : ¬m (p+1) < 2)
    (h : Comes m stop (p+(m (p+1)).toNat) q) : Comes m stop p q := by
  induction h with
  | start => exact .next .start inside long
  | next h inside long ih => exact .next ih inside long

theorem comes_iff : Comes m stop p q ↔
    q = p ∨ p+2 ≤ stop ∧ ¬m (p+1) < 2 ∧ Comes m stop (p+(m (p+1)).toNat) q := by
  constructor
  · intro h
    induction h with
    | start => exact .inl rfl
    | next h inside long ih =>
      rcases ih with rfl | ⟨inside', long', comes⟩
      · exact .inr ⟨inside, long, .start⟩
      · exact .inr ⟨inside', long', .next comes inside long⟩
  · rintro (rfl | ⟨inside, long, h⟩)
    · exact .start
    · exact h.head inside long

/-- The walk reads of each entry it comes to what `roundReads` says. -/
theorem madtLoop_reads (m : Firmware) (stop p : ℕ) (s : Cpus) (l : List FirmwareRead) : ∃ new,
    ((madtLoop m stop p).run (s, l)).2.2 = l ++ new ∧
      ∀ r, r ∈ new ↔ ∃ q, Comes m stop p q ∧ q+2 ≤ stop ∧ r ∈ roundReads m q := by
  generalize size : stop-p = n
  induction n using Nat.strong_induction_on generalizing p s l with
  | _ n ih =>
    rw [madtLoop_run]
    by_cases inside : p+2 ≤ stop
    · rw [if_pos inside]
      by_cases short : m (p+1) < 2
      · have off : ¬(m p = 0 ∧ lapicSize ≤ m (p+1)) := by
          rintro ⟨-, eight⟩
          rw [UInt8.lt_iff_toNat_lt] at short
          rw [UInt8.le_iff_toNat_le] at eight
          have sizes : (2 : UInt8).toNat = 2 ∧ lapicSize.toNat = 8 := ⟨rfl, rfl⟩
          omega
        have reads : roundReads m p = [⟨p, 1, false⟩, ⟨p+1, 1, false⟩] := by
          rw [roundReads, if_neg off]
        rw [if_pos short]
        refine ⟨roundReads m p, by rw [reads], fun r => ?_⟩
        constructor
        · exact fun mem => ⟨p, .start, inside, mem⟩
        · rintro ⟨q, comes, -, mem⟩
          rcases comes_iff.mp comes with rfl | ⟨-, long, -⟩
          · exact mem
          · exact absurd short long
      · have long := short
        rw [UInt8.lt_iff_toNat_lt] at long
        have two : (2 : UInt8).toNat = 2 := rfl
        obtain ⟨new, log, all⟩ := ih (stop-(p+(m (p+1)).toNat)) (by omega)
          (p+(m (p+1)).toNat) (s.visit m p) (l ++ roundReads m p) rfl
        rw [if_neg short]
        refine ⟨roundReads m p ++ new, by rw [log, List.append_assoc], fun r => ?_⟩
        rw [List.mem_append, all]
        constructor
        · rintro (mem | ⟨q, comes, le, mem⟩)
          · exact ⟨p, .start, inside, mem⟩
          · exact ⟨q, comes.head inside short, le, mem⟩
        · rintro ⟨q, comes, le, mem⟩
          rcases comes_iff.mp comes with rfl | ⟨-, -, comes⟩
          · exact .inl mem
          · exact .inr ⟨q, comes, le, mem⟩
    · rw [if_neg inside]
      refine ⟨[], (List.append_nil l).symm, fun r => ?_⟩
      constructor
      · exact fun mem => absurd mem List.not_mem_nil
      · rintro ⟨q, comes, le, -⟩
        have := comes.le
        omega

/-- What `parse_madt` reads of a table with a right checksum. -/
theorem parseMadt_reads (valid : ChecksumOk m p) : r ∈ firmwareReads (parseMadt m p) s ↔
    r = ⟨p+4, 4, false⟩ ∨ (∃ i < tableLength m p, r = ⟨p+i, 1, false⟩) ∨ r = ⟨p+36, 4, false⟩ ∨
      ∃ q, Comes m (p+tableLength m p) (p+madtSize) q ∧ q+2 ≤ p+tableLength m p ∧
        r ∈ roundReads m q := by
  obtain ⟨new, log, all⟩ := madtLoop_reads m (p+tableLength m p) (p+madtSize)
    { s with lapicBase := (wordAt m (p+36)).toUInt64 }
    ([] ++ headReads m p ++ [⟨p+36, 4, false⟩] ++ [⟨p+4, 4, false⟩])
  have reads : firmwareReads (parseMadt m p) s =
      [] ++ headReads m p ++ [⟨p+36, 4, false⟩] ++ [⟨p+4, 4, false⟩] ++ new := by
    rw [firmwareReads, parseMadt_run valid]
    exact log
  have sum : r ∈ (List.range (tableLength m p)).map (fun i => (⟨p+i, 1, false⟩ : FirmwareRead)) ↔
      ∃ i < tableLength m p, r = ⟨p+i, 1, false⟩ := by
    simp only [List.mem_map, List.mem_range, eq_comm]
  rw [reads, List.nil_append, List.mem_append, List.mem_append, List.mem_append, headReads,
    List.mem_cons, sum, List.mem_singleton, List.mem_singleton, all]
  -- the length is read twice
  have twice {a b c d : Prop} : (((a ∨ b) ∨ c) ∨ a) ∨ d ↔ a ∨ b ∨ c ∨ d := by tauto
  exact twice

/-- The MADT must reach past its Local APIC address and cut off no Local APIC entry, and that is
enough. -/
theorem parseMadt_within (valid : ChecksumOk m p) :
    (∀ r ∈ firmwareReads (parseMadt m p) s, Within m p r) ↔
      40 ≤ tableLength m p ∧ LapicsWhole m p := by
  constructor
  · intro inside
    constructor
    · obtain ⟨-, high⟩ := inside ⟨p+36, 4, false⟩
        ((parseMadt_reads valid).mpr (.inr (.inr (.inl rfl))))
      dsimp only at high
      omega
    · intro q comes le type eight
      refine (inside ⟨q, 8, false⟩ ((parseMadt_reads valid).mpr ?_)).2
      refine .inr (.inr (.inr ⟨q, comes, le, ?_⟩))
      rw [roundReads, if_pos ⟨type, eight⟩]
      exact List.mem_cons_of_mem _ (List.mem_cons_of_mem _ List.mem_cons_self)
  · rintro ⟨room, whole⟩ r mem
    rcases (parseMadt_reads valid).mp mem with rfl | ⟨i, lt, rfl⟩ | rfl | ⟨q, comes, le, mem⟩
    · exact ⟨Nat.le_add_right p 4, by dsimp only; omega⟩
    · exact ⟨Nat.le_add_right p i, by dsimp only; omega⟩
    · exact ⟨Nat.le_add_right p 36, by dsimp only; omega⟩
    · have low : p ≤ q := (Nat.le_add_right p madtSize).trans comes.le
      rw [roundReads, List.mem_cons, List.mem_cons] at mem
      rcases mem with rfl | rfl | mem
      · exact ⟨low, by dsimp only; omega⟩
      · exact ⟨low.trans (Nat.le_succ q), by dsimp only; omega⟩
      · rw [List.mem_ite_nil_right, List.mem_singleton] at mem
        obtain ⟨⟨type, eight⟩, rfl⟩ := mem
        exact ⟨low, whole q comes le type eight⟩

/-- When the readers of the tables stay inside them. -/
theorem tables_read_inside (m : Firmware) (root madt : ℕ) (useXsdt : Bool)
    (signature : List UInt8) (s : Cpus) (valid : ChecksumOk m madt) :
    ((∀ r ∈ firmwareReads (findTable m root useXsdt signature) s,
      r.entry = true → Within m root r) ↔ 36 ≤ tableLength m root) ∧
    ((∀ r ∈ firmwareReads (parseMadt m madt) s, Within m madt r) ↔
      40 ≤ tableLength m madt ∧ LapicsWhole m madt) :=
  ⟨findTable_within, parseMadt_within valid⟩

theorem tables_read_inside_mixed : ChecksumOk mixedMadt 0 ∧
    ∀ r ∈ firmwareReads (parseMadt mixedMadt 0) noCpus, Within mixedMadt 0 r := by
  refine ⟨mixedMadt_valid,
    (tables_read_inside mixedMadt 0 0 false [] noCpus mixedMadt_valid).2.mpr ⟨?_, ?_⟩⟩
  · rw [mixedMadt_length]
    decide
  intro q comes le type eight
  rw [mixedMadt_length] at comes le ⊢
  have step {p d : ℕ} (len : (mixedMadt (p+1)).toNat = d) (h : Comes mixedMadt 80 p q) :
      q = p ∨ Comes mixedMadt 80 (p+d) q := by
    rcases comes_iff.mp h with eq | ⟨-, -, later⟩
    · exact .inl eq
    · rw [len] at later
      exact .inr later
  -- the entries stand at 44, 52, 60 and 72
  rcases @step 44 8 (by decide +kernel) comes with rfl | comes
  · decide
  rcases @step 52 8 (by decide +kernel) comes with rfl | comes
  · decide
  rcases @step 60 12 (by decide +kernel) comes with rfl | comes
  · decide
  rcases @step 72 8 (by decide +kernel) comes with rfl | comes
  · decide
  have past : 80 ≤ q := comes.le
  omega

/-- A root table at 0x1000 that lists an MADT at 0x2000 of 46 bytes: of its one entry, eight bytes
long by its own account, two are in the table. -/
def cutMadt (a : ℕ) : UInt8 :=
  if a = 0x1004 then 40 else if a = 0x1009 then 184 else if a = 0x1025 then 0x20
  else if a = 0x2000 then 65 else if a = 0x2001 then 80 else if a = 0x2002 then 73
  else if a = 0x2003 then 67 else if a = 0x2004 then 46 else if a = 0x2009 then 173
  else if a = 0x202D then 8 else 0

theorem madt_overread : ¬∀ (m : Firmware) (root madt : ℕ) (useXsdt : Bool)
    (signature : List UInt8) (s : Cpus), ChecksumOk m root → ChecksumOk m madt →
    (∀ r ∈ firmwareReads (findTable m root useXsdt signature) s,
      r.entry = true → Within m root r) ∧
    ∀ r ∈ firmwareReads (parseMadt m madt) s, Within m madt r := by
  intro all
  have valid : ChecksumOk cutMadt 0x1000 ∧ ChecksumOk cutMadt 0x2000 := by
    unfold ChecksumOk
    decide
  have inside := (all cutMadt 0x1000 0x2000 false [65, 80, 73, 67] noCpus
    valid.1 valid.2).2
  obtain ⟨-, whole⟩ := (parseMadt_within valid.2).mp inside
  have cut := whole (0x2000+madtSize) .start (by decide) (by decide) (by decide)
  exact absurd cut (by decide)

end TinyOS.Acpi
