import TinyOS.RiruPack

set_option autoImplicit false

namespace TinyOS.Riru
open Memory

variable {elf : Bytes} {elfSize first : Word} {s : Segments} {segment : SegmentInfo}
  {phs : List ProgramHeader}

def codeSegments (elf : Bytes) : List ProgramHeader :=
  (programHeaders elf).filter fun ph => ph.type = ptLoad ∧ ph.flags &&& pfX ≠ 0

def dataSegments (elf : Bytes) : List ProgramHeader :=
  (programHeaders elf).filter fun ph =>
    ph.type = ptLoad ∧ ph.flags &&& pfX = 0 ∧ ph.flags &&& pfW ≠ 0

def rodataSegments (elf : Bytes) : List ProgramHeader :=
  (programHeaders elf).filter fun ph => ph.type = ptLoad ∧ ph.flags &&& pfX = 0 ∧
    ph.flags &&& pfW = 0 ∧ ∃ code ∈ codeSegments elf, code.vaddr ≤ ph.vaddr

/-- The first segment of a class has an address, or no segment reaches beyond its offset in the
file: the section is empty then. -/
def Addressed (segments : List ProgramHeader) : Prop :=
  ∀ ph, segments.head? = some ph → ph.vaddr = 0 →
    ∀ q ∈ segments, q.offset.toNat+q.filesz.toNat ≤ ph.offset.toNat

structure Loadable (elf : Bytes) : Prop where
  entry : (readElfHeader elf).entry ≠ 0
  code : Addressed (codeSegments elf)
  rodata : Addressed (rodataSegments elf)
  data : Addressed (dataSegments elf)

theorem word_eq_zero (w : Word) : w = 0 ↔ w.toNat = 0 := by
  constructor
  · rintro rfl
    rfl
  · exact fun h => BitVec.eq_of_toNat_eq h

theorem addSegment_found (segment : SegmentInfo) (ph : ProgramHeader) :
    (addSegment segment ph).found = true := by
  rw [addSegment]
  split_ifs with h
  · rfl
  · simpa using h

theorem addSegment_start (ph : ProgramHeader) (found : segment.found = true) :
    (addSegment segment ph).offset = segment.offset ∧
      (addSegment segment ph).vaddr = segment.vaddr := by
  rw [addSegment, if_neg (by simp [found])]
  exact ⟨rfl, rfl⟩

def fileEnd : List ProgramHeader → ℕ
  | [] => 0
  | ph :: rest => max (ph.offset.toNat+ph.filesz.toNat) (fileEnd rest)

theorem fileEnd_le {n : ℕ} :
    fileEnd phs ≤ n ↔ ∀ q ∈ phs, q.offset.toNat+q.filesz.toNat ≤ n := by
  induction phs with
  | nil => simp [fileEnd]
  | cons ph rest ih => rw [fileEnd, max_le_iff, ih, List.forall_mem_cons]

/-- A merged segment ends where the later one of its parts does. -/
theorem addSegment_end {ph : ProgramHeader} (found : segment.found = true)
    (inside : segment.Inside elfSize) (hp : ph.Inside elfSize) :
    segment.offset.toNat+(addSegment segment ph).filesz.toNat =
      max (segment.offset.toNat+segment.filesz.toNat) (ph.offset.toNat+ph.filesz.toNat) := by
  have range := inside.range
  have bound := elfSize.isLt
  rw [ProgramHeader.Inside] at hp
  have old : (segment.offset + segment.filesz).toNat =
      segment.offset.toNat+segment.filesz.toNat := BitVec.toNat_add_of_lt (by omega)
  have new : (ph.offset + ph.filesz).toNat = ph.offset.toNat+ph.filesz.toNat :=
    BitVec.toNat_add_of_lt (by omega)
  rw [addSegment, if_neg (by simp [found])]
  dsimp only
  split_ifs with lt
  · rw [BitVec.lt_def, old, new] at lt
    rw [BitVec.toNat_sub_of_le (BitVec.le_def.mpr (by omega)), new]
    omega
  · rw [BitVec.lt_def, old, new] at lt
    omega

theorem foldl_addSegment (found : segment.found = true) (inside : segment.Inside elfSize)
    (hp : ∀ ph ∈ phs, ph.Inside elfSize) :
    (phs.foldl addSegment segment).found = true ∧
      (phs.foldl addSegment segment).offset = segment.offset ∧
      (phs.foldl addSegment segment).vaddr = segment.vaddr ∧
      segment.offset.toNat+(phs.foldl addSegment segment).filesz.toNat =
        max (segment.offset.toNat+segment.filesz.toNat) (fileEnd phs) := by
  induction phs generalizing segment with
  | nil => exact ⟨found, rfl, rfl, (max_eq_left (Nat.zero_le _)).symm⟩
  | cons ph rest ih =>
    have here := hp ph List.mem_cons_self
    obtain ⟨offset, vaddr⟩ := addSegment_start ph found
    obtain ⟨found', offset', vaddr', size⟩ := ih (addSegment_found segment ph)
      (addSegment_inside inside here) fun q hq => hp q (List.mem_cons_of_mem _ hq)
    rw [offset, addSegment_end found inside here, max_assoc] at size
    exact ⟨found', offset'.trans offset, vaddr'.trans vaddr, size⟩

/-- A class begins where its first segment does and ends behind its last byte. -/
theorem merged_first {n : Word} {ph : ProgramHeader} (hp : ∀ q ∈ ph :: phs, q.Inside n) :
    ((ph :: phs).foldl addSegment noSegment).found = true ∧
      ((ph :: phs).foldl addSegment noSegment).offset = ph.offset ∧
      ((ph :: phs).foldl addSegment noSegment).vaddr = ph.vaddr ∧
      ph.offset.toNat+((ph :: phs).foldl addSegment noSegment).filesz.toNat =
        fileEnd (ph :: phs) :=
  foldl_addSegment (addSegment_found noSegment ph)
    (addSegment_inside noSegment_inside (hp ph List.mem_cons_self))
    fun q hq => hp q (List.mem_cons_of_mem _ hq)

/-- A merged class with bytes has an address exactly when its first segment has. -/
theorem merged_addressed {n : Word} (hp : ∀ ph ∈ phs, ph.Inside n) :
    ((phs.foldl addSegment noSegment).filesz ≠ 0 → (phs.foldl addSegment noSegment).vaddr ≠ 0) ↔
      Addressed phs := by
  cases phs with
  | nil =>
    constructor
    · intro _ ph given
      cases given
    · exact fun _ some => absurd rfl some
  | cons ph rest =>
    obtain ⟨-, -, vaddr, size⟩ := merged_first hp
    have all : (∀ q ∈ ph :: rest, q.offset.toNat+q.filesz.toNat ≤ ph.offset.toNat) ↔
        ((ph :: rest).foldl addSegment noSegment).filesz = 0 := by
      rw [← fileEnd_le, ← size, word_eq_zero]
      omega
    rw [vaddr]
    constructor
    · intro loaded q given zero
      obtain rfl := Option.some.inj given
      rw [all]
      by_contra some
      exact loaded some zero
    · intro addressed some zero
      exact some (all.mp (addressed ph rfl zero))

section Classes

variable {ph : ProgramHeader} {t : Segments}

theorem Classified.code_eq (h : Classified first s ph t) : t.code =
    if decide (ph.type = ptLoad ∧ ph.flags &&& pfX ≠ 0) then addSegment s.code ph else s.code := by
  simp only [decide_eq_true_eq]
  cases h with
  | other load => rw [if_neg fun h => load h.1]
  | code load exec => rw [if_pos ⟨load, exec⟩]
  | data load exec write => rw [if_neg fun h => h.2 exec]
  | below load exec write below => rw [if_neg fun h => h.2 exec]
  | rodata load exec write above => rw [if_neg fun h => h.2 exec]

theorem Classified.writable_eq (h : Classified first s ph t) : (t.data, t.bssSize) =
    if decide (ph.type = ptLoad ∧ ph.flags &&& pfX = 0 ∧ ph.flags &&& pfW ≠ 0)
      then (addSegment s.data ph, addBss s.bssSize ph) else (s.data, s.bssSize) := by
  simp only [decide_eq_true_eq]
  cases h with
  | other load => rw [if_neg fun h => load h.1]
  | code load exec => rw [if_neg fun h => exec h.2.1]
  | data load exec write => rw [if_pos ⟨load, exec, write⟩]
  | below load exec write below => rw [if_neg fun h => h.2.2 write]
  | rodata load exec write above => rw [if_neg fun h => h.2.2 write]

theorem Classified.data_eq (h : Classified first s ph t) : t.data =
    if decide (ph.type = ptLoad ∧ ph.flags &&& pfX = 0 ∧ ph.flags &&& pfW ≠ 0)
      then addSegment s.data ph else s.data :=
  (congrArg Prod.fst h.writable_eq).trans (apply_ite Prod.fst _ _ _)

theorem Classified.bss_eq (h : Classified first s ph t) : t.bssSize =
    if decide (ph.type = ptLoad ∧ ph.flags &&& pfX = 0 ∧ ph.flags &&& pfW ≠ 0)
      then addBss s.bssSize ph else s.bssSize :=
  (congrArg Prod.snd h.writable_eq).trans (apply_ite Prod.snd _ _ _)

theorem Classified.rodata_eq (h : Classified first s ph t) : t.rodata =
    if decide (ph.type = ptLoad ∧ ph.flags &&& pfX = 0 ∧ ph.flags &&& pfW = 0 ∧ first ≤ ph.vaddr)
      then addSegment s.rodata ph else s.rodata := by
  simp only [decide_eq_true_eq]
  cases h with
  | other load => rw [if_neg fun h => load h.1]
  | code load exec => rw [if_neg fun h => exec h.2.1]
  | data load exec write => rw [if_neg fun h => write h.2.2.1]
  | below load exec write below => rw [if_neg fun h => BitVec.not_lt.mpr h.2.2.2 below]
  | rodata load exec write above => rw [if_pos ⟨load, exec, write, above⟩]

end Classes

theorem foldl_class {α : Type} {p : ProgramHeader → Bool} {get : Segments → α}
    {add : α → ProgramHeader → α}
    (step : ∀ s ph, get (classify first s ph) = if p ph then add (get s) ph else get s) :
    get (phs.foldl (classify first) s) = (phs.filter p).foldl add (get s) := by
  rw [List.foldl_filter]
  exact (List.foldl_hom get fun s ph => (step s ph).symm).symm

theorem checkSegments_lowest {start result : Word}
    (h : checkSegments elfSize phs start = some result) (a : Word) : result ≤ a ↔ start ≤ a ∨
      ∃ ph ∈ phs.filter fun ph => ph.type = ptLoad ∧ ph.flags &&& pfX ≠ 0, ph.vaddr ≤ a := by
  induction phs generalizing start with
  | nil =>
    obtain rfl := Option.some.inj h
    simp
  | cons ph rest ih =>
    rw [checkSegments] at h
    by_cases load : ph.type = ptLoad
    · rw [if_neg (not_not.mpr load)] at h
      split_ifs at h with large outside lower
      · rw [ih h, List.filter_cons, if_pos (decide_eq_true ⟨load, lower.1⟩)]
        have before : start ≤ a → ph.vaddr ≤ a := BitVec.le_trans (BitVec.le_of_lt lower.2)
        simp only [List.mem_cons, exists_eq_or_imp]
        tauto
      · rw [ih h, List.filter_cons]
        by_cases exec : ph.flags &&& pfX ≠ 0
        · rw [if_pos (decide_eq_true ⟨load, exec⟩)]
          have before : ph.vaddr ≤ a → start ≤ a :=
            BitVec.le_trans (BitVec.not_lt.mp fun lt => lower ⟨exec, lt⟩)
          simp only [List.mem_cons, exists_eq_or_imp]
          tauto
        · rw [if_neg (by rw [decide_eq_true_eq]; exact fun h => exec h.2)]
    · rw [if_pos load] at h
      rw [ih h, List.filter_cons, if_neg (by rw [decide_eq_true_eq]; exact fun h => load h.1)]

theorem packSegments_classes (h : packSegments elf elfSize = some s) :
    s.code = (codeSegments elf).foldl addSegment noSegment ∧
    s.rodata = (rodataSegments elf).foldl addSegment noSegment ∧
    s.data = (dataSegments elf).foldl addSegment noSegment ∧
    s.bssSize = (dataSegments elf).foldl addBss 0 := by
  obtain ⟨first, check, some, rfl⟩ := packSegments_some h
  refine ⟨foldl_class fun s ph => (classify_cases s ph).code_eq, ?_,
    foldl_class fun s ph => (classify_cases s ph).data_eq,
    foldl_class fun s ph => (classify_cases s ph).bss_eq⟩
  rw [foldl_class fun s ph => (classify_cases s ph).rodata_eq, rodataSegments]
  congr 1
  refine List.filter_congr fun ph _ => decide_eq_decide.mpr ?_
  have here : ∃ code ∈ codeSegments elf, code.vaddr ≤ first := by
    refine ((checkSegments_lowest check first).mp (BitVec.le_refl first)).resolve_left fun le => ?_
    have bound := first.isLt
    rw [BitVec.le_def, show uint64Max.toNat = 2^64-1 from rfl] at le
    refine some (BitVec.eq_of_toNat_eq ?_)
    rw [show uint64Max.toNat = 2^64-1 from rfl]
    omega
  have lowest (a : Word) : first ≤ a ↔ ∃ code ∈ codeSegments elf, code.vaddr ≤ a := by
    constructor
    · obtain ⟨code, mem, le⟩ := here
      exact fun below => ⟨code, mem, BitVec.le_trans le below⟩
    · exact fun above => (checkSegments_lowest check a).mpr (.inr above)
  rw [lowest]

theorem packSegments_loaded (h : packSegments elf elfSize = some s) :
    ∀ ph ∈ programHeaders elf, ph.type = ptLoad → ph.Inside elfSize := by
  obtain ⟨first, check, -, -⟩ := packSegments_some h
  exact checkSegments_inside check

theorem packSegments_addressed (h : packSegments elf elfSize = some s) :
    ((s.code.filesz ≠ 0 → s.code.vaddr ≠ 0) ↔ Addressed (codeSegments elf)) ∧
    ((s.rodata.filesz ≠ 0 → s.rodata.vaddr ≠ 0) ↔ Addressed (rodataSegments elf)) ∧
    ((s.data.filesz ≠ 0 → s.data.vaddr ≠ 0) ↔ Addressed (dataSegments elf)) := by
  obtain ⟨code, rodata, data, -⟩ := packSegments_classes h
  have loaded := packSegments_loaded h
  rw [code, rodata, data]
  refine ⟨merged_addressed (n := elfSize) ?_, merged_addressed (n := elfSize) ?_,
    merged_addressed (n := elfSize) ?_⟩
  all_goals
    intro ph mem
    obtain ⟨given, kind⟩ := List.mem_filter.mp mem
    exact loaded ph given (of_decide_eq_true kind).1

theorem present_vaddr (inside : segment.Inside elfSize) (some : segment.filesz ≠ 0) :
    (if segment.found then segment.vaddr else 0) = segment.vaddr := by
  refine if_pos ?_
  by_contra absent
  exact some (inside.absent (Bool.eq_false_of_not_eq_true absent))

theorem placeSection_empty {present : Bool} {filesz current : Word} (empty : filesz = 0) :
    (placeSection present filesz current).1 = 0 := by
  rw [placeSection, if_neg fun h => h.2 empty]

/-- A section placed where it has bytes, else at offset 0, ends in the image. -/
theorem range_le {filesz offset : Word} {stop : ℕ} (empty : filesz = 0 → offset = 0)
    (some : filesz ≠ 0 → offset.toNat+filesz.toNat ≤ stop) :
    offset.toNat+filesz.toNat ≤ stop := by
  by_cases zero : filesz = 0
  · rw [empty zero, zero]
    exact Nat.zero_le _
  · exact some zero

/-- What `main` checks and lays out is what the validator asks of the ranges. -/
theorem packHeader_ranges {entry : Word} {c r : ℕ} (st : Stacked s (packHeader entry s) c r) :
    (packHeader entry s).codeOffset.toNat+s.code.filesz.toNat ≤
      (packHeader entry s).imageSize.toNat ∧
    (packHeader entry s).rodataOffset.toNat+s.rodata.filesz.toNat ≤
      (packHeader entry s).imageSize.toNat ∧
    (packHeader entry s).dataOffset.toNat+s.data.filesz.toNat ≤
      (packHeader entry s).imageSize.toNat := by
  have codeEnd := st.codeEnd
  have rodataEnd := st.rodataEnd
  refine ⟨range_le placeSection_empty fun some => ?_, range_le placeSection_empty fun some => ?_,
    range_le placeSection_empty fun some => ?_⟩
  · obtain ⟨offset, le⟩ := st.codeRange some
    omega
  · obtain ⟨offset, le⟩ := st.rodataRange some
    omega
  · obtain ⟨offset, le⟩ := st.dataRange some
    omega

/-- The validator accepts a packed image exactly when the ELF file has an entry point and load
addresses. -/
theorem packed_valid_iff {packed : Packed} (small : elfSize.toNat < 2^60)
    (h : riruPack elf elfSize = some packed) :
    riruValidate (some packed.image) packed.imageSize = 0 ↔ Loadable elf := by
  obtain ⟨s, segments, rfl⟩ := Option.map_eq_some_iff.mp h
  have inside := packSegments_inside segments
  obtain ⟨code, rodata, data⟩ := packSegments_addressed segments
  obtain ⟨c, r, st⟩ := packHeader_stacked inside small (readElfHeader elf).entry
  have start := st.start
  have codeEnd := st.codeEnd
  have rodataEnd := st.rodataEnd
  have header := @readHeader_emitImage elf _ _ _ _ st
  rw [riruValidate_eq_zero]
  dsimp only
  constructor
  · intro ok
    have entry := ok.entry
    have codeLoaded := ok.code.loaded
    have rodataLoaded := ok.rodata.loaded
    have dataLoaded := ok.data.loaded
    rw [header] at entry codeLoaded rodataLoaded dataLoaded
    refine ⟨entry, code.mp codeLoaded, rodata.mp fun some => ?_, data.mp fun some => ?_⟩
    · rw [← present_vaddr inside.rodata some]
      exact rodataLoaded some
    · rw [← present_vaddr inside.data some]
      exact dataLoaded some
  · intro ok
    obtain ⟨codeRange, rodataRange, dataRange⟩ := packHeader_ranges st
    have sections : SectionOk (packHeader (readElfHeader elf).entry s).imageSize
          (packHeader (readElfHeader elf).entry s).codeOffset s.code.vaddr s.code.filesz ∧
        SectionOk (packHeader (readElfHeader elf).entry s).imageSize
          (packHeader (readElfHeader elf).entry s).rodataOffset
          (if s.rodata.found then s.rodata.vaddr else 0) s.rodata.filesz ∧
        SectionOk (packHeader (readElfHeader elf).entry s).imageSize
          (packHeader (readElfHeader elf).entry s).dataOffset
          (if s.data.found then s.data.vaddr else 0) s.data.filesz := by
      refine ⟨⟨codeRange, code.mpr ok.code⟩, ⟨rodataRange, fun some => ?_⟩,
        ⟨dataRange, fun some => ?_⟩⟩
      · rw [present_vaddr inside.rodata some]
        exact rodata.mpr ok.rodata some
      · rw [present_vaddr inside.data some]
        exact data.mpr ok.data some
    refine ⟨by omega, ?_, ?_, ?_, ?_, ?_, ?_, ?_, ?_, ?_, ?_⟩
    all_goals rw [header]
    · rfl
    · rfl
    · rfl
    · rfl
    · omega
    · exact sections.1
    · exact sections.2.1
    · exact sections.2.2
    · exact ok.entry

theorem packed_valid_iff_small :
    riruValidate (some smallPacked.image) smallPacked.imageSize = 0 ↔ Loadable smallElf :=
  packed_valid_iff (show (122 : Word).toNat < 2^60 by decide)
    (Option.some_get smallElf_packed).symm

/-- The same file without an entry point, as a linker writes one when it finds no start symbol. -/
def noEntryElf (a : Word) : BitVec 8 := if a.toNat/8 = 3 then 0 else smallElf a

theorem noEntryElf_packed : (riruPack noEntryElf 122).isSome = true := by decide

theorem packed_refused : ¬∀ (elf : Bytes) (elfSize : Word) (packed : Packed),
    riruPack elf elfSize = some packed →
      riruValidate (some packed.image) packed.imageSize = 0 := by
  intro all
  have accepted := all noEntryElf 122 _ (Option.some_get noEntryElf_packed).symm
  have refused : riruValidate (some ((riruPack noEntryElf 122).get noEntryElf_packed).image)
      ((riruPack noEntryElf 122).get noEntryElf_packed).imageSize = -12 := by decide
  rw [refused] at accepted
  exact absurd accepted (by decide)

end TinyOS.Riru
