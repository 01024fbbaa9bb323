import TinyOS.RiruPackValid

set_option autoImplicit false

namespace TinyOS.Riru
open Memory

/-- One `memcpy` of the emission; the source is an offset in the file, or the header. -/
structure Copy where
  target : Word
  source : Option Word
  size : Word

def Copy.run (elf : Bytes) (h : RiruHeader) (out : Bytes) (c : Copy) : Bytes :=
  match c.source with
  | some offset => memcpy out c.target (fileFrom elf offset) c.size
  | none => memcpy out c.target (fun a => h.byte a.toNat) c.size

def copies (s : Segments) (h : RiruHeader) : List Copy :=
  [⟨0, none, riruHeaderSize⟩] ++
  (if s.code.filesz ≠ 0 then [⟨h.codeOffset, some s.code.offset, s.code.filesz⟩] else []) ++
  (if s.rodata.found ∧ s.rodata.filesz ≠ 0 then
    [⟨h.rodataOffset, some s.rodata.offset, s.rodata.filesz⟩] else []) ++
  if s.data.found ∧ s.data.filesz ≠ 0 then
    [⟨h.dataOffset, some s.data.offset, s.data.filesz⟩] else []

structure Copy.Inside (elfSize imageSize : ℕ) (c : Copy) : Prop where
  written : c.target.toNat+c.size.toNat ≤ imageSize
  read : ∀ offset, c.source = some offset → offset.toNat+c.size.toNat ≤ elfSize
  header : c.source = none → c.size = riruHeaderSize

variable {elf : Bytes} {elfSize : Word} {s : Segments} {h : RiruHeader} {segment : SegmentInfo}
  {phs : List ProgramHeader} {ph : ProgramHeader} {code rodata : ℕ}

theorem emitImage_copies : emitImage elf s h = (copies s h).foldl (Copy.run elf h) fun _ => 0 := by
  have step (present : Prop) [Decidable present] (c : Copy) (out : Bytes) :
      (if present then [c] else []).foldl (Copy.run elf h) out =
        if present then c.run elf h out else out := by
    split_ifs <;> rfl
  rw [copies, List.foldl_append, List.foldl_append, List.foldl_append, step, step, step]
  rfl

theorem addSegment_filesz (inside : segment.Inside elfSize) (hp : ph.Inside elfSize) :
    segment.filesz.toNat ≤ (addSegment segment ph).filesz.toNat := by
  cases found : segment.found with
  | false =>
    rw [inside.absent found]
    exact Nat.zero_le _
  | true =>
    have := addSegment_end found inside hp
    omega

theorem foldl_addSegment_inside (hp : ∀ q ∈ phs, q.Inside elfSize)
    (inside : segment.Inside elfSize) :
    (phs.foldl addSegment segment).Inside elfSize ∧
      segment.filesz.toNat ≤ (phs.foldl addSegment segment).filesz.toNat := by
  induction phs generalizing segment with
  | nil => exact ⟨inside, le_refl _⟩
  | cons ph rest ih =>
    have here := hp ph List.mem_cons_self
    obtain ⟨all, grows⟩ := ih (fun q hq => hp q (List.mem_cons_of_mem _ hq))
      (addSegment_inside inside here)
    exact ⟨all, (addSegment_filesz inside here).trans grows⟩

theorem Stacked.copies_inside (st : Stacked s h code rodata) (inside : s.Inside elfSize) :
    ∀ c ∈ copies s h, c.Inside elfSize.toNat h.imageSize.toNat := by
  have start := st.start
  have codeEnd := st.codeEnd
  have rodataEnd := st.rodataEnd
  -- a copy out of the file
  have part {target offset size : Word} (written : target.toNat+size.toNat ≤ h.imageSize.toNat)
      (read : offset.toNat+size.toNat ≤ elfSize.toNat) :
      Copy.Inside elfSize.toNat h.imageSize.toNat ⟨target, some offset, size⟩ :=
    ⟨written, fun _ eq => Option.some.inj eq ▸ read, fun none => by cases none⟩
  intro c mem
  simp only [copies, List.mem_append, List.mem_singleton, List.mem_ite_nil_right] at mem
  rcases mem with ((rfl | ⟨some, rfl⟩) | ⟨⟨-, some⟩, rfl⟩) | ⟨⟨-, some⟩, rfl⟩
  · have header : (0 : Word).toNat+riruHeaderSize.toNat = 120 := by decide
    exact ⟨header.trans_le (by omega), fun _ eq => (by cases eq), fun _ => rfl⟩
  · obtain ⟨offset, le⟩ := st.codeRange some
    exact part (by omega) inside.code.range
  · obtain ⟨offset, le⟩ := st.rodataRange some
    exact part (by omega) inside.rodata.range
  · obtain ⟨offset, le⟩ := st.dataRange some
    exact part (by omega) inside.data.range

/-- Merging headers that passed `range_valid` never leaves the file nor shrinks a segment, so
the packer copies out of the file into the image and nowhere else. -/
theorem packing_bounds (elfSize : Word) (small : elfSize.toNat < 2^60) :
    (∀ before after : List ProgramHeader,
      (∀ ph ∈ before ++ after, rangeValid ph.offset ph.filesz elfSize = true) →
        let merged := (before ++ after).foldl addSegment noSegment
        merged.offset.toNat+merged.filesz.toNat ≤ elfSize.toNat ∧
          (before.foldl addSegment noSegment).filesz.toNat ≤ merged.filesz.toNat) ∧
    ∀ elf s, packSegments elf elfSize = some s →
      ∀ c ∈ copies s (packHeader (readElfHeader elf).entry s),
        c.Inside elfSize.toNat (packHeader (readElfHeader elf).entry s).imageSize.toNat := by
  constructor
  · intro before after valid merged
    have hp : ∀ ph ∈ before ++ after, ph.Inside elfSize :=
      fun ph mem => rangeValid_iff.mp (valid ph mem)
    have first := foldl_addSegment_inside (fun ph mem => hp ph (List.mem_append_left _ mem))
      noSegment_inside
    have all := foldl_addSegment_inside (fun ph mem => hp ph (List.mem_append_right _ mem)) first.1
    rw [← List.foldl_append] at all
    exact ⟨all.1.range, all.2⟩
  · intro elf s packed
    have inside := packSegments_inside packed
    obtain ⟨code, rodata, st⟩ := packHeader_stacked inside small (readElfHeader elf).entry
    exact st.copies_inside inside

theorem classesElf_segments : packSegments classesElf 296 = some classesPacked.segments := by
  obtain ⟨s, segments, packed⟩ :=
    Option.map_eq_some_iff.mp (Option.some_get classesElf_packed).symm
  rw [classesPacked, ← packed]
  exact segments

theorem packing_bounds_classes : packSegments classesElf 296 = some classesPacked.segments ∧
    ∀ c ∈ copies classesPacked.segments
      (packHeader (readElfHeader classesElf).entry classesPacked.segments),
      c.Inside 296
        (packHeader (readElfHeader classesElf).entry classesPacked.segments).imageSize.toNat :=
  ⟨classesElf_segments, (packing_bounds 296 (by decide)).2 classesElf classesPacked.segments
    classesElf_segments⟩

end TinyOS.Riru
