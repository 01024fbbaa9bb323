import TinyOS.ElfReader

set_option autoImplicit false

namespace TinyOS.Elf
open EventLogs Memory RadixTables Riru

variable {place : Places} {k : Kernel} {file size : Word} {bytes : Bytes} {ph : ProgramHeader}
  {span : Word × Word}

def ElfEvent.InWindow (e : ElfEvent) : Prop :=
  ∀ va, e = .mapped va ∨ e = .stored va → userMin ≤ va ∧ va < userMax

structure ImageInside (result : ElfLoadResult) : Prop where
  base : userMin ≤ result.imageBase ∧ result.imageBase < userMax
  stop : result.imageBase < result.imageEnd ∧ result.imageEnd ≤ userMax

theorem userWindow : userMin.toNat = 0x400000 ∧ userMax.toNat = 0x40000000 := by decide

theorem SpanInside.image {base stop : Word} (h : SpanInside (base, stop)) (some : base ≠ uint64Max)
    (pages : (stop - base)/pageSize ≠ 0) (entry p : Word) :
    ImageInside ⟨entry, base, stop, p⟩ := by
  rcases h with none | ⟨low, le, high⟩
  · exact absurd (congrArg Prod.fst none) some
  · dsimp only at low le high
    have ne : base.toNat ≠ stop.toNat := by
      intro eq
      rw [BitVec.eq_of_toNat_eq eq, BitVec.sub_self] at pages
      exact pages (by decide)
    constructor
    · rw [BitVec.le_def, BitVec.lt_def, userWindow.1, userWindow.2]
      dsimp only
      omega
    · rw [BitVec.le_def, BitVec.lt_def, userWindow.2]
      dsimp only
      omega

/-- A segment of the file that passes the checks lies in the user window. -/
theorem Segment.inside (segment : Segment bytes size ph) (checked : Checked size ph)
    (inside : ZeroSizedInside (some bytes) size) : Inside ph := by
  obtain ⟨i, found, loadable⟩ := segment
  rcases checked.range with zero | ⟨low, high⟩
  · obtain ⟨low, high⟩ := inside i ph found loadable zero
    rw [BitVec.le_def, userWindow.1] at low
    rw [BitVec.le_def, userWindow.2] at high
    have none : ph.memsz.toNat = 0 := by
      rw [zero]
      rfl
    exact ⟨low, by omega, checked.short⟩
  · exact ⟨low, high, checked.short⟩

theorem Inside.pagesLow (inside : Inside ph) {va : Word} (mem : va ∈ segmentPages ph) :
    va ≠ 0 ∧ pageOf va < 1048576 := by
  obtain ⟨low, high, -⟩ := inside
  obtain ⟨p, le, lt, rfl⟩ := (mem_segmentPages high).mp mem
  refine ⟨fun zero => ?_, by rw [pageOf_pageAddress (by omega)]; omega⟩
  have address := pageAddress_toNat (show p < 2^52 by omega)
  rw [zero, show (0 : Word).toNat = 0 from rfl] at address
  omega

theorem endLoad_loaded {entry base stop : Word} {code : Option ℤ} {result : ElfLoadResult}
    (loaded : endLoad entry base stop code = .loaded result) :
    code = some 0 ∧ result = ⟨entry, base, stop, (stop - base)/pageSize⟩ := by
  cases code with
  | none => cases loaded
  | some code =>
    rw [endLoad] at loaded
    split_ifs at loaded with failed
    rw [not_not.mp failed]
    exact ⟨rfl, (ElfOutcome.loaded.inj loaded).symm⟩

/-- What the first loop and the checks behind it leave of a load that returns 0. -/
theorem elfLoad_loaded {result : ElfLoadResult} {s : List ElfEvent}
    (loaded : ((elfLoad file size).run (k, s)).1 = .loaded result) : ∃ bytes,
    k.fileAt file = some bytes ∧ checkSegments (some bytes) size
      (List.range (readHeader bytes).phnum.toNat) (uint64Max, 0) =
        .ok (result.imageBase, result.imageEnd) ∧
    result.imageBase ≠ uint64Max ∧ (result.imageEnd - result.imageBase)/pageSize ≠ 0 := by
  rw [elfLoad, log_bind, show (silent get : ElfM Kernel).run (k, s) = (k, k, s) from rfl] at loaded
  dsimp only at loaded
  by_cases null : file = 0
  · rw [if_pos null] at loaded
    cases loaded
  have given : k.fileAt file = some fun i => k.byteAt (file + i) := by
    rw [Kernel.fileAt, if_neg null]
  refine ⟨_, given, ?_⟩
  generalize (fun i => k.byteAt (file + i) : Bytes) = bytes at given ⊢
  rw [if_neg null, given] at loaded
  split_ifs at loaded with invalid
  · cases loaded
  rw [elfGetHeader, if_neg invalid] at loaded
  dsimp only at loaded
  cases span : checkSegments (some bytes) size (List.range (readHeader bytes).phnum.toNat)
    (uint64Max, 0) with
  | error code =>
    rw [span] at loaded
    cases loaded
  | ok pair =>
    obtain ⟨base, stop⟩ := pair
    rw [span] at loaded
    dsimp only at loaded
    split_ifs at loaded with empty none
    · cases loaded
    · cases loaded
    obtain ⟨-, rfl⟩ := endLoad_loaded loaded
    exact ⟨rfl, empty, none⟩

/-- When the loadable segments of size 0 lie in the user window, and no segment over the headers
or the tables, every address mapped or stored to lies in it, and so does the range returned. -/
theorem elfLoad_window (hs : Spaces place k) (kernel : k.InKernelSpace)
    (fits : file.toNat+size.toNat ≤ 4294967296) (inside : ZeroSizedInside (k.fileAt file) size)
    (clear : ∀ bytes, k.fileAt file = some bytes → SegmentsClear file size bytes k) :
    (∀ e ∈ ((elfLoad file size).run (k, [])).2.2, e.InWindow) ∧
      ∀ result, ((elfLoad file size).run (k, [])).1 = .loaded result → ImageInside result := by
  constructor
  · by_cases null : file = 0
    · rw [elfLoad, log_bind, show (silent get : ElfM Kernel).run (k, []) = (k, k, []) from rfl]
      dsimp only
      rw [if_pos null]
      exact fun e mem => absurd mem List.not_mem_nil
    have given : k.fileAt file = some fun i => k.byteAt (file + i) := by
      rw [Kernel.fileAt, if_neg null]
    rw [given] at inside
    refine elfLoad_log (P := ElfEvent.InWindow) hs kernel given fits
      (fun checked ph segment va mem => (segment.inside (checked ph segment) inside).pagesLow mem)
      (clear _ given) fun checked ph segment => ⟨fun j lt va eq => ?_, fun j _ va eq => ?_⟩
    · obtain ⟨low, high, -⟩ := segment.inside (checked ph segment) inside
      rcases eq with eq | eq
      · cases eq
      cases eq
      have address : (ph.vaddr + BitVec.ofNat 64 j).toNat = ph.vaddr.toNat+j :=
        toNat_add_ofNat (by omega)
      rw [BitVec.le_def, BitVec.lt_def, userWindow.1, userWindow.2, address]
      omega
    · rcases eq with eq | eq
      · cases eq
      · cases eq
  · intro result loaded
    obtain ⟨bytes, given, span, some, pages⟩ := elfLoad_loaded loaded
    rw [given] at inside
    obtain ⟨image, -⟩ := checkSegments_ok inside span (.inl rfl)
    exact image.image some pages _ _

theorem elfLoad_window_lastPage : ∃ k result, Booted desktopLayout k ∧
    ((elfLoad 0x3300000 121).run (storedFile k lastPageFile 121, [])).1 = .loaded result ∧
    ImageInside result ∧
    ∀ e ∈ ((elfLoad 0x3300000 121).run (storedFile k lastPageFile 121, [])).2.2, e.InWindow := by
  obtain ⟨k, place, booted, desktop⟩ := desktop_file lastPageFile (show (121 : Word).toNat ≤ 4096 by
    decide)
  obtain ⟨k', run⟩ := lastPage_loads desktop
  have inside : ZeroSizedInside ((storedFile k lastPageFile 121).fileAt 0x3300000) 121 := by
    intro i ph found loadable zero
    rw [fileAt_desktop] at found
    have segment := (desktop.segment (by decide) lastPage_valid ph).mp ⟨i, found, loadable⟩
    rw [lastPage_only segment] at zero
    exact absurd zero (by decide)
  obtain ⟨window, image⟩ := elfLoad_window desktop.spaces desktop.kernel (by decide) inside
    fun bytes given => by
      obtain rfl := Option.some.inj ((fileAt_desktop _).symm.trans given)
      exact (lastPage_clear desktop).2
  have loaded := congrArg Prod.fst run
  exact ⟨k, _, booted, loaded, image _ loaded, window⟩

theorem lastPage_end : ∃ k result, Booted desktopLayout k ∧
    ((elfLoad 0x3300000 121).run (storedFile k lastPageFile 121, [])).1 = .loaded result ∧
    ¬(userMin ≤ result.imageEnd ∧ result.imageEnd < userMax) := by
  obtain ⟨k, place, booted, desktop⟩ := desktop_file lastPageFile (show (121 : Word).toNat ≤ 4096 by
    decide)
  obtain ⟨k', run⟩ := lastPage_loads desktop
  exact ⟨k, _, booted, congrArg Prod.fst run, fun inside => absurd inside.2 (by decide)⟩

end TinyOS.Elf
