import TinyOS.NanoFSAppend
import TinyOS.Terminal

set_option autoImplicit false

/-! The command `cat` of terminal/shell.c: `fs_read` into a buffer on the stack, then
`terminal_print` from it on up to a NUL. -/
namespace TinyOS.Shell
open LibcString StateRuns NanoFS Display

def literal (s : String) : List UInt8 := s.toList.map fun c => UInt8.ofNat c.toNat

/-- What `terminal_print` hands to `terminal_putchar` from a cell on, given up after
`fuel` characters. -/
def printFrom (buffer : Buffer) : ℕ → ℕ → Option (List UInt8)
  | k, fuel =>
    if buffer k = 0 then some []
    else match fuel with
      | 0 => none
      | fuel+1 => (printFrom buffer (k+1) fuel).map (buffer k :: ·)

section Code

variable {m : Type → Type} [Monad m] [Ata m]

/-- The characters that the command hands to `terminal_putchar`. `buffer` is what the
stack holds before it, `args` the line behind its first space. -/
def cat (currentDir : UInt32) (args : Option CString) (buffer : Buffer) (fuel : ℕ) :
    m (Option (List UInt8)) :=
  match args with
  | none => pure (some (literal "Usage: cat <file>\n"))
  | some name =>
    if name.chars = [] then pure (some (literal "Usage: cat <file>\n"))
    else do
      let r ← fsRead currentDir (some name) (some buffer) (fsMaxBlocks*512)
      if 0 ≤ r.1 then
        pure ((printFrom (r.2.getD buffer) 0 fuel).map fun out => out++[newline])
      else if r.1 = -2 then pure (some (literal "Is a directory\n"))
      else pure (some (literal "File not found\n"))

end Code

theorem terminalPrint_chars (l : List UInt8) :
    terminalPrint l = (cstr l).forM terminalPutchar := by
  induction l with
  | nil => rfl
  | cons c l ih =>
    rw [terminalPrint, cstr_cons]
    split_ifs with h0
    · rfl
    · rw [ih]
      rfl

def Holds (buffer : Buffer) : ℕ → List UInt8 → Prop
  | k, [] => buffer k = 0
  | k, c :: out => buffer k = c ∧ c ≠ 0 ∧ Holds buffer (k+1) out

variable {buffer : Buffer} {out : List UInt8} {k : ℕ}

theorem printFrom_iff (fuel : ℕ) :
    printFrom buffer k fuel = some out ↔ out.length ≤ fuel ∧ Holds buffer k out := by
  induction fuel generalizing k out with
  | zero =>
    unfold printFrom
    cases out with
    | nil =>
      by_cases h0 : buffer k = 0
      · simp [h0, Holds]
      · simp [h0, Holds]
    | cons c out =>
      by_cases h0 : buffer k = 0
      · simp [h0]
      · simp [h0]
  | succ fuel ih =>
    unfold printFrom
    split_ifs with h0
    · cases out with
      | nil => simp [Holds, h0]
      | cons c out =>
        refine iff_of_false (by simp) ?_
        rintro ⟨_, first, ne, _⟩
        exact ne (first.symm.trans h0)
    · rw [Option.map_eq_some_iff]
      cases out with
      | nil => simp [Holds, h0]
      | cons c out =>
        rw [List.length_cons, Nat.add_le_add_iff_right, Holds]
        constructor
        · rintro ⟨rest, hr, he⟩
          obtain ⟨rfl, rfl⟩ := List.cons.inj he
          obtain ⟨short, holds⟩ := ih.mp hr
          exact ⟨short, rfl, h0, holds⟩
        · rintro ⟨short, rfl, _, holds⟩
          exact ⟨out, ih.mpr ⟨short, holds⟩, rfl⟩

theorem Holds.stop (h : Holds buffer k out) : buffer (k+out.length) = 0 := by
  induction out generalizing k with
  | nil => exact h
  | cons c out ih =>
    rw [List.length_cons, show k+(out.length+1) = k+1+out.length by omega]
    exact ih h.2.2

theorem Holds.unique {out' : List UInt8} (h : Holds buffer k out) (h' : Holds buffer k out') :
    out = out' := by
  induction out generalizing k out' with
  | nil =>
    cases out' with
    | nil => rfl
    | cons c out' => exact absurd (h'.1.symm.trans h) h'.2.1
  | cons c out ih =>
    cases out' with
    | nil => exact absurd (h.1.symm.trans h') h.2.1
    | cons c' out' => rw [← h.1, ← h'.1, ih h.2.2 h'.2.2]

/-- Cells that hold a list which has a NUL, or behind which one stands. -/
theorem holds_cstr {l : List UInt8} (cells : ∀ i < l.length, buffer (k+i) = l.getD i 0)
    (stops : 0 ∈ l ∨ buffer (k+l.length) = 0) : Holds buffer k (cstr l) := by
  induction l generalizing k with
  | nil => simpa [Holds] using stops
  | cons c l ih =>
    have first : buffer k = c := cells 0 (Nat.zero_lt_succ _)
    rw [cstr_cons]
    split_ifs with h0
    · exact first.trans h0
    · refine ⟨first, h0, ih (fun i hi => ?_) ?_⟩
      · have next := cells (i+1) (Nat.succ_lt_succ hi)
        rwa [List.getD_cons_succ, show k+(i+1) = k+1+i by omega] at next
      · rw [List.length_cons, show k+(l.length+1) = k+1+l.length by omega] at stops
        exact stops.imp_left fun hm => (List.mem_cons.mp hm).resolve_left (Ne.symm h0)

def CatPrints (s : Fs) (name : CString) (buffer : Buffer) (out : List UInt8) : Prop :=
  ∃ n, ∀ fuel, n ≤ fuel →
    (cat s.dir (some name) buffer fuel : DiskM (Option (List UInt8))).run s.disk =
      (some out, s.disk)

/-- The buffer after `fs_read`: the content, and behind it what was there before. -/
def readBuffer (c : List UInt8) (buffer : Buffer) : Buffer :=
  fun k => if k < c.length then c.getD k 0 else buffer k

variable {s : Fs} {name : CString} {c : List UInt8}

theorem name_nonempty (reads : s.ReadsAs name c) : name.chars ≠ [] := by
  have found := lookup_matches (readsAs_found reads).1
  rw [← found.2.2]
  exact (live_iff_nameStr _).mp found.1

theorem cat_run (reads : s.ReadsAs name c) (buffer : Buffer) (fuel : ℕ) :
    (cat s.dir (some name) buffer fuel : DiskM (Option (List UInt8))).run s.disk =
      ((printFrom (readBuffer c buffer) 0 fuel).map fun out => out++[newline], s.disk) := by
  have short : c.length ≤ 2044 := by
    rw [readsAs_eq reads, fileBytes_length]
    exact extent_le _ _
  have result : (fsRead s.dir (some name) (some buffer) (fsMaxBlocks*512) :
      DiskM (ℤ × Option Buffer)).run s.disk =
      ((((min c.length 2048 : ℕ) : ℤ), some fun k =>
        if k < min c.length 2048 then c.getD k 0 else buffer k), s.disk) :=
    Prod.ext (reads buffer (fsMaxBlocks*512)) (fsRead_readOnly ..)
  rw [min_eq_left (by omega)] at result
  unfold cat
  simp only [name_nonempty reads, ↓reduceIte, bind_run]
  rw [result]
  simp only [Nat.cast_nonneg, ↓reduceIte, Option.getD_some, pure_run]
  rfl

theorem catPrints_iff (reads : s.ReadsAs name c) :
    CatPrints s name buffer (out++[newline]) ↔ Holds (readBuffer c buffer) 0 out := by
  constructor
  · rintro ⟨n, runs⟩
    have ran := (cat_run reads buffer n).symm.trans (runs n le_rfl)
    obtain ⟨out', printed, same⟩ := Option.map_eq_some_iff.mp (congrArg Prod.fst ran)
    rw [List.append_cancel_right same] at printed
    exact ((printFrom_iff n).mp printed).2
  · intro holds
    refine ⟨out.length, fun fuel enough => ?_⟩
    rw [cat_run reads, (printFrom_iff fuel).mpr ⟨enough, holds⟩]
    rfl

theorem readBuffer_cells (c : List UInt8) (buffer : Buffer) :
    ∀ i < c.length, readBuffer c buffer (0+i) = c.getD i 0 := by
  intro i hi
  rw [Nat.zero_add, readBuffer, if_pos hi]

theorem readBuffer_behind (c : List UInt8) (buffer : Buffer) :
    readBuffer c buffer (0+c.length) = buffer c.length := by
  rw [Nat.zero_add, readBuffer, if_neg (lt_irrefl _)]

/-- `cat` prints the file up to its first NUL and a newline exactly when there is a NUL,
in the file or by chance behind it; without one in the file what it prints depends on
what the stack held. -/
theorem cat_exact_iff (reads : s.ReadsAs name c) :
    (∀ buffer, CatPrints s name buffer (cstr c++[newline]) ↔ 0 ∈ c ∨ buffer c.length = 0) ∧
      ((∀ buffer buffer' out, CatPrints s name buffer out → CatPrints s name buffer' out) ↔
        0 ∈ c) := by
  have each (buffer : Buffer) :
      CatPrints s name buffer (cstr c++[newline]) ↔ 0 ∈ c ∨ buffer c.length = 0 := by
    rw [catPrints_iff reads]
    constructor
    · intro holds
      by_contra none
      rw [not_or] at none
      have stop := holds.stop
      rw [cstr_of_noNul none.1, readBuffer_behind] at stop
      exact none.2 stop
    · intro stops
      refine holds_cstr (readBuffer_cells c buffer) ?_
      rwa [readBuffer_behind]
  refine ⟨each, fun same => ?_, fun nul buffer buffer' out prints => ?_⟩
  · -- a stack of zeros and one without any
    have clean := (each fun _ => 0).mpr (.inr rfl)
    exact ((each fun _ => 1).mp (same _ _ _ clean)).resolve_right (by decide)
  · have first := (each buffer).mpr (.inl nul)
    have printed : out = cstr c++[newline] := by
      obtain ⟨n, runs⟩ := prints
      obtain ⟨n', runs'⟩ := first
      have both := (runs (max n n') (le_max_left _ _)).symm.trans (runs' _ (le_max_right _ _))
      exact Option.some.inj (congrArg Prod.fst both)
    rw [printed]
    exact (each buffer').mpr (.inl nul)

theorem cat_exact_iff_withText :
    (∀ buffer, CatPrints withText nameF buffer (cstr [100]++[newline]) ↔
      0 ∈ ([100] : List UInt8) ∨ buffer 1 = 0) ∧
    ((∀ buffer buffer' out, CatPrints withText nameF buffer out →
      CatPrints withText nameF buffer' out) ↔ 0 ∈ ([100] : List UInt8)) :=
  cat_exact_iff withText_reads

def staleBuffer : Buffer := fun k => if k = 0 then 120 else 0

theorem cat_prints_stale : Reachable anyCall withF ∧ withF.ReadsAs nameF [] ∧
    CatPrints withF nameF staleBuffer ([120]++[newline]) ∧
    ¬CatPrints withF nameF staleBuffer (cstr []++[newline]) := by
  refine ⟨withF_reachable, withF_empty, ?_, ?_⟩
  · rw [catPrints_iff withF_empty]
    exact ⟨rfl, by decide, rfl⟩
  · rw [catPrints_iff withF_empty]
    intro holds
    exact absurd holds.stop (by decide)

end TinyOS.Shell
