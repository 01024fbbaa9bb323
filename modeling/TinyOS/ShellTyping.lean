import TinyOS.Keyboard
import TinyOS.ShellInput
import TinyOS.ShellSessions

set_option autoImplicit false

/-! From the keyboard to the disk: scan codes, the command line and the commands. -/
namespace TinyOS.Shell
open LibcString NanoFS Display EntryStores Keys

structure Console where
  keyboard : Keyboard
  line : Line
  fs : Fs

/-- The string that `execute_command` finds: it puts a NUL behind the command. -/
def lineString (l : List UInt8) : CString := ⟨cstr l, cstr_noNul l⟩

/-- What an interrupt of the keyboard does, and the output of the command when there is one. What
a command leaves of `cmd_buf` and of the screen is left open. -/
inductive Keyed (fuel : ℕ) (setting : Setting) (sc : UInt8) (x : Console) :
    List (Option (List UInt8)) → Console → Prop where
  | silent (none : (keyboardHandler sc x.keyboard).1 = none) :
      Keyed fuel setting sc x [] { x with keyboard := (keyboardHandler sc x.keyboard).2 }
  | edit {c : UInt8} {line : Line} (key : (keyboardHandler sc x.keyboard).1 = some c)
      (ne : c ≠ newline) (run : (shellInput (pure ()) c).run x.line = some ((), line)) :
      Keyed fuel setting sc x [] ⟨(keyboardHandler sc x.keyboard).2, line, x.fs⟩
  | enter {line : Line} (key : (keyboardHandler sc x.keyboard).1 = some newline)
      (cleared : line.cmdLen = 0) :
      Keyed fuel setting sc x [(executeCommand fuel (setting, lineString x.line.command) x.fs).1]
        ⟨(keyboardHandler sc x.keyboard).2, line,
          (executeCommand fuel (setting, lineString x.line.command) x.fs).2⟩

/-- A stream of scan codes, each with what the line meets that it may enter. -/
inductive Typed (fuel : ℕ) :
    Console → List (Setting × UInt8) → List (Option (List UInt8)) → Console → Prop where
  | nil {x : Console} : Typed fuel x [] [] x
  | cons {x y z : Console} {setting : Setting} {sc : UInt8} {rest : List (Setting × UInt8)}
      {out outs : List (Option (List UInt8))} (first : Keyed fuel setting sc x out y)
      (later : Typed fuel y rest outs z) : Typed fuel x ((setting, sc) :: rest) (out ++ outs) z

def lineEdit (l : List UInt8) (c : UInt8) : List UInt8 :=
  if c = backspace then l.dropLast else if l.length < cmdMax-1 then l ++ [c] else l

/-- The lines entered, when `codes` have come before and `l` stands on the line. -/
def linesTyped (codes l : List UInt8) : List (Setting × UInt8) → List Entered
  | [] => []
  | (setting, sc) :: rest =>
    match typed codes sc with
    | none => linesTyped (codes ++ [sc]) l rest
    | some c =>
      if c = newline then (setting, lineString l) :: linesTyped (codes ++ [sc]) [] rest
      else linesTyped (codes ++ [sc]) (lineEdit l c) rest

variable {fuel : ℕ} {setting : Setting} {sc c : UInt8} {x y : Console} {s s' : Line}
  {codes l : List UInt8} {out outs : List (Option (List UInt8))}

theorem shellInput_edits (ne : c ≠ newline)
    (run : (shellInput (pure ()) c).run s = some ((), s')) : s'.command = lineEdit s.command c := by
  by_cases back : c = backspace
  · subst back
    rw [lineEdit, if_pos rfl]
    rcases Nat.eq_zero_or_pos s.cmdLen with none | some
    · rw [shellInput_idle ne (.inl ⟨rfl, none⟩)] at run
      obtain rfl := (Prod.mk.inj (Option.some.inj run)).2
      have empty : s.command = [] := List.eq_nil_of_length_eq_zero (by rw [command_length, none])
      rw [empty, List.dropLast_nil]
    · rw [shellInput_back some] at run
      obtain ⟨r, _, eq⟩ := Option.map_eq_some_iff.mp run
      obtain rfl := (Prod.mk.inj eq).2
      rw [command_back s some r.2, List.dropLast_concat]
  · rw [lineEdit, if_neg back]
    by_cases room : s.cmdLen < cmdMax-1
    · rw [shellInput_put ne ⟨back, room⟩] at run
      obtain ⟨r, _, eq⟩ := Option.map_eq_some_iff.mp run
      obtain rfl := (Prod.mk.inj eq).2
      rw [command_put, command_length, if_pos room]
    · rw [shellInput_idle ne (.inr ⟨back, not_lt.mp room⟩)] at run
      obtain rfl := (Prod.mk.inj (Option.some.inj run)).2
      rw [command_length, if_neg room]

theorem lineEdit_short (short : l.length ≤ cmdMax-1) (c : UInt8) :
    (lineEdit l c).length ≤ cmdMax-1 := by
  unfold lineEdit
  split_ifs with back room
  · rw [List.length_dropLast]
    omega
  · rw [List.length_append, List.length_singleton]
    omega
  · exact short

/-- No line is longer than the buffer, and there are no more lines than codes. -/
theorem linesTyped_short {events : List (Setting × UInt8)} (short : l.length ≤ cmdMax-1) :
    (∀ e ∈ linesTyped codes l events, e.2.chars.length < cmdMax) ∧
      (linesTyped codes l events).length ≤ events.length := by
  induction events generalizing codes l with
  | nil => exact ⟨by simp [linesTyped], le_rfl⟩
  | cons e rest ih =>
    obtain ⟨setting, sc⟩ := e
    rw [linesTyped, List.length_cons]
    cases typed codes sc with
    | none =>
      obtain ⟨lines, few⟩ := @ih (codes ++ [sc]) l short
      exact ⟨lines, few.trans (Nat.le_succ _)⟩
    | some c =>
      dsimp only
      split_ifs with enter
      · obtain ⟨lines, few⟩ := @ih (codes ++ [sc]) [] (Nat.zero_le _)
        refine ⟨List.forall_mem_cons.mpr ⟨?_, lines⟩, Nat.succ_le_succ few⟩
        have cut : (cstr l).length ≤ l.length := (List.takeWhile_sublist _).length_le
        have max : cmdMax = 256 := rfl
        change (cstr l).length < cmdMax
        omega
      · obtain ⟨lines, few⟩ := @ih (codes ++ [sc]) (lineEdit l c) (lineEdit_short short c)
        exact ⟨lines, few.trans (Nat.le_succ _)⟩

theorem Typed.session {events : List (Setting × UInt8)} (run : Typed fuel x events outs y)
    (tracks : Tracks codes x.keyboard) (line : x.line.command = l) :
    (outs, y.fs) = Shell.session (executeCommand fuel) (linesTyped codes l events) x.fs := by
  induction run generalizing codes l with
  | nil => rfl
  | @cons x y z setting sc rest out outs first later ih =>
    obtain ⟨next, key⟩ := tracks.step sc
    rw [linesTyped, ← key]
    cases first with
    | silent none =>
      rw [none]
      exact ih next line
    | edit char ne run =>
      rw [char]
      dsimp only
      rw [if_neg ne]
      exact ih next ((shellInput_edits ne run).trans (by rw [line]))
    | @enter after char cleared =>
      rw [char]
      dsimp only
      rw [if_pos rfl]
      have empty : after.command = [] := List.eq_nil_of_length_eq_zero (by
        rw [command_length, cleared])
      have rest := ih next empty
      rw [Shell.session, ← line, ← rest]
      rfl

/-- Whatever is typed from the start on, the scan codes spell lines, and these print and leave on
the disk what they do on a store of named entries. -/
theorem typing_on_store {events : List (Setting × UInt8)} (formatted : Formatted x.fs)
    (released : x.keyboard.shift = 0 ∧ x.keyboard.caps = 0) (empty : x.line.cmdLen = 0)
    (few : events.length < 4294967287) (run : Typed fuel x events outs y) :
    outs = (session (planCommand fuel) (linesTyped [] [] events) ⟨fun _ => none, 0, true⟩).1 ∧
    y.fs.view = (session (planCommand fuel) (linesTyped [] [] events)
      ⟨fun _ => none, 0, true⟩).2 := by
  have line : x.line.command = [] := List.eq_nil_of_length_eq_zero (by
    rw [command_length, empty])
  have tracks : Tracks [] x.keyboard := ⟨released.1, released.2⟩
  have executed := run.session tracks line
  obtain ⟨short, count⟩ := @linesTyped_short [] [] events (Nat.zero_le _)
  have follows := formatted_follows formatted fuel short (count.trans_lt few)
  rw [← executed] at follows
  exact ⟨follows.output, follows.view⟩

def typedLs : List (Setting × UInt8) :=
  [(plainSetting, 38), (plainSetting, 31), (plainSetting, 28)]

def startConsole : Console := ⟨⟨0, 0, 0⟩, narrowLine, freshFs⟩

theorem typing_on_store_ls : ∃ y, Typed 0 startConsole typedLs [some (literal "\n(empty)\n")] y ∧
    y.fs.view = ⟨fun _ => none, 0, true⟩ := by
  have l := types_press 108 (narrowLine, 0) (by decide +kernel)
  have s := types_press 115 (press 108 (narrowLine, 0)) (by decide +kernel)
  have first : Keyed 0 plainSetting 38 startConsole []
      ⟨⟨1, 0, 0⟩, (press 108 (narrowLine, 0)).1, freshFs⟩ := .edit rfl (by decide) l.1
  have second : Keyed 0 plainSetting 31 ⟨⟨1, 0, 0⟩, (press 108 (narrowLine, 0)).1, freshFs⟩ []
      ⟨⟨2, 0, 0⟩, (press 115 (press 108 (narrowLine, 0))).1, freshFs⟩ :=
    .edit rfl (by decide) s.1
  obtain ⟨out, y, third⟩ : ∃ out y, Keyed 0 plainSetting 28
      ⟨⟨2, 0, 0⟩, (press 115 (press 108 (narrowLine, 0))).1, freshFs⟩ out y :=
    ⟨_, _, @Keyed.enter _ _ _ _ narrowLine rfl rfl⟩
  have run : Typed 0 startConsole typedLs ([] ++ ([] ++ (out ++ []))) y :=
    .cons first (.cons second (.cons third .nil))
  obtain ⟨output, view⟩ := typing_on_store freshFs_formatted ⟨rfl, rfl⟩ rfl (by decide) run
  have plan : session (planCommand 0) (linesTyped [] [] typedLs) ⟨fun _ => none, 0, true⟩ =
      ([some (literal "\n(empty)\n")], ⟨fun _ => none, 0, true⟩) := by
    have spelled : linesTyped [] [] typedLs = [(plainSetting, lineString (literal "ls"))] := rfl
    rw [spelled]
    have text : (planCommand 0 (plainSetting, lineString (literal "ls"))
      ⟨fun _ => none, 0, true⟩).1 = some (literal "\n(empty)\n") := by decide +kernel
    have state : (planCommand 0 (plainSetting, lineString (literal "ls"))
      ⟨fun _ => none, 0, true⟩).2 = ⟨fun _ => none, 0, true⟩ := rfl
    rw [session, text, state, session]
  rw [plan] at output view
  rw [output] at run
  exact ⟨y, run, view⟩

end TinyOS.Shell
