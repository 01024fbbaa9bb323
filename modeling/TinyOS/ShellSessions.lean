import TinyOS.ShellCommands

set_option autoImplicit false

namespace TinyOS.Shell
open LibcString NanoFS Display EntryStores

variable {s : Fs} {line args : CString} {setting : Setting} {fuel : ℕ} {usage : String}
  {act : Action}

def Action.Known : Action → Prop
  | .ask op _ => op.request.isSome
  | _ => True

theorem cutAtSpace_length {rest : CString} (cut : (cutAtSpace line).2 = some rest) :
    rest.chars.length < line.chars.length := by
  unfold cutAtSpace at cut
  dsimp only at cut
  split at cut
  · cases cut
  · next split =>
    cases cut
    have le := (List.dropWhile_sublist (l := line.chars) fun c => decide (c ≠ 32)).length_le
    rw [split, List.length_cons] at le
    exact le

theorem withName_known {f : CString → Action} {args : Option CString}
    (known : ∀ name, args = some name → name.chars ≠ [] → (f name).Known) :
    (withName usage f args).Known := by
  cases args with
  | none => trivial
  | some name =>
    rw [withName]
    split_ifs with empty
    · trivial
    · exact known name rfl empty

theorem withText_known {f : CString → CString → Action} {args : Option CString}
    (short : ∀ name, args = some name → name.chars.length < cmdMax)
    (known : ∀ name text, text.chars ≠ [] → text.chars.length < cmdMax → (f name text).Known) :
    (withText usage f args).Known := by
  refine withName_known fun name eq _ => ?_
  have limit := short name eq
  cases cut : cutAtSpace name with
  | mk first rest =>
    cases rest with
    | none => trivial
    | some text =>
      have shorter := cutAtSpace_length (congrArg Prod.snd cut)
      dsimp only
      split_ifs with empty
      · trivial
      · exact known first text empty (shorter.trans limit)

theorem report_known {op : FsOp} {text : ℤ → List UInt8} (asks : op.request.isSome) :
    (report op text).Known := asks

theorem commands_known (setting : Setting) (fuel : ℕ) {args : Option CString}
    (short : ∀ name, args = some name → name.chars.length < cmdMax) :
    ∀ c ∈ commands setting fuel, (c.2 args).Known := by
  simp only [commands, List.forall_mem_cons]
  refine ⟨trivial, trivial, trivial, ?say, trivial, trivial, trivial, trivial, trivial, trivial,
    trivial, trivial, report_known rfl, report_known rfl, ?touch, rfl, ?write, ?append, ?cat, ?rm,
    ?mv, ?stat, ?mkdir, ?cd, trivial, trivial, trivial, trivial, trivial, by simp⟩
  case say => exact withName_known fun _ _ _ => trivial
  case touch => exact withName_known fun name _ ne => report_known (by simp [FsOp.request, ne])
  case write =>
    exact withText_known short fun name text _ fits => report_known (by
      simp only [FsOp.request, fits, ↓reduceIte, Option.isSome_some])
  case append =>
    exact withText_known short fun name text _ fits => report_known (by
      simp only [FsOp.request, fits, ↓reduceIte, Option.isSome_some])
  case cat => exact withName_known fun _ _ _ => rfl
  case rm => exact withName_known fun _ _ _ => report_known rfl
  case mv =>
    exact withText_known short fun name text ne _ => report_known (by simp [FsOp.request, ne])
  case stat => exact withName_known fun _ _ _ => rfl
  case mkdir => exact withName_known fun name _ ne => report_known (by simp [FsOp.request, ne])
  case cd =>
    refine withName_known fun name _ _ => report_known ?_
    simp only [FsOp.request]
    split_ifs <;> rfl

theorem action_known (setting : Setting) (fuel : ℕ) (short : line.chars.length < cmdMax) :
    (action setting fuel line).Known := by
  have known := commands_known setting fuel
    fun name cut => (@cutAtSpace_length line name cut).trans short
  unfold action
  dsimp only
  cases found : (commands setting fuel).find? fun c => strEq (cutAtSpace line).1.chars c.1 with
  | none =>
    dsimp only
    split_ifs <;> trivial
  | some c => exact known c (List.mem_of_find?_eq_some found)

theorem diskwrite_inode (s : Fs) (j : UInt32) :
    (s.disk.write 0 diskwriteSector).inode j = s.disk.inode j := inode_write _ _ _ (.inl rfl) j

theorem diskwrite_spoils (s : Fs) : ¬(s.disk.write 0 diskwriteSector).Mounts := by
  have sector : (s.disk.write 0 diskwriteSector).sectors 0 = diskwriteSector := by
    rw [write_sectors, Function.update_self]
  rw [Disk.Mounts, sector, not_and_or, strcmp_eq_zero]
  refine .inl fun same => ?_
  have front : (List.ofFn diskwriteSector).take 7 = [78, 65, 78, 79, 79, 83, 0] := by
    apply List.ext_getElem
    · rw [List.length_take, List.length_ofFn]
      rfl
    · intro i lt lt'
      have small : i < 7 := lt'
      rw [List.getElem_take, List.getElem_ofFn]
      interval_cases i <;> rfl
  have split := List.take_append_drop 7 (List.ofFn diskwriteSector)
  rw [front] at split
  rw [← split, cstr_append_of_mem (by decide)] at same
  exact absurd same (by decide)

theorem diskwrite_sound (h : s.Sound) :
    (Fs.mk (s.disk.write 0 diskwriteSector) s.statics).Sound := by
  have table (j : UInt32) :
      (Fs.mk (s.disk.write 0 diskwriteSector) s.statics).inode j = s.inode j :=
    diskwrite_inode s j
  obtain ⟨l, ancestors⟩ := h.ancestors
  exact {
    blocks := fun id => by
      rw [diskwrite_inode]
      exact h.blocks id
    terminated := fun id => by
      rw [table]
      exact h.terminated id
    apart := h.apart.same table
    filled := h.filled.same table
    ancestors := ⟨l, ancestors.same table rfl⟩
    sizeless := fun id => by
      rw [table]
      exact h.sizeless id }

theorem diskwrite_view (s : Fs) :
    (Fs.mk (s.disk.write 0 diskwriteSector) s.statics).view =
      (s.view.step shape .spoil).2 := by
  have entry : (fun j => (s.disk.write 0 diskwriteSector).entryOf
      ((s.disk.write 0 diskwriteSector).inode j)) = fun j => s.disk.entryOf (s.inode j) := by
    funext j
    rw [diskwrite_inode, Disk.entryOf, Disk.entryOf, Disk.body, Disk.body]
    split_ifs with live file
    · refine congrArg (fun b => some (Entry.mk _ _ (Body.file b))) (fileBytes_congr fun b real => ?_)
      rw [write_sectors, Function.update_of_ne real]
    · rfl
    · rfl
  rw [Store.step, Fs.view, Fs.view, decide_eq_false (diskwrite_spoils s)]
  exact congrArg (fun e => Store.mk e s.dir false) entry

theorem diskwrite_highest : (s.disk.write 0 diskwriteSector).highest = s.disk.highest := by
  simp only [Disk.highest, diskwrite_inode]

/-- Lines do to the disk what their plans do to the store, and use up `n` block numbers at most. -/
structure Follows {β : Type} (s : Fs) (n : ℕ) (r : β × Fs) (p : β × Store UInt32 UInt8) :
    Prop where
  output : r.1 = p.1
  view : r.2.view = p.2
  sound : r.2.Sound
  highest : r.2.disk.highest.toNat ≤ s.disk.highest.toNat+n

theorem Action.follows (h : s.Sound) (left : NumbersLeft s) (known : act.Known) :
    Follows s 1 (act.run s) (act.plan s.view) := by
  cases act with
  | print text => exact ⟨rfl, rfl, h, Nat.le_succ _⟩
  | ask op text =>
    obtain ⟨r, asks⟩ := Option.isSome_iff_exists.mp known
    have simulates := h.simulates left asks
    constructor
    · simp only [Action.run, Action.plan, asks, simulates.answer]
    · simp only [Action.run, Action.plan, asks, simulates.view]
    · exact h.step left known
    · exact effect_highest left (exec_effect h.blocks op)
  | diskwrite =>
    exact ⟨rfl, diskwrite_view s, diskwrite_sound h,
      (congrArg UInt32.toNat diskwrite_highest).le.trans (Nat.le_succ _)⟩

theorem executeCommand_follows (fuel : ℕ) (l : Entered) (h : s.Sound) (left : NumbersLeft s)
    (short : l.2.chars.length < cmdMax) :
    Follows s 1 (executeCommand fuel l s) (planCommand fuel l s.view) := by
  have follows := Action.follows h left (action_known l.1 fuel short)
  exact ⟨congrArg (Option.map _) follows.output, follows.view, follows.sound, follows.highest⟩

theorem session_follows (fuel : ℕ) (h : s.Sound) {lines : List Entered}
    (short : ∀ l ∈ lines, l.2.chars.length < cmdMax)
    (room : s.disk.highest.toNat+lines.length < 4294967295) :
    Follows s lines.length (session (executeCommand fuel) lines s)
      (session (planCommand fuel) lines s.view) := by
  induction lines generalizing s with
  | nil => exact ⟨rfl, rfl, h, Nat.le_refl _⟩
  | cons line lines ih =>
    rw [List.length_cons] at room
    obtain ⟨first, rest⟩ := List.forall_mem_cons.mp short
    have step := executeCommand_follows fuel line h (numbersLeft_of_lt (by omega)) first
    have higher := step.highest
    have follows := ih step.sound rest (by omega)
    have highest := follows.highest
    rw [step.view] at follows
    constructor
    · simp only [session]
      rw [step.output, follows.output]
    · exact follows.view
    · exact follows.sound
    · rw [List.length_cons]
      exact highest.trans (by omega)

theorem formatted_follows (formatted : Formatted s) (fuel : ℕ) {lines : List Entered}
    (short : ∀ l ∈ lines, l.2.chars.length < cmdMax) (few : lines.length < 4294967287) :
    Follows s lines.length (session (executeCommand fuel) lines s)
      (session (planCommand fuel) lines ⟨fun _ => none, 0, true⟩) := by
  obtain ⟨sound, highest, view⟩ := formatted_sound formatted
  rw [← view]
  refine session_follows fuel sound short ?_
  rw [highest]
  change 8+lines.length < _
  omega

/-- From a formatted disk on, every line prints what it prints on a store of named entries, and
the disk ends as that store: whatever the lines are, and whatever they meet besides. -/
theorem session_on_store (formatted : Formatted s) (fuel : ℕ) (lines : List Entered)
    (short : ∀ l ∈ lines, l.2.chars.length < cmdMax) (few : lines.length < 4294967287) :
    (session (executeCommand fuel) lines s).1 =
      (session (planCommand fuel) lines ⟨fun _ => none, 0, true⟩).1 ∧
    (session (executeCommand fuel) lines s).2.view =
      (session (planCommand fuel) lines ⟨fun _ => none, 0, true⟩).2 := by
  have follows := formatted_follows formatted fuel short few
  exact ⟨follows.output, follows.view⟩

def plainSetting : Setting := ⟨fun _ => 0, fun _ => 0, Inode.zero, []⟩

def touchF : Entered := (plainSetting, ⟨[116, 111, 117, 99, 104, 32, 102], by decide⟩)
def mkdirD : Entered := (plainSetting, ⟨[109, 107, 100, 105, 114, 32, 100], by decide⟩)
def listing : Entered := (plainSetting, ⟨[108, 115], by decide⟩)
def unknownL : Entered := (plainSetting, ⟨[108], by decide⟩)

theorem session_on_store_listing :
    (session (executeCommand 0) [touchF, mkdirD, listing, unknownL] freshFs).1 =
      [some (literal "\nFile created\n"), some (literal "\nDirectory created\n"),
        some (literal "\n[FILE] f  (0 B)\n[DIR]  d\n"),
        some (literal "\nUnknown command: l\n")] := by
  refine (session_on_store freshFs_formatted 0 [touchF, mkdirD, listing, unknownL] (by decide)
    (by decide)).1.trans ?_
  decide +kernel

theorem cutAtSpace_word {word : List UInt8} (noSpace : 32 ∉ word)
    (chars : line.chars = word ++ 32 :: args.chars) :
    (cutAtSpace line).1.chars = word ∧ (cutAtSpace line).2 = some args := by
  have all : ∀ c ∈ word, decide (c ≠ 32) = true := fun c mem =>
    decide_eq_true fun eq => noSpace (eq ▸ mem)
  constructor
  · change line.chars.takeWhile _ = word
    rw [chars, List.takeWhile_append_of_pos all, List.takeWhile_cons_of_neg (by decide),
      List.append_nil]
  · have rest : line.chars.dropWhile (fun c => decide (c ≠ 32)) = 32 :: args.chars := by
      rw [chars, List.dropWhile_append_of_pos all, List.dropWhile_cons_of_neg (by decide)]
    unfold cutAtSpace
    dsimp only
    split
    · next none => cases rest.symm.trans none
    · next some =>
      cases rest.symm.trans some
      rfl

theorem action_word {word : List UInt8} {c : List UInt8 × (Option CString → Action)}
    (noSpace : 32 ∉ word) (chars : line.chars = word ++ 32 :: args.chars)
    (found : (commands setting fuel).find? (fun c => strEq word c.1) = some c) :
    action setting fuel line = c.2 (some args) := by
  obtain ⟨cmd, rest⟩ := cutAtSpace_word noSpace chars
  unfold action
  dsimp only
  rw [cmd, rest, found]

theorem find_write : (commands setting fuel).find? (fun c => strEq (literal "write") c.1) =
    some (literal "write", write) := rfl

theorem find_cat : (commands setting fuel).find? (fun c => strEq (literal "cat") c.1) =
    some (literal "cat", catCommand setting fuel) := rfl

def writeLine (name text : CString) : CString :=
  ⟨literal "write" ++ 32 :: (name.chars ++ 32 :: text.chars), by
    simp only [List.mem_append, List.mem_cons, name.noNul, text.noNul, or_false]
    decide⟩

def catLine (name : CString) : CString :=
  ⟨literal "cat" ++ 32 :: name.chars, by
    simp only [List.mem_append, List.mem_cons, name.noNul, or_false]
    decide⟩

variable {name text : CString} {a : Store UInt32 UInt8} {dir k : UInt32}

theorem edit_reply (f : List UInt8 → List UInt8) (n : List UInt8) :
    (a.edit shape n f).1 = .done ∨ (a.edit shape n f).1 = .failed .missing ∨
      (a.edit shape n f).1 = .failed .isDirectory := by
  unfold Store.edit
  split
  · exact .inr (.inl rfl)
  · split
    · exact .inl rfl
    · exact .inr (.inr rfl)

theorem plan_write (noSpace : 32 ∉ name.chars) (some : text.chars ≠ [])
    (short : (writeLine name text).chars.length < cmdMax)
    (written : (planCommand fuel (setting, writeLine name text) a).1 =
      .some (newline :: literal "Written\n")) :
    ∃ k, (planCommand fuel (setting, writeLine name text) a).2.Keeps shape a.dir name.chars k
      text.chars := by
  have args : 0 ∉ name.chars ++ 32 :: text.chars := by
    simp only [List.mem_append, List.mem_cons, name.noNul, text.noNul, or_false]
    decide
  have length : text.chars.length < 256 := by
    change (literal "write" ++ 32 :: (name.chars ++ 32 :: text.chars)).length < 256 at short
    simp only [List.length_append, List.length_cons] at short
    omega
  have asks : (FsOp.write (.some name) (.some text)).request =
      .some (.write name.chars text.chars) := if_pos length
  have act : action setting fuel (writeLine name text) = report (.write name text) fun r =>
      if r = 0 then literal "Written\n"
      else if r = -2 then literal "Is a directory\n"
      else literal "File not found\n" := by
    rw [@action_word _ ⟨_, args⟩ _ _ _ _ (by decide) rfl find_write]
    obtain ⟨first, rest⟩ := @cutAtSpace_word ⟨_, args⟩ text _ noSpace rfl
    have cut : cutAtSpace ⟨_, args⟩ = (name, .some text) := Prod.ext (chars_inj.mp first) rest
    have whole : name.chars ++ 32 :: text.chars ≠ [] := by simp
    simp only [write, withText, withName, whole, ↓reduceIte, cut, some]
  simp only [planCommand, act, report, Action.plan, asks, Option.map_some, Option.some.injEq,
    List.cons.injEq, true_and] at written ⊢
  have done : (a.edit shape name.chars fun _ => text.chars).1 = .done := by
    rcases edit_reply (a := a) (fun _ => text.chars) name.chars with done | missing | isDirectory
    · exact done
    · rw [Store.step, missing] at written
      change literal "File not found\n" = literal "Written\n" at written
      exact absurd written (by decide)
    · rw [Store.step, isDirectory] at written
      change literal "Is a directory\n" = literal "Written\n" at written
      exact absurd written (by decide)
  obtain ⟨k, old, _, keeps⟩ := Store.edit_keeps done
  have fits : text.chars.take shape.fileMax = text.chars :=
    List.take_of_length_le (show text.chars.length ≤ 2044 by omega)
  rw [fits] at keeps
  exact ⟨k, keeps⟩

def Spares (fuel : ℕ) (name : CString) (l : Entered) : Prop :=
  ∀ op text r, action l.1 fuel l.2 = .ask op text → op.request = some r →
    r.Spares shape name.chars

theorem session_keeps {lines : List Entered} {bytes : List UInt8}
    (keeps : a.Keeps shape dir name.chars k bytes) (spares : ∀ l ∈ lines, Spares fuel name l) :
    (session (planCommand fuel) lines a).2.Keeps shape dir name.chars k bytes := by
  induction lines generalizing a with
  | nil => exact keeps
  | cons l lines ih =>
    obtain ⟨first, rest⟩ := List.forall_mem_cons.mp spares
    refine ih ?_ rest
    unfold planCommand
    dsimp only
    cases act : action l.1 fuel l.2 with
    | print text => exact keeps
    | ask op text =>
      cases asks : op.request with
      | none =>
        simp only [Action.plan, asks]
        exact keeps
      | some r =>
        simp only [Action.plan, asks]
        exact keeps.step (first op text r act asks)
    | diskwrite => exact keeps.moved _ _

theorem plan_cat (named : name.chars ≠ []) {bytes : List UInt8} (fits : bytes.length ≤ 2044)
    (keeps : a.Keeps shape a.dir name.chars k bytes) :
    (planCommand fuel (setting, catLine name) a).1 =
      (printFrom (readBuffer bytes setting.buffer) 0 fuel).map fun out =>
        newline :: (out ++ [newline]) := by
  have act : action setting fuel (catLine name) =
      .ask (.read (some name) (some setting.buffer) (fsMaxBlocks*512)) (catAnswer fuel) := by
    rw [@action_word _ name _ _ _ _ (by decide) rfl find_cat]
    exact if_neg named
  have reply : (a.step shape (.read name.chars)).1 = .bytes bytes := by
    rw [Store.step, keeps.find rfl]
    dsimp only
    rw [keeps.entry]
  have whole : min bytes.length (fsMaxBlocks*512 : UInt32).toNat = bytes.length :=
    min_eq_left (fits.trans (by decide))
  simp only [planCommand, act, Action.plan, FsOp.request, reply, FsOp.report, whole, catAnswer,
    catText, Nat.cast_nonneg, ↓reduceIte, Option.map_map]
  rfl

/-- What `write` says it has written, `cat` shows, however many lines come in between that spare
the name, as long as the current directory is the same again: the text, and behind it what the
stack held up to the next NUL. -/
theorem cat_shows_written (formatted : Formatted s) (fuel : ℕ) (before after : List Entered)
    (setting setting' : Setting) (name text : CString) (noSpace : 32 ∉ name.chars)
    (some : text.chars ≠ [])
    (short : (writeLine name text).chars.length < cmdMax)
    (lines : ∀ l ∈ before ++ after, l.2.chars.length < cmdMax)
    (few : before.length+after.length < 4294967285)
    (spares : ∀ l ∈ after, Spares fuel name l) :
    let t := (session (executeCommand fuel) before s).2
    let w := executeCommand fuel (setting, writeLine name text) t
    let u := (session (executeCommand fuel) after w.2).2
    w.1 = .some (newline :: literal "Written\n") → u.dir = t.dir →
      (executeCommand fuel (setting', catLine name) u).1 =
        (printFrom (readBuffer text.chars setting'.buffer) 0 fuel).map fun out =>
          newline :: (out ++ [newline]) := by
  intro t w u written back
  obtain ⟨sound, highest, _⟩ := formatted_sound formatted
  have eight : s.disk.highest.toNat = 8 := congrArg UInt32.toNat highest
  have first := session_follows fuel sound
    (fun l mem => lines l (List.mem_append_left _ mem)) (by omega)
  have one := first.highest
  have write := executeCommand_follows fuel (setting, writeLine name text)
    first.sound (numbersLeft_of_lt (by omega)) short
  have two := write.highest
  have rest := session_follows fuel write.sound
    (fun l mem => lines l (List.mem_append_right _ mem)) (by omega)
  have three := rest.highest
  have lengths : (catLine name).chars.length < (writeLine name text).chars.length := by
    change (literal "cat" ++ 32 :: name.chars).length <
      (literal "write" ++ 32 :: (name.chars ++ 32 :: text.chars)).length
    simp only [List.length_append, List.length_cons,
      show (literal "cat").length = 3 by decide, show (literal "write").length = 5 by decide]
    omega
  have cat := executeCommand_follows fuel (setting', catLine name)
    rest.sound (numbersLeft_of_lt (by omega)) (lengths.trans short)
  have textFits : text.chars.length ≤ 2044 := by
    change (literal "write" ++ 32 :: (name.chars ++ 32 :: text.chars)).length < 256 at short
    simp only [List.length_append, List.length_cons] at short
    omega
  -- the file is there after the write, and after each of the lines behind it
  obtain ⟨k, wrote⟩ := plan_write noSpace some short (write.output.symm.trans written)
  rw [← write.view] at wrote
  have kept := session_keeps wrote spares
  rw [← rest.view] at kept
  have named : name.chars ≠ [] := by
    obtain ⟨live, same⟩ := entryOf_eq_some.mp kept.entry
    have called : name.chars = _ := congrArg Entry.name same
    rw [called]
    exact (live_iff_nameStr _).mp live
  have here : u.view.dir = t.view.dir := back
  rw [← here] at kept
  exact cat.output.trans (plan_cat named textFits kept)

theorem mkdirD_spares (fuel : ℕ) : Spares fuel nameF mkdirD := by
  intro op text r act asks
  have known : action plainSetting fuel mkdirD.2 = mkdir (some nameD) :=
    @action_word mkdirD.2 nameD plainSetting fuel (literal "mkdir") (literal "mkdir", mkdir)
      (by decide) (by decide) rfl
  have request : FsOp.request (.mkdir nameD) = some (.mkdir [100]) := by decide
  rw [show mkdirD.1 = plainSetting from rfl, known] at act
  cases act
  rw [request] at asks
  cases asks
  exact ⟨by simp, by decide⟩

theorem cat_shows_written_mkdir :
    let t := (session (executeCommand 1) [touchF] freshFs).2
    let w := executeCommand 1 (plainSetting, writeLine nameF nameD) t
    let u := (session (executeCommand 1) [mkdirD] w.2).2
    (executeCommand 1 (plainSetting, catLine nameF) u).1 = some (literal "\nd\n") := by
  intro t w u
  have first := @formatted_follows freshFs freshFs_formatted 1 [touchF] (by decide) (by decide)
  have all := @formatted_follows freshFs freshFs_formatted 1
    [touchF, (plainSetting, writeLine nameF nameD), mkdirD] (by decide) (by decide)
  have written : w.1 = some (newline :: literal "Written\n") := by
    have second := congrArg (fun l => l.getD 1 none) all.output
    refine Eq.trans second ?_
    decide +kernel
  have back : u.dir = t.dir := by
    have t0 : t.dir = 0 := (congrArg Store.dir first.view).trans (by decide +kernel)
    have u0 : u.dir = 0 := (congrArg Store.dir all.view).trans (by decide +kernel)
    rw [t0, u0]
  have shows := cat_shows_written freshFs_formatted 1 [touchF] [mkdirD]
    plainSetting plainSetting nameF nameD (by decide) (by decide) (by decide)
    (by decide) (by decide) (by simpa using mkdirD_spares 1) written back
  refine shows.trans ?_
  decide +kernel

end TinyOS.Shell
