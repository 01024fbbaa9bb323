import TinyOS.DecimalPrint
import TinyOS.NanoFSStoreRuns

set_option autoImplicit false

/-! `execute_command` of terminal/shell.c on the file system, and on the store that it stands
for. -/
namespace TinyOS.Shell
open LibcString NanoFS Display EntryStores

def strEq : List UInt8 → List UInt8 → Bool
  | c :: a, d :: b => if c ≠ d then false else strEq a b
  | a, b => a.isEmpty && b.isEmpty

/-- What stands before the first space, and what stands behind it. -/
def cutAtSpace (line : CString) : CString × Option CString :=
  (⟨line.chars.takeWhile (· ≠ 32), fun mem => line.noNul ((List.takeWhile_sublist _).mem mem)⟩,
    match h : line.chars.dropWhile (· ≠ 32) with
    | [] => none
    | _ :: rest => some ⟨rest, fun mem => line.noNul
        ((List.dropWhile_sublist _).mem (h ▸ List.mem_cons_of_mem _ mem))⟩)

/-- `is_directory`, `name` and `size` are all that the listings look at; `print_uint` prints the
numeral of the size. -/
def lsLine (i : Item UInt8) : List UInt8 :=
  if i.isDirectory then literal "[DIR]  " ++ i.name ++ [newline]
  else literal "[FILE] " ++ i.name ++ literal "  (" ++ Decimal.decimal i.size ++ literal " B)" ++
    [newline]

def lsText (l : List (Item UInt8)) : List UInt8 :=
  if l.length = 0 then literal "(empty)\n" else l.flatMap lsLine

def statText (r : ℤ) (node : Item UInt8) : List UInt8 :=
  if r = 0 then
    literal "Name : " ++ node.name ++ [newline] ++
    literal "Type : " ++ literal (if node.isDirectory then "directory" else "file") ++ [newline] ++
    literal "Size : " ++ Decimal.decimal node.size ++ literal " bytes\n"
  else literal "Not found\n"

def catText (fuel : ℕ) (r : ℤ) (buffer : Buffer) : Option (List UInt8) :=
  if 0 ≤ r then (printFrom buffer 0 fuel).map fun out => out++[newline]
  else if r = -2 then some (literal "Is a directory\n")
  else some (literal "File not found\n")

def result : Answer → ℤ
  | .code r => r
  | .buffer r _ => r
  | .out r _ => r
  | .list l => l.length

inductive Action where
  | print (text : List UInt8)
  | ask (op : FsOp) (text : Answer → Option (List UInt8))
  | diskwrite

/-- What a line meets besides the disk: what the stack holds where a command and `fs_append` keep
their arrays, and what a command of another part of the kernel prints then. -/
structure Setting where
  buffer : Buffer
  scratch : Buffer
  node : Inode
  printed : List UInt8

/-- `if (!args || !*args)` -/
def withName (usage : String) (f : CString → Action) : Option CString → Action
  | none => .print (literal usage)
  | some args => if args.chars = [] then .print (literal usage) else f args

def withText (usage : String) (f : CString → CString → Action) : Option CString → Action :=
  withName usage fun args =>
    match cutAtSpace args with
    | (name, some text) => if text.chars = [] then .print (literal usage) else f name text
    | (_, none) => .print (literal usage)

/-- A call of fs.c with a message for its result. -/
def report (op : FsOp) (text : ℤ → List UInt8) : Action := .ask op fun a => some (text (result a))

def ver : Action := .print (literal "Nano OS v0.2  |  NanoFS v2\n")

def help : Action := .print (literal "Commands:\n" ++
  literal "  System  : ver, help, clear, uptime, meminfo, usage, reboot, shutdown\n" ++
  literal "            time, time set <hh> <mm> <ss>\n" ++
  literal "  Disk    : diskread, diskwrite, format, mount\n" ++
  literal "  Files   : touch <name>, ls, cat <file>, write <file> <text>\n" ++
  literal "            append <file> <text>, rm <file>, mv <old> <new>\n" ++
  literal "            stat <name>\n" ++
  literal "  Dirs    : mkdir <name>, cd <dir>, pwd\n" ++
  literal "  Other   : say <text>, alloc\n" ++
  literal "  Desktop : bg <r> <g> <b>, bg default, bg image\n" ++
  literal "  Process : run <program>\n" ++
  literal "  Window  : show\n")

def say : Option CString → Action := withName "Usage: say <text>\n" fun args =>
  .print (args.chars ++ [newline])

def format : Action := report .format fun _ => literal "Disk formatted\n"

def mount : Action := report .mount fun r =>
  if r ≠ 0 then literal "Filesystem mounted\n" else literal "No filesystem found\n"

def touch : Option CString → Action := withName "Usage: touch <name>\n" fun args =>
  report (.create (some args)) fun r =>
    if r = 0 then literal "File created\n"
    else if r = -1 then literal "Already exists\n"
    else literal "Inode table full\n"

def ls : Action := .ask (.list fsMaxInodes.toNat) fun
  | .list l => some (lsText l)
  | _ => none

def write : Option CString → Action := withText "Usage: write <file> <text>\n" fun args text =>
  report (.write (some args) (some text)) fun r =>
    if r = 0 then literal "Written\n"
    else if r = -2 then literal "Is a directory\n"
    else literal "File not found\n"

def append (setting : Setting) : Option CString → Action :=
  withText "Usage: append <file> <text>\n" fun args text =>
    report (.append setting.scratch (some args) (some text)) fun r =>
      if r = 0 then literal "Appended\n"
      else if r = -2 then literal "Is a directory\n"
      else literal "File not found\n"

/-- What `cat` prints of what `fs_read` hands back. -/
def catAnswer (fuel : ℕ) : Answer → Option (List UInt8)
  | .buffer r buffer => catText fuel r buffer
  | _ => none

def catCommand (setting : Setting) (fuel : ℕ) : Option CString → Action :=
  withName "Usage: cat <file>\n" fun args =>
    .ask (.read (some args) (some setting.buffer) (fsMaxBlocks*512)) (catAnswer fuel)

/-- The dash in the message about directories is three bytes long. -/
def rm : Option CString → Action := withName "Usage: rm <file>\n" fun args =>
  report (.delete args) fun r =>
    if r = 0 then literal "Deleted\n"
    else if r = -2 then literal "Is a directory " ++ [226, 128, 147] ++ literal " use rmdir\n"
    else literal "File not found\n"

def mv : Option CString → Action := withText "Usage: mv <old> <new>\n" fun args newname =>
  report (.rename args newname) fun r =>
    if r = 0 then literal "Renamed\n"
    else if r = -2 then literal "Name already taken\n"
    else literal "File not found\n"

def stat (setting : Setting) : Option CString → Action := withName "Usage: stat <name>\n" fun args =>
  .ask (.stat args (some setting.node)) fun
    | .out r node => some (statText r node)
    | _ => none

def mkdir : Option CString → Action := withName "Usage: mkdir <name>\n" fun args =>
  report (.mkdir args) fun r =>
    if r = 0 then literal "Directory created\n"
    else if r = -1 then literal "Already exists\n"
    else literal "Inode table full\n"

def cd : Option CString → Action := withName "Usage: cd <directory>\n" fun args =>
  report (.changeDir args) fun r =>
    if r = -1 then literal "Not found\n"
    else if r = -2 then literal "Not a directory\n"
    else []

/-- The branches of `execute_command` in their order there. What concerns neither the disk nor the
variables of fs.c, or only shows them as they are, prints as the setting says. -/
def commands (setting : Setting) (fuel : ℕ) : List (List UInt8 × (Option CString → Action)) :=
  let elsewhere : Option CString → Action := fun _ => .print setting.printed
  [(literal "ver", fun _ => ver), (literal "help", fun _ => help), (literal "clear", elsewhere),
    (literal "say", say), (literal "uptime", elsewhere), (literal "time", elsewhere),
    (literal "reboot", elsewhere), (literal "meminfo", elsewhere), (literal "usage", elsewhere),
    (literal "alloc", elsewhere), (literal "diskread", elsewhere),
    (literal "diskwrite", fun _ => .diskwrite), (literal "format", fun _ => format),
    (literal "mount", fun _ => mount), (literal "touch", touch), (literal "ls", fun _ => ls),
    (literal "write", write), (literal "append", append setting),
    (literal "cat", catCommand setting fuel), (literal "rm", rm), (literal "mv", mv),
    (literal "stat", stat setting), (literal "mkdir", mkdir), (literal "cd", cd),
    (literal "pwd", elsewhere), (literal "shutdown", elsewhere), (literal "bg", elsewhere),
    (literal "show", elsewhere), (literal "run", elsewhere)]

/-- The first branch whose word the line starts with. `cmd_len` is 0 for an empty line only, as no
key types a NUL. -/
def action (setting : Setting) (fuel : ℕ) (line : CString) : Action :=
  let (cmd, args) := cutAtSpace line
  match (commands setting fuel).find? fun c => strEq cmd.chars c.1 with
  | some c => c.2 args
  | none =>
    if line.chars ≠ [] then .print (literal "Unknown command: " ++ cmd.chars ++ [newline])
    else .print []

def diskwriteSector : Sector := fun i =>
  if i.val = 0 then 78 else if i.val = 1 then 65 else if i.val = 2 then 78
  else if i.val = 3 then 79 else if i.val = 4 then 79 else if i.val = 5 then 83 else 0

def diskwriteText : List UInt8 :=
  literal "Writing sector 0...\n" ++ literal "ATA result: " ++ literal "SUCCESS\n"

/-- What an action prints, if that ends, and the state it leaves. -/
def Action.run (s : Fs) : Action → Option (List UInt8) × Fs
  | .print text => (some text, s)
  | .ask op text => (text (s.answer op), (exec op s).2)
  | .diskwrite => (some diskwriteText, { s with disk := s.disk.write 0 diskwriteSector })

abbrev Entered := Setting × CString

/-- One line, the newline in front of its output included. The prompt behind it is left out. -/
def executeCommand (fuel : ℕ) (l : Entered) (s : Fs) : Option (List UInt8) × Fs :=
  let r := (action l.1 fuel l.2).run s
  (r.1.map (newline :: ·), r.2)

def Action.plan (a : Store UInt32 UInt8) : Action → Option (List UInt8) × Store UInt32 UInt8
  | .print text => (some text, a)
  | .ask op text =>
    match op.request with
    | none => (none, a)
    | some r => (text (op.report (a.step shape r).1), (a.step shape r).2)
  | .diskwrite => (some diskwriteText, (a.step shape .spoil).2)

def planCommand (fuel : ℕ) (l : Entered) (a : Store UInt32 UInt8) :
    Option (List UInt8) × Store UInt32 UInt8 :=
  let r := (action l.1 fuel l.2).plan a
  (r.1.map (newline :: ·), r.2)

def session {ι σ : Type} (command : ι → σ → Option (List UInt8) × σ) :
    List ι → σ → List (Option (List UInt8)) × σ
  | [], s => ([], s)
  | line :: rest, s =>
    let r := command line s
    let q := session command rest r.2
    (r.1 :: q.1, q.2)

end TinyOS.Shell
