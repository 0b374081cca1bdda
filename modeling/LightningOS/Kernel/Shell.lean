import LightningOS.Fs.Persist

/-!
# The shell

`kernel/shell.c`. A command line is split into words, and the first of them says what to
do. What is typed at the prompts comes from `typed`, prompt by prompt, where `none` stands
for Ctrl-C. Error messages are kept. Of the rest of the output there is what is read from the
tree for it, and not where it goes; the commands that print something else or concern the
display or the clock are left out.

Functions return `none` when one of the functions of the file tree does, or when they read
something that is not there.
-/

namespace LightningOS.Shell

open ByteMemory CString Ramfs Users Persist

def lineMax : Nat := 256

def argMax : Nat := 16

def passwordMax : Nat := 64

/-- A session. `halted` is set when the machine is switched off or restarts, and `asked`
counts the prompts. `errors` are the calls of `print_error`: the command and its message. -/
structure Session where
  sys : System
  sessionOpen : Bool := true
  halted : Bool := false
  asked : Nat := 0
  errors : List (String × String) := []

variable (env : Env) (ready : Nat → Bool) (typed : Nat → Option (List UInt8))

def Session.printError (st : Session) (command message : String) : Session :=
  { st with errors := st.errors ++ [(command, message)] }

def Session.setFs (st : Session) (s : Fs) : Session := { st with sys := { st.sys with fs := s } }

def Session.setTable (st : Session) (t : Table) : Session :=
  { st with sys := { st.sys with table := t } }

def Session.markDirty (st : Session) : Session := { st with sys := persistMarkDirty st.sys }

/-- A character that `console_read_line` takes. -/
def printable (c : UInt8) : Bool := 32 ≤ c && c ≤ 126

/-- `console_read_line` into a buffer of `size` bytes. After Ctrl-C it is empty. -/
def Session.readLine (st : Session) (size : Nat) : Bool × List UInt8 × Session :=
  let st' := { st with asked := st.asked + 1 }
  match typed st.asked with
  | none => (false, [], st')
  | some keys => (true, (keys.filter printable).take (min size lineMax - 1), st')

/-! ## Words -/

def blank : UInt8 := 32

def isSpace (c : UInt8) : Bool := c = blank || c = 9

/-- `str_split` with room for `room` more words. A word ends where the blank behind it gets
overwritten, so the one that takes the last place goes on to the end of the line. -/
def strSplit : Nat → List UInt8 → List (List UInt8)
  | 0, _ => []
  | room + 1, line =>
    let line := line.dropWhile isSpace
    if line = [] then []
    else
      (if room = 0 then line else line.takeWhile fun c => !isSpace c) ::
        strSplit room (line.dropWhile fun c => !isSpace c)

/-- The text without the blanks at its end. -/
def trimRight (txt : List UInt8) : List UInt8 := (txt.reverse.dropWhile (· == blank)).reverse

/-- What is in front of the last slash and what is behind it, as `strrchr` finds it. -/
def splitLastSlash (txt : List UInt8) : Option (List UInt8 × List UInt8) :=
  let name := (txt.reverse.takeWhile (· != slash)).reverse
  if name.length = txt.length then none
  else some (txt.take (txt.length - name.length - 1), name)

/-! ## What a command is about to write to -/

/-- The string that `target_abspath` puts together from the parent and a new name. -/
def childAbspath (parentPath name : List UInt8) : List UInt8 :=
  (parentPath ++ (if parentPath = [slash] then [] else [slash]) ++ name).take (fsPathMax - 1)

/-- The inner `none` is `false`. -/
def targetAbspath (s : Fs) (path : List UInt8) : Option (Option (List UInt8)) :=
  match fsResolve s path with
  | none => none
  | some (some node) =>
    (fsAbspath s node fsPathMax).map fun out => some (if out = [] then [slash] else out)
  | some none =>
    let buffer := path.take (fsPathMax - 1)
    let (parent, name) :=
      match splitLastSlash buffer with
      | some (dir, name) => (fsResolve s (if dir = [] then [slash] else dir), name)
      | none => (some s.currentDir, buffer)
    match parent with
    | none => none
    | some none => some none
    | some (some p) =>
      match s.nodes.get p with
      | none => none
      | some pn =>
        if pn.type ≠ .dir ∨ name = [] then some none
        else
          (fsAbspath s p fsPathMax).map fun parentPath =>
            some (childAbspath (if parentPath = [] then [slash] else parentPath) name)

def mayWrite (st : Session) (command : String) (path : List UInt8) : Option (Bool × Session) :=
  match targetAbspath st.sys.fs path with
  | none => none
  | some none => some (false, st.printError command "no such file or directory")
  | some (some abspath) =>
    if usersMayWrite st.sys.table abspath then some (true, st)
    else some (false, st.printError command "permission denied")

def requireRoot (st : Session) (command : String) : Bool × Session :=
  if usersIsRoot st.sys.table then (true, st)
  else (false, st.printError command "only root may do that")

/-! ## What is read to be printed -/

/-- `vga_write`: the text ends at a zero, which has to be in the buffer. -/
def vgaWrite (s : Fs) (data : Ptr) : Option (List UInt8) :=
  match s.bufs.get data with
  | none => none
  | some buf => if (0 : UInt8) ∈ buf then some (text buf) else none

/-- `if (file->data) vga_write(file->data);` -/
def writeFileData (s : Fs) (n : FsNode) : Option (List UInt8) :=
  match n.data with
  | none => some []
  | some d => vgaWrite s d

/-- `file->size && file->data[file->size - 1] != '\n'`. -/
def lacksNewline (s : Fs) (n : FsNode) : Option Bool :=
  if n.size = 0 then some false
  else
    match n.data with
    | none => none
    | some d => ((s.bufs.get d).bind fun buf => buf[n.size - 1]?).map (· ≠ 10)

/-- The children that `cmd_ls` prints, from `child` on. -/
def lsLoop (s : Fs) : Nat → Option Ptr → Option (List Ptr)
  | _, none => some []
  | 0, some _ => none
  | fuel + 1, some child =>
    match s.nodes.get child with
    | none => none
    | some c => (lsLoop s fuel c.next).map (child :: ·)

/-- What the loop of `tree_walk` prints from `child` on, with the depths. -/
def treeWalk (s : Fs) : Nat → Option Ptr → Nat → Option (List (Nat × Ptr))
  | _, none, _ => some []
  | 0, some _, _ => none
  | fuel + 1, some child, depth =>
    match s.nodes.get child with
    | none => none
    | some c =>
      match (if c.type = .dir then treeWalk s fuel c.children (depth + 1) else some []) with
      | none => none
      | some below =>
        (treeWalk s fuel c.next depth).map fun rest => (depth, child) :: (below ++ rest)

/-- `current_path`. Without a working directory the buffer is read as it was. -/
def currentPath (s : Fs) : Option (List UInt8) :=
  match s.currentDir with
  | none => none
  | some dir => (fsAbspath s dir fsPathMax).map fun out => if out = [] then [slash] else out

/-- `home` is that of the account that is logged in. -/
def currentHome (t : Table) : Option (List UInt8) := t.current.map fun i => (t.users i).home

/-- `display_path`: the home directory is shown as `~`. -/
def displayPath (t : Table) (s : Fs) : Option (List UInt8) :=
  (currentPath s).map fun path =>
    match currentHome t with
    | none => path.take (fsPathMax - 1)
    | some home =>
      let rest := path.drop home.length
      if home.isPrefixOf path ∧ (rest = [] ∨ rest.head? = some slash) then
        (126 :: rest).take (fsPathMax - 1)
      else path.take (fsPathMax - 1)

/-- `print_prompt`, without the colours. -/
def printPrompt (t : Table) (s : Fs) : Option (List UInt8) :=
  (displayPath t s).map fun shown =>
    ((t.current.map fun i => (t.users i).name).getD (ofString "nobody")) ++
      ofString "@lightning:" ++ shown ++ (if usersIsRoot t then ofString "# " else ofString "$ ")

/-! ## Files -/

/-- `argc > 1 ? fs_resolve(argv[1]) : fs_cwd()`, the directory of `ls` and `tree`. -/
def argOrCwd (s : Fs) (argv : List (List UInt8)) : Option (Option Ptr) :=
  match argv[1]? with
  | some path => fsResolve s path
  | none => some s.currentDir

def cmdLs (st : Session) (argv : List (List UInt8)) : Option Session :=
  let s := st.sys.fs
  match argOrCwd s argv with
  | none => none
  | some none => some (st.printError "ls" "no such file or directory")
  | some (some dir) =>
    match s.nodes.get dir with
    | none => none
    | some n =>
      if n.type = .file then some st
      else (lsLoop s (s.nodes.brk + 1) n.children).map fun _ => st

def cmdTree (st : Session) (argv : List (List UInt8)) : Option Session :=
  let s := st.sys.fs
  match argOrCwd s argv with
  | none => none
  | some none => some (st.printError "tree" "not a directory")
  | some (some dir) =>
    match s.nodes.get dir with
    | none => none
    | some n =>
      if n.type ≠ .dir then some (st.printError "tree" "not a directory")
      else (treeWalk s (s.nodes.brk + 1) n.children 0).map fun _ => st

def cmdCd (st : Session) (argv : List (List UInt8)) : Option Session :=
  let s := st.sys.fs
  match argv[1]? with
  | none =>
    match (match currentHome st.sys.table with
      | some home => fsResolve s home
      | none => some s.rootNode) with
    | none => none
    | some dir => (fsSetCwd s (if dir.isSome then dir else s.rootNode)).map st.setFs
  | some path =>
    match fsResolve s path with
    | none => none
    | some none => some (st.printError "cd" "no such file or directory")
    | some (some dir) =>
      match s.nodes.get dir with
      | none => none
      | some n =>
        if n.type ≠ .dir then some (st.printError "cd" "not a directory")
        else (fsSetCwd s (some dir)).map st.setFs

def cmdCat (st : Session) (argv : List (List UInt8)) : Option Session :=
  match argv[1]? with
  | none => some (st.printError "cat" "usage: cat <file>")
  | some path =>
    match fsResolve st.sys.fs path with
    | none => none
    | some none => some (st.printError "cat" "no such file or directory")
    | some (some file) =>
      match st.sys.fs.nodes.get file with
      | none => none
      | some n =>
        if n.type ≠ .file then some (st.printError "cat" "is a directory")
        else
          match writeFileData st.sys.fs n with
          | none => none
          | some _ => (lacksNewline st.sys.fs n).map fun _ => st

def cmdPwd (st : Session) : Option Session := (currentPath st.sys.fs).map fun _ => st

def cmdMkdir (st : Session) (argv : List (List UInt8)) : Option Session :=
  match argv[1]? with
  | none => some (st.printError "mkdir" "usage: mkdir <directory>")
  | some path =>
    match mayWrite st "mkdir" path with
    | none => none
    | some (false, st) => some st
    | some (true, st) =>
      match fsCreate env st.sys.fs path .dir with
      | none => none
      | some (some _, s) => some (st.setFs s).markDirty
      | some (none, s) => some ((st.setFs s).printError "mkdir" "cannot create directory")

def cmdTouch (st : Session) (argv : List (List UInt8)) : Option Session :=
  match argv[1]? with
  | none => some (st.printError "touch" "usage: touch <file>")
  | some path =>
    match fsResolve st.sys.fs path with
    | none => none
    | some (some _) => some st
    | some none =>
      match mayWrite st "touch" path with
      | none => none
      | some (false, st) => some st
      | some (true, st) =>
        match fsCreate env st.sys.fs path .file with
        | none => none
        | some (some _, s) => some (st.setFs s).markDirty
        | some (none, s) => some ((st.setFs s).printError "touch" "cannot create file")

def cmdRm (st : Session) (argv : List (List UInt8)) : Option Session :=
  match argv[1]? with
  | none => some (st.printError "rm" "usage: rm <path>")
  | some path =>
    match mayWrite st "rm" path with
    | none => none
    | some (false, st) => some st
    | some (true, st) =>
      match fsRemove st.sys.fs path with
      | none => none
      | some (result, s) =>
        if result = 0 then some (st.setFs s).markDirty
        else if result = -2 then
          some ((st.setFs s).printError "rm" "cannot remove the current directory")
        else some ((st.setFs s).printError "rm" "no such file or directory")

/-- A redirection: the text in front of it, whether it appends, and the target. -/
structure Redirect where
  txt : List UInt8
  append : Bool
  target : List UInt8

/-- The first `>` of the line, with the blanks around the text and the target taken off. -/
def findRedirect (args : List UInt8) : Option Redirect :=
  match args.dropWhile (· != 62) with
  | [] => none
  | _ :: rest =>
    let append := rest.head? = some 62
    let target := if append then rest.tail else rest
    some {
      txt := trimRight (args.takeWhile (· != 62))
      append := append
      target := trimRight (target.dropWhile (· == blank)) }

/-- What goes into the file. -/
def echoText (r : Redirect) : List UInt8 := (r.txt ++ [10]).take (lineMax + 1)

/-- The end of `cmd_echo`, with the file that is there or was created. -/
def echoInto (st : Session) (r : Redirect) (file : Ptr) : Option Session :=
  match st.sys.fs.nodes.get file with
  | none => none
  | some n =>
    if n.type ≠ .file then some (st.printError "echo" "is a directory")
    else
      match fsWrite env st.sys.fs (some file) (echoText r) r.append with
      | none => none
      | some (result, s) =>
        if result ≠ 0 then some ((st.setFs s).printError "echo" "write failed")
        else some (st.setFs s).markDirty

def cmdEcho (st : Session) (args : List UInt8) : Option Session :=
  match findRedirect args with
  | none => some st
  | some r =>
    if r.target = [] then some (st.printError "echo" "missing redirection target")
    else
      match mayWrite st "echo" r.target with
      | none => none
      | some (false, st) => some st
      | some (true, st) =>
        match fsResolve st.sys.fs r.target with
        | none => none
        | some (some file) => echoInto env st r file
        | some none =>
          match fsCreate env st.sys.fs r.target .file with
          | none => none
          | some (none, s) => some ((st.setFs s).printError "echo" "cannot create file")
          | some (some file, s) => echoInto env (st.setFs s) r file

/-- What `cmd_echo` prints: its text, when that does not go into a file. -/
def echoPrints (args : List UInt8) : List UInt8 :=
  match findRedirect args with
  | none => args ++ [10]
  | some _ => []

/-! ## Accounts -/

/-- Asks twice, and gives a result only when both entries match. -/
def readNewPassword (st : Session) : Option (List UInt8) × Session :=
  match st.readLine typed passwordMax with
  | (false, _, st) => (none, st)
  | (true, out, st) =>
    if out.length < passwordMin then (none, st.printError "passwd" "password is too short")
    else
      match st.readLine typed passwordMax with
      | (false, _, st) => (none, st)
      | (true, again, st) =>
        if out ≠ again then (none, st.printError "passwd" "passwords do not match")
        else (some out, st)

/-- What `cmd_useradd` says about the result of `users_add`. -/
def useraddError (result : Int) : String :=
  if result = -1 then "invalid user name"
  else if result = -2 then "that name is taken"
  else if result = -3 then "password is too short"
  else "cannot create the account"

def cmdUseradd (st : Session) (argv : List (List UInt8)) : Option Session :=
  match requireRoot st "useradd" with
  | (false, st) => some st
  | (true, st) =>
    match argv[1]? with
    | none => some (st.printError "useradd" "usage: useradd <name>")
    | some name =>
      if userMax ≤ usersCount st.sys.table then
        some (st.printError "useradd" "the account table is full")
      else
        match readNewPassword typed st with
        | (none, st) => some st
        | (some password, st) =>
          match usersAdd env (persistAvailable st.sys) st.sys.table st.sys.fs name password
              false with
          | none => none
          | some (result, t, s) =>
            let st := (st.setTable t).setFs s
            if result = 0 then some st.markDirty
            else some (st.printError "useradd" (useraddError result))

/-- What `cmd_userdel` says about the result of `users_delete`. -/
def userdelError (result : Int) : String :=
  if result = -1 then "no such user"
  else if result = -2 then "root cannot be removed"
  else if result = -3 then "that account is logged in"
  else "cannot remove the account"

def cmdUserdel (st : Session) (argv : List (List UInt8)) : Option Session :=
  match requireRoot st "userdel" with
  | (false, st) => some st
  | (true, st) =>
    match argv[1]? with
    | none => some (st.printError "userdel" "usage: userdel <name>")
    | some name =>
      match usersDelete env st.sys.table st.sys.fs name with
      | none => none
      | some (result, t, s) =>
        let st := (st.setTable t).setFs s
        if result = 0 then some st.markDirty
        else some (st.printError "userdel" (userdelError result))

/-- The end of `cmd_passwd`: the new password. -/
def changePassword (st : Session) (name : List UInt8) : Session :=
  match readNewPassword typed st with
  | (none, st) => st
  | (some password, st) =>
    match usersSetPassword st.sys.table name password with
    | (result, t) =>
      let st := st.setTable t
      if result = 0 then st.markDirty
      else st.printError "passwd" "cannot change the password"

def cmdPasswd (st : Session) (argv : List (List UInt8)) : Session :=
  let t := st.sys.table
  let me := t.current.map t.users
  let name := (argv[1]?).getD ((me.map User.name).getD [])
  if usersFind t name = none then st.printError "passwd" "no such user"
  else
    -- somebody else's password is an administrator's job
    if me.isSome ∧ me.map User.name ≠ some name then
      match requireRoot st "passwd" with
      | (false, st) => st
      | (true, st) => changePassword typed st name
    else
      -- your own requires the current one, and Ctrl-C leaves an empty line
      match st.readLine typed passwordMax with
      | (_, check, st) =>
        match me with
        | none => st.printError "passwd" "authentication failure"
        | some user =>
          if usersCheckPassword user check = false then
            st.printError "passwd" "authentication failure"
          else changePassword typed st name

def cmdSu (st : Session) (argv : List (List UInt8)) : Option Session :=
  let name := (argv[1]?).getD (ofString "root")
  if usersFind st.sys.table name = none then some (st.printError "su" "no such user")
  else
    match st.readLine typed passwordMax with
    | (_, password, st) =>
      match usersSwitch st.sys.table st.sys.fs name password with
      | none => none
      | some (result, t, s) =>
        let st := (st.setTable t).setFs s
        if result = 0 then some st else some (st.printError "su" "authentication failure")

/-! ## The disk and the power -/

/-- What `cmd_sync` says about the result of `persist_save`. -/
def syncError (result : Int) : String :=
  if result = -2 then "snapshot is larger than the reserved area"
  else if result = -5 then "the disk was wiped by mkfs, reboot first"
  else "write failed"

def cmdSync (st : Session) : Option Session :=
  if persistAvailable st.sys = false then
    some (st.printError "sync" "no data disk attached, nothing to write to")
  else
    match persistSave env ready st.sys with
    | none => none
    | some (result, sys) =>
      let st := { st with sys := sys }
      if result = 0 then some st else some (st.printError "sync" (syncError result))

/-- `machine_reboot`, which does not return. -/
def Session.halt (st : Session) : Session := { st with halted := true }

def cmdReboot (st : Session) : Option Session :=
  if st.sys.persist.dirty then
    (persistSave env ready st.sys).map fun r => { st with sys := r.2 }.halt
  else some st.halt

def yes : List UInt8 := ofString "YES"

def cmdMkfs (st : Session) : Session :=
  match requireRoot st "mkfs" with
  | (false, st) => st
  | (true, st) =>
    if persistAvailable st.sys = false then st.printError "mkfs" "no data disk attached"
    else
      match st.readLine typed 8 with
      | (ok, answer, st) =>
        if ok = false ∨ answer ≠ yes then st
        else
          match persistFormat ready st.sys with
          | (result, sys) =>
            let st := { st with sys := sys }
            if result ≠ 0 then st.printError "mkfs" "the data disk could not be wiped"
            else st.halt

def cmdShutdown (st : Session) : Option Session :=
  if st.sys.persist.isSealed then some st.halt
  else if persistAvailable st.sys then
    match persistSave env ready st.sys with
    | none => none
    | some (result, sys) =>
      let st := { st with sys := sys }
      some (if result ≠ 0 then st.printError "shutdown" "the snapshot could not be written"
        else st).halt
  else some st.halt

/-! ## Dispatch -/

/-- What the first word asks for. `other` are the commands that print what is neither in the
tree nor on the stack of a task, and everything that is not a command. -/
inductive Command where
  | ls | tree | cd | pwd | cat | echo | mkdir | touch | rm | sync | spawn | kill | mkfs | useradd
  | userdel | passwd | su | reboot | shutdown | logout | other
  deriving DecidableEq, Repr

/-- The names of the commands, in the order of `execute`. -/
def commands : List (String × Command) :=
  [("ls", .ls), ("dir", .ls), ("tree", .tree), ("cd", .cd), ("pwd", .pwd), ("cat", .cat),
    ("echo", .echo), ("mkdir", .mkdir), ("touch", .touch), ("rm", .rm), ("sync", .sync),
    ("spawn", .spawn), ("kill", .kill), ("mkfs", .mkfs), ("useradd", .useradd),
    ("userdel", .userdel), ("passwd", .passwd), ("su", .su), ("reboot", .reboot),
    ("shutdown", .shutdown), ("poweroff", .shutdown), ("halt", .shutdown), ("logout", .logout),
    ("exit", .logout)]

def Command.ofName (name : List UInt8) : Command :=
  match commands.find? fun c => ofString c.1 = name with
  | some (_, c) => c
  | none => .other

/-- `execute`, apart from its branches for tasks, which leave the session as it is. -/
def execute (st : Session) (line : List UInt8) : Option Session :=
  let raw := line.take (lineMax - 1)
  let argv := strSplit argMax line
  match argv with
  | [] => some st
  | name :: _ =>
    match Command.ofName name with
    | .ls => cmdLs st argv
    | .tree => cmdTree st argv
    | .cd => cmdCd st argv
    | .pwd => cmdPwd st
    | .cat => cmdCat st argv
    | .echo => cmdEcho env st ((raw.drop (ofString "echo").length).dropWhile (· == blank))
    | .mkdir => cmdMkdir env st argv
    | .touch => cmdTouch env st argv
    | .rm => cmdRm st argv
    | .sync => cmdSync env ready st
    | .mkfs => some (cmdMkfs ready typed st)
    | .useradd => cmdUseradd env typed st argv
    | .userdel => cmdUserdel env st argv
    | .passwd => some (cmdPasswd typed st argv)
    | .su => cmdSu typed st argv
    | .reboot => cmdReboot env ready st
    | .shutdown => cmdShutdown env ready st
    | .logout => some { st with sessionOpen := false }
    | .spawn | .kill | .other => some st

/-- What the command of a line prints when it is `echo`, apart from errors. -/
def executePrints (line : List UInt8) : List UInt8 :=
  let raw := line.take (lineMax - 1)
  match strSplit argMax line with
  | [] => []
  | name :: _ =>
    match Command.ofName name with
    | .echo => echoPrints ((raw.drop (ofString "echo").length).dropWhile (· == blank))
    | _ => []

/-- One turn of the loop of `shell_run`: the prompt, a line, the command, and a flush. -/
def shellTurn (st : Session) : Option Session :=
  match printPrompt st.sys.table st.sys.fs with
  | none => none
  | some _ =>
    match st.readLine typed lineMax with
    | (ok, line, st) =>
      if ok = false ∨ line = [] then some st
      else
        match execute env ready typed st line with
        | none => none
        | some st =>
          if st.halted then some st
          else
            match persistFlush env ready st.sys with
            | none => none
            | some (result, sys) =>
              let st := { st with sys := sys }
              if result ≠ 0 then some (st.printError "sync" "could not write changes to disk")
              else some st

end LightningOS.Shell
