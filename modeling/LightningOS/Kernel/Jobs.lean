import LightningOS.Kernel.Printf
import LightningOS.Kernel.Shell
import LightningOS.Kernel.Task

/-!
# The commands for tasks

`spawn` and `kill` of `kernel/shell.c`. They run in the session, so each call of the
scheduler is one of its operations. What a command prints is kept as a report, and `spawn`
reads the number for its own right after `task_spawn`.
-/

namespace LightningOS.Jobs

open CString Printf Sched

/-- `parse_int`: the digits at the front, as a signed number. -/
def parseIntLoop (value : Int32) : List UInt8 → Int32
  | [] => value
  | c :: s => if isDigit c then parseIntLoop (value * 10 + Int32.ofNat (c.toNat - 48)) s else value

def parseInt (s : List UInt8) : Int32 := parseIntLoop 0 s

/-- The lines that the commands print. -/
inductive Report where
  | error (command message : String)
  | started (kind : List UInt8) (pid : UInt32) (seconds : Int32)
  | terminated (pid : UInt32)
  deriving DecidableEq

/-- The line as it is printed, without the colours. -/
def Report.text : Report → List UInt8
  | .error command message => ofString command ++ ofString ": " ++ ofString message ++ ofString "\n"
  | .started kind pid seconds =>
    ofString "started " ++ kind ++ ofString " as pid " ++ formatUint pid 10 false ++
      ofString ", running for " ++ formatUint seconds.toUInt32 10 false ++ ofString " seconds\n"
  | .terminated pid => ofString "pid " ++ formatUint pid 10 false ++ ofString " terminated\n"

/-- The addresses of the functions that tasks run. -/
structure Entries where
  bootstrap : Nat
  worker : Nat
  ticker : Nat

/-- The seconds that a new task is to run. -/
def jobSeconds (argv : List (List UInt8)) : Int32 :=
  let seconds := (argv[2]?.map parseInt).getD 15
  if seconds ≤ 0 then 15 else seconds

/-- The code for the kind of task that is asked for. -/
def jobEntry (e : Entries) (kind : List UInt8) : Option Nat :=
  if kind = ofString "worker" then some e.worker
  else if kind = ofString "ticker" then some e.ticker
  else none

def cmdSpawn (e : Entries) (s : System) (argv : List (List UInt8)) : Option (Report × System) :=
  let kind := argv.getD 1 (ofString "worker")
  let seconds := jobSeconds argv
  match jobEntry e kind with
  | none => some (.error "spawn" "usage: spawn <worker|ticker> [seconds]", s)
  | some entry =>
    (taskSpawn s e.bootstrap kind entry seconds.toUInt32.toNat).map fun r =>
      match r with
      | (none, s) => (.error "spawn" "no free task slot or no memory for a stack", s)
      | (some i, s) => (.started kind (s.tasks i).id seconds, s)

def cmdKill (s : System) (argv : List (List UInt8)) : Option (Report × System) :=
  match argv[1]? with
  | none => some (.error "kill" "usage: kill <pid>", s)
  | some arg =>
    let pid := (parseInt arg).toUInt32
    (taskKill s pid).map fun r =>
      if r.1 = 0 then (.terminated pid, r.2)
      else if r.1 = -2 then (.error "kill" "the idle task cannot be killed", r.2)
      else (.error "kill" "no such task", r.2)

/-- The branches of `execute` for tasks. All others leave the tasks as they are. -/
def executeJob (e : Entries) (s : System) (line : List UInt8) : Option (Option Report × System) :=
  let argv := Shell.strSplit Shell.argMax line
  match argv with
  | [] => some (none, s)
  | name :: _ =>
    if name = ofString "spawn" then (cmdSpawn e s argv).map fun r => (some r.1, r.2)
    else if name = ofString "kill" then (cmdKill s argv).map fun r => (some r.1, r.2)
    else some (none, s)

/-- All of `execute`: a command runs on the session or on the tasks. -/
def execute (env : Ramfs.Env) (ready : Nat → Bool) (typed : Nat → Option (List UInt8)) (e : Entries)
    (st : Shell.Session) (s : System) (line : List UInt8) :
    Option (Shell.Session × Option Report × System) :=
  let argv := Shell.strSplit Shell.argMax line
  match argv with
  | [] => some (st, none, s)
  | name :: _ =>
    match Shell.Command.ofName name with
    | .spawn => (cmdSpawn e s argv).map fun r => (st, some r.1, r.2)
    | .kill => (cmdKill s argv).map fun r => (st, some r.1, r.2)
    | _ => (Shell.execute env ready typed st line).map fun st => (st, none, s)

end LightningOS.Jobs
