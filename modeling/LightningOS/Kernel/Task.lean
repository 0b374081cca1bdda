import LightningOS.Lib.CString
import LightningOS.Kernel.Mem

/-!
# The scheduler

`kernel/task.c`. Tasks live in a table of sixteen slots and the listed ones form a
circular list through `next`. A task pointer is a slot or `NULL`.

Each function masks interrupts for as long as it touches the list, so each one is a
single step. What a function asks for at its end with `task_yield` is a later call of
`taskSchedule`, like the timer's. `none` stands for a dereference of `NULL`, a panic or
a walk that does not end: a walk over sixteen slots that is not back after sixteen steps
never is.
-/

namespace LightningOS.Sched

open ByteMemory Mem CString

def taskNameMax : Nat := 24

def taskMax : Nat := 16

def taskStackSize : Nat := 16384

inductive TaskState where
  | unused
  | ready
  | sleeping
  | dead
  deriving DecidableEq, Repr

/-- A place in the task table. -/
abbrev Slot := Fin taskMax

structure Task where
  esp : Nat := 0
  id : UInt32 := 0
  name : List UInt8 := List.replicate taskNameMax 0
  state : TaskState := .unused
  entry : Nat := 0
  arg : Nat := 0
  stack : Nat := 0
  wakeAt : UInt64 := 0
  cpuTicks : UInt64 := 0
  switches : UInt64 := 0
  next : Option Slot := none

/-- The variables of `task.c`, and the heap. -/
structure System where
  tasks : Slot → Task
  current : Option Slot
  idle : Option Slot
  started : Bool
  nextId : UInt32
  heap : Heap

/-- Overwrite one entry of the table. -/
def setTask (tasks : Slot → Task) (i : Slot) (t : Task) : Slot → Task :=
  fun j => if j = i then t else tasks j

/-! ## The list -/

/-- The first slot nobody uses. -/
def allocTask (tasks : Slot → Task) : Option Slot :=
  (List.finRange taskMax).find? fun i => (tasks i).state = .unused

/-- `task` goes behind the current one, or becomes a ring of its own. -/
def listInsert (tasks : Slot → Task) (current : Option Slot) (task : Slot) : Slot → Task :=
  match current with
  | none => setTask tasks task { tasks task with next := some task }
  | some c =>
    let tasks := setTask tasks task { tasks task with next := (tasks c).next }
    setTask tasks c { tasks c with next := some task }

/-- Walks on from `prev` to the node before `task`. -/
def findPrev (tasks : Slot → Task) (task : Slot) : Nat → Slot → Option Slot
  | 0, _ => none
  | fuel + 1, prev =>
    match (tasks prev).next with
    | none => none
    | some n => if n = task then some prev else findPrev tasks task fuel n

def listRemove (tasks : Slot → Task) (task : Slot) : Option (Slot → Task) :=
  (findPrev tasks task taskMax task).map fun prev =>
    let tasks := setTask tasks prev { tasks prev with next := (tasks task).next }
    setTask tasks task { tasks task with next := none }

/-! ## Starting tasks -/

def kernelCodeSeg : Nat := 0x08

def kernelDataSeg : Nat := 0x10

def eflagsIf : Nat := 0x0200

def eflagsReserved : Nat := 0x0002

/-- `sizeof(boot_frame_t)`: fourteen words. -/
def sizeofBootFrame : Nat := 56

/-- Where the frame lies in a new stack. -/
def bootFrame (stack : Nat) : Nat := wrap32 (stack + taskStackSize - 16 - sizeofBootFrame)

/-- The frame the stub epilogue pops. `bootstrap` is the address of `task_bootstrap`. -/
def writeBootFrame (m : Memory) (frame bootstrap : Nat) : Memory :=
  let m := fun x => if frame ≤ x ∧ x < frame + sizeofBootFrame then 0 else m x
  let m := store32 m frame kernelDataSeg
  let m := store32 m (frame + 48) kernelCodeSeg
  let m := store32 m (frame + 44) bootstrap
  store32 m (frame + 52) (eflagsIf ||| eflagsReserved)

/-- The result is the slot of the new task, or `NULL`. -/
def taskSpawn (s : System) (bootstrap : Nat) (name : List UInt8) (entry arg : Nat) :
    Option (Option Slot × System) :=
  match allocTask s.tasks with
  | none => some (none, s)
  | some i =>
    match kmalloc s.heap taskStackSize with
    | none => none
    | some (stack, heap) =>
      if stack = 0 then some (none, { s with heap := heap })
      else
        let task : Task := {
          id := s.nextId + 1
          name := strncpy name (taskNameMax - 1) ++ [0]
          entry := entry
          arg := arg
          stack := stack
          state := .ready
          esp := bootFrame stack }
        some (some i, { s with
          tasks := listInsert (setTask s.tasks i task) s.current i
          nextId := s.nextId + 1
          heap := { heap with mem := writeBootFrame heap.mem (bootFrame stack) bootstrap } })

/-- The context that calls this becomes the idle task. -/
def taskInit (s : System) : System :=
  let idle : Slot := ⟨0, by decide⟩
  let task : Task := {
    name := strncpy (ofString "idle") (taskNameMax - 1) ++ [0]
    id := 0
    state := .ready
    next := some idle }
  { s with
    tasks := setTask (fun _ => {}) idle task
    idle := some idle
    current := some idle
    started := true }

/-! ## Choosing the next task -/

/-- The body of the loop of `wake_sleepers`. -/
def wake (now : UInt64) (t : Task) : Task :=
  if t.state = .sleeping ∧ t.wakeAt ≤ now then { t with state := .ready } else t

/-- The walk of `wake_sleepers`, from `task` until it is back at `stop`. -/
def wakeLoop (now : UInt64) (stop : Slot) : Nat → (Slot → Task) → Slot → Option (Slot → Task)
  | 0, _, _ => none
  | fuel + 1, tasks, task =>
    let tasks := setTask tasks task (wake now (tasks task))
    match (tasks task).next with
    | none => none
    | some n => if n = stop then some tasks else wakeLoop now stop fuel tasks n

/-- The walk of `pick_next`. The inner option is the pointer it returns. -/
def pickLoop (tasks : Slot → Task) (idle : Option Slot) (start : Slot) :
    Nat → Slot → Option (Option Slot)
  | 0, _ => none
  | fuel + 1, task =>
    if some task ≠ idle ∧ (tasks task).state = .ready then some (some task)
    else
      match (tasks task).next with
      | none => none
      | some n => if n = start then some idle else pickLoop tasks idle start fuel n

/-- Round robin from the task behind the current one; the idle task only as a last resort. -/
def pickNext (tasks : Slot → Task) (idle : Option Slot) (current : Slot) :
    Option (Option Slot) :=
  match (tasks current).next with
  | none => none
  | some start => pickLoop tasks idle start taskMax start

/-- Takes the interrupted stack pointer and gives the one to resume on. -/
def taskSchedule (s : System) (esp : Nat) (now : UInt64) : Option (Nat × System) :=
  if s.started = false then some (esp, s)
  else
    match s.current with
    | none => none
    | some c =>
      let tasks := setTask s.tasks c { s.tasks c with esp := esp }
      match wakeLoop now c taskMax tasks c with
      | none => none
      | some tasks =>
        match pickNext tasks s.idle c with
        | none => none
        | some next =>
          if next = some c then some (esp, { s with tasks := tasks })
          else
            match next with
            | none => none
            | some n =>
              let tasks := setTask tasks n { tasks n with switches := (tasks n).switches + 1 }
              some ((tasks n).esp, { s with tasks := tasks, current := some n })

/-- Charges the tick to whoever was running when it fired. -/
def taskAccountTick (s : System) : System :=
  match s.started, s.current with
  | true, some c =>
    { s with tasks := setTask s.tasks c { s.tasks c with cpuTicks := (s.tasks c).cpuTicks + 1 } }
  | _, _ => s

/-! ## Sleeping, ending and reaping -/

def timerHz : UInt32 := 100

/-- Before the scheduler runs this only waits. -/
def taskSleepMs (s : System) (now : UInt64) (ms : UInt32) : Option System :=
  if s.started = false then some s
  else
    match s.current with
    | none => none
    | some c =>
      let t := { s.tasks c with
        wakeAt := now + (ms / (1000 / timerHz)).toUInt64
        state := .sleeping }
      some { s with tasks := setTask s.tasks c t }

/-- `none` is the panic when the idle task tries to exit. -/
def taskExit (s : System) : Option System :=
  if s.current = s.idle then none
  else
    match s.current with
    | none => none
    | some c => some { s with tasks := setTask s.tasks c { s.tasks c with state := .dead } }

/-- The walk of `task_kill`: the task it looks for, if there is one. -/
def killLoop (tasks : Slot → Task) (id : UInt32) (stop : Slot) : Nat → Slot → Option (Option Slot)
  | 0, _ => none
  | fuel + 1, task =>
    if (tasks task).id = id ∧ (tasks task).state ≠ .unused ∧ (tasks task).state ≠ .dead then
      some (some task)
    else
      match (tasks task).next with
      | none => none
      | some n => if n = stop then some none else killLoop tasks id stop fuel n

def taskKill (s : System) (id : UInt32) : Option (Int × System) :=
  match s.current with
  | none => none
  | some c =>
    match killLoop s.tasks id c taskMax c with
    | none => none
    | some none => some (-1, s)
    | some (some task) =>
      if some task = s.idle then some (-2, s)
      else some (0, { s with tasks := setTask s.tasks task { s.tasks task with state := .dead } })

/-- The body of the loop of `task_reap`. -/
def reapOne (s : System) (task : Slot) : Option System :=
  if (s.tasks task).state = .dead then
    match listRemove s.tasks task with
    | none => none
    | some tasks =>
      match (if (tasks task).stack ≠ 0 then kfree s.heap (tasks task).stack else some s.heap) with
      | none => none
      | some heap =>
        let t := { tasks task with state := .unused, stack := 0 }
        some { s with tasks := setTask tasks task t, heap := heap }
  else some s

/-- The walk of `task_reap`, from `task` up to `stop`. -/
def reapLoop (stop : Slot) : Nat → System → Slot → Option System
  | fuel, s, task =>
    if task = stop then some s
    else
      match fuel with
      | 0 => none
      | fuel + 1 =>
        let next := (s.tasks task).next
        match reapOne s task with
        | none => none
        | some s =>
          match next with
          | none => none
          | some n => reapLoop stop fuel s n

/-- Frees the stacks of finished tasks. -/
def taskReap (s : System) : Option System :=
  match s.current with
  | none => none
  | some c =>
    match (s.tasks c).next with
    | none => none
    | some n => reapLoop c taskMax s n

/-- The tasks in the table, which are those on the list. -/
def taskCount (s : System) : Nat :=
  ((List.finRange taskMax).filter fun i => (s.tasks i).state ≠ .unused).length

end LightningOS.Sched
