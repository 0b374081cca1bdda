import Mathlib.Data.Fintype.Card
import LightningOS.Lib.Ring
import LightningOS.Kernel.Task
import LightningOS.Properties.Heap

/-!
# The scheduler over whole runs

The tasks form a ring that starts at the current one. `Inv` says which slots are on it,
which stack each of them owns and where each of them will resume. Every operation keeps
it, so no run ever resumes a task on a stack that was freed or belongs to another task.
-/

namespace LightningOS.Sched

open ByteMemory BlockList Mem Ring

/-- The successor function of the ring. -/
def nextOf (tasks : Slot → Task) : Slot → Option Slot := fun i => (tasks i).next

@[simp] theorem setTask_same (tasks : Slot → Task) (i : Slot) (t : Task) :
    setTask tasks i t i = t := if_pos rfl

theorem setTask_other {tasks : Slot → Task} {i j : Slot} {t : Task} (h : j ≠ i) :
    setTask tasks i t j = tasks j := if_neg h

/-- A field that the new entry has in common with the old one is kept everywhere. -/
theorem setTask_congr {β : Type} (f : Task → β) {tasks : Slot → Task} {i : Slot} {t : Task}
    (h : f t = f (tasks i)) (j : Slot) : f (setTask tasks i t j) = f (tasks j) := by
  rcases eq_or_ne j i with rfl | hji
  · rw [setTask_same, h]
  · rw [setTask_other hji]

/-- Writing an entry that keeps its successor keeps the ring. -/
theorem nextOf_setTask {tasks : Slot → Task} {i : Slot} {t : Task} (h : t.next = (tasks i).next) :
    nextOf (setTask tasks i t) = nextOf tasks :=
  funext (setTask_congr Task.next h)

theorem ring_length {tasks : Slot → Task} {c : Slot} {l : List Slot}
    (hr : IsRing (nextOf tasks) c l) : l.length < taskMax := by
  have h := hr.nodup.length_le_card
  rw [Fintype.card_fin, List.length_cons] at h
  exact h

/-! ## The walks -/

@[simp] theorem wake_next (now : UInt64) (t : Task) : (wake now t).next = t.next := by
  unfold wake
  split <;> rfl

@[simp] theorem wake_stack (now : UInt64) (t : Task) : (wake now t).stack = t.stack := by
  unfold wake
  split <;> rfl

@[simp] theorem wake_esp (now : UInt64) (t : Task) : (wake now t).esp = t.esp := by
  unfold wake
  split <;> rfl

@[simp] theorem wake_wakeAt (now : UInt64) (t : Task) : (wake now t).wakeAt = t.wakeAt := by
  unfold wake
  split <;> rfl

theorem wake_state (now : UInt64) (t : Task) : (wake now t).state =
    if t.state = .sleeping ∧ t.wakeAt ≤ now then .ready else t.state := by
  unfold wake
  split <;> rfl

/-- Only a sleeping task changes its state. -/
theorem wake_state_of_ne {now : UInt64} {t : Task} (h : t.state ≠ .sleeping) :
    (wake now t).state = t.state := by
  unfold wake
  rw [if_neg fun hc => h hc.1]

theorem wake_unused {now : UInt64} {t : Task} : (wake now t).state = .unused ↔ t.state = .unused := by
  unfold wake
  split
  next h => simp [h.1]
  next => rfl

theorem wakeLoop_eq {now : UInt64} {stop : Slot} {rest : List Slot} :
    ∀ {tasks : Slot → Task} {task : Slot} {fuel : Nat},
    Path (nextOf tasks) task (task :: rest) stop → stop ∉ rest → (task :: rest).Nodup →
    rest.length < fuel →
    wakeLoop now stop fuel tasks task =
      some fun i => if i ∈ task :: rest then wake now (tasks i) else tasks i := by
  induction rest with
  | nil =>
    rintro tasks task fuel ⟨-, n, hn, rfl⟩ - - hf
    obtain ⟨fuel, rfl⟩ := Nat.exists_eq_add_one.mpr hf
    have hn' : (tasks task).next = some n := hn
    simp only [wakeLoop, setTask_same, wake_next, hn', if_true, Option.some.injEq]
    funext i
    by_cases hi : i = task
    · subst hi
      simp
    · simp [setTask_other hi, hi]
  | cons y rest ih =>
    rintro tasks task fuel ⟨-, n, hn, hl⟩ hs hnd hf
    obtain ⟨fuel, rfl⟩ := Nat.exists_eq_add_one.mpr (Nat.zero_lt_of_lt hf)
    obtain rfl := hl.head_eq
    have hn' : (tasks task).next = some n := hn
    have hne : n ≠ stop := fun h => hs (by rw [← h]; exact List.mem_cons_self)
    obtain ⟨hnot, hnd'⟩ := List.nodup_cons.mp hnd
    have hl' : Path (nextOf (setTask tasks task (wake now (tasks task)))) n (n :: rest) stop := by
      rw [nextOf_setTask (wake_next _ _)]
      exact hl
    have hih := ih hl' (fun h => hs (List.mem_cons_of_mem _ h)) hnd' (Nat.lt_of_succ_lt_succ hf)
    simp only [wakeLoop, setTask_same, wake_next, hn', if_neg hne, hih, Option.some.injEq]
    funext i
    by_cases hi : i = task
    · subst hi
      rw [if_neg hnot, setTask_same, if_pos List.mem_cons_self]
    · rw [setTask_other hi]
      simp only [List.mem_cons, hi, false_or]

theorem pickLoop_eq_search {tasks : Slot → Task} {idle : Option Slot} {start : Slot} {fuel : Nat} :
    ∀ {task : Slot}, pickLoop tasks idle start fuel task =
      (search (nextOf tasks) (fun t => some t ≠ idle ∧ (tasks t).state = .ready) start fuel task).map
        fun r => r.elim idle some := by
  induction fuel with
  | zero => intro task; rfl
  | succ fuel ih =>
    intro task
    rw [pickLoop, search]
    by_cases hp : some task ≠ idle ∧ (tasks task).state = .ready
    · simp [hp]
    · simp only [hp, if_false, decide_false, Bool.false_eq_true, nextOf]
      cases (tasks task).next with
      | none => rfl
      | some n =>
        simp only
        split
        · rfl
        · exact ih

theorem killLoop_eq_search {tasks : Slot → Task} {id : UInt32} {stop : Slot} {fuel : Nat} :
    ∀ {task : Slot}, killLoop tasks id stop fuel task =
      search (nextOf tasks)
        (fun t => (tasks t).id = id ∧ (tasks t).state ≠ .unused ∧ (tasks t).state ≠ .dead)
        stop fuel task := by
  induction fuel with
  | zero => intro task; rfl
  | succ fuel ih =>
    intro task
    rw [killLoop, search]
    simp only [decide_eq_true_eq, nextOf]
    split
    · rfl
    · cases (tasks task).next with
      | none => rfl
      | some n =>
        simp only
        split
        · rfl
        · exact ih

/-- The node before `task` is the last one of the walk that comes back to it. -/
theorem findPrev_eq {tasks : Slot → Task} {task b : Slot} {s : List Slot} :
    ∀ {prev : Slot} {rest : List Slot} {fuel : Nat}, Path (nextOf tasks) prev (s ++ [b]) task →
    s ++ [b] = prev :: rest → task ∉ rest → s.length < fuel →
    findPrev tasks task fuel prev = some b := by
  induction s with
  | nil =>
    rintro prev rest fuel ⟨rfl, n, hn, rfl⟩ - - hf
    obtain ⟨fuel, rfl⟩ := Nat.exists_eq_add_one.mpr hf
    have hn' : (tasks prev).next = some n := hn
    simp [findPrev, hn']
  | cons x s ih =>
    intro prev rest fuel hp heq hs hf
    rw [List.cons_append] at hp heq
    obtain ⟨rfl, n, hn, hl⟩ := hp
    obtain ⟨fuel, rfl⟩ := Nat.exists_eq_add_one.mpr (Nat.zero_lt_of_lt hf)
    have hn' : (tasks prev).next = some n := hn
    obtain ⟨-, rfl⟩ := List.cons.inj heq
    obtain ⟨y, t, hyt⟩ : ∃ y t, s ++ [b] = y :: t := by cases s <;> simp
    have hny : n = y := by
      rw [hyt] at hl
      exact hl.head_eq
    subst hny
    have hne : n ≠ task := fun h => hs (by rw [hyt, h]; exact List.mem_cons_self)
    have hih := ih hl hyt (fun h => hs (by rw [hyt]; exact List.mem_cons_of_mem _ h))
      (by simpa using hf)
    simp [findPrev, hn', hne, hih]

/-! ## Runs -/

/--
The scheduler in a run, with what the run remembers: the heap payloads that were handed
out and not freed, and for each slot the stack pointer its task was left with when it was
last switched away from. For a task that never ran that is its boot frame.
-/
structure Run where
  sys : System
  live : List Nat
  saved : Slot → Nat

def Run.heapState (r : Run) : HeapState := { heap := r.sys.heap, live := r.live }

/-- What can happen: the entry points of `task.c`, and other code using the heap. -/
inductive TaskOp where
  | spawn (bootstrap : Nat) (name : List UInt8) (entry arg : Nat)
  | schedule (esp : Nat) (now : UInt64)
  | tick
  | sleep (now : UInt64) (ms : UInt32)
  | exit
  | kill (id : UInt32)
  | reap
  | heap (op : HeapOp)

/-- The current task has not ended. -/
def Run.executing (r : Run) : Prop := ∀ c, r.sys.current = some c → (r.sys.tasks c).state ≠ .dead

/--
When an operation can happen. The interrupted stack pointer lies in the stack of the task
that was running; a task that has ended only yields; only the idle task reaps, and it
neither sleeps nor exits; other code does not free the stacks.
-/
def Allowed (r : Run) : TaskOp → Prop
  | .spawn _ _ _ _ => r.executing
  | .schedule esp _ => ∀ c, r.sys.current = some c → r.sys.idle ≠ some c →
      (r.sys.tasks c).stack ≤ esp ∧ esp < (r.sys.tasks c).stack + taskStackSize
  | .tick => True
  | .sleep _ _ => r.executing ∧ r.sys.current ≠ r.sys.idle
  | .exit => r.executing ∧ r.sys.current ≠ r.sys.idle
  | .kill _ => r.executing
  | .reap => r.sys.current = r.sys.idle
  | .heap op => Mem.Allowed r.heapState op ∧
      ∀ i, (r.sys.tasks i).state ≠ .unused → op ≠ .kfree (r.sys.tasks i).stack

/-- The stacks of the tasks that are dead in `s` and gone in `s'`. -/
def Reaped (s s' : System) (p : Nat) : Prop :=
  ∃ i, (s.tasks i).state = .dead ∧ (s'.tasks i).state = .unused ∧ (s.tasks i).stack = p

instance (s s' : System) (p : Nat) : Decidable (Reaped s s' p) :=
  inferInstanceAs (Decidable (∃ _, _))

/-- One operation. `none` is a panic, a bad dereference or a walk that does not end. -/
def runStep (r : Run) : TaskOp → Option Run
  | .spawn bootstrap name entry arg =>
    (taskSpawn r.sys bootstrap name entry arg).map fun res =>
      match res.1 with
      | none => { r with sys := res.2 }
      | some i =>
        { sys := res.2
          live := (res.2.tasks i).stack :: r.live
          saved := fun j => if j = i then bootFrame (res.2.tasks i).stack else r.saved j }
  | .schedule esp now =>
    (taskSchedule r.sys esp now).map fun res =>
      { r with
        sys := res.2
        saved := fun j =>
          if r.sys.current = some j ∧ res.2.current ≠ r.sys.current then esp else r.saved j }
  | .tick => some { r with sys := taskAccountTick r.sys }
  | .sleep now ms => (taskSleepMs r.sys now ms).map fun s => { r with sys := s }
  | .exit => (taskExit r.sys).map fun s => { r with sys := s }
  | .kill id => (taskKill r.sys id).map fun res => { r with sys := res.2 }
  | .reap =>
    (taskReap r.sys).map fun s =>
      { r with sys := s, live := r.live.filter fun p => !decide (Reaped r.sys s p) }
  | .heap op =>
    (heapStep r.heapState op).map fun h =>
      { r with sys := { r.sys with heap := h.heap }, live := h.live }

/-- The states of all runs from `task_init`, on whatever heap the boot left. -/
inductive Reach (mem : Memory) (src : List E820Entry) : Run → Prop
  | init {s : System} {live : List Nat} {saved : Slot → Nat} :
      Mem.Reach mem src { heap := s.heap, live := live } →
      Reach mem src { sys := taskInit s, live := live, saved := saved }
  | step {r r' : Run} {op : TaskOp} : Reach mem src r → Allowed r op → runStep r op = some r' →
      Reach mem src r'

/-! ## The invariant -/

/-- The slots `c :: l` are the ring, and every task of it can be resumed. -/
structure Inv (r : Run) (c idle : Slot) (l : List Slot) (bs : List Blk) : Prop where
  started : r.sys.started = true
  current : r.sys.current = some c
  idle_eq : r.sys.idle = some idle
  ring : IsRing (nextOf r.sys.tasks) c l
  mem : ∀ i, i ∈ c :: l ↔ (r.sys.tasks i).state ≠ .unused
  idle_ready : (r.sys.tasks idle).state = .ready
  heap : HeapInv r.heapState bs
  stack : ∀ i, (r.sys.tasks i).state ≠ .unused → i ≠ idle → (r.sys.tasks i).stack ∈ r.live ∧
    taskStackSize ≤ blkSize r.sys.heap.mem ((r.sys.tasks i).stack - sizeofBlock)
  inj : ∀ i j, (r.sys.tasks i).state ≠ .unused → i ≠ idle → (r.sys.tasks j).state ≠ .unused →
    j ≠ idle → (r.sys.tasks i).stack = (r.sys.tasks j).stack → i = j
  esp : ∀ i, (r.sys.tasks i).state ≠ .unused → i ≠ c → (r.sys.tasks i).esp = r.saved i
  esp_in : ∀ i, (r.sys.tasks i).state ≠ .unused → i ≠ idle → i ≠ c →
    (r.sys.tasks i).stack ≤ r.saved i ∧ r.saved i < (r.sys.tasks i).stack + taskStackSize

theorem Inv.current_listed {r : Run} {c idle : Slot} {l : List Slot} {bs : List Blk}
    (hi : Inv r c idle l bs) : (r.sys.tasks c).state ≠ .unused :=
  (hi.mem c).mp List.mem_cons_self

theorem Inv.idle_listed {r : Run} {c idle : Slot} {l : List Slot} {bs : List Blk}
    (hi : Inv r c idle l bs) : (r.sys.tasks idle).state ≠ .unused := by
  rw [hi.idle_ready]
  simp

/-- A change of the table that leaves links, stacks and saved contexts alone. -/
structure Retasked (c : Slot) (tasks tasks' : Slot → Task) : Prop where
  next : ∀ i, (tasks' i).next = (tasks i).next
  stack : ∀ i, (tasks' i).stack = (tasks i).stack
  unused : ∀ i, (tasks' i).state = .unused ↔ (tasks i).state = .unused
  esp : ∀ i, i ≠ c → (tasks' i).esp = (tasks i).esp

theorem Inv.retask {r : Run} {c idle : Slot} {l : List Slot} {bs : List Blk}
    (hi : Inv r c idle l bs) {tasks' : Slot → Task} (ht : Retasked c r.sys.tasks tasks')
    (hidle : (tasks' idle).state = .ready) :
    Inv { r with sys := { r.sys with tasks := tasks' } } c idle l bs := by
  have hnext : nextOf tasks' = nextOf r.sys.tasks := funext ht.next
  have hun : ∀ i, (tasks' i).state ≠ .unused ↔ (r.sys.tasks i).state ≠ .unused :=
    fun i => not_congr (ht.unused i)
  refine ⟨hi.started, hi.current, hi.idle_eq, ?_, fun i => ?_, hidle, hi.heap, fun i h1 h2 => ?_,
    fun i j h1 h2 h3 h4 h5 => ?_, fun i h1 h2 => ?_, fun i h1 h2 h3 => ?_⟩
  · show IsRing (nextOf tasks') c l
    rw [hnext]
    exact hi.ring
  · exact (hi.mem i).trans (hun i).symm
  · show (tasks' i).stack ∈ r.live ∧ _ ≤ blkSize r.sys.heap.mem ((tasks' i).stack - sizeofBlock)
    rw [ht.stack]
    exact hi.stack i ((hun i).mp h1) h2
  · have h5' : (tasks' i).stack = (tasks' j).stack := h5
    rw [ht.stack, ht.stack] at h5'
    exact hi.inj i j ((hun i).mp h1) h2 ((hun j).mp h3) h4 h5'
  · exact (ht.esp i h2).trans (hi.esp i ((hun i).mp h1) h2)
  · show (tasks' i).stack ≤ _ ∧ _ < (tasks' i).stack + _
    rw [ht.stack]
    exact hi.esp_in i ((hun i).mp h1) h2 h3

theorem Retasked.trans {c : Slot} {t₁ t₂ t₃ : Slot → Task} (h : Retasked c t₁ t₂)
    (h' : Retasked c t₂ t₃) : Retasked c t₁ t₃ :=
  ⟨fun i => (h'.next i).trans (h.next i), fun i => (h'.stack i).trans (h.stack i),
    fun i => (h'.unused i).trans (h.unused i), fun i hi => (h'.esp i hi).trans (h.esp i hi)⟩

/-- Writing one entry, keeping its links, its stack and whether it is used. -/
theorem retasked_setTask {c i : Slot} {tasks : Slot → Task} {t : Task}
    (hn : t.next = (tasks i).next) (hs : t.stack = (tasks i).stack)
    (hu : t.state = .unused ↔ (tasks i).state = .unused)
    (he : i ≠ c → t.esp = (tasks i).esp) : Retasked c tasks (setTask tasks i t) := by
  refine ⟨setTask_congr Task.next hn, setTask_congr Task.stack hs, fun j => ?_, fun j hj => ?_⟩ <;>
    rcases eq_or_ne j i with rfl | hji
  · rw [setTask_same, hu]
  · rw [setTask_other hji]
  · rw [setTask_same, he hj]
  · rw [setTask_other hji]

theorem retasked_wake {c : Slot} {tasks : Slot → Task} {now : UInt64} {ring : List Slot} :
    Retasked c tasks fun i => if i ∈ ring then wake now (tasks i) else tasks i := by
  refine ⟨fun j => ?_, fun j => ?_, fun j => ?_, fun j _ => ?_⟩ <;>
    rcases Decidable.em (j ∈ ring) with hj | hj
  · rw [if_pos hj, wake_next]
  · rw [if_neg hj]
  · rw [if_pos hj, wake_stack]
  · rw [if_neg hj]
  · rw [if_pos hj, wake_unused]
  · rw [if_neg hj]
  · rw [if_pos hj, wake_esp]
  · rw [if_neg hj]

/-! ## Ended tasks -/

/-- The task in slot `i` has ended, or the slot is empty. -/
def Gone (r : Run) (i : Slot) : Prop :=
  (r.sys.tasks i).state = .dead ∨ (r.sys.tasks i).state = .unused

/-- `op` starts a new task in slot `i`. -/
def Reuses (r : Run) (op : TaskOp) (i : Slot) : Prop :=
  ∃ bootstrap name entry arg s', op = .spawn bootstrap name entry arg ∧
    taskSpawn r.sys bootstrap name entry arg = some (some i, s')

/-- Ended tasks stay ended, and do not become current, unless `op` reuses their slot. -/
def GoneKept (r r' : Run) (op : TaskOp) : Prop :=
  ∀ i, Gone r i → ¬Reuses r op i →
    Gone r' i ∧ (r.sys.current ≠ some i → r'.sys.current ≠ some i)

/-- The operation succeeds, keeps the invariant, and keeps ended tasks ended. -/
def Stepped (r : Run) (op : TaskOp) (idle : Slot) : Prop :=
  ∃ r' c' l' bs', runStep r op = some r' ∧ Inv r' c' idle l' bs' ∧ GoneKept r r' op

/-- A change of the table that ends tasks at most. -/
theorem Inv.stepped_retask {r : Run} {op : TaskOp} {c idle : Slot} {l : List Slot} {bs : List Blk}
    (hi : Inv r c idle l bs) {tasks' : Slot → Task} (ht : Retasked c r.sys.tasks tasks')
    (hidle : (tasks' idle).state = .ready)
    (hgone : ∀ i, Gone r i → (tasks' i).state = .dead ∨ (tasks' i).state = .unused)
    (hs : runStep r op = some { r with sys := { r.sys with tasks := tasks' } }) :
    Stepped r op idle :=
  ⟨_, c, l, bs, hs, hi.retask ht hidle, fun i hg _ => ⟨hgone i hg, id⟩⟩

/-! ## Operations on the current task -/

theorem tick_step {r : Run} {c idle : Slot} {l : List Slot} {bs : List Blk}
    (hi : Inv r c idle l bs) : Stepped r .tick idle := by
  let t := { r.sys.tasks c with cpuTicks := (r.sys.tasks c).cpuTicks + 1 }
  have ht : Retasked c r.sys.tasks (setTask r.sys.tasks c t) :=
    retasked_setTask rfl rfl Iff.rfl fun _ => rfl
  have hstate : ∀ i, (setTask r.sys.tasks c t i).state = (r.sys.tasks i).state :=
    setTask_congr Task.state rfl
  refine hi.stepped_retask ht ((hstate idle).trans hi.idle_ready) (fun i hg => ?_) ?_
  · rw [hstate]
    exact hg
  · simp only [runStep, taskAccountTick, hi.started, hi.current, t]

theorem sleep_step {r : Run} {c idle : Slot} {l : List Slot} {bs : List Blk}
    (hi : Inv r c idle l bs) {now : UInt64} {ms : UInt32} (ha : Allowed r (.sleep now ms)) :
    Stepped r (.sleep now ms) idle := by
  obtain ⟨hex, hne⟩ := ha
  rw [hi.current, hi.idle_eq, Ne, Option.some.injEq] at hne
  let t := { r.sys.tasks c with
    wakeAt := now + (ms / (1000 / timerHz)).toUInt64, state := TaskState.sleeping }
  have ht : Retasked c r.sys.tasks (setTask r.sys.tasks c t) :=
    retasked_setTask rfl rfl (iff_of_false (by simp [t]) hi.current_listed) fun _ => rfl
  refine hi.stepped_retask ht ?_ (fun i hg => ?_) ?_
  · rw [setTask_other fun h => hne h.symm]
    exact hi.idle_ready
  · -- the current task is neither dead nor unused
    have hic : i ≠ c := by
      rintro rfl
      exact hg.elim (hex i hi.current) hi.current_listed
    rw [setTask_other hic]
    exact hg
  · have hst : ¬r.sys.started = false := by simp [hi.started]
    simp only [runStep, taskSleepMs, if_neg hst, hi.current, Option.map_some, t]

/-- Marking a task dead. -/
theorem Inv.stepped_dead {r : Run} {op : TaskOp} {c idle i : Slot} {l : List Slot} {bs : List Blk}
    (hi : Inv r c idle l bs) (hlist : (r.sys.tasks i).state ≠ .unused) (hne : i ≠ idle)
    (hs : runStep r op = some { r with sys := { r.sys with
      tasks := setTask r.sys.tasks i { r.sys.tasks i with state := .dead } } }) :
    Stepped r op idle := by
  have ht : Retasked c r.sys.tasks
      (setTask r.sys.tasks i { r.sys.tasks i with state := .dead }) :=
    retasked_setTask rfl rfl (iff_of_false TaskState.noConfusion hlist) fun _ => rfl
  refine hi.stepped_retask ht ?_ (fun j hg => ?_) hs
  · rw [setTask_other hne.symm]
    exact hi.idle_ready
  · rcases eq_or_ne j i with rfl | hji
    · rw [setTask_same]
      exact Or.inl rfl
    · rw [setTask_other hji]
      exact hg

theorem exit_step {r : Run} {c idle : Slot} {l : List Slot} {bs : List Blk}
    (hi : Inv r c idle l bs) (ha : Allowed r .exit) : Stepped r .exit idle := by
  have hci : c ≠ idle := fun h => ha.2 (by rw [hi.current, hi.idle_eq, h])
  have hne : ¬some c = r.sys.idle := by rw [← hi.current]; exact ha.2
  refine hi.stepped_dead hi.current_listed hci ?_
  simp only [runStep, taskExit, hi.current, if_neg hne, Option.map_some]

/-- Finding the task to kill. -/
theorem killLoop_eq {r : Run} {c idle : Slot} {l : List Slot} {bs : List Blk}
    (hi : Inv r c idle l bs) (id : UInt32) :
    killLoop r.sys.tasks id c taskMax c = some ((c :: l).find? fun t =>
      (r.sys.tasks t).id = id ∧ (r.sys.tasks t).state ≠ .unused ∧
        (r.sys.tasks t).state ≠ .dead) := by
  rw [killLoop_eq_search]
  exact search_eq hi.ring.path (List.nodup_cons.mp hi.ring.nodup).1 (ring_length hi.ring)

theorem kill_step {r : Run} {c idle : Slot} {l : List Slot} {bs : List Blk}
    (hi : Inv r c idle l bs) {id : UInt32} : Stepped r (.kill id) idle := by
  have hk := killLoop_eq hi id
  have hnop : runStep r (.kill id) = some r → Stepped r (.kill id) idle :=
    fun hs => ⟨r, c, l, bs, hs, hi, fun i hg _ => ⟨hg, fun h => h⟩⟩
  generalize hfind : (c :: l).find? _ = found at hk
  cases found with
  | none =>
    refine hnop ?_
    simp only [runStep, taskKill, hi.current, hk, Option.map_some]
  | some i =>
    have hmatch := List.find?_some hfind
    rw [decide_eq_true_eq] at hmatch
    have hlist := hmatch.2.1
    by_cases hidle : some i = r.sys.idle
    · refine hnop ?_
      simp only [runStep, taskKill, hi.current, hk, if_pos hidle, Option.map_some]
    · have hne : i ≠ idle := fun h => hidle (by rw [hi.idle_eq, h])
      refine hi.stepped_dead hlist hne ?_
      simp only [runStep, taskKill, hi.current, hk, if_neg hidle, Option.map_some]

/-! ## Other code using the heap -/

theorem heap_step {r : Run} {c idle : Slot} {l : List Slot} {bs : List Blk}
    (hi : Inv r c idle l bs) {op : HeapOp} (ha : Allowed r (.heap op)) :
    Stepped r (.heap op) idle := by
  obtain ⟨h', bs', hstep, hinv, hkept⟩ := heapStep_inv hi.heap ha.1
  refine ⟨{ r with sys := { r.sys with heap := h'.heap }, live := h'.live }, c, l, bs',
    by simp only [runStep, hstep, Option.map_some], ?_, fun i hg _ => ⟨hg, fun h => h⟩⟩
  refine ⟨hi.started, hi.current, hi.idle_eq, hi.ring, hi.mem, hi.idle_ready, hinv,
    fun i h1 h2 => ?_, hi.inj, hi.esp, hi.esp_in⟩
  obtain ⟨hlive, hsize⟩ := hi.stack i h1 h2
  obtain ⟨hlive', hsize', -⟩ := hkept _ hlive (ha.2 i h1)
  exact ⟨hlive', hsize.trans_eq hsize'.symm⟩

/-! ## Switching -/

/-- The first task in this order that can run, and the idle task if there is none. -/
def firstReady (tasks : Slot → Task) (idle : Slot) (order : List Slot) : Slot :=
  (order.find? fun t => t ≠ idle ∧ (tasks t).state = .ready).getD idle

theorem firstReady_spec {tasks : Slot → Task} {idle : Slot} {order : List Slot}
    (hmem : idle ∈ order) (hidle : (tasks idle).state = .ready) :
    firstReady tasks idle order ∈ order ∧ (tasks (firstReady tasks idle order)).state = .ready := by
  rw [firstReady]
  cases hfind : order.find? fun t => t ≠ idle ∧ (tasks t).state = .ready with
  | none => exact ⟨hmem, hidle⟩
  | some n =>
    have hmatch := List.find?_some hfind
    rw [decide_eq_true_eq] at hmatch
    exact ⟨List.mem_of_find?_eq_some hfind, hmatch.2⟩

theorem pickNext_eq {tasks : Slot → Task} {c idle : Slot} {l : List Slot}
    (hr : IsRing (nextOf tasks) c l) :
    pickNext tasks (some idle) c = some (some (firstReady tasks idle (l ++ [c]))) := by
  obtain ⟨start, rest, hn, hr', horder⟩ := hr.advance
  have hn' : (tasks c).next = some start := hn
  have hpick : pickLoop tasks (some idle) start taskMax start = _ := pickLoop_eq_search
  rw [search_eq hr'.path (List.nodup_cons.mp hr'.nodup).1 (ring_length hr'), horder] at hpick
  have hpred : (fun t => decide (some t ≠ some idle ∧ (tasks t).state = .ready)) =
      fun t => decide (t ≠ idle ∧ (tasks t).state = .ready) := by
    funext t
    simp only [ne_eq, Option.some.injEq]
  rw [hpred] at hpick
  rw [pickNext, hn', firstReady]
  dsimp only
  rw [hpick]
  cases (l ++ [c]).find? fun t => decide (t ≠ idle ∧ (tasks t).state = .ready) with
  | none => rfl
  | some n => rfl

/-- What `task_schedule` makes of the tasks before it switches, and which one it chooses. -/
structure Scheduled (r : Run) (c idle : Slot) (l : List Slot) (esp : Nat) (now : UInt64)
    (tasks' : Slot → Task) (n : Slot) : Prop where
  retasked : Retasked c r.sys.tasks tasks'
  esp : (tasks' c).esp = esp
  awake : ∀ i, (r.sys.tasks i).state ≠ .sleeping → (tasks' i).state = (r.sys.tasks i).state
  woken : ∀ i ∈ c :: l, (tasks' i).state = (wake now (r.sys.tasks i)).state
  wakeAt : ∀ i, (tasks' i).wakeAt = (r.sys.tasks i).wakeAt
  choice : n = firstReady tasks' idle (l ++ [c])
  mem : n ∈ c :: l
  ready : (tasks' n).state = .ready

/-- **What `task_schedule` does.** It saves the stack pointer, wakes the sleepers that are
due, and goes on with a ready task. -/
theorem taskSchedule_eq {r : Run} {c idle : Slot} {l : List Slot} {bs : List Blk}
    (hi : Inv r c idle l bs) (esp : Nat) (now : UInt64) :
    ∃ tasks' n, Scheduled r c idle l esp now tasks' n ∧
      taskSchedule r.sys esp now = some
        (if n = c then (esp, { r.sys with tasks := tasks' })
        else ((tasks' n).esp, { r.sys with
          tasks := setTask tasks' n { tasks' n with switches := (tasks' n).switches + 1 }
          current := some n })) := by
  let saved := setTask r.sys.tasks c { r.sys.tasks c with esp := esp }
  let woken : Slot → Task := fun i => if i ∈ c :: l then wake now (saved i) else saved i
  have hsaved : Retasked c r.sys.tasks saved :=
    retasked_setTask rfl rfl Iff.rfl fun h => absurd rfl h
  have hwoken : Retasked c saved woken := retasked_wake
  have hnext : nextOf saved = nextOf r.sys.tasks := funext hsaved.next
  have hwnext : nextOf woken = nextOf r.sys.tasks := (funext hwoken.next).trans hnext
  have hwake : wakeLoop now c taskMax saved c = some woken :=
    wakeLoop_eq (by rw [hnext]; exact hi.ring.path) (List.nodup_cons.mp hi.ring.nodup).1
      hi.ring.nodup (ring_length hi.ring)
  have hsame : ∀ i, (saved i).state = (r.sys.tasks i).state ∧
      (saved i).wakeAt = (r.sys.tasks i).wakeAt := fun i =>
    ⟨setTask_congr Task.state (by rfl) i, setTask_congr Task.wakeAt (by rfl) i⟩
  have hlisted : ∀ i ∈ c :: l, (woken i).state = (wake now (r.sys.tasks i)).state := by
    intro i hmem
    show (if i ∈ c :: l then wake now (saved i) else saved i).state = _
    rw [if_pos hmem, wake_state, wake_state, (hsame i).1, (hsame i).2]
  have hstate : ∀ i, (r.sys.tasks i).state ≠ .sleeping →
      (woken i).state = (r.sys.tasks i).state := by
    intro i hs
    by_cases hmem : i ∈ c :: l
    · rw [hlisted i hmem, wake_state_of_ne hs]
    · have hout : woken i = saved i := if_neg hmem
      rw [hout, (hsame i).1]
  have hidle : (woken idle).state = .ready := by
    rw [hstate idle (by rw [hi.idle_ready]; exact TaskState.noConfusion)]
    exact hi.idle_ready
  have horder : ∀ i, i ∈ l ++ [c] ↔ i ∈ c :: l := fun i => by
    rw [List.mem_append, List.mem_singleton, List.mem_cons, or_comm]
  have hpick : pickNext woken (some idle) c = some (some (firstReady woken idle (l ++ [c]))) :=
    pickNext_eq (by rw [hwnext]; exact hi.ring)
  obtain ⟨hmem, hready⟩ := firstReady_spec
    ((horder idle).mpr ((hi.mem idle).mpr hi.idle_listed)) hidle
  have hesp : (woken c).esp = esp := by
    show (if c ∈ c :: l then wake now (saved c) else saved c).esp = esp
    rw [if_pos List.mem_cons_self, wake_esp]
    exact congrArg Task.esp (setTask_same _ _ _)
  have hwakeAt : ∀ i, (woken i).wakeAt = (r.sys.tasks i).wakeAt := by
    intro i
    show (if i ∈ c :: l then wake now (saved i) else saved i).wakeAt = _
    split
    · rw [wake_wakeAt, (hsame i).2]
    · exact (hsame i).2
  refine ⟨woken, firstReady woken idle (l ++ [c]),
    ⟨hsaved.trans hwoken, hesp, hstate, hlisted, hwakeAt, rfl, (horder _).mp hmem, hready⟩, ?_⟩
  have hst : ¬r.sys.started = false := by simp [hi.started]
  have hidle' : r.sys.idle = some idle := hi.idle_eq
  unfold taskSchedule
  rw [if_neg hst]
  simp only [hi.current, hidle']
  rw [show setTask r.sys.tasks c { r.sys.tasks c with esp := esp } = saved from rfl, hwake]
  simp only [hpick, Option.some.injEq]
  split
  · rfl
  · rw [setTask_same]

/-- Making another task of the ring the current one. -/
theorem Inv.switch {r : Run} {c idle n : Slot} {l : List Slot} {bs : List Blk}
    (hi : Inv r c idle l bs) (hn : n ∈ c :: l) (hne : n ≠ c)
    (hesp : c ≠ idle → (r.sys.tasks c).stack ≤ (r.sys.tasks c).esp ∧
      (r.sys.tasks c).esp < (r.sys.tasks c).stack + taskStackSize) :
    ∃ l', Inv { r with
      sys := { r.sys with current := some n }
      saved := fun j => if j = c then (r.sys.tasks c).esp else r.saved j } n idle l' bs := by
  obtain ⟨p, q, rfl⟩ := List.append_of_mem ((List.mem_cons.mp hn).resolve_left hne)
  refine ⟨q ++ c :: p, hi.started, rfl, hi.idle_eq, hi.ring.rotate, fun i => ?_, hi.idle_ready,
    hi.heap, hi.stack, hi.inj, fun i h1 h2 => ?_, fun i h1 h2 h3 => ?_⟩
  · rw [← hi.mem i]
    simp only [List.mem_cons, List.mem_append]
    tauto
  · show (r.sys.tasks i).esp = if i = c then _ else _
    split
    next hic => rw [hic]
    next hic => exact hi.esp i h1 hic
  · show (r.sys.tasks i).stack ≤ (if i = c then _ else _) ∧
      (if i = c then _ else _) < (r.sys.tasks i).stack + _
    split
    next hic => rw [hic] at h2 ⊢; exact hesp h2
    next hic => exact hi.esp_in i h1 h2 hic

theorem schedule_step {r : Run} {c idle : Slot} {l : List Slot} {bs : List Blk}
    (hi : Inv r c idle l bs) {esp : Nat} {now : UInt64} (ha : Allowed r (.schedule esp now)) :
    Stepped r (.schedule esp now) idle := by
  obtain ⟨tasks', n, ⟨ht, hesp, hstate, -, -, -, hn, hready⟩, heq⟩ := taskSchedule_eq hi esp now
  have hidle : (tasks' idle).state = .ready := by
    rw [hstate idle (by rw [hi.idle_ready]; exact TaskState.noConfusion)]
    exact hi.idle_ready
  have hgone : ∀ i, Gone r i → (tasks' i).state = .dead ∨ (tasks' i).state = .unused := by
    intro i hg
    rw [hstate i (by rcases hg with h | h <;> rw [h] <;> exact TaskState.noConfusion)]
    exact hg
  by_cases hnc : n = c
  · rw [if_pos hnc] at heq
    refine hi.stepped_retask ht hidle hgone ?_
    simp [runStep, heq]
  · rw [if_neg hnc] at heq
    have hi1 := hi.retask ht hidle
    obtain ⟨l', hi2⟩ := hi1.switch hn hnc fun hci => by
      show (tasks' c).stack ≤ (tasks' c).esp ∧ (tasks' c).esp < (tasks' c).stack + _
      rw [ht.stack, hesp]
      exact ha c hi.current fun h => hci (Option.some.inj (hi.idle_eq.symm.trans h)).symm
    have ht3 : Retasked n tasks'
        (setTask tasks' n { tasks' n with switches := (tasks' n).switches + 1 }) :=
      retasked_setTask rfl rfl Iff.rfl fun _ => rfl
    have hstate3 : ∀ i, (setTask tasks' n
        { tasks' n with switches := (tasks' n).switches + 1 } i).state = (tasks' i).state :=
      setTask_congr Task.state rfl
    have hi3 := hi2.retask ht3 ((hstate3 idle).trans hidle)
    refine ⟨_, n, l', bs, ?_, hi3, fun i hg _ => ⟨?_, fun _ h => ?_⟩⟩
    · have hcur : some n ≠ some c := fun h => hnc (Option.some.inj h)
      simp only [runStep, heq, Option.map_some, hi.current, ne_eq, hcur, not_false_eq_true,
        and_true, Option.some.injEq, hesp, eq_comm (a := c)]
    · have h3 := hgone i hg
      rw [← hstate3 i] at h3
      exact h3
    · obtain rfl : n = i := Option.some.inj h
      rcases hgone n hg with h | h <;> rw [hready] at h <;> exact TaskState.noConfusion h

/-! ## Starting a task -/

theorem allocTask_unused {tasks : Slot → Task} {i : Slot} (h : allocTask tasks = some i) :
    (tasks i).state = .unused := by
  have := List.find?_some h
  rwa [decide_eq_true_eq] at this

theorem listInsert_eq {tasks : Slot → Task} {c i : Slot} {t : Task} (hne : i ≠ c) (j : Slot) :
    listInsert (setTask tasks i t) (some c) i j =
      if j = i then { t with next := (tasks c).next }
      else if j = c then { tasks c with next := some i } else tasks j := by
  have hci : c ≠ i := hne.symm
  simp only [listInsert, setTask, if_true, if_neg hci]
  by_cases hj : j = i
  · subst hj
    simp only [if_true, if_neg hne]
  · simp only [if_neg hj]

/-- The boot frame lies inside its stack. -/
theorem bootFrame_bounds {stack : Nat} (h : stack + taskStackSize < 4294967296) :
    stack ≤ bootFrame stack ∧ bootFrame stack + sizeofBootFrame < stack + taskStackSize := by
  simp only [bootFrame, taskStackSize, sizeofBootFrame, wrap32] at *
  omega

theorem writeBootFrame_other {m : Memory} {frame bootstrap x : Nat}
    (h : x < frame ∨ frame + sizeofBootFrame ≤ x) :
    writeBootFrame m frame bootstrap x = m x := by
  have hout : ¬(frame ≤ x ∧ x < frame + sizeofBootFrame) := by omega
  simp only [sizeofBootFrame] at h
  unfold writeBootFrame
  rw [store32_other (by omega), store32_other (by omega), store32_other (by omega),
    store32_other (by omega)]
  exact if_neg hout

/-- A new task with a stack of its own joins the ring. -/
theorem Inv.insert {r : Run} {c idle i : Slot} {l : List Slot} {bs bs' : List Blk}
    (hi : Inv r c idle l bs) (hun : (r.sys.tasks i).state = .unused) {t : Task} {h' : Heap}
    (hready : t.state = .ready) (hinv : HeapInv { heap := h', live := t.stack :: r.live } bs')
    (hfresh : t.stack ∉ r.live)
    (hsize : taskStackSize ≤ blkSize h'.mem (t.stack - sizeofBlock))
    (hkept : ∀ q ∈ r.live,
      blkSize h'.mem (q - sizeofBlock) = blkSize r.sys.heap.mem (q - sizeofBlock))
    (hesp : t.stack ≤ t.esp ∧ t.esp < t.stack + taskStackSize) (nextId : UInt32) :
    Inv { sys := { r.sys with
            tasks := listInsert (setTask r.sys.tasks i t) (some c) i
            nextId := nextId
            heap := h' }
          live := t.stack :: r.live
          saved := fun j => if j = i then t.esp else r.saved j } c idle (i :: l) bs' := by
  have hic : i ≠ c := fun h => hi.current_listed (by rw [← h]; exact hun)
  have hii : i ≠ idle := fun h => hi.idle_listed (by rw [← h]; exact hun)
  have hnot : i ∉ c :: l := fun h => (hi.mem i).mp h hun
  have heq : ∀ j, listInsert (setTask r.sys.tasks i t) (some c) i j = _ := listInsert_eq hic
  generalize listInsert (setTask r.sys.tasks i t) (some c) i = tasks' at heq
  have hti : (tasks' i).state = .ready ∧ (tasks' i).stack = t.stack ∧ (tasks' i).esp = t.esp := by
    rw [heq, if_pos rfl]
    exact ⟨hready, rfl, rfl⟩
  have htj : ∀ j, j ≠ i → (tasks' j).state = (r.sys.tasks j).state ∧
      (tasks' j).stack = (r.sys.tasks j).stack ∧ (tasks' j).esp = (r.sys.tasks j).esp := by
    intro j hj
    rw [heq, if_neg hj]
    split
    next h => rw [h]; exact ⟨rfl, rfl, rfl⟩
    next => exact ⟨rfl, rfl, rfl⟩
  have hlisted : ∀ j, j ≠ i → (tasks' j).state ≠ .unused → (r.sys.tasks j).state ≠ .unused :=
    fun j hj h => (htj j hj).1 ▸ h
  refine ⟨hi.started, hi.current, hi.idle_eq, ?_, fun j => ?_, (htj idle hii.symm).1.trans hi.idle_ready,
    hinv, fun j h1 h2 => ?_, fun j k h1 h2 h3 h4 h5 => ?_, fun j h1 h2 => ?_,
    fun j h1 h2 h3 => ?_⟩
  · have hring : ∀ j, nextOf tasks' j =
        if j = i then nextOf r.sys.tasks c else if j = c then some i else nextOf r.sys.tasks j := by
      intro j
      unfold nextOf
      rw [heq]
      split
      · rfl
      · split <;> rfl
    refine hi.ring.insert hnot ?_ ?_ fun y hy => ?_
    · exact (hring i).trans (if_pos rfl)
    · exact (hring c).trans ((if_neg hic.symm).trans (if_pos rfl))
    · have hyi : y ≠ i := fun h => hnot (h ▸ List.mem_cons_of_mem _ hy)
      have hyc : y ≠ c := fun h => (List.nodup_cons.mp hi.ring.nodup).1 (h ▸ hy)
      exact (hring y).trans ((if_neg hyi).trans (if_neg hyc))
  · show j ∈ c :: i :: l ↔ (tasks' j).state ≠ .unused
    rcases eq_or_ne j i with rfl | hj
    · rw [hti.1]
      simp
    · rw [(htj j hj).1, ← hi.mem j]
      simp [hj]
  · show (tasks' j).stack ∈ t.stack :: r.live ∧ _ ≤ blkSize h'.mem ((tasks' j).stack - sizeofBlock)
    rcases eq_or_ne j i with rfl | hj
    · rw [hti.2.1]
      exact ⟨List.mem_cons_self, hsize⟩
    · rw [(htj j hj).2.1]
      obtain ⟨hlive, hsz⟩ := hi.stack j (hlisted j hj h1) h2
      exact ⟨List.mem_cons_of_mem _ hlive, hsz.trans_eq (hkept _ hlive).symm⟩
  · -- the new stack is not among those in use
    have hnew : ∀ m, m ≠ i → m ≠ idle → (tasks' m).state ≠ .unused →
        (tasks' m).stack ≠ t.stack := by
      intro m hm hmi hms he
      rw [(htj m hm).2.1] at he
      exact hfresh (he ▸ (hi.stack m (hlisted m hm hms) hmi).1)
    have h5' : (tasks' j).stack = (tasks' k).stack := h5
    by_cases hj : j = i <;> by_cases hk : k = i
    · rw [hj, hk]
    · rw [hj, hti.2.1] at h5'
      exact absurd h5'.symm (hnew k hk h4 h3)
    · rw [hk, hti.2.1] at h5'
      exact absurd h5' (hnew j hj h2 h1)
    · rw [(htj j hj).2.1, (htj k hk).2.1] at h5'
      exact hi.inj j k (hlisted j hj h1) h2 (hlisted k hk h3) h4 h5'
  · show (tasks' j).esp = if j = i then t.esp else r.saved j
    by_cases hj : j = i
    · rw [if_pos hj, hj, hti.2.2]
    · rw [if_neg hj, (htj j hj).2.2]
      exact hi.esp j (hlisted j hj h1) h2
  · show (tasks' j).stack ≤ (if j = i then t.esp else r.saved j) ∧
      (if j = i then t.esp else r.saved j) < (tasks' j).stack + taskStackSize
    by_cases hj : j = i
    · rw [if_pos hj, hj, hti.2.1]
      exact hesp
    · rw [if_neg hj, (htj j hj).2.1]
      exact hi.esp_in j (hlisted j hj h1) h2 h3

theorem spawn_step {r : Run} {c idle : Slot} {l : List Slot} {bs : List Blk}
    (hi : Inv r c idle l bs) (bootstrap : Nat) (name : List UInt8) (entry arg : Nat) :
    Stepped r (.spawn bootstrap name entry arg) idle := by
  have hnop : runStep r (.spawn bootstrap name entry arg) = some r →
      Stepped r (.spawn bootstrap name entry arg) idle :=
    fun hs => ⟨r, c, l, bs, hs, hi, fun i hg _ => ⟨hg, fun h => h⟩⟩
  cases halloc : allocTask r.sys.tasks with
  | none => exact hnop (by simp only [runStep, taskSpawn, halloc, Option.map_some])
  | some i =>
    have hun := allocTask_unused halloc
    have hic : i ≠ c := fun h => hi.current_listed (by rw [← h]; exact hun)
    rcases hi.heap.kmalloc (n := taskStackSize) (by decide) with
      hk | ⟨p, h', bs', hk, hp0, hpl, hinv, hround, hkept⟩
    · have hk' : kmalloc r.sys.heap taskStackSize = some (0, r.sys.heap) := hk
      exact hnop (by simp only [runStep, taskSpawn, halloc, hk', if_true, Option.map_some])
    have hk' : kmalloc r.sys.heap taskStackSize = some (p, h') := hk
    have hsize : taskStackSize ≤ blkSize h'.mem (p - sizeofBlock) :=
      (le_roundUp (by decide)).trans hround
    have hbound : p + blkSize h'.mem (p - sizeofBlock) ≤ heapBase + heapMaxSize :=
      (hinv.payload_bounds List.mem_cons_self).2.2
    have hlt : p + taskStackSize < 4294967296 := by
      have hb : heapBase + heapMaxSize < 4294967296 := by decide
      omega
    have hframe := bootFrame_bounds hlt
    -- the frame is written inside the new payload
    have hwrite : ∀ x, ¬InPayload h' p x →
        writeBootFrame h'.mem (bootFrame p) bootstrap x = h'.mem x := by
      intro x hx
      refine writeBootFrame_other ?_
      simp only [InPayload] at hx
      omega
    obtain ⟨hinv2, hsize2, -⟩ := hinv.write List.mem_cons_self hwrite
    let t : Task := {
      id := r.sys.nextId + 1
      name := CString.strncpy name (taskNameMax - 1) ++ [0]
      entry := entry
      arg := arg
      stack := p
      state := .ready
      esp := bootFrame p }
    have hnew := hi.insert hun (t := t) rfl hinv2 hpl
      (hsize.trans_eq (hsize2 p List.mem_cons_self).symm)
      (fun q hq => (hsize2 q (List.mem_cons_of_mem _ hq)).trans (hkept q hq).1)
      ⟨hframe.1, by have := hframe.2; simp only [t]; omega⟩ (r.sys.nextId + 1)
    have hstack : (listInsert (setTask r.sys.tasks i t) (some c) i i).stack = p := by
      rw [listInsert_eq hic, if_pos rfl]
    refine ⟨_, c, i :: l, bs', ?_, hnew, fun j hg hr => ?_⟩
    · simp only [runStep, taskSpawn, halloc, hk', if_neg hp0, Option.map_some, hi.current]
      rw [hstack]
    · have hji : j ≠ i := by
        rintro rfl
        have hres : ∃ s', taskSpawn r.sys bootstrap name entry arg = some (some j, s') := by
          simp only [taskSpawn, halloc, hk', if_neg hp0]
          exact ⟨_, rfl⟩
        obtain ⟨s', hs'⟩ := hres
        exact hr ⟨bootstrap, name, entry, arg, s', rfl, hs'⟩
      refine ⟨?_, fun h => h⟩
      show (listInsert (setTask r.sys.tasks i t) (some c) i j).state = .dead ∨
        (listInsert (setTask r.sys.tasks i t) (some c) i j).state = .unused
      rw [listInsert_eq hic, if_neg hji]
      split
      next hjc => rw [← hjc]; exact hg
      next => exact hg

/-! ## Reaping -/

/-- Taking a node other than the head off the ring. -/
theorem listRemove_eq {tasks : Slot → Task} {c x : Slot} {p q : List Slot}
    (hr : IsRing (nextOf tasks) c (p ++ x :: q)) :
    ∃ tasks', listRemove tasks x = some tasks' ∧ IsRing (nextOf tasks') c (p ++ q) ∧
      (∀ j, (tasks' j).state = (tasks j).state ∧ (tasks' j).stack = (tasks j).stack ∧
        (tasks' j).esp = (tasks j).esp) ∧
      ∀ j ∈ q, (tasks' j).next = (tasks j).next := by
  obtain ⟨s, b, hsb⟩ : ∃ s b, c :: p = s ++ [b] :=
    ⟨_, _, (List.dropLast_append_getLast (List.cons_ne_nil c p)).symm⟩
  have hrot := hr.rotate
  have hnd := hrot.nodup
  have hwalk : x :: (q ++ c :: p) = (x :: q ++ s) ++ [b] := by
    rw [hsb, List.append_assoc, List.cons_append]
  obtain ⟨hx, hnd'⟩ := List.nodup_cons.mp hnd
  have hlen := ring_length hrot
  have hprev : findPrev tasks x taskMax x = some b := by
    have hpath := hrot.path
    rw [hwalk] at hpath
    refine findPrev_eq hpath hwalk.symm hx ?_
    have := congrArg List.length hwalk
    simp only [List.length_append, List.length_cons, List.length_nil] at this hlen ⊢
    omega
  have hbmem : b ∈ c :: p := by rw [hsb]; simp
  have hbx : b ≠ x := by
    rintro rfl
    exact hx (List.mem_append_right _ hbmem)
  have hbq : b ∉ q := fun h => (List.nodup_append.mp hnd').2.2 b h b hbmem rfl
  have hxq : x ∉ q := fun h => hx (List.mem_append_left _ h)
  let tasks₁ := setTask tasks b { tasks b with next := (tasks x).next }
  let tasks₂ := setTask tasks₁ x { tasks₁ x with next := none }
  have hfield : ∀ {β : Type} (f : Task → β), (∀ t n, f { t with next := n } = f t) →
      ∀ j, f (tasks₂ j) = f (tasks j) := fun f hf j =>
    (setTask_congr f (hf _ _) j).trans (setTask_congr f (hf _ _) j)
  have hother : ∀ j, j ≠ b → j ≠ x → tasks₂ j = tasks j :=
    fun j hjb hjx => (setTask_other hjx).trans (setTask_other hjb)
  refine ⟨tasks₂, by rw [listRemove, hprev]; rfl, ?_, fun j => ⟨?_, ?_, ?_⟩, fun j hj => ?_⟩
  · refine hr.remove ⟨s, hsb⟩ ?_ fun y hyb hyx => congrArg Task.next (hother y hyb hyx)
    show (tasks₂ b).next = (tasks x).next
    rw [show tasks₂ b = tasks₁ b from setTask_other hbx, show tasks₁ b = _ from setTask_same _ _ _]
  · exact hfield Task.state (fun _ _ => rfl) j
  · exact hfield Task.stack (fun _ _ => rfl) j
  · exact hfield Task.esp (fun _ _ => rfl) j
  · rw [hother j (fun h => hbq (h ▸ hj)) (fun h => hxq (h ▸ hj))]

/-- One dead task leaves the ring and its stack goes back to the heap. -/
theorem reapOne_dead {r : Run} {c x : Slot} {p q : List Slot} {bs : List Blk}
    (hi : Inv r c c (p ++ x :: q) bs) (hdead : (r.sys.tasks x).state = .dead) :
    ∃ s' bs', reapOne r.sys x = some s' ∧
      Inv { r with sys := s', live := r.live.erase (r.sys.tasks x).stack } c c (p ++ q) bs' ∧
      (s'.tasks x).state = .unused ∧
      (∀ j, j ≠ x → (s'.tasks j).state = (r.sys.tasks j).state ∧
        (s'.tasks j).stack = (r.sys.tasks j).stack) ∧
      ∀ j ∈ q, (s'.tasks j).next = (r.sys.tasks j).next := by
  obtain ⟨tasks', hrem, hring, hsame, hnext⟩ := listRemove_eq hi.ring
  have hlist : (r.sys.tasks x).state ≠ .unused := by rw [hdead]; exact TaskState.noConfusion
  have hxc : x ≠ c := by
    rintro rfl
    rw [hi.idle_ready] at hdead
    exact TaskState.noConfusion hdead
  have hxpq : x ∉ c :: (p ++ q) := by
    have hnd := hi.ring.nodup
    have hperm : (c :: (p ++ x :: q)).Perm (x :: c :: (p ++ q)) :=
      (List.perm_middle.cons c).trans (List.Perm.swap x c _)
    exact (List.nodup_cons.mp (hperm.nodup_iff.mp hnd)).1
  obtain ⟨hlive, hsz⟩ := hi.stack x hlist hxc
  obtain ⟨h', bs', hk, hinv, hkept⟩ := hi.heap.kfree hlive
  have hk' : kfree r.sys.heap (tasks' x).stack = some h' := by rw [(hsame x).2.1]; exact hk
  have hpos : (tasks' x).stack ≠ 0 := by
    have := (hi.heap.payload_bounds hlive).1
    rw [(hsame x).2.1]
    omega
  let tasks₂ := setTask tasks' x { tasks' x with state := .unused, stack := 0 }
  have hother : ∀ j, j ≠ x → (tasks₂ j).state = (r.sys.tasks j).state ∧
      (tasks₂ j).stack = (r.sys.tasks j).stack ∧ (tasks₂ j).esp = (r.sys.tasks j).esp := by
    intro j hj
    rw [show tasks₂ j = tasks' j from setTask_other hj]
    exact hsame j
  have hx : (tasks₂ x).state = .unused := congrArg Task.state (setTask_same _ _ _)
  have hnx : ∀ {j}, (tasks₂ j).state ≠ .unused → j ≠ x := fun h he => h (he ▸ hx)
  have hnextOf : nextOf tasks₂ = nextOf tasks' := nextOf_setTask rfl
  have hlisted : ∀ {j}, (tasks₂ j).state ≠ .unused → (r.sys.tasks j).state ≠ .unused :=
    fun {j} h => (hother j (hnx h)).1 ▸ h
  refine ⟨{ r.sys with tasks := tasks₂, heap := h' }, bs', ?_, ?_, hx,
    fun j hj => ⟨(hother j hj).1, (hother j hj).2.1⟩, fun j hj => ?_⟩
  · simp only [reapOne, if_pos hdead, hrem, if_pos hpos, hk', tasks₂]
  · refine ⟨hi.started, hi.current, hi.idle_eq, ?_, fun j => ?_,
      (hother c hxc.symm).1.trans hi.idle_ready, hinv, fun j h1 h2 => ?_,
      fun j k h1 h2 h3 h4 h5 => ?_, fun j h1 h2 => ?_, fun j h1 h2 h3 => ?_⟩
    · show IsRing (nextOf tasks₂) c (p ++ q)
      rw [hnextOf]
      exact hring
    · show j ∈ c :: (p ++ q) ↔ (tasks₂ j).state ≠ .unused
      by_cases hj : j = x
      · subst hj
        exact iff_of_false hxpq fun h => h hx
      · rw [(hother j hj).1, ← hi.mem j]
        simp only [List.mem_cons, List.mem_append, hj, false_or]
    · have hjx := hnx h1
      show (tasks₂ j).stack ∈ r.live.erase _ ∧ _ ≤ blkSize h'.mem ((tasks₂ j).stack - _)
      rw [(hother j hjx).2.1]
      obtain ⟨hl, hs⟩ := hi.stack j (hlisted h1) h2
      have hne : (r.sys.tasks j).stack ≠ (r.sys.tasks x).stack :=
        fun he => hjx (hi.inj j x (hlisted h1) h2 hlist hxc he)
      exact ⟨hi.heap.nodup.mem_erase_iff.mpr ⟨hne, hl⟩, hs.trans_eq (hkept _ hl hne).1.symm⟩
    · have h5' : (tasks₂ j).stack = (tasks₂ k).stack := h5
      rw [(hother j (hnx h1)).2.1, (hother k (hnx h3)).2.1] at h5'
      exact hi.inj j k (hlisted h1) h2 (hlisted h3) h4 h5'
    · exact (hother j (hnx h1)).2.2.trans (hi.esp j (hlisted h1) h2)
    · show (tasks₂ j).stack ≤ _ ∧ _ < (tasks₂ j).stack + _
      rw [(hother j (hnx h1)).2.1]
      exact hi.esp_in j (hlisted h1) h2 h3
  · exact (congrFun hnextOf j).trans (hnext j hj)

/-- The walk over the rest `q` of the ring reaps the dead tasks in it. -/
theorem reapLoop_spec {c : Slot} {q : List Slot} :
    ∀ {r : Run} {p : List Slot} {bs : List Blk} {x : Slot} {fuel : Nat},
    Inv r c c (p ++ q) bs → Path (nextOf r.sys.tasks) x q c → q.length ≤ fuel →
    ∃ s' live' l' bs', reapLoop c fuel r.sys x = some s' ∧
      Inv { r with sys := s', live := live' } c c l' bs' ∧ l'.Sublist (p ++ q) ∧
      (∀ i, (s'.tasks i).state =
        if i ∈ q ∧ (r.sys.tasks i).state = .dead then .unused else (r.sys.tasks i).state) ∧
      ∀ y, y ∈ live' ↔
        y ∈ r.live ∧ ¬∃ i ∈ q, (r.sys.tasks i).state = .dead ∧ (r.sys.tasks i).stack = y := by
  induction q with
  | nil =>
    rintro r p bs x fuel hi rfl -
    refine ⟨r.sys, r.live, p ++ [], bs, ?_, hi, List.Sublist.refl _, by simp, by simp⟩
    cases fuel <;> simp [reapLoop]
  | cons y q ih =>
    rintro r p bs x fuel hi ⟨rfl, n, hn, hl⟩ hf
    obtain ⟨fuel, rfl⟩ := Nat.exists_eq_add_one.mpr (Nat.lt_of_lt_of_le (Nat.succ_pos _) hf)
    have hn' : (r.sys.tasks x).next = some n := hn
    have hnd := (List.nodup_cons.mp hi.ring.nodup)
    have hxc : x ≠ c := by
      rintro rfl
      exact hnd.1 (by simp)
    have hxq : x ∉ q := (List.nodup_cons.mp (List.nodup_append.mp hnd.2).2.1).1
    by_cases hdead : (r.sys.tasks x).state = .dead
    · obtain ⟨s₁, bs₁, hone, hi₁, hx₁, hsame, hnext⟩ := reapOne_dead hi hdead
      have hl₁ : Path (nextOf s₁.tasks) n q c := hl.congr hnext
      obtain ⟨s', live', l', bs', hloop, hi', hsub, hstate, hlive⟩ :=
        ih hi₁ hl₁ (Nat.le_of_succ_le_succ hf)
      refine ⟨s', live', l', bs', ?_, hi',
        hsub.trans (List.Sublist.append_left (List.sublist_cons_self x q) p), fun i => ?_,
        fun y => ?_⟩
      · simp only [reapLoop, if_neg hxc, hone, hn']
        exact hloop
      · rw [hstate]
        show (if i ∈ q ∧ (s₁.tasks i).state = .dead then _ else (s₁.tasks i).state) = _
        by_cases hix : i = x
        · rw [hix, if_neg fun h => hxq h.1, if_pos ⟨List.mem_cons_self, hdead⟩, hx₁]
        · rw [(hsame i hix).1]
          simp only [List.mem_cons, hix, false_or]
      · rw [hlive]
        show y ∈ r.live.erase _ ∧ (¬∃ i ∈ q, (s₁.tasks i).state = .dead ∧ (s₁.tasks i).stack = y) ↔ _
        have hq : (∃ i ∈ q, (s₁.tasks i).state = .dead ∧ (s₁.tasks i).stack = y) ↔
            ∃ i ∈ q, (r.sys.tasks i).state = .dead ∧ (r.sys.tasks i).stack = y := by
          refine exists_congr fun i => and_congr_right fun hiq => ?_
          have hix : i ≠ x := fun h => hxq (h ▸ hiq)
          rw [(hsame i hix).1, (hsame i hix).2]
        have hlnd : r.live.Nodup := hi.heap.nodup
        rw [hq, hlnd.mem_erase_iff]
        constructor
        · rintro ⟨⟨hne, hy⟩, hnot⟩
          refine ⟨hy, ?_⟩
          rintro ⟨i, hiq, h1, h2⟩
          rcases List.mem_cons.mp hiq with rfl | hiq
          · exact hne h2.symm
          · exact hnot ⟨i, hiq, h1, h2⟩
        · rintro ⟨hy, hnot⟩
          refine ⟨⟨fun he => hnot ⟨x, List.mem_cons_self, hdead, he.symm⟩, hy⟩, ?_⟩
          rintro ⟨i, hiq, h1, h2⟩
          exact hnot ⟨i, List.mem_cons_of_mem _ hiq, h1, h2⟩
    · have hone : reapOne r.sys x = some r.sys := if_neg hdead
      have hi₁ : Inv r c c ((p ++ [x]) ++ q) bs := by
        rw [List.append_assoc]
        exact hi
      obtain ⟨s', live', l', bs', hloop, hi', hsub, hstate, hlive⟩ :=
        ih hi₁ hl (Nat.le_of_succ_le_succ hf)
      rw [List.append_assoc] at hsub
      refine ⟨s', live', l', bs', ?_, hi', hsub, fun i => ?_, fun y => ?_⟩
      · simp only [reapLoop, if_neg hxc, hone, hn']
        exact hloop
      · rw [hstate]
        by_cases hix : i = x
        · rw [hix, if_neg fun h => hdead h.2, if_neg fun h => hdead h.2]
        · simp only [List.mem_cons, hix, false_or]
      · rw [hlive]
        refine and_congr_right fun _ => not_congr ⟨?_, ?_⟩
        · rintro ⟨i, hiq, h⟩
          exact ⟨i, List.mem_cons_of_mem _ hiq, h⟩
        · rintro ⟨i, hiq, h1, h2⟩
          rcases List.mem_cons.mp hiq with rfl | hiq
          · exact absurd h1 hdead
          · exact ⟨i, hiq, h1, h2⟩

/-- The order in which the run remembers its payloads does not matter. -/
theorem Inv.relive {r : Run} {c idle : Slot} {l : List Slot} {bs : List Blk}
    (hi : Inv r c idle l bs) {live' : List Nat} (hnd : live'.Nodup)
    (hmem : ∀ y, y ∈ live' ↔ y ∈ r.live) : Inv { r with live := live' } c idle l bs := by
  refine ⟨hi.started, hi.current, hi.idle_eq, hi.ring, hi.mem, hi.idle_ready,
    ⟨hi.heap.represents, hnd, fun p => (hmem p).trans (hi.heap.live p)⟩, fun i h1 h2 => ?_,
    hi.inj, hi.esp, hi.esp_in⟩
  obtain ⟨h3, h4⟩ := hi.stack i h1 h2
  exact ⟨(hmem _).mpr h3, h4⟩

theorem reap_step {r : Run} {c idle : Slot} {l : List Slot} {bs : List Blk}
    (hi : Inv r c idle l bs) (ha : Allowed r .reap) : Stepped r .reap idle := by
  have hci : c = idle := by
    have h : r.sys.current = r.sys.idle := ha
    rw [hi.current, hi.idle_eq] at h
    exact Option.some.inj h
  subst hci
  obtain ⟨n, hn, hl⟩ := hi.ring.tail
  have hn' : (r.sys.tasks c).next = some n := hn
  have hi₀ : Inv r c c ([] ++ l) bs := hi
  obtain ⟨s', live', l', bs', hloop, hi', -, hstate, hlive⟩ :=
    reapLoop_spec hi₀ hl (Nat.le_of_lt (ring_length hi.ring))
  have hreap : taskReap r.sys = some s' := by
    simp only [taskReap, hi.current, hn']
    exact hloop
  have hcl : c ∉ l := (List.nodup_cons.mp hi.ring.nodup).1
  -- the dead tasks that are gone are those of the rest of the ring
  have hreaped : ∀ y, Reaped r.sys s' y ↔
      ∃ i ∈ l, (r.sys.tasks i).state = .dead ∧ (r.sys.tasks i).stack = y := by
    intro y
    constructor
    · rintro ⟨i, h1, -, h3⟩
      have hmem : i ∈ c :: l := (hi.mem i).mpr (by rw [h1]; exact TaskState.noConfusion)
      rcases List.mem_cons.mp hmem with rfl | hil
      · rw [hi.idle_ready] at h1
        exact TaskState.noConfusion h1
      · exact ⟨i, hil, h1, h3⟩
    · rintro ⟨i, hil, h1, h3⟩
      exact ⟨i, h1, by rw [hstate, if_pos ⟨hil, h1⟩], h3⟩
  have hmem : ∀ y, y ∈ r.live.filter (fun p => !decide (Reaped r.sys s' p)) ↔ y ∈ live' := by
    intro y
    rw [hlive, ← hreaped, List.mem_filter]
    simp only [Bool.not_eq_true', decide_eq_false_iff_not]
  have hlnd : r.live.Nodup := hi.heap.nodup
  have hfinal := hi'.relive (hlnd.filter _) hmem
  refine ⟨_, c, l', bs', ?_, hfinal, fun i hg _ => ⟨?_, fun h h' => ?_⟩⟩
  · simp only [runStep, hreap, Option.map_some]
  · show (s'.tasks i).state = .dead ∨ (s'.tasks i).state = .unused
    rw [hstate]
    split
    · exact Or.inr rfl
    · exact hg
  · rw [hfinal.current, ← hi.current] at h'
    exact h h'

/-! ## Whole runs -/

/-- **Every operation keeps the invariant**, whatever the order of operations was. -/
theorem runStep_inv {r : Run} {c idle : Slot} {l : List Slot} {bs : List Blk} {op : TaskOp}
    (hi : Inv r c idle l bs) (ha : Allowed r op) : Stepped r op idle := by
  cases op with
  | spawn bootstrap name entry arg => exact spawn_step hi bootstrap name entry arg
  | schedule esp now => exact schedule_step hi ha
  | tick => exact tick_step hi
  | sleep now ms => exact sleep_step hi ha
  | exit => exact exit_step hi ha
  | kill id => exact kill_step hi
  | reap => exact reap_step hi ha
  | heap op => exact heap_step hi ha

theorem taskInit_inv {s : System} {live : List Nat} {saved : Slot → Nat} {bs : List Blk}
    (hh : HeapInv { heap := s.heap, live := live } bs) :
    Inv { sys := taskInit s, live := live, saved := saved } ⟨0, by decide⟩ ⟨0, by decide⟩ [] bs := by
  have hother : ∀ i : Slot, i ≠ ⟨0, by decide⟩ → ((taskInit s).tasks i).state = .unused := by
    intro i hi
    show (setTask _ _ _ i).state = _
    rw [setTask_other hi]
  have honly : ∀ i : Slot, ((taskInit s).tasks i).state ≠ .unused → i = ⟨0, by decide⟩ :=
    fun i h => by_contra fun hne => h (hother i hne)
  have hready : ((taskInit s).tasks ⟨0, by decide⟩).state = .ready :=
    congrArg Task.state (setTask_same _ _ _)
  refine ⟨rfl, rfl, rfl, IsRing.singleton (congrArg Task.next (setTask_same _ _ _)), fun i => ?_,
    hready, hh, fun i h1 h2 => absurd (honly i h1) h2, fun i j h1 h2 _ _ _ => absurd (honly i h1) h2,
    fun i h1 h2 => absurd (honly i h1) h2, fun i h1 h2 _ => absurd (honly i h1) h2⟩
  constructor
  · intro hmem
    obtain rfl : i = ⟨0, by decide⟩ := by simpa using hmem
    rw [hready]
    exact TaskState.noConfusion
  · intro h
    rw [honly i h]
    exact List.mem_cons_self

/-- Every state of every run satisfies the invariant. -/
theorem reach_inv {mem : Memory} {src : List E820Entry} {r : Run} (hr : Reach mem src r) :
    ∃ c idle l bs, Inv r c idle l bs := by
  induction hr with
  | init hh =>
    obtain ⟨bs, hi⟩ := Mem.reach_inv hh
    exact ⟨_, _, [], bs, taskInit_inv hi⟩
  | step _ ha hs ih =>
    obtain ⟨c, idle, l, bs, hi⟩ := ih
    obtain ⟨r'', c', l', bs', hs', hi', -⟩ := runStep_inv hi ha
    rw [hs] at hs'
    obtain rfl := Option.some.inj hs'
    exact ⟨c', idle, l', bs', hi'⟩

/-- A continuation of a run in which slot `i` is not given to a new task. -/
inductive Later (i : Slot) (r : Run) : Run → Prop
  | refl : Later i r r
  | step {r₁ r₂ : Run} {op : TaskOp} : Later i r r₁ → Allowed r₁ op → ¬Reuses r₁ op i →
      runStep r₁ op = some r₂ → Later i r r₂

/-- An ended task stays ended, and does not run again, until its slot is reused. -/
theorem Inv.gone_later {r : Run} {c idle i : Slot} {l : List Slot} {bs : List Blk}
    (hi : Inv r c idle l bs) (hg : Gone r i) {r' : Run} (hl : Later i r r') :
    Gone r' i ∧ (r.sys.current ≠ some i → r'.sys.current ≠ some i) := by
  have key : (∃ c' l' bs', Inv r' c' idle l' bs') ∧ Gone r' i ∧
      (r.sys.current ≠ some i → r'.sys.current ≠ some i) := by
    induction hl with
    | refl => exact ⟨⟨c, l, bs, hi⟩, hg, fun h => h⟩
    | step _ ha hnot hs ih =>
      obtain ⟨⟨c₁, l₁, bs₁, hi₁⟩, hg₁, hc₁⟩ := ih
      obtain ⟨r₂, c₂, l₂, bs₂, hs₂, hi₂, hkept⟩ := runStep_inv hi₁ ha
      rw [hs] at hs₂
      obtain rfl := Option.some.inj hs₂
      obtain ⟨hg₂, hc₂⟩ := hkept i hg₁ hnot
      exact ⟨⟨c₂, l₂, bs₂, hi₂⟩, hg₂, fun h => hc₂ (hc₁ h)⟩
  exact key.2

/-- The stack pointer to go on with is the one the chosen task was left with. -/
theorem Inv.schedule_result {r : Run} {c idle : Slot} {l : List Slot} {bs : List Blk}
    (hi : Inv r c idle l bs) (esp : Nat) (now : UInt64) :
    ∃ ret s', taskSchedule r.sys esp now = some (ret, s') ∧
      ((s'.current = r.sys.current ∧ ret = esp) ∨
        ∃ n, s'.current = some n ∧ n ≠ c ∧ ret = r.saved n ∧
          (n ≠ idle → (r.sys.tasks n).stack ∈ r.live ∧ (r.sys.tasks n).stack ≤ ret ∧
            ret < (r.sys.tasks n).stack + taskStackSize)) := by
  obtain ⟨tasks', n, ⟨ht, -, -, -, -, -, hn, -⟩, heq⟩ := taskSchedule_eq hi esp now
  by_cases hnc : n = c
  · rw [if_pos hnc] at heq
    exact ⟨_, _, heq, Or.inl ⟨rfl, rfl⟩⟩
  · rw [if_neg hnc] at heq
    have hlist := (hi.mem n).mp hn
    have hret : (tasks' n).esp = r.saved n := (ht.esp n hnc).trans (hi.esp n hlist hnc)
    refine ⟨_, _, heq, Or.inr ⟨n, rfl, hnc, hret, fun hni => ⟨(hi.stack n hlist hni).1, ?_⟩⟩⟩
    rw [hret]
    exact hi.esp_in n hlist hni hnc

/--
What holds of the scheduler at every point of a run.

The ring from the current task holds the used slots, each once, with the idle task among
them, and every other task on it has a live stack of its own (`Inv`). Every allowed
operation succeeds. `task_schedule` stays on its argument or goes on where the chosen
task was left, inside a stack that was not freed. A dead task neither becomes ready nor
current again before its slot is reused.
-/
def Safe (r : Run) : Prop :=
  ∃ c idle l bs, Inv r c idle l bs ∧ idle ∈ c :: l ∧
    (∀ op, Allowed r op → ∃ r', runStep r op = some r') ∧
    (∀ esp now, ∃ ret s', taskSchedule r.sys esp now = some (ret, s') ∧
      ((s'.current = r.sys.current ∧ ret = esp) ∨
        ∃ n, s'.current = some n ∧ n ≠ c ∧ ret = r.saved n ∧
          (n ≠ idle → (r.sys.tasks n).stack ∈ r.live ∧ (r.sys.tasks n).stack ≤ ret ∧
            ret < (r.sys.tasks n).stack + taskStackSize))) ∧
    ∀ i, (r.sys.tasks i).state = .dead → ∀ r', Later i r r' →
      Gone r' i ∧ (r.sys.current ≠ some i → r'.sys.current ≠ some i)

/-- **The scheduler is safe over every run**, in any order of its operations. -/
theorem sched_sound {mem : Memory} {src : List E820Entry} {r : Run} (hr : Reach mem src r) :
    Safe r := by
  obtain ⟨c, idle, l, bs, hi⟩ := reach_inv hr
  refine ⟨c, idle, l, bs, hi, (hi.mem idle).mpr hi.idle_listed, fun op ha => ?_,
    hi.schedule_result, fun i hd r' hl => hi.gone_later (Or.inl hd) hl⟩
  obtain ⟨r', _, _, _, hs, -, -⟩ := runStep_inv hi ha
  exact ⟨r', hs⟩

/-- The scheduler right after `task_init` on a machine without a memory map. -/
def bootRun : Run :=
  { sys := taskInit
      { tasks := fun _ => {}
        current := none
        idle := none
        started := false
        nextId := 0
        heap := bootHeap.heap }
    live := []
    saved := fun _ => 0 }

theorem bootRun_reach : Reach (fun _ => 0) [] bootRun := Reach.init bootHeap_reach

/-- After the session task was started on that machine. -/
theorem sched_sound_session :
    ∃ r, runStep bootRun (.spawn 0x10000 (CString.ofString "session") 0 0) = some r ∧
      r.sys.current ≠ some ⟨1, by decide⟩ ∧ Safe r := by
  have hstep : runStep bootRun (.spawn 0x10000 (CString.ofString "session") 0 0) = some _ := rfl
  have hallowed : Allowed bootRun (.spawn 0x10000 (CString.ofString "session") 0 0) := by
    intro c hc
    obtain rfl : (⟨0, by decide⟩ : Slot) = c := Option.some.inj hc
    exact TaskState.noConfusion
  exact ⟨_, hstep, by decide, sched_sound (bootRun_reach.step hallowed hstep)⟩

end LightningOS.Sched
