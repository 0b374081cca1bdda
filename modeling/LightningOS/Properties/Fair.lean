import LightningOS.Properties.Sched

/-!
# Nobody waits for long

The order behind the current task is the order of the waiting. A call of `task_schedule`
chooses the first ready task in it, so every task behind that one moves up, and what other
tasks do in the meantime can only shorten the way: they sleep, end, or leave the ring. The
place in the order is the measure, and it falls with every call until the task is chosen.
-/

namespace LightningOS.Sched

open Ring Mem BlockList

/-! ## Runs of operations -/

def runOps : Run → List TaskOp → Option Run
  | r, [] => some r
  | r, op :: ops =>
    match runStep r op with
    | none => none
    | some r => runOps r ops

/-- What must hold of an operation holds at each one of a run. -/
def Along (ok : Run → TaskOp → Prop) : Run → List TaskOp → Prop
  | _, [] => True
  | r, op :: ops => ok r op ∧ ∀ r', runStep r op = some r' → Along ok r' ops

/-- The tick counter at each call of `task_schedule`. -/
def ticks (ops : List TaskOp) : List UInt64 :=
  ops.filterMap fun op =>
    match op with
    | .schedule _ now => some now
    | _ => none

/-- No task is started, and this one is neither ended nor put to sleep. -/
def Spares (i : Slot) (r : Run) (op : TaskOp) : Prop :=
  Allowed r op ∧
    match op with
    | .spawn _ _ _ _ => False
    | .sleep _ _ => r.sys.current ≠ some i
    | .exit => r.sys.current ≠ some i
    | .kill _ => ∀ r', runStep r op = some r' → (r'.sys.tasks i).state ≠ .dead
    | _ => True

/-- The task is not put to sleep again, and its slot is not used for another one. -/
def Leaves (i : Slot) (r : Run) (op : TaskOp) : Prop :=
  Allowed r op ∧ ¬Reuses r op i ∧
    match op with
    | .sleep _ _ => r.sys.current ≠ some i
    | _ => True

/-- The task can run, or can when the sleepers are woken at `t`. -/
def Due (r : Run) (i : Slot) (t : UInt64) : Prop :=
  (r.sys.tasks i).state = .ready ∨ (r.sys.tasks i).state = .sleeping ∧ (r.sys.tasks i).wakeAt ≤ t

/-- The task sleeps until `w`, or is gone. -/
def Dormant (r : Run) (i : Slot) (w : UInt64) : Prop :=
  (r.sys.tasks i).state = .sleeping ∧ (r.sys.tasks i).wakeAt = w ∨ Gone r i

/-- Fewer than `d` tasks come before this one in the order behind the current task. -/
def Within (r : Run) (i : Slot) (d : Nat) : Prop :=
  ∃ c l, r.sys.current = some c ∧ IsRing (nextOf r.sys.tasks) c l ∧ i ∈ l ++ [c] ∧
    (l ++ [c]).idxOf i < d

variable {r r' : Run} {c idle i : Slot} {l : List Slot} {bs : List Blk} {op : TaskOp}

theorem Due.listed {t : UInt64} (h : Due r i t) : (r.sys.tasks i).state ≠ .unused := by
  rcases h with h | ⟨h, -⟩
  · rw [h]
    exact TaskState.noConfusion
  · rw [h]
    exact TaskState.noConfusion

theorem mem_order {x : Slot} : x ∈ l ++ [c] ↔ x ∈ c :: l := by
  rw [List.mem_append, List.mem_singleton, List.mem_cons, or_comm]

theorem Inv.taskCount_eq (hi : Inv r c idle l bs) : taskCount r.sys = l.length + 1 := by
  have hperm : ((List.finRange taskMax).filter fun i => (r.sys.tasks i).state ≠ .unused).Perm
      (c :: l) := by
    refine (List.perm_ext_iff_of_nodup ((List.nodup_finRange _).filter _) hi.ring.nodup).mpr ?_
    intro x
    rw [List.mem_filter, hi.mem x, decide_eq_true_eq]
    exact and_iff_right (List.mem_finRange x)
  rw [taskCount, hperm.length_eq, List.length_cons]

/-- At first the whole ring may come before a task. -/
theorem Inv.within (hi : Inv r c idle l bs) (hlist : (r.sys.tasks i).state ≠ .unused) :
    Within r i (taskCount r.sys) := by
  have hmem : i ∈ l ++ [c] := mem_order.mpr ((hi.mem i).mpr hlist)
  refine ⟨c, l, hi.current, hi.ring, hmem, ?_⟩
  rw [hi.taskCount_eq]
  have hlt := List.idxOf_lt_length_of_mem hmem
  rwa [List.length_append, List.length_singleton] at hlt

/-! ## A call of `task_schedule` -/

/-- The state in which the call returns. -/
theorem Scheduled.result {esp : Nat} {now : UInt64} {tasks' : Slot → Task} {n : Slot}
    (hi : Inv r c idle l bs) (hs : Scheduled r c idle l esp now tasks' n)
    (heq : taskSchedule r.sys esp now = some
      (if n = c then (esp, { r.sys with tasks := tasks' })
      else ((tasks' n).esp, { r.sys with
        tasks := setTask tasks' n { tasks' n with switches := (tasks' n).switches + 1 }
        current := some n }))) :
    ∃ ret s', taskSchedule r.sys esp now = some (ret, s') ∧ s'.current = some n ∧
      s'.idle = r.sys.idle ∧ nextOf s'.tasks = nextOf r.sys.tasks ∧
      ∀ j, (s'.tasks j).state = (tasks' j).state ∧ (s'.tasks j).wakeAt = (tasks' j).wakeAt := by
  have hnext : nextOf tasks' = nextOf r.sys.tasks := funext hs.retasked.next
  by_cases hn : n = c
  · rw [if_pos hn] at heq
    exact ⟨_, _, heq, by rw [hn]; exact hi.current, rfl, hnext, fun j => ⟨rfl, rfl⟩⟩
  · rw [if_neg hn] at heq
    have hswitch : nextOf (setTask tasks' n
        { tasks' n with switches := (tasks' n).switches + 1 }) = nextOf tasks' := nextOf_setTask rfl
    have hstate : ∀ j, (setTask tasks' n
        { tasks' n with switches := (tasks' n).switches + 1 } j).state = (tasks' j).state :=
      setTask_congr Task.state rfl
    have hwakeAt : ∀ j, (setTask tasks' n
        { tasks' n with switches := (tasks' n).switches + 1 } j).wakeAt = (tasks' j).wakeAt :=
      setTask_congr Task.wakeAt rfl
    exact ⟨_, _, heq, rfl, rfl, hswitch.trans hnext, fun j => ⟨hstate j, hwakeAt j⟩⟩

/-- The idle task is chosen only if no other task is ready. -/
theorem Inv.idle_last (hi : Inv r c idle l bs) (esp : Nat) (now : UInt64) :
    ∃ ret s', taskSchedule r.sys esp now = some (ret, s') ∧
      (s'.current = s'.idle → ∀ i, some i ≠ s'.idle → (s'.tasks i).state ≠ .ready) := by
  obtain ⟨tasks', n, hs, heq⟩ := taskSchedule_eq hi esp now
  obtain ⟨ret, s', hrun, hcur, hidle, -, hstate⟩ := hs.result hi heq
  refine ⟨ret, s', hrun, fun hchosen j hj hready => ?_⟩
  rw [hcur, hidle, hi.idle_eq] at hchosen
  rw [hidle, hi.idle_eq] at hj
  have hn : n = idle := Option.some.inj hchosen
  have hne : j ≠ idle := fun h => hj (congrArg some h)
  rw [(hstate j).1] at hready
  have hmem : j ∈ l ++ [c] := by
    refine mem_order.mpr ((hi.mem j).mpr fun hunused => ?_)
    rw [hs.awake j (by rw [hunused]; exact TaskState.noConfusion), hunused] at hready
    exact TaskState.noConfusion hready
  have hchoice := hs.choice
  rw [firstReady] at hchoice
  cases hfind : (l ++ [c]).find? fun t => t ≠ idle ∧ (tasks' t).state = .ready with
  | none =>
    have hnot := List.find?_eq_none.mp hfind j hmem
    rw [decide_eq_true_eq] at hnot
    exact hnot ⟨hne, hready⟩
  | some m =>
    have hmatch := List.find?_some hfind
    rw [decide_eq_true_eq] at hmatch
    rw [hfind, Option.getD_some, hn] at hchoice
    exact hmatch.1 hchoice.symm

/-- **Who is due moves up**, or runs. -/
theorem Inv.schedule_within (hi : Inv r c idle l bs) (hne : i ≠ idle) {esp : Nat} {now : UInt64}
    (hdue : Due r i now) {d : Nat} (hd : Within r i (d + 1))
    (hrun : runStep r (.schedule esp now) = some r') :
    (r'.sys.tasks i).state = .ready ∧ (r'.sys.current = some i ∨ Within r' i d) := by
  obtain ⟨tasks', n, hs, heq⟩ := taskSchedule_eq hi esp now
  obtain ⟨ret, s', hsched, hcur, -, hnext, hstate⟩ := hs.result hi heq
  rw [runStep, hsched] at hrun
  obtain rfl := Option.some.inj hrun
  obtain ⟨c', l', hc', hring, hmem, hlt⟩ := hd
  rw [hi.current] at hc'
  obtain rfl := Option.some.inj hc'
  obtain rfl := hring.unique hi.ring
  have hready : (tasks' i).state = .ready := by
    rw [hs.woken i (mem_order.mp hmem), wake_state]
    rcases hdue with h | h
    · rw [h, if_neg fun h => TaskState.noConfusion h.1]
    · rw [if_pos h]
  refine ⟨(hstate i).1.trans hready, ?_⟩
  have hchoice := hs.choice
  rw [firstReady] at hchoice
  cases hfind : (l' ++ [c]).find? fun t => t ≠ idle ∧ (tasks' t).state = .ready with
  | none =>
    have hnot := List.find?_eq_none.mp hfind i hmem
    rw [decide_eq_true_eq] at hnot
    exact absurd ⟨hne, hready⟩ hnot
  | some m =>
    rw [hfind, Option.getD_some] at hchoice
    subst hchoice
    obtain ⟨-, before, behind, horder, hnone⟩ := List.find?_eq_some_iff_append.mp hfind
    by_cases hmi : n = i
    · exact Or.inl (by rw [← hmi]; exact hcur)
    · have hbefore : i ∉ before := by
        intro hb
        have := hnone i hb
        rw [Bool.not_eq_true', decide_eq_false_iff_not] at this
        exact this ⟨hne, hready⟩
      have hbehind : i ∈ behind := by
        rw [horder] at hmem
        rcases List.mem_append.mp hmem with h | h
        · exact absurd h hbefore
        · exact (List.mem_cons.mp h).resolve_left fun h => hmi h.symm
      rw [horder, List.idxOf_append_of_notMem hbefore, List.idxOf_cons_ne _ hmi] at hlt
      refine Or.inr ⟨n, behind ++ before, hcur, ?_, ?_, ?_⟩
      · show IsRing (nextOf s'.tasks) n (behind ++ before)
        rw [hnext]
        exact hi.ring.turn horder
      · exact List.mem_append_left _ (List.mem_append_left _ hbehind)
      · rw [List.append_assoc, List.idxOf_append_of_mem hbehind]
        omega

/-! ## What the other operations do to a task -/

/-- These operations change one task and leave the ring alone. -/
def OneTask : TaskOp → Prop
  | .tick | .sleep _ _ | .exit | .kill _ | .heap _ => True
  | _ => False

/-- How the task in slot `j` changes, with `c` the current one. -/
inductive Touched (op : TaskOp) (c j : Slot) (old new : Task) : Prop
  | kept : new.state = old.state → new.wakeAt = old.wakeAt → Touched op c j old new
  | slept : (∃ now ms, op = .sleep now ms) → j = c → Touched op c j old new
  | exited : op = .exit → j = c → new.state = .dead → Touched op c j old new
  | killed : (∃ id, op = .kill id) → new.state = .dead → Touched op c j old new

theorem setTask_self (tasks : Slot → Task) (j : Slot) : setTask tasks j (tasks j) = tasks := by
  funext k
  rw [setTask]
  split
  next h => rw [h]
  next => rfl

theorem Inv.oneTask (hi : Inv r c idle l bs) (hop : OneTask op) (hrun : runStep r op = some r') :
    r'.sys.current = some c ∧ ∃ j t, r'.sys.tasks = setTask r.sys.tasks j t ∧
      t.next = (r.sys.tasks j).next ∧ Touched op c j (r.sys.tasks j) t := by
  have hsame : r'.sys.tasks = r.sys.tasks → ∃ j t, r'.sys.tasks = setTask r.sys.tasks j t ∧
      t.next = (r.sys.tasks j).next ∧ Touched op c j (r.sys.tasks j) t := fun h =>
    ⟨c, r.sys.tasks c, h.trans (setTask_self _ _).symm, rfl, .kept rfl rfl⟩
  cases op with
  | tick =>
    rw [runStep, taskAccountTick, hi.started, hi.current] at hrun
    obtain rfl := Option.some.inj hrun
    exact ⟨rfl, c, _, rfl, rfl, .kept rfl rfl⟩
  | sleep now ms =>
    have hst : ¬r.sys.started = false := by simp [hi.started]
    rw [runStep, taskSleepMs, if_neg hst, hi.current] at hrun
    obtain rfl := Option.some.inj hrun
    exact ⟨rfl, c, _, rfl, rfl, .slept ⟨now, ms, rfl⟩ rfl⟩
  | exit =>
    rw [runStep, taskExit] at hrun
    split at hrun
    · exact absurd hrun.symm (Option.some_ne_none _)
    · rw [hi.current] at hrun
      obtain rfl := Option.some.inj hrun
      exact ⟨rfl, c, _, rfl, rfl, .exited rfl rfl rfl⟩
  | kill id =>
    rw [runStep, taskKill, hi.current] at hrun
    dsimp only at hrun
    rw [killLoop_eq hi id] at hrun
    cases hfind : (c :: l).find? fun t => (r.sys.tasks t).id = id ∧
        (r.sys.tasks t).state ≠ .unused ∧ (r.sys.tasks t).state ≠ .dead with
    | none =>
      rw [hfind] at hrun
      obtain rfl := Option.some.inj hrun
      exact ⟨hi.current, hsame rfl⟩
    | some j =>
      rw [hfind] at hrun
      dsimp only at hrun
      split at hrun
      · obtain rfl := Option.some.inj hrun
        exact ⟨hi.current, hsame rfl⟩
      · obtain rfl := Option.some.inj hrun
        exact ⟨rfl, j, _, rfl, rfl, .killed ⟨id, rfl⟩ rfl⟩
  | heap op =>
    rw [runStep] at hrun
    obtain ⟨h, -, rfl⟩ := Option.map_eq_some_iff.mp hrun
    exact ⟨hi.current, hsame rfl⟩
  | spawn => exact hop.elim
  | schedule => exact hop.elim
  | reap => exact hop.elim

theorem listRemove_wakeAt {tasks tasks' : Slot → Task} {x : Slot}
    (h : listRemove tasks x = some tasks') (j : Slot) : (tasks' j).wakeAt = (tasks j).wakeAt := by
  obtain ⟨prev, -, rfl⟩ := Option.map_eq_some_iff.mp h
  exact (setTask_congr Task.wakeAt (by rfl) j).trans (setTask_congr Task.wakeAt (by rfl) j)

theorem reapOne_wakeAt {s s' : System} {x : Slot} (h : reapOne s x = some s') (j : Slot) :
    (s'.tasks j).wakeAt = (s.tasks j).wakeAt := by
  rw [reapOne] at h
  split at h
  · cases hrem : listRemove s.tasks x with
    | none => simp [hrem] at h
    | some tasks =>
      rw [hrem] at h
      dsimp only at h
      split at h
      · exact absurd h.symm (Option.some_ne_none _)
      · obtain rfl := Option.some.inj h
        exact (setTask_congr Task.wakeAt (by rfl) j).trans (listRemove_wakeAt hrem j)
  · obtain rfl := Option.some.inj h
    rfl

theorem reapLoop_wakeAt {stop : Slot} {fuel : Nat} : ∀ {s s' : System} {x : Slot},
    reapLoop stop fuel s x = some s' → ∀ j, (s'.tasks j).wakeAt = (s.tasks j).wakeAt := by
  induction fuel with
  | zero =>
    intro s s' x h j
    rw [reapLoop] at h
    split at h
    · obtain rfl := Option.some.inj h
      rfl
    · exact absurd h.symm (Option.some_ne_none _)
  | succ fuel ih =>
    intro s s' x h j
    rw [reapLoop] at h
    split at h
    · obtain rfl := Option.some.inj h
      rfl
    · dsimp only at h
      cases hone : reapOne s x with
      | none => simp [hone] at h
      | some s₁ =>
        rw [hone] at h
        dsimp only at h
        cases hnext : (s.tasks x).next with
        | none => simp [hnext] at h
        | some n =>
          rw [hnext] at h
          exact (ih h j).trans (reapOne_wakeAt hone j)

/-- Reaping takes dead tasks out of the ring. -/
theorem Inv.reap_ring (hi : Inv r c idle l bs) (ha : Allowed r .reap)
    (hrun : runStep r .reap = some r') :
    ∃ l', r'.sys.current = some c ∧ IsRing (nextOf r'.sys.tasks) c l' ∧ l'.Sublist l ∧
      ∀ j, (r'.sys.tasks j).wakeAt = (r.sys.tasks j).wakeAt ∧
        ((r'.sys.tasks j).state = (r.sys.tasks j).state ∨ (r.sys.tasks j).state = .dead ∧
          (r'.sys.tasks j).state = .unused) := by
  obtain rfl : c = idle := by
    have h : r.sys.current = r.sys.idle := ha
    rw [hi.current, hi.idle_eq] at h
    exact Option.some.inj h
  obtain ⟨n, hn, hl⟩ := hi.ring.tail
  have hn' : (r.sys.tasks c).next = some n := hn
  have hi₀ : Inv r c c ([] ++ l) bs := hi
  obtain ⟨s', live', l', bs', hloop, hi', hsub, hstate, -⟩ :=
    reapLoop_spec hi₀ hl (Nat.le_of_lt (ring_length hi.ring))
  rw [runStep, taskReap, hi.current] at hrun
  dsimp only at hrun
  rw [hn'] at hrun
  dsimp only at hrun
  rw [hloop] at hrun
  obtain rfl := Option.some.inj hrun
  refine ⟨l', hi'.current, hi'.ring, hsub, fun j => ⟨reapLoop_wakeAt hloop j, ?_⟩⟩
  show (s'.tasks j).state = _ ∨ _
  rw [hstate]
  split
  next h => exact Or.inr ⟨h.2, rfl⟩
  next => exact Or.inl rfl

/-! ## Between two calls of `task_schedule` -/

/-- A task that is spared keeps its state. -/
theorem Inv.spared (hi : Inv r c idle l bs) (hs : Spares i r op)
    (hop : ∀ esp now, op ≠ .schedule esp now) (hrun : runStep r op = some r')
    (halive : (r.sys.tasks i).state ≠ .dead) :
    (r'.sys.tasks i).state = (r.sys.tasks i).state ∧
      (r'.sys.tasks i).wakeAt = (r.sys.tasks i).wakeAt := by
  obtain ⟨ha, hs⟩ := hs
  by_cases hone : OneTask op
  · obtain ⟨-, j, t, htasks, -, htouched⟩ := hi.oneTask hone hrun
    by_cases hij : i = j
    · subst hij
      have hnew : r'.sys.tasks i = t := by rw [htasks, setTask_same]
      rw [hnew]
      cases htouched with
      | kept hstate hwake => exact ⟨hstate, hwake⟩
      | slept hsleep hc =>
        obtain ⟨now, ms, rfl⟩ := hsleep
        exact absurd (by rw [hc]; exact hi.current) hs
      | exited hexit hc =>
        subst hexit
        exact absurd (by rw [hc]; exact hi.current) hs
      | killed hkill hdead =>
        obtain ⟨id, rfl⟩ := hkill
        exact absurd (hnew ▸ hdead) (hs r' hrun)
    · rw [htasks, setTask_other hij]
      exact ⟨rfl, rfl⟩
  · cases op with
    | schedule esp now => exact absurd rfl (hop esp now)
    | spawn => exact hs.elim
    | reap =>
      obtain ⟨l', -, -, -, hkept⟩ := hi.reap_ring ha hrun
      obtain ⟨hwake, hstate⟩ := hkept i
      exact ⟨hstate.resolve_right fun h => halive h.1, hwake⟩
    | _ => exact absurd trivial hone

theorem Inv.within_kept (hi : Inv r c idle l bs) (hs : Spares i r op)
    (hop : ∀ esp now, op ≠ .schedule esp now) (hrun : runStep r op = some r')
    (halive : (r.sys.tasks i).state ≠ .dead) {d : Nat} (hd : Within r i d) : Within r' i d := by
  obtain ⟨c', l', hc', hring, hmem, hlt⟩ := hd
  rw [hi.current] at hc'
  obtain rfl := Option.some.inj hc'
  obtain rfl := hring.unique hi.ring
  by_cases hone : OneTask op
  · obtain ⟨hcur, j, t, htasks, hnext, -⟩ := hi.oneTask hone hrun
    refine ⟨c, l', hcur, ?_, hmem, hlt⟩
    rw [htasks, nextOf_setTask hnext]
    exact hi.ring
  · have hstate := (hi.spared hs hop hrun halive).1
    cases op with
    | schedule esp now => exact absurd rfl (hop esp now)
    | spawn => exact hs.2.elim
    | reap =>
      obtain ⟨r₁, c₁, l₁, bs₁, hrun₁, hi₁, -⟩ := runStep_inv hi hs.1
      rw [hrun] at hrun₁
      obtain rfl := Option.some.inj hrun₁
      obtain ⟨l'', hcur, hring', hsub, -⟩ := hi.reap_ring hs.1 hrun
      obtain rfl : c = c₁ := Option.some.inj (hcur.symm.trans hi₁.current)
      obtain rfl := hring'.unique hi₁.ring
      have hlist : (r'.sys.tasks i).state ≠ .unused := by
        rw [hstate]
        exact (hi.mem i).mp (mem_order.mp hmem)
      have hmem' : i ∈ l'' ++ [c] := mem_order.mpr ((hi₁.mem i).mpr hlist)
      have hnd : (l' ++ [c]).Nodup :=
        (List.perm_append_singleton c l').nodup_iff.mpr hi.ring.nodup
      exact ⟨c, l'', hcur, hring', hmem', Nat.lt_of_le_of_lt
        (idxOf_le_of_sublist (List.Sublist.append_right hsub [c]) hnd hmem') hlt⟩
    | _ => exact absurd trivial hone

/-! ## The wait is bounded -/

/-- In some prefix of the run, `task_schedule` has just made this task the current one. -/
def Chosen (r : Run) (i : Slot) (ops : List TaskOp) : Prop :=
  ∃ done esp now rest r', ops = done ++ .schedule esp now :: rest ∧
    runOps r (done ++ [.schedule esp now]) = some r' ∧ r'.sys.current = some i

theorem Chosen.cons {ops : List TaskOp} (hrun : runStep r op = some r') (h : Chosen r' i ops) :
    Chosen r i (op :: ops) := by
  obtain ⟨done, esp, now, rest, r₂, rfl, hops, hcur⟩ := h
  refine ⟨op :: done, esp, now, rest, r₂, rfl, ?_, hcur⟩
  rw [List.cons_append, runOps, hrun]
  exact hops

theorem Due.alive {t : UInt64} (h : Due r i t) : (r.sys.tasks i).state ≠ .dead := by
  rcases h with h | ⟨h, -⟩
  · rw [h]
    exact TaskState.noConfusion
  · rw [h]
    exact TaskState.noConfusion

theorem Due.kept {t : UInt64} (h : Due r i t)
    (hsame : (r'.sys.tasks i).state = (r.sys.tasks i).state ∧
      (r'.sys.tasks i).wakeAt = (r.sys.tasks i).wakeAt) : Due r' i t := by
  rw [Due, hsame.1, hsame.2]
  exact h

theorem ticks_schedule (esp : Nat) (now : UInt64) (ops : List TaskOp) :
    ticks (.schedule esp now :: ops) = now :: ticks ops := rfl

theorem ticks_other (hop : ∀ esp now, op ≠ .schedule esp now) (ops : List TaskOp) :
    ticks (op :: ops) = ticks ops := by
  cases op with
  | schedule esp now => exact absurd rfl (hop esp now)
  | _ => rfl

/-- With a place among the first `d`, `d` calls are enough. -/
theorem chosen_within {ops : List TaskOp} : ∀ {r : Run} {c : Slot} {l : List Slot} {bs : List Blk}
    {t : UInt64} {d : Nat}, Inv r c idle l bs → i ≠ idle → Due r i t → Within r i d →
    Along (Spares i) r ops → (t :: ticks ops).Pairwise (· ≤ ·) → d ≤ (ticks ops).length →
    Chosen r i ops := by
  induction ops with
  | nil =>
    intro r c l bs t d _ _ _ hd _ _ hlen
    obtain ⟨c', l', -, -, -, hlt⟩ := hd
    exact absurd (Nat.lt_of_lt_of_le hlt hlen) (Nat.not_lt_zero _)
  | cons op ops ih =>
    intro r c l bs t d hi hne hdue hd hops hticks hlen
    obtain ⟨hs, hrest⟩ := hops
    obtain ⟨r₁, c₁, l₁, bs₁, hrun, hi₁, -⟩ := runStep_inv hi hs.1
    have hops₁ := hrest r₁ hrun
    by_cases hsched : ∃ esp now, op = .schedule esp now
    · obtain ⟨esp, now, rfl⟩ := hsched
      rw [ticks_schedule] at hticks hlen
      obtain ⟨hfirst, hlater⟩ := List.pairwise_cons.mp hticks
      have hnow : t ≤ now := hfirst now List.mem_cons_self
      have hdue' : Due r i now :=
        hdue.imp_right fun h => ⟨h.1, UInt64.le_trans h.2 hnow⟩
      cases d with
      | zero =>
        obtain ⟨c', l', -, -, -, hlt⟩ := hd
        exact absurd hlt (Nat.not_lt_zero _)
      | succ d =>
        obtain ⟨hready, hchosen | hcloser⟩ := hi.schedule_within hne hdue' hd hrun
        · refine ⟨[], esp, now, ops, r₁, rfl, ?_, hchosen⟩
          rw [List.nil_append, runOps, hrun]
          rfl
        · rw [List.length_cons] at hlen
          exact (ih hi₁ hne (Or.inl hready) hcloser hops₁ hlater (Nat.le_of_succ_le_succ hlen)).cons
            hrun
    · have hother : ∀ esp now, op ≠ .schedule esp now := fun esp now h => hsched ⟨esp, now, h⟩
      rw [ticks_other hother] at hticks hlen
      have hsame := hi.spared hs hother hrun hdue.alive
      exact (ih hi₁ hne (hdue.kept hsame) (hi.within_kept hs hother hrun hdue.alive hd) hops₁ hticks
        hlen).cons hrun

/-! ## Sleepers sleep -/

/-- Only links change when a task is listed. -/
theorem listInsert_congr {β : Type} (f : Task → β) (hf : ∀ t n, f { t with next := n } = f t)
    (tasks : Slot → Task) (current : Option Slot) (x j : Slot) :
    f (listInsert tasks current x j) = f (tasks j) := by
  cases current with
  | none => exact setTask_congr f (hf _ _) j
  | some c => exact (setTask_congr f (hf _ _) j).trans (setTask_congr f (hf _ _) j)

/-- Starting a task changes no other one. -/
theorem spawn_other {s s' : System} {bootstrap : Nat} {name : List UInt8} {entry arg : Nat}
    {res : Option Slot} (h : taskSpawn s bootstrap name entry arg = some (res, s'))
    (hnew : res ≠ some i) :
    (s'.tasks i).state = (s.tasks i).state ∧ (s'.tasks i).wakeAt = (s.tasks i).wakeAt := by
  rw [taskSpawn] at h
  split at h
  · obtain ⟨-, rfl⟩ := Prod.mk.inj (Option.some.inj h)
    exact ⟨rfl, rfl⟩
  · split at h
    · exact absurd h.symm (Option.some_ne_none _)
    · split at h
      · obtain ⟨-, rfl⟩ := Prod.mk.inj (Option.some.inj h)
        exact ⟨rfl, rfl⟩
      · obtain ⟨rfl, rfl⟩ := Prod.mk.inj (Option.some.inj h)
        have hne : i ≠ _ := fun h => hnew (congrArg some h.symm)
        constructor
        · exact (listInsert_congr Task.state (fun _ _ => rfl) _ _ _ _).trans
            (congrArg Task.state (setTask_other hne))
        · exact (listInsert_congr Task.wakeAt (fun _ _ => rfl) _ _ _ _).trans
            (congrArg Task.wakeAt (setTask_other hne))

/-- A call of `task_schedule` before its time leaves a sleeper asleep. -/
theorem Inv.schedule_dormant (hi : Inv r c idle l bs) {w : UInt64} {esp : Nat} {now : UInt64}
    (hsleep : (r.sys.tasks i).state = .sleeping) (hw : (r.sys.tasks i).wakeAt = w)
    (hnow : now < w) (hrun : runStep r (.schedule esp now) = some r') :
    (r'.sys.tasks i).state = .sleeping ∧ (r'.sys.tasks i).wakeAt = w ∧ r'.sys.current ≠ some i := by
  obtain ⟨tasks', n, hs, heq⟩ := taskSchedule_eq hi esp now
  obtain ⟨ret, s', hsched, hcur, -, -, hstate⟩ := hs.result hi heq
  rw [runStep, hsched] at hrun
  obtain rfl := Option.some.inj hrun
  have hlist : i ∈ c :: l := (hi.mem i).mpr (by rw [hsleep]; exact TaskState.noConfusion)
  have hstays : (tasks' i).state = .sleeping := by
    rw [hs.woken i hlist, wake_state, hw, if_neg fun h => UInt64.not_le.mpr hnow h.2]
    exact hsleep
  refine ⟨(hstate i).1.trans hstays, ((hstate i).2.trans (hs.wakeAt i)).trans hw, ?_⟩
  intro h
  have hn : n = i := Option.some.inj (hcur.symm.trans h)
  have hready := hs.ready
  rw [hn, hstays] at hready
  exact TaskState.noConfusion hready

/-- Before its time comes, a sleeper stays where it is. -/
theorem Inv.dormant (hi : Inv r c idle l bs) {w : UInt64} (hd : Dormant r i w)
    (hs : Leaves i r op) (hop : ∀ esp now, op = .schedule esp now → now < w)
    (hrun : runStep r op = some r') : Dormant r' i w := by
  obtain ⟨ha, hreuse, hs⟩ := hs
  rcases hd with ⟨hsleep, hw⟩ | hgone
  · by_cases hone : OneTask op
    · obtain ⟨-, j, t, htasks, -, htouched⟩ := hi.oneTask hone hrun
      by_cases hij : i = j
      · subst hij
        have hnew : r'.sys.tasks i = t := by rw [htasks, setTask_same]
        cases htouched with
        | kept hstate hwake =>
          rw [← hnew] at hstate hwake
          exact Or.inl ⟨hstate.trans hsleep, hwake.trans hw⟩
        | slept hslept hc =>
          obtain ⟨now, ms, rfl⟩ := hslept
          exact absurd (by rw [hc]; exact hi.current) hs
        | exited _ _ hdead =>
          rw [← hnew] at hdead
          exact Or.inr (Or.inl hdead)
        | killed _ hdead =>
          rw [← hnew] at hdead
          exact Or.inr (Or.inl hdead)
      · refine Or.inl ?_
        rw [htasks, setTask_other hij]
        exact ⟨hsleep, hw⟩
    · cases op with
      | schedule esp now =>
        obtain ⟨hsleep', hw', -⟩ := hi.schedule_dormant hsleep hw (hop esp now rfl) hrun
        exact Or.inl ⟨hsleep', hw'⟩
      | spawn bootstrap name entry arg =>
        rw [runStep] at hrun
        obtain ⟨⟨res, s'⟩, hspawn, rfl⟩ := Option.map_eq_some_iff.mp hrun
        have hnew : res ≠ some i := by
          rintro rfl
          exact hreuse ⟨bootstrap, name, entry, arg, s', rfl, hspawn⟩
        obtain ⟨hstate, hwake⟩ := spawn_other hspawn hnew
        cases res with
        | none => exact Or.inl ⟨hstate.trans hsleep, hwake.trans hw⟩
        | some j => exact Or.inl ⟨hstate.trans hsleep, hwake.trans hw⟩
      | reap =>
        obtain ⟨l', -, -, -, hkept⟩ := hi.reap_ring ha hrun
        obtain ⟨hwake, hstate⟩ := hkept i
        have hsame := hstate.resolve_right fun h => by
          rw [hsleep] at h
          exact TaskState.noConfusion h.1
        exact Or.inl ⟨hsame.trans hsleep, hwake.trans hw⟩
      | _ => exact absurd trivial hone
  · obtain ⟨r₁, c₁, l₁, bs₁, hrun₁, -, hkept⟩ := runStep_inv hi ha
    rw [hrun] at hrun₁
    obtain rfl := Option.some.inj hrun₁
    exact Or.inr (hkept i hgone hreuse).1

/-- Nobody gone is chosen. -/
theorem Inv.schedule_gone (hi : Inv r c idle l bs) {esp : Nat} {now : UInt64} (hgone : Gone r i)
    (hrun : runStep r (.schedule esp now) = some r') : r'.sys.current ≠ some i := by
  obtain ⟨tasks', n, hs, heq⟩ := taskSchedule_eq hi esp now
  obtain ⟨ret, s', hsched, hcur, -, -, -⟩ := hs.result hi heq
  rw [runStep, hsched] at hrun
  obtain rfl := Option.some.inj hrun
  intro h
  have hn : n = i := Option.some.inj (hcur.symm.trans h)
  have hready := hs.ready
  have hawake : (tasks' i).state = (r.sys.tasks i).state := hs.awake i fun h => by
    rw [Gone, h] at hgone
    exact hgone.elim TaskState.noConfusion TaskState.noConfusion
  rw [hn, hawake] at hready
  rw [Gone, hready] at hgone
  exact hgone.elim TaskState.noConfusion TaskState.noConfusion

/-- Over a run whose ticks all come before `w`. -/
theorem dormant_run {ops : List TaskOp} {w : UInt64} : ∀ {r r' : Run} {c : Slot} {l : List Slot}
    {bs : List Blk}, Inv r c idle l bs → Dormant r i w → Along (Leaves i) r ops →
    (∀ now ∈ ticks ops, now < w) → runOps r ops = some r' →
    (∃ c' l' bs', Inv r' c' idle l' bs') ∧ Dormant r' i w := by
  induction ops with
  | nil =>
    intro r r' c l bs hi hd _ _ hrun
    obtain rfl := Option.some.inj hrun
    exact ⟨⟨c, l, bs, hi⟩, hd⟩
  | cons op ops ih =>
    intro r r' c l bs hi hd hops hticks hrun
    obtain ⟨hs, hrest⟩ := hops
    obtain ⟨r₁, c₁, l₁, bs₁, hrun₁, hi₁, -⟩ := runStep_inv hi hs.1
    rw [runOps, hrun₁] at hrun
    have hop : ∀ esp now, op = .schedule esp now → now < w := by
      rintro esp now rfl
      exact hticks now List.mem_cons_self
    have hlater : ∀ now ∈ ticks ops, now < w := by
      intro now hnow
      refine hticks now ?_
      rw [ticks] at hnow ⊢
      exact List.Sublist.subset (List.Sublist.filterMap _ (List.sublist_cons_self op ops)) hnow
    exact ih hi₁ (hi.dormant hd hs hop hrun₁) (hrest r₁ hrun₁) hlater hrun

/-- **A sleeper is not chosen before its time.** -/
theorem Inv.chosen_late (hi : Inv r c idle l bs) (hsleep : (r.sys.tasks i).state = .sleeping)
    {ops : List TaskOp} (hops : Along (Leaves i) r ops) {r₁ r₂ : Run}
    (hrun : runOps r ops = some r₁) {esp : Nat} {now : UInt64}
    (hticks : (ticks ops ++ [now]).Pairwise (· ≤ ·))
    (hlast : runStep r₁ (.schedule esp now) = some r₂) (hcur : r₂.sys.current = some i) :
    (r.sys.tasks i).wakeAt ≤ now := by
  by_contra hnot
  have hnow : now < (r.sys.tasks i).wakeAt := UInt64.not_le.mp hnot
  have hbefore : ∀ t ∈ ticks ops, t < (r.sys.tasks i).wakeAt := fun t ht =>
    UInt64.lt_of_le_of_lt
      ((List.pairwise_append.mp hticks).2.2 t ht now (List.mem_singleton_self now)) hnow
  obtain ⟨⟨c₁, l₁, bs₁, hi₁⟩, ⟨hsleep₁, hw⟩ | hgone⟩ :=
    dormant_run hi (Or.inl ⟨hsleep, rfl⟩) hops hbefore hrun
  · exact (hi₁.schedule_dormant hsleep₁ hw hnow hlast).2.2 hcur
  · exact hi₁.schedule_gone hgone hlast hcur

/-! ## The result -/

/-- What round robin with sleeping promises in a state. -/
def Fair (r : Run) : Prop :=
  (∀ esp now, ∃ ret s', taskSchedule r.sys esp now = some (ret, s') ∧
    (s'.current = s'.idle → ∀ i, some i ≠ s'.idle → (s'.tasks i).state ≠ .ready)) ∧
  (∀ i t ops, some i ≠ r.sys.idle → Due r i t → Along (Spares i) r ops →
    (t :: ticks ops).Pairwise (· ≤ ·) → (ticks ops).length = taskCount r.sys → Chosen r i ops) ∧
  ∀ i ops r₁ esp now r₂, some i ≠ r.sys.idle → (r.sys.tasks i).state = .sleeping →
    Along (Leaves i) r ops → runOps r ops = some r₁ → (ticks ops ++ [now]).Pairwise (· ≤ ·) →
    runStep r₁ (.schedule esp now) = some r₂ → r₂.sys.current = some i →
    (r.sys.tasks i).wakeAt ≤ now

/-- **Scheduling is fair**: in every reachable state a task that can run is chosen within as many
calls as there are tasks, the idle task runs only when nobody else can, and sleepers sleep. -/
theorem schedule_fair {mem : ByteMemory.Memory} {src : List E820Entry} {r : Run} (hr : Reach mem src r) :
    Fair r := by
  obtain ⟨c, idle, l, bs, hi⟩ := reach_inv hr
  refine ⟨hi.idle_last, ?_, ?_⟩
  · intro i t ops hne hdue hops hticks hlen
    have hne' : i ≠ idle := fun h => hne (by rw [h, hi.idle_eq])
    exact chosen_within hi hne' hdue (hi.within hdue.listed) hops hticks (Nat.le_of_eq hlen.symm)
  · intro i ops r₁ esp now r₂ _ hsleep hops hrun hticks hlast hcur
    exact hi.chosen_late hsleep hops hrun hticks hlast hcur

/-- Once the session is started, it can run and does not wait. -/
theorem schedule_fair_session :
    ∃ r, runStep bootRun (.spawn 0x10000 (CString.ofString "session") 0 0) = some r ∧
      (r.sys.tasks ⟨1, by decide⟩).state = .ready ∧ taskCount r.sys = 2 ∧ Fair r := by
  have hstep : runStep bootRun (.spawn 0x10000 (CString.ofString "session") 0 0) = some _ := rfl
  have hallowed : Allowed bootRun (.spawn 0x10000 (CString.ofString "session") 0 0) := by
    intro c hc
    obtain rfl : (⟨0, by decide⟩ : Slot) = c := Option.some.inj hc
    exact TaskState.noConfusion
  exact ⟨_, hstep, by decide, by decide, schedule_fair (bootRun_reach.step hallowed hstep)⟩

end LightningOS.Sched
