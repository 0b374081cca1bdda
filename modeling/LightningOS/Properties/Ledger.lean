import LightningOS.Properties.Switch

/-!
# Accounting

The timer charges each tick to the task that it interrupts, and `task_schedule` counts the
turns of the task that it goes on with. Over the life of a task, from `task_spawn` on, the two
counters are exact, whatever happens to the other tasks.
-/

namespace LightningOS.Sched

open ByteMemory Mem

variable {b : BootStack} {m m' : Machine} {c idle i : Slot} {l : List Slot} {bs : List BlockList.Blk}

/-- The ticks that an event charges to slot `i`. -/
def charged (i : Slot) (m : Machine) : Event → UInt64
  | .interrupt (.irq 0) _ => if m.run.sys.current = some i then 1 else 0
  | _ => 0

/-- The turns that slot `i` gets from one state to the next. -/
def turns (i : Slot) (m m' : Machine) : UInt64 :=
  if m'.run.sys.current = some i ∧ m'.run.sys.current ≠ m.run.sys.current then 1 else 0

theorem handled_cpuTicks {r : Run} (hst : r.sys.started = true) (hcur : r.sys.current = some c)
    (v : Vector) (i : Slot) : ((handled r v).sys.tasks i).cpuTicks =
      (r.sys.tasks i).cpuTicks + if v = .irq 0 ∧ c = i then 1 else 0 := by
  unfold handled
  split
  next hv =>
    show ((taskAccountTick r.sys).tasks i).cpuTicks = _
    simp only [taskAccountTick, hst, hcur]
    by_cases hi : i = c
    · rw [hi, setTask_same, if_pos ⟨hv, rfl⟩]
    · rw [setTask_other hi, if_neg fun h => hi h.2.symm]
      simp
  next hv =>
    rw [if_neg fun h => hv h.1]
    simp

theorem wake_cpuTicks (now : UInt64) (t : Task) : (wake now t).cpuTicks = t.cpuTicks := by
  unfold wake
  split <;> rfl

theorem handled_switches (r : Run) (v : Vector) (i : Slot) :
    ((handled r v).sys.tasks i).switches = (r.sys.tasks i).switches := by
  unfold handled
  split
  · show ((taskAccountTick r.sys).tasks i).switches = _
    unfold taskAccountTick
    split
    · exact setTask_congr Task.switches (by rfl) i
    · rfl
  · rfl

/-- An interrupt charges the task that it hits, and counts the turn of the next one. -/
theorem MachineInv.interrupt_record (hm : MachineInv b m c idle l bs) {v : Vector} {left : Memory}
    (hs : Sched.step m (.interrupt v left) = some m') (i : Slot) :
    (m'.run.sys.tasks i).cpuTicks =
        (m.run.sys.tasks i).cpuTicks + charged i m (.interrupt v left) ∧
      (m'.run.sys.tasks i).switches = (m.run.sys.tasks i).switches + turns i m m' := by
  have hi := hm.sched
  obtain ⟨res, hint, rfl⟩ := Option.map_eq_some_iff.mp hs
  obtain ⟨⟨ret, k⟩, hdisp, rfl⟩ := Option.map_eq_some_iff.mp hint
  have heq : dispatch { sys := (m.run.setMem left).sys, ticks := m.ticks } v
      ((Core.deliver { cpu := m.cpu, mem := m.kernel.sys.heap.mem } v).word 0).toNat = _ := dispatch_eq
  rw [show dispatch { sys := (m.run.setMem left).sys, ticks := m.ticks } v _ = some (ret, k) from
    hdisp] at heq
  obtain ⟨⟨ret', s'⟩, hsched, hk⟩ := Option.map_eq_some_iff.mp heq.symm
  obtain ⟨rfl, rfl⟩ := Prod.mk.inj hk
  have hcur : (handled (m.run.setMem left) v).sys.current = m.run.sys.current := by
    unfold handled
    split
    · show (taskAccountTick (m.run.setMem left).sys).current = _
      unfold taskAccountTick
      split <;> rfl
    · rfl
  have hcharge : charged i m (.interrupt v left) = if v = .irq 0 ∧ c = i then 1 else 0 := by
    unfold charged
    split
    next h =>
      obtain ⟨rfl, -⟩ := Event.interrupt.inj h
      simp only [hi.current, Option.some.injEq, true_and]
    next h =>
      exact (if_neg fun hv => h left (by rw [hv.1])).symm
  refine ⟨?_, ?_⟩
  · rw [hcharge]
    exact (taskSchedule_congr Task.cpuTicks (fun _ _ => rfl) (wake_cpuTicks _) (fun _ _ => rfl)
      hsched i).trans (handled_cpuTicks (r := m.run.setMem left) hi.started hi.current v i)
  · have h := taskSchedule_switches hsched i
    rw [handled_switches, hcur] at h
    exact h

/-- **One event of the life of a task.** -/
theorem MachineInv.step_record (hm : MachineInv b m c idle l bs) {e : Event}
    (ha : MayHappen b m e) (hs : Sched.step m e = some m')
    (h1 : (m.run.sys.tasks i).state ≠ .unused) (h2 : (m'.run.sys.tasks i).state ≠ .unused) :
    (m'.run.sys.tasks i).who = (m.run.sys.tasks i).who ∧
      (m'.run.sys.tasks i).cpuTicks = (m.run.sys.tasks i).cpuTicks + charged i m e ∧
      (m'.run.sys.tasks i).switches = (m.run.sys.tasks i).switches + turns i m m' := by
  have hi := hm.sched
  cases e with
  | op op =>
    obtain ⟨r', hrun, rfl⟩ := Option.map_eq_some_iff.mp hs
    have hk := hi.op_kept ha.1 ha.2.1 hrun
    have hrec := (hk.tasks i h1 h2).record
    have hturns : turns i m { m with run := r' } = 0 := if_neg fun h => h.2 hk.current
    rw [hturns]
    refine ⟨congrArg Prod.fst hrec, ?_, ?_⟩
    · exact (congrArg (fun w => w.2.1) hrec).trans (UInt64.add_zero _).symm
    · exact (congrArg (fun w => w.2.2) hrec).trans (UInt64.add_zero _).symm
  | work cpu mem =>
    obtain rfl := Option.some.inj hs
    have hturns : turns i m { m with run := m.run.setMem mem, cpu := cpu } = 0 :=
      if_neg fun h => h.2 rfl
    rw [hturns]
    exact ⟨rfl, (UInt64.add_zero _).symm, (UInt64.add_zero _).symm⟩
  | interrupt v left =>
    obtain ⟨m'', n, hs', h⟩ := hm.interrupted ha
    rw [hs] at hs'
    obtain rfl := Option.some.inj hs'
    exact ⟨h.who i, hm.interrupt_record hs i⟩

/--
The life of a task from `m` on: a continuation in which its slot is not reaped, with the ticks
that it was charged and the turns that it got.
-/
inductive Life (b : BootStack) (i : Slot) (m : Machine) : UInt64 → UInt64 → Machine → Prop
  | start : Life b i m 0 0 m
  | step {m₁ m₂ : Machine} {e : Event} {t k : UInt64} : Life b i m t k m₁ → MayHappen b m₁ e →
      step m₁ e = some m₂ → (m₂.run.sys.tasks i).state ≠ .unused →
      Life b i m (t + charged i m₁ e) (k + turns i m₁ m₂) m₂

theorem MachineInv.life (hm : MachineInv b m c idle l bs)
    (hlist : (m.run.sys.tasks i).state ≠ .unused) {t k : UInt64} (hl : Life b i m t k m') :
    (∃ c' l' bs', MachineInv b m' c' idle l' bs') ∧ (m'.run.sys.tasks i).state ≠ .unused ∧
      (m'.run.sys.tasks i).who = (m.run.sys.tasks i).who ∧
      (m'.run.sys.tasks i).cpuTicks = (m.run.sys.tasks i).cpuTicks + t ∧
      (m'.run.sys.tasks i).switches = (m.run.sys.tasks i).switches + k := by
  induction hl with
  | start => exact ⟨⟨c, l, bs, hm⟩, hlist, rfl, (UInt64.add_zero _).symm, (UInt64.add_zero _).symm⟩
  | step _ hmay hs hlist' ih =>
    obtain ⟨⟨c₁, l₁, bs₁, hm₁⟩, hlist₁, hwho, hticks, hturns⟩ := ih
    obtain ⟨m₂, hs₂, hinv, -⟩ := hm₁.step hmay
    rw [hs] at hs₂
    obtain rfl := Option.some.inj hs₂
    obtain ⟨h1, h2, h3⟩ := hm₁.step_record hmay hs hlist₁ hlist'
    refine ⟨hinv, hlist', h1.trans hwho, ?_, ?_⟩
    · rw [h2, hticks, UInt64.add_assoc]
    · rw [h3, hturns, UInt64.add_assoc]

/--
**The accounts of a task are exact.** From the call of `task_spawn` until its slot is reaped,
the ticks of a task are the timer interrupts that hit it, and its switches are the turns
that it got, one for each time the processor came to it from another task. It also keeps the
number and the name that it was given.
-/
theorem accounting_exact {mem : Memory} {src : List E820Entry} {bootstrap entry arg : Nat}
    {name : List UInt8} {s' : System} {m₁ m₂ : Machine} {t k : UInt64}
    (hr : MachineReach b mem src m) (ha : MayHappen b m (.op (.spawn bootstrap name entry arg)))
    (hspawn : taskSpawn m.run.sys bootstrap name entry arg = some (some i, s'))
    (hs : step m (.op (.spawn bootstrap name entry arg)) = some m₁) (hl : Life b i m₁ t k m₂) :
    (m₂.run.sys.tasks i).cpuTicks = t ∧ (m₂.run.sys.tasks i).switches = k ∧
      (m₂.run.sys.tasks i).id = m.run.sys.nextId + 1 ∧
      (m₂.run.sys.tasks i).name = CString.strncpy name (taskNameMax - 1) ++ [0] := by
  obtain ⟨c, idle, l, bs, hm⟩ := machine_reach_inv hr
  obtain ⟨m₁', hs', ⟨c₁, l₁, bs₁, hm₁⟩, -⟩ := hm.step ha
  rw [hs] at hs'
  obtain rfl := Option.some.inj hs'
  obtain ⟨r', hrun, rfl⟩ := Option.map_eq_some_iff.mp hs
  obtain ⟨-, hrec, hready, -⟩ := spawned hspawn hrun
  have hlist₁ : (r'.sys.tasks i).state ≠ .unused := by
    rw [hready]
    exact TaskState.noConfusion
  obtain ⟨-, -, hwho, hticks, hturns⟩ := hm₁.life hlist₁ hl
  have hwho' := hwho.trans (congrArg Prod.fst hrec)
  have hzero : (r'.sys.tasks i).cpuTicks = 0 := congrArg (fun w => w.2.1) hrec
  have hzero' : (r'.sys.tasks i).switches = 0 := congrArg (fun w => w.2.2) hrec
  refine ⟨?_, ?_, congrArg (fun w => w.1) hwho', congrArg (fun w => w.2.1) hwho'⟩
  · rw [hticks]
    exact (congrArg (· + t) hzero).trans (UInt64.zero_add t)
  · rw [hturns]
    exact (congrArg (· + k) hzero').trans (UInt64.zero_add k)

/-- The session after its first turn, at the end of which it sleeps. -/
theorem accounting_exact_session :
    ∃ m m₁ m₂ m₃, awayAndBack = some (m, m₁, m₂, m₃) ∧
      (m₁.run.sys.tasks ⟨1, by decide⟩).cpuTicks = 0 ∧
      (m₁.run.sys.tasks ⟨1, by decide⟩).switches = 1 := by
  obtain ⟨ms, hall, hviews⟩ := Option.map_eq_some_iff.mp awayAndBack_views
  obtain ⟨m, hs, hrest⟩ := Option.bind_eq_some_iff.mp hall
  obtain ⟨m₁, hs₁, hrest⟩ := Option.bind_eq_some_iff.mp hrest
  obtain ⟨m₂, hs₂, hrest⟩ := Option.bind_eq_some_iff.mp hrest
  obtain ⟨m₃, hs₃, rfl⟩ := Option.map_eq_some_iff.mp hrest
  obtain ⟨hv, hviews⟩ := List.cons.inj hviews
  obtain ⟨hv₁, -⟩ := List.cons.inj hviews
  have hcur : m.run.sys.current = some ⟨0, by decide⟩ := congrArg View.current hv
  have hcur₁ : m₁.run.sys.current = some ⟨1, by decide⟩ := congrArg View.current hv₁
  have hready₁ : (m₁.run.sys.tasks ⟨1, by decide⟩).state = .ready := congrArg View.state hv₁
  have hflags : m.cpu.eflags = 0x202 := congrArg View.eflags hv
  have ha : MayHappen bootStack m (.interrupt (.irq 0) (undisturbed m (.irq 0))) :=
    mayHappen_undisturbed (by rw [hflags]; decide)
  have hspawn : taskSpawn bootMachine.run.sys 0x10000 (CString.ofString "session") 0 0 =
      some (some ⟨1, by decide⟩, _) := rfl
  have hlife := (Life.start (b := bootStack) (i := ⟨1, by decide⟩)).step ha hs₁
    (by rw [hready₁]; exact TaskState.noConfusion)
  obtain ⟨hticks, hturns, -⟩ :=
    accounting_exact bootMachine_reach sessionMachine_may hspawn hs hlife
  refine ⟨m, m₁, m₂, m₃, hall, hticks.trans ?_, hturns.trans ?_⟩
  · simp only [charged, hcur]
    decide
  · simp only [turns, hcur, hcur₁]
    decide

end LightningOS.Sched
