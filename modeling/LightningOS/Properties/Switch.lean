import LightningOS.Properties.Effects
import LightningOS.Properties.Frame

/-!
# Preemption

The machine runs one task at a time. The current task computes, asks the kernel for
something, or is interrupted, and an interrupt may go on with another task. `MachineInv` says
that every other task has a whole frame on its own stack. Nothing that happens meanwhile
writes there, so a task cannot tell that it was away.

The tasks share one memory. What they promise each other is to write only where the kernel
lets them: on their own stack, in payloads that are not stacks, and outside of the heap.
-/

namespace LightningOS.Sched

open ByteMemory BlockList Mem Ring WordStack

/-! ## The machine -/

/-- The stack that the boot code runs on, and later the idle task. It lies below the heap. -/
structure BootStack where
  lo : Nat
  hi : Nat
  below : hi ≤ heapBase

/-- The scheduler in a run, the processor, and the clock. -/
structure Machine where
  run : Run
  cpu : Cpu
  ticks : UInt64

def Machine.kernel (m : Machine) : Kernel := { sys := m.run.sys, ticks := m.ticks }

def Machine.mem (m : Machine) : Memory := m.run.sys.heap.mem

/-- The lowest address of the stack of slot `i`. -/
def stackLo (b : BootStack) (s : System) (i : Slot) : Nat :=
  if s.idle = some i then b.lo else (s.tasks i).stack

/-- The address behind the stack of slot `i`. -/
def stackHi (b : BootStack) (s : System) (i : Slot) : Nat :=
  if s.idle = some i then b.hi else (s.tasks i).stack + taskStackSize

/-- The address `x` is on the stack of slot `i`. -/
def OnStack (b : BootStack) (s : System) (i : Slot) (x : Nat) : Prop :=
  stackLo b s i ≤ x ∧ x < stackHi b s i

/-- An interrupt at this stack pointer fits on the stack of slot `i`. -/
def Roomy (b : BootStack) (s : System) (i : Slot) (esp : Nat) : Prop :=
  stackLo b s i + 64 ≤ esp ∧ esp ≤ stackHi b s i

/-- Where the task in slot `c` may write. -/
def Mine (b : BootStack) (r : Run) (c : Slot) (x : Nat) : Prop :=
  OnStack b r.sys c x ∨
  (∃ p ∈ r.live, InPayload r.sys.heap p x ∧
    ∀ i, (r.sys.tasks i).state ≠ .unused → (r.sys.tasks i).stack ≠ p) ∨
  (¬(b.lo ≤ x ∧ x < b.hi) ∧ ¬(heapBase ≤ x ∧ x < heapBase + r.sys.heap.heapSize))

inductive Event where
  /-- the current task calls the kernel -/
  | op (op : TaskOp)
  /-- the current task computes -/
  | work (cpu : Cpu) (mem : Memory)
  /-- an interrupt, and the memory as the code of its handler leaves it -/
  | interrupt (v : Vector) (left : Memory)

def interruptFlag : UInt32 := 0x200

/-- The frame that an interrupt leaves at this stack pointer. -/
def frameAt (esp : Nat) : Nat := esp - sizeofBootFrame

/-- When an event can happen. -/
def MayHappen (b : BootStack) (m : Machine) : Event → Prop
  | .op op => Calls op ∧ Allowed m.run op ∧ ∀ now ms, op = .sleep now ms → now = m.ticks
  | .work cpu mem => ∀ c, m.run.sys.current = some c → Roomy b m.run.sys c cpu.esp ∧
      ∀ x, ¬Mine b m.run c x → mem x = m.mem x
  | .interrupt v left =>
      (∀ n, v = .irq n → m.cpu.eflags &&& interruptFlag ≠ 0) ∧
      -- the handler works on the interrupted stack, below the frame
      ∀ c, m.run.sys.current = some c →
        ∀ x, ¬Mine b m.run c x ∨ (frameAt m.cpu.esp ≤ x ∧ x < stackHi b m.run.sys c) →
          left x = (Core.deliver { cpu := m.cpu, mem := m.mem } v).mem x

def Run.setMem (r : Run) (mem : Memory) : Run :=
  { r with sys := { r.sys with heap := { r.sys.heap with mem := mem } } }

/-- One event. `none` is a panic or a walk that does not end. -/
def step (m : Machine) : Event → Option Machine
  | .op op => (runStep m.run op).map fun r => { m with run := r }
  | .work cpu mem => some { m with run := m.run.setMem mem, cpu := cpu }
  | .interrupt v left =>
    (interrupt m.kernel m.cpu v left).map fun res =>
      { run := { m.run with
          sys := res.1.sys
          saved := fun j =>
            if m.run.sys.current = some j ∧ res.1.sys.current ≠ m.run.sys.current then
              frameAt m.cpu.esp
            else m.run.saved j }
        cpu := res.2
        ticks := res.1.ticks }

/-- The scheduler and the stack pointers fit together. -/
structure MachineInv (b : BootStack) (m : Machine) (c idle : Slot) (l : List Slot)
    (bs : List Blk) : Prop where
  sched : Inv m.run c idle l bs
  roomy : Roomy b m.run.sys c m.cpu.esp
  parked : ∀ i, (m.run.sys.tasks i).state ≠ .unused → i ≠ c →
    Roomy b m.run.sys i (m.run.saved i + sizeofBootFrame)

variable {b : BootStack} {m m' : Machine} {r r' : Run} {c idle i : Slot} {l : List Slot}
  {bs : List Blk}

/-! ## Stacks lie apart -/

theorem Inv.stackLo_idle (hi : Inv r c idle l bs) : stackLo b r.sys idle = b.lo :=
  if_pos hi.idle_eq

theorem Inv.stackHi_idle (hi : Inv r c idle l bs) : stackHi b r.sys idle = b.hi :=
  if_pos hi.idle_eq

theorem Inv.stackLo_other (hi : Inv r c idle l bs) (hne : i ≠ idle) :
    stackLo b r.sys i = (r.sys.tasks i).stack :=
  if_neg fun h => hne (Option.some.inj (hi.idle_eq.symm.trans h)).symm

theorem Inv.stackHi_other (hi : Inv r c idle l bs) (hne : i ≠ idle) :
    stackHi b r.sys i = (r.sys.tasks i).stack + taskStackSize :=
  if_neg fun h => hne (Option.some.inj (hi.idle_eq.symm.trans h)).symm

/-- A stack that is not the boot stack is part of a live payload. -/
theorem Inv.onStack_payload (hi : Inv r c idle l bs) (hlist : (r.sys.tasks i).state ≠ .unused)
    (hne : i ≠ idle) {x : Nat} (hx : OnStack b r.sys i x) :
    (r.sys.tasks i).stack ∈ r.live ∧ InPayload r.sys.heap (r.sys.tasks i).stack x := by
  obtain ⟨hlive, hsize⟩ := hi.stack i hlist hne
  unfold OnStack at hx
  rw [hi.stackLo_other hne, hi.stackHi_other hne] at hx
  exact ⟨hlive, hx.1, by omega⟩

theorem Inv.onStack_boot (hi : Inv r c idle l bs) {x : Nat} (hx : OnStack b r.sys idle x) :
    b.lo ≤ x ∧ x < b.hi := by
  unfold OnStack at hx
  rwa [hi.stackLo_idle, hi.stackHi_idle] at hx

/-- **No two tasks share a byte of their stacks.** -/
theorem Inv.stacks_apart (hi : Inv r c idle l bs) {i j : Slot}
    (hlist : (r.sys.tasks i).state ≠ .unused) (hlist' : (r.sys.tasks j).state ≠ .unused)
    (hne : i ≠ j) {x : Nat} (hx : OnStack b r.sys i x) : ¬OnStack b r.sys j x := by
  intro hy
  have hboot : ∀ k, (r.sys.tasks k).state ≠ .unused → k ≠ idle → OnStack b r.sys k x →
      OnStack b r.sys idle x → False := by
    intro k h1 h2 h3 h4
    obtain ⟨hlive, hin⟩ := hi.onStack_payload h1 h2 h3
    have h5 := (hi.heap.payload_in hlive hin).1
    have h6 := (hi.onStack_boot h4).2
    have h7 := b.below
    omega
  by_cases h1 : i = idle <;> by_cases h2 : j = idle
  · exact hne (h1.trans h2.symm)
  · exact hboot j hlist' h2 hy (h1 ▸ hx)
  · exact hboot i hlist h1 hx (h2 ▸ hy)
  · obtain ⟨hlive, hin⟩ := hi.onStack_payload hlist h1 hx
    obtain ⟨hlive', hin'⟩ := hi.onStack_payload hlist' h2 hy
    exact hi.heap.payload_disjoint hlive hlive'
      (fun he => hne (hi.inj i j hlist h1 hlist' h2 he)) hin hin'

/-- What a task may write is on no other task's stack. -/
theorem Inv.mine_apart (hi : Inv r c idle l bs) {j : Slot} {x : Nat} (hx : Mine b r c x)
    (hlist : (r.sys.tasks j).state ≠ .unused) (hne : j ≠ c) : ¬OnStack b r.sys j x := by
  intro hy
  rcases hx with hx | ⟨p, hp, hin, hno⟩ | ⟨hboot, hheap⟩
  · exact hi.stacks_apart hi.current_listed hlist hne.symm hx hy
  · by_cases h : j = idle
    · have h5 := (hi.heap.payload_in hp hin).1
      have h6 := (hi.onStack_boot (h ▸ hy)).2
      have h7 := b.below
      omega
    · obtain ⟨hlive, hin'⟩ := hi.onStack_payload hlist h hy
      exact hi.heap.payload_disjoint hp hlive (hno j hlist).symm hin hin'
  · by_cases h : j = idle
    · exact hboot (hi.onStack_boot (h ▸ hy))
    · obtain ⟨hlive, hin⟩ := hi.onStack_payload hlist h hy
      exact hheap (hi.heap.payload_in hlive hin)

/-- Nor is it in a header of the heap. -/
theorem Inv.mine_offHeaders (hi : Inv r c idle l bs) {x : Nat} (hx : Mine b r c x) :
    OffHeaders bs x := by
  have hr := hi.heap.represents
  rcases hx with hx | ⟨p, hp, hin, -⟩ | ⟨-, hheap⟩
  · by_cases h : c = idle
    · have h6 := (hi.onStack_boot (h ▸ hx)).2
      exact hr.below (Nat.lt_of_lt_of_le h6 b.below)
    · obtain ⟨hlive, hin⟩ := hi.onStack_payload hi.current_listed h hx
      exact hi.heap.payload_offHeaders hlive hin
  · exact hi.heap.payload_offHeaders hp hin
  · intro d hd
    have := hr.tiles.mem_bounds hd
    simp only [sizeofBlock, Blk.stop] at this
    have hsz : r.heapState.heap.heapSize = r.sys.heap.heapSize := rfl
    omega

/-! ## A switch -/

/-- A change of memory that spares the headers. -/
theorem Inv.setMem (hi : Inv r c idle l bs) {mem : Memory}
    (hm : ∀ x, ¬OffHeaders bs x → mem x = r.sys.heap.mem x) : Inv (r.setMem mem) c idle l bs := by
  obtain ⟨hheap, hsize⟩ := hi.heap.rewrite hm
  refine ⟨hi.started, hi.current, hi.idle_eq, hi.ring, hi.mem, hi.idle_ready, hheap,
    fun i h1 h2 => ?_, hi.inj, hi.esp, hi.esp_in⟩
  obtain ⟨hlive, hsz⟩ := hi.stack i h1 h2
  exact ⟨hlive, hsz.trans_eq (hsize _ hlive).symm⟩

/-- A run in which stacks and memory are where they were, and the slots in use too. -/
structure SameStacks (r r' : Run) : Prop where
  idle : r'.sys.idle = r.sys.idle
  mem : r'.sys.heap.mem = r.sys.heap.mem
  stack : ∀ i, (r'.sys.tasks i).stack = (r.sys.tasks i).stack
  unused : ∀ i, (r'.sys.tasks i).state = .unused ↔ (r.sys.tasks i).state = .unused

/-- The dispatcher returns the frame it was given, or the one that the next task was left with. -/
theorem Inv.schedule_spec (hi : Inv r c idle l bs) {f : Nat} {now : UInt64}
    (ha : Allowed r (.schedule f now)) :
    ∃ ret r' n l' bs', taskSchedule r.sys f now = some (ret, r'.sys) ∧ Inv r' n idle l' bs' ∧
      SameStacks r r' ∧ (r'.sys.tasks n).state = .ready ∧ ret = (if n = c then f else r.saved n) ∧
      r' = { r with
        sys := r'.sys
        saved := fun j => if r.sys.current = some j ∧ r'.sys.current ≠ r.sys.current then f
          else r.saved j } := by
  obtain ⟨tasks', n, hs, heq⟩ := taskSchedule_eq hi f now
  obtain ⟨r', c', l', bs', hrun, hi', -⟩ := schedule_step hi ha
  rw [runStep, heq] at hrun
  obtain rfl := Option.some.inj hrun
  have hready := hs.ready
  have hret : n ≠ c → (tasks' n).esp = r.saved n := fun hne =>
    (hs.retasked.esp n hne).trans (hi.esp n ((hi.mem n).mp hs.mem) hne)
  by_cases hn : n = c
  · subst hn
    simp only [if_true] at heq hi' ⊢
    obtain rfl : n = c' := Option.some.inj (hi.current.symm.trans hi'.current)
    exact ⟨_, _, _, l', bs', heq, hi', ⟨rfl, rfl, hs.retasked.stack, hs.retasked.unused⟩, hready,
      (if_pos rfl).symm, rfl⟩
  · simp only [if_neg hn] at heq hi' ⊢
    obtain rfl : n = c' := Option.some.inj hi'.current
    refine ⟨_, _, _, l', bs', heq, hi', ⟨rfl, rfl, fun i => ?_, fun i => ?_⟩, ?_, ?_, rfl⟩
    · exact (setTask_congr Task.stack (by rfl) i).trans (hs.retasked.stack i)
    · show (setTask tasks' n _ i).state = .unused ↔ _
      rw [setTask_congr Task.state (by rfl), hs.retasked.unused]
    · exact (setTask_congr Task.state (by rfl) n).trans hready
    · rw [hret hn, if_neg hn]

/-- The timer's handler. -/
theorem Inv.tick_spec (hi : Inv r c idle l bs) :
    Inv { r with sys := taskAccountTick r.sys } c idle l bs ∧
      SameStacks r { r with sys := taskAccountTick r.sys } := by
  let t := { r.sys.tasks c with cpuTicks := (r.sys.tasks c).cpuTicks + 1 }
  have heq : taskAccountTick r.sys = { r.sys with tasks := setTask r.sys.tasks c t } := by
    simp only [taskAccountTick, hi.started, hi.current, t]
  have ht : Retasked c r.sys.tasks (setTask r.sys.tasks c t) :=
    retasked_setTask rfl rfl Iff.rfl fun _ => rfl
  rw [heq]
  exact ⟨hi.retask ht ((setTask_congr Task.state (by rfl) idle).trans hi.idle_ready),
    ⟨rfl, rfl, ht.stack, ht.unused⟩⟩

/-- The run when the dispatcher asks for the next task. -/
def handled (r : Run) (v : Vector) : Run :=
  if v = .timer then { r with sys := taskAccountTick r.sys } else r

theorem Inv.handled_spec (hi : Inv r c idle l bs) (v : Vector) :
    Inv (handled r v) c idle l bs ∧ SameStacks r (handled r v) ∧ (handled r v).live = r.live ∧
      (handled r v).saved = r.saved := by
  unfold handled
  split
  · exact ⟨hi.tick_spec.1, hi.tick_spec.2, rfl, rfl⟩
  · exact ⟨hi, ⟨rfl, rfl, fun _ => rfl, fun _ => Iff.rfl⟩, rfl, rfl⟩

theorem handled_who (r : Run) (v : Vector) (i : Slot) :
    ((handled r v).sys.tasks i).who = (r.sys.tasks i).who := by
  unfold handled
  split
  · exact taskAccountTick_who r.sys i
  · rfl

theorem dispatch_eq {ticks : UInt64} {v : Vector} {f : Nat} :
    dispatch { sys := r.sys, ticks := ticks } v f =
      (taskSchedule (handled r v).sys f (if v = .irq 0 then ticks + 1 else ticks)).map fun res =>
        (res.1, { sys := res.2, ticks := if v = .irq 0 then ticks + 1 else ticks }) := by
  cases v with
  | yield => rfl
  | irq n =>
    by_cases hn : n = 0
    · rw [hn]
      rfl
    · have hv : Vector.irq n ≠ .irq 0 := fun h => hn (Vector.irq.inj h)
      simp only [dispatch, irqHandler, handled, if_neg hn, if_neg hv]

theorem Inv.stackHi_lt (hi : Inv r c idle l bs) (hlist : (r.sys.tasks i).state ≠ .unused) :
    stackHi b r.sys i < 4294967296 := by
  have hb := b.below
  have hmax : heapBase + heapMaxSize < 4294967296 := by decide
  by_cases h : i = idle
  · rw [h, hi.stackHi_idle]
    omega
  · rw [hi.stackHi_other h]
    obtain ⟨hlive, hsize⟩ := hi.stack i hlist h
    have h3 := (hi.heap.payload_bounds hlive).2.2
    have h4 : blkSize r.heapState.heap.mem ((r.sys.tasks i).stack - sizeofBlock) =
      blkSize r.sys.heap.mem ((r.sys.tasks i).stack - sizeofBlock) := rfl
    omega

/-- What an interrupt makes of the machine. -/
structure Interrupted (b : BootStack) (m : Machine) (left : Memory) (c idle n : Slot)
    (m' : Machine) : Prop where
  inv : ∃ l' bs', Inv m'.run n idle l' bs'
  mem : m'.mem = left
  idle_eq : m'.run.sys.idle = m.run.sys.idle
  stack : ∀ i, (m'.run.sys.tasks i).stack = (m.run.sys.tasks i).stack
  unused : ∀ i, (m'.run.sys.tasks i).state = .unused ↔ (m.run.sys.tasks i).state = .unused
  who : ∀ i, (m'.run.sys.tasks i).who = (m.run.sys.tasks i).who
  saved : ∀ j, m'.run.saved j = if j = c ∧ n ≠ c then frameAt m.cpu.esp else m.run.saved j
  same : n = c → m'.cpu = m.cpu.resumed
  other : n ≠ c → m'.cpu = poppedCpu left (m.run.saved n)

theorem MachineInv.esp_bounds (hm : MachineInv b m c idle l bs) :
    60 ≤ m.cpu.esp ∧ m.cpu.esp < 4294967296 := by
  have hlo := hm.roomy.1
  have hhi := hm.roomy.2
  have hlt := hm.sched.stackHi_lt (b := b) hm.sched.current_listed
  omega

/-- An interrupt and its handler write where the current task may. -/
theorem MachineInv.left_other (hm : MachineInv b m c idle l bs) {v : Vector} {left : Memory}
    (ha : MayHappen b m (.interrupt v left)) {x : Nat} (hx : ¬Mine b m.run c x) :
    left x = m.mem x := by
  obtain ⟨h60, hesp⟩ := hm.esp_bounds
  have hlo := hm.roomy.1
  have hhi := hm.roomy.2
  rw [ha.2 c hm.sched.current x (Or.inl hx)]
  refine deliver_other h60 hesp (Decidable.byContradiction fun hin => hx (Or.inl ?_))
  show stackLo b m.run.sys c ≤ x ∧ x < stackHi b m.run.sys c
  dsimp only at hin
  omega

theorem MachineInv.interrupted (hm : MachineInv b m c idle l bs) {v : Vector} {left : Memory}
    (ha : MayHappen b m (.interrupt v left)) :
    ∃ m' n, step m (.interrupt v left) = some m' ∧ Interrupted b m left c idle n m' := by
  have hi := hm.sched
  have hleft := ha.2 c hi.current
  have hlo := hm.roomy.1
  have hhi := hm.roomy.2
  obtain ⟨h60, hesp⟩ := hm.esp_bounds
  have hi₁ : Inv (m.run.setMem left) c idle l bs :=
    hi.setMem fun x hx => hm.left_other ha fun hmine => hx (hi.mine_offHeaders hmine)
  obtain ⟨hi₂, hsame, hlive, hsaved⟩ := hi₁.handled_spec v
  have hreg : ((Core.deliver { cpu := m.cpu, mem := m.mem } v).word 0).toNat =
      frameAt m.cpu.esp := deliver_argument h60 hesp
  have hallow : Allowed (handled (m.run.setMem left) v)
      (.schedule (frameAt m.cpu.esp) (if v = .irq 0 then m.ticks + 1 else m.ticks)) := by
    intro k hk hne
    obtain rfl : c = k := Option.some.inj (hi₂.current.symm.trans hk)
    rw [hi₂.idle_eq] at hne
    have hci : c ≠ idle := fun h => hne (congrArg some h.symm)
    rw [hsame.stack]
    rw [hi.stackLo_other hci] at hlo
    rw [hi.stackHi_other hci] at hhi
    show (m.run.sys.tasks c).stack ≤ _ ∧ _ < (m.run.sys.tasks c).stack + _
    simp only [frameAt, sizeofBootFrame]
    omega
  obtain ⟨ret, r', n, l', bs', hsched, hi', hsame', hready, hret, hr'⟩ := hi₂.schedule_spec hallow
  have hmap : dispatch (m.kernel.setMem left) v (frameAt m.cpu.esp) = some
      (ret, { sys := r'.sys, ticks := if v = .irq 0 then m.ticks + 1 else m.ticks }) := by
    have h : dispatch { sys := (m.run.setMem left).sys, ticks := m.ticks } v _ = _ :=
      dispatch_eq (r := m.run.setMem left) (f := frameAt m.cpu.esp)
    rw [hsched] at h
    exact h
  have hmem : r'.sys.heap.mem = left := hsame'.mem.trans hsame.mem
  have hstack : ∀ i, (r'.sys.tasks i).stack = (m.run.sys.tasks i).stack := fun i =>
    (hsame'.stack i).trans (hsame.stack i)
  have hunused : ∀ i, (r'.sys.tasks i).state = .unused ↔ (m.run.sys.tasks i).state = .unused :=
    fun i => (hsame'.unused i).trans (hsame.unused i)
  have hwho : ∀ i, (r'.sys.tasks i).who = (m.run.sys.tasks i).who := fun i =>
    (taskSchedule_congr Task.who (fun _ _ => rfl) (wake_who _) (fun _ _ => rfl) hsched i).trans
      (handled_who _ v i)
  rw [hsaved, hi₂.current, hi'.current] at hr'
  rw [hsaved] at hret
  have hn : (m.run.sys.tasks n).state ≠ .unused := fun h => by
    rw [(hunused n).mpr h] at hready
    exact TaskState.noConfusion hready
  have hretlt : ret + sizeofBootFrame < 4294967296 := by
    rw [hret]
    split
    · simp only [frameAt, sizeofBootFrame]
      omega
    next hnc =>
      have h1 := (hm.parked n hn hnc).2
      have h2 := hi.stackHi_lt (b := b) hn
      have h3 : (m.run.setMem left).saved n = m.run.saved n := rfl
      omega
  refine ⟨{ run := r', cpu := poppedCpu left ret
            ticks := if v = .irq 0 then m.ticks + 1 else m.ticks }, n, ?_, ⟨⟨l', bs', hi'⟩, hmem,
    hsame'.idle.trans hsame.idle, hstack, hunused, hwho, fun j => ?_, fun h => ?_, fun h => ?_⟩⟩
  · have hint : interrupt m.kernel m.cpu v left =
        some ({ sys := r'.sys, ticks := if v = .irq 0 then m.ticks + 1 else m.ticks },
          poppedCpu left ret) := by
      unfold interrupt
      dsimp only
      rw [show (Core.deliver { cpu := m.cpu, mem := m.kernel.sys.heap.mem } v) =
        Core.deliver { cpu := m.cpu, mem := m.mem } v from rfl, hreg, hmap]
      simp only [Option.map_some, leaveHandler_eq hretlt, hmem]
    rw [step, hint, hr']
    simp only [Option.map_some, hi.current, hi'.current, hlive]
    rfl
  · have hj : r'.saved j = _ := congrFun (congrArg Run.saved hr') j
    refine hj.trans (if_congr ?_ rfl rfl)
    rw [Option.some.injEq, eq_comm, ne_eq, Option.some.injEq]
  · have hpop : poppedCpu left (frameAt m.cpu.esp) = m.cpu.resumed :=
      poppedCpu_deliver (s := { cpu := m.cpu, mem := m.mem }) (v := v) h60 hesp fun x h1 h2 =>
        hleft x (Or.inr ⟨h1, Nat.lt_of_lt_of_le h2 hhi⟩)
    show poppedCpu left ret = _
    rw [hret, if_pos h, hpop]
  · show poppedCpu left ret = _
    rw [hret, if_neg h]
    rfl

/-! ## One event -/

/-- The task in slot `i` is where it was, with what lies on its stack. -/
structure Parked (b : BootStack) (m m' : Machine) (i : Slot) : Prop where
  lo : stackLo b m'.run.sys i = stackLo b m.run.sys i
  hi : stackHi b m'.run.sys i = stackHi b m.run.sys i
  who : (m'.run.sys.tasks i).who = (m.run.sys.tasks i).who
  saved : m'.run.saved i = m.run.saved i
  bytes : ∀ x, OnStack b m.run.sys i x → m'.mem x = m.mem x

theorem Inv.kept_bytes (hi : Inv r c idle l bs) (hk : OpKept r r')
    (h1 : (r.sys.tasks i).state ≠ .unused) (h2 : (r'.sys.tasks i).state ≠ .unused) {x : Nat}
    (hx : OnStack b r.sys i x) : r'.sys.heap.mem x = r.sys.heap.mem x := by
  by_cases h : i = idle
  · exact hk.below x (Nat.lt_of_lt_of_le (hi.onStack_boot (h ▸ hx)).2 b.below)
  · exact (hk.tasks i h1 h2).bytes (fun he => h (Option.some.inj (he.symm.trans hi.idle_eq)))
      x (hi.onStack_payload h1 h hx).2

theorem OpKept.stacks (hk : OpKept r r') (h1 : (r.sys.tasks i).state ≠ .unused)
    (h2 : (r'.sys.tasks i).state ≠ .unused) : stackLo b r'.sys i = stackLo b r.sys i ∧
      stackHi b r'.sys i = stackHi b r.sys i := by
  unfold stackLo stackHi
  rw [hk.idle, (hk.tasks i h1 h2).stack]
  exact ⟨rfl, rfl⟩

theorem bootFrame_eq {stack : Nat} (h : stack + taskStackSize < 4294967296) :
    bootFrame stack + sizeofBootFrame = stack + taskStackSize - 16 := by
  simp only [bootFrame, taskStackSize, sizeofBootFrame, wrap32] at *
  omega

/-- A boot frame leaves room for an interrupt. -/
theorem Inv.roomy_boot (hi : Inv r c idle l bs) (hlist : (r.sys.tasks i).state ≠ .unused)
    (hne : i ≠ idle) :
    Roomy b r.sys i (bootFrame (r.sys.tasks i).stack + sizeofBootFrame) := by
  have hlt := hi.stackHi_lt (b := b) hlist
  rw [hi.stackHi_other hne] at hlt
  rw [bootFrame_eq hlt, Roomy, hi.stackLo_other hne, hi.stackHi_other hne]
  simp only [taskStackSize]
  omega

/-- What holds after every event. -/
def Held (b : BootStack) (m m' : Machine) (c idle : Slot) : Prop :=
  (∃ c' l' bs', MachineInv b m' c' idle l' bs') ∧
    ∀ i, i ≠ c → (m.run.sys.tasks i).state ≠ .unused → (m'.run.sys.tasks i).state ≠ .unused →
      Parked b m m' i

theorem MachineInv.op_step (hm : MachineInv b m c idle l bs) {op : TaskOp}
    (ha : MayHappen b m (.op op)) : ∃ m', step m (.op op) = some m' ∧ Held b m m' c idle := by
  obtain ⟨hcalls, hallow, -⟩ := ha
  have hi := hm.sched
  obtain ⟨r', c', l', bs', hrun, hi', -⟩ := runStep_inv hi hallow
  have hk := hi.op_kept hcalls hallow hrun
  obtain rfl : c = c' := by
    have h := hk.current
    rw [hi.current, hi'.current] at h
    exact (Option.some.inj h).symm
  refine ⟨{ m with run := r' }, by rw [step, hrun, Option.map_some],
    ⟨c, l', bs', hi', ?_, fun i h1 hic => ?_⟩, fun i _ h1 h2 => ?_⟩
  · obtain ⟨h1, h2⟩ := hk.stacks (b := b) hi.current_listed hi'.current_listed
    show stackLo b r'.sys c + 64 ≤ _ ∧ _ ≤ stackHi b r'.sys c
    rw [h1, h2]
    exact hm.roomy
  · by_cases hold : (m.run.sys.tasks i).state = .unused
    · have hii : i ≠ idle := fun h => hi.idle_listed (by rw [← h]; exact hold)
      show Roomy b r'.sys i (r'.saved i + _)
      rw [hk.fresh i hold h1]
      exact hi'.roomy_boot h1 hii
    · obtain ⟨h3, h4⟩ := hk.stacks (b := b) hold h1
      show stackLo b r'.sys i + 64 ≤ r'.saved i + _ ∧ r'.saved i + _ ≤ stackHi b r'.sys i
      rw [h3, h4, (hk.tasks i hold h1).saved]
      exact hm.parked i hold hic
  · obtain ⟨h3, h4⟩ := hk.stacks (b := b) h1 h2
    exact ⟨h3, h4, (hk.tasks i h1 h2).who, (hk.tasks i h1 h2).saved, fun x hx => hi.kept_bytes hk h1 h2 hx⟩

theorem MachineInv.work_step (hm : MachineInv b m c idle l bs) {cpu : Cpu} {mem : Memory}
    (ha : MayHappen b m (.work cpu mem)) :
    ∃ m', step m (.work cpu mem) = some m' ∧ Held b m m' c idle := by
  have hi := hm.sched
  obtain ⟨hroomy, hmem⟩ := ha c hi.current
  have hi' : Inv (m.run.setMem mem) c idle l bs :=
    hi.setMem fun x hx => hmem x fun hmine => hx (hi.mine_offHeaders hmine)
  refine ⟨_, rfl, ⟨c, l, bs, hi', hroomy, hm.parked⟩, fun i hic h1 _ => ⟨rfl, rfl, rfl, rfl,
    fun x hx => hmem x fun hmine => hi.mine_apart hmine h1 hic hx⟩⟩

theorem MachineInv.interrupt_step (hm : MachineInv b m c idle l bs) {v : Vector} {left : Memory}
    (ha : MayHappen b m (.interrupt v left)) :
    ∃ m', step m (.interrupt v left) = some m' ∧ Held b m m' c idle := by
  obtain ⟨m', n, hstep, h⟩ := hm.interrupted ha
  have hi := hm.sched
  have hstacks : ∀ i, stackLo b m'.run.sys i = stackLo b m.run.sys i ∧
      stackHi b m'.run.sys i = stackHi b m.run.sys i := by
    intro i
    unfold stackLo stackHi
    rw [h.idle_eq, h.stack]
    exact ⟨rfl, rfl⟩
  have hroomy : ∀ i esp, Roomy b m'.run.sys i esp ↔ Roomy b m.run.sys i esp := by
    intro i esp
    unfold Roomy
    rw [(hstacks i).1, (hstacks i).2]
  obtain ⟨l', bs', hi'⟩ := h.inv
  have hesp : frameAt m.cpu.esp + sizeofBootFrame = m.cpu.esp := by
    have := hm.esp_bounds.1
    simp only [frameAt, sizeofBootFrame]
    omega
  have hlist : ∀ {i}, (m'.run.sys.tasks i).state ≠ .unused → (m.run.sys.tasks i).state ≠ .unused :=
    fun h1 h2 => h1 ((h.unused _).mpr h2)
  refine ⟨m', hstep, ⟨n, l', bs', hi', ?_, fun i h1 hin => ?_⟩, fun i hic h1 _ => ?_⟩
  · rw [hroomy]
    by_cases hn : n = c
    · rw [h.same hn, hn]
      exact hm.roomy
    · rw [h.other hn]
      exact hm.parked n (hlist hi'.current_listed) hn
  · rw [hroomy, h.saved]
    split
    next hic =>
      rw [hesp, hic.1]
      exact hm.roomy
    next hic =>
      refine hm.parked i (hlist h1) fun he => hic ⟨he, fun hn => hin ?_⟩
      rw [he, hn]
  · refine ⟨(hstacks i).1, (hstacks i).2, h.who i, ?_, fun x hx => ?_⟩
    · rw [h.saved, if_neg fun he => hic he.1]
    · rw [h.mem]
      exact hm.left_other ha fun hmine => hi.mine_apart hmine h1 hic hx

/-- **Whatever happens, the machine goes on**, and no task but the current one is touched. -/
theorem MachineInv.step (hm : MachineInv b m c idle l bs) {e : Event} (ha : MayHappen b m e) :
    ∃ m', step m e = some m' ∧ Held b m m' c idle := by
  cases e with
  | op op => exact hm.op_step ha
  | work cpu mem => exact hm.work_step ha
  | interrupt v left => exact hm.interrupt_step ha

/-! ## Runs -/

/-- The states of all runs from `task_init`, on the stack of the boot code. -/
inductive MachineReach (b : BootStack) (mem : Memory) (src : List E820Entry) : Machine → Prop
  | init {s : System} {live : List Nat} {saved : Slot → Nat} {cpu : Cpu} {ticks : UInt64} :
      Mem.Reach mem src { heap := s.heap, live := live } → b.lo + 64 ≤ cpu.esp → cpu.esp ≤ b.hi →
      MachineReach b mem src
        { run := { sys := taskInit s, live := live, saved := saved }, cpu := cpu, ticks := ticks }
  | step {m m' : Machine} {e : Event} : MachineReach b mem src m → MayHappen b m e →
      step m e = some m' → MachineReach b mem src m'

theorem machine_reach_inv {mem : Memory} {src : List E820Entry}
    (hr : MachineReach b mem src m) : ∃ c idle l bs, MachineInv b m c idle l bs := by
  induction hr with
  | @init s live saved cpu ticks hh hlo hhi =>
    obtain ⟨bs, hheap⟩ := Mem.reach_inv hh
    have hi : Inv { sys := taskInit s, live := live, saved := saved } _ _ [] bs :=
      taskInit_inv hheap
    refine ⟨_, _, [], bs, hi, ⟨?_, ?_⟩, fun i h1 h2 => ?_⟩
    · rw [hi.stackLo_idle]
      exact hlo
    · rw [hi.stackHi_idle]
      exact hhi
    · -- the idle task is the only one
      exact absurd (List.mem_singleton.mp ((hi.mem i).mpr h1)) h2
  | step _ ha hs ih =>
    obtain ⟨c, idle, l, bs, hm⟩ := ih
    obtain ⟨m', hs', ⟨c', l', bs', hm'⟩, -⟩ := hm.step ha
    rw [hs] at hs'
    obtain rfl := Option.some.inj hs'
    exact ⟨c', idle, l', bs', hm'⟩

/-- A continuation in which the task in slot `i` neither runs nor is reaped. -/
inductive Away (b : BootStack) (i : Slot) (m : Machine) : Machine → Prop
  | refl : m.run.sys.current ≠ some i → Away b i m m
  | step {m₁ m₂ : Machine} {e : Event} : Away b i m m₁ → MayHappen b m₁ e →
      step m₁ e = some m₂ → m₂.run.sys.current ≠ some i →
      (m₂.run.sys.tasks i).state ≠ .unused → Away b i m m₂

theorem Away.start (ha : Away b i m m') : m.run.sys.current ≠ some i := by
  induction ha with
  | refl hne => exact hne
  | step _ _ _ _ _ ih => exact ih

theorem Parked.trans {m₁ m₂ m₃ : Machine} (h : Parked b m₁ m₂ i) (h' : Parked b m₂ m₃ i) :
    Parked b m₁ m₃ i := by
  refine ⟨h'.lo.trans h.lo, h'.hi.trans h.hi, h'.who.trans h.who, h'.saved.trans h.saved,
    fun x hx => (h'.bytes x ?_).trans (h.bytes x hx)⟩
  unfold OnStack
  rw [h.lo, h.hi]
  exact hx

/-- **A task that is away stays where it is parked**, whatever the others do. -/
theorem MachineInv.away (hm : MachineInv b m c idle l bs)
    (hlist : (m.run.sys.tasks i).state ≠ .unused) (ha : Away b i m m') :
    (∃ c' l' bs', MachineInv b m' c' idle l' bs') ∧ m'.run.sys.current ≠ some i ∧
      (m'.run.sys.tasks i).state ≠ .unused ∧ Parked b m m' i := by
  induction ha with
  | refl hne => exact ⟨⟨c, l, bs, hm⟩, hne, hlist, ⟨rfl, rfl, rfl, rfl, fun _ _ => rfl⟩⟩
  | step _ hmay hs hne hlist' ih =>
    obtain ⟨⟨c₁, l₁, bs₁, hm₁⟩, hne₁, hlist₁, hpark⟩ := ih
    obtain ⟨m₂, hs₂, hinv, hkept⟩ := hm₁.step hmay
    rw [hs] at hs₂
    obtain rfl := Option.some.inj hs₂
    have hic : i ≠ c₁ := fun h => hne₁ (by rw [hm₁.sched.current, h])
    exact ⟨hinv, hne, hlist', hpark.trans (hkept i hic hlist₁ hlist')⟩

theorem poppedCpu_congr {mem mem' : Memory} {f : Nat}
    (h : ∀ x, f ≤ x → x < f + sizeofBootFrame → mem x = mem' x) :
    poppedCpu mem f = poppedCpu mem' f := by
  have hword : ∀ k, k < 14 → load32 mem (f + 4 * k) = load32 mem' (f + 4 * k) := fun k hk =>
    load32_congr fun x h1 h2 => h x (by omega) (by simp only [sizeofBootFrame]; omega)
  unfold poppedCpu
  simp only [hword 0 (by decide), hword 1 (by decide), hword 2 (by decide), hword 3 (by decide),
    hword 5 (by decide), hword 6 (by decide), hword 7 (by decide), hword 8 (by decide),
    hword 11 (by decide), hword 12 (by decide), hword 13 (by decide)]

/-- Coming back means popping the parked frame. -/
theorem MachineInv.resume (hm : MachineInv b m c idle l bs) {e : Event} (ha : MayHappen b m e)
    (hs : Sched.step m e = some m') (hne : m.run.sys.current ≠ some i)
    (hcur : m'.run.sys.current = some i) :
    m'.cpu = poppedCpu m.mem (m.run.saved i) ∧ (m'.run.sys.tasks i).who = (m.run.sys.tasks i).who ∧
      ∀ x, OnStack b m.run.sys i x → m'.mem x = m.mem x := by
  have hi := hm.sched
  have hic : i ≠ c := fun h => hne (by rw [hi.current, h])
  cases e with
  | op op =>
    obtain ⟨r', hrun, rfl⟩ := Option.map_eq_some_iff.mp hs
    exact absurd (((hi.op_kept ha.1 ha.2.1 hrun).current).symm.trans hcur) hne
  | work cpu mem =>
    obtain rfl := Option.some.inj hs
    exact absurd hcur hne
  | interrupt v left =>
    obtain ⟨m'', n, hs', h⟩ := hm.interrupted ha
    rw [hs] at hs'
    obtain rfl := Option.some.inj hs'
    obtain ⟨l', bs', hi'⟩ := h.inv
    obtain rfl : i = n := Option.some.inj (hcur.symm.trans hi'.current)
    have hlist : (m.run.sys.tasks i).state ≠ .unused := fun hu =>
      hi'.current_listed ((h.unused i).mpr hu)
    have hbytes : ∀ x, OnStack b m.run.sys i x → left x = m.mem x := fun x hx =>
      hm.left_other ha fun hmine => hi.mine_apart hmine hlist hic hx
    refine ⟨(h.other hic).trans (poppedCpu_congr fun x h1 h2 => hbytes x ?_), h.who i, fun x hx => ?_⟩
    · obtain ⟨h3, h4⟩ := hm.parked i hlist hic
      simp only [sizeofBootFrame] at h2 h3 h4
      exact ⟨by omega, by omega⟩
    · rw [h.mem]
      exact hbytes x hx

/-- The task in slot `i` goes on in `m'` as it was in `m`. -/
structure Resumed (b : BootStack) (i : Slot) (m m' : Machine) : Prop where
  cpu : m'.cpu = m.cpu.resumed
  stack : ∀ x, m.cpu.esp ≤ x → x < stackHi b m.run.sys i → m'.mem x = m.mem x

/-- What was on the stack of the interrupted task is still there. -/
theorem MachineInv.left_stack (hm : MachineInv b m c idle l bs) {v : Vector} {left : Memory}
    (ha : MayHappen b m (.interrupt v left)) {x : Nat} (h1 : m.cpu.esp ≤ x)
    (h2 : x < stackHi b m.run.sys c) : left x = m.mem x := by
  obtain ⟨h60, hesp⟩ := hm.esp_bounds
  rw [ha.2 c hm.sched.current x (Or.inr ⟨(Nat.sub_le _ _).trans h1, h2⟩)]
  exact deliver_other h60 hesp (Or.inr h1)

/-- The frame of an interrupt holds the context, as long as nobody touches it. -/
theorem MachineInv.left_frame (hm : MachineInv b m c idle l bs) {v : Vector} {left : Memory}
    (ha : MayHappen b m (.interrupt v left)) :
    poppedCpu left (frameAt m.cpu.esp) = m.cpu.resumed := by
  obtain ⟨h60, hesp⟩ := hm.esp_bounds
  exact poppedCpu_deliver (s := { cpu := m.cpu, mem := m.mem }) (v := v) h60 hesp
    fun x h1 h2 => ha.2 c hm.sched.current x (Or.inr ⟨h1, Nat.lt_of_lt_of_le h2 hm.roomy.2⟩)

/--
**A task cannot tell that it was interrupted**, neither when it goes on at once nor when
others ran in between, whatever they did and however often they were interrupted
themselves. It finds every register as it was and every byte of its stack from its
stack pointer upwards.
-/
theorem preemption_invisible {mem : Memory} {src : List E820Entry} {m₁ : Machine} {v : Vector}
    {left : Memory} (hr : MachineReach b mem src m) (hc : m.run.sys.current = some i)
    (ha : MayHappen b m (.interrupt v left)) (hs : step m (.interrupt v left) = some m₁) :
    (m₁.run.sys.current = some i → Resumed b i m m₁) ∧
      ∀ m₂ e m₃, Away b i m₁ m₂ → MayHappen b m₂ e → step m₂ e = some m₃ →
        m₃.run.sys.current = some i → Resumed b i m m₃ := by
  obtain ⟨c, idle, l, bs, hm⟩ := machine_reach_inv hr
  have hi := hm.sched
  obtain rfl : i = c := Option.some.inj (hc.symm.trans hi.current)
  obtain ⟨m₁', n, hs', h⟩ := hm.interrupted ha
  rw [hs] at hs'
  obtain rfl := Option.some.inj hs'
  obtain ⟨l₁, bs₁, hi₁⟩ := h.inv
  refine ⟨fun hcur => ⟨h.same ?_, fun x h1 h2 => ?_⟩, fun m₂ e m₃ haway hmay hs₃ hcur => ?_⟩
  · exact Option.some.inj (hi₁.current.symm.trans hcur)
  · rw [h.mem]
    exact hm.left_stack ha h1 h2
  · obtain ⟨m₁', hs', ⟨c₁, l₁', bs₁', hm₁⟩, -⟩ := hm.step ha
    rw [hs] at hs'
    obtain rfl := Option.some.inj hs'
    have hlist₁ : (m₁.run.sys.tasks i).state ≠ .unused := fun hu =>
      hi.current_listed ((h.unused i).mp hu)
    obtain ⟨⟨c₂, l₂, bs₂, hm₂⟩, hne₂, hlist₂, hpark⟩ := hm₁.away hlist₁ haway
    obtain ⟨hcpu, -, hbytes⟩ := hm₂.resume hmay hs₃ hne₂ hcur
    -- the task was switched away from, so its frame was saved
    have hnc : n ≠ i := by
      rintro rfl
      exact haway.start hi₁.current
    have hsaved : m₂.run.saved i = frameAt m.cpu.esp := by
      rw [hpark.saved, h.saved, if_pos ⟨rfl, hnc⟩]
    have hlo₁ : stackLo b m₁.run.sys i = stackLo b m.run.sys i := by
      unfold stackLo
      rw [h.idle_eq, h.stack]
    have hhi₁ : stackHi b m₁.run.sys i = stackHi b m.run.sys i := by
      unfold stackHi
      rw [h.idle_eq, h.stack]
    have hmem : ∀ x, OnStack b m.run.sys i x → m₂.mem x = left x := by
      intro x hx
      rw [← h.mem]
      refine hpark.bytes x ?_
      unfold OnStack
      rw [hlo₁, hhi₁]
      exact hx
    have hesp := hm.esp_bounds
    have hroomy := hm.roomy
    refine ⟨?_, fun x h1 h2 => ?_⟩
    · rw [hcpu, hsaved, ← hm.left_frame ha]
      refine poppedCpu_congr fun x h1 h2 => hmem x ?_
      have h3 := hroomy.1
      have h4 := hroomy.2
      simp only [frameAt, sizeofBootFrame] at h1 h2
      exact ⟨by omega, by omega⟩
    · have hx : OnStack b m.run.sys i x := ⟨by have := hroomy.1; omega, h2⟩
      have hx₂ : OnStack b m₂.run.sys i x := by
        unfold OnStack
        rw [hpark.lo, hpark.hi, hlo₁, hhi₁]
        exact hx
      rw [hbytes x hx₂, hmem x hx]
      exact hm.left_stack ha h1 h2

/-- A machine right after `task_init`, without a memory map. -/
def bootMachine : Machine :=
  { run := bootRun
    cpu :=
      { eax := 1, ebx := 2, ecx := 3, edx := 4, esi := 5, edi := 6, ebp := 7, esp := 0x38000
        eip := 0x10000, eflags := 0x202, cs := 8, ds := 0x10, es := 0x10, fs := 0x10, gs := 0x10 }
    ticks := 0 }

def bootStack : BootStack := { lo := 0x30000, hi := 0x38000, below := by decide }

/-- The memory after an interrupt whose handler writes nothing. -/
def undisturbed (m : Machine) (v : Vector) : Memory :=
  (Core.deliver { cpu := m.cpu, mem := m.mem } v).mem

theorem mayHappen_undisturbed {v : Vector} (h : m.cpu.eflags &&& interruptFlag ≠ 0) :
    MayHappen b m (.interrupt v (undisturbed m v)) := ⟨fun _ _ => h, fun _ _ _ _ => rfl⟩

/-- The idle task starts the session. -/
def sessionMachine : Option Machine :=
  step bootMachine (.op (.spawn 0x10000 (CString.ofString "session") 0 0))

/-- It is preempted, the session goes to sleep, and the idle task is back. -/
def awayAndBack : Option (Machine × Machine × Machine × Machine) :=
  sessionMachine.bind fun m =>
    (step m (.interrupt .timer (undisturbed m .timer))).bind fun m₁ =>
      (step m₁ (.op (.sleep 1 1000))).bind fun m₂ =>
        (step m₂ (.interrupt .yield (undisturbed m₂ .yield))).map fun m₃ => (m, m₁, m₂, m₃)

/-- What the checks below read off a machine. -/
structure View where
  current : Option Slot
  idle : Option Slot
  state : TaskState
  ticks : UInt64
  eflags : UInt32
  deriving DecidableEq

def Machine.view (m : Machine) : View :=
  { current := m.run.sys.current, idle := m.run.sys.idle
    state := (m.run.sys.tasks ⟨1, by decide⟩).state, ticks := m.ticks, eflags := m.cpu.eflags }

def views (ms : Machine × Machine × Machine × Machine) : List View :=
  [ms.1.view, ms.2.1.view, ms.2.2.1.view, ms.2.2.2.view]

theorem awayAndBack_views : awayAndBack.map views = some
    [⟨some ⟨0, by decide⟩, some ⟨0, by decide⟩, .ready, 0, 0x202⟩,
      ⟨some ⟨1, by decide⟩, some ⟨0, by decide⟩, .ready, 1, 0x202⟩,
      ⟨some ⟨1, by decide⟩, some ⟨0, by decide⟩, .sleeping, 1, 0x202⟩,
      ⟨some ⟨0, by decide⟩, some ⟨0, by decide⟩, .sleeping, 1, 0x202⟩] := by
  decide +kernel

theorem bootMachine_reach : MachineReach bootStack (fun _ => 0) [] bootMachine :=
  .init bootHeap_reach (by decide) (by decide)

theorem sessionMachine_may : MayHappen bootStack bootMachine
    (.op (.spawn 0x10000 (CString.ofString "session") 0 0)) := by
  refine ⟨trivial, fun c hc => ?_, fun _ _ h => TaskOp.noConfusion h⟩
  obtain rfl : (⟨0, by decide⟩ : Slot) = c := Option.some.inj hc
  exact TaskState.noConfusion

theorem sessionMachine_reach (h : sessionMachine = some m) :
    MachineReach bootStack (fun _ => 0) [] m :=
  bootMachine_reach.step sessionMachine_may h

/-- The idle task is back after another one ran. -/
theorem preemption_invisible_idle :
    ∃ m m₁ m₂ m₃, awayAndBack = some (m, m₁, m₂, m₃) ∧
      m₁.run.sys.current = some ⟨1, by decide⟩ ∧ m₃.run.sys.current = some ⟨0, by decide⟩ ∧
      Resumed bootStack ⟨0, by decide⟩ m m₃ := by
  obtain ⟨ms, hall, hviews⟩ := Option.map_eq_some_iff.mp awayAndBack_views
  obtain ⟨m, hs, hrest⟩ := Option.bind_eq_some_iff.mp hall
  obtain ⟨m₁, hs₁, hrest⟩ := Option.bind_eq_some_iff.mp hrest
  obtain ⟨m₂, hs₂, hrest⟩ := Option.bind_eq_some_iff.mp hrest
  obtain ⟨m₃, hs₃, rfl⟩ := Option.map_eq_some_iff.mp hrest
  obtain ⟨hv, hviews⟩ := List.cons.inj hviews
  obtain ⟨hv₁, hviews⟩ := List.cons.inj hviews
  obtain ⟨hv₂, hviews⟩ := List.cons.inj hviews
  obtain ⟨hv₃, -⟩ := List.cons.inj hviews
  have hcur₁ : m₁.run.sys.current = some ⟨1, by decide⟩ := congrArg View.current hv₁
  have hcur₂ : m₂.run.sys.current = some ⟨1, by decide⟩ := congrArg View.current hv₂
  have hidle₁ : m₁.run.sys.idle = some ⟨0, by decide⟩ := congrArg View.idle hv₁
  have hready₁ : (m₁.run.sys.tasks ⟨1, by decide⟩).state = .ready := congrArg View.state hv₁
  have hidle₂ : m₂.run.sys.idle = some ⟨0, by decide⟩ := congrArg View.idle hv₂
  have hcur₃ : m₃.run.sys.current = some ⟨0, by decide⟩ := congrArg View.current hv₃
  have hflags : ∀ {v : View}, v.eflags = 0x202 → v.eflags &&& interruptFlag ≠ 0 := fun h => by
    rw [h]
    decide
  have ha : MayHappen bootStack m (.interrupt (.irq 0) (undisturbed m (.irq 0))) :=
    mayHappen_undisturbed (hflags (v := m.view) (by rw [hv]))
  have ha₁ : MayHappen bootStack m₁ (.op (.sleep 1 1000)) := by
    refine ⟨trivial, ⟨fun c hc => ?_, ?_⟩, fun now ms h => ?_⟩
    · obtain rfl := Option.some.inj (hcur₁.symm.trans hc)
      rw [hready₁]
      exact TaskState.noConfusion
    · rw [hcur₁, hidle₁]
      decide
    · rw [← (TaskOp.sleep.inj h).1]
      exact (congrArg View.ticks hv₁).symm
  have ha₂ : MayHappen bootStack m₂ (.interrupt .yield (undisturbed m₂ .yield)) :=
    mayHappen_undisturbed (hflags (v := m₂.view) (by rw [hv₂]))
  have hr := sessionMachine_reach hs
  have hr₂ := ((hr.step ha hs₁).step ha₁ hs₂)
  obtain ⟨c, idle, l, bs, hm₂⟩ := machine_reach_inv hr₂
  have hlist : (m₂.run.sys.tasks ⟨0, by decide⟩).state ≠ .unused := by
    obtain rfl : idle = ⟨0, by decide⟩ := Option.some.inj (hm₂.sched.idle_eq.symm.trans hidle₂)
    exact hm₂.sched.idle_listed
  have haway : Away bootStack ⟨0, by decide⟩ m₁ m₂ :=
    (Away.refl (by rw [hcur₁]; decide)).step ha₁ hs₂ (by rw [hcur₂]; decide) hlist
  exact ⟨m, m₁, m₂, m₃, hall, hcur₁, hcur₃,
    (preemption_invisible hr (congrArg View.current hv) ha hs₁).2 m₂ _ m₃ haway ha₂ hs₃ hcur₃⟩

/-! ## The first run of a task -/

/-- The context in a boot frame. -/
def bootCpu (bootstrap esp : Nat) : Cpu :=
  { eax := 0, ebx := 0, ecx := 0, edx := 0, esi := 0, edi := 0, ebp := 0
    esp := esp, eip := UInt32.ofNat bootstrap, eflags := 0x202, cs := 0x08
    ds := 0x10, es := 0x10, fs := 0x10, gs := 0x10 }

theorem poppedCpu_boot (mem : Memory) (f bootstrap : Nat) :
    poppedCpu (writeBootFrame mem f bootstrap) f = bootCpu bootstrap (f + sizeofBootFrame) := by
  let zeroed : Memory := fun x => if f ≤ x ∧ x < f + sizeofBootFrame then 0 else mem x
  have hzero : ∀ k, k < 14 → load32 zeroed (f + 4 * k) = 0 := by
    intro k hk
    have hbyte : ∀ x, f ≤ x → x < f + 56 → zeroed x = 0 := fun x h1 h2 => if_pos ⟨h1, h2⟩
    unfold load32
    rw [hbyte _ (by omega) (by omega), hbyte _ (by omega) (by omega), hbyte _ (by omega) (by omega),
      hbyte _ (by omega) (by omega)]
    rfl
  have hother : ∀ k, k < 14 → k ≠ 0 → k ≠ 11 → k ≠ 12 → k ≠ 13 →
      load32 (writeBootFrame mem f bootstrap) (f + 4 * k) = 0 := by
    intro k hk h0 h11 h12 h13
    unfold writeBootFrame
    simp (disch := omega) only [load32_store32_other]
    exact hzero k hk
  have h0 : load32 (writeBootFrame mem f bootstrap) (f + 4 * 0) = 0x10 := by
    unfold writeBootFrame
    simp (disch := omega) only [load32_store32_other, Nat.mul_zero, Nat.add_zero,
      load32_store32_same]
    rfl
  have h11 : load32 (writeBootFrame mem f bootstrap) (f + 4 * 11) = wrap32 bootstrap := by
    unfold writeBootFrame
    simp (disch := omega) only [load32_store32_other, Nat.reduceMul, load32_store32_same]
  have h12 : load32 (writeBootFrame mem f bootstrap) (f + 4 * 12) = 0x08 := by
    unfold writeBootFrame
    simp (disch := omega) only [load32_store32_other, Nat.reduceMul, load32_store32_same]
    rfl
  have h13 : load32 (writeBootFrame mem f bootstrap) (f + 4 * 13) = 0x202 := by
    unfold writeBootFrame
    simp (disch := omega) only [Nat.reduceMul, load32_store32_same]
    rfl
  have hentry : UInt32.ofNat (wrap32 bootstrap) = UInt32.ofNat bootstrap := by
    apply UInt32.toNat_inj.mp
    rw [UInt32.toNat_ofNat', UInt32.toNat_ofNat', wrap32]
    exact Nat.mod_mod _ _
  simp only [poppedCpu, h0, h11, h12, h13, hentry, hother 1 (by decide) (by decide) (by decide)
    (by decide) (by decide), hother 2 (by decide) (by decide) (by decide) (by decide) (by decide),
    hother 3 (by decide) (by decide) (by decide) (by decide) (by decide),
    hother 5 (by decide) (by decide) (by decide) (by decide) (by decide),
    hother 6 (by decide) (by decide) (by decide) (by decide) (by decide),
    hother 7 (by decide) (by decide) (by decide) (by decide) (by decide),
    hother 8 (by decide) (by decide) (by decide) (by decide) (by decide)]
  rfl

/-- What `task_spawn` leaves behind for the first switch to its task. -/
theorem spawned {r r' : Run} {bootstrap entry arg : Nat} {name : List UInt8} {s' : System}
    (hspawn : taskSpawn r.sys bootstrap name entry arg = some (some i, s'))
    (hrun : runStep r (.spawn bootstrap name entry arg) = some r') :
    r'.saved i = bootFrame (r'.sys.tasks i).stack ∧
      (r'.sys.tasks i).record =
        ((r.sys.nextId + 1, CString.strncpy name (taskNameMax - 1) ++ [0], entry, arg), 0, 0) ∧
      (r'.sys.tasks i).state = .ready ∧
      poppedCpu r'.sys.heap.mem (r'.saved i) =
        bootCpu bootstrap (r'.saved i + sizeofBootFrame) := by
  rw [runStep, hspawn] at hrun
  obtain rfl := Option.some.inj hrun
  rcases taskSpawn_cases hspawn with ⟨h, -⟩ | ⟨j, p, heap, hj, -, -, -, rfl⟩
  · exact absurd h (Option.some_ne_none i)
  obtain rfl := Option.some.inj hj
  have hstack : (listInsert (setTask r.sys.tasks i (newTask r.sys name entry arg p))
      r.sys.current i i).stack = p := by
    rw [listInsert_congr Task.stack (fun _ _ => rfl), setTask_same]
    rfl
  have hsaved : (if i = i then bootFrame p else r.saved i) = bootFrame p := if_pos rfl
  refine ⟨if_pos rfl, ?_, ?_, ?_⟩
  · show (listInsert (setTask r.sys.tasks i _) r.sys.current i i).record = _
    rw [listInsert_congr Task.record (fun _ _ => rfl), setTask_same]
    rfl
  · show (listInsert (setTask r.sys.tasks i _) r.sys.current i i).state = _
    rw [listInsert_congr Task.state (fun _ _ => rfl), setTask_same]
    rfl
  · show poppedCpu (writeBootFrame heap.mem (bootFrame p) bootstrap)
      (if i = i then bootFrame (listInsert _ _ i i).stack else r.saved i) =
      bootCpu bootstrap ((if i = i then bootFrame (listInsert _ _ i i).stack else r.saved i) + _)
    rw [if_pos rfl, hstack]
    exact poppedCpu_boot heap.mem (bootFrame p) bootstrap

/--
**A new task starts with a clean context at `task_bootstrap`**, whenever its first turn
comes: interrupts on, the kernel's segments, all other registers zero, and the stack
pointer sixteen bytes below the end of its own stack. What it is to run is what
`task_spawn` was asked for.
-/
theorem first_run {mem : Memory} {src : List E820Entry} {bootstrap entry arg : Nat}
    {name : List UInt8} {s' : System} {m₁ m₂ m₃ : Machine} {e : Event}
    (hr : MachineReach b mem src m) (ha : MayHappen b m (.op (.spawn bootstrap name entry arg)))
    (hspawn : taskSpawn m.run.sys bootstrap name entry arg = some (some i, s'))
    (hs : step m (.op (.spawn bootstrap name entry arg)) = some m₁) (haway : Away b i m₁ m₂)
    (hmay : MayHappen b m₂ e) (hs₃ : step m₂ e = some m₃)
    (hcur : m₃.run.sys.current = some i) :
    m₃.cpu = bootCpu bootstrap (stackHi b m₁.run.sys i - 16) ∧
      (m₃.run.sys.tasks i).entry = entry ∧ (m₃.run.sys.tasks i).arg = arg := by
  obtain ⟨c, idle, l, bs, hm⟩ := machine_reach_inv hr
  obtain ⟨m₁', hs', ⟨c₁, l₁, bs₁, hm₁⟩, -⟩ := hm.step ha
  rw [hs] at hs'
  obtain rfl := Option.some.inj hs'
  obtain ⟨r', hrun, rfl⟩ := Option.map_eq_some_iff.mp hs
  obtain ⟨hsaved, hrec, hready, hpop⟩ := spawned hspawn hrun
  have hi₁ := hm₁.sched
  have hlist₁ : (r'.sys.tasks i).state ≠ .unused := by
    rw [hready]
    exact TaskState.noConfusion
  obtain ⟨⟨c₂, l₂, bs₂, hm₂⟩, hne₂, hlist₂, hpark⟩ := hm₁.away hlist₁ haway
  obtain ⟨hcpu, hwho₃, -⟩ := hm₂.resume hmay hs₃ hne₂ hcur
  have hic : i ≠ c₁ := fun h => haway.start (by rw [hi₁.current, h])
  have hroomy := hm₁.parked i hlist₁ hic
  have hwho' : (m₃.run.sys.tasks i).who = _ := (hwho₃.trans hpark.who).trans (congrArg Prod.fst hrec)
  have htop : r'.saved i + sizeofBootFrame = stackHi b r'.sys i - 16 := by
    have hii : i ≠ idle := by
      rintro rfl
      -- the slot was free before, and the idle task's never is
      rcases taskSpawn_cases hspawn with ⟨h, -⟩ | ⟨j, p, heap, hj, halloc, -, -, -⟩
      · exact Option.some_ne_none i h
      · obtain rfl := Option.some.inj hj
        exact hm.sched.idle_listed (allocTask_unused halloc)
    have hlt := hi₁.stackHi_lt (b := b) hlist₁
    rw [hi₁.stackHi_other hii] at hlt ⊢
    rw [hsaved]
    exact bootFrame_eq hlt
  refine ⟨?_, congrArg (fun w => w.2.2.1) hwho', congrArg (fun w => w.2.2.2) hwho'⟩
  rw [hcpu, hpark.saved]
  show poppedCpu m₂.mem (r'.saved i) = bootCpu bootstrap (stackHi b r'.sys i - 16)
  rw [← htop, ← hpop]
  refine poppedCpu_congr fun x h1 h2 => hpark.bytes x ⟨?_, ?_⟩
  · show stackLo b r'.sys i ≤ x
    have h3 : stackLo b r'.sys i + 64 ≤ r'.saved i + sizeofBootFrame := hroomy.1
    simp only [sizeofBootFrame] at h3
    omega
  · show x < stackHi b r'.sys i
    have h4 : r'.saved i + sizeofBootFrame ≤ stackHi b r'.sys i := hroomy.2
    omega

/-- The session starts at the first tick of the timer. -/
theorem first_run_session :
    ∃ m₁ m₂, sessionMachine = some m₁ ∧
      step m₁ (.interrupt (.irq 0) (undisturbed m₁ (.irq 0))) = some m₂ ∧
      m₂.cpu = bootCpu 0x10000 (stackHi bootStack m₁.run.sys ⟨1, by decide⟩ - 16) := by
  obtain ⟨ms, hall, hviews⟩ := Option.map_eq_some_iff.mp awayAndBack_views
  obtain ⟨m₁, hs₁, hrest⟩ := Option.bind_eq_some_iff.mp hall
  obtain ⟨m₂, hs₂, hrest⟩ := Option.bind_eq_some_iff.mp hrest
  obtain ⟨m₃, -, hrest⟩ := Option.bind_eq_some_iff.mp hrest
  obtain ⟨m₄, -, rfl⟩ := Option.map_eq_some_iff.mp hrest
  obtain ⟨hv, hviews⟩ := List.cons.inj hviews
  obtain ⟨hv₂, -⟩ := List.cons.inj hviews
  have hcur : m₁.run.sys.current = some ⟨0, by decide⟩ := congrArg View.current hv
  have hflags : m₁.cpu.eflags = 0x202 := congrArg View.eflags hv
  have ha₁ : MayHappen bootStack m₁ (.interrupt (.irq 0) (undisturbed m₁ (.irq 0))) :=
    mayHappen_undisturbed (by rw [hflags]; decide)
  have hspawn : taskSpawn bootMachine.run.sys 0x10000 (CString.ofString "session") 0 0 =
      some (some ⟨1, by decide⟩, _) := rfl
  exact ⟨m₁, m₂, hs₁, hs₂, (first_run bootMachine_reach sessionMachine_may hspawn hs₁
    (Away.refl (by rw [hcur]; decide)) ha₁ hs₂ (congrArg View.current hv₂)).1⟩

/--
What holds of the machine at every point of a run.

The current task has room for an interrupt on its stack, and every other task has a frame
within its own. No two stacks share a byte, and none lies over a header of the heap.
Whatever may happen next can happen, and it leaves the stacks of all other tasks alone.
-/
def MachineSafe (b : BootStack) (m : Machine) : Prop :=
  ∃ c bs, m.run.sys.current = some c ∧ HeapInv m.run.heapState bs ∧
    Roomy b m.run.sys c m.cpu.esp ∧
    (∀ i, (m.run.sys.tasks i).state ≠ .unused → i ≠ c →
      Roomy b m.run.sys i (m.run.saved i + sizeofBootFrame)) ∧
    (∀ i, (m.run.sys.tasks i).state ≠ .unused → ∀ x, OnStack b m.run.sys i x → OffHeaders bs x ∧
      ∀ j, (m.run.sys.tasks j).state ≠ .unused → i ≠ j → ¬OnStack b m.run.sys j x) ∧
    ∀ e, MayHappen b m e → ∃ m', step m e = some m' ∧
      ∀ i, i ≠ c → (m.run.sys.tasks i).state ≠ .unused → (m'.run.sys.tasks i).state ≠ .unused →
        Parked b m m' i

/-- **The machine is safe over every run**, in any order of events. -/
theorem machine_sound {mem : Memory} {src : List E820Entry} (hr : MachineReach b mem src m) :
    MachineSafe b m := by
  obtain ⟨c, idle, l, bs, hm⟩ := machine_reach_inv hr
  have hi := hm.sched
  refine ⟨c, bs, hi.current, hi.heap, hm.roomy, hm.parked, fun i h1 x hx => ⟨?_, fun j h2 hij =>
    hi.stacks_apart h1 h2 hij hx⟩, fun e ha => ?_⟩
  · by_cases h : i = idle
    · exact hi.heap.represents.below (Nat.lt_of_lt_of_le (hi.onStack_boot (h ▸ hx)).2 b.below)
    · obtain ⟨hlive, hin⟩ := hi.onStack_payload h1 h hx
      exact hi.heap.payload_offHeaders hlive hin
  · obtain ⟨m', hs, -, hkept⟩ := hm.step ha
    exact ⟨m', hs, hkept⟩

/-- With the session started and the idle task still running. -/
theorem machine_sound_session : ∃ m, sessionMachine = some m ∧ MachineSafe bootStack m := by
  obtain ⟨c, idle, l, bs, hm⟩ := machine_reach_inv bootMachine_reach
  obtain ⟨m, hs, -⟩ := hm.step sessionMachine_may
  exact ⟨m, hs, machine_sound (sessionMachine_reach hs)⟩

end LightningOS.Sched
