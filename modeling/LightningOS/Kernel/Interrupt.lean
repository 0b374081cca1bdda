import LightningOS.Lib.Stack
import LightningOS.Kernel.Task

/-!
# Interrupts and the switch of stacks

`kernel/interrupt.asm`, and of `kernel/idt.c` and `drivers/timer.c` what decides where the
processor goes on. An interrupt pushes the whole context of the running task onto that
task's own stack. The dispatchers return the stack to continue on, and the stub pops a
context from there.

Everything runs in ring 0, so the processor pushes no stack pointer of its own. Memory is
the one of the heap. The kernel's variables are kept apart in `System`.
-/

namespace LightningOS.Sched

open ByteMemory Mem WordStack

/-! ## The processor -/

structure Cpu where
  eax : UInt32
  ebx : UInt32
  ecx : UInt32
  edx : UInt32
  esi : UInt32
  edi : UInt32
  ebp : UInt32
  esp : Nat
  eip : UInt32
  eflags : UInt32
  cs : UInt16
  ds : UInt16
  es : UInt16
  fs : UInt16
  gs : UInt16

/-- The processor and the memory it works on. -/
structure Core where
  cpu : Cpu
  mem : Memory

/-- `push` of a double word. -/
def Core.push (s : Core) (v : UInt32) : Core :=
  let esp := wrap32 (4294967296 - 4 + s.cpu.esp)
  { cpu := { s.cpu with esp := esp }, mem := store32 s.mem esp v.toNat }

/-- Several of them, the first one first. -/
def Core.pushes (s : Core) (ws : List UInt32) : Core := ws.foldl Core.push s

/-- The double word `i` places up the stack. -/
def Core.word (s : Core) (i : Nat) : UInt32 :=
  UInt32.ofNat (load32 s.mem (wrap32 (4 * i + s.cpu.esp)))

/-- `eax` with a new lower half. -/
def setAx (eax : UInt32) (v : UInt16) : UInt32 :=
  UInt32.ofNat (eax.toNat / 65536 * 65536 + v.toNat)

/-- The lower half of `eax`. -/
def ax (eax : UInt32) : UInt16 := UInt16.ofNat eax.toNat

theorem ax_setAx (eax : UInt32) (v : UInt16) : ax (setAx eax v) = v := by
  have h1 := eax.toNat_lt
  have h2 := v.toNat_lt
  apply UInt16.toNat_inj.mp
  simp only [ax, setAx, UInt16.toNat_ofNat', UInt32.toNat_ofNat']
  omega

/-- `mov ax, v`, with the upper half of the register kept. -/
def Cpu.movAx (v : UInt16) (cpu : Cpu) : Cpu := { cpu with eax := setAx cpu.eax v }

/-- The data segment registers are loaded from `ax`. -/
def Cpu.movSegments (cpu : Cpu) : Cpu :=
  { cpu with ds := ax cpu.eax, es := ax cpu.eax, fs := ax cpu.eax, gs := ax cpu.eax }

/-- An instruction that works on registers only. -/
def Core.onCpu (s : Core) (f : Cpu → Cpu) : Core := { s with cpu := f s.cpu }

/-! ## Into the kernel and out of it -/

inductive Vector where
  | irq (n : Fin 16)
  | yield
  deriving DecidableEq

/-- The line of the timer. -/
abbrev Vector.timer : Vector := .irq 0

/-- `VECTOR_YIELD` is 0x30; the interrupt lines start at 32. -/
def Vector.number : Vector → UInt32
  | .irq n => UInt32.ofNat (32 + n.val)
  | .yield => 0x30

/-- What the processor does by itself: an interrupt gate clears the interrupt flag. -/
def Core.gate (s : Core) : Core :=
  let s := s.pushes [s.cpu.eflags, s.cpu.cs.toUInt32, s.cpu.eip]
  s.onCpu fun cpu => { cpu with cs := 0x08, eflags := cpu.eflags &&& ~~~0x200 }

/-- `irq0` to `irq15` and `yield_entry`: no error code, and the vector. -/
def Core.stub (s : Core) (v : Vector) : Core := s.pushes [0, v.number]

/-- `pusha`. The stack pointer it pushes is the one from before. -/
def Core.pusha (s : Core) : Core :=
  s.pushes [s.cpu.eax, s.cpu.ecx, s.cpu.edx, s.cpu.ebx, UInt32.ofNat s.cpu.esp, s.cpu.ebp,
    s.cpu.esi, s.cpu.edi]

/-- `ENTER_HANDLER`. -/
def Core.enterHandler (s : Core) : Core :=
  let s := s.pusha
  let s := s.onCpu (Cpu.movAx s.cpu.ds)
  let s := s.push s.cpu.eax
  let s := s.onCpu (Cpu.movAx 0x10)
  let s := s.onCpu Cpu.movSegments
  s.push (UInt32.ofNat s.cpu.esp)

/-- From the interrupted instruction to the call of the dispatcher. -/
def Core.deliver (s : Core) (v : Vector) : Core := (s.gate.stub v).enterHandler

/-- `pop` of a double word into `eax`. -/
def Core.popEax (s : Core) : Core :=
  s.onCpu fun cpu => { cpu with eax := s.word 0, esp := wrap32 (4 + cpu.esp) }

/-- `popa`, which throws the pushed stack pointer away. -/
def Core.popa (s : Core) : Core :=
  s.onCpu fun cpu => { cpu with
    edi := s.word 0
    esi := s.word 1
    ebp := s.word 2
    ebx := s.word 4
    edx := s.word 5
    ecx := s.word 6
    eax := s.word 7
    esp := wrap32 (32 + cpu.esp) }

/-- `iret` within ring 0. -/
def Core.iret (s : Core) : Core :=
  s.onCpu fun cpu => { cpu with
    eip := s.word 0
    cs := ax (s.word 1)
    eflags := s.word 2
    esp := wrap32 (12 + cpu.esp) }

/-- `LEAVE_HANDLER`, with the stack pointer that the dispatcher returned. -/
def Core.leaveHandler (s : Core) (ret : Nat) : Core :=
  let s := s.onCpu fun cpu => { cpu with esp := ret }
  let s := s.popEax
  let s := s.onCpu Cpu.movSegments
  let s := s.popa
  let s := s.onCpu fun cpu => { cpu with esp := wrap32 (8 + cpu.esp) }
  s.iret

/-! ## The dispatchers -/

/-- The variables of `task.c` and `timer.c`. -/
structure Kernel where
  sys : System
  ticks : UInt64

def timerCallback (k : Kernel) : Kernel :=
  { sys := taskAccountTick k.sys, ticks := k.ticks + 1 }

/--
`irq_handler`. Of the handlers only the timer's has to do with tasks. The others run
on the interrupted stack and leave the list of tasks and the heap alone.
-/
def irqHandler (k : Kernel) (irq : Fin 16) (regs : Nat) : Option (Nat × Kernel) :=
  let k := if irq = 0 then timerCallback k else k
  (taskSchedule k.sys regs k.ticks).map fun r => (r.1, { k with sys := r.2 })

def yieldHandler (k : Kernel) (regs : Nat) : Option (Nat × Kernel) :=
  (taskSchedule k.sys regs k.ticks).map fun r => (r.1, { k with sys := r.2 })

/-- `irq_common` and `yield_common` call one dispatcher each. -/
def dispatch (k : Kernel) (v : Vector) (regs : Nat) : Option (Nat × Kernel) :=
  match v with
  | .irq n => irqHandler k n regs
  | .yield => yieldHandler k regs

def Kernel.setMem (k : Kernel) (m : Memory) : Kernel :=
  { k with sys := { k.sys with heap := { k.sys.heap with mem := m } } }

/--
An interrupt from end to end. `left` is the memory as the code of the handlers leaves it.
The pointer to the registers that the dispatcher gets is the frame behind the argument.
-/
def interrupt (k : Kernel) (cpu : Cpu) (v : Vector) (left : Memory) : Option (Kernel × Cpu) :=
  let core := Core.deliver { cpu := cpu, mem := k.sys.heap.mem } v
  let regs := core.word 0
  (dispatch (k.setMem left) v regs.toNat).map fun r =>
    (r.2, (Core.leaveHandler { core with mem := r.2.sys.heap.mem } r.1).cpu)

end LightningOS.Sched
