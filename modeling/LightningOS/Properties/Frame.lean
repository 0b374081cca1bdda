import LightningOS.Kernel.Interrupt

/-!
# The frame of an interrupt

What the stubs push on a stack and what they pop from one. The context that comes back
is the one that went in, as long as the fourteen words of the frame stay as they are.
-/

namespace LightningOS.Sched

open ByteMemory Mem WordStack

/-! ## Pushing -/

/-- `s'` has on its stack what `s` had, and `ws` on top of it, the last word lowest. -/
structure Pushed (s s' : Core) (ws : List UInt32) : Prop where
  esp : s'.cpu.esp = s.cpu.esp - 4 * ws.length
  mem : s'.mem = pushAll s.mem s.cpu.esp (ws.map UInt32.toNat)

theorem Pushed.trans {s s' s'' : Core} {ws ws' : List UInt32} (h : Pushed s s' ws)
    (h' : Pushed s' s'' ws') : Pushed s s'' (ws ++ ws') := by
  refine ⟨?_, ?_⟩
  · rw [h'.esp, h.esp, List.length_append]
    omega
  · rw [h'.mem, h.mem, h.esp, List.map_append, pushAll_append, List.length_map]

/-- Registers other than the stack pointer do not matter. -/
theorem Pushed.onCpu {s s' : Core} {ws : List UInt32} (h : Pushed s s' ws) {f : Cpu → Cpu}
    (hf : (f s'.cpu).esp = s'.cpu.esp) : Pushed s (s'.onCpu f) ws :=
  ⟨hf.trans h.esp, h.mem⟩

theorem pushed_push {s : Core} (w : UInt32) (h : 4 ≤ s.cpu.esp) (hlt : s.cpu.esp < 4294967296) :
    Pushed s (s.push w) [w] := by
  have hesp : wrap32 (4294967296 - 4 + s.cpu.esp) = s.cpu.esp - 4 := by
    unfold wrap32
    omega
  simp only [Core.push, hesp]
  exact ⟨rfl, rfl⟩

theorem pushed_pushes {ws : List UInt32} : ∀ {s : Core}, 4 * ws.length ≤ s.cpu.esp →
    s.cpu.esp < 4294967296 → Pushed s (s.pushes ws) ws := by
  induction ws with
  | nil => intro s _ _; exact ⟨rfl, rfl⟩
  | cons w ws ih =>
    intro s h hlt
    rw [List.length_cons] at h
    have hone := pushed_push (s := s) w (by omega) hlt
    have hesp := hone.esp
    rw [List.length_singleton] at hesp
    exact hone.trans (ih (by omega) (by omega))

theorem pushes_cpu {ws : List UInt32} : ∀ {s : Core},
    (s.pushes ws).cpu = { s.cpu with esp := (s.pushes ws).cpu.esp } := by
  induction ws with
  | nil => intro s; rfl
  | cons w ws ih =>
    intro s
    exact ih (s := s.push w)

/-- The registers that `pusha` pushes, with the stack pointer it came with. -/
def pushaWords (cpu : Cpu) : List UInt32 :=
  [cpu.eax, cpu.ecx, cpu.edx, cpu.ebx, UInt32.ofNat cpu.esp, cpu.ebp, cpu.esi, cpu.edi]

theorem pushed_enterHandler {s : Core} (h : 40 ≤ s.cpu.esp) (hlt : s.cpu.esp < 4294967296) :
    Pushed s s.enterHandler (pushaWords s.cpu ++ [setAx s.cpu.eax s.cpu.ds] ++
      [UInt32.ofNat (s.cpu.esp - 36)]) := by
  have h1 : Pushed s s.pusha (pushaWords s.cpu) :=
    pushed_pushes (Nat.le_trans (by decide : 4 * 8 ≤ 40) h) hlt
  have hcpu : s.pusha.cpu = { s.cpu with esp := s.pusha.cpu.esp } := pushes_cpu
  have e1 : s.pusha.cpu.esp = s.cpu.esp - 32 := h1.esp
  dsimp only [Core.enterHandler]
  generalize s.pusha = p at h1 hcpu e1
  -- the data segment goes through `ax`
  have h2 := h1.onCpu (f := Cpu.movAx p.cpu.ds) rfl
  have e2 : (p.onCpu (Cpu.movAx p.cpu.ds)).cpu.esp = s.cpu.esp - 32 := e1
  have hax : (p.onCpu (Cpu.movAx p.cpu.ds)).cpu.eax = setAx s.cpu.eax s.cpu.ds := by
    show setAx p.cpu.eax p.cpu.ds = _
    rw [hcpu]
  generalize p.onCpu (Cpu.movAx p.cpu.ds) = q at h2 e2 hax
  have h3 := h2.trans (pushed_push q.cpu.eax (by omega) (by omega))
  rw [hax] at h3 ⊢
  have h4 := (h3.onCpu (f := Cpu.movAx 0x10) rfl).onCpu (f := Cpu.movSegments) rfl
  have e4 := h4.esp
  generalize ((q.push _).onCpu _).onCpu _ = r at h4 e4
  have e5 : r.cpu.esp = s.cpu.esp - 36 := e4
  rw [e5]
  exact h4.trans (pushed_push _ (by omega) (by omega))

/-- The words of `registers_t`, the first one pushed first. -/
def frameWords (cpu : Cpu) (v : UInt32) : List UInt32 :=
  [cpu.eflags, cpu.cs.toUInt32, cpu.eip] ++ [0, v] ++
    (pushaWords { cpu with esp := cpu.esp - 20 } ++ [setAx cpu.eax cpu.ds])

/-- **Everything an interrupt pushes**, until the dispatcher is called. -/
theorem pushed_deliver {s : Core} {v : Vector} (h : 60 ≤ s.cpu.esp)
    (hlt : s.cpu.esp < 4294967296) : Pushed s (s.deliver v)
      (frameWords s.cpu v.number ++ [UInt32.ofNat (s.cpu.esp - 56)]) := by
  have hflags : Pushed s (s.pushes [s.cpu.eflags, s.cpu.cs.toUInt32, s.cpu.eip]) _ := pushed_pushes
    (Nat.le_trans (by decide : 4 * 3 ≤ 60) h) hlt
  have hcpu : s.gate.cpu = { s.cpu with
      esp := s.gate.cpu.esp, cs := 0x08, eflags := s.cpu.eflags &&& ~~~0x200 } := by
    dsimp only [Core.gate, Core.onCpu]
    rw [pushes_cpu]
  have hgate : Pushed s s.gate [s.cpu.eflags, s.cpu.cs.toUInt32, s.cpu.eip] :=
    ⟨hflags.esp, hflags.mem⟩
  have e1 : s.gate.cpu.esp = s.cpu.esp - 12 := hgate.esp
  unfold Core.deliver
  generalize s.gate = g at hcpu hgate e1
  have hstub : Pushed g (g.stub v) [0, v.number] := by
    refine pushed_pushes ?_ (by omega)
    rw [e1]
    show 8 ≤ _
    omega
  have hcpu' : (g.stub v).cpu = { g.cpu with esp := (g.stub v).cpu.esp } := pushes_cpu
  have e2 := hstub.esp
  generalize g.stub v = t at hstub hcpu' e2
  have e3 : t.cpu.esp = s.cpu.esp - 20 := by
    rw [e2, e1]
    exact Nat.sub_sub _ _ _
  have hregs : t.cpu = { s.cpu with
      esp := s.cpu.esp - 20, cs := 0x08, eflags := s.cpu.eflags &&& ~~~0x200 } := by
    rw [hcpu', e3, hcpu]
  have hreg : pushaWords t.cpu = pushaWords { s.cpu with esp := s.cpu.esp - 20 } := by
    rw [hregs]
    rfl
  have hall := (hgate.trans hstub).trans (pushed_enterHandler (s := t) (by omega) (by omega))
  rw [hreg, show t.cpu.eax = s.cpu.eax by rw [hregs], show t.cpu.ds = s.cpu.ds by rw [hregs],
    show t.cpu.esp - 36 = s.cpu.esp - 56 by omega] at hall
  rw [frameWords, List.append_assoc _ (_ ++ _)]
  exact hall

/-! ## Popping a context -/

/-- The context that popping the frame at `f` leads to. -/
def poppedCpu (m : Memory) (f : Nat) : Cpu :=
  let word := fun i => UInt32.ofNat (load32 m (f + 4 * i))
  { edi := word 1, esi := word 2, ebp := word 3, ebx := word 5, edx := word 6
    ecx := word 7, eax := word 8, eip := word 11, cs := ax (word 12), eflags := word 13
    ds := ax (word 0), es := ax (word 0), fs := ax (word 0), gs := ax (word 0)
    esp := f + sizeofBootFrame }

theorem leaveHandler_eq {s : Core} {f : Nat} (h : f + sizeofBootFrame < 4294967296) :
    s.leaveHandler f = { s with cpu := poppedCpu s.mem f } := by
  simp only [sizeofBootFrame] at h
  have hword : ∀ {n : Nat}, n ≤ 56 → wrap32 (n + f) = f + n := by
    intro n hn
    unfold wrap32
    omega
  have h36 : wrap32 (32 + (f + 4)) = f + 36 := by unfold wrap32; omega
  have h44 : wrap32 (8 + (f + 36)) = f + 44 := by unfold wrap32; omega
  have h56 : wrap32 (12 + (f + 44)) = f + 56 := by unfold wrap32; omega
  have hup : ∀ i, i ≤ 8 → wrap32 (4 * i + (f + 4)) = f + 4 * (i + 1) := by
    intro i hi
    unfold wrap32
    omega
  have hup' : ∀ i, i ≤ 3 → wrap32 (4 * i + (f + 44)) = f + 4 * (i + 11) := by
    intro i hi
    unfold wrap32
    omega
  simp only [Core.leaveHandler, Core.popEax, Core.onCpu, Cpu.movSegments, Core.popa, Core.iret,
    Core.word, poppedCpu, sizeofBootFrame, hword (by decide : 4 ≤ 56), h36, h44, h56]
  rw [hup 0 (by decide), hup 1 (by decide), hup 2 (by decide), hup 4 (by decide),
    hup 5 (by decide), hup 6 (by decide), hup 7 (by decide), hup' 0 (by decide),
    hup' 1 (by decide), hup' 2 (by decide), hword (by decide : 4 * 0 ≤ 56)]

/-- What coming back from an interrupt changes: one data segment for all. -/
def Cpu.resumed (cpu : Cpu) : Cpu := { cpu with es := cpu.ds, fs := cpu.ds, gs := cpu.ds }

theorem ax_toUInt32 (v : UInt16) : ax v.toUInt32 = v := by
  apply UInt16.toNat_inj.mp
  have := v.toNat_lt
  simp only [ax, UInt16.toNat_ofNat', UInt16.toNat_toUInt32]
  omega

/-- **A context that was pushed is the one that is popped**, if its frame is still there. -/
theorem poppedCpu_deliver {s : Core} {v : Vector} {m : Memory} (h : 60 ≤ s.cpu.esp)
    (hlt : s.cpu.esp < 4294967296)
    (hm : ∀ x, s.cpu.esp - 56 ≤ x → x < s.cpu.esp → m x = (s.deliver v).mem x) :
    poppedCpu m (s.cpu.esp - 56) = s.cpu.resumed := by
  have hframe : (frameWords s.cpu v.number).length = 14 := rfl
  have hdel : (s.deliver v).mem =
      store32 (pushAll s.mem s.cpu.esp ((frameWords s.cpu v.number).map UInt32.toNat))
        (s.cpu.esp - 56 - 4) (UInt32.ofNat (s.cpu.esp - 56)).toNat := by
    rw [(pushed_deliver h hlt).mem, List.map_append, pushAll_append, List.length_map, hframe]
    rfl
  have hwords : Words m (s.cpu.esp - 56) ((frameWords s.cpu v.number).map UInt32.toNat).reverse := by
    have hpush : Words (pushAll s.mem s.cpu.esp ((frameWords s.cpu v.number).map UInt32.toNat))
        (s.cpu.esp - 56) ((frameWords s.cpu v.number).map UInt32.toNat).reverse := by
      have hall : Words (pushAll s.mem s.cpu.esp ((frameWords s.cpu v.number).map UInt32.toNat))
          _ (_ ++ []) := words_pushAll trivial
        (by rw [List.length_map, hframe]; omega) fun w hw => by
          obtain ⟨u, -, rfl⟩ := List.mem_map.mp hw
          exact u.toNat_lt
      rwa [List.append_nil, List.length_map, hframe] at hall
    refine hpush.congr fun x h1 h2 => ?_
    rw [List.length_reverse, List.length_map, hframe] at h2
    rw [hm x h1 (by omega), hdel]
    exact store32_other (Or.inr (by omega))
  have hget : ∀ i (hi : i < 14), UInt32.ofNat (load32 m (s.cpu.esp - 56 + 4 * i)) =
      (frameWords s.cpu v.number).reverse[i] := by
    intro i hi
    have := hwords.get (i := i) (by rw [List.length_reverse, List.length_map, hframe]; exact hi)
    rw [this]
    simp only [← List.map_reverse, List.getElem_map, UInt32.ofNat_toNat]
    rfl
  have h0 : _ = setAx s.cpu.eax s.cpu.ds := hget 0 (by decide)
  have h1 : _ = s.cpu.edi := hget 1 (by decide)
  have h2 : _ = s.cpu.esi := hget 2 (by decide)
  have h3 : _ = s.cpu.ebp := hget 3 (by decide)
  have h5 : _ = s.cpu.ebx := hget 5 (by decide)
  have h6 : _ = s.cpu.edx := hget 6 (by decide)
  have h7 : _ = s.cpu.ecx := hget 7 (by decide)
  have h8 : _ = s.cpu.eax := hget 8 (by decide)
  have h11 : _ = s.cpu.eip := hget 11 (by decide)
  have h12 : _ = s.cpu.cs.toUInt32 := hget 12 (by decide)
  have h13 : _ = s.cpu.eflags := hget 13 (by decide)
  have hesp : s.cpu.esp - 56 + sizeofBootFrame = s.cpu.esp := Nat.sub_add_cancel (by omega)
  simp only [poppedCpu, h0, h1, h2, h3, h5, h6, h7, h8, h11, h12, h13, ax_setAx, ax_toUInt32, hesp]
  rfl

/-- The argument of the dispatcher is the address of the frame. -/
theorem deliver_argument {s : Core} {v : Vector} (h : 60 ≤ s.cpu.esp)
    (hlt : s.cpu.esp < 4294967296) : ((s.deliver v).word 0).toNat = s.cpu.esp - 56 := by
  have hpush := pushed_deliver (v := v) h hlt
  have hframe : (frameWords s.cpu v.number).length = 14 := rfl
  have hesp : (s.deliver v).cpu.esp = s.cpu.esp - 60 := hpush.esp
  have hword : load32 (s.deliver v).mem (s.cpu.esp - 60) =
      wrap32 (UInt32.ofNat (s.cpu.esp - 56)).toNat := by
    rw [hpush.mem, List.map_append, pushAll_append, List.length_map, hframe,
      show s.cpu.esp - 60 = s.cpu.esp - 4 * 14 - 4 by omega]
    exact load32_store32_same _ _ _
  have haddr : wrap32 (4 * 0 + (s.cpu.esp - 60)) = s.cpu.esp - 60 := by
    unfold wrap32
    omega
  have hnum : (UInt32.ofNat (s.cpu.esp - 56)).toNat = s.cpu.esp - 56 := by
    rw [UInt32.toNat_ofNat']
    omega
  rw [Core.word, hesp, haddr, hword, hnum, wrap32_of_lt (by omega), hnum]

/-- A frame below the interrupted stack pointer, and nothing else. -/
theorem deliver_other {s : Core} {v : Vector} {x : Nat} (h : 60 ≤ s.cpu.esp)
    (hlt : s.cpu.esp < 4294967296) (hx : x < s.cpu.esp - 60 ∨ s.cpu.esp ≤ x) :
    (s.deliver v).mem x = s.mem x := by
  rw [(pushed_deliver h hlt).mem]
  have hlen : ((frameWords s.cpu v.number ++ [UInt32.ofNat (s.cpu.esp - 56)]).map
      UInt32.toNat).length = 15 := rfl
  exact pushAll_other (by rw [hlen]; omega) (by rw [hlen]; omega)

end LightningOS.Sched
