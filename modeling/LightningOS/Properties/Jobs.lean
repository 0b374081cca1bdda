import LightningOS.Kernel.Jobs
import LightningOS.Properties.Effects
import LightningOS.Properties.Numbers
import LightningOS.Properties.Words

/-!
# The numbers of tasks

Every task that is started gets the next number, so as long as fewer than 2³² tasks were
started the tasks that exist have different numbers and none comes back. What `spawn` prints
therefore keeps naming one task, and `kill` hits that one or nothing.
-/

namespace LightningOS.Sched

open ByteMemory Mem

variable {r r' : Run} {c idle i : Slot} {l : List Slot} {bs : List BlockList.Blk} {op : TaskOp}

/-! ## Who is there after an operation -/

/-- The operation starts a task. -/
def starts (r : Run) : TaskOp → Bool
  | .spawn bootstrap name entry arg =>
    (taskSpawn r.sys bootstrap name entry arg).any fun res => res.1.isSome
  | _ => false

/-- Nobody came, and whoever stayed is the same. -/
structure NoneCame (r r' : Run) : Prop where
  idle : r'.sys.idle = r.sys.idle
  nextId : r'.sys.nextId = r.sys.nextId
  stayed : ∀ i, (r'.sys.tasks i).state ≠ .unused → (r.sys.tasks i).state ≠ .unused ∧
    (r'.sys.tasks i).who = (r.sys.tasks i).who

/-- One task came, to a slot that was free, with the next number. -/
structure OneCame (r r' : Run) (i : Slot) : Prop where
  idle : r'.sys.idle = r.sys.idle
  nextId : r'.sys.nextId = r.sys.nextId + 1
  free : (r.sys.tasks i).state = .unused
  id : (r'.sys.tasks i).id = r.sys.nextId + 1
  ready : (r'.sys.tasks i).state = .ready
  stayed : ∀ j, j ≠ i → (r'.sys.tasks j).state ≠ .unused → (r.sys.tasks j).state ≠ .unused ∧
    (r'.sys.tasks j).who = (r.sys.tasks j).who

theorem spawn_came {bootstrap entry arg : Nat} {name : List UInt8}
    (hrun : runStep r (.spawn bootstrap name entry arg) = some r') :
    (starts r (.spawn bootstrap name entry arg) = false ∧ NoneCame r r') ∨
      (starts r (.spawn bootstrap name entry arg) = true ∧ ∃ i, OneCame r r' i ∧
        taskSpawn r.sys bootstrap name entry arg = some (some i, r'.sys)) := by
  obtain ⟨⟨res, s'⟩, hspawn, rfl⟩ := Option.map_eq_some_iff.mp hrun
  rcases taskSpawn_cases hspawn with ⟨rfl, h⟩ | ⟨i, p, heap, rfl, halloc, -, -, rfl⟩
  · refine Or.inl ⟨by simp only [starts, hspawn, Option.any_some, Option.isSome_none], ?_⟩
    rcases h with rfl | ⟨heap, -, rfl⟩
    · exact ⟨rfl, rfl, fun _ h => ⟨h, rfl⟩⟩
    · exact ⟨rfl, rfl, fun _ h => ⟨h, rfl⟩⟩
  · refine Or.inr ⟨by simp only [starts, hspawn, Option.any_some, Option.isSome_some], i,
      ⟨rfl, rfl, allocTask_unused halloc, ?_, ?_, fun j hj h => ?_⟩, hspawn⟩
    · show (listInsert (setTask r.sys.tasks i _) r.sys.current i i).id = _
      rw [listInsert_congr Task.id (fun _ _ => rfl), setTask_same]
      rfl
    · show (listInsert (setTask r.sys.tasks i _) r.sys.current i i).state = _
      rw [listInsert_congr Task.state (fun _ _ => rfl), setTask_same]
      rfl
    · have hsame : ∀ {β : Type} (f : Task → β), (∀ t n, f { t with next := n } = f t) →
          f (listInsert (setTask r.sys.tasks i (newTask r.sys name entry arg p)) r.sys.current i j) =
            f (r.sys.tasks j) := fun f hf => by
        rw [listInsert_congr f hf, setTask_other hj]
      have hstate := hsame Task.state fun _ _ => rfl
      exact ⟨fun hu => h (hstate.trans hu), hsame Task.who fun _ _ => rfl⟩

theorem setTask_noneCame {j : Slot} {t : Task} {current : Option Slot} {started : Bool}
    (hlist : (r.sys.tasks j).state ≠ .unused) (hwho : t.who = (r.sys.tasks j).who) :
    NoneCame r { r with sys := { r.sys with
      tasks := setTask r.sys.tasks j t, current := current, started := started } } := by
  refine ⟨rfl, rfl, fun i h => ⟨?_, setTask_congr Task.who hwho i⟩⟩
  by_cases hij : i = j
  · rw [hij]
    exact hlist
  · have h' : (setTask r.sys.tasks j t i).state ≠ .unused := h
    rwa [setTask_other hij] at h'

theorem Inv.schedule_noneCame (hi : Inv r c idle l bs) {esp : Nat} {now : UInt64}
    (hrun : runStep r (.schedule esp now) = some r') : NoneCame r r' := by
  obtain ⟨tasks', n, hs, heq⟩ := taskSchedule_eq hi esp now
  rw [runStep, heq] at hrun
  obtain rfl := Option.some.inj hrun
  have hwho := taskSchedule_congr Task.who (fun _ _ => rfl) (wake_who now) (fun _ _ => rfl) heq
  refine ⟨?_, ?_, fun i h => ⟨fun hu => h ?_, hwho i⟩⟩
  · show (if n = c then _ else _ : Nat × System).2.idle = _
    split <;> rfl
  · show (if n = c then _ else _ : Nat × System).2.nextId = _
    split <;> rfl
  · have hstate : (tasks' i).state = .unused := (hs.retasked.unused i).mpr hu
    show ((if n = c then _ else _ : Nat × System).2.tasks i).state = _
    split
    · exact hstate
    · exact (setTask_congr Task.state (by rfl) i).trans hstate

theorem Inv.kill_noneCame (hi : Inv r c idle l bs) {id : UInt32}
    (hrun : runStep r (.kill id) = some r') : NoneCame r r' := by
  rw [runStep, taskKill, hi.current] at hrun
  dsimp only at hrun
  rw [killLoop_eq hi id] at hrun
  have hsame : NoneCame r r := ⟨rfl, rfl, fun _ h => ⟨h, rfl⟩⟩
  cases hfind : (c :: l).find? fun t => (r.sys.tasks t).id = id ∧
      (r.sys.tasks t).state ≠ .unused ∧ (r.sys.tasks t).state ≠ .dead with
  | none =>
    rw [hfind] at hrun
    obtain rfl := Option.some.inj hrun
    exact hsame
  | some j =>
    rw [hfind] at hrun
    dsimp only at hrun
    split at hrun
    · obtain rfl := Option.some.inj hrun
      exact hsame
    · have hmatch := List.find?_some hfind
      rw [decide_eq_true_eq] at hmatch
      obtain rfl := Option.some.inj hrun
      exact setTask_noneCame hmatch.2.1 rfl

theorem Inv.reap_noneCame (hi : Inv r c idle l bs) (hrun : runStep r .reap = some r') :
    NoneCame r r' := by
  obtain ⟨s', hreap, rfl⟩ := Option.map_eq_some_iff.mp hrun
  rw [taskReap, hi.current] at hreap
  dsimp only at hreap
  cases hnext : (r.sys.tasks c).next with
  | none => simp [hnext] at hreap
  | some n =>
    rw [hnext] at hreap
    obtain ⟨htask, -, hidle, -, hid⟩ := reapLoop_task hreap
    refine ⟨hidle, hid, fun i h => ⟨fun hu => h ?_, congrArg Prod.fst (htask i).record⟩⟩
    show (s'.tasks i).unlinked.state = .unused
    rcases htask i with he | ⟨-, he⟩ <;> rw [he]
    · exact hu
    · rfl

/-- **No operation but `task_spawn` brings a task**, and none changes what a task is. -/
theorem Inv.came (hi : Inv r c idle l bs) (hrun : runStep r op = some r') :
    (starts r op = false ∧ NoneCame r r') ∨ (starts r op = true ∧ ∃ i, OneCame r r' i) := by
  cases op with
  | spawn bootstrap name entry arg =>
    rcases spawn_came hrun with h | ⟨h, i, h', -⟩
    · exact Or.inl h
    · exact Or.inr ⟨h, i, h'⟩
  | schedule esp now => exact Or.inl ⟨rfl, hi.schedule_noneCame hrun⟩
  | tick =>
    rw [runStep, taskAccountTick, hi.started, hi.current] at hrun
    obtain rfl := Option.some.inj hrun
    exact Or.inl ⟨rfl, setTask_noneCame hi.current_listed rfl⟩
  | sleep now ms =>
    have hst : ¬r.sys.started = false := by simp [hi.started]
    rw [runStep, taskSleepMs, if_neg hst, hi.current] at hrun
    obtain rfl := Option.some.inj hrun
    exact Or.inl ⟨rfl, setTask_noneCame hi.current_listed rfl⟩
  | exit =>
    rw [runStep, taskExit] at hrun
    split at hrun
    · exact absurd hrun.symm (Option.some_ne_none _)
    · rw [hi.current] at hrun
      obtain rfl := Option.some.inj hrun
      exact Or.inl ⟨rfl, setTask_noneCame hi.current_listed rfl⟩
  | kill id => exact Or.inl ⟨rfl, hi.kill_noneCame hrun⟩
  | reap => exact Or.inl ⟨rfl, hi.reap_noneCame hrun⟩
  | heap op =>
    rw [runStep] at hrun
    obtain ⟨h, -, rfl⟩ := Option.map_eq_some_iff.mp hrun
    exact Or.inl ⟨rfl, rfl, rfl, fun _ h => ⟨h, rfl⟩⟩

/-! ## Numbers -/

/-- The numbers when `n` tasks were started so far. -/
structure Numbers (n : Nat) (r : Run) : Prop where
  nextId : r.sys.nextId.toNat = n
  idle : ∀ i, r.sys.idle = some i → (r.sys.tasks i).id = 0
  given : ∀ i, (r.sys.tasks i).state ≠ .unused → r.sys.idle ≠ some i →
    0 < (r.sys.tasks i).id.toNat ∧ (r.sys.tasks i).id.toNat ≤ n
  inj : ∀ i j, (r.sys.tasks i).state ≠ .unused → (r.sys.tasks j).state ≠ .unused →
    (r.sys.tasks i).id = (r.sys.tasks j).id → i = j

theorem Numbers.le {n : Nat} (hn : Numbers n r) (hlist : (r.sys.tasks i).state ≠ .unused) :
    (r.sys.tasks i).id.toNat ≤ n := by
  by_cases hidle : r.sys.idle = some i
  · rw [hn.idle i hidle]
    exact Nat.zero_le n
  · exact (hn.given i hlist hidle).2

theorem NoneCame.numbers (h : NoneCame r r') {n : Nat} (hn : Numbers n r)
    (hidle : ∀ i, r.sys.idle = some i → (r'.sys.tasks i).state ≠ .unused) : Numbers n r' := by
  have hid : ∀ i, (r'.sys.tasks i).state ≠ .unused → (r'.sys.tasks i).id = (r.sys.tasks i).id :=
    fun i hi => congrArg (fun w => w.1) (h.stayed i hi).2
  refine ⟨by rw [h.nextId, hn.nextId], fun i hi => ?_, fun i hi hne => ?_, fun i j hi hj heq => ?_⟩
  · rw [h.idle] at hi
    rw [hid i (hidle i hi), hn.idle i hi]
  · rw [hid i hi]
    exact hn.given i (h.stayed i hi).1 (h.idle ▸ hne)
  · rw [hid i hi, hid j hj] at heq
    exact hn.inj i j (h.stayed i hi).1 (h.stayed j hj).1 heq

theorem OneCame.numbers (h : OneCame r r' i) {n : Nat} (hn : Numbers n r)
    (hsmall : n + 1 < 4294967296)
    (hidle : ∀ j, r.sys.idle = some j → j ≠ i ∧ (r'.sys.tasks j).state ≠ .unused) :
    Numbers (n + 1) r' := by
  have hid : ∀ j, j ≠ i → (r'.sys.tasks j).state ≠ .unused →
      (r'.sys.tasks j).id = (r.sys.tasks j).id :=
    fun j hj hlist => congrArg (fun w => w.1) (h.stayed j hj hlist).2
  have hnext : (r.sys.nextId + 1).toNat = n + 1 := by
    rw [UInt32.toNat_add, hn.nextId, UInt32.toNat_one]
    exact Nat.mod_eq_of_lt hsmall
  have hnew : (r'.sys.tasks i).id.toNat = n + 1 := by rw [h.id, hnext]
  -- the numbers of the others are smaller
  have hold : ∀ j, j ≠ i → (r'.sys.tasks j).state ≠ .unused → (r'.sys.tasks j).id.toNat ≤ n :=
    fun j hj hlist => by
      rw [hid j hj hlist]
      exact hn.le (h.stayed j hj hlist).1
  refine ⟨by rw [h.nextId, hnext], fun j hj => ?_, fun j hj hne => ?_, fun j k hj hk heq => ?_⟩
  · rw [h.idle] at hj
    rw [hid j (hidle j hj).1 (hidle j hj).2, hn.idle j hj]
  · by_cases hji : j = i
    · rw [hji, hnew]
      exact ⟨Nat.succ_pos n, Nat.le_refl _⟩
    · rw [hid j hji hj]
      have hgiven := hn.given j (h.stayed j hji hj).1 (h.idle ▸ hne)
      exact ⟨hgiven.1, Nat.le_succ_of_le hgiven.2⟩
  · by_cases hji : j = i <;> by_cases hki : k = i
    · rw [hji, hki]
    · rw [hji] at heq
      have hle := hold k hki hk
      rw [← heq, hnew] at hle
      omega
    · rw [hki] at heq
      have hle := hold j hji hj
      rw [heq, hnew] at hle
      omega
    · rw [hid j hji hj, hid k hki hk] at heq
      exact hn.inj j k (h.stayed j hji hj).1 (h.stayed k hki hk).1 heq

/-- How many tasks the operation starts. -/
def newcomers (r : Run) (op : TaskOp) : Nat := if starts r op then 1 else 0

theorem Inv.step_numbers (hi : Inv r c idle l bs) {n : Nat} (hn : Numbers n r)
    (ha : Allowed r op) (hrun : runStep r op = some r') (hsmall : n + newcomers r op < 4294967296) :
    (∃ c' l' bs', Inv r' c' idle l' bs') ∧ Numbers (n + newcomers r op) r' := by
  obtain ⟨r₁, c', l', bs', hrun', hi', -⟩ := runStep_inv hi ha
  rw [hrun] at hrun'
  obtain rfl := Option.some.inj hrun'
  have hidle : ∀ j, r.sys.idle = some j → (r'.sys.tasks j).state ≠ .unused := fun j hj => by
    rw [hi.idle_eq, Option.some.injEq] at hj
    exact hj ▸ hi'.idle_listed
  refine ⟨⟨c', l', bs', hi'⟩, ?_⟩
  rcases hi.came hrun with ⟨hst, h⟩ | ⟨hst, i, h⟩
  · simp only [newcomers, hst] at hsmall ⊢
    exact h.numbers hn hidle
  · simp only [newcomers, hst, if_true] at hsmall ⊢
    refine h.numbers hn hsmall fun j hj => ⟨fun hji => ?_, hidle j hj⟩
    rw [hi.idle_eq, Option.some.injEq] at hj
    exact hi.idle_listed (by rw [hj, hji, h.free])

/-- The runs from `task_init`, and how many tasks were started. -/
inductive Numbered (mem : Memory) (src : List E820Entry) : Nat → Run → Prop
  | init {s : System} {live : List Nat} {saved : Slot → Nat} :
      Mem.Reach mem src { heap := s.heap, live := live } → s.nextId = 0 →
      Numbered mem src 0 { sys := taskInit s, live := live, saved := saved }
  | step {n : Nat} {r r' : Run} {op : TaskOp} : Numbered mem src n r → Allowed r op →
      runStep r op = some r' → Numbered mem src (n + newcomers r op) r'

theorem numbered_inv {mem : Memory} {src : List E820Entry} {n : Nat} (h : Numbered mem src n r) :
    n < 4294967296 → (∃ c idle l bs, Inv r c idle l bs) ∧ Numbers n r := by
  induction h with
  | @init s live saved hh hzero =>
    intro _
    obtain ⟨bs, hi⟩ := Mem.reach_inv hh
    have hinv : Inv { sys := taskInit s, live := live, saved := saved } _ _ [] bs := taskInit_inv hi
    have honly : ∀ i : Slot, ((taskInit s).tasks i).state ≠ .unused → i = ⟨0, by decide⟩ :=
      fun i hlist => by simpa using (hinv.mem i).mpr hlist
    refine ⟨⟨_, _, [], bs, hinv⟩, by rw [show (taskInit s).nextId = s.nextId from rfl, hzero]; rfl,
      fun i hidle => ?_, fun i hlist hne => ?_, fun i j hi hj _ => (honly i hi).trans (honly j hj).symm⟩
    · obtain rfl := Option.some.inj hidle
      rfl
    · exact absurd (by rw [honly i hlist]; rfl) hne
  | @step n r r' op _ ha hrun ih =>
    intro hsmall
    obtain ⟨⟨c, idle, l, bs, hi⟩, hn⟩ := ih (by omega)
    obtain ⟨⟨c', l', bs', hi'⟩, hn'⟩ := hi.step_numbers hn ha hrun hsmall
    exact ⟨⟨c', idle, l', bs', hi'⟩, hn'⟩

/-! ## What becomes of one task -/

/-- The run goes on from `r` and starts `k` tasks, and `there` tells whether the task in the
slot was not reaped. -/
inductive Onward (i : Slot) (r : Run) : Nat → Bool → Run → Prop
  | here : Onward i r 0 true r
  | step {k : Nat} {there : Bool} {r₁ r₂ : Run} {op : TaskOp} : Onward i r k there r₁ →
      Allowed r₁ op → runStep r₁ op = some r₂ →
      Onward i r (k + newcomers r₁ op) (there && (r₂.sys.tasks i).state != .unused) r₂

/-- A number that was given out names the task that got it, or nothing. -/
structure Owns (i : Slot) (pid : UInt32) (there : Bool) (r : Run) : Prop where
  listed : there = true → (r.sys.tasks i).state ≠ .unused ∧ (r.sys.tasks i).id = pid
  only : ∀ j, (r.sys.tasks j).state ≠ .unused → (r.sys.tasks j).id = pid → j = i ∧ there = true

theorem Owns.step {pid : UInt32} {there : Bool} {n : Nat} (ho : Owns i pid there r)
    (hi : Inv r c idle l bs) (hn : Numbers n r) (hpid : pid.toNat ≤ n) (hrun : runStep r op = some r')
    (hsmall : n + newcomers r op < 4294967296) :
    Owns i pid (there && (r'.sys.tasks i).state != .unused) r' := by
  -- whoever was there before keeps its number, and it is not given out again
  have hstay : ∀ j, (r'.sys.tasks j).state ≠ .unused →
      ((r.sys.tasks j).state ≠ .unused ∧ (r'.sys.tasks j).id = (r.sys.tasks j).id) ∨
        ((r.sys.tasks j).state = .unused ∧ (r'.sys.tasks j).id ≠ pid) := by
    intro j hj
    rcases hi.came hrun with ⟨-, h⟩ | ⟨hst, k, h⟩
    · exact Or.inl ⟨(h.stayed j hj).1, congrArg (fun w => w.1) (h.stayed j hj).2⟩
    · by_cases hjk : j = k
      · refine Or.inr ⟨hjk ▸ h.free, fun heq => ?_⟩
        rw [newcomers, hst, if_pos rfl] at hsmall
        rw [hjk, h.id] at heq
        rw [← heq, UInt32.toNat_add, hn.nextId, UInt32.toNat_one,
          Nat.mod_eq_of_lt hsmall] at hpid
        omega
      · exact Or.inl ⟨(h.stayed j hjk hj).1, congrArg (fun w => w.1) (h.stayed j hjk hj).2⟩
  refine ⟨fun hthere => ?_, fun j hj heq => ?_⟩
  · rw [Bool.and_eq_true, bne_iff_ne] at hthere
    refine ⟨hthere.2, ?_⟩
    obtain ⟨hlist, hid⟩ := ho.listed hthere.1
    rcases hstay i hthere.2 with h | h
    · exact h.2.trans hid
    · exact absurd h.1 hlist
  · rcases hstay j hj with h | h
    · obtain ⟨hji, hthere⟩ := ho.only j h.1 (h.2.symm.trans heq)
      refine ⟨hji, ?_⟩
      rw [Bool.and_eq_true, bne_iff_ne]
      exact ⟨hthere, hji ▸ hj⟩
    · exact absurd heq h.2

theorem Onward.owns {pid : UInt32} {n k : Nat} {there : Bool} {r₂ : Run} (h : Onward i r k there r₂)
    (hi : Inv r c idle l bs) (hn : Numbers n r) (ho : Owns i pid true r) (hpid : pid.toNat ≤ n) :
    n + k < 4294967296 → (∃ c' l' bs', Inv r₂ c' idle l' bs') ∧ Numbers (n + k) r₂ ∧
      Owns i pid there r₂ := by
  induction h with
  | here => exact fun _ => ⟨⟨c, l, bs, hi⟩, hn, ho⟩
  | step _ ha hrun ih =>
    intro hsmall
    rw [← Nat.add_assoc] at hsmall ⊢
    obtain ⟨⟨c₁, l₁, bs₁, hi₁⟩, hn₁, ho₁⟩ := ih (by omega)
    obtain ⟨hi₂, hn₂⟩ := hi₁.step_numbers hn₁ ha hrun hsmall
    exact ⟨hi₂, hn₂, ho₁.step hi₁ hn₁ (Nat.le_trans hpid (Nat.le_add_right _ _)) hrun hsmall⟩

end LightningOS.Sched

namespace LightningOS.Jobs

open ByteMemory CString Mem Numeral Printf Sched Shell StrSplit

variable {e : Entries} {r r₁ r₂ : Run} {i : Slot} {pid : UInt32} {line kind : List UInt8}
  {seconds : Int32} {s' : System}

/-! ## The texts -/

theorem parseIntLoop_digits {digits : List UInt8} (h : ∀ c ∈ digits, isDigit c = true) :
    parseInt digits = Int32.ofNat (Nat.ofDigits 10 (digits.reverse.map digitValue)) := by
  have hloop : ∀ {digits : List UInt8} (w : Nat), (∀ c ∈ digits, isDigit c = true) →
      parseIntLoop (Int32.ofNat w) digits =
        Int32.ofNat (w * 10 ^ digits.length + Nat.ofDigits 10 (digits.reverse.map digitValue)) := by
    intro digits
    induction digits with
    | nil =>
      intro w _
      rw [List.length_nil, Nat.pow_zero, Nat.mul_one]
      rfl
    | cons c digits ih =>
      intro w hdigits
      have hc := hdigits c List.mem_cons_self
      have hvalue : digitValue c = c.toNat - 48 := by
        rw [isDigit, Bool.and_eq_true, decide_eq_true_eq, decide_eq_true_eq] at hc
        exact if_pos hc.2
      have hstep : Int32.ofNat w * 10 + Int32.ofNat (c.toNat - 48) =
          Int32.ofNat (w * 10 + (c.toNat - 48)) := by
        rw [Int32.ofNat_add, Int32.ofNat_mul]
        rfl
      rw [parseIntLoop, if_pos hc, hstep, ih _ fun d hd => hdigits d (List.mem_cons_of_mem c hd),
        List.reverse_cons, List.map_append, Nat.ofDigits_append, List.length_map,
        List.length_reverse, List.map_singleton, Nat.ofDigits_singleton, hvalue, List.length_cons]
      congr 1
      ring
  have h0 := hloop 0 h
  rwa [Nat.zero_mul, Nat.zero_add] at h0

theorem formatUint_digits (pid : UInt32) :
    ∀ c ∈ formatUint pid 10 false, isDigit c = true ∧ isSpace c = false := by
  intro c hc
  rw [formatUint_eq (by decide)] at hc
  obtain ⟨d, hd, rfl⟩ := mem_numeral (by decide) hc
  exact (by decide : ∀ d < 10, isDigit (digitChar false d) = true ∧
    isSpace (digitChar false d) = false) d hd

/-- **A number that is printed is read back.** -/
theorem parseInt_formatUint (pid : UInt32) :
    (parseInt (formatUint pid 10 false)).toUInt32 = pid := by
  rw [parseIntLoop_digits fun c hc => (formatUint_digits pid c hc).1, formatUint_eq (by decide)]
  have h : Nat.ofDigits 10 ((numeral (digitChar false) 10 pid.toNat).reverse.map digitValue) =
      pid.toNat :=
    ofDigits_numeral (by decide) (fun d hd => digitValue_digitChar false d (by omega)) pid.toNat
  rw [show (10 : UInt32).toNat = 10 from rfl, h]
  exact UInt32.ofNat_toNat

/-- What is typed to terminate a task. -/
def killLine (pid : UInt32) : List UInt8 := ofString "kill " ++ formatUint pid 10 false

theorem strSplit_killLine (pid : UInt32) :
    strSplit argMax (killLine pid) = [ofString "kill", formatUint pid 10 false] := by
  have hne : formatUint pid 10 false ≠ [] := by
    rw [formatUint_eq (by decide)]
    exact numeral_ne_nil _
  have hkill : FirstWord (killLine pid) [] (ofString "kill")
      (ofString " " ++ formatUint pid 10 false) := by
    refine ⟨?_, by simp, by decide, by decide +kernel, ?_⟩
    · rw [killLine, List.nil_append, ← List.append_assoc]
      rfl
    · intro b hb
      obtain rfl := Option.some.inj hb
      decide
  have hpid : FirstWord (ofString " " ++ formatUint pid 10 false) (ofString " ")
      (formatUint pid 10 false) [] :=
    ⟨by rw [List.append_nil], by decide +kernel, hne, fun c hc => (formatUint_digits pid c hc).2, by simp⟩
  rw [show argMax = 14 + 1 + 1 from rfl, hkill.strSplit, hpid.strSplit]
  rfl

/-- The `kill` command on a printed number. -/
theorem executeJob_killLine (e : Entries) (s : System) (pid : UInt32) :
    executeJob e s (killLine pid) = (taskKill s pid).map fun r =>
      (some (if r.1 = 0 then .terminated pid
        else if r.1 = -2 then .error "kill" "the idle task cannot be killed"
        else .error "kill" "no such task"), r.2) := by
  simp only [executeJob, strSplit_killLine]
  rw [if_neg (by decide), if_pos trivial, cmdKill]
  simp only [List.getElem?_cons_succ, List.getElem?_cons_zero, parseInt_formatUint, Option.map_map]
  congr 1
  funext r
  simp only [Function.comp_apply]
  split
  · rfl
  · split <;> rfl

/-! ## The two halves of `execute` -/

/-- A command has a name that it is listed under. -/
theorem ofName_listed {name : List UInt8} {cmd : Command} (h : Command.ofName name = cmd)
    (hcmd : cmd ≠ .other) : ∃ n, (n, cmd) ∈ commands ∧ ofString n = name := by
  unfold Command.ofName at h
  cases hfind : commands.find? fun c => ofString c.1 = name with
  | none =>
    rw [hfind] at h
    exact absurd h.symm hcmd
  | some listed =>
    rw [hfind] at h
    obtain rfl : listed.2 = cmd := h
    have hname := List.find?_some hfind
    rw [decide_eq_true_eq] at hname
    exact ⟨listed.1, List.mem_of_find?_eq_some hfind, hname⟩

theorem ofName_spawn {name : List UInt8} :
    Command.ofName name = .spawn ↔ name = ofString "spawn" := by
  constructor
  · intro h
    obtain ⟨n, hmem, rfl⟩ := ofName_listed h (by decide)
    have hone : ∀ c ∈ commands, c.2 = .spawn → c.1 = "spawn" := by decide
    exact congrArg ofString (hone _ hmem rfl)
  · rintro rfl
    decide +kernel

theorem ofName_kill {name : List UInt8} :
    Command.ofName name = .kill ↔ name = ofString "kill" := by
  constructor
  · intro h
    obtain ⟨n, hmem, rfl⟩ := ofName_listed h (by decide)
    have hone : ∀ c ∈ commands, c.2 = .kill → c.1 = "kill" := by decide
    exact congrArg ofString (hone _ hmem rfl)
  · rintro rfl
    decide +kernel

/-- A command line does to the session what `Shell.execute` says and to the tasks what
`executeJob` says, and no command does both. -/
theorem execute_halves (env : Ramfs.Env) (ready : Nat → Bool) (typed : Nat → Option (List UInt8))
    (e : Entries) (st : Session) (s : System) (line : List UInt8) :
    Jobs.execute env ready typed e st s line =
        (Shell.execute env ready typed st line).bind fun st' =>
          (executeJob e s line).map fun r => (st', r.1, r.2) := by
  unfold Jobs.execute Shell.execute executeJob
  generalize strSplit argMax line = argv
  cases argv with
  | nil => rfl
  | cons name words =>
    dsimp only
    by_cases hspawn : name = ofString "spawn"
    · simp only [ofName_spawn.mpr hspawn, if_pos hspawn, Option.bind_some, Option.map_map]
      rfl
    by_cases hkill : name = ofString "kill"
    · simp only [ofName_kill.mpr hkill, if_neg hspawn, if_pos hkill, Option.bind_some,
        Option.map_map]
      rfl
    · have hnospawn := mt ofName_spawn.mp hspawn
      have hnokill := mt ofName_kill.mp hkill
      simp only [if_neg hspawn, if_neg hkill, Option.map_some]
      cases hcmd : Command.ofName name with
      | spawn => exact absurd hcmd hnospawn
      | kill => exact absurd hcmd hnokill
      | _ => exact Option.map_eq_bind

/-! ## The commands -/

/-- The only command that reports a new task is `spawn`, and it has started it. -/
theorem executeJob_started {s : System}
    (h : executeJob e s line = some (some (.started kind pid seconds), s')) :
    ∃ entry arg i, taskSpawn s e.bootstrap kind entry arg = some (some i, s') ∧
      (s'.tasks i).id = pid := by
  rw [executeJob] at h
  generalize strSplit argMax line = argv at h
  cases argv with
  | nil => simp at h
  | cons name rest =>
    dsimp only at h
    split at h
    · obtain ⟨⟨rep, s''⟩, hspawn, heq⟩ := Option.map_eq_some_iff.mp h
      obtain ⟨hrep, rfl⟩ := Prod.mk.inj heq
      obtain rfl := Option.some.inj hrep
      rw [cmdSpawn] at hspawn
      split at hspawn
      · simp at hspawn
      next entry _ =>
        obtain ⟨⟨res, s''⟩, hspawned, heq⟩ := Option.map_eq_some_iff.mp hspawn
        cases res with
        | none => simp at heq
        | some i =>
          simp only [Prod.mk.injEq, Report.started.injEq] at heq
          obtain ⟨⟨rfl, rfl, rfl⟩, rfl⟩ := heq
          exact ⟨entry, _, i, hspawned, rfl⟩
    · split at h
      · obtain ⟨⟨rep, s''⟩, hkill, heq⟩ := Option.map_eq_some_iff.mp h
        obtain ⟨hrep, rfl⟩ := Prod.mk.inj heq
        obtain rfl := Option.some.inj hrep
        rw [cmdKill] at hkill
        split at hkill
        · simp at hkill
        · obtain ⟨⟨v, s''⟩, -, heq⟩ := Option.map_eq_some_iff.mp hkill
          dsimp only at heq
          split at heq
          · simp at heq
          · split at heq <;> simp at heq
      · simp at h

/-- `task_kill` on a number that one task owns. -/
theorem taskKill_owned {c idle : Slot} {l : List Slot} {bs : List BlockList.Blk} {n : Nat}
    {there : Bool} (hi : Inv r c idle l bs) (hn : Numbers n r) (ho : Owns i pid there r)
    (hpid : pid ≠ 0) :
    taskKill r.sys pid =
      if there = true ∧ (r.sys.tasks i).state ≠ .dead then
        some (0, { r.sys with
          tasks := setTask r.sys.tasks i { r.sys.tasks i with state := .dead } })
      else some (-1, r.sys) := by
  have hk := killLoop_eq hi pid
  rw [taskKill, hi.current]
  dsimp only
  rw [hk]
  cases hfind : (c :: l).find? fun t => (r.sys.tasks t).id = pid ∧
      (r.sys.tasks t).state ≠ .unused ∧ (r.sys.tasks t).state ≠ .dead with
  | none =>
    rw [if_neg]
    rintro ⟨hthere, halive⟩
    obtain ⟨hlist, hid⟩ := ho.listed hthere
    have hnot := List.find?_eq_none.mp hfind i ((hi.mem i).mpr hlist)
    rw [decide_eq_true_eq] at hnot
    exact hnot ⟨hid, hlist, halive⟩
  | some j =>
    have hmatch := List.find?_some hfind
    rw [decide_eq_true_eq] at hmatch
    obtain ⟨hid, hlist, halive⟩ := hmatch
    obtain ⟨rfl, hthere⟩ := ho.only j hlist hid
    have hidle : some j ≠ r.sys.idle := fun h => hpid (hid.symm.trans (hn.idle j h.symm))
    dsimp only
    rw [if_neg hidle, if_pos ⟨hthere, halive⟩, hi.current]

/--
**A number that `spawn` printed names one task for good.** Whatever happened since, `kill` with
it terminates the task that was started and nobody else, or there is no such task if that one
has ended, and then nothing changes. The numbers are read as signed ones, which is why fewer
than 2³¹ tasks are to be started.
-/
theorem kill_names_one_task {mem : Memory} {src : List E820Entry} {n : Nat}
    (hr : Numbered mem src n r) (hexec : r.executing)
    (hstart : executeJob e r.sys line = some (some (.started kind pid seconds), s')) :
    ∃ entry arg i r₁, runStep r (.spawn e.bootstrap kind entry arg) = some r₁ ∧ r₁.sys = s' ∧
      (r.sys.tasks i).state = .unused ∧ (r₁.sys.tasks i).state = .ready ∧
      ∀ {k : Nat} {there : Bool} {r₂ : Run}, Onward i r₁ k there r₂ → n + 1 + k < 2147483648 →
        executeJob e r₂.sys (killLine pid) =
          if there = true ∧ (r₂.sys.tasks i).state ≠ .dead then
            some (some (.terminated pid), { r₂.sys with
              tasks := setTask r₂.sys.tasks i { r₂.sys.tasks i with state := .dead } })
          else some (some (.error "kill" "no such task"), r₂.sys) := by
  obtain ⟨entry, arg, i, hspawn, hid⟩ := executeJob_started hstart
  have hrun : ∃ r₁, runStep r (.spawn e.bootstrap kind entry arg) = some r₁ ∧ r₁.sys = s' := by
    refine ⟨_, Option.map_eq_some_iff.mpr ⟨_, hspawn, rfl⟩, rfl⟩
  obtain ⟨r₁, hrun, rfl⟩ := hrun
  rcases spawn_came hrun with ⟨hst, -⟩ | ⟨hst, j, hcame, hspawn'⟩
  · simp [starts, hspawn] at hst
  rw [hspawn] at hspawn'
  obtain rfl := Option.some.inj (Prod.mk.inj (Option.some.inj hspawn')).1
  refine ⟨entry, arg, i, r₁, hrun, rfl, hcame.free, hcame.ready, fun {k there r₂} hon hsmall => ?_⟩
  obtain ⟨⟨c, idle, l, bs, hi⟩, hn⟩ := numbered_inv hr (by omega)
  have hnew : newcomers r (.spawn e.bootstrap kind entry arg) = 1 := by
    rw [newcomers, hst, if_pos rfl]
  obtain ⟨⟨c₁, l₁, bs₁, hi₁⟩, hn₁⟩ := hi.step_numbers hn
    (show Allowed r (.spawn e.bootstrap kind entry arg) from hexec) hrun (by omega)
  rw [hnew] at hn₁
  have hpid : pid.toNat = n + 1 := by
    rw [← hid, hcame.id, UInt32.toNat_add, hn.nextId, UInt32.toNat_one]
    exact Nat.mod_eq_of_lt (by omega)
  have hlist : (r₁.sys.tasks i).state ≠ .unused := by
    rw [hcame.ready]
    exact TaskState.noConfusion
  have howns : Owns i pid true r₁ :=
    ⟨fun _ => ⟨hlist, hid⟩, fun j hj heq => ⟨hn₁.inj j i hj hlist (heq.trans hid.symm), rfl⟩⟩
  obtain ⟨⟨c₂, l₂, bs₂, hi₂⟩, hn₂, ho₂⟩ := hon.owns hi₁ hn₁ howns (by omega) (by omega)
  have hne : pid ≠ 0 := by
    rintro rfl
    exact absurd hpid.symm (Nat.succ_ne_zero n)
  rw [executeJob_killLine, taskKill_owned hi₂ hn₂ ho₂ hne]
  split <;> rfl

def someEntries : Entries := { bootstrap := 0x10000, worker := 0x11000, ticker := 0x12000 }

/-- The scheduler after the first `spawn`. -/
def withWorker : System :=
  ((executeJob someEntries bootRun.sys (ofString "spawn worker 5")).map (·.2)).getD bootRun.sys

/-- Here the worker was terminated. -/
def workerKilled : System := ((taskKill withWorker 1).map (·.2)).getD withWorker

def workerReaped : System := (taskReap workerKilled).getD workerKilled

/-- A task is started, terminated and reaped, and another one gets its slot: the number of the
first names nobody. -/
theorem kill_names_one_task_reused :
    executeJob someEntries bootRun.sys (ofString "spawn worker 5") =
        some (some (.started (ofString "worker") 1 5), withWorker) ∧
      taskKill withWorker 1 = some (0, workerKilled) ∧ taskReap workerKilled = some workerReaped ∧
      ∃ i s, taskSpawn workerReaped 0x10000 (ofString "ticker") 0x12000 5 = some (some i, s) ∧
        executeJob someEntries s (killLine 1) =
          some (some (.error "kill" "no such task"), s) := by
  have hstart : executeJob someEntries bootRun.sys (ofString "spawn worker 5") =
      some (some (.started (ofString "worker") 1 5), withWorker) := rfl
  have hk : taskKill withWorker 1 = some (0, workerKilled) := rfl
  have hreap : taskReap workerKilled = some workerReaped := rfl
  have hexec : bootRun.executing := by
    intro c hc
    obtain rfl : (⟨0, by decide⟩ : Slot) = c := Option.some.inj hc
    exact TaskState.noConfusion
  obtain ⟨entry, arg, i, r₁, hrun, hsys, hfree, hready, hkill⟩ :=
    kill_names_one_task (Numbered.init bootHeap_reach rfl) hexec hstart
  have hgone : ∀ i : Slot, (bootRun.sys.tasks i).state = .unused →
      (withWorker.tasks i).state = .ready → (workerReaped.tasks i).state = .unused := by
    decide +kernel
  have hgone := hgone i hfree (hsys ▸ hready)
  have hidle : withWorker.current = some ⟨0, by decide⟩ ∧
      (withWorker.tasks ⟨0, by decide⟩).state = .ready := by decide +kernel
  have hidle' : workerReaped.current = some ⟨0, by decide⟩ ∧
      (workerReaped.tasks ⟨0, by decide⟩).state = .ready := by decide +kernel
  have hexec₁ : r₁.executing := by
    intro c hc
    rw [hsys, hidle.1, Option.some.injEq] at hc
    rw [hsys, ← hc, hidle.2]
    exact TaskState.noConfusion
  have hrun₂ : runStep r₁ (.kill 1) = some { r₁ with sys := workerKilled } := by
    rw [runStep, hsys, hk]
    rfl
  have hrun₃ : ∃ r₃, runStep { r₁ with sys := workerKilled } .reap = some r₃ ∧
      r₃.sys = workerReaped := by
    rw [runStep, hreap]
    exact ⟨_, rfl, rfl⟩
  obtain ⟨r₃, hrun₃, hsys₃⟩ := hrun₃
  have hexec₃ : r₃.executing := by
    intro c hc
    rw [hsys₃, hidle'.1, Option.some.injEq] at hc
    rw [hsys₃, ← hc, hidle'.2]
    exact TaskState.noConfusion
  obtain ⟨s, hspawn⟩ : ∃ s, taskSpawn workerReaped 0x10000 (ofString "ticker") 0x12000 5 =
      some (some ⟨1, by decide⟩, s) := ⟨_, rfl⟩
  obtain ⟨r₄, hrun₄, rfl⟩ : ∃ r₄, runStep r₃ (.spawn 0x10000 (ofString "ticker") 0x12000 5) =
      some r₄ ∧ r₄.sys = s := by
    rw [runStep, hsys₃, hspawn]
    exact ⟨_, rfl, rfl⟩
  have hon := (((Onward.here (i := i)).step (show Allowed r₁ (.kill 1) from hexec₁) hrun₂).step
    (show Allowed _ .reap from rfl) hrun₃).step
    (show Allowed r₃ (.spawn 0x10000 (ofString "ticker") 0x12000 5) from hexec₃) hrun₄
  refine ⟨hstart, hk, hreap, ⟨1, by decide⟩, _, hspawn, (hkill hon ?_).trans (if_neg ?_)⟩
  · simp only [newcomers]
    split <;> split <;> split <;> decide
  · rw [hsys₃, hgone]
    simp

end LightningOS.Jobs
