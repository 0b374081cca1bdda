import LightningOS.Properties.Fair

/-!
# What an operation leaves alone

Each operation of the scheduler changes little: one entry of the table, a few links, the
heap around one block. Here that is said for every entry and every byte, so that facts
about one task can be carried past what the others do.
-/

namespace LightningOS.Mem

open ByteMemory BlockList

variable {s : HeapState} {bs : List Blk}

/-! ## The heap -/

theorem Represents.below {h : Heap} (hr : Represents h bs) {x : Nat} (hx : x < heapBase) :
    OffHeaders bs x := fun _ hd =>
  Or.inl (Nat.lt_of_lt_of_le hx (hr.addr_bounds hd).1)

/-- An allocation writes nothing below the heap. -/
theorem HeapInv.kmalloc_below (hi : HeapInv s bs) {n p : Nat} {h' : Heap}
    (hk : Mem.kmalloc s.heap n = some (p, h')) {x : Nat} (hx : x < heapBase) :
    h'.mem x = s.heap.mem x := by
  by_cases hn : n = 0
  · rw [Mem.kmalloc, if_pos hn] at hk
    rw [← (Prod.mk.inj (Option.some.inj hk)).2]
  rcases kmalloc_spec hi.represents (Nat.pos_of_ne_zero hn) with ⟨-, h⟩ | ⟨a, bs', ha, h⟩ <;>
    rw [h] at hk <;> obtain ⟨-, rfl⟩ := Prod.mk.inj (Option.some.inj hk)
  · rfl
  · obtain ⟨pre, b, post, hbs, -, rfl, -, hfit⟩ := allocate_eq_some ha
    have hr := hi.represents
    have hbmem : b ∈ bs := by rw [hbs]; simp
    have hl := hr.laid
    rw [hbs] at hl
    have hoff := hr.below hx
    have hb2 := hr.addr_bounds hbmem
    refine claim_frame _ _ (laid_append.mp hl).2.1 hfit ?_ (Or.inl (Nat.lt_of_lt_of_le hx hb2.1))
      (OffLinks.head fun d hd => hoff.offLinks d (by rw [hbs]; simp [hd]))
    simp only [heapBase, heapMaxSize, sizeofBlock, splitSlack] at *
    omega

/-- Nor does a release. -/
theorem HeapInv.kfree_below (hi : HeapInv s bs) {p : Nat} (hp : p ∈ s.live) {h' : Heap}
    (hk : Mem.kfree s.heap p = some h') {x : Nat} (hx : x < heapBase) :
    h'.mem x = s.heap.mem x := by
  obtain ⟨b, hb, hf, rfl⟩ := (hi.live p).mp hp
  obtain ⟨h'', hk', -, -, hframe⟩ := kfree_spec hi.represents hb hf
  rw [hk'] at hk
  obtain rfl := Option.some.inj hk
  have hoff := hi.represents.below hx
  have := (hi.represents.addr_bounds hb).1
  exact (hframe x hoff.offLinks).trans (store8_other (by omega))

/-- Bytes outside of the headers can change without the heap noticing. -/
theorem HeapInv.rewrite (hi : HeapInv s bs) {m' : Memory}
    (hm : ∀ x, ¬OffHeaders bs x → m' x = s.heap.mem x) :
    HeapInv { s with heap := { s.heap with mem := m' } } bs ∧
      ∀ q ∈ s.live, blkSize m' (q - sizeofBlock) = blkSize s.heap.mem (q - sizeofBlock) := by
  have hr := hi.represents
  have hrep : Represents { s.heap with mem := m' } bs := by
    refine ⟨hr.head, hr.size_ge, hr.size_le, hr.tiles, hr.laid.congr fun d hd y h1 h2 =>
      hm y fun hy => ?_, hr.noTwoFree, hr.used⟩
    have := hy d hd
    omega
  refine ⟨⟨hrep, hi.nodup, hi.live⟩, fun q hq => ?_⟩
  obtain ⟨c, hc, -, rfl⟩ := (hi.live q).mp hq
  rw [Nat.add_sub_cancel]
  exact hr.size_eq hrep hc hc

/-- A live payload lies in the region of the heap. -/
theorem HeapInv.payload_in (hi : HeapInv s bs) {p x : Nat} (hp : p ∈ s.live)
    (hx : InPayload s.heap p x) : heapBase ≤ x ∧ x < heapBase + s.heap.heapSize := by
  obtain ⟨b, hb, -, rfl⟩ := (hi.live p).mp hp
  have h1 := (hi.inPayload hb).mp hx
  have h2 := hi.represents.tiles.mem_bounds hb
  omega

/-- Two heaps that agree below the heap and in the payloads that are kept. -/
structure Quiet (keep : List Nat) (h h' : Heap) : Prop where
  below : ∀ x, x < heapBase → h'.mem x = h.mem x
  kept : ∀ q ∈ keep, Kept h h' q

theorem Quiet.refl (keep : List Nat) (h : Heap) : Quiet keep h h :=
  ⟨fun _ _ => rfl, fun _ _ => ⟨rfl, fun _ _ => rfl⟩⟩

theorem Kept.trans {h h' h'' : Heap} {q : Nat} (hk : Kept h h' q) (hk' : Kept h' h'' q) :
    Kept h h'' q := by
  refine ⟨hk'.1.trans hk.1, fun x hx => (hk'.2 x ?_).trans (hk.2 x hx)⟩
  unfold InPayload
  rw [hk.1]
  exact hx

theorem Quiet.trans {keep : List Nat} {h h' h'' : Heap} (hq : Quiet keep h h')
    (hq' : Quiet keep h' h'') : Quiet keep h h'' :=
  ⟨fun x hx => (hq'.below x hx).trans (hq.below x hx),
    fun q hmem => (hq.kept q hmem).trans (hq'.kept q hmem)⟩

theorem HeapInv.quiet_kmalloc (hi : HeapInv s bs) {n p : Nat} {h' : Heap} (hn : 0 < n)
    (hk : Mem.kmalloc s.heap n = some (p, h')) : Quiet s.live s.heap h' := by
  refine ⟨fun x => hi.kmalloc_below hk, fun q hq => ?_⟩
  rcases hi.kmalloc hn with h | ⟨p', h'', bs', h, -, -, -, -, hkept⟩ <;> rw [h] at hk <;>
    obtain ⟨-, rfl⟩ := Prod.mk.inj (Option.some.inj hk)
  · exact ⟨rfl, fun _ _ => rfl⟩
  · exact hkept q hq

theorem HeapInv.quiet_kfree (hi : HeapInv s bs) {p : Nat} {h' : Heap} (hp : p ∈ s.live)
    (hk : Mem.kfree s.heap p = some h') : Quiet (s.live.erase p) s.heap h' := by
  refine ⟨fun x => hi.kfree_below hp hk, fun q hq => ?_⟩
  obtain ⟨h'', bs', h, -, hkept⟩ := hi.kfree hp
  rw [h] at hk
  obtain rfl := Option.some.inj hk
  obtain ⟨hne, hmem⟩ := hi.nodup.mem_erase_iff.mp hq
  exact hkept q hmem hne

end LightningOS.Mem

namespace LightningOS.Sched

open ByteMemory BlockList Mem Ring

variable {r r' : Run} {c idle i : Slot} {l : List Slot} {bs : List Blk}

/-! ## The table -/

/-- An entry without its place in the list. -/
def Task.unlinked (t : Task) : Task := { t with next := none }

theorem listRemove_unlinked {tasks tasks' : Slot → Task} {x : Slot}
    (h : listRemove tasks x = some tasks') (j : Slot) :
    (tasks' j).unlinked = (tasks j).unlinked := by
  obtain ⟨prev, -, rfl⟩ := Option.map_eq_some_iff.mp h
  exact (setTask_congr Task.unlinked (by rfl) j).trans (setTask_congr Task.unlinked (by rfl) j)

/-- An entry that was reaped. -/
def Task.emptied (t : Task) : Task := { t with state := .unused, stack := 0 }

/-- What reaping makes of an entry, apart from its link. -/
def ReapedTo (t t' : Task) : Prop :=
  t'.unlinked = t.unlinked ∨ t.state = .dead ∧ t'.unlinked = t.unlinked.emptied

theorem ReapedTo.trans {t t' t'' : Task} (h : ReapedTo t t') (h' : ReapedTo t' t'') :
    ReapedTo t t'' := by
  rcases h with h | ⟨hd, h⟩
  · have hstate : t'.unlinked.state = t.unlinked.state := by rw [h]
    rcases h' with h' | ⟨hd', h'⟩
    · exact Or.inl (h'.trans h)
    · exact Or.inr ⟨hstate.symm.trans hd', h'.trans (congrArg Task.emptied h)⟩
  · have hstate : t'.unlinked.state = .unused := by rw [h]; rfl
    rcases h' with h' | ⟨hd', -⟩
    · exact Or.inr ⟨hd, h'.trans h⟩
    · exact TaskState.noConfusion (hd'.symm.trans hstate)

theorem reapOne_task {s s' : System} {x : Slot} (h : reapOne s x = some s') (j : Slot) :
    ReapedTo (s.tasks j) (s'.tasks j) := by
  rw [reapOne] at h
  split at h
  next hdead =>
    cases hrem : listRemove s.tasks x with
    | none => simp [hrem] at h
    | some tasks =>
      rw [hrem] at h
      dsimp only at h
      split at h
      · exact absurd h.symm (Option.some_ne_none _)
      · obtain rfl := Option.some.inj h
        have hsame := listRemove_unlinked hrem
        rcases eq_or_ne j x with rfl | hj
        · refine Or.inr ⟨hdead, ?_⟩
          show (setTask tasks j _ j).unlinked = _
          rw [setTask_same, ← hsame j]
          rfl
        · refine Or.inl ?_
          show (setTask tasks x _ j).unlinked = _
          rw [setTask_other hj, hsame j]
  next =>
    obtain rfl := Option.some.inj h
    exact Or.inl rfl

theorem reapOne_rest {s s' : System} {x : Slot} (h : reapOne s x = some s') :
    s'.current = s.current ∧ s'.idle = s.idle ∧ s'.started = s.started ∧ s'.nextId = s.nextId := by
  rw [reapOne] at h
  split at h
  · cases hrem : listRemove s.tasks x with
    | none => simp [hrem] at h
    | some tasks =>
      rw [hrem] at h
      dsimp only at h
      split at h
      · exact absurd h.symm (Option.some_ne_none _)
      · obtain rfl := Option.some.inj h
        exact ⟨rfl, rfl, rfl, rfl⟩
  · obtain rfl := Option.some.inj h
    exact ⟨rfl, rfl, rfl, rfl⟩

/-- Apart from the links, reaping empties dead entries and does nothing else to the table. -/
theorem reapLoop_task {stop : Slot} {fuel : Nat} : ∀ {s s' : System} {x : Slot},
    reapLoop stop fuel s x = some s' → (∀ j, ReapedTo (s.tasks j) (s'.tasks j)) ∧
      s'.current = s.current ∧ s'.idle = s.idle ∧ s'.started = s.started ∧
      s'.nextId = s.nextId := by
  induction fuel with
  | zero =>
    intro s s' x h
    rw [reapLoop] at h
    split at h
    · obtain rfl := Option.some.inj h
      exact ⟨fun _ => Or.inl rfl, rfl, rfl, rfl, rfl⟩
    · exact absurd h.symm (Option.some_ne_none _)
  | succ fuel ih =>
    intro s s' x h
    rw [reapLoop] at h
    split at h
    · obtain rfl := Option.some.inj h
      exact ⟨fun _ => Or.inl rfl, rfl, rfl, rfl, rfl⟩
    · dsimp only at h
      cases hone : reapOne s x with
      | none => simp [hone] at h
      | some s₁ =>
        rw [hone] at h
        dsimp only at h
        cases hnext : (s.tasks x).next with
        | none => simp [hnext] at h
        | some n =>
          rw [hnext] at h
          obtain ⟨h1, h2, h3, h4, h5⟩ := ih h
          obtain ⟨g2, g3, g4, g5⟩ := reapOne_rest hone
          exact ⟨fun j => (reapOne_task hone j).trans (h1 j), h2.trans g2, h3.trans g3,
            h4.trans g4, h5.trans g5⟩

/-- The body of `task_reap` frees the stack of a dead task. -/
theorem reapOne_heap {s s' : System} {x : Slot} (h : reapOne s x = some s') :
    s'.heap = s.heap ∨ (s.tasks x).state = .dead ∧
      kfree s.heap (s.tasks x).stack = some s'.heap := by
  rw [reapOne] at h
  split at h
  next hdead =>
    cases hrem : listRemove s.tasks x with
    | none => simp [hrem] at h
    | some tasks =>
      rw [hrem] at h
      dsimp only at h
      have hstack : (tasks x).unlinked.stack = (s.tasks x).unlinked.stack := by
        rw [listRemove_unlinked hrem]
      have hstack' : (tasks x).stack = (s.tasks x).stack := hstack
      split at h
      · exact absurd h.symm (Option.some_ne_none _)
      next heap hfree =>
        obtain rfl := Option.some.inj h
        rw [hstack'] at hfree
        split at hfree
        · exact Or.inr ⟨hdead, hfree⟩
        · exact Or.inl (Option.some.inj hfree).symm
  next =>
    obtain rfl := Option.some.inj h
    exact Or.inl rfl

/-- Reaping leaves everything alone but the stacks of the dead tasks on the walk. -/
theorem reapLoop_quiet {q : List Slot} :
    ∀ {r : Run} {s' : System} {p : List Slot} {bs : List Blk} {x : Slot} {fuel : Nat},
    Inv r c c (p ++ q) bs → Path (nextOf r.sys.tasks) x q c →
    reapLoop c fuel r.sys x = some s' →
    Quiet (r.live.filter fun y => ¬∃ i ∈ q, (r.sys.tasks i).state = .dead ∧
      (r.sys.tasks i).stack = y) r.sys.heap s'.heap := by
  induction q with
  | nil =>
    rintro r s' p bs x fuel hi rfl h
    obtain rfl : r.sys = s' := by
      cases fuel <;> simpa [reapLoop] using h
    exact Quiet.refl _ _
  | cons y q ih =>
    rintro r s' p bs x fuel hi ⟨rfl, n, hn, hl⟩ h
    have hn' : (r.sys.tasks x).next = some n := hn
    have hnd := List.nodup_cons.mp hi.ring.nodup
    have hxc : x ≠ c := by
      rintro rfl
      exact hnd.1 (by simp)
    have hxq : x ∉ q := (List.nodup_cons.mp (List.nodup_append.mp hnd.2).2.1).1
    cases fuel with
    | zero => simp [reapLoop, hxc] at h
    | succ fuel =>
      by_cases hdead : (r.sys.tasks x).state = .dead
      · obtain ⟨s₁, bs₁, hone, hi₁, -, hsame, hnext⟩ := reapOne_dead hi hdead
        have hl₁ : Path (nextOf s₁.tasks) n q c := hl.congr hnext
        simp only [reapLoop, if_neg hxc, hone, hn'] at h
        have hrest := ih hi₁ hl₁ h
        have hlive : (r.sys.tasks x).stack ∈ r.live :=
          (hi.stack x (by rw [hdead]; exact TaskState.noConfusion) hxc).1
        have hfirst : Quiet (r.live.erase (r.sys.tasks x).stack) r.sys.heap s₁.heap := by
          rcases reapOne_heap hone with he | ⟨-, hk⟩
          · rw [he]
            exact Quiet.refl _ _
          · exact hi.heap.quiet_kfree hlive hk
        have hlnd : r.live.Nodup := hi.heap.nodup
        -- what the whole walk keeps is kept by the first step and by the rest
        have hsplit : ∀ y, y ∈ (r.live.filter fun y => ¬∃ i ∈ x :: q,
            (r.sys.tasks i).state = .dead ∧ (r.sys.tasks i).stack = y) →
            y ∈ r.live.erase (r.sys.tasks x).stack ∧
              ¬∃ i ∈ q, (s₁.tasks i).state = .dead ∧ (s₁.tasks i).stack = y := by
          intro y hy
          rw [List.mem_filter, decide_eq_true_eq] at hy
          refine ⟨hlnd.mem_erase_iff.mpr ⟨fun he => hy.2 ⟨x, List.mem_cons_self, hdead, he.symm⟩,
            hy.1⟩, ?_⟩
          rintro ⟨i, hiq, h1, h2⟩
          have hix : i ≠ x := fun h => hxq (h ▸ hiq)
          rw [(hsame i hix).1] at h1
          rw [(hsame i hix).2] at h2
          exact hy.2 ⟨i, List.mem_cons_of_mem _ hiq, h1, h2⟩
        refine ⟨fun a ha => (hrest.below a ha).trans (hfirst.below a ha), fun y hy => ?_⟩
        obtain ⟨h1, h2⟩ := hsplit y hy
        exact (hfirst.kept y h1).trans
          (hrest.kept y (List.mem_filter.mpr ⟨h1, by rw [decide_eq_true_eq]; exact h2⟩))
      · have hone : reapOne r.sys x = some r.sys := if_neg hdead
        have hi₁ : Inv r c c ((p ++ [x]) ++ q) bs := by
          rw [List.append_assoc]
          exact hi
        simp only [reapLoop, if_neg hxc, hone, hn'] at h
        have hrest := ih hi₁ hl h
        refine ⟨hrest.below, fun y hy => hrest.kept y ?_⟩
        rw [List.mem_filter, decide_eq_true_eq] at hy ⊢
        refine ⟨hy.1, ?_⟩
        rintro ⟨i, hiq, h⟩
        exact hy.2 ⟨i, List.mem_cons_of_mem _ hiq, h⟩

/-! ## What a task is -/

/-- The number, the name and the code of a task. -/
def Task.who (t : Task) : UInt32 × List UInt8 × Nat × Nat := (t.id, t.name, t.entry, t.arg)

/-- What is written down about a task: what it is, the ticks it was charged, and its turns. -/
def Task.record (t : Task) : (UInt32 × List UInt8 × Nat × Nat) × UInt64 × UInt64 :=
  (t.who, t.cpuTicks, t.switches)

theorem ReapedTo.record {t t' : Task} (h : ReapedTo t t') : t'.record = t.record := by
  show t'.unlinked.record = t.unlinked.record
  rcases h with h | ⟨-, h⟩ <;> rw [h]
  rfl

theorem wakeLoop_congr {β : Type} (f : Task → β) {now : UInt64} {stop : Slot}
    (hf : ∀ t, f (wake now t) = f t) {fuel : Nat} : ∀ {tasks tasks' : Slot → Task} {task : Slot},
    wakeLoop now stop fuel tasks task = some tasks' → ∀ j, f (tasks' j) = f (tasks j) := by
  induction fuel with
  | zero => intro tasks tasks' task h; exact absurd h.symm (Option.some_ne_none _)
  | succ fuel ih =>
    intro tasks tasks' task h j
    have hone := setTask_congr f (hf (tasks task)) (i := task) j
    rw [wakeLoop] at h
    split at h
    · exact absurd h.symm (Option.some_ne_none _)
    · split at h
      · obtain rfl := Option.some.inj h
        exact hone
      · exact (ih h j).trans hone

/-- A field that neither the scheduler saves in nor wakes by, apart from the count of switches. -/
theorem taskSchedule_congr {β : Type} (f : Task → β) {now : UInt64}
    (hesp : ∀ t v, f { t with esp := v } = f t) (hwake : ∀ t, f (wake now t) = f t)
    (hswitch : ∀ t v, f { t with switches := v } = f t) {s s' : System} {esp ret : Nat}
    (h : taskSchedule s esp now = some (ret, s')) (j : Slot) : f (s'.tasks j) = f (s.tasks j) := by
  rw [taskSchedule] at h
  split at h
  · obtain ⟨-, rfl⟩ := Prod.mk.inj (Option.some.inj h)
    rfl
  · split at h
    · exact absurd h.symm (Option.some_ne_none _)
    next c hc =>
      dsimp only at h
      have hsave := setTask_congr f (hesp (s.tasks c) esp) (i := c) j
      split at h
      · exact absurd h.symm (Option.some_ne_none _)
      next tasks hwoken =>
        have hall := (wakeLoop_congr f hwake hwoken j).trans hsave
        split at h
        · exact absurd h.symm (Option.some_ne_none _)
        · split at h
          · obtain ⟨-, rfl⟩ := Prod.mk.inj (Option.some.inj h)
            exact hall
          · split at h
            · exact absurd h.symm (Option.some_ne_none _)
            · obtain ⟨-, rfl⟩ := Prod.mk.inj (Option.some.inj h)
              exact (setTask_congr f (hswitch _ _) j).trans hall

/-- What `task_schedule` counts: the task that it goes on with, if that is another one. -/
theorem taskSchedule_switches {s s' : System} {esp ret : Nat} {now : UInt64}
    (h : taskSchedule s esp now = some (ret, s')) (j : Slot) :
    (s'.tasks j).switches = (s.tasks j).switches +
      if s'.current = some j ∧ s'.current ≠ s.current then 1 else 0 := by
  have hwake : ∀ t, (wake now t).switches = t.switches := by
    intro t
    unfold wake
    split <;> rfl
  rw [taskSchedule] at h
  split at h
  · obtain ⟨-, rfl⟩ := Prod.mk.inj (Option.some.inj h)
    simp
  · split at h
    · exact absurd h.symm (Option.some_ne_none _)
    next c hc =>
      dsimp only at h
      have hsave : (setTask s.tasks c { s.tasks c with esp := esp } j).switches = _ :=
        setTask_congr Task.switches (by rfl) j
      split at h
      · exact absurd h.symm (Option.some_ne_none _)
      next tasks hwoken =>
        have hall := (wakeLoop_congr Task.switches hwake hwoken j).trans hsave
        split at h
        · exact absurd h.symm (Option.some_ne_none _)
        · split at h
          · obtain ⟨-, rfl⟩ := Prod.mk.inj (Option.some.inj h)
            simp [hall]
          next hne =>
            split at h
            · exact absurd h.symm (Option.some_ne_none _)
            next n _ =>
              obtain ⟨-, rfl⟩ := Prod.mk.inj (Option.some.inj h)
              rw [hc]
              dsimp only
              by_cases hj : j = n
              · rw [hj, setTask_same, if_pos ⟨rfl, hne⟩, ← hj, hall]
              · rw [setTask_other hj, if_neg fun h => hj (Option.some.inj h.1).symm, hall]
                simp

theorem wake_who (now : UInt64) (t : Task) : (wake now t).who = t.who := by
  unfold wake
  split <;> rfl

theorem taskAccountTick_who (s : System) (j : Slot) :
    ((taskAccountTick s).tasks j).who = (s.tasks j).who := by
  unfold taskAccountTick
  split
  · exact setTask_congr Task.who (by rfl) j
  · rfl

/-! ## Starting a task -/

/-- The entry that `task_spawn` fills in, before it is linked. -/
def newTask (s : System) (name : List UInt8) (entry arg stack : Nat) : Task :=
  { id := s.nextId + 1
    name := CString.strncpy name (taskNameMax - 1) ++ [0]
    entry := entry
    arg := arg
    stack := stack
    state := .ready
    esp := bootFrame stack }

/-- Either there is no room for a task, or the first free entry becomes one. -/
theorem taskSpawn_cases {s s' : System} {bootstrap entry arg : Nat} {name : List UInt8}
    {res : Option Slot} (h : taskSpawn s bootstrap name entry arg = some (res, s')) :
    (res = none ∧ (s' = s ∨ ∃ heap, kmalloc s.heap taskStackSize = some (0, heap) ∧
      s' = { s with heap := heap })) ∨
    ∃ i p heap, res = some i ∧ allocTask s.tasks = some i ∧
      kmalloc s.heap taskStackSize = some (p, heap) ∧ p ≠ 0 ∧
      s' = { s with
        tasks := listInsert (setTask s.tasks i (newTask s name entry arg p)) s.current i
        nextId := s.nextId + 1
        heap := { heap with mem := writeBootFrame heap.mem (bootFrame p) bootstrap } } := by
  rw [taskSpawn] at h
  cases halloc : allocTask s.tasks with
  | none =>
    rw [halloc] at h
    obtain ⟨rfl, rfl⟩ := Prod.mk.inj (Option.some.inj h)
    exact Or.inl ⟨rfl, Or.inl rfl⟩
  | some i =>
    rw [halloc] at h
    dsimp only at h
    cases hk : kmalloc s.heap taskStackSize with
    | none => simp [hk] at h
    | some r =>
      rw [hk] at h
      dsimp only at h
      split at h
      next hp =>
        obtain ⟨rfl, rfl⟩ := Prod.mk.inj (Option.some.inj h)
        exact Or.inl ⟨rfl, Or.inr ⟨r.2, by rw [← hp], rfl⟩⟩
      next hp =>
        obtain ⟨rfl, rfl⟩ := Prod.mk.inj (Option.some.inj h)
        exact Or.inr ⟨i, r.1, r.2, rfl, rfl, rfl, hp, rfl⟩

/-! ## One operation -/

/-- What the current task asks for, other than a switch. -/
def Calls : TaskOp → Prop
  | .schedule _ _ | .tick | .heap (.store _ _ _) => False
  | _ => True

/-- The task in slot `i` keeps its stack, with everything on it, and where it will resume. -/
structure Undisturbed (r r' : Run) (i : Slot) : Prop where
  record : (r'.sys.tasks i).record = (r.sys.tasks i).record
  stack : (r'.sys.tasks i).stack = (r.sys.tasks i).stack
  saved : r'.saved i = r.saved i
  bytes : r.sys.idle ≠ some i → ∀ x, InPayload r.sys.heap (r.sys.tasks i).stack x →
    r'.sys.heap.mem x = r.sys.heap.mem x

theorem Undisturbed.who (h : Undisturbed r r' i) :
    (r'.sys.tasks i).who = (r.sys.tasks i).who := congrArg Prod.fst h.record

/-- What an operation leaves as it is. A task that it starts has its context in a boot frame. -/
structure OpKept (r r' : Run) : Prop where
  current : r'.sys.current = r.sys.current
  idle : r'.sys.idle = r.sys.idle
  below : ∀ x, x < heapBase → r'.sys.heap.mem x = r.sys.heap.mem x
  tasks : ∀ i, (r.sys.tasks i).state ≠ .unused → (r'.sys.tasks i).state ≠ .unused →
    Undisturbed r r' i
  fresh : ∀ i, (r.sys.tasks i).state = .unused → (r'.sys.tasks i).state ≠ .unused →
    r'.saved i = bootFrame (r'.sys.tasks i).stack

/-- Stacks that a quiet change of the heap spares. -/
theorem Inv.opKept_of_quiet (hi : Inv r c idle l bs) {keep : List Nat}
    (hcur : r'.sys.current = r.sys.current) (hidle : r'.sys.idle = r.sys.idle)
    (hq : Quiet keep r.sys.heap r'.sys.heap)
    (hsame : ∀ i, (r.sys.tasks i).state ≠ .unused → (r'.sys.tasks i).state ≠ .unused →
      (r'.sys.tasks i).record = (r.sys.tasks i).record ∧ (r'.sys.tasks i).stack = (r.sys.tasks i).stack ∧ r'.saved i = r.saved i ∧
        (i ≠ idle → (r.sys.tasks i).stack ∈ keep))
    (hfresh : ∀ i, (r.sys.tasks i).state = .unused → (r'.sys.tasks i).state ≠ .unused →
      r'.saved i = bootFrame (r'.sys.tasks i).stack) : OpKept r r' := by
  refine ⟨hcur, hidle, hq.below, fun i h1 h2 => ?_, hfresh⟩
  obtain ⟨h0, h3, h4, h5⟩ := hsame i h1 h2
  refine ⟨h0, h3, h4, fun hne x hx => (hq.kept _ (h5 fun he => hne ?_)).2 x hx⟩
  rw [hi.idle_eq, he]

theorem Inv.spawn_kept (hi : Inv r c idle l bs) {bootstrap entry arg : Nat} {name : List UInt8}
    (hrun : runStep r (.spawn bootstrap name entry arg) = some r') : OpKept r r' := by
  have hlive : ∀ i, (r.sys.tasks i).state ≠ .unused → i ≠ idle → (r.sys.tasks i).stack ∈ r.live :=
    fun i h1 h2 => (hi.stack i h1 h2).1
  obtain ⟨⟨res, s'⟩, hspawn, rfl⟩ := Option.map_eq_some_iff.mp hrun
  rcases taskSpawn_cases hspawn with ⟨rfl, rfl | ⟨heap, hk, rfl⟩⟩ |
    ⟨i, p, heap, rfl, halloc, hk, hp, rfl⟩
  · exact hi.opKept_of_quiet rfl rfl (Quiet.refl r.live _) (fun i h1 _ => ⟨rfl, rfl, rfl, hlive i h1⟩)
      fun i h1 h2 => absurd h1 h2
  · exact hi.opKept_of_quiet rfl rfl (hi.heap.quiet_kmalloc (by decide) hk)
      (fun i h1 _ => ⟨rfl, rfl, rfl, hlive i h1⟩) fun i h1 h2 => absurd h1 h2
  · have hun := allocTask_unused halloc
    have hquiet : Quiet r.live r.sys.heap heap := hi.heap.quiet_kmalloc (by decide) hk
    rcases hi.heap.kmalloc (n := taskStackSize) (by decide) with
      hk' | ⟨p', h', bs', hk', hp0, hpl, hinv, hround, -⟩
    · rw [show kmalloc r.sys.heap taskStackSize = some (0, r.sys.heap) from hk'] at hk
      exact absurd (Prod.mk.inj (Option.some.inj hk)).1.symm hp
    rw [show kmalloc r.sys.heap taskStackSize = some (p', h') from hk'] at hk
    obtain ⟨rfl, rfl⟩ := Prod.mk.inj (Option.some.inj hk)
    have hsize : taskStackSize ≤ blkSize h'.mem (p' - sizeofBlock) :=
      (le_roundUp (by decide)).trans hround
    have hbound : p' + blkSize h'.mem (p' - sizeofBlock) ≤ heapBase + heapMaxSize :=
      (hinv.payload_bounds List.mem_cons_self).2.2
    have hlt : p' + taskStackSize < 4294967296 := by
      have hb : heapBase + heapMaxSize < 4294967296 := by decide
      omega
    have hframe := bootFrame_bounds hlt
    -- the frame is written inside the new payload
    have hwrite : ∀ x, ¬InPayload h' p' x →
        writeBootFrame h'.mem (bootFrame p') bootstrap x = h'.mem x := by
      intro x hx
      refine writeBootFrame_other ?_
      simp only [InPayload] at hx
      omega
    obtain ⟨-, hsize2, hkept2⟩ := hinv.write List.mem_cons_self hwrite
    have hquiet2 : Quiet r.live h'
        { h' with mem := writeBootFrame h'.mem (bootFrame p') bootstrap } := by
      refine ⟨fun x hx => hwrite x fun hin => ?_, fun q hq => ⟨hsize2 q (List.mem_cons_of_mem _ hq),
        hkept2 q (List.mem_cons_of_mem _ hq) fun he => hpl (he ▸ hq)⟩⟩
      have := (hinv.payload_in List.mem_cons_self hin).1
      omega
    refine hi.opKept_of_quiet rfl rfl (hquiet.trans hquiet2) (fun j h1 _ => ?_) fun j h1 h2 => ?_
    · have hji : j ≠ i := fun h => h1 (by rw [h]; exact hun)
      refine ⟨?_, ?_, ?_, hlive j h1⟩
      · show (listInsert (setTask r.sys.tasks i _) r.sys.current i j).record = _
        rw [listInsert_congr Task.record (fun _ _ => rfl), setTask_other hji]
      · show (listInsert (setTask r.sys.tasks i _) r.sys.current i j).stack = _
        rw [listInsert_congr Task.stack (fun _ _ => rfl), setTask_other hji]
      · show (if j = i then _ else r.saved j) = _
        rw [if_neg hji]
    · have hji : j = i := by
        by_contra hji
        refine h2 ?_
        show (listInsert (setTask r.sys.tasks i _) r.sys.current i j).state = _
        rw [listInsert_congr Task.state (fun _ _ => rfl), setTask_other hji, h1]
      rw [hji]
      exact if_pos rfl

theorem Inv.reap_kept (hi : Inv r c idle l bs) (ha : Allowed r .reap)
    (hrun : runStep r .reap = some r') : OpKept r r' := by
  obtain rfl : c = idle := by
    have h : r.sys.current = r.sys.idle := ha
    rw [hi.current, hi.idle_eq] at h
    exact Option.some.inj h
  obtain ⟨n, hn, hl⟩ := hi.ring.tail
  have hn' : (r.sys.tasks c).next = some n := hn
  have hi₀ : Inv r c c ([] ++ l) bs := hi
  obtain ⟨s', live', l', bs', hloop, hi', -, hstate, -⟩ :=
    reapLoop_spec hi₀ hl (Nat.le_of_lt (ring_length hi.ring))
  rw [runStep, taskReap, hi.current] at hrun
  dsimp only at hrun
  rw [hn'] at hrun
  dsimp only at hrun
  rw [hloop] at hrun
  obtain rfl := Option.some.inj hrun
  obtain ⟨htask, hcur, hidle, -, -⟩ := reapLoop_task hloop
  refine hi.opKept_of_quiet hcur hidle (reapLoop_quiet hi₀ hl hloop) (fun i h1 h2 => ?_)
    fun i h1 h2 => absurd ?_ h2
  rotate_left
  · show (s'.tasks i).state = _
    rw [hstate, if_neg fun h => by rw [h1] at h; exact TaskState.noConfusion h.2, h1]
  have hsame : (s'.tasks i).unlinked = (r.sys.tasks i).unlinked := by
    refine (htask i).resolve_right fun hand => h2 ?_
    obtain ⟨hd, he⟩ := hand
    show (s'.tasks i).unlinked.state = .unused
    rw [he]
    rfl
  have hstack : (s'.tasks i).unlinked.stack = (r.sys.tasks i).unlinked.stack := by rw [hsame]
  refine ⟨(htask i).record, hstack, rfl, fun hic => List.mem_filter.mpr ⟨(hi.stack i h1 hic).1, ?_⟩⟩
  rw [decide_eq_true_eq]
  rintro ⟨j, hjl, hjd, hjs⟩
  -- stacks have one owner, and the owner of this one is gone
  have hjc : j ≠ c := fun h => (List.nodup_cons.mp hi.ring.nodup).1 (h ▸ hjl)
  obtain rfl : j = i := hi.inj j i (by rw [hjd]; exact TaskState.noConfusion) hjc h1 hic hjs
  exact h2 (by show (s'.tasks j).state = _; rw [hstate, if_pos ⟨hjl, hjd⟩])

/-- Operations on one entry of the table. -/
theorem Inv.entry_kept (hi : Inv r c idle l bs) {j : Slot} {t : Task}
    (hrecord : t.record = (r.sys.tasks j).record) (hstack : t.stack = (r.sys.tasks j).stack)
    (hlist : (r.sys.tasks j).state ≠ .unused) :
    OpKept r { r with sys := { r.sys with tasks := setTask r.sys.tasks j t, current := some c } } := by
  refine hi.opKept_of_quiet hi.current.symm rfl (Quiet.refl r.live _)
    (fun i h1 _ => ⟨setTask_congr Task.record hrecord i, setTask_congr Task.stack hstack i, rfl,
      fun h2 => (hi.stack i h1 h2).1⟩)
    fun i h1 h2 => absurd ?_ h2
  show (setTask r.sys.tasks j t i).state = _
  have hij : i ≠ j := fun h => hlist (by rw [← h, h1])
  rw [setTask_other hij, h1]

theorem Inv.kill_kept (hi : Inv r c idle l bs) {id : UInt32}
    (hrun : runStep r (.kill id) = some r') : OpKept r r' := by
  rw [runStep, taskKill, hi.current] at hrun
  dsimp only at hrun
  rw [killLoop_eq hi id] at hrun
  have hsame : OpKept r r := 
    ⟨rfl, rfl, fun _ _ => rfl, fun i _ _ => ⟨rfl, rfl, rfl, fun _ _ _ => rfl⟩,
      fun i h1 h2 => absurd h1 h2⟩
  cases hfind : (c :: l).find? fun t => (r.sys.tasks t).id = id ∧
      (r.sys.tasks t).state ≠ .unused ∧ (r.sys.tasks t).state ≠ .dead with
  | none =>
    rw [hfind] at hrun
    obtain rfl := Option.some.inj hrun
    exact hsame
  | some j =>
    rw [hfind] at hrun
    dsimp only at hrun
    split at hrun
    · obtain rfl := Option.some.inj hrun
      exact hsame
    · have hmatch := List.find?_some hfind
      rw [decide_eq_true_eq] at hmatch
      obtain rfl := Option.some.inj hrun
      exact hi.entry_kept rfl rfl hmatch.2.1

/-- **What the current task asks for disturbs no task**, its own stack included. -/
theorem Inv.op_kept (hi : Inv r c idle l bs) {op : TaskOp} (hop : Calls op) (ha : Allowed r op)
    (hrun : runStep r op = some r') : OpKept r r' := by
  cases op with
  | spawn bootstrap name entry arg => exact hi.spawn_kept hrun
  | schedule => exact hop.elim
  | tick => exact hop.elim
  | sleep now ms =>
    have hst : ¬r.sys.started = false := by simp [hi.started]
    rw [runStep, taskSleepMs, if_neg hst, hi.current] at hrun
    obtain rfl := Option.some.inj hrun
    exact hi.entry_kept rfl rfl hi.current_listed
  | exit =>
    rw [runStep, taskExit] at hrun
    split at hrun
    · exact absurd hrun.symm (Option.some_ne_none _)
    · rw [hi.current] at hrun
      obtain rfl := Option.some.inj hrun
      exact hi.entry_kept rfl rfl hi.current_listed
  | kill id => exact hi.kill_kept hrun
  | reap => exact hi.reap_kept ha hrun
  | heap op =>
    obtain ⟨ha, hnot⟩ := ha
    rw [runStep] at hrun
    obtain ⟨h, hstep, rfl⟩ := Option.map_eq_some_iff.mp hrun
    cases op with
    | kmalloc n =>
      obtain ⟨⟨p, h'⟩, hk, rfl⟩ := Option.map_eq_some_iff.mp hstep
      exact hi.opKept_of_quiet rfl rfl (hi.heap.quiet_kmalloc ha.1 hk)
        (fun i h1 _ => ⟨rfl, rfl, rfl, fun h2 => (hi.stack i h1 h2).1⟩) fun i h1 h2 => absurd h1 h2
    | kfree p =>
      obtain ⟨h', hk, rfl⟩ := Option.map_eq_some_iff.mp hstep
      have hlnd : r.live.Nodup := hi.heap.nodup
      exact hi.opKept_of_quiet rfl rfl (hi.heap.quiet_kfree ha hk)
        (fun i h1 _ => ⟨rfl, rfl, rfl, fun h2 => hlnd.mem_erase_iff.mpr
          ⟨fun he => hnot i h1 (by rw [he]), (hi.stack i h1 h2).1⟩⟩) fun i h1 h2 => absurd h1 h2
    | store => exact hop.elim

end LightningOS.Sched
