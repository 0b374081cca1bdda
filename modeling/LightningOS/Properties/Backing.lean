import LightningOS.Properties.Alloc
import LightningOS.Properties.Cwd
import Mathlib.Logic.Relation

/-!
# The tree in the heap

`Env` leaves open which address a request gets. Here the requests of `ramfs.c` go to `kmalloc`
and `kfree` of `mem.c`. `Backed` says that every node and every buffer has a payload of its own.
What the heap hands out is then what `Env` promises, and after each call of `ramfs.c` the heap
backs the tree again.
-/

namespace LightningOS.Ramfs

open ByteMemory Mem

/-! ## Payloads -/

/-- The payload `p` was handed out, and there is room for `n` bytes in it. -/
def HasRoom (h : HeapState) (p n : Nat) : Prop :=
  p ∈ h.live ∧ n ≤ blkSize h.heap.mem (p - sizeofBlock)

/-- Every node and every buffer has a payload of its own. -/
structure Backed (h : HeapState) (s : Fs) : Prop where
  sound : ∃ bs, HeapInv h bs
  node : ∀ {p n}, s.nodes.get p = some n → HasRoom h p sizeofFsNode
  buf : ∀ {d b}, s.bufs.get d = some b → HasRoom h d b.length
  apart : ∀ {p n}, s.nodes.get p = some n → s.bufs.get p = none

variable {h h' : HeapState} {bs : List BlockList.Blk} {s s' : Fs} {p d : Ptr} {n : Nat}

theorem HasRoom.mono {k : Nat} (hr : HasRoom h p n) (hk : k ≤ n) : HasRoom h p k :=
  ⟨hr.1, hk.trans hr.2⟩

/-- With its header a payload is no longer than the heap. -/
theorem HasRoom.le (hr : HasRoom h p n) (hi : HeapInv h bs) : n + sizeofBlock ≤ heapMaxSize := by
  obtain ⟨hlive, hn⟩ := hr
  obtain ⟨b, hb, -, rfl, hsize⟩ := hi.block hlive
  have hbounds := hi.represents.addr_bounds hb
  rw [hsize] at hn
  simp only [BlockList.Blk.stop] at hbounds
  omega

theorem Backed.congr (hb : Backed h s) (hn : s'.nodes = s.nodes) (hd : s'.bufs = s.bufs) :
    Backed h s' := by
  refine ⟨hb.sound, fun hp => ?_, fun hp => ?_, fun hp => ?_⟩
  · rw [hn] at hp
    exact hb.node hp
  · rw [hd] at hp
    exact hb.buf hp
  · rw [hn] at hp
    rw [hd]
    exact hb.apart hp

theorem Backed.fresh (hb : Backed h s) (hp : p ∉ h.live) : s.Fresh p := by
  constructor
  · cases hn : s.nodes.get p with
    | none => rfl
    | some n => exact absurd (hb.node hn).1 hp
  · cases hd : s.bufs.get p with
    | none => rfl
    | some b => exact absurd (hb.buf hd).1 hp

/-- A tree of nothing. -/
theorem backed_zero (hi : HeapInv h bs) : Backed h .zero :=
  ⟨⟨bs, hi⟩, fun hp => absurd hp (Option.some_ne_none _).symm,
    fun hp => absurd hp (Option.some_ne_none _).symm, fun _ => rfl⟩

/-! ## The environment of a heap -/

/-- What `kmalloc` hands out; `none` is `NULL`. -/
def payload (h : Heap) (n : Nat) : Option Ptr := ((kmalloc h n).map Prod.fst).filter (· ≠ 0)

theorem payload_eq {heap : Heap} (hp : payload heap n = some p) :
    p ≠ 0 ∧ ∃ heap', kmalloc heap n = some (p, heap') := by
  obtain ⟨hk, hne⟩ := Option.filter_eq_some_iff.mp hp
  obtain ⟨⟨q, heap'⟩, hq, rfl⟩ := Option.map_eq_some_iff.mp hk
  exact ⟨of_decide_eq_true hne, heap', hq⟩

/-- A payload that is handed out is a new one, and the others keep their room. -/
theorem payload_spec (hi : HeapInv h bs) (hp : payload h.heap n = some p) :
    ∃ heap, kmalloc h.heap n = some (p, heap) ∧ p ≠ 0 ∧ p ∉ h.live ∧
      (∃ bs', HeapInv { heap := heap, live := p :: h.live } bs') ∧
      HasRoom { heap := heap, live := p :: h.live } p (roundUp n) ∧
      ∀ q k, HasRoom h q k → HasRoom { heap := heap, live := p :: h.live } q k := by
  obtain ⟨hne, heap', hkp⟩ := payload_eq hp
  have hn : 0 < n := by
    refine Nat.pos_of_ne_zero ?_
    rintro rfl
    rw [kmalloc, if_pos rfl] at hkp
    exact hne (congrArg Prod.fst (Option.some.inj hkp)).symm
  rcases hi.kmalloc hn with hk | ⟨q, heap, bs', hk, hq, hnew, hi', hsize, hkept⟩
  · rw [hk] at hkp
    exact absurd (congrArg Prod.fst (Option.some.inj hkp)).symm hne
  · rw [hk] at hkp
    obtain ⟨rfl, -⟩ := Prod.mk.inj (Option.some.inj hkp)
    exact ⟨heap, hk, hq, hnew, ⟨bs', hi'⟩, ⟨List.mem_cons_self, hsize⟩, fun r k hr =>
      ⟨List.mem_cons_of_mem _ hr.1, hr.2.trans_eq (hkept r hr.1).1.symm⟩⟩

/-- A heap that backs the tree. -/
abbrev HeapFor (s : Fs) : Type := { h : HeapState // Backed h s }

theorem HeapFor.fresh {heap : Option (HeapFor s)}
    (hp : heap.bind (fun h => payload h.val.heap n) = some p) : s.Fresh p := by
  obtain ⟨h, -, hp⟩ := Option.bind_eq_some_iff.mp hp
  obtain ⟨bs, hi⟩ := h.property.sound
  obtain ⟨-, -, -, hnew, -⟩ := payload_spec hi hp
  exact h.property.fresh hnew

theorem HeapFor.small {heap : Option (HeapFor s)}
    (hp : heap.bind (fun h => payload h.val.heap n) = some p) :
    roundUp n + sizeofBlock ≤ heapMaxSize := by
  obtain ⟨h, -, hp⟩ := Option.bind_eq_some_iff.mp hp
  obtain ⟨bs, hi⟩ := h.property.sound
  obtain ⟨heap', -, -, -, ⟨bs', hi'⟩, hroom, -⟩ := payload_spec hi hp
  exact hroom.le hi'

/-- The system with the heap of `mem.c`. `heap` is what it is when a question is put, if it is
known then. -/
def Env.ofHeap (heap : Nat → (s : Fs) → Option (HeapFor s)) (junk : Nat → List UInt8)
    (build : List UInt8) : Env where
  kmalloc t s n := (heap t s).bind fun h => payload h.val.heap n
  kmalloc_fresh := HeapFor.fresh
  kmalloc_small := HeapFor.small
  junk := junk
  build := build

/-- What one call asks about the tree `s` is answered by the heap `h`. A call puts two questions
at most. -/
def Serves (env : Env) (h : HeapState) (s : Fs) : Prop :=
  ∀ t n, s.time ≤ t → t ≤ s.time + 1 → env.kmalloc t { s with time := t } n = payload h.heap n

theorem Env.ofHeap_serves {heap : Nat → (s : Fs) → Option (HeapFor s)} {junk : Nat → List UInt8}
    {build : List UInt8} (hb : Backed h s)
    (hheap : ∀ t, s.time ≤ t → t ≤ s.time + 1 →
      heap t { s with time := t } = some ⟨h, hb.congr rfl rfl⟩) :
    Serves (.ofHeap heap junk build) h s := by
  intro t n hlo hhi
  show (heap t { s with time := t }).bind _ = _
  rw [hheap t hlo hhi, Option.bind_some]

/-! ## What the tree does to the heap -/

/-- Some calls of the heap, one after the other. -/
def HeapRun : HeapState → HeapState → Prop :=
  Relation.ReflTransGen fun h h' => ∃ c, MayCall h c ∧ callStep h c = some h'

theorem HeapRun.called {mem : Memory} {src : List E820Entry} (hr : HeapRun h h')
    (hc : Called mem src h) : Called mem src h' := by
  induction hr with
  | refl => exact hc
  | tail _ hstep ih =>
    obtain ⟨c, hmay, hs⟩ := hstep
    exact ih.step hmay hs

/-- Some calls bring the heap from `h` to one that backs `s`. -/
def BackedAfter (h : HeapState) (s : Fs) : Prop := ∃ h', HeapRun h h' ∧ Backed h' s

theorem Backed.after (hb : Backed h s) : BackedAfter h s := ⟨h, .refl, hb⟩

theorem BackedAfter.trans (ha : BackedAfter h s) (hs : ∀ {h'}, Backed h' s → BackedAfter h' s') :
    BackedAfter h s' := by
  obtain ⟨h₁, hrun₁, hb⟩ := ha
  obtain ⟨h₂, hrun₂, hb'⟩ := hs hb
  exact ⟨h₂, Relation.ReflTransGen.trans hrun₁ hrun₂, hb'⟩

/-- A request. -/
theorem Backed.request (hb : Backed h s) (hp : payload h.heap n = some p) (hn : n < 4294967296) :
    s.Fresh p ∧ ∃ h', HeapRun h h' ∧ Backed h' s ∧ HasRoom h' p (roundUp n) := by
  obtain ⟨bs, hi⟩ := hb.sound
  obtain ⟨heap, hk, hne, hnew, hinv, hroom, hkept⟩ := payload_spec hi hp
  have hstep : callStep h (.kmalloc (UInt32.ofNat n)) =
      some { heap := heap, live := p :: h.live } := by
    rw [callStep, UInt32.toNat_ofNat_of_lt' hn, hk, Option.map_some]
    simp only [if_neg hne]
  exact ⟨hb.fresh hnew, _, .single ⟨.kmalloc _, trivial, hstep⟩,
    ⟨hinv, fun hq => hkept _ _ (hb.node hq), fun hd => hkept _ _ (hb.buf hd), hb.apart⟩, hroom⟩

/-- A release. The other payloads keep their room. -/
theorem HeapInv.release (hi : HeapInv h bs) (hp : p ∈ h.live) :
    ∃ h', HeapRun h h' ∧ (∃ bs', HeapInv h' bs') ∧
      ∀ q k, q ≠ p → HasRoom h q k → HasRoom h' q k := by
  obtain ⟨heap, bs', hk, hi', hkept⟩ := hi.kfree hp
  have hstep : callStep h (.kfree p) = some { heap := heap, live := h.live.erase p } := by
    rw [callStep, hk, Option.map_some]
  exact ⟨_, .single ⟨.kfree p, Or.inr hp, hstep⟩, ⟨bs', hi'⟩, fun q k hq hr =>
    ⟨hi.nodup.mem_erase_iff.mpr ⟨hq, hr.1⟩, hr.2.trans_eq (hkept q hr.1 hq).1.symm⟩⟩

/-- A node in a payload with room for it. -/
theorem Backed.setNode (hb : Backed h s) (hr : HasRoom h p sizeofFsNode)
    (hd : s.bufs.get p = none) (n : FsNode) : Backed h (s.setNode p n) := by
  refine ⟨hb.sound, fun {q m} hq => ?_, hb.buf, fun {q m} hq => ?_⟩
  · by_cases hqp : q = p
    · exact hqp ▸ hr
    · exact hb.node ((Store.get_set_other hqp).symm.trans hq)
  · by_cases hqp : q = p
    · exact hqp ▸ hd
    · exact hb.apart ((Store.get_set_other hqp).symm.trans hq)

/-- A node may be written. -/
theorem Backed.update (hb : Backed h s) {m : FsNode} (hm : s.nodes.get p = some m) (n : FsNode) :
    Backed h (s.setNode p n) :=
  hb.setNode (hb.node hm) (hb.apart hm) n

/-- A buffer in a payload with room for it. -/
theorem Backed.setBuf (hb : Backed h s) {b : List UInt8} (hr : HasRoom h d b.length)
    (hn : s.nodes.get d = none) : Backed h { s with bufs := s.bufs.set d b } := by
  refine ⟨hb.sound, hb.node, fun {e c} he => ?_, fun {q m} hq => ?_⟩
  · by_cases hed : e = d
    · subst hed
      obtain rfl := Option.some.inj ((Store.get_set_same _ _ _).symm.trans he)
      exact hr
    · exact hb.buf ((Store.get_set_other hed).symm.trans he)
  · refine (Store.get_set_other ?_).trans (hb.apart hq)
    rintro rfl
    rw [hn] at hq
    exact absurd hq.symm (Option.some_ne_none m)

/-- A buffer may be written. -/
theorem Backed.overwrite (hb : Backed h s) {b c : List UInt8} (hd : s.bufs.get d = some b)
    (hc : c.length = b.length) : Backed h { s with bufs := s.bufs.set d c } := by
  refine hb.setBuf (hc ▸ hb.buf hd) ?_
  cases hn : s.nodes.get d with
  | none => rfl
  | some n =>
    rw [hb.apart hn] at hd
    exact absurd hd.symm (Option.some_ne_none b)

theorem Backed.freeNode (hb : Backed h s) (hf : s.freeNode p = some s') : BackedAfter h s' := by
  unfold Fs.freeNode at hf
  split at hf
  · simp at hf
  next n hn =>
    obtain rfl := Option.some.inj hf
    obtain ⟨bs, hi⟩ := hb.sound
    obtain ⟨h', hrun, hinv, hkept⟩ := HeapInv.release hi (hb.node hn).1
    have hback : ∀ {q m}, (s.nodes.erase p).get q = some m → q ≠ p ∧ s.nodes.get q = some m := by
      intro q m hq
      by_cases hqp : q = p
      · subst hqp
        rw [Store.get_erase_same] at hq
        exact absurd hq.symm (Option.some_ne_none m)
      · exact ⟨hqp, (Store.get_erase_other hqp).symm.trans hq⟩
    refine ⟨h', hrun, hinv, fun hq => ?_, fun {d b} hd => ?_, fun hq => hb.apart (hback hq).2⟩
    · exact hkept _ _ (hback hq).1 (hb.node (hback hq).2)
    · refine hkept _ _ ?_ (hb.buf hd)
      rintro rfl
      rw [hb.apart hn] at hd
      exact absurd hd.symm (Option.some_ne_none b)

theorem Backed.freeBuf (hb : Backed h s) {old : Option Ptr} (hf : s.freeBuf old = some s') :
    ∃ h', HeapRun h h' ∧ Backed h' s' ∧ ∀ q k, old ≠ some q → HasRoom h q k → HasRoom h' q k := by
  unfold Fs.freeBuf at hf
  split at hf
  · obtain rfl := Option.some.inj hf
    exact ⟨h, .refl, hb, fun _ _ _ hr => hr⟩
  next d =>
    split at hf
    · simp at hf
    next b hd =>
      obtain rfl := Option.some.inj hf
      obtain ⟨bs, hi⟩ := hb.sound
      obtain ⟨h', hrun, hinv, hkept⟩ := HeapInv.release hi (hb.buf hd).1
      have hne : ∀ {q m}, s.nodes.get q = some m → q ≠ d := by
        rintro q m hq rfl
        rw [hb.apart hq] at hd
        exact absurd hd.symm (Option.some_ne_none b)
      refine ⟨h', hrun, ⟨hinv, fun hq => hkept _ _ (hne hq) (hb.node hq), fun {e c} he => ?_,
        fun hq => (Store.get_erase_other (hne hq)).trans (hb.apart hq)⟩,
        fun q k hq => hkept q k fun hc => hq (hc ▸ rfl)⟩
      by_cases hed : e = d
      · subst hed
        rw [Store.get_erase_same] at he
        exact absurd he.symm (Option.some_ne_none c)
      · exact hkept _ _ hed (hb.buf ((Store.get_erase_other hed).symm.trans he))

theorem freeBuf_nodes {old : Option Ptr} (hf : s.freeBuf old = some s') : s'.nodes = s.nodes := by
  unfold Fs.freeBuf at hf
  split at hf
  · obtain rfl := Option.some.inj hf
    rfl
  · split at hf
    · simp at hf
    · obtain rfl := Option.some.inj hf
      rfl

/-! ## The calls of the tree -/

variable {env : Env}

theorem Backed.appendChild (hb : Backed h s) (ha : Ramfs.appendChild s d p = some s') :
    Backed h s' := by
  unfold Ramfs.appendChild at ha
  split at ha
  · simp at ha
  next pn hpn =>
    split at ha
    · obtain rfl := Option.some.inj ha
      exact hb.update hpn _
    · split at ha
      · simp at ha
      · split at ha
        · simp at ha
        next ln hln =>
          obtain rfl := Option.some.inj ha
          exact hb.update hln _

theorem Backed.nodeNew (hb : Backed h s)
    (hk : ∀ n, env.kmalloc s.time s n = payload h.heap n) {name : List UInt8} {type : FsType}
    {parent r : Option Ptr} (hnew : Ramfs.nodeNew env s name type parent = some (r, s')) :
    BackedAfter h s' := by
  have hsize : sizeofFsNode ≤ roundUp sizeofFsNode := by decide
  have hlt : sizeofFsNode < 4294967296 := by decide
  cases nodeNew_cases env hnew with
  | denied _ => exact Backed.after (hb.congr rfl rfl)
  | root hp =>
    rw [hk] at hp
    obtain ⟨hfresh, h', hrun, hb', hroom⟩ := hb.request hp hlt
    exact ⟨h', hrun, (hb'.setNode (hroom.mono hsize) hfresh.2 _).congr rfl rfl⟩
  | child hp happend =>
    rw [hk] at hp
    obtain ⟨hfresh, h', hrun, hb', hroom⟩ := hb.request hp hlt
    have hset := (hb'.congr rfl rfl : Backed h' { s with time := s.time + 1 }).setNode
      (hroom.mono hsize) hfresh.2
    exact ⟨h', hrun, ((hset _).appendChild happend).congr rfl rfl⟩

theorem Backed.fsCreate (hb : Backed h s) (hs : Serves env h s) {path : List UInt8}
    {type : FsType} {r : Option Ptr} (hc : Ramfs.fsCreate env s path type = some (r, s')) :
    BackedAfter h s' := by
  unfold Ramfs.fsCreate at hc
  have hb₁ : Backed h { s with time := s.time + 1 } := hb.congr rfl rfl
  split at hc
  · simp at hc
  next parent component hw =>
    dsimp only at hc
    split at hc
    · obtain ⟨-, rfl⟩ := Prod.mk.inj (Option.some.inj hc)
      exact hb₁.after
    · split at hc
      · simp at hc
      · split at hc
        · obtain ⟨-, rfl⟩ := Prod.mk.inj (Option.some.inj hc)
          exact hb₁.after
        · split at hc
          · simp at hc
          · obtain ⟨-, rfl⟩ := Prod.mk.inj (Option.some.inj hc)
            exact hb₁.after
          · exact hb₁.nodeNew (fun n => hs (s.time + 1) n (by omega) (by omega)) hc

/-- The two halves of freeing a subtree call each other. -/
theorem backed_free (k : Nat) :
    (∀ {h s s' a}, Backed h s → freeSubtree k s a = some s' → BackedAfter h s') ∧
      ∀ {h s s' o}, Backed h s → freeSiblings k s o = some s' → BackedAfter h s' := by
  induction k with
  | zero =>
    refine ⟨fun _ hf => by simp [freeSubtree] at hf, fun {h s s' o} hb hf => ?_⟩
    cases o with
    | none =>
      rw [freeSiblings] at hf
      obtain rfl := Option.some.inj hf
      exact hb.after
    | some c => simp [freeSiblings] at hf
  | succ k ih =>
    constructor
    · intro h s s' a hb hf
      rw [freeSubtree] at hf
      split at hf
      · simp at hf
      next n hn =>
        split at hf
        · simp at hf
        next s₁ hkids =>
          split at hf
          · simp at hf
          next s₂ hbuf =>
            split at hf
            · simp at hf
            next s₃ hnode =>
              obtain rfl := Option.some.inj hf
              refine (ih.2 hb hkids).trans fun hb₁ => ?_
              obtain ⟨h₂, hrun, hb₂, -⟩ := hb₁.freeBuf hbuf
              refine BackedAfter.trans ⟨h₂, hrun, hb₂⟩ fun hb₂ => ?_
              exact (hb₂.freeNode hnode).trans fun hb₃ => Backed.after (hb₃.congr rfl rfl)
    · intro h s s' o hb hf
      cases o with
      | none =>
        rw [freeSiblings] at hf
        obtain rfl := Option.some.inj hf
        exact hb.after
      | some c =>
        rw [freeSiblings] at hf
        split at hf
        · simp at hf
        · split at hf
          · simp at hf
          next s₁ hfirst => exact (ih.1 hb hfirst).trans fun hb₁ => ih.2 hb₁ hf

theorem Backed.unlink (hb : Backed h s) {node : Ptr} {next : Option Ptr}
    (hu : Ramfs.unlink s d node next = some (some s')) : Backed h s' := by
  unfold Ramfs.unlink at hu
  split at hu
  · simp at hu
  next pn hpn =>
    split at hu
    · obtain rfl := Option.some.inj (Option.some.inj hu)
      exact hb.update hpn _
    · split at hu
      · simp at hu
      · simp at hu
      · split at hu
        · simp at hu
        next qn hqn =>
          obtain rfl := Option.some.inj (Option.some.inj hu)
          exact hb.update hqn _

theorem Backed.fsRemove (hb : Backed h s) {path : List UInt8} {res : Int}
    (hr : Ramfs.fsRemove s path = some (res, s')) : BackedAfter h s' := by
  unfold Ramfs.fsRemove at hr
  have hsame : ∀ {k : Int}, some (k, s) = some (res, s') → BackedAfter h s' := by
    intro k he
    obtain ⟨-, rfl⟩ := Prod.mk.inj (Option.some.inj he)
    exact hb.after
  split at hr
  · simp at hr
  · exact hsame hr
  · split at hr
    · exact hsame hr
    · split at hr
      · exact hsame hr
      · split at hr
        · simp at hr
        · split at hr
          · exact hsame hr
          · split at hr
            · simp at hr
            · exact hsame hr
            next s₁ hunlink =>
              split at hr
              · simp at hr
              next s₂ hfree =>
                obtain ⟨-, rfl⟩ := Prod.mk.inj (Option.some.inj hr)
                exact (backed_free _).1 (hb.unlink hunlink) hfree

theorem Backed.growBuf (hb : Backed h s) (hs : Serves env h s) {f : Ptr} {n : FsNode}
    (hn : s.nodes.get f = some n) {base needed : Nat} {r : Option FsNode}
    (hg : Ramfs.growBuf env s f n base needed = some (r, s')) :
    ∃ h', HeapRun h h' ∧ Backed h' s' ∧ ∃ m, s'.nodes.get f = some m := by
  cases growBuf_cases env hg with
  | fits _ => exact ⟨h, .refl, hb, n, hn⟩
  | denied _ _ => exact ⟨h, .refl, hb.congr rfl rfl, n, hn⟩
  | @moved d buffer s₁ _ hk hlen hfree =>
    have hp : payload h.heap (wrap32 (needed + 64)) = some d :=
      (hs s.time _ (Nat.le_refl _) (Nat.le_succ _)).symm.trans hk
    obtain ⟨hfresh, h₁, hrun₁, hb₁, hroom⟩ := hb.request hp (Nat.mod_lt _ (by decide))
    obtain ⟨h₂, hrun₂, hb₂, hkept⟩ :=
      (hb₁.congr rfl rfl : Backed h₁ { s with time := s.time + 1 }).freeBuf hfree
    have hnodes := freeBuf_nodes hfree
    have hold : n.data ≠ some d := by
      intro hd
      rw [hd] at hfree
      simp [Fs.freeBuf, hfresh.2] at hfree
    have hlen' : buffer.length ≤ roundUp (wrap32 (needed + 64)) :=
      hlen.trans_le (Nat.min_le_right _ _)
    have hb₃ := (hb₂.setBuf ((hkept d _ hold hroom).mono hlen') (by rw [hnodes]; exact hfresh.1))
    have hf : s₁.nodes.get f = some n := by
      rw [hnodes]
      exact hn
    exact ⟨h₂, Relation.ReflTransGen.trans hrun₁ hrun₂, hb₃.update hf _, _,
      Store.get_set_same _ _ _⟩

theorem Backed.fsWriteN (hb : Backed h s) (hs : Serves env h s) {file : Option Ptr}
    {src : List UInt8} {add : Nat} {append : Bool} {res : Int}
    (hw : Ramfs.fsWriteN env s file src add append = some (res, s')) : BackedAfter h s' := by
  cases fsWriteN_cases env hw with
  | nobody => exact hb.after
  | directory _ _ => exact hb.after
  | denied hn _ hgrow =>
    obtain ⟨h', hrun, hb', -⟩ := hb.growBuf hs hn hgrow
    exact ⟨h', hrun, hb'⟩
  | written hn _ hgrow _ hbuf _ htext hout =>
    obtain ⟨h', hrun, hb', m, hm⟩ := hb.growBuf hs hn hgrow
    have hlen := (blit_length hout).2.trans (blit_length htext).2
    exact ⟨h', hrun, (hb'.overwrite hbuf hlen).update hm _⟩

theorem Backed.fsReset (hb : Backed h s) (hs : Serves env h s)
    (hr : Ramfs.fsReset env s = some s') : BackedAfter h s' := by
  unfold Ramfs.fsReset at hr
  split at hr
  · split at hr
    · simp at hr
    · split at hr
      · simp at hr
      next s₁ hfree =>
        split at hr
        · simp at hr
        next rn hrn =>
          obtain rfl := Option.some.inj hr
          refine ((backed_free _).2 hb hfree).trans fun hb₁ => ?_
          exact Backed.after ((hb₁.update hrn { rn with children := none }).congr rfl rfl)
  · split at hr
    · simp at hr
    next r s₁ hnew =>
      obtain rfl := Option.some.inj hr
      refine (hb.nodeNew (fun n => hs s.time n (Nat.le_refl _) (Nat.le_succ _)) hnew).trans
        fun hb₁ => ?_
      exact Backed.after (hb₁.congr rfl rfl)

theorem Backed.fsStep (hb : Backed h s) (hs : Serves env h s) {op : FsOp}
    (hop : Ramfs.fsStep env s op = some s') : BackedAfter h s' := by
  cases op with
  | create path type =>
    obtain ⟨⟨r, s₁⟩, hrun, rfl⟩ := Option.map_eq_some_iff.mp hop
    exact hb.fsCreate hs hrun
  | remove path =>
    obtain ⟨⟨res, s₁⟩, hrun, rfl⟩ := Option.map_eq_some_iff.mp hop
    exact hb.fsRemove hrun
  | write file src add append =>
    obtain ⟨⟨res, s₁⟩, hrun, rfl⟩ := Option.map_eq_some_iff.mp hop
    exact hb.fsWriteN hs hrun
  | setCwd dir =>
    simp only [Ramfs.fsStep, Ramfs.fsSetCwd] at hop
    split at hop
    · exact Option.some.inj hop ▸ hb.after
    · split at hop
      · simp at hop
      · split at hop
        · obtain rfl := Option.some.inj hop
          exact Backed.after (hb.congr rfl rfl)
        · exact Option.some.inj hop ▸ hb.after
  | reset => exact hb.fsReset hs hop

/-- Others may use the heap in between, but they free nothing of the tree. -/
theorem Backed.others (hb : Backed h s) {op : HeapOp} (ha : Allowed h op)
    (hno : ∀ p, op = .kfree p → s.Fresh p) (hop : heapStep h op = some h') : Backed h' s := by
  obtain ⟨bs, hi⟩ := hb.sound
  obtain ⟨h₁, bs', hs, hi', hkept⟩ := heapStep_inv hi ha
  obtain rfl := Option.some.inj (hop.symm.trans hs)
  have hroom : ∀ {q k}, HasRoom h q k → ¬s.Fresh q → HasRoom h' q k := by
    intro q k hr hq
    obtain ⟨hlive, hsize, -⟩ := hkept q hr.1 fun hc => hq (hno q hc)
    exact ⟨hlive, hr.2.trans_eq hsize.symm⟩
  refine ⟨⟨bs', hi'⟩, fun {q n} hq => hroom (hb.node hq) fun hf => ?_,
    fun {d b} hd => hroom (hb.buf hd) fun hf => ?_, hb.apart⟩
  · exact absurd (hf.1.symm.trans hq).symm (Option.some_ne_none n)
  · exact absurd (hf.2.symm.trans hd).symm (Option.some_ne_none b)

/-- **The tree lives in the heap.** Where the heap answers what a call asks, some calls of the
heap bring it to one that backs the tree afterwards, and which is again a heap that a run of
`mem.c` comes to. -/
theorem tree_in_heap {mem : Memory} {src : List E820Entry} (hc : Called mem src h)
    (hb : Backed h s) (hs : Serves env h s) {op : FsOp} (hop : fsStep env s op = some s') :
    ∃ h', HeapRun h h' ∧ Called mem src h' ∧ Backed h' s' := by
  obtain ⟨h', hrun, hb'⟩ := hb.fsStep hs hop
  exact ⟨h', hrun, hrun.called hc, hb'⟩

/-- A heap without users backs a tree without nodes, and the first request gets the payload of
the one block. -/
example : Backed bootHeap .zero ∧ payload bootHeap.heap sizeofFsNode = some 0x200014 :=
  ⟨backed_zero (init_inv (rfl : memInit (fun _ => 0) [] = some bootHeap.heap)), rfl⟩

end LightningOS.Ramfs
