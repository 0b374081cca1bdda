import LightningOS.Properties.Alloc

/-!
# The alignment of payloads

`kmalloc` rounds the size up to a multiple of 8, and a payload starts 20 bytes behind the
address of its block. The heap starts at a multiple of 8, so its first payload does not.
Every block is at a multiple of 4, and whether its payload is at a multiple of 8 is
decided by how many of the blocks in front of it have a size that is one.
-/

namespace LightningOS.Mem

open ByteMemory BlockList

theorem roundUp_mod (n : Nat) : roundUp n % 8 = 0 := Nat.mul_mod_left _ _

/-! ## Addresses of blocks -/

/-- Every block is at a multiple of 4. -/
def Fours (bs : List Blk) : Prop := ∀ b ∈ bs, b.addr % 4 = 0

theorem Fours.allocate {bs bs' : List Blk} {n a : Nat} (hf : Fours bs)
    (ha : allocate sizeofBlock splitSlack (roundUp n) bs = some (a, bs')) : Fours bs' := by
  intro c hc
  have hr := roundUp_mod n
  obtain ⟨b, hb, hcb⟩ := allocate_addr ha hc
  have := hf b hb
  simp only [sizeofBlock] at hcb
  omega

theorem Fours.release {bs : List Blk} {a : Nat} (hf : Fours bs) :
    Fours (release sizeofBlock a bs) := by
  intro c hc
  obtain ⟨b, hb, hcb⟩ := release_addr hc
  rw [hcb]
  exact hf b hb

theorem Fours.init (size : Nat) : Fours [{ addr := heapBase, size := size, free := true }] := by
  intro b hb
  have hbase : heapBase % 4 = 0 := by decide
  rw [List.mem_singleton.mp hb]
  exact hbase

/-- The blocks after an allocation are the ones before it, or what first fit makes of them. -/
theorem HeapInv.fours_kmalloc {s : HeapState} {bs bs' : List Blk} (hi : HeapInv s bs)
    (hf : Fours bs) {n p : Nat} {h' : Heap} (hk : Mem.kmalloc s.heap n = some (p, h'))
    (hr : Represents h' bs') : Fours bs' := by
  by_cases hn : n = 0
  · rw [Mem.kmalloc, if_pos hn] at hk
    obtain ⟨-, rfl⟩ := Prod.mk.inj (Option.some.inj hk)
    rw [← hr.blocks_eq, hi.represents.blocks_eq]
    exact hf
  · rcases kmalloc_spec hi.represents (Nat.pos_of_ne_zero hn) with ⟨-, hk'⟩ | ⟨a, cs, ha, hk'⟩
    · rw [hk'] at hk
      obtain ⟨-, rfl⟩ := Prod.mk.inj (Option.some.inj hk)
      rw [← hr.blocks_eq, hi.represents.blocks_eq]
      exact hf
    · rw [hk'] at hk
      obtain ⟨-, rfl⟩ := Prod.mk.inj (Option.some.inj hk)
      rw [← hr.blocks_eq, (claimBlock_represents hi.represents ha).1.blocks_eq]
      exact hf.allocate ha

/-- **One call keeps every block at a multiple of 4.** -/
theorem callStep_fours {s s' : HeapState} {bs : List Blk} {c : HeapCall} (hi : HeapInv s bs)
    (hf : Fours bs) (hc : MayCall s c) (hs : callStep s c = some s') :
    ∃ bs', HeapInv s' bs' ∧ Fours bs' := by
  obtain ⟨s'', bs', hs', hi'⟩ := callStep_inv hi hc
  rw [hs] at hs'
  obtain rfl := Option.some.inj hs'
  refine ⟨bs', hi', ?_⟩
  cases c with
  | kmalloc n =>
    obtain ⟨⟨p, h'⟩, hk, rfl⟩ := Option.map_eq_some_iff.mp hs
    exact hi.fours_kmalloc hf hk hi'.represents
  | kcalloc count size =>
    obtain ⟨⟨p, h'⟩, hk, rfl⟩ := Option.map_eq_some_iff.mp hs
    obtain ⟨⟨q, h''⟩, hq, he⟩ := Option.map_eq_some_iff.mp hk
    -- clearing the payload changes no header
    have hsame : ∃ cs, Represents h'' cs ∧ Represents h' cs := by
      rcases hi.kmalloc_any (wrap32 (count.toNat * size.toNat)) with
        h0 | ⟨p', h3, cs, h0, hp0, hcs, hsize⟩
      · rw [h0] at hq
        obtain ⟨rfl, rfl⟩ := Prod.mk.inj (Option.some.inj hq)
        rw [if_neg (by simp)] at he
        obtain ⟨rfl, rfl⟩ := Prod.mk.inj he
        exact ⟨bs, hi.represents, hi.represents⟩
      · rw [h0] at hq
        obtain ⟨rfl, rfl⟩ := Prod.mk.inj (Option.some.inj hq)
        rw [if_pos hp0] at he
        obtain ⟨rfl, rfl⟩ := Prod.mk.inj he
        have hfit := (le_roundUp hc).trans hsize
        exact ⟨cs, hcs.represents, (hcs.clear List.mem_cons_self hfit).1.represents⟩
    obtain ⟨cs, hcs, hcs'⟩ := hsame
    rw [← hi'.represents.blocks_eq, hcs'.blocks_eq]
    exact hi.fours_kmalloc hf hq hcs
  | kfree p =>
    obtain ⟨h', hk, rfl⟩ := Option.map_eq_some_iff.mp hs
    rcases hc with rfl | hp
    · rw [kfree, if_pos rfl] at hk
      obtain rfl := Option.some.inj hk
      rw [← hi'.represents.blocks_eq, hi.represents.blocks_eq]
      exact hf
    · obtain ⟨b, hb, hbf, rfl⟩ := (hi.live p).mp hp
      obtain ⟨h'', hk', hr, -⟩ := kfree_spec hi.represents hb hbf
      rw [hk] at hk'
      obtain rfl := Option.some.inj hk'
      rw [← hi'.represents.blocks_eq, hr.blocks_eq]
      exact hf.release
  | store p x v =>
    obtain rfl := Option.some.inj hs
    have hm : ∀ y, ¬InPayload s.heap p y → store8 s.heap.mem x v y = s.heap.mem y :=
      fun y hy => store8_other fun he => hy (by rw [he]; exact hc.2)
    rw [← hi'.represents.blocks_eq, (hi.write hc.1 hm).1.represents.blocks_eq]
    exact hf

/-- The blocks whose size is a multiple of 8. -/
def eights (bs : List Blk) : Nat := bs.countP fun b => b.size % 8 = 0

/-- A block of a whole number of eight bytes moves the next one by 4 modulo 8. -/
theorem addr_mod {b : Blk} {post : List Blk} : ∀ {pre : List Blk} {lo hi : Nat},
    Tiles sizeofBlock lo (pre ++ b :: post) hi → Fours (pre ++ b :: post) → lo % 4 = 0 →
    b.addr % 8 = (lo + 4 * eights pre) % 8 := by
  intro pre
  induction pre with
  | nil =>
    intro lo hi ht _ _
    rw [ht.1]
    rfl
  | cons c cs ih =>
    intro lo hi ht hf hlo
    have hc := ht.1
    have hnext : (c.stop sizeofBlock) % 4 = 0 := by
      have h1 := ht.2
      cases cs with
      | nil => rw [← h1.1]; exact hf b (by simp)
      | cons d ds => rw [← h1.1]; exact hf d (by simp)
    have hrest := ih ht.2 (fun d hd => hf d (List.mem_cons_of_mem _ hd)) hnext
    have hcount : eights (c :: cs) = eights cs + if c.size % 8 = 0 then 1 else 0 := by
      rw [eights, List.countP_cons, eights]
      simp only [decide_eq_true_eq]
    rw [hrest, hcount]
    simp only [sizeofBlock, Blk.stop] at *
    split <;> omega

/-! ## Runs and what they asked for -/

/-- The size that a call asks `kmalloc` for, and the pointer it gets. -/
def asked (s : HeapState) : HeapCall → List (Nat × Nat)
  | .kmalloc n => [(n.toNat, ((kmalloc s.heap n.toNat).map Prod.fst).getD 0)]
  | .kcalloc count size =>
    [(wrap32 (count.toNat * size.toNat),
      ((kcalloc s.heap count.toNat size.toNat).map Prod.fst).getD 0)]
  | .kfree _ => []
  | .store _ _ _ => []

/-- The runs from `mem_init` on, with everything that was asked for, the last call first. -/
inductive Served (mem : Memory) (src : List E820Entry) : List (Nat × Nat) → HeapState → Prop
  | init {h : Heap} : memInit mem src = some h → Served mem src [] { heap := h, live := [] }
  | step {s s' : HeapState} {log : List (Nat × Nat)} {c : HeapCall} : Served mem src log s →
      MayCall s c → callStep s c = some s' → Served mem src (asked s c ++ log) s'

theorem Served.called {mem : Memory} {src : List E820Entry} {log : List (Nat × Nat)}
    {s : HeapState} (hr : Served mem src log s) : Called mem src s := by
  induction hr with
  | init hm => exact .init hm
  | step _ hc hs ih => exact ih.step hc hs

theorem called_fours {mem : Memory} {src : List E820Entry} {s : HeapState}
    (hr : Called mem src s) : ∃ bs, HeapInv s bs ∧ Fours bs := by
  induction hr with
  | init hm => exact ⟨_, init_inv hm, Fours.init _⟩
  | step _ hc hs ih =>
    obtain ⟨bs, hi, hf⟩ := ih
    exact callStep_fours hi hf hc hs

/-! ## When a payload is aligned -/

/-- The pointer that `kmalloc` returns is a multiple of 8; `NULL` is one. -/
def Aligned (h : Heap) (n : Nat) : Prop := ∀ p h', kmalloc h n = some (p, h') → p % 8 = 0

/-- No payload of the empty heap is long enough for `n` bytes. -/
def TooLarge (h : Heap) (n : Nat) : Prop := n = 0 ∨ h.heapSize - sizeofBlock < roundUp n

/-- One allocation: first fit has to pass an odd number of blocks of whole eights. -/
theorem HeapInv.aligned_iff {s : HeapState} {bs : List Blk} (hi : HeapInv s bs) (hf : Fours bs)
    (n : Nat) : Aligned s.heap n ↔ n = 0 ∨ passed (roundUp n) bs = bs ∨
      eights (passed (roundUp n) bs) % 2 = 1 := by
  by_cases hn : n = 0
  · refine iff_of_true (fun p h' hk => ?_) (Or.inl hn)
    rw [Mem.kmalloc, if_pos hn] at hk
    obtain ⟨rfl, -⟩ := Prod.mk.inj (Option.some.inj hk)
    rfl
  have hnone : passed (roundUp n) bs = bs ↔
      allocate sizeofBlock splitSlack (roundUp n) bs = none := passed_eq_self
  rw [or_iff_right hn, hnone]
  rcases kmalloc_spec hi.represents (Nat.pos_of_ne_zero hn) with ⟨ha, hk⟩ | ⟨a, bs', ha, hk⟩
  · refine iff_of_true (fun p h' hp => ?_) (Or.inl ha)
    rw [hk] at hp
    obtain ⟨rfl, -⟩ := Prod.mk.inj (Option.some.inj hp)
    rfl
  · obtain ⟨b, post, hbs, rfl⟩ := allocate_passed ha
    have hmod : b.addr % 8 = (heapBase + 4 * eights (passed (roundUp n) bs)) % 8 := by
      have ht := hi.represents.tiles
      have hf' := hf
      rw [hbs] at ht hf'
      exact addr_mod ht hf' (by decide)
    have hbase : heapBase = 2097152 := rfl
    have hone : Aligned s.heap n ↔ (b.addr + sizeofBlock) % 8 = 0 := by
      constructor
      · exact fun hall => hall _ _ hk
      · intro h8 p h' hp
        rw [hk] at hp
        obtain ⟨rfl, -⟩ := Prod.mk.inj (Option.some.inj hp)
        exact h8
    rw [hone, ha, or_iff_right (Option.some_ne_none _), sizeofBlock]
    omega

/-- In the heap as it was laid out, a size that fits gets the first address behind a header. -/
theorem HeapInv.kmalloc_empty {s : HeapState} {bs : List Blk} (hi : HeapInv s bs)
    (hl : s.live = []) (n : Nat) :
    (TooLarge s.heap n ∧ Mem.kmalloc s.heap n = some (0, s.heap)) ∨
      (¬TooLarge s.heap n ∧ ∃ h', Mem.kmalloc s.heap n = some (heapBase + sizeofBlock, h')) := by
  by_cases hn : n = 0
  · exact Or.inl ⟨Or.inl hn, by rw [Mem.kmalloc, if_pos hn]⟩
  obtain ⟨rfl, -⟩ := hi.eq_singleton hl
  rcases kmalloc_spec hi.represents (Nat.pos_of_ne_zero hn) with ⟨ha, hk⟩ | ⟨a, bs', ha, hk⟩
  · have hsmall := allocate_eq_none.mp ha _ List.mem_cons_self
    exact Or.inl ⟨Or.inr (Nat.not_le.mp fun hle => hsmall ⟨rfl, hle⟩), hk⟩
  · obtain ⟨pre, b, post, hbs, -, rfl, -, hfit⟩ := allocate_eq_some ha
    have hb : b ∈ pre ++ b :: post := by simp
    rw [← hbs, List.mem_singleton] at hb
    obtain rfl := hb
    refine Or.inr ⟨?_, _, hk⟩
    rintro (h0 | hlt)
    · exact hn h0
    · exact absurd hfit (Nat.not_le.mpr hlt)

theorem kmallocLoop_heapSize {h h' : Heap} {size p : Nat} : ∀ {fuel block : Nat},
    kmallocLoop h size fuel block = some (p, h') → h'.heapSize = h.heapSize := by
  intro fuel
  induction fuel with
  | zero =>
    intro block hk
    rw [kmallocLoop] at hk
    split at hk
    · obtain ⟨-, rfl⟩ := Prod.mk.inj (Option.some.inj hk)
      rfl
    · exact absurd hk.symm (Option.some_ne_none _)
  | succ fuel ih =>
    intro block hk
    rw [kmallocLoop] at hk
    split at hk
    · obtain ⟨-, rfl⟩ := Prod.mk.inj (Option.some.inj hk)
      rfl
    · split at hk
      · exact ih hk
      · obtain ⟨-, rfl⟩ := Prod.mk.inj (Option.some.inj hk)
        rfl

theorem kmalloc_heapSize {h h' : Heap} {n p : Nat} (hk : kmalloc h n = some (p, h')) :
    h'.heapSize = h.heapSize := by
  rw [kmalloc] at hk
  split at hk
  · obtain ⟨-, rfl⟩ := Prod.mk.inj (Option.some.inj hk)
    rfl
  · exact kmallocLoop_heapSize hk

theorem kfree_heapSize {h h' : Heap} {p : Nat} (hk : kfree h p = some h') :
    h'.heapSize = h.heapSize := by
  rw [kfree] at hk
  dsimp only at hk
  split at hk
  · rw [Option.some.inj hk]
  · split at hk
    · exact absurd hk.symm (Option.some_ne_none _)
    · split at hk
      · rw [Option.some.inj hk]
      · rw [← Option.some.inj hk]

/-- No call changes how large the heap is. -/
theorem callStep_heapSize {s s' : HeapState} {c : HeapCall} (hs : callStep s c = some s') :
    s'.heap.heapSize = s.heap.heapSize := by
  cases c with
  | kmalloc n =>
    obtain ⟨⟨p, h'⟩, hk, rfl⟩ := Option.map_eq_some_iff.mp hs
    exact kmalloc_heapSize hk
  | kcalloc count size =>
    obtain ⟨⟨p, h'⟩, hk, rfl⟩ := Option.map_eq_some_iff.mp hs
    obtain ⟨⟨q, h''⟩, hq, he⟩ := Option.map_eq_some_iff.mp hk
    have hsize := kmalloc_heapSize hq
    split at he
    · obtain ⟨-, rfl⟩ := Prod.mk.inj he
      exact hsize
    · obtain ⟨-, rfl⟩ := Prod.mk.inj he
      exact hsize
  | kfree p =>
    obtain ⟨h', hk, rfl⟩ := Option.map_eq_some_iff.mp hs
    exact kfree_heapSize hk
  | store p x v =>
    obtain rfl := Option.some.inj hs
    rfl

/-- An allocation out of the empty heap, with what it puts on the log. -/
theorem HeapInv.asked_empty {s s' : HeapState} {bs : List Blk} {c : HeapCall}
    (hi : HeapInv s bs) (hl : s.live = []) (hc : MayCall s c) (hs : callStep s c = some s') :
    ((∀ e ∈ asked s c, TooLarge s.heap e.1 ∧ e.2 = 0) ∧ s'.live = []) ∨
      ((∃ e ∈ asked s c, ¬TooLarge s.heap e.1) ∧ ∃ e ∈ asked s c, e.2 % 8 ≠ 0) := by
  have hodd : (heapBase + sizeofBlock) % 8 ≠ 0 := by decide
  cases c with
  | kmalloc n =>
    rcases hi.kmalloc_empty hl n.toNat with ⟨hbig, hk⟩ | ⟨hfit, h', hk⟩
    · refine Or.inl ⟨fun e he => ?_, ?_⟩
      · rw [asked, hk, List.mem_singleton] at he
        rw [he]
        exact ⟨hbig, rfl⟩
      · rw [callStep, hk] at hs
        obtain rfl := Option.some.inj hs
        exact hl
    · rw [asked, hk]
      exact Or.inr ⟨⟨_, List.mem_singleton_self _, hfit⟩, _, List.mem_singleton_self _, hodd⟩
  | kcalloc count size =>
    rcases hi.kmalloc_empty hl (wrap32 (count.toNat * size.toNat)) with
      ⟨hbig, hk⟩ | ⟨hfit, h', hk⟩
    · have hz : Mem.kcalloc s.heap count.toNat size.toNat = some (0, s.heap) := by
        rw [Mem.kcalloc, hk]
        rfl
      refine Or.inl ⟨fun e he => ?_, ?_⟩
      · rw [asked, hz, List.mem_singleton] at he
        rw [he]
        exact ⟨hbig, rfl⟩
      · rw [callStep, hz] at hs
        obtain rfl := Option.some.inj hs
        exact hl
    · have hp : heapBase + sizeofBlock ≠ 0 := by decide
      have hz : (Mem.kcalloc s.heap count.toNat size.toNat).map Prod.fst =
          some (heapBase + sizeofBlock) := by
        rw [Mem.kcalloc, hk, Option.map_some, if_pos hp]
        rfl
      rw [asked, hz]
      exact Or.inr ⟨⟨_, List.mem_singleton_self _, hfit⟩, _, List.mem_singleton_self _, hodd⟩
  | kfree p =>
    refine Or.inl ⟨fun e he => absurd he List.not_mem_nil, ?_⟩
    obtain ⟨h', hk, rfl⟩ := Option.map_eq_some_iff.mp hs
    rw [hl]
    rfl
  | store p x v =>
    have hp := hc.1
    rw [hl] at hp
    exact absurd hp List.not_mem_nil

/--
A run that has asked only for sizes that are too large has nothing live, and one that has
asked for anything else has got a pointer that is no multiple of 8.
-/
theorem Served.cases {mem : Memory} {src : List E820Entry} {log : List (Nat × Nat)}
    {s : HeapState} (hr : Served mem src log s) :
    ((∀ e ∈ log, TooLarge s.heap e.1 ∧ e.2 = 0) ∧ s.live = []) ∨
      ((∃ e ∈ log, ¬TooLarge s.heap e.1) ∧ ∃ e ∈ log, e.2 % 8 ≠ 0) := by
  induction hr with
  | init hm => exact Or.inl ⟨fun e he => absurd he List.not_mem_nil, rfl⟩
  | @step s s' log c hr hc hs ih =>
    have hsize : ∀ n, TooLarge s'.heap n ↔ TooLarge s.heap n := by
      intro n
      rw [TooLarge, TooLarge, callStep_heapSize hs]
    simp only [hsize]
    rcases ih with ⟨hall, hl⟩ | ⟨⟨e, he, hfit⟩, e', he', hodd⟩
    · obtain ⟨bs, hi⟩ := called_inv hr.called
      rcases hi.asked_empty hl hc hs with ⟨hnew, hl'⟩ | ⟨⟨e, he, hfit⟩, e', he', hodd⟩
      · refine Or.inl ⟨fun e he => ?_, hl'⟩
        exact (List.mem_append.mp he).elim (hnew e) (hall e)
      · exact Or.inr ⟨⟨e, List.mem_append_left _ he, hfit⟩, e', List.mem_append_left _ he', hodd⟩
    · exact Or.inr ⟨⟨e, List.mem_append_right _ he, hfit⟩, e', List.mem_append_right _ he', hodd⟩

/--
**When payloads are aligned.** In a reachable heap the result of one allocation is a
multiple of 8 if and only if it is `NULL` or first fit passes an odd number of blocks
whose size is one. Over a whole run all results are multiples of 8 if and only if no size
that was asked for fits the empty heap, so that there was no result at all.
-/
theorem alignment_iff {mem : Memory} {src : List E820Entry} {log : List (Nat × Nat)}
    {s : HeapState} (hr : Served mem src log s) :
    (∀ n : UInt32, Aligned s.heap n.toNat ↔ n.toNat = 0 ∨
      passed (roundUp n.toNat) (blocks s.heap) = blocks s.heap ∨
      eights (passed (roundUp n.toNat) (blocks s.heap)) % 2 = 1) ∧
    ((∀ e ∈ log, e.2 % 8 = 0) ↔ ∀ e ∈ log, TooLarge s.heap e.1) := by
  constructor
  · intro n
    obtain ⟨bs, hi, hf⟩ := called_fours hr.called
    rw [hi.represents.blocks_eq]
    exact hi.aligned_iff hf n.toNat
  · rcases hr.cases with ⟨hall, -⟩ | ⟨⟨e, he, hfit⟩, e', he', hodd⟩
    · exact iff_of_true (fun e he => by rw [(hall e he).2]) fun e he => (hall e he).1
    · exact iff_of_false (fun h => hodd (h e' he')) fun h => hfit (h e he)

/-- After one allocation of 100 bytes the second one is aligned, but the first was not. -/
theorem alignment_after_100 : ∃ s, callStep bootHeap (.kmalloc 100) = some s ∧
    Aligned s.heap (8 : UInt32).toNat ∧ ¬∀ e ∈ asked bootHeap (.kmalloc 100), e.2 % 8 = 0 := by
  have hinit : Served (fun _ => 0) [] [] bootHeap := Served.init rfl
  have hmay : MayCall bootHeap (.kmalloc 100) := trivial
  have hs : callStep bootHeap (.kmalloc 100) = some _ := rfl
  have hserved := hinit.step hmay hs
  rw [List.append_nil] at hserved
  obtain ⟨hone, hall⟩ := alignment_iff hserved
  refine ⟨_, hs, (hone 8).mpr (Or.inr (Or.inr (by decide +kernel))), fun haligned => ?_⟩
  rcases hall.mp haligned _ List.mem_cons_self with hzero | hlarge
  · exact absurd hzero (by decide)
  · revert hlarge
    decide +kernel

/-- The first payload of all is 4 bytes off. -/
theorem first_payload_misaligned : ¬∀ (mem : Memory) (src : List E820Entry)
    (log : List (Nat × Nat)) (s : HeapState), Served mem src log s →
      ∀ n : UInt32, Aligned s.heap n.toNat := by
  intro hall
  have hinit : Served (fun _ => 0) [] [] bootHeap := Served.init rfl
  have hk : kmalloc bootHeap.heap 8 = some (heapBase + sizeofBlock, _) := rfl
  have h8 := hall _ _ _ _ hinit 8 _ _ hk
  revert h8
  decide

end LightningOS.Mem
