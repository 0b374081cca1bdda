import LightningOS.Properties.Heap

/-!
# What an allocation hands out

The heap over runs with any 32-bit size and with `kcalloc`. A size of more than
`0xFFFFFFF8` wraps to 0 when it is rounded up, and a product of two sizes wraps before it
is looked at. `kmalloc_room` says when there is a result, and `allocation_size_iff` from
which sizes on the result is too small.
-/

namespace LightningOS.Mem

open ByteMemory BlockList

/-! ## The list of blocks -/

/-- The blocks from `block` on, as their headers describe them. -/
def blocksFrom (m : Memory) : Nat → Nat → List Blk
  | 0, _ => []
  | fuel + 1, block =>
    if block = 0 then []
    else { addr := block, size := blkSize m block, free := blkFree m block } ::
      blocksFrom m fuel (blkNext m block)

/-- The list that starts at `heap_head`. -/
def blocks (h : Heap) : List Blk := blocksFrom h.mem h.heapSize h.heapHead

theorem blocksFrom_eq {m : Memory} : ∀ {bs : List Blk} {prev fuel : Nat},
    Laid m prev bs 0 → (∀ b ∈ bs, 0 < b.addr) → bs.length ≤ fuel →
    blocksFrom m fuel (headAddr bs 0) = bs := by
  intro bs
  induction bs with
  | nil => intro prev fuel _ _ _; cases fuel <;> simp [blocksFrom, headAddr]
  | cons b bs ih =>
    intro prev fuel hl hpos hf
    obtain ⟨fuel, rfl⟩ := Nat.exists_eq_add_one.mpr (Nat.zero_lt_of_lt hf)
    have hb := hpos b List.mem_cons_self
    rw [headAddr, blocksFrom, if_neg (by omega), hl.1.size, hl.1.free, hl.1.next]
    rw [ih hl.2 (fun c hc => hpos c (List.mem_cons_of_mem _ hc)) (by simpa using hf)]

/-- The list in memory is the one that the heap represents. -/
theorem Represents.blocks_eq {h : Heap} {bs : List Blk} (hr : Represents h bs) :
    blocks h = bs := by
  have hpos : ∀ b ∈ bs, 0 < b.addr := fun b hb =>
    Nat.lt_of_lt_of_le (by decide) (hr.addr_bounds hb).1
  rw [blocks, hr.headAddr, blocksFrom_eq hr.laid hpos hr.length_le]

/-! ## memset -/

/-- A byte is set if it is one of the `n` addresses from `ptr` on, and kept otherwise. -/
theorem memset_apply (m : Memory) (ptr : Nat) (v : UInt8) (n x : Nat) :
    memset m ptr v n x = if ∃ i < n, x = wrap32 (ptr + i) then v else m x := by
  induction n with
  | zero => simp [memset]
  | succ n ih =>
    rw [memset]
    by_cases hx : x = wrap32 (ptr + n)
    · rw [hx, store8_same, if_pos ⟨n, Nat.lt_succ_self n, rfl⟩]
    · rw [store8_other hx, ih]
      refine if_congr ?_ rfl rfl
      constructor
      · rintro ⟨i, hi, hxi⟩
        exact ⟨i, Nat.lt_succ_of_lt hi, hxi⟩
      · rintro ⟨i, hi, hxi⟩
        refine ⟨i, Nat.lt_of_le_of_ne (Nat.le_of_lt_succ hi) fun he => hx ?_, hxi⟩
        rw [hxi, he]

theorem memset_inside {m : Memory} {ptr n x : Nat} {v : UInt8} (hn : ptr + n ≤ 4294967296)
    (hx : ptr ≤ x ∧ x < ptr + n) : memset m ptr v n x = v := by
  rw [memset_apply, if_pos]
  refine ⟨x - ptr, by omega, ?_⟩
  rw [wrap32_of_lt (by omega)]
  omega

theorem memset_outside {m : Memory} {ptr n x : Nat} {v : UInt8} (hn : ptr + n ≤ 4294967296)
    (hx : x < ptr ∨ ptr + n ≤ x) : memset m ptr v n x = m x := by
  rw [memset_apply, if_neg]
  rintro ⟨i, hi, hxi⟩
  rw [wrap32_of_lt (by omega)] at hxi
  omega

/-! ## Runs with any size -/

/-- A call of one of the three functions, or a write of one byte into a payload. -/
inductive HeapCall where
  | kmalloc (n : UInt32)
  | kcalloc (count size : UInt32)
  | kfree (p : Nat)
  | store (p x : Nat) (v : UInt8)

/--
What the callers may do. There is no bound on the sizes. A `kcalloc` of a product that
wraps to more than `0xFFFFFFF8` runs over all of memory, the kernel's code included, and
nothing is left to go on from.
-/
def MayCall (s : HeapState) : HeapCall → Prop
  | .kmalloc _ => True
  | .kcalloc count size => wrap32 (count.toNat * size.toNat) ≤ 0xFFFFFFF8
  | .kfree p => p = 0 ∨ p ∈ s.live
  | .store p x _ => p ∈ s.live ∧ InPayload s.heap p x

def callStep (s : HeapState) : HeapCall → Option HeapState
  | .kmalloc n =>
    (kmalloc s.heap n.toNat).map fun r =>
      { heap := r.2, live := if r.1 = 0 then s.live else r.1 :: s.live }
  | .kcalloc count size =>
    (kcalloc s.heap count.toNat size.toNat).map fun r =>
      { heap := r.2, live := if r.1 = 0 then s.live else r.1 :: s.live }
  | .kfree p => (kfree s.heap p).map fun h => { heap := h, live := s.live.erase p }
  | .store _ x v => some { s with heap := { s.heap with mem := store8 s.heap.mem x v } }

/-- The states of all runs from `mem_init` on. -/
inductive Called (mem : Memory) (src : List E820Entry) : HeapState → Prop
  | init {h : Heap} : memInit mem src = some h → Called mem src { heap := h, live := [] }
  | step {s s' : HeapState} {c : HeapCall} : Called mem src s → MayCall s c →
      callStep s c = some s' → Called mem src s'

/-- An allocation of any size finds nothing, or a fresh payload of the rounded size. -/
theorem HeapInv.kmalloc_any {s : HeapState} {bs : List Blk} (hi : HeapInv s bs) (n : Nat) :
    Mem.kmalloc s.heap n = some (0, s.heap) ∨
      ∃ p h' bs', Mem.kmalloc s.heap n = some (p, h') ∧ p ≠ 0 ∧
        HeapInv { heap := h', live := p :: s.live } bs' ∧
        roundUp n ≤ blkSize h'.mem (p - sizeofBlock) := by
  by_cases hn : n = 0
  · exact Or.inl (by rw [Mem.kmalloc, if_pos hn])
  · rcases hi.kmalloc (Nat.pos_of_ne_zero hn) with hk | ⟨p, h', bs', hk, hp, -, hi', hsize, -⟩
    · exact Or.inl hk
    · exact Or.inr ⟨p, h', bs', hk, hp, hi', hsize⟩

/-- Clearing the first bytes of a payload changes no header. -/
theorem HeapInv.clear {s : HeapState} {bs : List Blk} (hi : HeapInv s bs) {p n : Nat}
    (hp : p ∈ s.live) (hn : n ≤ blkSize s.heap.mem (p - sizeofBlock)) :
    HeapInv { s with heap := { s.heap with mem := memset s.heap.mem p 0 n } } bs ∧
      blkSize (memset s.heap.mem p 0 n) (p - sizeofBlock) =
        blkSize s.heap.mem (p - sizeofBlock) ∧
      ∀ x, p ≤ x → x < p + n → memset s.heap.mem p 0 n x = 0 := by
  have hbound := (hi.payload_bounds hp).2.2
  have htop : heapBase + heapMaxSize < 4294967296 := by decide
  have houtside : ∀ x, ¬InPayload s.heap p x → memset s.heap.mem p 0 n x = s.heap.mem x := by
    intro x hx
    refine memset_outside (by omega) ?_
    simp only [InPayload] at hx
    omega
  obtain ⟨hw, hkeep, -⟩ := hi.write hp houtside
  exact ⟨hw, hkeep p hp, fun x hlo hhi => memset_inside (by omega) ⟨hlo, hhi⟩⟩

/-- What `kcalloc` writes stays inside the payload unless the product wraps to the top. -/
theorem HeapInv.kcalloc {s : HeapState} {bs : List Blk} (hi : HeapInv s bs) {count size : Nat}
    (hle : wrap32 (count * size) ≤ 0xFFFFFFF8) :
    Mem.kcalloc s.heap count size = some (0, s.heap) ∨
      ∃ p h' bs', Mem.kcalloc s.heap count size = some (p, h') ∧ p ≠ 0 ∧
        HeapInv { heap := h', live := p :: s.live } bs' ∧
        wrap32 (count * size) ≤ blkSize h'.mem (p - sizeofBlock) ∧
        ∀ x, p ≤ x → x < p + wrap32 (count * size) → h'.mem x = 0 := by
  rcases hi.kmalloc_any (wrap32 (count * size)) with hk | ⟨p, h', bs', hk, hp, hi', hsize⟩
  · exact Or.inl (by rw [Mem.kcalloc, hk]; rfl)
  have hfit := (le_roundUp hle).trans hsize
  obtain ⟨hw, hkeep, hzero⟩ := hi'.clear List.mem_cons_self hfit
  refine Or.inr ⟨p, { h' with mem := memset h'.mem p 0 (wrap32 (count * size)) }, bs', ?_, hp, hw,
    hfit.trans_eq hkeep.symm, hzero⟩
  rw [Mem.kcalloc, hk, Option.map_some, if_pos hp]

/-- **One call keeps the invariant**, whatever its sizes are. -/
theorem callStep_inv {s : HeapState} {bs : List Blk} {c : HeapCall} (hi : HeapInv s bs)
    (hc : MayCall s c) : ∃ s' bs', callStep s c = some s' ∧ HeapInv s' bs' := by
  cases c with
  | kmalloc n =>
    rcases hi.kmalloc_any n.toNat with hk | ⟨p, h', bs', hk, hp, hi', -⟩
    · exact ⟨s, bs, by simp only [callStep, hk, Option.map_some, if_true], hi⟩
    · exact ⟨_, bs', by simp only [callStep, hk, Option.map_some, if_neg hp], hi'⟩
  | kcalloc count size =>
    rcases hi.kcalloc hc with hk | ⟨p, h', bs', hk, hp, hi', -⟩
    · exact ⟨s, bs, by simp only [callStep, hk, Option.map_some, if_true], hi⟩
    · exact ⟨_, bs', by simp only [callStep, hk, Option.map_some, if_neg hp], hi'⟩
  | kfree p =>
    rcases hc with rfl | hp
    · have h0 : (0 : Nat) ∉ s.live := fun h0 => absurd (hi.payload_bounds h0).1 (Nat.lt_irrefl 0)
      refine ⟨s, bs, ?_, hi⟩
      simp only [callStep, kfree, if_true, Option.map_some, List.erase_of_not_mem h0]
    · obtain ⟨h', bs', hk, hi', -⟩ := hi.kfree hp
      exact ⟨_, bs', by simp only [callStep, hk, Option.map_some], hi'⟩
  | store p x v =>
    obtain ⟨s', bs', hs, hi', -⟩ := store_step (v := v) hi hc.1 hc.2
    exact ⟨s', bs', hs, hi'⟩

theorem called_inv {mem : Memory} {src : List E820Entry} {s : HeapState}
    (hr : Called mem src s) : ∃ bs, HeapInv s bs := by
  induction hr with
  | init hm => exact ⟨_, init_inv hm⟩
  | step _ hc hs ih =>
    obtain ⟨bs, hi⟩ := ih
    obtain ⟨s'', bs', hs', hi'⟩ := callStep_inv hi hc
    rw [hs] at hs'
    obtain rfl := Option.some.inj hs'
    exact ⟨bs', hi'⟩

/-! ## Sizes -/

/-- There is a result if and only if a free block has room for the rounded size. -/
theorem HeapInv.kmalloc_room {s : HeapState} {bs : List Blk} (hi : HeapInv s bs) {n : Nat}
    (hn : n ≠ 0) : (∀ p h', Mem.kmalloc s.heap n = some (p, h') → p = 0) ↔
      ∀ b ∈ bs, b.free = true → b.size < roundUp n := by
  have hnone : (∀ b ∈ bs, b.free = true → b.size < roundUp n) ↔
      allocate sizeofBlock splitSlack (roundUp n) bs = none := by
    rw [allocate_eq_none]
    simp only [not_and, Nat.not_le]
  rw [hnone]
  rcases kmalloc_spec hi.represents (Nat.pos_of_ne_zero hn) with ⟨ha, hk⟩ | ⟨a, bs', ha, hk⟩
  · refine iff_of_true (fun p h' hp => ?_) ha
    rw [hk] at hp
    exact (congrArg Prod.fst (Option.some.inj hp)).symm
  · rw [ha, hk]
    refine iff_of_false (fun hall => ?_) (Option.some_ne_none _)
    have := hall _ _ rfl
    simp only [sizeofBlock] at this
    omega

/-- No payload is longer than the heap. -/
theorem HeapInv.size_lt {s : HeapState} {bs : List Blk} (hi : HeapInv s bs) {p : Nat}
    (hp : p ∈ s.live) : blkSize s.heap.mem (p - sizeofBlock) < 0xFFFFFFF8 := by
  have := (hi.payload_bounds hp).2.2
  simp only [heapBase, heapMaxSize] at this
  omega

theorem roundUp_top {n : Nat} (hn : n < 4294967296) (h : 0xFFFFFFF8 < n) : roundUp n = 0 := by
  unfold roundUp wrap32
  omega

/-- The result of `kmalloc` has the bytes that were asked for. -/
def MallocFits (h : Heap) (n : Nat) : Prop :=
  ∀ p h', kmalloc h n = some (p, h') → p ≠ 0 → n ≤ blkSize h'.mem (p - sizeofBlock)

/-- The result of `kcalloc` has the bytes that were asked for, and they are zero. -/
def CallocFits (h : Heap) (count size : Nat) : Prop :=
  ∀ p h', kcalloc h count size = some (p, h') → p ≠ 0 →
    count * size ≤ blkSize h'.mem (p - sizeofBlock) ∧
      ∀ x, p ≤ x → x < p + count * size → h'.mem x = 0

theorem HeapInv.mallocFits_iff {s : HeapState} {bs : List Blk} (hi : HeapInv s bs) {n : Nat}
    (hn : n < 4294967296) :
    MallocFits s.heap n ↔ n ≤ 0xFFFFFFF8 ∨ ∀ b ∈ bs, b.free = false := by
  by_cases hle : n ≤ 0xFFFFFFF8
  · refine iff_of_true (fun p h' hk hp => ?_) (Or.inl hle)
    rcases hi.kmalloc_any n with h0 | ⟨q, h'', -, hq, -, -, hsize⟩
    · rw [h0] at hk
      exact absurd (congrArg Prod.fst (Option.some.inj hk)).symm hp
    · rw [hq] at hk
      obtain ⟨rfl, rfl⟩ := Prod.mk.inj (Option.some.inj hk)
      exact (le_roundUp hle).trans hsize
  · have htop := roundUp_top hn (Nat.not_le.mp hle)
    have hroom := hi.kmalloc_room (n := n) (by omega)
    rw [htop] at hroom
    rw [or_iff_right hle]
    constructor
    · intro hfits b hb
      by_contra hfree
      refine absurd (hroom.mp fun p h' hk => ?_) fun hall =>
        absurd (hall b hb (by simpa using hfree)) (Nat.not_lt_zero _)
      -- a result would be longer than the heap
      by_contra hp
      rcases hi.kmalloc_any n with h0 | ⟨q, h'', bs', hq, -, hi', -⟩
      · rw [h0] at hk
        exact hp (congrArg Prod.fst (Option.some.inj hk)).symm
      · have hfit := hfits p h' hk hp
        rw [hq] at hk
        obtain ⟨rfl, rfl⟩ := Prod.mk.inj (Option.some.inj hk)
        have hlt := hi'.size_lt List.mem_cons_self
        dsimp only at hlt
        omega
    · intro hbusy p h' hk hp
      exact absurd (hroom.mpr (fun b hb hfree => by rw [hbusy b hb] at hfree; simp at hfree)
        p h' hk) hp

/-- The size field of a header is cleared by a `memset` behind it that goes round. -/
theorem blkSize_memset {m : Memory} {p n : Nat} (hp : sizeofBlock ≤ p) (hlt : p < 4294967296)
    (hn : 0xFFFFFFF8 < n) : blkSize (memset m p 0 n) (p - sizeofBlock) = 0 := by
  have hclear : ∀ j < 4, memset m p 0 n (p - sizeofBlock + 4 + j) = 0 := by
    intro j hj
    rw [memset_apply, if_pos]
    refine ⟨4294967296 - 16 + j, by omega, ?_⟩
    simp only [sizeofBlock, wrap32] at *
    omega
  have h0 := hclear 0 (by decide)
  rw [Nat.add_zero] at h0
  rw [blkSize, load32, h0, hclear 1 (by decide), hclear 2 (by decide), hclear 3 (by decide)]
  rfl

theorem HeapInv.callocFits_iff {s : HeapState} {bs : List Blk} (hi : HeapInv s bs)
    {count size : Nat} :
    CallocFits s.heap count size ↔ count * size ≤ 0xFFFFFFF8 ∨ wrap32 (count * size) = 0 ∨
      ∀ b ∈ bs, b.free = true → b.size < roundUp (wrap32 (count * size)) := by
  by_cases hle : count * size ≤ 0xFFFFFFF8
  · -- the product does not wrap
    have hw : wrap32 (count * size) = count * size := wrap32_of_lt (by omega)
    refine iff_of_true (fun p h' hk hp => ?_) (Or.inl hle)
    rcases hi.kcalloc (by rw [hw]; exact hle) with h0 | ⟨q, h'', -, hq, -, -, hsize, hzero⟩
    · rw [h0] at hk
      exact absurd (congrArg Prod.fst (Option.some.inj hk)).symm hp
    · rw [hq] at hk
      obtain ⟨rfl, rfl⟩ := Prod.mk.inj (Option.some.inj hk)
      rw [hw] at hsize hzero
      exact ⟨hsize, hzero⟩
  rw [or_iff_right hle]
  by_cases hz : wrap32 (count * size) = 0
  · refine iff_of_true (fun p h' hk hp => ?_) (Or.inl hz)
    rw [Mem.kcalloc, hz, Mem.kmalloc, if_pos rfl, Option.map_some, if_neg (by simp)] at hk
    exact absurd (congrArg Prod.fst (Option.some.inj hk)).symm hp
  rw [or_iff_right hz, ← hi.kmalloc_room hz]
  constructor
  · intro hfits p h' hk
    by_contra hp
    have hcalloc : Mem.kcalloc s.heap count size =
        some (p, { h' with mem := memset h'.mem p 0 (wrap32 (count * size)) }) := by
      rw [Mem.kcalloc, hk, Option.map_some, if_pos hp]
    have hfit := (hfits _ _ hcalloc hp).1
    rcases hi.kmalloc_any (wrap32 (count * size)) with h0 | ⟨q, h'', bs', hq, -, hi', -⟩
    · rw [h0] at hk
      exact hp (congrArg Prod.fst (Option.some.inj hk)).symm
    rw [hq] at hk
    obtain ⟨rfl, rfl⟩ := Prod.mk.inj (Option.some.inj hk)
    obtain ⟨-, hq20, hbound⟩ := hi'.payload_bounds List.mem_cons_self
    have hbase : heapBase + heapMaxSize = 35651584 := rfl
    dsimp only at hfit hbound
    by_cases htop : wrap32 (count * size) ≤ 0xFFFFFFF8
    · -- the product wrapped, and the payload is no longer than the heap
      have hlt : blkSize (memset h''.mem q 0 (wrap32 (count * size))) (q - sizeofBlock) <
          4294967296 := load32_lt _ _
      have hprod : count * size < 4294967296 := by omega
      rw [wrap32_of_lt hprod] at htop
      exact hle htop
    · rw [blkSize_memset hq20 (by omega) (Nat.not_le.mp htop)] at hfit
      omega
  · intro hnone p h' hk hp
    rw [Mem.kcalloc] at hk
    obtain ⟨⟨q, h''⟩, hq, hk⟩ := Option.map_eq_some_iff.mp hk
    obtain rfl : q = 0 := hnone q h'' hq
    rw [if_neg (by simp)] at hk
    exact absurd (congrArg Prod.fst hk).symm hp

/--
**When an allocation is large enough.** The payload that `kmalloc` returns has the `n`
bytes that were asked for if and only if `n` survives the rounding or nothing is free,
and the one that `kcalloc` returns has all `count * size` bytes, cleared, if and only if
the exact product does or no free block has room for what the product wraps to.
-/
theorem allocation_size_iff {mem : Memory} {src : List E820Entry} {s : HeapState}
    (hr : Called mem src s) (n count size : UInt32) :
    (MallocFits s.heap n.toNat ↔
      n.toNat ≤ 0xFFFFFFF8 ∨ ∀ b ∈ blocks s.heap, b.free = false) ∧
    (CallocFits s.heap count.toNat size.toNat ↔
      count.toNat * size.toNat ≤ 0xFFFFFFF8 ∨ wrap32 (count.toNat * size.toNat) = 0 ∨
        ∀ b ∈ blocks s.heap, b.free = true →
          b.size < roundUp (wrap32 (count.toNat * size.toNat))) := by
  obtain ⟨bs, hi⟩ := called_inv hr
  rw [hi.represents.blocks_eq]
  exact ⟨hi.mallocFits_iff n.toNat_lt, hi.callocFits_iff⟩

/-- On the heap right after `mem_init`. -/
theorem allocation_size_boot : MallocFits bootHeap.heap 100 ∧ CallocFits bootHeap.heap 10 10 := by
  have hinit : Called (fun _ => 0) [] bootHeap := Called.init rfl
  obtain ⟨hmalloc, hcalloc⟩ := allocation_size_iff hinit 100 10 10
  exact ⟨hmalloc.mpr (Or.inl (by decide)), hcalloc.mpr (Or.inl (by decide))⟩

/-- The largest size of all gets a payload of no bytes. -/
theorem kmalloc_too_small : ¬∀ (mem : Memory) (src : List E820Entry) (s : HeapState),
    Called mem src s → ∀ n count size : UInt32,
      MallocFits s.heap n.toNat ∧ CallocFits s.heap count.toNat size.toNat := by
  intro hall
  have hinit : Called (fun _ => 0) [] bootHeap := Called.init rfl
  have hk : kmalloc bootHeap.heap 0xFFFFFFFF = some (heapBase + sizeofBlock, _) := rfl
  have hfit := (hall _ _ _ hinit 0xFFFFFFFF 0 0).1 _ _ hk (by decide)
  revert hfit
  decide

end LightningOS.Mem
