import LightningOS.Properties.HeapLayout

/-!
# The heap over whole runs

`kmalloc_spec` and `kfree_spec` say what one operation does to the list of blocks. From
them `reach_inv` carries the invariant through every run: any order of allocations,
releases and writes into live payloads.

The invariant is what makes a release safe. A live pointer is the payload of a busy
block, so its magic number is in place and `kfree` cannot panic, and since no two free
blocks are neighbours one merge per side leaves none.
-/

namespace LightningOS.Mem

open ByteMemory BlockList

/-! ## kmalloc -/

/-- The walk stops where `allocate` does. -/
theorem kmallocLoop_eq {h : Heap} {size : Nat} : ∀ {post : List Blk} {prev fuel : Nat},
    Laid h.mem prev post 0 → (∀ b ∈ post, 0 < b.addr ∧ b.addr + sizeofBlock < 4294967296) →
    post.length ≤ fuel →
    kmallocLoop h size fuel (headAddr post 0) =
      match allocate sizeofBlock splitSlack size post with
      | none => some (0, h)
      | some (a, _) => some (a + sizeofBlock, claimBlock h a size) := by
  intro post
  induction post with
  | nil => intro prev fuel _ _ _; cases fuel <;> simp [kmallocLoop, headAddr, allocate]
  | cons b bs ih =>
    intro prev fuel hl hlt hf
    obtain ⟨h0, hlt'⟩ := hlt b List.mem_cons_self
    obtain ⟨fuel, rfl⟩ : ∃ f, fuel = f + 1 := by
      cases fuel with
      | zero => simp at hf
      | succ f => exact ⟨f, rfl⟩
    have hb : b.addr ≠ 0 := by omega
    rw [headAddr, kmallocLoop, if_neg hb]
    rw [hl.1.free, hl.1.size, hl.1.next, allocate]
    by_cases hfit : b.free = true ∧ size ≤ b.size
    · rw [if_pos hfit, if_neg (by simp [hfit.1]; exact hfit.2)]
      simp only
      rw [wrap32_of_lt hlt']
    · have hskip : (!b.free || decide (b.size < size)) = true := by
        simp only [Bool.or_eq_true, Bool.not_eq_true', decide_eq_true_eq]
        rcases Bool.eq_false_or_eq_true b.free with hbf | hbf
        · exact Or.inr (Nat.not_le.mp fun hle => hfit ⟨hbf, hle⟩)
        · exact Or.inl hbf
      rw [if_pos hskip, if_neg hfit, ih hl.2 (fun c hc => hlt c (List.mem_cons_of_mem _ hc))
        (by simpa using hf)]
      cases allocate sizeofBlock splitSlack size bs <;> rfl

theorem Represents.addr_bounds {h : Heap} {bs : List Blk} (hr : Represents h bs) {b : Blk}
    (hb : b ∈ bs) : heapBase ≤ b.addr ∧ b.stop sizeofBlock ≤ heapBase + heapMaxSize := by
  have h1 := hr.tiles.mem_bounds hb
  have h2 := hr.size_le
  omega

/-- The address of a byte of a busy payload is in no header, and in no other block. -/
theorem Represents.busy_sep {h : Heap} {bs : List Blk} (hr : Represents h bs) {b c : Blk}
    (hb : b ∈ bs) (hc : c ∈ bs) (hne : c.addr ≠ b.addr) {x : Nat}
    (hx : b.addr + sizeofBlock ≤ x ∧ x < b.stop sizeofBlock) :
    x < c.addr ∨ c.stop sizeofBlock ≤ x := by
  have := hr.tiles.disjoint hb hc (fun he => hne he.symm)
  simp only [sizeofBlock, Blk.stop] at *
  omega

theorem Represents.offHeaders {h : Heap} {bs : List Blk} (hr : Represents h bs) {b : Blk}
    (hb : b ∈ bs) {x : Nat} (hx : b.addr + sizeofBlock ≤ x ∧ x < b.stop sizeofBlock) :
    OffHeaders bs x := by
  intro d hd
  by_cases hdb : d.addr = b.addr
  · simp only [sizeofBlock] at hx
    omega
  · have := hr.busy_sep hb hd hdb hx
    simp only [sizeofBlock, Blk.stop] at this
    omega

/-- **A claimed block turns the list into the allocated one**, and keeps busy payloads. -/
theorem claimBlock_represents {h : Heap} {bs bs' : List Blk} {size a : Nat}
    (hr : Represents h bs) (ha : allocate sizeofBlock splitSlack size bs = some (a, bs')) :
    Represents (claimBlock h a size) bs' ∧
      ∀ b ∈ bs, b.free = false → ∀ x, b.addr + sizeofBlock ≤ x ∧ x < b.stop sizeofBlock →
        (claimBlock h a size).mem x = h.mem x := by
  obtain ⟨pre, b, post, hbs, hbs', rfl, hfree, hfit⟩ := allocate_eq_some ha
  have hbmem : b ∈ bs := by rw [hbs]; simp
  have hhi : heapBase + h.heapSize + splitSlack < 4294967296 := by
    have := hr.size_le
    simp only [heapBase, heapMaxSize, splitSlack] at *
    omega
  have hlaid : Laid (claimBlock h b.addr size).mem 0 bs' 0 := by
    have hl := hr.laid
    have ht := hr.tiles
    rw [hbs] at hl ht
    rw [hbs']
    exact laid_carve hl ht hhi hfit
  have htiles := tiles_allocate ha hr.tiles
  obtain ⟨new, hnew, hnf, -, hbusy, hused⟩ := allocate_busy ha
  have hnewmem : new ∈ bs' := ((hbusy new).mpr (Or.inr rfl)).1
  refine ⟨⟨hr.head, hr.size_ge, hr.size_le, htiles, hlaid, noTwoFree_allocate ha hr.noTwoFree, ?_⟩,
    ?_⟩
  · -- the size that is charged is the one the new header carries
    obtain ⟨_, _, hh⟩ := hlaid.mem hnewmem
    have hsz : blkSize (claimBlock h b.addr size).mem b.addr = new.size := by
      have := hh.size
      rwa [hnew] at this
    have hle : used sizeofBlock bs' ≤ heapBase + h.heapSize - heapBase := htiles.used_le
    show wrap32 (h.heapUsed + (blkSize (claimBlock h b.addr size).mem b.addr + sizeofBlock)) = _
    rw [hsz, hr.used, ← hused, wrap32_of_lt (by omega)]
  · intro c hc hcf x hx
    have hcb : b.addr ≠ c.addr := by
      intro he
      have := hr.tiles.addr_inj (by decide) hbmem hc he
      rw [this, hcf] at hfree
      simp at hfree
    have hl := hr.laid
    rw [hbs] at hl
    have hpost : OffLinks post x := fun d hd =>
      (hr.offHeaders hc hx).offLinks d (by rw [hbs]; simp [hd])
    have hb2 := hr.addr_bounds hbmem
    refine claim_frame _ _ (laid_append.mp hl).2.1 hfit ?_ (hr.busy_sep hc hbmem hcb hx) hpost.head
    simp only [heapBase, heapMaxSize, sizeofBlock, splitSlack] at *
    omega

theorem Represents.headAddr {h : Heap} {bs : List Blk} (hr : Represents h bs) :
    h.heapHead = Mem.headAddr bs 0 := by
  have ht := hr.tiles
  have hge := hr.size_ge
  cases bs with
  | nil => simp only [Tiles, heapMinSize] at *; omega
  | cons b bs => rw [hr.head, Mem.headAddr, ht.1]

theorem Represents.length_le {h : Heap} {bs : List Blk} (hr : Represents h bs) :
    bs.length ≤ h.heapSize := by
  have := hr.tiles.length_le
  simp only [sizeofBlock] at this
  omega

/-- **What `kmalloc` does.** It is first-fit allocation on the list of blocks. -/
theorem kmalloc_spec {h : Heap} {bs : List Blk} {n : Nat} (hr : Represents h bs) (hn : 0 < n) :
    (allocate sizeofBlock splitSlack (roundUp n) bs = none ∧ kmalloc h n = some (0, h)) ∨
      ∃ a bs', allocate sizeofBlock splitSlack (roundUp n) bs = some (a, bs') ∧
        kmalloc h n = some (a + sizeofBlock, claimBlock h a (roundUp n)) := by
  have hbounds : ∀ b ∈ bs, 0 < b.addr ∧ b.addr + sizeofBlock < 4294967296 := by
    intro b hb
    have := hr.addr_bounds hb
    simp only [heapBase, heapMaxSize, sizeofBlock, Blk.stop] at *
    omega
  have heq : kmallocLoop h (roundUp n) h.heapSize (headAddr bs 0) = _ :=
    kmallocLoop_eq hr.laid hbounds hr.length_le
  have hk : kmalloc h n = kmallocLoop h (roundUp n) h.heapSize (headAddr bs 0) := by
    rw [kmalloc, if_neg (by omega), ← hr.headAddr]; rfl
  rw [hk, heq]
  cases ha : allocate sizeofBlock splitSlack (roundUp n) bs with
  | none => exact Or.inl ⟨rfl, rfl⟩
  | some r => exact Or.inr ⟨r.1, r.2, rfl, rfl⟩

/-! ## kfree -/

/-- **Coalescing a freed block releases it in the list.** -/
theorem laid_coalesce {m : Memory} {bs : List Blk} {b : Blk} {lo hi : Nat}
    (hl : Laid m 0 bs 0) (ht : Tiles sizeofBlock lo bs hi) (hb : b ∈ bs) (hlo : 0 < lo)
    (hhi : hi < 4294967296) :
    Laid (coalesce (setFree m b.addr true) b.addr) 0 (release sizeofBlock b.addr bs) 0 ∧
      ∀ x, OffLinks bs x →
        coalesce (setFree m b.addr true) b.addr x = setFree m b.addr true x := by
  obtain ⟨pre, post, rfl⟩ := List.append_of_mem hb
  have hpre : ∀ c ∈ pre, c.addr ≠ b.addr := by
    intro c hc
    have := ht.split.2.2.1 c hc
    simp only [sizeofBlock, Blk.stop] at this
    omega
  -- the freed block keeps its place and its size
  have ht' : Tiles sizeofBlock lo (pre ++ { b with free := true } :: post) hi := by
    obtain ⟨mid, h1, h2⟩ := tiles_append.mp ht
    exact tiles_append.mpr ⟨mid, h1, h2⟩
  have hl' := laid_setFree (f := true) hl ht
  obtain ⟨hl1, hf1⟩ := laid_coalesceNext hl' ht' rfl hhi
  have ht1 : Tiles sizeofBlock lo (pre ++ join sizeofBlock { b with free := true } post) hi := by
    obtain ⟨mid, h1, h2⟩ := tiles_append.mp ht'
    exact tiles_append.mpr ⟨mid, h1, tiles_join h2⟩
  have hoff : ∀ x, OffLinks (pre ++ b :: post) x →
      OffLinks (pre ++ { b with free := true } :: post) x := by
    intro x hx d hd
    rcases List.mem_append.mp hd with hd | hd
    · exact hx d (by simp [hd])
    · rcases List.mem_cons.mp hd with rfl | hd
      · exact hx b (by simp)
      · exact hx d (by simp [hd])
  obtain ⟨b', rest, hj, hb'a, hb'f⟩ := join_head sizeofBlock { b with free := true } post
  rw [release_split hpre]
  unfold coalesce
  rcases List.eq_nil_or_concat pre with rfl | ⟨init, p, rfl⟩
  · -- nothing before the block
    simp only [List.getLast?_nil, List.nil_append] at *
    have hnop : coalescePrev (coalesceNext (setFree m b.addr true) b.addr) b.addr =
        coalesceNext (setFree m b.addr true) b.addr := by
      rw [hj] at hl1
      have := coalescePrev_nop hl1.1 (Or.inl rfl)
      rwa [hb'a] at this
    rw [hnop]
    exact ⟨hl1, fun x hx => hf1 x (hoff x hx)⟩
  · simp only [List.concat_eq_append, List.getLast?_append, List.getLast?_singleton,
      List.dropLast_concat, Option.some_or] at *
    rw [hj, List.append_assoc, List.singleton_append] at hl1 ht1
    have key := laid_coalescePrev hl1 ht1 hb'f hlo hhi
    rw [hb'a] at key
    refine ⟨by rw [hj]; exact key.1, fun x hx => ?_⟩
    -- the merged block has the header of the freed one
    have hoff1 : OffLinks (init ++ p :: b' :: rest) x := by
      intro d hd
      have hmem : d ∈ init ++ [p] ∨ d.addr = b.addr ∨ d ∈ post := by
        rw [List.append_cons] at hd
        rcases List.mem_append.mp hd with hd | hd
        · exact Or.inl hd
        · rcases List.mem_cons.mp hd with rfl | hd
          · exact Or.inr (Or.inl hb'a)
          · refine Or.inr (Or.inr ?_)
            have hrest : rest ⊆ post := by
              intro e he
              cases post with
              | nil => simp [join] at hj; rw [hj.2] at he; simp at he
              | cons c cs =>
                rw [join] at hj
                split at hj
                · rw [← (List.cons.inj hj).2] at he; exact List.mem_cons_of_mem _ he
                · rw [← (List.cons.inj hj).2] at he; exact he
            exact hrest hd
      rcases hmem with hm | hm | hm
      · exact hx d (by simp at hm ⊢; tauto)
      · have := hx b (by simp)
        rwa [← hm] at this
      · exact hx d (by simp [hm])
    exact (key.2 x hoff1).trans (hf1 x (hoff x hx))

/-- **What `kfree` does with the payload of a busy block.** -/
theorem kfree_spec {h : Heap} {bs : List Blk} {b : Blk} (hr : Represents h bs) (hb : b ∈ bs)
    (hf : b.free = false) :
    ∃ h', kfree h (b.addr + sizeofBlock) = some h' ∧
      Represents h' (release sizeofBlock b.addr bs) ∧ h'.heapSize = h.heapSize ∧
      ∀ x, OffLinks bs x → h'.mem x = setFree h.mem b.addr true x := by
  obtain ⟨p, n, hh⟩ := hr.laid.mem hb
  have hbd := hr.addr_bounds hb
  have hsl := hr.size_le
  simp only [heapBase, heapMaxSize, sizeofBlock, Blk.stop] at hbd hsl
  have hblock : wrap32 (b.addr + sizeofBlock + (4294967296 - sizeofBlock)) = b.addr := by
    simp only [wrap32, sizeofBlock]
    omega
  have hptr : b.addr + sizeofBlock ≠ 0 := by simp only [sizeofBlock]; omega
  have hbusy : ¬blkFree h.mem b.addr = true := by rw [hh.free, hf]; simp
  have hcoal := laid_coalesce hr.laid hr.tiles hb (by decide : 0 < heapBase)
    (by simp only [heapBase]; omega)
  have hused := used_release (by decide : 0 < sizeofBlock) hr.tiles hb rfl hf
  have hle : used sizeofBlock bs ≤ heapBase + h.heapSize - heapBase := hr.tiles.used_le
  have hsz : blkSize (setFree h.mem b.addr true) b.addr = b.size := by
    rw [← hh.size]
    exact load32_store8_other (by omega)
  have hres : kfree h (b.addr + sizeofBlock) = some { h with
      mem := coalesce (setFree h.mem b.addr true) b.addr
      heapUsed := wrap32 (h.heapUsed + (4294967296 - (b.size + sizeofBlock))) } := by
    rw [kfree, if_neg hptr]
    simp only [hblock]
    rw [if_neg (by simp [hh.magic]), if_neg hbusy, hsz]
  have hcharge : wrap32 (h.heapUsed + (4294967296 - (b.size + sizeofBlock))) =
      used sizeofBlock (release sizeofBlock b.addr bs) := by
    rw [hr.used]
    simp only [wrap32, sizeofBlock] at *
    omega
  rw [hcharge] at hres
  obtain ⟨hlaid, hframe⟩ := hcoal
  generalize coalesce (setFree h.mem b.addr true) b.addr = m' at hres hlaid hframe
  exact ⟨_, hres, ⟨hr.head, hr.size_ge, hr.size_le, tiles_release hr.tiles, hlaid,
    noTwoFree_release hr.noTwoFree, rfl⟩, rfl, hframe⟩

/-! ## Runs -/

/-- The heap together with the payloads that were handed out and not yet freed. -/
structure HeapState where
  heap : Heap
  live : List Nat

/-- An operation on the heap, or a write of one byte by the owner of a payload. -/
inductive HeapOp where
  | kmalloc (n : Nat)
  | kfree (p : Nat)
  | store (p x : Nat) (v : UInt8)

/-- The byte at `x` belongs to the payload `p`, as long as the header before `p` says. -/
def InPayload (h : Heap) (p x : Nat) : Prop :=
  p ≤ x ∧ x < p + blkSize h.mem (p - sizeofBlock)

/-- What the callers of the heap may do. -/
def Allowed (s : HeapState) : HeapOp → Prop
  | .kmalloc n => 0 < n ∧ n ≤ 0xFFFFFFF8
  | .kfree p => p ∈ s.live
  | .store p x _ => p ∈ s.live ∧ InPayload s.heap p x

/-- One operation. `none` is a panic, or a walk that does not end. -/
def heapStep (s : HeapState) : HeapOp → Option HeapState
  | .kmalloc n =>
    (kmalloc s.heap n).map fun r =>
      { heap := r.2, live := if r.1 = 0 then s.live else r.1 :: s.live }
  | .kfree p => (kfree s.heap p).map fun h => { heap := h, live := s.live.erase p }
  | .store _ x v => some { s with heap := { s.heap with mem := store8 s.heap.mem x v } }

/-- The states of all runs from `mem_init` on the given memory and memory map. -/
inductive Reach (mem : Memory) (src : List E820Entry) : HeapState → Prop
  | init {h : Heap} : memInit mem src = some h → Reach mem src { heap := h, live := [] }
  | step {s s' : HeapState} {op : HeapOp} : Reach mem src s → Allowed s op →
      heapStep s op = some s' → Reach mem src s'

/-- The heap is a list of blocks, and the live pointers are the payloads of the busy ones. -/
structure HeapInv (s : HeapState) (bs : List Blk) : Prop where
  represents : Represents s.heap bs
  nodup : s.live.Nodup
  live : ∀ p, p ∈ s.live ↔ ∃ b ∈ bs, b.free = false ∧ p = b.addr + sizeofBlock

/-- The payload `p` keeps its length and its bytes. -/
def Kept (h h' : Heap) (p : Nat) : Prop :=
  blkSize h'.mem (p - sizeofBlock) = blkSize h.mem (p - sizeofBlock) ∧
    ∀ x, InPayload h p x → h'.mem x = h.mem x

/--
The live payloads that `op` does not free stay live and keep their length, and those that
it does not write either keep their bytes.
-/
def PayloadsKept (s s' : HeapState) (op : HeapOp) : Prop :=
  ∀ p ∈ s.live, op ≠ .kfree p → p ∈ s'.live ∧
    blkSize s'.heap.mem (p - sizeofBlock) = blkSize s.heap.mem (p - sizeofBlock) ∧
    ((∀ x v, op ≠ .store p x v) → ∀ x, InPayload s.heap p x → s'.heap.mem x = s.heap.mem x)

theorem HeapInv.block {s : HeapState} {bs : List Blk} (hi : HeapInv s bs) {p : Nat}
    (hp : p ∈ s.live) : ∃ b ∈ bs, b.free = false ∧ p = b.addr + sizeofBlock ∧
      blkSize s.heap.mem (p - sizeofBlock) = b.size := by
  obtain ⟨b, hb, hf, rfl⟩ := (hi.live p).mp hp
  obtain ⟨_, _, hh⟩ := hi.represents.laid.mem hb
  refine ⟨b, hb, hf, rfl, ?_⟩
  rw [Nat.add_sub_cancel]
  exact hh.size

theorem HeapInv.inPayload {s : HeapState} {bs : List Blk} (hi : HeapInv s bs) {b : Blk}
    (hb : b ∈ bs) {x : Nat} : InPayload s.heap (b.addr + sizeofBlock) x ↔
      b.addr + sizeofBlock ≤ x ∧ x < b.stop sizeofBlock := by
  obtain ⟨_, _, hh⟩ := hi.represents.laid.mem hb
  have hsz : blkSize s.heap.mem b.addr = b.size := hh.size
  simp only [InPayload, Nat.add_sub_cancel, hsz, Blk.stop]

/-- A busy block that is still there keeps its recorded length. -/
theorem Represents.size_eq {h h' : Heap} {bs bs' : List Blk} (hr : Represents h bs)
    (hr' : Represents h' bs') {b : Blk} (hb : b ∈ bs) (hb' : b ∈ bs') :
    blkSize h'.mem b.addr = blkSize h.mem b.addr := by
  obtain ⟨_, _, h1⟩ := hr.laid.mem hb
  obtain ⟨_, _, h2⟩ := hr'.laid.mem hb'
  exact h2.size.trans h1.size.symm

/-- `kmalloc` either changes nothing or hands out a fresh payload of the rounded size. -/
theorem HeapInv.kmalloc {s : HeapState} {bs : List Blk} (hi : HeapInv s bs) {n : Nat}
    (hn : 0 < n) :
    Mem.kmalloc s.heap n = some (0, s.heap) ∨
      ∃ p h' bs', Mem.kmalloc s.heap n = some (p, h') ∧ p ≠ 0 ∧ p ∉ s.live ∧
        HeapInv { heap := h', live := p :: s.live } bs' ∧
        roundUp n ≤ blkSize h'.mem (p - sizeofBlock) ∧ ∀ q ∈ s.live, Kept s.heap h' q := by
  rcases kmalloc_spec hi.represents hn with ⟨-, hk⟩ | ⟨a, bs', ha, hk⟩
  · exact Or.inl hk
  right
  obtain ⟨hrep, hframe⟩ := claimBlock_represents hi.represents ha
  obtain ⟨new, rfl, hnf, hfit, hbusy, -⟩ := allocate_busy ha
  obtain ⟨pre, b, post, hbs, -, hba, hfree, -⟩ := allocate_eq_some ha
  have hbmem : b ∈ bs := by rw [hbs]; simp
  have hnew : new ∈ bs' := ((hbusy new).mpr (Or.inr rfl)).1
  have hfresh : new.addr + sizeofBlock ∉ s.live := by
    intro hmem
    obtain ⟨c, hc, hcf, hca⟩ := (hi.live _).mp hmem
    have : c = b := hi.represents.tiles.addr_inj (by decide) hc hbmem (by omega)
    rw [this, hfree] at hcf
    simp at hcf
  have hne : new.addr + sizeofBlock ≠ 0 := by simp [sizeofBlock]
  generalize claimBlock s.heap new.addr (roundUp n) = h' at hk hrep hframe
  refine ⟨_, h', bs', hk, hne, hfresh,
    ⟨hrep, List.nodup_cons.mpr ⟨hfresh, hi.nodup⟩, fun p => ?_⟩, ?_, fun p hp => ⟨?_, ?_⟩⟩
  · rw [List.mem_cons, hi.live]
    constructor
    · rintro (rfl | ⟨c, hc, hcf, rfl⟩)
      · exact ⟨new, hnew, hnf, rfl⟩
      · exact ⟨c, ((hbusy c).mpr (Or.inl ⟨hc, hcf⟩)).1, hcf, rfl⟩
    · rintro ⟨c, hc, hcf, rfl⟩
      rcases (hbusy c).mp ⟨hc, hcf⟩ with h | rfl
      · exact Or.inr ⟨c, h.1, h.2, rfl⟩
      · exact Or.inl rfl
  · obtain ⟨_, _, hh⟩ := hrep.laid.mem hnew
    rw [Nat.add_sub_cancel, hh.size]
    exact hfit
  · obtain ⟨c, hc, hcf, rfl⟩ := (hi.live p).mp hp
    rw [Nat.add_sub_cancel]
    exact hi.represents.size_eq hrep hc ((hbusy c).mpr (Or.inl ⟨hc, hcf⟩)).1
  · obtain ⟨c, hc, hcf, rfl⟩ := (hi.live p).mp hp
    exact fun x hx => hframe c hc hcf x ((hi.inPayload hc).mp hx)

/-- `kfree` of a live payload succeeds and keeps the others. -/
theorem HeapInv.kfree {s : HeapState} {bs : List Blk} (hi : HeapInv s bs) {p : Nat}
    (hp : p ∈ s.live) :
    ∃ h' bs', Mem.kfree s.heap p = some h' ∧
      HeapInv { heap := h', live := s.live.erase p } bs' ∧
      ∀ q ∈ s.live, q ≠ p → Kept s.heap h' q := by
  obtain ⟨b, hb, hf, rfl⟩ := (hi.live p).mp hp
  obtain ⟨h', hk, hrep, -, hframe⟩ := kfree_spec hi.represents hb hf
  have hbusy : ∀ c, (c ∈ release sizeofBlock b.addr bs ∧ c.free = false) ↔
      (c ∈ bs ∧ c.free = false ∧ c.addr ≠ b.addr) :=
    fun _ => release_busy (by decide) hi.represents.tiles
  refine ⟨h', release sizeofBlock b.addr bs, hk,
    ⟨hrep, hi.nodup.erase _, fun q => ?_⟩, fun q hq hne => ?_⟩
  · rw [hi.nodup.mem_erase_iff, hi.live]
    constructor
    · rintro ⟨hne, c, hc, hcf, rfl⟩
      exact ⟨c, ((hbusy c).mpr ⟨hc, hcf, fun he => hne (by rw [he])⟩).1, hcf, rfl⟩
    · rintro ⟨c, hc, hcf, rfl⟩
      obtain ⟨h1, -, h3⟩ := (hbusy c).mp ⟨hc, hcf⟩
      exact ⟨fun he => h3 (by omega), c, h1, hcf, rfl⟩
  · obtain ⟨c, hc, hcf, rfl⟩ := (hi.live q).mp hq
    have hcb : c.addr ≠ b.addr := fun he => hne (by rw [he])
    have hc' := (hbusy c).mpr ⟨hc, hcf, hcb⟩
    refine ⟨?_, fun x hx => ?_⟩
    · rw [Nat.add_sub_cancel]
      exact hi.represents.size_eq hrep hc hc'.1
    · have hoff := hi.represents.offHeaders hc ((hi.inPayload hc).mp hx)
      have hb8 := hoff b hb
      exact (hframe x hoff.offLinks).trans (store8_other (by omega))

/-- Whatever is written inside a live payload, the heap stays as it is. -/
theorem HeapInv.write {s : HeapState} {bs : List Blk} (hi : HeapInv s bs) {p : Nat}
    (hp : p ∈ s.live) {m' : Memory} (hm : ∀ x, ¬InPayload s.heap p x → m' x = s.heap.mem x) :
    HeapInv { s with heap := { s.heap with mem := m' } } bs ∧
      (∀ q ∈ s.live, blkSize m' (q - sizeofBlock) = blkSize s.heap.mem (q - sizeofBlock)) ∧
      ∀ q ∈ s.live, q ≠ p → ∀ x, InPayload s.heap q x → m' x = s.heap.mem x := by
  obtain ⟨b, hb, hf, rfl⟩ := (hi.live p).mp hp
  have hr := hi.represents
  have hrep : Represents { s.heap with mem := m' } bs := by
    refine ⟨hr.head, hr.size_ge, hr.size_le, hr.tiles, hr.laid.congr fun d hd y h1 h2 =>
      hm y fun hy => ?_, hr.noTwoFree, hr.used⟩
    have := hr.offHeaders hb ((hi.inPayload hb).mp hy) d hd
    omega
  refine ⟨⟨hrep, hi.nodup, hi.live⟩, fun q hq => ?_, fun q hq hne y hy => hm y fun hp => ?_⟩
  · obtain ⟨c, hc, -, rfl⟩ := (hi.live q).mp hq
    rw [Nat.add_sub_cancel]
    exact hr.size_eq hrep hc hc
  · obtain ⟨c, hc, -, rfl⟩ := (hi.live q).mp hq
    have hcb : c.addr ≠ b.addr := fun he => hne (by rw [he])
    have := hr.busy_sep hb hc hcb ((hi.inPayload hb).mp hp)
    have hy' := (hi.inPayload hc).mp hy
    simp only [sizeofBlock, Blk.stop] at *
    omega

theorem kmalloc_step {s : HeapState} {bs : List Blk} (hi : HeapInv s bs) {n : Nat}
    (hn : 0 < n) :
    ∃ s' bs', heapStep s (.kmalloc n) = some s' ∧ HeapInv s' bs' ∧
      PayloadsKept s s' (.kmalloc n) := by
  rcases hi.kmalloc hn with hk | ⟨p, h', bs', hk, hne, -, hi', -, hkept⟩
  · refine ⟨s, bs, ?_, hi, fun p hp _ => ⟨hp, rfl, fun _ _ _ => rfl⟩⟩
    simp only [heapStep, hk, Option.map_some, if_true]
  · refine ⟨_, bs', ?_, hi', fun q hq _ =>
      ⟨List.mem_cons_of_mem _ hq, (hkept q hq).1, fun _ => (hkept q hq).2⟩⟩
    simp only [heapStep, hk, Option.map_some, if_neg hne]

theorem kfree_step {s : HeapState} {bs : List Blk} (hi : HeapInv s bs) {p : Nat}
    (hp : p ∈ s.live) :
    ∃ s' bs', heapStep s (.kfree p) = some s' ∧ HeapInv s' bs' ∧ PayloadsKept s s' (.kfree p) := by
  obtain ⟨h', bs', hk, hi', hkept⟩ := hi.kfree hp
  refine ⟨_, bs', by simp only [heapStep, hk, Option.map_some], hi', fun q hq hne => ?_⟩
  have hqp : q ≠ p := fun he => hne (by rw [he])
  have hkq := hkept q hq hqp
  exact ⟨hi.nodup.mem_erase_iff.mpr ⟨hqp, hq⟩, hkq.1, fun _ => hkq.2⟩

theorem store_step {s : HeapState} {bs : List Blk} (hi : HeapInv s bs) {p x : Nat} {v : UInt8}
    (hp : p ∈ s.live) (hx : InPayload s.heap p x) :
    ∃ s' bs', heapStep s (.store p x v) = some s' ∧ HeapInv s' bs' ∧
      PayloadsKept s s' (.store p x v) := by
  have hm : ∀ y, ¬InPayload s.heap p y → store8 s.heap.mem x v y = s.heap.mem y := by
    intro y hy
    exact store8_other fun he => hy (by rwa [he])
  obtain ⟨hi', hsize, hkept⟩ := hi.write hp hm
  exact ⟨_, bs, rfl, hi', fun q hq _ =>
    ⟨hq, hsize q hq, fun hne => hkept q hq fun he => hne x v (by rw [he])⟩⟩

/-- **One operation keeps the invariant**, does not panic, and keeps the live payloads. -/
theorem heapStep_inv {s : HeapState} {bs : List Blk} {op : HeapOp} (hi : HeapInv s bs)
    (ha : Allowed s op) :
    ∃ s' bs', heapStep s op = some s' ∧ HeapInv s' bs' ∧ PayloadsKept s s' op := by
  cases op with
  | kmalloc n => exact kmalloc_step hi ha.1
  | kfree p => exact kfree_step hi ha
  | store p x v => exact store_step hi ha.1 ha.2

theorem init_inv {mem : Memory} {src : List E820Entry} {h : Heap} (hm : memInit mem src = some h) :
    HeapInv { heap := h, live := [] }
      [{ addr := heapBase, size := h.heapSize - sizeofBlock, free := true }] :=
  ⟨memInit_represents hm, List.nodup_nil, by simp⟩

/-- Every state of every run satisfies the invariant. -/
theorem reach_inv {mem : Memory} {src : List E820Entry} {s : HeapState} (hr : Reach mem src s) :
    ∃ bs, HeapInv s bs := by
  induction hr with
  | init hm => exact ⟨_, init_inv hm⟩
  | step _ ha hs ih =>
    obtain ⟨bs, hi⟩ := ih
    obtain ⟨s'', bs', hs', hi', -⟩ := heapStep_inv hi ha
    rw [hs] at hs'
    obtain rfl := Option.some.inj hs'
    exact ⟨bs', hi'⟩

/-! ## What the invariant says about payloads -/

/-- A live payload lies in the heap. -/
theorem HeapInv.payload_bounds {s : HeapState} {bs : List Blk} (hi : HeapInv s bs) {p : Nat}
    (hp : p ∈ s.live) : 0 < p ∧ sizeofBlock ≤ p ∧
      p + blkSize s.heap.mem (p - sizeofBlock) ≤ heapBase + heapMaxSize := by
  obtain ⟨b, hb, -, rfl, hsz⟩ := hi.block hp
  have := hi.represents.addr_bounds hb
  rw [hsz]
  simp only [sizeofBlock, Blk.stop] at *
  omega

theorem HeapInv.payload_disjoint {s : HeapState} {bs : List Blk} (hi : HeapInv s bs) {p q x : Nat}
    (hp : p ∈ s.live) (hq : q ∈ s.live) (hne : p ≠ q) (hx : InPayload s.heap p x) :
    ¬InPayload s.heap q x := by
  obtain ⟨b, hb, -, rfl⟩ := (hi.live p).mp hp
  obtain ⟨c, hc, -, rfl⟩ := (hi.live q).mp hq
  have hcb : c.addr ≠ b.addr := fun he => hne (by rw [he])
  have := hi.represents.busy_sep hb hc hcb ((hi.inPayload hb).mp hx)
  rw [hi.inPayload hc]
  simp only [sizeofBlock, Blk.stop] at *
  omega

theorem HeapInv.payload_offHeaders {s : HeapState} {bs : List Blk} (hi : HeapInv s bs) {p x : Nat}
    (hp : p ∈ s.live) (hx : InPayload s.heap p x) : OffHeaders bs x := by
  obtain ⟨b, hb, -, rfl⟩ := (hi.live p).mp hp
  exact hi.represents.offHeaders hb ((hi.inPayload hb).mp hx)

/-- When nothing is live the heap is one free block again. -/
theorem HeapInv.eq_singleton {s : HeapState} {bs : List Blk} (hi : HeapInv s bs)
    (hl : s.live = []) :
    bs = [{ addr := heapBase, size := s.heap.heapSize - sizeofBlock, free := true }] ∧
      s.heap.heapUsed = 0 := by
  have hfree : ∀ b ∈ bs, b.free = true := by
    intro b hb
    by_contra hf
    have hmem : b.addr + sizeofBlock ∈ s.live :=
      (hi.live _).mpr ⟨b, hb, by simpa using hf, rfl⟩
    rw [hl] at hmem
    simp at hmem
  have hge := hi.represents.size_ge
  have hone := eq_singleton_of_all_free hi.represents.tiles hi.represents.noTwoFree hfree
    (by simp only [heapMinSize] at hge; omega)
  rw [Nat.add_sub_cancel_left] at hone
  exact ⟨hone, by rw [hi.represents.used, hone]; rfl⟩

/--
**The heap is sound over every run.**

In every reachable state the blocks reached from `heap_head` tile the heap, their links
are inverse to each other, no two free ones are neighbours, `heap_used` is what the busy
ones take, and the live payloads overlap neither each other nor a header. Every allowed
operation succeeds and leaves the other live payloads as they are. A heap with no live
payload is the one free block it started as.
-/
theorem heap_sound {mem : Memory} {src : List E820Entry} {s : HeapState} (hr : Reach mem src s) :
    ∃ bs, HeapInv s bs ∧
      (∀ p ∈ s.live, ∀ q ∈ s.live, p ≠ q → ∀ x, InPayload s.heap p x → ¬InPayload s.heap q x) ∧
      (∀ p ∈ s.live, ∀ x, InPayload s.heap p x → OffHeaders bs x) ∧
      (∀ op, Allowed s op → ∃ s', heapStep s op = some s' ∧ PayloadsKept s s' op) ∧
      (s.live = [] →
        bs = [{ addr := heapBase, size := s.heap.heapSize - sizeofBlock, free := true }] ∧
          s.heap.heapUsed = 0) := by
  obtain ⟨bs, hi⟩ := reach_inv hr
  refine ⟨bs, hi, fun p hp q hq hne x hx => hi.payload_disjoint hp hq hne hx,
    fun p hp x hx => hi.payload_offHeaders hp hx, fun op ha => ?_, hi.eq_singleton⟩
  obtain ⟨s', -, hs, -, hk⟩ := heapStep_inv hi ha
  exact ⟨s', hs, hk⟩

/-- The state after `mem_init` on a machine without a memory map. -/
def bootHeap : HeapState :=
  { heap :=
      { mem := (((((fun _ => 0 : Memory) |> (setMagic · heapBase blockMagic))
          |> (setSize · heapBase (heapMinSize - sizeofBlock)))
          |> (setFree · heapBase true)) |> (setNext · heapBase 0)) |> (setPrev · heapBase 0)
        heapHead := heapBase
        heapSize := heapMinSize
        heapUsed := 0 }
    live := [] }

theorem bootHeap_reach : Reach (fun _ => 0) [] bootHeap := Reach.init rfl

/-- After one `kmalloc(100)` on that machine. -/
theorem heap_sound_kmalloc_100 :
    ∃ s, heapStep bootHeap (.kmalloc 100) = some s ∧ s.live = [heapBase + sizeofBlock] ∧
      ∃ bs, HeapInv s bs ∧
        (∀ p ∈ s.live, ∀ q ∈ s.live, p ≠ q → ∀ x, InPayload s.heap p x → ¬InPayload s.heap q x) ∧
        (∀ p ∈ s.live, ∀ x, InPayload s.heap p x → OffHeaders bs x) ∧
        (∀ op, Allowed s op → ∃ s', heapStep s op = some s' ∧ PayloadsKept s s' op) ∧
        (s.live = [] →
          bs = [{ addr := heapBase, size := s.heap.heapSize - sizeofBlock, free := true }] ∧
            s.heap.heapUsed = 0) := by
  have hstep : heapStep bootHeap (.kmalloc 100) = some _ := rfl
  have hallowed : Allowed bootHeap (.kmalloc 100) := ⟨by decide, by decide⟩
  exact ⟨_, hstep, rfl, heap_sound (bootHeap_reach.step hallowed hstep)⟩

end LightningOS.Mem
