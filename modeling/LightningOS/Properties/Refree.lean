import LightningOS.Properties.Alloc

/-!
# Freeing twice

When a payload is freed its header may be taken into a neighbour, and from then on it is
a few bytes inside a larger free block. `Stale` says what those bytes keep: the magic
number and the flag that says "free". A later release moves the ends of free blocks and
changes sizes and links of headers that are on the list, but it never writes into the
payload of a free block, so a second `kfree` of the same pointer finds the flag set and
returns.
-/

namespace LightningOS.Mem

open ByteMemory BlockList

/-! ## Headers that were freed -/

/-- The bytes at `a` are the header of a free block, on the list or taken in by one that is. -/
structure Stale (m : Memory) (bs : List Blk) (a : Nat) : Prop where
  magic : blkMagic m a = blockMagic
  free : blkFree m a = true
  within : ∃ b ∈ bs, b.free = true ∧ (b.addr = a ∨ b.addr + sizeofBlock ≤ a) ∧
    a + sizeofBlock ≤ b.stop sizeofBlock

/-- A byte of the magic number or of the flag, of a header at `a`. -/
def InMark (a x : Nat) : Prop := (a ≤ x ∧ x < a + 4) ∨ x = a + 8

theorem Stale.congr {m m' : Memory} {bs bs' : List Blk} {a : Nat} (hs : Stale m bs a)
    (hm : ∀ x, InMark a x → m' x = m x)
    (hw : ∀ b ∈ bs, b.free = true → ∃ b' ∈ bs', b'.free = true ∧ b.Within sizeofBlock b') :
    Stale m' bs' a := by
  obtain ⟨b, hb, hf, hstart, hstop⟩ := hs.within
  obtain ⟨b', hb', hf', hbb⟩ := hw b hb hf
  have hs2 := hbb.start
  refine ⟨?_, ?_, b', hb', hf', by omega, hstop.trans hbb.stop⟩
  · rw [← hs.magic]
    exact load32_congr fun x h1 h2 => hm x (Or.inl ⟨h1, h2⟩)
  · rw [← hs.free, blkFree, blkFree, hm _ (Or.inr rfl)]

/-- No other block reaches into a header that was freed. -/
theorem Stale.apart {h : Heap} {bs : List Blk} (hr : Represents h bs) {a : Nat}
    (hs : Stale h.mem bs a) {d : Blk} (hd : d ∈ bs) (hda : d.free = false) :
    a + sizeofBlock ≤ d.addr ∨ d.stop sizeofBlock ≤ a := by
  obtain ⟨b, hb, hf, hstart, hstop⟩ := hs.within
  have hne : b.addr ≠ d.addr := by
    intro he
    have := hr.tiles.addr_inj (by decide) hb hd he
    rw [this, hda] at hf
    simp at hf
  have := hr.tiles.disjoint hb hd hne
  simp only [sizeofBlock, Blk.stop] at *
  omega

/-- The mark of a freed header is not a size or a link of any header on the list. -/
theorem Stale.offLinks {h : Heap} {bs : List Blk} (hr : Represents h bs) {a : Nat}
    (hs : Stale h.mem bs a) {x : Nat} (hx : InMark a x) : OffLinks bs x := by
  obtain ⟨b, hb, hf, hstart, hstop⟩ := hs.within
  intro d hd
  by_cases hdb : d.addr = b.addr
  · simp only [sizeofBlock, InMark, Blk.stop] at *
    omega
  · have := hr.tiles.disjoint hb hd (fun he => hdb he.symm)
    simp only [sizeofBlock, InMark, Blk.stop] at *
    omega

/-- A second `kfree` changes nothing. -/
theorem Stale.kfree {h : Heap} {bs : List Blk} (hr : Represents h bs) {a : Nat}
    (hs : Stale h.mem bs a) : Mem.kfree h (a + sizeofBlock) = some h := by
  obtain ⟨b, hb, -, hstart, hstop⟩ := hs.within
  have hbd := hr.addr_bounds hb
  have hblock : wrap32 (a + sizeofBlock + (4294967296 - sizeofBlock)) = a := by
    simp only [wrap32, sizeofBlock, heapBase, heapMaxSize, Blk.stop] at *
    omega
  have hptr : a + sizeofBlock ≠ 0 := by simp only [sizeofBlock]; omega
  rw [Mem.kfree, if_neg hptr]
  dsimp only
  rw [hblock, if_neg (by simp [hs.magic]), if_pos hs.free]

/-! ## One release -/

/-- The header of the payload that is freed, and every one freed before, keeps its mark. -/
theorem HeapInv.kfree_stale {s : HeapState} {bs : List Blk} (hi : HeapInv s bs) {p : Nat}
    (hp : p ∈ s.live) :
    ∃ h' bs', Mem.kfree s.heap p = some h' ∧
      HeapInv { heap := h', live := s.live.erase p } bs' ∧
      Stale h'.mem bs' (p - sizeofBlock) ∧
      ∀ a, Stale s.heap.mem bs a → Stale h'.mem bs' a := by
  obtain ⟨b, hb, hf, rfl⟩ := (hi.live p).mp hp
  have hr := hi.represents
  obtain ⟨h', hk, hrep, -, hframe⟩ := kfree_spec hr hb hf
  obtain ⟨h'', bs', hk', hi', -⟩ := hi.kfree hp
  rw [hk] at hk'
  obtain rfl := Option.some.inj hk'
  obtain rfl : bs' = release sizeofBlock b.addr bs :=
    hi'.represents.blocks_eq.symm.trans hrep.blocks_eq
  refine ⟨h', _, hk, hi', ?_, fun a hs => hs.congr (fun x hx => ?_) fun d hd hdf =>
    release_within (by decide) hr.tiles hd (Or.inl hdf)⟩
  · -- the flag of the block itself is the one byte of a mark that is written
    obtain ⟨_, _, hh⟩ := hr.laid.mem hb
    have hoff : ∀ x, InMark b.addr x → OffLinks bs x := by
      intro x hx d hd
      by_cases hdb : d.addr = b.addr
      · simp only [InMark] at hx
        omega
      · have := hr.tiles.disjoint hb hd (fun he => hdb he.symm)
        simp only [sizeofBlock, InMark, Blk.stop] at *
        omega
    obtain ⟨d, hd, hdf, hw⟩ := release_within (by decide : 0 < sizeofBlock) hr.tiles hb
      (Or.inr rfl)
    have hstop := hw.stop
    rw [Nat.add_sub_cancel]
    refine ⟨?_, ?_, d, hd, hdf, hw.start, ?_⟩
    · rw [← hh.magic]
      refine load32_congr fun x h1 h2 => ?_
      rw [hframe x (hoff x (Or.inl ⟨h1, h2⟩))]
      exact store8_other (by omega)
    · rw [blkFree, hframe _ (hoff _ (Or.inr rfl)), setFree, store8_same]
      rfl
    · simp only [Blk.stop] at *
      omega
  · rw [hframe x (hs.offLinks hr hx)]
    refine store8_other ?_
    have := hs.apart hr hb hf
    simp only [sizeofBlock, InMark, Blk.stop] at *
    omega

/-- A write into a live payload touches no header that was freed. -/
theorem HeapInv.store_stale {s : HeapState} {bs : List Blk} (hi : HeapInv s bs) {p x : Nat}
    {v : UInt8} (hp : p ∈ s.live) (hx : InPayload s.heap p x) {a : Nat}
    (hs : Stale s.heap.mem bs a) : Stale (store8 s.heap.mem x v) bs a := by
  obtain ⟨b, hb, hf, rfl⟩ := (hi.live p).mp hp
  refine hs.congr (fun y hy => store8_other ?_) fun d hd hdf => ⟨d, hd, hdf, .refl d⟩
  have hin := (hi.inPayload hb).mp hx
  have := hs.apart hi.represents hb hf
  simp only [sizeofBlock, InMark, Blk.stop] at *
  omega

/-! ## Runs of releases -/

/--
A run to some reachable state, and from there on releases only: of live payloads, of
payloads that were released already (`freed` lists them), with writes into live payloads
in between.
-/
inductive Freeing (mem : Memory) (src : List E820Entry) : HeapState → List Nat → Prop
  | start {s : HeapState} : Called mem src s → Freeing mem src s []
  | free {s : HeapState} {freed : List Nat} {p : Nat} {h : Heap} : Freeing mem src s freed →
      p ∈ s.live → kfree s.heap p = some h →
      Freeing mem src { heap := h, live := s.live.erase p } (p :: freed)
  | again {s : HeapState} {freed : List Nat} {p : Nat} {h : Heap} : Freeing mem src s freed →
      p ∈ freed → kfree s.heap p = some h → Freeing mem src { s with heap := h } freed
  | store {s : HeapState} {freed : List Nat} {p x : Nat} {v : UInt8} :
      Freeing mem src s freed → p ∈ s.live → InPayload s.heap p x →
      Freeing mem src { s with heap := { s.heap with mem := store8 s.heap.mem x v } } freed

/-- In every such state the freed payloads lie behind headers that keep their mark. -/
theorem Freeing.inv {mem : Memory} {src : List E820Entry} {s : HeapState} {freed : List Nat}
    (hf : Freeing mem src s freed) :
    ∃ bs, HeapInv s bs ∧ ∀ p ∈ freed, ∃ a, p = a + sizeofBlock ∧ Stale s.heap.mem bs a := by
  induction hf with
  | start hr =>
    obtain ⟨bs, hi⟩ := called_inv hr
    exact ⟨bs, hi, fun p hp => absurd hp List.not_mem_nil⟩
  | @free s freed p h _ hp hk ih =>
    obtain ⟨bs, hi, hold⟩ := ih
    obtain ⟨h', bs', hk', hi', hnew, hkeep⟩ := hi.kfree_stale hp
    rw [hk] at hk'
    obtain rfl := Option.some.inj hk'
    refine ⟨bs', hi', fun q hq => ?_⟩
    rcases List.mem_cons.mp hq with rfl | hq
    · have hle := (hi.payload_bounds hp).2.1
      exact ⟨q - sizeofBlock, by omega, hnew⟩
    · obtain ⟨a, hqa, hs⟩ := hold q hq
      exact ⟨a, hqa, hkeep a hs⟩
  | @again s freed p h _ hp hk ih =>
    obtain ⟨bs, hi, hold⟩ := ih
    obtain ⟨a, rfl, hs⟩ := hold p hp
    rw [hs.kfree hi.represents] at hk
    obtain rfl := Option.some.inj hk
    exact ⟨bs, hi, hold⟩
  | @store s freed p x v _ hp hx ih =>
    obtain ⟨bs, hi, hold⟩ := ih
    obtain ⟨s', bs', hs', hi', -⟩ := store_step (v := v) hi hp hx
    obtain rfl := Option.some.inj hs'
    have hm : ∀ y, ¬InPayload s.heap p y → store8 s.heap.mem x v y = s.heap.mem y :=
      fun y hy => store8_other fun he => hy (by rwa [he])
    refine ⟨bs, (hi.write hp hm).1, fun q hq => ?_⟩
    obtain ⟨a, hqa, hs⟩ := hold q hq
    exact ⟨a, hqa, hi.store_stale hp hx hs⟩

/--
**Freeing twice is harmless.** After any run, and any releases since, `kfree` of a payload
that was released already returns and leaves the heap as it is, and `kfree` of a live one
does not panic.
-/
theorem double_free_harmless {mem : Memory} {src : List E820Entry} {s : HeapState}
    {freed : List Nat} (hf : Freeing mem src s freed) :
    (∀ p ∈ freed, kfree s.heap p = some s.heap) ∧
      ∀ p ∈ s.live, ∃ h, kfree s.heap p = some h := by
  obtain ⟨bs, hi, hstale⟩ := hf.inv
  constructor
  · intro p hp
    obtain ⟨a, rfl, hs⟩ := hstale p hp
    exact hs.kfree hi.represents
  · intro p hp
    obtain ⟨h', -, hk, -⟩ := hi.kfree hp
    exact ⟨h', hk⟩

/-- One payload of 100 bytes on a machine without a memory map, freed once. -/
theorem double_free_once : ∃ s, callStep bootHeap (.kmalloc 100) = some s ∧
    ∃ h, kfree s.heap (heapBase + sizeofBlock) = some h ∧
      kfree h (heapBase + sizeofBlock) = some h := by
  have hinit : Called (fun _ => 0) [] bootHeap := Called.init rfl
  have hs : callStep bootHeap (.kmalloc 100) = some _ := rfl
  have hmay : MayCall bootHeap (.kmalloc 100) := trivial
  have hstart := Freeing.start (hinit.step hmay hs)
  obtain ⟨h, hk⟩ := (double_free_harmless hstart).2 (heapBase + sizeofBlock) List.mem_cons_self
  have hfreed := hstart.free List.mem_cons_self hk
  exact ⟨_, hs, h, hk, (double_free_harmless hfreed).1 _ List.mem_cons_self⟩

end LightningOS.Mem
