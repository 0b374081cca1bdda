import LightningOS.Kernel.Mem

/-!
# The heap in memory represents a list of blocks

`Represents h bs` says that the headers in memory are the blocks `bs`, in order. Under
it `kmalloc` is `BlockList.allocate` and `kfree` is `BlockList.release`, and neither
writes a byte of a busy payload. The block list carries the argument; this file only
has to follow the stores.
-/

namespace LightningOS.Mem

open ByteMemory BlockList

/-! ## What the headers in memory say

`Laid` relates a list of blocks to the headers in memory. The links are given by the
neighbours in the list, so there is nothing else to say about `next` and `prev`.
-/

/-- The address a list of blocks starts at, or `nxt` when it is empty. -/
def headAddr : List Blk → Nat → Nat
  | [], nxt => nxt
  | b :: _, _ => b.addr

/-- The address of the last block of a list, or `prev` when it is empty. -/
def lastAddr : Nat → List Blk → Nat
  | prev, [] => prev
  | _, b :: bs => lastAddr b.addr bs

/-- The header at `b.addr` describes `b` and links to `prev` and `nxt`. -/
structure Hdr (m : Memory) (b : Blk) (prev nxt : Nat) : Prop where
  magic : blkMagic m b.addr = blockMagic
  size : blkSize m b.addr = b.size
  free : blkFree m b.addr = b.free
  next : blkNext m b.addr = nxt
  prev : blkPrev m b.addr = prev

/-- The blocks of `bs` are laid out in memory, linked to each other in this order. -/
def Laid (m : Memory) : Nat → List Blk → Nat → Prop
  | _, [], _ => True
  | prev, b :: bs, nxt => Hdr m b prev (headAddr bs nxt) ∧ Laid m b.addr bs nxt

@[simp] theorem headAddr_append (xs ys : List Blk) (nxt : Nat) :
    headAddr (xs ++ ys) nxt = headAddr xs (headAddr ys nxt) := by
  cases xs <;> rfl

@[simp] theorem lastAddr_append (prev : Nat) (xs ys : List Blk) :
    lastAddr prev (xs ++ ys) = lastAddr (lastAddr prev xs) ys := by
  induction xs generalizing prev with
  | nil => rfl
  | cons b bs ih => exact ih b.addr

theorem laid_append {m : Memory} {xs ys : List Blk} {prev nxt : Nat} :
    Laid m prev (xs ++ ys) nxt ↔
      Laid m prev xs (headAddr ys nxt) ∧ Laid m (lastAddr prev xs) ys nxt := by
  induction xs generalizing prev with
  | nil => simp [Laid, lastAddr]
  | cons b bs ih => simp only [List.cons_append, Laid, ih, headAddr_append, lastAddr, and_assoc]

/-- A header only depends on its own twenty bytes. -/
theorem Hdr.congr {m m' : Memory} {b : Blk} {prev nxt : Nat} (h : Hdr m b prev nxt)
    (hm : ∀ x, b.addr ≤ x → x < b.addr + 20 → m' x = m x) : Hdr m' b prev nxt := by
  have hw : ∀ o, o + 4 ≤ 20 → load32 m' (b.addr + o) = load32 m (b.addr + o) :=
    fun o ho => load32_congr fun x h1 h2 => hm x (by omega) (by omega)
  constructor
  · exact (hw 0 (by omega)).trans h.magic
  · exact (hw 4 (by omega)).trans h.size
  · rw [← h.free]; unfold blkFree; rw [hm _ (by omega) (by omega)]
  · exact (hw 12 (by omega)).trans h.next
  · exact (hw 16 (by omega)).trans h.prev

theorem Laid.congr {m m' : Memory} {bs : List Blk} {prev nxt : Nat} (h : Laid m prev bs nxt)
    (hm : ∀ b ∈ bs, ∀ x, b.addr ≤ x → x < b.addr + 20 → m' x = m x) : Laid m' prev bs nxt := by
  induction bs generalizing prev with
  | nil => trivial
  | cons b bs ih =>
    exact ⟨h.1.congr (hm b List.mem_cons_self),
      ih h.2 fun c hc => hm c (List.mem_cons_of_mem _ hc)⟩

theorem Hdr.intro {m : Memory} {a size prev nxt : Nat} {free : Bool}
    (h1 : load32 m a = blockMagic) (h2 : load32 m (a + 4) = size) (h3 : (m (a + 8) != 0) = free)
    (h4 : load32 m (a + 12) = nxt) (h5 : load32 m (a + 16) = prev) :
    Hdr m { addr := a, size := size, free := free } prev nxt :=
  ⟨h1, h2, h3, h4, h5⟩

/-- A list stays laid out when only the back link of its first block changes. -/
theorem Laid.relink {m m' : Memory} {bs : List Blk} {prev prev' nxt : Nat}
    (h : Laid m prev bs nxt)
    (hm : ∀ b ∈ bs, ∀ x, b.addr ≤ x → x < b.addr + 20 →
      x < headAddr bs 0 + 16 ∨ headAddr bs 0 + 20 ≤ x → m' x = m x)
    (hp : bs ≠ [] → load32 m' (headAddr bs 0 + 16) = prev')
    (hsep : ∀ c cs, bs = c :: cs → ∀ d ∈ cs, c.addr + 20 ≤ d.addr) : Laid m' prev' bs nxt := by
  cases bs with
  | nil => trivial
  | cons c cs =>
    obtain ⟨hc, hcs⟩ := h
    have hw : ∀ o, o + 4 ≤ 16 → load32 m' (c.addr + o) = load32 m (c.addr + o) := fun o ho =>
      load32_congr fun x h1 h2 => hm c List.mem_cons_self x (by omega) (by omega)
        (Or.inl (by simp only [headAddr]; omega))
    refine ⟨⟨(hw 0 (by omega)).trans hc.magic, (hw 4 (by omega)).trans hc.size, ?_,
      (hw 12 (by omega)).trans hc.next, hp (by simp)⟩,
      hcs.congr fun d hd x h1 h2 => hm d (List.mem_cons_of_mem _ hd) x h1 h2 (Or.inr ?_)⟩
    · rw [← hc.free, blkFree, blkFree, hm c List.mem_cons_self _ (by omega) (by omega)
        (Or.inl (by simp only [headAddr]; omega))]
    · have := hsep c cs rfl d hd
      simp only [headAddr]
      omega

/-! ## Cutting a block in two -/

/-- The stores of `splitBlock`, with the reads in between evaluated. -/
theorem splitBlock_eq {m : Memory} {b : Blk} {prev nxt size r : Nat} (hb : Hdr m b prev nxt)
    (hr : r = b.addr + sizeofBlock + size) (hfit : size + sizeofBlock + splitSlack ≤ b.size)
    (hlt : b.stop sizeofBlock < 4294967296) :
    splitBlock m b.addr size =
      let m := setMagic m r blockMagic
      let m := setSize m r (b.size - size - sizeofBlock)
      let m := setFree m r true
      let m := setNext m r nxt
      let m := setPrev m r b.addr
      let m := if nxt ≠ 0 then setPrev m nxt r else m
      let m := setNext m b.addr r
      setSize m b.addr size := by
  have h1 := hb.size
  have h2 := hb.next
  simp only [sizeofBlock, splitSlack, Blk.stop] at *
  unfold splitBlock
  rw [h1, if_neg (by unfold wrap32 sizeofBlock splitSlack; omega)]
  have hw : wrap32 (b.addr + 20 + size) = r := by unfold wrap32; omega
  have hrest : wrap32 (b.size + (4294967296 - size) + (4294967296 - 20)) = b.size - size - 20 := by
    unfold wrap32; omega
  simp only [sizeofBlock, hw]
  unfold blkSize blkNext at *
  unfold setMagic setSize setFree setNext setPrev
  simp (disch := omega) only [load32_store32_other, load32_store8_other, h1, h2, hrest]

/-- The flag of one block changes, everything else stays. -/
theorem laid_setFree {m : Memory} {pre post : List Blk} {b : Blk} {lo hi nxt : Nat} {f : Bool}
    (hl : Laid m 0 (pre ++ b :: post) nxt) (ht : Tiles sizeofBlock lo (pre ++ b :: post) hi) :
    Laid (setFree m b.addr f) 0 (pre ++ { b with free := f } :: post) nxt := by
  obtain ⟨-, -, hpre, hpost⟩ := ht.split
  simp only [sizeofBlock, Blk.stop] at hpre hpost
  obtain ⟨h1, h2, h3⟩ := laid_append.mp hl
  refine laid_append.mpr ⟨h1.congr fun d hd x hx1 hx2 => ?_, ?_,
    h3.congr fun d hd x hx1 hx2 => ?_⟩
  · have := hpre d hd
    exact store8_other (by omega)
  · have e1 := h2.magic; have e2 := h2.size; have e3 := h2.next; have e4 := h2.prev
    unfold blkMagic blkSize blkNext blkPrev at *
    refine Hdr.intro ?_ ?_ ?_ ?_ ?_ <;> unfold setFree
    · rw [load32_store8_other (by omega), e1]
    · rw [load32_store8_other (by omega), e2]
    · rw [store8_same]; cases f <;> rfl
    · rw [load32_store8_other (by omega), e3]
    · rw [load32_store8_other (by omega), e4]
  · have := hpost d hd
    exact store8_other (by omega)

/-- Claiming a block writes its header, the new header inside it, and one link behind it. -/
theorem claim_frame {m : Memory} {b : Blk} {prev nxt : Nat} (size x : Nat)
    (hb : Hdr m b prev nxt) (hfit : size ≤ b.size)
    (hlt : b.stop sizeofBlock + splitSlack < 4294967296)
    (hx : x < b.addr ∨ b.stop sizeofBlock ≤ x)
    (hn : nxt = 0 ∨ x < nxt + 16 ∨ nxt + 20 ≤ x) :
    setFree (splitBlock m b.addr size) b.addr false x = m x := by
  simp only [sizeofBlock, splitSlack, Blk.stop] at hlt hx
  by_cases hs : b.size < size + sizeofBlock + splitSlack
  · have h1 := hb.size
    unfold splitBlock setFree
    simp only [sizeofBlock, splitSlack] at hs
    rw [h1, if_pos (by unfold wrap32 sizeofBlock splitSlack; omega), store8_other (by omega)]
  · simp only [sizeofBlock, splitSlack] at hs
    rw [splitBlock_eq hb rfl (by simp only [sizeofBlock, splitSlack]; omega)
      (by simp only [Blk.stop, sizeofBlock]; omega)]
    unfold setFree setSize setNext setPrev setMagic
    simp only [sizeofBlock]
    split
    · have hn' := hn.resolve_left (by assumption)
      simp (disch := omega) only [store8_other, store32_other]
    · simp (disch := omega) only [store8_other, store32_other]

/-- The headers that claiming leaves behind when it cuts the block in two. -/
theorem claim_headers {m : Memory} {b : Blk} {prev nxt : Nat} (size : Nat) (hb : Hdr m b prev nxt)
    (hfit : size + sizeofBlock + splitSlack ≤ b.size) (hlt : b.stop sizeofBlock < 4294967296)
    (hn : nxt = 0 ∨ b.stop sizeofBlock ≤ nxt) :
    Hdr (setFree (splitBlock m b.addr size) b.addr false) { b with size := size, free := false }
        prev (b.addr + sizeofBlock + size) ∧
      Hdr (setFree (splitBlock m b.addr size) b.addr false)
        { addr := b.addr + sizeofBlock + size, size := b.size - size - sizeofBlock, free := true }
        b.addr nxt ∧
      (nxt ≠ 0 → load32 (setFree (splitBlock m b.addr size) b.addr false) (nxt + 16) =
        b.addr + sizeofBlock + size) := by
  have hnl : nxt < 4294967296 := by rw [← hb.next]; exact load32_lt _ _
  have e1 : load32 m b.addr = blockMagic := hb.magic
  have e2 : load32 m (b.addr + 16) = prev := hb.prev
  have em : wrap32 blockMagic = blockMagic := rfl
  have ef : ((1 : UInt8) != 0) = true := rfl
  rw [splitBlock_eq hb rfl hfit hlt]
  simp only [sizeofBlock, splitSlack, Blk.stop] at *
  generalize hr : b.addr + 20 + size = r
  unfold setFree setSize setNext setPrev setMagic
  by_cases h0 : nxt = 0
  · simp only [h0, ne_eq, not_true_eq_false, if_false]
    refine ⟨Hdr.intro ?_ ?_ ?_ ?_ ?_, Hdr.intro ?_ ?_ ?_ ?_ ?_, fun h => h.elim⟩ <;>
      simp (disch := omega) only [load32_store32_other, load32_store32_same, store32_other,
        load32_store8_other, store8_other, store8_same, wrap32_of_lt, e1, e2, em, ef,
        Bool.false_eq_true, if_false, if_true, bne_self_eq_false]
  · simp only [h0, ne_eq, not_false_eq_true, if_true]
    refine ⟨Hdr.intro ?_ ?_ ?_ ?_ ?_, Hdr.intro ?_ ?_ ?_ ?_ ?_, fun _ => ?_⟩ <;>
      simp (disch := omega) only [load32_store32_other, load32_store32_same, store32_other,
        load32_store8_other, store8_other, store8_same, wrap32_of_lt, e1, e2, em, ef,
        Bool.false_eq_true, if_false, bne_self_eq_false]

/-- **Claiming a block carves it.** -/
theorem laid_carve {m : Memory} {pre post : List Blk} {b : Blk} {lo hi size : Nat}
    (hl : Laid m 0 (pre ++ b :: post) 0) (ht : Tiles sizeofBlock lo (pre ++ b :: post) hi)
    (hhi : hi + splitSlack < 4294967296) (hfit : size ≤ b.size) :
    Laid (setFree (splitBlock m b.addr size) b.addr false) 0
      (pre ++ carve sizeofBlock splitSlack size b ++ post) 0 := by
  obtain ⟨hlo, hstop, hpre, hpost⟩ := ht.split
  obtain ⟨h1, h2, h3⟩ := laid_append.mp hl
  simp only [sizeofBlock, splitSlack, Blk.stop] at hstop hpre hpost hhi
  by_cases hs : b.size < size + sizeofBlock + splitSlack
  · have hsplit : splitBlock m b.addr size = m := by
      unfold splitBlock
      simp only [sizeofBlock, splitSlack] at hs
      rw [h2.size, if_pos (by unfold wrap32 sizeofBlock splitSlack; omega)]
    rw [hsplit, carve, if_pos hs, List.append_assoc, List.singleton_append]
    exact laid_setFree hl ht
  · rw [carve, if_neg hs]
    simp only [sizeofBlock, splitSlack] at hs
    -- the first block behind `b` starts where `b` ends
    have hnext : ∀ c cs, post = c :: cs → c.addr = b.addr + 20 + b.size ∧ c.addr ≠ 0 := by
      rintro c cs rfl
      obtain ⟨mid, -, -, hc, -⟩ := tiles_append.mp ht
      simp only [sizeofBlock, Blk.stop] at hc
      omega
    have hframe := fun x => claim_frame size x h2 hfit
      (by simp only [Blk.stop, sizeofBlock, splitSlack]; omega)
    have hsplit := claim_headers size h2
      (by simp only [sizeofBlock, splitSlack]; omega) (by simp only [Blk.stop, sizeofBlock]; omega)
      (by
        cases post with
        | nil => exact Or.inl rfl
        | cons c cs =>
          have := (hnext c cs rfl).1
          exact Or.inr (by simp only [Blk.stop, sizeofBlock, headAddr]; omega))
    simp only [sizeofBlock, Blk.stop] at hframe hsplit
    rw [List.append_assoc]
    refine laid_append.mpr ⟨h1.congr fun d hd x hx1 hx2 => ?_, ?_, ?_, ?_⟩
    · have hd' := hpre d hd
      refine hframe x (by omega) ?_
      cases post with
      | nil => exact Or.inl rfl
      | cons c cs => have := hnext c cs rfl; exact Or.inr (Or.inl (by simp only [headAddr]; omega))
    · exact hsplit.1
    · exact hsplit.2.1
    · refine h3.relink (fun d hd x hx1 hx2 hx => ?_) (fun hne => ?_) ?_
      · have hd' := hpost d hd
        refine hframe x (by omega) ?_
        cases post with
        | nil => exact Or.inl rfl
        | cons c cs => exact Or.inr hx
      · cases post with
        | nil => exact absurd rfl hne
        | cons c cs => exact hsplit.2.2 (hnext c cs rfl).2
      · rintro c cs rfl d hd
        obtain ⟨-, -, -, hcs⟩ := (List.append_cons pre b (c :: cs) ▸ ht).split
        have := hcs d hd
        simp only [sizeofBlock, Blk.stop] at this
        omega

/-! ## Merging two neighbours -/

/-- What either half of `coalesce` does to a block and the free block behind it. -/
def absorb (m : Memory) (x y yNext : Nat) : Memory :=
  let m := setSize m x (blkSize m x + (blkSize m y + sizeofBlock))
  let m := setNext m x yNext
  if yNext ≠ 0 then setPrev m yNext x else m

theorem absorb_frame {m : Memory} {x y yNext a : Nat}
    (hx : a < x + 4 ∨ (x + 8 ≤ a ∧ a < x + 12) ∨ x + 16 ≤ a)
    (hn : yNext = 0 ∨ a < yNext + 16 ∨ yNext + 20 ≤ a) : absorb m x y yNext a = m a := by
  unfold absorb setSize setNext setPrev
  split
  · have hn' := hn.resolve_left (by assumption)
    simp (disch := omega) only [store32_other]
  · simp (disch := omega) only [store32_other]

/-- **Merging two neighbours in memory merges them in the list.** -/
theorem laid_absorb {m : Memory} {pre post : List Blk} {x y : Blk} {lo hi : Nat}
    (hl : Laid m 0 (pre ++ x :: y :: post) 0)
    (ht : Tiles sizeofBlock lo (pre ++ x :: y :: post) hi) (hhi : hi < 4294967296) :
    Laid (absorb m x.addr y.addr (headAddr post 0)) 0
      (pre ++ { x with size := x.size + (y.size + sizeofBlock) } :: post) 0 := by
  obtain ⟨-, -, hpre, -⟩ := ht.split
  obtain ⟨-, hstop, hxy, hpost⟩ := (List.append_cons pre x (y :: post) ▸ ht).split
  have hx := hxy x (by simp)
  simp only [sizeofBlock, Blk.stop] at hpre hpost hx hstop
  obtain ⟨h1, hdx, hdy, h3⟩ := laid_append.mp hl
  have hhead : post ≠ [] → y.addr + 20 + y.size ≤ headAddr post 0 := by
    intro hne
    cases post with
    | nil => exact absurd rfl hne
    | cons c cs => exact hpost c List.mem_cons_self
  have hzero : headAddr post 0 = 0 ∨ post ≠ [] := by
    cases post with
    | nil => exact Or.inl rfl
    | cons c cs => exact Or.inr (by simp)
  have hframe : ∀ a, a < x.addr ∨ x.addr + 20 ≤ a →
      a < headAddr post 0 + 16 ∨ headAddr post 0 + 20 ≤ a →
      absorb m x.addr y.addr (headAddr post 0) a = m a :=
    fun a h1 h2 => absorb_frame (by omega) (Or.inr h2)
  have hnl : headAddr post 0 < 4294967296 := by rw [← hdy.next]; exact load32_lt _ _
  refine laid_append.mpr ⟨h1.congr fun d hd a ha1 ha2 => ?_, ?_, ?_⟩
  · have hd' := hpre d hd
    exact absorb_frame (by omega) (by
      rcases hzero with h0 | h0
      · exact Or.inl h0
      · exact Or.inr (Or.inl (by have := hhead h0; omega)))
  · have e1 : load32 m x.addr = blockMagic := hdx.magic
    have e2 : load32 m (x.addr + 4) = x.size := hdx.size
    have e3 : (m (x.addr + 8) != 0) = x.free := hdx.free
    have e4 : load32 m (x.addr + 16) = lastAddr 0 pre := hdx.prev
    have e5 : load32 m (y.addr + 4) = y.size := hdy.size
    simp only [sizeofBlock]
    unfold absorb setSize setNext setPrev blkSize
    dsimp only
    rcases hzero with h0 | h0
    · rw [if_neg (by simpa using h0)]
      refine Hdr.intro ?_ ?_ ?_ ?_ ?_ <;>
        simp (disch := omega) only [load32_store32_other, load32_store32_same, store32_other,
          wrap32_of_lt, e1, e2, e3, e4, e5, sizeofBlock]
    · have := hhead h0
      rw [if_pos (by omega)]
      refine Hdr.intro ?_ ?_ ?_ ?_ ?_ <;>
        simp (disch := omega) only [load32_store32_other, load32_store32_same, store32_other,
          wrap32_of_lt, e1, e2, e3, e4, e5, sizeofBlock]
  · refine h3.relink (fun d hd a ha1 ha2 ha => ?_) (fun hne => ?_) ?_
    · have hd' := hpost d hd
      exact hframe a (by omega) ha
    · have := hhead hne
      unfold absorb setSize setNext setPrev
      dsimp only
      rw [if_pos (by omega), load32_store32_same, wrap32_of_lt (by omega)]
    · rintro c cs rfl d hd
      have hsplit := List.append_cons (pre ++ [x]) y (c :: cs) ▸
        List.append_cons pre x (y :: c :: cs) ▸ ht
      have := hsplit.split.2.2.2 d hd
      simp only [sizeofBlock, Blk.stop] at this
      omega

/-- The block that a header describes is in the list. -/
theorem Laid.mem {m : Memory} {bs : List Blk} {b : Blk} {prev nxt : Nat}
    (h : Laid m prev bs nxt) (hb : b ∈ bs) : ∃ p n, Hdr m b p n := by
  obtain ⟨xs, ys, rfl⟩ := List.append_of_mem hb
  exact ⟨_, _, (laid_append.mp h).2.1⟩

/-- An address outside the headers of all the blocks. -/
def OffHeaders (bs : List Blk) (a : Nat) : Prop :=
  ∀ d ∈ bs, a < d.addr ∨ d.addr + 20 ≤ a

/-- An address outside the sizes and the links in the headers of all the blocks. -/
def OffLinks (bs : List Blk) (a : Nat) : Prop :=
  ∀ d ∈ bs, a < d.addr + 4 ∨ (d.addr + 8 ≤ a ∧ a < d.addr + 12) ∨ d.addr + 20 ≤ a

theorem OffHeaders.offLinks {bs : List Blk} {a : Nat} (h : OffHeaders bs a) : OffLinks bs a := by
  intro d hd
  have := h d hd
  omega

theorem OffLinks.head {bs : List Blk} {a : Nat} (h : OffLinks bs a) :
    headAddr bs 0 = 0 ∨ a < headAddr bs 0 + 16 ∨ headAddr bs 0 + 20 ≤ a := by
  cases bs with
  | nil => exact Or.inl rfl
  | cons c cs =>
    have := h c List.mem_cons_self
    simp only [headAddr]
    omega

/-- The first half of `coalesce`, when there is a free block behind. -/
theorem coalesceNext_eq {m : Memory} {post : List Blk} {b c : Blk} {prev : Nat}
    (hl : Laid m prev (b :: c :: post) 0) (hsep : b.addr + 20 ≤ c.addr) (hc : c.free = true) :
    coalesceNext m b.addr = absorb m b.addr c.addr (headAddr post 0) := by
  have hn : blkNext m b.addr = c.addr := hl.1.next
  have hcn : blkNext m c.addr = headAddr post 0 := hl.2.1.next
  have hnl : headAddr post 0 < 4294967296 := by rw [← hcn]; exact load32_lt _ _
  have hcond : c.addr ≠ 0 ∧ blkFree m c.addr = true := ⟨by omega, by rw [hl.2.1.free]; exact hc⟩
  unfold coalesceNext absorb
  rw [hn, if_pos hcond]
  unfold setSize setNext blkNext at *
  simp (disch := omega) only [load32_store32_other, load32_store32_same, wrap32_of_lt, hn, hcn]

/-- The first half of `coalesce`, when there is none. -/
theorem coalesceNext_nop {m : Memory} {post : List Blk} {b : Blk} {prev : Nat}
    (hl : Laid m prev (b :: post) 0) (hc : ∀ c ∈ post.head?, c.free = false) :
    coalesceNext m b.addr = m := by
  unfold coalesceNext
  refine if_neg fun h => ?_
  have hn : blkNext m b.addr = headAddr post 0 := hl.1.next
  rw [hn] at h
  cases post with
  | nil => exact h.1 rfl
  | cons c cs =>
    have hf : blkFree m c.addr = c.free := hl.2.1.free
    rw [headAddr, hf, hc c rfl] at h
    exact absurd h.2 (by simp)

/-- The second half of `coalesce`, when there is a free block before. -/
theorem coalescePrev_eq {m : Memory} {post : List Blk} {p b : Blk} {prev : Nat}
    (hl : Laid m prev (p :: b :: post) 0) (hsep : p.addr + 20 ≤ b.addr) (hp0 : p.addr ≠ 0)
    (hp : p.free = true) :
    coalescePrev m b.addr = absorb m p.addr b.addr (headAddr post 0) := by
  have hprev : blkPrev m b.addr = p.addr := hl.2.1.prev
  have hn : blkNext m b.addr = headAddr post 0 := hl.2.1.next
  have hcond : p.addr ≠ 0 ∧ blkFree m p.addr = true := ⟨hp0, by rw [hl.1.free]; exact hp⟩
  unfold coalescePrev absorb
  rw [hprev, if_pos hcond]
  unfold setSize setNext blkNext blkPrev at *
  simp (disch := omega) only [load32_store32_other, hn, hprev]

/-- The second half of `coalesce`, when there is none. -/
theorem coalescePrev_nop {m : Memory} {b : Blk} {prev nxt : Nat} (hb : Hdr m b prev nxt)
    (hp : prev = 0 ∨ blkFree m prev = false) : coalescePrev m b.addr = m := by
  unfold coalescePrev
  refine if_neg fun h => ?_
  rw [hb.prev] at h
  rcases hp with h0 | h0
  · exact h.1 h0
  · rw [h0] at h
    exact absurd h.2 (by simp)

/-- **The first half of `coalesce` joins the block with the blocks behind it.** -/
theorem laid_coalesceNext {m : Memory} {pre post : List Blk} {b : Blk} {lo hi : Nat}
    (hl : Laid m 0 (pre ++ b :: post) 0) (ht : Tiles sizeofBlock lo (pre ++ b :: post) hi)
    (hb : b.free = true) (hhi : hi < 4294967296) :
    Laid (coalesceNext m b.addr) 0 (pre ++ join sizeofBlock b post) 0 ∧
      ∀ a, OffLinks (pre ++ b :: post) a → coalesceNext m b.addr a = m a := by
  have hlb := (laid_append.mp hl).2
  have hsep := ht.split.2.2.2
  cases post with
  | nil => rw [coalesceNext_nop hlb (by simp)]; exact ⟨hl, fun _ _ => rfl⟩
  | cons c cs =>
    rw [join]
    by_cases hcf : c.free = true
    · have hboth : b.free = true ∧ c.free = true := ⟨hb, hcf⟩
      have hbc := hsep c List.mem_cons_self
      simp only [sizeofBlock, Blk.stop] at hbc
      rw [if_pos hboth, coalesceNext_eq hlb (by omega) hcf]
      refine ⟨laid_absorb hl ht hhi, fun a ha => ?_⟩
      have hab := ha b (by simp)
      exact absorb_frame (by omega) (OffLinks.head fun d hd => ha d (by simp [hd]))
    · rw [if_neg fun h => hcf h.2, coalesceNext_nop hlb (by simpa using hcf)]
      exact ⟨hl, fun _ _ => rfl⟩

/-- **The second half of `coalesce` joins the block before with the block.** -/
theorem laid_coalescePrev {m : Memory} {pre post : List Blk} {p b : Blk} {lo hi : Nat}
    (hl : Laid m 0 (pre ++ p :: b :: post) 0)
    (ht : Tiles sizeofBlock lo (pre ++ p :: b :: post) hi)
    (hb : b.free = true) (hlo : 0 < lo) (hhi : hi < 4294967296) :
    Laid (coalescePrev m b.addr) 0 (pre ++ join sizeofBlock p (b :: post)) 0 ∧
      ∀ a, OffLinks (pre ++ p :: b :: post) a → coalescePrev m b.addr a = m a := by
  have hlp := (laid_append.mp hl).2
  obtain ⟨hp, -, -, hsep⟩ := ht.split
  rw [join]
  by_cases hpf : p.free = true
  · have hboth : p.free = true ∧ b.free = true := ⟨hpf, hb⟩
    have hpb := hsep b List.mem_cons_self
    simp only [sizeofBlock, Blk.stop] at hpb
    rw [if_pos hboth, coalescePrev_eq hlp (by omega) (by omega) hpf]
    refine ⟨laid_absorb hl ht hhi, fun a ha => ?_⟩
    have hap := ha p (by simp)
    exact absorb_frame (by omega) (OffLinks.head fun d hd => ha d (by simp [hd]))
  · rw [if_neg fun h => hpf h.1, coalescePrev_nop hlp.2.1 (Or.inr ?_)]
    · exact ⟨hl, fun _ _ => rfl⟩
    · rw [hlp.1.free]
      simpa using hpf

/-! ## The representation -/

/-- The heap in memory is the list of blocks `bs`. -/
structure Represents (h : Heap) (bs : List Blk) : Prop where
  head : h.heapHead = heapBase
  size_ge : heapMinSize ≤ h.heapSize
  size_le : h.heapSize ≤ heapMaxSize
  tiles : Tiles sizeofBlock heapBase bs (heapBase + h.heapSize)
  laid : Laid h.mem 0 bs 0
  noTwoFree : NoTwoFree bs
  used : h.heapUsed = used sizeofBlock bs

theorem usableHeapSize_le : ∀ rs : List E820Entry, usableHeapSize rs ≤ heapMaxSize
  | [] => by decide
  | r :: rest => by
    rw [usableHeapSize]
    dsimp only
    split
    · exact usableHeapSize_le rest
    · split
      · exact Nat.min_le_right _ _
      · exact usableHeapSize_le rest

/-- **`mem_init` lays out one free block.** -/
theorem memInit_represents {mem : Memory} {src : List E820Entry} {h : Heap}
    (hi : memInit mem src = some h) :
    Represents h [{ addr := heapBase, size := h.heapSize - sizeofBlock, free := true }] := by
  have hle := usableHeapSize_le (readMemoryMap src)
  unfold memInit at hi
  dsimp only at hi
  split at hi
  · simp at hi
  · next hge =>
    obtain rfl := Option.some.inj hi
    simp only [heapMaxSize, heapMinSize] at hle hge
    have em : wrap32 blockMagic = blockMagic := rfl
    have ef : ((1 : UInt8) != 0) = true := rfl
    constructor
    · rfl
    · exact Nat.not_lt.mp hge
    · exact hle
    · refine ⟨rfl, ?_⟩
      simp only [Tiles, Blk.stop, sizeofBlock]
      omega
    · refine ⟨Hdr.intro ?_ ?_ ?_ ?_ ?_, trivial⟩ <;>
        simp (disch := omega) only [setMagic, setSize, setFree, setNext, setPrev, headAddr,
          load32_store32_other, load32_store32_same, load32_store8_other, store32_other,
          store8_same, wrap32_of_lt, em, ef, heapBase, sizeofBlock, if_true]
    · exact List.isChain_singleton _
    · rfl

end LightningOS.Mem
