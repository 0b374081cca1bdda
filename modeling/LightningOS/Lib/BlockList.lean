import Mathlib.Data.List.TakeWhile
import Mathlib.Data.List.Chain
import Mathlib.Data.List.Basic

/-!
# First-fit allocation on a list of blocks

A region is cut into blocks. Each block is a header of `hdr` bytes followed by its
payload, and is either free or busy. An allocation takes the first free block that
is large enough and cuts off the rest when the rest can hold a header and `slack`
more bytes. A release frees a block and merges it with at most one free neighbour on
each side.

The two halves of the invariant need each other:

* `Tiles` says that the blocks cover the region without a gap or an overlap.
* `NoTwoFree` says that no two neighbours are both free. It is the reason why
  merging one block per side is enough.
-/

namespace BlockList

/-- A block: where its header is, how long its payload is, whether it is free. -/
structure Blk where
  addr : Nat
  size : Nat
  free : Bool
  deriving DecidableEq, Repr

variable (hdr slack : Nat)

/-- The first address after the block. -/
def Blk.stop (b : Blk) : Nat := b.addr + hdr + b.size

/-- The blocks cover `[lo, hi)` from left to right, each starting where the last one ends. -/
def Tiles : Nat → List Blk → Nat → Prop
  | lo, [], hi => lo = hi
  | lo, b :: bs, hi => b.addr = lo ∧ Tiles (b.stop hdr) bs hi

/-- No two neighbours are both free. -/
def NoTwoFree (bs : List Blk) : Prop :=
  bs.IsChain fun b c => ¬(b.free = true ∧ c.free = true)

/-- Bytes taken by busy blocks, headers included. -/
def used : List Blk → Nat
  | [] => 0
  | b :: bs => (if b.free then 0 else b.size + hdr) + used bs

/-! ## The operations -/

/-- A free block turned into a busy one of `n` bytes, with the rest cut off if it is worth it. -/
def carve (n : Nat) (b : Blk) : List Blk :=
  if b.size < n + hdr + slack then [{ b with free := false }]
  else [{ b with size := n, free := false },
        { addr := b.addr + hdr + n, size := b.size - n - hdr, free := true }]

/-- Take the first free block of at least `n` bytes. -/
def allocate (n : Nat) : List Blk → Option (Nat × List Blk)
  | [] => none
  | b :: bs =>
    if b.free = true ∧ n ≤ b.size then some (b.addr, carve hdr slack n b ++ bs)
    else (allocate n bs).map fun r => (r.1, b :: r.2)

/-- Put `b` in front of `bs`, merged with the first block there if both are free. -/
def join (b : Blk) : List Blk → List Blk
  | [] => [b]
  | c :: cs =>
    if b.free = true ∧ c.free = true then { b with size := b.size + (c.size + hdr) } :: cs
    else b :: c :: cs

/-- Free the block at `a`: merge it with its right neighbour, then with its left one. -/
def release (a : Nat) : List Blk → List Blk
  | [] => []
  | b :: bs =>
    if b.addr = a then join hdr { b with free := true } bs
    else if (bs.head?.map Blk.addr) = some a then join hdr b (release a bs)
    else b :: release a bs

variable {hdr slack}

/-! ## Tilings -/

theorem tiles_append {xs ys : List Blk} : ∀ {lo hi : Nat},
    Tiles hdr lo (xs ++ ys) hi ↔ ∃ mid, Tiles hdr lo xs mid ∧ Tiles hdr mid ys hi := by
  induction xs with
  | nil => intro lo hi; simp [Tiles]
  | cons b bs ih =>
    intro lo hi
    simp only [List.cons_append, Tiles, ih]
    constructor
    · rintro ⟨h1, mid, h2, h3⟩; exact ⟨mid, ⟨h1, h2⟩, h3⟩
    · rintro ⟨mid, ⟨h1, h2⟩, h3⟩; exact ⟨h1, mid, h2, h3⟩

theorem Tiles.le {bs : List Blk} : ∀ {lo hi : Nat}, Tiles hdr lo bs hi → lo ≤ hi := by
  induction bs with
  | nil => intro lo hi h; exact Nat.le_of_eq h
  | cons b bs ih =>
    intro lo hi h
    have h2 := ih h.2
    have h1 := h.1
    simp only [Blk.stop] at h2
    omega

/-- Every block of a tiling lies inside the region. -/
theorem Tiles.mem_bounds {bs : List Blk} {b : Blk} : ∀ {lo hi : Nat},
    Tiles hdr lo bs hi → b ∈ bs → lo ≤ b.addr ∧ b.stop hdr ≤ hi := by
  induction bs with
  | nil => intro lo hi _ hb; simp at hb
  | cons c cs ih =>
    intro lo hi h hb
    have h1 := h.1
    rcases List.mem_cons.mp hb with rfl | hb
    · exact ⟨by omega, h.2.le⟩
    · have h2 := ih h.2 hb
      simp only [Blk.stop] at h2 ⊢
      omega

/-- Where the blocks on both sides of `b` lie. -/
theorem Tiles.split {pre post : List Blk} {b : Blk} {lo hi : Nat}
    (h : Tiles hdr lo (pre ++ b :: post) hi) :
    lo ≤ b.addr ∧ b.stop hdr ≤ hi ∧ (∀ d ∈ pre, d.stop hdr ≤ b.addr) ∧
      (∀ d ∈ post, b.stop hdr ≤ d.addr) := by
  obtain ⟨mid, h1, h2⟩ := tiles_append.mp h
  have hmid := h2.1
  refine ⟨hmid ▸ h1.le, h2.2.le, fun d hd => ?_, fun d hd => (h2.2.mem_bounds hd).1⟩
  rw [hmid]
  exact (h1.mem_bounds hd).2

/-- Two blocks of a tiling with different addresses do not overlap, headers included. -/
theorem Tiles.disjoint {bs : List Blk} {b c : Blk} : ∀ {lo hi : Nat}, Tiles hdr lo bs hi →
    b ∈ bs → c ∈ bs → b.addr ≠ c.addr → b.stop hdr ≤ c.addr ∨ c.stop hdr ≤ b.addr := by
  induction bs with
  | nil => intro lo hi _ hb; simp at hb
  | cons d ds ih =>
    intro lo hi h hb hc hne
    rcases List.mem_cons.mp hb with rfl | hbs
    · rcases List.mem_cons.mp hc with rfl | hc
      · exact absurd rfl hne
      · exact Or.inl (h.2.mem_bounds hc).1
    · rcases List.mem_cons.mp hc with rfl | hc'
      · exact Or.inr (h.2.mem_bounds hbs).1
      · exact ih h.2 hbs hc' hne

/-- With a nonempty header, a tiling has no two blocks at one address. -/
theorem Tiles.addr_inj {bs : List Blk} {b c : Blk} (hdr_pos : 0 < hdr) : ∀ {lo hi : Nat},
    Tiles hdr lo bs hi → b ∈ bs → c ∈ bs → b.addr = c.addr → b = c := by
  induction bs with
  | nil => intro lo hi _ hb; simp at hb
  | cons d ds ih =>
    intro lo hi h hb hc heq
    have hd : ∀ e ∈ ds, d.addr ≠ e.addr := by
      intro e he
      have := (h.2.mem_bounds he).1
      simp only [Blk.stop] at this
      omega
    rcases List.mem_cons.mp hb with rfl | hbs
    · rcases List.mem_cons.mp hc with rfl | hcs
      · rfl
      · exact absurd heq (hd c hcs)
    · rcases List.mem_cons.mp hc with rfl | hcs
      · exact absurd heq.symm (hd b hbs)
      · exact ih h.2 hbs hcs heq

/-- A region holds at most one block per header. -/
theorem Tiles.length_le {bs : List Blk} : ∀ {lo hi : Nat},
    Tiles hdr lo bs hi → bs.length * hdr ≤ hi - lo := by
  induction bs with
  | nil => intro lo hi _; simp
  | cons b bs ih =>
    intro lo hi h
    have h1 := h.1
    have h2 := ih h.2
    have h3 := h.2.le
    simp only [List.length_cons, Blk.stop, Nat.add_mul, Nat.one_mul] at *
    omega

/-! ## Bytes in use -/

theorem used_append (xs ys : List Blk) : used hdr (xs ++ ys) = used hdr xs + used hdr ys := by
  induction xs with
  | nil => simp [used]
  | cons b bs ih => simp only [List.cons_append, used, ih]; omega

theorem Tiles.used_le {bs : List Blk} : ∀ {lo hi : Nat},
    Tiles hdr lo bs hi → used hdr bs ≤ hi - lo := by
  induction bs with
  | nil => intro lo hi _; simp [used]
  | cons b bs ih =>
    intro lo hi h
    have h1 := h.1
    have h2 := ih h.2
    have h3 := h.2.le
    simp only [used, Blk.stop] at *
    split <;> omega

/-! ## Carving -/

theorem tiles_carve {n : Nat} {b : Blk} {lo hi : Nat} (h : Tiles hdr lo [b] hi) :
    Tiles hdr lo (carve hdr slack n b) hi := by
  unfold carve
  split
  · exact h
  · simp only [Tiles, Blk.stop] at *
    exact ⟨h.1, trivial, by omega⟩

/-- The busy block that `carve` leaves at the front. -/
def carved (hdr slack n : Nat) (b : Blk) : Blk :=
  { addr := b.addr, size := if b.size < n + hdr + slack then b.size else n, free := false }

theorem carved_size {n : Nat} {b : Blk} (hfit : n ≤ b.size) :
    n ≤ (carved hdr slack n b).size := by
  unfold carved
  dsimp only
  split <;> omega

theorem carve_busy {n : Nat} {b c : Blk} :
    (c ∈ carve hdr slack n b ∧ c.free = false) ↔ c = carved hdr slack n b := by
  unfold carve carved
  split
  · constructor
    · rintro ⟨hc, -⟩; simpa using hc
    · rintro rfl; simp
  · constructor
    · rintro ⟨hc, hf⟩
      rcases List.mem_cons.mp hc with rfl | hc
      · rfl
      · have := List.mem_singleton.mp hc
        subst this
        simp at hf
    · rintro rfl; simp

/-! ## Allocation -/

/-- What a successful allocation does: one free block is carved, the others stay. -/
theorem allocate_eq_some {n a : Nat} : ∀ {bs bs' : List Blk},
    allocate hdr slack n bs = some (a, bs') →
    ∃ pre b post, bs = pre ++ b :: post ∧ bs' = pre ++ carve hdr slack n b ++ post ∧
      b.addr = a ∧ b.free = true ∧ n ≤ b.size := by
  intro bs
  induction bs with
  | nil => intro bs' h; simp [allocate] at h
  | cons c cs ih =>
    intro bs' h
    rw [allocate] at h
    split at h
    · next hfit =>
      obtain ⟨rfl, rfl⟩ := Prod.mk.inj (Option.some.inj h)
      exact ⟨[], c, cs, rfl, by simp, rfl, hfit.1, hfit.2⟩
    · obtain ⟨⟨a', ds⟩, hr, he⟩ := Option.map_eq_some_iff.mp h
      obtain ⟨rfl, rfl⟩ := Prod.mk.inj he
      obtain ⟨pre, b, post, h1, h2, h3⟩ := ih hr
      exact ⟨c :: pre, b, post, by rw [h1]; rfl, by rw [h2]; rfl, h3⟩

theorem tiles_allocate {n a : Nat} {bs bs' : List Blk} {lo hi : Nat}
    (h : allocate hdr slack n bs = some (a, bs')) (ht : Tiles hdr lo bs hi) :
    Tiles hdr lo bs' hi := by
  obtain ⟨pre, b, post, rfl, rfl, -, -, -⟩ := allocate_eq_some h
  rw [← List.singleton_append, ← List.append_assoc] at ht
  obtain ⟨m2, h12, h3⟩ := tiles_append.mp ht
  obtain ⟨m1, h1, h2⟩ := tiles_append.mp h12
  exact tiles_append.mpr ⟨m2, tiles_append.mpr ⟨m1, h1, tiles_carve h2⟩, h3⟩

theorem noTwoFree_allocate {n a : Nat} {bs bs' : List Blk}
    (h : allocate hdr slack n bs = some (a, bs')) (hn : NoTwoFree bs) : NoTwoFree bs' := by
  obtain ⟨pre, b, post, rfl, rfl, -, hfree, -⟩ := allocate_eq_some h
  unfold NoTwoFree at *
  obtain ⟨hpre, hbp, hlink⟩ := List.isChain_append.mp hn
  obtain ⟨hb, hpost⟩ := List.isChain_cons.mp hbp
  -- `b` was free, so the block after it is busy; that is what the cut-off rest needs
  have hbusy : ∀ c ∈ post.head?, c.free = false := by
    intro c hc
    have := hb c hc
    simpa [hfree] using this
  have hcarve : (carve hdr slack n b).IsChain fun b c => ¬(b.free = true ∧ c.free = true) := by
    unfold carve
    split <;> simp
  refine List.isChain_append.mpr ⟨List.isChain_append.mpr ⟨hpre, hcarve, ?_⟩, hpost, ?_⟩
  · intro x _ y hy
    have : y.free = false := by
      unfold carve at hy
      split at hy <;> simp at hy <;> rw [← hy]
    simp [this]
  · intro x _ y hy
    simp [hbusy y hy]

/-- The busy blocks after an allocation: the old ones and the new one. -/
theorem allocate_busy {n a : Nat} {bs bs' : List Blk}
    (h : allocate hdr slack n bs = some (a, bs')) :
    ∃ new : Blk, new.addr = a ∧ new.free = false ∧ n ≤ new.size ∧
      (∀ c, (c ∈ bs' ∧ c.free = false) ↔ (c ∈ bs ∧ c.free = false) ∨ c = new) ∧
      used hdr bs' = used hdr bs + (new.size + hdr) := by
  obtain ⟨pre, b, post, rfl, rfl, ha, hfree, hfit⟩ := allocate_eq_some h
  refine ⟨carved hdr slack n b, ha, rfl, carved_size hfit, ?_, ?_⟩
  · intro c
    have hc : (c ∈ carve hdr slack n b ∧ c.free = false) ↔ c = carved hdr slack n b := carve_busy
    have hcb : c = b → c.free = true := by rintro rfl; exact hfree
    simp only [List.mem_append, List.mem_cons]
    constructor
    · rintro ⟨(h | h) | h, hf⟩
      · exact Or.inl ⟨Or.inl h, hf⟩
      · exact Or.inr (hc.mp ⟨h, hf⟩)
      · exact Or.inl ⟨Or.inr (Or.inr h), hf⟩
    · rintro (⟨h | h | h, hf⟩ | h)
      · exact ⟨Or.inl (Or.inl h), hf⟩
      · rw [hcb h] at hf; simp at hf
      · exact ⟨Or.inr h, hf⟩
      · exact ⟨Or.inl (Or.inr (hc.mpr h).1), (hc.mpr h).2⟩
  · have hu : used hdr (carve hdr slack n b) = (carved hdr slack n b).size + hdr := by
      unfold carve carved
      split <;> simp_all [used]
    simp only [used_append, used, hfree, if_true, hu]
    omega

/-- An allocation fails only when no free block is large enough. -/
theorem allocate_eq_none {n : Nat} : ∀ {bs : List Blk},
    allocate hdr slack n bs = none ↔ ∀ b ∈ bs, ¬(b.free = true ∧ n ≤ b.size) := by
  intro bs
  induction bs with
  | nil => simp [allocate]
  | cons c cs ih =>
    rw [allocate]
    by_cases hfit : c.free = true ∧ n ≤ c.size
    · simp [hfit]
    · simp only [if_neg hfit, Option.map_eq_none_iff, ih, List.mem_cons, forall_eq_or_imp]
      exact ⟨fun h => ⟨hfit, h⟩, fun h => h.2⟩

/-! ## Joining -/

theorem tiles_join {b : Blk} {bs : List Blk} {lo hi : Nat} (h : Tiles hdr lo (b :: bs) hi) :
    Tiles hdr lo (join hdr b bs) hi := by
  cases bs with
  | nil => exact h
  | cons c cs =>
    rw [join]
    split
    · refine ⟨h.1, ?_⟩
      have h2 := h.2.1
      have h3 := h.2.2
      simp only [Blk.stop] at *
      rwa [show b.addr + hdr + (b.size + (c.size + hdr)) = c.addr + hdr + c.size by omega]
    · exact h

theorem used_join (b : Blk) (bs : List Blk) :
    used hdr (join hdr b bs) = used hdr (b :: bs) := by
  cases bs with
  | nil => rfl
  | cons c cs =>
    rw [join]
    split
    · next h => simp [used, h]
    · rfl

theorem join_busy {b c : Blk} {bs : List Blk} :
    (c ∈ join hdr b bs ∧ c.free = false) ↔ (c ∈ b :: bs ∧ c.free = false) := by
  cases bs with
  | nil => rfl
  | cons d ds =>
    rw [join]
    split
    · next h =>
      simp only [List.mem_cons]
      constructor
      · rintro ⟨rfl | hc, hf⟩
        · simp [h.1] at hf
        · exact ⟨Or.inr (Or.inr hc), hf⟩
      · rintro ⟨rfl | rfl | hc, hf⟩
        · simp [h.1] at hf
        · simp [h.2] at hf
        · exact ⟨Or.inr hc, hf⟩
    · rfl

/-- After joining, the first block is free exactly when `b` is, and starts where `b` does. -/
theorem join_head (hdr : Nat) (b : Blk) (bs : List Blk) :
    ∃ b' bs', join hdr b bs = b' :: bs' ∧ b'.addr = b.addr ∧ b'.free = b.free := by
  cases bs with
  | nil => exact ⟨b, [], rfl, rfl, rfl⟩
  | cons c cs =>
    rw [join]
    split
    · exact ⟨_, cs, rfl, rfl, rfl⟩
    · exact ⟨b, c :: cs, rfl, rfl, rfl⟩

theorem noTwoFree_join {b : Blk} {bs : List Blk} (h : NoTwoFree bs) :
    NoTwoFree (join hdr b bs) := by
  unfold NoTwoFree at *
  cases bs with
  | nil => exact List.isChain_singleton b
  | cons c cs =>
    obtain ⟨hc, hcs⟩ := List.isChain_cons.mp h
    rw [join]
    split
    · next hbc =>
      refine List.isChain_cons.mpr ⟨fun d hd => ?_, hcs⟩
      have := hc d hd
      simp_all
    · next hbc =>
      refine List.isChain_cons.mpr ⟨fun d hd => ?_, h⟩
      simp only [List.head?_cons, Option.mem_def, Option.some.injEq] at hd
      subst hd
      exact hbc

/-! ## Release -/

theorem tiles_release {a : Nat} : ∀ {bs : List Blk} {lo hi : Nat},
    Tiles hdr lo bs hi → Tiles hdr lo (release hdr a bs) hi := by
  intro bs
  induction bs with
  | nil => intro lo hi h; exact h
  | cons b bs ih =>
    intro lo hi h
    rw [release]
    split
    · exact tiles_join h
    · split
      · exact tiles_join ⟨h.1, ih h.2⟩
      · exact ⟨h.1, ih h.2⟩

/-- A release, with the block and both its sides in view. -/
theorem release_split {b : Blk} {post : List Blk} : ∀ {pre : List Blk},
    (∀ c ∈ pre, c.addr ≠ b.addr) →
    release hdr b.addr (pre ++ b :: post) =
      match pre.getLast? with
      | none => join hdr { b with free := true } post
      | some p => pre.dropLast ++ join hdr p (join hdr { b with free := true } post) := by
  intro pre
  induction pre with
  | nil => intro _; rw [List.nil_append, release, if_pos rfl]; rfl
  | cons q qs ih =>
    intro h
    have hq := h q List.mem_cons_self
    have hqs : ∀ c ∈ qs, c.addr ≠ b.addr := fun c hc => h c (List.mem_cons_of_mem _ hc)
    rw [List.cons_append, release, if_neg hq, ih hqs]
    cases qs with
    | nil => simp
    | cons r rs =>
      have hr : ¬((r :: rs ++ b :: post).head?.map Blk.addr = some b.addr) := by
        simpa using hqs r List.mem_cons_self
      rw [if_neg hr]
      simp only [List.getLast?_cons_cons, List.dropLast_cons_cons]
      cases h1 : (r :: rs).getLast? with
      | none => simp at h1
      | some p => simp

theorem noTwoFree_release {a : Nat} : ∀ {bs : List Blk},
    NoTwoFree bs → NoTwoFree (release hdr a bs) := by
  intro bs
  induction bs with
  | nil => intro h; exact h
  | cons b bs ih =>
    intro h
    obtain ⟨hb, hbs⟩ := List.isChain_cons.mp h
    rw [release]
    split
    · exact noTwoFree_join hbs
    · split
      · exact noTwoFree_join (ih hbs)
      · next hhead =>
        -- the first block of the rest is not the freed one, so it keeps its flag
        refine List.isChain_cons.mpr ⟨fun d hd => ?_, ih hbs⟩
        cases bs with
        | nil => simp [release] at hd
        | cons c cs =>
          have hca : c.addr ≠ a := by simpa using hhead
          rw [release, if_neg hca] at hd
          have hc : ¬(b.free = true ∧ c.free = true) := hb c rfl
          split at hd
          · obtain ⟨c', cs', h1, -, h3⟩ := join_head hdr c (release hdr a cs)
            rw [h1] at hd
            simp only [List.head?_cons, Option.mem_def, Option.some.injEq] at hd
            rw [← hd, h3]
            exact hc
          · simp only [List.head?_cons, Option.mem_def, Option.some.injEq] at hd
            rw [← hd]
            exact hc

/-- The busy blocks after a release: the old ones except the released one. -/
theorem release_busy {a : Nat} (hdr_pos : 0 < hdr) : ∀ {bs : List Blk} {lo hi : Nat} {c : Blk},
    Tiles hdr lo bs hi →
    ((c ∈ release hdr a bs ∧ c.free = false) ↔ (c ∈ bs ∧ c.free = false ∧ c.addr ≠ a)) := by
  intro bs
  induction bs with
  | nil => intro lo hi c _; simp [release]
  | cons b bs ih =>
    intro lo hi c h
    rw [release]
    split
    · next hba =>
      -- the rest starts after `b`, so nothing in it has address `a`
      have hrest : ∀ d ∈ bs, d.addr ≠ a := by
        intro d hd
        have := (h.2.mem_bounds hd).1
        simp only [Blk.stop] at this
        omega
      rw [join_busy]
      simp only [List.mem_cons]
      constructor
      · rintro ⟨rfl | hc, hf⟩
        · simp at hf
        · exact ⟨Or.inr hc, hf, hrest c hc⟩
      · rintro ⟨rfl | hc, hf, hne⟩
        · exact absurd hba hne
        · exact ⟨Or.inr hc, hf⟩
    · next hba =>
      have hstep : (c ∈ b :: release hdr a bs ∧ c.free = false) ↔
          (c ∈ b :: bs ∧ c.free = false ∧ c.addr ≠ a) := by
        have hih := ih (c := c) h.2
        simp only [List.mem_cons]
        constructor
        · rintro ⟨rfl | hc, hf⟩
          · exact ⟨Or.inl rfl, hf, hba⟩
          · exact ⟨Or.inr (hih.mp ⟨hc, hf⟩).1, (hih.mp ⟨hc, hf⟩).2⟩
        · rintro ⟨rfl | hc, hf, hne⟩
          · exact ⟨Or.inl rfl, hf⟩
          · exact ⟨Or.inr (hih.mpr ⟨hc, hf, hne⟩).1, hf⟩
      split
      · exact join_busy.trans hstep
      · exact hstep

theorem used_release {a : Nat} (hdr_pos : 0 < hdr) : ∀ {bs : List Blk} {lo hi : Nat} {b : Blk},
    Tiles hdr lo bs hi → b ∈ bs → b.addr = a → b.free = false →
    used hdr (release hdr a bs) + (b.size + hdr) = used hdr bs := by
  intro bs
  induction bs with
  | nil => intro lo hi b _ hb; simp at hb
  | cons c cs ih =>
    intro lo hi b h hb hba hf
    rw [release]
    rcases List.mem_cons.mp hb with rfl | hb
    · rw [if_pos hba, used_join]
      simp only [used, hf, if_true, Bool.false_eq_true, if_false]
      omega
    · have hca : c.addr ≠ a := by
        have := (h.2.mem_bounds hb).1
        have h1 := h.1
        simp only [Blk.stop] at this
        omega
      have hih := ih h.2 hb hba hf
      rw [if_neg hca]
      split
      · rw [used_join]; simp only [used]; omega
      · simp only [used]; omega

/-! ## What becomes of a free block -/

/-- `c` takes in all of `b`: it begins with the header of `b`, or has it in its payload. -/
structure Blk.Within (hdr : Nat) (b c : Blk) : Prop where
  start : c.addr = b.addr ∨ c.addr + hdr ≤ b.addr
  stop : b.stop hdr ≤ c.stop hdr

theorem Blk.Within.refl (b : Blk) : b.Within hdr b := ⟨Or.inl rfl, Nat.le_refl _⟩

theorem Blk.Within.trans {b c d : Blk} (h1 : b.Within hdr c) (h2 : c.Within hdr d) :
    b.Within hdr d := by
  have hs1 := h1.start
  have hs2 := h2.start
  exact ⟨by omega, h1.stop.trans h2.stop⟩

theorem join_within {b d : Blk} {bs : List Blk} {lo hi : Nat} (ht : Tiles hdr lo (b :: bs) hi)
    (hd : d ∈ b :: bs) (hf : d.free = true) :
    ∃ d' ∈ join hdr b bs, d'.free = true ∧ d.Within hdr d' := by
  cases bs with
  | nil => exact ⟨d, hd, hf, .refl d⟩
  | cons c cs =>
    rw [join]
    split
    · next hbc =>
      -- the merged block begins at `b` and ends with `c`
      have hc := ht.2.1
      simp only [Blk.stop] at hc
      rcases List.mem_cons.mp hd with rfl | hd
      · refine ⟨_, List.mem_cons_self, hbc.1, ⟨Or.inl rfl, ?_⟩⟩
        simp only [Blk.stop]
        omega
      · rcases List.mem_cons.mp hd with rfl | hd
        · refine ⟨_, List.mem_cons_self, hbc.1, ⟨Or.inr ?_, ?_⟩⟩
          · dsimp only
            omega
          · simp only [Blk.stop]
            omega
        · exact ⟨d, List.mem_cons_of_mem _ hd, hf, .refl d⟩
    · exact ⟨d, hd, hf, .refl d⟩

/-- The block that is released, and every free one, ends up in a free block. -/
theorem release_within {a : Nat} (hdr_pos : 0 < hdr) : ∀ {bs : List Blk} {lo hi : Nat} {d : Blk},
    Tiles hdr lo bs hi → d ∈ bs → d.free = true ∨ d.addr = a →
    ∃ d' ∈ release hdr a bs, d'.free = true ∧ d.Within hdr d' := by
  intro bs
  induction bs with
  | nil => intro lo hi d _ hd; simp at hd
  | cons b bs ih =>
    intro lo hi d h hd hfree
    rw [release]
    split
    · next hba =>
      have ht : Tiles hdr lo ({ b with free := true } :: bs) hi := h
      rcases List.mem_cons.mp hd with rfl | hd
      · obtain ⟨d', hd', hf', hw⟩ := join_within ht List.mem_cons_self rfl
        exact ⟨d', hd', hf', ⟨hw.start, hw.stop⟩⟩
      · have hda := (h.2.mem_bounds hd).1
        simp only [Blk.stop] at hda
        exact join_within ht (List.mem_cons_of_mem _ hd) (hfree.resolve_right (by omega))
    · next hba =>
      have hstep : ∃ d' ∈ b :: release hdr a bs, d'.free = true ∧ d.Within hdr d' := by
        rcases List.mem_cons.mp hd with rfl | hd
        · exact ⟨d, List.mem_cons_self, hfree.resolve_right hba, .refl d⟩
        · obtain ⟨d', hd', hf', hw⟩ := ih h.2 hd hfree
          exact ⟨d', List.mem_cons_of_mem _ hd', hf', hw⟩
      split
      · obtain ⟨d', hd', hf', hw⟩ := hstep
        have ht : Tiles hdr lo (b :: release hdr a bs) hi := ⟨h.1, tiles_release h.2⟩
        obtain ⟨e, he, hef, hwe⟩ := join_within ht hd' hf'
        exact ⟨e, he, hef, hw.trans hwe⟩
      · exact hstep

/-! ## Addresses -/

/-- The blocks that first fit passes over before it takes one for `n` bytes. -/
def passed (n : Nat) (bs : List Blk) : List Blk :=
  bs.takeWhile fun b => !decide (b.free = true ∧ n ≤ b.size)

theorem passed_eq_self {n : Nat} {bs : List Blk} :
    passed n bs = bs ↔ allocate hdr slack n bs = none := by
  rw [passed, List.takeWhile_eq_self_iff, allocate_eq_none]
  simp only [Bool.not_eq_true', decide_eq_false_iff_not]

theorem allocate_passed {n a : Nat} : ∀ {bs bs' : List Blk},
    allocate hdr slack n bs = some (a, bs') →
    ∃ b post, bs = passed n bs ++ b :: post ∧ b.addr = a := by
  intro bs
  induction bs with
  | nil => intro bs' h; simp [allocate] at h
  | cons c cs ih =>
    intro bs' h
    rw [allocate] at h
    split at h
    · next hfit =>
      obtain ⟨rfl, -⟩ := Prod.mk.inj (Option.some.inj h)
      exact ⟨c, cs, by simp [passed, hfit], rfl⟩
    · next hfit =>
      obtain ⟨⟨a', ds⟩, hr, he⟩ := Option.map_eq_some_iff.mp h
      obtain ⟨rfl, -⟩ := Prod.mk.inj he
      obtain ⟨b, post, hbs, hb⟩ := ih hr
      refine ⟨b, post, ?_, hb⟩
      have hskip : passed n (c :: cs) = c :: passed n cs := by
        rw [passed, List.takeWhile_cons, if_pos, passed]
        rw [Bool.not_eq_true', decide_eq_false_iff_not]
        exact hfit
      rw [hskip, List.cons_append, ← hbs]

/-- A new block begins where one was, or behind the bytes that were cut off. -/
theorem allocate_addr {n a : Nat} {bs bs' : List Blk} {c : Blk}
    (h : allocate hdr slack n bs = some (a, bs')) (hc : c ∈ bs') :
    ∃ b ∈ bs, c.addr = b.addr ∨ c.addr = b.addr + hdr + n := by
  obtain ⟨pre, b, post, rfl, rfl, -⟩ := allocate_eq_some h
  have hb : b ∈ pre ++ b :: post := by simp
  rcases List.mem_append.mp hc with hc | hc
  · rcases List.mem_append.mp hc with hc | hc
    · exact ⟨c, by simp [hc], Or.inl rfl⟩
    · rw [carve] at hc
      split at hc
      · rw [List.mem_singleton.mp hc]
        exact ⟨b, hb, Or.inl rfl⟩
      · rcases List.mem_cons.mp hc with rfl | hc
        · exact ⟨b, hb, Or.inl rfl⟩
        · rw [List.mem_singleton.mp hc]
          exact ⟨b, hb, Or.inr rfl⟩
  · exact ⟨c, by simp [hc], Or.inl rfl⟩

theorem join_addr {b c : Blk} {bs : List Blk} (hc : c ∈ join hdr b bs) :
    ∃ d ∈ b :: bs, c.addr = d.addr := by
  cases bs with
  | nil => exact ⟨c, hc, rfl⟩
  | cons d ds =>
    rw [join] at hc
    split at hc
    · rcases List.mem_cons.mp hc with rfl | hc
      · exact ⟨b, List.mem_cons_self, rfl⟩
      · exact ⟨c, List.mem_cons_of_mem _ (List.mem_cons_of_mem _ hc), rfl⟩
    · exact ⟨c, hc, rfl⟩

/-- A release moves no block. -/
theorem release_addr {a : Nat} : ∀ {bs : List Blk} {c : Blk}, c ∈ release hdr a bs →
    ∃ b ∈ bs, c.addr = b.addr := by
  intro bs
  induction bs with
  | nil => intro c hc; simp [release] at hc
  | cons b bs ih =>
    intro c hc
    have hstep : ∀ d ∈ b :: release hdr a bs, ∃ e ∈ b :: bs, d.addr = e.addr := by
      intro d hd
      rcases List.mem_cons.mp hd with rfl | hd
      · exact ⟨d, List.mem_cons_self, rfl⟩
      · obtain ⟨e, he, hde⟩ := ih hd
        exact ⟨e, List.mem_cons_of_mem _ he, hde⟩
    rw [release] at hc
    split at hc
    · obtain ⟨d, hd, hcd⟩ := join_addr hc
      rcases List.mem_cons.mp hd with rfl | hd
      · exact ⟨b, List.mem_cons_self, hcd⟩
      · exact ⟨d, List.mem_cons_of_mem _ hd, hcd⟩
    · split at hc
      · obtain ⟨d, hd, hcd⟩ := join_addr hc
        obtain ⟨e, he, hde⟩ := hstep d hd
        exact ⟨e, he, hcd.trans hde⟩
      · exact hstep c hc

/-! ## The empty heap -/

/-- If no block is busy, one free block covers the whole region. -/
theorem eq_singleton_of_all_free {bs : List Blk} {lo hi : Nat} (ht : Tiles hdr lo bs hi)
    (hn : NoTwoFree bs) (hfree : ∀ b ∈ bs, b.free = true) (hlt : lo < hi) :
    bs = [{ addr := lo, size := hi - lo - hdr, free := true }] := by
  match bs, ht, hn, hfree with
  | [], ht, _, _ => exact absurd ht (Nat.ne_of_lt hlt)
  | [b], ht, _, hfree =>
    obtain ⟨h1, h2⟩ := ht
    simp only [Tiles, Blk.stop] at h2
    obtain ⟨addr, size, free⟩ := b
    have hf : free = true := hfree _ List.mem_cons_self
    simp only [List.cons.injEq, Blk.mk.injEq, and_true]
    simp only at h1 h2
    exact ⟨h1, by omega, hf⟩
  | b :: c :: cs, _, hn, hfree =>
    have hbc := (List.isChain_cons.mp hn).1 c rfl
    exact absurd ⟨hfree b (by simp), hfree c (by simp)⟩ hbc

end BlockList
