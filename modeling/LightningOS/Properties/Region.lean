import LightningOS.Properties.HeapLayout

/-!
# The heap and the memory map

`mem_init` asks the memory map how much RAM there is behind `HEAP_BASE`. The end of a
region is a 64-bit sum, but one that wraps comes out below `HEAP_BASE` and is never
taken. What is left is the default at the end of `usable_heap_size`: it is meant for a
machine without a map, and it is used for every map that has no region around
`HEAP_BASE` among the entries that were copied.
-/

namespace LightningOS.Mem

open ByteMemory

/-! ## Regions -/

/-- The region is usable and has all bytes from `lo` up to `hi`. The sum is exact. -/
def E820Entry.Has (r : E820Entry) (lo hi : Nat) : Prop :=
  r.type = e820TypeUsable ∧ r.base.toNat ≤ lo ∧ hi ≤ r.base.toNat + r.length.toNat

instance (r : E820Entry) (lo hi : Nat) : Decidable (r.Has lo hi) :=
  inferInstanceAs (Decidable (_ ∧ _))

/-- One usable region has all bytes from `lo` up to `hi`. -/
def InUsable (src : List E820Entry) (lo hi : Nat) : Prop := ∃ r ∈ src, r.Has lo hi

instance (src : List E820Entry) (lo hi : Nat) : Decidable (InUsable src lo hi) :=
  inferInstanceAs (Decidable (∃ r ∈ src, _))

/-- The region has the first byte of the heap, and its end is a 64-bit number. -/
def E820Entry.Around (r : E820Entry) : Prop :=
  r.Has heapBase (heapBase + 1) ∧ r.base.toNat + r.length.toNat < 2 ^ 64

theorem E820Entry.Around.stop {r : E820Entry} (hr : r.Around) :
    (r.base + r.length).toNat = r.base.toNat + r.length.toNat := by
  rw [UInt64.toNat_add]
  exact Nat.mod_eq_of_lt hr.2

/-- The test of `usable_heap_size`. A sum that wraps is at most `HEAP_BASE`. -/
theorem around_iff {r : E820Entry} : r.Around ↔ r.type = e820TypeUsable ∧
    r.base.toNat ≤ heapBase ∧ heapBase < (r.base + r.length).toNat := by
  have hbase : heapBase = 2097152 := rfl
  have hlen := r.length.toNat_lt
  constructor
  · intro hr
    obtain ⟨⟨ht, hlo, hhi⟩, -⟩ := id hr
    rw [hr.stop]
    exact ⟨ht, hlo, hhi⟩
  · rintro ⟨ht, hlo, hhi⟩
    rw [UInt64.toNat_add] at hhi
    exact ⟨⟨ht, hlo, by omega⟩, by omega⟩

/-- The size comes from the first region around `HEAP_BASE`; without one it is the default. -/
theorem usableHeapSize_cases (rs : List E820Entry) :
    (∃ r ∈ rs, r.Around ∧
      usableHeapSize rs = min (r.base.toNat + r.length.toNat - heapBase) heapMaxSize) ∨
    ((∀ r ∈ rs, ¬r.Around) ∧ usableHeapSize rs = heapMinSize) := by
  induction rs with
  | nil => exact Or.inr ⟨fun r hr => absurd hr List.not_mem_nil, rfl⟩
  | cons r rest ih =>
    by_cases hr : r.Around
    · refine Or.inl ⟨r, List.mem_cons_self, hr, ?_⟩
      obtain ⟨ht, hlo, hhi⟩ := around_iff.mp hr
      rw [usableHeapSize, if_neg (not_not.mpr ht)]
      dsimp only
      rw [if_pos ⟨hlo, hhi⟩, hr.stop]
    · have hskip : usableHeapSize (r :: rest) = usableHeapSize rest := by
        rw [usableHeapSize]
        split
        · rfl
        · next ht =>
          exact if_neg fun h => hr (around_iff.mpr ⟨not_not.mp ht, h.1, h.2⟩)
      rw [hskip]
      rcases ih with ⟨q, hq, hrest⟩ | ⟨hall, hsize⟩
      · exact Or.inl ⟨q, List.mem_cons_of_mem _ hq, hrest⟩
      · exact Or.inr ⟨List.forall_mem_cons.mpr ⟨hr, hall⟩, hsize⟩

theorem memInit_some {mem : Memory} {src : List E820Entry} {h : Heap}
    (hi : memInit mem src = some h) : heapMinSize ≤ h.heapSize ∧
      h.heapSize = usableHeapSize (readMemoryMap src) := by
  rw [memInit] at hi
  dsimp only at hi
  split at hi
  · exact absurd hi (Option.some_ne_none h).symm
  · next hge =>
    obtain rfl := Option.some.inj hi
    exact ⟨Nat.not_lt.mp hge, rfl⟩

/-! ## The range of the heap -/

/--
**When the heap is RAM.** The heap that `mem_init` lays out is part of one usable region of
the map if and only if one of the copied regions is around `HEAP_BASE`, or some region
happens to have the bytes of the default size.
-/
theorem heap_in_usable_iff (mem : Memory) (src : List E820Entry) :
    (∀ h, memInit mem src = some h → InUsable src heapBase (heapBase + h.heapSize)) ↔
      (∃ r ∈ readMemoryMap src, r.Around) ∨
        InUsable src heapBase (heapBase + heapMinSize) := by
  rcases usableHeapSize_cases (readMemoryMap src) with ⟨r, hr, ha, hsize⟩ | ⟨hnone, hsize⟩
  · refine iff_of_true (fun h hi => ?_) (Or.inl ⟨r, hr, ha⟩)
    obtain ⟨⟨ht, hlo, hhi⟩, -⟩ := ha
    have hle : h.heapSize ≤ r.base.toNat + r.length.toNat - heapBase := by
      rw [(memInit_some hi).2, hsize]
      exact Nat.min_le_left _ _
    exact ⟨r, List.mem_of_mem_take hr, ht, hlo, by omega⟩
  · constructor
    · intro hall
      -- the default size never panics
      have hi : ∃ h, memInit mem src = some h ∧ h.heapSize = heapMinSize := by
        rw [memInit]
        dsimp only
        rw [hsize, if_neg (Nat.lt_irrefl _)]
        exact ⟨_, rfl, rfl⟩
      obtain ⟨h, hi, hh⟩ := hi
      have := hall h hi
      rw [hh] at this
      exact Or.inr this
    · rintro (⟨r, hr, ha⟩ | hin)
      · exact absurd ha (hnone r hr)
      · intro h hi
        rw [(memInit_some hi).2, hsize]
        exact hin

/-- A machine with 640 KiB and half a megabyte behind the first. -/
def smallMap : List E820Entry :=
  [{ base := 0, length := 0xA0000, type := e820TypeUsable },
    { base := 0x100000, length := 0x80000, type := e820TypeUsable }]

/-- On that machine the heap lies behind the end of RAM. -/
theorem heap_outside_ram : ¬∀ (mem : Memory) (src : List E820Entry), src ≠ [] →
    ∀ h, memInit mem src = some h → InUsable src heapBase (heapBase + h.heapSize) := by
  intro hall
  have hi : memInit (fun _ => 0) smallMap = some _ := rfl
  have := hall (fun _ => 0) smallMap (by decide) _ hi
  revert this
  decide

end LightningOS.Mem
