import Mathlib.Algebra.NeZero
import Mathlib.Algebra.Ring.Nat
import Mathlib.Data.List.Basic
import Mathlib.Logic.Function.Basic

/-!
# A circular queue

An array of `n` slots, the index `head` the next value goes to and the index `tail` the
next value comes from. The queue is empty when the two are equal, so one slot is never
used: a queue of `n` slots holds at most `n - 1` values.

`queued` reads the values that wait, the oldest first. `offer` is what the queue is for:
a line of bounded length that turns away who does not fit.
-/

namespace LightningOS.Queue

variable {α : Type} {n head tail : Nat} [NeZero n] {slots : Fin n → α}

/-- The number of values between `tail` and `head`, going round. -/
def waiting (n head tail : Nat) : Nat := (head + n - tail) % n

/-- The values that wait, the oldest first. -/
def queued (slots : Fin n → α) (head tail : Nat) : List α :=
  (List.range (waiting n head tail)).map fun i => slots (Fin.ofNat n (tail + i))

/-- One more value joins the line if fewer than `room` wait. -/
def offer (room : Nat) (line : List α) (x : α) : List α :=
  if line.length < room then line ++ [x] else line

/-! ## Going round -/

omit [NeZero n] in
/-- An index that went round at most once. -/
theorem mod_round {i : Nat} (h : i < 2 * n) : i % n = if i < n then i else i - n := by
  split
  · next hlt => exact Nat.mod_eq_of_lt hlt
  · next hge =>
    rw [Nat.mod_eq_sub_mod (by omega)]
    exact Nat.mod_eq_of_lt (by omega)

omit [NeZero n] in
theorem waiting_eq (hh : head < n) (ht : tail < n) :
    waiting n head tail = if tail ≤ head then head - tail else head + n - tail := by
  rw [waiting, mod_round (by omega)]
  split <;> split <;> omega

theorem next_lt (i : Nat) : (i + 1) % n < n := Nat.mod_lt _ (Nat.pos_of_neZero n)

/-- The slots of the values that wait are not the one behind them. -/
theorem slot_ne_head (hh : head < n) (ht : tail < n) {i : Nat} (hi : i < waiting n head tail) :
    Fin.ofNat n (tail + i) ≠ Fin.ofNat n head := by
  intro h
  have hmod : (tail + i) % n = head % n := congrArg Fin.val h
  rw [waiting_eq hh ht] at hi
  rw [Nat.mod_eq_of_lt hh, mod_round (by split at hi <;> omega)] at hmod
  split at hi <;> split at hmod <;> omega

/-- The slot behind the values that wait is the one the next value goes to. -/
theorem slot_waiting (hh : head < n) (ht : tail < n) :
    Fin.ofNat n (tail + waiting n head tail) = Fin.ofNat n head := by
  refine Fin.ext ?_
  change (tail + waiting n head tail) % n = head % n
  rw [waiting_eq hh ht, Nat.mod_eq_of_lt hh, mod_round (by split <;> omega)]
  split <;> split <;> omega

/-! ## Full and empty -/

@[simp] theorem queued_length : (queued slots head tail).length = waiting n head tail := by
  simp [queued]

theorem queued_eq_nil_iff (hh : head < n) (ht : tail < n) :
    queued slots head tail = [] ↔ head = tail := by
  rw [← List.length_eq_zero_iff, queued_length, waiting_eq hh ht]
  split <;> omega

/-- `head` runs into `tail` exactly when one slot is left. -/
theorem full_iff (hh : head < n) (ht : tail < n) :
    (head + 1) % n = tail ↔ ¬ (queued slots head tail).length < n - 1 := by
  rw [queued_length, waiting_eq hh ht]
  rcases Nat.lt_or_ge (head + 1) n with hlt | hge
  · rw [Nat.mod_eq_of_lt hlt]
    split <;> omega
  · have hlast : head + 1 = n := by omega
    rw [hlast, Nat.mod_self]
    split <;> omega

/-! ## The operations -/

/-- Writing the slot at `head` disturbs no value that waits. -/
theorem queued_update (hh : head < n) (ht : tail < n) (x : α) :
    queued (Function.update slots (Fin.ofNat n head) x) head tail = queued slots head tail := by
  apply List.map_congr_left
  intro i hi
  exact Function.update_of_ne (slot_ne_head hh ht (List.mem_range.mp hi)) _ _

theorem queued_next_head (hh : head < n) (ht : tail < n) (hroom : (head + 1) % n ≠ tail) :
    queued slots ((head + 1) % n) tail =
      queued slots head tail ++ [slots (Fin.ofNat n head)] := by
  have hcount : waiting n ((head + 1) % n) tail = waiting n head tail + 1 := by
    rw [waiting_eq (next_lt head) ht, waiting_eq hh ht]
    rcases Nat.lt_or_ge (head + 1) n with hlt | hge
    · rw [Nat.mod_eq_of_lt hlt] at hroom ⊢
      split <;> split <;> omega
    · have hlast : head + 1 = n := by omega
      rw [hlast, Nat.mod_self] at hroom ⊢
      split <;> split <;> omega
  rw [queued, queued, hcount, List.range_succ, List.map_append, List.map_singleton,
    slot_waiting hh ht]

/-- **The circular queue offers the value to the line of those that wait.** -/
theorem queued_push (hh : head < n) (ht : tail < n) (x : α) :
    (if (head + 1) % n = tail then queued slots head tail
      else queued (Function.update slots (Fin.ofNat n head) x) ((head + 1) % n) tail) =
      offer (n - 1) (queued slots head tail) x := by
  unfold offer
  by_cases hfull : (head + 1) % n = tail
  · rw [if_pos hfull, if_neg ((full_iff hh ht).mp hfull)]
  · rw [if_neg hfull, if_pos (not_not.mp fun h => hfull ((full_iff hh ht).mpr h)),
      queued_next_head hh ht hfull, queued_update hh ht, Function.update_self]

/-- **The slot at `tail` holds the oldest value, and moving `tail` on takes it away.** -/
theorem queued_pop (hh : head < n) (ht : tail < n) (hne : head ≠ tail) :
    queued slots head tail =
      slots (Fin.ofNat n tail) :: queued slots head ((tail + 1) % n) := by
  have hcount : waiting n head tail = waiting n head ((tail + 1) % n) + 1 := by
    rw [waiting_eq hh (next_lt tail), waiting_eq hh ht]
    rcases Nat.lt_or_ge (tail + 1) n with hlt | hge
    · rw [Nat.mod_eq_of_lt hlt]
      split <;> split <;> omega
    · have hlast : tail + 1 = n := by omega
      rw [hlast, Nat.mod_self]
      split <;> split <;> omega
  rw [queued, queued, hcount, List.range_succ_eq_map, List.map_cons, List.map_map]
  refine congrArg₂ _ rfl (List.map_congr_left ?_)
  intro i _
  refine congrArg slots (Fin.ext ?_)
  change (tail + (i + 1)) % n = ((tail + 1) % n + i) % n
  rw [Nat.mod_add_mod, Nat.add_right_comm, Nat.add_assoc]

/-! ## Lines -/

theorem mem_offer {room : Nat} {line : List α} {x y : α} (h : y ∈ offer room line x) :
    y ∈ line ∨ y = x := by
  unfold offer at h
  split at h
  · simpa using h
  · exact Or.inl h

theorem head?_offer {room : Nat} {line : List α} {x y : α} (h : line.head? = some y) :
    (offer room line x).head? = some y := by
  unfold offer
  split
  · rw [List.head?_append, h]
    rfl
  · exact h

theorem offer_ne_nil {room : Nat} {line : List α} (x : α) (h : line ≠ []) :
    offer room line x ≠ [] := by
  unfold offer
  split
  · simp
  · exact h

end LightningOS.Queue
