import Mathlib.Data.Nat.Basic
import Mathlib.Data.List.Basic

/-!
# Buffers of limited size

A buffer takes whole pieces as long as they fit. A piece that does not fit is dropped, and a flag
remembers that; a smaller piece behind it may still be taken. At the end the flag says exactly
whether all the pieces together are longer than the buffer.
-/

/-- What is in a buffer, and whether something was dropped. -/
structure Buffer (α : Type) (capacity : Nat) where
  filled : List α
  missed : Bool
  le : filled.length ≤ capacity

namespace Buffer

variable {α : Type} {capacity : Nat}

def empty : Buffer α capacity := ⟨[], false, Nat.zero_le _⟩

/-- Take a piece, or drop all of it. -/
def put (k : Buffer α capacity) (piece : List α) : Buffer α capacity :=
  if h : k.filled.length + piece.length ≤ capacity then
    ⟨k.filled ++ piece, k.missed, by rwa [List.length_append]⟩
  else { k with missed := true }

/-- One piece after the other. -/
def putAll (k : Buffer α capacity) (pieces : List (List α)) : Buffer α capacity := pieces.foldl put k

@[simp] theorem putAll_nil (k : Buffer α capacity) : k.putAll [] = k := rfl

@[simp] theorem putAll_cons (k : Buffer α capacity) (piece : List α) (pieces : List (List α)) :
    k.putAll (piece :: pieces) = (k.put piece).putAll pieces := rfl

theorem putAll_append (k : Buffer α capacity) (front back : List (List α)) :
    k.putAll (front ++ back) = (k.putAll front).putAll back := List.foldl_append

/-! ## One piece -/

theorem put_fits {k : Buffer α capacity} {piece : List α}
    (h : k.filled.length + piece.length ≤ capacity) :
    (k.put piece).filled = k.filled ++ piece ∧ (k.put piece).missed = k.missed := by
  rw [put, dif_pos h]
  exact ⟨rfl, rfl⟩

theorem put_dropped {k : Buffer α capacity} {piece : List α}
    (h : capacity < k.filled.length + piece.length) : k.put piece = { k with missed := true } :=
  dif_neg (Nat.not_le.mpr h)

/-! ## All of them -/

/-- The flag stays. -/
theorem putAll_missed (pieces : List (List α)) : ∀ {k : Buffer α capacity}, k.missed = true →
    (k.putAll pieces).missed = true := by
  induction pieces with
  | nil => exact id
  | cons piece pieces ih =>
    intro k h
    rw [putAll_cons]
    refine ih ?_
    by_cases hfits : k.filled.length + piece.length ≤ capacity
    · rw [(put_fits hfits).2, h]
    · rw [put_dropped (Nat.lt_of_not_le hfits)]

/-- Pieces that fit together are all taken. -/
theorem putAll_fits (pieces : List (List α)) : ∀ {k : Buffer α capacity},
    k.filled.length + pieces.flatten.length ≤ capacity →
      (k.putAll pieces).filled = k.filled ++ pieces.flatten ∧
        (k.putAll pieces).missed = k.missed := by
  induction pieces with
  | nil => exact fun _ => ⟨(List.append_nil _).symm, rfl⟩
  | cons piece pieces ih =>
    intro k h
    rw [List.flatten_cons, List.length_append] at h
    have hpiece : k.filled.length + piece.length ≤ capacity := by omega
    obtain ⟨hfilled, hmissed⟩ := put_fits hpiece
    have hrest : (k.put piece).filled.length + pieces.flatten.length ≤ capacity := by
      rw [hfilled, List.length_append]
      omega
    obtain ⟨hfilled', hmissed'⟩ := ih hrest
    rw [putAll_cons, hfilled', hmissed', hfilled, hmissed, List.flatten_cons, List.append_assoc]
    exact ⟨rfl, rfl⟩

/-- Without the flag everything is there. -/
theorem putAll_filled (pieces : List (List α)) : ∀ {k : Buffer α capacity},
    (k.putAll pieces).missed = false → (k.putAll pieces).filled = k.filled ++ pieces.flatten := by
  induction pieces with
  | nil => exact fun _ => (List.append_nil _).symm
  | cons piece pieces ih =>
    intro k h
    rw [putAll_cons] at h ⊢
    by_cases hfits : k.filled.length + piece.length ≤ capacity
    · rw [ih h, (put_fits hfits).1, List.flatten_cons, List.append_assoc]
    · have hmissed : (k.put piece).missed = true := by
        rw [put_dropped (Nat.lt_of_not_le hfits)]
      rw [putAll_missed pieces hmissed] at h
      exact absurd h (Bool.noConfusion)

/-- **The flag is exact**, whatever was dropped and whatever was taken after that. -/
theorem putAll_missed_iff {k : Buffer α capacity} (h : k.missed = false) (pieces : List (List α)) :
    (k.putAll pieces).missed = true ↔ capacity < k.filled.length + pieces.flatten.length := by
  constructor
  · intro hmissed
    by_contra hle
    rw [(putAll_fits pieces (Nat.le_of_not_lt hle)).2, h] at hmissed
    exact absurd hmissed (Bool.noConfusion)
  · intro hlt
    by_contra hnot
    have hfilled := putAll_filled pieces (Bool.eq_false_iff.mpr hnot)
    have hle := (k.putAll pieces).le
    rw [hfilled, List.length_append] at hle
    omega

end Buffer
