/-!
# A heap of values

A `Store` maps addresses to values and knows an address above all it uses, so that it
can always be extended. Storing and erasing are the only ways to change it.
-/

/-- Finitely many addresses with a value each. -/
structure Store (α : Type) where
  get : Nat → Option α
  brk : Nat
  bound : ∀ p, brk ≤ p → get p = none

namespace Store

variable {α : Type}

def empty : Store α where
  get _ := none
  brk := 0
  bound _ _ := rfl

/-- Store `v` at `p`, whatever was there. -/
def set (s : Store α) (p : Nat) (v : α) : Store α where
  get q := if q = p then some v else s.get q
  brk := max s.brk (p + 1)
  bound q hq := by
    rw [if_neg (by omega)]
    exact s.bound q (by omega)

/-- Forget what is at `p`. -/
def erase (s : Store α) (p : Nat) : Store α where
  get q := if q = p then none else s.get q
  brk := s.brk
  bound q hq := by
    rw [s.bound q hq]
    split <;> rfl

@[simp] theorem get_empty (p : Nat) : (empty : Store α).get p = none := rfl

@[simp] theorem get_set_same (s : Store α) (p : Nat) (v : α) : (s.set p v).get p = some v :=
  if_pos rfl

theorem get_set_other {s : Store α} {p q : Nat} {v : α} (h : q ≠ p) :
    (s.set p v).get q = s.get q := if_neg h

@[simp] theorem get_erase_same (s : Store α) (p : Nat) : (s.erase p).get p = none := if_pos rfl

theorem get_erase_other {s : Store α} {p q : Nat} (h : q ≠ p) :
    (s.erase p).get q = s.get q := if_neg h

/-- A used address is below the bound. -/
theorem lt_brk {s : Store α} {p : Nat} {v : α} (h : s.get p = some v) : p < s.brk := by
  rcases Nat.lt_or_ge p s.brk with hlt | hge
  · exact hlt
  · rw [s.bound p hge] at h
    exact absurd h (by simp)

end Store
