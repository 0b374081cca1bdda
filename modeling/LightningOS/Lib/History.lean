import Mathlib.Algebra.NeZero
import Mathlib.Algebra.Ring.Nat
import Mathlib.Data.List.Basic
import Mathlib.Logic.Function.Basic

/-!
# A bounded history

An array of `n` slots that is written round and round keeps the last `n` of the values
that were pushed into it. The value that was pushed as number `i` is in slot `i % n`, as
long as it is kept.
-/

namespace LightningOS.History

variable {α : Type} {n head count : Nat} [NeZero n] {slots : Fin n → α} {pushed : List α}

/-- The slots hold the last `n` of the values pushed, and `head` is the next one to
write. -/
structure Holds (slots : Fin n → α) (head count : Nat) (pushed : List α) : Prop where
  head_eq : head = pushed.length % n
  count_eq : count = min n pushed.length
  kept : ∀ i, i < pushed.length → pushed.length ≤ i + n →
    pushed[i]? = some (slots (Fin.ofNat n i))

theorem Holds.nil (slots : Fin n → α) : Holds slots 0 0 [] where
  head_eq := by simp
  count_eq := by simp
  kept := by simp

theorem Holds.head_lt (h : Holds slots head count pushed) : head < n := by
  rw [h.head_eq]
  exact Nat.mod_lt _ (Nat.pos_of_neZero n)

/-- Numbers less than `n` apart have slots of their own. -/
theorem ofNat_ne {i j : Nat} (hij : i < j) (hn : j < i + n) : Fin.ofNat n i ≠ Fin.ofNat n j := by
  intro h
  have hmod : i % n = j % n := congrArg Fin.val h
  have hdvd : (j - i) % n = 0 := Nat.sub_mod_eq_zero_of_mod_eq hmod.symm
  rw [Nat.mod_eq_of_lt (by omega)] at hdvd
  omega

/-- **Pushing overwrites the oldest value and nothing else.** -/
theorem Holds.push (h : Holds slots head count pushed) (x : α) :
    Holds (Function.update slots (Fin.ofNat n head) x) ((head + 1) % n)
      (if count < n then count + 1 else count) (pushed ++ [x]) where
  head_eq := by
    rw [h.head_eq]
    simp
  count_eq := by
    rw [h.count_eq, List.length_append, List.length_singleton]
    split <;> omega
  kept := by
    intro i hi hle
    have hslot : Fin.ofNat n head = Fin.ofNat n pushed.length := by
      rw [h.head_eq]
      exact Fin.ext (Nat.mod_mod _ _)
    rw [hslot]
    rw [List.length_append, List.length_singleton] at hi hle
    by_cases hlast : i = pushed.length
    · subst hlast
      simp
    · have hlt : i < pushed.length := by omega
      rw [List.getElem?_append_left hlt, Function.update_of_ne (ofNat_ne hlt (by omega))]
      exact h.kept i hlt (by omega)

end LightningOS.History
