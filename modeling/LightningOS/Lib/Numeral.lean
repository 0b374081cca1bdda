import Mathlib.Data.Nat.Digits.Lemmas

/-!
# Numerals

The numeral of a number in a base, most significant digit first, over any characters for the
digits. It is read back, and it has no leading zero.
-/

namespace Numeral

variable {α : Type} (digit : Nat → α) (base : Nat)

/-- The numeral of `n`. That of zero has one digit. -/
def numeral (n : Nat) : List α :=
  if n = 0 then [digit 0] else ((Nat.digits base n).map digit).reverse

variable {digit base}

theorem numeral_zero : numeral digit base 0 = [digit 0] := if_pos rfl

theorem numeral_of_ne_zero {n : Nat} (h : n ≠ 0) :
    numeral digit base n = ((Nat.digits base n).map digit).reverse := if_neg h

theorem numeral_ne_nil (n : Nat) : numeral digit base n ≠ [] := by
  by_cases hn : n = 0
  · rw [hn, numeral_zero]
    exact List.cons_ne_nil _ _
  · rw [numeral_of_ne_zero hn, Ne, List.reverse_eq_nil_iff, List.map_eq_nil_iff]
    exact Nat.digits_ne_nil_iff_ne_zero.mpr hn

theorem numeral_length_le (hbase : 1 < base) {n k : Nat} (hk : 1 ≤ k) (h : n < base ^ k) :
    (numeral digit base n).length ≤ k := by
  by_cases hn : n = 0
  · rw [hn, numeral_zero]
    exact hk
  · rw [numeral_of_ne_zero hn, List.length_reverse, List.length_map]
    exact (Nat.digits_length_le_iff hbase n).mpr h

theorem mem_numeral (hbase : 1 < base) {n : Nat} {c : α} (h : c ∈ numeral digit base n) :
    ∃ d < base, digit d = c := by
  by_cases hn : n = 0
  · rw [hn, numeral_zero, List.mem_singleton] at h
    exact ⟨0, by omega, h.symm⟩
  · rw [numeral_of_ne_zero hn, List.mem_reverse, List.mem_map] at h
    obtain ⟨d, hd, hc⟩ := h
    exact ⟨d, Nat.digits_lt_base hbase hd, hc⟩

/-- **A numeral is read back.** -/
theorem ofDigits_numeral (hbase : 1 < base) {value : α → Nat}
    (hvalue : ∀ d < base, value (digit d) = d) (n : Nat) :
    Nat.ofDigits base ((numeral digit base n).reverse.map value) = n := by
  by_cases h : n = 0
  · rw [h, numeral_zero, List.reverse_singleton, List.map_singleton, hvalue 0 (by omega)]
    rfl
  · have hmap : ((Nat.digits base n).map digit).map value = Nat.digits base n := by
      rw [List.map_map]
      refine (List.map_congr_left fun d hd => ?_).trans (List.map_id _)
      exact hvalue d (Nat.digits_lt_base hbase hd)
    rw [numeral_of_ne_zero h, List.reverse_reverse, hmap, Nat.ofDigits_digits]

/-- Only the numeral of zero starts with a zero. -/
theorem head_numeral (hbase : 1 < base) (hdigit : ∀ d < base, digit d = digit 0 → d = 0) {n : Nat}
    (h : (numeral digit base n).head? = some (digit 0)) : n = 0 := by
  by_contra hn
  have hne : Nat.digits base n ≠ [] := Nat.digits_ne_nil_iff_ne_zero.mpr hn
  rw [numeral_of_ne_zero hn, List.head?_reverse, List.getLast?_map,
    List.getLast?_eq_some_getLast hne, Option.map_some, Option.some.injEq] at h
  have hlt := Nat.digits_lt_base hbase (List.getLast_mem hne)
  exact Nat.getLast_digit_ne_zero base hn (hdigit _ hlt h)

end Numeral
