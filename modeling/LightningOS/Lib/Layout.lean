import Mathlib.Data.Nat.Basic
import Mathlib.Data.UInt

/-!
# Byte layouts

Parts of a list at an offset, numbers as bytes, and the sum of the 16-bit words. A file format
is an append of parts, and `slice` finds a part again behind those in front of it.
-/

namespace Layout

/-! ## Parts -/

section Slices

variable {α : Type} {off n : Nat} {a b c : List α}

/-- The `n` elements at `off`. -/
def slice (off n : Nat) (l : List α) : List α := (l.drop off).take n

theorem slice_zero (n : Nat) (l : List α) : slice 0 n l = l.take n := rfl

theorem slice_append_right (h : a.length ≤ off) :
    slice off n (a ++ b) = slice (off - a.length) n b := by
  rw [slice, slice, List.drop_append, List.drop_eq_nil_of_le h, List.nil_append]

theorem slice_append_left (h : off + n ≤ a.length) : slice off n (a ++ b) = slice off n a := by
  rw [slice, slice, List.drop_append_of_le_length (by omega), List.take_append_of_le_length]
  rw [List.length_drop]
  omega

/-- A part behind `a`. -/
theorem slice_mid (ha : a.length = off) (hb : b.length = n) : slice off n (a ++ (b ++ c)) = b := by
  rw [slice_append_right (Nat.le_of_eq ha), ha, Nat.sub_self, slice_zero, ← hb, List.take_left]

/-- **A part of a list of parts.** -/
theorem slice_flatten {p q : List (List α)} {part tail : List α}
    (hoff : p.flatten.length = off) (hn : part.length = n) :
    slice off n ((p ++ part :: q).flatten ++ tail) = part := by
  rw [List.flatten_append, List.flatten_cons, List.append_assoc, List.append_assoc]
  exact slice_mid hoff hn

theorem slice_slice {m k : Nat} (h : k + m ≤ n) (l : List α) :
    slice k m (slice off n l) = slice (off + k) m l := by
  rw [slice, slice, slice, List.drop_take, List.take_take, List.drop_drop, Nat.min_eq_left]
  omega

end Slices

/-! ## Numbers -/

/-- A number as `width` bytes, the least one first. -/
def leBytes : Nat → Nat → List UInt8
  | 0, _ => []
  | width + 1, n => UInt8.ofNat n :: leBytes width (n / 256)

/-- The number that the bytes make. -/
def ofLe : List UInt8 → Nat
  | [] => 0
  | b :: bytes => b.toNat + 256 * ofLe bytes

theorem length_leBytes (width : Nat) : ∀ n : Nat, (leBytes width n).length = width := by
  induction width with
  | zero => exact fun _ => rfl
  | succ width ih => exact fun n => congrArg Nat.succ (ih _)

/-- **A number that fits is read back.** -/
theorem ofLe_leBytes (width : Nat) : ∀ {n : Nat}, n < 256 ^ width → ofLe (leBytes width n) = n := by
  induction width with
  | zero =>
    intro n h
    rw [Nat.pow_zero] at h
    rw [leBytes, ofLe]
    omega
  | succ width ih =>
    intro n h
    have hdiv : n / 256 < 256 ^ width := Nat.div_lt_of_lt_mul (by rwa [Nat.pow_succ'] at h)
    rw [leBytes, ofLe, ih hdiv, UInt8.toNat_ofNat']
    omega

/-! ## Words -/

/-- The sum of the 16-bit words. -/
def wordSum : List UInt8 → Nat
  | [] => 0
  | [_] => 0
  | lo :: hi :: rest => lo.toNat + 256 * hi.toNat + wordSum rest

theorem wordSum_append (k : Nat) : ∀ {a : List UInt8} (b : List UInt8), a.length = 2 * k →
    wordSum (a ++ b) = wordSum a + wordSum b := by
  induction k with
  | zero =>
    intro a b h
    rw [List.length_eq_zero_iff.mp h, List.nil_append, wordSum, Nat.zero_add]
  | succ k ih =>
    intro a b h
    match a, h with
    | lo :: hi :: rest, h =>
      have hrest : rest.length = 2 * k := by
        rw [List.length_cons, List.length_cons] at h
        omega
      have hsum := ih b hrest
      rw [List.cons_append, List.cons_append, wordSum, wordSum, hsum]
      omega

theorem wordSum_leBytes {n : Nat} (h : n < 65536) : wordSum (leBytes 2 n) = n := by
  rw [leBytes, leBytes, leBytes, wordSum, wordSum, UInt8.toNat_ofNat', UInt8.toNat_ofNat']
  omega

/-- **A word in place of a zero, to make the sum zero.** -/
theorem wordSum_checksum {a b : List UInt8} {k check : Nat} (ha : a.length = 2 * k)
    (hlt : check < 65536) (hcheck : (wordSum (a ++ ([0, 0] ++ b)) + check) % 65536 = 0) :
    wordSum (a ++ (leBytes 2 check ++ b)) % 65536 = 0 := by
  have hzero : wordSum [0, 0] = 0 := rfl
  rw [wordSum_append k _ ha, wordSum_append 1 _ rfl, hzero] at hcheck
  rw [wordSum_append k _ ha, wordSum_append 1 _ (length_leBytes 2 check), wordSum_leBytes hlt]
  omega

end Layout
