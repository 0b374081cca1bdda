import Mathlib.Algebra.Ring.Nat
import Mathlib.Data.List.TakeWhile

/-!
# C strings

A character buffer is a list of bytes and its text ends before the first zero byte. The
functions of `lib/string.c` are given by what they do to the text.
-/

namespace CString

/-- The text in a buffer. -/
def text (buf : List UInt8) : List UInt8 := buf.takeWhile (· != 0)

/-- The `n` bytes that `strncpy(dst, src, n)` writes. -/
def strncpy (src : List UInt8) (n : Nat) : List UInt8 :=
  (text src).take n ++ List.replicate (n - (text src).length) 0

theorem zero_notMem_text (buf : List UInt8) : (0 : UInt8) ∉ text buf := by
  intro h
  simpa using List.mem_takeWhile_imp h

/-- The text of a buffer ends at the terminator. -/
theorem text_terminated {w : List UInt8} (h0 : (0 : UInt8) ∉ w) (rest : List UInt8) :
    text (w ++ 0 :: rest) = w := by
  have hne : ∀ c ∈ w, (c != 0) = true := by
    intro c hc
    rw [bne_iff_ne]
    rintro rfl
    exact h0 hc
  rw [text, List.takeWhile_append_of_pos hne, List.takeWhile_cons_of_neg (by simp), List.append_nil]

/-- `strncpy` keeps the first `n` bytes, if a terminator is put behind them. -/
theorem strncpy_terminated (src : List UInt8) (n : Nat) (rest : List UInt8) :
    ∃ more, strncpy src n ++ 0 :: rest = (text src).take n ++ 0 :: more := by
  rw [strncpy, List.append_assoc]
  cases n - (text src).length with
  | zero => exact ⟨rest, rfl⟩
  | succ k => exact ⟨List.replicate k 0 ++ 0 :: rest, rfl⟩

theorem text_strncpy (src : List UInt8) (n : Nat) (rest : List UInt8) :
    text (strncpy src n ++ 0 :: rest) = (text src).take n := by
  obtain ⟨more, hmore⟩ := strncpy_terminated src n rest
  rw [hmore]
  exact text_terminated (fun h => zero_notMem_text src (List.mem_of_mem_take h)) more

theorem strncpy_length (src : List UInt8) (n : Nat) : (strncpy src n).length = n := by
  rw [strncpy, List.length_append, List.length_take, List.length_replicate]
  omega

/-- The bytes of a literal. -/
def ofString (s : String) : List UInt8 := s.toList.map fun c => UInt8.ofNat c.toNat

end CString
