import Mathlib.Algebra.Ring.Nat
import Mathlib.Data.Nat.Basic
import Mathlib.Logic.Basic

/-!
# Byte-addressed memory

A memory is a total map from addresses to bytes. Words of 32 bits are stored in
little-endian order. The lemmas say what a load returns after a store to the same
address, and which bytes a store leaves alone.
-/

namespace ByteMemory

/-- The contents of memory, byte by byte. -/
abbrev Memory := Nat → UInt8

/-- Reduction of an address or a length to 32 bits. -/
def wrap32 (n : Nat) : Nat := n % 4294967296

theorem wrap32_of_lt {n : Nat} (h : n < 4294967296) : wrap32 n = n := Nat.mod_eq_of_lt h

/-- Write one byte. -/
def store8 (m : Memory) (a : Nat) (v : UInt8) : Memory :=
  fun x => if x = a then v else m x

/-- Read a little-endian word. -/
def load32 (m : Memory) (a : Nat) : Nat :=
  (m a).toNat + 256 * (m (a + 1)).toNat + 65536 * (m (a + 2)).toNat
    + 16777216 * (m (a + 3)).toNat

/-- Write a little-endian word. -/
def store32 (m : Memory) (a v : Nat) : Memory :=
  fun x =>
    if x = a then UInt8.ofNat v
    else if x = a + 1 then UInt8.ofNat (v / 256)
    else if x = a + 2 then UInt8.ofNat (v / 65536)
    else if x = a + 3 then UInt8.ofNat (v / 16777216)
    else m x

/-! ## What a store changes -/

theorem store8_same (m : Memory) (a : Nat) (v : UInt8) : store8 m a v a = v := by
  simp [store8]

theorem store8_other {m : Memory} {a x : Nat} {v : UInt8} (h : x ≠ a) :
    store8 m a v x = m x := by
  simp [store8, h]

theorem store32_other {m : Memory} {a v x : Nat} (h : x < a ∨ a + 4 ≤ x) :
    store32 m a v x = m x := by
  unfold store32
  rw [if_neg (by omega), if_neg (by omega), if_neg (by omega), if_neg (by omega)]

/-! ## What a load sees -/

/-- A word only depends on its own four bytes. -/
theorem load32_congr {m m' : Memory} {a : Nat}
    (h : ∀ x, a ≤ x → x < a + 4 → m x = m' x) : load32 m a = load32 m' a := by
  unfold load32
  rw [h a (by omega) (by omega), h (a + 1) (by omega) (by omega),
    h (a + 2) (by omega) (by omega), h (a + 3) (by omega) (by omega)]

theorem load32_lt (m : Memory) (a : Nat) : load32 m a < 4294967296 := by
  have h0 := (m a).toNat_lt
  have h1 := (m (a + 1)).toNat_lt
  have h2 := (m (a + 2)).toNat_lt
  have h3 := (m (a + 3)).toNat_lt
  unfold load32
  omega

theorem load32_store32_same (m : Memory) (a v : Nat) :
    load32 (store32 m a v) a = wrap32 v := by
  have h0 : store32 m a v a = UInt8.ofNat v := by simp [store32]
  have h1 : store32 m a v (a + 1) = UInt8.ofNat (v / 256) := by simp [store32]
  have h2 : store32 m a v (a + 2) = UInt8.ofNat (v / 65536) := by simp [store32]
  have h3 : store32 m a v (a + 3) = UInt8.ofNat (v / 16777216) := by simp [store32]
  unfold load32 wrap32
  rw [h0, h1, h2, h3]
  simp only [UInt8.toNat_ofNat']
  omega

theorem load32_store32_other {m : Memory} {a v x : Nat} (h : x + 4 ≤ a ∨ a + 4 ≤ x) :
    load32 (store32 m a v) x = load32 m x :=
  load32_congr fun y h1 h2 => store32_other (by omega)

theorem load32_store8_other {m : Memory} {a x : Nat} {v : UInt8} (h : x + 4 ≤ a ∨ a < x) :
    load32 (store8 m a v) x = load32 m x :=
  load32_congr fun y h1 h2 => store8_other (by omega)

end ByteMemory
