import Mathlib.Data.Nat.Bitwise

/-!
# FNV-1a on 32 bits

One step of the hash takes a byte into the low end of the state and multiplies by a prime.
The multiplication can be undone, so states that differ stay different. A difference in the
low byte alone spreads too far for the next byte to take it back.
-/

namespace Fnv

def prime : UInt32 := 16777619

/-- One byte. -/
def mix (h : UInt32) (b : UInt8) : UInt32 := (h ^^^ b.toUInt32) * prime

/-- The inverse of the prime. -/
def inverse : UInt32 := 899433627

theorem mul_prime_inj {x y : UInt32} (h : x * prime = y * prime) : x = y := by
  have hone : prime * inverse = 1 := by decide
  have hx := congrArg (· * inverse) h
  simpa only [UInt32.mul_assoc, hone, UInt32.mul_one] using hx

theorem xor_inj {x y b : UInt32} (h : x ^^^ b = y ^^^ b) : x = y := by
  have hx := congrArg (· ^^^ b) h
  simpa only [UInt32.xor_assoc, UInt32.xor_self, UInt32.xor_zero] using hx

/-- States that differ stay different. -/
theorem mix_inj {x y : UInt32} {b : UInt8} (h : mix x b = mix y b) : x = y :=
  xor_inj (mul_prime_inj h)

theorem foldl_mix_inj {x y : UInt32} : ∀ {bytes : List UInt8},
    bytes.foldl mix x = bytes.foldl mix y → x = y
  | [], h => h
  | _ :: _, h => mix_inj (foldl_mix_inj h)

/-- A byte changes the low end of a state only. -/
theorem high_xor (x : UInt32) (b : UInt8) : (x ^^^ b.toUInt32).toNat / 256 = x.toNat / 256 := by
  have hb := b.toNat_lt
  rw [UInt32.toNat_xor, UInt8.toNat_toUInt32]
  have hdiv := Nat.xor_div_two_pow (a := x.toNat) (b := b.toNat) (n := 8)
  rw [show (2 : Nat) ^ 8 = 256 from rfl, Nat.div_eq_of_lt (by omega : b.toNat < 256)] at hdiv
  rw [hdiv, Nat.xor_zero]

theorem byte_inj {x : UInt32} {b c : UInt8} (h : mix x b = mix x c) : b = c := by
  have hxor : x ^^^ b.toUInt32 = x ^^^ c.toUInt32 := mul_prime_inj h
  rw [UInt32.xor_comm x, UInt32.xor_comm x] at hxor
  exact UInt8.toUInt32_inj.mp (xor_inj hxor)

/-- States that differ in the low byte differ above it after the multiplication. -/
theorem high_mul {x y : UInt32} (hxy : x.toNat / 256 = y.toNat / 256)
    (h : (x * prime).toNat / 256 = (y * prime).toNat / 256) : x = y := by
  have hprime : prime.toNat = 16777619 := rfl
  rw [UInt32.toNat_mul, UInt32.toNat_mul, hprime] at h
  apply UInt32.toNat_inj.mp
  obtain ⟨i, hi⟩ : ∃ i, i = x.toNat * 16777619 / 4294967296 := ⟨_, rfl⟩
  obtain ⟨j, hj⟩ : ∃ j, j = y.toNat * 16777619 / 4294967296 := ⟨_, rfl⟩
  -- the prime is 2 ^ 24 + 403, and 403 times the difference is not seen up there
  have hm : ((x.toNat : Int) - y.toNat) - 256 * ((i : Int) - j) = 0 := by
    obtain ⟨m, hm⟩ : ∃ m, m = ((x.toNat : Int) - y.toNat) - 256 * ((i : Int) - j) := ⟨_, rfl⟩
    rw [← hm]
    have hdiff : -255 ≤ (x.toNat : Int) - y.toNat ∧ (x.toNat : Int) - y.toNat ≤ 255 := by omega
    have hsum : -255 ≤ 16777216 * m + 403 * ((x.toNat : Int) - y.toNat) ∧
        16777216 * m + 403 * ((x.toNat : Int) - y.toNat) ≤ 255 := by omega
    omega
  omega

/-- Two bytes, one after the other, cannot be changed to two others. -/
theorem two_inj {x : UInt32} {b₁ b₂ c₁ c₂ : UInt8}
    (h : mix (mix x b₁) b₂ = mix (mix x c₁) c₂) : b₁ = c₁ ∧ b₂ = c₂ := by
  -- the second bytes leave what is above the low byte alone
  have hxor := mul_prime_inj h
  have hhigh : (mix x b₁).toNat / 256 = (mix x c₁).toNat / 256 := by
    rw [← high_xor (mix x b₁) b₂, hxor, high_xor]
  have hlow : x ^^^ b₁.toUInt32 = x ^^^ c₁.toUInt32 :=
    high_mul ((high_xor x b₁).trans (high_xor x c₁).symm) hhigh
  obtain rfl := byte_inj (congrArg (· * prime) hlow : mix x b₁ = mix x c₁)
  exact ⟨rfl, byte_inj h⟩

/-- **A change of one byte, or of two adjacent ones, shows.** -/
theorem foldl_mix_differs {x : UInt32} {pre old new post : List UInt8} (hlen : old.length = new.length)
    (htwo : old.length ≤ 2) (hne : old ≠ new) :
    (pre ++ old ++ post).foldl mix x ≠ (pre ++ new ++ post).foldl mix x := by
  intro h
  simp only [List.foldl_append] at h
  have heq := foldl_mix_inj h
  match old, new, hlen, htwo with
  | [], [], _, _ => exact hne rfl
  | [b], [c], _, _ => exact hne (congrArg (fun b => [b]) (byte_inj heq))
  | [b₁, b₂], [c₁, c₂], _, _ =>
    obtain ⟨rfl, rfl⟩ := two_inj heq
    exact hne rfl

end Fnv
