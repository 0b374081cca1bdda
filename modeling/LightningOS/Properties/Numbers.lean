import LightningOS.Lib.Numeral
import LightningOS.Properties.Format

/-!
# Numbers in formatted output

The digits that `format_uint` makes are those of the numeral. `format` puts a minus sign in
front of what `emit_padded` makes of the digits, so the sign is not counted in the width and
stands in front of the blanks. Without a minus sign, or when the digits fill the width, the
text is what it should be.
-/

namespace LightningOS.Printf

open CString Numeral

variable {strAt : UInt32 → List UInt8} {s : Sink} {args : Nat → UInt32}

/-! ## Digits -/

theorem tmpDigits_eq {base : UInt32} (hbase : 1 < base.toNat) (upper : Bool) (room : Nat) :
    ∀ {value : UInt32}, value.toNat < base.toNat ^ room →
      tmpDigits base upper room value =
        (Nat.digits base.toNat value.toNat).map (digitChar upper) := by
  induction room with
  | zero =>
    intro value hlt
    have hzero : value.toNat = 0 := by
      rw [Nat.pow_zero] at hlt
      omega
    rw [tmpDigits, hzero, Nat.digits_zero, List.map_nil]
  | succ room ih =>
    intro value hlt
    rw [tmpDigits]
    by_cases hzero : value = 0
    · rw [if_pos hzero, hzero, UInt32.toNat_zero, Nat.digits_zero, List.map_nil]
    · have hne : value.toNat ≠ 0 := fun h => hzero (UInt32.toNat_inj.mp h)
      have hdiv : (value / base).toNat < base.toNat ^ room := by
        rw [UInt32.toNat_div]
        exact Nat.div_lt_of_lt_mul (by rwa [Nat.pow_succ, Nat.mul_comm] at hlt)
      rw [if_neg hzero, ih hdiv, Nat.digits_eq_cons_digits_div hbase hne, List.map_cons,
        UInt32.toNat_mod, UInt32.toNat_div]

/-- **The digits of `format_uint` are the numeral.** -/
theorem formatUint_eq {base : UInt32} (hbase : 1 < base.toNat) (upper : Bool) (value : UInt32) :
    formatUint value base upper = numeral (digitChar upper) base.toNat value.toNat := by
  have hroom : value.toNat < base.toNat ^ 36 := by
    calc value.toNat < 2 ^ 32 := value.toNat_lt
      _ ≤ 2 ^ 36 := by decide
      _ ≤ base.toNat ^ 36 := Nat.pow_le_pow_left hbase 36
  unfold formatUint
  rw [tmpDigits_eq hbase upper 36 hroom]
  by_cases hzero : value = 0
  · rw [if_pos hzero, hzero, UInt32.toNat_zero, Nat.digits_zero, numeral_zero]
    cases upper <;> rfl
  · have hne : value.toNat ≠ 0 := fun h => hzero (UInt32.toNat_inj.mp h)
    rw [if_neg hzero, List.nil_append, numeral_of_ne_zero hne]

/-- The digit that a character stands for. -/
def digitValue (c : UInt8) : Nat :=
  if c ≤ 57 then c.toNat - 48 else if c ≤ 70 then c.toNat - 55 else c.toNat - 87

theorem digitValue_digitChar (upper : Bool) : ∀ d < 16, digitValue (digitChar upper d) = d := by
  cases upper <;> decide

/-- The text is the numeral of `n`: it is read back, without leading zeros. -/
structure IsNumeral (base : Nat) (upper : Bool) (n : Nat) (txt : List UInt8) : Prop where
  value : Nat.ofDigits base (txt.reverse.map digitValue) = n
  lead : txt.head? = some (ch '0') → txt = [ch '0']
  chars : ∀ c ∈ txt, ∃ d < base, digitChar upper d = c

theorem digitChar_zero (upper : Bool) : digitChar upper 0 = ch '0' := by
  cases upper <;> rfl

theorem numeral_isNumeral {base : Nat} (hbase : 1 < base) (hle : base ≤ 16) (upper : Bool)
    (n : Nat) : IsNumeral base upper n (numeral (digitChar upper) base n) := by
  have hvalue : ∀ d < base, digitValue (digitChar upper d) = d := fun d hd =>
    digitValue_digitChar upper d (by omega)
  have hdigit : ∀ d < base, digitChar upper d = digitChar upper 0 → d = 0 := by
    intro d hd heq
    rw [← hvalue d hd, heq, hvalue 0 (by omega)]
  refine ⟨ofDigits_numeral hbase hvalue n, fun hlead => ?_, fun c hc => mem_numeral hbase hc⟩
  rw [← digitChar_zero upper] at hlead ⊢
  rw [head_numeral hbase hdigit hlead, numeral_zero]

/-! ## The conversions -/

/-- The conversions of numbers. -/
inductive NumConv where
  | d | i | u | x | X

namespace NumConv

def char : NumConv → UInt8
  | .d => ch 'd'
  | .i => ch 'i'
  | .u => ch 'u'
  | .x => ch 'x'
  | .X => ch 'X'

def base : NumConv → Nat
  | .d | .i | .u => 10
  | .x | .X => 16

def upper : NumConv → Bool
  | .X => true
  | _ => false

/-- The number that a word stands for. -/
def value (c : NumConv) (v : UInt32) : Int :=
  match c with
  | .d | .i => v.toInt32.toInt
  | .u | .x | .X => v.toNat

def sign (c : NumConv) (v : UInt32) : List UInt8 := if c.value v < 0 then [ch '-'] else []

def digits (c : NumConv) (v : UInt32) : List UInt8 :=
  numeral (digitChar c.upper) c.base (c.value v).natAbs

end NumConv

theorem base_bounds (c : NumConv) : 10 ≤ c.base ∧ c.base ≤ 16 := by
  cases c <;> decide

theorem toInt32_cases (v : UInt32) :
    (v.toNat < 2147483648 ∧ v.toInt32.toInt = v.toNat) ∨
      (2147483648 ≤ v.toNat ∧ v.toInt32.toInt = (v.toNat : Int) - 4294967296) := by
  have h : v.toInt32.toInt =
      if 2 * v.toNat < 2 ^ 32 then (v.toNat : Int) else (v.toNat : Int) - (2 ^ 32 : Nat) :=
    BitVec.toInt_eq_toNat_cond v.toBitVec
  have hlt := v.toNat_lt
  split at h
  · exact .inl ⟨by omega, h⟩
  · exact .inr ⟨by omega, by rw [h]; norm_num⟩

theorem convert_number (c : NumConv) (s : Sink) (spec : Spec) (args : Nat → UInt32) :
    convert strAt s spec c.char args =
      (emitPadded (sinkPuts s (c.sign (args 0))) (c.digits (args 0)) spec.width spec.pad spec.left,
        fun i => args (i + 1)) := by
  have hsigned : ∀ c : NumConv, c = .d ∨ c = .i → ∀ v : UInt32,
      (v.toInt32 < 0 ∧ c.sign v = [ch '-'] ∧ formatUint (-v) 10 false = c.digits v) ∨
        (¬v.toInt32 < 0 ∧ c.sign v = [] ∧ formatUint v 10 false = c.digits v) := by
    intro c hc v
    have hvalue : c.value v = v.toInt32.toInt := by
      rcases hc with rfl | rfl <;> rfl
    have hdigits : c.digits v = numeral (digitChar false) 10 (c.value v).natAbs := by
      rcases hc with rfl | rfl <;> rfl
    have hneg : v.toInt32 < 0 ↔ v.toInt32.toInt < 0 := Int32.lt_iff_toInt_lt
    have hlt := v.toNat_lt
    rw [hdigits, formatUint_eq (by decide), formatUint_eq (by decide), hneg, NumConv.sign, hvalue]
    rcases toInt32_cases v with ⟨hsmall, hint⟩ | ⟨hbig, hint⟩
    · refine .inr ⟨by omega, if_neg (by omega), ?_⟩
      rw [hint, Int.natAbs_natCast]
      rfl
    · have hminus : (-v).toNat = v.toInt32.toInt.natAbs := by
        rw [UInt32.toNat_neg, hint, UInt32.size]
        omega
      refine .inl ⟨by omega, if_pos (by omega), ?_⟩
      rw [hminus]
      rfl
  cases c with
  | d =>
    rcases hsigned .d (.inl rfl) (args 0) with ⟨hneg, hsign, hdigits⟩ | ⟨hneg, hsign, hdigits⟩
    · rw [hsign, ← hdigits]
      exact if_pos hneg
    · rw [hsign, ← hdigits]
      exact if_neg hneg
  | i =>
    rcases hsigned .i (.inr rfl) (args 0) with ⟨hneg, hsign, hdigits⟩ | ⟨hneg, hsign, hdigits⟩
    · rw [hsign, ← hdigits]
      exact if_pos hneg
    · rw [hsign, ← hdigits]
      exact if_neg hneg
  | u =>
    have hdigits : formatUint (args 0) 10 false = NumConv.u.digits (args 0) :=
      formatUint_eq (by decide) false (args 0)
    rw [← hdigits]
    rfl
  | x =>
    have hdigits : formatUint (args 0) 16 false = NumConv.x.digits (args 0) :=
      formatUint_eq (by decide) false (args 0)
    rw [← hdigits]
    rfl
  | X =>
    have hdigits : formatUint (args 0) 16 true = NumConv.X.digits (args 0) :=
      formatUint_eq (by decide) true (args 0)
    rw [← hdigits]
    rfl

/-! ## Widths -/

theorem length_padText (txt : List UInt8) (width : Int32) (pad : UInt8) (left : Bool) :
    (padText txt width pad left).length = txt.length + padCount txt width := by
  unfold padText
  cases left with
  | true => rw [if_pos rfl, List.length_append, List.length_replicate]
  | false => rw [if_neg (by decide), List.length_append, List.length_replicate, Nat.add_comm]

/-- What sign and digits should be padded to: blanks stand behind them or in front of the sign,
and zeros stand between the two. -/
def padded (f : Flags) (sign digits : List UInt8) : List UInt8 :=
  if f.left then sign ++ digits ++ List.replicate (f.width - (sign ++ digits).length) (ch ' ')
  else if f.zero then
    sign ++ List.replicate (f.width - (sign ++ digits).length) (ch '0') ++ digits
  else List.replicate (f.width - (sign ++ digits).length) (ch ' ') ++ (sign ++ digits)

theorem length_padded (f : Flags) (sign digits : List UInt8) :
    (padded f sign digits).length = max f.width (sign ++ digits).length := by
  unfold padded
  split
  · rw [List.length_append, List.length_replicate]
    omega
  · split
    · simp only [List.length_append, List.length_replicate]
      omega
    · rw [List.length_append, List.length_replicate]
      omega

theorem toInt_ofNat_small {n : Nat} (h : n < 2147483648) : (Int32.ofNat n).toInt = n := by
  rw [Int32.toInt_ofNat', Int32.size, Int.bmod_def]
  omega

/-- A width that does not fit comes out smaller. -/
theorem toInt_ofNat_large {n : Nat} (h : 2147483648 ≤ n) : (Int32.ofNat n).toInt + 1 < n := by
  rw [Int32.toInt_ofNat', Int32.size, Int.bmod_def]
  omega

theorem length_digits (c : NumConv) (v : UInt32) : (c.digits v).length ≤ 10 := by
  obtain ⟨hbase, -⟩ := base_bounds c
  have hlt := v.toNat_lt
  have habs : (c.value v).natAbs < 10 ^ 10 := by
    cases c with
    | d | i =>
      rcases toInt32_cases v with ⟨hsmall, hint⟩ | ⟨hbig, hint⟩ <;>
        rw [NumConv.value, hint] <;> omega
    | u | x | X =>
      rw [NumConv.value, Int.natAbs_natCast]
      omega
  exact numeral_length_le (by omega) (by decide)
    (Nat.lt_of_lt_of_le habs (Nat.pow_le_pow_left hbase 10))

theorem padCount_eq {txt : List UInt8} {width : Nat} (htxt : txt.length ≤ 10)
    (hwidth : width < 2147483648) : padCount txt (Int32.ofNat width) = width - txt.length := by
  unfold padCount
  rw [toInt_ofNat_small hwidth, toInt_ofNat_small (by omega)]
  omega

theorem padCount_large {txt : List UInt8} {width : Nat} (htxt : txt.length ≤ 10)
    (hwidth : 2147483648 ≤ width) : txt.length + padCount txt (Int32.ofNat width) + 1 < width := by
  have hlarge := toInt_ofNat_large hwidth
  unfold padCount
  rw [toInt_ofNat_small (n := txt.length) (by omega)]
  omega

/-- Without a sign the width is kept. -/
theorem padText_padded (f : Flags) {digits : List UInt8} (hdigits : digits.length ≤ 10)
    (hwidth : f.width < 2147483648) :
    padText digits f.spec.width f.spec.pad f.spec.left = padded f [] digits := by
  have hcount : padCount digits f.spec.width = f.width - digits.length :=
    padCount_eq hdigits hwidth
  unfold padText padded
  rw [hcount]
  simp only [List.nil_append]
  have hleft : f.spec.left = f.left := rfl
  have hpad : f.spec.pad = if f.zero then ch '0' else ch ' ' := rfl
  rw [hleft, hpad]
  by_cases hl : f.left = true
  · rw [if_pos hl, if_pos hl]
  · rw [if_neg hl, if_neg hl]
    by_cases hz : f.zero = true
    · rw [if_pos hz, if_pos hz]
    · rw [if_neg hz, if_neg hz]

/-- A width that the digits fill asks for nothing. -/
theorem padded_filled {f : Flags} {digits : List UInt8} (hwidth : f.width ≤ digits.length)
    (sign : List UInt8) : padded f sign digits = sign ++ padded f [] digits := by
  have hnone : f.width - (sign ++ digits).length = 0 := by
    rw [List.length_append]
    omega
  have hnone' : f.width - digits.length = 0 := by omega
  unfold padded
  simp only [List.nil_append, hnone, hnone', List.replicate_zero, List.append_nil, ite_self]

/-- The text has the right length only when the width fits and no sign is left out of it. -/
theorem width_of_padded (f : Flags) {sign digits : List UInt8} (hsign : sign.length ≤ 1)
    (hdigits : digits.length ≤ 10)
    (h : sign ++ padText digits f.spec.width f.spec.pad f.spec.left = padded f sign digits) :
    f.width < 2147483648 ∧ (sign ≠ [] → f.width ≤ digits.length) := by
  have hlen := congrArg List.length h
  rw [List.length_append, length_padText, length_padded, List.length_append] at hlen
  have hfits : f.width < 2147483648 := by
    by_contra hbig
    have hlarge : digits.length + padCount digits f.spec.width + 1 < f.width :=
      padCount_large hdigits (Nat.not_lt.mp hbig)
    omega
  refine ⟨hfits, fun hne => ?_⟩
  have hcount : padCount digits f.spec.width = f.width - digits.length := padCount_eq hdigits hfits
  have hpos := List.length_pos_iff.mpr hne
  omega

theorem sign_cases (c : NumConv) (v : UInt32) :
    (c.value v < 0 ∧ c.sign v = [ch '-']) ∨ (¬c.value v < 0 ∧ c.sign v = []) := by
  by_cases h : c.value v < 0
  · exact .inl ⟨h, if_pos h⟩
  · exact .inr ⟨h, if_neg h⟩

theorem length_sign (c : NumConv) (v : UInt32) : (c.sign v).length ≤ 1 := by
  rcases sign_cases c v with ⟨-, hsign⟩ | ⟨-, hsign⟩ <;> rw [hsign]
  · exact Nat.le_refl 1
  · exact Nat.zero_le 1

theorem before_number (f : Flags) (c : NumConv) (rest : List UInt8) :
    f.Before (c.char :: rest) := by
  refine ⟨fun d hd => ?_, fun _ hd => ?_⟩
  · rw [List.head?_cons, Option.mem_some_iff] at hd
    rw [← hd]
    cases c <;> rfl
  · rw [List.head?_cons, Option.some.injEq] at hd
    cases c <;> exact absurd hd (by decide)

/-- **What a conversion of a number emits**: the numeral, padded to the width exactly when the
width fits into an `int` and no minus sign stands in front of the padding. -/
theorem format_number (strAt : UInt32 → List UInt8) (c : NumConv) (f : Flags)
    (args : Nat → UInt32) : ∃ text : List UInt8,
      (∀ (s : Sink) (rest : List UInt8),
        format strAt s (ch '%' :: (f.bytes ++ c.char :: rest)) args =
          format strAt (sinkPuts s text) rest fun i => args (i + 1)) ∧
      IsNumeral c.base c.upper (c.value (args 0)).natAbs (c.digits (args 0)) ∧
      (text = padded f (c.sign (args 0)) (c.digits (args 0)) ↔
        f.width < 2147483648 ∧ (c.value (args 0) < 0 → f.width ≤ (c.digits (args 0)).length)) := by
  obtain ⟨hbase, hle⟩ := base_bounds c
  have hdigits := length_digits c (args 0)
  refine ⟨c.sign (args 0) ++ padText (c.digits (args 0)) f.spec.width f.spec.pad f.spec.left,
    fun s rest => ?_, numeral_isNumeral (by omega) hle _ _, ?_⟩
  · have hchar : c.char ≠ 0 := by cases c <;> decide
    rw [format_flags (before_number f c rest) hchar, convert_number, emitPadded_eq,
      ← sinkPuts_append]
  · constructor
    · intro h
      obtain ⟨hfits, hfill⟩ := width_of_padded f (length_sign c (args 0)) hdigits h
      refine ⟨hfits, fun hneg => hfill ?_⟩
      rw [NumConv.sign, if_pos hneg]
      exact List.cons_ne_nil _ _
    · rintro ⟨hfits, hfill⟩
      rw [padText_padded f hdigits hfits]
      rcases sign_cases c (args 0) with ⟨hneg, hsign⟩ | ⟨-, hsign⟩
      · exact (padded_filled (hfill hneg) _).symm
      · rw [hsign, List.nil_append]

/-- The width 5. -/
def widthFive : Flags where
  left := false
  zero := false
  digits := [ch '5']
  isDigits := List.all_eq_true.mp rfl
  lead := by decide

/-- The blanks stand behind the minus sign, and there is one too many. -/
theorem sign_before_blanks :
    format (fun _ => []) (.console []) (ofString "%5d" ++ [0]) (fun _ => -7) =
        some (.console (ofString "-    7")) ∧
      padded widthFive [ch '-'] [ch '7'] = ofString "   -7" ∧
      ofString "-    7" ≠ ofString "   -7" := by
  have hfmt : ofString "%5d" ++ [0] = ch '%' :: (widthFive.bytes ++ NumConv.d.char :: [0]) := by
    decide
  refine ⟨?_, by decide, by decide⟩
  rw [hfmt, format_flags (before_number widthFive .d [0]) (by decide), format_end]
  rfl

end LightningOS.Printf
