import LightningOS.Kernel.Printf

/-!
# Format strings

The scan of `format` over a format string: flags, width and letter of each conversion. Behind a
percent sign it looks for the terminator once, in front of the flags. When the string ends
behind them, the terminator is taken for the letter, and the scan leaves the string.
-/

namespace LightningOS.Printf

open CString

variable {strAt : UInt32 → List UInt8} {s : Sink} {args : Nat → UInt32} {p q : List UInt8}

/-! ## One turn of the loop -/

theorem format_end : format strAt s (0 :: p) args = some s := by
  rw [format, if_pos rfl]

theorem format_char {c : UInt8} (h0 : c ≠ 0) (hc : c ≠ ch '%') :
    format strAt s (c :: p) args = format strAt (sinkPutc s c) p args := by
  conv => lhs; rw [format]
  rw [if_neg h0, if_pos hc]

/-- A percent sign at the end of the string. -/
theorem format_percent : format strAt s (ch '%' :: 0 :: p) args = some s := by
  rw [format, if_neg (by decide), if_neg (by simp), if_pos List.head?_cons]

theorem format_conv {spec : Spec} {conv : UInt8} (h0 : p.head? ≠ some 0)
    (h : scanSpec p = some (spec, conv :: q)) :
    format strAt s (ch '%' :: p) args =
      format strAt (convert strAt s spec conv args).1 q (convert strAt s spec conv args).2 := by
  conv => lhs; rw [format]
  rw [if_neg (by decide), if_neg (by simp), if_neg h0]
  split
  next hnone => rw [h] at hnone; simp at hnone
  next hnil => rw [h] at hnil; simp at hnil
  next spec' conv' q' hsome =>
    rw [h] at hsome
    obtain ⟨rfl, hq⟩ := Prod.mk.inj (Option.some.inj hsome)
    obtain ⟨rfl, rfl⟩ := List.cons.inj hq
    rfl

/-- The scan has left the string. -/
theorem format_nil : format strAt s [] args = none := by
  rw [format]

/-! ## What is emitted -/

/-- The blanks or zeros that `emit_padded` adds. -/
def padCount (txt : List UInt8) (width : Int32) : Nat :=
  (width.toInt - (Int32.ofNat txt.length).toInt).toNat

/-- What `emit_padded` emits. -/
def padText (txt : List UInt8) (width : Int32) (pad : UInt8) (left : Bool) : List UInt8 :=
  if left then txt ++ List.replicate (padCount txt width) (ch ' ')
  else List.replicate (padCount txt width) pad ++ txt

theorem sinkPuts_append (s : Sink) (a b : List UInt8) :
    sinkPuts s (a ++ b) = sinkPuts (sinkPuts s a) b := List.foldl_append

theorem emitPadded_eq (s : Sink) (txt : List UInt8) (width : Int32) (pad : UInt8) (left : Bool) :
    emitPadded s txt width pad left = sinkPuts s (padText txt width pad left) := by
  unfold padText
  cases left with
  | true =>
    rw [if_pos rfl, sinkPuts_append]
    rfl
  | false =>
    rw [if_neg (by decide), sinkPuts_append]
    rfl

theorem sinkPutc_eq (s : Sink) (c : UInt8) : sinkPutc s c = sinkPuts s [c] := rfl

/-- What a conversion emits, and the arguments it leaves, do not depend on the sink. -/
theorem convert_emits (strAt : UInt32 → List UInt8) (spec : Spec) (conv : UInt8)
    (args : Nat → UInt32) : ∃ (text : List UInt8) (rest : Nat → UInt32), ∀ s : Sink,
      convert strAt s spec conv args = (sinkPuts s text, rest) := by
  unfold convert
  simp only [emitPadded_eq, sinkPutc_eq, ← sinkPuts_append]
  split
  · exact ⟨_, _, fun _ => rfl⟩
  split
  · exact ⟨_, _, fun _ => rfl⟩
  split
  · split
    · exact ⟨_, _, fun _ => rfl⟩
    · exact ⟨_, _, fun _ => rfl⟩
  split
  · exact ⟨_, _, fun _ => rfl⟩
  split
  · exact ⟨_, _, fun _ => rfl⟩
  split
  · exact ⟨_, _, fun _ => rfl⟩
  split
  · exact ⟨_, _, fun _ => rfl⟩
  split
  · exact ⟨_, _, fun _ => rfl⟩
  · exact ⟨_, _, fun _ => rfl⟩

/-! ## Flags and width -/

/-- Flags and width of a conversion, as they are written. A zero is a flag when it is the first
digit. -/
structure Flags where
  left : Bool
  zero : Bool
  digits : List UInt8
  isDigits : ∀ c ∈ digits, isDigit c = true
  lead : zero = false → digits.head? ≠ some (ch '0')

namespace Flags

def bytes (f : Flags) : List UInt8 :=
  (if f.left then [ch '-'] else []) ++ ((if f.zero then [ch '0'] else []) ++ f.digits)

/-- The number that the digits make. -/
def width (f : Flags) : Nat := f.digits.foldl (fun w c => w * 10 + (c.toNat - 48)) 0

def spec (f : Flags) : Spec where
  pad := if f.zero then ch '0' else ch ' '
  width := Int32.ofNat f.width
  left := f.left

/-- The scan takes the flags in front of `rest`, and no more. -/
structure Before (f : Flags) (rest : List UInt8) : Prop where
  digit : ∀ c ∈ rest.head?, isDigit c = false
  dash : f.bytes = [] → rest.head? ≠ some (ch '-')

end Flags

theorem scanWidth_digits {rest : List UInt8} (hne : rest ≠ [])
    (hrest : ∀ c ∈ rest.head?, isDigit c = false) : ∀ {digits : List UInt8} (w : Nat),
    (∀ c ∈ digits, isDigit c = true) → scanWidth (Int32.ofNat w) (digits ++ rest) =
      some (Int32.ofNat (digits.foldl (fun w c => w * 10 + (c.toNat - 48)) w), rest) := by
  intro digits
  induction digits with
  | nil =>
    intro w _
    obtain ⟨c, t, rfl⟩ := List.exists_cons_of_ne_nil hne
    rw [List.nil_append, scanWidth, if_neg (by rw [hrest c rfl]; decide)]
    rfl
  | cons d digits ih =>
    intro w hdigits
    rw [List.cons_append, scanWidth, if_pos (hdigits d List.mem_cons_self)]
    have hstep : Int32.ofNat w * 10 + Int32.ofNat (d.toNat - 48) =
        Int32.ofNat (w * 10 + (d.toNat - 48)) := by
      rw [Int32.ofNat_add, Int32.ofNat_mul]
      rfl
    rw [hstep, ih _ fun c hc => hdigits c (List.mem_cons_of_mem d hc)]
    rfl

theorem scanFlag_cons (c d : UInt8) (p : List UInt8) :
    scanFlag c (d :: p) = some (if d = c then (true, p) else (false, d :: p)) := rfl

/-- A flag that is there is taken, and one that is not is not. -/
theorem scanFlag_append {c : UInt8} (b : Bool) (hne : p ≠ []) (h : b = false → p.head? ≠ some c) :
    scanFlag c ((if b then [c] else []) ++ p) = some (b, p) := by
  cases b with
  | true =>
    rw [if_pos rfl, List.singleton_append, scanFlag_cons, if_pos rfl]
  | false =>
    obtain ⟨d, t, rfl⟩ := List.exists_cons_of_ne_nil hne
    have hd : d ≠ c := fun hd => h rfl (congrArg some hd)
    rw [if_neg (by decide), List.nil_append, scanFlag_cons, if_neg hd]

/-- **The scan of a conversion.** -/
theorem scanSpec_flags (f : Flags) {rest : List UInt8} (hne : rest ≠ []) (h : f.Before rest) :
    scanSpec (f.bytes ++ rest) = some (f.spec, rest) := by
  have hdigits : scanWidth 0 (f.digits ++ rest) = some (Int32.ofNat f.width, rest) :=
    scanWidth_digits hne h.digit 0 f.isDigits
  have hzero : scanFlag (ch '0') ((if f.zero then [ch '0'] else []) ++ (f.digits ++ rest)) =
      some (f.zero, f.digits ++ rest) := by
    refine scanFlag_append f.zero (List.append_ne_nil_of_right_ne_nil _ hne) fun hz hhead => ?_
    cases hd : f.digits with
    | nil =>
      rw [hd, List.nil_append] at hhead
      exact absurd (h.digit _ hhead) (by decide)
    | cons c t =>
      rw [hd, List.cons_append, List.head?_cons] at hhead
      exact f.lead hz (by rw [hd, List.head?_cons, hhead])
  have hleft : scanFlag (ch '-') (f.bytes ++ rest) =
      some (f.left, (if f.zero then [ch '0'] else []) ++ (f.digits ++ rest)) := by
    unfold Flags.bytes
    rw [List.append_assoc, List.append_assoc]
    refine scanFlag_append f.left (List.append_ne_nil_of_right_ne_nil _
      (List.append_ne_nil_of_right_ne_nil _ hne)) fun hl hhead => ?_
    cases hz : f.zero with
    | true =>
      rw [hz, if_pos rfl, List.singleton_append, List.head?_cons] at hhead
      exact absurd hhead (by decide)
    | false =>
      rw [hz, if_neg (by decide), List.nil_append] at hhead
      cases hd : f.digits with
      | nil =>
        rw [hd, List.nil_append] at hhead
        refine h.dash ?_ hhead
        rw [Flags.bytes, hl, hz, hd]
        rfl
      | cons c t =>
        rw [hd, List.cons_append, List.head?_cons, Option.some.injEq] at hhead
        have hdigit := f.isDigits c (hd ▸ List.mem_cons_self)
        rw [hhead] at hdigit
        exact absurd hdigit (by decide)
  unfold scanSpec
  rw [hleft]
  simp only [hzero, hdigits]
  rfl

/-- Every text begins with the flags of a conversion, perhaps none. -/
theorem exists_flags (p : List UInt8) : ∃ (f : Flags) (rest : List UInt8),
    p = f.bytes ++ rest ∧ f.Before rest := by
  have htake : ∀ (b : UInt8) (p : List UInt8), ∃ (flag : Bool) (q : List UInt8),
      p = (if flag then [b] else []) ++ q ∧ (flag = false → q.head? ≠ some b) := by
    intro b p
    by_cases hb : p.head? = some b
    · obtain ⟨q, rfl⟩ := List.head?_eq_some_iff.mp hb
      exact ⟨true, q, rfl, fun h => absurd h (by decide)⟩
    · exact ⟨false, p, rfl, fun _ => hb⟩
  obtain ⟨left, p₁, hp, hleft⟩ := htake (ch '-') p
  obtain ⟨zero, p₂, hp₁, hzero⟩ := htake (ch '0') p₁
  have hlead : zero = false → (p₂.takeWhile isDigit).head? ≠ some (ch '0') := by
    intro hz hhead
    obtain ⟨t, ht⟩ := List.head?_eq_some_iff.mp hhead
    refine hzero hz ?_
    rw [← List.takeWhile_append_dropWhile (p := isDigit) (l := p₂), ht]
    rfl
  have hparts : p = (if left then [ch '-'] else []) ++ ((if zero then [ch '0'] else []) ++
      p₂.takeWhile isDigit) ++ p₂.dropWhile isDigit := by
    rw [hp, hp₁, List.append_assoc, List.append_assoc, List.takeWhile_append_dropWhile]
  refine ⟨⟨left, zero, p₂.takeWhile isDigit, fun c hc => List.mem_takeWhile_imp hc, hlead⟩,
    p₂.dropWhile isDigit, hparts, fun c hc => ?_, fun hnil hhead => ?_⟩
  · have h := List.head?_dropWhile_not isDigit p₂
    rw [Option.mem_def.mp hc] at h
    simpa using h
  · -- without flags a dash would have been one
    unfold Flags.bytes at hnil
    rw [List.append_eq_nil_iff, List.append_eq_nil_iff] at hnil
    obtain ⟨hl, hz, hd⟩ := hnil
    have hfalse : left = false := by
      cases left with
      | true => simp at hl
      | false => rfl
    refine hleft hfalse ?_
    rw [hp₁]
    simp only at hz
    rw [hz, List.nil_append, ← List.takeWhile_append_dropWhile (p := isDigit) (l := p₂)]
    simp only at hd
    rw [hd, List.nil_append]
    exact hhead

/-! ## The end of the string -/

/-- The scan comes to a percent sign with flags or a width, and nothing behind them. -/
inductive Unfinished : List UInt8 → Prop
  | here (f : Flags) : f.bytes ≠ [] → Unfinished (ch '%' :: f.bytes)
  | char {c : UInt8} {rest : List UInt8} : c ≠ ch '%' → Unfinished rest → Unfinished (c :: rest)
  | conv {f : Flags} {c : UInt8} {rest : List UInt8} : f.Before (c :: rest) → Unfinished rest →
      Unfinished (ch '%' :: (f.bytes ++ c :: rest))

theorem Flags.zero_notMem (f : Flags) : 0 ∉ f.bytes := by
  unfold Flags.bytes
  intro h
  rcases List.mem_append.mp h with h | h
  · cases hl : f.left <;> rw [hl] at h <;> revert h <;> decide
  · rcases List.mem_append.mp h with h | h
    · cases hz : f.zero <;> rw [hz] at h <;> revert h <;> decide
    · exact absurd (f.isDigits 0 h) (by decide)

theorem head?_ne_zero {p : List UInt8} (h0 : 0 ∉ p) (rest : List UInt8) (hne : p ≠ []) :
    (p ++ rest).head? ≠ some 0 := by
  obtain ⟨c, t, rfl⟩ := List.exists_cons_of_ne_nil hne
  rw [List.cons_append, List.head?_cons, ne_eq, Option.some.injEq]
  exact fun hc => h0 (hc ▸ List.mem_cons_self)

theorem Flags.Before.append {f : Flags} {c : UInt8} {rest : List UInt8} (h : f.Before (c :: rest))
    (more : List UInt8) : f.Before (c :: more) :=
  ⟨fun d hd => h.digit d hd, fun hnil => h.dash hnil⟩

/-- A conversion in the middle of a string. -/
theorem format_flags {f : Flags} {c : UInt8} {rest : List UInt8} (h : f.Before (c :: rest))
    (hc : c ≠ 0) : format strAt s (ch '%' :: (f.bytes ++ c :: rest)) args =
      format strAt (convert strAt s f.spec c args).1 rest (convert strAt s f.spec c args).2 := by
  refine format_conv ?_ (scanSpec_flags f (List.cons_ne_nil c rest) h)
  by_cases hnil : f.bytes = []
  · rw [hnil, List.nil_append, List.head?_cons, ne_eq, Option.some.injEq]
    exact hc
  · exact head?_ne_zero f.zero_notMem _ hnil

/-- The terminator is taken for the letter. -/
theorem format_unfinished {f : Flags} (hne : f.bytes ≠ []) :
    format strAt s (ch '%' :: (f.bytes ++ [0])) args = none := by
  have hbefore : f.Before [0] := by
    refine ⟨fun c hc => ?_, fun hnil => absurd hnil hne⟩
    rw [List.head?_cons, Option.mem_some_iff] at hc
    exact hc ▸ by decide
  rw [format_conv (head?_ne_zero f.zero_notMem _ hne)
    (scanSpec_flags f (List.cons_ne_nil 0 []) hbefore), format_nil]

theorem Unfinished.format (h : Unfinished p) : 0 ∉ p → ∀ (s : Sink) (args : Nat → UInt32),
    Printf.format strAt s (p ++ [0]) args = none := by
  induction h with
  | here f hne => exact fun _ _ _ => format_unfinished hne
  | @char c rest hc _ ih =>
    intro h0 s args
    rw [List.cons_append, format_char (Ne.symm (List.ne_of_not_mem_cons h0)) hc]
    exact ih (List.not_mem_of_not_mem_cons h0) _ _
  | @conv f c rest hbefore _ ih =>
    intro h0 s args
    have h0' : 0 ∉ c :: rest := fun hmem =>
      h0 (List.mem_cons_of_mem _ (List.mem_append_right _ hmem))
    rw [List.cons_append, List.append_assoc, List.cons_append, format_flags (hbefore.append _)
      (Ne.symm (List.ne_of_not_mem_cons h0'))]
    exact ih (List.not_mem_of_not_mem_cons h0') _ _

theorem not_unfinished (h0 : 0 ∉ p) (h : (Printf.format strAt s (p ++ [0]) args).isSome) :
    ¬Unfinished p := by
  intro hun
  rw [hun.format h0 s args] at h
  exact absurd h (by decide)

/-- How a format string begins. -/
theorem format_cases (p : List UInt8) : p = [] ∨ p = [ch '%'] ∨
    (∃ f : Flags, f.bytes ≠ [] ∧ p = ch '%' :: f.bytes) ∨
    (∃ c rest, c ≠ ch '%' ∧ p = c :: rest) ∨
    ∃ (f : Flags) (c : UInt8) (rest : List UInt8), f.Before (c :: rest) ∧
      p = ch '%' :: (f.bytes ++ c :: rest) := by
  cases p with
  | nil => exact .inl rfl
  | cons c p =>
    by_cases hc : c = ch '%'
    · subst hc
      obtain ⟨f, rest, rfl, hbefore⟩ := exists_flags p
      cases rest with
      | nil =>
        rw [List.append_nil]
        by_cases hnil : f.bytes = []
        · rw [hnil]
          exact .inr (.inl rfl)
        · exact .inr (.inr (.inl ⟨f, hnil, rfl⟩))
      | cons d rest => exact .inr (.inr (.inr (.inr ⟨f, d, rest, hbefore, rfl⟩)))
    · exact .inr (.inr (.inr (.inl ⟨c, p, hc, rfl⟩)))

/-- Without an unfinished conversion the same text goes to every sink. -/
theorem format_finished (strAt : UInt32 → List UInt8) (n : Nat) : ∀ {p : List UInt8},
    p.length ≤ n → 0 ∉ p → ¬Unfinished p → ∀ args : Nat → UInt32,
      ∃ out : List UInt8, ∀ s : Sink, format strAt s (p ++ [0]) args = some (sinkPuts s out) := by
  induction n with
  | zero =>
    intro p hlen _ _ args
    rw [List.length_eq_zero_iff.mp (Nat.le_zero.mp hlen), List.nil_append]
    exact ⟨[], fun s => format_end⟩
  | succ n ih =>
    intro p hlen h0 hun args
    rcases format_cases p with
      rfl | rfl | ⟨f, hne, rfl⟩ | ⟨c, rest, hc, rfl⟩ | ⟨f, c, rest, hb, rfl⟩
    · exact ⟨[], fun s => format_end⟩
    · exact ⟨[], fun s => format_percent⟩
    · exact absurd (.here f hne) hun
    · rw [List.length_cons] at hlen
      obtain ⟨out, hout⟩ := ih (by omega) (List.not_mem_of_not_mem_cons h0)
        (fun h => hun (.char hc h)) args
      refine ⟨[c] ++ out, fun s => ?_⟩
      rw [List.cons_append, format_char (Ne.symm (List.ne_of_not_mem_cons h0)) hc, hout,
        sinkPuts_append]
      rfl
    · have h0' : 0 ∉ c :: rest := fun hmem =>
        h0 (List.mem_cons_of_mem _ (List.mem_append_right _ hmem))
      rw [List.length_cons, List.length_append, List.length_cons] at hlen
      obtain ⟨text, args', htext⟩ := convert_emits strAt f.spec c args
      obtain ⟨out, hout⟩ := ih (by omega) (List.not_mem_of_not_mem_cons h0')
        (fun h => hun (.conv hb h)) args'
      refine ⟨text ++ out, fun s => ?_⟩
      rw [List.cons_append, List.append_assoc, List.cons_append, format_flags (hb.append _)
        (Ne.symm (List.ne_of_not_mem_cons h0')), htext, hout, sinkPuts_append]

/-- **The scan stays in the format string, unless that ends in the middle of a conversion.** -/
theorem format_inside_iff (strAt : UInt32 → List UInt8) (s : Sink) (args : Nat → UInt32)
    {fmt : List UInt8} (h0 : 0 ∉ fmt) :
    (format strAt s (fmt ++ [0]) args).isSome ↔ ¬Unfinished fmt := by
  constructor
  · exact not_unfinished h0
  · intro hun
    obtain ⟨out, hout⟩ := format_finished strAt fmt.length (Nat.le_refl _) h0 hun args
    rw [hout s]
    rfl

theorem format_inside_iff_width : ¬Unfinished (ofString "%-5d") :=
  (format_inside_iff (fun _ => []) (.console []) (fun _ => 7) (by decide)).mp (by decide +kernel)

/-- A percent sign with a flag and a width at the end of the string. -/
theorem format_leaves : 0 ∉ ofString "%-5" ∧
    (format (fun _ => []) (.console []) (ofString "%-5" ++ [0]) (fun _ => 0)).isSome = false := by
  decide +kernel

end LightningOS.Printf
