import LightningOS.Lib.CString
import LightningOS.Lib.Memory
import Mathlib.Data.UInt

/-!
# Formatted output

`lib/printf.c`. The scan pointer is what is left of the format string, with the terminator at
its end, and a read behind the terminator gives `none`. The arguments are the words on the
stack, and `strAt` gives the string at an address, which is outside of the buffer that is
written. A width that does not fit into an `int` wraps around.
-/

namespace LightningOS.Printf

open ByteMemory CString

/-- The byte of a character. -/
def ch (c : Char) : UInt8 := UInt8.ofNat c.toNat

/-- A `sink_t`: the console, with what came out of it, or a buffer. `log` has the places in the
buffer that were written to. -/
inductive Sink where
  | console (out : List UInt8)
  | buffer (mem : Memory) (size pos : UInt32) (log : List Nat)

def sinkPutc (s : Sink) (c : UInt8) : Sink :=
  match s with
  | .console out => .console (out ++ [c])
  | .buffer mem size pos log =>
    if pos + 1 < size then .buffer (store8 mem pos.toNat c) size (pos + 1) (pos.toNat :: log)
    else .buffer mem size (pos + 1) log

def sinkPuts (s : Sink) (str : List UInt8) : Sink := str.foldl sinkPutc s

/-- A digit of `digits_lower` or `digits_upper`. -/
def digitChar (upper : Bool) (digit : Nat) : UInt8 :=
  (ofString (if upper then "0123456789ABCDEF" else "0123456789abcdef")).getD digit 0

/-- The digits in `tmp`, the last one first. There is room for 36. -/
def tmpDigits (base : UInt32) (upper : Bool) : Nat → UInt32 → List UInt8
  | 0, _ => []
  | room + 1, value =>
    if value = 0 then []
    else digitChar upper (value % base).toNat :: tmpDigits base upper room (value / base)

def formatUint (value base : UInt32) (upper : Bool) : List UInt8 :=
  ((if value = 0 then [ch '0'] else []) ++ tmpDigits base upper 36 value).reverse

/-- `for (int i = len; i < width; i++) sink_putc(s, c);` -/
def sinkPad (s : Sink) (c : UInt8) (len width : Int32) : Sink :=
  (List.replicate (width.toInt - len.toInt).toNat c).foldl sinkPutc s

def emitPadded (s : Sink) (txt : List UInt8) (width : Int32) (pad : UInt8) (left : Bool) : Sink :=
  let len := Int32.ofNat txt.length
  if left then sinkPad (sinkPuts s txt) (ch ' ') len width
  else sinkPuts (sinkPad s pad len width) txt

/-- What stands between the percent sign and the letter of a conversion. -/
structure Spec where
  pad : UInt8
  width : Int32
  left : Bool

/-- `if (*p == c) p++;` -/
def scanFlag (c : UInt8) : List UInt8 → Option (Bool × List UInt8)
  | [] => none
  | d :: p => some (if d = c then (true, p) else (false, d :: p))

def isDigit (c : UInt8) : Bool := 48 ≤ c && c ≤ 57

def scanWidth (width : Int32) : List UInt8 → Option (Int32 × List UInt8)
  | [] => none
  | c :: p =>
    if isDigit c then scanWidth (width * 10 + Int32.ofNat (c.toNat - 48)) p
    else some (width, c :: p)

def scanSpec (p : List UInt8) : Option (Spec × List UInt8) :=
  match scanFlag (ch '-') p with
  | none => none
  | some (left, p) =>
    match scanFlag (ch '0') p with
    | none => none
    | some (zero, p) =>
      match scanWidth 0 p with
      | none => none
      | some (width, p) =>
        some ({ pad := if zero then ch '0' else ch ' ', width := width, left := left }, p)

variable (strAt : UInt32 → List UInt8)

/-- The switch over the letter, with the arguments that are left. -/
def convert (s : Sink) (spec : Spec) (conv : UInt8) (args : Nat → UInt32) :
    Sink × (Nat → UInt32) :=
  let arg := args 0
  let rest := fun i => args (i + 1)
  if conv = ch 'c' then (sinkPutc s arg.toUInt8, rest)
  else if conv = ch 's' then
    let str := if arg = 0 then ofString "(null)" else strAt arg
    (emitPadded s str spec.width (ch ' ') spec.left, rest)
  else if conv = ch 'd' ∨ conv = ch 'i' then
    if arg.toInt32 < 0 then
      (emitPadded (sinkPutc s (ch '-')) (formatUint (-arg) 10 false) spec.width spec.pad spec.left,
        rest)
    else (emitPadded s (formatUint arg 10 false) spec.width spec.pad spec.left, rest)
  else if conv = ch 'u' then
    (emitPadded s (formatUint arg 10 false) spec.width spec.pad spec.left, rest)
  else if conv = ch 'x' then
    (emitPadded s (formatUint arg 16 false) spec.width spec.pad spec.left, rest)
  else if conv = ch 'X' then
    (emitPadded s (formatUint arg 16 true) spec.width spec.pad spec.left, rest)
  else if conv = ch 'p' then
    (emitPadded (sinkPuts s (ofString "0x")) (formatUint arg 16 false) 8 (ch '0') false, rest)
  else if conv = ch '%' then (sinkPutc s (ch '%'), args)
  else (sinkPutc (sinkPutc s (ch '%')) conv, args)

theorem scanFlag_length {c : UInt8} {p q : List UInt8} {b : Bool} (h : scanFlag c p = some (b, q)) :
    q.length ≤ p.length := by
  cases p with
  | nil => simp [scanFlag] at h
  | cons d p =>
    simp only [scanFlag, Option.some.injEq] at h
    split at h
    · obtain ⟨-, rfl⟩ := Prod.mk.inj h
      exact Nat.le_succ _
    · obtain ⟨-, rfl⟩ := Prod.mk.inj h
      exact Nat.le_refl _

theorem scanWidth_length : ∀ {p q : List UInt8} {w w' : Int32}, scanWidth w p = some (w', q) →
    q.length ≤ p.length := by
  intro p
  induction p with
  | nil => intro q w w' h; simp [scanWidth] at h
  | cons c p ih =>
    intro q w w' h
    rw [scanWidth] at h
    split at h
    · exact Nat.le_succ_of_le (ih h)
    · obtain ⟨-, rfl⟩ := Prod.mk.inj (Option.some.inj h)
      exact Nat.le_refl _

theorem scanSpec_length {p q : List UInt8} {spec : Spec} (h : scanSpec p = some (spec, q)) :
    q.length ≤ p.length := by
  unfold scanSpec at h
  split at h
  · simp at h
  next p₁ h₁ =>
    split at h
    · simp at h
    next p₂ h₂ =>
      split at h
      · simp at h
      next p₃ h₃ =>
        obtain ⟨-, rfl⟩ := Prod.mk.inj (Option.some.inj h)
        exact (scanWidth_length h₃).trans ((scanFlag_length h₂).trans (scanFlag_length h₁))

def format (s : Sink) (p : List UInt8) (args : Nat → UInt32) : Option Sink :=
  match p with
  | [] => none
  | c :: p =>
    if c = 0 then some s
    else if c ≠ ch '%' then format (sinkPutc s c) p args
    else if p.head? = some 0 then some s
    else
      match h : scanSpec p with
      | none => none
      | some (_, []) => none
      | some (spec, conv :: q) =>
        match convert strAt s spec conv args with
        | (s, args) => format s q args
termination_by p.length
decreasing_by
  · exact Nat.lt_succ_self _
  · have hle := scanSpec_length h
    simp only [List.length_cons] at hle ⊢
    omega

/-- What comes out of the console. -/
def kprintf (fmt : List UInt8) (args : Nat → UInt32) : Option Sink :=
  format strAt (.console []) (fmt ++ [0]) args

/-- The end of `kvsnprintf`. -/
def terminate : Sink → Sink
  | .console out => .console out
  | .buffer mem size pos log =>
    if size = 0 then .buffer mem size pos log
    else
      let i := if pos < size then pos else size - 1
      .buffer (store8 mem i.toNat 0) size pos (i.toNat :: log)

/-- `ksnprintf` into the memory from `buf` on. -/
def ksnprintf (mem : Memory) (size : UInt32) (fmt : List UInt8) (args : Nat → UInt32) :
    Option Sink :=
  (format strAt (.buffer mem size 0 []) (fmt ++ [0]) args).map terminate

end LightningOS.Printf
