import LightningOS.Kernel.Shell

/-!
# Splitting a line in place

`str_split` of `lib/string.c` with its pointers. The line stands in a buffer, `line` is the
place the scan has reached, and `argv` takes the places where the words start. The scan gives
`none` when it leaves the buffer.
-/

namespace LightningOS.StrSplit

open Shell

/-- Blanks the separators out, up to the next word. -/
def skipBlanks (buf : List UInt8) (line : Nat) : Option (List UInt8 × Nat) :=
  match h : buf[line]? with
  | none => none
  | some c => if isSpace c then skipBlanks (buf.set line 0) (line + 1) else some (buf, line)
termination_by buf.length - line
decreasing_by
  have hlt := (List.getElem?_eq_some_iff.mp h).1
  rw [List.length_set]
  omega

/-- Goes over a word, to the separator or the terminator behind it. -/
def skipWord (buf : List UInt8) (line : Nat) : Option Nat :=
  match h : buf[line]? with
  | none => none
  | some c => if c ≠ 0 ∧ isSpace c = false then skipWord buf (line + 1) else some line
termination_by buf.length - line
decreasing_by
  have hlt := (List.getElem?_eq_some_iff.mp h).1
  omega

/-- The loop of `str_split`, with the words found so far. -/
def splitLoop (maxArgs : Nat) (buf : List UInt8) (line : Nat) (argv : List Nat) :
    Option (List UInt8 × List Nat) :=
  match buf[line]? with
  | none => none
  | some c =>
    if c ≠ 0 ∧ argv.length < maxArgs then
      match skipBlanks buf line with
      | none => none
      | some (buf, line) =>
        match buf[line]? with
        | none => none
        | some c =>
          if c = 0 then some (buf, argv)
          else
            match skipWord buf line with
            | none => none
            | some stop => splitLoop maxArgs buf stop (argv ++ [line])
    else some (buf, argv)
termination_by maxArgs - argv.length
decreasing_by
  rw [List.length_append, List.length_singleton]
  omega

/-- The buffer that is left and the words. Their number is the result of the function. -/
def strSplit (buf : List UInt8) (maxArgs : Nat) : Option (List UInt8 × List Nat) :=
  splitLoop maxArgs buf 0 []

end LightningOS.StrSplit
