import LightningOS.Fs.Ramfs

/-!
# `walk`, index by index

The loop of `walk` as it is written, with the arrays `buffer` and `component`, the caller's
array `last`, and the indices `i`, `j` and `len`. A read or a write outside of an array is a
fault. The text that `walkLoop` gives back stands for what `last` holds.
-/

namespace LightningOS.Ramfs

open CString

/-- The array `buffer`. -/
def pathBuffer (path : List UInt8) : List UInt8 := strncpy path (fsPathMax - 1) ++ [0]

/-- Writes one byte. -/
def poke (array : List UInt8) (i : Nat) (c : UInt8) : Option (List UInt8) :=
  if i < array.length then some (array.set i c) else none

/-- `while (buffer[i] == '/') i++;` -/
def skipSlashesAt (buffer : List UInt8) : Nat → Nat → Option Nat
  | 0, _ => none
  | fuel + 1, i =>
    match buffer[i]? with
    | none => none
    | some c => if c = slash then skipSlashesAt buffer fuel (i + 1) else some i

/-- The loop that fills `component`. The result is `i`, the array and `len`. -/
def copyAt (buffer : List UInt8) : Nat → Nat → List UInt8 → Nat → Option (Nat × List UInt8 × Nat)
  | 0, _, _, _ => none
  | fuel + 1, i, component, len =>
    match buffer[i]? with
    | none => none
    | some c =>
      if c ≠ 0 ∧ c ≠ slash ∧ len < fsNameMax - 1 then
        match poke component len c with
        | none => none
        | some component => copyAt buffer fuel (i + 1) component (len + 1)
      else some (i, component, len)

/-- `while (buffer[i] && buffer[i] != '/') i++;` -/
def skipTailAt (buffer : List UInt8) : Nat → Nat → Option Nat
  | 0, _ => none
  | fuel + 1, i =>
    match buffer[i]? with
    | none => none
    | some c => if c ≠ 0 ∧ c ≠ slash then skipTailAt buffer fuel (i + 1) else some i

/-- Reads a component into an array that holds `junk`. The result is the index behind it,
its text, and whether it is the last one. -/
def componentAt (buffer junk : List UInt8) (i : Nat) : Option (Nat × List UInt8 × Bool) := do
  let (i, component, len) ← copyAt buffer fsPathMax i junk 0
  let component ← poke component len 0
  let i ← skipTailAt buffer fsPathMax i
  let j ← skipSlashesAt buffer fsPathMax i
  let c ← buffer[j]?
  pure (i, text component, c = 0)

/-- `strncpy(array, src, n)`: the bytes behind the first `n` stay as they are. -/
def strncpyInto (array src : List UInt8) (n : Nat) : Option (List UInt8) :=
  if n ≤ array.length then some (strncpy src n ++ array.drop n) else none

/-- `if (last) last[0] = '\0';` -/
def clearLast (last : Option (List UInt8)) : Option (Option (List UInt8)) :=
  match last with
  | none => some none
  | some array => (poke array 0 0).map some

/-- `if (last) strncpy(last, component, FS_NAME_MAX - 1);` -/
def fillLast (last : Option (List UInt8)) (component : List UInt8) :
    Option (Option (List UInt8)) :=
  match last with
  | none => some none
  | some array => (strncpyInto array component (fsNameMax - 1)).map some

variable (env : Env)

/-- The outer loop. The stack is in the state of time `t`, and `last` is `NULL` or the array
of the caller. -/
def walkAtLoop (s : Fs) (t : Nat) (buffer : List UInt8) (stopBeforeLast : Bool)
    (last : Option (List UInt8)) :
    Nat → Option Ptr → Nat → Option (Option Ptr × Option (List UInt8))
  | 0, _, _ => none
  | fuel + 1, node, i =>
    match buffer[i]? with
    | none => none
    | some c =>
      if c = 0 then some (node, last)
      else
        match skipSlashesAt buffer fsPathMax i with
        | none => none
        | some i =>
          match buffer[i]? with
          | none => none
          | some c =>
            if c = 0 then some (node, last)
            else
              match componentAt buffer (env.fill (t + i) fsNameMax) i with
              | none => none
              | some (i, component, isLast) =>
                if isLast = true ∧ stopBeforeLast = true then
                  -- a component of 31 bytes is copied without its terminator
                  (fillLast last component).map fun last => (node, last)
                else if component = [dot] then walkAtLoop s t buffer stopBeforeLast last fuel node i
                else if component = [dot, dot] then
                  match parentOrRoot s node with
                  | none => none
                  | some node => walkAtLoop s t buffer stopBeforeLast last fuel node i
                else
                  match findChild s node component with
                  | none => none
                  | some none => some (none, last)
                  | some (some child) =>
                    walkAtLoop s t buffer stopBeforeLast last fuel (some child) i

/-- The result is the node, and what is then in the array of the caller. -/
def walkAt (s : Fs) (t : Nat) (path : List UInt8) (stopBeforeLast : Bool)
    (last : Option (List UInt8)) : Option (Option Ptr × Option (List UInt8)) :=
  if path = [] then some (none, last)
  else
    match (pathBuffer path)[0]? with
    | none => none
    | some c =>
      match clearLast last with
      | none => none
      | some last =>
        if c = slash then
          walkAtLoop env s t (pathBuffer path) stopBeforeLast last fsPathMax s.rootNode 1
        else walkAtLoop env s t (pathBuffer path) stopBeforeLast last fsPathMax s.currentDir 0

end LightningOS.Ramfs
