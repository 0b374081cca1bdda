import LightningOS.Lib.CString
import LightningOS.Drivers.Keyboard
import LightningOS.Drivers.Vga

/-!
# Reading lines

`kernel/console.c`: the lines that were entered before, in a ring of sixteen buffers, and
the editor for the line that is being entered. The editor waits for one key after the
other, so it is a function of the keys. What it sends to the console is listed in `shown`;
the prompt is printed by a function of the caller.

Functions return `none` when the C code would use an index outside of an array, or when an
`int` would overflow.
-/

namespace LightningOS.Console

open CString Vga

def lineMax : Nat := 256

def historyMax : Nat := 16

instance : NeZero historyMax := ⟨by decide⟩

def scrollStep : Int := 3

def pageStep : Int := (vgaHeight : Int) - 2

/-! ## History -/

structure History where
  history : Fin historyMax → List UInt8
  historyTotal : Int

/-- `history[i % HISTORY_MAX]`. -/
def History.slot (h : History) (i : Int) : Option (List UInt8) :=
  (index historyMax (i.tmod historyMax)).map h.history

/-- The line is the one that was stored last. -/
def History.isLast (h : History) (line : List UInt8) : Option Bool :=
  if h.historyTotal > 0 then
    (h.slot (h.historyTotal - 1)).map fun last => decide (text last = text line)
  else some false

/-- `none` for the line is a `NULL` pointer. -/
def consoleHistoryPush (h : History) (line : Option (List UInt8)) : Option History :=
  match line with
  | none => some h
  | some line =>
    if text line = [] then some h
    else do
      if ← h.isLast line then
        return h
      let slot ← index historyMax (h.historyTotal.tmod historyMax)
      let buffer := strncpy line (lineMax - 1) ++ [0]
      if IsInt (h.historyTotal + 1) then
        return { history := Function.update h.history slot buffer, historyTotal := h.historyTotal + 1 }
      else
        none

def consoleHistoryCount (h : History) : Int := h.historyTotal

/-- The inner option is the pointer it returns. -/
def consoleHistoryAt (h : History) (i : Int) : Option (Option (List UInt8)) :=
  if i < 0 ∨ i ≥ h.historyTotal then some none
  else if h.historyTotal > historyMax ∧ i < h.historyTotal - historyMax then some none
  else (h.slot i).map some

/-! ## Echo -/

inductive Echo where
  | plain
  | hidden
  | stars
  deriving DecidableEq, Repr

/-- What the editor sends to the console. -/
inductive Shown where
  | vga (op : Op)
  | prompt

def echoChar (echo : Echo) (c : UInt8) : List Shown :=
  match echo with
  | .plain => [.vga (.putc c)]
  | .hidden => []
  | .stars => [.vga (.putc 42)]

def echoString (echo : Echo) (s : List UInt8) : List Shown := (text s).flatMap (echoChar echo)

/-- The line that is being entered: the variables of `console_read_line`. -/
structure Editor where
  out : List UInt8
  length : Int
  drawn : Int
  browse : Int
  shown : List Shown

def Editor.show (e : Editor) (what : List Shown) : Editor := { e with shown := e.shown ++ what }

/-- `out[i] = c`. -/
def Editor.setChar (e : Editor) (i : Int) (c : UInt8) : Option Editor :=
  (index e.out.length i).map fun i => { e with out := e.out.set i c }

/-- `strlen(out)`, which needs a terminator. -/
def Editor.strlen (e : Editor) : Option Int :=
  if 0 ∈ e.out then some (text e.out).length else none

def backspace : UInt8 := 8

/-- Wipes the visible part of the line and draws `line` there. -/
def redraw (echo : Echo) (line : List UInt8) (e : Editor) : Editor :=
  let e := e.show (List.replicate e.drawn.toNat (.vga (.putc backspace)))
  let e := e.show (echoString echo line)
  { e with drawn := if echo = .hidden then 0 else (text line).length }

/-! ## The editor -/

/-- The loop goes on, or the function returns. -/
inductive Next where
  | more (e : Editor)
  | done (e : Editor) (ok : Bool)

/-- The calls and the arguments that do not change during one call of the editor. -/
structure Call where
  size : Nat
  echo : Echo
  useHistory : Bool
  prompt : Bool

/-- `limit`: how many characters fit. -/
def Call.limit (call : Call) : Int := ((if call.size < lineMax then call.size else lineMax : Nat) : Int) - 1

/-- Empties the line, as Ctrl-U does and the arrow behind the newest entry. -/
def discard (call : Call) (e : Editor) : Option Next := do
  let e := redraw call.echo [] e
  let e ← e.setChar 0 0
  return .more { e with length := 0 }

def onBackspace (call : Call) (e : Editor) : Option Next :=
  if e.length > 0 then do
    let e := { e with length := e.length - 1 }
    let e ← e.setChar e.length 0
    if call.echo ≠ .hidden then
      return .more { e.show [.vga (.putc backspace)] with drawn := e.drawn - 1 }
    else
      return .more e
  else some (.more e)

/-- Ctrl-L. -/
def onClear (call : Call) (e : Editor) : Next :=
  let e := e.show [.vga .clear]
  let e := if call.prompt then e.show [.prompt] else e
  .more (redraw call.echo e.out { e with drawn := 0 })

/-- The body of the case for the two arrows. -/
def onArrow (h : History) (call : Call) (up : Bool) (e : Editor) : Option Next :=
  if call.useHistory = false then
    some (.more (e.show [.vga (.scrollView (if up then scrollStep else -scrollStep))]))
  else
    let target := if up then e.browse - 1 else e.browse + 1
    if ¬IsInt target then none
    else if target < 0 then some (.more e)
    else if target ≥ h.historyTotal then discard call { e with browse := h.historyTotal }
    else do
      match ← consoleHistoryAt h target with
      | none => return .more e
      | some entry =>
        let e := { e with browse := target }
        if (e.out.length : Int) < call.limit then
          none
        else
          let e := { e with out := strncpy entry call.limit.toNat ++ e.out.drop call.limit.toNat }
          let e ← e.setChar call.limit 0
          let length ← e.strlen
          return .more (redraw call.echo e.out { e with length := length })

/-- A printable key. -/
def onChar (call : Call) (key : Int) (e : Editor) : Option Next :=
  if e.length < call.limit then do
    let c := UInt8.ofInt key
    let e := e.show [.vga .scrollToBottom]
    let e ← e.setChar e.length c
    let e := { e with length := e.length + 1 }
    let e ← e.setChar e.length 0
    let e := e.show (echoChar call.echo c)
    return .more { e with drawn := if call.echo = .hidden then e.drawn else e.drawn + 1 }
  else some (.more e)

/-- One round of the loop. -/
def readKey (h : History) (call : Call) (key : Int) (e : Editor) : Option Next :=
  if key = 10 then do                                     -- '\n'
    let e := e.show [.vga .scrollToBottom, .vga (.putc 10)]
    let e ← e.setChar e.length 0
    return .done e true
  else if key = 8 then onBackspace call e                 -- '\b'
  else if key = 3 then do                                 -- Ctrl-C
    let e := e.show (.vga .scrollToBottom :: (ofString "^C\n").map fun c => .vga (.putc c))
    let e ← e.setChar 0 0
    return .done e false
  else if key = 12 then some (onClear call e)             -- Ctrl-L
  else if key = 21 then discard call e                    -- Ctrl-U
  else if key = Keyboard.keyPageup then some (.more (e.show [.vga (.scrollView pageStep)]))
  else if key = Keyboard.keyPagedown then some (.more (e.show [.vga (.scrollView (-pageStep))]))
  else if key = Keyboard.keyUp then onArrow h call true e
  else if key = Keyboard.keyDown then onArrow h call false e
  else if key < 32 ∨ key > 126 then some (.more e)
  else onChar call key e

/-- The loop over the keys. The result is what was returned, `none` while it waits for a key. -/
def readLoop (h : History) (call : Call) : List Int → Editor → Option (Editor × Option Bool)
  | [], e => some (e, none)
  | key :: keys, e =>
    match readKey h call key e with
    | none => none
    | some (.more e) => readLoop h call keys e
    | some (.done e ok) => some (e, some ok)

/-- `console_read_line` on the keys typed so far. `out` is the caller's buffer. -/
def consoleReadLine (h : History) (call : Call) (out : List UInt8) (keys : List Int) :
    Option (Editor × Option Bool) := do
  let e : Editor := { out := out, length := 0, drawn := 0, browse := h.historyTotal, shown := [] }
  let e ← e.setChar 0 0
  readLoop h call keys e

end LightningOS.Console
