import Mathlib.Algebra.Ring.Nat
import Mathlib.Logic.Function.Basic

/-!
# The keyboard driver

`drivers/keyboard.c`: the interrupt handler that turns scancodes into keys and queues
them, and `keyboard_poll`, which takes them out again.

The handler runs with interrupts off, so it is one step. `keyboard_poll` does not mask
interrupts, so here it goes one read or write of `head`, `tail` and `buffer` at a time,
and an interrupt may come before each of them.
-/

namespace LightningOS.Keyboard

abbrev bufferLen : Nat := 128

scoped instance : NeZero bufferLen := ⟨by decide⟩

/-! ## Keys -/

def keyUp : Nat := 0x101
def keyDown : Nat := 0x102
def keyLeft : Nat := 0x103
def keyRight : Nat := 0x104
def keyHome : Nat := 0x105
def keyEnd : Nat := 0x106
def keyDelete : Nat := 0x107
def keyPageup : Nat := 0x108
def keyPagedown : Nat := 0x109

/-- Scancode set 1, US layout. The place is the scancode, and 0 is no character. -/
def keymap : List Char :=
  ['\x00', '\x1b', '1', '2', '3', '4', '5', '6', '7', '8', '9', '0', '-', '=', '\x08',
    '\t', 'q', 'w', 'e', 'r', 't', 'y', 'u', 'i', 'o', 'p', '[', ']', '\n',
    '\x00', 'a', 's', 'd', 'f', 'g', 'h', 'j', 'k', 'l', ';', '\x27', '\x60',
    '\x00', '\x5c', 'z', 'x', 'c', 'v', 'b', 'n', 'm', ',', '.', '/',
    '\x00', '*', '\x00', ' ']

def keymapShift : List Char :=
  ['\x00', '\x1b', '!', '@', '#', '$', '%', '^', '&', '*', '(', ')', '_', '+', '\x08',
    '\t', 'Q', 'W', 'E', 'R', 'T', 'Y', 'U', 'I', 'O', 'P', '\x7b', '\x7d', '\n',
    '\x00', 'A', 'S', 'D', 'F', 'G', 'H', 'J', 'K', 'L', ':', '\x22', '~',
    '\x00', '|', 'Z', 'X', 'C', 'V', 'B', 'N', 'M', '<', '>', '?',
    '\x00', '*', '\x00', ' ']

structure Modifiers where
  shiftDown : Bool := false
  capsLock : Bool := false
  ctrlDown : Bool := false
  /-- The previous byte was the 0xE0 prefix. -/
  extended : Bool := false

/-- The keys behind the prefix. -/
def extendedKey (scancode : UInt8) : Option Nat :=
  match scancode.toNat with
  | 0x48 => some keyUp
  | 0x50 => some keyDown
  | 0x4B => some keyLeft
  | 0x4D => some keyRight
  | 0x47 => some keyHome
  | 0x4F => some keyEnd
  | 0x53 => some keyDelete
  | 0x49 => some keyPageup
  | 0x51 => some keyPagedown
  | _ => none

def isLower (c : Nat) : Bool := 'a'.toNat ≤ c && c ≤ 'z'.toNat

def isUpper (c : Nat) : Bool := 'A'.toNat ≤ c && c ≤ 'Z'.toNat

/-- Caps lock swaps the case of letters. -/
def capsKey (c : Nat) : Nat :=
  if isLower c then c - 'a'.toNat + 'A'.toNat
  else if isUpper c then c - 'A'.toNat + 'a'.toNat
  else c

/-- Ctrl-A to Ctrl-Z. -/
def ctrlKey (c : Nat) : Nat :=
  if isLower c then c - 'a'.toNat + 1
  else if isUpper c then c - 'A'.toNat + 1
  else c

/-- The key of a scancode that is pressed, if it has one. -/
def characterKey (m : Modifiers) (scancode : UInt8) : Option Nat :=
  let c := ((if m.shiftDown then keymapShift else keymap).getD scancode.toNat '\x00').toNat
  if c = 0 then none
  else
    let c := if m.capsLock then capsKey c else c
    some (if m.ctrlDown then ctrlKey c else c)

/-- What `keyboard_callback` does with the byte it read: the key it pushes, if it pushes
one, and the modifiers it leaves. -/
def scancodeKey (m : Modifiers) (scancode : UInt8) : Option Nat × Modifiers :=
  if scancode = 0xE0 then (none, { m with extended := true })
  else if m.extended then
    (if scancode &&& 0x80 = 0 then extendedKey scancode else none, { m with extended := false })
  else if scancode &&& 0x80 ≠ 0 then                  -- key release
    let made := scancode &&& 0x7F
    if made = 0x2A ∨ made = 0x36 then (none, { m with shiftDown := false })
    else if made = 0x1D then (none, { m with ctrlDown := false })
    else (none, m)
  else if scancode = 0x2A ∨ scancode = 0x36 then (none, { m with shiftDown := true })
  else if scancode = 0x1D then (none, { m with ctrlDown := true })
  else if scancode = 0x3A then (none, { m with capsLock := !m.capsLock })
  else (characterKey m scancode, m)

/-! ## The queue -/

/-- The variables of the driver. -/
structure Driver where
  buffer : Fin bufferLen → Nat
  head : Nat
  tail : Nat
  mods : Modifiers

def push (k : Driver) (key : Nat) : Driver :=
  let next := (k.head + 1) % bufferLen
  if next = k.tail then k                             -- buffer full: drop the keystroke
  else { k with buffer := Function.update k.buffer (Fin.ofNat bufferLen k.head) key, head := next }

def keyboardCallback (k : Driver) (scancode : UInt8) : Driver :=
  match scancodeKey k.mods scancode with
  | (none, m) => { k with mods := m }
  | (some key, m) => push { k with mods := m } key

def keyboardInit (k : Driver) : Driver := { k with head := 0, tail := 0 }

/-- `keyboard_poll` when nothing interrupts it. The result 0 says that nothing is queued. -/
def keyboardPoll (k : Driver) : Nat × Driver :=
  if k.head = k.tail then (0, k)
  else
    let key := k.buffer (Fin.ofNat bufferLen k.tail)
    (key, { k with tail := (k.tail + 1) % bufferLen })

/-! ## Polling and interrupts -/

/-- How far a call of `keyboard_poll` got, and what it holds in registers. -/
inductive Poll where
  | outside                         -- between two calls
  | sawHead (head : Nat)            -- has read one side of the comparison
  | sawTail (tail : Nat)
  | differ                          -- the two sides differ
  | slot (tail : Nat)               -- has read the index into `buffer`
  | loaded (key : Nat)
  | next (key tail : Nat)           -- has read `tail` again, to move it on
  | taken (key : Nat)               -- about to return the key

/-- The driver, the call of `keyboard_poll` that is under way, and the results of the
calls before it. -/
structure Console where
  kbd : Driver
  poll : Poll
  results : List Nat

/-- The next read or write of `keyboard_poll`. C leaves open which side of `head == tail`
is read first. -/
def pollStep (tailFirst : Bool) (s : Console) : Console :=
  match s.poll with
  | .outside =>
    if tailFirst then { s with poll := .sawTail s.kbd.tail }
    else { s with poll := .sawHead s.kbd.head }
  | .sawHead head =>
    if head = s.kbd.tail then { s with poll := .outside, results := s.results ++ [0] }
    else { s with poll := .differ }
  | .sawTail tail =>
    if s.kbd.head = tail then { s with poll := .outside, results := s.results ++ [0] }
    else { s with poll := .differ }
  | .differ => { s with poll := .slot s.kbd.tail }
  | .slot tail => { s with poll := .loaded (s.kbd.buffer (Fin.ofNat bufferLen tail)) }
  | .loaded key => { s with poll := .next key s.kbd.tail }
  | .next key tail =>
    { s with kbd := { s.kbd with tail := (tail + 1) % bufferLen }, poll := .taken key }
  | .taken key => { s with poll := .outside, results := s.results ++ [key] }

inductive Event where
  | interrupt (scancode : UInt8)
  | poll

def step (tailFirst : Bool) (s : Console) : Event → Console
  | .interrupt scancode => { s with kbd := keyboardCallback s.kbd scancode }
  | .poll => pollStep tailFirst s

def run (tailFirst : Bool) (s : Console) (es : List Event) : Console :=
  es.foldl (step tailFirst) s

/-- After `keyboard_init`, before the first poll. -/
def boot (k : Driver) : Console := { kbd := keyboardInit k, poll := .outside, results := [] }

end LightningOS.Keyboard
