import Mathlib.Algebra.Ring.Nat
import Mathlib.Data.Fin.Basic
import Mathlib.Logic.Function.Basic

/-!
# The console

`drivers/vga.c`. Everything is written to `screen` first. Lines that leave it go to a ring
of 512 lines, and the view may be moved back into them. Video memory and the registers of
the display controller are part of the state. They are written and never read back.

Functions return `none` when the C code would use an index outside of an array, or when an
`int` would overflow. Output runs with interrupts off, so a call is one step.
-/

namespace LightningOS.Vga

/-! ## Cells and lines -/

def vgaWidth : Nat := 80

def vgaHeight : Nat := 25

def scrollbackLines : Nat := 512

instance : NeZero scrollbackLines := ⟨by decide⟩

abbrev Line := Fin vgaWidth → UInt16

abbrev Screen := Fin vgaHeight → Line

def cell (c : UInt8) (attr : UInt8) : UInt16 := c.toUInt16 ||| (attr.toUInt16 <<< 8)

/-- `' '`. -/
def space : UInt8 := 32

def blankLine (attr : UInt8) : Line := fun _ => cell space attr

/-- The place of `i` in an array of `n` elements. -/
def index (n : Nat) (i : Int) : Option (Fin n) :=
  if h : 0 ≤ i ∧ i < n then some ⟨i.toNat, by omega⟩ else none

/-- `i` is the value of an `int`. -/
def IsInt (i : Int) : Prop := -2147483648 ≤ i ∧ i < 2147483648

instance (i : Int) : Decidable (IsInt i) := inferInstanceAs (Decidable (_ ∧ _))

/-- The variables of `vga.c`, video memory and the display controller. -/
structure Console where
  screen : Screen
  scrollback : Fin scrollbackLines → Line
  scrollbackHead : Int
  scrollbackCount : Int
  viewOffset : Int
  cursorRow : Int
  cursorCol : Int
  attr : UInt8
  vram : Nat → UInt16
  crtc : UInt8 → UInt8

/-! ## Painting -/

/-- `outb` to the index register, then to the data register. -/
def Console.setCrtc (v : Console) (register value : UInt8) : Console :=
  { v with crtc := Function.update v.crtc register value }

def Console.moveHardwareCursor (v : Console) : Console :=
  let pos : UInt16 :=
    if v.viewOffset > 0 then UInt16.ofNat (vgaWidth * vgaHeight)      -- park it off screen
    else UInt16.ofInt (v.cursorRow * vgaWidth + v.cursorCol)
  (v.setCrtc 0x0F (pos &&& 0xFF).toUInt8).setCrtc 0x0E ((pos >>> 8) &&& 0xFF).toUInt8

/-- Line `i` of the scrollback, 0 being the oldest one kept. -/
def Console.scrollbackLine (v : Console) (i : Int) : Option Line :=
  let slot := (v.scrollbackHead - v.scrollbackCount + i + scrollbackLines).tmod scrollbackLines
  (index scrollbackLines slot).map v.scrollback

/-- What row `row` of the display shows. -/
def Console.source (v : Console) (row : Nat) : Option Line :=
  let i := v.scrollbackCount - v.viewOffset + row
  if i < v.scrollbackCount then v.scrollbackLine i
  else (index vgaHeight (i - v.scrollbackCount)).map v.screen

/-- `col` runs over the line. -/
def Console.paintRow (v : Console) (row : Nat) (source : Line) : Console :=
  Nat.fold vgaWidth
    (fun col h v => { v with vram := Function.update v.vram (row * vgaWidth + col) (source ⟨col, h⟩) }) v

/-- The first `n` rows. -/
def Console.repaintLoop (v : Console) : Nat → Option Console
  | 0 => some v
  | n + 1 => do
    let v ← v.repaintLoop n
    let source ← v.source n
    return v.paintRow n source

def Console.repaint (v : Console) : Option Console := do
  let v ← v.repaintLoop vgaHeight
  return v.moveHardwareCursor

/-! ## Lines that leave the screen -/

def Console.pushScrollback (v : Console) (line : Line) : Option Console := do
  let slot ← index scrollbackLines v.scrollbackHead
  let v := { v with scrollback := Function.update v.scrollback slot line }
  let v := { v with scrollbackHead := (v.scrollbackHead + 1).tmod scrollbackLines }
  if v.scrollbackCount < (scrollbackLines : Int) then
    return { v with scrollbackCount := v.scrollbackCount + 1 }
  else
    return v

/-- Rows 1 to `n` move up by one. -/
def Console.shiftLoop (v : Console) (n : Nat) (h : n < vgaHeight) : Console :=
  Nat.fold n
    (fun i hi v => { v with
      screen := Function.update v.screen ⟨i, by omega⟩ (v.screen ⟨i + 1, by omega⟩) }) v

def Console.scrollUpOne (v : Console) : Option Console := do
  let v ← v.pushScrollback (v.screen ⟨0, by decide⟩)
  let v := v.shiftLoop (vgaHeight - 1) (by decide)
  let v := { v with
    screen := Function.update v.screen ⟨vgaHeight - 1, by decide⟩ (blankLine v.attr) }
  return { v with cursorRow := (vgaHeight - 1 : Nat) }

/-- Some cell of the row is neither blank nor empty. -/
def lineUsed (line : Line) : Bool :=
  (List.finRange vgaWidth).any fun col =>
    let c := (line col &&& 0xFF).toUInt8
    c != space && c != 0

/-- The last of the first `n` rows that is in use, or -1. -/
def lastUsed (screen : Screen) (n : Nat) (h : n ≤ vgaHeight) : Int :=
  Nat.fold n (fun row hr last => if lineUsed (screen ⟨row, by omega⟩) then row else last) (-1)

/-- Rows 0 to `n - 1` go to the scrollback. -/
def Console.archiveLoop (v : Console) : Nat → Option Console
  | 0 => some v
  | n + 1 => do
    let v ← v.archiveLoop n
    let row ← index vgaHeight n
    v.pushScrollback (v.screen row)

/-- Trailing blank rows are dropped. -/
def Console.archiveScreen (v : Console) : Option Console :=
  let last := lastUsed v.screen vgaHeight (Nat.le_refl _)
  v.archiveLoop (last + 1).toNat

/-! ## Operations -/

def Console.vgaSetColor (v : Console) (fg bg : UInt8) : Console :=
  { v with attr := fg ||| (bg <<< 4) }

def Console.vgaClear (v : Console) : Option Console := do
  let v ← v.archiveScreen
  let v := { v with screen := fun _ => blankLine v.attr }
  let v := { v with cursorRow := 0, cursorCol := 0, viewOffset := 0 }
  v.repaint

def vgaBlack : UInt8 := 0

def vgaLightGrey : UInt8 := 7

def Console.vgaInit (v : Console) : Option Console := do
  let v := v.vgaSetColor vgaLightGrey vgaBlack
  let v := { v with scrollbackHead := 0, scrollbackCount := 0, viewOffset := 0 }
  let v ← v.vgaClear
  return (v.setCrtc 0x0A 14).setCrtc 0x0B 15          -- a block cursor on scanlines 14-15

/-- `screen[cursor_row][cursor_col] = value`, and the same in video memory. -/
def Console.setCell (v : Console) (value : UInt16) : Option Console := do
  let row ← index vgaHeight v.cursorRow
  let col ← index vgaWidth v.cursorCol
  let v := { v with
    screen := Function.update v.screen row (Function.update (v.screen row) col value) }
  return { v with vram := Function.update v.vram (row * vgaWidth + col) value }

/-- The `switch` of `vga_putc`. -/
def Console.emit (v : Console) (c : UInt8) : Option Console :=
  if c = 10 then                                          -- '\n'
    some { v with cursorCol := 0, cursorRow := v.cursorRow + 1 }
  else if c = 13 then                                     -- '\r'
    some { v with cursorCol := 0 }
  else if c = 9 then                                      -- '\t'
    some { v with cursorCol := (v.cursorCol + 4) / 4 * 4 }
  else if c = 8 then                                      -- '\b'
    let v :=
      if v.cursorCol > 0 then { v with cursorCol := v.cursorCol - 1 }
      else if v.cursorRow > 0 then
        { v with cursorRow := v.cursorRow - 1, cursorCol := (vgaWidth : Int) - 1 }
      else v
    v.setCell (cell space v.attr)
  else do
    let v ← v.setCell (cell c v.attr)
    return { v with cursorCol := v.cursorCol + 1 }

/-- The end of `vga_putc`: wrap and scroll. -/
def Console.settle (v : Console) : Option Console :=
  let v :=
    if v.cursorCol ≥ vgaWidth then { v with cursorCol := 0, cursorRow := v.cursorRow + 1 } else v
  if v.cursorRow ≥ vgaHeight then do
    let v ← v.scrollUpOne
    v.repaint
  else
    some v.moveHardwareCursor

def Console.vgaPutc (v : Console) (c : UInt8) : Option Console := do
  -- new output brings the view back to the bottom
  let v ← (if v.viewOffset ≠ 0 then { v with viewOffset := 0 }.repaint else some v)
  let v ← v.emit c
  v.settle

def Console.vgaSetCursor (v : Console) (row col : Int) : Console :=
  let row := if row < 0 then 0 else row
  let col := if col < 0 then 0 else col
  let row := if row ≥ vgaHeight then (vgaHeight : Int) - 1 else row
  let col := if col ≥ vgaWidth then (vgaWidth : Int) - 1 else col
  { v with cursorRow := row, cursorCol := col }.moveHardwareCursor

def Console.vgaScrollView (v : Console) (lines : Int) : Option Console :=
  let target := v.viewOffset + lines
  if IsInt target then
    let target := if target < 0 then 0 else target
    let target := if target > v.scrollbackCount then v.scrollbackCount else target
    if target = v.viewOffset then some v
    else { v with viewOffset := target }.repaint
  else none

def Console.vgaScrollToBottom (v : Console) : Option Console :=
  if v.viewOffset = 0 then some v
  else { v with viewOffset := 0 }.repaint

/-! ## Runs -/

inductive Op where
  | putc (c : UInt8)
  | clear
  | setColor (fg bg : UInt8)
  | setCursor (row col : Int)
  | scrollView (lines : Int)
  | scrollToBottom

def Console.step (v : Console) : Op → Option Console
  | .putc c => v.vgaPutc c
  | .clear => v.vgaClear
  | .setColor fg bg => some (v.vgaSetColor fg bg)
  | .setCursor row col => some (v.vgaSetCursor row col)
  | .scrollView lines => v.vgaScrollView lines
  | .scrollToBottom => v.vgaScrollToBottom

def Console.run (v : Console) : List Op → Option Console
  | [] => some v
  | op :: ops => do
    let v ← v.step op
    v.run ops

end LightningOS.Vga
