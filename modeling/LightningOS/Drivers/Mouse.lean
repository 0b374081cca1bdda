import Mathlib.Algebra.Ring.Nat
import Mathlib.Logic.Function.Basic

/-!
# The mouse driver

The interrupt handler of `drivers/mouse.c`. The mouse sends packets of three bytes, or of four
when it has a wheel. All the kernel makes of them is to scroll the console.
-/

namespace LightningOS.Mouse

def linesPerNotch : Int := 3

/-- A packet has at most four bytes. -/
scoped instance packetSlots : NeZero 4 := ⟨by decide⟩

/-- The variables of the driver. -/
structure Driver where
  packet : Fin 4 → UInt8
  packetIndex : Nat
  packetSize : Nat

/-- The sign extension of the 4 bits. -/
def wheelField (byte : UInt8) : UInt8 :=
  let z := byte &&& 0x0F
  if z &&& 0x08 ≠ 0 then z ||| 0xF0 else z

/-- What `mouse_callback` does when the controller gives `status` and `byte`: the argument of
its call of `vga_scroll_view`, if it makes one. -/
def mouseCallback (m : Driver) (status byte : UInt8) : Option Int × Driver :=
  if status &&& 0x01 = 0 then (none, m)               -- no data
  -- bit 3 of the first byte is always set
  else if m.packetIndex = 0 ∧ byte &&& 0x08 = 0 then (none, m)
  else
    let m := { m with
      packet := Function.update m.packet (Fin.ofNat 4 m.packetIndex) byte
      packetIndex := m.packetIndex + 1 }
    if m.packetIndex < m.packetSize then (none, m)
    else
      let m := { m with packetIndex := 0 }
      if m.packetSize < 4 then (none, m)              -- no wheel on this device
      else
        let z := wheelField (m.packet 3)
        if z = 0 then (none, m) else (some (-z.toInt8.toInt * linesPerNotch), m)

/-- A mouse with a wheel, before the first byte. -/
def wheelMouse : Driver := { packet := fun _ => 0, packetIndex := 0, packetSize := 4 }

/-- The calls made for some bytes, one interrupt each. -/
def feed (m : Driver) : List UInt8 → List Int × Driver
  | [] => ([], m)
  | byte :: bytes =>
    let r := mouseCallback m 0x01 byte
    let rest := feed r.2 bytes
    (r.1.toList ++ rest.1, rest.2)

end LightningOS.Mouse
