import Mathlib.Data.UInt

/-!
# The real-time clock

`drivers/rtc.c`. The chip answers each read of a register with what it shows at that moment, so
it is a function of the number of reads before and of the register. The wait for the end of an
update takes the number of polls after which it gives up, which in the source is unbounded.
-/

namespace LightningOS.Rtc

/-- What a read of a register gives, after so many reads. -/
abbrev Cmos := Nat → UInt8 → UInt8

structure RtcTime where
  second : UInt8
  minute : UInt8
  hour : UInt8
  day : UInt8
  month : UInt8
  year : UInt16
  deriving DecidableEq, Repr

def fromBcd (value : UInt8) : UInt8 := (value &&& (0x0F : UInt8)) + value >>> (4 : UInt8) * 10

/-- `while (update_in_progress());`, with the number of reads made when it ends. -/
def waitUpdate (cmos : Cmos) : Nat → Nat → Option Nat
  | 0, _ => none
  | fuel + 1, i => if cmos i 0x0A &&& 0x80 ≠ 0 then waitUpdate cmos fuel (i + 1) else some (i + 1)

/-- What `rtc_read` makes of the bytes it read. -/
def decode (second minute hour day month year century registerB : UInt8) : RtcTime :=
  -- values are stored in BCD
  let bcd := registerB &&& 0x04 = 0
  let second := if bcd then fromBcd second else second
  let minute := if bcd then fromBcd minute else minute
  let hour := if bcd then fromBcd (hour &&& 0x7F) ||| (hour &&& 0x80) else hour
  let day := if bcd then fromBcd day else day
  let month := if bcd then fromBcd month else month
  let year := if bcd then fromBcd year else year
  let century := if bcd then fromBcd century else century
  -- 12 hour clock, PM flag set
  let hour :=
    if registerB &&& 0x02 = 0 ∧ hour &&& 0x80 ≠ 0 then
      UInt8.ofNat (((hour &&& 0x7F).toNat + 12) % 24)
    else hour
  { second := second
    minute := minute
    hour := hour
    day := day
    month := month
    year :=
      if 19 ≤ century ∧ century ≤ 21 then UInt16.ofNat (century.toNat * 100 + year.toNat)
      else UInt16.ofNat (2000 + year.toNat) }

def rtcRead (cmos : Cmos) (fuel : Nat) : Option RtcTime :=
  (waitUpdate cmos fuel 0).map fun i =>
    decode (cmos i 0x00) (cmos (i + 1) 0x02) (cmos (i + 2) 0x04) (cmos (i + 3) 0x07)
      (cmos (i + 4) 0x08) (cmos (i + 5) 0x09) (cmos (i + 6) 0x32) (cmos (i + 7) 0x0B)

end LightningOS.Rtc
