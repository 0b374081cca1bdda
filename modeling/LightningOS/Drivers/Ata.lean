import LightningOS.Lib.Memory

/-!
# The ATA driver

`drivers/ata.c` and the two drives of the primary channel. A disk is a function from
sector numbers to sectors. The driver polls, and whether a poll ends well is not up to
it: `ready` answers the polls one after the other, so a drive that fails, or a machine
that loses power, is a `ready` that says no from some point on.

A drive takes the low 28 bits of the sector number, and refuses sectors behind its end.
A sector that was handed over is on the disk.
-/

namespace LightningOS.Ata

open ByteMemory

def ataSectorSize : Nat := 512

/-- The contents of one sector. -/
abbrev Sector := { bytes : List UInt8 // bytes.length = ataSectorSize }

/-- The first 512 of the bytes, filled up with zeros. -/
def Sector.ofBytes (bytes : List UInt8) : Sector :=
  ⟨(bytes ++ List.replicate ataSectorSize 0).take ataSectorSize, by simp⟩

inductive Drive where
  | master
  | slave
  deriving DecidableEq, Repr

/-- What the driver remembers about a drive. -/
structure DriveInfo where
  present : Bool := false
  sectors : Nat := 0

/-- The primary channel: the disks, and the variables of `ata.c`. A size of zero is an empty slot. `time`
counts the polls. -/
structure Channel where
  size : Drive → UInt32
  media : Drive → Nat → Sector
  drives : Drive → DriveInfo
  time : Nat

variable (ready : Nat → Bool)

/-- `wait_not_busy` or `wait_drq`. -/
def Channel.wait (a : Channel) : Bool × Channel := (ready a.time, { a with time := a.time + 1 })

def Channel.setDrive (a : Channel) (drive : Drive) (info : DriveInfo) : Channel :=
  { a with drives := fun d => if d = drive then info else a.drives d }

def Channel.setSector (a : Channel) (drive : Drive) (lba : Nat) (sector : Sector) : Channel :=
  { a with media := fun d l => if d = drive ∧ l = lba then sector else a.media d l }

/-! ## Probing -/

def identify (a : Channel) (drive : Drive) : Channel :=
  if a.size drive = 0 then a                          -- nothing on this slot
  else
    match a.wait ready with
    | (false, a) => a
    | (true, a) =>
      match a.wait ready with
      | (false, a) => a
      | (true, a) =>
        a.setDrive drive { present := true, sectors := (a.size drive).toNat }

def ataInit (a : Channel) : Channel :=
  identify ready (identify ready { a with drives := fun _ => {} } .master) .slave

def ataPresent (a : Channel) (drive : Drive) : Bool := (a.drives drive).present

def ataSectorCount (a : Channel) (drive : Drive) : Nat :=
  if ataPresent a drive then (a.drives drive).sectors else 0

/-! ## Transfers -/

/-- The sectors of one command. `buf` is the buffer from the current word on, and `out`
is what was read so far. -/
def sectorLoop (drive : Drive) (write : Bool) :
    Nat → Nat → List UInt8 → List UInt8 → Channel → Bool × List UInt8 × Channel
  | 0, _, _, out, a => (true, out, a)
  | n + 1, lba, buf, out, a =>
    match a.wait ready with
    | (false, a) => (false, out, a)
    | (true, a) =>
      if (a.size drive).toNat ≤ lba then (false, out, a)      -- the drive reports an error
      else if write then
        sectorLoop drive write n (lba + 1) (buf.drop ataSectorSize) out
          (a.setSector drive lba (Sector.ofBytes buf))
      else sectorLoop drive write n (lba + 1) buf (out ++ (a.media drive lba).val) a

/-- One command of at most 255 sectors. A count of 0 would mean 256. -/
def transferChunk (a : Channel) (drive : Drive) (lba count : Nat) (buf : List UInt8) (write : Bool) :
    Bool × List UInt8 × Channel :=
  match a.wait ready with
  | (false, a) => (false, [], a)
  | (true, a) =>
    let sectors := if count % 256 = 0 then 256 else count % 256
    match sectorLoop ready drive write sectors (lba % 268435456) buf [] a with
    | (false, out, a) => (false, out, a)
    | (true, out, a) =>
      if write then
        match a.wait ready with
        | (false, a) => (false, out, a)
        | (true, a) =>
          match a.wait ready with                     -- flush the cache
          | (false, a) => (false, out, a)
          | (true, a) => (true, out, a)
      else (true, out, a)

/-- The loop of `transfer`, which splits it into commands. -/
def transferLoop (drive : Drive) (write : Bool) :
    Nat → Nat → Nat → List UInt8 → List UInt8 → Channel → Bool × List UInt8 × Channel
  | fuel, lba, count, buf, out, a =>
    if count = 0 then (true, out, a)
    else
      match fuel with
      | 0 => (false, out, a)
      | fuel + 1 =>
        let chunk := if 255 < count then 255 else count
        match transferChunk ready a drive lba chunk buf write with
        | (false, got, a) => (false, out ++ got, a)
        | (true, got, a) =>
          transferLoop drive write fuel (wrap32 (lba + chunk)) (count - chunk)
            (buf.drop (chunk * ataSectorSize)) (out ++ got) a

/-- The result is whether it went well, and what was read. -/
def transfer (a : Channel) (drive : Drive) (lba count : Nat) (buf : List UInt8) (write : Bool) :
    Bool × List UInt8 × Channel :=
  if ataPresent a drive = false then (false, [], a)
  else if count = 0 then (true, [], a)
  else if (a.drives drive).sectors < wrap32 (lba + count) then (false, [], a)
  else transferLoop ready drive write count lba count buf [] a

def ataRead (a : Channel) (drive : Drive) (lba count : Nat) : Option (List UInt8) × Channel :=
  match transfer ready a drive lba count [] false with
  | (false, _, a) => (none, a)
  | (true, out, a) => (some out, a)

def ataWrite (a : Channel) (drive : Drive) (lba count : Nat) (buf : List UInt8) : Int × Channel :=
  match transfer ready a drive lba count buf true with
  | (false, _, a) => (-1, a)
  | (true, _, a) => (0, a)

end LightningOS.Ata
