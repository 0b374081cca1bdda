import LightningOS.Drivers.Ata

/-!
# The ATA driver at its ports

The functions of `drivers/ata.c` that move sectors, with the registers they write and the
words they move, and with a drive that acts on a command when the command register is
written: 28 bits of the sector number come from four registers, and a count of 0 in the
eight bits of the sector count means 256. After that the drive hands out or takes one
sector after the other, 256 words each, until the count is used up.

`log` lists the commands that were issued, for statements about them.
-/

namespace LightningOS.Ata

open ByteMemory

/-! ## Words -/

/-- The low and the high byte of a word, as they lie in a buffer. -/
def wordBytes (w : UInt16) : List UInt8 := [UInt8.ofNat w.toNat, UInt8.ofNat (w.toNat / 256)]

/-- The first word of a buffer. -/
def firstWord (buf : List UInt8) : UInt16 :=
  UInt16.ofNat ((buf.getD 0 0).toNat + 256 * (buf.getD 1 0).toNat)

/-- The first `n` words of a buffer. -/
def wordsOf : Nat → List UInt8 → List UInt16
  | 0, _ => []
  | n + 1, buf => firstWord buf :: wordsOf n (buf.drop 2)

/-- Words per sector. -/
def sectorWords : Nat := 256

/-! ## The drives behind the registers -/

/-- The registers of the channel that the driver writes, but for the command. -/
structure TaskFile where
  features : UInt8 := 0
  secCount : UInt8 := 0
  lbaLow : UInt8 := 0
  lbaMid : UInt8 := 0
  lbaHigh : UInt8 := 0
  drive : UInt8 := 0

/-- A command to move sectors, or what is left of one. -/
structure Command where
  drive : Drive
  write : Bool
  lba : Nat
  count : Nat
  deriving DecidableEq, Repr

/-- What a drive makes of the registers when it gets a command. -/
def TaskFile.command (r : TaskFile) (write : Bool) : Command where
  drive := if r.drive &&& 0x10 = 0 then .master else .slave
  write := write
  lba := r.lbaLow.toNat + 256 * r.lbaMid.toNat + 65536 * r.lbaHigh.toNat +
    16777216 * (r.drive &&& 0x0F).toNat
  count := if r.secCount = 0 then 256 else r.secCount.toNat

/-- The channel with its registers, and what is left of the command in progress. -/
structure Ports where
  chan : Channel
  regs : TaskFile
  job : Option Command
  log : List Command

def ataCmdReadPio : UInt8 := 0x20

def ataCmdWritePio : UInt8 := 0x30

def ataCmdCacheFlush : UInt8 := 0xE7

/-- Writing the command register. A flush moves no sectors. -/
def Ports.outCommand (p : Ports) (value : UInt8) : Ports :=
  if value = ataCmdReadPio ∨ value = ataCmdWritePio then
    let c := p.regs.command (value = ataCmdWritePio)
    { p with job := some c, log := p.log ++ [c] }
  else p

/-- The drive is ready to move the next sector of the command, and has it. -/
def Ports.hasData (p : Ports) : Bool :=
  match p.job with
  | none => false
  | some c => 0 < c.count && c.lba < (p.chan.size c.drive).toNat

/-- The command after one more sector. -/
def Command.next (c : Command) : Command := { c with lba := c.lba + 1, count := c.count - 1 }

/-- The drive takes the words of one sector. -/
def Ports.outSector (p : Ports) (words : List UInt16) : Ports :=
  match p.job with
  | none => p
  | some c =>
    if c.write then
      { p with
        chan := p.chan.setSector c.drive c.lba (Sector.ofBytes (words.flatMap wordBytes))
        job := some c.next }
    else p

/-- The drive hands out the words of one sector. Without one the bus floats. -/
def Ports.inSector (p : Ports) : List UInt16 × Ports :=
  match p.job with
  | none => (List.replicate sectorWords 0xFFFF, p)
  | some c =>
    if c.write then (List.replicate sectorWords 0xFFFF, p)
    else
      (wordsOf sectorWords (p.chan.media c.drive c.lba).val, { p with job := some c.next })

/-! ## The driver -/

variable (ready : Nat → Bool)

def Ports.waitNotBusy (p : Ports) : Bool × Ports :=
  match p.chan.wait ready with
  | (ok, a) => (ok, { p with chan := a })

/-- The poll that also looks at the error bits and at DRQ. -/
def Ports.waitDrq (p : Ports) : Bool × Ports :=
  match p.chan.wait ready with
  | (ok, a) => (ok && p.hasData, { p with chan := a })

def Ports.selectDrive (p : Ports) (drive : Drive) (lba : UInt32) : Ports :=
  let value := (if drive = .slave then (0xF0 : UInt8) else 0xE0) ||| ((lba >>> 24) &&& 0x0F).toUInt8
  { p with regs := { p.regs with drive := value } }

/-- The writes to the registers in `transfer_chunk`, the command last. -/
def Ports.issue (p : Ports) (drive : Drive) (lba : UInt32) (count : UInt8) (write : Bool) :
    Ports :=
  let p := p.selectDrive drive lba
  let p := { p with regs := { p.regs with features := 0 } }
  let p := { p with regs := { p.regs with secCount := count } }
  let p := { p with regs := { p.regs with lbaLow := (lba &&& 0xFF).toUInt8 } }
  let p := { p with regs := { p.regs with lbaMid := ((lba >>> 8) &&& 0xFF).toUInt8 } }
  let p := { p with regs := { p.regs with lbaHigh := ((lba >>> 16) &&& 0xFF).toUInt8 } }
  p.outCommand (if write then ataCmdWritePio else ataCmdReadPio)

/-- The loop over the sectors of one command. `out` is what went into the buffer so far. -/
def Ports.sectorLoop (write : Bool) :
    Nat → List UInt8 → List UInt8 → Ports → Bool × List UInt8 × Ports
  | 0, _, out, p => (true, out, p)
  | n + 1, buf, out, p =>
    match p.waitDrq ready with
    | (false, p) => (false, out, p)
    | (true, p) =>
      if write then
        sectorLoop write n (buf.drop (2 * sectorWords)) out
          (p.outSector (wordsOf sectorWords buf))
      else
        match p.inSector with
        | (words, p) => sectorLoop write n buf (out ++ words.flatMap wordBytes) p

def Ports.transferChunk (p : Ports) (drive : Drive) (lba : UInt32) (count : UInt8)
    (buf : List UInt8) (write : Bool) : Bool × List UInt8 × Ports :=
  match p.waitNotBusy ready with
  | (false, p) => (false, [], p)
  | (true, p) =>
    let sectors := if count = 0 then 256 else count.toNat
    match Ports.sectorLoop ready write sectors buf [] (p.issue drive lba count write) with
    | (false, out, p) => (false, out, p)
    | (true, out, p) =>
      if write then
        match p.waitNotBusy ready with
        | (false, p) => (false, out, p)
        | (true, p) =>
          match (p.outCommand ataCmdCacheFlush).waitNotBusy ready with
          | (false, p) => (false, out, p)
          | (true, p) => (true, out, p)
      else (true, out, p)

/-- The loop of `transfer`. -/
def Ports.transferLoop (drive : Drive) (write : Bool) :
    Nat → UInt32 → UInt32 → List UInt8 → List UInt8 → Ports → Bool × List UInt8 × Ports
  | fuel, lba, count, buf, out, p =>
    if count = 0 then (true, out, p)
    else
      match fuel with
      | 0 => (false, out, p)
      | fuel + 1 =>
        let chunk : UInt32 := if count > 255 then 255 else count
        match p.transferChunk ready drive lba chunk.toUInt8 buf write with
        | (false, got, p) => (false, out ++ got, p)
        | (true, got, p) =>
          transferLoop drive write fuel (lba + chunk) (count - chunk)
            (buf.drop (chunk.toNat * ataSectorSize)) (out ++ got) p

/-- The result, what went into the buffer, and the channel afterwards. -/
def Ports.transfer (p : Ports) (drive : Drive) (lba count : UInt32) (buf : List UInt8)
    (write : Bool) : Int × List UInt8 × Ports :=
  if ataPresent p.chan drive = false then (-1, [], p)
  else if count = 0 then (0, [], p)
  else if (p.chan.drives drive).sectors < (lba + count).toNat then (-1, [], p)
  else
    match Ports.transferLoop ready drive write count.toNat lba count buf [] p with
    | (false, out, p) => (-1, out, p)
    | (true, out, p) => (0, out, p)

def Ports.ataRead (p : Ports) (drive : Drive) (lba count : UInt32) : Int × List UInt8 × Ports :=
  p.transfer ready drive lba count [] false

def Ports.ataWrite (p : Ports) (drive : Drive) (lba count : UInt32) (buf : List UInt8) :
    Int × Ports :=
  match p.transfer ready drive lba count buf true with
  | (res, _, p) => (res, p)

end LightningOS.Ata
