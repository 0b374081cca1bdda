import LightningOS.Fs.Persist

/-!
# Installing, and booting what was installed

`kernel/install.c` and the part of `boot/boot.asm` that loads the kernel. The installer
writes a boot sector, the kernel and a blank superblock. The boot sector reads the kernel
back, in chunks and through the BIOS, whose calls succeed or fail as `bios` says.

`los_boot_sector` is generated by the build; here it is a parameter.
-/

namespace LightningOS.Install

open ByteMemory Ramfs Ata Persist

/-! ## The installer -/

def installKernelLba : Nat := 1

/-- What the boot sector reads back. -/
def installKernelMax : Nat := 256

def bootFlagAddr : Nat := 0x7000

/-- 'CISO', set by the CD boot stage. -/
def bootFlagCd : Nat := 0x4F534943

def installBootedFromMedium (mem : Memory) : Bool := load32 mem bootFlagAddr = bootFlagCd

/-- The variables of `install.c`. -/
structure Image where
  imageCopy : Option (List UInt8) := none
  imageBytes : Nat := 0

/-- The `n` bytes of memory from `a` on. -/
def readBytes (mem : Memory) (a n : Nat) : List UInt8 := (List.range n).map fun i => mem (a + i)

variable (env : Env) (ready : Nat → Bool)

/-- `start` and `stop` are `_start` and `__image_end`. -/
def installCaptureImage (s : Fs) (mem : Memory) (start stop : Nat) : Image × Fs :=
  let imageBytes := wrap32 (stop - start)
  match s.alloc env imageBytes with
  | (none, s) => ({ imageBytes := imageBytes }, s)
  | (some _, s) =>
    ({ imageCopy := some (readBytes mem start imageBytes), imageBytes := imageBytes }, s)

def installImageSectors (image : Image) : Nat :=
  wrap32 (image.imageBytes + ataSectorSize - 1) / ataSectorSize

def installToDisk (losBootSector : Sector) (sys : System) (image : Image) (drive : Drive) :
    Int × System :=
  let sectors := installImageSectors image
  match image.imageCopy with
  | none => (-1, sys)
  | some copy =>
    if image.imageBytes = 0 then (-1, sys)
    else if ataPresent sys.ata drive = false then (-2, sys)
    else if installKernelMax < sectors then (-3, sys)   -- the boot sector would not read it all
    else if ataSectorCount sys.ata drive < installDataLba + 64 then (-4, sys)
    else
      match ataWrite ready sys.ata drive 0 1 losBootSector.val with
      | (result, ata) =>
        let sys := { sys with ata := ata }
        if result ≠ 0 then (-5, sys)
        else
          -- the kernel, padded out to a whole sector
          let padded := wrap32 (sectors * ataSectorSize)
          match sys.tmpAlloc env padded with
          | (false, sys) => (-6, sys)
          | (true, sys) =>
            let buffer := copy ++ List.replicate (padded - image.imageBytes) 0
            match ataWrite ready sys.ata drive installKernelLba sectors buffer with
            | (result, ata) =>
              let sys := { sys with ata := ata }
              if result ≠ 0 then (-7, sys)
              else
                -- a zeroed superblock
                match ataWrite ready sys.ata drive installDataLba 1
                    (List.replicate ataSectorSize 0) with
                | (result, ata) =>
                  let sys := { sys with ata := ata }
                  if result ≠ 0 then (-8, sys) else (0, sys)

/-! ## The boot sector -/

def kernelSeg : Nat := 0x1000

def kernelLba : Nat := 1

def chunkSectors : Nat := 64

def chunkCount : Nat := 4

variable (bios : Nat → Bool) (disk : Nat → Sector)

/-- Bytes that are transferred to memory. -/
def writeBytes (mem : Memory) (a : Nat) (bytes : List UInt8) : Memory := fun x =>
  if a ≤ x ∧ x < a + bytes.length then bytes.getD (x - a) 0 else mem x

/-- The bytes of `n` sectors from `lba` on. -/
def diskBytes (lba n : Nat) : List UInt8 :=
  (List.range n).flatMap fun i => (disk (lba + i)).val

/-- `.try`, with `tries` more attempts. `time` counts the calls. The result is `none` when
the machine hangs in `disk_error`. -/
def tryChunk (mem : Memory) (dapSeg dapLba : Nat) : Nat → Nat → Option (Memory × Nat)
  | 0, _ => none
  | tries + 1, time =>
    if bios time then
      some (writeBytes mem (dapSeg * 16) (diskBytes disk dapLba chunkSectors), time + 1)
    else tryChunk mem dapSeg dapLba tries (time + 1)

/-- `load_kernel`, with `n` more chunks to read. -/
def loadKernel : Nat → Nat → Nat → Nat → Memory → Option Memory
  | 0, _, _, _, mem => some mem
  | n + 1, dapSeg, dapLba, time, mem =>
    match tryChunk bios disk mem dapSeg dapLba 4 time with
    | none => none
    | some (mem, time) =>
      loadKernel n ((dapSeg + chunkSectors * 512 / 16) % 65536) (wrap32 (dapLba + chunkSectors))
        time mem

/-- What the boot sector leaves in memory. It clears the marker of the CD stage, so that a
disk boot is never mistaken for a boot off the install medium. -/
def bootSector (mem : Memory) : Option Memory :=
  loadKernel bios disk chunkCount kernelSeg kernelLba 0 (store32 mem bootFlagAddr 0)

end LightningOS.Install
