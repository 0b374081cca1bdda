import LightningOS.Lib.CString
import LightningOS.Lib.Layout
import LightningOS.Lib.Numeral

/-!
# The ISO image

`tools/makeiso.py`. What raises an exception gives an `Error`. The image is the bytes that
`build` writes to the file.
-/

namespace LightningOS.MakeIso

open CString Layout Numeral

inductive Error where
  | valueError (text : String)
  | unicodeEncodeError
  | structError

/-- `SECTOR` -/
def sector : Nat := 2048

def pad (data : List UInt8) (size : Nat) : Except Error (List UInt8) :=
  if size < data.length then
    .error (.valueError (toString data.length ++ " bytes do not fit in " ++ toString size))
  else .ok (data ++ List.replicate (size - data.length) 0)

def sectorsFor (length : Nat) : Nat := (length + sector - 1) / sector

/-- `struct.pack` with `<` or `>` and an unsigned format of `width` bytes. -/
def structPack (little : Bool) (width : Nat) (value : Int) : Except Error (List UInt8) :=
  if 0 ≤ value ∧ value < 256 ^ width then
    let bytes := leBytes width value.toNat
    .ok (if little then bytes else bytes.reverse)
  else .error .structError

/-- `bytearray.append` -/
def byte (value : Nat) : Except Error UInt8 :=
  if value < 256 then .ok (UInt8.ofNat value)
  else .error (.valueError "byte must be in range(0, 256)")

/-- `text.encode("ascii")` -/
def encodeAscii (text : String) : Except Error (List UInt8) :=
  if text.toList.all fun c => c.toNat < 128 then .ok (ofString text)
  else .error .unicodeEncodeError

def bothEndian16 (value : Int) : Except Error (List UInt8) := do
  let little ← structPack true 2 value
  let big ← structPack false 2 value
  return little ++ big

def bothEndian32 (value : Int) : Except Error (List UInt8) := do
  let little ← structPack true 4 value
  let big ← structPack false 4 value
  return little ++ big

/-- The six numbers of `when`. -/
structure When where
  year : Int
  month : Int
  day : Int
  hour : Int
  minute : Int
  second : Int

/-- The default of `when`. -/
def defaultWhen : When where
  year := 2026
  month := 1
  day := 1
  hour := 0
  minute := 0
  second := 0

/-- `"%0<width>d" % value` -/
def zeroPadded (width : Nat) (value : Int) : List UInt8 :=
  let sign := if value < 0 then ofString "-" else []
  let digits := numeral (fun d => UInt8.ofNat (48 + d)) 10 value.natAbs
  sign ++ List.replicate (width - (sign.length + digits.length)) 48 ++ digits

def decDatetime (date : When) : List UInt8 :=
  zeroPadded 4 date.year ++ zeroPadded 2 date.month ++ zeroPadded 2 date.day ++
    zeroPadded 2 date.hour ++ zeroPadded 2 date.minute ++ zeroPadded 2 date.second ++
    ofString "00" ++ [0]

def dirDatetime (date : When) : Except Error (List UInt8) := do
  let year ← structPack true 1 (date.year - 1900)
  let month ← structPack true 1 date.month
  let day ← structPack true 1 date.day
  let hour ← structPack true 1 date.hour
  let minute ← structPack true 1 date.minute
  let second ← structPack true 1 date.second
  return year ++ month ++ day ++ hour ++ minute ++ second ++ [0]

/-- The identifier of a record. -/
def identifierOf (name : String) (special : Option UInt8) : Except Error (List UInt8) :=
  match special with
  | none => encodeAscii name
  | some special => .ok [special]

def directoryRecord (name : String) (extent length : Nat) (date : When) (isDir : Bool)
    (special : Option UInt8) : Except Error (List UInt8) := do
  let identifier ← identifierOf name special
  let extents ← bothEndian32 extent
  let lengths ← bothEndian32 length
  let datetime ← dirDatetime date
  let volume ← bothEndian16 1
  let identifierLength ← byte identifier.length
  let record := List.flatten [[0], [0], extents, lengths, datetime, [if isDir then 0x02 else 0x00],
    [0], [0], volume, [identifierLength], identifier]
  let record := if record.length % 2 = 1 then record ++ [0] else record
  let recordLength ← byte record.length
  return record.set 0 recordLength

def primaryVolumeDescriptor (volumeId : String) (totalSectors pathTableSize lePathTable
    bePathTable : Nat) (rootRecord : List UInt8) (date : When) : Except Error (List UInt8) := do
  let system ← pad (ofString "LIGHTNINGOS") 32
  let encoded ← encodeAscii volumeId
  let volume ← pad encoded 32
  let total ← bothEndian32 totalSectors
  let setSize ← bothEndian16 1
  let sequence ← bothEndian16 1
  let sectorSize ← bothEndian16 sector
  let tableSize ← bothEndian32 pathTableSize
  let typeL ← structPack true 4 lePathTable
  let optionalL ← structPack true 4 0
  let typeM ← structPack false 4 bePathTable
  let optionalM ← structPack false 4 0
  let volumeSet ← pad [] 128
  let publisher ← pad (ofString "LIGHTNINGOS") 128
  let preparer ← pad [] 128
  let application ← pad (ofString "MAKEISO.PY") 128
  let biblio ← pad [] 37
  let pvd := List.flatten [[1], ofString "CD001", [1], [0], system, volume, List.replicate 8 0,
    total, List.replicate 32 0, setSize, sequence, sectorSize, tableSize, typeL, optionalL, typeM,
    optionalM, rootRecord, volumeSet, publisher, preparer, application, biblio, biblio, biblio,
    decDatetime date, decDatetime date, List.replicate 17 0, List.replicate 17 0, [1]]
  pad pvd sector

def bootRecordDescriptor (catalogSector : Nat) : Except Error (List UInt8) := do
  let specification ← pad (ofString "EL TORITO SPECIFICATION") 32
  let catalog ← structPack true 4 catalogSector
  let brvd := List.flatten [[0], ofString "CD001", [1], specification, List.replicate 32 0, catalog]
  pad brvd sector

def bootCatalog (imageSector : Nat) (loadSegment sectorCount : Int) :
    Except Error (List UInt8) := do
  let manufacturer ← pad (ofString "LIGHTNINGOS") 24
  let validation := List.flatten [[1], [0], [0, 0], manufacturer, [0, 0], [0x55, 0xAA]]
  let checksum ← structPack true 2 (-(wordSum validation : Int) % 65536)
  let validation := validation.take 28 ++ checksum ++ validation.drop 30
  let segment ← structPack true 2 loadSegment
  let count ← structPack true 2 sectorCount
  let image ← structPack true 4 imageSector
  let entry := List.flatten [[0x88], [0x00], segment, [0], [0], count, image, List.replicate 20 0]
  pad (validation ++ entry) sector

structure Placed where
  name : String
  extent : Nat
  length : Nat
  content : List UInt8

/-- The loop that lays the file data out, with the cursor behind it. -/
def place (cursor : Nat) : List (String × List UInt8) → List Placed × Nat
  | [] => ([], cursor)
  | (name, content) :: entries =>
    let (placed, total) := place (cursor + sectorsFor content.length) entries
    ({ name, extent := cursor, length := content.length, content } :: placed, total)

/-- The loop that adds a record for each file. -/
def fileRecords (date : When) : List Placed → Except Error (List UInt8)
  | [] => .ok []
  | p :: placed => do
    let record ← directoryRecord (p.name ++ ";1") p.extent p.length date false none
    let records ← fileRecords date placed
    return record ++ records

/-- The loop that adds the data of each file. -/
def fileData : List Placed → Except Error (List UInt8)
  | [] => .ok []
  | p :: placed => do
    let data ← pad p.content (sectorsFor p.content.length * sector)
    let rest ← fileData placed
    return data ++ rest

/-- What `build` returns. -/
structure Summary where
  sectors : Nat
  bytes : Nat
  bootImageSector : Nat
  bootLoadSectors : Int

def pvdSector : Nat := 16
def catalogSector : Nat := 19
def lePathSector : Nat := 20
def bePathSector : Nat := 21
def rootSector : Nat := 22
def dataSector : Nat := 23

/-- The entries of the root directory, the boot image last. -/
def entries (files : List (String × List UInt8)) (bootImage : List UInt8) :
    List (String × List UInt8) :=
  files ++ [("BOOT.IMG", bootImage)]

/-- The root directory, before it is padded. -/
def rootDirectory (date : When) (placed : List Placed) : Except Error (List UInt8) := do
  let dot ← directoryRecord "" rootSector sector date true (some 0)
  let dotdot ← directoryRecord "" rootSector sector date true (some 1)
  let records ← fileRecords date placed
  return dot ++ (dotdot ++ records)

/-- A path table with the root only. -/
def pathTable (little : Bool) : Except Error (List UInt8) := do
  let root ← structPack little 4 rootSector
  let parent ← structPack little 2 1
  return List.flatten [[1], [0], root, parent, [0], [0]]

def build (volumeId : String) (bootImage : List UInt8) (files : List (String × List UInt8))
    (loadSegment bootLoadSectors : Int) (date : When) : Except Error (List UInt8 × Summary) := do
  let (placed, totalSectors) := place dataSector (entries files bootImage)
  let bootImageSector := (placed.getLast?.map Placed.extent).getD 0
  let root ← rootDirectory date placed
  if sector < root.length then
    throw (.valueError "the root directory needs more than one sector")
  let rootData ← pad root sector
  let lePath ← pathTable true
  let bePath ← pathTable false
  let rootRecord ← directoryRecord "" rootSector sector date true (some 0)
  if rootRecord.length ≠ 34 then
    throw (.valueError ("root record is " ++ toString rootRecord.length ++ " bytes, expected 34"))
  let pvd ← primaryVolumeDescriptor volumeId totalSectors lePath.length lePathSector bePathSector
    rootRecord date
  let brvd ← bootRecordDescriptor catalogSector
  let terminator ← pad (List.flatten [[0xFF], ofString "CD001", [1]]) sector
  let catalog ← bootCatalog bootImageSector loadSegment bootLoadSectors
  let leTable ← pad lePath sector
  let beTable ← pad bePath sector
  let data ← fileData placed
  let image := List.flatten [List.replicate (pvdSector * sector) 0, pvd, brvd, terminator, catalog,
    leTable, beTable, rootData] ++ data
  let summary := {
    sectors := totalSectors
    bytes := image.length
    bootImageSector := bootImageSector
    bootLoadSectors := bootLoadSectors
  }
  return (image, summary)

end LightningOS.MakeIso
