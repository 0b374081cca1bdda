import LightningOS.Drivers.Ata
import LightningOS.Kernel.Users

/-!
# Snapshots on disk

`fs/persist.c`. A snapshot is one superblock and, behind it, a payload: the accounts and
then the tree, depth first. `persist_save` writes both, `persist_mount` chooses a place
for the snapshot and restores what it finds there, and `persist_format` wipes the
superblock and seals the layer until the next boot.

The reader keeps a record of what it copied and where it stood (`trace`), for the proofs
about its bounds. Nothing else looks at it.
-/

namespace LightningOS.Persist

open ByteMemory CString Ramfs Users Ata

def installDataLba : Nat := 2048

def maxPayload : Nat := 1024 * 1024

def persistVersion : Nat := 1

def kindFile : UInt8 := 1

def kindDir : UInt8 := 2

inductive PersistState where
  | noDisk
  | empty
  | loaded
  | error
  deriving DecidableEq, Repr

/-- The variables of `persist.c`. -/
structure Vars where
  state : PersistState := .noDisk
  dirty : Bool := false
  bytesUsed : Nat := 0
  saveCount : Nat := 0
  isSealed : Bool := false
  dataDrive : Drive := .slave
  dataBase : Nat := 0
  dataWhere : List UInt8 := ofString "none"

/-- The machine, as far as snapshots are concerned. `bootedFromMedium` is what
`install_booted_from_medium()` says. -/
structure System where
  fs : Fs
  table : Table
  persist : Vars
  ata : Channel
  bootedFromMedium : Bool

/-! ## Superblocks -/

/-- `super_t`, without the reserved bytes. -/
structure Super where
  magic : List UInt8
  version : Nat
  payloadBytes : Nat
  nodeCount : Nat
  userCount : Nat
  checksum : Nat
  saves : Nat
  deriving DecidableEq, Repr

/-- "LOSFS" and three zeros. -/
def magicBytes : List UInt8 := [76, 79, 83, 70, 83, 0, 0, 0]

def le16 (n : Nat) : List UInt8 := [UInt8.ofNat n, UInt8.ofNat (n / 256)]

def le32 (n : Nat) : List UInt8 :=
  [UInt8.ofNat n, UInt8.ofNat (n / 256), UInt8.ofNat (n / 65536), UInt8.ofNat (n / 16777216)]

/-- The value of bytes in little-endian order. -/
def leValue : List UInt8 → Nat
  | [] => 0
  | b :: bs => b.toNat + 256 * leValue bs

/-- The value of the word at an offset. -/
def le32At (bytes : List UInt8) (off : Nat) : Nat := leValue ((bytes.drop off).take 4)

def Super.encode (s : Super) : List UInt8 :=
  s.magic ++ le32 s.version ++ le32 s.payloadBytes ++ le32 s.nodeCount ++ le32 s.userCount ++
    le32 s.checksum ++ le32 s.saves ++ List.replicate 480 0

def Super.decode (bytes : List UInt8) : Super where
  magic := bytes.take 8
  version := le32At bytes 8
  payloadBytes := le32At bytes 12
  nodeCount := le32At bytes 16
  userCount := le32At bytes 20
  checksum := le32At bytes 24
  saves := le32At bytes 28

def checksum (data : List UInt8) : UInt32 := hashBytes fnvBasis data

def sectorsFor (bytes : Nat) : Nat := wrap32 (bytes + ataSectorSize - 1) / ataSectorSize

/-! ## Writing -/

/-- `writer_t`. The bytes written so far are the used part of the buffer. -/
structure Writer where
  buffer : List UInt8
  capacity : Nat
  overflow : Bool

def Writer.used (w : Writer) : Nat := w.buffer.length

/-- `put_bytes` of the first `length` bytes at `data`; `none` if it reads behind the
data or writes behind the buffer. -/
def putBytes (w : Writer) (data : List UInt8) (length : Nat) : Option Writer :=
  if w.capacity < wrap32 (w.used + length) then some { w with overflow := true }
  else if data.length < length ∨ w.capacity < w.used + length then none
  else some { w with buffer := w.buffer ++ data.take length }

def putU8 (w : Writer) (value : UInt8) : Option Writer := putBytes w [value] 1

def putU16 (w : Writer) (value : Nat) : Option Writer := putBytes w (le16 value) 2

def putU32 (w : Writer) (value : Nat) : Option Writer := putBytes w (le32 value) 4

def putString (w : Writer) (s : List UInt8) : Option Writer := do
  let length := s.length % 256
  let w ← putU8 w (UInt8.ofNat length)
  putBytes w s length

def putUser (w : Writer) (user : User) : Option Writer := do
  let w ← putString w user.name
  let w ← putString w user.home
  let w ← putU32 w user.uid.toNat
  let w ← putU32 w user.gid.toNat
  putU32 w user.pwHash.toNat

/-- The loop over the accounts. -/
def putUsers (t : Table) : List Nat → Writer → Nat → Option (Writer × Nat)
  | [], w, count => some (w, count)
  | i :: is, w, count =>
    match usersAt t i with
    | none => putUsers t is w count
    | some user =>
      match putUser w user with
      | none => none
      | some w => putUsers t is w (count + 1)

def writeNode (s : Fs) (w : Writer) (node : Ptr) (count : Nat) : Option (Writer × Nat) := do
  let path ← fsAbspath s node fsPathMax
  let n ← s.nodes.get node
  if path = [] then some (w, count)                   -- the root itself is implicit
  else
    let pathLen := path.length % 65536
    let dataLen := if n.type = .file then n.size else 0
    let w ← putU8 w (if n.type = .dir then kindDir else kindFile)
    let w ← putU16 w pathLen
    let w ← putU32 w dataLen
    let w ← putBytes w path pathLen
    match n.data with
    | none => some (w, count + 1)
    | some d =>
      if dataLen = 0 then some (w, count + 1)
      else
        let bytes ← s.bufs.get d
        let w ← putBytes w bytes dataLen
        some (w, count + 1)

/-- `write_tree` from the child `child` on. -/
def writeTree (s : Fs) : Nat → Option Ptr → Writer → Nat → Option (Writer × Nat)
  | _, none, w, count => some (w, count)
  | 0, some _, _, _ => none
  | fuel + 1, some child, w, count =>
    match writeNode s w child count with
    | none => none
    | some (w, count) =>
      match s.nodes.get child with
      | none => none
      | some c =>
        match (if c.type = .dir then writeTree s fuel c.children w count else some (w, count)) with
        | none => none
        | some (w, count) => writeTree s fuel c.next w count

/-- The payload of the snapshot: the writer, `user_count` and `node_count`. -/
def encodeAll (s : Fs) (t : Table) : Option (Writer × Nat × Nat) := do
  let w : Writer := { buffer := [], capacity := maxPayload, overflow := false }
  let (w, userCount) ← putUsers t (List.range (usersCount t)) w 0
  let root ← s.rootNode
  let rn ← s.nodes.get root
  let (w, nodeCount) ← writeTree s (s.nodes.brk + 1) rn.children w 0
  some (w, userCount, nodeCount)

variable (env : Env) (ready : Nat → Bool)

/-- Ask for `n` bytes that are given back before the function returns. -/
def System.tmpAlloc (sys : System) (n : Nat) : Bool × System :=
  let (p, fs) := sys.fs.alloc env n
  (p.isSome, { sys with fs := fs })

/-- The rest of `persist_save` once the payload is in the buffer. -/
def writeSnapshot (sys : System) (payload : List UInt8) (userCount nodeCount : Nat) :
    Int × System :=
  let used := payload.length
  let sectors := if sectorsFor used = 0 then 1 else sectorsFor used
  let padded := sectors * ataSectorSize
  let saves := wrap32 (sys.persist.saveCount + 1)
  let super : Super := {
    magic := magicBytes
    version := persistVersion
    payloadBytes := used
    nodeCount := nodeCount
    userCount := userCount
    checksum := (checksum payload).toNat
    saves := saves }
  let p := { sys.persist with saveCount := saves }
  -- the tail of the last sector is padding
  match ataWrite ready sys.ata p.dataDrive (wrap32 (p.dataBase + 1)) sectors
      (payload ++ List.replicate (padded - used) 0) with
  | (result, ata) =>
    if result ≠ 0 then (-3, { sys with persist := p, ata := ata })
    else
      match ataWrite ready ata p.dataDrive p.dataBase 1 super.encode with
      | (result, ata) =>
        if result ≠ 0 then (-4, { sys with persist := p, ata := ata })
        else
          (0, { sys with
            ata := ata
            persist := { p with
              bytesUsed := used
              state := .loaded
              dirty := false
              dataWhere := if p.dataBase = 0 then ofString "primary slave, sector 0"
                else ofString "boot disk, data area" } })

def persistSave (sys : System) : Option (Int × System) :=
  if sys.persist.isSealed then some (-5, sys)           -- wiped, waiting for a reboot
  else if sys.persist.state = .noDisk then some (0, sys)
  else
    match sys.tmpAlloc env maxPayload with
    | (false, sys) => some (-1, sys)
    | (true, sys) =>
      match encodeAll sys.fs sys.table with
      | none => none
      | some (w, userCount, nodeCount) =>
        if w.overflow then some (-2, sys)             -- snapshot outgrew the reserve
        else some (writeSnapshot ready sys w.buffer userCount nodeCount)

/-! ## Reading -/

/-- A step of the reader: it copies bytes, or moves on. -/
inductive Event where
  | copy (start len : Nat)
  | move (start stop : Nat)
  deriving DecidableEq, Repr

/-- `reader_t`, and what it did, latest first. -/
structure Reader where
  buffer : List UInt8
  length : Nat
  pos : Nat
  bad : Bool
  trace : List Event

/-- The result is `none` for `false`, or the bytes that were copied. -/
def takeBytes (r : Reader) (length : Nat) : Option (List UInt8) × Reader :=
  if r.length < wrap32 (r.pos + length) then (none, { r with bad := true })
  else
    (some ((r.buffer.drop r.pos).take length),
      { r with
        pos := wrap32 (r.pos + length)
        trace := .move r.pos (wrap32 (r.pos + length)) :: .copy r.pos length :: r.trace })

/-- `take_u8`, `take_u16` or `take_u32`: a number of some bytes, 0 when they are missing. -/
def takeNumber (r : Reader) (bytes : Nat) : Nat × Reader :=
  match takeBytes r bytes with
  | (none, r) => (0, r)
  | (some out, r) => (leValue out, r)

def takeU8 (r : Reader) : Nat × Reader := takeNumber r 1

def takeU16 (r : Reader) : Nat × Reader := takeNumber r 2

def takeU32 (r : Reader) : Nat × Reader := takeNumber r 4

def takeString (r : Reader) (outSize : Nat) : Option (List UInt8) × Reader :=
  match takeU8 r with
  | (length, r) =>
    if r.bad = true ∨ outSize ≤ length then (none, { r with bad := true })
    else
      match takeBytes r length with
      | (none, r) => (none, r)
      | (some out, r) => (some (text out), r)

/-- One account of the payload. The inner `none` is the `break`. -/
def takeUser (r : Reader) : Option User × Reader :=
  match takeString r userNameMax with
  | (none, r) => (none, r)
  | (some name, r) =>
    match takeString r userHomeMax with
    | (none, r) => (none, r)
    | (some home, r) =>
      match takeU32 r with
      | (uid, r) =>
        match takeU32 r with
        | (gid, r) =>
          match takeU32 r with
          | (hash, r) =>
            if r.bad then (none, r)
            else
              (some { name := name, home := home, uid := UInt32.ofNat uid,
                      gid := UInt32.ofNat gid, pwHash := UInt32.ofNat hash }, r)

/-- The loop over the accounts. The state is lost if the heap gets corrupted, but the
reader still tells how far it came. -/
def mountUsers : Nat → Reader → Table → Fs → Reader × Option (Table × Fs)
  | 0, r, t, s => (r, some (t, s))
  | n + 1, r, t, s =>
    if r.bad then (r, some (t, s))
    else
      match takeUser r with
      | (none, r) => (r, some (t, s))
      | (some u, r) =>
        match usersImport env t s u.name u.home u.uid u.gid u.pwHash with
        | none => (r, none)
        | some (_, t, s) => mountUsers n r t s

/-- The head of a node record: kind, path and length of the data. -/
structure NodeHead where
  kind : Nat
  path : List UInt8
  dataLen : Nat

@[irreducible] def takeHead (r : Reader) : Option NodeHead × Reader :=
  match takeU8 r with
  | (kind, r) =>
    match takeU16 r with
    | (pathLen, r) =>
      match takeU32 r with
      | (dataLen, r) =>
        if r.bad = true ∨ pathLen = 0 ∨ fsPathMax ≤ pathLen then (none, { r with bad := true })
        else
          match takeBytes r pathLen with
          | (none, r) => (none, r)
          | (some path, r) => (some { kind := kind, path := text path, dataLen := dataLen }, r)

/-- `fs_create`, or `fs_resolve` if that does not give a node. -/
def createOrResolve (s : Fs) (head : NodeHead) : Option (Option Ptr × Fs) :=
  match fsCreate env s head.path (if head.kind = kindDir.toNat then .dir else .file) with
  | none => none
  | some (some node, s) => some (some node, s)
  | some (none, s) => (fsResolve s head.path).map fun node => (node, s)

/-- The data goes into the node if it is a file. -/
def writeData (s : Fs) (node : Option Ptr) (src : List UInt8) (len : Nat) :
    Option Fs :=
  match node with
  | none => some s
  | some p =>
    match s.nodes.get p with
    | none => none
    | some n =>
      if n.type = .file then (fsWriteN env s (some p) src len false).map Prod.snd else some s

/-- Does the record's data go into a file? Then it is copied from the buffer. -/
def copiesData (s : Fs) (node : Option Ptr) : Bool :=
  match node.bind s.nodes.get with
  | none => false
  | some n => n.type = .file

/-- The loop over the nodes. -/
def mountNodes : Nat → Reader → Fs → Reader × Option Fs
  | 0, r, s => (r, some s)
  | n + 1, r, s =>
    if r.bad then (r, some s)
    else
      match takeHead r with
      | (none, r) => (r, some s)
      | (some head, r) =>
        match createOrResolve env s head with
        | none => (r, none)
        | some (node, s) =>
          if head.dataLen = 0 then mountNodes n r s
          else if r.length < wrap32 (r.pos + head.dataLen) then ({ r with bad := true }, some s)
          else
            let trace :=
              if copiesData s node then .copy r.pos head.dataLen :: r.trace else r.trace
            let stop := wrap32 (r.pos + head.dataLen)
            let r' := { r with pos := stop, trace := .move r.pos stop :: trace }
            match writeData env s node (r.buffer.drop r.pos) head.dataLen with
            | none => (r', none)
            | some s => mountNodes n r' s

/-! ## Finding the snapshot -/

/-- Does the drive carry one of our superblocks at `base`? -/
def probe (a : Channel) (drive : Drive) (base : Nat) : Bool × Channel :=
  if ataPresent a drive = false then (false, a)
  else if ataSectorCount a drive ≤ base + 1 then (false, a)
  else
    match ataRead ready a drive base 1 with
    | (none, a) => (false, a)
    | (some bytes, a) => ((Super.decode bytes).magic = magicBytes, a)

def Vars.place (p : Vars) (drive : Drive) (base : Nat) (txt : String) : Vars :=
  { p with dataDrive := drive, dataBase := base, dataWhere := ofString txt }

/-- An existing snapshot wins; with none to be found, a dedicated disk is preferred. -/
def chooseLocation (p : Vars) (a : Channel) : Bool × Vars × Channel :=
  match probe ready a .slave 0 with
  | (true, a) => (true, p.place .slave 0 "primary slave, sector 0", a)
  | (false, a) =>
    match probe ready a .master installDataLba with
    | (true, a) => (true, p.place .master installDataLba "boot disk, data area", a)
    | (false, a) =>
      if ataPresent a .slave then (true, p.place .slave 0 "primary slave, sector 0 (blank)", a)
      else if ataPresent a .master ∧ installDataLba + 64 < ataSectorCount a .master then
        (true, p.place .master installDataLba "boot disk, data area (blank)", a)
      else (false, p, a)

/-! ## Mounting -/

def System.setState (sys : System) (st : PersistState) : System :=
  { sys with persist := { sys.persist with state := st } }

/-- Restores the tree and the accounts from a payload whose checksum was right. -/
def restore (sys : System) (super : Super) (buffer : List UInt8) : Reader × Option System :=
  let r : Reader :=
    { buffer := buffer, length := super.payloadBytes, pos := 0, bad := false, trace := [] }
  match fsReset env sys.fs with
  | none => (r, none)
  | some s =>
    match mountUsers env super.userCount r sys.table s with
    | (r, none) => (r, none)
    | (r, some (t, s)) =>
      match mountNodes env super.nodeCount r s with
      | (r, none) => (r, none)
      | (r, some s) => (r, some { sys with fs := s, table := t })

/-- The rest of `persist_mount` once a superblock of ours was read. -/
def mountSnapshot (sys : System) (super : Super) : Option (PersistState × System) :=
  if super.version ≠ persistVersion ∨ super.payloadBytes = 0 ∨ maxPayload < super.payloadBytes then
    some (.error, sys.setState .error)
  else
    let sectors := sectorsFor super.payloadBytes
    match sys.tmpAlloc env (sectors * ataSectorSize) with
    | (false, sys) => some (.error, sys.setState .error)
    | (true, sys) =>
      match ataRead ready sys.ata sys.persist.dataDrive (wrap32 (sys.persist.dataBase + 1))
          sectors with
      | (none, ata) => some (.error, { sys with ata := ata }.setState .error)
      | (some buffer, ata) =>
        let sys := { sys with ata := ata }
        if (checksum (buffer.take super.payloadBytes)).toNat ≠ super.checksum then
          some (.error, sys.setState .error)          -- torn or corrupted snapshot
        else
          match restore env sys super buffer with
          | (_, none) => none
          | (r, some sys) =>
            if r.bad then some (.error, sys.setState .error)
            else
              some (.loaded, { sys with persist := { sys.persist with
                bytesUsed := super.payloadBytes
                saveCount := super.saves
                state := .loaded
                dirty := false } })

def persistMount (sys : System) : Option (PersistState × System) :=
  let sys := { sys with
    persist := { sys.persist with isSealed := false }
    ata := ataInit ready sys.ata }
  -- a live session off the install medium stays in RAM
  if sys.bootedFromMedium then
    some (.noDisk, { sys with persist := { sys.persist with
      dataWhere := ofString "none, running from the install medium"
      state := .noDisk } })
  else
    match chooseLocation ready sys.persist sys.ata with
    | (false, p, ata) =>
      some (.noDisk, { sys with
        persist := { p with dataWhere := ofString "none", state := .noDisk }
        ata := ata })
    | (true, p, ata) =>
      let sys := { sys with persist := p, ata := ata }
      match ataRead ready sys.ata p.dataDrive p.dataBase 1 with
      | (none, ata) => some (.error, { sys with ata := ata }.setState .error)
      | (some bytes, ata) =>
        let sys := { sys with ata := ata }
        let super := Super.decode bytes
        if super.magic ≠ magicBytes then some (.empty, sys.setState .empty)
        else mountSnapshot env ready sys super

/-! ## Wiping and flushing -/

def persistFormat (sys : System) : Int × System :=
  if sys.persist.state = .noDisk then (-1, sys)
  else
    match ataWrite ready sys.ata sys.persist.dataDrive sys.persist.dataBase 1
        (List.replicate ataSectorSize 0) with
    | (result, ata) =>
      if result ≠ 0 then (-2, { sys with ata := ata })
      else
        (0, { sys with
          ata := ata
          persist := { sys.persist with
            state := .empty
            bytesUsed := 0
            saveCount := 0
            dirty := false
            isSealed := true } })

def persistMarkDirty (sys : System) : System :=
  { sys with persist := { sys.persist with dirty := true } }

def persistFlush (sys : System) : Option (Int × System) :=
  if sys.persist.dirty = false then some (0, sys) else persistSave env ready sys

def persistAvailable (sys : System) : Bool := sys.persist.state ≠ .noDisk

end LightningOS.Persist
