import LightningOS.Fs.Ramfs

/-!
# Accounts

`kernel/users.c`, without the prompts. The table has eight slots, and the account that is
logged in is a slot of it. Names and home directories are the text in their buffers.
-/

namespace LightningOS.Users

open CString Ramfs

def userNameMax : Nat := 32

def userHomeMax : Nat := 64

def userMax : Nat := 8

def passwordMin : Nat := 4

/-- `user_t`. -/
structure User where
  name : List UInt8 := []
  home : List UInt8 := []
  uid : UInt32 := 0
  gid : UInt32 := 0
  pwHash : UInt32 := 0
  active : Bool := false
  deriving DecidableEq, Repr

abbrev UserSlot := Fin userMax

/-- The variables of `users.c`. -/
structure Table where
  users : UserSlot → User
  current : Option UserSlot
  nextUid : UInt32

def Table.setUser (t : Table) (i : UserSlot) (u : User) : Table :=
  { t with users := fun j => if j = i then u else t.users j }

/-! ## Password hashes -/

def fnvBasis : UInt32 := 2166136261

def fnvPrime : UInt32 := 16777619

def hashBytes (hash : UInt32) (bytes : List UInt8) : UInt32 :=
  bytes.foldl (fun h b => (h ^^^ b.toUInt32) * fnvPrime) hash

def stir (hash : UInt32) (rounds : Nat) : UInt32 :=
  (List.range rounds).foldl
    (fun h round => ((h ^^^ (h >>> 13)) * fnvPrime) ^^^ UInt32.ofNat round) hash

def hashPassword (password : List UInt8) : UInt32 :=
  let hash := hashBytes (hashBytes fnvBasis (ofString "LightningOS/v2")) password
  let hash := stir hash 4096
  if hash = 0 then 1 else hash

/-! ## The table -/

def usersInit : Table := { users := fun _ => {}, current := none, nextUid := 1000 }

def freeSlot (t : Table) : Option UserSlot :=
  (List.finRange userMax).find? fun i => !(t.users i).active

/-- The slots in use, in the order of the table. -/
def activeSlots (t : Table) : List UserSlot :=
  (List.finRange userMax).filter fun i => (t.users i).active

def usersCount (t : Table) : Nat := (activeSlots t).length

def usersAt (t : Table) (index : Nat) : Option User := ((activeSlots t)[index]?).map t.users

def usersSetupNeeded (t : Table) : Bool := usersCount t = 0

def usersFind (t : Table) (name : List UInt8) : Option UserSlot :=
  if name = [] then none
  else (List.finRange userMax).find? fun i => (t.users i).active && (t.users i).name = name

def usersIsRoot (t : Table) : Bool :=
  match t.current with
  | none => false
  | some i => (t.users i).uid = 0

def usersCheckPassword (u : User) (password : List UInt8) : Bool :=
  u.pwHash = hashPassword password

def isLetter (c : UInt8) : Bool := (97 ≤ c && c ≤ 122) || (65 ≤ c && c ≤ 90)

def isDigit (c : UInt8) : Bool := 48 ≤ c && c ≤ 57

def nameChar (c : UInt8) : Bool := isLetter c || isDigit c || c = 95 || c = 45

def validName (name : List UInt8) : Bool :=
  match name with
  | [] => false
  | c :: _ => name.length < userNameMax && name.all nameChar && !isDigit c

/-! ## /etc/passwd -/

/-- `%u`. -/
def decimal (n : UInt32) : List UInt8 := ofString (toString n.toNat)

/-- One line, as `ksnprintf` leaves it in 160 bytes. -/
def passwdLine (u : User) : List UInt8 :=
  (u.name ++ ofString ":x:" ++ decimal u.uid ++ ofString ":" ++ decimal u.gid ++ ofString ":" ++
    u.name ++ ofString ":" ++ u.home ++ ofString ":/bin/lsh\n").take 159

variable (env : Env)

/-- Writes the lines of the active accounts, the first one over the old contents. -/
def writePasswd (file : Option Ptr) : Bool → List User → Fs → Option Fs
  | first, [], s => if first then (fsWrite env s file [] false).map Prod.snd else some s
  | first, u :: us, s =>
    match fsWrite env s file (passwdLine u) (!first) with
    | none => none
    | some (_, s) => writePasswd file false us s

def syncPasswdFile (t : Table) (s : Fs) : Option Fs :=
  match fsResolve s etcPasswd with
  | none => none
  | some (some file) => writePasswd env (some file) true ((activeSlots t).map t.users) s
  | some none =>
    match fsCreate env s etcPasswd .file with
    | none => none
    | some (none, s) => some s
    | some (some file, s) => writePasswd env (some file) true ((activeSlots t).map t.users) s

/-! ## Changing accounts -/

def readmeText (available : Bool) : List UInt8 :=
  (if available then
    ofString "Changes here are written to the data disk after every\n" ++
      ofString "command, so they survive a reboot. 'df' shows the disk.\n"
  else
    ofString "No data disk is attached, so this directory lives in RAM\n" ++
      ofString "and is gone on reboot.\n") ++
    ofString "You may write here and in /tmp; the rest of the tree is\n" ++
    ofString "read-only unless you are root.\n" ++
    ofString "Try: echo hello > note.txt, then cat note.txt\n"

/-- Creates the home directory with its readme, unless the path leads somewhere already. -/
def makeHome (available : Bool) (home : List UInt8) (s : Fs) : Option Fs :=
  match fsResolve s home with
  | none => none
  | some (some _) => some s
  | some none =>
    match fsCreate env s home .dir with
    | none => none
    | some (_, s) =>
      match fsCreate env s ((home ++ ofString "/readme.txt").take (fsPathMax - 1)) .file with
      | none => none
      | some (readme, s) => (fsWrite env s readme (readmeText available) false).map Prod.snd

/-- `available` is what `persist_available()` says. -/
def usersAdd (available : Bool) (t : Table) (s : Fs) (name password : List UInt8) (admin : Bool) :
    Option (Int × Table × Fs) :=
  if validName name = false then some (-1, t, s)
  else if usersFind t name ≠ none then some (-2, t, s)
  else if password.length < passwordMin then some (-3, t, s)
  else
    match freeSlot t with
    | none => some (-4, t, s)
    | some slot =>
      let user : User := {
        name := name.take (userNameMax - 1)
        home := if admin then ofString "/root"
          else (ofString "/home/" ++ name).take (userHomeMax - 1)
        uid := if admin then 0 else t.nextUid
        gid := if admin then 0 else t.nextUid
        pwHash := hashPassword password
        active := true }
      let nextUid := if admin then t.nextUid else t.nextUid + 1
      let t := { t.setUser slot user with nextUid := nextUid }
      match makeHome env available user.home s with
      | none => none
      | some s => (syncPasswdFile env t s).map fun s => (0, t, s)

/-- Restores a saved account as it is. -/
def usersImport (t : Table) (s : Fs) (name home : List UInt8) (uid gid pwHash : UInt32) :
    Option (Int × Table × Fs) :=
  if validName name = false ∨ usersFind t name ≠ none then some (-1, t, s)
  else
    match freeSlot t with
    | none => some (-4, t, s)
    | some slot =>
      let user : User := {
        name := name.take (userNameMax - 1)
        home := home.take (userHomeMax - 1)
        uid := uid
        gid := gid
        pwHash := pwHash
        active := true }
      let nextUid := if t.nextUid ≤ uid then uid + 1 else t.nextUid
      let t := { t.setUser slot user with nextUid := nextUid }
      (syncPasswdFile env t s).map fun s => (0, t, s)

def usersDelete (t : Table) (s : Fs) (name : List UInt8) : Option (Int × Table × Fs) :=
  match usersFind t name with
  | none => some (-1, t, s)
  | some i =>
    if (t.users i).uid = 0 then some (-2, t, s)       -- never remove the last administrator
    else if t.current = some i then some (-3, t, s)
    else
      let t := t.setUser i { t.users i with active := false }
      (syncPasswdFile env t s).map fun s => (0, t, s)

def usersSetPassword (t : Table) (name password : List UInt8) : Int × Table :=
  match usersFind t name with
  | none => (-1, t)
  | some i =>
    if password.length < passwordMin then (-3, t)
    else (0, t.setUser i { t.users i with pwHash := hashPassword password })

def usersSwitch (t : Table) (s : Fs) (name password : List UInt8) : Option (Int × Table × Fs) :=
  match usersFind t name with
  | none => some (-1, t, s)
  | some i =>
    if usersCheckPassword (t.users i) password = false then some (-2, t, s)
    else
      match fsResolve s (t.users i).home with
      | none => none
      | some dir => (fsSetCwd s dir).map fun s => (0, { t with current := some i }, s)

def usersLogout (t : Table) : Table := { t with current := none }

/-! ## What an account may write -/

/-- `path` starts with `dir`, and the next character ends it or is a slash. -/
def atOrBelow (dir path : List UInt8) : Bool :=
  path.take dir.length = dir &&
    match path.drop dir.length with
    | [] => true
    | c :: _ => c = slash

def usersMayWrite (t : Table) (abspath : List UInt8) : Bool :=
  if usersIsRoot t then true
  else
    match t.current with
    | none => false
    | some i => atOrBelow (t.users i).home abspath || atOrBelow (ofString "/tmp") abspath

end LightningOS.Users
