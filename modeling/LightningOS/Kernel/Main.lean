import LightningOS.Kernel.Install
import LightningOS.Kernel.Shell

/-!
# From power on to power off

What happens at the prompts, one after the other: `kmain`, the installer's menu, the first
boot setup, the login and the shell. The machine is always at one place, which is the next
thing that it asks, and a turn is what comes of the answers. Only what is printed is left out.

`install_capture_image` ran before, and `image` is what it kept.
-/

namespace LightningOS.Main

open CString Ramfs Ata Users Persist Shell Install

variable (env : Env) (ready : Nat → Bool) (typed : Nat → Option (List UInt8))
variable (losBootSector : Sector) (image : Image)

/-- What is asked next. -/
inductive Place where
  | menu
  | rootPassword
  | userName
  | userPassword (name : List UInt8)
  | setupDone
  | login
  | shell
  | off
  deriving DecidableEq

structure Machine where
  place : Place
  st : Session

/-! ## The installer's menu -/

def installFindTarget (a : Channel) : Option Drive :=
  if ataPresent a .master then some .master
  else if ataPresent a .slave then some .slave
  else none

/-- The buffers for short answers have eight bytes. -/
def shortMax : Nat := 8

/-- Waits for Enter. -/
def waitEnter (st : Session) (size : Nat) : Session := (st.readLine typed size).2.2

def doInstall (st : Session) : Session :=
  match installFindTarget st.sys.ata with
  | none => waitEnter typed st shortMax
  | some target =>
    match st.readLine typed shortMax with
    | (ok, answer, st) =>
      if ok = false ∨ answer ≠ yes then waitEnter typed st shortMax
      else
        match installToDisk env ready losBootSector st.sys image target with
        | (_, sys) => waitEnter typed { st with sys := sys } shortMax

/-- What `kmain` does after the menu, or without it. -/
def start (t : Table) : Place := if usersSetupNeeded t then .rootPassword else .login

/-- One turn of the loop of `install_run_menu`. -/
def menuTurn (st : Session) : Machine :=
  match st.readLine typed shortMax with
  | (ok, choice, st) =>
    if ok = false then ⟨.menu, st⟩
    else if choice = ofString "1" then ⟨.menu, doInstall env ready typed losBootSector image st⟩
    else if choice = ofString "2" then ⟨start st.sys.table, st⟩
    else if choice = ofString "3" then ⟨.off, st⟩
    else ⟨.menu, st⟩

/-! ## The first boot -/

/-- How one turn of the loop of `ask_new_password` ends. -/
inductive Entry where
  | cancelled
  | again
  | accepted (password : List UInt8)

def askNewPassword (st : Session) : Entry × Session :=
  match st.readLine typed passwordMax with
  | (ok, out, st) =>
    if ok = false then (.cancelled, st)
    else if out.length < passwordMin then (.again, st)
    else
      match st.readLine typed passwordMax with
      | (ok, again, st) =>
        if ok = false then (.cancelled, st)
        else if out ≠ again then (.again, st)
        else (.accepted out, st)

def addUser (st : Session) (name password : List UInt8) (admin : Bool) : Option Session :=
  (usersAdd env (persistAvailable st.sys) st.sys.table st.sys.fs name password admin).map
    fun r => (st.setTable r.2.1).setFs r.2.2

/-- Asks until there is a password for `root`. -/
def rootPasswordTurn (st : Session) : Option Machine :=
  match askNewPassword typed st with
  | (.accepted password, st) =>
    (addUser env st (ofString "root") password true).map fun st => ⟨.userName, st⟩
  | (_, st) => some ⟨.rootPassword, st⟩

/-- Asks for the name of an everyday account, which may be skipped. -/
def userNameTurn (st : Session) : Machine :=
  match st.readLine typed userNameMax with
  | (ok, name, st) =>
    if ok = false ∨ name = [] then ⟨.setupDone, st⟩
    else if validName name = false then ⟨.userName, st⟩
    else if usersFind st.sys.table name ≠ none then ⟨.userName, st⟩
    else ⟨.userPassword name, st⟩

def userPasswordTurn (name : List UInt8) (st : Session) : Option Machine :=
  match askNewPassword typed st with
  | (.cancelled, st) => some ⟨.userName, st⟩
  | (.again, st) => some ⟨.userPassword name, st⟩
  | (.accepted password, st) => (addUser env st name password false).map fun st => ⟨.setupDone, st⟩

/-- The end of the setup, and the save after it. -/
def setupDoneTurn (st : Session) : Option Machine :=
  match waitEnter typed st userNameMax with
  | st => (persistSave env ready st.sys).map fun r => ⟨.login, { st with sys := r.2 }⟩

/-! ## Sessions -/

def etcMotd : List UInt8 := ofString "/etc/motd"

/-- Prints the message of the day, and opens the session. -/
def showMotd (st : Session) : Option Session :=
  match fsResolve st.sys.fs etcMotd with
  | none => none
  | some none => some { st with sessionOpen := true }
  | some (some motd) =>
    match st.sys.fs.nodes.get motd with
    | none => none
    | some n => (writeFileData st.sys.fs n).map fun _ => { st with sessionOpen := true }

/-- The beginning of `shell_run`. -/
def shellStart (st : Session) : Option Session :=
  match currentHome st.sys.table with
  | none => showMotd st
  | some home =>
    match fsResolve st.sys.fs home with
    | none => none
    | some dir =>
      match fsSetCwd st.sys.fs (if dir.isSome then dir else st.sys.fs.rootNode) with
      | none => none
      | some s => showMotd (st.setFs s)

/-- One turn of the loop of `users_login`. After Ctrl-C the password is empty. -/
def loginTurn (st : Session) : Option Machine :=
  match st.readLine typed userNameMax with
  | (ok, name, st) =>
    if ok = false ∨ name = [] then some ⟨.login, st⟩
    else
      match st.readLine typed passwordMax with
      | (_, password, st) =>
        match usersSwitch st.sys.table st.sys.fs name password with
        | none => none
        | some (result, t, s) =>
          if result = 0 then
            (shellStart ((st.setTable t).setFs s)).map fun st => ⟨.shell, st⟩
          else some ⟨.login, (st.setTable t).setFs s⟩

/-- Behind the loop of `shell_run`. -/
def afterTurn (st : Session) : Machine :=
  if st.halted then ⟨.off, st⟩
  else if st.sessionOpen then ⟨.shell, st⟩
  else ⟨.login, st.setTable (usersLogout st.sys.table)⟩

/-! ## The machine -/

def turn (m : Machine) : Option Machine :=
  match m.place with
  | .menu => some (menuTurn env ready typed losBootSector image m.st)
  | .rootPassword => rootPasswordTurn env typed m.st
  | .userName => some (userNameTurn typed m.st)
  | .userPassword name => userPasswordTurn env typed name m.st
  | .setupDone => setupDoneTurn env ready typed m.st
  | .login => loginTurn typed m.st
  | .shell => (shellTurn env ready typed m.st).map afterTurn
  | .off => some m

/-- `kmain` up to the first prompt. `boot` has the tree that `fs_init` made. -/
def kmain (boot : System) : Option Machine :=
  (persistMount env ready boot).map fun r =>
    ⟨if r.2.bootedFromMedium then .menu else start r.2.table, { sys := r.2 }⟩

end LightningOS.Main
