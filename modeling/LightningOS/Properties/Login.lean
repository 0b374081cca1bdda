import Mathlib.Logic.Relation
import LightningOS.Properties.Boot

/-!
# Who gets in

A run begins with `kmain` and goes on turn by turn. Whoever sits at a shell is an account
whose name and password were typed at a prompt of the same run, and has stayed logged in
from there on. At all the other prompts nobody is logged in. And from the first login on
there is an administrator.
-/

namespace LightningOS.Main

open CString Ramfs Ata Users Persist Shell Install Relation

variable {env : Env} {ready : Nat → Bool} {typed : Nat → Option (List UInt8)}
variable {losBootSector : Sector} {image : Image}
variable {t t' : Table} {s s' : Fs} {m m' : Machine} {i : UserSlot}

/-- The account that is logged in. -/
def Machine.current (m : Machine) : Option UserSlot := m.st.sys.table.current

def Machine.account (m : Machine) (i : UserSlot) : User := m.st.sys.table.users i

/-- One turn. -/
def Step (env : Env) (ready : Nat → Bool) (typed : Nat → Option (List UInt8))
    (losBootSector : Sector) (image : Image) (m m' : Machine) : Prop :=
  turn env ready typed losBootSector image m = some m'

/-- The name in a line with `su`. -/
def suName (line : List UInt8) : List UInt8 := ((strSplit argMax line)[1]?).getD (ofString "root")

/-- The name of the account is typed at the prompt where the machine is, and then a password
with the right hash. -/
inductive Proves (typed : Nat → Option (List UInt8)) (m : Machine) (i : UserSlot) : Prop
  | login {name : List UInt8} {st : Session} : m.place = .login →
      m.st.readLine typed userNameMax = (true, name, st) → (m.account i).name = name →
      (m.account i).pwHash = hashPassword (answer typed st) → Proves typed m i
  | su {ok : Bool} {line : List UInt8} {st : Session} : m.place = .shell →
      m.st.readLine typed lineMax = (ok, line, st) → commandOf line = .su →
      (m.account i).name = suName line →
      (m.account i).pwHash = hashPassword (answer typed st) → Proves typed m i

/-- A turn at the shell before and after which the account is logged in. -/
structure Stays (env : Env) (ready : Nat → Bool) (typed : Nat → Option (List UInt8))
    (losBootSector : Sector) (image : Image) (i : UserSlot) (m m' : Machine) : Prop where
  turn : Step env ready typed losBootSector image m m'
  place : m.place = .shell
  before : m.current = some i
  after : m'.current = some i

/-- The same account, with the same password or another one. -/
def SameAccount (u v : User) : Prop := u.name = v.name ∧ u.uid = v.uid ∧ u.home = v.home

/-! ## Who is logged in -/

def KeepsCurrent : AccountOp → Prop
  | .switch _ _ => False
  | .logout => False
  | _ => True

theorem accountStep_current {op : AccountOp} {res : Int} (hop : KeepsCurrent op)
    (h : accountStep env t s op = some (res, t', s')) : t'.current = t.current := by
  cases op with
  | add available name password admin =>
    rcases usersAdd_spec h with ⟨-, rfl, -⟩ | ⟨-, -, slot, u, s₁, -, -, -, -, -, -, -, rfl⟩
    · rfl
    · rfl
  | importUser name home uid gid pwHash =>
    rcases usersImport_spec h with ⟨-, rfl, -⟩ | ⟨-, -, slot, -, rfl⟩
    · rfl
    · rfl
  | delete name =>
    rcases usersDelete_spec h with ⟨-, rfl, -⟩ | ⟨-, -, j, -, -, -, rfl⟩
    · rfl
    · rfl
  | setPassword name password =>
    simp only [accountStep, Option.some.injEq, Prod.mk.injEq] at h
    rcases usersSetPassword_spec t name password with ⟨-, heq⟩ | ⟨-, j, -, heq⟩
    · rw [← h.2.1, heq]
    · rw [← h.2.1, heq]
      rfl
  | switch name password => exact absurd hop id
  | logout => exact absurd hop id

theorem current_closed (c : Option UserSlot) :
    Closed env (fun _ _ => True) KeepsCurrent fun t _ => t.current = c where
  files h _ _ _ := h
  accounts h _ hop hstep := (accountStep_current hop hstep).trans h
  time _ h := h

/-- Nobody is logged in after a boot, and the table is in order. -/
theorem kmain_table {boot : System} (htable : boot.table = usersInit)
    (h : kmain env ready boot = some m) :
    m.current = none ∧ TableInv m.st.sys.table ∧ m.place.Locked := by
  unfold kmain at h
  obtain ⟨⟨state, sys⟩, hmount, rfl⟩ := Option.map_eq_some_iff.mp h
  refine ⟨?_, ?_, ?_⟩
  · refine (current_closed none).persistMount gentle_true (fun _ _ _ _ _ => trivial) ?_ hmount
    rw [htable]
    rfl
  · refine tableInv_closed.persistMount gentle_true imports_true ?_ hmount
    rw [htable]
    exact .init
  · constructor
    · show (if sys.bootedFromMedium then Place.menu else start sys.table) ≠ .shell
      split
      · simp
      · exact start_ne_shell _
    · show (if sys.bootedFromMedium then Place.menu else start sys.table) ≠ .off
      unfold start
      split
      · simp
      · split <;> simp

/-! ## What becomes of the account that is logged in -/

theorem changed_same (h : Changed t t') (hinv : TableInv t) (hcur : t.current = some i) :
    SameAccount (t'.users i) (t.users i) := by
  have hactive := hinv.current hcur
  cases h with
  | @insert slot u next hacc _ =>
    have hfree := freeSlot_spec hacc.free
    have hne : i ≠ slot := by
      rintro rfl
      rw [hactive] at hfree
      simp at hfree
    simp [SameAccount, Table.setUser, hne]
  | @remove j _ _ hnot =>
    have hne : i ≠ j := by
      rintro rfl
      exact hnot hcur
    simp [SameAccount, Table.setUser, hne]
  | @password j hash _ =>
    by_cases hij : i = j
    · subst hij
      simp [SameAccount, Table.setUser]
    · simp [SameAccount, Table.setUser, hij]
  | login _ => exact ⟨rfl, rfl, rfl⟩
  | logout => exact ⟨rfl, rfl, rfl⟩

theorem accountStep_changed {op : AccountOp} {res : Int}
    (h : accountStep env t s op = some (res, t', s')) : t' = t ∨ Changed t t' := by
  rcases accountStep_cases h with ⟨-, heq⟩ | ⟨-, hchanged⟩
  · exact Or.inl heq
  · exact Or.inr hchanged

theorem effect_changed {st st' : Session} {line : List UInt8} (h : Effect env typed st line st') :
    st'.sys.table = st.sys.table ∨ Changed st.sys.table st'.sys.table := by
  cases h with
  | quiet _ htable | chdir _ _ htable | create _ _ _ _ htable | remove _ _ _ _ htable
  | write _ _ _ _ _ htable | createWrite _ _ htable | createOnly _ _ _ htable =>
    exact Or.inl htable
  | @useradd available name password _ hadd _ =>
    have hstep : accountStep env st.sys.table st.sys.fs (.add available name password false) =
        some (0, st'.sys.table, st'.sys.fs) := hadd
    exact accountStep_changed hstep
  | @userdel name _ hdel _ =>
    have hstep : accountStep env st.sys.table st.sys.fs (.delete name) =
        some (0, st'.sys.table, st'.sys.fs) := hdel
    exact accountStep_changed hstep
  | @passwd name password _ _ hset _ _ =>
    have hstep : accountStep env st.sys.table st.sys.fs (.setPassword name password) =
        some (0, st'.sys.table, st.sys.fs) := by
      rw [accountStep, hset]
    exact accountStep_changed hstep
  | @su name _ hswitch =>
    have hstep : accountStep env st.sys.table st.sys.fs (.switch name (answer typed st)) =
        some (0, st'.sys.table, st'.sys.fs) := hswitch
    exact accountStep_changed hstep

theorem execute_su {st : Session} {line : List UInt8} (hc : commandOf line = .su) :
    execute env ready typed st line = cmdSu typed st (strSplit argMax line) := by
  obtain ⟨name, words, hargv, hname⟩ := argv_of_command line (by rw [hc]; simp)
  unfold execute
  simp only [hargv, hname, hc]

theorem cmdSu_current {st st' : Session} {argv : List (List UInt8)}
    (h : cmdSu typed st argv = some st') :
    st'.sys.table.current = st.sys.table.current ∨
      ∃ j, usersFind st.sys.table ((argv[1]?).getD (ofString "root")) = some j ∧
        (st.sys.table.users j).pwHash = hashPassword (answer typed st) ∧
        st'.sys.table = { st.sys.table with current := some j } := by
  unfold cmdSu at h
  simp only at h
  split at h
  · obtain rfl := Option.some.inj h
    exact Or.inl rfl
  · have hread := @readLine_sys typed st passwordMax
    have hanswer : answer typed st = (st.readLine typed passwordMax).2.1 := rfl
    rcases hr : st.readLine typed passwordMax with ⟨ok, password, st₁⟩
    rw [hr] at hread hanswer
    have hsys : st₁.sys = st.sys := hread
    have hpassword : answer typed st = password := hanswer
    simp only [hr] at h
    rw [hsys, ← hpassword] at h
    split at h
    · simp at h
    next result t s hswitch =>
      have htable : st'.sys.table = t := by
        split at h
        · rw [← Option.some.inj h]
          rfl
        · rw [← Option.some.inj h]
          rfl
      rw [htable]
      rcases usersSwitch_spec hswitch with ⟨-, rfl, -⟩ | ⟨-, j, hfind, hcheck, rfl, -⟩
      · exact Or.inl rfl
      · exact Or.inr ⟨j, hfind, hcheck, rfl⟩

/-- Only `su` changes who is logged in. -/
theorem execute_current {st st' : Session} {line : List UInt8}
    (h : execute env ready typed st line = some st') :
    st'.sys.table.current = st.sys.table.current ∨ commandOf line = .su ∧
      ∃ j, usersFind st.sys.table (suName line) = some j ∧
        (st.sys.table.users j).pwHash = hashPassword (answer typed st) ∧
        st'.sys.table = { st.sys.table with current := some j } := by
  by_cases hc : commandOf line = .su
  · rw [execute_su hc] at h
    exact (cmdSu_current h).imp_right fun hsu => ⟨hc, hsu⟩
  · refine Or.inl ?_
    cases execute_effect h with
    | quiet _ htable | chdir _ _ htable | create _ _ _ _ htable | remove _ _ _ _ htable
    | write _ _ _ _ _ htable | createWrite _ _ htable | createOnly _ _ _ htable => rw [htable]
    | @useradd available name password _ hadd _ =>
      have hop : KeepsCurrent (.add available name password false) := trivial
      exact accountStep_current hop hadd
    | @userdel name _ hdel _ =>
      have hop : KeepsCurrent (.delete name) := trivial
      exact accountStep_current hop hdel
    | @passwd name password _ _ hset _ _ =>
      have hop : KeepsCurrent (.setPassword name password) := trivial
      have hstep : accountStep env st.sys.table st.sys.fs (.setPassword name password) =
          some (0, st'.sys.table, st.sys.fs) := by
        rw [accountStep, hset]
      exact accountStep_current hop hstep
    | su hsu _ => exact absurd hsu hc

/-! ## Nobody gets in without a password -/

/-- What a run from `m₀` has led to. -/
structure LoggedIn (env : Env) (ready : Nat → Bool) (typed : Nat → Option (List UInt8))
    (losBootSector : Sector) (image : Image) (m₀ m : Machine) (i : UserSlot) : Prop where
  current : m.current = some i
  active : (m.account i).active = true
  proved : ∃ m₁ m₂, ReflTransGen (Step env ready typed losBootSector image) m₀ m₁ ∧
    (m₁.account i).active = true ∧ Proves typed m₁ i ∧
    Step env ready typed losBootSector image m₁ m₂ ∧
    ReflTransGen (Stays env ready typed losBootSector image i) m₂ m ∧
    SameAccount (m.account i) (m₁.account i)

theorem SameAccount.refl (u : User) : SameAccount u u := ⟨rfl, rfl, rfl⟩

theorem SameAccount.trans {u v w : User} (h : SameAccount u v) (h' : SameAccount v w) :
    SameAccount u w :=
  ⟨h.1.trans h'.1, h.2.1.trans h'.2.1, h.2.2.trans h'.2.2⟩

/-- The step of the run: the last turn either goes on with the session or starts it. -/
theorem LoggedIn.step {m₀ : Machine}
    (hrun : ReflTransGen (Step env ready typed losBootSector image) m₀ m)
    (hinv : TableInv m.st.sys.table) (hinv' : TableInv m'.st.sys.table)
    (hin : m.place = .shell → ∃ i, LoggedIn env ready typed losBootSector image m₀ m i)
    (hout : m.place.Locked → m.current = none)
    (hstep : Step env ready typed losBootSector image m m') :
    (m'.place = .shell → ∃ i, LoggedIn env ready typed losBootSector image m₀ m' i) ∧
      (m'.place.Locked → m'.current = none) := by
  cases turn_effect hstep with
  | off hoff hm =>
    rw [hm, hoff]
    exact ⟨fun h => by simp at h, fun h => absurd rfl h.2⟩
  | idle hlocked hnot _ htable =>
    refine ⟨fun h => absurd h hnot, fun _ => ?_⟩
    unfold Machine.current
    rw [htable]
    exact hout hlocked
  | @add available admin name password _ hlocked hnot hadd =>
    have hop : KeepsCurrent (.add available name password admin) := trivial
    refine ⟨fun h => absurd h hnot, fun _ => ?_⟩
    exact (accountStep_current hop hadd).trans (hout hlocked)
  | login hplace hshell hread hswitch _ =>
    rcases usersSwitch_spec hswitch with ⟨hneg, -⟩ | ⟨-, j, hfind, hcheck, htable, -⟩
    · simp at hneg
    obtain ⟨hactive, hname⟩ := usersFind_some hfind
    have hcur : m'.current = some j := by
      unfold Machine.current
      rw [htable]
    have haccount : m'.account j = m.account j := by
      unfold Machine.account
      rw [htable]
    refine ⟨fun _ => ⟨j, hcur, hinv'.current hcur, m, m', hrun, hactive,
      .login hplace hread hname hcheck, hstep, .refl, ?_⟩, fun h => absurd hshell h.1⟩
    rw [haccount]
    exact .refl _
  | @command ok line st st' hplace hread hexec _ htable =>
    have hsys : st.sys = m.st.sys := by
      have hsame := @readLine_sys typed m.st lineMax
      rw [hread] at hsame
      exact hsame
    rcases htable with ⟨hstays, htable⟩ | ⟨hlogin, htable⟩
    · refine ⟨fun _ => ?_, fun h => ?_⟩
      · obtain ⟨i, hcur, hactive, m₁, m₂, hrun₁, hactive₁, hproves, hstep₁, hstay, hsame⟩ :=
          hin hplace
        rcases execute_current hexec with hkept | ⟨hc, j, hfind, hcheck, hsu⟩
        · -- the session goes on
          rw [hsys] at hkept
          have hcur' : m'.current = some i := by
            unfold Machine.current
            rw [htable, hkept]
            exact hcur
          have haccount : SameAccount (m'.account i) (m.account i) := by
            unfold Machine.account
            rw [htable, ← hsys]
            rcases effect_changed (execute_effect hexec) with heq | hchanged
            · rw [heq]
              exact .refl _
            · rw [← hsys] at hinv
              refine changed_same hchanged hinv ?_
              rw [hsys]
              exact hcur
          exact ⟨i, hcur', hinv'.current hcur', m₁, m₂, hrun₁, hactive₁, hproves, hstep₁,
            hstay.tail ⟨hstep, hplace, hcur, hcur'⟩, haccount.trans hsame⟩
        · -- `su` starts another one
          rw [hsys] at hfind hcheck
          obtain ⟨hactive', hname⟩ := usersFind_some hfind
          have hcur₂ : m'.current = some j := by
            unfold Machine.current
            rw [htable, hsu]
          refine ⟨j, hcur₂, hinv'.current hcur₂, m, m', hrun, hactive',
            .su hplace hread hc hname hcheck, hstep, .refl, ?_⟩
          unfold Machine.account
          rw [htable, hsu, hsys]
          exact .refl _
      · rcases hstays with hshell | hoff
        · exact absurd hshell h.1
        · exact absurd hoff h.2
    · refine ⟨fun h => ?_, fun _ => ?_⟩
      · rw [hlogin] at h
        simp at h
      · unfold Machine.current
        rw [htable]
        rfl

/-- **Nobody gets in without a password.** In every run from a boot, whoever is at a shell is
an account whose name and password were typed at an earlier prompt, and has stayed logged in
since. At every other prompt nobody is logged in. -/
theorem authenticated {boot : System} {m₀ : Machine} (htable : boot.table = usersInit)
    (hboot : kmain env ready boot = some m₀)
    (hrun : ReflTransGen (Step env ready typed losBootSector image) m₀ m) :
    (m.place = .shell → ∃ i, LoggedIn env ready typed losBootSector image m₀ m i) ∧
      (m.place.Locked → m.current = none) := by
  obtain ⟨hnone, hinv₀, hlocked⟩ := kmain_table htable hboot
  have hall : TableInv m.st.sys.table ∧
      (m.place = .shell → ∃ i, LoggedIn env ready typed losBootSector image m₀ m i) ∧
      (m.place.Locked → m.current = none) := by
    induction hrun with
    | refl => exact ⟨hinv₀, fun h => absurd h hlocked.1, fun _ => hnone⟩
    | tail hrun hstep ih =>
      obtain ⟨hinv, hin, hout⟩ := ih
      have hinv' := tableInv_closed.turn_any hinv hstep
      exact ⟨hinv', LoggedIn.step hrun hinv hinv' hin hout hstep⟩
  exact hall.2

/-- A machine without disks. -/
def diskless : System where
  fs := skeleton
  table := usersInit
  persist := {}
  ata := {
    size := fun _ => 0
    media := fun _ _ => Sector.ofBytes []
    drives := fun _ => {}
    time := 0 }
  bootedFromMedium := false

/-- A password for `root` twice, no other account, and a login. -/
def rootTyped (prompt : Nat) : Option (List UInt8) :=
  if prompt = 2 ∨ prompt = 3 then some []
  else if prompt = 4 then some (ofString "root")
  else some secret

/-- The setup of a new machine, and the first login. -/
theorem rootTyped_run : ∃ m₀ m₁ m₂ m₃ m₄, kmain .ample (fun _ => true) diskless = some m₀ ∧
    Step .ample (fun _ => true) rootTyped (Sector.ofBytes []) {} m₀ m₁ ∧
    Step .ample (fun _ => true) rootTyped (Sector.ofBytes []) {} m₁ m₂ ∧
    Step .ample (fun _ => true) rootTyped (Sector.ofBytes []) {} m₂ m₃ ∧
    Step .ample (fun _ => true) rootTyped (Sector.ofBytes []) {} m₃ m₄ ∧
    usersSetupNeeded m₀.st.sys.table = true ∧
    [m₀.place, m₁.place, m₂.place, m₃.place, m₄.place] =
      [.rootPassword, .userName, .setupDone, .login, .shell] := by
  have h : ((kmain .ample (fun _ => true) diskless).bind fun m₀ =>
      (turn .ample (fun _ => true) rootTyped (Sector.ofBytes []) {} m₀).bind fun m₁ =>
      (turn .ample (fun _ => true) rootTyped (Sector.ofBytes []) {} m₁).bind fun m₂ =>
      (turn .ample (fun _ => true) rootTyped (Sector.ofBytes []) {} m₂).bind fun m₃ =>
      (turn .ample (fun _ => true) rootTyped (Sector.ofBytes []) {} m₃).map fun m₄ =>
        (usersSetupNeeded m₀.st.sys.table,
          [m₀.place, m₁.place, m₂.place, m₃.place, m₄.place])) =
      some (true, [.rootPassword, .userName, .setupDone, .login, .shell]) := by decide +kernel
  simp only [Option.bind_eq_some_iff, Option.map_eq_some_iff, Prod.mk.injEq] at h
  obtain ⟨m₀, hboot, m₁, h₁, m₂, h₂, m₃, h₃, m₄, h₄, hneeded, hplaces⟩ := h
  exact ⟨m₀, m₁, m₂, m₃, m₄, hboot, h₁, h₂, h₃, h₄, hneeded, hplaces⟩

/-- The first login on a new machine. -/
theorem authenticated_root : ∃ m₀ m, kmain .ample (fun _ => true) diskless = some m₀ ∧
    m.place = .shell ∧
      ∃ i, LoggedIn .ample (fun _ => true) rootTyped (Sector.ofBytes []) {} m₀ m i := by
  obtain ⟨m₀, m₁, m₂, m₃, m₄, hboot, h₁, h₂, h₃, h₄, -, hplaces⟩ := rootTyped_run
  simp only [List.cons.injEq] at hplaces
  have hplace : m₄.place = .shell := hplaces.2.2.2.2.1
  have hrun := (((ReflTransGen.single h₁).tail h₂).tail h₃).tail h₄
  exact ⟨m₀, m₄, hboot, hplace, (authenticated rfl hboot hrun).1 hplace⟩

/-! ## There is an administrator -/

theorem hasRoot_closed {okFs : Fs → FsOp → Prop} {ok : AccountOp → Prop} :
    Closed env okFs ok fun t _ => HasRoot t where
  files h _ _ _ := h
  accounts h _ _ hstep := by
    rcases accountStep_changed hstep with heq | hchanged
    · rw [heq]
      exact h
    · exact h.changed hchanged
  time _ h := h

theorem setupNeeded_inactive (h : usersSetupNeeded t = true) (i : UserSlot) :
    (t.users i).active = false := by
  have hnil : activeSlots t = [] := by
    simpa [usersSetupNeeded, usersCount] using h
  have hnot : i ∉ activeSlots t := by
    rw [hnil]
    exact List.not_mem_nil
  simpa [activeSlots] using hnot

/-- An empty table takes `root`. -/
theorem usersAdd_first {available : Bool} {password : List UInt8} {res : Int}
    (hempty : usersSetupNeeded t = true) (hlen : passwordMin ≤ password.length)
    (h : usersAdd env available t s (ofString "root") password true = some (res, t', s')) :
    HasRoot t' := by
  have hinactive := setupNeeded_inactive hempty
  have hvalid : validName (ofString "root") = true := by decide +kernel
  have hfind : usersFind t (ofString "root") = none := by
    unfold usersFind
    split
    · rfl
    · rw [List.find?_eq_none]
      intro i _
      simp [hinactive i]
  obtain ⟨slot, hslot⟩ : ∃ slot, freeSlot t = some slot := by
    refine Option.isSome_iff_exists.mp ?_
    unfold freeSlot
    rw [List.find?_isSome]
    exact ⟨⟨0, by decide⟩, List.mem_finRange _, by simp [hinactive]⟩
  have hcases := usersAdd_spec h
  rcases hcases with ⟨hneg, -, -⟩ | ⟨-, -, slot', u, s₁, -, -, hactive, -, huid, -, -, rfl⟩
  · -- nothing speaks against it
    unfold usersAdd at h
    rw [if_neg (by simp [hvalid]), if_neg (by simp [hfind]), if_neg (by omega)] at h
    simp only [hslot] at h
    split at h
    · simp at h
    · obtain ⟨s₂, -, heq⟩ := Option.map_eq_some_iff.mp h
      obtain ⟨hres, -⟩ := Prod.mk.inj heq
      rw [← hres] at hneg
      simp at hneg
  · refine ⟨slot', ?_, ?_⟩
    · simpa [Table.setUser] using hactive
    · simpa [Table.setUser] using huid

theorem askNewPassword_length {st st' : Session} {password : List UInt8}
    (h : askNewPassword typed st = (.accepted password, st')) : passwordMin ≤ password.length := by
  unfold askNewPassword at h
  rcases st.readLine typed passwordMax with ⟨ok, out, st₁⟩
  simp only at h
  split at h
  · simp at h
  · split at h
    · simp at h
    next hlen =>
      rcases st₁.readLine typed passwordMax with ⟨ok', again, st₂⟩
      split at h
      · simp at h
      · split at h
        · simp at h
        · obtain ⟨hout, -⟩ := Prod.mk.inj h
          rw [← Entry.accepted.inj hout]
          omega

theorem rootPasswordTurn_cases {st : Session} (hempty : usersSetupNeeded st.sys.table = true)
    (h : rootPasswordTurn env typed st = some m) :
    m.place = .rootPassword ∧ m.st.sys.table = st.sys.table ∨
      m.place = .userName ∧ HasRoot m.st.sys.table := by
  have hask := @askNewPassword_sys typed st
  unfold rootPasswordTurn at h
  rcases hr : askNewPassword typed st with ⟨entry, st₁⟩
  rw [hr] at hask h
  have hsys : st₁.sys = st.sys := hask
  cases entry with
  | accepted password =>
    obtain ⟨st₂, hadd, rfl⟩ := Option.map_eq_some_iff.mp h
    obtain ⟨res, hadd⟩ := addUser_cases hadd
    rw [hsys] at hadd
    exact Or.inr ⟨rfl, usersAdd_first hempty (askNewPassword_length hr) hadd⟩
  | cancelled =>
    obtain rfl := Option.some.inj h
    exact Or.inl ⟨rfl, by rw [hsys]⟩
  | again =>
    obtain rfl := Option.some.inj h
    exact Or.inl ⟨rfl, by rw [hsys]⟩

/-- The menu is left for the setup or the login, whichever the table asks for. -/
theorem menuTurn_cases (st : Session) :
    (menuTurn env ready typed losBootSector image st).st.sys.table = st.sys.table ∧
      ((menuTurn env ready typed losBootSector image st).place = .menu ∨
        (menuTurn env ready typed losBootSector image st).place = start st.sys.table ∨
        (menuTurn env ready typed losBootSector image st).place = .off) := by
  have hread := @readLine_sys typed st shortMax
  unfold menuTurn
  rcases hr : st.readLine typed shortMax with ⟨ok, choice, st₁⟩
  rw [hr] at hread
  have hsys : st₁.sys = st.sys := hread
  simp only
  split
  · exact ⟨by rw [hsys], Or.inl rfl⟩
  · split
    · obtain ⟨-, htable⟩ := @doInstall_frame env ready typed losBootSector image st₁
      exact ⟨by rw [htable, hsys], Or.inl rfl⟩
    · split
      · exact ⟨by rw [hsys], Or.inr (Or.inl (by rw [hsys]))⟩
      · split
        · exact ⟨by rw [hsys], Or.inr (Or.inr rfl)⟩
        · exact ⟨by rw [hsys], Or.inl rfl⟩

/-- Either nothing is set up, or there is an administrator. -/
def SetUp (t : Table) : Prop := usersSetupNeeded t = true ∨ HasRoot t

/-- Before there is a `root`, nothing but the menu and the question for its password. -/
structure Guarded (m : Machine) : Prop where
  setUp : SetUp m.st.sys.table
  root : m.place ≠ .menu → m.place ≠ .rootPassword → m.place ≠ .off → HasRoot m.st.sys.table

theorem Guarded.of_hasRoot (h : HasRoot m.st.sys.table) : Guarded m :=
  ⟨Or.inr h, fun _ _ _ => h⟩

theorem guarded_start {st : Session} (h : SetUp st.sys.table) :
    Guarded ⟨start st.sys.table, st⟩ := by
  refine ⟨h, fun _ hplace _ => h.resolve_left fun hneeded => hplace ?_⟩
  show start st.sys.table = .rootPassword
  unfold start
  rw [if_pos hneeded]

theorem Guarded.step (h : Guarded m) (hstep : Step env ready typed losBootSector image m m') :
    Guarded m' := by
  by_cases hroot : HasRoot m.st.sys.table
  · -- an administrator stays
    exact .of_hasRoot (hasRoot_closed.turn_any hroot hstep)
  · have hempty := h.setUp.resolve_right hroot
    obtain ⟨place, st⟩ := m
    unfold Step turn at hstep
    cases place with
    | menu =>
      obtain rfl := Option.some.inj hstep
      obtain ⟨htable, hplace⟩ :=
        @menuTurn_cases env ready typed losBootSector image st
      have hsetUp : SetUp (menuTurn env ready typed losBootSector image st).st.sys.table := by
        rw [htable]
        exact h.setUp
      rcases hplace with hmenu | hstart | hoff
      · exact ⟨hsetUp, fun hne => absurd hmenu hne⟩
      · have hneeded : start st.sys.table = .rootPassword := by
          unfold start
          rw [if_pos hempty]
        exact ⟨hsetUp, fun _ hne => absurd (hstart.trans hneeded) hne⟩
      · exact ⟨hsetUp, fun _ _ hne => absurd hoff hne⟩
    | rootPassword =>
      rcases rootPasswordTurn_cases hempty hstep with ⟨hplace, htable⟩ | ⟨-, hadded⟩
      · refine ⟨?_, fun _ hne => absurd hplace hne⟩
        rw [htable]
        exact h.setUp
      · exact .of_hasRoot hadded
    | off =>
      obtain rfl := Option.some.inj hstep
      exact h
    | userName => exact absurd (h.root (by simp) (by simp) (by simp)) hroot
    | userPassword name => exact absurd (h.root (by simp) (by simp) (by simp)) hroot
    | setupDone => exact absurd (h.root (by simp) (by simp) (by simp)) hroot
    | login => exact absurd (h.root (by simp) (by simp) (by simp)) hroot
    | shell => exact absurd (h.root (by simp) (by simp) (by simp)) hroot

/-- **There is an administrator** at every login and at every shell, unless a snapshot brought
accounts without one. -/
theorem administered {boot : System} {m₀ : Machine} (hboot : kmain env ready boot = some m₀)
    (hsetUp : SetUp m₀.st.sys.table)
    (hrun : ReflTransGen (Step env ready typed losBootSector image) m₀ m)
    (hplace : m.place = .login ∨ m.place = .shell) : HasRoot m.st.sys.table := by
  have hguarded : Guarded m := by
    clear hplace
    induction hrun with
    | refl =>
      unfold kmain at hboot
      obtain ⟨⟨state, sys⟩, -, rfl⟩ := Option.map_eq_some_iff.mp hboot
      dsimp only at hsetUp ⊢
      split
      · exact ⟨hsetUp, fun hne => absurd rfl hne⟩
      · have hsys : SetUp ({ sys := sys } : Session).sys.table := hsetUp
        exact guarded_start hsys
    | tail _ hstep ih => exact ih.step hstep
  refine hguarded.root ?_ ?_ ?_
  · rcases hplace with hplace | hplace <;> simp [hplace]
  · rcases hplace with hplace | hplace <;> simp [hplace]
  · rcases hplace with hplace | hplace <;> simp [hplace]

/-- The setup of a new machine makes one. -/
theorem administered_setup : ∃ m₀ m : Machine, kmain .ample (fun _ => true) diskless = some m₀ ∧
    m.place = .shell ∧ HasRoot m.st.sys.table := by
  obtain ⟨m₀, m₁, m₂, m₃, m₄, hboot, h₁, h₂, h₃, h₄, hneeded, hplaces⟩ := rootTyped_run
  simp only [List.cons.injEq] at hplaces
  have hplace : m₄.place = .shell := hplaces.2.2.2.2.1
  have hrun := (((ReflTransGen.single h₁).tail h₂).tail h₃).tail h₄
  exact ⟨m₀, m₄, hboot, hplace, administered hboot (Or.inl hneeded) hrun (Or.inr hplace)⟩

end LightningOS.Main
