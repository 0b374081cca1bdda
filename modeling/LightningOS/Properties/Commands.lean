import LightningOS.Kernel.Shell
import LightningOS.Properties.Accounts
import LightningOS.Properties.PersistRun
import LightningOS.Properties.Siblings

/-!
# What a command does

Every command line has one of a few effects on the tree, the accounts and the dirty flag.
`execute_effect` says which ones there are, and what was checked first. Everything that is
proved about commands goes by cases on it.
-/

namespace LightningOS.Shell

open ByteMemory CString Ramfs Users Persist

variable {env : Env} {ready : Nat → Bool} {typed : Nat → Option (List UInt8)}

/-! ## Calls that change nothing -/

/-- Nothing happened, but the environment was asked. -/
def Quiet (s s' : Fs) : Prop := ∃ t, s' = { s with time := t }

theorem Quiet.refl (s : Fs) : Quiet s s := ⟨s.time, rfl⟩

theorem Quiet.create {s s' : Fs} {path : List UInt8} {type : FsType}
    (h : fsCreate env s path type = some (none, s')) : Quiet s s' := by
  obtain ⟨t, -, ht⟩ := fsCreate_none h
  exact ⟨t, ht⟩

/-- Linking a node to its parent changes links only. -/
theorem appendChild_get {s s' : Fs} {d p q : Ptr} {m : FsNode}
    (h : appendChild s d p = some s') (hm : s'.nodes.get q = some m) :
    ∃ n, s.nodes.get q = some n ∧ m.type = n.type ∧ m.data = n.data ∧ m.size = n.size ∧
      m.capacity = n.capacity := by
  have hset : ∀ {r : Ptr} {n k : FsNode}, s' = s.setNode r k → s.nodes.get r = some n →
      k.type = n.type → k.data = n.data → k.size = n.size → k.capacity = n.capacity →
      ∃ n, s.nodes.get q = some n ∧ m.type = n.type ∧ m.data = n.data ∧ m.size = n.size ∧
        m.capacity = n.capacity := by
    intro r n k heq hr ht hd hs hc
    have hk : (s.nodes.set r k).get q = some m := by
      rw [heq] at hm
      exact hm
    by_cases hq : q = r
    · subst hq
      rw [Store.get_set_same] at hk
      rw [← Option.some.inj hk]
      exact ⟨n, hr, ht, hd, hs, hc⟩
    · rw [Store.get_set_other hq] at hk
      exact ⟨m, hk, rfl, rfl, rfl, rfl⟩
  unfold appendChild at h
  split at h
  · simp at h
  next pn hpn =>
    split at h
    · exact hset (Option.some.inj h).symm hpn rfl rfl rfl rfl
    · split at h
      · simp at h
      · split at h
        · simp at h
        next ln hln => exact hset (Option.some.inj h).symm hln rfl rfl rfl rfl

/-- A node that was just created was not there before, and is empty. -/
theorem fsCreate_newNode {s s' : Fs} {path : List UInt8} {type : FsType} {p : Ptr} {n : FsNode}
    (h : fsCreate env s path type = some (some p, s')) (hn : s'.nodes.get p = some n) :
    s.nodes.get p = none ∧ n.type = type ∧ n.data = none ∧ n.size = 0 ∧ n.capacity = 0 := by
  obtain ⟨d, comp, -, -, hnew⟩ := fsCreate_some h
  cases nodeNew_cases env hnew with
  | child hk happend =>
    obtain ⟨m, hm, htype, hdata, hsize, hcap⟩ := appendChild_get happend hn
    simp only [Fs.setNode, Store.get_set_same, Option.some.injEq] at hm
    rw [← hm] at htype hdata hsize hcap
    exact ⟨(env.kmalloc_fresh hk).1, htype, hdata, hsize, hcap⟩

theorem fsRemove_failed {s s' : Fs} {path : List UInt8} {res : Int}
    (h : fsRemove s path = some (res, s')) (hres : res ≠ 0) : s' = s := by
  have hsame : ∀ {r : Int} {s' : Fs}, some (r, s) = some (res, s') → s' = s := by
    intro r s' heq
    simp only [Option.some.injEq, Prod.mk.injEq] at heq
    exact heq.2.symm
  unfold fsRemove at h
  split at h
  · simp at h
  · exact hsame h
  · split at h
    · exact hsame h
    · split at h
      · exact hsame h
      · split at h
        · simp at h
        · split at h
          · exact hsame h
          · split at h
            · simp at h
            · exact hsame h
            · split at h
              · simp at h
              · simp only [Option.some.injEq, Prod.mk.injEq] at h
                exact absurd h.1.symm hres

theorem fsWriteN_failed {s s' : Fs} {file : Option Ptr} {src : List UInt8} {add : Nat}
    {append : Bool} {res : Int} (h : fsWriteN env s file src add append = some (res, s'))
    (hres : res ≠ 0) : Quiet s s' := by
  cases fsWriteN_cases env h with
  | nobody => exact .refl s
  | directory => exact .refl s
  | denied _ _ hgrow =>
    cases growBuf_cases env hgrow with
    | denied => exact ⟨_, rfl⟩
  | written => exact absurd rfl hres

theorem writeSnapshot_frame (sys : System) (payload : List UInt8) (users nodes : Nat) :
    (writeSnapshot ready sys payload users nodes).2.fs = sys.fs ∧
      (writeSnapshot ready sys payload users nodes).2.table = sys.table := by
  constructor
  · simp only [writeSnapshot]
    repeat' split
    all_goals rfl
  · simp only [writeSnapshot]
    repeat' split
    all_goals rfl

theorem persistSave_frame {sys sys' : System} {res : Int}
    (h : persistSave env ready sys = some (res, sys')) :
    Quiet sys.fs sys'.fs ∧ sys'.table = sys.table := by
  rcases persistSave_cases ready h with ⟨-, t, rfl⟩ | ⟨-, -, -, w, users, nodes, -, -, -, hw⟩
  · exact ⟨⟨t, rfl⟩, rfl⟩
  · obtain ⟨hfs, htable⟩ := @writeSnapshot_frame ready (sys.buffered env) w.buffer users nodes
    rw [hw] at hfs htable
    exact ⟨⟨_, hfs⟩, htable⟩

theorem persistFormat_frame (sys : System) :
    (persistFormat ready sys).2.fs = sys.fs ∧ (persistFormat ready sys).2.table = sys.table := by
  unfold persistFormat
  split
  · exact ⟨rfl, rfl⟩
  · simp only
    split <;> exact ⟨rfl, rfl⟩

theorem usersAdd_failed {available admin : Bool} {t t' : Table} {s s' : Fs}
    {name password : List UInt8} {res : Int}
    (h : usersAdd env available t s name password admin = some (res, t', s')) (hres : res ≠ 0) :
    t' = t ∧ s' = s := by
  rcases usersAdd_spec h with ⟨-, hsame⟩ | ⟨hzero, -⟩
  · exact hsame
  · exact absurd hzero hres

theorem usersDelete_failed {t t' : Table} {s s' : Fs} {name : List UInt8} {res : Int}
    (h : usersDelete env t s name = some (res, t', s')) (hres : res ≠ 0) : t' = t ∧ s' = s := by
  rcases usersDelete_spec h with ⟨-, hsame⟩ | ⟨hzero, -⟩
  · exact hsame
  · exact absurd hzero hres

/-! ## Effects -/

/-- The account may write to the string that `target_abspath` gives for the path. -/
def Allowed (st : Session) (path : List UInt8) : Prop :=
  ∃ abspath, targetAbspath st.sys.fs path = some (some abspath) ∧
    usersMayWrite st.sys.table abspath = true

/-- What is in the buffer after a prompt for a password. -/
def answer (typed : Nat → Option (List UInt8)) (st : Session) : List UInt8 :=
  (st.readLine typed passwordMax).2.1

/-- An administrator, or somebody who changes their own password and knows the current one. -/
def MaySetPassword (typed : Nat → Option (List UInt8)) (st : Session) (name : List UInt8) : Prop :=
  usersIsRoot st.sys.table = true ∨ ∃ i, st.sys.table.current = some i ∧
    (st.sys.table.users i).name = name ∧
    (st.sys.table.users i).pwHash = hashPassword (answer typed st)

/-- The command that a line asks for. -/
def commandOf (line : List UInt8) : Command :=
  match strSplit argMax line with
  | [] => .other
  | name :: _ => Command.ofName name

/-- The path in the second word of a line. -/
def pathArg (line : List UInt8) : Option (List UInt8) := (strSplit argMax line)[1]?

/-- What `echo` looks at. -/
def echoArgs (line : List UInt8) : List UInt8 :=
  ((line.take (lineMax - 1)).drop (ofString "echo").length).dropWhile (· == blank)

theorem argv_of_command (line : List UInt8) (hc : commandOf line ≠ .other) :
    ∃ name words, strSplit argMax line = name :: words ∧ Command.ofName name = commandOf line := by
  unfold commandOf at hc ⊢
  split at hc
  · simp at hc
  next name words hargv => exact ⟨name, words, hargv, rfl⟩

theorem execute_echo {st : Session} {line : List UInt8} (hc : commandOf line = .echo) :
    execute env ready typed st line = cmdEcho env st (echoArgs line) := by
  obtain ⟨name, words, hargv, hname⟩ := argv_of_command line (by rw [hc]; decide)
  unfold execute
  simp only [hargv, hname, hc]
  rfl

/-- The text of `echo` is on its way to a path that led nowhere, and the new file `p` is
there, in the tree `s`. -/
structure NewTarget (env : Env) (st : Session) (line : List UInt8) (r : Redirect) (p : Ptr)
    (s : Fs) : Prop where
  command : commandOf line = .echo
  redirect : findRedirect (echoArgs line) = some r
  target : r.target ≠ []
  allowed : Allowed st r.target
  missing : fsResolve st.sys.fs r.target = some none
  created : fsCreate env st.sys.fs r.target .file = some (some p, s)

/-- What a command line can do. The dirty flag asks for a flush. -/
inductive Effect (env : Env) (typed : Nat → Option (List UInt8)) (st : Session)
    (line : List UInt8) (st' : Session) : Prop
  | quiet : Quiet st.sys.fs st'.sys.fs → st'.sys.table = st.sys.table →
      Effect env typed st line st'
  | chdir {dir : Option Ptr} : commandOf line = .cd →
      fsSetCwd st.sys.fs dir = some st'.sys.fs → st'.sys.table = st.sys.table →
      Effect env typed st line st'
  | create {path : List UInt8} {type : FsType} {p : Ptr} :
      commandOf line = .mkdir ∨ commandOf line = .touch → pathArg line = some path →
      Allowed st path → fsCreate env st.sys.fs path type = some (some p, st'.sys.fs) →
      st'.sys.table = st.sys.table → st'.sys.persist.dirty = true → Effect env typed st line st'
  | remove {path : List UInt8} : commandOf line = .rm → pathArg line = some path →
      Allowed st path → fsRemove st.sys.fs path = some (0, st'.sys.fs) →
      st'.sys.table = st.sys.table → st'.sys.persist.dirty = true → Effect env typed st line st'
  | write {r : Redirect} {file : Ptr} : commandOf line = .echo →
      findRedirect (echoArgs line) = some r → Allowed st r.target →
      fsResolve st.sys.fs r.target = some (some file) →
      fsWrite env st.sys.fs (some file) (echoText r) r.append = some (0, st'.sys.fs) →
      st'.sys.table = st.sys.table → st'.sys.persist.dirty = true → Effect env typed st line st'
  | createWrite {r : Redirect} {p : Ptr} {s : Fs} : NewTarget env st line r p s →
      fsWrite env s (some p) (echoText r) r.append = some (0, st'.sys.fs) →
      st'.sys.table = st.sys.table → st'.sys.persist.dirty = true → Effect env typed st line st'
  | createOnly {r : Redirect} {p : Ptr} {s : Fs} {res : Int} : NewTarget env st line r p s →
      fsWrite env s (some p) (echoText r) r.append = some (res, st'.sys.fs) → res ≠ 0 →
      st'.sys.table = st.sys.table → st'.sys.persist.dirty = st.sys.persist.dirty →
      Effect env typed st line st'
  | useradd {available : Bool} {name password : List UInt8} : usersIsRoot st.sys.table = true →
      usersAdd env available st.sys.table st.sys.fs name password false =
        some (0, st'.sys.table, st'.sys.fs) →
      st'.sys.persist.dirty = true → Effect env typed st line st'
  | userdel {name : List UInt8} : usersIsRoot st.sys.table = true →
      usersDelete env st.sys.table st.sys.fs name = some (0, st'.sys.table, st'.sys.fs) →
      st'.sys.persist.dirty = true → Effect env typed st line st'
  | passwd {name password : List UInt8} : commandOf line = .passwd →
      MaySetPassword typed st name →
      usersSetPassword st.sys.table name password = (0, st'.sys.table) →
      st'.sys.fs = st.sys.fs → st'.sys.persist.dirty = true → Effect env typed st line st'
  | su {name : List UInt8} : commandOf line = .su →
      usersSwitch st.sys.table st.sys.fs name (answer typed st) =
        some (0, st'.sys.table, st'.sys.fs) → Effect env typed st line st'

variable {line : List UInt8}

/-- Nothing but messages. -/
theorem Effect.told {st st' : Session} (h : st'.sys = st.sys) :
    Effect env typed st line st' :=
  .quiet (by rw [h]; exact .refl _) (by rw [h])

/-! ## The helpers -/

theorem mayWrite_spec {st st' : Session} {command : String} {path : List UInt8} {ok : Bool}
    (h : mayWrite st command path = some (ok, st')) :
    (ok = true ∧ st' = st ∧ Allowed st path) ∨ (ok = false ∧ st'.sys = st.sys) := by
  unfold mayWrite at h
  split at h
  · simp at h
  · simp only [Option.some.injEq, Prod.mk.injEq] at h
    exact Or.inr ⟨h.1.symm, by rw [← h.2]; rfl⟩
  next abspath htarget =>
    split at h
    next hmay =>
      simp only [Option.some.injEq, Prod.mk.injEq] at h
      exact Or.inl ⟨h.1.symm, h.2.symm, abspath, htarget, hmay⟩
    next =>
      simp only [Option.some.injEq, Prod.mk.injEq] at h
      exact Or.inr ⟨h.1.symm, by rw [← h.2]; rfl⟩

theorem requireRoot_spec {st st' : Session} {command : String} {ok : Bool}
    (h : requireRoot st command = (ok, st')) :
    (ok = true ∧ st' = st ∧ usersIsRoot st.sys.table = true) ∨
      (ok = false ∧ st'.sys = st.sys ∧ usersIsRoot st.sys.table = false) := by
  unfold requireRoot at h
  split at h
  next hroot =>
    simp only [Prod.mk.injEq] at h
    exact Or.inl ⟨h.1.symm, h.2.symm, hroot⟩
  next hroot =>
    simp only [Prod.mk.injEq] at h
    exact Or.inr ⟨h.1.symm, by rw [← h.2]; rfl, by simpa using hroot⟩

theorem readLine_sys (st : Session) (size : Nat) : (st.readLine typed size).2.2.sys = st.sys := by
  unfold Session.readLine
  simp only
  split <;> rfl

theorem readNewPassword_sys (st : Session) : (readNewPassword typed st).2.sys = st.sys := by
  have hfirst := @readLine_sys typed st passwordMax
  unfold readNewPassword
  rcases hr : st.readLine typed passwordMax with ⟨ok, out, st₁⟩
  rw [hr] at hfirst
  have hsecond := @readLine_sys typed st₁ passwordMax
  cases ok with
  | false => exact hfirst
  | true =>
    simp only
    split
    · exact hfirst
    · rcases hr' : st₁.readLine typed passwordMax with ⟨ok', again, st₂⟩
      rw [hr'] at hsecond
      cases ok' with
      | false => exact hsecond.trans hfirst
      | true =>
        simp only
        split <;> exact hsecond.trans hfirst

/-! ## Files -/

theorem cmdLs_sys {st st' : Session} {argv : List (List UInt8)} (h : cmdLs st argv = some st') :
    st'.sys = st.sys := by
  unfold cmdLs at h
  simp only at h
  split at h
  · simp at h
  · rw [← Option.some.inj h]
    rfl
  · split at h
    · simp at h
    · split at h
      · rw [← Option.some.inj h]
      · obtain ⟨-, -, rfl⟩ := Option.map_eq_some_iff.mp h
        rfl

theorem cmdTree_sys {st st' : Session} {argv : List (List UInt8)}
    (h : cmdTree st argv = some st') : st'.sys = st.sys := by
  unfold cmdTree at h
  simp only at h
  split at h
  · simp at h
  · rw [← Option.some.inj h]
    rfl
  · split at h
    · simp at h
    · split at h
      · rw [← Option.some.inj h]
        rfl
      · obtain ⟨-, -, rfl⟩ := Option.map_eq_some_iff.mp h
        rfl

theorem cmdCat_sys {st st' : Session} {argv : List (List UInt8)}
    (h : cmdCat st argv = some st') : st'.sys = st.sys := by
  unfold cmdCat at h
  split at h
  · rw [← Option.some.inj h]
    rfl
  · split at h
    · simp at h
    · rw [← Option.some.inj h]
      rfl
    · split at h
      · simp at h
      · split at h
        · rw [← Option.some.inj h]
          rfl
        · split at h
          · simp at h
          · obtain ⟨-, -, rfl⟩ := Option.map_eq_some_iff.mp h
            rfl

theorem cmdPwd_sys {st st' : Session} (h : cmdPwd st = some st') : st'.sys = st.sys := by
  obtain ⟨-, -, rfl⟩ := Option.map_eq_some_iff.mp h
  rfl

theorem cmdCd_effect {st st' : Session} {argv : List (List UInt8)}
    (hc : commandOf line = .cd) (h : cmdCd st argv = some st') : Effect env typed st line st' := by
  have hmoved : ∀ {dir : Option Ptr}, (fsSetCwd st.sys.fs dir).map st.setFs = some st' →
      Effect env typed st line st' := by
    intro dir hset
    obtain ⟨s, hs, rfl⟩ := Option.map_eq_some_iff.mp hset
    exact .chdir hc hs rfl
  unfold cmdCd at h
  simp only at h
  split at h
  · split at h
    · simp at h
    · exact hmoved h
  · split at h
    · simp at h
    · rw [← Option.some.inj h]
      exact .told rfl
    · split at h
      · simp at h
      · split at h
        · rw [← Option.some.inj h]
          exact .told rfl
        · exact hmoved h

/-- Creating a node and saying that it did not work. -/
theorem created_effect {st st' : Session} {path : List UInt8} {type : FsType}
    {command message : String} (hc : commandOf line = .mkdir ∨ commandOf line = .touch)
    (hpath : pathArg line = some path) (hallowed : Allowed st path)
    (h : (match fsCreate env st.sys.fs path type with
      | none => none
      | some (some _, s) => some (st.setFs s).markDirty
      | some (none, s) => some ((st.setFs s).printError command message)) = some st') :
    Effect env typed st line st' := by
  split at h
  · simp at h
  next p s hcreate =>
    rw [← Option.some.inj h]
    exact .create hc hpath hallowed hcreate rfl rfl
  next s hcreate =>
    rw [← Option.some.inj h]
    exact .quiet (.create hcreate) rfl

theorem cmdMkdir_effect {st st' : Session} (hc : commandOf line = .mkdir)
    (h : cmdMkdir env st (strSplit argMax line) = some st') : Effect env typed st line st' := by
  unfold cmdMkdir at h
  split at h
  · rw [← Option.some.inj h]
    exact .told rfl
  next path hpath =>
    split at h
    · simp at h
    next st₁ hmay =>
      rcases mayWrite_spec hmay with ⟨hok, -⟩ | ⟨-, hsys⟩
      · simp at hok
      · rw [← Option.some.inj h]
        exact .told hsys
    next st₁ hmay =>
      rcases mayWrite_spec hmay with ⟨-, rfl, hallowed⟩ | ⟨hok, -⟩
      · exact created_effect (Or.inl hc) hpath hallowed h
      · simp at hok

theorem cmdTouch_effect {st st' : Session} (hc : commandOf line = .touch)
    (h : cmdTouch env st (strSplit argMax line) = some st') : Effect env typed st line st' := by
  unfold cmdTouch at h
  split at h
  · rw [← Option.some.inj h]
    exact .told rfl
  next path hpath =>
    split at h
    · simp at h
    · rw [← Option.some.inj h]
      exact .told rfl
    · split at h
      · simp at h
      next st₁ hmay =>
        rcases mayWrite_spec hmay with ⟨hok, -⟩ | ⟨-, hsys⟩
        · simp at hok
        · rw [← Option.some.inj h]
          exact .told hsys
      next st₁ hmay =>
        rcases mayWrite_spec hmay with ⟨-, rfl, hallowed⟩ | ⟨hok, -⟩
        · exact created_effect (Or.inr hc) hpath hallowed h
        · simp at hok

theorem cmdRm_effect {st st' : Session} (hc : commandOf line = .rm)
    (h : cmdRm st (strSplit argMax line) = some st') : Effect env typed st line st' := by
  unfold cmdRm at h
  split at h
  · rw [← Option.some.inj h]
    exact .told rfl
  next path hpath =>
    split at h
    · simp at h
    next st₁ hmay =>
      rcases mayWrite_spec hmay with ⟨hok, -⟩ | ⟨-, hsys⟩
      · simp at hok
      · rw [← Option.some.inj h]
        exact .told hsys
    next st₁ hmay =>
      rcases mayWrite_spec hmay with ⟨-, rfl, hallowed⟩ | ⟨hok, -⟩
      · split at h
        · simp at h
        next result s hremove =>
          by_cases hres : result = 0
          · subst hres
            rw [if_pos rfl] at h
            rw [← Option.some.inj h]
            exact .remove hc hpath hallowed hremove rfl rfl
          · have hsame := fsRemove_failed hremove hres
            rw [if_neg hres] at h
            split at h
            · rw [← Option.some.inj h]
              exact .quiet (by rw [hsame]; exact .refl _) rfl
            · rw [← Option.some.inj h]
              exact .quiet (by rw [hsame]; exact .refl _) rfl
      · simp at hok

/-- What becomes of the file that `echo` writes to. -/
theorem echoInto_cases {st st' : Session} {r : Redirect} {file : Ptr}
    (h : echoInto env st r file = some st') :
    (∃ res, fsWrite env st.sys.fs (some file) (echoText r) r.append =
        some (res, st'.sys.fs) ∧ st'.sys.table = st.sys.table ∧
      (res = 0 ∧ st'.sys.persist.dirty = true ∨
        res ≠ 0 ∧ st'.sys.persist.dirty = st.sys.persist.dirty)) ∨
    (st'.sys = st.sys ∧ ∃ n, st.sys.fs.nodes.get file = some n ∧ n.type ≠ .file) := by
  unfold echoInto at h
  split at h
  · simp at h
  next n hn =>
    split at h
    next htype =>
      rw [← Option.some.inj h]
      exact Or.inr ⟨rfl, n, hn, htype⟩
    next =>
      split at h
      · simp at h
      next res s hwrite =>
        split at h
        next hres =>
          rw [← Option.some.inj h]
          exact Or.inl ⟨res, hwrite, rfl, Or.inr ⟨hres, rfl⟩⟩
        next hres =>
          rw [← Option.some.inj h]
          exact Or.inl ⟨res, hwrite, rfl, Or.inl ⟨by simpa using hres, rfl⟩⟩

theorem cmdEcho_effect {st st' : Session} (hc : commandOf line = .echo)
    (h : cmdEcho env st (echoArgs line) = some st') : Effect env typed st line st' := by
  unfold cmdEcho at h
  split at h
  · rw [← Option.some.inj h]
    exact .told rfl
  next r hr =>
    split at h
    · rw [← Option.some.inj h]
      exact .told rfl
    next htarget =>
      split at h
      · simp at h
      next st₁ hmay =>
        rcases mayWrite_spec hmay with ⟨hok, -⟩ | ⟨-, hsys⟩
        · simp at hok
        · rw [← Option.some.inj h]
          exact .told hsys
      next st₁ hmay =>
        rcases mayWrite_spec hmay with ⟨-, rfl, hallowed⟩ | ⟨hok, -⟩
        · split at h
          · simp at h
          next file hfile =>
            rcases echoInto_cases h with
              ⟨res, hwrite, htable, ⟨rfl, hdirty⟩ | ⟨hres, -⟩⟩ | ⟨hsys, -⟩
            · exact .write hc hr hallowed hfile hwrite htable hdirty
            · exact .quiet (fsWriteN_failed hwrite hres) htable
            · exact .told hsys
          next hmissing =>
            split at h
            · simp at h
            next s hcreate =>
              rw [← Option.some.inj h]
              exact .quiet (.create hcreate) rfl
            next file s hcreate =>
              have hnew : NewTarget env st₁ line r file s :=
                ⟨hc, hr, htarget, hallowed, hmissing, hcreate⟩
              rcases echoInto_cases h with
                ⟨res, hwrite, htable, ⟨rfl, hdirty⟩ | ⟨hres, hdirty⟩⟩ | ⟨-, n, hn, htype⟩
              · exact .createWrite hnew hwrite htable hdirty
              · exact .createOnly hnew hwrite hres htable hdirty
              · -- what was just created is a file
                exact absurd (fsCreate_newNode hcreate hn).2.1 htype
        · simp at hok

/-! ## Accounts -/

theorem cmdUseradd_effect {st st' : Session} {argv : List (List UInt8)}
    (h : cmdUseradd env typed st argv = some st') : Effect env typed st line st' := by
  unfold cmdUseradd at h
  split at h
  next st₁ hroot =>
    rcases requireRoot_spec hroot with ⟨hok, -⟩ | ⟨-, hsys, -⟩
    · simp at hok
    · rw [← Option.some.inj h]
      exact .told hsys
  next st₁ hroot =>
    rcases requireRoot_spec hroot with ⟨-, rfl, hadmin⟩ | ⟨hok, -⟩
    · split at h
      · rw [← Option.some.inj h]
        exact .told rfl
      next name hname =>
        split at h
        · rw [← Option.some.inj h]
          exact .told rfl
        · have hread := @readNewPassword_sys typed st₁
          split at h
          next st₂ hnone =>
            rw [hnone] at hread
            rw [← Option.some.inj h]
            exact .told hread
          next password st₂ hsome =>
            rw [hsome] at hread
            have hsys : st₂.sys = st₁.sys := hread
            rw [hsys] at h
            split at h
            · simp at h
            next result t s hadd =>
              simp only at h
              split at h
              next hres =>
                rw [hres] at hadd
                rw [← Option.some.inj h]
                exact .useradd hadmin hadd rfl
              next hres =>
                obtain ⟨rfl, rfl⟩ := usersAdd_failed hadd hres
                rw [← Option.some.inj h]
                exact .quiet (.refl _) rfl
    · simp at hok

theorem cmdUserdel_effect {st st' : Session} {argv : List (List UInt8)}
    (h : cmdUserdel env st argv = some st') : Effect env typed st line st' := by
  unfold cmdUserdel at h
  split at h
  next st₁ hroot =>
    rcases requireRoot_spec hroot with ⟨hok, -⟩ | ⟨-, hsys, -⟩
    · simp at hok
    · rw [← Option.some.inj h]
      exact .told hsys
  next st₁ hroot =>
    rcases requireRoot_spec hroot with ⟨-, rfl, hadmin⟩ | ⟨hok, -⟩
    · split at h
      · rw [← Option.some.inj h]
        exact .told rfl
      · split at h
        · simp at h
        next result t s hdelete =>
          simp only at h
          split at h
          next hres =>
            rw [hres] at hdelete
            rw [← Option.some.inj h]
            exact .userdel hadmin hdelete rfl
          next hres =>
            obtain ⟨rfl, rfl⟩ := usersDelete_failed hdelete hres
            rw [← Option.some.inj h]
            exact .quiet (.refl _) rfl
    · simp at hok

/-- The new password is set, or nothing happens. -/
theorem changePassword_effect {st st₁ : Session} {name : List UInt8}
    (hc : commandOf line = .passwd) (hsys : st₁.sys = st.sys)
    (hmay : MaySetPassword typed st name) :
    Effect env typed st line (changePassword typed st₁ name) := by
  have hread := @readNewPassword_sys typed st₁
  unfold changePassword
  split
  next st₂ hnone =>
    rw [hnone] at hread
    exact .told (hread.trans hsys)
  next password st₂ hsome =>
    rw [hsome] at hread
    have hsame : st₂.sys = st.sys := hread.trans hsys
    rw [hsame]
    rcases hset : usersSetPassword st.sys.table name password with ⟨result, t⟩
    have hcases := usersSetPassword_spec st.sys.table name password
    rw [hset] at hcases
    simp only
    split
    next hres =>
      rw [hres] at hset
      refine .passwd hc hmay hset ?_ rfl
      show st₂.sys.fs = st.sys.fs
      rw [hsame]
    next hres =>
      rcases hcases with ⟨-, heq⟩ | ⟨hzero, -⟩
      · refine .quiet ?_ heq
        show Quiet st.sys.fs st₂.sys.fs
        rw [hsame]
        exact .refl _
      · exact absurd hzero hres

theorem cmdPasswd_effect (st : Session) (argv : List (List UInt8))
    (hc : commandOf line = .passwd) :
    Effect env typed st line (cmdPasswd typed st argv) := by
  unfold cmdPasswd
  simp only
  split
  · exact .told rfl
  · split
    next hother =>
      -- somebody else's password
      split
      next st₁ hroot =>
        rcases requireRoot_spec hroot with ⟨hok, -⟩ | ⟨-, hsys, -⟩
        · simp at hok
        · exact .told hsys
      next st₁ hroot =>
        rcases requireRoot_spec hroot with ⟨-, rfl, hadmin⟩ | ⟨hok, -⟩
        · exact changePassword_effect hc rfl (Or.inl hadmin)
        · simp at hok
    next hown =>
      have hread := @readLine_sys typed st passwordMax
      have hanswer : answer typed st = (st.readLine typed passwordMax).2.1 := rfl
      rcases hr : st.readLine typed passwordMax with ⟨ok, check, st₁⟩
      rw [hr] at hread hanswer
      have hsys : st₁.sys = st.sys := hread
      simp only
      cases hcur : st.sys.table.current with
      | none => exact .told hsys
      | some i =>
        simp only [Option.map_some]
        split
        · exact .told hsys
        next hok =>
          refine changePassword_effect hc hsys (Or.inr ⟨i, hcur, ?_, ?_⟩)
          · rw [hcur] at hown
            simpa using hown
          · rw [hanswer]
            simpa [usersCheckPassword] using hok

theorem cmdSu_effect {st st' : Session} {argv : List (List UInt8)}
    (hc : commandOf line = .su) (h : cmdSu typed st argv = some st') : Effect env typed st line st' := by
  unfold cmdSu at h
  simp only at h
  split at h
  · rw [← Option.some.inj h]
    exact .told rfl
  · have hread := @readLine_sys typed st passwordMax
    have hanswer : answer typed st = (st.readLine typed passwordMax).2.1 := rfl
    rcases hr : st.readLine typed passwordMax with ⟨ok, password, st₁⟩
    rw [hr] at hread hanswer
    have hsys : st₁.sys = st.sys := hread
    have hpassword : answer typed st = password := hanswer
    simp only [hr] at h
    rw [hsys, ← hpassword] at h
    split at h
    · simp at h
    next result t s hswitch =>
      split at h
      next hres =>
        rw [hres] at hswitch
        rw [← Option.some.inj h]
        exact .su hc hswitch
      next hres =>
        rcases usersSwitch_spec hswitch with ⟨-, rfl, rfl⟩ | ⟨hzero, -⟩
        · rw [← Option.some.inj h]
          exact .quiet (.refl _) rfl
        · exact absurd hzero hres

/-! ## The disk and the power -/

theorem saved_effect {st st' : Session} {sys : System} {res : Int}
    (hsave : persistSave env ready st.sys = some (res, sys)) (hsys : st'.sys = sys) :
    Effect env typed st line st' := by
  obtain ⟨hquiet, htable⟩ := persistSave_frame hsave
  exact .quiet (by rw [hsys]; exact hquiet) (by rw [hsys]; exact htable)

theorem cmdSync_effect {st st' : Session} (h : cmdSync env ready st = some st') :
    Effect env typed st line st' := by
  unfold cmdSync at h
  split at h
  · rw [← Option.some.inj h]
    exact .told rfl
  · split at h
    · simp at h
    next result sys hsave =>
      simp only at h
      split at h
      · rw [← Option.some.inj h]
        exact saved_effect hsave rfl
      · rw [← Option.some.inj h]
        exact saved_effect hsave rfl

theorem cmdReboot_effect {st st' : Session} (h : cmdReboot env ready st = some st') :
    Effect env typed st line st' := by
  unfold cmdReboot at h
  split at h
  · obtain ⟨⟨result, sys⟩, hsave, rfl⟩ := Option.map_eq_some_iff.mp h
    exact saved_effect hsave rfl
  · rw [← Option.some.inj h]
    exact .told rfl

theorem cmdShutdown_effect {st st' : Session} (h : cmdShutdown env ready st = some st') :
    Effect env typed st line st' := by
  unfold cmdShutdown at h
  split at h
  · rw [← Option.some.inj h]
    exact .told rfl
  · split at h
    · split at h
      · simp at h
      next result sys hsave =>
        rw [← Option.some.inj h]
        refine saved_effect hsave ?_
        split <;> rfl
    · rw [← Option.some.inj h]
      exact .told rfl

theorem cmdMkfs_effect (st : Session) : Effect env typed st line (cmdMkfs ready typed st) := by
  unfold cmdMkfs
  split
  next st₁ hroot =>
    rcases requireRoot_spec hroot with ⟨hok, -⟩ | ⟨-, hsys, -⟩
    · simp at hok
    · exact .told hsys
  next st₁ hroot =>
    rcases requireRoot_spec hroot with ⟨-, rfl, -⟩ | ⟨hok, -⟩
    · split
      · exact .told rfl
      · have hread := @readLine_sys typed st₁ 8
        rcases hr : st₁.readLine typed 8 with ⟨ok, answer, st₂⟩
        rw [hr] at hread
        have hsys : st₂.sys = st₁.sys := hread
        simp only
        split
        · exact .told hsys
        · obtain ⟨hfs, htable⟩ := @persistFormat_frame ready st₂.sys
          rcases hf : persistFormat ready st₂.sys with ⟨result, sys⟩
          rw [hf] at hfs htable
          have hquiet : Quiet st₁.sys.fs sys.fs := by
            show Quiet st₁.sys.fs sys.fs
            rw [hfs, hsys]
            exact .refl _
          have htable' : sys.table = st₁.sys.table := by rw [htable, hsys]
          simp only
          split
          · exact .quiet hquiet htable'
          · exact .quiet hquiet htable'
    · simp at hok

/-- **What a command line does** is one of the effects. -/
theorem execute_effect {st st' : Session} (h : execute env ready typed st line = some st') :
    Effect env typed st line st' := by
  unfold execute at h
  simp only at h
  split at h
  · rw [← Option.some.inj h]
    exact .told rfl
  next name words hargv =>
    have hc : commandOf line = Command.ofName name := by
      unfold commandOf
      rw [hargv]
    cases hname : Command.ofName name with
    | ls => rw [hname] at h; exact .told (cmdLs_sys h)
    | tree => rw [hname] at h; exact .told (cmdTree_sys h)
    | cd => rw [hname] at h; exact cmdCd_effect (hc.trans hname) h
    | pwd => rw [hname] at h; exact .told (cmdPwd_sys h)
    | cat => rw [hname] at h; exact .told (cmdCat_sys h)
    | echo => rw [hname] at h; exact cmdEcho_effect (hc.trans hname) h
    | mkdir => rw [hname] at h; exact cmdMkdir_effect (hc.trans hname) h
    | touch => rw [hname] at h; exact cmdTouch_effect (hc.trans hname) h
    | rm => rw [hname] at h; exact cmdRm_effect (hc.trans hname) h
    | sync => rw [hname] at h; exact cmdSync_effect h
    | mkfs =>
      rw [hname] at h
      rw [← Option.some.inj h]
      exact cmdMkfs_effect st
    | useradd => rw [hname] at h; exact cmdUseradd_effect h
    | userdel => rw [hname] at h; exact cmdUserdel_effect h
    | passwd =>
      rw [hname] at h
      rw [← Option.some.inj h]
      exact cmdPasswd_effect st _ (hc.trans hname)
    | su => rw [hname] at h; exact cmdSu_effect (hc.trans hname) h
    | reboot => rw [hname] at h; exact cmdReboot_effect h
    | shutdown => rw [hname] at h; exact cmdShutdown_effect h
    | logout =>
      rw [hname] at h
      rw [← Option.some.inj h]
      exact .told rfl
    | spawn | kill | other =>
      rw [hname] at h
      rw [← Option.some.inj h]
      exact .told rfl

end LightningOS.Shell
