import LightningOS.Kernel.Main
import LightningOS.Properties.Commands
import LightningOS.Properties.States

/-!
# What all calls keep

A mount, a command and a turn at a prompt only work on the tree and on the accounts through
their calls. So what every call keeps holds at every prompt.
-/

namespace LightningOS.Main

open ByteMemory CString Ramfs Ata Users Persist Shell Install

variable {env : Env} {ready : Nat → Bool} {typed : Nat → Option (List UInt8)}
variable {losBootSector : Sector} {image : Image}
variable {okFs : Fs → FsOp → Prop} {ok : AccountOp → Prop} {P : Table → Fs → Prop}
variable {t t' : Table} {s s' : Fs}

/-- Every call keeps it, where calls on the tree satisfy `okFs`, and those on the accounts
`ok`. -/
structure Closed (env : Env) (okFs : Fs → FsOp → Prop) (ok : AccountOp → Prop)
    (P : Table → Fs → Prop) : Prop where
  files : ∀ {t s s' op}, P t s → FsText op → okFs s op → fsStep env s op = some s' → P t s'
  accounts : ∀ {t s t' s' op} {res : Int}, P t s → AccountText op → ok op →
    accountStep env t s op = some (res, t', s') → P t' s'
  time : ∀ {t s} (n : Nat), P t s → P t { s with time := n }

theorem Closed.quiet (hc : Closed env okFs ok P) (h : P t s) (hq : Quiet s s') : P t s' := by
  obtain ⟨n, rfl⟩ := hq
  exact hc.time n h

/-- All calls satisfy it, apart from removals. -/
def Gentle (okFs : Fs → FsOp → Prop) : Prop := ∀ s op, (∀ path, op ≠ .remove path) → okFs s op

theorem gentle_true : Gentle fun _ _ => True := fun _ _ _ => trivial

theorem Closed.create (hc : Closed env okFs ok P) (hg : Gentle okFs) (h : P t s)
    {path : List UInt8} {type : FsType} {r : Option Ptr × Fs} (h0 : (0 : UInt8) ∉ path)
    (hcreate : fsCreate env s path type = some r) : P t r.2 := by
  have hop : FsText (.create path type) := h0
  refine hc.files h hop (hg _ _ (by simp)) ?_
  rw [fsStep, hcreate]
  rfl

theorem Closed.write (hc : Closed env okFs ok P) (hg : Gentle okFs) (h : P t s)
    {file : Option Ptr} {txt : List UInt8} {append : Bool} {r : Int × Fs}
    (hwrite : fsWrite env s file txt append = some r) : P t r.2 := by
  have hop : FsText (.write file txt txt.length append) := trivial
  refine hc.files h hop (hg _ _ (by simp)) ?_
  rw [fsStep]
  exact congrArg (Option.map Prod.snd) hwrite

theorem tableInv_accounts {op : AccountOp} {res : Int} (h : TableInv t)
    (hstep : accountStep env t s op = some (res, t', s')) : TableInv t' := by
  rcases accountStep_cases hstep with ⟨-, rfl⟩ | ⟨-, hchanged⟩
  · exact h
  · exact h.changed hchanged

/-- Who is logged in does not matter to the tree, so the invariant of the table is kept. -/
theorem tableInv_closed : Closed env okFs ok fun t _ => TableInv t where
  files h _ _ _ := h
  accounts h _ _ hstep := tableInv_accounts h hstep
  time _ h := h

theorem sane_closed : Closed env okFs ok Sane where
  files h hop _ hstep := by
    obtain ⟨hrooted, h0⟩ := (Runs.step .refl hop hstep).keeps ⟨h.rooted, h.zeroFree⟩
    exact ⟨hrooted, h0, h.table, h.homes⟩
  accounts h hop _ hstep := by
    obtain ⟨hrooted, h0⟩ := (accountStep_runs hstep).keeps ⟨h.rooted, h.zeroFree⟩
    exact ⟨hrooted, h0, tableInv_accounts h.table hstep, homeOk_step h.homes hop hstep⟩
  time n h := by
    obtain ⟨⟨⟨root, kids, hinv⟩, c, hc⟩, h0, htable, hhomes⟩ := h
    exact ⟨⟨⟨root, kids, hinv.congr rfl rfl rfl rfl⟩, c, hc⟩, h0, htable, hhomes⟩

/-! ## Texts -/

theorem readLine_text (typed : Nat → Option (List UInt8)) (st : Session) (size : Nat) :
    (0 : UInt8) ∉ (st.readLine typed size).2.1 := by
  unfold Session.readLine
  simp only
  split
  · exact List.not_mem_nil
  · intro hmem
    have h := List.mem_of_mem_take hmem
    rw [List.mem_filter] at h
    exact absurd h.2 (by decide)

theorem strSplit_subset (room : Nat) : ∀ {line w : List UInt8} {b : UInt8},
    w ∈ strSplit room line → b ∈ w → b ∈ line := by
  induction room with
  | zero =>
    intro line w b hw
    simp [strSplit] at hw
  | succ room ih =>
    intro line w b hw hb
    rw [strSplit] at hw
    split at hw
    · simp at hw
    · have hsub : ∀ {b}, b ∈ line.dropWhile isSpace → b ∈ line :=
        fun hb => (List.dropWhile_sublist _).subset hb
      rcases List.mem_cons.mp hw with rfl | hw
      · split at hb
        · exact hsub hb
        · exact hsub ((List.takeWhile_sublist _).subset hb)
      · exact hsub ((List.dropWhile_sublist _).subset (ih hw hb))

theorem pathArg_text {line path : List UInt8} (h0 : (0 : UInt8) ∉ line)
    (h : pathArg line = some path) : (0 : UInt8) ∉ path :=
  fun hmem => h0 (strSplit_subset argMax (List.mem_of_getElem? h) hmem)

theorem trimRight_subset {txt : List UInt8} {b : UInt8} (h : b ∈ trimRight txt) : b ∈ txt := by
  unfold trimRight at h
  rw [List.mem_reverse] at h
  exact List.mem_reverse.mp ((List.dropWhile_sublist _).subset h)

theorem findRedirect_target {args : List UInt8} {r : Redirect} (h : findRedirect args = some r)
    {b : UInt8} (hb : b ∈ r.target) : b ∈ args := by
  unfold findRedirect at h
  split at h
  · simp at h
  next c rest hdrop =>
    have hsub : ∀ {b}, b ∈ rest → b ∈ args := fun hb =>
      (List.dropWhile_sublist _).subset (hdrop ▸ List.mem_cons_of_mem c hb)
    obtain rfl := Option.some.inj h
    have htarget := (List.dropWhile_sublist _).subset (trimRight_subset hb)
    split at htarget
    · exact hsub (List.mem_of_mem_tail htarget)
    · exact hsub htarget

theorem redirect_text {line : List UInt8} {r : Redirect} (h0 : (0 : UInt8) ∉ line)
    (h : findRedirect (echoArgs line) = some r) : (0 : UInt8) ∉ r.target := by
  intro hmem
  have hargs := (List.dropWhile_sublist _).subset (findRedirect_target h hmem)
  exact h0 (List.mem_of_mem_take (List.mem_of_mem_drop hargs))

/-! ## Mounting -/

theorem takeString_text {r r' : Reader} {size : Nat} {out : List UInt8}
    (h : takeString r size = (some out, r')) : (0 : UInt8) ∉ out := by
  unfold takeString at h
  dsimp only at h
  split at h
  · simp at h
  · split at h
    · simp at h
    · obtain ⟨hout, -⟩ := Prod.mk.inj h
      rw [← Option.some.inj hout]
      exact zero_notMem_text _

theorem takeUser_text {r r' : Reader} {u : User} (h : takeUser r = (some u, r')) :
    (0 : UInt8) ∉ u.home := by
  unfold takeUser at h
  split at h
  · simp at h
  · split at h
    · simp at h
    next home r₂ hhome =>
      dsimp only at h
      split at h
      · simp at h
      · obtain ⟨hu, -⟩ := Prod.mk.inj h
        rw [← Option.some.inj hu]
        exact takeString_text hhome

theorem takeHead_text {r r' : Reader} {head : NodeHead} (h : takeHead r = (some head, r')) :
    (0 : UInt8) ∉ head.path := by
  unfold takeHead at h
  dsimp only at h
  split at h
  · simp at h
  · split at h
    · simp at h
    · obtain ⟨hhead, -⟩ := Prod.mk.inj h
      rw [← Option.some.inj hhead]
      exact zero_notMem_text _

/-- A mount brings accounts back. -/
def Imports (ok : AccountOp → Prop) : Prop :=
  ∀ name home uid gid pwHash, ok (.importUser name home uid gid pwHash)

theorem imports_true : Imports fun _ => True := fun _ _ _ _ _ => trivial

theorem Closed.mountUsers (hc : Closed env okFs ok P) (hok : Imports ok) (n : Nat) :
    ∀ {r r' : Reader} {t t' : Table} {s s' : Fs}, P t s →
      mountUsers env n r t s = (r', some (t', s')) → P t' s' := by
  induction n with
  | zero =>
    intro r r' t t' s s' h hm
    obtain ⟨-, heq⟩ := Prod.mk.inj hm
    obtain ⟨rfl, rfl⟩ := Prod.mk.inj (Option.some.inj heq)
    exact h
  | succ n ih =>
    intro r r' t t' s s' h hm
    rw [Persist.mountUsers] at hm
    have hsame : ∀ {r₀ : Reader}, (r₀, some (t, s)) = (r', some (t', s')) → P t' s' := by
      intro r₀ heq
      obtain ⟨rfl, rfl⟩ := Prod.mk.inj (Option.some.inj (Prod.mk.inj heq).2)
      exact h
    split at hm
    · exact hsame hm
    · split at hm
      · exact hsame hm
      next u r₁ hu =>
        split at hm
        · simp at hm
        next res t₁ s₁ himport =>
          have hop : AccountText (.importUser u.name u.home u.uid u.gid u.pwHash) :=
            takeUser_text hu
          exact ih (hc.accounts h hop (hok _ _ _ _ _) himport) hm

theorem Closed.createOrResolve (hc : Closed env okFs ok P) (hg : Gentle okFs) (h : P t s)
    {head : NodeHead} {node : Option Ptr} (h0 : (0 : UInt8) ∉ head.path)
    (hcr : createOrResolve env s head = some (node, s')) : P t s' := by
  unfold Persist.createOrResolve at hcr
  split at hcr
  · simp at hcr
  next p s₁ hcreate =>
    obtain ⟨rfl, rfl⟩ := Prod.mk.inj (Option.some.inj hcr)
    exact hc.create hg h h0 hcreate
  next s₁ hcreate =>
    obtain ⟨p, -, heq⟩ := Option.map_eq_some_iff.mp hcr
    obtain ⟨-, rfl⟩ := Prod.mk.inj heq
    exact hc.create hg h h0 hcreate

theorem Closed.writeData (hc : Closed env okFs ok P) (hg : Gentle okFs) (h : P t s)
    {node : Option Ptr} {src : List UInt8} {len : Nat}
    (hw : writeData env s node src len = some s') : P t s' := by
  unfold Persist.writeData at hw
  split at hw
  · exact Option.some.inj hw ▸ h
  next p =>
    split at hw
    · simp at hw
    · split at hw
      · have hop : FsText (.write (some p) src len false) := trivial
        exact hc.files h hop (hg _ _ (by simp)) hw
      · exact Option.some.inj hw ▸ h

theorem Closed.mountNodes (hc : Closed env okFs ok P) (hg : Gentle okFs) (n : Nat) :
    ∀ {r r' : Reader} {s s' : Fs}, P t s → mountNodes env n r s = (r', some s') → P t s' := by
  induction n with
  | zero =>
    intro r r' s s' h hm
    obtain ⟨-, heq⟩ := Prod.mk.inj hm
    exact Option.some.inj heq ▸ h
  | succ n ih =>
    intro r r' s s' h hm
    rw [Persist.mountNodes] at hm
    split at hm
    · exact Option.some.inj (Prod.mk.inj hm).2 ▸ h
    · split at hm
      · exact Option.some.inj (Prod.mk.inj hm).2 ▸ h
      next head r₁ hhead =>
        split at hm
        · simp at hm
        next node s₁ hcr =>
          have h₁ := hc.createOrResolve hg h (takeHead_text hhead) hcr
          split at hm
          · exact ih h₁ hm
          · split at hm
            · exact Option.some.inj (Prod.mk.inj hm).2 ▸ h₁
            · dsimp only at hm
              split at hm
              · simp at hm
              next s₂ hw => exact ih (hc.writeData hg h₁ hw) hm

theorem Closed.restore (hc : Closed env okFs ok P) (hg : Gentle okFs) (hok : Imports ok)
    {sys sys' : System} {super : Super} {buffer : List UInt8} {r : Reader} (h : P sys.table sys.fs)
    (hr : restore env sys super buffer = (r, some sys')) : P sys'.table sys'.fs := by
  unfold Persist.restore at hr
  dsimp only at hr
  split at hr
  · simp at hr
  next s hreset =>
    have hop : FsText .reset := trivial
    have h₁ := hc.files h hop (hg _ _ (by simp)) hreset
    split at hr
    · simp at hr
    next r₁ t₁ s₁ husers =>
      have h₂ := hc.mountUsers hok _ h₁ husers
      split at hr
      · simp at hr
      next r₂ s₂ hnodes =>
        obtain rfl := Option.some.inj (Prod.mk.inj hr).2
        exact hc.mountNodes hg _ h₂ hnodes

/-- **What every call keeps is kept by a mount.** -/
theorem Closed.persistMount (hc : Closed env okFs ok P) (hg : Gentle okFs) (hok : Imports ok)
    {boot sys : System} {st : PersistState}
    (h : P boot.table boot.fs) (hm : persistMount env ready boot = some (st, sys)) :
    P sys.table sys.fs := by
  obtain ⟨p, a, -, -, hcase⟩ := persistMount_cases ready hm
  rcases hcase with ⟨-, -, -, w, rfl⟩ | ⟨-, ok, a₁, -, -, hcase⟩
  · exact h
  rcases hcase with ⟨-, -, w, rfl⟩ | ⟨-, hat, hcase⟩
  · exact h
  rcases hcase with ⟨-, -, rfl⟩ | ⟨-, -, rfl⟩ | ⟨-, hsnap⟩
  · exact h
  · exact h
  rcases mountSnapshot_cases ready (by exact hat) hsnap with
    ⟨-, n, a', -, rfl⟩ | ⟨-, a', r, sys₂, -, -, hr, hend⟩
  · exact hc.time n h
  · have h₂ : P sys₂.table sys₂.fs := by
      refine hc.restore hg hok ?_ hr
      exact hc.time _ h
    rcases hend with ⟨-, -, rfl⟩ | ⟨-, -, rfl⟩ <;> exact h₂

/-! ## Commands -/

/-- What a line removes satisfies it. -/
def Removes (okFs : Fs → FsOp → Prop) (s : Fs) (line : List UInt8) : Prop :=
  ∀ path, commandOf line = .rm → pathArg line = some path → okFs s (.remove path)

theorem Closed.effect (hc : Closed env okFs (fun _ => True) P) (hg : Gentle okFs)
    {st st' : Session} {line : List UInt8} (h0 : (0 : UInt8) ∉ line)
    (hrm : Removes okFs st.sys.fs line) (h : P st.sys.table st.sys.fs)
    (he : Effect env typed st line st') :
    P st'.sys.table st'.sys.fs := by
  cases he with
  | quiet hq ht =>
    rw [ht]
    exact hc.quiet h hq
  | @chdir dir _ hs ht =>
    rw [ht]
    have hop : FsText (.setCwd dir) := trivial
    exact hc.files h hop (hg _ _ (by simp)) hs
  | create _ hpath _ hcreate ht _ =>
    rw [ht]
    exact hc.create hg h (pathArg_text h0 hpath) hcreate
  | @remove path hcommand hpath _ hremove ht _ =>
    rw [ht]
    have hop : FsText (.remove path) := trivial
    refine hc.files h hop (hrm path hcommand hpath) ?_
    rw [fsStep, hremove]
    rfl
  | write _ _ _ _ hwrite ht _ =>
    rw [ht]
    exact hc.write hg h hwrite
  | createWrite hnew hwrite ht _ | createOnly hnew hwrite _ ht _ =>
    rw [ht]
    have h₁ := hc.create hg h (redirect_text h0 hnew.redirect) hnew.created
    exact hc.write hg h₁ hwrite
  | @useradd available name password _ hadd _ =>
    have hop : AccountText (.add available name password false) := trivial
    exact hc.accounts h hop trivial hadd
  | @userdel name _ hdel _ =>
    have hop : AccountText (.delete name) := trivial
    exact hc.accounts h hop trivial hdel
  | @passwd name password _ _ hset hs _ =>
    rw [hs]
    have hop : AccountText (.setPassword name password) := trivial
    have hstep : accountStep env st.sys.table st.sys.fs (.setPassword name password) =
        some (0, st'.sys.table, st.sys.fs) := by
      rw [accountStep, hset]
    exact hc.accounts h hop trivial hstep
  | @su name _ hswitch =>
    have hop : AccountText (.switch name (answer typed st)) := trivial
    exact hc.accounts h hop trivial hswitch

/-! ## Turns -/

/-- Nobody is logged in there. -/
def Place.Locked (place : Place) : Prop := place ≠ .shell ∧ place ≠ .off

/-- What a turn does to the tree and to the accounts, and where it may lead. -/
inductive TurnEffect (env : Env) (ready : Nat → Bool) (typed : Nat → Option (List UInt8))
    (m m' : Machine) : Prop
  | off : m.place = .off → m' = m → TurnEffect env ready typed m m'
  | idle : m.place.Locked → m'.place ≠ .shell → Quiet m.st.sys.fs m'.st.sys.fs →
      m'.st.sys.table = m.st.sys.table → TurnEffect env ready typed m m'
  | add {available admin : Bool} {name password : List UInt8} {res : Int} : m.place.Locked →
      m'.place ≠ .shell → usersAdd env available m.st.sys.table m.st.sys.fs name password admin =
        some (res, m'.st.sys.table, m'.st.sys.fs) → TurnEffect env ready typed m m'
  | login {name : List UInt8} {st : Session} {s : Fs} : m.place = .login → m'.place = .shell →
      m.st.readLine typed userNameMax = (true, name, st) →
      usersSwitch m.st.sys.table m.st.sys.fs name (answer typed st) =
        some (0, m'.st.sys.table, s) →
      (m'.st.sys.fs = s ∨ ∃ dir, fsSetCwd s dir = some m'.st.sys.fs) →
      TurnEffect env ready typed m m'
  | command {ok : Bool} {line : List UInt8} {st st' : Session} : m.place = .shell →
      m.st.readLine typed lineMax = (ok, line, st) →
      execute env ready typed st line = some st' → Quiet st'.sys.fs m'.st.sys.fs →
      ((m'.place = .shell ∨ m'.place = .off) ∧ m'.st.sys.table = st'.sys.table ∨
        m'.place = .login ∧ m'.st.sys.table = usersLogout st'.sys.table) →
      TurnEffect env ready typed m m'

/-- Nothing but messages and questions. -/
theorem TurnEffect.told {place place' : Place} {st st' : Session} (hp : place.Locked)
    (hp' : place' ≠ .shell) (h : st'.sys = st.sys) :
    TurnEffect env ready typed ⟨place, st⟩ ⟨place', st'⟩ := by
  refine .idle hp hp' ?_ ?_
  · show Quiet st.sys.fs st'.sys.fs
    rw [h]
    exact .refl _
  · show st'.sys.table = st.sys.table
    rw [h]

theorem start_ne_shell (t : Table) : start t ≠ .shell := by
  unfold start
  split <;> simp

theorem tmpAlloc_frame {sys sys' : System} {n : Nat} {ok : Bool}
    (h : sys.tmpAlloc env n = (ok, sys')) : Quiet sys.fs sys'.fs ∧ sys'.table = sys.table := by
  unfold System.tmpAlloc at h
  obtain ⟨-, rfl⟩ := Prod.mk.inj h
  exact ⟨⟨_, rfl⟩, rfl⟩

theorem installToDisk_frame {sys : System} {target : Drive} :
    Quiet sys.fs (installToDisk env ready losBootSector sys image target).2.fs ∧
      (installToDisk env ready losBootSector sys image target).2.table = sys.table := by
  have hframe : ∀ {a : Channel} {n : Nat} {ok : Bool} {sys₁ : System},
      System.tmpAlloc env { sys with ata := a } n = (ok, sys₁) →
        Quiet sys.fs sys₁.fs ∧ sys₁.table = sys.table := by
    intro a n ok sys₁ h
    obtain ⟨hquiet, htable⟩ := tmpAlloc_frame h
    exact ⟨hquiet, htable⟩
  unfold installToDisk
  simp only
  split
  · exact ⟨.refl _, rfl⟩
  · split
    · exact ⟨.refl _, rfl⟩
    · split
      · exact ⟨.refl _, rfl⟩
      · split
        · exact ⟨.refl _, rfl⟩
        · split
          · exact ⟨.refl _, rfl⟩
          · split
            · exact ⟨.refl _, rfl⟩
            · -- the buffer for the kernel
              split
              next sys₁ halloc => exact hframe halloc
              next sys₁ halloc =>
                obtain ⟨hquiet, htable⟩ := hframe halloc
                split
                · exact ⟨hquiet, htable⟩
                · split <;> exact ⟨hquiet, htable⟩

theorem waitEnter_sys (st : Session) (size : Nat) : (waitEnter typed st size).sys = st.sys :=
  readLine_sys st size

theorem doInstall_frame (st : Session) :
    Quiet st.sys.fs (doInstall env ready typed losBootSector image st).sys.fs ∧
      (doInstall env ready typed losBootSector image st).sys.table = st.sys.table := by
  have hsame : ∀ {st' : Session}, st'.sys = st.sys →
      Quiet st.sys.fs st'.sys.fs ∧ st'.sys.table = st.sys.table := by
    intro st' hsys
    rw [hsys]
    exact ⟨.refl _, rfl⟩
  unfold doInstall
  split
  · exact hsame (waitEnter_sys _ _)
  next target _ =>
    have hread := @readLine_sys typed st shortMax
    rcases hr : st.readLine typed shortMax with ⟨ok, answer, st₁⟩
    rw [hr] at hread
    have hsys : st₁.sys = st.sys := hread
    simp only
    split
    · exact hsame ((waitEnter_sys _ _).trans hsys)
    · rw [waitEnter_sys, hsys]
      exact installToDisk_frame

theorem menuTurn_effect (st : Session) :
    TurnEffect env ready typed ⟨.menu, st⟩ (menuTurn env ready typed losBootSector image st) := by
  have hlocked : Place.menu.Locked := ⟨by simp, by simp⟩
  have hread := @readLine_sys typed st shortMax
  unfold menuTurn
  rcases hr : st.readLine typed shortMax with ⟨ok, choice, st₁⟩
  rw [hr] at hread
  have hsys : st₁.sys = st.sys := hread
  simp only
  split
  · exact .told hlocked (by simp) hsys
  · split
    · obtain ⟨hquiet, htable⟩ := @doInstall_frame env ready typed losBootSector image st₁
      rw [hsys] at hquiet htable
      exact .idle hlocked (by simp) hquiet htable
    · split
      · exact .told hlocked (start_ne_shell _) hsys
      · split
        · exact .told hlocked (by simp) hsys
        · exact .told hlocked (by simp) hsys

theorem askNewPassword_sys (st : Session) : (askNewPassword typed st).2.sys = st.sys := by
  have hfirst := @readLine_sys typed st passwordMax
  unfold askNewPassword
  rcases hr : st.readLine typed passwordMax with ⟨ok, out, st₁⟩
  rw [hr] at hfirst
  have hsecond := @readLine_sys typed st₁ passwordMax
  simp only
  split
  · exact hfirst
  · split
    · exact hfirst
    · rcases hr' : st₁.readLine typed passwordMax with ⟨ok', again, st₂⟩
      rw [hr'] at hsecond
      simp only
      split
      · exact hsecond.trans hfirst
      · split <;> exact hsecond.trans hfirst

theorem addUser_cases {st st' : Session} {name password : List UInt8} {admin : Bool}
    (h : addUser env st name password admin = some st') :
    ∃ res, usersAdd env (persistAvailable st.sys) st.sys.table st.sys.fs name password admin =
      some (res, st'.sys.table, st'.sys.fs) := by
  unfold addUser at h
  obtain ⟨⟨res, t, s⟩, hadd, rfl⟩ := Option.map_eq_some_iff.mp h
  exact ⟨res, hadd⟩

theorem rootPasswordTurn_effect {st : Session} {m' : Machine}
    (h : rootPasswordTurn env typed st = some m') :
    TurnEffect env ready typed ⟨.rootPassword, st⟩ m' := by
  have hlocked : Place.rootPassword.Locked := ⟨by simp, by simp⟩
  have hask := @askNewPassword_sys typed st
  unfold rootPasswordTurn at h
  rcases hr : askNewPassword typed st with ⟨entry, st₁⟩
  rw [hr] at hask h
  have hsys : st₁.sys = st.sys := hask
  cases entry with
  | accepted password =>
    obtain ⟨st₂, hadd, rfl⟩ := Option.map_eq_some_iff.mp h
    obtain ⟨res, hadd⟩ := addUser_cases hadd
    rw [hsys] at hadd
    exact .add hlocked (by simp) hadd
  | cancelled =>
    obtain rfl := Option.some.inj h
    exact .told hlocked (by simp) hsys
  | again =>
    obtain rfl := Option.some.inj h
    exact .told hlocked (by simp) hsys

theorem userNameTurn_effect (st : Session) :
    TurnEffect env ready typed ⟨.userName, st⟩ (userNameTurn typed st) := by
  have hlocked : Place.userName.Locked := ⟨by simp, by simp⟩
  have hread := @readLine_sys typed st userNameMax
  unfold userNameTurn
  rcases hr : st.readLine typed userNameMax with ⟨ok, name, st₁⟩
  rw [hr] at hread
  simp only
  split
  · exact .told hlocked (by simp) hread
  · split
    · exact .told hlocked (by simp) hread
    · split
      · exact .told hlocked (by simp) hread
      · exact .told hlocked (by simp) hread

theorem userPasswordTurn_effect {name : List UInt8} {st : Session} {m' : Machine}
    (h : userPasswordTurn env typed name st = some m') :
    TurnEffect env ready typed ⟨.userPassword name, st⟩ m' := by
  have hlocked : (Place.userPassword name).Locked := ⟨by simp, by simp⟩
  have hask := @askNewPassword_sys typed st
  unfold userPasswordTurn at h
  rcases hr : askNewPassword typed st with ⟨entry, st₁⟩
  rw [hr] at hask h
  have hsys : st₁.sys = st.sys := hask
  cases entry with
  | accepted password =>
    obtain ⟨st₂, hadd, rfl⟩ := Option.map_eq_some_iff.mp h
    obtain ⟨res, hadd⟩ := addUser_cases hadd
    rw [hsys] at hadd
    exact .add hlocked (by simp) hadd
  | cancelled =>
    obtain rfl := Option.some.inj h
    exact .told hlocked (by simp) hsys
  | again =>
    obtain rfl := Option.some.inj h
    exact .told hlocked (by simp) hsys

theorem setupDoneTurn_effect {st : Session} {m' : Machine}
    (h : setupDoneTurn env ready typed st = some m') :
    TurnEffect env ready typed ⟨.setupDone, st⟩ m' := by
  unfold setupDoneTurn at h
  simp only at h
  obtain ⟨⟨res, sys⟩, hsave, rfl⟩ := Option.map_eq_some_iff.mp h
  rw [waitEnter_sys] at hsave
  obtain ⟨hquiet, htable⟩ := persistSave_frame hsave
  exact .idle ⟨by simp, by simp⟩ (by simp) hquiet htable

theorem showMotd_sys {st st' : Session} (h : showMotd st = some st') : st'.sys = st.sys := by
  unfold showMotd at h
  split at h
  · simp at h
  · rw [← Option.some.inj h]
  · split at h
    · simp at h
    · obtain ⟨-, -, rfl⟩ := Option.map_eq_some_iff.mp h
      rfl

theorem shellStart_cases {st st' : Session} (h : shellStart st = some st') :
    st'.sys.table = st.sys.table ∧
      (st'.sys.fs = st.sys.fs ∨ ∃ dir, fsSetCwd st.sys.fs dir = some st'.sys.fs) := by
  unfold shellStart at h
  split at h
  · rw [showMotd_sys h]
    exact ⟨rfl, Or.inl rfl⟩
  · split at h
    · simp at h
    · split at h
      · simp at h
      next s hcwd =>
        rw [showMotd_sys h]
        exact ⟨rfl, Or.inr ⟨_, hcwd⟩⟩

theorem loginTurn_effect {st : Session} {m' : Machine} (h : loginTurn typed st = some m') :
    TurnEffect env ready typed ⟨.login, st⟩ m' := by
  have hlocked : Place.login.Locked := ⟨by simp, by simp⟩
  have hread := @readLine_sys typed st userNameMax
  unfold loginTurn at h
  rcases hr : st.readLine typed userNameMax with ⟨ok, name, st₁⟩
  rw [hr] at hread h
  have hsys : st₁.sys = st.sys := hread
  simp only at h
  split at h
  · obtain rfl := Option.some.inj h
    exact .told hlocked (by simp) hsys
  next hname =>
    have hok : ok = true := by
      cases ok with
      | true => rfl
      | false => exact absurd (Or.inl rfl) hname
    have hsecond := @readLine_sys typed st₁ passwordMax
    have hanswer : answer typed st₁ = (st₁.readLine typed passwordMax).2.1 := rfl
    rcases hr' : st₁.readLine typed passwordMax with ⟨ok', password, st₂⟩
    rw [hr'] at hsecond hanswer
    have hsys₂ : st₂.sys = st.sys := hsecond.trans hsys
    have hpassword : answer typed st₁ = password := hanswer
    simp only [hr'] at h
    rw [hsys₂, ← hpassword] at h
    split at h
    · simp at h
    next result t s hswitch =>
      split at h
      next hres =>
        obtain ⟨st₃, hstart, rfl⟩ := Option.map_eq_some_iff.mp h
        obtain ⟨htable, hfs⟩ := shellStart_cases hstart
        rw [hres] at hswitch
        have htable' : st₃.sys.table = t := htable
        refine .login rfl rfl (hok ▸ hr) ?_ hfs
        show usersSwitch st.sys.table st.sys.fs name (answer typed st₁) =
          some (0, st₃.sys.table, s)
        rw [htable']
        exact hswitch
      next hres =>
        rcases usersSwitch_spec hswitch with ⟨-, rfl, rfl⟩ | ⟨hzero, -⟩
        · obtain rfl := Option.some.inj h
          exact .idle hlocked (by simp) (.refl _) rfl
        · exact absurd hzero hres

theorem readLine_cancelled {st st' : Session} {size : Nat} {line : List UInt8}
    (h : st.readLine typed size = (false, line, st')) : line = [] := by
  unfold Session.readLine at h
  simp only at h
  split at h
  · simp only [Prod.mk.injEq] at h
    exact h.2.1.symm
  · simp at h

theorem execute_nothing (st : Session) : execute env ready typed st [] = some st := by
  simp [execute, strSplit, argMax]

theorem persistFlush_frame {sys sys' : System} {res : Int}
    (h : persistFlush env ready sys = some (res, sys')) :
    Quiet sys.fs sys'.fs ∧ sys'.table = sys.table := by
  unfold persistFlush at h
  split at h
  · simp only [Option.some.injEq, Prod.mk.injEq] at h
    rw [← h.2]
    exact ⟨.refl _, rfl⟩
  · exact persistSave_frame h

/-- A turn at the shell: one command line, and a flush. -/
theorem shellTurn_cases {st st₂ : Session} (h : shellTurn env ready typed st = some st₂) :
    ∃ ok line st₁ st', st.readLine typed lineMax = (ok, line, st₁) ∧
      execute env ready typed st₁ line = some st' ∧ Quiet st'.sys.fs st₂.sys.fs ∧
      st₂.sys.table = st'.sys.table := by
  unfold shellTurn at h
  split at h
  · simp at h
  rcases hr : st.readLine typed lineMax with ⟨ok, line, st₁⟩
  rw [hr] at h
  simp only at h
  split at h
  next hnone =>
    have hline : line = [] := by
      rcases hnone with rfl | hline
      · exact readLine_cancelled hr
      · exact hline
    obtain rfl := Option.some.inj h
    refine ⟨ok, line, st₁, st₁, rfl, ?_, .refl _, rfl⟩
    rw [hline]
    exact execute_nothing st₁
  · split at h
    · simp at h
    next st' hexec =>
      refine ⟨ok, line, st₁, st', rfl, hexec, ?_⟩
      split at h
      · obtain rfl := Option.some.inj h
        exact ⟨.refl _, rfl⟩
      · split at h
        · simp at h
        next result sys hflush =>
          obtain ⟨hquiet, htable⟩ := persistFlush_frame hflush
          split at h
          · obtain rfl := Option.some.inj h
            exact ⟨hquiet, htable⟩
          · obtain rfl := Option.some.inj h
            exact ⟨hquiet, htable⟩

theorem afterTurn_cases (st : Session) : (afterTurn st).st.sys.fs = st.sys.fs ∧
    (((afterTurn st).place = .shell ∨ (afterTurn st).place = .off) ∧
        (afterTurn st).st.sys.table = st.sys.table ∨
      (afterTurn st).place = .login ∧
        (afterTurn st).st.sys.table = usersLogout st.sys.table) := by
  unfold afterTurn
  split
  · exact ⟨rfl, Or.inl ⟨Or.inr rfl, rfl⟩⟩
  · split
    · exact ⟨rfl, Or.inl ⟨Or.inl rfl, rfl⟩⟩
    · exact ⟨rfl, Or.inr ⟨rfl, rfl⟩⟩

/-- **What a turn does** is one of the effects. -/
theorem turn_effect {m m' : Machine}
    (h : turn env ready typed losBootSector image m = some m') :
    TurnEffect env ready typed m m' := by
  obtain ⟨place, st⟩ := m
  unfold turn at h
  cases place with
  | menu =>
    obtain rfl := Option.some.inj h
    exact menuTurn_effect st
  | rootPassword => exact rootPasswordTurn_effect h
  | userName =>
    obtain rfl := Option.some.inj h
    exact userNameTurn_effect st
  | userPassword name => exact userPasswordTurn_effect h
  | setupDone => exact setupDoneTurn_effect h
  | login => exact loginTurn_effect h
  | shell =>
    obtain ⟨st₂, hshell, rfl⟩ := Option.map_eq_some_iff.mp h
    obtain ⟨ok, line, st₁, st', hread, hexec, hquiet, htable⟩ := shellTurn_cases hshell
    obtain ⟨hfs, hafter⟩ := afterTurn_cases st₂
    rw [← hfs] at hquiet
    rw [htable] at hafter
    exact .command rfl hread hexec hquiet hafter
  | off => exact .off rfl (Option.some.inj h).symm

/-- **What every call keeps is kept by a turn.** -/
theorem Closed.turn (hc : Closed env okFs (fun _ => True) P) (hg : Gentle okFs)
    {m m' : Machine}
    (hrm : m.place = .shell → Removes okFs m.st.sys.fs (m.st.readLine typed lineMax).2.1)
    (h : P m.st.sys.table m.st.sys.fs)
    (hturn : turn env ready typed losBootSector image m = some m') :
    P m'.st.sys.table m'.st.sys.fs := by
  cases turn_effect hturn with
  | off _ hm =>
    rw [hm]
    exact h
  | idle _ _ hquiet htable =>
    rw [htable]
    exact hc.quiet h hquiet
  | @add available admin name password _ _ _ hadd =>
    have hop : AccountText (.add available name password admin) := trivial
    exact hc.accounts h hop trivial hadd
  | @login name st _ _ _ _ hswitch hfs =>
    have hop : AccountText (.switch name (answer typed st)) := trivial
    have h₁ := hc.accounts h hop trivial hswitch
    rcases hfs with hsame | ⟨dir, hcwd⟩
    · rw [hsame]
      exact h₁
    · have hop : FsText (.setCwd dir) := trivial
      exact hc.files h₁ hop (hg _ _ (by simp)) hcwd
  | @command ok line st st' hplace hread hexec hquiet htable =>
    have hsys : st.sys = m.st.sys := by
      have hsame := @readLine_sys typed m.st lineMax
      rw [hread] at hsame
      exact hsame
    have h0 : (0 : UInt8) ∉ line := by
      have htext := readLine_text typed m.st lineMax
      rw [hread] at htext
      exact htext
    have hline : Removes okFs st.sys.fs line := by
      have hall := hrm hplace
      rw [hread] at hall
      rw [hsys]
      exact hall
    rw [← hsys] at h
    have h₁ := hc.quiet (hc.effect hg h0 hline h (execute_effect hexec)) hquiet
    rcases htable with ⟨-, hsame⟩ | ⟨-, hlogout⟩
    · rw [hsame]
      exact h₁
    · rw [hlogout]
      have hop : AccountText .logout := trivial
      have hstep : accountStep env st'.sys.table m'.st.sys.fs .logout =
        some (0, usersLogout st'.sys.table, m'.st.sys.fs) := rfl
      exact hc.accounts h₁ hop trivial hstep

/-- The same for what really every call keeps. -/
theorem Closed.turn_any (hc : Closed env (fun _ _ => True) (fun _ => True) P) {m m' : Machine}
    (h : P m.st.sys.table m.st.sys.fs)
    (hturn : Main.turn env ready typed losBootSector image m = some m') :
    P m'.st.sys.table m'.st.sys.fs :=
  hc.turn gentle_true (fun _ _ _ _ => trivial) h hturn

end LightningOS.Main
