import LightningOS.Properties.Decoder
import LightningOS.Properties.Flush
import LightningOS.Properties.Listing
import LightningOS.Properties.Login
import LightningOS.Properties.Shown

/-!
# What a turn needs

A turn comes to an end when there is a tree with a working directory in it, and zeros behind
the texts of its files. Boots, logins and commands keep that, apart from an `rm` on something
above the working directory, which frees it. So no operation on the tree or the accounts
faults before the turn behind such an `rm`. The stacks of the tasks are not part of this: the
walks below a directory call themselves, and are taken to have room for that.
-/

namespace LightningOS.Main

open ByteMemory CString Ramfs Ata Users Persist Shell Install Relation

variable {env : Env} {ready : Nat → Bool} {typed : Nat → Option (List UInt8)}
variable {losBootSector : Sector} {image : Image}
variable {ok : AccountOp → Prop} {t : Table} {s : Fs} {m : Machine}

/-! ## The tree -/

theorem standing_closed : Closed env KeepsCwd ok fun _ s => Standing s where
  files h _ hk hstep := by
    obtain ⟨root, kids, hinv, hc⟩ := h
    obtain ⟨kids', hinv', hc'⟩ := hinv.fsStep env hc hk hstep
    exact ⟨root, kids', hinv', hc'⟩
  accounts h _ _ hstep := h.accountStep env hstep
  time n h := h.time n

theorem keepsCwd_gentle : Gentle KeepsCwd := by
  intro s op hop
  cases op with
  | remove path => exact absurd rfl (hop path)
  | create _ _ => trivial
  | write _ _ _ _ => trivial
  | setCwd _ => trivial
  | reset => trivial

theorem abspath_total (h : Standing s) {p : Ptr} (hp : ∃ n, s.nodes.get p = some n) :
    ∃ out, fsAbspath s p fsPathMax = some out := by
  obtain ⟨root, kids, hinv, -⟩ := h
  obtain ⟨n, hn⟩ := hp
  obtain ⟨ns, hl⟩ := hinv.located (hinv.mem hn)
  exact ⟨_, hl.fsAbspath hinv⟩

theorem setCwd_total {dir : Option Ptr} (hdir : ∀ d, dir = some d → ∃ n, s.nodes.get d = some n) :
    ∃ s', fsSetCwd s dir = some s' := by
  unfold fsSetCwd
  cases dir with
  | none => exact ⟨_, rfl⟩
  | some d =>
    obtain ⟨n, hn⟩ := hdir d rfl
    simp only [hn]
    split
    · exact ⟨_, rfl⟩
    · exact ⟨_, rfl⟩

theorem rootNode_live (h : Standing s) {d : Ptr} (hd : s.rootNode = some d) :
    ∃ n, s.nodes.get d = some n := by
  obtain ⟨root, kids, hinv, -⟩ := h
  rw [hinv.isRoot] at hd
  obtain rfl := Option.some.inj hd
  exact hinv.get hinv.root_mem

/-- Home, or the root when there is no way home. -/
theorem goHome_total (h : Standing s) {dir : Option Ptr}
    (hdir : ∀ d, dir = some d → ∃ n, s.nodes.get d = some n) :
    ∃ s', fsSetCwd s (if dir.isSome then dir else s.rootNode) = some s' := by
  refine setCwd_total ?_
  intro d hd
  split at hd
  · exact hdir d hd
  · exact rootNode_live h hd

theorem remove_total (h : Standing s) (path : List UInt8) : ∃ r, fsRemove s path = some r := by
  obtain ⟨root, kids, hinv, hc⟩ := h
  obtain ⟨q, hq, -⟩ := hinv.fsResolve hc path
  obtain ⟨res, s', hrun, -⟩ := hinv.fsRemove hq
  exact ⟨_, hrun⟩

theorem write_total (h : Standing s) {file : Ptr} (hfile : ∃ n, s.nodes.get file = some n)
    {txt : List UInt8} (hlen : txt.length ≤ 257) (append : Bool) :
    ∃ r, fsWrite env s (some file) txt append = some r := by
  have hlive : ∀ f, some file = some f → ∃ n, s.nodes.get f = some n := by
    rintro f ⟨⟩
    exact hfile
  have hfits : txt.length + Mem.heapMaxSize + 65 < 4294967296 := by
    have : Mem.heapMaxSize + 65 + 257 < 4294967296 := by decide
    omega
  obtain ⟨res, s', hrun, -⟩ := h.write env hlive (Nat.le_refl _) hfits append
  exact ⟨_, hrun⟩

/-! ## Accounts and snapshots -/

theorem usersAdd_total (h : Standing s) (available admin : Bool) (name password : List UInt8) :
    ∃ r, usersAdd env available t s name password admin = some r := by
  unfold usersAdd
  split
  · exact ⟨_, rfl⟩
  · split
    · exact ⟨_, rfl⟩
    · split
      · exact ⟨_, rfl⟩
      · split
        · exact ⟨_, rfl⟩
        · simp only
          obtain ⟨s₁, hmake, hs₁⟩ := h.makeHome env available
            (if admin then ofString "/root"
              else (ofString "/home/" ++ name).take (userHomeMax - 1))
          rw [hmake]
          simp only
          obtain ⟨s₂, hsync, -⟩ := hs₁.syncPasswd env _
          rw [hsync]
          exact ⟨_, rfl⟩

theorem usersDelete_total (h : Standing s) (name : List UInt8) :
    ∃ r, usersDelete env t s name = some r := by
  unfold usersDelete
  split
  · exact ⟨_, rfl⟩
  · split
    · exact ⟨_, rfl⟩
    · split
      · exact ⟨_, rfl⟩
      · simp only
        obtain ⟨s₁, hsync, -⟩ := h.syncPasswd env _
        rw [hsync]
        exact ⟨_, rfl⟩

theorem usersSwitch_total (h : Standing s) (name password : List UInt8) :
    ∃ r, usersSwitch t s name password = some r := by
  unfold usersSwitch
  split
  · exact ⟨_, rfl⟩
  next i _ =>
    split
    · exact ⟨_, rfl⟩
    · obtain ⟨q, hq, hlive⟩ := h.resolve (t.users i).home
      obtain ⟨s', hcwd⟩ := setCwd_total hlive
      simp only [hq, hcwd]
      exact ⟨_, rfl⟩

theorem persistSave_total {sys : System} (h : ∃ root kids, TreeInv sys.fs root kids) :
    ∃ r, persistSave env ready sys = some r := by
  obtain ⟨root, kids, hinv⟩ := h
  unfold persistSave
  split
  · exact ⟨_, rfl⟩
  · split
    · exact ⟨_, rfl⟩
    · split
      · exact ⟨_, rfl⟩
      next sys' halloc =>
        have hinv' : TreeInv sys'.fs root kids := by
          unfold System.tmpAlloc at halloc
          obtain ⟨-, rfl⟩ := Prod.mk.inj halloc
          exact hinv.congr rfl rfl rfl rfl
        rw [encodeAll_buffer hinv']
        simp only
        split
        · exact ⟨_, rfl⟩
        · exact ⟨_, rfl⟩

theorem persistFlush_total {sys : System} (h : ∃ root kids, TreeInv sys.fs root kids) :
    ∃ r, persistFlush env ready sys = some r := by
  unfold persistFlush
  split
  · exact ⟨_, rfl⟩
  · exact persistSave_total h

/-! ## Commands -/

theorem targetAbspath_total (h : Standing s) (path : List UInt8) :
    ∃ r, targetAbspath s path = some r := by
  unfold targetAbspath
  obtain ⟨q, hq, hlive⟩ := h.resolve path
  rw [hq]
  cases q with
  | some node =>
    obtain ⟨out, hout⟩ := abspath_total h (hlive node rfl)
    simp only [hout]
    exact ⟨_, rfl⟩
  | none =>
    simp only
    rcases splitLastSlash (path.take (fsPathMax - 1)) with _ | ⟨dir, name⟩
    · have hstanding := h
      obtain ⟨-, -, -, p, n, hp, hn, -⟩ := h
      obtain ⟨out, hout⟩ := abspath_total hstanding ⟨n, hn⟩
      simp only [hp, hn, hout]
      split
      · exact ⟨_, rfl⟩
      · exact ⟨_, rfl⟩
    · obtain ⟨q, hq', hlive'⟩ := h.resolve (if dir = [] then [slash] else dir)
      simp only [hq']
      cases q with
      | none => exact ⟨_, rfl⟩
      | some p =>
        obtain ⟨n, hn⟩ := hlive' p rfl
        obtain ⟨out, hout⟩ := abspath_total h ⟨n, hn⟩
        simp only [hn, hout]
        split
        · exact ⟨_, rfl⟩
        · exact ⟨_, rfl⟩

variable {st : Session}

/-- Either the answer is no, or the session goes on as it was. -/
theorem mayWrite_total (h : Standing st.sys.fs) (command : String) (path : List UInt8) :
    (∃ st', mayWrite st command path = some (false, st')) ∨
      mayWrite st command path = some (true, st) := by
  obtain ⟨r, hr⟩ := targetAbspath_total h path
  unfold mayWrite
  rw [hr]
  cases r with
  | none => exact Or.inl ⟨_, rfl⟩
  | some abspath =>
    simp only
    split
    · exact Or.inr rfl
    · exact Or.inl ⟨_, rfl⟩

theorem standing_rooted (h : Standing s) : Rooted s := by
  obtain ⟨root, kids, hinv, p, -, hp, -, -⟩ := h
  exact ⟨⟨root, kids, hinv⟩, p, hp⟩

/-- What a command is about when it has no argument. -/
theorem cwd_live (h : Standing s) :
    ∃ p n, s.currentDir = some p ∧ s.nodes.get p = some n := by
  obtain ⟨-, -, -, p, n, hp, hn, -⟩ := h
  exact ⟨p, n, hp, hn⟩

/-- The argument of `ls` and `tree` leads to a node or to nothing. -/
theorem argOrCwd_total (h : Standing s) (argv : List (List UInt8)) :
    ∃ q, argOrCwd s argv = some q ∧ ∀ p, q = some p → ∃ n, s.nodes.get p = some n := by
  unfold argOrCwd
  rcases argv[1]? with _ | path
  · obtain ⟨p, n, hp, hn⟩ := cwd_live h
    exact ⟨_, rfl, fun q hq => ⟨n, by rw [hp] at hq; rw [← Option.some.inj hq, hn]⟩⟩
  · exact h.resolve path

theorem cmdLs_total (h : Standing st.sys.fs) (argv : List (List UInt8)) :
    ∃ st', cmdLs st argv = some st' := by
  obtain ⟨q, hq, hlive⟩ := argOrCwd_total h argv
  unfold cmdLs
  simp only [hq]
  cases q with
  | none => exact ⟨_, rfl⟩
  | some dir =>
    obtain ⟨n, hn⟩ := hlive dir rfl
    obtain ⟨root, kids, hinv, -⟩ := h
    obtain ⟨ch, -, -, hls, -⟩ := listed hinv hn
    simp only [hn, hls]
    split
    · exact ⟨_, rfl⟩
    · exact ⟨_, rfl⟩

theorem cmdTree_total (h : Standing st.sys.fs) (argv : List (List UInt8)) :
    ∃ st', cmdTree st argv = some st' := by
  obtain ⟨q, hq, hlive⟩ := argOrCwd_total h argv
  unfold cmdTree
  simp only [hq]
  cases q with
  | none => exact ⟨_, rfl⟩
  | some dir =>
    obtain ⟨n, hn⟩ := hlive dir rfl
    obtain ⟨root, kids, hinv, -⟩ := h
    obtain ⟨ch, shown, -, -, hwalk, -⟩ := listed hinv hn
    simp only [hn, hwalk]
    split
    · exact ⟨_, rfl⟩
    · exact ⟨_, rfl⟩

theorem cmdCat_total (h : Standing st.sys.fs) (he : Ended st.sys.fs) (argv : List (List UInt8)) :
    ∃ st', cmdCat st argv = some st' := by
  unfold cmdCat
  rcases argv[1]? with _ | path
  · exact ⟨_, rfl⟩
  · obtain ⟨q, hq, hlive⟩ := h.resolve path
    simp only [hq]
    cases q with
    | none => exact ⟨_, rfl⟩
    | some p =>
      obtain ⟨n, hn⟩ := hlive p rfl
      obtain ⟨root, kids, hinv, -⟩ := h
      obtain ⟨b, hb⟩ := lacksNewline_total (hinv.ok hn).data
      simp only [hn, writeFileData_contents (he _ _ hn), hb]
      split
      · exact ⟨_, rfl⟩
      · exact ⟨_, rfl⟩

theorem currentPath_total (h : Standing s) : ∃ out, currentPath s = some out := by
  obtain ⟨p, n, hp, hn⟩ := cwd_live h
  obtain ⟨out, hout⟩ := abspath_total h ⟨n, hn⟩
  unfold currentPath
  rw [hp]
  simp only [hout]
  exact ⟨_, rfl⟩

theorem cmdPwd_total (h : Standing st.sys.fs) : ∃ st', cmdPwd st = some st' := by
  obtain ⟨out, hout⟩ := currentPath_total h
  unfold cmdPwd
  rw [hout]
  exact ⟨_, rfl⟩

theorem printPrompt_total (h : Standing s) (t : Table) : ∃ out, printPrompt t s = some out := by
  obtain ⟨out, hout⟩ := currentPath_total h
  unfold printPrompt displayPath
  rw [hout]
  exact ⟨_, rfl⟩

theorem cmdCd_total (h : Standing st.sys.fs) (argv : List (List UInt8)) :
    ∃ st', cmdCd st argv = some st' := by
  unfold cmdCd
  rcases argv[1]? with _ | path
  · simp only
    rcases currentHome st.sys.table with _ | home
    · obtain ⟨s', hs⟩ := goHome_total h (fun d hd => rootNode_live h hd)
      simp only [hs]
      exact ⟨_, rfl⟩
    · obtain ⟨q, hq, hlive⟩ := h.resolve home
      obtain ⟨s', hs⟩ := goHome_total h hlive
      simp only [hq, hs]
      exact ⟨_, rfl⟩
  · obtain ⟨q, hq, hlive⟩ := h.resolve path
    simp only [hq]
    cases q with
    | none => exact ⟨_, rfl⟩
    | some p =>
      obtain ⟨n, hn⟩ := hlive p rfl
      obtain ⟨s', hs⟩ := setCwd_total hlive
      simp only [hn, hs]
      split
      · exact ⟨_, rfl⟩
      · exact ⟨_, rfl⟩

theorem cmdMkdir_total (h : Standing st.sys.fs) (argv : List (List UInt8)) :
    ∃ st', cmdMkdir env st argv = some st' := by
  unfold cmdMkdir
  rcases argv[1]? with _ | path
  · exact ⟨_, rfl⟩
  · rcases mayWrite_total h "mkdir" path with ⟨st₁, hmay⟩ | hmay
    · simp only [hmay]
      exact ⟨_, rfl⟩
    · obtain ⟨r, s', hcreate, -⟩ := h.create env path .dir
      simp only [hmay, hcreate]
      cases r with
      | none => exact ⟨_, rfl⟩
      | some _ => exact ⟨_, rfl⟩

theorem cmdTouch_total (h : Standing st.sys.fs) (argv : List (List UInt8)) :
    ∃ st', cmdTouch env st argv = some st' := by
  unfold cmdTouch
  rcases argv[1]? with _ | path
  · exact ⟨_, rfl⟩
  · obtain ⟨q, hq, -⟩ := h.resolve path
    simp only [hq]
    cases q with
    | some _ => exact ⟨_, rfl⟩
    | none =>
      rcases mayWrite_total h "touch" path with ⟨st₁, hmay⟩ | hmay
      · simp only [hmay]
        exact ⟨_, rfl⟩
      · obtain ⟨r, s', hcreate, -⟩ := h.create env path .file
        simp only [hmay, hcreate]
        cases r with
        | none => exact ⟨_, rfl⟩
        | some _ => exact ⟨_, rfl⟩

theorem cmdRm_total (h : Standing st.sys.fs) (argv : List (List UInt8)) :
    ∃ st', cmdRm st argv = some st' := by
  unfold cmdRm
  rcases argv[1]? with _ | path
  · exact ⟨_, rfl⟩
  · rcases mayWrite_total h "rm" path with ⟨st₁, hmay⟩ | hmay
    · simp only [hmay]
      exact ⟨_, rfl⟩
    · obtain ⟨⟨result, s'⟩, hremove⟩ := remove_total h path
      simp only [hmay, hremove]
      split
      · exact ⟨_, rfl⟩
      · split
        · exact ⟨_, rfl⟩
        · exact ⟨_, rfl⟩

theorem echoInto_total (h : Standing st.sys.fs) (r : Redirect) {file : Ptr}
    (hfile : ∃ n, st.sys.fs.nodes.get file = some n) :
    ∃ st', echoInto env st r file = some st' := by
  obtain ⟨⟨result, s'⟩, hwrite⟩ := @write_total env _ h file hfile _ (echoText_length r) r.append
  obtain ⟨n, hn⟩ := hfile
  unfold echoInto
  simp only [hn, hwrite]
  split
  · exact ⟨_, rfl⟩
  · split
    · exact ⟨_, rfl⟩
    · exact ⟨_, rfl⟩

theorem cmdEcho_total (h : Standing st.sys.fs) (args : List UInt8) :
    ∃ st', cmdEcho env st args = some st' := by
  unfold cmdEcho
  rcases findRedirect args with _ | r
  · exact ⟨_, rfl⟩
  · simp only
    split
    · exact ⟨_, rfl⟩
    · rcases mayWrite_total h "echo" r.target with ⟨st₁, hmay⟩ | hmay
      · simp only [hmay]
        exact ⟨_, rfl⟩
      · obtain ⟨q, hq, hlive⟩ := h.resolve r.target
        simp only [hmay, hq]
        cases q with
        | some file => exact echoInto_total h r (hlive file rfl)
        | none =>
          obtain ⟨p, s', hcreate, hs', -, hnew⟩ := h.create env r.target .file
          simp only [hcreate]
          cases p with
          | none => exact ⟨_, rfl⟩
          | some file =>
            have hstanding : Standing (st.setFs s').sys.fs := hs'
            exact echoInto_total hstanding r (hnew file rfl)

theorem cmdUseradd_total (h : Standing st.sys.fs) (argv : List (List UInt8)) :
    ∃ st', cmdUseradd env typed st argv = some st' := by
  unfold cmdUseradd
  split
  · exact ⟨_, rfl⟩
  next st₁ hroot =>
    rcases requireRoot_spec hroot with ⟨-, rfl, -⟩ | ⟨hok, -⟩
    · rcases argv[1]? with _ | name
      · exact ⟨_, rfl⟩
      · simp only
        split
        · exact ⟨_, rfl⟩
        · have hsys := @readNewPassword_sys typed st₁
          rcases hread : readNewPassword typed st₁ with ⟨entry, st₂⟩
          rw [hread] at hsys
          have hsys₂ : st₂.sys = st₁.sys := hsys
          cases entry with
          | none => exact ⟨_, rfl⟩
          | some password =>
            rw [← hsys₂] at h
            obtain ⟨⟨result, t, s⟩, hadd⟩ :=
              @usersAdd_total env st₂.sys.table _ h (persistAvailable st₂.sys) false name password
            simp only [hadd]
            split
            · exact ⟨_, rfl⟩
            · exact ⟨_, rfl⟩
    · simp at hok

theorem cmdUserdel_total (h : Standing st.sys.fs) (argv : List (List UInt8)) :
    ∃ st', cmdUserdel env st argv = some st' := by
  unfold cmdUserdel
  split
  · exact ⟨_, rfl⟩
  next st₁ hroot =>
    rcases requireRoot_spec hroot with ⟨-, rfl, -⟩ | ⟨hok, -⟩
    · rcases argv[1]? with _ | name
      · exact ⟨_, rfl⟩
      · obtain ⟨⟨result, t, s⟩, hdelete⟩ := @usersDelete_total env st₁.sys.table _ h name
        simp only [hdelete]
        split
        · exact ⟨_, rfl⟩
        · exact ⟨_, rfl⟩
    · simp at hok

theorem cmdSu_total (h : Standing st.sys.fs) (argv : List (List UInt8)) :
    ∃ st', cmdSu typed st argv = some st' := by
  unfold cmdSu
  simp only
  split
  · exact ⟨_, rfl⟩
  · have hread := @readLine_sys typed st passwordMax
    rcases hr : st.readLine typed passwordMax with ⟨ok, password, st₁⟩
    rw [hr] at hread
    have hsys : st₁.sys = st.sys := hread
    rw [← hsys] at h
    obtain ⟨⟨result, t, s⟩, hswitch⟩ := @usersSwitch_total st₁.sys.table _ h
      ((argv[1]?).getD (ofString "root")) password
    simp only [hswitch]
    split
    · exact ⟨_, rfl⟩
    · exact ⟨_, rfl⟩

theorem cmdSync_total (h : ∃ root kids, TreeInv st.sys.fs root kids) :
    ∃ st', cmdSync env ready st = some st' := by
  obtain ⟨⟨result, sys⟩, hsave⟩ := @persistSave_total env ready _ h
  unfold cmdSync
  simp only [hsave]
  split
  · exact ⟨_, rfl⟩
  · split
    · exact ⟨_, rfl⟩
    · exact ⟨_, rfl⟩

theorem cmdReboot_total (h : ∃ root kids, TreeInv st.sys.fs root kids) :
    ∃ st', cmdReboot env ready st = some st' := by
  obtain ⟨r, hsave⟩ := @persistSave_total env ready _ h
  unfold cmdReboot
  simp only [hsave]
  split
  · exact ⟨_, rfl⟩
  · exact ⟨_, rfl⟩

theorem cmdShutdown_total (h : ∃ root kids, TreeInv st.sys.fs root kids) :
    ∃ st', cmdShutdown env ready st = some st' := by
  obtain ⟨⟨result, sys⟩, hsave⟩ := @persistSave_total env ready _ h
  unfold cmdShutdown
  simp only [hsave]
  split
  · exact ⟨_, rfl⟩
  · split
    · exact ⟨_, rfl⟩
    · exact ⟨_, rfl⟩

/-- **A command line comes to an end.** -/
theorem execute_total (h : Standing st.sys.fs) (he : Ended st.sys.fs) (line : List UInt8) :
    ∃ st', execute env ready typed st line = some st' := by
  have htree : ∃ root kids, TreeInv st.sys.fs root kids := by
    obtain ⟨root, kids, hinv, -⟩ := h
    exact ⟨root, kids, hinv⟩
  unfold execute
  simp only
  rcases strSplit argMax line with _ | ⟨name, words⟩
  · exact ⟨_, rfl⟩
  · simp only
    cases Command.ofName name with
    | ls => exact cmdLs_total h _
    | tree => exact cmdTree_total h _
    | cd => exact cmdCd_total h _
    | pwd => exact cmdPwd_total h
    | cat => exact cmdCat_total h he _
    | echo => exact cmdEcho_total h _
    | mkdir => exact cmdMkdir_total h _
    | touch => exact cmdTouch_total h _
    | rm => exact cmdRm_total h _
    | sync => exact cmdSync_total htree
    | mkfs => exact ⟨_, rfl⟩
    | useradd => exact cmdUseradd_total h _
    | userdel => exact cmdUserdel_total h _
    | passwd => exact ⟨_, rfl⟩
    | su => exact cmdSu_total h _
    | reboot => exact cmdReboot_total htree
    | shutdown => exact cmdShutdown_total htree
    | logout => exact ⟨_, rfl⟩
    | spawn | kill | other => exact ⟨_, rfl⟩

/-! ## Turns -/

theorem shellTurn_total (h : Standing st.sys.fs) (he : Ended st.sys.fs)
    (hsane : Sane st.sys.table st.sys.fs) : ∃ st', shellTurn env ready typed st = some st' := by
  have hread := @readLine_sys typed st lineMax
  have h0 := readLine_text typed st lineMax
  obtain ⟨out, hprompt⟩ := printPrompt_total h st.sys.table
  unfold shellTurn
  rw [hprompt]
  simp only
  rcases hr : st.readLine typed lineMax with ⟨ok, line, st₁⟩
  rw [hr] at hread h0
  have hsys : st₁.sys = st.sys := hread
  simp only
  split
  · exact ⟨_, rfl⟩
  · rw [← hsys] at h he hsane
    obtain ⟨st₂, hexec⟩ := @execute_total env ready typed _ h he line
    -- the command may have removed the working directory, but the flush does not need it
    have hsane₂ := sane_closed.effect gentle_true h0 (fun _ _ _ => trivial) hsane (execute_effect hexec)
    obtain ⟨⟨result, sys⟩, hflush⟩ := @persistFlush_total env ready _ hsane₂.rooted.1
    simp only [hexec, hflush]
    split
    · exact ⟨_, rfl⟩
    · split
      · exact ⟨_, rfl⟩
      · exact ⟨_, rfl⟩

theorem addUser_total (h : Standing st.sys.fs) (name password : List UInt8) (admin : Bool) :
    ∃ st', addUser env st name password admin = some st' := by
  obtain ⟨r, hadd⟩ := @usersAdd_total env st.sys.table _ h (persistAvailable st.sys) admin name
    password
  unfold addUser
  rw [hadd]
  exact ⟨_, rfl⟩

theorem rootPasswordTurn_total (h : Standing st.sys.fs) :
    ∃ m', rootPasswordTurn env typed st = some m' := by
  have hask := @askNewPassword_sys typed st
  unfold rootPasswordTurn
  rcases hr : askNewPassword typed st with ⟨entry, st₁⟩
  rw [hr] at hask
  have hsys : st₁.sys = st.sys := hask
  cases entry with
  | accepted password =>
    rw [← hsys] at h
    obtain ⟨st₂, hadd⟩ := @addUser_total env _ h (ofString "root") password true
    simp only [hadd]
    exact ⟨_, rfl⟩
  | cancelled => exact ⟨_, rfl⟩
  | again => exact ⟨_, rfl⟩

theorem userPasswordTurn_total (h : Standing st.sys.fs) (name : List UInt8) :
    ∃ m', userPasswordTurn env typed name st = some m' := by
  have hask := @askNewPassword_sys typed st
  unfold userPasswordTurn
  rcases hr : askNewPassword typed st with ⟨entry, st₁⟩
  rw [hr] at hask
  have hsys : st₁.sys = st.sys := hask
  cases entry with
  | accepted password =>
    rw [← hsys] at h
    obtain ⟨st₂, hadd⟩ := @addUser_total env _ h name password false
    simp only [hadd]
    exact ⟨_, rfl⟩
  | cancelled => exact ⟨_, rfl⟩
  | again => exact ⟨_, rfl⟩

theorem setupDoneTurn_total (h : Standing st.sys.fs) :
    ∃ m', setupDoneTurn env ready typed st = some m' := by
  have htree : ∃ root kids, TreeInv (waitEnter typed st userNameMax).sys.fs root kids := by
    rw [waitEnter_sys]
    obtain ⟨root, kids, hinv, -⟩ := h
    exact ⟨root, kids, hinv⟩
  obtain ⟨r, hsave⟩ := @persistSave_total env ready _ htree
  unfold setupDoneTurn
  simp only [hsave]
  exact ⟨_, rfl⟩

theorem showMotd_total (h : Standing st.sys.fs) (he : Ended st.sys.fs) :
    ∃ st', showMotd st = some st' := by
  obtain ⟨q, hq, hlive⟩ := h.resolve etcMotd
  unfold showMotd
  simp only [hq]
  cases q with
  | none => exact ⟨_, rfl⟩
  | some motd =>
    obtain ⟨n, hn⟩ := hlive motd rfl
    simp only [hn, writeFileData_contents (he _ _ hn)]
    exact ⟨_, rfl⟩

theorem shellStart_total (h : Standing st.sys.fs) (he : Ended st.sys.fs) :
    ∃ st', shellStart st = some st' := by
  unfold shellStart
  split
  · exact showMotd_total h he
  next home _ =>
    obtain ⟨q, hq, hlive⟩ := h.resolve home
    obtain ⟨s', hs⟩ := goHome_total h hlive
    have hstep : fsStep .ample st.sys.fs (.setCwd (if q.isSome then q else st.sys.fs.rootNode)) =
        some s' := hs
    have hkeeps : KeepsCwd st.sys.fs (.setCwd (if q.isSome then q else st.sys.fs.rootNode)) := trivial
    have h' : Standing (st.setFs s').sys.fs := by
      obtain ⟨root, kids, hinv, hc⟩ := h
      obtain ⟨kids', hinv', hc'⟩ := hinv.fsStep .ample hc hkeeps hstep
      exact ⟨root, kids', hinv', hc'⟩
    have he' : Ended (st.setFs s').sys.fs := ended_step (standing_rooted h) he hstep
    simp only [hq, hs]
    exact showMotd_total h' he'

theorem loginTurn_total (h : Standing st.sys.fs) (he : Ended st.sys.fs) :
    ∃ m', loginTurn typed st = some m' := by
  have hfirst := @readLine_sys typed st userNameMax
  unfold loginTurn
  rcases hr : st.readLine typed userNameMax with ⟨ok, name, st₁⟩
  rw [hr] at hfirst
  have hsys₁ : st₁.sys = st.sys := hfirst
  simp only
  split
  · exact ⟨_, rfl⟩
  · have hsecond := @readLine_sys typed st₁ passwordMax
    rcases hr' : st₁.readLine typed passwordMax with ⟨ok', password, st₂⟩
    rw [hr'] at hsecond
    have hsys₂ : st₂.sys = st₁.sys := hsecond
    rw [← hsys₁, ← hsys₂] at h he
    obtain ⟨⟨result, t, s⟩, hswitch⟩ := @usersSwitch_total st₂.sys.table _ h name password
    have hstep : accountStep .ample st₂.sys.table st₂.sys.fs (.switch name password) =
        some (result, t, s) := hswitch
    have hs : Standing ((st₂.setTable t).setFs s).sys.fs := h.accountStep .ample hstep
    have he' : Ended ((st₂.setTable t).setFs s).sys.fs :=
      (ended_runs (accountStep_runs hstep) ⟨(standing_rooted h), he⟩).2
    simp only [hswitch]
    split
    · obtain ⟨st₃, hstart⟩ := shellStart_total hs he'
      simp only [hstart]
      exact ⟨_, rfl⟩
    · exact ⟨_, rfl⟩

/-- **A turn comes to an end.** -/
theorem turn_total (h : Standing m.st.sys.fs) (he : Ended m.st.sys.fs)
    (hsane : Sane m.st.sys.table m.st.sys.fs) :
    ∃ m', turn env ready typed losBootSector image m = some m' := by
  obtain ⟨place, st⟩ := m
  unfold turn
  cases place with
  | menu => exact ⟨_, rfl⟩
  | rootPassword => exact rootPasswordTurn_total h
  | userName => exact ⟨_, rfl⟩
  | userPassword name => exact userPasswordTurn_total h name
  | setupDone => exact setupDoneTurn_total h
  | login => exact loginTurn_total h he
  | shell =>
    obtain ⟨st', hshell⟩ := @shellTurn_total env ready typed _ h he hsane
    simp only [hshell]
    exact ⟨_, rfl⟩
  | off => exact ⟨_, rfl⟩

/-! ## Runs -/

/-- A turn whose command removes nothing above the working directory. -/
structure Spares (env : Env) (ready : Nat → Bool) (typed : Nat → Option (List UInt8))
    (losBootSector : Sector) (image : Image) (m m' : Machine) : Prop where
  turn : Step env ready typed losBootSector image m m'
  spares : m.place = .shell → Removes KeepsCwd m.st.sys.fs (m.st.readLine typed lineMax).2.1

/-- What a boot leaves. -/
theorem kmain_tree {boot : System} (htable : boot.table = usersInit)
    (hinit : fsInit env .zero = some boot.fs) (hroot : boot.fs.rootNode ≠ none)
    (h : kmain env ready boot = some m) :
    Standing m.st.sys.fs ∧ Ended m.st.sys.fs ∧ Sane m.st.sys.table m.st.sys.fs := by
  unfold kmain at h
  obtain ⟨⟨state, sys⟩, hmount, rfl⟩ := Option.map_eq_some_iff.mp h
  refine ⟨?_, ?_, ?_⟩
  · obtain ⟨root, kids, hinv, hc⟩ := fsInit_tree env hinit hroot
    exact standing_closed.persistMount keepsCwd_gentle imports_true ⟨root, kids, hinv, hc⟩ hmount
  · exact (ended_closed.persistMount gentle_true imports_true
      ⟨fsInit_rooted hinit hroot, fsInit_ended hinit hroot⟩ hmount).2
  · refine sane_closed.persistMount gentle_true imports_true ?_ hmount
    rw [htable]
    exact (Reached.boot hinit hroot).sane

/-- **No operation on the tree or the accounts faults** before something above the working
directory is removed. Whatever the disks hold and whatever is typed, a run can go on from each
of its states: the commands, prompts and messages read nothing that is not there, their lists
and texts end, and the tree and the accounts are in order. -/
theorem no_fault {boot : System} {m₀ : Machine} (htable : boot.table = usersInit)
    (hinit : fsInit env .zero = some boot.fs) (hroot : boot.fs.rootNode ≠ none)
    (hboot : kmain env ready boot = some m₀)
    (hrun : ReflTransGen (Spares env ready typed losBootSector image) m₀ m) :
    (∃ m', Step env ready typed losBootSector image m m') ∧ Standing m.st.sys.fs ∧
      Ended m.st.sys.fs ∧ Sane m.st.sys.table m.st.sys.fs := by
  have hall : Standing m.st.sys.fs ∧ Ended m.st.sys.fs ∧ Sane m.st.sys.table m.st.sys.fs := by
    induction hrun with
    | refl => exact kmain_tree htable hinit hroot hboot
    | tail _ hstep ih =>
      obtain ⟨hstanding, hended, hsane⟩ := ih
      refine ⟨?_, ?_, ?_⟩
      · exact standing_closed.turn keepsCwd_gentle hstep.spares hstanding hstep.turn
      · exact (ended_closed.turn_any ⟨hsane.rooted, hended⟩ hstep.turn).2
      · exact sane_closed.turn_any hsane hstep.turn
  obtain ⟨hstanding, hended, hsane⟩ := hall
  exact ⟨turn_total hstanding hended hsane, hstanding, hended, hsane⟩

/-- The setup of a new machine, and a login. -/
theorem no_fault_login : ∃ m₀ m, kmain .ample (fun _ => true) diskless = some m₀ ∧
    m.place = .login ∧ ∃ m', Step .ample (fun _ => true) rootTyped (Sector.ofBytes []) {} m m' := by
  obtain ⟨m₀, m₁, m₂, m₃, m₄, hboot, h₁, h₂, h₃, -, -, hplaces⟩ := rootTyped_run
  simp only [List.cons.injEq] at hplaces
  obtain ⟨hp₀, hp₁, hp₂, hp₃, -⟩ := hplaces
  have hfs : diskless.fs = skeleton := by
    unfold diskless
    dsimp only
  have hinit : fsInit .ample .zero = some diskless.fs := by
    rw [hfs]
    exact fsInit_skeleton
  have hroot : diskless.fs.rootNode ≠ none := by
    obtain ⟨root, kids, hinv, -⟩ := skeleton_standing
    rw [hfs, hinv.isRoot]
    simp
  have htable : diskless.table = usersInit := by
    unfold diskless
    dsimp only
  have hnot : ∀ {m m' : Machine}, m.place ≠ .shell →
      Step .ample (fun _ => true) rootTyped (Sector.ofBytes []) {} m m' →
      Spares .ample (fun _ => true) rootTyped (Sector.ofBytes []) {} m m' :=
    fun hplace hstep => ⟨hstep, fun hshell => absurd hshell hplace⟩
  have hfirst : ReflTransGen (Spares .ample (fun _ => true) rootTyped (Sector.ofBytes []) {})
      m₀ m₁ := .single (hnot (by simp [hp₀]) h₁)
  have hrun := (hfirst.tail (hnot (by simp [hp₁]) h₂)).tail (hnot (by simp [hp₂]) h₃)
  exact ⟨m₀, m₃, hboot, hp₃, (no_fault htable hinit hroot hboot hrun).1⟩

end LightningOS.Main
