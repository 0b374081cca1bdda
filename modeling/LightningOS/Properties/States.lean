import LightningOS.Properties.Listing

/-!
# The states that calls lead to

From a boot on, calls of the file tree and of the accounts follow each other in any order,
with C strings for paths. What a call of the accounts does to the tree are calls of the
tree, so one step lemma for these is enough: the tree stays a tree, and its names come
from the paths.
-/

namespace LightningOS.Users

open ByteMemory CString Ramfs Forest Shell

/-! ## Calls -/

/-- The paths of a call are C strings. -/
def FsText : FsOp → Prop
  | .create path _ => (0 : UInt8) ∉ path
  | _ => True

def AccountText : AccountOp → Prop
  | .importUser _ home _ _ _ => (0 : UInt8) ∉ home
  | _ => True

variable (env : Env)

/-- The states after a boot and some calls. -/
inductive Reached : Table → Fs → Prop
  | boot {s : Fs} : fsInit env .zero = some s → s.rootNode ≠ none → Reached usersInit s
  | files {t : Table} {s s' : Fs} {op : FsOp} : Reached t s → FsText op →
      fsStep env s op = some s' → Reached t s'
  | accounts {t t' : Table} {s s' : Fs} {op : AccountOp} {res : Int} : Reached t s →
      AccountText op → accountStep env t s op = some (res, t', s') → Reached t' s'

/-- Some calls of the tree lead from one state to the other. -/
inductive Runs (s : Fs) : Fs → Prop
  | refl : Runs s s
  | step {s₁ s₂ : Fs} {op : FsOp} : Runs s s₁ → FsText op → fsStep env s₁ op = some s₂ → Runs s s₂

variable {env} {t t' : Table} {s s' s₁ s₂ : Fs} {root : Ptr} {kids : Forest Ptr}

theorem Runs.trans (h : Runs env s s₁) (h' : Runs env s₁ s₂) : Runs env s s₂ := by
  induction h' with
  | refl => exact h
  | step _ hop hstep ih => exact .step ih hop hstep

theorem Runs.create {path : List UInt8} {type : FsType} {r : Option Ptr × Fs}
    (h0 : (0 : UInt8) ∉ path) (hrun : fsCreate env s path type = some r) : Runs env s r.2 := by
  have hop : FsText (.create path type) := h0
  exact .step .refl hop (by rw [fsStep, hrun]; rfl)

theorem Runs.write {file : Option Ptr} {txt : List UInt8} {append : Bool} {r : Int × Fs}
    (hrun : fsWrite env s file txt append = some r) : Runs env s r.2 := by
  have hop : FsText (.write file txt txt.length append) := trivial
  refine .step .refl hop ?_
  rw [fsStep]
  exact congrArg (Option.map Prod.snd) hrun

/-! ## What the calls of the accounts do to the tree -/

theorem writePasswd_runs {file : Option Ptr} {us : List User} : ∀ {first : Bool} {s : Fs},
    writePasswd env file first us s = some s' → Runs env s s' := by
  induction us with
  | nil =>
    intro first s hrun
    rw [writePasswd] at hrun
    cases first with
    | false => exact Option.some.inj hrun ▸ .refl
    | true =>
      simp only [if_true, Option.map_eq_some_iff] at hrun
      obtain ⟨r, hwrite, rfl⟩ := hrun
      exact .write hwrite
  | cons u us ih =>
    intro first s hrun
    rw [writePasswd] at hrun
    cases hwrite : fsWrite env s file (passwdLine u) (!first) with
    | none => simp [hwrite] at hrun
    | some r =>
      obtain ⟨res, s₁⟩ := r
      rw [hwrite] at hrun
      exact (Runs.write hwrite).trans (ih hrun)

theorem syncPasswdFile_runs (hrun : syncPasswdFile env t s = some s') : Runs env s s' := by
  unfold syncPasswdFile at hrun
  split at hrun
  · simp at hrun
  · exact writePasswd_runs hrun
  · split at hrun
    · simp at hrun
    · next s₁ hcreate =>
      exact Option.some.inj hrun ▸ Runs.create (by decide) hcreate
    · next file s₁ hcreate =>
      exact (Runs.create (by decide) hcreate).trans (writePasswd_runs hrun)

theorem makeHome_runs {available : Bool} {home : List UInt8} (h0 : (0 : UInt8) ∉ home)
    (hrun : makeHome env available home s = some s') : Runs env s s' := by
  have hreadme : (0 : UInt8) ∉ (home ++ ofString "/readme.txt").take (fsPathMax - 1) := by
    intro hmem
    rcases List.mem_append.mp (List.mem_of_mem_take hmem) with hmem | hmem
    · exact h0 hmem
    · exact absurd hmem (by decide)
  unfold makeHome at hrun
  split at hrun
  · simp at hrun
  · exact Option.some.inj hrun ▸ .refl
  · split at hrun
    · simp at hrun
    next hdir =>
      split at hrun
      · simp at hrun
      next hfile =>
        simp only [Option.map_eq_some_iff] at hrun
        obtain ⟨r, hwrite, rfl⟩ := hrun
        exact ((Runs.create h0 hdir).trans (Runs.create hreadme hfile)).trans (.write hwrite)

/-- The home directory of a new account. -/
theorem home_text {name : List UInt8} (hvalid : validName name = true) (admin : Bool) :
    (0 : UInt8) ∉ (if admin then ofString "/root"
      else (ofString "/home/" ++ name).take (userHomeMax - 1)) := by
  cases admin with
  | true =>
    rw [if_pos rfl]
    decide
  | false =>
    rw [if_neg (by simp)]
    intro hmem
    rcases List.mem_append.mp (List.mem_of_mem_take hmem) with hmem | hmem
    · exact absurd hmem (by decide)
    · exact zero_notMem_of_validName hvalid hmem

/-- **A call of the accounts is a run of calls of the tree.** -/
theorem accountStep_runs {op : AccountOp} {res : Int}
    (hrun : accountStep env t s op = some (res, t', s')) : Runs env s s' := by
  have hsame : ∀ {r : Int} {t₁ : Table}, some (r, t₁, s) = some (res, t', s') →
      Runs env s s' := by
    intro r t₁ heq
    simp only [Option.some.injEq, Prod.mk.injEq] at heq
    exact heq.2.2 ▸ .refl
  cases op with
  | add available name password admin =>
    rcases usersAdd_spec hrun with ⟨-, -, rfl⟩ |
      ⟨-, -, slot, u, s₁, hacc, -, -, hhome, -, hmake, hsync, -⟩
    · exact .refl
    · rw [hhome] at hmake
      exact (makeHome_runs (home_text hacc.valid admin) hmake).trans (syncPasswdFile_runs hsync)
  | importUser name home uid gid pwHash =>
    rcases usersImport_spec hrun with ⟨-, -, rfl⟩ | ⟨-, hsync, -⟩
    · exact .refl
    · exact syncPasswdFile_runs hsync
  | delete name =>
    rcases usersDelete_spec hrun with ⟨-, -, rfl⟩ | ⟨-, hsync, -⟩
    · exact .refl
    · exact syncPasswdFile_runs hsync
  | setPassword name password =>
    rw [accountStep] at hrun
    exact hsame hrun
  | switch name password =>
    rw [accountStep] at hrun
    rcases usersSwitch_spec hrun with ⟨-, -, rfl⟩ | ⟨-, i, -, -, -, dir, hset⟩
    · exact .refl
    · have hop : FsText (.setCwd dir) := trivial
      exact .step .refl hop hset
  | logout => exact hsame hrun

/-! ## What holds in every state -/

/-- What a home directory can be. -/
structure HomeOk (u : User) : Prop where
  length : u.home.length < userHomeMax
  text : (0 : UInt8) ∉ u.home

/-- The names of a tree after a call are old ones and, after `fs_create`, a component of the
path. -/
theorem zeroFree_step {op : FsOp} (hrooted : Rooted s) (h0 : ZeroFree s) (hop : FsText op)
    (hs : fsStep env s op = some s') : ZeroFree s' := by
  obtain ⟨⟨root, kids, hinv⟩, c, hc⟩ := hrooted
  intro p n' hn'
  cases op with
  | create path type =>
    simp only [fsStep, Option.map_eq_some_iff] at hs
    obtain ⟨⟨r, s₁⟩, hcreate, rfl⟩ := hs
    cases r with
    | none =>
      obtain ⟨t, -, rfl⟩ := fsCreate_none hcreate
      exact h0 hn'
    | some q =>
      obtain ⟨d, comp, kids', hleads, hin⟩ := create_leadsTo hinv hc hcreate
      obtain ⟨x, init, -, hnames, -⟩ := hleads.walk
      by_cases hp : p = q
      · subst hp
        rw [hin.added.new] at hn'
        obtain rfl := Option.some.inj hn'
        have hmem : comp ∈ pathNames path := by
          rw [hnames]
          simp
        intro hzero
        exact hop (List.mem_of_mem_take (components_subset hmem hzero))
      · obtain ⟨n, hn, hbody⟩ := hin.added.back hp hn'
        rw [hbody.name]
        exact h0 hn
  | remove path =>
    simp only [fsStep, Option.map_eq_some_iff] at hs
    obtain ⟨⟨res, s₁⟩, hrun, rfl⟩ := hs
    cases hr : fsResolve s path with
    | none => simp [fsRemove, hr] at hrun
    | some r =>
      obtain ⟨res', s₂, hrun', hcase⟩ := hinv.fsRemove hr
      rw [hrun] at hrun'
      obtain ⟨rfl, rfl⟩ := Prod.mk.inj (Option.some.inj hrun')
      rcases hcase with ⟨-, rfl, -⟩ | ⟨-, node, below, kids', -, -, -, -, hremoved⟩
      · exact h0 hn'
      · obtain ⟨-, n, hn, hbody⟩ := hremoved.back hn'
        rw [hbody.name]
        exact h0 hn
  | write file src add append =>
    simp only [fsStep, Option.map_eq_some_iff] at hs
    obtain ⟨⟨res, s₁⟩, hrun, rfl⟩ := hs
    rcases hinv.write_cases env hrun with ⟨-, t, rfl⟩ | ⟨f, n, hf, hn, -, -, -, hw⟩
    · exact h0 hn'
    · by_cases hp : p = f
      · subst hp
        obtain ⟨m, hm, hname, -⟩ := hw.node
        rw [hn'] at hm
        obtain rfl := Option.some.inj hm
        rw [hname]
        exact h0 hn
      · rw [hw.other hp] at hn'
        exact h0 hn'
  | setCwd dir =>
    rw [fsStep, fsSetCwd.eq_def] at hs
    repeat' split at hs
    all_goals first
      | (obtain rfl := Option.some.inj hs; exact h0 hn')
      | simp at hs
  | reset =>
    obtain ⟨s₁, hrun, -, hremoved, -⟩ := hinv.fsReset env
    rw [fsStep, hrun] at hs
    obtain rfl := Option.some.inj hs
    obtain ⟨-, n, hn, hbody⟩ := hremoved.back hn'
    rw [hbody.name]
    exact h0 hn

theorem createAll_runs {type : FsType} {paths : List (List UInt8)}
    (h0 : ∀ path ∈ paths, (0 : UInt8) ∉ path) : ∀ {s : Fs},
    createAll env type paths s = some s' → Runs env s s' := by
  induction paths with
  | nil =>
    intro s hrun
    exact Option.some.inj hrun ▸ .refl
  | cons path paths ih =>
    intro s hrun
    rw [createAll] at hrun
    cases hcreate : fsCreate env s path type with
    | none => simp [hcreate] at hrun
    | some r =>
      obtain ⟨p, s₁⟩ := r
      rw [hcreate] at hrun
      exact (Runs.create (h0 path List.mem_cons_self) hcreate).trans
        (ih (fun q hq => h0 q (List.mem_cons_of_mem _ hq)) hrun)

theorem createFile_runs {path txt : List UInt8} (h0 : (0 : UInt8) ∉ path)
    (hrun : createFile env s path txt = some s') : Runs env s s' := by
  rw [createFile] at hrun
  cases hcreate : fsCreate env s path .file with
  | none => simp [hcreate] at hrun
  | some r =>
    obtain ⟨file, s₁⟩ := r
    simp only [hcreate, Option.map_eq_some_iff] at hrun
    obtain ⟨r, hwrite, rfl⟩ := hrun
    exact (Runs.create h0 hcreate).trans (.write hwrite)

/-- `fs_init` makes the root, and the rest are calls. Without the root nothing is made. -/
theorem fsInit_runs (h : fsInit env .zero = some s) :
    ∃ r s₁, nodeNew env .zero (ofString "/") .dir none = some (r, s₁) ∧
      (r = none → Bare s) ∧ Runs env { s₁ with rootNode := r, currentDir := r } s := by
  unfold fsInit at h
  rcases hnew : nodeNew env .zero (ofString "/") .dir none with - | ⟨r, s₁⟩
  · simp [hnew] at h
  refine ⟨r, s₁, rfl, ?_⟩
  have hbare : r = none → Bare { s₁ with rootNode := r, currentDir := r } := by
    rintro rfl
    rcases Bare.zero.newRoot env hnew with ⟨-, hbare⟩ | ⟨p, hp, -⟩
    · exact hbare
    · simp at hp
  simp only [hnew] at h
  split at h
  · simp at h
  rename_i s₂ hdirs
  split at h
  · simp at h
  rename_i s₃ hmotd
  split at h
  · simp at h
  rename_i s₄ hhostname
  split at h
  · simp at h
  rename_i s₅ hversion
  simp only [Option.map_eq_some_iff] at h
  obtain ⟨⟨q, s₆⟩, hpasswd, rfl⟩ := h
  constructor
  · intro hr
    have hbare₅ := ((((hbare hr).createAll env hdirs).createFile env hmotd).createFile env
      hhostname).createFile env hversion
    exact (hbare₅.fsCreate env hpasswd).2
  have hfiles := ((createAll_runs (by decide) hdirs).trans (createFile_runs (by decide) hmotd)).trans
    (createFile_runs (by decide) hhostname)
  exact (hfiles.trans (createFile_runs (by decide) hversion)).trans (.create (by decide) hpasswd)

theorem newRoot_zeroFree {r : Option Ptr} {s₁ : Fs}
    (h : nodeNew env .zero (ofString "/") .dir none = some (r, s₁)) : ZeroFree s₁ := by
  intro p n hn
  cases nodeNew_cases env h with
  | denied => simp [Fs.zero] at hn
  | @root q =>
    by_cases hp : p = q
    · subst hp
      simp only [Fs.setNode, Store.get_set_same, Option.some.injEq] at hn
      rw [← hn]
      decide
    · simp only [Fs.setNode, Store.get_set_other hp] at hn
      simp [Fs.zero] at hn

theorem Runs.keeps (h : Runs env s s') (hs : Rooted s ∧ ZeroFree s) : Rooted s' ∧ ZeroFree s' := by
  induction h with
  | refl => exact hs
  | step _ hop hstep ih => exact ⟨ih.1.fsStep hstep, zeroFree_step ih.1 ih.2 hop hstep⟩

theorem homeOk_step {op : AccountOp} {res : Int} (h : ∀ i, HomeOk (t.users i)) (hop : AccountText op)
    (hrun : accountStep env t s op = some (res, t', s')) : ∀ i, HomeOk (t'.users i) := by
  have hmax : userHomeMax = 64 := rfl
  have hset : ∀ {i : UserSlot} {u : User}, HomeOk u → ∀ j, HomeOk ((t.setUser i u).users j) := by
    intro i u hu j
    by_cases hj : j = i
    · subst hj
      rw [setUser_same]
      exact hu
    · rw [setUser_other u hj]
      exact h j
  cases op with
  | add available name password admin =>
    rcases usersAdd_spec hrun with ⟨-, rfl, -⟩ |
      ⟨-, -, slot, u, -, hacc, -, -, hhome, -, -, -, rfl⟩
    · exact h
    · refine hset ⟨?_, hhome ▸ home_text hacc.valid admin⟩
      rw [hhome]
      cases admin with
      | true =>
        rw [if_pos rfl]
        decide
      | false =>
        rw [if_neg (by simp), List.length_take]
        omega
  | importUser name home uid gid pwHash =>
    rcases usersImport_spec hrun with ⟨-, rfl, -⟩ | ⟨-, -, slot, -, rfl⟩
    · exact h
    · refine hset ⟨?_, fun hmem => hop (List.mem_of_mem_take hmem)⟩
      rw [List.length_take]
      omega
  | delete name =>
    rcases usersDelete_spec hrun with ⟨-, rfl, -⟩ | ⟨-, -, i, -, -, -, rfl⟩
    · exact h
    · exact hset ⟨(h i).length, (h i).text⟩
  | setPassword name password =>
    simp only [accountStep, Option.some.injEq, Prod.mk.injEq] at hrun
    obtain ⟨-, rfl, -⟩ := hrun
    rcases usersSetPassword_spec t name password with ⟨-, heq⟩ | ⟨-, i, -, heq⟩
    · rw [heq]
      exact h
    · rw [heq]
      exact hset ⟨(h i).length, (h i).text⟩
  | switch name password =>
    rcases usersSwitch_spec hrun with ⟨-, rfl, -⟩ | ⟨-, i, -, -, rfl, -⟩
    · exact h
    · exact h
  | logout =>
    simp only [accountStep, Option.some.injEq, Prod.mk.injEq] at hrun
    obtain ⟨-, rfl, -⟩ := hrun
    exact h

/-- What every state has that calls lead to. -/
structure Sane (t : Table) (s : Fs) : Prop where
  rooted : Rooted s
  zeroFree : ZeroFree s
  table : TableInv t
  homes : ∀ i, HomeOk (t.users i)

theorem Reached.sane (h : Reached env t s) : Sane t s := by
  induction h with
  | @boot s hinit hroot =>
    obtain ⟨r, s₁, hnew, hbare, hruns⟩ := fsInit_runs hinit
    have h0 : ZeroFree { s₁ with rootNode := r, currentDir := r } := newRoot_zeroFree hnew
    have hempty : HomeOk {} := ⟨by decide, by decide⟩
    refine ⟨fsInit_rooted hinit hroot, ?_, TableInv.init, fun _ => hempty⟩
    rcases Bare.zero.newRoot env hnew with ⟨rfl, -⟩ | ⟨p, rfl, htree⟩
    · exact absurd (hbare rfl).root hroot
    · exact (hruns.keeps ⟨⟨⟨p, Forest.nil, htree⟩, p, rfl⟩, h0⟩).2
  | files _ hop hstep ih =>
    obtain ⟨hrooted, h0⟩ := (Runs.step .refl hop hstep).keeps ⟨ih.rooted, ih.zeroFree⟩
    exact ⟨hrooted, h0, ih.table, ih.homes⟩
  | accounts _ hop hstep ih =>
    obtain ⟨hrooted, h0⟩ := (accountStep_runs hstep).keeps ⟨ih.rooted, ih.zeroFree⟩
    refine ⟨hrooted, h0, ?_, homeOk_step ih.homes hop hstep⟩
    rcases accountStep_cases hstep with ⟨-, rfl⟩ | ⟨-, hchanged⟩
    · exact ih.table
    · exact ih.table.changed hchanged

theorem Reached.run {ops : List FsOp} (hops : ∀ op ∈ ops, FsText op) : ∀ {s : Fs}, Reached env t s →
    fsRun env s ops = some s' → Reached env t s' := by
  induction ops with
  | nil =>
    intro s h hrun
    exact Option.some.inj hrun ▸ h
  | cons op ops ih =>
    intro s h hrun
    rw [fsRun] at hrun
    cases hstep : fsStep env s op with
    | none => simp [hstep] at hrun
    | some s₁ =>
      rw [hstep] at hrun
      exact ih (fun x hx => hops x (List.mem_cons_of_mem _ hx))
        (.files h (hops op List.mem_cons_self) hstep) hrun

/-- A snapshot can carry the accounts of such a state. -/
theorem Sane.validAccounts (h : Sane t s) : ValidAccounts (accounts t) := by
  have hactive : ∀ {i}, i ∈ activeSlots t → (t.users i).active = true := by
    intro i hi
    simpa [activeSlots] using hi
  have hof : ∀ {u}, u ∈ accounts t → ∃ i, (t.users i).active = true ∧ t.users i = u := by
    intro u hu
    obtain ⟨i, hi, heq⟩ := List.mem_map.mp hu
    exact ⟨i, hactive hi, heq⟩
  refine ⟨?_, ?_, ?_, ?_, ?_, ?_⟩
  · rw [accounts, List.length_map]
    exact Persist.usersCount_le t
  · rw [accounts, List.map_map]
    refine List.Nodup.map_on ?_ ((List.nodup_finRange userMax).filter _)
    intro i hi j hj heq
    exact h.table.distinct (hactive hi) (hactive hj) heq
  · intro u hu
    obtain ⟨i, hi, rfl⟩ := hof hu
    exact h.table.valid hi
  · intro u hu
    obtain ⟨i, -, rfl⟩ := hof hu
    exact (h.homes i).length
  · intro u hu
    obtain ⟨i, -, rfl⟩ := hof hu
    exact (h.homes i).text
  · intro u hu
    obtain ⟨i, hi, rfl⟩ := hof hu
    exact hi

end LightningOS.Users
