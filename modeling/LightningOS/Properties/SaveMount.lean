import LightningOS.Properties.Replayed
import LightningOS.Properties.States

/-!
# What is saved is what the next boot has

The two directions together: from any state that calls lead to, a save writes the list of
the tree, and the next boot replays it. Where the list says less than the tree, the next
boot has less than the tree.
-/

namespace LightningOS.Persist

open ByteMemory CString Ramfs Users Ata Forest

variable {env env' : Env} {ready ready' : Nat → Bool}

/-! ## The next boot -/

/-- A boot with the disks as they were left. There is memory, and the drives answer. -/
structure NextBoot (env : Env) (ready : Nat → Bool) (sys next : System) : Prop where
  memory : env.Grants (maxPayload + 65)
  ready : ∀ t, ready t = true
  medium : next.bootedFromMedium = false
  media : next.ata.media = sys.ata.media
  size : next.ata.size = sys.ata.size
  fs : fsInit env .zero = some next.fs
  table : next.table = usersInit

/-- The machine is switched off and on. -/
def System.again (sys : System) : System :=
  { fs := skeleton, table := usersInit, persist := {}, ata := sys.ata, bootedFromMedium := false }

theorem System.again_next (sys : System) : NextBoot .ample (fun _ => true) sys sys.again := by
  have hmemory : Env.ample.Grants (maxPayload + 65) := Env.ample_grants (by decide)
  have hfs : fsInit .ample .zero = some sys.again.fs := by
    unfold System.again
    dsimp only
    rw [fsInit_skeleton]
  exact ⟨hmemory, fun _ => rfl, rfl, rfl, rfl, hfs, rfl⟩

/-- The boot restores these accounts and files. -/
def Restored (env : Env) (ready : Nat → Bool) (next : System) (us : List User) (f : Files) :
    Prop :=
  ∃ m root kids, persistMount env ready next = some (.loaded, m) ∧ TreeInv m.fs root kids ∧
    files m.fs kids = f ∧ accounts m.table = us

theorem fsInit_granted {s : Fs} (hg : env.Grants sizeofFsNode) (h : fsInit env .zero = some s) :
    ∃ root kids, TreeInv s root kids := by
  obtain ⟨r, s₁, hnew, -, hruns⟩ := fsInit_runs h
  rcases Bare.zero.newRoot env hnew with ⟨rfl, -⟩ | ⟨p, rfl, htree⟩
  · exact absurd (nodeNew_alloc hnew).symm (hg _ _ _ (Nat.le_refl _))
  · exact (hruns.keeps ⟨⟨⟨p, Forest.nil, htree⟩, p, rfl⟩, newRoot_zeroFree hnew⟩).1.1

theorem NextBoot.tree {sys next : System} (h : NextBoot env ready sys next) :
    ∃ root kids, TreeInv next.fs root kids :=
  fsInit_granted (fun t s n hn => h.memory t s n (Nat.le_trans hn (by decide))) h.fs

/-- What a forest says depends on the nodes and the buffers. -/
theorem files_congr {s s' : Fs} (hn : s'.nodes = s.nodes) (hb : s'.bufs = s.bufs) (f : Forest Ptr) :
    files s' f = files s f := by
  induction f with
  | nil => rfl
  | cons a ch rest ihc ihr =>
    rw [files, files, hn, ihc, ihr]
    simp only [contents, hb]

/-! ## What the next boot finds -/

/-- What a save leaves, in terms of the tree. -/
theorem save_leaves {sys sys' : System} {root : Ptr} {kids : Forest Ptr} (hp : AtPlace sys.persist)
    (hstate : sys.persist.state ≠ .noDisk) (hsave : persistSave env ready sys = some (0, sys'))
    (hinv : TreeInv sys.fs root kids) :
    ∃ s : Fs, s.nodes = sys.fs.nodes ∧ s.bufs = sys.fs.bufs ∧ TreeInv s root kids ∧
      ∃ payload, payload = records (accounts sys.table) (listing s kids) ∧
        payload.length ≤ maxPayload ∧ SameSession sys sys' ∧
        writeSnapshot ready (sys.buffered env) payload (accounts sys.table).length
          (listing s kids).length = (0, sys') ∧
        Holds sys'.ata.media sys.persist (newSuper sys.persist payload (accounts sys.table).length
          (listing s kids).length) payload := by
  obtain ⟨w, users, nodes, hencode, hfits, hlen, hsame, hmedia, hw⟩ :=
    persistSave_saved hp hstate hsave
  have hinv' : TreeInv (sys.buffered env).fs root kids := hinv.congr rfl rfl rfl rfl
  obtain ⟨husers, hnodes⟩ := encodeAll_counts hencode hfits
  obtain ⟨hbuffer, rfl, rfl⟩ := encodeAll_listing hinv' hencode hfits
  have hholds := snapshotWritten_holds (sys.buffered env) hlen husers hnodes
  rw [← hmedia] at hholds
  rw [hbuffer] at hw hlen hholds
  exact ⟨(sys.buffered env).fs, rfl, rfl, hinv', _, rfl, hlen, hsame, hw, hholds⟩

theorem Holds.congr {media : Drive → Nat → Sector} {p p' : Vars} {super : Super}
    {payload : List UInt8} (h : Holds media p super payload) (hdrive : p'.dataDrive = p.dataDrive)
    (hbase : p'.dataBase = p.dataBase) : Holds media p' super payload where
  isSuper := by
    rw [hdrive, hbase]
    exact h.isSuper
  isPayload := by
    unfold payloadSectors
    rw [hdrive, hbase]
    exact h.isPayload

/-- The disk after a save: a superblock, and the records of the accounts and of some entries. -/
structure SavedAs (sys sys' : System) (es : List Entry) (super : Super) : Prop where
  place : AtPlace sys'.persist
  covers : Covers super (accounts sys.table) es
  holds : Holds sys'.ata.media sys'.persist super (records (accounts sys.table) es)
  room : sys'.persist.dataBase + 1 + sectorsFor super.payloadBytes ≤
    (sys'.ata.size sys'.persist.dataDrive).toNat
  length : (records (accounts sys.table) es).length ≤ maxPayload
  users : ValidAccounts (accounts sys.table)
  entries : ∀ e ∈ es, e.Ok

theorem saved_as {boot sys sys' : System} {root : Ptr} {kids : Forest Ptr}
    (hsession : Session env ready boot sys) (hsane : Sane sys.table sys.fs)
    (hstate : sys.persist.state ≠ .noDisk) (hsave : persistSave env ready sys = some (0, sys'))
    (hinv : TreeInv sys.fs root kids) :
    ∃ s : Fs, s.nodes = sys.fs.nodes ∧ s.bufs = sys.fs.bufs ∧ TreeInv s root kids ∧ ZeroFree s ∧
      ∃ super, SavedAs sys sys' (listing s kids) super := by
  have hp := (Session.place ready hsession).2.resolve_left hstate
  obtain ⟨s, hnodes, hbufs, hinv', payload, rfl, hlen, hsame, hw, hholds⟩ :=
    save_leaves hp hstate hsave hinv
  have hzero : ZeroFree s := by
    intro p n hn
    rw [hnodes] at hn
    exact hsane.zeroFree hn
  obtain ⟨hkids, hroot⟩ := hinv'.kids_ids
  refine ⟨s, hnodes, hbufs, hinv', hzero, _, hsame.atPlace hp, ⟨rfl, rfl, rfl, rfl, rfl, rfl⟩,
    hholds.congr hsame.drive hsame.base, ?_, hlen, hsane.validAccounts,
    fun e he => (listing_shown hinv' hzero kids hkids hroot e he).ok⟩
  have hfits := hsession.room hstate hlen hw
  have hcount : sectorsFor (records (accounts sys.table) (listing s kids)).length ≤
      payloadCount (records (accounts sys.table) (listing s kids)).length := by
    unfold payloadCount
    split <;> omega
  rw [hsame.drive, hsame.base, hsame.drives.size]
  show _ + sectorsFor (records (accounts sys.table) (listing s kids)).length ≤ _
  omega

/-- A boot that looks there imports the accounts and replays the entries. Only a save of nothing
at all is refused. -/
theorem SavedAs.mount {sys sys' next : System} {es : List Entry} {super : Super}
    (h : SavedAs sys sys' es super) (hnext : NextBoot env' ready' sys' next)
    (hsel : Selects ready' next sys'.persist) :
    (accounts sys.table = [] ∧ es = [] → ∃ m, persistMount env' ready' next = some (.error, m)) ∧
      (accounts sys.table ≠ [] ∨ es ≠ [] →
        ∃ root' s₁, TreeInv s₁ root' Forest.nil ∧ s₁.currentDir = some root' ∧
          ∀ s', replay env' es s₁ = some s' →
            ∃ m, persistMount env' ready' next = some (.loaded, m) ∧ m.fs = s' ∧
              accounts m.table = accounts sys.table) := by
  have hholds := h.holds
  rw [← hnext.media] at hholds
  constructor
  · rintro ⟨hus, hes⟩
    rcases mount_selected env' hnext.medium h.place hsel hholds.isSuper h.covers.magic with
      ⟨m, hm, -⟩ | ⟨p'', a', -, -, -, hm⟩
    · exact ⟨m, hm⟩
    · have hempty : super.payloadBytes = 0 := by
        rw [h.covers.payloadBytes, hus, hes]
        rfl
      rw [hm]
      exact ⟨_, if_pos (Or.inr (Or.inl hempty))⟩
  intro hne
  obtain ⟨root', kids', htree⟩ := hnext.tree
  obtain ⟨s₁, hinv₁, hcwd, hmount⟩ := mount_records hnext.memory hnext.ready hnext.medium htree
    (by rw [hnext.table]; exact fun _ => rfl) hsel hholds h.covers
    (by rw [hnext.size]; exact h.room) (records_pos hne) h.length h.users h.entries
  refine ⟨root', s₁, hinv₁, hcwd, fun s' hreplay => ?_⟩
  obtain ⟨m, hloaded, hfs, haccounts, -⟩ := hmount s' hreplay
  exact ⟨m, hloaded, hfs, haccounts⟩

/-- If the tree is carried, it comes back. -/
theorem SavedAs.comes_back {sys sys' next : System} {s : Fs} {root : Ptr} {kids : Forest Ptr}
    {super : Super} (h : SavedAs sys sys' (listing s kids) super) (hinv : TreeInv s root kids)
    (hzero : ZeroFree s) (hne : accounts sys.table ≠ [] ∨ files s kids ≠ .nil)
    (hcarried : (files s kids).Carried []) (hnext : NextBoot env' ready' sys' next)
    (hsel : Selects ready' next sys'.persist) :
    Restored env' ready' next (accounts sys.table) (files s kids) := by
  obtain ⟨hkids, hroot⟩ := hinv.kids_ids
  -- the list that was written is the list of the tree
  have hlist : listing s kids = (files s kids).entries [] :=
    hinv.listing_eq kids hinv.rep.2.2.1 hkids (.root hinv.isRoot) hcarried
  have hrestorable : (files s kids).Restorable [] := hinv.restorable hzero kids hkids hroot hcarried
  rw [hlist] at h
  obtain ⟨root', s₁, hinv₁, -, hmount⟩ :=
    (h.mount hnext hsel).2 (hne.imp_right fun hf => entries_ne_nil hf [])
  obtain ⟨s', kids', hreplay, hinv'', hsays⟩ := replay_tree hnext.memory hinv₁ hrestorable
    (fun e he => Nat.le_trans (data_le_records he) h.length)
  obtain ⟨m, hloaded, rfl, haccounts⟩ := hmount s' hreplay
  exact ⟨m, root', kids', hloaded, hinv'', hsays, haccounts⟩

theorem selects_next (hready : ∀ t, ready t = true) {boot sys sys' next : System}
    (hsession : Session env ready boot sys) (hstate : sys.persist.state ≠ .noDisk)
    (hsave : persistSave env ready sys = some (0, sys')) (hnext : NextBoot env' ready' sys' next) :
    Selects ready' next sys'.persist :=
  selects_saved hready hnext.ready hsession hstate hsave hnext.size (by rw [hnext.media])
    (by rw [hnext.media])

/-- **A tree that is carried comes back.** -/
theorem saved_restored (hready : ∀ t, ready t = true) {boot sys sys' next : System} {root : Ptr}
    {kids : Forest Ptr} (hsession : Session env ready boot sys) (hsane : Sane sys.table sys.fs)
    (hstate : sys.persist.state ≠ .noDisk) (hsave : persistSave env ready sys = some (0, sys'))
    (hinv : TreeInv sys.fs root kids) (hne : accounts sys.table ≠ [] ∨ files sys.fs kids ≠ .nil)
    (hcarried : (files sys.fs kids).Carried []) (hnext : NextBoot env' ready' sys' next) :
    Restored env' ready' next (accounts sys.table) (files sys.fs kids) := by
  obtain ⟨s, hnodes, hbufs, hinv', hzero, super, hsaved⟩ :=
    saved_as hsession hsane hstate hsave hinv
  have hsel := selects_next hready hsession hstate hsave hnext
  rw [← files_congr hnodes hbufs kids] at hcarried hne ⊢
  exact hsaved.comes_back hinv' hzero hne hcarried hnext hsel

/-- **A boot that restores a tree restores one that is carried.** -/
theorem restored_carried (hready : ∀ t, ready t = true) {boot sys sys' next : System} {root : Ptr}
    {kids : Forest Ptr} (hsession : Session env ready boot sys) (hsane : Sane sys.table sys.fs)
    (hstate : sys.persist.state ≠ .noDisk) (hsave : persistSave env ready sys = some (0, sys'))
    (hinv : TreeInv sys.fs root kids) (hjunk : ∀ t, text (env'.junk t) = [])
    (hnext : NextBoot env' ready' sys' next)
    (hrestored : Restored env' ready' next (accounts sys.table) (files sys.fs kids)) :
    (accounts sys.table ≠ [] ∨ files sys.fs kids ≠ .nil) ∧ (files sys.fs kids).Carried [] := by
  obtain ⟨s, hnodes, hbufs, hinv', hzero, super, hsaved⟩ :=
    saved_as hsession hsane hstate hsave hinv
  have hboots := hsaved.mount hnext (selects_next hready hsession hstate hsave hnext)
  have hfiles := files_congr hnodes hbufs kids
  obtain ⟨hkids, hroot⟩ := hinv'.kids_ids
  obtain ⟨m, rootm, kidsm, hloaded, hinvm, hsays, haccounts⟩ := hrestored
  have hlist : files s kids = .nil → listing s kids = [] := by
    intro hnil
    have hcarried : (files s kids).Carried [] := by
      rw [hnil]
      trivial
    rw [hinv'.listing_eq kids hinv'.rep.2.2.1 hkids (.root hinv'.isRoot) hcarried, hnil]
    rfl
  have hne : accounts sys.table ≠ [] ∨ files sys.fs kids ≠ .nil := by
    by_contra hnone
    rw [not_or, not_not, not_not] at hnone
    obtain ⟨m', herror⟩ := hboots.1 ⟨hnone.1, hlist (hfiles.trans hnone.2)⟩
    rw [hloaded] at herror
    simp at herror
  refine ⟨hne, ?_⟩
  have hne' : accounts sys.table ≠ [] ∨ listing s kids ≠ [] := by
    refine hne.imp_right fun hf hnil => hf ?_
    rw [← hfiles]
    exact files_nil_of_listing hinv' hkids hroot hnil
  obtain ⟨root', s₁, hinv₁, hcwd, hmount⟩ := hboots.2 hne'
  obtain ⟨s', kids', hreplay, hinv'', htidy⟩ := replay_tidy hjunk hinv₁ (tidy_nil hinv₁) hcwd
    (fun e he => ⟨listing_shown hinv' hzero kids hkids hroot e he,
      Nat.le_trans (data_le_records he) hsaved.length⟩)
  obtain ⟨m', hloaded', rfl, -⟩ := hmount s' hreplay
  rw [hloaded, Option.some.injEq, Prod.mk.injEq] at hloaded'
  obtain ⟨-, rfl⟩ := hloaded'
  obtain ⟨hkidsm, -⟩ := hinvm.kids_ids
  have hnodup := hinvm.nodup
  simp only [ids, List.append_nil, List.nodup_cons] at hnodup
  rw [← hsays]
  exact tidy_carried hinvm htidy kidsm hinvm.rep.2.2.1 hkidsm hnodup.2 (.root hinvm.isRoot)

/-! ## Without a disk -/

/-- A mount that finds a place does not say that there is no disk. -/
theorem chosen_inUse {boot m : System} {p : Vars} {a : Channel} {st : PersistState}
    (hm : boot.bootedFromMedium = false)
    (hchoose : chooseLocation ready { boot.persist with isSealed := false }
      (ataInit ready boot.ata) = (true, p, a))
    (h : persistMount env ready boot = some (st, m)) : st ≠ .noDisk := by
  rintro rfl
  have hp : AtPlace p := by
    obtain ⟨ok, p', a', hchoose', -, -, hplace, -⟩ :=
      chooseLocation_spec ready { boot.persist with isSealed := false } (ataInit ready boot.ata)
    rw [hchoose, Prod.mk.injEq, Prod.mk.injEq] at hchoose'
    obtain ⟨rfl, rfl, rfl⟩ := hchoose'
    exact hplace rfl
  unfold persistMount at h
  simp only [hm, Bool.false_eq_true, if_false, hchoose] at h
  split at h
  · simp at h
  · split at h
    · simp at h
    · rcases mountSnapshot_cases ready hp h with
        ⟨hst, -⟩ | ⟨-, a', r, sys₂, -, -, -, ⟨-, hst, -⟩ | ⟨-, hst, -⟩⟩
      · simp at hst
      · simp at hst
      · simp at hst

/-- A session without a disk has done nothing to the drives since its boot. -/
theorem Session.unused {boot sys : System} (h : Session env ready boot sys)
    (hstate : sys.persist.state = .noDisk) :
    ∃ m, persistMount env ready boot = some (.noDisk, m) ∧ sys.ata = m.ata := by
  induction h with
  | @mount st sys h =>
    have hst := (persistMount_mounted ready h).state
    rw [hstate] at hst
    exact ⟨sys, hst ▸ h, rfl⟩
  | @step s₁ s₂ op _ hstep ih =>
    by_cases hd : s₁.persist.state = .noDisk
    · obtain ⟨m, hmount, hata⟩ := ih hd
      exact ⟨m, hmount, (step_noDisk ready hd hstep).2.trans hata⟩
    · exact absurd hstate (step_inUse ready hd hstep)

/-- When drives that answer have a place for snapshots. -/
theorem chooseLocation_found {a : Channel} (p : Vars) (h : Healthy ready a) :
    ∃ ok p' a', chooseLocation ready p a = (ok, p', a') ∧
      (ok = true ↔ SnapshotAt a .slave 0 ∨ SnapshotAt a .master installDataLba ∨
        a.size .slave ≠ 0 ∨ installDataLba + 64 < (a.size .master).toNat) := by
  obtain ⟨ok, p', a', hchoose, -, -, -, hwhere⟩ := chooseLocation_spec ready p a
  obtain ⟨h1, h2, h3, h4⟩ := hwhere h
  refine ⟨ok, p', a', hchoose, ?_⟩
  by_cases hslave : SnapshotAt a .slave 0
  · exact iff_of_true (h1 hslave).1 (Or.inl hslave)
  by_cases hmaster : SnapshotAt a .master installDataLba
  · exact iff_of_true (h2 hslave hmaster).1 (Or.inr (Or.inl hmaster))
  by_cases hsize : a.size .slave = 0
  · rw [(h4 hslave hmaster hsize).1]
    simp [hslave, hmaster, hsize]
  · exact iff_of_true (h3 hslave hmaster hsize).1 (Or.inr (Or.inr (Or.inl hsize)))

/-- Where one boot found no disk, the next one finds none. -/
theorem unused_again (hready : ∀ t, ready t = true) {boot sys next : System}
    (hm : boot.bootedFromMedium = false) (h : Session env ready boot sys)
    (hstate : sys.persist.state = .noDisk) (hnext : NextBoot env' ready' sys next) :
    ∃ m, persistMount env' ready' next = some (.noDisk, m) := by
  obtain ⟨m, hmount, hata⟩ := h.unused hstate
  have hdisks := (persistMount_mounted ready hmount).disks
  obtain ⟨hmedia, hsize, -, -⟩ := ataInit_spec ready boot.ata
  obtain ⟨hmedia', hsize', -, -⟩ := ataInit_spec ready' next.ata
  have hmediaEq : (ataInit ready' next.ata).media = (ataInit ready boot.ata).media := by
    rw [hmedia', hnext.media, hata, hdisks.media]
  have hsizeEq : (ataInit ready' next.ata).size = (ataInit ready boot.ata).size := by
    rw [hsize', hnext.size, hata, hdisks.size]
  obtain ⟨ok, p, a, hchoose, hok⟩ := chooseLocation_found
    { boot.persist with isSealed := false } (ataInit_healthy hready boot.ata)
  obtain ⟨ok', p', a', hchoose', hok'⟩ := chooseLocation_found
    { next.persist with isSealed := false } (ataInit_healthy hnext.ready next.ata)
  -- the places are the same, so there is none
  unfold SnapshotAt at hok hok'
  rw [hmediaEq, hsizeEq, ← hok] at hok'
  have hnone : ok = false := by
    cases ok with
    | false => rfl
    | true => exact absurd rfl (chosen_inUse hm hchoose hmount)
  have hnone' : ok' = false := by
    cases ok' with
    | false => rfl
    | true => exact absurd (hok'.mp rfl) (by simp [hnone])
  rw [hnone'] at hchoose'
  unfold persistMount
  simp only [hnext.medium, Bool.false_eq_true, if_false, hchoose']
  exact ⟨_, rfl⟩

/-! ## When the round trip is one -/

/-- What a snapshot carries, all of it. -/
structure Kept (sys : System) (f : Files) : Prop where
  inUse : sys.persist.state ≠ .noDisk
  some : accounts sys.table ≠ [] ∨ f ≠ .nil
  carried : f.Carried []

/-- **A save that says it succeeded is the state of the next boot exactly if the state can be
carried**: a disk is in use, there is something to save, every path is short, siblings have
different names, and nothing is in a directory called `.` or `..`. -/
theorem save_mount_iff (hready : ∀ t, ready t = true) {boot sys sys' : System} {root : Ptr}
    {kids : Forest Ptr} (hm : boot.bootedFromMedium = false) (hsession : Session env ready boot sys)
    (hreached : Reached env sys.table sys.fs) (hsave : persistSave env ready sys = some (0, sys'))
    (hinv : TreeInv sys.fs root kids) :
    (∀ env' ready' next, NextBoot env' ready' sys' next →
        Restored env' ready' next (accounts sys.table) (files sys.fs kids)) ↔
      Kept sys (files sys.fs kids) := by
  have hsane := hreached.sane
  have hnext := sys'.again_next
  constructor
  · intro hall
    have hrestored := hall .ample (fun _ => true) sys'.again hnext
    have hstate : sys.persist.state ≠ .noDisk := by
      intro hno
      have hsame : sys'.ata = sys.ata := by
        rcases persistSave_cases ready hsave with ⟨-, t, rfl⟩ | ⟨-, hne, -⟩
        · rfl
        · exact absurd hno hne
      have hagain : sys'.again = sys.again := by
        unfold System.again
        rw [hsame]
      obtain ⟨m, hmount⟩ := unused_again hready hm hsession hno sys.again_next
      obtain ⟨m', -, -, hloaded, -⟩ := hrestored
      rw [hagain, hmount] at hloaded
      simp at hloaded
    obtain ⟨hne, hcarried⟩ := restored_carried hready hsession hsane hstate hsave hinv
      (fun _ => rfl) hnext hrestored
    exact ⟨hstate, hne, hcarried⟩
  · rintro ⟨hstate, hne, hcarried⟩ env' ready' next' hnext'
    exact saved_restored hready hsession hsane hstate hsave hinv hne hcarried hnext'

/-- The count of the nodes says how many files a restored tree has. -/
theorem Restored.count {env : Env} {next m : System} {us : List User} {f : Files} {st : PersistState}
    (h : Restored env ready next us f) (hmount : persistMount env ready next = some (st, m)) :
    m.fs.nodeCount = f.size + 1 := by
  obtain ⟨m', root, kids, hloaded, hinv, rfl, -⟩ := h
  rw [hmount, Option.some.injEq, Prod.mk.injEq] at hloaded
  obtain ⟨-, rfl⟩ := hloaded
  have hcount := hinv.count
  have hsize := hinv.files_size kids hinv.rep.2.2.1 hinv.kids_ids.1
  simp only [ids, List.append_nil, List.length_cons] at hcount
  omega

theorem skeleton_reached : Reached .ample usersInit skeleton := by
  obtain ⟨root, kids, hinv, -⟩ := skeleton_standing
  exact .boot fsInit_skeleton (by rw [hinv.isRoot]; simp)

theorem Session.work {boot sys : System} (h : Session env ready boot sys) (s : Fs) (t : Table) :
    Session env ready boot { sys with fs := s, table := t } := by
  have hstep : Persist.step env ready sys (.work s t) = some { sys with fs := s, table := t } := rfl
  exact h.step hstep

/-- The directories and the files of the skeleton. -/
def skeletonKids : Forest Ptr :=
  .cons 1 .nil (.cons 2
    (.cons 7 .nil (.cons 9 .nil (.cons 11 .nil (.cons 13 .nil .nil))))
    (.cons 3 .nil (.cons 4 .nil (.cons 5 .nil (.cons 6 .nil .nil)))))

instance decidableCarried : (ns : List (List UInt8)) → (f : Files) → Decidable (f.Carried ns)
  | _, .nil => isTrue trivial
  | ns, .file name _ rest =>
    have := decidableCarried ns rest
    inferInstanceAs (Decidable ((_ ∧ _) ∧ name ∉ rest.names ∧ rest.Carried ns))
  | ns, .dir name ch rest =>
    have := decidableCarried (ns ++ [name]) ch
    have := decidableCarried ns rest
    inferInstanceAs (Decidable ((_ ∧ _) ∧ name ∉ rest.names ∧
      (ch ≠ .nil → name ≠ [dot] ∧ name ≠ [dot, dot]) ∧ ch.Carried (ns ++ [name]) ∧
        rest.Carried ns))

/-- The skeleton is carried, and comes back at every next boot. -/
theorem save_mount_iff_skeleton : ∃ sys sys' root kids,
    Session .ample (fun _ => true) (freshBoot fun _ => Sector.ofBytes []) sys ∧
      Reached .ample sys.table sys.fs ∧
      persistSave .ample (fun _ => true) sys = some (0, sys') ∧ TreeInv sys.fs root kids ∧
      Kept sys (files sys.fs kids) ∧
      ∀ env' ready' next, NextBoot env' ready' sys' next →
        Restored env' ready' next (accounts sys.table) (files sys.fs kids) := by
  have h : ((persistMount .ample (fun _ => true) (freshBoot fun _ => Sector.ofBytes [])).bind
      fun r => (persistSave .ample (fun _ => true)
        { r.2 with fs := skeleton, table := usersInit }).map fun q =>
          (q.1, decide (r.2.persist.state ≠ .noDisk))) = some (0, true) := by
    decide +kernel
  have hrep : Rep (links skeleton) none skeleton.rootNode (.cons 0 skeletonKids .nil) := by
    decide +kernel
  have hfiles : files skeleton skeletonKids ≠ .nil ∧ (files skeleton skeletonKids).Carried [] := by
    decide +kernel
  have hreached := skeleton_reached
  obtain ⟨root, kids, hinv, -⟩ := skeleton_standing
  rw [hinv.isRoot] at hrep
  generalize skeleton = s at h hreached hinv hrep hfiles
  simp only [Option.bind_eq_some_iff, Option.map_eq_some_iff, Prod.mk.injEq,
    decide_eq_true_eq] at h
  obtain ⟨⟨st, m⟩, hmount, ⟨res, sys'⟩, hsave, rfl, hstate⟩ := h
  have hsession := (Session.mount hmount).work s usersInit
  have hkids : Forest.cons root kids .nil = .cons 0 skeletonKids .nil := hinv.rep.unique hrep
  obtain ⟨rfl, rfl⟩ : root = 0 ∧ kids = skeletonKids := by
    simpa only [Forest.cons.injEq, and_true] using hkids
  have hkept : Kept { m with fs := s, table := usersInit } (files s skeletonKids) :=
    ⟨hstate, Or.inr hfiles.1, hfiles.2⟩
  exact ⟨_, sys', 0, skeletonKids, hsession, hreached, hsave, hinv, hkept,
    (save_mount_iff (fun _ => rfl) rfl hsession hreached hsave hinv).mpr hkept⟩

/-- Eight directories with names of 31 bytes, each in the one before it. -/
def deepName : List UInt8 := List.replicate 31 97

def deepOps : List FsOp :=
  (List.range 8).flatMap fun i => [.create deepName .dir, .setCwd (some (14 + i))]

/-- The last one is lost: the path that is written for it is that of the one before. -/
theorem deep_directory_lost : ∃ sys sys' root kids,
    Session .ample (fun _ => true) (freshBoot fun _ => Sector.ofBytes []) sys ∧
      Reached .ample sys.table sys.fs ∧
      persistSave .ample (fun _ => true) sys = some (0, sys') ∧ TreeInv sys.fs root kids ∧
      NextBoot .ample (fun _ => true) sys' sys'.again ∧
      ¬Restored .ample (fun _ => true) sys'.again (accounts sys.table) (files sys.fs kids) := by
  have h : ((persistMount .ample (fun _ => true) (freshBoot fun _ => Sector.ofBytes [])).bind
      fun r => (fsRun .ample skeleton deepOps).bind fun s =>
        (persistSave .ample (fun _ => true) { r.2 with fs := s, table := usersInit }).bind fun q =>
          (persistMount .ample (fun _ => true) q.2.again).map fun m =>
            (q.1, decide (m.2.fs.nodeCount + 1 = s.nodeCount))) = some (0, true) := by
    decide +kernel
  simp only [Option.bind_eq_some_iff, Option.map_eq_some_iff, Prod.mk.injEq, decide_eq_true_eq] at h
  obtain ⟨⟨st, m⟩, hmount, s, hrun, ⟨res, sys'⟩, hsave, ⟨st', m'⟩, hboot, rfl, hlost⟩ := h
  have hops : ∀ op ∈ deepOps, FsText op := by
    intro op hop
    simp only [deepOps, List.mem_flatMap, List.mem_cons, List.not_mem_nil, or_false] at hop
    obtain ⟨i, -, rfl | rfl⟩ := hop
    · exact (by decide : (0 : UInt8) ∉ deepName)
    · trivial
  have hreached : Reached .ample usersInit s := skeleton_reached.run hops hrun
  obtain ⟨⟨root, kids, hinv⟩, -⟩ := hreached.sane.rooted
  have hsession := (Session.mount hmount).work s usersInit
  refine ⟨_, sys', root, kids, hsession, hreached, hsave, hinv, sys'.again_next, fun hrestored => ?_⟩
  have hsize := hinv.files_size kids hinv.rep.2.2.1 hinv.kids_ids.1
  have hcount := hinv.count
  have hnext := hrestored.count hboot
  simp only [ids, List.append_nil, List.length_cons] at hcount
  rw [hsize] at hnext
  dsimp only at hlost
  omega

end LightningOS.Persist
