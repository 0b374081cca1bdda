import LightningOS.Properties.Restore
import LightningOS.Properties.Snapshot

/-!
# A mount inverts the format

A payload is written here by its definition, the records of some accounts and then those
of a tree, depth first. A mount of a disk that holds it restores these accounts and this
tree, and reads the payload to its last byte.

The accounts come first, into an empty table and onto an empty tree: there is no
`/etc/passwd` yet that could be brought up to date. Then the tree is replayed.
-/

namespace LightningOS.Users

open ByteMemory CString Ramfs

/-! ## A table that fills up -/

/-- The accounts in use, in the order of the table. -/
def accounts (t : Table) : List User := (activeSlots t).map t.users

/-- The first slots are in use, by these accounts, and no others. -/
structure Packed (t : Table) (us : List User) (used free : List UserSlot) : Prop where
  slots : List.finRange userMax = used ++ free
  active : ∀ i ∈ used, (t.users i).active = true
  inactive : ∀ i ∈ free, (t.users i).active = false
  eq : used.map t.users = us

variable {env : Env} {t : Table} {us : List User} {used free : List UserSlot}

theorem Packed.accounts_eq (h : Packed t us used free) : accounts t = us := by
  have hused : used.filter (fun i => (t.users i).active) = used :=
    List.filter_eq_self.mpr h.active
  have hfree : free.filter (fun i => (t.users i).active) = [] := by
    refine List.filter_eq_nil_iff.mpr ?_
    intro i hi
    rw [h.inactive i hi]
    simp
  rw [accounts, activeSlots, h.slots, List.filter_append, hused, hfree, List.append_nil, h.eq]

theorem Packed.nil (h : ∀ i, (t.users i).active = false) :
    Packed t [] [] (List.finRange userMax) where
  slots := rfl
  active := by simp
  inactive i _ := h i
  eq := rfl

theorem Packed.find_none (h : Packed t us used free) {name : List UInt8}
    (hnew : ∀ v ∈ us, v.name ≠ name) : usersFind t name = none := by
  unfold usersFind
  split
  · rfl
  · refine List.find?_eq_none.mpr ?_
    intro i hi
    rw [h.slots] at hi
    rcases List.mem_append.mp hi with hi | hi
    · have hne := hnew (t.users i) (h.eq ▸ List.mem_map_of_mem hi)
      simp [hne]
    · simp [h.inactive i hi]

/-- The next account goes into the first slot that is free. -/
theorem Packed.step (env : Env) (h : Packed t us used free) {u : User} (hvalid : validName u.name = true)
    (hhome : u.home.length < userHomeMax) (hactive : u.active = true)
    (hnew : ∀ v ∈ us, v.name ≠ u.name) (hroom : us.length < userMax) :
    ∃ t' used' free', Packed t' (us ++ [u]) used' free' ∧
      ∀ s : Fs, usersImport env t s u.name u.home u.uid u.gid u.pwHash =
        (syncPasswdFile env t' s).map fun s => (0, t', s) := by
  have hlen : used.length = us.length := by
    rw [← h.eq, List.length_map]
  have hall : used.length + free.length = userMax := by
    rw [← List.length_append, ← h.slots, List.length_finRange]
  cases free with
  | nil =>
    rw [List.length_nil] at hall
    omega
  | cons slot free =>
    have hfree : freeSlot t = some slot := by
      have hskip : used.find? (fun i => !(t.users i).active) = none := by
        refine List.find?_eq_none.mpr ?_
        intro i hi
        simp [h.active i hi]
      rw [freeSlot, h.slots, List.find?_append, hskip, Option.none_or, List.find?_cons,
        h.inactive slot List.mem_cons_self]
      rfl
    have hnodup : (used ++ slot :: free).Nodup := h.slots ▸ List.nodup_finRange userMax
    have hother : ∀ i ∈ used ++ free, i ≠ slot := by
      have hperm : (slot :: (used ++ free)).Nodup :=
        (List.perm_middle.nodup_iff).mp hnodup
      rintro i hi rfl
      exact (List.nodup_cons.mp hperm).1 hi
    have hname : u.name.take (userNameMax - 1) = u.name :=
      List.take_of_length_le (Nat.le_pred_of_lt (validName_spec hvalid).2)
    have hhome' : u.home.take (userHomeMax - 1) = u.home :=
      List.take_of_length_le (Nat.le_pred_of_lt hhome)
    have hu : (⟨u.name, u.home, u.uid, u.gid, u.pwHash, true⟩ : User) = u := by
      rw [← hactive]
    let next := if t.nextUid ≤ u.uid then u.uid + 1 else t.nextUid
    refine ⟨{ t.setUser slot u with nextUid := next }, used ++ [slot], free, ?_, ?_⟩
    · refine ⟨by rw [h.slots, List.append_assoc]; rfl, ?_, ?_, ?_⟩
      · intro i hi
        rcases List.mem_append.mp hi with hi | hi
        · change ((t.setUser slot u).users i).active = true
          rw [setUser_other u (hother i (List.mem_append_left _ hi))]
          exact h.active i hi
        · rw [List.mem_singleton.mp hi]
          change ((t.setUser slot u).users slot).active = true
          rw [setUser_same]
          exact hactive
      · intro i hi
        change ((t.setUser slot u).users i).active = false
        rw [setUser_other u (hother i (List.mem_append_right _ hi))]
        exact h.inactive i (List.mem_cons_of_mem _ hi)
      · rw [List.map_append, ← h.eq]
        refine congrArg₂ _ (List.map_congr_left ?_) ?_
        · intro i hi
          exact setUser_other u (hother i (List.mem_append_left _ hi))
        · simp
    · intro s
      have hok : ¬(validName u.name = false ∨ usersFind t u.name ≠ none) := by
        rw [hvalid, h.find_none hnew]
        simp
      rw [usersImport, if_neg hok, hfree]
      simp only [hname, hhome', hu]
      rfl

/-- On an empty tree there is no file to bring up to date, and no place for one. -/
theorem syncPasswdFile_empty {s : Fs} {root : Ptr} (h : TreeInv s root Forest.nil) (t : Table) :
    syncPasswdFile env t s = some { s with time := s.time + 1 } := by
  obtain ⟨rn, hrn⟩ := h.get h.root_mem
  have hsub : (tree root Forest.nil).sub root = some Forest.nil := by
    simp [Forest.sub]
  have hchild : ∀ name, findChild s (some root) name = some none := by
    intro name
    rw [h.findChild hrn hsub]
    simp
  have hstart : start s etcPasswd = some root := by
    rw [start, if_pos (by decide), h.isRoot]
  have hnames : pathNames etcPasswd = [ofString "etc", ofString "passwd"] := by decide
  have hresolve : fsResolve s etcPasswd = some none := by
    rw [fsResolve_follow, hstart, hnames, follow, if_neg (by decide), if_neg (by decide), hchild]
  have hwalk : walk s etcPasswd true = some (none, []) := by
    rw [walk_followParent h.isRoot (by decide) hstart, hnames, followParent]
    simp only [List.getLast?_cons_cons, List.getLast?_singleton, List.dropLast_cons_cons,
      List.dropLast_singleton]
    rw [follow, if_neg (by decide), if_neg (by decide), hchild]
  rw [syncPasswdFile, hresolve]
  simp only [fsCreate, hwalk]

/-! ## Importing them all -/

/-- Accounts that a snapshot can carry. -/
structure ValidAccounts (us : List User) : Prop where
  count : us.length ≤ userMax
  distinct : (us.map User.name).Nodup
  valid : ∀ u ∈ us, validName u.name = true
  home : ∀ u ∈ us, u.home.length < userHomeMax
  home0 : ∀ u ∈ us, (0 : UInt8) ∉ u.home
  active : ∀ u ∈ us, u.active = true

theorem zero_notMem_of_validName {name : List UInt8} (h : validName name = true) :
    (0 : UInt8) ∉ name := by
  intro hmem
  cases name with
  | nil => simp at hmem
  | cons c cs =>
    simp only [validName, Bool.and_eq_true, List.all_eq_true] at h
    exact absurd (h.1.2 0 hmem) (by decide)

theorem ValidAccounts.recordable (h : ValidAccounts us) {u : User} (hu : u ∈ us) :
    Persist.Recordable u where
  name := (validName_spec (h.valid u hu)).2
  name0 := zero_notMem_of_validName (h.valid u hu)
  home := h.home u hu
  home0 := h.home0 u hu

/-- **The accounts of a payload come back in their order**, and the empty tree stays empty. -/
theorem importAll_packed (env : Env) {root : Ptr} (us : List User) : ∀ {done : List User} {t : Table}
    {used free : List UserSlot} {s : Fs}, TreeInv s root Forest.nil → Packed t done used free →
      ValidAccounts (done ++ us) →
      ∃ t' n, Persist.importAll env us t s = some (t', { s with time := n }) ∧
        accounts t' = done ++ us := by
  induction us with
  | nil =>
    intro done t used free s _ hpacked _
    refine ⟨t, s.time, rfl, ?_⟩
    rw [List.append_nil]
    exact hpacked.accounts_eq
  | cons u us ih =>
    intro done t used free s hinv hpacked hus
    have hu : u ∈ done ++ u :: us := by simp
    have hnew : ∀ v ∈ done, v.name ≠ u.name := by
      intro v hv heq
      have hnd := hus.distinct
      rw [List.map_append, List.map_cons, List.nodup_append] at hnd
      exact hnd.2.2 v.name (List.mem_map_of_mem hv) u.name List.mem_cons_self heq
    have hroom : done.length < userMax := by
      have hcount := hus.count
      rw [List.length_append, List.length_cons] at hcount
      omega
    obtain ⟨t₁, used₁, free₁, hpacked₁, himport⟩ := hpacked.step env (hus.valid u hu)
      (hus.home u hu) (hus.active u hu) hnew hroom
    have hinv₁ : TreeInv { s with time := s.time + 1 } root Forest.nil :=
      hinv.congr rfl rfl rfl rfl
    rw [List.append_cons] at hus ⊢
    obtain ⟨t', n, hall, haccounts⟩ := ih hinv₁ hpacked₁ hus
    refine ⟨t', n, ?_, haccounts⟩
    rw [Persist.importAll, himport, syncPasswdFile_empty hinv t₁]
    exact hall

end LightningOS.Users

namespace LightningOS.Persist

open ByteMemory CString Ramfs Users Ata

variable {env : Env} {ready : Nat → Bool}

/-! ## The format -/

/-- Accounts and nodes, encoded. -/
def records (us : List User) (es : List Entry) : List UInt8 :=
  us.flatMap userRecord ++ es.flatMap Entry.bytes

/-- A superblock for them. -/
structure Covers (super : Super) (us : List User) (es : List Entry) : Prop where
  magic : super.magic = magicBytes
  version : super.version = persistVersion
  payloadBytes : super.payloadBytes = (records us es).length
  nodeCount : super.nodeCount = es.length
  userCount : super.userCount = us.length
  checksum : super.checksum = (checksum (records us es)).toNat

/-- Accounts and a tree, encoded. -/
def payloadOf (us : List User) (f : Files) : List UInt8 :=
  us.flatMap userRecord ++ (f.entries []).flatMap Entry.bytes

/-- A superblock that describes them. -/
structure Describes (super : Super) (us : List User) (f : Files) : Prop where
  magic : super.magic = magicBytes
  version : super.version = persistVersion
  payloadBytes : super.payloadBytes = (payloadOf us f).length
  nodeCount : super.nodeCount = (f.entries []).length
  userCount : super.userCount = us.length
  checksum : super.checksum = (checksum (payloadOf us f)).toNat

theorem userRecord_pos (u : User) : 0 < (userRecord u).length := by
  rw [userRecord, stringRecord]
  simp

theorem Entry.bytes_length (e : Entry) :
    e.bytes.length = 7 + e.path.length + e.data.length := by
  simp only [Entry.bytes, List.length_append, le16_length, le32_length, List.length_singleton]

theorem records_pos {us : List User} {es : List Entry} (h : us ≠ [] ∨ es ≠ []) :
    0 < (records us es).length := by
  rw [records, List.length_append]
  rcases h with h | h
  · cases us with
    | nil => exact absurd rfl h
    | cons u us =>
      have := userRecord_pos u
      rw [List.flatMap_cons, List.length_append]
      omega
  · cases es with
    | nil => exact absurd rfl h
    | cons e es =>
      rw [List.flatMap_cons, List.length_append, Entry.bytes_length]
      omega

theorem entries_ne_nil {f : Files} (h : f ≠ .nil) (ns : List (List UInt8)) : f.entries ns ≠ [] := by
  cases f with
  | nil => exact absurd rfl h
  | file name data rest => simp [Files.entries]
  | dir name ch rest => simp [Files.entries]

/-- No record is longer than the payload. -/
theorem data_le_records {us : List User} {es : List Entry} {e : Entry} (he : e ∈ es) :
    e.data.length ≤ (records us es).length := by
  obtain ⟨pre, post, heq⟩ := List.append_of_mem he
  rw [records, heq, List.flatMap_append, List.flatMap_cons]
  simp only [List.length_append, Entry.bytes_length]
  omega

theorem zero_notMem_joinPath {ns : List (List UInt8)} (h : ∀ x ∈ ns, (0 : UInt8) ∉ x) :
    (0 : UInt8) ∉ joinPath ns := by
  intro hmem
  obtain ⟨x, hx, h0⟩ := List.mem_flatMap.mp hmem
  rcases List.mem_cons.mp h0 with h0 | h0
  · exact absurd h0 (by decide)
  · exact h x hx h0

theorem Fits.ok {ns : List (List UInt8)} {name : List UInt8} (hns : ∀ x ∈ ns, (0 : UInt8) ∉ x)
    (hfits : Fits ns name) (type : FsType) (data : List UInt8) :
    Entry.Ok ⟨type, joinPath (ns ++ [name]), data⟩ where
  nonempty := by
    rw [joinPath_concat]
    simp
  length := hfits.path
  path0 := by
    refine zero_notMem_joinPath fun x hx => ?_
    rcases List.mem_append.mp hx with hx | hx
    · exact hns x hx
    · rw [List.mem_singleton.mp hx]
      exact hfits.name0

/-- The reader accepts the records of a tree that fits. -/
theorem entries_ok (f : Files) : ∀ {ns : List (List UInt8)}, (∀ x ∈ ns, (0 : UInt8) ∉ x) →
    f.Restorable ns → ∀ e ∈ f.entries ns, e.Ok := by
  induction f with
  | nil =>
    intro ns _ _ e he
    simp [Files.entries] at he
  | file name data rest ih =>
    intro ns hns hres e he
    rcases List.mem_cons.mp he with rfl | he
    · exact Fits.ok hns hres.1 .file data
    · exact ih hns hres.2.2 e he
  | dir name ch rest ihc ihr =>
    intro ns hns hres e he
    obtain ⟨hfits, -, -, hch, hrest⟩ := hres
    have hns' : ∀ x ∈ ns ++ [name], (0 : UInt8) ∉ x := by
      intro x hx
      rcases List.mem_append.mp hx with hx | hx
      · exact hns x hx
      · rw [List.mem_singleton.mp hx]
        exact hfits.name0
    rcases List.mem_cons.mp he with rfl | he
    · exact Fits.ok hns hfits .dir []
    · rcases List.mem_append.mp he with he | he
      · exact ihc hns' hch e he
      · exact ihr hns hrest e he

/-! ## Restoring -/

/-- **Restoring a payload imports its accounts and replays its nodes**, on an empty tree, and
the reader is at its end. -/
theorem restore_records {sys : System} {root : Ptr} {kids : Forest Ptr} {super : Super}
    {buffer : List UInt8} {us : List User} {es : List Entry} (hinv : TreeInv sys.fs root kids)
    (hempty : ∀ i, (sys.table.users i).active = false) (hsuper : Covers super us es)
    (hle : (records us es).length ≤ maxPayload)
    (hbuffer : buffer.take super.payloadBytes = records us es) (hus : ValidAccounts us)
    (hes : ∀ e ∈ es, e.Ok) :
    ∃ s₁, TreeInv s₁ root Forest.nil ∧ s₁.currentDir = some root ∧
      ∀ s', replay env es s₁ = some s' →
        ∃ r t, restore env sys super buffer = (r, some { sys with fs := s', table := t }) ∧
          r.bad = false ∧ r.pos = super.payloadBytes ∧ accounts t = us := by
  have hlength : super.payloadBytes ≤ buffer.length := by
    have hlen := congrArg List.length hbuffer
    rw [List.length_take, ← hsuper.payloadBytes] at hlen
    omega
  have hok : (Reader.start super buffer).Ok :=
    Reader.Ok.start (hsuper.payloadBytes ▸ hle) hlength
  have hleft : (Reader.start super buffer).left = records us es := hbuffer
  obtain ⟨s₀, hreset, hinv₀, -, hcwd⟩ := hinv.fsReset env
  obtain ⟨t, n, himport, haccounts⟩ := importAll_packed env us hinv₀
    (Packed.nil hempty) hus
  obtain ⟨r₁, husers, took₁⟩ := mountUsers_import hok rfl (fun u hu => hus.recordable hu) hleft
    himport
  refine ⟨{ s₀ with time := n }, hinv₀.congr rfl rfl rfl rfl, hcwd, fun s' hreplay => ?_⟩
  have hrest : r₁.left = es.flatMap Entry.bytes ++ [] := by
    rw [List.append_nil]
    exact took₁.rest hleft
  obtain ⟨r₂, hnodes, took₂⟩ := mountNodes_replay took₁.ok took₁.bad hes hrest hreplay
  have htook := took₁.trans took₂
  refine ⟨r₂, t, ?_, htook.bad, htook.atEnd (took₂.rest hrest), haccounts⟩
  unfold restore
  rw [hreset, hsuper.userCount, hsuper.nodeCount]
  rw [Reader.start] at husers
  dsimp only
  rw [husers]
  dsimp only
  rw [hnodes]

/-- On an empty tree, the list of a tree gives the tree. -/
theorem replay_tree {s : Fs} {root : Ptr} {f : Files} (hg : env.Grants (maxPayload + 65))
    (h : TreeInv s root Forest.nil) (hf : f.Restorable [])
    (hsmall : ∀ e ∈ f.entries [], e.data.length ≤ maxPayload) :
    ∃ s' kids', replay env (f.entries []) s = some s' ∧ TreeInv s' root kids' ∧
      files s' kids' = f := by
  obtain ⟨rn, hrn⟩ := h.get h.root_mem
  have hnone : ∀ {q m}, s.nodes.get q = some m → m.parent = some root → m.name ∉ f.names := by
    intro q m hq hparent _
    obtain ⟨below, hbelow, hmem⟩ := h.parent_mem hq hparent
    have hsub : (tree root Forest.nil).sub root = some Forest.nil := by simp [Forest.sub]
    rw [hsub, Option.some.injEq] at hbelow
    rw [← hbelow] at hmem
    simp at hmem
  obtain ⟨s', kids', g, hreplay, hgrown, hfiles⟩ := replay_files hg f h hrn (h.rootDir hrn)
    (by simp) (fun _ => rfl) hf hsmall hnone
  have hkids : kids' = g := by
    have heq := hgrown.eq
    rw [Forest.update, if_pos rfl] at heq
    injection heq
  exact ⟨s', kids', hreplay, hgrown.inv, hkids ▸ hfiles⟩

/-! ## Mounting -/

/-- A mount on drives that answer accepts a snapshot with the right checksum at the place it
selects. -/
theorem Selects.accepted (hready : ∀ t, ready t = true) {next : System} {p : Vars} {super : Super}
    (hm : next.bootedFromMedium = false) (hsel : Selects ready next p)
    (hsuper : Super.decode (next.ata.media p.dataDrive p.dataBase).val = super)
    (hmagic : super.magic = magicBytes) (hread : Readable super)
    (hroom : p.dataBase + 1 + sectorsFor super.payloadBytes ≤ (next.ata.size p.dataDrive).toNat)
    (hsum : (checksum ((payloadSectors next.ata.media p super).take super.payloadBytes)).toNat =
      super.checksum) :
    ∃ p' ata, Accepted ready next p' super (payloadSectors next.ata.media p super) ata := by
  obtain ⟨p', a, hchoose, hdrive, hbase⟩ := hsel
  obtain ⟨ok, p'', a'', hchoose', hsame, -, hplace, -⟩ :=
    chooseLocation_spec ready { next.persist with isSealed := false } (ataInit ready next.ata)
  rw [hchoose, Prod.mk.injEq, Prod.mk.injEq] at hchoose'
  obtain ⟨rfl, rfl, rfl⟩ := hchoose'
  obtain ⟨hmedia, hsize, -, -⟩ := ataInit_spec ready next.ata
  have hhealthy := (ataInit_healthy hready next.ata).congr hsame.sameDrives
  have hle := (hplace rfl).base_le
  have hcount := sectorsFor_le hread.le
  rw [← hdrive, ← hbase] at hroom hsuper
  rw [← hsize, ← hsame.size] at hroom
  rw [← hmedia, ← hsame.media] at hsuper
  have hfirst : p'.dataBase < (a.size p'.dataDrive).toNat := by omega
  obtain ⟨a₁, hone, hsame₁⟩ := hhealthy.read hfirst (by omega)
  have hhealthy₁ := hhealthy.congr hsame₁.sameDrives
  have hlba : wrap32 (p'.dataBase + 1) = p'.dataBase + 1 := wrap32_of_lt (by omega)
  rw [← hsame₁.size] at hroom
  have hpresent := hhealthy₁.found p'.dataDrive (by
    intro hz
    rw [hz] at hroom
    simp at hroom)
  obtain ⟨res, a₂, hmany, hsame₂, hout, hok⟩ := ataRead_spec ready p'.dataDrive
    (by omega : p'.dataBase + 1 + sectorsFor super.payloadBytes ≤ 268435456) a₁
  have hrange : InRange a₁ p'.dataDrive (p'.dataBase + 1) (sectorsFor super.payloadBytes) :=
    ⟨hpresent, by rw [(hhealthy₁.drives _ hpresent).1]; exact hroom⟩
  obtain ⟨buffer, hbuffer⟩ := Option.ne_none_iff_exists'.mp (hok hready hrange hroom)
  have heq : buffer = payloadSectors next.ata.media p super := by
    rw [hout buffer hbuffer, hsame₁.media, hsame.media, hmedia, hdrive, hbase]
    rfl
  subst heq
  refine ⟨p', a₂, hm, ⟨a, a₁, _, hchoose, hone, hsuper.symm, ?_⟩, hmagic, hread, hsum⟩
  rw [hlba, hmany, hbuffer]

/-- A mount of a place that holds the records of some accounts and nodes. -/
theorem mount_records {next : System} {root : Ptr} {kids : Forest Ptr} {p : Vars} {super : Super}
    {us : List User} {es : List Entry} (hg : env.Grants (maxPayload + 65))
    (hready : ∀ t, ready t = true) (hm : next.bootedFromMedium = false)
    (hinv : TreeInv next.fs root kids) (hempty : ∀ i, (next.table.users i).active = false)
    (hsel : Selects ready next p) (hholds : Holds next.ata.media p super (records us es))
    (hsuper : Covers super us es)
    (hroom : p.dataBase + 1 + sectorsFor super.payloadBytes ≤ (next.ata.size p.dataDrive).toNat)
    (hpos : 0 < (records us es).length) (hle : (records us es).length ≤ maxPayload)
    (hus : ValidAccounts us) (hes : ∀ e ∈ es, e.Ok) :
    ∃ s₁, TreeInv s₁ root Forest.nil ∧ s₁.currentDir = some root ∧
      ∀ s', replay env es s₁ = some s' →
        ∃ m, persistMount env ready next = some (.loaded, m) ∧ m.fs = s' ∧ accounts m.table = us ∧
          ∃ p' buffer ata r sys, Accepted ready next p' super buffer ata ∧
            restore env (next.accepting p' ata) super buffer = (r, some sys) ∧ sys.fs = m.fs ∧
            sys.table = m.table ∧ r.bad = false ∧ r.pos = (records us es).length := by
  have hread : Readable super := by
    refine ⟨hsuper.version, ?_, ?_⟩
    · rw [hsuper.payloadBytes]
      exact hpos
    · rw [hsuper.payloadBytes]
      exact hle
  have hsum : (checksum ((payloadSectors next.ata.media p super).take super.payloadBytes)).toNat =
      super.checksum := by
    rw [hholds.isPayload, hsuper.checksum]
  obtain ⟨p', ata, hacc⟩ := hsel.accepted hready hm hholds.isSuper hsuper.magic hread hroom hsum
  have hinv' : TreeInv (next.accepting p' ata).fs root kids := hinv.congr rfl rfl rfl rfl
  obtain ⟨s₁, hinv₁, hcwd, hrestore⟩ :=
    restore_records hinv' hempty hsuper hle hholds.isPayload hus hes
  refine ⟨s₁, hinv₁, hcwd, fun s' hreplay => ?_⟩
  obtain ⟨r, t, hrestore, hgood, hpos, haccounts⟩ := hrestore s' hreplay
  have hk : env.kmalloc next.fs.time next.fs (sectorsFor super.payloadBytes * ataSectorSize) ≠
      none := by
    have hcount := sectorsFor_le hread.le
    have hmax : maxPayload = 1048576 := rfl
    have hsector : ataSectorSize = 512 := rfl
    refine hg _ _ _ ?_
    rw [hsector]
    omega
  have hmount := hacc.mount env ready hk hrestore
  rw [hgood] at hmount
  rw [hsuper.payloadBytes] at hpos
  exact ⟨_, hmount, rfl, haccounts, p', _, ata, r, _, hacc, hrestore, rfl, rfl, hgood, hpos⟩

/-- A mount of a place that holds the payload of some accounts and a tree. -/
theorem mount_payload {next : System} {root : Ptr} {kids : Forest Ptr} {p : Vars} {super : Super}
    {us : List User} {f : Files} (hg : env.Grants (maxPayload + 65))
    (hready : ∀ t, ready t = true) (hm : next.bootedFromMedium = false)
    (hinv : TreeInv next.fs root kids) (hempty : ∀ i, (next.table.users i).active = false)
    (hsel : Selects ready next p) (hholds : Holds next.ata.media p super (payloadOf us f))
    (hsuper : Covers super us (f.entries []))
    (hroom : p.dataBase + 1 + sectorsFor super.payloadBytes ≤ (next.ata.size p.dataDrive).toNat)
    (hne : us ≠ [] ∨ f ≠ .nil) (hle : (payloadOf us f).length ≤ maxPayload)
    (hus : ValidAccounts us) (hf : f.Restorable []) :
    ∃ m kids', persistMount env ready next = some (.loaded, m) ∧ TreeInv m.fs root kids' ∧
      files m.fs kids' = f ∧ accounts m.table = us ∧
      ∃ p' buffer ata r sys, Accepted ready next p' super buffer ata ∧
        restore env (next.accepting p' ata) super buffer = (r, some sys) ∧ sys.fs = m.fs ∧
        sys.table = m.table ∧ r.bad = false ∧ r.pos = (payloadOf us f).length := by
  obtain ⟨s₁, hinv₁, -, hmount⟩ := mount_records hg hready hm hinv hempty hsel hholds hsuper hroom
    (records_pos (hne.imp_right fun hf => entries_ne_nil hf [])) hle hus (entries_ok f (by simp) hf)
  obtain ⟨s', kids', hreplay, hinv', hfiles⟩ := replay_tree hg hinv₁ hf
    (fun e he => Nat.le_trans (data_le_records he) hle)
  obtain ⟨m, hloaded, rfl, haccounts, hrest⟩ := hmount s' hreplay
  exact ⟨m, kids', hloaded, hinv', hfiles, haccounts, hrest⟩

/-- **A mount inverts the format.** On drives that answer and with memory for it, the accounts
and the tree of a payload at the place that is selected come back as they are, and the
reader took the payload to its last byte. -/
theorem mount_inverts {next : System} {root : Ptr} {kids : Forest Ptr} {p : Vars} {super : Super}
    {us : List User} {f : Files} (hg : env.Grants (maxPayload + 65))
    (hready : ∀ t, ready t = true) (hm : next.bootedFromMedium = false)
    (hinv : TreeInv next.fs root kids) (hempty : ∀ i, (next.table.users i).active = false)
    (hsel : Selects ready next p) (hholds : Holds next.ata.media p super (payloadOf us f))
    (hsuper : Describes super us f)
    (hroom : p.dataBase + 1 + sectorsFor super.payloadBytes ≤ (next.ata.size p.dataDrive).toNat)
    (hne : us ≠ [] ∨ f ≠ .nil) (hle : (payloadOf us f).length ≤ maxPayload)
    (hus : ValidAccounts us) (hf : f.Valid []) :
    ∃ m kids', persistMount env ready next = some (.loaded, m) ∧ TreeInv m.fs root kids' ∧
      files m.fs kids' = f ∧ accounts m.table = us ∧
      ∃ p' buffer ata r sys, Accepted ready next p' super buffer ata ∧
        restore env (next.accepting p' ata) super buffer = (r, some sys) ∧ sys.fs = m.fs ∧
        sys.table = m.table ∧ r.bad = false ∧ r.pos = (payloadOf us f).length := by
  have hcovers : Covers super us (f.entries []) := ⟨hsuper.magic, hsuper.version,
    hsuper.payloadBytes, hsuper.nodeCount, hsuper.userCount, hsuper.checksum⟩
  exact mount_payload hg hready hm hinv hempty hsel hholds hcovers hroom hne hle hus
    (Files.Valid.restorable f hf)

/-- One account, and a directory with a file in it. -/
def sampleUsers : List User := [{
  name := alice
  home := ofString "/home/alice"
  uid := 1000
  gid := 1000
  pwHash := 7
  active := true }]

def sampleFiles : Files := .dir (ofString "x") (.file (ofString "f") [0, 255, 10] .nil) .nil

def sampleSuper : Super := superOf (payloadOf sampleUsers sampleFiles) 1 2

/-- The disk with them. -/
def sampleDisk (lba : Nat) : Sector :=
  if lba = 0 then Sector.ofBytes sampleSuper.encode
  else Sector.ofBytes (payloadOf sampleUsers sampleFiles)

theorem mount_inverts_sample : ∃ m root kids,
    persistMount .ample (fun _ => true) (freshBoot sampleDisk) = some (.loaded, m) ∧
      TreeInv m.fs root kids ∧ files m.fs kids = sampleFiles ∧ accounts m.table = sampleUsers := by
  obtain ⟨root, kids, hinv, -⟩ := freshBoot_standing sampleDisk
  have hsel : Selects (fun _ => true) (freshBoot sampleDisk)
      (({} : Vars).place .slave 0 "primary slave, sector 0") := by
    obtain ⟨ok, p', a, hchoose, -, -, -, hwhere⟩ := chooseLocation_spec (fun _ => true)
      { (freshBoot sampleDisk).persist with isSealed := false }
      (ataInit (fun _ => true) (freshBoot sampleDisk).ata)
    have hsnap : SnapshotAt (ataInit (fun _ => true) (freshBoot sampleDisk).ata) .slave 0 :=
      ⟨by decide, (by decide : List.take 8 _ = magicBytes)⟩
    obtain ⟨rfl, hdrive, hbase⟩ := (hwhere (ataInit_healthy (fun _ => rfl) _)).1 hsnap
    exact ⟨p', a, hchoose, hdrive, hbase⟩
  have hvalid : sampleFiles.Valid [] :=
    ⟨⟨⟨by decide, by decide, by decide⟩, by decide, by decide⟩, by decide, by decide, by decide,
      ⟨⟨⟨by decide, by decide, by decide⟩, by decide, by decide⟩, by decide, by decide, by decide,
        trivial⟩, trivial⟩
  have hgrants : Env.ample.Grants (maxPayload + 65) := Env.ample_grants (by decide)
  have hready : ∀ t, (fun _ : Nat => true) t = true := fun _ => rfl
  have hsuper : Describes sampleSuper sampleUsers sampleFiles := ⟨rfl, rfl, rfl, rfl, rfl, rfl⟩
  have husers : ValidAccounts sampleUsers :=
    ⟨by decide, by decide, by decide, by decide, by decide, by decide⟩
  obtain ⟨m, kids', hmount, hinv', hfiles, haccounts, -⟩ :=
    mount_inverts hgrants hready rfl hinv (fun _ => rfl) hsel
      ⟨by decide +kernel, by decide +kernel⟩ hsuper (by decide +kernel) (Or.inl (by decide))
      (by decide +kernel) husers hvalid
  exact ⟨m, root, kids', hmount, hinv', hfiles, haccounts⟩

end LightningOS.Persist
