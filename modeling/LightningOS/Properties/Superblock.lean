import LightningOS.Properties.Longer
import LightningOS.Properties.SaveMount

/-!
# Another superblock in front of the same payload

The checksum is that of the payload, so the other fields of a superblock are as good as what
the mount makes of them. The version and the length have checks of their own, the counts have
only the reader, and a disk without the magic is a blank one.
-/

namespace LightningOS.Persist

open ByteMemory CString Ramfs Users Ata Forest

/-! ## What a mount finds -/

/-- What a mount makes of a payload that was read. -/
def Super.finish (super : Super) : Reader × Option System → Option (PersistState × System)
  | (_, none) => none
  | (r, some sys) =>
    some (if r.bad then (.error, sys.setState .error)
      else (.loaded, { sys with persist := { sys.persist with
        bytesUsed := super.payloadBytes
        saveCount := super.saves
        state := .loaded
        dirty := false } }))

variable {env env' : Env} {ready ready' : Nat → Bool}

theorem mountSnapshot_found (env : Env) (ready : Nat → Bool) {sys : System} (super : Super)
    (hp : AtPlace sys.persist) :
    (∃ m, mountSnapshot env ready sys super = some (.error, m) ∧ Untouched sys m) ∨
      Readable super ∧ (checksum ((payloadSectors sys.ata.media sys.persist super).take
          super.payloadBytes)).toNat = super.checksum ∧
        ∃ a, mountSnapshot env ready sys super = super.finish (restore env
          (sys.accepting sys.persist a) super
          (payloadSectors sys.ata.media sys.persist super)) := by
  by_cases hsum : Readable super → (checksum ((payloadSectors sys.ata.media sys.persist super).take
      super.payloadBytes)).toNat ≠ super.checksum
  · exact Or.inl (mountSnapshot_mismatch hp hsum)
  simp only [Classical.not_imp, ne_eq, not_not] at hsum
  obtain ⟨hread, hsum⟩ := hsum
  have hpos := hread.pos
  have hle := hread.le
  have hbase := hp.base_le
  have hcount := sectorsFor_le hread.le
  have hlba : wrap32 (sys.persist.dataBase + 1) = sys.persist.dataBase + 1 :=
    wrap32_of_lt (by omega)
  obtain ⟨res, a, hdata, -, hout, -⟩ := ataRead_spec ready sys.persist.dataDrive
    (by omega : sys.persist.dataBase + 1 + sectorsFor super.payloadBytes ≤ 268435456) sys.ata
  unfold mountSnapshot
  rw [if_neg (by simp only [hread.version]; omega)]
  simp only [System.tmpAlloc, Fs.alloc]
  cases env.kmalloc sys.fs.time sys.fs (sectorsFor super.payloadBytes * ataSectorSize) with
  | none => exact Or.inl ⟨_, rfl, ⟨sys.fs.time + 1, rfl⟩, rfl⟩
  | some d =>
    simp only [Option.isSome_some, hlba, hdata]
    cases res with
    | none => exact Or.inl ⟨_, rfl, ⟨sys.fs.time + 1, rfl⟩, rfl⟩
    | some buffer =>
      have hbuffer : buffer = payloadSectors sys.ata.media sys.persist super := hout buffer rfl
      refine Or.inr ⟨hread, hsum, a, ?_⟩
      dsimp only
      rw [hbuffer, if_neg (by simpa using hsum)]
      unfold System.accepting
      rcases restore env _ super (payloadSectors sys.ata.media sys.persist super) with ⟨r, o⟩
      cases o with
      | none => rfl
      | some sys₁ =>
        unfold Super.finish
        dsimp only
        split <;> rfl

/-- A mount at a place with a superblock of ours refuses it, or restores what is there. -/
theorem mount_found (env : Env) {next : System} {p : Vars} {super : Super}
    (hm : next.bootedFromMedium = false) (hp : AtPlace p) (hsel : Selects ready next p)
    (hsuper : Super.decode (next.ata.media p.dataDrive p.dataBase).val = super)
    (hmagic : super.magic = magicBytes) :
    (∃ m, persistMount env ready next = some (.error, m) ∧ Untouched next m) ∨
      Readable super ∧ (checksum ((payloadSectors next.ata.media p super).take
          super.payloadBytes)).toNat = super.checksum ∧
        ∃ p' a, persistMount env ready next = super.finish (restore env
          (next.accepting p' a) super (payloadSectors next.ata.media p super)) := by
  rcases mount_selected env hm hp hsel hsuper hmagic with
    herror | ⟨p', a, hdrive, hbase, hmedia, hmount⟩
  · exact Or.inl herror
  have hp' : AtPlace p' := by
    unfold AtPlace
    rw [hdrive, hbase]
    exact hp
  have hpayload : payloadSectors a.media p' super = payloadSectors next.ata.media p super := by
    unfold payloadSectors
    rw [hdrive, hbase, hmedia]
  have hplace : AtPlace ({ next with persist := p', ata := a } : System).persist := hp'
  rcases mountSnapshot_found env ready super hplace with
    ⟨m, hm, huntouched⟩ | ⟨hread, hsum, a', hfound⟩
  · exact Or.inl ⟨m, hmount.trans hm, huntouched⟩
  · rw [hpayload] at hsum hfound
    exact Or.inr ⟨hread, hsum, p', a', hmount.trans hfound⟩

/-- With the payload in the same place, a longer one begins with a shorter one. -/
theorem start_longer (media : Drive → Nat → Sector) (p : Vars) {super super' : Super}
    (hle : super.payloadBytes ≤ super'.payloadBytes) (hmax : super'.payloadBytes ≤ maxPayload) :
    ∃ more, Longer more (.start super (payloadSectors media p super))
      (.start super' (payloadSectors media p super')) := by
  have hmax₀ : super.payloadBytes ≤ maxPayload := Nat.le_trans hle hmax
  obtain ⟨k, hk⟩ : ∃ k, sectorsFor super'.payloadBytes = sectorsFor super.payloadBytes + k := by
    refine ⟨sectorsFor super'.payloadBytes - sectorsFor super.payloadBytes, ?_⟩
    rw [sectorsFor_eq hmax, sectorsFor_eq hmax₀]
    omega
  have hlen : ∀ sup : Super, sup.payloadBytes ≤ maxPayload →
      sup.payloadBytes ≤ (payloadSectors media p sup).length := by
    intro sup hsup
    unfold payloadSectors
    rw [sectorsAt_length]
    exact le_sectorsFor hsup
  have hfirst : (payloadSectors media p super').take super.payloadBytes =
      (payloadSectors media p super).take super.payloadBytes := by
    have hle₀ := hlen super hmax₀
    unfold payloadSectors at hle₀ ⊢
    rw [hk, sectorsAt_add, List.take_append_of_le_length hle₀]
  refine ⟨((payloadSectors media p super').drop super.payloadBytes).take
    (super'.payloadBytes - super.payloadBytes), .start hmax₀ (hlen super hmax₀),
    .start hmax (hlen super' hmax), rfl, ?_⟩
  show (payloadSectors media p super').take super'.payloadBytes =
    (payloadSectors media p super).take super.payloadBytes ++ _
  rw [← hfirst, ← List.take_add, Nat.add_sub_cancel' hle]

/-! ## Another superblock -/

/-- The disks with another sector in the place of the superblock. -/
def System.withSuper (sys : System) (sector : Sector) : System :=
  { sys with ata := { sys.ata with
      media := fun d l =>
        if d = sys.persist.dataDrive ∧ l = sys.persist.dataBase then sector else sys.ata.media d l } }

/-- The superblock in that place. -/
def System.super (sys : System) : Super :=
  Super.decode (sys.ata.media sys.persist.dataDrive sys.persist.dataBase).val

/-- The same boot with the disks of `sys`. -/
def System.withDisks (next sys : System) : System :=
  { next with ata := { next.ata with media := sys.ata.media } }

variable {boot sys sys' next : System} {sector : Sector} {root : Ptr} {kids : Forest Ptr}

theorem NextBoot.withDisks (h : NextBoot env ready (sys.withSuper sector) next) :
    NextBoot env ready sys (next.withDisks sys) :=
  ⟨h.memory, h.ready, h.medium, rfl, h.size, h.fs, h.table⟩

theorem NextBoot.standing (h : NextBoot env ready sys next) : Standing next.fs := by
  obtain ⟨root, kids, hinv⟩ := h.tree
  refine fsInit_tree env h.fs ?_
  rw [hinv.isRoot]
  exact Option.some_ne_none root

theorem NextBoot.super (h : NextBoot env ready (sys.withSuper sector) next) :
    next.ata.media sys.persist.dataDrive sys.persist.dataBase = sector := by
  rw [h.media]
  exact if_pos ⟨rfl, rfl⟩

theorem NextBoot.elsewhere (h : NextBoot env ready (sys.withSuper sector) next) {d : Drive} {l : Nat}
    (hne : ¬(d = sys.persist.dataDrive ∧ l = sys.persist.dataBase)) :
    next.ata.media d l = sys.ata.media d l := by
  rw [h.media]
  exact if_neg hne

/-- The payload is left intact. -/
theorem NextBoot.payload (h : NextBoot env ready (sys.withSuper sector) next) (super : Super) :
    payloadSectors next.ata.media sys.persist super =
      payloadSectors sys.ata.media sys.persist super := by
  refine sectorsAt_congr fun l hl _ => h.elsewhere ?_
  rintro ⟨-, rfl⟩
  omega

/-- A boot looks at the place of the save as long as the magic is there. -/
theorem selects_super (hready : ∀ t, ready t = true) (hsession : Session env ready boot sys)
    (hstate : sys.persist.state ≠ .noDisk) (hsave : persistSave env ready sys = some (0, sys'))
    (hnext : NextBoot env' ready' (sys'.withSuper sector) next)
    (hmagic : (Super.decode sector.val).magic = magicBytes) :
    Selects ready' next sys'.persist := by
  refine selects_place hready hnext.ready hsession hstate hsave hnext.size ?_ fun hmaster => ?_
  · unfold HasMagic
    rw [hnext.super]
    exact hmagic
  · refine hnext.elsewhere ?_
    rintro ⟨hslave, -⟩
    rw [hmaster] at hslave
    exact Drive.noConfusion hslave

/-- Where no magic is to be found, the disk is blank. -/
theorem mount_blank (env : Env) (hready : ∀ t, ready t = true)
    (hm : next.bootedFromMedium = false) (hslave : ¬HasMagic next.ata.media .slave 0)
    (hmaster : ¬HasMagic next.ata.media .master installDataLba) :
    ∃ st m, persistMount env ready next = some (st, m) ∧ (st = .empty ∨ st = .noDisk) ∧
      Untouched next m := by
  obtain ⟨hmedia, hsize, -, -⟩ := ataInit_spec ready next.ata
  have hhealthy := ataInit_healthy hready next.ata
  obtain ⟨ok, p, a, hchoose, hsame, -, hplace, hwhere⟩ :=
    chooseLocation_spec ready { next.persist with isSealed := false } (ataInit ready next.ata)
  obtain ⟨-, -, hfirst, hsecond⟩ := hwhere hhealthy
  have hno : ¬SnapshotAt (ataInit ready next.ata) .slave 0 := fun h => hslave (hmedia ▸ h.2)
  have hno' : ¬SnapshotAt (ataInit ready next.ata) .master installDataLba :=
    fun h => hmaster (hmedia ▸ h.2)
  unfold persistMount
  simp only [hm, Bool.false_eq_true, if_false, hchoose]
  cases ok with
  | false => exact ⟨_, _, rfl, Or.inr rfl, ⟨next.fs.time, by rw [← hm]⟩, rfl⟩
  | true =>
    have hblank : ¬HasMagic next.ata.media p.dataDrive p.dataBase ∧
        p.dataBase < (a.size p.dataDrive).toNat := by
      rw [hsame.size]
      by_cases hz : (ataInit ready next.ata).size .slave = 0
      · obtain ⟨hroom, hchosen⟩ := hsecond hno hno' hz
        obtain ⟨hd, hb⟩ := hchosen rfl
        rw [hd, hb]
        have hlarge := hroom.mp rfl
        exact ⟨hmaster, by omega⟩
      · obtain ⟨-, hd, hb⟩ := hfirst hno hno' hz
        rw [hd, hb]
        exact ⟨hslave, size_pos hz⟩
    have hbase := (hplace rfl).base_le
    obtain ⟨a', hread, -⟩ := (hhealthy.congr hsame.sameDrives).read hblank.2 (by omega)
    have hmagic : ¬(Super.decode (a.media p.dataDrive p.dataBase).val).magic = magicBytes := by
      rw [hsame.media, hmedia]
      exact hblank.1
    simp only [hread]
    rw [if_pos hmagic]
    exact ⟨_, _, rfl, Or.inl rfl, ⟨next.fs.time, rfl⟩, rfl⟩

/-! ## The reader as the only check -/

theorem Super.finish_error {super : Super} {r : Reader} {m : System} (hbad : r.bad = true) :
    ∃ m', super.finish (r, some m) = some (.error, m') := by
  unfold Super.finish
  dsimp only
  rw [if_pos hbad]
  exact ⟨_, rfl⟩

/-- The same tree and accounts were restored, wherever the readers stopped. -/
theorem Super.finish_same {new old : Super} {r q : Reader} {x y m : System}
    {o : Option (Table × Fs)} (hold : old.finish (q, o.map y.given) = some (.loaded, m))
    (hgood : o ≠ none → r.bad = false) :
    ∃ m', new.finish (r, o.map x.given) = some (.loaded, m') ∧ m'.fs = m.fs ∧
      m'.table = m.table := by
  cases o with
  | none => simp [Super.finish] at hold
  | some given =>
    have hr := hgood (Option.some_ne_none given)
    unfold Super.finish at hold ⊢
    dsimp only [Option.map_some] at hold ⊢
    rw [if_neg (by simp [hr])]
    split at hold
    · simp at hold
    · rw [Option.some.injEq, Prod.mk.injEq] at hold
      rw [← hold.2]
      exact ⟨_, rfl, rfl, rfl⟩

/-- A boot with the superblock of the save that is a success has restored its payload. -/
theorem SavedAs.restored {es : List Entry} {old : Super} {m : System}
    (hsaved : SavedAs sys sys' es old) (hnext : NextBoot env' ready' sys' next)
    (hsel : Selects ready' next sys'.persist)
    (hloaded : persistMount env' ready' next = some (.loaded, m)) :
    ∃ p a, old.finish (restore env' (next.accepting p a) old
      (payloadSectors sys'.ata.media sys'.persist old)) = some (.loaded, m) := by
  have hold := hsaved.holds.isSuper
  rw [← hnext.media] at hold
  rcases mount_found env' hnext.medium hsaved.place hsel hold hsaved.covers.magic with
    ⟨m', herror, -⟩ | ⟨-, -, p, a, hfound⟩
  · rw [hloaded, Option.some.injEq, Prod.mk.injEq] at herror
    exact absurd herror.1 (by decide)
  · rw [hnext.media, hloaded] at hfound
    exact ⟨p, a, hfound.symm⟩

/-- With the right counts, a mount fails or restores what the superblock of the save restores. -/
theorem SavedAs.same {es : List Entry} {old : Super} {m : System}
    (hsaved : SavedAs sys sys' es old) (hnext : NextBoot env' ready' (sys'.withSuper sector) next)
    (hsel : Selects ready' next sys'.persist) (hsel₀ : Selects ready' (next.withDisks sys') sys'.persist)
    (hmagic : (Super.decode sector.val).magic = magicBytes)
    (husers : (Super.decode sector.val).userCount = old.userCount)
    (hnodes : (Super.decode sector.val).nodeCount = old.nodeCount)
    (hloaded : persistMount env' ready' (next.withDisks sys') = some (.loaded, m)) :
    (∃ m', persistMount env' ready' next = some (.error, m')) ∨
      ∃ m', persistMount env' ready' next = some (.loaded, m') ∧ m'.fs = m.fs ∧
        m'.table = m.table := by
  obtain ⟨p₀, a₀, hold⟩ := hsaved.restored hnext.withDisks hsel₀ hloaded
  rcases mount_found env' hnext.medium hsaved.place hsel (by rw [hnext.super]) hmagic with
    ⟨m', herror, -⟩ | ⟨hread, -, p, a, hfound⟩
  · exact Or.inl ⟨m', herror⟩
  rw [hnext.payload] at hfound
  rw [hfound]
  have hrecords : (Reader.start old (payloadSectors sys'.ata.media sys'.persist old)).left =
      records (accounts sys.table) es := hsaved.holds.isPayload
  have hmax : old.payloadBytes ≤ maxPayload := hsaved.covers.payloadBytes ▸ hsaved.length
  have hus : ∀ u ∈ accounts sys.table, Recordable u := fun u hu => hsaved.users.recordable hu
  rw [hsaved.covers.userCount] at husers
  rw [hsaved.covers.nodeCount] at hnodes
  rcases Nat.le_total (Super.decode sector.val).payloadBytes old.payloadBytes with hle | hle
  · obtain ⟨more, hlonger⟩ := start_longer sys'.ata.media sys'.persist hle hmax
    have hq : (Reader.start old (payloadSectors sys'.ata.media sys'.persist old)).left =
        records (accounts sys.table) es ++ [] := by
      rw [List.append_nil]
      exact hrecords
    have hfs : ((next.withDisks sys').accepting p₀ a₀).fs = (next.accepting p a).fs := rfl
    have htable : ((next.withDisks sys').accepting p₀ a₀).table = (next.accepting p a).table := rfl
    rcases restore_longer env' hfs htable hlonger hus hsaved.entries hq husers hnodes
        hsaved.covers.userCount hsaved.covers.nodeCount with
      ⟨-, r', x, hshort, hbad⟩ | ⟨r', q', o, hr, hq', hgood⟩
    · rw [hshort]
      exact Or.inl (Super.finish_error hbad)
    · rw [hq'] at hold
      rw [hr]
      exact Or.inr (Super.finish_same hold fun hne => (hgood hne).1)
  · obtain ⟨more, hlonger⟩ := start_longer sys'.ata.media sys'.persist hle hread.le
    have hq : (Reader.start (Super.decode sector.val)
        (payloadSectors sys'.ata.media sys'.persist (Super.decode sector.val))).left =
        records (accounts sys.table) es ++ more := by
      rw [hlonger.left, hrecords]
    have hfs : (next.accepting p a).fs = ((next.withDisks sys').accepting p₀ a₀).fs := rfl
    have htable : (next.accepting p a).table = ((next.withDisks sys').accepting p₀ a₀).table := rfl
    rcases restore_longer env' hfs htable hlonger hus hsaved.entries hq
        hsaved.covers.userCount hsaved.covers.nodeCount husers hnodes with
      ⟨hshort, -⟩ | ⟨r', q', o, hr, hq', hgood⟩
    · rw [hrecords] at hshort
      exact absurd hshort (Nat.lt_irrefl _)
    · rw [hr] at hold
      rw [hq']
      exact Or.inr (Super.finish_same hold fun hne => (hgood hne).2)

/-- With more nodes than were saved, a mount comes to the end of the payload and fails. -/
theorem SavedAs.raised {es : List Entry} {old : Super} {m : System}
    (hsaved : SavedAs sys sys' es old) (hnext : NextBoot env' ready' (sys'.withSuper sector) next)
    (hsel : Selects ready' next sys'.persist) (hsel₀ : Selects ready' (next.withDisks sys') sys'.persist)
    (hmagic : (Super.decode sector.val).magic = magicBytes)
    (husers : (Super.decode sector.val).userCount = old.userCount)
    (hnodes : old.nodeCount < (Super.decode sector.val).nodeCount)
    (hle : (Super.decode sector.val).payloadBytes ≤ old.payloadBytes)
    (hloaded : persistMount env' ready' (next.withDisks sys') = some (.loaded, m)) :
    ∃ m', persistMount env' ready' next = some (.error, m') := by
  obtain ⟨p₀, a₀, hold⟩ := hsaved.restored hnext.withDisks hsel₀ hloaded
  rcases mount_found env' hnext.medium hsaved.place hsel (by rw [hnext.super]) hmagic with
    ⟨m', herror, -⟩ | ⟨hread, -, p, a, hfound⟩
  · exact ⟨m', herror⟩
  rw [hnext.payload] at hfound
  rw [hfound]
  have hrecords : (Reader.start old (payloadSectors sys'.ata.media sys'.persist old)).left =
      records (accounts sys.table) es := hsaved.holds.isPayload
  have hmax : old.payloadBytes ≤ maxPayload := hsaved.covers.payloadBytes ▸ hsaved.length
  rw [hsaved.covers.userCount] at husers
  rw [hsaved.covers.nodeCount] at hnodes
  obtain ⟨more, hlonger⟩ := start_longer sys'.ata.media sys'.persist hle hmax
  have hfs : ((next.withDisks sys').accepting p₀ a₀).fs = (next.accepting p a).fs := rfl
  have htable : ((next.withDisks sys').accepting p₀ a₀).table = (next.accepting p a).table := rfl
  have hdone : (restore env' ((next.withDisks sys').accepting p₀ a₀) old
      (payloadSectors sys'.ata.media sys'.persist old)).2 ≠ none := by
    intro hnone
    rcases hrestore : restore env' ((next.withDisks sys').accepting p₀ a₀) old
      (payloadSectors sys'.ata.media sys'.persist old) with ⟨r, o⟩
    rw [hrestore] at hold hnone
    obtain rfl : o = none := hnone
    simp [Super.finish] at hold
  obtain ⟨r', x, hr, hbad⟩ := restore_raised hfs htable hlonger
    (fun u hu => hsaved.users.recordable hu) hsaved.entries hrecords husers hnodes
    hsaved.covers.userCount hsaved.covers.nodeCount hdone
  rw [hr]
  exact Super.finish_error hbad

/-- With fewer accounts than were saved, a mount takes the first one that is left out for a node.
A name of two letters or a home is no length of a path. -/
theorem SavedAs.lowered {es : List Entry} {old : Super} {u : User}
    (hsaved : SavedAs sys sys' es old) (hnext : NextBoot env' ready' (sys'.withSuper sector) next)
    (hsel : Selects ready' next sys'.persist)
    (hmagic : (Super.decode sector.val).magic = magicBytes)
    (hu : (accounts sys.table)[(Super.decode sector.val).userCount]? = some u)
    (hlong : 2 ≤ u.name.length ∨ u.home ≠ []) (hnodes : 0 < (Super.decode sector.val).nodeCount) :
    ∃ m, persistMount env' ready' next = some (.error, m) := by
  rcases mount_found env' hnext.medium hsaved.place hsel (by rw [hnext.super]) hmagic with
    ⟨m', herror, -⟩ | ⟨hread, -, p, a, hfound⟩
  · exact ⟨m', herror⟩
  rw [hnext.payload] at hfound
  obtain ⟨us, vs, hsplit, hcount⟩ : ∃ us vs, accounts sys.table = us ++ u :: vs ∧
      us.length = (Super.decode sector.val).userCount := by
    obtain ⟨hlt, hget⟩ := List.getElem?_eq_some_iff.mp hu
    refine ⟨(accounts sys.table).take (Super.decode sector.val).userCount,
      (accounts sys.table).drop ((Super.decode sector.val).userCount + 1), ?_,
      List.length_take_of_le (Nat.le_of_lt hlt)⟩
    rw [← hget, ← List.drop_eq_getElem_cons hlt, List.take_append_drop]
  have hus : ∀ v ∈ us ++ u :: vs, Recordable v :=
    fun v hv => hsaved.users.recordable (hsplit ▸ hv)
  have hrecords : (Reader.start old (payloadSectors sys'.ata.media sys'.persist old)).left =
      (us ++ u :: vs).flatMap userRecord ++ es.flatMap Entry.bytes := by
    rw [← hsplit]
    exact hsaved.holds.isPayload
  have hmax : old.payloadBytes ≤ maxPayload := hsaved.covers.payloadBytes ▸ hsaved.length
  obtain ⟨n, hn⟩ := Nat.exists_eq_add_of_le' hnodes
  obtain ⟨t, s, -, hrestore⟩ := restore_standing env'
    (show Standing (next.accepting p a).fs from hnext.standing.time _) (Super.decode sector.val)
    (payloadSectors sys'.ata.media sys'.persist (Super.decode sector.val))
  have hfails : ∃ r', mountNodes env' (n + 1) (skipUsers us.length (.start (Super.decode sector.val)
      (payloadSectors sys'.ata.media sys'.persist (Super.decode sector.val)))) s = (r', some s) ∧
        r'.bad = true := by
    rcases Nat.le_total (Super.decode sector.val).payloadBytes old.payloadBytes with hle | hle
    · obtain ⟨more, hlonger⟩ := start_longer sys'.ata.media sys'.persist hle hmax
      exact mountNodes_account hlonger rfl hus hlong hrecords n s
    · obtain ⟨more, hlonger⟩ := start_longer sys'.ata.media sys'.persist hle hread.le
      have hself : Longer [] (Reader.start (Super.decode sector.val)
          (payloadSectors sys'.ata.media sys'.persist (Super.decode sector.val)))
          (Reader.start (Super.decode sector.val)
            (payloadSectors sys'.ata.media sys'.persist (Super.decode sector.val))) :=
        ⟨hlonger.ok', hlonger.ok', rfl, (List.append_nil _).symm⟩
      have hleft := hlonger.left
      rw [hrecords, List.append_assoc] at hleft
      exact mountNodes_account hself rfl hus hlong hleft n s
  obtain ⟨r', hfail, hbad⟩ := hfails
  rw [hn, ← hcount, hfail] at hrestore
  rw [hfound, hrestore]
  exact Super.finish_error hbad

/-- A save of nothing gives nothing. -/
theorem SavedAs.nothing {old : Super} (hsaved : SavedAs sys sys' [] old)
    (hnone : accounts sys.table = []) (hnext : NextBoot env' ready' (sys'.withSuper sector) next)
    (hsel : Selects ready' next sys'.persist)
    (hmagic : (Super.decode sector.val).magic = magicBytes)
    (husers : (Super.decode sector.val).userCount = old.userCount)
    (hnodes : (Super.decode sector.val).nodeCount = old.nodeCount) :
    (∃ m, persistMount env' ready' next = some (.error, m)) ∨ Restored env' ready' next [] .nil := by
  rcases mount_found env' hnext.medium hsaved.place hsel (by rw [hnext.super]) hmagic with
    ⟨m', herror, -⟩ | ⟨hread, -, p, a, hfound⟩
  · exact Or.inl ⟨m', herror⟩
  rw [hsaved.covers.userCount, hnone] at husers
  rw [hsaved.covers.nodeCount] at hnodes
  obtain ⟨root, kids, hinv⟩ := hnext.tree
  have hinv' : TreeInv (next.accepting p a).fs root kids := hinv.congr rfl rfl rfl rfl
  obtain ⟨s, hreset, hs, -⟩ := hinv'.fsReset env'
  unfold restore at hfound
  rw [hreset, husers, hnodes] at hfound
  refine Or.inr ⟨_, root, Forest.nil, hfound, hs, rfl, ?_⟩
  show accounts next.table = []
  rw [hnext.table]
  rfl

/-! ## What is checked -/

/-- What a mount makes of `new` in the place of the superblock of a save: what its fields say
about the payload is checked, a blank disk is left alone, and with the counts of the save
nothing else is restored than what was saved. -/
structure Checked (env : Env) (ready : Nat → Bool) (sys' next : System) (us : List User) (f : Files)
    (new : Super) : Prop where
  refused : new.magic = magicBytes →
    (Readable new → (checksum ((payloadSectors sys'.ata.media sys'.persist new).take
      new.payloadBytes)).toNat ≠ new.checksum) →
    ∃ m, persistMount env ready next = some (.error, m) ∧ Untouched next m
  saved : new.magic = magicBytes → new.userCount = sys'.super.userCount →
    new.nodeCount = sys'.super.nodeCount → f.Carried [] →
    (∃ m, persistMount env ready next = some (.error, m)) ∨ Restored env ready next us f
  same : new.magic = magicBytes → new.userCount = sys'.super.userCount →
    new.nodeCount = sys'.super.nodeCount → ∀ m,
    persistMount env ready (next.withDisks sys') = some (.loaded, m) →
    (∃ m', persistMount env ready next = some (.error, m')) ∨
      ∃ m', persistMount env ready next = some (.loaded, m') ∧ m'.fs = m.fs ∧ m'.table = m.table
  raised : new.magic = magicBytes → new.userCount = sys'.super.userCount →
    sys'.super.nodeCount < new.nodeCount → new.payloadBytes ≤ sys'.super.payloadBytes → ∀ m,
    persistMount env ready (next.withDisks sys') = some (.loaded, m) →
    ∃ m', persistMount env ready next = some (.error, m')
  lowered : new.magic = magicBytes → 0 < new.nodeCount → ∀ u, us[new.userCount]? = some u →
    2 ≤ u.name.length ∨ u.home ≠ [] → ∃ m, persistMount env ready next = some (.error, m)
  blank : new.magic ≠ magicBytes →
    (∀ p, AtPlace p → p.dataDrive ≠ sys'.persist.dataDrive →
      ¬HasMagic next.ata.media p.dataDrive p.dataBase) →
    ∃ st m, persistMount env ready next = some (st, m) ∧ (st = .empty ∨ st = .noDisk) ∧
      Untouched next m

/-- **Another superblock is refused, or restores what was saved**, as long as the magic and the
counts are those of the save. -/
theorem superblock_checked (hready : ∀ t, ready t = true) (hsession : Session env ready boot sys)
    (hreached : Reached env sys.table sys.fs) (hstate : sys.persist.state ≠ .noDisk)
    (hsave : persistSave env ready sys = some (0, sys')) (hinv : TreeInv sys.fs root kids)
    (hnext : NextBoot env' ready' (sys'.withSuper sector) next) :
    Checked env' ready' sys' next (accounts sys.table) (files sys.fs kids)
      (Super.decode sector.val) := by
  have hsane := hreached.sane
  obtain ⟨s, hsnodes, hsbufs, hinv', -, old, hsaved⟩ := saved_as hsession hsane hstate hsave hinv
  have hold : sys'.super = old := hsaved.holds.isSuper
  have hbefore := hnext.withDisks
  have hsel₀ := selects_next hready hsession hstate hsave hbefore
  have hsel := selects_super hready hsession hstate hsave hnext
  constructor
  case refused =>
    intro hmagic hrefused
    rcases mount_found env' hnext.medium hsaved.place (hsel hmagic) (by rw [hnext.super]) hmagic with
      herror | ⟨hread, hsum, -⟩
    · exact herror
    · rw [hnext.payload] at hsum
      exact absurd hsum (hrefused hread)
  case same =>
    intro hmagic husers hnodes m hloaded
    rw [hold] at husers hnodes
    exact hsaved.same hnext (hsel hmagic) hsel₀ hmagic husers hnodes hloaded
  case saved =>
    intro hmagic husers hnodes hcarried
    rw [hold] at husers hnodes
    by_cases hne : accounts sys.table ≠ [] ∨ files sys.fs kids ≠ .nil
    · obtain ⟨m, root', kids', hloaded, hm, hfiles, haccounts⟩ :=
        saved_restored hready hsession hsane hstate hsave hinv hne hcarried hbefore
      rcases hsaved.same hnext (hsel hmagic) hsel₀ hmagic husers hnodes hloaded with
        herror | ⟨m', hloaded', hfs, htable⟩
      · exact Or.inl herror
      · refine Or.inr ⟨m', root', kids', hloaded', ?_, ?_, ?_⟩
        · rw [hfs]
          exact hm
        · rw [hfs]
          exact hfiles
        · rw [htable]
          exact haccounts
    · rw [not_or, not_not, not_not] at hne
      obtain ⟨hnone, hnil⟩ := hne
      have hlist : listing s kids = [] := by
        have hfiles := files_congr hsnodes hsbufs kids
        rw [← hfiles] at hcarried hnil
        rw [hinv'.listing_eq kids hinv'.rep.2.2.1 hinv'.kids_ids.1 (.root hinv'.isRoot) hcarried,
          hnil]
        rfl
      rw [hlist] at hsaved
      rw [hnone, hnil]
      exact hsaved.nothing hnone hnext (hsel hmagic) hmagic husers hnodes
  case raised =>
    intro hmagic husers hnodes hle m hloaded
    rw [hold] at husers hnodes hle
    exact hsaved.raised hnext (hsel hmagic) hsel₀ hmagic husers hnodes hle hloaded
  case lowered =>
    intro hmagic hnodes u hu hlong
    exact hsaved.lowered hnext (hsel hmagic) hmagic hu hlong hnodes
  case blank =>
    intro hmagic hother
    have hhere : ¬HasMagic next.ata.media sys'.persist.dataDrive sys'.persist.dataBase := by
      unfold HasMagic
      rw [hnext.super]
      exact hmagic
    have hnowhere : ∀ p, AtPlace p → ¬HasMagic next.ata.media p.dataDrive p.dataBase := by
      intro p hp
      by_cases hdrive : p.dataDrive = sys'.persist.dataDrive
      · rcases hp with ⟨hd, hb⟩ | ⟨hd, hb⟩
        · rcases hsaved.place with ⟨hd', hb'⟩ | ⟨hd', -⟩
          · rw [hdrive, hb, ← hb']
            exact hhere
          · rw [hd, hd'] at hdrive
            exact Drive.noConfusion hdrive
        · rcases hsaved.place with ⟨hd', -⟩ | ⟨-, hb'⟩
          · rw [hd, hd'] at hdrive
            exact Drive.noConfusion hdrive
          · rw [hdrive, hb, ← hb']
            exact hhere
      · exact hother p hp hdrive
    exact mount_blank env' hnext.ready hnext.medium
      (hnowhere { dataDrive := .slave, dataBase := 0 } (Or.inl ⟨rfl, rfl⟩))
      (hnowhere { dataDrive := .master, dataBase := installDataLba } (Or.inr ⟨rfl, rfl⟩))

theorem superblock_checked_skeleton : ∃ sys sys' root kids,
    Session .ample (fun _ => true) (freshBoot fun _ => Sector.ofBytes []) sys ∧
      persistSave .ample (fun _ => true) sys = some (0, sys') ∧ TreeInv sys.fs root kids ∧
      ∀ sector, Checked .ample (fun _ => true) sys' (sys'.withSuper sector).again
        (accounts sys.table) (files sys.fs kids) (Super.decode sector.val) := by
  have h : ((persistMount .ample (fun _ => true) (freshBoot fun _ => Sector.ofBytes [])).bind
      fun r => (persistSave .ample (fun _ => true)
        { r.2 with fs := skeleton, table := usersInit }).map
          fun q => (q.1, decide (r.2.persist.state = .noDisk))) = some (0, false) := by
    decide +kernel
  have hreached := skeleton_reached
  obtain ⟨root, kids, hinv, -⟩ := skeleton_standing
  generalize skeleton = s at h hreached hinv
  simp only [Option.bind_eq_some_iff, Option.map_eq_some_iff, Prod.mk.injEq,
    decide_eq_false_iff_not] at h
  obtain ⟨⟨st, m⟩, hmount, ⟨res, sys'⟩, hsave, rfl, hstate⟩ := h
  have hsession := (Session.mount hmount).work s usersInit
  exact ⟨_, sys', root, kids, hsession, hsave, hinv, fun sector =>
    superblock_checked (fun _ => rfl) hsession hreached hstate hsave hinv
      (sys'.withSuper sector).again_next⟩

/-- The superblock without its magic. -/
def System.unmarked (sys : System) : Sector :=
  Sector.ofBytes { sys.super with magic := List.replicate 8 0 }.encode

/-- The superblock with one node only. -/
def System.fewer (sys : System) : Sector := Sector.ofBytes { sys.super with nodeCount := 1 }.encode

/-- The superblock with no accounts. -/
def System.nobody (sys : System) : Sector := Sector.ofBytes { sys.super with userCount := 0 }.encode

/-- An administrator who removed the whole tree. -/
def emptied : Option (Table × Fs) :=
  (accountStep .ample usersInit skeleton (.add true alice secret true)).bind fun r =>
    (["/bin", "/etc", "/dev", "/tmp", "/home", "/root"].foldlM
      (fun s path => (fsRemove s (ofString path)).map Prod.snd) r.2.2).map fun s => (r.2.1, s)

/-- Without the magic the disk counts as blank, and a count that is too small is believed: fewer
nodes, and in front of an empty tree fewer accounts. -/
theorem superblock_believed : (∃ sys sys' m m',
    Session .ample (fun _ => true) (freshBoot fun _ => Sector.ofBytes []) sys ∧
      persistSave .ample (fun _ => true) sys = some (0, sys') ∧
      persistMount .ample (fun _ => true) (sys'.withSuper sys'.unmarked).again =
        some (.empty, m) ∧
      persistMount .ample (fun _ => true) (sys'.withSuper sys'.fewer).again = some (.loaded, m') ∧
      m'.fs.nodeCount < sys.fs.nodeCount) ∧
    ∃ t s sys sys' m, emptied = some (t, s) ∧ sys.table = t ∧ sys.fs = s ∧
      Session .ample (fun _ => true) (freshBoot fun _ => Sector.ofBytes []) sys ∧
      persistSave .ample (fun _ => true) sys = some (0, sys') ∧
      persistMount .ample (fun _ => true) (sys'.withSuper sys'.nobody).again = some (.loaded, m) ∧
      (accounts m.table).length < (accounts sys.table).length := by
  have h : ((persistMount .ample (fun _ => true) (freshBoot fun _ => Sector.ofBytes [])).bind
      fun r => (persistSave .ample (fun _ => true)
        { r.2 with fs := skeleton, table := usersInit }).bind fun q =>
          (persistMount .ample (fun _ => true) (q.2.withSuper q.2.unmarked).again).bind fun b =>
            (persistMount .ample (fun _ => true) (q.2.withSuper q.2.fewer).again).map fun m =>
              (q.1, b.1, m.1, decide (m.2.fs.nodeCount < skeleton.nodeCount))) =
      some (0, .empty, .loaded, true) := by
    decide +kernel
  have h' : (emptied.bind fun a => (persistMount .ample (fun _ => true)
      (freshBoot fun _ => Sector.ofBytes [])).bind fun r => (persistSave .ample (fun _ => true)
        { r.2 with fs := a.2, table := a.1 }).bind fun q =>
          (persistMount .ample (fun _ => true) (q.2.withSuper q.2.nobody).again).map fun m =>
            (q.1, m.1, decide ((accounts m.2.table).length < (accounts a.1).length))) =
      some (0, .loaded, true) := by
    decide +kernel
  generalize skeleton = s at h
  simp only [Option.bind_eq_some_iff, Option.map_eq_some_iff, Prod.mk.injEq,
    decide_eq_true_eq] at h h'
  refine ⟨?_, ?_⟩
  · obtain ⟨⟨st, r⟩, hmount, ⟨res, sys'⟩, hsave, ⟨st₁, m⟩, hblank, ⟨st₂, m'⟩, hfewer, rfl, rfl, rfl,
      hlost⟩ := h
    exact ⟨_, sys', m, m', (Session.mount hmount).work s usersInit, hsave, hblank, hfewer, hlost⟩
  · obtain ⟨⟨t, s⟩, hempty, ⟨st, r⟩, hmount, ⟨res, sys'⟩, hsave, ⟨st₁, m⟩, hnobody, rfl, rfl,
      hlost⟩ := h'
    exact ⟨t, s, _, sys', m, hempty, rfl, rfl, (Session.mount hmount).work s t, hsave, hnobody,
      hlost⟩

end LightningOS.Persist
