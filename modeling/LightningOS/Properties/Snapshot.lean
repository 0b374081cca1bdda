import LightningOS.Properties.Capacity
import LightningOS.Properties.Mount

/-!
# What a save leaves for the next boot

A save that returns 0 has put a superblock and a payload on the disk, and a boot that finds
the drives as they are looks at that place. What it reads there are the same superblock and
the same payload.
-/

namespace LightningOS.Persist

open ByteMemory CString Ramfs Users Ata

variable {env env' : Env} {ready ready' : Nat → Bool}

/-! ## Superblocks -/

/-- The numbers fit into their fields. -/
structure Super.Ok (super : Super) : Prop where
  magic : super.magic.length = 8
  version : super.version < 4294967296
  payloadBytes : super.payloadBytes < 4294967296
  nodeCount : super.nodeCount < 4294967296
  userCount : super.userCount < 4294967296
  checksum : super.checksum < 4294967296
  saves : super.saves < 4294967296

/-- A word among words. -/
theorem le32At_words {post : List UInt8} : ∀ {words : List Nat} {pre : List UInt8} {off i n : Nat},
    words[i]? = some n → n < 4294967296 → pre.length + 4 * i = off →
      le32At (pre ++ words.flatMap le32 ++ post) off = n
  | [], _, _, _, _, h, _, _ => by simp at h
  | word :: words, pre, off, 0, n, h, hn, hoff => by
    obtain rfl := Option.some.inj h
    obtain rfl := hoff
    rw [List.flatMap_cons, List.append_assoc, List.append_assoc, le32At, Nat.mul_zero, Nat.add_zero,
      List.drop_left, List.take_left' (le32_length word), leValue_le32 hn]
  | word :: words, pre, off, i + 1, n, h, hn, hoff => by
    rw [List.flatMap_cons, ← List.append_assoc]
    have hword : words[i]? = some n := h
    refine le32At_words hword hn ?_
    rw [List.length_append, le32_length]
    omega

theorem Super.encode_take {super : Super} (h : super.magic.length = 8) :
    super.encode.take 8 = super.magic := by
  simp only [Super.encode, List.append_assoc]
  exact List.take_left' h

/-- A superblock is read as it was written. -/
theorem Super.decode_encode {super : Super} (h : super.Ok) : Super.decode super.encode = super := by
  obtain ⟨words, hwords⟩ : ∃ words, words = [super.version, super.payloadBytes, super.nodeCount,
    super.userCount, super.checksum, super.saves] := ⟨_, rfl⟩
  have hencode : super.encode = super.magic ++ words.flatMap le32 ++ List.replicate 480 0 := by
    rw [hwords]
    simp only [Super.encode, List.flatMap_cons, List.flatMap_nil, List.append_assoc,
      List.append_nil]
  have hword : ∀ {i n : Nat}, words[i]? = some n → n < 4294967296 →
      le32At super.encode (8 + 4 * i) = n := by
    intro i n hi hn
    rw [hencode]
    exact le32At_words hi hn (by rw [h.magic])
  rw [hwords] at hword
  unfold Super.decode
  rw [Super.encode_take h.magic, @hword 0 super.version rfl h.version, @hword 1 super.payloadBytes rfl h.payloadBytes,
    @hword 2 super.nodeCount rfl h.nodeCount, @hword 3 super.userCount rfl h.userCount,
    @hword 4 super.checksum rfl h.checksum, @hword 5 super.saves rfl h.saves]

/-! ## What a save leaves -/

theorem newSuper_ok {p : Vars} {payload : List UInt8} {users nodes : Nat}
    (hlen : payload.length ≤ maxPayload) (husers : users < 4294967296)
    (hnodes : nodes < 4294967296) : (newSuper p payload users nodes).Ok := by
  have hfull : maxPayload = 1048576 := rfl
  exact ⟨rfl, by show persistVersion < _; decide, by show payload.length < _; omega, hnodes, husers,
    (checksum payload).toNat_lt, Nat.mod_lt _ (by decide)⟩

/-- Where a snapshot is, and what is there. -/
structure Holds (media : Drive → Nat → Sector) (p : Vars) (super : Super) (payload : List UInt8) :
    Prop where
  isSuper : Super.decode (media p.dataDrive p.dataBase).val = super
  isPayload : (payloadSectors media p super).take super.payloadBytes = payload

/-- A save that returns 0 and is not for nothing has encoded accounts and tree, and written
them. There was room for that. -/
theorem persistSave_saved {sys sys' : System} (hp : AtPlace sys.persist)
    (hstate : sys.persist.state ≠ .noDisk) (h : persistSave env ready sys = some (0, sys')) :
    ∃ w users nodes, encodeAll (sys.buffered env).fs sys.table = some (w, users, nodes) ∧
      w.overflow = false ∧ w.buffer.length ≤ maxPayload ∧ SameSession sys sys' ∧
      sys'.ata.media = snapshotWritten (sys.buffered env) w.buffer users nodes ∧
      writeSnapshot ready (sys.buffered env) w.buffer users nodes = (0, sys') := by
  have hsession := persistSave_session ready hp h
  rcases persistSave_cases ready h with ⟨hres, -⟩ | ⟨-, -, -, w, users, nodes, hencode, hfits, hlen, hw⟩
  · exfalso
    rcases hres with ⟨-, hres⟩ | ⟨hno, -⟩ | hres | hres
    · simp at hres
    · exact hstate hno
    · simp at hres
    · simp at hres
  · obtain ⟨res, sys₁, hw', -, -, -, hcase⟩ :=
      @writeSnapshot_spec ready (sys.buffered env) w.buffer users nodes hp hlen
    rw [hw] at hw'
    obtain ⟨rfl, rfl⟩ := Prod.mk.inj hw'
    rcases hcase with ⟨hres, -⟩ | ⟨k, -, -, hall, hmedia⟩
    · simp at hres
    · obtain rfl := hall rfl
      exact ⟨w, users, nodes, hencode, hfits, hlen, hsession, hmedia, hw⟩

/-- The payload can be read back. -/
theorem snapshotWritten_holds (sys : System) {w : Writer} {users nodes : Nat}
    (hlen : w.buffer.length ≤ maxPayload) (husers : users ≤ userMax) (hnodes : nodes ≤ maxPayload) :
    Holds (snapshotWritten sys w.buffer users nodes) sys.persist
      (newSuper sys.persist w.buffer users nodes) w.buffer := by
  have hfull : maxPayload = 1048576 := rfl
  have hmax : userMax = 8 := rfl
  have hsuper := snapshotWritten_super sys w.buffer users nodes
  have hpayload := snapshotWritten_payload sys users nodes hlen
  refine ⟨by rw [hsuper, Super.decode_encode (newSuper_ok hlen (by omega) (by omega))], ?_⟩
  show (sectorsAt _ _ (sectorsFor w.buffer.length)).take w.buffer.length = w.buffer
  by_cases hzero : sectorsFor w.buffer.length = 0
  · -- nothing was saved
    have hle := le_sectorsFor hlen
    rw [hzero, Nat.zero_mul, Nat.le_zero, List.length_eq_zero_iff] at hle
    rw [hle]
    rfl
  · rw [payloadCount, if_neg hzero] at hpayload
    rw [hpayload, payloadImage, List.take_left]

theorem Session.room {boot sys sys' : System} (h : Session env ready boot sys)
    (hstate : sys.persist.state ≠ .noDisk) {payload : List UInt8} {users nodes : Nat}
    (hlen : payload.length ≤ maxPayload)
    (hw : writeSnapshot ready (sys.buffered env) payload users nodes = (0, sys')) :
    sys.persist.dataBase + 1 + payloadCount payload.length ≤
      (sys.ata.size sys.persist.dataDrive).toNat := by
  obtain ⟨hdrives, hp⟩ := Session.place ready h
  by_contra hlt
  obtain ⟨sys₁, hw', -⟩ := @writeSnapshot_bounds ready (sys.buffered env) payload users nodes
    (hp.resolve_left hstate) hlen hdrives (h.present hstate) (Nat.lt_of_not_le hlt)
  rw [hw] at hw'
  simp at hw'

/-! ## Where the next boot looks -/

/-- The place that a mount of `boot` chooses. -/
def Selects (ready : Nat → Bool) (boot : System) (p : Vars) : Prop :=
  ∃ p' a, chooseLocation ready { boot.persist with isSealed := false }
    (ataInit ready boot.ata) = (true, p', a) ∧ p'.dataDrive = p.dataDrive ∧
      p'.dataBase = p.dataBase

/-- A session on drives that answer is on the boot disk only if the other disk has no snapshot. -/
theorem Session.noElder (hready : ∀ t, ready t = true) {boot sys : System}
    (h : Session env ready boot sys) (hstate : sys.persist.state ≠ .noDisk)
    (hmaster : sys.persist.dataDrive = .master) : ¬SnapshotAt sys.ata .slave 0 := by
  induction h with
  | @mount st sys h =>
    have hm := persistMount_mounted ready h
    rw [hm.state] at hstate
    obtain ⟨p, a, hchoose, hdrive, -⟩ := persistMount_place h hstate
    obtain ⟨ok, p', a', hchoose', -, -, -, hwhere⟩ :=
      chooseLocation_spec ready { boot.persist with isSealed := false } (ataInit ready boot.ata)
    rw [hchoose, Prod.mk.injEq, Prod.mk.injEq] at hchoose'
    obtain ⟨rfl, rfl, rfl⟩ := hchoose'
    intro hsnap
    -- the mount would have taken the other disk
    have hsnap' : SnapshotAt (ataInit ready boot.ata) .slave 0 := by
      unfold SnapshotAt at hsnap ⊢
      rw [← hm.disks.size, ← hm.disks.media]
      exact hsnap
    have hslave := ((hwhere (ataInit_healthy hready boot.ata)).1 hsnap').2.1
    rw [← hdrive, hmaster] at hslave
    simp at hslave
  | @step s₁ s₂ op hsession hstep ih =>
    have hstate₁ : s₁.persist.state ≠ .noDisk := fun hno => hstate (step_noDisk _ hno hstep).1
    have hp := (Session.place ready hsession).2.resolve_left hstate₁
    have hsame := step_sameBoot ready hp hstep
    have hmaster₁ : s₁.persist.dataDrive = .master := hsame.drive ▸ hmaster
    have hno := ih hstate₁ hmaster₁
    have hslave : s₂.ata.media .slave 0 = s₁.ata.media .slave 0 := by
      by_contra hne
      have harea := (step_area hp hstep hne).1
      rw [hmaster₁] at harea
      simp at harea
    unfold SnapshotAt HasMagic at hno ⊢
    rw [hsame.drives.size, hslave]
    exact hno

/-- A save leaves a superblock of ours. -/
theorem hasMagic_saved {sys sys' : System} (hp : AtPlace sys.persist)
    (hstate : sys.persist.state ≠ .noDisk) (hsave : persistSave env ready sys = some (0, sys')) :
    HasMagic sys'.ata.media sys'.persist.dataDrive sys'.persist.dataBase := by
  obtain ⟨w, users, nodes, -, -, -, hsame, hmedia, -⟩ := persistSave_saved hp hstate hsave
  have hsuper : (sys'.ata.media sys.persist.dataDrive sys.persist.dataBase).val =
      (newSuper (sys.buffered env).persist w.buffer users nodes).encode := by
    rw [hmedia]
    exact snapshotWritten_super (sys.buffered env) w.buffer users nodes
  unfold HasMagic
  rw [hsame.drive, hsame.base, hsuper]
  exact Super.encode_take rfl

/-- A boot with the same drives looks at the place of a save if it finds a superblock there and
the other disk's first sector is as the save left it. -/
theorem selects_place (hready : ∀ t, ready t = true) (hready' : ∀ t, ready' t = true)
    {boot sys sys' next : System} (h : Session env ready boot sys)
    (hstate : sys.persist.state ≠ .noDisk) (hsave : persistSave env ready sys = some (0, sys'))
    (hsize : next.ata.size = sys'.ata.size)
    (hmagic : HasMagic next.ata.media sys'.persist.dataDrive sys'.persist.dataBase)
    (hslave : sys'.persist.dataDrive = .master →
      next.ata.media .slave 0 = sys'.ata.media .slave 0) :
    Selects ready' next sys'.persist := by
  have hp := (Session.place ready h).2.resolve_left hstate
  obtain ⟨w, users, nodes, -, -, hlen, hsame, -, hw⟩ := persistSave_saved hp hstate hsave
  have hroom := h.room hstate hlen hw
  have hpos := payloadCount_pos w.buffer.length
  obtain ⟨hmediaInit, hsizeInit, -, -⟩ := ataInit_spec ready' next.ata
  have hsnap : SnapshotAt (ataInit ready' next.ata) sys'.persist.dataDrive
      sys'.persist.dataBase := by
    unfold SnapshotAt
    rw [hsizeInit, hsize, hmediaInit, hsame.drives.size]
    refine ⟨?_, hmagic⟩
    rw [hsame.drive, hsame.base]
    omega
  obtain ⟨ok, p', a', hchoose, -, -, -, hwhere⟩ :=
    chooseLocation_spec ready' { next.persist with isSealed := false } (ataInit ready' next.ata)
  obtain ⟨hfirst, hsecond, -, -⟩ := hwhere (ataInit_healthy hready' next.ata)
  have hplace := hsame.atPlace hp
  rcases hplace with ⟨hdrive, hzero⟩ | ⟨hdrive, hdata⟩
  · rw [hdrive, hzero] at hsnap
    obtain ⟨rfl, hd, hb⟩ := hfirst hsnap
    exact ⟨p', a', hchoose, hd.trans hdrive.symm, hb.trans hzero.symm⟩
  · rw [hdrive, hdata] at hsnap
    have hno : ¬SnapshotAt (ataInit ready' next.ata) .slave 0 := by
      have helder := h.noElder hready hstate (hsame.drive ▸ hdrive)
      have hkept : sys'.ata.media .slave 0 = sys.ata.media .slave 0 := by
        by_contra hne
        have harea := (persistSave_area hp hsave hne).1
        rw [← hsame.drive, hdrive] at harea
        simp at harea
      unfold SnapshotAt HasMagic at helder ⊢
      rw [hsizeInit, hmediaInit, hslave hdrive, hkept, hsize, hsame.drives.size]
      exact helder
    obtain ⟨rfl, hd, hb⟩ := hsecond hno hsnap
    exact ⟨p', a', hchoose, hd.trans hdrive.symm, hb.trans hdata.symm⟩

/-- In particular if the superblock is as the save left it. -/
theorem selects_saved (hready : ∀ t, ready t = true) (hready' : ∀ t, ready' t = true)
    {boot sys sys' next : System} (h : Session env ready boot sys)
    (hstate : sys.persist.state ≠ .noDisk) (hsave : persistSave env ready sys = some (0, sys'))
    (hsize : next.ata.size = sys'.ata.size)
    (hslave : next.ata.media .slave 0 = sys'.ata.media .slave 0)
    (hbase : next.ata.media sys'.persist.dataDrive sys'.persist.dataBase =
      sys'.ata.media sys'.persist.dataDrive sys'.persist.dataBase) :
    Selects ready' next sys'.persist := by
  have hp := (Session.place ready h).2.resolve_left hstate
  refine selects_place hready hready' h hstate hsave hsize ?_ fun _ => hslave
  unfold HasMagic
  rw [hbase]
  exact hasMagic_saved hp hstate hsave

/-! ## What it finds -/

/-- A mount reads the superblock at its place, or fails to. -/
theorem mount_selected (env : Env) {next : System} {p : Vars} {super : Super}
    (hm : next.bootedFromMedium = false) (hp : AtPlace p) (hsel : Selects ready next p)
    (hsuper : Super.decode (next.ata.media p.dataDrive p.dataBase).val = super)
    (hmagic : super.magic = magicBytes) :
    (∃ m, persistMount env ready next = some (.error, m) ∧ Untouched next m) ∨
      ∃ p' a, p'.dataDrive = p.dataDrive ∧ p'.dataBase = p.dataBase ∧ a.media = next.ata.media ∧
        persistMount env ready next =
          mountSnapshot env ready { next with persist := p', ata := a } super := by
  obtain ⟨p', a, hchoose, hdrive, hbase⟩ := hsel
  obtain ⟨ok, p'', a'', hchoose', hsame, -⟩ :=
    chooseLocation_spec ready { next.persist with isSealed := false } (ataInit ready next.ata)
  rw [hchoose, Prod.mk.injEq, Prod.mk.injEq] at hchoose'
  obtain ⟨rfl, rfl, rfl⟩ := hchoose'
  have hle := hp.base_le
  have hmedia : a.media = next.ata.media := hsame.media.trans (ataInit_spec ready next.ata).1
  obtain ⟨res, a', hread, hsame', hout, -⟩ := ataRead_spec ready p'.dataDrive
    (by omega : p'.dataBase + 1 ≤ 268435456) a
  unfold persistMount
  simp only [hm, Bool.false_eq_true, if_false, hchoose, hread]
  cases res with
  | none => exact Or.inl ⟨_, rfl, ⟨next.fs.time, rfl⟩, rfl⟩
  | some bytes =>
    have hbytes := hout bytes rfl
    rw [sectorsAt_one, hmedia, hdrive, hbase] at hbytes
    refine Or.inr ⟨p', a', hdrive, hbase, hsame'.media.trans hmedia, ?_⟩
    dsimp only
    rw [hbytes, hsuper, if_neg (by simpa using hmagic)]

/-- A payload that does not have the checksum is not restored. -/
theorem mountSnapshot_mismatch {sys : System} {super : Super} (hp : AtPlace sys.persist)
    (hsum : Readable super → (checksum ((payloadSectors sys.ata.media sys.persist super).take
      super.payloadBytes)).toNat ≠ super.checksum) :
    ∃ m, mountSnapshot env ready sys super = some (.error, m) ∧ Untouched sys m := by
  unfold mountSnapshot
  by_cases hbad : super.version ≠ persistVersion ∨ super.payloadBytes = 0 ∨
      maxPayload < super.payloadBytes
  · rw [if_pos hbad]
    exact ⟨_, rfl, ⟨sys.fs.time, rfl⟩, rfl⟩
  rw [if_neg hbad]
  have hread : Readable super := ⟨by tauto, by omega, by omega⟩
  have hbase := hp.base_le
  have hcount := sectorsFor_le hread.le
  have hlba : wrap32 (sys.persist.dataBase + 1) = sys.persist.dataBase + 1 :=
    wrap32_of_lt (by omega)
  simp only [System.tmpAlloc, Fs.alloc]
  cases env.kmalloc sys.fs.time sys.fs (sectorsFor super.payloadBytes * ataSectorSize) with
  | none => exact ⟨_, rfl, ⟨sys.fs.time + 1, rfl⟩, rfl⟩
  | some d =>
    obtain ⟨res, a, hdata, -, hout, -⟩ := ataRead_spec ready sys.persist.dataDrive
      (by omega : sys.persist.dataBase + 1 + sectorsFor super.payloadBytes ≤ 268435456) sys.ata
    simp only [Option.isSome_some, hlba, hdata]
    cases res with
    | none => exact ⟨_, rfl, ⟨sys.fs.time + 1, rfl⟩, rfl⟩
    | some buffer =>
      have hbuffer : buffer = payloadSectors sys.ata.media sys.persist super := hout buffer rfl
      dsimp only
      rw [hbuffer, if_pos (hsum hread)]
      exact ⟨_, rfl, ⟨sys.fs.time + 1, rfl⟩, rfl⟩

end LightningOS.Persist
