import LightningOS.Properties.Codec
import LightningOS.Properties.Transfer

/-!
# Runs of the snapshot layer

After `persist_mount` a session is any sequence of saves, flushes, formats and work on
the tree and the accounts in memory. Here is what each of these operations can do to the
disks, and that the place of the snapshot stays what the mount chose.
-/

namespace LightningOS.Persist

open ByteMemory CString Ramfs Users Ata

/-! ## Operations -/

/-- What happens between two boots. `work` is whatever commands do in memory. -/
inductive Op where
  | save
  | markDirty
  | flush
  | format
  | work (fs : Fs) (table : Table)

variable (env : Env) (ready : Nat → Bool)

/-- One operation. `none` is a fault in the walk over the tree. -/
def step (sys : System) : Op → Option System
  | .save => (persistSave env ready sys).map Prod.snd
  | .markDirty => some (persistMarkDirty sys)
  | .flush => (persistFlush env ready sys).map Prod.snd
  | .format => some (persistFormat ready sys).2
  | .work fs table => some { sys with fs := fs, table := table }

/-- The states that operations satisfying `ok` lead to. -/
inductive Steps (ok : System → Op → Prop) (sys : System) : System → Prop
  | refl : Steps ok sys sys
  | step {s₁ s₂ : System} {op : Op} : Steps ok sys s₁ → ok s₁ op → step env ready s₁ op = some s₂ →
      Steps ok sys s₂

/-- The states of a boot session. -/
inductive Session (boot : System) : System → Prop
  | mount {st : PersistState} {sys : System} : persistMount env ready boot = some (st, sys) →
      Session boot sys
  | step {s₁ s₂ : System} {op : Op} : Session boot s₁ → step env ready s₁ op = some s₂ →
      Session boot s₂

variable {env}

/-! ## The drives -/

/-- The driver knows the true size of every drive it found. -/
def DrivesOk (a : Channel) : Prop :=
  ∀ d, ataPresent a d = true → (a.drives d).sectors = (a.size d).toNat ∧ a.size d ≠ 0

theorem DrivesOk.congr {a a' : Channel} (h : DrivesOk a) (hs : SameDrives a a') : DrivesOk a' := by
  intro d hd
  unfold ataPresent at hd
  rw [hs.drives] at hd
  rw [hs.drives, hs.size]
  exact h d hd

theorem identify_spec (a : Channel) (drive : Drive) :
    (identify ready a drive).media = a.media ∧ (identify ready a drive).size = a.size ∧
      (∀ d, d ≠ drive → (identify ready a drive).drives d = a.drives d) ∧
      ((identify ready a drive).drives drive = a.drives drive ∨
        a.size drive ≠ 0 ∧ (identify ready a drive).drives drive =
          { present := true, sectors := (a.size drive).toNat }) ∧
      ((∀ t, ready t = true) → a.size drive ≠ 0 → (identify ready a drive).drives drive =
          { present := true, sectors := (a.size drive).toNat }) := by
  by_cases h0 : a.size drive = 0
  · have heq : identify ready a drive = a := if_pos h0
    rw [heq]
    exact ⟨rfl, rfl, fun _ _ => rfl, Or.inl rfl, fun _ h => absurd h0 h⟩
  cases h1 : ready a.time with
  | false =>
    have heq : identify ready a drive = { a with time := a.time + 1 } := by
      simp [identify, Channel.wait, h0, h1]
    rw [heq]
    refine ⟨rfl, rfl, fun _ _ => rfl, Or.inl rfl, fun h _ => ?_⟩
    rw [h] at h1
    simp at h1
  | true =>
    cases h2 : ready (a.time + 1) with
    | false =>
      have heq : identify ready a drive = { a with time := a.time + 1 + 1 } := by
        simp [identify, Channel.wait, h0, h1, h2]
      rw [heq]
      refine ⟨rfl, rfl, fun _ _ => rfl, Or.inl rfl, fun h _ => ?_⟩
      rw [h] at h2
      simp at h2
    | true =>
      have heq : identify ready a drive = { a with time := a.time + 1 + 1 }.setDrive drive
          { present := true, sectors := (a.size drive).toNat } := by
        simp [identify, Channel.wait, h0, h1, h2]
      rw [heq]
      exact ⟨rfl, rfl, fun d hd => if_neg hd, Or.inr ⟨h0, if_pos rfl⟩, fun _ _ => if_pos rfl⟩

theorem ataInit_spec (a : Channel) :
    (ataInit ready a).media = a.media ∧ (ataInit ready a).size = a.size ∧
      DrivesOk (ataInit ready a) ∧
      ((∀ t, ready t = true) → ∀ d, a.size d ≠ 0 → ataPresent (ataInit ready a) d = true) := by
  obtain ⟨m1, z1, o1, d1, r1⟩ :=
    identify_spec ready { a with drives := fun _ => {} } .master
  obtain ⟨m2, z2, o2, d2, r2⟩ := identify_spec ready
    (identify ready { a with drives := fun _ => {} } .master) .slave
  have hm := o2 .master (by simp)
  have hs := o1 .slave (by simp)
  have hsize : (ataInit ready a).size = a.size := z2.trans z1
  refine ⟨m2.trans m1, hsize, ?_, ?_⟩
  · intro d hd
    rw [hsize]
    cases d with
    | master =>
      have hd' : (ataInit ready a).drives .master = _ := hm
      rcases d1 with d1 | ⟨hz, d1⟩
      · unfold ataPresent at hd
        rw [hd', d1] at hd
        simp at hd
      · rw [hd', d1]
        exact ⟨rfl, hz⟩
    | slave =>
      rcases d2 with d2 | ⟨hz, d2⟩
      · have hd' : (ataInit ready a).drives .slave = _ := d2.trans hs
        unfold ataPresent at hd
        rw [hd'] at hd
        simp at hd
      · have hd' : (ataInit ready a).drives .slave = _ := d2
        rw [z1] at hd' hz
        rw [hd']
        exact ⟨rfl, hz⟩
  · intro hr d hz
    cases d with
    | master =>
      have hd' : (ataInit ready a).drives .master = _ := hm.trans (r1 hr hz)
      unfold ataPresent
      rw [hd']
    | slave =>
      have hz' : (identify ready { a with drives := fun _ => {} } .master).size .slave ≠ 0 := by
        rw [z1]
        exact hz
      have hd' : (ataInit ready a).drives .slave = _ := r2 hr hz'
      unfold ataPresent
      rw [hd']

/-! ## Finding the snapshot -/

/-- The sector holds one of our superblocks. -/
def HasMagic (media : Drive → Nat → Sector) (drive : Drive) (base : Nat) : Prop :=
  (media drive base).val.take 8 = magicBytes

/-- A drive that is large enough carries one of our superblocks there. -/
def SnapshotAt (a : Channel) (drive : Drive) (base : Nat) : Prop :=
  base + 1 < (a.size drive).toNat ∧ HasMagic a.media drive base

/-- One of the two places a snapshot can be at. -/
def AtPlace (p : Vars) : Prop :=
  (p.dataDrive = .slave ∧ p.dataBase = 0) ∨ (p.dataDrive = .master ∧ p.dataBase = installDataLba)

theorem sectorsAt_one (media : Nat → Sector) (lba : Nat) :
    sectorsAt media lba 1 = (media lba).val := by
  simp [sectorsAt]

theorem size_pos {a : Channel} {d : Drive} (h : a.size d ≠ 0) : 0 < (a.size d).toNat := by
  rcases Nat.eq_zero_or_pos (a.size d).toNat with h0 | h0
  · exact absurd (UInt32.toNat_inj.mp h0) h
  · exact h0

/-- Drives that answer, and were all found. -/
structure Healthy (ready : Nat → Bool) (a : Channel) : Prop where
  ready : ∀ t, ready t = true
  drives : DrivesOk a
  found : ∀ d, a.size d ≠ 0 → ataPresent a d = true

variable {ready}

theorem Healthy.congr {a a' : Channel} (h : Healthy ready a) (hs : SameDrives a a') :
    Healthy ready a' := by
  refine ⟨h.ready, h.drives.congr hs, fun d hd => ?_⟩
  rw [hs.size] at hd
  have := h.found d hd
  unfold ataPresent at this ⊢
  rw [hs.drives]
  exact this

/-- Reading one sector of a healthy drive. -/
theorem Healthy.read {a : Channel} (h : Healthy ready a) {drive : Drive} {lba : Nat}
    (hlt : lba < (a.size drive).toNat) (hl : lba < 268435456) :
    ∃ a', ataRead ready a drive lba 1 = (some (a.media drive lba).val, a') ∧ SameDisks a a' := by
  obtain ⟨res, a', hread, hsame, hout, hok⟩ :=
    ataRead_spec ready drive (by omega : lba + 1 ≤ 268435456) a
  have hz : a.size drive ≠ 0 := by
    intro hz
    rw [hz] at hlt
    simp at hlt
  have hp := h.found drive hz
  have hne := hok h.ready ⟨hp, by rw [(h.drives drive hp).1]; omega⟩ (by omega)
  cases res with
  | none => exact absurd rfl hne
  | some out =>
    refine ⟨a', ?_, hsame⟩
    rw [hread, hout out rfl, sectorsAt_one]

theorem ataInit_healthy (hready : ∀ t, ready t = true) (a : Channel) :
    Healthy ready (ataInit ready a) := by
  obtain ⟨-, hsize, hdrives, hfound⟩ := ataInit_spec ready a
  exact ⟨hready, hdrives, fun d hd => hfound hready d (by rw [← hsize]; exact hd)⟩

variable (ready)

theorem probe_spec (a : Channel) (drive : Drive) {base : Nat} (hb : base < 268435456) :
    ∃ b a', probe ready a drive base = (b, a') ∧ SameDisks a a' ∧
      (Healthy ready a → (b = true ↔ SnapshotAt a drive base)) := by
  unfold probe
  by_cases hp : ataPresent a drive = false
  · refine ⟨false, a, by rw [if_pos hp], .refl a, fun h => ?_⟩
    have hz : a.size drive = 0 := by
      by_contra hz
      rw [h.found drive hz] at hp
      simp at hp
    simp [SnapshotAt, hz]
  rw [if_neg hp]
  have hp' : ataPresent a drive = true := by simpa using hp
  have hcount : ataSectorCount a drive = (a.drives drive).sectors := by
    unfold ataSectorCount
    rw [if_pos hp']
  by_cases hs : ataSectorCount a drive ≤ base + 1
  · refine ⟨false, a, by rw [if_pos hs], .refl a, fun h => ?_⟩
    rw [hcount, (h.drives drive hp').1] at hs
    simp only [SnapshotAt, Bool.false_eq_true, false_iff, not_and]
    intro hlt
    omega
  rw [if_neg hs]
  rw [hcount] at hs
  obtain ⟨res, a', hread, hsame, hout, -⟩ :=
    ataRead_spec ready drive (by omega : base + 1 ≤ 268435456) a
  rw [hread]
  cases res with
  | none =>
    refine ⟨false, a', rfl, hsame, fun h => ?_⟩
    rw [(h.drives drive hp').1] at hs
    obtain ⟨a'', hread', -⟩ := h.read (by omega : base < (a.size drive).toNat) hb
    rw [hread] at hread'
    simp at hread'
  | some bytes =>
    have hbytes := hout bytes rfl
    rw [sectorsAt_one] at hbytes
    subst hbytes
    refine ⟨_, a', rfl, hsame, fun h => ?_⟩
    rw [(h.drives drive hp').1] at hs
    constructor
    · intro hm
      have hmagic := of_decide_eq_true hm
      exact ⟨by omega, hmagic⟩
    · intro hm
      have hmagic : (Super.decode (a.media drive base).val).magic = magicBytes := hm.2
      exact decide_eq_true hmagic

/-- The place changes at most. -/
structure Placed (p p' : Vars) : Prop where
  state : p'.state = p.state
  dirty : p'.dirty = p.dirty
  isSealed : p'.isSealed = p.isSealed

theorem chooseLocation_spec (p : Vars) (a : Channel) :
    ∃ ok p' a', chooseLocation ready p a = (ok, p', a') ∧ SameDisks a a' ∧ Placed p p' ∧
      (ok = true → AtPlace p') ∧
      (Healthy ready a →
        (SnapshotAt a .slave 0 → ok = true ∧ p'.dataDrive = .slave ∧ p'.dataBase = 0) ∧
        (¬SnapshotAt a .slave 0 → SnapshotAt a .master installDataLba →
          ok = true ∧ p'.dataDrive = .master ∧ p'.dataBase = installDataLba) ∧
        (¬SnapshotAt a .slave 0 → ¬SnapshotAt a .master installDataLba → a.size .slave ≠ 0 →
          ok = true ∧ p'.dataDrive = .slave ∧ p'.dataBase = 0) ∧
        (¬SnapshotAt a .slave 0 → ¬SnapshotAt a .master installDataLba → a.size .slave = 0 →
          (ok = true ↔ installDataLba + 64 < (a.size .master).toNat) ∧
          (ok = true → p'.dataDrive = .master ∧ p'.dataBase = installDataLba))) := by
  unfold chooseLocation
  obtain ⟨b₁, a₁, hp₁, hs₁, hh₁⟩ := probe_spec ready a .slave
    (by decide : 0 < 268435456)
  rw [hp₁]
  cases b₁ with
  | true =>
    refine ⟨true, _, a₁, rfl, hs₁, ⟨rfl, rfl, rfl⟩, fun _ => Or.inl ⟨rfl, rfl⟩, fun h => ?_⟩
    have hsnap := (hh₁ h).mp rfl
    exact ⟨fun _ => ⟨rfl, rfl, rfl⟩, fun hn => absurd hsnap hn, fun hn => absurd hsnap hn,
      fun hn => absurd hsnap hn⟩
  | false =>
    obtain ⟨b₂, a₂, hp₂, hs₂, hh₂⟩ := probe_spec ready a₁ .master
      (by decide : installDataLba < 268435456)
    have hmaster : SnapshotAt a₁ .master installDataLba ↔ SnapshotAt a .master installDataLba := by
      unfold SnapshotAt
      rw [hs₁.media, hs₁.size]
    simp only [hp₂]
    cases b₂ with
    | true =>
      refine ⟨true, _, a₂, rfl, hs₁.trans hs₂, ⟨rfl, rfl, rfl⟩, fun _ => Or.inr ⟨rfl, rfl⟩,
        fun h => ?_⟩
      have hslave : ¬SnapshotAt a .slave 0 := fun hs => by simpa using (hh₁ h).mpr hs
      have hsnap := hmaster.mp ((hh₂ (h.congr hs₁.sameDrives)).mp rfl)
      exact ⟨fun hs => absurd hs hslave, fun _ _ => ⟨rfl, rfl, rfl⟩, fun _ hn => absurd hsnap hn,
        fun _ hn => absurd hsnap hn⟩
    | false =>
      have hpres : ∀ d, ataPresent a₂ d = ataPresent a d := by
        intro d
        unfold ataPresent
        rw [hs₂.drives, hs₁.drives]
      have hcount : ataSectorCount a₂ .master = ataSectorCount a .master := by
        unfold ataSectorCount
        rw [hpres, hs₂.drives, hs₁.drives]
      have hno : Healthy ready a → ¬SnapshotAt a .slave 0 ∧
          ¬SnapshotAt a .master installDataLba := fun h =>
        ⟨fun hs => by simpa using (hh₁ h).mpr hs,
          fun hs => by simpa using (hh₂ (h.congr hs₁.sameDrives)).mpr (hmaster.mpr hs)⟩
      simp only [hpres, hcount]
      by_cases hslave : ataPresent a .slave = true
      · rw [if_pos hslave]
        refine ⟨true, _, a₂, rfl, hs₁.trans hs₂, ⟨rfl, rfl, rfl⟩, fun _ => Or.inl ⟨rfl, rfl⟩,
          fun h => ?_⟩
        have hz := (h.drives .slave hslave).2
        obtain ⟨h1, h2⟩ := hno h
        exact ⟨fun hs => absurd hs h1, fun _ hs => absurd hs h2, fun _ _ _ => ⟨rfl, rfl, rfl⟩,
          fun _ _ hz' => absurd hz' hz⟩
      · rw [if_neg hslave]
        by_cases hbig : ataPresent a .master = true ∧
            installDataLba + 64 < ataSectorCount a .master
        · rw [if_pos hbig]
          refine ⟨true, _, a₂, rfl, hs₁.trans hs₂, ⟨rfl, rfl, rfl⟩, fun _ => Or.inr ⟨rfl, rfl⟩,
            fun h => ?_⟩
          obtain ⟨h1, h2⟩ := hno h
          refine ⟨fun hs => absurd hs h1, fun _ hs => absurd hs h2,
            fun _ _ hz => absurd (h.found .slave hz) hslave, fun _ _ _ => ⟨?_, fun _ => ⟨rfl, rfl⟩⟩⟩
          have hlt := hbig.2
          unfold ataSectorCount at hlt
          rw [if_pos hbig.1, (h.drives .master hbig.1).1] at hlt
          simpa using hlt
        · rw [if_neg hbig]
          refine ⟨false, p, a₂, rfl, hs₁.trans hs₂, ⟨rfl, rfl, rfl⟩, by simp, fun h => ?_⟩
          obtain ⟨h1, h2⟩ := hno h
          refine ⟨fun hs => absurd hs h1, fun _ hs => absurd hs h2,
            fun _ _ hz => absurd (h.found .slave hz) hslave, fun _ _ _ => ⟨?_, by simp⟩⟩
          simp only [Bool.false_eq_true, false_iff]
          intro hlt
          have hz : a.size .master ≠ 0 := by
            intro hz
            rw [hz] at hlt
            simp at hlt
          have hp := h.found .master hz
          refine hbig ⟨hp, ?_⟩
          unfold ataSectorCount
          rw [if_pos hp, (h.drives .master hp).1]
          exact hlt

theorem AtPlace.base_le {p : Vars} (h : AtPlace p) : p.dataBase ≤ 2048 := by
  rcases h with ⟨-, h⟩ | ⟨-, h⟩
  · omega
  · rw [h]
    exact Nat.le_refl _

/-! ## Mounting -/

/-- The superblock describes a payload that a mount looks at. -/
structure Readable (super : Super) : Prop where
  version : super.version = persistVersion
  pos : 0 < super.payloadBytes
  le : super.payloadBytes ≤ maxPayload

theorem sectorsFor_eq {n : Nat} (h : n ≤ maxPayload) : sectorsFor n = (n + 511) / 512 := by
  have hle : n ≤ 1048576 := h
  unfold sectorsFor
  have hs : ataSectorSize = 512 := rfl
  rw [hs, wrap32_of_lt (by omega)]
  omega

theorem sectorsFor_le {n : Nat} (h : n ≤ maxPayload) : sectorsFor n ≤ 2048 := by
  have hle : n ≤ 1048576 := h
  rw [sectorsFor_eq h]
  omega

theorem le_sectorsFor {n : Nat} (h : n ≤ maxPayload) : n ≤ sectorsFor n * ataSectorSize := by
  have hs : ataSectorSize = 512 := rfl
  rw [sectorsFor_eq h, hs]
  omega

/-- The sectors a mount reads behind the superblock. -/
def payloadSectors (media : Drive → Nat → Sector) (p : Vars) (super : Super) : List UInt8 :=
  sectorsAt (media p.dataDrive) (p.dataBase + 1) (sectorsFor super.payloadBytes)

/-- What a mount gets out of a snapshot: an error that leaves tree and accounts alone, or
the result of restoring them. -/
theorem mountSnapshot_cases {sys sys' : System} {super : Super} {st : PersistState}
    (hp : AtPlace sys.persist) (h : mountSnapshot env ready sys super = some (st, sys')) :
    (st = .error ∧ ∃ t a, SameDisks sys.ata a ∧
      sys' = ({ sys with fs := { sys.fs with time := t }, ata := a } : System).setState .error) ∨
    (Readable super ∧ ∃ a r sys₂, SameDisks sys.ata a ∧
      (checksum ((payloadSectors sys.ata.media sys.persist super).take
        super.payloadBytes)).toNat = super.checksum ∧
      restore env { sys with fs := (sys.fs.alloc env
          (sectorsFor super.payloadBytes * ataSectorSize)).2, ata := a } super
        (payloadSectors sys.ata.media sys.persist super) = (r, some sys₂) ∧
      ((r.bad = true ∧ st = .error ∧ sys' = sys₂.setState .error) ∨
        (r.bad = false ∧ st = .loaded ∧ sys' = { sys₂ with persist := { sys₂.persist with
          bytesUsed := super.payloadBytes
          saveCount := super.saves
          state := .loaded
          dirty := false } }))) := by
  unfold mountSnapshot at h
  by_cases hbad : super.version ≠ persistVersion ∨ super.payloadBytes = 0 ∨
      maxPayload < super.payloadBytes
  · rw [if_pos hbad] at h
    simp only [Option.some.injEq, Prod.mk.injEq] at h
    exact Or.inl ⟨h.1.symm, sys.fs.time, sys.ata, .refl _, h.2.symm⟩
  rw [if_neg hbad] at h
  have hread : Readable super :=
    ⟨by tauto, by omega, by omega⟩
  unfold System.tmpAlloc at h
  cases hk : (sys.fs.alloc env (sectorsFor super.payloadBytes * ataSectorSize)).1 with
  | none =>
    simp only [hk, Option.isSome_none, Option.some.injEq, Prod.mk.injEq] at h
    exact Or.inl ⟨h.1.symm, sys.fs.time + 1, sys.ata, .refl _, h.2.symm⟩
  | some buf =>
    have hbase := hp.base_le
    have hsectors := sectorsFor_le hread.le
    have hlba : wrap32 (sys.persist.dataBase + 1) = sys.persist.dataBase + 1 :=
      wrap32_of_lt (by omega)
    obtain ⟨res, a, hata, hsame, hout, -⟩ := ataRead_spec ready sys.persist.dataDrive
      (by omega : sys.persist.dataBase + 1 + sectorsFor super.payloadBytes ≤ 268435456) sys.ata
    simp only [hk, Option.isSome_some, hlba, hata] at h
    cases res with
    | none =>
      simp only [Option.some.injEq, Prod.mk.injEq] at h
      exact Or.inl ⟨h.1.symm, sys.fs.time + 1, a, hsame, h.2.symm⟩
    | some out =>
      have hbytes : out = payloadSectors sys.ata.media sys.persist super := hout out rfl
      subst hbytes
      simp only at h
      by_cases hsum : (checksum ((payloadSectors sys.ata.media sys.persist super).take
          super.payloadBytes)).toNat = super.checksum
      · rw [if_neg (by simpa using hsum)] at h
        cases hr : restore env { sys with fs := (sys.fs.alloc env
            (sectorsFor super.payloadBytes * ataSectorSize)).2, ata := a } super
            (payloadSectors sys.ata.media sys.persist super) with
        | mk r res =>
          rw [hr] at h
          cases res with
          | none => simp at h
          | some sys₂ =>
            refine Or.inr ⟨hread, a, r, sys₂, hsame, hsum, hr, ?_⟩
            cases hb : r.bad with
            | true =>
              simp only [hb, if_true, Option.some.injEq, Prod.mk.injEq] at h
              exact Or.inl ⟨rfl, h.1.symm, h.2.symm⟩
            | false =>
              simp only [hb, Bool.false_eq_true, if_false, Option.some.injEq, Prod.mk.injEq] at h
              exact Or.inr ⟨rfl, h.1.symm, h.2.symm⟩
      · rw [if_pos hsum] at h
        simp only [Option.some.injEq, Prod.mk.injEq] at h
        exact Or.inl ⟨h.1.symm, sys.fs.time + 1, a, hsame, h.2.symm⟩

/-- Restoring only works on the tree and the accounts. -/
theorem restore_frame {sys sys' : System} {super : Super} {buffer : List UInt8} {r : Reader}
    (h : restore env sys super buffer = (r, some sys')) :
    sys' = { sys with fs := sys'.fs, table := sys'.table } := by
  unfold restore at h
  cases h1 : fsReset env sys.fs with
  | none => simp [h1] at h
  | some s =>
    simp only [h1] at h
    rcases h2 : mountUsers env super.userCount
        { buffer := buffer, length := super.payloadBytes, pos := 0, bad := false, trace := [] }
        sys.table s with ⟨r₁, res⟩
    rw [h2] at h
    cases res with
    | none => simp at h
    | some ts =>
      rcases h3 : mountNodes env super.nodeCount r₁ ts.2 with ⟨r₂, res⟩
      simp only [h3] at h
      cases res with
      | none => simp at h
      | some s₂ =>
        simp only [Prod.mk.injEq, Option.some.injEq] at h
        rw [← h.2]

/-- What a mount does: it chooses a place and looks at the sector there. -/
theorem persistMount_cases {boot sys : System} {st : PersistState}
    (h : persistMount env ready boot = some (st, sys)) :
    ∃ p a, SameDisks (ataInit ready boot.ata) a ∧
      Placed { boot.persist with isSealed := false } p ∧
      ((boot.bootedFromMedium = true ∧ st = .noDisk ∧ a = ataInit ready boot.ata ∧
          ∃ w, sys = { boot with persist := { p with dataWhere := w, state := .noDisk }, ata := a }) ∨
        boot.bootedFromMedium = false ∧ ∃ ok a₁,
          chooseLocation ready { boot.persist with isSealed := false }
            (ataInit ready boot.ata) = (ok, p, a₁) ∧ SameDisks a₁ a ∧
          ((ok = false ∧ st = .noDisk ∧
              ∃ w, sys = { boot with persist := { p with dataWhere := w, state := .noDisk }, ata := a }) ∨
            ok = true ∧ AtPlace p ∧
            (st = .error ∧ (ataRead ready a₁ p.dataDrive p.dataBase 1).1 = none ∧
                sys = ({ boot with persist := p, ata := a } : System).setState .error ∨
              st = .empty ∧ ¬HasMagic boot.ata.media p.dataDrive p.dataBase ∧
                sys = ({ boot with persist := p, ata := a } : System).setState .empty ∨
              HasMagic boot.ata.media p.dataDrive p.dataBase ∧
                mountSnapshot env ready { boot with persist := p, ata := a }
                  (Super.decode (boot.ata.media p.dataDrive p.dataBase).val) = some (st, sys)))) := by
  unfold persistMount at h
  by_cases hm : boot.bootedFromMedium = true
  · simp only [hm, if_true, Option.some.injEq, Prod.mk.injEq] at h
    exact ⟨{ boot.persist with isSealed := false }, _, .refl _, ⟨rfl, rfl, rfl⟩,
      Or.inl ⟨hm, h.1.symm, rfl, _, by rw [← h.2, hm]⟩⟩
  have hm' : boot.bootedFromMedium = false := by simpa using hm
  obtain ⟨ok, p, a₁, hchoose, hsame, hplaced, hat, -⟩ :=
    chooseLocation_spec ready { boot.persist with isSealed := false } (ataInit ready boot.ata)
  simp only [hm', Bool.false_eq_true, if_false, hchoose] at h
  cases ok with
  | false =>
    simp only [Option.some.injEq, Prod.mk.injEq] at h
    exact ⟨p, a₁, hsame, hplaced, Or.inr ⟨hm', false, a₁, hchoose, .refl _,
      Or.inl ⟨rfl, h.1.symm, _, by rw [← h.2, hm']⟩⟩⟩
  | true =>
    have hbase := (hat rfl).base_le
    have hmedia : a₁.media = boot.ata.media := hsame.media.trans (ataInit_spec ready boot.ata).1
    obtain ⟨res, a, hata, hsame', hout, -⟩ := ataRead_spec ready p.dataDrive
      (by omega : p.dataBase + 1 ≤ 268435456) a₁
    simp only [hata] at h
    refine ⟨p, a, hsame.trans hsame', hplaced, Or.inr ⟨hm', true, a₁, hchoose, hsame',
      Or.inr ⟨rfl, hat rfl, ?_⟩⟩⟩
    cases res with
    | none =>
      simp only [Option.some.injEq, Prod.mk.injEq] at h
      exact Or.inl ⟨h.1.symm, by rw [hata], by rw [← h.2, hm']⟩
    | some bytes =>
      have hbytes := hout bytes rfl
      rw [sectorsAt_one, hmedia] at hbytes
      subst hbytes
      by_cases hmagic : HasMagic boot.ata.media p.dataDrive p.dataBase
      · have hmagic' : (Super.decode (boot.ata.media p.dataDrive p.dataBase).val).magic =
            magicBytes := hmagic
        simp only [hmagic', ne_eq, not_true_eq_false, if_false] at h
        refine Or.inr (Or.inr ⟨hmagic, ?_⟩)
        rw [← h, hm']
      · have hmagic' : (Super.decode (boot.ata.media p.dataDrive p.dataBase).val).magic ≠
            magicBytes := hmagic
        simp only at h
        rw [if_pos hmagic'] at h
        simp only [Option.some.injEq, Prod.mk.injEq] at h
        exact Or.inr (Or.inl ⟨h.1.symm, hmagic, by rw [← h.2, hm']⟩)

/-- A mount that finds a place, and no superblock of ours there. -/
theorem persistMount_blank {boot : System} {p : Vars} {a : Channel} {bytes : List UInt8}
    {a' : Channel} (hm : boot.bootedFromMedium = false)
    (hchoose : chooseLocation ready { boot.persist with isSealed := false }
      (ataInit ready boot.ata) = (true, p, a))
    (hread : ataRead ready a p.dataDrive p.dataBase 1 = (some bytes, a'))
    (hmagic : bytes.take 8 ≠ magicBytes) :
    persistMount env ready boot =
      some (.empty, ({ boot with persist := p, ata := a' } : System).setState .empty) := by
  have hmagic' : (Super.decode bytes).magic ≠ magicBytes := hmagic
  unfold persistMount
  simp only [hm, Bool.false_eq_true, if_false, hchoose, hread]
  rw [if_pos hmagic']

/-- What a mount leaves behind, apart from the tree and the accounts. -/
structure Mounted (boot sys : System) (st : PersistState) : Prop where
  disks : SameDisks (ataInit ready boot.ata) sys.ata
  state : sys.persist.state = st
  isSealed : sys.persist.isSealed = false
  place : st ≠ .noDisk → AtPlace sys.persist
  medium : st ≠ .noDisk → boot.bootedFromMedium = false
  flag : sys.bootedFromMedium = boot.bootedFromMedium

theorem persistMount_mounted {boot sys : System} {st : PersistState}
    (h : persistMount env ready boot = some (st, sys)) : Mounted ready boot sys st := by
  obtain ⟨p, a, hsame, hplaced, hcase⟩ := persistMount_cases ready h
  rcases hcase with ⟨-, rfl, -, w, rfl⟩ | ⟨hm, ok, a₁, -, -, hcase⟩
  · exact ⟨hsame, rfl, hplaced.isSealed, by simp, by simp, rfl⟩
  rcases hcase with ⟨-, rfl, w, rfl⟩ | ⟨-, hat, hcase⟩
  · exact ⟨hsame, rfl, hplaced.isSealed, by simp, by simp, rfl⟩
  rcases hcase with ⟨rfl, -, rfl⟩ | ⟨rfl, -, rfl⟩ | ⟨-, hsnap⟩
  · exact ⟨hsame, rfl, hplaced.isSealed, fun _ => hat, fun _ => hm, rfl⟩
  · exact ⟨hsame, rfl, hplaced.isSealed, fun _ => hat, fun _ => hm, rfl⟩
  · rcases mountSnapshot_cases ready (by exact hat) hsnap with ⟨rfl, t, a', hs, rfl⟩ | ⟨-, a', r, sys₂, hs, -, hr, hend⟩
    · exact ⟨hsame.trans hs, rfl, hplaced.isSealed, fun _ => hat, fun _ => hm, rfl⟩
    · have hframe := restore_frame hr
      rcases hend with ⟨-, rfl, rfl⟩ | ⟨-, rfl, rfl⟩
      · rw [hframe]
        exact ⟨hsame.trans hs, rfl, hplaced.isSealed, fun _ => hat, fun _ => hm, rfl⟩
      · rw [hframe]
        exact ⟨hsame.trans hs, rfl, hplaced.isSealed, fun _ => hat, fun _ => hm, rfl⟩

/-! ## Saving -/

/-- The sectors a payload of `n` bytes takes. -/
def payloadCount (n : Nat) : Nat := if sectorsFor n = 0 then 1 else sectorsFor n

theorem payloadCount_pos (n : Nat) : 0 < payloadCount n := by
  unfold payloadCount
  split <;> omega

theorem payloadCount_le {n : Nat} (h : n ≤ maxPayload) : payloadCount n ≤ 2048 := by
  have := sectorsFor_le h
  unfold payloadCount
  split <;> omega

theorem le_payloadCount {n : Nat} (h : n ≤ maxPayload) : n ≤ payloadCount n * ataSectorSize := by
  have hle := le_sectorsFor h
  unfold payloadCount
  split
  next hzero =>
    rw [hzero] at hle
    omega
  next => exact hle

/-- The bytes a save hands over behind the superblock. -/
def payloadImage (payload : List UInt8) : List UInt8 :=
  payload ++ List.replicate (payloadCount payload.length * ataSectorSize - payload.length) 0

theorem payloadImage_length {payload : List UInt8} (h : payload.length ≤ maxPayload) :
    (payloadImage payload).length = payloadCount payload.length * ataSectorSize := by
  have hfit := le_payloadCount h
  rw [payloadImage, List.length_append, List.length_replicate]
  omega

/-- The superblock a save writes. -/
def newSuper (p : Vars) (payload : List UInt8) (userCount nodeCount : Nat) : Super where
  magic := magicBytes
  version := persistVersion
  payloadBytes := payload.length
  nodeCount := nodeCount
  userCount := userCount
  checksum := (checksum payload).toNat
  saves := wrap32 (p.saveCount + 1)

/-- Everything but the disks and the counters of a snapshot. -/
structure SameSession (sys sys' : System) : Prop where
  drives : SameDrives sys.ata sys'.ata
  isSealed : sys'.persist.isSealed = sys.persist.isSealed
  drive : sys'.persist.dataDrive = sys.persist.dataDrive
  base : sys'.persist.dataBase = sys.persist.dataBase
  flag : sys'.bootedFromMedium = sys.bootedFromMedium

theorem SameSession.atPlace {sys sys' : System} (h : SameSession sys sys')
    (hp : AtPlace sys.persist) : AtPlace sys'.persist := by
  unfold AtPlace
  rw [h.drive, h.base]
  exact hp

/-- The disks after the payload was written, with `k` sectors of it there. -/
def payloadWritten (sys : System) (payload : List UInt8) (k : Nat) : Drive → Nat → Sector :=
  overlay sys.ata.media sys.persist.dataDrive (sys.persist.dataBase + 1) k (payloadImage payload)

theorem superEncode_length {super : Super} (h : super.magic.length = 8) :
    super.encode.length = ataSectorSize := by
  simp only [Super.encode, List.length_append, le32_length, List.length_replicate, h]
  rfl

/-- The disks after the superblock was written, too. -/
def snapshotWritten (sys : System) (payload : List UInt8) (userCount nodeCount : Nat) :
    Drive → Nat → Sector :=
  overlay (payloadWritten sys payload (payloadCount payload.length)) sys.persist.dataDrive
    sys.persist.dataBase 1 (newSuper sys.persist payload userCount nodeCount).encode

theorem snapshotWritten_super (sys : System) (payload : List UInt8) (users nodes : Nat) :
    (snapshotWritten sys payload users nodes sys.persist.dataDrive sys.persist.dataBase).val =
      (newSuper sys.persist payload users nodes).encode := by
  unfold snapshotWritten overlay
  rw [if_pos ⟨rfl, by omega, by omega⟩, Nat.sub_self, Nat.zero_mul, List.drop_zero]
  exact ofBytes_of_length (superEncode_length rfl)

theorem snapshotWritten_payload (sys : System) {payload : List UInt8} (users nodes : Nat)
    (hlen : payload.length ≤ maxPayload) :
    sectorsAt (snapshotWritten sys payload users nodes sys.persist.dataDrive)
      (sys.persist.dataBase + 1) (payloadCount payload.length) = payloadImage payload := by
  calc
    _ = sectorsAt (payloadWritten sys payload (payloadCount payload.length) sys.persist.dataDrive)
          (sys.persist.dataBase + 1) (payloadCount payload.length) :=
      sectorsAt_congr fun l h₁ h₂ => overlay_other (by omega)
    _ = payloadImage payload :=
      sectorsAt_overlay _ sys.persist.dataDrive _ (payloadImage_length hlen)

/-- What is on the disks when a save ends: a first part of the payload, or all of it, with
or without the superblock. -/
theorem writeSnapshot_spec {sys : System} {payload : List UInt8} (users nodes : Nat)
    (hp : AtPlace sys.persist) (hlen : payload.length ≤ maxPayload) :
    ∃ res sys', writeSnapshot ready sys payload users nodes = (res, sys') ∧
      SameSession sys sys' ∧ sys'.fs = sys.fs ∧ sys'.table = sys.table ∧
      ((res = -3 ∧ ∃ k ≤ payloadCount payload.length,
          sys'.ata.media = payloadWritten sys payload k) ∨
        ∃ k ≤ 1, (res = 0 ∨ res = -4) ∧ (res = 0 → k = 1) ∧
          sys'.ata.media = overlay (payloadWritten sys payload (payloadCount payload.length))
            sys.persist.dataDrive sys.persist.dataBase k
            (newSuper sys.persist payload users nodes).encode) := by
  have hbase := hp.base_le
  have hcount := payloadCount_le hlen
  have hlba : wrap32 (sys.persist.dataBase + 1) = sys.persist.dataBase + 1 :=
    wrap32_of_lt (by omega)
  obtain ⟨res₁, a₁, k₁, hw₁, hk₁, hs₁, hm₁, -, hall₁, -⟩ :=
    ataWrite_spec ready sys.persist.dataDrive
      (by omega : sys.persist.dataBase + 1 + payloadCount payload.length ≤ 268435456)
      (payloadImage payload) sys.ata
  obtain ⟨res₂, a₂, k₂, hw₂, hk₂, hs₂, hm₂, -, hall₂, -⟩ :=
    ataWrite_spec ready sys.persist.dataDrive
      (by omega : sys.persist.dataBase + 1 ≤ 268435456)
      (newSuper sys.persist payload users nodes).encode a₁
  unfold writeSnapshot
  simp only [hlba, ← payloadCount.eq_1, ← payloadImage.eq_1, hw₁]
  by_cases h₁ : res₁ = 0
  · obtain ⟨rfl, -, -⟩ := hall₁ h₁
    have hw₂' := hw₂
    unfold newSuper at hw₂'
    simp only [h₁, ne_eq, not_true_eq_false, if_false, hw₂']
    rw [hm₁] at hm₂
    by_cases h₂ : res₂ = 0
    · simp only [h₂, not_true_eq_false, if_false]
      exact ⟨_, _, rfl, ⟨hs₁.trans hs₂, rfl, rfl, rfl, rfl⟩, rfl, rfl,
        Or.inr ⟨k₂, hk₂, Or.inl rfl, fun _ => (hall₂ h₂).1, hm₂⟩⟩
    · simp only [h₂, not_false_eq_true, if_true]
      exact ⟨_, _, rfl, ⟨hs₁.trans hs₂, rfl, rfl, rfl, rfl⟩, rfl, rfl,
        Or.inr ⟨k₂, hk₂, Or.inr rfl, by simp, hm₂⟩⟩
  · simp only [ne_eq, h₁, not_false_eq_true, if_true]
    exact ⟨_, _, rfl, ⟨hs₁, rfl, rfl, rfl, rfl⟩, rfl, rfl, Or.inl ⟨rfl, k₁, hk₁, hm₁⟩⟩

/-- Writing to a healthy drive. -/
theorem Healthy.write {a : Channel} (h : Healthy ready a) {drive : Drive} {lba count : Nat}
    (hpos : 0 < count) (hroom : lba + count ≤ (a.size drive).toNat)
    (hl : lba + count ≤ 268435456) (buf : List UInt8) :
    ∃ a', ataWrite ready a drive lba count buf = (0, a') ∧ SameDrives a a' ∧
      a'.media = overlay a.media drive lba count buf := by
  obtain ⟨res, a', k, hw, -, hs, hm, -, hall, hok⟩ := ataWrite_spec ready drive hl buf a
  have hz : a.size drive ≠ 0 := by
    intro hz
    rw [hz, UInt32.toNat_zero] at hroom
    omega
  have hp := h.found drive hz
  obtain rfl := hok h.ready ⟨hp, by rw [(h.drives drive hp).1]; exact hroom⟩ hroom
  rw [(hall rfl).1] at hm
  exact ⟨a', hw, hs, hm⟩

/-- **On a healthy drive with room for it the snapshot is written.** -/
theorem Healthy.writeSnapshot {sys : System} {payload : List UInt8} (h : Healthy ready sys.ata)
    (users nodes : Nat) (hp : AtPlace sys.persist) (hlen : payload.length ≤ maxPayload)
    (hroom : sys.persist.dataBase + 1 + payloadCount payload.length ≤
      (sys.ata.size sys.persist.dataDrive).toNat) :
    ∃ sys', Persist.writeSnapshot ready sys payload users nodes = (0, sys') ∧
      sys'.ata.media = overlay (payloadWritten sys payload (payloadCount payload.length))
        sys.persist.dataDrive sys.persist.dataBase 1
        (newSuper sys.persist payload users nodes).encode := by
  have hbase := hp.base_le
  have hcount := payloadCount_le hlen
  have hpos := payloadCount_pos payload.length
  have hlba : wrap32 (sys.persist.dataBase + 1) = sys.persist.dataBase + 1 :=
    wrap32_of_lt (by omega)
  obtain ⟨a₁, hw₁, hs₁, hm₁⟩ := h.write ready hpos hroom (by omega) (payloadImage payload)
  obtain ⟨a₂, hw₂, hs₂, hm₂⟩ := @Healthy.write ready a₁ (h.congr hs₁) sys.persist.dataDrive
    sys.persist.dataBase 1 (by decide) (by rw [hs₁.size]; omega) (by omega)
    (newSuper sys.persist payload users nodes).encode
  unfold newSuper at hw₂
  unfold Persist.writeSnapshot
  simp only [hlba, ← payloadCount.eq_1, ← payloadImage.eq_1, hw₁, ne_eq, not_true_eq_false,
    if_false, hw₂]
  rw [hm₁] at hm₂
  exact ⟨_, rfl, hm₂⟩

/-- The system once a save has its buffer. -/
def System.buffered (env : Env) (sys : System) : System :=
  { sys with fs := (sys.fs.alloc env maxPayload).2 }

/-- A save stops at one of its guards, or it writes a snapshot. -/
theorem persistSave_cases {sys sys' : System} {res : Int}
    (h : persistSave env ready sys = some (res, sys')) :
    ((sys.persist.isSealed = true ∧ res = -5 ∨ sys.persist.state = .noDisk ∧ res = 0 ∨
        res = -1 ∨ res = -2) ∧ ∃ t, sys' = { sys with fs := { sys.fs with time := t } }) ∨
      (sys.persist.isSealed = false ∧ sys.persist.state ≠ .noDisk ∧
        (sys.fs.alloc env maxPayload).1 ≠ none ∧
        ∃ w users nodes, encodeAll (sys.buffered env).fs sys.table = some (w, users, nodes) ∧
          w.overflow = false ∧ w.buffer.length ≤ maxPayload ∧
          writeSnapshot ready (sys.buffered env) w.buffer users nodes = (res, sys')) := by
  unfold persistSave at h
  cases hs : sys.persist.isSealed with
  | true =>
    simp only [hs, if_true, Option.some.injEq, Prod.mk.injEq] at h
    exact Or.inl ⟨Or.inl ⟨rfl, h.1.symm⟩, sys.fs.time, h.2.symm⟩
  | false =>
    simp only [hs, Bool.false_eq_true, if_false] at h
    by_cases hd : sys.persist.state = .noDisk
    · simp only [hd, if_true, Option.some.injEq, Prod.mk.injEq] at h
      exact Or.inl ⟨Or.inr (Or.inl ⟨hd, h.1.symm⟩), sys.fs.time, h.2.symm⟩
    rw [if_neg hd] at h
    unfold System.tmpAlloc at h
    cases hk : (sys.fs.alloc env maxPayload).1 with
    | none =>
      simp only [hk, Option.isSome_none, Option.some.injEq, Prod.mk.injEq] at h
      exact Or.inl ⟨Or.inr (Or.inr (Or.inl h.1.symm)), sys.fs.time + 1, h.2.symm⟩
    | some buf =>
      simp only [hk, Option.isSome_some] at h
      rcases he : encodeAll (sys.fs.alloc env maxPayload).2 sys.table with - | ⟨w, users, nodes⟩
      · simp [he] at h
      simp only [he] at h
      cases ho : w.overflow with
      | true =>
        simp only [ho, if_true, Option.some.injEq, Prod.mk.injEq] at h
        exact Or.inl ⟨Or.inr (Or.inr (Or.inr h.1.symm)), sys.fs.time + 1, h.2.symm⟩
      | false =>
        simp only [ho, Bool.false_eq_true, if_false, Option.some.injEq] at h
        exact Or.inr ⟨rfl, hd, by simp, w, users, nodes, he, ho, encodeAll_le he, h⟩

/-- A save that passes its guards writes the snapshot. -/
theorem persistSave_writes {sys : System} {w : Writer} {users nodes : Nat}
    (hsealed : sys.persist.isSealed = false) (hstate : sys.persist.state ≠ .noDisk)
    (halloc : (sys.fs.alloc env maxPayload).1 ≠ none)
    (hencode : encodeAll (sys.buffered env).fs sys.table = some (w, users, nodes))
    (hfits : w.overflow = false) :
    persistSave env ready sys = some (writeSnapshot ready (sys.buffered env) w.buffer users nodes) := by
  have hbuf : (sys.fs.alloc env maxPayload).1.isSome = true := Option.isSome_iff_ne_none.mpr halloc
  unfold System.buffered at hencode
  simp only [persistSave, hsealed, Bool.false_eq_true, if_false, hstate, System.tmpAlloc, hbuf,
    hencode, hfits]
  rfl

theorem persistSave_session {sys sys' : System} {res : Int} (hp : AtPlace sys.persist)
    (h : persistSave env ready sys = some (res, sys')) : SameSession sys sys' := by
  rcases persistSave_cases ready h with ⟨-, t, rfl⟩ | ⟨-, -, -, w, users, nodes, -, -, hlen, hw⟩
  · exact ⟨⟨rfl, rfl⟩, rfl, rfl, rfl, rfl⟩
  · obtain ⟨res', sys₂, hw', hsame, -⟩ :=
      @writeSnapshot_spec ready (sys.buffered env) w.buffer users nodes hp hlen
    rw [hw] at hw'
    obtain ⟨rfl, rfl⟩ := Prod.mk.inj hw'
    exact ⟨⟨hsame.drives.size, hsame.drives.drives⟩, hsame.isSealed, hsame.drive, hsame.base,
      hsame.flag⟩

/-! ## Wiping -/

/-- The disks with the superblock of the snapshot zeroed. -/
def wiped (sys : System) (k : Nat) : Drive → Nat → Sector :=
  overlay sys.ata.media sys.persist.dataDrive sys.persist.dataBase k
    (List.replicate ataSectorSize 0)

theorem persistFormat_spec {sys : System} (hp : AtPlace sys.persist) :
    ∃ res sys', persistFormat ready sys = (res, sys') ∧ SameDrives sys.ata sys'.ata ∧
      sys'.persist.dataDrive = sys.persist.dataDrive ∧
      sys'.persist.dataBase = sys.persist.dataBase ∧
      sys'.bootedFromMedium = sys.bootedFromMedium ∧
      (sys.persist.isSealed = true → sys'.persist.isSealed = true) ∧
      (∃ k ≤ 1, sys'.ata.media = wiped sys k) ∧
      (res = 0 → sys.persist.state ≠ .noDisk ∧ sys'.persist.isSealed = true ∧
        sys'.ata.media = wiped sys 1 ∧ ataPresent sys.ata sys.persist.dataDrive = true) := by
  have hbase := hp.base_le
  unfold persistFormat
  by_cases hd : sys.persist.state = .noDisk
  · rw [if_pos hd]
    exact ⟨-1, sys, rfl, ⟨rfl, rfl⟩, rfl, rfl, rfl, id, ⟨0, by omega, (overlay_zero _ _ _ _).symm⟩,
      by simp⟩
  rw [if_neg hd]
  obtain ⟨res, a, k, hw, hk, hs, hm, -, hall, -⟩ := ataWrite_spec ready sys.persist.dataDrive
    (by omega : sys.persist.dataBase + 1 ≤ 268435456) (List.replicate ataSectorSize 0) sys.ata
  simp only [hw]
  by_cases h0 : res = 0
  · simp only [h0, ne_eq, not_true_eq_false, if_false]
    obtain ⟨rfl, hpres, -⟩ := hall h0
    exact ⟨0, _, rfl, hs, rfl, rfl, rfl, fun _ => rfl, ⟨1, Nat.le_refl _, hm⟩,
      fun _ => ⟨hd, rfl, hm, hpres⟩⟩
  · simp only [ne_eq, h0, not_false_eq_true, if_true]
    exact ⟨-2, _, rfl, hs, rfl, rfl, rfl, id, ⟨k, hk, hm⟩, by simp⟩

/-! ## Whole sessions -/

/-- What every operation keeps: the drives, the place and how the machine was booted. -/
structure SameBoot (sys sys' : System) : Prop where
  drives : SameDrives sys.ata sys'.ata
  drive : sys'.persist.dataDrive = sys.persist.dataDrive
  base : sys'.persist.dataBase = sys.persist.dataBase
  flag : sys'.bootedFromMedium = sys.bootedFromMedium

theorem SameBoot.refl (sys : System) : SameBoot sys sys := ⟨⟨rfl, rfl⟩, rfl, rfl, rfl⟩

theorem SameBoot.trans {s₁ s₂ s₃ : System} (h : SameBoot s₁ s₂) (h' : SameBoot s₂ s₃) :
    SameBoot s₁ s₃ :=
  ⟨h.drives.trans h'.drives, h'.drive.trans h.drive, h'.base.trans h.base, h'.flag.trans h.flag⟩

theorem SameBoot.atPlace {sys sys' : System} (h : SameBoot sys sys')
    (hp : AtPlace sys.persist) : AtPlace sys'.persist := by
  unfold AtPlace
  rw [h.drive, h.base]
  exact hp

theorem SameSession.sameBoot {sys sys' : System} (h : SameSession sys sys') : SameBoot sys sys' :=
  ⟨h.drives, h.drive, h.base, h.flag⟩

/-- What a step can be: a save, a format, or nothing that has to do with the disks. -/
theorem step_cases {sys sys' : System} {op : Op} (h : step env ready sys op = some sys') :
    (∃ res, (op = .save ∨ op = .flush ∧ sys.persist.dirty ≠ false) ∧
        persistSave env ready sys = some (res, sys')) ∨
      op = .format ∧ sys' = (persistFormat ready sys).2 ∨
      ∃ fs table dirty, sys' = { sys with
        fs := fs, table := table, persist := { sys.persist with dirty := dirty } } := by
  cases op with
  | save =>
    simp only [step, Option.map_eq_some_iff, Prod.exists, exists_eq_right] at h
    obtain ⟨res, h⟩ := h
    exact Or.inl ⟨res, Or.inl rfl, h⟩
  | markDirty => exact Or.inr (Or.inr ⟨_, _, true, (Option.some.inj h).symm⟩)
  | flush =>
    simp only [step, persistFlush, Option.map_eq_some_iff, Prod.exists, exists_eq_right] at h
    obtain ⟨res, h⟩ := h
    by_cases hd : sys.persist.dirty = false
    · simp only [hd, if_true, Option.some.injEq, Prod.mk.injEq] at h
      exact Or.inr (Or.inr ⟨_, _, _, h.2.symm⟩)
    · rw [if_neg hd] at h
      exact Or.inl ⟨res, Or.inr ⟨rfl, hd⟩, h⟩
  | format => exact Or.inr (Or.inl ⟨rfl, (Option.some.inj h).symm⟩)
  | work fs table => exact Or.inr (Or.inr ⟨fs, table, _, (Option.some.inj h).symm⟩)

theorem step_sameBoot {sys sys' : System} {op : Op} (hp : AtPlace sys.persist)
    (h : step env ready sys op = some sys') : SameBoot sys sys' := by
  rcases step_cases ready h with ⟨res, -, hsave⟩ | ⟨-, rfl⟩ | ⟨fs, table, dirty, rfl⟩
  · exact (persistSave_session ready hp hsave).sameBoot
  · obtain ⟨res, sys₁, hf, hs, hdr, hb, hfl, -⟩ := persistFormat_spec ready hp
    rw [hf]
    exact ⟨hs, hdr, hb, hfl⟩
  · exact ⟨⟨rfl, rfl⟩, rfl, rfl, rfl⟩

/-- Without a disk, nothing happens to the drives. -/
theorem step_noDisk {sys sys' : System} {op : Op} (hd : sys.persist.state = .noDisk)
    (h : step env ready sys op = some sys') :
    sys'.persist.state = .noDisk ∧ sys'.ata = sys.ata := by
  rcases step_cases ready h with ⟨res, -, hsave⟩ | ⟨-, rfl⟩ | ⟨fs, table, dirty, rfl⟩
  · rcases persistSave_cases ready hsave with ⟨-, t, rfl⟩ | ⟨-, hne, -⟩
    · exact ⟨hd, rfl⟩
    · exact absurd hd hne
  · have hformat : persistFormat ready sys = (-1, sys) := if_pos hd
    rw [hformat]
    exact ⟨hd, rfl⟩
  · exact ⟨hd, rfl⟩

theorem writeSnapshot_inUse {sys sys' : System} {payload : List UInt8} {users nodes : Nat}
    {res : Int} (hd : sys.persist.state ≠ .noDisk)
    (h : writeSnapshot ready sys payload users nodes = (res, sys')) :
    sys'.persist.state ≠ .noDisk := by
  unfold writeSnapshot at h
  dsimp only at h
  repeat' split at h
  all_goals
    obtain ⟨-, rfl⟩ := Prod.mk.inj h
    first
      | exact hd
      | simp

/-- A disk that is in use stays in use. -/
theorem step_inUse {sys sys' : System} {op : Op} (hd : sys.persist.state ≠ .noDisk)
    (h : step env ready sys op = some sys') : sys'.persist.state ≠ .noDisk := by
  rcases step_cases ready h with ⟨res, -, hsave⟩ | ⟨-, rfl⟩ | ⟨fs, table, dirty, rfl⟩
  · rcases persistSave_cases ready hsave with ⟨-, t, rfl⟩ | ⟨-, -, -, w, users, nodes, -, -, -, hw⟩
    · exact hd
    · have hd' : (sys.buffered env).persist.state ≠ .noDisk := hd
      exact writeSnapshot_inUse ready hd' hw
  · unfold persistFormat
    rw [if_neg hd]
    split
    dsimp only
    split
    · exact hd
    · simp
  · exact hd

theorem Steps.sameBoot {ok : System → Op → Prop} {sys sys' : System}
    (h : Steps env ready ok sys sys') (hp : AtPlace sys.persist) : SameBoot sys sys' := by
  induction h with
  | refl => exact .refl sys
  | step _ _ hstep ih => exact ih.trans (step_sameBoot ready (ih.atPlace hp) hstep)

end LightningOS.Persist
