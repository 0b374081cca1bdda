import LightningOS.Properties.PersistRun

/-!
# Damaged and wiped disks

Two promises about what a session leaves alone. A snapshot that could not be read should
stay as it is; that depends on the guards of `persist_save`, which does not ask whether the
mount failed. A wiped disk should stay empty, and come up empty at the next boot; the seal
sees to the first, but the next boot may find a snapshot on the other disk.
-/

namespace LightningOS.Persist

open ByteMemory CString Ramfs Users Ata

/-! ## Damaged snapshots -/

variable (env : Env) (ready : Nat → Bool)

/-- A save ends before the drive takes a sector from it. -/
def Blocked (sys : System) : Prop :=
  sys.persist.isSealed = true ∨ sys.persist.state = .noDisk ∨
    (sys.fs.alloc env maxPayload).1 = none ∨
    ∀ w users nodes, encodeAll (sys.buffered env).fs sys.table = some (w, users, nodes) →
      w.overflow = true ∨ Refuses ready sys.persist.dataDrive sys.ata (sys.persist.dataBase + 1)
        (payloadCount w.buffer.length)

/-- An operation that does not get as far as writing. -/
def Harmless (sys : System) : Op → Prop
  | .save => Blocked env ready sys
  | .flush => sys.persist.dirty = false ∨ Blocked env ready sys
  | .format => False
  | .markDirty | .work _ _ => True

variable {env}

theorem Blocked.save {sys sys' : System} {res : Int} (hp : AtPlace sys.persist)
    (hb : Blocked env ready sys) (h : persistSave env ready sys = some (res, sys')) :
    sys'.ata.media = sys.ata.media := by
  rcases persistSave_cases ready h with ⟨-, t, rfl⟩ | ⟨hs, hd, hk, w, users, nodes, he, ho, hlen, hw⟩
  · rfl
  rcases hb with hb | hb | hb | hb
  · rw [hb] at hs
    simp at hs
  · exact absurd hb hd
  · exact absurd hb hk
  rcases hb w users nodes he with hb | hb
  · rw [hb] at ho
    simp at ho
  have hbase := hp.base_le
  have hcount := payloadCount_le hlen
  obtain ⟨a, hata, hsame⟩ := ataWrite_refused ready sys.persist.dataDrive
    (by omega : sys.persist.dataBase + 1 + payloadCount w.buffer.length ≤ 268435456)
    (payloadCount_pos _) (payloadImage w.buffer) hb
  have hlba : wrap32 (sys.persist.dataBase + 1) = sys.persist.dataBase + 1 :=
    wrap32_of_lt (by omega)
  unfold writeSnapshot at hw
  simp only [System.buffered, hlba, ← payloadCount.eq_1, ← payloadImage.eq_1, hata] at hw
  simp only [ne_eq, Int.reduceNeg, Int.reduceEq, not_false_eq_true, if_true, Prod.mk.injEq] at hw
  rw [← hw.2]
  exact hsame.media

theorem Harmless.step {sys sys' : System} {op : Op} (hp : AtPlace sys.persist)
    (hop : Harmless env ready sys op) (h : step env ready sys op = some sys') :
    sys'.ata.media = sys.ata.media := by
  rcases step_cases ready h with ⟨res, hsaving, hsave⟩ | ⟨rfl, -⟩ | ⟨fs, table, dirty, rfl⟩
  · rcases hsaving with rfl | ⟨rfl, hd⟩
    · exact Blocked.save ready hp hop hsave
    · rcases hop with hop | hop
      · exact absurd hop hd
      · exact Blocked.save ready hp hop hsave
  · exact hop.elim
  · rfl

/-- **A damaged snapshot stays as it is as long as every save is stopped.** -/
theorem error_run_keeps_disk {boot sys sys' : System}
    (hmount : persistMount env ready boot = some (.error, sys))
    (hrun : Steps env ready (Harmless env ready) sys sys') :
    sys'.ata.media = boot.ata.media := by
  have hm := persistMount_mounted ready hmount
  have hp : AtPlace sys.persist := hm.place (by simp)
  have hboot : sys.ata.media = boot.ata.media :=
    hm.disks.media.trans (ataInit_spec ready boot.ata).1
  induction hrun with
  | refl => exact hboot
  | step hsteps hop hstep ih =>
    have hp' := (Steps.sameBoot ready hsteps hp).atPlace hp
    exact (hop.step ready hp' hstep).trans ih

/-- A machine after `fs_init` and `users_init`, with one disk as the primary slave. -/
def freshBoot (sector : Nat → Sector) : System where
  fs := (fsInit .ample .zero).getD .zero
  table := usersInit
  persist := {}
  ata := {
    size := fun d => if d = .slave then 4096 else 0
    media := fun d l => if d = .slave then sector l else Sector.ofBytes []
    drives := fun _ => {}
    time := 0 }
  bootedFromMedium := false

/-- A disk with a superblock of a later version. -/
def laterVersion (lba : Nat) : Sector :=
  if lba = 0 then
    Sector.ofBytes (Super.encode {
      magic := magicBytes, version := 2, payloadBytes := 100, nodeCount := 1, userCount := 1,
      checksum := 7, saves := 3 })
  else Sector.ofBytes []

/-- The mount fails on the version, and the first save replaces the superblock. -/
theorem later_version_overwritten : ∃ sys sys',
    persistMount .ample (fun _ => true) (freshBoot laterVersion) = some (.error, sys) ∧
      persistSave .ample (fun _ => true) sys = some (0, sys') ∧
      sys'.ata.media .slave 0 ≠ (freshBoot laterVersion).ata.media .slave 0 := by
  have h : (persistMount .ample (fun _ => true) (freshBoot laterVersion)).map (fun r =>
      (r.1, (persistSave .ample (fun _ => true) r.2).map fun q =>
        (q.1, decide (q.2.ata.media .slave 0 ≠ (freshBoot laterVersion).ata.media .slave 0)))) =
      some (.error, some (0, true)) := by decide +kernel
  simp only [Option.map_eq_some_iff, Prod.mk.injEq, decide_eq_true_eq] at h
  obtain ⟨⟨st, sys⟩, hm, rfl, ⟨res, sys'⟩, hs, rfl, hne⟩ := h
  exact ⟨sys, sys', hm, hs, hne⟩

/-- A system that has no mebibyte in one piece left. -/
def scant : Env where
  kmalloc t s n := if n < maxPayload then Env.ample.kmalloc t s n else none
  kmalloc_fresh := by
    intro t s n p h
    split at h
    · exact Env.ample.kmalloc_fresh h
    · cases h
  kmalloc_small := by
    intro t s n p h
    split at h
    · exact Env.ample.kmalloc_small h
    · cases h
  junk _ := []
  build := []

/-- A flush of changes gets no buffer and fails, and the snapshot that was not understood is
still there. -/
theorem error_run_keeps_disk_scant : ∃ sys sys',
    persistMount scant (fun _ => true) (freshBoot laterVersion) = some (.error, sys) ∧
      persistFlush scant (fun _ => true) (persistMarkDirty sys) = some (-1, sys') ∧
      Steps scant (fun _ => true) (Harmless scant fun _ => true) sys sys' ∧
      sys'.persist.dirty = true ∧ sys'.ata.media = (freshBoot laterVersion).ata.media := by
  have h : ((persistMount scant (fun _ => true) (freshBoot laterVersion)).bind fun r =>
      (persistFlush scant (fun _ => true) (persistMarkDirty r.2)).map fun q =>
        (r.1, q.1, q.2.persist.dirty)) = some (.error, -1, true) := by decide +kernel
  simp only [Option.bind_eq_some_iff, Option.map_eq_some_iff, Prod.mk.injEq] at h
  obtain ⟨⟨st, sys⟩, hm, ⟨res, sys'⟩, hflush, rfl, rfl, hdirty⟩ := h
  have hmark : step scant (fun _ => true) sys .markDirty = some (persistMarkDirty sys) := rfl
  have hharmless : Harmless scant (fun _ => true) sys .markDirty := trivial
  have hstep : step scant (fun _ => true) (persistMarkDirty sys) .flush = some sys' := by
    simp only [step, hflush, Option.map_some]
  have hnone : ((persistMarkDirty sys).fs.alloc scant maxPayload).1 = none := by
    show (if maxPayload < maxPayload then Env.ample.kmalloc sys.fs.time sys.fs maxPayload
      else none) = none
    rw [if_neg (Nat.lt_irrefl maxPayload)]
  have hblocked : Harmless scant (fun _ => true) (persistMarkDirty sys) .flush :=
    Or.inr (Or.inr (Or.inr (Or.inl hnone)))
  have hrun : Steps scant (fun _ => true) (Harmless scant fun _ => true) sys sys' :=
    .step (.step .refl hharmless hmark) hblocked hstep
  exact ⟨sys, sys', hm, hflush, hrun, hdirty, error_run_keeps_disk _ hm hrun⟩

/-! ## Wiped disks -/

/-- A session knows the sizes of its drives. If its mount found no place for a snapshot, it
stays that way. -/
theorem Session.place {boot sys : System} (h : Session env ready boot sys) :
    DrivesOk sys.ata ∧ (sys.persist.state = .noDisk ∨ AtPlace sys.persist) := by
  induction h with
  | @mount st sys h =>
    have hm := persistMount_mounted ready h
    refine ⟨(ataInit_spec ready boot.ata).2.2.1.congr hm.disks.sameDrives, ?_⟩
    by_cases hst : st = .noDisk
    · exact Or.inl (hm.state.trans hst)
    · exact Or.inr (hm.place hst)
  | @step s₁ s₂ op _ hstep ih =>
    obtain ⟨hdrives, hd | hp⟩ := ih
    · obtain ⟨hd', hata⟩ := step_noDisk ready hd hstep
      exact ⟨hata ▸ hdrives, Or.inl hd'⟩
    · have hb := step_sameBoot ready hp hstep
      exact ⟨hdrives.congr hb.drives, Or.inr (hb.atPlace hp)⟩

/-- The snapshot of the session is gone, and nothing may be written any more. -/
structure Wiped (sys : System) : Prop where
  isSealed : sys.persist.isSealed = true
  zero : sys.ata.media sys.persist.dataDrive sys.persist.dataBase =
    Sector.ofBytes (List.replicate ataSectorSize 0)

theorem wiped_at (sys : System) : wiped sys 1 sys.persist.dataDrive sys.persist.dataBase =
    Sector.ofBytes (List.replicate ataSectorSize 0) := by
  simp [wiped, overlay]

theorem Wiped.again {sys : System} (h : Wiped sys) {k : Nat} (hk : k ≤ 1) :
    wiped sys k = sys.ata.media := by
  funext d l
  unfold wiped overlay
  by_cases hc : d = sys.persist.dataDrive ∧ sys.persist.dataBase ≤ l ∧
      l < sys.persist.dataBase + k
  · obtain ⟨rfl, h1, h2⟩ := hc
    obtain rfl : l = sys.persist.dataBase := by omega
    rw [if_pos ⟨rfl, h1, h2⟩, h.zero]
    simp
  · rw [if_neg hc]

theorem Wiped.step {sys sys' : System} {op : Op} (hp : AtPlace sys.persist) (h : Wiped sys)
    (hstep : step env ready sys op = some sys') : Wiped sys' ∧ sys'.ata.media = sys.ata.media := by
  rcases step_cases ready hstep with ⟨res, -, hsave⟩ | ⟨-, rfl⟩ | ⟨fs, table, dirty, rfl⟩
  · rcases persistSave_cases ready hsave with ⟨-, t, rfl⟩ | ⟨hns, -⟩
    · exact ⟨⟨h.isSealed, h.zero⟩, rfl⟩
    · rw [h.isSealed] at hns
      simp at hns
  · obtain ⟨res, sys₁, hf, -, hdr, hb, -, hseal, ⟨k, hk, hmedia⟩, -⟩ := persistFormat_spec ready hp
    rw [hf]
    have hm : sys₁.ata.media = sys.ata.media := by rw [hmedia, h.again hk]
    refine ⟨⟨hseal h.isSealed, ?_⟩, hm⟩
    rw [hm, hdr, hb]
    exact h.zero
  · exact ⟨⟨h.isSealed, h.zero⟩, rfl⟩

theorem Wiped.steps {ok : System → Op → Prop} {sys sys' : System} (hp : AtPlace sys.persist)
    (h : Wiped sys) (hrun : Steps env ready ok sys sys') :
    Wiped sys' ∧ sys'.ata.media = sys.ata.media := by
  induction hrun with
  | refl => exact ⟨h, rfl⟩
  | step hsteps _ hstep ih =>
    obtain ⟨hw, hm⟩ := ih
    have hp' := (Steps.sameBoot ready hsteps hp).atPlace hp
    obtain ⟨hw', hm'⟩ := hw.step ready hp' hstep
    exact ⟨hw', hm'.trans hm⟩

/-! ## The boot after a wipe -/

/-- `next` is about to boot on the disks that `sys` left behind. -/
structure SameMachine (sys next : System) : Prop where
  size : next.ata.size = sys.ata.size
  media : next.ata.media = sys.ata.media

/-- The disk that was not wiped does not get in the way of the next boot, and the one that
was wiped is the place it chooses. -/
def StartsOver (sys : System) : Prop :=
  match sys.persist.dataDrive with
  | .slave => ¬SnapshotAt sys.ata .master installDataLba
  | .master =>
    (sys.ata.size .slave = 0 ∧ installDataLba + 64 < (sys.ata.size .master).toNat) ∨
      (sys.ata.size .slave ≠ 0 ∧ ¬HasMagic sys.ata.media .slave 0)

theorem not_hasMagic_wiped (sys : System) :
    ¬HasMagic (wiped sys 1) sys.persist.dataDrive sys.persist.dataBase := by
  unfold HasMagic
  rw [wiped_at]
  decide

theorem wiped_other {sys : System} {drive : Drive} {base : Nat}
    (h : drive ≠ sys.persist.dataDrive) :
    HasMagic (wiped sys 1) drive base ↔ HasMagic sys.ata.media drive base := by
  unfold HasMagic wiped overlay
  rw [if_neg fun hc => h hc.1]

/-- Where a boot with drives that answer looks, and what it makes of a place that is blank. -/
theorem persistMount_empty_iff {boot : System} (hr : ∀ t, ready t = true) :
    (∃ sys, persistMount env ready boot = some (.empty, sys) ∧ sys.fs = boot.fs ∧
        sys.table = boot.table) ↔
      boot.bootedFromMedium = false ∧ ¬SnapshotAt boot.ata .slave 0 ∧
        ¬SnapshotAt boot.ata .master installDataLba ∧
        ((boot.ata.size .slave ≠ 0 ∧ ¬HasMagic boot.ata.media .slave 0) ∨
          (boot.ata.size .slave = 0 ∧ installDataLba + 64 < (boot.ata.size .master).toNat)) := by
  obtain ⟨hmedia, hsize, hdrives, hfound⟩ := ataInit_spec ready boot.ata
  have hh : Healthy ready (ataInit ready boot.ata) :=
    ⟨hr, hdrives, fun d hd => hfound hr d (by rw [← hsize]; exact hd)⟩
  obtain ⟨ok, p, a, hchoose, hsame, -, hat, hwhere⟩ :=
    chooseLocation_spec ready { boot.persist with isSealed := false } (ataInit ready boot.ata)
  obtain ⟨hc₁, hc₂, hc₃, hc₄⟩ := hwhere hh
  unfold SnapshotAt at *
  rw [hmedia, hsize] at hc₁ hc₂ hc₃ hc₄
  constructor
  · rintro ⟨sys, hmount, -, -⟩
    obtain ⟨p', a', hs', -, hcase⟩ := persistMount_cases ready hmount
    rcases hcase with ⟨-, h, -⟩ | ⟨hm, ok', a₁, hchoose', -, hcase⟩
    · simp at h
    rw [hchoose] at hchoose'
    simp only [Prod.mk.injEq] at hchoose'
    obtain ⟨rfl, rfl, rfl⟩ := hchoose'
    rcases hcase with ⟨-, h, -⟩ | ⟨rfl, -, hcase⟩
    · simp at h
    rcases hcase with ⟨h, -⟩ | ⟨-, hno, -⟩ | ⟨-, hsnap⟩
    · simp at h
    · refine ⟨hm, ?_⟩
      by_cases h₁ : 0 + 1 < (boot.ata.size .slave).toNat ∧ HasMagic boot.ata.media .slave 0
      · obtain ⟨-, hd, hb⟩ := hc₁ h₁
        rw [hd, hb] at hno
        exact absurd h₁.2 hno
      by_cases h₂ : installDataLba + 1 < (boot.ata.size .master).toNat ∧
          HasMagic boot.ata.media .master installDataLba
      · obtain ⟨-, hd, hb⟩ := hc₂ h₁ h₂
        rw [hd, hb] at hno
        exact absurd h₂.2 hno
      refine ⟨h₁, h₂, ?_⟩
      by_cases hz : boot.ata.size .slave = 0
      · exact Or.inr ⟨hz, (hc₄ h₁ h₂ hz).1.mp rfl⟩
      · obtain ⟨-, hd, hb⟩ := hc₃ h₁ h₂ hz
        rw [hd, hb] at hno
        exact Or.inl ⟨hz, hno⟩
    · rcases mountSnapshot_cases ready (by exact hat rfl) hsnap with ⟨h, -⟩ | ⟨-, a₂, r, sys₂, -, -, -, h⟩
      · simp at h
      · rcases h with ⟨-, h, -⟩ | ⟨-, h, -⟩ <;> simp at h
  · rintro ⟨hm, h₁, h₂, hend⟩
    have hh' : Healthy ready a := hh.congr hsame.sameDrives
    have hsz : a.size = boot.ata.size := hsame.size.trans hsize
    have hmd : a.media = boot.ata.media := hsame.media.trans hmedia
    rcases hend with ⟨hz, hno⟩ | ⟨hz, hbig⟩
    · obtain ⟨rfl, hd, hb⟩ := hc₃ h₁ h₂ hz
      have hpos : 0 < (a.size .slave).toNat := size_pos (by rw [hsz]; exact hz)
      obtain ⟨a', hread, -⟩ := hh'.read hpos (by decide)
      refine ⟨_, persistMount_blank ready hm hchoose (by rw [hd, hb]; exact hread) ?_, rfl, rfl⟩
      rw [hmd]
      exact hno
    · obtain ⟨hok, hpl⟩ := hc₄ h₁ h₂ hz
      have hok' := hok.mpr hbig
      subst hok'
      obtain ⟨hd, hb⟩ := hpl rfl
      have hlt : installDataLba < (a.size .master).toNat := by
        rw [hsz]
        omega
      obtain ⟨a', hread, -⟩ := hh'.read hlt (by decide)
      refine ⟨_, persistMount_blank ready hm hchoose (by rw [hd, hb]; exact hread) ?_, rfl, rfl⟩
      rw [hmd]
      intro hmagic
      exact h₂ ⟨by omega, hmagic⟩

/-- **When a wiped machine starts over.** After a format that reported success, whatever
the session goes on to do, the next boot comes up empty if and only if it is not a boot
off the install medium and the disks were as `StartsOver` says when the format ran. -/
theorem format_starts_over {env' : Env} {ready' : Nat → Bool} {boot s₀ s₁ s₂ next : System}
    (hsession : Session env ready boot s₀) (hformat : persistFormat ready s₀ = (0, s₁))
    (hrun : Steps env ready (fun _ _ => True) s₁ s₂) (hnext : SameMachine s₂ next)
    (hready : ∀ t, ready' t = true) :
    (∃ sys, persistMount env' ready' next = some (.empty, sys) ∧ sys.fs = next.fs ∧
        sys.table = next.table) ↔
      next.bootedFromMedium = false ∧ StartsOver s₀ := by
  obtain ⟨hknown, hd | hp⟩ := Session.place ready hsession
  · unfold persistFormat at hformat
    rw [if_pos hd] at hformat
    simp at hformat
  obtain ⟨res, s, hf, hdrives, hdrive, hbase, -, -, -, hok⟩ := persistFormat_spec ready hp
  rw [hformat] at hf
  obtain ⟨rfl, rfl⟩ := Prod.mk.inj hf
  obtain ⟨-, hseal, hmedia, hpresent⟩ := hok rfl
  have hp₁ : AtPlace s₁.persist := by
    unfold AtPlace
    rw [hdrive, hbase]
    exact hp
  have hw : Wiped s₁ := ⟨hseal, by rw [hmedia, hdrive, hbase, wiped_at]⟩
  have hm₂ : next.ata.media = wiped s₀ 1 := by
    rw [hnext.media, (hw.steps ready hp₁ hrun).2, hmedia]
  have hz₂ : next.ata.size = s₀.ata.size := by
    rw [hnext.size, (Steps.sameBoot ready hrun hp₁).drives.size, hdrives.size]
  have hsize := (hknown _ hpresent).2
  have hgone := not_hasMagic_wiped s₀
  rw [persistMount_empty_iff ready' hready]
  refine and_congr_right fun _ => ?_
  unfold StartsOver SnapshotAt
  rw [hm₂, hz₂]
  rcases hp with ⟨hd, hb⟩ | ⟨hd, hb⟩
  · have hmaster : HasMagic (wiped s₀ 1) .master installDataLba ↔
        HasMagic s₀.ata.media .master installDataLba := wiped_other (by rw [hd]; simp)
    rw [hd, hb] at hgone
    rw [hd] at hsize ⊢
    rw [hmaster]
    exact ⟨fun h => h.2.1, fun h => ⟨fun hc => hgone hc.2, h, Or.inl ⟨hsize, hgone⟩⟩⟩
  · have hslave : HasMagic (wiped s₀ 1) .slave 0 ↔ HasMagic s₀.ata.media .slave 0 :=
      wiped_other (by rw [hd]; simp)
    have hnone : s₀.ata.size .slave = 0 → ¬(0 + 1 < (s₀.ata.size .slave).toNat) := by
      intro hz
      rw [hz]
      simp
    rw [hd, hb] at hgone
    rw [hd, hslave]
    constructor
    · rintro ⟨-, -, h | h⟩
      · exact Or.inr h
      · exact Or.inl h
    · rintro (⟨hz, hbig⟩ | ⟨hz, hno⟩)
      · exact ⟨fun h => hnone hz h.1, fun h => hgone h.2, Or.inr ⟨hz, hbig⟩⟩
      · exact ⟨fun h => hno h.2, fun h => hgone h.2, Or.inl ⟨hz, hno⟩⟩

/-- The machine after a reboot: everything in memory is as at the first boot. -/
def System.rebooted (sys boot : System) : System :=
  { boot with ata := { sys.ata with drives := fun _ => {}, time := 0 } }

/-- With one disk, marking changes after the format does not keep the machine from starting
over. -/
theorem format_starts_over_one_disk : ∃ sys s₁,
    persistMount .ample (fun _ => true) (freshBoot laterVersion) = some (.error, sys) ∧
      persistFormat (fun _ => true) sys = (0, s₁) ∧
      ∃ after, persistMount .ample (fun _ => true)
        ((persistMarkDirty s₁).rebooted (freshBoot laterVersion)) = some (.empty, after) := by
  have h : (persistMount .ample (fun _ => true) (freshBoot laterVersion)).map (fun r =>
      (r.1, (persistFormat (fun _ => true) r.2).1, r.2.persist.dataDrive)) =
      some (.error, 0, .slave) := by decide +kernel
  simp only [Option.map_eq_some_iff, Prod.mk.injEq] at h
  obtain ⟨⟨st, sys⟩, hm, rfl, hf, hdrive⟩ := h
  have hmounted := persistMount_mounted _ hm
  have hsize : sys.ata.size .master = 0 := by
    rw [hmounted.disks.size, (ataInit_spec _ _).2.1]
    rfl
  have hformat : persistFormat (fun _ => true) sys = (0, (persistFormat (fun _ => true) sys).2) :=
    Prod.ext hf rfl
  have hrun : Steps .ample (fun _ => true) (fun _ _ => True) (persistFormat (fun _ => true) sys).2
      (persistMarkDirty (persistFormat (fun _ => true) sys).2) := by
    have hmark : step .ample (fun _ => true) (persistFormat (fun _ => true) sys).2 .markDirty =
      some (persistMarkDirty (persistFormat (fun _ => true) sys).2) := rfl
    exact .step .refl trivial hmark
  have hstart : StartsOver sys := by
    have hdrive' : sys.persist.dataDrive = .slave := hdrive
    unfold StartsOver SnapshotAt
    rw [hdrive', hsize]
    simp
  have hnext : SameMachine (persistMarkDirty (persistFormat (fun _ => true) sys).2)
      ((persistMarkDirty (persistFormat (fun _ => true) sys).2).rebooted
        (freshBoot laterVersion)) := ⟨rfl, rfl⟩
  obtain ⟨e, he, -⟩ : ∃ e, persistMount .ample (fun _ => true)
      ((persistMarkDirty (persistFormat (fun _ => true) sys).2).rebooted
        (freshBoot laterVersion)) = some (.empty, e) ∧ _ :=
    (format_starts_over _ (.mount hm) hformat hrun hnext fun _ => rfl).mpr ⟨rfl, hstart⟩
  exact ⟨sys, _, hm, hformat, e, he⟩

/-- A payload with no account and the directory `/x`. -/
def onlyX : List UInt8 := [kindDir] ++ le16 2 ++ le32 0 ++ ofString "/x"

/-- A disk with a snapshot of `onlyX` at `base`. -/
def diskWithX (base lba : Nat) : Sector :=
  if lba = base then
    Sector.ofBytes (Super.encode {
      magic := magicBytes, version := persistVersion, payloadBytes := onlyX.length, nodeCount := 1,
      userCount := 0, checksum := (checksum onlyX).toNat, saves := 1 })
  else if lba = base + 1 then Sector.ofBytes onlyX
  else Sector.ofBytes []

/-- A snapshot on each of the two disks. -/
def twoSnapshots : System :=
  { freshBoot (diskWithX 0) with ata := {
      size := fun _ => 4096
      media := fun d => match d with
        | .slave => diskWithX 0
        | .master => diskWithX installDataLba
      drives := fun _ => {}
      time := 0 } }

/-- The format wipes the slave, and the next boot restores what the master holds. -/
theorem format_leaves_other_disk : ∃ sys s₁ sys',
    persistMount .ample (fun _ => true) twoSnapshots = some (.loaded, sys) ∧
      persistFormat (fun _ => true) sys = (0, s₁) ∧
      persistMount .ample (fun _ => true) (s₁.rebooted twoSnapshots) = some (.loaded, sys') ∧
      fsResolve sys'.fs (ofString "/x") ≠ some none := by
  have h : (persistMount .ample (fun _ => true) twoSnapshots).map (fun r =>
      (r.1, (persistFormat (fun _ => true) r.2).1,
        (persistMount .ample (fun _ => true)
          ((persistFormat (fun _ => true) r.2).2.rebooted twoSnapshots)).map fun q =>
            (q.1, decide (fsResolve q.2.fs (ofString "/x") ≠ some none)))) =
      some (.loaded, 0, some (.loaded, true)) := by decide +kernel
  simp only [Option.map_eq_some_iff, Prod.mk.injEq, decide_eq_true_eq] at h
  obtain ⟨⟨st, sys⟩, hm, rfl, hf, ⟨st', sys'⟩, hm', rfl, hx⟩ := h
  exact ⟨sys, _, sys', hm, Prod.ext hf rfl, hm', hx⟩

end LightningOS.Persist
