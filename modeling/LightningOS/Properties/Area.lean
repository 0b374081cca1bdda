import LightningOS.Properties.PersistRun

/-!
# Where snapshots are written

Mounting writes nothing. What comes after a mount changes sectors only on the drive it
chose, from the superblock on up to the end of the reserve, and no sector at all if it found
no disk. So the boot sector and the kernel in front of the data area stay as they are.
-/

namespace LightningOS.Persist

open ByteMemory CString Ramfs Users Ata

variable (env : Env) (ready : Nat → Bool)

/-- A machine from its start on, with mounts and the other calls in any order. `last` is
what the last mount returned, and the state it left. -/
inductive Life (start : System) : Option (PersistState × System) → System → Prop
  | start : start.persist.state = .noDisk → Life start none start
  | mount {last : Option (PersistState × System)} {sys sys' : System} {st : PersistState} :
      Life start last sys → persistMount env ready sys = some (st, sys') →
      Life start (some (st, sys')) sys'
  | call {last : Option (PersistState × System)} {sys sys' : System} {op : Op} :
      Life start last sys → step env ready sys op = some sys' → Life start last sys'

/-- The sector belongs to the place that the last mount chose. -/
def InArea (last : Option (PersistState × System)) (drive : Drive) (lba : Nat) : Prop :=
  ∃ st m, last = some (st, m) ∧ st ≠ .noDisk ∧ AtPlace m.persist ∧ drive = m.persist.dataDrive ∧
    m.persist.dataBase ≤ lba ∧ lba ≤ m.persist.dataBase + 2048

variable {env ready}

/-! ## One call -/

theorem overlay_changed {media : Drive → Nat → Sector} {drive d : Drive} {lba k l : Nat}
    {buf : List UInt8} (h : overlay media drive lba k buf d l ≠ media d l) :
    d = drive ∧ lba ≤ l ∧ l < lba + k := by
  unfold overlay at h
  by_contra hc
  rw [if_neg hc] at h
  exact h rfl

/-- A save changes sectors of its place only. -/
theorem persistSave_area {sys sys' : System} {res : Int} (hp : AtPlace sys.persist)
    (h : persistSave env ready sys = some (res, sys')) {d : Drive} {l : Nat}
    (hne : sys'.ata.media d l ≠ sys.ata.media d l) :
    d = sys.persist.dataDrive ∧ sys.persist.dataBase ≤ l ∧ l ≤ sys.persist.dataBase + 2048 := by
  rcases persistSave_cases ready h with ⟨-, t, rfl⟩ | ⟨-, -, -, w, users, nodes, -, -, hlen, hw⟩
  · exact absurd rfl hne
  obtain ⟨res', sys₂, hw', -, -, -, hcase⟩ :=
    @writeSnapshot_spec ready (sys.buffered env) w.buffer users nodes hp hlen
  rw [hw] at hw'
  obtain ⟨rfl, rfl⟩ := Prod.mk.inj hw'
  have hcount := payloadCount_le hlen
  -- the payload is behind the superblock
  have hpayload : ∀ {k}, k ≤ payloadCount w.buffer.length →
      payloadWritten (sys.buffered env) w.buffer k d l ≠ sys.ata.media d l →
      d = sys.persist.dataDrive ∧ sys.persist.dataBase ≤ l ∧ l ≤ sys.persist.dataBase + 2048 := by
    intro k hk hc
    obtain ⟨hd, hlo, hhi⟩ := overlay_changed hc
    have hbase : (sys.buffered env).persist.dataBase = sys.persist.dataBase := rfl
    rw [hbase] at hlo hhi
    exact ⟨hd, by omega, by omega⟩
  rcases hcase with ⟨-, k, hk, hm⟩ | ⟨k, hk, -, -, hm⟩
  · rw [hm] at hne
    exact hpayload hk hne
  · rw [hm] at hne
    by_cases hsame : overlay (payloadWritten (sys.buffered env) w.buffer
        (payloadCount w.buffer.length)) (sys.buffered env).persist.dataDrive
        (sys.buffered env).persist.dataBase k
        (newSuper (sys.buffered env).persist w.buffer users nodes).encode d l =
      payloadWritten (sys.buffered env) w.buffer (payloadCount w.buffer.length) d l
    · rw [hsame] at hne
      exact hpayload (Nat.le_refl _) hne
    · obtain ⟨hd, hlo, hhi⟩ := overlay_changed hsame
      have hbase : (sys.buffered env).persist.dataBase = sys.persist.dataBase := rfl
      rw [hbase] at hlo hhi
      exact ⟨hd, by omega, by omega⟩

theorem step_area {sys sys' : System} {op : Op} (hp : AtPlace sys.persist)
    (h : step env ready sys op = some sys') {d : Drive} {l : Nat}
    (hne : sys'.ata.media d l ≠ sys.ata.media d l) :
    d = sys.persist.dataDrive ∧ sys.persist.dataBase ≤ l ∧ l ≤ sys.persist.dataBase + 2048 := by
  rcases step_cases ready h with ⟨res, -, hsave⟩ | ⟨-, rfl⟩ | ⟨fs, table, dirty, rfl⟩
  · exact persistSave_area hp hsave hne
  · obtain ⟨res, sys₁, hf, -, -, -, -, -, ⟨k, hk, hm⟩, -⟩ := persistFormat_spec ready hp
    rw [hf, hm] at hne
    obtain ⟨hd, hlo, hhi⟩ := overlay_changed hne
    exact ⟨hd, hlo, by omega⟩
  · exact absurd rfl hne

theorem persistMount_media {sys sys' : System} {st : PersistState}
    (h : persistMount env ready sys = some (st, sys')) : sys'.ata.media = sys.ata.media :=
  (persistMount_mounted ready h).disks.media.trans (ataInit_spec ready sys.ata).1

/-! ## Whole lives -/

/-- What a machine knows about its last mount. -/
theorem Life.placed {start sys : System} {last : Option (PersistState × System)}
    (h : Life env ready start last sys) :
    sys.persist.state = .noDisk ∧ (∀ st m, last = some (st, m) → st = .noDisk) ∨
      ∃ st m, last = some (st, m) ∧ st ≠ .noDisk ∧ AtPlace m.persist ∧ SameBoot m sys := by
  induction h with
  | start hd => exact Or.inl ⟨hd, by simp⟩
  | @mount _ sys sys' st _ hm _ =>
    have hmounted := persistMount_mounted ready hm
    by_cases hst : st = .noDisk
    · refine Or.inl ⟨hmounted.state.trans hst, fun st' m he => ?_⟩
      simp only [Option.some.injEq, Prod.mk.injEq] at he
      rw [← he.1, hst]
    · exact Or.inr ⟨st, sys', rfl, hst, hmounted.place hst, .refl sys'⟩
  | call _ hstep ih =>
    rcases ih with ⟨hd, hlast⟩ | ⟨st, m, hlast, hst, hp, hsame⟩
    · exact Or.inl ⟨(step_noDisk ready hd hstep).1, hlast⟩
    · exact Or.inr ⟨st, m, hlast, hst, hp,
        hsame.trans (step_sameBoot ready (hsame.atPlace hp) hstep)⟩

/-- A call changes sectors of the last mount's place only. -/
theorem Life.step_inArea {start sys sys' : System} {last : Option (PersistState × System)}
    {op : Op} (h : Life env ready start last sys) (hstep : step env ready sys op = some sys')
    {d : Drive} {l : Nat} (hne : sys'.ata.media d l ≠ sys.ata.media d l) : InArea last d l := by
  rcases h.placed with ⟨hd, -⟩ | ⟨st, m, hlast, hst, hp, hsame⟩
  · rw [(step_noDisk ready hd hstep).2] at hne
    exact absurd rfl hne
  · obtain ⟨hdrive, hlo, hhi⟩ := step_area (hsame.atPlace hp) hstep hne
    rw [hsame.drive] at hdrive
    rw [hsame.base] at hlo hhi
    exact ⟨st, m, hlast, hst, hp, hdrive, hlo, hhi⟩

/-- The sectors in front of the data area are in no place for snapshots. -/
theorem not_inArea_kernel {last : Option (PersistState × System)} {l : Nat} (h : l < 2048) :
    ¬InArea last .master l := by
  rintro ⟨st, m, -, -, hp, hd, hlo, -⟩
  rcases hp with ⟨hs, -⟩ | ⟨-, hb⟩
  · rw [hs] at hd
    simp at hd
  · rw [hb] at hlo
    unfold installDataLba at hlo
    omega

variable (env ready)

/-- **Snapshots stay in their area.** Along every life of a machine, a mount writes nothing,
every other call changes sectors of the last mount's place only, none if that mount found
no disk, and the sectors of the boot disk in front of the data area never change. -/
theorem persist_stays_in_area {start sys : System} {last : Option (PersistState × System)}
    (h : Life env ready start last sys) :
    (∀ st sys', persistMount env ready sys = some (st, sys') →
        sys'.ata.media = sys.ata.media) ∧
      (∀ op sys', step env ready sys op = some sys' →
        ∀ d l, sys'.ata.media d l ≠ sys.ata.media d l → InArea last d l) ∧
      ∀ l < 2048, sys.ata.media .master l = start.ata.media .master l := by
  refine ⟨fun st sys' hm => persistMount_media hm, fun op sys' hstep d l hne =>
    h.step_inArea hstep hne, fun l hl => ?_⟩
  induction h with
  | start _ => rfl
  | mount _ hm ih => rw [persistMount_media hm, ih]
  | call hlife hstep ih =>
    by_contra hne
    rw [← ih] at hne
    exact not_inArea_kernel hl (hlife.step_inArea hstep hne)

/-- A machine with a blank disk as the primary slave, before anything else is set up. -/
def blankDisk : System where
  fs := .zero
  table := usersInit
  persist := {}
  ata := {
    size := fun d => if d = .slave then 4096 else 0
    media := fun _ _ => Sector.ofBytes []
    drives := fun _ => {}
    time := 0 }
  bootedFromMedium := false

/-- Mounted and formatted, the machine goes on as promised. -/
theorem persist_stays_in_area_format : ∃ m sys,
    persistMount .ample (fun _ => true) blankDisk = some (.empty, m) ∧
      step .ample (fun _ => true) m .format = some sys ∧
      (∀ op sys', step .ample (fun _ => true) sys op = some sys' →
        ∀ d l, sys'.ata.media d l ≠ sys.ata.media d l → InArea (some (.empty, m)) d l) ∧
      ∀ l < 2048, sys.ata.media .master l = blankDisk.ata.media .master l := by
  have h : (persistMount .ample (fun _ => true) blankDisk).map Prod.fst = some .empty := by
    decide +kernel
  simp only [Option.map_eq_some_iff] at h
  obtain ⟨⟨st, m⟩, hm, rfl⟩ := h
  have hstep : step .ample (fun _ => true) m .format =
    some (persistFormat (fun _ => true) m).2 := rfl
  obtain ⟨-, harea, hkernel⟩ := persist_stays_in_area .ample (fun _ => true)
    ((Life.start rfl).mount hm |>.call hstep)
  exact ⟨m, _, hm, hstep, harea, hkernel⟩

end LightningOS.Persist
