import LightningOS.Kernel.Install
import LightningOS.Properties.PersistRun

/-!
# Booting what was installed

The installer, the boot sector and the search for a snapshot were written separately, and
have to agree on where things are. They do, except on the size of the smallest disk: the
installer accepts a disk of 2112 sectors, on which a mount finds no place for a snapshot.
-/

namespace LightningOS.Install

open ByteMemory Ramfs Ata Persist

/-! ## Sectors as bytes -/

/-- The boot sector's reads give what the driver's reads give. -/
theorem diskBytes_eq (disk : Nat → Sector) (lba n : Nat) : diskBytes disk lba n = sectorsAt disk lba n := by
  induction n with
  | zero => rfl
  | succ n ih =>
    rw [sectorsAt_add, ← ih, sectorsAt, sectorsAt, List.append_nil]
    simp [diskBytes, List.range_succ]

theorem diskBytes_length (disk : Nat → Sector) (lba n : Nat) :
    (diskBytes disk lba n).length = n * 512 := by
  rw [diskBytes_eq]
  exact sectorsAt_length disk n lba

theorem diskBytes_add (disk : Nat → Sector) (lba n m : Nat) :
    diskBytes disk lba (n + m) = diskBytes disk lba n ++ diskBytes disk (lba + n) m := by
  rw [diskBytes_eq, diskBytes_eq, diskBytes_eq, sectorsAt_add]

/-! ## The boot sector -/

theorem writeBytes_inside {mem : Memory} {a i : Nat} {bytes : List UInt8} (h : i < bytes.length) :
    bytes[i]? = some (writeBytes mem a bytes (a + i)) := by
  unfold writeBytes
  rw [if_pos ⟨by omega, by omega⟩, Nat.add_sub_cancel_left, List.getD_eq_getElem?_getD,
    List.getElem?_eq_getElem h]
  rfl

theorem writeBytes_outside {mem : Memory} {a x : Nat} {bytes : List UInt8}
    (h : x < a ∨ a + bytes.length ≤ x) : writeBytes mem a bytes x = mem x := by
  unfold writeBytes
  rw [if_neg (by omega)]

variable {bios : Nat → Bool} (disk : Nat → Sector)

/-- **The chunks end up one behind the other**, and memory in front of them is left alone. -/
theorem loadKernel_spec (hbios : ∀ t, bios t = true) :
    ∀ (n seg lba time : Nat) (mem : Memory), seg + n * 2048 < 65536 → lba + n * 64 < 4294967296 →
      ∃ mem', loadKernel bios disk n seg lba time mem = some mem' ∧
        (∀ x < seg * 16, mem' x = mem x) ∧
        ∀ i < n * 32768, (diskBytes disk lba (n * 64))[i]? = some (mem' (seg * 16 + i)) := by
  intro n
  induction n with
  | zero => exact fun _ _ _ mem _ _ => ⟨mem, rfl, fun _ _ => rfl, by simp⟩
  | succ n ih =>
    intro seg lba time mem hseg hlba
    have hchunk := diskBytes_length disk lba 64
    obtain ⟨mem', hload, hfront, hbytes⟩ := ih (seg + 2048) (lba + 64) (time + 1)
      (writeBytes mem (seg * 16) (diskBytes disk lba 64)) (by omega) (by omega)
    refine ⟨mem', ?_, ?_, ?_⟩
    · have hnextSeg : (seg + chunkSectors * 512 / 16) % 65536 = seg + 2048 := by
        show (seg + 2048) % 65536 = _
        omega
      have hnextLba : wrap32 (lba + chunkSectors) = lba + 64 := wrap32_of_lt (by
        show lba + 64 < _
        omega)
      simp only [loadKernel, tryChunk, hbios time, if_true, hnextSeg, hnextLba]
      exact hload
    · intro x hx
      rw [hfront x (by omega), writeBytes_outside (Or.inl hx)]
    · intro i hi
      rw [show (n + 1) * 64 = 64 + n * 64 by omega, diskBytes_add]
      by_cases hfirst : i < 32768
      · rw [List.getElem?_append_left (by omega), hfront _ (by omega)]
        exact writeBytes_inside (by omega)
      · rw [List.getElem?_append_right (by omega), hbytes _ (by omega)]
        congr 2
        omega

theorem bootSector_spec (hbios : ∀ t, bios t = true) (mem : Memory) :
    ∃ mem', bootSector bios disk mem = some mem' ∧ installBootedFromMedium mem' = false ∧
      ∀ i < 131072, (diskBytes disk 1 256)[i]? = some (mem' (0x10000 + i)) := by
  obtain ⟨mem', hload, hfront, hbytes⟩ := loadKernel_spec disk hbios 4 0x1000 1 0
    (store32 mem bootFlagAddr 0) (by decide) (by decide)
  refine ⟨mem', hload, ?_, hbytes⟩
  have hflag : load32 mem' bootFlagAddr = 0 := by
    have hsame : load32 mem' bootFlagAddr = load32 (store32 mem bootFlagAddr 0) bootFlagAddr :=
      load32_congr fun x _ hx => hfront x (by
        have : bootFlagAddr = 28672 := rfl
        omega)
    rw [hsame, load32_store32_same]
    rfl
  unfold installBootedFromMedium
  rw [hflag]
  rfl

/-! ## The installer -/

variable {env : Env} {ready : Nat → Bool}

/-- What is on a disk after an installation. -/
structure Installed (losBootSector : Sector) (disk : Nat → Sector) (bytes : List UInt8) : Prop where
  boot : disk 0 = losBootSector
  kernel : diskBytes disk 1 (wrap32 (bytes.length + 511) / 512) =
    bytes ++ List.replicate (wrap32 (bytes.length + 511) / 512 * 512 - bytes.length) 0
  blank : disk installDataLba = Sector.ofBytes (List.replicate ataSectorSize 0)

/-- Three writes that do not overlap. -/
theorem installed_of_writes {losBootSector : Sector} {media : Drive → Nat → Sector} {drive : Drive}
    {k : Nat} {buffer : List UInt8} (hk : k ≤ 256) (hlen : buffer.length = k * 512) :
    let media' := overlay (overlay (overlay media drive 0 1 losBootSector.val) drive 1 k buffer)
      drive installDataLba 1 (List.replicate ataSectorSize 0)
    media' drive 0 = losBootSector ∧ diskBytes (media' drive) 1 k = buffer ∧
      media' drive installDataLba = Sector.ofBytes (List.replicate ataSectorSize 0) := by
  have hdata : installDataLba = 2048 := rfl
  refine ⟨?_, ?_, ?_⟩
  · rw [overlay_other (by omega), overlay_other (by omega)]
    unfold overlay
    rw [if_pos ⟨rfl, by omega, by omega⟩, Nat.sub_self, Nat.zero_mul, List.drop_zero,
      Subtype.ext (ofBytes_of_length losBootSector.2)]
  · calc
      _ = sectorsAt (overlay (overlay media drive 0 1 losBootSector.val) drive 1 k buffer drive) 1 k := by
        rw [diskBytes_eq]
        exact sectorsAt_congr fun l h₁ h₂ => overlay_other (by omega)
      _ = buffer := sectorsAt_overlay _ drive 1 hlen
  · unfold overlay
    rw [if_pos ⟨rfl, by omega, by omega⟩, Nat.sub_self, Nat.zero_mul, List.drop_zero]

/-- **An installation that reports success wrote everything**, on a disk with room for it. -/
theorem installToDisk_spec {losBootSector : Sector} {sys sys' : System} {image : Image}
    {drive : Drive} {copy : List UInt8} (hdrives : DrivesOk sys.ata)
    (hcopy : image.imageCopy = some copy) (hlen : copy.length = image.imageBytes)
    (hmax : image.imageBytes ≤ 131072)
    (h : installToDisk env ready losBootSector sys image drive = (0, sys')) :
    sys'.ata.size = sys.ata.size ∧ installDataLba + 64 ≤ (sys.ata.size drive).toNat ∧
      Installed losBootSector (sys'.ata.media drive) copy := by
  have hsectors : installImageSectors image = wrap32 (copy.length + 511) / 512 := by
    rw [hlen]
    rfl
  have hle : installImageSectors image ≤ 256 := by
    rw [hsectors, hlen, wrap32_of_lt (by omega)]
    omega
  have hpadded : wrap32 (installImageSectors image * ataSectorSize) =
      installImageSectors image * 512 := wrap32_of_lt (by
    show installImageSectors image * 512 < _
    omega)
  obtain ⟨r₁, a₁, k₁, hw₁, -, hs₁, hm₁, -, hall₁, -⟩ :=
    ataWrite_spec ready drive (show 0 + 1 ≤ 268435456 by decide) losBootSector.val sys.ata
  obtain ⟨r₂, a₂, k₂, hw₂, -, hs₂, hm₂, -, hall₂, -⟩ :=
    ataWrite_spec ready drive (show 1 + installImageSectors image ≤ 268435456 by omega)
      (copy ++ List.replicate (installImageSectors image * 512 - image.imageBytes) 0) a₁
  obtain ⟨r₃, a₃, k₃, hw₃, -, hs₃, hm₃, -, hall₃, -⟩ :=
    ataWrite_spec ready drive (show installDataLba + 1 ≤ 268435456 by decide)
      (List.replicate ataSectorSize 0) a₂
  unfold installToDisk at h
  simp only [hcopy, hw₁, hpadded] at h
  by_cases hzero : image.imageBytes = 0
  · simp [hzero] at h
  by_cases hpresent : ataPresent sys.ata drive = false
  · simp [hzero, hpresent] at h
  by_cases hbig : installKernelMax < installImageSectors image
  · simp [hzero, hpresent, hbig] at h
  by_cases hsmall : ataSectorCount sys.ata drive < installDataLba + 64
  · simp [hzero, hpresent, hbig, hsmall] at h
  have hsize : installDataLba + 64 ≤ (sys.ata.size drive).toNat := by
    have hp : ataPresent sys.ata drive = true := by simpa using hpresent
    unfold ataSectorCount at hsmall
    rw [if_pos hp, (hdrives drive hp).1] at hsmall
    omega
  rw [if_neg hzero, if_neg hpresent, if_neg hbig, if_neg hsmall] at h
  by_cases h₁ : r₁ = 0
  · subst h₁
    obtain ⟨rfl, -, -⟩ := hall₁ rfl
    simp only [ne_eq, not_true_eq_false, if_false, System.tmpAlloc] at h
    cases halloc : (sys.fs.alloc env (installImageSectors image * 512)).1.isSome with
    | false => simp [halloc] at h
    | true =>
      simp only [halloc] at h
      have hlba : installKernelLba = 1 := rfl
      simp only [hlba, hw₂] at h
      by_cases h₂ : r₂ = 0
      · subst h₂
        obtain ⟨rfl, -, -⟩ := hall₂ rfl
        simp only [not_true_eq_false, if_false, hw₃] at h
        by_cases h₃ : r₃ = 0
        · subst h₃
          obtain ⟨rfl, -, -⟩ := hall₃ rfl
          simp only [not_true_eq_false, if_false, Prod.mk.injEq, true_and] at h
          subst h
          refine ⟨by rw [hs₃.size, hs₂.size, hs₁.size], hsize, ?_⟩
          have hbuffer : (copy ++ List.replicate
              (installImageSectors image * 512 - image.imageBytes) 0).length =
                installImageSectors image * 512 := by
            rw [List.length_append, List.length_replicate, hlen, hsectors, hlen,
              wrap32_of_lt (by omega)]
            omega
          obtain ⟨hboot, hkernel, hblank⟩ := @installed_of_writes losBootSector sys.ata.media drive
            _ _ hle hbuffer
          rw [← hm₁, ← hm₂, ← hm₃] at hboot hkernel hblank
          rw [hsectors, ← hlen] at hkernel
          exact ⟨hboot, hkernel, hblank⟩
        · simp [h₃] at h
      · simp [h₂] at h
  · simp [h₁] at h

/-! ## The next boot -/

/-- A machine with the disk `drive` of `sys` as its only disk. -/
structure Alone (sys : System) (drive : Drive) (boot : System) : Prop where
  size : boot.ata.size .master = sys.ata.size drive
  none : boot.ata.size .slave = 0
  media : boot.ata.media .master = sys.ata.media drive

/-- What commands do before the first save: they change the tree and the accounts, and mark
that. -/
structure InMemory (sys sys' : System) : Prop where
  ata : sys'.ata = sys.ata
  persist : sys'.persist = { sys.persist with dirty := sys'.persist.dirty }

/-- A first save, with a payload of at most 63 sectors, reports success and puts its
superblock and its payload into the data area. -/
def FirstSave (env : Env) (ready : Nat → Bool) (sys : System) : Prop :=
  ∀ {w : Writer} {users nodes : Nat}, (sys.fs.alloc env maxPayload).1 ≠ Option.none →
    encodeAll (sys.buffered env).fs sys.table = some (w, users, nodes) → w.overflow = false →
    payloadCount w.buffer.length ≤ 63 →
    ∃ sys', persistSave env ready sys = some (0, sys') ∧
      (sys'.ata.media .master installDataLba).val =
        (newSuper sys.persist w.buffer users nodes).encode ∧
      diskBytes (sys'.ata.media .master) (installDataLba + 1) (payloadCount w.buffer.length) =
        payloadImage w.buffer

/-- Booting from the disk `drive` of `sys` alone loads the kernel `bytes`, finds no snapshot
and a place for one in the data area, where a first save goes. -/
def StartsUp (env : Env) (losBootSector : Sector) (sys : System) (drive : Drive)
    (bytes : List UInt8) : Prop :=
  sys.ata.media drive 0 = losBootSector ∧
  ∀ {bios ready : Nat → Bool} (mem : Memory) {boot : System}, (∀ t, bios t = true) →
    (∀ t, ready t = true) → Alone sys drive boot →
    ∃ mem', bootSector bios (sys.ata.media drive) mem = some mem' ∧
      (∀ i < bytes.length, bytes[i]? = some (mem' (0x10000 + i))) ∧
      (boot.bootedFromMedium = installBootedFromMedium mem' →
        ∃ sys₁, persistMount env ready boot = some (.empty, sys₁) ∧
          sys₁.persist.dataDrive = .master ∧ sys₁.persist.dataBase = installDataLba ∧
          ∀ {sys₂ : System}, InMemory sys₁ sys₂ → FirstSave env ready sys₂)

/-- The kernel comes back as it was captured. -/
theorem Installed.loaded {losBootSector : Sector} {disk : Nat → Sector} {bytes : List UInt8}
    (h : Installed losBootSector disk bytes) (hmax : bytes.length ≤ 131072) {bios : Nat → Bool}
    (hbios : ∀ t, bios t = true) (mem : Memory) :
    ∃ mem', bootSector bios disk mem = some mem' ∧ installBootedFromMedium mem' = false ∧
      ∀ i < bytes.length, bytes[i]? = some (mem' (0x10000 + i)) := by
  obtain ⟨mem', hboot, hflag, hmem⟩ := bootSector_spec disk hbios mem
  refine ⟨mem', hboot, hflag, fun i hi => ?_⟩
  have hkernel := h.kernel
  rw [wrap32_of_lt (by omega)] at hkernel
  have hsplit : diskBytes disk 1 256 = diskBytes disk 1 ((bytes.length + 511) / 512) ++
      diskBytes disk (1 + (bytes.length + 511) / 512) (256 - (bytes.length + 511) / 512) := by
    rw [← diskBytes_add, Nat.add_sub_cancel' (by omega)]
  rw [← hmem i (by omega), hsplit, hkernel, List.append_assoc, List.getElem?_append_left hi]

/-- Where a boot looks: the master is chosen if it has room, and nothing else is. -/
theorem Installed.choose {losBootSector : Sector} {sys boot : System} {drive : Drive}
    {bytes : List UInt8} (h : Installed losBootSector (sys.ata.media drive) bytes)
    (hready : ∀ t, ready t = true) (halone : Alone sys drive boot) :
    ∃ ok p a, chooseLocation ready { boot.persist with isSealed := false }
        (ataInit ready boot.ata) = (ok, p, a) ∧ SameDisks (ataInit ready boot.ata) a ∧
      (ok = true ↔ installDataLba + 64 < (sys.ata.size drive).toNat) ∧
      (ok = true → p.dataDrive = .master ∧ p.dataBase = installDataLba) := by
  obtain ⟨hmedia, hsize, -, -⟩ := ataInit_spec ready boot.ata
  obtain ⟨ok, p, a, hchoose, hsame, -, -, hwhere⟩ :=
    chooseLocation_spec ready { boot.persist with isSealed := false } (ataInit ready boot.ata)
  obtain ⟨-, -, -, hblank⟩ := hwhere (ataInit_healthy hready boot.ata)
  have hslave : ¬SnapshotAt (ataInit ready boot.ata) .slave 0 := by
    unfold SnapshotAt
    rw [hsize, halone.none]
    simp
  have hmaster : ¬SnapshotAt (ataInit ready boot.ata) .master installDataLba := by
    unfold SnapshotAt HasMagic
    rw [hmedia, halone.media, h.blank]
    exact fun hc => absurd hc.2 (by decide)
  obtain ⟨hok, hplace⟩ := hblank hslave hmaster (by rw [hsize, halone.none])
  rw [hsize, halone.size] at hok
  exact ⟨ok, p, a, hchoose, hsame, hok, hplace⟩

/-- **Mounting the disk on its own**, when it is larger than the installer asks for. -/
theorem Installed.mount {losBootSector : Sector} {sys boot : System} {drive : Drive}
    {bytes : List UInt8} (h : Installed losBootSector (sys.ata.media drive) bytes)
    (hready : ∀ t, ready t = true) (halone : Alone sys drive boot)
    (hmedium : boot.bootedFromMedium = false)
    (hroom : installDataLba + 64 < (sys.ata.size drive).toNat) :
    ∃ sys₁, persistMount env ready boot = some (.empty, sys₁) ∧
      sys₁.persist.dataDrive = .master ∧ sys₁.persist.dataBase = installDataLba ∧
      Healthy ready sys₁.ata ∧ sys₁.ata.size .master = sys.ata.size drive := by
  obtain ⟨hmedia, hsize, -, -⟩ := ataInit_spec ready boot.ata
  obtain ⟨ok, p, a, hchoose, hsame, hok, hplace⟩ := h.choose hready halone
  obtain rfl := hok.mpr hroom
  obtain ⟨hdrive, hbase⟩ := hplace rfl
  have hh := (ataInit_healthy hready boot.ata).congr hsame.sameDrives
  have hsz : a.size .master = sys.ata.size drive := by
    rw [hsame.size, hsize, halone.size]
  obtain ⟨a', hread, hsame'⟩ :=
    @Healthy.read ready a hh .master installDataLba (by rw [hsz]; omega) (by decide)
  refine ⟨_, persistMount_blank ready hmedium hchoose (by rw [hdrive, hbase]; exact hread) ?_,
    hdrive, hbase, hh.congr hsame'.sameDrives, ?_⟩
  · rw [hsame.media, hmedia, halone.media, h.blank]
    decide
  · show a'.size .master = _
    rw [hsame'.size, hsz]

/-- A payload of 63 sectors fits behind the superblock. -/
theorem firstSave {sys : System} (hh : Healthy ready sys.ata)
    (hdrive : sys.persist.dataDrive = .master) (hbase : sys.persist.dataBase = installDataLba)
    (hstate : sys.persist.state = .empty) (hsealed : sys.persist.isSealed = false)
    (hroom : installDataLba + 64 ≤ (sys.ata.size .master).toNat) : FirstSave env ready sys := by
  intro w users nodes halloc hencode hfits hcount
  have hlen : w.buffer.length ≤ maxPayload := encodeAll_le hencode
  obtain ⟨sys', hw, hmedia⟩ := @Healthy.writeSnapshot ready (sys.buffered env) w.buffer hh users
    nodes (Or.inr ⟨hdrive, hbase⟩) hlen (by
      show sys.persist.dataBase + 1 + _ ≤ (sys.ata.size sys.persist.dataDrive).toNat
      rw [hdrive, hbase]
      omega)
  have hd : (sys.buffered env).persist.dataDrive = .master := hdrive
  have hb : (sys.buffered env).persist.dataBase = installDataLba := hbase
  refine ⟨sys', ?_, ?_, ?_⟩
  · rw [persistSave_writes ready hsealed (by rw [hstate]; simp) halloc hencode hfits, hw]
  · have hsuper := snapshotWritten_super (sys.buffered env) w.buffer users nodes
    rw [← snapshotWritten.eq_1] at hmedia
    rw [hmedia, ← hd, ← hb]
    exact hsuper
  · rw [← snapshotWritten.eq_1] at hmedia
    rw [hmedia, ← hd, ← hb, diskBytes_eq]
    exact snapshotWritten_payload (sys.buffered env) users nodes hlen

/-- The machine that is switched on with the disk `drive` of `sys` in it. -/
def onlyDisk (sys : System) (drive : Drive) : System :=
  { sys with
    ata := { sys.ata with
      size := fun d => match d with | .master => sys.ata.size drive | .slave => 0
      media := fun _ => sys.ata.media drive }
    bootedFromMedium := false }

theorem onlyDisk_alone (sys : System) (drive : Drive) : Alone sys drive (onlyDisk sys drive) :=
  ⟨rfl, rfl, rfl⟩

/-- The installer and the search for a place differ in one size of the disk. -/
theorem Installed.startsUp_iff {losBootSector : Sector} {sys : System} {drive : Drive}
    {bytes : List UInt8} (h : Installed losBootSector (sys.ata.media drive) bytes)
    (hmax : bytes.length ≤ 131072) :
    StartsUp env losBootSector sys drive bytes ↔
      installDataLba + 64 < (sys.ata.size drive).toNat := by
  constructor
  · rintro ⟨-, hstarts⟩
    obtain ⟨mem', hload, -, hmount⟩ := @hstarts (fun _ => true) (fun _ => true) (fun _ => 0)
      (onlyDisk sys drive) (fun _ => rfl) (fun _ => rfl) (onlyDisk_alone sys drive)
    obtain ⟨mem'', hload', hflag, -⟩ := @Installed.loaded _ _ _ h hmax (fun _ => true)
      (fun _ => rfl) (fun _ => 0)
    obtain rfl := Option.some.inj (hload.symm.trans hload')
    obtain ⟨sys₁, hsome, -⟩ := hmount hflag.symm
    obtain ⟨ok, p, a, hchoose, -, hok, -⟩ :=
      @Installed.choose (fun _ => true) _ _ _ _ _ h (fun _ => rfl) (onlyDisk_alone sys drive)
    apply hok.mp
    by_contra hno
    rw [Bool.not_eq_true] at hno
    subst hno
    have hmedium : (onlyDisk sys drive).bootedFromMedium = false := rfl
    simp [persistMount, hmedium, hchoose] at hsome
  · intro hroom
    refine ⟨h.boot, fun {bios ready} mem {boot} hbios hready halone => ?_⟩
    obtain ⟨mem', hload, hflag, hbytes⟩ := h.loaded hmax hbios mem
    refine ⟨mem', hload, hbytes, fun hmedium => ?_⟩
    rw [hflag] at hmedium
    obtain ⟨sys₁, hmount, hdrive, hbase, hh, hsize⟩ := h.mount hready halone hmedium hroom
    refine ⟨sys₁, hmount, hdrive, hbase, fun {sys₂} hmem => ?_⟩
    have hmounted := persistMount_mounted ready hmount
    apply firstSave
    · rw [hmem.ata]
      exact hh
    · rw [hmem.persist]
      exact hdrive
    · rw [hmem.persist]
      exact hbase
    · rw [hmem.persist]
      exact hmounted.state
    · rw [hmem.persist]
      exact hmounted.isSealed
    · rw [hmem.ata, hsize]
      omega

/-- What the installer works with, when there was memory for the copy. -/
theorem installCaptureImage_cases (s : Fs) (mem : Memory) {start stop : Nat}
    (hmax : stop - start ≤ 131072) :
    (installCaptureImage env s mem start stop).1.imageBytes = stop - start ∧
      ((installCaptureImage env s mem start stop).1.imageCopy = none ∨
        (installCaptureImage env s mem start stop).1.imageCopy =
          some (readBytes mem start (stop - start))) := by
  have hwrap : wrap32 (stop - start) = stop - start := wrap32_of_lt (by omega)
  unfold installCaptureImage
  rw [hwrap]
  cases halloc : s.alloc env (stop - start) with
  | mk p s' =>
    cases p with
    | none =>
      simp [halloc]
    | some p =>
      simp [halloc]

/-- An installation from a captured image. -/
theorem installed_of_capture {losBootSector : Sector} {s : Fs} {mem : Memory} {start stop : Nat}
    {sys sys' : System} {drive : Drive} (hdrives : DrivesOk sys.ata)
    (hmax : stop - start ≤ 131072)
    (h : installToDisk env ready losBootSector sys (installCaptureImage env s mem start stop).1
      drive = (0, sys')) :
    sys'.ata.size = sys.ata.size ∧
      Installed losBootSector (sys'.ata.media drive) (readBytes mem start (stop - start)) := by
  obtain ⟨hbytes, hnone | hsome⟩ := @installCaptureImage_cases env s mem start stop hmax
  · simp [installToDisk, hnone] at h
  · obtain ⟨hsize, -, hinstalled⟩ := installToDisk_spec hdrives hsome
      (by rw [hbytes]; simp [readBytes]) (by omega) h
    exact ⟨hsize, hinstalled⟩

/-- **When an installation boots.** After an installation that reported success, the disk on
its own starts up if and only if it has more than the 2112 sectors the installer asks for. -/
theorem install_boots_iff {env' : Env} {losBootSector : Sector} {s : Fs} {mem : Memory}
    {start stop : Nat} {sys sys' : System} {drive : Drive} (hdrives : DrivesOk sys.ata)
    (hmax : stop - start ≤ 131072)
    (h : installToDisk env ready losBootSector sys (installCaptureImage env s mem start stop).1
      drive = (0, sys')) :
    StartsUp env' losBootSector sys' drive (readBytes mem start (stop - start)) ↔
      installDataLba + 64 < (sys.ata.size drive).toNat := by
  obtain ⟨hsize, hinstalled⟩ := installed_of_capture hdrives hmax h
  rw [hinstalled.startsUp_iff (by simpa [readBytes] using hmax), hsize]

/-- The install medium running on a machine with one disk. -/
def installer (sectors : UInt32) : System where
  fs := .zero
  table := Users.usersInit
  persist := {}
  ata := ataInit (fun _ => true) {
    size := fun d => if d = .master then sectors else 0
    media := fun _ _ => Sector.ofBytes []
    drives := fun _ => {}
    time := 0 }
  bootedFromMedium := true

theorem installer_drives (sectors : UInt32) : DrivesOk (installer sectors).ata :=
  (ataInit_spec _ _).2.2.1

/-- What the installer makes of a kernel of one byte. -/
def installTiny (sectors : UInt32) : Int × System :=
  installToDisk .ample (fun _ => true) (Sector.ofBytes []) (installer sectors)
    (installCaptureImage .ample .zero (fun _ => 0xF4) 0x10000 0x10001).1 .master

/-- The kernel goes onto a disk of 2113 sectors, and starts up from there. -/
theorem install_boots_iff_2113 : ∃ sys', installTiny 2113 = (0, sys') ∧
    StartsUp .ample (Sector.ofBytes []) sys' .master (readBytes (fun _ => 0xF4) 0x10000 1) := by
  have hres : (installTiny 2113).1 = 0 := by decide +kernel
  have hsize : installDataLba + 64 < ((installer 2113).ata.size .master).toNat := by decide +kernel
  cases h : installTiny 2113 with
  | mk res sys' =>
    rw [h] at hres
    obtain rfl : res = 0 := hres
    unfold installTiny at h
    exact ⟨sys', rfl, (install_boots_iff (installer_drives 2113) (by omega) h).mpr hsize⟩

/-- The installer accepts a disk of 2112 sectors, which does not start up on its own. -/
theorem install_on_smallest_disk : ∃ sys', installTiny 2112 = (0, sys') ∧
    ¬StartsUp .ample (Sector.ofBytes []) sys' .master (readBytes (fun _ => 0xF4) 0x10000 1) := by
  have hres : (installTiny 2112).1 = 0 := by decide +kernel
  have hsize : ¬installDataLba + 64 < ((installer 2112).ata.size .master).toNat := by
    decide +kernel
  cases h : installTiny 2112 with
  | mk res sys' =>
    rw [h] at hres
    obtain rfl : res = 0 := hres
    unfold installTiny at h
    obtain ⟨hsame, hinstalled⟩ := installed_of_capture (installer_drives 2112) (by omega) h
    refine ⟨sys', rfl, fun hstarts => hsize ?_⟩
    rw [← hsame]
    exact (hinstalled.startsUp_iff (by simp [readBytes])).mp hstarts

end LightningOS.Install
