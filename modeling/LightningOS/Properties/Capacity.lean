import LightningOS.Properties.Area
import LightningOS.Properties.Seal

/-!
# How much fits

`persist_bytes_capacity` promises 1 MiB for every place that `choose_location` accepts. A
save of that much needs 2049 sectors behind the base. Here is when the bounds check of the
driver lets it through, and that nothing else but the device can stop it then.
-/

namespace LightningOS.Ata

open ByteMemory

variable {ready : Nat → Bool}

/-! ## Whose fault it is -/

/-- The device let one of the polls between two states of the channel fail. -/
def Failed (ready : Nat → Bool) (a a' : Channel) : Prop :=
  ∃ t, a.time ≤ t ∧ t < a'.time ∧ ready t = false

/-- What the polls of a command can do: time passes, and the command fails only if one of
them does. -/
structure Polled (ready : Nat → Bool) (a a' : Channel) (ok : Bool) : Prop where
  time : a.time ≤ a'.time
  size : a'.size = a.size
  failed : ok = false → Failed ready a a'

theorem Polled.refl (a : Channel) : Polled ready a a true := ⟨Nat.le_refl _, rfl, by simp⟩

theorem Polled.trans {a b c : Channel} {ok : Bool} (h : Polled ready a b true)
    (h' : Polled ready b c ok) : Polled ready a c ok := by
  refine ⟨Nat.le_trans h.time h'.time, h'.size.trans h.size, fun hok => ?_⟩
  obtain ⟨t, hle, hlt, hr⟩ := h'.failed hok
  exact ⟨t, Nat.le_trans h.time hle, hlt, hr⟩

theorem wait_polled (a : Channel) : Polled ready a (a.wait ready).2 (a.wait ready).1 :=
  ⟨Nat.le_succ _, rfl, fun h => ⟨a.time, Nat.le_refl _, Nat.lt_succ_self _, h⟩⟩

theorem setSector_polled (a : Channel) (drive : Drive) (lba : Nat) (sector : Sector) :
    Polled ready a (a.setSector drive lba sector) true := ⟨Nat.le_refl _, rfl, by simp⟩

variable (drive : Drive) (write : Bool)

theorem sectorLoop_polled {n : Nat} : ∀ {lba : Nat} {buf out out' : List UInt8} {a a' : Channel}
    {ok : Bool}, sectorLoop ready drive write n lba buf out a = (ok, out', a') →
      lba + n ≤ (a.size drive).toNat → Polled ready a a' ok := by
  induction n with
  | zero =>
    intro lba buf out out' a a' ok h _
    simp only [sectorLoop, Prod.mk.injEq] at h
    obtain ⟨rfl, -, rfl⟩ := h
    exact .refl a
  | succ n ih =>
    intro lba buf out out' a a' ok h hle
    rw [sectorLoop] at h
    have hwait := @wait_polled ready a
    rcases hw : a.wait ready with ⟨_ | _, a₁⟩
    · simp only [hw, Prod.mk.injEq] at h hwait
      obtain ⟨rfl, -, rfl⟩ := h
      exact hwait
    · simp only [hw] at h hwait
      rw [← hwait.size] at hle
      rw [if_neg (by omega)] at h
      cases write with
      | true => exact hwait.trans ((setSector_polled a₁ drive lba _).trans (ih h (by
          show lba + 1 + n ≤ (a₁.size drive).toNat
          omega)))
      | false => exact hwait.trans (ih h (by omega))

theorem transferChunk_polled {lba count : Nat} (hc : 0 < count) (hc' : count ≤ 255)
    (hl : lba < 268435456) {buf out : List UInt8} {a a' : Channel} {ok : Bool}
    (h : transferChunk ready a drive lba count buf write = (ok, out, a'))
    (hle : lba + count ≤ (a.size drive).toNat) : Polled ready a a' ok := by
  have hcount : (if count % 256 = 0 then 256 else count % 256) = count := by
    rw [Nat.mod_eq_of_lt (by omega), if_neg (by omega)]
  unfold transferChunk at h
  have hwait := @wait_polled ready a
  rcases hw : a.wait ready with ⟨_ | _, a₁⟩
  · simp only [hw, Prod.mk.injEq] at h hwait
    obtain ⟨rfl, -, rfl⟩ := h
    exact hwait
  simp only [hw, hcount, Nat.mod_eq_of_lt hl] at h hwait
  rcases hs : sectorLoop ready drive write count lba buf [] a₁ with ⟨ok₂, out₂, a₂⟩
  have hloop := sectorLoop_polled drive write hs (by rw [hwait.size]; exact hle)
  cases ok₂ with
  | false =>
    simp only [hs, Prod.mk.injEq] at h
    obtain ⟨rfl, -, rfl⟩ := h
    exact hwait.trans hloop
  | true =>
    have hdone := hwait.trans hloop
    cases write with
    | false =>
      simp only [hs, Bool.false_eq_true, if_false, Prod.mk.injEq] at h
      obtain ⟨rfl, -, rfl⟩ := h
      exact hdone
    | true =>
      -- the end of the command, and the cache
      have hwait₂ := @wait_polled ready a₂
      rcases hw₂ : a₂.wait ready with ⟨_ | _, a₃⟩
      · simp only [hs, hw₂, if_true, Prod.mk.injEq] at h hwait₂
        obtain ⟨rfl, -, rfl⟩ := h
        exact hdone.trans hwait₂
      have hwait₃ := @wait_polled ready a₃
      rcases hw₃ : a₃.wait ready with ⟨_ | _, a₄⟩ <;>
      · simp only [hs, hw₂, hw₃, if_true, Prod.mk.injEq] at h hwait₂ hwait₃
        obtain ⟨rfl, -, rfl⟩ := h
        exact hdone.trans (hwait₂.trans hwait₃)

theorem transferLoop_polled {fuel : Nat} : ∀ {lba count : Nat} {buf out out' : List UInt8}
    {a a' : Channel} {ok : Bool}, count ≤ fuel → lba + count ≤ 268435456 →
      transferLoop ready drive write fuel lba count buf out a = (ok, out', a') →
        lba + count ≤ (a.size drive).toNat → Polled ready a a' ok := by
  induction fuel with
  | zero =>
    intro lba count buf out out' a a' ok hf _ h _
    rw [transferLoop, if_pos (by omega)] at h
    simp only [Prod.mk.injEq] at h
    obtain ⟨rfl, -, rfl⟩ := h
    exact .refl a
  | succ fuel ih =>
    intro lba count buf out out' a a' ok hf hl h hle
    rw [transferLoop] at h
    by_cases hz : count = 0
    · rw [if_pos hz] at h
      simp only [Prod.mk.injEq] at h
      obtain ⟨rfl, -, rfl⟩ := h
      exact .refl a
    rw [if_neg hz] at h
    obtain ⟨chunk, hchunk⟩ : ∃ chunk, chunk = if 255 < count then 255 else count := ⟨_, rfl⟩
    have hpos : 0 < chunk ∧ chunk ≤ 255 ∧ chunk ≤ count := by
      split at hchunk <;> omega
    simp only [← hchunk] at h
    rcases hc : transferChunk ready a drive lba chunk buf write with ⟨ok₁, got, a₁⟩
    have hpolled := transferChunk_polled drive write hpos.1 hpos.2.1 (by omega) hc (by omega)
    cases ok₁ with
    | false =>
      simp only [hc, Prod.mk.injEq] at h
      obtain ⟨rfl, -, rfl⟩ := h
      exact hpolled
    | true =>
      simp only [hc] at h
      rw [wrap32_of_lt (by omega)] at h
      exact hpolled.trans (ih (by omega) (by omega) h (by rw [hpolled.size]; omega))

/-- A write within the bounds fails only if the device does. -/
theorem ataWrite_polled {lba count : Nat} (hl : lba + count ≤ 268435456) {buf : List UInt8}
    {a a' : Channel} {res : Int} (hr : InRange a drive lba count)
    (hle : lba + count ≤ (a.size drive).toNat)
    (h : ataWrite ready a drive lba count buf = (res, a')) :
    a.time ≤ a'.time ∧ (res ≠ 0 → Failed ready a a') := by
  unfold ataWrite transfer at h
  rw [if_neg (by simp [hr.1]), wrap32_of_lt (by omega)] at h
  by_cases hz : count = 0
  · simp only [if_pos hz, Prod.mk.injEq] at h
    obtain ⟨rfl, rfl⟩ := h
    exact ⟨Nat.le_refl _, by simp⟩
  rw [if_neg hz, if_neg (Nat.not_lt.mpr hr.2)] at h
  rcases ht : transferLoop ready drive true count lba count buf [] a with ⟨ok, out, a₁⟩
  have hpolled := transferLoop_polled drive true (Nat.le_refl _) hl ht hle
  cases ok with
  | false =>
    simp only [ht, Prod.mk.injEq] at h
    obtain ⟨rfl, rfl⟩ := h
    exact ⟨hpolled.time, fun _ => hpolled.failed rfl⟩
  | true =>
    simp only [ht, Prod.mk.injEq] at h
    obtain ⟨rfl, rfl⟩ := h
    exact ⟨hpolled.time, by simp⟩

/-- A write behind the last sector is refused without a poll. -/
theorem ataWrite_bounds {lba count : Nat} (hl : lba + count ≤ 268435456) (h0 : 0 < count)
    (buf : List UInt8) {a : Channel} (hlt : (a.drives drive).sectors < lba + count) :
    ataWrite ready a drive lba count buf = (-1, a) := by
  unfold ataWrite transfer
  by_cases hp : ataPresent a drive = false
  · rw [if_pos hp]
  · rw [if_neg hp, if_neg (by omega), wrap32_of_lt (by omega), if_pos hlt]

end LightningOS.Ata

namespace LightningOS.Persist

open ByteMemory CString Ramfs Users Ata

variable {env : Env} {ready : Nat → Bool}

/-! ## The chosen drive is there -/

theorem probe_present {a a' : Channel} {drive : Drive} {base : Nat}
    (h : probe ready a drive base = (true, a')) : ataPresent a drive = true := by
  unfold probe at h
  by_cases hp : ataPresent a drive = false
  · rw [if_pos hp] at h
    simp at h
  · simpa using hp

theorem chooseLocation_present {p p' : Vars} {a a' : Channel}
    (h : chooseLocation ready p a = (true, p', a')) : ataPresent a p'.dataDrive = true := by
  unfold chooseLocation at h
  obtain ⟨b₁, a₁, hp₁, hs₁, -⟩ := probe_spec ready a .slave (by decide : 0 < 268435456)
  obtain ⟨b₂, a₂, hp₂, hs₂, -⟩ :=
    probe_spec ready a₁ .master (by decide : installDataLba < 268435456)
  have hpres : ∀ d, ataPresent a₁ d = ataPresent a d ∧ ataPresent a₂ d = ataPresent a d := by
    intro d
    unfold ataPresent
    rw [hs₂.drives, hs₁.drives]
    exact ⟨rfl, rfl⟩
  simp only [hp₁] at h
  cases b₁ with
  | true =>
    simp only [Prod.mk.injEq, true_and] at h
    rw [← h.1]
    exact probe_present hp₁
  | false =>
    simp only [hp₂] at h
    cases b₂ with
    | true =>
      simp only [Prod.mk.injEq, true_and] at h
      rw [← h.1, ← (hpres _).1]
      exact probe_present hp₂
    | false =>
      simp only at h
      split at h
      next hslave =>
        simp only [Prod.mk.injEq, true_and] at h
        rw [← h.1, ← (hpres _).2]
        exact hslave
      next =>
        split at h
        next hmaster =>
          simp only [Prod.mk.injEq, true_and] at h
          rw [← h.1, ← (hpres _).2]
          exact hmaster.1
        next => simp at h

theorem mountSnapshot_place {sys sys' : System} {super : Super} {st : PersistState}
    (hp : AtPlace sys.persist) (h : mountSnapshot env ready sys super = some (st, sys')) :
    sys'.persist.dataDrive = sys.persist.dataDrive ∧
      sys'.persist.dataBase = sys.persist.dataBase := by
  rcases mountSnapshot_cases ready hp h with ⟨-, t, a, -, rfl⟩ | ⟨-, a, r, sys₂, -, -, hr, hend⟩
  · exact ⟨rfl, rfl⟩
  · have hframe := restore_frame hr
    have hdrive := congrArg (fun sys => sys.persist.dataDrive) hframe
    have hbase := congrArg (fun sys => sys.persist.dataBase) hframe
    rcases hend with ⟨-, -, rfl⟩ | ⟨-, -, rfl⟩ <;> exact ⟨hdrive, hbase⟩

/-- A mount that found a place is there. -/
theorem persistMount_place {boot sys : System} {st : PersistState}
    (h : persistMount env ready boot = some (st, sys)) (hst : st ≠ .noDisk) :
    ∃ p a, chooseLocation ready { boot.persist with isSealed := false }
        (ataInit ready boot.ata) = (true, p, a) ∧ sys.persist.dataDrive = p.dataDrive ∧
      sys.persist.dataBase = p.dataBase := by
  obtain ⟨p, a, -, -, hcase⟩ := persistMount_cases ready h
  rcases hcase with ⟨-, hno, -⟩ | ⟨-, ok, a₁, hchoose, -, hcase⟩
  · exact absurd hno hst
  rcases hcase with ⟨-, hno, -⟩ | ⟨rfl, hat, hcase⟩
  · exact absurd hno hst
  refine ⟨p, a₁, hchoose, ?_⟩
  rcases hcase with ⟨-, -, rfl⟩ | ⟨-, -, rfl⟩ | ⟨-, hsnap⟩
  · exact ⟨rfl, rfl⟩
  · exact ⟨rfl, rfl⟩
  · exact mountSnapshot_place (by exact hat) hsnap

theorem Session.present {boot sys : System} (h : Session env ready boot sys)
    (hd : sys.persist.state ≠ .noDisk) : ataPresent sys.ata sys.persist.dataDrive = true := by
  induction h with
  | @mount st sys h =>
    have hm := persistMount_mounted ready h
    rw [hm.state] at hd
    obtain ⟨p, a, hchoose, hdrive, -⟩ := persistMount_place h hd
    have hpresent := chooseLocation_present hchoose
    unfold ataPresent at hpresent ⊢
    rw [hdrive, hm.disks.drives]
    exact hpresent
  | @step s₁ s₂ op hsession hstep ih =>
    have hd₁ : s₁.persist.state ≠ .noDisk := fun hno => hd (step_noDisk _ hno hstep).1
    have hp := (Session.place ready hsession).2.resolve_left hd₁
    have hsame := step_sameBoot ready hp hstep
    have hpresent := ih hd₁
    unfold ataPresent at hpresent ⊢
    rw [hsame.drive, hsame.drives.drives]
    exact hpresent

/-! ## The bounds check -/

/-- With room behind the base, the payload is refused only by the device. -/
theorem writeSnapshot_fits {sys sys' : System} {payload : List UInt8} {users nodes : Nat}
    {res : Int} (hp : AtPlace sys.persist) (hlen : payload.length ≤ maxPayload)
    (hdrives : DrivesOk sys.ata) (hpresent : ataPresent sys.ata sys.persist.dataDrive = true)
    (hroom : sys.persist.dataBase + 1 + payloadCount payload.length ≤
      (sys.ata.size sys.persist.dataDrive).toNat)
    (h : writeSnapshot ready sys payload users nodes = (res, sys')) :
    res ≠ -3 ∨ Failed ready sys.ata sys'.ata := by
  have hbase := hp.base_le
  have hcount := payloadCount_le hlen
  have hlba : wrap32 (sys.persist.dataBase + 1) = sys.persist.dataBase + 1 :=
    wrap32_of_lt (by omega)
  unfold writeSnapshot at h
  simp only [hlba, ← payloadCount.eq_1, ← payloadImage.eq_1] at h
  rcases hw : ataWrite ready sys.ata sys.persist.dataDrive (sys.persist.dataBase + 1)
    (payloadCount payload.length) (payloadImage payload) with ⟨res₁, a₁⟩
  have hpolled := ataWrite_polled sys.persist.dataDrive (by omega)
    ⟨hpresent, by rw [(hdrives _ hpresent).1]; exact hroom⟩ hroom hw
  simp only [hw] at h
  by_cases hz : res₁ = 0
  · left
    rw [if_neg (by simp [hz])] at h
    split at h <;>
    · obtain ⟨rfl, -⟩ := Prod.mk.inj h
      simp
  · right
    rw [if_pos hz] at h
    obtain ⟨-, rfl⟩ := Prod.mk.inj h
    exact hpolled.2 hz

/-- Without it, the driver refuses the payload before it asks the device. -/
theorem writeSnapshot_bounds {sys : System} {payload : List UInt8} (users nodes : Nat)
    (hp : AtPlace sys.persist) (hlen : payload.length ≤ maxPayload)
    (hdrives : DrivesOk sys.ata) (hpresent : ataPresent sys.ata sys.persist.dataDrive = true)
    (hroom : (sys.ata.size sys.persist.dataDrive).toNat <
      sys.persist.dataBase + 1 + payloadCount payload.length) :
    ∃ sys', writeSnapshot ready sys payload users nodes = (-3, sys') ∧ sys'.ata = sys.ata := by
  have hbase := hp.base_le
  have hcount := payloadCount_le hlen
  have hlba : wrap32 (sys.persist.dataBase + 1) = sys.persist.dataBase + 1 :=
    wrap32_of_lt (by omega)
  have hw : ataWrite ready sys.ata sys.persist.dataDrive (sys.persist.dataBase + 1)
      (payloadCount payload.length) (payloadImage payload) = (-1, sys.ata) :=
    ataWrite_bounds sys.persist.dataDrive (by omega) (payloadCount_pos payload.length)
      (payloadImage payload) (by rw [(hdrives _ hpresent).1]; exact hroom)
  unfold writeSnapshot
  simp only [hlba, ← payloadCount.eq_1, ← payloadImage.eq_1, hw]
  rw [if_pos (by decide)]
  exact ⟨_, rfl, rfl⟩

/-- **When the bounds check lets a snapshot through.** In every session that found a place,
let the accounts and the tree fit into the 1 MiB that are promised. The save is not refused
with -3, but for a poll that failed, exactly if it did not come to writing or the disk has
the sectors for it. -/
theorem save_fits_iff {boot sys : System} (hsession : Session env ready boot sys)
    (hplace : sys.persist.state ≠ .noDisk) {w : Writer} {users nodes : Nat}
    (hencode : encodeAll (sys.buffered env).fs sys.table = some (w, users, nodes))
    (hfits : w.overflow = false) :
    ∃ res sys', persistSave env ready sys = some (res, sys') ∧
      ((res ≠ -3 ∨ Failed ready sys.ata sys'.ata) ↔
        sys.persist.isSealed = true ∨ (sys.fs.alloc env maxPayload).1 = none ∨
          sys.persist.dataBase + 1 + payloadCount w.buffer.length ≤
            (sys.ata.size sys.persist.dataDrive).toNat) := by
  obtain ⟨hdrives, hp⟩ := Session.place ready hsession
  have hat := hp.resolve_left hplace
  have hpresent := hsession.present hplace
  cases hs : sys.persist.isSealed with
  | true => exact ⟨-5, sys, by simp [persistSave, hs], by simp⟩
  | false =>
    by_cases halloc : (sys.fs.alloc env maxPayload).1 = none
    · refine ⟨-1, sys.buffered env, ?_, by simp [halloc]⟩
      simp only [persistSave, hs, Bool.false_eq_true, if_false, hplace, System.tmpAlloc, halloc,
        Option.isSome_none]
      rfl
    · have hlen := encodeAll_le hencode
      rw [persistSave_writes ready hs hplace halloc hencode hfits]
      rcases hres : writeSnapshot ready (sys.buffered env) w.buffer users nodes with ⟨res, sys'⟩
      refine ⟨res, sys', rfl, ?_⟩
      simp only [Bool.false_eq_true, halloc, false_or]
      rcases Nat.lt_or_ge (sys.ata.size sys.persist.dataDrive).toNat
        (sys.persist.dataBase + 1 + payloadCount w.buffer.length) with hlt | hge
      · -- the check stops it, and no poll is there to blame
        obtain ⟨sys₁, hw, hata⟩ := @writeSnapshot_bounds ready (sys.buffered env) w.buffer users
          nodes hat hlen hdrives hpresent hlt
        rw [hres] at hw
        obtain ⟨rfl, rfl⟩ := Prod.mk.inj hw
        refine iff_of_false ?_ (by omega)
        rintro (hne | ⟨t, hle, hlt', -⟩)
        · exact hne rfl
        · rw [hata] at hlt'
          exact absurd hle (Nat.not_le.mpr hlt')
      · exact iff_of_true (@writeSnapshot_fits ready (sys.buffered env) _ w.buffer users nodes _
          hat hlen hdrives hpresent hge hres) hge

theorem save_fits_iff_blank : ∃ sys w users nodes sys',
    Session .ample (fun _ => true) (freshBoot fun _ => Sector.ofBytes []) sys ∧
      encodeAll (sys.buffered .ample).fs sys.table = some (w, users, nodes) ∧
      persistSave .ample (fun _ => true) sys = some (0, sys') ∧
      sys.persist.dataBase + 1 + payloadCount w.buffer.length ≤
        (sys.ata.size sys.persist.dataDrive).toNat := by
  have h : ((persistMount .ample (fun _ => true) (freshBoot fun _ => Sector.ofBytes [])).bind
      fun r => (encodeAll (r.2.buffered .ample).fs r.2.table).bind fun e =>
        (persistSave .ample (fun _ => true) r.2).map fun q =>
          (decide (r.2.persist.state ≠ .noDisk), e.1.overflow, r.2.persist.isSealed,
            decide ((r.2.fs.alloc .ample maxPayload).1 ≠ none), q.1)) =
      some (true, false, false, true, 0) := by
    decide +kernel
  simp only [Option.bind_eq_some_iff, Option.map_eq_some_iff, Prod.mk.injEq, decide_eq_true_eq]
    at h
  obtain ⟨⟨st, sys⟩, hmount, ⟨w, users, nodes⟩, hencode, ⟨res, sys'⟩, hsave, hplace, hfits, hopen,
    hmemory, rfl⟩ := h
  have hsession := Session.mount hmount
  obtain ⟨res', sys'', hsave', hiff⟩ := save_fits_iff hsession hplace hencode hfits
  obtain ⟨rfl, rfl⟩ := Prod.mk.inj (Option.some.inj (hsave.symm.trans hsave'))
  rcases hiff.mp (Or.inl (by decide)) with hsealed | hnone | hroom
  · rw [hopen] at hsealed
    exact absurd hsealed (by decide)
  · exact absurd hnone hmemory
  · exact ⟨sys, w, users, nodes, sys', hsession, hencode, hsave, hroom⟩

/-- A boot disk of 3000 sectors, so that the data area has 951 of them behind the superblock. -/
def smallDisk : System :=
  { blankDisk with ata := { blankDisk.ata with size := fun d => if d = .master then 3000 else 0 } }

/-- A file of `n` zeros. -/
def zeroFile (n : Nat) : FsNode where
  name := [97]
  type := .file
  data := some 0
  size := n
  capacity := n + 1
  parent := some 0

/-- A tree with that file in it. -/
def zeroTree (n : Nat) : Fs where
  nodes := (Store.empty.set 0 { name := [slash], type := .dir, children := some 1 }).set 1
    (zeroFile n)
  bufs := Store.empty.set 0 (List.replicate (n + 1) 0)
  rootNode := some 0
  currentDir := some 0
  nodeCount := 2
  time := 0

theorem zeroTree_abspath (n t : Nat) :
    fsAbspath { zeroTree n with time := t } 1 fsPathMax = some [slash, 97] := rfl

/-- Its encoding has one record. -/
theorem encodeAll_zeroTree {n : Nat} (hn : n + 9 ≤ maxPayload) (t : Nat) : ∃ w,
    encodeAll { zeroTree n with time := t } usersInit = some (w, 0, 1) ∧ w.overflow = false ∧
      w.buffer.length = n + 9 := by
  have hpath := zeroTree_abspath n t
  obtain ⟨s, hs⟩ : ∃ s, s = { zeroTree n with time := t } := ⟨_, rfl⟩
  have hroot : s.nodes.get 0 = some { name := [slash], type := .dir, children := some 1 } := by
    rw [hs]
    rfl
  have hfile : s.nodes.get 1 = some (zeroFile n) := by
    rw [hs]
    rfl
  have hbuf : s.bufs.get 0 = some (List.replicate (n + 1) 0) := by
    rw [hs]
    exact Store.get_set_same _ _ _
  have hrootNode : s.rootNode = some 0 := by rw [hs]; rfl
  have hbrk : s.nodes.brk = 2 := by rw [hs]; rfl
  rw [← hs] at hpath ⊢
  have husers : usersCount usersInit = 0 := by decide
  obtain ⟨w, hw⟩ : ∃ w : Writer,
    w = { buffer := [], capacity := maxPayload, overflow := false } := ⟨_, rfl⟩
  have hrecord : (nodeRecord s (zeroFile n) [slash, 97]).length = n + 9 := by
    simp [nodeRecord, dataLength, zeroFile, hbuf, le16_length, le32_length]
    omega
  have hnode := writeNode_fits (w := w) 0 hpath hfile (by simp)
    (fun d hd _ => ⟨List.replicate (n + 1) 0, by
      obtain rfl := Option.some.inj hd
      exact hbuf, by simp [dataLength, zeroFile]⟩) (by rw [hw]) (by
      rw [hrecord, hw]
      simpa [Writer.used] using hn)
  refine ⟨w.push (nodeRecord s (zeroFile n) [slash, 97]), ?_, by rw [hw]; rfl, ?_⟩
  · rw [hw] at hnode ⊢
    simp [encodeAll, husers, putUsers, hrootNode, hroot, hbrk, writeTree, hnode, hfile, zeroFile]
  · rw [← hrecord, hw]
    simp [Writer.push]

/-- The disk is chosen, and a save of 600009 bytes is refused, though no poll ever fails. -/
theorem small_disk_refused : ∃ sys w users nodes sys',
    Session .ample (fun _ => true) smallDisk sys ∧ sys.persist.state = .empty ∧
      encodeAll (sys.buffered .ample).fs sys.table = some (w, users, nodes) ∧
      w.overflow = false ∧ w.buffer.length = 600009 ∧
      persistSave .ample (fun _ => true) sys = some (-3, sys') := by
  have h : (persistMount .ample (fun _ => true) smallDisk).map (fun r =>
      (decide (r.1 = .empty ∧ r.2.persist.state = .empty ∧ r.2.persist.isSealed = false),
        r.2.persist.dataDrive, r.2.persist.dataBase)) = some (true, .master, 2048) := by
    decide +kernel
  simp only [Option.map_eq_some_iff, Prod.mk.injEq, decide_eq_true_eq] at h
  obtain ⟨⟨st, m⟩, hmount, ⟨-, hstate, hsealed⟩, hdrive, hbase⟩ := h
  obtain ⟨sys, hsys⟩ : ∃ sys : System, sys = { m with fs := zeroTree 600000, table := usersInit } :=
    ⟨_, rfl⟩
  have hwork : step .ample (fun _ => true) m (.work (zeroTree 600000) usersInit) = some sys :=
    hsys ▸ rfl
  have hsession : Session .ample (fun _ => true) smallDisk sys := .step (.mount hmount) hwork
  obtain ⟨w, hencode, hfits, hlen⟩ := encodeAll_zeroTree (n := 600000) (by decide) 1
  have hsize : sys.ata.size = smallDisk.ata.size := by
    rw [hsys]
    have hm := persistMount_mounted (fun _ => true) hmount
    exact hm.disks.size.trans (ataInit_spec (fun _ => true) smallDisk.ata).2.1
  have hstate' : sys.persist.state = .empty := hsys ▸ hstate
  have hdrive' : sys.persist.dataDrive = .master := hsys ▸ hdrive
  have hbase' : sys.persist.dataBase = 2048 := hsys ▸ hbase
  have hplace : sys.persist.state ≠ .noDisk := by rw [hstate']; simp
  obtain ⟨hdrives, hp⟩ := Session.place _ hsession
  have hencode' : encodeAll (sys.buffered .ample).fs sys.table = some (w, 0, 1) := hsys ▸ hencode
  have hfull : maxPayload = 1048576 := rfl
  have hcount : payloadCount w.buffer.length = 1172 := by
    rw [payloadCount, sectorsFor_eq (by omega), hlen]
    decide
  obtain ⟨sys', hw, -⟩ := @writeSnapshot_bounds (fun _ => true) (sys.buffered .ample) w.buffer 0 1
    (hp.resolve_left hplace) (by omega) hdrives (hsession.present hplace) (by
      show (sys.ata.size sys.persist.dataDrive).toNat <
        sys.persist.dataBase + 1 + payloadCount w.buffer.length
      rw [hcount, hdrive', hbase', hsize]
      decide)
  refine ⟨sys, w, 0, 1, sys', hsession, hstate', hencode', hfits, hlen, ?_⟩
  rw [persistSave_writes (fun _ => true) (hsys ▸ hsealed) hplace (by
    rw [hsys]
    exact (by decide : ((zeroTree 600000).alloc .ample maxPayload).1 ≠ none)) hencode' hfits, hw]

end LightningOS.Persist
