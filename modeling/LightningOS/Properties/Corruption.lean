import LightningOS.Lib.Fnv
import LightningOS.Properties.Snapshot

/-!
# Payloads that were changed

The checksum of the payload is FNV-1a. A change of one byte, or of two adjacent ones, always
shows in it, and then the mount fails before it touches the tree or the accounts.
-/

namespace LightningOS.Persist

open ByteMemory CString Ramfs Users Ata

variable {env env' : Env} {ready ready' : Nat → Bool}

/-! ## Small changes -/

/-- One byte, or two that are next to each other, are not what they were. -/
def Altered (old new : List UInt8) : Prop :=
  ∃ pre x y post, old = pre ++ x ++ post ∧ new = pre ++ y ++ post ∧ x.length = y.length ∧
    x.length ≤ 2 ∧ x ≠ y

theorem checksum_altered {old new : List UInt8} (h : Altered old new) :
    checksum new ≠ checksum old := by
  obtain ⟨pre, x, y, post, rfl, rfl, hlen, htwo, hne⟩ := h
  exact fun heq => Fnv.foldl_mix_differs hlen htwo hne heq.symm

/-- The payload on the disk, as long as the superblock says. -/
def payloadOn (media : Drive → Nat → Sector) (p : Vars) : List UInt8 :=
  let super := Super.decode (media p.dataDrive p.dataBase).val
  (payloadSectors media p super).take super.payloadBytes

/-- The disks after a small change of the payload, and of nothing else. -/
structure Damaged (sys : System) (media : Drive → Nat → Sector) : Prop where
  elsewhere : ∀ d l, d ≠ sys.persist.dataDrive ∨ l ≤ sys.persist.dataBase →
    media d l = sys.ata.media d l
  payload : Altered (payloadOn sys.ata.media sys.persist) (payloadOn media sys.persist)

/-- **Small changes of the payload are caught.** After a save that returned 0, let one byte or
two adjacent bytes of the payload change. A mount that looks at this snapshot fails, and the
tree and the accounts are as they were. If the drives answer, the next mount looks there. -/
theorem damage_caught {boot sys sys' next : System} (hsession : Session env ready boot sys)
    (hstate : sys.persist.state ≠ .noDisk) (hsave : persistSave env ready sys = some (0, sys'))
    (hm : next.bootedFromMedium = false) (hdamage : Damaged sys' next.ata.media) :
    (Selects ready' next sys'.persist →
      ∃ m, persistMount env' ready' next = some (.error, m) ∧ Untouched next m) ∧
    ((∀ t, ready t = true) → (∀ t, ready' t = true) → next.ata.size = sys'.ata.size →
      ∃ m, persistMount env' ready' next = some (.error, m) ∧ Untouched next m) := by
  have hp := (Session.place ready hsession).2.resolve_left hstate
  obtain ⟨w, users, nodes, hencode, hfits, hlen, hsame, hmedia, hw⟩ :=
    persistSave_saved hp hstate hsave
  obtain ⟨husers, hnodes⟩ := encodeAll_counts hencode hfits
  have hholds := snapshotWritten_holds (sys.buffered env) hlen husers hnodes
  have hbase : next.ata.media sys'.persist.dataDrive sys'.persist.dataBase =
      sys'.ata.media sys'.persist.dataDrive sys'.persist.dataBase :=
    hdamage.elsewhere _ _ (Or.inr (Nat.le_refl _))
  have hslave : next.ata.media .slave 0 = sys'.ata.media .slave 0 :=
    hdamage.elsewhere _ _ (Or.inr (Nat.zero_le _))
  have hselected : Selects ready' next sys'.persist →
      ∃ m, persistMount env' ready' next = some (.error, m) ∧ Untouched next m := by
    intro hsel
    obtain ⟨super, hsuper⟩ : ∃ super, super = newSuper sys.persist w.buffer users nodes := ⟨_, rfl⟩
    have hold : Super.decode (sys'.ata.media sys'.persist.dataDrive sys'.persist.dataBase).val =
        super := by
      rw [hmedia, hsame.drive, hsame.base, hsuper]
      exact hholds.isSuper
    have hnew : Super.decode (next.ata.media sys'.persist.dataDrive sys'.persist.dataBase).val =
        super := by
      rw [hbase, hold]
    have hmagic : super.magic = magicBytes := by
      rw [hsuper]
      rfl
    have hfound := mount_selected env' hm (hsame.atPlace hp) hsel hnew hmagic
    rcases hfound with herror | ⟨p', a, hdrive, hplace, ha, hmount⟩
    · exact herror
    · rw [hmount]
      have hpayload : payloadSectors a.media p' super =
          payloadSectors next.ata.media sys'.persist super := by
        unfold payloadSectors
        rw [ha, hdrive, hplace]
      have hsaved : payloadOn sys'.ata.media sys'.persist = w.buffer := by
        unfold payloadOn payloadSectors
        simp only [hold]
        rw [hmedia, hsame.drive, hsame.base, hsuper]
        exact hholds.isPayload
      have halt := hdamage.payload
      rw [hsaved] at halt
      unfold payloadOn at halt
      simp only [hnew] at halt
      obtain ⟨m, hm', hunt⟩ := @mountSnapshot_mismatch env' ready'
        { next with persist := p', ata := a } super
        (by unfold AtPlace; rw [hdrive, hplace]; exact hsame.atPlace hp) (fun _ hsum => by
          rw [hpayload] at hsum
          have hsum' : super.checksum = (checksum w.buffer).toNat := by rw [hsuper]; rfl
          exact checksum_altered halt (UInt32.toNat_inj.mp (hsum.trans hsum')))
      exact ⟨m, hm', hunt⟩
  exact ⟨hselected, fun hready hready' hsize =>
    hselected (selects_saved hready hready' hsession hstate hsave hsize hslave hbase)⟩

/-- The machine after a power cycle, with another first byte in the payload on the slave. -/
def System.flipped (sys : System) : System :=
  { sys with
    ata := { sys.ata with
      media := fun d l =>
        if d = .slave ∧ l = 1 then Sector.ofBytes (3 :: (sys.ata.media .slave 1).val.tail)
        else sys.ata.media d l
      drives := fun _ => {} }
    bootedFromMedium := false }

theorem damage_caught_first_byte : ∃ sys sys' m,
    Session .ample (fun _ => true) (freshBoot fun _ => Sector.ofBytes []) sys ∧
      persistSave .ample (fun _ => true) sys = some (0, sys') ∧
      Damaged sys' sys'.flipped.ata.media ∧
      persistMount .ample (fun _ => true) sys'.flipped = some (.error, m) ∧
      Untouched sys'.flipped m := by
  have h : ((persistMount .ample (fun _ => true) (freshBoot fun _ => Sector.ofBytes [])).bind
      fun r => (persistSave .ample (fun _ => true) r.2).map fun q =>
        (decide (r.2.persist.state ≠ .noDisk), q.1,
          decide (q.2.persist.dataDrive = .slave ∧ q.2.persist.dataBase = 0),
          decide (payloadOn q.2.ata.media q.2.persist =
            2 :: (payloadOn q.2.ata.media q.2.persist).tail),
          decide (payloadOn q.2.flipped.ata.media q.2.persist =
            3 :: (payloadOn q.2.ata.media q.2.persist).tail))) =
      some (true, 0, true, true, true) := by decide +kernel
  simp only [Option.bind_eq_some_iff, Option.map_eq_some_iff, Prod.mk.injEq, decide_eq_true_eq]
    at h
  obtain ⟨⟨st, sys⟩, hmount, ⟨res, sys'⟩, hsave, hstate, rfl, ⟨hdrive, hbase⟩, hold, hnew⟩ := h
  have hsession := Session.mount hmount
  have hdamage : Damaged sys' sys'.flipped.ata.media := by
    refine ⟨fun d l hout => ?_, [], [2], [3], _, hold, hnew, rfl, by decide, by decide⟩
    show (if d = .slave ∧ l = 1 then _ else _) = _
    rw [if_neg]
    rintro ⟨hd, hl⟩
    rcases hout with hout | hout
    · exact hout (hd.trans hdrive.symm)
    · rw [hl, show sys'.persist.dataBase = 0 from hbase] at hout
      omega
  obtain ⟨m, hm, hunt⟩ := (damage_caught hsession hstate hsave rfl hdamage).2 (fun _ => rfl)
    (fun _ => rfl) rfl
  exact ⟨sys, sys', m, hsession, hsave, hdamage, hm, hunt⟩

end LightningOS.Persist
