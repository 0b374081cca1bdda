import LightningOS.Properties.Corruption
import LightningOS.Properties.Superblock

/-!
# A save that stops

A save writes the new payload over the old one, and then the superblock. When it stops in
between, the old superblock describes the old payload with the first sectors of the new one in
it. The next boot has the old state exactly if these sectors do not change a byte of the old
payload; otherwise the checksum is off, unless it collides, and the boot has neither state.
-/

namespace LightningOS.Persist

open ByteMemory CString Ramfs Users Ata

variable {env env' env₀ : Env} {ready ready' ready₀ : Nat → Bool}

/-! ## Bytes -/

section Bytes

variable {α : Type} {old buf whole : List α} {c len : Nat}

/-- Two payloads have the same bytes, as far as both go. -/
def Agree (old new : List α) : Prop := new.take old.length = old.take new.length

/-- New bytes at the beginning leave a part as it was exactly if they are the same there. -/
theorem take_patched_iff (hwhole : c ≤ whole.length) (hbuf : c ≤ buf.length) :
    (buf.take c ++ whole.drop c).take len = whole.take len ↔
      buf.take (min c len) = whole.take (min c len) := by
  have hlen : (buf.take c).length = (whole.take c).length := by
    rw [List.length_take, List.length_take]
    omega
  have hsplit : whole.take len = (whole.take c ++ whole.drop c).take len := by
    rw [List.take_append_drop]
  rw [hsplit, List.take_append, List.take_append, hlen, List.append_cancel_right_eq,
    List.take_take, List.take_take, Nat.min_comm len c]

/-- The first `n` parts of `size` bytes out of `count`, over a payload in `total` parts. -/
theorem agree_iff_patched {size count total : Nat} (hwhole : whole.length = total * size)
    (hbuf : buf.length = count * size) (hlen : len ≤ whole.length) :
    Agree (whole.take len) buf ↔ ∀ k ≤ count,
      (buf.take (min k total * size) ++ whole.drop (min k total * size)).take len =
        whole.take len := by
  have hold : (whole.take len).length = len := by
    rw [List.length_take]
    omega
  have hparts : ∀ k ≤ count, min k total * size ≤ whole.length ∧
      min k total * size ≤ buf.length := by
    intro k hk
    rw [hwhole, hbuf]
    exact ⟨Nat.mul_le_mul_right size (Nat.min_le_right k total),
      Nat.mul_le_mul_right size ((Nat.min_le_left k total).trans hk)⟩
  unfold Agree
  rw [hold]
  constructor
  · intro hagree k hk
    obtain ⟨hin, hin'⟩ := hparts k hk
    rw [take_patched_iff hin hin']
    have hcut := congrArg (List.take (min (min k total * size) len)) hagree
    rw [List.take_take, List.take_take, List.take_take] at hcut
    have hleft : min (min (min k total * size) len) len = min (min k total * size) len := by omega
    have hright : min (min (min (min k total * size) len) buf.length) len =
        min (min k total * size) len := by omega
    rwa [hleft, hright] at hcut
  · intro hall
    obtain ⟨hin, hin'⟩ := hparts count (Nat.le_refl count)
    have hlast := (take_patched_iff hin hin').mp (hall count (Nat.le_refl count))
    rw [List.take_take]
    rcases Nat.le_total count total with hle | hle
    · -- the new payload is not longer
      rw [Nat.min_eq_left hle, ← hbuf] at hlast
      rcases Nat.le_total len buf.length with hshort | hlong
      · rwa [Nat.min_eq_right hshort] at hlast ⊢
      · rw [Nat.min_eq_left hlong] at hlast ⊢
        rw [List.take_of_length_le hlong, ← hlast, List.take_length]
    · have hmul : total * size ≤ count * size := Nat.mul_le_mul_right size hle
      have hshort : len ≤ buf.length := by omega
      rw [Nat.min_eq_right hle, ← hwhole, Nat.min_eq_right hlen] at hlast
      rwa [Nat.min_eq_right hshort]

end Bytes

/-! ## Where a save can stop -/

/-- The disks with the first `k` sectors of a payload on them. -/
def System.stopped (sys : System) (payload : List UInt8) (k : Nat) : System :=
  { sys with ata := { sys.ata with media := payloadWritten sys payload k } }

/-- A save gets as far as writing: the records fit into the buffer, and the drive has the sectors
for them. -/
def Writes (sys : System) (w : Writer) : Prop :=
  w.overflow = false ∧ sys.persist.dataBase + 1 + payloadCount w.buffer.length ≤
    (sys.ata.size sys.persist.dataDrive).toNat

/-- A save can stop here: at the start, or anywhere up to the superblock if it writes at all. -/
def CanStop (sys : System) (w : Writer) (k : Nat) : Prop :=
  k = 0 ∨ k ≤ payloadCount w.buffer.length ∧ Writes sys w

/-- The boot has the accounts and the tree of `sys`. -/
def Back (env : Env) (ready : Nat → Bool) (next sys : System) : Prop :=
  ∃ root kids, TreeInv sys.fs root kids ∧
    Restored env ready next (accounts sys.table) (files sys.fs kids)

/-- The disks hold a snapshot of `old`: its state comes back at every boot. -/
def Valid (saved old : System) : Prop :=
  ∀ env' ready' next, NextBoot env' ready' saved next → Back env' ready' next old

/-- Wherever the save stops, the next boot has the old state or the new one. -/
def Atomic (old sys : System) (w : Writer) : Prop :=
  ∀ k, CanStop sys w k → ∀ env' ready' next, NextBoot env' ready' (sys.stopped w.buffer k) next →
    Back env' ready' next old ∨ Back env' ready' next sys

/-- A later state of the machine, with the disks as a save left them, and the same place. -/
structure Resumed (saved sys : System) : Prop where
  media : sys.ata.media = saved.ata.media
  size : sys.ata.size = saved.ata.size
  drive : sys.persist.dataDrive = saved.persist.dataDrive
  base : sys.persist.dataBase = saved.persist.dataBase

/-- The payload on the disks when the save stopped. -/
def tornPayload (sys : System) (payload : List UInt8) (k : Nat) : List UInt8 :=
  payloadOn (sys.stopped payload k).ata.media sys.persist

variable {boot boot₀ old saved sys next : System} {payload : List UInt8} {k : Nat}

theorem stopped_super (sys : System) (payload : List UInt8) (k : Nat) :
    (sys.stopped payload k).ata.media sys.persist.dataDrive sys.persist.dataBase =
      sys.ata.media sys.persist.dataDrive sys.persist.dataBase :=
  overlay_other (.inr (.inl (Nat.lt_succ_self _)))

theorem stopped_other (sys : System) (payload : List UInt8) (k : Nat) {d : Drive}
    (h : d ≠ sys.persist.dataDrive) (l : Nat) :
    (sys.stopped payload k).ata.media d l = sys.ata.media d l :=
  overlay_other (.inl h)

theorem stopped_zero (sys : System) (payload : List UInt8) :
    (sys.stopped payload 0).ata.media = sys.ata.media :=
  overlay_zero _ _ _ _

/-- **The torn payload**, as long as the old superblock says. -/
theorem tornPayload_eq (sys : System) (hlen : payload.length ≤ maxPayload)
    (hk : k ≤ payloadCount payload.length) :
    tornPayload sys payload k =
      ((payloadImage payload).take (min k (sectorsFor sys.super.payloadBytes) * ataSectorSize) ++
        (payloadSectors sys.ata.media sys.persist sys.super).drop
          (min k (sectorsFor sys.super.payloadBytes) * ataSectorSize)).take
        sys.super.payloadBytes := by
  have hfits : k * ataSectorSize ≤ (payloadImage payload).length := by
    rw [payloadImage_length hlen]
    exact Nat.mul_le_mul_right _ hk
  have hsuper : Super.decode ((sys.stopped payload k).ata.media sys.persist.dataDrive
      sys.persist.dataBase).val = sys.super := by
    rw [stopped_super]
    rfl
  unfold tornPayload payloadOn
  rw [hsuper]
  exact congrArg (List.take _) (sectorsAt_stopped _ _ _ hfits _)

/-- The torn payloads are the old one exactly if the new one agrees with it. -/
theorem agree_iff_torn (hlen : payload.length ≤ maxPayload)
    (hbytes : sys.super.payloadBytes ≤ maxPayload) :
    Agree (payloadOn sys.ata.media sys.persist) (payloadImage payload) ↔
      ∀ k ≤ payloadCount payload.length,
        tornPayload sys payload k = payloadOn sys.ata.media sys.persist := by
  have hwhole : (payloadSectors sys.ata.media sys.persist sys.super).length =
      sectorsFor sys.super.payloadBytes * ataSectorSize := sectorsAt_length _ _ _
  have hagree := agree_iff_patched hwhole (payloadImage_length hlen)
    (hwhole ▸ le_sectorsFor hbytes)
  refine hagree.trans (forall₂_congr fun k hk => ?_)
  rw [tornPayload_eq sys hlen hk]
  rfl

/-! ## The next boot -/

theorem Resumed.holds {super : Super} {bytes : List UInt8} (h : Resumed saved sys)
    (hholds : Holds saved.ata.media saved.persist super bytes) :
    Holds sys.ata.media sys.persist super bytes := by
  rw [h.media]
  exact hholds.congr h.drive h.base

theorem Holds.payloadOn {media : Drive → Nat → Sector} {p : Vars} {super : Super}
    {bytes : List UInt8} (h : Holds media p super bytes) : Persist.payloadOn media p = bytes := by
  have hpayload := h.isPayload
  unfold Persist.payloadOn
  rw [h.isSuper]
  exact hpayload

/-- The superblock is still the old one, with this payload behind it. -/
theorem stopped_holds {super : Super} {bytes : List UInt8}
    (hholds : Holds sys.ata.media sys.persist super bytes) (payload : List UInt8) (k : Nat) :
    Holds (sys.stopped payload k).ata.media sys.persist super (tornPayload sys payload k) := by
  have hsuper : Super.decode ((sys.stopped payload k).ata.media sys.persist.dataDrive
      sys.persist.dataBase).val = super := by
    rw [stopped_super]
    exact hholds.isSuper
  refine ⟨hsuper, ?_⟩
  unfold tornPayload Persist.payloadOn
  rw [hsuper]

/-- The next boot looks at the place of the old snapshot. -/
theorem stopped_selects (hready₀ : ∀ t, ready₀ t = true)
    (hsession₀ : Session env₀ ready₀ boot₀ old) (hstate₀ : old.persist.state ≠ .noDisk)
    (hsave₀ : persistSave env₀ ready₀ old = some (0, saved)) (hresumed : Resumed saved sys)
    (hnext : NextBoot env' ready' (sys.stopped payload k) next) :
    Selects ready' next saved.persist := by
  have hp := (Session.place ready₀ hsession₀).2.resolve_left hstate₀
  have hmagic := hasMagic_saved hp hstate₀ hsave₀
  have hbase : next.ata.media saved.persist.dataDrive saved.persist.dataBase =
      saved.ata.media saved.persist.dataDrive saved.persist.dataBase := by
    rw [hnext.media, ← hresumed.drive, ← hresumed.base, stopped_super, hresumed.media]
  have hmagic' : HasMagic next.ata.media saved.persist.dataDrive saved.persist.dataBase := by
    unfold HasMagic
    rw [hbase]
    exact hmagic
  refine selects_place hready₀ hnext.ready hsession₀ hstate₀ hsave₀
    (hnext.size.trans hresumed.size) hmagic' fun hmaster => ?_
  have hother : Drive.slave ≠ sys.persist.dataDrive := by
    rw [hresumed.drive, hmaster]
    decide
  rw [hnext.media, stopped_other sys payload k hother, hresumed.media]

theorem SavedAs.withDrives {es : List Entry} {super : Super} {a : Channel}
    (h : SavedAs old saved es super) (hsize : a.size = saved.ata.size)
    (hholds : Holds a.media saved.persist super (records (accounts old.table) es)) :
    SavedAs old { saved with ata := a } es super where
  place := h.place
  covers := h.covers
  holds := hholds
  room := by
    rw [hsize]
    exact h.room
  length := h.length
  users := h.users
  entries := h.entries

/-- **If the torn payload is the old one, the old state comes back.** -/
theorem torn_restored (hready₀ : ∀ t, ready₀ t = true)
    (hsession₀ : Session env₀ ready₀ boot₀ old) (hsane : Sane old.table old.fs)
    (hstate₀ : old.persist.state ≠ .noDisk)
    (hsave₀ : persistSave env₀ ready₀ old = some (0, saved)) (hvalid : Valid saved old)
    (hresumed : Resumed saved sys)
    (htorn : tornPayload sys payload k = payloadOn sys.ata.media sys.persist)
    (hnext : NextBoot env' ready' (sys.stopped payload k) next) : Back env' ready' next old := by
  obtain ⟨root₀, kids₀, hinv₀, hback⟩ := hvalid _ _ _ saved.again_next
  obtain ⟨hne, hcarried⟩ := restored_carried hready₀ hsession₀ hsane hstate₀ hsave₀ hinv₀
    (fun _ => rfl) saved.again_next hback
  obtain ⟨s, hnodes, hbufs, hinv, hzero, super, hsaved⟩ :=
    saved_as hsession₀ hsane hstate₀ hsave₀ hinv₀
  have hholds := hresumed.holds hsaved.holds
  have hstopped := stopped_holds hholds payload k
  rw [htorn, hholds.payloadOn] at hstopped
  -- the same save, with the disks of the stop
  have hsize : (sys.stopped payload k).ata.size = saved.ata.size := hresumed.size
  have hsaved' := hsaved.withDrives hsize (hstopped.congr hresumed.drive.symm hresumed.base.symm)
  have hnext' : NextBoot env' ready' { saved with ata := (sys.stopped payload k).ata } next :=
    ⟨hnext.memory, hnext.ready, hnext.medium, hnext.media, hnext.size, hnext.fs, hnext.table⟩
  have hsel := stopped_selects hready₀ hsession₀ hstate₀ hsave₀ hresumed hnext
  refine ⟨root₀, kids₀, hinv₀, ?_⟩
  rw [← files_congr hnodes hbufs kids₀] at hcarried hne ⊢
  exact hsaved'.comes_back hinv hzero hne hcarried hnext' hsel

/-- **If its checksum is another one, the boot has neither state.** -/
theorem torn_refused (hready₀ : ∀ t, ready₀ t = true)
    (hsession₀ : Session env₀ ready₀ boot₀ old) (hsane : Sane old.table old.fs)
    (hstate₀ : old.persist.state ≠ .noDisk)
    (hsave₀ : persistSave env₀ ready₀ old = some (0, saved)) (hresumed : Resumed saved sys)
    (hsum : checksum (tornPayload sys payload k) ≠ checksum (payloadOn sys.ata.media sys.persist))
    (hnext : NextBoot env' ready' (sys.stopped payload k) next) :
    ∃ m, persistMount env' ready' next = some (.error, m) := by
  obtain ⟨⟨root₀, kids₀, hinv₀⟩, -⟩ := hsane.rooted
  obtain ⟨s, -, -, -, -, super, hsaved⟩ := saved_as hsession₀ hsane hstate₀ hsave₀ hinv₀
  have hholds := hresumed.holds hsaved.holds
  have hstopped := (stopped_holds hholds payload k).congr hresumed.drive.symm hresumed.base.symm
  rw [← hnext.media] at hstopped
  have hsel := stopped_selects hready₀ hsession₀ hstate₀ hsave₀ hresumed hnext
  rcases mount_found env' hnext.medium hsaved.place hsel hstopped.isSuper hsaved.covers.magic with
    ⟨m, hm, -⟩ | ⟨-, heq, -⟩
  · exact ⟨m, hm⟩
  · rw [hstopped.isPayload, hsaved.covers.checksum, ← hholds.payloadOn] at heq
    exact absurd (UInt32.toNat_inj.mp heq) hsum

/-! ## Every way a save ends -/

/-- A save leaves the disks at one of these places, or with the whole snapshot on them. -/
theorem save_stops {sys' : System} {w : Writer} {users nodes : Nat} {res : Int}
    (hsession : Session env ready boot sys) (hstate : sys.persist.state ≠ .noDisk)
    (hencode : encodeAll (sys.buffered env).fs sys.table = some (w, users, nodes))
    (hsave : persistSave env ready' sys = some (res, sys')) :
    (∃ k, CanStop sys w k ∧ sys'.ata.media = (sys.stopped w.buffer k).ata.media) ∨
      sys'.ata.media = snapshotWritten sys w.buffer users nodes := by
  obtain ⟨hdrives, hplace⟩ := Session.place ready hsession
  have hp := hplace.resolve_left hstate
  rcases persistSave_cases ready' hsave with
    ⟨-, t, rfl⟩ | ⟨-, -, -, w', users', nodes', hencode', hfits, hlen, hw⟩
  · exact .inl ⟨0, .inl rfl, (stopped_zero sys w.buffer).symm⟩
  rw [hencode, Option.some.injEq, Prod.mk.injEq, Prod.mk.injEq] at hencode'
  obtain ⟨rfl, rfl, rfl⟩ := hencode'
  by_cases hroom : sys.persist.dataBase + 1 + payloadCount w.buffer.length ≤
      (sys.ata.size sys.persist.dataDrive).toNat
  · obtain ⟨res', sys₁, hw', -, -, -, hcase⟩ :=
      @writeSnapshot_spec ready' (sys.buffered env) w.buffer users nodes hp hlen
    rw [hw] at hw'
    obtain ⟨rfl, rfl⟩ := Prod.mk.inj hw'
    rcases hcase with ⟨-, k, hk, hmedia⟩ | ⟨k, hk, -, -, hmedia⟩
    · exact .inl ⟨k, .inr ⟨hk, hfits, hroom⟩, hmedia⟩
    · obtain rfl | rfl : k = 0 ∨ k = 1 := by omega
      · rw [overlay_zero] at hmedia
        exact .inl ⟨_, .inr ⟨Nat.le_refl _, hfits, hroom⟩, hmedia⟩
      · exact .inr hmedia
  · obtain ⟨sys₁, hw', hata⟩ := @writeSnapshot_bounds ready' (sys.buffered env) w.buffer users
      nodes hp hlen hdrives (hsession.present hstate) (Nat.lt_of_not_le hroom)
    rw [hw] at hw'
    obtain ⟨rfl, rfl⟩ := Prod.mk.inj hw'
    rw [hata]
    exact .inl ⟨0, .inl rfl, (stopped_zero sys w.buffer).symm⟩

/-- **A save that stops.** On disks with a snapshot of the old state, the next boot has the old
state or the new one wherever the save stops, if the new payload agrees with the old one as far
as both go, or the save writes nothing. If the next boot always has one of them, no torn payload
has another checksum than the old one. They are all the old one exactly if the new payload
agrees with it. And a save that fails, at whatever point a drive does not answer, has stopped. -/
theorem crash_atomic {w : Writer} {users nodes : Nat} (hready₀ : ∀ t, ready₀ t = true)
    (hsession₀ : Session env₀ ready₀ boot₀ old) (hreached₀ : Reached env₀ old.table old.fs)
    (hstate₀ : old.persist.state ≠ .noDisk)
    (hsave₀ : persistSave env₀ ready₀ old = some (0, saved)) (hvalid : Valid saved old)
    (hsession : Session env ready boot sys) (hstate : sys.persist.state ≠ .noDisk)
    (hresumed : Resumed saved sys)
    (hencode : encodeAll (sys.buffered env).fs sys.table = some (w, users, nodes)) :
    ((Writes sys w → Agree (payloadOn sys.ata.media sys.persist) (payloadImage w.buffer)) →
      Atomic old sys w) ∧
    (Atomic old sys w → Writes sys w → ∀ k ≤ payloadCount w.buffer.length,
      checksum (tornPayload sys w.buffer k) = checksum (payloadOn sys.ata.media sys.persist)) ∧
    (Agree (payloadOn sys.ata.media sys.persist) (payloadImage w.buffer) ↔
      ∀ k ≤ payloadCount w.buffer.length,
        tornPayload sys w.buffer k = payloadOn sys.ata.media sys.persist) ∧
    ∀ ready' res sys', persistSave env ready' sys = some (res, sys') →
      (∃ k, CanStop sys w k ∧ sys'.ata.media = (sys.stopped w.buffer k).ata.media) ∨
        sys'.ata.media = snapshotWritten sys w.buffer users nodes := by
  have hsane := hreached₀.sane
  obtain ⟨⟨root₀, kids₀, hinv₀⟩, -⟩ := hsane.rooted
  obtain ⟨s, -, -, -, -, super, hsaved⟩ := saved_as hsession₀ hsane hstate₀ hsave₀ hinv₀
  have hsuper : sys.super = super := (hresumed.holds hsaved.holds).isSuper
  have hbytes : sys.super.payloadBytes ≤ maxPayload := by
    rw [hsuper, hsaved.covers.payloadBytes]
    exact hsaved.length
  have htorn := @agree_iff_torn sys w.buffer (encodeAll_le hencode) hbytes
  refine ⟨fun hagree k hk env' ready' next hnext => ?_, fun hatomic hwrites k hk => ?_, htorn,
    fun ready' res sys' hsave => save_stops hsession hstate hencode hsave⟩
  · have heq : tornPayload sys w.buffer k = payloadOn sys.ata.media sys.persist := by
      rcases hk with rfl | ⟨hk, hwrites⟩
      · unfold tornPayload
        rw [stopped_zero]
      · exact htorn.mp (hagree hwrites) k hk
    exact .inl (torn_restored hready₀ hsession₀ hsane hstate₀ hsave₀ hvalid hresumed heq hnext)
  · by_contra hsum
    have hnext := (sys.stopped w.buffer k).again_next
    obtain ⟨m, herror⟩ := torn_refused hready₀ hsession₀ hsane hstate₀ hsave₀ hresumed hsum hnext
    rcases hatomic k (.inr ⟨hk, hwrites⟩) _ _ _ hnext with
      ⟨_, _, -, m', _, _, hloaded, -⟩ | ⟨_, _, -, m', _, _, hloaded, -⟩
    · rw [herror] at hloaded
      simp at hloaded
    · rw [herror] at hloaded
      simp at hloaded

/-! ## One account, and then the built-in tree -/

/-- The machine with the built-in tree and without accounts. -/
def System.refilled (sys : System) : System := { sys with fs := skeleton, table := usersInit }

theorem System.refilled_reached (sys : System) :
    Reached .ample sys.refilled.table sys.refilled.fs := by
  unfold System.refilled
  dsimp only
  exact skeleton_reached

theorem Session.afterSave {sys' : System} {res : Int} (h : Session env ready boot sys)
    (hsave : persistSave env ready sys = some (res, sys')) : Session env ready boot sys' := by
  have hstep : Persist.step env ready sys .save = some sys' := congrArg (Option.map Prod.snd) hsave
  exact h.step hstep

/-- A save of one account and no files, on a blank disk. Saving it again changes no byte, and a
save of the built-in tree changes the first sector. -/
theorem alone_saved : ∃ old saved w w' users users' nodes nodes' m,
    Session .ample (fun _ => true) (freshBoot fun _ => Sector.ofBytes []) old ∧
      Reached .ample old.table old.fs ∧ old.persist.state ≠ .noDisk ∧
      persistSave .ample (fun _ => true) old = some (0, saved) ∧ Valid saved old ∧
      saved.persist.state ≠ .noDisk ∧
      encodeAll (saved.buffered .ample).fs saved.table = some (w, users, nodes) ∧
      Agree (payloadOn saved.ata.media saved.persist) (payloadImage w.buffer) ∧
      encodeAll (saved.refilled.buffered .ample).fs saved.refilled.table =
        some (w', users', nodes') ∧ Writes saved.refilled w' ∧
      persistMount .ample (fun _ => true) (saved.refilled.stopped w'.buffer 1).again =
        some (.error, m) := by
  have h : ((persistMount .ample (fun _ => true) (freshBoot fun _ => Sector.ofBytes [])).bind
      fun r => (accountStep .ample usersInit skeleton (.add true alice secret true)).bind fun a =>
        (fsReset .ample a.2.2).bind fun s =>
          (persistSave .ample (fun _ => true) { r.2 with fs := s, table := a.2.1 }).bind fun q =>
            (encodeAll (q.2.buffered .ample).fs q.2.table).bind fun e =>
              (encodeAll (q.2.refilled.buffered .ample).fs q.2.refilled.table).bind fun e' =>
                (persistMount .ample (fun _ => true)
                  (q.2.refilled.stopped e'.1.buffer 1).again).map fun b =>
                    (q.1, b.1, decide (r.2.persist.state ≠ .noDisk ∧ accounts a.2.1 ≠ [] ∧
                      q.2.persist.state ≠ .noDisk ∧
                      (payloadImage e.1.buffer).take (payloadOn q.2.ata.media q.2.persist).length =
                        (payloadOn q.2.ata.media q.2.persist).take
                          (payloadImage e.1.buffer).length ∧
                      e'.1.overflow = false ∧
                      q.2.persist.dataBase + 1 + payloadCount e'.1.buffer.length ≤
                        (q.2.ata.size q.2.persist.dataDrive).toNat))) =
      some (0, .error, true) := by
    decide +kernel
  simp only [Option.bind_eq_some_iff, Option.map_eq_some_iff, Prod.mk.injEq, decide_eq_true_eq]
    at h
  obtain ⟨⟨st, sys⟩, hmount, ⟨res, t, s⟩, hadd, s', hreset, ⟨res', saved⟩, hsave,
    ⟨w, users, nodes⟩, hencode, ⟨w', users', nodes'⟩, hencode', ⟨st', m⟩, hboot, rfl, rfl, hstate,
    hsome, hstate', hagree, hfits, hroom⟩ := h
  have htext : AccountText (.add true alice secret true) := trivial
  have hreached : Reached .ample t s := .accounts skeleton_reached htext hadd
  obtain ⟨⟨root, kids, hinv⟩, -⟩ := hreached.sane.rooted
  have hsession := (Session.mount hmount).work s' t
  have htext' : FsText .reset := trivial
  have hreached' : Reached .ample t s' := hreached.files htext' hreset
  obtain ⟨s₂, hreset', hinv', -⟩ := @TreeInv.fsReset .ample _ _ _ hinv
  rw [hreset, Option.some.injEq] at hreset'
  subst hreset'
  refine ⟨_, saved, w, w', users, users', nodes, nodes', m, hsession, hreached', hstate, hsave,
    fun env' ready' next hnext => ⟨root, Forest.nil, hinv', ?_⟩, hstate', hencode, hagree,
    hencode', ⟨hfits, hroom⟩, hboot⟩
  exact saved_restored (fun _ => rfl) hsession hreached'.sane hstate hsave hinv' (.inl hsome)
    trivial hnext

theorem crash_atomic_again : ∃ old saved w, Valid saved old ∧ Atomic old saved w := by
  obtain ⟨old, saved, w, -, users, -, nodes, -, -, hsession, hreached, hstate, hsave, hvalid,
    hstate', hencode, hagree, -, -, -⟩ := alone_saved
  have hsession' := hsession.afterSave hsave
  exact ⟨old, saved, w, hvalid,
    (crash_atomic (fun _ => rfl) hsession hreached hstate hsave hvalid hsession' hstate'
      ⟨rfl, rfl, rfl, rfl⟩ hencode).1 fun _ => hagree⟩

/-- The built-in tree is saved over one account, and the save stops after one sector. The next
boot has an error, and neither of the two. -/
theorem first_sector_torn : ∃ old saved sys w users nodes m,
    Session .ample (fun _ => true) (freshBoot fun _ => Sector.ofBytes []) old ∧
      Reached .ample old.table old.fs ∧
      persistSave .ample (fun _ => true) old = some (0, saved) ∧ Valid saved old ∧
      Session .ample (fun _ => true) (freshBoot fun _ => Sector.ofBytes []) sys ∧
      Reached .ample sys.table sys.fs ∧ Resumed saved sys ∧
      encodeAll (sys.buffered .ample).fs sys.table = some (w, users, nodes) ∧ CanStop sys w 1 ∧
      NextBoot .ample (fun _ => true) (sys.stopped w.buffer 1) (sys.stopped w.buffer 1).again ∧
      persistMount .ample (fun _ => true) (sys.stopped w.buffer 1).again = some (.error, m) ∧
      ¬Atomic old sys w := by
  obtain ⟨old, saved, -, w, -, users, -, nodes, m, hsession, hreached, -, hsave, hvalid, -, -, -,
    hencode, hwrites, hboot⟩ := alone_saved
  have hsession' := hsession.afterSave hsave
  have hstop : CanStop saved.refilled w 1 := .inr ⟨payloadCount_pos _, hwrites⟩
  have hnext := (saved.refilled.stopped w.buffer 1).again_next
  refine ⟨old, saved, saved.refilled, w, users, nodes, m, hsession, hreached, hsave, hvalid,
    hsession'.work skeleton usersInit, saved.refilled_reached, ⟨rfl, rfl, rfl, rfl⟩, hencode, hstop,
    hnext, hboot, fun hatomic => ?_⟩
  rcases hatomic 1 hstop _ _ _ hnext with
    ⟨_, _, -, m', _, _, hloaded, -⟩ | ⟨_, _, -, m', _, _, hloaded, -⟩
  · rw [hboot] at hloaded
    simp at hloaded
  · rw [hboot] at hloaded
    simp at hloaded

end LightningOS.Persist
