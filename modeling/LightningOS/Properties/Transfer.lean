import LightningOS.Drivers.Ata

/-!
# What transfers do to the disks

A read leaves the disks alone. A write replaces a first part of the sectors it was asked
for, all of them if it reports success, and nothing else: `overlay` is what the disks
hold after `k` sectors. Drives that always answer make every transfer within bounds
succeed.
-/

namespace LightningOS.Ata

open ByteMemory

/-- The disks with `k` sectors of `drive` from `lba` on replaced by the bytes of `buf`. -/
def overlay (media : Drive → Nat → Sector) (drive : Drive) (lba k : Nat) (buf : List UInt8) :
    Drive → Nat → Sector :=
  fun d l =>
    if d = drive ∧ lba ≤ l ∧ l < lba + k then
      Sector.ofBytes (buf.drop ((l - lba) * ataSectorSize))
    else media d l

/-- The bytes of `n` sectors from `lba` on. -/
def sectorsAt (media : Nat → Sector) : Nat → Nat → List UInt8
  | _, 0 => []
  | lba, n + 1 => (media lba).val ++ sectorsAt media (lba + 1) n

/-- Nothing but the clock differs. -/
structure SameDisks (a a' : Channel) : Prop where
  media : a'.media = a.media
  size : a'.size = a.size
  drives : a'.drives = a.drives

/-- The drives are the same ones, whatever is on them. -/
structure SameDrives (a a' : Channel) : Prop where
  size : a'.size = a.size
  drives : a'.drives = a.drives

theorem SameDisks.refl (a : Channel) : SameDisks a a := ⟨rfl, rfl, rfl⟩

theorem SameDisks.trans {a b c : Channel} (h : SameDisks a b) (h' : SameDisks b c) :
    SameDisks a c :=
  ⟨h'.media.trans h.media, h'.size.trans h.size, h'.drives.trans h.drives⟩

theorem SameDrives.trans {a b c : Channel} (h : SameDrives a b) (h' : SameDrives b c) :
    SameDrives a c :=
  ⟨h'.size.trans h.size, h'.drives.trans h.drives⟩

theorem SameDisks.sameDrives {a b : Channel} (h : SameDisks a b) : SameDrives a b :=
  ⟨h.size, h.drives⟩

theorem overlay_zero (media : Drive → Nat → Sector) (drive : Drive) (lba : Nat)
    (buf : List UInt8) : overlay media drive lba 0 buf = media := by
  funext d l
  unfold overlay
  rw [if_neg (by omega)]

/-- Writing a first sector and then `k` more is writing `k + 1`. -/
theorem overlay_succ (media : Drive → Nat → Sector) (drive : Drive) (lba k : Nat)
    (buf : List UInt8) :
    overlay (fun d l => if d = drive ∧ l = lba then Sector.ofBytes buf else media d l) drive
      (lba + 1) k (buf.drop ataSectorSize) = overlay media drive lba (k + 1) buf := by
  funext d l
  unfold overlay
  by_cases h : d = drive ∧ lba + 1 ≤ l ∧ l < lba + 1 + k
  · rw [if_pos h, if_pos ⟨h.1, by omega, by omega⟩, List.drop_drop]
    congr 2
    have hl : l - lba = l - (lba + 1) + 1 := by omega
    rw [hl, Nat.succ_mul]
    omega
  · rw [if_neg h]
    show (if d = drive ∧ l = lba then Sector.ofBytes buf else media d l) = _
    by_cases h0 : d = drive ∧ l = lba
    · rw [if_pos h0, if_pos ⟨h0.1, by omega, by omega⟩, h0.2, Nat.sub_self, Nat.zero_mul,
        List.drop_zero]
    · rw [if_neg h0, if_neg fun hc => ?_]
      exact h ⟨hc.1, by have : l ≠ lba := fun he => h0 ⟨hc.1, he⟩; omega, by omega⟩

/-- Writing `k` sectors and then `j` behind them. -/
theorem overlay_add (media : Drive → Nat → Sector) (drive : Drive) (lba k j : Nat)
    (buf : List UInt8) :
    overlay (overlay media drive lba k buf) drive (lba + k) j (buf.drop (k * ataSectorSize)) =
      overlay media drive lba (k + j) buf := by
  funext d l
  unfold overlay
  by_cases h : d = drive ∧ lba + k ≤ l ∧ l < lba + k + j
  · rw [if_pos h, if_pos ⟨h.1, by omega, by omega⟩, List.drop_drop, ← Nat.add_mul]
    congr 3
    omega
  · rw [if_neg h]
    by_cases h0 : d = drive ∧ lba ≤ l ∧ l < lba + k
    · rw [if_pos h0, if_pos ⟨h0.1, by omega, by omega⟩]
    · rw [if_neg h0, if_neg fun hc => ?_]
      rcases Nat.lt_or_ge l (lba + k) with hlt | hge
      · exact h0 ⟨hc.1, hc.2.1, hlt⟩
      · exact h ⟨hc.1, hge, by omega⟩

theorem sectorsAt_add (media : Nat → Sector) (n m : Nat) : ∀ lba : Nat,
    sectorsAt media lba (n + m) = sectorsAt media lba n ++ sectorsAt media (lba + n) m := by
  induction n with
  | zero => intro lba; simp [sectorsAt]
  | succ n ih =>
    intro lba
    rw [Nat.succ_add_eq_add_succ, Nat.add_succ, sectorsAt, ih (lba + 1), sectorsAt,
      List.append_assoc, Nat.succ_add_eq_add_succ]

theorem sectorsAt_length (media : Nat → Sector) (n : Nat) : ∀ lba : Nat,
    (sectorsAt media lba n).length = n * ataSectorSize := by
  induction n with
  | zero => intro lba; simp [sectorsAt]
  | succ n ih =>
    intro lba
    rw [sectorsAt, List.length_append, (media lba).property, ih, Nat.succ_mul, Nat.add_comm]

theorem sectorsAt_congr {media media' : Nat → Sector} {n : Nat} : ∀ {lba : Nat},
    (∀ l, lba ≤ l → l < lba + n → media l = media' l) →
      sectorsAt media lba n = sectorsAt media' lba n := by
  induction n with
  | zero => intro lba _; rfl
  | succ n ih =>
    intro lba h
    rw [sectorsAt, sectorsAt, h lba (Nat.le_refl _) (by omega),
      ih fun l h₁ h₂ => h l (by omega) (by omega)]

theorem ofBytes_of_length {bytes : List UInt8} (h : bytes.length = ataSectorSize) :
    (Sector.ofBytes bytes).val = bytes := by
  show (bytes ++ _).take ataSectorSize = bytes
  rw [List.take_append_of_le_length (Nat.le_of_eq h.symm)]
  exact List.take_of_length_le (Nat.le_of_eq h)

/-- Sectors that a write leaves alone. -/
theorem overlay_other {media : Drive → Nat → Sector} {drive d : Drive} {lba k l : Nat}
    {buf : List UInt8} (h : d ≠ drive ∨ l < lba ∨ lba + k ≤ l) :
    overlay media drive lba k buf d l = media d l := by
  unfold overlay
  rw [if_neg]
  rintro ⟨hd, h₁, h₂⟩
  rcases h with h | h
  · exact h hd
  · omega

/-- The first `n` sectors of what was written. -/
theorem sectorsAt_overlay_take (media : Drive → Nat → Sector) (drive : Drive) (lba : Nat)
    {k : Nat} {buf : List UInt8} (hlen : k * ataSectorSize ≤ buf.length) {n : Nat} (hn : n ≤ k) :
    sectorsAt (overlay media drive lba k buf drive) lba n = buf.take (n * ataSectorSize) := by
  have hs : ataSectorSize = 512 := rfl
  induction n with
  | zero => simp [sectorsAt]
  | succ n ih =>
    have hfull : ataSectorSize ≤ (buf.drop (n * ataSectorSize)).length := by
      rw [List.length_drop, hs]
      rw [hs] at hlen
      omega
    have hsector : (overlay media drive lba k buf drive (lba + n)).val =
        (buf.drop (n * ataSectorSize)).take ataSectorSize := by
      unfold overlay
      rw [if_pos ⟨rfl, by omega, by omega⟩, Nat.add_sub_cancel_left]
      show (buf.drop (n * ataSectorSize) ++ _).take ataSectorSize = _
      exact List.take_append_of_le_length hfull
    rw [sectorsAt_add, ih (by omega), sectorsAt, sectorsAt, List.append_nil, hsector,
      Nat.succ_mul, List.take_add]

/-- What was written is there. -/
theorem sectorsAt_overlay (media : Drive → Nat → Sector) (drive : Drive) (lba : Nat)
    {k : Nat} {buf : List UInt8} (hlen : buf.length = k * ataSectorSize) :
    sectorsAt (overlay media drive lba k buf drive) lba k = buf := by
  rw [sectorsAt_overlay_take media drive lba (Nat.le_of_eq hlen.symm) (Nat.le_refl k), ← hlen,
    List.take_length]

/-- **A write that stopped**: its first sectors, and behind them what was there before. -/
theorem sectorsAt_stopped (media : Drive → Nat → Sector) (drive : Drive) (lba : Nat) {k : Nat}
    {buf : List UInt8} (hlen : k * ataSectorSize ≤ buf.length) (n : Nat) :
    sectorsAt (overlay media drive lba k buf drive) lba n =
      buf.take (min k n * ataSectorSize) ++
        (sectorsAt (media drive) lba n).drop (min k n * ataSectorSize) := by
  obtain ⟨rest, hrest⟩ : ∃ rest, n = min k n + rest := ⟨n - min k n, by omega⟩
  have hfront := sectorsAt_overlay_take media drive lba hlen (Nat.min_le_left k n)
  have hbehind : sectorsAt (overlay media drive lba k buf drive) (lba + min k n) rest =
      sectorsAt (media drive) (lba + min k n) rest :=
    sectorsAt_congr fun l h₁ h₂ => overlay_other (.inr (.inr (by omega)))
  have hsplit := sectorsAt_add (media drive) (min k n) rest lba
  have hsplit' := sectorsAt_add (overlay media drive lba k buf drive) (min k n) rest lba
  rw [← hrest] at hsplit hsplit'
  rw [hsplit', hfront, hbehind, hsplit, List.drop_left' (sectorsAt_length _ _ _)]

variable (ready : Nat → Bool) (drive : Drive)

/-! ## The sectors of one command -/

theorem sectorLoop_read {n : Nat} : ∀ (lba : Nat) (buf out : List UInt8)
    (a : Channel), ∃ ok got a', sectorLoop ready drive false n lba buf out a = (ok, out ++ got, a') ∧
      SameDisks a a' ∧ (ok = true → got = sectorsAt (a.media drive) lba n) ∧
      ((∀ t, ready t = true) → lba + n ≤ (a.size drive).toNat → ok = true) := by
  induction n with
  | zero =>
    intro lba buf out a
    exact ⟨true, [], a, by simp [sectorLoop], .refl a, fun _ => rfl, fun _ _ => rfl⟩
  | succ n ih =>
    intro lba buf out a
    rw [sectorLoop]
    unfold Channel.wait
    cases hr : ready a.time with
    | false =>
      refine ⟨false, [], { a with time := a.time + 1 }, by simp, ⟨rfl, rfl, rfl⟩, by simp, fun h _ => ?_⟩
      rw [h] at hr
      simp at hr
    | true =>
      by_cases hlt : (a.size drive).toNat ≤ lba
      · exact ⟨false, [], { a with time := a.time + 1 }, by simp [hlt], ⟨rfl, rfl, rfl⟩, by simp, fun _ h => by omega⟩
      · obtain ⟨ok, got, a', hloop, hsame, hgot, hok⟩ := ih (lba + 1) buf
          (out ++ (a.media drive lba).val) { a with time := a.time + 1 }
        refine ⟨ok, (a.media drive lba).val ++ got, a', ?_, ?_, ?_, ?_⟩
        · simp only [if_neg hlt, Bool.false_eq_true, if_false]
          rw [hloop, List.append_assoc]
        · exact ⟨hsame.media, hsame.size, hsame.drives⟩
        · intro h
          rw [hgot h, sectorsAt]
        · intro h hle
          refine hok h ?_
          show lba + 1 + n ≤ (a.size drive).toNat
          omega

theorem sectorLoop_write {n : Nat} : ∀ (lba : Nat) (buf out : List UInt8)
    (a : Channel), ∃ ok a' k, sectorLoop ready drive true n lba buf out a = (ok, out, a') ∧
      k ≤ n ∧ SameDrives a a' ∧ a'.media = overlay a.media drive lba k buf ∧
      (ok = true → k = n) ∧
      ((∀ t, ready t = true) → lba + n ≤ (a.size drive).toNat → ok = true) := by
  induction n with
  | zero =>
    intro lba buf out a
    exact ⟨true, a, 0, by simp [sectorLoop], Nat.le_refl _, ⟨rfl, rfl⟩,
      (overlay_zero _ _ _ _).symm, fun _ => rfl, fun _ _ => rfl⟩
  | succ n ih =>
    intro lba buf out a
    rw [sectorLoop]
    unfold Channel.wait
    cases hr : ready a.time with
    | false =>
      refine ⟨false, { a with time := a.time + 1 }, 0, by simp, Nat.zero_le _, ⟨rfl, rfl⟩, (overlay_zero _ _ _ _).symm,
        by simp, fun h _ => ?_⟩
      rw [h] at hr
      simp at hr
    | true =>
      by_cases hlt : (a.size drive).toNat ≤ lba
      · exact ⟨false, { a with time := a.time + 1 }, 0, by simp [hlt], Nat.zero_le _, ⟨rfl, rfl⟩,
          (overlay_zero _ _ _ _).symm, by simp, fun _ h => by omega⟩
      · obtain ⟨ok, a', k, hloop, hk, hsame, hmedia, hall, hok⟩ := ih (lba + 1)
          (buf.drop ataSectorSize) out
          ({ a with time := a.time + 1 }.setSector drive lba (Sector.ofBytes buf))
        refine ⟨ok, a', k + 1, ?_, by omega, ⟨hsame.size, hsame.drives⟩, ?_, fun h => ?_, ?_⟩
        · simp only [if_neg hlt, if_true]
          exact hloop
        · rw [hmedia]
          exact overlay_succ a.media drive lba k buf
        · rw [hall h]
        · intro h hle
          refine hok h ?_
          show lba + 1 + n ≤ (a.size drive).toNat
          omega

/-! ## One command -/

theorem transferChunk_read {lba count : Nat} (hc : 0 < count) (hc' : count ≤ 255)
    (hl : lba < 268435456) (buf : List UInt8) (a : Channel) :
    ∃ ok got a', transferChunk ready a drive lba count buf false = (ok, got, a') ∧
      SameDisks a a' ∧ (ok = true → got = sectorsAt (a.media drive) lba count) ∧
      ((∀ t, ready t = true) → lba + count ≤ (a.size drive).toNat → ok = true) := by
  have hcount : (if count % 256 = 0 then 256 else count % 256) = count := by
    rw [Nat.mod_eq_of_lt (by omega), if_neg (by omega)]
  unfold transferChunk Channel.wait
  cases hr : ready a.time with
  | false =>
    refine ⟨false, [], { a with time := a.time + 1 }, rfl, ⟨rfl, rfl, rfl⟩, by simp, fun h _ => ?_⟩
    rw [h] at hr
    simp at hr
  | true =>
    obtain ⟨ok, got, a', hloop, hsame, hgot, hok⟩ :=
      sectorLoop_read ready drive (n := count) lba buf [] { a with time := a.time + 1 }
    refine ⟨ok, got, a', ?_, ⟨hsame.media, hsame.size, hsame.drives⟩, hgot, hok⟩
    simp only [hcount, Nat.mod_eq_of_lt hl, hloop, List.nil_append]
    cases ok <;> rfl

theorem transferChunk_write {lba count : Nat} (hc : 0 < count)
    (hc' : count ≤ 255) (hl : lba < 268435456) (buf : List UInt8) (a : Channel) :
    ∃ ok a' k, transferChunk ready a drive lba count buf true = (ok, [], a') ∧ k ≤ count ∧
      SameDrives a a' ∧ a'.media = overlay a.media drive lba k buf ∧ (ok = true → k = count) ∧
      ((∀ t, ready t = true) → lba + count ≤ (a.size drive).toNat → ok = true) := by
  have hcount : (if count % 256 = 0 then 256 else count % 256) = count := by
    rw [Nat.mod_eq_of_lt (by omega), if_neg (by omega)]
  unfold transferChunk Channel.wait
  cases hr : ready a.time with
  | false =>
    refine ⟨false, { a with time := a.time + 1 }, 0, rfl, Nat.zero_le _, ⟨rfl, rfl⟩,
      (overlay_zero _ _ _ _).symm, by simp, fun h _ => ?_⟩
    rw [h] at hr
    simp at hr
  | true =>
    obtain ⟨ok, a', k, hloop, hk, hsame, hmedia, hall, hok⟩ :=
      sectorLoop_write ready drive (n := count) lba buf [] { a with time := a.time + 1 }
    simp only [hcount, Nat.mod_eq_of_lt hl, hloop, if_true]
    cases ok with
    | false =>
      exact ⟨false, a', k, rfl, hk, ⟨hsame.size, hsame.drives⟩, hmedia, by simp, hok⟩
    | true =>
      -- the sectors are on the disk, whatever the last two polls say
      cases hr1 : ready a'.time with
      | false =>
        refine ⟨false, { a' with time := a'.time + 1 }, k, by simp [hr1], hk, ⟨hsame.size, hsame.drives⟩,
          hmedia, by simp, fun h _ => ?_⟩
        rw [h] at hr1
        simp at hr1
      | true =>
        cases hr2 : ready (a'.time + 1) with
        | false =>
          refine ⟨false, { a' with time := a'.time + 1 + 1 }, k, by simp [hr1, hr2], hk,
            ⟨hsame.size, hsame.drives⟩, hmedia, by simp, fun h _ => ?_⟩
          rw [h] at hr2
          simp at hr2
        | true =>
          exact ⟨true, { a' with time := a'.time + 1 + 1 }, k, by simp [hr1, hr2], hk,
            ⟨hsame.size, hsame.drives⟩, hmedia, fun _ => hall rfl, fun _ _ => rfl⟩

/-! ## Whole transfers -/

theorem transferLoop_read {fuel : Nat} : ∀ (lba count : Nat) (buf out : List UInt8)
    (a : Channel), count ≤ fuel → lba + count ≤ 268435456 →
    ∃ ok got a', transferLoop ready drive false fuel lba count buf out a = (ok, out ++ got, a') ∧
      SameDisks a a' ∧ (ok = true → got = sectorsAt (a.media drive) lba count) ∧
      ((∀ t, ready t = true) → lba + count ≤ (a.size drive).toNat → ok = true) := by
  induction fuel with
  | zero =>
    intro lba count buf out a hf _
    obtain rfl : count = 0 := by omega
    exact ⟨true, [], a, by simp [transferLoop], .refl a, fun _ => rfl, fun _ _ => rfl⟩
  | succ fuel ih =>
    intro lba count buf out a hf hle
    rw [transferLoop]
    by_cases h0 : count = 0
    · subst h0
      exact ⟨true, [], a, by simp, .refl a, fun _ => rfl, fun _ _ => rfl⟩
    obtain ⟨chunk, hchunk⟩ : ∃ c, c = if 255 < count then 255 else count := ⟨_, rfl⟩
    have hcpos : 0 < chunk ∧ chunk ≤ 255 ∧ chunk ≤ count := by
      rw [hchunk]
      split <;> omega
    have hlba : lba < 268435456 := by omega
    obtain ⟨ok, got, a', hone, hsame, hgot, hok⟩ :=
      transferChunk_read ready drive hcpos.1 hcpos.2.1 hlba buf a
    rw [if_neg h0]
    simp only [← hchunk, hone]
    cases ok with
    | false =>
      refine ⟨false, got, a', rfl, hsame, by simp, fun h hs => ?_⟩
      exact hok h (by omega)
    | true =>
      have hw : wrap32 (lba + chunk) = lba + chunk := wrap32_of_lt (by omega)
      obtain ⟨ok', got', a'', hloop, hsame', hgot', hok'⟩ := ih (lba + chunk) (count - chunk)
        (buf.drop (chunk * ataSectorSize)) (out ++ got) a' (by omega) (by omega)
      refine ⟨ok', got ++ got', a'', ?_, hsame.trans hsame', fun h => ?_, fun h hs => ?_⟩
      · simp only [hw, hloop, List.append_assoc]
      · rw [hgot rfl, hgot' h, hsame.media, ← sectorsAt_add]
        congr 1
        omega
      · refine hok' h ?_
        rw [hsame.size]
        omega

theorem transferLoop_write {fuel : Nat} : ∀ (lba count : Nat)
    (buf out : List UInt8) (a : Channel), count ≤ fuel → lba + count ≤ 268435456 →
    ∃ ok a' k, transferLoop ready drive true fuel lba count buf out a = (ok, out, a') ∧
      k ≤ count ∧ SameDrives a a' ∧ a'.media = overlay a.media drive lba k buf ∧
      (ok = true → k = count) ∧
      ((∀ t, ready t = true) → lba + count ≤ (a.size drive).toNat → ok = true) := by
  induction fuel with
  | zero =>
    intro lba count buf out a hf _
    obtain rfl : count = 0 := by omega
    exact ⟨true, a, 0, by simp [transferLoop], Nat.le_refl _, ⟨rfl, rfl⟩,
      (overlay_zero _ _ _ _).symm, fun _ => rfl, fun _ _ => rfl⟩
  | succ fuel ih =>
    intro lba count buf out a hf hle
    rw [transferLoop]
    by_cases h0 : count = 0
    · subst h0
      exact ⟨true, a, 0, by simp, Nat.le_refl _, ⟨rfl, rfl⟩, (overlay_zero _ _ _ _).symm,
        fun _ => rfl, fun _ _ => rfl⟩
    obtain ⟨chunk, hchunk⟩ : ∃ c, c = if 255 < count then 255 else count := ⟨_, rfl⟩
    have hcpos : 0 < chunk ∧ chunk ≤ 255 ∧ chunk ≤ count := by
      rw [hchunk]
      split <;> omega
    have hlba : lba < 268435456 := by omega
    obtain ⟨ok, a', k, hone, hk, hsame, hmedia, hall, hok⟩ :=
      transferChunk_write ready drive hcpos.1 hcpos.2.1 hlba buf a
    rw [if_neg h0]
    simp only [← hchunk, hone]
    cases ok with
    | false =>
      refine ⟨false, a', k, by simp, by omega, hsame, hmedia, by simp, fun h hs => ?_⟩
      exact hok h (by omega)
    | true =>
      have hw : wrap32 (lba + chunk) = lba + chunk := wrap32_of_lt (by omega)
      have hkc := hall rfl
      obtain ⟨ok', a'', k', hloop, hk', hsame', hmedia', hall', hok'⟩ := ih (lba + chunk)
        (count - chunk) (buf.drop (chunk * ataSectorSize)) out a' (by omega) (by omega)
      refine ⟨ok', a'', chunk + k', ?_, by omega, hsame.trans hsame', ?_, fun h => ?_,
        fun h hs => ?_⟩
      · simp only [hw, List.append_nil, hloop]
      · rw [hmedia', hmedia, hkc]
        exact overlay_add a.media drive lba chunk k' buf
      · have := hall' h
        omega
      · refine hok' h ?_
        rw [hsame.size]
        omega

/-- The transfer is within the drive. -/
def InRange (a : Channel) (drive : Drive) (lba count : Nat) : Prop :=
  ataPresent a drive = true ∧ lba + count ≤ (a.drives drive).sectors

/-- **What `ata_read` does.** It changes no disk, and what it returns is what is there. -/
theorem ataRead_spec {lba count : Nat} (hle : lba + count ≤ 268435456)
    (a : Channel) :
    ∃ res a', ataRead ready a drive lba count = (res, a') ∧ SameDisks a a' ∧
      (∀ out, res = some out → out = sectorsAt (a.media drive) lba count) ∧
      ((∀ t, ready t = true) → InRange a drive lba count →
        lba + count ≤ (a.size drive).toNat → res ≠ none) := by
  unfold ataRead transfer
  by_cases hp : ataPresent a drive = false
  · refine ⟨none, a, by rw [if_pos hp], .refl a, by simp, fun _ h => ?_⟩
    rw [h.1] at hp
    simp at hp
  rw [if_neg hp]
  by_cases h0 : count = 0
  · subst h0
    exact ⟨some [], a, by simp, .refl a, by simp [sectorsAt], by simp⟩
  rw [if_neg h0]
  have hw : wrap32 (lba + count) = lba + count := wrap32_of_lt (by omega)
  by_cases hs : (a.drives drive).sectors < wrap32 (lba + count)
  · refine ⟨none, a, by rw [if_pos hs], .refl a, by simp, fun _ h => ?_⟩
    rw [hw] at hs
    have := h.2
    omega
  rw [if_neg hs]
  obtain ⟨ok, got, a', hloop, hsame, hgot, hok⟩ := transferLoop_read ready drive lba count [] [] a (Nat.le_refl _) hle
  rw [hloop]
  cases ok with
  | false => exact ⟨none, a', rfl, hsame, by simp, fun h _ hsz => absurd (hok h hsz) (by simp)⟩
  | true =>
    refine ⟨some got, a', by simp, hsame, fun out h => ?_, fun _ _ _ => by simp⟩
    rw [← Option.some.inj h]
    exact hgot rfl

/-- **What `ata_write` does.** It replaces a first part of the sectors, and all of them when
it returns 0. -/
theorem ataWrite_spec {lba count : Nat} (hle : lba + count ≤ 268435456)
    (buf : List UInt8) (a : Channel) :
    ∃ res a' k, ataWrite ready a drive lba count buf = (res, a') ∧ k ≤ count ∧ SameDrives a a' ∧
      a'.media = overlay a.media drive lba k buf ∧ (res = 0 ∨ res = -1) ∧
      (res = 0 → k = count ∧ ataPresent a drive = true ∧
        (0 < count → lba + count ≤ (a.drives drive).sectors)) ∧
      ((∀ t, ready t = true) → InRange a drive lba count →
        lba + count ≤ (a.size drive).toNat → res = 0) := by
  unfold ataWrite transfer
  by_cases hp : ataPresent a drive = false
  · refine ⟨-1, a, 0, by rw [if_pos hp], Nat.zero_le _, ⟨rfl, rfl⟩, (overlay_zero _ _ _ _).symm,
      by simp, by simp, fun _ h => ?_⟩
    rw [h.1] at hp
    simp at hp
  have hp' : ataPresent a drive = true := by simpa using hp
  rw [if_neg hp]
  by_cases h0 : count = 0
  · subst h0
    exact ⟨0, a, 0, by simp, Nat.zero_le _, ⟨rfl, rfl⟩, (overlay_zero _ _ _ _).symm, by simp,
      fun _ => ⟨rfl, hp', by simp⟩, fun _ _ _ => rfl⟩
  rw [if_neg h0]
  have hw : wrap32 (lba + count) = lba + count := wrap32_of_lt (by omega)
  by_cases hs : (a.drives drive).sectors < wrap32 (lba + count)
  · refine ⟨-1, a, 0, by rw [if_pos hs], Nat.zero_le _, ⟨rfl, rfl⟩, (overlay_zero _ _ _ _).symm,
      by simp, by simp, fun _ h => ?_⟩
    rw [hw] at hs
    have := h.2
    omega
  rw [if_neg hs]
  obtain ⟨ok, a', k, hloop, hk, hsame, hmedia, hall, hok⟩ := transferLoop_write ready drive lba count buf [] a (Nat.le_refl _) hle
  rw [hloop]
  cases ok with
  | false =>
    exact ⟨-1, a', k, rfl, hk, hsame, hmedia, by simp, by simp,
      fun h _ hsz => absurd (hok h hsz) (by simp)⟩
  | true =>
    refine ⟨0, a', k, rfl, hk, hsame, hmedia, by simp, fun _ => ⟨hall rfl, hp', fun _ => ?_⟩,
      fun _ _ _ => rfl⟩
    rw [hw] at hs
    omega

/-- Before the first sector is handed over, the driver gives up: the transfer is out of
range, or one of the first two polls fails. -/
def Refuses (a : Channel) (lba count : Nat) : Prop :=
  ataPresent a drive = false ∨ (a.drives drive).sectors < lba + count ∨ ready a.time = false ∨
    ready (a.time + 1) = false

theorem ataWrite_refused {lba count : Nat} (hle : lba + count ≤ 268435456) (h0 : 0 < count)
    (buf : List UInt8) {a : Channel} (h : Refuses ready drive a lba count) :
    ∃ a', ataWrite ready a drive lba count buf = (-1, a') ∧ SameDisks a a' := by
  unfold ataWrite transfer
  by_cases hp : ataPresent a drive = false
  · exact ⟨a, by rw [if_pos hp], .refl a⟩
  rw [if_neg hp, if_neg (by omega), wrap32_of_lt (by omega : lba + count < 4294967296)]
  by_cases hs : (a.drives drive).sectors < lba + count
  · exact ⟨a, by rw [if_pos hs], .refl a⟩
  rw [if_neg hs]
  obtain ⟨n, rfl⟩ : ∃ n, count = n + 1 := ⟨count - 1, by omega⟩
  obtain ⟨chunk, hchunk⟩ : ∃ c, c = if 255 < n + 1 then 255 else n + 1 := ⟨_, rfl⟩
  have hpolls : ∃ a', transferChunk ready a drive lba chunk buf true = (false, [], a') ∧
      SameDisks a a' := by
    unfold transferChunk Channel.wait
    cases hr : ready a.time with
    | false => exact ⟨{ a with time := a.time + 1 }, rfl, ⟨rfl, rfl, rfl⟩⟩
    | true =>
      have hr' : ready (a.time + 1) = false := by
        rcases h with h | h | h | h
        · exact absurd h hp
        · exact absurd h hs
        · rw [hr] at h
          simp at h
        · exact h
      obtain ⟨m, hm⟩ : ∃ m, (if chunk % 256 = 0 then 256 else chunk % 256) = m + 1 :=
        ⟨(if chunk % 256 = 0 then 256 else chunk % 256) - 1, by split <;> omega⟩
      refine ⟨{ a with time := a.time + 1 + 1 }, ?_, ⟨rfl, rfl, rfl⟩⟩
      simp only [hm, sectorLoop, Channel.wait, hr']
  obtain ⟨a', hchunk', hsame⟩ := hpolls
  refine ⟨a', ?_, hsame⟩
  rw [transferLoop, if_neg (by omega)]
  simp only [← hchunk, hchunk']

end LightningOS.Ata
