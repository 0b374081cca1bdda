import LightningOS.Properties.Ports

/-!
# The sectors that a transfer touches

`write_then_read` is about transfers inside the drive: what a write changes, what a read
gives back, and which commands the drive got. `refuses_outside_iff` is about the check in
front of them. It adds two 32-bit numbers and looks at the wrapped sum, so that a sum just
past 2^32 passes.
-/

namespace LightningOS.Ata

open ByteMemory

variable (ready : Nat → Bool) (drive : Drive)

/-! ## Transfers inside the drive -/

/-- The sectors from `lba` on hold the bytes of the buffer, and nothing else changed. -/
structure Moved (media media' : Drive → Nat → Sector) (lba count : Nat) (buf : List UInt8) :
    Prop where
  inside : ∀ i < count, (media' drive (lba + i)).val =
    (buf.drop (i * ataSectorSize)).take ataSectorSize
  outside : ∀ d l, d ≠ drive ∨ l < lba ∨ lba + count ≤ l → media' d l = media d l

/-- The log grew by small commands, which cover the range if the transfer went well. -/
def Issued (write : Bool) (lba count : Nat) (res : Int) (p p' : Ports) : Prop :=
  ∃ cmds, p'.log = p.log ++ cmds ∧ (∀ c ∈ cmds, Small drive write c) ∧
    (res = 0 → Covers lba count cmds)

theorem moved_overlay {media : Drive → Nat → Sector} {lba count : Nat} {buf : List UInt8}
    (hbuf : buf.length = count * ataSectorSize) :
    Moved drive media (overlay media drive lba count buf) lba count buf := by
  have hs : ataSectorSize = 512 := rfl
  constructor
  · intro i hi
    have hfull : ataSectorSize ≤ (buf.drop (i * ataSectorSize)).length := by
      rw [List.length_drop, hbuf, hs]
      omega
    rw [overlay, if_pos ⟨rfl, by omega, by omega⟩, Nat.add_sub_cancel_left]
    show (buf.drop (i * ataSectorSize) ++ _).take ataSectorSize = _
    exact List.take_append_of_le_length hfull
  · intro d l h
    exact overlay_other h

theorem Ports.issued {p p' : Ports} {write : Bool} {lba count : UInt32} {ok : Bool}
    {cmds : List Command} (hle : lba.toNat + count.toNat ≤ 268435456)
    (hlog : p'.log = p.log ++ cmds) (hpre : cmds <+: commands drive write count.toNat lba count)
    (hall : ok = true → cmds = commands drive write count.toNat lba count) :
    Issued drive write lba.toNat count.toNat (if ok then 0 else -1) p p' := by
  refine ⟨cmds, hlog, fun c hc => commands_small drive write lba count c (hpre.subset hc), ?_⟩
  cases ok with
  | false => exact fun h => absurd h (by decide)
  | true =>
    intro _
    rw [hall rfl]
    exact commands_cover drive write lba count (Nat.le_refl _) hle

/-- A write on the ports, inside the drive. -/
theorem Ports.ataWrite_exact {p : Ports} {lba count : UInt32} (buf : List UInt8)
    (hle : lba.toNat + count.toNat ≤ 268435456) :
    ∃ res p', p.ataWrite ready drive lba count buf = (res, p') ∧
      Issued drive true lba.toNat count.toNat res p p' ∧ SameDrives p.chan p'.chan ∧
      (res = 0 → p'.chan.media = overlay p.chan.media drive lba.toNat count.toNat buf) ∧
      ((∀ t, ready t = true) → InRange p.chan drive lba.toNat count.toNat →
        lba.toNat + count.toNat ≤ (p.chan.size drive).toNat → res = 0) := by
  obtain ⟨ok, out, a, regs, job, cmds, hchan, hports, hpre, hall⟩ :=
    p.transfer_eq ready drive true lba count buf
  obtain ⟨res, a', k, hw, -, hsame, hmedia, -, hzero, hgood⟩ := ataWrite_spec ready drive hle buf p.chan
  rw [Ata.ataWrite, hchan] at hw
  have hres : (if ok then 0 else -1 : Int) = res ∧ a = a' := by
    cases ok <;> exact Prod.mk.inj hw
  obtain ⟨hok, rfl⟩ := hres
  refine ⟨res, { chan := a, regs := regs, job := job, log := p.log ++ cmds }, ?_, ?_, hsame, ?_,
    hgood⟩
  · rw [Ports.ataWrite, hports, ← hok]
  · rw [← hok]
    exact Ports.issued drive hle rfl hpre hall
  · intro h0
    obtain ⟨hk, -⟩ := hzero h0
    rw [← hk]
    exact hmedia

/-- A read on the ports, inside the drive. -/
theorem Ports.ataRead_exact {p : Ports} {lba count : UInt32}
    (hle : lba.toNat + count.toNat ≤ 268435456) :
    ∃ res out p', p.ataRead ready drive lba count = (res, out, p') ∧
      Issued drive false lba.toNat count.toNat res p p' ∧ SameDisks p.chan p'.chan ∧
      (res = 0 → out = sectorsAt (p.chan.media drive) lba.toNat count.toNat) ∧
      ((∀ t, ready t = true) → InRange p.chan drive lba.toNat count.toNat →
        lba.toNat + count.toNat ≤ (p.chan.size drive).toNat → res = 0) := by
  obtain ⟨ok, out, a, regs, job, cmds, hchan, hports, hpre, hall⟩ :=
    p.transfer_eq ready drive false lba count []
  obtain ⟨res, a', hr, hsame, hout, hgood⟩ := ataRead_spec ready drive hle p.chan
  rw [Ata.ataRead, hchan] at hr
  refine ⟨if ok then 0 else -1, out, { chan := a, regs := regs, job := job, log := p.log ++ cmds },
    hports, Ports.issued drive hle rfl hpre hall, ?_, ?_, ?_⟩
  · cases ok with
    | false =>
      obtain ⟨-, rfl⟩ := Prod.mk.inj hr
      exact hsame
    | true =>
      obtain ⟨-, rfl⟩ := Prod.mk.inj hr
      exact hsame
  · cases ok with
    | false => exact fun h => absurd h (by decide)
    | true =>
      obtain ⟨rfl, -⟩ := Prod.mk.inj hr
      exact fun _ => hout out rfl
  · intro ht hin hsize
    have := hgood ht hin hsize
    cases ok with
    | false =>
      obtain ⟨rfl, -⟩ := Prod.mk.inj hr
      exact absurd rfl this
    | true => rfl

/--
**Transfers move exactly the requested sectors.** Inside a drive of at most 2^28 sectors
every command is for 1 to 255 sectors, and the commands of a transfer that succeeds cover
the range once, in order. A write that succeeds changes the sectors of the range to the
pieces of the buffer and no others, and a read behind it that succeeds gives the buffer
back. If every poll of the drive ends well, both succeed.
-/
theorem write_then_read (p : Ports) (lba count : UInt32) (buf : List UInt8)
    (hp : ataPresent p.chan drive = true)
    (hmax : (p.chan.drives drive).sectors ≤ 2 ^ 28)
    (hin : lba.toNat + count.toNat ≤ (p.chan.drives drive).sectors)
    (hbuf : buf.length = count.toNat * ataSectorSize) :
    ∃ res p', p.ataWrite ready drive lba count buf = (res, p') ∧
      Issued drive true lba.toNat count.toNat res p p' ∧
      (res = 0 → Moved drive p.chan.media p'.chan.media lba.toNat count.toNat buf) ∧
      ∃ res' out p'', p'.ataRead ready drive lba count = (res', out, p'') ∧
        Issued drive false lba.toNat count.toNat res' p' p'' ∧
        p''.chan.media = p'.chan.media ∧ (res = 0 → res' = 0 → out = buf) ∧
        ((∀ t, ready t = true) → (p.chan.drives drive).sectors ≤ (p.chan.size drive).toNat →
          res = 0 ∧ res' = 0) := by
  have hle : lba.toNat + count.toNat ≤ 268435456 := Nat.le_trans hin hmax
  obtain ⟨res, p', hw, hissued, hsame, hmedia, hgood⟩ :=
    Ports.ataWrite_exact ready drive (p := p) buf hle
  obtain ⟨res', out, p'', hr, hissued', hsame', hout, hgood'⟩ :=
    Ports.ataRead_exact ready drive (p := p') hle
  refine ⟨res, p', hw, hissued, fun h => ?_, res', out, p'', hr, hissued', hsame'.media,
    fun h h' => ?_, fun ht hsize => ⟨hgood ht ⟨hp, hin⟩ (Nat.le_trans hin hsize), ?_⟩⟩
  · rw [hmedia h]
    exact moved_overlay drive hbuf
  · rw [hout h', hmedia h]
    exact sectorsAt_overlay p.chan.media drive lba.toNat hbuf
  · refine hgood' ht ⟨?_, ?_⟩ ?_
    · rw [ataPresent, hsame.drives]
      exact hp
    · rw [hsame.drives]
      exact hin
    · rw [hsame.size]
      exact Nat.le_trans hin hsize

/-- A channel with a master of eight empty sectors that has been probed. -/
def eightSectors : Ports where
  chan := {
    size := fun d => if d = .master then 8 else 0
    media := fun _ _ => Sector.ofBytes []
    drives := fun d => if d = .master then { present := true, sectors := 8 } else {}
    time := 0 }
  regs := {}
  job := none
  log := []

/-- Two sectors of that drive. -/
theorem write_then_read_two :
    ∃ res p', eightSectors.ataWrite (fun _ => true) .master 1 2 (List.replicate 1024 7) =
        (res, p') ∧
      Issued .master true 1 2 res eightSectors p' ∧
      (res = 0 → Moved .master eightSectors.chan.media p'.chan.media 1 2 (List.replicate 1024 7)) ∧
      ∃ res' out p'', p'.ataRead (fun _ => true) .master 1 2 = (res', out, p'') ∧
        Issued .master false 1 2 res' p' p'' ∧ p''.chan.media = p'.chan.media ∧
        (res = 0 → res' = 0 → out = List.replicate 1024 7) ∧
        ((∀ t : Nat, (fun _ => true) t = true) →
          (eightSectors.chan.drives .master).sectors ≤ (eightSectors.chan.size .master).toNat →
          res = 0 ∧ res' = 0) :=
  write_then_read (fun _ => true) .master eightSectors 1 2 (List.replicate 1024 7) rfl
    (by decide) (by decide) List.length_replicate

/-! ## Transfers that do not fit -/

theorem sectorLoop_time (write : Bool) {n : Nat} : ∀ (lba : Nat) (buf out : List UInt8)
    (a : Channel), a.time ≤ (sectorLoop ready drive write n lba buf out a).2.2.time := by
  induction n with
  | zero => intro lba buf out a; exact Nat.le_refl _
  | succ n ih =>
    intro lba buf out a
    rw [sectorLoop]
    unfold Channel.wait
    cases ready a.time with
    | false => exact Nat.le_succ _
    | true =>
      dsimp only
      split
      · exact Nat.le_succ _
      · split
        · exact Nat.le_trans (Nat.le_succ _) (ih (lba + 1) _ out
            ({ a with time := a.time + 1 }.setSector drive lba (Sector.ofBytes buf)))
        · exact Nat.le_trans (Nat.le_succ _) (ih (lba + 1) buf _ { a with time := a.time + 1 })

/-- A command polls the drive at least once. -/
theorem transferChunk_time (a : Channel) (lba count : Nat) (buf : List UInt8) (write : Bool) :
    a.time < (transferChunk ready a drive lba count buf write).2.2.time := by
  unfold transferChunk Channel.wait
  cases ready a.time with
  | false => exact Nat.lt_succ_self _
  | true =>
    dsimp only
    have hloop := sectorLoop_time ready drive write
      (n := if count % 256 = 0 then 256 else count % 256) (lba % 268435456) buf []
      { a with time := a.time + 1 }
    generalize sectorLoop ready drive write (if count % 256 = 0 then 256 else count % 256)
      (lba % 268435456) buf [] { a with time := a.time + 1 } = r at hloop
    obtain ⟨ok, out, a'⟩ := r
    dsimp only at hloop
    cases ok with
    | false => exact hloop
    | true =>
      dsimp only
      split
      · cases ready a'.time with
        | false => exact Nat.lt_succ_of_lt hloop
        | true =>
          dsimp only
          cases ready (a'.time + 1) with
          | false => exact Nat.lt_succ_of_lt (Nat.lt_succ_of_lt hloop)
          | true => exact Nat.lt_succ_of_lt (Nat.lt_succ_of_lt hloop)
      · exact hloop

theorem transferLoop_time (write : Bool) {fuel : Nat} : ∀ (lba count : Nat)
    (buf out : List UInt8) (a : Channel),
    a.time ≤ (transferLoop ready drive write fuel lba count buf out a).2.2.time ∧
      (count ≠ 0 → 0 < fuel →
        a.time < (transferLoop ready drive write fuel lba count buf out a).2.2.time) := by
  induction fuel with
  | zero =>
    intro lba count buf out a
    rw [transferLoop]
    split
    · exact ⟨Nat.le_refl _, fun _ h => absurd h (Nat.lt_irrefl 0)⟩
    · exact ⟨Nat.le_refl _, fun _ h => absurd h (Nat.lt_irrefl 0)⟩
  | succ fuel ih =>
    intro lba count buf out a
    rw [transferLoop]
    by_cases h0 : count = 0
    · rw [if_pos h0]
      exact ⟨Nat.le_refl _, fun h => absurd h0 h⟩
    · rw [if_neg h0]
      dsimp only
      have hchunk := transferChunk_time ready drive a lba (if 255 < count then 255 else count) buf
        write
      generalize transferChunk ready a drive lba (if 255 < count then 255 else count) buf write = r
        at hchunk
      obtain ⟨ok, got, a'⟩ := r
      cases ok with
      | false => exact ⟨Nat.le_of_lt hchunk, fun _ _ => hchunk⟩
      | true =>
        have hrest := (ih (wrap32 (lba + if 255 < count then 255 else count))
          (count - if 255 < count then 255 else count)
          (buf.drop ((if 255 < count then 255 else count) * ataSectorSize)) (out ++ got) a').1
        have hlt := Nat.lt_of_lt_of_le hchunk hrest
        exact ⟨Nat.le_of_lt hlt, fun _ _ => hlt⟩

/-- The transfer does not end behind the drive. The sum is exact. -/
def Fits (p : Ports) (lba count : UInt32) : Prop :=
  lba.toNat + count.toNat ≤ (p.chan.drives drive).sectors

instance (p : Ports) (lba count : UInt32) : Decidable (Fits drive p lba count) :=
  inferInstanceAs (Decidable (_ ≤ _))

/--
A transfer that does not fit returns -1, moves nothing into the buffer and leaves the
channel alone, down to the polls; and only one that fits issues a command.
-/
def RefusesOutside (write : Bool) (p : Ports) (lba count : UInt32) : Prop :=
  ∀ buf, ((p.transfer ready drive lba count buf write).2.2.log ≠ p.log → Fits drive p lba count) ∧
    (¬Fits drive p lba count → p.transfer ready drive lba count buf write = (-1, [], p))

theorem refuses_iff (write : Bool) {p : Ports} (hp : ataPresent p.chan drive = true)
    (hs : (p.chan.drives drive).sectors < 2 ^ 32) (lba count : UInt32) :
    RefusesOutside ready drive write p lba count ↔
      (lba.toNat + count.toNat < 2 ^ 32 ∨
        (p.chan.drives drive).sectors < (lba + count).toNat) ∧
      (count = 0 → Fits drive p lba count) := by
  have hpresent : ¬ataPresent p.chan drive = false := by rw [hp]; exact Bool.false_ne_true.symm
  by_cases hz : count = 0
  · -- an empty transfer returns 0 at once
    have hempty : ∀ buf, p.transfer ready drive lba count buf write = (0, [], p) := by
      intro buf
      rw [Ports.transfer, if_neg hpresent, if_pos hz]
    have hlt : lba.toNat + count.toNat < 2 ^ 32 := by
      rw [hz]
      exact lba.toNat_lt
    constructor
    · intro h
      refine ⟨Or.inl hlt, fun _ => ?_⟩
      by_contra hfit
      have := (h []).2 hfit
      rw [hempty] at this
      exact absurd (Prod.mk.inj this).1 (by decide)
    · rintro ⟨-, hfit⟩ buf
      rw [hempty]
      exact ⟨fun h => absurd rfl h, fun h => absurd (hfit hz) h⟩
  have hempty : (count = 0 → Fits drive p lba count) := fun h => absurd h hz
  rw [and_iff_left hempty]
  by_cases hend : (p.chan.drives drive).sectors < (lba + count).toNat
  · -- the check refuses
    have hrefused : ∀ buf, p.transfer ready drive lba count buf write = (-1, [], p) := by
      intro buf
      rw [Ports.transfer, if_neg hpresent, if_neg hz, if_pos hend]
    refine iff_of_true (fun buf => ?_) (Or.inr hend)
    rw [hrefused]
    exact ⟨fun h => absurd rfl h, fun _ => rfl⟩
  · -- the check lets it pass
    rw [or_iff_left hend]
    have hsum : (lba + count).toNat = (lba.toNat + count.toNat) % 2 ^ 32 := UInt32.toNat_add lba count
    constructor
    · intro h
      by_contra hge
      have hfit : ¬Fits drive p lba count := by
        intro hf
        rw [Fits] at hf
        omega
      have hres := (h []).2 hfit
      obtain ⟨ok, out, a, regs, job, cmds, hchan, hports, -, -⟩ :=
        p.transfer_eq ready drive write lba count []
      rw [hports] at hres
      have htime : a.time = p.chan.time :=
        congrArg (fun r : Int × List UInt8 × Ports => r.2.2.chan.time) hres
      have h0 : count.toNat ≠ 0 := fun h => hz (UInt32.toNat_inj.mp h)
      have hmore : p.chan.time < (Ata.transferLoop ready drive write count.toNat lba.toNat
          count.toNat [] [] p.chan).2.2.time :=
        (transferLoop_time ready drive write lba.toNat count.toNat [] [] p.chan).2 h0
          (Nat.pos_of_ne_zero h0)
      have hwrap : wrap32 (lba.toNat + count.toNat) = (lba + count).toNat :=
        (UInt32.toNat_add lba count).symm
      rw [Ata.transfer, if_neg hpresent, if_neg h0, hwrap, if_neg hend] at hchan
      rw [hchan] at hmore
      dsimp only at hmore
      omega
    · intro hlt buf
      have hfit : Fits drive p lba count := by
        rw [Fits]
        omega
      exact ⟨fun _ => hfit, fun h => absurd hfit h⟩

/--
**When transfers outside the drive are refused.** For a present drive, reads and writes of
`count` sectors from `lba` on are refused if they do not fit, before anything is touched,
if and only if the sum of the two numbers does not wrap or is too large even so, and the
transfer is not an empty one behind the end, which returns 0.
-/
theorem refuses_outside_iff (p : Ports) (lba count : UInt32)
    (hp : ataPresent p.chan drive = true) (hs : (p.chan.drives drive).sectors < 2 ^ 32) :
    (RefusesOutside ready drive false p lba count ∧ RefusesOutside ready drive true p lba count) ↔
      (lba.toNat + count.toNat < 2 ^ 32 ∨
        (p.chan.drives drive).sectors < (lba + count).toNat) ∧
      (count = 0 → lba.toNat ≤ (p.chan.drives drive).sectors) := by
  have hfit : (count = 0 → Fits drive p lba count) ↔
      (count = 0 → lba.toNat ≤ (p.chan.drives drive).sectors) := by
    refine imp_congr_right fun hz => ?_
    rw [Fits, hz]
    rfl
  rw [refuses_iff ready drive false hp hs, refuses_iff ready drive true hp hs, and_self, hfit]

/-- On the drive of eight sectors: two sectors from the seventh on do not fit. -/
theorem refuses_outside_seven :
    RefusesOutside (fun _ => true) .master false eightSectors 7 2 ∧
      RefusesOutside (fun _ => true) .master true eightSectors 7 2 ∧
      ¬Fits .master eightSectors 7 2 := by
  have hiff := refuses_outside_iff (fun _ => true) .master eightSectors 7 2 rfl (by decide)
  obtain ⟨hread, hwrite⟩ := hiff.mpr ⟨Or.inl (by decide), fun h => absurd h (by decide)⟩
  exact ⟨hread, hwrite, by decide⟩

/-- Two sectors from the last 32-bit number on are asked of the drive. -/
theorem wrapped_transfer : ¬∀ (ready : Nat → Bool) (drive : Drive) (p : Ports) (lba count : UInt32),
    ataPresent p.chan drive = true → (p.chan.drives drive).sectors < 2 ^ 32 →
    RefusesOutside ready drive false p lba count ∧ RefusesOutside ready drive true p lba count := by
  intro hall
  have hrefuse := (hall (fun _ => true) .master eightSectors 0xFFFFFFFF 2 rfl (by decide)).1 []
  have hissued : (eightSectors.transfer (fun _ => true) .master 0xFFFFFFFF 2 [] false).2.2.log ≠
      eightSectors.log := by decide
  exact absurd (hrefuse.1 hissued) (by decide)

end LightningOS.Ata
