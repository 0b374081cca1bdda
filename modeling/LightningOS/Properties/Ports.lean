import LightningOS.Drivers.AtaPorts
import LightningOS.Properties.Transfer

/-!
# The driver at its ports does what the channel does

Each function of `Drivers/AtaPorts` gives the result of its counterpart on the channel
and leaves the same disks, whatever its registers held. On the way the registers of a
command come back as the low 28 bits of the sector number and the count, and the words
of a sector as its bytes. The commands that were issued are a first part of the ones that
`transfer` plans, and all of them when it succeeds.
-/

namespace LightningOS.Ata

open ByteMemory

/-! ## Words and bytes -/

theorem wordBytes_firstWord (buf : List UInt8) :
    wordBytes (firstWord buf) = [buf.getD 0 0, buf.getD 1 0] := by
  have h0 := (buf.getD 0 0).toNat_lt
  have h1 := (buf.getD 1 0).toNat_lt
  have hword : (firstWord buf).toNat = (buf.getD 0 0).toNat + 256 * (buf.getD 1 0).toNat := by
    rw [firstWord, UInt16.toNat_ofNat']
    omega
  rw [wordBytes, hword]
  congr 1
  · apply UInt8.toNat.inj
    rw [UInt8.toNat_ofNat']
    omega
  · congr 1
    apply UInt8.toNat.inj
    rw [UInt8.toNat_ofNat']
    omega

/-- The words of a buffer are its bytes, with zeros where it is too short. -/
theorem flatMap_wordsOf (n : Nat) : ∀ buf : List UInt8, (wordsOf n buf).flatMap wordBytes =
    buf.take (2 * n) ++ List.replicate (2 * n - buf.length) 0 := by
  induction n with
  | zero => intro buf; simp [wordsOf]
  | succ n ih =>
    intro buf
    have htwo : 2 * (n + 1) = 2 * n + 1 + 1 := by omega
    rw [wordsOf, List.flatMap_cons, ih, wordBytes_firstWord, htwo]
    match buf with
    | [] => simp [List.replicate_succ]
    | [x] => simp [List.replicate_succ]
    | x :: y :: rest => simp

theorem ofBytes_val (bytes : List UInt8) : (Sector.ofBytes bytes).val =
    bytes.take ataSectorSize ++ List.replicate (ataSectorSize - bytes.length) 0 := by
  show (bytes ++ List.replicate ataSectorSize 0).take ataSectorSize = _
  rw [List.take_append, List.take_replicate, Nat.min_eq_left (Nat.sub_le _ _)]

/-- A drive that is sent the words of a buffer gets the first sector of it. -/
theorem ofBytes_wordsOf (buf : List UInt8) :
    Sector.ofBytes ((wordsOf sectorWords buf).flatMap wordBytes) = Sector.ofBytes buf := by
  have hval : (wordsOf sectorWords buf).flatMap wordBytes = (Sector.ofBytes buf).val := by
    rw [flatMap_wordsOf, ofBytes_val]
    rfl
  rw [hval]
  exact Subtype.ext (ofBytes_of_length (Sector.ofBytes buf).property)

/-- The words that a drive hands out are the bytes of the sector. -/
theorem wordsOf_sector (sector : Sector) :
    (wordsOf sectorWords sector.val).flatMap wordBytes = sector.val := by
  have hlen := sector.property
  have htwo : 2 * sectorWords = ataSectorSize := rfl
  rw [flatMap_wordsOf, htwo, hlen, Nat.sub_self, List.replicate_zero, List.append_nil,
    List.take_of_length_le (Nat.le_of_eq hlen)]

/-! ## The registers of a command -/

theorem drive_low {x : UInt8} (hx : x.toNat < 16) (drive : Drive) :
    ((if drive = .slave then (0xF0 : UInt8) else 0xE0) ||| x) &&& 0x0F = x ∧
      (((if drive = .slave then (0xF0 : UInt8) else 0xE0) ||| x) &&& 0x10 = 0 ↔
        drive = .master) := by
  obtain ⟨k, rfl⟩ : ∃ k : Fin 16, x = UInt8.ofNat k :=
    ⟨⟨x.toNat, hx⟩, by simp⟩
  revert k
  cases drive <;> decide

theorem byte_of_lba (lba : UInt32) : ((lba &&& 0xFF).toUInt8.toNat = lba.toNat % 256) ∧
    ((lba >>> 8) &&& 0xFF).toUInt8.toNat = lba.toNat / 256 % 256 ∧
    ((lba >>> 16) &&& 0xFF).toUInt8.toNat = lba.toNat / 65536 % 256 ∧
    ((lba >>> 24) &&& 0x0F).toUInt8.toNat = lba.toNat / 16777216 % 16 := by
  have hff : (0xFF : UInt32).toNat = 2 ^ 8 - 1 := rfl
  have hf : (0x0F : UInt32).toNat = 2 ^ 4 - 1 := rfl
  simp only [UInt32.toNat_toUInt8, UInt32.toNat_and, UInt32.toNat_shiftRight, hff, hf,
    Nat.and_two_pow_sub_one_eq_mod, Nat.shiftRight_eq_div_pow]
  refine ⟨?_, ?_, ?_, ?_⟩
  · exact Nat.mod_mod _ _
  · exact Nat.mod_mod _ _
  · exact Nat.mod_mod _ _
  · exact Nat.mod_eq_of_lt (Nat.lt_trans (Nat.mod_lt _ (by decide)) (by decide))

/-- The command that the drive sees. -/
def commandOf (drive : Drive) (write : Bool) (lba : UInt32) (count : UInt8) : Command where
  drive := drive
  write := write
  lba := lba.toNat % 268435456
  count := if count = 0 then 256 else count.toNat

theorem outCommand_move (p : Ports) (write : Bool) :
    p.outCommand (if write then ataCmdWritePio else ataCmdReadPio) =
      { p with job := some (p.regs.command write), log := p.log ++ [p.regs.command write] } := by
  cases write with
  | false => exact if_pos (Or.inl rfl)
  | true => exact if_pos (Or.inr rfl)

/-- **The four registers carry the low 28 bits of the sector number**, and one the count. -/
theorem issue_eq (p : Ports) (drive : Drive) (lba : UInt32) (count : UInt8) (write : Bool) :
    ∃ regs, p.issue drive lba count write =
      { chan := p.chan, regs := regs, job := some (commandOf drive write lba count),
        log := p.log ++ [commandOf drive write lba count] } := by
  obtain ⟨h0, h8, h16, h24⟩ := byte_of_lba lba
  have hlow := drive_low (x := ((lba >>> 24) &&& 0x0F).toUInt8) (by omega) drive
  let regs : TaskFile := {
    features := 0
    secCount := count
    lbaLow := (lba &&& 0xFF).toUInt8
    lbaMid := ((lba >>> 8) &&& 0xFF).toUInt8
    lbaHigh := ((lba >>> 16) &&& 0xFF).toUInt8
    drive := (if drive = .slave then (0xF0 : UInt8) else 0xE0) |||
      ((lba >>> 24) &&& 0x0F).toUInt8 }
  have hcmd : regs.command write = commandOf drive write lba count := by
    simp only [regs, TaskFile.command, commandOf, hlow.1, h0, h8, h16, h24, Command.mk.injEq,
      true_and, and_true]
    constructor
    · cases drive with
      | master => exact if_pos (hlow.2.mpr rfl)
      | slave => exact if_neg fun h => Drive.noConfusion (hlow.2.mp h)
    · omega
  have hout : p.issue drive lba count write =
      Ports.outCommand { p with regs := regs }
        (if write then ataCmdWritePio else ataCmdReadPio) := rfl
  refine ⟨regs, ?_⟩
  rw [hout, outCommand_move]
  dsimp only
  rw [hcmd]

variable (ready : Nat → Bool) (drive : Drive) (write : Bool)

/-! ## The sectors of one command -/

theorem Ports.waitDrq_eq {p : Ports} {c : Command} (hjob : p.job = some c)
    (hleft : 0 < c.count) : p.waitDrq ready =
      (ready p.chan.time && decide (c.lba < (p.chan.size c.drive).toNat),
        { p with chan := { p.chan with time := p.chan.time + 1 } }) := by
  unfold Ports.waitDrq Channel.wait Ports.hasData
  rw [hjob]
  simp only [hleft, decide_true, Bool.true_and]

/--
As long as the command has sectors left, the drive moves the ones that the loop on the
channel moves.
-/
theorem Ports.sectorLoop_eq {n : Nat} : ∀ (lba left : Nat) (buf out : List UInt8) (p : Ports),
    p.job = some { drive := drive, write := write, lba := lba, count := left } → n ≤ left →
    ∃ ok out' a job, Ata.sectorLoop ready drive write n lba buf out p.chan = (ok, out', a) ∧
      Ports.sectorLoop ready write n buf out p = (ok, out', { p with chan := a, job := job }) := by
  induction n with
  | zero =>
    intro lba left buf out p hjob _
    exact ⟨true, out, p.chan, p.job, rfl, rfl⟩
  | succ n ih =>
    intro lba left buf out p hjob hle
    have hleft : 0 < left := by omega
    rw [Ata.sectorLoop, Ports.sectorLoop, Ports.waitDrq_eq ready hjob hleft]
    unfold Channel.wait
    dsimp only
    cases hr : ready p.chan.time with
    | false => exact ⟨false, out, { p.chan with time := p.chan.time + 1 }, p.job, rfl, rfl⟩
    | true =>
      by_cases hlt : (p.chan.size drive).toNat ≤ lba
      · refine ⟨false, out, { p.chan with time := p.chan.time + 1 }, p.job, ?_, ?_⟩
        · simp only [if_pos hlt]
        · simp only [decide_eq_false (Nat.not_lt.mpr hlt), Bool.true_and]
      · simp only [if_neg hlt, decide_eq_true (Nat.not_le.mp hlt), Bool.true_and]
        cases write with
        | true =>
          let p' : Ports := { p with
            chan := { p.chan with time := p.chan.time + 1 }.setSector drive lba
              (Sector.ofBytes buf)
            job := some { drive := drive, write := true, lba := lba + 1, count := left - 1 } }
          obtain ⟨ok, out', a, job, h1, h2⟩ := ih (lba + 1) (left - 1) (buf.drop ataSectorSize) out
            p' rfl (by omega)
          refine ⟨ok, out', a, job, by simpa using h1, ?_⟩
          have hout : Ports.outSector { p with chan := { p.chan with time := p.chan.time + 1 } }
              (wordsOf sectorWords buf) = p' := by
            rw [Ports.outSector]
            dsimp only
            rw [hjob]
            dsimp only
            rw [if_pos rfl, ofBytes_wordsOf]
            rfl
          rw [if_pos rfl, hout]
          exact h2
        | false =>
          let p' : Ports := { p with
            chan := { p.chan with time := p.chan.time + 1 }
            job := some { drive := drive, write := false, lba := lba + 1, count := left - 1 } }
          obtain ⟨ok, out', a, job, h1, h2⟩ := ih (lba + 1) (left - 1) buf
            (out ++ (p.chan.media drive lba).val) p' rfl (by omega)
          refine ⟨ok, out', a, job, by simpa using h1, ?_⟩
          have hin : Ports.inSector { p with chan := { p.chan with time := p.chan.time + 1 } } =
              (wordsOf sectorWords (p.chan.media drive lba).val, p') := by
            rw [Ports.inSector]
            dsimp only
            rw [hjob]
            dsimp only
            rw [if_neg Bool.false_ne_true]
            rfl
          rw [if_neg Bool.false_ne_true, hin]
          dsimp only
          rw [wordsOf_sector]
          exact h2

/-! ## One command -/

/-- The count of a command in sectors, as the two drivers compute it. -/
theorem sectors_eq (count : UInt8) :
    (if count.toNat % 256 = 0 then 256 else count.toNat % 256) =
      if count = 0 then 256 else count.toNat := by
  have hzero : count.toNat = 0 ↔ count = 0 := UInt8.toNat_inj (b := 0)
  rw [Nat.mod_eq_of_lt count.toNat_lt]
  exact if_congr hzero rfl rfl

/-- A command on the ports: what it does on the channel, and what it leaves on the log. -/
theorem Ports.transferChunk_eq (p : Ports) (lba : UInt32) (count : UInt8) (buf : List UInt8) :
    ∃ ok out a regs job cmds,
      Ata.transferChunk ready p.chan drive lba.toNat count.toNat buf write = (ok, out, a) ∧
      p.transferChunk ready drive lba count buf write =
        (ok, out, { chan := a, regs := regs, job := job, log := p.log ++ cmds }) ∧
      cmds <+: [commandOf drive write lba count] ∧
      (ok = true → cmds = [commandOf drive write lba count]) := by
  unfold Ata.transferChunk Ports.transferChunk Ports.waitNotBusy Channel.wait
  dsimp only
  cases hr : ready p.chan.time with
  | false =>
    refine ⟨false, [], { p.chan with time := p.chan.time + 1 }, p.regs, p.job, [], rfl, ?_,
      List.nil_prefix, fun h => absurd h Bool.false_ne_true⟩
    rw [List.append_nil]
  | true =>
    dsimp only
    rw [sectors_eq]
    obtain ⟨regs, hissue⟩ := issue_eq { p with chan := { p.chan with time := p.chan.time + 1 } }
      drive lba count write
    rw [hissue]
    obtain ⟨ok, out, a, job, h1, h2⟩ := Ports.sectorLoop_eq ready drive write
      (lba.toNat % 268435456) (if count = 0 then 256 else count.toNat) buf []
      { chan := { p.chan with time := p.chan.time + 1 }, regs := regs,
        job := some (commandOf drive write lba count),
        log := p.log ++ [commandOf drive write lba count] } rfl (Nat.le_refl _)
    dsimp only at h1 h2
    rw [h1, h2]
    cases ok with
    | false => exact ⟨false, out, a, regs, job, _, rfl, rfl, List.prefix_rfl, fun _ => rfl⟩
    | true =>
      cases write with
      | false => exact ⟨true, out, a, regs, job, _, rfl, rfl, List.prefix_rfl, fun _ => rfl⟩
      | true =>
        dsimp only
        rw [if_pos rfl, if_pos rfl]
        cases h1' : ready a.time with
        | false => exact ⟨false, out, _, regs, job, _, rfl, rfl, List.prefix_rfl, fun _ => rfl⟩
        | true =>
          have hflush : ∀ q : Ports, q.outCommand ataCmdCacheFlush = q := fun _ => rfl
          dsimp only
          rw [hflush]
          cases h2' : ready (a.time + 1) with
          | false =>
            exact ⟨false, out, _, regs, job, _, rfl, rfl, List.prefix_rfl, fun _ => rfl⟩
          | true =>
            exact ⟨true, out, _, regs, job, _, rfl, rfl, List.prefix_rfl, fun _ => rfl⟩

/-! ## Whole transfers -/

/-- The commands that `transfer` splits a transfer into. -/
def commands : Nat → UInt32 → UInt32 → List Command
  | 0, _, _ => []
  | fuel + 1, lba, count =>
    if count = 0 then []
    else
      let chunk : UInt32 := if count > 255 then 255 else count
      commandOf drive write lba chunk.toUInt8 :: commands fuel (lba + chunk) (count - chunk)

/-- The number of sectors of the next command. -/
theorem chunk_spec (count : UInt32) (h0 : count ≠ 0) :
    ∃ chunk : UInt32, (if count > 255 then 255 else count) = chunk ∧
      chunk.toNat = (if 255 < count.toNat then 255 else count.toNat) ∧
      0 < chunk.toNat ∧ chunk.toNat ≤ 255 ∧ chunk.toNat ≤ count.toNat ∧
      chunk.toUInt8.toNat = chunk.toNat ∧ (count - chunk).toNat = count.toNat - chunk.toNat := by
  have hpos : count.toNat ≠ 0 := fun h => h0 (UInt32.toNat_inj.mp h)
  have h255 : (count > 255) ↔ 255 < count.toNat := UInt32.lt_iff_toNat_lt
  have hchunk : (if count > 255 then 255 else count : UInt32).toNat =
      if 255 < count.toNat then 255 else count.toNat := by
    by_cases h : 255 < count.toNat
    · rw [if_pos (h255.mpr h), if_pos h]
      rfl
    · rw [if_neg fun hc => h (h255.mp hc), if_neg h]
  have hbound : (if 255 < count.toNat then 255 else count.toNat) ≤ 255 ∧
      (if 255 < count.toNat then 255 else count.toNat) ≤ count.toNat ∧
      0 < (if 255 < count.toNat then 255 else count.toNat) := by
    split <;> omega
  refine ⟨_, rfl, hchunk, ?_, ?_, ?_, ?_, ?_⟩
  · omega
  · omega
  · omega
  · rw [UInt32.toNat_toUInt8]
    omega
  · exact UInt32.toNat_sub_of_le _ _ (UInt32.le_iff_toNat_le.mpr (by omega))

/-- **A whole transfer on the ports** is the one on the channel. -/
theorem Ports.transferLoop_eq {fuel : Nat} : ∀ (lba count : UInt32) (buf out : List UInt8)
    (p : Ports), count.toNat ≤ fuel → ∃ ok out' a regs job cmds,
      Ata.transferLoop ready drive write fuel lba.toNat count.toNat buf out p.chan = (ok, out', a) ∧
      Ports.transferLoop ready drive write fuel lba count buf out p =
        (ok, out', { chan := a, regs := regs, job := job, log := p.log ++ cmds }) ∧
      cmds <+: commands drive write fuel lba count ∧
      (ok = true → cmds = commands drive write fuel lba count) := by
  induction fuel with
  | zero =>
    intro lba count buf out p hf
    have h0 : count.toNat = 0 := by omega
    have hz : count = 0 := UInt32.toNat_inj.mp h0
    refine ⟨true, out, p.chan, p.regs, p.job, [], ?_, ?_, List.nil_prefix, fun _ => rfl⟩
    · rw [Ata.transferLoop, if_pos h0]
    · rw [Ports.transferLoop, if_pos hz, List.append_nil]
  | succ fuel ih =>
    intro lba count buf out p hf
    rw [Ata.transferLoop, Ports.transferLoop, commands]
    by_cases hz : count = 0
    · have h0 : count.toNat = 0 := by rw [hz]; rfl
      rw [if_pos h0, if_pos hz, if_pos hz]
      refine ⟨true, out, p.chan, p.regs, p.job, [], rfl, ?_, List.nil_prefix, fun _ => rfl⟩
      rw [List.append_nil]
    · have h0 : count.toNat ≠ 0 := fun h => hz (UInt32.toNat_inj.mp h)
      obtain ⟨chunk, hchunk, hnat, hpos, h255, hle, h8, hsub⟩ := chunk_spec count hz
      rw [if_neg h0, if_neg hz, if_neg hz, hchunk, ← hnat]
      dsimp only
      obtain ⟨ok, got, a, regs, job, cmds, hone, hone', hpre, hall⟩ :=
        p.transferChunk_eq ready drive write lba chunk.toUInt8 buf
      rw [h8] at hone
      rw [hone, hone']
      cases ok with
      | false =>
        refine ⟨false, out ++ got, a, regs, job, cmds, rfl, rfl, ?_,
          fun h => absurd h Bool.false_ne_true⟩
        exact hpre.trans (List.prefix_append [_] _)
      | true =>
        have hadd : wrap32 (lba.toNat + chunk.toNat) = (lba + chunk).toNat :=
          (UInt32.toNat_add lba chunk).symm
        obtain ⟨ok, out', a', regs', job', cmds', hrest, hrest', hpre', hall'⟩ :=
          ih (lba + chunk) (count - chunk) (buf.drop (chunk.toNat * ataSectorSize)) (out ++ got)
            { chan := a, regs := regs, job := job, log := p.log ++ cmds } (by omega)
        dsimp only at hrest
        rw [hsub] at hrest
        dsimp only
        rw [hadd, hrest, hrest', hall rfl]
        refine ⟨ok, out', a', regs', job', commandOf drive write lba chunk.toUInt8 :: cmds', rfl,
          ?_, ?_, fun h => ?_⟩
        · rw [List.append_assoc]
          rfl
        · exact List.cons_prefix_cons.mpr ⟨rfl, hpre'⟩
        · rw [hall' h]

theorem Ports.transfer_eq (p : Ports) (lba count : UInt32) (buf : List UInt8) :
    ∃ ok out a regs job cmds,
      Ata.transfer ready p.chan drive lba.toNat count.toNat buf write = (ok, out, a) ∧
      p.transfer ready drive lba count buf write =
        (if ok then 0 else -1, out, { chan := a, regs := regs, job := job, log := p.log ++ cmds }) ∧
      cmds <+: commands drive write count.toNat lba count ∧
      (ok = true → cmds = commands drive write count.toNat lba count) := by
  have hsame : ∀ res : Int, (res, ([] : List UInt8), p) =
      (res, [], { chan := p.chan, regs := p.regs, job := p.job, log := p.log ++ [] }) := by
    intro res
    rw [List.append_nil]
  unfold Ata.transfer Ports.transfer
  by_cases hp : ataPresent p.chan drive = false
  · rw [if_pos hp, if_pos hp]
    exact ⟨false, [], p.chan, p.regs, p.job, [], rfl, hsame (-1), List.nil_prefix,
      fun h => absurd h Bool.false_ne_true⟩
  rw [if_neg hp, if_neg hp]
  by_cases hz : count = 0
  · subst hz
    have h0 : (0 : UInt32).toNat = 0 := rfl
    rw [h0, if_pos rfl, if_pos rfl]
    exact ⟨true, [], p.chan, p.regs, p.job, [], rfl, hsame 0, List.nil_prefix, fun _ => rfl⟩
  have h0 : count.toNat ≠ 0 := fun h => hz (UInt32.toNat_inj.mp h)
  have hadd : wrap32 (lba.toNat + count.toNat) = (lba + count).toNat :=
    (UInt32.toNat_add lba count).symm
  rw [if_neg h0, if_neg hz, hadd]
  by_cases hend : (p.chan.drives drive).sectors < (lba + count).toNat
  · rw [if_pos hend, if_pos hend]
    exact ⟨false, [], p.chan, p.regs, p.job, [], rfl, hsame (-1), List.nil_prefix,
      fun h => absurd h Bool.false_ne_true⟩
  rw [if_neg hend, if_neg hend]
  obtain ⟨ok, out, a, regs, job, cmds, hchan, hports, hpre, hall⟩ :=
    Ports.transferLoop_eq ready drive write lba count buf [] p (Nat.le_refl _)
  rw [hports]
  refine ⟨ok, out, a, regs, job, cmds, hchan, ?_, hpre, hall⟩
  cases ok <;> rfl

/-! ## The commands of a transfer -/

/-- The commands move the `n` sectors from `lba` on, each once and in order. -/
def Covers : Nat → Nat → List Command → Prop
  | _, n, [] => n = 0
  | lba, n, c :: cs => c.lba = lba ∧ c.count ≤ n ∧ Covers (lba + c.count) (n - c.count) cs

/-- A command of this transfer, of at most 255 sectors. -/
def Small (c : Command) : Prop := c.drive = drive ∧ c.write = write ∧ 1 ≤ c.count ∧ c.count ≤ 255

theorem commandOf_count {chunk : UInt32} (hpos : 0 < chunk.toNat)
    (h8 : chunk.toUInt8.toNat = chunk.toNat) (lba : UInt32) :
    (commandOf drive write lba chunk.toUInt8).count = chunk.toNat := by
  have hne : chunk.toUInt8 ≠ 0 := by
    intro h
    rw [h] at h8
    have : (0 : UInt8).toNat = 0 := rfl
    omega
  rw [commandOf, if_neg hne, h8]

theorem commands_small {fuel : Nat} : ∀ lba count : UInt32,
    ∀ c ∈ commands drive write fuel lba count, Small drive write c := by
  induction fuel with
  | zero => intro lba count c hc; simp [commands] at hc
  | succ fuel ih =>
    intro lba count c hc
    rw [commands] at hc
    by_cases hz : count = 0
    · rw [if_pos hz] at hc
      exact absurd hc List.not_mem_nil
    · obtain ⟨chunk, hchunk, -, hpos, h255, -, h8, -⟩ := chunk_spec count hz
      rw [if_neg hz, hchunk] at hc
      rcases List.mem_cons.mp hc with rfl | hc
      · refine ⟨rfl, rfl, ?_, ?_⟩
        · rw [commandOf_count drive write hpos h8]
          exact hpos
        · rw [commandOf_count drive write hpos h8]
          exact h255
      · exact ih _ _ c hc

/-- Up to the last sector that 28 bits can name, the commands cover the range. -/
theorem commands_cover {fuel : Nat} : ∀ lba count : UInt32, count.toNat ≤ fuel →
    lba.toNat + count.toNat ≤ 268435456 →
    Covers lba.toNat count.toNat (commands drive write fuel lba count) := by
  induction fuel with
  | zero =>
    intro lba count hf _
    rw [commands, Covers]
    omega
  | succ fuel ih =>
    intro lba count hf hle
    rw [commands]
    by_cases hz : count = 0
    · rw [if_pos hz, hz]
      rfl
    · obtain ⟨chunk, hchunk, -, hpos, -, hcount, h8, hsub⟩ := chunk_spec count hz
      have hlt : lba.toNat < 268435456 := by omega
      have hadd : (lba + chunk).toNat = lba.toNat + chunk.toNat := by
        rw [UInt32.toNat_add]
        exact Nat.mod_eq_of_lt (by omega)
      have hrest := ih (lba + chunk) (count - chunk) (by omega) (by omega)
      rw [hadd, hsub] at hrest
      rw [if_neg hz, hchunk, Covers, commandOf_count drive write hpos h8]
      exact ⟨Nat.mod_eq_of_lt hlt, hcount, hrest⟩

end LightningOS.Ata
