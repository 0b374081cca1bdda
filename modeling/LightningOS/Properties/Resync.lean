import LightningOS.Drivers.Mouse
import Mathlib.Data.List.Basic

/-!
# Back in step

After a byte is lost the decoder is out of step with the packets, and it gets back by the one
bit that every first byte has set. Other bytes may have it set as well. So the decoder is behind
by three bytes, and catches up with a packet whose second byte has the bit clear, then with one
whose third byte has it clear, then with one whose fourth byte has. A stream without such
packets is decoded wrong forever.
-/

namespace LightningOS.Mouse

/-! ## Packets -/

/-- A packet of a mouse with a wheel. -/
structure Packet where
  byte : Fin 4 → UInt8
  first : byte 0 &&& 0x08 ≠ 0

def Packet.bytes (p : Packet) : List UInt8 := [p.byte 0, p.byte 1, p.byte 2, p.byte 3]

/-- The 4 bits as a signed number. -/
def signed4 (byte : UInt8) : Int := if byte.toNat % 16 < 8 then byte.toNat % 16 else byte.toNat % 16 - 16

/-- The calls of `vga_scroll_view` that a packet is to make. -/
def Packet.scrolls (p : Packet) : List Int :=
  if signed4 (p.byte 3) = 0 then [] else [-3 * signed4 (p.byte 3)]

theorem wheelField_signed (byte : UInt8) : (wheelField byte).toInt8.toInt = signed4 byte ∧
    (wheelField byte = 0 ↔ signed4 byte = 0) := by
  have hall : ∀ n ∈ List.range 256,
      (wheelField (UInt8.ofNat n)).toInt8.toInt = signed4 (UInt8.ofNat n) ∧
        (wheelField (UInt8.ofNat n) = 0 ↔ signed4 (UInt8.ofNat n) = 0) := by decide +kernel
  have h := hall byte.toNat (List.mem_range.mpr byte.toNat_lt)
  rwa [UInt8.ofNat_toNat] at h

/-! ## One byte -/

def bitClear (byte : UInt8) : Prop := byte &&& 0x08 = 0

instance (byte : UInt8) : Decidable (bitClear byte) := inferInstanceAs (Decidable (_ = _))

/-- The place in the packet after one more byte. -/
def nextIndex (i : Nat) (byte : UInt8) : Nat :=
  if i = 0 ∧ bitClear byte then 0 else if i + 1 < 4 then i + 1 else 0

theorem mouseCallback_index {m : Driver} (hsize : m.packetSize = 4) (byte : UInt8) :
    (mouseCallback m 0x01 byte).2.packetSize = 4 ∧
      (mouseCallback m 0x01 byte).2.packetIndex = nextIndex m.packetIndex byte := by
  unfold mouseCallback nextIndex bitClear
  rw [if_neg (by decide)]
  by_cases hskip : m.packetIndex = 0 ∧ byte &&& 0x08 = 0
  · rw [if_pos hskip, if_pos hskip]
    exact ⟨hsize, hskip.1⟩
  · rw [if_neg hskip, if_neg hskip]
    simp only [hsize]
    by_cases hlt : m.packetIndex + 1 < 4
    · rw [if_pos hlt, if_pos hlt]
      exact ⟨rfl, rfl⟩
    · rw [if_neg hlt, if_neg hlt, if_neg (Nat.lt_irrefl 4)]
      split
      · exact ⟨rfl, rfl⟩
      · exact ⟨rfl, rfl⟩

theorem feed_index (bytes : List UInt8) : ∀ {m : Driver}, m.packetSize = 4 →
    (feed m bytes).2.packetSize = 4 ∧
      (feed m bytes).2.packetIndex = bytes.foldl nextIndex m.packetIndex := by
  induction bytes with
  | nil => exact fun hsize => ⟨hsize, rfl⟩
  | cons byte bytes ih =>
    intro m hsize
    obtain ⟨hsize', hindex⟩ := mouseCallback_index hsize byte
    obtain ⟨hrest, hindex'⟩ := ih hsize'
    refine ⟨hrest, ?_⟩
    show (feed (mouseCallback m 0x01 byte).2 bytes).2.packetIndex = _
    rw [hindex', hindex, List.foldl_cons]

def Driver.store (m : Driver) (byte : UInt8) : Driver :=
  { m with
    packet := Function.update m.packet (Fin.ofNat 4 m.packetIndex) byte
    packetIndex := m.packetIndex + 1 }

/-- A byte that does not end a packet is stored. -/
theorem feed_store {m : Driver} (hsize : m.packetSize = 4) {byte : UInt8}
    (hkeep : m.packetIndex ≠ 0 ∨ ¬bitClear byte) (hlt : m.packetIndex + 1 < 4) (bytes : List UInt8) :
    feed m (byte :: bytes) = feed (m.store byte) bytes := by
  have hskip : ¬(m.packetIndex = 0 ∧ byte &&& 0x08 = 0) := by
    rintro ⟨hzero, hclear⟩
    exact hkeep.elim (fun h => h hzero) (fun h => h hclear)
  have hcall : mouseCallback m 0x01 byte = (none, m.store byte) := by
    unfold mouseCallback Driver.store
    rw [if_neg (by decide), if_neg hskip]
    simp only [hsize]
    rw [if_pos hlt]
  rw [feed, hcall]
  rfl

/-- The last byte of a packet scrolls the console. -/
theorem mouseCallback_last {m : Driver} (hsize : m.packetSize = 4) (hlast : m.packetIndex = 3)
    (byte : UInt8) : (mouseCallback m 0x01 byte).1.toList =
      if signed4 byte = 0 then [] else [-3 * signed4 byte] := by
  obtain ⟨hsigned, hzero⟩ := wheelField_signed byte
  have hbyte : Function.update m.packet (Fin.ofNat 4 3) byte 3 = byte := Function.update_self _ _ _
  unfold mouseCallback
  rw [if_neg (by decide), if_neg (by rw [hlast]; simp)]
  simp only [hsize, hlast]
  rw [if_neg (by decide), if_neg (by decide), hbyte]
  by_cases hz : signed4 byte = 0
  · rw [if_pos hz, if_pos (hzero.mpr hz)]
    rfl
  · rw [if_neg hz, if_neg (fun h => hz (hzero.mp h)), hsigned]
    show [-signed4 byte * linesPerNotch] = _
    rw [linesPerNotch, Int.neg_mul, Int.mul_comm, Int.neg_mul]

/-- In step with the packets, each packet makes the call it is to make. -/
theorem feed_packet {m : Driver} (hsize : m.packetSize = 4) (hindex : m.packetIndex = 0)
    (p : Packet) : (feed m p.bytes).1 = p.scrolls := by
  have hindex₁ : (m.store (p.byte 0)).packetIndex = 1 := congrArg (· + 1) hindex
  have hindex₂ : ((m.store (p.byte 0)).store (p.byte 1)).packetIndex = 2 := congrArg (· + 1) hindex₁
  have hindex₃ : (((m.store (p.byte 0)).store (p.byte 1)).store (p.byte 2)).packetIndex = 3 :=
    congrArg (· + 1) hindex₂
  have hstore : ∀ {m : Driver} {byte : UInt8}, m.packetSize = 4 → (m.store byte).packetSize = 4 :=
    fun h => h
  rw [Packet.bytes, feed_store hsize (.inr p.first) (by rw [hindex]; decide),
    feed_store (hstore hsize) (.inl (by rw [hindex₁]; decide)) (by rw [hindex₁]; decide),
    feed_store (hstore (hstore hsize)) (.inl (by rw [hindex₂]; decide)) (by rw [hindex₂]; decide)]
  have hlast := mouseCallback_last (hstore (hstore (hstore hsize))) hindex₃ (p.byte 3)
  simp only [feed, List.append_nil]
  exact hlast

/-! ## Whole packets -/

/-- Bit 3 of this byte of the packet is clear. -/
def Packet.clear (p : Packet) (k : Fin 4) : Prop := bitClear (p.byte k)

instance (p : Packet) (k : Fin 4) : Decidable (p.clear k) := inferInstanceAs (Decidable (bitClear _))

/-- How far the decoder is behind after a packet, when it was `behind` bytes behind before. -/
def catchUp (p : Packet) : Nat → Nat
  | 0 => 0
  | behind + 1 => if p.clear (Fin.ofNat 4 (3 - behind)) then catchUp p behind else behind + 1

theorem packet_index (p : Packet) {behind : Nat} (h : behind < 4) :
    p.bytes.foldl nextIndex behind = catchUp p behind := by
  have h0 : ¬bitClear (p.byte 0) := p.first
  have hcases : behind = 0 ∨ behind = 1 ∨ behind = 2 ∨ behind = 3 := by omega
  -- `catchUp`, turn by turn
  have hone : catchUp p 1 = if bitClear (p.byte 3) then 0 else 1 := rfl
  have htwo : catchUp p 2 = if bitClear (p.byte 2) then catchUp p 1 else 2 := rfl
  have hthree : catchUp p 3 = if bitClear (p.byte 1) then catchUp p 2 else 3 := rfl
  have hzero : catchUp p 0 = 0 := rfl
  by_cases h1 : bitClear (p.byte 1) <;> by_cases h2 : bitClear (p.byte 2) <;>
    by_cases h3 : bitClear (p.byte 3) <;> rcases hcases with rfl | rfl | rfl | rfl <;>
    simp [Packet.bytes, nextIndex, hzero, hone, htwo, hthree, h0, h1, h2, h3]

theorem catchUp_lt (p : Packet) {behind : Nat} (h : behind < 4) : catchUp p behind < 4 := by
  induction behind with
  | zero => exact Nat.zero_lt_succ 3
  | succ behind ih =>
    rw [catchUp]
    split
    · exact ih (by omega)
    · exact h

/-! ## The stream -/

/-- What arrives of the packet `n` when byte `k` of the packet `lost` gets lost. -/
def received (packets : Nat → Packet) (lost : Nat) (k : Fin 4) (n : Nat) : List UInt8 :=
  if n = lost then (packets n).bytes.eraseIdx k else (packets n).bytes

section Stream

variable (packets : Nat → Packet) (lost : Nat) (k : Fin 4)

/-- The driver when the packet `n` begins. -/
def driverAt : Nat → Driver
  | 0 => wheelMouse
  | n + 1 => (feed (driverAt n) (received packets lost k n)).2

/-- `bound` packets after the loss at the latest the decoder is in step, and from then on every
packet makes the call it is to make. -/
def Resynchronised (bound : Nat) : Prop :=
  ∃ b ≤ bound, (driverAt packets lost k (lost + b + 1)).packetIndex = 0 ∧
    ∀ n, lost + b < n → (feed (driverAt packets lost k n) (received packets lost k n)).1 =
      (packets n).scrolls

/-- From the packet `n` up to the packet `last` the decoder can catch up. -/
def Chain (last : Nat) : Nat → Nat → Prop
  | 0, _ => True
  | behind + 1, n => ∃ q, n ≤ q ∧ q ≤ last ∧ (packets q).clear (Fin.ofNat 4 (3 - behind)) ∧
      Chain last behind q

variable {packets lost k}

theorem driverAt_size (n : Nat) : (driverAt packets lost k n).packetSize = 4 := by
  induction n with
  | zero => rfl
  | succ n ih => exact (feed_index _ ih).1

theorem driverAt_succ {n : Nat} (hn : n ≠ lost) (h : (driverAt packets lost k n).packetIndex < 4) :
    (driverAt packets lost k (n + 1)).packetIndex =
      catchUp (packets n) (driverAt packets lost k n).packetIndex := by
  rw [driverAt, (feed_index _ (driverAt_size n)).2, received, if_neg hn, packet_index _ h]

/-- Until a byte is lost the decoder is in step. -/
theorem driverAt_before {n : Nat} (h : n ≤ lost) : (driverAt packets lost k n).packetIndex = 0 := by
  induction n with
  | zero => rfl
  | succ n ih =>
    have hzero := ih (by omega)
    rw [driverAt_succ (by omega) (by rw [hzero]; decide), hzero]
    rfl

/-- The loss of a first byte costs as much as the loss of three bytes before it. -/
theorem driverAt_lost : (driverAt packets lost k (lost + 1)).packetIndex =
    if k = 0 then catchUp (packets lost) 3 else 3 := by
  have hzero : (driverAt packets lost k lost).packetIndex = 0 := driverAt_before (Nat.le_refl lost)
  have h0 : ¬bitClear ((packets lost).byte 0) := (packets lost).first
  rw [driverAt, (feed_index _ (driverAt_size lost)).2, received, if_pos rfl, hzero]
  have hcases : k = 0 ∨ k = 1 ∨ k = 2 ∨ k = 3 := by
    clear hzero
    revert k
    decide
  rcases hcases with rfl | rfl | rfl | rfl
  · -- the decoder stands as if it had taken the first byte for a fourth one
    have hfull := packet_index (packets lost) (show 3 < 4 by decide)
    rw [if_pos rfl, ← hfull]
    rfl
  · rw [if_neg (by decide)]
    show [(packets lost).byte 0, (packets lost).byte 2, (packets lost).byte 3].foldl nextIndex 0 = 3
    simp [nextIndex, h0]
  · rw [if_neg (by decide)]
    show [(packets lost).byte 0, (packets lost).byte 1, (packets lost).byte 3].foldl nextIndex 0 = 3
    simp [nextIndex, h0]
  · rw [if_neg (by decide)]
    show [(packets lost).byte 0, (packets lost).byte 1, (packets lost).byte 2].foldl nextIndex 0 = 3
    simp [nextIndex, h0]

theorem Chain.earlier {last behind : Nat} {m n : Nat} (hmn : m ≤ n) (h : Chain packets last behind n) :
    Chain packets last behind m := by
  cases behind with
  | zero => trivial
  | succ behind =>
    obtain ⟨q, hq, hrest⟩ := h
    exact ⟨q, Nat.le_trans hmn hq, hrest⟩

theorem Chain.longer {last last' behind : Nat} (hle : last ≤ last') : ∀ {n : Nat},
    Chain packets last behind n → Chain packets last' behind n := by
  induction behind with
  | zero => exact fun _ => trivial
  | succ behind ih =>
    rintro n ⟨q, hq, hlast, hclear, hrest⟩
    exact ⟨q, hq, Nat.le_trans hlast hle, hclear, ih hrest⟩

/-- One packet of the chain. -/
theorem chain_catchUp {last n : Nat} (hn : n ≤ last) (behind : Nat) :
    Chain packets last behind n ↔ Chain packets last (catchUp (packets n) behind) (n + 1) := by
  induction behind with
  | zero => exact Iff.rfl
  | succ behind ih =>
    by_cases hclear : (packets n).clear (Fin.ofNat 4 (3 - behind))
    · rw [catchUp, if_pos hclear, ← ih]
      constructor
      · rintro ⟨q, hq, -, -, hrest⟩
        exact hrest.earlier hq
      · exact fun h => ⟨n, Nat.le_refl n, hn, hclear, h⟩
    · rw [catchUp, if_neg hclear]
      constructor
      · rintro ⟨q, hq, hlast, hq', hrest⟩
        have hne : q ≠ n := by
          rintro rfl
          exact hclear hq'
        exact ⟨q, by omega, hlast, hq', hrest⟩
      · exact Chain.earlier (Nat.le_succ n)

/-- **The decoder is in step at the end of a chain, and not before.** -/
theorem driverAt_iff {n : Nat} (hn : lost < n) (count : Nat)
    (h : (driverAt packets lost k n).packetIndex < 4) :
    (driverAt packets lost k (n + count)).packetIndex = 0 ↔
      Chain packets (n + count - 1) (driverAt packets lost k n).packetIndex n := by
  induction count generalizing n with
  | zero =>
    rw [Nat.add_zero]
    cases hbehind : (driverAt packets lost k n).packetIndex with
    | zero => exact ⟨fun _ => trivial, fun _ => rfl⟩
    | succ behind =>
      refine ⟨fun hzero => absurd hzero (Nat.succ_ne_zero behind), ?_⟩
      rintro ⟨q, hq, hlast, -⟩
      omega
  | succ count ih =>
    have hstep := driverAt_succ (k := k) (Nat.ne_of_gt hn) h
    have hlt : (driverAt packets lost k (n + 1)).packetIndex < 4 := hstep ▸ catchUp_lt _ h
    have hlast : n + 1 + count - 1 = n + (count + 1) - 1 := by omega
    rw [chain_catchUp (by omega), ← hstep, ← hlast, ← ih (by omega) hlt,
      show n + 1 + count = n + (count + 1) by omega]

/-- Once in step, always in step. -/
theorem driverAt_stays {n : Nat} (hn : lost < n) (h : (driverAt packets lost k n).packetIndex = 0)
    (count : Nat) : (driverAt packets lost k (n + count)).packetIndex = 0 :=
  (driverAt_iff hn count (by rw [h]; decide)).mpr (by rw [h]; trivial)

/-- The packet from which on the decoder can catch up: the damaged one only without its first
byte. -/
def firstChance (lost : Nat) (k : Fin 4) : Nat := if k = 0 then lost else lost + 1

/-- **The decoder is in step again within `bound` packets exactly when there are three packets,
in this order, whose second, third and fourth byte have bit 3 clear.** -/
theorem resynchronised_iff (packets : Nat → Packet) (lost : Nat) (k : Fin 4) (bound : Nat) :
    Resynchronised packets lost k bound ↔ ∃ p q r, firstChance lost k ≤ p ∧ p ≤ q ∧ q ≤ r ∧
      r ≤ lost + bound ∧ (packets p).clear 1 ∧ (packets q).clear 2 ∧ (packets r).clear 3 := by
  have hlost : (driverAt packets lost k (lost + 1)).packetIndex < 4 := by
    rw [driverAt_lost]
    split
    · exact catchUp_lt _ (by decide)
    · decide
  have hin : ∀ b, (driverAt packets lost k (lost + b + 1)).packetIndex = 0 ↔
      Chain packets (lost + b) 3 (firstChance lost k) := by
    intro b
    have hiff := driverAt_iff (Nat.lt_succ_self lost) b hlost
    have hlast : lost + 1 + b - 1 = lost + b := by omega
    have hnext : lost + 1 + b = lost + b + 1 := by omega
    rw [hlast, driverAt_lost] at hiff
    rw [← hnext, hiff, firstChance]
    by_cases hk : k = 0
    · rw [if_pos hk, if_pos hk, ← chain_catchUp (Nat.le_add_right lost b)]
    · rw [if_neg hk, if_neg hk]
  have hchain : Resynchronised packets lost k bound ↔
      Chain packets (lost + bound) 3 (firstChance lost k) := by
    constructor
    · rintro ⟨b, hb, hzero, -⟩
      exact ((hin b).mp hzero).longer (Nat.add_le_add_left hb lost)
    · intro h
      have hzero := (hin bound).mpr h
      refine ⟨bound, Nat.le_refl bound, hzero, fun n hn => ?_⟩
      obtain ⟨count, rfl⟩ := Nat.exists_eq_add_of_lt hn
      have hstays : (driverAt packets lost k (lost + bound + count + 1)).packetIndex = 0 := by
        have := driverAt_stays (by omega) hzero count
        rwa [Nat.add_right_comm] at this
      rw [received, if_neg (by omega), feed_packet (driverAt_size _) hstays]
  rw [hchain]
  constructor
  · rintro ⟨p, hp, -, h1, q, hpq, -, h2, r, hqr, hr, h3, -⟩
    exact ⟨p, q, r, hp, hpq, hqr, hr, h1, h2, h3⟩
  · rintro ⟨p, q, r, hp, hpq, hqr, hr, h1, h2, h3⟩
    exact ⟨p, hp, by omega, h1, q, hpq, by omega, h2, r, hqr, hr, h3, trivial⟩

/-- The mouse moves by 8 in both directions, and the wheel is at rest. -/
def stuckPacket : Packet := ⟨fun k => if k = 3 then 0 else 0x08, by decide⟩

/-- No bound does for all streams. -/
theorem never_in_step : ¬∃ bound, ∀ (packets : Nat → Packet) (lost : Nat) (k : Fin 4),
    Resynchronised packets lost k bound := by
  rintro ⟨bound, h⟩
  obtain ⟨b, -, hzero, -⟩ := h (fun _ => stuckPacket) 0 1
  have hbehind : ∀ n, (driverAt (fun _ => stuckPacket) 0 1 (n + 1)).packetIndex = 3 := by
    intro n
    induction n with
    | zero => rw [driverAt_lost, if_neg (by decide)]
    | succ n ih =>
      rw [driverAt_succ (Nat.succ_ne_zero n) (by rw [ih]; decide), ih]
      decide
  rw [hbehind (0 + b)] at hzero
  exact absurd hzero (by decide)

end Stream

end LightningOS.Mouse
