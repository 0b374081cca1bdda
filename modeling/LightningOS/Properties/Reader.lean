import LightningOS.Properties.Codec

/-!
# Where the reader is

A mount reads the payload from front to back. What it copies lies in the payload as long as
no length takes its position past `2 ^ 32`. Only the length of a node's data can do that; the
other lengths are one or two bytes long. Where the reader comes to depends on the payload
alone, and not on the tree that is restored.
-/

namespace LightningOS.Persist

open ByteMemory CString Ramfs Users

/-! ## Bounds -/

/-- What a step of the reader may do in a payload of `length` bytes. -/
def InBounds (length : Nat) : Event → Prop
  | .copy start len => start + len ≤ length
  | .move start stop => start ≤ stop ∧ stop ≤ length

/-- The reader is in the payload, and has never left it. -/
structure Reader.Ok (r : Reader) : Prop where
  pos : r.pos ≤ r.length
  length : r.length ≤ maxPayload
  buffer : r.length ≤ r.buffer.length
  trace : ∀ e ∈ r.trace, InBounds r.length e

/-- What is still to be read. -/
def Reader.left (r : Reader) : List UInt8 := (r.buffer.take r.length).drop r.pos

/-- The reader `n` bytes further on, with the bytes in between copied. -/
def Reader.advance (r : Reader) (n : Nat) : Reader :=
  { r with pos := r.pos + n, trace := .move r.pos (r.pos + n) :: .copy r.pos n :: r.trace }

def Reader.fail (r : Reader) : Reader := { r with bad := true }

variable {r : Reader}

theorem Reader.Ok.left_length (h : r.Ok) : r.left.length = r.length - r.pos := by
  have := h.buffer
  simp only [Reader.left, List.length_drop, List.length_take]
  omega

theorem Reader.Ok.fail (h : r.Ok) : r.fail.Ok := ⟨h.pos, h.length, h.buffer, h.trace⟩

theorem Reader.Ok.advance (h : r.Ok) {n : Nat} (hn : n ≤ r.left.length) : (r.advance n).Ok := by
  have hpos := h.pos
  have hle : r.pos + n ≤ r.length := by
    have := h.left_length
    omega
  refine ⟨hle, h.length, h.buffer, fun e he => ?_⟩
  simp only [Reader.advance, List.mem_cons] at he
  rcases he with rfl | rfl | he
  · exact ⟨Nat.le_add_right _ _, hle⟩
  · exact hle
  · exact h.trace e he

theorem Reader.left_advance (n : Nat) : (r.advance n).left = r.left.drop n := by
  show (r.buffer.take r.length).drop (r.pos + n) = ((r.buffer.take r.length).drop r.pos).drop n
  rw [List.drop_drop]

/-- Without a wrap-around the reader takes bytes if there are enough of them. -/
theorem Reader.Ok.takeBytes (h : r.Ok) {n : Nat} (hn : r.pos + n < 4294967296) :
    takeBytes r n =
      if n ≤ r.left.length then (some (r.left.take n), r.advance n) else (none, r.fail) := by
  have hpos := h.pos
  have hleft := h.left_length
  have hbuffer := h.buffer
  unfold Persist.takeBytes
  rw [wrap32_of_lt hn]
  by_cases hle : n ≤ r.left.length
  · rw [if_neg (by omega), if_pos hle]
    -- the bytes are in front of the end of the payload
    have hbytes : (r.buffer.drop r.pos).take n = r.left.take n := by
      rw [Reader.left, List.drop_take, List.take_take, Nat.min_eq_left (by omega)]
    rw [hbytes]
    rfl
  · rw [if_pos (by omega), if_neg hle]
    rfl

/-! ## Steps -/

/-- The reader `r'` is `r` some steps later, still in the same payload. -/
structure Reads (r r' : Reader) : Prop where
  ok : r'.Ok
  buffer : r'.buffer = r.buffer
  length : r'.length = r.length
  pos : r.pos ≤ r'.pos

theorem Reads.refl (h : r.Ok) : Reads r r := ⟨h, rfl, rfl, Nat.le_refl _⟩

theorem Reads.trans {r₁ r₂ : Reader} (h : Reads r r₁) (h' : Reads r₁ r₂) : Reads r r₂ :=
  ⟨h'.ok, h'.buffer.trans h.buffer, h'.length.trans h.length, Nat.le_trans h.pos h'.pos⟩

theorem Reads.fail {r₁ : Reader} (h : Reads r r₁) : Reads r r₁.fail :=
  ⟨h.ok.fail, h.buffer, h.length, h.pos⟩

theorem Reader.Ok.no_wrap (h : r.Ok) {n : Nat} (hn : n ≤ 65535) : r.pos + n < 4294967296 := by
  have hpos := h.pos
  have hlen : r.length ≤ 1024 * 1024 := h.length
  omega

theorem takeBytes_reads (h : r.Ok) {n : Nat} (hn : n ≤ 65535) : Reads r (takeBytes r n).2 := by
  rw [h.takeBytes (h.no_wrap hn)]
  split
  next hle => exact ⟨h.advance hle, rfl, rfl, Nat.le_add_right _ _⟩
  next => exact (Reads.refl h).fail

theorem takeNumber_reads (h : r.Ok) {n : Nat} (hn : n ≤ 65535) : Reads r (takeNumber r n).2 := by
  have hread := takeBytes_reads h hn
  unfold takeNumber
  rcases htake : takeBytes r n with ⟨out, r₁⟩
  rw [htake] at hread
  cases out with
  | none => exact hread
  | some out => exact hread

theorem takeBytes_length {n : Nat} {out : List UInt8} {r₁ : Reader}
    (h : takeBytes r n = (some out, r₁)) : out.length ≤ n := by
  unfold takeBytes at h
  split at h
  · simp at h
  · simp only [Prod.mk.injEq, Option.some.injEq] at h
    rw [← h.1]
    exact List.length_take_le _ _

/-- A number of `n` bytes is below `256 ^ n`. -/
theorem takeNumber_lt (r : Reader) (n : Nat) : (takeNumber r n).1 < 256 ^ n := by
  unfold takeNumber
  rcases htake : takeBytes r n with ⟨out, r₁⟩
  cases out with
  | none => exact Nat.pow_pos (by decide)
  | some out =>
    have hlen := takeBytes_length htake
    show leValue out < 256 ^ n
    exact Nat.lt_of_lt_of_le (leValue_lt out) (Nat.pow_le_pow_right (by decide) hlen)

theorem takeString_reads (h : r.Ok) (outSize : Nat) : Reads r (takeString r outSize).2 := by
  have hlen := takeNumber_lt r 1
  have hread := takeNumber_reads h (by decide : 1 ≤ 65535)
  unfold takeString takeU8
  rcases hnum : takeNumber r 1 with ⟨length, r₁⟩
  rw [hnum] at hlen hread
  have hlen : length < 256 ^ 1 := hlen
  have hread : Reads r r₁ := hread
  simp only
  split
  · exact hread.fail
  · have hbytes := takeBytes_reads hread.ok (by omega : length ≤ 65535)
    rcases htake : takeBytes r₁ length with ⟨out, r₂⟩
    rw [htake] at hbytes
    cases out with
    | none => exact hread.trans hbytes
    | some out => exact hread.trans hbytes

/-- Reading a number and going on. -/
theorem Reads.number {r₁ r₂ : Reader} (h : Reads r r₁) {n v : Nat} (hn : n ≤ 65535)
    (hr : takeNumber r₁ n = (v, r₂)) : Reads r r₂ := by
  have hread := takeNumber_reads h.ok hn
  rw [hr] at hread
  exact h.trans hread

theorem Reads.string {r₁ r₂ : Reader} (h : Reads r r₁) {outSize : Nat}
    {out : Option (List UInt8)} (hr : takeString r₁ outSize = (out, r₂)) : Reads r r₂ := by
  have hread := takeString_reads h.ok outSize
  rw [hr] at hread
  exact h.trans hread

/-- What is read for an account: two strings and three numbers. -/
theorem takeUser_cases (r : Reader) : ∃ name r₁, takeString r userNameMax = (name, r₁) ∧
    ((name = none ∧ takeUser r = (none, r₁)) ∨
      ∃ n home r₂, name = some n ∧ takeString r₁ userHomeMax = (home, r₂) ∧
        ((home = none ∧ takeUser r = (none, r₂)) ∨
          ∃ m uid r₃ gid r₄ hash r₅, home = some m ∧ takeNumber r₂ 4 = (uid, r₃) ∧
            takeNumber r₃ 4 = (gid, r₄) ∧ takeNumber r₄ 4 = (hash, r₅) ∧
            takeUser r = (if r₅.bad then none else
              some { name := n, home := m, uid := UInt32.ofNat uid, gid := UInt32.ofNat gid,
                     pwHash := UInt32.ofNat hash }, r₅))) := by
  rcases hname : takeString r userNameMax with ⟨name, r₁⟩
  refine ⟨name, r₁, rfl, ?_⟩
  cases name with
  | none => exact Or.inl ⟨rfl, by simp only [takeUser, hname]⟩
  | some n =>
    rcases hhome : takeString r₁ userHomeMax with ⟨home, r₂⟩
    refine Or.inr ⟨n, home, r₂, rfl, rfl, ?_⟩
    cases home with
    | none => exact Or.inl ⟨rfl, by simp only [takeUser, hname, hhome]⟩
    | some m =>
      rcases huid : takeNumber r₂ 4 with ⟨uid, r₃⟩
      rcases hgid : takeNumber r₃ 4 with ⟨gid, r₄⟩
      rcases hhash : takeNumber r₄ 4 with ⟨hash, r₅⟩
      refine Or.inr ⟨m, uid, r₃, gid, r₄, hash, r₅, rfl, rfl, hgid, hhash, ?_⟩
      simp only [takeUser, hname, hhome, takeU32, huid, hgid, hhash]
      split <;> rfl

/-- What is read for a node: three numbers and the path. -/
theorem takeHead_cases (r : Reader) : ∃ kind r₁ pathLen r₂ dataLen r₃,
    takeNumber r 1 = (kind, r₁) ∧ takeNumber r₁ 2 = (pathLen, r₂) ∧
      takeNumber r₂ 4 = (dataLen, r₃) ∧
      ((r₃.bad = true ∨ pathLen = 0 ∨ fsPathMax ≤ pathLen) ∧ takeHead r = (none, r₃.fail) ∨
        r₃.bad = false ∧ 0 < pathLen ∧ pathLen < fsPathMax ∧ ∃ out r₄,
          takeBytes r₃ pathLen = (out, r₄) ∧
          takeHead r = (out.map fun path =>
            { kind := kind, path := text path, dataLen := dataLen }, r₄)) := by
  rcases hkind : takeNumber r 1 with ⟨kind, r₁⟩
  rcases hpath : takeNumber r₁ 2 with ⟨pathLen, r₂⟩
  rcases hdata : takeNumber r₂ 4 with ⟨dataLen, r₃⟩
  refine ⟨kind, r₁, pathLen, r₂, dataLen, r₃, rfl, hpath, hdata, ?_⟩
  by_cases hbad : r₃.bad = true ∨ pathLen = 0 ∨ fsPathMax ≤ pathLen
  · refine Or.inl ⟨hbad, ?_⟩
    unfold takeHead takeU8 takeU16 takeU32
    rw [hkind]
    dsimp only
    rw [hpath]
    dsimp only
    rw [hdata]
    dsimp only
    rw [if_pos hbad]
    rfl
  · have hgood : r₃.bad = false ∧ 0 < pathLen ∧ pathLen < fsPathMax := by
      simp only [not_or, Bool.not_eq_true, Nat.not_le] at hbad
      exact ⟨hbad.1, by omega, hbad.2.2⟩
    rcases htake : takeBytes r₃ pathLen with ⟨out, r₄⟩
    refine Or.inr ⟨hgood.1, hgood.2.1, hgood.2.2, out, r₄, rfl, ?_⟩
    unfold takeHead takeU8 takeU16 takeU32
    rw [hkind]
    dsimp only
    rw [hpath]
    dsimp only
    rw [hdata]
    dsimp only
    rw [if_neg hbad, htake]
    cases out with
    | none => rfl
    | some path => rfl

theorem takeUser_reads (h : r.Ok) : Reads r (takeUser r).2 := by
  obtain ⟨name, r₁, hname, hcases⟩ := takeUser_cases r
  have h₁ := (Reads.refl h).string hname
  rcases hcases with ⟨-, heq⟩ | ⟨n, home, r₂, -, hhome, hcases⟩
  · rw [heq]
    exact h₁
  · have h₂ := h₁.string hhome
    rcases hcases with ⟨-, heq⟩ | ⟨m, uid, r₃, gid, r₄, hash, r₅, -, huid, hgid, hhash, heq⟩
    · rw [heq]
      exact h₂
    · rw [heq]
      exact ((h₂.number (by decide) huid).number (by decide) hgid).number (by decide) hhash

theorem takeHead_reads (h : r.Ok) : Reads r (takeHead r).2 := by
  obtain ⟨kind, r₁, pathLen, r₂, dataLen, r₃, hkind, hpath, hdata, hcases⟩ := takeHead_cases r
  have h₃ := (((Reads.refl h).number (by decide) hkind).number (by decide) hpath).number
    (by decide) hdata
  rcases hcases with ⟨-, heq⟩ | ⟨-, -, hlen, out, r₄, htake, heq⟩
  · rw [heq]
    exact h₃.fail
  · have hbytes := takeBytes_reads h₃.ok (Nat.le_trans (Nat.le_of_lt hlen) (by decide))
    rw [htake] at hbytes
    rw [heq]
    exact h₃.trans hbytes

theorem takeBytes_none {n : Nat} {r₁ : Reader} (h : takeBytes r n = (none, r₁)) :
    r₁.bad = true := by
  unfold takeBytes at h
  split at h
  · simp only [Prod.mk.injEq, true_and] at h
    rw [← h]
  · simp at h

theorem takeString_none {outSize : Nat} {r₁ : Reader} (h : takeString r outSize = (none, r₁)) :
    r₁.bad = true := by
  unfold takeString at h
  simp only at h
  split at h
  · simp only [Prod.mk.injEq, true_and] at h
    rw [← h]
  · split at h
    next htake =>
      simp only [Prod.mk.injEq, true_and] at h
      rw [← h]
      exact takeBytes_none htake
    next => simp at h

/-- The loops stop at a record that is not there. -/
theorem takeUser_none {r' : Reader} (h : takeUser r = (none, r')) : r'.bad = true := by
  obtain ⟨name, r₁, hname, hcases⟩ := takeUser_cases r
  rcases hcases with ⟨rfl, heq⟩ | ⟨n, home, r₂, -, hhome, hcases⟩
  · rw [heq, Prod.mk.injEq] at h
    rw [← h.2]
    exact takeString_none hname
  · rcases hcases with ⟨rfl, heq⟩ | ⟨m, uid, r₃, gid, r₄, hash, r₅, -, -, -, -, heq⟩
    · rw [heq, Prod.mk.injEq] at h
      rw [← h.2]
      exact takeString_none hhome
    · rw [heq, Prod.mk.injEq] at h
      rw [← h.2]
      by_contra hgood
      rw [if_neg hgood] at h
      simp at h

theorem takeHead_none {r' : Reader} (h : takeHead r = (none, r')) : r'.bad = true := by
  obtain ⟨kind, r₁, pathLen, r₂, dataLen, r₃, -, -, -, hcases⟩ := takeHead_cases r
  rcases hcases with ⟨-, heq⟩ | ⟨-, -, -, out, r₄, htake, heq⟩
  · rw [heq, Prod.mk.injEq] at h
    rw [← h.2]
    rfl
  · rw [heq, Prod.mk.injEq, Option.map_eq_none_iff] at h
    obtain ⟨rfl, rfl⟩ := h
    exact takeBytes_none htake

/-- The length of the data is four bytes long. -/
theorem takeHead_dataLen {head : NodeHead} {r' : Reader} (h : takeHead r = (some head, r')) :
    head.dataLen < 4294967296 := by
  obtain ⟨kind, r₁, pathLen, r₂, dataLen, r₃, -, -, hdata, hcases⟩ := takeHead_cases r
  have hlt := takeNumber_lt r₂ 4
  rw [hdata] at hlt
  rcases hcases with ⟨-, heq⟩ | ⟨-, -, -, out, r₄, -, heq⟩
  · rw [heq] at h
    simp at h
  · rw [heq] at h
    simp only [Prod.mk.injEq, Option.map_eq_some_iff] at h
    obtain ⟨⟨path, -, rfl⟩, -⟩ := h
    exact hlt

/-! ## Nothing read is forgotten -/

theorem takeBytes_trace (r : Reader) (n : Nat) : r.trace <:+ (takeBytes r n).2.trace := by
  unfold takeBytes
  split
  · exact List.suffix_refl _
  · exact (List.suffix_cons _ _).trans (List.suffix_cons _ _)

theorem takeNumber_trace {n v : Nat} {r₁ : Reader} (h : takeNumber r n = (v, r₁)) :
    r.trace <:+ r₁.trace := by
  have htrace := takeBytes_trace r n
  unfold takeNumber at h
  rcases htake : takeBytes r n with ⟨out, r₂⟩
  rw [htake] at htrace h
  cases out with
  | none =>
    simp only [Prod.mk.injEq] at h
    rw [← h.2]
    exact htrace
  | some out =>
    simp only [Prod.mk.injEq] at h
    rw [← h.2]
    exact htrace

theorem takeHead_trace (r : Reader) : r.trace <:+ (takeHead r).2.trace := by
  obtain ⟨kind, r₁, pathLen, r₂, dataLen, r₃, hkind, hpath, hdata, hcases⟩ := takeHead_cases r
  have htrace := ((takeNumber_trace hkind).trans (takeNumber_trace hpath)).trans
    (takeNumber_trace hdata)
  rcases hcases with ⟨-, heq⟩ | ⟨-, -, -, out, r₄, htake, heq⟩
  · rw [heq]
    exact htrace
  · have hbytes := takeBytes_trace r₃ pathLen
    rw [htake] at hbytes
    rw [heq]
    exact htrace.trans hbytes

/-! ## Readers at the same place -/

/-- The readers are at the same place of the same payload, wherever they have been before. -/
structure Same (r r' : Reader) : Prop where
  buffer : r'.buffer = r.buffer
  length : r'.length = r.length
  pos : r'.pos = r.pos
  bad : r'.bad = r.bad

theorem Same.refl (r : Reader) : Same r r := ⟨rfl, rfl, rfl, rfl⟩

theorem Same.fail {r r' : Reader} (h : Same r r') : Same r.fail r'.fail :=
  ⟨h.buffer, h.length, h.pos, rfl⟩

theorem takeBytes_same {r' r₁ : Reader} (h : Same r r') {n : Nat} {out : Option (List UInt8)}
    (hr : takeBytes r n = (out, r₁)) : ∃ r₁', takeBytes r' n = (out, r₁') ∧ Same r₁ r₁' := by
  unfold takeBytes at hr ⊢
  rw [h.length, h.pos, h.buffer]
  split at hr
  next hlt =>
    simp only [Prod.mk.injEq] at hr
    rw [if_pos hlt, ← hr.1, ← hr.2]
    exact ⟨_, rfl, rfl, rfl, rfl, rfl⟩
  next hle =>
    simp only [Prod.mk.injEq] at hr
    rw [if_neg hle, ← hr.1, ← hr.2]
    exact ⟨_, rfl, rfl, rfl, rfl, h.bad⟩

theorem takeNumber_same {r' r₁ : Reader} (h : Same r r') {n v : Nat}
    (hr : takeNumber r n = (v, r₁)) : ∃ r₁', takeNumber r' n = (v, r₁') ∧ Same r₁ r₁' := by
  unfold takeNumber at hr ⊢
  rcases htake : takeBytes r n with ⟨out, r₂⟩
  obtain ⟨r₂', htake', hsame⟩ := takeBytes_same h htake
  rw [htake] at hr
  rw [htake']
  cases out with
  | none =>
    simp only [Prod.mk.injEq] at hr
    exact ⟨r₂', by rw [← hr.1], by rw [← hr.2]; exact hsame⟩
  | some out =>
    simp only [Prod.mk.injEq] at hr
    exact ⟨r₂', by rw [← hr.1], by rw [← hr.2]; exact hsame⟩

theorem takeHead_same {r' s : Reader} (h : Same r r') {head : Option NodeHead}
    (hr : takeHead r = (head, s)) : ∃ s', takeHead r' = (head, s') ∧ Same s s' := by
  obtain ⟨kind, r₁, pathLen, r₂, dataLen, r₃, hkind, hpath, hdata, hcases⟩ := takeHead_cases r
  obtain ⟨q₁, hkind', h₁⟩ := takeNumber_same h hkind
  obtain ⟨q₂, hpath', h₂⟩ := takeNumber_same h₁ hpath
  obtain ⟨q₃, hdata', h₃⟩ := takeNumber_same h₂ hdata
  obtain ⟨kind', r₁', pathLen', r₂', dataLen', r₃', hk, hp, hd, hcases'⟩ := takeHead_cases r'
  simp only [hkind', Prod.mk.injEq] at hk
  obtain ⟨rfl, rfl⟩ := hk
  simp only [hpath', Prod.mk.injEq] at hp
  obtain ⟨rfl, rfl⟩ := hp
  simp only [hdata', Prod.mk.injEq] at hd
  obtain ⟨rfl, rfl⟩ := hd
  rcases hcases with ⟨hbad, heq⟩ | ⟨hbad, hpos, hlen, out, r₄, htake, heq⟩
  · rcases hcases' with ⟨-, heq'⟩ | ⟨hbad', hpos', hlen', -⟩
    · rw [heq, Prod.mk.injEq] at hr
      rw [heq', ← hr.1, ← hr.2]
      exact ⟨_, rfl, h₃.fail⟩
    · rw [h₃.bad] at hbad'
      rcases hbad with hb | hb | hb
      · rw [hbad'] at hb
        simp at hb
      · omega
      · omega
  · rcases hcases' with ⟨hbad', -⟩ | ⟨-, -, -, out', r₄', htake', heq'⟩
    · rw [h₃.bad] at hbad'
      rcases hbad' with hb | hb | hb
      · rw [hbad] at hb
        simp at hb
      · omega
      · omega
    · obtain ⟨q₄, htake'', h₄⟩ := takeBytes_same h₃ htake
      simp only [htake', Prod.mk.injEq] at htake''
      obtain ⟨rfl, rfl⟩ := htake''
      rw [heq, Prod.mk.injEq] at hr
      rw [heq', ← hr.1, ← hr.2]
      exact ⟨_, rfl, h₄⟩

/-! ## Reading without a tree -/

/-- One turn of the loop over the accounts, without the account. -/
def skipUser (r : Reader) : Reader := if r.bad then r else (takeUser r).2

/-- One turn of the loop over the nodes, without the node. -/
def skipNode (r : Reader) : Reader :=
  if r.bad then r
  else
    match takeHead r with
    | (none, r) => r
    | (some head, r) =>
      if head.dataLen = 0 then r
      else if r.length < wrap32 (r.pos + head.dataLen) then r.fail
      else { r with pos := wrap32 (r.pos + head.dataLen) }

def skipUsers : Nat → Reader → Reader
  | 0, r => r
  | n + 1, r => skipUsers n (skipUser r)

def skipNodes : Nat → Reader → Reader
  | 0, r => r
  | n + 1, r => skipNodes n (skipNode r)

/-- The reader at the start of the payload. -/
def Reader.start (super : Super) (buffer : List UInt8) : Reader :=
  { buffer := buffer, length := super.payloadBytes, pos := 0, bad := false, trace := [] }

/-- The reader once all records were read, or something was wrong. -/
def scan (super : Super) (buffer : List UInt8) : Reader :=
  skipNodes super.nodeCount (skipUsers super.userCount (.start super buffer))

/-- The next node record does not take the position past `2 ^ 32`. -/
def lengthFits (r : Reader) : Bool :=
  r.bad ||
    match takeHead r with
    | (none, _) => true
    | (some head, r) => r.pos + head.dataLen < 4294967296

/-- No node record that the loop comes to does. -/
def lengthsFit : Nat → Reader → Bool
  | 0, _ => true
  | n + 1, r => lengthFits r && lengthsFit n (skipNode r)

theorem skipUser_bad (h : r.bad = true) : skipUser r = r := if_pos h

theorem skipNode_bad (h : r.bad = true) : skipNode r = r := if_pos h

theorem skipUsers_bad (h : r.bad = true) (n : Nat) : skipUsers n r = r := by
  induction n with
  | zero => rfl
  | succ n ih => rw [skipUsers, skipUser_bad h, ih]

theorem skipNodes_bad (h : r.bad = true) (n : Nat) : skipNodes n r = r := by
  induction n with
  | zero => rfl
  | succ n ih => rw [skipNodes, skipNode_bad h, ih]

theorem skipUsers_reads (h : r.Ok) (n : Nat) : Reads r (skipUsers n r) := by
  induction n generalizing r with
  | zero => exact .refl h
  | succ n ih =>
    have hread : Reads r (skipUser r) := by
      unfold skipUser
      split
      · exact .refl h
      · exact takeUser_reads h
    exact hread.trans (ih hread.ok)

theorem skipNode_same {r' : Reader} (h : Same r r') : Same (skipNode r) (skipNode r') := by
  unfold skipNode
  rw [h.bad]
  by_cases hbad : r.bad = true
  · rw [if_pos hbad, if_pos hbad]
    exact h
  · rw [if_neg hbad, if_neg hbad]
    rcases htake : takeHead r with ⟨head, s⟩
    obtain ⟨s', htake', hsame⟩ := takeHead_same h htake
    rw [htake']
    cases head with
    | none => exact hsame
    | some head =>
      simp only [hsame.length, hsame.pos]
      by_cases hdata : head.dataLen = 0
      · rw [if_pos hdata, if_pos hdata]
        exact hsame
      · rw [if_neg hdata, if_neg hdata]
        by_cases hend : s.length < wrap32 (s.pos + head.dataLen)
        · rw [if_pos hend, if_pos hend]
          exact hsame.fail
        · rw [if_neg hend, if_neg hend]
          exact ⟨hsame.buffer, rfl, rfl, hsame.bad⟩

theorem lengthFits_same {r' : Reader} (h : Same r r') : lengthFits r' = lengthFits r := by
  unfold lengthFits
  rcases htake : takeHead r with ⟨head, s⟩
  obtain ⟨s', htake', hsame⟩ := takeHead_same h htake
  rw [htake', h.bad]
  cases head with
  | none => rfl
  | some head =>
    dsimp only
    rw [hsame.pos]

theorem lengthsFit_same {r' : Reader} (h : Same r r') (n : Nat) :
    lengthsFit n r' = lengthsFit n r := by
  induction n generalizing r r' with
  | zero => rfl
  | succ n ih => rw [lengthsFit, lengthsFit, lengthFits_same h, ih (skipNode_same h)]

end LightningOS.Persist
