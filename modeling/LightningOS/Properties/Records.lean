import LightningOS.Properties.Mount

/-!
# The records of a payload

A payload is a list of account records and then a list of node records. Each says how
long it is, so a reader that stands at the start of a record and takes it stands at the
start of the next one: `Took` is that step. From it, the two loops of a mount are loops
over the lists of what the records say, `importAll` and `replay`, and the bytes are out
of the way.
-/

namespace LightningOS.Persist

open ByteMemory CString Ramfs Users

/-! ## Taking what is there -/

/-- The reader passed exactly these bytes. -/
structure Took (bytes : List UInt8) (r r' : Reader) : Prop where
  ok : r'.Ok
  bad : r'.bad = r.bad
  buffer : r'.buffer = r.buffer
  length : r'.length = r.length
  left : r.left = bytes ++ r'.left

theorem Took.nil {r : Reader} (h : r.Ok) : Took [] r r := ⟨h, rfl, rfl, rfl, rfl⟩

theorem Took.trans {a b : List UInt8} {r r₁ r₂ : Reader} (h : Took a r r₁) (h' : Took b r₁ r₂) :
    Took (a ++ b) r r₂ where
  ok := h'.ok
  bad := h'.bad.trans h.bad
  buffer := h'.buffer.trans h.buffer
  length := h'.length.trans h.length
  left := by rw [h.left, h'.left, List.append_assoc]

/-- What a reader that took `a` has in front of it. -/
theorem Took.rest {a b : List UInt8} {r r' : Reader} (h : Took a r r') (hleft : r.left = a ++ b) :
    r'.left = b := by
  have := h.left
  rw [hleft] at this
  exact (List.append_cancel_left this).symm

/-- Where a reader that took everything stands. -/
theorem Took.atEnd {bytes : List UInt8} {r r' : Reader} (h : Took bytes r r')
    (hleft : r'.left = []) : r'.pos = r.length := by
  have hlen := h.ok.left_length
  have hpos := h.ok.pos
  rw [hleft, List.length_nil] at hlen
  rw [← h.length]
  omega

theorem takeBytes_took {r : Reader} (h : r.Ok) {bytes rest : List UInt8}
    (hleft : r.left = bytes ++ rest) :
    takeBytes r bytes.length = (some bytes, r.advance bytes.length) ∧
      Took bytes r (r.advance bytes.length) := by
  have hle : bytes.length ≤ r.left.length := by
    rw [hleft, List.length_append]
    exact Nat.le_add_right _ _
  have hnowrap : r.pos + bytes.length < 4294967296 := by
    have hlen := h.left_length
    have hmax : r.length ≤ 1024 * 1024 := h.length
    have hpos := h.pos
    omega
  refine ⟨?_, h.advance hle, rfl, rfl, rfl, ?_⟩
  · rw [h.takeBytes hnowrap, if_pos hle, hleft, List.take_left]
  · rw [Reader.left_advance, hleft, List.drop_left]

theorem takeNumber_took {r : Reader} (h : r.Ok) {bytes rest : List UInt8}
    (hleft : r.left = bytes ++ rest) {n v : Nat} (hn : bytes.length = n) (hv : leValue bytes = v) :
    ∃ r', takeNumber r n = (v, r') ∧ Took bytes r r' := by
  obtain ⟨htake, htook⟩ := takeBytes_took h hleft
  refine ⟨_, ?_, htook⟩
  rw [takeNumber, ← hn, htake, ← hv]

theorem takeU8_took {r : Reader} (h : r.Ok) {b : UInt8} {rest : List UInt8}
    (hleft : r.left = b :: rest) : ∃ r', takeNumber r 1 = (b.toNat, r') ∧ Took [b] r r' :=
  takeNumber_took h (hleft : r.left = [b] ++ rest) rfl (by simp [leValue])

theorem takeU16_took {r : Reader} (h : r.Ok) {v : Nat} {rest : List UInt8} (hv : v < 65536)
    (hleft : r.left = le16 v ++ rest) : ∃ r', takeNumber r 2 = (v, r') ∧ Took (le16 v) r r' :=
  takeNumber_took h hleft (le16_length v) (leValue_le16 hv)

theorem takeU32_took {r : Reader} (h : r.Ok) {v : Nat} {rest : List UInt8} (hv : v < 4294967296)
    (hleft : r.left = le32 v ++ rest) : ∃ r', takeNumber r 4 = (v, r') ∧ Took (le32 v) r r' :=
  takeNumber_took h hleft (le32_length v) (leValue_le32 hv)

theorem text_self {s : List UInt8} (h : (0 : UInt8) ∉ s) : text s = s := by
  refine List.takeWhile_eq_self_iff.mpr ?_
  intro b hb
  have hne : b ≠ 0 := by
    rintro rfl
    exact h hb
  simpa using hne

theorem takeString_took {r : Reader} (h : r.Ok) (hbad : r.bad = false) {s rest : List UInt8}
    {outSize : Nat} (hlen : s.length < outSize) (hout : outSize ≤ 256) (h0 : (0 : UInt8) ∉ s)
    (hleft : r.left = stringRecord s ++ rest) :
    ∃ r', takeString r outSize = (some s, r') ∧ Took (stringRecord s) r r' := by
  have hmod : s.length % 256 = s.length := Nat.mod_eq_of_lt (by omega)
  have hrecord : stringRecord s = [UInt8.ofNat s.length] ++ s := by
    rw [stringRecord, hmod, List.take_length, List.singleton_append]
  rw [hrecord] at hleft ⊢
  rw [List.append_assoc] at hleft
  obtain ⟨r₁, hnum, htook₁⟩ := takeU8_took h hleft
  have hvalue : (UInt8.ofNat s.length).toNat = s.length := by
    rw [UInt8.toNat_ofNat']
    exact hmod
  rw [hvalue] at hnum
  obtain ⟨htake, htook₂⟩ := takeBytes_took htook₁.ok (htook₁.rest hleft)
  refine ⟨_, ?_, htook₁.trans htook₂⟩
  have hok : ¬(r₁.bad = true ∨ outSize ≤ s.length) := by
    rw [htook₁.bad, hbad]
    simp only [Bool.false_eq_true, false_or]
    omega
  simp only [takeString, takeU8, hnum, if_neg hok, htake, text_self h0]

/-! ## Accounts -/

/-- An account that fits its record. -/
structure Recordable (u : User) : Prop where
  name : u.name.length < userNameMax
  name0 : (0 : UInt8) ∉ u.name
  home : u.home.length < userHomeMax
  home0 : (0 : UInt8) ∉ u.home

theorem takeUser_took {r : Reader} (h : r.Ok) (hbad : r.bad = false) {u : User}
    (hu : Recordable u) {rest : List UInt8} (hleft : r.left = userRecord u ++ rest) :
    ∃ r', takeUser r = (some { u with active := false }, r') ∧ Took (userRecord u) r r' := by
  have hword : ∀ n : UInt32, n.toNat < 4294967296 := fun n => n.toNat_lt
  simp only [userRecord, List.append_assoc] at hleft ⊢
  obtain ⟨r₁, hname, t₁⟩ := takeString_took h hbad hu.name (by decide) hu.name0 hleft
  obtain ⟨r₂, hhome, t₂⟩ := takeString_took t₁.ok (t₁.bad.trans hbad) hu.home (by decide) hu.home0
    (t₁.rest hleft)
  have t₁₂ := t₁.trans t₂
  rw [← List.append_assoc] at hleft
  obtain ⟨r₃, huid, t₃⟩ := takeU32_took t₂.ok (hword u.uid) (t₁₂.rest hleft)
  obtain ⟨r₄, hgid, t₄⟩ := takeU32_took t₃.ok (hword u.gid) (t₃.rest (t₁₂.rest hleft))
  obtain ⟨r₅, hhash, t₅⟩ := takeU32_took t₄.ok (hword u.pwHash)
    (t₄.rest (t₃.rest (t₁₂.rest hleft)))
  have htook := t₁₂.trans (t₃.trans (t₄.trans t₅))
  rw [List.append_assoc] at htook
  refine ⟨r₅, ?_, htook⟩
  have hgood : r₅.bad = false := htook.bad.trans hbad
  simp only [takeUser, hname, hhome, takeU32, huid, hgid, hhash, hgood, Bool.false_eq_true,
    if_false, UInt32.ofNat_toNat]

/-- `users_import` of one account after the other. -/
def importAll (env : Env) : List User → Table → Fs → Option (Table × Fs)
  | [], t, s => some (t, s)
  | u :: us, t, s =>
    match usersImport env t s u.name u.home u.uid u.gid u.pwHash with
    | none => none
    | some (_, t, s) => importAll env us t s

variable {env : Env}

/-- **The first loop of a mount imports the accounts of the payload.** -/
theorem mountUsers_import {us : List User} : ∀ {r : Reader} {t t' : Table} {s s' : Fs}
    {rest : List UInt8}, r.Ok → r.bad = false → (∀ u ∈ us, Recordable u) →
      r.left = us.flatMap userRecord ++ rest → importAll env us t s = some (t', s') →
      ∃ r', mountUsers env us.length r t s = (r', some (t', s')) ∧
        Took (us.flatMap userRecord) r r' := by
  induction us with
  | nil =>
    intro r t t' s s' rest hr _ _ _ himport
    obtain ⟨rfl, rfl⟩ := Prod.mk.inj (Option.some.inj himport)
    exact ⟨r, rfl, Took.nil hr⟩
  | cons u us ih =>
    intro r t t' s s' rest hr hbad hus hleft himport
    rw [List.flatMap_cons, List.append_assoc] at hleft
    obtain ⟨r₁, htake, t₁⟩ := takeUser_took hr hbad (hus u List.mem_cons_self) hleft
    rw [importAll] at himport
    cases hstep : usersImport env t s u.name u.home u.uid u.gid u.pwHash with
    | none => simp [hstep] at himport
    | some result =>
      obtain ⟨res, t₁', s₁'⟩ := result
      rw [hstep] at himport
      obtain ⟨r₂, hloop, t₂⟩ := ih t₁.ok (t₁.bad.trans hbad)
        (fun v hv => hus v (List.mem_cons_of_mem _ hv)) (t₁.rest hleft) himport
      refine ⟨r₂, ?_, t₁.trans t₂⟩
      simp only [List.length_cons, mountUsers, hbad, Bool.false_eq_true, if_false, htake, hstep,
        hloop]

/-! ## Nodes -/

/-- What a node record says. -/
structure Entry where
  type : FsType
  path : List UInt8
  data : List UInt8
  deriving DecidableEq, Repr

/-- Kind byte, length of the path, length of the data, path, data. -/
def Entry.bytes (e : Entry) : List UInt8 :=
  [if e.type = .dir then kindDir else kindFile] ++ le16 e.path.length ++ le32 e.data.length ++
    e.path ++ e.data

def Entry.head (e : Entry) : NodeHead where
  kind := (if e.type = .dir then kindDir else kindFile).toNat
  path := e.path
  dataLen := e.data.length

/-- A path the reader accepts. -/
structure Entry.Ok (e : Entry) : Prop where
  nonempty : e.path ≠ []
  length : e.path.length < fsPathMax
  path0 : (0 : UInt8) ∉ e.path

theorem Entry.head_type (e : Entry) :
    (if e.head.kind = kindDir.toNat then FsType.dir else .file) = e.type := by
  cases htype : e.type <;> simp [Entry.head, htype, kindDir, kindFile]

theorem takeHead_took {r : Reader} (h : r.Ok) (hbad : r.bad = false) {e : Entry} (he : e.Ok)
    {rest : List UInt8} (hleft : r.left = e.bytes ++ rest) :
    ∃ r' r₁, takeHead r = (some e.head, r') ∧ Took r₁ r r' ∧ r'.left = e.data ++ rest ∧
      e.bytes = r₁ ++ e.data := by
  have hmax : fsPathMax = 256 := rfl
  have hpath := he.length
  have hpos := List.length_pos_iff.mpr he.nonempty
  have hdata : e.data.length < 4294967296 := by
    have hlen := h.left_length
    have hle : r.length ≤ 1024 * 1024 := h.length
    rw [hleft, Entry.bytes] at hlen
    simp only [List.length_append] at hlen
    omega
  simp only [Entry.bytes, List.append_assoc] at hleft
  obtain ⟨r₁, hkind, t₁⟩ := takeU8_took h hleft
  obtain ⟨r₂, hlen, t₂⟩ := takeU16_took t₁.ok (by omega) (t₁.rest hleft)
  obtain ⟨r₃, hsize, t₃⟩ := takeU32_took t₂.ok hdata (t₂.rest (t₁.rest hleft))
  obtain ⟨hbytes, t₄⟩ := takeBytes_took t₃.ok (t₃.rest (t₂.rest (t₁.rest hleft)))
  have htook := t₁.trans (t₂.trans (t₃.trans t₄))
  refine ⟨_, _, ?_, htook, t₄.rest (t₃.rest (t₂.rest (t₁.rest hleft))), ?_⟩
  · have hgood : ¬(r₃.bad = true ∨ e.path.length = 0 ∨ fsPathMax ≤ e.path.length) := by
      rw [(t₁.trans (t₂.trans t₃)).bad, hbad]
      simp only [Bool.false_eq_true, false_or]
      omega
    obtain ⟨kind, s₁, pathLen, s₂, dataLen, s₃, hkind', hlen', hsize', hcases⟩ := takeHead_cases r
    rw [hkind] at hkind'
    obtain ⟨rfl, rfl⟩ := Prod.mk.inj hkind'
    rw [hlen] at hlen'
    obtain ⟨rfl, rfl⟩ := Prod.mk.inj hlen'
    rw [hsize] at hsize'
    obtain ⟨rfl, rfl⟩ := Prod.mk.inj hsize'
    rcases hcases with ⟨hno, -⟩ | ⟨-, -, -, out, s₄, htake, hhead⟩
    · exact absurd hno hgood
    · rw [hbytes] at htake
      obtain ⟨rfl, rfl⟩ := Prod.mk.inj htake
      rw [hhead, Option.map_some, text_self he.path0]
      rfl
  · simp only [Entry.bytes, List.append_assoc]

/-- What a mount does for one record. -/
def restoreEntry (env : Env) (s : Fs) (e : Entry) : Option Fs :=
  match createOrResolve env s e.head with
  | none => none
  | some (node, s) => if e.data = [] then some s else writeData env s node e.data e.data.length

/-- One record after the other. -/
def replay (env : Env) : List Entry → Fs → Option Fs
  | [], s => some s
  | e :: es, s =>
    match restoreEntry env s e with
    | none => none
    | some s => replay env es s

/-- A write reads no more than the bytes it is told to. -/
theorem writeData_prefix (s : Fs) (node : Option Ptr) (data more : List UInt8) :
    writeData env s node (data ++ more) data.length = writeData env s node data data.length := by
  have hwrite : ∀ p, fsWriteN env s p (data ++ more) data.length false =
      fsWriteN env s p data data.length false := by
    intro p
    have hnot : ¬(data ++ more).length < data.length := by
      rw [List.length_append]
      omega
    unfold fsWriteN
    simp only [if_neg hnot, if_neg (Nat.lt_irrefl data.length), List.take_left, List.take_length]
  unfold writeData
  simp only [hwrite]

/-- The bytes behind the reader's position, within the payload and after it. -/
theorem Reader.Ok.drop_pos {r : Reader} (h : r.Ok) :
    r.buffer.drop r.pos = r.left ++ r.buffer.drop r.length := by
  have hpos := h.pos
  rw [Reader.left, List.drop_take]
  have hsplit := (List.take_append_drop (r.length - r.pos) (r.buffer.drop r.pos)).symm
  rw [List.drop_drop, Nat.add_sub_cancel' hpos] at hsplit
  exact hsplit

variable (env) in
/-- One record of the payload: what it says is done, and the reader is behind it. -/
theorem mountNodes_record (n : Nat) {r : Reader} (hr : r.Ok) (hbad : r.bad = false) {e : Entry}
    (he : e.Ok) {rest : List UInt8} (hleft : r.left = e.bytes ++ rest) (s : Fs) :
    ∃ r', Took e.bytes r r' ∧
      ((restoreEntry env s e = none ∧ ∃ r₀, mountNodes env (n + 1) r s = (r₀, none)) ∨
        ∃ s', restoreEntry env s e = some s' ∧
          mountNodes env (n + 1) r s = mountNodes env n r' s') := by
  obtain ⟨r₁, head, htake, t₁, hdata, hbytes⟩ := takeHead_took hr hbad he hleft
  have hle : r₁.pos + e.data.length ≤ r₁.length := by
    have hl := t₁.ok.left_length
    have hp := t₁.ok.pos
    rw [hdata, List.length_append] at hl
    omega
  have hpass : ∀ copied, Took e.bytes r (r₁.pass copied e.data.length) := by
    intro copied
    obtain ⟨hok, hsame⟩ := t₁.ok.pass copied hle
    rw [hbytes]
    refine t₁.trans ⟨hok, rfl, rfl, rfl, ?_⟩
    have hleft' : (r₁.pass copied e.data.length).left = r₁.left.drop e.data.length := by
      rw [Reader.left, hsame.pos, hsame.buffer, hsame.length, Reader.left, List.drop_drop]
    rw [hleft', hdata, List.drop_left]
  unfold restoreEntry
  cases hcreate : createOrResolve env s e.head with
  | none =>
    refine ⟨_, hpass true, Or.inl ⟨rfl, r₁, ?_⟩⟩
    simp only [mountNodes, hbad, Bool.false_eq_true, if_false, htake, hcreate]
  | some result =>
    obtain ⟨node, s₁⟩ := result
    dsimp only
    rw [mountNodes_some hbad htake hcreate]
    by_cases hnone : e.data = []
    · rw [if_pos hnone, if_pos (by simp [Entry.head, hnone])]
      refine ⟨r₁, ?_, Or.inr ⟨s₁, rfl, rfl⟩⟩
      rw [hbytes, hnone, List.append_nil]
      exact t₁
    · rw [if_neg hnone]
      have hlen : e.head.dataLen = e.data.length := rfl
      have hfit : wrap32 (r₁.pos + e.data.length) = r₁.pos + e.data.length := by
        have hmax : r₁.length ≤ 1024 * 1024 := t₁.ok.length
        exact wrap32_of_lt (by omega)
      have hpos : e.data.length ≠ 0 := fun h => hnone (List.length_eq_zero_iff.mp h)
      have hsrc : r₁.buffer.drop r₁.pos = e.data ++ (rest ++ r₁.buffer.drop r₁.length) := by
        rw [t₁.ok.drop_pos, hdata, List.append_assoc]
      have hwrite : writeData env s₁ node (r₁.buffer.drop r₁.pos) e.data.length =
          writeData env s₁ node e.data e.data.length := by
        rw [hsrc, writeData_prefix]
      refine ⟨r₁.pass (copiesData s₁ node) e.data.length, hpass _, ?_⟩
      rw [hlen, if_neg hpos, hfit, if_neg (by omega), hwrite]
      cases writeData env s₁ node e.data e.data.length with
      | none => exact Or.inl ⟨rfl, _, rfl⟩
      | some s' => exact Or.inr ⟨s', rfl, rfl⟩

/-- **The second loop of a mount replays the records of the payload.** -/
theorem mountNodes_replay {es : List Entry} : ∀ {r : Reader} {s s' : Fs} {rest : List UInt8},
    r.Ok → r.bad = false → (∀ e ∈ es, e.Ok) → r.left = es.flatMap Entry.bytes ++ rest →
      replay env es s = some s' →
      ∃ r', mountNodes env es.length r s = (r', some s') ∧
        Took (es.flatMap Entry.bytes) r r' := by
  induction es with
  | nil =>
    intro r s s' rest hr _ _ _ hs
    obtain rfl := Option.some.inj hs
    exact ⟨r, rfl, Took.nil hr⟩
  | cons e es ih =>
    intro r s s' rest hr hbad hes hleft hs
    rw [List.flatMap_cons, List.append_assoc] at hleft
    rw [replay] at hs
    cases hstep : restoreEntry env s e with
    | none => simp [hstep] at hs
    | some s₁ =>
      rw [hstep] at hs
      obtain ⟨r₁, t₁, ⟨hnone, -⟩ | ⟨s₁', hsome, hone⟩⟩ :=
        mountNodes_record env es.length hr hbad (hes e List.mem_cons_self) hleft s
      · rw [hstep] at hnone
        exact absurd hnone (Option.some_ne_none _)
      · rw [hstep] at hsome
        obtain rfl := Option.some.inj hsome
        obtain ⟨r₂, hloop, t₂⟩ := ih t₁.ok (t₁.bad.trans hbad)
          (fun x hx => hes x (List.mem_cons_of_mem _ hx)) (t₁.rest hleft) hs
        exact ⟨r₂, hone.trans hloop, t₁.trans t₂⟩

end LightningOS.Persist
