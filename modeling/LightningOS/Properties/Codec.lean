import LightningOS.Fs.Persist
import LightningOS.Lib.Buffer

/-!
# The bytes of a snapshot

What the writer appends and what the reader takes back. The writer never leaves its
buffer: what does not fit only sets a flag, and without the flag every byte is there.
-/

namespace LightningOS.Persist

open ByteMemory CString Ramfs Users Ata

/-! ## Numbers -/

theorem le16_length (n : Nat) : (le16 n).length = 2 := rfl

theorem le32_length (n : Nat) : (le32 n).length = 4 := rfl

theorem leValue_le16 {n : Nat} (h : n < 65536) : leValue (le16 n) = n := by
  simp only [le16, leValue, UInt8.toNat_ofNat']
  omega

theorem leValue_le32 {n : Nat} (h : n < 4294967296) : leValue (le32 n) = n := by
  simp only [le32, leValue, UInt8.toNat_ofNat']
  omega

theorem leValue_lt : ∀ bytes : List UInt8, leValue bytes < 256 ^ bytes.length
  | [] => by simp [leValue]
  | b :: bs => by
    have ih := leValue_lt bs
    have hb := b.toNat_lt
    rw [leValue, List.length_cons, Nat.pow_succ]
    omega

/-! ## The writer -/

/-- `w'` is `w` with `bytes` behind it, unless something did not fit. -/
structure Wrote (w w' : Writer) (bytes : List UInt8) : Prop where
  capacity : w'.capacity = w.capacity
  fits : w.used ≤ w.capacity → w'.used ≤ w'.capacity
  keeps : w'.overflow = false → w.overflow = false ∧ w'.buffer = w.buffer ++ bytes

theorem Wrote.refl (w : Writer) : Wrote w w [] := ⟨rfl, id, fun h => ⟨h, by simp⟩⟩

theorem Wrote.trans {w₁ w₂ w₃ : Writer} {a b : List UInt8} (h₁ : Wrote w₁ w₂ a)
    (h₂ : Wrote w₂ w₃ b) : Wrote w₁ w₃ (a ++ b) := by
  refine ⟨h₂.capacity.trans h₁.capacity, fun h => h₂.fits (h₁.fits h), fun h => ?_⟩
  obtain ⟨ho, hb⟩ := h₂.keeps h
  obtain ⟨ho', hb'⟩ := h₁.keeps ho
  exact ⟨ho', by rw [hb, hb', List.append_assoc]⟩

theorem putBytes_wrote {w w' : Writer} {data : List UInt8} {n : Nat}
    (h : putBytes w data n = some w') : Wrote w w' (data.take n) := by
  unfold putBytes at h
  by_cases ho : w.capacity < wrap32 (w.used + n)
  · rw [if_pos ho] at h
    obtain rfl := Option.some.inj h
    exact ⟨rfl, id, by simp⟩
  rw [if_neg ho] at h
  by_cases hf : data.length < n ∨ w.capacity < w.used + n
  · simp [hf] at h
  rw [if_neg hf] at h
  obtain rfl := Option.some.inj h
  refine ⟨rfl, fun _ => ?_, fun h => ⟨h, rfl⟩⟩
  simp only [Writer.used, List.length_append, List.length_take] at hf ⊢
  omega

/-- The writer with more bytes in its buffer. -/
def Writer.push (w : Writer) (bytes : List UInt8) : Writer := { w with buffer := w.buffer ++ bytes }

@[simp] theorem Writer.push_used (w : Writer) (bytes : List UInt8) :
    (w.push bytes).used = w.used + bytes.length := List.length_append

@[simp] theorem Writer.push_capacity (w : Writer) (bytes : List UInt8) :
    (w.push bytes).capacity = w.capacity := rfl

theorem Writer.push_push (w : Writer) (a b : List UInt8) : (w.push a).push b = w.push (a ++ b) := by
  unfold push
  rw [List.append_assoc]

/-- Bytes that fit are written. -/
theorem putBytes_fits {w : Writer} {data : List UInt8} {n : Nat} (hn : n ≤ data.length)
    (hcap : w.capacity ≤ maxPayload) (hfits : w.used + n ≤ w.capacity) :
    putBytes w data n = some (w.push (data.take n)) := by
  have hle : maxPayload = 1048576 := rfl
  unfold putBytes
  rw [wrap32_of_lt (by omega), if_neg (by omega), if_neg (by omega)]
  rfl

theorem putU8_wrote {w w' : Writer} {v : UInt8} (h : putU8 w v = some w') : Wrote w w' [v] :=
  putBytes_wrote h

theorem putU16_wrote {w w' : Writer} {v : Nat} (h : putU16 w v = some w') :
    Wrote w w' (le16 v) :=
  putBytes_wrote h

theorem putU32_wrote {w w' : Writer} {v : Nat} (h : putU32 w v = some w') :
    Wrote w w' (le32 v) :=
  putBytes_wrote h

/-- A string of the payload: its length, as a byte, and then it. -/
def stringRecord (s : List UInt8) : List UInt8 := UInt8.ofNat (s.length % 256) :: s.take (s.length % 256)

theorem putString_wrote {w w' : Writer} {s : List UInt8} (h : putString w s = some w') :
    Wrote w w' (stringRecord s) := by
  simp only [putString, Option.bind_eq_bind, Option.bind_eq_some_iff] at h
  obtain ⟨w₁, h₁, h₂⟩ := h
  exact (putU8_wrote h₁).trans (putBytes_wrote h₂)

/-- An account of the payload. -/
def userRecord (u : User) : List UInt8 :=
  stringRecord u.name ++ stringRecord u.home ++ le32 u.uid.toNat ++ le32 u.gid.toNat ++
    le32 u.pwHash.toNat

theorem putUser_wrote {w w' : Writer} {u : User} (h : putUser w u = some w') :
    Wrote w w' (userRecord u) := by
  simp only [putUser, Option.bind_eq_bind, Option.bind_eq_some_iff] at h
  obtain ⟨w₁, h₁, w₂, h₂, w₃, h₃, w₄, h₄, h₅⟩ := h
  exact ((((putString_wrote h₁).trans (putString_wrote h₂)).trans (putU32_wrote h₃)).trans
    (putU32_wrote h₄)).trans (putU32_wrote h₅)

theorem putUsers_wrote {t : Table} : ∀ {is : List Nat} {w w' : Writer} {count n : Nat},
    putUsers t is w count = some (w', n) →
      Wrote w w' ((is.filterMap (usersAt t)).flatMap userRecord) ∧
        n = count + (is.filterMap (usersAt t)).length
  | [], w, w', count, n, h => by
    simp only [putUsers, Option.some.injEq, Prod.mk.injEq] at h
    obtain ⟨rfl, rfl⟩ := h
    exact ⟨.refl _, rfl⟩
  | i :: is, w, w', count, n, h => by
    rw [putUsers] at h
    cases hu : usersAt t i with
    | none =>
      rw [hu] at h
      rw [List.filterMap_cons_none hu]
      exact putUsers_wrote h
    | some u =>
      rw [hu] at h
      rw [List.filterMap_cons_some hu, List.flatMap_cons, List.length_cons]
      cases hp : putUser w u with
      | none => simp [hp] at h
      | some w₁ =>
        simp only [hp] at h
        obtain ⟨hw, hn⟩ := putUsers_wrote h
        exact ⟨(putUser_wrote hp).trans hw, by omega⟩

/-! ## The writer is a buffer -/

/-- The writer of a payload, over a buffer of its size. -/
def ofBuffer (k : Buffer UInt8 maxPayload) : Writer where
  buffer := k.filled
  capacity := maxPayload
  overflow := k.missed

/-- Bytes that are there are taken or dropped, and neither the sum nor the copy goes wrong. -/
theorem putBytes_buffer (k : Buffer UInt8 maxPayload) {data : List UInt8} {n : Nat}
    (hn : n ≤ data.length) (hsmall : maxPayload + n < 4294967296) :
    putBytes (ofBuffer k) data n = some (ofBuffer (k.put (data.take n))) := by
  have hle := k.le
  have hlen : (data.take n).length = n := by
    rw [List.length_take]
    omega
  have hused : (ofBuffer k).used = k.filled.length := rfl
  have hcap : (ofBuffer k).capacity = maxPayload := rfl
  unfold putBytes
  rw [hused, hcap, wrap32_of_lt (by omega)]
  by_cases hfits : k.filled.length + n ≤ maxPayload
  · rw [if_neg (by omega), if_neg (by omega), Buffer.put, dif_pos (by rwa [hlen])]
    rfl
  · rw [if_pos (by omega), Buffer.put_dropped (by rw [hlen]; omega)]
    rfl

theorem putU8_buffer (k : Buffer UInt8 maxPayload) (v : UInt8) :
    putU8 (ofBuffer k) v = some (ofBuffer (k.put [v])) :=
  putBytes_buffer k (Nat.le_refl 1) (by decide)

theorem putU16_buffer (k : Buffer UInt8 maxPayload) (v : Nat) :
    putU16 (ofBuffer k) v = some (ofBuffer (k.put (le16 v))) :=
  putBytes_buffer k (Nat.le_refl 2) (by decide)

theorem putU32_buffer (k : Buffer UInt8 maxPayload) (v : Nat) :
    putU32 (ofBuffer k) v = some (ofBuffer (k.put (le32 v))) :=
  putBytes_buffer k (Nat.le_refl 4) (by decide)

/-- The calls of `put_bytes` for a string. -/
def stringPieces (s : List UInt8) : List (List UInt8) :=
  [[UInt8.ofNat (s.length % 256)], s.take (s.length % 256)]

theorem putString_buffer (k : Buffer UInt8 maxPayload) (s : List UInt8) :
    putString (ofBuffer k) s = some (ofBuffer (k.putAll (stringPieces s))) := by
  have hle : s.length % 256 ≤ s.length := Nat.mod_le _ _
  have hlt : s.length % 256 < 256 := Nat.mod_lt _ (by decide)
  have hmax : maxPayload = 1048576 := rfl
  simp only [putString, putU8_buffer, Option.bind_eq_bind, Option.bind_some]
  exact putBytes_buffer _ hle (by omega)

/-- The calls of `put_bytes` for an account. -/
def userPieces (u : User) : List (List UInt8) :=
  stringPieces u.name ++ stringPieces u.home ++
    [le32 u.uid.toNat, le32 u.gid.toNat, le32 u.pwHash.toNat]

theorem userPieces_flatten (u : User) : (userPieces u).flatten = userRecord u := by
  simp [userPieces, stringPieces, userRecord, stringRecord]

theorem putUser_buffer (k : Buffer UInt8 maxPayload) (u : User) :
    putUser (ofBuffer k) u = some (ofBuffer (k.putAll (userPieces u))) := by
  simp only [putUser, putString_buffer, putU32_buffer, Option.bind_eq_bind, Option.bind_some]
  rw [userPieces, Buffer.putAll_append, Buffer.putAll_append, Buffer.putAll_cons, Buffer.putAll_cons,
    Buffer.putAll_cons, Buffer.putAll_nil]

theorem putUsers_buffer (t : Table) (is : List Nat) : ∀ (k : Buffer UInt8 maxPayload) (count : Nat),
    putUsers t is (ofBuffer k) count =
      some (ofBuffer (k.putAll ((is.filterMap (usersAt t)).flatMap userPieces)),
        count + (is.filterMap (usersAt t)).length) := by
  induction is with
  | nil => exact fun _ _ => rfl
  | cons i is ih =>
    intro k count
    rw [putUsers]
    cases hu : usersAt t i with
    | none =>
      rw [List.filterMap_cons_none hu]
      exact ih k count
    | some u =>
      simp only [putUser_buffer]
      rw [ih, List.filterMap_cons_some hu, List.flatMap_cons, Buffer.putAll_append,
        List.length_cons, Nat.add_right_comm, Nat.add_assoc]

/-! ## Nodes of the payload -/

/-- The data a node record has. -/
def dataLength (n : FsNode) : Nat := if n.type = .file then n.size else 0

/-- The bytes of a node in the payload. -/
def nodeRecord (s : Fs) (n : FsNode) (path : List UInt8) : List UInt8 :=
  [if n.type = .dir then kindDir else kindFile] ++ le16 (path.length % 65536) ++
    le32 (dataLength n) ++ path.take (path.length % 65536) ++
    ((n.data.bind s.bufs.get).getD []).take (dataLength n)

/-- A node is skipped if there is no path for it, and is a record otherwise. -/
theorem writeNode_cases {s : Fs} {w w' : Writer} {node : Ptr} {count count' : Nat}
    (h : writeNode s w node count = some (w', count')) :
    ∃ path n, fsAbspath s node fsPathMax = some path ∧ s.nodes.get node = some n ∧
      ((path = [] ∧ w' = w ∧ count' = count) ∨
        (path ≠ [] ∧ count' = count + 1 ∧ Wrote w w' (nodeRecord s n path))) := by
  simp only [writeNode, Option.bind_eq_bind, Option.bind_eq_some_iff] at h
  obtain ⟨path, hpath, n, hn, h⟩ := h
  refine ⟨path, n, hpath, hn, ?_⟩
  by_cases hnil : path = []
  · rw [if_pos hnil] at h
    simp only [Option.some.injEq, Prod.mk.injEq] at h
    exact Or.inl ⟨hnil, h.1.symm, h.2.symm⟩
  rw [if_neg hnil] at h
  simp only [Option.bind_eq_some_iff] at h
  obtain ⟨w₁, h₁, w₂, h₂, w₃, h₃, w₄, h₄, h⟩ := h
  have hhead := (((putU8_wrote h₁).trans (putU16_wrote h₂)).trans (putU32_wrote h₃)).trans
    (putBytes_wrote h₄)
  refine Or.inr ⟨hnil, ?_⟩
  cases hd : n.data with
  | none =>
    rw [hd] at h
    simp only [Option.some.injEq, Prod.mk.injEq] at h
    obtain ⟨rfl, rfl⟩ := h
    refine ⟨rfl, ?_⟩
    have htrans := hhead.trans (.refl w₄)
    simpa only [nodeRecord, dataLength, hd, Option.bind_none, Option.getD_none,
      List.take_nil] using htrans
  | some d =>
    rw [hd] at h
    by_cases h0 : (if n.type = .file then n.size else 0) = 0
    · simp only [h0, if_true, Option.some.injEq, Prod.mk.injEq] at h
      obtain ⟨rfl, rfl⟩ := h
      refine ⟨rfl, ?_⟩
      have htrans := hhead.trans (.refl w₄)
      simpa only [nodeRecord, dataLength, h0, List.take_zero] using htrans
    · simp only [if_neg h0, Option.bind_eq_some_iff, Option.some.injEq, Prod.mk.injEq] at h
      obtain ⟨bytes, hbytes, w₅, h₅, rfl, rfl⟩ := h
      refine ⟨rfl, ?_⟩
      have htrans := hhead.trans (putBytes_wrote h₅)
      simpa only [nodeRecord, dataLength, hd, Option.bind_some, hbytes,
        Option.getD_some] using htrans

/-- A node whose record fits is written. -/
theorem writeNode_fits {s : Fs} {w : Writer} {node : Ptr} {n : FsNode} {path : List UInt8}
    (count : Nat) (hpath : fsAbspath s node fsPathMax = some path)
    (hn : s.nodes.get node = some n) (hne : path ≠ [])
    (hdata : ∀ d, n.data = some d → dataLength n ≠ 0 →
      ∃ bytes, s.bufs.get d = some bytes ∧ dataLength n ≤ bytes.length)
    (hcap : w.capacity ≤ maxPayload)
    (hfits : w.used + (nodeRecord s n path).length ≤ w.capacity) :
    writeNode s w node count =
      some (w.push (nodeRecord s n path), count + 1) := by
  obtain ⟨tail, htail⟩ : ∃ tail,
    tail = ((n.data.bind s.bufs.get).getD []).take (dataLength n) := ⟨_, rfl⟩
  have hk : path.length % 65536 ≤ path.length := Nat.mod_le _ _
  unfold nodeRecord at hfits ⊢
  rw [← htail] at hfits ⊢
  simp only [List.length_append, List.length_take, List.length_singleton, le16_length,
    le32_length] at hfits
  unfold writeNode
  simp only [hpath, hn, Option.bind_eq_bind, Option.bind_some, if_neg hne, ← dataLength.eq_1]
  -- the head, part by part
  refine Option.bind_eq_some_iff.mpr ⟨w.push [if n.type = .dir then kindDir else kindFile],
    putBytes_fits (Nat.le_refl 1) hcap (by omega), ?_⟩
  refine Option.bind_eq_some_iff.mpr ⟨_, putBytes_fits (Nat.le_refl 2) hcap
    (by simp only [Writer.push_used, Writer.push_capacity, List.length_singleton]; omega), ?_⟩
  refine Option.bind_eq_some_iff.mpr ⟨_, putBytes_fits (Nat.le_refl 4) hcap
    (by simp [le16_length]; omega), ?_⟩
  refine Option.bind_eq_some_iff.mpr ⟨_, putBytes_fits hk hcap
    (by simp [le16_length, le32_length]; omega), ?_⟩
  have h16 : (le16 (path.length % 65536)).take 2 = le16 (path.length % 65536) := rfl
  have h32 : (le32 (dataLength n)).take 4 = le32 (dataLength n) := rfl
  simp only [Writer.push_push, h16, h32]
  cases hd : n.data with
  | none => simp [htail, hd]
  | some d =>
    by_cases h0 : dataLength n = 0
    · simp [htail, h0]
    · obtain ⟨bytes, hbytes, hle⟩ := hdata d hd h0
      have htake : tail = bytes.take (dataLength n) := by simp [htail, hd, hbytes]
      have hlen : tail.length = dataLength n := by rw [htake, List.length_take]; omega
      simp only [if_neg h0, hbytes, Option.bind_some]
      refine Option.bind_eq_some_iff.mpr ⟨_, putBytes_fits hle hcap
        (by simp [le16_length, le32_length]; omega), ?_⟩
      rw [Writer.push_push, ← htake]

theorem nodeRecord_pos (s : Fs) (n : FsNode) (path : List UInt8) :
    1 ≤ (nodeRecord s n path).length := by
  simp only [nodeRecord, List.length_append, List.length_singleton]
  omega

theorem writeNode_wrote {s : Fs} {w w' : Writer} {node : Ptr} {count count' : Nat}
    (h : writeNode s w node count = some (w', count')) :
    ∃ bytes, Wrote w w' bytes ∧ count' ≤ count + bytes.length := by
  obtain ⟨path, n, -, -, ⟨-, rfl, rfl⟩ | ⟨-, rfl, hw⟩⟩ := writeNode_cases h
  · exact ⟨_, .refl _, Nat.le_add_right _ _⟩
  · exact ⟨_, hw, Nat.add_le_add_left (nodeRecord_pos s n path) count⟩

/-- Every node that is counted is in the payload. -/
theorem writeTree_wrote {s : Fs} : ∀ {fuel : Nat} {child : Option Ptr} {w w' : Writer}
    {count count' : Nat}, writeTree s fuel child w count = some (w', count') →
    ∃ bytes, Wrote w w' bytes ∧ count' ≤ count + bytes.length := by
  intro fuel
  induction fuel with
  | zero =>
    intro child w w' count count' h
    cases child with
    | none =>
      simp only [writeTree, Option.some.injEq, Prod.mk.injEq] at h
      obtain ⟨rfl, rfl⟩ := h
      exact ⟨_, .refl _, Nat.le_add_right _ _⟩
    | some c => simp [writeTree] at h
  | succ fuel ih =>
    intro child w w' count count' h
    cases child with
    | none =>
      simp only [writeTree, Option.some.injEq, Prod.mk.injEq] at h
      obtain ⟨rfl, rfl⟩ := h
      exact ⟨_, .refl _, Nat.le_add_right _ _⟩
    | some child =>
      rw [writeTree] at h
      rcases h₁ : writeNode s w child count with - | ⟨w₁, c₁⟩
      · simp [h₁] at h
      obtain ⟨b₁, hw₁, hle₁⟩ := writeNode_wrote h₁
      simp only [h₁] at h
      cases hc : s.nodes.get child with
      | none => simp [hc] at h
      | some c =>
        simp only [hc] at h
        by_cases hdir : c.type = .dir
        · rw [if_pos hdir] at h
          rcases h₂ : writeTree s fuel c.children w₁ c₁ with - | ⟨w₂, c₂⟩
          · simp [h₂] at h
          simp only [h₂] at h
          obtain ⟨b₂, hw₂, hle₂⟩ := ih h₂
          obtain ⟨b₃, hw₃, hle₃⟩ := ih h
          refine ⟨_, (hw₁.trans hw₂).trans hw₃, ?_⟩
          simp only [List.length_append]
          omega
        · rw [if_neg hdir] at h
          obtain ⟨b₂, hw₂, hle₂⟩ := ih h
          refine ⟨_, hw₁.trans hw₂, ?_⟩
          rw [List.length_append]
          omega

/-- The payload fits in the buffer. -/
theorem encodeAll_le {s : Fs} {t : Table} {w : Writer} {users nodes : Nat}
    (h : encodeAll s t = some (w, users, nodes)) : w.buffer.length ≤ maxPayload := by
  simp only [encodeAll, Option.bind_eq_bind, Option.bind_eq_some_iff, Prod.exists,
    Option.some.injEq, Prod.mk.injEq] at h
  obtain ⟨w₁, c₁, h₁, root, -, rn, -, w₂, c₂, h₂, rfl, -, -⟩ := h
  obtain ⟨b, hw₂, -⟩ := writeTree_wrote h₂
  have hw := (putUsers_wrote h₁).1.trans hw₂
  have hfits := hw.fits (Nat.zero_le _)
  rw [hw.capacity] at hfits
  exact hfits

theorem usersCount_le (t : Table) : usersCount t ≤ userMax := by
  refine Nat.le_trans (List.length_filter_le _ _) ?_
  rw [List.length_finRange]

/-- The counts in the superblock are small. -/
theorem encodeAll_counts {s : Fs} {t : Table} {w : Writer} {users nodes : Nat}
    (h : encodeAll s t = some (w, users, nodes)) (hfits : w.overflow = false) :
    users ≤ userMax ∧ nodes ≤ maxPayload := by
  have hle := encodeAll_le h
  simp only [encodeAll, Option.bind_eq_bind, Option.bind_eq_some_iff, Prod.exists,
    Option.some.injEq, Prod.mk.injEq] at h
  obtain ⟨w₁, c₁, h₁, root, -, rn, -, w₂, c₂, h₂, rfl, rfl, rfl⟩ := h
  obtain ⟨b, hw₂, hcount⟩ := writeTree_wrote h₂
  obtain ⟨hw₁, husers⟩ := putUsers_wrote h₁
  have hbuffer := (hw₂.keeps hfits).2
  rw [hbuffer, List.length_append] at hle
  refine ⟨?_, by omega⟩
  rw [husers, Nat.zero_add]
  refine Nat.le_trans (List.length_filterMap_le _ _) ?_
  rw [List.length_range]
  exact usersCount_le t

end LightningOS.Persist
