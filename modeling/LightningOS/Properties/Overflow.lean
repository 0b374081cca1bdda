import LightningOS.Properties.SaveMount

/-!
# A snapshot that is too long

`put_bytes` drops a piece that does not fit, and a flag remembers that until the end; smaller
pieces behind it may still be copied. The flag says exactly whether the records of all the
accounts and all the nodes are longer than the buffer. If they are not, the buffer holds them
one after the other, and the padding behind them fits as well.
-/

namespace LightningOS.Persist

open ByteMemory CString Ramfs Users Ata Forest

variable {s : Fs} {root : Ptr} {kids : Forest Ptr}

/-! ## The calls of put_bytes -/

/-- The writer at the beginning. -/
def emptyWriter : Writer := { buffer := [], capacity := maxPayload, overflow := false }

/-- Calls of `put_bytes`, one after the other. -/
def putPieces : Writer → List (List UInt8) → Option Writer
  | w, [] => some w
  | w, piece :: pieces => (putBytes w piece piece.length).bind fun w => putPieces w pieces

/-- Every call copies its bytes inside the buffer, or it copies nothing and sets the flag. -/
def CopiesInside (pieces : List (List UInt8)) : Prop :=
  ∀ front piece back, pieces = front ++ piece :: back →
    ∃ w, putPieces emptyWriter front = some w ∧ w.capacity = maxPayload ∧
      (w.used + piece.length ≤ maxPayload ∧
          putBytes w piece piece.length = some (w.push piece) ∨
        maxPayload < w.used + piece.length ∧
          putBytes w piece piece.length = some { w with overflow := true })

theorem putPieces_buffer {pieces : List (List UInt8)} : ∀ {k : Buffer UInt8 maxPayload},
    (∀ p ∈ pieces, maxPayload + p.length < 4294967296) →
      putPieces (ofBuffer k) pieces = some (ofBuffer (k.putAll pieces)) := by
  induction pieces with
  | nil => exact fun _ => rfl
  | cons piece pieces ih =>
    intro k h
    rw [putPieces, putBytes_buffer k (Nat.le_refl _) (h piece List.mem_cons_self), List.take_length,
      Option.bind_some, Buffer.putAll_cons]
    exact ih fun p hp => h p (List.mem_cons_of_mem _ hp)

theorem copiesInside_of_small {pieces : List (List UInt8)}
    (h : ∀ p ∈ pieces, maxPayload + p.length < 4294967296) : CopiesInside pieces := by
  rintro front piece back rfl
  have hfront : ∀ p ∈ front, maxPayload + p.length < 4294967296 := fun p hp =>
    h p (List.mem_append_left _ hp)
  have hpiece := h piece (by simp)
  obtain ⟨k, hk⟩ : ∃ k : Buffer UInt8 maxPayload, k = Buffer.empty.putAll front := ⟨_, rfl⟩
  refine ⟨ofBuffer k, ?_, rfl, ?_⟩
  · have hrun : putPieces (ofBuffer Buffer.empty) front = some (ofBuffer (Buffer.empty.putAll front)) :=
      putPieces_buffer hfront
    rw [hk]
    exact hrun
  rw [putBytes_buffer k (Nat.le_refl _) hpiece, List.take_length]
  have hused : (ofBuffer k).used = k.filled.length := rfl
  rw [hused]
  by_cases hfits : k.filled.length + piece.length ≤ maxPayload
  · left
    refine ⟨hfits, ?_⟩
    rw [Buffer.put, dif_pos hfits]
    rfl
  · right
    refine ⟨Nat.lt_of_not_le hfits, ?_⟩
    rw [Buffer.put_dropped (Nat.lt_of_not_le hfits)]
    rfl

/-! ## The pieces of a tree -/

/-- No piece is so long that a sum wraps around. -/
theorem payloadPieces_small (h : TreeInv s root kids) (t : Table) :
    ∀ p ∈ payloadPieces t s kids, maxPayload + p.length < 4294967296 := by
  have hmax : maxPayload = 1048576 := rfl
  have hpath : fsPathMax = 256 := rfl
  have hheap : Mem.heapMaxSize = 33554432 := rfl
  have hstring : ∀ x : List UInt8, ∀ p ∈ stringPieces x, p.length < 256 := by
    intro x p hp
    have hlt : x.length % 256 < 256 := Nat.mod_lt _ (by decide)
    simp only [stringPieces, List.mem_cons, List.not_mem_nil, or_false] at hp
    rcases hp with rfl | rfl
    · exact (by decide : 1 < 256)
    · rw [List.length_take]
      omega
  intro p hp
  rw [payloadPieces, List.mem_append, List.mem_flatMap, List.mem_flatMap] at hp
  rcases hp with ⟨u, -, hp⟩ | ⟨e, he, hp⟩
  · simp only [userPieces, List.mem_append, List.mem_cons, List.not_mem_nil, or_false] at hp
    rcases hp with (hp | hp) | rfl | rfl | rfl
    · have := hstring _ p hp
      omega
    · have := hstring _ p hp
      omega
    · rw [le32_length]
      omega
    · rw [le32_length]
      omega
    · rw [le32_length]
      omega
  · obtain ⟨a, n, path, hn, hroom, rfl⟩ :=
      h.of_mem_listing kids h.kids_ids.1 h.kids_ids.2 e he
    have hcontents := contents_small (h.ok hn).data
    simp only [Entry.pieces, List.mem_append, List.mem_cons, List.not_mem_nil, or_false] at hp
    rcases hp with (rfl | rfl | rfl | rfl) | hp
    · rw [List.length_singleton]
      omega
    · rw [le16_length]
      omega
    · rw [le32_length]
      omega
    · omega
    · split at hp
      · cases hp
      · rw [List.mem_singleton] at hp
        rw [hp]
        omega

/-! ## The records -/

/-- The records of a snapshot, in their order. -/
def recordList (t : Table) (s : Fs) (kids : Forest Ptr) : List (List UInt8) :=
  (accounts t).map userRecord ++ (listing s kids).map Entry.bytes

/-- The sum of the lengths of the records. -/
def total (t : Table) (s : Fs) (kids : Forest Ptr) : Nat :=
  ((recordList t s kids).map List.length).sum

theorem payloadPieces_recordList (t : Table) (s : Fs) (kids : Forest Ptr) :
    (payloadPieces t s kids).flatten = (recordList t s kids).flatten := by
  rw [payloadPieces_flatten, records, recordList, List.flatten_append, List.flatMap_def,
    List.flatMap_def]

theorem total_eq (t : Table) (s : Fs) (kids : Forest Ptr) :
    (payloadPieces t s kids).flatten.length = total t s kids := by
  rw [payloadPieces_recordList, List.length_flatten, total]

/-! ## Saving -/

variable {env : Env} {ready : Nat → Bool} {sys : System}

/-- A save whose writer has its flag set stops there. -/
theorem persistSave_refused {w : Writer} {users nodes : Nat}
    (hsealed : sys.persist.isSealed = false) (hstate : sys.persist.state ≠ .noDisk)
    (halloc : (sys.fs.alloc env maxPayload).1 ≠ none)
    (hencode : encodeAll (sys.buffered env).fs sys.table = some (w, users, nodes))
    (hmissed : w.overflow = true) :
    persistSave env ready sys = some (-2, sys.buffered env) := by
  have hbuf : (sys.fs.alloc env maxPayload).1.isSome = true := Option.isSome_iff_ne_none.mpr halloc
  unfold System.buffered at hencode
  simp only [persistSave, hsealed, Bool.false_eq_true, if_false, hstate, System.tmpAlloc, hbuf,
    hencode, hmissed, if_true]
  rfl

/-- Behind the flag there are other codes. -/
theorem writeSnapshot_code (ready : Nat → Bool) (sys : System) (payload : List UInt8)
    (users nodes : Nat) :
    (writeSnapshot ready sys payload users nodes).1 ≠ -2 := by
  simp only [writeSnapshot]
  repeat' split
  all_goals simp

/-- **A save overflows exactly when it must.** Every call of `put_bytes` copies inside the buffer
or not at all. The save comes back with -2 and leaves the disks alone exactly if the records are
longer than the buffer together. Otherwise the buffer holds the records in their order, there is
room for the padding, and they are what goes to the disk. -/
theorem save_overflows_iff (hinv : TreeInv sys.fs root kids)
    (hsealed : sys.persist.isSealed = false) (hstate : sys.persist.state ≠ .noDisk)
    (halloc : (sys.fs.alloc env maxPayload).1 ≠ none) :
    CopiesInside (payloadPieces sys.table sys.fs kids) ∧
      encodeAll (sys.buffered env).fs sys.table =
        (putPieces emptyWriter (payloadPieces sys.table sys.fs kids)).map
          (fun w => (w, (accounts sys.table).length, (listing sys.fs kids).length)) ∧
      ∃ res sys', persistSave env ready sys = some (res, sys') ∧
        (res = -2 ∧ sys'.ata = sys.ata ↔ maxPayload < total sys.table sys.fs kids) ∧
        (res = -2 → sys'.ata = sys.ata) ∧
        (total sys.table sys.fs kids ≤ maxPayload → ∃ w,
          putPieces emptyWriter (payloadPieces sys.table sys.fs kids) = some w ∧
            w.overflow = false ∧ w.buffer = (recordList sys.table sys.fs kids).flatten ∧
            w.buffer.length = total sys.table sys.fs kids ∧
            w.buffer.length ≤ payloadCount w.buffer.length * ataSectorSize ∧
            payloadCount w.buffer.length * ataSectorSize ≤ maxPayload ∧
            writeSnapshot ready (sys.buffered env) w.buffer (accounts sys.table).length
              (listing sys.fs kids).length = (res, sys')) := by
  have hsmall := payloadPieces_small hinv sys.table
  obtain ⟨k, hk⟩ : ∃ k : Buffer UInt8 maxPayload,
    k = Buffer.empty.putAll (payloadPieces sys.table sys.fs kids) := ⟨_, rfl⟩
  have hput : putPieces emptyWriter (payloadPieces sys.table sys.fs kids) = some (ofBuffer k) := by
    have hrun : putPieces (ofBuffer Buffer.empty) (payloadPieces sys.table sys.fs kids) =
        some (ofBuffer (Buffer.empty.putAll (payloadPieces sys.table sys.fs kids))) :=
      putPieces_buffer hsmall
    rw [hk]
    exact hrun
  have hnodes : (sys.buffered env).fs.nodes = sys.fs.nodes := rfl
  have hbufs : (sys.buffered env).fs.bufs = sys.fs.bufs := rfl
  have hlist := listing_congr hnodes hbufs kids
  have hinv' : TreeInv (sys.buffered env).fs root kids := hinv.congr rfl rfl rfl rfl
  have hencode : encodeAll (sys.buffered env).fs sys.table =
      some (ofBuffer k, (accounts sys.table).length, (listing sys.fs kids).length) := by
    rw [encodeAll_buffer hinv' sys.table, payloadPieces, hlist, ← payloadPieces, ← hk]
  -- the flag
  have hmissed : k.missed = true ↔ maxPayload < total sys.table sys.fs kids := by
    rw [hk, Buffer.putAll_missed_iff rfl, total_eq]
    exact Iff.of_eq (congrArg _ (Nat.zero_add _))
  refine ⟨copiesInside_of_small hsmall, by rw [hput, hencode, Option.map_some], ?_⟩
  by_cases hlong : maxPayload < total sys.table sys.fs kids
  · refine ⟨-2, sys.buffered env,
      persistSave_refused hsealed hstate halloc hencode (hmissed.mpr hlong),
      ⟨fun _ => hlong, fun _ => ⟨rfl, rfl⟩⟩, fun _ => rfl, fun hle => ?_⟩
    omega
  · have hflag : k.missed = false := by
      rw [Bool.eq_false_iff]
      exact fun h => hlong (hmissed.mp h)
    have hsave := persistSave_writes ready hsealed hstate halloc hencode hflag
    have hcode := writeSnapshot_code ready (sys.buffered env) (ofBuffer k).buffer
      (accounts sys.table).length (listing sys.fs kids).length
    refine ⟨_, _, hsave, ⟨fun h => absurd h.1 hcode, fun h => absurd h hlong⟩,
      fun h => absurd h hcode, fun hle => ⟨ofBuffer k, hput, hflag, ?_⟩⟩
    have hfilled : (ofBuffer k).buffer = (recordList sys.table sys.fs kids).flatten := by
      rw [← payloadPieces_recordList]
      have hall := Buffer.putAll_filled (k := Buffer.empty) _ (hk ▸ hflag)
      rw [← hk] at hall
      exact hall
    have hlen : (ofBuffer k).buffer.length = total sys.table sys.fs kids := by
      rw [hfilled, List.length_flatten, total]
    have hcount := payloadCount_le (hlen ▸ hle)
    have hroom : 2048 * ataSectorSize = maxPayload := rfl
    have hpadded := Nat.mul_le_mul_right ataSectorSize hcount
    rw [hroom] at hpadded
    exact ⟨hfilled, hlen, le_payloadCount (hlen ▸ hle), hpadded, rfl⟩

/-- A file that is one byte longer than the buffer. -/
theorem save_overflows_iff_long : ∃ (sys sys' : System) (root : Ptr) (kids : Forest Ptr),
    TreeInv sys.fs root kids ∧ maxPayload < total sys.table sys.fs kids ∧
      persistSave .ample (fun _ => true) sys = some (-2, sys') ∧ sys'.ata = sys.ata := by
  have h : (skeleton.nodes.get 7).map FsNode.type = some .file := by decide +kernel
  obtain ⟨root, kids, hinv, -⟩ := skeleton_standing
  generalize skeleton = s₀ at h hinv
  obtain ⟨n, hn, htype⟩ := Option.map_eq_some_iff.mp h
  obtain ⟨data, hdata⟩ : ∃ data : List UInt8, data.length = maxPayload + 1 :=
    ⟨List.replicate (maxPayload + 1) 0, List.length_replicate⟩
  have hg : Env.ample.Grants (maxPayload + 66) := Env.ample_grants (by decide)
  have hsize : data.length + 65 ≤ maxPayload + 66 := by omega
  obtain ⟨s, -, hinv', hw⟩ := hinv.write_granted hg hn htype hsize (by decide)
  obtain ⟨n', hn', -, htype', hcontents, -⟩ := hw.node
  have hbelow : 7 ∈ kids.ids := by
    have hmem := hinv'.mem hn'
    rw [ids, ids, List.append_nil, List.mem_cons] at hmem
    rcases hmem with rfl | hmem
    · rw [hinv.rootDir hn] at htype
      cases htype
    · exact hmem
  obtain ⟨e, he, hedata⟩ := hinv'.mem_listing hn' kids hinv'.kids_ids.1 hinv'.kids_ids.2 hbelow
  have hlong : maxPayload < total usersInit s kids := by
    have hle : e.data.length ≤ (records (accounts usersInit) (listing s kids)).length :=
      data_le_records he
    rw [← payloadPieces_flatten, total_eq, hedata, hcontents, hdata] at hle
    exact hle
  obtain ⟨-, -, res, sys', hsave, hiff, -⟩ := @save_overflows_iff root kids .ample (fun _ => true)
    { blankDisk with fs := s, persist := { state := .empty } } hinv' rfl (by simp)
    (hg s.time s maxPayload (Nat.le_add_right _ _))
  obtain ⟨rfl, hata⟩ := hiff.mpr hlong
  exact ⟨_, sys', root, kids, hinv', hlong, hsave, hata⟩

end LightningOS.Persist
