import LightningOS.Properties.RoundTrip

/-!
# What a save writes

`listing` reads the node records off the tree in memory: every node but the root, depth
first, each with the path that `fs_abspath` writes for it. A payload that fitted is the
accounts of the table and then this list.

The paths are those of the nodes only as far as they are short. `Files.Carried` says that
they are, and that nothing else about the tree is lost on the way; then the list is the one
that a replay turns back into the tree.
-/

namespace LightningOS.Ramfs

open ByteMemory CString Forest

/-- The nodes of a forest, depth first, by the paths that are written for them. -/
def listing (s : Fs) : Forest Ptr → List Persist.Entry
  | .nil => []
  | .cons a ch rest =>
    match s.nodes.get a, fsAbspath s a fsPathMax with
    | some n, some path => ⟨n.type, path, contents s n⟩ :: (listing s ch ++ listing s rest)
    | _, _ => []

variable {s : Fs} {root : Ptr} {kids : Forest Ptr}

theorem listing_cons {a : Ptr} {n : FsNode} {path : List UInt8} (ch rest : Forest Ptr)
    (hn : s.nodes.get a = some n) (hpath : fsAbspath s a fsPathMax = some path) :
    listing s (cons a ch rest) =
      ⟨n.type, path, contents s n⟩ :: (listing s ch ++ listing s rest) := by
  rw [listing, hn, hpath]

/-- A path depends on the nodes. -/
theorem absParts_congr {s' : Fs} (hn : s'.nodes = s.nodes) : ∀ (room : Nat) (p : Ptr),
    absParts s' room p = absParts s room p := by
  intro room
  induction room with
  | zero => exact fun _ => rfl
  | succ room ih =>
    intro p
    simp only [absParts, hn, ih]

/-- The list depends on the nodes and the buffers. -/
theorem listing_congr {s' : Fs} (hn : s'.nodes = s.nodes) (hb : s'.bufs = s.bufs)
    (f : Forest Ptr) : listing s' f = listing s f := by
  induction f with
  | nil => rfl
  | cons a ch rest ihc ihr =>
    simp only [listing, fsAbspath, absParts_congr hn, hn, contents, hb, ihc, ihr]

theorem contents_length {n : FsNode} (h : DataOk s n) : (contents s n).length = n.size := by
  unfold DataOk at h
  rw [contents]
  cases hd : n.data with
  | none =>
    rw [hd] at h
    simp [h.1]
  | some d =>
    rw [hd] at h
    obtain ⟨buf, hbuf, hlen, hlt, -⟩ := h
    rw [Option.bind_some, hbuf, Option.getD_some, List.length_take]
    omega

theorem contents_small {n : FsNode} (h : DataOk s n) : (contents s n).length ≤ Mem.heapMaxSize := by
  rw [contents_length h]
  unfold DataOk at h
  cases hd : n.data with
  | none =>
    rw [hd] at h
    rw [h.1]
    exact Nat.zero_le _
  | some d =>
    rw [hd] at h
    obtain ⟨buf, -, -, hsize, hsmall⟩ := h
    omega

/-- The parts of a node that is not the root. -/
theorem TreeInv.path_of (h : TreeInv s root kids) {a : Ptr} {n : FsNode}
    (hn : s.nodes.get a = some n) (hroot : a ≠ root) :
    ∃ ns path, ns ≠ [] ∧ Located s a ns ∧ fsAbspath s a fsPathMax = some path ∧ path ≠ [] ∧
      path.length + 1 < fsPathMax := by
  obtain ⟨ns, hl⟩ := h.located (h.mem hn)
  have hns : ns ≠ [] := by
    rintro rfl
    have hr := hl.isRoot
    rw [h.isRoot, Option.some.injEq] at hr
    exact hroot hr.symm
  obtain ⟨out, k, habs, -, hout⟩ := abspath_eq h hl
  rcases hout with ⟨hnil, -⟩ | ⟨-, -, hpos⟩
  · exact absurd hnil hns
  · refine ⟨ns, out, hns, hl, habs, ?_, hl.abspath_room h hns habs⟩
    rintro rfl
    simp at hpos

/-- The nodes below the root. -/
theorem TreeInv.kids_ids (h : TreeInv s root kids) :
    kids.ids ⊆ (tree root kids).ids ∧ root ∉ kids.ids := by
  have hnodup := h.nodup
  simp only [ids, List.append_nil, List.nodup_cons] at hnodup
  exact ⟨fun x hx => by simp [hx], hnodup.1⟩

/-- Files have no children. -/
theorem TreeInv.below_file (h : TreeInv s root kids) {a : Ptr} {n : FsNode} {ch : Forest Ptr}
    (hn : s.nodes.get a = some n) (hfile : n.type = .file)
    (hrep : Forest.Rep (links s) (some a) ((links s).children a) ch) : ch = Forest.nil := by
  have hnone : (links s).children a = none := by
    simp [links, hn, (h.ok hn).file hfile]
  cases ch with
  | nil => rfl
  | cons b ch rest =>
    rw [hnone] at hrep
    exact absurd hrep.1 (by simp)

/-! ## Trees that are carried -/

/-- What a snapshot carries of the files below the directory of path `ns`: all of them, if the
paths are short, siblings have different names, and nothing is in a directory that walks take
for another. -/
def Files.Carried (ns : List (List UInt8)) : Files → Prop
  | .nil => True
  | .file name _ rest => Short (ns ++ [name]) ∧ name ∉ rest.names ∧ rest.Carried ns
  | .dir name ch rest =>
    Short (ns ++ [name]) ∧ name ∉ rest.names ∧ (ch ≠ .nil → name ≠ [dot] ∧ name ≠ [dot, dot]) ∧
      ch.Carried (ns ++ [name]) ∧ rest.Carried ns

/-- How many nodes there are. -/
def Files.size : Files → Nat
  | .nil => 0
  | .file _ _ rest => rest.size + 1
  | .dir _ ch rest => ch.size + rest.size + 1

/-- Names are C strings. -/
def ZeroFree (s : Fs) : Prop := ∀ {p n}, s.nodes.get p = some n → (0 : UInt8) ∉ n.name

/-- The first node of a forest in memory. -/
theorem TreeInv.files_cases (h : TreeInv s root kids) {a : Ptr} {ch rest : Forest Ptr}
    (hsub : (cons a ch rest).ids ⊆ (tree root kids).ids) :
    ∃ n, s.nodes.get a = some n ∧
      (n.type = .dir ∧ contents s n = [] ∧
          files s (cons a ch rest) = .dir n.name (files s ch) (files s rest) ∨
        n.type = .file ∧ files s (cons a ch rest) = .file n.name (contents s n) (files s rest)) := by
  obtain ⟨n, hn⟩ := h.get (hsub (by simp : a ∈ (cons a ch rest).ids))
  refine ⟨n, hn, ?_⟩
  rw [files_cons ch rest hn]
  cases htype : n.type with
  | dir =>
    have hnone := (h.ok hn).dir htype
    exact Or.inl ⟨rfl, by simp [contents, hnone], if_pos rfl⟩
  | file => exact Or.inr ⟨rfl, if_neg (by simp)⟩

theorem ids_below {a : Ptr} {ch rest : Forest Ptr} {ids : List Ptr}
    (hsub : (cons a ch rest).ids ⊆ ids) : a ∈ ids ∧ ch.ids ⊆ ids ∧ rest.ids ⊆ ids :=
  ⟨hsub (by simp), fun _ hx => hsub (by simp [hx]), fun _ hx => hsub (by simp [hx])⟩

/-- Every node of a forest in memory is in its files. -/
theorem TreeInv.files_size (h : TreeInv s root kids) (f : Forest Ptr) : ∀ {d : Ptr}
    {head : Option Ptr}, Forest.Rep (links s) (some d) head f → f.ids ⊆ (tree root kids).ids →
      (files s f).size = f.ids.length := by
  induction f with
  | nil =>
    intro d head _ _
    rfl
  | cons a ch rest ihc ihr =>
    intro d head hrep hsub
    obtain ⟨rfl, -, hbelow, hnext⟩ := hrep
    obtain ⟨-, hch, hrest⟩ := ids_below hsub
    obtain ⟨n, hn, hcase⟩ := h.files_cases hsub
    rw [ids, List.length_cons, List.length_append, ← ihr hnext hrest]
    rcases hcase with ⟨-, -, heq⟩ | ⟨htype, heq⟩
    · rw [heq, Files.size, ihc hbelow hch]
    · rw [heq, Files.size, h.below_file hn htype hbelow]
      simp

/-- The entries are those of nodes below the root. -/
theorem TreeInv.of_mem_listing (h : TreeInv s root kids) (f : Forest Ptr) :
    f.ids ⊆ (tree root kids).ids → root ∉ f.ids → ∀ e ∈ listing s f,
      ∃ a n path, s.nodes.get a = some n ∧ path.length < fsPathMax ∧
        e = ⟨n.type, path, contents s n⟩ := by
  induction f with
  | nil =>
    intro _ _ e he
    cases he
  | cons a ch rest ihc ihr =>
    intro hsub hroot e he
    obtain ⟨ha, hch, hrest⟩ := ids_below hsub
    simp only [ids, List.mem_cons, List.mem_append, not_or] at hroot
    obtain ⟨n, hn⟩ := h.get ha
    obtain ⟨-, path, -, -, hpath, -, hroom⟩ := h.path_of hn (Ne.symm hroot.1)
    rw [listing_cons ch rest hn hpath, List.mem_cons, List.mem_append] at he
    rcases he with rfl | he | he
    · exact ⟨a, n, path, hn, by omega, rfl⟩
    · exact ihc hch hroot.2.1 e he
    · exact ihr hrest hroot.2.2 e he

/-- Every node below the root has an entry. -/
theorem TreeInv.mem_listing (h : TreeInv s root kids) {a : Ptr} {n : FsNode}
    (hn : s.nodes.get a = some n) (f : Forest Ptr) :
    f.ids ⊆ (tree root kids).ids → root ∉ f.ids → a ∈ f.ids →
      ∃ e ∈ listing s f, e.data = contents s n := by
  induction f with
  | nil =>
    intro _ _ ha
    simp at ha
  | cons b ch rest ihc ihr =>
    intro hsub hroot ha
    obtain ⟨hb, hch, hrest⟩ := ids_below hsub
    simp only [ids, List.mem_cons, List.mem_append, not_or] at hroot
    obtain ⟨m, hm⟩ := h.get hb
    obtain ⟨-, path, -, -, hpath, -⟩ := h.path_of hm (Ne.symm hroot.1)
    rw [listing_cons ch rest hm hpath]
    simp only [ids, List.mem_cons, List.mem_append] at ha
    rcases ha with rfl | ha | ha
    · rw [hn] at hm
      obtain rfl := Option.some.inj hm
      exact ⟨_, List.mem_cons_self, rfl⟩
    · obtain ⟨e, he, hdata⟩ := ihc hch hroot.2.1 ha
      exact ⟨e, List.mem_cons_of_mem _ (List.mem_append_left _ he), hdata⟩
    · obtain ⟨e, he, hdata⟩ := ihr hrest hroot.2.2 ha
      exact ⟨e, List.mem_cons_of_mem _ (List.mem_append_right _ he), hdata⟩

/-- Only an empty forest has an empty list. -/
theorem files_nil_of_listing (h : TreeInv s root kids) {f : Forest Ptr}
    (hsub : f.ids ⊆ (tree root kids).ids) (hroot : root ∉ f.ids) (hnil : listing s f = []) :
    files s f = .nil := by
  cases f with
  | nil => rfl
  | cons a ch rest =>
    simp only [ids, List.mem_cons, List.mem_append, not_or] at hroot
    obtain ⟨n, hn⟩ := h.get (ids_below hsub).1
    obtain ⟨ns, path, -, -, hpath, -⟩ := h.path_of hn (Ne.symm hroot.1)
    rw [listing_cons ch rest hn hpath] at hnil
    simp at hnil

/-- A tree that is carried can be restored. -/
theorem TreeInv.restorable (h : TreeInv s root kids) (h0 : ZeroFree s) (f : Forest Ptr) :
    ∀ {ns : List (List UInt8)}, f.ids ⊆ (tree root kids).ids → root ∉ f.ids →
      (files s f).Carried ns → (files s f).Restorable ns := by
  induction f with
  | nil =>
    intro ns _ _ _
    trivial
  | cons a ch rest ihc ihr =>
    intro ns hsub hroot hcarried
    obtain ⟨-, hch, hrest⟩ := ids_below hsub
    simp only [ids, List.mem_cons, List.mem_append, not_or] at hroot
    obtain ⟨n, hn, hcase⟩ := h.files_cases hsub
    have hfits : Short (ns ++ [n.name]) → Fits ns n.name := fun hshort =>
      ⟨h.names hn (Ne.symm hroot.1), h0 hn, Nat.lt_of_succ_lt hshort.2⟩
    rcases hcase with ⟨-, -, heq⟩ | ⟨-, heq⟩
    · rw [heq] at hcarried ⊢
      obtain ⟨hshort, hother, hplain, hbelow, hnext⟩ := hcarried
      exact ⟨hfits hshort, hother, hplain, ihc hch hroot.2.1 hbelow, ihr hrest hroot.2.2 hnext⟩
    · rw [heq] at hcarried ⊢
      obtain ⟨hshort, hother, hnext⟩ := hcarried
      exact ⟨hfits hshort, hother, ihr hrest hroot.2.2 hnext⟩

/-- **The list of a tree that is carried** is the one that a replay turns into the tree. -/
theorem TreeInv.listing_eq (h : TreeInv s root kids) (f : Forest Ptr) : ∀ {d : Ptr}
    {head : Option Ptr} {ns : List (List UInt8)}, Forest.Rep (links s) (some d) head f →
    f.ids ⊆ (tree root kids).ids → Located s d ns → (files s f).Carried ns →
      listing s f = (files s f).entries ns := by
  induction f with
  | nil =>
    intro d head ns _ _ _ _
    rfl
  | cons a ch rest ihc ihr =>
    intro d head ns hrep hsub hd hcarried
    obtain ⟨rfl, hparent, hbelow, hnext⟩ := hrep
    obtain ⟨-, hch, hrest⟩ := ids_below hsub
    obtain ⟨n, hn, hcase⟩ := h.files_cases hsub
    have hup : n.parent = some d := by simpa [links, hn] using hparent
    have hl : Located s a (ns ++ [n.name]) := .child hd hn hup
    have hne : ns ++ [n.name] ≠ [] := by simp
    have hpath : Short (ns ++ [n.name]) →
        fsAbspath s a fsPathMax = some (joinPath (ns ++ [n.name])) := by
      intro hshort
      rw [hshort.fsAbspath h hl, if_neg hne]
    rcases hcase with ⟨htype, hempty, heq⟩ | ⟨htype, heq⟩
    · rw [heq] at hcarried ⊢
      obtain ⟨hshort, -, -, hbelow', hnext'⟩ := hcarried
      rw [listing_cons ch rest hn (hpath hshort), Files.entries, htype, hempty,
        ihc hbelow hch hl hbelow', ihr hnext hrest hd hnext']
    · rw [heq] at hcarried ⊢
      obtain ⟨hshort, -, hnext'⟩ := hcarried
      rw [listing_cons ch rest hn (hpath hshort), Files.entries, htype,
        h.below_file hn htype hbelow, ihr hnext hrest hd hnext']
      rfl

end LightningOS.Ramfs

namespace LightningOS.Persist

open ByteMemory CString Ramfs Users Ata Forest

variable {s : Fs} {root : Ptr} {kids : Forest Ptr}

/-- The length in a record is that of the contents. -/
theorem dataLength_contents {n : FsNode} (h : NodeOk s n) :
    dataLength n = (contents s n).length := by
  rw [contents_length h.data]
  cases htype : n.type with
  | file => rw [dataLength, if_pos htype]
  | dir =>
    have hdata := h.data
    unfold DataOk at hdata
    rw [h.dir htype] at hdata
    rw [dataLength, if_neg (by simp [htype]), hdata.1]

/-- The calls of `put_bytes` for a node. -/
def Entry.pieces (e : Entry) : List (List UInt8) :=
  [[if e.type = .dir then kindDir else kindFile], le16 e.path.length, le32 e.data.length, e.path] ++
    (if e.data = [] then [] else [e.data])

theorem Entry.pieces_flatten (e : Entry) : e.pieces.flatten = e.bytes := by
  by_cases h : e.data = []
  · simp [pieces, bytes, h]
  · simp [pieces, bytes, h]

/-- A node of the tree is written as the pieces of its entry. -/
theorem writeNode_buffer {a : Ptr} {n : FsNode} {path : List UInt8} (h : NodeOk s n)
    (hn : s.nodes.get a = some n) (hpath : fsAbspath s a fsPathMax = some path) (hne : path ≠ [])
    (hroom : path.length < fsPathMax) (k : Buffer UInt8 maxPayload) (count : Nat) :
    writeNode s (ofBuffer k) a count =
      some (ofBuffer (k.putAll (Entry.pieces ⟨n.type, path, contents s n⟩)), count + 1) := by
  have hmax : fsPathMax = 256 := rfl
  have hpay : maxPayload = 1048576 := rfl
  have hheap : Mem.heapMaxSize = 33554432 := rfl
  have hmod : path.length % 65536 = path.length := Nat.mod_eq_of_lt (by omega)
  have hlength := dataLength_contents h
  have hhead : ∀ k : Buffer UInt8 maxPayload, putBytes (ofBuffer k) path path.length =
      some (ofBuffer (k.put path)) := by
    intro k
    rw [putBytes_buffer k (Nat.le_refl _) (by omega), List.take_length]
  unfold writeNode
  simp only [hpath, hn, Option.bind_eq_bind, Option.bind_some, if_neg hne, ← dataLength.eq_1,
    putU8_buffer, putU16_buffer, putU32_buffer, hmod, hhead, hlength]
  cases hd : n.data with
  | none =>
    have hempty : contents s n = [] := by simp [contents, hd]
    rw [Entry.pieces, if_pos hempty]
    rfl
  | some d =>
    by_cases hempty : contents s n = []
    · rw [Entry.pieces, if_pos hempty]
      simp only [hempty, List.length_nil, if_true]
      rfl
    · have hdata := h.data
      unfold DataOk at hdata
      rw [hd] at hdata
      obtain ⟨buf, hbuf, hlen, hsize, hsmall⟩ := hdata
      have hsame : (contents s n).length = n.size := contents_length h.data
      have htake : buf.take (contents s n).length = contents s n := by
        rw [hsame, contents, hd, Option.bind_some, hbuf, Option.getD_some]
      have hpos : (contents s n).length ≠ 0 := by
        rwa [ne_eq, List.length_eq_zero_iff]
      simp only [if_neg hpos, hbuf, Option.bind_some]
      rw [putBytes_buffer _ (by omega) (by omega), htake, Entry.pieces, if_neg hempty]
      rfl

/-- **The writer lists the tree depth first.** -/
theorem writeTree_buffer (h : TreeInv s root kids) (f : Forest Ptr) : ∀ {d : Ptr}
    {head : Option Ptr} {fuel : Nat} (k : Buffer UInt8 maxPayload) (count : Nat),
    Forest.Rep (links s) (some d) head f → f.ids ⊆ (tree root kids).ids → root ∉ f.ids →
      f.ids.length ≤ fuel →
      writeTree s fuel head (ofBuffer k) count =
        some (ofBuffer (k.putAll ((listing s f).flatMap Entry.pieces)),
          count + (listing s f).length) := by
  induction f with
  | nil =>
    intro d head fuel k count hrep _ _ _
    obtain rfl : head = none := hrep
    rw [writeTree]
    rfl
  | cons a ch rest ihc ihr =>
    intro d head fuel k count hrep hsub hroot hfuel
    obtain ⟨rfl, -, hch, hrest⟩ := hrep
    obtain ⟨ha, hsubch, hsubrest⟩ := ids_below hsub
    simp only [ids, List.mem_cons, List.mem_append, not_or] at hroot
    rw [ids, List.length_cons, List.length_append] at hfuel
    obtain ⟨n, hn⟩ := h.get ha
    obtain ⟨ns, path, -, -, hpath, hne, hroom⟩ := h.path_of hn (Ne.symm hroot.1)
    have hnext : (links s).next a = n.next := by simp [links, hn]
    have hdown : (links s).children a = n.children := by simp [links, hn]
    rw [hnext] at hrest
    rw [listing_cons ch rest hn hpath, List.flatMap_cons, List.flatMap_append, Buffer.putAll_append,
      Buffer.putAll_append, List.length_cons, List.length_append]
    cases fuel with
    | zero => omega
    | succ fuel =>
      rw [writeTree]
      simp only [writeNode_buffer (h.ok hn) hn hpath hne (by omega) k count, hn]
      obtain ⟨k₁, hk₁⟩ : ∃ k₁, k₁ = k.putAll (Entry.pieces ⟨n.type, path, contents s n⟩) := ⟨_, rfl⟩
      rw [← hk₁]
      -- the children, if it is a directory
      have hbelow : (if n.type = .dir then writeTree s fuel n.children (ofBuffer k₁) (count + 1)
          else some (ofBuffer k₁, count + 1)) =
          some (ofBuffer (k₁.putAll ((listing s ch).flatMap Entry.pieces)),
            count + 1 + (listing s ch).length) := by
        cases htype : n.type with
        | dir =>
          rw [hdown] at hch
          rw [if_pos rfl]
          exact ihc k₁ (count + 1) hch hsubch hroot.2.1 (by omega)
        | file =>
          rw [h.below_file hn htype hch, if_neg (by simp)]
          rfl
      rw [hbelow]
      simp only
      rw [ihr _ _ hrest hsubrest hroot.2.2 (by omega)]
      simp only [Option.some.injEq, Prod.mk.injEq, true_and]
      omega

/-- Looking up one index after the other gives the whole list. -/
theorem filterMap_range {α β : Type} (g : α → β) (l : List α) :
    (List.range l.length).filterMap (fun i => l[i]?.map g) = l.map g := by
  induction l with
  | nil => rfl
  | cons x xs ih =>
    rw [List.length_cons, List.range_succ_eq_map, List.filterMap_cons, List.filterMap_map]
    simp only [List.getElem?_cons_zero, Option.map_some, List.map_cons]
    exact congrArg _ ih

/-- The calls of `put_bytes` for a payload: the accounts of the table, and then the nodes. -/
def payloadPieces (t : Table) (s : Fs) (kids : Forest Ptr) : List (List UInt8) :=
  (accounts t).flatMap userPieces ++ (listing s kids).flatMap Entry.pieces

/-- **The writer puts these pieces into its buffer, one after the other.** -/
theorem encodeAll_buffer (h : TreeInv s root kids) (t : Table) :
    encodeAll s t = some (ofBuffer (Buffer.empty.putAll (payloadPieces t s kids)),
      (accounts t).length, (listing s kids).length) := by
  have hall : (List.range (usersCount t)).filterMap (usersAt t) = accounts t :=
    filterMap_range t.users (activeSlots t)
  have husers := putUsers_buffer t (List.range (usersCount t)) Buffer.empty 0
  rw [hall, Nat.zero_add] at husers
  obtain ⟨rn, hrn⟩ := h.get h.root_mem
  have hkids : Forest.Rep (links s) (some root) rn.children kids := by
    have hrep := h.rep.2.2.1
    have hdown : (links s).children root = rn.children := by simp [links, hrn]
    rwa [hdown] at hrep
  obtain ⟨hsub, hroot⟩ := h.kids_ids
  have hle := h.length_le
  have hfuel : kids.ids.length ≤ s.nodes.brk + 1 := by
    rw [ids, ids, List.append_nil, List.length_cons] at hle
    omega
  have htree := writeTree_buffer h kids (Buffer.empty.putAll ((accounts t).flatMap userPieces)) 0
    hkids hsub hroot hfuel
  rw [Nat.zero_add] at htree
  have hstart : ({ buffer := [], capacity := maxPayload, overflow := false } : Writer) =
      ofBuffer Buffer.empty := rfl
  simp only [encodeAll, hstart, husers, h.isRoot, hrn, htree, Option.bind_eq_bind,
    Option.bind_some]
  rw [payloadPieces, Buffer.putAll_append]

theorem payloadPieces_flatten (t : Table) (s : Fs) (kids : Forest Ptr) :
    (payloadPieces t s kids).flatten = records (accounts t) (listing s kids) := by
  rw [payloadPieces, List.flatten_append, ← List.flatMap_id, ← List.flatMap_id,
    List.flatMap_assoc, List.flatMap_assoc]
  simp only [List.flatMap_id, userPieces_flatten, Entry.pieces_flatten]
  rfl

/-- **The payload of a save**: the accounts of the table, and the list of the nodes. -/
theorem encodeAll_listing (h : TreeInv s root kids) {t : Table} {w : Writer} {users nodes : Nat}
    (hrun : encodeAll s t = some (w, users, nodes)) (hfits : w.overflow = false) :
    w.buffer = (accounts t).flatMap userRecord ++ (listing s kids).flatMap Entry.bytes ∧
      users = (accounts t).length ∧ nodes = (listing s kids).length := by
  rw [encodeAll_buffer h t] at hrun
  simp only [Option.some.injEq, Prod.mk.injEq] at hrun
  obtain ⟨rfl, rfl, rfl⟩ := hrun
  have hfilled := Buffer.putAll_filled _ hfits
  rw [payloadPieces_flatten] at hfilled
  exact ⟨hfilled, rfl, rfl⟩

end LightningOS.Persist
