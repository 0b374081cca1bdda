import LightningOS.Properties.Reach
import LightningOS.Properties.Records

/-!
# Replaying a tree

`Files` is a file tree by what it says: names, contents and the order of the children.
`files` reads it off the nodes in memory, and `Files.entries` lists it depth first, every
node by its path.

A mount replays such a list. `Grown` is the step of the replay: below one directory a
forest was added behind the children that were there, and everything else is as it was.
It composes in two ways, along a list of siblings and from a node to what is below it,
and with the two the replay of a list builds the tree that was listed.
-/

namespace LightningOS.Ramfs

open ByteMemory CString Forest

/-! ## Trees by their contents -/

/-- A list of files and directories. -/
inductive Files where
  | nil
  | file (name data : List UInt8) (rest : Files)
  | dir (name : List UInt8) (children rest : Files)
  deriving DecidableEq, Repr

/-- The names of the first level. -/
def Files.names : Files → List (List UInt8)
  | .nil => []
  | .file name _ rest => name :: rest.names
  | .dir name _ rest => name :: rest.names

/-- The nodes of a forest in memory, by their contents. -/
def files (s : Fs) : Forest Ptr → Files
  | .nil => .nil
  | .cons a ch rest =>
    match s.nodes.get a with
    | none => .nil
    | some n =>
      if n.type = .dir then .dir n.name (files s ch) (files s rest)
      else .file n.name (contents s n) (files s rest)

/-- The nodes below the directory of path `ns`, depth first. -/
def Files.entries (ns : List (List UInt8)) : Files → List Persist.Entry
  | .nil => []
  | .file name data rest => ⟨.file, joinPath (ns ++ [name]), data⟩ :: rest.entries ns
  | .dir name ch rest =>
    ⟨.dir, joinPath (ns ++ [name]), []⟩ :: (ch.entries (ns ++ [name]) ++ rest.entries ns)

/-- A name that fits a node and, with the path `ns` in front of it, a record. -/
structure Fits (ns : List (List UInt8)) (name : List UInt8) : Prop where
  isName : IsName name
  name0 : (0 : UInt8) ∉ name
  path : (joinPath (ns ++ [name])).length < fsPathMax

/-- What a replay below `ns` can build: the names fit and siblings have different ones, and
nothing is in a directory that walks take for another. -/
def Files.Restorable (ns : List (List UInt8)) : Files → Prop
  | .nil => True
  | .file name _ rest => Fits ns name ∧ name ∉ rest.names ∧ rest.Restorable ns
  | .dir name ch rest =>
    Fits ns name ∧ name ∉ rest.names ∧ (ch ≠ .nil → name ≠ [dot] ∧ name ≠ [dot, dot]) ∧
      ch.Restorable (ns ++ [name]) ∧ rest.Restorable ns

/-- What the snapshot of a tree may look like: names of their own on every level, none of them
one of the two that a walk takes for another directory, and paths that fit. -/
def Files.Valid (ns : List (List UInt8)) : Files → Prop
  | .nil => True
  | .file name _ rest =>
    Fits ns name ∧ name ≠ [dot] ∧ name ≠ [dot, dot] ∧ name ∉ rest.names ∧ rest.Valid ns
  | .dir name ch rest =>
    Fits ns name ∧ name ≠ [dot] ∧ name ≠ [dot, dot] ∧ name ∉ rest.names ∧
      ch.Valid (ns ++ [name]) ∧ rest.Valid ns

theorem Files.Valid.restorable (f : Files) : ∀ {ns : List (List UInt8)}, f.Valid ns →
    f.Restorable ns := by
  induction f with
  | nil =>
    intro ns _
    trivial
  | file name data rest ih =>
    rintro ns ⟨hfits, -, -, hother, hrest⟩
    exact ⟨hfits, hother, ih hrest⟩
  | dir name ch rest ihc ihr =>
    rintro ns ⟨hfits, h1, h2, hother, hch, hrest⟩
    exact ⟨hfits, hother, fun _ => ⟨h1, h2⟩, ihc hch, ihr hrest⟩

variable {env : Env} {s s' s₁ s₂ : Fs} {root : Ptr} {kids kids' kids₁ kids₂ : Forest Ptr}

theorem files_cons {a : Ptr} {n : FsNode} (ch rest : Forest Ptr) (hn : s.nodes.get a = some n) :
    files s (cons a ch rest) =
      if n.type = .dir then .dir n.name (files s ch) (files s rest)
      else .file n.name (contents s n) (files s rest) := by
  rw [files, hn]

/-! ## When memory is there -/

/-- Requests for up to `size` bytes are granted. -/
def Env.Grants (env : Env) (size : Nat) : Prop :=
  ∀ t s n, n ≤ size → env.kmalloc t s n ≠ none

theorem Env.ample_grants {size : Nat} (h : size + 27 ≤ Mem.heapMaxSize) :
    Env.ample.Grants size := by
  intro t s n hn
  have hle : Mem.roundUp n + Mem.sizeofBlock ≤ Mem.heapMaxSize := by
    have hround := Mem.roundUp_le n
    have hheader : Mem.sizeofBlock = 20 := rfl
    omega
  simp [Env.ample, hle]

/-- In a directory without a child of that name, `fs_create` makes one. -/
theorem TreeInv.create_granted (h : TreeInv s root kids) (hg : env.Grants sizeofFsNode)
    {path comp : List UInt8} (type : FsType) {d : Ptr} {dn : FsNode}
    (hw : Ramfs.walk s path true = some (some d, comp)) (hd : s.nodes.get d = some dn)
    (hdir : dn.type = .dir) (hname : IsName comp)
    (hnew : ∀ {q m}, s.nodes.get q = some m → m.parent = some d → m.name ≠ comp) :
    ∃ p s' kids', Ramfs.fsCreate env s path type = some (some p, s') ∧
      CreatedIn s s' root kids kids' d p comp type := by
  have hmem : ∀ q, some d = some q → q ∈ (tree root kids).ids := by
    rintro q ⟨⟩
    exact h.mem hd
  obtain ⟨r, s', hrun, hres⟩ := h.create env type hw hmem (Or.inr hname)
  rcases hres with ⟨rfl, t, rfl⟩ | ⟨d', p, kids', hd', rfl, hin⟩
  · -- only an allocation can fail here
    exfalso
    have h₁ : TreeInv { s with time := s.time + 1 } root kids := h.congr rfl rfl rfl rfl
    have hfind : Ramfs.findChild { s with time := s.time + 1 } (some d)
        (lastText (env.junk s.time) comp) = some none := by
      rw [h₁.find?_eq_none hd hdir]
      intro q m hq hparent
      rcases lastText_cases (env.junk s.time) hname with heq | ⟨hlen, hjunk, heq⟩
      · rw [heq]
        exact hnew hq hparent
      · -- no name is as long as the text that was looked for
        intro hm
        have hle := h.name_length hq hparent
        have hpos := List.length_pos_iff.mpr hjunk
        rw [hm, heq, List.length_append] at hle
        omega
    have hok : ¬(dn.type ≠ .dir ∨ lastText (env.junk s.time) comp = []) := by
      rintro (hne | hnil)
      · exact hne hdir
      · exact lastText_ne_nil _ hname hnil
    unfold Ramfs.fsCreate at hrun
    simp only [hw, hd, if_neg hok, hfind] at hrun
    exact hg _ _ _ (Nat.le_refl _) (nodeNew_alloc hrun).symm
  · obtain rfl := Option.some.inj hd'
    exact ⟨p, s', kids', hrun, hin⟩

theorem TreeInv.write_granted (h : TreeInv s root kids) {size : Nat} (hg : env.Grants size)
    {f : Ptr} {n : FsNode} (hn : s.nodes.get f = some n) (hfile : n.type = .file)
    {data : List UInt8} (hsize : data.length + 65 ≤ size) (hsmall : size ≤ 0xFFFFFFF8) :
    ∃ s', fsWriteN env s (some f) data data.length false = some (0, s') ∧
      TreeInv s' root kids ∧ Written s s' f n data := by
  have hroom : (if false = true then n.size else 0) + data.length + 65 ≤ 0xFFFFFFF8 := by
    simp only [Bool.false_eq_true, if_false]
    omega
  obtain ⟨res, s', hrun, hres⟩ := h.write env hn hfile (Nat.le_refl data.length) false hroom
  rcases hres with ⟨rfl, -⟩ | ⟨rfl, hinv, hw⟩
  · have hnone := fsWriteN_failed hn hfile hrun
    refine absurd hnone (hg _ _ _ ?_)
    rw [if_neg Bool.false_ne_true]
    unfold wrap32
    omega
  · refine ⟨s', hrun, hinv, ?_⟩
    simpa using hw

/-! ## Walks that do not change -/

/-- A walk depends on the tree and on the names, types and parents. -/
theorem TreeInv.follow_congr (h : TreeInv s root kids) (h' : TreeInv s' root kids)
    (hnode : ∀ {q n}, s.nodes.get q = some n → ∃ n', s'.nodes.get q = some n' ∧
      n'.name = n.name ∧ n'.type = n.type ∧ n'.parent = n.parent) (names : List (List UInt8)) :
    ∀ {x : Ptr}, x ∈ (tree root kids).ids →
      Ramfs.follow s' (some x) names = Ramfs.follow s (some x) names := by
  have hhas : ∀ (name : List UInt8) (f : Forest Ptr), f.ids ⊆ (tree root kids).ids →
      f.tops.find? (hasName s' name) = f.tops.find? (hasName s name) := by
    intro name f hsub
    refine List.find?_congr fun q hq => ?_
    obtain ⟨n, hn⟩ := h.get (hsub (tops_subset f hq))
    obtain ⟨n', hn', hname, -, -⟩ := hnode hn
    simp [hasName, hn, hn', hname]
  induction names with
  | nil =>
    intro x _
    rfl
  | cons name names ih =>
    intro x hx
    obtain ⟨n, hn⟩ := h.get hx
    obtain ⟨n', hn', -, htype, hparent⟩ := hnode hn
    have hup : Ramfs.parentOrRoot s' (some x) = Ramfs.parentOrRoot s (some x) := by
      unfold Ramfs.parentOrRoot
      simp only [hn, hn', hparent, h.isRoot, h'.isRoot]
    have hchild : Ramfs.findChild s' (some x) name = Ramfs.findChild s (some x) name := by
      obtain ⟨ch, hch, -⟩ := h.sub hn
      rw [h.findChild hn hch, h'.findChild hn' hch, htype, hhas name ch (sub_subset hch)]
    rw [Ramfs.follow, Ramfs.follow, hup, hchild]
    split
    · exact ih hx
    · split
      · obtain ⟨up, hup', hmem⟩ := h.parentOrRoot hx
        rw [hup']
        exact ih hmem
      · cases hc : Ramfs.findChild s (some x) name with
        | none => rfl
        | some r =>
          cases r with
          | none => rfl
          | some c => exact ih (h.findChild_mem hx hc)

/-- What a walk sees of a node stays when a file is written. -/
theorem Written.sees {f : Ptr} {n : FsNode} {txt : List UInt8} (hw : Written s s' f n txt)
    (hf : s.nodes.get f = some n) {q : Ptr} {m : FsNode} (hm : s.nodes.get q = some m) :
    ∃ m', s'.nodes.get q = some m' ∧ m'.name = m.name ∧ m'.type = m.type ∧
      m'.parent = m.parent := by
  by_cases hq : q = f
  · subst hq
    rw [hf] at hm
    obtain rfl := Option.some.inj hm
    obtain ⟨n', hn', hname, htype, -, -⟩ := hw.node
    exact ⟨n', hn', hname, htype, hw.parent hn'⟩
  · exact ⟨m, (hw.other hq).trans hm, rfl, rfl, rfl⟩

/-! ## What a replay adds -/

/-- Below `d`, the forest `g` was added, its first level with these names. All that was there
before is there, and paths lead where they led. -/
structure Grown (s s' : Fs) (root : Ptr) (kids kids' : Forest Ptr) (d : Ptr) (g : Forest Ptr)
    (names : List (List UInt8)) : Prop where
  inv : TreeInv s' root kids'
  eq : tree root kids' = (tree root kids).update d (·.append g)
  cwd : s'.currentDir = s.currentDir
  kept : ∀ {q n}, s.nodes.get q = some n → ∃ n', s'.nodes.get q = some n' ∧ n'.name = n.name ∧
    n'.type = n.type ∧ n'.parent = n.parent ∧ contents s' n' = contents s n
  follow : ∀ {ns q}, Ramfs.follow s (some root) ns = some (some q) →
    Ramfs.follow s' (some root) ns = some (some q)
  live : ∀ {q}, q ∈ g.ids → ∃ n, s'.nodes.get q = some n
  born : ∀ {q n}, s'.nodes.get q = some n → s.nodes.get q = none →
    ∃ u, n.parent = some u ∧ (u = d ∧ n.name ∈ names ∨ s.nodes.get u = none)

theorem Grown.refl (h : TreeInv s root kids) (d : Ptr) :
    Grown s s root kids kids d Forest.nil [] where
  inv := h
  eq := (update_id append_nil _).symm
  cwd := rfl
  kept hn := ⟨_, hn, rfl, rfl, rfl, rfl⟩
  follow hq := hq
  live hq := by simp at hq
  born hn hnone := by simp [hn] at hnone

theorem Grown.unborn {d : Ptr} {g : Forest Ptr} {names : List (List UInt8)}
    (h : Grown s s' root kids kids' d g names) {q : Ptr} (hq : s'.nodes.get q = none) :
    s.nodes.get q = none := by
  cases hn : s.nodes.get q with
  | none => rfl
  | some n =>
    obtain ⟨n', hn', -⟩ := h.kept hn
    rw [hq] at hn'
    simp at hn'

theorem Grown.live_kept {d : Ptr} {g : Forest Ptr} {names : List (List UInt8)}
    (h : Grown s s' root kids kids' d g names) {q : Ptr} (hq : ∃ n, s.nodes.get q = some n) :
    ∃ n, s'.nodes.get q = some n := by
  obtain ⟨n, hn⟩ := hq
  obtain ⟨n', hn', -⟩ := h.kept hn
  exact ⟨n', hn'⟩

/-- Two steps below the same directory. -/
theorem Grown.trans {d : Ptr} {g₁ g₂ : Forest Ptr} {names₁ names₂ : List (List UInt8)}
    (h₁ : Grown s s₁ root kids kids₁ d g₁ names₁)
    (h₂ : Grown s₁ s₂ root kids₁ kids₂ d g₂ names₂) :
    Grown s s₂ root kids kids₂ d (g₁.append g₂) (names₁ ++ names₂) where
  inv := h₂.inv
  eq := by
    rw [h₂.eq, h₁.eq, update_update]
    simp only [append_assoc]
  cwd := h₂.cwd.trans h₁.cwd
  kept hn := by
    obtain ⟨n₁, hn₁, hname₁, htype₁, hparent₁, htext₁⟩ := h₁.kept hn
    obtain ⟨n₂, hn₂, hname₂, htype₂, hparent₂, htext₂⟩ := h₂.kept hn₁
    exact ⟨n₂, hn₂, hname₂.trans hname₁, htype₂.trans htype₁, hparent₂.trans hparent₁,
      htext₂.trans htext₁⟩
  follow hq := h₂.follow (h₁.follow hq)
  live hq := by
    rw [ids_append] at hq
    rcases List.mem_append.mp hq with hq | hq
    · exact h₂.live_kept (h₁.live hq)
    · exact h₂.live hq
  born {q n} hn hnone := by
    cases hq : s₁.nodes.get q with
    | none =>
      obtain ⟨u, hu, ⟨rfl, hname⟩ | hnew⟩ := h₂.born hn hq
      · exact ⟨u, hu, Or.inl ⟨rfl, List.mem_append_right _ hname⟩⟩
      · exact ⟨u, hu, Or.inr (h₁.unborn hnew)⟩
    | some n₁ =>
      obtain ⟨n₂, hn₂, hname, -, hparent, -⟩ := h₂.kept hq
      rw [hn] at hn₂
      obtain rfl := Option.some.inj hn₂
      obtain ⟨u, hu, ⟨rfl, hmem⟩ | hnew⟩ := h₁.born hq hnone
      · exact ⟨u, hparent.trans hu, Or.inl ⟨rfl, List.mem_append_left _ (hname ▸ hmem)⟩⟩
      · exact ⟨u, hparent.trans hu, Or.inr hnew⟩

/-- A new node, and then a step below it. -/
theorem Grown.nest {d p : Ptr} {c : Forest Ptr} {name : List UInt8} {names : List (List UInt8)}
    (h : TreeInv s root kids) (hp : s.nodes.get p = none)
    (h₁ : Grown s s₁ root kids kids₁ d (single p) [name])
    (h₂ : Grown s₁ s₂ root kids₁ kids₂ p c names) :
    Grown s s₂ root kids kids₂ d (cons p c Forest.nil) [name] where
  inv := h₂.inv
  eq := by
    have hfresh : p ∉ (tree root kids).ids := by
      intro hmem
      obtain ⟨n, hn⟩ := h.get hmem
      rw [hp] at hn
      simp at hn
    rw [h₂.eq, h₁.eq, update_new c hfresh]
  cwd := h₂.cwd.trans h₁.cwd
  kept hn := by
    obtain ⟨n₁, hn₁, hname₁, htype₁, hparent₁, htext₁⟩ := h₁.kept hn
    obtain ⟨n₂, hn₂, hname₂, htype₂, hparent₂, htext₂⟩ := h₂.kept hn₁
    exact ⟨n₂, hn₂, hname₂.trans hname₁, htype₂.trans htype₁, hparent₂.trans hparent₁,
      htext₂.trans htext₁⟩
  follow hq := h₂.follow (h₁.follow hq)
  live {q} hq := by
    rcases List.mem_cons.mp hq with rfl | hq
    · exact h₂.live_kept (h₁.live (by simp))
    · exact h₂.live (by simpa using hq)
  born {q n} hn hnone := by
    cases hq : s₁.nodes.get q with
    | none =>
      obtain ⟨u, hu, ⟨rfl, -⟩ | hnew⟩ := h₂.born hn hq
      · exact ⟨u, hu, Or.inr hp⟩
      · exact ⟨u, hu, Or.inr (h₁.unborn hnew)⟩
    | some n₁ =>
      obtain ⟨n₂, hn₂, hname, -, hparent, -⟩ := h₂.kept hq
      rw [hn] at hn₂
      obtain rfl := Option.some.inj hn₂
      obtain ⟨u, hu, ⟨rfl, hmem⟩ | hnew⟩ := h₁.born hq hnone
      · exact ⟨u, hparent.trans hu, Or.inl ⟨rfl, hname ▸ hmem⟩⟩
      · exact ⟨u, hparent.trans hu, Or.inr hnew⟩

/-- What was there says what it said. -/
theorem Grown.files {d : Ptr} {g : Forest Ptr} {names : List (List UInt8)}
    (h : Grown s s' root kids kids' d g names) {f : Forest Ptr}
    (hf : ∀ {q}, q ∈ f.ids → ∃ n, s.nodes.get q = some n) :
    Ramfs.files s' f = Ramfs.files s f := by
  induction f with
  | nil => rfl
  | cons a ch rest ihc ihr =>
    obtain ⟨n, hn⟩ := hf (q := a) (by simp)
    obtain ⟨n', hn', hname, htype, -, htext⟩ := h.kept hn
    rw [files_cons ch rest hn, files_cons ch rest hn', hname, htype, htext,
      ihc fun hq => hf (by simp [hq]), ihr fun hq => hf (by simp [hq])]

/-! ## One record -/

theorem TreeInv.walk_joinPath (h : TreeInv s root kids) {ns : List (List UInt8)}
    {name : List UInt8} (hns : ∀ x ∈ ns, IsName x) (hfits : Fits ns name) {d : Ptr}
    (hfollow : Ramfs.follow s (some root) ns = some (some d)) :
    Ramfs.walk s (joinPath (ns ++ [name])) true = some (some d, name) := by
  have hall : ∀ x ∈ ns ++ [name], IsName x := by
    intro x hx
    rcases List.mem_append.mp hx with hx | hx
    · exact hns x hx
    · rw [List.mem_singleton.mp hx]
      exact hfits.isName
  obtain ⟨cs, hcs⟩ : ∃ cs, joinPath (ns ++ [name]) = slash :: cs := by
    rcases joinPath_cases (ns ++ [name]) with hnil | hcons
    · have hlen := congrArg List.length hnil
      rw [joinPath_concat, List.length_append, List.length_cons] at hlen
      simp at hlen
    · exact hcons
  have hstart : Ramfs.start s (joinPath (ns ++ [name])) = some root := by
    rw [hcs, Ramfs.start, List.head?_cons, if_pos rfl, h.isRoot]
  have hne : joinPath (ns ++ [name]) ≠ [] := by
    rw [hcs]
    simp
  have hnames : pathNames (joinPath (ns ++ [name])) = ns ++ [name] := by
    have hle : (joinPath (ns ++ [name])).length ≤ fsPathMax - 1 := Nat.le_pred_of_lt hfits.path
    rw [pathNames, List.take_of_length_le hle, components_joinPath hall]
  rw [walk_followParent h.isRoot hne hstart, hnames, Ramfs.followParent]
  simp [hfollow]

theorem CreatedIn.grown (h : TreeInv s root kids) {d p : Ptr} {name : List UInt8} {type : FsType}
    (hin : CreatedIn s s' root kids kids' d p name type) :
    Grown s s' root kids kids' d (single p) [name] where
  inv := hin.inv
  eq := hin.eq
  cwd := hin.added.cwd
  kept {q n} hn := by
    have hne : q ≠ p := by
      rintro rfl
      rw [hin.fresh] at hn
      simp at hn
    obtain ⟨n', hn', hbody⟩ := hin.added.old hne hn
    refine ⟨n', hn', hbody.name, hbody.type, hbody.parent, ?_⟩
    rw [contents, contents, hbody.data, hbody.size, hin.added.bufs]
  follow hq := hin.follow h _ h.root_mem hq
  live hq := by
    obtain rfl := List.mem_singleton.mp hq
    exact ⟨_, hin.added.new⟩
  born {q n} hn hnone := by
    by_cases hq : q = p
    · subst hq
      rw [hin.added.new] at hn
      obtain rfl := Option.some.inj hn
      exact ⟨d, rfl, Or.inl ⟨rfl, List.mem_singleton_self name⟩⟩
    · rw [hin.added.none hq hnone] at hn
      simp at hn

/-- The node that was added last is filled. -/
theorem Grown.write {d p : Ptr} {name data : List UInt8} {n : FsNode}
    (h : Grown s s₁ root kids kids' d (single p) [name]) (hp : s.nodes.get p = none)
    (hn : s₁.nodes.get p = some n) (hinv : TreeInv s₂ root kids')
    (hw : Written s₁ s₂ p n data) : Grown s s₂ root kids kids' d (single p) [name] where
  inv := hinv
  eq := h.eq
  cwd := hw.cwd.trans h.cwd
  kept {q m} hm := by
    have hne : q ≠ p := by
      rintro rfl
      rw [hp] at hm
      simp at hm
    obtain ⟨m', hm', hname, htype, hparent, htext⟩ := h.kept hm
    refine ⟨m', (hw.other hne).trans hm', hname, htype, hparent, ?_⟩
    rw [← htext, contents, contents]
    cases hdata : m'.data with
    | none => rfl
    | some b => rw [Option.bind_some, Option.bind_some, hw.bufs hne hm' hdata]
  follow hq := by
    rw [h.inv.follow_congr hinv (hw.sees hn) _ h.inv.root_mem]
    exact h.follow hq
  live hq := by
    obtain rfl := List.mem_singleton.mp hq
    obtain ⟨n', hn', -⟩ := hw.node
    exact ⟨n', hn'⟩
  born {q m} hm hnone := by
    by_cases hq : q = p
    · subst hq
      obtain ⟨n', hn', hname, -, -⟩ := hw.node
      have hparent := hw.parent hn'
      rw [hm] at hn'
      obtain rfl := Option.some.inj hn'
      rw [hname, hparent]
      exact h.born hn hnone
    · rw [hw.other hq] at hm
      exact h.born hm hnone

end LightningOS.Ramfs

namespace LightningOS.Persist

open ByteMemory CString Ramfs Users Forest

variable {env : Env} {s : Fs} {root : Ptr} {kids : Forest Ptr}

/-- **A record makes the node it is about**, as the last child of its directory. -/
theorem restoreEntry_grown (hg : env.Grants (maxPayload + 65)) (h : TreeInv s root kids) {d : Ptr}
    {dn : FsNode} (hd : s.nodes.get d = some dn) (hdir : dn.type = .dir)
    {ns : List (List UInt8)} (hns : ∀ x ∈ ns, IsName x)
    (hfollow : follow s (some root) ns = some (some d)) {name : List UInt8} (hfits : Fits ns name)
    (hnew : ∀ {q m}, s.nodes.get q = some m → m.parent = some d → m.name ≠ name)
    (type : FsType) (data : List UInt8) (hdata : data.length ≤ maxPayload)
    (htype : type = .dir → data = []) :
    ∃ p s' kids' n, restoreEntry env s ⟨type, joinPath (ns ++ [name]), data⟩ = some s' ∧
      Grown s s' root kids kids' d (single p) [name] ∧ s.nodes.get p = none ∧
      s'.nodes.get p = some n ∧ n.name = name ∧ n.type = type ∧ contents s' n = data ∧
      (tree root kids').sub p = some Forest.nil ∧ (name ≠ [dot] →
        name ≠ [dot, dot] → follow s' (some root) (ns ++ [name]) = some (some p)) := by
  have hmax : maxPayload = 1048576 := rfl
  have hnode : env.Grants sizeofFsNode := fun t s n hn =>
    hg t s n (Nat.le_trans hn (by decide))
  obtain ⟨p, s₁, kids', hcreate, hin⟩ := h.create_granted hnode type
    (h.walk_joinPath hns hfits hfollow) hd hdir hfits.isName hnew
  have hgrown := hin.grown h
  -- a walk finds the new node, since nothing in the directory has its name
  have hfound : name ≠ [dot] → name ≠ [dot, dot] →
      follow s₁ (some root) (ns ++ [name]) = some (some p) := by
    intro h1 h2
    have hchild := hin.findChild h hd name ((h.find?_eq_none hd hdir).mpr hnew)
    rw [if_pos ⟨rfl, rfl⟩, Option.none_or] at hchild
    have hlast : ∀ q, follow s₁ (some root) ns = some q → q ≠ none := by
      intro q hq
      rw [hgrown.follow hfollow] at hq
      rw [← Option.some.inj hq]
      simp
    rw [follow_append s₁ ns [name] (some root) hlast, hgrown.follow hfollow, Option.bind_some,
      follow, if_neg h1, if_neg h2, hchild]
    rfl
  have hbare : (tree root kids').sub p = some Forest.nil := by
    obtain ⟨below, hbelow, hrep⟩ := hin.inv.sub hin.added.new
    cases below with
    | nil => exact hbelow
    | cons a ch rest => exact absurd hrep.1 (by simp)
  have hstep : createOrResolve env s
      (Entry.head ⟨type, joinPath (ns ++ [name]), data⟩) = some (some p, s₁) := by
    have hpath : (Entry.head ⟨type, joinPath (ns ++ [name]), data⟩).path =
        joinPath (ns ++ [name]) := rfl
    unfold createOrResolve
    rw [Entry.head_type, hpath, hcreate]
  by_cases hnone : data = []
  · subst hnone
    refine ⟨p, s₁, kids', _, ?_, hgrown, hin.fresh, hin.added.new, rfl, rfl, ?_, hbare, hfound⟩
    · rw [restoreEntry, hstep]
      exact if_pos rfl
    · simp [contents]
  · have hfile : type = .file := by
      cases type with
      | file => rfl
      | dir => exact absurd (htype rfl) hnone
    subst hfile
    obtain ⟨s₂, hwrite, hinv, hw⟩ := hin.inv.write_granted hg hin.added.new rfl
      (Nat.add_le_add_right hdata 65) (by omega)
    obtain ⟨n', hn', hname, htype', htext, -⟩ := hw.node
    refine ⟨p, s₂, kids', n', ?_, hgrown.write hin.fresh hin.added.new hinv hw, hin.fresh, hn',
      hname, htype', htext, hbare, ?_⟩
    · rw [restoreEntry, hstep]
      dsimp only
      rw [if_neg hnone, writeData]
      simp only [hin.added.new, if_true, hwrite, Option.map_some]
    · intro h1 h2
      rw [hin.inv.follow_congr hinv (hw.sees hin.added.new) _ hin.inv.root_mem]
      exact hfound h1 h2

/-! ## All records -/

theorem replay_append (es es' : List Entry) : ∀ s : Fs,
    replay env (es ++ es') s = (replay env es s).bind (replay env es') := by
  induction es with
  | nil =>
    intro s
    rfl
  | cons e es ih =>
    intro s
    rw [List.cons_append, replay, replay]
    cases restoreEntry env s e with
    | none => rfl
    | some s₁ => exact ih s₁

/-- What an induction over the list of siblings needs for the others. -/
theorem names_others {s s' : Fs} {kids kids' : Forest Ptr} {d : Ptr} {dn : FsNode}
    {g : Forest Ptr} {name : List UInt8} {names : List (List UInt8)}
    (h : Grown s s' root kids kids' d g [name]) (hd : s.nodes.get d = some dn)
    (hname : name ∉ names)
    (hnew : ∀ {q m}, s.nodes.get q = some m → m.parent = some d → m.name ∉ names) {q : Ptr}
    {m : FsNode} (hq : s'.nodes.get q = some m) (hparent : m.parent = some d) :
    m.name ∉ names := by
  cases hold : s.nodes.get q with
  | none =>
    obtain ⟨u, hu, ⟨-, hmem⟩ | hnone⟩ := h.born hq hold
    · rw [List.mem_singleton.mp hmem]
      exact hname
    · rw [hparent, Option.some.injEq] at hu
      rw [← hu, hd] at hnone
      simp at hnone
  | some m₀ =>
    obtain ⟨m', hm', hn, -, hp, -⟩ := h.kept hold
    rw [hq] at hm'
    obtain rfl := Option.some.inj hm'
    rw [hn]
    exact hnew hold (hp ▸ hparent)

/-- **Replaying the list of a tree builds the tree.** -/
theorem replay_files (hg : env.Grants (maxPayload + 65)) (f : Files) : ∀ {s : Fs}
    {kids : Forest Ptr} {d : Ptr} {dn : FsNode} {ns : List (List UInt8)},
    TreeInv s root kids → s.nodes.get d = some dn → dn.type = .dir → (∀ x ∈ ns, IsName x) →
      (f ≠ .nil → follow s (some root) ns = some (some d)) → f.Restorable ns →
      (∀ e ∈ f.entries ns, e.data.length ≤ maxPayload) →
      (∀ {q m}, s.nodes.get q = some m → m.parent = some d → m.name ∉ f.names) →
      ∃ s' kids' g, replay env (f.entries ns) s = some s' ∧
        Grown s s' root kids kids' d g f.names ∧ files s' g = f := by
  induction f with
  | nil =>
    intro s kids d dn ns h _ _ _ _ _ _ _
    exact ⟨s, kids, Forest.nil, rfl, Grown.refl h d, rfl⟩
  | file name data rest ih =>
    intro s kids d dn ns h hd hdir hns hfollow hres hsmall hnew
    obtain ⟨hfits, hother, hrest⟩ := hres
    have hwalk := hfollow (by simp)
    obtain ⟨p, s₁, kids₁, n, hstep, hgrown, -, hn, hname, htype, htext, -, -⟩ :=
      restoreEntry_grown hg h hd hdir hns hwalk hfits
        (fun hq hparent heq => hnew hq hparent (by rw [heq]; exact List.mem_cons_self)) .file data
        (hsmall _ List.mem_cons_self) (by simp)
    obtain ⟨dn₁, hd₁, -, htype₁, -, -⟩ := hgrown.kept hd
    obtain ⟨s₂, kids₂, g, hreplay, hgrown₂, hfiles⟩ := ih hgrown.inv hd₁ (htype₁.trans hdir) hns
      (fun _ => hgrown.follow hwalk) hrest
      (fun e he => hsmall e (List.mem_cons_of_mem _ he))
      (names_others hgrown hd hother fun hq hparent hmem =>
        hnew hq hparent (List.mem_cons_of_mem _ hmem))
    refine ⟨s₂, kids₂, cons p Forest.nil g, ?_, hgrown.trans hgrown₂, ?_⟩
    · rw [Files.entries, replay, hstep]
      exact hreplay
    · obtain ⟨n₂, hn₂, hname₂, htype₂, -, htext₂⟩ := hgrown₂.kept hn
      rw [files_cons _ _ hn₂, htype₂, htype, if_neg (by simp), hname₂, hname, htext₂, htext, hfiles]
  | dir name ch rest ihc ihr =>
    intro s kids d dn ns h hd hdir hns hfollow hres hsmall hnew
    obtain ⟨hfits, hother, hplain, hch, hrest⟩ := hres
    have hwalk := hfollow (by simp)
    obtain ⟨p, s₁, kids₁, n, hstep, hgrown, hfresh, hn, hname, htype, -, hbare, hfound⟩ :=
      restoreEntry_grown hg h hd hdir hns hwalk hfits
        (fun hq hparent heq => hnew hq hparent (by rw [heq]; exact List.mem_cons_self)) .dir []
        (Nat.zero_le _) (fun _ => rfl)
    -- the new directory is empty
    have hempty : ∀ {q m}, s₁.nodes.get q = some m → m.parent = some p → m.name ∉ ch.names := by
      intro q m hq hparent _
      obtain ⟨below, hbelow, hmem⟩ := hgrown.inv.parent_mem hq hparent
      rw [hbare, Option.some.injEq] at hbelow
      rw [← hbelow] at hmem
      simp at hmem
    have hns' : ∀ x ∈ ns ++ [name], IsName x := by
      intro x hx
      rcases List.mem_append.mp hx with hx | hx
      · exact hns x hx
      · rw [List.mem_singleton.mp hx]
        exact hfits.isName
    obtain ⟨s₂, kids₂, c, hreplay₂, hgrown₂, hfiles₂⟩ := ihc hgrown.inv hn htype hns'
      (fun hne => hfound (hplain hne).1 (hplain hne).2) hch
      (fun e he => hsmall e (List.mem_cons_of_mem _ (List.mem_append_left _ he))) hempty
    have hnest := hgrown.nest h hfresh hgrown₂
    obtain ⟨dn₂, hd₂, -, htype₂, -, -⟩ := hnest.kept hd
    obtain ⟨s₃, kids₃, g, hreplay₃, hgrown₃, hfiles₃⟩ := ihr hnest.inv hd₂ (htype₂.trans hdir) hns
      (fun _ => hnest.follow hwalk) hrest
      (fun e he => hsmall e (List.mem_cons_of_mem _ (List.mem_append_right _ he)))
      (names_others hnest hd hother fun hq hparent hmem =>
        hnew hq hparent (List.mem_cons_of_mem _ hmem))
    refine ⟨s₃, kids₃, cons p c g, ?_, hnest.trans hgrown₃, ?_⟩
    · rw [Files.entries, replay, hstep]
      dsimp only
      rw [replay_append, hreplay₂]
      exact hreplay₃
    · obtain ⟨n₂, hn₂, hname₂, htype₂', -, -⟩ := hgrown₂.kept hn
      obtain ⟨n₃, hn₃, hname₃, htype₃, -, -⟩ := hgrown₃.kept hn₂
      rw [files_cons _ _ hn₃, htype₃, htype₂', htype, if_pos rfl, hname₃, hname₂, hname, hfiles₃,
        hgrown₃.files fun hq => hgrown₂.live hq, hfiles₂]

end LightningOS.Persist
