import LightningOS.Properties.Tree

/-!
# The parts of a tree

`TreeInv` has three parts: the links spell out the tree, the nodes that are allocated are its
nodes and each is in order, and every buffer belongs to one file. An operation changes little
of that. It relinks the children of one directory, adds a node, frees some, or gives a file
another buffer. What each of these leaves of the parts is said here, apart from the code.
-/

namespace LightningOS.Ramfs

open ByteMemory CString Forest

variable {s s' : Fs} {root d p f x : Ptr} {kids kids' ch ch' : Forest Ptr} {n n' : FsNode}
  {name : List UInt8} {type : FsType}

/-! ## What does not matter -/

/-- The clock and the working directory are not part of the tree. -/
theorem TreeInv.congr {s' : Fs} (h : TreeInv s root kids) (hn : s'.nodes = s.nodes)
    (hb : s'.bufs = s.bufs) (hr : s'.rootNode = s.rootNode) (hc : s'.nodeCount = s.nodeCount) :
    TreeInv s' root kids := by
  have hl : links s' = links s := by
    unfold links
    rw [hn]
  refine ⟨hr.trans h.isRoot, by rw [hl]; exact h.rep, h.nodup, fun p => by rw [hn]; exact h.live p,
    fun {p n} hp => ?_, fun hp => h.rootDir (by rwa [hn] at hp), fun hp => h.names (by rwa [hn] at hp),
    fun hp hq => h.owner (by rwa [hn] at hp) (by rwa [hn] at hq),
    fun hd => by rw [hn]; exact h.noLeak (by rwa [hb] at hd), hc.trans h.count⟩
  rw [hn] at hp
  obtain ⟨hf, hd, hdata⟩ := h.ok hp
  exact ⟨hf, hd, by unfold DataOk at *; rw [hb]; exact hdata⟩

/-- The tree with `g` applied below `d`, as a tree. -/
theorem update_tree (d : Ptr) (g : Forest Ptr → Forest Ptr) :
    ∃ kids', (tree root kids).update d g = tree root kids' := by
  rw [tree, update]
  split
  · exact ⟨_, rfl⟩
  · exact ⟨_, rfl⟩

/-! ## Nodes -/

/-- Everything about a node but its place among its siblings and its children. -/
structure SameBody (n n' : FsNode) : Prop where
  name : n'.name = n.name
  type : n'.type = n.type
  data : n'.data = n.data
  size : n'.size = n.size
  capacity : n'.capacity = n.capacity
  parent : n'.parent = n.parent

theorem SameBody.refl (n : FsNode) : SameBody n n := ⟨rfl, rfl, rfl, rfl, rfl, rfl⟩

theorem SameBody.dataOk (hb : SameBody n n') (h : DataOk s n)
    (hbufs : ∀ d, n.data = some d → s'.bufs.get d = s.bufs.get d) : DataOk s' n' := by
  unfold DataOk at *
  rw [hb.data, hb.size, hb.capacity]
  cases hd : n.data with
  | none =>
    rw [hd] at h
    exact h
  | some d =>
    rw [hd] at h
    simp only [hbufs d hd]
    exact h

/-- A node stays in order when its body and its buffer do. -/
theorem NodeOk.same (h : NodeOk s n) (hb : SameBody n n')
    (hchildren : n.type = .file → n'.children = n.children)
    (hbufs : ∀ d, n.data = some d → s'.bufs.get d = s.bufs.get d) : NodeOk s' n' where
  file ht := by
    rw [hb.type] at ht
    rw [hchildren ht]
    exact h.file ht
  dir ht := by
    rw [hb.type] at ht
    rw [hb.data]
    exact h.dir ht
  data := hb.dataOk h.data hbufs

/-! ## Buffers -/

/-- The buffer `d` is that of the node `q`. -/
def Owns (s : Fs) (q d : Ptr) : Prop := ∃ n, s.nodes.get q = some n ∧ n.data = some d

theorem TreeInv.owns_unique (h : TreeInv s root kids) {q r : Ptr} (hq : Owns s q d)
    (hr : Owns s r d) : q = r := by
  obtain ⟨n, hn, hd⟩ := hq
  obtain ⟨m, hm, hd'⟩ := hr
  exact h.owner hn hm hd hd'

/-- Where no node gets a buffer that it did not have, no buffer gets a second owner. -/
theorem TreeInv.owner_kept (h : TreeInv s root kids)
    (howns : ∀ {q e}, Owns s' q e → Owns s q e) {q r : Ptr} {m : FsNode} {e : Ptr}
    (hq : s'.nodes.get q = some n) (hr : s'.nodes.get r = some m) (hn : n.data = some e)
    (hm : m.data = some e) : q = r :=
  h.owns_unique (howns ⟨n, hq, hn⟩) (howns ⟨m, hr, hm⟩)

/-! ## Links -/

theorem links_setNext {m : FsNode} (hm : s.nodes.get x = some m) (v : Option Ptr) :
    links (s.setNode x { m with next := v }) =
      { links s with next := fun q => if q = x then v else (links s).next q } := by
  unfold links Fs.setNode Store.set
  simp only [Links.mk.injEq]
  refine ⟨funext fun q => ?_, funext fun q => ?_, funext fun q => ?_⟩
  · by_cases hq : q = x
    · simp [hq, hm]
    · simp [hq]
  · by_cases hq : q = x
    · simp [hq, hm]
    · simp [hq]
  · by_cases hq : q = x
    · simp [hq]
    · simp [hq]

theorem links_setChildren {m : FsNode} (hm : s.nodes.get x = some m) (v : Option Ptr) :
    links (s.setNode x { m with children := v }) =
      { links s with children := fun q => if q = x then v else (links s).children q } := by
  unfold links Fs.setNode Store.set
  simp only [Links.mk.injEq]
  refine ⟨funext fun q => ?_, funext fun q => ?_, funext fun q => ?_⟩
  · by_cases hq : q = x
    · simp [hq, hm]
    · simp [hq]
  · by_cases hq : q = x
    · simp [hq]
    · simp [hq]
  · by_cases hq : q = x
    · simp [hq, hm]
    · simp [hq]

/-- The children of `d`, among them `x` before or after, were linked anew: from `ch` to `ch'`.
Only the link of `d` to its first child and the links between its children may change. -/
structure Relinked (s s' : Fs) (d x : Ptr) (ch ch' : Forest Ptr) : Prop where
  rep : Rep (links s') (some d) ((links s').children d) ch'
  same : s'.nodes.get x = s.nodes.get x
  old : ∀ {q n}, s.nodes.get q = some n → ∃ n', s'.nodes.get q = some n' ∧ SameBody n n' ∧
    (q ∉ ch.tops → n'.next = n.next) ∧ (q ≠ d → n'.children = n.children)
  none : ∀ {q}, s.nodes.get q = none → s'.nodes.get q = none
  bufs : s'.bufs = s.bufs
  root : s'.rootNode = s.rootNode
  cwd : s'.currentDir = s.currentDir
  count : s'.nodeCount = s.nodeCount
  brk : s.nodes.brk ≤ s'.nodes.brk

/-- One node of which only the links are set. -/
theorem relinked_set {m m' : FsNode} (hp : s.nodes.get p = some m) (hbody : SameBody m m')
    (hnext : p ∉ ch.tops → m'.next = m.next) (hchildren : p ≠ d → m'.children = m.children)
    (hx : x ≠ p) (hrep : Rep (links (s.setNode p m')) (some d)
      ((links (s.setNode p m')).children d) ch') : Relinked s (s.setNode p m') d x ch ch' := by
  refine ⟨hrep, Store.get_set_other hx, fun {q n} hq => ?_, fun {q} hq => ?_, rfl, rfl, rfl, rfl,
    Nat.le_max_left _ _⟩
  · by_cases hqp : q = p
    · subst hqp
      obtain rfl := Option.some.inj (hp.symm.trans hq)
      exact ⟨m', Store.get_set_same _ _ _, hbody, hnext, hchildren⟩
    · exact ⟨n, (Store.get_set_other hqp).trans hq, .refl n, fun _ => rfl, fun _ => rfl⟩
  · refine (Store.get_set_other ?_).trans hq
    rintro rfl
    rw [hp] at hq
    exact absurd hq (Option.some_ne_none m)

theorem Relinked.back (hr : Relinked s s' d x ch ch') {q : Ptr} (hq : s'.nodes.get q = some n') :
    ∃ n, s.nodes.get q = some n ∧ SameBody n n' ∧ (q ∉ ch.tops → n'.next = n.next) ∧
      (q ≠ d → n'.children = n.children) := by
  cases hn : s.nodes.get q with
  | none =>
    rw [hr.none hn] at hq
    exact absurd hq.symm (Option.some_ne_none n')
  | some n =>
    obtain ⟨n'', hn'', hsame⟩ := hr.old hn
    obtain rfl := Option.some.inj (hq.symm.trans hn'')
    exact ⟨n, rfl, hsame⟩

theorem Relinked.same_links (hr : Relinked s s' d x ch ch') {q : Ptr} (hq : s.nodes.get q = some n) :
    (links s').parent q = (links s).parent q ∧
      (q ∉ ch.tops → (links s').next q = (links s).next q) ∧
      (q ≠ d → (links s').children q = (links s).children q) := by
  obtain ⟨n', hn', hbody, hnext, hchildren⟩ := hr.old hq
  simp only [links, hq, hn', Option.bind_some]
  exact ⟨hbody.parent, hnext, hchildren⟩

/-- The rest of a tree is linked as it was. -/
theorem Relinked.update (hr : Relinked s s' d x ch ch') {up head : Option Ptr} {f : Forest Ptr}
    (hrep : Rep (links s) up head f) (hnd : f.ids.Nodup)
    (hlive : ∀ q ∈ f.ids, ∃ n, s.nodes.get q = some n) (hch : f.sub d = some ch)
    (g : Forest Ptr → Forest Ptr) (hg : g ch = ch') :
    Rep (links s') up head (f.update d g) := by
  have hout : ∀ {q}, q ∉ ch.ids → q ∉ ch.tops := fun hq ht => hq (tops_subset _ ht)
  refine hrep.update hnd hch g (fun q hq _ => ?_) (fun q hq hqc => ?_) (fun q hq _ hqd => ?_) ?_
  · obtain ⟨n, hn⟩ := hlive q hq
    exact (hr.same_links hn).1
  · obtain ⟨n, hn⟩ := hlive q hq
    exact (hr.same_links hn).2.1 (hout hqc)
  · obtain ⟨n, hn⟩ := hlive q hq
    exact (hr.same_links hn).2.2 hqd
  · rw [hg]
    exact hr.rep

/-- A node that is not in the forest may become anything. -/
theorem rep_setNode {up head : Option Ptr} {f : Forest Ptr} (hrep : Rep (links s) up head f)
    (hp : p ∉ f.ids) (t : Nat) (n : FsNode) :
    Rep (links (Fs.setNode { s with time := t } p n)) up head f := by
  have hget : ∀ x ∈ f.ids, (Fs.setNode { s with time := t } p n).nodes.get x = s.nodes.get x := by
    rintro x hx
    refine Store.get_set_other ?_
    rintro rfl
    exact hp hx
  refine hrep.congr (fun x hx => ?_) (fun x hx => ?_) fun x hx => ?_
  · simp only [links, hget x hx]
  · simp only [links, hget x hx]
  · simp only [links, hget x hx]

/-! ## A node more -/

/-- The node `p` is new, at the end of the children of `d`. -/
structure Added (s s' : Fs) (d p : Ptr) (name : List UInt8) (type : FsType) : Prop where
  new : s'.nodes.get p = some { name := name, type := type, parent := some d }
  old : ∀ {q n}, q ≠ p → s.nodes.get q = some n → ∃ n', s'.nodes.get q = some n' ∧ SameBody n n'
  none : ∀ {q}, q ≠ p → s.nodes.get q = none → s'.nodes.get q = none
  bufs : s'.bufs = s.bufs
  root : s'.rootNode = s.rootNode
  cwd : s'.currentDir = s.currentDir

/-- Every other node was there before. -/
theorem Added.back (ha : Added s s' d p name type) {q : Ptr} (hne : q ≠ p)
    (hq : s'.nodes.get q = some n') : ∃ n, s.nodes.get q = some n ∧ SameBody n n' := by
  cases hn : s.nodes.get q with
  | none =>
    rw [ha.none hne hn] at hq
    exact absurd hq.symm (Option.some_ne_none n')
  | some n =>
    obtain ⟨n'', hn'', hbody⟩ := ha.old hne hn
    obtain rfl := Option.some.inj (hq.symm.trans hn'')
    exact ⟨n, rfl, hbody⟩

/-- The new node has no buffer. -/
theorem Added.owns (ha : Added s s' d p name type) {q e : Ptr} (h : Owns s' q e) : Owns s q e := by
  obtain ⟨n', hn', he⟩ := h
  by_cases hq : q = p
  · subst hq
    obtain rfl := Option.some.inj (ha.new.symm.trans hn')
    exact absurd he.symm (Option.some_ne_none e)
  · obtain ⟨n, hn, hbody⟩ := ha.back hq hn'
    exact ⟨n, hn, hbody.data.symm.trans he⟩

theorem Added.live (ha : Added s s' d p name type) (h : TreeInv s root kids)
    (hids : (tree root kids').ids.Perm (p :: (tree root kids).ids)) (q : Ptr) :
    q ∈ (tree root kids').ids ↔ ∃ n, s'.nodes.get q = some n := by
  rw [hids.mem_iff, List.mem_cons]
  by_cases hq : q = p
  · subst hq
    exact iff_of_true (Or.inl rfl) ⟨_, ha.new⟩
  · rw [or_iff_right hq, h.live q]
    constructor
    · rintro ⟨n, hn⟩
      obtain ⟨n', hn', -⟩ := ha.old hq hn
      exact ⟨n', hn'⟩
    · rintro ⟨n', hn'⟩
      obtain ⟨n, hn, -⟩ := ha.back hq hn'
      exact ⟨n, hn⟩

theorem Added.nodeOk (ha : Added s s' d p name type) (h : TreeInv s root kids)
    (hchildren : ∀ {q n n'}, s.nodes.get q = some n → s'.nodes.get q = some n' → n.type = .file →
      n'.children = n.children) {q : Ptr} (hq : s'.nodes.get q = some n') : NodeOk s' n' := by
  by_cases hqp : q = p
  · subst hqp
    obtain rfl := Option.some.inj (ha.new.symm.trans hq)
    exact ⟨fun _ => rfl, fun _ => rfl, ⟨rfl, rfl⟩⟩
  · obtain ⟨n, hn, hbody⟩ := ha.back hqp hq
    exact (h.ok hn).same hbody (hchildren hn hq) fun e _ => by rw [ha.bufs]

/-- **With a new node the tree is a tree** if its links are. -/
theorem TreeInv.added (h : TreeInv s root kids) (ha : Added s s' d p name type)
    (hfresh : s.nodes.get p = none) (hname : IsName name)
    (hids : (tree root kids').ids.Perm (p :: (tree root kids).ids))
    (hrep : Rep (links s') none (some root) (tree root kids'))
    (hchildren : ∀ {q n n'}, s.nodes.get q = some n → s'.nodes.get q = some n' → n.type = .file →
      n'.children = n.children)
    (hcount : s'.nodeCount = s.nodeCount + 1) : TreeInv s' root kids' := by
  have hnot : ∀ {q m}, s.nodes.get q = some m → q ≠ p := by
    rintro q m hq rfl
    rw [hfresh] at hq
    exact absurd hq.symm (Option.some_ne_none m)
  have hpids : p ∉ (tree root kids).ids := by
    intro hp
    obtain ⟨m, hm⟩ := h.get hp
    exact hnot hm rfl
  obtain ⟨rn, hrn⟩ := h.get h.root_mem
  refine ⟨ha.root.trans h.isRoot, hrep, ?_, ha.live h hids, ha.nodeOk h hchildren,
    fun {n'} hr => ?_, fun {q n'} hq hqr => ?_, h.owner_kept ha.owns, fun {e b} he => ?_, ?_⟩
  · exact hids.nodup_iff.mpr (List.nodup_cons.mpr ⟨hpids, h.nodup⟩)
  · obtain ⟨n, hn, hbody⟩ := ha.back (hnot hrn) hr
    rw [hbody.type]
    exact h.rootDir hn
  · by_cases hqp : q = p
    · subst hqp
      obtain rfl := Option.some.inj (ha.new.symm.trans hq)
      exact hname
    · obtain ⟨n, hn, hbody⟩ := ha.back hqp hq
      rw [hbody.name]
      exact h.names hn hqr
  · rw [ha.bufs] at he
    obtain ⟨q, n, hn, hdata⟩ := h.noLeak he
    obtain ⟨n', hn', hbody⟩ := ha.old (hnot hn) hn
    exact ⟨q, n', hn', hbody.data.trans hdata⟩
  · rw [hcount, h.count, hids.length_eq, List.length_cons]
    rfl

/-! ## Nodes less -/

/-- The nodes `gone` are no longer there, and the others are what they were. -/
structure Removed (s s' : Fs) (gone : List Ptr) : Prop where
  freed : ∀ {q}, q ∈ gone → s'.nodes.get q = none
  old : ∀ {q n}, q ∉ gone → s.nodes.get q = some n → ∃ n', s'.nodes.get q = some n' ∧ SameBody n n'
  none : ∀ {q}, s.nodes.get q = none → s'.nodes.get q = none
  bufs : ∀ {q n d}, q ∉ gone → s.nodes.get q = some n → n.data = some d →
    s'.bufs.get d = s.bufs.get d
  bufGone : ∀ {q n d}, q ∈ gone → s.nodes.get q = some n → n.data = some d →
    s'.bufs.get d = Option.none
  bufNone : ∀ {d}, s.bufs.get d = Option.none → s'.bufs.get d = Option.none
  root : s'.rootNode = s.rootNode
  cwd : s'.currentDir = s.currentDir

variable {gone : List Ptr}

theorem Removed.back (h : Removed s s' gone) {q : Ptr} (hq : s'.nodes.get q = some n') :
    q ∉ gone ∧ ∃ n, s.nodes.get q = some n ∧ SameBody n n' := by
  have hgone : q ∉ gone := by
    intro hc
    rw [h.freed hc] at hq
    exact absurd hq.symm (Option.some_ne_none n')
  refine ⟨hgone, ?_⟩
  cases hn : s.nodes.get q with
  | none =>
    rw [h.none hn] at hq
    exact absurd hq.symm (Option.some_ne_none n')
  | some n =>
    obtain ⟨n'', hn'', hbody⟩ := h.old hgone hn
    obtain rfl := Option.some.inj (hq.symm.trans hn'')
    exact ⟨n, rfl, hbody⟩

theorem Removed.owns (h : Removed s s' gone) {q e : Ptr} (ho : Owns s' q e) : Owns s q e := by
  obtain ⟨n', hn', he⟩ := ho
  obtain ⟨-, n, hn, hbody⟩ := h.back hn'
  exact ⟨n, hn, hbody.data.symm.trans he⟩

theorem Removed.live (hr : Removed s s' gone) (h : TreeInv s root kids)
    (hids : (tree root kids).ids.Perm (gone ++ (tree root kids').ids))
    (hdis : ∀ q ∈ gone, q ∉ (tree root kids').ids) (q : Ptr) :
    q ∈ (tree root kids').ids ↔ ∃ n, s'.nodes.get q = some n := by
  constructor
  · intro hq
    obtain ⟨n, hn⟩ := h.get (hids.mem_iff.mpr (List.mem_append_right _ hq))
    obtain ⟨n', hn', -⟩ := hr.old (fun hc => hdis q hc hq) hn
    exact ⟨n', hn'⟩
  · rintro ⟨n', hn'⟩
    obtain ⟨hgone, n, hn, -⟩ := hr.back hn'
    exact (List.mem_append.mp (hids.mem_iff.mp (h.mem hn))).resolve_left hgone

theorem Removed.noLeak (hr : Removed s s' gone) (h : TreeInv s root kids) {e : Ptr}
    {buf : List UInt8} (he : s'.bufs.get e = some buf) :
    ∃ q n, s'.nodes.get q = some n ∧ n.data = some e := by
  cases hs : s.bufs.get e with
  | none =>
    rw [hr.bufNone hs] at he
    exact absurd he.symm (Option.some_ne_none buf)
  | some old =>
    obtain ⟨q, n, hn, hdata⟩ := h.noLeak hs
    have hq : q ∉ gone := by
      intro hq
      rw [hr.bufGone hq hn hdata] at he
      exact absurd he.symm (Option.some_ne_none buf)
    obtain ⟨n', hn', hbody⟩ := hr.old hq hn
    exact ⟨q, n', hn', hbody.data.trans hdata⟩

/-- What is left when nodes are removed is a tree if its links are. -/
theorem TreeInv.removed (h : TreeInv s root kids) (hr : Removed s s' gone)
    (hids : (tree root kids).ids.Perm (gone ++ (tree root kids').ids))
    (hrep : Rep (links s') none (some root) (tree root kids'))
    (hchildren : ∀ {q n n'}, s.nodes.get q = some n → s'.nodes.get q = some n' → n.type = .file →
      n'.children = n.children)
    (hcount : s'.nodeCount = s.nodeCount - gone.length) : TreeInv s' root kids' := by
  have hnd := hids.nodup_iff.mp h.nodup
  rw [List.nodup_append] at hnd
  obtain ⟨-, hnd', hdis⟩ := hnd
  have hapart : ∀ q ∈ gone, q ∉ (tree root kids').ids := fun q hq hc => hdis q hq q hc rfl
  refine ⟨hr.root.trans h.isRoot, hrep, hnd', hr.live h hids hapart, fun {q n'} hq => ?_,
    fun {n'} hq => ?_, fun {q n'} hq hqr => ?_, h.owner_kept hr.owns, hr.noLeak h, ?_⟩
  · obtain ⟨hgone, n, hn, hbody⟩ := hr.back hq
    exact (h.ok hn).same hbody (hchildren hn hq) fun e he => hr.bufs hgone hn he
  · obtain ⟨-, n, hn, hbody⟩ := hr.back hq
    rw [hbody.type]
    exact h.rootDir hn
  · obtain ⟨-, n, hn, hbody⟩ := hr.back hq
    rw [hbody.name]
    exact h.names hn hqr
  · rw [hcount, h.count, hids.length_eq, List.length_append]
    push_cast
    omega

/-! ## Another buffer -/

/-- The file `f` has the buffer `d` instead of the one it had, and nobody else has it. -/
structure Rebuffered (s s' : Fs) (f : Ptr) (n n' : FsNode) (d : Ptr) : Prop where
  nodes : ∀ q, s'.nodes.get q = if q = f then some n' else s.nodes.get q
  type : n'.type = n.type
  name : n'.name = n.name
  parent : n'.parent = n.parent
  children : n'.children = n.children
  next : n'.next = n.next
  data : n'.data = some d
  ok : DataOk s' n'
  kept : ∀ {q e}, q ≠ f → Owns s q e → s'.bufs.get e = s.bufs.get e ∧ e ≠ d
  back : ∀ {e b}, s'.bufs.get e = some b → e = d ∨ n.data ≠ some e ∧ ∃ b', s.bufs.get e = some b'
  root : s'.rootNode = s.rootNode
  count : s'.nodeCount = s.nodeCount

/-- No link changes. -/
theorem Rebuffered.same_links (hb : Rebuffered s s' f n n' d) (hn : s.nodes.get f = some n) :
    links s' = links s := by
  unfold links
  simp only [hb.nodes, Links.mk.injEq]
  refine ⟨funext fun q => ?_, funext fun q => ?_, funext fun q => ?_⟩
  · by_cases hq : q = f
    · simp [hq, hn, hb.parent]
    · simp [hq]
  · by_cases hq : q = f
    · simp [hq, hn, hb.children]
    · simp [hq]
  · by_cases hq : q = f
    · simp [hq, hn, hb.next]
    · simp [hq]

theorem Rebuffered.nodeOk (hb : Rebuffered s s' f n n' d) (h : TreeInv s root kids)
    (hn : s.nodes.get f = some n) (hfile : n.type = .file) {q : Ptr} {m : FsNode}
    (hq : s'.nodes.get q = some m) : NodeOk s' m := by
  rw [hb.nodes] at hq
  by_cases hqf : q = f
  · rw [if_pos hqf] at hq
    obtain rfl := Option.some.inj hq
    refine ⟨fun _ => hb.children.trans ((h.ok hn).file hfile), fun ht => ?_, hb.ok⟩
    rw [hb.type, hfile] at ht
    exact absurd ht (by decide)
  · rw [if_neg hqf] at hq
    exact (h.ok hq).same (.refl m) (fun _ => rfl) fun e he => (hb.kept hqf ⟨m, hq, he⟩).1

theorem Rebuffered.owner (hb : Rebuffered s s' f n n' d) (h : TreeInv s root kids) {q r e : Ptr}
    (hq : Owns s' q e) (hr : Owns s' r e) : q = r := by
  have hcase : ∀ {x}, Owns s' x e → x = f ∧ e = d ∨ x ≠ f ∧ e ≠ d ∧ Owns s x e := by
    rintro x ⟨m, hm, he⟩
    rw [hb.nodes] at hm
    by_cases hx : x = f
    · rw [if_pos hx] at hm
      obtain rfl := Option.some.inj hm
      exact Or.inl ⟨hx, (Option.some.inj (hb.data.symm.trans he)).symm⟩
    · rw [if_neg hx] at hm
      exact Or.inr ⟨hx, (hb.kept hx ⟨m, hm, he⟩).2, m, hm, he⟩
  rcases hcase hq with ⟨rfl, hed⟩ | ⟨-, hne, hq'⟩
  · rcases hcase hr with ⟨rfl, -⟩ | ⟨-, hne, -⟩
    · rfl
    · exact absurd hed hne
  · rcases hcase hr with ⟨-, hed⟩ | ⟨-, -, hr'⟩
    · exact absurd hed hne
    · exact h.owns_unique hq' hr'

theorem Rebuffered.noLeak (hb : Rebuffered s s' f n n' d) (h : TreeInv s root kids)
    (hn : s.nodes.get f = some n) {e : Ptr} {b : List UInt8} (he : s'.bufs.get e = some b) :
    Owns s' f e ∨ ∃ q, Owns s' q e := by
  rcases hb.back he with rfl | ⟨hne, b', hb'⟩
  · exact Or.inl ⟨n', by rw [hb.nodes, if_pos rfl], hb.data⟩
  · obtain ⟨q, m, hm, hdata⟩ := h.noLeak hb'
    have hqf : q ≠ f := by
      rintro rfl
      obtain rfl := Option.some.inj (hn.symm.trans hm)
      exact hne hdata
    exact Or.inr ⟨q, m, by rw [hb.nodes, if_neg hqf, hm], hdata⟩

/-- **With another buffer for a file the tree is the same.** -/
theorem TreeInv.rebuffered (h : TreeInv s root kids) (hn : s.nodes.get f = some n)
    (hfile : n.type = .file) (hb : Rebuffered s s' f n n' d) : TreeInv s' root kids := by
  have hlinks := hb.same_links hn
  refine ⟨hb.root.trans h.isRoot, by rw [hlinks]; exact h.rep, h.nodup, fun q => ?_,
    hb.nodeOk h hn hfile, fun {m} hq => ?_, fun {q m} hq hqr => ?_,
    fun {q r m k e} hq hr hm hk => hb.owner h ⟨m, hq, hm⟩ ⟨k, hr, hk⟩, fun {e b} he => ?_,
    hb.count.trans h.count⟩
  · rw [h.live q, hb.nodes]
    by_cases hq : q = f
    · simp [hq, hn]
    · simp [hq]
  · rw [hb.nodes] at hq
    by_cases hqf : root = f
    · rw [if_pos hqf] at hq
      obtain rfl := Option.some.inj hq
      rw [hb.type]
      exact h.rootDir (hqf ▸ hn)
    · rw [if_neg hqf] at hq
      exact h.rootDir hq
  · rw [hb.nodes] at hq
    by_cases hqf : q = f
    · rw [if_pos hqf] at hq
      obtain rfl := Option.some.inj hq
      rw [hb.name]
      exact h.names hn (hqf ▸ hqr)
    · rw [if_neg hqf] at hq
      exact h.names hq hqr
  · rcases hb.noLeak h hn he with howns | ⟨q, howns⟩
    · exact ⟨f, howns⟩
    · exact ⟨q, howns⟩

end LightningOS.Ramfs
