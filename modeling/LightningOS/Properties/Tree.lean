import LightningOS.Lib.Forest
import LightningOS.Properties.Walk
import Mathlib.Data.List.Perm.Subperm

/-!
# The file tree in memory

`TreeInv` says that the nodes that are allocated are the nodes of one tree, linked as
`ramfs.c` wants it, that every file owns the buffer it points to, and that there are no
other buffers. Walks over such a tree come to an end and stay in it.

The working directory is not part of the invariant. It may point to a node that was
freed, and then a relative path leads to memory that is not there.
-/

namespace LightningOS.Ramfs

open ByteMemory CString Forest

/-! ## The invariant -/

def links (s : Fs) : Links Ptr where
  parent p := (s.nodes.get p).bind FsNode.parent
  children p := (s.nodes.get p).bind FsNode.children
  next p := (s.nodes.get p).bind FsNode.next

/-- The buffer of a file holds its contents and the zero behind them. -/
def DataOk (s : Fs) (n : FsNode) : Prop :=
  match n.data with
  | none => n.size = 0 ∧ n.capacity = 0
  | some d => ∃ buf, s.bufs.get d = some buf ∧ buf.length = n.capacity ∧ n.size < n.capacity ∧
      n.capacity + Mem.sizeofBlock ≤ Mem.heapMaxSize

theorem DataOk.capacity_small {s : Fs} {n : FsNode} (h : DataOk s n) :
    n.capacity + Mem.sizeofBlock ≤ Mem.heapMaxSize := by
  unfold DataOk at h
  split at h
  · rw [h.2]
    decide
  · obtain ⟨buf, -, -, -, hcap⟩ := h
    exact hcap

theorem DataOk.size_le {s : Fs} {n : FsNode} (h : DataOk s n) : n.size ≤ n.capacity := by
  unfold DataOk at h
  split at h
  · omega
  · obtain ⟨buf, -, -, hsize, -⟩ := h
    omega

/-- Files have no children, and directories no data. -/
structure NodeOk (s : Fs) (n : FsNode) : Prop where
  file : n.type = .file → n.children = none
  dir : n.type = .dir → n.data = none
  data : DataOk s n

/-- The whole tree. -/
abbrev tree (root : Ptr) (kids : Forest Ptr) : Forest Ptr := cons root kids nil

/-- The tree from `root` on, with `kids` below the root, is all there is. -/
structure TreeInv (s : Fs) (root : Ptr) (kids : Forest Ptr) : Prop where
  isRoot : s.rootNode = some root
  rep : Rep (links s) none (some root) (tree root kids)
  nodup : (tree root kids).ids.Nodup
  live : ∀ p, p ∈ (tree root kids).ids ↔ ∃ n, s.nodes.get p = some n
  ok : ∀ {p n}, s.nodes.get p = some n → NodeOk s n
  rootDir : ∀ {n}, s.nodes.get root = some n → n.type = .dir
  names : ∀ {p n}, s.nodes.get p = some n → p ≠ root → IsName n.name
  owner : ∀ {p q n m d}, s.nodes.get p = some n → s.nodes.get q = some m → n.data = some d →
    m.data = some d → p = q
  noLeak : ∀ {d buf}, s.bufs.get d = some buf → ∃ p n, s.nodes.get p = some n ∧ n.data = some d
  count : s.nodeCount = (tree root kids).ids.length

variable {s : Fs} {root : Ptr} {kids : Forest Ptr}

theorem TreeInv.get (h : TreeInv s root kids) {p : Ptr} (hp : p ∈ (tree root kids).ids) :
    ∃ n, s.nodes.get p = some n := (h.live p).mp hp

theorem TreeInv.mem (h : TreeInv s root kids) {p : Ptr} {n : FsNode}
    (hp : s.nodes.get p = some n) : p ∈ (tree root kids).ids := (h.live p).mpr ⟨n, hp⟩

theorem TreeInv.lt_brk (h : TreeInv s root kids) {p : Ptr} (hp : p ∈ (tree root kids).ids) :
    p < s.nodes.brk := by
  obtain ⟨n, hn⟩ := h.get hp
  exact s.nodes.lt_brk hn

/-- There are no more nodes than addresses. -/
theorem TreeInv.length_le (h : TreeInv s root kids) :
    (tree root kids).ids.length ≤ s.nodes.brk := by
  have hsub : (tree root kids).ids ⊆ List.range s.nodes.brk := fun p hp =>
    List.mem_range.mpr (h.lt_brk hp)
  have hle := (List.subperm_of_subset h.nodup hsub).length_le
  rwa [List.length_range] at hle

/-- What is below a node, and how its link and its children fit. -/
theorem TreeInv.sub (h : TreeInv s root kids) {p : Ptr} {n : FsNode}
    (hp : s.nodes.get p = some n) :
    ∃ ch, (tree root kids).sub p = some ch ∧ Rep (links s) (some p) n.children ch := by
  obtain ⟨ch, hch⟩ := exists_sub (h.mem hp)
  have hrep := h.rep.sub hch
  have hlink : (links s).children p = n.children := by simp [links, hp]
  rw [hlink] at hrep
  exact ⟨ch, hch, hrep⟩

theorem length_tops_le (f : Forest Ptr) : f.tops.length ≤ f.ids.length := by
  induction f with
  | nil => simp
  | cons a ch rest _ ih =>
    simp only [tops_cons, ids_cons, List.length_cons, List.length_append]
    omega

theorem TreeInv.sub_length (h : TreeInv s root kids) {p : Ptr} {ch : Forest Ptr}
    (hch : (tree root kids).sub p = some ch) : ch.ids.length < s.nodes.brk := by
  have hnd := sub_nodup h.nodup hch
  have hsub : p :: ch.ids ⊆ (tree root kids).ids := by
    intro x hx
    rcases List.mem_cons.mp hx with rfl | hx
    · exact mem_of_sub hch
    · exact sub_subset hch hx
  have hle := (List.subperm_of_subset hnd hsub).length_le
  have := h.length_le
  rw [List.length_cons] at hle
  omega

/-! ## Looking for a child -/

def hasName (s : Fs) (name : List UInt8) (p : Ptr) : Bool :=
  (s.nodes.get p).any fun n => n.name = name

theorem findChildLoop_spec {name : List UInt8} {up head : Option Ptr} {f : Forest Ptr}
    (hrep : Rep (links s) up head f) (hlive : ∀ p ∈ f.tops, ∃ n, s.nodes.get p = some n) :
    ∀ {fuel : Nat}, f.tops.length < fuel →
      findChildLoop s name fuel head = some (f.tops.find? (hasName s name)) := by
  induction f generalizing head with
  | nil =>
    intro fuel _
    have hhead : head = none := hrep
    subst hhead
    cases fuel <;> rfl
  | cons a ch rest _ ih =>
    intro fuel hf
    obtain ⟨rfl, -, -, hrest⟩ := hrep
    cases fuel with
    | zero => omega
    | succ fuel =>
      obtain ⟨n, hn⟩ := hlive a (by simp)
      have hnext : (links s).next a = n.next := by simp [links, hn]
      rw [hnext] at hrest
      rw [findChildLoop, hn, tops_cons, List.find?_cons]
      have hname : hasName s name a = decide (n.name = name) := by simp [hasName, hn]
      rw [hname]
      by_cases hc : n.name = name
      · simp [hc]
      · simp only [hc, decide_false]
        refine ih hrest (fun p hp => hlive p (by simp [hp])) ?_
        rw [tops_cons, List.length_cons] at hf
        omega

/-- A directory is searched for the first child of a name. A file has no children. -/
theorem TreeInv.findChild (h : TreeInv s root kids) {d : Ptr} {dn : FsNode}
    (hd : s.nodes.get d = some dn) {ch : Forest Ptr} (hch : (tree root kids).sub d = some ch)
    (name : List UInt8) :
    Ramfs.findChild s (some d) name =
      some (if dn.type = .dir then ch.tops.find? (hasName s name) else none) := by
  unfold Ramfs.findChild
  simp only [hd]
  by_cases htype : dn.type = .dir
  · rw [if_neg (by simp [htype]), if_pos htype]
    obtain ⟨ch', hch', hrep⟩ := h.sub hd
    rw [hch] at hch'
    obtain rfl := Option.some.inj hch'
    refine findChildLoop_spec hrep (fun p hp => h.get (sub_subset hch (tops_subset _ hp))) ?_
    have := h.sub_length hch
    have := length_tops_le ch
    omega
  · rw [if_pos htype, if_neg htype]

theorem TreeInv.findChild_mem (h : TreeInv s root kids) {d c : Ptr} {name : List UInt8}
    (hd : d ∈ (tree root kids).ids) (hc : Ramfs.findChild s (some d) name = some (some c)) :
    c ∈ (tree root kids).ids := by
  obtain ⟨dn, hdn⟩ := h.get hd
  obtain ⟨ch, hch, -⟩ := h.sub hdn
  rw [h.findChild hdn hch] at hc
  by_cases htype : dn.type = .dir
  · rw [if_pos htype, Option.some.injEq] at hc
    exact sub_subset hch (tops_subset _ (List.mem_of_find?_eq_some hc))
  · simp [htype] at hc

/-! ## Walks -/

theorem TreeInv.parent_mem (h : TreeInv s root kids) {p q : Ptr} {n : FsNode}
    (hp : s.nodes.get p = some n) (hq : n.parent = some q) :
    ∃ ch, (tree root kids).sub q = some ch ∧ p ∈ ch.tops := by
  have hparent : (links s).parent p = some q := by simp [links, hp, hq]
  rcases h.rep.parent_cases h.nodup (h.mem hp) with ⟨-, hn⟩ | ⟨d, ch, hch, htop, hd⟩
  · rw [hparent] at hn
    simp at hn
  · rw [hparent] at hd
    obtain rfl := Option.some.inj hd
    exact ⟨ch, hch, htop⟩

/-- Only the root has no parent. -/
theorem TreeInv.eq_root (h : TreeInv s root kids) {p : Ptr} {n : FsNode}
    (hp : s.nodes.get p = some n) (hn : n.parent = none) : p = root := by
  have hparent : (links s).parent p = none := by simp [links, hp, hn]
  rcases h.rep.parent_cases h.nodup (h.mem hp) with ⟨ht, -⟩ | ⟨d, ch, -, -, hd⟩
  · simpa using ht
  · rw [hparent] at hd
    simp at hd

theorem TreeInv.root_parent (h : TreeInv s root kids) {n : FsNode}
    (hr : s.nodes.get root = some n) : n.parent = none := by
  have hparent := h.rep.2.1
  simpa [links, hr] using hparent

theorem TreeInv.root_mem (_ : TreeInv s root kids) : root ∈ (tree root kids).ids := by simp

theorem TreeInv.parentOrRoot (h : TreeInv s root kids) {p : Ptr}
    (hp : p ∈ (tree root kids).ids) :
    ∃ q, Ramfs.parentOrRoot s (some p) = some (some q) ∧ q ∈ (tree root kids).ids := by
  obtain ⟨n, hn⟩ := h.get hp
  unfold Ramfs.parentOrRoot
  simp only [hn]
  cases hq : n.parent with
  | none => exact ⟨root, by simp [h.isRoot], h.root_mem⟩
  | some q =>
    obtain ⟨ch, hch, -⟩ := h.parent_mem hn hq
    exact ⟨q, rfl, mem_of_sub hch⟩

/-- From a node of the tree, every walk ends, in the tree or nowhere. -/
theorem TreeInv.follow (h : TreeInv s root kids) (names : List (List UInt8)) :
    ∀ {p : Ptr}, p ∈ (tree root kids).ids →
      ∃ q, Ramfs.follow s (some p) names = some q ∧ ∀ r, q = some r → r ∈ (tree root kids).ids := by
  induction names with
  | nil =>
    intro p hp
    exact ⟨some p, rfl, fun r hr => Option.some.inj hr ▸ hp⟩
  | cons name names ih =>
    intro p hp
    rw [Ramfs.follow]
    by_cases h1 : name = [dot]
    · rw [if_pos h1]
      exact ih hp
    rw [if_neg h1]
    by_cases h2 : name = [dot, dot]
    · obtain ⟨q, hq, hmem⟩ := h.parentOrRoot hp
      rw [if_pos h2, hq]
      exact ih hmem
    · rw [if_neg h2]
      obtain ⟨n, hn⟩ := h.get hp
      obtain ⟨ch, hch, -⟩ := h.sub hn
      have hfind := h.findChild hn hch name
      cases hc : (if n.type = .dir then ch.tops.find? (hasName s name) else none) with
      | none =>
        rw [hc] at hfind
        exact ⟨none, by rw [hfind], by simp⟩
      | some c =>
        rw [hc] at hfind
        rw [hfind]
        exact ih (h.findChild_mem hp hfind)

/-- From any other place, a walk stays where it is or there is no memory to look at. -/
theorem TreeInv.follow_mem (h : TreeInv s root kids) (names : List (List UInt8)) {p q : Ptr}
    (hf : Ramfs.follow s (some p) names = some (some q)) :
    q ∈ (tree root kids).ids ∨ q = p := by
  by_cases hp : p ∈ (tree root kids).ids
  · obtain ⟨r, hr, hmem⟩ := h.follow names hp
    rw [hf] at hr
    exact Or.inl (hmem q (Option.some.inj hr).symm)
  have hnone : s.nodes.get p = none := by
    cases hn : s.nodes.get p with
    | none => rfl
    | some n => exact absurd (h.mem hn) hp
  induction names with
  | nil => exact Or.inr (Option.some.inj (Option.some.inj hf)).symm
  | cons name names ih =>
    rw [Ramfs.follow] at hf
    by_cases h1 : name = [dot]
    · rw [if_pos h1] at hf
      exact ih hf
    rw [if_neg h1] at hf
    by_cases h2 : name = [dot, dot]
    · simp [h2, Ramfs.parentOrRoot, hnone] at hf
    · simp [h2, Ramfs.findChild, hnone] at hf

/-- The working directory is a directory of the tree. -/
def CwdOk (s : Fs) : Prop :=
  ∃ p n, s.currentDir = some p ∧ s.nodes.get p = some n ∧ n.type = .dir

theorem TreeInv.start (h : TreeInv s root kids) (hc : CwdOk s) (path : List UInt8) :
    ∃ p, Ramfs.start s path = some p ∧ p ∈ (tree root kids).ids := by
  unfold Ramfs.start
  by_cases hs : path.head? = some slash
  · exact ⟨root, by rw [if_pos hs, h.isRoot], h.root_mem⟩
  · obtain ⟨p, n, hp, hn, -⟩ := hc
    exact ⟨p, by rw [if_neg hs, hp], h.mem hn⟩

theorem TreeInv.fsResolve (h : TreeInv s root kids) (hc : CwdOk s) (path : List UInt8) :
    ∃ q, Ramfs.fsResolve s path = some q ∧ ∀ r, q = some r → r ∈ (tree root kids).ids := by
  obtain ⟨p, hp, hmem⟩ := h.start hc path
  rw [fsResolve_follow, hp]
  exact h.follow _ hmem

theorem TreeInv.fsResolve_mem (h : TreeInv s root kids) {path : List UInt8} {q : Ptr}
    (hq : Ramfs.fsResolve s path = some (some q)) :
    q ∈ (tree root kids).ids ∨ s.currentDir = some q := by
  rw [fsResolve_follow] at hq
  cases hp : Ramfs.start s path with
  | none =>
    rw [hp] at hq
    rcases follow_none s (pathNames path) with hn | hn
    · rw [hn] at hq
      simp at hq
    · rw [hn] at hq
      simp at hq
  | some p =>
    rw [hp] at hq
    rcases h.follow_mem _ hq with hm | rfl
    · exact Or.inl hm
    · unfold Ramfs.start at hp
      by_cases hs : path.head? = some slash
      · rw [if_pos hs, h.isRoot, Option.some.injEq] at hp
        exact Or.inl (hp ▸ h.root_mem)
      · rw [if_neg hs] at hp
        exact Or.inr hp

end LightningOS.Ramfs
