import LightningOS.Properties.Cwd

/-!
# What is left after a removal

`fs_remove` takes one node out of the tree, with everything below it. Nothing else changes,
and when it fails nothing changes at all.
-/

namespace LightningOS.Ramfs

open ByteMemory CString Forest

variable {s s' : Fs} {root : Ptr} {kids : Forest Ptr}

/-- A node that was not removed has its contents. -/
theorem Removed.contents {gone : List Ptr} (hr : Removed s s' gone) {q : Ptr} {n n' : FsNode}
    (hq : q ∉ gone) (hn : s.nodes.get q = some n) (hbody : SameBody n n') :
    contents s' n' = contents s n := by
  unfold Ramfs.contents
  rw [hbody.data, hbody.size]
  cases hd : n.data with
  | none => rfl
  | some d => rw [Option.bind_some, Option.bind_some, hr.bufs hq hn hd]

/-- The tree of `node`, with `below` below it, is gone, and `kids'` are left. -/
structure SubtreeGone (s s' : Fs) (root : Ptr) (kids kids' : Forest Ptr) (node : Ptr)
    (below : Forest Ptr) : Prop where
  isBelow : (tree root kids).sub node = some below
  inv : TreeInv s' root kids'
  eq : tree root kids' = (tree root kids).delete node
  freed : ∀ {q}, q ∈ node :: below.ids → s'.nodes.get q = none
  bufFreed : ∀ {q n d}, q ∈ node :: below.ids → s.nodes.get q = some n → n.data = some d →
    s'.bufs.get d = Option.none
  kept : ∀ {q n}, q ∉ node :: below.ids → s.nodes.get q = some n → ∃ n',
    s'.nodes.get q = some n' ∧ SameBody n n' ∧ contents s' n' = contents s n
  bufKept : ∀ {q n d}, q ∉ node :: below.ids → s.nodes.get q = some n → n.data = some d →
    s'.bufs.get d = s.bufs.get d
  none : ∀ {q}, s.nodes.get q = none → s'.nodes.get q = none
  bufNone : ∀ {d}, s.bufs.get d = Option.none → s'.bufs.get d = Option.none
  count : s'.nodeCount = s.nodeCount - (node :: below.ids).length
  root : s'.rootNode = s.rootNode
  cwd : s'.currentDir = s.currentDir

/-- `fs_remove` of a node that it does not refuse. -/
theorem TreeInv.fsRemove_node (h : TreeInv s root kids) {path : List UInt8} {node : Ptr}
    (hres : Ramfs.fsResolve s path = some (some node)) (hmem : node ∈ (tree root kids).ids)
    (hroot : node ≠ root) (hcwd : s.currentDir ≠ some node) :
    ∃ s' kids' below, Ramfs.fsRemove s path = some (0, s') ∧
      SubtreeGone s s' root kids kids' node below := by
  obtain ⟨n, hn⟩ := h.get hmem
  obtain ⟨d, ch, below, kids', s₁, s', hd, hch, htop, hbelow, hunlink, hfree, heq, hinv, hr⟩ :=
    h.remove hn hroot
  have hne : s.rootNode ≠ some node := by
    rw [h.isRoot]
    exact fun hc => hroot (Option.some.inj hc).symm
  have hids : ∀ {q}, q ∈ node :: below.ids ↔ q ∈ below.ids ++ [node] := by
    intro q
    simp [or_comm]
  have hdelete : tree root kids' = (tree root kids).delete node :=
    heq.trans (update_dropTop h.nodup hch htop)
  refine ⟨s', kids', below, ?_, hbelow, hinv, hdelete, fun hq => hr.freed (hids.mp hq),
    fun hq => hr.bufGone (hids.mp hq), fun {q n} hq hn => ?_,
    fun hq => hr.bufs (mt hids.mpr hq), fun hq => hr.none hq, fun hd => hr.bufNone hd, ?_, hr.root,
    hr.cwd⟩
  · unfold Ramfs.fsRemove
    simp only [hres, if_neg hne, if_neg hcwd, hn, hd, hunlink, hfree]
  · obtain ⟨n', hn', hbody⟩ := hr.old (mt hids.mpr hq) hn
    exact ⟨n', hn', hbody, hr.contents (mt hids.mpr hq) hn hbody⟩
  · -- the nodes of both trees are the allocated ones
    have hlen := (ids_update_dropTop h.nodup hch htop hbelow).length_eq
    rw [← heq] at hlen
    rw [hinv.count, h.count, hlen]
    simp only [List.length_append, List.length_cons, List.length_nil]
    omega

/-- **Removing is exact.** `fs_remove` comes back. If its result is 0, exactly the tree of the
node that the path leads to is gone: the nodes and buffers that are allocated afterwards are
the others, so each of those was freed, and once, since freeing it again would have been a
fault. Otherwise nothing has happened. The search of `unlink` always finds the node. -/
theorem remove_exact (h : TreeInv s root kids) (hc : CwdOk s) (path : List UInt8) :
    (∃ res s', fsRemove s path = some (res, s') ∧
      (res < 0 ∧ s' = s ∨
        res = 0 ∧ ∃ node below kids', fsResolve s path = some (some node) ∧
          SubtreeGone s s' root kids kids' node below)) ∧
    ∀ node n d, s.nodes.get node = some n → n.parent = some d →
      unlink s d node n.next ≠ some none := by
  constructor
  · obtain ⟨r, hr, hmem⟩ := h.fsResolve hc path
    cases r with
    | none => exact ⟨-1, s, by simp [fsRemove, hr], Or.inl ⟨by decide, rfl⟩⟩
    | some node =>
      by_cases hroot : node = root
      · have hroot' : s.rootNode = some node := hroot ▸ h.isRoot
        exact ⟨-1, s, by simp [fsRemove, hr, hroot'], Or.inl ⟨by decide, rfl⟩⟩
      by_cases hcwd : s.currentDir = some node
      · have hne : s.rootNode ≠ some node := by
          rw [h.isRoot]
          exact fun hc => hroot (Option.some.inj hc).symm
        exact ⟨-2, s, by simp [fsRemove, hr, hne, hcwd], Or.inl ⟨by decide, rfl⟩⟩
      · obtain ⟨s', kids', below, hrun, hgone⟩ :=
          h.fsRemove_node hr (hmem node rfl) hroot hcwd
        exact ⟨0, s', hrun, Or.inr ⟨rfl, node, below, kids', hr, hgone⟩⟩
  · intro node n d hn hd hnone
    have hroot : node ≠ root := by
      rintro rfl
      rw [h.root_parent hn] at hd
      simp at hd
    obtain ⟨d', -, -, -, s₁, -, hd', -, -, -, hunlink, -⟩ := h.remove hn hroot
    rw [hd] at hd'
    obtain rfl := Option.some.inj hd'
    rw [hunlink] at hnone
    simp at hnone

def etc : List UInt8 := ofString "/etc"

/-- `/etc` goes, with its four files. -/
theorem remove_exact_etc : ∃ s s' root kids kids' node below,
    fsInit .ample .zero = some s ∧ fsRemove s etc = some (0, s') ∧
      SubtreeGone s s' root kids kids' node below ∧ s'.nodeCount = s.nodeCount - 5 := by
  have h : (fsInit .ample .zero).bind (fun s => (fsRemove s etc).map fun r =>
      (decide (s.rootNode ≠ none), r.1, s.nodeCount - r.2.nodeCount)) = some (true, 0, 5) := by
    decide +kernel
  simp only [Option.bind_eq_some_iff, Option.map_eq_some_iff, Prod.mk.injEq,
    decide_eq_true_eq] at h
  obtain ⟨s, hinit, ⟨res, s'⟩, hrun, hroot, hzero, hcount⟩ := h
  obtain ⟨root, kids, hinv, hc⟩ := fsInit_tree .ample hinit hroot
  obtain ⟨res', s'', hrun', hcase⟩ := (remove_exact hinv hc etc).1
  rw [hrun] at hrun'
  obtain ⟨rfl, rfl⟩ := Prod.mk.inj (Option.some.inj hrun')
  dsimp only at hzero hcount
  rcases hcase with ⟨hneg, -⟩ | ⟨-, node, below, kids', -, hgone⟩
  · omega
  · refine ⟨s, s', root, kids, kids', node, below, hinit, ?_, hgone, by omega⟩
    rw [hrun, hzero]

end LightningOS.Ramfs
