import LightningOS.Properties.Siblings

/-!
# Where a node is

The true location of a node is the list of the names from the root down to it. `fs_abspath`
puts such a list into a string, as far as its 32 names and its 256 bytes reach.
-/

namespace LightningOS.Ramfs

open ByteMemory CString Forest

/-! ## Locations -/

/-- The names from the root down to a node. -/
inductive Located (s : Fs) : Ptr → List (List UInt8) → Prop
  | root {p : Ptr} : s.rootNode = some p → Located s p []
  | child {p d : Ptr} {n : FsNode} {ns : List (List UInt8)} : Located s d ns →
      s.nodes.get p = some n → n.parent = some d → Located s p (ns ++ [n.name])

variable {s s' : Fs} {root : Ptr} {kids : Forest Ptr}

/-- Nodes that keep their names and parents stay where they are. -/
theorem Located.kept {p : Ptr} {ns : List (List UInt8)} (h : Located s p ns)
    (hroot : s'.rootNode = s.rootNode)
    (hold : ∀ {q n}, s.nodes.get q = some n →
      ∃ n', s'.nodes.get q = some n' ∧ n'.name = n.name ∧ n'.parent = n.parent) :
    Located s' p ns := by
  induction h with
  | root hp => exact .root (hroot.trans hp)
  | child _ hn hparent ih =>
    obtain ⟨n', hn', hname, hparent'⟩ := hold hn
    rw [← hname]
    exact .child ih hn' (hparent'.trans hparent)

theorem TreeInv.located_root (h : TreeInv s root kids) {ns : List (List UInt8)}
    (hl : Located s root ns) : ns = [] := by
  cases hl with
  | root => rfl
  | child _ hn hparent =>
    rw [h.root_parent hn] at hparent
    simp at hparent

theorem Located.isRoot {p : Ptr} (hl : Located s p []) : s.rootNode = some p := by
  generalize hnil : ([] : List (List UInt8)) = ns at hl
  cases hl with
  | root hp => exact hp
  | child _ _ _ => simp at hnil

/-- A node is in one place only. -/
theorem TreeInv.located_unique (h : TreeInv s root kids) {p : Ptr} {ns ms : List (List UInt8)}
    (hns : Located s p ns) (hms : Located s p ms) : ns = ms := by
  induction hns generalizing ms with
  | root hp =>
    rw [h.isRoot, Option.some.injEq] at hp
    subst hp
    exact (h.located_root hms).symm
  | child hd hn hparent ih =>
    cases hms with
    | root hp =>
      rw [h.isRoot, Option.some.injEq] at hp
      subst hp
      rw [h.root_parent hn] at hparent
      simp at hparent
    | child hd' hn' hparent' =>
      rw [hn] at hn'
      obtain rfl := Option.some.inj hn'
      rw [hparent] at hparent'
      obtain rfl := Option.some.inj hparent'
      rw [ih hd']

/-- Everything in a part of the tree is located below the node the part hangs on. -/
theorem TreeInv.located_below (h : TreeInv s root kids) {d : Ptr} {head : Option Ptr}
    {f : Forest Ptr} {ns : List (List UInt8)} (hrep : Forest.Rep (links s) (some d) head f)
    (hsub : f.ids ⊆ (tree root kids).ids) (hd : Located s d ns) {p : Ptr} (hp : p ∈ f.ids) :
    ∃ ms, ms ≠ [] ∧ Located s p (ns ++ ms) := by
  induction f generalizing d head ns with
  | nil => simp at hp
  | cons a ch rest ihc ihr =>
    obtain ⟨-, hparent, hch, hrest⟩ := hrep
    simp only [ids_cons, List.cons_subset, List.append_subset] at hsub
    obtain ⟨n, hn⟩ := h.get hsub.1
    have ha : Located s a (ns ++ [n.name]) := .child hd hn (by simpa [links, hn] using hparent)
    simp only [ids_cons, List.mem_cons, List.mem_append] at hp
    rcases hp with rfl | hp | hp
    · exact ⟨[n.name], by simp, ha⟩
    · obtain ⟨ms, -, hms⟩ := ihc hch hsub.2.1 ha hp
      exact ⟨n.name :: ms, by simp, by simpa using hms⟩
    · exact ihr hrest hsub.2.2 hd hp

theorem TreeInv.located (h : TreeInv s root kids) {p : Ptr} (hp : p ∈ (tree root kids).ids) :
    ∃ ns, Located s p ns := by
  have hroot : Located s root [] := .root h.isRoot
  simp only [ids_cons, ids_nil, List.append_nil, List.mem_cons] at hp
  rcases hp with rfl | hp
  · exact ⟨[], hroot⟩
  · obtain ⟨ms, -, hms⟩ := h.located_below h.rep.2.2.1 (by simp) hroot hp
    exact ⟨ms, by simpa using hms⟩

theorem Located.mem (h : TreeInv s root kids) {p : Ptr} {ns : List (List UInt8)}
    (hl : Located s p ns) : p ∈ (tree root kids).ids := by
  cases hl with
  | root hp =>
    rw [h.isRoot, Option.some.injEq] at hp
    exact hp ▸ h.root_mem
  | child _ hn _ => exact h.mem hn

/-- The names in a location are names. -/
theorem Located.isName (h : TreeInv s root kids) {p : Ptr} {ns : List (List UInt8)}
    (hl : Located s p ns) : ∀ name ∈ ns, IsName name := by
  induction hl with
  | root => simp
  | @child p d n ns _ hn hparent ih =>
    intro name hname
    rcases List.mem_append.mp hname with hname | hname
    · exact ih name hname
    · rw [List.mem_singleton] at hname
      subst hname
      refine h.names hn ?_
      rintro rfl
      rw [h.root_parent hn] at hparent
      simp at hparent

/-- Going up does not lead further down. -/
theorem Located.up (h : TreeInv s root kids) {p up : Ptr} {ns : List (List UInt8)}
    (hl : Located s p ns) (hup : parentOrRoot s (some p) = some (some up)) :
    ∃ us, Located s up us ∧ us <+: ns := by
  cases hl with
  | root hp =>
    rw [h.isRoot, Option.some.injEq] at hp
    subst hp
    obtain ⟨rn, hrn⟩ := h.get h.root_mem
    simp only [parentOrRoot, hrn, h.root_parent hrn, h.isRoot, Option.some.injEq] at hup
    exact ⟨[], hup ▸ .root h.isRoot, List.prefix_rfl⟩
  | @child _ d n ms hd hn hparent =>
    simp only [parentOrRoot, hn, hparent, Option.some.injEq] at hup
    exact ⟨ms, hup ▸ hd, List.prefix_append _ _⟩

/-- A new node does not move the others. -/
theorem CreatedIn.located {kids' : Forest Ptr} {d p : Ptr} {comp : List UInt8} {type : FsType}
    (hin : CreatedIn s s' root kids kids' d p comp type) {q : Ptr} {ns : List (List UInt8)}
    (hl : Located s q ns) : Located s' q ns := by
  refine hl.kept hin.added.root fun {r n} hn => ?_
  have hne : r ≠ p := by
    rintro rfl
    rw [hin.fresh] at hn
    simp at hn
  obtain ⟨n', hn', hbody⟩ := hin.added.old hne hn
  exact ⟨n', hn', hbody.name, hbody.parent⟩

theorem CreatedIn.located_new {kids' : Forest Ptr} {d p : Ptr} {comp : List UInt8}
    {type : FsType} (hin : CreatedIn s s' root kids kids' d p comp type)
    {ns : List (List UInt8)} (hl : Located s d ns) : Located s' p (ns ++ [comp]) :=
  .child (hin.located hl) hin.added.new rfl

/-! ## Locations as text -/

/-- The path to a location. -/
def joinPath (ns : List (List UInt8)) : List UInt8 := ns.flatMap (slash :: ·)

theorem joinPath_nil : joinPath [] = [] := rfl

theorem joinPath_cons (name : List UInt8) (ns : List (List UInt8)) :
    joinPath (name :: ns) = slash :: (name ++ joinPath ns) := rfl

theorem joinPath_append (ns ms : List (List UInt8)) :
    joinPath (ns ++ ms) = joinPath ns ++ joinPath ms := List.flatMap_append

theorem joinPath_concat (ns : List (List UInt8)) (name : List UInt8) :
    joinPath (ns ++ [name]) = joinPath ns ++ slash :: name := by
  rw [joinPath_append, joinPath_cons, joinPath_nil, List.append_nil]

theorem joinPath_cases (ns : List (List UInt8)) :
    joinPath ns = [] ∨ ∃ cs, joinPath ns = slash :: cs := by
  cases ns with
  | nil => exact Or.inl rfl
  | cons name ns => exact Or.inr ⟨_, rfl⟩

theorem joinPath_length_le {ns : List (List UInt8)} (h : ∀ name ∈ ns, IsName name) :
    (joinPath ns).length ≤ fsNameMax * ns.length := by
  induction ns with
  | nil => simp [joinPath_nil]
  | cons name ns ih =>
    have hname := (h name (by simp)).length
    have hrest := ih fun m hm => h m (by simp [hm])
    have hmax : fsNameMax = 32 := rfl
    simp only [joinPath_cons, List.length_cons, List.length_append, Nat.mul_succ]
    omega

/-- The walk along the path to a location looks at the names of the location. -/
theorem components_joinPath {ns : List (List UInt8)} (h : ∀ name ∈ ns, IsName name) :
    components (joinPath ns) = ns := by
  induction ns with
  | nil => rfl
  | cons name ns ih =>
    have hname := h name (by simp)
    rw [joinPath_cons, components_slash,
      components_append hname.ne_nil hname.slash (joinPath_cases ns),
      ih fun m hm => h m (by simp [hm]), List.take_of_length_le hname.length]

/-- `fs_abspath` writes as many parts as fit. -/
theorem joinParts_eq (size : Nat) (parts : List (List UInt8)) : ∀ out : List UInt8,
    ∃ k, joinParts size out parts = out ++ joinPath (parts.take k) ∧
      (k = parts.length ∨
        size ≤ out.length + (joinPath (parts.take (k + 1))).length + 1) := by
  induction parts with
  | nil =>
    intro out
    exact ⟨0, by simp [joinParts, joinPath_nil], Or.inl rfl⟩
  | cons part parts ih =>
    intro out
    rw [joinParts]
    by_cases hfull : size ≤ out.length + part.length + 2
    · refine ⟨0, by rw [if_pos hfull]; simp [joinPath_nil], Or.inr ?_⟩
      simp only [Nat.zero_add, List.take_succ_cons, List.take_zero, joinPath_cons, joinPath_nil,
        List.append_nil, List.length_cons]
      omega
    · obtain ⟨k, hjoin, hk⟩ := ih (out ++ slash :: part)
      refine ⟨k + 1, ?_, hk.imp (by simp) fun hsize => ?_⟩
      · rw [if_neg hfull, hjoin, List.take_succ_cons, joinPath_cons, List.append_assoc,
          List.cons_append]
      · simp only [List.take_succ_cons, joinPath_cons, List.length_append, List.length_cons]
          at hsize ⊢
        omega

/-- All parts fit. -/
theorem joinParts_fits {size : Nat} {parts : List (List UInt8)}
    (h : (joinPath parts).length + 1 < size) : joinParts size [] parts = joinPath parts := by
  obtain ⟨k, hjoin, hk⟩ := joinParts_eq size parts []
  rw [hjoin, List.nil_append]
  rcases hk with rfl | hsize
  · rw [List.take_length]
  · -- a prefix would already be too long
    exfalso
    have hsplit := congrArg List.length
      (congrArg joinPath (List.take_append_drop (k + 1) parts))
    rw [joinPath_append, List.length_append] at hsplit
    rw [List.length_nil] at hsize
    omega

/-- What `fs_abspath` writes leaves room for two more bytes. -/
theorem joinParts_room {size : Nat} (parts : List (List UInt8)) : ∀ {out : List UInt8},
    out.length + 1 < size → (joinParts size out parts).length + 1 < size := by
  induction parts with
  | nil =>
    intro out h
    exact h
  | cons part parts ih =>
    intro out h
    rw [joinParts]
    split
    · exact h
    · refine ih ?_
      rw [List.length_append, List.length_cons]
      omega

/-! ## What `fs_abspath` sees -/

/-- How many names the array of `fs_abspath` holds. -/
def partsMax : Nat := 32

/-- The names nearest to the node, as many as `fs_abspath` collects. -/
def seen (ns : List (List UInt8)) : List (List UInt8) := ns.drop (ns.length - partsMax)

theorem seen_of_le {ns : List (List UInt8)} (h : ns.length ≤ partsMax) : seen ns = ns := by
  rw [seen, Nat.sub_eq_zero_of_le h, List.drop_zero]

theorem seen_length (ns : List (List UInt8)) : (seen ns).length = min ns.length partsMax := by
  rw [seen, List.length_drop]
  omega

theorem seen_isName {ns : List (List UInt8)} (h : ∀ name ∈ ns, IsName name) :
    ∀ name ∈ seen ns, IsName name := fun name hname => h name (List.mem_of_mem_drop hname)

theorem Located.absParts (h : TreeInv s root kids) {p : Ptr} {ns : List (List UInt8)}
    (hl : Located s p ns) :
    ∀ room, Ramfs.absParts s room p = some (ns.reverse.take room) := by
  induction hl with
  | @root p hp =>
    intro room
    rw [h.isRoot, Option.some.injEq] at hp
    subst hp
    obtain ⟨rn, hrn⟩ := h.get h.root_mem
    cases room with
    | zero => rfl
    | succ room => simp [Ramfs.absParts, hrn, h.root_parent hrn]
  | child _ hn hparent ih =>
    intro room
    cases room with
    | zero => rfl
    | succ room => simp [Ramfs.absParts, hn, hparent, ih room]

/-- The string for a node. -/
theorem Located.fsAbspath (h : TreeInv s root kids) {p : Ptr} {ns : List (List UInt8)}
    (hl : Located s p ns) :
    Ramfs.fsAbspath s p fsPathMax =
      some (if ns = [] then [slash] else joinParts fsPathMax [] (seen ns)) := by
  unfold Ramfs.fsAbspath
  rw [hl.absParts h]
  have hseen : (ns.reverse.take 32).reverse = seen ns := by
    rw [List.reverse_take, List.reverse_reverse, List.length_reverse]
    rfl
  by_cases hns : ns = []
  · subst hns
    rfl
  · rw [if_neg hns]
    split
    · rename_i hnone
      simp at hnone
    · rename_i hnil
      simp only [Option.some.injEq, List.take_eq_nil_iff, List.reverse_eq_nil_iff] at hnil
      rcases hnil with h0 | h0
      · simp at h0
      · exact absurd h0 hns
    · rename_i parts _ hparts
      rw [← Option.some.inj hparts, hseen]

theorem Located.abspath_room (h : TreeInv s root kids) {p : Ptr} {ns : List (List UInt8)}
    (hl : Located s p ns) (hns : ns ≠ []) {out : List UInt8}
    (habs : Ramfs.fsAbspath s p fsPathMax = some out) : out.length + 1 < fsPathMax := by
  rw [hl.fsAbspath h, if_neg hns, Option.some.injEq] at habs
  rw [← habs]
  exact joinParts_room (seen ns) (by decide)

/-- The string for a node is the path of the names that are seen, as far as they fit. -/
theorem abspath_eq (h : TreeInv s root kids) {p : Ptr} {ns : List (List UInt8)}
    (hl : Located s p ns) : ∃ out k, fsAbspath s p fsPathMax = some out ∧
      (k = (seen ns).length ∨ 2 ≤ k) ∧
      (ns = [] ∧ out = [slash] ∨
        ns ≠ [] ∧ out = joinPath ((seen ns).take k) ∧ 2 ≤ out.length) := by
  have habs := hl.fsAbspath h
  by_cases hns : ns = []
  · rw [if_pos hns] at habs
    exact ⟨_, (seen ns).length, habs, Or.inl rfl, Or.inl ⟨hns, rfl⟩⟩
  rw [if_neg hns] at habs
  have hnames := seen_isName (hl.isName h)
  obtain ⟨k, hjoin, hk⟩ := joinParts_eq fsPathMax (seen ns) []
  rw [hjoin, List.nil_append] at habs
  have hmax : fsPathMax = 256 := rfl
  have hname : fsNameMax = 32 := rfl
  -- one more part would not have fitted, so there are several already
  have hk' : k = (seen ns).length ∨ 2 ≤ k := by
    refine hk.imp_right fun hsize => ?_
    have hcut : ∀ m ∈ (seen ns).take (k + 1), IsName m := fun m hm =>
      hnames m (List.mem_of_mem_take hm)
    have hle := joinPath_length_le hcut
    have htake := List.length_take_le (k + 1) (seen ns)
    rw [hname] at hle
    rw [List.length_nil] at hsize
    omega
  refine ⟨_, k, habs, hk', Or.inr ⟨hns, rfl, ?_⟩⟩
  have hseen : (seen ns).length ≠ 0 := by
    have := List.length_pos_iff.mpr hns
    have : partsMax = 32 := rfl
    rw [seen_length]
    omega
  obtain ⟨j, rfl⟩ : ∃ j, k = j + 1 := ⟨k - 1, by omega⟩
  cases hcons : seen ns with
  | nil => simp [hcons] at hseen
  | cons name rest =>
    have hpos := List.length_pos_iff.mpr (hnames name (by simp [hcons])).ne_nil
    simp only [List.take_succ_cons, joinPath_cons, List.length_cons, List.length_append]
    omega

/-- The names from the root, as many as `fs_abspath` can collect and as long as they fit. -/
def Short (ns : List (List UInt8)) : Prop :=
  ns.length ≤ partsMax ∧ (joinPath ns).length + 1 < fsPathMax

/-- A short location is written out. -/
theorem Short.fsAbspath (h : TreeInv s root kids) {p : Ptr} {ns : List (List UInt8)}
    (hl : Located s p ns) (hshort : Short ns) :
    Ramfs.fsAbspath s p fsPathMax = some (if ns = [] then [slash] else joinPath ns) := by
  rw [hl.fsAbspath h, seen_of_le hshort.1, joinParts_fits hshort.2]

end LightningOS.Ramfs
