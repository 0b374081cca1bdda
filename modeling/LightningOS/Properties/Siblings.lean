import LightningOS.Properties.Representation

/-!
# Names of siblings

`walk` hands the last component to `fs_create` through a buffer that nobody cleared. A
component of 31 bytes is not terminated there, so the search for an existing child may be
for a longer name, while the new node gets the name cut to 31 bytes again. Siblings have
different names exactly as long as that never goes wrong.
-/

namespace LightningOS.Ramfs

open ByteMemory CString Forest

variable (env : Env)

/-- No two children of a directory have the same name. -/
structure SiblingsDistinct (s : Fs) : Prop where
  eq : ∀ {p q d n m}, s.nodes.get p = some n → s.nodes.get q = some m → n.parent = some d →
    m.parent = some d → n.name = m.name → p = q

/-- Only the tree changes, and the working directory is not set. -/
def Plain : FsOp → Prop
  | .create _ _ | .remove _ | .reset => True
  | .write _ _ _ _ | .setCwd _ => False

/-- The call creates a name that is there already: it has 31 bytes, and the buffer it is
handed over in does not happen to hold a zero behind them. -/
def Doubles (s : Fs) : FsOp → Prop
  | .create path _ => ∃ d comp, walk s path true = some (some d, comp) ∧
      comp.length = fsNameMax - 1 ∧ text (env.junk s.time) ≠ [] ∧
      (∃ c, findChild s (some d) comp = some (some c)) ∧
      env.kmalloc (s.time + 1) { s with time := s.time + 1 } sizeofFsNode ≠ none
  | _ => False

variable {env} {s : Fs} {root : Ptr} {kids : Forest Ptr}

/-! ## What `fs_create` looks for -/

theorem walkLoop_length {b : Bool} {fuel : Nat} {node q : Option Ptr} {rest comp : List UInt8}
    (h : walkLoop s b fuel node rest = some (q, comp)) : comp.length ≤ rest.length := by
  induction fuel generalizing node rest with
  | zero => simp [walkLoop] at h
  | succ fuel ih =>
    rw [walkLoop] at h
    have hdrop : (rest.dropWhile (· == slash)).length ≤ rest.length :=
      (List.dropWhile_sublist _).length_le
    obtain ⟨tail, htail⟩ : ∃ tail, tail = rest.dropWhile (· == slash) := ⟨_, rfl⟩
    rw [← htail] at hdrop
    simp only [← htail] at h
    have hskip : (tail.dropWhile (· != slash)).length ≤ tail.length :=
      (List.dropWhile_sublist _).length_le
    have hcomp : ((tail.takeWhile (· != slash)).take (fsNameMax - 1)).length ≤ tail.length :=
      ((List.take_sublist _ _).trans (List.takeWhile_sublist _)).length_le
    have hrec : ∀ {node'}, walkLoop s b fuel node' (tail.dropWhile (· != slash)) =
        some (q, comp) → comp.length ≤ rest.length := fun h' => by
      have := ih h'
      omega
    split at h
    · simp only [Option.some.injEq, Prod.mk.injEq] at h
      rw [← h.2]
      exact Nat.zero_le _
    split at h
    · simp only [Option.some.injEq, Prod.mk.injEq] at h
      rw [← h.2]
      omega
    split at h
    · exact hrec h
    split at h
    · split at h
      · simp at h
      · exact hrec h
    · split at h
      · simp at h
      · simp only [Option.some.injEq, Prod.mk.injEq] at h
        rw [← h.2]
        exact Nat.zero_le _
      · exact hrec h

theorem walk_length {b : Bool} {path comp : List UInt8} {q : Option Ptr}
    (h : walk s path b = some (q, comp)) : comp.length ≤ path.length := by
  unfold walk at h
  have htake := List.length_take_le' (fsPathMax - 1) path
  split at h
  · simp only [Option.some.injEq, Prod.mk.injEq] at h
    rw [← h.2]
    exact Nat.zero_le _
  · rename_i c rest heq
    rw [heq, List.length_cons] at htake
    split at h
    · have := walkLoop_length h
      omega
    · have := walkLoop_length h
      rw [List.length_cons] at this
      omega

/-- When `fs_create` makes a node, it has looked for the name in the buffer. -/
theorem fsCreate_some {path : List UInt8} {type : FsType} {p : Ptr} {s' : Fs}
    (h : fsCreate env s path type = some (some p, s')) :
    ∃ d comp, walk s path true = some (some d, comp) ∧
      findChild { s with time := s.time + 1 } (some d) (lastText (env.junk s.time) comp) =
        some none ∧
      nodeNew env { s with time := s.time + 1 } (lastText (env.junk s.time) comp) type (some d) =
        some (some p, s') := by
  unfold fsCreate at h
  split at h
  · simp at h
  · rename_i parent comp hw
    cases parent with
    | none => simp at h
    | some d =>
      simp only at h
      split at h
      · simp at h
      · split at h
        · simp at h
        · split at h
          · simp at h
          · simp at h
          · rename_i hfind
            exact ⟨d, comp, hw, hfind, h⟩

theorem nodeNew_alloc {name : List UInt8} {type : FsType} {parent r : Option Ptr} {s' : Fs}
    (h : nodeNew env s name type parent = some (r, s')) :
    r = env.kmalloc s.time s sizeofFsNode := by
  cases nodeNew_cases env h with
  | denied hk => exact hk.symm
  | root hk => exact hk.symm
  | child hk => exact hk.symm

/-- Without memory a node is not made, and that takes one question. -/
theorem nodeNew_none {name : List UInt8} {type : FsType} {parent : Option Ptr} {s' : Fs}
    (h : nodeNew env s name type parent = some (none, s')) :
    s' = { s with time := s.time + 1 } := by
  cases nodeNew_cases env h with
  | denied => rfl

/-- When `fs_create` makes no node, nothing happens to the tree. -/
theorem fsCreate_none {path : List UInt8} {type : FsType} {s' : Fs}
    (h : fsCreate env s path type = some (none, s')) :
    ∃ t, s.time ≤ t ∧ s' = { s with time := t } := by
  have hasked : ∀ {s' : Fs}, some ((none : Option Ptr), { s with time := s.time + 1 }) =
      some (none, s') → ∃ t, s.time ≤ t ∧ s' = { s with time := t } := by
    intro s' heq
    simp only [Option.some.injEq, Prod.mk.injEq, true_and] at heq
    exact ⟨s.time + 1, by omega, heq.symm⟩
  unfold fsCreate at h
  split at h
  · simp at h
  next parent component hw =>
    cases parent with
    | none => exact hasked h
    | some d =>
      simp only at h
      split at h
      · simp at h
      · split at h
        · exact hasked h
        · split at h
          · simp at h
          · exact hasked h
          · exact ⟨s.time + 1 + 1, by omega, nodeNew_none h⟩

theorem TreeInv.find?_eq_none (h : TreeInv s root kids) {d : Ptr} {dn : FsNode}
    (hd : s.nodes.get d = some dn) (hdir : dn.type = .dir) {name : List UInt8} :
    Ramfs.findChild s (some d) name = some none ↔
      ∀ {q m}, s.nodes.get q = some m → m.parent = some d → m.name ≠ name := by
  obtain ⟨ch, hch, hrep⟩ := h.sub hd
  rw [h.findChild hd hch, if_pos hdir, Option.some.injEq, List.find?_eq_none]
  constructor
  · intro hnone q m hm hparent
    obtain ⟨ch', hch', htop⟩ := h.parent_mem hm hparent
    rw [hch] at hch'
    obtain rfl := Option.some.inj hch'
    have := hnone q htop
    simpa [hasName, hm] using this
  · intro hno q hq
    obtain ⟨m, hm⟩ := h.get (sub_subset hch (tops_subset _ hq))
    have hparent : m.parent = some d := by
      have := hrep.parent_eq hq
      simpa [links, hm] using this
    simpa [hasName, hm] using hno hm hparent

theorem TreeInv.findChild_some (h : TreeInv s root kids) {d c : Ptr} {dn : FsNode}
    (hd : s.nodes.get d = some dn) {name : List UInt8}
    (hc : Ramfs.findChild s (some d) name = some (some c)) :
    ∃ m, s.nodes.get c = some m ∧ m.parent = some d ∧ m.name = name := by
  obtain ⟨ch, hch, hrep⟩ := h.sub hd
  rw [h.findChild hd hch] at hc
  split at hc
  · have hfind := Option.some.inj hc
    have htop := List.mem_of_find?_eq_some hfind
    obtain ⟨m, hm⟩ := h.get (sub_subset hch (tops_subset _ htop))
    refine ⟨m, hm, ?_, ?_⟩
    · have := hrep.parent_eq htop
      simpa [links, hm] using this
    · have := List.find?_some hfind
      simpa [hasName, hm] using this
  · simp at hc

/-! ## One call -/

theorem SiblingsDistinct.added (h : SiblingsDistinct s) {s' : Fs} {d p : Ptr} {name : List UInt8}
    {type : FsType} (hfresh : s.nodes.get p = none) (ha : Added s s' d p name type)
    (hno : ∀ {q m}, s.nodes.get q = some m → m.parent = some d → m.name ≠ name) :
    SiblingsDistinct s' := by
  -- the new node against an old one
  have hnew : ∀ {q e n' m'}, q ≠ p → s'.nodes.get q = some n' → s'.nodes.get p = some m' →
      n'.parent = some e → m'.parent = some e → n'.name ≠ m'.name := by
    intro q e n' m' hq hn' hm' hpn hpm
    obtain ⟨n, hn, hbody⟩ := ha.back hq hn'
    rw [ha.new] at hm'
    obtain rfl := Option.some.inj hm'
    obtain rfl := Option.some.inj hpm
    rw [hbody.name]
    exact hno hn (by rw [← hbody.parent, hpn])
  refine ⟨fun {x y e n' m'} hx hy hpx hpy hname => ?_⟩
  by_cases hxp : x = p
  · subst hxp
    by_cases hyp : y = x
    · exact hyp.symm
    · exact absurd hname.symm (hnew hyp hy hx hpy hpx)
  · by_cases hyp : y = p
    · subst hyp
      exact absurd hname (hnew hxp hx hy hpx hpy)
    · obtain ⟨n, hn, hbody⟩ := ha.back hxp hx
      obtain ⟨m, hm, hbody'⟩ := ha.back hyp hy
      refine h.eq hn hm (by rw [← hbody.parent, hpx]) (by rw [← hbody'.parent, hpy]) ?_
      rw [← hbody.name, ← hbody'.name, hname]

theorem SiblingsDistinct.removed (h : SiblingsDistinct s) {s' : Fs} {gone : List Ptr}
    (hr : Removed s s' gone) : SiblingsDistinct s' := by
  refine ⟨fun {x y e n' m'} hx hy hpx hpy hname => ?_⟩
  obtain ⟨-, n, hn, hbody⟩ := hr.back hx
  obtain ⟨-, m, hm, hbody'⟩ := hr.back hy
  refine h.eq hn hm (by rw [← hbody.parent, hpx]) (by rw [← hbody'.parent, hpy]) ?_
  rw [← hbody.name, ← hbody'.name, hname]

/-- The buffer holds the component, or more than a name can be. -/
theorem lastText_cases (junk : List UInt8) {comp : List UInt8} (h : IsName comp) :
    lastText junk comp = comp ∨
      comp.length = fsNameMax - 1 ∧ text junk ≠ [] ∧ lastText junk comp = comp ++ text junk := by
  have hlen := h.length
  unfold lastText
  by_cases hlt : comp.length < fsNameMax - 1
  · exact Or.inl (if_pos hlt)
  · rw [if_neg hlt]
    by_cases hjunk : text junk = []
    · exact Or.inl (by rw [hjunk, List.append_nil])
    · exact Or.inr ⟨by omega, hjunk, rfl⟩

theorem TreeInv.name_length (h : TreeInv s root kids) {q d : Ptr} {m : FsNode}
    (hq : s.nodes.get q = some m) (hparent : m.parent = some d) :
    m.name.length ≤ fsNameMax - 1 := by
  refine (h.names hq ?_).length
  rintro rfl
  rw [h.root_parent hq] at hparent
  simp at hparent

/-- Creating keeps the names of siblings distinct, unless it doubles one. -/
theorem TreeInv.create_distinct (h : TreeInv s root kids) (hc : CwdOk s)
    (hs : SiblingsDistinct s) {path : List UInt8} {type : FsType} {r : Option Ptr} {s' : Fs}
    (hrun : Ramfs.fsCreate env s path type = some (r, s'))
    (hno : ¬Doubles env s (.create path type)) : SiblingsDistinct s' := by
  obtain ⟨p, hp, hmem⟩ := h.start hc path
  obtain ⟨parent, comp, hw, hparent, hcomp⟩ := h.walk hp hmem
  obtain ⟨r', s'', hcreate, hres⟩ := h.create env type hw hparent hcomp
  rw [hrun] at hcreate
  obtain ⟨rfl, rfl⟩ := Prod.mk.inj (Option.some.inj hcreate)
  rcases hres with ⟨-, t, rfl⟩ | ⟨d, q, kids', rfl, rfl, hin⟩
  · exact ⟨hs.eq⟩
  obtain ⟨d', comp', hw', hfind, hnew⟩ := fsCreate_some hrun
  rw [hw] at hw'
  obtain ⟨hd, rfl⟩ := Prod.mk.inj (Option.some.inj hw')
  obtain rfl := Option.some.inj hd
  obtain ⟨dn, hdn, hdir⟩ := hin.dir
  have h₁ : TreeInv { s with time := s.time + 1 } root kids := h.congr rfl rfl rfl rfl
  refine hs.added hin.fresh hin.added ?_
  rcases lastText_cases (env.junk s.time) hin.isName with heq | ⟨hlen, hjunk, -⟩
  · rw [heq] at hfind
    exact (h₁.find?_eq_none hdn hdir).mp hfind
  · -- the search was for a longer name, so nothing says that there is no such child
    by_contra hsome
    refine hno ⟨d, comp, hw, hlen, hjunk, ?_, ?_⟩
    · cases hf : Ramfs.findChild s (some d) comp with
      | none =>
        obtain ⟨ch, hch, -⟩ := h.sub hdn
        rw [h.findChild hdn hch] at hf
        simp at hf
      | some c =>
        cases c with
        | none => exact (hsome ((h.find?_eq_none hdn hdir).mp hf)).elim
        | some c => exact ⟨c, rfl⟩
    · rw [← nodeNew_alloc hnew]
      simp

/-- Doubling a name does what its name says. -/
theorem TreeInv.create_doubles (h : TreeInv s root kids) (hc : CwdOk s) {op : FsOp}
    (hdbl : Doubles env s op) :
    ∃ s', Ramfs.fsStep env s op = some s' ∧ ¬SiblingsDistinct s' := by
  cases op with
  | create path type =>
    obtain ⟨d, comp, hw, hlen, hjunk, ⟨c, hfind⟩, hmem⟩ := hdbl
    obtain ⟨p, hp, hpmem⟩ := h.start hc path
    obtain ⟨parent, comp', hw', hparent, hcomp⟩ := h.walk hp hpmem
    rw [hw] at hw'
    obtain ⟨rfl, rfl⟩ := Prod.mk.inj (Option.some.inj hw')
    obtain ⟨dn, hdn⟩ := h.get (hparent d rfl)
    obtain ⟨m, hm, hmparent, hmname⟩ := h.findChild_some hdn hfind
    have hdir : dn.type = .dir := by
      by_contra hne
      obtain ⟨ch, hch, -⟩ := h.sub hdn
      rw [h.findChild hdn hch, if_neg hne] at hfind
      simp at hfind
    have hname : IsName comp := by
      rcases hcomp with rfl | hname
      · simp [fsNameMax] at hlen
      · exact hname
    have hlong : lastText (env.junk s.time) comp = comp ++ text (env.junk s.time) := by
      unfold lastText
      rw [if_neg (by omega)]
    have h₁ : TreeInv { s with time := s.time + 1 } root kids := h.congr rfl rfl rfl rfl
    have hnone : Ramfs.findChild { s with time := s.time + 1 } (some d)
        (lastText (env.junk s.time) comp) = some none := by
      refine (h₁.find?_eq_none hdn hdir).mpr fun {q k} hq hk heq => ?_
      have hle := h₁.name_length hq hk
      rw [heq, hlong, List.length_append] at hle
      have := List.length_pos_of_ne_nil hjunk
      omega
    have hcut : IsName ((lastText (env.junk s.time) comp).take (fsNameMax - 1)) := by
      rw [lastText_take _ hname]
      exact hname
    obtain ⟨r, s', hnew, hres⟩ := h₁.nodeNew env hdn hdir hcut type
    have hne : lastText (env.junk s.time) comp ≠ [] := lastText_ne_nil _ hname
    have hrun : Ramfs.fsCreate env s path type = some (r, s') := by
      unfold Ramfs.fsCreate
      simp only [hw, hdn]
      rw [if_neg (by simp [hdir, hne]), hnone]
      exact hnew
    refine ⟨s', by rw [Ramfs.fsStep, hrun, Option.map_some], fun hdist => ?_⟩
    rcases hres with ⟨rfl, -⟩ | ⟨q, kids', rfl, hfresh, -, -, -, hadded⟩
    · exact hmem (nodeNew_alloc hnew).symm
    · have hcq : c ≠ q := by
        rintro rfl
        have hm' : s.nodes.get c = none := hfresh
        rw [hm] at hm'
        simp at hm'
      obtain ⟨m', hm', hbody⟩ := hadded.old hcq hm
      refine hcq (hdist.eq hm' hadded.new (by rw [hbody.parent, hmparent]) rfl ?_)
      rw [hbody.name, hmname, lastText_take _ hname]
  | remove path => exact hdbl.elim
  | write file src add append => exact hdbl.elim
  | setCwd dir => exact hdbl.elim
  | reset => exact hdbl.elim

/-! ## Whole runs -/

/-- A tree whose working directory is the root, or nothing at all. -/
def AtRoot (s : Fs) : Prop :=
  Bare s ∨ ∃ root kids, TreeInv s root kids ∧ s.currentDir = some root

theorem TreeInv.cwdOk_root (h : TreeInv s root kids) (hc : s.currentDir = some root) : CwdOk s := by
  obtain ⟨n, hn⟩ := h.get h.root_mem
  exact ⟨root, n, hc, hn, h.rootDir hn⟩

/-- Nothing is above the root. -/
theorem TreeInv.keepsCwd_root (h : TreeInv s root kids) (hc : s.currentDir = some root)
    (op : FsOp) : KeepsCwd s op := by
  cases op with
  | remove path =>
    intro node cwd _ _ hcwd habove
    rw [hc] at hcwd
    obtain rfl := Option.some.inj hcwd
    obtain ⟨n, hn⟩ := h.get h.root_mem
    have hparent : (links s).parent root = none := by simp [links, hn, h.root_parent hn]
    cases habove with
    | parent hp => simp [hparent] at hp
    | trans hp _ => simp [hparent] at hp
  | create path type => trivial
  | write file src add append => trivial
  | setCwd dir => trivial
  | reset => trivial

theorem Bare.distinct (h : Bare s) : SiblingsDistinct s :=
  ⟨fun {p q d n m} hn => by simp [h.nodes p] at hn⟩

theorem Bare.not_doubles (h : Bare s) (op : FsOp) : ¬Doubles env s op := by
  cases op with
  | create path type =>
    rintro ⟨d, comp, -, -, -, ⟨c, hfind⟩, -⟩
    simp [findChild, h.nodes d] at hfind
  | remove path => exact id
  | write file src add append => exact id
  | setCwd dir => exact id
  | reset => exact id

/-- A plain call leaves the working directory at the root. -/
theorem AtRoot.fsStep (h : AtRoot s) {o : FsOp} {s' : Fs} (hop : Plain o)
    (hs : Ramfs.fsStep env s o = some s') : AtRoot s' := by
  rcases h with h | ⟨root, kids, h, hc⟩
  · cases o with
    | create path type =>
      simp only [Ramfs.fsStep, Option.map_eq_some_iff] at hs
      obtain ⟨⟨r, s₁⟩, hrun, rfl⟩ := hs
      exact Or.inl (h.fsCreate env hrun).2
    | remove path =>
      simp only [Ramfs.fsStep, Option.map_eq_some_iff] at hs
      obtain ⟨⟨res, s₁⟩, hrun, rfl⟩ := hs
      exact Or.inl (h.fsRemove hrun ▸ h)
    | write file src add append => exact hop.elim
    | setCwd dir => exact hop.elim
    | reset =>
      simp only [Ramfs.fsStep, Ramfs.fsReset, h.root] at hs
      split at hs
      · simp at hs
      · rename_i r s₁ hnew
        obtain rfl := Option.some.inj hs
        rcases h.newRoot env hnew with ⟨-, hbare⟩ | ⟨p, hp, hinv⟩
        · exact Or.inl hbare
        · exact Or.inr ⟨p, Forest.nil, hinv, hp⟩
  · have hcwd := h.cwdOk_root hc
    obtain ⟨kids', h', -⟩ := h.fsStep env hcwd (h.keepsCwd_root hc o) hs
    refine Or.inr ⟨root, kids', h', ?_⟩
    cases o with
    | create path type =>
      obtain ⟨r, s₁, hrun, -, hsame, -⟩ := h.fsCreate env hcwd path type
      simp only [Ramfs.fsStep, hrun, Option.map_some, Option.some.injEq] at hs
      rw [← hs, hsame, hc]
    | remove path =>
      obtain ⟨r, hr, -⟩ := h.fsResolve hcwd path
      obtain ⟨res, s₁, hrun, hres⟩ := h.fsRemove hr
      simp only [Ramfs.fsStep, hrun, Option.map_some, Option.some.injEq] at hs
      subst hs
      rcases hres with ⟨-, rfl, -⟩ | ⟨-, node, c, kids'', -, -, -, -, hremoved⟩
      · exact hc
      · rw [hremoved.cwd, hc]
    | write file src add append => exact hop.elim
    | setCwd dir => exact hop.elim
    | reset =>
      obtain ⟨s₁, hrun, -, -, hroot⟩ := h.fsReset env
      rw [Ramfs.fsStep, hrun] at hs
      rw [← Option.some.inj hs, hroot]

/-- A new root has no children. -/
theorem TreeInv.distinct_nil {p : Ptr} (h : TreeInv s p Forest.nil) : SiblingsDistinct s := by
  refine ⟨fun {x y e n m} hx hy _ _ _ => ?_⟩
  have hxp : x = p := by simpa using h.mem hx
  have hyp : y = p := by simpa using h.mem hy
  rw [hxp, hyp]

theorem AtRoot.fsStep_distinct (h : AtRoot s) (hd : SiblingsDistinct s) {o : FsOp} {s' : Fs}
    (hop : Plain o) (hno : ¬Doubles env s o) (hs : Ramfs.fsStep env s o = some s') :
    SiblingsDistinct s' := by
  cases o with
  | create path type =>
    simp only [Ramfs.fsStep, Option.map_eq_some_iff] at hs
    obtain ⟨⟨r, s₁⟩, hrun, rfl⟩ := hs
    rcases h with h | ⟨root, kids, h, hc⟩
    · exact (h.fsCreate env hrun).2.distinct
    · exact h.create_distinct (h.cwdOk_root hc) hd hrun hno
  | remove path =>
    simp only [Ramfs.fsStep, Option.map_eq_some_iff] at hs
    obtain ⟨⟨res, s₁⟩, hrun, rfl⟩ := hs
    rcases h with h | ⟨root, kids, h, hc⟩
    · exact h.fsRemove hrun ▸ hd
    · obtain ⟨r, hr, -⟩ := h.fsResolve (h.cwdOk_root hc) path
      obtain ⟨res', s₂, hrun', hres⟩ := h.fsRemove hr
      rw [hrun] at hrun'
      obtain ⟨rfl, rfl⟩ := Prod.mk.inj (Option.some.inj hrun')
      rcases hres with ⟨-, rfl, -⟩ | ⟨-, node, c, kids', -, -, -, -, hremoved⟩
      · exact hd
      · exact hd.removed hremoved
  | write file src add append => exact hop.elim
  | setCwd dir => exact hop.elim
  | reset =>
    rcases h with h | ⟨root, kids, h, hc⟩
    · simp only [Ramfs.fsStep, Ramfs.fsReset, h.root] at hs
      split at hs
      · simp at hs
      · rename_i r s₁ hnew
        obtain rfl := Option.some.inj hs
        rcases h.newRoot env hnew with ⟨-, hbare⟩ | ⟨p, hp, hinv⟩
        · exact hbare.distinct
        · exact hinv.distinct_nil
    · obtain ⟨s₁, hrun, -, hremoved, -⟩ := h.fsReset env
      rw [Ramfs.fsStep, hrun] at hs
      obtain rfl := Option.some.inj hs
      have hd' : SiblingsDistinct { s with currentDir := some root } := ⟨hd.eq⟩
      exact hd'.removed hremoved

/-- Writing changes no name. -/
theorem AtRoot.fsWrite (h : AtRoot s) (hd : SiblingsDistinct s) {file : Option Ptr}
    {txt : List UInt8} {append : Bool} {r : Int × Fs}
    (hrun : Ramfs.fsWrite env s file txt append = some r) : AtRoot r.2 ∧ SiblingsDistinct r.2 := by
  obtain ⟨res, s'⟩ := r
  rcases h with h | ⟨root, kids, h, hc⟩
  · cases file with
    | none =>
      simp only [Ramfs.fsWrite, fsWriteN, Option.some.injEq, Prod.mk.injEq] at hrun
      obtain ⟨-, rfl⟩ := hrun
      exact ⟨Or.inl h, hd⟩
    | some f => simp [Ramfs.fsWrite, fsWriteN, h.nodes f] at hrun
  · rcases h.write_cases env hrun with ⟨-, t, rfl⟩ | ⟨f, n, -, hn, -, -, hinv, hw⟩
    · exact ⟨Or.inr ⟨root, kids, h.congr rfl rfl rfl rfl, hc⟩, ⟨hd.eq⟩⟩
    · refine ⟨Or.inr ⟨root, kids, hinv, hw.cwd.trans hc⟩, ⟨fun {x y e k m} hx hy hpx hpy hname => ?_⟩⟩
      have hback : ∀ {z k}, s'.nodes.get z = some k →
          ∃ k', s.nodes.get z = some k' ∧ k'.name = k.name ∧ k'.parent = k.parent := by
        intro z k hz
        by_cases hzf : z = f
        · subst hzf
          obtain ⟨n', hn', hname', -⟩ := hw.node
          rw [hz] at hn'
          obtain rfl := Option.some.inj hn'
          exact ⟨n, hn, hname'.symm, (hw.parent hz).symm⟩
        · exact ⟨k, by rw [← hw.other hzf]; exact hz, rfl, rfl⟩
      obtain ⟨k', hk', hkname, hkparent⟩ := hback hx
      obtain ⟨m', hm', hmname, hmparent⟩ := hback hy
      exact hd.eq hk' hm' (by rw [hkparent, hpx]) (by rw [hmparent, hpy]) (by rw [hkname, hmname, hname])

/-- A short path doubles no name. -/
theorem not_doubles_short {path : List UInt8} {type : FsType}
    (h : path.length < fsNameMax - 1) : ¬Doubles env s (.create path type) := by
  rintro ⟨d, comp, hw, hlen, -⟩
  have := walk_length hw
  omega

theorem AtRoot.createAll {type : FsType} {paths : List (List UInt8)} {s' : Fs} (h : AtRoot s)
    (hd : SiblingsDistinct s) (hshort : ∀ path ∈ paths, path.length < fsNameMax - 1)
    (hrun : Ramfs.createAll env type paths s = some s') : AtRoot s' ∧ SiblingsDistinct s' := by
  induction paths generalizing s with
  | nil =>
    obtain rfl := Option.some.inj hrun
    exact ⟨h, hd⟩
  | cons path paths ih =>
    rw [Ramfs.createAll] at hrun
    cases hc : Ramfs.fsCreate env s path type with
    | none => simp [hc] at hrun
    | some r =>
      simp only [hc] at hrun
      have hstep : Ramfs.fsStep env s (.create path type) = some r.2 := by
        rw [Ramfs.fsStep, hc, Option.map_some]
      have hop : Plain (.create path type) := trivial
      have hno : ¬Doubles env s (.create path type) :=
        not_doubles_short (hshort path List.mem_cons_self)
      exact ih (h.fsStep hop hstep) (h.fsStep_distinct hd hop hno hstep)
        (fun p hp => hshort p (List.mem_cons_of_mem _ hp)) hrun

theorem AtRoot.createFile {path txt : List UInt8} {s' : Fs} (h : AtRoot s)
    (hd : SiblingsDistinct s) (hshort : path.length < fsNameMax - 1)
    (hrun : Ramfs.createFile env s path txt = some s') : AtRoot s' ∧ SiblingsDistinct s' := by
  unfold Ramfs.createFile at hrun
  cases hc : Ramfs.fsCreate env s path .file with
  | none => simp [hc] at hrun
  | some r =>
    simp only [hc, Option.map_eq_some_iff] at hrun
    obtain ⟨q, hwrite, rfl⟩ := hrun
    have hstep : Ramfs.fsStep env s (.create path .file) = some r.2 := by
      rw [Ramfs.fsStep, hc, Option.map_some]
    have hop : Plain (.create path .file) := trivial
    have hno : ¬Doubles env s (.create path .file) := not_doubles_short hshort
    exact (h.fsStep hop hstep).fsWrite (h.fsStep_distinct hd hop hno hstep) hwrite

/-- The skeleton has no name twice. -/
theorem fsInit_distinct {s₀ : Fs} (h : fsInit env .zero = some s₀) :
    AtRoot s₀ ∧ SiblingsDistinct s₀ := by
  unfold fsInit at h
  rcases hnew : nodeNew env .zero (ofString "/") .dir none with - | ⟨r, s₁⟩
  · simp [hnew] at h
  simp only [hnew] at h
  have h₁ : AtRoot { s₁ with rootNode := r, currentDir := r } ∧
      SiblingsDistinct { s₁ with rootNode := r, currentDir := r } := by
    rcases Bare.zero.newRoot env hnew with ⟨-, hbare⟩ | ⟨p, hp, hinv⟩
    · exact ⟨Or.inl hbare, hbare.distinct⟩
    · exact ⟨Or.inr ⟨p, Forest.nil, hinv, hp⟩, hinv.distinct_nil⟩
  split at h
  · simp at h
  rename_i s₂ hdirs
  split at h
  · simp at h
  rename_i s₃ hmotd
  split at h
  · simp at h
  rename_i s₄ hhostname
  split at h
  · simp at h
  rename_i s₅ hversion
  obtain ⟨h₂, d₂⟩ := h₁.1.createAll h₁.2 (by decide) hdirs
  obtain ⟨h₃, d₃⟩ := h₂.createFile d₂ (by decide) hmotd
  obtain ⟨h₄, d₄⟩ := h₃.createFile d₃ (by decide) hhostname
  obtain ⟨h₅, d₅⟩ := h₄.createFile d₄ (by decide) hversion
  have hno : ¬Doubles env s₅ (.create etcPasswd .file) := not_doubles_short (by decide)
  have hop : Plain (.create etcPasswd .file) := trivial
  exact ⟨h₅.fsStep hop h, h₅.fsStep_distinct d₅ hop hno h⟩

variable (env)

/-- **Names of siblings.** In every state along a run of `fs_create`, `fs_remove` and
`fs_reset` calls, the children of a directory have different names, if and only if no
call of the run doubles a name. -/
theorem siblings_distinct_iff {s₀ : Fs} (h : fsInit env .zero = some s₀) {ops : List FsOp}
    (hops : ∀ op ∈ ops, Plain op) :
    (∀ done s, done <+: ops → fsRun env s₀ done = some s → SiblingsDistinct s) ↔
      Along env (fun s op => ¬Doubles env s op) s₀ ops := by
  obtain ⟨hroot, hd⟩ := fsInit_distinct h
  clear h
  induction ops generalizing s₀ with
  | nil =>
    refine ⟨fun _ => trivial, fun _ done s hdone hrun => ?_⟩
    rw [List.prefix_nil.mp hdone] at hrun
    obtain rfl := Option.some.inj hrun
    exact hd
  | cons op ops ih =>
    have hop := hops op List.mem_cons_self
    have hrest : ∀ op ∈ ops, Plain op := fun o ho => hops o (List.mem_cons_of_mem _ ho)
    constructor
    · intro hall
      have hno : ¬Doubles env s₀ op := by
        intro hdbl
        rcases hroot with hbare | ⟨root, kids, hinv, hc⟩
        · exact hbare.not_doubles op hdbl
        · obtain ⟨s', hs', hbad⟩ := hinv.create_doubles (hinv.cwdOk_root hc) hdbl
          refine hbad (hall [op] s' (by simp) ?_)
          simp only [fsRun, hs']
      refine ⟨hno, fun s' hs' => ?_⟩
      refine (ih hrest (hroot.fsStep hop hs') (hroot.fsStep_distinct hd hop hno hs')).mp
        fun done s hdone hrun => ?_
      refine hall (op :: done) s ((List.prefix_cons_inj op).mpr hdone) ?_
      simp only [fsRun, hs', hrun]
    · rintro ⟨hno, hnext⟩ done s hdone hrun
      cases done with
      | nil =>
        obtain rfl := Option.some.inj hrun
        exact hd
      | cons op' done =>
        obtain ⟨rfl, hdone'⟩ := List.cons_prefix_cons.mp hdone
        rw [fsRun] at hrun
        cases hs' : fsStep env s₀ op' with
        | none => simp [hs'] at hrun
        | some s' =>
          simp only [hs'] at hrun
          exact (ih hrest (hroot.fsStep hop hs') (hroot.fsStep_distinct hd hop hno hs')).mpr
            (hnext s' hs') done s hdone' hrun

/-- A system whose stack is full of the letter A. -/
def Env.littered : Env := { Env.ample with junk := fun _ => [65] }

/-- With names that are not too long nothing goes wrong. -/
theorem siblings_distinct_iff_home : ∃ s₀, fsInit .littered .zero = some s₀ ∧
    Along .littered (fun s op => ¬Doubles .littered s op) s₀
      [.create homeA .dir, .create homeA .dir] ∧
    ∀ done s, done <+: [.create homeA .dir, .create homeA .dir] →
      fsRun .littered s₀ done = some s → SiblingsDistinct s := by
  have h : (fsInit .littered .zero).map (fun _ => true) = some true := by decide +kernel
  simp only [Option.map_eq_some_iff] at h
  obtain ⟨s₀, hinit, -⟩ := h
  have hops : ∀ op ∈ [FsOp.create homeA .dir, .create homeA .dir], Plain op := by
    simp [Plain]
  have hshort : ∀ s, ¬Doubles .littered s (.create homeA .dir) :=
    fun s => not_doubles_short (by decide)
  have halong : Along .littered (fun s op => ¬Doubles .littered s op) s₀
      [.create homeA .dir, .create homeA .dir] :=
    ⟨hshort _, fun s _ => ⟨hshort s, fun _ _ => trivial⟩⟩
  exact ⟨s₀, hinit, halong, (siblings_distinct_iff .littered hinit hops).mpr halong⟩

/-- A path with one component of 31 bytes. -/
def longPath : List UInt8 := slash :: List.replicate 31 97

/-- The same path is created twice. -/
theorem name_doubled : ∃ s₀ s p q, fsInit .littered .zero = some s₀ ∧
    fsRun .littered s₀ [.create longPath .file, .create longPath .file] = some s ∧ p ≠ q ∧
    (s.nodes.get p).map (fun n => (n.name, n.parent)) =
      (s.nodes.get q).map (fun n => (n.name, n.parent)) ∧ ¬SiblingsDistinct s := by
  have h : (fsInit .littered .zero).bind (fun s₀ =>
      (fsRun .littered s₀ [.create longPath .file, .create longPath .file]).map fun s =>
        ((s.nodes.get 14).map fun n => (n.name, n.parent),
          (s.nodes.get 15).map fun n => (n.name, n.parent))) =
      some (some (List.replicate 31 97, some 0), some (List.replicate 31 97, some 0)) := by
    decide +kernel
  simp only [Option.bind_eq_some_iff, Option.map_eq_some_iff, Prod.mk.injEq] at h
  obtain ⟨s₀, hinit, s, hrun, ⟨n, hn, hname, hparent⟩, ⟨m, hm, hmname, hmparent⟩⟩ := h
  refine ⟨s₀, s, 14, 15, hinit, hrun, by decide, by simp [hn, hm, hname, hparent, hmname, hmparent],
    fun hd => ?_⟩
  have := hd.eq hn hm hparent hmparent (hname.trans hmname.symm)
  simp at this

end LightningOS.Ramfs
