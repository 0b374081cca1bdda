import Mathlib.Data.List.Find
import LightningOS.Properties.Permission
import LightningOS.Properties.Representation

/-!
# Finding what is there

Two ways to a node: the path it was created under, and the path that `fs_abspath` writes for
it. Here is when `fs_resolve` finds the node again.
-/

namespace LightningOS.Ramfs

open ByteMemory CString Forest Shell

variable {env : Env} {s s' : Fs} {root : Ptr} {kids : Forest Ptr}

/-! ## After a creation -/

/-- The search in a directory finds what it found before, and else the new node if that is
the one. -/
theorem CreatedIn.findChild {kids' : Forest Ptr} {d p x : Ptr} {comp : List UInt8} {type : FsType}
    (h : TreeInv s root kids) (hin : CreatedIn s s' root kids kids' d p comp type) {xn : FsNode}
    (hx : s.nodes.get x = some xn) (name : List UInt8) {r : Option Ptr}
    (hr : Ramfs.findChild s (some x) name = some r) :
    Ramfs.findChild s' (some x) name =
      some (r.or (if x = d ∧ comp = name then some p else none)) := by
  have hne : ∀ {q m}, s.nodes.get q = some m → q ≠ p := by
    rintro q m hq rfl
    rw [hin.fresh] at hq
    simp at hq
  obtain ⟨xn', hx', hbody⟩ := hin.added.old (hne hx) hx
  obtain ⟨ch, hch, -⟩ := h.sub hx
  obtain ⟨ch', hch', -⟩ := hin.inv.sub hx'
  have htops := tops_sub_append (d := d) (hne hx) (tree root kids)
  rw [← hin.eq, hch', hch, Option.map_some, Option.map_some, Option.some.injEq] at htops
  rw [h.findChild hx hch, Option.some.injEq] at hr
  rw [hin.inv.findChild hx' hch', hbody.type, Option.some.injEq]
  by_cases hdir : xn.type = .dir
  · rw [if_pos hdir] at hr ⊢
    -- the nodes that were there keep their names
    have hold : ch.tops.find? (hasName s' name) = r := by
      rw [← hr]
      refine List.find?_congr fun q hq => ?_
      obtain ⟨n, hn⟩ := h.get (sub_subset hch (tops_subset ch hq))
      obtain ⟨n', hn', hbody'⟩ := hin.added.old (hne hn) hn
      rw [hasName, hasName, hn, hn', Option.any_some, Option.any_some, hbody'.name]
    have hnew : hasName s' name p = decide (comp = name) := by
      rw [hasName, hin.added.new, Option.any_some]
    rw [htops]
    by_cases hxd : x = d
    · rw [if_pos hxd, List.find?_append, hold, List.find?_singleton, hnew]
      simp only [hxd, true_and, decide_eq_true_eq]
    · rw [if_neg hxd, hold, if_neg fun hand => hxd hand.1, Option.or_none]
  · -- the new node is not in a file
    have hxd : x ≠ d := by
      rintro rfl
      obtain ⟨dn, hdn, hdndir⟩ := hin.dir
      rw [hx, Option.some.injEq] at hdn
      exact hdir (hdn ▸ hdndir)
    rw [if_neg hdir] at hr ⊢
    rw [← hr, if_neg fun hand => hxd hand.1, Option.or_none]

/-- What a directory looks like from above does not change. -/
theorem CreatedIn.parentOrRoot {kids' : Forest Ptr} {d p x : Ptr} {comp : List UInt8}
    {type : FsType} (hin : CreatedIn s s' root kids kids' d p comp type) {xn : FsNode}
    (hx : s.nodes.get x = some xn) :
    Ramfs.parentOrRoot s' (some x) = Ramfs.parentOrRoot s (some x) := by
  have hne : x ≠ p := by
    rintro rfl
    rw [hin.fresh] at hx
    simp at hx
  obtain ⟨xn', hx', hbody⟩ := hin.added.old hne hx
  unfold Ramfs.parentOrRoot
  simp only [hx, hx', hbody.parent, hin.added.root]

/-- A walk that led somewhere still leads there. -/
theorem CreatedIn.follow {kids' : Forest Ptr} {d p : Ptr} {comp : List UInt8} {type : FsType}
    (h : TreeInv s root kids) (hin : CreatedIn s s' root kids kids' d p comp type)
    (names : List (List UInt8)) : ∀ {x q : Ptr}, x ∈ (tree root kids).ids →
      Ramfs.follow s (some x) names = some (some q) →
        Ramfs.follow s' (some x) names = some (some q) := by
  induction names with
  | nil =>
    intro x q _ hq
    exact hq
  | cons name names ih =>
    intro x q hx hq
    obtain ⟨xn, hxn⟩ := h.get hx
    rw [Ramfs.follow] at hq ⊢
    by_cases h1 : name = [dot]
    · rw [if_pos h1] at hq ⊢
      exact ih hx hq
    rw [if_neg h1] at hq ⊢
    by_cases h2 : name = [dot, dot]
    · obtain ⟨up, hup, hmem⟩ := h.parentOrRoot hx
      rw [if_pos h2, hup] at hq
      rw [if_pos h2, hin.parentOrRoot hxn, hup]
      exact ih hmem hq
    · rw [if_neg h2] at hq ⊢
      cases hc : Ramfs.findChild s (some x) name with
      | none => simp [hc] at hq
      | some r =>
        rw [hin.findChild h hxn name hc]
        cases r with
        | none => simp [hc] at hq
        | some c =>
          simp only [hc] at hq
          exact ih (h.findChild_mem hx hc) hq

theorem CreatedIn.leadsTo {kids' : Forest Ptr} {d p x : Ptr} {comp name path : List UInt8}
    {type : FsType} (h : TreeInv s root kids) (hc : CwdOk s)
    (hin : CreatedIn s s' root kids kids' d p comp type) (hl : LeadsTo s path x name) :
    LeadsTo s' path x name := by
  obtain ⟨a, init, ha, hnames, hfollow⟩ := hl.walk
  obtain ⟨a', ha', hmem⟩ := h.start hc path
  rw [ha] at ha'
  obtain rfl := Option.some.inj ha'
  have hstart : start s' path = start s path := by
    unfold start
    rw [hin.added.root, hin.added.cwd]
  exact ⟨a, init, hstart.trans ha, hnames, hin.follow h init hmem hfollow⟩

/-- A path names a node that can be put at its end: the last component is not one of the two
that have a meaning of their own, and nothing in the directory is called that. -/
def Names (s : Fs) (path : List UInt8) : Prop :=
  ∃ d comp, LeadsTo s path d comp ∧ comp ≠ [dot] ∧ comp ≠ [dot, dot] ∧
    ∀ {q m}, s.nodes.get q = some m → m.parent = some d → m.name ≠ comp

/-- **When a created node can be reached.** The path that `fs_create` made a node under leads
to it exactly if it names a node that is not there yet. -/
theorem create_reaches_iff (h : TreeInv s root kids) (hc : CwdOk s) {path : List UInt8}
    {type : FsType} {p : Ptr} (hcreate : fsCreate env s path type = some (some p, s')) :
    fsResolve s' path = some (some p) ↔ Names s path := by
  obtain ⟨c, cn, hcwd, hcn⟩ := hc
  obtain ⟨d, comp, kids', hleads, hin⟩ := create_leadsTo h hcwd hcreate
  obtain ⟨dn, hd, hdir⟩ := hin.dir
  have hne : ∀ {q m}, s.nodes.get q = some m → q ≠ p := by
    rintro q m hq rfl
    rw [hin.fresh] at hq
    simp at hq
  have hresolve : fsResolve s' path = follow s' (some d) [comp] :=
    (hin.leadsTo h ⟨c, cn, hcwd, hcn⟩ hleads).resolve
  have hnames : Names s path ↔ comp ≠ [dot] ∧ comp ≠ [dot, dot] ∧
      Ramfs.findChild s (some d) comp = some none := by
    rw [h.find?_eq_none hd hdir]
    constructor
    · rintro ⟨d', comp', hleads', h1, h2, hno⟩
      obtain ⟨rfl, rfl⟩ := hleads.unique hleads'
      exact ⟨h1, h2, hno⟩
    · rintro ⟨h1, h2, hno⟩
      exact ⟨d, comp, hleads, h1, h2, hno⟩
  rw [hresolve, hnames, follow]
  by_cases h1 : comp = [dot]
  · -- the directory itself
    rw [if_pos h1]
    refine iff_of_false (fun heq => hne hd ?_) (fun hand => hand.1 h1)
    exact Option.some.inj (Option.some.inj heq)
  rw [if_neg h1]
  by_cases h2 : comp = [dot, dot]
  · obtain ⟨up, hup, hmem⟩ := h.parentOrRoot (h.mem hd)
    obtain ⟨un, hun⟩ := h.get hmem
    rw [if_pos h2, hin.parentOrRoot hd, hup]
    refine iff_of_false (fun heq => hne hun ?_) (fun hand => hand.2.1 h2)
    exact Option.some.inj (Option.some.inj heq)
  · obtain ⟨r, hr⟩ : ∃ r, Ramfs.findChild s (some d) comp = some r := by
      obtain ⟨ch, hch, -⟩ := h.sub hd
      exact ⟨_, h.findChild hd hch comp⟩
    rw [if_neg h2, hin.findChild h hd comp hr, hr, if_pos ⟨rfl, rfl⟩]
    cases r with
    | none => exact iff_of_true rfl ⟨h1, h2, rfl⟩
    | some q =>
      -- the elder node of that name is found
      obtain ⟨m, hm, -⟩ := h.findChild_some hd hr
      refine iff_of_false (fun heq => hne hm ?_) (by simp)
      exact Option.some.inj (Option.some.inj heq)

/-- A new name in `/tmp`. -/
def tmpNew : List UInt8 := ofString "/tmp/new"

theorem create_reaches_iff_new : ∃ s p s', fsInit .ample .zero = some s ∧
    fsCreate .ample s tmpNew .file = some (some p, s') ∧
    fsResolve s' tmpNew = some (some p) ∧ Names s tmpNew := by
  have h : ((fsInit .ample .zero).bind fun s => (fsCreate .ample s tmpNew .file).map fun r =>
      (decide (s.rootNode ≠ none), decide (r.1 ≠ none), decide (fsResolve r.2 tmpNew = some r.1))) =
      some (true, true, true) := by decide +kernel
  simp only [Option.bind_eq_some_iff, Option.map_eq_some_iff, Prod.mk.injEq, decide_eq_true_eq]
    at h
  obtain ⟨s, hinit, ⟨q, s'⟩, hcreate, hroot, hnew, hreached⟩ := h
  obtain ⟨p, rfl⟩ := Option.ne_none_iff_exists'.mp hnew
  obtain ⟨root, kids, hinv, hc⟩ := fsInit_tree .ample hinit hroot
  exact ⟨s, p, s', hinit, hcreate, hreached, (create_reaches_iff hinv hc hcreate).mp hreached⟩

/-- A directory called `.` in `/tmp`. -/
def tmpDot : List UInt8 := ofString "/tmp/."

/-- It can be made, but the path still leads to `/tmp`. -/
theorem created_dot_unreachable : ∃ s p s', fsInit .ample .zero = some s ∧
    fsCreate .ample s tmpDot .dir = some (some p, s') ∧
    fsResolve s' tmpDot ≠ some (some p) ∧
    fsResolve s' tmpDot = fsResolve s' (ofString "/tmp") := by
  have h : ((fsInit .ample .zero).bind fun s => (fsCreate .ample s tmpDot .dir).map fun r =>
      (decide (r.1 ≠ none), decide (fsResolve r.2 tmpDot ≠ some r.1),
        decide (fsResolve r.2 tmpDot = fsResolve r.2 (ofString "/tmp")))) =
      some (true, true, true) := by decide +kernel
  simp only [Option.bind_eq_some_iff, Option.map_eq_some_iff, Prod.mk.injEq, decide_eq_true_eq]
    at h
  obtain ⟨s, hinit, ⟨q, s'⟩, hcreate, hnew, hlost, htmp⟩ := h
  obtain ⟨p, rfl⟩ := Option.ne_none_iff_exists'.mp hnew
  exact ⟨s, p, s', hinit, hcreate, hlost, htmp⟩

/-! ## Trees after any run -/

/-- The tree is a tree, wherever the working directory is. -/
def Rooted (s : Fs) : Prop := (∃ root kids, TreeInv s root kids) ∧ ∃ c, s.currentDir = some c

theorem Rooted.fsStep (h : Rooted s) {op : FsOp} (hs : Ramfs.fsStep env s op = some s') :
    Rooted s' := by
  obtain ⟨⟨root, kids, hinv⟩, c, hc⟩ := h
  cases op with
  | create path type =>
    simp only [Ramfs.fsStep, Option.map_eq_some_iff] at hs
    obtain ⟨⟨r, s₁⟩, hcreate, rfl⟩ := hs
    cases r with
    | none =>
      obtain ⟨t, -, rfl⟩ := fsCreate_none hcreate
      exact ⟨⟨root, kids, hinv.congr rfl rfl rfl rfl⟩, c, hc⟩
    | some p =>
      obtain ⟨d, comp, kids', -, hin⟩ := create_leadsTo hinv hc hcreate
      exact ⟨⟨root, kids', hin.inv⟩, c, hin.added.cwd.trans hc⟩
  | remove path =>
    simp only [Ramfs.fsStep, Option.map_eq_some_iff] at hs
    obtain ⟨⟨res, s₁⟩, hrun, rfl⟩ := hs
    cases hr : Ramfs.fsResolve s path with
    | none => simp [Ramfs.fsRemove, hr] at hrun
    | some r =>
      obtain ⟨res', s₂, hrun', hcase⟩ := hinv.fsRemove hr
      rw [hrun] at hrun'
      obtain ⟨rfl, rfl⟩ := Prod.mk.inj (Option.some.inj hrun')
      rcases hcase with ⟨-, rfl, -⟩ | ⟨-, node, below, kids', -, -, -, hinv', hremoved⟩
      · exact ⟨⟨root, kids, hinv⟩, c, hc⟩
      · exact ⟨⟨root, kids', hinv'⟩, c, hremoved.cwd.trans hc⟩
  | write file src add append =>
    simp only [Ramfs.fsStep, Option.map_eq_some_iff] at hs
    obtain ⟨⟨res, s₁⟩, hrun, rfl⟩ := hs
    rcases hinv.write_cases env hrun with ⟨-, t, rfl⟩ | ⟨f, n, -, -, -, -, hinv', hw⟩
    · exact ⟨⟨root, kids, hinv.congr rfl rfl rfl rfl⟩, c, hc⟩
    · exact ⟨⟨root, kids, hinv'⟩, c, hw.cwd.trans hc⟩
  | setCwd dir =>
    rw [Ramfs.fsStep, Ramfs.fsSetCwd.eq_def] at hs
    cases dir with
    | none =>
      obtain rfl := Option.some.inj hs
      exact ⟨⟨root, kids, hinv⟩, c, hc⟩
    | some d =>
      simp only at hs
      split at hs
      · simp at hs
      · split at hs
        · obtain rfl := Option.some.inj hs
          exact ⟨⟨root, kids, hinv.congr rfl rfl rfl rfl⟩, d, rfl⟩
        · obtain rfl := Option.some.inj hs
          exact ⟨⟨root, kids, hinv⟩, c, hc⟩
  | reset =>
    obtain ⟨s₁, hrun, hinv', -, hcwd⟩ := hinv.fsReset env
    rw [Ramfs.fsStep, hrun] at hs
    obtain rfl := Option.some.inj hs
    exact ⟨⟨root, Forest.nil, hinv'⟩, root, hcwd⟩

theorem Rooted.run (h : Rooted s) {ops : List FsOp} (hrun : fsRun env s ops = some s') :
    Rooted s' := by
  induction ops generalizing s with
  | nil => exact Option.some.inj hrun ▸ h
  | cons op ops ih =>
    rw [fsRun] at hrun
    cases hs : Ramfs.fsStep env s op with
    | none => simp [hs] at hrun
    | some s₁ =>
      simp only [hs] at hrun
      exact ih (h.fsStep hs) hrun

theorem fsInit_rooted (h : fsInit env .zero = some s) (hroot : s.rootNode ≠ none) :
    Rooted s := by
  obtain ⟨root, kids, hinv, c, -, hc, -⟩ := fsInit_tree env h hroot
  exact ⟨⟨root, kids, hinv⟩, c, hc⟩

/-! ## The path that is written for a node -/

/-- Going down from the root, every name leads to the next node: none is one of the two that
have a meaning of their own, and no elder sibling is called the same. -/
inductive Findable (s : Fs) : Ptr → Prop
  | root {p : Ptr} : s.rootNode = some p → Findable s p
  | child {p d : Ptr} {name : List UInt8} : Findable s d → name ≠ [dot] → name ≠ [dot, dot] →
      findChild s (some d) name = some (some p) → Findable s p

/-- The walk along the names of a location. -/
theorem Findable.follow (h : TreeInv s root kids) {p : Ptr} (hf : Findable s p) :
    ∀ {ns : List (List UInt8)}, Located s p ns → Ramfs.follow s (some root) ns = some (some p) := by
  induction hf with
  | root hp =>
    intro ns hl
    rw [h.isRoot, Option.some.injEq] at hp
    subst hp
    rw [h.located_root hl]
    rfl
  | @child p d name _ h1 h2 hfind ih =>
    intro ns hl
    cases hdn : s.nodes.get d with
    | none => simp [Ramfs.findChild, hdn] at hfind
    | some dn =>
      obtain ⟨m, hm, hparent, rfl⟩ := h.findChild_some hdn hfind
      obtain ⟨ms, hms⟩ := h.located (h.mem hdn)
      rw [h.located_unique hl (.child hms hm hparent),
        follow_append _ _ _ _ (by simp [ih hms]), ih hms]
      simp only [Option.bind_some, Ramfs.follow, if_neg h1, if_neg h2, hfind]

/-- A walk leads down one step for each name at most, and if it does for every name, then the
names lead to the node. -/
theorem TreeInv.follow_depth (h : TreeInv s root kids) (names : List (List UInt8)) :
    ∀ {a b : Ptr} {as bs : List (List UInt8)}, Located s a as →
      Ramfs.follow s (some a) names = some (some b) → Located s b bs →
        bs.length ≤ as.length + names.length ∧
          (bs.length = as.length + names.length → Findable s a → Findable s b) := by
  induction names with
  | nil =>
    intro a b as bs ha hf hb
    obtain rfl := Option.some.inj (Option.some.inj hf)
    rw [h.located_unique hb ha]
    exact ⟨Nat.le_refl _, fun _ hfind => hfind⟩
  | cons name names ih =>
    intro a b as bs ha hf hb
    obtain ⟨an, han⟩ := h.get (ha.mem h)
    rw [Ramfs.follow] at hf
    rw [List.length_cons]
    by_cases h1 : name = [dot]
    · rw [if_pos h1] at hf
      obtain ⟨hle, -⟩ := ih ha hf hb
      exact ⟨by omega, fun heq => by omega⟩
    rw [if_neg h1] at hf
    by_cases h2 : name = [dot, dot]
    · -- one up, or at the root
      rw [if_pos h2] at hf
      obtain ⟨up, hup, hmem⟩ := h.parentOrRoot (ha.mem h)
      rw [hup] at hf
      obtain ⟨us, hus, hprefix⟩ := ha.up h hup
      have hlen := hprefix.length_le
      obtain ⟨hle, -⟩ := ih hus hf hb
      exact ⟨by omega, fun heq => by omega⟩
    · rw [if_neg h2] at hf
      cases hc : Ramfs.findChild s (some a) name with
      | none => simp [hc] at hf
      | some r =>
        cases r with
        | none => simp [hc] at hf
        | some c =>
          simp only [hc] at hf
          obtain ⟨m, hm, hparent, -⟩ := h.findChild_some han hc
          obtain ⟨hle, hdown⟩ := ih (.child ha hm hparent) hf hb
          rw [List.length_append, List.length_singleton] at hle hdown
          exact ⟨by omega, fun heq hfind => hdown (by omega) (.child hfind h1 h2 hc)⟩

/-- A path of names is walked from the root. -/
theorem TreeInv.fsResolve_joinPath (h : TreeInv s root kids) {ns : List (List UInt8)}
    (hnames : ∀ name ∈ ns, IsName name) (hpos : 2 ≤ (joinPath ns).length)
    (hroom : (joinPath ns).length + 1 < fsPathMax) :
    Ramfs.fsResolve s (joinPath ns) = Ramfs.follow s (some root) ns := by
  have hstart : Ramfs.start s (joinPath ns) = some root := by
    rcases joinPath_cases ns with hnil | ⟨cs, hcs⟩
    · rw [hnil] at hpos
      simp at hpos
    · rw [Ramfs.start, hcs, List.head?_cons, if_pos rfl]
      exact h.isRoot
  rw [fsResolve_follow, hstart, pathNames, List.take_of_length_le (by omega),
    components_joinPath hnames]

/-- **When the written path leads back.** In every state after any calls, the path that
`fs_abspath` writes for a node leads to it exactly if the location of the node is short and
its names lead to it. -/
theorem abspath_inverse_iff {s₀ : Fs} (hinit : fsInit env .zero = some s₀)
    (hroot : s₀.rootNode ≠ none) {ops : List FsOp} (hrun : fsRun env s₀ ops = some s) {p : Ptr}
    {n : FsNode} (hp : s.nodes.get p = some n) :
    ∃ ns out, Located s p ns ∧ fsAbspath s p fsPathMax = some out ∧
      (fsResolve s out = some (some p) ↔ Short ns ∧ Findable s p) := by
  obtain ⟨⟨root, kids, h⟩, -⟩ := (fsInit_rooted hinit hroot).run hrun
  obtain ⟨ns, hl⟩ := h.located (h.mem hp)
  obtain ⟨out, k, habs, -, hout⟩ := abspath_eq h hl
  refine ⟨ns, out, hl, habs, ?_⟩
  rcases hout with ⟨rfl, rfl⟩ | ⟨hns, rfl, hpos⟩
  · have hr := hl.isRoot
    exact iff_of_true (by rw [← hr]; rfl) ⟨⟨Nat.zero_le _, by decide⟩, .root hr⟩
  constructor
  · intro hres
    obtain ⟨ms, hms⟩ : ∃ ms, ms = (seen ns).take k := ⟨_, rfl⟩
    have hroom := hl.abspath_room h hns habs
    rw [← hms] at hres hpos hroom
    rw [h.fsResolve_joinPath (fun name hname => seen_isName (hl.isName h) name
      (List.mem_of_mem_take (hms ▸ hname))) hpos hroom] at hres
    -- the walk is as long as the location, so no name was left out
    obtain ⟨hle, hdown⟩ := h.follow_depth ms (.root h.isRoot) hres hl
    have hmslen := congrArg List.length hms
    rw [List.length_take, seen_length] at hmslen
    rw [List.length_nil, Nat.zero_add] at hle hdown
    have hseen : seen ns = ns := seen_of_le (by omega)
    rw [hseen, List.take_of_length_le (by omega)] at hms
    rw [hms] at hroom hdown
    exact ⟨⟨by omega, hroom⟩, hdown rfl (.root h.isRoot)⟩
  · rintro ⟨hshort, hfind⟩
    rw [hshort.fsAbspath h hl, if_neg hns, Option.some.injEq] at habs
    rw [← habs] at hpos ⊢
    rw [h.fsResolve_joinPath (hl.isName h) hpos hshort.2]
    exact hfind.follow h hl

theorem abspath_inverse_iff_new : ∃ s₀ s p ns, fsInit .ample .zero = some s₀ ∧
    fsRun .ample s₀ [.create tmpNew .file, .setCwd s₀.rootNode] = some s ∧ Located s p ns ∧
    fsAbspath s p fsPathMax = some tmpNew ∧ fsResolve s tmpNew = some (some p) ∧ Short ns ∧
    Findable s p := by
  have h : ((fsInit .ample .zero).bind fun s₀ =>
      (fsRun .ample s₀ [.create tmpNew .file, .setCwd s₀.rootNode]).bind fun s =>
        (fsResolve s tmpNew).bind fun q => q.map fun p => (decide (s₀.rootNode ≠ none),
          (s.nodes.get p).isSome, decide (fsAbspath s p fsPathMax = some tmpNew))) =
      some (true, true, true) := by decide +kernel
  simp only [Option.bind_eq_some_iff, Option.map_eq_some_iff, Prod.mk.injEq, decide_eq_true_eq,
    Option.isSome_iff_exists] at h
  obtain ⟨s₀, hinit, s, hrun, q, hres, p, rfl, hroot, ⟨n, hp⟩, hnew⟩ := h
  obtain ⟨ns, out, hl, habs, hiff⟩ := abspath_inverse_iff hinit hroot hrun hp
  obtain rfl := Option.some.inj (hnew.symm.trans habs)
  obtain ⟨hshort, hfind⟩ := hiff.mp hres
  exact ⟨s₀, s, p, ns, hinit, hrun, hl, habs, hres, hshort, hfind⟩

/-- The directory called `.` is written as `/tmp/.`, and that leads to `/tmp`. -/
theorem abspath_of_dot : ∃ s₀ s p, fsInit .ample .zero = some s₀ ∧
    fsRun .ample s₀ [.create tmpDot .dir] = some s ∧
    (s.nodes.get p).map FsNode.name = some [dot] ∧ fsAbspath s p fsPathMax = some tmpDot ∧
    fsResolve s tmpDot ≠ some (some p) := by
  have h : ((fsInit .ample .zero).bind fun s₀ => (fsCreate .ample s₀ tmpDot .dir).bind fun r =>
      r.1.map fun p => (decide ((r.2.nodes.get p).map FsNode.name = some [dot]),
        decide (fsAbspath r.2 p fsPathMax = some tmpDot),
        decide (fsResolve r.2 tmpDot ≠ some (some p)))) = some (true, true, true) := by
    decide +kernel
  simp only [Option.bind_eq_some_iff, Option.map_eq_some_iff, Prod.mk.injEq, decide_eq_true_eq]
    at h
  obtain ⟨s₀, hinit, ⟨q, s⟩, hcreate, p, -, hname, habs, hres⟩ := h
  refine ⟨s₀, s, p, hinit, ?_, Option.map_eq_some_iff.mpr hname, habs, hres⟩
  rw [fsRun, fsStep, hcreate]
  rfl

end LightningOS.Ramfs
