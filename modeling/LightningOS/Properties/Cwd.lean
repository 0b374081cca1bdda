import Mathlib.Data.List.Infix
import LightningOS.Properties.TreeOps

/-!
# The working directory

`fs_remove` refuses to remove the working directory, but not a directory above it. As long
as nothing above the working directory is removed, it stays a directory of the tree;
otherwise it is left behind as a node that was freed.
-/

namespace LightningOS.Ramfs

open ByteMemory CString Forest

/-! ## Runs -/

/-- The calls that change the tree or the working directory. -/
inductive FsOp where
  | create (path : List UInt8) (type : FsType)
  | remove (path : List UInt8)
  | write (file : Option Ptr) (src : List UInt8) (add : Nat) (append : Bool)
  | setCwd (dir : Option Ptr)
  | reset

variable (env : Env)

def fsStep (s : Fs) : FsOp → Option Fs
  | .create path type => (fsCreate env s path type).map Prod.snd
  | .remove path => (fsRemove s path).map Prod.snd
  | .write file src add append => (fsWriteN env s file src add append).map Prod.snd
  | .setCwd dir => fsSetCwd s dir
  | .reset => fsReset env s

/-- One call after the other; `none` if one of them touches memory that is not there. -/
def fsRun (s : Fs) : List FsOp → Option Fs
  | [] => some s
  | op :: ops =>
    match fsStep env s op with
    | none => none
    | some s => fsRun s ops

/-! ## Live working directories -/

/-- The nodes that the links lead to from the root. -/
inductive Reachable (s : Fs) : Ptr → Prop
  | root {p : Ptr} : s.rootNode = some p → Reachable s p
  | child {p q : Ptr} {n : FsNode} : Reachable s p → s.nodes.get p = some n →
      n.children = some q → Reachable s q
  | sibling {p q : Ptr} {n : FsNode} : Reachable s p → s.nodes.get p = some n →
      n.next = some q → Reachable s q

/-- `current_dir` is allocated, a directory, and in the tree of `root_node`. -/
def CwdLive (s : Fs) : Prop :=
  ∃ p n, s.currentDir = some p ∧ s.nodes.get p = some n ∧ n.type = .dir ∧ Reachable s p

/-- The call does not remove a directory above the working directory. The root is above
all others, but is never removed. -/
def KeepsCwd (s : Fs) : FsOp → Prop
  | .remove path => ∀ node cwd, fsResolve s path = some (some node) → s.rootNode ≠ some node →
      s.currentDir = some cwd → ¬Above (links s) node cwd
  | _ => True

/-- None of the calls removes a directory above the working directory. -/
def KeepsAll : Fs → List FsOp → Prop
  | _, [] => True
  | s, op :: ops => KeepsCwd s op ∧ ∀ s', fsStep env s op = some s' → KeepsAll s' ops

variable {s : Fs} {root : Ptr} {kids : Forest Ptr}

theorem Reachable.all {up head : Option Ptr} {f : Forest Ptr} (hrep : Rep (links s) up head f)
    (hlive : ∀ x ∈ f.ids, ∃ n, s.nodes.get x = some n)
    (hhead : ∀ p, head = some p → Reachable s p) : ∀ x ∈ f.ids, Reachable s x := by
  induction f generalizing up head with
  | nil => simp
  | cons a ch rest ihc ihr =>
    obtain ⟨rfl, -, hch, hrest⟩ := hrep
    have ha := hhead a rfl
    obtain ⟨n, hn⟩ := hlive a (by simp)
    have hlink : (links s).children a = n.children ∧ (links s).next a = n.next := by
      simp [links, hn]
    rw [hlink.1] at hch
    rw [hlink.2] at hrest
    intro x hx
    simp only [ids_cons, List.mem_cons, List.mem_append] at hx hlive
    rcases hx with rfl | hx | hx
    · exact ha
    · exact ihc hch (fun y hy => hlive y (Or.inr (Or.inl hy))) (fun q hq => ha.child hn hq) x hx
    · exact ihr hrest (fun y hy => hlive y (Or.inr (Or.inr hy))) (fun q hq => ha.sibling hn hq) x hx

/-- All nodes of the tree can be reached. -/
theorem TreeInv.reachable (h : TreeInv s root kids) {p : Ptr} (hp : p ∈ (tree root kids).ids) :
    Reachable s p :=
  Reachable.all h.rep (fun _ hx => h.get hx)
    (fun q hq => .root (by rw [← Option.some.inj hq]; exact h.isRoot)) p hp

theorem TreeInv.cwdLive (h : TreeInv s root kids) (hc : CwdOk s) : CwdLive s := by
  obtain ⟨p, n, hp, hn, hdir⟩ := hc
  exact ⟨p, n, hp, hn, hdir, h.reachable (h.mem hn)⟩

/-! ## One call -/

theorem CwdOk.created {s' : Fs} {d p : Ptr} {name : List UInt8} {type : FsType} (hc : CwdOk s)
    (hfresh : s.nodes.get p = none) (ha : Added s s' d p name type) : CwdOk s' := by
  obtain ⟨q, n, hq, hn, hdir⟩ := hc
  have hne : q ≠ p := by
    rintro rfl
    rw [hfresh] at hn
    simp at hn
  obtain ⟨n', hn', hbody⟩ := ha.old hne hn
  exact ⟨q, n', ha.cwd.trans hq, hn', hbody.type.trans hdir⟩

theorem CwdOk.removed {s' : Fs} {gone : List Ptr} (hc : CwdOk s) (hr : Removed s s' gone)
    (hkeep : ∀ p, s.currentDir = some p → p ∉ gone) : CwdOk s' := by
  obtain ⟨q, n, hq, hn, hdir⟩ := hc
  obtain ⟨n', hn', hbody⟩ := hr.old (hkeep q hq) hn
  exact ⟨q, n', hr.cwd.trans hq, hn', hbody.type.trans hdir⟩

theorem CwdOk.written {s' : Fs} {f : Ptr} {n : FsNode} {txt : List UInt8} (hc : CwdOk s)
    (hn : s.nodes.get f = some n) (hw : Written s s' f n txt) : CwdOk s' := by
  obtain ⟨q, m, hq, hm, hdir⟩ := hc
  by_cases hqf : q = f
  · subst hqf
    rw [hn] at hm
    obtain rfl := Option.some.inj hm
    obtain ⟨n', hn', -, htype, -⟩ := hw.node
    exact ⟨q, n', hw.cwd.trans hq, hn', htype.trans hdir⟩
  · exact ⟨q, m, hw.cwd.trans hq, (hw.other hqf).trans hm, hdir⟩

/-- **Creating, by path.** The call comes to an end, and the working directory stays. -/
theorem TreeInv.fsCreate (h : TreeInv s root kids) (hc : CwdOk s) (path : List UInt8)
    (type : FsType) :
    ∃ r s', Ramfs.fsCreate env s path type = some (r, s') ∧ CwdOk s' ∧
      s'.currentDir = s.currentDir ∧
      ((r = none ∧ ∃ t, s' = { s with time := t }) ∨
        ∃ d p kids' name, r = some p ∧ CreatedIn s s' root kids kids' d p name type) := by
  obtain ⟨p, hp, hmem⟩ := h.start hc path
  obtain ⟨parent, comp, hw, hparent, hcomp⟩ := h.walk hp hmem
  obtain ⟨r, s', hcreate, hres⟩ := h.create env type hw hparent hcomp
  refine ⟨r, s', hcreate, ?_⟩
  rcases hres with ⟨rfl, t, rfl⟩ | ⟨d, p, kids', -, rfl, hin⟩
  · exact ⟨hc, rfl, Or.inl ⟨rfl, t, rfl⟩⟩
  · exact ⟨hc.created hin.fresh hin.added, hin.added.cwd, Or.inr ⟨d, p, kids', comp, rfl, hin⟩⟩

theorem TreeInv.fsSetCwd (h : TreeInv s root kids) (hc : CwdOk s) {dir : Option Ptr} {s' : Fs}
    (hs : Ramfs.fsSetCwd s dir = some s') : TreeInv s' root kids ∧ CwdOk s' := by
  unfold Ramfs.fsSetCwd at hs
  cases dir with
  | none =>
    obtain rfl := Option.some.inj hs
    exact ⟨h, hc⟩
  | some d =>
    cases hd : s.nodes.get d with
    | none => simp [hd] at hs
    | some dn =>
      simp only [hd] at hs
      by_cases hdir : dn.type = .dir
      · rw [if_pos hdir] at hs
        obtain rfl := Option.some.inj hs
        exact ⟨h.congr rfl rfl rfl rfl, d, dn, rfl, hd, hdir⟩
      · rw [if_neg hdir] at hs
        obtain rfl := Option.some.inj hs
        exact ⟨h, hc⟩

/-- A call that removes nothing above the working directory leaves a tree with a working
directory in it. -/
theorem TreeInv.fsStep (h : TreeInv s root kids) (hc : CwdOk s) {o : FsOp} {s' : Fs}
    (hk : KeepsCwd s o) (hs : Ramfs.fsStep env s o = some s') :
    ∃ kids', TreeInv s' root kids' ∧ CwdOk s' := by
  cases o with
  | create path type =>
    obtain ⟨r, s₁, hrun, hc₁, -, hres⟩ := h.fsCreate env hc path type
    simp only [Ramfs.fsStep, hrun, Option.map_some, Option.some.injEq] at hs
    subst hs
    rcases hres with ⟨-, t, rfl⟩ | ⟨d, p, kids', name, -, hin⟩
    · exact ⟨kids, h.congr rfl rfl rfl rfl, hc₁⟩
    · exact ⟨kids', hin.inv, hc₁⟩
  | remove path =>
    obtain ⟨r, hr, -⟩ := h.fsResolve hc path
    obtain ⟨res, s₁, hrun, hres⟩ := h.fsRemove hr
    simp only [Ramfs.fsStep, hrun, Option.map_some, Option.some.injEq] at hs
    subst hs
    rcases hres with ⟨-, rfl, -⟩ | ⟨-, node, c, kids', rfl, hcwd, hsub, hinv, hremoved⟩
    · exact ⟨kids, h, hc⟩
    · refine ⟨kids', hinv, hc.removed hremoved fun p hp hgone => ?_⟩
      -- the working directory is neither the node nor below it
      have hroot : s.rootNode ≠ some node := by
        rw [h.isRoot]
        rintro hroot
        obtain rfl := Option.some.inj hroot
        have := hremoved.freed (List.mem_append_right c.ids (List.mem_singleton_self root))
        obtain ⟨n, hn⟩ := hinv.get hinv.root_mem
        rw [this] at hn
        simp at hn
      rcases List.mem_append.mp hgone with hbelow | hself
      · exact hk node p hr hroot hp
          ((h.rep.above_iff h.nodup (sub_subset hsub hbelow)).mpr ⟨c, hsub, hbelow⟩)
      · rw [List.mem_singleton.mp hself] at hp
        exact hcwd hp
  | write file src add append =>
    simp only [Ramfs.fsStep, Option.map_eq_some_iff] at hs
    obtain ⟨⟨res, s₁⟩, hrun, rfl⟩ := hs
    rcases h.write_cases env hrun with ⟨-, t, rfl⟩ | ⟨f, n, -, hn, -, -, hinv, hw⟩
    · exact ⟨kids, h.congr rfl rfl rfl rfl, hc⟩
    · exact ⟨kids, hinv, hc.written hn hw⟩
  | setCwd dir => exact ⟨kids, h.fsSetCwd hc hs⟩
  | reset =>
    obtain ⟨s₁, hrun, hinv, hremoved, hcwd⟩ := h.fsReset env
    rw [Ramfs.fsStep, hrun] at hs
    obtain rfl := Option.some.inj hs
    obtain ⟨n, hn⟩ := hinv.get hinv.root_mem
    exact ⟨Forest.nil, hinv, root, n, hcwd, hn, hinv.rootDir hn⟩

/-- A call that removes something above the working directory leaves it freed. -/
theorem TreeInv.fsStep_breaks (h : TreeInv s root kids) (hc : CwdOk s) {op : FsOp}
    (hk : ¬KeepsCwd s op) : ∃ s', Ramfs.fsStep env s op = some s' ∧ ¬CwdLive s' := by
  cases op with
  | remove path =>
    simp only [KeepsCwd, not_forall, not_not] at hk
    obtain ⟨node, cwd, hr, hroot, hcwd, habove⟩ := hk
    obtain ⟨q, n, hq, hn, -⟩ := hc
    rw [hcwd] at hq
    obtain rfl := Option.some.inj hq
    obtain ⟨c, hsub, hmem⟩ := (h.rep.above_iff h.nodup (h.mem hn)).mp habove
    have hne : s.currentDir ≠ some node := by
      rw [hcwd]
      rintro hc
      obtain rfl := Option.some.inj hc
      exact (List.nodup_cons.mp (sub_nodup h.nodup hsub)).1 hmem
    obtain ⟨res, s', hrun, hres⟩ := h.fsRemove hr
    refine ⟨s', by rw [Ramfs.fsStep, hrun, Option.map_some], ?_⟩
    rcases hres with ⟨-, -, hrefused⟩ | ⟨-, node', c', kids', hnode, -, hsub', -, hremoved⟩
    · exact absurd (hrefused node rfl) (not_or.mpr ⟨hroot, hne⟩)
    · obtain rfl := Option.some.inj hnode
      rw [hsub] at hsub'
      obtain rfl := Option.some.inj hsub'
      rintro ⟨p, m, hp, hm, -⟩
      rw [hremoved.cwd, hcwd] at hp
      obtain rfl := Option.some.inj hp
      rw [hremoved.freed (List.mem_append_left _ hmem)] at hm
      simp at hm
  | create path type => exact absurd trivial hk
  | write file src add append => exact absurd trivial hk
  | setCwd dir => exact absurd trivial hk
  | reset => exact absurd trivial hk

/-! ## The skeleton -/

/-- No memory for the root: then there is nothing, and nothing is created. -/
structure Bare (s : Fs) : Prop where
  root : s.rootNode = none
  cwd : s.currentDir = none
  nodes : ∀ p, s.nodes.get p = none
  bufs : ∀ d, s.bufs.get d = none
  count : s.nodeCount = 0

theorem Bare.zero : Bare .zero := ⟨rfl, rfl, fun _ => rfl, fun _ => rfl, rfl⟩

theorem Bare.fsCreate {path : List UInt8} {type : FsType} {r : Option Ptr} {s' : Fs}
    (h : Bare s) (hrun : Ramfs.fsCreate env s path type = some (r, s')) : r = none ∧ Bare s' := by
  unfold Ramfs.fsCreate at hrun
  split at hrun
  · simp at hrun
  · rename_i parent comp _
    cases parent with
    | none =>
      simp only [Option.some.injEq, Prod.mk.injEq] at hrun
      obtain ⟨rfl, rfl⟩ := hrun
      exact ⟨rfl, h.root, h.cwd, h.nodes, h.bufs, h.count⟩
    | some p => simp [h.nodes p] at hrun

theorem Bare.createAll {type : FsType} {paths : List (List UInt8)} {s' : Fs} (h : Bare s)
    (hrun : Ramfs.createAll env type paths s = some s') : Bare s' := by
  induction paths generalizing s with
  | nil =>
    obtain rfl := Option.some.inj hrun
    exact h
  | cons path paths ih =>
    rw [Ramfs.createAll] at hrun
    cases hc : Ramfs.fsCreate env s path type with
    | none => simp [hc] at hrun
    | some res =>
      simp only [hc] at hrun
      exact ih (h.fsCreate env hc).2 hrun

theorem Bare.createFile {path txt : List UInt8} {s' : Fs} (h : Bare s)
    (hrun : Ramfs.createFile env s path txt = some s') : Bare s' := by
  unfold Ramfs.createFile at hrun
  cases hc : Ramfs.fsCreate env s path .file with
  | none => simp [hc] at hrun
  | some res =>
    obtain ⟨file, s₁⟩ := res
    obtain ⟨rfl, h₁⟩ := h.fsCreate env hc
    simp only [hc, fsWrite, fsWriteN, Option.map_some, Option.some.injEq] at hrun
    exact hrun ▸ h₁

/-- The root alone is a tree. -/
theorem Bare.newRoot (h : Bare s) {name : List UInt8} {r : Option Ptr} {s' : Fs}
    (hrun : nodeNew env s name .dir none = some (r, s')) :
    (r = none ∧ Bare { s' with rootNode := r, currentDir := r }) ∨
      ∃ p, r = some p ∧ TreeInv { s' with rootNode := r, currentDir := r } p Forest.nil := by
  cases nodeNew_cases env hrun with
  | denied => exact Or.inl ⟨rfl, rfl, rfl, h.nodes, h.bufs, h.count⟩
  | @root p hk =>
    refine Or.inr ⟨p, rfl, ?_⟩
    obtain ⟨n, hn⟩ : ∃ n : FsNode, n = { name := name.take (fsNameMax - 1), type := .dir } :=
      ⟨_, rfl⟩
    have hget : ∀ q, (s.nodes.set p n).get q = if q = p then some n else none := by
      intro q
      by_cases hq : q = p
      · rw [if_pos hq, hq, Store.get_set_same]
      · rw [if_neg hq, Store.get_set_other hq, h.nodes]
    have honly : ∀ {q m}, (s.nodes.set p n).get q = some m → q = p ∧ m = n := by
      intro q m hq
      rw [hget] at hq
      by_cases hqp : q = p
      · rw [if_pos hqp] at hq
        exact ⟨hqp, (Option.some.inj hq).symm⟩
      · simp [hqp] at hq
    rw [← hn]
    refine ⟨rfl, ?_, by simp, fun q => ?_, fun {q m} hq => ?_, fun {m} hq => ?_,
      fun {q m} hq hqp => ?_, fun {q r k m d} hq hr _ _ => ?_, fun {d b} hd => ?_, ?_⟩
    · simp [Forest.Rep, links, Fs.setNode, hn]
    · simp only [Fs.setNode, hget]
      by_cases hq : q = p
      · simp [hq]
      · simp [hq]
    · obtain ⟨-, rfl⟩ := honly hq
      rw [hn]
      exact ⟨fun _ => rfl, fun _ => rfl, ⟨rfl, rfl⟩⟩
    · obtain ⟨-, rfl⟩ := honly hq
      rw [hn]
    · exact absurd (honly hq).1 hqp
    · rw [(honly hq).1, (honly hr).1]
    · have hd' : s.bufs.get d = some b := hd
      rw [h.bufs] at hd'
      simp at hd'
    · simp [h.count]

theorem TreeInv.createAll {type : FsType} {paths : List (List UInt8)} {s' : Fs}
    (h : TreeInv s root kids) (hc : CwdOk s)
    (hrun : Ramfs.createAll env type paths s = some s') :
    ∃ kids', TreeInv s' root kids' ∧ CwdOk s' := by
  induction paths generalizing s kids with
  | nil =>
    obtain rfl := Option.some.inj hrun
    exact ⟨kids, h, hc⟩
  | cons path paths ih =>
    obtain ⟨r, s₁, hcreate, -⟩ := h.fsCreate env hc path type
    simp only [Ramfs.createAll, hcreate] at hrun
    obtain ⟨kids₁, h₁, hc₁⟩ := h.fsStep env hc (o := .create path type) trivial
      (by rw [Ramfs.fsStep, hcreate, Option.map_some])
    exact ih h₁ hc₁ hrun

theorem TreeInv.createFile {path txt : List UInt8} {s' : Fs} (h : TreeInv s root kids)
    (hc : CwdOk s) (hrun : Ramfs.createFile env s path txt = some s') :
    ∃ kids', TreeInv s' root kids' ∧ CwdOk s' := by
  obtain ⟨r, s₁, hcreate, -⟩ := h.fsCreate env hc path .file
  obtain ⟨kids₁, h₁, hc₁⟩ := h.fsStep env hc (o := .create path .file) trivial
    (by rw [Ramfs.fsStep, hcreate, Option.map_some])
  simp only [Ramfs.createFile, hcreate] at hrun
  exact h₁.fsStep env hc₁ (o := .write r txt txt.length false) trivial hrun

/-- **Booting.** If there is memory for the root, `fs_init` leaves a tree with a working
directory in it, and nothing otherwise. -/
theorem fsInit_cases {s₀ : Fs} (h : fsInit env .zero = some s₀) :
    Bare s₀ ∨ ∃ root kids, TreeInv s₀ root kids ∧ CwdOk s₀ := by
  unfold fsInit at h
  rcases hnew : nodeNew env .zero (ofString "/") .dir none with - | ⟨r, s₁⟩
  · simp [hnew] at h
  simp only [hnew] at h
  split at h
  · simp at h
  rename_i s₂ hdirs
  split at h
  · simp at h
  rename_i s₃ hmotd
  split at h
  · simp at h
  rename_i s₄ hhostname
  split at h
  · simp at h
  rename_i s₅ hversion
  rcases Bare.zero.newRoot env hnew with ⟨rfl, hbare⟩ | ⟨p, rfl, htree⟩
  · have hbare₅ := (((hbare.createAll env hdirs).createFile env hmotd).createFile env
      hhostname).createFile env hversion
    simp only [Option.map_eq_some_iff] at h
    obtain ⟨⟨r, s₆⟩, hpasswd, rfl⟩ := h
    exact Or.inl (hbare₅.fsCreate env hpasswd).2
  · obtain ⟨n, hn⟩ := htree.get htree.root_mem
    obtain ⟨kids₂, h₂, hc₂⟩ := htree.createAll env ⟨p, n, rfl, hn, htree.rootDir hn⟩ hdirs
    obtain ⟨kids₃, h₃, hc₃⟩ := h₂.createFile env hc₂ hmotd
    obtain ⟨kids₄, h₄, hc₄⟩ := h₃.createFile env hc₃ hhostname
    obtain ⟨kids₅, h₅, hc₅⟩ := h₄.createFile env hc₄ hversion
    obtain ⟨kids₆, h₆, hc₆⟩ := h₅.fsStep env hc₅ (o := .create etcPasswd .file) trivial h
    exact Or.inr ⟨p, kids₆, h₆, hc₆⟩

theorem fsInit_tree {s₀ : Fs} (h : fsInit env .zero = some s₀) (hroot : s₀.rootNode ≠ none) :
    ∃ root kids, TreeInv s₀ root kids ∧ CwdOk s₀ := by
  rcases fsInit_cases env h with hbare | htree
  · exact absurd hbare.root hroot
  · exact htree

/-! ## Runs of calls -/

/-- **Removing nothing above the working directory is exactly what keeps it live.** In
every state along a run of calls from `fs_init` on, the working directory is a directory
of the tree, if and only if none of the calls removes a directory above it. -/
theorem cwd_live_iff {s₀ : Fs} (h : fsInit env .zero = some s₀) (hroot : s₀.rootNode ≠ none)
    (ops : List FsOp) :
    (∀ done s, done <+: ops → fsRun env s₀ done = some s → CwdLive s) ↔ KeepsAll env s₀ ops := by
  obtain ⟨root, kids, hinv, hc⟩ := fsInit_tree env h hroot
  clear h hroot
  induction ops generalizing s₀ kids with
  | nil =>
    refine ⟨fun _ => trivial, fun _ done s hdone hrun => ?_⟩
    rw [List.prefix_nil.mp hdone] at hrun
    obtain rfl := Option.some.inj hrun
    exact hinv.cwdLive hc
  | cons op ops ih =>
    constructor
    · intro hlive
      have hk : KeepsCwd s₀ op := by
        by_contra hk
        obtain ⟨s', hs', hdead⟩ := hinv.fsStep_breaks env hc hk
        refine hdead (hlive [op] s' (by simp) ?_)
        simp only [fsRun, hs']
      refine ⟨hk, fun s' hs' => ?_⟩
      obtain ⟨kids', hinv', hc'⟩ := hinv.fsStep env hc hk hs'
      refine (ih kids' hinv' hc').mp fun done s hdone hrun => ?_
      refine hlive (op :: done) s ((List.prefix_cons_inj op).mpr hdone) ?_
      simp only [fsRun, hs', hrun]
    · rintro ⟨hk, hrest⟩ done s hdone hrun
      cases done with
      | nil =>
        obtain rfl := Option.some.inj hrun
        exact hinv.cwdLive hc
      | cons op' done =>
        obtain ⟨rfl, hdone'⟩ := List.cons_prefix_cons.mp hdone
        rw [fsRun] at hrun
        cases hs' : fsStep env s₀ op' with
        | none => simp [hs'] at hrun
        | some s' =>
          simp only [hs'] at hrun
          obtain ⟨kids', hinv', hc'⟩ := hinv.fsStep env hc hk hs'
          exact (ih kids' hinv' hc').mpr (hrest s' hs') done s hdone' hrun

def homeA : List UInt8 := ofString "/home/a"

/-- `mkdir /home/a` and `rm /tmp` in the root directory: it stays live, so nothing above it was
removed. -/
theorem cwd_live_iff_tmp : ∃ s₀, fsInit Env.ample .zero = some s₀ ∧
    (∀ done s, done <+: [.create homeA .dir, .remove (ofString "/tmp")] →
        fsRun Env.ample s₀ done = some s → CwdLive s) ∧
      KeepsAll Env.ample s₀ [.create homeA .dir, .remove (ofString "/tmp")] := by
  have h : (fsInit Env.ample .zero).map (fun s₀ => decide (s₀.rootNode ≠ none ∧
      ∀ done ∈ [FsOp.create homeA .dir, .remove (ofString "/tmp")].inits,
        ((fsRun Env.ample s₀ done).bind fun s => s.currentDir.bind fun p =>
          (s.nodes.get p).map fun n => (decide (s.rootNode = some p), n.type)) =
            some (true, .dir))) = some true := by
    decide +kernel
  simp only [Option.map_eq_some_iff, decide_eq_true_eq] at h
  obtain ⟨s₀, hinit, hroot, hdone⟩ := h
  have hlive : ∀ done s, done <+: [.create homeA .dir, .remove (ofString "/tmp")] →
      fsRun Env.ample s₀ done = some s → CwdLive s := by
    intro done s hprefix hrun
    have hcwd := hdone done ((List.mem_inits _ _).mpr hprefix)
    simp only [hrun, Option.bind_some, Option.bind_eq_some_iff, Option.map_eq_some_iff,
      Prod.mk.injEq, decide_eq_true_eq] at hcwd
    obtain ⟨p, hp, n, hn, htop, hdir⟩ := hcwd
    exact ⟨p, n, hp, hn, hdir, .root htop⟩
  exact ⟨s₀, hinit, hlive, (cwd_live_iff Env.ample hinit hroot _).mp hlive⟩

/-- `mkdir /home/a`, `cd /home/a`, `rm /home`: the working directory is freed. -/
theorem cwd_freed : ∃ s₀ s dir, fsInit Env.ample .zero = some s₀ ∧
    (fsRun Env.ample s₀ [.create homeA .dir]).bind (fsResolve · homeA) = some (some dir) ∧
    fsRun Env.ample s₀ [.create homeA .dir, .setCwd (some dir), .remove (ofString "/home")] =
      some s ∧ s.currentDir = some dir ∧ ¬CwdLive s := by
  have h : (fsInit Env.ample .zero).bind (fun s₀ =>
      (fsRun Env.ample s₀
        [.create homeA .dir, .setCwd (some 14), .remove (ofString "/home")]).map fun s =>
      decide ((fsRun Env.ample s₀ [.create homeA .dir]).bind (fsResolve · homeA) = some (some 14) ∧
        s.currentDir = some 14 ∧ s.nodes.get 14 = none)) = some true := by
    decide +kernel
  simp only [Option.bind_eq_some_iff, Option.map_eq_some_iff, decide_eq_true_eq] at h
  obtain ⟨s₀, hinit, s, hrun, hdir, hcwd, hgone⟩ := h
  refine ⟨s₀, s, 14, hinit, Option.bind_eq_some_iff.mpr hdir, hrun, hcwd, ?_⟩
  rintro ⟨p, n, hp, hn, -⟩
  rw [hcwd] at hp
  obtain rfl := Option.some.inj hp
  rw [hgone] at hn
  simp at hn

end LightningOS.Ramfs
