import LightningOS.Properties.Reach
import LightningOS.Properties.Removal

/-!
# The path that is checked

`target_abspath` works out where a command is about to write, and `fs_create` and `fs_remove`
find the place again on their own. Here is when the string is the location of the node that
comes or goes.
-/

namespace LightningOS.Shell

open ByteMemory CString Ramfs Forest

variable {env : Env} {s s' : Fs} {root : Ptr} {kids : Forest Ptr}

/-! ## Strings of locations -/

theorem joinPath_inj {ns ms : List (List UInt8)} (hns : ∀ name ∈ ns, IsName name)
    (hms : ∀ name ∈ ms, IsName name) (h : joinPath ns = joinPath ms) : ns = ms := by
  rw [← components_joinPath hns, h, components_joinPath hms]

/-- A path has one slash for each name. -/
theorem count_joinPath {ns : List (List UInt8)} (h : ∀ name ∈ ns, slash ∉ name) :
    (joinPath ns).count slash = ns.length := by
  induction ns with
  | nil => rfl
  | cons name ns ih =>
    have hname : name.count slash = 0 := List.count_eq_zero.mpr (h name (by simp))
    rw [joinPath_cons, List.count_cons_self, List.count_append, hname,
      ih fun m hm => h m (by simp [hm]), List.length_cons]
    omega

/-- The string for a node is the path of a location that is not above it only if the node is
there, and not too far down. -/
theorem written_iff (h : TreeInv s root kids) {q : Ptr} {qs ms : List (List UInt8)}
    (hl : Located s q qs) (hms : ∀ name ∈ ms, IsName name) (hne : ms ≠ [])
    (hlen : qs.length ≤ ms.length) {out : List UInt8}
    (habs : fsAbspath s q fsPathMax = some out) :
    (if out = [] then [slash] else out) = joinPath ms ↔ ms = qs ∧ Short qs := by
  obtain ⟨out', k, habs', -, hcase⟩ := abspath_eq h hl
  rw [habs] at habs'
  obtain rfl := Option.some.inj habs'
  rcases hcase with ⟨rfl, rfl⟩ | ⟨hqs, hout, hpos⟩
  · -- the root
    rw [if_neg (by simp)]
    refine iff_of_false (fun heq => ?_) (fun hand => hne hand.1)
    cases ms with
    | nil => exact hne rfl
    | cons name ms =>
      have hname := List.length_pos_iff.mpr (hms name (by simp)).ne_nil
      have hlen' := congrArg List.length heq
      simp only [joinPath_cons, List.length_cons, List.length_append, List.length_nil] at hlen'
      omega
  · have hout0 : out ≠ [] := by
      rintro rfl
      simp at hpos
    rw [if_neg hout0]
    constructor
    · intro heq
      have hroom := hl.abspath_room h hqs habs
      have hseen := seen_isName (hl.isName h)
      have hms' : ms = (seen qs).take k := joinPath_inj hms
        (fun m hm => hseen m (List.mem_of_mem_take hm)) (heq.symm.trans hout)
      -- nothing was left out
      have hcount := congrArg List.length hms'
      rw [List.length_take, seen_length] at hcount
      rw [seen_of_le (by omega), List.take_of_length_le (by omega)] at hms'
      rw [heq, hms'] at hroom
      exact ⟨hms', by omega, hroom⟩
    · rintro ⟨rfl, hshort⟩
      rw [hshort.fsAbspath h hl, if_neg hqs, Option.some.injEq] at habs
      exact habs.symm

/-- The check cuts a new name where `fs_create` cuts it. -/
def CutAlike (ns : List (List UInt8)) (name : List UInt8) : Prop :=
  min (fsPathMax - 2 - (joinPath ns).length) name.length = min (fsNameMax - 1) name.length

/-- The string for a new name is the path of the new node only if the directory is not too
far down, and the name is cut alike. -/
theorem child_iff (h : TreeInv s root kids) {d : Ptr} {ns : List (List UInt8)}
    (hl : Located s d ns) {name : List UInt8} (hname : slash ∉ name) {out : List UInt8}
    (habs : fsAbspath s d fsPathMax = some out) :
    childAbspath (if out = [] then [slash] else out) name =
      joinPath (ns ++ [name.take (fsNameMax - 1)]) ↔ Short ns ∧ CutAlike ns name := by
  obtain ⟨out', k, habs', -, hcase⟩ := abspath_eq h hl
  rw [habs] at habs'
  obtain rfl := Option.some.inj habs'
  have hnames := hl.isName h
  have hseen := seen_isName hnames
  have hmax : fsPathMax = 256 := rfl
  rw [childAbspath_eq hcase]
  have hcut : Short ns → ((joinPath (ns ++ [name])).take (fsPathMax - 1) =
      joinPath (ns ++ [name.take (fsNameMax - 1)]) ↔ CutAlike ns name) := by
    intro hshort
    have hroom := hshort.2
    obtain ⟨r, hr⟩ : ∃ r, fsPathMax - 1 - (joinPath ns).length = r + 1 :=
      ⟨fsPathMax - 2 - (joinPath ns).length, by omega⟩
    rw [joinPath_concat, joinPath_concat, List.take_append, List.take_of_length_le (by omega), hr,
      List.take_succ_cons, List.append_cancel_left_eq, List.cons.injEq, List.take_eq_take_iff,
      CutAlike, show r = fsPathMax - 2 - (joinPath ns).length by omega]
    simp only [true_and]
  constructor
  · intro heq
    -- every name of the location is a slash in the string
    have hslash := noSlash_concat hnames
      (fun hmem => hname (List.mem_of_mem_take hmem) : slash ∉ name.take (fsNameMax - 1)) ns.length
    rw [List.take_length] at hslash
    have hcount := (List.take_sublist (fsPathMax - 1)
      (joinPath ((seen ns).take k ++ [name]))).count_le slash
    rw [heq, count_joinPath hslash, count_joinPath (noSlash_concat hseen hname k),
      List.length_append, List.length_append, List.length_take, seen_length,
      List.length_singleton, List.length_singleton] at hcount
    have htake : (seen ns).take k = ns := by
      rw [seen_of_le (by omega), List.take_of_length_le (by omega)]
    rw [htake] at heq hcase
    have hshort : Short ns := by
      refine ⟨by omega, ?_⟩
      rcases hcase with ⟨rfl, -⟩ | ⟨hns, rfl, -⟩
      · decide
      · exact hl.abspath_room h hns habs
    exact ⟨hshort, (hcut hshort).mp heq⟩
  · rintro ⟨hshort, halike⟩
    have htake : (seen ns).take k = ns := by
      rcases hcase with ⟨rfl, -⟩ | ⟨hns, rfl, -⟩
      · simp [seen]
      · rw [hshort.fsAbspath h hl, if_neg hns, Option.some.injEq] at habs
        exact (joinPath_inj hnames (fun m hm => hseen m (List.mem_of_mem_take hm)) habs).symm
    rw [htake]
    exact (hcut hshort).mpr halike

/-! ## What comes and what goes -/

/-- The check sees the location of the node that `fs_create` would make. A path that led
nowhere must not be cut in two ways. One that led somewhere, and can still be created, must
not do so by one of the names that have a meaning of their own. -/
def ChecksCreated (s : Fs) (path : List UInt8) : Prop :=
  ∃ d comp ns, LeadsTo s path d comp ∧ Located s d ns ∧
    (fsResolve s path = some none ∧ Short ns ∧ CutAlike ns (leaf path) ∨
      fsResolve s path ≠ some none ∧ comp ≠ [dot] ∧ comp ≠ [dot, dot] ∧ Short (ns ++ [comp]))

theorem target_existing {path abspath : List UInt8} {q : Ptr}
    (hq : fsResolve s path = some (some q))
    (ht : targetAbspath s path = some (some abspath)) :
    ∃ out, fsAbspath s q fsPathMax = some out ∧
      abspath = if out = [] then [slash] else out := by
  unfold targetAbspath at ht
  simp only [hq, Option.map_eq_some_iff, Option.some.injEq] at ht
  obtain ⟨out, habs, rfl⟩ := ht
  exact ⟨out, habs, rfl⟩

theorem target_created_iff (h : TreeInv s root kids) (hc : CwdOk s) {path abspath : List UInt8}
    (ht : targetAbspath s path = some (some abspath)) {d : Ptr} {comp : List UInt8}
    {ns : List (List UInt8)} (hleads : LeadsTo s path d comp) (hl : Located s d ns)
    (hcomp : IsName comp) :
    abspath = joinPath (ns ++ [comp]) ↔
      (fsResolve s path = some none ∧ Short ns ∧ CutAlike ns (leaf path) ∨
        fsResolve s path ≠ some none ∧ comp ≠ [dot] ∧ comp ≠ [dot, dot] ∧
          Short (ns ++ [comp])) := by
  obtain ⟨c, cn, hcwd, -, -⟩ := hc
  have hnames : ∀ name ∈ ns ++ [comp], IsName name := by
    intro name hname
    rcases List.mem_append.mp hname with hname | hname
    · exact hl.isName h name hname
    · exact List.mem_singleton.mp hname ▸ hcomp
  cases hres : fsResolve s path with
  | none => simp [targetAbspath, hres] at ht
  | some r =>
    cases r with
    | none =>
      obtain ⟨d', out, hleads', habs, rfl⟩ := target_missing hcwd h.isRoot hres ht
      obtain ⟨rfl, rfl⟩ := hleads.unique hleads'
      rw [child_iff h hl (leaf_noSlash path) habs]
      simp
    | some q =>
      obtain ⟨out, habs, rfl⟩ := target_existing hres ht
      obtain ⟨dn, hdn⟩ := h.get (hl.mem h)
      rw [hleads.resolve, follow] at hres
      -- the location of the node that the path led to
      have hne : ns ++ [comp] ≠ [] := by simp
      have hlong : (ns ++ [comp]).length = ns.length + 1 := by simp
      by_cases h1 : comp = [dot]
      · rw [if_pos h1] at hres
        obtain rfl := Option.some.inj (Option.some.inj hres)
        rw [written_iff h hl hnames hne (by omega) habs]
        refine iff_of_false (fun hand => ?_) (by simp [h1])
        have := congrArg List.length hand.1
        omega
      rw [if_neg h1] at hres
      by_cases h2 : comp = [dot, dot]
      · rw [if_pos h2] at hres
        obtain ⟨up, hup, -⟩ := h.parentOrRoot (hl.mem h)
        rw [hup] at hres
        obtain rfl := Option.some.inj (Option.some.inj hres)
        obtain ⟨us, hus, hprefix⟩ := hl.up h hup
        have hshorter := hprefix.length_le
        rw [written_iff h hus hnames hne (by omega) habs]
        refine iff_of_false (fun hand => ?_) (by simp [h2])
        have := congrArg List.length hand.1
        omega
      · rw [if_neg h2] at hres
        cases hc : findChild s (some d) comp with
        | none => simp [hc] at hres
        | some r =>
          cases r with
          | none => simp [hc] at hres
          | some x =>
            simp only [hc, follow, Option.some.injEq] at hres
            subst hres
            obtain ⟨m, hm, hparent, rfl⟩ := h.findChild_some hdn hc
            rw [written_iff h (.child hl hm hparent) hnames hne (Nat.le_refl _) habs]
            simp [h1, h2]

/-- **The path that is checked.** Let `target_abspath` give a string for a path. The node that
`fs_create` makes is there exactly if the check sees its location. The node that `fs_remove`
takes away was there exactly if its location is short. -/
theorem checked_path_iff (h : TreeInv s root kids) (hc : CwdOk s) {path abspath : List UInt8}
    (ht : targetAbspath s path = some (some abspath)) :
    (∀ {type p s'}, fsCreate env s path type = some (some p, s') →
      ∃ ns, Located s' p ns ∧ (abspath = joinPath ns ↔ ChecksCreated s path)) ∧
    (∀ {s'}, fsRemove s path = some (0, s') →
      ∃ node below kids' ns, fsResolve s path = some (some node) ∧
        SubtreeGone s s' root kids kids' node below ∧ Located s node ns ∧
        (abspath = joinPath ns ↔ Short ns)) := by
  constructor
  · intro type p s' hcreate
    have ⟨c, _, hcwd, _⟩ := hc
    obtain ⟨d, comp, kids', hleads, hin⟩ := create_leadsTo h hcwd hcreate
    obtain ⟨dn, hdn, -⟩ := hin.dir
    obtain ⟨ns, hl⟩ := h.located (h.mem hdn)
    refine ⟨ns ++ [comp], hin.located_new hl, ?_⟩
    rw [target_created_iff h hc ht hleads hl hin.isName]
    constructor
    · intro hsees
      exact ⟨d, comp, ns, hleads, hl, hsees⟩
    · rintro ⟨d', comp', ns', hleads', hl', hsees⟩
      obtain ⟨rfl, rfl⟩ := hleads.unique hleads'
      rwa [h.located_unique hl hl']
  · intro s' hremove
    obtain ⟨⟨res, s'', hremove', hcase⟩, -⟩ := remove_exact h hc path
    rw [hremove] at hremove'
    obtain ⟨rfl, rfl⟩ := Prod.mk.inj (Option.some.inj hremove')
    rcases hcase with ⟨hneg, -⟩ | ⟨-, node, below, kids', hres, hgone⟩
    · omega
    · obtain ⟨out, habs, rfl⟩ := target_existing hres ht
      obtain ⟨ns, hl⟩ := h.located (mem_of_sub hgone.isBelow)
      refine ⟨node, below, kids', ns, hres, hgone, hl, ?_⟩
      have hroot : ns ≠ [] := by
        rintro rfl
        have hr := hl.isRoot
        rw [h.isRoot, Option.some.injEq] at hr
        obtain ⟨rn, hrn⟩ := hgone.inv.get hgone.inv.root_mem
        rw [hr, hgone.freed List.mem_cons_self] at hrn
        simp at hrn
      rw [written_iff h hl (hl.isName h) hroot (Nat.le_refl _) habs]
      simp

/-- A directory below `/tmp` that is not there. -/
def tmpMade : List UInt8 := ofString "/tmp/../tmp/made"

/-- The check sees the path without the detour, and that is where the directory is made. -/
theorem checked_path_iff_made : ∃ s p s' ns, fsInit .ample .zero = some s ∧
    targetAbspath s tmpMade = some (some (joinPath ns)) ∧
    fsCreate .ample s tmpMade .dir = some (some p, s') ∧ Located s' p ns ∧
    ChecksCreated s tmpMade := by
  have h : ((fsInit .ample .zero).bind fun s => (targetAbspath s tmpMade).bind fun a =>
      (fsCreate .ample s tmpMade .dir).bind fun r => r.1.bind fun p => (r.2.nodes.get p).bind
        fun n => n.parent.bind fun d => (r.2.nodes.get d).bind fun dn => dn.parent.map fun root =>
          (decide (s.rootNode ≠ none), decide (r.2.rootNode = some root),
            decide (a = some (joinPath [dn.name, n.name])))) = some (true, true, true) := by
    decide +kernel
  simp only [Option.bind_eq_some_iff, Option.map_eq_some_iff, Prod.mk.injEq, decide_eq_true_eq]
    at h
  obtain ⟨s, hinit, a, ht, ⟨q, s'⟩, hcreate, p, rfl, n, hp, d, hparent, dn, hd, top, htop, hroot,
    hroot', rfl⟩ := h
  obtain ⟨root, kids, hinv, hc⟩ := fsInit_tree .ample hinit hroot
  obtain ⟨ns, hl, hiff⟩ := (checked_path_iff hinv hc ht).1 hcreate
  obtain ⟨c, -, hcwd, -⟩ := hc
  obtain ⟨_, _, kids', -, hin⟩ := create_leadsTo hinv hcwd hcreate
  have hmade : Located s' p [dn.name, n.name] :=
    ((Located.root hroot').child hd htop).child hp hparent
  have hsame := hin.inv.located_unique hmade hl
  subst hsame
  exact ⟨s, p, s', _, hinit, ht, hcreate, hl, hiff.mp rfl⟩

/-- A name of 40 bytes in `/tmp`. -/
def tmpLong : List UInt8 := ofString "/tmp/" ++ List.replicate 40 97

/-- The check sees all of the name, and the node gets 31 bytes of it. -/
theorem checked_path_longer : ∃ s p s' ns, fsInit .ample .zero = some s ∧
    targetAbspath s tmpLong = some (some tmpLong) ∧
    fsCreate .ample s tmpLong .file = some (some p, s') ∧ Located s' p ns ∧
    tmpLong ≠ joinPath ns := by
  have h : ((fsInit .ample .zero).bind fun s => (targetAbspath s tmpLong).bind fun a =>
      (fsCreate .ample s tmpLong .file).map fun r => (decide (s.rootNode ≠ none),
        decide (a = some tmpLong), decide (r.1 ≠ none))) = some (true, true, true) := by
    decide +kernel
  simp only [Option.bind_eq_some_iff, Option.map_eq_some_iff, Prod.mk.injEq, decide_eq_true_eq]
    at h
  obtain ⟨s, hinit, a, ht, ⟨q, s'⟩, hcreate, hroot, rfl, hq⟩ := h
  obtain ⟨p, rfl⟩ := Option.ne_none_iff_exists'.mp hq
  obtain ⟨root, kids, hinv, c, -, hc, -⟩ := fsInit_tree .ample hinit hroot
  obtain ⟨d, comp, kids', -, hin⟩ := create_leadsTo hinv hc hcreate
  obtain ⟨ns, hl⟩ := hin.inv.located (hin.inv.mem hin.added.new)
  refine ⟨s, p, s', ns, hinit, ht, hcreate, hl, fun heq => ?_⟩
  -- as names, the string would be shorter
  have hns := components_joinPath (hl.isName hin.inv)
  rw [← heq] at hns
  rw [← hns] at heq
  revert heq
  decide

end LightningOS.Shell
