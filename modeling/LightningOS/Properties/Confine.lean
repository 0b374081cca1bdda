import LightningOS.Properties.Decoder
import LightningOS.Properties.Flush
import LightningOS.Properties.Permission

/-!
# Where commands write

The permission check and the operation behind it find their node in two different ways.
Both come to the same place, but the check sees the last 32 names of it only. So commands
stay in the home directory and in `/tmp` as long as the place is not deeper than that.
-/

namespace LightningOS.Shell

open ByteMemory CString Ramfs Users Persist Forest

variable {env : Env} {ready : Nat → Bool} {typed : Nat → Option (List UInt8)}
variable {s s' : Fs} {root : Ptr} {kids : Forest Ptr}

/-! ## The node that is checked -/

/-- `may_write` looks at the node that the path leads to, or else at the directory that
holds the last component. -/
def Checked (s : Fs) (path : List UInt8) (q : Ptr) : Prop :=
  fsResolve s path = some (some q) ∨
    fsResolve s path = some none ∧ ∃ comp, LeadsTo s path q comp

/-- A checked node outside of `u`'s places, and too deep for `fs_abspath`. -/
def Misread (s : Fs) (u path : List UInt8) : Prop :=
  ∃ q ms, Checked s path q ∧ Located s q ms ∧ partsMax < ms.length ∧ ¬Inside u ms

theorem fsAbspath_mem (h : TreeInv s root kids) {p : Ptr} {out : List UInt8}
    (habs : fsAbspath s p fsPathMax = some out) : ∃ ns, Located s p ns := by
  cases hn : s.nodes.get p with
  | none => simp [fsAbspath, absParts, hn] at habs
  | some n => exact h.located (h.mem hn)

variable {st st' : Session} {path : List UInt8} {i : UserSlot}

theorem Allowed.node (ha : Allowed st path) (hcur : st.sys.table.current = some i)
    (hu : Ordinary (st.sys.table.users i)) (h : TreeInv st.sys.fs root kids) {q : Ptr}
    (hq : fsResolve st.sys.fs path = some (some q)) :
    ∃ ms, Located st.sys.fs q ms ∧ Inside (st.sys.table.users i).name (seen ms) := by
  obtain ⟨abspath, htarget, hmay⟩ := ha
  unfold targetAbspath at htarget
  simp only [hq, Option.map_eq_some_iff, Option.some.injEq] at htarget
  obtain ⟨out, habs, rfl⟩ := htarget
  obtain ⟨ms, hms⟩ := fsAbspath_mem h habs
  exact ⟨ms, hms, mayWrite_node hcur hu h hms habs hmay⟩

theorem Allowed.missing (ha : Allowed st path) (hcur : st.sys.table.current = some i)
    (hu : Ordinary (st.sys.table.users i)) (h : TreeInv st.sys.fs root kids) {c : Ptr}
    (hc : st.sys.fs.currentDir = some c) (hres : fsResolve st.sys.fs path = some none) :
    ∃ d name ms, LeadsTo st.sys.fs path d (name.take (fsNameMax - 1)) ∧
      Located st.sys.fs d ms ∧ Inside (st.sys.table.users i).name (seen ms ++ [name]) := by
  obtain ⟨abspath, htarget, hmay⟩ := ha
  obtain ⟨d, out, hleads, habs, rfl⟩ := target_missing hc h.isRoot hres htarget
  obtain ⟨ms, hms⟩ := fsAbspath_mem h habs
  exact ⟨d, leaf path, ms, hleads, hms, mayWrite_child hcur hu h hms (leaf_noSlash path) habs hmay⟩

/-- What is checked and not misread is inside. -/
theorem Allowed.node_inside (ha : Allowed st path) (hcur : st.sys.table.current = some i)
    (hu : Ordinary (st.sys.table.users i)) (h : TreeInv st.sys.fs root kids) {q : Ptr}
    (hq : fsResolve st.sys.fs path = some (some q))
    (hread : ¬Misread st.sys.fs (st.sys.table.users i).name path) :
    ∃ ms, Located st.sys.fs q ms ∧ Inside (st.sys.table.users i).name ms := by
  obtain ⟨ms, hms, hseen⟩ := ha.node hcur hu h hq
  refine ⟨ms, hms, by_contra fun hout => ?_⟩
  by_cases hlen : ms.length ≤ partsMax
  · rw [seen_of_le hlen] at hseen
    exact hout hseen
  · exact hread ⟨q, ms, Or.inl hq, hms, Nat.lt_of_not_le hlen, hout⟩

/-! ## Where nodes are created -/

/-- A node is created below the one that was checked, or it is a second one of its name. -/
theorem created_below (h : TreeInv s root kids) {kids' : Forest Ptr} {d p q : Ptr}
    {comp : List UInt8} {type : FsType} {ms : List (List UInt8)}
    (hleads : LeadsTo s path d comp) (hin : CreatedIn s s' root kids kids' d p comp type)
    (hq : Checked s path q) (hms : Located s q ms) : ∃ l, Located s' p (ms ++ l) := by
  obtain ⟨dn, hdn, -⟩ := hin.dir
  obtain ⟨ns, hns⟩ := h.located (h.mem hdn)
  have hnew := hin.located_new hns
  rcases hq with hres | ⟨-, comp', hleads'⟩
  · rw [hleads.resolve, follow] at hres
    by_cases h1 : comp = [dot]
    · -- the directory itself
      rw [if_pos h1, follow, Option.some.injEq, Option.some.injEq] at hres
      subst hres
      rw [h.located_unique hms hns]
      exact ⟨_, hnew⟩
    rw [if_neg h1] at hres
    by_cases h2 : comp = [dot, dot]
    · -- the directory above it, or the root once more
      rw [if_pos h2] at hres
      unfold parentOrRoot at hres
      simp only [hdn] at hres
      cases hparent : dn.parent with
      | none =>
        simp only [hparent, h.isRoot, follow, Option.some.injEq] at hres
        subst hres
        rw [h.located_root hms]
        exact ⟨_, hnew⟩
      | some e =>
        simp only [hparent, follow, Option.some.injEq] at hres
        subst hres
        rw [h.located_unique hns (.child hms hdn hparent)] at hnew
        exact ⟨_, by rwa [List.append_assoc] at hnew⟩
    · rw [if_neg h2] at hres
      cases hfind : findChild s (some d) comp with
      | none => simp [hfind] at hres
      | some r =>
        cases r with
        | none => simp [hfind] at hres
        | some r =>
          simp only [hfind, follow, Option.some.injEq] at hres
          subst hres
          obtain ⟨m, hm, hparent, rfl⟩ := h.findChild_some hdn hfind
          rw [← h.located_unique hms (.child hns hm hparent)] at hnew
          exact ⟨[], by rwa [List.append_nil]⟩
  · obtain ⟨rfl, -⟩ := hleads.unique hleads'
    rw [h.located_unique hms hns]
    exact ⟨_, hnew⟩

theorem Allowed.create_inside (ha : Allowed st path) (hcur : st.sys.table.current = some i)
    (hu : Ordinary (st.sys.table.users i)) (h : TreeInv st.sys.fs root kids) {c p : Ptr}
    (hc : st.sys.fs.currentDir = some c) {type : FsType}
    (hcreate : fsCreate env st.sys.fs path type = some (some p, s'))
    (hread : ¬Misread st.sys.fs (st.sys.table.users i).name path) :
    ∃ ns, Located s' p ns ∧ Inside (st.sys.table.users i).name ns := by
  obtain ⟨d, comp, kids', hleads, hin⟩ := create_leadsTo h hc hcreate
  cases hres : fsResolve st.sys.fs path with
  | none =>
    obtain ⟨abspath, htarget, -⟩ := ha
    simp [targetAbspath, hres] at htarget
  | some q =>
    cases q with
    | some q =>
      obtain ⟨ms, hms, hinside⟩ := ha.node_inside hcur hu h hres hread
      obtain ⟨l, hl⟩ := created_below h hleads hin (Or.inl hres) hms
      exact ⟨_, hl, hinside.append l⟩
    | none =>
      obtain ⟨d', name, ms, hleads', hms, hseen⟩ := ha.missing hcur hu h hc hres
      obtain ⟨rfl, rfl⟩ := hleads.unique hleads'
      refine ⟨_, hin.located_new hms, by_contra fun hout => ?_⟩
      by_cases hlen : ms.length ≤ partsMax
      · rw [seen_of_le hlen] at hseen
        exact hout (inside_cut hu hseen)
      · exact hread ⟨d, ms, Or.inr ⟨hres, _, hleads⟩, hms, Nat.lt_of_not_le hlen,
          fun hin => hout (hin.append _)⟩

theorem Misread.create_outside {u : List UInt8} (hread : Misread s u path)
    (h : TreeInv s root kids) {c p : Ptr} (hc : s.currentDir = some c) {type : FsType}
    (hcreate : fsCreate env s path type = some (some p, s')) :
    ∃ ns, Located s' p ns ∧ ¬Inside u ns := by
  obtain ⟨d, comp, kids', hleads, hin⟩ := create_leadsTo h hc hcreate
  obtain ⟨q, ms, hq, hms, hlen, hout⟩ := hread
  obtain ⟨l, hl⟩ := created_below h hleads hin hq hms
  have hmax : partsMax = 32 := rfl
  exact ⟨_, hl, fun hin => hout ((inside_append (by omega) l).mp hin)⟩

/-! ## What is touched -/

/-- A node was created, deleted or given other contents, and this is where it is. -/
inductive Touched (s s' : Fs) : List (List UInt8) → Prop
  | created {p : Ptr} {ns : List (List UInt8)} : s.nodes.get p = none → Located s' p ns →
      Touched s s' ns
  | deleted {p : Ptr} {ns : List (List UInt8)} : Located s p ns → s'.nodes.get p = none →
      Touched s s' ns
  | changed {p : Ptr} {n n' : FsNode} {ns : List (List UInt8)} : s.nodes.get p = some n →
      s'.nodes.get p = some n' → contents s' n' ≠ contents s n → Located s p ns → Touched s s' ns

/-- Everything that was touched is in a place of `u`. -/
def Confined (u : List UInt8) (s s' : Fs) : Prop := ∀ ns, Touched s s' ns → Inside u ns

/-- Nothing is touched when the nodes and the buffers stay. -/
theorem not_touched (h : TreeInv s root kids) (hnodes : s'.nodes = s.nodes)
    (hbufs : s'.bufs = s.bufs) (hroot : s'.rootNode = s.rootNode) {ns : List (List UInt8)} :
    ¬Touched s s' ns := by
  intro ht
  cases ht with
  | created hnone hl =>
    have hl' : Located s _ ns :=
      hl.kept hroot.symm fun {q n} hn => ⟨n, by rw [← hnodes]; exact hn, rfl, rfl⟩
    obtain ⟨n, hn⟩ := h.get (hl'.mem h)
    rw [hn] at hnone
    simp at hnone
  | deleted hl hnone =>
    obtain ⟨n, hn⟩ := h.get (hl.mem h)
    rw [hnodes, hn] at hnone
    simp at hnone
  | changed hn hn' hne _ =>
    rw [hnodes, hn] at hn'
    obtain rfl := Option.some.inj hn'
    exact hne (by rw [contents, contents, hbufs])

/-- Only the new node. -/
theorem CreatedIn.touched (h : TreeInv s root kids) {kids' : Forest Ptr} {d p : Ptr}
    {comp : List UInt8} {type : FsType} (hin : CreatedIn s s' root kids kids' d p comp type)
    {ns : List (List UInt8)} (ht : Touched s s' ns) : Located s' p ns := by
  have hne : ∀ {q n}, s.nodes.get q = some n → q ≠ p := by
    rintro q n hn rfl
    rw [hin.fresh] at hn
    simp at hn
  cases ht with
  | @created q _ hnone hl =>
    by_cases hq : q = p
    · exact hq ▸ hl
    · obtain ⟨n, hn⟩ := hin.inv.get (hl.mem hin.inv)
      rw [hin.added.none hq hnone] at hn
      simp at hn
  | @deleted q _ hl hnone =>
    obtain ⟨n, hn⟩ := h.get (hl.mem h)
    obtain ⟨n', hn', -⟩ := hin.added.old (hne hn) hn
    rw [hn'] at hnone
    simp at hnone
  | changed hn hn' hother _ =>
    obtain ⟨n'', hn'', hbody⟩ := hin.added.old (hne hn) hn
    rw [hn'] at hn''
    obtain rfl := Option.some.inj hn''
    exact absurd (by rw [contents, contents, hbody.data, hbody.size, hin.added.bufs]) hother

/-- Only what is gone. -/
theorem Removed.touched (h : TreeInv s root kids) {kids' : Forest Ptr}
    (h' : TreeInv s' root kids') {gone : List Ptr} (hr : Removed s s' gone)
    {ns : List (List UInt8)} (ht : Touched s s' ns) : ∃ q ∈ gone, Located s q ns := by
  cases ht with
  | created hnone hl =>
    obtain ⟨n, hn⟩ := h'.get (hl.mem h')
    rw [hr.none hnone] at hn
    simp at hn
  | @deleted q _ hl hnone =>
    refine ⟨q, by_contra fun hq => ?_, hl⟩
    obtain ⟨n, hn⟩ := h.get (hl.mem h)
    obtain ⟨n', hn', -⟩ := hr.old hq hn
    rw [hn'] at hnone
    simp at hnone
  | @changed q n n' _ hn hn' hother hl =>
    obtain ⟨hq, m, hm, hbody⟩ := hr.back hn'
    rw [hn] at hm
    obtain rfl := Option.some.inj hm
    refine absurd ?_ hother
    rw [contents, contents, hbody.data, hbody.size]
    cases hd : n.data with
    | none => rfl
    | some d => rw [Option.bind_some, Option.bind_some, hr.bufs hq hn hd]

/-- Writing keeps all names and parents. -/
theorem Written.kept {f : Ptr} {n : FsNode} {txt : List UInt8} (hw : Written s s' f n txt)
    (hn : s.nodes.get f = some n) {q : Ptr} {m : FsNode} (hm : s.nodes.get q = some m) :
    ∃ m', s'.nodes.get q = some m' ∧ m'.name = m.name ∧ m'.parent = m.parent := by
  by_cases hq : q = f
  · subst hq
    rw [hn] at hm
    obtain rfl := Option.some.inj hm
    obtain ⟨n', hn', hname, -⟩ := hw.node
    exact ⟨n', hn', hname, hw.parent hn'⟩
  · exact ⟨m, (hw.other hq).trans hm, rfl, rfl⟩

theorem Written.back {f : Ptr} {n : FsNode} {txt : List UInt8} (hw : Written s s' f n txt)
    (hn : s.nodes.get f = some n) {q : Ptr} {m' : FsNode} (hm' : s'.nodes.get q = some m') :
    ∃ m, s.nodes.get q = some m ∧ m.name = m'.name ∧ m.parent = m'.parent := by
  cases hm : s.nodes.get q with
  | none =>
    have hq : q ≠ f := by
      rintro rfl
      rw [hn] at hm
      simp at hm
    rw [hw.other hq, hm] at hm'
    simp at hm'
  | some m =>
    obtain ⟨m'', hm'', hname, hparent⟩ := Written.kept hw hn hm
    rw [hm'] at hm''
    obtain rfl := Option.some.inj hm''
    exact ⟨m, rfl, hname.symm, hparent.symm⟩

theorem Written.contents_other {f : Ptr} {n : FsNode} {txt : List UInt8}
    (hw : Written s s' f n txt) {q : Ptr} {m : FsNode} (hq : q ≠ f)
    (hm : s.nodes.get q = some m) : contents s' m = contents s m := by
  unfold contents
  cases hd : m.data with
  | none => rfl
  | some d => rw [Option.bind_some, Option.bind_some, hw.bufs hq hm hd]

/-- What is touched from `s` on, when the last thing was to write to a node that `s` does not
have. -/
theorem Written.touched_new {s₁ : Fs} {f : Ptr} {n : FsNode} {txt : List UInt8}
    (hw : Written s₁ s' f n txt) (hn : s₁.nodes.get f = some n) (hnew : s.nodes.get f = none)
    {ns : List (List UInt8)} (ht : Touched s s' ns) : Touched s s₁ ns := by
  cases ht with
  | created hnone hl =>
    exact .created hnone (hl.kept hw.root.symm fun {q m'} hm' => Written.back hw hn hm')
  | @deleted q _ hl hnone =>
    refine .deleted hl ?_
    cases hm : s₁.nodes.get q with
    | none => rfl
    | some m =>
      obtain ⟨m', hm', -⟩ := Written.kept hw hn hm
      rw [hm'] at hnone
      simp at hnone
  | @changed q m m' _ hm hm' hother hl =>
    have hq : q ≠ f := by
      rintro rfl
      rw [hnew] at hm
      simp at hm
    have hm₁ := hm'
    rw [hw.other hq] at hm₁
    exact .changed hm hm₁ (by rwa [Written.contents_other hw hq hm₁] at hother) hl

/-- Only the file that was written to. -/
theorem Written.touched (h : TreeInv s root kids) {kids' : Forest Ptr}
    (h' : TreeInv s' root kids') {f : Ptr} {n : FsNode} {txt : List UInt8}
    (hw : Written s s' f n txt) (hn : s.nodes.get f = some n) {ns : List (List UInt8)}
    (ht : Touched s s' ns) : Located s f ns ∧ txt ≠ contents s n := by
  cases ht with
  | created hnone hl =>
    obtain ⟨m', hm'⟩ := h'.get (hl.mem h')
    obtain ⟨m, hm, -⟩ := Written.back hw hn hm'
    rw [hm] at hnone
    simp at hnone
  | deleted hl hnone =>
    obtain ⟨m, hm⟩ := h.get (hl.mem h)
    obtain ⟨m', hm', -⟩ := Written.kept hw hn hm
    rw [hm'] at hnone
    simp at hnone
  | @changed q m m' _ hm hm' hother hl =>
    by_cases hq : q = f
    · subst hq
      rw [hn] at hm
      obtain rfl := Option.some.inj hm
      obtain ⟨n', hn', -, -, htxt, -⟩ := hw.node
      rw [hm'] at hn'
      obtain rfl := Option.some.inj hn'
      rw [htxt] at hother
      exact ⟨hl, hother⟩
    · rw [hw.other hq, hm] at hm'
      obtain rfl := Option.some.inj hm'
      exact absurd (Written.contents_other hw hq hm) hother

/-! ## Commands that touch something -/

/-- A command gets through to the tree, and leaves `s'`. -/
inductive Act (env : Env) (st : Session) (line : List UInt8) : List UInt8 → Fs → Prop
  | mkdir {path : List UInt8} {p : Ptr} {s' : Fs} : commandOf line = .mkdir →
      pathArg line = some path → fsCreate env st.sys.fs path .dir = some (some p, s') →
      Act env st line path s'
  | touch {path : List UInt8} {p : Ptr} {s' : Fs} : commandOf line = .touch →
      pathArg line = some path → fsResolve st.sys.fs path = some none →
      fsCreate env st.sys.fs path .file = some (some p, s') → Act env st line path s'
  | rm {path : List UInt8} {s' : Fs} : commandOf line = .rm → pathArg line = some path →
      fsRemove st.sys.fs path = some (0, s') → Act env st line path s'
  | echoNew {r : Redirect} {p : Ptr} {s s' : Fs} {res : Int} : NewTarget env st line r p s →
      fsWrite env s (some p) (echoText r) r.append = some (res, s') → Act env st line r.target s'
  | echo {r : Redirect} {f : Ptr} {n : FsNode} {s' : Fs} : commandOf line = .echo →
      findRedirect (echoArgs line) = some r → r.target ≠ [] →
      fsResolve st.sys.fs r.target = some (some f) → st.sys.fs.nodes.get f = some n →
      r.append = true ∨ contents st.sys.fs n ≠ echoText r →
      fsWrite env st.sys.fs (some f) (echoText r) r.append = some (0, s') →
      Act env st line r.target s'

variable {line : List UInt8}

theorem execute_mkdir (hc : commandOf line = .mkdir) :
    execute env ready typed st line = cmdMkdir env st (strSplit argMax line) := by
  obtain ⟨name, words, hargv, hname⟩ := argv_of_command line (by rw [hc]; decide)
  unfold execute
  simp only [hargv, hname, hc]

theorem execute_touch (hc : commandOf line = .touch) :
    execute env ready typed st line = cmdTouch env st (strSplit argMax line) := by
  obtain ⟨name, words, hargv, hname⟩ := argv_of_command line (by rw [hc]; decide)
  unfold execute
  simp only [hargv, hname, hc]

theorem execute_rm (hc : commandOf line = .rm) :
    execute env ready typed st line = cmdRm st (strSplit argMax line) := by
  obtain ⟨name, words, hargv, hname⟩ := argv_of_command line (by rw [hc]; decide)
  unfold execute
  simp only [hargv, hname, hc]

theorem Allowed.mayWrite (ha : Allowed st path) (command : String) :
    Shell.mayWrite st command path = some (true, st) := by
  obtain ⟨abspath, htarget, hmay⟩ := ha
  unfold Shell.mayWrite
  simp only [htarget, if_pos hmay]

/-- The command does what it is allowed to do. -/
theorem Act.result (hact : Act env st line path s') (ha : Allowed st path)
    (h : execute env ready typed st line = some st') : st'.sys.fs = s' := by
  cases hact with
  | mkdir hc hp hcreate =>
    have harg : (strSplit argMax line)[1]? = some path := hp
    rw [execute_mkdir hc, cmdMkdir] at h
    simp only [harg, ha.mayWrite, hcreate, Option.some.injEq] at h
    rw [← h]
    rfl
  | touch hc hp hres hcreate =>
    have harg : (strSplit argMax line)[1]? = some path := hp
    rw [execute_touch hc, cmdTouch] at h
    simp only [harg, hres, ha.mayWrite, hcreate, Option.some.injEq] at h
    rw [← h]
    rfl
  | rm hc hp hremove =>
    have harg : (strSplit argMax line)[1]? = some path := hp
    rw [execute_rm hc, cmdRm] at h
    simp only [harg, ha.mayWrite, hremove, if_true, Option.some.injEq] at h
    rw [← h]
    rfl
  | @echoNew r p s s' res hnew hwrite =>
    rw [hnew.execute_eq] at h
    rcases echoInto_cases h with ⟨res', hwrite', -⟩ | ⟨hsys, n, hn, htype⟩
    · have hwrite'' : fsWrite env s (some p) (echoText r) r.append = some (res', st'.sys.fs) :=
        hwrite'
      rw [hwrite] at hwrite''
      exact (Prod.mk.inj (Option.some.inj hwrite'')).2.symm
    · exact absurd (fsCreate_newNode hnew.created hn).2.1 htype
  | @echo r f n s' hc hr htarget hres hn hother hwrite =>
    have hfile : n.type = .file := by
      by_contra hne
      simp [fsWrite, fsWriteN, hn, hne] at hwrite
    rw [execute_echo hc, cmdEcho] at h
    simp only [hr, if_neg htarget, ha.mayWrite, hres] at h
    rcases echoInto_cases h with ⟨res', hwrite', -⟩ | ⟨-, m, hm, htype⟩
    · rw [hwrite] at hwrite'
      exact (Prod.mk.inj (Option.some.inj hwrite')).2.symm
    · rw [hn] at hm
      obtain rfl := Option.some.inj hm
      exact absurd hfile htype

/-- What a command touches that is not root's, it was allowed to. -/
theorem Touched.act (hroot : usersIsRoot st.sys.table = false)
    (htree : TreeInv st.sys.fs root kids) (h : execute env ready typed st line = some st')
    {ns : List (List UInt8)} (ht : Touched st.sys.fs st'.sys.fs ns) :
    ∃ path, Act env st line path st'.sys.fs ∧ Allowed st path := by
  have hquiet : ∀ {s' : Fs}, Quiet st.sys.fs s' → ¬Touched st.sys.fs s' ns := by
    rintro s' ⟨t, ht⟩
    exact not_touched htree (by rw [ht]) (by rw [ht]) (by rw [ht])
  cases execute_effect h with
  | quiet hfs _ => exact absurd ht (hquiet hfs)
  | chdir _ hset _ =>
    have hsame : Unchanged st.sys { st.sys with fs := st'.sys.fs } :=
      .of_setCwd hset rfl rfl
    exact absurd ht (not_touched htree hsame.nodes hsame.bufs hsame.rootNode)
  | @create path type p hc hp ha hcreate _ _ =>
    refine ⟨path, ?_, ha⟩
    have harg : (strSplit argMax line)[1]? = some path := hp
    rcases hc with hc | hc
    · rw [execute_mkdir hc, cmdMkdir] at h
      simp only [harg, ha.mayWrite] at h
      split at h
      · simp at h
      next q s hcreate' =>
        rw [← Option.some.inj h]
        exact .mkdir hc hp hcreate'
      next s hcreate' =>
        rw [← Option.some.inj h] at ht
        exact absurd ht (hquiet (.create hcreate'))
    · rw [execute_touch hc, cmdTouch] at h
      simp only [harg, ha.mayWrite] at h
      split at h
      · simp at h
      · rw [← Option.some.inj h] at ht
        exact absurd ht (hquiet (.refl _))
      next hres =>
        split at h
        · simp at h
        next q s hcreate' =>
          rw [← Option.some.inj h]
          exact .touch hc hp hres hcreate'
        next s hcreate' =>
          rw [← Option.some.inj h] at ht
          exact absurd ht (hquiet (.create hcreate'))
  | @remove path hc hp ha hremove _ _ => exact ⟨path, .rm hc hp hremove, ha⟩
  | @write r f hc hr ha hres hwrite _ _ =>
    refine ⟨r.target, ?_, ha⟩
    cases hn : st.sys.fs.nodes.get f with
    | none => simp [fsWrite, fsWriteN, hn] at hwrite
    | some n =>
      have htarget : r.target ≠ [] := by
        intro hnil
        rw [execute_echo hc, cmdEcho] at h
        simp only [hr, if_pos hnil, Option.some.injEq] at h
        rw [← h] at ht
        exact hquiet (.refl _) ht
      refine .echo hc hr htarget hres hn (Classical.or_iff_not_imp_left.mpr fun happ hsame => ?_)
        hwrite
      rcases htree.write_cases env hwrite with ⟨hneg, -⟩ | ⟨f', n', hf, hn', -, -, hinv, hw⟩
      · simp at hneg
      · obtain rfl := Option.some.inj hf
        rw [hn] at hn'
        obtain rfl := Option.some.inj hn'
        obtain ⟨-, hne⟩ := Written.touched htree hinv hw hn ht
        apply hne
        rw [if_neg happ, List.nil_append, List.take_length, hsame]
  | createWrite hnew hwrite _ _ => exact ⟨_, .echoNew hnew hwrite, hnew.allowed⟩
  | createOnly hnew hwrite _ _ _ => exact ⟨_, .echoNew hnew hwrite, hnew.allowed⟩
  | useradd hadmin _ _ | userdel hadmin _ _ =>
    rw [hroot] at hadmin
    simp at hadmin
  | passwd _ _ _ hfs _ =>
    rw [hfs] at ht
    exact absurd ht (hquiet (.refl _))
  | su _ hswitch =>
    have hsame : Unchanged st.sys st'.sys := .of_switch hswitch
    exact absurd ht (not_touched htree hsame.nodes hsame.bufs hsame.rootNode)

/-! ## Confinement -/

/-- The command gets through to a node that was misread. -/
def Escapes (env : Env) (st : Session) (line u : List UInt8) : Prop :=
  ∃ path s', Act env st line path s' ∧ Allowed st path ∧ Misread st.sys.fs u path

/-- What gets through to the right node stays inside. -/
theorem Act.inside (hact : Act env st line path s') (ha : Allowed st path)
    (hcur : st.sys.table.current = some i) (hu : Ordinary (st.sys.table.users i))
    (htree : TreeInv st.sys.fs root kids) {c : Ptr} (hc : st.sys.fs.currentDir = some c)
    (hread : ¬Misread st.sys.fs (st.sys.table.users i).name path) :
    Confined (st.sys.table.users i).name st.sys.fs s' := by
  have hcreated : ∀ {type : FsType} {p : Ptr} {s₁ : Fs},
      fsCreate env st.sys.fs path type = some (some p, s₁) →
      Confined (st.sys.table.users i).name st.sys.fs s₁ := by
    intro type p s₁ hcreate ns ht
    obtain ⟨d, comp, kids', -, hin⟩ := create_leadsTo htree hc hcreate
    obtain ⟨ms, hms, hinside⟩ := ha.create_inside hcur hu htree hc hcreate hread
    rwa [hin.inv.located_unique (CreatedIn.touched htree hin ht) hms]
  cases hact with
  | mkdir _ _ hcreate => exact hcreated hcreate
  | touch _ _ _ hcreate => exact hcreated hcreate
  | rm _ _ hremove =>
    intro ns ht
    cases hres : fsResolve st.sys.fs path with
    | none => simp [fsRemove, hres] at hremove
    | some q =>
      obtain ⟨res, s'', hremove', hcase⟩ := htree.fsRemove hres
      rw [hremove] at hremove'
      obtain ⟨rfl, rfl⟩ := Prod.mk.inj (Option.some.inj hremove')
      rcases hcase with ⟨hne, -⟩ | ⟨-, node, below, kids', rfl, -, hbelow, hinv, hr⟩
      · exact absurd rfl hne
      obtain ⟨ms, hms, hinside⟩ := ha.node_inside hcur hu htree hres hread
      obtain ⟨x, hx, hl⟩ := Removed.touched htree hinv hr ht
      rcases List.mem_append.mp hx with hx | hx
      · -- what was below the node
        obtain ⟨l, -, hl'⟩ := htree.located_below (htree.rep.sub hbelow) (sub_subset hbelow) hms hx
        rw [htree.located_unique hl hl']
        exact hinside.append l
      · rw [List.mem_singleton] at hx
        subst hx
        rwa [htree.located_unique hl hms]
  | @echoNew r p s₁ s' res hnew hwrite =>
    intro ns ht
    obtain ⟨d, comp, kids', -, hin⟩ := create_leadsTo htree hc hnew.created
    rcases hin.inv.write_cases env hwrite with ⟨-, t, rfl⟩ | ⟨f, n, hf, hn, -, -, -, hw⟩
    · refine hcreated hnew.created ns ?_
      cases ht with
      | created hnone hl => exact .created hnone (hl.kept rfl fun {q n} hn => ⟨n, hn, rfl, rfl⟩)
      | deleted hl hnone => exact .deleted hl hnone
      | changed hn hn' hother hl => exact .changed hn hn' hother hl
    · obtain rfl := Option.some.inj hf
      exact hcreated hnew.created ns (Written.touched_new hw hn hin.fresh ht)
  | @echo r f n s' _ hr _ hres hn _ hwrite =>
    intro ns ht
    obtain ⟨ms, hms, hinside⟩ := ha.node_inside hcur hu htree hres hread
    rcases htree.write_cases env hwrite with ⟨hneg, -⟩ | ⟨f', n', hf, hn', -, -, hinv, hw⟩
    · simp at hneg
    · obtain rfl := Option.some.inj hf
      rw [htree.located_unique (Written.touched htree hinv hw hn' ht).1 hms]
      exact hinside

theorem echoText_pos (r : Redirect) : 0 < (echoText r).length := by
  have hmax : lineMax = 256 := rfl
  rw [echoText, List.length_take, List.length_append, List.length_singleton]
  omega

/-- What gets through to the wrong node is outside. -/
theorem Act.outside (hact : Act env st line path s') {u : List UInt8}
    (htree : TreeInv st.sys.fs root kids) {c : Ptr} (hc : st.sys.fs.currentDir = some c)
    (hread : Misread st.sys.fs u path) : ∃ ns, Touched st.sys.fs s' ns ∧ ¬Inside u ns := by
  have hcreated : ∀ {type : FsType} {p : Ptr} {s₁ : Fs},
      fsCreate env st.sys.fs path type = some (some p, s₁) → ∃ d comp kids',
        CreatedIn st.sys.fs s₁ root kids kids' d p comp type ∧
        ∃ ns, Located s₁ p ns ∧ ¬Inside u ns := by
    intro type p s₁ hcreate
    obtain ⟨d, comp, kids', -, hin⟩ := create_leadsTo htree hc hcreate
    exact ⟨d, comp, kids', hin, hread.create_outside htree hc hcreate⟩
  -- a path that leads to a node has that node checked
  have hresolved : ∀ {q : Ptr}, fsResolve st.sys.fs path = some (some q) →
      ∃ ms, Located st.sys.fs q ms ∧ ¬Inside u ms := by
    intro q hres
    obtain ⟨q', ms, hq, hms, -, hout⟩ := hread
    rcases hq with hq | ⟨hq, -⟩
    · rw [hres] at hq
      obtain rfl := Option.some.inj (Option.some.inj hq)
      exact ⟨ms, hms, hout⟩
    · rw [hres] at hq
      simp at hq
  cases hact with
  | mkdir _ _ hcreate | touch _ _ _ hcreate =>
    obtain ⟨d, comp, kids', hin, ns, hns, hout⟩ := hcreated hcreate
    exact ⟨ns, .created hin.fresh hns, hout⟩
  | rm _ _ hremove =>
    cases hres : fsResolve st.sys.fs path with
    | none => simp [fsRemove, hres] at hremove
    | some q =>
      obtain ⟨res, s'', hremove', hcase⟩ := htree.fsRemove hres
      rw [hremove] at hremove'
      obtain ⟨rfl, rfl⟩ := Prod.mk.inj (Option.some.inj hremove')
      rcases hcase with ⟨hne, -⟩ | ⟨-, node, below, kids', rfl, -, -, -, hr⟩
      · exact absurd rfl hne
      obtain ⟨ms, hms, hout⟩ := hresolved hres
      exact ⟨ms, .deleted hms (hr.freed (by simp)), hout⟩
  | @echoNew r p s₁ s' res hnew hwrite =>
    obtain ⟨d, comp, kids', hin, ns, hns, hout⟩ := hcreated hnew.created
    refine ⟨ns, .created hin.fresh ?_, hout⟩
    rcases hin.inv.write_cases env hwrite with ⟨-, t, rfl⟩ | ⟨f, n, hf, hn, -, -, -, hw⟩
    · exact hns.kept rfl fun {q n} hn => ⟨n, hn, rfl, rfl⟩
    · exact hns.kept hw.root fun {q m} hm => Written.kept hw hn hm
  | @echo r f n s' _ _ _ hres hn hother hwrite =>
    obtain ⟨ms, hms, hout⟩ := hresolved hres
    rcases htree.write_cases env hwrite with ⟨hneg, -⟩ | ⟨f', m, hf, hm, -, -, -, hw⟩
    · simp at hneg
    obtain rfl := Option.some.inj hf
    rw [hn] at hm
    obtain rfl := Option.some.inj hm
    obtain ⟨n', hn', -, -, htxt, -⟩ := hw.node
    refine ⟨ms, .changed hn hn' ?_ hms, hout⟩
    rw [htxt, List.take_length]
    by_cases happ : r.append = true
    · -- the text ends its line, so it is not empty
      have hpos := echoText_pos r
      rw [if_pos happ]
      intro hsame
      have hlen := congrArg List.length hsame
      rw [List.length_append] at hlen
      omega
    · rw [if_neg happ, List.nil_append]
      exact (hother.resolve_left happ).symm

/-- **Write confinement**: a command of an account that is not root touches nothing outside
of its home directory and of `/tmp`, exactly if it does not get through to a node that the
permission check misreads. -/
theorem confined_iff {c : Ptr} (htree : ∃ root kids, TreeInv st.sys.fs root kids)
    (hcwd : st.sys.fs.currentDir = some c) (hcur : st.sys.table.current = some i)
    (hu : Ordinary (st.sys.table.users i)) (h : execute env ready typed st line = some st') :
    Confined (st.sys.table.users i).name st.sys.fs st'.sys.fs ↔
      ¬Escapes env st line (st.sys.table.users i).name := by
  obtain ⟨root, kids, htree⟩ := htree
  constructor
  · rintro hconf ⟨path, s', hact, ha, hread⟩
    obtain ⟨ns, ht, hout⟩ := hact.outside htree hcwd hread
    rw [← hact.result ha h] at ht
    exact hout (hconf ns ht)
  · intro hno ns ht
    obtain ⟨path, hact, ha⟩ := ht.act (not_root hcur hu.uid) htree h
    exact hact.inside ha hcur hu htree hcwd (fun hread => hno ⟨path, _, hact, ha, hread⟩) ns ht

/-- A directory of Carol's with `n` directories above it, up to one named `tmp`. -/
def deepPath (n : Nat) : List UInt8 :=
  ofString "/home/carol/tmp" ++ (List.replicate n (ofString "/a")).flatten

def deepDirs : List (List UInt8) := ofString "/home/carol" :: (List.range 32).map deepPath

/-- Bob's slot in the table. -/
def bobSlot : UserSlot := ⟨1, by decide⟩

def bobUser : User where
  name := bob
  home := ofString "/home/bob"
  uid := 1000
  gid := 1000
  pwHash := hashPassword secret
  active := true

/-- The names from that directory up. -/
def deepParts : List (List UInt8) :=
  List.replicate 31 (ofString "a") ++ [ofString "tmp", ofString "carol", ofString "home"]

/-- Bob types `rm` and the path of a directory of Carol's. -/
def rmDeep : List UInt8 := ofString "rm " ++ deepPath 31

/-- Bob is logged in on a system where Carol has 34 directories in each other. Her 32 last
ones start with `tmp`. -/
theorem bob_rm : ∃ st st' q i, Standing st.sys.fs ∧ st.sys.table.current = some i ∧
    Ordinary (st.sys.table.users i) ∧ (st.sys.table.users i).name = bob ∧
    execute .ample (fun _ => true) (fun _ => none) st rmDeep = some st' ∧
    Located st.sys.fs q deepParts.reverse ∧ st'.sys.fs.nodes.get q = none := by
  have h : ((accountStep .ample usersInit skeleton (.add true alice secret true)).bind fun r =>
      (accountStep .ample r.2.1 r.2.2 (.add true bob secret false)).bind fun r =>
      (accountStep .ample r.2.1 r.2.2 (.switch bob secret)).bind fun r =>
      (createAll .ample .dir deepDirs r.2.2).bind fun s =>
      (fsResolve s (deepPath 31)).bind fun q => q.bind fun q =>
      (execute .ample (fun _ => true) (fun _ => none) ((sessionWith r.2.1).setFs s) rmDeep).map
        fun st' => (decide (r.2.1.current = some bobSlot), decide (r.2.1.users bobSlot = bobUser),
          decide (absParts s 64 q = some deepParts), (st'.sys.fs.nodes.get q).isNone)) =
      some (true, true, true, true) := by decide +kernel
  simp only [Option.bind_eq_some_iff, Option.map_eq_some_iff, Prod.mk.injEq, decide_eq_true_eq,
    Option.isNone_iff_eq_none] at h
  obtain ⟨⟨r₁, t₁, s₁⟩, hadd₁, ⟨r₂, t₂, s₂⟩, hadd₂, ⟨r₃, t₃, s₃⟩, hswitch, s, hdirs, _, -, q, rfl,
    st', hrun, hcur, huser, hparts, hgone⟩ := h
  obtain ⟨root₃, kids₃, hinv₃, hc₃⟩ :=
    ((skeleton_standing.accountStep .ample hadd₁).accountStep .ample hadd₂).accountStep .ample
      hswitch
  obtain ⟨kids, hinv, hc⟩ := hinv₃.createAll .ample hc₃ hdirs
  refine ⟨(sessionWith t₃).setFs s, st', q, bobSlot, ⟨root₃, kids, hinv, hc⟩, hcur, ?_, ?_, hrun, ?_,
    hgone⟩
  · show Ordinary (t₃.users bobSlot)
    rw [huser]
    exact ⟨by decide, by decide, by decide⟩
  · exact congrArg User.name huser
  · cases hn : s.nodes.get q with
    | none => simp [absParts, hn] at hparts
    | some n =>
      obtain ⟨ns, hns⟩ := hinv.located (hinv.mem hn)
      rw [hns.absParts hinv, Option.some.injEq] at hparts
      have hlen := congrArg List.length hparts
      have hsize : deepParts.length = 34 := by decide
      rw [hsize, List.length_take, List.length_reverse] at hlen
      rw [List.take_of_length_le (by rw [List.length_reverse]; omega)] at hparts
      rwa [← hparts, List.reverse_reverse]

theorem deepParts_outside : ¬Inside bob deepParts.reverse := by
  unfold Inside
  decide

/-- Carol's directory is gone, so the check must have misread its path. -/
theorem confined_iff_bob : ∃ st st' i,
    execute .ample (fun _ => true) (fun _ => none) st rmDeep = some st' ∧
      Escapes .ample st rmDeep (st.sys.table.users i).name := by
  obtain ⟨st, st', q, i, ⟨root, kids, hinv, c, n, hc, -, -⟩, hcur, hu, hname, hrun, hl, hgone⟩ :=
    bob_rm
  refine ⟨st, st', i, hrun, by_contra fun hno => ?_⟩
  have hin := (confined_iff ⟨root, kids, hinv⟩ hc hcur hu hrun).mpr hno _ (.deleted hl hgone)
  rw [hname] at hin
  exact deepParts_outside hin

/-- Bob deletes a directory of Carol's, which is neither in his home directory nor in
`/tmp`. -/
theorem foreign_directory_deleted : ∃ st st' i, Standing st.sys.fs ∧
    st.sys.table.current = some i ∧ Ordinary (st.sys.table.users i) ∧
    execute .ample (fun _ => true) (fun _ => none) st rmDeep = some st' ∧
    ¬Confined (st.sys.table.users i).name st.sys.fs st'.sys.fs := by
  obtain ⟨st, st', q, i, hstand, hcur, hu, hname, hrun, hl, hgone⟩ := bob_rm
  refine ⟨st, st', i, hstand, hcur, hu, hrun, fun hconf => ?_⟩
  have hin := hconf _ (.deleted hl hgone)
  rw [hname] at hin
  exact deepParts_outside hin

end LightningOS.Shell
