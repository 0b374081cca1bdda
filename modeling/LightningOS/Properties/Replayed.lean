import LightningOS.Properties.Listing

/-!
# What a replay can build

The records that a save writes have short paths, and a replay makes every node where a walk
along such a path ends. So whatever the tree was like, the one that a replay builds is
tidy: its paths are short, siblings have different names, and nothing is in a directory
that walks take for another. In other words, it can be carried.
-/

namespace LightningOS.Ramfs

open ByteMemory CString Forest Shell

/-- No walk takes the directory for another one. -/
def Undotted (s : Fs) (p : Ptr) : Prop :=
  ∀ {n}, s.nodes.get p = some n → n.parent ≠ none → n.name ≠ [dot] ∧ n.name ≠ [dot, dot]

/-- The invariant of a replay. -/
structure Tidy (s : Fs) : Prop where
  short : ∀ {p ns}, Located s p ns → Short ns
  distinct : SiblingsDistinct s
  undotted : ∀ {p d n}, s.nodes.get p = some n → n.parent = some d → Undotted s d

variable {env : Env} {s s' : Fs} {root : Ptr} {kids kids' : Forest Ptr}

/-- Tidiness is about names and parents. -/
theorem Tidy.congr (h : Tidy s) (hroot : s'.rootNode = s.rootNode)
    (hback : ∀ {q n'}, s'.nodes.get q = some n' → ∃ n, s.nodes.get q = some n ∧
      n.name = n'.name ∧ n.parent = n'.parent) : Tidy s' where
  short hl := h.short (hl.kept hroot.symm hback)
  distinct := by
    refine ⟨fun {p q d n' m'} hp hq hnp hmp hname => ?_⟩
    obtain ⟨n, hn, hname₁, hparent₁⟩ := hback hp
    obtain ⟨m, hm, hname₂, hparent₂⟩ := hback hq
    exact h.distinct.eq hn hm (hparent₁.trans hnp) (hparent₂.trans hmp)
      (hname₁.trans (hname.trans hname₂.symm))
  undotted {p d n'} hp hparent := by
    intro m' hm' hup
    obtain ⟨n, hn, -, hparent₁⟩ := hback hp
    obtain ⟨m, hm, hname₂, hparent₂⟩ := hback hm'
    rw [← hname₂]
    exact h.undotted hn (hparent₁.trans hparent) hm (hparent₂ ▸ hup)

theorem Tidy.time (h : Tidy s) (t : Nat) : Tidy { s with time := t } :=
  h.congr rfl fun hn => ⟨_, hn, rfl, rfl⟩

theorem Tidy.written {f : Ptr} {n : FsNode} {txt : List UInt8} (h : Tidy s)
    (hn : s.nodes.get f = some n) (hw : Written s s' f n txt) : Tidy s' := by
  refine h.congr hw.root ?_
  intro q m' hm'
  by_cases hq : q = f
  · subst hq
    obtain ⟨n', hn', hname, -, -⟩ := hw.node
    rw [hm'] at hn'
    obtain rfl := Option.some.inj hn'
    exact ⟨n, hn, hname.symm, (hw.parent hm').symm⟩
  · rw [hw.other hq] at hm'
    exact ⟨m', hm', rfl, rfl⟩

/-! ## Where walks end -/

/-- A walk does not end deeper than its names say, in text. -/
theorem TreeInv.follow_length (h : TreeInv s root kids) (names : List (List UInt8)) :
    ∀ {a b : Ptr} {as bs : List (List UInt8)}, Located s a as →
      Ramfs.follow s (some a) names = some (some b) → Located s b bs →
        (joinPath bs).length ≤ (joinPath as).length + (joinPath names).length := by
  induction names with
  | nil =>
    intro a b as bs ha hf hb
    obtain rfl := Option.some.inj (Option.some.inj hf)
    rw [h.located_unique hb ha]
    exact Nat.le_add_right _ _
  | cons name names ih =>
    intro a b as bs ha hf hb
    obtain ⟨an, han⟩ := h.get (ha.mem h)
    rw [Ramfs.follow] at hf
    rw [joinPath_cons, List.length_cons, List.length_append]
    by_cases h1 : name = [dot]
    · rw [if_pos h1] at hf
      have hle := ih ha hf hb
      omega
    rw [if_neg h1] at hf
    by_cases h2 : name = [dot, dot]
    · rw [if_pos h2] at hf
      obtain ⟨up, hup, -⟩ := h.parentOrRoot (ha.mem h)
      rw [hup] at hf
      obtain ⟨us, hus, ms, hms⟩ := ha.up h hup
      have hle := ih hus hf hb
      rw [← hms, joinPath_append, List.length_append]
      omega
    · rw [if_neg h2] at hf
      cases hc : Ramfs.findChild s (some a) name with
      | none => simp [hc] at hf
      | some r =>
        cases r with
        | none => simp [hc] at hf
        | some c =>
          simp only [hc] at hf
          obtain ⟨m, hm, hparent, hname⟩ := h.findChild_some han hc
          have hle := ih (.child ha hm hparent) hf hb
          rw [hname, joinPath_concat, List.length_append, List.length_cons] at hle
          omega

/-- Walks from the root do not end in a directory that is taken for another. -/
theorem Tidy.follow (h : TreeInv s root kids) (ht : Tidy s) (names : List (List UInt8)) :
    ∀ {a b : Ptr}, a ∈ (tree root kids).ids → Undotted s a →
      Ramfs.follow s (some a) names = some (some b) → Undotted s b := by
  induction names with
  | nil =>
    intro a b _ hun hf
    obtain rfl := Option.some.inj (Option.some.inj hf)
    exact hun
  | cons name names ih =>
    intro a b ha hun hf
    obtain ⟨an, han⟩ := h.get ha
    rw [Ramfs.follow] at hf
    by_cases h1 : name = [dot]
    · rw [if_pos h1] at hf
      exact ih ha hun hf
    rw [if_neg h1] at hf
    by_cases h2 : name = [dot, dot]
    · -- the parent of a node, or the root
      rw [if_pos h2] at hf
      obtain ⟨up, hup, hmem⟩ := h.parentOrRoot ha
      rw [hup] at hf
      refine ih hmem ?_ hf
      simp only [Ramfs.parentOrRoot, han, h.isRoot] at hup
      cases hparent : an.parent with
      | none =>
        simp only [hparent, Option.some.injEq] at hup
        subst hup
        intro n hn hne
        exact absurd (h.root_parent hn) hne
      | some d =>
        simp only [hparent, Option.some.injEq] at hup
        subst hup
        exact ht.undotted han hparent
    · rw [if_neg h2] at hf
      cases hc : Ramfs.findChild s (some a) name with
      | none => simp [hc] at hf
      | some r =>
        cases r with
        | none => simp [hc] at hf
        | some c =>
          simp only [hc] at hf
          obtain ⟨m, hm, hparent, hname⟩ := h.findChild_some han hc
          refine ih (h.findChild_mem ha hc) ?_ hf
          intro n hn _
          rw [hm] at hn
          obtain rfl := Option.some.inj hn
          rw [hname]
          exact ⟨h1, h2⟩

/-! ## One record -/

theorem Tidy.created (h : TreeInv s root kids) (ht : Tidy s) {d p : Ptr} {comp : List UInt8}
    {type : FsType} (hin : CreatedIn s s' root kids kids' d p comp type)
    (hshort : ∀ {ds}, Located s d ds → Short (ds ++ [comp])) (hdistinct : SiblingsDistinct s')
    (hd : Undotted s d) : Tidy s' where
  short {q ns} hl := by
    by_cases hq : q = p
    · subst hq
      obtain ⟨dn, hdn, -⟩ := hin.dir
      obtain ⟨ds, hds⟩ := h.located (h.mem hdn)
      rw [hin.inv.located_unique hl (hin.located_new hds)]
      exact hshort hds
    · obtain ⟨n', hn'⟩ := hin.inv.get (hl.mem hin.inv)
      obtain ⟨n, hn, -⟩ := hin.added.back hq hn'
      obtain ⟨ms, hms⟩ := h.located (h.mem hn)
      rw [hin.inv.located_unique hl (hin.located hms)]
      exact ht.short hms
  distinct := hdistinct
  undotted {q e n'} hn' hparent := by
    intro m' hm' hup
    -- nothing is in the new node
    have hold : ∀ {x : Ptr}, x ≠ p → Undotted s x → s'.nodes.get x = some m' →
        m'.name ≠ [dot] ∧ m'.name ≠ [dot, dot] := by
      intro x hx hun hxm
      obtain ⟨m, hm, hbody⟩ := hin.added.back hx hxm
      rw [hbody.name]
      exact hun hm (hbody.parent ▸ hup)
    have hdp : d ≠ p := by
      rintro rfl
      obtain ⟨dn, hdn, -⟩ := hin.dir
      rw [hin.fresh] at hdn
      simp at hdn
    by_cases hq : q = p
    · subst hq
      rw [hin.added.new] at hn'
      obtain rfl := Option.some.inj hn'
      obtain rfl := Option.some.inj hparent
      exact hold hdp hd hm'
    · obtain ⟨n, hn, hbody⟩ := hin.added.back hq hn'
      have hparent₁ : n.parent = some e := hbody.parent ▸ hparent
      have hep : e ≠ p := by
        rintro rfl
        obtain ⟨ch, hch, -⟩ := h.parent_mem hn hparent₁
        obtain ⟨en, hen⟩ := h.get (mem_of_sub hch)
        rw [hin.fresh] at hen
        simp at hen
      exact hold hep (ht.undotted hn hparent₁) hm'

end LightningOS.Ramfs

namespace LightningOS.Persist

open ByteMemory CString Ramfs Users Forest Shell

variable {env : Env} {s s' : Fs} {root : Ptr} {kids : Forest Ptr}

/-- The record's path is of the kind that `fs_abspath` writes. -/
def Entry.Shown (e : Entry) : Prop :=
  ∃ ms, e.path = joinPath ms ∧ ms ≠ [] ∧ Short ms ∧ ∀ name ∈ ms, IsName name ∧ (0 : UInt8) ∉ name

theorem Entry.Shown.ok {e : Entry} (h : e.Shown) : e.Ok := by
  obtain ⟨ms, hpath, hne, hshort, hnames⟩ := h
  refine ⟨?_, hpath ▸ Nat.lt_of_succ_lt hshort.2, ?_⟩
  · rw [hpath]
    cases ms with
    | nil => exact absurd rfl hne
    | cons name ms => simp [joinPath_cons]
  · rw [hpath]
    exact zero_notMem_joinPath fun x hx => (hnames x hx).2

theorem zeroFree_located (h0 : ZeroFree s) {p : Ptr} {ns : List (List UInt8)}
    (hl : Located s p ns) : ∀ name ∈ ns, (0 : UInt8) ∉ name := by
  induction hl with
  | root _ => simp
  | child _ hn _ ih =>
    intro name hname
    rcases List.mem_append.mp hname with hname | hname
    · exact ih name hname
    · rw [List.mem_singleton.mp hname]
      exact h0 hn

theorem listing_shown (h : TreeInv s root kids) (h0 : ZeroFree s) (f : Forest Ptr) :
    f.ids ⊆ (tree root kids).ids → root ∉ f.ids → ∀ e ∈ listing s f, e.Shown := by
  induction f with
  | nil =>
    intro _ _ e he
    simp [listing] at he
  | cons a ch rest ihc ihr =>
    intro hsub hroot e he
    obtain ⟨ha, hch, hrest⟩ := ids_below hsub
    simp only [ids, List.mem_cons, List.mem_append, not_or] at hroot
    obtain ⟨n, hn⟩ := h.get ha
    obtain ⟨ns, path, hns, hl, hpath, hne, hroom⟩ := h.path_of hn (Ne.symm hroot.1)
    rw [listing_cons ch rest hn hpath] at he
    rcases List.mem_cons.mp he with rfl | he
    · obtain ⟨out, k, habs, -, hout⟩ := abspath_eq h hl
      rw [hpath] at habs
      obtain rfl := Option.some.inj habs
      rcases hout with ⟨hnil, -⟩ | ⟨-, heq, -⟩
      · exact absurd hnil hns
      refine ⟨(seen ns).take k, heq, ?_, ⟨?_, heq ▸ hroom⟩, ?_⟩
      · intro hnil
        rw [hnil, joinPath_nil] at heq
        exact hne heq
      · have hlen := List.length_take_le' k (seen ns)
        rw [seen_length] at hlen
        omega
      · intro name hname
        have hseen := List.mem_of_mem_take hname
        exact ⟨seen_isName (hl.isName h) name hseen,
          zeroFree_located h0 hl name (List.mem_of_mem_drop hseen)⟩
    · rcases List.mem_append.mp he with he | he
      · exact ihc hch hroot.2.1 e he
      · exact ihr hrest hroot.2.2 e he

theorem writeData_tidy (h : TreeInv s root kids) (ht : Tidy s) (hcwd : s.currentDir = some root)
    {node : Option Ptr} (hnode : ∀ p, node = some p → ∃ n, s.nodes.get p = some n)
    {data : List UInt8} (hdata : data.length ≤ maxPayload) :
    ∃ s', Persist.writeData env s node data data.length = some s' ∧ TreeInv s' root kids ∧
      s'.currentDir = some root ∧ Tidy s' := by
  have hmax : maxPayload = 1048576 := rfl
  unfold Persist.writeData
  cases node with
  | none => exact ⟨s, rfl, h, hcwd, ht⟩
  | some p =>
    obtain ⟨n, hn⟩ := hnode p rfl
    simp only [hn]
    cases htype : n.type with
    | dir => exact ⟨s, by simp, h, hcwd, ht⟩
    | file =>
      rw [if_pos rfl]
      have hfits : (if false = true then n.size else 0) + data.length + 65 ≤ 0xFFFFFFF8 := by
        rw [if_neg (by simp)]
        omega
      obtain ⟨res, s', hrun, hcase⟩ := h.write env hn htype (Nat.le_refl data.length) false hfits
      rw [hrun]
      refine ⟨s', rfl, ?_⟩
      rcases hcase with ⟨-, t, rfl⟩ | ⟨-, hinv, hw⟩
      · exact ⟨h.congr rfl rfl rfl rfl, hcwd, ht.time t⟩
      · exact ⟨hinv, hw.cwd.trans hcwd, ht.written hn hw⟩

/-- Without junk on the stack, `fs_create` keeps a tree tidy. -/
theorem fsCreate_tidy (hjunk : ∀ t, text (env.junk t) = []) (h : TreeInv s root kids)
    (ht : Tidy s) (hcwd : s.currentDir = some root) {e : Entry} (he : e.Shown) (type : FsType) :
    ∃ r s' kids', Ramfs.fsCreate env s e.path type = some (r, s') ∧ TreeInv s' root kids' ∧
      s'.currentDir = some root ∧ Tidy s' ∧ ∀ p, r = some p → ∃ n, s'.nodes.get p = some n := by
  obtain ⟨ms, hpath, hne, hshort, hnames⟩ := he
  have hc : CwdOk s := h.cwdOk_root hcwd
  obtain ⟨r, s', hcreate, -, hcwd', hcase⟩ := h.fsCreate env hc e.path type
  refine ⟨r, s', ?_⟩
  rcases hcase with ⟨rfl, t, rfl⟩ | ⟨d, p, kids', comp, rfl, hin⟩
  · exact ⟨kids, hcreate, h.congr rfl rfl rfl rfl, hcwd, ht.time t, by simp⟩
  refine ⟨kids', hcreate, hin.inv, hcwd'.trans hcwd, ?_, ?_⟩
  · obtain ⟨d', comp', kids'', hleads, hin'⟩ := create_leadsTo h hcwd hcreate
    -- the path says where the node is
    have hparent := hin'.added.new
    rw [hin.added.new] at hparent
    simp only [Option.some.injEq, FsNode.mk.injEq] at hparent
    obtain ⟨rfl, -, -, -, -, rfl, -⟩ := hparent
    obtain ⟨x, init, hx, hms, hfollow⟩ := hleads.walk
    obtain ⟨cs, hcs⟩ : ∃ cs, e.path = slash :: cs := by
      rcases joinPath_cases ms with hnil | hcons
      · cases ms with
        | nil => exact absurd rfl hne
        | cons name ms => simp [joinPath_cons] at hnil
      · rw [hpath]
        exact hcons
    rw [hcs, start, List.head?_cons, if_pos rfl, h.isRoot, Option.some.injEq] at hx
    subst hx
    have hsplit : ms = init ++ [comp] := by
      have hle : e.path.length ≤ fsPathMax - 1 := by
        have hroom := hshort.2
        rw [hpath]
        omega
      rw [← hms, pathNames, List.take_of_length_le hle, hpath,
        components_joinPath fun name hname => (hnames name hname).1]
    refine ht.created h hin ?_ ?_ ?_
    · intro ds hds
      have hdepth := (h.follow_depth init (.root h.isRoot) hfollow hds).1
      have htext := h.follow_length init (.root h.isRoot) hfollow hds
      have hparts := hshort.1
      have hroom := hshort.2
      rw [hsplit, List.length_append] at hparts
      rw [hsplit, joinPath_append, List.length_append] at hroom
      rw [List.length_nil, Nat.zero_add] at hdepth
      rw [joinPath_nil, List.length_nil, Nat.zero_add] at htext
      refine ⟨?_, ?_⟩
      · rw [List.length_append]
        omega
      · rw [joinPath_append, List.length_append]
        omega
    · refine h.create_distinct hc ht.distinct hcreate ?_
      rintro ⟨-, -, -, -, hno, -⟩
      exact hno (hjunk s.time)
    · refine ht.follow h init h.root_mem ?_ hfollow
      intro n hn hup
      exact absurd (h.root_parent hn) hup
  · rintro q ⟨⟩
    exact ⟨_, hin.added.new⟩

theorem restoreEntry_tidy (hjunk : ∀ t, text (env.junk t) = []) (h : TreeInv s root kids)
    (ht : Tidy s) (hcwd : s.currentDir = some root) {e : Entry} (he : e.Shown)
    (hdata : e.data.length ≤ maxPayload) :
    ∃ s' kids', restoreEntry env s e = some s' ∧ TreeInv s' root kids' ∧
      s'.currentDir = some root ∧ Tidy s' := by
  obtain ⟨r, s₁, kids₁, hcreate, hinv₁, hcwd₁, ht₁, hnew⟩ :=
    fsCreate_tidy hjunk h ht hcwd he e.type
  obtain ⟨node, hstep, hnode⟩ : ∃ node, createOrResolve env s e.head = some (node, s₁) ∧
      ∀ p, node = some p → ∃ n, s₁.nodes.get p = some n := by
    unfold createOrResolve
    rw [Entry.head_type]
    have hhead : fsCreate env s e.head.path e.type = some (r, s₁) := hcreate
    rw [hhead]
    cases r with
    | some p => exact ⟨some p, rfl, hnew⟩
    | none =>
      obtain ⟨q, hq, hmem⟩ := hinv₁.fsResolve (hinv₁.cwdOk_root hcwd₁) e.head.path
      refine ⟨q, by simp only [hq, Option.map_some], fun p hp => ?_⟩
      exact hinv₁.get (hmem p hp)
  rw [restoreEntry, hstep]
  dsimp only
  by_cases hnone : e.data = []
  · rw [if_pos hnone]
    exact ⟨s₁, kids₁, rfl, hinv₁, hcwd₁, ht₁⟩
  · rw [if_neg hnone]
    obtain ⟨s', hwrite, hinv', hcwd', ht'⟩ := writeData_tidy hinv₁ ht₁ hcwd₁ hnode hdata
    exact ⟨s', kids₁, hwrite, hinv', hcwd', ht'⟩

/-- **A replay of what a save writes leaves a tidy tree.** -/
theorem replay_tidy (hjunk : ∀ t, text (env.junk t) = []) {es : List Entry} :
    ∀ {s : Fs} {kids : Forest Ptr}, TreeInv s root kids → Tidy s → s.currentDir = some root →
      (∀ e ∈ es, e.Shown ∧ e.data.length ≤ maxPayload) →
      ∃ s' kids', replay env es s = some s' ∧ TreeInv s' root kids' ∧ Tidy s' := by
  induction es with
  | nil =>
    intro s kids h ht _ _
    exact ⟨s, kids, rfl, h, ht⟩
  | cons e es ih =>
    intro s kids h ht hcwd hes
    obtain ⟨hshown, hdata⟩ := hes e List.mem_cons_self
    obtain ⟨s₁, kids₁, hstep, hinv₁, hcwd₁, ht₁⟩ := restoreEntry_tidy hjunk h ht hcwd hshown hdata
    obtain ⟨s', kids', hreplay, hinv', ht'⟩ := ih hinv₁ ht₁ hcwd₁
      (fun x hx => hes x (List.mem_cons_of_mem _ hx))
    refine ⟨s', kids', ?_, hinv', ht'⟩
    rw [replay, hstep]
    exact hreplay

/-- An empty tree is tidy. -/
theorem tidy_nil (h : TreeInv s root Forest.nil) : Tidy s := by
  have hone : ∀ {p n}, s.nodes.get p = some n → p = root := by
    intro p n hp
    simpa using h.mem hp
  have hparent : ∀ {p n}, s.nodes.get p = some n → n.parent = none := by
    intro p n hp
    obtain rfl := hone hp
    exact h.root_parent hp
  refine ⟨fun {p ns} hl => ?_, ⟨fun hp hq _ _ _ => ?_⟩, fun hp hd => ?_⟩
  · obtain ⟨n, hn⟩ := h.get (hl.mem h)
    obtain rfl := hone hn
    rw [h.located_root hl]
    exact ⟨Nat.zero_le _, by decide⟩
  · rw [hone hp, hone hq]
  · rw [hparent hp] at hd
    simp at hd

/-! ## Tidy trees are carried -/

/-- The names of a forest in memory are those of its first level. -/
theorem names_tops (h : TreeInv s root kids) (f : Forest Ptr) {d : Ptr} : ∀ {head : Option Ptr},
    Forest.Rep (links s) (some d) head f → f.ids ⊆ (tree root kids).ids →
      ∀ name ∈ (files s f).names, ∃ q m, q ∈ f.ids ∧ s.nodes.get q = some m ∧ m.parent = some d ∧
        m.name = name := by
  induction f with
  | nil =>
    intro head _ _ name hname
    simp [files, Files.names] at hname
  | cons a ch rest _ ihr =>
    intro head hrep hsub name hname
    obtain ⟨rfl, hparent, -, hnext⟩ := hrep
    obtain ⟨-, -, hrest⟩ := ids_below hsub
    obtain ⟨n, hn, hcase⟩ := h.files_cases hsub
    have hup : n.parent = some d := by simpa [links, hn] using hparent
    have hnames : (files s (cons a ch rest)).names = n.name :: (files s rest).names := by
      rcases hcase with ⟨-, -, heq⟩ | ⟨-, heq⟩
      · rw [heq]
        rfl
      · rw [heq]
        rfl
    rw [hnames] at hname
    rcases List.mem_cons.mp hname with rfl | hname
    · exact ⟨a, n, by simp, hn, hup, rfl⟩
    · obtain ⟨q, m, hq, hm, hd, rfl⟩ := ihr hnext hrest name hname
      exact ⟨q, m, by simp [hq], hm, hd, rfl⟩

/-- **A tidy tree is carried.** -/
theorem tidy_carried (h : TreeInv s root kids) (ht : Tidy s) (f : Forest Ptr) : ∀ {d : Ptr}
    {head : Option Ptr} {ns : List (List UInt8)}, Forest.Rep (links s) (some d) head f →
    f.ids ⊆ (tree root kids).ids → f.ids.Nodup → Located s d ns → (files s f).Carried ns := by
  induction f with
  | nil =>
    intro d head ns _ _ _ _
    trivial
  | cons a ch rest ihc ihr =>
    intro d head ns hrep hsub hnodup hd
    obtain ⟨rfl, hparent, hbelow, hnext⟩ := hrep
    obtain ⟨-, hch, hrest⟩ := ids_below hsub
    obtain ⟨n, hn, hcase⟩ := h.files_cases hsub
    have hup : n.parent = some d := by simpa [links, hn] using hparent
    have hl : Located s a (ns ++ [n.name]) := .child hd hn hup
    simp only [ids, List.nodup_cons, List.mem_append, not_or, List.nodup_append] at hnodup
    obtain ⟨⟨-, ha⟩, hndc, hndr, -⟩ := hnodup
    have hother : n.name ∉ (files s rest).names := by
      intro hname
      obtain ⟨q, m, hq, hm, hqd, heq⟩ := names_tops h rest hnext hrest _ hname
      have := ht.distinct.eq hn hm hup hqd heq.symm
      subst this
      exact ha hq
    have hnext' := ihr hnext hrest hndr hd
    rcases hcase with ⟨-, -, heq⟩ | ⟨-, heq⟩
    · rw [heq]
      refine ⟨ht.short hl, hother, ?_, ihc hbelow hch hndc hl, hnext'⟩
      intro hne
      -- the first child knows its parent
      cases ch with
      | nil => exact absurd rfl hne
      | cons b below others =>
        obtain ⟨m, hm, -⟩ := h.files_cases hch
        have hb : m.parent = some a := by simpa [links, hm] using hbelow.2.1
        exact ht.undotted hm hb hn (by simp [hup])
    · rw [heq]
      exact ⟨ht.short hl, hother, hnext'⟩

end LightningOS.Persist
