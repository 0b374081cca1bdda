import LightningOS.Properties.TreeParts

/-!
# Operations on the file tree

Every operation of `ramfs.c` keeps `TreeInv`, and none of them touches memory that is not
there, as long as the node it is about is in the tree.
-/

namespace LightningOS.Ramfs

open ByteMemory CString Forest

variable (env : Env) {s : Fs} {root : Ptr} {kids : Forest Ptr}

/-! ## Creating -/

/-- What `node_new` comes back with: there is no memory, or there is a new node, the root of a
tree or the last child of its parent. -/
inductive NewNode (s : Fs) (name : List UInt8) (type : FsType) :
    Option Ptr → Option Ptr → Fs → Prop
  | denied {parent : Option Ptr} (hk : env.kmalloc s.time s sizeofFsNode = none) :
      NewNode s name type parent none { s with time := s.time + 1 }
  | root {p : Ptr} (hk : env.kmalloc s.time s sizeofFsNode = some p) :
      NewNode s name type none (some p)
        { Fs.setNode { s with time := s.time + 1 } p
            { name := name.take (fsNameMax - 1), type := type, parent := none } with
          nodeCount := s.nodeCount + 1 }
  | child {p d : Ptr} {s₁ : Fs} (hk : env.kmalloc s.time s sizeofFsNode = some p)
      (happend : appendChild (Fs.setNode { s with time := s.time + 1 } p
        { name := name.take (fsNameMax - 1), type := type, parent := some d }) d p = some s₁) :
      NewNode s name type (some d) (some p) { s₁ with nodeCount := s₁.nodeCount + 1 }

theorem nodeNew_cases {name : List UInt8} {type : FsType} {parent r : Option Ptr} {s' : Fs}
    (h : nodeNew env s name type parent = some (r, s')) : NewNode env s name type parent r s' := by
  unfold nodeNew at h
  cases hk : env.kmalloc s.time s sizeofFsNode with
  | none =>
    simp only [Fs.alloc, hk] at h
    obtain ⟨rfl, rfl⟩ := Prod.mk.inj (Option.some.inj h)
    exact .denied hk
  | some p =>
    simp only [Fs.alloc, hk] at h
    cases parent with
    | none =>
      obtain ⟨rfl, rfl⟩ := Prod.mk.inj (Option.some.inj h)
      exact .root hk
    | some d =>
      simp only at h
      split at h
      · simp at h
      next s₁ happend =>
        obtain ⟨rfl, rfl⟩ := Prod.mk.inj (Option.some.inj h)
        exact .child hk happend

theorem lastSibling_spec {up : Option Ptr} {first : Ptr} {f : Forest Ptr}
    (hrep : Rep (links s) up (some first) f)
    (hlive : ∀ p ∈ f.tops, ∃ n, s.nodes.get p = some n) :
    ∀ {fuel : Nat}, f.tops.length ≤ fuel → ∃ last, f.lastTop = some last ∧
      lastSibling s fuel first = some last := by
  induction f generalizing first with
  | nil =>
    have hhead : some first = none := hrep
    simp at hhead
  | cons a ch rest _ ih =>
    intro fuel hf
    obtain ⟨hfirst, -, -, hrest⟩ := hrep
    obtain rfl := Option.some.inj hfirst
    obtain ⟨n, hn⟩ := hlive first (by simp)
    have hnext : (links s).next first = n.next := by simp [links, hn]
    rw [hnext] at hrest
    rw [tops_cons, List.length_cons] at hf
    cases fuel with
    | zero => omega
    | succ fuel =>
      cases rest with
      | nil =>
        have hnone : n.next = none := hrest
        exact ⟨first, rfl, by simp only [lastSibling, hn, hnone]⟩
      | cons b ch' rest' =>
        have hsome : n.next = some b := hrest.1
        rw [hsome] at hrest
        obtain ⟨last, hlast, hloop⟩ := @ih b hrest
          (fun p hp => hlive p (List.mem_cons_of_mem _ hp)) fuel (by omega)
        exact ⟨last, hlast, by simp only [lastSibling, hn, hsome, hloop]⟩

/-- Only the links of `d` and of the last child of `d` change when `p` is appended. -/
theorem appendChild_spec {d p : Ptr} {dn pn : FsNode} {ch : Forest Ptr}
    (hd : s.nodes.get d = some dn) (hrep : Rep (links s) (some d) dn.children ch)
    (hlive : ∀ q ∈ ch.tops, ∃ n, s.nodes.get q = some n) (hlen : ch.tops.length ≤ s.nodes.brk)
    (hpd : p ≠ d) (hpch : p ∉ ch.ids) (hp : s.nodes.get p = some pn)
    (hparent : pn.parent = some d) (hchildren : pn.children = none) (hnext : pn.next = none)
    (hnd : ch.ids.Nodup) :
    ∃ s', appendChild s d p = some s' ∧ Relinked s s' d p ch (ch.append (single p)) := by
  have hsingle : ∀ {L : Links Ptr}, L.parent p = some d → L.children p = none → L.next p = none →
      Rep L (some d) (some p) (single p) := fun h₁ h₂ h₃ => ⟨rfl, h₁, h₂, h₃⟩
  unfold appendChild
  simp only [hd]
  cases hc : dn.children with
  | none =>
    have hch : ch = nil := by
      cases ch with
      | nil => rfl
      | cons a ch rest =>
        have hhead := hrep.1
        rw [hc] at hhead
        simp at hhead
    subst hch
    refine ⟨_, rfl, relinked_set hd ⟨rfl, rfl, rfl, rfl, rfl, rfl⟩ (fun _ => rfl)
      (fun hne => absurd rfl hne) hpd ?_⟩
    rw [links_setChildren hd]
    simp only [if_true]
    refine hsingle ?_ ?_ ?_
    · simp [links, hp, hparent]
    · simp [links, hp, hchildren, hpd]
    · simp [links, hp, hnext]
  | some first =>
    rw [hc] at hrep
    obtain ⟨last, hlast, hloop⟩ :=
      lastSibling_spec hrep hlive (by omega : ch.tops.length ≤ s.nodes.brk + 1)
    have hlmem := lastTop_mem hlast
    obtain ⟨ln, hln⟩ := hlive last hlmem
    have hpl : p ≠ last := by
      rintro rfl
      exact hpch (tops_subset _ hlmem)
    simp only [hloop, hln]
    refine ⟨_, rfl, relinked_set hln ⟨rfl, rfl, rfl, rfl, rfl, rfl⟩
      (fun hl => absurd hlmem hl) (fun _ => rfl) hpl ?_⟩
    rw [links_setNext hln]
    have hfirst : (links s).children d = some first := by simp [links, hd, hc]
    simp only [hfirst]
    refine hrep.append hnd hlast (fun _ _ => rfl) (fun _ _ => rfl) (fun q _ hq => if_neg hq)
      (if_pos rfl) (hsingle ?_ ?_ ?_)
    · simp [links, hp, hparent]
    · simp [links, hp, hchildren]
    · simp [links, hp, hnext, hpl]

/-- A node that was set and then linked was added. -/
theorem Relinked.added {s' : Fs} {d p : Ptr} {t : Nat} {c : Int} {name : List UInt8}
    {type : FsType} {ch ch' : Forest Ptr}
    (hr : Relinked (Fs.setNode { s with time := t } p
      { name := name, type := type, parent := some d }) s' d p ch ch') :
    Added s { s' with nodeCount := c } d p name type := by
  have hget : ∀ {q}, q ≠ p → (Fs.setNode { s with time := t } p
      { name := name, type := type, parent := some d }).nodes.get q = s.nodes.get q :=
    fun hq => Store.get_set_other hq
  refine ⟨hr.same.trans (Store.get_set_same _ _ _), fun {q n} hq hn => ?_, fun {q} hq hn => ?_,
    hr.bufs, hr.root, hr.cwd⟩
  · obtain ⟨n', hn', hbody, -⟩ := hr.old ((hget hq).trans hn)
    exact ⟨n', hn', hbody⟩
  · exact hr.none ((hget hq).trans hn)

/-- A new node, linked behind the children of a directory, makes a tree of a tree. -/
theorem TreeInv.append (h : TreeInv s root kids) {d p : Ptr} {dn : FsNode}
    (hd : s.nodes.get d = some dn) (hdir : dn.type = .dir) {name : List UInt8}
    (hname : IsName name) (type : FsType) (hfresh : s.nodes.get p = none) (t : Nat) :
    ∃ s' kids', appendChild (Fs.setNode { s with time := t } p
        { name := name, type := type, parent := some d }) d p = some s' ∧
      tree root kids' = (tree root kids).update d (·.append (single p)) ∧
      TreeInv { s' with nodeCount := s'.nodeCount + 1 } root kids' ∧
      Added s { s' with nodeCount := s'.nodeCount + 1 } d p name type := by
  obtain ⟨pn, hpn⟩ : ∃ pn : FsNode, pn = { name := name, type := type, parent := some d } :=
    ⟨_, rfl⟩
  obtain ⟨s₂, hs₂⟩ : ∃ s₂, s₂ = Fs.setNode { s with time := t } p pn := ⟨_, rfl⟩
  have hpids : p ∉ (tree root kids).ids := by
    intro hm
    obtain ⟨n, hn⟩ := h.get hm
    rw [hfresh] at hn
    exact absurd hn.symm (Option.some_ne_none n)
  have hget : ∀ {q}, q ∈ (tree root kids).ids → s₂.nodes.get q = s.nodes.get q := by
    rintro q hq
    rw [hs₂]
    refine Store.get_set_other ?_
    rintro rfl
    exact hpids hq
  have hlive : ∀ q ∈ (tree root kids).ids, ∃ n, s₂.nodes.get q = some n := by
    intro q hq
    rw [hget hq]
    exact h.get hq
  have hbrk : s.nodes.brk ≤ s₂.nodes.brk := by
    rw [hs₂]
    exact Nat.le_max_left _ _
  have hdids := h.mem hd
  obtain ⟨ch, hch, hrep⟩ := h.sub hd
  have hchids := sub_subset hch
  obtain ⟨-, hchnd⟩ := List.nodup_cons.mp (sub_nodup h.nodup hch)
  have hlen := h.sub_length hch
  have htops := length_tops_le ch
  have hset : ∀ {up head f}, Rep (links s) up head f → p ∉ f.ids → Rep (links s₂) up head f := by
    rintro up head f hf hp
    rw [hs₂]
    exact rep_setNode hf hp t pn
  have hpd : p ≠ d := by
    rintro rfl
    exact hpids hdids
  obtain ⟨s₃, happ, hr⟩ := appendChild_spec (p := p) ((hget hdids).trans hd)
    (hset hrep fun hc => hpids (hchids hc)) (fun q hq => hlive q (hchids (tops_subset _ hq)))
    (by omega) hpd (fun hc => hpids (hchids hc)) (by rw [hs₂]; exact Store.get_set_same _ _ _)
    (by rw [hpn]) (by rw [hpn]) (by rw [hpn]) hchnd
  obtain ⟨kids', hkids⟩ := @update_tree root kids d (·.append (single p))
  have hrep₃ := hr.update (hset h.rep hpids) h.nodup hlive hch (·.append (single p)) rfl
  have hcount : s₃.nodeCount = s.nodeCount := hr.count.trans (by rw [hs₂]; rfl)
  have hchildren : ∀ {q n n'}, s.nodes.get q = some n → s₃.nodes.get q = some n' →
      n.type = .file → n'.children = n.children := by
    intro q n n' hq hq' ht
    obtain ⟨n'', hn'', -, -, hsame⟩ := hr.old ((hget (h.mem hq)).trans hq)
    obtain rfl := Option.some.inj (hq'.symm.trans hn'')
    refine hsame ?_
    rintro rfl
    -- a directory is not a file
    obtain rfl := Option.some.inj (hd.symm.trans hq)
    rw [hdir] at ht
    exact absurd ht (by decide)
  rw [hkids] at hrep₃
  rw [← hpn, ← hs₂]
  rw [hs₂, hpn] at hr
  have hadded := hr.added (c := s₃.nodeCount + 1)
  refine ⟨s₃, kids', happ, hkids.symm, ?_, hadded⟩
  refine h.added hadded hfresh hname ?_ hrep₃ hchildren (by rw [← hcount])
  rw [← hkids]
  exact ids_update_append h.nodup hch

/-- **A new node.** There is no memory, or it becomes the last child of the directory. -/
theorem TreeInv.nodeNew (h : TreeInv s root kids) {d : Ptr} {dn : FsNode}
    (hd : s.nodes.get d = some dn) (hdir : dn.type = .dir) {name : List UInt8}
    (hname : IsName (name.take (fsNameMax - 1))) (type : FsType) :
    ∃ r s', Ramfs.nodeNew env s name type (some d) = some (r, s') ∧
      ((r = none ∧ s' = { s with time := s.time + 1 }) ∨
        ∃ p kids', r = some p ∧ s.nodes.get p = none ∧
          (s.alloc env sizeofFsNode).1 = some p ∧
          tree root kids' = (tree root kids).update d (·.append (single p)) ∧
          TreeInv s' root kids' ∧ Added s s' d p (name.take (fsNameMax - 1)) type) := by
  unfold Ramfs.nodeNew
  cases hk : env.kmalloc s.time s sizeofFsNode with
  | none => exact ⟨none, _, by simp only [Fs.alloc, hk], Or.inl ⟨rfl, rfl⟩⟩
  | some p =>
    obtain ⟨hfresh, -⟩ := env.kmalloc_fresh hk
    obtain ⟨s', kids', happ, hkids, hinv, hadded⟩ :=
      h.append hd hdir hname type hfresh (s.time + 1)
    simp only [Fs.alloc, hk, happ]
    exact ⟨some p, _, rfl, Or.inr ⟨p, kids', rfl, hfresh, rfl, hkids, hinv, hadded⟩⟩

/-! ### Where something is created -/

theorem TreeInv.followParent (h : TreeInv s root kids) {p : Ptr}
    (hp : p ∈ (tree root kids).ids) {names : List (List UInt8)} (hnames : ∀ n ∈ names, IsName n) :
    ∃ parent comp, Ramfs.followParent s p names = some (parent, comp) ∧
      (∀ q, parent = some q → q ∈ (tree root kids).ids) ∧ (comp = [] ∨ IsName comp) := by
  unfold Ramfs.followParent
  cases hlast : names.getLast? with
  | none => exact ⟨some p, [], rfl, fun q hq => Option.some.inj hq ▸ hp, Or.inl rfl⟩
  | some last =>
    obtain ⟨q, hq, hmem⟩ := h.follow names.dropLast hp
    simp only [hq]
    cases q with
    | none => exact ⟨none, [], rfl, by simp, Or.inl rfl⟩
    | some q =>
      exact ⟨some q, last, rfl, fun r hr => hmem r hr,
        Or.inr (hnames last (List.mem_of_getLast? hlast))⟩

theorem TreeInv.walk (h : TreeInv s root kids) {path : List UInt8} {p : Ptr}
    (hstart : Ramfs.start s path = some p) (hp : p ∈ (tree root kids).ids) :
    ∃ parent comp, Ramfs.walk s path true = some (parent, comp) ∧
      (∀ q, parent = some q → q ∈ (tree root kids).ids) ∧ (comp = [] ∨ IsName comp) := by
  by_cases hne : path = []
  · subst hne
    exact ⟨none, [], rfl, by simp, Or.inl rfl⟩
  · rw [walk_followParent h.isRoot hne hstart]
    exact h.followParent hp fun n hn => isName_of_mem_components hn

/-- What `fs_create` did: nothing, or it made the node `p` in `d`. -/
structure CreatedIn (s s' : Fs) (root : Ptr) (kids kids' : Forest Ptr) (d p : Ptr)
    (name : List UInt8) (type : FsType) : Prop where
  fresh : s.nodes.get p = none
  dir : ∃ dn, s.nodes.get d = some dn ∧ dn.type = .dir
  isName : IsName name
  eq : tree root kids' = (tree root kids).update d (·.append (single p))
  inv : TreeInv s' root kids'
  added : Added s s' d p name type

theorem lastText_take (junk : List UInt8) {comp : List UInt8} (h : IsName comp) :
    (lastText junk comp).take (fsNameMax - 1) = comp := by
  unfold lastText
  by_cases hlt : comp.length < fsNameMax - 1
  · rw [if_pos hlt, List.take_of_length_le h.length]
  · rw [if_neg hlt]
    exact List.take_left' (by have := h.length; omega)

theorem lastText_ne_nil (junk : List UInt8) {comp : List UInt8} (h : IsName comp) :
    lastText junk comp ≠ [] := by
  unfold lastText
  split
  · exact h.ne_nil
  · simp [h.ne_nil]

/-- **Creating.** In a tree, `fs_create` comes to an end without touching what is not there,
and leaves a tree. -/
theorem TreeInv.create (h : TreeInv s root kids) {path : List UInt8} (type : FsType)
    {parent : Option Ptr} {comp : List UInt8}
    (hw : Ramfs.walk s path true = some (parent, comp))
    (hp : ∀ q, parent = some q → q ∈ (tree root kids).ids) (hc : comp = [] ∨ IsName comp) :
    ∃ r s', fsCreate env s path type = some (r, s') ∧
      ((r = none ∧ ∃ t, s' = { s with time := t }) ∨
        ∃ d p kids', parent = some d ∧ r = some p ∧
          CreatedIn s s' root kids kids' d p comp type) := by
  unfold fsCreate
  simp only [hw]
  cases parent with
  | none => exact ⟨none, _, rfl, Or.inl ⟨rfl, _, rfl⟩⟩
  | some d =>
    obtain ⟨dn, hdn⟩ := h.get (hp d rfl)
    have h₁ : TreeInv { s with time := s.time + 1 } root kids := h.congr rfl rfl rfl rfl
    simp only [hdn]
    by_cases hbad : dn.type ≠ .dir ∨ lastText (env.junk s.time) comp = []
    · rw [if_pos hbad]
      exact ⟨none, _, rfl, Or.inl ⟨rfl, _, rfl⟩⟩
    rw [if_neg hbad]
    have hdir : dn.type = .dir := by
      by_contra hne
      exact hbad (Or.inl hne)
    have hname : IsName comp := by
      rcases hc with rfl | hc
      · exact absurd (Or.inr rfl) hbad
      · exact hc
    obtain ⟨ch, hch, -⟩ := h₁.sub hdn
    rw [h₁.findChild hdn hch, if_pos hdir]
    cases hfind : ch.tops.find? (hasName { s with time := s.time + 1 }
        (lastText (env.junk s.time) comp)) with
    | some q => exact ⟨none, _, rfl, Or.inl ⟨rfl, _, rfl⟩⟩
    | none =>
      have hcut := lastText_take (env.junk s.time) hname
      have hname' : IsName ((lastText (env.junk s.time) comp).take (fsNameMax - 1)) := by
        rw [hcut]
        exact hname
      obtain ⟨r, s', hnew, hres⟩ := h₁.nodeNew env hdn hdir hname' type
      refine ⟨r, s', hnew, ?_⟩
      rcases hres with ⟨rfl, rfl⟩ | ⟨p, kids', rfl, hfresh, -, htree, hinv, hadded⟩
      · exact Or.inl ⟨rfl, _, rfl⟩
      · rw [hcut] at hadded
        exact Or.inr ⟨d, p, kids', rfl, rfl, hfresh, ⟨dn, hdn, hdir⟩, hname, htree, hinv,
          ⟨hadded.new, hadded.old, hadded.none, hadded.bufs, hadded.root, hadded.cwd⟩⟩

/-! ## Freeing -/

/-- The nodes `gone` are no longer allocated, and the rest is as it was. -/
structure Freed (s s' : Fs) (gone : List Ptr) : Prop where
  nodes : ∀ q, s'.nodes.get q = if q ∈ gone then none else s.nodes.get q
  bufs : ∀ d, (∀ q ∈ gone, ∀ n, s.nodes.get q = some n → n.data ≠ some d) →
    s'.bufs.get d = s.bufs.get d
  bufGone : ∀ q ∈ gone, ∀ n d, s.nodes.get q = some n → n.data = some d → s'.bufs.get d = none
  bufNone : ∀ d, s.bufs.get d = none → s'.bufs.get d = none
  brk : s'.nodes.brk = s.nodes.brk
  root : s'.rootNode = s.rootNode
  cwd : s'.currentDir = s.currentDir
  count : s'.nodeCount = s.nodeCount - gone.length

theorem Freed.trans {s₁ s₂ s₃ : Fs} {a b : List Ptr} (h : Freed s₁ s₂ a) (h' : Freed s₂ s₃ b) :
    Freed s₁ s₃ (a ++ b) := by
  refine ⟨fun q => ?_, fun d hd => ?_, fun q hq n d hn hd => ?_,
    fun d hd => h'.bufNone d (h.bufNone d hd), h'.brk.trans h.brk, h'.root.trans h.root,
    h'.cwd.trans h.cwd, ?_⟩
  · rw [h'.nodes, h.nodes]
    by_cases hb : q ∈ b
    · simp [hb]
    · by_cases ha : q ∈ a <;> simp [ha, hb]
  · rw [h'.bufs d fun q hq n hn => ?_, h.bufs d fun q hq => hd q (List.mem_append_left _ hq)]
    rw [h.nodes] at hn
    split at hn
    · simp at hn
    · exact hd q (List.mem_append_right _ hq) n hn
  · by_cases ha : q ∈ a
    · exact h'.bufNone d (h.bufGone q ha n d hn hd)
    · have hb : q ∈ b := (List.mem_append.mp hq).resolve_left ha
      exact h'.bufGone q hb n d (by rw [h.nodes, if_neg ha, hn]) hd
  · rw [h'.count, h.count, List.length_append]
    omega

/-- The nodes are there, and every buffer they point to belongs to one of them only. -/
structure Owned (s : Fs) (ids : List Ptr) : Prop where
  node : ∀ q ∈ ids, ∃ n, s.nodes.get q = some n
  buf : ∀ q ∈ ids, ∀ n, s.nodes.get q = some n → ∀ d, n.data = some d →
    ∃ bytes, s.bufs.get d = some bytes
  distinct : ∀ q ∈ ids, ∀ r ∈ ids, ∀ n m d, s.nodes.get q = some n → s.nodes.get r = some m →
    n.data = some d → m.data = some d → q = r

theorem TreeInv.owned (h : TreeInv s root kids) : Owned s (tree root kids).ids := by
  refine ⟨fun q hq => h.get hq, fun q _ n hn d hd => ?_, fun q _ r _ n m d hn hm => h.owner hn hm⟩
  have hok := (h.ok hn).data
  unfold DataOk at hok
  rw [hd] at hok
  obtain ⟨buf, hbuf, -⟩ := hok
  exact ⟨buf, hbuf⟩

theorem Owned.mono {ids ids' : List Ptr} (h : Owned s ids) (hs : ids' ⊆ ids) : Owned s ids' :=
  ⟨fun q hq => h.node q (hs hq), fun q hq => h.buf q (hs hq),
    fun q hq r hr => h.distinct q (hs hq) r (hs hr)⟩

/-- Freeing some of the nodes leaves the others as they were. -/
theorem Owned.freed {s' : Fs} {gone ids : List Ptr} (h : Owned s (gone ++ ids))
    (hf : Freed s s' gone) (hd : ∀ q ∈ ids, q ∉ gone) : Owned s' ids := by
  have hsame : ∀ q ∈ ids, s'.nodes.get q = s.nodes.get q := fun q hq => by
    rw [hf.nodes, if_neg (hd q hq)]
  have hin : ∀ q ∈ ids, q ∈ gone ++ ids := fun q hq => List.mem_append_right _ hq
  refine ⟨fun q hq => ?_, fun q hq n hn e he => ?_, fun q hq r hr n m e hn hm => ?_⟩
  · rw [hsame q hq]
    exact h.node q (hin q hq)
  · rw [hsame q hq] at hn
    obtain ⟨bytes, hbytes⟩ := h.buf q (hin q hq) n hn e he
    refine ⟨bytes, ?_⟩
    rw [hf.bufs e fun r hr m hm hme => ?_, hbytes]
    have hqr := h.distinct q (hin q hq) r (List.mem_append_left _ hr) n m e hn hm he hme
    exact hd q hq (hqr ▸ hr)
  · rw [hsame q hq] at hn
    rw [hsame r hr] at hm
    exact h.distinct q (hin q hq) r (hin r hr) n m e hn hm

/-- The end of `free_subtree`, once the children are gone. -/
theorem freeNode_spec {a : Ptr} {n : FsNode} (hn : s.nodes.get a = some n)
    (hbuf : ∀ d, n.data = some d → ∃ bytes, s.bufs.get d = some bytes) :
    ∃ s₁ s₂, s.freeBuf n.data = some s₁ ∧ s₁.freeNode a = some s₂ ∧
      Freed s { s₂ with nodeCount := s₂.nodeCount - 1 } [a] := by
  have hnodes : ∀ q, (s.nodes.erase a).get q = if q ∈ [a] then none else s.nodes.get q := by
    intro q
    by_cases hq : q = a
    · subst hq
      simp
    · rw [if_neg (by simpa using hq)]
      exact Store.get_erase_other hq
  cases hd : n.data with
  | none =>
    refine ⟨s, { s with nodes := s.nodes.erase a }, rfl, by simp [Fs.freeNode, hn], ?_⟩
    refine ⟨hnodes, fun _ _ => rfl, fun q hq m e hm he => ?_, fun _ => id, rfl, rfl, rfl, rfl⟩
    obtain rfl := List.mem_singleton.mp hq
    rw [hn] at hm
    obtain rfl := Option.some.inj hm
    rw [hd] at he
    simp at he
  | some d =>
    obtain ⟨bytes, hbytes⟩ := hbuf d hd
    refine ⟨{ s with bufs := s.bufs.erase d },
      { s with bufs := s.bufs.erase d, nodes := s.nodes.erase a },
      by simp [Fs.freeBuf, hbytes], by simp [Fs.freeNode, hn], ?_⟩
    refine ⟨hnodes, fun e he => Store.get_erase_other ?_, fun q hq m e hm he => ?_,
      fun e he => ?_, rfl, rfl, rfl, rfl⟩
    · rintro rfl
      exact he a (by simp) n hn hd
    · obtain rfl := List.mem_singleton.mp hq
      rw [hn] at hm
      obtain rfl := Option.some.inj hm
      rw [hd] at he
      obtain rfl := Option.some.inj he
      exact Store.get_erase_same _ _
    · by_cases hed : e = d
      · subst hed
        exact Store.get_erase_same _ _
      · exact (Store.get_erase_other hed).trans he

theorem Freed.rep {s' : Fs} {gone : List Ptr} {up head : Option Ptr} {f : Forest Ptr}
    (hf : Freed s s' gone) (hrep : Rep (links s) up head f) (hd : ∀ x ∈ f.ids, x ∉ gone) :
    Rep (links s') up head f := by
  have hsame : ∀ x ∈ f.ids, s'.nodes.get x = s.nodes.get x := fun x hx => by
    rw [hf.nodes, if_neg (hd x hx)]
  refine hrep.congr (fun x hx => ?_) (fun x hx => ?_) fun x hx => ?_
  · simp only [links, hsame x hx]
  · simp only [links, hsame x hx]
  · simp only [links, hsame x hx]

/-- A node is freed after its children. -/
theorem freeSubtree_step {a : Ptr} {n : FsNode} {ids : List Ptr} {k : Nat} {s₁ : Fs}
    (hn : s.nodes.get a = some n) (ha : a ∉ ids) (howned : Owned s (a :: ids))
    (hfree : freeSiblings k s n.children = some s₁) (hf : Freed s s₁ ids) :
    ∃ s', freeSubtree (k + 1) s a = some s' ∧ Freed s s' (ids ++ [a]) := by
  have hn₁ : s₁.nodes.get a = some n := by rw [hf.nodes, if_neg ha, hn]
  have howned₁ : Owned s₁ [a] := by
    refine Owned.freed (howned.mono fun x hx => ?_) hf fun q hq hc => ?_
    · simp only [List.mem_append, List.mem_singleton] at hx
      rcases hx with hx | rfl
      · exact List.mem_cons_of_mem _ hx
      · exact List.mem_cons_self
    · rw [List.mem_singleton.mp hq] at hc
      exact ha hc
  obtain ⟨s₂, s₃, hbuf, hnode, hf₂⟩ := freeNode_spec hn₁ (howned₁.buf a (by simp) n hn₁)
  refine ⟨_, ?_, hf.trans hf₂⟩
  rw [freeSubtree]
  simp only [hn, hfree, hbuf, hnode]

/-- The loop over siblings and the recursion into their children free a whole forest. -/
theorem freeSiblings_spec {f : Forest Ptr} : ∀ {s : Fs} {up head : Option Ptr} {fuel : Nat},
    Rep (links s) up head f → f.ids.Nodup → Owned s f.ids → 2 * f.ids.length ≤ fuel →
    ∃ s', freeSiblings fuel s head = some s' ∧ Freed s s' f.ids := by
  induction f with
  | nil =>
    intro s up head fuel hrep _ _ _
    have hhead : head = none := hrep
    subst hhead
    refine ⟨s, by cases fuel <;> simp [freeSiblings], ?_⟩
    exact ⟨fun q => by simp, fun _ _ => rfl, by simp, fun _ => id, rfl, rfl, rfl, by simp⟩
  | cons a ch rest ihc ihr =>
    intro s up head fuel hrep hnd howned hfuel
    obtain ⟨rfl, -, hch, hrest⟩ := hrep
    simp only [ids_cons, List.nodup_cons, List.nodup_append, List.mem_append, not_or] at hnd
    obtain ⟨⟨hac, har⟩, hndc, hndr, hdis⟩ := hnd
    simp only [ids_cons, List.length_cons, List.length_append] at hfuel
    obtain ⟨n, hn⟩ := howned.node a (by simp)
    have hlink : (links s).children a = n.children ∧ (links s).next a = n.next := by
      simp [links, hn]
    rw [hlink.1] at hch
    rw [hlink.2] at hrest
    obtain ⟨k, rfl⟩ : ∃ k, fuel = k + 2 := ⟨fuel - 2, by omega⟩
    -- the tree of the first node, and then its siblings
    obtain ⟨s₁, hfree₁, hf₁⟩ := ihc hch hndc (howned.mono fun x hx => by simp [hx])
      (by omega : 2 * ch.ids.length ≤ k)
    obtain ⟨s₃, hfree₃, hf₃⟩ := freeSubtree_step hn hac
      (howned.mono fun x hx => by simp only [List.mem_cons, ids_cons, List.mem_append] at hx ⊢; tauto)
      hfree₁ hf₁
    have hkeep : ∀ x ∈ rest.ids, x ∉ ch.ids ++ [a] := by
      intro x hx hc
      simp only [List.mem_append, List.mem_singleton] at hc
      rcases hc with hc | rfl
      · exact hdis x hc x hx rfl
      · exact har hx
    have howned₃ : Owned s₃ rest.ids := by
      refine Owned.freed (howned.mono fun x hx => ?_) hf₃ hkeep
      simp only [List.mem_append, ids_cons, List.mem_cons] at hx ⊢
      tauto
    obtain ⟨s₄, hfree₄, hf₄⟩ := ihr (hf₃.rep hrest hkeep) hndr howned₃
      (by omega : 2 * rest.ids.length ≤ k + 1)
    refine ⟨s₄, ?_, ?_⟩
    · rw [freeSiblings]
      simp only [hn, hfree₃, hfree₄]
    · have hall := hf₃.trans hf₄
      refine ⟨fun q => ?_, fun d hd => hall.bufs d fun q hq => hd q ?_,
        fun q hq => hall.bufGone q ?_, hall.bufNone, hall.brk, hall.root, hall.cwd, ?_⟩
      · rw [hall.nodes]
        refine if_congr ?_ rfl rfl
        simp only [ids_cons, List.mem_append, List.mem_cons]
        tauto
      · simp only [ids_cons, List.mem_append, List.mem_cons] at hq ⊢
        tauto
      · simp only [ids_cons, List.mem_append, List.mem_cons] at hq ⊢
        tauto
      · rw [hall.count]
        simp only [ids_cons, List.length_append, List.length_cons, List.length_nil]
        omega

theorem freeSubtree_spec {a : Ptr} {n : FsNode} {ch : Forest Ptr} {fuel : Nat}
    (hn : s.nodes.get a = some n) (hrep : Rep (links s) (some a) n.children ch)
    (hnd : (a :: ch.ids).Nodup) (howned : Owned s (a :: ch.ids))
    (hfuel : 2 * ch.ids.length < fuel) :
    ∃ s', freeSubtree fuel s a = some s' ∧ Freed s s' (ch.ids ++ [a]) := by
  obtain ⟨k, rfl⟩ : ∃ k, fuel = k + 1 := ⟨fuel - 1, by omega⟩
  obtain ⟨ha, hndc⟩ := List.nodup_cons.mp hnd
  obtain ⟨s₁, hfree₁, hf₁⟩ := freeSiblings_spec hrep hndc
    (howned.mono fun x hx => List.mem_cons_of_mem _ hx) (by omega : 2 * ch.ids.length ≤ k)
  exact freeSubtree_step hn ha howned hfree₁ hf₁

/-! ## Removing -/

theorem prevSibling_spec {node : Ptr} {up head : Option Ptr} {f : Forest Ptr}
    (hrep : Rep (links s) up head f) (hlive : ∀ p ∈ f.tops, ∃ n, s.nodes.get p = some n)
    (hmem : node ∈ f.tops) (hfirst : head ≠ some node) :
    ∀ {fuel : Nat}, f.tops.length ≤ fuel → ∃ prev, prevSibling s node fuel head = some (some prev) ∧
      prev ∈ f.tops ∧ (links s).next prev = some node := by
  induction f generalizing head with
  | nil => simp at hmem
  | cons a ch rest _ ih =>
    intro fuel hf
    obtain ⟨rfl, -, -, hrest⟩ := hrep
    obtain ⟨n, hn⟩ := hlive a (by simp)
    have hnext : (links s).next a = n.next := by simp [links, hn]
    rw [tops_cons, List.length_cons] at hf
    have hmem' : node ∈ rest.tops := by
      rcases List.mem_cons.mp hmem with rfl | hm
      · exact absurd rfl hfirst
      · exact hm
    obtain ⟨k, rfl⟩ : ∃ k, fuel = k + 1 := ⟨fuel - 1, by omega⟩
    rw [prevSibling, hn]
    by_cases hc : n.next = some node
    · refine ⟨a, by simp [hc], by simp, by rw [hnext, hc]⟩
    · rw [hnext] at hrest
      obtain ⟨prev, hloop, hprev, hp⟩ := ih hrest (fun p hp => hlive p (List.mem_cons_of_mem _ hp))
        hmem' hc (by omega : rest.tops.length ≤ k)
      exact ⟨prev, by simp only [if_neg hc, hloop], List.mem_cons_of_mem _ hprev, hp⟩


/-- Only the links of the parent and of the sibling before it change when `node` is taken
out. -/
theorem unlink_spec {d node : Ptr} {dn nn : FsNode} {ch : Forest Ptr}
    (hd : s.nodes.get d = some dn) (hrep : Rep (links s) (some d) dn.children ch)
    (hlive : ∀ q ∈ ch.tops, ∃ n, s.nodes.get q = some n) (hlen : ch.tops.length ≤ s.nodes.brk)
    (hdch : d ∉ ch.ids) (hnd : ch.ids.Nodup) (hmem : node ∈ ch.tops)
    (hn : s.nodes.get node = some nn) :
    ∃ s', unlink s d node nn.next = some (some s') ∧
      Relinked s s' d node ch (ch.dropTop node) := by
  have hnd' : node ≠ d := by
    rintro rfl
    exact hdch (tops_subset _ hmem)
  unfold unlink
  simp only [hd]
  by_cases hfirst : dn.children = some node
  · rw [if_pos hfirst]
    refine ⟨_, rfl, relinked_set hd ⟨rfl, rfl, rfl, rfl, rfl, rfl⟩ (fun _ => rfl)
      (fun hne => absurd rfl hne) hnd' ?_⟩
    rw [links_setChildren hd]
    simp only [if_true]
    cases ch with
    | nil => simp at hmem
    | cons a c rest =>
      obtain ⟨hhead, -, -, hrest⟩ := hrep
      rw [hfirst] at hhead
      obtain rfl := Option.some.inj hhead
      have hnext : (links s).next node = nn.next := by simp [links, hn]
      rw [hnext] at hrest
      rw [dropTop, if_pos rfl]
      refine hrest.congr (fun _ _ => rfl) (fun x hx => if_neg ?_) fun _ _ => rfl
      rintro rfl
      exact hdch (by simp [hx])
  · rw [if_neg hfirst]
    obtain ⟨prev, hloop, hprev, hnext⟩ := prevSibling_spec hrep hlive hmem hfirst
      (by omega : ch.tops.length ≤ s.nodes.brk + 1)
    obtain ⟨qn, hqn⟩ := hlive prev hprev
    have hnp : node ≠ prev := by
      rintro rfl
      exact hrep.next_ne hnd hmem hnext
    simp only [hloop, hqn]
    refine ⟨_, rfl, relinked_set hqn ⟨rfl, rfl, rfl, rfl, rfl, rfl⟩
      (fun hq => absurd hprev hq) (fun _ => rfl) hnp ?_⟩
    rw [links_setNext hqn]
    have hchildren : (links s).children d = dn.children := by simp [links, hd]
    simp only [hchildren]
    refine hrep.dropTop hnd hprev hnext (fun _ _ => rfl) (fun _ _ => rfl)
      (fun q _ hq => if_neg hq) ?_
    simp [links, hn]

/-- Whose buffer is whose does not depend on the links. -/
theorem Relinked.owned {s' : Fs} {d x : Ptr} {ch ch' : Forest Ptr} {ids : List Ptr}
    (hr : Relinked s s' d x ch ch') (h : Owned s ids) : Owned s' ids := by
  refine ⟨fun q hq => ?_, fun q hq n' hn' e he => ?_,
    fun q hq r hr' n' m' e hn' hm' he he' => ?_⟩
  · obtain ⟨n, hn⟩ := h.node q hq
    obtain ⟨n', hn', -⟩ := hr.old hn
    exact ⟨n', hn'⟩
  · obtain ⟨n, hn, hbody, -⟩ := hr.back hn'
    rw [hr.bufs]
    exact h.buf q hq n hn e (hbody.data.symm.trans he)
  · obtain ⟨n, hn, hbody, -⟩ := hr.back hn'
    obtain ⟨m, hm, hbody', -⟩ := hr.back hm'
    exact h.distinct q hq r hr' n m e hn hm (hbody.data.symm.trans he)
      (hbody'.data.symm.trans he')

/-- Nothing changes below a child of `d`. -/
theorem Relinked.below {s' : Fs} {d x : Ptr} {ch ch' c : Forest Ptr}
    (hr : Relinked s s' d x ch ch') (h : TreeInv s root kids)
    (hch : (tree root kids).sub d = some ch) {node : Ptr} {head : Option Ptr}
    (hmem : node ∈ ch.tops) (hc : (tree root kids).sub node = some c)
    (hrep : Rep (links s) (some node) head c) : Rep (links s') (some node) head c := by
  obtain ⟨hdch, hchnd⟩ := List.nodup_cons.mp (sub_nodup h.nodup hch)
  obtain ⟨c', hc'⟩ := exists_sub (tops_subset _ hmem)
  obtain rfl := Option.some.inj (hc.symm.trans (sub_trans h.nodup hch hc'))
  have hlink : ∀ q ∈ c.ids, (links s').parent q = (links s).parent q ∧
      (links s').next q = (links s).next q ∧ (links s').children q = (links s).children q := by
    intro q hq
    obtain ⟨n, hn⟩ := h.get (sub_subset hc hq)
    have hqd : q ≠ d := by
      rintro rfl
      exact hdch (sub_subset hc' hq)
    obtain ⟨hparent, hnext, hchildren⟩ := hr.same_links hn
    exact ⟨hparent, hnext (notMem_tops_of_sub hchnd hc' hq), hchildren hqd⟩
  exact hrep.congr (fun q hq => (hlink q hq).1) (fun q hq => (hlink q hq).2.2)
    fun q hq => (hlink q hq).2.1

/-- Nodes that were taken out and freed are removed. -/
theorem Relinked.removed {s₁ s' : Fs} {d x : Ptr} {ch ch' : Forest Ptr} {gone : List Ptr}
    (hr : Relinked s s₁ d x ch ch') (h : TreeInv s root kids) (hf : Freed s₁ s' gone) :
    Removed s s' gone := by
  refine ⟨fun {q} hq => by rw [hf.nodes, if_pos hq], fun {q n} hq hn => ?_, fun {q} hq => ?_,
    fun {q n e} hq hn he => ?_, fun {q n e} hq hn he => ?_,
    fun {e} he => hf.bufNone e (by rw [hr.bufs, he]), hf.root.trans hr.root, hf.cwd.trans hr.cwd⟩
  · obtain ⟨n', hn', hbody, -⟩ := hr.old hn
    exact ⟨n', by rw [hf.nodes, if_neg hq, hn'], hbody⟩
  · rw [hf.nodes, hr.none hq, ite_self]
  · rw [hf.bufs e fun r hrg m' hm' hme => ?_, hr.bufs]
    obtain ⟨m, hm, hbody, -⟩ := hr.back hm'
    have hqr := h.owner hn hm he (hbody.data.symm.trans hme)
    exact hq (hqr ▸ hrg)
  · obtain ⟨n', hn', hbody, -⟩ := hr.old hn
    exact hf.bufGone q hq n' e hn' (hbody.data.trans he)

/-- A node with children is not a file. -/
theorem TreeInv.dir_of_child (h : TreeInv s root kids) {d node : Ptr} {dn : FsNode}
    {ch : Forest Ptr} (hd : s.nodes.get d = some dn) (hch : (tree root kids).sub d = some ch)
    (hmem : node ∈ ch.tops) : dn.type ≠ .file := by
  intro ht
  obtain ⟨ch', hch', hrep⟩ := h.sub hd
  obtain rfl := Option.some.inj (hch.symm.trans hch')
  have hhead := hrep.head_eq
  rw [(h.ok hd).file ht] at hhead
  rw [List.head?_eq_none_iff.mp hhead.symm] at hmem
  exact absurd hmem List.not_mem_nil

/-- **Removing.** A node that is not the root is taken out with everything below it. -/
theorem TreeInv.remove (h : TreeInv s root kids) {node : Ptr} {n : FsNode}
    (hn : s.nodes.get node = some n) (hroot : node ≠ root) :
    ∃ d ch c kids' s₁ s', n.parent = some d ∧ (tree root kids).sub d = some ch ∧ node ∈ ch.tops ∧
      (tree root kids).sub node = some c ∧ unlink s d node n.next = some (some s₁) ∧
      freeSubtree s₁.freeFuel s₁ node = some s' ∧
      tree root kids' = (tree root kids).update d (dropTop node) ∧ TreeInv s' root kids' ∧
      Removed s s' (c.ids ++ [node]) := by
  obtain ⟨d, hd⟩ : ∃ d, n.parent = some d := by
    cases hp : n.parent with
    | none => exact absurd (h.eq_root hn hp) hroot
    | some d => exact ⟨d, rfl⟩
  obtain ⟨ch, hch, hmem⟩ := h.parent_mem hn hd
  obtain ⟨dn, hdn⟩ := h.get (mem_of_sub hch)
  obtain ⟨ch', hch', hrep⟩ := h.sub hdn
  obtain rfl := Option.some.inj (hch.symm.trans hch')
  obtain ⟨c, hc, hrepc⟩ := h.sub hn
  obtain ⟨hdch, hchnd⟩ := List.nodup_cons.mp (sub_nodup h.nodup hch)
  have hndc := sub_nodup h.nodup hc
  have hlen := h.sub_length hch
  have htops := length_tops_le ch
  -- unlinking
  obtain ⟨s₁, hunlink, hr⟩ := unlink_spec hdn hrep
    (fun q hq => h.get (sub_subset hch (tops_subset _ hq))) (by omega) hdch hchnd hmem hn
  -- freeing
  have hin : node :: c.ids ⊆ (tree root kids).ids :=
    List.cons_subset.mpr ⟨h.mem hn, sub_subset hc⟩
  have hfuel : 2 * c.ids.length < s₁.freeFuel := by
    have hle := h.sub_length hc
    have hbrk := hr.brk
    unfold Fs.freeFuel
    omega
  obtain ⟨s', hfree, hf⟩ := freeSubtree_spec (hr.same.trans hn) (hr.below h hch hmem hc hrepc)
    hndc (hr.owned (h.owned.mono hin)) hfuel
  have hremoved := hr.removed h hf
  -- what is left
  obtain ⟨kids', hkids⟩ := @update_tree root kids d (dropTop node)
  have hids := ids_update_dropTop h.nodup hch hmem hc
  rw [hkids] at hids
  obtain ⟨-, -, hdis⟩ := List.nodup_append.mp (hids.nodup_iff.mp h.nodup)
  have hrep₁ := hr.update h.rep h.nodup (fun q hq => h.get hq) hch (dropTop node) rfl
  rw [hkids] at hrep₁
  refine ⟨d, ch, c, kids', s₁, s', hd, hch, hmem, hc, hunlink, hfree, hkids.symm, ?_, hremoved⟩
  refine h.removed hremoved hids (hf.rep hrep₁ fun x hx hg => hdis x hg x hx rfl)
    (fun {q k k'} hk hk' ht => ?_) (by rw [hf.count, hr.count])
  obtain ⟨hgone, -⟩ := hremoved.back hk'
  rw [hf.nodes, if_neg hgone] at hk'
  obtain ⟨k'', hk'', -, -, hsame⟩ := hr.old hk
  obtain rfl := Option.some.inj (hk'.symm.trans hk'')
  refine hsame ?_
  rintro rfl
  exact h.dir_of_child hk hch hmem ht

/-! ## Writing -/

/-- What is in a file. -/
def contents (s : Fs) (n : FsNode) : List UInt8 := ((n.data.bind s.bufs.get).getD []).take n.size

theorem blit_eq {buf bytes : List UInt8} {off : Nat} (h : off + bytes.length ≤ buf.length) :
    blit buf off bytes = some (buf.take off ++ bytes ++ buf.drop (off + bytes.length)) := if_pos h

theorem blit_length {buf bytes out : List UInt8} {off : Nat} (h : blit buf off bytes = some out) :
    off + bytes.length ≤ buf.length ∧ out.length = buf.length := by
  unfold blit at h
  by_cases hle : off + bytes.length ≤ buf.length
  · rw [if_pos hle] at h
    obtain rfl := Option.some.inj h
    refine ⟨hle, ?_⟩
    simp only [List.length_append, List.length_take, List.length_drop]
    omega
  · simp [hle] at h

theorem fill_length (t n : Nat) : (env.fill t n).length = n := by
  simp [Env.fill]

/-- What `growBuf` comes back with: the buffer is large enough, there is no memory, or the
contents have moved to a new buffer. -/
inductive Regrown (s : Fs) (f : Ptr) (n : FsNode) (needed : Nat) : Option FsNode → Fs → Prop
  | fits (hcap : needed ≤ n.capacity) : Regrown s f n needed (some n) s
  | denied (hcap : ¬needed ≤ n.capacity)
      (hk : env.kmalloc s.time s (wrap32 (needed + 64)) = none) :
      Regrown s f n needed none { s with time := s.time + 1 }
  | moved {d : Ptr} {buffer : List UInt8} {s₁ : Fs} (hcap : ¬needed ≤ n.capacity)
      (hk : env.kmalloc s.time s (wrap32 (needed + 64)) = some d)
      (hlen : buffer.length = granted (wrap32 (needed + 64)))
      (hfree : Fs.freeBuf { s with time := s.time + 1 } n.data = some s₁) :
      Regrown s f n needed (some { n with data := some d, capacity := wrap32 (needed + 64) })
        { s₁.setNode f { n with data := some d, capacity := wrap32 (needed + 64) } with
          bufs := s₁.bufs.set d buffer }

theorem growBuf_cases {f : Ptr} {n : FsNode} {base needed : Nat} {r : Option FsNode} {s' : Fs}
    (h : growBuf env s f n base needed = some (r, s')) : Regrown env s f n needed r s' := by
  unfold growBuf at h
  by_cases hcap : needed ≤ n.capacity
  · rw [if_pos hcap] at h
    obtain ⟨rfl, rfl⟩ := Prod.mk.inj (Option.some.inj h)
    exact .fits hcap
  rw [if_neg hcap] at h
  cases hk : env.kmalloc s.time s (wrap32 (needed + 64)) with
  | none =>
    simp only [Fs.alloc, hk] at h
    obtain ⟨rfl, rfl⟩ := Prod.mk.inj (Option.some.inj h)
    exact .denied hcap hk
  | some d =>
    have hfill := fill_length env s.time (granted (wrap32 (needed + 64)))
    simp only [Fs.alloc, hk] at h
    split at h
    · simp at h
    next buffer hkept =>
      have hlen : buffer.length = granted (wrap32 (needed + 64)) := by
        cases hdata : n.data with
        | none =>
          simp only [hdata, Option.some.injEq] at hkept
          rw [← hkept, hfill]
        | some old =>
          simp only [hdata] at hkept
          split at hkept
          · simp at hkept
          · split at hkept
            · rw [(blit_length hkept).2, hfill]
            · simp at hkept
      split at h
      · simp at h
      next s₁ hfree =>
        obtain ⟨rfl, rfl⟩ := Prod.mk.inj (Option.some.inj h)
        exact .moved hcap hk hlen hfree

theorem freeBuf_time {s' : Fs} {d : Option Ptr} (h : s.freeBuf d = some s') :
    s'.time = s.time := by
  unfold Fs.freeBuf at h
  split at h
  · rw [← Option.some.inj h]
  · split at h
    · simp at h
    · rw [← Option.some.inj h]

/-- What `fs_write` comes back with: there is no file, there is no memory, or the text is there
with a zero behind it. -/
inductive WriteResult (s : Fs) (src : List UInt8) (add : Nat) (append : Bool) :
    Option Ptr → Int → Fs → Prop
  | nobody : WriteResult s src add append none (-1) s
  | directory {f : Ptr} {n : FsNode} (hn : s.nodes.get f = some n) (hdir : n.type ≠ .file) :
      WriteResult s src add append (some f) (-1) s
  | denied {f : Ptr} {n : FsNode} {s₁ : Fs} (hn : s.nodes.get f = some n)
      (hfile : n.type = .file)
      (hgrow : growBuf env s f n (if append then n.size else 0)
        (wrap32 ((if append then n.size else 0) + add + 1)) = some (none, s₁)) :
      WriteResult s src add append (some f) (-1) s₁
  | written {f d : Ptr} {n n₁ : FsNode} {s₁ : Fs} {buf text out : List UInt8}
      (hn : s.nodes.get f = some n) (hfile : n.type = .file)
      (hgrow : growBuf env s f n (if append then n.size else 0)
        (wrap32 ((if append then n.size else 0) + add + 1)) = some (some n₁, s₁))
      (hd : n₁.data = some d) (hbuf : s₁.bufs.get d = some buf) (hsrc : add ≤ src.length)
      (htext : blit buf (if append then n.size else 0) (src.take add) = some text)
      (hout : blit text (wrap32 ((if append then n.size else 0) + add)) [0] = some out) :
      WriteResult s src add append (some f) 0
        { s₁.setNode f { n₁ with size := wrap32 ((if append then n.size else 0) + add) } with
          bufs := s₁.bufs.set d out }

theorem fsWriteN_cases {file : Option Ptr} {src : List UInt8} {add : Nat} {append : Bool}
    {res : Int} {s' : Fs} (h : fsWriteN env s file src add append = some (res, s')) :
    WriteResult env s src add append file res s' := by
  unfold fsWriteN at h
  cases file with
  | none =>
    obtain ⟨rfl, rfl⟩ := Prod.mk.inj (Option.some.inj h)
    exact .nobody
  | some f =>
    simp only at h
    split at h
    · simp at h
    next n hn =>
      by_cases hfile : n.type ≠ .file
      · rw [if_pos hfile] at h
        obtain ⟨rfl, rfl⟩ := Prod.mk.inj (Option.some.inj h)
        exact .directory hn hfile
      rw [if_neg hfile] at h
      rw [ne_eq, not_not] at hfile
      split at h
      · simp at h
      next s₁ hgrow =>
        obtain ⟨rfl, rfl⟩ := Prod.mk.inj (Option.some.inj h)
        exact .denied hn hfile hgrow
      next n₁ s₁ hgrow =>
        split at h
        · simp at h
        next d hd =>
          split at h
          · simp at h
          next buf hbuf =>
            split at h
            · simp at h
            next hsrc =>
              split at h
              · simp at h
              next text htext =>
                split at h
                · simp at h
                next out hout =>
                  obtain ⟨rfl, rfl⟩ := Prod.mk.inj (Option.some.inj h)
                  exact .written hn hfile hgrow hd hbuf (Nat.le_of_not_lt hsrc) htext hout

/-- A write to a file fails only for want of memory. -/
theorem fsWriteN_failed {env : Env} {s' : Fs} {f : Ptr} {n : FsNode} {src : List UInt8} {add : Nat} {append : Bool}
    (hn : s.nodes.get f = some n) (hfile : n.type = .file)
    (h : fsWriteN env s (some f) src add append = some (-1, s')) :
    env.kmalloc s.time s (wrap32 (wrap32 ((if append then n.size else 0) + add + 1) + 64)) = none := by
  cases fsWriteN_cases env h with
  | directory hn' hdir =>
    rw [hn] at hn'
    obtain rfl := Option.some.inj hn'
    exact absurd hfile hdir
  | denied hn' _ hgrow =>
    rw [hn] at hn'
    obtain rfl := Option.some.inj hn'
    cases growBuf_cases env hgrow with
    | denied hcap hk => exact hk

/-- A buffer for the file `f` that no other file has. -/
structure Buffered (s s' : Fs) (f : Ptr) (n n' : FsNode) (base : Nat) (buf : List UInt8) :
    Prop where
  node : s'.nodes.get f = some n'
  other : ∀ {q}, q ≠ f → s'.nodes.get q = s.nodes.get q
  kept : ∀ {q m d}, q ≠ f → s.nodes.get q = some m → m.data = some d →
    s'.bufs.get d = s.bufs.get d ∧ n'.data ≠ some d
  eq : ∃ d, n' = { n with data := some d, capacity := buf.length } ∧ s'.bufs.get d = some buf
  back : ∀ {d b}, s'.bufs.get d = some b → n'.data = some d ∨
    n.data ≠ some d ∧ ∃ b', s.bufs.get d = some b'
  small : buf.length + Mem.sizeofBlock ≤ Mem.heapMaxSize
  start : buf.take base = ((n.data.bind s.bufs.get).getD []).take base
  root : s'.rootNode = s.rootNode
  cwd : s'.currentDir = s.currentDir
  count : s'.nodeCount = s.nodeCount

/-- The buffer a file has. -/
theorem TreeInv.buffered (h : TreeInv s root kids) {f : Ptr} {n : FsNode}
    (hn : s.nodes.get f = some n) (hcap : 0 < n.capacity) (base : Nat) :
    ∃ buf, buf.length = n.capacity ∧ Buffered s s f n n base buf := by
  have hok := (h.ok hn).data
  unfold DataOk at hok
  cases hd : n.data with
  | none =>
    rw [hd] at hok
    omega
  | some d =>
    rw [hd] at hok
    obtain ⟨buf, hbuf, hlen, -, hsmall⟩ := hok
    refine ⟨buf, hlen, hn, fun _ => rfl, fun {q m e} hq hm he => ⟨rfl, fun hde => ?_⟩,
      ⟨d, ?_, hbuf⟩, fun {e b} he => ?_, by omega, by simp [hd, hbuf], rfl, rfl, rfl⟩
    · exact hq (h.owner hm hn he hde)
    · rw [hlen, ← hd]
    · by_cases hde : n.data = some e
      · exact Or.inl hde
      · exact Or.inr ⟨hde, b, he⟩

/-- Only the buffer `old` is gone, if there is one. -/
structure BufFreed (s s' : Fs) (old : Option Ptr) : Prop where
  nodes : s'.nodes = s.nodes
  kept : ∀ {e}, old ≠ some e → s'.bufs.get e = s.bufs.get e
  gone : ∀ {e}, old = some e → s'.bufs.get e = none
  root : s'.rootNode = s.rootNode
  cwd : s'.currentDir = s.currentDir
  count : s'.nodeCount = s.nodeCount

theorem TreeInv.freeBuf (h : TreeInv s root kids) {f : Ptr} {n : FsNode}
    (hn : s.nodes.get f = some n) (t : Nat) :
    ∃ s', Fs.freeBuf { s with time := t } n.data = some s' ∧ BufFreed s s' n.data := by
  cases hd : n.data with
  | none =>
    exact ⟨_, rfl, rfl, fun _ => rfl, fun he => absurd he (Option.some_ne_none _).symm, rfl, rfl,
      rfl⟩
  | some old =>
    obtain ⟨bytes, hbytes⟩ := h.owned.buf f (h.mem hn) n hn old hd
    refine ⟨{ s with time := t, bufs := s.bufs.erase old }, by simp only [Fs.freeBuf, hbytes], rfl,
      fun {e} he => Store.get_erase_other ?_, fun {e} he => ?_, rfl, rfl, rfl⟩
    · rintro rfl
      exact he rfl
    · obtain rfl := Option.some.inj he
      exact Store.get_erase_same _ _

/-- A buffer that is fresh, in the place of the one that is freed. -/
theorem TreeInv.buffered_new (h : TreeInv s root kids) {f d : Ptr} {n : FsNode} {s₁ : Fs}
    (hn : s.nodes.get f = some n) (hfresh : s.bufs.get d = none) (hf : BufFreed s s₁ n.data)
    (base : Nat) {buf : List UInt8} (hsmall : buf.length + Mem.sizeofBlock ≤ Mem.heapMaxSize)
    (hstart : buf.take base = ((n.data.bind s.bufs.get).getD []).take base) :
    Buffered s { s₁.setNode f { n with data := some d, capacity := buf.length } with
      bufs := s₁.bufs.set d buf } f n { n with data := some d, capacity := buf.length } base
      buf := by
  have hother : ∀ {q m e}, s.nodes.get q = some m → m.data = some e → e ≠ d := by
    rintro q m e hm he rfl
    obtain ⟨bytes, hbytes⟩ := h.owned.buf q (h.mem hm) m hm e he
    rw [hfresh] at hbytes
    exact absurd hbytes.symm (Option.some_ne_none bytes)
  refine ⟨Store.get_set_same _ _ _, fun hq => ?_, fun {q m e} hq hm he => ⟨?_, fun hc => ?_⟩,
    ⟨d, rfl, Store.get_set_same _ _ _⟩, fun {e b} he => ?_, hsmall, hstart, hf.root, hf.cwd,
    hf.count⟩
  · exact (Store.get_set_other hq).trans (by rw [hf.nodes])
  · exact (Store.get_set_other (hother hm he)).trans (hf.kept fun hd => hq (h.owner hm hn he hd))
  · exact hother hm he (Option.some.inj hc).symm
  · by_cases hed : e = d
    · exact Or.inl (by rw [hed])
    have he' : s₁.bufs.get e = some b := (Store.get_set_other hed).symm.trans he
    have hold : n.data ≠ some e := by
      intro hd
      rw [hf.gone hd] at he'
      exact absurd he'.symm (Option.some_ne_none b)
    exact Or.inr ⟨hold, b, (hf.kept hold).symm.trans he'⟩

/-- The first bytes of an old buffer, in a new one. -/
theorem blit_start {bytes fresh : List UInt8} {base : Nat} (hb : base ≤ bytes.length)
    (hf : base ≤ fresh.length) :
    ∃ buffer, blit fresh 0 (bytes.take base) = some buffer ∧ buffer.length = fresh.length ∧
      buffer.take base = bytes.take base := by
  have htake : (bytes.take base).length = base := by
    rw [List.length_take]
    omega
  have hblit := blit_eq (by omega : 0 + (bytes.take base).length ≤ fresh.length)
  refine ⟨_, hblit, (blit_length hblit).2, ?_⟩
  rw [List.take_zero, List.nil_append, List.take_left' htake]

theorem TreeInv.growBuf (h : TreeInv s root kids) {f : Ptr} {n : FsNode}
    (hn : s.nodes.get f = some n) {base needed : Nat} (hbase : base ≤ n.size)
    (hlt : base < needed) (hw : needed + 64 ≤ 0xFFFFFFF8) :
    ∃ r s₁, Ramfs.growBuf env s f n base needed = some (r, s₁) ∧
      ((r = none ∧ ∃ t, s₁ = { s with time := t }) ∨
        ∃ n₁ buf, r = some n₁ ∧ needed ≤ buf.length ∧ Buffered s s₁ f n n₁ base buf) := by
  unfold Ramfs.growBuf
  by_cases hcap : needed ≤ n.capacity
  · rw [if_pos hcap]
    obtain ⟨buf, hlen, hb⟩ := h.buffered hn (by omega) base
    exact ⟨some n, s, rfl, Or.inr ⟨n, buf, rfl, by omega, hb⟩⟩
  rw [if_neg hcap, wrap32_of_lt (by omega)]
  cases hk : env.kmalloc s.time s (needed + 64) with
  | none =>
    exact ⟨none, { s with time := s.time + 1 }, by simp only [Fs.alloc, hk],
      Or.inl ⟨rfl, _, rfl⟩⟩
  | some d =>
    obtain ⟨-, hfresh⟩ := env.kmalloc_fresh hk
    have hsmall := env.kmalloc_small hk
    have hround := Mem.le_roundUp hw
    have hfill := fill_length env s.time (needed + 64)
    obtain ⟨s₁, hfree, hf⟩ := h.freeBuf hn (s.time + 1)
    have hok := (h.ok hn).data
    unfold DataOk at hok
    simp only [Fs.alloc, hk, granted_eq hw]
    cases hd : n.data with
    | none =>
      rw [hd] at hok hfree
      have hzero : base = 0 := by omega
      have hb := h.buffered_new hn hfresh hf base
        (by omega : (env.fill s.time (needed + 64)).length + _ ≤ _) (by simp [hd, hzero])
      rw [hfill] at hb
      simp only [hfree]
      exact ⟨_, _, rfl, Or.inr ⟨_, _, rfl, by omega, hb⟩⟩
    | some old =>
      rw [hd] at hok hfree
      obtain ⟨bytes, hbytes, hcap, hsize, -⟩ := hok
      have hle : base ≤ bytes.length := by omega
      obtain ⟨buffer, hblit, hlen, hstart⟩ :=
        blit_start hle (by omega : base ≤ (env.fill s.time (needed + 64)).length)
      have hb := h.buffered_new hn hfresh hf base (by omega : buffer.length + _ ≤ _)
        (by simp only [hd, Option.bind_some, hbytes, Option.getD_some, hstart])
      rw [hlen, hfill] at hb
      simp only [hbytes, if_pos hle, hblit, hfree]
      exact ⟨_, _, rfl, Or.inr ⟨_, buffer, rfl, by omega, hb⟩⟩

/-- The file `f` has new contents, and everything else is as it was. -/
structure Written (s s' : Fs) (f : Ptr) (n : FsNode) (text : List UInt8) : Prop where
  node : ∃ n', s'.nodes.get f = some n' ∧ n'.name = n.name ∧ n'.type = n.type ∧
    contents s' n' = text ∧ n'.size = text.length
  other : ∀ {q}, q ≠ f → s'.nodes.get q = s.nodes.get q
  bufs : ∀ {q m d}, q ≠ f → s.nodes.get q = some m → m.data = some d →
    s'.bufs.get d = s.bufs.get d
  root : s'.rootNode = s.rootNode
  cwd : s'.currentDir = s.currentDir
  parent : ∀ {n'}, s'.nodes.get f = some n' → n'.parent = n.parent

/-- A text at `base` and a zero behind it, in a buffer that is long enough. -/
theorem blit_text {buf text : List UInt8} {base : Nat} (h : base + text.length < buf.length) :
    ∃ mid out, blit buf base text = some mid ∧ blit mid (base + text.length) [0] = some out ∧
      out.length = buf.length ∧ out.take (base + text.length) = buf.take base ++ text := by
  have hmid := blit_eq (by omega : base + text.length ≤ buf.length)
  obtain ⟨-, hmidlen⟩ := blit_length hmid
  have hout := blit_eq (by rw [hmidlen, List.length_singleton]; omega :
    base + text.length + [(0 : UInt8)].length ≤ _)
  refine ⟨_, _, hmid, hout, (blit_length hout).2.trans hmidlen, ?_⟩
  have hl : (buf.take base ++ text).length = base + text.length := by
    rw [List.length_append, List.length_take]
    omega
  rw [List.take_left' hl, List.append_assoc, List.take_left' hl]

section

variable {s₁ : Fs} {f d : Ptr} {n n₁ : FsNode} {base size : Nat} {buf out : List UInt8}

/-- A buffer whose bytes and size are set is another buffer for the file. -/
theorem Buffered.rebuffered (hb : Buffered s s₁ f n n₁ base buf) (hd : n₁.data = some d)
    (hlen : out.length = buf.length) (hsize : size < buf.length) :
    Rebuffered s { s₁.setNode f { n₁ with size := size } with bufs := s₁.bufs.set d out } f n
      { n₁ with size := size } d := by
  obtain ⟨e, rfl, -⟩ := hb.eq
  obtain rfl := Option.some.inj hd
  refine ⟨fun q => ?_, rfl, rfl, rfl, rfl, rfl, rfl, ?_, fun {q x} hq ho => ?_,
    fun {x b} hx => ?_, hb.root, hb.count⟩
  · by_cases hq : q = f
    · rw [if_pos hq, hq]
      exact Store.get_set_same _ _ _
    · rw [if_neg hq]
      exact (Store.get_set_other hq).trans (hb.other hq)
  · exact ⟨out, Store.get_set_same _ _ _, hlen, hsize, hb.small⟩
  · obtain ⟨m, hm, hx⟩ := ho
    obtain ⟨hkept, hne⟩ := hb.kept hq hm hx
    have hxe : x ≠ e := fun hc => hne (by rw [hc])
    exact ⟨(Store.get_set_other hxe).trans hkept, hxe⟩
  · by_cases hxe : x = e
    · exact Or.inl hxe
    · rcases hb.back ((Store.get_set_other hxe).symm.trans hx) with hc | hold
      · exact absurd (Option.some.inj hc).symm hxe
      · exact Or.inr hold

theorem Buffered.written (hb : Buffered s s₁ f n n₁ base buf) (hd : n₁.data = some d)
    (hsize : size ≤ out.length) :
    Written s { s₁.setNode f { n₁ with size := size } with bufs := s₁.bufs.set d out } f n
      (out.take size) := by
  obtain ⟨e, rfl, -⟩ := hb.eq
  obtain rfl := Option.some.inj hd
  refine ⟨⟨_, Store.get_set_same _ _ _, rfl, rfl, ?_, ?_⟩,
    fun hq => (Store.get_set_other hq).trans (hb.other hq), fun {q m x} hq hm hx => ?_, hb.root,
    hb.cwd, fun {m} hm => ?_⟩
  · simp only [contents, Option.bind_some, Store.get_set_same, Option.getD_some]
  · rw [List.length_take]
    exact (Nat.min_eq_left hsize).symm
  · obtain ⟨hkept, hne⟩ := hb.kept hq hm hx
    have hxe : x ≠ e := fun hc => hne (by rw [hc])
    exact (Store.get_set_other hxe).trans hkept
  · rw [← Option.some.inj ((Store.get_set_same _ _ _).symm.trans hm)]

end

/-- **Writing.** With lengths that do not wrap, a file gets its new contents or there is no
memory, and nothing else happens. -/
theorem TreeInv.write (h : TreeInv s root kids) {f : Ptr} {n : FsNode}
    (hn : s.nodes.get f = some n) (hfile : n.type = .file) {src : List UInt8} {add : Nat}
    (hsrc : add ≤ src.length) (append : Bool)
    (hw : (if append then n.size else 0) + add + 65 ≤ 0xFFFFFFF8) :
    ∃ res s', fsWriteN env s (some f) src add append = some (res, s') ∧
      ((res = -1 ∧ ∃ t, s' = { s with time := t }) ∨
        (res = 0 ∧ TreeInv s' root kids ∧
          Written s s' f n ((if append then contents s n else []) ++ src.take add))) := by
  obtain ⟨base, hbase⟩ : ∃ base, base = if append then n.size else 0 := ⟨_, rfl⟩
  rw [← hbase] at hw
  have hle : base ≤ n.size := by
    rw [hbase]
    split <;> omega
  have hneeded : wrap32 (base + add + 1) = base + add + 1 := wrap32_of_lt (by omega)
  have hsize : wrap32 (base + add) = base + add := wrap32_of_lt (by omega)
  have htake : (src.take add).length = add := by
    rw [List.length_take]
    omega
  unfold fsWriteN
  simp only [hn, ← hbase, hneeded, hsize]
  rw [if_neg (by simp [hfile])]
  obtain ⟨r, s₁, hgrow, hres⟩ := h.growBuf env hn hle (by omega : base < base + add + 1) (by omega)
  rw [hgrow]
  rcases hres with ⟨rfl, t, rfl⟩ | ⟨n₁, buf, rfl, hlen, hb⟩
  · exact ⟨-1, _, rfl, Or.inl ⟨rfl, t, rfl⟩⟩
  obtain ⟨d, rfl, hbuf⟩ := hb.eq
  obtain ⟨mid, out, hmid, hout, houtlen, htext⟩ :=
    blit_text (by omega : base + (src.take add).length < buf.length)
  rw [htake] at hout htext
  simp only [hbuf]
  rw [if_neg (by omega)]
  simp only [hmid, hout]
  have hwritten := hb.written rfl (by omega : base + add ≤ out.length)
  have hcontents : out.take (base + add) =
      (if append then contents s n else []) ++ src.take add := by
    rw [htext, hb.start, hbase]
    cases append <;> simp [contents]
  rw [hcontents] at hwritten
  exact ⟨0, _, rfl, Or.inr
    ⟨rfl, h.rebuffered hn hfile (hb.rebuffered rfl houtlen (by omega)), hwritten⟩⟩

theorem growBuf_small {f : Ptr} {n n₁ : FsNode} {base needed : Nat} {s₁ : Fs} (hok : DataOk s n)
    (h : growBuf env s f n base needed = some (some n₁, s₁)) {d : Ptr} {buf : List UInt8}
    (hd : n₁.data = some d) (hbuf : s₁.bufs.get d = some buf) :
    buf.length + Mem.sizeofBlock ≤ Mem.heapMaxSize := by
  cases growBuf_cases env h with
  | fits hcap =>
    unfold DataOk at hok
    rw [hd] at hok
    obtain ⟨b, hb, hlen, -, hsmall⟩ := hok
    rw [hbuf] at hb
    obtain rfl := Option.some.inj hb
    omega
  | moved hcap hk hlen hfree =>
    have hsmall := env.kmalloc_small hk
    obtain rfl := Option.some.inj hd
    obtain rfl := Option.some.inj ((Store.get_set_same _ _ _).symm.trans hbuf)
    have hround : granted (wrap32 (needed + 64)) ≤ Mem.roundUp (wrap32 (needed + 64)) :=
      Nat.min_le_right _ _
    omega

/-- A write that comes back has not wrapped around. -/
theorem TreeInv.write_small (h : TreeInv s root kids) {f : Ptr} {n : FsNode}
    (hn : s.nodes.get f = some n) {src : List UInt8} {add : Nat} {append : Bool} {res : Int}
    {s' : Fs} (hres : fsWriteN env s (some f) src add append = some (res, s')) :
    (res = -1 ∧ ∃ t, s' = { s with time := t }) ∨
      n.type = .file ∧ add ≤ src.length ∧
        (if append then n.size else 0) + add + 65 ≤ 0xFFFFFFF8 := by
  have hmax : Mem.heapMaxSize = 33554432 := rfl
  cases fsWriteN_cases env hres with
  | directory _ hdir => exact Or.inl ⟨rfl, s.time, rfl⟩
  | denied _ hfile hgrow =>
    -- only the request for memory came to nothing
    cases growBuf_cases env hgrow with
    | denied hcap hk => exact Or.inl ⟨rfl, _, rfl⟩
  | written hn' hfile hgrow hd hbuf hsrc htext hout =>
    rw [hn] at hn'
    obtain rfl := Option.some.inj hn'
    have hsmall := growBuf_small env (h.ok hn).data hgrow hd hbuf
    have hle := (blit_length htext).1
    rw [List.length_take] at hle
    exact Or.inr ⟨hfile, hsrc, by omega⟩

/-- **Writing, from its result.** -/
theorem TreeInv.write_cases (h : TreeInv s root kids) {file : Option Ptr} {src : List UInt8}
    {add : Nat} {append : Bool} {res : Int} {s' : Fs}
    (hres : fsWriteN env s file src add append = some (res, s')) :
    (res = -1 ∧ ∃ t, s' = { s with time := t }) ∨
      ∃ f n, file = some f ∧ s.nodes.get f = some n ∧ n.type = .file ∧ add ≤ src.length ∧
        TreeInv s' root kids ∧
        Written s s' f n ((if append then contents s n else []) ++ src.take add) := by
  cases file with
  | none =>
    simp only [fsWriteN, Option.some.injEq, Prod.mk.injEq] at hres
    exact Or.inl ⟨hres.1.symm, s.time, hres.2.symm⟩
  | some f =>
    cases hn : s.nodes.get f with
    | none => simp [fsWriteN, hn] at hres
    | some n =>
      rcases h.write_small env hn hres with hfail | ⟨hfile, hsrc, hw⟩
      · exact Or.inl hfail
      · obtain ⟨res', s'', hw', hcase⟩ := h.write env hn hfile hsrc append hw
        rw [hres] at hw'
        obtain ⟨rfl, rfl⟩ := Prod.mk.inj (Option.some.inj hw')
        rcases hcase with hfail | ⟨-, hinv, hwritten⟩
        · exact Or.inl hfail
        · exact Or.inr ⟨f, n, rfl, hn, hfile, hsrc, hinv, hwritten⟩

/-! ## The commands of the tree -/

/-- **Removing, by path.** -/
theorem TreeInv.fsRemove (h : TreeInv s root kids) {path : List UInt8} {r : Option Ptr}
    (hr : Ramfs.fsResolve s path = some r) :
    ∃ res s', Ramfs.fsRemove s path = some (res, s') ∧
      ((res ≠ 0 ∧ s' = s ∧
          ∀ node, r = some node → s.rootNode = some node ∨ s.currentDir = some node) ∨
        (res = 0 ∧ ∃ node c kids', r = some node ∧ s.currentDir ≠ some node ∧
          (tree root kids).sub node = some c ∧ TreeInv s' root kids' ∧
          Removed s s' (c.ids ++ [node]))) := by
  unfold Ramfs.fsRemove
  simp only [hr]
  cases r with
  | none => exact ⟨-1, s, rfl, Or.inl ⟨by simp, rfl, by simp⟩⟩
  | some node =>
    by_cases hroot : s.rootNode = some node
    · refine ⟨-1, s, by simp only [if_pos hroot], Or.inl ⟨by simp, rfl, ?_⟩⟩
      rintro q ⟨⟩
      exact Or.inl hroot
    by_cases hcwd : s.currentDir = some node
    · refine ⟨-2, s, by simp only [if_neg hroot, if_pos hcwd], Or.inl ⟨by simp, rfl, ?_⟩⟩
      rintro q ⟨⟩
      exact Or.inr hcwd
    have hmem : node ∈ (tree root kids).ids := by
      rcases h.fsResolve_mem hr with hm | hc
      · exact hm
      · exact absurd hc hcwd
    obtain ⟨n, hn⟩ := h.get hmem
    have hne : node ≠ root := by
      rintro rfl
      exact hroot h.isRoot
    obtain ⟨d, ch, c, kids', s₁, s', hd, -, -, hc, hunlink, hfree, -, hinv, hremoved⟩ :=
      h.remove hn hne
    refine ⟨0, s', ?_, Or.inr ⟨rfl, node, c, kids', rfl, hcwd, hc, hinv, hremoved⟩⟩
    simp only [if_neg hroot, if_neg hcwd, hn, hd, hunlink, hfree]

/-- The root is kept, without children, when everything below it is freed. -/
theorem Freed.below_root {s₁ : Fs} {rn : FsNode} (hf : Freed s s₁ kids.ids)
    (h : TreeInv s root kids) (hroot : root ∉ kids.ids) (hrn : s.nodes.get root = some rn) :
    Removed { s with currentDir := some root }
      { s₁.setNode root { rn with children := none } with currentDir := some root } kids.ids := by
  refine ⟨fun {q} hq => ?_, fun {q n} hq hn => ?_, fun {q} hq => ?_, fun {q n d} hq hn hd => ?_,
    fun {q n d} hq hn hd => hf.bufGone q hq n d hn hd, fun {d} hd => hf.bufNone d hd, hf.root, rfl⟩
  · refine (Store.get_set_other ?_).trans (by rw [hf.nodes, if_pos hq])
    rintro rfl
    exact hroot hq
  · by_cases hqr : q = root
    · subst hqr
      obtain rfl := Option.some.inj (hrn.symm.trans hn)
      exact ⟨_, Store.get_set_same _ _ _, ⟨rfl, rfl, rfl, rfl, rfl, rfl⟩⟩
    · refine ⟨n, (Store.get_set_other hqr).trans ?_, .refl n⟩
      rw [hf.nodes, if_neg hq]
      exact hn
  · have hqn : s.nodes.get q = none := hq
    refine (Store.get_set_other ?_).trans (by rw [hf.nodes, hqn, ite_self])
    rintro rfl
    rw [hrn] at hqn
    exact absurd hqn (Option.some_ne_none rn)
  · refine hf.bufs d fun r hr m hm hme => ?_
    exact hq (h.owner hn hm hd hme ▸ hr)

/-- **Starting again.** Only the root is left, and it is the working directory. -/
theorem TreeInv.fsReset (h : TreeInv s root kids) :
    ∃ s', Ramfs.fsReset env s = some s' ∧ TreeInv s' root nil ∧ Removed { s with
      currentDir := some root } s' kids.ids ∧ s'.currentDir = some root := by
  obtain ⟨rn, hrn⟩ := h.get h.root_mem
  obtain ⟨-, hparent, hkids, hnext⟩ := h.rep
  have hlink : (links s).children root = rn.children := by simp [links, hrn]
  rw [hlink] at hkids
  have hnd := h.nodup
  simp only [ids_cons, ids_nil, List.append_nil, List.nodup_cons] at hnd
  have hsub : kids.ids ⊆ (tree root kids).ids := fun x hx => by simp [hx]
  have hfuel : 2 * kids.ids.length ≤ s.freeFuel := by
    have hle := h.length_le
    simp only [ids_cons, ids_nil, List.append_nil, List.length_cons] at hle
    unfold Fs.freeFuel
    omega
  obtain ⟨s₁, hfree, hf⟩ := freeSiblings_spec hkids hnd.2 (h.owned.mono hsub) hfuel
  have hrn₁ : s₁.nodes.get root = some rn := by rw [hf.nodes, if_neg hnd.1, hrn]
  have hremoved := hf.below_root h hnd.1 hrn
  obtain ⟨s', hs'⟩ : ∃ s' : Fs,
      s' = { s₁.setNode root { rn with children := none } with currentDir := some root } := ⟨_, rfl⟩
  rw [← hs'] at hremoved
  refine ⟨s', ?_, ?_, hremoved, by rw [hs']⟩
  · unfold Ramfs.fsReset
    simp only [h.isRoot, hrn, hfree, hrn₁, hs']
  have h₀ : TreeInv { s with currentDir := some root } root kids := h.congr rfl rfl rfl rfl
  refine h₀.removed hremoved ?_ ?_ (fun {q n n'} hn hn' ht => ?_) (by rw [hs']; exact hf.count)
  · simp only [ids_cons, ids_nil, List.append_nil]
    exact (List.perm_append_singleton root kids.ids).symm
  · have hlinks : links s' =
        { links s₁ with children := fun q => if q = root then none else (links s₁).children q } := by
      rw [hs']
      exact links_setChildren hrn₁ none
    have hsame : (links s₁).parent root = (links s).parent root ∧
        (links s₁).next root = (links s).next root := by
      simp only [links, hrn, hrn₁, and_self]
    rw [hlinks]
    refine ⟨rfl, hsame.1.trans hparent, if_pos rfl, ?_⟩
    exact hsame.2.trans hnext
  · -- a file is not the root, and nothing else was set
    have hqr : q ≠ root := by
      rintro rfl
      rw [h₀.rootDir hn] at ht
      exact absurd ht (by decide)
    have hgone := (hremoved.back hn').1
    have hget : s'.nodes.get q = s.nodes.get q := by
      rw [hs']
      exact (Store.get_set_other hqr).trans (by rw [hf.nodes, if_neg hgone])
    obtain rfl := Option.some.inj (hn'.symm.trans (hget.trans hn))
    rfl

end LightningOS.Ramfs
