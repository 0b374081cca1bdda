import Mathlib.Data.List.Basic
import Mathlib.Data.List.Nodup

/-!
# Forests in memory

A forest is a list of trees. In memory every node has three links: to its parent, to its
first child and to its next sibling. `Rep` says that the links spell out a given forest,
and the lemmas say what is left of that when some links change. Nodes are never
repeated, so a node stands for the one place where it is.
-/

inductive Forest (P : Type) where
  | nil
  | cons (node : P) (children rest : Forest P)

namespace Forest

variable {P : Type}

/-! ## Nodes -/

/-- All nodes, parents before their children. -/
def ids : Forest P → List P
  | nil => []
  | cons a ch rest => a :: (ch.ids ++ rest.ids)

/-- The nodes of the first level. -/
def tops : Forest P → List P
  | nil => []
  | cons a _ rest => a :: rest.tops

/-- One node without children. -/
def single (a : P) : Forest P := cons a nil nil

def append : Forest P → Forest P → Forest P
  | nil, g => g
  | cons a ch rest, g => cons a ch (rest.append g)

@[simp] theorem ids_nil : (nil : Forest P).ids = [] := rfl

@[simp] theorem ids_cons (a : P) (ch rest : Forest P) :
    (cons a ch rest).ids = a :: (ch.ids ++ rest.ids) := rfl

@[simp] theorem ids_single (a : P) : (single a).ids = [a] := rfl

@[simp] theorem tops_nil : (nil : Forest P).tops = [] := rfl

@[simp] theorem tops_cons (a : P) (ch rest : Forest P) :
    (cons a ch rest).tops = a :: rest.tops := rfl

theorem ids_append (f g : Forest P) : (f.append g).ids = f.ids ++ g.ids := by
  induction f with
  | nil => rfl
  | cons a ch rest _ ih => simp [append, ih]

theorem tops_append (f g : Forest P) : (f.append g).tops = f.tops ++ g.tops := by
  induction f with
  | nil => rfl
  | cons a ch rest _ ih => simp [append, ih]

theorem append_nil (f : Forest P) : f.append nil = f := by
  induction f with
  | nil => rfl
  | cons a ch rest _ ih => rw [append, ih]

theorem append_assoc (f g h : Forest P) : (f.append g).append h = f.append (g.append h) := by
  induction f with
  | nil => rfl
  | cons a ch rest _ ih => simp only [append, ih]

theorem tops_subset (f : Forest P) : f.tops ⊆ f.ids := by
  induction f with
  | nil => simp
  | cons a ch rest _ ih =>
    intro x hx
    rcases List.mem_cons.mp hx with rfl | hx
    · exact List.mem_cons_self
    · exact List.mem_cons_of_mem _ (List.mem_append_right _ (ih hx))

/-- The last node of the first level. -/
def lastTop : Forest P → Option P
  | nil => none
  | cons a _ nil => some a
  | cons _ _ (cons b ch rest) => lastTop (cons b ch rest)

theorem lastTop_mem {f : Forest P} {q : P} (h : f.lastTop = some q) : q ∈ f.tops := by
  induction f with
  | nil => simp [lastTop] at h
  | cons a ch rest _ ih =>
    cases rest with
    | nil =>
      obtain rfl := Option.some.inj h
      exact List.mem_cons_self
    | cons b ch' rest' => exact List.mem_cons_of_mem _ (ih h)

/-! ## Links -/

/-- Three links for every node. -/
structure Links (P : Type) where
  parent : P → Option P
  children : P → Option P
  next : P → Option P

/-- The links from `head` on spell out the forest, and its first level points up to `up`. -/
def Rep (L : Links P) : Option P → Option P → Forest P → Prop
  | _, head, nil => head = none
  | up, head, cons a ch rest =>
    head = some a ∧ L.parent a = up ∧ Rep L (some a) (L.children a) ch ∧ Rep L up (L.next a) rest

variable {L L' : Links P} {up head : Option P} {f g : Forest P}

theorem Rep.congr (h : Rep L up head f) (hp : ∀ x ∈ f.ids, L'.parent x = L.parent x)
    (hc : ∀ x ∈ f.ids, L'.children x = L.children x) (hx : ∀ x ∈ f.ids, L'.next x = L.next x) :
    Rep L' up head f := by
  induction f generalizing up head with
  | nil => exact h
  | cons a ch rest ihc ihr =>
    obtain ⟨h1, h2, h3, h4⟩ := h
    simp only [ids_cons, List.mem_cons, List.mem_append] at hp hc hx
    refine ⟨h1, ?_, ?_, ?_⟩
    · rw [hp a (Or.inl rfl)]
      exact h2
    · rw [hc a (Or.inl rfl)]
      exact ihc h3 (fun x h => hp x (Or.inr (Or.inl h))) (fun x h => hc x (Or.inr (Or.inl h)))
        fun x h => hx x (Or.inr (Or.inl h))
    · rw [hx a (Or.inl rfl)]
      exact ihr h4 (fun x h => hp x (Or.inr (Or.inr h))) (fun x h => hc x (Or.inr (Or.inr h)))
        fun x h => hx x (Or.inr (Or.inr h))

instance decidableRep [DecidableEq P] (L : Links P) :
    (up head : Option P) → (f : Forest P) → Decidable (Rep L up head f)
  | _, head, nil => inferInstanceAs (Decidable (head = none))
  | up, head, cons a ch rest =>
    have := decidableRep L (some a) (L.children a) ch
    have := decidableRep L up (L.next a) rest
    inferInstanceAs (Decidable (head = some a ∧ L.parent a = up ∧
      Rep L (some a) (L.children a) ch ∧ Rep L up (L.next a) rest))

/-- The links determine the forest. -/
theorem Rep.unique (hf : Rep L up head f) (hg : Rep L up head g) : f = g := by
  induction f generalizing up head g with
  | nil =>
    cases g with
    | nil => rfl
    | cons b ch rest =>
      have hnone : head = none := hf
      rw [hg.1] at hnone
      exact absurd hnone (Option.some_ne_none b)
  | cons a ch rest ihc ihr =>
    obtain ⟨ha, -, hch, hrest⟩ := hf
    cases g with
    | nil =>
      have hnone : head = none := hg
      rw [ha] at hnone
      exact absurd hnone (Option.some_ne_none a)
    | cons b ch' rest' =>
      obtain ⟨hb, -, hch', hrest'⟩ := hg
      obtain rfl := Option.some.inj (ha.symm.trans hb)
      rw [ihc hch hch', ihr hrest hrest']

theorem Rep.head_eq (h : Rep L up head f) : head = f.tops.head? := by
  cases f with
  | nil => exact h
  | cons a ch rest => exact h.1

theorem Rep.parent_eq (h : Rep L up head f) {x : P} (hx : x ∈ f.tops) : L.parent x = up := by
  induction f generalizing head with
  | nil => simp at hx
  | cons a ch rest _ ih =>
    rcases List.mem_cons.mp hx with rfl | hx
    · exact h.2.1
    · exact ih h.2.2.2 hx

/-- No node is its own next sibling. -/
theorem Rep.next_ne (h : Rep L up head f) (hn : f.ids.Nodup) {x : P} (hx : x ∈ f.tops) :
    L.next x ≠ some x := by
  induction f generalizing head with
  | nil => simp at hx
  | cons a ch rest _ ih =>
    simp only [ids_cons, List.nodup_cons, List.nodup_append, List.mem_append, not_or] at hn
    rcases List.mem_cons.mp hx with rfl | hx
    · intro hnext
      have hhead := h.2.2.2.head_eq
      rw [hnext] at hhead
      exact hn.1.2 (tops_subset _ (List.mem_of_mem_head? hhead.symm))
    · exact ih h.2.2.2 hn.2.2.1 hx

/-- Linking another forest behind the last node of the first level. -/
theorem Rep.append (h : Rep L up head f) (hn : f.ids.Nodup) {last : P} {head' : Option P}
    (hlast : f.lastTop = some last) (hp : ∀ x ∈ f.ids, L'.parent x = L.parent x)
    (hc : ∀ x ∈ f.ids, L'.children x = L.children x)
    (hx : ∀ x ∈ f.ids, x ≠ last → L'.next x = L.next x) (hnext : L'.next last = head')
    (hg : Rep L' up head' g) : Rep L' up head (f.append g) := by
  induction f generalizing head with
  | nil => simp [lastTop] at hlast
  | cons a ch rest _ ihr =>
    obtain ⟨h1, h2, h3, h4⟩ := h
    simp only [ids_cons, List.nodup_cons, List.nodup_append, List.mem_append, not_or] at hn
    obtain ⟨⟨hac, har⟩, hnc, hnr, hdis⟩ := hn
    simp only [ids_cons, List.mem_cons, List.mem_append] at hp hc hx
    have hch : last ∉ ch.ids → Rep L' (some a) (L'.children a) ch := by
      intro hl
      rw [hc a (Or.inl rfl)]
      exact h3.congr (fun x h => hp x (Or.inr (Or.inl h))) (fun x h => hc x (Or.inr (Or.inl h)))
        fun x h => hx x (Or.inr (Or.inl h)) fun he => hl (he ▸ h)
    cases rest with
    | nil =>
      obtain rfl := Option.some.inj hlast
      refine ⟨h1, ?_, hch hac, ?_⟩
      · rw [hp a (Or.inl rfl), h2]
      · rw [hnext]
        exact hg
    | cons b ch' rest' =>
      have hlast' : (cons b ch' rest').lastTop = some last := hlast
      have hin := tops_subset _ (lastTop_mem hlast')
      have hne : a ≠ last := by
        rintro rfl
        exact har hin
      refine ⟨h1, ?_, hch fun hc => hdis last hc last hin rfl, ?_⟩
      · rw [hp a (Or.inl rfl), h2]
      · rw [hx a (Or.inl rfl) hne]
        exact ihr h4 hnr hlast (fun x h => hp x (Or.inr (Or.inr h)))
          (fun x h => hc x (Or.inr (Or.inr h))) fun x h => hx x (Or.inr (Or.inr h))

/-! ## Ancestors -/

/-- `a` is on the way up from a node, but not the node itself. -/
inductive Above (L : Links P) (a : P) : P → Prop
  | parent {p : P} : L.parent p = some a → Above L a p
  | trans {p q : P} : L.parent p = some q → Above L a q → Above L a p

theorem Above.step_up {a b x : P} (h : Above L b x) (hb : L.parent b = some a) : Above L a x := by
  induction h with
  | parent hp => exact .trans hp (.parent hb)
  | trans hp _ ih => exact .trans hp ih

theorem Rep.above {a : P} (h : Rep L (some a) head f) {x : P} (hx : x ∈ f.ids) : Above L a x := by
  induction f generalizing a head with
  | nil => simp at hx
  | cons b ch rest ihc ihr =>
    obtain ⟨-, h2, h3, h4⟩ := h
    simp only [ids_cons, List.mem_cons, List.mem_append] at hx
    rcases hx with rfl | hx | hx
    · exact .parent h2
    · exact (ihc h3 hx).step_up h2
    · exact ihr h4 hx

/-! ## The children of a node -/

variable [DecidableEq P]

/-- What is below a node. -/
def sub (d : P) : Forest P → Option (Forest P)
  | nil => none
  | cons a ch rest =>
    if a = d then some ch
    else
      match ch.sub d with
      | some f => some f
      | none => rest.sub d

theorem sub_of_notMem {d : P} {f : Forest P} (h : d ∉ f.ids) : f.sub d = none := by
  induction f with
  | nil => rfl
  | cons a ch rest ihc ihr =>
    simp only [ids_cons, List.mem_cons, List.mem_append, not_or] at h
    rw [sub, if_neg (Ne.symm h.1), ihc h.2.1]
    exact ihr h.2.2

theorem exists_sub {d : P} {f : Forest P} (h : d ∈ f.ids) : ∃ ch, f.sub d = some ch := by
  induction f with
  | nil => simp at h
  | cons a ch rest ihc ihr =>
    rw [sub]
    by_cases had : a = d
    · exact ⟨ch, if_pos had⟩
    rw [if_neg had]
    cases hc : ch.sub d with
    | some g => exact ⟨g, rfl⟩
    | none =>
      simp only [ids_cons, List.mem_cons, List.mem_append] at h
      rcases h with rfl | h | h
      · exact absurd rfl had
      · obtain ⟨g, hg⟩ := ihc h
        rw [hc] at hg
        simp at hg
      · exact ihr h

theorem mem_of_sub {d : P} {f ch : Forest P} (h : f.sub d = some ch) : d ∈ f.ids := by
  by_contra hd
  rw [sub_of_notMem hd] at h
  simp at h

theorem sub_single (a d : P) : (single a).sub d = if a = d then some nil else none := by
  unfold single
  rw [sub]
  split <;> rfl

theorem sub_append (d : P) (f g : Forest P) :
    (f.append g).sub d = match f.sub d with
      | some ch => some ch
      | none => g.sub d := by
  induction f with
  | nil => rfl
  | cons a ch rest _ ih =>
    rw [append, sub, sub]
    by_cases had : a = d
    · rw [if_pos had, if_pos had]
    · rw [if_neg had, if_neg had]
      cases ch.sub d with
      | some f => rfl
      | none => exact ih

/-- A node of the first level is not below another node. -/
theorem sub_cases {d : P} {a : P} {ch rest g : Forest P} (h : (cons a ch rest).sub d = some g) :
    (a = d ∧ g = ch) ∨ (a ≠ d ∧ ch.sub d = some g) ∨
      (a ≠ d ∧ ch.sub d = none ∧ rest.sub d = some g) := by
  rw [sub] at h
  by_cases had : a = d
  · rw [if_pos had] at h
    exact Or.inl ⟨had, (Option.some.inj h).symm⟩
  · rw [if_neg had] at h
    cases hc : ch.sub d with
    | some g' =>
      rw [hc] at h
      exact Or.inr (Or.inl ⟨had, h⟩)
    | none =>
      rw [hc] at h
      exact Or.inr (Or.inr ⟨had, rfl, h⟩)

theorem sub_subset {d : P} {f ch : Forest P} (h : f.sub d = some ch) : ch.ids ⊆ f.ids := by
  induction f with
  | nil => simp [sub] at h
  | cons a ch' rest ihc ihr =>
    intro x hx
    simp only [ids_cons, List.mem_cons, List.mem_append]
    rcases sub_cases h with ⟨-, rfl⟩ | ⟨-, h⟩ | ⟨-, -, h⟩
    · exact Or.inr (Or.inl hx)
    · exact Or.inr (Or.inl (ihc h hx))
    · exact Or.inr (Or.inr (ihr h hx))

/-- Nodes are not repeated below, and a node is not below itself. -/
theorem sub_nodup {d : P} {f ch : Forest P} (hn : f.ids.Nodup) (h : f.sub d = some ch) :
    (d :: ch.ids).Nodup := by
  induction f with
  | nil => simp [sub] at h
  | cons a ch' rest ihc ihr =>
    have hn' := hn
    simp only [ids_cons, List.nodup_cons, List.nodup_append] at hn
    rcases sub_cases h with ⟨rfl, rfl⟩ | ⟨-, h⟩ | ⟨-, -, h⟩
    · exact List.nodup_cons.mpr ⟨fun hc => hn.1 (List.mem_append_left _ hc), hn.2.1⟩
    · exact ihc hn.2.1 h
    · exact ihr hn.2.2.1 h

theorem sub_trans {d e : P} {f ch g : Forest P} (hn : f.ids.Nodup) (h : f.sub d = some ch)
    (he : ch.sub e = some g) : f.sub e = some g := by
  induction f with
  | nil => simp [sub] at h
  | cons a ch' rest ihc ihr =>
    simp only [ids_cons, List.nodup_cons, List.nodup_append, List.mem_append, not_or] at hn
    obtain ⟨⟨hac, har⟩, hnc, hnr, hdis⟩ := hn
    have hmem := mem_of_sub he
    have hne : e ∈ ch'.ids ∨ e ∈ rest.ids → a ≠ e := by
      rintro hc rfl
      exact hc.elim hac har
    rw [sub]
    rcases sub_cases h with ⟨rfl, rfl⟩ | ⟨-, h⟩ | ⟨-, -, h⟩
    · rw [if_neg (hne (Or.inl hmem)), he]
    · rw [if_neg (hne (Or.inl (sub_subset h hmem))), ihc hnc h]
    · have hin := sub_subset h hmem
      rw [if_neg (hne (Or.inr hin)), ihr hnr h,
        sub_of_notMem fun hc => hdis e hc e hin rfl]

/-! ## Changing the children of a node -/

/-- `g` applied to what is below `d`. -/
def update (d : P) (g : Forest P → Forest P) : Forest P → Forest P
  | nil => nil
  | cons a ch rest =>
    if a = d then cons a (g ch) rest else cons a (ch.update d g) (rest.update d g)

/-- Without the tree of `p`, if `p` is on the first level. -/
def dropTop (p : P) : Forest P → Forest P
  | nil => nil
  | cons a ch rest => if a = p then rest else cons a ch (rest.dropTop p)

theorem update_of_notMem {d : P} (g : Forest P → Forest P) {f : Forest P} (h : d ∉ f.ids) :
    f.update d g = f := by
  induction f with
  | nil => rfl
  | cons a ch rest ihc ihr =>
    simp only [ids_cons, List.mem_cons, List.mem_append, not_or] at h
    rw [update, if_neg (Ne.symm h.1), ihc h.2.1, ihr h.2.2]

theorem tops_update (d : P) (g : Forest P → Forest P) (f : Forest P) :
    (f.update d g).tops = f.tops := by
  induction f with
  | nil => rfl
  | cons a ch rest _ ih =>
    rw [update]
    split
    · rfl
    · rw [tops_cons, tops_cons, ih]

theorem update_id {d : P} {g : Forest P → Forest P} (hg : ∀ f, g f = f) (f : Forest P) :
    f.update d g = f := by
  induction f with
  | nil => rfl
  | cons a ch rest ihc ihr =>
    rw [update, hg, ihc, ihr]
    split <;> rfl

/-- Two updates of the same node. -/
theorem update_update (d : P) (g g' : Forest P → Forest P) (f : Forest P) :
    (f.update d g).update d g' = f.update d fun ch => g' (g ch) := by
  induction f with
  | nil => rfl
  | cons a ch rest ihc ihr =>
    rw [update, update]
    by_cases had : a = d
    · rw [if_pos had, if_pos had, update, if_pos had]
    · rw [if_neg had, if_neg had, update, if_neg had, ihc, ihr]

theorem update_append {p : P} (g : Forest P → Forest P) {f : Forest P} (h : p ∉ f.ids)
    (f' : Forest P) : (f.append f').update p g = f.append (f'.update p g) := by
  induction f with
  | nil => rfl
  | cons a ch rest _ ih =>
    simp only [ids_cons, List.mem_cons, List.mem_append, not_or] at h
    rw [append, update, if_neg (Ne.symm h.1), update_of_notMem g h.2.1, ih h.2.2, append]

/-- A new node, and then what is below it. -/
theorem update_new {d p : P} (c : Forest P) {f : Forest P} (h : p ∉ f.ids) :
    (f.update d (·.append (single p))).update p (·.append c) =
      f.update d (·.append (cons p c nil)) := by
  induction f with
  | nil => rfl
  | cons a ch rest ihc ihr =>
    simp only [ids_cons, List.mem_cons, List.mem_append, not_or] at h
    rw [update, update]
    by_cases had : a = d
    · rw [if_pos had, if_pos had, update, if_neg (Ne.symm h.1), update_append _ h.2.1,
        update_of_notMem _ h.2.2, single, update, if_pos rfl]
      rfl
    · rw [if_neg had, if_neg had, update, if_neg (Ne.symm h.1), ihc h.2.1, ihr h.2.2]

/-- An update in the tree of the first node, or in the others. -/
theorem update_cases {d a : P} {ch rest f' : Forest P} (g : Forest P → Forest P)
    (hn : (cons a ch rest).ids.Nodup) (h : (cons a ch rest).sub d = some f') :
    (a = d ∧ f' = ch ∧ (cons a ch rest).update d g = cons a (g ch) rest) ∨
      (a ≠ d ∧ ch.sub d = some f' ∧
        (cons a ch rest).update d g = cons a (ch.update d g) rest) ∨
      (a ≠ d ∧ rest.sub d = some f' ∧ d ∉ ch.ids ∧
        (cons a ch rest).update d g = cons a ch (rest.update d g)) := by
  simp only [ids_cons, List.nodup_cons, List.nodup_append] at hn
  obtain ⟨-, -, -, hdis⟩ := hn
  rw [update]
  rcases sub_cases h with ⟨rfl, rfl⟩ | ⟨hne, h⟩ | ⟨hne, -, h⟩
  · exact Or.inl ⟨rfl, rfl, if_pos rfl⟩
  · have hr : d ∉ rest.ids := fun hc => hdis d (mem_of_sub h) d hc rfl
    exact Or.inr (Or.inl ⟨hne, h, by rw [if_neg hne, update_of_notMem g hr]⟩)
  · have hc : d ∉ ch.ids := fun hc => hdis d hc d (mem_of_sub h) rfl
    exact Or.inr (Or.inr ⟨hne, h, hc, by rw [if_neg hne, update_of_notMem g hc]⟩)

/-- The nodes that an update of `d` does not touch. -/
theorem ids_update {d : P} {f ch : Forest P} (hn : f.ids.Nodup) (h : f.sub d = some ch) :
    ∃ out : List P, f.ids.Perm (ch.ids ++ out) ∧
      ∀ g : Forest P → Forest P, (f.update d g).ids.Perm ((g ch).ids ++ out) := by
  induction f with
  | nil => simp [sub] at h
  | cons a ch' rest ihc ihr =>
    have hn' := hn
    simp only [ids_cons, List.nodup_cons, List.nodup_append] at hn
    obtain ⟨-, hnc, hnr, -⟩ := hn
    rcases sub_cases h with ⟨rfl, rfl⟩ | ⟨hne, h'⟩ | ⟨hne, -, h'⟩
    · refine ⟨a :: rest.ids, List.perm_middle.symm, fun g => ?_⟩
      rw [update, if_pos rfl]
      exact List.perm_middle.symm
    · obtain ⟨out, hout, hg⟩ := ihc hnc h'
      refine ⟨a :: (out ++ rest.ids), ?_, fun g => ?_⟩
      · refine (List.Perm.cons a (hout.append_right _)).trans ?_
        rw [List.append_assoc]
        exact List.perm_middle.symm
      · rcases update_cases g hn' h with ⟨he, -⟩ | ⟨-, -, heq⟩ | ⟨-, -, hd, -⟩
        · exact absurd he hne
        · rw [heq]
          refine (List.Perm.cons a ((hg g).append_right _)).trans ?_
          rw [List.append_assoc]
          exact List.perm_middle.symm
        · exact absurd (mem_of_sub h') hd
    · obtain ⟨out, hout, hg⟩ := ihr hnr h'
      have hswap : ∀ l m : List P, (l ++ (m ++ out)).Perm (m ++ (l ++ out)) := fun l m => by
        rw [← List.append_assoc, ← List.append_assoc]
        exact List.perm_append_comm.append_right _
      refine ⟨a :: (ch'.ids ++ out), ?_, fun g => ?_⟩
      · refine (List.Perm.cons a (hout.append_left _)).trans ?_
        exact (List.Perm.cons a (hswap _ _)).trans List.perm_middle.symm
      · rcases update_cases g hn' h with ⟨he, -⟩ | ⟨-, h'', -⟩ | ⟨-, -, -, heq⟩
        · exact absurd he hne
        · have hnd := hn'
          simp only [ids_cons, List.nodup_cons, List.nodup_append] at hnd
          exact absurd rfl (hnd.2.2.2 d (mem_of_sub h'') d (mem_of_sub h'))
        · rw [heq]
          refine (List.Perm.cons a ((hg g).append_left _)).trans ?_
          exact (List.Perm.cons a (hswap _ _)).trans List.perm_middle.symm

/-- One more node, behind the children of `d`. -/
theorem ids_update_append {d p : P} {f ch : Forest P} (hn : f.ids.Nodup) (h : f.sub d = some ch) :
    (f.update d (·.append (single p))).ids.Perm (p :: f.ids) := by
  obtain ⟨out, hout, hout'⟩ := ids_update hn h
  refine (hout' _).trans ?_
  rw [ids_append, ids_single, List.append_assoc, List.singleton_append]
  exact List.perm_middle.trans (List.Perm.cons p hout.symm)

theorem ids_dropTop {p : P} {f ch : Forest P} (hn : f.ids.Nodup) (hp : p ∈ f.tops)
    (h : f.sub p = some ch) : f.ids.Perm (p :: ch.ids ++ (f.dropTop p).ids) := by
  induction f with
  | nil => simp at hp
  | cons a ch' rest _ ihr =>
    have hn' := hn
    simp only [ids_cons, List.nodup_cons, List.nodup_append, List.mem_append, not_or] at hn
    obtain ⟨⟨-, har⟩, -, hnr, hdis⟩ := hn
    rw [dropTop]
    by_cases hap : a = p
    · subst hap
      rw [sub, if_pos rfl] at h
      obtain rfl := Option.some.inj h
      rw [if_pos rfl]
      rfl
    · have hpr : p ∈ rest.tops := by
        rcases List.mem_cons.mp hp with rfl | hp
        · exact absurd rfl hap
        · exact hp
      have hpids := tops_subset _ hpr
      have hpc : p ∉ ch'.ids := fun hc => hdis p hc p hpids rfl
      rw [sub, if_neg hap, sub_of_notMem hpc] at h
      rw [if_neg hap]
      have ih := ihr hnr hpr h
      refine (List.Perm.cons a (ih.append_left ch'.ids)).trans ?_
      have hmove : (ch'.ids ++ (p :: ch.ids ++ (rest.dropTop p).ids)).Perm
          (p :: ch.ids ++ (ch'.ids ++ (rest.dropTop p).ids)) := by
        rw [← List.append_assoc, ← List.append_assoc]
        exact List.perm_append_comm.append_right _
      exact (List.Perm.cons a hmove).trans List.perm_middle.symm

/-- The tree of a child of `d`, and the others. -/
theorem ids_update_dropTop {d p : P} {f ch c : Forest P} (hn : f.ids.Nodup)
    (h : f.sub d = some ch) (hp : p ∈ ch.tops) (hc : f.sub p = some c) :
    f.ids.Perm ((c.ids ++ [p]) ++ (f.update d (dropTop p)).ids) := by
  obtain ⟨c', hc'⟩ := exists_sub (tops_subset _ hp)
  obtain rfl := Option.some.inj (hc.symm.trans (sub_trans hn h hc'))
  obtain ⟨out, hout, hout'⟩ := ids_update hn h
  have hdrop := ids_dropTop (List.nodup_cons.mp (sub_nodup hn h)).2 hp hc'
  calc List.Perm f.ids (ch.ids ++ out) := hout
    List.Perm _ ((p :: c.ids ++ (ch.dropTop p).ids) ++ out) := hdrop.append_right out
    List.Perm _ ((p :: c.ids) ++ ((ch.dropTop p).ids ++ out)) := by rw [List.append_assoc]
    List.Perm _ ((c.ids ++ [p]) ++ (f.update d (dropTop p)).ids) :=
      (List.perm_append_singleton p c.ids).symm.append (hout' _).symm

/-- What is below a node is not on the first level. -/
theorem notMem_tops_of_sub {p x : P} {f c : Forest P} (hn : f.ids.Nodup) (h : f.sub p = some c)
    (hx : x ∈ c.ids) : x ∉ f.tops := by
  induction f with
  | nil => simp
  | cons a ch rest _ ihr =>
    simp only [ids_cons, List.nodup_cons, List.nodup_append, List.mem_append, not_or] at hn
    obtain ⟨⟨hac, har⟩, -, hnr, hdis⟩ := hn
    have hbelow : x ∈ ch.ids → x ∉ (cons a ch rest).tops := by
      rintro hxc ht
      rcases List.mem_cons.mp ht with rfl | ht
      · exact hac hxc
      · exact hdis x hxc x (tops_subset _ ht) rfl
    rcases sub_cases h with ⟨-, rfl⟩ | ⟨-, h'⟩ | ⟨-, -, h'⟩
    · exact hbelow hx
    · exact hbelow (sub_subset h' hx)
    · intro ht
      rcases List.mem_cons.mp ht with rfl | ht
      · exact har (sub_subset h' hx)
      · exact ihr hnr h' ht

/-- Every node but `d` keeps its children when `p` is linked behind those of `d`. -/
theorem tops_sub_append {d p x : P} (hx : x ≠ p) (f : Forest P) :
    ((f.update d (·.append (single p))).sub x).map tops =
      (f.sub x).map fun ch => if x = d then ch.tops ++ [p] else ch.tops := by
  induction f with
  | nil => rfl
  | cons a ch rest ihc ihr =>
    rw [update]
    by_cases had : a = d
    · rw [if_pos had, sub, sub]
      by_cases hax : a = x
      · have hxd : x = d := hax.symm.trans had
        rw [if_pos hax, if_pos hax, Option.map_some, Option.map_some, if_pos hxd, tops_append]
        rfl
      · have hxd : x ≠ d := fun he => hax (had.trans he.symm)
        rw [if_neg hax, if_neg hax, sub_append, sub_single, if_neg (Ne.symm hx)]
        simp only [if_neg hxd]
        cases ch.sub x <;> rfl
    · rw [if_neg had, sub, sub]
      by_cases hax : a = x
      · have hxd : x ≠ d := fun he => had (hax.trans he)
        rw [if_pos hax, if_pos hax, Option.map_some, Option.map_some, if_neg hxd, tops_update]
      · rw [if_neg hax, if_neg hax]
        cases hc : ch.sub x with
        | none =>
          rw [hc, Option.map_none, Option.map_eq_none_iff] at ihc
          rw [ihc]
          exact ihr
        | some g =>
          rw [hc, Option.map_some] at ihc
          obtain ⟨g', hg', htops⟩ := Option.map_eq_some_iff.mp ihc
          rw [hg']
          exact congrArg some htops

/-! ## Deleting a tree -/

/-- Without the tree of `p`, wherever it is. -/
def delete (p : P) : Forest P → Forest P
  | nil => nil
  | cons a ch rest => if a = p then rest else cons a (ch.delete p) (rest.delete p)

theorem delete_of_notMem {p : P} {f : Forest P} (h : p ∉ f.ids) : f.delete p = f := by
  induction f with
  | nil => rfl
  | cons a ch rest ihc ihr =>
    simp only [ids_cons, List.mem_cons, List.mem_append, not_or] at h
    rw [delete, if_neg (Ne.symm h.1), ihc h.2.1, ihr h.2.2]

theorem dropTop_eq_delete {p : P} {f : Forest P} (hn : f.ids.Nodup) (hp : p ∈ f.tops) :
    f.dropTop p = f.delete p := by
  induction f with
  | nil => simp at hp
  | cons a ch rest _ ihr =>
    simp only [ids_cons, List.nodup_cons, List.nodup_append] at hn
    obtain ⟨-, -, hnr, hdis⟩ := hn
    rw [dropTop, delete]
    by_cases hap : a = p
    · rw [if_pos hap, if_pos hap]
    · rw [if_neg hap, if_neg hap]
      have hpr : p ∈ rest.tops := by
        rcases List.mem_cons.mp hp with rfl | hp
        · exact absurd rfl hap
        · exact hp
      have hpc : p ∉ ch.ids := fun hc => hdis p hc p (tops_subset _ hpr) rfl
      rw [delete_of_notMem hpc, ihr hnr hpr]

/-- Dropping a child of `d` deletes it. -/
theorem update_dropTop {d p : P} {f ch : Forest P} (hn : f.ids.Nodup) (h : f.sub d = some ch)
    (hp : p ∈ ch.tops) : f.update d (dropTop p) = f.delete p := by
  induction f with
  | nil => simp [sub] at h
  | cons a ch' rest ihc ihr =>
    have hn' := hn
    have hpids := tops_subset _ hp
    simp only [ids_cons, List.nodup_cons, List.nodup_append, List.mem_append, not_or] at hn
    obtain ⟨⟨hac, har⟩, hnc, hnr, hdis⟩ := hn
    rcases update_cases (dropTop p) hn' h with ⟨rfl, rfl, heq⟩ | ⟨-, h', heq⟩ | ⟨-, h', -, heq⟩
    · have hap : a ≠ p := by
        rintro rfl
        exact hac hpids
      have hpr : p ∉ rest.ids := fun hc => hdis p hpids p hc rfl
      rw [heq, delete, if_neg hap, dropTop_eq_delete hnc hp, delete_of_notMem hpr]
    · have hpc := sub_subset h' hpids
      have hap : a ≠ p := by
        rintro rfl
        exact hac hpc
      have hpr : p ∉ rest.ids := fun hc => hdis p hpc p hc rfl
      rw [heq, delete, if_neg hap, ihc hnc h', delete_of_notMem hpr]
    · have hpr := sub_subset h' hpids
      have hap : a ≠ p := by
        rintro rfl
        exact har hpr
      have hpc : p ∉ ch'.ids := fun hc => hdis p hc p hpr rfl
      rw [heq, delete, if_neg hap, ihr hnr h', delete_of_notMem hpc]

/-! ## The links of a part -/

theorem Rep.sub (h : Rep L up head f) {d : P} {ch : Forest P} (hd : f.sub d = some ch) :
    Rep L (some d) (L.children d) ch := by
  induction f generalizing up head with
  | nil => simp [Forest.sub] at hd
  | cons a ch' rest ihc ihr =>
    rcases sub_cases hd with ⟨rfl, rfl⟩ | ⟨-, hd⟩ | ⟨-, -, hd⟩
    · exact h.2.2.1
    · exact ihc h.2.2.1 hd
    · exact ihr h.2.2.2 hd

/-- A node is on the first level, or its parent is in the forest and has it as a child. -/
theorem Rep.parent_cases (h : Rep L up head f) (hn : f.ids.Nodup) {x : P} (hx : x ∈ f.ids) :
    (x ∈ f.tops ∧ L.parent x = up) ∨
      ∃ d ch, f.sub d = some ch ∧ x ∈ ch.tops ∧ L.parent x = some d := by
  induction f generalizing up head with
  | nil => simp at hx
  | cons a ch rest ihc ihr =>
    obtain ⟨-, h2, h3, h4⟩ := h
    have hn' := hn
    simp only [ids_cons, List.nodup_cons, List.nodup_append, List.mem_append, not_or] at hn
    obtain ⟨⟨hac, har⟩, hnc, hnr, hdis⟩ := hn
    simp only [ids_cons, List.mem_cons, List.mem_append] at hx
    rcases hx with rfl | hx | hx
    · exact Or.inl ⟨List.mem_cons_self, h2⟩
    · right
      rcases ihc h3 hnc hx with ⟨ht, hp⟩ | ⟨d, g, hd, ht, hp⟩
      · exact ⟨a, ch, by rw [Forest.sub, if_pos rfl], ht, hp⟩
      · refine ⟨d, g, ?_, ht, hp⟩
        have hne : a ≠ d := by
          rintro rfl
          exact hac (mem_of_sub hd)
        rw [Forest.sub, if_neg hne, hd]
    · rcases ihr h4 hnr hx with ⟨ht, hp⟩ | ⟨d, g, hd, ht, hp⟩
      · exact Or.inl ⟨List.mem_cons_of_mem _ ht, hp⟩
      · refine Or.inr ⟨d, g, ?_, ht, hp⟩
        have hmem := mem_of_sub hd
        have hne : a ≠ d := by
          rintro rfl
          exact har hmem
        rw [Forest.sub, if_neg hne, sub_of_notMem fun hc => hdis d hc d hmem rfl, hd]

/-! ## Changing links -/

/-- Everything below `d` may change, and its link to its first child. -/
theorem Rep.update (h : Rep L up head f) (hn : f.ids.Nodup) {d : P} {ch : Forest P}
    (hd : f.sub d = some ch) (g : Forest P → Forest P)
    (hp : ∀ x ∈ f.ids, x ∉ ch.ids → L'.parent x = L.parent x)
    (hx : ∀ x ∈ f.ids, x ∉ ch.ids → L'.next x = L.next x)
    (hc : ∀ x ∈ f.ids, x ∉ ch.ids → x ≠ d → L'.children x = L.children x)
    (hg : Rep L' (some d) (L'.children d) (g ch)) : Rep L' up head (f.update d g) := by
  induction f generalizing up head with
  | nil => simp [Forest.sub] at hd
  | cons a ch' rest ihc ihr =>
    obtain ⟨h1, h2, h3, h4⟩ := h
    have hn' := hn
    simp only [ids_cons, List.nodup_cons, List.nodup_append, List.mem_append, not_or] at hn
    obtain ⟨⟨hac, har⟩, hnc, hnr, hdis⟩ := hn
    simp only [ids_cons, List.mem_cons, List.mem_append] at hp hx hc
    rcases update_cases g hn' hd with ⟨rfl, rfl, heq⟩ | ⟨hne, hd', heq⟩ | ⟨hne, hd', hdc, heq⟩
    · rw [heq]
      have hout : ∀ x ∈ rest.ids, x ∉ ch.ids := fun x hr hc => hdis x hc x hr rfl
      have hne : ∀ x ∈ rest.ids, x ≠ a := by
        rintro x hr rfl
        exact har hr
      refine ⟨h1, ?_, hg, ?_⟩
      · rw [hp a (Or.inl rfl) hac, h2]
      · rw [hx a (Or.inl rfl) hac]
        exact h4.congr (fun x hr => hp x (Or.inr (Or.inr hr)) (hout x hr))
          (fun x hr => hc x (Or.inr (Or.inr hr)) (hout x hr) (hne x hr))
          fun x hr => hx x (Or.inr (Or.inr hr)) (hout x hr)
    · rw [heq]
      have hsub := sub_subset hd'
      have ha : a ∉ ch.ids := fun hc => hac (hsub hc)
      have hout : ∀ x ∈ rest.ids, x ∉ ch.ids := fun x hr hc => hdis x (hsub hc) x hr rfl
      have hne' : ∀ x ∈ rest.ids, x ≠ d := by
        rintro x hr rfl
        exact hdis x (mem_of_sub hd') x hr rfl
      refine ⟨h1, ?_, ?_, ?_⟩
      · rw [hp a (Or.inl rfl) ha, h2]
      · rw [hc a (Or.inl rfl) ha hne]
        exact ihc h3 hnc hd' (fun x h => hp x (Or.inr (Or.inl h)))
          (fun x h => hx x (Or.inr (Or.inl h))) fun x h => hc x (Or.inr (Or.inl h))
      · rw [hx a (Or.inl rfl) ha]
        exact h4.congr (fun x hr => hp x (Or.inr (Or.inr hr)) (hout x hr))
          (fun x hr => hc x (Or.inr (Or.inr hr)) (hout x hr) (hne' x hr))
          fun x hr => hx x (Or.inr (Or.inr hr)) (hout x hr)
    · rw [heq]
      have hsub := sub_subset hd'
      have ha : a ∉ ch.ids := fun hc => har (hsub hc)
      have hout : ∀ x ∈ ch'.ids, x ∉ ch.ids := fun x hr hc => hdis x hr x (hsub hc) rfl
      have hne' : ∀ x ∈ ch'.ids, x ≠ d := by
        rintro x hr rfl
        exact hdc hr
      refine ⟨h1, ?_, ?_, ?_⟩
      · rw [hp a (Or.inl rfl) ha, h2]
      · rw [hc a (Or.inl rfl) ha hne]
        exact h3.congr (fun x hr => hp x (Or.inr (Or.inl hr)) (hout x hr))
          (fun x hr => hc x (Or.inr (Or.inl hr)) (hout x hr) (hne' x hr))
          fun x hr => hx x (Or.inr (Or.inl hr)) (hout x hr)
      · rw [hx a (Or.inl rfl) ha]
        exact ihr h4 hnr hd' (fun x h => hp x (Or.inr (Or.inr h)))
          (fun x h => hx x (Or.inr (Or.inr h))) fun x h => hc x (Or.inr (Or.inr h))

/-- Unlinking a node of the first level from the one before it. -/
theorem Rep.dropTop (h : Rep L up head f) (hn : f.ids.Nodup) {p prev : P} (hprev : prev ∈ f.tops)
    (hnext : L.next prev = some p) (hp : ∀ x ∈ f.ids, L'.parent x = L.parent x)
    (hc : ∀ x ∈ f.ids, L'.children x = L.children x)
    (hx : ∀ x ∈ f.ids, x ≠ prev → L'.next x = L.next x) (hnext' : L'.next prev = L.next p) :
    Rep L' up head (f.dropTop p) := by
  induction f generalizing head with
  | nil => simp at hprev
  | cons a ch rest _ ihr =>
    obtain ⟨h1, h2, h3, h4⟩ := h
    simp only [ids_cons, List.nodup_cons, List.nodup_append, List.mem_append, not_or] at hn
    obtain ⟨⟨hac, har⟩, hnc, hnr, hdis⟩ := hn
    simp only [ids_cons, List.mem_cons, List.mem_append] at hp hc hx
    have hin : ∀ {x}, x ∈ rest.tops → x ∈ rest.ids := fun h => tops_subset _ h
    have hfirst : ∀ {q : Option P} {r : Forest P}, Rep L up q r → q = some p → p ∈ r.tops := by
      intro q r hr hq
      have := hr.head_eq
      rw [hq] at this
      exact List.mem_of_mem_head? this.symm
    have hpr : p ∈ rest.tops := by
      rcases List.mem_cons.mp hprev with rfl | hprev
      · exact hfirst h4 hnext
      · clear ihr
        have key : ∀ {q : Option P} {r : Forest P}, Rep L up q r → prev ∈ r.tops → p ∈ r.tops := by
          intro q r hr hm
          induction r generalizing q with
          | nil => simp at hm
          | cons b ch' r' _ ih =>
            rcases List.mem_cons.mp hm with rfl | hm
            · exact List.mem_cons_of_mem _ (hfirst hr.2.2.2 hnext)
            · exact List.mem_cons_of_mem _ (ih hr.2.2.2 hm)
        exact key h4 hprev
    have hap : a ≠ p := by
      rintro rfl
      exact har (hin hpr)
    have hpc : prev ∉ ch.ids := by
      rcases List.mem_cons.mp hprev with rfl | hprev
      · exact hac
      · exact fun hc => hdis prev hc prev (hin hprev) rfl
    rw [Forest.dropTop, if_neg hap]
    refine ⟨h1, ?_, ?_, ?_⟩
    · rw [hp a (Or.inl rfl), h2]
    · rw [hc a (Or.inl rfl)]
      exact h3.congr (fun x h => hp x (Or.inr (Or.inl h))) (fun x h => hc x (Or.inr (Or.inl h)))
        fun x h => hx x (Or.inr (Or.inl h)) fun he => hpc (he ▸ h)
    · rcases List.mem_cons.mp hprev with rfl | hprev
      · -- `p` is the next node
        rw [hnext']
        cases rest with
        | nil => simp at hpr
        | cons b ch' rest' =>
          obtain ⟨g1, -, -, g4⟩ := h4
          obtain rfl : b = p := by
            rw [hnext] at g1
            exact (Option.some.inj g1).symm
          rw [Forest.dropTop, if_pos rfl]
          have hne : ∀ x ∈ rest'.ids, x ≠ prev := by
            rintro x hr rfl
            exact har (by simp [hr])
          exact g4.congr (fun x h => hp x (Or.inr (Or.inr (by simp [h]))))
            (fun x h => hc x (Or.inr (Or.inr (by simp [h]))))
            fun x h => hx x (Or.inr (Or.inr (by simp [h]))) (hne x h)
      · have hne : a ≠ prev := by
          rintro rfl
          exact har (hin hprev)
        rw [hx a (Or.inl rfl) hne]
        exact ihr h4 hnr hprev (fun x h => hp x (Or.inr (Or.inr h)))
          (fun x h => hc x (Or.inr (Or.inr h))) fun x h => hx x (Or.inr (Or.inr h))

/-! ## Below and above -/

/-- What an ancestor is above is what is below it. -/
theorem Rep.above_iff (h : Rep L none head f) (hn : f.ids.Nodup) {a x : P} (hx : x ∈ f.ids) :
    Above L a x ↔ ∃ ch, f.sub a = some ch ∧ x ∈ ch.ids := by
  constructor
  · intro ha
    induction ha with
    | @parent p hp =>
      rcases h.parent_cases hn hx with ⟨-, hno⟩ | ⟨d, ch, hd, ht, hpd⟩
      · rw [hp] at hno
        simp at hno
      · rw [hp] at hpd
        obtain rfl := Option.some.inj hpd
        exact ⟨ch, hd, tops_subset _ ht⟩
    | @trans p q hp _ ih =>
      rcases h.parent_cases hn hx with ⟨-, hno⟩ | ⟨d, ch, hd, ht, hpd⟩
      · rw [hp] at hno
        simp at hno
      · rw [hp] at hpd
        obtain rfl := Option.some.inj hpd
        obtain ⟨c, hc, hq⟩ := ih (mem_of_sub hd)
        obtain ⟨g, hg⟩ := exists_sub hq
        have hsame := sub_trans hn hc hg
        rw [hd] at hsame
        obtain rfl := Option.some.inj hsame
        exact ⟨c, hc, sub_subset hg (tops_subset _ ht)⟩
  · rintro ⟨ch, hch, hmem⟩
    exact (h.sub hch).above hmem

end Forest
