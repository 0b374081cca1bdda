import LightningOS.Fs.Ramfs
import Mathlib.Data.List.TakeWhile

/-!
# Walks, component by component

`walk` works on the text of a path. Here is the same walk over the components of the
path: what is between slashes, cut to the size of a name.
-/

namespace LightningOS.Ramfs

open ByteMemory CString

/-! ## Components -/

/-- What a component of a path can be. -/
structure IsName (name : List UInt8) : Prop where
  ne_nil : name ≠ []
  length : name.length ≤ fsNameMax - 1
  slash : slash ∉ name

/-- The components of a path. -/
def components (path : List UInt8) : List (List UInt8) :=
  ((path.splitOn slash).filter (· ≠ [])).map (List.take (fsNameMax - 1))

theorem components_nil : components [] = [] := rfl

theorem components_slash (path : List UInt8) :
    components (slash :: path) = components path := by
  unfold components
  rw [List.splitOn_cons_eq_if_modifyHead, if_pos (by simp)]
  simp

theorem components_dropWhile (path : List UInt8) :
    components (path.dropWhile (· == slash)) = components path := by
  induction path with
  | nil => rfl
  | cons c cs ih =>
    by_cases hc : c = slash
    · subst hc
      rw [List.dropWhile_cons_of_pos (by simp), ih, components_slash]
    · rw [List.dropWhile_cons_of_neg (by simpa using hc)]

/-- The first component goes up to a slash or to the end. -/
theorem components_append {name rest : List UInt8} (hne : name ≠ []) (hs : slash ∉ name)
    (hrest : rest = [] ∨ ∃ cs, rest = slash :: cs) :
    components (name ++ rest) = name.take (fsNameMax - 1) :: components rest := by
  unfold components
  rcases hrest with rfl | ⟨cs, rfl⟩
  · rw [List.append_nil, List.splitOn_eq_singleton hs]
    simp [hne]
  · rw [List.splitOn_append_cons_self_of_not_mem hs, List.splitOn_cons_eq_if_modifyHead,
      if_pos (by simp)]
    simp [hne]

theorem takeWhile_ne_slash (path : List UInt8) : slash ∉ path.takeWhile (· != slash) := by
  intro hm
  have := List.mem_takeWhile_imp hm
  simp at this

theorem dropWhile_ne_slash (path : List UInt8) :
    path.dropWhile (· != slash) = [] ∨ ∃ cs, path.dropWhile (· != slash) = slash :: cs := by
  induction path with
  | nil => exact Or.inl rfl
  | cons c cs ih =>
    by_cases hc : c = slash
    · subst hc
      exact Or.inr ⟨cs, List.dropWhile_cons_of_neg (by simp)⟩
    · rw [List.dropWhile_cons_of_pos (by simpa using hc)]
      exact ih

/-- After the slashes, a path is at its end or at a component. -/
theorem dropSlashes_cases (path : List UInt8) :
    path.dropWhile (· == slash) = [] ∨
      ∃ c cs, path.dropWhile (· == slash) = c :: cs ∧ c ≠ slash := by
  induction path with
  | nil => exact Or.inl rfl
  | cons c cs ih =>
    by_cases hc : c = slash
    · subst hc
      rw [List.dropWhile_cons_of_pos (by simp)]
      exact ih
    · exact Or.inr ⟨c, cs, List.dropWhile_cons_of_neg (by simpa using hc), hc⟩

theorem components_cons {c : UInt8} {cs : List UInt8} (hc : c ≠ slash) :
    components (c :: cs) = ((c :: cs).takeWhile (· != slash)).take (fsNameMax - 1) ::
      components ((c :: cs).dropWhile (· != slash)) := by
  have hne : (c :: cs).takeWhile (· != slash) ≠ [] := by
    rw [List.takeWhile_cons_of_pos (by simpa using hc)]
    simp
  have h := components_append hne (takeWhile_ne_slash (c :: cs)) (dropWhile_ne_slash (c :: cs))
  rwa [List.takeWhile_append_dropWhile] at h

theorem splitOn_subset {path w : List UInt8} (h : w ∈ path.splitOn slash) : w ⊆ path := by
  induction path generalizing w with
  | nil =>
    simp only [List.splitOn_nil, List.mem_singleton] at h
    rw [h]
    exact List.Subset.refl _
  | cons c cs ih =>
    rw [List.splitOn_cons_eq_if_modifyHead] at h
    by_cases hc : c = slash
    · rw [if_pos (by simpa using hc)] at h
      rcases List.mem_cons.mp h with rfl | h
      · exact List.nil_subset _
      · exact List.subset_cons_of_subset _ (ih h)
    · rw [if_neg (by simpa using hc)] at h
      cases hs : cs.splitOn slash with
      | nil => exact absurd hs (List.splitOn_ne_nil _ _)
      | cons v vs =>
        rw [hs, List.modifyHead_cons] at h
        rcases List.mem_cons.mp h with rfl | h
        · exact List.cons_subset_cons c (ih (hs ▸ List.mem_cons_self))
        · exact List.subset_cons_of_subset _ (ih (hs ▸ List.mem_cons_of_mem _ h))

/-- A component is text of the path. -/
theorem components_subset {path name : List UInt8} (h : name ∈ components path) : name ⊆ path := by
  simp only [components, List.mem_map, List.mem_filter] at h
  obtain ⟨w, ⟨hw, -⟩, rfl⟩ := h
  exact List.Subset.trans (List.take_subset _ _) (splitOn_subset hw)

theorem isName_of_mem_components {path name : List UInt8} (h : name ∈ components path) :
    IsName name := by
  simp only [components, List.mem_map, List.mem_filter, decide_eq_true_eq] at h
  obtain ⟨w, ⟨hw, hne⟩, rfl⟩ := h
  have hslash : ∀ {ws : List (List UInt8)}, path.splitOn slash = ws → w ∈ ws → slash ∉ w := by
    clear hw
    induction path generalizing w with
    | nil =>
      rintro ws rfl hw
      simp only [List.splitOn_nil, List.mem_singleton] at hw
      exact absurd hw hne
    | cons c cs ih =>
      rintro ws rfl hw
      rw [List.splitOn_cons_eq_if_modifyHead] at hw
      by_cases hc : c = slash
      · rw [if_pos (by simpa using hc)] at hw
        rcases List.mem_cons.mp hw with rfl | hw
        · exact absurd rfl hne
        · exact ih w hne rfl hw
      · rw [if_neg (by simpa using hc)] at hw
        cases hs : cs.splitOn slash with
        | nil => exact absurd hs (List.splitOn_ne_nil _ _)
        | cons v vs =>
          rw [hs, List.modifyHead_cons] at hw
          have hv : ∀ {u}, u ∈ v :: vs → slash ∉ u := by
            intro u hu
            by_cases hu0 : u = []
            · simp [hu0]
            · exact ih u hu0 hs hu
          rcases List.mem_cons.mp hw with rfl | hw
          · rw [List.mem_cons, not_or]
            exact ⟨Ne.symm hc, hv List.mem_cons_self⟩
          · exact hv (List.mem_cons_of_mem _ hw)
  refine ⟨?_, ?_, fun hm => hslash rfl hw (List.mem_of_mem_take hm)⟩
  · cases w with
    | nil => exact absurd rfl hne
    | cons c cs => simp [fsNameMax]
  · rw [List.length_take]
    omega

/-! ## Following components -/

/-- The walk along `names`. -/
def follow (s : Fs) : Option Ptr → List (List UInt8) → Option (Option Ptr)
  | node, [] => some node
  | node, name :: names =>
    if name = [dot] then follow s node names
    else if name = [dot, dot] then
      match parentOrRoot s node with
      | none => none
      | some node => follow s node names
    else
      match findChild s node name with
      | none => none
      | some none => some none
      | some (some child) => follow s (some child) names

theorem follow_none (s : Fs) (names : List (List UInt8)) :
    follow s none names = some none ∨ follow s none names = none := by
  induction names with
  | nil => exact Or.inl rfl
  | cons name names ih =>
    rw [follow]
    by_cases h1 : name = [dot]
    · rw [if_pos h1]
      exact ih
    rw [if_neg h1]
    by_cases h2 : name = [dot, dot]
    · rw [if_pos h2]
      exact Or.inr rfl
    · rw [if_neg h2]
      exact Or.inl rfl

theorem follow_append (s : Fs) (names names' : List (List UInt8)) :
    ∀ node : Option Ptr, (∀ q, follow s node names = some q → q ≠ none) →
      follow s node (names ++ names') =
        (follow s node names).bind fun q => follow s q names' := by
  induction names with
  | nil => intro node _; rfl
  | cons name names ih =>
    intro node hq
    rw [List.cons_append, follow]
    rw [follow] at hq ⊢
    by_cases h1 : name = [dot]
    · rw [if_pos h1] at hq ⊢
      rw [if_pos h1]
      exact ih node hq
    rw [if_neg h1] at hq ⊢
    rw [if_neg h1]
    by_cases h2 : name = [dot, dot]
    · rw [if_pos h2] at hq ⊢
      rw [if_pos h2]
      cases hp : parentOrRoot s node with
      | none => rfl
      | some node' =>
        rw [hp] at hq
        exact ih node' hq
    · rw [if_neg h2] at hq ⊢
      rw [if_neg h2]
      cases hc : findChild s node name with
      | none => rfl
      | some c =>
        rw [hc] at hq
        cases c with
        | none => exact absurd rfl (hq none rfl)
        | some child => exact ih (some child) hq

/-! ## The text is walked along its components -/

theorem parentOrRoot_some {s : Fs} {root p : Ptr} {q : Option Ptr} (hr : s.rootNode = some root)
    (h : parentOrRoot s (some p) = some q) : ∃ q', q = some q' := by
  unfold parentOrRoot at h
  cases hn : s.nodes.get p with
  | none => simp [hn] at h
  | some n =>
    cases hq : n.parent with
    | none => exact ⟨root, by simpa [hn, hq, hr] using h.symm⟩
    | some q' => exact ⟨q', by simpa [hn, hq] using h.symm⟩

/-- What a walk that stops before its last component comes to. -/
def followParent (s : Fs) (node : Ptr) (names : List (List UInt8)) :
    Option (Option Ptr × List UInt8) :=
  match names.getLast? with
  | none => some (some node, [])
  | some last =>
    match follow s (some node) names.dropLast with
    | none => none
    | some none => some (none, [])
    | some (some p) => some (some p, last)

theorem followParent_single (s : Fs) (node : Ptr) (name : List UInt8) :
    followParent s node [name] = some (some node, name) := rfl

theorem followParent_cons {s : Fs} {root node : Ptr} {name : List UInt8}
    {names : List (List UInt8)} (hr : s.rootNode = some root) (hne : names ≠ []) :
    followParent s node (name :: names) =
      if name = [dot] then followParent s node names
      else if name = [dot, dot] then
        match parentOrRoot s (some node) with
        | none => none
        | some q => followParent s (q.getD root) names
      else
        match findChild s (some node) name with
        | none => none
        | some none => some (none, [])
        | some (some child) => followParent s child names := by
  obtain ⟨init, last, rfl⟩ : ∃ init last, names = init ++ [last] :=
    ⟨names.dropLast, names.getLast hne, (List.dropLast_concat_getLast hne).symm⟩
  have hcons : name :: (init ++ [last]) = (name :: init) ++ [last] := rfl
  simp only [followParent, hcons, List.getLast?_concat, List.dropLast_concat]
  rw [follow]
  by_cases h1 : name = [dot]
  · simp only [h1, if_true]
  by_cases h2 : name = [dot, dot]
  · rw [if_neg h1, if_pos h2, if_neg h1, if_pos h2]
    cases hp : parentOrRoot s (some node) with
    | none => rfl
    | some q =>
      obtain ⟨q', rfl⟩ := parentOrRoot_some hr hp
      rfl
  · rw [if_neg h1, if_neg h2, if_neg h1, if_neg h2]
    cases hc : findChild s (some node) name with
    | none => rfl
    | some c => cases c <;> rfl

theorem walkLoop_follow (s : Fs) : ∀ {fuel : Nat} (node : Option Ptr) (rest : List UInt8),
    rest.length < fuel → walkLoop s false fuel node rest =
      (follow s node (components rest)).map fun q => (q, []) := by
  intro fuel
  induction fuel with
  | zero => intro node rest h; omega
  | succ fuel ih =>
    intro node rest hf
    rw [walkLoop, ← components_dropWhile rest]
    rcases dropSlashes_cases rest with hnil | ⟨c, cs, hcs, hc⟩
    · rw [hnil, if_pos rfl]
      rfl
    have hlen : ((c :: cs).dropWhile (· != slash)).length < fuel := by
      have h1 := (List.dropWhile_suffix (· == slash) (l := rest)).length_le
      have h2 := (List.dropWhile_suffix (· != slash) (l := cs)).length_le
      rw [hcs, List.length_cons] at h1
      rw [List.dropWhile_cons_of_pos (by simpa using hc)]
      omega
    simp only [hcs, components_cons hc, Bool.false_eq_true, and_false, if_false]
    rw [if_neg (List.cons_ne_nil c cs), follow]
    by_cases h1 : ((c :: cs).takeWhile (· != slash)).take (fsNameMax - 1) = [dot]
    · rw [if_pos h1, if_pos h1]
      exact ih node _ hlen
    rw [if_neg h1, if_neg h1]
    by_cases h2 : ((c :: cs).takeWhile (· != slash)).take (fsNameMax - 1) = [dot, dot]
    · rw [if_pos h2, if_pos h2]
      cases hp : parentOrRoot s node with
      | none => rfl
      | some q => exact ih q _ hlen
    · rw [if_neg h2, if_neg h2]
      cases hch : findChild s node (((c :: cs).takeWhile (· != slash)).take (fsNameMax - 1)) with
      | none => rfl
      | some q =>
        cases q with
        | none => rfl
        | some child => exact ih (some child) _ hlen

/-- Nothing but slashes is left exactly when no component is left. -/
theorem components_eq_nil {rest : List UInt8} :
    components rest = [] ↔ rest.dropWhile (· == slash) = [] := by
  rw [← components_dropWhile]
  rcases dropSlashes_cases rest with h | ⟨c, cs, h, hc⟩
  · rw [h]
    simp [components_nil]
  · rw [h, components_cons hc]
    simp

theorem walkLoop_followParent {s : Fs} {root : Ptr} (hr : s.rootNode = some root) :
    ∀ {fuel : Nat} (node : Ptr) (rest : List UInt8), rest.length < fuel →
      walkLoop s true fuel (some node) rest = followParent s node (components rest) := by
  intro fuel
  induction fuel with
  | zero => intro node rest h; omega
  | succ fuel ih =>
    intro node rest hf
    rw [walkLoop, ← components_dropWhile rest]
    rcases dropSlashes_cases rest with hnil | ⟨c, cs, hcs, hc⟩
    · rw [hnil, if_pos rfl]
      rfl
    have hlen : ((c :: cs).dropWhile (· != slash)).length < fuel := by
      have h1 := (List.dropWhile_suffix (· == slash) (l := rest)).length_le
      have h2 := (List.dropWhile_suffix (· != slash) (l := cs)).length_le
      rw [hcs, List.length_cons] at h1
      rw [List.dropWhile_cons_of_pos (by simpa using hc)]
      omega
    simp only [hcs, components_cons hc, and_true]
    rw [if_neg (List.cons_ne_nil c cs)]
    by_cases hlast : components ((c :: cs).dropWhile (· != slash)) = []
    · rw [if_pos (components_eq_nil.mp hlast), hlast, followParent_single]
    rw [if_neg (mt components_eq_nil.mpr hlast), followParent_cons hr hlast]
    by_cases h1 : ((c :: cs).takeWhile (· != slash)).take (fsNameMax - 1) = [dot]
    · rw [if_pos h1, if_pos h1]
      exact ih node _ hlen
    rw [if_neg h1, if_neg h1]
    by_cases h2 : ((c :: cs).takeWhile (· != slash)).take (fsNameMax - 1) = [dot, dot]
    · rw [if_pos h2, if_pos h2]
      cases hp : parentOrRoot s (some node) with
      | none => rfl
      | some q =>
        obtain ⟨q', rfl⟩ := parentOrRoot_some hr hp
        exact ih q' _ hlen
    · rw [if_neg h2, if_neg h2]
      cases hch : findChild s (some node)
          (((c :: cs).takeWhile (· != slash)).take (fsNameMax - 1)) with
      | none => rfl
      | some q =>
        cases q with
        | none => rfl
        | some child => exact ih child _ hlen

/-- Where a path starts. -/
def start (s : Fs) (path : List UInt8) : Option Ptr :=
  if path.head? = some slash then s.rootNode else s.currentDir

/-- The components that a walk looks at. -/
def pathNames (path : List UInt8) : List (List UInt8) := components (path.take (fsPathMax - 1))

theorem walk_follow (s : Fs) {path : List UInt8} (hne : path ≠ []) :
    walk s path false = (follow s (start s path) (pathNames path)).map fun q => (q, []) := by
  cases path with
  | nil => exact absurd rfl hne
  | cons c cs =>
    have htake : (c :: cs).take (fsPathMax - 1) = c :: cs.take (fsPathMax - 2) := rfl
    have hlen : (cs.take (fsPathMax - 2)).length ≤ fsPathMax - 2 := List.length_take_le _ _
    have hmax : fsPathMax = 256 := rfl
    simp only [walk, pathNames, start, htake, List.head?_cons, Option.some.injEq]
    by_cases hc : c = slash
    · rw [if_pos hc, if_pos hc, walkLoop_follow s _ _ (by omega), hc, components_slash]
    · rw [if_neg hc, if_neg hc, walkLoop_follow s _ _ (by rw [List.length_cons]; omega)]

theorem walk_followParent {s : Fs} {root node : Ptr} (hr : s.rootNode = some root)
    {path : List UInt8} (hne : path ≠ []) (hstart : start s path = some node) :
    walk s path true = followParent s node (pathNames path) := by
  cases path with
  | nil => exact absurd rfl hne
  | cons c cs =>
    have htake : (c :: cs).take (fsPathMax - 1) = c :: cs.take (fsPathMax - 2) := rfl
    have hlen : (cs.take (fsPathMax - 2)).length ≤ fsPathMax - 2 := List.length_take_le _ _
    have hmax : fsPathMax = 256 := rfl
    simp only [start, List.head?_cons, Option.some.injEq] at hstart
    simp only [walk, pathNames, htake]
    by_cases hc : c = slash
    · rw [if_pos hc] at hstart ⊢
      rw [hstart, walkLoop_followParent hr _ _ (by omega), hc, components_slash]
    · rw [if_neg hc] at hstart ⊢
      rw [hstart, walkLoop_followParent hr _ _ (by rw [List.length_cons]; omega)]

theorem fsResolve_follow (s : Fs) (path : List UInt8) :
    fsResolve s path = follow s (start s path) (pathNames path) := by
  unfold fsResolve
  by_cases h0 : path = []
  · subst h0
    rfl
  rw [if_neg h0]
  by_cases h1 : path = [slash]
  · subst h1
    rfl
  rw [if_neg h1, walk_follow s h0]
  cases follow s (start s path) (pathNames path) <;> rfl

end LightningOS.Ramfs
