import Mathlib.Data.List.Basic
import Mathlib.Data.List.Nodup
import Mathlib.Tactic.Tauto

/-!
# Circular lists given by a successor function

A node is any value, and `next` says which node follows it, if any. `Path next a l b`
says that the walk from `a` passes the nodes `l` in order and then stands at `b`. A ring
is a walk that comes back to its start without passing a node twice.

The operations of a run queue are here as facts about `IsRing`: a ring of one node,
insertion behind the head, removal, and turning the ring to another head.
-/

namespace Ring

variable {α : Type _}

/-- The walk from the first node passes `l` and then stands at the last node. -/
def Path (next : α → Option α) : α → List α → α → Prop
  | a, [], b => a = b
  | a, x :: l, b => a = x ∧ ∃ n, next x = some n ∧ Path next n l b

/-- The nodes `a :: l`, each once, in the order of the walk from `a` back to `a`. -/
structure IsRing (next : α → Option α) (a : α) (l : List α) : Prop where
  path : Path next a (a :: l) a
  nodup : (a :: l).Nodup

/-! ## Walks -/

theorem path_append {next : α → Option α} {a b : α} {l₁ l₂ : List α} :
    Path next a (l₁ ++ l₂) b ↔ ∃ m, Path next a l₁ m ∧ Path next m l₂ b := by
  induction l₁ generalizing a with
  | nil => simp [Path]
  | cons x l ih =>
    simp only [List.cons_append, Path, ih]
    constructor
    · rintro ⟨rfl, n, hn, m, h1, h2⟩
      exact ⟨m, ⟨rfl, n, hn, h1⟩, h2⟩
    · rintro ⟨m, ⟨rfl, n, hn, h1⟩, h2⟩
      exact ⟨rfl, n, hn, m, h1, h2⟩

/-- A walk only depends on the successors of the nodes it passes. -/
theorem Path.congr {next next' : α → Option α} {a b : α} {l : List α} (hp : Path next a l b)
    (h : ∀ x ∈ l, next' x = next x) : Path next' a l b := by
  induction l generalizing a with
  | nil => exact hp
  | cons x l ih =>
    obtain ⟨rfl, n, hn, hl⟩ := hp
    exact ⟨rfl, n, by rw [h a List.mem_cons_self]; exact hn,
      ih hl fun y hy => h y (List.mem_cons_of_mem _ hy)⟩

/-- A walk that passes a node starts at its first one. -/
theorem Path.head_eq {next : α → Option α} {a b x : α} {l : List α} (hp : Path next a (x :: l) b) :
    a = x := hp.1

/-- The node a nonempty walk leaves last leads to its end. -/
theorem path_concat {next : α → Option α} {a b x : α} {l : List α} :
    Path next a (l ++ [x]) b ↔ Path next a l x ∧ next x = some b := by
  rw [path_append]
  constructor
  · rintro ⟨m, h1, rfl, n, hn, rfl⟩
    exact ⟨h1, hn⟩
  · rintro ⟨h1, hn⟩
    exact ⟨x, h1, rfl, b, hn, rfl⟩

/-! ## Searching a walk -/

/-- The first node from `a` on that satisfies `p`, if one comes before `stop`. -/
def search [DecidableEq α] (next : α → Option α) (p : α → Bool) (stop : α) :
    Nat → α → Option (Option α)
  | 0, _ => none
  | fuel + 1, a =>
    if p a then some (some a)
    else
      match next a with
      | none => none
      | some n => if n = stop then some none else search next p stop fuel n

/-- Searching a walk is searching the list of its nodes. -/
theorem search_eq [DecidableEq α] {next : α → Option α} {p : α → Bool} {stop : α}
    {rest : List α} : ∀ {a : α} {fuel : Nat}, Path next a (a :: rest) stop → stop ∉ rest →
    rest.length < fuel → search next p stop fuel a = some ((a :: rest).find? p) := by
  induction rest with
  | nil =>
    rintro a fuel ⟨-, n, hn, rfl⟩ - hf
    obtain ⟨fuel, rfl⟩ := Nat.exists_eq_add_one.mpr hf
    rw [search, List.find?_cons, List.find?_nil]
    cases hp : p a <;> simp [hn]
  | cons y rest ih =>
    rintro a fuel ⟨-, n, hn, hl⟩ hs hf
    obtain ⟨fuel, rfl⟩ := Nat.exists_eq_add_one.mpr (Nat.zero_lt_of_lt hf)
    obtain rfl := hl.head_eq
    have hne : n ≠ stop := fun h => hs (by rw [← h]; exact List.mem_cons_self)
    have hih := ih hl (fun h => hs (List.mem_cons_of_mem _ h)) (by simpa using hf)
    rw [search, List.find?_cons]
    cases hp : p a
    · simp [hn, hne, hih]
    · simp

/-! ## Rings -/

theorem IsRing.singleton {next : α → Option α} {a : α} (h : next a = some a) :
    IsRing next a [] :=
  ⟨⟨rfl, a, h, rfl⟩, List.nodup_singleton a⟩

/-- What follows the head is a walk back to it. -/
theorem IsRing.tail {next : α → Option α} {a : α} {l : List α} (hr : IsRing next a l) :
    ∃ n, next a = some n ∧ Path next n l a := hr.path.2

/-- Turning a ring to another of its nodes. -/
theorem IsRing.rotate {next : α → Option α} {a c : α} {p q : List α}
    (hr : IsRing next a (p ++ c :: q)) : IsRing next c (q ++ a :: p) := by
  have hp := hr.path
  rw [← List.cons_append, path_append] at hp
  obtain ⟨m, h1, h2⟩ := hp
  obtain rfl := h2.head_eq
  refine ⟨?_, ?_⟩
  · rw [← List.cons_append, path_append]
    exact ⟨a, h2, h1⟩
  · have hperm : (a :: (p ++ m :: q)).Perm (m :: (q ++ a :: p)) := by
      rw [← List.cons_append, ← List.cons_append]
      exact List.perm_append_comm
    exact hperm.nodup_iff.mp hr.nodup

/-- The ring seen from the node behind the head. -/
theorem IsRing.advance {next : α → Option α} {a : α} {l : List α} (hr : IsRing next a l) :
    ∃ n rest, next a = some n ∧ IsRing next n rest ∧ n :: rest = l ++ [a] := by
  obtain ⟨n, hn, hl⟩ := hr.tail
  cases l with
  | nil =>
    obtain rfl : n = a := hl
    exact ⟨n, [], hn, hr, rfl⟩
  | cons y ys =>
    obtain rfl := hl.head_eq
    have hrot : IsRing next n (ys ++ [a]) := IsRing.rotate (p := []) hr
    exact ⟨n, ys ++ [a], hn, hrot, rfl⟩

/-- Turning a ring to a node of the walk from behind the head back to it. -/
theorem IsRing.turn {next : α → Option α} {a x : α} {l p q : List α} (hr : IsRing next a l)
    (h : l ++ [a] = p ++ x :: q) : IsRing next x (q ++ p) := by
  rcases List.eq_nil_or_concat q with rfl | ⟨q, y, rfl⟩
  · obtain ⟨rfl, hx⟩ := List.append_inj' h rfl
    obtain rfl : a = x := List.singleton_inj.mp hx
    exact hr
  · rw [List.concat_eq_append] at h ⊢
    rw [← List.cons_append, ← List.append_assoc] at h
    obtain ⟨rfl, hy⟩ := List.append_inj' h rfl
    obtain rfl : a = y := List.singleton_inj.mp hy
    rw [List.append_assoc, List.singleton_append]
    exact hr.rotate

/-- A walk is given by its ends, if it passes the last one only there. -/
theorem Path.unique {next : α → Option α} {b : α} {l : List α} : ∀ {a : α} {l' : List α},
    Path next a l b → Path next a l' b → b ∉ l → b ∉ l' → l = l' := by
  induction l with
  | nil =>
    intro a l' h h' _ hb'
    cases l' with
    | nil => rfl
    | cons y l' =>
      obtain rfl : a = b := h
      obtain rfl := h'.head_eq
      exact absurd List.mem_cons_self hb'
  | cons x l ih =>
    intro a l' h h' hb hb'
    obtain ⟨rfl, n, hn, hl⟩ := h
    cases l' with
    | nil =>
      obtain rfl : a = b := h'
      exact absurd List.mem_cons_self hb
    | cons y l' =>
      obtain ⟨rfl, m, hm, hl'⟩ := h'
      rw [hn] at hm
      obtain rfl := Option.some.inj hm
      rw [ih hl hl' (fun h => hb (List.mem_cons_of_mem _ h)) fun h => hb' (List.mem_cons_of_mem _ h)]

theorem IsRing.unique {next : α → Option α} {a : α} {l l' : List α} (hr : IsRing next a l)
    (hr' : IsRing next a l') : l = l' := by
  obtain ⟨n, hn, hl⟩ := hr.tail
  obtain ⟨m, hm, hl'⟩ := hr'.tail
  rw [hn] at hm
  obtain rfl := Option.some.inj hm
  exact hl.unique hl' (List.nodup_cons.mp hr.nodup).1 (List.nodup_cons.mp hr'.nodup).1

/-- Taking out nodes brings no node further away. -/
theorem idxOf_le_of_sublist [DecidableEq α] {x : α} {l l' : List α} (h : l'.Sublist l)
    (hnd : l.Nodup) (hx : x ∈ l') : l'.idxOf x ≤ l.idxOf x := by
  induction h with
  | slnil => exact Nat.le_refl _
  | @cons l₁ l₂ y hsub ih =>
    obtain ⟨hy, hnd⟩ := List.nodup_cons.mp hnd
    have hne : y ≠ x := by
      rintro rfl
      exact hy (hsub.subset hx)
    rw [List.idxOf_cons_ne _ hne]
    exact Nat.le_succ_of_le (ih hnd hx)
  | @cons_cons l₁ l₂ y hsub ih =>
    obtain ⟨-, hnd⟩ := List.nodup_cons.mp hnd
    by_cases hne : y = x
    · rw [hne, List.idxOf_cons_self]
      exact Nat.zero_le _
    · rw [List.idxOf_cons_ne _ hne, List.idxOf_cons_ne _ hne]
      exact Nat.succ_le_succ (ih hnd ((List.mem_cons.mp hx).resolve_left fun h => hne h.symm))

/-- Inserting a new node behind the head. -/
theorem IsRing.insert {next next' : α → Option α} {a x : α} {l : List α} (hr : IsRing next a l)
    (hx : x ∉ a :: l) (hnx : next' x = next a) (hna : next' a = some x)
    (h : ∀ y ∈ l, next' y = next y) : IsRing next' a (x :: l) := by
  obtain ⟨n, hn, hl⟩ := hr.tail
  refine ⟨⟨rfl, x, hna, rfl, n, by rw [hnx, hn], hl.congr h⟩, ?_⟩
  have hperm : (a :: x :: l).Perm (x :: a :: l) := List.Perm.swap x a l
  exact hperm.nodup_iff.mpr (List.nodup_cons.mpr ⟨hx, hr.nodup⟩)

/-- Removing the node behind `b`. -/
theorem IsRing.remove {next next' : α → Option α} {a b x : α} {p q : List α}
    (hr : IsRing next a (p ++ x :: q)) (hlast : ∃ s, a :: p = s ++ [b]) (hnb : next' b = next x)
    (h : ∀ y, y ≠ b → y ≠ x → next' y = next y) : IsRing next' a (p ++ q) := by
  obtain ⟨s, hs⟩ := hlast
  have hp := hr.path
  have hnd := hr.nodup
  rw [← List.cons_append, path_append, hs] at hp
  rw [← List.cons_append, hs] at hnd
  obtain ⟨m, h1, h2⟩ := hp
  obtain rfl := h2.head_eq
  obtain ⟨-, n, hn, h3⟩ := h2
  obtain ⟨h4, -⟩ := path_concat.mp h1
  have hdisj : ∀ y ∈ s ++ q, next' y = next y := by
    intro y hy
    have hnd' := hnd
    simp only [List.nodup_append, List.nodup_cons, List.mem_append, List.mem_cons,
      List.not_mem_nil, or_false] at hnd' hy
    refine h y ?_ ?_
    · rintro rfl
      rcases hy with hy | hy
      · exact hnd'.1.2.2 y hy y rfl rfl
      · exact hnd'.2.2 y (Or.inr rfl) y (Or.inr hy) rfl
    · rintro rfl
      rcases hy with hy | hy
      · exact hnd'.2.2 y (Or.inl hy) y (Or.inl rfl) rfl
      · exact hnd'.2.1.1 hy
  have hpath : Path next' a (s ++ [b] ++ q) a := by
    rw [path_append]
    refine ⟨n, path_concat.mpr ⟨h4.congr fun y hy => hdisj y (List.mem_append_left _ hy), ?_⟩,
      h3.congr fun y hy => hdisj y (List.mem_append_right _ hy)⟩
    rw [hnb, hn]
  have hsub : (s ++ [b] ++ q).Nodup :=
    hnd.sublist (List.Sublist.append_left (List.sublist_cons_self m q) _)
  rw [← hs, List.cons_append] at hpath hsub
  exact ⟨hpath, hsub⟩

end Ring
