import LightningOS.Properties.Commands
import LightningOS.Properties.Location

/-!
# What the permission check looks at

`may_write` compares strings. The node that a path leads to, or the directory that a new
node would be in, is turned into a string by `fs_abspath`, and the string has to start with
the home directory of the account or with `/tmp`. Here is what that says about the names on
the way to the node.
-/

namespace LightningOS.Shell

open ByteMemory CString Ramfs Users Persist Forest

/-! ## Strings that start with a path -/

theorem atOrBelow_iff {dir path : List UInt8} : atOrBelow dir path = true ↔
    ∃ tail, path = dir ++ tail ∧ (tail = [] ∨ ∃ cs, tail = slash :: cs) := by
  unfold atOrBelow
  rw [Bool.and_eq_true, decide_eq_true_eq]
  constructor
  · rintro ⟨htake, hdrop⟩
    refine ⟨path.drop dir.length, ?_, ?_⟩
    · conv_lhs => rw [← List.take_append_drop dir.length path, htake]
    · split at hdrop
      next hnil => exact Or.inl hnil
      next c cs hcons =>
        have hc : c = slash := by simpa using hdrop
        exact Or.inr ⟨cs, by rw [hcons, hc]⟩
  · rintro ⟨tail, rfl, htail⟩
    refine ⟨List.take_left, ?_⟩
    rw [List.drop_left]
    rcases htail with rfl | ⟨cs, rfl⟩
    · rfl
    · simp

/-- A text without slashes, and what starts at the next slash, can be told apart. -/
theorem append_slash_inj {a b x y : List UInt8} (ha : slash ∉ a) (hb : slash ∉ b)
    (hx : x = [] ∨ ∃ cs, x = slash :: cs) (hy : y = [] ∨ ∃ cs, y = slash :: cs)
    (h : a ++ x = b ++ y) : a = b ∧ x = y := by
  have hfront : ∀ {a x : List UInt8}, slash ∉ a → (x = [] ∨ ∃ cs, x = slash :: cs) →
      (a ++ x).takeWhile (· != slash) = a := by
    intro a x ha hx
    rw [List.takeWhile_append_of_pos fun c hc => by
      simpa using fun heq : c = slash => ha (heq ▸ hc)]
    rcases hx with rfl | ⟨cs, rfl⟩ <;> simp
  have hab : a = b := by rw [← hfront ha hx, h, hfront hb hy]
  subst hab
  exact ⟨rfl, List.append_cancel_left h⟩

/-- For the paths of two locations, the check compares the names. -/
theorem atOrBelow_joinPath {ds : List (List UInt8)} (hds : ∀ name ∈ ds, slash ∉ name) :
    ∀ {ps : List (List UInt8)}, (∀ name ∈ ps, slash ∉ name) →
      (atOrBelow (joinPath ds) (joinPath ps) = true ↔ ds <+: ps) := by
  induction ds with
  | nil =>
    intro ps _
    simp only [List.nil_prefix, iff_true]
    exact atOrBelow_iff.mpr ⟨joinPath ps, rfl, joinPath_cases ps⟩
  | cons d ds ih =>
    intro ps hps
    cases ps with
    | nil =>
      refine iff_of_false (fun hat => ?_) (by simp)
      obtain ⟨tail, htail, -⟩ := atOrBelow_iff.mp hat
      simp [joinPath_nil, joinPath_cons] at htail
    | cons p ps =>
      rw [List.cons_prefix_cons, ← ih (fun m hm => hds m (by simp [hm]))
        fun m hm => hps m (by simp [hm]), atOrBelow_iff, atOrBelow_iff]
      constructor
      · rintro ⟨tail, heq, htail⟩
        simp only [joinPath_cons, List.cons_append, List.cons.injEq, true_and,
          List.append_assoc] at heq
        have hstart : joinPath ds ++ tail = [] ∨ ∃ cs, joinPath ds ++ tail = slash :: cs := by
          rcases joinPath_cases ds with hnil | ⟨cs, hcs⟩
          · rwa [hnil, List.nil_append]
          · exact Or.inr ⟨cs ++ tail, by rw [hcs, List.cons_append]⟩
        obtain ⟨hpd, hrest⟩ := append_slash_inj (hps p (by simp)) (hds d (by simp))
          (joinPath_cases ps) hstart heq
        exact ⟨hpd.symm, tail, hrest, htail⟩
      · rintro ⟨rfl, tail, heq, htail⟩
        exact ⟨tail, by simp [joinPath_cons, heq], htail⟩

/-- Only the front of a string is compared. -/
theorem atOrBelow_take {dir path : List UInt8} {n : Nat} (h : dir.length < n) :
    atOrBelow dir (path.take n) = atOrBelow dir path := by
  unfold atOrBelow
  rw [List.take_take, Nat.min_eq_left (by omega), List.drop_take]
  cases hdrop : path.drop dir.length with
  | nil => simp
  | cons c cs =>
    obtain ⟨k, hk⟩ : ∃ k, n - dir.length = k + 1 := ⟨n - dir.length - 1, by omega⟩
    rw [hk, List.take_succ_cons]

/-! ## The places an account may write to -/

/-- In the home directory of `u` or in `/tmp`, or one of the two. -/
def Inside (u : List UInt8) (ns : List (List UInt8)) : Prop :=
  [ofString "home", u] <+: ns ∨ [ofString "tmp"] <+: ns

/-- An account as `users_add` makes them for people who are not administrators. -/
structure Ordinary (u : User) : Prop where
  valid : validName u.name = true
  home : u.home = ofString "/home/" ++ u.name
  uid : u.uid ≠ 0

variable {env : Env}

/-- The new account is one of these, as long as the counter for identities is not zero. -/
theorem usersAdd_ordinary {available : Bool} {t t' : Table} {s s' : Fs}
    {name password : List UInt8} (hnext : t.nextUid ≠ 0)
    (h : usersAdd env available t s name password false = some (0, t', s')) :
    ∃ slot, t.users slot ≠ t'.users slot ∧ (t'.users slot).name = name ∧
      Ordinary (t'.users slot) := by
  rcases usersAdd_spec h with ⟨hneg, -⟩ |
    ⟨-, -, slot, u, -, hacc, hname, hactive, hhome, huid, -, -, rfl⟩
  · exact absurd hneg (by decide)
  have hsame : (t.setUser slot u).users slot = u := setUser_same slot u
  have hlen := (validName_spec hacc.valid).2
  refine ⟨slot, ?_, ?_, ?_, ?_, ?_⟩
  · show t.users slot ≠ (t.setUser slot u).users slot
    rw [hsame]
    intro heq
    have hfree := freeSlot_spec hacc.free
    rw [heq, hactive] at hfree
    exact absurd hfree (by decide)
  · show ((t.setUser slot u).users slot).name = name
    rw [hsame, hname]
  · show validName ((t.setUser slot u).users slot).name = true
    rw [hsame, hname]
    exact hacc.valid
  · show ((t.setUser slot u).users slot).home =
      ofString "/home/" ++ ((t.setUser slot u).users slot).name
    rw [hsame, hname, hhome, if_neg Bool.false_ne_true]
    refine List.take_of_length_le ?_
    rw [List.length_append]
    have : (ofString "/home/").length = 6 := by decide
    have : userHomeMax = 64 := rfl
    have : userNameMax = 32 := rfl
    omega
  · show ((t.setUser slot u).users slot).uid ≠ 0
    rw [hsame, huid, if_neg Bool.false_ne_true]
    exact hnext

variable {u : User}

theorem Ordinary.noSlash (h : Ordinary u) : slash ∉ u.name := by
  intro hmem
  have hvalid := h.valid
  unfold validName at hvalid
  split at hvalid
  · simp at hvalid
  · simp only [Bool.and_eq_true, List.all_eq_true] at hvalid
    exact absurd (hvalid.1.2 slash hmem) (by decide)

theorem Ordinary.length (h : Ordinary u) : u.name.length ≤ fsNameMax - 1 := by
  have := (validName_spec h.valid).2
  have : userNameMax = 32 := rfl
  have : fsNameMax = 32 := rfl
  omega

theorem homeNames_noSlash (h : Ordinary u) : ∀ name ∈ [ofString "home", u.name], slash ∉ name := by
  intro name hname
  simp only [List.mem_cons, List.not_mem_nil, or_false] at hname
  rcases hname with rfl | rfl
  · decide
  · exact h.noSlash

theorem tmpNames_noSlash : ∀ name ∈ [ofString "tmp"], slash ∉ name := by
  intro name hname
  rw [List.mem_singleton] at hname
  subst hname
  decide

theorem Ordinary.home_eq (h : Ordinary u) : u.home = joinPath [ofString "home", u.name] := by
  rw [h.home, joinPath_cons, joinPath_cons, joinPath_nil, List.append_nil]
  rfl

variable {t : Table} {i : UserSlot}

/-- What `users_may_write` says about the path of a location, as far as it got into the
buffer. -/
theorem usersMayWrite_joinPath (hcur : t.current = some i) (hu : Ordinary (t.users i))
    {ps : List (List UInt8)} (hps : ∀ name ∈ ps, slash ∉ name) {n : Nat} (hn : 64 ≤ n) :
    usersMayWrite t ((joinPath ps).take n) = true ↔ Inside (t.users i).name ps := by
  have hroot : usersIsRoot t = false := by simp [usersIsRoot, hcur, hu.uid]
  have hlen := hu.length
  have hmax : fsNameMax = 32 := rfl
  have hhome : (t.users i).home.length < n := by
    rw [hu.home, List.length_append]
    have : (ofString "/home/").length = 6 := by decide
    omega
  have htmp : ofString "/tmp" = joinPath [ofString "tmp"] := by decide
  unfold usersMayWrite Inside
  rw [hroot, hcur, htmp]
  simp only [Bool.false_eq_true, if_false, Bool.or_eq_true]
  rw [atOrBelow_take hhome, atOrBelow_take (by rw [← htmp]; exact Nat.lt_of_lt_of_le (by decide) hn),
    hu.home_eq, atOrBelow_joinPath (homeNames_noSlash hu) hps,
    atOrBelow_joinPath tmpNames_noSlash hps]

theorem Inside.append {w : List UInt8} {ns : List (List UInt8)} (h : Inside w ns)
    (ms : List (List UInt8)) : Inside w (ns ++ ms) :=
  h.imp (·.trans (List.prefix_append ns ms)) (·.trans (List.prefix_append ns ms))

/-- Two names decide. -/
theorem inside_append {w : List UInt8} {ns : List (List UInt8)} (hns : 2 ≤ ns.length)
    (ms : List (List UInt8)) : Inside w (ns ++ ms) ↔ Inside w ns := by
  refine ⟨fun h => ?_, fun h => h.append ms⟩
  have hcut : ∀ {ds : List (List UInt8)}, ds.length ≤ ns.length → ds <+: ns ++ ms → ds <+: ns :=
    fun hlen hp => List.prefix_of_prefix_length_le hp (List.prefix_append ns ms) hlen
  exact h.imp (hcut hns) (hcut (Nat.le_trans (by decide) hns))

theorem inside_take {w : List UInt8} {ns ms : List (List UInt8)} {k : Nat}
    (hk : k = ns.length ∨ 2 ≤ k) : Inside w (ns.take k ++ ms) ↔ Inside w (ns ++ ms) := by
  rcases hk with rfl | hk
  · rw [List.take_length]
  · by_cases hlen : ns.length ≤ k
    · rw [List.take_of_length_le hlen]
    · have htake : 2 ≤ (ns.take k).length := by
        rw [List.length_take]
        omega
      rw [inside_append htake, inside_append (by omega), ← inside_append htake (ns.drop k),
        List.take_append_drop]

variable {s s' : Fs} {root : Ptr} {kids : Forest Ptr}

/-- A name that is cut to the size of a name is in the same places. -/
theorem inside_cut (h : Ordinary u) {ns : List (List UInt8)} {name : List UInt8}
    (hin : Inside u.name (ns ++ [name])) :
    Inside u.name (ns ++ [name.take (fsNameMax - 1)]) := by
  have hcut : ∀ {ds : List (List UInt8)}, (∀ m ∈ ds, m.length ≤ fsNameMax - 1) →
      ds <+: ns ++ [name] → ds <+: ns ++ [name.take (fsNameMax - 1)] := by
    intro ds hds hp
    rcases List.prefix_concat_iff.mp hp with rfl | hp
    · have hshort := List.take_of_length_le (hds name (by simp))
      exact hshort.symm ▸ List.prefix_rfl
    · exact hp.trans (List.prefix_append _ _)
  refine hin.imp (hcut fun m hm => ?_) (hcut fun m hm => ?_)
  · simp only [List.mem_cons, List.not_mem_nil, or_false] at hm
    rcases hm with rfl | rfl
    · decide
    · exact h.length
  · rw [List.mem_singleton] at hm
    subst hm
    decide

/-! ## Nodes -/

/-- The check for a node that is there. -/
theorem mayWrite_node (hcur : t.current = some i) (hu : Ordinary (t.users i))
    (h : TreeInv s root kids) {p : Ptr} {ns : List (List UInt8)} (hl : Located s p ns)
    {out : List UInt8} (habs : fsAbspath s p fsPathMax = some out)
    (hmay : usersMayWrite t (if out = [] then [slash] else out) = true) :
    Inside (t.users i).name (seen ns) := by
  obtain ⟨out', k, habs', hk, hcase⟩ := abspath_eq h hl
  rw [habs] at habs'
  obtain rfl := Option.some.inj habs'
  have hnames := seen_isName (hl.isName h)
  rcases hcase with ⟨-, rfl⟩ | ⟨-, hout, hlen⟩
  · -- the root is the path of an empty name, and that is nobody's place
    have hroot : [slash] = (joinPath [[]]).take 64 := by decide
    rw [if_neg (by simp), hroot, usersMayWrite_joinPath hcur hu (by simp) (Nat.le_refl 64)] at hmay
    rcases hmay with hp | hp
    · simp at hp
    · rw [List.prefix_cons_iff] at hp
      rcases hp with hp | ⟨_, hp, -⟩
      · simp at hp
      · exact absurd (List.cons.inj hp).1 (by decide)
  · have hne : out ≠ [] := by
      rintro rfl
      simp at hlen
    have htake : (joinPath ((seen ns).take k)).take (max 64 out.length) = out := by
      rw [← hout, List.take_of_length_le (Nat.le_max_right _ _)]
    rw [if_neg hne, ← htake, usersMayWrite_joinPath hcur hu
      (fun m hm => (hnames m (List.mem_of_mem_take hm)).slash) (Nat.le_max_left _ _)] at hmay
    have hmay' : Inside (t.users i).name ((seen ns).take k ++ []) := by simpa using hmay
    simpa using (inside_take hk).mp hmay'

/-- The string for a new name in a directory. -/
theorem childAbspath_eq {ns : List (List UInt8)} {out : List UInt8} {k : Nat}
    (hcase : ns = [] ∧ out = [slash] ∨
      ns ≠ [] ∧ out = joinPath ((seen ns).take k) ∧ 2 ≤ out.length) (name : List UInt8) :
    childAbspath (if out = [] then [slash] else out) name =
      (joinPath ((seen ns).take k ++ [name])).take (fsPathMax - 1) := by
  unfold childAbspath
  rcases hcase with ⟨rfl, rfl⟩ | ⟨-, hout, hlen⟩
  · rw [if_neg (by simp), if_pos rfl]
    simp [seen, joinPath_cons, joinPath_nil]
  · have hne : out ≠ [] := by
      rintro rfl
      simp at hlen
    have hne' : out ≠ [slash] := by
      rintro rfl
      simp at hlen
    rw [if_neg hne, if_neg hne', joinPath_concat, ← hout, List.append_assoc,
      List.singleton_append]

theorem noSlash_concat {ns : List (List UInt8)} (hns : ∀ m ∈ ns, IsName m) {name : List UInt8}
    (hname : slash ∉ name) (k : Nat) : ∀ m ∈ ns.take k ++ [name], slash ∉ m := by
  intro m hm
  rcases List.mem_append.mp hm with hm | hm
  · exact (hns m (List.mem_of_mem_take hm)).slash
  · rw [List.mem_singleton] at hm
    rwa [hm]

/-- The check for a new name in a directory. -/
theorem mayWrite_child (hcur : t.current = some i) (hu : Ordinary (t.users i))
    (h : TreeInv s root kids) {d : Ptr} {ns : List (List UInt8)} (hl : Located s d ns)
    {name out : List UInt8} (hname : slash ∉ name)
    (habs : fsAbspath s d fsPathMax = some out)
    (hmay : usersMayWrite t (childAbspath (if out = [] then [slash] else out) name) = true) :
    Inside (t.users i).name (seen ns ++ [name]) := by
  obtain ⟨out', k, habs', hk, hcase⟩ := abspath_eq h hl
  rw [habs] at habs'
  obtain rfl := Option.some.inj habs'
  have hslash := noSlash_concat (seen_isName (hl.isName h)) hname
  rw [childAbspath_eq hcase, usersMayWrite_joinPath hcur hu (hslash k) (by decide)] at hmay
  exact (inside_take hk).mp hmay

/-! ## The two ways to the node -/

theorem components_split (a b : List UInt8) :
    components (a ++ slash :: b) = components a ++ components b := by
  unfold components
  rw [List.splitOn_append_cons_self, List.filter_append, List.map_append]

theorem components_single {name : List UInt8} (hne : name ≠ []) (hs : slash ∉ name) :
    components name = [name.take (fsNameMax - 1)] := by
  have h := components_append hne hs (Or.inl rfl)
  rwa [List.append_nil, components_nil] at h

theorem splitLastSlash_some {txt dir name : List UInt8}
    (h : splitLastSlash txt = some (dir, name)) : txt = dir ++ slash :: name ∧ slash ∉ name := by
  obtain ⟨back, hback⟩ : ∃ back, back = txt.reverse.takeWhile (· != slash) := ⟨_, rfl⟩
  have hsplit : txt = (txt.reverse.dropWhile (· != slash)).reverse ++ back.reverse := by
    rw [hback, ← List.reverse_append, List.takeWhile_append_dropWhile, List.reverse_reverse]
  have hslash : slash ∉ back.reverse := by
    rw [List.mem_reverse, hback]
    exact takeWhile_ne_slash _
  unfold splitLastSlash at h
  simp only [← hback] at h
  split at h
  · simp at h
  next hlen =>
    simp only [Option.some.injEq, Prod.mk.injEq] at h
    obtain ⟨hdir, rfl⟩ := h
    refine ⟨?_, hslash⟩
    rcases dropWhile_ne_slash txt.reverse with hnil | ⟨cs, hcs⟩
    · rw [hnil, List.reverse_nil, List.nil_append] at hsplit
      exact absurd (congrArg List.length hsplit).symm hlen
    · rw [hcs, List.reverse_cons, List.append_assoc, List.singleton_append] at hsplit
      have htake : txt.take (txt.length - back.reverse.length - 1) = cs.reverse := by
        conv_lhs => rw [hsplit]
        refine List.take_left' ?_
        simp only [List.length_append, List.length_cons]
        omega
      rw [← hdir, htake]
      exact hsplit

theorem splitLastSlash_none {txt : List UInt8} (h : splitLastSlash txt = none) : slash ∉ txt := by
  unfold splitLastSlash at h
  simp only at h
  split at h
  next hlen =>
    intro hmem
    have hpre := List.takeWhile_prefix (l := txt.reverse) (· != slash)
    have heq := hpre.eq_of_length (by simpa using hlen)
    exact takeWhile_ne_slash txt.reverse (heq.symm ▸ List.mem_reverse.mpr hmem)
  next => simp at h

/-- The walk to the directory that holds the last component of a path. -/
structure LeadsTo (s : Fs) (path : List UInt8) (d : Ptr) (comp : List UInt8) : Prop where
  walk : ∃ p init, start s path = some p ∧ pathNames path = init ++ [comp] ∧
    follow s (some p) init = some (some d)

theorem LeadsTo.unique {path : List UInt8} {d d' : Ptr} {comp comp' : List UInt8}
    (h : LeadsTo s path d comp) (h' : LeadsTo s path d' comp') : d = d' ∧ comp = comp' := by
  obtain ⟨p, init, hp, hnames, hfollow⟩ := h.walk
  obtain ⟨p', init', hp', hnames', hfollow'⟩ := h'.walk
  rw [hnames] at hnames'
  obtain ⟨rfl, hcomp⟩ := List.append_inj' hnames' rfl
  rw [hp] at hp'
  obtain rfl := Option.some.inj hp'
  rw [hfollow] at hfollow'
  exact ⟨Option.some.inj (Option.some.inj hfollow'), List.head_eq_of_cons_eq hcomp⟩

/-- The last step decides where the path leads. -/
theorem LeadsTo.resolve {path : List UInt8} {d : Ptr} {comp : List UInt8}
    (h : LeadsTo s path d comp) : fsResolve s path = follow s (some d) [comp] := by
  obtain ⟨p, init, hp, hnames, hfollow⟩ := h.walk
  rw [fsResolve_follow, hp, hnames, follow_append _ _ _ _ (by simp [hfollow]), hfollow]
  rfl

/-- `fs_create` makes its node in that directory. -/
theorem create_leadsTo (h : TreeInv s root kids) {c : Ptr} (hc : s.currentDir = some c)
    {path : List UInt8} {type : FsType} {p : Ptr}
    (hcreate : fsCreate env s path type = some (some p, s')) :
    ∃ d comp kids', LeadsTo s path d comp ∧ CreatedIn s s' root kids kids' d p comp type := by
  obtain ⟨d, comp, hw, hfind, -⟩ := fsCreate_some hcreate
  have hd : d ∈ (tree root kids).ids := by
    cases hn : s.nodes.get d with
    | none => simp [findChild, hn] at hfind
    | some n => exact h.mem hn
  have hne : path ≠ [] := by
    rintro rfl
    simp [walk] at hw
  obtain ⟨p₀, hstart⟩ : ∃ p₀, start s path = some p₀ := by
    unfold start
    split
    · exact ⟨root, h.isRoot⟩
    · exact ⟨c, hc⟩
  have hw' := hw
  rw [walk_followParent h.isRoot hne hstart] at hw'
  have hcomp : comp = [] ∨ IsName comp ∧ LeadsTo s path d comp := by
    unfold followParent at hw'
    cases hlast : (pathNames path).getLast? with
    | none =>
      simp only [hlast, Option.some.injEq, Prod.mk.injEq] at hw'
      exact Or.inl hw'.2.symm
    | some last =>
      simp only [hlast] at hw'
      split at hw'
      · simp at hw'
      · simp at hw'
      next q hq =>
        simp only [Option.some.injEq, Prod.mk.injEq] at hw'
        obtain ⟨rfl, rfl⟩ := hw'
        obtain ⟨init, hinit⟩ := List.getLast?_eq_some_iff.mp hlast
        refine Or.inr ⟨isName_of_mem_components (List.mem_of_getLast? hlast), p₀, init, hstart,
          hinit, ?_⟩
        rwa [hinit, List.dropLast_concat] at hq
  obtain ⟨r, s'', hcreate', hcase⟩ := h.create env type hw (fun q hq => Option.some.inj hq ▸ hd)
    (hcomp.imp_right And.left)
  rw [hcreate] at hcreate'
  obtain ⟨rfl, rfl⟩ := Prod.mk.inj (Option.some.inj hcreate')
  rcases hcase with ⟨hnone, -⟩ | ⟨d', p', kids', hd', hp', hin⟩
  · simp at hnone
  · obtain rfl := Option.some.inj hd'
    obtain rfl := Option.some.inj hp'
    rcases hcomp with rfl | ⟨-, hleads⟩
    · exact absurd rfl hin.isName.ne_nil
    · exact ⟨d, comp, kids', hleads, hin⟩

/-- The end of `target_abspath`, for a directory and a name. -/
theorem target_end {parent : Option (Option Ptr)} {name abspath : List UInt8}
    (h : (match parent with
      | none => none
      | some none => some none
      | some (some p) =>
        match s.nodes.get p with
        | none => none
        | some pn =>
          if pn.type ≠ .dir ∨ name = [] then some none
          else
            (fsAbspath s p fsPathMax).map fun parentPath =>
              some (childAbspath (if parentPath = [] then [slash] else parentPath) name)) =
      some (some abspath)) :
    ∃ d out, parent = some (some d) ∧ name ≠ [] ∧ fsAbspath s d fsPathMax = some out ∧
      abspath = childAbspath (if out = [] then [slash] else out) name := by
  split at h
  · simp at h
  · simp at h
  next d =>
    split at h
    · simp at h
    · split at h
      · simp at h
      next hok =>
        rw [not_or] at hok
        obtain ⟨out, hout, heq⟩ := Option.map_eq_some_iff.mp h
        exact ⟨d, out, rfl, hok.2, hout, (Option.some.inj heq).symm⟩

/-- A path without a slash in its first 255 bytes leads into the working directory. -/
theorem leadsTo_cwd {c : Ptr} (hc : s.currentDir = some c) {path : List UInt8}
    (hs : slash ∉ path.take (fsPathMax - 1)) (hne : path.take (fsPathMax - 1) ≠ []) :
    LeadsTo s path c ((path.take (fsPathMax - 1)).take (fsNameMax - 1)) := by
  refine ⟨c, [], ?_, components_single hne hs, rfl⟩
  unfold start
  rw [if_neg ?_, hc]
  intro hhead
  apply hs
  cases path with
  | nil => simp at hhead
  | cons b bs =>
    rw [List.head?_cons, Option.some.injEq] at hhead
    rw [hhead]
    exact List.mem_cons_self

/-- Otherwise it leads to where the text in front of the last slash leads. -/
theorem leadsTo_dir {path dir name : List UInt8} (hr : s.rootNode = some root) {c d : Ptr}
    (hc : s.currentDir = some c) (hcut : path.take (fsPathMax - 1) = dir ++ slash :: name)
    (hs : slash ∉ name) (hne : name ≠ [])
    (hd : fsResolve s (if dir = [] then [slash] else dir) = some (some d)) :
    LeadsTo s path d (name.take (fsNameMax - 1)) := by
  have hmax : fsPathMax = 256 := rfl
  have hnames : pathNames path = components dir ++ [name.take (fsNameMax - 1)] := by
    unfold pathNames
    rw [hcut, components_split, components_single hne hs]
  have hstart : start s path = start s (if dir = [] then [slash] else dir) := by
    have hhead : path.head? = (path.take (fsPathMax - 1)).head? := by cases path <;> rfl
    unfold start
    rw [hhead, hcut]
    cases dir <;> rfl
  have hdir : pathNames (if dir = [] then [slash] else dir) = components dir := by
    have hlen := congrArg List.length hcut
    rw [List.length_take, List.length_append, List.length_cons] at hlen
    split
    next hnil =>
      rw [hnil]
      rfl
    next => rw [pathNames, List.take_of_length_le (by omega)]
  obtain ⟨p, hp⟩ : ∃ p, start s path = some p := by
    unfold start
    split
    · exact ⟨root, hr⟩
    · exact ⟨c, hc⟩
  rw [fsResolve_follow, hdir, ← hstart, hp] at hd
  exact ⟨p, components dir, hp, hnames, hd⟩

/-- What stands behind the last slash. -/
def leaf (path : List UInt8) : List UInt8 :=
  ((path.take (fsPathMax - 1)).reverse.takeWhile (· != slash)).reverse

theorem leaf_noSlash (path : List UInt8) : slash ∉ leaf path := by
  rw [leaf, List.mem_reverse]
  exact takeWhile_ne_slash _

theorem leaf_of_split {path dir name : List UInt8}
    (h : splitLastSlash (path.take (fsPathMax - 1)) = some (dir, name)) : name = leaf path := by
  unfold splitLastSlash at h
  simp only at h
  split at h
  · simp at h
  · exact (congrArg Prod.snd (Option.some.inj h)).symm

theorem leaf_of_whole {path : List UInt8} (h : slash ∉ path.take (fsPathMax - 1)) :
    path.take (fsPathMax - 1) = leaf path := by
  rw [leaf, List.takeWhile_eq_self_iff.mpr, List.reverse_reverse]
  intro c hc
  simpa using fun heq : c = slash => h (heq ▸ List.mem_reverse.mp hc)

/-- `target_abspath` finds the same directory for a path that leads nowhere. -/
theorem target_missing {c : Ptr} (hc : s.currentDir = some c) (hr : s.rootNode = some root)
    {path abspath : List UInt8} (hres : fsResolve s path = some none)
    (htarget : targetAbspath s path = some (some abspath)) :
    ∃ d out, LeadsTo s path d ((leaf path).take (fsNameMax - 1)) ∧
      fsAbspath s d fsPathMax = some out ∧
      abspath = childAbspath (if out = [] then [slash] else out) (leaf path) := by
  unfold targetAbspath at htarget
  simp only [hres] at htarget
  cases hs : splitLastSlash (path.take (fsPathMax - 1)) with
  | none =>
    simp only [hs] at htarget
    obtain ⟨d, out, hd, hne, hout, heq⟩ := target_end htarget
    rw [hc, Option.some.injEq, Option.some.injEq] at hd
    subst hd
    have hno := splitLastSlash_none hs
    rw [← leaf_of_whole hno]
    exact ⟨c, out, leadsTo_cwd hc hno hne, hout, heq⟩
  | some split =>
    obtain ⟨dir, name⟩ := split
    obtain ⟨hcut, hno⟩ := splitLastSlash_some hs
    simp only [hs] at htarget
    obtain ⟨d, out, hd, hne, hout, heq⟩ := target_end htarget
    rw [← leaf_of_split hs]
    exact ⟨d, out, leadsTo_dir hr hc hcut hno hne hd, hout, heq⟩

end LightningOS.Shell
