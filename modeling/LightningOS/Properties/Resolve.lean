import LightningOS.Fs.WalkArray
import LightningOS.Properties.Siblings

/-!
# What a path means

The reference for walks: a path is its components, and each of them is one step from node to
node. `walk` computes that, its indices stay within their arrays, and it always comes back. The
last component it hands out is a string unless it fills the 31 bytes that are copied.
-/

namespace LightningOS.Ramfs

open ByteMemory CString Forest

/-! ## Indices into a terminated string -/

variable {buffer pre rest pad : List UInt8}

/-- Behind the text there is a zero. -/
theorem read_nil (hb : buffer = pre ++ [] ++ 0 :: pad) : buffer[pre.length]? = some 0 := by
  rw [hb, List.append_nil, List.getElem?_append_right (Nat.le_refl _), Nat.sub_self]
  rfl

theorem read_cons {c : UInt8} (hb : buffer = pre ++ c :: rest ++ 0 :: pad) :
    buffer[pre.length]? = some c := by
  rw [hb, List.append_assoc, List.getElem?_append_right (Nat.le_refl _), Nat.sub_self]
  rfl

theorem skipSlashesAt_spec : ∀ {fuel : Nat} {pre rest : List UInt8},
    buffer = pre ++ rest ++ 0 :: pad → rest.length < fuel →
      ∃ pre', pre ++ rest = pre' ++ rest.dropWhile (· == slash) ∧
        skipSlashesAt buffer fuel pre.length = some pre'.length := by
  intro fuel
  induction fuel with
  | zero => intro pre rest _ h; omega
  | succ fuel ih =>
    intro pre rest hb hf
    rw [skipSlashesAt]
    cases rest with
    | nil =>
      rw [read_nil hb]
      exact ⟨pre, rfl, rfl⟩
    | cons c rest =>
      rw [read_cons hb]
      dsimp only
      by_cases hc : c = slash
      · have hb' : buffer = (pre ++ [c]) ++ rest ++ 0 :: pad := by simp [hb]
        obtain ⟨pre', hsplit, hrun⟩ := ih hb' (by rw [List.length_cons] at hf; omega)
        rw [List.length_append, List.length_singleton] at hrun
        rw [if_pos hc, List.dropWhile_cons_of_pos (by simpa using hc)]
        exact ⟨pre', by rw [← hsplit]; simp, hrun⟩
      · rw [if_neg hc, List.dropWhile_cons_of_neg (by simpa using hc)]
        exact ⟨pre, rfl, rfl⟩

theorem skipTailAt_spec : ∀ {fuel : Nat} {pre rest : List UInt8},
    buffer = pre ++ rest ++ 0 :: pad → (0 : UInt8) ∉ rest → rest.length < fuel →
      ∃ pre', pre ++ rest = pre' ++ rest.dropWhile (· != slash) ∧
        skipTailAt buffer fuel pre.length = some pre'.length := by
  intro fuel
  induction fuel with
  | zero => intro pre rest _ _ h; omega
  | succ fuel ih =>
    intro pre rest hb h0 hf
    rw [skipTailAt]
    cases rest with
    | nil =>
      rw [read_nil hb]
      exact ⟨pre, rfl, rfl⟩
    | cons c rest =>
      rw [read_cons hb]
      dsimp only
      rw [List.mem_cons, not_or] at h0
      by_cases hc : c = slash
      · rw [if_neg (by simp [hc]), List.dropWhile_cons_of_neg (by simpa using hc)]
        exact ⟨pre, rfl, rfl⟩
      · have hb' : buffer = (pre ++ [c]) ++ rest ++ 0 :: pad := by simp [hb]
        obtain ⟨pre', hsplit, hrun⟩ := ih hb' h0.2 (by rw [List.length_cons] at hf; omega)
        rw [List.length_append, List.length_singleton] at hrun
        rw [if_pos ⟨Ne.symm h0.1, hc⟩, List.dropWhile_cons_of_pos (by simpa using hc)]
        exact ⟨pre', by rw [← hsplit]; simp, hrun⟩

/-- The component that is copied, when there is room for `room` more bytes. -/
def cut (rest : List UInt8) (room : Nat) : List UInt8 := (rest.takeWhile (· != slash)).take room

theorem cut_length_le (rest : List UInt8) (room : Nat) : (cut rest room).length ≤ room :=
  List.length_take_le _ _

theorem copyAt_spec : ∀ {fuel : Nat} {pre rest component : List UInt8} {len : Nat},
    buffer = pre ++ rest ++ 0 :: pad → (0 : UInt8) ∉ rest → rest.length < fuel →
      component.length = fsNameMax → len ≤ fsNameMax - 1 →
      ∃ pre', pre ++ rest = pre' ++ rest.drop (cut rest (fsNameMax - 1 - len)).length ∧
        copyAt buffer fuel pre.length component len =
          some (pre'.length, component.take len ++ cut rest (fsNameMax - 1 - len) ++
            component.drop (len + (cut rest (fsNameMax - 1 - len)).length),
            len + (cut rest (fsNameMax - 1 - len)).length) := by
  intro fuel
  induction fuel with
  | zero => intro pre rest component len _ _ h; omega
  | succ fuel ih =>
    intro pre rest component len hb h0 hf hlen hle
    have hmax : fsNameMax = 32 := rfl
    have hstop : cut rest (fsNameMax - 1 - len) = [] →
        (∃ pre', pre ++ rest = pre' ++ rest.drop (cut rest (fsNameMax - 1 - len)).length ∧
          some (pre.length, component, len) =
            some (pre'.length, component.take len ++ cut rest (fsNameMax - 1 - len) ++
              component.drop (len + (cut rest (fsNameMax - 1 - len)).length),
              len + (cut rest (fsNameMax - 1 - len)).length)) := by
      intro hnil
      refine ⟨pre, by rw [hnil]; rfl, ?_⟩
      rw [hnil, List.append_nil, List.length_nil, Nat.add_zero, List.take_append_drop]
    rw [copyAt]
    cases rest with
    | nil =>
      rw [read_nil hb]
      exact hstop (by simp [cut])
    | cons c rest =>
      rw [read_cons hb]
      dsimp only
      rw [List.mem_cons, not_or] at h0
      by_cases hc : c = slash
      · rw [if_neg (by simp [hc])]
        exact hstop (by simp [cut, hc])
      by_cases hroom : len < fsNameMax - 1
      · rw [if_pos ⟨Ne.symm h0.1, hc, hroom⟩, poke, if_pos (by omega)]
        have hb' : buffer = (pre ++ [c]) ++ rest ++ 0 :: pad := by simp [hb]
        have hset : (component.set len c).length = fsNameMax := by
          rw [List.length_set, hlen]
        have hnext : len + 1 ≤ fsNameMax - 1 := hroom
        obtain ⟨pre', hsplit, hrun⟩ := ih hb' h0.2 (by rw [List.length_cons] at hf; omega) hset
          hnext
        have hcut : cut (c :: rest) (fsNameMax - 1 - len) =
            c :: cut rest (fsNameMax - 1 - (len + 1)) := by
          have hsub : fsNameMax - 1 - len = (fsNameMax - 1 - (len + 1)) + 1 := by omega
          rw [cut, List.takeWhile_cons_of_pos (by simpa using hc), hsub, List.take_succ_cons, cut]
        rw [List.length_append, List.length_singleton] at hrun
        refine ⟨pre', ?_, ?_⟩
        · rw [hcut, List.length_cons, List.drop_succ_cons, ← hsplit]
          simp
        · have htake : (component.set len c).take (len + 1) = component.take len ++ [c] := by
            rw [List.take_set, List.take_succ_eq_append_getElem (by omega),
              List.set_append_right _ _ (by rw [List.length_take]; omega), List.length_take,
              Nat.min_eq_left (by omega), Nat.sub_self]
            rfl
          have hdrop : ∀ k, (component.set len c).drop (len + 1 + k) =
              component.drop (len + 1 + k) := fun k => by
            rw [List.drop_set, if_pos (by omega)]
          have hlen' : ∀ k, len + 1 + k = len + (k + 1) := fun k => by omega
          dsimp only
          rw [hrun, hcut, htake, hdrop, List.length_cons, hlen', List.append_assoc (_ ++ [c]),
            List.append_assoc, List.singleton_append, ← List.cons_append, ← List.append_assoc]
      · rw [if_neg fun h => hroom h.2.2]
        have hzero : fsNameMax - 1 - len = 0 := by omega
        exact hstop (by rw [hzero, cut, List.take_zero])

theorem poke_eq {array : List UInt8} {i : Nat} {c : UInt8} (h : i < array.length) :
    poke array i c = some (array.set i c) := if_pos h

/-- The text in an array, when a terminator was put behind `w`. -/
theorem text_set {w tail : List UInt8} (h0 : (0 : UInt8) ∉ w) (ht : tail ≠ []) :
    text ((w ++ tail).set w.length 0) = w := by
  cases tail with
  | nil => exact absurd rfl ht
  | cons c tail =>
    rw [List.set_append_right _ _ (Nat.le_refl _), Nat.sub_self, List.set_cons_zero, text,
      List.takeWhile_append_of_pos fun d hd => by
        simpa using fun heq : d = 0 => h0 (heq ▸ hd),
      List.takeWhile_cons_of_neg (by simp), List.append_nil]

/-- What is left of a component that was cut is skipped. -/
theorem dropWhile_cut (rest : List UInt8) (room : Nat) :
    (rest.drop (cut rest room).length).dropWhile (· != slash) =
      rest.dropWhile (· != slash) := by
  obtain ⟨w, hw⟩ : ∃ w, w = rest.takeWhile (· != slash) := ⟨_, rfl⟩
  have hsplit : rest = w ++ rest.dropWhile (· != slash) := by
    rw [hw, List.takeWhile_append_dropWhile]
  have hall : ∀ c ∈ w.drop (cut rest room).length, (c != slash) = true := by
    intro c hc
    have hm : c ∈ rest.takeWhile (· != slash) := hw ▸ List.mem_of_mem_drop hc
    exact List.mem_takeWhile_imp (p := (· != slash)) hm
  have hlen : (cut rest room).length ≤ w.length := by
    rw [cut, ← hw, List.length_take]
    omega
  have hdrop : ∀ {k}, k ≤ w.length → rest.drop k = w.drop k ++ rest.dropWhile (· != slash) := by
    intro k hk
    conv_lhs => rw [hsplit]
    rw [List.drop_append_of_le_length hk]
  rw [hdrop hlen, List.dropWhile_append_of_pos hall]
  rcases dropWhile_ne_slash rest with hnil | ⟨cs, hcs⟩
  · rw [hnil]
    rfl
  · rw [hcs, List.dropWhile_cons_of_neg (by simp)]

/-- One component is read, and nothing outside of the arrays. -/
theorem componentAt_spec {junk : List UInt8} (hb : buffer = pre ++ rest ++ 0 :: pad)
    (h0 : (0 : UInt8) ∉ rest) (hf : rest.length < fsPathMax) (hj : junk.length = fsNameMax) :
    ∃ pre', pre ++ rest = pre' ++ rest.dropWhile (· != slash) ∧
      componentAt buffer junk pre.length =
        some (pre'.length, (rest.takeWhile (· != slash)).take (fsNameMax - 1),
          decide ((rest.dropWhile (· != slash)).dropWhile (· == slash) = [])) := by
  have hmax : fsNameMax = 32 := rfl
  obtain ⟨pre₁, hsplit₁, hcopy⟩ := copyAt_spec hb h0 hf hj (Nat.zero_le _)
  rw [Nat.sub_zero, Nat.zero_add, List.take_zero, List.nil_append] at hcopy
  rw [Nat.sub_zero] at hsplit₁
  obtain ⟨w, hw⟩ : ∃ w, w = cut rest (fsNameMax - 1) := ⟨_, rfl⟩
  have hwlen : w.length ≤ fsNameMax - 1 := hw ▸ cut_length_le _ _
  have hw0 : (0 : UInt8) ∉ w := fun hm =>
    h0 ((List.takeWhile_prefix _).subset (List.mem_of_mem_take (hw ▸ hm)))
  rw [← hw] at hcopy hsplit₁
  have htail : junk.drop w.length ≠ [] := by
    rw [Ne, List.drop_eq_nil_iff]
    omega
  have hpoke : poke (w ++ junk.drop w.length) w.length 0 =
      some ((w ++ junk.drop w.length).set w.length 0) := by
    refine poke_eq ?_
    rw [List.length_append, List.length_drop]
    omega
  -- behind the component, and behind the slashes that follow it
  have hlen₁ := (List.drop_sublist w.length rest).length_le
  have h0₁ : (0 : UInt8) ∉ rest.drop w.length := fun hm => h0 (List.mem_of_mem_drop hm)
  have hb₁ : buffer = pre₁ ++ rest.drop w.length ++ 0 :: pad := by rw [hb, hsplit₁]
  have hfuel₁ : (rest.drop w.length).length < fsPathMax := by omega
  obtain ⟨pre₂, hsplit₂, htail₂⟩ := skipTailAt_spec hb₁ h0₁ hfuel₁
  have hskip : (rest.drop w.length).dropWhile (· != slash) = rest.dropWhile (· != slash) :=
    hw ▸ dropWhile_cut rest (fsNameMax - 1)
  rw [hskip] at hsplit₂
  have hlen₂ := (List.dropWhile_sublist (· != slash) (l := rest)).length_le
  have hb₂ : buffer = pre₂ ++ rest.dropWhile (· != slash) ++ 0 :: pad := by
    rw [hb, hsplit₁, hsplit₂]
  have hfuel₂ : (rest.dropWhile (· != slash)).length < fsPathMax := by omega
  obtain ⟨pre₃, hsplit₃, hslash⟩ := skipSlashesAt_spec hb₂ hfuel₂
  refine ⟨pre₂, by rw [hsplit₁, hsplit₂], ?_⟩
  have hb₃ : buffer = pre₃ ++ (rest.dropWhile (· != slash)).dropWhile (· == slash) ++ 0 :: pad := by
    rw [hb, hsplit₁, hsplit₂, hsplit₃]
  have hlast : ∃ c, buffer[pre₃.length]? = some c ∧
      (c = 0 ↔ (rest.dropWhile (· != slash)).dropWhile (· == slash) = []) := by
    cases hrest : (rest.dropWhile (· != slash)).dropWhile (· == slash) with
    | nil =>
      rw [hrest] at hb₃
      exact ⟨0, read_nil hb₃, by simp⟩
    | cons c cs =>
      rw [hrest] at hb₃
      refine ⟨c, read_cons hb₃, iff_of_false ?_ (by simp)⟩
      rintro rfl
      have hm : (0 : UInt8) ∈ (rest.dropWhile (· != slash)).dropWhile (· == slash) := by
        rw [hrest]
        exact List.mem_cons_self
      exact h0 ((List.dropWhile_sublist _).subset ((List.dropWhile_sublist _).subset hm))
  obtain ⟨c, hc, hc0⟩ := hlast
  have hcut : w = (rest.takeWhile (· != slash)).take (fsNameMax - 1) := hw
  simp only [componentAt, hcopy, hpoke, htail₂, hslash, hc, Option.bind_eq_bind,
    Option.bind_some, Option.pure_def, text_set hw0 htail, ← hcut, decide_eq_decide.mpr hc0]

/-! ## The array of the caller -/

/-- What `last` holds when the walk has left the text `w` there. -/
def putLast (last w : List UInt8) : List UInt8 :=
  if w = [] then last else strncpy w (fsNameMax - 1) ++ last.drop (fsNameMax - 1)

/-- What the walk over the arrays gives back, next to the walk over the text. -/
def withLast (last : Option (List UInt8)) (r : Option Ptr × List UInt8) :
    Option Ptr × Option (List UInt8) := (r.1, last.map fun array => putLast array r.2)

theorem withLast_nil (last : Option (List UInt8)) (node : Option Ptr) :
    withLast last (node, []) = (node, last) := by
  cases last <;> rfl

theorem clearLast_eq {last : Option (List UInt8)} (h : ∀ array ∈ last, array.length = fsNameMax) :
    clearLast last = some (last.map fun array => array.set 0 0) := by
  cases last with
  | none => rfl
  | some array =>
    have hpos : 0 < array.length := by
      rw [h array rfl]
      decide
    rw [clearLast, poke_eq hpos, Option.map_some, Option.map_some]

theorem fillLast_eq {last : Option (List UInt8)} (h : ∀ array ∈ last, array.length = fsNameMax)
    {w : List UInt8} (hw : w ≠ []) :
    fillLast last w = some (last.map fun array => putLast array w) := by
  cases last with
  | none => rfl
  | some array =>
    have hle : fsNameMax - 1 ≤ array.length := by
      rw [h array rfl]
      decide
    rw [fillLast, strncpyInto, if_pos hle, Option.map_some, Option.map_some, putLast, if_neg hw]

theorem putLast_length {last : List UInt8} (h : last.length = fsNameMax) (w : List UInt8) :
    (putLast last w).length = fsNameMax := by
  have hmax : fsNameMax = 32 := rfl
  unfold putLast
  split
  · exact h
  · rw [List.length_append, strncpy_length, List.length_drop, h]
    omega

/-- What is read from `last` is what `fs_create` looks for. -/
theorem text_putLast {last : List UInt8} (h : last.length = fsNameMax) {w : List UInt8}
    (h0 : (0 : UInt8) ∉ w) (hw : w.length ≤ fsNameMax - 1) (behind : List UInt8) :
    text (putLast (last.set 0 0) w ++ behind) = lastText (last.drop (fsNameMax - 1) ++ behind) w := by
  have hmax : fsNameMax = 32 := rfl
  have htext : text w = w := by
    rw [text, List.takeWhile_eq_self_iff]
    intro c hc
    simpa using fun heq : c = 0 => h0 (heq ▸ hc)
  have hdrop : (last.set 0 0).drop (fsNameMax - 1) = last.drop (fsNameMax - 1) := by
    rw [List.drop_set, if_pos (by omega)]
  unfold putLast lastText
  by_cases hnil : w = []
  · subst hnil
    cases last with
    | nil => simp [hmax] at h
    | cons c last => rfl
  rw [if_neg hnil, hdrop, List.append_assoc, strncpy, htext, List.take_of_length_le hw]
  by_cases hlt : w.length < fsNameMax - 1
  · obtain ⟨k, hk⟩ : ∃ k, fsNameMax - 1 - w.length = k + 1 :=
      ⟨fsNameMax - 1 - w.length - 1, by omega⟩
    rw [if_pos hlt, List.append_assoc, hk, List.replicate_succ]
    exact text_terminated h0 _
  · rw [if_neg hlt, Nat.sub_eq_zero_of_le (by omega), List.replicate_zero, List.append_nil]
    conv_lhs => rw [text, List.takeWhile_append_of_pos fun d hd => by
      simpa using fun heq : d = 0 => h0 (heq ▸ hd)]
    rfl

/-- The array holds the string `w`, whatever is behind the array. -/
def HoldsText (array w : List UInt8) : Prop := ∀ behind, text (array ++ behind) = w

theorem holdsText_putLast {last : List UInt8} (h : last.length = fsNameMax) {w : List UInt8}
    (h0 : (0 : UInt8) ∉ w) (hw : w.length ≤ fsNameMax - 1) :
    HoldsText (putLast (last.set 0 0) w) w ↔
      w.length < fsNameMax - 1 ∨ last[fsNameMax - 1]? = some 0 := by
  have hmax : fsNameMax = 32 := rfl
  have hbyte : last.drop (fsNameMax - 1) = [last[fsNameMax - 1]] := by
    rw [List.drop_eq_getElem_cons (by omega), List.drop_of_length_le (by omega)]
  rw [List.getElem?_eq_getElem (by omega)]
  unfold HoldsText
  simp only [text_putLast h h0 hw, hbyte, lastText]
  by_cases hlt : w.length < fsNameMax - 1
  · simp [hlt]
  · simp only [hlt, if_false, List.append_right_eq_self, false_or, Option.some.injEq]
    constructor
    · intro hnil
      simpa [text] using hnil []
    · intro hzero behind
      rw [hzero]
      rfl

/-! ## The loop -/

variable {env : Env} {s : Fs}

theorem walkAtLoop_eq {t : Nat} {b : Bool} {last : Option (List UInt8)}
    (hl : ∀ array ∈ last, array.length = fsNameMax) : ∀ {fuel : Nat} {node : Option Ptr}
    {pre rest : List UInt8}, buffer = pre ++ rest ++ 0 :: pad → (0 : UInt8) ∉ rest →
      rest.length < fsPathMax →
      walkAtLoop env s t buffer b last fuel node pre.length =
        (walkLoop s b fuel node rest).map (withLast last) := by
  intro fuel
  induction fuel with
  | zero => intro node pre rest _ _ _; rfl
  | succ fuel ih =>
    intro node pre rest hb h0 hf
    rw [walkAtLoop, walkLoop]
    -- the check of the loop, and the same check behind the slashes
    obtain ⟨pre₁, hsplit₁, hslash⟩ := skipSlashesAt_spec hb hf
    rw [hsplit₁] at hb
    have h0₁ : (0 : UInt8) ∉ rest.dropWhile (· == slash) := fun hm =>
      h0 ((List.dropWhile_sublist _).subset hm)
    have hlen₁ := (List.dropWhile_sublist (· == slash) (l := rest)).length_le
    have hread : ∃ c, buffer[pre.length]? = some c ∧
        (c = 0 → rest.dropWhile (· == slash) = []) := by
      rw [← hsplit₁] at hb
      cases rest with
      | nil => exact ⟨0, read_nil hb, fun _ => rfl⟩
      | cons c rest =>
        refine ⟨c, read_cons hb, ?_⟩
        rintro rfl
        exact absurd List.mem_cons_self h0
    obtain ⟨c, hc, hzero⟩ := hread
    rw [hc]
    dsimp only
    cases htail : rest.dropWhile (· == slash) with
    | nil =>
      rw [htail] at hb
      rw [if_pos rfl, hslash]
      dsimp only
      rw [read_nil hb]
      dsimp only
      rw [if_pos rfl, Option.map_some, withLast_nil]
      split <;> rfl
    | cons d ds =>
      rw [if_neg fun h => by rw [hzero h] at htail; simp at htail,
        if_neg (List.cons_ne_nil d ds), hslash]
      dsimp only
      rw [htail] at hb h0₁ hlen₁
      rw [read_cons hb]
      dsimp only
      have hd : d ≠ 0 := by
        rintro rfl
        exact h0₁ List.mem_cons_self
      have hds : d ≠ slash := by
        rintro rfl
        have hhead := List.head_dropWhile_not (· == slash) (by rw [htail]; simp : _ ≠ [])
        simp [htail] at hhead
      have hjunk := fill_length env (t + pre₁.length) fsNameMax
      obtain ⟨pre₂, hsplit₂, hcomp⟩ := componentAt_spec hb h0₁ (by omega) hjunk
      rw [if_neg hd, hcomp]
      dsimp only
      have hne : ((d :: ds).takeWhile (· != slash)).take (fsNameMax - 1) ≠ [] := by
        rw [List.takeWhile_cons_of_pos (by simpa using hds)]
        exact List.cons_ne_nil _ _
      have hb₂ : buffer = pre₂ ++ (d :: ds).dropWhile (· != slash) ++ 0 :: pad := by
        rw [hb, hsplit₂]
      have h0₂ : (0 : UInt8) ∉ (d :: ds).dropWhile (· != slash) := fun hm =>
        h0₁ ((List.dropWhile_sublist _).subset hm)
      have hlen₂ := (List.dropWhile_sublist (· != slash) (l := d :: ds)).length_le
      have hrec : ∀ node', walkAtLoop env s t buffer b last fuel node' pre₂.length =
          (walkLoop s b fuel node' ((d :: ds).dropWhile (· != slash))).map (withLast last) :=
        fun node' => ih hb₂ h0₂ (by omega)
      rw [fillLast_eq hl hne]
      simp only [decide_eq_true_eq]
      split
      · rfl
      split
      · exact hrec node
      split
      · cases parentOrRoot s node with
        | none => rfl
        | some up => exact hrec up
      · rcases findChild s node
            (((d :: ds).takeWhile (· != slash)).take (fsNameMax - 1)) with _ | _ | child
        · rfl
        · exact congrArg some (withLast_nil last none).symm
        · exact hrec (some child)

theorem pathBuffer_eq {path : List UInt8} (h0 : (0 : UInt8) ∉ path) :
    ∃ pad, pathBuffer path = path.take (fsPathMax - 1) ++ 0 :: pad := by
  have htext : text path = path := by
    rw [text, List.takeWhile_eq_self_iff]
    intro c hc
    simpa using fun heq : c = 0 => h0 (heq ▸ hc)
  refine ⟨List.replicate (fsPathMax - 1 - path.length) 0, ?_⟩
  rw [pathBuffer, strncpy, htext, List.append_assoc, ← List.replicate_succ', List.replicate_succ]

/-- The walk over the arrays is the walk over the text: no index leaves its array, and the text
is what is put into `last` behind a first zero. -/
theorem walkAt_eq {path : List UInt8} (hne : path ≠ []) (h0 : (0 : UInt8) ∉ path) (t : Nat)
    (b : Bool) {last : Option (List UInt8)} (hl : ∀ array ∈ last, array.length = fsNameMax) :
    walkAt env s t path b last =
      (walk s path b).map (withLast (last.map fun array => array.set 0 0)) := by
  obtain ⟨pad, hbuf⟩ := pathBuffer_eq h0
  have hl' : ∀ array ∈ last.map fun array => array.set 0 0, array.length = fsNameMax := by
    intro array harray
    obtain ⟨array', hm, rfl⟩ := Option.map_eq_some_iff.mp harray
    rw [List.length_set, hl array' hm]
  unfold walkAt walk
  cases path with
  | nil => exact absurd rfl hne
  | cons c cs =>
    rw [if_neg hne, hbuf, clearLast_eq hl]
    have hmax : fsPathMax = 256 := rfl
    have htake : (c :: cs).take (fsPathMax - 1) = c :: cs.take (fsPathMax - 2) := rfl
    have hlen := List.length_take_le (fsPathMax - 2) cs
    have h0' : (0 : UInt8) ∉ c :: cs.take (fsPathMax - 2) := fun hm =>
      h0 (List.mem_of_mem_take (htake ▸ hm))
    rw [htake]
    have hread : (c :: cs.take (fsPathMax - 2) ++ 0 :: pad)[0]? = some c := rfl
    rw [hread]
    dsimp only
    by_cases hc : c = slash
    · rw [if_pos hc, if_pos hc]
      have hsplit : c :: cs.take (fsPathMax - 2) ++ 0 :: pad =
          [c] ++ cs.take (fsPathMax - 2) ++ 0 :: pad := rfl
      exact walkAtLoop_eq hl' hsplit (fun hm => h0' (List.mem_cons_of_mem _ hm)) (by omega)
    · rw [if_neg hc, if_neg hc]
      have hsplit : c :: cs.take (fsPathMax - 2) ++ 0 :: pad =
          [] ++ (c :: cs.take (fsPathMax - 2)) ++ 0 :: pad := rfl
      exact walkAtLoop_eq hl' hsplit h0' (by rw [List.length_cons]; omega)

/-! ## The reference -/

/-- The node that has the name `name` and the parent `d`. -/
def childNamed (s : Fs) (d : Ptr) (name : List UInt8) : Option Ptr :=
  (List.range s.nodes.brk).find? fun q =>
    (s.nodes.get q).any fun m => m.parent = some d ∧ m.name = name

/-- The parent of a node. The root is its own parent. -/
def parentNode (s : Fs) (p : Ptr) : Option Ptr := ((s.nodes.get p).bind FsNode.parent).or s.rootNode

/-- One component leads from node to node, or nowhere. -/
def step (s : Fs) (node : Option Ptr) (name : List UInt8) : Option Ptr :=
  node.bind fun p =>
    if name = [dot] then some p
    else if name = [dot, dot] then parentNode s p
    else childNamed s p name

/-- Where a list of components leads. -/
def resolveFrom (s : Fs) (node : Option Ptr) (names : List (List UInt8)) : Option Ptr :=
  names.foldl (step s) node

variable {root : Ptr} {kids : Forest Ptr}

theorem childNamed_some {d q : Ptr} {name : List UInt8} (h : childNamed s d name = some q) :
    ∃ m, s.nodes.get q = some m ∧ m.parent = some d ∧ m.name = name := by
  have hq := List.find?_some h
  cases hm : s.nodes.get q with
  | none => simp [hm] at hq
  | some m => exact ⟨m, rfl, by simpa [hm] using hq⟩

theorem childNamed_none {d : Ptr} {name : List UInt8} (h : childNamed s d name = none)
    {q : Ptr} {m : FsNode} (hm : s.nodes.get q = some m) (hp : m.parent = some d) :
    m.name ≠ name := by
  intro hname
  have hnone := List.find?_eq_none.mp h q (List.mem_range.mpr (s.nodes.lt_brk hm))
  simp [hm, hp, hname] at hnone

/-- A file is nobody's parent. -/
theorem TreeInv.parent_dir (h : TreeInv s root kids) {p d : Ptr} {n dn : FsNode}
    (hp : s.nodes.get p = some n) (hd : n.parent = some d) (hdn : s.nodes.get d = some dn) :
    dn.type = .dir := by
  obtain ⟨ch, hch, htop⟩ := h.parent_mem hp hd
  obtain ⟨ch', hch', hrep⟩ := h.sub hdn
  rw [hch] at hch'
  obtain rfl := Option.some.inj hch'
  cases htype : dn.type with
  | dir => rfl
  | file =>
    have hhead := hrep.head_eq
    rw [(h.ok hdn).file htype] at hhead
    cases ch with
    | nil => simp at htop
    | cons a ch rest => simp at hhead

/-- With distinct siblings, the search along the list finds the child of a name. -/
theorem TreeInv.findChild_eq (h : TreeInv s root kids) (hd : SiblingsDistinct s) {d : Ptr}
    (hmem : d ∈ (tree root kids).ids) (name : List UInt8) :
    Ramfs.findChild s (some d) name = some (childNamed s d name) := by
  obtain ⟨dn, hdn⟩ := h.get hmem
  obtain ⟨ch, hch, -⟩ := h.sub hdn
  obtain ⟨r, hr⟩ : ∃ r, Ramfs.findChild s (some d) name = some r := ⟨_, h.findChild hdn hch name⟩
  rw [hr, Option.some.injEq]
  cases hc : childNamed s d name with
  | none =>
    cases r with
    | none => rfl
    | some q =>
      obtain ⟨m, hm, hparent, hname⟩ := h.findChild_some hdn hr
      exact absurd hname (childNamed_none hc hm hparent)
  | some q =>
    obtain ⟨m, hm, hparent, hname⟩ := childNamed_some hc
    have hdir := h.parent_dir hm hparent hdn
    cases r with
    | none => exact absurd hname ((h.find?_eq_none hdn hdir).mp hr hm hparent)
    | some q' =>
      obtain ⟨m', hm', hparent', hname'⟩ := h.findChild_some hdn hr
      rw [hd.eq hm' hm hparent' hparent (hname'.trans hname.symm)]

theorem parentOrRoot_eq {p : Ptr} {n : FsNode} (hn : s.nodes.get p = some n) :
    parentOrRoot s (some p) = some (parentNode s p) := by
  unfold parentOrRoot parentNode
  simp only [hn, Option.bind_some]
  cases n.parent <;> rfl

theorem resolveFrom_none (names : List (List UInt8)) : resolveFrom s none names = none := by
  induction names with
  | nil => rfl
  | cons name names ih => exact ih

theorem TreeInv.follow_eq (h : TreeInv s root kids) (hd : SiblingsDistinct s)
    (names : List (List UInt8)) : ∀ {p : Ptr}, p ∈ (tree root kids).ids →
      Ramfs.follow s (some p) names = some (resolveFrom s (some p) names) := by
  induction names with
  | nil => intro p _; rfl
  | cons name names ih =>
    intro p hp
    obtain ⟨n, hn⟩ := h.get hp
    have hstep : resolveFrom s (some p) (name :: names) =
        resolveFrom s (step s (some p) name) names := rfl
    rw [hstep, Ramfs.follow, step, Option.bind_some]
    by_cases h1 : name = [dot]
    · rw [if_pos h1, if_pos h1]
      exact ih hp
    rw [if_neg h1, if_neg h1]
    by_cases h2 : name = [dot, dot]
    · obtain ⟨q, hq, hmem⟩ := h.parentOrRoot hp
      rw [if_pos h2, if_pos h2, hq]
      rw [parentOrRoot_eq hn, Option.some.injEq] at hq
      rw [hq]
      exact ih hmem
    · rw [if_neg h2, if_neg h2, h.findChild_eq hd hp name]
      cases hc : childNamed s p name with
      | none => rw [resolveFrom_none]
      | some q =>
        obtain ⟨m, hm, -⟩ := childNamed_some hc
        exact ih (h.mem hm)

/-- All components but the last, and the last one if there is a node to put it in. -/
def parentFrom (s : Fs) (node : Option Ptr) (names : List (List UInt8)) :
    Option Ptr × List UInt8 :=
  let parent := resolveFrom s node names.dropLast
  (parent, if parent = none then [] else names.getLast?.getD [])

theorem TreeInv.followParent_eq (h : TreeInv s root kids) (hd : SiblingsDistinct s)
    (names : List (List UInt8)) {p : Ptr} (hp : p ∈ (tree root kids).ids) :
    Ramfs.followParent s p names = some (parentFrom s (some p) names) := by
  unfold Ramfs.followParent parentFrom
  cases hlast : names.getLast? with
  | none =>
    rw [List.getLast?_eq_none_iff] at hlast
    rw [hlast]
    rfl
  | some last =>
    rw [h.follow_eq hd names.dropLast hp]
    cases resolveFrom s (some p) names.dropLast <;> rfl

/-- The last component, if there is one. -/
def lastName (path : List UInt8) : List UInt8 := (components path).getLast?.getD []

/-- The component a walk hands out fits into 31 bytes, and has no zero in it. -/
theorem lastName_text {path : List UInt8} (h0 : (0 : UInt8) ∉ path) :
    (0 : UInt8) ∉ lastName path ∧ (lastName path).length ≤ fsNameMax - 1 := by
  unfold lastName
  cases hlast : (components path).getLast? with
  | none => exact ⟨List.not_mem_nil, Nat.zero_le _⟩
  | some w =>
    have hm : w ∈ components path := List.mem_of_getLast? hlast
    exact ⟨fun hz => h0 (components_subset hm hz), (isName_of_mem_components hm).length⟩

theorem parentFrom_none {node : Option Ptr} {names : List (List UInt8)}
    (h : resolveFrom s node names.dropLast = none) : parentFrom s node names = (none, []) := by
  unfold parentFrom
  simp only [h, if_true]

theorem parentFrom_some {node : Option Ptr} {path : List UInt8}
    (h : resolveFrom s node (components path).dropLast ≠ none) :
    (parentFrom s node (components path)).2 = lastName path := if_neg h

/-- **Resolution is a fold.** For every path, walking over the arrays of `walk` comes back
without leaving them. The node is where the fold over the components leads, and a walk that
stops early gives the fold over all but the last component. It hands out that last one exactly
if there is no node to put it in, or the component is shorter than the 31 bytes that are
copied, or a zero happens to be behind them in the array of the caller. -/
theorem resolve_reference_iff (env : Env) (h : TreeInv s root kids) (hcwd : CwdOk s)
    (hd : SiblingsDistinct s) {path : List UInt8} (hne : path ≠ [])
    (hlen : path.length ≤ fsPathMax - 1) (h0 : (0 : UInt8) ∉ path) (t : Nat)
    {last : List UInt8} (hl : last.length = fsNameMax) :
    fsResolve s path = some (resolveFrom s (start s path) (components path)) ∧
      walkAt env s t path false none =
        some (resolveFrom s (start s path) (components path), none) ∧
      ∃ last', walkAt env s t path true (some last) =
          some ((parentFrom s (start s path) (components path)).1, some last') ∧
        last'.length = fsNameMax ∧
        (HoldsText last' (parentFrom s (start s path) (components path)).2 ↔
          resolveFrom s (start s path) (components path).dropLast = none ∨
            (lastName path).length < fsNameMax - 1 ∨ last[fsNameMax - 1]? = some 0) := by
  obtain ⟨p, hp, hmem⟩ := h.start hcwd path
  have hnames : pathNames path = components path := by
    rw [pathNames, List.take_of_length_le hlen]
  have hnone : ∀ array ∈ (none : Option (List UInt8)), array.length = fsNameMax := by simp
  have hsome : ∀ array ∈ some last, array.length = fsNameMax := by
    intro array harray
    rw [← Option.some.inj harray, hl]
  refine ⟨?_, ?_, putLast (last.set 0 0) (parentFrom s (start s path) (components path)).2,
    ?_, ?_, ?_⟩
  · rw [fsResolve_follow, hnames, hp]
    exact h.follow_eq hd _ hmem
  · rw [walkAt_eq hne h0 t false hnone, walk_follow s hne, hnames, hp, h.follow_eq hd _ hmem]
    rfl
  · rw [walkAt_eq hne h0 t true hsome, walk_followParent h.isRoot hne hp, hnames, hp,
      h.followParent_eq hd _ hmem]
    rfl
  · rw [putLast_length (by rw [List.length_set, hl])]
  · by_cases hno : resolveFrom s (start s path) (components path).dropLast = none
    · rw [parentFrom_none hno]
      have hempty := holdsText_putLast hl (w := []) List.not_mem_nil (Nat.zero_le _)
      exact iff_of_true (hempty.mpr (Or.inl (by decide))) (Or.inl hno)
    · obtain ⟨hz, hle⟩ := lastName_text h0
      rw [parentFrom_some hno, holdsText_putLast hl hz hle]
      exact (or_iff_right hno).symm

/-- The string `fs_create` reads from its array is the name it works with: what was behind the
copied bytes belongs to it. -/
theorem walkAt_lastText (env : Env) {path : List UInt8} (hne : path ≠ []) (h0 : (0 : UInt8) ∉ path)
    (t : Nat) {last : List UInt8} (hl : last.length = fsNameMax) {node : Option Ptr}
    {component : List UInt8} (hwalk : walk s path true = some (node, component))
    (hw0 : (0 : UInt8) ∉ component) (hw : component.length ≤ fsNameMax - 1) :
    ∃ last', walkAt env s t path true (some last) = some (node, some last') ∧
      ∀ behind, text (last' ++ behind) =
        lastText (last.drop (fsNameMax - 1) ++ behind) component := by
  have hsome : ∀ array ∈ some last, array.length = fsNameMax := by
    intro array harray
    rw [← Option.some.inj harray, hl]
  refine ⟨putLast (last.set 0 0) component, ?_, text_putLast hl hw0 hw⟩
  rw [walkAt_eq hne h0 t true hsome, hwalk]
  rfl

/-- The skeleton, with two slashes and a way back up. -/
def homeUpTmp : List UInt8 := ofString "/home/..//tmp"

/-- An array on the stack that nobody has written to yet. -/
def dirtyLast : List UInt8 := List.replicate fsNameMax 255

theorem resolve_reference_iff_tmp : ∃ s, fsInit .ample .zero = some s ∧
    fsResolve s homeUpTmp = some (resolveFrom s s.rootNode
      [ofString "home", [dot, dot], ofString "tmp"]) ∧
    ∃ q last', walkAt .ample s 0 homeUpTmp true (some dirtyLast) = some (q, some last') ∧
      HoldsText last' (ofString "tmp") := by
  have h : (fsInit .ample .zero).map (fun s => (decide (s.rootNode ≠ none),
      (parentFrom s s.rootNode [ofString "home", [dot, dot], ofString "tmp"]).2)) =
      some (true, ofString "tmp") := by decide +kernel
  simp only [Option.map_eq_some_iff, Prod.mk.injEq, decide_eq_true_eq] at h
  obtain ⟨s, hinit, hroot, hlast⟩ := h
  obtain ⟨root, kids, hinv, hc⟩ := fsInit_tree .ample hinit hroot
  obtain ⟨hresolve, -, last', hwalk, -, hiff⟩ := resolve_reference_iff .ample hinv hc
    (fsInit_distinct hinit).2 (by decide : homeUpTmp ≠ []) (by decide) (by decide) 0
    (by decide : dirtyLast.length = fsNameMax)
  have hstart : start s homeUpTmp = s.rootNode := rfl
  have hnames : components homeUpTmp = [ofString "home", [dot, dot], ofString "tmp"] := by
    decide +kernel
  have hshort : (lastName homeUpTmp).length < fsNameMax - 1 := by decide +kernel
  have htext := hiff.mpr (Or.inr (Or.inl hshort))
  rw [hstart, hnames] at hresolve htext
  rw [hlast] at htext
  exact ⟨s, hinit, hresolve, _, last', hwalk, htext⟩

/-- A name of 31 bytes in `/tmp`. -/
def longTmp : List UInt8 := ofString "/tmp/" ++ List.replicate 31 97

/-- With nothing but ones behind it on the stack, a name of 31 bytes is not terminated. -/
theorem last_not_terminated : ∃ s, fsInit .ample .zero = some s ∧
    ∃ q last', walkAt .ample s 0 longTmp true (some dirtyLast) = some (some q, some last') ∧
      (0 : UInt8) ∉ last' ∧ ¬HoldsText last' (lastName longTmp) := by
  have h : (fsInit .ample .zero).bind (fun s =>
      (walkAt .ample s 0 longTmp true (some dirtyLast)).bind fun r => r.1.bind fun _ =>
        r.2.map fun last' => decide ((0 : UInt8) ∉ last' ∧
          text (last' ++ []) ≠ lastName longTmp)) = some true := by decide +kernel
  simp only [Option.bind_eq_some_iff, Option.map_eq_some_iff, decide_eq_true_eq] at h
  obtain ⟨s, hinit, ⟨_, _⟩, hwalk, q, rfl, last', rfl, hz, htext⟩ := h
  exact ⟨s, hinit, q, last', hwalk, hz, fun hall => htext (hall [])⟩

end LightningOS.Ramfs
