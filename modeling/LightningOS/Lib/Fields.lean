import LightningOS.Lib.CString

/-!
# Fields and lines

Text that is read back: lines that end in a newline, fields with a separator between them,
and numbers in decimal.
-/

namespace Fields

open CString

variable {α : Type}

/-! ## Pieces -/

/-- A piece of a split is part of the list, and the separator is not in it. -/
theorem mem_splitOn [BEq α] [LawfulBEq α] {a : α} {xs : List α} : ∀ {piece : List α}, piece ∈ xs.splitOn a →
    a ∉ piece ∧ piece ⊆ xs := by
  induction xs with
  | nil =>
    intro piece hp
    rw [List.splitOn_nil, List.mem_singleton] at hp
    rw [hp]
    exact ⟨List.not_mem_nil, List.Subset.refl _⟩
  | cons x xs ih =>
    intro piece hp
    rw [List.splitOn_cons_eq_if_modifyHead] at hp
    by_cases hx : (x == a) = true
    · rw [if_pos hx] at hp
      rcases List.mem_cons.mp hp with rfl | hp
      · exact ⟨List.not_mem_nil, List.nil_subset _⟩
      · exact ⟨(ih hp).1, List.subset_cons_of_subset x (ih hp).2⟩
    · rw [if_neg hx] at hp
      cases hsplit : xs.splitOn a with
      | nil => exact absurd hsplit (List.splitOn_ne_nil a xs)
      | cons first more =>
        rw [hsplit, List.modifyHead_cons] at hp
        rcases List.mem_cons.mp hp with rfl | hp
        · obtain ⟨hnot, hsub⟩ := ih (hsplit ▸ List.mem_cons_self : first ∈ xs.splitOn a)
          refine ⟨?_, List.cons_subset_cons x hsub⟩
          intro hmem
          rcases List.mem_cons.mp hmem with rfl | hmem
          · exact hx (beq_self_eq_true a)
          · exact hnot hmem
        · obtain ⟨hnot, hsub⟩ := ih (hsplit ▸ List.mem_cons_of_mem _ hp : piece ∈ xs.splitOn a)
          exact ⟨hnot, List.subset_cons_of_subset x hsub⟩

/-- Lines that end in `a` are read back, with nothing behind the last one. -/
theorem splitOn_lines [BEq α] [LawfulBEq α] {a : α} {lines : List (List α)} (h : ∀ line ∈ lines, a ∉ line) :
    (lines.flatMap (· ++ [a])).splitOn a = lines ++ [[]] := by
  induction lines with
  | nil => exact List.splitOn_nil a
  | cons line lines ih =>
    have hline := h line List.mem_cons_self
    rw [List.flatMap_cons, List.append_assoc, List.singleton_append,
      List.splitOn_append_cons_self_of_not_mem hline,
      ih fun l hl => h l (List.mem_cons_of_mem line hl), List.cons_append]

theorem notMem_intercalate {a b : α} (hab : b ≠ a) {fields : List (List α)}
    (h : ∀ field ∈ fields, b ∉ field) : b ∉ [a].intercalate fields := by
  induction fields with
  | nil => exact List.not_mem_nil
  | cons field fields ih =>
    have hfield := h field List.mem_cons_self
    have hrest := ih fun f hf => h f (List.mem_cons_of_mem field hf)
    by_cases hnil : fields = []
    · rw [hnil, List.intercalate_singleton]
      exact hfield
    · rw [List.intercalate_cons_of_ne_nil hnil]
      intro hmem
      rcases List.mem_append.mp hmem with hmem | hmem
      · rcases List.mem_append.mp hmem with hmem | hmem
        · exact hfield hmem
        · exact hab (List.mem_singleton.mp hmem)
      · exact hrest hmem

/-! ## Words -/

/-- The runs of characters that do not separate, in order. -/
def words (sep : α → Bool) (xs : List α) : List (List α) :=
  (xs.splitOnP sep).filter fun w => !w.isEmpty

section Words

variable {sep : α → Bool}

theorem words_nil : words sep [] = [] := rfl

/-- A separator ends a word, and is part of none. -/
theorem words_append_cons {c : α} (hc : sep c) (xs ys : List α) :
    words sep (xs ++ c :: ys) = words sep xs ++ words sep ys := by
  unfold words
  rw [List.splitOnP_append_cons xs ys hc, List.filter_append]

theorem words_cons {c : α} (hc : sep c) (xs : List α) : words sep (c :: xs) = words sep xs := by
  have h := words_append_cons hc [] xs
  rwa [words_nil, List.nil_append, List.nil_append] at h

theorem words_dropWhile (xs : List α) : words sep (xs.dropWhile sep) = words sep xs := by
  induction xs with
  | nil => rfl
  | cons c xs ih =>
    cases hc : sep c with
    | true => rw [List.dropWhile_cons_of_pos hc, ih, words_cons hc]
    | false => rw [List.dropWhile_cons_of_neg (by simp [hc])]

theorem words_singleton {w : List α} (hne : w ≠ []) (hw : ∀ c ∈ w, sep c = false) :
    words sep w = [w] := by
  unfold words
  rw [List.splitOnP_eq_singleton hw, List.filter_cons_of_pos, List.filter_nil]
  rw [List.isEmpty_eq_false_iff.mpr hne]
  rfl

/-- The first word, when the text starts with it. -/
theorem words_eq_cons {c : α} {xs : List α} (hc : sep c = false) :
    words sep (c :: xs) =
      (c :: xs).takeWhile (fun a => !sep a) :: words sep ((c :: xs).dropWhile fun a => !sep a) := by
  have hword : ∀ a ∈ (c :: xs).takeWhile (fun a => !sep a), sep a = false := by
    intro a ha
    have h := List.mem_takeWhile_imp ha
    rwa [Bool.not_eq_true'] at h
  have hne : (c :: xs).takeWhile (fun a => !sep a) ≠ [] := by
    rw [List.takeWhile_cons_of_pos (by rw [hc]; rfl)]
    exact List.cons_ne_nil _ _
  cases hrest : (c :: xs).dropWhile fun a => !sep a with
  | nil =>
    have hall : (c :: xs).takeWhile (fun a => !sep a) = c :: xs := by
      rw [← List.append_nil ((c :: xs).takeWhile _), ← hrest, List.takeWhile_append_dropWhile]
    rw [words_nil, hall]
    exact words_singleton (List.cons_ne_nil _ _) (hall ▸ hword)
  | cons d ys =>
    have hd : sep d = true := by
      have h := List.head_dropWhile_not (fun a => !sep a) (hrest ▸ List.cons_ne_nil d ys)
      simpa [hrest] using h
    calc words sep (c :: xs)
        = words sep ((c :: xs).takeWhile (fun a => !sep a) ++ d :: ys) := by
          rw [← hrest, List.takeWhile_append_dropWhile]
      _ = (c :: xs).takeWhile (fun a => !sep a) :: words sep (d :: ys) := by
          rw [words_append_cons hd, words_singleton hne hword, words_cons hd]
          rfl

end Words

/-! ## Numbers -/

/-- The number that a text of digits stands for. -/
def value (digits : List UInt8) : Nat :=
  Nat.ofDigitChars 10 (digits.map fun c => Char.ofNat c.toNat) 0

theorem charOfByte {c : Char} (h : c.toNat < 256) : Char.ofNat (UInt8.ofNat c.toNat).toNat = c := by
  have hbyte : (UInt8.ofNat c.toNat).toNat = c.toNat := by
    rw [UInt8.toNat_ofNat']
    exact Nat.mod_eq_of_lt h
  rw [hbyte]
  exact Char.ofNat_toNat c

theorem digit_lt {n : Nat} {c : Char} (h : c ∈ (toString n).toList) : 48 ≤ c.toNat ∧ c.toNat ≤ 57 := by
  rw [Nat.toString_eq_repr, Nat.toList_repr] at h
  have hdigit := Nat.isDigit_of_mem_toDigits (by decide) (Nat.le_refl 10) h
  rw [Char.isDigit, Bool.and_eq_true, decide_eq_true_eq, decide_eq_true_eq] at hdigit
  exact ⟨hdigit.1, hdigit.2⟩

/-- **A decimal number is read back.** -/
theorem value_toString (n : Nat) : value (ofString (toString n)) = n := by
  have hmap : (ofString (toString n)).map (fun c => Char.ofNat c.toNat) = (toString n).toList := by
    rw [ofString, List.map_map]
    refine (List.map_congr_left fun c hc => ?_).trans (List.map_id _)
    have hlt := digit_lt hc
    exact charOfByte (by omega)
  rw [value, hmap, Nat.toString_eq_repr, Nat.toList_repr, Nat.ofDigitChars_ten_toDigits]

theorem mem_toString {n : Nat} {c : UInt8} (h : c ∈ ofString (toString n)) : 48 ≤ c ∧ c ≤ 57 := by
  obtain ⟨d, hd, rfl⟩ := List.mem_map.mp h
  obtain ⟨hlow, hhigh⟩ := digit_lt hd
  have hbyte : (UInt8.ofNat d.toNat).toNat = d.toNat := by
    rw [UInt8.toNat_ofNat']
    omega
  constructor
  · rw [UInt8.le_iff_toNat_le, hbyte]
    exact hlow
  · rw [UInt8.le_iff_toNat_le, hbyte]
    exact hhigh

theorem toString_ne_nil (n : Nat) : ofString (toString n) ≠ [] := by
  rw [ofString, Nat.toString_eq_repr, Nat.toList_repr]
  exact fun h => Nat.toDigits_ne_nil (List.map_eq_nil_iff.mp h)

theorem toString_length {n k : Nat} (hk : 0 < k) (hn : n < 10 ^ k) :
    (ofString (toString n)).length ≤ k := by
  rw [ofString, List.length_map, Nat.toString_eq_repr, Nat.toList_repr]
  exact (Nat.length_toDigits_le_iff (by decide) hk).mpr hn

end Fields
