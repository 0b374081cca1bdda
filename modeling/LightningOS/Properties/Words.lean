import LightningOS.Kernel.StrSplit
import LightningOS.Lib.Fields

/-!
# The words of a line

`str_split` ends a word by blanking out the separator behind it, and does so when it looks for
the next one. A word that takes the last place in `argv` is followed by no such search. The
scan is compared with the words of the line as it was: the number is always right, and the
strings are as long as nothing stands behind the word in the last place.
-/

namespace LightningOS.StrSplit

open CString Fields Shell

/-- At `p` a string begins, with its terminator in the buffer. -/
def StringAt (buf : List UInt8) (p : Nat) (w : List UInt8) : Prop :=
  0 ∉ w ∧ ∃ more, buf.drop p = w ++ 0 :: more

/-- Only one string begins at a place. -/
theorem StringAt.unique {buf : List UInt8} {p : Nat} {w w' : List UInt8} (h : StringAt buf p w)
    (h' : StringAt buf p w') : w = w' := by
  obtain ⟨h0, more, hdrop⟩ := h
  obtain ⟨h0', more', hdrop'⟩ := h'
  rw [← text_terminated h0 more, ← text_terminated h0' more', ← hdrop, ← hdrop']

theorem stringAt_append {w : List UInt8} (h0 : 0 ∉ w) (pre more : List UInt8) :
    StringAt (pre ++ (w ++ 0 :: more)) pre.length w :=
  ⟨h0, more, List.drop_left⟩

/-! ## The first word -/

/-- The line begins with `blanks`, and `w` is its first word. -/
structure FirstWord (s blanks w more : List UInt8) : Prop where
  eq : s = blanks ++ (w ++ more)
  blanks : ∀ b ∈ blanks, isSpace b = true
  ne : w ≠ []
  chars : ∀ b ∈ w, isSpace b = false
  behind : ∀ b ∈ more.head?, isSpace b = true

theorem first_word (s : List UInt8) : (∀ b ∈ s, isSpace b = true) ∨
    ∃ blanks w more, FirstWord s blanks w more := by
  cases hs : s.dropWhile isSpace with
  | nil => exact .inl fun b hb => List.dropWhile_eq_nil_iff.mp hs b hb
  | cons c t =>
    have hc : isSpace c = false := by
      have h := List.head_dropWhile_not isSpace (hs ▸ List.cons_ne_nil c t)
      simpa [hs] using h
    refine .inr ⟨s.takeWhile isSpace, (c :: t).takeWhile fun b => !isSpace b,
      (c :: t).dropWhile fun b => !isSpace b, ?_, fun b hb => List.mem_takeWhile_imp hb, ?_,
      fun b hb => ?_, fun b hb => ?_⟩
    · rw [List.takeWhile_append_dropWhile, ← hs, List.takeWhile_append_dropWhile]
    · rw [List.takeWhile_cons_of_pos (by rw [hc]; rfl)]
      exact List.cons_ne_nil _ _
    · simpa using List.mem_takeWhile_imp hb
    · have h := List.head?_dropWhile_not (fun b => !isSpace b) (c :: t)
      rw [Option.mem_def] at hb
      rw [hb] at h
      simpa using h

section FirstWord

variable {s blanks w more : List UInt8}

theorem dropWhile_of_head {p : UInt8 → Bool} (h : ∀ b ∈ more.head?, p b = false) :
    more.dropWhile p = more := by
  cases more with
  | nil => rfl
  | cons b more => rw [List.dropWhile_cons_of_neg (by rw [h b rfl]; decide)]

theorem FirstWord.dropWhile (h : FirstWord s blanks w more) : s.dropWhile isSpace = w ++ more := by
  rw [h.eq, List.dropWhile_append_of_pos h.blanks]
  refine dropWhile_of_head fun b hb => ?_
  rw [List.head?_append_of_ne_nil _ h.ne] at hb
  exact h.chars b (List.mem_of_mem_head? hb)

theorem FirstWord.dropWord (h : FirstWord s blanks w more) :
    (w ++ more).dropWhile (fun b => !isSpace b) = more := by
  rw [List.dropWhile_append_of_pos fun b hb => by rw [h.chars b hb]; rfl]
  exact dropWhile_of_head fun b hb => by rw [h.behind b hb]; rfl

theorem FirstWord.takeWord (h : FirstWord s blanks w more) :
    (w ++ more).takeWhile (fun b => !isSpace b) = w := by
  have happ := List.takeWhile_append_dropWhile (p := fun b => !isSpace b) (l := w ++ more)
  rw [h.dropWord] at happ
  exact List.append_cancel_right happ

theorem FirstWord.words (h : FirstWord s blanks w more) :
    words isSpace s = w :: words isSpace more := by
  rw [← words_dropWhile, h.dropWhile]
  obtain ⟨c, t, hw⟩ := List.exists_cons_of_ne_nil h.ne
  have hc : isSpace c = false := h.chars c (hw ▸ List.mem_cons_self)
  have hcons : w ++ more = c :: (t ++ more) := by rw [hw, List.cons_append]
  rw [hcons, words_eq_cons hc, ← hcons, h.takeWord, h.dropWord]

theorem words_blank (h : ∀ b ∈ s, isSpace b = true) : Fields.words isSpace s = [] := by
  rw [← words_dropWhile, List.dropWhile_eq_nil_iff.mpr h, words_nil]

/-- The words of `str_split` begin with that of the line. -/
theorem FirstWord.strSplit (h : FirstWord s blanks w more) (room : Nat) :
    Shell.strSplit (room + 1) s =
      (if room = 0 then w ++ more else w) :: Shell.strSplit room more := by
  rw [Shell.strSplit, h.dropWhile, h.takeWord, h.dropWord,
    if_neg (List.append_ne_nil_of_left_ne_nil h.ne more)]

theorem strSplit_blank (h : ∀ b ∈ s, isSpace b = true) (room : Nat) : Shell.strSplit room s = [] := by
  cases room with
  | zero => rfl
  | succ room =>
    rw [Shell.strSplit, List.dropWhile_eq_nil_iff.mpr h]
    simp only [if_true]

end FirstWord

/-! ## The inner loops -/

section Inner

variable {buf : List UInt8} {line : Nat} {c : UInt8}

theorem skipBlanks_blank (h : buf[line]? = some c) (hc : isSpace c = true) :
    skipBlanks buf line = skipBlanks (buf.set line 0) (line + 1) := by
  conv => lhs; rw [skipBlanks]
  split
  · next hnone => rw [h] at hnone; exact absurd hnone (by simp)
  · next d hd =>
    obtain rfl : c = d := Option.some.inj (h.symm.trans hd)
    rw [if_pos hc]

theorem skipBlanks_stop (h : buf[line]? = some c) (hc : isSpace c = false) :
    skipBlanks buf line = some (buf, line) := by
  rw [skipBlanks]
  split
  · next hnone => rw [h] at hnone; exact absurd hnone (by simp)
  · next d hd =>
    obtain rfl : c = d := Option.some.inj (h.symm.trans hd)
    rw [if_neg (by rw [hc]; decide)]

theorem skipWord_on (h : buf[line]? = some c) (h0 : c ≠ 0) (hc : isSpace c = false) :
    skipWord buf line = skipWord buf (line + 1) := by
  conv => lhs; rw [skipWord]
  split
  · next hnone => rw [h] at hnone; exact absurd hnone (by simp)
  · next d hd =>
    obtain rfl : c = d := Option.some.inj (h.symm.trans hd)
    rw [if_pos ⟨h0, hc⟩]

theorem skipWord_stop (h : buf[line]? = some c) (hc : c = 0 ∨ isSpace c = true) :
    skipWord buf line = some line := by
  rw [skipWord]
  split
  · next hnone => rw [h] at hnone; exact absurd hnone (by simp)
  · next d hd =>
    obtain rfl : c = d := Option.some.inj (h.symm.trans hd)
    rw [if_neg]
    rintro ⟨h0, hspace⟩
    rcases hc with hc | hc
    · exact h0 hc
    · rw [hc] at hspace
      exact absurd hspace (by decide)

end Inner

theorem getElem?_at (pre : List UInt8) (c : UInt8) (more : List UInt8) :
    (pre ++ c :: more)[pre.length]? = some c := by
  rw [List.getElem?_append_right (Nat.le_refl _), Nat.sub_self, List.getElem?_cons_zero]

/-- The blanks become terminators. -/
theorem skipBlanks_run {blanks : List UInt8} (hb : ∀ b ∈ blanks, isSpace b = true) {c : UInt8}
    (hc : isSpace c = false) (pre more : List UInt8) :
    skipBlanks (pre ++ (blanks ++ c :: more)) pre.length =
      some (pre ++ (List.replicate blanks.length 0 ++ c :: more), pre.length + blanks.length) := by
  induction blanks generalizing pre with
  | nil => exact skipBlanks_stop (getElem?_at pre c more) hc
  | cons b blanks ih =>
    have hset : (pre ++ (b :: blanks ++ c :: more)).set pre.length 0 =
        (pre ++ [0]) ++ (blanks ++ c :: more) := by
      rw [List.set_append_right _ _ (Nat.le_refl _), Nat.sub_self, List.append_assoc]
      rfl
    rw [List.cons_append, skipBlanks_blank (getElem?_at pre b _) (hb b List.mem_cons_self),
      ← List.cons_append, hset]
    have hlen : (pre ++ [(0 : UInt8)]).length = pre.length + 1 := by
      rw [List.length_append, List.length_singleton]
    have h := ih (fun d hd => hb d (List.mem_cons_of_mem b hd)) (pre ++ [0])
    rw [hlen] at h
    rw [h, List.length_cons, List.replicate_succ, List.append_assoc, Nat.add_right_comm]
    rfl

theorem skipWord_run {w : List UInt8} (hw : ∀ b ∈ w, b ≠ 0 ∧ isSpace b = false) {c : UInt8}
    (hc : c = 0 ∨ isSpace c = true) (pre more : List UInt8) :
    skipWord (pre ++ (w ++ c :: more)) pre.length = some (pre.length + w.length) := by
  induction w generalizing pre with
  | nil => exact skipWord_stop (getElem?_at pre c more) hc
  | cons b w ih =>
    obtain ⟨hb0, hb⟩ := hw b List.mem_cons_self
    rw [List.cons_append, skipWord_on (getElem?_at pre b _) hb0 hb]
    have hlen : (pre ++ [b]).length = pre.length + 1 := by
      rw [List.length_append, List.length_singleton]
    have h := ih (fun d hd => hw d (List.mem_cons_of_mem b hd)) (pre ++ [b])
    rw [hlen, List.append_assoc, List.singleton_append] at h
    rw [h, List.length_cons, Nat.add_assoc, Nat.add_comm 1]

/-! ## The loop -/

section Turns

variable {maxArgs : Nat} {argv : List Nat} {s blanks w more : List UInt8}

theorem terminated (s rest : List UInt8) (h0 : 0 ∉ s) :
    ∃ c tail, s ++ 0 :: rest = c :: tail ∧ (c = 0 ↔ s = []) := by
  cases s with
  | nil => exact ⟨0, rest, rfl, by simp⟩
  | cons c s => exact ⟨c, s ++ 0 :: rest, rfl, by simpa using Ne.symm (List.ne_of_not_mem_cons h0)⟩

/-- The loop ends at the terminator, and when `argv` is full. -/
theorem splitLoop_stop (h0 : 0 ∉ s) (h : s = [] ∨ maxArgs ≤ argv.length) (pre rest : List UInt8) :
    splitLoop maxArgs (pre ++ (s ++ 0 :: rest)) pre.length argv =
      some (pre ++ (s ++ 0 :: rest), argv) := by
  obtain ⟨c, tail, hc, hend⟩ := terminated s rest h0
  rw [splitLoop, hc, getElem?_at]
  simp only
  rw [if_neg]
  rintro ⟨hne, hlt⟩
  rcases h with h | h
  · exact hne (hend.mpr h)
  · omega

/-- A line with nothing but blanks is blanked out. -/
theorem splitLoop_blank (h0 : 0 ∉ s) (hne : s ≠ []) (hlt : argv.length < maxArgs)
    (hs : ∀ b ∈ s, isSpace b = true) (pre rest : List UInt8) :
    splitLoop maxArgs (pre ++ (s ++ 0 :: rest)) pre.length argv =
      some (pre ++ (List.replicate s.length 0 ++ 0 :: rest), argv) := by
  obtain ⟨c, tail, hc, hend⟩ := terminated s rest h0
  rw [splitLoop, hc, getElem?_at]
  simp only
  rw [if_pos ⟨fun h => hne (hend.mp h), hlt⟩, ← hc, skipBlanks_run hs (by decide)]
  simp only
  have hlen : pre.length + s.length = (pre ++ List.replicate s.length (0 : UInt8)).length := by
    rw [List.length_append, List.length_replicate]
  rw [hlen, ← List.append_assoc, getElem?_at]
  simp only [if_true]

/-- One turn of the loop takes the first word, up to what is behind it. -/
theorem splitLoop_word (h0 : 0 ∉ s) (hlt : argv.length < maxArgs) (h : FirstWord s blanks w more)
    (pre rest : List UInt8) :
    splitLoop maxArgs (pre ++ (s ++ 0 :: rest)) pre.length argv =
      splitLoop maxArgs
        ((pre ++ List.replicate blanks.length 0 ++ w) ++ (more ++ 0 :: rest))
        (pre ++ List.replicate blanks.length 0 ++ w).length
        (argv ++ [(pre ++ List.replicate blanks.length (0 : UInt8)).length]) := by
  have hne : s ≠ [] := by
    rw [h.eq]
    exact List.append_ne_nil_of_right_ne_nil _ (List.append_ne_nil_of_left_ne_nil h.ne more)
  have h0w : ∀ b ∈ w, b ≠ 0 ∧ isSpace b = false := by
    refine fun b hb => ⟨?_, h.chars b hb⟩
    rintro rfl
    exact h0 (h.eq ▸ List.mem_append_right _ (List.mem_append_left _ hb))
  have h0more : 0 ∉ more := fun hm =>
    h0 (h.eq ▸ List.mem_append_right _ (List.mem_append_right _ hm))
  obtain ⟨c, tail, hc, hend⟩ := terminated s rest h0
  conv => lhs; rw [splitLoop, hc, getElem?_at]
  simp only
  rw [if_pos ⟨fun h => hne (hend.mp h), hlt⟩, ← hc]
  -- the blanks
  obtain ⟨a, t, hw⟩ := List.exists_cons_of_ne_nil h.ne
  obtain ⟨ha0, hspace⟩ := h0w a (hw ▸ List.mem_cons_self)
  have hline : s ++ 0 :: rest = blanks ++ a :: (t ++ (more ++ 0 :: rest)) := by
    rw [h.eq, hw]
    simp only [List.append_assoc, List.cons_append]
  rw [hline, skipBlanks_run h.blanks hspace]
  simp only
  have hlen : pre.length + blanks.length = (pre ++ List.replicate blanks.length (0 : UInt8)).length := by
    rw [List.length_append, List.length_replicate]
  rw [hlen, ← List.append_assoc, getElem?_at]
  simp only
  rw [if_neg ha0]
  -- the word
  have hback : a :: (t ++ (more ++ 0 :: rest)) = w ++ (more ++ 0 :: rest) := by
    rw [hw, List.cons_append]
  obtain ⟨d, tail', hd, hend'⟩ := terminated more rest h0more
  have hstop : d = 0 ∨ isSpace d = true := by
    cases hmore : more with
    | nil => exact .inl (hend'.mpr hmore)
    | cons b more' =>
      rw [hmore, List.cons_append] at hd
      obtain ⟨rfl, -⟩ := List.cons.inj hd
      exact .inr (h.behind b (by rw [hmore]; rfl))
  rw [hback, hd, skipWord_run h0w hstop]
  simp only
  rw [List.append_assoc, List.append_assoc, @List.length_append _ _ w, List.append_assoc]

end Turns

/-- What the loop leaves of the line `s` that stands behind `pre`, when it has `room` for that
many more words. -/
structure LeftOf (pre s rest : List UInt8) (room : Nat) (s' : List UInt8) (argv : List Nat) :
    Prop where
  length : s'.length = s.length
  untouched : room = 0 → s' = s
  /-- A word in front of the line is ended by the search for the next one. -/
  ends : 0 < room → (∀ c ∈ s.head?, isSpace c = true) → ∃ tail, s' ++ 0 :: rest = 0 :: tail
  strings : List.Forall₂ (StringAt (pre ++ (s' ++ 0 :: rest))) argv (Shell.strSplit room s)

theorem replicate_ends {n : Nat} (s rest : List UInt8) (h : n = 0 → s = []) :
    ∃ tail, List.replicate n 0 ++ (s ++ 0 :: rest) = 0 :: tail := by
  cases n with
  | zero => exact ⟨rest, by rw [h rfl]; rfl⟩
  | succ n => exact ⟨_, rfl⟩

theorem leftOf_blank {s : List UInt8} (hs : ∀ b ∈ s, isSpace b = true) (pre rest : List UInt8)
    (room : Nat) : LeftOf pre s rest (room + 1) (List.replicate s.length 0) [] where
  length := List.length_replicate
  untouched := fun h => absurd h (Nat.succ_ne_zero room)
  ends := fun _ _ => replicate_ends [] rest fun _ => rfl
  strings := by
    rw [strSplit_blank hs]
    exact List.Forall₂.nil

/-- The first word, in front of what the loop leaves of the rest. -/
theorem LeftOf.word {s blanks w more pre rest s' : List UInt8} {room : Nat} {argv : List Nat}
    (h0 : 0 ∉ s) (h : FirstWord s blanks w more)
    (hleft : LeftOf (pre ++ List.replicate blanks.length 0 ++ w) more rest room s' argv) :
    LeftOf pre s rest (room + 1) (List.replicate blanks.length 0 ++ w ++ s')
      ((pre ++ List.replicate blanks.length (0 : UInt8)).length :: argv) where
  length := by
    rw [h.eq]
    simp only [List.length_append, List.length_replicate, hleft.length]
    omega
  untouched := fun h => absurd h (Nat.succ_ne_zero room)
  ends := by
    intro _ hhead
    rw [List.append_assoc, List.append_assoc]
    cases hn : blanks.length with
    | succ n => exact ⟨_, rfl⟩
    | zero =>
      -- then the line begins with the word
      obtain ⟨a, t, hw⟩ := List.exists_cons_of_ne_nil h.ne
      have ha := hhead a (by rw [h.eq, List.length_eq_zero_iff.mp hn, hw]; rfl)
      rw [h.chars a (hw ▸ List.mem_cons_self)] at ha
      exact absurd ha (by decide)
  strings := by
    rw [h.strSplit]
    have hbuf : pre ++ (List.replicate blanks.length 0 ++ w ++ s' ++ 0 :: rest) =
        (pre ++ List.replicate blanks.length 0 ++ w) ++ (s' ++ 0 :: rest) := by
      simp only [List.append_assoc]
    rw [hbuf]
    refine List.Forall₂.cons ?_ hleft.strings
    rw [List.append_assoc (pre ++ List.replicate blanks.length 0)]
    have h0w : 0 ∉ w ++ more := fun hm => h0 (h.eq ▸ List.mem_append_right _ hm)
    by_cases hlast : room = 0
    · rw [if_pos hlast, hleft.untouched hlast, ← List.append_assoc w]
      exact stringAt_append h0w _ rest
    · obtain ⟨tail, htail⟩ := hleft.ends (Nat.pos_of_ne_zero hlast) h.behind
      rw [if_neg hlast, htail]
      exact stringAt_append (fun hm => h0w (List.mem_append_left _ hm)) _ tail

/-- **The loop finds the words.** The induction is on the places that are left in `argv`. -/
theorem splitLoop_line (room : Nat) : ∀ {maxArgs : Nat} {s : List UInt8} {argv : List Nat}
    (pre rest : List UInt8), argv.length + room = maxArgs → 0 ∉ s →
    ∃ s' found, splitLoop maxArgs (pre ++ (s ++ 0 :: rest)) pre.length argv =
        some (pre ++ (s' ++ 0 :: rest), argv ++ found) ∧ LeftOf pre s rest room s' found := by
  induction room with
  | zero =>
    intro maxArgs s argv pre rest hroom h0
    refine ⟨s, [], ?_, rfl, fun _ => rfl, fun h => absurd h (Nat.lt_irrefl 0), List.Forall₂.nil⟩
    rw [List.append_nil, splitLoop_stop h0 (.inr (by omega))]
  | succ room ih =>
    intro maxArgs s argv pre rest hroom h0
    rcases first_word s with hblank | ⟨blanks, w, more, h⟩
    · refine ⟨List.replicate s.length 0, [], ?_, leftOf_blank hblank pre rest room⟩
      rw [List.append_nil]
      by_cases hnil : s = []
      · rw [hnil]
        exact splitLoop_stop List.not_mem_nil (.inl rfl) pre rest
      · exact splitLoop_blank h0 hnil (by omega) hblank pre rest
    · have h0more : 0 ∉ more := fun hm =>
        h0 (h.eq ▸ List.mem_append_right _ (List.mem_append_right _ hm))
      have hroom' : (argv ++ [(pre ++ List.replicate blanks.length (0 : UInt8)).length]).length + room
          = maxArgs := by
        rw [List.length_append, List.length_singleton]
        omega
      obtain ⟨s', found, hloop, hleft⟩ :=
        ih (pre ++ List.replicate blanks.length 0 ++ w) rest hroom' h0more
      refine ⟨_, _, ?_, hleft.word h0 h⟩
      rw [splitLoop_word h0 (by omega) h, hloop]
      simp only [List.append_assoc, List.singleton_append]

/-! ## The words -/

/-- The line has fewer than `maxArgs` words, or it ends with the last one it has room for. -/
def Fits (line : List UInt8) (maxArgs : Nat) : Prop :=
  (words isSpace line).length < maxArgs ∨
    (words isSpace line).length = maxArgs ∧ ∀ c ∈ line.getLast?, isSpace c = false

theorem length_strSplit (room : Nat) (s : List UInt8) :
    (Shell.strSplit room s).length = min (words isSpace s).length room := by
  induction room generalizing s with
  | zero => rw [Shell.strSplit, List.length_nil, Nat.min_zero]
  | succ room ih =>
    rcases first_word s with hblank | ⟨blanks, w, more, h⟩
    · rw [strSplit_blank hblank, words_blank hblank, List.length_nil, Nat.zero_min]
    · rw [h.strSplit, h.words, List.length_cons, List.length_cons, ih more,
        Nat.succ_min_succ]

section Fits

variable {s blanks w more : List UInt8}

/-- Behind the first word the line ends as it did. -/
theorem FirstWord.getLast (h : FirstWord s blanks w more) :
    (∀ c ∈ s.getLast?, isSpace c = false) ↔ ∀ c ∈ more.getLast?, isSpace c = false := by
  cases hm : more with
  | nil =>
    have hlast : s.getLast? = w.getLast? := by
      rw [h.eq, hm, List.append_nil, List.getLast?_append_of_ne_nil _ h.ne]
    rw [hlast]
    refine ⟨fun _ c hc => by simp at hc, fun _ c hc => ?_⟩
    exact h.chars c (List.mem_of_getLast? hc)
  | cons b more' =>
    have hlast : s.getLast? = (b :: more').getLast? := by
      rw [h.eq, hm, ← List.append_assoc, List.getLast?_append_of_ne_nil _ (List.cons_ne_nil b _)]
    rw [hlast]

theorem FirstWord.fits (h : FirstWord s blanks w more) (maxArgs : Nat) :
    Fits s (maxArgs + 1) ↔ Fits more maxArgs := by
  unfold Fits
  rw [h.words, List.length_cons, h.getLast, Nat.add_lt_add_iff_right, Nat.add_right_cancel_iff]

/-- With no more room, only an empty rest of the line is left alone. -/
theorem fits_zero (hhead : ∀ b ∈ s.head?, isSpace b = true) : Fits s 0 ↔ s = [] := by
  constructor
  · rintro (h | ⟨h, hlast⟩)
    · omega
    · rcases first_word s with hblank | ⟨blanks, w, more, hw⟩
      · cases hl : s.getLast? with
        | none => exact List.getLast?_eq_none_iff.mp hl
        | some c =>
          have hc := hlast c (Option.mem_def.mpr hl)
          rw [hblank c (List.mem_of_getLast? hl)] at hc
          exact absurd hc (by decide)
      · rw [hw.words, List.length_cons] at h
        omega
  · rintro rfl
    exact .inr ⟨rfl, fun c hc => by simp at hc⟩

end Fits

/-- The words of `str_split` are those of the line if it fits. -/
theorem strSplit_eq_words (room : Nat) (s : List UInt8) :
    Shell.strSplit (room + 1) s = (words isSpace s).take (room + 1) ↔ Fits s (room + 1) := by
  induction room generalizing s with
  | zero =>
    rcases first_word s with hblank | ⟨blanks, w, more, h⟩
    · rw [strSplit_blank hblank, words_blank hblank]
      exact ⟨fun _ => .inl (by rw [words_blank hblank]; decide), fun _ => rfl⟩
    · rw [h.strSplit, h.words, h.fits, fits_zero h.behind, Shell.strSplit, List.take_succ_cons,
        List.take_zero, if_pos rfl, List.cons.injEq, eq_self, and_true, List.append_right_eq_self]
  | succ room ih =>
    rcases first_word s with hblank | ⟨blanks, w, more, h⟩
    · rw [strSplit_blank hblank, words_blank hblank]
      exact ⟨fun _ => .inl (by rw [words_blank hblank]; exact Nat.succ_pos _), fun _ => rfl⟩
    · rw [h.strSplit, h.words, h.fits, List.take_succ_cons, List.cons.injEq, ih more,
        if_neg (Nat.succ_ne_zero room)]
      exact and_iff_right rfl

/-- Each entry of `argv` is the word of the line that has its number. -/
def HasWords (line buf : List UInt8) (argv : List Nat) : Prop :=
  ∀ i p : Nat, argv[i]? = some p → ∃ w, (words isSpace line)[i]? = some w ∧ StringAt buf p w

theorem hasWords_iff {line buf : List UInt8} {argv : List Nat} {found : List (List UInt8)}
    (h : List.Forall₂ (StringAt buf) argv found) :
    HasWords line buf argv ↔ found = (words isSpace line).take found.length := by
  constructor
  · intro hwords
    refine List.ext_getElem? fun i => ?_
    cases hf : found[i]? with
    | none =>
      rw [List.getElem?_eq_none]
      rw [List.length_take]
      exact Nat.le_trans (Nat.min_le_left _ _) (List.getElem?_eq_none_iff.mp hf)
    | some w =>
      obtain ⟨hi, hw⟩ := List.getElem?_eq_some_iff.mp hf
      have hia : i < argv.length := by rwa [h.length_eq]
      obtain ⟨w', hw', hat'⟩ := hwords i argv[i] (List.getElem?_eq_getElem hia)
      have hat : StringAt buf argv[i] w := hw ▸ h.get hia hi
      rw [List.getElem?_take_of_lt hi, hw', hat.unique hat']
  · intro hfound i p hp
    obtain ⟨hi, rfl⟩ := List.getElem?_eq_some_iff.mp hp
    have hif : i < found.length := by rwa [← h.length_eq]
    refine ⟨found[i], ?_, h.get hi hif⟩
    rw [← List.getElem?_take_of_lt hif, ← hfound, List.getElem?_eq_getElem hif]

/-- The words of `str_split`, in the buffer it leaves. -/
theorem strSplit_found (line rest : List UInt8) (maxArgs : Nat) (h0 : 0 ∉ line) : ∃ s' found,
    strSplit (line ++ 0 :: rest) maxArgs = some (s' ++ 0 :: rest, found) ∧
      LeftOf [] line rest maxArgs s' found := by
  have hroom : ([] : List Nat).length + maxArgs = maxArgs := Nat.zero_add _
  exact splitLoop_line maxArgs [] rest hroom h0

/-- **The number of words is right, and so are the words if the line fits.** -/
theorem strSplit_words (line rest : List UInt8) (maxArgs : Nat) (h0 : 0 ∉ line)
    (hmax : 1 ≤ maxArgs) : ∃ buf argv,
      strSplit (line ++ 0 :: rest) maxArgs = some (buf, argv) ∧
      argv.length = min (words isSpace line).length maxArgs ∧
      (HasWords line buf argv ↔ Fits line maxArgs) := by
  obtain ⟨room, rfl⟩ : ∃ room, maxArgs = room + 1 := ⟨maxArgs - 1, by omega⟩
  obtain ⟨s', found, hsplit, hleft⟩ := strSplit_found line rest (room + 1) h0
  refine ⟨_, _, hsplit, ?_, ?_⟩
  · rw [hleft.strings.length_eq, length_strSplit]
  · -- the words that are there, against the first words of the line
    have hstrings : List.Forall₂ (StringAt (s' ++ 0 :: rest)) found (Shell.strSplit (room + 1) line) :=
      hleft.strings
    rw [hasWords_iff hstrings, ← strSplit_eq_words, length_strSplit, Nat.min_comm,
      ← List.take_take, List.take_length]

/-- The line of a command, with room for more words than it has. -/
theorem strSplit_words_ls : ∃ buf argv,
    strSplit (ofString "ls -l /etc" ++ 0 :: []) argMax = some (buf, argv) ∧ argv.length = 3 ∧
      HasWords (ofString "ls -l /etc") buf argv := by
  obtain ⟨buf, argv, hsplit, hlen, hwords⟩ :=
    strSplit_words (ofString "ls -l /etc") [] argMax (by decide) (by decide)
  exact ⟨buf, argv, hsplit, hlen.trans (by decide), hwords.mpr (.inl (by decide))⟩

/-- With one place, the word of the line "a b" is taken to be the whole line. -/
theorem strSplit_last_word : ¬ ∀ (line rest : List UInt8) (maxArgs : Nat), 0 ∉ line → 1 ≤ maxArgs →
    ∃ buf argv, strSplit (line ++ 0 :: rest) maxArgs = some (buf, argv) ∧
      argv.length = min (words isSpace line).length maxArgs ∧ HasWords line buf argv := by
  intro hall
  obtain ⟨buf, argv, hsplit, hlen, hwords⟩ :=
    hall (ofString "a b") [] 1 (by decide) (Nat.le_refl 1)
  obtain ⟨s', found, hsplit', hleft⟩ := strSplit_found (ofString "a b") [] 1 (by decide)
  rw [hsplit] at hsplit'
  obtain ⟨rfl, rfl⟩ := Prod.mk.inj (Option.some.inj hsplit')
  have hfound := (hasWords_iff hleft.strings).mp hwords
  revert hfound
  decide

end LightningOS.StrSplit
