import LightningOS.Properties.PastLines

/-!
# The line editor

`Typed` is what the user sees of `console_read_line`: the text so far, and how far the
arrows have gone back. `Typed.key` says what a key does to it. `Editing` ties the buffer
and the counters of the editor to it, and `tape` the output: it follows what is in front
of the cursor, and stops at a backspace that would go into the prompt. Every key keeps
`Editing`, so no branch of the editor can lose one of its four variables.
-/

namespace LightningOS.Console

open CString Vga

/-! ## What the user sees -/

structure Typed where
  text : List UInt8
  browse : Nat

def Printable (c : UInt8) : Prop := 32 ≤ c ∧ c ≤ 126

/-- A key other than Enter and Ctrl-C. `limit` is the number of characters that fit. -/
def Typed.key (stored : List (List UInt8)) (limit : Nat) (useHistory : Bool) (t : Typed)
    (key : Int) : Typed :=
  if key = 8 then { t with text := t.text.dropLast }
  else if key = 21 then { t with text := [] }
  else if key = Keyboard.keyUp then
    if useHistory = true ∧ 0 < t.browse ∧ stored.length < t.browse + historyMax then
      { text := (stored.getD (t.browse - 1) []).take limit, browse := t.browse - 1 }
    else t
  else if key = Keyboard.keyDown then
    if useHistory = true then
      if t.browse + 1 < stored.length then
        { text := (stored.getD (t.browse + 1) []).take limit, browse := t.browse + 1 }
      else { text := [], browse := stored.length }
    else t
  else if 32 ≤ key ∧ key ≤ 126 ∧ t.text.length < limit then
    { t with text := t.text ++ [UInt8.ofInt key] }
  else t

/-- The keys up to Enter, Ctrl-C or the last one typed. -/
def Typed.keys (stored : List (List UInt8)) (limit : Nat) (useHistory : Bool) :
    List Int → Typed → Typed × Option Bool
  | [], t => (t, none)
  | key :: keys, t =>
    if key = 10 then (t, some true)
    else if key = 3 then (t, some false)
    else Typed.keys stored limit useHistory keys (t.key stored limit useHistory key)

/-! ## What is on the line -/

/-- One piece of output. A backspace must have something to take back, and the prompt
needs an empty line. -/
def onTape (line : List UInt8) : Shown → Option (List UInt8)
  | .vga (.putc c) =>
    if c = backspace then (if line = [] then none else some line.dropLast)
    else some (line ++ [c])
  | .vga .clear => some []
  | .vga _ => some line
  | .prompt => if line = [] then some [] else none

def tape : List Shown → List UInt8 → Option (List UInt8)
  | [], line => some line
  | what :: rest, line => (onTape line what).bind (tape rest)

/-- What the echo makes of a text. -/
def image (echo : Echo) (line : List UInt8) : List UInt8 :=
  match echo with
  | .plain => line
  | .hidden => []
  | .stars => List.replicate line.length 42

theorem tape_append {xs ys : List Shown} : ∀ {line : List UInt8},
    tape (xs ++ ys) line = (tape xs line).bind (tape ys) := by
  induction xs with
  | nil => exact rfl
  | cons x xs ih =>
    intro line
    rw [List.cons_append, tape, tape]
    cases onTape line x with
    | none => rfl
    | some line' => exact ih

theorem image_length (echo : Echo) (line : List UInt8) :
    (image echo line).length = if echo = .hidden then 0 else line.length := by
  cases echo with
  | plain => rfl
  | hidden => rfl
  | stars => exact List.length_replicate

theorem image_concat (echo : Echo) (line : List UInt8) (c : UInt8) :
    image echo (line ++ [c]) = image echo line ++ image echo [c] := by
  cases echo with
  | plain => rfl
  | hidden => rfl
  | stars =>
    rw [image, image, List.length_append, List.replicate_append_replicate.symm]
    rfl

/-- As many backspaces as there are characters empty the line. -/
theorem tape_backspaces : ∀ {n : Nat} {line : List UInt8}, line.length = n →
    tape (List.replicate n (.vga (.putc backspace))) line = some [] := by
  intro n
  induction n with
  | zero =>
    intro line hl
    rw [List.eq_nil_of_length_eq_zero hl]
    rfl
  | succ n ih =>
    intro line hl
    have hne : line ≠ [] := by
      rintro rfl
      exact absurd hl (Nat.succ_ne_zero n).symm
    rw [List.replicate_succ, tape, onTape, if_pos rfl, if_neg hne]
    exact ih (by rw [List.length_dropLast, hl, Nat.add_sub_cancel])

theorem tape_echoChar {echo : Echo} {line : List UInt8} {c : UInt8} (hc : Printable c) :
    tape (echoChar echo c) line = some (line ++ image echo [c]) := by
  have hne : c ≠ backspace := by
    rintro rfl
    exact absurd hc.1 (by decide)
  cases echo with
  | plain =>
    rw [echoChar, tape, onTape, if_neg hne]
    rfl
  | hidden => exact (congrArg some (List.append_nil line)).symm
  | stars => rfl

/-- Echoing a text puts its image behind what is there. -/
theorem tape_echo {echo : Echo} {text : List UInt8} (hp : ∀ c ∈ text, Printable c) :
    ∀ line : List UInt8,
      tape (text.flatMap (echoChar echo)) line = some (line ++ image echo text) := by
  induction text with
  | nil =>
    intro line
    cases echo <;> exact (congrArg some (List.append_nil line)).symm
  | cons c text ih =>
    intro line
    have himage : image echo (c :: text) = image echo [c] ++ image echo text := by
      cases echo with
      | plain => rfl
      | hidden => rfl
      | stars => rfl
    rw [List.flatMap_cons, tape_append, tape_echoChar (hp c List.mem_cons_self), Option.bind_some,
      ih (fun d hd => hp d (List.mem_cons_of_mem _ hd)), himage, List.append_assoc]

/-! ## The invariant -/

/-- The limit as a number. -/
def Call.room (call : Call) : Nat := min call.size lineMax - 1

theorem Call.limit_eq {call : Call} (hsize : 2 ≤ call.size) : call.limit = call.room := by
  have h256 : lineMax = 256 := rfl
  rw [Call.limit, Call.room]
  split <;> omega

/-- The editor is at this text, and the line on the console shows it. -/
structure Editing (stored : List (List UInt8)) (call : Call) (e : Editor) (t : Typed) : Prop where
  fits : t.text.length ≤ call.room
  printable : ∀ c ∈ t.text, Printable c
  size : e.out.length = call.size
  out : ∃ rest, e.out = t.text ++ 0 :: rest
  length : e.length = t.text.length
  drawn : e.drawn = if call.echo = .hidden then 0 else (t.text.length : Int)
  browse : e.browse = t.browse
  browse_le : t.browse ≤ stored.length
  browse_ge : stored.length ≤ t.browse + historyMax
  tape : tape e.shown [] = some (image call.echo t.text)

theorem no_zero {text : List UInt8} (hp : ∀ c ∈ text, Printable c) : (0 : UInt8) ∉ text :=
  fun h => absurd (hp 0 h).1 (by decide)

theorem setChar_eq {e : Editor} {i : Nat} {c : UInt8} (hi : i < e.out.length) :
    e.setChar i c = some { e with out := e.out.set i c } := by
  rw [Editor.setChar, index, dif_pos ⟨Int.natCast_nonneg i, by omega⟩]
  rfl

/-- The character behind a prefix. -/
theorem set_behind (w : List UInt8) (c d : UInt8) (rest : List UInt8) :
    (w ++ c :: rest).set w.length d = w ++ d :: rest := by
  rw [List.set_append_right _ _ (Nat.le_refl _), Nat.sub_self, List.set_cons_zero]

/-- Drawing a new text over the old one. -/
theorem redraw_tape {echo : Echo} {line text' : List UInt8} {e : Editor} (text₀ : List UInt8)
    (htext : text line = text') (hp : ∀ c ∈ text', Printable c)
    (htape : tape e.shown [] = some (image echo text₀))
    (hdrawn : e.drawn = if echo = .hidden then 0 else (text₀.length : Int)) :
    tape (redraw echo line e).shown [] = some (image echo text') := by
  have hcount : (image echo text₀).length = e.drawn.toNat := by
    rw [image_length, hdrawn]
    split
    · rfl
    · exact (Int.toNat_natCast _).symm
  show tape (e.shown ++ List.replicate e.drawn.toNat (.vga (.putc backspace)) ++
    echoString echo line) [] = _
  rw [tape_append, tape_append, htape, Option.bind_some, tape_backspaces hcount, Option.bind_some,
    echoString, htext, tape_echo hp]
  rfl

variable {h : History} {stored : List (List UInt8)} {call : Call} {e : Editor} {t : Typed}

/-- Output that leaves the line alone. -/
theorem Editing.show (he : Editing stored call e t) (what : List Shown)
    (hw : ∀ line, Console.tape what line = some line) : Editing stored call (e.show what) t where
  fits := he.fits
  printable := he.printable
  size := he.size
  out := he.out
  length := he.length
  drawn := he.drawn
  browse := he.browse
  browse_le := he.browse_le
  browse_ge := he.browse_ge
  tape := by
    show Console.tape (e.shown ++ what) [] = _
    rw [tape_append, he.tape, Option.bind_some, hw]

/-! ## One key -/

theorem Editing.pos (he : Editing stored call e t) : t.text.length < e.out.length := by
  obtain ⟨rest, hout⟩ := he.out
  rw [hout, List.length_append, List.length_cons]
  omega

/-- The line is emptied. -/
theorem Editing.discard (he : Editing stored call e t) {browse : Nat}
    (hle : browse ≤ stored.length) (hge : stored.length ≤ browse + historyMax) :
    ∃ e', Console.discard call { e with browse := browse } = some (.more e') ∧
      Editing stored call e' { text := [], browse := browse } := by
  have hpos : 0 < e.out.length := Nat.lt_of_le_of_lt (Nat.zero_le _) he.pos
  have htape : Console.tape (redraw call.echo [] { e with browse := browse }).shown [] =
      some (image call.echo []) :=
    redraw_tape t.text rfl (fun c hc => absurd hc List.not_mem_nil) he.tape he.drawn
  obtain ⟨c, rest, hout⟩ := List.exists_cons_of_length_pos hpos
  have hset : (redraw call.echo [] { e with browse := browse }).setChar 0 0 =
      some { redraw call.echo [] { e with browse := browse } with out := e.out.set 0 0 } :=
    setChar_eq hpos
  rw [Console.discard, hset]
  refine ⟨_, rfl, ?_⟩
  exact {
    fits := Nat.zero_le _
    printable := fun c hc => absurd hc List.not_mem_nil
    size := by
      show (e.out.set 0 0).length = _
      rw [List.length_set]
      exact he.size
    out := ⟨rest, by
      show e.out.set 0 0 = _
      rw [hout]
      rfl⟩
    length := rfl
    drawn := rfl
    browse := rfl
    browse_le := hle
    browse_ge := hge
    tape := htape }

/-- Without a hidden echo the last character is on the console. -/
theorem image_concat_ne {echo : Echo} (hecho : echo ≠ .hidden) (w : List UInt8) (c : UInt8) :
    ∃ d, image echo (w ++ [c]) = image echo w ++ [d] := by
  rw [image_concat]
  cases echo with
  | plain => exact ⟨c, rfl⟩
  | hidden => exact absurd rfl hecho
  | stars => exact ⟨42, rfl⟩

theorem Editing.onBackspace (he : Editing stored call e t) :
    ∃ e', Console.onBackspace call e = some (.more e') ∧
      Editing stored call e' { t with text := t.text.dropLast } := by
  rcases List.eq_nil_or_concat t.text with hnil | ⟨w, c, hw⟩
  · -- nothing to take back
    have hlength : ¬e.length > 0 := by
      rw [he.length, hnil]
      exact Int.lt_irrefl 0
    have hsame : { t with text := t.text.dropLast } = t := by
      rw [hnil, List.dropLast_nil, ← hnil]
    rw [Console.onBackspace, if_neg hlength, hsame]
    exact ⟨e, rfl, he⟩
  · rw [List.concat_eq_append] at hw
    have hlength : e.length = (w.length : Int) + 1 := by
      rw [he.length, hw, List.length_append]
      rfl
    have hless : e.length - 1 = (w.length : Int) := by rw [hlength, Int.add_sub_cancel]
    obtain ⟨rest, hout⟩ := he.out
    rw [hw, List.append_assoc, List.singleton_append] at hout
    have hset : Editor.setChar { e with length := e.length - 1 } (e.length - 1) 0 =
        some { e with length := e.length - 1, out := w ++ 0 :: 0 :: rest } := by
      have hi : w.length < e.out.length := by
        rw [hout, List.length_append, List.length_cons]
        omega
      have hout' : e.out.set w.length 0 = w ++ 0 :: 0 :: rest := by rw [hout, set_behind]
      rw [hless, setChar_eq (by exact hi), ← hout']
    have hdropped : t.text.dropLast = w := by rw [hw, List.dropLast_concat]
    have hfits : w.length ≤ call.room := by
      have := he.fits
      rw [hw, List.length_append] at this
      omega
    have hprintable : ∀ d ∈ w, Printable d := fun d hd =>
      he.printable d (hw ▸ List.mem_append_left _ hd)
    have hsize : (w ++ 0 :: 0 :: rest).length = call.size := by
      rw [← he.size, hout, List.length_append, List.length_append, List.length_cons,
        List.length_cons, List.length_cons, List.length_cons]
    have hdrawn := he.drawn
    have htape := he.tape
    rw [hw] at hdrawn htape
    rw [Console.onBackspace, if_pos (by omega), hdropped]
    dsimp only
    rw [hset]
    by_cases hecho : call.echo = .hidden
    · refine ⟨_, if_neg (not_not_intro hecho), ?_⟩
      exact {
        fits := hfits
        printable := hprintable
        size := hsize
        out := ⟨_, rfl⟩
        length := hless
        drawn := by
          show e.drawn = _
          rw [hdrawn, if_pos hecho, if_pos hecho]
        browse := he.browse
        browse_le := he.browse_le
        browse_ge := he.browse_ge
        tape := by
          show Console.tape e.shown [] = _
          rw [htape, hecho]
          rfl }
    · obtain ⟨d, himage⟩ := image_concat_ne hecho w c
      refine ⟨_, if_pos hecho, ?_⟩
      exact {
        fits := hfits
        printable := hprintable
        size := hsize
        out := ⟨_, rfl⟩
        length := hless
        drawn := by
          show e.drawn - 1 = _
          rw [hdrawn, if_neg hecho, if_neg hecho, List.length_append, List.length_singleton]
          show ((w.length + 1 : Nat) : Int) - 1 = (w.length : Int)
          omega
        browse := he.browse
        browse_le := he.browse_le
        browse_ge := he.browse_ge
        tape := by
          show Console.tape (e.shown ++ [.vga (.putc backspace)]) [] = _
          rw [tape_append, htape, himage, Option.bind_some, Console.tape, onTape, if_pos rfl,
            if_neg (List.append_ne_nil_of_right_ne_nil _ (List.cons_ne_nil d [])),
            List.dropLast_concat]
          rfl }

/-- The line is drawn again on a console that was cleared. -/
theorem Editing.drawAgain (he : Editing stored call e t) {shown : List Shown}
    (hs : Console.tape shown [] = some []) :
    Editing stored call (redraw call.echo e.out { e with drawn := 0, shown := shown }) t := by
  obtain ⟨rest, hout⟩ := he.out
  have htext : text e.out = t.text := by
    rw [hout]
    exact text_terminated (no_zero he.printable) rest
  have himage : image call.echo [] = [] := by cases call.echo <;> rfl
  exact {
    fits := he.fits
    printable := he.printable
    size := he.size
    out := he.out
    length := he.length
    drawn := by
      rw [← htext]
      rfl
    browse := he.browse
    browse_le := he.browse_le
    browse_ge := he.browse_ge
    tape := redraw_tape [] htext he.printable (by rw [himage]; exact hs)
      (ite_self _).symm }

theorem Editing.onClear (he : Editing stored call e t) :
    ∃ e', Console.onClear call e = .more e' ∧ Editing stored call e' t := by
  have hcleared : Console.tape (e.shown ++ [.vga .clear]) [] = some [] := by
    rw [tape_append, he.tape]
    rfl
  cases hprompt : call.prompt with
  | false =>
    have hrun : Console.onClear call e = .more (redraw call.echo e.out
        { e with drawn := 0, shown := e.shown ++ [.vga .clear] }) := by
      rw [Console.onClear, hprompt]
      rfl
    exact ⟨_, hrun, he.drawAgain hcleared⟩
  | true =>
    have hrun : Console.onClear call e = .more (redraw call.echo e.out
        { e with drawn := 0, shown := e.shown ++ [.vga .clear] ++ [.prompt] }) := by
      rw [Console.onClear, hprompt]
      rfl
    refine ⟨_, hrun, he.drawAgain ?_⟩
    rw [tape_append, hcleared]
    rfl

theorem strlen_eq {e : Editor} {w rest : List UInt8} (h0 : (0 : UInt8) ∉ w)
    (hout : e.out = w ++ 0 :: rest) : e.strlen = some (w.length : Int) := by
  rw [Editor.strlen, hout, if_pos (List.mem_append_right _ List.mem_cons_self),
    text_terminated h0]

/-- A line from the history, as far as it fits. -/
theorem Editing.recall (he : Editing stored call e t) (hk : Keeps h stored)
    (hline : ∀ line ∈ stored, ∀ c ∈ line, Printable c) (hsize : 2 ≤ call.size)
    (huse : call.useHistory = true) (hint : IsInt h.historyTotal) {up : Bool} {i : Nat}
    (htarget : (if up then e.browse - 1 else e.browse + 1) = i) (hi : i < stored.length)
    (hkept : stored.length ≤ i + historyMax) :
    ∃ e', Console.onArrow h call up e = some (.more e') ∧
      Editing stored call e' { text := (stored.getD i []).take call.room, browse := i } := by
  have h16 : historyMax = 16 := rfl
  have htotal := hk.total
  have hroom : call.room < e.out.length := by
    have := Nat.min_le_left call.size lineMax
    rw [he.size, Call.room]
    omega
  have hat := hk.at_eq (i : Int)
  rw [if_pos ⟨by omega, by omega⟩] at hat
  obtain ⟨entry, hat, hget⟩ := hat
  rw [Int.toNat_natCast] at hget
  have hgetD : stored.getD i [] = text entry := by rw [List.getD_eq_getElem?_getD, hget, Option.getD_some]
  have hprintable : ∀ c ∈ (text entry).take call.room, Printable c := fun c hc =>
    hline _ (List.mem_of_getElem? hget) c (List.mem_of_mem_take hc)
  -- the copy and its terminator
  obtain ⟨x, rest, hdrop⟩ := List.exists_cons_of_length_pos
    (show 0 < (e.out.drop call.room).length by rw [List.length_drop]; omega)
  obtain ⟨more, hmore⟩ := strncpy_terminated entry call.room rest
  have hlength : (strncpy entry call.room ++ e.out.drop call.room).length = e.out.length := by
    rw [List.length_append, strncpy_length, List.length_drop]
    omega
  have hcopied : (strncpy entry call.room ++ e.out.drop call.room).set call.room 0 =
      (text entry).take call.room ++ 0 :: more := by
    have hset := set_behind (strncpy entry call.room) x 0 rest
    rw [strncpy_length] at hset
    rw [hdrop, hset, hmore]
  have hset : Editor.setChar
      { e with browse := i, out := strncpy entry call.room ++ e.out.drop call.room } call.room 0 =
      some { e with browse := i, out := (text entry).take call.room ++ 0 :: more } := by
    rw [← hcopied]
    exact setChar_eq (by rw [hlength]; exact hroom)
  have hstrlen : Editor.strlen
      { e with browse := i, out := (text entry).take call.room ++ 0 :: more } =
      some (((text entry).take call.room).length : Int) := strlen_eq (no_zero hprintable) rfl
  have hnot : ¬call.useHistory = false := by
    rw [huse]
    decide
  rw [Console.onArrow, if_neg hnot, htarget]
  dsimp only
  rw [if_neg (not_not_intro ⟨by omega, by have := hint.2; omega⟩), if_neg (by omega),
    if_neg (by omega), hat, Call.limit_eq hsize, Int.toNat_natCast, hgetD]
  refine ⟨redraw call.echo ((text entry).take call.room ++ 0 :: more)
    { e with
      out := (text entry).take call.room ++ 0 :: more
      length := (((text entry).take call.room).length : Int)
      browse := i }, ?_, ?_⟩
  · show (if (e.out.length : Int) < call.room then none else _) = _
    rw [if_neg (by omega), hset]
    show Option.bind (Editor.strlen _) _ = _
    rw [hstrlen]
    rfl
  · have htext : text ((text entry).take call.room ++ 0 :: more) = (text entry).take call.room :=
      text_terminated (no_zero hprintable) more
    exact {
      fits := List.length_take_le _ _
      printable := hprintable
      size := by
        show ((text entry).take call.room ++ 0 :: more).length = _
        rw [← hcopied, List.length_set, hlength, he.size]
      out := ⟨more, rfl⟩
      length := rfl
      drawn := by
        show (if call.echo = .hidden then 0 else ((text _).length : Int)) = _
        rw [htext]
      browse := rfl
      browse_le := Nat.le_of_lt hi
      browse_ge := hkept
      tape := redraw_tape t.text htext hprintable he.tape he.drawn }

/-- What `Editing` needs of the history to recall a line. -/
structure Recalls (h : History) (stored : List (List UInt8)) : Prop where
  keeps : Keeps h stored
  printable : ∀ line ∈ stored, ∀ c ∈ line, Printable c
  counts : IsInt h.historyTotal

theorem Typed.key_up (stored : List (List UInt8)) (limit : Nat) (useHistory : Bool) (t : Typed) :
    t.key stored limit useHistory Keyboard.keyUp =
      if useHistory = true ∧ 0 < t.browse ∧ stored.length < t.browse + historyMax then
        { text := (stored.getD (t.browse - 1) []).take limit, browse := t.browse - 1 }
      else t := rfl

theorem Typed.key_down (stored : List (List UInt8)) (limit : Nat) (useHistory : Bool) (t : Typed) :
    t.key stored limit useHistory Keyboard.keyDown =
      if useHistory = true then
        if t.browse + 1 < stored.length then
          { text := (stored.getD (t.browse + 1) []).take limit, browse := t.browse + 1 }
        else { text := [], browse := stored.length }
      else t := rfl

theorem Editing.onUp (he : Editing stored call e t) (hr : Recalls h stored)
    (hsize : 2 ≤ call.size) :
    ∃ e', Console.onArrow h call true e = some (.more e') ∧
      Editing stored call e' (t.key stored call.room call.useHistory Keyboard.keyUp) := by
  have h16 : historyMax = 16 := rfl
  have htotal := hr.keeps.total
  have hbrowse := he.browse
  have hle := he.browse_le
  have hbound := hr.counts.2
  rw [Typed.key_up]
  cases huse : call.useHistory with
  | false =>
    have hoff : ¬(false = true ∧ 0 < t.browse ∧ stored.length < t.browse + historyMax) :=
      fun hup => Bool.false_ne_true hup.1
    rw [Console.onArrow, if_pos huse, if_neg hoff]
    exact ⟨_, rfl, he.show _ fun line => rfl⟩
  | true =>
    by_cases hkept : 0 < t.browse ∧ stored.length < t.browse + historyMax
    · rw [if_pos ⟨rfl, hkept⟩]
      refine he.recall hr.keeps hr.printable hsize huse hr.counts ?_ (by omega) (by omega)
      rw [if_pos rfl]
      omega
    · have hnot : ¬call.useHistory = false := by
        rw [huse]
        decide
      rw [if_neg fun hup => hkept hup.2, Console.onArrow, if_neg hnot]
      refine ⟨e, ?_, he⟩
      dsimp only
      rw [if_pos rfl, if_neg (not_not_intro ⟨by omega, by omega⟩)]
      by_cases hzero : t.browse = 0
      · -- in front of the first line
        rw [if_pos (by omega)]
      · -- the line was dropped from the ring
        have hat := hr.keeps.at_eq (e.browse - 1)
        rw [if_neg (by omega)] at hat
        rw [if_neg (by omega), if_neg (by omega), hat]
        rfl

/-- The arrow down adds to an index first. -/
theorem Editing.onDown (he : Editing stored call e t) (hr : Recalls h stored)
    (hsize : 2 ≤ call.size) :
    ¬IsInt (h.historyTotal + 1) ∧ Console.onArrow h call false e = none ∨
      ∃ e', Console.onArrow h call false e = some (.more e') ∧
        Editing stored call e' (t.key stored call.room call.useHistory Keyboard.keyDown) := by
  have htotal := hr.keeps.total
  have hbrowse := he.browse
  have hle := he.browse_le
  have hge := he.browse_ge
  have hbound := hr.counts.2
  rw [Typed.key_down]
  cases huse : call.useHistory with
  | false =>
    rw [Console.onArrow, if_pos huse, if_neg Bool.false_ne_true]
    exact Or.inr ⟨_, rfl, he.show _ fun line => rfl⟩
  | true =>
    have hnot : ¬call.useHistory = false := by
      rw [huse]
      decide
    rw [if_pos rfl]
    by_cases hnext : t.browse + 1 < stored.length
    · rw [if_pos hnext]
      refine Or.inr (he.recall hr.keeps hr.printable hsize huse hr.counts ?_ hnext (by omega))
      rw [if_neg Bool.false_ne_true]
      omega
    · rw [if_neg hnext, Console.onArrow, if_neg hnot]
      dsimp only
      rw [if_neg Bool.false_ne_true]
      by_cases hint : IsInt (e.browse + 1)
      · rw [if_neg (not_not_intro hint), if_neg (by omega), if_pos (by omega), htotal]
        exact Or.inr (he.discard (Nat.le_refl _) (Nat.le_add_right _ _))
      · refine Or.inl ⟨fun hmax => hint ⟨by omega, ?_⟩, if_pos hint⟩
        have := hmax.2
        omega

theorem printable_ofInt {key : Int} (hlow : 32 ≤ key) (hhigh : key ≤ 126) :
    Printable (UInt8.ofInt key) := by
  have hbyte : (UInt8.ofInt key).toNat = key.toNat := by
    rw [UInt8.ofInt, UInt8.toNat_ofNat']
    omega
  constructor
  · rw [UInt8.le_iff_toNat_le, hbyte]
    show 32 ≤ key.toNat
    omega
  · rw [UInt8.le_iff_toNat_le, hbyte]
    show key.toNat ≤ 126
    omega

theorem Editing.onChar (he : Editing stored call e t) (hsize : 2 ≤ call.size) {key : Int}
    (hlow : 32 ≤ key) (hhigh : key ≤ 126) :
    ∃ e', Console.onChar call key e = some (.more e') ∧
      Editing stored call e'
        (if t.text.length < call.room then { t with text := t.text ++ [UInt8.ofInt key] } else t) := by
  have hlimit := Call.limit_eq hsize
  by_cases hroom : t.text.length < call.room
  · rw [if_pos hroom, Console.onChar, if_pos (by rw [hlimit, he.length]; omega)]
    dsimp only
    -- the view is at the bottom now
    replace he := he.show [.vga .scrollToBottom] fun line => rfl
    generalize e.show [.vga .scrollToBottom] = e at he ⊢
    have hlength := he.length
    obtain ⟨rest, hout⟩ := he.out
    have hshort : call.room < call.size := by
      have := Nat.min_le_left call.size lineMax
      rw [Call.room]
      omega
    have hout_length : e.out.length = t.text.length + (rest.length + 1) := by
      rw [hout, List.length_append, List.length_cons]
    have hsize_out := he.size
    obtain ⟨y, rest', rfl⟩ := List.exists_cons_of_length_pos (show 0 < rest.length by omega)
    have hprintable := printable_ofInt hlow hhigh
    -- the character, and the terminator behind it
    have hfirst : e.setChar e.length (UInt8.ofInt key) =
        some { e with
          out := t.text ++ UInt8.ofInt key :: y :: rest' } := by
      have hset := set_behind t.text 0 (UInt8.ofInt key) (y :: rest')
      rw [← hout] at hset
      rw [← hset]
      exact (congrArg (e.setChar · _) hlength).trans (setChar_eq he.pos)
    have hsecond : Editor.setChar
        { e with
          out := t.text ++ UInt8.ofInt key :: y :: rest', length := e.length + 1 } (e.length + 1) 0 =
        some { e with
          out := t.text ++ [UInt8.ofInt key] ++ 0 :: rest', length := e.length + 1 } := by
      have hset := set_behind (t.text ++ [UInt8.ofInt key]) y 0 rest'
      rw [List.append_assoc, List.singleton_append, List.length_append, List.length_singleton] at hset
      have hindex : e.length + 1 = ((t.text.length + 1 : Nat) : Int) := by
        rw [hlength]
        rfl
      rw [hindex, ← hset]
      refine setChar_eq ?_
      show t.text.length + 1 < (t.text ++ UInt8.ofInt key :: y :: rest').length
      rw [List.length_append, List.length_cons, List.length_cons]
      omega
    rw [hfirst]
    dsimp only [Option.bind_eq_bind, Option.bind_some]
    rw [hsecond]
    refine ⟨_, rfl, ?_⟩
    exact {
      fits := by
        show (t.text ++ [UInt8.ofInt key]).length ≤ call.room
        rw [List.length_append, List.length_singleton]
        exact hroom
      printable := by
        intro c hc
        rcases List.mem_append.mp hc with hc | hc
        · exact he.printable c hc
        · rw [List.mem_singleton.mp hc]
          exact hprintable
      size := by
        show (t.text ++ [UInt8.ofInt key] ++ 0 :: rest').length = call.size
        rw [← he.size, hout, List.length_append, List.length_append, List.length_append,
          List.length_singleton, List.length_cons, List.length_cons, List.length_cons]
        omega
      out := ⟨rest', rfl⟩
      length := by
        show e.length + 1 = ((t.text ++ [UInt8.ofInt key]).length : Int)
        rw [hlength, List.length_append]
        rfl
      drawn := by
        show (if call.echo = .hidden then e.drawn else e.drawn + 1) =
          if call.echo = .hidden then 0 else ((t.text ++ [UInt8.ofInt key]).length : Int)
        rw [he.drawn, List.length_append]
        split
        · rfl
        · rfl
      browse := he.browse
      browse_le := he.browse_le
      browse_ge := he.browse_ge
      tape := by
        show Console.tape (e.shown ++ echoChar call.echo (UInt8.ofInt key)) [] =
          some (image call.echo (t.text ++ [UInt8.ofInt key]))
        rw [tape_append, he.tape, image_concat]
        exact tape_echoChar hprintable }
  · rw [if_neg hroom, Console.onChar, if_neg (by rw [hlimit, he.length]; omega)]
    exact ⟨e, rfl, he⟩

theorem Typed.key_other {stored : List (List UInt8)} {limit : Nat} {useHistory : Bool} {t : Typed}
    {key : Int} (h8 : key ≠ 8) (h21 : key ≠ 21) (hup : key ≠ Keyboard.keyUp)
    (hdown : key ≠ Keyboard.keyDown) :
    t.key stored limit useHistory key =
      if 32 ≤ key ∧ key ≤ 126 ∧ t.text.length < limit then
        { t with text := t.text ++ [UInt8.ofInt key] }
      else t := by
  rw [Typed.key, if_neg h8, if_neg h21, if_neg hup, if_neg hdown]

/-- **Every key keeps `Editing`.** -/
theorem Editing.readKey (he : Editing stored call e t) (hr : Recalls h stored)
    (hsize : 2 ≤ call.size) {key : Int} (h10 : key ≠ 10) (h3 : key ≠ 3) :
    ¬IsInt (h.historyTotal + 1) ∧ Console.readKey h call key e = none ∨
      ∃ e', Console.readKey h call key e = some (.more e') ∧
        Editing stored call e' (t.key stored call.room call.useHistory key) := by
  have hkeyUp : (Keyboard.keyUp : Int) = 257 := rfl
  have hkeyDown : (Keyboard.keyDown : Int) = 258 := rfl
  have hpageup : (Keyboard.keyPageup : Int) = 264 := rfl
  have hpagedown : (Keyboard.keyPagedown : Int) = 265 := rfl
  rw [Console.readKey, if_neg h10]
  by_cases h8 : key = 8
  · subst h8
    exact Or.inr he.onBackspace
  rw [if_neg h8, if_neg h3]
  by_cases h12 : key = 12
  · subst h12
    obtain ⟨e', hrun, he'⟩ := he.onClear
    exact Or.inr ⟨e', congrArg some hrun, he'⟩
  rw [if_neg h12]
  by_cases h21 : key = 21
  · subst h21
    have hdiscard := he.discard he.browse_le he.browse_ge
    rw [← he.browse] at hdiscard
    exact Or.inr hdiscard
  rw [if_neg h21]
  by_cases hup : key = Keyboard.keyUp
  · rw [if_neg (by omega), if_neg (by omega), if_pos hup, hup]
    exact Or.inr (he.onUp hr hsize)
  by_cases hdown : key = Keyboard.keyDown
  · rw [if_neg (by omega), if_neg (by omega), if_neg hup, if_pos hdown, hdown]
    exact he.onDown hr hsize
  rw [Typed.key_other h8 h21 hup hdown]
  by_cases hup' : key = Keyboard.keyPageup
  · rw [if_pos hup', if_neg (by omega)]
    exact Or.inr ⟨_, rfl, he.show _ fun line => rfl⟩
  rw [if_neg hup']
  by_cases hdown' : key = Keyboard.keyPagedown
  · rw [if_pos hdown', if_neg (by omega)]
    exact Or.inr ⟨_, rfl, he.show _ fun line => rfl⟩
  rw [if_neg hdown', if_neg hup, if_neg hdown]
  by_cases hprintable : 32 ≤ key ∧ key ≤ 126
  · rw [if_neg (by omega)]
    obtain ⟨e', hrun, he'⟩ := he.onChar hsize hprintable.1 hprintable.2
    refine Or.inr ⟨e', hrun, ?_⟩
    simpa only [hprintable.1, hprintable.2, true_and] using he'
  · rw [if_pos (by omega), if_neg fun h => hprintable ⟨h.1, h.2.1⟩]
    exact Or.inr ⟨e, rfl, he⟩

/-- Enter returns the text. -/
theorem Editing.enter (he : Editing stored call e t) :
    ∃ e', Console.readKey h call 10 e = some (.done e' true) ∧ text e'.out = t.text := by
  obtain ⟨rest, hout⟩ := he.out
  have hset : Editor.setChar (e.show [.vga .scrollToBottom, .vga (.putc 10)]) e.length 0 =
      some { e.show [.vga .scrollToBottom, .vga (.putc 10)] with out := e.out.set t.text.length 0 } :=
    (congrArg (Editor.setChar _ · _) he.length).trans (setChar_eq he.pos)
  rw [Console.readKey, if_pos rfl]
  dsimp only
  refine ⟨_, congrArg (Option.bind · _) hset, ?_⟩
  show text (e.out.set t.text.length 0) = t.text
  rw [hout, set_behind]
  exact text_terminated (no_zero he.printable) rest

/-- Ctrl-C returns an empty line. -/
theorem Editing.interrupt (he : Editing stored call e t) :
    ∃ e', Console.readKey h call 3 e = some (.done e' false) ∧ text e'.out = [] := by
  have hpos : 0 < e.out.length := Nat.lt_of_le_of_lt (Nat.zero_le _) he.pos
  obtain ⟨c, rest, hout⟩ := List.exists_cons_of_length_pos hpos
  have hset : ∀ shown, Editor.setChar (e.show shown) 0 0 =
      some { e.show shown with out := e.out.set 0 0 } := fun shown => setChar_eq hpos
  rw [Console.readKey, if_neg (by decide), if_neg (by decide), if_pos rfl]
  dsimp only
  refine ⟨_, congrArg (Option.bind · _) (hset _), ?_⟩
  show text (e.out.set 0 0) = []
  rw [hout]
  rfl

/-! ## All keys -/

/-- What is known when the keys are used up, and when the function returns. -/
def Outcome (stored : List (List UInt8)) (call : Call) (e : Editor) (t : Typed) :
    Option Bool → Prop
  | none => Editing stored call e t
  | some true => text e.out = t.text ∧ t.text.length ≤ call.room ∧ ∀ c ∈ t.text, Printable c
  | some false => text e.out = []

theorem Editing.readLoop (hr : Recalls h stored) (hsize : 2 ≤ call.size) (keys : List Int) :
    ∀ {e : Editor} {t : Typed}, Editing stored call e t →
    ¬IsInt (h.historyTotal + 1) ∧ Console.readLoop h call keys e = none ∨
      ∃ e' t' res, Typed.keys stored call.room call.useHistory keys t = (t', res) ∧
        Console.readLoop h call keys e = some (e', res) ∧ Outcome stored call e' t' res := by
  induction keys with
  | nil => exact fun {e t} he => Or.inr ⟨e, t, none, rfl, rfl, he⟩
  | cons key keys ih =>
    intro e t he
    rw [Console.readLoop, Typed.keys]
    by_cases h10 : key = 10
    · subst h10
      obtain ⟨e', hrun, htext⟩ := he.enter (h := h)
      rw [hrun, if_pos rfl]
      exact Or.inr ⟨e', t, some true, rfl, rfl, htext, he.fits, he.printable⟩
    rw [if_neg h10]
    by_cases h3 : key = 3
    · subst h3
      obtain ⟨e', hrun, htext⟩ := he.interrupt (h := h)
      rw [hrun, if_pos rfl]
      exact Or.inr ⟨e', t, some false, rfl, rfl, htext⟩
    rw [if_neg h3]
    rcases he.readKey hr hsize h10 h3 with ⟨hmax, hnone⟩ | ⟨e', hrun, he'⟩
    · rw [hnone]
      exact Or.inl ⟨hmax, rfl⟩
    · rw [hrun]
      exact ih he'

theorem consoleReadLine_spec (hr : Recalls h stored) (hsize : 2 ≤ call.size) {out : List UInt8}
    (hout : out.length = call.size) (keys : List Int) :
    ¬IsInt (h.historyTotal + 1) ∧ consoleReadLine h call out keys = none ∨
      ∃ e t res, Typed.keys stored call.room call.useHistory keys
          { text := [], browse := stored.length } = (t, res) ∧
        consoleReadLine h call out keys = some (e, res) ∧ Outcome stored call e t res := by
  have hpos : 0 < out.length := by omega
  obtain ⟨c, rest, hcons⟩ := List.exists_cons_of_length_pos hpos
  have hset : Editor.setChar
      { out := out, length := 0, drawn := 0, browse := h.historyTotal, shown := [] } 0 0 =
      some { out := out.set 0 0, length := 0, drawn := 0, browse := h.historyTotal, shown := [] } :=
    setChar_eq hpos
  have hstart : Editing stored call
      { out := out.set 0 0, length := 0, drawn := 0, browse := h.historyTotal, shown := [] }
      { text := [], browse := stored.length } := {
    fits := Nat.zero_le _
    printable := fun c hc => absurd hc List.not_mem_nil
    size := List.length_set.trans hout
    out := ⟨rest, by rw [hcons]; rfl⟩
    length := rfl
    drawn := (ite_self _).symm
    browse := hr.keeps.total
    browse_le := Nat.le_refl _
    browse_ge := Nat.le_add_right _ _
    tape := by cases call.echo <;> rfl }
  rw [consoleReadLine, hset]
  exact hstart.readLoop hr hsize keys

/-! ## Histories of entered lines -/

/-- Every line in the history was returned by an earlier call. -/
inductive Entered : History → Prop
  | zero : Entered .zero
  | push {h h₀ h' : History} {call : Call} {out : List UInt8} {keys : List Int} {e : Editor} :
    Entered h → Entered h₀ → 2 ≤ call.size → out.length = call.size →
    consoleReadLine h₀ call out keys = some (e, some true) →
    consoleHistoryPush h (some e.out) = some h' → Entered h'

theorem recalls_zero : Recalls .zero [] where
  keeps := keeps_zero
  printable := fun line hl => absurd hl List.not_mem_nil
  counts := by decide

/-- A line without control characters is stored. -/
theorem Recalls.push {h h' : History} {stored : List (List UInt8)} {line : List UInt8}
    (hr : Recalls h stored) (hp : ∀ c ∈ text line, Printable c)
    (hpush : consoleHistoryPush h (some line) = some h') : ∃ stored', Recalls h' stored' := by
  have heq := hr.keeps.push_eq line
  rw [hpush] at heq
  by_cases hskip : text line = [] ∨ stored.getLast? = some (text line)
  · rw [if_pos hskip] at heq
    rw [Option.some.inj heq]
    exact ⟨stored, hr⟩
  · rw [if_neg hskip] at heq
    by_cases hint : IsInt (h.historyTotal + 1)
    · have hlen : (enter stored (some line)).length < 2 ^ 31 := by
        have htotal := hr.keeps.total
        have hlt := hint.2
        rw [enter_new hskip, List.length_append, List.length_singleton]
        omega
      obtain ⟨h'', hpush', hk⟩ := hr.keeps.push hlen
      rw [hpush] at hpush'
      obtain rfl := Option.some.inj hpush'
      refine ⟨enter stored (some line), hk, ?_, ?_⟩
      · intro line' hl c hc
        rw [enter_new hskip] at hl
        rcases List.mem_append.mp hl with hl | hl
        · exact hr.printable line' hl c hc
        · rw [List.mem_singleton.mp hl] at hc
          exact hp c (List.mem_of_mem_take hc)
      · rw [hk.total]
        exact ⟨by omega, by omega⟩
    · rw [if_neg hint] at heq
      exact absurd heq (Option.some_ne_none h')

theorem Entered.recalls {h : History} (hentered : Entered h) : ∃ stored, Recalls h stored := by
  induction hentered with
  | zero => exact ⟨[], recalls_zero⟩
  | push _ _ hsize hout hread hpush ih ih₀ =>
    obtain ⟨stored, hr⟩ := ih
    obtain ⟨stored₀, hr₀⟩ := ih₀
    rcases consoleReadLine_spec hr₀ hsize hout _ with ⟨-, hnone⟩ | ⟨e', t, res, -, hrun, houtcome⟩
    · rw [hread] at hnone
      exact absurd hnone (Option.some_ne_none _)
    · rw [hread] at hrun
      obtain ⟨rfl, rfl⟩ := Prod.mk.inj (Option.some.inj hrun)
      obtain ⟨htext, -, hprintable⟩ := houtcome
      exact hr.push (by rw [htext]; exact hprintable) hpush

/-- The call follows the reference editor on the lines that the history keeps. -/
def Edits (h : History) (call : Call) (out : List UInt8) (keys : List Int) : Prop :=
  ∃ stored, Keeps h stored ∧
    ∃ e t res, Typed.keys stored call.room call.useHistory keys
        { text := [], browse := stored.length } = (t, res) ∧
      consoleReadLine h call out keys = some (e, res) ∧ Outcome stored call e t res

/--
**The editor follows the reference editor.** After any keys the buffer holds the text,
`drawn` is its length on the console, the arrows are inside of the history, and what was
printed shows the text behind the prompt; Enter returns that text.
-/
theorem editor_invariant {h : History} {call : Call} {out : List UInt8} {keys : List Int}
    (hentered : Entered h) (hcount : IsInt (h.historyTotal + 1)) (hsize : 2 ≤ call.size)
    (hout : out.length = call.size) : Edits h call out keys := by
  obtain ⟨stored, hr⟩ := hentered.recalls
  rcases consoleReadLine_spec hr hsize hout keys with ⟨hmax, -⟩ | hruns
  · exact absurd hcount hmax
  · exact ⟨stored, hr.keeps, hruns⟩

/-- The call of the shell. -/
def shellLine : Call := { size := lineMax, echo := .plain, useHistory := true, prompt := true }

/-- `hi` is entered, comes back with the arrow up, and is changed to `ho` and entered again. -/
theorem editor_invariant_recalled : ∃ e h e',
    consoleReadLine .zero shellLine (List.replicate lineMax 7) [104, 105, 10] =
        some (e, some true) ∧ consoleHistoryPush .zero (some e.out) = some h ∧
      Edits h shellLine e.out [Keyboard.keyUp, 8, 111, 10] ∧
      consoleReadLine h shellLine e.out [Keyboard.keyUp, 8, 111, 10] = some (e', some true) ∧
      text e'.out = [104, 111] := by
  have h : ((consoleReadLine .zero shellLine (List.replicate lineMax 7) [104, 105, 10]).bind
      fun r => (consoleHistoryPush .zero (some r.1.out)).bind fun h =>
        (consoleReadLine h shellLine r.1.out [Keyboard.keyUp, 8, 111, 10]).map fun q =>
          (r.2, decide (IsInt (h.historyTotal + 1) ∧ r.1.out.length = lineMax), q.2,
            text q.1.out)) = some (some true, true, some true, [104, 111]) := by
    decide +kernel
  simp only [Option.bind_eq_some_iff, Option.map_eq_some_iff, Prod.mk.injEq,
    decide_eq_true_eq] at h
  obtain ⟨⟨e, res⟩, hread, h', hpush, ⟨e', res'⟩, hagain, rfl, ⟨hcount, hout⟩, rfl, htext⟩ := h
  have hentered : Entered h' :=
    .push .zero .zero (by decide) List.length_replicate hread hpush
  exact ⟨e, h', e', hread, hpush, editor_invariant hentered hcount (by decide) hout, hagain, htext⟩

/-! ## The end of the counter -/

/-- Lines of one letter can be entered until the counter is full. -/
theorem entered_turn (n : Nat) (hn : n < 2 ^ 31) :
    ∃ h, Entered h ∧ Keeps h ((List.range n).map turn) := by
  induction n with
  | zero => exact ⟨.zero, .zero, keeps_zero⟩
  | succ n ih =>
    obtain ⟨h, hentered, hk⟩ := ih (by omega)
    obtain ⟨e, hread, hout⟩ : ∃ e,
        consoleReadLine .zero { size := 2, echo := .plain, useHistory := true, prompt := false } [0, 0]
          [if n % 2 = 0 then 97 else 98, 10] = some (e, some true) ∧ e.out = turn n ++ [0] := by
      rw [turn]
      split
      · exact ⟨_, rfl, rfl⟩
      · exact ⟨_, rfl, rfl⟩
    obtain ⟨hempty, hlast⟩ := turns_fresh n
    have htext : text e.out = text (turn n) := by
      rw [hout, text_turn]
      exact text_terminated (fun h0 => zero_notMem_text (turn n) (by rw [text_turn]; exact h0)) []
    have hnew : ¬(text e.out = [] ∨ ((List.range n).map turn).getLast? = some (text e.out)) := by
      rw [htext]
      exact fun h => h.elim hempty hlast
    have hshort : (text e.out).take (lineMax - 1) = turn n := by
      rw [htext, text_turn]
      rfl
    have henter : enter ((List.range n).map turn) (some e.out) = (List.range (n + 1)).map turn := by
      rw [enter_new hnew, hshort, List.range_succ, List.map_append, List.map_singleton]
    have hlen : (enter ((List.range n).map turn) (some e.out)).length < 2 ^ 31 := by
      rw [henter, List.length_map, List.length_range]
      exact hn
    obtain ⟨h', hpush, hk'⟩ := hk.push hlen
    rw [henter] at hk'
    exact ⟨h', .push hentered .zero (Nat.le_refl 2) rfl hread hpush, hk'⟩

/-- The arrow down behind line number 2^31 - 1. -/
theorem editor_overflow : ¬∀ (h : History) (call : Call) (out : List UInt8) (keys : List Int),
    Entered h → 2 ≤ call.size → out.length = call.size → Edits h call out keys := by
  intro hall
  obtain ⟨n, hn⟩ : ∃ n, n + 1 = 2 ^ 31 := ⟨2147483647, rfl⟩
  obtain ⟨h, hentered, hk⟩ := entered_turn n (by omega)
  have htotal : h.historyTotal = 2147483647 := by
    rw [hk.total, List.length_map, List.length_range]
    omega
  obtain ⟨history, total⟩ := h
  obtain rfl : total = 2147483647 := htotal
  obtain ⟨-, -, e, t, res, -, hrun, -⟩ :=
    hall _ { size := 2, echo := .plain, useHistory := true, prompt := false } [0, 0]
      [Keyboard.keyDown] hentered (Nat.le_refl 2) rfl
  have hnone : consoleReadLine { history := history, historyTotal := 2147483647 }
      { size := 2, echo := .plain, useHistory := true, prompt := false } [0, 0]
      [Keyboard.keyDown] = none := rfl
  rw [hnone] at hrun
  exact absurd hrun.symm (Option.some_ne_none _)

end LightningOS.Console
