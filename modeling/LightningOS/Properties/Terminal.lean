import Mathlib.Data.List.DropRight
import Mathlib.Data.List.OfFn
import LightningOS.Lib.History
import LightningOS.Drivers.Vga

/-!
# The console is a terminal that never forgets

`Terminal` says what the console is for: a screen, a cursor, and all the lines that ever
left the screen. It has no ring, no video memory and no index that could leave its range.
Every operation of `drivers/vga.c` keeps the console in step with it, with the ring holding
the last 512 of those lines and the display showing what the view is over.
-/

namespace LightningOS.Vga

open History

/-! ## The terminal -/

theorem vgaHeight_pos : 0 < vgaHeight := by decide

theorem vgaHeight_pred_lt : vgaHeight - 1 < vgaHeight := by decide

/-- `gone` are the lines that left the screen, the oldest first. The view is `back` lines
above the screen. -/
structure Terminal where
  gone : List Line
  screen : Screen
  row : Fin vgaHeight
  col : Fin vgaWidth
  attr : UInt8
  back : Nat
  back_le : back ≤ min scrollbackLines gone.length

namespace Terminal

def firstRow : Fin vgaHeight := ⟨0, vgaHeight_pos⟩

def lastRow : Fin vgaHeight := ⟨vgaHeight - 1, vgaHeight_pred_lt⟩

def firstCol : Fin vgaWidth := ⟨0, by decide⟩

/-- How many lines the view can go back. -/
def kept (t : Terminal) : Nat := min scrollbackLines t.gone.length

/-- Everything there is to look at. -/
def lines (t : Terminal) : List Line := t.gone ++ List.ofFn t.screen

def toBottom (t : Terminal) : Terminal := { t with back := 0, back_le := Nat.zero_le _ }

/-- Lines leave the screen. -/
def leave (t : Terminal) (ls : List Line) : Terminal :=
  { t with
    gone := t.gone ++ ls
    back_le := by
      have h := t.back_le
      rw [List.length_append]
      omega }

def scroll (t : Terminal) : Terminal :=
  { t.leave [t.screen firstRow] with
    screen := fun r =>
      if h : r.val + 1 < vgaHeight then t.screen ⟨r.val + 1, h⟩ else blankLine t.attr }

/-- The cursor goes on to column `col` of row `row`, the first column of the next row
standing for the one after the last. -/
def place (t : Terminal) (row col : Nat) : Terminal :=
  let (row, col) : Nat × Fin vgaWidth :=
    if h : col < vgaWidth then (row, ⟨col, h⟩) else (row + 1, firstCol)
  if h : row < vgaHeight then { t with row := ⟨row, h⟩, col := col }
  else { t.scroll with row := lastRow, col := col }

def put (t : Terminal) (value : UInt16) : Terminal :=
  { t with
    screen := Function.update t.screen t.row (Function.update (t.screen t.row) t.col value) }

def stepBack (t : Terminal) : Terminal :=
  if 0 < t.col.val then { t with col := ⟨t.col - 1, by omega⟩ }
  else if 0 < t.row.val then
    { t with row := ⟨t.row - 1, by omega⟩, col := ⟨vgaWidth - 1, by decide⟩ }
  else t

def putc (t : Terminal) (c : UInt8) : Terminal :=
  let t := t.toBottom
  if c = 10 then t.place (t.row + 1) 0
  else if c = 13 then t.place t.row 0
  else if c = 9 then t.place t.row ((t.col / 4 + 1) * 4)
  else if c = 8 then t.stepBack.put (cell space t.attr)
  else (t.put (cell c t.attr)).place t.row (t.col + 1)

/-- The screen leaves, but for the blank rows at its end. -/
def clear (t : Terminal) : Terminal :=
  { (t.toBottom.leave ((List.ofFn t.screen).rdropWhile fun line => !lineUsed line)) with
    screen := fun _ => blankLine t.attr
    row := firstRow
    col := firstCol }

def setColor (t : Terminal) (fg bg : UInt8) : Terminal := { t with attr := fg ||| (bg <<< 4) }

def setCursor (t : Terminal) (row col : Int) : Terminal :=
  { t with
    row := ⟨min row.toNat (vgaHeight - 1), by have : vgaHeight = 25 := rfl; omega⟩
    col := ⟨min col.toNat (vgaWidth - 1), by have : vgaWidth = 80 := rfl; omega⟩ }

def scrollView (t : Terminal) (lines : Int) : Option Terminal :=
  if IsInt (t.back + lines) then
    some { t with back := min (t.back + lines).toNat t.kept, back_le := Nat.min_le_right _ _ }
  else none

def step (t : Terminal) : Op → Option Terminal
  | .putc c => some (t.putc c)
  | .clear => some t.clear
  | .setColor fg bg => some (t.setColor fg bg)
  | .setCursor row col => some (t.setCursor row col)
  | .scrollView lines => t.scrollView lines
  | .scrollToBottom => some t.toBottom

def run (t : Terminal) : List Op → Option Terminal
  | [] => some t
  | op :: ops => do
    let t ← t.step op
    t.run ops

/-- A terminal that is switched on with something on its screen. -/
def init (screen : Screen) : Terminal :=
  clear
    { gone := [], screen := screen, row := firstRow, col := firstCol, attr := vgaLightGrey,
      back := 0, back_le := Nat.zero_le _ }

end Terminal

/-! ## The ring -/

/-- The ring keeps the last of the lines `gone`. -/
structure Rings (v : Console) (gone : List Line) : Prop where
  head : v.scrollbackHead = (gone.length % scrollbackLines : Nat)
  count : v.scrollbackCount = (min scrollbackLines gone.length : Nat)
  holds : Holds v.scrollback (gone.length % scrollbackLines) (min scrollbackLines gone.length) gone

/-- `v'` differs from `v` in the ring at most. -/
structure SameBut (v v' : Console) : Prop where
  screen : v'.screen = v.screen
  attr : v'.attr = v.attr
  row : v'.cursorRow = v.cursorRow
  col : v'.cursorCol = v.cursorCol
  back : v'.viewOffset = v.viewOffset

theorem SameBut.refl (v : Console) : SameBut v v := ⟨rfl, rfl, rfl, rfl, rfl⟩

theorem SameBut.trans {v v' v'' : Console} (h : SameBut v v') (h' : SameBut v' v'') :
    SameBut v v'' :=
  ⟨h'.screen.trans h.screen, h'.attr.trans h.attr, h'.row.trans h.row, h'.col.trans h.col,
    h'.back.trans h.back⟩

theorem toNat_lt_of_lt {n : Nat} {i : Int} (h : 0 ≤ i ∧ i < n) : i.toNat < n := by omega

theorem index_of_lt {n : Nat} {i : Int} (h : 0 ≤ i ∧ i < n) :
    index n i = some ⟨i.toNat, toNat_lt_of_lt h⟩ := dif_pos h

theorem index_ofNat {n i : Nat} (h : i < n) : index n i = some ⟨i, h⟩ := by
  rw [index_of_lt ⟨by omega, by omega⟩]
  rfl

theorem pushScrollback_spec {v : Console} {gone : List Line} (h : Rings v gone) (line : Line) :
    ∃ v', v.pushScrollback line = some v' ∧ Rings v' (gone ++ [line]) ∧ SameBut v v' := by
  have hlt : gone.length % scrollbackLines < scrollbackLines := h.holds.head_lt
  have hslot : index scrollbackLines v.scrollbackHead =
      some (Fin.ofNat scrollbackLines (gone.length % scrollbackLines)) := by
    rw [h.head, index_ofNat hlt]
    congr 1
    exact Fin.ext (Nat.mod_eq_of_lt hlt).symm
  have hnext : (v.scrollbackHead + 1).tmod scrollbackLines =
      ((gone ++ [line]).length % scrollbackLines : Nat) := by
    rw [h.head, List.length_append, List.length_singleton, Int.tmod_eq_emod_of_nonneg (by omega)]
    show ((gone.length % 512 : Nat) + 1 : Int) % 512 = ((gone.length + 1) % 512 : Nat)
    omega
  have hpush := h.holds.push line
  have hhead : (gone.length % scrollbackLines + 1) % scrollbackLines =
      (gone ++ [line]).length % scrollbackLines := by simp
  have hcount : (if min scrollbackLines gone.length < scrollbackLines then
        min scrollbackLines gone.length + 1 else min scrollbackLines gone.length) =
      min scrollbackLines (gone ++ [line]).length := hpush.count_eq
  rw [hhead, hcount] at hpush
  simp only [Console.pushScrollback, hslot, Option.bind_eq_bind, Option.bind_some, hnext]
  have hold := h.count
  split
  next hroom =>
    refine ⟨_, rfl, ⟨rfl, ?_, hpush⟩, ⟨rfl, rfl, rfl, rfl, rfl⟩⟩
    show v.scrollbackCount + 1 = _
    rw [List.length_append, List.length_singleton]
    omega
  next hfull =>
    refine ⟨_, rfl, ⟨rfl, ?_, hpush⟩, ⟨rfl, rfl, rfl, rfl, rfl⟩⟩
    show v.scrollbackCount = _
    rw [List.length_append, List.length_singleton]
    omega

theorem take_rows_succ (screen : Screen) {n : Nat} (h : n < vgaHeight) :
    (List.ofFn screen).take (n + 1) = (List.ofFn screen).take n ++ [screen ⟨n, h⟩] := by
  rw [List.take_add_one, List.getElem?_ofFn, dif_pos h]
  rfl

/-- Pushing the first rows of the screen, one after the other. -/
theorem archiveLoop_spec {v : Console} {gone : List Line} (h : Rings v gone) :
    ∀ n ≤ vgaHeight, ∃ v', v.archiveLoop n = some v' ∧
      Rings v' (gone ++ (List.ofFn v.screen).take n) ∧ SameBut v v' := by
  intro n
  induction n with
  | zero => exact fun _ => ⟨v, rfl, by simpa using h, .refl v⟩
  | succ n ih =>
    intro hn
    obtain ⟨v', hv', hring, hsame⟩ := ih (by omega)
    obtain ⟨v'', hv'', hring', hsame'⟩ := pushScrollback_spec hring (v.screen ⟨n, hn⟩)
    refine ⟨v'', ?_, ?_, hsame.trans hsame'⟩
    · simp only [Console.archiveLoop, hv', Option.bind_eq_bind, Option.bind_some,
        index_ofNat hn, hsame.screen, hv'']
    · rw [take_rows_succ v.screen hn, ← List.append_assoc]
      exact hring'

/-- `last` is the last row that would not be dropped. -/
theorem rdropWhile_take (screen : Screen) : ∀ (n : Nat) (h : n ≤ vgaHeight),
    -1 ≤ lastUsed screen n h ∧ lastUsed screen n h < n ∧
      ((List.ofFn screen).take n).rdropWhile (fun line => !lineUsed line) =
        (List.ofFn screen).take (lastUsed screen n h + 1).toNat := by
  intro n
  induction n with
  | zero => exact fun _ => ⟨Int.le_refl _, by simp [lastUsed], by simp [lastUsed]⟩
  | succ n ih =>
    intro h
    obtain ⟨hge, hlt, htake⟩ := ih (by omega)
    have hsucc : lastUsed screen (n + 1) h =
        if lineUsed (screen ⟨n, h⟩) then (n : Int) else lastUsed screen n (by omega) := by
      simp only [lastUsed, Nat.fold_succ]
    rw [hsucc]
    split
    next hused =>
      refine ⟨by omega, by omega, ?_⟩
      rw [take_rows_succ screen h, List.rdropWhile_concat_neg _ _ _ (by simpa using hused),
        ← take_rows_succ screen h]
      rfl
    next hused =>
      refine ⟨hge, by omega, ?_⟩
      rw [take_rows_succ screen h, List.rdropWhile_concat_pos _ _ _ (by simpa using hused), htake]

theorem archiveScreen_spec {v : Console} {gone : List Line} (h : Rings v gone) :
    ∃ v', v.archiveScreen = some v' ∧ SameBut v v' ∧
      Rings v' (gone ++ (List.ofFn v.screen).rdropWhile fun line => !lineUsed line) := by
  obtain ⟨hge, hlt, htake⟩ := rdropWhile_take v.screen vgaHeight (Nat.le_refl _)
  obtain ⟨v', hv', hring, hsame⟩ := archiveLoop_spec h _ (show
    (lastUsed v.screen vgaHeight (Nat.le_refl _) + 1).toNat ≤ vgaHeight by omega)
  rw [List.take_of_length_le (by simp)] at htake
  refine ⟨v', hv', hsame, ?_⟩
  rw [htake]
  exact hring

/-! ## Painting -/

/-- The console is where the terminal is, whatever the display shows. -/
structure Follows (v : Console) (t : Terminal) : Prop where
  ring : Rings v t.gone
  screen : v.screen = t.screen
  attr : v.attr = t.attr
  row : v.cursorRow = (t.row : Nat)
  col : v.cursorCol = (t.col : Nat)
  back : v.viewOffset = t.back

/-- The display shows the lines from `start` on. -/
def Displays (v : Console) (lines : List Line) (start : Nat) : Prop :=
  ∀ row < vgaHeight, ∃ line, lines[start + row]? = some line ∧
    ∀ col : Fin vgaWidth, v.vram (row * vgaWidth + col) = line col

/-- The display shows what the view is over. -/
structure Shows (v : Console) (t : Terminal) : Prop extends Follows v t where
  display : Displays v t.lines (t.gone.length - t.back)

theorem Follows.back_le {v : Console} {t : Terminal} (h : Follows v t) :
    v.viewOffset ≤ v.scrollbackCount := by
  have := t.back_le
  rw [h.back, h.ring.count]
  omega

/-- Line `i` of the scrollback, in terms of all the lines that left. -/
theorem Rings.scrollbackLine {v : Console} {gone : List Line} (h : Rings v gone) {i : Nat}
    (hi : i < min scrollbackLines gone.length) :
    v.scrollbackLine i = gone[gone.length - min scrollbackLines gone.length + i]? := by
  rw [h.holds.kept _ (by omega) (by omega)]
  have hslot : (v.scrollbackHead - v.scrollbackCount + i + scrollbackLines).tmod scrollbackLines =
      ((gone.length - min scrollbackLines gone.length + i) % scrollbackLines : Nat) := by
    have hlt : gone.length % scrollbackLines < scrollbackLines := h.holds.head_lt
    rw [Int.tmod_eq_emod_of_nonneg (by rw [h.head, h.count]; omega), h.head, h.count]
    show _ % (512 : Int) = ((_ - min 512 _ + i) % 512 : Nat)
    show ((gone.length % 512 : Nat) - (min 512 gone.length : Nat) + i + (512 : Int)) % (512 : Int) = _
    omega
  simp only [Console.scrollbackLine, hslot]
  rw [index_ofNat (Nat.mod_lt _ (by decide))]
  rfl

theorem Follows.source {v : Console} {t : Terminal} (h : Follows v t) {row : Nat}
    (hrow : row < vgaHeight) :
    ∃ line, v.source row = some line ∧ t.lines[t.gone.length - t.back + row]? = some line := by
  have hback := t.back_le
  have hcount := h.ring.count
  by_cases hpast : row < t.back
  · have hi : v.scrollbackCount - v.viewOffset + row =
        ((min scrollbackLines t.gone.length - t.back + row : Nat) : Int) := by
      rw [hcount, h.back]
      omega
    simp only [Console.source, hi]
    rw [if_pos (by omega), h.ring.scrollbackLine (by omega), Terminal.lines,
      List.getElem?_append_left (by omega),
      show t.gone.length - min scrollbackLines t.gone.length +
        (min scrollbackLines t.gone.length - t.back + row) = t.gone.length - t.back + row by omega]
    exact ⟨_, List.getElem?_eq_getElem (by omega), List.getElem?_eq_getElem (by omega)⟩
  · have hi : v.scrollbackCount - v.viewOffset + row - v.scrollbackCount = (row - t.back : Nat) := by
      rw [h.back]
      omega
    have hlt : row - t.back < vgaHeight := by omega
    refine ⟨t.screen ⟨row - t.back, hlt⟩, ?_, ?_⟩
    · simp only [Console.source, hi]
      rw [if_neg (by omega), index_ofNat hlt, h.screen]
      rfl
    · rw [Terminal.lines, List.getElem?_append_right (by omega), List.getElem?_ofFn,
        show t.gone.length - t.back + row - t.gone.length = row - t.back by omega, dif_pos hlt]

/-- Painting a row changes its cells only. -/
theorem paintRow_spec (v : Console) (row : Nat) (source : Line) :
    ∃ vram, v.paintRow row source = { v with vram := vram } ∧
      (∀ col : Fin vgaWidth, vram (row * vgaWidth + col) = source col) ∧
      ∀ i, (i < row * vgaWidth ∨ (row + 1) * vgaWidth ≤ i) → vram i = v.vram i := by
  have hloop : ∀ n (hn : n ≤ vgaWidth), ∃ vram,
      Nat.fold n (fun col h v => { v with
        vram := Function.update v.vram (row * vgaWidth + col) (source ⟨col, by omega⟩) }) v =
          { v with vram := vram } ∧
      (∀ col : Fin vgaWidth, col < n → vram (row * vgaWidth + col) = source col) ∧
      ∀ i, (i < row * vgaWidth ∨ row * vgaWidth + n ≤ i) → vram i = v.vram i := by
    intro n
    induction n with
    | zero => exact fun _ => ⟨v.vram, rfl, by simp, by simp⟩
    | succ n ih =>
      intro hn
      obtain ⟨vram, heq, hcells, hother⟩ := ih (by omega)
      refine ⟨Function.update vram (row * vgaWidth + n) (source ⟨n, by omega⟩), ?_, ?_, ?_⟩
      · rw [Nat.fold_succ, heq]
      · intro col hcol
        by_cases hlast : col = n
        · subst hlast
          simp
        · rw [Function.update_of_ne (by omega)]
          exact hcells col (by omega)
      · intro i hi
        rw [Function.update_of_ne (by omega)]
        exact hother i (by omega)
  obtain ⟨vram, heq, hcells, hother⟩ := hloop vgaWidth (Nat.le_refl _)
  exact ⟨vram, heq, fun col => hcells col col.2, fun i hi => hother i (by rwa [Nat.succ_mul] at hi)⟩

theorem repaintLoop_spec {v : Console} {t : Terminal} (h : Follows v t) :
    ∀ n ≤ vgaHeight, ∃ vram, v.repaintLoop n = some { v with vram := vram } ∧
      ∀ row < n, ∃ line, t.lines[t.gone.length - t.back + row]? = some line ∧
        ∀ col : Fin vgaWidth, vram (row * vgaWidth + col) = line col := by
  intro n
  induction n with
  | zero => exact fun _ => ⟨v.vram, rfl, by simp⟩
  | succ n ih =>
    intro hn
    obtain ⟨vram, heq, hrows⟩ := ih (by omega)
    obtain ⟨line, hsource, hline⟩ := h.source hn
    obtain ⟨vram', hpaint, hcells, hother⟩ := paintRow_spec { v with vram := vram } n line
    have hsource' : ({ v with vram := vram } : Console).source n = some line := hsource
    refine ⟨vram', ?_, ?_⟩
    · simp only [Console.repaintLoop, heq, Option.bind_eq_bind, Option.bind_some, hsource', hpaint]
      rfl
    · intro row hrow
      by_cases hlast : row = n
      · subst hlast
        exact ⟨line, hline, hcells⟩
      · obtain ⟨line', hline', hcells'⟩ := hrows row (by omega)
        refine ⟨line', hline', fun col => ?_⟩
        rw [hother _ (.inl ?_)]
        · exact hcells' col
        · have hle := Nat.mul_le_mul_right vgaWidth (show row + 1 ≤ n by omega)
          have hcol := col.2
          rw [Nat.succ_mul] at hle
          omega

/-- **Repainting shows what the view is over.** -/
theorem repaint_spec {v : Console} {t : Terminal} (h : Follows v t) :
    ∃ v', v.repaint = some v' ∧ Shows v' t := by
  obtain ⟨vram, heq, hrows⟩ := repaintLoop_spec h vgaHeight (Nat.le_refl _)
  refine ⟨_, by simp only [Console.repaint, heq, Option.bind_eq_bind, Option.bind_some]; rfl, ?_⟩
  exact ⟨⟨⟨h.ring.head, h.ring.count, h.ring.holds⟩, h.screen, h.attr, h.row, h.col, h.back⟩, hrows⟩

/-! ## Output -/

theorem Shows.moveHardwareCursor {v : Console} {t : Terminal} (h : Shows v t) :
    Shows v.moveHardwareCursor t :=
  ⟨⟨⟨h.ring.head, h.ring.count, h.ring.holds⟩, h.screen, h.attr, h.row, h.col, h.back⟩, h.display⟩

theorem shiftLoop_spec (v : Console) : ∀ (n : Nat) (h : n < vgaHeight),
    v.shiftLoop n h = { v with
      screen := fun r => if hr : r.val < n then v.screen ⟨r.val + 1, by omega⟩ else v.screen r } := by
  intro n
  induction n with
  | zero =>
    intro h
    simp [Console.shiftLoop]
  | succ n ih =>
    intro h
    have hstep : v.shiftLoop (n + 1) h = { v.shiftLoop n (by omega) with
        screen := Function.update (v.shiftLoop n (by omega)).screen ⟨n, by omega⟩
          ((v.shiftLoop n (by omega)).screen ⟨n + 1, h⟩) } := by
      simp only [Console.shiftLoop, Nat.fold_succ]
    rw [hstep, ih]
    dsimp only
    congr 1
    funext r
    by_cases hr : r.val = n
    · obtain rfl : r = ⟨n, Nat.lt_of_succ_lt h⟩ := Fin.ext hr
      simp
    · rw [Function.update_of_ne (fun heq => hr (congrArg Fin.val heq))]
      have : r.val < n + 1 ↔ r.val < n := by omega
      simp [this]

/-- Scrolling, with the cursor below the screen. -/
theorem scrollUpOne_spec {v : Console} {t : Terminal} {col : Fin vgaWidth}
    (h : Rings v t.gone) (hscreen : v.screen = t.screen) (hattr : v.attr = t.attr)
    (hcol : v.cursorCol = (col : Nat)) (hback : v.viewOffset = t.back) :
    ∃ v', v.scrollUpOne = some v' ∧
      Follows v' { t.scroll with row := Terminal.lastRow, col := col } := by
  obtain ⟨v', hv', hring, hsame⟩ := pushScrollback_spec h (v.screen ⟨0, by decide⟩)
  have hfirst : v.screen ⟨0, by decide⟩ = t.screen Terminal.firstRow := by
    rw [hscreen]
    rfl
  rw [hfirst] at hring
  refine ⟨_, by simp only [Console.scrollUpOne, hv', Option.bind_eq_bind, Option.bind_some,
    shiftLoop_spec]; rfl, ?_⟩
  refine ⟨⟨hring.head, hring.count, hring.holds⟩, ?_, ?_, rfl, ?_, ?_⟩
  · funext r
    dsimp only
    rw [hsame.attr, hattr]
    by_cases hlast : r.val = vgaHeight - 1
    · obtain rfl : r = Terminal.lastRow := Fin.ext hlast
      rfl
    · rw [Function.update_of_ne (fun heq => hlast (congrArg Fin.val heq))]
      have hr : r.val < vgaHeight - 1 := by omega
      have hr' : r.val + 1 < vgaHeight := by omega
      simp [Terminal.scroll, hr, hr', hsame.screen, hscreen]
  · exact hsame.attr.trans hattr
  · exact hsame.col.trans hcol
  · exact hsame.back.trans hback

/-- **Wrapping and scrolling put the cursor where the terminal has it.** Everything but the
cursor is as before the character, and the live screen is on display. -/
theorem settle_spec {v : Console} {t : Terminal} {row col : Nat} (h : Rings v t.gone)
    (hscreen : v.screen = t.screen) (hattr : v.attr = t.attr) (hrow : v.cursorRow = row)
    (hcol : v.cursorCol = col) (hback : v.viewOffset = t.back)
    (hdisplay : Displays v t.lines (t.gone.length - t.back)) :
    ∃ v', v.settle = some v' ∧ Shows v' (t.place row col) := by
  -- the wrap
  obtain ⟨w, row', col', hw, hplace, hrow', hcol', hring, hscreen', hattr', hback', hdisplay'⟩ :
      ∃ (w : Console) (row' : Nat) (col' : Fin vgaWidth),
        (if v.cursorCol ≥ vgaWidth then
          { v with cursorCol := 0, cursorRow := v.cursorRow + 1 } else v) = w ∧
        t.place row col =
          (if h : row' < vgaHeight then { t with row := ⟨row', h⟩, col := col' }
          else { t.scroll with row := Terminal.lastRow, col := col' }) ∧
        w.cursorRow = row' ∧ w.cursorCol = (col' : Nat) ∧ Rings w t.gone ∧
        w.screen = t.screen ∧ w.attr = t.attr ∧ w.viewOffset = t.back ∧
        Displays w t.lines (t.gone.length - t.back) := by
    by_cases hwrap : col < vgaWidth
    · refine ⟨v, row, ⟨col, hwrap⟩, by rw [if_neg (by omega)], ?_, hrow, hcol, h, hscreen, hattr,
        hback, hdisplay⟩
      simp [Terminal.place, hwrap]
    · refine ⟨{ v with cursorCol := 0, cursorRow := v.cursorRow + 1 }, row + 1, Terminal.firstCol,
        by rw [if_pos (by omega)], ?_, by rw [hrow]; rfl, rfl, ⟨h.head, h.count, h.holds⟩, hscreen, hattr, hback, hdisplay⟩
      simp [Terminal.place, hwrap]
  simp only [Console.settle, hw]
  rw [hplace]
  by_cases hbelow : row' < vgaHeight
  · rw [if_neg (by omega), dif_pos hbelow]
    exact ⟨_, rfl, Shows.moveHardwareCursor
      ⟨⟨hring, hscreen', hattr', hrow', hcol', hback'⟩, hdisplay'⟩⟩
  · rw [if_pos (by omega), dif_neg hbelow]
    obtain ⟨v', hv', hfollows⟩ := scrollUpOne_spec hring hscreen' hattr' hcol' hback'
    obtain ⟨v'', hv'', hshows⟩ := repaint_spec hfollows
    exact ⟨v'', by simp only [hv', Option.bind_eq_bind, Option.bind_some, hv''], hshows⟩

/-- Writing the cell at the cursor of a live screen. -/
theorem setCell_spec {v : Console} {t : Terminal} (h : Shows v t) (hlive : t.back = 0)
    (value : UInt16) : ∃ v', v.setCell value = some v' ∧ Shows v' (t.put value) := by
  refine ⟨_, by simp only [Console.setCell, h.row, h.col, index_ofNat t.row.2, index_ofNat t.col.2,
    Option.bind_eq_bind, Option.bind_some]; rfl, ?_⟩
  refine ⟨⟨⟨h.ring.head, h.ring.count, h.ring.holds⟩, ?_, h.attr, rfl, rfl, h.back⟩, ?_⟩
  · dsimp only
    rw [h.screen]
    rfl
  · intro row hrow
    have hput : (t.put value).lines[(t.put value).gone.length - (t.put value).back + row]? =
        some ((t.put value).screen ⟨row, hrow⟩) := by
      show (t.gone ++ _)[t.gone.length - t.back + row]? = _
      rw [List.getElem?_append_right (by omega), List.getElem?_ofFn,
        show t.gone.length - t.back + row - t.gone.length = row by omega, dif_pos hrow]
    refine ⟨_, hput, fun col => ?_⟩
    obtain ⟨line, hline, hcells⟩ := h.display row hrow
    have hold : line = t.screen ⟨row, hrow⟩ := by
      rw [Terminal.lines, List.getElem?_append_right (by omega), List.getElem?_ofFn,
        show t.gone.length - t.back + row - t.gone.length = row by omega, dif_pos hrow] at hline
      exact (Option.some.inj hline).symm
    subst hold
    show Function.update v.vram (t.row * vgaWidth + t.col) value _ =
      Function.update t.screen t.row (Function.update (t.screen t.row) t.col value) ⟨row, hrow⟩ col
    have hcol := col.2
    have htcol := t.col.2
    by_cases hsame : row = t.row
    · have hr : (⟨row, hrow⟩ : Fin vgaHeight) = t.row := Fin.ext hsame
      have hcell := hcells col
      rw [hr, hsame] at hcell
      rw [hr, Function.update_self, hsame]
      by_cases hc : col = t.col
      · rw [hc, Function.update_self, Function.update_self]
      · rw [Function.update_of_ne hc, Function.update_of_ne (fun heq => hc (Fin.ext (by omega))),
          hcell]
    · rw [Function.update_of_ne (fun heq => hsame (congrArg Fin.val heq)),
        Function.update_of_ne, hcells col]
      show row * 80 + (col : Nat) ≠ t.row * 80 + (t.col : Nat)
      have : vgaWidth = 80 := rfl
      omega

/-! ## One operation -/

theorem Shows.toBottom {v : Console} {t : Terminal} (h : Shows v t) :
    ∃ v', (if v.viewOffset ≠ 0 then { v with viewOffset := 0 }.repaint else some v) = some v' ∧
      Shows v' t.toBottom := by
  by_cases hlive : t.back = 0
  · have ht : t.toBottom = t := by
      cases t
      simp only at hlive
      subst hlive
      rfl
    rw [if_neg (by rw [h.back, hlive]; decide), ht]
    exact ⟨v, rfl, h⟩
  · rw [if_pos (by rw [h.back]; omega)]
    exact repaint_spec
      ⟨⟨h.ring.head, h.ring.count, h.ring.holds⟩, h.screen, h.attr, h.row, h.col, rfl⟩

/-- Backspace, before the cell is blanked. -/
theorem Shows.stepBack {v : Console} {t : Terminal} (h : Shows v t) :
    Shows
      (if v.cursorCol > 0 then { v with cursorCol := v.cursorCol - 1 }
        else if v.cursorRow > 0 then
          { v with cursorRow := v.cursorRow - 1, cursorCol := (vgaWidth : Int) - 1 }
        else v) t.stepBack := by
  have hcol := h.col
  have hrow := h.row
  unfold Terminal.stepBack
  by_cases hc : 0 < t.col.val
  · rw [if_pos (by omega), if_pos hc]
    refine ⟨⟨⟨h.ring.head, h.ring.count, h.ring.holds⟩, h.screen, h.attr, hrow, ?_, h.back⟩,
      h.display⟩
    show v.cursorCol - 1 = (t.col.val - 1 : Nat)
    omega
  · rw [if_neg (by omega), if_neg hc]
    by_cases hr : 0 < t.row.val
    · rw [if_pos (by omega), if_pos hr]
      refine ⟨⟨⟨h.ring.head, h.ring.count, h.ring.holds⟩, h.screen, h.attr, ?_, rfl, h.back⟩,
        h.display⟩
      show v.cursorRow - 1 = (t.row.val - 1 : Nat)
      omega
    · rw [if_neg (by omega), if_neg hr]
      exact h

theorem Terminal.place_self (t : Terminal) : t.place t.row t.col = t := by
  simp [Terminal.place]

theorem Terminal.stepBack_back (t : Terminal) : t.stepBack.back = t.back := by
  unfold Terminal.stepBack
  split
  · rfl
  · split <;> rfl

theorem Terminal.stepBack_attr (t : Terminal) : t.stepBack.attr = t.attr := by
  unfold Terminal.stepBack
  split
  · rfl
  · split <;> rfl

/-- **A character.** The cases are the ones of the `switch`. -/
theorem Shows.putc {v : Console} {t : Terminal} (h : Shows v t) (c : UInt8) :
    ∃ v', v.vgaPutc c = some v' ∧ Shows v' (t.putc c) := by
  obtain ⟨w, hw, hlive⟩ := h.toBottom
  simp only [Console.vgaPutc, Console.emit, hw, Option.bind_eq_bind, Option.bind_some, Terminal.putc]
  have hrow := hlive.row
  have hcol := hlive.col
  split
  next hnewline =>
    refine settle_spec ⟨hlive.ring.head, hlive.ring.count, hlive.ring.holds⟩ hlive.screen hlive.attr
      ?_ rfl hlive.back hlive.display
    show w.cursorRow + 1 = _
    rw [hrow]
    rfl
  next =>
    split
    next hreturn =>
      exact settle_spec ⟨hlive.ring.head, hlive.ring.count, hlive.ring.holds⟩ hlive.screen
        hlive.attr hrow rfl hlive.back hlive.display
    next =>
      split
      next htab =>
        refine settle_spec ⟨hlive.ring.head, hlive.ring.count, hlive.ring.holds⟩ hlive.screen
          hlive.attr hrow ?_ hlive.back hlive.display
        show (w.cursorCol + 4) / 4 * 4 = _
        rw [hcol]
        omega
      next =>
        split
        next hbackspace =>
          have hstep := hlive.stepBack
          have hattr := hstep.attr
          rw [Terminal.stepBack_attr] at hattr
          obtain ⟨u, hu, hshows⟩ := setCell_spec hstep t.toBottom.stepBack_back (cell space t.attr)
          simp only [hattr]
          have hsettle := settle_spec hshows.ring hshows.screen hshows.attr hshows.row hshows.col
            hshows.back hshows.display
          rw [Terminal.place_self] at hsettle
          show ∃ v', (Console.setCell _ (cell space t.attr)).bind _ = _ ∧ _
          rw [hu]
          exact hsettle
        next =>
          obtain ⟨u, hu, hshows⟩ := setCell_spec hlive rfl (cell c t.attr)
          have hattr : w.attr = t.attr := hlive.attr
          rw [hattr, hu]
          refine settle_spec ⟨hshows.ring.head, hshows.ring.count, hshows.ring.holds⟩ hshows.screen
            hshows.attr hshows.row ?_ hshows.back hshows.display
          show u.cursorCol + 1 = _
          rw [hshows.col]
          rfl

/-- Clearing takes what is on the screen, and nothing that video memory holds. -/
theorem clear_spec {v : Console} {t : Terminal} (h : Rings v t.gone) (hscreen : v.screen = t.screen)
    (hattr : v.attr = t.attr) : ∃ v', v.vgaClear = some v' ∧ Shows v' t.clear := by
  obtain ⟨w, hw, hsame, hring⟩ := archiveScreen_spec h
  obtain ⟨v', hv', hshows⟩ : ∃ v', Console.repaint
      { w with screen := fun _ => blankLine w.attr, cursorRow := 0, cursorCol := 0,
               viewOffset := 0 } = some v' ∧ Shows v' t.clear := by
    apply repaint_spec
    rw [hscreen] at hring
    refine ⟨⟨hring.head, hring.count, hring.holds⟩, ?_, ?_, rfl, rfl, rfl⟩
    · show (fun _ => blankLine w.attr) = fun _ => blankLine t.attr
      rw [hsame.attr, hattr]
    · exact hsame.attr.trans hattr
  exact ⟨v', by simp only [Console.vgaClear, hw, Option.bind_eq_bind, Option.bind_some]; exact hv',
    hshows⟩

theorem Shows.clear {v : Console} {t : Terminal} (h : Shows v t) :
    ∃ v', v.vgaClear = some v' ∧ Shows v' t.clear := clear_spec h.ring h.screen h.attr

theorem Shows.setColor {v : Console} {t : Terminal} (h : Shows v t) (fg bg : UInt8) :
    Shows (v.vgaSetColor fg bg) (t.setColor fg bg) :=
  ⟨⟨⟨h.ring.head, h.ring.count, h.ring.holds⟩, h.screen, rfl, h.row, h.col, h.back⟩, h.display⟩

theorem Shows.setCursor {v : Console} {t : Terminal} (h : Shows v t) (row col : Int) :
    Shows (v.vgaSetCursor row col) (t.setCursor row col) := by
  apply Shows.moveHardwareCursor
  refine ⟨⟨⟨h.ring.head, h.ring.count, h.ring.holds⟩, h.screen, h.attr, ?_, ?_, h.back⟩, h.display⟩
  · show (if (if row < 0 then 0 else row) ≥ (vgaHeight : Int) then (vgaHeight : Int) - 1
      else if row < 0 then 0 else row) = (min row.toNat (vgaHeight - 1) : Nat)
    have : vgaHeight = 25 := rfl
    split <;> split <;> omega
  · show (if (if col < 0 then 0 else col) ≥ (vgaWidth : Int) then (vgaWidth : Int) - 1
      else if col < 0 then 0 else col) = (min col.toNat (vgaWidth - 1) : Nat)
    have : vgaWidth = 80 := rfl
    split <;> split <;> omega

theorem Shows.scrollView {v : Console} {t t' : Terminal} (h : Shows v t) {lines : Int}
    (ht : t.scrollView lines = some t') : ∃ v', v.vgaScrollView lines = some v' ∧ Shows v' t' := by
  unfold Terminal.scrollView at ht
  split at ht
  next hint =>
    cases ht
    have hcount := h.ring.count
    have htarget : (if (if v.viewOffset + lines < 0 then 0 else v.viewOffset + lines) >
          v.scrollbackCount then v.scrollbackCount
        else if v.viewOffset + lines < 0 then 0 else v.viewOffset + lines) =
        (min (t.back + lines).toNat t.kept : Nat) := by
      rw [h.back, hcount, Terminal.kept]
      split <;> split <;> omega
    rw [← h.back] at hint
    simp only [Console.vgaScrollView, if_pos hint, htarget]
    split
    next hsame =>
      refine ⟨v, rfl, ?_⟩
      have hback : min (t.back + lines).toNat t.kept = t.back := by
        have := h.back
        omega
      simp only [hback]
      exact h
    next =>
      exact repaint_spec
        ⟨⟨h.ring.head, hcount, h.ring.holds⟩, h.screen, h.attr, h.row, h.col, rfl⟩
  next => cases ht

theorem Shows.scrollToBottom {v : Console} {t : Terminal} (h : Shows v t) :
    ∃ v', v.vgaScrollToBottom = some v' ∧ Shows v' t.toBottom := by
  obtain ⟨v', hv', hshows⟩ := h.toBottom
  rw [ite_not] at hv'
  exact ⟨v', hv', hshows⟩

theorem Shows.step {v : Console} {t t' : Terminal} (h : Shows v t) {op : Op}
    (ht : t.step op = some t') : ∃ v', v.step op = some v' ∧ Shows v' t' := by
  cases op with
  | putc c => cases ht; exact h.putc c
  | clear => cases ht; exact h.clear
  | setColor fg bg => cases ht; exact ⟨_, rfl, h.setColor fg bg⟩
  | setCursor row col => cases ht; exact ⟨_, rfl, h.setCursor row col⟩
  | scrollView lines => exact h.scrollView ht
  | scrollToBottom => cases ht; exact h.scrollToBottom

/-! ## Runs -/

theorem vgaInit_spec (v : Console) : ∃ v', v.vgaInit = some v' ∧ Shows v' (.init v.screen) := by
  obtain ⟨w, hw, hshows⟩ : ∃ w, Console.vgaClear
      { v.vgaSetColor vgaLightGrey vgaBlack with
        scrollbackHead := 0, scrollbackCount := 0, viewOffset := 0 } = some w ∧
      Shows w (.init v.screen) :=
    clear_spec ⟨rfl, rfl, .nil _⟩ rfl rfl
  refine ⟨(w.setCrtc 0x0A 14).setCrtc 0x0B 15, ?_, ?_⟩
  · simp only [Console.vgaInit, hw, Option.bind_eq_bind, Option.bind_some]
    rfl
  · exact ⟨⟨⟨hshows.ring.head, hshows.ring.count, hshows.ring.holds⟩, hshows.screen, hshows.attr,
      hshows.row, hshows.col, hshows.back⟩, hshows.display⟩

theorem Shows.run {ops : List Op} : ∀ {v : Console} {t t' : Terminal}, Shows v t →
    t.run ops = some t' → ∃ v', v.run ops = some v' ∧ Shows v' t' := by
  induction ops with
  | nil =>
    intro v t t' h ht
    cases ht
    exact ⟨v, rfl, h⟩
  | cons op ops ih =>
    intro v t t' h ht
    obtain ⟨u, hu, hrest⟩ := Option.bind_eq_some_iff.mp ht
    obtain ⟨w, hw, hshows⟩ := h.step hu
    obtain ⟨v', hv', hshows'⟩ := ih hshows hrest
    exact ⟨v', by simp only [Console.run, hw, Option.bind_eq_bind, Option.bind_some, hv'], hshows'⟩

/-- **The console refines the terminal.** After any operations the cursor and the view are in
range, the ring is the last 512 of the lines that left the screen, and the display shows the
ring followed by the screen, from `viewOffset` lines above the screen on. -/
theorem console_refines {v : Console} {ops : List Op} {t : Terminal}
    (h : (Terminal.init v.screen).run ops = some t) :
    ∃ v', (v.vgaInit.bind fun v => v.run ops) = some v' ∧
      (0 ≤ v'.cursorRow ∧ v'.cursorRow < 25) ∧ (0 ≤ v'.cursorCol ∧ v'.cursorCol < 80) ∧
      (0 ≤ v'.viewOffset ∧ v'.viewOffset ≤ v'.scrollbackCount ∧ v'.scrollbackCount ≤ 512) ∧
      (v'.screen = t.screen ∧ v'.cursorRow = (t.row : Nat) ∧ v'.cursorCol = (t.col : Nat) ∧
        v'.attr = t.attr ∧ v'.viewOffset = t.back) ∧
      v'.scrollbackCount = min 512 t.gone.length ∧
      ((List.range v'.scrollbackCount.toNat).map fun i : Nat => v'.scrollbackLine i) =
        (t.gone.drop (t.gone.length - 512)).map some ∧
      Displays v' (t.gone.drop (t.gone.length - 512) ++ List.ofFn v'.screen)
        (v'.scrollbackCount - v'.viewOffset).toNat := by
  obtain ⟨w, hw, hinit⟩ := vgaInit_spec v
  obtain ⟨v', hv', hshows⟩ := hinit.run h
  have hcount := hshows.ring.count
  have hback := hshows.back
  have hle := hshows.back_le
  have h512 : scrollbackLines = 512 := rfl
  have hrow := t.row.2
  have hcol := t.col.2
  have h25 : vgaHeight = 25 := rfl
  have h80 : vgaWidth = 80 := rfl
  refine ⟨v', by rw [hw]; exact hv', ?_, ?_, ?_,
    ⟨hshows.screen, hshows.row, hshows.col, hshows.attr, hback⟩, ?_, ?_, ?_⟩
  · rw [hshows.row]
    omega
  · rw [hshows.col]
    omega
  · omega
  · omega
  · apply List.ext_getElem?
    intro i
    rw [List.getElem?_map, List.getElem?_map, List.getElem?_drop]
    by_cases hi : i < v'.scrollbackCount.toNat
    · rw [List.getElem?_range hi, Option.map_some, hshows.ring.scrollbackLine (by omega),
        show t.gone.length - min scrollbackLines t.gone.length = t.gone.length - 512 by omega,
        List.getElem?_eq_getElem (by omega)]
      rfl
    · rw [List.getElem?_eq_none (by simpa using hi), List.getElem?_eq_none (by omega)]
      rfl
  · intro row hrow
    obtain ⟨line, hline, hcells⟩ := hshows.display row hrow
    refine ⟨line, ?_, hcells⟩
    have hgone := t.back_le
    rw [hshows.screen, ← hline, Terminal.lines, ← List.drop_append_of_le_length (by omega),
      List.getElem?_drop, show t.gone.length - 512 +
        ((v'.scrollbackCount - v'.viewOffset).toNat + row) = t.gone.length - t.back + row by omega]

/-- The variables of `vga.c` at power on. -/
def powerOn : Console :=
  { screen := fun _ _ => 0, scrollback := fun _ _ => 0, scrollbackHead := 0, scrollbackCount := 0,
    viewOffset := 0, cursorRow := 0, cursorCol := 0, attr := 0, vram := fun _ => 0,
    crtc := fun _ => 0 }

/-- A letter and a line feed on the last row, and a look back. -/
theorem console_refines_look_back :
    ∃ t v', (Terminal.init powerOn.screen).run
        [.setCursor 24 0, .putc 65, .putc 10, .scrollView 3] = some t ∧
      (powerOn.vgaInit.bind fun v =>
        v.run [.setCursor 24 0, .putc 65, .putc 10, .scrollView 3]) = some v' ∧
      t.gone.length = 1 ∧ v'.viewOffset = 1 ∧
      Displays v' (t.gone.drop (t.gone.length - 512) ++ List.ofFn v'.screen)
        (v'.scrollbackCount - v'.viewOffset).toNat := by
  have hrun : ((Terminal.init powerOn.screen).run
      [.setCursor 24 0, .putc 65, .putc 10, .scrollView 3]).map
        (fun t => (t.gone.length, t.back)) = some (1, 1) := by decide +kernel
  obtain ⟨t, ht, hgone⟩ := Option.map_eq_some_iff.mp hrun
  simp only [Prod.mk.injEq] at hgone
  obtain ⟨v', hv', -, -, -, hsame, -, -, hdisplay⟩ := console_refines ht
  refine ⟨t, v', ht, hv', hgone.1, ?_, hdisplay⟩
  rw [hsame.2.2.2.2, hgone.2]
  rfl

end LightningOS.Vga
