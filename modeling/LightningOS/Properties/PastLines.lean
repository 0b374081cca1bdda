import LightningOS.Lib.History
import LightningOS.Kernel.Console

/-!
# The lines that were entered before

The ring of `console.c` against the list of all lines that were stored. `entered` is that
list: it leaves out empty lines and repetitions of the line that was stored last, and cuts
what is too long for a buffer. The ring keeps the last sixteen, and the index of a line is
its place in the list, for as long as an `int` can count them.
-/

namespace LightningOS.Console

open CString Vga

/-! ## The list of stored lines -/

/-- What one call adds to the list. -/
def enter (stored : List (List UInt8)) : Option (List UInt8) → List (List UInt8)
  | none => stored
  | some line =>
    if text line = [] ∨ stored.getLast? = some (text line) then stored
    else stored ++ [(text line).take (lineMax - 1)]

def entered (lines : List (Option (List UInt8))) : List (List UInt8) := lines.foldl enter []

/-- The ring in memory that nobody has written to. -/
def History.zero : History where
  history := fun _ => List.replicate lineMax 0
  historyTotal := 0

def pushAll : List (Option (List UInt8)) → History → Option History
  | [], h => some h
  | line :: lines, h =>
    match consoleHistoryPush h line with
    | none => none
    | some h => pushAll lines h

/-- The ring keeps the last of the stored lines, and counts all of them. -/
structure Keeps (h : History) (stored : List (List UInt8)) : Prop where
  total : h.historyTotal = stored.length
  holds : LightningOS.History.Holds (fun i => text (h.history i)) (stored.length % historyMax)
    (min historyMax stored.length) stored

theorem keeps_zero : Keeps .zero [] := ⟨rfl, .nil _⟩

/-! ## One call -/

theorem slot_eq {i : Nat} : index historyMax ((i : Int).tmod historyMax) =
    some (Fin.ofNat historyMax i) := by
  have hpos : 0 < historyMax := by decide
  have hmod : ((i : Int).tmod historyMax) = ((i % historyMax : Nat) : Int) := rfl
  have hlt := Nat.mod_lt i hpos
  rw [hmod, index, dif_pos ⟨by omega, by omega⟩]
  exact congrArg some (Fin.ext (Int.toNat_natCast _))

/-- A line that is kept is found under its number. -/
theorem Keeps.slot {h : History} {stored : List (List UInt8)} (hk : Keeps h stored) {i : Nat}
    (hi : i < stored.length) (hkept : stored.length ≤ i + historyMax) :
    ∃ buffer, h.slot i = some buffer ∧ stored[i]? = some (text buffer) := by
  refine ⟨h.history (Fin.ofNat historyMax i), ?_, hk.holds.kept i hi hkept⟩
  rw [History.slot, slot_eq]
  rfl

theorem Keeps.isLast {h : History} {stored : List (List UInt8)} (hk : Keeps h stored)
    (line : List UInt8) :
    h.isLast line = some (decide (stored.getLast? = some (text line))) := by
  rw [History.isLast, hk.total]
  by_cases h0 : stored = []
  · rw [h0, if_neg (by simp)]
    rfl
  · have hpos : 0 < stored.length := List.length_pos_of_ne_nil h0
    have h16 : historyMax = 16 := rfl
    obtain ⟨buffer, hslot, hget⟩ := hk.slot (i := stored.length - 1) (by omega) (by omega)
    have hcast : (stored.length : Int) - 1 = ((stored.length - 1 : Nat) : Int) := by omega
    rw [if_pos (by omega), hcast, hslot, Option.map_some, List.getLast?_eq_getElem?, hget]
    simp only [Option.some.injEq]

theorem enter_skip {stored : List (List UInt8)} {line : List UInt8}
    (h : text line = [] ∨ stored.getLast? = some (text line)) :
    enter stored (some line) = stored := if_pos h

theorem enter_new {stored : List (List UInt8)} {line : List UInt8}
    (h : ¬(text line = [] ∨ stored.getLast? = some (text line))) :
    enter stored (some line) = stored ++ [(text line).take (lineMax - 1)] := if_neg h

theorem enter_length (stored : List (List UInt8)) (line : Option (List UInt8)) :
    stored.length ≤ (enter stored line).length := by
  cases line with
  | none => exact Nat.le_refl _
  | some line =>
    rw [enter]
    split
    · exact Nat.le_refl _
    · rw [List.length_append]
      exact Nat.le_add_right _ _

/-- What `console_history_push` does with a line. -/
theorem Keeps.push_eq {h : History} {stored : List (List UInt8)} (hk : Keeps h stored)
    (line : List UInt8) :
    consoleHistoryPush h (some line) =
      if text line = [] ∨ stored.getLast? = some (text line) then some h
      else if IsInt (h.historyTotal + 1) then
        some {
          history := Function.update h.history (Fin.ofNat historyMax stored.length)
            (strncpy line (lineMax - 1) ++ [0])
          historyTotal := h.historyTotal + 1 }
      else none := by
  have hslot : index historyMax (h.historyTotal.tmod historyMax) =
      some (Fin.ofNat historyMax stored.length) := by
    rw [hk.total]
    exact slot_eq
  rw [consoleHistoryPush, hk.isLast, hslot]
  by_cases hempty : text line = []
  · rw [if_pos hempty, if_pos (Or.inl hempty)]
  · rw [if_neg hempty]
    by_cases hlast : stored.getLast? = some (text line)
    · rw [if_pos (Or.inr hlast), decide_eq_true hlast]
      rfl
    · rw [if_neg fun h => h.elim hempty hlast, decide_eq_false hlast]
      rfl

/-- **One call stores what `enter` says**, as long as the lines can be counted. -/
theorem Keeps.push {h : History} {stored : List (List UInt8)} (hk : Keeps h stored)
    {line : Option (List UInt8)} (hlen : (enter stored line).length < 2 ^ 31) :
    ∃ h', consoleHistoryPush h line = some h' ∧ Keeps h' (enter stored line) := by
  cases line with
  | none => exact ⟨h, rfl, hk⟩
  | some line =>
    by_cases hskip : text line = [] ∨ stored.getLast? = some (text line)
    · refine ⟨h, by rw [hk.push_eq, if_pos hskip], ?_⟩
      rw [enter_skip hskip]
      exact hk
    · rw [enter_new hskip, List.length_append, List.length_singleton] at hlen
      have hint : IsInt (h.historyTotal + 1) := by
        rw [hk.total]
        exact ⟨by omega, by omega⟩
      refine ⟨_, by rw [hk.push_eq, if_neg hskip, if_pos hint], ?_⟩
      rw [enter_new hskip]
      constructor
      · rw [List.length_append, List.length_singleton, hk.total]
        rfl
      · have hpush := hk.holds.push ((text line).take (lineMax - 1))
        have hslot : Fin.ofNat historyMax (stored.length % historyMax) =
            Fin.ofNat historyMax stored.length := Fin.ext (Nat.mod_mod _ _)
        have hslots : (fun i => text (Function.update h.history (Fin.ofNat historyMax stored.length)
            (strncpy line (lineMax - 1) ++ [0]) i)) =
            Function.update (fun i => text (h.history i))
              (Fin.ofNat historyMax (stored.length % historyMax)) ((text line).take (lineMax - 1)) := by
          rw [hslot]
          funext i
          by_cases hi : i = Fin.ofNat historyMax stored.length
          · rw [hi, Function.update_self, Function.update_self]
            exact text_strncpy line (lineMax - 1) []
          · rw [Function.update_of_ne hi, Function.update_of_ne hi]
        rw [hslots]
        have hhead := hpush.head_eq
        have hcount := hpush.count_eq
        rw [hhead, hcount] at hpush
        exact hpush

/-- With `INT_MAX` lines counted there is no room for another one. -/
theorem Keeps.push_full {h : History} {stored : List (List UInt8)} (hk : Keeps h stored)
    (hfull : stored.length + 1 = 2 ^ 31) {line : List UInt8} (hempty : text line ≠ [])
    (hlast : stored.getLast? ≠ some (text line)) : consoleHistoryPush h (some line) = none := by
  have hint : ¬IsInt (h.historyTotal + 1) := by
    rw [hk.total]
    rintro ⟨-, hlt⟩
    omega
  rw [hk.push_eq, if_neg fun h => h.elim hempty hlast, if_neg hint]

/-! ## Runs of calls -/

theorem foldl_enter_length (lines : List (Option (List UInt8))) : ∀ stored : List (List UInt8),
    stored.length ≤ (lines.foldl enter stored).length := by
  induction lines with
  | nil => exact fun stored => Nat.le_refl _
  | cons line lines ih =>
    exact fun stored => Nat.le_trans (enter_length stored line) (ih (enter stored line))

theorem Keeps.pushAll {lines : List (Option (List UInt8))} : ∀ {h : History}
    {stored : List (List UInt8)}, Keeps h stored → (lines.foldl enter stored).length < 2 ^ 31 →
    ∃ h', Console.pushAll lines h = some h' ∧ Keeps h' (lines.foldl enter stored) := by
  induction lines with
  | nil => exact fun hk _ => ⟨_, rfl, hk⟩
  | cons line lines ih =>
    intro h stored hk hlen
    have hle := foldl_enter_length lines (enter stored line)
    obtain ⟨h', hpush, hk'⟩ := hk.push (Nat.lt_of_le_of_lt hle hlen)
    rw [Console.pushAll, hpush]
    exact ih hk' hlen

/-- The line at an index, and `NULL` for an index that is not kept. -/
theorem Keeps.at_eq {h : History} {stored : List (List UInt8)} (hk : Keeps h stored) (i : Int) :
    if max 0 ((stored.length : Int) - 16) ≤ i ∧ i < stored.length then
      ∃ buffer, consoleHistoryAt h i = some (some buffer) ∧ stored[i.toNat]? = some (text buffer)
    else consoleHistoryAt h i = some none := by
  have h16 : historyMax = 16 := rfl
  rw [consoleHistoryAt, hk.total]
  split
  · next hi =>
    obtain ⟨n, rfl⟩ := Int.eq_ofNat_of_zero_le (show 0 ≤ i by omega)
    obtain ⟨buffer, hslot, hget⟩ := hk.slot (i := n) (by omega) (by omega)
    refine ⟨buffer, ?_, by rw [Int.toNat_natCast]; exact hget⟩
    rw [if_neg (by omega), if_neg (by omega), hslot]
    rfl
  · next hi =>
    by_cases hout : i < 0 ∨ i ≥ stored.length
    · rw [if_pos hout]
    · rw [if_neg hout, if_pos (by omega)]

/--
**The history is the tail of the entered lines.** After any calls that store fewer than
2^31 lines the count is the number of stored lines, and the line at index `i` is number
`i` of them if it is one of the last sixteen, and `NULL` otherwise.
-/
theorem history_tail {lines : List (Option (List UInt8))}
    (hlen : (entered lines).length < 2 ^ 31) :
    ∃ h, pushAll lines .zero = some h ∧ consoleHistoryCount h = (entered lines).length ∧
      ∀ i : Int,
        if max 0 (((entered lines).length : Int) - 16) ≤ i ∧ i < (entered lines).length then
          ∃ buffer, consoleHistoryAt h i = some (some buffer) ∧
            (entered lines)[i.toNat]? = some (text buffer)
        else consoleHistoryAt h i = some none := by
  obtain ⟨h, hpush, hk⟩ := keeps_zero.pushAll hlen
  exact ⟨h, hpush, hk.total, hk.at_eq⟩

/-- Two lines, the second one twice, and an empty one. -/
theorem history_tail_two : ∃ h, pushAll [some [97], some [98], some [98], some []] .zero = some h ∧
    consoleHistoryCount h = 2 ∧
    ∀ i : Int,
      if max 0 ((2 : Int) - 16) ≤ i ∧ i < 2 then
        ∃ buffer, consoleHistoryAt h i = some (some buffer) ∧
          [[97], [98]][i.toNat]? = some (text buffer)
      else consoleHistoryAt h i = some none := by
  have hlen : (entered [some [97], some [98], some [98], some []]).length < 2 ^ 31 := by decide
  exact history_tail hlen

/-! ## The end of the counter -/

/-- Lines that differ from one to the next. -/
def turn (n : Nat) : List UInt8 := [if n % 2 = 0 then 97 else 98]

def turns : Nat → List (Option (List UInt8))
  | 0 => []
  | n + 1 => turns n ++ [some (turn n)]

theorem text_turn (n : Nat) : text (turn n) = turn n := by
  rw [turn]
  split <;> rfl

theorem turn_succ_ne (n : Nat) : turn n ≠ turn (n + 1) := by
  rw [turn, turn]
  by_cases h : n % 2 = 0
  · rw [if_pos h, if_neg (by omega)]
    decide
  · rw [if_neg h, if_pos (by omega)]
    decide

theorem turns_fresh (n : Nat) : text (turn n) ≠ [] ∧
    ((List.range n).map turn).getLast? ≠ some (text (turn n)) := by
  rw [text_turn]
  refine ⟨List.cons_ne_nil _ _, ?_⟩
  cases n with
  | zero => exact Option.some_ne_none _ |>.symm
  | succ n =>
    rw [List.range_succ, List.map_append, List.map_singleton, List.getLast?_concat]
    exact fun h => turn_succ_ne n (Option.some.inj h)

theorem entered_turns (n : Nat) : entered (turns n) = (List.range n).map turn := by
  induction n with
  | zero => rfl
  | succ n ih =>
    obtain ⟨hempty, hlast⟩ := turns_fresh n
    have hshort : (text (turn n)).take (lineMax - 1) = turn n := by
      rw [text_turn]
      rfl
    rw [entered, turns, List.foldl_append, List.foldl_cons, List.foldl_nil,
      ← entered, ih, enter_new fun h => h.elim hempty hlast, hshort, List.range_succ,
      List.map_append, List.map_singleton]

theorem pushAll_append {more : List (Option (List UInt8))} : ∀ {lines : List (Option (List UInt8))}
    {h h' : History}, pushAll lines h = some h' → pushAll (lines ++ more) h = pushAll more h' := by
  intro lines
  induction lines with
  | nil =>
    intro h h' hp
    rw [Option.some.inj hp]
    rfl
  | cons line lines ih =>
    intro h h' hp
    rw [pushAll] at hp
    rw [List.cons_append, pushAll]
    cases hc : consoleHistoryPush h line with
    | none => rw [hc] at hp; exact absurd hp.symm (Option.some_ne_none _)
    | some h1 => rw [hc] at hp; exact ih hp

/-- Line number 2^31 takes `history_total` past the end of an `int`. -/
theorem history_overflow : ¬∀ lines : List (Option (List UInt8)),
    ∃ h, pushAll lines .zero = some h ∧ consoleHistoryCount h = (entered lines).length ∧
      ∀ i : Int,
        if max 0 (((entered lines).length : Int) - 16) ≤ i ∧ i < (entered lines).length then
          ∃ buffer, consoleHistoryAt h i = some (some buffer) ∧
            (entered lines)[i.toNat]? = some (text buffer)
        else consoleHistoryAt h i = some none := by
  intro hall
  obtain ⟨n, hn⟩ : ∃ n, n + 1 = 2 ^ 31 := ⟨2147483647, rfl⟩
  have hlength : ((List.range n).map turn).length = n := by
    rw [List.length_map, List.length_range]
  have hfold : (turns n).foldl enter [] = (List.range n).map turn := entered_turns n
  obtain ⟨h, hpush, hk⟩ := keeps_zero.pushAll (by rw [hfold, hlength]; omega)
  rw [hfold] at hk
  obtain ⟨hempty, hlast⟩ := turns_fresh n
  have hfull := hk.push_full (by rw [hlength]; exact hn) hempty hlast
  obtain ⟨h', hpush', -⟩ := hall (turns (n + 1))
  rw [turns, pushAll_append hpush, pushAll, hfull] at hpush'
  exact absurd hpush'.symm (Option.some_ne_none _)

end LightningOS.Console
