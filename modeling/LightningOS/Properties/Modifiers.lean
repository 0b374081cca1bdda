import LightningOS.Drivers.Keyboard
import Mathlib.Data.List.Basic

/-!
# Shift, control and caps lock

The keys as a hand presses them, and the bytes that the handler sees of it, one at each
interrupt. The driver keeps one flag for both shift keys, which the release of either of them
clears, so it knows whether a shift key is held as long as none is released while the other is
down. Keys behind the prefix never matter.
-/

namespace LightningOS.Keyboard

/-! ## Keys and their bytes -/

/-- A key with its code in scancode set 1, on its own or behind the 0xE0 prefix. There is no
key 0x60: its release would read as the prefix. -/
structure Key where
  extended : Bool
  code : UInt8
  isCode : code < 0x80 ∧ code ≠ 0x60
  deriving DecidableEq

def leftShift : Key := ⟨false, 0x2A, by decide⟩

def rightShift : Key := ⟨false, 0x36, by decide⟩

def leftCtrl : Key := ⟨false, 0x1D, by decide⟩

def capsLockKey : Key := ⟨false, 0x3A, by decide⟩

inductive Stroke where
  | press (key : Key)
  | release (key : Key)

def Key.sent (key : Key) (code : UInt8) : List UInt8 := if key.extended then [0xE0, code] else [code]

/-- What the keyboard sends. -/
def Stroke.bytes : Stroke → List UInt8
  | .press key => key.sent key.code
  | .release key => key.sent (key.code ||| 0x80)

/-- The keys that the handler pushes for some bytes, and the modifiers it leaves. -/
def scan (m : Modifiers) : List UInt8 → List Nat × Modifiers
  | [] => ([], m)
  | byte :: bytes =>
    let r := scancodeKey m byte
    let rest := scan r.2 bytes
    (r.1.toList ++ rest.1, rest.2)

theorem push_mods (k : Driver) (m : Modifiers) (key : Nat) :
    push { k with mods := m } key = { push k key with mods := m } := by
  unfold push
  simp only
  split <;> rfl

theorem pushes_mods (keys : List Nat) (m : Modifiers) : ∀ k : Driver,
    keys.foldl push { k with mods := m } = { keys.foldl push k with mods := m } := by
  induction keys with
  | nil => exact fun _ => rfl
  | cons key keys ih =>
    intro k
    rw [List.foldl_cons, push_mods, ih, List.foldl_cons]

/-- The interrupts push these keys. -/
theorem interrupts_scan (bytes : List UInt8) : ∀ k : Driver, bytes.foldl keyboardCallback k =
    { (scan k.mods bytes).1.foldl push k with mods := (scan k.mods bytes).2 } := by
  induction bytes with
  | nil => exact fun _ => rfl
  | cons byte bytes ih =>
    intro k
    rw [List.foldl_cons, ih]
    unfold keyboardCallback
    cases hr : scancodeKey k.mods byte with
    | mk key m =>
      cases key with
      | none => simp [scan, hr, pushes_mods]
      | some key => simp [scan, hr, pushes_mods, push_mods]

/-! ## The keys that are held -/

/-- The keyboard under the hands. -/
structure Board where
  held : Key → Bool
  capsLock : Bool

/-- No key is held. -/
def Board.idle : Board := { held := fun _ => false, capsLock := false }

def Board.stroke (b : Board) : Stroke → Board
  | .press key =>
    { held := Function.update b.held key true
      capsLock := if key = capsLockKey then !b.capsLock else b.capsLock }
  | .release key => { b with held := Function.update b.held key false }

/-- At least one of the two shift keys is held. -/
def Board.shift (b : Board) : Bool := b.held leftShift || b.held rightShift

/-- The modifiers as they are. -/
def Board.modifiers (b : Board) : Modifiers where
  shiftDown := b.shift
  capsLock := b.capsLock
  ctrlDown := b.held leftCtrl
  extended := false

/-- The character a key on its own stands for, if it stands for one: that of `keymapShift` while
a shift key is held, that of `keymap` otherwise. Caps lock makes it the other way round for
letters, and with control a letter becomes its number in the alphabet. -/
def typed (shift capsLock ctrl : Bool) (code : UInt8) : Option Nat :=
  let plain := keymap.getD code.toNat '\x00'
  let shifted := keymapShift.getD code.toNat '\x00'
  let c := if plain.isAlpha then (if shift ≠ capsLock then shifted else plain)
    else if shift then shifted else plain
  if c = '\x00' then none
  else if ctrl = true ∧ c.isAlpha then some (c.toUpper.toNat - 64)
  else some c.toNat

/-- The keys behind the prefix that stand for something, with their codes. -/
def navigation : List (UInt8 × Nat) :=
  [(0x47, keyHome), (0x48, keyUp), (0x49, keyPageup), (0x4B, keyLeft), (0x4D, keyRight),
    (0x4F, keyEnd), (0x50, keyDown), (0x51, keyPagedown), (0x53, keyDelete)]

/-- What a stroke is to push, by the keys that are held and by caps lock. -/
def Board.expects (b : Board) : Stroke → List Nat
  | .press key => (if key.extended then navigation.lookup key.code
      else typed b.shift b.capsLock (b.held leftCtrl) key.code).toList
  | .release _ => []

/-- Every stroke pushes what it is to push. -/
def Tracks (m : Modifiers) (b : Board) : List Stroke → Prop
  | [] => True
  | e :: es =>
    (scan m e.bytes).1 = b.expects e ∧ Tracks (scan m e.bytes).2 (b.stroke e) es

/-- No shift key is released while the other one is held. -/
def Board.apart (b : Board) : Stroke → Prop
  | .press _ => True
  | .release key =>
    (key = leftShift → b.held rightShift = false) ∧ (key = rightShift → b.held leftShift = false)

def Apart (b : Board) : List Stroke → Prop
  | [] => True
  | e :: es => b.apart e ∧ Apart (b.stroke e) es

instance (b : Board) : (e : Stroke) → Decidable (b.apart e)
  | .press _ => isTrue trivial
  | .release key => inferInstanceAs (Decidable
      ((key = leftShift → b.held rightShift = false) ∧
        (key = rightShift → b.held leftShift = false)))

instance decidableApart (b : Board) : (es : List Stroke) → Decidable (Apart b es)
  | [] => isTrue trivial
  | e :: es =>
    have := decidableApart (b.stroke e) es
    inferInstanceAs (Decidable (b.apart e ∧ Apart (b.stroke e) es))

/-! ## One stroke -/

/-- The bits of the code of a key. -/
theorem Key.bits (key : Key) : key.code ≠ 0xE0 ∧ key.code &&& 0x80 = 0 ∧
    key.code ||| 0x80 ≠ 0xE0 ∧ (key.code ||| 0x80) &&& 0x80 ≠ 0 ∧
    (key.code ||| 0x80) &&& 0x7F = key.code := by
  have hall : ∀ n ∈ List.range 128, UInt8.ofNat n ≠ 0x60 →
      UInt8.ofNat n ≠ 0xE0 ∧ UInt8.ofNat n &&& 0x80 = 0 ∧ UInt8.ofNat n ||| 0x80 ≠ 0xE0 ∧
        (UInt8.ofNat n ||| 0x80) &&& 0x80 ≠ 0 ∧
        (UInt8.ofNat n ||| 0x80) &&& 0x7F = UInt8.ofNat n := by decide +kernel
  have h := hall key.code.toNat (List.mem_range.mpr key.isCode.1)
  rw [UInt8.ofNat_toNat] at h
  exact h key.isCode.2

theorem Key.eq_of_code {key key' : Key} (hplain : key.extended = key'.extended)
    (hcode : key.code = key'.code) : key = key' := by
  cases key
  cases key'
  subst hplain hcode
  rfl

/-- With the flags as the keys are, the handler finds the right character. -/
theorem characterKey_typed (b : Board) {code : UInt8} (h : code < 0x80) :
    characterKey b.modifiers code = typed b.shift b.capsLock (b.held leftCtrl) code := by
  have hall : ∀ n ∈ List.range 128, ∀ shift capsLock ctrl : Bool,
      characterKey { shiftDown := shift, capsLock := capsLock, ctrlDown := ctrl } (UInt8.ofNat n) =
        typed shift capsLock ctrl (UInt8.ofNat n) := by decide +kernel
  have hcode := hall code.toNat (List.mem_range.mpr h) b.shift b.capsLock (b.held leftCtrl)
  rw [UInt8.ofNat_toNat] at hcode
  exact hcode

theorem extendedKey_navigation {code : UInt8} (h : code < 0x80) :
    extendedKey code = navigation.lookup code := by
  have hall : ∀ n ∈ List.range 128,
      extendedKey (UInt8.ofNat n) = navigation.lookup (UInt8.ofNat n) := by decide +kernel
  have hcode := hall code.toNat (List.mem_range.mpr h)
  rw [UInt8.ofNat_toNat] at hcode
  exact hcode

/-- The keys that change the modifiers stand for no character. -/
theorem typed_modifier {shift capsLock ctrl : Bool} {code : UInt8}
    (h : code = 0x2A ∨ code = 0x36 ∨ code = 0x1D ∨ code = 0x3A) :
    typed shift capsLock ctrl code = none := by
  rcases h with rfl | rfl | rfl | rfl <;> cases shift <;> rfl

/-- A key behind the prefix leaves the modifiers as they are. -/
theorem scan_extended (m : Modifiers) (hm : m.extended = false) (code : UInt8) (hcode : code ≠ 0xE0) :
    scan m [0xE0, code] = ((if code &&& 0x80 = 0 then extendedKey code else none).toList, m) := by
  have hmods : ({ m with extended := false } : Modifiers) = m := by
    cases m
    subst hm
    rfl
  simp only [scan, scancodeKey, if_true, if_neg hcode, Option.toList_none, List.nil_append,
    List.append_nil, hmods]

/-- The keys that change the modifiers. -/
def Key.isModifier (key : Key) : Prop :=
  key = leftShift ∨ key = rightShift ∨ key = leftCtrl ∨ key = capsLockKey

theorem Key.code_of_modifier {key : Key} (h : key.isModifier) :
    key.code = 0x2A ∨ key.code = 0x36 ∨ key.code = 0x1D ∨ key.code = 0x3A := by
  rcases h with rfl | rfl | rfl | rfl
  · exact .inl rfl
  · exact .inr (.inl rfl)
  · exact .inr (.inr (.inl rfl))
  · exact .inr (.inr (.inr rfl))

theorem Key.code_of_not_modifier {key : Key} (hplain : key.extended = false)
    (h : ¬key.isModifier) : key.code ≠ 0x2A ∧ key.code ≠ 0x36 ∧ key.code ≠ 0x1D ∧
      key.code ≠ 0x3A := by
  refine ⟨fun hc => h (.inl ?_), fun hc => h (.inr (.inl ?_)), fun hc => h (.inr (.inr (.inl ?_))),
    fun hc => h (.inr (.inr (.inr ?_)))⟩
  all_goals exact Key.eq_of_code hplain hc

/-- A stroke of any other key changes no modifier. -/
theorem Board.stroke_other {key : Key} (h : ¬key.isModifier) (b : Board) :
    (b.stroke (.press key)).modifiers = b.modifiers ∧
      (b.stroke (.release key)).modifiers = b.modifiers := by
  have hleft : leftShift ≠ key := fun hk => h (.inl hk.symm)
  have hright : rightShift ≠ key := fun hk => h (.inr (.inl hk.symm))
  have hctrl : leftCtrl ≠ key := fun hk => h (.inr (.inr (.inl hk.symm)))
  have hcaps : key ≠ capsLockKey := fun hk => h (.inr (.inr (.inr hk)))
  simp only [Board.modifiers, Board.shift, Board.stroke, Function.update_of_ne hleft,
    Function.update_of_ne hright, Function.update_of_ne hctrl, if_neg hcaps, and_self]

theorem not_modifier_of_extended {key : Key} (h : key.extended = true) : ¬key.isModifier := by
  rintro (rfl | rfl | rfl | rfl) <;> exact absurd h (by decide)

section Bytes

variable {m : Modifiers} {key : Key}

/-- The make code of a key on its own. -/
theorem scancodeKey_make (hm : m.extended = false) : scancodeKey m key.code =
    if key.code = 0x2A ∨ key.code = 0x36 then (none, { m with shiftDown := true })
    else if key.code = 0x1D then (none, { m with ctrlDown := true })
    else if key.code = 0x3A then (none, { m with capsLock := !m.capsLock })
    else (characterKey m key.code, m) := by
  obtain ⟨hbyte, hmake, -⟩ := key.bits
  unfold scancodeKey
  rw [if_neg hbyte, hm, if_neg (by decide), if_neg (not_not_intro hmake)]

/-- The break code of a key on its own. -/
theorem scancodeKey_break (hm : m.extended = false) : scancodeKey m (key.code ||| 0x80) =
    if key.code = 0x2A ∨ key.code = 0x36 then (none, { m with shiftDown := false })
    else if key.code = 0x1D then (none, { m with ctrlDown := false })
    else (none, m) := by
  obtain ⟨-, -, hbyte, hbreak, hmade⟩ := key.bits
  unfold scancodeKey
  rw [if_neg hbyte, hm, if_neg (by decide), if_pos hbreak]
  simp only [hmade]

end Bytes

/-! What the strokes of the four keys change. -/

theorem press_leftShift (b : Board) : (b.stroke (.press leftShift)).modifiers =
    { b.modifiers with shiftDown := true } := by
  simp [Board.modifiers, Board.shift, Board.stroke, Function.update_of_ne
    (show rightShift ≠ leftShift by decide), Function.update_of_ne
    (show leftCtrl ≠ leftShift by decide), show leftShift ≠ capsLockKey by decide]

theorem press_rightShift (b : Board) : (b.stroke (.press rightShift)).modifiers =
    { b.modifiers with shiftDown := true } := by
  simp [Board.modifiers, Board.shift, Board.stroke, Function.update_of_ne
    (show leftCtrl ≠ rightShift by decide), show rightShift ≠ capsLockKey by decide]

theorem press_leftCtrl (b : Board) : (b.stroke (.press leftCtrl)).modifiers =
    { b.modifiers with ctrlDown := true } := by
  simp [Board.modifiers, Board.shift, Board.stroke, Function.update_of_ne
    (show leftShift ≠ leftCtrl by decide), Function.update_of_ne
    (show rightShift ≠ leftCtrl by decide), show leftCtrl ≠ capsLockKey by decide]

theorem press_capsLockKey (b : Board) : (b.stroke (.press capsLockKey)).modifiers =
    { b.modifiers with capsLock := !b.modifiers.capsLock } := by
  simp [Board.modifiers, Board.shift, Board.stroke, Function.update_of_ne
    (show leftShift ≠ capsLockKey by decide), Function.update_of_ne
    (show rightShift ≠ capsLockKey by decide), Function.update_of_ne
    (show leftCtrl ≠ capsLockKey by decide)]

/-- The flag is cleared, and with the other key up that is right. -/
theorem release_shift (b : Board) {key : Key} (hkey : key = leftShift ∨ key = rightShift)
    (h : b.apart (.release key)) :
    (b.stroke (.release key)).modifiers = { b.modifiers with shiftDown := false } := by
  obtain ⟨hleft, hright⟩ := h
  rcases hkey with rfl | rfl
  · simp [Board.modifiers, Board.shift, Board.stroke, hleft rfl, Function.update_of_ne
      (show rightShift ≠ leftShift by decide), Function.update_of_ne
      (show leftCtrl ≠ leftShift by decide)]
  · simp [Board.modifiers, Board.shift, Board.stroke, hright rfl, Function.update_of_ne
      (show leftShift ≠ rightShift by decide), Function.update_of_ne
      (show leftCtrl ≠ rightShift by decide)]

theorem release_leftCtrl (b : Board) : (b.stroke (.release leftCtrl)).modifiers =
    { b.modifiers with ctrlDown := false } := by
  simp [Board.modifiers, Board.shift, Board.stroke, Function.update_of_ne
    (show leftShift ≠ leftCtrl by decide), Function.update_of_ne
    (show rightShift ≠ leftCtrl by decide)]

theorem release_capsLockKey (b : Board) :
    (b.stroke (.release capsLockKey)).modifiers = b.modifiers := by
  simp [Board.modifiers, Board.shift, Board.stroke, Function.update_of_ne
    (show leftShift ≠ capsLockKey by decide), Function.update_of_ne
    (show rightShift ≠ capsLockKey by decide), Function.update_of_ne
    (show leftCtrl ≠ capsLockKey by decide)]

/-- A press is seen for what it is. -/
theorem Board.scan_press (b : Board) (key : Key) :
    scan b.modifiers (Stroke.press key).bytes =
      (b.expects (.press key), (b.stroke (.press key)).modifiers) := by
  have hoff : b.modifiers.extended = false := rfl
  cases hext : key.extended with
  | true =>
    have hbits := key.bits
    simp only [Stroke.bytes, Key.sent, Board.expects, hext, if_true]
    rw [scan_extended _ hoff _ hbits.1, if_pos hbits.2.1, extendedKey_navigation key.isCode.1,
      (b.stroke_other (not_modifier_of_extended hext)).1]
  | false =>
    simp only [Stroke.bytes, Key.sent, Board.expects, hext, Bool.false_eq_true, if_false, scan,
      List.append_nil, scancodeKey_make hoff]
    by_cases hmod : key.isModifier
    · rw [typed_modifier (Key.code_of_modifier hmod)]
      rcases hmod with rfl | rfl | rfl | rfl
      · rw [press_leftShift]
        rfl
      · rw [press_rightShift]
        rfl
      · rw [press_leftCtrl]
        rfl
      · rw [press_capsLockKey]
        rfl
    · obtain ⟨h1, h2, h3, h4⟩ := Key.code_of_not_modifier hext hmod
      rw [if_neg (by rintro (h | h) <;> contradiction), if_neg h3, if_neg h4,
        (b.stroke_other hmod).1, characterKey_typed b key.isCode.1]

/-- So is a release, unless the other shift key is held. -/
theorem Board.scan_release (b : Board) (key : Key) (h : b.apart (.release key)) :
    scan b.modifiers (Stroke.release key).bytes =
      (b.expects (.release key), (b.stroke (.release key)).modifiers) := by
  have hoff : b.modifiers.extended = false := rfl
  cases hext : key.extended with
  | true =>
    obtain ⟨-, -, hbyte, hbreak, -⟩ := key.bits
    simp only [Stroke.bytes, Key.sent, Board.expects, hext, if_true]
    rw [scan_extended _ hoff _ hbyte, if_neg hbreak, Option.toList_none,
      (b.stroke_other (not_modifier_of_extended hext)).2]
  | false =>
    simp only [Stroke.bytes, Key.sent, Board.expects, hext, Bool.false_eq_true, if_false, scan,
      List.append_nil, scancodeKey_break hoff]
    by_cases hmod : key.isModifier
    · rcases hmod with rfl | rfl | rfl | rfl
      · rw [release_shift b (.inl rfl) h]
        rfl
      · rw [release_shift b (.inr rfl) h]
        rfl
      · rw [release_leftCtrl]
        rfl
      · rw [release_capsLockKey]
        rfl
    · obtain ⟨h1, h2, h3, -⟩ := Key.code_of_not_modifier hext hmod
      rw [if_neg (by rintro (h | h) <;> contradiction), if_neg h3, (b.stroke_other hmod).2]
      rfl

/-- **One stroke.** The driver pushes what it is to push and knows the modifiers afterwards. -/
theorem Board.scan_stroke (b : Board) (e : Stroke) (h : b.apart e) :
    scan b.modifiers e.bytes = (b.expects e, (b.stroke e).modifiers) := by
  cases e with
  | press key => exact b.scan_press key
  | release key => exact b.scan_release key h

/-! ## All strokes -/

/-- **The modifiers are tracked** as long as no shift key is released while the other is held. -/
theorem modifiers_tracked (es : List Stroke) (h : Apart .idle es) : Tracks {} .idle es := by
  have hrun : ∀ b : Board, Apart b es → Tracks b.modifiers b es := by
    clear h
    induction es with
    | nil => exact fun _ _ => trivial
    | cons e es ih =>
      rintro b ⟨hstroke, hrest⟩
      have hscan := b.scan_stroke e hstroke
      refine ⟨by rw [hscan], ?_⟩
      rw [hscan]
      exact ih (b.stroke e) hrest
  exact hrun .idle h

def letterA : Key := ⟨false, 0x1E, by decide⟩

def arrowUp : Key := ⟨true, 0x48, by decide⟩

/-- Both shift keys one after the other, and a key behind the prefix in between. -/
theorem modifiers_tracked_shifts : Tracks {} .idle
    [.press leftShift, .press letterA, .press arrowUp, .release arrowUp, .release leftShift,
      .press rightShift, .press letterA] :=
  modifiers_tracked _ (by decide)

/-- With the right shift key still down, the letter comes out small. -/
theorem shift_forgotten : ¬Tracks {} .idle
    [.press leftShift, .press rightShift, .release leftShift, .press letterA] := by
  rintro ⟨-, -, -, h, -⟩
  revert h
  decide

end LightningOS.Keyboard
