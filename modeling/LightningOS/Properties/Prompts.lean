import LightningOS.Kernel.Shell
import LightningOS.Properties.LineEditor

/-!
# What is typed at a prompt

The shell and the setup take what was typed at a prompt as it is: a text, or Ctrl-C. The line
editor is what makes such a text from keys. Here the two meet: whatever keys are typed, the
editor returns what the shell is told, and any text can be typed.
-/

namespace LightningOS.Console

open CString Shell Vga

variable {h : History} {call : Call} {out : List UInt8} {keys : List Int} {e : Editor} {ok : Bool}
  {typed : Nat → Option (List UInt8)} {st : Session}

/-! ## What the editor returns -/

theorem printable_iff {c : UInt8} : printable c = true ↔ Printable c := by
  unfold printable Printable
  rw [Bool.and_eq_true, decide_eq_true_eq, decide_eq_true_eq]

/-- **What the editor returns is what the shell reads.** After Enter that is the text in the
buffer, which has no characters that the shell would leave out; after Ctrl-C it is nothing. -/
theorem readLine_edited (hentered : Entered h) (hsize : 2 ≤ call.size)
    (hout : out.length = call.size) (hread : consoleReadLine h call out keys = some (e, some ok))
    (htyped : typed st.asked = if ok then some (text e.out) else none) :
    st.readLine typed call.size = (ok, text e.out, { st with asked := st.asked + 1 }) := by
  obtain ⟨stored, hr⟩ := hentered.recalls
  rcases consoleReadLine_spec hr hsize hout keys with ⟨-, hnone⟩ | ⟨e', t, res, -, hrun, houtcome⟩
  · rw [hread] at hnone
    exact absurd hnone (Option.some_ne_none _)
  rw [hread] at hrun
  obtain ⟨rfl, rfl⟩ := Prod.mk.inj (Option.some.inj hrun)
  unfold Session.readLine
  cases ok with
  | false =>
    have hempty : text e.out = [] := houtcome
    rw [htyped, hempty]
    rfl
  | true =>
    obtain ⟨htext, hfits, hprintable⟩ := houtcome
    have hall : (text e.out).filter printable = text e.out := by
      rw [htext]
      exact List.filter_eq_self.mpr fun c hc => printable_iff.mpr (hprintable c hc)
    have hlen : (text e.out).length ≤ min call.size Shell.lineMax - 1 := by
      rw [htext]
      exact hfits
    rw [htyped, if_pos rfl]
    dsimp only
    rw [hall, List.take_of_length_le hlen]

/-! ## Any text can be typed -/

theorem take_append_again (xs ys : List UInt8) (n : Nat) :
    (xs.take n ++ ys).take n = (xs ++ ys).take n := by
  rcases Nat.le_total xs.length n with hle | hle
  · rw [List.take_of_length_le hle]
  · have hlen : n ≤ (xs.take n).length := by
      rw [List.length_take]
      omega
    rw [List.take_append_of_le_length hlen, List.take_append_of_le_length hle, List.take_take,
      Nat.min_self]

/-- The keys for a text, with Enter behind them, or Ctrl-C. -/
def keysFor : Option (List UInt8) → List Int
  | none => [3]
  | some chars => (chars.filter printable).map (fun c => (c.toNat : Int)) ++ [10]

theorem Typed.key_printable {stored : List (List UInt8)} {limit : Nat} {useHistory : Bool} {t : Typed}
    {c : UInt8} (hc : Printable c) (hfits : t.text.length ≤ limit) :
    t.key stored limit useHistory (c.toNat : Int) =
      { t with text := (t.text ++ [c]).take limit } := by
  have hlow : 32 ≤ c.toNat := UInt8.le_iff_toNat_le.mp hc.1
  have hhigh : c.toNat ≤ 126 := UInt8.le_iff_toNat_le.mp hc.2
  have hup : Keyboard.keyUp = 257 := rfl
  have hdown : Keyboard.keyDown = 258 := rfl
  have hchar : UInt8.ofInt (c.toNat : Int) = c := by
    have hvalue : ((c.toNat : Int) % 2 ^ 8).toNat = c.toNat := by omega
    rw [UInt8.ofInt, hvalue, UInt8.ofNat_toNat]
  unfold Typed.key
  rw [if_neg (by omega), if_neg (by omega), if_neg (by omega), if_neg (by omega)]
  rcases Nat.lt_or_ge t.text.length limit with hlt | hge
  · rw [if_pos ⟨by omega, by omega, hlt⟩, hchar, List.take_of_length_le]
    rw [List.length_append, List.length_singleton]
    exact hlt
  · rw [if_neg fun h => absurd h.2.2 (Nat.not_lt.mpr hge),
      List.take_append_of_le_length (Nat.le_of_eq (Nat.le_antisymm hge hfits)),
      List.take_of_length_le hfits]

theorem Typed.keys_printable {stored : List (List UInt8)} {limit : Nat} {useHistory : Bool}
    {chars : List UInt8} (hchars : ∀ c ∈ chars, Printable c) : ∀ {t : Typed},
    t.text.length ≤ limit → Typed.keys stored limit useHistory
      (chars.map (fun c => (c.toNat : Int)) ++ [10]) t =
        ({ t with text := (t.text ++ chars).take limit }, some true) := by
  induction chars with
  | nil =>
    intro t hfits
    rw [List.append_nil, List.take_of_length_le hfits]
    rfl
  | cons c chars ih =>
    intro t hfits
    have hc := hchars c List.mem_cons_self
    have hlow : 32 ≤ c.toNat := UInt8.le_iff_toNat_le.mp hc.1
    have hrest : ∀ d ∈ chars, Printable d := fun d hd => hchars d (List.mem_cons_of_mem _ hd)
    rw [List.map_cons, List.cons_append, Typed.keys, if_neg (by omega), if_neg (by omega),
      Typed.key_printable hc hfits, ih hrest (List.length_take_le _ _)]
    rw [take_append_again, ← List.append_cons]

/-- **Whatever the shell reads can be typed.** -/
theorem edited_readLine (hentered : Entered h) (hcount : IsInt (h.historyTotal + 1))
    (hsize : 2 ≤ call.size) (hout : out.length = call.size) :
    ∃ e, consoleReadLine h call out (keysFor (typed st.asked)) =
        some (e, some (st.readLine typed call.size).1) ∧
      text e.out = (st.readLine typed call.size).2.1 := by
  obtain ⟨stored, hr⟩ := hentered.recalls
  rcases consoleReadLine_spec hr hsize hout (keysFor (typed st.asked)) with
    ⟨hmax, -⟩ | ⟨e, t, res, hkeys, hrun, houtcome⟩
  · exact absurd hcount hmax
  unfold Session.readLine
  cases htyped : typed st.asked with
  | none =>
    rw [htyped] at hkeys hrun
    obtain ⟨rfl, rfl⟩ := Prod.mk.inj hkeys
    exact ⟨e, hrun, houtcome⟩
  | some chars =>
    have hall : ∀ c ∈ chars.filter printable, Printable c :=
      fun c hc => printable_iff.mp (List.mem_filter.mp hc).2
    rw [htyped, keysFor, Typed.keys_printable hall (Nat.zero_le _)] at hkeys
    obtain ⟨rfl, rfl⟩ := Prod.mk.inj hkeys
    rw [htyped] at hrun
    exact ⟨e, hrun, houtcome.1⟩

end LightningOS.Console
