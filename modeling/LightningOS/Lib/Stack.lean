import LightningOS.Lib.Memory

/-!
# A stack of words in memory

Words are pushed downwards, as on most machines. `Words m a ws` says that the words `ws`
lie one after the other from `a` on, so what was pushed last comes first. What is pushed
can be read back as long as nobody writes in between, and only the words that were pushed
are written.
-/

namespace WordStack

open ByteMemory

variable {m m' : Memory} {a sp : Nat} {ws : List Nat}

/-- The words from the address `a` on. -/
def Words (m : Memory) (a : Nat) : List Nat → Prop
  | [] => True
  | w :: ws => load32 m a = w ∧ Words m (a + 4) ws

/-- Only the bytes of the words matter. -/
theorem Words.congr (h : Words m a ws) (hm : ∀ x, a ≤ x → x < a + 4 * ws.length → m' x = m x) :
    Words m' a ws := by
  induction ws generalizing a with
  | nil => trivial
  | cons w ws ih =>
    rw [List.length_cons] at hm
    refine ⟨?_, ih h.2 fun x h1 h2 => hm x (by omega) (by omega)⟩
    rw [← h.1]
    exact load32_congr fun x h1 h2 => hm x h1 (by omega)

theorem Words.get (h : Words m a ws) {i : Nat} (hi : i < ws.length) :
    load32 m (a + 4 * i) = ws[i] := by
  induction ws generalizing a i with
  | nil => exact absurd hi (Nat.not_lt_zero _)
  | cons w ws ih =>
    cases i with
    | zero => exact h.1
    | succ i =>
      rw [List.getElem_cons_succ, ← ih h.2 (Nat.lt_of_succ_lt_succ hi)]
      congr 1
      omega

/-- One word on top. -/
theorem Words.push (h : Words m sp ws) (hsp : 4 ≤ sp) {w : Nat} (hw : w < 4294967296) :
    Words (store32 m (sp - 4) w) (sp - 4) (w :: ws) := by
  refine ⟨?_, ?_⟩
  · rw [load32_store32_same, wrap32_of_lt hw]
  · rw [Nat.sub_add_cancel hsp]
    exact h.congr fun x h1 _ => store32_other (Or.inr (by omega))

/-- Memory after the words were pushed, the first of them first. -/
def pushAll (m : Memory) (sp : Nat) : List Nat → Memory
  | [] => m
  | w :: ws => pushAll (store32 m (sp - 4) w) (sp - 4) ws

theorem pushAll_append {m : Memory} {sp : Nat} {xs ys : List Nat} :
    pushAll m sp (xs ++ ys) = pushAll (pushAll m sp xs) (sp - 4 * xs.length) ys := by
  induction xs generalizing m sp with
  | nil => rfl
  | cons x xs ih =>
    rw [List.cons_append, pushAll, pushAll, ih, List.length_cons]
    congr 1
    omega

/-- **What was pushed can be read back**, the last word first. -/
theorem words_pushAll {pushed : List Nat} (h : Words m sp ws) (hsp : 4 * pushed.length ≤ sp)
    (hw : ∀ w ∈ pushed, w < 4294967296) :
    Words (pushAll m sp pushed) (sp - 4 * pushed.length) (pushed.reverse ++ ws) := by
  induction pushed generalizing m sp ws with
  | nil => exact h
  | cons w pushed ih =>
    rw [List.length_cons] at hsp ⊢
    have hnext := ih (h.push (by omega) (hw w List.mem_cons_self)) (by omega)
      fun v hv => hw v (List.mem_cons_of_mem _ hv)
    rw [List.reverse_cons, List.append_assoc, List.singleton_append]
    rwa [show sp - 4 * (pushed.length + 1) = sp - 4 - 4 * pushed.length by omega]

/-- Nothing else is written. -/
theorem pushAll_other {pushed : List Nat} {x : Nat} (hsp : 4 * pushed.length ≤ sp)
    (hx : x < sp - 4 * pushed.length ∨ sp ≤ x) : pushAll m sp pushed x = m x := by
  induction pushed generalizing m sp with
  | nil => rfl
  | cons w pushed ih =>
    rw [List.length_cons] at hsp hx
    rw [pushAll, ih (by omega) (by omega)]
    exact store32_other (by omega)

end WordStack
