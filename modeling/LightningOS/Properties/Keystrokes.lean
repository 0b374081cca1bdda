import LightningOS.Lib.Queue
import LightningOS.Drivers.Keyboard

/-!
# The keyboard queue

The keys that `keyboard_poll` returned, followed by those that wait, are the keys that
were pushed, wherever the interrupts fall between the steps of a poll. The only keys
missing are those pushed while 127 waited.

The poll is safe because the two sides own one index each: an interrupt moves `head` and
writes the slot at `head`, which holds no key that waits. So whatever a poll has read
about the oldest key stays true until it moves `tail` itself. `Poll.Agrees` says this for
each place a poll can be at.
-/

namespace LightningOS.Keyboard

open Queue

/-- The keys that wait, the oldest first. -/
def Driver.queued (k : Driver) : List Nat := Queue.queued k.buffer k.head k.tail

/-! ## Keys -/

theorem capsKey_ne_zero {c : Nat} (h : c ≠ 0) : capsKey c ≠ 0 := by
  unfold capsKey
  split
  · exact Nat.succ_ne_zero _
  · split
    · exact Nat.succ_ne_zero _
    · exact h

theorem ctrlKey_ne_zero {c : Nat} (h : c ≠ 0) : ctrlKey c ≠ 0 := by
  unfold ctrlKey
  split
  · exact Nat.succ_ne_zero _
  · split
    · exact Nat.succ_ne_zero _
    · exact h

theorem characterKey_ne_zero {m : Modifiers} {scancode : UInt8} {key : Nat}
    (h : characterKey m scancode = some key) : key ≠ 0 := by
  unfold characterKey at h
  simp only [Option.ite_none_left_eq_some, Option.some.injEq] at h
  obtain ⟨hc, rfl⟩ := h
  have hcaps : ∀ b : Bool, ∀ c : Nat, c ≠ 0 → (if b then capsKey c else c) ≠ 0 := by
    rintro (_ | _) c hc
    · exact hc
    · exact capsKey_ne_zero hc
  have hctrl : ∀ b : Bool, ∀ c : Nat, c ≠ 0 → (if b then ctrlKey c else c) ≠ 0 := by
    rintro (_ | _) c hc
    · exact hc
    · exact ctrlKey_ne_zero hc
  exact hctrl _ _ (hcaps _ _ hc)

theorem extendedKey_ne_zero {scancode : UInt8} {key : Nat} (h : extendedKey scancode = some key) :
    key ≠ 0 := by
  unfold extendedKey at h
  split at h
  case h_10 => cases h
  all_goals
    cases h
    decide

/-- No scancode means the key 0, whatever is held down. -/
theorem scancodeKey_ne_zero {m : Modifiers} {scancode : UInt8} {key : Nat}
    (h : (scancodeKey m scancode).1 = some key) : key ≠ 0 := by
  unfold scancodeKey at h
  split at h
  · cases h
  · split at h
    · -- behind the prefix
      dsimp only at h
      split at h
      · exact extendedKey_ne_zero h
      · cases h
    · split at h
      · -- a release pushes nothing
        dsimp only at h
        split at h
        · cases h
        · split at h <;> cases h
      · split at h
        · cases h
        · split at h
          · cases h
          · split at h
            · cases h
            · exact characterKey_ne_zero h

/-! ## What an interrupt does -/

/-- The indices are in range. -/
structure Driver.Bounded (k : Driver) : Prop where
  head_lt : k.head < bufferLen
  tail_lt : k.tail < bufferLen

theorem push_bounded {k : Driver} (h : k.Bounded) (key : Nat) : (push k key).Bounded := by
  unfold push
  dsimp only
  split
  · exact h
  · exact ⟨next_lt k.head, h.tail_lt⟩

/-- **`push` offers the key to the line of the keys that wait.** -/
theorem push_queued {k : Driver} (h : k.Bounded) (key : Nat) :
    (push k key).queued = offer (bufferLen - 1) k.queued key := by
  rw [Driver.queued, Driver.queued, ← queued_push h.head_lt h.tail_lt key, push]
  split <;> rfl

/-- A push that finds 127 keys waiting changes nothing at all. -/
theorem push_full {k : Driver} (h : k.Bounded) (hfull : k.queued.length = bufferLen - 1)
    (key : Nat) : push k key = k := by
  have hnot : ¬ (Queue.queued k.buffer k.head k.tail).length < bufferLen - 1 := by
    rw [← Driver.queued, hfull]
    exact Nat.lt_irrefl _
  rw [push]
  exact if_pos ((full_iff h.head_lt h.tail_lt).mpr hnot)

/-- The handler leaves `tail` to the poll. -/
theorem keyboardCallback_tail (k : Driver) (scancode : UInt8) :
    (keyboardCallback k scancode).tail = k.tail := by
  unfold keyboardCallback
  split
  · rfl
  · unfold push
    dsimp only
    split <;> rfl

theorem keyboardCallback_bounded {k : Driver} (h : k.Bounded) (scancode : UInt8) :
    (keyboardCallback k scancode).Bounded := by
  unfold keyboardCallback
  split
  · exact ⟨h.head_lt, h.tail_lt⟩
  · next key m _ => exact push_bounded (k := { k with mods := m }) ⟨h.head_lt, h.tail_lt⟩ key

/-- The keys that wait after an interrupt. -/
theorem keyboardCallback_queued {k : Driver} (h : k.Bounded) (scancode : UInt8) :
    (keyboardCallback k scancode).queued =
      match (scancodeKey k.mods scancode).1 with
      | none => k.queued
      | some key => offer (bufferLen - 1) k.queued key := by
  unfold keyboardCallback
  rcases scancodeKey k.mods scancode with ⟨_ | key, m⟩
  · rfl
  · exact push_queued (k := { k with mods := m }) ⟨h.head_lt, h.tail_lt⟩ key

/-! ## The poll between two interrupts -/

/-- What the poll read is still true of the queue. -/
def Poll.Agrees (k : Driver) : Poll → Prop
  | .outside => True
  | .sawHead head => head ≠ k.tail → k.queued ≠ []
  | .sawTail tail => tail = k.tail
  | .differ => k.queued ≠ []
  | .slot tail => tail = k.tail ∧ k.queued ≠ []
  | .loaded key => k.queued.head? = some key
  | .next key tail => tail = k.tail ∧ k.queued.head? = some key
  | .taken key => key ≠ 0

/-- The key that left the queue and is not returned yet. -/
def Poll.held : Poll → List Nat
  | .taken key => [key]
  | _ => []

/-- **No interrupt makes what a poll read untrue.** -/
theorem Poll.Agrees.interrupt {k : Driver} {p : Poll} (hk : k.Bounded) (h : p.Agrees k)
    (scancode : UInt8) : p.Agrees (keyboardCallback k scancode) := by
  have htail := keyboardCallback_tail k scancode
  have hq := keyboardCallback_queued hk scancode
  have hne : k.queued ≠ [] → (keyboardCallback k scancode).queued ≠ [] := by
    intro hne
    rw [hq]
    split
    · exact hne
    · exact offer_ne_nil _ hne
  have hhead : ∀ key, k.queued.head? = some key →
      (keyboardCallback k scancode).queued.head? = some key := by
    intro key hkey
    rw [hq]
    split
    · exact hkey
    · exact head?_offer hkey
  cases p with
  | outside => trivial
  | sawHead head => exact fun hd => hne (h (htail ▸ hd))
  | sawTail tail => exact h.trans htail.symm
  | differ => exact hne h
  | slot tail => exact ⟨h.1.trans htail.symm, hne h.2⟩
  | loaded key => exact hhead key h
  | next key tail => exact ⟨h.1.trans htail.symm, hhead key h.2⟩
  | taken key => exact h

/-- The oldest key is the one in the slot at `tail`, and it is gone when `tail` moves. -/
theorem Driver.Bounded.pop {k : Driver} (h : k.Bounded) (hne : k.queued ≠ []) :
    k.queued = k.buffer (Fin.ofNat bufferLen k.tail) ::
      { k with tail := (k.tail + 1) % bufferLen }.queued :=
  queued_pop h.head_lt h.tail_lt fun heq =>
    hne ((queued_eq_nil_iff h.head_lt h.tail_lt).mpr heq)

/-! ## Runs -/

/-- The keys that polls returned. A result of 0 is none. -/
def Console.returned (s : Console) : List Nat := s.results.filter (· ≠ 0)

/-- The key that an event pushes, with the number of keys that wait at that moment. -/
def pushOf (s : Console) : Event → List (Nat × Nat)
  | .interrupt scancode =>
    ((scancodeKey s.kbd.mods scancode).1.map fun key => (key, s.kbd.queued.length)).toList
  | .poll => []

/-- All pushes of a run. -/
def pushes (tailFirst : Bool) : Console → List Event → List (Nat × Nat)
  | _, [] => []
  | s, e :: es => pushOf s e ++ pushes tailFirst (step tailFirst s e) es

/-- The pushes that did not find 127 keys waiting. -/
def accepted (log : List (Nat × Nat)) : List Nat :=
  (log.filter fun entry => entry.2 ≠ 127).map Prod.fst

/-- The invariant: the keys that came out, and those still in, are the `line` of keys that
went in. -/
structure Lossless (line : List Nat) (s : Console) : Prop where
  bounded : s.kbd.Bounded
  agrees : s.poll.Agrees s.kbd
  nonzero : ∀ key ∈ s.kbd.queued, key ≠ 0
  fifo : s.returned ++ s.poll.held ++ s.kbd.queued = line

theorem Driver.waiting_le (k : Driver) : k.queued.length ≤ 127 := by
  rw [Driver.queued, queued_length]
  exact Nat.le_of_lt_succ (Nat.mod_lt _ (by decide))

/-- An interrupt adds its key to the line, unless 127 keys wait. -/
theorem Lossless.interrupt {line : List Nat} {s : Console} (h : Lossless line s)
    (tailFirst : Bool) (scancode : UInt8) :
    Lossless (line ++ accepted (pushOf s (.interrupt scancode)))
      (step tailFirst s (.interrupt scancode)) := by
  have hq := keyboardCallback_queued h.bounded scancode
  have hle := s.kbd.waiting_le
  refine ⟨keyboardCallback_bounded h.bounded scancode, h.agrees.interrupt h.bounded scancode,
    ?_, ?_⟩
  · intro key hkey
    change key ∈ (keyboardCallback s.kbd scancode).queued at hkey
    rw [hq] at hkey
    split at hkey
    · exact h.nonzero key hkey
    · next pressed hpressed =>
      rcases mem_offer hkey with hold | rfl
      · exact h.nonzero key hold
      · exact scancodeKey_ne_zero hpressed
  · change s.returned ++ s.poll.held ++ (keyboardCallback s.kbd scancode).queued = _
    rw [hq, ← h.fifo]
    cases hpressed : (scancodeKey s.kbd.mods scancode).1 with
    | none => simp [pushOf, hpressed, accepted]
    | some pressed =>
      simp only [pushOf, hpressed, Option.map_some, Option.toList_some, offer]
      by_cases hfull : s.kbd.queued.length = 127
      · simp [accepted, hfull]
      · have hroom : s.kbd.queued.length < 127 := by omega
        simp [accepted, hfull, hroom]

/-- A step of the poll takes nothing from the line and adds nothing. -/
theorem Lossless.poll {line : List Nat} {s : Console} (h : Lossless line s) (tailFirst : Bool) :
    Lossless line (step tailFirst s .poll) := by
  obtain ⟨k, p, results⟩ := s
  have hag : p.Agrees k := h.agrees
  have hfifo := h.fifo
  cases p with
  | outside =>
    change Lossless line (if tailFirst then _ else _)
    split
    · exact ⟨h.bounded, rfl, h.nonzero, hfifo⟩
    · refine ⟨h.bounded, ?_, h.nonzero, hfifo⟩
      intro hd hnil
      exact hd ((queued_eq_nil_iff h.bounded.head_lt h.bounded.tail_lt).mp hnil)
  | sawHead head =>
    change Lossless line (if _ then _ else _)
    split
    · refine ⟨h.bounded, trivial, h.nonzero, ?_⟩
      simpa [Console.returned, Poll.held] using hfifo
    · next hd => exact ⟨h.bounded, hag hd, h.nonzero, hfifo⟩
  | sawTail tail =>
    change Lossless line (if _ then _ else _)
    split
    · refine ⟨h.bounded, trivial, h.nonzero, ?_⟩
      simpa [Console.returned, Poll.held] using hfifo
    · next hd =>
      refine ⟨h.bounded, ?_, h.nonzero, hfifo⟩
      intro hnil
      exact hd (((queued_eq_nil_iff h.bounded.head_lt h.bounded.tail_lt).mp hnil).trans hag.symm)
  | differ => exact ⟨h.bounded, ⟨rfl, hag⟩, h.nonzero, hfifo⟩
  | slot tail =>
    obtain ⟨rfl, hne⟩ := hag
    refine ⟨h.bounded, ?_, h.nonzero, hfifo⟩
    change k.queued.head? = _
    rw [h.bounded.pop hne]
    rfl
  | loaded key => exact ⟨h.bounded, ⟨rfl, hag⟩, h.nonzero, hfifo⟩
  | next key tail =>
    -- the queue loses its oldest key, and the poll holds it
    obtain ⟨rfl, hhead⟩ := hag
    have hne : k.queued ≠ [] := by
      intro hnil
      rw [hnil] at hhead
      cases hhead
    have hpop := h.bounded.pop hne
    have hkey : k.buffer (Fin.ofNat bufferLen k.tail) = key := by
      rw [hpop] at hhead
      exact Option.some.inj hhead
    rw [hkey] at hpop
    refine ⟨⟨h.bounded.head_lt, next_lt k.tail⟩, ?_, ?_, ?_⟩
    · exact h.nonzero key (hpop ▸ List.mem_cons_self)
    · intro x hx
      exact h.nonzero x (hpop ▸ List.mem_cons_of_mem key hx)
    · rw [← hfifo]
      change _ = results.filter (· ≠ 0) ++ [] ++ k.queued
      rw [hpop, List.append_nil]
      exact List.append_assoc _ [key] _
  | taken key =>
    refine ⟨h.bounded, trivial, h.nonzero, ?_⟩
    rw [← hfifo]
    have hkey : key ≠ 0 := hag
    simp [Console.returned, Poll.held, pollStep, step, hkey]

theorem Lossless.step {line : List Nat} {s : Console} (h : Lossless line s) (tailFirst : Bool)
    (e : Event) : Lossless (line ++ accepted (pushOf s e)) (step tailFirst s e) := by
  cases e with
  | interrupt scancode => exact h.interrupt tailFirst scancode
  | poll =>
    have hnone : accepted (pushOf s .poll) = [] := rfl
    rw [hnone, List.append_nil]
    exact h.poll tailFirst

theorem Lossless.run {line : List Nat} {s : Console} (h : Lossless line s) (tailFirst : Bool)
    (es : List Event) :
    Lossless (line ++ accepted (pushes tailFirst s es)) (run tailFirst s es) := by
  induction es generalizing s line with
  | nil =>
    rw [show accepted (pushes tailFirst s []) = [] from rfl, List.append_nil]
    exact h
  | cons e es ih =>
    have hrest := ih (h.step tailFirst e)
    have hlog : accepted (pushes tailFirst s (e :: es)) = accepted (pushOf s e) ++
        accepted (pushes tailFirst (Keyboard.step tailFirst s e) es) := by
      simp [pushes, accepted]
    rw [hlog, ← List.append_assoc]
    exact hrest

theorem boot_lossless (k : Driver) : Lossless [] (boot k) := by
  have hb : (keyboardInit k).Bounded := ⟨Nat.zero_lt_succ _, Nat.zero_lt_succ _⟩
  have hnil : (keyboardInit k).queued = [] :=
    (queued_eq_nil_iff hb.head_lt hb.tail_lt).mpr rfl
  refine ⟨hb, trivial, ?_, ?_⟩
  · intro key hkey
    change key ∈ (keyboardInit k).queued at hkey
    rw [hnil] at hkey
    cases hkey
  · exact hnil

/-- A poll that nothing interrupts does what `keyboard_poll` says in one piece. -/
theorem poll_alone (tailFirst : Bool) (k : Driver) (results : List Nat) :
    ∃ n, run tailFirst ⟨k, .outside, results⟩ (List.replicate n .poll) =
      ⟨(keyboardPoll k).2, .outside, results ++ [(keyboardPoll k).1]⟩ := by
  by_cases hempty : k.head = k.tail
  · refine ⟨2, ?_⟩
    cases tailFirst <;> simp [run, step, pollStep, keyboardPoll, hempty]
  · refine ⟨7, ?_⟩
    cases tailFirst <;> simp [run, List.replicate_succ, step, pollStep, keyboardPoll, hempty]

/-- **The keyboard queue loses, doubles and reorders nothing**, wherever the interrupts
fall between the reads and writes of the polls. -/
theorem lossless_fifo (tailFirst : Bool) (k : Driver) (es : List Event) :
    let s := run tailFirst (boot k) es
    s.returned ++ s.poll.held ++ s.kbd.queued = accepted (pushes tailFirst (boot k) es) ∧
      s.kbd.head < 128 ∧ s.kbd.tail < 128 ∧ (∀ key ∈ s.kbd.queued, key ≠ 0) ∧
      (s.kbd.queued.length = 127 → ∀ key, push s.kbd key = s.kbd) := by
  intro s
  have h : Lossless (accepted (pushes tailFirst (boot k) es)) s :=
    (boot_lossless k).run tailFirst es
  exact ⟨h.fifo, h.bounded.head_lt, h.bounded.tail_lt, h.nonzero,
    fun hfull key => push_full h.bounded hfull key⟩

end LightningOS.Keyboard
