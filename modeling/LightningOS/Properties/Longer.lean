import LightningOS.Properties.RoundTrip

/-!
# A payload and a longer one

A reader that has the same bytes in front of it and some more behind them reads the same
records, as long as there are any. A length that is too small ends in the middle of a record,
and one that is too large adds bytes that nobody reads: with the right counts, the reader
either fails or restores what it would have restored.
-/

namespace LightningOS.Persist

open ByteMemory CString Ramfs Users Ata Forest

/-! ## A reader with more to read -/

/-- The reader `q` is where `r` is, with `more` behind the end of `r`. -/
structure Longer (more : List UInt8) (r q : Reader) : Prop where
  ok : r.Ok
  ok' : q.Ok
  bad : q.bad = r.bad
  left : q.left = r.left ++ more

variable {more rest : List UInt8} {r q : Reader}

theorem Longer.took {bytes : List UInt8} {r₁ q₁ : Reader} (h : Longer more r q)
    (hr : Took bytes r r₁) (hq : Took bytes q q₁) : Longer more r₁ q₁ where
  ok := hr.ok
  ok' := hq.ok
  bad := by rw [hq.bad, hr.bad, h.bad]
  left := by
    have hleft := h.left
    rw [hr.left, hq.left, List.append_assoc] at hleft
    exact List.append_cancel_left hleft

/-- A record that the longer reader has in front of it is in front of the other one, too, if
that one has as many bytes. -/
theorem Longer.enough {bytes : List UInt8} (h : Longer more r q) (hq : q.left = bytes ++ rest)
    (hlen : bytes.length ≤ r.left.length) : ∃ l, r.left = bytes ++ l ∧ l ++ more = rest := by
  have heq : r.left ++ more = bytes ++ rest := h.left.symm.trans hq
  rcases List.append_eq_append_iff.mp heq with ⟨l, hbytes, hmore⟩ | ⟨l, hleft, hrest⟩
  · have hnil : l = [] := by
      rw [hbytes, List.length_append] at hlen
      exact List.length_eq_zero_iff.mp (by omega)
    subst hnil
    rw [List.append_nil] at hbytes
    exact ⟨[], by rw [hbytes, List.append_nil], hmore⟩
  · exact ⟨l, hleft, hrest.symm⟩

theorem takeBytes_longer (h : Longer more r q) {n : Nat} (hn : n ≤ 65535) {out : List UInt8}
    {r₁ : Reader} (hr : takeBytes r n = (some out, r₁)) :
    ∃ q₁, takeBytes q n = (some out, q₁) ∧ Longer more r₁ q₁ := by
  rw [h.ok.takeBytes (h.ok.no_wrap hn)] at hr
  rw [h.ok'.takeBytes (h.ok'.no_wrap hn)]
  by_cases hle : n ≤ r.left.length
  · have hle' : n ≤ q.left.length := by
      rw [h.left, List.length_append]
      omega
    rw [if_pos hle, Prod.mk.injEq, Option.some.injEq] at hr
    obtain ⟨rfl, rfl⟩ := hr
    refine ⟨q.advance n, ?_, h.ok.advance hle, h.ok'.advance hle', h.bad, ?_⟩
    · rw [if_pos hle', h.left, List.take_append_of_le_length hle]
    · rw [Reader.left_advance, Reader.left_advance, h.left, List.drop_append_of_le_length hle]
  · rw [if_neg hle, Prod.mk.injEq] at hr
    exact absurd hr.1.symm (Option.some_ne_none _)

theorem takeNumber_longer (h : Longer more r q) {n v : Nat} (hn : n ≤ 65535) {r₁ : Reader}
    (hr : takeNumber r n = (v, r₁)) (hgood : r₁.bad = false) :
    ∃ q₁, takeNumber q n = (v, q₁) ∧ Longer more r₁ q₁ := by
  unfold takeNumber at hr ⊢
  rcases htake : takeBytes r n with ⟨out, r₂⟩
  rw [htake] at hr
  cases out with
  | none =>
    rw [Prod.mk.injEq] at hr
    obtain ⟨-, rfl⟩ := hr
    rw [takeBytes_none htake] at hgood
    exact absurd hgood (by decide)
  | some out =>
    rw [Prod.mk.injEq] at hr
    obtain ⟨rfl, rfl⟩ := hr
    obtain ⟨q₁, hq, hlonger⟩ := takeBytes_longer h hn htake
    exact ⟨q₁, by rw [hq], hlonger⟩

/-- A reader that is bad stays so. -/
theorem takeNumber_good {n v : Nat} {r₁ : Reader} (hr : takeNumber r n = (v, r₁))
    (hgood : r₁.bad = false) : r.bad = false := by
  unfold takeNumber takeBytes at hr
  split at hr
  next hnone =>
    split at hnone
    · rw [Prod.mk.injEq] at hr hnone
      rw [← hr.2, ← hnone.2] at hgood
      exact absurd hgood (by simp)
    · simp at hnone
  next hsome =>
    split at hsome
    · simp at hsome
    · rw [Prod.mk.injEq] at hr hsome
      rw [← hr.2, ← hsome.2] at hgood
      exact hgood

theorem takeString_longer (h : Longer more r q) {outSize : Nat} {s : List UInt8} {r₁ : Reader}
    (hr : takeString r outSize = (some s, r₁)) :
    ∃ q₁, takeString q outSize = (some s, q₁) ∧ Longer more r₁ q₁ := by
  have hlt := takeNumber_lt r 1
  unfold takeString takeU8 at hr ⊢
  rcases hnum : takeNumber r 1 with ⟨length, r₂⟩
  rw [hnum] at hr hlt
  dsimp only at hr hlt
  split at hr
  · simp at hr
  next hgood =>
    rw [not_or, Bool.not_eq_true] at hgood
    obtain ⟨q₂, hq, h₂⟩ := takeNumber_longer h (by decide) hnum hgood.1
    rw [hq]
    dsimp only
    rcases htake : takeBytes r₂ length with ⟨out, r₃⟩
    rw [htake] at hr
    cases out with
    | none => simp at hr
    | some out =>
      rw [Prod.mk.injEq, Option.some.injEq] at hr
      obtain ⟨rfl, rfl⟩ := hr
      obtain ⟨q₃, hq₃, h₃⟩ := takeBytes_longer h₂ (by omega) htake
      have hbad : ¬(q₂.bad = true ∨ outSize ≤ length) := by
        rw [h₂.bad, hgood.1]
        simpa using hgood.2
      exact ⟨q₃, by rw [if_neg hbad, hq₃], h₃⟩

theorem takeUser_longer (h : Longer more r q) {u : User} {r₁ : Reader}
    (hr : takeUser r = (some u, r₁)) : ∃ q₁, takeUser q = (some u, q₁) ∧ Longer more r₁ q₁ := by
  obtain ⟨name, a₁, hname, hcases⟩ := takeUser_cases r
  rcases hcases with ⟨-, heq⟩ | ⟨n, home, a₂, rfl, hhome, hcases⟩
  · rw [heq] at hr
    simp at hr
  rcases hcases with ⟨-, heq⟩ | ⟨m, uid, a₃, gid, a₄, hash, a₅, rfl, huid, hgid, hhash, heq⟩
  · rw [heq] at hr
    simp at hr
  rw [heq, Prod.mk.injEq] at hr
  obtain ⟨hu, rfl⟩ := hr
  have h₅ : a₅.bad = false := by
    cases hbad : a₅.bad with
    | false => rfl
    | true =>
      rw [hbad, if_pos rfl] at hu
      exact absurd hu.symm (Option.some_ne_none _)
  have h₄ := takeNumber_good hhash h₅
  have h₃ := takeNumber_good hgid h₄
  obtain ⟨b₁, hname', l₁⟩ := takeString_longer h hname
  obtain ⟨b₂, hhome', l₂⟩ := takeString_longer l₁ hhome
  obtain ⟨b₃, huid', l₃⟩ := takeNumber_longer l₂ (by decide) huid h₃
  obtain ⟨b₄, hgid', l₄⟩ := takeNumber_longer l₃ (by decide) hgid h₄
  obtain ⟨b₅, hhash', l₅⟩ := takeNumber_longer l₄ (by decide) hhash h₅
  refine ⟨b₅, ?_, l₅⟩
  simp only [takeUser, hname', hhome', takeU32, huid', hgid', hhash']
  rw [l₅.bad, h₅, if_neg (by decide)]
  rw [h₅, if_neg (by decide)] at hu
  rw [hu]

theorem takeHead_longer (h : Longer more r q) {head : NodeHead} {r₁ : Reader}
    (hr : takeHead r = (some head, r₁)) : ∃ q₁, takeHead q = (some head, q₁) ∧ Longer more r₁ q₁ := by
  obtain ⟨kind, a₁, pathLen, a₂, dataLen, a₃, hkind, hpath, hdata, hcases⟩ := takeHead_cases r
  rcases hcases with ⟨-, heq⟩ | ⟨h₃, hpos, hlen, out, a₄, htake, heq⟩
  · rw [heq] at hr
    simp at hr
  rw [heq, Prod.mk.injEq, Option.map_eq_some_iff] at hr
  obtain ⟨⟨path, rfl, rfl⟩, rfl⟩ := hr
  have h₂ := takeNumber_good hdata h₃
  have h₁ := takeNumber_good hpath h₂
  obtain ⟨b₁, hkind', l₁⟩ := takeNumber_longer h (by decide) hkind h₁
  obtain ⟨b₂, hpath', l₂⟩ := takeNumber_longer l₁ (by decide) hpath h₂
  obtain ⟨b₃, hdata', l₃⟩ := takeNumber_longer l₂ (by decide) hdata h₃
  obtain ⟨b₄, htake', l₄⟩ :=
    takeBytes_longer l₃ (Nat.le_trans (Nat.le_of_lt hlen) (by decide)) htake
  refine ⟨b₄, ?_, l₄⟩
  obtain ⟨kind', c₁, pathLen', c₂, dataLen', c₃, hk, hp, hd, hcases⟩ := takeHead_cases q
  rw [hkind', Prod.mk.injEq] at hk
  obtain ⟨rfl, rfl⟩ := hk
  rw [hpath', Prod.mk.injEq] at hp
  obtain ⟨rfl, rfl⟩ := hp
  rw [hdata', Prod.mk.injEq] at hd
  obtain ⟨rfl, rfl⟩ := hd
  rcases hcases with ⟨hbad, -⟩ | ⟨-, -, -, out', c₄, htake'', heq'⟩
  · rcases hbad with hbad | hzero | hlong
    · rw [l₃.bad, h₃] at hbad
      exact absurd hbad (by decide)
    · omega
    · omega
  · rw [htake', Prod.mk.injEq] at htake''
    obtain ⟨rfl, rfl⟩ := htake''
    exact heq'

/-! ## The loops -/

variable {env : Env}

/-- How many bytes are left behind a record. -/
theorem Longer.lengths {bytes : List UInt8} {r₁ q₁ : Reader} (h : Longer more r q)
    (h₁ : Longer more r₁ q₁) (hq : Took bytes q q₁) :
    r.left.length = bytes.length + r₁.left.length := by
  have hleft := congrArg List.length hq.left
  rw [h.left, h₁.left, List.length_append, List.length_append, List.length_append] at hleft
  omega

variable (env) in
/-- The accounts: the reader that is short of them fails, and otherwise both read the same. -/
theorem mountUsers_longer {us : List User} : ∀ {r q : Reader} (t : Table) (s : Fs),
    Longer more r q → r.bad = false → (∀ u ∈ us, Recordable u) →
    q.left = us.flatMap userRecord ++ rest →
    (r.left.length < (us.flatMap userRecord).length ∧
      ∃ r' x, mountUsers env us.length r t s = (r', some x) ∧ r'.bad = true) ∨
    ∃ r' q' o, mountUsers env us.length r t s = (r', o) ∧
      mountUsers env us.length q t s = (q', o) ∧
      (o ≠ none → Longer more r' q' ∧ r'.bad = false ∧ q'.left = rest ∧
        r.left.length = (us.flatMap userRecord).length + r'.left.length) := by
  induction us with
  | nil =>
    intro r q t s h hbad _ hq
    refine Or.inr ⟨r, q, some (t, s), rfl, rfl, fun _ => ⟨h, hbad, hq, ?_⟩⟩
    rw [List.flatMap_nil, List.length_nil, Nat.zero_add]
  | cons u us ih =>
    intro r q t s h hbad hus hq
    rw [List.flatMap_cons, List.append_assoc] at hq
    rw [List.flatMap_cons, List.length_append]
    have hbad' : q.bad = false := h.bad.trans hbad
    obtain ⟨q₁, htakeq, tookq⟩ := takeUser_took h.ok' hbad' (hus u List.mem_cons_self) hq
    rcases htake : takeUser r with ⟨out, r₁⟩
    cases out with
    | none =>
      have hshort : r.left.length < (userRecord u).length := by
        by_contra hlen
        obtain ⟨l, hl, -⟩ := h.enough hq (Nat.not_lt.mp hlen)
        obtain ⟨r₂, hsome, -⟩ := takeUser_took h.ok hbad (hus u List.mem_cons_self) hl
        rw [htake] at hsome
        simp at hsome
      refine Or.inl ⟨by omega, r₁, (t, s), ?_, takeUser_none htake⟩
      simp only [List.length_cons, mountUsers, hbad, Bool.false_eq_true, if_false, htake]
    | some v =>
      obtain ⟨q₂, htakeq', h₁⟩ := takeUser_longer h htake
      rw [htakeq, Prod.mk.injEq, Option.some.injEq] at htakeq'
      obtain ⟨rfl, rfl⟩ := htakeq'
      have hlen := h.lengths h₁ tookq
      have hbad₁ : r₁.bad = false := by rw [← h₁.bad, tookq.bad, hbad']
      have hus' : ∀ v ∈ us, Recordable v := fun v hv => hus v (List.mem_cons_of_mem _ hv)
      cases hstep : usersImport env t s u.name u.home u.uid u.gid u.pwHash with
      | none =>
        refine Or.inr ⟨r₁, q₁, none, ?_, ?_, fun hne => absurd rfl hne⟩
        · simp only [List.length_cons, mountUsers, hbad, Bool.false_eq_true, if_false, htake, hstep]
        · simp only [List.length_cons, mountUsers, hbad', Bool.false_eq_true, if_false, htakeq, hstep]
      | some result =>
        obtain ⟨res, t₁, s₁⟩ := result
        have hr : mountUsers env (us.length + 1) r t s = mountUsers env us.length r₁ t₁ s₁ := by
          simp only [mountUsers, hbad, Bool.false_eq_true, if_false, htake, hstep]
        have hq' : mountUsers env (us.length + 1) q t s = mountUsers env us.length q₁ t₁ s₁ := by
          simp only [mountUsers, hbad', Bool.false_eq_true, if_false, htakeq, hstep]
        rw [List.length_cons, hr, hq']
        rcases ih t₁ s₁ h₁ hbad₁ hus' (tookq.rest hq) with
          ⟨hshort, hfails⟩ | ⟨r', q', o, hloop, hloop', hsame⟩
        · exact Or.inl ⟨by omega, hfails⟩
        · refine Or.inr ⟨r', q', o, hloop, hloop', fun hne => ?_⟩
          obtain ⟨hlonger, hgood, hrest, hlen'⟩ := hsame hne
          exact ⟨hlonger, hgood, hrest, by omega⟩

variable (env) in
/-- A record that is cut off: the reader fails in it. -/
theorem mountNodes_short (h : Longer more r q) (hbad : r.bad = false) {e : Entry} (he : e.Ok)
    (hq : q.left = e.bytes ++ rest) (hshort : r.left.length < e.bytes.length) (n : Nat) (s : Fs) :
    (restoreEntry env s e = none ∧ ∃ r', mountNodes env (n + 1) r s = (r', none)) ∨
      ∃ r' s', mountNodes env (n + 1) r s = (r', some s') ∧ r'.bad = true := by
  rcases htake : takeHead r with ⟨out, r₁⟩
  cases out with
  | none =>
    refine Or.inr ⟨r₁, s, ?_, takeHead_none htake⟩
    simp only [mountNodes, hbad, Bool.false_eq_true, if_false, htake]
  | some head =>
    obtain ⟨q₁, htakeq, h₁⟩ := takeHead_longer h htake
    obtain ⟨q₂, b, htakeq', tookq, hdata, hbytes⟩ :=
      takeHead_took h.ok' (h.bad.trans hbad) he hq
    rw [htakeq, Prod.mk.injEq, Option.some.injEq] at htakeq'
    obtain ⟨rfl, rfl⟩ := htakeq'
    have hlen := h.lengths h₁ tookq
    rw [hbytes, List.length_append] at hshort
    unfold restoreEntry
    cases hcreate : createOrResolve env s e.head with
    | none =>
      refine Or.inl ⟨rfl, r₁, ?_⟩
      simp only [mountNodes, hbad, Bool.false_eq_true, if_false, htake, hcreate]
    | some result =>
      obtain ⟨node, s₁⟩ := result
      rw [mountNodes_some hbad htake hcreate]
      have hdlen : e.head.dataLen = e.data.length := rfl
      have hmissing : r₁.left.length < e.data.length := by omega
      have hpos : e.data.length ≠ 0 := by omega
      have hleft := h₁.ok.left_length
      have hle := h₁.ok.pos
      have hmax : r₁.length ≤ 1024 * 1024 := h₁.ok.length
      have hmax' : q₁.length ≤ 1024 * 1024 := h₁.ok'.length
      have hfits : e.data.length ≤ q₁.left.length := by
        rw [hdata, List.length_append]
        omega
      have hleft' := h₁.ok'.left_length
      rw [hdlen, if_neg hpos, wrap32_of_lt (by omega), if_pos (by omega)]
      exact Or.inr ⟨_, s₁, rfl, rfl⟩

variable (env) in
/-- The nodes: the reader that is short of them fails, and otherwise both read the same. -/
theorem mountNodes_longer {es : List Entry} : ∀ {r q : Reader} (s : Fs),
    Longer more r q → r.bad = false → (∀ e ∈ es, e.Ok) →
    q.left = es.flatMap Entry.bytes ++ rest →
    (r.left.length < (es.flatMap Entry.bytes).length ∧
      ∃ r' s', mountNodes env es.length r s = (r', some s') ∧ r'.bad = true) ∨
    ∃ r' q' o, mountNodes env es.length r s = (r', o) ∧
      mountNodes env es.length q s = (q', o) ∧
      (o ≠ none → Longer more r' q' ∧ r'.bad = false ∧ q'.left = rest) := by
  induction es with
  | nil =>
    intro r q s h hbad _ hq
    exact Or.inr ⟨r, q, some s, rfl, rfl, fun _ => ⟨h, hbad, hq⟩⟩
  | cons e es ih =>
    intro r q s h hbad hes hq
    rw [List.flatMap_cons, List.append_assoc] at hq
    rw [List.flatMap_cons, List.length_append, List.length_cons]
    have hbad' : q.bad = false := h.bad.trans hbad
    have he : e.Ok := hes e List.mem_cons_self
    obtain ⟨q₁, tookq, hqstep⟩ := mountNodes_record env es.length h.ok' hbad' he hq s
    by_cases hshort : r.left.length < e.bytes.length
    · rcases mountNodes_short env h hbad he hq hshort es.length s with
        ⟨hnone, r', hr⟩ | hfails
      · rcases hqstep with ⟨-, q', hq'⟩ | ⟨s', hsome, -⟩
        · exact Or.inr ⟨r', q', none, hr, hq', fun hne => absurd rfl hne⟩
        · rw [hnone] at hsome
          exact absurd hsome.symm (Option.some_ne_none _)
      · exact Or.inl ⟨by omega, hfails⟩
    · obtain ⟨l, hl, -⟩ := h.enough hq (Nat.not_lt.mp hshort)
      obtain ⟨r₁, tookr, hrstep⟩ := mountNodes_record env es.length h.ok hbad he hl s
      have h₁ := h.took tookr tookq
      rcases hrstep with ⟨hnone, r', hr⟩ | ⟨s', hsome, hr⟩
      · rcases hqstep with ⟨-, q', hq'⟩ | ⟨s', hsome, -⟩
        · exact Or.inr ⟨r', q', none, hr, hq', fun hne => absurd rfl hne⟩
        · rw [hnone] at hsome
          exact absurd hsome.symm (Option.some_ne_none _)
      · rcases hqstep with ⟨hnone, -⟩ | ⟨s'', hsome', hq'⟩
        · rw [hsome] at hnone
          exact absurd hnone (Option.some_ne_none _)
        · rw [hsome] at hsome'
          obtain rfl := Option.some.inj hsome'
          rw [hr, hq']
          have hes' : ∀ x ∈ es, x.Ok := fun x hx => hes x (List.mem_cons_of_mem _ hx)
          have hlen := h.lengths h₁ tookq
          rcases ih s' h₁ (tookr.bad.trans hbad) hes' (tookq.rest hq) with
            ⟨hlater, hfails⟩ | hsame
          · exact Or.inl ⟨by omega, hfails⟩
          · exact Or.inr hsame

theorem mountNodes_add (n m : Nat) : ∀ (r : Reader) (s : Fs),
    mountNodes env (n + m) r s = match mountNodes env n r s with
      | (r', none) => (r', none)
      | (r', some s') => mountNodes env m r' s' := by
  induction n with
  | zero =>
    intro r s
    rw [Nat.zero_add]
    rfl
  | succ n ih =>
    intro r s
    rw [Nat.add_right_comm]
    cases hbad : r.bad with
    | true =>
      rw [mountNodes_bad hbad, mountNodes_bad hbad]
      exact (mountNodes_bad hbad).symm
    | false =>
      rcases htake : takeHead r with ⟨out, r₁⟩
      cases out with
      | none =>
        simp only [mountNodes, hbad, Bool.false_eq_true, if_false, htake]
        rw [mountNodes_bad (takeHead_none htake)]
      | some head =>
        cases hcreate : createOrResolve env s head with
        | none => simp only [mountNodes_fault hbad htake hcreate]
        | some result =>
          obtain ⟨node, s₁⟩ := result
          rw [mountNodes_some hbad htake hcreate, mountNodes_some hbad htake hcreate]
          split
          · exact ih r₁ s₁
          · split
            · exact (mountNodes_bad (r := r₁.fail) rfl).symm
            · cases writeData env s₁ node (r₁.buffer.drop r₁.pos) head.dataLen with
              | none => rfl
              | some s₂ => exact ih _ s₂

/-- At the end of the payload there is no record. -/
theorem takeHead_end (h : r.Ok) (hleft : r.left = []) : ∃ r', takeHead r = (none, r') := by
  obtain ⟨kind, r₁, pathLen, r₂, dataLen, r₃, hkind, hpath, hdata, hcases⟩ := takeHead_cases r
  rcases hcases with ⟨-, heq⟩ | ⟨h₃, -⟩
  · exact ⟨_, heq⟩
  · have h₁ := takeNumber_good hpath (takeNumber_good hdata h₃)
    unfold takeNumber at hkind
    rw [h.takeBytes (h.no_wrap (by decide)), hleft, if_neg (by decide), Prod.mk.injEq] at hkind
    rw [← hkind.2] at h₁
    exact absurd h₁ (by simp [Reader.fail])

theorem mountNodes_end (h : r.Ok) (hleft : r.left = []) (n : Nat) (s : Fs) :
    ∃ r', mountNodes env (n + 1) r s = (r', some s) ∧ r'.bad = true := by
  cases hbad : r.bad with
  | true => exact ⟨r, mountNodes_bad hbad, hbad⟩
  | false =>
    obtain ⟨r', htake⟩ := takeHead_end h hleft
    refine ⟨r', ?_, takeHead_none htake⟩
    simp only [mountNodes, hbad, Bool.false_eq_true, if_false, htake]

/-! ## Accounts in the place of nodes -/

theorem userRecord_start {u : User} (hu : Recordable u) (hlong : 2 ≤ u.name.length ∨ u.home ≠ []) :
    ∃ a b c tail, userRecord u = a :: b :: c :: tail ∧ c ≠ 0 := by
  have hname := hu.name
  have hhome := hu.home
  have hne : ∀ {x : UInt8} {s : List UInt8}, (0 : UInt8) ∉ s → x ∈ s → x ≠ 0 := by
    rintro x s h0 hx rfl
    exact h0 hx
  have htake : ∀ {s : List UInt8}, s.length < 256 → stringRecord s = UInt8.ofNat s.length :: s := by
    intro s hs
    rw [stringRecord, Nat.mod_eq_of_lt hs, List.take_length]
  have hmax : userNameMax ≤ 256 ∧ userHomeMax ≤ 256 := by decide
  simp only [userRecord, htake (Nat.lt_of_lt_of_le hname hmax.1),
    htake (Nat.lt_of_lt_of_le hhome hmax.2), List.append_assoc, List.cons_append]
  rcases hn : u.name with _ | ⟨x, _ | ⟨y, name⟩⟩
  · rw [hn] at hlong
    obtain ⟨z, home, hz⟩ := List.exists_cons_of_ne_nil (hlong.resolve_left (by simp))
    rw [hz]
    exact ⟨_, _, z, _, rfl, hne hu.home0 (hz ▸ List.mem_cons_self)⟩
  · rw [hn] at hlong
    have hpos : 0 < u.home.length := List.length_pos_iff.mpr (hlong.resolve_left (by simp))
    refine ⟨_, x, _, _, rfl, fun hzero => ?_⟩
    have hvalue := congrArg UInt8.toNat hzero
    rw [UInt8.toNat_ofNat'] at hvalue
    have hsmall : userHomeMax ≤ 255 := by decide
    simp only [UInt8.toNat_zero] at hvalue
    omega
  · exact ⟨_, x, y, _, rfl, hne hu.name0 (by rw [hn]; simp)⟩

/-- The name or the home of an account is no length of a path. -/
theorem takeHead_account (h : r.Ok) {u : User} (hu : Recordable u)
    (hlong : 2 ≤ u.name.length ∨ u.home ≠ []) (hleft : r.left = userRecord u ++ rest) :
    ∃ r', takeHead r = (none, r') := by
  obtain ⟨a, b, c, tail, hrecord, hc⟩ := userRecord_start hu hlong
  rw [hrecord] at hleft
  obtain ⟨r₁, hkind, htook⟩ := takeU8_took h hleft
  obtain ⟨r₂, hlength, -⟩ := takeNumber_took (n := 2) htook.ok
    (htook.rest hleft : r₁.left = [b, c] ++ (tail ++ rest)) rfl rfl
  obtain ⟨kind, a₁, pathLen, a₂, dataLen, a₃, hk, hp, -, hcases⟩ := takeHead_cases r
  rw [hkind, Prod.mk.injEq] at hk
  obtain ⟨-, rfl⟩ := hk
  rw [hlength, Prod.mk.injEq] at hp
  obtain ⟨rfl, -⟩ := hp
  rcases hcases with ⟨-, heq⟩ | ⟨-, -, hlt, -⟩
  · exact ⟨_, heq⟩
  · have hpos : c.toNat ≠ 0 := fun hzero => hc (UInt8.toNat_inj.mp hzero)
    simp only [leValue, fsPathMax] at hlt
    omega

/-- The reader that goes over the accounts comes to what is behind them, or fails. -/
theorem skipUsers_longer {us : List User} : ∀ {r q : Reader}, Longer more r q → q.bad = false →
    (∀ u ∈ us, Recordable u) → q.left = us.flatMap userRecord ++ rest →
    (skipUsers us.length r).bad = true ∨
      ∃ q', Longer more (skipUsers us.length r) q' ∧ q'.bad = false ∧ q'.left = rest := by
  induction us with
  | nil =>
    intro r q h hbad _ hq
    exact Or.inr ⟨q, h, hbad, hq⟩
  | cons u us ih =>
    intro r q h hbad hus hq
    rw [List.flatMap_cons, List.append_assoc] at hq
    obtain ⟨q₁, htakeq, tookq⟩ := takeUser_took h.ok' hbad (hus u List.mem_cons_self) hq
    rw [List.length_cons, skipUsers, skipUser, if_neg (by rw [← h.bad, hbad]; decide)]
    rcases htake : takeUser r with ⟨out, r₁⟩
    cases out with
    | none =>
      dsimp only
      rw [skipUsers_bad (takeUser_none htake)]
      exact Or.inl (takeUser_none htake)
    | some v =>
      obtain ⟨q₂, htakeq', h₁⟩ := takeUser_longer h htake
      rw [htakeq, Prod.mk.injEq] at htakeq'
      obtain ⟨-, rfl⟩ := htakeq'
      exact ih h₁ (tookq.bad.trans hbad) (fun v hv => hus v (List.mem_cons_of_mem _ hv))
        (tookq.rest hq)

/-- With fewer accounts than there are, the reader takes one of them for a node and fails. -/
theorem mountNodes_account {us vs : List User} {u : User} (h : Longer more r q)
    (hbad : q.bad = false) (hus : ∀ v ∈ us ++ u :: vs, Recordable v)
    (hlong : 2 ≤ u.name.length ∨ u.home ≠ [])
    (hq : q.left = (us ++ u :: vs).flatMap userRecord ++ rest) (n : Nat) (s : Fs) :
    ∃ r', mountNodes env (n + 1) (skipUsers us.length r) s = (r', some s) ∧ r'.bad = true := by
  rw [List.flatMap_append, List.flatMap_cons, List.append_assoc, List.append_assoc] at hq
  have hu : Recordable u := hus u (List.mem_append_right _ List.mem_cons_self)
  rcases skipUsers_longer h hbad (fun v hv => hus v (List.mem_append_left _ hv)) hq with
    hfails | ⟨q', h', hbad', hq'⟩
  · exact ⟨_, mountNodes_bad hfails, hfails⟩
  · obtain ⟨q₁, htakeq⟩ := takeHead_account h'.ok' hu hlong hq'
    rcases htake : takeHead (skipUsers us.length r) with ⟨out, r₁⟩
    cases out with
    | none =>
      have hgood : (skipUsers us.length r).bad = false := h'.bad ▸ hbad'
      exact ⟨r₁, mountNodes_none hgood htake, takeHead_none htake⟩
    | some head =>
      obtain ⟨q₂, hsome, -⟩ := takeHead_longer h' htake
      rw [htakeq] at hsome
      simp at hsome

/-! ## Restoring -/

/-- What the two loops leave in the place of tree and accounts. -/
def System.given (sys : System) (x : Table × Fs) : System := { sys with fs := x.2, table := x.1 }

variable (env) in
/-- Two payloads, one in front of the other: the shorter one fails if it is short of the records,
and otherwise both give the same. -/
theorem restore_longer {sys sys' : System} (hfs : sys'.fs = sys.fs) (htable : sys'.table = sys.table)
    {super super' : Super} {buffer buffer' : List UInt8} {us : List User} {es : List Entry}
    (h : Longer more (.start super buffer) (.start super' buffer'))
    (hus : ∀ u ∈ us, Recordable u) (hes : ∀ e ∈ es, e.Ok)
    (hq : (Reader.start super' buffer').left = records us es ++ rest)
    (husers : super.userCount = us.length) (hnodes : super.nodeCount = es.length)
    (husers' : super'.userCount = us.length) (hnodes' : super'.nodeCount = es.length) :
    ((Reader.start super buffer).left.length < (records us es).length ∧
      ∃ r' x, restore env sys super buffer = (r', some (sys.given x)) ∧ r'.bad = true) ∨
    ∃ r' q' o, restore env sys super buffer = (r', o.map sys.given) ∧
      restore env sys' super' buffer' = (q', o.map sys'.given) ∧
      (o ≠ none → r'.bad = false ∧ q'.bad = false) := by
  unfold restore
  rw [hfs, htable, husers, hnodes, husers', hnodes']
  rw [records, List.append_assoc] at hq
  rw [records, List.length_append]
  cases fsReset env sys.fs with
  | none => exact Or.inr ⟨_, _, none, rfl, rfl, fun hne => absurd rfl hne⟩
  | some s =>
    dsimp only
    rcases mountUsers_longer env sys.table s h rfl hus hq with
      ⟨hshort, r', x, hloop, hbad⟩ | ⟨r', q', o, hloop, hloop', hsame⟩
    · refine Or.inl ⟨by omega, ?_⟩
      rw [Reader.start] at hloop
      rw [hloop]
      dsimp only
      rw [mountNodes_bad hbad]
      exact ⟨r', x, rfl, hbad⟩
    · rw [Reader.start] at hloop hloop'
      rw [hloop, hloop']
      cases o with
      | none => exact Or.inr ⟨r', q', none, rfl, rfl, fun hne => absurd rfl hne⟩
      | some x =>
        obtain ⟨h', hbad', hq', hlen⟩ := hsame (Option.some_ne_none x)
        dsimp only
        rcases mountNodes_longer env x.2 h' hbad' hes hq' with
          ⟨hshort, r₂, s₂, hnode, hbad⟩ | ⟨r₂, q₂, o, hnode, hnode', hsame'⟩
        · refine Or.inl ⟨by omega, r₂, (x.1, s₂), ?_, hbad⟩
          rw [hnode]
          rfl
        · rw [hnode, hnode']
          cases o with
          | none => exact Or.inr ⟨r₂, q₂, none, rfl, rfl, fun hne => absurd rfl hne⟩
          | some s₂ =>
            obtain ⟨h₂, hgood, -⟩ := hsame' (Option.some_ne_none s₂)
            exact Or.inr ⟨r₂, q₂, some (x.1, s₂), rfl, rfl,
              fun _ => ⟨hgood, h₂.bad.trans hgood⟩⟩

/-- With more nodes than there are records, the reader comes to the end and fails. -/
theorem restore_raised {sys sys' : System} (hfs : sys'.fs = sys.fs) (htable : sys'.table = sys.table)
    {super super' : Super} {buffer buffer' : List UInt8} {us : List User} {es : List Entry}
    (h : Longer more (.start super buffer) (.start super' buffer'))
    (hus : ∀ u ∈ us, Recordable u) (hes : ∀ e ∈ es, e.Ok)
    (hq : (Reader.start super' buffer').left = records us es)
    (husers : super.userCount = us.length) (hnodes : es.length < super.nodeCount)
    (husers' : super'.userCount = us.length) (hnodes' : super'.nodeCount = es.length)
    (hdone : (restore env sys' super' buffer').2 ≠ none) :
    ∃ r' x, restore env sys super buffer = (r', some (sys.given x)) ∧ r'.bad = true := by
  obtain ⟨k, hk⟩ : ∃ k, super.nodeCount = es.length + (k + 1) :=
    ⟨super.nodeCount - es.length - 1, by omega⟩
  unfold restore at hdone ⊢
  rw [hfs, htable, husers', hnodes'] at hdone
  rw [husers, hk]
  cases hreset : fsReset env sys.fs with
  | none => simp [hreset] at hdone
  | some s =>
    rw [hreset] at hdone
    dsimp only at hdone ⊢
    have hq' : (Reader.start super' buffer').left =
        us.flatMap userRecord ++ (es.flatMap Entry.bytes ++ []) := by
      rw [List.append_nil]
      exact hq
    rcases mountUsers_longer env sys.table s h rfl hus hq' with
      ⟨-, r', x, hloop, hbad⟩ | ⟨r', q', o, hloop, hloop', hsame⟩
    · refine ⟨r', x, ?_, hbad⟩
      rw [Reader.start] at hloop
      rw [hloop]
      dsimp only
      rw [mountNodes_bad hbad]
      rfl
    · rw [Reader.start] at hloop hloop'
      rw [hloop'] at hdone
      rw [hloop]
      cases o with
      | none => simp at hdone
      | some x =>
        obtain ⟨h', hbad', hq₁, -⟩ := hsame (Option.some_ne_none x)
        dsimp only at hdone ⊢
        rw [mountNodes_add]
        rcases mountNodes_longer env x.2 h' hbad' hes hq₁ with
          ⟨-, r₂, s₂, hnode, hbad⟩ | ⟨r₂, q₂, o, hnode, hnode', hsame'⟩
        · refine ⟨r₂, (x.1, s₂), ?_, hbad⟩
          rw [hnode]
          dsimp only
          rw [mountNodes_bad hbad]
          rfl
        · rw [hnode'] at hdone
          rw [hnode]
          cases o with
          | none => simp at hdone
          | some s₂ =>
            obtain ⟨h₂, -, hrest⟩ := hsame' (Option.some_ne_none s₂)
            have hleft : r₂.left = [] := (List.append_eq_nil_iff.mp (h₂.left.symm.trans hrest)).1
            obtain ⟨r₃, hend, hbad⟩ := mountNodes_end h₂.ok hleft k s₂
            refine ⟨r₃, (x.1, s₂), ?_, hbad⟩
            dsimp only
            rw [hend]
            rfl

end LightningOS.Persist
