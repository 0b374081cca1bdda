import LightningOS.Kernel.Users

/-!
# The account table

What the calls of `users.c` can do to the table, in any order and with any arguments. The
tree they write `/etc/passwd` to may be another one at every call. Names stay valid and
distinct, the account that is logged in stays active, and an administrator is never lost.
The identity of a new account is fresh as long as the counter for it has not wrapped around.
-/

namespace LightningOS.Users

open ByteMemory CString Ramfs

/-! ## Calls -/

/-- The calls that change the table, with all their arguments but the tree. -/
inductive AccountOp where
  | add (available : Bool) (name password : List UInt8) (admin : Bool)
  | importUser (name home : List UInt8) (uid gid pwHash : UInt32)
  | delete (name : List UInt8)
  | setPassword (name password : List UInt8)
  | switch (name password : List UInt8)
  | logout

variable (env : Env)

/-- The result, the table and the tree after one call. `users_logout` has no result. -/
def accountStep (t : Table) (s : Fs) : AccountOp → Option (Int × Table × Fs)
  | .add available name password admin => usersAdd env available t s name password admin
  | .importUser name home uid gid pwHash => usersImport env t s name home uid gid pwHash
  | .delete name => usersDelete env t s name
  | .setPassword name password =>
    some ((usersSetPassword t name password).1, (usersSetPassword t name password).2, s)
  | .switch name password => usersSwitch t s name password
  | .logout => some (0, usersLogout t, s)

/-- The tables that calls satisfying `ok` lead to, whatever tree each of them works on. -/
inductive Calls (ok : Table → AccountOp → Prop) (t : Table) : Table → Prop
  | refl : Calls ok t t
  | step {t₁ t₂ : Table} {s s' : Fs} {op : AccountOp} {res : Int} : Calls ok t t₁ → ok t₁ op →
      accountStep env t₁ s op = some (res, t₂, s') → Calls ok t t₂

/-! ## Looking up -/

variable {env} {t t' : Table}

theorem freeSlot_spec {i : UserSlot} (h : freeSlot t = some i) : (t.users i).active = false := by
  have := List.find?_some h
  simpa using this

theorem usersFind_some {name : List UInt8} {i : UserSlot} (h : usersFind t name = some i) :
    (t.users i).active = true ∧ (t.users i).name = name := by
  unfold usersFind at h
  split at h
  · simp at h
  · have := List.find?_some h
    simpa using this

theorem usersFind_none {name : List UInt8} (hne : name ≠ []) (h : usersFind t name = none)
    {i : UserSlot} (ha : (t.users i).active = true) : (t.users i).name ≠ name := by
  unfold usersFind at h
  rw [if_neg hne, List.find?_eq_none] at h
  have := h i (List.mem_finRange i)
  simpa [ha] using this

theorem validName_spec {name : List UInt8} (h : validName name = true) :
    name ≠ [] ∧ name.length < userNameMax := by
  unfold validName at h
  cases name with
  | nil => simp at h
  | cons c cs =>
    simp only [Bool.and_eq_true, decide_eq_true_eq] at h
    exact ⟨by simp, h.1.1⟩

@[simp] theorem setUser_current (i : UserSlot) (u : User) : (t.setUser i u).current = t.current :=
  rfl

@[simp] theorem setUser_same (i : UserSlot) (u : User) : (t.setUser i u).users i = u := if_pos rfl

theorem setUser_other {i j : UserSlot} (u : User) (h : j ≠ i) :
    (t.setUser i u).users j = t.users j := if_neg h

/-! ## What one call does -/

/-- A name that `users_import` takes, and `users_add` too if the password is long enough. -/
structure Accepts (t : Table) (name : List UInt8) (slot : UserSlot) : Prop where
  valid : validName name = true
  unused : usersFind t name = none
  free : freeSlot t = some slot

/-- The changes a call can make. -/
inductive Changed (t : Table) : Table → Prop
  | insert {slot : UserSlot} {u : User} {next : UInt32} : Accepts t u.name slot →
      u.active = true → Changed t { t.setUser slot u with nextUid := next }
  | remove {i : UserSlot} : (t.users i).active = true → (t.users i).uid ≠ 0 →
      t.current ≠ some i → Changed t (t.setUser i { t.users i with active := false })
  | password {i : UserSlot} {hash : UInt32} : (t.users i).active = true →
      Changed t (t.setUser i { t.users i with pwHash := hash })
  | login {i : UserSlot} : (t.users i).active = true → Changed t { t with current := some i }
  | logout : Changed t (usersLogout t)

/-- A call that gives up changes nothing. -/
theorem refused_same {s s' : Fs} {r res : Int} (hr : r < 0)
    (h : some (r, t, s) = some (res, t', s')) : res < 0 ∧ t' = t ∧ s' = s := by
  simp only [Option.some.injEq, Prod.mk.injEq] at h
  obtain ⟨rfl, rfl, rfl⟩ := h
  exact ⟨hr, rfl, rfl⟩

/-- What `users_add` does: nothing, or one new account with its home directory, and then the
file of the accounts. -/
theorem usersAdd_spec {available admin : Bool} {s s' : Fs} {name password : List UInt8} {res : Int}
    (h : usersAdd env available t s name password admin = some (res, t', s')) :
    (res < 0 ∧ t' = t ∧ s' = s) ∨ (res = 0 ∧ passwordMin ≤ password.length ∧ ∃ slot u s₁,
      Accepts t name slot ∧ u.name = name ∧ u.active = true ∧
        u.home = (if admin then ofString "/root"
          else (ofString "/home/" ++ name).take (userHomeMax - 1)) ∧
        u.uid = (if admin then 0 else t.nextUid) ∧
        makeHome env available u.home s = some s₁ ∧ syncPasswdFile env t' s₁ = some s' ∧
        t' = { t.setUser slot u with nextUid := if admin then t.nextUid else t.nextUid + 1 }) := by
  unfold usersAdd at h
  by_cases h1 : validName name = false
  · rw [if_pos h1] at h
    exact Or.inl (refused_same (by decide) h)
  rw [if_neg h1] at h
  have hvalid : validName name = true := by simpa using h1
  by_cases h2 : usersFind t name ≠ none
  · rw [if_pos h2] at h
    exact Or.inl (refused_same (by decide) h)
  rw [if_neg h2] at h
  by_cases h3 : password.length < passwordMin
  · rw [if_pos h3] at h
    exact Or.inl (refused_same (by decide) h)
  rw [if_neg h3] at h
  cases hslot : freeSlot t with
  | none =>
    simp only [hslot] at h
    exact Or.inl (refused_same (by decide) h)
  | some slot =>
    simp only [hslot] at h
    split at h
    · simp at h
    next s₁ hhome =>
      simp only [Option.map_eq_some_iff, Prod.mk.injEq] at h
      obtain ⟨s₂, hsync, rfl, rfl, rfl⟩ := h
      have hlen := (validName_spec hvalid).2
      refine Or.inr ⟨rfl, by omega, slot, _, s₁, ⟨hvalid, by simpa using h2, hslot⟩, ?_, ?_, ?_,
        ?_, hhome, hsync, rfl⟩
      · exact List.take_of_length_le (by unfold userNameMax at *; omega)
      · rfl
      · rfl
      · rfl

/-- What `users_import` does: nothing, or one new account with the identity it was given. -/
theorem usersImport_spec {s s' : Fs} {name home : List UInt8} {uid gid pwHash : UInt32} {res : Int}
    (h : usersImport env t s name home uid gid pwHash = some (res, t', s')) :
    (res < 0 ∧ t' = t ∧ s' = s) ∨ (res = 0 ∧ syncPasswdFile env t' s = some s' ∧ ∃ slot,
      Accepts t name slot ∧
        t' = { t.setUser slot { name := name, home := home.take (userHomeMax - 1), uid := uid,
                                gid := gid, pwHash := pwHash, active := true } with
               nextUid := if t.nextUid ≤ uid then uid + 1 else t.nextUid }) := by
  unfold usersImport at h
  by_cases h1 : validName name = false ∨ usersFind t name ≠ none
  · rw [if_pos h1] at h
    exact Or.inl (refused_same (by decide) h)
  rw [if_neg h1] at h
  rw [not_or] at h1
  have hvalid : validName name = true := by simpa using h1.1
  cases hslot : freeSlot t with
  | none =>
    simp only [hslot] at h
    exact Or.inl (refused_same (by decide) h)
  | some slot =>
    simp only [hslot, Option.map_eq_some_iff, Prod.mk.injEq] at h
    obtain ⟨s₂, hsync, rfl, rfl, rfl⟩ := h
    have hlen := (validName_spec hvalid).2
    have htake : name.take (userNameMax - 1) = name :=
      List.take_of_length_le (by unfold userNameMax at *; omega)
    exact Or.inr ⟨rfl, hsync, slot, ⟨hvalid, by simpa using h1.2, hslot⟩, by rw [htake]⟩

/-- What `users_delete` does: nothing, or one account goes out of use. -/
theorem usersDelete_spec {s s' : Fs} {name : List UInt8} {res : Int}
    (h : usersDelete env t s name = some (res, t', s')) :
    (res < 0 ∧ t' = t ∧ s' = s) ∨ (res = 0 ∧ syncPasswdFile env t' s = some s' ∧ ∃ i,
      usersFind t name = some i ∧ (t.users i).uid ≠ 0 ∧ t.current ≠ some i ∧
        t' = t.setUser i { t.users i with active := false }) := by
  unfold usersDelete at h
  cases hfind : usersFind t name with
  | none =>
    simp only [hfind] at h
    exact Or.inl (refused_same (by decide) h)
  | some i =>
    simp only [hfind] at h
    by_cases h1 : (t.users i).uid = 0
    · rw [if_pos h1] at h
      exact Or.inl (refused_same (by decide) h)
    by_cases h2 : t.current = some i
    · rw [if_neg h1, if_pos h2] at h
      exact Or.inl (refused_same (by decide) h)
    simp only [if_neg h1, if_neg h2, Option.map_eq_some_iff, Prod.mk.injEq] at h
    obtain ⟨s₂, hsync, rfl, rfl, rfl⟩ := h
    exact Or.inr ⟨rfl, hsync, i, rfl, h1, h2, rfl⟩

theorem usersSetPassword_spec (t : Table) (name password : List UInt8) :
    ((usersSetPassword t name password).1 < 0 ∧ (usersSetPassword t name password).2 = t) ∨
      ((usersSetPassword t name password).1 = 0 ∧ ∃ i, usersFind t name = some i ∧
        (usersSetPassword t name password).2 =
          t.setUser i { t.users i with pwHash := hashPassword password }) := by
  unfold usersSetPassword
  cases hfind : usersFind t name with
  | none => exact Or.inl ⟨by simp, rfl⟩
  | some i =>
    by_cases h : password.length < passwordMin
    · exact Or.inl ⟨by simp [h], by simp [h]⟩
    · exact Or.inr ⟨by simp [h], i, rfl, by simp [h]⟩

theorem usersSwitch_spec {s s' : Fs} {name password : List UInt8} {res : Int}
    (h : usersSwitch t s name password = some (res, t', s')) :
    (res < 0 ∧ t' = t ∧ s' = s) ∨ (res = 0 ∧ ∃ i, usersFind t name = some i ∧
      (t.users i).pwHash = hashPassword password ∧ t' = { t with current := some i } ∧
      ∃ dir, fsSetCwd s dir = some s') := by
  unfold usersSwitch at h
  cases hfind : usersFind t name with
  | none =>
    simp only [hfind] at h
    exact Or.inl (refused_same (by decide) h)
  | some i =>
    simp only [hfind] at h
    by_cases h1 : usersCheckPassword (t.users i) password = false
    · rw [if_pos h1] at h
      exact Or.inl (refused_same (by decide) h)
    rw [if_neg h1] at h
    split at h
    · simp at h
    next dir _ =>
      simp only [Option.map_eq_some_iff, Prod.mk.injEq] at h
      obtain ⟨s₂, hset, rfl, rfl, rfl⟩ := h
      have hok : usersCheckPassword (t.users i) password = true := by simpa using h1
      exact Or.inr ⟨rfl, i, rfl, by simpa [usersCheckPassword] using hok, rfl, dir, hset⟩

/-- **One call.** It fails and changes nothing, or it makes one of the changes. -/
theorem accountStep_cases {s s' : Fs} {op : AccountOp} {res : Int}
    (h : accountStep env t s op = some (res, t', s')) :
    (res < 0 ∧ t' = t) ∨ (res = 0 ∧ Changed t t') := by
  cases op with
  | add available name password admin =>
    rcases usersAdd_spec h with ⟨hfail, heq, -⟩ |
      ⟨hres, -, slot, u, -, hacc, rfl, hactive, -, -, -, -, rfl⟩
    · exact Or.inl ⟨hfail, heq⟩
    · exact Or.inr ⟨hres, .insert hacc hactive⟩
  | importUser name home uid gid pwHash =>
    rcases usersImport_spec h with ⟨hfail, heq, -⟩ | ⟨hres, -, slot, hacc, rfl⟩
    · exact Or.inl ⟨hfail, heq⟩
    · exact Or.inr ⟨hres, .insert hacc rfl⟩
  | delete name =>
    rcases usersDelete_spec h with ⟨hfail, heq, -⟩ | ⟨hres, -, i, hfind, huid, hcur, rfl⟩
    · exact Or.inl ⟨hfail, heq⟩
    · exact Or.inr ⟨hres, .remove (usersFind_some hfind).1 huid hcur⟩
  | setPassword name password =>
    simp only [accountStep, Option.some.injEq, Prod.mk.injEq] at h
    obtain ⟨rfl, rfl, -⟩ := h
    rcases usersSetPassword_spec t name password with hfail | ⟨hres, i, hfind, heq⟩
    · exact Or.inl hfail
    · exact Or.inr ⟨hres, heq ▸ .password (usersFind_some hfind).1⟩
  | switch name password =>
    rcases usersSwitch_spec h with ⟨hres, rfl, -⟩ | ⟨hres, i, hfind, -, rfl, -⟩
    · exact Or.inl ⟨hres, rfl⟩
    · exact Or.inr ⟨hres, .login (usersFind_some hfind).1⟩
  | logout =>
    simp only [accountStep, Option.some.injEq, Prod.mk.injEq] at h
    obtain ⟨rfl, rfl, -⟩ := h
    exact Or.inr ⟨rfl, .logout⟩

/-! ## The invariant of the table -/

/-- Active accounts have valid, distinct names, and the current account is one of them. -/
structure TableInv (t : Table) : Prop where
  valid : ∀ {i}, (t.users i).active = true → validName (t.users i).name = true
  distinct : ∀ {i j}, (t.users i).active = true → (t.users j).active = true →
    (t.users i).name = (t.users j).name → i = j
  current : ∀ {i}, t.current = some i → (t.users i).active = true

/-- There is an administrator. -/
def HasRoot (t : Table) : Prop := ∃ i, (t.users i).active = true ∧ (t.users i).uid = 0

theorem TableInv.init : TableInv usersInit where
  valid h := by simp [usersInit] at h
  distinct h := by simp [usersInit] at h
  current h := by simp [usersInit] at h

theorem TableInv.insert (h : TableInv t) {slot : UserSlot} {u : User} {next : UInt32}
    (hacc : Accepts t u.name slot) :
    TableInv { t.setUser slot u with nextUid := next } := by
  have hne := (validName_spec hacc.valid).1
  have hfree := freeSlot_spec hacc.free
  refine ⟨fun {i} hi => ?_, fun {i j} hi hj hij => ?_, fun {i} hi => ?_⟩
  · by_cases his : i = slot
    · subst his
      rw [setUser_same]
      exact hacc.valid
    · rw [setUser_other u his] at hi ⊢
      exact h.valid hi
  · by_cases his : i = slot
    · by_cases hjs : j = slot
      · rw [his, hjs]
      · subst his
        rw [setUser_other u hjs] at hj hij
        rw [setUser_same] at hij
        exact absurd hij.symm (usersFind_none hne hacc.unused hj)
    · rw [setUser_other u his] at hi hij
      by_cases hjs : j = slot
      · subst hjs
        rw [setUser_same] at hij
        exact absurd hij (usersFind_none hne hacc.unused hi)
      · rw [setUser_other u hjs] at hj hij
        exact h.distinct hi hj hij
  · have hcur := h.current hi
    have his : i ≠ slot := by
      rintro rfl
      rw [hfree] at hcur
      simp at hcur
    rw [setUser_other u his]
    exact hcur

/-- Changing an account in its slot, if its name stays. -/
theorem TableInv.modify (h : TableInv t) {i : UserSlot} {u : User} (hname : u.name = (t.users i).name)
    (hactive : u.active = true → (t.users i).active = true)
    (hcur : t.current = some i → u.active = true) : TableInv (t.setUser i u) := by
  have hold : ∀ {j}, ((t.setUser i u).users j).active = true → (t.users j).active = true ∧
      ((t.setUser i u).users j).name = (t.users j).name := by
    intro j hj
    by_cases hji : j = i
    · subst hji
      rw [setUser_same] at hj ⊢
      exact ⟨hactive hj, hname⟩
    · rw [setUser_other u hji] at hj ⊢
      exact ⟨hj, rfl⟩
  refine ⟨fun {j} hj => ?_, fun {j k} hj hk hjk => ?_, fun {j} hj => ?_⟩
  · obtain ⟨ha, hn⟩ := hold hj
    rw [hn]
    exact h.valid ha
  · obtain ⟨ha, hn⟩ := hold hj
    obtain ⟨ha', hn'⟩ := hold hk
    exact h.distinct ha ha' (by rw [← hn, ← hn', hjk])
  · by_cases hji : j = i
    · subst hji
      rw [setUser_same]
      exact hcur hj
    · rw [setUser_other u hji]
      exact h.current hj

theorem TableInv.changed (h : TableInv t) (hc : Changed t t') : TableInv t' := by
  cases hc with
  | insert hacc _ => exact h.insert hacc
  | remove hi _ hcur => exact h.modify rfl (fun _ => hi) fun hc => absurd hc hcur
  | password hactive => exact h.modify rfl (fun _ => hactive) fun _ => hactive
  | @login i hactive =>
    refine ⟨fun hj => h.valid hj, fun hj hk hjk => h.distinct hj hk hjk, fun {j} hj => ?_⟩
    obtain rfl : i = j := Option.some.inj hj
    exact hactive
  | logout => exact ⟨fun hj => h.valid hj, fun hj hk hjk => h.distinct hj hk hjk, by simp [usersLogout]⟩

/-- No call removes the last administrator. -/
theorem HasRoot.changed (h : HasRoot t) (hc : Changed t t') : HasRoot t' := by
  obtain ⟨j, hactive, huid⟩ := h
  cases hc with
  | @insert slot u next hacc _ =>
    have hfree := freeSlot_spec hacc.free
    have hjs : j ≠ slot := by
      rintro rfl
      rw [hfree] at hactive
      simp at hactive
    refine ⟨j, ?_, ?_⟩
    · show ((t.setUser slot u).users j).active = true
      rw [setUser_other u hjs, hactive]
    · show ((t.setUser slot u).users j).uid = 0
      rw [setUser_other u hjs, huid]
  | @remove i _ hne _ =>
    have hji : j ≠ i := by
      rintro rfl
      exact hne huid
    exact ⟨j, by rw [setUser_other _ hji, hactive], by rw [setUser_other _ hji, huid]⟩
  | @password i hash hi =>
    by_cases hji : j = i
    · subst hji
      exact ⟨j, by rw [setUser_same]; exact hactive, by rw [setUser_same]; exact huid⟩
    · exact ⟨j, by rw [setUser_other _ hji, hactive], by rw [setUser_other _ hji, huid]⟩
  | login _ => exact ⟨j, hactive, huid⟩
  | logout => exact ⟨j, hactive, huid⟩

/-- What a run of calls keeps, from any table. -/
theorem Calls.keeps {ok : Table → AccountOp → Prop} (hrun : Calls env ok t t') :
    (TableInv t → TableInv t') ∧ (HasRoot t → HasRoot t') := by
  induction hrun with
  | refl => exact ⟨id, id⟩
  | step _ _ hstep ih =>
    rcases accountStep_cases hstep with ⟨-, rfl⟩ | ⟨-, hc⟩
    · exact ih
    · exact ⟨fun h => (ih.1 h).changed hc, fun h => (ih.2 h).changed hc⟩

variable (env)

/-- **The account table.** After any calls, names are valid and distinct and the current
account is active; a call that fails changes nothing; and once there is an administrator
there is one for good. -/
theorem accounts_sound (hrun : Calls env (fun _ _ => True) usersInit t) :
    TableInv t ∧
      (∀ s op res t' s', accountStep env t s op = some (res, t', s') → res < 0 → t' = t) ∧
      (HasRoot t → ∀ t', Calls env (fun _ _ => True) t t' → HasRoot t') := by
  refine ⟨hrun.keeps.1 .init, fun s op res t' s' hstep hneg => ?_, fun hroot t' hrun' =>
    hrun'.keeps.2 hroot⟩
  rcases accountStep_cases hstep with ⟨-, heq⟩ | ⟨hres, -⟩
  · exact heq
  · omega

/-- The skeleton that `fs_init` makes. -/
def skeleton : Fs := (fsInit .ample .zero).getD .zero

def alice : List UInt8 := ofString "alice"

def bob : List UInt8 := ofString "bob"

def secret : List UInt8 := ofString "secret"

/-- One administrator, and what is promised about the table then. -/
theorem accounts_sound_alice : ∃ s t, accountStep .ample usersInit skeleton
    (.add true alice secret true) = some (0, t, s) ∧ TableInv t ∧ HasRoot t ∧
      ∀ t', Calls .ample (fun _ _ => True) t t' → HasRoot t' := by
  have h : (accountStep .ample usersInit skeleton (.add true alice secret true)).map (fun r =>
      (r.1, decide ((r.2.1.users ⟨0, by decide⟩).active = true ∧
        (r.2.1.users ⟨0, by decide⟩).uid = 0))) =
      some (0, true) := by decide +kernel
  simp only [Option.map_eq_some_iff, Prod.mk.injEq, decide_eq_true_eq] at h
  obtain ⟨⟨res, t, s⟩, hstep, rfl, hroot⟩ := h
  have hrun : Calls .ample (fun _ _ => True) usersInit t := .step .refl trivial hstep
  obtain ⟨hinv, -, hkeep⟩ := accounts_sound .ample hrun
  exact ⟨s, t, hstep, hinv, ⟨_, hroot⟩, hkeep ⟨_, hroot⟩⟩

/-! ## The identities of new accounts -/

variable {env}

def uidMax : UInt32 := 4294967295

/-- The call does not make `next_uid` wrap around. -/
def CountsOn (t : Table) : AccountOp → Prop
  | .importUser name _ uid _ _ => (∃ slot, Accepts t name slot) → uid ≠ uidMax
  | .add _ name password false =>
    passwordMin ≤ password.length → (∃ slot, Accepts t name slot) → t.nextUid ≠ uidMax
  | _ => True

/-- The counter is above all identities in use. -/
structure Counted (t : Table) : Prop where
  start : 1000 ≤ t.nextUid
  above : ∀ {i}, (t.users i).active = true → (t.users i).uid < t.nextUid

theorem Counted.init : Counted usersInit :=
  ⟨by decide, fun h => by simp [usersInit] at h⟩

theorem lt_add_one {n : UInt32} (h : n ≠ uidMax) : n < n + 1 := by
  have hne : n.toNat ≠ 4294967295 := fun hc => h (UInt32.toNat_inj.mp hc)
  have hlt := n.toNat_lt
  rw [UInt32.lt_iff_toNat_lt, UInt32.toNat_add]
  have hone : (1 : UInt32).toNat = 1 := rfl
  rw [hone, Nat.mod_eq_of_lt (by omega)]
  omega

theorem Counted.insert (h : Counted t) {slot : UserSlot} {u : User} {next : UInt32}
    (hnext : t.nextUid ≤ next) (hu : u.uid < next) :
    Counted { t.setUser slot u with nextUid := next } := by
  refine ⟨UInt32.le_trans h.start hnext, fun {i} hi => ?_⟩
  by_cases his : i = slot
  · subst his
    show ((t.setUser i u).users i).uid < next
    rw [setUser_same]
    exact hu
  · have hi' : ((t.setUser slot u).users i).active = true := hi
    rw [setUser_other u his] at hi'
    show ((t.setUser slot u).users i).uid < next
    rw [setUser_other u his]
    exact UInt32.lt_of_lt_of_le (h.above hi') hnext

theorem Counted.modify (h : Counted t) {i : UserSlot} {u : User} (huid : u.uid = (t.users i).uid)
    (hactive : u.active = true → (t.users i).active = true) : Counted (t.setUser i u) := by
  refine ⟨h.start, fun {j} hj => ?_⟩
  by_cases hji : j = i
  · subst hji
    rw [setUser_same] at hj ⊢
    rw [huid]
    exact h.above (hactive hj)
  · rw [setUser_other u hji] at hj ⊢
    exact h.above hj

theorem Counted.step (h : Counted t) {s s' : Fs} {op : AccountOp} {res : Int}
    (hop : CountsOn t op) (hstep : accountStep env t s op = some (res, t', s')) : Counted t' := by
  cases op with
  | add available name password admin =>
    rcases usersAdd_spec hstep with ⟨-, rfl, -⟩ |
      ⟨-, hpass, slot, u, -, hacc, -, -, -, huid, -, -, rfl⟩
    · exact h
    · cases admin with
      | true =>
        refine h.insert (UInt32.le_refl _) ?_
        rw [huid, if_pos rfl]
        exact UInt32.lt_of_lt_of_le (by decide) h.start
      | false =>
        have hlt := lt_add_one (hop hpass ⟨slot, hacc⟩)
        refine h.insert (UInt32.le_of_lt hlt) ?_
        rw [huid]
        exact hlt
  | importUser name home uid gid pwHash =>
    rcases usersImport_spec hstep with ⟨-, rfl, -⟩ | ⟨-, -, slot, hacc, rfl⟩
    · exact h
    · have hlt := lt_add_one (hop ⟨slot, hacc⟩)
      by_cases hle : t.nextUid ≤ uid
      · rw [if_pos hle]
        exact h.insert (UInt32.le_of_lt (UInt32.lt_of_le_of_lt hle hlt)) hlt
      · rw [if_neg hle]
        exact h.insert (UInt32.le_refl _) (UInt32.not_le.mp hle)
  | delete name =>
    rcases usersDelete_spec hstep with ⟨-, rfl, -⟩ | ⟨-, -, i, hfind, -, -, rfl⟩
    · exact h
    · exact h.modify rfl fun _ => (usersFind_some hfind).1
  | setPassword name password =>
    simp only [accountStep, Option.some.injEq, Prod.mk.injEq] at hstep
    obtain ⟨-, rfl, -⟩ := hstep
    rcases usersSetPassword_spec t name password with ⟨-, heq⟩ | ⟨-, i, hfind, heq⟩
    · rw [heq]
      exact h
    · rw [heq]
      exact h.modify rfl fun _ => (usersFind_some hfind).1
  | switch name password =>
    rcases usersSwitch_spec hstep with ⟨-, rfl, -⟩ | ⟨-, i, -, -, rfl, -⟩
    · exact h
    · exact ⟨h.start, fun hj => h.above hj⟩
  | logout =>
    simp only [accountStep, Option.some.injEq, Prod.mk.injEq] at hstep
    obtain ⟨-, rfl, -⟩ := hstep
    exact ⟨h.start, fun hj => h.above hj⟩

theorem Calls.counted (hrun : Calls env CountsOn t t') (h : Counted t) : Counted t' := by
  induction hrun with
  | refl => exact h
  | step _ hop hstep ih => exact ih.step hop hstep

variable (env)

/-- **New accounts.** After calls none of which wrapped `next_uid` around, an ordinary
account gets an identity from 1000 on that no other active account has. -/
theorem new_uid_fresh (hrun : Calls env CountsOn usersInit t) {available : Bool} {s s' : Fs}
    {name password : List UInt8}
    (hadd : usersAdd env available t s name password false = some (0, t', s')) :
    ∃ slot, (t'.users slot).active = true ∧ (t'.users slot).name = name ∧
      1000 ≤ (t'.users slot).uid ∧
      ∀ j, j ≠ slot → (t'.users j).active = true → (t'.users j).uid ≠ (t'.users slot).uid := by
  have h := hrun.counted .init
  rcases usersAdd_spec hadd with ⟨hneg, -⟩ |
    ⟨-, -, slot, u, -, hacc, hname, hactive, -, huid, -, -, rfl⟩
  · exact absurd hneg (by decide)
  have hsame : (t.setUser slot u).users slot = u := setUser_same slot u
  have huid' : u.uid = t.nextUid := huid
  refine ⟨slot, ?_, ?_, ?_, fun j hj hja => ?_⟩
  · show ((t.setUser slot u).users slot).active = true
    rw [hsame, hactive]
  · show ((t.setUser slot u).users slot).name = name
    rw [hsame, hname]
  · show 1000 ≤ ((t.setUser slot u).users slot).uid
    rw [hsame, huid']
    exact h.start
  · have hother : (t.setUser slot u).users j = t.users j := setUser_other u hj
    have hja' : ((t.setUser slot u).users j).active = true := hja
    show ((t.setUser slot u).users j).uid ≠ ((t.setUser slot u).users slot).uid
    rw [hother] at hja' ⊢
    rw [hsame, huid']
    exact UInt32.ne_of_lt (h.above hja')

/-- After an administrator, the first ordinary account. -/
theorem new_uid_fresh_bob : ∃ s t s' t' slot,
    accountStep .ample usersInit skeleton (.add true alice secret true) = some (0, t, s) ∧
      usersAdd .ample true t s bob secret false = some (0, t', s') ∧
      (t'.users slot).name = bob ∧ 1000 ≤ (t'.users slot).uid := by
  have h : (accountStep .ample usersInit skeleton (.add true alice secret true)).bind (fun r =>
      (usersAdd .ample true r.2.1 r.2.2 bob secret false).map fun q => (r.1, q.1)) =
      some (0, 0) := by decide +kernel
  simp only [Option.bind_eq_some_iff, Option.map_eq_some_iff, Prod.mk.injEq] at h
  obtain ⟨⟨res, t, s⟩, hstep, ⟨res', t', s'⟩, hadd, rfl, rfl⟩ := h
  have hrun : Calls .ample CountsOn usersInit t :=
    .step .refl (by simp [CountsOn] : CountsOn usersInit (.add true alice secret true)) hstep
  obtain ⟨slot, -, hname, huid, -⟩ := new_uid_fresh .ample hrun hadd
  exact ⟨s, t, s', t', slot, hstep, hadd, hname, huid⟩

/-- A snapshot brings the largest identity there is, and the next account is `root`. -/
theorem new_uid_zero : ∃ t s t' s' slot,
    usersImport .ample usersInit skeleton alice (ofString "/home/alice") uidMax 1000 1 =
        some (0, t, s) ∧
      usersAdd .ample true t s bob secret false = some (0, t', s') ∧
      usersFind t' bob = some slot ∧ (t'.users slot).uid = 0 := by
  have h : (usersImport .ample usersInit skeleton alice (ofString "/home/alice") uidMax 1000
      1).bind (fun r => (usersAdd .ample true r.2.1 r.2.2 bob secret false).map fun q =>
        (r.1, q.1, usersFind q.2.1 bob, (q.2.1.users ⟨1, by decide⟩).uid)) =
      some (0, 0, some ⟨1, by decide⟩, 0) := by
    decide +kernel
  simp only [Option.bind_eq_some_iff, Option.map_eq_some_iff, Prod.mk.injEq] at h
  obtain ⟨⟨res, t, s⟩, himport, ⟨res', t', s'⟩, hadd, rfl, rfl, hfind, huid⟩ := h
  exact ⟨t, s, t', s', _, himport, hadd, hfind, huid⟩

end LightningOS.Users
