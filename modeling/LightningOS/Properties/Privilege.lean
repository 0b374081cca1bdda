import LightningOS.Properties.Commands

/-!
# What an ordinary account can do to the accounts

Commands typed by somebody who is not root change nothing about the accounts, apart from
their own password and who is logged in. Both ask for the password of the account first.
-/

namespace LightningOS.Shell

open CString Ramfs Users Persist

variable {env : Env} {ready : Nat → Bool} {typed : Nat → Option (List UInt8)}

/-- The account `u` with another password hash, and everything else as it was. -/
def OwnPassword (t t' : Table) (u : UserSlot) : Prop :=
  ∃ hash, t'.users = fun i => if i = u then { t.users u with pwHash := hash } else t.users i

theorem not_root {t : Table} {u : UserSlot} (hcur : t.current = some u)
    (huid : (t.users u).uid ≠ 0) : usersIsRoot t = false := by
  simp [usersIsRoot, hcur, huid]

/-- A name leads back to its account. -/
theorem TableInv.find {t : Table} (h : TableInv t) {u i : UserSlot}
    (hactive : (t.users u).active = true) (hfind : usersFind t (t.users u).name = some i) :
    i = u := by
  obtain ⟨hi, hname⟩ := usersFind_some hfind
  exact h.distinct hi hactive hname

/-- **Privilege separation.** Whatever somebody who is not root types, the accounts stay as
they are, except that `passwd` may give them a new password of their own, if the current one
was typed; and the current account changes only through `su`, to one whose password was
typed. -/
theorem accounts_kept {env' : Env} {st st' : Session} {line : List UInt8} {u : UserSlot}
    (hreach : Calls env' (fun _ _ => True) usersInit st.sys.table)
    (hcur : st.sys.table.current = some u) (huid : (st.sys.table.users u).uid ≠ 0)
    (h : execute env ready typed st line = some st') :
    (st'.sys.table.users = st.sys.table.users ∨
      commandOf line = .passwd ∧
        (st.sys.table.users u).pwHash = hashPassword (answer typed st) ∧
        OwnPassword st.sys.table st'.sys.table u) ∧
    (st'.sys.table.current = st.sys.table.current ∨
      commandOf line = .su ∧ ∃ j, st'.sys.table.current = some j ∧
        (st.sys.table.users j).active = true ∧
        (st.sys.table.users j).pwHash = hashPassword (answer typed st)) := by
  have hinv : TableInv st.sys.table := hreach.keeps.1 .init
  have hroot := not_root hcur huid
  have hkept : st'.sys.table = st.sys.table → st'.sys.table.users = st.sys.table.users ∧
      st'.sys.table.current = st.sys.table.current := fun htable => by
    rw [htable]
    exact ⟨rfl, rfl⟩
  cases execute_effect h with
  | quiet _ htable | chdir _ _ htable | create _ _ _ _ htable | remove _ _ _ _ htable
  | write _ _ _ _ _ htable | createWrite _ _ htable | createOnly _ _ _ htable =>
    exact ⟨Or.inl (hkept htable).1, Or.inl (hkept htable).2⟩
  | useradd hadmin | userdel hadmin =>
    rw [hroot] at hadmin
    simp at hadmin
  | @passwd name password hc hmay hset =>
    rcases hmay with hadmin | ⟨i, hi, hname, hcheck⟩
    · rw [hroot] at hadmin
      simp at hadmin
    obtain rfl : u = i := Option.some.inj (hcur.symm.trans hi)
    have hcases := usersSetPassword_spec st.sys.table name password
    rw [hset] at hcases
    obtain ⟨hneg, -⟩ | ⟨-, i, hfind, htable⟩ := hcases
    · simp at hneg
    rw [← hname] at hfind
    obtain rfl := TableInv.find hinv (hinv.current hcur) hfind
    have htable' : st'.sys.table = _ := htable
    rw [htable']
    exact ⟨Or.inr ⟨hc, hcheck, _, rfl⟩, Or.inl rfl⟩
  | su hc hswitch =>
    obtain ⟨hneg, -⟩ | ⟨-, j, hfind, hcheck, htable, -⟩ := usersSwitch_spec hswitch
    · simp at hneg
    rw [htable]
    exact ⟨Or.inl rfl, Or.inr ⟨hc, j, rfl, (usersFind_some hfind).1, hcheck⟩⟩

/-- A session without a disk and without a tree. -/
def sessionWith (t : Table) : Session where
  sys := {
    fs := .zero
    table := t
    persist := {}
    ata := {
      size := fun _ => 0
      media := fun _ _ => Ata.Sector.ofBytes []
      drives := fun _ => {}
      time := 0 }
    bootedFromMedium := true }

/-- Bob tries to make an account for Alice. -/
theorem accounts_kept_bob : ∃ t st', t.current = some ⟨0, by decide⟩ ∧
    execute .ample (fun _ => true) (fun _ => none) (sessionWith t) (ofString "useradd alice") =
      some st' ∧ (st'.sys.table.users = t.users ∨ OwnPassword t st'.sys.table ⟨0, by decide⟩) := by
  have h : ((accountStep .ample usersInit .zero (.add true bob secret false)).bind fun r =>
      (accountStep .ample r.2.1 r.2.2 (.switch bob secret)).map fun q =>
        (r.1, q.1, q.2.1.current, (q.2.1.users ⟨0, by decide⟩).uid,
          (execute .ample (fun _ => true) (fun _ => none) (sessionWith q.2.1)
            (ofString "useradd alice")).isSome)) =
      some (0, 0, some ⟨0, by decide⟩, 1000, true) := by decide +kernel
  simp only [Option.bind_eq_some_iff, Option.map_eq_some_iff, Prod.mk.injEq] at h
  obtain ⟨⟨r₁, t₁, s₁⟩, hadd, ⟨r₂, t₂, s₂⟩, hswitch, rfl, rfl, hcur, huid, hrun⟩ := h
  have hreach : Calls .ample (fun _ _ => True) usersInit t₂ :=
    .step (.step .refl trivial hadd) trivial hswitch
  obtain ⟨st', hst'⟩ := Option.isSome_iff_exists.mp hrun
  have huid' : (t₂.users ⟨0, by decide⟩).uid ≠ 0 := by
    have : (t₂.users ⟨0, by decide⟩).uid = 1000 := huid
    rw [this]
    decide
  obtain ⟨hkept, -⟩ := @accounts_kept _ _ _ _ (sessionWith t₂) st' _ _ hreach hcur huid' hst'
  exact ⟨t₂, st', hcur, hst', hkept.imp id fun hown => hown.2.2⟩

end LightningOS.Shell
