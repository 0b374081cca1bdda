import LightningOS.Properties.Decoder
import LightningOS.Properties.Siblings

/-!
# A mount that fails

Before the payload is read, a mount that fails has left the tree and the accounts alone.
After that they are gone, and what was read so far is in their place. So a mount is all or
nothing on a disk exactly if the snapshot that passes its checks, if there is one, can be
read to its end.
-/

namespace LightningOS.Persist

open ByteMemory CString Ramfs Users Ata

variable {env : Env}

/-! ## The reader does not look at the tree -/

theorem mountUsers_skip {n : Nat} {r r' : Reader} {t t' : Table} {s s' : Fs}
    (h : mountUsers env n r t s = (r', some (t', s'))) : r' = skipUsers n r := by
  induction n generalizing r t s with
  | zero =>
    simp only [mountUsers, Prod.mk.injEq] at h
    exact h.1.symm
  | succ n ih =>
    rw [mountUsers] at h
    rw [skipUsers]
    by_cases hbad : r.bad = true
    · rw [if_pos hbad, Prod.mk.injEq] at h
      rw [skipUser_bad hbad, skipUsers_bad hbad]
      exact h.1.symm
    · rw [if_neg hbad] at h
      unfold skipUser
      rw [if_neg hbad]
      rcases htake : takeUser r with ⟨out, r₁⟩
      rw [htake] at h
      cases out with
      | none =>
        rw [Prod.mk.injEq] at h
        rw [skipUsers_bad (takeUser_none htake)]
        exact h.1.symm
      | some u =>
        dsimp only at h
        split at h
        · simp at h
        · exact ih h

theorem mountNodes_skip {n : Nat} {r r₀ r' : Reader} {s s' : Fs} (hsame : Same r₀ r)
    (h : mountNodes env n r s = (r', some s')) : Same (skipNodes n r₀) r' := by
  induction n generalizing r r₀ s with
  | zero =>
    simp only [mountNodes, Prod.mk.injEq] at h
    rw [← h.1]
    exact hsame
  | succ n ih =>
    rw [skipNodes]
    cases hbad : r.bad with
    | true =>
      rw [mountNodes_bad hbad, Prod.mk.injEq] at h
      rw [skipNode_bad (hsame.bad ▸ hbad), skipNodes_bad (hsame.bad ▸ hbad), ← h.1]
      exact hsame
    | false =>
      have hbad₀ : r₀.bad = false := hsame.bad ▸ hbad
      rcases htake₀ : takeHead r₀ with ⟨head, q⟩
      obtain ⟨r₁, htake, hsame₁⟩ := takeHead_same hsame htake₀
      cases head with
      | none =>
        have hskip : skipNode r₀ = q := by
          unfold skipNode
          rw [if_neg (by simp [hbad₀]), htake₀]
        rw [mountNodes_none hbad htake, Prod.mk.injEq] at h
        rw [hskip, skipNodes_bad (takeHead_none htake₀), ← h.1]
        exact hsame₁
      | some head =>
        have hskip : skipNode r₀ = if head.dataLen = 0 then q
            else if q.length < wrap32 (q.pos + head.dataLen) then q.fail
            else { q with pos := wrap32 (q.pos + head.dataLen) } := by
          unfold skipNode
          rw [if_neg (by simp [hbad₀]), htake₀]
        rw [hskip]
        cases hcreate : createOrResolve env s head with
        | none =>
          rw [mountNodes_fault hbad htake hcreate] at h
          simp at h
        | some res =>
          obtain ⟨node, s₁⟩ := res
          rw [mountNodes_some hbad htake hcreate, hsame₁.length, hsame₁.pos] at h
          by_cases hdata : head.dataLen = 0
          · rw [if_pos hdata] at h ⊢
            exact ih hsame₁ h
          rw [if_neg hdata] at h ⊢
          by_cases hend : q.length < wrap32 (q.pos + head.dataLen)
          · rw [if_pos hend, Prod.mk.injEq] at h
            rw [if_pos hend, skipNodes_bad (r := q.fail) rfl, ← h.1]
            exact hsame₁.fail
          rw [if_neg hend] at h ⊢
          split at h
          · simp at h
          · have hpass : Same { q with pos := wrap32 (q.pos + head.dataLen) }
                (r₁.pass (copiesData s₁ node) head.dataLen) := by
              refine ⟨hsame₁.buffer, hsame₁.length, ?_, hsame₁.bad⟩
              show wrap32 (r₁.pos + head.dataLen) = wrap32 (q.pos + head.dataLen)
              rw [hsame₁.pos]
            exact ih hpass h

/-- Whether a snapshot can be read to its end does not depend on the tree. -/
theorem restore_scan {sys sys' : System} {super : Super} {buffer : List UInt8} {r : Reader}
    (h : restore env sys super buffer = (r, some sys')) : r.bad = (scan super buffer).bad := by
  unfold restore at h
  rw [← Reader.start] at h
  cases hreset : fsReset env sys.fs with
  | none => simp [hreset] at h
  | some s =>
    simp only [hreset] at h
    rcases husers : mountUsers env super.userCount (.start super buffer) sys.table s with ⟨r₁, res⟩
    rw [husers] at h
    cases res with
    | none => simp at h
    | some ts =>
      obtain ⟨t, s₁⟩ := ts
      have hr₁ := mountUsers_skip husers
      rcases hnodes : mountNodes env super.nodeCount r₁ s₁ with ⟨r₂, res⟩
      simp only [hnodes] at h
      cases res with
      | none => simp at h
      | some s₂ =>
        simp only [Prod.mk.injEq] at h
        rw [← h.1]
        exact (mountNodes_skip (hr₁ ▸ Same.refl r₁) hnodes).bad

/-! ## Snapshots that pass the checks -/

variable (env) (ready : Nat → Bool)

/-- The mount finds a superblock, reads the payload behind it and sees that the checksum is
right. What it has then are the place, the superblock, the payload and the drives. -/
structure Accepted (boot : System) (p : Vars) (super : Super) (buffer : List UInt8)
    (ata : Channel) : Prop where
  notMedium : boot.bootedFromMedium = false
  reads : ∃ a a' bytes, chooseLocation ready { boot.persist with isSealed := false }
      (ataInit ready boot.ata) = (true, p, a) ∧
    ataRead ready a p.dataDrive p.dataBase 1 = (some bytes, a') ∧ super = Super.decode bytes ∧
    ataRead ready a' p.dataDrive (wrap32 (p.dataBase + 1)) (sectorsFor super.payloadBytes) =
      (some buffer, ata)
  magic : super.magic = magicBytes
  readable : Readable super
  checksum : (checksum (buffer.take super.payloadBytes)).toNat = super.checksum

/-- The tree, the working directory and the accounts are as they were. -/
def Untouched (boot sys : System) : Prop :=
  (∃ t, sys.fs = { boot.fs with time := t }) ∧ sys.table = boot.table

/-- The system that an accepted snapshot is restored into. -/
def System.accepting (boot : System) (p : Vars) (ata : Channel) : System :=
  { boot with fs := { boot.fs with time := boot.fs.time + 1 }, persist := p, ata := ata }

theorem mountSnapshot_restores {sys sys' : System} {super : Super} {st : PersistState}
    (h : mountSnapshot env ready sys super = some (st, sys')) :
    (st ≠ .loaded ∧ Untouched sys sys') ∨
      (Readable super ∧ ∃ buffer ata r sys₂,
        ataRead ready sys.ata sys.persist.dataDrive (wrap32 (sys.persist.dataBase + 1))
          (sectorsFor super.payloadBytes) = (some buffer, ata) ∧
        (checksum (buffer.take super.payloadBytes)).toNat = super.checksum ∧
        restore env (sys.accepting sys.persist ata) super buffer = (r, some sys₂) ∧
        ((r.bad = true ∧ st = .error) ∨ (r.bad = false ∧ st = .loaded))) := by
  have hleft : ∀ {fs : Fs} {ata : Channel}, fs = sys.fs ∨ fs = { sys.fs with time := sys.fs.time + 1 } →
      some (PersistState.error, ({ sys with fs := fs, ata := ata } : System).setState .error) =
        some (st, sys') → st ≠ .loaded ∧ Untouched sys sys' := by
    intro fs ata hfs heq
    simp only [Option.some.injEq, Prod.mk.injEq] at heq
    rw [← heq.1, ← heq.2]
    refine ⟨by decide, ?_, rfl⟩
    rcases hfs with rfl | rfl
    · exact ⟨sys.fs.time, rfl⟩
    · exact ⟨sys.fs.time + 1, rfl⟩
  unfold mountSnapshot at h
  by_cases hbad : super.version ≠ persistVersion ∨ super.payloadBytes = 0 ∨
      maxPayload < super.payloadBytes
  · rw [if_pos hbad] at h
    exact Or.inl (hleft (Or.inl rfl) h)
  rw [if_neg hbad] at h
  have hread : Readable super := by
    simp only [not_or, not_not, Nat.not_lt] at hbad
    exact ⟨hbad.1, Nat.pos_of_ne_zero hbad.2.1, hbad.2.2⟩
  simp only [System.tmpAlloc, Fs.alloc] at h
  cases hk : env.kmalloc sys.fs.time sys.fs (sectorsFor super.payloadBytes * ataSectorSize) with
  | none =>
    simp only [hk, Option.isSome_none] at h
    exact Or.inl (hleft (Or.inr rfl) h)
  | some d =>
    simp only [hk, Option.isSome_some] at h
    rcases hata : ataRead ready sys.ata sys.persist.dataDrive (wrap32 (sys.persist.dataBase + 1))
      (sectorsFor super.payloadBytes) with ⟨res, ata⟩
    rw [hata] at h
    cases res with
    | none => exact Or.inl (hleft (Or.inr rfl) h)
    | some buffer =>
      dsimp only at h
      by_cases hsum : (checksum (buffer.take super.payloadBytes)).toNat = super.checksum
      · rw [if_neg (by simpa using hsum)] at h
        rcases hrestore : restore env (sys.accepting sys.persist ata) super buffer with ⟨r, res⟩
        unfold System.accepting at hrestore
        rw [hrestore] at h
        cases res with
        | none => simp at h
        | some sys₂ =>
          refine Or.inr ⟨hread, buffer, ata, r, sys₂, rfl, hsum, hrestore, ?_⟩
          dsimp only at h
          cases hb : r.bad with
          | true =>
            rw [if_pos hb, Option.some.injEq, Prod.mk.injEq] at h
            exact Or.inl ⟨rfl, h.1.symm⟩
          | false =>
            rw [if_neg (by simp [hb]), Option.some.injEq, Prod.mk.injEq] at h
            exact Or.inr ⟨rfl, h.1.symm⟩
      · rw [if_pos hsum] at h
        exact Or.inl (hleft (Or.inr rfl) h)

/-- A mount leaves the tree and the accounts alone, or restores an accepted snapshot. -/
theorem persistMount_restores {boot sys : System} {st : PersistState}
    (h : persistMount env ready boot = some (st, sys)) :
    (st ≠ .loaded ∧ Untouched boot sys) ∨
      ∃ p super buffer ata r sys₂, Accepted ready boot p super buffer ata ∧
        restore env (boot.accepting p ata) super buffer = (r, some sys₂) ∧
        ((r.bad = true ∧ st = .error) ∨ (r.bad = false ∧ st = .loaded)) := by
  have hleft : ∀ {st' : PersistState} {p : Vars} {ata : Channel}, st' ≠ .loaded →
      some (st', ({ boot with persist := p, ata := ata } : System)) = some (st, sys) →
      st ≠ .loaded ∧ Untouched boot sys := by
    intro st' p ata hst heq
    simp only [Option.some.injEq, Prod.mk.injEq] at heq
    rw [← heq.1, ← heq.2]
    exact ⟨hst, ⟨boot.fs.time, rfl⟩, rfl⟩
  unfold persistMount at h
  cases hm : boot.bootedFromMedium with
  | true =>
    simp only [hm, if_true] at h
    exact Or.inl (hleft (by decide : PersistState.noDisk ≠ .loaded) (by rw [hm]; exact h))
  | false =>
    simp only [hm, Bool.false_eq_true, if_false] at h
    rcases hchoose : chooseLocation ready { boot.persist with isSealed := false }
      (ataInit ready boot.ata) with ⟨ok, p, a⟩
    rw [hchoose] at h
    cases ok with
    | false => exact Or.inl (hleft (by decide : PersistState.noDisk ≠ .loaded) (by rw [hm]; exact h))
    | true =>
      dsimp only at h
      rcases hsuper : ataRead ready a p.dataDrive p.dataBase 1 with ⟨res, a'⟩
      rw [hsuper] at h
      cases res with
      | none => exact Or.inl (hleft (by decide : PersistState.error ≠ .loaded) (by rw [hm]; exact h))
      | some bytes =>
        dsimp only at h
        by_cases hmagic : (Super.decode bytes).magic = magicBytes
        · rw [if_neg (by simpa using hmagic)] at h
          rcases mountSnapshot_restores env ready h with
            hleft | ⟨hread, buffer, ata, r, sys₂, hata, hsum, hrestore, hres⟩
          · exact Or.inl hleft
          · refine Or.inr ⟨p, Super.decode bytes, buffer, ata, r, sys₂,
              ⟨hm, ⟨a, a', bytes, hchoose, hsuper, rfl, hata⟩, hmagic, hread, hsum⟩, ?_, hres⟩
            unfold System.accepting at hrestore ⊢
            rw [hm]
            exact hrestore
        · rw [if_pos hmagic] at h
          exact Or.inl (hleft (by decide : PersistState.empty ≠ .loaded) (by rw [hm]; exact h))

/-- With memory for the payload, an accepted snapshot is restored, and the mount is a success
if it can be read to its end. -/
theorem Accepted.mount {boot : System} {p : Vars} {super : Super} {buffer : List UInt8}
    {ata : Channel} (h : Accepted ready boot p super buffer ata)
    (hk : env.kmalloc boot.fs.time boot.fs (sectorsFor super.payloadBytes * ataSectorSize) ≠ none)
    {r : Reader} {sys : System}
    (hrestore : restore env (boot.accepting p ata) super buffer = (r, some sys)) :
    persistMount env ready boot =
      some (if r.bad then (.error, sys.setState .error)
        else (.loaded, { sys with persist := { sys.persist with
          bytesUsed := super.payloadBytes
          saveCount := super.saves
          state := .loaded
          dirty := false } })) := by
  obtain ⟨a, a', bytes, hchoose, hsuper, rfl, hata⟩ := h.reads
  obtain ⟨d, hd⟩ := Option.ne_none_iff_exists'.mp hk
  have hread : ¬((Super.decode bytes).version ≠ persistVersion ∨
      (Super.decode bytes).payloadBytes = 0 ∨ maxPayload < (Super.decode bytes).payloadBytes) := by
    have hpos := h.readable.pos
    have hle := h.readable.le
    rintro (hv | h0 | hlt)
    · exact hv h.readable.version
    · omega
    · omega
  unfold persistMount
  simp only [h.notMedium, Bool.false_eq_true, if_false, hchoose, hsuper]
  rw [if_neg (by simpa using h.magic)]
  unfold mountSnapshot
  rw [if_neg hread]
  simp only [System.tmpAlloc, Fs.alloc, hd, Option.isSome_some, hata]
  rw [if_neg (by simpa using h.checksum)]
  unfold System.accepting at hrestore
  rw [h.notMedium] at hrestore
  rw [hrestore]
  dsimp only
  split <;> rfl

/-! ## Mounting without memory -/

/-- A heap that answers the requests of one moment and no later ones. -/
def onlyAt (moment : Nat) : Env where
  kmalloc t s n :=
    if t = moment ∧ Mem.roundUp n + Mem.sizeofBlock ≤ Mem.heapMaxSize then
      some (max s.nodes.brk s.bufs.brk)
    else none
  kmalloc_fresh := by
    intro t s n p h
    split at h
    · cases h
      exact ⟨s.nodes.bound _ (Nat.le_max_left _ _), s.bufs.bound _ (Nat.le_max_right _ _)⟩
    · cases h
  kmalloc_small := by
    intro t s n p h
    split at h
    next hn => exact hn.2
    next => cases h
  junk _ := []
  build := []

/-- Only the root is there, and memory is no longer to be had. -/
def Starved (moment : Nat) (s : Fs) : Prop :=
  moment < s.time ∧ CwdOk s ∧ ∃ root, TreeInv s root Forest.nil

variable {moment : Nat} {s : Fs}

theorem Starved.time (h : Starved moment s) {t : Nat} (ht : s.time ≤ t) :
    Starved moment { s with time := t } := by
  obtain ⟨hlt, ⟨p, n, hp, hn, hdir⟩, root, hinv⟩ := h
  exact ⟨Nat.lt_of_lt_of_le hlt ht, ⟨p, n, hp, hn, hdir⟩, root, hinv.congr rfl rfl rfl rfl⟩

/-- Nothing can be created. -/
theorem Starved.create (h : Starved moment s) (path : List UInt8) (type : FsType) :
    ∃ s', fsCreate (onlyAt moment) s path type = some (none, s') ∧ Starved moment s' := by
  obtain ⟨hlt, hc, root, hinv⟩ := h
  obtain ⟨r, s', hrun, -⟩ := hinv.fsCreate (onlyAt moment) hc path type
  cases r with
  | none =>
    obtain ⟨t, ht, rfl⟩ := fsCreate_none hrun
    exact ⟨_, hrun, Starved.time ⟨hlt, hc, root, hinv⟩ ht⟩
  | some p =>
    obtain ⟨d, comp, -, -, hnew⟩ := fsCreate_some hrun
    have hk := (nodeNew_alloc hnew).symm
    have hnone : (onlyAt moment).kmalloc (s.time + 1) { s with time := s.time + 1 }
        sizeofFsNode = none := if_neg (by omega)
    rw [hnone] at hk
    simp at hk

/-- A path leads to the root or nowhere. -/
theorem Starved.resolve (h : Starved moment s) (path : List UInt8) :
    ∃ q, fsResolve s path = some q ∧ ∀ p, q = some p → ∃ n, s.nodes.get p = some n ∧ n.type = .dir := by
  obtain ⟨hlt, hc, root, hinv⟩ := h
  obtain ⟨q, hq, hmem⟩ := hinv.fsResolve hc path
  refine ⟨q, hq, fun p hp => ?_⟩
  have hroot : p = root := by simpa using hmem p hp
  obtain ⟨n, hn⟩ := hinv.get hinv.root_mem
  rw [hroot]
  exact ⟨n, hn, hinv.rootDir hn⟩

theorem fsWriteN_dir {env : Env} {f : Ptr} {n : FsNode} (hn : s.nodes.get f = some n)
    (hdir : n.type = .dir) (src : List UInt8) (add : Nat) (append : Bool) :
    fsWriteN env s (some f) src add append = some (-1, s) := by
  unfold fsWriteN
  simp [hn, hdir]

/-- A directory under the name is left alone. -/
theorem writePasswd_dir {env : Env} {f : Ptr} {n : FsNode} (hn : s.nodes.get f = some n)
    (hdir : n.type = .dir) (first : Bool) (us : List User) :
    writePasswd env (some f) first us s = some s := by
  induction us generalizing first with
  | nil =>
    cases first with
    | false => rfl
    | true =>
      show (fsWriteN env s (some f) [] 0 false).map Prod.snd = some s
      rw [fsWriteN_dir hn hdir]
      rfl
  | cons u us ih =>
    have hrun : fsWrite env s (some f) (passwdLine u) (!first) = some (-1, s) :=
      fsWriteN_dir hn hdir _ _ _
    rw [writePasswd, hrun]
    exact ih false

theorem Starved.usersImport (h : Starved moment s) (t : Table) (u : User) :
    ∃ res t' s', usersImport (onlyAt moment) t s u.name u.home u.uid u.gid u.pwHash =
      some (res, t', s') ∧ Starved moment s' := by
  have hsync : ∀ t : Table, ∃ s', syncPasswdFile (onlyAt moment) t s = some s' ∧
      Starved moment s' := by
    intro t
    unfold syncPasswdFile
    obtain ⟨q, hq, hdir⟩ := h.resolve etcPasswd
    rw [hq]
    cases q with
    | some f =>
      obtain ⟨n, hn, hdir⟩ := hdir f rfl
      exact ⟨s, writePasswd_dir hn hdir _ _, h⟩
    | none =>
      obtain ⟨s', hrun, hs'⟩ := h.create etcPasswd .file
      exact ⟨s', by simp only [hrun], hs'⟩
  unfold Users.usersImport
  split
  · exact ⟨_, _, s, rfl, h⟩
  · split
    · exact ⟨_, _, s, rfl, h⟩
    · simp only
      obtain ⟨s', hrun, hs'⟩ := hsync _
      rw [hrun]
      exact ⟨_, _, s', rfl, hs'⟩

theorem Starved.mountUsers {n : Nat} {r : Reader} {t : Table} (h : Starved moment s) :
    ∃ r' t' s', mountUsers (onlyAt moment) n r t s = (r', some (t', s')) ∧ Starved moment s' := by
  induction n generalizing r t s with
  | zero => exact ⟨r, t, s, rfl, h⟩
  | succ n ih =>
    rw [Persist.mountUsers]
    split
    · exact ⟨r, t, s, rfl, h⟩
    · rcases takeUser r with ⟨out, r₁⟩
      cases out with
      | none => exact ⟨r₁, t, s, rfl, h⟩
      | some u =>
        obtain ⟨res, t₁, s₁, hrun, hs₁⟩ := h.usersImport t u
        dsimp only
        rw [hrun]
        exact ih hs₁

theorem Starved.mountNodes {n : Nat} {r : Reader} (h : Starved moment s) :
    ∃ r' s', mountNodes (onlyAt moment) n r s = (r', some s') ∧ Starved moment s' := by
  induction n generalizing r s with
  | zero => exact ⟨r, s, rfl, h⟩
  | succ n ih =>
    cases hbad : r.bad with
    | true => exact ⟨r, s, mountNodes_bad hbad, h⟩
    | false =>
      rcases htake : takeHead r with ⟨head, r₁⟩
      cases head with
      | none => exact ⟨r₁, s, mountNodes_none hbad htake, h⟩
      | some head =>
        obtain ⟨s₁, hrun, hs₁⟩ := h.create head.path
          (if head.kind = kindDir.toNat then .dir else .file)
        obtain ⟨q, hq, hdir⟩ := hs₁.resolve head.path
        have hcreate : createOrResolve (onlyAt moment) s head = some (q, s₁) := by
          unfold createOrResolve
          rw [hrun]
          dsimp only
          rw [hq]
          rfl
        have hwrite : writeData (onlyAt moment) s₁ q (r₁.buffer.drop r₁.pos) head.dataLen =
            some s₁ := by
          unfold writeData
          cases q with
          | none => rfl
          | some p =>
            obtain ⟨n, hn, hdir⟩ := hdir p rfl
            simp [hn, hdir]
        rw [mountNodes_some hbad htake hcreate]
        split
        · exact ih hs₁
        · split
          · exact ⟨_, s₁, rfl, hs₁⟩
          · rw [hwrite]
            exact ih hs₁

/-- Freeing asks for nothing. -/
theorem free_time (fuel : Nat) : (∀ {s s' : Fs} {node : Ptr}, freeSubtree fuel s node = some s' →
      s'.time = s.time) ∧
    ∀ {s s' : Fs} {child : Option Ptr}, freeSiblings fuel s child = some s' →
      s'.time = s.time := by
  induction fuel with
  | zero =>
    refine ⟨fun h => by simp [freeSubtree] at h, fun {s s' child} h => ?_⟩
    cases child with
    | none =>
      rw [freeSiblings] at h
      rw [← Option.some.inj h]
    | some c => simp [freeSiblings] at h
  | succ fuel ih =>
    have hnode : ∀ {s s' : Fs} {p : Ptr}, s.freeNode p = some s' → s'.time = s.time := by
      intro s s' p h
      unfold Fs.freeNode at h
      split at h
      · simp at h
      · rw [← Option.some.inj h]
    constructor
    · intro s s' node h
      rw [freeSubtree] at h
      split at h
      · simp at h
      · split at h
        · simp at h
        next hkids =>
          split at h
          · simp at h
          next hdata =>
            split at h
            · simp at h
            next hself =>
              rw [← Option.some.inj h]
              exact (hnode hself).trans ((freeBuf_time hdata).trans (ih.2 hkids))
    · intro s s' child h
      cases child with
      | none =>
        rw [freeSiblings] at h
        rw [← Option.some.inj h]
      | some c =>
        rw [freeSiblings] at h
        split at h
        · simp at h
        · split at h
          · simp at h
          next hfirst => exact (ih.2 h).trans (ih.1 hfirst)

theorem fsReset_time {env : Env} {root : Ptr} {s' : Fs} (hroot : s.rootNode = some root)
    (h : fsReset env s = some s') : s'.time = s.time := by
  unfold fsReset at h
  rw [hroot] at h
  dsimp only at h
  split at h
  · simp at h
  · split at h
    · simp at h
    next hfree =>
      split at h
      · simp at h
      · have htime := (free_time _).2 hfree
        rw [← Option.some.inj h]
        exact htime

/-- Whatever is in the payload, the root alone is left. -/
theorem restore_starved {sys : System} (hs : Standing sys.fs) (ht : moment < sys.fs.time)
    (super : Super) (buffer : List UInt8) :
    ∃ r sys', restore (onlyAt moment) sys super buffer = (r, some sys') ∧
      Starved moment sys'.fs := by
  obtain ⟨root, kids, hinv, hc⟩ := hs
  obtain ⟨s₁, hreset, hinv₁, -, hcwd₁⟩ := hinv.fsReset (onlyAt moment)
  have htime := fsReset_time hinv.isRoot hreset
  obtain ⟨n, hn⟩ := hinv₁.get hinv₁.root_mem
  have hs₁ : Starved moment s₁ :=
    ⟨by omega, ⟨root, n, hcwd₁, hn, hinv₁.rootDir hn⟩, root, hinv₁⟩
  obtain ⟨r₂, t₂, s₂, husers, hs₂⟩ := hs₁.mountUsers (n := super.userCount)
    (r := .start super buffer) (t := sys.table)
  obtain ⟨r₃, s₃, hnodes, hs₃⟩ := hs₂.mountNodes (n := super.nodeCount) (r := r₂)
  refine ⟨r₃, { sys with fs := s₃, table := t₂ }, ?_, hs₃⟩
  unfold restore
  rw [hreset]
  dsimp only
  rw [← Reader.start, husers]
  dsimp only
  rw [hnodes]

/-! ## All or nothing -/

theorem Accepted.congr {boot boot' : System} {p : Vars} {super : Super} {buffer : List UInt8}
    {ata : Channel} (h : Accepted ready boot p super buffer ata)
    (hm : boot'.bootedFromMedium = boot.bootedFromMedium) (hp : boot'.persist = boot.persist)
    (ha : boot'.ata = boot.ata) : Accepted ready boot' p super buffer ata :=
  ⟨hm.trans h.notMedium, by rw [hp, ha]; exact h.reads, h.magic, h.readable, h.checksum⟩

theorem skeleton_nodeCount : skeleton.nodeCount ≠ 1 := by decide +kernel

/-- **A mount is all or nothing** on a machine, whatever is in its memory, exactly if the
snapshot that passes the checks, if there is one, can be read to its end. -/
theorem mount_all_or_nothing_iff (boot : System) :
    (∀ env fs table sys st, Standing fs →
        persistMount env ready { boot with fs := fs, table := table } = some (st, sys) →
        st ≠ .loaded → Untouched { boot with fs := fs, table := table } sys) ↔
      ∀ p super buffer ata, Accepted ready boot p super buffer ata →
        (scan super buffer).bad = false := by
  constructor
  · intro hall p super buffer ata hacc
    by_contra hbad
    -- memory runs out right after the buffer for the payload
    obtain ⟨fs, hs, hne⟩ : ∃ fs, Standing fs ∧ fs.nodeCount ≠ 1 :=
      ⟨skeleton, skeleton_standing, skeleton_nodeCount⟩
    obtain ⟨sys₀, hsys₀⟩ : ∃ sys₀ : System, sys₀ = { boot with fs := fs, table := usersInit } :=
      ⟨_, rfl⟩
    have hacc' : Accepted ready sys₀ p super buffer ata :=
      hacc.congr ready (by rw [hsys₀]) (by rw [hsys₀]) (by rw [hsys₀])
    have hk : (onlyAt fs.time).kmalloc fs.time fs
        (sectorsFor super.payloadBytes * ataSectorSize) ≠ none := by
      have hsectors := sectorsFor_le hacc.readable.le
      have hround := Mem.roundUp_le (sectorsFor super.payloadBytes * ataSectorSize)
      have hsize : Mem.roundUp (sectorsFor super.payloadBytes * ataSectorSize) +
          Mem.sizeofBlock ≤ Mem.heapMaxSize := by
        have hheap : Mem.heapMaxSize = 33554432 := rfl
        have hheader : Mem.sizeofBlock = 20 := rfl
        have hsector : ataSectorSize = 512 := rfl
        rw [hsector] at hround ⊢
        omega
      unfold onlyAt
      dsimp only
      rw [if_pos ⟨rfl, hsize⟩]
      simp
    have hs₁ : Standing (sys₀.accepting p ata).fs := by
      rw [hsys₀]
      exact hs.time (fs.time + 1)
    have ht₁ : fs.time < (sys₀.accepting p ata).fs.time := by
      rw [hsys₀]
      exact Nat.lt_succ_self fs.time
    obtain ⟨r, sys, hrestore, hstarved⟩ := restore_starved hs₁ ht₁ super buffer
    have hmount := hacc'.mount (onlyAt fs.time) ready (by rw [hsys₀]; exact hk) hrestore
    have hbad' : r.bad = true := by
      rw [restore_scan hrestore]
      simpa using hbad
    rw [hsys₀, if_pos hbad'] at hmount
    obtain ⟨⟨t, ht⟩, -⟩ := hall _ fs usersInit _ _ hs hmount (by decide)
    obtain ⟨-, -, root, hinv⟩ := hstarved
    have hcount : sys.fs.nodeCount = 1 := by
      rw [hinv.count]
      simp
    have ht : sys.fs = { fs with time := t } := ht
    rw [ht] at hcount
    exact hne hcount
  · intro hgood env fs table sys st _ hmount hst
    rcases persistMount_restores env ready hmount with
      ⟨-, hsame⟩ | ⟨p, super, buffer, ata, r, sys₂, hacc, hrestore, ⟨hbad, -⟩ | ⟨-, hloaded⟩⟩
    · exact hsame
    · rw [restore_scan hrestore, hgood p super buffer ata ⟨hacc.notMedium, hacc.reads, hacc.magic,
        hacc.readable, hacc.checksum⟩] at hbad
      simp at hbad
    · exact absurd hloaded hst

/-- A disk with the directory `/x`, where the superblock promises another node behind it. -/
def oneNodeShort (lba : Nat) : Sector :=
  if lba = 0 then Sector.ofBytes (superOf onlyX 0 2).encode
  else if lba = 1 then Sector.ofBytes onlyX
  else Sector.ofBytes []

/-- The mount reports an error, and the skeleton is gone. -/
theorem failed_mount_empties : ∃ sys,
    persistMount .ample (fun _ => true) (freshBoot oneNodeShort) = some (.error, sys) ∧
      ¬ Untouched (freshBoot oneNodeShort) sys := by
  have h : (persistMount .ample (fun _ => true) (freshBoot oneNodeShort)).map (fun r =>
      (r.1, decide (r.2.fs.nodeCount = (freshBoot oneNodeShort).fs.nodeCount))) =
      some (.error, false) := by decide +kernel
  simp only [Option.map_eq_some_iff, Prod.mk.injEq, decide_eq_false_iff_not] at h
  obtain ⟨⟨st, sys⟩, hmount, rfl, hcount⟩ := h
  refine ⟨sys, hmount, fun hsame => hcount ?_⟩
  obtain ⟨⟨t, ht⟩, -⟩ := hsame
  rw [ht]

end LightningOS.Persist
