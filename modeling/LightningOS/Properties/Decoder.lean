import LightningOS.Properties.Accounts
import LightningOS.Properties.Reader
import LightningOS.Properties.Representation
import LightningOS.Properties.Seal

/-!
# The snapshot decoder

What a mount does with a payload that it has accepted, whatever its bytes are. It restores
into a well formed tree, and it stays inside the payload unless a length takes its position
past `2 ^ 32`.
-/

namespace LightningOS.Persist

open ByteMemory CString Ramfs Users

variable (env : Env)

/-! ## Calls on a tree -/

/-- There is a tree with a working directory. -/
def Standing (s : Fs) : Prop := ∃ root kids, TreeInv s root kids ∧ CwdOk s

/-- Nothing that was allocated is gone. -/
def KeepsNodes (s s' : Fs) : Prop :=
  ∀ {p n}, s.nodes.get p = some n → ∃ n', s'.nodes.get p = some n'

theorem Standing.time {s : Fs} (h : Standing s) (t : Nat) : Standing { s with time := t } := by
  obtain ⟨root, kids, hinv, p, n, hp, hn, hdir⟩ := h
  exact ⟨root, kids, hinv.congr rfl rfl rfl rfl, p, n, hp, hn, hdir⟩

theorem Standing.resolve {s : Fs} (h : Standing s) (path : List UInt8) :
    ∃ q, fsResolve s path = some q ∧ ∀ p, q = some p → ∃ n, s.nodes.get p = some n := by
  obtain ⟨root, kids, hinv, hc⟩ := h
  obtain ⟨q, hq, hmem⟩ := hinv.fsResolve hc path
  exact ⟨q, hq, fun p hp => hinv.get (hmem p hp)⟩

theorem Standing.create {s : Fs} (h : Standing s) (path : List UInt8) (type : FsType) :
    ∃ r s', fsCreate env s path type = some (r, s') ∧ Standing s' ∧ KeepsNodes s s' ∧
      ∀ p, r = some p → ∃ n, s'.nodes.get p = some n := by
  obtain ⟨root, kids, hinv, hc⟩ := h
  obtain ⟨r, s', hrun, hc', -, hres⟩ := hinv.fsCreate env hc path type
  refine ⟨r, s', hrun, ?_⟩
  rcases hres with ⟨rfl, t, rfl⟩ | ⟨d, p, kids', name, rfl, hin⟩
  · exact ⟨⟨root, kids, hinv.congr rfl rfl rfl rfl, hc'⟩, fun hn => ⟨_, hn⟩, by simp⟩
  · refine ⟨⟨root, kids', hin.inv, hc'⟩, fun {q n} hn => ?_, ?_⟩
    · have hne : q ≠ p := by
        rintro rfl
        rw [hin.fresh] at hn
        simp at hn
      obtain ⟨n', hn', -⟩ := hin.added.old hne hn
      exact ⟨n', hn'⟩
    · rintro q ⟨⟩
      exact ⟨_, hin.added.new⟩

theorem Standing.write {s : Fs} (h : Standing s) {file : Option Ptr}
    (hfile : ∀ f, file = some f → ∃ n, s.nodes.get f = some n) {src : List UInt8} {add : Nat}
    (hsrc : add ≤ src.length) (hfits : src.length + Mem.heapMaxSize + 65 < 4294967296)
    (append : Bool) :
    ∃ res s', fsWriteN env s file src add append = some (res, s') ∧ Standing s' ∧
      KeepsNodes s s' := by
  obtain ⟨root, kids, hinv, hc⟩ := h
  obtain ⟨⟨res, s'⟩, hrun⟩ := hinv.fsWriteN_total env hfile hsrc hfits append
  refine ⟨res, s', hrun, ?_⟩
  rcases hinv.write_cases env hrun with ⟨-, t, rfl⟩ | ⟨f, n, -, hn, -, -, hinv', hw⟩
  · exact ⟨Standing.time ⟨root, kids, hinv, hc⟩ t, fun hn => ⟨_, hn⟩⟩
  · refine ⟨⟨root, kids, hinv', hc.written hn hw⟩, fun {q m} hm => ?_⟩
    by_cases hq : q = f
    · obtain ⟨n', hn', -⟩ := hw.node
      exact ⟨n', hq ▸ hn'⟩
    · exact ⟨m, (hw.other hq).trans hm⟩

theorem Standing.reset {s : Fs} (h : Standing s) :
    ∃ s', fsReset env s = some s' ∧ Standing s' := by
  obtain ⟨root, kids, hinv, hc⟩ := h
  obtain ⟨s', hrun, hinv', -, hcwd⟩ := hinv.fsReset env
  obtain ⟨n, hn⟩ := hinv'.get hinv'.root_mem
  exact ⟨s', hrun, root, Forest.nil, hinv', root, n, hcwd, hn, hinv'.rootDir hn⟩

/-! ## Restoring accounts -/

theorem passwdLine_length (u : User) : (passwdLine u).length ≤ 159 := List.length_take_le _ _

theorem Standing.writePasswd {us : List User} {f : Ptr} {first : Bool} {s : Fs} (h : Standing s)
    (hf : ∃ n, s.nodes.get f = some n) :
    ∃ s', writePasswd env (some f) first us s = some s' ∧ Standing s' := by
  have hfile : ∀ {s : Fs}, (∃ n, s.nodes.get f = some n) →
      ∀ g, some f = some g → ∃ n, s.nodes.get g = some n := by
    rintro s hf g ⟨⟩
    exact hf
  induction us generalizing first s with
  | nil =>
    cases first with
    | false => exact ⟨s, rfl, h⟩
    | true =>
      obtain ⟨res, s', hrun, hs', -⟩ := h.write env (hfile hf) (Nat.le_refl 0)
        (by decide : ([] : List UInt8).length + Mem.heapMaxSize + 65 < 4294967296) false
      refine ⟨s', ?_, hs'⟩
      show (fsWriteN env s (some f) [] 0 false).map Prod.snd = some s'
      rw [hrun]
      rfl
  | cons u us ih =>
    have hlen := passwdLine_length u
    have hfits : (passwdLine u).length + Mem.heapMaxSize + 65 < 4294967296 := by
      have : Mem.heapMaxSize + 65 + 159 < 4294967296 := by decide
      omega
    obtain ⟨res, s₁, hrun, hs₁, hkeep⟩ := h.write env (hfile hf)
      (Nat.le_refl (passwdLine u).length) hfits (!first)
    obtain ⟨n, hn⟩ := hf
    obtain ⟨s', hrest, hs'⟩ := ih hs₁ (hkeep hn)
    refine ⟨s', ?_, hs'⟩
    have hrun' : fsWrite env s (some f) (passwdLine u) (!first) = some (res, s₁) := hrun
    rw [Users.writePasswd, hrun']
    exact hrest

theorem Standing.syncPasswd {s : Fs} (h : Standing s) (t : Table) :
    ∃ s', syncPasswdFile env t s = some s' ∧ Standing s' := by
  unfold syncPasswdFile
  obtain ⟨q, hq, hlive⟩ := h.resolve etcPasswd
  rw [hq]
  cases q with
  | some f => exact h.writePasswd env (hlive f rfl)
  | none =>
    obtain ⟨r, s₁, hrun, hs₁, -, hnew⟩ := h.create env etcPasswd .file
    simp only [hrun]
    cases r with
    | none => exact ⟨s₁, rfl, hs₁⟩
    | some f => exact hs₁.writePasswd env (hnew f rfl)

theorem Standing.usersImport {s : Fs} (h : Standing s) (t : Table) (name home : List UInt8)
    (uid gid pwHash : UInt32) :
    ∃ res t' s', usersImport env t s name home uid gid pwHash = some (res, t', s') ∧
      Standing s' := by
  unfold Users.usersImport
  split
  · exact ⟨_, _, s, rfl, h⟩
  · split
    · exact ⟨_, _, s, rfl, h⟩
    · simp only
      obtain ⟨s', hrun, hs'⟩ := h.syncPasswd env _
      rw [hrun]
      exact ⟨_, _, s', rfl, hs'⟩

theorem readmeText_length (available : Bool) : (readmeText available).length ≤ 400 := by
  cases available <;> decide +kernel

theorem Standing.makeHome {s : Fs} (h : Standing s) (available : Bool) (home : List UInt8) :
    ∃ s', makeHome env available home s = some s' ∧ Standing s' := by
  unfold Users.makeHome
  obtain ⟨q, hq, -⟩ := h.resolve home
  rw [hq]
  cases q with
  | some _ => exact ⟨s, rfl, h⟩
  | none =>
    obtain ⟨r, s₁, hdir, hs₁, -⟩ := h.create env home .dir
    obtain ⟨readme, s₂, hfile, hs₂, -, hnew⟩ :=
      hs₁.create env ((home ++ ofString "/readme.txt").take (fsPathMax - 1)) .file
    have hlen := readmeText_length available
    have hfits : (readmeText available).length + Mem.heapMaxSize + 65 < 4294967296 := by
      have : Mem.heapMaxSize + 65 + 400 < 4294967296 := by decide
      omega
    obtain ⟨res, s', hrun, hs', -⟩ := hs₂.write env hnew (Nat.le_refl _) hfits false
    refine ⟨s', ?_, hs'⟩
    simp only [hdir, hfile, fsWrite, hrun, Option.map_some]

/-- The calls that change accounts leave a tree with a working directory in it. -/
theorem Standing.accountStep {t t' : Table} {s s' : Fs} {op : AccountOp} {res : Int}
    (h : Standing s) (hrun : accountStep env t s op = some (res, t', s')) : Standing s' := by
  have hsame : ∀ {r : Int} {t₁ : Table}, some (r, t₁, s) = some (res, t', s') → Standing s' := by
    intro r t₁ heq
    simp only [Option.some.injEq, Prod.mk.injEq] at heq
    exact heq.2.2 ▸ h
  cases op with
  | add available name password admin =>
    rcases usersAdd_spec hrun with ⟨-, -, rfl⟩ |
      ⟨-, -, slot, u, s₁, -, -, -, -, -, hmake, hsync, -⟩
    · exact h
    · obtain ⟨s₂, hmake', hs₂⟩ := h.makeHome env available u.home
      rw [hmake, Option.some.injEq] at hmake'
      subst hmake'
      obtain ⟨s₃, hsync', hs₃⟩ := hs₂.syncPasswd env t'
      rw [hsync, Option.some.injEq] at hsync'
      exact hsync' ▸ hs₃
  | importUser name home uid gid pwHash =>
    obtain ⟨res', t₁, s₁, hrun', hs₁⟩ := h.usersImport env t name home uid gid pwHash
    rw [Users.accountStep, hrun'] at hrun
    simp only [Option.some.injEq, Prod.mk.injEq] at hrun
    exact hrun.2.2 ▸ hs₁
  | delete name =>
    rcases usersDelete_spec hrun with ⟨-, -, rfl⟩ | ⟨-, hsync, -⟩
    · exact h
    · obtain ⟨s₁, hsync', hs₁⟩ := h.syncPasswd env t'
      rw [hsync, Option.some.injEq] at hsync'
      exact hsync' ▸ hs₁
  | setPassword name password =>
    rw [Users.accountStep] at hrun
    exact hsame hrun
  | switch name password =>
    rw [Users.accountStep] at hrun
    rcases usersSwitch_spec hrun with ⟨-, -, rfl⟩ | ⟨-, i, -, -, -, dir, hset⟩
    · exact h
    · obtain ⟨root, kids, hinv, hc⟩ := h
      exact ⟨root, kids, hinv.fsSetCwd hc hset⟩
  | logout => exact hsame hrun

/-- The accounts are restored, and the reader does what it does without them. -/
theorem mountUsers_standing {n : Nat} {r : Reader} {t : Table} {s : Fs} (h : Standing s) :
    ∃ t' s', mountUsers env n r t s = (skipUsers n r, some (t', s')) ∧ Standing s' := by
  induction n generalizing r t s with
  | zero => exact ⟨t, s, rfl, h⟩
  | succ n ih =>
    rw [mountUsers, skipUsers]
    by_cases hbad : r.bad = true
    · rw [if_pos hbad, skipUser_bad hbad, skipUsers_bad hbad]
      exact ⟨t, s, rfl, h⟩
    · rw [if_neg hbad]
      unfold skipUser
      rw [if_neg hbad]
      rcases htake : takeUser r with ⟨out, r₁⟩
      cases out with
      | none =>
        rw [skipUsers_bad (takeUser_none htake)]
        exact ⟨t, s, rfl, h⟩
      | some u =>
        obtain ⟨res, t₁, s₁, hrun, hs₁⟩ := h.usersImport env t u.name u.home u.uid u.gid
          u.pwHash
        simp only [hrun]
        exact ih hs₁

/-! ## Restoring nodes -/

theorem Standing.createOrResolve {s : Fs} (h : Standing s) (head : NodeHead) :
    ∃ node s', createOrResolve env s head = some (node, s') ∧ Standing s' ∧
      ∀ p, node = some p → ∃ n, s'.nodes.get p = some n := by
  unfold Persist.createOrResolve
  obtain ⟨r, s', hrun, hs', -, hnew⟩ := h.create env head.path
    (if head.kind = kindDir.toNat then .dir else .file)
  rw [hrun]
  cases r with
  | some p => exact ⟨some p, s', rfl, hs', hnew⟩
  | none =>
    obtain ⟨q, hq, hlive⟩ := hs'.resolve head.path
    exact ⟨q, s', by simp only [hq, Option.map_some], hs', hlive⟩

theorem Standing.writeData {s : Fs} (h : Standing s) {node : Option Ptr}
    (hnode : ∀ p, node = some p → ∃ n, s.nodes.get p = some n) {src : List UInt8} {len : Nat}
    (hsrc : len ≤ src.length) (hfits : src.length + Mem.heapMaxSize + 65 < 4294967296) :
    ∃ s', writeData env s node src len = some s' ∧ Standing s' := by
  unfold Persist.writeData
  cases node with
  | none => exact ⟨s, rfl, h⟩
  | some p =>
    obtain ⟨n, hn⟩ := hnode p rfl
    simp only [hn]
    split
    · obtain ⟨res, s', hrun, hs', -⟩ := h.write env hnode hsrc hfits false
      rw [hrun]
      exact ⟨s', rfl, hs'⟩
    · exact ⟨s, rfl, h⟩

/-- The reader once the data of a node was passed, with or without being copied. -/
def Reader.pass (r : Reader) (copied : Bool) (n : Nat) : Reader :=
  { r with
    pos := wrap32 (r.pos + n)
    trace := .move r.pos (wrap32 (r.pos + n)) ::
      (if copied then .copy r.pos n :: r.trace else r.trace) }

variable {env}

theorem mountNodes_bad {n : Nat} {r : Reader} {s : Fs} (h : r.bad = true) :
    mountNodes env n r s = (r, some s) := by
  cases n with
  | zero => rfl
  | succ n => rw [mountNodes, if_pos h]

theorem mountNodes_none {n : Nat} {r r₁ : Reader} {s : Fs} (hbad : r.bad = false)
    (htake : takeHead r = (none, r₁)) : mountNodes env (n + 1) r s = (r₁, some s) := by
  rw [mountNodes, if_neg (by simp [hbad]), htake]

/-- One record: the node is there, and its data follows. -/
theorem mountNodes_some {n : Nat} {r r₁ : Reader} {s s₁ : Fs} {head : NodeHead}
    {node : Option Ptr} (hbad : r.bad = false) (htake : takeHead r = (some head, r₁))
    (hcreate : createOrResolve env s head = some (node, s₁)) :
    mountNodes env (n + 1) r s =
      if head.dataLen = 0 then mountNodes env n r₁ s₁
      else if r₁.length < wrap32 (r₁.pos + head.dataLen) then (r₁.fail, some s₁)
      else
        match writeData env s₁ node (r₁.buffer.drop r₁.pos) head.dataLen with
        | none => (r₁.pass (copiesData s₁ node) head.dataLen, none)
        | some s₂ => mountNodes env n (r₁.pass (copiesData s₁ node) head.dataLen) s₂ := by
  rw [mountNodes, if_neg (by simp [hbad]), htake]
  simp only [hcreate]
  rfl

theorem mountNodes_fault {n : Nat} {r r₁ : Reader} {s : Fs} {head : NodeHead}
    (hbad : r.bad = false) (htake : takeHead r = (some head, r₁))
    (hcreate : createOrResolve env s head = none) :
    mountNodes env (n + 1) r s = (r₁, none) := by
  rw [mountNodes, if_neg (by simp [hbad]), htake]
  simp only [hcreate]

theorem Reader.pass_trace (r : Reader) (copied : Bool) (n : Nat) :
    r.trace <:+ (r.pass copied n).trace := by
  show r.trace <:+ _ :: (if copied then _ :: r.trace else r.trace)
  split
  · exact (List.suffix_cons _ _).trans (List.suffix_cons _ _)
  · exact List.suffix_cons _ _

theorem Reader.move_mem_pass (r : Reader) (copied : Bool) (n : Nat) :
    .move r.pos (wrap32 (r.pos + n)) ∈ (r.pass copied n).trace := List.mem_cons_self

/-- Whatever happens, what was read before stays on record. -/
theorem mountNodes_trace (n : Nat) (r : Reader) (s : Fs) :
    r.trace <:+ (mountNodes env n r s).1.trace := by
  induction n generalizing r s with
  | zero => exact List.suffix_refl _
  | succ n ih =>
    cases hbad : r.bad with
    | true => simp only [mountNodes_bad hbad, List.suffix_refl]
    | false =>
      have htrace := takeHead_trace r
      rcases htake : takeHead r with ⟨head, r₁⟩
      rw [htake] at htrace
      have htrace : r.trace <:+ r₁.trace := htrace
      cases head with
      | none =>
        rw [mountNodes_none hbad htake]
        exact htrace
      | some head =>
        cases hcreate : createOrResolve env s head with
        | none =>
          rw [mountNodes_fault hbad htake hcreate]
          exact htrace
        | some res =>
          obtain ⟨node, s₁⟩ := res
          rw [mountNodes_some hbad htake hcreate]
          split
          · exact htrace.trans (ih r₁ s₁)
          · split
            · exact htrace
            · have hpass := htrace.trans (r₁.pass_trace (copiesData s₁ node) head.dataLen)
              split
              · exact hpass
              · exact hpass.trans (ih _ _)

/-- A record whose data is in the payload. -/
theorem Reader.Ok.pass {r : Reader} (h : r.Ok) (copied : Bool) {n : Nat}
    (hn : r.pos + n ≤ r.length) : (r.pass copied n).Ok ∧
      Same { r with pos := r.pos + n } (r.pass copied n) := by
  have hlen : r.length ≤ 1024 * 1024 := h.length
  have hwrap : wrap32 (r.pos + n) = r.pos + n := wrap32_of_lt (by omega)
  refine ⟨⟨?_, h.length, h.buffer, fun e he => ?_⟩, rfl, rfl, hwrap, rfl⟩
  · show wrap32 (r.pos + n) ≤ r.length
    rw [hwrap]
    exact hn
  · have he : e ∈ Event.move r.pos (wrap32 (r.pos + n)) ::
        (if copied then .copy r.pos n :: r.trace else r.trace) := he
    rw [hwrap] at he
    rcases List.mem_cons.mp he with rfl | he
    · exact ⟨Nat.le_add_right _ _, hn⟩
    · split at he
      · rcases List.mem_cons.mp he with rfl | he
        · exact hn
        · exact h.trace e he
      · exact h.trace e he

/-- The source of a copy goes on to the end of the payload at least. -/
theorem Reader.Ok.source_length {r : Reader} (h : r.Ok) {n : Nat} (hn : r.pos + n ≤ r.length) :
    n ≤ (r.buffer.drop r.pos).length := by
  have := h.buffer
  rw [List.length_drop]
  omega

theorem Reader.Ok.source_fits {r : Reader} (_ : r.Ok) (hb : r.buffer.length ≤ 2 * maxPayload) :
    (r.buffer.drop r.pos).length + Mem.heapMaxSize + 65 < 4294967296 := by
  have : 2 * maxPayload + Mem.heapMaxSize + 65 < 4294967296 := by decide
  rw [List.length_drop]
  omega

/-- The reader after a record that fits in the address space. -/
theorem skipNode_some {r r₁ : Reader} {head : NodeHead} (hbad : r.bad = false)
    (htake : takeHead r = (some head, r₁)) (hfit : r₁.pos + head.dataLen < 4294967296) :
    skipNode r = if head.dataLen = 0 then r₁
      else if r₁.length < r₁.pos + head.dataLen then r₁.fail
      else { r₁ with pos := r₁.pos + head.dataLen } := by
  unfold skipNode
  rw [if_neg (by simp [hbad]), htake]
  dsimp only
  rw [wrap32_of_lt hfit]

theorem lengthFits_some {r r₁ : Reader} {head : NodeHead} (hbad : r.bad = false)
    (htake : takeHead r = (some head, r₁)) :
    lengthFits r = decide (r₁.pos + head.dataLen < 4294967296) := by
  unfold lengthFits
  rw [htake, hbad]
  rfl

variable (env)

/-- **While the lengths fit**, everything stays in the payload and no call faults. -/
theorem mountNodes_fits {n : Nat} {r : Reader} {s : Fs} (h : Standing s) (hr : r.Ok)
    (hb : r.buffer.length ≤ 2 * maxPayload) (hfit : lengthsFit n r = true) :
    ∃ r' s', mountNodes env n r s = (r', some s') ∧ r'.Ok ∧ r'.length = r.length := by
  induction n generalizing r s with
  | zero => exact ⟨r, s, rfl, hr, rfl⟩
  | succ n ih =>
    rw [lengthsFit, Bool.and_eq_true] at hfit
    obtain ⟨hfirst, hrest⟩ := hfit
    cases hbad : r.bad with
    | true => exact ⟨r, s, mountNodes_bad hbad, hr, rfl⟩
    | false =>
      have hread := takeHead_reads hr
      rcases htake : takeHead r with ⟨head, r₁⟩
      rw [htake] at hread
      have hread : Reads r r₁ := hread
      have hr₁ := hread.ok
      cases head with
      | none => exact ⟨r₁, s, mountNodes_none hbad htake, hr₁, hread.length⟩
      | some head =>
        obtain ⟨node, s₁, hcreate, hs₁, hnode⟩ := h.createOrResolve env head
        rw [lengthFits_some hbad htake, decide_eq_true_eq] at hfirst
        rw [skipNode_some hbad htake hfirst] at hrest
        rw [mountNodes_some hbad htake hcreate, wrap32_of_lt hfirst]
        have hb₁ : r₁.buffer.length ≤ 2 * maxPayload := by
          rw [hread.buffer]
          exact hb
        by_cases hdata : head.dataLen = 0
        · rw [if_pos hdata] at hrest ⊢
          obtain ⟨r', s', hrun, hr', hlen⟩ := ih hs₁ hr₁ hb₁ hrest
          exact ⟨r', s', hrun, hr', hlen.trans hread.length⟩
        rw [if_neg hdata] at hrest ⊢
        by_cases hend : r₁.length < r₁.pos + head.dataLen
        · rw [if_pos hend]
          exact ⟨r₁.fail, s₁, rfl, hr₁.fail, hread.length⟩
        rw [if_neg hend] at hrest ⊢
        obtain ⟨hpass, hsame⟩ :=
          hr₁.pass (copiesData s₁ node) (by omega : r₁.pos + head.dataLen ≤ r₁.length)
        obtain ⟨s₂, hwrite, hs₂⟩ := hs₁.writeData env hnode
          (hr₁.source_length (by omega : r₁.pos + head.dataLen ≤ r₁.length)) (hr₁.source_fits hb₁)
        simp only [hwrite]
        rw [← lengthsFit_same hsame] at hrest
        obtain ⟨r', s', hrun, hr', hlen⟩ := ih hs₂ hpass hb₁ hrest
        exact ⟨r', s', hrun, hr', hlen.trans hread.length⟩

theorem lengthsFit_bad {r : Reader} (h : r.bad = true) (n : Nat) : lengthsFit n r = true := by
  induction n with
  | zero => rfl
  | succ n ih =>
    have hfirst : lengthFits r = true := by
      unfold lengthFits
      rw [h]
      rfl
    rw [lengthsFit, skipNode_bad h, hfirst, ih]
    rfl

theorem lengthsFit_none {r r₁ : Reader} (hbad : r.bad = false) (htake : takeHead r = (none, r₁))
    (n : Nat) : lengthsFit (n + 1) r = true := by
  have hfirst : lengthFits r = true := by
    unfold lengthFits
    rw [htake, hbad]
    rfl
  have hskip : skipNode r = r₁ := by
    unfold skipNode
    rw [if_neg (by simp [hbad]), htake]
  rw [lengthsFit, hskip, hfirst, lengthsFit_bad (takeHead_none htake)]
  rfl

/-- **A length that does not fit** takes the reader back. -/
theorem mountNodes_wraps {n : Nat} {r : Reader} {s : Fs} (h : Standing s) (hr : r.Ok)
    (hb : r.buffer.length ≤ 2 * maxPayload) (hfit : lengthsFit n r = false) :
    ∃ start stop, .move start stop ∈ (mountNodes env n r s).1.trace ∧ stop < start := by
  induction n generalizing r s with
  | zero => simp [lengthsFit] at hfit
  | succ n ih =>
    cases hbad : r.bad with
    | true => simp [lengthsFit_bad hbad] at hfit
    | false =>
      have hread := takeHead_reads hr
      rcases htake : takeHead r with ⟨head, r₁⟩
      rw [htake] at hread
      have hread : Reads r r₁ := hread
      have hr₁ := hread.ok
      cases head with
      | none => simp [lengthsFit_none hbad htake] at hfit
      | some head =>
        have hpos := hr₁.pos
        have hmax : r₁.length ≤ 1024 * 1024 := hr₁.length
        have hlen := takeHead_dataLen htake
        obtain ⟨node, s₁, hcreate, hs₁, hnode⟩ := h.createOrResolve env head
        rw [mountNodes_some hbad htake hcreate]
        rw [lengthsFit, lengthFits_some hbad htake] at hfit
        have hb₁ : r₁.buffer.length ≤ 2 * maxPayload := by
          rw [hread.buffer]
          exact hb
        by_cases hfirst : r₁.pos + head.dataLen < 4294967296
        · -- a later record is the one
          rw [decide_eq_true hfirst, Bool.true_and, skipNode_some hbad htake hfirst] at hfit
          rw [wrap32_of_lt hfirst]
          by_cases hdata : head.dataLen = 0
          · rw [if_pos hdata] at hfit ⊢
            exact ih hs₁ hr₁ hb₁ hfit
          rw [if_neg hdata] at hfit ⊢
          by_cases hend : r₁.length < r₁.pos + head.dataLen
          · rw [if_pos hend, lengthsFit_bad rfl] at hfit
            simp at hfit
          rw [if_neg hend] at hfit ⊢
          obtain ⟨hpass, hsame⟩ :=
            hr₁.pass (copiesData s₁ node) (by omega : r₁.pos + head.dataLen ≤ r₁.length)
          obtain ⟨s₂, hwrite, hs₂⟩ := hs₁.writeData env hnode
            (hr₁.source_length (by omega : r₁.pos + head.dataLen ≤ r₁.length)) (hr₁.source_fits hb₁)
          simp only [hwrite]
          rw [← lengthsFit_same hsame] at hfit
          exact ih hs₂ hpass hb₁ hfit
        · have hwrap : wrap32 (r₁.pos + head.dataLen) < r₁.pos := by
            unfold wrap32
            omega
          rw [if_neg (by omega), if_neg (by omega)]
          have hmem := r₁.move_mem_pass (copiesData s₁ node) head.dataLen
          refine ⟨_, _, ?_, hwrap⟩
          split
          · exact hmem
          · exact (mountNodes_trace n _ _).subset hmem

/-! ## The decoder -/

theorem Reader.Ok.start {super : Super} {buffer : List UInt8} (hle : super.payloadBytes ≤ maxPayload)
    (hb : super.payloadBytes ≤ buffer.length) : (Reader.start super buffer).Ok :=
  ⟨Nat.zero_le _, hle, hb, by simp [Reader.start]⟩

/-- No node record that the decoder comes to has a length that takes it past `2 ^ 32`. -/
def LengthsFit (super : Super) (buffer : List UInt8) : Prop :=
  lengthsFit super.nodeCount (skipUsers super.userCount (.start super buffer)) = true

/-- Restoring comes to the nodes, where the reader is where it is without the accounts. -/
theorem restore_standing {sys : System} (hs : Standing sys.fs) (super : Super)
    (buffer : List UInt8) :
    ∃ t s, Standing s ∧ restore env sys super buffer =
      ((mountNodes env super.nodeCount (skipUsers super.userCount (.start super buffer)) s).1,
        (mountNodes env super.nodeCount (skipUsers super.userCount (.start super buffer)) s).2.map
          fun s => { sys with fs := s, table := t }) := by
  obtain ⟨s₁, hreset, hs₁⟩ := hs.reset env
  obtain ⟨t, s₂, husers, hs₂⟩ := mountUsers_standing env hs₁
    (n := super.userCount) (r := .start super buffer) (t := sys.table)
  refine ⟨t, s₂, hs₂, ?_⟩
  unfold restore
  rw [hreset]
  dsimp only
  rw [← Reader.start, husers]
  dsimp only
  rcases mountNodes env super.nodeCount (skipUsers super.userCount (.start super buffer)) s₂
    with ⟨r, res⟩
  cases res with
  | none => rfl
  | some s => rfl

/-- **The decoder stays inside the payload**, goes forward and never writes behind a buffer,
exactly if all the lengths that it comes to fit. -/
theorem decoder_in_bounds_iff {sys : System} {super : Super} {buffer : List UInt8}
    (hs : Standing sys.fs) (h : Readable super)
    (hb : buffer.length = sectorsFor super.payloadBytes * Ata.ataSectorSize) :
    ((∀ e ∈ (restore env sys super buffer).1.trace, InBounds super.payloadBytes e) ∧
        (restore env sys super buffer).2 ≠ none) ↔ LengthsFit super buffer := by
  have hle : super.payloadBytes ≤ buffer.length := by
    rw [hb]
    exact le_sectorsFor h.le
  have hsize : buffer.length ≤ 2 * maxPayload := by
    have hsectors := sectorsFor_le h.le
    have hbytes : buffer.length = sectorsFor super.payloadBytes * 512 := hb
    show buffer.length ≤ 2 * (1024 * 1024)
    omega
  obtain ⟨t, s, hstanding, hrestore⟩ := restore_standing env hs super buffer
  have hread := skipUsers_reads (Reader.Ok.start h.le hle) super.userCount
  have hbuf : (skipUsers super.userCount (.start super buffer)).buffer.length ≤
      2 * maxPayload := by
    rw [hread.buffer]
    exact hsize
  rw [hrestore]
  constructor
  · rintro ⟨hbounds, -⟩
    by_contra hfit
    obtain ⟨start, stop, hmem, hlt⟩ := mountNodes_wraps env hstanding hread.ok hbuf
      (by simpa [LengthsFit] using hfit)
    have hbound : InBounds super.payloadBytes (.move start stop) := hbounds _ hmem
    exact absurd hbound.1 (by omega)
  · intro hfit
    obtain ⟨r, s', hrun, hr, hlen⟩ := mountNodes_fits env hstanding hread.ok hbuf hfit
    rw [hrun]
    have hlength : r.length = super.payloadBytes := hlen.trans hread.length
    refine ⟨fun e he => ?_, by simp⟩
    rw [← hlength]
    exact hr.trace e he

theorem fsInit_skeleton : fsInit .ample .zero = some skeleton := by
  have h : (fsInit .ample .zero).isSome = true := by decide +kernel
  obtain ⟨s₀, hinit⟩ := Option.isSome_iff_exists.mp h
  unfold skeleton
  rw [hinit, Option.getD_some]

theorem skeleton_standing : Standing skeleton := by
  have h : (fsInit .ample .zero).map (fun s => decide (s.rootNode ≠ none)) = some true := by
    decide +kernel
  rw [fsInit_skeleton] at h
  obtain ⟨root, kids, hinv, hc⟩ := fsInit_tree .ample fsInit_skeleton (by simpa using h)
  exact ⟨root, kids, hinv, hc⟩

theorem freshBoot_standing (sector : Nat → Ata.Sector) : Standing (freshBoot sector).fs := by
  have hfs : (freshBoot sector).fs = skeleton := by
    unfold freshBoot skeleton
    dsimp only
  rw [hfs]
  exact skeleton_standing

/-- The superblock of a payload. -/
def superOf (payload : List UInt8) (userCount nodeCount : Nat) : Super where
  magic := magicBytes
  version := persistVersion
  payloadBytes := payload.length
  nodeCount := nodeCount
  userCount := userCount
  checksum := (checksum payload).toNat
  saves := 1

/-- A payload with nothing behind it on its sector. -/
def oneSector (payload : List UInt8) : List UInt8 :=
  payload ++ List.replicate (Ata.ataSectorSize - payload.length) 0

/-- The directory `/x` is restored within bounds. -/
theorem decoder_in_bounds_x : (∀ e ∈ (restore .ample (freshBoot fun _ => Ata.Sector.ofBytes [])
    (superOf onlyX 0 1) (oneSector onlyX)).1.trace, InBounds 9 e) ∧
      LengthsFit (superOf onlyX 0 1) (oneSector onlyX) := by
  have hfit : lengthsFit 1 (.start (superOf onlyX 0 1) (oneSector onlyX)) = true := by
    decide +kernel
  have hread : Readable (superOf onlyX 0 1) := ⟨rfl, by decide, by decide⟩
  have hlength : (oneSector onlyX).length =
      sectorsFor (superOf onlyX 0 1).payloadBytes * Ata.ataSectorSize := by decide +kernel
  exact ⟨((decoder_in_bounds_iff .ample (freshBoot_standing _) hread hlength).mpr hfit).1, hfit⟩

/-- A file `/a` with `2 ^ 32 - 1` bytes of data. -/
def hugeFile : List UInt8 := [kindFile] ++ le16 2 ++ le32 4294967295 ++ ofString "/a"

/-- The length passes both checks: the reader goes back, and the data is read from behind the
buffer. -/
theorem huge_file_out_of_bounds :
    (∃ e ∈ (restore .ample (freshBoot fun _ => Ata.Sector.ofBytes [])
      (superOf hugeFile 0 1) (oneSector hugeFile)).1.trace, ¬ InBounds 9 e) ∧
    (restore .ample (freshBoot fun _ => Ata.Sector.ofBytes [])
      (superOf hugeFile 0 1) (oneSector hugeFile)).2.isNone := by
  have h : Event.move 9 8 ∈ (restore .ample (freshBoot fun _ => Ata.Sector.ofBytes [])
      (superOf hugeFile 0 1) (oneSector hugeFile)).1.trace ∧
    (restore .ample (freshBoot fun _ => Ata.Sector.ofBytes [])
      (superOf hugeFile 0 1) (oneSector hugeFile)).2.isNone := by decide +kernel
  exact ⟨⟨_, h.1, fun hbound => absurd hbound.1 (by decide)⟩, h.2⟩

end LightningOS.Persist
