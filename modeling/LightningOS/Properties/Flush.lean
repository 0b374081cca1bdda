import LightningOS.Properties.Privilege

/-!
# What a command changes gets written

Every command that changes the tree or the accounts sets the dirty flag, so that the shell
writes a snapshot after it. The exception is `echo` into a new file when the memory runs out
between the file and its contents: the empty file is there, and nobody says so.
-/

namespace LightningOS.Shell

open ByteMemory CString Ramfs Users Persist

variable {env : Env} {ready : Nat → Bool} {typed : Nat → Option (List UInt8)}

/-! ## The tree and the accounts -/

/-- The tree and the accounts are as they were. The working directory and who is logged in
are not part of a snapshot. -/
structure Unchanged (sys sys' : System) : Prop where
  nodes : sys'.fs.nodes = sys.fs.nodes
  bufs : sys'.fs.bufs = sys.fs.bufs
  rootNode : sys'.fs.rootNode = sys.fs.rootNode
  nodeCount : sys'.fs.nodeCount = sys.fs.nodeCount
  users : sys'.table.users = sys.table.users
  nextUid : sys'.table.nextUid = sys.table.nextUid

theorem Unchanged.of_quiet {sys sys' : System} (hfs : Quiet sys.fs sys'.fs)
    (htable : sys'.table = sys.table) : Unchanged sys sys' := by
  obtain ⟨t, ht⟩ := hfs
  constructor
  case users | nextUid => rw [htable]
  all_goals rw [ht]

theorem Unchanged.of_setCwd {sys sys' : System} {dir : Option Ptr}
    (hfs : fsSetCwd sys.fs dir = some sys'.fs) (husers : sys'.table.users = sys.table.users)
    (hnext : sys'.table.nextUid = sys.table.nextUid) : Unchanged sys sys' := by
  have hsame : sys.fs = sys'.fs → Unchanged sys sys' := fun heq =>
    ⟨by rw [heq], by rw [heq], by rw [heq], by rw [heq], husers, hnext⟩
  unfold fsSetCwd at hfs
  split at hfs
  · exact hsame (Option.some.inj hfs)
  · split at hfs
    · simp at hfs
    · split at hfs
      · rw [Option.some.injEq] at hfs
        exact ⟨by rw [← hfs], by rw [← hfs], by rw [← hfs], by rw [← hfs], husers, hnext⟩
      · exact hsame (Option.some.inj hfs)

theorem Unchanged.of_switch {sys sys' : System} {name password : List UInt8} {res : Int}
    (h : usersSwitch sys.table sys.fs name password = some (res, sys'.table, sys'.fs)) :
    Unchanged sys sys' := by
  rcases usersSwitch_spec h with ⟨-, htable, hfs⟩ | ⟨-, i, -, -, htable, dir, hset⟩
  · exact .of_quiet (by rw [hfs]; exact .refl _) htable
  · exact .of_setCwd hset (by rw [htable]) (by rw [htable])

/-! ## The first write to a file -/

/-- How much memory a text asks for. -/
def bufferSize (txt : List UInt8) : Nat := txt.length + 65

theorem echoText_length (r : Redirect) : (echoText r).length ≤ 257 := List.length_take_le _ _

/-- The first write to a file goes wrong exactly when there is no memory for it. -/
theorem fsWrite_new {s s' : Fs} {p : Ptr} {n : FsNode} {txt : List UInt8} {append : Bool}
    {res : Int} (hn : s.nodes.get p = some n) (htype : n.type = .file)
    (hsize : n.size = 0) (hcap : n.capacity = 0) (htxt : txt.length ≤ 257)
    (h : fsWrite env s (some p) txt append = some (res, s')) :
    (env.kmalloc s.time s (bufferSize txt) = none → res = -1 ∧ Quiet s s') ∧
      (env.kmalloc s.time s (bufferSize txt) ≠ none → res = 0) := by
  have hneeded : wrap32 (0 + txt.length + 1) = txt.length + 1 := by
    unfold wrap32
    omega
  have hbuffer : wrap32 (txt.length + 1 + 64) = bufferSize txt := by
    unfold wrap32 bufferSize
    omega
  cases fsWriteN_cases env h with
  | directory hn' hdir =>
    rw [hn] at hn'
    obtain rfl := Option.some.inj hn'
    exact absurd htype hdir
  | denied hn' _ hgrow =>
    rw [hn] at hn'
    obtain rfl := Option.some.inj hn'
    rw [hsize, ite_self, hneeded] at hgrow
    cases growBuf_cases env hgrow with
    | denied _ hk =>
      rw [hbuffer] at hk
      exact ⟨fun _ => ⟨rfl, s.time + 1, rfl⟩, fun hne => absurd hk hne⟩
  | written hn' _ hgrow =>
    rw [hn] at hn'
    obtain rfl := Option.some.inj hn'
    rw [hsize, ite_self, hneeded] at hgrow
    cases growBuf_cases env hgrow with
    | fits hle => omega
    | moved _ hk =>
      rw [hbuffer] at hk
      exact ⟨fun hnone => by simp [hnone] at hk, fun _ => rfl⟩

/-! ## The dirty flag -/

/-- `echo` creates a file, and there is no memory for the text. -/
def RunsOut (env : Env) (st : Session) (line : List UInt8) : Prop :=
  ∃ r p s, NewTarget env st line r p s ∧ env.kmalloc s.time s (bufferSize (echoText r)) = none

theorem NewTarget.execute_eq {st : Session} {line : List UInt8} {r : Redirect} {p : Ptr} {s : Fs}
    (h : NewTarget env st line r p s) :
    execute env ready typed st line = echoInto env (st.setFs s) r p := by
  obtain ⟨abspath, htarget, hmay⟩ := h.allowed
  rw [execute_echo h.command]
  unfold cmdEcho
  simp only [h.redirect, if_neg h.target, mayWrite, htarget, if_pos hmay, h.missing, h.created]

/-- The empty file stays, and the flag is not set. -/
theorem RunsOut.escapes {st st' : Session} {line : List UInt8} (hout : RunsOut env st line)
    (h : execute env ready typed st line = some st') :
    ¬ Unchanged st.sys st'.sys ∧ st'.sys.persist.dirty = st.sys.persist.dirty := by
  obtain ⟨r, p, s, hnew, hnone⟩ := hout
  rw [hnew.execute_eq] at h
  rcases echoInto_cases h with ⟨res, hwrite, -, hres⟩ | ⟨-, n, hn, htype⟩
  · cases hn : s.nodes.get p with
    | none => simp [fsWrite, fsWriteN, Session.setFs, hn] at hwrite
    | some n =>
      obtain ⟨hfresh, htype, -, hsize, hcap⟩ := fsCreate_newNode hnew.created hn
      obtain ⟨hneg, t, ht⟩ :=
        (fsWrite_new hn htype hsize hcap (echoText_length r) hwrite).1 hnone
      constructor
      · intro hsame
        have hnodes := hsame.nodes
        rw [ht] at hnodes
        have hp : s.nodes.get p = st.sys.fs.nodes.get p := by rw [← hnodes]
        rw [hn, hfresh] at hp
        simp at hp
      · rcases hres with ⟨hzero, -⟩ | ⟨-, hdirty⟩
        · rw [hneg] at hzero
          simp at hzero
        · exact hdirty
  · exact absurd (fsCreate_newNode hnew.created hn).2.1 htype

/-- **No change escapes the flush**, unless the flag was clear and memory runs out between a
new file and its contents. -/
theorem flushed_iff {st st' : Session} {line : List UInt8}
    (h : execute env ready typed st line = some st') :
    (¬ Unchanged st.sys st'.sys → st'.sys.persist.dirty = true) ↔
      (st.sys.persist.dirty = true ∨ ¬ RunsOut env st line) := by
  constructor
  · intro hflag
    by_cases hout : RunsOut env st line
    · obtain ⟨hchanged, hdirty⟩ := hout.escapes h
      exact Or.inl (hdirty.symm.trans (hflag hchanged))
    · exact Or.inr hout
  · intro hcond hchanged
    cases execute_effect h with
    | quiet hfs htable => exact absurd (.of_quiet hfs htable) hchanged
    | chdir _ hfs htable =>
      exact absurd (.of_setCwd hfs (by rw [htable]) (by rw [htable])) hchanged
    | su _ hswitch => exact absurd (.of_switch hswitch) hchanged
    | create _ _ _ _ _ hdirty | remove _ _ _ _ _ hdirty | write _ _ _ _ _ _ hdirty
    | createWrite _ _ _ hdirty | useradd _ _ hdirty | userdel _ _ hdirty
    | passwd _ _ _ _ hdirty => exact hdirty
    | @createOnly r p s res hnew hwrite hres _ hdirty =>
      rcases hcond with hset | hout
      · exact hdirty.trans hset
      · -- the write failed, so there was no memory
        cases hn : s.nodes.get p with
        | none => simp [fsWrite, fsWriteN, hn] at hwrite
        | some n =>
          obtain ⟨-, htype, -, hsize, hcap⟩ := fsCreate_newNode hnew.created hn
          have hwrite := fsWrite_new hn htype hsize hcap (echoText_length r) hwrite
          exact absurd ⟨r, p, s, hnew, by_contra fun hne => hres (hwrite.2 hne)⟩ hout

/-- A system whose heap has only small pieces left. -/
def Env.scarce : Env where
  kmalloc _ s n := if n ≤ sizeofFsNode then some (max s.nodes.brk s.bufs.brk) else none
  kmalloc_fresh := by
    intro t s n p h
    split at h
    · cases h
      exact ⟨s.nodes.bound _ (Nat.le_max_left _ _), s.bufs.bound _ (Nat.le_max_right _ _)⟩
    · cases h
  kmalloc_small := by
    intro t s n p h
    split at h
    next hn =>
      have hround := Mem.roundUp_le n
      have hheap : Mem.heapMaxSize = 33554432 := rfl
      have hheader : Mem.sizeofBlock = 20 := rfl
      have hnode : sizeofFsNode = 60 := rfl
      omega
    next => cases h
  junk _ := []
  build := []

/-- Alice, the administrator, has logged in on a new system. -/
def aliceSession : Session :=
  match accountStep .ample usersInit skeleton (.add true alice secret true) with
  | some (_, t, s) =>
    match accountStep .ample t s (.switch alice secret) with
    | some (_, t, s) => (sessionWith t).setFs s
    | none => sessionWith t
  | none => sessionWith usersInit

def echoHi : List UInt8 := ofString "echo hi > /tmp/x"

/-- With enough memory the flag is set, and nothing ran out. -/
theorem flushed_iff_hi : ∃ st', execute .ample (fun _ => true) (fun _ => none) aliceSession echoHi =
    some st' ∧ st'.sys.persist.dirty = true ∧ ¬ RunsOut .ample aliceSession echoHi := by
  have h : (execute .ample (fun _ => true) (fun _ => none) aliceSession echoHi).map (fun st' =>
      (st'.sys.persist.dirty, aliceSession.sys.persist.dirty)) = some (true, false) := by
    decide +kernel
  simp only [Option.map_eq_some_iff, Prod.mk.injEq] at h
  obtain ⟨st', hrun, hdirty, hclear⟩ := h
  rcases (flushed_iff hrun).mp fun _ => hdirty with hset | hout
  · rw [hclear] at hset
    simp at hset
  · exact ⟨st', hrun, hdirty, hout⟩

/-- With room for the node only, `/tmp/x` is there and the flag is not set. -/
theorem new_file_not_flushed : ∃ st', execute Env.scarce (fun _ => true) (fun _ => none)
    aliceSession echoHi = some st' ∧ ¬ Unchanged aliceSession.sys st'.sys ∧
      st'.sys.persist.dirty = false := by
  have h : (execute Env.scarce (fun _ => true) (fun _ => none) aliceSession echoHi).map (fun st' =>
      (st'.sys.persist.dirty, decide (st'.sys.fs.nodeCount = aliceSession.sys.fs.nodeCount))) =
      some (false, false) := by decide +kernel
  simp only [Option.map_eq_some_iff, Prod.mk.injEq, decide_eq_false_iff_not] at h
  obtain ⟨st', hrun, hdirty, hcount⟩ := h
  exact ⟨st', hrun, fun hsame => hcount hsame.nodeCount, hdirty⟩

end LightningOS.Shell
