import LightningOS.Properties.Privilege
import LightningOS.Properties.Words

/-!
# The text of echo

`execute` finds the command with `str_split` on one copy of the line, and takes the text of
`echo` from the other copy at a fixed place. The two agree when the line begins with the word,
and when the blanks behind the word are spaces up to the text. Otherwise the text begins with
what stands in between, and echo prints or writes that as well.
-/

namespace LightningOS.Shell

open ByteMemory CString Ramfs Users Persist StrSplit

variable {env : Env} {ready : Nat → Bool} {typed : Nat → Option (List UInt8)}

/-! ## The two copies of the line -/

def echoName : List UInt8 := ofString "echo"

/-- A line of at most 255 characters with the command `echo`, and what is behind the word. -/
structure EchoLine (line lead rest : List UInt8) : Prop where
  word : FirstWord line lead echoName rest
  length : line.length ≤ 255

/-- The parts of a line, checked by computation. -/
theorem EchoLine.of_parts {line lead rest : List UInt8} (heq : line = lead ++ (echoName ++ rest))
    (hlead : lead.all isSpace = true) (hrest : rest.head?.all isSpace = true)
    (hlen : line.length ≤ 255) : EchoLine line lead rest := by
  have hname : ∀ b ∈ echoName, isSpace b = false := by
    intro b hb
    have hall : (echoName.all fun b => !isSpace b) = true := rfl
    exact Bool.not_eq_true' _ ▸ List.all_eq_true.mp hall b hb
  refine ⟨⟨heq, List.all_eq_true.mp hlead, by decide, hname, fun b hb => ?_⟩, hlen⟩
  rw [Option.mem_def.mp hb] at hrest
  exact hrest

/-- What is behind the word, without the blanks in front of it. -/
def remainder (rest : List UInt8) : List UInt8 := rest.dropWhile isSpace

/-- The word is at the beginning of the line, and there are only spaces behind it. -/
def Straight (lead rest : List UInt8) : Prop :=
  lead = [] ∧ (rest.dropWhile (· == blank)).head? ≠ some 9

variable {line lead rest : List UInt8}

theorem isSpace_iff {c : UInt8} : isSpace c = true ↔ c = blank ∨ c = 9 := by
  unfold isSpace
  rw [Bool.or_eq_true, decide_eq_true_eq, decide_eq_true_eq]

theorem EchoLine.command (h : EchoLine line lead rest) : commandOf line = .echo := by
  unfold commandOf
  rw [show argMax = 15 + 1 from rfl, h.word.strSplit, if_neg (by decide)]
  show Command.ofName echoName = .echo
  decide

theorem EchoLine.args (h : EchoLine line lead rest) :
    echoArgs line = ((lead ++ (echoName ++ rest)).drop echoName.length).dropWhile (· == blank) := by
  unfold echoArgs
  have hlen : line.length ≤ lineMax - 1 := h.length
  rw [List.take_of_length_le hlen, h.word.eq]
  rfl

theorem dropWhile_blank (s : List UInt8) : remainder (s.dropWhile (· == blank)) = remainder s := by
  unfold remainder
  induction s with
  | nil => rfl
  | cons c s ih =>
    by_cases hc : c = blank
    · have hbeq : (c == blank) = true := beq_iff_eq.mpr hc
      rw [List.dropWhile_cons, if_pos hbeq, ih, List.dropWhile_cons,
        if_pos (isSpace_iff.mpr (.inl hc))]
    · have hbeq : ¬(c == blank) = true := fun h => hc (beq_iff_eq.mp h)
      rw [List.dropWhile_cons, if_neg hbeq]

/-- The text is the remainder of the line. -/
theorem EchoLine.args_straight (h : EchoLine line lead rest) (hs : Straight lead rest) :
    echoArgs line = remainder rest := by
  obtain ⟨hlead, hhead⟩ := hs
  rw [h.args, hlead, List.nil_append, List.drop_left, ← dropWhile_blank]
  refine (dropWhile_of_head fun b hb => ?_).symm
  rw [Bool.eq_false_iff, ne_eq, isSpace_iff]
  rintro (rfl | rfl)
  · have hne := List.head?_dropWhile_not (· == blank) rest
    rw [Option.mem_def.mp hb] at hne
    simp at hne
  · exact hhead hb

/-- What stands in front of the remainder when the line is not straight. -/
structure Stray (x : List UInt8) : Prop where
  noRedirect : 62 ∉ x
  visible : ∃ c ∈ x, c ≠ blank

theorem isSpace_redirect : isSpace 62 = false := by decide

theorem takeWhile_isSpace_redirect (s : List UInt8) : 62 ∉ s.takeWhile isSpace := by
  intro h
  have hc := List.mem_takeWhile_imp h
  rw [isSpace_redirect] at hc
  exact absurd hc (by decide)

theorem EchoLine.args_stray (h : EchoLine line lead rest) (hs : ¬Straight lead rest) :
    ∃ x, echoArgs line = x ++ remainder rest ∧ Stray x := by
  by_cases hlead : lead = []
  · -- a tab behind the word
    have hhead : (rest.dropWhile (· == blank)).head? = some 9 := by
      by_contra hne
      exact hs ⟨hlead, hne⟩
    refine ⟨(rest.dropWhile (· == blank)).takeWhile isSpace, ?_,
      takeWhile_isSpace_redirect _, 9, ?_, by decide⟩
    · rw [h.args, hlead, List.nil_append, List.drop_left, ← dropWhile_blank rest, remainder,
        List.takeWhile_append_dropWhile]
    · cases hr : rest.dropWhile (· == blank) with
      | nil => rw [hr] at hhead; simp at hhead
      | cons c s =>
        rw [hr, List.head?_cons, Option.some.injEq] at hhead
        rw [hhead, List.takeWhile_cons_of_pos (by decide)]
        exact List.mem_cons_self
  · -- blanks in front of the word: its end is taken for the text
    obtain ⟨y, hy⟩ : ∃ y, (lead ++ (echoName ++ rest)).drop echoName.length = y ++ 111 :: rest ∧
        62 ∉ y := by
      have hpos : 0 < lead.length := List.length_pos_iff.mpr hlead
      have hword : lead ++ (echoName ++ rest) = (lead ++ ofString "ech") ++ (111 :: rest) := by
        simp only [echoName, List.append_assoc]
        rfl
      refine ⟨(lead ++ ofString "ech").drop echoName.length, ?_, fun hmem => ?_⟩
      · rw [hword, List.drop_append_of_le_length]
        rw [List.length_append]
        have : (ofString "ech").length + 1 = echoName.length := rfl
        omega
      · rcases List.mem_append.mp (List.mem_of_mem_drop hmem) with hmem | hmem
        · have hc := h.word.blanks 62 hmem
          rw [isSpace_redirect] at hc
          exact absurd hc (by decide)
        · exact absurd hmem (by decide)
    obtain ⟨hdrop, hnone⟩ := hy
    refine ⟨y.dropWhile (· == blank) ++ 111 :: rest.takeWhile isSpace, ?_, ?_, 111, ?_, by decide⟩
    · rw [h.args, hdrop, List.dropWhile_append]
      have htail : (111 :: rest).dropWhile (· == blank) = 111 :: rest := rfl
      have hrest : 111 :: rest = 111 :: (rest.takeWhile isSpace ++ remainder rest) := by
        rw [remainder, List.takeWhile_append_dropWhile]
      split
      next hempty =>
        rw [htail, List.isEmpty_iff.mp hempty, List.nil_append, List.cons_append, ← hrest]
      next => rw [List.append_assoc, List.cons_append, ← hrest]
    · intro hmem
      rcases List.mem_append.mp hmem with hmem | hmem
      · exact hnone ((List.dropWhile_suffix _).subset hmem)
      · rcases List.mem_cons.mp hmem with hmem | hmem
        · exact absurd hmem (by decide)
        · exact takeWhile_isSpace_redirect rest hmem
    · exact List.mem_append_right _ List.mem_cons_self

/-! ## The redirection -/

theorem length_trimRight_stray {x : List UInt8} (hx : Stray x) (s : List UInt8) :
    (trimRight s).length < (trimRight (x ++ s)).length := by
  obtain ⟨c, hmem, hc⟩ := hx.visible
  have hne : x.reverse.dropWhile (· == blank) ≠ [] := by
    intro hnil
    have := List.dropWhile_eq_nil_iff.mp hnil c (List.mem_reverse.mpr hmem)
    exact hc (beq_iff_eq.mp this)
  have hpos : 0 < (x.reverse.dropWhile (· == blank)).length := List.length_pos_iff.mpr hne
  unfold trimRight
  rw [List.length_reverse, List.length_reverse, List.reverse_append, List.dropWhile_append]
  split
  next hempty =>
    rw [List.isEmpty_iff.mp hempty, List.length_nil]
    exact hpos
  next =>
    rw [List.length_append, List.length_reverse]
    have : 0 < x.length := List.length_pos_of_mem hmem
    omega

/-- The stray text becomes part of the text, and the target stays. -/
theorem findRedirect_stray {x : List UInt8} (hx : Stray x) (t : List UInt8) :
    findRedirect (x ++ t) = (findRedirect t).map fun r =>
      { r with txt := trimRight (x ++ t.takeWhile (· != 62)) } := by
  have hne : ∀ c ∈ x, (c != 62) = true := by
    intro c hc
    rw [bne_iff_ne]
    rintro rfl
    exact hx.noRedirect hc
  unfold findRedirect
  rw [List.dropWhile_append_of_pos hne, List.takeWhile_append_of_pos hne]
  cases t.dropWhile (· != 62) <;> rfl

theorem findRedirect_txt {t : List UInt8} {r : Redirect} (h : findRedirect t = some r) :
    r.txt = trimRight (t.takeWhile (· != 62)) := by
  unfold findRedirect at h
  split at h
  · simp at h
  · rw [← Option.some.inj h]

/-! ## The way to the file -/

/-- The command with this target gets as far as `fs_write`, with the file `f`. -/
inductive Arrives (env : Env) (st : Session) (target : List UInt8) : Session → Ptr → Prop
  | found {st₁ : Session} {f : Ptr} {n : FsNode} : target ≠ [] →
      mayWrite st "echo" target = some (true, st₁) →
      fsResolve st₁.sys.fs target = some (some f) →
      st₁.sys.fs.nodes.get f = some n → n.type = .file → Arrives env st target st₁ f
  | created {st₁ : Session} {s : Fs} {f : Ptr} {n : FsNode} : target ≠ [] →
      mayWrite st "echo" target = some (true, st₁) →
      fsResolve st₁.sys.fs target = some none →
      fsCreate env st₁.sys.fs target .file = some (some f, s) →
      s.nodes.get f = some n → n.type = .file → Arrives env st target (st₁.setFs s) f

/-- The end of `cmd_echo`, with the call of `fs_write`. -/
def echoWrite (env : Env) (st : Session) (file : Ptr) (r : Redirect) : Option Session :=
  match fsWrite env st.sys.fs (some file) (echoText r) r.append with
  | none => none
  | some (result, s) =>
    if result ≠ 0 then some ((st.setFs s).printError "echo" "write failed")
    else some (st.setFs s).markDirty

theorem echoInto_file {st : Session} {r : Redirect} {f : Ptr} {n : FsNode}
    (hn : st.sys.fs.nodes.get f = some n) (htype : n.type = .file) :
    echoInto env st r f = echoWrite env st f r := by
  have hfile : ¬n.type ≠ .file := not_not_intro htype
  unfold echoInto
  rw [hn]
  exact if_neg hfile

theorem Arrives.node {st st₁ : Session} {target : List UInt8} {f : Ptr}
    (h : Arrives env st target st₁ f) : ∃ n, st₁.sys.fs.nodes.get f = some n ∧ n.type = .file := by
  cases h with
  | found _ _ _ hn htype => exact ⟨_, hn, htype⟩
  | created _ _ _ _ hn htype => exact ⟨_, hn, htype⟩

theorem Arrives.cmdEcho {st st₁ : Session} {f : Ptr} {args : List UInt8} {r : Redirect}
    (hr : findRedirect args = some r) (h : Arrives env st r.target st₁ f) :
    cmdEcho env st args = echoWrite env st₁ f r := by
  unfold Shell.cmdEcho
  rw [hr]
  cases h with
  | found htarget hmay hresolve hn htype =>
    simp only [hmay, hresolve, if_neg htarget]
    exact echoInto_file hn htype
  | created htarget hmay hresolve hcreate hn htype =>
    simp only [hmay, hresolve, hcreate, if_neg htarget]
    exact echoInto_file hn htype

/-- Without a file to write to, the text makes no difference. -/
theorem cmdEcho_stopped {st : Session} {args args' : List UInt8} {r r' : Redirect}
    (hr : findRedirect args = some r) (hr' : findRedirect args' = some r')
    (htarget : r'.target = r.target) (h : ∀ {st₁ f}, ¬Arrives env st r.target st₁ f) :
    cmdEcho env st args = cmdEcho env st args' := by
  have hinto : ∀ {st₁ : Session} {f : Ptr},
      (∀ n, st₁.sys.fs.nodes.get f = some n → n.type ≠ .file) →
        echoInto env st₁ r f = echoInto env st₁ r' f := by
    intro st₁ f hdir
    unfold echoInto
    cases hn : st₁.sys.fs.nodes.get f with
    | none => rfl
    | some n => simp only [if_pos (hdir n hn)]
  unfold cmdEcho
  rw [hr, hr']
  simp only [htarget]
  by_cases hempty : r.target = []
  · rw [if_pos hempty, if_pos hempty]
  rw [if_neg hempty, if_neg hempty]
  cases hmay : mayWrite st "echo" r.target with
  | none => rfl
  | some result =>
    obtain ⟨ok, st₁⟩ := result
    cases ok with
    | false => rfl
    | true =>
      simp only
      cases hresolve : fsResolve st₁.sys.fs r.target with
      | none => rfl
      | some file =>
        cases file with
        | some f =>
          exact hinto fun n hn htype => h (.found hempty hmay hresolve hn htype)
        | none =>
          simp only
          cases hcreate : fsCreate env st₁.sys.fs r.target .file with
          | none => rfl
          | some result =>
            obtain ⟨file, s⟩ := result
            cases file with
            | none => rfl
            | some f =>
              exact hinto fun n hn htype => h (.created hempty hmay hresolve hcreate hn htype)

/-! ## The text in the file -/

/-- The result of `fs_write`, if it has one. -/
def writeResult (env : Env) (st : Session) (file : Ptr) (r : Redirect) : Option Int :=
  (fsWrite env st.sys.fs (some file) (echoText r) r.append).map Prod.fst

/-- A write that fails leaves the same behind for every text. -/
theorem fsWrite_failed_same {s s₁ : Fs} {f : Ptr} {n : FsNode} {txt : List UInt8}
    {append : Bool} {res : Int} (hn : s.nodes.get f = some n) (htype : n.type = .file)
    (h : fsWrite env s (some f) txt append = some (res, s₁)) (hres : res ≠ 0) :
    res = -1 ∧ s₁ = { s with time := s.time + 1 } := by
  cases fsWriteN_cases env h with
  | directory hn' hdir =>
    rw [hn] at hn'
    obtain rfl := Option.some.inj hn'
    exact absurd htype hdir
  | denied _ _ hgrow =>
    cases growBuf_cases env hgrow with
    | denied => exact ⟨rfl, rfl⟩
  | written => exact absurd rfl hres

/-- After a write that succeeds the size of the file is that of the text, behind the old one. -/
theorem fsWrite_size {s s₁ : Fs} {f : Ptr} {n : FsNode} {txt : List UInt8} {append : Bool}
    (hn : s.nodes.get f = some n) (h : fsWrite env s (some f) txt append = some (0, s₁)) :
    (s₁.nodes.get f).map FsNode.size =
      some (wrap32 ((if append then n.size else 0) + txt.length)) := by
  cases fsWriteN_cases env h with
  | written hn' =>
    rw [hn] at hn'
    obtain rfl := Option.some.inj hn'
    simp only [Fs.setNode, Store.get_set_same, Option.map_some]

theorem echoText_length_lt {r r' : Redirect} (h : r.txt.length < r'.txt.length)
    (hle : r.txt.length < lineMax) : (echoText r).length < (echoText r').length := by
  unfold echoText
  rw [List.length_take, List.length_take, List.length_append, List.length_append]
  have hmax : lineMax = 256 := rfl
  simp only [List.length_singleton]
  omega

/-- A write that succeeds is told from one that fails by the error. -/
theorem markDirty_ne_printError (st : Session) (s s' : Fs) (command message : String) :
    (st.setFs s).markDirty ≠ (st.setFs s').printError command message := by
  intro heq
  have herr := congrArg (fun st : Session => st.errors.length) heq
  simp only [Session.setFs, Session.markDirty, Session.printError, List.length_append,
    List.length_singleton] at herr
  omega

/-- Texts of different lengths are not written with the same effect. -/
theorem echoWrite_eq_iff {st : Session} {f : Ptr} {n : FsNode} {r r' : Redirect}
    (hn : st.sys.fs.nodes.get f = some n) (htype : n.type = .file) (happend : r'.append = r.append)
    (hlen : (echoText r).length < (echoText r').length) :
    echoWrite env st f r = echoWrite env st f r' ↔
      writeResult env st f r = writeResult env st f r' ∧ writeResult env st f r ≠ some 0 := by
  have hbound := List.length_take_le (lineMax + 1) (r'.txt ++ [10])
  have hmax : lineMax = 256 := rfl
  unfold echoWrite writeResult
  rw [happend]
  cases hw : fsWrite env st.sys.fs (some f) (echoText r) r.append with
  | none =>
    cases hw' : fsWrite env st.sys.fs (some f) (echoText r') r.append with
    | none => simp
    | some result =>
      obtain ⟨res, s⟩ := result
      simp only [Option.map_none, Option.map_some, reduceCtorEq, false_and, iff_false]
      split <;> simp
  | some result =>
    obtain ⟨res, s⟩ := result
    cases hw' : fsWrite env st.sys.fs (some f) (echoText r') r.append with
    | none =>
      simp only [Option.map_none, Option.map_some, reduceCtorEq, false_and, iff_false]
      split <;> simp
    | some result' =>
      obtain ⟨res', s'⟩ := result'
      simp only [Option.map_some, Option.some.injEq, ne_eq]
      by_cases hres : res = 0
      · by_cases hres' : res' = 0
        · -- the file has another size
          subst hres hres'
          simp only [not_true_eq_false, if_false, and_false, iff_false]
          intro heq
          have hfs : s = s' := congrArg (fun st : Session => st.sys.fs) (Option.some.inj heq)
          have hsize := fsWrite_size hn hw
          rw [hfs, fsWrite_size hn hw', Option.some.injEq] at hsize
          unfold wrap32 at hsize
          unfold echoText at hbound hlen hsize
          omega
        · subst hres
          simp only [hres', not_true_eq_false, not_false_eq_true, if_false, if_true, and_false,
            iff_false]
          exact fun heq => markDirty_ne_printError st s s' _ _ (Option.some.inj heq)
      · by_cases hres' : res' = 0
        · subst hres'
          simp only [hres, not_true_eq_false, not_false_eq_true, if_false, if_true, false_and,
            iff_false]
          exact fun heq => markDirty_ne_printError st s' s _ _ (Option.some.inj heq).symm
        · simp only [hres, hres', not_false_eq_true, if_true, and_true]
          obtain ⟨hcode, hs⟩ := fsWrite_failed_same hn htype hw hres
          obtain ⟨hcode', hs'⟩ := fsWrite_failed_same hn htype hw' hres'
          rw [hcode, hcode', hs, hs']
          exact ⟨fun _ => rfl, fun _ => rfl⟩

/-! ## What echo does with a line -/

theorem EchoLine.prints (h : EchoLine line lead rest) :
    executePrints line = echoPrints (echoArgs line) := by
  have hc := h.command
  obtain ⟨name, words, hargv, hname⟩ := argv_of_command line (by rw [hc]; decide)
  unfold executePrints
  simp only [hargv, hname, hc]
  rfl

/-- No file is written, neither with the one text nor with the other. -/
def Unwritten (env : Env) (st : Session) (r r' : Redirect) : Prop :=
  ∀ {st₁ f}, Arrives env st r.target st₁ f →
    writeResult env st₁ f r = writeResult env st₁ f r' ∧ writeResult env st₁ f r ≠ some 0

/-- With stray text in front, only a redirection that leads nowhere hides it. -/
theorem cmdEcho_stray_iff {x t : List UInt8} (hx : Stray x) (ht : t.length ≤ 255) (st : Session) :
    (cmdEcho env st (x ++ t) = cmdEcho env st t ∧ echoPrints (x ++ t) = echoPrints t) ↔
      ∃ r r', findRedirect t = some r ∧ findRedirect (x ++ t) = some r' ∧ Unwritten env st r r' := by
  have hr' := findRedirect_stray hx t
  cases hr : findRedirect t with
  | none =>
    -- the text is printed
    rw [hr, Option.map_none] at hr'
    refine ⟨fun h => ?_, fun ⟨r, _, h, _⟩ => by simp at h⟩
    obtain ⟨-, hprints⟩ := h
    obtain ⟨c, hc, -⟩ := hx.visible
    have hpos : 0 < x.length := List.length_pos_of_mem hc
    unfold echoPrints at hprints
    rw [hr, hr'] at hprints
    have hlen := congrArg List.length hprints
    simp only [List.length_append, List.length_singleton] at hlen
    omega
  | some r =>
    rw [hr, Option.map_some] at hr'
    generalize htxt : trimRight (x ++ t.takeWhile (· != 62)) = txt' at hr'
    have hprints : echoPrints (x ++ t) = echoPrints t := by
      unfold echoPrints
      rw [hr, hr']
    have hlen : (echoText r).length < (echoText { r with txt := txt' }).length := by
      refine echoText_length_lt ?_ ?_
      · rw [findRedirect_txt hr, ← htxt]
        exact length_trimRight_stray hx _
      · rw [findRedirect_txt hr]
        have htrim : (trimRight (t.takeWhile (· != 62))).length ≤ (t.takeWhile (· != 62)).length := by
          unfold trimRight
          rw [List.length_reverse]
          exact (List.dropWhile_suffix _).length_le.trans (List.length_reverse.le)
        have htake : (t.takeWhile (· != 62)).length ≤ t.length := (List.takeWhile_prefix _).length_le
        have hmax : lineMax = 256 := rfl
        omega
    constructor
    · rintro ⟨hrun, -⟩
      refine ⟨r, _, rfl, hr', fun {st₁ f} harr => ?_⟩
      obtain ⟨n, hn, htype⟩ := harr.node
      have harr' : Arrives env st ({ r with txt := txt' } : Redirect).target st₁ f := harr
      rw [harr.cmdEcho hr, harr'.cmdEcho hr'] at hrun
      exact (echoWrite_eq_iff hn htype (by rfl) hlen).mp hrun.symm
    · rintro ⟨r₀, r₀', hr₀, hr₀', hun⟩
      obtain rfl := Option.some.inj hr₀
      obtain rfl := Option.some.inj (hr'.symm.trans hr₀')
      refine ⟨?_, hprints⟩
      by_cases hany : ∃ st₁ f, Arrives env st r.target st₁ f
      · obtain ⟨st₁, f, harr⟩ := hany
        obtain ⟨n, hn, htype⟩ := harr.node
        have harr' : Arrives env st ({ r with txt := txt' } : Redirect).target st₁ f := harr
        rw [harr.cmdEcho hr, harr'.cmdEcho hr']
        exact ((echoWrite_eq_iff hn htype (by rfl) hlen).mpr (hun harr)).symm
      · exact cmdEcho_stopped hr' hr rfl fun {st₁ f} harr => hany ⟨st₁, f, harr⟩

/-- **What echo prints or writes comes from the remainder of the line, if that is straight.**
Otherwise it makes no difference only where no file is written. -/
theorem echo_text_iff (env : Env) (ready : Nat → Bool) (typed : Nat → Option (List UInt8))
    (st : Session) (h : EchoLine line lead rest) :
    (execute env ready typed st line = cmdEcho env st (remainder rest) ∧
        executePrints line = echoPrints (remainder rest)) ↔
      Straight lead rest ∨ ∃ r r', findRedirect (remainder rest) = some r ∧
        findRedirect (echoArgs line) = some r' ∧ Unwritten env st r r' := by
  rw [execute_echo h.command, h.prints]
  by_cases hs : Straight lead rest
  · rw [h.args_straight hs]
    exact ⟨fun _ => .inl hs, fun _ => ⟨rfl, rfl⟩⟩
  · obtain ⟨x, hargs, hx⟩ := h.args_stray hs
    have hlen : (remainder rest).length ≤ 255 := by
      have hline := h.length
      rw [h.word.eq, List.length_append, List.length_append] at hline
      have hle : (remainder rest).length ≤ rest.length := (List.dropWhile_suffix _).length_le
      omega
    rw [hargs, cmdEcho_stray_iff hx hlen]
    exact ⟨.inr, fun hor => hor.resolve_left hs⟩

def echoTmp : List UInt8 := ofString "echo  hi > /tmp/x"

theorem echo_text_iff_tmp :
    execute .ample (fun _ => true) (fun _ => none) (sessionWith usersInit) echoTmp =
        cmdEcho .ample (sessionWith usersInit) (ofString "hi > /tmp/x") ∧
      executePrints echoTmp = [] := by
  have hline : EchoLine echoTmp [] (ofString "  hi > /tmp/x") :=
    EchoLine.of_parts rfl rfl rfl (by decide)
  have hrest : remainder (ofString "  hi > /tmp/x") = ofString "hi > /tmp/x" := by decide
  have h := (echo_text_iff .ample (fun _ => true) (fun _ => none) (sessionWith usersInit)
    hline).mpr (.inl ⟨rfl, by decide⟩)
  rw [hrest] at h
  exact ⟨h.1, h.2.trans (by decide)⟩

/-- Two blanks in front of the command, and the end of the command is printed too. -/
theorem echo_indented :
    EchoLine (ofString "  echo hi") (ofString "  ") (ofString " hi") ∧
      executePrints (ofString "  echo hi") = ofString "ho hi" ++ [10] ∧
      echoPrints (remainder (ofString " hi")) = ofString "hi" ++ [10] ∧
      executePrints (ofString "echo hi") = ofString "hi" ++ [10] :=
  ⟨EchoLine.of_parts rfl rfl rfl (by decide), by decide, by decide, by decide⟩

end LightningOS.Shell
