import LightningOS.Lib.Fields
import LightningOS.Properties.States

/-!
# /etc/passwd

`sync_passwd_file` cuts the file and appends a line for each account. Each line goes
through a buffer of 160 bytes, and the longest account needs 162. `readPasswd` reads the
file the way other programs read such a file, so a colon or a newline in a home directory
spoils it as well. Accounts of `users_add` have neither, but a restored account can.
-/

namespace LightningOS.Users

open ByteMemory CString Fields Ramfs Forest Shell

variable {env : Env} {t t' : Table} {s s' s₁ : Fs} {root : Ptr} {kids : Forest Ptr}

/-! ## Writing the lines -/

/-- What a walk sees of the nodes of `s` is the same in `s'`. -/
def Sees (s s' : Fs) : Prop :=
  ∀ {q n}, s.nodes.get q = some n → ∃ n', s'.nodes.get q = some n' ∧ n'.name = n.name ∧
    n'.type = n.type ∧ n'.parent = n.parent

theorem Sees.refl (s : Fs) : Sees s s := fun hn => ⟨_, hn, rfl, rfl, rfl⟩

theorem Sees.trans {s₂ : Fs} (h : Sees s s₁) (h' : Sees s₁ s₂) : Sees s s₂ := by
  intro q n hn
  obtain ⟨n₁, hn₁, hname, htype, hparent⟩ := h hn
  obtain ⟨n₂, hn₂, hname', htype', hparent'⟩ := h' hn₁
  exact ⟨n₂, hn₂, hname'.trans hname, htype'.trans htype, hparent'.trans hparent⟩

/-- From the time `t₀` on the heap grants what it can hold. -/
def GrantsFrom (env : Env) (t₀ : Nat) : Prop :=
  ∀ t s n, t₀ ≤ t → Mem.roundUp n + Mem.sizeofBlock ≤ Mem.heapMaxSize → env.kmalloc t s n ≠ none

theorem GrantsFrom.later {t₀ t₁ : Nat} (h : GrantsFrom env t₀) (hle : t₀ ≤ t₁) : GrantsFrom env t₁ :=
  fun t s n ht hn => h t s n (Nat.le_trans hle ht) hn

theorem growBuf_time {f : Ptr} {n : FsNode} {base needed : Nat} {r : Option FsNode}
    (h : growBuf env s f n base needed = some (r, s')) : s.time ≤ s'.time := by
  cases growBuf_cases env h with
  | fits => exact Nat.le_refl _
  | denied => exact Nat.le_succ _
  | moved _ _ _ hfree =>
    have htime := freeBuf_time hfree
    exact Nat.le_trans (Nat.le_succ _) (Nat.le_of_eq htime.symm)

theorem fsWrite_time {file : Option Ptr} {txt : List UInt8} {append : Bool} {res : Int}
    (h : fsWrite env s file txt append = some (res, s')) : s.time ≤ s'.time := by
  cases fsWriteN_cases env h with
  | nobody => exact Nat.le_refl _
  | directory => exact Nat.le_refl _
  | denied _ _ hgrow => exact growBuf_time hgrow
  | written _ _ hgrow =>
    have hle := growBuf_time hgrow
    exact hle

/-- Memory for a line is there. -/
theorem writeLine_granted (h : TreeInv s root kids) (hg : GrantsFrom env s.time) {f : Ptr}
    {n : FsNode} (hn : s.nodes.get f = some n) (hfile : n.type = .file) (txt : List UInt8)
    (append : Bool) (hroom : (if append then n.size else 0) + txt.length + 92 ≤ Mem.heapMaxSize) :
    ∃ s', fsWrite env s (some f) txt append = some (0, s') ∧ TreeInv s' root kids ∧
      Written s s' f n ((if append then contents s n else []) ++ txt) := by
  have hmax : Mem.heapMaxSize = 33554432 := rfl
  obtain ⟨res, s', hrun, hres⟩ := h.write env hn hfile (Nat.le_refl txt.length) append (by omega)
  rcases hres with ⟨rfl, -⟩ | ⟨rfl, hinv, hw⟩
  · refine absurd (fsWriteN_failed hn hfile hrun) (hg _ _ _ (Nat.le_refl _) ?_)
    have hround := Mem.roundUp_le
      (wrap32 (wrap32 ((if append then n.size else 0) + txt.length + 1) + 64))
    have hheader : Mem.sizeofBlock = 20 := rfl
    simp only [wrap32] at hround ⊢
    omega
  · rw [List.take_of_length_le (Nat.le_refl _)] at hw
    exact ⟨s', hrun, hinv, hw⟩

theorem appendChild_time {parent node : Ptr} (h : appendChild s parent node = some s') :
    s'.time = s.time := by
  unfold appendChild at h
  repeat' split at h
  all_goals first
    | exact absurd h.symm (Option.some_ne_none _)
    | (obtain rfl := Option.some.inj h; rfl)

theorem fsCreate_time {path : List UInt8} {type : FsType} {r : Option Ptr}
    (h : fsCreate env s path type = some (r, s')) : s.time ≤ s'.time := by
  cases r with
  | none =>
    obtain ⟨t, hle, rfl⟩ := fsCreate_none h
    exact hle
  | some p =>
    obtain ⟨d, comp, -, -, hnew⟩ := fsCreate_some h
    cases nodeNew_cases env hnew with
    | child _ happend =>
      have htime := appendChild_time happend
      show s.time ≤ _
      rw [htime]
      show s.time ≤ s.time + 1 + 1
      omega

theorem passwdLine_length (u : User) : (passwdLine u).length ≤ 159 := List.length_take_le _ _

/-- The loop appends the lines, the first one to nothing. -/
theorem writePasswd_spec {f : Ptr} {us : List User} : ∀ {s s' : Fs} {n : FsNode} {first : Bool},
    TreeInv s root kids → GrantsFrom env s.time → s.nodes.get f = some n → n.type = .file →
    (if first then 0 else n.size) + 159 * us.length + 92 ≤ Mem.heapMaxSize →
    writePasswd env (some f) first us s = some s' →
    TreeInv s' root kids ∧ Sees s s' ∧ ∃ n', s'.nodes.get f = some n' ∧
      contents s' n' = (if first then [] else contents s n) ++ us.flatMap passwdLine := by
  induction us with
  | nil =>
    intro s s' n first h hg hn hfile hroom hrun
    rw [writePasswd] at hrun
    cases first with
    | false =>
      obtain rfl := Option.some.inj hrun
      exact ⟨h, Sees.refl _, n, hn, (List.append_nil _).symm⟩
    | true =>
      obtain ⟨s₁, hwrite, hinv, hw⟩ := writeLine_granted h hg hn hfile [] false hroom
      rw [if_pos rfl, hwrite] at hrun
      obtain rfl := Option.some.inj hrun
      obtain ⟨n', hn', -, -, htext, -⟩ := hw.node
      exact ⟨hinv, hw.sees hn, n', hn', htext⟩
  | cons u us ih =>
    intro s s' n first h hg hn hfile hroom hrun
    have hline := passwdLine_length u
    have hflag : (if (!first) = true then n.size else 0) = if first then 0 else n.size := by
      cases first <;> rfl
    rw [List.length_cons] at hroom
    obtain ⟨s₁, hwrite, hinv, hw⟩ := writeLine_granted h hg hn hfile (passwdLine u)
      (!first) (by rw [hflag]; omega)
    rw [writePasswd, hwrite] at hrun
    obtain ⟨n₁, hn₁, -, htype, htext, hsize⟩ := hw.node
    have hdata : (contents s n).length = n.size := contents_length (h.ok hn).data
    have hsize' : n₁.size = (if first then 0 else n.size) + (passwdLine u).length := by
      rw [hsize, List.length_append]
      cases first with
      | false => exact congrArg (· + _) hdata
      | true => rfl
    obtain ⟨hinv', hsees, n', hn', htext'⟩ := ih hinv (hg.later (fsWrite_time hwrite)) hn₁
      (htype.trans hfile) (by rw [if_neg Bool.false_ne_true, hsize']; omega) hrun
    refine ⟨hinv', Sees.trans (hw.sees hn) hsees, n', hn', ?_⟩
    rw [htext', if_neg Bool.false_ne_true, htext, List.flatMap_cons, List.append_assoc]
    cases first <;> rfl

/-! ## Finding the file -/

theorem start_etcPasswd (h : TreeInv s root kids) : start s etcPasswd = some root := by
  rw [start, if_pos (by decide), h.isRoot]

theorem Sees.resolve (h : TreeInv s root kids) (h' : TreeInv s' root kids) (hs : Sees s s') :
    fsResolve s' etcPasswd = fsResolve s etcPasswd := by
  rw [fsResolve_follow, fsResolve_follow, start_etcPasswd h, start_etcPasswd h']
  exact h.follow_congr h' hs _ h.root_mem

/-- A file that is created there is found there. -/
theorem created_resolves (h : TreeInv s root kids) {c : Ptr} (hc : s.currentDir = some c)
    (hnone : fsResolve s etcPasswd = some none) {p : Ptr}
    (hcreate : fsCreate env s etcPasswd .file = some (some p, s')) :
    ∃ kids', TreeInv s' root kids' ∧ fsResolve s' etcPasswd = some (some p) ∧
      ∃ n, s'.nodes.get p = some n ∧ n.type = .file := by
  obtain ⟨d, comp, kids', hleads, hin⟩ := create_leadsTo h hc hcreate
  obtain ⟨dn, hd, -⟩ := hin.dir
  obtain ⟨x, init, hstart, hnames, hfollow⟩ := hleads.walk
  rw [start_etcPasswd h] at hstart
  obtain rfl := Option.some.inj hstart
  have hleads' : LeadsTo s' etcPasswd d comp :=
    ⟨root, init, start_etcPasswd hin.inv, hnames, hin.follow h init h.root_mem hfollow⟩
  have hcomp : comp = ofString "passwd" := by
    have hlast := congrArg List.getLast? hnames
    rw [List.getLast?_concat] at hlast
    exact (Option.some.inj hlast).symm
  have hstep : ∀ s : Fs, follow s (some d) [comp] = findChild s (some d) comp := by
    intro s
    rw [follow, if_neg (by rw [hcomp]; decide), if_neg (by rw [hcomp]; decide)]
    cases findChild s (some d) comp with
    | none => rfl
    | some r => cases r <;> rfl
  have hbefore : findChild s (some d) comp = some none := by
    rw [← hstep, ← hleads.resolve, hnone]
  refine ⟨kids', hin.inv, ?_, _, hin.added.new, rfl⟩
  rw [hleads'.resolve, hstep, hin.findChild h hd comp hbefore, if_pos ⟨rfl, rfl⟩]
  rfl

/-- **What the file holds** after `sync_passwd_file`, if there is memory. -/
theorem syncPasswdFile_spec (hr : Rooted s) (hg : GrantsFrom env s.time)
    (hrun : syncPasswdFile env t s = some s') {file : Ptr} {n : FsNode}
    (hfile : fsResolve s' etcPasswd = some (some file)) (hn : s'.nodes.get file = some n)
    (htype : n.type = .file) : contents s' n = (accounts t).flatMap passwdLine := by
  obtain ⟨⟨root, kids, h⟩, c, hc⟩ := hr
  have hcount : (accounts t).length ≤ 8 := by
    rw [accounts, List.length_map]
    exact Persist.usersCount_le t
  have hmax : Mem.heapMaxSize = 33554432 := rfl
  -- the loop, on a file that is found under the name
  have hwrites : ∀ {s₁ : Fs} {kids₁ : Forest Ptr} {f : Ptr} {m : FsNode},
      TreeInv s₁ root kids₁ → GrantsFrom env s₁.time → fsResolve s₁ etcPasswd = some (some f) →
      s₁.nodes.get f = some m → m.type = .file →
      writePasswd env (some f) true (accounts t) s₁ = some s' →
      contents s' n = (accounts t).flatMap passwdLine := by
    intro s₁ kids₁ f m h₁ hg₁ hf hm hmtype hrun₁
    obtain ⟨h', hsees, n', hn', htext⟩ := writePasswd_spec h₁ hg₁ hm hmtype
      (by rw [if_pos rfl]; omega) hrun₁
    rw [hsees.resolve h₁ h', hf] at hfile
    obtain rfl := Option.some.inj (Option.some.inj hfile)
    rw [hn] at hn'
    obtain rfl := Option.some.inj hn'
    exact htext
  rw [syncPasswdFile] at hrun
  cases hres : fsResolve s etcPasswd with
  | none => simp [hres] at hrun
  | some r =>
    cases r with
    | some f =>
      simp only [hres] at hrun
      obtain ⟨m, hm⟩ : ∃ m, s.nodes.get f = some m := by
        rw [fsResolve_follow, start_etcPasswd h] at hres
        obtain ⟨q, hq, hmem⟩ := h.follow (pathNames etcPasswd) h.root_mem
        rw [hres] at hq
        exact h.get (hmem f (Option.some.inj hq).symm)
      cases hmtype : m.type with
      | file => exact hwrites h hg hres hm hmtype hrun
      | dir =>
        -- nothing is written to a directory
        rw [Persist.writePasswd_dir hm hmtype] at hrun
        obtain rfl := Option.some.inj hrun
        rw [hres] at hfile
        obtain rfl := Option.some.inj (Option.some.inj hfile)
        rw [hn] at hm
        obtain rfl := Option.some.inj hm
        rw [htype] at hmtype
        cases hmtype
    | none =>
      simp only [hres] at hrun
      cases hcreate : fsCreate env s etcPasswd .file with
      | none => simp [hcreate] at hrun
      | some result =>
        obtain ⟨p, s₁⟩ := result
        simp only [hcreate] at hrun
        cases p with
        | none =>
          obtain rfl := Option.some.inj hrun
          obtain ⟨t₁, -, rfl⟩ := fsCreate_none hcreate
          have hsame : fsResolve { s with time := t₁ } etcPasswd = fsResolve s etcPasswd :=
            Sees.resolve h (h.congr rfl rfl rfl rfl) (Sees.refl s)
          rw [hsame, hres] at hfile
          exact absurd (Option.some.inj hfile).symm (Option.some_ne_none file)
        | some p =>
          obtain ⟨kids', h₁, hfound, m, hm, hmtype⟩ := created_resolves h hc hres hcreate
          exact hwrites h₁ (hg.later (fsCreate_time hcreate)) hfound hm hmtype hrun

/-! ## Reading the file -/

/-- What a line says about an account. -/
structure PasswdEntry where
  name : List UInt8
  uid : UInt32
  gid : UInt32
  home : List UInt8
  deriving DecidableEq, Repr

def User.passwdEntry (u : User) : PasswdEntry :=
  { name := u.name, uid := u.uid, gid := u.gid, home := u.home }

def colon : UInt8 := 58

def newline : UInt8 := 10

def shellPath : List UInt8 := ofString "/bin/lsh"

def readNumber (field : List UInt8) : Option UInt32 :=
  if field ≠ [] ∧ field.all isDigit then some (UInt32.ofNat (value field)) else none

/-- A line without its newline has seven fields. -/
def readLine (line : List UInt8) : Option PasswdEntry :=
  match line.splitOn colon with
  | [name, password, uid, gid, comment, home, shell] =>
    if password = [120] ∧ comment = name ∧ shell = shellPath then do
      return { name := name, uid := ← readNumber uid, gid := ← readNumber gid, home := home }
    else none
  | _ => none

/-- The last line ends in a newline as well. -/
def readPasswd (file : List UInt8) : Option (List PasswdEntry) :=
  let lines := file.splitOn newline
  if lines.getLast? = some [] then lines.dropLast.mapM readLine else none

/-- The fields of an account. -/
def passwdFields (u : User) : List (List UInt8) :=
  [u.name, [120], decimal u.uid, decimal u.gid, u.name, u.home, shellPath]

/-- The line of an account, with nothing cut off. -/
def fullLine (u : User) : List UInt8 := [colon].intercalate (passwdFields u) ++ [newline]

theorem passwdLine_eq (u : User) : passwdLine u = (fullLine u).take 159 := by
  have hline : fullLine u = u.name ++ ofString ":x:" ++ decimal u.uid ++ ofString ":" ++
      decimal u.gid ++ ofString ":" ++ u.name ++ ofString ":" ++ u.home ++
      ofString ":/bin/lsh\n" := by
    have hx : ofString ":x:" = [colon, 120, colon] := by decide
    have hcolon : ofString ":" = [colon] := by decide
    have hshell : ofString ":/bin/lsh\n" = colon :: (shellPath ++ [newline]) := by decide
    rw [hx, hcolon, hshell, fullLine, passwdFields]
    simp [List.intercalate, List.intersperse]
  rw [hline, passwdLine]

/-- Nothing in an account looks like the end of a field or of a line. -/
structure Separable (u : User) : Prop where
  name : validName u.name = true
  colon : colon ∉ u.home
  newline : newline ∉ u.home

theorem nameChar_of_validName {name : List UInt8} (h : validName name = true) :
    ∀ c ∈ name, nameChar c = true := by
  intro c hc
  cases name with
  | nil => exact absurd hc List.not_mem_nil
  | cons d ds =>
    simp only [validName, Bool.and_eq_true, List.all_eq_true] at h
    exact h.1.2 c hc

theorem decimal_notMem {n : UInt32} {c : UInt8} (hc : c < 48 ∨ 57 < c) : c ∉ decimal n := by
  intro hmem
  obtain ⟨hlow, hhigh⟩ := mem_toString hmem
  rcases hc with hc | hc
  · exact absurd (UInt8.lt_of_lt_of_le hc hlow) (UInt8.lt_irrefl c)
  · exact absurd (UInt8.lt_of_lt_of_le hc hhigh) (UInt8.lt_irrefl 57)

theorem Separable.fields {u : User} (h : Separable u) :
    ∀ field ∈ passwdFields u, Users.colon ∉ field ∧ Users.newline ∉ field := by
  have hname : Users.colon ∉ u.name ∧ Users.newline ∉ u.name :=
    ⟨fun hc => absurd (nameChar_of_validName h.name _ hc) (by decide),
      fun hc => absurd (nameChar_of_validName h.name _ hc) (by decide)⟩
  have hnumber : ∀ n : UInt32, Users.colon ∉ decimal n ∧ Users.newline ∉ decimal n := fun n =>
    ⟨decimal_notMem (Or.inr (by decide)), decimal_notMem (Or.inl (by decide))⟩
  intro field hf
  rw [passwdFields] at hf
  simp only [List.mem_cons, List.not_mem_nil, or_false] at hf
  rcases hf with rfl | rfl | rfl | rfl | rfl | rfl | rfl
  · exact hname
  · decide
  · exact hnumber u.uid
  · exact hnumber u.gid
  · exact hname
  · exact ⟨h.colon, h.newline⟩
  · decide

theorem readNumber_decimal (n : UInt32) : readNumber (decimal n) = some n := by
  have hdigits : (decimal n).all isDigit = true := by
    rw [List.all_eq_true]
    intro c hc
    obtain ⟨hlow, hhigh⟩ := mem_toString hc
    rw [isDigit, Bool.and_eq_true, decide_eq_true_eq, decide_eq_true_eq]
    exact ⟨hlow, hhigh⟩
  have hvalue : value (decimal n) = n.toNat := value_toString n.toNat
  rw [readNumber, if_pos ⟨toString_ne_nil _, hdigits⟩, hvalue, UInt32.ofNat_toNat]

theorem Separable.readLine {u : User} (h : Separable u) :
    Users.readLine ([Users.colon].intercalate (passwdFields u)) = some u.passwdEntry := by
  rw [Users.readLine, List.splitOn_intercalate _ (fun field hf => (h.fields field hf).1)
    (List.cons_ne_nil _ _), passwdFields]
  simp only [and_self, if_true, readNumber_decimal]
  rfl

theorem mapM_map_eq {α β γ : Type} {f : α → β} {g : β → Option γ} {e : α → γ} {xs : List α}
    (h : ∀ x ∈ xs, g (f x) = some (e x)) : (xs.map f).mapM g = some (xs.map e) := by
  induction xs with
  | nil => rfl
  | cons x xs ih =>
    rw [List.map_cons, List.mapM_cons, h x List.mem_cons_self,
      ih fun y hy => h y (List.mem_cons_of_mem x hy)]
    rfl

theorem mem_mapM {α β : Type} {g : α → Option β} {xs : List α} : ∀ {ys : List β},
    xs.mapM g = some ys → ∀ y ∈ ys, ∃ x ∈ xs, g x = some y := by
  induction xs with
  | nil =>
    intro ys h y hy
    obtain rfl := Option.some.inj h
    exact absurd hy List.not_mem_nil
  | cons x xs ih =>
    intro ys h y hy
    rw [List.mapM_cons] at h
    obtain ⟨z, hz, h⟩ := Option.bind_eq_some_iff.mp h
    obtain ⟨zs, hzs, h⟩ := Option.bind_eq_some_iff.mp h
    obtain rfl := Option.some.inj h
    rcases List.mem_cons.mp hy with rfl | hy
    · exact ⟨x, List.mem_cons_self, hz⟩
    · obtain ⟨w, hw, hy⟩ := ih hzs y hy
      exact ⟨w, List.mem_cons_of_mem x hw, hy⟩

/-- **The full lines are read back.** -/
theorem readPasswd_fullLine {us : List User} (h : ∀ u ∈ us, Separable u) :
    readPasswd (us.flatMap fullLine) = some (us.map User.passwdEntry) := by
  have hlines : ∀ line ∈ us.map fun u => [colon].intercalate (passwdFields u), newline ∉ line := by
    intro line hl
    obtain ⟨u, hu, rfl⟩ := List.mem_map.mp hl
    exact notMem_intercalate (by decide) fun field hf => ((h u hu).fields field hf).2
  have hfile : us.flatMap fullLine =
      (us.map fun u => [colon].intercalate (passwdFields u)).flatMap (· ++ [newline]) := by
    rw [List.flatMap_map]
    rfl
  rw [readPasswd, hfile, splitOn_lines hlines, List.getLast?_concat, if_pos rfl, List.dropLast_concat]
  exact mapM_map_eq fun u hu => (h u hu).readLine

/-- What is read from a file has no separators in it. -/
theorem readPasswd_home {file : List UInt8} {es : List PasswdEntry} (h : readPasswd file = some es) :
    ∀ e ∈ es, colon ∉ e.home ∧ newline ∉ e.home := by
  intro e he
  rw [readPasswd] at h
  split at h
  · obtain ⟨line, hline, hread⟩ := mem_mapM h e he
    obtain ⟨hnewline, -⟩ := mem_splitOn (List.dropLast_subset _ hline)
    rw [readLine] at hread
    split at hread
    · next name password uid gid comment home shell hsplit =>
      split at hread
      · obtain ⟨u, hu, hread⟩ := Option.bind_eq_some_iff.mp hread
        obtain ⟨g, hg, hread⟩ := Option.bind_eq_some_iff.mp hread
        obtain rfl := Option.some.inj hread
        have hmem : home ∈ line.splitOn colon := by
          rw [hsplit]
          simp
        obtain ⟨hcolon, hsub⟩ := mem_splitOn hmem
        exact ⟨hcolon, fun hn => hnewline (hsub hn)⟩
      · exact absurd hread.symm (Option.some_ne_none e)
    · exact absurd hread.symm (Option.some_ne_none e)
  · exact absurd h.symm (Option.some_ne_none es)

/-! ## What is cut off -/

theorem flatMap_take_eq {us : List User}
    (h : us.flatMap passwdLine = us.flatMap fullLine) : ∀ u ∈ us, (fullLine u).length ≤ 159 := by
  have hle : ∀ u : User, (passwdLine u).length ≤ (fullLine u).length := by
    intro u
    rw [passwdLine_eq, List.length_take]
    exact Nat.min_le_right _ _
  have hsum : ∀ vs : List User,
      (vs.flatMap passwdLine).length ≤ (vs.flatMap fullLine).length := by
    intro vs
    induction vs with
    | nil => exact Nat.le_refl _
    | cons v vs ih =>
      rw [List.flatMap_cons, List.flatMap_cons, List.length_append, List.length_append]
      exact Nat.add_le_add (hle v) ih
  induction us with
  | nil => exact fun u hu => absurd hu List.not_mem_nil
  | cons v vs ih =>
    rw [List.flatMap_cons, List.flatMap_cons] at h
    have hlength := congrArg List.length h
    rw [List.length_append, List.length_append] at hlength
    have hv := hle v
    have hvs := hsum vs
    obtain ⟨-, hrest⟩ := List.append_inj h (by omega)
    intro u hu
    rcases List.mem_cons.mp hu with rfl | hu
    · have hcut := passwdLine_length u
      omega
    · exact ih hrest u hu

/-- The line fits in the buffer and can be read back. -/
structure Plain (u : User) : Prop where
  length : (fullLine u).length ≤ 159
  colon : colon ∉ u.home
  newline : newline ∉ u.home

theorem passwd_iff {us : List User} (hvalid : ∀ u ∈ us, validName u.name = true) :
    (us.flatMap passwdLine = us.flatMap fullLine ∧
      readPasswd (us.flatMap passwdLine) = some (us.map User.passwdEntry)) ↔ ∀ u ∈ us, Plain u := by
  constructor
  · rintro ⟨hfull, hread⟩ u hu
    have hhome := readPasswd_home hread u.passwdEntry (List.mem_map_of_mem hu)
    exact ⟨flatMap_take_eq hfull u hu, hhome.1, hhome.2⟩
  · intro h
    have hfull : us.flatMap passwdLine = us.flatMap fullLine := by
      refine List.flatMap_congr fun u hu => ?_
      rw [passwdLine_eq, List.take_of_length_le (h u hu).length]
    refine ⟨hfull, ?_⟩
    rw [hfull]
    exact readPasswd_fullLine fun u hu => ⟨hvalid u hu, (h u hu).colon, (h u hu).newline⟩

/-! ## The two calls -/

/-- The calls that the file has to follow. -/
def Syncs : AccountOp → Prop
  | .add _ _ _ _ | .delete _ => True
  | _ => False

/-- The account is still there after the call. -/
def Stays : AccountOp → User → Prop
  | .delete name, u => u.name ≠ name
  | _, _ => True

theorem makeHome_time {available : Bool} {home : List UInt8}
    (hrun : makeHome env available home s = some s') : s.time ≤ s'.time := by
  unfold makeHome at hrun
  split at hrun
  · exact absurd hrun.symm (Option.some_ne_none _)
  · obtain rfl := Option.some.inj hrun
    exact Nat.le_refl _
  · split at hrun
    · exact absurd hrun.symm (Option.some_ne_none _)
    next hdir =>
      split at hrun
      · exact absurd hrun.symm (Option.some_ne_none _)
      next hfile =>
        obtain ⟨⟨res, s₃⟩, hwrite, rfl⟩ := Option.map_eq_some_iff.mp hrun
        exact Nat.le_trans (Nat.le_trans (fsCreate_time hdir) (fsCreate_time hfile))
          (fsWrite_time hwrite)

/-- A call that succeeds ends with `sync_passwd_file`. -/
theorem accountStep_syncs {op : AccountOp} (hop : Syncs op)
    (hrun : accountStep env t s op = some (0, t', s')) :
    ∃ s₁, Runs env s s₁ ∧ s.time ≤ s₁.time ∧ syncPasswdFile env t' s₁ = some s' := by
  cases op with
  | add available name password admin =>
    rcases usersAdd_spec hrun with ⟨hneg, -⟩ |
      ⟨-, -, slot, u, s₁, hacc, -, -, hhome, -, hmake, hsync, -⟩
    · exact absurd hneg (by decide)
    · rw [hhome] at hmake
      exact ⟨s₁, makeHome_runs (home_text hacc.valid admin) hmake, makeHome_time hmake, hsync⟩
  | delete name =>
    rcases usersDelete_spec hrun with ⟨hneg, -⟩ | ⟨-, hsync, -⟩
    · exact absurd hneg (by decide)
    · exact ⟨s, .refl, Nat.le_refl _, hsync⟩
  | importUser name home uid gid pwHash => exact hop.elim
  | setPassword name password => exact hop.elim
  | switch name password => exact hop.elim
  | logout => exact hop.elim

theorem Syncs.text {op : AccountOp} (hop : Syncs op) : AccountText op := by
  cases op with
  | importUser name home uid gid pwHash => exact hop.elim
  | _ => trivial

/-- The call leaves these lines in the file. -/
theorem accountStep_passwd {op : AccountOp} (hreach : Reached env t s) (hop : Syncs op)
    (hrun : accountStep env t s op = some (0, t', s')) (hg : GrantsFrom env s.time) {file : Ptr}
    {n : FsNode} (hfile : fsResolve s' etcPasswd = some (some file))
    (hn : s'.nodes.get file = some n) (htype : n.type = .file) :
    contents s' n = (accounts t').flatMap passwdLine := by
  obtain ⟨s₁, hruns, htime, hsync⟩ := accountStep_syncs hop hrun
  have hrooted := (hruns.keeps ⟨hreach.sane.rooted, hreach.sane.zeroFree⟩).1
  exact syncPasswdFile_spec hrooted (hg.later htime) hsync hfile hn htype

/-! ## The accounts after a call -/

theorem mem_accounts {u : User} :
    u ∈ accounts t ↔ ∃ i, (t.users i).active = true ∧ t.users i = u := by
  constructor
  · intro hu
    obtain ⟨i, hi, heq⟩ := List.mem_map.mp hu
    exact ⟨i, (List.mem_filter.mp hi).2, heq⟩
  · rintro ⟨i, hi, heq⟩
    exact List.mem_map.mpr ⟨i, List.mem_filter.mpr ⟨List.mem_finRange i, hi⟩, heq⟩

theorem fullLine_length (u : User) : (fullLine u).length =
    2 * u.name.length + (decimal u.uid).length + (decimal u.gid).length + u.home.length + 16 := by
  have hshell : shellPath.length = 8 := by decide
  rw [fullLine, passwdFields]
  simp only [List.intercalate_cons_cons, List.intercalate_singleton, List.length_append,
    List.length_singleton, hshell]
  omega

theorem decimal_length (n : UInt32) : (decimal n).length ≤ 10 :=
  toString_length (by decide) (Nat.lt_trans n.toNat_lt (by decide))

/-- An account of `users_add` has a short home directory. -/
theorem plain_added {u : User} (hvalid : validName u.name = true) {admin : Bool}
    (hhome : u.home = if admin then ofString "/root"
      else (ofString "/home/" ++ u.name).take (userHomeMax - 1)) : Plain u := by
  have hname : u.name.length < 32 := (validName_spec hvalid).2
  have huid := decimal_length u.uid
  have hgid := decimal_length u.gid
  have hsep : ∀ c : UInt8, nameChar c = false → c ∉ ofString "/root" → c ∉ ofString "/home/" →
      c ∉ u.home := by
    intro c hc hroot hdir hmem
    rw [hhome] at hmem
    split at hmem
    · exact hroot hmem
    · rcases List.mem_append.mp (List.mem_of_mem_take hmem) with hmem | hmem
      · exact hdir hmem
      · rw [nameChar_of_validName hvalid c hmem] at hc
        exact absurd hc (by decide)
  have hlength : u.home.length ≤ u.name.length + 6 := by
    have hroot : (ofString "/root").length = 5 := by decide
    have hdir : (ofString "/home/").length = 6 := by decide
    rw [hhome]
    split
    · omega
    · rw [List.length_take, List.length_append]
      omega
  refine ⟨?_, hsep _ (by decide) (by decide) (by decide), hsep _ (by decide) (by decide) (by decide)⟩
  rw [fullLine_length]
  omega

theorem accounts_plain_iff {op : AccountOp} (hinv : TableInv t) (hop : Syncs op)
    (hrun : accountStep env t s op = some (0, t', s')) :
    (∀ u ∈ accounts t', Plain u) ↔ ∀ u ∈ accounts t, Stays op u → Plain u := by
  cases op with
  | add available name password admin =>
    rcases usersAdd_spec hrun with ⟨hneg, -⟩ |
      ⟨-, -, slot, u, -, hacc, hname, hactive, hhome, -, -, -, rfl⟩
    · exact absurd hneg (by decide)
    have hplain : Plain u := plain_added (by rw [hname]; exact hacc.valid) (by rw [hname]; exact hhome)
    have hfree := freeSlot_spec hacc.free
    constructor
    · intro h v hv _
      obtain ⟨i, hi, rfl⟩ := mem_accounts.mp hv
      have hne : i ≠ slot := by
        rintro rfl
        rw [hfree] at hi
        exact absurd hi (by decide)
      refine h _ (mem_accounts.mpr ⟨i, ?_, setUser_other u hne⟩)
      show ((t.setUser slot u).users i).active = true
      rw [setUser_other u hne]
      exact hi
    · intro h v hv
      obtain ⟨i, hi, rfl⟩ := mem_accounts.mp hv
      by_cases hne : i = slot
      · rw [hne]
        show Plain ((t.setUser slot u).users slot)
        rw [setUser_same]
        exact hplain
      · have hsame : (t.setUser slot u).users i = t.users i := setUser_other u hne
        change ((t.setUser slot u).users i).active = true at hi
        show Plain ((t.setUser slot u).users i)
        rw [hsame] at hi ⊢
        exact h _ (mem_accounts.mpr ⟨i, hi, rfl⟩) trivial
  | delete name =>
    rcases usersDelete_spec hrun with ⟨hneg, -⟩ | ⟨-, -, j, hfind, -, -, rfl⟩
    · exact absurd hneg (by decide)
    obtain ⟨hj, hjname⟩ := usersFind_some hfind
    constructor
    · intro h v hv hstays
      obtain ⟨i, hi, rfl⟩ := mem_accounts.mp hv
      have hne : i ≠ j := by
        rintro rfl
        exact hstays hjname
      refine h _ (mem_accounts.mpr ⟨i, ?_, setUser_other _ hne⟩)
      rw [setUser_other _ hne]
      exact hi
    · intro h v hv
      obtain ⟨i, hi, rfl⟩ := mem_accounts.mp hv
      have hne : i ≠ j := by
        rintro rfl
        rw [setUser_same] at hi
        exact absurd hi Bool.false_ne_true
      rw [setUser_other _ hne] at hi ⊢
      refine h _ (mem_accounts.mpr ⟨i, hi, rfl⟩) fun hname => hne ?_
      exact hinv.distinct hi hj (hname.trans hjname.symm)
  | importUser name home uid gid pwHash => exact hop.elim
  | setPassword name password => exact hop.elim
  | switch name password => exact hop.elim
  | logout => exact hop.elim

/--
**When /etc/passwd shows the accounts.** After a call of `users_add` or `users_delete` that
succeeds, with memory for the file, the file holds the full lines and can be read back,
exactly if every other account fits in the line buffer and has no colon and no newline in
its home directory.
-/
theorem passwd_truth_iff {op : AccountOp} (hreach : Reached env t s) (hop : Syncs op)
    (hrun : accountStep env t s op = some (0, t', s')) (hg : GrantsFrom env s.time) {file : Ptr}
    {n : FsNode} (hfile : fsResolve s' etcPasswd = some (some file))
    (hn : s'.nodes.get file = some n) (htype : n.type = .file) :
    (contents s' n = (accounts t').flatMap fullLine ∧
      readPasswd (contents s' n) = some ((accounts t').map User.passwdEntry)) ↔
      ∀ u ∈ accounts t, Stays op u → Plain u := by
  have hvalid : ∀ u ∈ accounts t', validName u.name = true := by
    intro u hu
    obtain ⟨i, hi, rfl⟩ := mem_accounts.mp hu
    exact (hreach.accounts hop.text hrun).sane.table.valid hi
  rw [accountStep_passwd hreach hop hrun hg hfile hn htype, passwd_iff hvalid,
    accounts_plain_iff hreach.sane.table hop hrun]

/-- Two accounts are restored and one of them is removed. The pair says whether the lines of
the other accounts are plain, and whether one is too long. -/
def bobRemoved (name home : List UInt8) (uid : UInt32) : Option (List Int × FsType × Bool × Bool) :=
  (usersImport .ample usersInit skeleton name home uid uid 1).bind fun a =>
    (usersImport .ample a.2.1 a.2.2 bob (ofString "/home/bob") 1001 1001 1).bind fun b =>
      (usersDelete .ample b.2.1 b.2.2 bob).bind fun c =>
        (fsResolve c.2.2 etcPasswd).bind fun r => r.bind fun file =>
          (c.2.2.nodes.get file).map fun n =>
            ([a.1, b.1, c.1], n.type,
              decide (∀ u ∈ accounts b.2.1, u.name ≠ bob →
                (fullLine u).length ≤ 159 ∧ colon ∉ u.home ∧ newline ∉ u.home),
              decide (∃ u ∈ accounts c.2.1, 159 < (fullLine u).length))

theorem bobRemoved_spec {name home : List UInt8} {uid : UInt32} {plain long : Bool}
    (h0 : (0 : UInt8) ∉ home) (h : bobRemoved name home uid = some ([0, 0, 0], .file, plain, long)) :
    ∃ t s t' s' file n, Reached .ample t s ∧
      accountStep .ample t s (.delete bob) = some (0, t', s') ∧
      fsResolve s' etcPasswd = some (some file) ∧ s'.nodes.get file = some n ∧ n.type = .file ∧
      (plain = true → ∀ u ∈ accounts t, u.name ≠ bob → Plain u) ∧
      (long = true → ∃ u ∈ accounts t', 159 < (fullLine u).length) := by
  simp only [bobRemoved, Option.bind_eq_some_iff, Option.map_eq_some_iff, Prod.mk.injEq,
    List.cons.injEq, and_true] at h
  obtain ⟨⟨r₁, t₁, s₁⟩, himport, ⟨r₂, t₂, s₂⟩, himport', ⟨r₃, t₃, s₃⟩, hdelete, r, hfile, file, rfl, n,
    hn, ⟨rfl, rfl, rfl⟩, htype, hplain, hlong⟩ := h
  have hroot : skeleton.rootNode ≠ none := by
    obtain ⟨root, kids, hinv, -⟩ := Persist.skeleton_standing
    rw [hinv.isRoot]
    exact Option.some_ne_none root
  have hboot : Reached .ample usersInit skeleton := .boot Persist.fsInit_skeleton hroot
  have hname : AccountText (.importUser name home uid uid 1) := h0
  have hbob : AccountText (.importUser bob (ofString "/home/bob") 1001 1001 1) := by
    show (0 : UInt8) ∉ ofString "/home/bob"
    decide
  have hreach : Reached .ample t₂ s₂ := (hboot.accounts hname himport).accounts hbob himport'
  refine ⟨t₂, s₂, t₃, s₃, file, n, hreach, hdelete, hfile, hn, htype, ?_, ?_⟩
  · rintro rfl u hu hne
    obtain ⟨hlength, hcolon, hnewline⟩ := of_decide_eq_true hplain u hu hne
    exact ⟨hlength, hcolon, hnewline⟩
  · rintro rfl
    exact of_decide_eq_true hlong

theorem ample_grantsFrom (t₀ : Nat) : GrantsFrom .ample t₀ := by
  intro t s n _ hn
  simp [Env.ample, hn]

/-- Alice is left when bob is removed. -/
theorem passwd_truth_alice : ∃ t s t' s' file n, Reached .ample t s ∧
    accountStep .ample t s (.delete bob) = some (0, t', s') ∧
    fsResolve s' etcPasswd = some (some file) ∧ s'.nodes.get file = some n ∧
    contents s' n = (accounts t').flatMap fullLine ∧
    readPasswd (contents s' n) = some ((accounts t').map User.passwdEntry) := by
  have h : bobRemoved alice (ofString "/home/alice") 1000 = some ([0, 0, 0], .file, true, false) := by
    decide +kernel
  obtain ⟨t, s, t', s', file, n, hreach, hrun, hfile, hn, htype, hplain, -⟩ :=
    bobRemoved_spec (by decide) h
  have hop : Syncs (.delete bob) := trivial
  obtain ⟨hfull, hread⟩ := (passwd_truth_iff hreach hop hrun (ample_grantsFrom _) hfile hn
    htype).mpr (hplain rfl)
  exact ⟨t, s, t', s', file, n, hreach, hrun, hfile, hn, hfull, hread⟩

/-- A name of 31 characters, a home directory of 63 and two numbers of ten digits make a line
of 161. -/
theorem passwd_line_cut : ¬∀ (env : Env) (t t' : Table) (s s' : Fs) (op : AccountOp) (file : Ptr)
    (n : FsNode), Reached env t s → Syncs op → accountStep env t s op = some (0, t', s') →
    GrantsFrom env s.time → fsResolve s' etcPasswd = some (some file) →
    s'.nodes.get file = some n → n.type = .file →
    contents s' n = (accounts t').flatMap fullLine ∧
      readPasswd (contents s' n) = some ((accounts t').map User.passwdEntry) := by
  intro hall
  have h : bobRemoved (List.replicate 31 97) (slash :: List.replicate 62 97) 4294967295 =
      some ([0, 0, 0], .file, false, true) := by decide +kernel
  obtain ⟨t, s, t', s', file, n, hreach, hrun, hfile, hn, htype, -, hlong⟩ :=
    bobRemoved_spec (by decide) h
  have hop : Syncs (.delete bob) := trivial
  have hg := ample_grantsFrom s.time
  have hcut := accountStep_passwd hreach hop hrun hg hfile hn htype
  obtain ⟨hfull, -⟩ := hall _ _ _ _ _ _ file n hreach hop hrun hg hfile hn htype
  obtain ⟨u, hu, hlt⟩ := hlong rfl
  have hle := flatMap_take_eq (hcut.symm.trans hfull) u hu
  omega

end LightningOS.Users
