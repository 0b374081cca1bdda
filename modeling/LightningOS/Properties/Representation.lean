import LightningOS.Properties.Cwd

/-!
# The tree is well formed

What holds of the linked nodes after any calls, with memory running out or not. Freeing
what is not allocated is a fault of the model, so a run without fault frees nothing twice;
and since everything that is allocated is in the tree, nothing that left it is still
allocated.
-/

namespace LightningOS.Ramfs

open ByteMemory CString Forest

/-! ## Runs with proper arguments -/

/-- The arguments are what they should be: nodes of the tree, and a source that is there and
fits into the address space beside the heap. Nothing above the working directory is removed. -/
def Proper (s : Fs) : FsOp → Prop
  | .remove path => KeepsCwd s (.remove path)
  | .write file src add _ => (∀ f, file = some f → ∃ n, s.nodes.get f = some n) ∧
      add ≤ src.length ∧ src.length + Mem.heapMaxSize + 65 < 4294967296
  | .setCwd dir => ∀ d, dir = some d → ∃ n, s.nodes.get d = some n
  | .create _ _ | .reset => True

variable (env : Env)

/-- Every call of the run satisfies `ok` in the state it is made in. -/
def Along (ok : Fs → FsOp → Prop) : Fs → List FsOp → Prop
  | _, [] => True
  | s, op :: ops => ok s op ∧ ∀ s', fsStep env s op = some s' → Along ok s' ops

variable {s : Fs} {root : Ptr} {kids : Forest Ptr}

theorem Proper.keepsCwd {op : FsOp} (h : Proper s op) : KeepsCwd s op := by
  cases op with
  | remove path => exact h
  | create path type => trivial
  | write file src add append => trivial
  | setCwd dir => trivial
  | reset => trivial

/-! ## Well-formed trees -/

/-- The links spell out the forest `f`, which is empty or has one root. It holds every
node that is allocated, once, and the buffers that are allocated have one node each. -/
structure RepOk (s : Fs) (f : Forest Ptr) : Prop where
  rep : Rep (links s) none s.rootNode f
  oneRoot : f.tops.length ≤ 1
  nodup : f.ids.Nodup
  live : ∀ p, p ∈ f.ids ↔ ∃ n, s.nodes.get p = some n
  dirs : ∀ {p n}, s.nodes.get p = some n → n.children ≠ none → n.type = .dir
  count : s.nodeCount = f.ids.length
  buffers : ∀ d, (∃ buf, s.bufs.get d = some buf) ↔ ∃ p n, s.nodes.get p = some n ∧ n.data = some d
  owner : ∀ {p q n m d}, s.nodes.get p = some n → s.nodes.get q = some m → n.data = some d →
    m.data = some d → p = q

theorem TreeInv.repOk (h : TreeInv s root kids) : RepOk s (tree root kids) := by
  refine ⟨by rw [h.isRoot]; exact h.rep, by simp, h.nodup, h.live, fun {p n} hn hc => ?_, h.count,
    fun d => ⟨?_, ?_⟩, h.owner⟩
  · cases ht : n.type with
    | dir => rfl
    | file => exact absurd ((h.ok hn).file ht) hc
  · rintro ⟨buf, hbuf⟩
    exact h.noLeak hbuf
  · rintro ⟨p, n, hn, hd⟩
    exact h.owned.buf p (h.mem hn) n hn d hd

theorem Bare.repOk (h : Bare s) : RepOk s Forest.nil := by
  refine ⟨h.root, by simp, by simp, fun p => ?_, fun {p n} hn => ?_, h.count, fun d => ?_,
    fun {p q n m d} hn => ?_⟩
  · simp [h.nodes p]
  · simp [h.nodes p] at hn
  · simp [h.bufs d, h.nodes]
  · simp [h.nodes p] at hn

/-- A tree with a working directory in it, or nothing at all. -/
def Sound (s : Fs) : Prop := Bare s ∨ ∃ root kids, TreeInv s root kids ∧ CwdOk s

theorem Sound.repOk (h : Sound s) : ∃ f, RepOk s f := by
  rcases h with h | ⟨root, kids, h, -⟩
  · exact ⟨_, h.repOk⟩
  · exact ⟨_, h.repOk⟩

/-! ## One call -/

theorem Bare.fsRemove {path : List UInt8} {res : Int} {s' : Fs} (h : Bare s)
    (hrun : Ramfs.fsRemove s path = some (res, s')) : s' = s := by
  have hstart : Ramfs.start s path = none := by
    unfold Ramfs.start
    split
    · exact h.root
    · exact h.cwd
  unfold Ramfs.fsRemove at hrun
  rw [fsResolve_follow, hstart] at hrun
  rcases follow_none s (pathNames path) with hf | hf
  · simp only [hf, Option.some.injEq, Prod.mk.injEq] at hrun
    exact hrun.2.symm
  · simp [hf] at hrun

/-- Without a root, a call changes nothing, faults or makes the root. -/
theorem Bare.fsStep (h : Bare s) {op : FsOp} {s' : Fs} (hs : Ramfs.fsStep env s op = some s') :
    Sound s' := by
  cases op with
  | create path type =>
    simp only [Ramfs.fsStep, Option.map_eq_some_iff] at hs
    obtain ⟨⟨r, s₁⟩, hrun, rfl⟩ := hs
    exact Or.inl (h.fsCreate env hrun).2
  | remove path =>
    simp only [Ramfs.fsStep, Option.map_eq_some_iff] at hs
    obtain ⟨⟨res, s₁⟩, hrun, rfl⟩ := hs
    exact Or.inl (h.fsRemove hrun ▸ h)
  | write file src add append =>
    cases file with
    | none =>
      simp only [Ramfs.fsStep, fsWriteN, Option.map_some, Option.some.injEq] at hs
      exact Or.inl (hs ▸ h)
    | some f => simp [Ramfs.fsStep, fsWriteN, h.nodes f] at hs
  | setCwd dir =>
    cases dir with
    | none =>
      simp only [Ramfs.fsStep, Ramfs.fsSetCwd, Option.some.injEq] at hs
      exact Or.inl (hs ▸ h)
    | some d => simp [Ramfs.fsStep, Ramfs.fsSetCwd, h.nodes d] at hs
  | reset =>
    simp only [Ramfs.fsStep, Ramfs.fsReset, h.root] at hs
    split at hs
    · simp at hs
    · rename_i r s₁ hnew
      obtain rfl := Option.some.inj hs
      rcases h.newRoot env hnew with ⟨-, hbare⟩ | ⟨p, hp, hinv⟩
      · exact Or.inl hbare
      · obtain ⟨n, hn⟩ := hinv.get hinv.root_mem
        exact Or.inr ⟨p, Forest.nil, hinv, p, n, hp, hn, hinv.rootDir hn⟩

theorem Sound.fsStep (h : Sound s) {op : FsOp} {s' : Fs} (hp : Proper s op)
    (hs : Ramfs.fsStep env s op = some s') : Sound s' := by
  rcases h with h | ⟨root, kids, h, hc⟩
  · exact h.fsStep env hs
  · obtain ⟨kids', h', hc'⟩ := h.fsStep env hc hp.keepsCwd hs
    exact Or.inr ⟨root, kids', h', hc'⟩

/-- A write to a node of the tree comes to an end. -/
theorem TreeInv.fsWriteN_total (h : TreeInv s root kids) {file : Option Ptr}
    (hfile : ∀ f, file = some f → ∃ n, s.nodes.get f = some n) {src : List UInt8} {add : Nat}
    (hsrc : add ≤ src.length) (hfits : src.length + Mem.heapMaxSize + 65 < 4294967296)
    (append : Bool) : ∃ r, fsWriteN env s file src add append = some r := by
  cases file with
  | none => exact ⟨_, rfl⟩
  | some f =>
    obtain ⟨n, hn⟩ := hfile f rfl
    cases ht : n.type with
    | dir => exact ⟨(-1, s), by simp [fsWriteN, hn, ht]⟩
    | file =>
      have hsize := (h.ok hn).data.size_le
      have hcap := (h.ok hn).data.capacity_small
      have hheader : Mem.sizeofBlock = 20 := rfl
      have hbase : (if append then n.size else 0) + add + 65 ≤ 0xFFFFFFF8 := by
        split <;> omega
      obtain ⟨res, s', hw, -⟩ := h.write env hn ht hsrc append hbase
      exact ⟨_, hw⟩

/-- With proper arguments no call faults. -/
theorem TreeInv.fsStep_total (h : TreeInv s root kids) (hc : CwdOk s) {op : FsOp}
    (hp : Proper s op) : ∃ s', Ramfs.fsStep env s op = some s' := by
  cases op with
  | create path type =>
    obtain ⟨r, s', hrun, -⟩ := h.fsCreate env hc path type
    exact ⟨s', by rw [Ramfs.fsStep, hrun, Option.map_some]⟩
  | remove path =>
    obtain ⟨r, hr, -⟩ := h.fsResolve hc path
    obtain ⟨res, s', hrun, -⟩ := h.fsRemove hr
    exact ⟨s', by rw [Ramfs.fsStep, hrun, Option.map_some]⟩
  | write file src add append =>
    obtain ⟨hfile, hsrc, hfits⟩ := hp
    obtain ⟨r, hrun⟩ := h.fsWriteN_total env hfile hsrc hfits append
    exact ⟨r.2, by rw [Ramfs.fsStep, hrun, Option.map_some]⟩
  | setCwd dir =>
    cases dir with
    | none => exact ⟨s, rfl⟩
    | some d =>
      obtain ⟨n, hn⟩ := hp d rfl
      simp only [Ramfs.fsStep, Ramfs.fsSetCwd, hn]
      split
      · exact ⟨_, rfl⟩
      · exact ⟨_, rfl⟩
  | reset =>
    obtain ⟨s', hrun, -⟩ := h.fsReset env
    exact ⟨s', hrun⟩

/-! ## Whole runs -/

/-- A run of proper calls. -/
theorem Sound.run {ops : List FsOp} (h : Sound s) (hok : Along env Proper s ops) {done : List FsOp}
    {s' : Fs} (hdone : done <+: ops) (hrun : fsRun env s done = some s') : Sound s' := by
  induction done generalizing s ops with
  | nil =>
    obtain rfl := Option.some.inj hrun
    exact h
  | cons op done ih =>
    cases ops with
    | nil => simp at hdone
    | cons op' ops =>
      obtain ⟨rfl, hdone'⟩ := List.cons_prefix_cons.mp hdone
      obtain ⟨hp, hrest⟩ := hok
      rw [fsRun] at hrun
      cases hs : Ramfs.fsStep env s op with
      | none => simp [hs] at hrun
      | some s₁ =>
        simp only [hs] at hrun
        exact ih (h.fsStep env hp hs) (hrest s₁ hs) hdone' hrun

theorem TreeInv.run_total {ops : List FsOp} (h : TreeInv s root kids) (hc : CwdOk s)
    (hok : Along env Proper s ops) : ∃ s', fsRun env s ops = some s' := by
  induction ops generalizing s kids with
  | nil => exact ⟨s, rfl⟩
  | cons op ops ih =>
    obtain ⟨hp, hrest⟩ := hok
    obtain ⟨s₁, hs⟩ := h.fsStep_total env hc hp
    obtain ⟨kids₁, h₁, hc₁⟩ := h.fsStep env hc hp.keepsCwd hs
    obtain ⟨s', hrun⟩ := ih h₁ hc₁ (hrest s₁ hs)
    exact ⟨s', by rw [fsRun, hs]; exact hrun⟩

/-- **The tree stays well formed.** After any proper calls the allocated nodes are those of
one tree below the root, every buffer belongs to one of them, and nothing else is allocated;
and no call faults, so nothing is freed twice. -/
theorem tree_sound {s₀ : Fs} (h : fsInit env .zero = some s₀) {ops : List FsOp}
    (hok : Along env Proper s₀ ops) :
    (∀ done s, done <+: ops → fsRun env s₀ done = some s → ∃ f, RepOk s f) ∧
      (s₀.rootNode ≠ none → ∃ s, fsRun env s₀ ops = some s) := by
  refine ⟨fun done s hdone hrun => (Sound.run env (fsInit_cases env h) hok hdone hrun).repOk,
    fun hroot => ?_⟩
  obtain ⟨root, kids, hinv, hc⟩ := fsInit_tree env h hroot
  exact hinv.run_total env hc hok

/-- A directory is created, a file is not found, and everything is thrown away. -/
theorem tree_sound_tmp : ∃ s₀ s, fsInit .ample .zero = some s₀ ∧
    fsRun .ample s₀ [.create homeA .dir, .write none [] 0 false, .reset] = some s ∧
    ∃ f, RepOk s f := by
  have h : (fsInit .ample .zero).map (fun s => decide (s.rootNode ≠ none)) = some true := by
    decide +kernel
  simp only [Option.map_eq_some_iff, decide_eq_true_eq] at h
  obtain ⟨s₀, hinit, hroot⟩ := h
  have hok : Along .ample Proper s₀ [.create homeA .dir, .write none [] 0 false, .reset] := by
    refine ⟨trivial, fun s₁ _ => ⟨⟨by simp, by simp, by decide⟩, fun s₂ _ => ⟨trivial, fun s₃ _ => ?_⟩⟩⟩
    trivial
  obtain ⟨hrep, htotal⟩ := tree_sound .ample hinit hok
  obtain ⟨s, hrun⟩ := htotal hroot
  exact ⟨s₀, s, hinit, hrun, hrep _ s (List.prefix_refl _) hrun⟩

end LightningOS.Ramfs
