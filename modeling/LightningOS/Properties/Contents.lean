import LightningOS.Properties.Siblings

/-!
# What is in a file

A file is written to by `fs_write_n`, over its contents or behind them, into one buffer that
grows when it has to. Whatever the heap answers, the file holds what the calls that succeeded
put together, and a call that fails leaves it alone. The exception is a buffer so large that
`kmalloc` rounds its size up to 0.
-/

namespace LightningOS.Ramfs

open ByteMemory CString Forest

/-! ## Calls -/

/-- The arguments of a call: the bytes at the source, how many of them, and where to. -/
structure WriteCall where
  bytes : List UInt8
  len : Nat
  append : Bool

variable (env : Env)

def writeCall (s : Fs) (f : Ptr) (w : WriteCall) : Option (Int × Fs) :=
  fsWriteN env s (some f) w.bytes w.len w.append

/-- The results of the calls, and what they leave. -/
def writeCalls (f : Ptr) : Fs → List WriteCall → Option (List Int × Fs)
  | s, [] => some ([], s)
  | s, w :: ws =>
    match writeCall env s f w with
    | none => none
    | some (res, s) => (writeCalls f s ws).map fun r => (res :: r.1, r.2)

/-- What one call makes of the contents, if its result is 0. -/
def WriteCall.apply (w : WriteCall) (txt : List UInt8) : List UInt8 :=
  (if w.append then txt else []) ++ w.bytes.take w.len

/-- What all calls make of the contents. -/
def outcome : List UInt8 → List (WriteCall × Int) → List UInt8 :=
  List.foldl fun txt call => if call.2 = 0 then call.1.apply txt else txt

/-- The call reads its source only, and its length does not wrap around. -/
def WriteCall.Fits (w : WriteCall) (n : FsNode) : Prop :=
  w.len ≤ w.bytes.length ∧ (if w.append then n.size else 0) + w.len + 65 < 4294967296

/-- Every call of the run fits the file as it is at that moment. -/
def AllFit (f : Ptr) : Fs → List WriteCall → Prop
  | _, [] => True
  | s, w :: ws => (∀ {n}, s.nodes.get f = some n → w.Fits n) ∧
      ∀ {res s'}, writeCall env s f w = some (res, s') → AllFit f s' ws

/-- If the call needs a new buffer, it gets one with all the bytes it asks for, or none: the size
does not round up to 0, or the heap refuses it. -/
def WriteCall.Granted (w : WriteCall) (s : Fs) (n : FsNode) : Prop :=
  (if w.append then n.size else 0) + w.len + 65 ≤ 0xFFFFFFF8 ∨
    env.kmalloc s.time s ((if w.append then n.size else 0) + w.len + 65) = none

/-- That holds of every call of the run, at the moment it is made. -/
def AllGranted (f : Ptr) : Fs → List WriteCall → Prop
  | _, [] => True
  | s, w :: ws => (∀ {n}, s.nodes.get f = some n → w.Granted env s n) ∧
      ∀ {res s'}, writeCall env s f w = some (res, s') → AllGranted f s' ws

variable {env} {s s' : Fs} {root : Ptr} {kids : Forest Ptr} {f : Ptr} {txt : List UInt8}

/-! ## The buffer -/

/-- If there is data, there is a buffer of `capacity` bytes, and a zero behind the data. -/
def Terminated (s : Fs) (n : FsNode) : Prop :=
  ∀ {d}, n.data = some d → ∃ buf, s.bufs.get d = some buf ∧ buf.length = n.capacity ∧
    n.size + 1 ≤ n.capacity ∧ buf[n.size]? = some 0

theorem blit_zero {buf out : List UInt8} {i : Nat} (h : blit buf i [0] = some out) :
    out[i]? = some 0 := by
  unfold blit at h
  split at h
  next hle =>
    rw [← Option.some.inj h]
    have hlen : (buf.take i).length = i := by
      rw [List.length_take]
      rw [List.length_singleton] at hle
      omega
    rw [List.append_assoc, List.getElem?_append_right (by omega), hlen, Nat.sub_self]
    rfl
  next => simp at h

/-- A write that succeeds puts a zero behind the data. -/
theorem fsWriteN_zero {f : Ptr} {src : List UInt8} {add : Nat} {append : Bool}
    (h : fsWriteN env s (some f) src add append = some (0, s')) :
    ∃ n d buf, s'.nodes.get f = some n ∧ n.data = some d ∧ s'.bufs.get d = some buf ∧
      buf[n.size]? = some 0 := by
  cases fsWriteN_cases env h with
  | @written _ d _ _ _ _ _ out _ _ _ hd _ _ _ hout =>
    exact ⟨_, d, out, Store.get_set_same _ _ _, hd, Store.get_set_same _ _ _, blit_zero hout⟩

theorem Terminated.written (h : TreeInv s' root kids) {f : Ptr} {src : List UInt8} {add : Nat}
    {append : Bool} (hrun : fsWriteN env s (some f) src add append = some (0, s')) {n : FsNode}
    (hn : s'.nodes.get f = some n) : Terminated s' n := by
  obtain ⟨m, d, buf, hm, hd, hbuf, hzero⟩ := fsWriteN_zero hrun
  rw [hn] at hm
  obtain rfl := Option.some.inj hm
  have hok := (h.ok hn).data
  unfold DataOk at hok
  simp only [hd] at hok
  obtain ⟨buf', hbuf', hlen, hsize, -⟩ := hok
  rw [hbuf] at hbuf'
  obtain rfl := Option.some.inj hbuf'
  intro d' hd'
  rw [hd] at hd'
  obtain rfl := Option.some.inj hd'
  exact ⟨buf, hbuf, hlen, hsize, hzero⟩

/-! ## Runs -/

/-- The file `f` of the tree is in order, and holds `txt`. -/
structure FileIs (s : Fs) (f : Ptr) (txt : List UInt8) : Prop where
  tree : ∃ root kids, TreeInv s root kids
  node : ∃ n, s.nodes.get f = some n ∧ n.type = .file ∧ contents s n = txt ∧
    n.size = txt.length ∧ Terminated s n

/-- A request that is refused leaves the file alone. -/
theorem FileIs.refused (h : FileIs s f txt) {w : WriteCall} {n : FsNode}
    (hn : s.nodes.get f = some n) (hfit : w.Fits n)
    (hbig : 0xFFFFFFF8 < (if w.append then n.size else 0) + w.len + 65)
    (hk : env.kmalloc s.time s ((if w.append then n.size else 0) + w.len + 65) = none) :
    writeCall env s f w = some (-1, { s with time := s.time + 1 }) := by
  obtain ⟨root, kids, hinv⟩ := h.tree
  obtain ⟨n', hn', hfile, -⟩ := h.node
  rw [hn] at hn'
  obtain rfl := Option.some.inj hn'
  obtain ⟨base, hbase⟩ : ∃ base, base = if w.append then n.size else 0 := ⟨_, rfl⟩
  obtain ⟨hsrc, hlen⟩ := hfit
  rw [← hbase] at hlen hbig hk
  have hcap := (hinv.ok hn).data.capacity_small
  have hheap : Mem.heapMaxSize = 33554432 := rfl
  have hneeded : wrap32 (base + w.len + 1) = base + w.len + 1 := wrap32_of_lt (by omega)
  have hsize : wrap32 (base + w.len + 1 + 64) = base + w.len + 65 := wrap32_of_lt (by omega)
  unfold writeCall fsWriteN growBuf
  simp only [hn, ← hbase, hneeded, hsize, Fs.alloc, hk]
  rw [if_neg (by simp [hfile]), if_neg (by omega)]

/-- A call that comes back was not given a buffer of no bytes. -/
theorem FileIs.granted (h : FileIs s f txt) {w : WriteCall} {n : FsNode}
    (hn : s.nodes.get f = some n) (hfit : w.Fits n) {res : Int}
    (hrun : writeCall env s f w = some (res, s')) : w.Granted env s n := by
  obtain ⟨root, kids, hinv⟩ := h.tree
  obtain ⟨n', hn', hfile, -⟩ := h.node
  rw [hn] at hn'
  obtain rfl := Option.some.inj hn'
  obtain ⟨-, hlen⟩ := hfit
  rcases hinv.write_small env hn hrun with ⟨rfl, -⟩ | ⟨-, -, hsmall⟩
  · have hk := fsWriteN_failed hn hfile hrun
    have hneeded : wrap32 ((if w.append then n.size else 0) + w.len + 1) =
        (if w.append then n.size else 0) + w.len + 1 := wrap32_of_lt (by omega)
    rw [hneeded, wrap32_of_lt (by omega)] at hk
    exact Or.inr hk
  · exact Or.inl hsmall

/-- One call comes back. It succeeds, or nothing happens. -/
theorem FileIs.write (env : Env) (h : FileIs s f txt) {w : WriteCall}
    (hfit : ∀ {n}, s.nodes.get f = some n → w.Fits n)
    (hgranted : ∀ {n}, s.nodes.get f = some n → w.Granted env s n) :
    ∃ res s', writeCall env s f w = some (res, s') ∧
      ((res = 0 ∧ FileIs s' f (w.apply txt)) ∨
        (res = -1 ∧ FileIs s' f txt ∧ s'.nodes = s.nodes ∧ s'.bufs = s.bufs)) := by
  obtain ⟨root, kids, hinv⟩ := h.tree
  obtain ⟨n, hn, hfile, htxt, hsize, hterm⟩ := h.node
  have hsame : ∀ t, FileIs { s with time := t } f txt := fun t =>
    ⟨⟨root, kids, hinv.congr rfl rfl rfl rfl⟩, n, hn, hfile, htxt, hsize, hterm⟩
  by_cases hbig : 0xFFFFFFF8 < (if w.append then n.size else 0) + w.len + 65
  · have hk := (hgranted hn).resolve_left (by omega)
    exact ⟨-1, _, h.refused hn (hfit hn) hbig hk, Or.inr ⟨rfl, hsame _, rfl, rfl⟩⟩
  obtain ⟨hsrc, -⟩ := hfit hn
  obtain ⟨res, s', hrun, hcase⟩ := hinv.write env hn hfile hsrc w.append (by omega)
  refine ⟨res, s', hrun, ?_⟩
  rcases hcase with ⟨rfl, t, rfl⟩ | ⟨rfl, hinv', hw⟩
  · exact Or.inr ⟨rfl, hsame t, rfl, rfl⟩
  · obtain ⟨n', hn', -, htype, htxt', hsize'⟩ := hw.node
    rw [htxt] at htxt' hsize'
    exact Or.inl ⟨rfl, ⟨root, kids, hinv'⟩, n', hn', htype.trans hfile, htxt', hsize',
      Terminated.written hinv' hrun hn'⟩

theorem FileIs.writes {calls : List WriteCall} (h : FileIs s f txt) (hfit : AllFit env f s calls)
    (hgranted : AllGranted env f s calls) :
    ∃ results s', writeCalls env f s calls = some (results, s') ∧
      results.length = calls.length ∧ (∀ res ∈ results, res = 0 ∨ res = -1) ∧
      FileIs s' f (outcome txt (calls.zip results)) := by
  induction calls generalizing s txt with
  | nil => exact ⟨[], s, rfl, rfl, by simp, h⟩
  | cons w ws ih =>
    obtain ⟨res, s₁, hrun, hcase⟩ := h.write env hfit.1 hgranted.1
    obtain ⟨txt₁, htxt₁, h₁⟩ : ∃ txt₁, txt₁ = (if res = 0 then w.apply txt else txt) ∧
        FileIs s₁ f txt₁ := by
      rcases hcase with ⟨rfl, h₁⟩ | ⟨rfl, h₁, -⟩
      · exact ⟨_, rfl, h₁⟩
      · exact ⟨_, rfl, h₁⟩
    obtain ⟨results, s', hruns, hlen, hres, h'⟩ := ih h₁ (hfit.2 hrun) (hgranted.2 hrun)
    refine ⟨res :: results, s', ?_, by rw [List.length_cons, hlen, List.length_cons], ?_, ?_⟩
    · rw [writeCalls, hrun]
      simp only [hruns, Option.map_some]
    · intro r hr
      rcases List.mem_cons.mp hr with rfl | hr
      · exact hcase.imp And.left And.left
      · exact hres r hr
    · rw [htxt₁] at h'
      exact h'

/-- In a run that comes back, all calls were granted what they asked for. -/
theorem FileIs.allGranted {calls : List WriteCall} (h : FileIs s f txt)
    (hfit : AllFit env f s calls) {r : List Int × Fs} (hruns : writeCalls env f s calls = some r) :
    AllGranted env f s calls := by
  induction calls generalizing s txt r with
  | nil => trivial
  | cons w ws ih =>
    rw [writeCalls] at hruns
    cases hrun : writeCall env s f w with
    | none => simp [hrun] at hruns
    | some first =>
      rw [hrun] at hruns
      obtain ⟨rest, hrest, -⟩ := Option.map_eq_some_iff.mp hruns
      have hhead : ∀ {n}, s.nodes.get f = some n → w.Granted env s n := fun hn =>
        h.granted hn (hfit.1 hn) hrun
      refine ⟨hhead, fun {res s₁} hrun₁ => ?_⟩
      obtain rfl := Option.some.inj (hrun.symm.trans hrun₁)
      obtain ⟨res', s₁', hrun', hcase⟩ := h.write env hfit.1 hhead
      obtain ⟨rfl, rfl⟩ := Prod.mk.inj (Option.some.inj (hrun₁.symm.trans hrun'))
      rcases hcase with ⟨-, h₁⟩ | ⟨-, h₁, -⟩
      · exact ih h₁ (hfit.2 hrun') hrest
      · exact ih h₁ (hfit.2 hrun') hrest

/-- A new file is in order, and empty. -/
theorem fileIs_new {s₀ : Fs} {path : List UInt8} {f : Ptr} (h : TreeInv s₀ root kids)
    (hc : CwdOk s₀) (hcreate : fsCreate env s₀ path .file = some (some f, s)) :
    FileIs s f [] := by
  obtain ⟨r, s', hcreate', -, -, hcase⟩ := h.fsCreate env hc path .file
  rw [hcreate] at hcreate'
  obtain ⟨rfl, rfl⟩ := Prod.mk.inj (Option.some.inj hcreate')
  rcases hcase with ⟨hnone, -⟩ | ⟨d, p, kids', name, hp, hin⟩
  · simp at hnone
  · obtain rfl := Option.some.inj hp
    refine ⟨⟨root, kids', hin.inv⟩, _, hin.added.new, rfl, rfl, rfl, fun {d} hd => ?_⟩
    simp at hd

/-- What the calls should do to the file `f`. They come back, it holds what the calls with result
0 make of an empty file, and its buffer is in order. A next call that fails changes nothing. -/
def Follows (env : Env) (s : Fs) (f : Ptr) (calls : List WriteCall) : Prop :=
  ∃ results s' n, writeCalls env f s calls = some (results, s') ∧
    results.length = calls.length ∧ (∀ res ∈ results, res = 0 ∨ res = -1) ∧
    s'.nodes.get f = some n ∧ contents s' n = outcome [] (calls.zip results) ∧
    n.size = (contents s' n).length ∧ Terminated s' n ∧
    ∀ {w s''}, w.Fits n → writeCall env s' f w = some (-1, s'') →
      ∃ n', s''.nodes.get f = some n' ∧ contents s'' n' = contents s' n ∧ n'.size = n.size ∧
        n'.capacity = n.capacity

/-- **Contents follow the writes.** A file is created, and written to by any calls whose lengths
do not wrap around, while the heap answers as it likes. They do what they should exactly if no
call is given a buffer whose size was rounded up to 0. -/
theorem contents_follow_iff {s₀ : Fs} {path : List UInt8} {f : Ptr} (h : TreeInv s₀ root kids)
    (hc : CwdOk s₀) (hcreate : fsCreate env s₀ path .file = some (some f, s))
    {calls : List WriteCall} (hfit : AllFit env f s calls) :
    Follows env s f calls ↔ AllGranted env f s calls := by
  have hnew := fileIs_new h hc hcreate
  constructor
  · rintro ⟨results, s', n, hruns, -⟩
    exact hnew.allGranted hfit hruns
  intro hgranted
  obtain ⟨results, s', hruns, hlen, hres, hfile⟩ := hnew.writes hfit hgranted
  obtain ⟨n, hn, -, htxt, hsize, hterm⟩ := hfile.node
  refine ⟨results, s', n, hruns, hlen, hres, hn, htxt, by rw [hsize, htxt], hterm,
    fun {w s''} hw hrun => ?_⟩
  have hfits : ∀ {m}, s'.nodes.get f = some m → w.Fits m := by
    intro m hm
    rw [hn] at hm
    exact Option.some.inj hm ▸ hw
  obtain ⟨res, s₂, hrun', hcase⟩ := hfile.write env hfits fun hm => hfile.granted hm (hfits hm) hrun
  rw [hrun] at hrun'
  obtain ⟨rfl, rfl⟩ := Prod.mk.inj (Option.some.inj hrun')
  rcases hcase with ⟨hzero, -⟩ | ⟨-, -, hnodes, hbufs⟩
  · simp at hzero
  · exact ⟨n, by rw [hnodes, hn], by rw [contents, contents, hbufs], rfl, rfl⟩

def tmpX : List UInt8 := ofString "/tmp/x"

/-- A longer text and a shorter one over it. -/
def helloHi : List WriteCall :=
  [⟨ofString "hello", 5, false⟩, ⟨ofString "hi there", 2, false⟩]

theorem contents_follow_hi : ∃ s₀ s f s' n, fsInit .ample .zero = some s₀ ∧
    fsCreate .ample s₀ tmpX .file = some (some f, s) ∧
    writeCalls .ample f s helloHi = some ([0, 0], s') ∧ s'.nodes.get f = some n ∧
    contents s' n = ofString "hi" := by
  have h : (fsInit .ample .zero).bind (fun s₀ => (fsCreate .ample s₀ tmpX .file).bind fun r =>
      r.1.bind fun f => (writeCalls .ample f r.2 helloHi).map fun q =>
        (decide (s₀.rootNode ≠ none), q.1)) = some (true, [0, 0]) := by decide +kernel
  simp only [Option.bind_eq_some_iff, Option.map_eq_some_iff, Prod.mk.injEq,
    decide_eq_true_eq] at h
  obtain ⟨s₀, hinit, ⟨_, s⟩, hcreate, f, rfl, ⟨results, s'⟩, hrun, hroot, hresults⟩ := h
  obtain ⟨root, kids, hinv, hc⟩ := fsInit_tree .ample hinit hroot
  have hfit : AllFit .ample f s helloHi := by
    refine ⟨fun _ => ⟨by decide, ?_⟩, fun {_ s₁} _ => ⟨fun _ => ⟨by decide, ?_⟩, fun _ => trivial⟩⟩
    · show 0 + 5 + 65 < 4294967296
      decide
    · show 0 + 2 + 65 < 4294967296
      decide
  have hgranted : AllGranted .ample f s helloHi := by
    refine ⟨fun _ => Or.inl ?_, fun {_ s₁} _ => ⟨fun _ => Or.inl ?_, fun _ => trivial⟩⟩
    · show 0 + 5 + 65 ≤ 0xFFFFFFF8
      decide
    · show 0 + 2 + 65 ≤ 0xFFFFFFF8
      decide
  obtain ⟨results', s'', n, hrun', -, -, hn, htxt, -⟩ :=
    (contents_follow_iff hinv hc hcreate hfit).mpr hgranted
  rw [hrun] at hrun'
  obtain ⟨rfl, rfl⟩ := Prod.mk.inj (Option.some.inj hrun')
  dsimp only at hresults
  subst hresults
  exact ⟨s₀, s, f, s', n, hinit, hcreate, hrun, hn, htxt⟩

/-- A call whose buffer of `0xFFFFFFF9` bytes rounds up to one of none. -/
def hugeCall : WriteCall := ⟨List.replicate 4294967224 0, 4294967224, false⟩

theorem hugeCall_bytes_length : hugeCall.bytes.length = 4294967224 := by
  have hbytes : hugeCall.bytes = List.replicate 4294967224 0 := rfl
  rw [hbytes, List.length_replicate]

theorem hugeCall_size (n : FsNode) :
    (if hugeCall.append then n.size else 0) + hugeCall.len + 65 = 4294967289 := by
  have happend : hugeCall.append = false := rfl
  have hlen : hugeCall.len = 4294967224 := rfl
  rw [happend, hlen, if_neg Bool.false_ne_true]

theorem hugeCall_fits (n : FsNode) : hugeCall.Fits n := by
  have hlen : hugeCall.len = 4294967224 := rfl
  refine ⟨by rw [hlen, hugeCall_bytes_length], ?_⟩
  rw [hugeCall_size]
  decide

/-- The length does not wrap around, and yet the bytes are copied behind a buffer that has none
of the bytes it was asked for. -/
theorem contents_overrun : ∃ s₀ s f, fsInit .ample .zero = some s₀ ∧
    fsCreate .ample s₀ tmpX .file = some (some f, s) ∧ AllFit .ample f s [hugeCall] ∧
    writeCalls .ample f s [hugeCall] = none ∧ ¬Follows .ample s f [hugeCall] := by
  have h : (fsInit .ample .zero).bind (fun s₀ => (fsCreate .ample s₀ tmpX .file).bind fun r =>
      r.1.map fun _ => decide (s₀.rootNode ≠ none)) = some true := by decide +kernel
  simp only [Option.bind_eq_some_iff, Option.map_eq_some_iff, decide_eq_true_eq] at h
  obtain ⟨s₀, hinit, ⟨_, s⟩, hcreate, f, rfl, hroot⟩ := h
  obtain ⟨root, kids, hinv, hc⟩ := fsInit_tree .ample hinit hroot
  have hfit : AllFit .ample f s [hugeCall] := ⟨fun _ => hugeCall_fits _, fun _ => trivial⟩
  have hnew := fileIs_new hinv hc hcreate
  obtain ⟨n, hn, -⟩ := hnew.node
  have hnone : writeCalls .ample f s [hugeCall] = none := by
    cases hruns : writeCalls .ample f s [hugeCall] with
    | none => rfl
    | some r =>
      exfalso
      rcases (hnew.allGranted hfit hruns).1 hn with hle | hk
      · rw [hugeCall_size] at hle
        omega
      · rw [hugeCall_size] at hk
        have hround : Mem.roundUp 4294967289 + Mem.sizeofBlock ≤ Mem.heapMaxSize := by decide
        simp [Env.ample, hround] at hk
  refine ⟨s₀, s, f, hinit, hcreate, hfit, hnone, ?_⟩
  rintro ⟨results, s', n, hruns, -⟩
  rw [hnone] at hruns
  simp at hruns

end LightningOS.Ramfs
