import LightningOS.Properties.Boot
import LightningOS.Properties.Contents

/-!
# What is read to be printed

`ls`, `tree`, `cat` and the message of the day read the tree. The lists end, and what is
printed are the nodes below a directory in their order. The text of a file ends in its
buffer, since every write puts a zero behind it.
-/

namespace LightningOS.Main

open ByteMemory CString Ramfs Users Forest Shell

variable {env : Env} {okFs : Fs → FsOp → Prop} {ok : AccountOp → Prop}
variable {t t' : Table} {s s' : Fs} {root : Ptr} {kids : Forest Ptr}

/-! ## Buffers end with a zero -/

/-- The data of every file ends with a zero. -/
def Ended (s : Fs) : Prop := ∀ p n, s.nodes.get p = some n → Terminated s n

/-- The buffer of a node is all that matters. -/
theorem terminated_same {n n' : FsNode} (h : Terminated s n) (hbody : SameBody n n')
    (hbufs : ∀ d, n.data = some d → s'.bufs.get d = s.bufs.get d) : Terminated s' n' := by
  intro d hd
  rw [hbody.data] at hd
  rw [hbufs d hd, hbody.size, hbody.capacity]
  exact h hd

theorem terminated_empty {n : FsNode} (h : n.data = none) : Terminated s n := by
  intro d hd
  rw [h] at hd
  simp at hd

/-- A call takes the zero away with the buffer, or writes a new one. -/
theorem ended_step {op : FsOp} (hrooted : Rooted s) (he : Ended s)
    (hs : fsStep env s op = some s') : Ended s' := by
  obtain ⟨⟨root, kids, hinv⟩, c, hc⟩ := hrooted
  intro p n' hn'
  cases op with
  | create path type =>
    simp only [fsStep, Option.map_eq_some_iff] at hs
    obtain ⟨⟨r, s₁⟩, hcreate, rfl⟩ := hs
    cases r with
    | none =>
      obtain ⟨t, -, rfl⟩ := fsCreate_none hcreate
      exact he _ _ hn'
    | some q =>
      obtain ⟨d, comp, kids', -, hin⟩ := create_leadsTo hinv hc hcreate
      by_cases hp : p = q
      · subst hp
        rw [hin.added.new] at hn'
        exact terminated_empty (Option.some.inj hn' ▸ rfl)
      · obtain ⟨n, hn, hbody⟩ := hin.added.back hp hn'
        exact terminated_same (he _ _ hn) hbody fun d _ => by rw [hin.added.bufs]
  | remove path =>
    simp only [fsStep, Option.map_eq_some_iff] at hs
    obtain ⟨⟨res, s₁⟩, hrun, rfl⟩ := hs
    cases hr : fsResolve s path with
    | none => simp [fsRemove, hr] at hrun
    | some r =>
      obtain ⟨res', s₂, hrun', hcase⟩ := hinv.fsRemove hr
      rw [hrun] at hrun'
      obtain ⟨rfl, rfl⟩ := Prod.mk.inj (Option.some.inj hrun')
      rcases hcase with ⟨-, rfl, -⟩ | ⟨-, node, below, kids', -, -, -, -, hremoved⟩
      · exact he _ _ hn'
      · obtain ⟨hgone, n, hn, hbody⟩ := hremoved.back hn'
        exact terminated_same (he _ _ hn) hbody fun d hd => hremoved.bufs hgone hn hd
  | write file src add append =>
    simp only [fsStep, Option.map_eq_some_iff] at hs
    obtain ⟨⟨res, s₁⟩, hrun, rfl⟩ := hs
    rcases hinv.write_cases env hrun with ⟨-, t, rfl⟩ | ⟨f, n, rfl, hn, -, -, hinv', hw⟩
    · exact he _ _ hn'
    by_cases hres : res = 0
    · subst hres
      by_cases hp : p = f
      · subst hp
        exact Terminated.written hinv' hrun hn'
      · rw [hw.other hp] at hn'
        exact terminated_same (he _ _ hn') (.refl _) fun d hd => hw.bufs hp hn' hd
    · obtain ⟨t, rfl⟩ := Shell.fsWriteN_failed hrun hres
      exact he _ _ hn'
  | setCwd dir =>
    rw [fsStep, fsSetCwd.eq_def] at hs
    repeat' split at hs
    all_goals first
      | (obtain rfl := Option.some.inj hs; exact he _ _ hn')
      | simp at hs
  | reset =>
    obtain ⟨s₁, hrun, -, hremoved, -⟩ := hinv.fsReset env
    rw [fsStep, hrun] at hs
    obtain rfl := Option.some.inj hs
    obtain ⟨hgone, n, hn, hbody⟩ := hremoved.back hn'
    exact terminated_same (he _ _ hn) hbody fun d hd => hremoved.bufs hgone hn hd

theorem ended_runs (h : Runs env s s') (hs : Rooted s ∧ Ended s) : Rooted s' ∧ Ended s' := by
  induction h with
  | refl => exact hs
  | step _ _ hstep ih => exact ⟨ih.1.fsStep hstep, ended_step ih.1 ih.2 hstep⟩

/-- Every call keeps the zeros, those of the accounts included. -/
theorem ended_closed : Closed env okFs ok fun _ s => Rooted s ∧ Ended s where
  files h hop _ hstep := ended_runs (.step .refl hop hstep) h
  accounts h _ _ hstep := ended_runs (accountStep_runs hstep) h
  time n h := by
    obtain ⟨⟨⟨root, kids, hinv⟩, c, hc⟩, he⟩ := h
    exact ⟨⟨⟨root, kids, hinv.congr rfl rfl rfl rfl⟩, c, hc⟩, he⟩

theorem newRoot_ended {r : Option Ptr} {s₁ : Fs}
    (h : nodeNew env .zero (ofString "/") .dir none = some (r, s₁)) : Ended s₁ := by
  intro p n hn
  cases nodeNew_cases env h with
  | denied => simp [Fs.zero] at hn
  | @root q =>
    by_cases hp : p = q
    · subst hp
      simp only [Fs.setNode, Store.get_set_same, Option.some.injEq] at hn
      exact terminated_empty (by rw [← hn])
    · simp only [Fs.setNode, Store.get_set_other hp] at hn
      simp [Fs.zero] at hn

theorem fsInit_ended (h : fsInit env .zero = some s) (hroot : s.rootNode ≠ none) : Ended s := by
  obtain ⟨r, s₁, hnew, hbare, hruns⟩ := fsInit_runs h
  have he₁ := newRoot_ended hnew
  have he : Ended { s₁ with rootNode := r, currentDir := r } := he₁
  rcases Bare.zero.newRoot env hnew with ⟨rfl, -⟩ | ⟨p, rfl, htree⟩
  · exact absurd (hbare rfl).root hroot
  · exact (ended_runs hruns ⟨⟨⟨p, Forest.nil, htree⟩, p, rfl⟩, he⟩).2

/-! ## Lists -/

/-- `ls` comes to the nodes of the first level. -/
theorem lsLoop_spec {up head : Option Ptr} {f : Forest Ptr} (hrep : Rep (links s) up head f)
    (hlive : ∀ p ∈ f.tops, ∃ n, s.nodes.get p = some n) :
    ∀ {fuel : Nat}, f.tops.length ≤ fuel → lsLoop s fuel head = some f.tops := by
  induction f generalizing head with
  | nil =>
    intro fuel _
    have hhead : head = none := hrep
    subst hhead
    cases fuel <;> rfl
  | cons a ch rest _ ih =>
    intro fuel hf
    obtain ⟨rfl, -, -, hrest⟩ := hrep
    rw [tops_cons, List.length_cons] at hf
    cases fuel with
    | zero => omega
    | succ fuel =>
      obtain ⟨n, hn⟩ := hlive a (by simp)
      have hnext : (links s).next a = n.next := by simp [links, hn]
      rw [hnext] at hrest
      rw [lsLoop, hn, tops_cons]
      simp only [ih hrest (fun p hp => hlive p (by simp [hp])) (by omega : rest.tops.length ≤ fuel),
        Option.map_some]

/-- `tree` comes to all the nodes, each of them once. -/
theorem treeWalk_spec {up head : Option Ptr} {f : Forest Ptr} (hrep : Rep (links s) up head f)
    (hlive : ∀ p ∈ f.ids, ∃ n, s.nodes.get p = some n)
    (hok : ∀ {p n}, s.nodes.get p = some n → NodeOk s n) :
    ∀ {fuel depth : Nat}, f.ids.length ≤ fuel →
      ∃ shown, treeWalk s fuel head depth = some shown ∧ shown.map Prod.snd = f.ids := by
  induction f generalizing up head with
  | nil =>
    intro fuel depth _
    have hhead : head = none := hrep
    subst hhead
    exact ⟨[], by cases fuel <;> rfl, rfl⟩
  | cons a ch rest ihc ihr =>
    intro fuel depth hf
    obtain ⟨rfl, -, hch, hrest⟩ := hrep
    rw [ids_cons, List.length_cons, List.length_append] at hf
    cases fuel with
    | zero => omega
    | succ fuel =>
      obtain ⟨n, hn⟩ := hlive a (by simp)
      have hchildren : (links s).children a = n.children := by simp [links, hn]
      have hnext : (links s).next a = n.next := by simp [links, hn]
      rw [hchildren] at hch
      rw [hnext] at hrest
      obtain ⟨below, hbelow, hids⟩ := @ihc _ _ hch (fun p hp => hlive p (by simp [hp])) fuel
        (depth + 1) (by omega)
      obtain ⟨behind, hbehind, hids'⟩ := @ihr _ _ hrest (fun p hp => hlive p (by simp [hp])) fuel
        depth (by omega)
      have hinside : (if n.type = .dir then treeWalk s fuel n.children (depth + 1) else some []) =
          some below := by
        cases htype : n.type with
        | dir => rw [if_pos rfl, hbelow]
        | file =>
          -- a file has no children, so nothing is left out
          rw [(hok hn).file htype] at hbelow
          have hnil : treeWalk s fuel none (depth + 1) = some [] := by cases fuel <;> rfl
          rw [hnil] at hbelow
          rw [if_neg (by simp), hbelow]
      refine ⟨(depth, a) :: (below ++ behind), ?_, ?_⟩
      · rw [treeWalk, hn]
        simp only [hinside, hbehind, Option.map_some]
      · rw [List.map_cons, List.map_append, hids, hids', ids_cons]

/-- Both lists of a directory, read to their ends. -/
theorem listed (h : TreeInv s root kids) {d : Ptr} {dn : FsNode} (hd : s.nodes.get d = some dn) :
    ∃ ch shown, (tree root kids).sub d = some ch ∧
      lsLoop s (s.nodes.brk + 1) dn.children = some ch.tops ∧
      treeWalk s (s.nodes.brk + 1) dn.children 0 = some shown ∧ shown.map Prod.snd = ch.ids := by
  obtain ⟨ch, hch, hrep⟩ := h.sub hd
  have hlen := h.sub_length hch
  have htops := length_tops_le ch
  have hlive : ∀ p ∈ ch.ids, ∃ n, s.nodes.get p = some n := fun p hp => h.get (sub_subset hch hp)
  have hls := lsLoop_spec hrep (fun p hp => hlive p (tops_subset ch hp))
    (by omega : ch.tops.length ≤ s.nodes.brk + 1)
  obtain ⟨shown, hwalk, hids⟩ := @treeWalk_spec _ _ _ _ hrep hlive h.ok (s.nodes.brk + 1) 0 (by omega)
  exact ⟨ch, shown, hch, hls, hwalk, hids⟩

/-! ## Files -/

theorem text_before_zero (w rest : List UInt8) : text (w ++ 0 :: rest) = text w := by
  induction w with
  | nil => rfl
  | cons c w ih =>
    unfold text at ih ⊢
    by_cases hc : c = 0
    · subst hc
      rfl
    · rw [List.cons_append, List.takeWhile_cons_of_pos (by simpa using hc),
        List.takeWhile_cons_of_pos (by simpa using hc), ih]

/-- What is printed of a file is its contents, up to the first zero in them. -/
theorem writeFileData_contents {n : FsNode} (h : Terminated s n) :
    writeFileData s n = some (text (contents s n)) := by
  unfold writeFileData contents
  cases hd : n.data with
  | none => simp [text]
  | some d =>
    obtain ⟨buf, hbuf, -, -, hzero⟩ := h hd
    obtain ⟨hlt, hget⟩ := List.getElem?_eq_some_iff.mp hzero
    have hsplit : buf = buf.take n.size ++ 0 :: buf.drop (n.size + 1) := by
      conv_lhs => rw [← List.take_append_drop n.size buf, List.drop_eq_getElem_cons hlt, hget]
    have hmem : (0 : UInt8) ∈ buf := List.mem_of_getElem? hzero
    have htext : text buf = text (buf.take n.size) := by
      conv_lhs => rw [hsplit, text_before_zero]
    simp only [vgaWrite, hbuf, if_pos hmem, Option.bind_some, Option.getD_some, htext]

/-- The last byte of the data is in the buffer. -/
theorem lacksNewline_total {n : FsNode} (hok : DataOk s n) : ∃ b, lacksNewline s n = some b := by
  unfold lacksNewline
  unfold DataOk at hok
  split
  · exact ⟨_, rfl⟩
  next hsize =>
    cases hd : n.data with
    | none =>
      rw [hd] at hok
      exact absurd hok.1 hsize
    | some d =>
      simp only [hd] at hok
      obtain ⟨buf, hbuf, hlen, hlt, -⟩ := hok
      have hget : buf[n.size - 1]? = some buf[n.size - 1] := List.getElem?_eq_getElem (by omega)
      simp only [hbuf, Option.bind_some, hget, Option.map_some]
      exact ⟨_, rfl⟩

end LightningOS.Main
