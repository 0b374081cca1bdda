import LightningOS.Lib.Memory
import LightningOS.Lib.CString
import LightningOS.Lib.Store
import LightningOS.Kernel.Mem

/-!
# The file tree

`fs/ramfs.c`. Every node is a heap allocation. Directories keep their children in a
singly linked list, and every node points at its parent. The heap is a store of nodes
and a store of file buffers; a pointer is an address of one of them, and `none` is `NULL`.

Functions return `none` when the C code would read, write or free memory that is not
allocated, or would not come back from a walk. Walks over linked nodes carry fuel. It
starts above the number of nodes, so it runs out only on a list that never ends.

What the code does not decide comes from `Env`: which allocations succeed, where they
are, and what uninitialised memory holds.
-/

namespace LightningOS.Ramfs

open ByteMemory CString

/-! ## Nodes -/

def fsNameMax : Nat := 32

def fsPathMax : Nat := 256

inductive FsType where
  | file
  | dir
  deriving DecidableEq, Repr

abbrev Ptr := Nat

/-- `fs_node_t`. The name is the text in the 32-byte buffer. -/
structure FsNode where
  name : List UInt8
  type : FsType
  data : Option Ptr := none
  size : Nat := 0
  capacity : Nat := 0
  parent : Option Ptr := none
  children : Option Ptr := none
  next : Option Ptr := none
  deriving DecidableEq, Repr

/-- `sizeof(fs_node_t)`. -/
def sizeofFsNode : Nat := 60

/-- The variables of `ramfs.c` and the part of the heap they use. `time` counts the
questions that were put to the environment. -/
structure Fs where
  nodes : Store FsNode
  bufs : Store (List UInt8)
  rootNode : Option Ptr
  currentDir : Option Ptr
  nodeCount : Int
  time : Nat

/-- Before `fs_init`. -/
def Fs.zero : Fs :=
  { nodes := .empty, bufs := .empty, rootNode := none, currentDir := none, nodeCount := 0,
    time := 0 }

/-- `p` is not the address of anything allocated. -/
def Fs.Fresh (s : Fs) (p : Ptr) : Prop := s.nodes.get p = none ∧ s.bufs.get p = none

/--
What the rest of the system does. `kmalloc` answers the request for a size made at some
time in some state, with an unused address if it succeeds. What it rounds the size up to fits
into the heap then, behind a header (`Env.ofHeap` is the one with the heap of `mem.c`). `junk` is
what uninitialised memory holds, and `build` is `LOS_BUILD`.
-/
structure Env where
  kmalloc : Nat → Fs → Nat → Option Ptr
  kmalloc_fresh : ∀ {t s n p}, kmalloc t s n = some p → s.Fresh p
  kmalloc_small : ∀ {t s n p}, kmalloc t s n = some p →
    Mem.roundUp n + Mem.sizeofBlock ≤ Mem.heapMaxSize
  junk : Nat → List UInt8
  build : List UInt8

/-- A system whose heap hands out one address after the other and never runs dry. -/
def Env.ample : Env where
  kmalloc _ s n :=
    if Mem.roundUp n + Mem.sizeofBlock ≤ Mem.heapMaxSize then some (max s.nodes.brk s.bufs.brk)
    else none
  kmalloc_fresh := by
    intro t s n p h
    split at h
    · cases h
      exact ⟨s.nodes.bound _ (Nat.le_max_left _ _), s.bufs.bound _ (Nat.le_max_right _ _)⟩
    · cases h
  kmalloc_small := by
    intro t s n p h
    split at h
    · assumption
    · cases h
  junk _ := []
  build := []

/-- How many of the `n` bytes that were asked for the payload has. The rounding of the seven
largest sizes wraps around, and they get none. -/
def granted (n : Nat) : Nat := min n (Mem.roundUp n)

theorem granted_eq {n : Nat} (h : n ≤ 0xFFFFFFF8) : granted n = n :=
  Nat.min_eq_left (Mem.le_roundUp h)

variable (env : Env)

/-- Ask for `n` bytes. -/
def Fs.alloc (s : Fs) (n : Nat) : Option Ptr × Fs :=
  (env.kmalloc s.time s n, { s with time := s.time + 1 })

/-- `n` bytes of memory nobody has written yet. -/
def Env.fill (t n : Nat) : List UInt8 := (env.junk t ++ List.replicate n 0).take n

def Fs.setNode (s : Fs) (p : Ptr) (n : FsNode) : Fs := { s with nodes := s.nodes.set p n }

/-- `kfree` of a node. -/
def Fs.freeNode (s : Fs) (p : Ptr) : Option Fs :=
  match s.nodes.get p with
  | none => none
  | some _ => some { s with nodes := s.nodes.erase p }

/-- `kfree` of a file buffer, or of `NULL`. -/
def Fs.freeBuf (s : Fs) (d : Option Ptr) : Option Fs :=
  match d with
  | none => some s
  | some d =>
    match s.bufs.get d with
    | none => none
    | some _ => some { s with bufs := s.bufs.erase d }

/-- `memcpy` of `bytes` to the offset `off` of a buffer; `none` if it does not fit. -/
def blit (buf : List UInt8) (off : Nat) (bytes : List UInt8) : Option (List UInt8) :=
  if off + bytes.length ≤ buf.length then
    some (buf.take off ++ bytes ++ buf.drop (off + bytes.length))
  else none

/-! ## node_new, find_child, walk -/

/-- The last node of the sibling list that starts at `node`. -/
def lastSibling (s : Fs) : Nat → Ptr → Option Ptr
  | 0, _ => none
  | fuel + 1, node =>
    match s.nodes.get node with
    | none => none
    | some n =>
      match n.next with
      | none => some node
      | some next => lastSibling s fuel next

/-- Appends `node` to the children of `parent`. -/
def appendChild (s : Fs) (parent node : Ptr) : Option Fs :=
  match s.nodes.get parent with
  | none => none
  | some pn =>
    match pn.children with
    | none => some (s.setNode parent { pn with children := some node })
    | some first =>
      match lastSibling s (s.nodes.brk + 1) first with
      | none => none
      | some last =>
        match s.nodes.get last with
        | none => none
        | some ln => some (s.setNode last { ln with next := some node })

def nodeNew (s : Fs) (name : List UInt8) (type : FsType) (parent : Option Ptr) :
    Option (Option Ptr × Fs) :=
  match s.alloc env sizeofFsNode with
  | (none, s) => some (none, s)
  | (some p, s) =>
    let s := s.setNode p { name := name.take (fsNameMax - 1), type := type, parent := parent }
    match parent with
    | none => some (some p, { s with nodeCount := s.nodeCount + 1 })
    | some d =>
      match appendChild s d p with
      | none => none
      | some s => some (some p, { s with nodeCount := s.nodeCount + 1 })

def findChildLoop (s : Fs) (name : List UInt8) : Nat → Option Ptr → Option (Option Ptr)
  | _, none => some none
  | 0, some _ => none
  | fuel + 1, some child =>
    match s.nodes.get child with
    | none => none
    | some c => if c.name = name then some (some child) else findChildLoop s name fuel c.next

def findChild (s : Fs) (dir : Option Ptr) (name : List UInt8) : Option (Option Ptr) :=
  match dir with
  | none => some none
  | some d =>
    match s.nodes.get d with
    | none => none
    | some dn =>
      if dn.type ≠ .dir then some none
      else findChildLoop s name (s.nodes.brk + 1) dn.children

def slash : UInt8 := 47

def dot : UInt8 := 46

/-- `node->parent ? node->parent : root_node`. -/
def parentOrRoot (s : Fs) (node : Option Ptr) : Option (Option Ptr) :=
  match node with
  | none => none
  | some p =>
    match s.nodes.get p with
    | none => none
    | some n =>
      match n.parent with
      | some q => some (some q)
      | none => some s.rootNode

/-- The loop of `walk`. `rest` is the text from `buffer + i` on. The result is the node
and what is left in `last`. -/
def walkLoop (s : Fs) (stopBeforeLast : Bool) :
    Nat → Option Ptr → List UInt8 → Option (Option Ptr × List UInt8)
  | 0, _, _ => none
  | fuel + 1, node, rest =>
    let rest := rest.dropWhile (· == slash)
    if rest = [] then some (node, [])
    else
      -- an over-long component is cut, and its tail skipped
      let component := (rest.takeWhile (· != slash)).take (fsNameMax - 1)
      let rest := rest.dropWhile (· != slash)
      let isLast := rest.dropWhile (· == slash) = []
      if isLast ∧ stopBeforeLast = true then some (node, component)
      else if component = [dot] then walkLoop s stopBeforeLast fuel node rest
      else if component = [dot, dot] then
        match parentOrRoot s node with
        | none => none
        | some node => walkLoop s stopBeforeLast fuel node rest
      else
        match findChild s node component with
        | none => none
        | some none => some (none, [])
        | some (some child) => walkLoop s stopBeforeLast fuel (some child) rest

/-- Walks `path`, cut to 255 bytes, from the root or from the working directory. -/
def walk (s : Fs) (path : List UInt8) (stopBeforeLast : Bool) :
    Option (Option Ptr × List UInt8) :=
  match path.take (fsPathMax - 1) with
  | [] => some (none, [])
  | c :: rest =>
    if c = slash then walkLoop s stopBeforeLast fsPathMax s.rootNode rest
    else walkLoop s stopBeforeLast fsPathMax s.currentDir (c :: rest)

/-! ## Freeing subtrees -/

mutual

def freeSubtree : Nat → Fs → Ptr → Option Fs
  | 0, _, _ => none
  | fuel + 1, s, node =>
    match s.nodes.get node with
    | none => none
    | some n =>
      match freeSiblings fuel s n.children with
      | none => none
      | some s =>
        match s.freeBuf n.data with
        | none => none
        | some s =>
          match s.freeNode node with
          | none => none
          | some s => some { s with nodeCount := s.nodeCount - 1 }

/-- The loop that frees `child` and the siblings behind it. -/
def freeSiblings : Nat → Fs → Option Ptr → Option Fs
  | _, s, none => some s
  | 0, _, some _ => none
  | fuel + 1, s, some child =>
    match s.nodes.get child with
    | none => none
    | some c =>
      match freeSubtree fuel s child with
      | none => none
      | some s => freeSiblings fuel s c.next

end

/-- Enough fuel for every walk that frees: two calls for each node. -/
def Fs.freeFuel (s : Fs) : Nat := 2 * s.nodes.brk + 2

/-- Frees the whole tree and starts again with an empty root. -/
def fsReset (s : Fs) : Option Fs :=
  match s.rootNode with
  | some root =>
    match s.nodes.get root with
    | none => none
    | some rn =>
      match freeSiblings s.freeFuel s rn.children with
      | none => none
      | some s =>
        match s.nodes.get root with
        | none => none
        | some rn =>
          some { s.setNode root { rn with children := none } with currentDir := some root }
  | none =>
    match nodeNew env s (ofString "/") .dir none with
    | none => none
    | some (root, s) => some { s with rootNode := root, currentDir := root }

/-! ## Resolving and creating -/

def fsSetCwd (s : Fs) (dir : Option Ptr) : Option Fs :=
  match dir with
  | none => some s
  | some d =>
    match s.nodes.get d with
    | none => none
    | some dn => if dn.type = .dir then some { s with currentDir := some d } else some s

def fsResolve (s : Fs) (path : List UInt8) : Option (Option Ptr) :=
  if path = [] then some s.currentDir
  else if path = [slash] then some s.rootNode
  else (walk s path false).map Prod.fst

/-- The text in the buffer `name` after `walk` put a component there. A component of 31
bytes is not terminated, so what the stack holds behind it belongs to the text. -/
def lastText (junk component : List UInt8) : List UInt8 :=
  if component.length < fsNameMax - 1 then component else component ++ text junk

def fsCreate (s : Fs) (path : List UInt8) (type : FsType) : Option (Option Ptr × Fs) :=
  match walk s path true with
  | none => none
  | some (parent, component) =>
    let name := lastText (env.junk s.time) component
    let s := { s with time := s.time + 1 }
    match parent with
    | none => some (none, s)
    | some p =>
      match s.nodes.get p with
      | none => none
      | some pn =>
        if pn.type ≠ .dir ∨ name = [] then some (none, s)
        else
          match findChild s (some p) name with
          | none => none
          | some (some _) => some (none, s)       -- already exists
          | some none => nodeNew env s name type (some p)

/-! ## Removing -/

/-- The node before `node` in the sibling list from `prev` on. -/
def prevSibling (s : Fs) (node : Ptr) : Nat → Option Ptr → Option (Option Ptr)
  | _, none => some none
  | 0, some _ => none
  | fuel + 1, some prev =>
    match s.nodes.get prev with
    | none => none
    | some pn => if pn.next = some node then some (some prev) else prevSibling s node fuel pn.next

/-- Takes `node` out of the children of `parent`. The inner `none` is "not found". -/
def unlink (s : Fs) (parent node : Ptr) (next : Option Ptr) : Option (Option Fs) :=
  match s.nodes.get parent with
  | none => none
  | some pn =>
    if pn.children = some node then some (some (s.setNode parent { pn with children := next }))
    else
      match prevSibling s node (s.nodes.brk + 1) pn.children with
      | none => none
      | some none => some none
      | some (some prev) =>
        match s.nodes.get prev with
        | none => none
        | some qn => some (some (s.setNode prev { qn with next := next }))

def fsRemove (s : Fs) (path : List UInt8) : Option (Int × Fs) :=
  match fsResolve s path with
  | none => none
  | some none => some (-1, s)
  | some (some node) =>
    if s.rootNode = some node then some (-1, s)
    else if s.currentDir = some node then some (-2, s)      -- refuse to remove the cwd
    else
      match s.nodes.get node with
      | none => none
      | some n =>
        match n.parent with
        | none => some (-1, s)
        | some parent =>
          match unlink s parent node n.next with
          | none => none
          | some none => some (-1, s)
          | some (some s) =>
            match freeSubtree s.freeFuel s node with
            | none => none
            | some s => some (0, s)

/-! ## Writing -/

/-- Gives `file` a buffer of at least `needed` bytes that starts with the first `base`
bytes of the old one. The result is `none` in the inner option if there is no memory. -/
def growBuf (s : Fs) (file : Ptr) (n : FsNode) (base needed : Nat) :
    Option (Option FsNode × Fs) :=
  if needed ≤ n.capacity then some (some n, s)
  else
    let capacity := wrap32 (needed + 64)
    let junk := env.fill s.time (granted capacity)
    match s.alloc env capacity with
    | (none, s) => some (none, s)
    | (some d, s) =>
      -- memcpy of the old contents, if there are any
      let kept : Option (List UInt8) :=
        match n.data with
        | none => some junk
        | some old =>
          match s.bufs.get old with
          | none => none
          | some bytes => if base ≤ bytes.length then blit junk 0 (bytes.take base) else none
      match kept with
      | none => none
      | some buffer =>
        match s.freeBuf n.data with
        | none => none
        | some s =>
          let n := { n with data := some d, capacity := capacity }
          some (some n, { s.setNode file n with bufs := s.bufs.set d buffer })

/-- Writes the first `add` of the bytes at `src`. -/
def fsWriteN (s : Fs) (file : Option Ptr) (src : List UInt8) (add : Nat) (append : Bool) :
    Option (Int × Fs) :=
  match file with
  | none => some (-1, s)
  | some f =>
    match s.nodes.get f with
    | none => none
    | some n =>
      if n.type ≠ .file then some (-1, s)
      else
        let base := if append then n.size else 0
        match growBuf env s f n base (wrap32 (base + add + 1)) with
        | none => none
        | some (none, s) => some (-1, s)
        | some (some n, s) =>
          match n.data with
          | none => none
          | some d =>
            match s.bufs.get d with
            | none => none
            | some buffer =>
              if src.length < add then none
              else
                match blit buffer base (src.take add) with
                | none => none
                | some buffer =>
                  let size := wrap32 (base + add)
                  match blit buffer size [0] with
                  | none => none
                  | some buffer =>
                    some (0, { s.setNode f { n with size := size } with
                      bufs := s.bufs.set d buffer })

def fsWrite (s : Fs) (file : Option Ptr) (txt : List UInt8) (append : Bool) : Option (Int × Fs) :=
  fsWriteN env s file txt txt.length append

/-! ## Absolute paths -/

/-- The names from `node` up, at most as many as the array `parts` holds. -/
def absParts (s : Fs) : Nat → Ptr → Option (List (List UInt8))
  | 0, _ => some []
  | room + 1, node =>
    match s.nodes.get node with
    | none => none
    | some n =>
      match n.parent with
      | none => some []
      | some parent => (absParts s room parent).map (n.name :: ·)

/-- Writes the parts, outermost first, as long as they fit. -/
def joinParts (size : Nat) : List UInt8 → List (List UInt8) → List UInt8
  | out, [] => out
  | out, part :: parts =>
    if size ≤ out.length + part.length + 2 then out
    else joinParts size (out ++ slash :: part) parts

/-- `fs_abspath(node, out, size)`: the text in `out`. -/
def fsAbspath (s : Fs) (node : Ptr) (size : Nat) : Option (List UInt8) :=
  match absParts s 32 node with
  | none => none
  | some [] => some ([slash].take (size - 1))
  | some parts => some (joinParts size [] parts.reverse)

/-! ## The skeleton -/

def losName : List UInt8 := ofString "LightningOS"

def losRelease : List UInt8 := ofString "v1.0.0.0"

def losCodename : List UInt8 := ofString "Thunderbolt"

def losArch : List UInt8 := ofString "i386"

def motdText : List UInt8 :=
  ofString "Welcome to LightningOS.\n" ++
    ofString "32-bit protected mode, preemptive tasks, ATA disk, no paging yet.\n" ++
    ofString "Type 'help' to see what the shell can do.\n"

/-- The text of `/etc/version`, as `ksnprintf` leaves it in 160 bytes. -/
def versionText (build : List UInt8) : List UInt8 :=
  (losName ++ ofString " " ++ losRelease ++ ofString "\ncodename " ++ losCodename ++
    ofString "\narch " ++ losArch ++ ofString "\nbuilt " ++ build ++ ofString "\n").take 159

/-- Creates each of the paths, without looking at the results. -/
def createAll (type : FsType) : List (List UInt8) → Fs → Option Fs
  | [], s => some s
  | path :: paths, s =>
    match fsCreate env s path type with
    | none => none
    | some (_, s) => createAll type paths s

/-- Creates a file and writes its first text. -/
def createFile (s : Fs) (path txt : List UInt8) : Option Fs :=
  match fsCreate env s path .file with
  | none => none
  | some (file, s) => (fsWrite env s file txt false).map Prod.snd

def skeletonDirs : List (List UInt8) :=
  [ofString "/bin", ofString "/etc", ofString "/dev", ofString "/tmp", ofString "/home",
    ofString "/root"]

def etcPasswd : List UInt8 := ofString "/etc/passwd"

def fsInit (s : Fs) : Option Fs :=
  match nodeNew env s (ofString "/") .dir none with
  | none => none
  | some (root, s) =>
    match createAll env .dir skeletonDirs { s with rootNode := root, currentDir := root } with
    | none => none
    | some s =>
      match createFile env s (ofString "/etc/motd") motdText with
      | none => none
      | some s =>
        match createFile env s (ofString "/etc/hostname") (ofString "lightning\n") with
        | none => none
        | some s =>
          match createFile env s (ofString "/etc/version") (versionText env.build) with
          | none => none
          | some s => (fsCreate env s etcPasswd .file).map Prod.snd

end LightningOS.Ramfs
