import LightningOS.Lib.Memory
import LightningOS.Lib.BlockList

/-!
# The kernel heap

`kernel/mem.c`. The heap is one region of physical memory. Every block starts with a
header of five words (`block_t`), and the headers form a doubly linked list that
starts at `heap_head`. Everything here reads and writes those headers in memory, at
the offsets an i386 compiler gives them.

Pointers are addresses and `NULL` is 0. Sizes and addresses are 32-bit, so sums go
through `wrap32`. Interrupts are masked for the whole of each operation, so each one
is a single step.
-/

namespace LightningOS.Mem

open ByteMemory BlockList

/-! ## The memory map -/

def e820Max : Nat := 32

def e820TypeUsable : UInt32 := 1

def heapBase : Nat := 0x00200000

def heapMaxSize : Nat := 32 * 1024 * 1024

def heapMinSize : Nat := 1 * 1024 * 1024

/-- One entry of the BIOS memory map. -/
structure E820Entry where
  base : UInt64
  length : UInt64
  type : UInt32
  deriving DecidableEq

/-- The entries that are copied out of the BIOS table. -/
def readMemoryMap (src : List E820Entry) : List E820Entry := src.take e820Max

/-- How far the usable region containing `heapBase` extends. -/
def usableHeapSize : List E820Entry → Nat
  | [] => heapMinSize
  | r :: rest =>
    if r.type ≠ e820TypeUsable then usableHeapSize rest
    else
      let start := r.base
      let stop := r.base + r.length
      if start.toNat ≤ heapBase ∧ heapBase < stop.toNat then
        min (stop.toNat - heapBase) heapMaxSize
      else usableHeapSize rest

/-! ## Block headers -/

def blockMagic : Nat := 0x4C4F5342

/-- `sizeof(block_t)`: magic, size, free (padded), next, prev. -/
def sizeofBlock : Nat := 20

/-- The least payload worth cutting off. -/
def splitSlack : Nat := 16

def blkMagic (m : Memory) (b : Nat) : Nat := load32 m b

def blkSize (m : Memory) (b : Nat) : Nat := load32 m (b + 4)

def blkFree (m : Memory) (b : Nat) : Bool := m (b + 8) != 0

def blkNext (m : Memory) (b : Nat) : Nat := load32 m (b + 12)

def blkPrev (m : Memory) (b : Nat) : Nat := load32 m (b + 16)

def setMagic (m : Memory) (b v : Nat) : Memory := store32 m b v

def setSize (m : Memory) (b v : Nat) : Memory := store32 m (b + 4) v

def setFree (m : Memory) (b : Nat) (v : Bool) : Memory := store8 m (b + 8) (if v then 1 else 0)

def setNext (m : Memory) (b v : Nat) : Memory := store32 m (b + 12) v

def setPrev (m : Memory) (b v : Nat) : Memory := store32 m (b + 16) v

/-- Memory and the three variables of `mem.c` that describe the heap. -/
structure Heap where
  mem : Memory
  heapHead : Nat
  heapSize : Nat
  heapUsed : Nat

/-- Lays the heap out as one free block. `none` is the panic for lack of RAM. -/
def memInit (mem : Memory) (src : List E820Entry) : Option Heap :=
  let size := usableHeapSize (readMemoryMap src)
  if size < heapMinSize then none
  else
    let m := setMagic mem heapBase blockMagic
    let m := setSize m heapBase (size - sizeofBlock)
    let m := setFree m heapBase true
    let m := setNext m heapBase 0
    let m := setPrev m heapBase 0
    some { mem := m, heapHead := heapBase, heapSize := size, heapUsed := 0 }

/-! ## Allocation -/

/-- Cuts `block` down to `size` bytes if the leftover can hold a header and 16 bytes. -/
def splitBlock (m : Memory) (block size : Nat) : Memory :=
  if blkSize m block < wrap32 (size + sizeofBlock + splitSlack) then m
  else
    let rest := wrap32 (block + sizeofBlock + size)
    let m := setMagic m rest blockMagic
    let m := setSize m rest
      (wrap32 (blkSize m block + (4294967296 - size) + (4294967296 - sizeofBlock)))
    let m := setFree m rest true
    let m := setNext m rest (blkNext m block)
    let m := setPrev m rest block
    let m := if blkNext m block ≠ 0 then setPrev m (blkNext m block) rest else m
    let m := setNext m block rest
    setSize m block size

/-- The body of the loop of `kmalloc` once it has found a block. -/
def claimBlock (h : Heap) (block size : Nat) : Heap :=
  let m := splitBlock h.mem block size
  let m := setFree m block false
  { h with mem := m, heapUsed := wrap32 (h.heapUsed + (blkSize m block + sizeofBlock)) }

/-- The walk over the list. `none` is a list with more than `fuel` blocks. -/
def kmallocLoop (h : Heap) (size : Nat) : Nat → Nat → Option (Nat × Heap)
  | fuel, block =>
    if block = 0 then some (0, h)
    else match fuel with
      | 0 => none
      | fuel + 1 =>
        if !blkFree h.mem block || decide (blkSize h.mem block < size) then
          kmallocLoop h size fuel (blkNext h.mem block)
        else some (wrap32 (block + sizeofBlock), claimBlock h block size)

/-- `kmalloc`: first fit. The result is the payload, or 0 when no block is large enough. -/
def kmalloc (h : Heap) (size : Nat) : Option (Nat × Heap) :=
  if size = 0 then some (0, h)
  else
    let size := wrap32 (size + 7) / 8 * 8     -- the mask `& ~7`
    kmallocLoop h size h.heapSize h.heapHead

/-- The size `kmalloc` looks for. -/
def roundUp (n : Nat) : Nat := wrap32 (n + 7) / 8 * 8

theorem le_roundUp {n : Nat} (h : n ≤ 0xFFFFFFF8) : n ≤ roundUp n := by
  unfold roundUp wrap32
  omega

/-- Rounding adds at most 7. -/
theorem roundUp_le (n : Nat) : roundUp n ≤ n + 7 := by
  unfold roundUp wrap32
  omega

/-- `memset`: one byte after the other, at 32-bit addresses. -/
def memset (m : Memory) (ptr : Nat) (v : UInt8) : Nat → Memory
  | 0 => m
  | n + 1 => store8 (memset m ptr v n) (wrap32 (ptr + n)) v

/-- `kcalloc`. The product of the two sizes is a 32-bit one. -/
def kcalloc (h : Heap) (count size : Nat) : Option (Nat × Heap) :=
  (kmalloc h (wrap32 (count * size))).map fun r =>
    if r.1 ≠ 0 then (r.1, { r.2 with mem := memset r.2.mem r.1 0 (wrap32 (count * size)) })
    else r

/-! ## Release -/

/-- The first half of `coalesce`: take in the free block behind `block`. -/
def coalesceNext (m : Memory) (block : Nat) : Memory :=
  if blkNext m block ≠ 0 ∧ blkFree m (blkNext m block) = true then
    let m := setSize m block (blkSize m block + (blkSize m (blkNext m block) + sizeofBlock))
    let m := setNext m block (blkNext m (blkNext m block))
    if blkNext m block ≠ 0 then setPrev m (blkNext m block) block else m
  else m

/-- The second half of `coalesce`: let the free block before `block` take it in. -/
def coalescePrev (m : Memory) (block : Nat) : Memory :=
  if blkPrev m block ≠ 0 ∧ blkFree m (blkPrev m block) = true then
    let m := setSize m (blkPrev m block)
      (blkSize m (blkPrev m block) + (blkSize m block + sizeofBlock))
    let m := setNext m (blkPrev m block) (blkNext m block)
    if blkNext m block ≠ 0 then setPrev m (blkNext m block) (blkPrev m block) else m
  else m

/-- `coalesce`: merges `block` with its free neighbours. -/
def coalesce (m : Memory) (block : Nat) : Memory := coalescePrev (coalesceNext m block) block

/-- `kfree`. `none` is the panic for a pointer that is not a heap block. -/
def kfree (h : Heap) (ptr : Nat) : Option Heap :=
  if ptr = 0 then some h
  else
    let block := wrap32 (ptr + (4294967296 - sizeofBlock))
    if blkMagic h.mem block ≠ blockMagic then none
    else if blkFree h.mem block = true then some h
    else
      let m := setFree h.mem block true
      let used := wrap32 (h.heapUsed + (4294967296 - (blkSize m block + sizeofBlock)))
      some { h with mem := coalesce m block, heapUsed := used }

end LightningOS.Mem
