import Mathlib.Logic.Function.Basic
import Mathlib.Algebra.Order.Ring.Nat

/-! The allocator (`alloc.c`): the pages of blocks of one size, their free
lists, the list of allocated blocks, and the release of empty pages. -/

namespace Arcueid.Bibop

/-- `MAX_BIBOP`. -/
def maxBibop : Nat := 512

/-- `BIBOP_PAGE_SIZE`. -/
def pageSize : Nat := 64

/-- A block: one of the slots of a page, or memory of its own. Pages and other
memory are named by what `mem_alloc` returned for them. -/
inductive Blk where
  | slot (page j : Nat)
  | big (area : Nat)
  deriving DecidableEq

/-- The memory. `bsize`, `ballocp` and `next` are the headers of blocks,
`pnext` the link of a page to the next one; `owned` is the memory between
`mem_alloc` and `mem_free`. -/
structure Mem where
  bsize : Blk → Nat
  ballocp : Blk → Bool
  next : Blk → Option Blk
  pnext : Nat → Option Nat
  bibopfl : Nat → Option Blk
  bibopPages : Nat → Option Nat
  allocHead : Option Blk
  usedmem : UInt64
  owned : Nat → Bool

/-- `arc_init_memmgr`. -/
def initMemmgr : Mem where
  bsize := fun _ => 0
  ballocp := fun _ => false
  next := fun _ => none
  pnext := fun _ => none
  bibopfl := fun _ => none
  bibopPages := fun _ => none
  allocHead := none
  usedmem := 0
  owned := fun _ => false

namespace Mem

def setNext (m : Mem) (h : Blk) (next : Option Blk) : Mem :=
  { m with next := Function.update m.next h next }

def setSize (m : Mem) (h : Blk) (size : Nat) : Mem :=
  { m with bsize := Function.update m.bsize h size }

/-- `BALLOC` and `BFREE`. -/
def setAlloc (m : Mem) (h : Blk) (b : Bool) : Mem :=
  { m with ballocp := Function.update m.ballocp h b }

def setFl (m : Mem) (size : Nat) (h : Option Blk) : Mem :=
  { m with bibopfl := Function.update m.bibopfl size h }

def setPages (m : Mem) (size : Nat) (bpage : Option Nat) : Mem :=
  { m with bibopPages := Function.update m.bibopPages size bpage }

def setPnext (m : Mem) (bpage : Nat) (next : Option Nat) : Mem :=
  { m with pnext := Function.update m.pnext bpage next }

def memAlloc (m : Mem) (area : Nat) : Mem := { m with owned := Function.update m.owned area true }

def memFree (m : Mem) (area : Nat) : Mem := { m with owned := Function.update m.owned area false }

/-- Put a slot into the free list of its size. -/
def pushFree (m : Mem) (size : Nat) (h : Blk) : Mem :=
  (m.setNext h (m.bibopfl size)).setFl size (some h)

/-- Put an allocated block of a size in front of the others. -/
def handOut (m : Mem) (osize : Nat) (h : Blk) : Mem :=
  let m := (m.setSize h osize).setAlloc h true
  { m.setNext h m.allocHead with allocHead := some h, usedmem := m.usedmem + UInt64.ofNat osize }

end Mem

/-- Make a slot of a new page. -/
def newSlot (osize bpage : Nat) (m : Mem) (j : Nat) : Mem :=
  ((m.setSize (.slot bpage j) osize).setAlloc (.slot bpage j) false).pushFree osize (.slot bpage j)

/-- A new page, at `bpage`, which is put in front of the pages of its size. -/
def newPage (m : Mem) (osize bpage : Nat) : Mem :=
  let m := (m.memAlloc bpage).setPnext bpage (m.bibopPages osize)
  (List.range pageSize).foldl (newSlot osize bpage) (m.setPages osize (some bpage))

/-- `bibop_alloc`. A new page would be at `fresh`. -/
def bibopAlloc (m : Mem) (osize fresh : Nat) : Option (Mem × Blk) :=
  let m := if m.bibopfl osize = none then newPage m osize fresh else m
  (m.bibopfl osize).map fun h => ((m.setFl osize (m.next h)).handOut osize h, h)

/-- `alloc`, where new memory would be at `fresh`. -/
def alloc (m : Mem) (osize fresh : Nat) : Option (Mem × Blk) :=
  if osize ≤ maxBibop then bibopAlloc m osize fresh
  else some ((m.memAlloc fresh).handOut osize (.big fresh), .big fresh)

/-- `free_block`. A slot is no memory that `mem_free` could take back. -/
def freeBlock (m : Mem) (h : Blk) (prevblk : Option Blk) : Option Mem :=
  let m := match prevblk with
    | none => { m with allocHead := m.next h }
    | some p => m.setNext p (m.next h)
  let m := { m with usedmem := m.usedmem - UInt64.ofNat (m.bsize h) }
  if m.bsize h ≤ maxBibop then some ((m.setAlloc h false).pushFree (m.bsize h) h)
  else match h with
    | .big area => some (m.memFree area)
    | .slot _ _ => none

/-- The loop of `free_unused_bibop` over the slots of a page, `n` of them left,
with the head and the tail of the list threaded so far. -/
def scanSlots (bpage : Nat) : Nat → Nat → Mem → Option Blk → Option Blk →
    Mem × Bool × Option Blk × Option Blk
  | 0, _, m, pfl, pflt => (m, true, pfl, pflt)
  | n + 1, j, m, pfl, pflt =>
    let h := Blk.slot bpage j
    if m.ballocp h then (m, false, pfl, pflt)
    else scanSlots bpage n (j + 1) (m.setNext h pfl) (some h) (if pflt = none then some h else pflt)

/-- The loop over the pages of a size, `fuel` rounds at most: the memory and the
new free list. -/
def pageLoop (size : Nat) : Nat → Mem → Option Nat → Option Nat → Option Blk → Option (Mem × Option Blk)
  | 0, _, _, _, _ => none
  | _ + 1, m, none, _, nfl => some (m, nfl)
  | fuel + 1, m, some bpage, prev, nfl =>
    let (m, empty, pfl, pflt) := scanSlots bpage pageSize 0 m none none
    let h := m.pnext bpage
    if empty then
      let m := match prev with
        | none => m.setPages size h
        | some p => m.setPnext p h
      pageLoop size fuel (m.memFree bpage) h prev nfl
    else match pflt, pfl with
      | some t, some _ => pageLoop size fuel (m.setNext t nfl) h (some bpage) pfl
      | _, _ => pageLoop size fuel m h (some bpage) nfl

def rebuildSize (fuel : Nat) (m : Mem) (size : Nat) : Option Mem := do
  let (m, nfl) ← pageLoop size fuel m (m.bibopPages size) none none
  some (m.setFl size nfl)

def freeUnusedBibop (fuel : Nat) (m : Mem) : Option Mem :=
  (List.range (maxBibop + 1)).foldlM (rebuildSize fuel) m

end Arcueid.Bibop
