import Mathlib.Logic.Function.Basic
import Arcueid.Lib.Tricolour

/-! The allocation list, the marker and the slices of the collector
(`alloc.c`, `thread_marker`), and the steps of the mutator.

Blocks are numbered in the order of their allocation, and a number is never
used again. The contents of a block are the values its marker visits. The
quantum of a slice is never below `GCQUANTA`, so it is positive. -/

namespace Arcueid

/-- A value: a pointer to a block, a symbol, or another immediate. -/
inductive Ref where
  | immediate
  | block (b : Nat)
  | symbol (s : Nat)
  deriving DecidableEq

/-- The fields of a thread that its marker visits, the stack apart. -/
inductive Reg where
  | funr | envr | valr | conr | ch | exh | cm | rvch | bch
  deriving DecidableEq

inductive Contents where
  | object (fields : List Ref)
  | stack
  | thread (regs : Reg → Ref) (slots : List Ref) (tstack : Option Nat)

/-- What `mark` changes. -/
structure Marks where
  colour : Nat → Nat
  nprop : Bool
  visit : Int

/-- `passed` is the allocation list before `GCPTR`, nearest block first, and
`ahead` the list from there on. A block in `fresh` is held by the mutator only. -/
structure Memory where
  contents : Nat → Contents
  marks : Marks
  mutator : Nat
  marker : Nat
  sweeper : Nat
  gccolour : Nat
  passed : List Nat
  ahead : List Nat
  freed : List Nat
  count : Nat
  roots : List Ref
  fresh : List Nat

def propagator : Nat := 3

/-- What a marker hands to `mark`: a value, or a block that is only coloured. -/
inductive Child where
  | mark (v : Ref)
  | only (b : Nat)

/-- The marker of a block. The stack of a thread is visited from `TSP + 1` up to
but not including `TSTOP`, the slot of the first value pushed. -/
def children : Contents → List Child
  | .object fields => fields.map .mark
  | .stack => []
  | .thread regs slots tstack =>
    [.mark (regs .funr), .mark (regs .envr), .mark (regs .valr), .mark (regs .conr)] ++
      slots.dropLast.map .mark ++ (tstack.map Child.only).toList ++
      [.mark (regs .ch), .mark (regs .exh), .mark (regs .cm), .mark (regs .rvch), .mark (regs .ch),
        .mark (regs .bch)]

section Marking

variable (buckets : Nat → Nat × Nat)

/-- The blocks that marking a value marks. For a symbol these are its entries in
the two symbol tables. -/
def targets : Ref → List Nat
  | .immediate => []
  | .block b => [b]
  | .symbol s => [(buckets s).1, (buckets s).2]

def setmark (mutator b : Nat) (k : Marks) : Marks :=
  if k.colour b ≠ mutator then
    { k with colour := Function.update k.colour b propagator, nprop := true }
  else k

def markprop (mutator : Nat) (v : Ref) (k : Marks) : Marks :=
  (targets buckets v).foldl (fun k b => setmark mutator b k) k

def paint (mutator b : Nat) (k : Marks) : Marks :=
  { k with colour := Function.update k.colour b mutator }

def visited (k : Marks) : Marks := { k with visit := k.visit - 1 }

def Child.targets : Child → List Nat
  | .mark v => Arcueid.targets buckets v
  | .only b => [b]

/-- The blocks that the marker of a block comes to. -/
def visible (c : Contents) : List Nat := (children c).flatMap (Child.targets buckets)

/-- The values a block holds. -/
def Contents.refs : Contents → List Ref
  | .object fields => fields
  | .stack => []
  | .thread regs slots _ =>
    [regs .funr, regs .envr, regs .valr, regs .conr, regs .ch, regs .exh, regs .cm, regs .rvch,
      regs .bch] ++ slots

def Contents.tstack : Contents → Option Nat
  | .thread _ _ tstack => tstack
  | _ => none

/-- The blocks a block refers to, with all live slots of a thread. -/
def successors (c : Contents) : List Nat := c.refs.flatMap (targets buckets) ++ c.tstack.toList

/-- `mark` with `n` levels left of `MAX_MARK_RECURSION`. -/
def markBlock (contents : Nat → Contents) (mutator : Nat) : Nat → Nat → Marks → Marks
  | 0, b, k => visited (setmark mutator b k)
  | n + 1, b, k =>
    let k := visited (setmark mutator b k)
    if 0 ≤ k.visit then
      (children (contents b)).foldl (fun k child => match child with
        | .mark v => (targets buckets v).foldl (fun k b => markBlock contents mutator n b k) k
        | .only b => visited (paint mutator b k)) (paint mutator b k)
    else k

def maxMarkRecursion : Nat := 16

/-- The loop of `gc` from `GCPTR` on. -/
def gcWalk (contents : Nat → Contents) (mutator sweeper : Nat) :
    List Nat → List Nat → List Nat → Marks → List Nat × List Nat × List Nat × Marks
  | [], passed, freed, k => ([], passed, freed, k)
  | b :: ahead, passed, freed, k =>
    if k.visit ≤ 0 then (b :: ahead, passed, freed, k)
    else if k.colour b = propagator then
      gcWalk contents mutator sweeper ahead (b :: passed) freed
        (markBlock buckets contents mutator maxMarkRecursion b k)
    else if k.colour b = sweeper then gcWalk contents mutator sweeper ahead passed (b :: freed) k
    else gcWalk contents mutator sweeper ahead (b :: passed) freed k

namespace Memory

variable (h : Memory)

def markroots : Memory :=
  { h with marks := h.roots.foldl (fun k v => markprop buckets h.mutator v k) h.marks }

/-- The colours change their parts. -/
def newEpoch : Memory :=
  { h with
    gccolour := h.gccolour + 1
    mutator := (h.gccolour + 1) % 3
    marker := h.gccolour % 3
    sweeper := (h.gccolour - 1) % 3 }

/-- A walk that has ended starts again at `ALLOCHEAD`. -/
def startWalk (quantum : Nat) : Memory :=
  { h with
    ahead := if h.ahead = [] then h.passed.reverse else h.ahead
    passed := if h.ahead = [] then [] else h.passed
    marks := { h.marks with visit := quantum }
    fresh := [] }

def walked : Memory :=
  let (ahead, passed, freed, k) :=
    gcWalk buckets h.contents h.mutator h.sweeper h.ahead h.passed h.freed h.marks
  { h with ahead := ahead, passed := passed, freed := freed, marks := k }

/-- The end of a walk through the whole list. -/
def passEnd : Memory :=
  let h' := if h.marks.nprop = false then h.newEpoch.markroots buckets else h
  { h' with marks := { h'.marks with nprop := false } }

/-- `gc`. It is called when no thread runs, so nothing is held outside the
memory. -/
def gcSlice (quantum : Nat) : Memory :=
  let h' := (h.startWalk quantum).walked buckets
  if h'.ahead = [] then h'.passEnd buckets else h'

/-- Allocate a block. -/
def allocBlock (c : Contents) : Memory :=
  { h with
    contents := Function.update h.contents h.count c
    marks := paint h.mutator h.count h.marks
    passed := h.passed ++ [h.count]
    count := h.count + 1
    fresh := h.count :: h.fresh }

/-- Write to a block without a barrier. -/
def store (b : Nat) (c : Contents) : Memory :=
  { h with contents := Function.update h.contents b c }

def wb (dest : Ref) : Memory := { h with marks := markprop buckets h.mutator dest h.marks }

def writeField (b i : Nat) (v : Ref) : Memory :=
  match h.contents b with
  | .object fields => (h.wb buckets (fields.getD i .immediate)).store b (.object (fields.set i v))
  | _ => h

/-- `SFUNR`, `SENVR` and the like. -/
def writeReg (t : Nat) (r : Reg) (v : Ref) : Memory :=
  match h.contents t with
  | .thread regs slots tstack =>
    (h.wb buckets (regs r)).store t (.thread (Function.update regs r v) slots tstack)
  | _ => h

def initField (b i : Nat) (v : Ref) : Memory :=
  match h.contents b with
  | .object fields => h.store b (.object (fields.set i v))
  | _ => h

def initReg (t : Nat) (r : Reg) (v : Ref) : Memory :=
  match h.contents t with
  | .thread regs slots tstack => h.store t (.thread (Function.update regs r v) slots tstack)
  | _ => h

def initTstack (t s : Nat) : Memory :=
  match h.contents t with
  | .thread regs slots _ => h.store t (.thread regs slots (some s))
  | _ => h

/-- `CPUSH`. -/
def push (t : Nat) (v : Ref) : Memory :=
  match h.contents t with
  | .thread regs slots tstack => h.store t (.thread regs (v :: slots) tstack)
  | _ => h

/-- `CPOP`. -/
def pop (t : Nat) : Memory :=
  match h.contents t with
  | .thread regs slots tstack => h.store t (.thread regs slots.tail tstack)
  | _ => h

def popped (t : Nat) : Ref :=
  match h.contents t with
  | .thread _ slots _ => slots.headD .immediate
  | _ => .immediate

end Memory

end Marking

section Steps

variable (buckets : Nat → Nat × Nat) (h : Memory)

def Edge (x y : Nat) : Prop := y ∈ successors buckets (h.contents x)

def VisibleEdge (x y : Nat) : Prop := y ∈ visible buckets (h.contents x)

def Root (b : Nat) : Prop := ∃ v ∈ h.roots, b ∈ targets buckets v

/-- Reachable from the roots of `markroots`. -/
def Reachable : Nat → Prop := Tricolour.From (Edge buckets h) (Root buckets h)

/-- What the mutator can get at. -/
def Held : Nat → Prop :=
  Tricolour.From (Edge buckets h) fun b => Root buckets h b ∨ b ∈ h.fresh

def HeldRef (v : Ref) : Prop := ∀ b ∈ targets buckets v, Held buckets h b

def Black (b : Nat) : Prop := h.marks.colour b = h.mutator

def Grey (b : Nat) : Prop := h.marks.colour b = propagator

def White (b : Nat) : Prop := ¬ Black h b ∧ ¬ Grey h b

/-- Marked, or on the way of the marker. -/
def Guarded (b : Nat) : Prop :=
  Black h b ∨ Tricolour.Found (VisibleEdge buckets h) (Grey h) (White h) b

inductive Action where
  | alloc (c : Contents)
  | initField (b i : Nat) (v : Ref)
  | initReg (t : Nat) (r : Reg) (v : Ref)
  | initTstack (t s : Nat)
  | writeField (b i : Nat) (v : Ref)
  | writeReg (t : Nat) (r : Reg) (v : Ref)
  | push (t : Nat) (v : Ref)
  | pop (t : Nat)
  | gc (quantum : Nat)

/-- The contents of a new block. -/
inductive Blank : Contents → Prop
  | object (n : Nat) : Blank (.object (List.replicate n .immediate))
  | stack : Blank .stack
  | thread : Blank (.thread (fun _ => .immediate) [] none)

def IsThread (t : Nat) : Prop := ∃ regs slots tstack, h.contents t = .thread regs slots tstack

def HasField (b i : Nat) : Prop := ∃ fields, h.contents b = .object fields ∧ i < fields.length

/-- The mutator uses only what it can get at, and writes without a barrier to
new blocks only. -/
def Enabled : Action → Prop
  | .alloc c => Blank c
  | .initField b i v => b ∈ h.fresh ∧ HasField h b i ∧ HeldRef buckets h v
  | .initReg t _ v => t ∈ h.fresh ∧ IsThread h t ∧ HeldRef buckets h v
  | .initTstack t s => t ∈ h.fresh ∧ IsThread h t ∧ h.contents s = .stack ∧ Held buckets h s
  | .writeField b i v => Held buckets h b ∧ HasField h b i ∧ HeldRef buckets h v
  | .writeReg t _ v => Held buckets h t ∧ IsThread h t ∧ HeldRef buckets h v
  | .push t v => Held buckets h t ∧ IsThread h t ∧ HeldRef buckets h v
  | .pop t => Held buckets h t ∧ IsThread h t
  | .gc quantum => 0 < quantum

def apply : Action → Memory
  | .alloc c => h.allocBlock c
  | .initField b i v => h.initField b i v
  | .initReg t r v => h.initReg t r v
  | .initTstack t s => h.initTstack t s
  | .writeField b i v => h.writeField buckets b i v
  | .writeReg t r v => h.writeReg buckets t r v
  | .push t v => h.push t v
  | .pop t => h.pop t
  | .gc quantum => h.gcSlice buckets quantum

/-- After initialisation, before the first slice: all blocks have the colour
that the mutator starts with. -/
structure Initial : Prop where
  mutator : h.mutator = 0
  marker : h.marker = 1
  sweeper : h.sweeper = 2
  gccolour : h.gccolour = 3
  nprop : h.marks.nprop = false
  ahead : h.ahead = []
  freed : h.freed = []
  nodup : h.passed.Nodup
  list : ∀ b, b ∈ h.passed ↔ b < h.count
  colour : ∀ b, h.marks.colour b = 0
  closed : ∀ b, b < h.count → ∀ y ∈ successors buckets (h.contents b), y < h.count
  roots : ∀ b, Root buckets h b → b < h.count
  fresh : ∀ b ∈ h.fresh, b < h.count
  tstack : ∀ t s, t < h.count → (h.contents t).tstack = some s → h.contents s = .stack

/-- Runs of the mutator and the collector in any order. -/
inductive Run (start : Memory) : Memory → Prop
  | refl : Run start start
  | step {h : Memory} (a : Action) : Run start h → Enabled buckets h a →
      Run start (apply buckets h a)

end Steps

end Arcueid
