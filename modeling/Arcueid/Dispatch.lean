import Mathlib.Data.List.Basic
import Arcueid.Lib.LinkedList

/-! The dispatcher (`arc_thread_dispatch` of `thread.c`) on the conses of its
run queue. What a thread does while it runs is any list of spawns and changes
of threads. -/

namespace Arcueid.Dispatch

inductive TState where
  | Talt
  | Tsend
  | Trecv
  | Tsleep
  | Tready
  | Tcritical
  | Tiowait
  | Trelease
  | Tbroken
  deriving DecidableEq

def TState.stopped : TState → Bool
  | .Trelease | .Tbroken => true
  | _ => false

structure Thread where
  tstate : TState
  twakeup : UInt64

/-- The threads, and the conses of the run queue: `conses` of them were made.
`spawned` and `unlinked` are the threads put in the queue and taken out of it
so far. -/
structure World where
  threads : Nat → Thread
  count : Nat
  car : Nat → Nat
  cdr : Nat → Option Nat
  conses : Nat
  vmthreads : Option Nat
  vmthrtail : Option Nat
  spawned : List Nat
  unlinked : List Nat

/-- `arc_init_threads`. -/
def initThreads : World where
  threads := fun _ => ⟨.Tready, 0⟩
  count := 0
  car := fun _ => 0
  cdr := fun _ => none
  conses := 0
  vmthreads := none
  vmthrtail := none
  spawned := []
  unlinked := []

namespace World

def setThread (w : World) (t : Nat) (thr : Thread) : World :=
  { w with threads := Function.update w.threads t thr }

/-- `cons` of a thread and nil. -/
def cons (w : World) (thr : Nat) : World :=
  { w with
    car := Function.update w.car w.conses thr
    cdr := Function.update w.cdr w.conses none
    conses := w.conses + 1 }

def scdr (w : World) (cell : Nat) (next : Option Nat) : World :=
  { w with cdr := Function.update w.cdr cell next }

/-- `__arc_enqueue` on the run queue. There is no `cdr` of nil to be set. -/
def enqueue (w : World) (thr : Nat) : Option World :=
  let cell := w.conses
  match w.vmthreads, w.vmthrtail with
  | none, none => some { w.cons thr with vmthreads := some cell, vmthrtail := some cell }
  | _, some tail => some { (w.cons thr).scdr tail (some cell) with vmthrtail := some cell }
  | some _, none => none

/-- The cons before a cons, or the head, leads past it. -/
def bypass (w : World) (prev : Option Nat) (cell : Nat) : World :=
  match prev with
  | none => { w with vmthreads := w.cdr cell }
  | some p => w.scdr p (w.cdr cell)

/-- Take a cons out of the run queue, the one after `prev`. -/
def unlink (w : World) (prev : Option Nat) (cell : Nat) : World :=
  let w' := w.bypass prev cell
  if w'.cdr cell = none then { w' with vmthrtail := prev } else w'

end World

/-- What can be done to the threads: a spawn, one whose thread ends at its first
application, and a change of a thread (it ends, blocks, goes to sleep, is woken
or killed). -/
inductive Act where
  | spawn (thr : Thread)
  | spawnEnded (thr : Thread)
  | set (t : Nat) (thr : Thread)

def act (w : World) : Act → Option World
  | .spawn thr =>
    World.enqueue { w.setThread w.count thr with
      count := w.count + 1, spawned := w.spawned ++ [w.count] } w.count
  | .spawnEnded thr => some { w.setThread w.count thr with count := w.count + 1 }
  | .set t thr => some (w.setThread t thr)

def acts (w : World) (as : List Act) : Option World := as.foldlM act w

/-- The variables of `arc_thread_dispatch`. `visited` are the threads of the
pass so far, each with the state it was found in. -/
structure Pass where
  vmqueue : Option Nat
  prev : Option Nat
  nthreads : Nat
  blockedthreads : Nat
  iowait : Nat
  stoppedthreads : Nat
  sleepthreads : Nat
  minsleep : UInt64
  visited : List (Nat × TState)

/-- `ULLONG_MAX`. -/
def ullongMax : UInt64 := 0xffffffffffffffff

def startPass (w : World) : Pass := ⟨w.vmthreads, none, 0, 0, 0, 0, 0, ullongMax, []⟩

/-- What a visit of the dispatcher meets: the time if it reads the clock, what
the thread does if it runs, and the threads `__arc_send_rvchan` wakes. -/
structure Slice where
  ms : UInt64
  acts : List Act
  woken : List Nat

def wake (w : World) (t : Nat) : World := w.setThread t { w.threads t with tstate := .Tready }

/-- A thread is counted as the pass comes to it. -/
def Pass.meet (d : Pass) (t : Nat) (tstate : TState) : Pass :=
  { d with nthreads := d.nthreads + 1, visited := d.visited ++ [(t, tstate)] }

/-- From `finish_thread` to the next turn of the loop. -/
def Pass.finishThread (d : Pass) (w : World) (cell : Nat) : World × Pass :=
  (w, { d with prev := some cell, vmqueue := w.cdr cell })

/-- The thread runs. A thread that stays in `Tcritical` runs on. -/
def Pass.run (d : Pass) (w : World) (cell : Nat) (as : List Act) : Option (World × Pass) := do
  let w' ← acts w as
  if (w.threads (w.car cell)).tstate = .Tcritical ∧ (w'.threads (w.car cell)).tstate = .Tcritical then
    none
  else some (d.finishThread w' cell)

def Pass.stop (d : Pass) (w : World) (cell : Nat) (woken : List Nat) : World × Pass :=
  let w' := (woken.foldl wake w).unlink d.prev cell
  ({ w' with unlinked := w'.unlinked ++ [w.car cell] },
    { d with stoppedthreads := d.stoppedthreads + 1, vmqueue := w'.cdr cell })

def Pass.block (d : Pass) : Pass := { d with blockedthreads := d.blockedthreads + 1 }

def Pass.waitIo (d : Pass) : Pass := { d with iowait := d.iowait + 1 }

def Pass.sleep (d : Pass) (twakeup : UInt64) : Pass :=
  { d with
    sleepthreads := d.sleepthreads + 1
    minsleep := if twakeup < d.minsleep then twakeup else d.minsleep }

/-- The body of the loop over the run queue. -/
def visitThread (w : World) (d : Pass) (cell : Nat) (s : Slice) : Option (World × Pass) :=
  let t := w.car cell
  let thr := w.threads t
  let d := d.meet t thr.tstate
  match thr.tstate with
  | .Trelease | .Tbroken => some (d.stop w cell s.woken)
  | .Talt | .Tsend | .Trecv => some (d.block.finishThread w cell)
  | .Tsleep =>
    if s.ms ≥ thr.twakeup then d.run (w.setThread t { thr with tstate := .Tready }) cell s.acts
    else some ((d.sleep thr.twakeup).finishThread w cell)
  | .Tready | .Tcritical => d.run w cell s.acts
  | .Tiowait => some (d.waitIo.finishThread w cell)

def visit (p : World × Pass) (s : Slice) : Option (World × Pass) := do
  visitThread p.1 p.2 (← p.2.vmqueue) s

def visits (p : World × Pass) (slices : List Slice) : Option (World × Pass) := slices.foldlM visit p

/-- A pass over the run queue, to its end. -/
def pass (w : World) (slices : List Slice) : Option (World × Pass) := do
  let p ← visits (w, startPass w) slices
  if p.2.vmqueue = none then some p else none

end Arcueid.Dispatch
