import Mathlib.Data.List.Nodup
import Mathlib.Tactic.Simps.Basic
import Arcueid.ThreadQueue

/-! Threads, channels and the dispatcher (`chan.c`, `thread.c`). A thread runs
from one yield to the next without another getting in between; what it computes
meanwhile is up to it. The dispatcher walks through its list: `passed` are the
threads up to `prev`, `queue` those from `vmqueue` on. -/

namespace Arcueid

/-- What the threads need of values. -/
structure Values (V : Type) where
  nil : V
  /-- The channel that a value is, if it is one. -/
  chanOf : V → Option Nat
  thread : Nat → V

/-- A channel a value can be, or the one made with a thread. -/
inductive ChanId where
  | user (n : Nat)
  | rv (thr : Nat)
  deriving DecidableEq

structure Chan (V : Type) where
  hasdata : Bool
  data : V
  rq : Queue
  sq : Queue

inductive ThreadState where
  | Tsend
  | Trecv
  | Tready
  | Trelease
  | Tbroken
  deriving DecidableEq

/-- Released or broken. -/
def ThreadState.isDead : ThreadState → Bool
  | .Trelease => true
  | .Tbroken => true
  | _ => false

/-- A call that has yielded, or goes around its loop. -/
inductive Call (V : Type) where
  | recv (n : Nat)
  | send (n : Nat) (val : V)
  | join (jthr : Nat)
  /-- `__arc_recv_rvchan` under `arc_join_thread`. -/
  | recvRv (chan : ChanId) (jthr : Nat)

structure SchedThread (V : Type) where
  state : ThreadState
  valr : V
  acell : Bool
  /-- Nothing is the channel made with the thread. -/
  rvch : Option V
  call : Option (Call V)

structure Sched (V : Type) where
  threads : Nat → SchedThread V
  count : Nat
  chans : ChanId → Chan V
  passed : List Nat
  queue : List Nat
  running : Bool
  /-- The values of the completed sends and receives of a channel. -/
  sent : Nat → List V
  received : Nat → List V
  /-- The completed joins: the thread and the value returned. -/
  joined : List (Nat × V)
  /-- The threads that have been released or broken. -/
  ended : Nat → Bool
  /-- What was in the value register when the dispatcher was done with a thread. -/
  removed : Nat → Option V

variable {V : Type}

def arcMkchan (w : Values V) : Chan V := ⟨false, w.nil, .empty, .empty⟩

def newThread (valr : V) : SchedThread V := ⟨.Tready, valr, false, none, none⟩

def arcInitThreads (w : Values V) : Sched V where
  threads := fun _ => newThread w.nil
  count := 0
  chans := fun _ => arcMkchan w
  passed := []
  queue := []
  running := false
  sent := fun _ => []
  received := fun _ => []
  joined := []
  ended := fun _ => false
  removed := fun _ => none

namespace Sched

@[simps]
def setThread (s : Sched V) (t : Nat) (thr : SchedThread V) : Sched V :=
  { s with threads := fun u => if u = t then thr else s.threads u }

@[simps!]
def setState (s : Sched V) (t : Nat) (state : ThreadState) : Sched V :=
  s.setThread t { s.threads t with state := state }

@[simps!]
def setValr (s : Sched V) (t : Nat) (valr : V) : Sched V :=
  s.setThread t { s.threads t with valr := valr }

@[simps]
def setChan (s : Sched V) (c : ChanId) (chan : Chan V) : Sched V :=
  { s with chans := fun d => if d = c then chan else s.chans d }

/-- Put a thread in the state released or broken. -/
@[simps!]
def endThread (s : Sched V) (t : Nat) (state : ThreadState) : Sched V :=
  { s.setState t state with ended := fun u => if u = t then true else s.ended u }

/-- The thread that runs. -/
def current (s : Sched V) : Option Nat := if s.running then s.queue.head? else none

/-- Back to the dispatcher, which goes to the next thread. -/
@[simps]
def leave (s : Sched V) : Sched V :=
  { s with passed := s.passed ++ s.queue.take 1, queue := s.queue.tail, running := false }

/-- Yield in the middle of a call. -/
@[simps!]
def block (s : Sched V) (t : Nat) (state : ThreadState) (call : Call V) : Sched V :=
  (s.setThread t { s.threads t with state := state, call := some call }).leave

/-- Return from a call. -/
@[simps!]
def areturn (s : Sched V) (t : Nat) (valr : V) : Sched V :=
  s.setThread t { s.threads t with valr := valr, call := none }

def wake (s : Sched V) : Option Nat → Sched V
  | none => s
  | some xthr => s.setState xthr .Tready

/-- A receive is complete. -/
@[simps]
def didRecv (s : Sched V) (n : Nat) (val : V) : Sched V :=
  { s with received := fun m => if m = n then s.received m ++ [val] else s.received m }

/-- A send is complete. -/
@[simps]
def didSend (s : Sched V) (n : Nat) (val : V) : Sched V :=
  { s with sent := fun m => if m = n then s.sent m ++ [val] else s.sent m }

/-- A join is complete. -/
@[simps]
def didJoin (s : Sched V) (jthr : Nat) (val : V) : Sched V :=
  { s with joined := s.joined ++ [(jthr, val)] }

def recvChannel (s : Sched V) (t n : Nat) : Sched V :=
  let ch := s.chans (.user n)
  if ch.hasdata = false then
    (s.setChan (.user n) { ch with rq := ch.rq.enqueue t }).block t .Trecv (.recv n)
  else
    let (xthr, sq) := ch.sq.dequeue
    let s := (s.setChan (.user n) { ch with hasdata := false, sq := sq }).wake xthr
    (s.areturn t ch.data).didRecv n ch.data

def sendChannel (s : Sched V) (t n : Nat) (val : V) : Sched V :=
  let ch := s.chans (.user n)
  if ch.hasdata = true then
    (s.setChan (.user n) { ch with sq := ch.sq.enqueue t }).block t .Tsend (.send n val)
  else
    let (xthr, rq) := ch.rq.dequeue
    let s := (s.setChan (.user n) { ch with hasdata := true, data := val, rq := rq }).wake xthr
    (s.areturn t val).didSend n val

/-- Wake up all threads that wait to receive. -/
def wakeAll : Nat → Sched V → ChanId → Sched V
  | 0, s, _ => s
  | fuel + 1, s, c =>
    match (s.chans c).rq.dequeue with
    | (none, _) => s
    | (some xthr, rq) =>
      wakeAll fuel ((s.setChan c { s.chans c with rq := rq }).setState xthr .Tready) c

def sendRvchan (s : Sched V) (c : ChanId) (val : V) : Sched V :=
  let ch := s.chans c
  wakeAll ch.rq.toList.length (s.setChan c { ch with hasdata := true, data := val }) c

/-- `__arc_recv_rvchan`, called from `arc_join_thread`. -/
def recvRvchan (s : Sched V) (t : Nat) (c : ChanId) (jthr : Nat) : Sched V :=
  let ch := s.chans c
  if ch.hasdata = false then
    (s.setChan c { ch with rq := ch.rq.enqueue t }).block t .Trecv (.recvRv c jthr)
  else s.setThread t { s.threads t with valr := ch.data, call := some (.join jthr) }

def joinThread (w : Values V) (s : Sched V) (t jthr : Nat) : Sched V :=
  match (s.threads jthr).rvch with
  | none => s.recvRvchan t (.rv jthr) jthr
  | some v =>
    match w.chanOf v with
    | some n => s.recvRvchan t (.user n) jthr
    | none => (s.areturn t v).didJoin jthr v

/-- `achan` is the channel in `__achan__`. -/
def killThread (w : Values V) (achan : Nat) (s : Sched V) (t tthr : Nat) : Sched V :=
  let s := s.endThread tthr .Tbroken
  if (s.threads tthr).acell then
    (s.setThread tthr { s.threads tthr with acell := false }).recvChannel t achan
  else s.setValr t (w.thread tthr)

/-- Go on with a call. -/
def resumeCall (w : Values V) (s : Sched V) (t : Nat) : Call V → Sched V
  | .recv n => s.recvChannel t n
  | .send n val => s.sendChannel t n val
  | .join jthr => s.joinThread w t jthr
  | .recvRv c jthr => s.recvRvchan t c jthr

/-- The dispatcher unlinks a thread at the head of the queue. -/
def unlink (w : Values V) (s : Sched V) (t : Nat) : Sched V :=
  let valr := (s.threads t).valr
  let s := match (s.threads t).rvch with
    | none => s.sendRvchan (.rv t) valr
    | some v =>
      match w.chanOf v with
      | some n => s.sendRvchan (.user n) valr
      | none => s
  { s.setThread t { s.threads t with rvch := some valr } with
    queue := s.queue.tail
    removed := fun u => if u = t then some valr else s.removed u }

/-- The dispatcher comes to a thread. -/
def visit (w : Values V) (s : Sched V) (t : Nat) : Sched V :=
  match (s.threads t).state with
  | .Trelease => s.unlink w t
  | .Tbroken => s.unlink w t
  | .Tsend => s.leave
  | .Trecv => s.leave
  | .Tready => { s with running := true }

def spawn (s : Sched V) (thunk : V) : Sched V :=
  { s.setThread s.count (newThread thunk) with
    count := s.count + 1
    queue := s.queue ++ [s.count] }

/-- The thunk is not code that has to be run. -/
def spawnDone (s : Sched V) (valr : V) : Sched V :=
  { (s.setThread s.count { newThread valr with rvch := some valr }).endThread s.count .Trelease with
    count := s.count + 1
    removed := fun u => if u = s.count then some valr else s.removed u }

end Sched

/-- What the running thread does next. -/
inductive Act (V : Type) where
  | resume
  | compute (valr : V)
  | atomicCell (acell : Bool)
  | recv (n : Nat)
  | send (n : Nat) (val : V)
  | join (jthr : Nat)
  | kill (tthr : Nat)
  | finish (valr : V)
  | fail

inductive SchedEvent (V : Type) where
  | spawn (thunk : V)
  | spawnDone (valr : V)
  /-- The dispatcher starts at the head of its list. -/
  | pass
  | visit
  | act (a : Act V)
  /-- The quantum of the running thread is used up. -/
  | quantum

namespace Sched

/-- What a thread does; a thread inside a call goes on with it. -/
def act (w : Values V) (achan : Nat) (s : Sched V) (t : Nat) : Act V → Option (Sched V)
  | .resume => (s.threads t).call.map (s.resumeCall w t)
  | a =>
    if (s.threads t).call.isSome then none
    else match a with
      | .resume => none
      | .compute valr => some (s.setValr t valr)
      | .atomicCell acell => some (s.setThread t { s.threads t with acell := acell })
      | .recv n => some (s.recvChannel t n)
      | .send n val => some (s.sendChannel t n val)
      | .join jthr => if jthr < s.count then some (s.joinThread w t jthr) else none
      | .kill tthr => if tthr < s.count then some (s.killThread w achan t tthr) else none
      | .finish valr => some ((s.setValr t valr).endThread t .Trelease).leave
      | .fail => some (s.endThread t .Tbroken).leave

def step (w : Values V) (achan : Nat) (s : Sched V) : SchedEvent V → Option (Sched V)
  | .spawn thunk => some (s.spawn thunk)
  | .spawnDone valr => some (s.spawnDone valr)
  | .pass =>
    if s.running = false ∧ s.queue = [] then some { s with passed := [], queue := s.passed }
    else none
  | .visit => if s.running then none else s.queue.head?.map (s.visit w)
  | .act a => s.current.bind fun t => s.act w achan t a
  | .quantum => s.current.map fun _ => s.leave

def run (w : Values V) (achan : Nat) (s : Sched V) (es : List (SchedEvent V)) : Option (Sched V) :=
  es.foldlM (step w achan) s

end Sched

end Arcueid
