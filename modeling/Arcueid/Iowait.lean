import Arcueid.Dispatch

/-! Waiting for I/O: `process_iowait` on epoll, in the passes of the dispatcher.
Epoll is a set of descriptors, each with the direction it was added with. -/

namespace Arcueid.Iowait

open Dispatch

/-- Directions are as in `TWAITRW`: `true` is to write. -/
structure IoWorld where
  world : World
  twaitfd : Nat → Int
  twaitrw : Nat → Bool
  /-- What has been added to `epollfd` and not deleted. -/
  interest : Int → Option Bool

/-- A visit, and what `__arc_affiowait` stores if the thread calls it. The change
of its state to `Tiowait` is among what the thread does, and so are the changes
that `arc_kill_thread` and `arc_break_thread` make to other threads. -/
structure IoSlice where
  slice : Slice
  waits : Option (Int × Bool)

/-- The thread is let run by a visit. -/
def runs (thr : Thread) (ms : UInt64) : Bool :=
  match thr.tstate with
  | .Tready | .Tcritical => true
  | .Tsleep => decide (ms ≥ thr.twakeup)
  | _ => false

/-- `__arc_affiowait` by a running thread. -/
def affiowait (t : Nat) (thr : Thread) (fd : Int) (rw : Bool) : IoSlice :=
  ⟨⟨0, [.set t { thr with tstate := .Tiowait }], []⟩, some (fd, rw)⟩

/-- `arc_kill_thread`, for a thread that is not in an atomic section. -/
def arcKillThread (t : Nat) (thr : Thread) : Act := .set t { thr with tstate := .Tbroken }

def ioVisit (p : IoWorld × Pass) (s : IoSlice) : Option (IoWorld × Pass) := do
  let cell ← p.2.vmqueue
  let t := p.1.world.car cell
  let (w, d) ← visit (p.1.world, p.2) s.slice
  match s.waits with
  | none => return ({ p.1 with world := w }, d)
  | some (fd, rw) =>
    if runs (p.1.world.threads t) s.slice.ms then
      return ({ p.1 with
        world := w
        twaitfd := Function.update p.1.twaitfd t fd
        twaitrw := Function.update p.1.twaitrw t rw }, d)
    else none

def ioPass (w : IoWorld) (slices : List IoSlice) : Option (IoWorld × Pass) := do
  let p ← slices.foldlM ioVisit (w, startPass w.world)
  if p.2.vmqueue = none then return p else none

/-- The threads that the pass found in `Tiowait`, the last one first. -/
def iowaitdata (d : Pass) : List Nat :=
  ((d.visited.filter fun v => v.2 = .Tiowait).map Prod.fst).reverse

/-- `EPOLL_CTL_ADD`; a descriptor that is there is `EEXIST`, and stays as it is. -/
def epollAdd (interest : Int → Option Bool) (fd : Int) (rw : Bool) : Int → Option Bool :=
  match interest fd with
  | some _ => interest
  | none => Function.update interest fd (some rw)

/-- The first loop of `process_iowait`. -/
def register (w : IoWorld) (r : (Int → Option Bool) × (Int → Option Nat)) (t : Nat) :
    (Int → Option Bool) × (Int → Option Nat) :=
  (epollAdd r.1 (w.twaitfd t) (w.twaitrw t), Function.update r.2 (w.twaitfd t) (some t))

def registered (w : IoWorld) (waiting : List Nat) : (Int → Option Bool) × (Int → Option Nat) :=
  waiting.foldl (register w) (w.interest, fun _ => none)

/-- What a reported descriptor does to the threads. -/
def wakeThread (iowaittbl : Int → Option Nat) (w : IoWorld) (fd : Int) : IoWorld :=
  match iowaittbl fd with
  | some t => { w with
      twaitfd := Function.update w.twaitfd t (-1), world := wake w.world t }
  | none => w

/-- The body of the second loop, which ends in `EPOLL_CTL_DEL`. -/
def report (iowaittbl : Int → Option Nat) (w : IoWorld) (fd : Int) : IoWorld :=
  let w := wakeThread iowaittbl w fd
  { w with interest := Function.update w.interest fd none }

/-- `process_iowait`, for what `epoll_wait` reports. -/
def processIowait (w : IoWorld) (waiting : List Nat) (reported : List Int) : IoWorld :=
  let r := registered w waiting
  reported.foldl (report r.2) { w with interest := r.1 }

/-- A call of `process_iowait`. -/
structure IoCall where
  before : IoWorld
  waiting : List Nat
  reported : List Int

/-- One turn of the loop of `arc_thread_dispatch`, with the call made in it. -/
def ioRound (w : IoWorld) (slices : List IoSlice) (reported : List Int) :
    Option (IoWorld × List IoCall) := do
  let (w, d) ← ioPass w slices
  if d.iowait = 0 then return (w, [])
  else return (processIowait w (iowaitdata d) reported, [⟨w, iowaitdata d, reported⟩])

def ioRounds : IoWorld → List (List IoSlice × List Int) → Option (IoWorld × List IoCall)
  | w, [] => some (w, [])
  | w, (slices, reported) :: rounds => do
    let (w, calls) ← ioRound w slices reported
    let (w, calls') ← ioRounds w rounds
    return (w, calls ++ calls')

/-- `RUNNABLE` -/
def runnable (thr : Thread) : Bool := thr.tstate = .Tready || thr.tstate = .Tcritical

namespace IoCall

variable (c : IoCall)

def after : IoWorld := processIowait c.before c.waiting c.reported

/-- The call makes a thread runnable only if it was waiting, and its descriptor
was reported for its direction. -/
def WakesRightly : Prop :=
  ∀ t, runnable (c.after.world.threads t) = true → runnable (c.before.world.threads t) = false →
    (c.before.world.threads t).tstate = .Tiowait ∧ c.before.twaitfd t ∈ c.reported ∧
      (registered c.before c.waiting).1 (c.before.twaitfd t) = some (c.before.twaitrw t)

/-- The waiting threads of a descriptor. -/
def waitersOf (fd : Int) : List Nat := c.waiting.filter fun t => c.before.twaitfd t = fd

/-- The direction a descriptor is reported for: that of an earlier registration,
or of the first thread that is added. -/
def direction (old : Int → Option Bool) (fd : Int) : Option Bool :=
  (old fd).or ((c.waitersOf fd).head?.map c.before.twaitrw)

/-- The thread that is added last for a reported descriptor is still waiting, and
in the direction of the descriptor, or it has been made runnable already. -/
def Settled (old : Int → Option Bool) : Prop :=
  ∀ fd ∈ c.reported, ∀ t, (c.waitersOf fd).getLast? = some t →
    runnable (c.before.world.threads t) = true ∨
      (c.before.world.threads t).tstate = .Tiowait ∧ c.direction old fd = some (c.before.twaitrw t)

/-- The registrations that a call leaves behind: those without a report. -/
def leftOver (old : Int → Option Bool) (fd : Int) : Option Bool :=
  if fd ∈ c.reported then none else c.direction old fd

end IoCall

/-- Every call finds its threads settled, with the registrations that the calls
before it have left. -/
def SettledRun : (Int → Option Bool) → List IoCall → Prop
  | _, [] => True
  | old, c :: calls => c.Settled old ∧ SettledRun (c.leftOver old) calls

section Registration

variable {w : IoWorld} {r : (Int → Option Bool) × (Int → Option Nat)} {fd : Int}

theorem register_interest (t : Nat) : (register w r t).1 fd =
    (r.1 fd).or (if w.twaitfd t = fd then some (w.twaitrw t) else none) := by
  rw [register, epollAdd]
  by_cases h : w.twaitfd t = fd
  · subst h
    cases hr : r.1 (w.twaitfd t) with
    | none => simp
    | some rw => simp [hr]
  · rw [if_neg h, Option.or_none]
    cases r.1 (w.twaitfd t) with
    | none => simp [Ne.symm h]
    | some rw => rfl

theorem register_iowaittbl (t : Nat) : (register w r t).2 fd =
    (if w.twaitfd t = fd then some t else none).or (r.2 fd) := by
  rw [register]
  by_cases h : w.twaitfd t = fd
  · subst h
    simp
  · simp [h, Ne.symm h]

theorem registered_interest (waiting : List Nat) : (waiting.foldl (register w) r).1 fd =
    (r.1 fd).or ((waiting.filter fun t => w.twaitfd t = fd).head?.map w.twaitrw) := by
  induction waiting generalizing r with
  | nil => simp
  | cons t waiting ih =>
    rw [List.foldl_cons, ih, register_interest, Option.or_assoc, List.filter_cons]
    by_cases h : w.twaitfd t = fd
    · simp [h]
    · simp [h]

theorem registered_iowaittbl (waiting : List Nat) : (waiting.foldl (register w) r).2 fd =
    (waiting.filter fun t => w.twaitfd t = fd).getLast?.or (r.2 fd) := by
  induction waiting generalizing r with
  | nil => simp
  | cons t waiting ih =>
    rw [List.foldl_cons, ih, register_iowaittbl, ← Option.or_assoc, List.filter_cons]
    by_cases h : w.twaitfd t = fd
    · simp [h, List.getLast?_cons]
    · simp [h]

end Registration

section Wakeups

variable {iowaittbl : Int → Option Nat}

theorem report_threads (w : IoWorld) (fd : Int) (t : Nat) :
    (report iowaittbl w fd).world.threads t = if iowaittbl fd = some t
      then { w.world.threads t with tstate := .Tready } else w.world.threads t := by
  rw [report, wakeThread]
  cases htbl : iowaittbl fd with
  | none => simp
  | some u =>
    by_cases h : u = t
    · subst h
      simp [wake, World.setThread]
    · simp [wake, World.setThread, h, Ne.symm h]

theorem reports_threads (w : IoWorld) (reported : List Int) (t : Nat) :
    (reported.foldl (report iowaittbl) w).world.threads t =
      if ∃ fd ∈ reported, iowaittbl fd = some t
      then { w.world.threads t with tstate := .Tready } else w.world.threads t := by
  induction reported generalizing w with
  | nil => simp
  | cons fd reported ih =>
    rw [List.foldl_cons, ih, report_threads]
    by_cases hfd : iowaittbl fd = some t
    · simp [hfd]
    · simp [hfd]

variable (c : IoCall)

theorem after_threads (t : Nat) : c.after.world.threads t =
    if ∃ fd ∈ c.reported, (c.waitersOf fd).getLast? = some t
    then { c.before.world.threads t with tstate := .Tready } else c.before.world.threads t := by
  have htbl : (registered c.before c.waiting).2 = fun fd => (c.waitersOf fd).getLast? := by
    funext fd
    rw [registered, registered_iowaittbl, Option.or_none]
    rfl
  rw [IoCall.after, processIowait, reports_threads, htbl]

theorem waits_of_mem {fd : Int} {t : Nat} (h : (c.waitersOf fd).getLast? = some t) :
    c.before.twaitfd t = fd := by
  have hmem : t ∈ c.waitersOf fd := List.mem_of_getLast? h
  exact of_decide_eq_true (List.mem_filter.mp hmem).2

theorem registered_direction (fd : Int) :
    (registered c.before c.waiting).1 fd = c.direction c.before.interest fd := by
  rw [registered, registered_interest]
  rfl

theorem wakesRightly_iff : c.WakesRightly ↔ c.Settled c.before.interest := by
  constructor
  · intro h fd hfd t ht
    have hafter : runnable (c.after.world.threads t) = true := by
      rw [after_threads, if_pos ⟨fd, hfd, ht⟩]
      rfl
    cases hbefore : runnable (c.before.world.threads t) with
    | true => exact .inl rfl
    | false =>
      obtain ⟨hstate, -, hreg⟩ := h t hafter hbefore
      rw [registered_direction, waits_of_mem c ht] at hreg
      exact .inr ⟨hstate, hreg⟩
  · intro h t hafter hbefore
    have hreported : ∃ fd ∈ c.reported, (c.waitersOf fd).getLast? = some t := by
      by_contra hno
      rw [after_threads, if_neg hno, hbefore] at hafter
      cases hafter
    obtain ⟨fd, hfd, ht⟩ := hreported
    have hwaits := waits_of_mem c ht
    rcases h fd hfd t ht with hrun | ⟨hstate, hreg⟩
    · rw [hbefore] at hrun
      cases hrun
    · rw [registered_direction, hwaits]
      exact ⟨hstate, hfd, hreg⟩

theorem reports_interest (w : IoWorld) (reported : List Int) (fd : Int) :
    (reported.foldl (report iowaittbl) w).interest fd =
      if fd ∈ reported then none else w.interest fd := by
  induction reported generalizing w with
  | nil => simp
  | cons fd' reported ih =>
    have hone : (report iowaittbl w fd').interest = Function.update w.interest fd' none := by
      rw [report, wakeThread]
      cases iowaittbl fd' with
      | none => rfl
      | some t => rfl
    rw [List.foldl_cons, ih, hone]
    by_cases h : fd = fd'
    · simp [h]
    · simp [h]

theorem after_interest : c.after.interest = c.leftOver c.before.interest := by
  funext fd
  rw [IoCall.after, processIowait, reports_interest, IoCall.leftOver]
  congr 1
  exact registered_direction c fd

end Wakeups

section Runs

variable {w w' : IoWorld}

theorem ioVisit_interest {p p' : IoWorld × Pass} {s : IoSlice} (h : ioVisit p s = some p') :
    p'.1.interest = p.1.interest := by
  rw [ioVisit] at h
  obtain ⟨cell, -, h⟩ := Option.bind_eq_some_iff.mp h
  obtain ⟨⟨w, d⟩, -, h⟩ := Option.bind_eq_some_iff.mp h
  dsimp only at h
  split at h
  · obtain rfl := Option.some.inj h
    rfl
  · split at h
    · obtain rfl := Option.some.inj h
      rfl
    · cases h

theorem ioVisits_interest {p p' : IoWorld × Pass} {slices : List IoSlice}
    (h : slices.foldlM ioVisit p = some p') : p'.1.interest = p.1.interest := by
  induction slices generalizing p with
  | nil =>
    obtain rfl := Option.some.inj h
    rfl
  | cons s slices ih =>
    obtain ⟨p₁, hs, h⟩ := Option.bind_eq_some_iff.mp h
    rw [ih h, ioVisit_interest hs]

/-- One turn of the dispatcher makes no call and leaves the registrations, or
makes a call that finds them as they were. -/
theorem ioRound_calls {slices : List IoSlice} {reported : List Int} {calls : List IoCall}
    (h : ioRound w slices reported = some (w', calls)) :
    calls = [] ∧ w'.interest = w.interest ∨
      ∃ c, calls = [c] ∧ c.before.interest = w.interest ∧ w' = c.after := by
  obtain ⟨⟨w₁, d⟩, hpass, h⟩ := Option.bind_eq_some_iff.mp h
  have hinterest : w₁.interest = w.interest := by
    obtain ⟨p, hvisits, hend⟩ := Option.bind_eq_some_iff.mp hpass
    split at hend
    · obtain rfl := Option.some.inj hend
      exact ioVisits_interest hvisits
    · cases hend
  dsimp only at h
  split at h
  · cases h
    exact .inl ⟨rfl, hinterest⟩
  · cases h
    exact .inr ⟨_, rfl, hinterest, rfl⟩

/-- In any run of the dispatcher every call makes runnable only threads that were
waiting for what was reported, if and only if every call finds its threads
settled. -/
theorem ioRounds_wake_rightly_iff {rounds : List (List IoSlice × List Int)} {calls : List IoCall}
    (hrun : ioRounds w rounds = some (w', calls)) :
    (∀ c ∈ calls, c.WakesRightly) ↔ SettledRun w.interest calls := by
  induction rounds generalizing w calls with
  | nil =>
    cases hrun
    exact ⟨fun _ => trivial, fun _ c hc => by cases hc⟩
  | cons round rounds ih =>
    obtain ⟨slices, reported⟩ := round
    obtain ⟨⟨w₁, first⟩, hround, hrun⟩ := Option.bind_eq_some_iff.mp hrun
    obtain ⟨⟨w₂, rest⟩, hrest, hrun⟩ := Option.bind_eq_some_iff.mp hrun
    cases hrun
    rcases ioRound_calls hround with ⟨rfl, hinterest⟩ | ⟨c, rfl, hbefore, rfl⟩
    · rw [List.nil_append, ih hrest, hinterest]
    · rw [List.singleton_append, List.forall_mem_cons, ih hrest, wakesRightly_iff, after_interest,
        hbefore]
      rfl

end Runs

section TwoThreads

/-- Two threads in the run queue. -/
def twoThreads : IoWorld where
  world := (acts initThreads [.spawn ⟨.Tready, 0⟩, .spawn ⟨.Tready, 0⟩]).getD initThreads
  twaitfd := fun _ => -1
  twaitrw := fun _ => false
  interest := fun _ => none

def idle : IoSlice := ⟨⟨0, [], []⟩, none⟩

/-- The first thread waits to read. -/
def readRound : List IoSlice × List Int := ([affiowait 0 ⟨.Tready, 0⟩ 5 false, idle], [])

/-- The second thread kills the first after it was found waiting. -/
def killRound : List IoSlice × List Int :=
  ([idle, ⟨⟨0, [arcKillThread 0 ⟨.Tiowait, 0⟩], []⟩, none⟩], [5])

theorem ioRounds_wake_reader : ∃ w c,
    ioRounds twoThreads [readRound, ([idle, idle], [5])] = some (w, [c]) ∧
    (w.world.threads 0).tstate = .Tready ∧ ∀ d ∈ [c], d.WakesRightly := by
  have hrun : ∃ w c, ioRounds twoThreads [readRound, ([idle, idle], [5])] = some (w, [c]) ∧
      (w.world.threads 0).tstate = .Tready ∧ c.before.interest = twoThreads.interest ∧
      c.reported = [5] ∧ c.waitersOf 5 = [0] ∧ (c.before.world.threads 0).tstate = .Tiowait ∧
      c.before.twaitrw 0 = false := ⟨_, _, rfl, rfl, rfl, rfl, rfl, rfl, rfl⟩
  obtain ⟨w, c, hrun, hready, hinterest, hreported, hwaiters, hstate, hrw⟩ := hrun
  refine ⟨w, c, hrun, hready, (ioRounds_wake_rightly_iff hrun).mpr ⟨?_, trivial⟩⟩
  intro fd hfd t ht
  rw [hreported] at hfd
  obtain rfl := List.mem_singleton.mp hfd
  rw [hwaiters] at ht
  obtain rfl : 0 = t := Option.some.inj ht
  right
  refine ⟨hstate, ?_⟩
  rw [IoCall.direction, hwaiters, hrw]
  simp [twoThreads, hrw]

/-- A thread that has been killed is made runnable again. -/
theorem killed_thread_woken : ∃ r, ioRounds twoThreads [readRound, killRound] = some r ∧
    ¬ ∀ c ∈ r.2, c.WakesRightly := by
  refine ⟨_, rfl, fun h => ?_⟩
  obtain ⟨hstate, -⟩ := h _ List.mem_cons_self 0 rfl rfl
  cases hstate

end TwoThreads

end Arcueid.Iowait
