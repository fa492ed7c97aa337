import Arcueid.ThreadsInvariant

/-! Atomic sections (`atomic-invoke` of `arc.arc`, `arc_atomic_cell` and
`arc_kill_thread` of `thread.c`). The lock is the token in `__achan__`; a thread
that wants it sets its atomic cell first, and `kill-thread` looks at the cell
only. -/

namespace Arcueid

/-- Where a thread is in its outermost `atomic-invoke`:
`(do (__acell__ t) (<-= __achan__ t) (protect ...))`. -/
inductive Phase where
  | outside
  /-- `(<-= __achan__ t)` is not complete. -/
  | entering
  /-- From there to the end of the thunk. -/
  | inside
  /-- `(<- __achan__)` is not complete. -/
  | after
  /-- `(__acell__ nil)` is not done. -/
  | released
  deriving DecidableEq

/-- In possession of the token, unless it has been killed. -/
def Phase.locked : Phase → Bool
  | .inside => true
  | .after => true
  | _ => false

structure AtomicSched (V : Type) where
  sched : Sched V
  phase : Nat → Phase

variable {V : Type}

/-- What a thread may do where it is, given its atomic cell. Nobody else uses
`__achan__` or sets a cell. In an atomic section a further `atomic-invoke` calls
its thunk and no more. -/
def allowed (achan : Nat) (acell : Bool) : Phase → Act V → Bool
  | .outside, .recv n => n ≠ achan
  | .outside, .send n _ => n ≠ achan
  | .outside, .atomicCell val => val && !acell
  | .outside, _ => true
  | .inside, .recv n => n ≠ achan
  | .inside, .send n _ => n ≠ achan
  | .inside, .resume => true
  | .inside, .compute _ => true
  | .inside, .join _ => true
  | .inside, .kill _ => true
  | .entering, .send n _ => n = achan
  | .entering, .resume => true
  | .entering, .compute _ => true
  | .after, .recv n => n = achan
  | .after, .resume => true
  | .after, .compute _ => true
  | .released, .atomicCell val => !val
  | .released, .compute _ => true
  | _, _ => false

/-- Where the thread is then; `pending` says that it is still in a call. -/
def nextPhase (pending : Bool) : Phase → Act V → Phase
  | .outside, .atomicCell _ => .entering
  | .entering, .send _ _ => if pending then .entering else .inside
  | .entering, .resume => if pending then .entering else .inside
  | .after, .recv _ => if pending then .after else .released
  | .after, .resume => if pending then .after else .released
  | .released, .atomicCell _ => .outside
  | p, _ => p

inductive AtomicEvent (V : Type) where
  | sched (e : SchedEvent V)
  /-- The thunk of the running thread returns, or is left by an error or through
  a continuation: the after thunk is called. -/
  | leave

namespace AtomicSched

def start (w : Values V) : AtomicSched V := ⟨arcInitThreads w, fun _ => .outside⟩

def setPhase (a : AtomicSched V) (t : Nat) (p : Phase) : AtomicSched V :=
  { a with phase := fun u => if u = t then p else a.phase u }

def act (w : Values V) (achan : Nat) (a : AtomicSched V) (t : Nat) (x : Act V) :
    Option (AtomicSched V) :=
  if allowed achan (a.sched.threads t).acell (a.phase t) x then
    (a.sched.act w achan t x).map fun s =>
      { a with sched := s }.setPhase t (nextPhase (s.threads t).call.isSome (a.phase t) x)
  else none

def step (w : Values V) (achan : Nat) (a : AtomicSched V) : AtomicEvent V → Option (AtomicSched V)
  | .sched (.act x) => a.sched.current.bind fun t => a.act w achan t x
  | .sched e => (a.sched.step w achan e).map fun s => { a with sched := s }
  | .leave => a.sched.current.bind fun t =>
    if a.phase t = .inside ∧ (a.sched.threads t).call.isNone then some (a.setPhase t .after)
    else none

def run (w : Values V) (achan : Nat) (a : AtomicSched V) (es : List (AtomicEvent V)) :
    Option (AtomicSched V) :=
  es.foldlM (step w achan) a

def Dead (a : AtomicSched V) (t : Nat) : Prop := (a.sched.threads t).state.isDead = true

def cell (a : AtomicSched V) (t : Nat) : Bool := (a.sched.threads t).acell

/-- Inside the thunk of an outermost `atomic-invoke`, and live. -/
def InThunk (a : AtomicSched V) (t : Nat) : Prop := a.phase t = .inside ∧ ¬ a.Dead t

/-- Live, with its send complete and its receive not. -/
def HasSent (a : AtomicSched V) (t : Nat) : Prop := (a.phase t).locked = true ∧ ¬ a.Dead t

/-- Killed in the section: `kill-thread` has taken the token back. -/
def Lost (a : AtomicSched V) (t : Nat) : Prop := (a.phase t).locked = true ∧ a.cell t = false

/-- `kill-thread` comes to a thread whose cell is set only while it has the
token; a killed thread does nothing in a section, and is not woken in one. -/
structure CleanStep (a : AtomicSched V) (e : AtomicEvent V) (a' : AtomicSched V) : Prop where
  kill : ∀ u, e = .sched (.act (.kill u)) → a.cell u = true → (a.phase u).locked = true
  runs : ∀ t, a.sched.current = some t → (∃ x, e = .sched (.act x)) ∨ e = .leave →
    a.Dead t → a.phase t = .outside
  woken : ∀ u, a.Lost u → a'.Dead u

def CleanRun (w : Values V) (achan : Nat) : AtomicSched V → List (AtomicEvent V) → Prop
  | _, [] => True
  | a, e :: es => ∀ a', a.step w achan e = some a' → a.CleanStep e a' ∧ CleanRun w achan a' es

end AtomicSched

namespace Sched

variable {V : Type} {s : Sched V} {t u n m : Nat} {val : V}

theorem acell_wake (xthr : Option Nat) (u : Nat) :
    ((s.wake xthr).threads u).acell = (s.threads u).acell := by
  cases xthr with
  | none => rfl
  | some x => by_cases hu : u = x <;> simp [wake, hu]

theorem dead_wake {xthr : Option Nat} (h : ((s.wake xthr).threads u).state.isDead = true) :
    (s.threads u).state.isDead = true := by
  rw [state_wake] at h
  split at h
  · cases h
  · exact h

theorem recvChannel_acell : ((s.recvChannel t n).threads u).acell = (s.threads u).acell := by
  rcases s.recvChannel_cases t n with ⟨-, heq⟩ | ⟨-, ch, -, -, heq⟩
  · rw [heq]
    by_cases hu : u = t <;> simp [hu]
  · rw [heq]
    by_cases hu : u = t <;> simp [hu, acell_wake]

theorem sendChannel_acell : ((s.sendChannel t n val).threads u).acell = (s.threads u).acell := by
  rcases s.sendChannel_cases t n val with ⟨-, heq⟩ | ⟨-, ch, -, -, -, heq⟩
  · rw [heq]
    by_cases hu : u = t <;> simp [hu]
  · rw [heq]
    by_cases hu : u = t <;> simp [hu, acell_wake]

theorem dead_recvChannel (h : ((s.recvChannel t n).threads u).state.isDead = true) :
    (s.threads u).state.isDead = true := by
  rcases s.recvChannel_cases t n with ⟨-, heq⟩ | ⟨-, ch, -, -, heq⟩
  · rw [heq] at h
    by_cases hu : u = t
    · simp [hu, ThreadState.isDead] at h
    · simpa [hu] using h
  · rw [heq] at h
    apply dead_wake (s := s.setChan (.user n) ch)
    by_cases hu : u = t <;> simpa [hu] using h

theorem dead_sendChannel (h : ((s.sendChannel t n val).threads u).state.isDead = true) :
    (s.threads u).state.isDead = true := by
  rcases s.sendChannel_cases t n val with ⟨-, heq⟩ | ⟨-, ch, -, -, -, heq⟩
  · rw [heq] at h
    by_cases hu : u = t
    · simp [hu, ThreadState.isDead] at h
    · simpa [hu] using h
  · rw [heq] at h
    apply dead_wake (s := s.setChan (.user n) ch)
    by_cases hu : u = t <;> simpa [hu] using h

theorem recvChannel_call : ((s.recvChannel t n).threads u).call =
    if u = t then if (s.chans (.user n)).hasdata then none else some (.recv n)
    else (s.threads u).call := by
  rcases s.recvChannel_cases t n with ⟨hdata, heq⟩ | ⟨hdata, ch, -, -, heq⟩
  · rw [heq, hdata]
    by_cases hu : u = t <;> simp [hu]
  · rw [heq, hdata]
    by_cases hu : u = t <;> simp [hu, call_wake]

theorem sendChannel_call : ((s.sendChannel t n val).threads u).call =
    if u = t then if (s.chans (.user n)).hasdata then some (.send n val) else none
    else (s.threads u).call := by
  rcases s.sendChannel_cases t n val with ⟨hdata, heq⟩ | ⟨hdata, ch, -, -, -, heq⟩
  · rw [heq, hdata]
    by_cases hu : u = t <;> simp [hu]
  · rw [heq, hdata]
    by_cases hu : u = t <;> simp [hu, call_wake]

/-- A receive leaves the channel empty, complete or not. -/
theorem recvChannel_hasdata : ((s.recvChannel t n).chans (.user m)).hasdata =
    if m = n then false else (s.chans (.user m)).hasdata := by
  rcases s.recvChannel_cases t n with ⟨hdata, heq⟩ | ⟨hdata, ch, -, hempty, heq⟩
  · rw [heq]
    by_cases hm : m = n <;> simp [hm, enqueued, Chan.setWaiting, hdata]
  · rw [heq]
    by_cases hm : m = n <;> simp [hm, hempty]

theorem sendChannel_hasdata : ((s.sendChannel t n val).chans (.user m)).hasdata =
    if m = n then true else (s.chans (.user m)).hasdata := by
  rcases s.sendChannel_cases t n val with ⟨hdata, heq⟩ | ⟨hdata, ch, -, hfull, -, heq⟩
  · rw [heq]
    by_cases hm : m = n <;> simp [hm, enqueued, Chan.setWaiting, hdata]
  · rw [heq]
    by_cases hm : m = n <;> simp [hm, hfull]

theorem acell_setValr : ((s.setValr t val).threads u).acell = (s.threads u).acell := by
  by_cases hu : u = t <;> simp [hu]

theorem call_setValr : ((s.setValr t val).threads u).call = (s.threads u).call := by
  by_cases hu : u = t <;> simp [hu]

theorem state_setValr : ((s.setValr t val).threads u).state = (s.threads u).state := by
  by_cases hu : u = t <;> simp [hu]

theorem acell_endThread (state : ThreadState) :
    ((s.endThread t state).threads u).acell = (s.threads u).acell := by
  by_cases hu : u = t <;> simp [hu]

theorem call_endThread (state : ThreadState) :
    ((s.endThread t state).threads u).call = (s.threads u).call := by
  by_cases hu : u = t <;> simp [hu]

theorem state_endThread (state : ThreadState) : ((s.endThread t state).threads u).state =
    if u = t then state else (s.threads u).state := by
  by_cases hu : u = t <;> simp [hu]

@[simp] theorem recvChannel_count : (s.recvChannel t n).count = s.count := by
  rcases s.recvChannel_cases t n with ⟨-, heq⟩ | ⟨-, ch, -, -, heq⟩ <;> rw [heq] <;> simp

@[simp] theorem sendChannel_count : (s.sendChannel t n val).count = s.count := by
  rcases s.sendChannel_cases t n val with ⟨-, heq⟩ | ⟨-, ch, -, -, -, heq⟩ <;> rw [heq] <;> simp

end Sched

/-- A call that leaves the token where it is. -/
def Call.Spares (achan : Nat) : Call V → Prop
  | .recv n => n ≠ achan
  | .send n _ => n ≠ achan
  | _ => True

namespace AtomicSched

variable {a a' : AtomicSched V} {s s' : Sched V} {t u achan : Nat} {w : Values V}

/-- In possession of the token. -/
def Holds (a : AtomicSched V) (t : Nat) : Prop := (a.phase t).locked = true ∧ a.cell t = true

/-- The calls a thread can be in where it is. -/
def Fits (achan : Nat) (p : Phase) (call : Call V) : Prop :=
  (p = .entering ∧ ∃ val, call = .send achan val) ∨
    ((p = .outside ∨ p = .inside) ∧ call.Spares achan)

structure Inv (achan : Nat) (a : AtomicSched V) : Prop where
  good : a.sched.Good
  fresh : ∀ t, a.sched.count ≤ t → a.phase t = .outside
  unset : ∀ t, a.phase t = .outside → a.cell t = false
  set : ∀ t, a.phase t = .entering ∨ a.phase t = .released → a.cell t = true
  lost : ∀ t, a.Lost t → a.Dead t
  alive : ∀ t, a.Holds t → ¬ a.Dead t
  unique : ∀ t u, a.Holds t → a.Holds u → t = u
  token : (a.sched.chans (.user achan)).hasdata = true ↔ ∃ t, a.Holds t
  calls : ∀ t call, (a.sched.threads t).call = some call → Fits achan (a.phase t) call

theorem Inv.cases (hi : Inv achan a) (t : Nat) (hcell : a.cell t = false) :
    a.phase t = .outside ∨ a.Lost t := by
  cases hp : a.phase t with
  | outside => exact .inl rfl
  | entering => exact absurd (hi.set t (.inl hp)) (by simp [hcell])
  | released => exact absurd (hi.set t (.inr hp)) (by simp [hcell])
  | inside => exact .inr ⟨by simp [hp, Phase.locked], hcell⟩
  | after => exact .inr ⟨by simp [hp, Phase.locked], hcell⟩

@[simp] theorem setPhase_self : a.setPhase t (a.phase t) = a := by
  have hphase : (a.setPhase t (a.phase t)).phase = a.phase := by
    funext u
    by_cases hu : u = t <;> simp [setPhase, hu]
  show { a with phase := (a.setPhase t (a.phase t)).phase } = a
  rw [hphase]

theorem Inv.spare (hi : Inv achan a) (hg : s'.Good) (hcount : a.sched.count ≤ s'.count)
    (hdata : (s'.chans (.user achan)).hasdata = (a.sched.chans (.user achan)).hasdata)
    (hcell : ∀ u, (s'.threads u).acell = a.cell u ∨
      a.phase u = .outside ∧ (s'.threads u).acell = false)
    (hdead : ∀ u, (s'.threads u).state.isDead = true → a.Dead u ∨ a.phase u = .outside)
    (hcall : ∀ u call, (s'.threads u).call = some call →
      (a.sched.threads u).call = some call ∨ Fits achan (a.phase u) call)
    (hwoken : ∀ u, a.Lost u → (s'.threads u).state.isDead = true) :
    Inv achan { a with sched := s' } := by
  have hholds : ∀ u, Holds { a with sched := s' } u ↔ a.Holds u := by
    intro u
    rcases hcell u with h | ⟨h, h'⟩
    · simp [Holds, cell, h]
    · simp [Holds, h, Phase.locked]
  constructor
  · exact hg
  · exact fun u hu => hi.fresh u (Nat.le_trans hcount hu)
  · intro u hu
    rcases hcell u with h | ⟨-, h⟩
    · exact h.trans (hi.unset u hu)
    · exact h
  · intro u hu
    rcases hcell u with h | ⟨h, -⟩
    · exact h.trans (hi.set u hu)
    · rcases hu with hu | hu <;> cases h.symm.trans hu
  · rintro u ⟨hlocked, hfalse⟩
    refine hwoken u ⟨hlocked, ?_⟩
    rcases hcell u with h | ⟨h, -⟩
    · exact h.symm.trans hfalse
    · simp [h, Phase.locked] at hlocked
  · intro u hu hdead'
    rcases hdead u hdead' with h | h
    · exact hi.alive u ((hholds u).mp hu) h
    · have hlocked := hu.1
      simp [h, Phase.locked] at hlocked
  · exact fun u v hu hv => hi.unique u v ((hholds u).mp hu) ((hholds v).mp hv)
  · rw [hdata, hi.token]
    exact exists_congr fun u => (hholds u).symm
  · intro u call hc
    rcases hcall u call hc with h | h
    · exact hi.calls u call h
    · exact h

section Acts

variable {n : Nat} {val : V} {call : Call V} {state : ThreadState}

/-- What a thread does when its call spares the token. -/
theorem Inv.recv (hi : Inv achan a) (ht : a.sched.current = some t) (hn : n ≠ achan)
    (hp : a.phase t = .outside ∨ a.phase t = .inside)
    (hwoken : ∀ u, a.Lost u → ((a.sched.recvChannel t n).threads u).state.isDead = true) :
    Inv achan { a with sched := a.sched.recvChannel t n } := by
  apply hi.spare (hi.good.recvChannel ht) (by simp)
  · rw [Sched.recvChannel_hasdata, if_neg (Ne.symm hn)]
  · exact fun u => .inl Sched.recvChannel_acell
  · exact fun u hu => .inl (Sched.dead_recvChannel hu)
  · intro u call hcall
    rw [Sched.recvChannel_call] at hcall
    split at hcall
    · next hu =>
      subst hu
      split at hcall
      · cases hcall
      · obtain rfl := Option.some.inj hcall
        exact .inr (.inr ⟨hp, hn⟩)
    · exact .inl hcall
  · exact hwoken

theorem Inv.send (hi : Inv achan a) (ht : a.sched.current = some t) (hn : n ≠ achan)
    (hp : a.phase t = .outside ∨ a.phase t = .inside)
    (hwoken : ∀ u, a.Lost u → ((a.sched.sendChannel t n val).threads u).state.isDead = true) :
    Inv achan { a with sched := a.sched.sendChannel t n val } := by
  apply hi.spare (hi.good.sendChannel ht) (by simp)
  · rw [Sched.sendChannel_hasdata, if_neg (Ne.symm hn)]
  · exact fun u => .inl Sched.sendChannel_acell
  · exact fun u hu => .inl (Sched.dead_sendChannel hu)
  · intro u call hcall
    rw [Sched.sendChannel_call] at hcall
    split at hcall
    · next hu =>
      subst hu
      split at hcall
      · obtain rfl := Option.some.inj hcall
        exact .inr (.inr ⟨hp, hn⟩)
      · cases hcall
    · exact .inl hcall
  · exact hwoken

theorem Inv.own (hi : Inv achan a) (ht : a.sched.current = some t) (thr : SchedThread V)
    (hrvch : thr.rvch = (a.sched.threads t).rvch) (hstate : thr.state = (a.sched.threads t).state)
    (hcell : thr.acell = a.cell t)
    (hcall : ∀ call, thr.call = some call →
      (a.sched.threads t).call = some call ∨ Fits achan (a.phase t) call) :
    Inv achan { a with sched := a.sched.setThread t thr } := by
  apply hi.spare (hi.good.update ht hrvch hstate) (Nat.le_refl _) rfl
  · intro u
    left
    by_cases hu : u = t
    · subst hu
      simp [hcell]
    · simp [hu, cell]
  · intro u hu
    left
    change (a.sched.threads u).state.isDead = true
    by_cases hut : u = t
    · subst hut
      simpa [hstate] using hu
    · simpa [hut] using hu
  · intro u call hc
    by_cases hut : u = t
    · subst hut
      exact hcall call (by simpa using hc)
    · exact .inl (by simpa [hut] using hc)
  · intro u hu
    have hdead : (a.sched.threads u).state.isDead = true := hi.lost u hu
    by_cases hut : u = t
    · subst hut
      simpa [hstate] using hdead
    · simpa [hut] using hdead

theorem Inv.recvRvchan (hi : Inv achan a) (ht : a.sched.current = some t)
    (hp : a.phase t = .outside ∨ a.phase t = .inside) (c : ChanId) (jthr : Nat)
    (hwoken : ∀ u, a.Lost u → ((a.sched.recvRvchan t c jthr).threads u).state.isDead = true) :
    Inv achan { a with sched := a.sched.recvRvchan t c jthr } := by
  have hg := hi.good.recvRvchan ht (c := c) jthr
  unfold Sched.recvRvchan at hg hwoken ⊢
  dsimp only at hg hwoken ⊢
  split at hg
  · next hempty =>
    rw [if_pos hempty] at hwoken ⊢
    apply hi.spare hg (Nat.le_refl _)
    · by_cases hc : ChanId.user achan = c
      · simp [hc]
      · simp [hc]
    · intro u
      by_cases hu : u = t <;> simp [hu, cell]
    · intro u hu
      left
      change (a.sched.threads u).state.isDead = true
      by_cases hut : u = t
      · simp [hut, ThreadState.isDead] at hu
      · simpa [hut] using hu
    · intro u call hcall
      by_cases hut : u = t
      · subst hut
        have heq : Call.recvRv c jthr = call := by simpa using hcall
        exact .inr (.inr ⟨hp, heq ▸ trivial⟩)
      · exact .inl (by simpa [hut] using hcall)
    · exact hwoken
  · next hfull =>
    rw [if_neg hfull]
    apply hi.own ht { a.sched.threads t with
      valr := (a.sched.chans c).data, call := some (.join jthr) } rfl rfl rfl
    intro call hcall
    obtain rfl := Option.some.inj hcall
    exact .inr (.inr ⟨hp, trivial⟩)

theorem Inv.joinThread (hi : Inv achan a) (ht : a.sched.current = some t)
    (hp : a.phase t = .outside ∨ a.phase t = .inside) (w : Values V) (jthr : Nat)
    (hwoken : ∀ u, a.Lost u → ((a.sched.joinThread w t jthr).threads u).state.isDead = true) :
    Inv achan { a with sched := a.sched.joinThread w t jthr } := by
  unfold Sched.joinThread at hwoken ⊢
  split at hwoken
  · exact hi.recvRvchan ht hp _ jthr hwoken
  · split at hwoken
    · exact hi.recvRvchan ht hp _ jthr hwoken
    · next v _ _ _ =>
      have hown : Inv achan { a with sched := a.sched.areturn t v } :=
        hi.own ht _ rfl rfl rfl fun call hcall => nomatch hcall
      exact hown.spare (hown.good.ghost _ _ _) (Nat.le_refl _) rfl (fun _ => .inl rfl)
        (fun _ hu => .inl hu) (fun _ _ hc => .inl hc) hown.lost

theorem Inv.resumeCall (hi : Inv achan a) (ht : a.sched.current = some t)
    (hp : a.phase t = .outside ∨ a.phase t = .inside) (hcall : call.Spares achan) (w : Values V)
    (hwoken : ∀ u, a.Lost u → ((a.sched.resumeCall w t call).threads u).state.isDead = true) :
    Inv achan { a with sched := a.sched.resumeCall w t call } := by
  cases call with
  | recv n => exact hi.recv ht hcall hp hwoken
  | send n val => exact hi.send ht hcall hp hwoken
  | join jthr => exact hi.joinThread ht hp w jthr hwoken
  | recvRv c jthr => exact hi.recvRvchan ht hp c jthr hwoken

theorem Inv.ends (hi : Inv achan a) (val : V) (ht : a.sched.current = some t) (hp : a.phase t = .outside)
    (hdead : state.isDead = true) :
    Inv achan { a with sched := ((a.sched.setValr t val).endThread t state).leave } := by
  have hset : (a.sched.setValr t val).Good := hi.good.update ht rfl rfl
  have hg := (hset.endThread (Sched.current_lt hset ht) hdead (.inr (hi.good.free t ht))).leave
  apply hi.spare hg (Nat.le_refl _) rfl
  · intro u
    by_cases hu : u = t <;> simp [hu, cell]
  · intro u hu
    by_cases hut : u = t
    · exact .inr (hut ▸ hp)
    · left
      change (a.sched.threads u).state.isDead = true
      simpa [hut] using hu
  · intro u call hcall
    left
    by_cases hut : u = t
    · subst hut
      simpa using hcall
    · simpa [hut] using hcall
  · intro u hu
    have hut : u ≠ t := by
      rintro rfl
      have hlocked := hu.1
      simp [hp, Phase.locked] at hlocked
    have hdead : (a.sched.threads u).state.isDead = true := hi.lost u hu
    simpa [hut] using hdead

end Acts

/-- A thread goes to another place, with or without the token. -/
theorem Inv.moves (hi : Inv achan a) {p : Phase} (hlt : t < a.sched.count) (hg : s'.Good)
    (hcount : a.sched.count ≤ s'.count)
    (hothers : ∀ u, u ≠ t → (s'.threads u).acell = a.cell u ∧
      ((s'.threads u).state.isDead = true → a.Dead u) ∧
      ∀ call, (s'.threads u).call = some call → (a.sched.threads u).call = some call)
    (halive : p.locked = true → (s'.threads t).state.isDead = false)
    (hcell : (s'.threads t).acell = decide (p ≠ .outside))
    (hcall : (s'.threads t).call = none)
    (hholds : (a.phase t).locked = true → a.cell t = true)
    (htoken : (s'.chans (.user achan)).hasdata = (p.locked ||
      !(a.phase t).locked && (a.sched.chans (.user achan)).hasdata))
    (hfree : p.locked = true → ∀ u, a.Holds u → u = t)
    (hwoken : ∀ u, u ≠ t → a.Lost u → (s'.threads u).state.isDead = true) :
    Inv achan ({ a with sched := s' }.setPhase t p) := by
  let a' := { a with sched := s' }.setPhase t p
  have hphase : a'.phase t = p := by simp [a', setPhase]
  have hphase' : ∀ u, u ≠ t → a'.phase u = a.phase u := by
    intro u hu
    simp [a', setPhase, hu]
  have hcell' : a'.cell t = decide (p ≠ .outside) := hcell
  have hheld : ∀ u, u ≠ t → (a'.Holds u ↔ a.Holds u) := by
    intro u hu
    have hsame : a'.cell u = a.cell u := (hothers u hu).1
    simp [Holds, hphase' u hu, hsame]
  have hsafe : p.locked = true → p ≠ .outside := by
    rintro hp rfl
    simp [Phase.locked] at hp
  constructor
  · exact hg
  · intro u hu
    have hut : u ≠ t := Nat.ne_of_gt (Nat.lt_of_lt_of_le hlt (Nat.le_trans hcount hu))
    exact (hphase' u hut).trans (hi.fresh u (Nat.le_trans hcount hu))
  · intro u hu
    by_cases hut : u = t
    · subst hut
      rw [hcell', ← hphase, hu]
      rfl
    · exact (hothers u hut).1.trans (hi.unset u ((hphase' u hut).symm.trans hu))
  · intro u hu
    by_cases hut : u = t
    · subst hut
      rw [hcell', ← hphase]
      rcases hu with hu | hu
      · rw [hu]
        rfl
      · rw [hu]
        rfl
    · rw [hphase' u hut] at hu
      exact (hothers u hut).1.trans (hi.set u hu)
  · rintro u ⟨hlocked, hfalse⟩
    by_cases hut : u = t
    · subst hut
      rw [hphase] at hlocked
      rw [hcell', decide_eq_false_iff_not] at hfalse
      exact absurd (hsafe hlocked) hfalse
    · rw [hphase' u hut] at hlocked
      exact hwoken u hut ⟨hlocked, (hothers u hut).1.symm.trans hfalse⟩
  · intro u hu hdead
    by_cases hut : u = t
    · subst hut
      have hlocked := hu.1
      rw [hphase] at hlocked
      exact absurd ((halive hlocked).symm.trans hdead) (by simp)
    · exact hi.alive u ((hheld u hut).mp hu) ((hothers u hut).2.1 hdead)
  · have hother : ∀ u, u ≠ t → a'.Holds u → ¬ a'.Holds t := by
      intro u hut hu ht
      rw [Holds, hphase] at ht
      exact hut (hfree ht.1 u ((hheld u hut).mp hu))
    intro u v hu hv
    by_cases hut : u = t
    · by_cases hvt : v = t
      · rw [hut, hvt]
      · exact absurd (hut ▸ hu) (hother v hvt hv)
    · by_cases hvt : v = t
      · exact absurd (hvt ▸ hv) (hother u hut hu)
      · exact hi.unique u v ((hheld u hut).mp hu) ((hheld v hvt).mp hv)
  · change (s'.chans (.user achan)).hasdata = true ↔ _
    rw [htoken]
    by_cases hp : p.locked = true
    · rw [hp, Bool.true_or]
      exact iff_of_true rfl ⟨t, by rw [hphase, hp], by rw [hcell', decide_eq_true (hsafe hp)]⟩
    · have hnot : ¬ a'.Holds t := fun ht => hp (hphase ▸ ht.1)
      have hiff : (∃ u, a'.Holds u) ↔ ∃ u, u ≠ t ∧ a.Holds u := by
        constructor
        · rintro ⟨u, hu⟩
          have hut : u ≠ t := fun heq => hnot (heq ▸ hu)
          exact ⟨u, hut, (hheld u hut).mp hu⟩
        · rintro ⟨u, hut, hu⟩
          exact ⟨u, (hheld u hut).mpr hu⟩
      rw [hiff]
      by_cases hl : (a.phase t).locked = true
      · have hnone : ¬ ∃ u, u ≠ t ∧ a.Holds u := by
          rintro ⟨u, hut, hu⟩
          exact hut (hi.unique u t hu ⟨hl, hholds hl⟩)
        simp [hp, hl, hnone]
      · have hne : ∀ u, a.Holds u → u ≠ t := fun u hu heq => hl (heq ▸ hu.1)
        simp only [hp, hl, Bool.false_or, Bool.not_false, Bool.true_and, hi.token]
        exact exists_congr fun u => ⟨fun hu => ⟨hne u hu, hu⟩, fun hu => hu.2⟩
  · intro u call hc
    by_cases hut : u = t
    · subst hut
      exact absurd (hcall.symm.trans hc) (by simp)
    · rw [hphase' u hut]
      exact hi.calls u call ((hothers u hut).2.2 call hc)

section Atomic

variable {val : V}

theorem Inv.holds (hi : Inv achan a) (hlive : ¬ a.Dead t) (hlocked : (a.phase t).locked = true) :
    a.Holds t := by
  cases hcell : a.cell t with
  | false => exact absurd (hi.lost t ⟨hlocked, hcell⟩) hlive
  | true => exact ⟨hlocked, hcell⟩

theorem Inv.setCell (hi : Inv achan a) (ht : a.sched.current = some t)
    (hlocked : (a.phase t).locked = false) (hcall : (a.sched.threads t).call = none) {p : Phase}
    (hp : p.locked = false) :
    Inv achan ({ a with
      sched := a.sched.setThread t { a.sched.threads t with acell := decide (p ≠ Phase.outside) }
        }.setPhase t p) := by
  have hg : (a.sched.setThread t
      { a.sched.threads t with acell := decide (p ≠ Phase.outside) }).Good :=
    hi.good.update ht rfl rfl
  apply hi.moves (Sched.current_lt hi.good ht) hg (Nat.le_refl _)
  · intro u hu
    simp [hu, cell, Dead]
  · simp [hp]
  · simp
  · simpa using hcall
  · simp [hlocked]
  · simp [hp, hlocked]
  · simp [hp]
  · intro u hu hlost
    have hdead : (a.sched.threads u).state.isDead = true := hi.lost u hlost
    simpa [hu] using hdead

/-- `(<-= __achan__ t)` is done, or waits. -/
theorem Inv.lock (hi : Inv achan a) (val : V) (ht : a.sched.current = some t) (hlive : ¬ a.Dead t)
    (hp : a.phase t = .entering)
    (hwoken : ∀ u, a.Lost u → ((a.sched.sendChannel t achan val).threads u).state.isDead = true) :
    Inv achan ({ a with sched := a.sched.sendChannel t achan val }.setPhase t
      (if ((a.sched.sendChannel t achan val).threads t).call.isSome then .entering
        else .inside)) := by
  have hg := @Sched.Good.sendChannel _ _ _ achan val hi.good ht
  have hcall := fun u => @Sched.sendChannel_call _ a.sched t u achan val
  cases hdata : (a.sched.chans (.user achan)).hasdata with
  | true =>
    have hpending : ((a.sched.sendChannel t achan val).threads t).call =
        some (.send achan val) := by
      simp [hcall, hdata]
    have hstays : ({ a with sched := a.sched.sendChannel t achan val } : AtomicSched V).setPhase t
        .entering = { a with sched := a.sched.sendChannel t achan val } := by
      rw [← hp]
      exact setPhase_self
    rw [hpending, Option.isSome_some, if_pos rfl, hstays]
    apply hi.spare hg (by simp)
    · rw [Sched.sendChannel_hasdata, if_pos rfl, hdata]
    · exact fun u => .inl Sched.sendChannel_acell
    · exact fun u hu => .inl (Sched.dead_sendChannel hu)
    · intro u call hc
      by_cases hut : u = t
      · subst hut
        obtain rfl := Option.some.inj (hpending.symm.trans hc)
        exact .inr (.inl ⟨hp, val, rfl⟩)
      · exact .inl (by simpa [hcall, hut] using hc)
    · exact hwoken
  | false =>
    have hdone : ((a.sched.sendChannel t achan val).threads t).call = none := by
      simp [hcall, hdata]
    rw [hdone, Option.isSome_none, if_neg (by simp)]
    have hlocked : (a.phase t).locked = false := by rw [hp]; rfl
    apply hi.moves (Sched.current_lt hi.good ht) hg (by simp)
    · intro u hu
      exact ⟨Sched.sendChannel_acell, Sched.dead_sendChannel,
        fun call hc => by simpa [hcall, hu] using hc⟩
    · exact fun _ => Bool.eq_false_iff.mpr fun hdead => hlive (Sched.dead_sendChannel hdead)
    · exact Sched.sendChannel_acell.trans (hi.set t (.inl hp))
    · exact hdone
    · simp [hlocked]
    · rw [Sched.sendChannel_hasdata, if_pos rfl]
      rfl
    · intro _ u hu
      exact absurd (hi.token.mpr ⟨u, hu⟩) (by simp [hdata])
    · exact fun u _ hlost => hwoken u hlost

/-- `(<- __achan__)` is done: the token is there. -/
theorem Inv.unlock (hi : Inv achan a) (ht : a.sched.current = some t) (hlive : ¬ a.Dead t)
    (hp : a.phase t = .after)
    (hwoken : ∀ u, a.Lost u → ((a.sched.recvChannel t achan).threads u).state.isDead = true) :
    Inv achan ({ a with sched := a.sched.recvChannel t achan }.setPhase t
      (if ((a.sched.recvChannel t achan).threads t).call.isSome then .after else .released)) := by
  have hlocked : (a.phase t).locked = true := by rw [hp]; rfl
  have hholds := hi.holds hlive hlocked
  have hdata := hi.token.mpr ⟨t, hholds⟩
  have hcall := fun u => a.sched.recvChannel_call (t := t) (u := u) (n := achan)
  have hdone : ((a.sched.recvChannel t achan).threads t).call = none := by
    simp [hcall, hdata]
  rw [hdone, Option.isSome_none, if_neg (by simp)]
  apply hi.moves (Sched.current_lt hi.good ht) (hi.good.recvChannel ht) (by simp)
  · intro u hu
    exact ⟨Sched.recvChannel_acell, Sched.dead_recvChannel,
      fun call hc => by simpa [hcall, hu] using hc⟩
  · exact fun _ => Bool.eq_false_iff.mpr fun hdead => hlive (Sched.dead_recvChannel hdead)
  · exact Sched.recvChannel_acell.trans hholds.2
  · exact hdone
  · exact fun _ => hholds.2
  · rw [Sched.recvChannel_hasdata, if_pos rfl, hlocked]
    rfl
  · simp [Phase.locked]
  · exact fun u _ hlost => hwoken u hlost

theorem Inv.leaveThunk (hi : Inv achan a) (ht : a.sched.current = some t) (hlive : ¬ a.Dead t)
    (hp : a.phase t = .inside) (hcall : (a.sched.threads t).call = none) :
    Inv achan (a.setPhase t .after) := by
  have hlocked : (a.phase t).locked = true := by rw [hp]; rfl
  have hholds := hi.holds hlive hlocked
  show Inv achan ({ a with sched := a.sched }.setPhase t .after)
  apply hi.moves (Sched.current_lt hi.good ht) hi.good (Nat.le_refl _)
  · exact fun u _ => ⟨rfl, id, fun _ => id⟩
  · exact fun _ => Bool.eq_false_iff.mpr hlive
  · exact hholds.2
  · exact hcall
  · exact fun _ => hholds.2
  · rw [hi.token.mpr ⟨t, hholds⟩]
    rfl
  · exact fun _ u hu => hi.unique u t hu hholds
  · exact fun u _ hlost => hi.lost u hlost

/-- `kill-thread` of a thread with its cell not set. -/
theorem Inv.killUnset (hi : Inv achan a)
    (hg : ((a.sched.endThread u .Tbroken).setValr t val).Good) (hcell : a.cell u = false) :
    Inv achan { a with sched := (a.sched.endThread u .Tbroken).setValr t val } := by
  have hstate : ∀ v, (((a.sched.endThread u .Tbroken).setValr t val).threads v).state =
      if v = u then .Tbroken else (a.sched.threads v).state := fun v =>
    Sched.state_setValr.trans (Sched.state_endThread _)
  apply hi.spare hg (Nat.le_refl _) rfl
  · exact fun v => .inl (Sched.acell_setValr.trans (Sched.acell_endThread _))
  · intro v hdead
    by_cases hvu : v = u
    · subst hvu
      exact (hi.cases v hcell).symm.imp_left (hi.lost v)
    · rw [hstate, if_neg hvu] at hdead
      exact .inl hdead
  · intro v call hcall
    rw [Sched.call_setValr, Sched.call_endThread] at hcall
    exact .inl hcall
  · intro v hlost
    rw [hstate]
    split
    · rfl
    · exact hi.lost v hlost

/-- `kill-thread` of the thread that has the token. -/
theorem Inv.killHolder (hi : Inv achan a) (hholds : a.Holds u) {s : Sched V}
    (hs : s = (a.sched.endThread u .Tbroken).setThread u
      { (a.sched.endThread u .Tbroken).threads u with acell := false })
    (hg : (s.recvChannel t achan).Good)
    (hwoken : ∀ v, a.Lost v → ((s.recvChannel t achan).threads v).state.isDead = true) :
    Inv achan { a with sched := s.recvChannel t achan } := by
  have hdata : (s.chans (.user achan)).hasdata = true := hs ▸ hi.token.mpr ⟨u, hholds⟩
  have hcell : ∀ v, ((s.recvChannel t achan).threads v).acell =
      if v = u then false else a.cell v := by
    intro v
    rw [Sched.recvChannel_acell, hs]
    by_cases hvu : v = u <;> simp [hvu, cell]
  have hcall : ∀ v, ((s.recvChannel t achan).threads v).call =
      if v = t then none else (a.sched.threads v).call := by
    intro v
    rw [Sched.recvChannel_call, hdata, hs]
    by_cases hvu : v = u <;> simp [hvu]
  have hne : ∀ {p v}, a.phase v = p → p.locked = false → v ≠ u := by
    rintro p v hp hlocked rfl
    rw [← hp, hholds.1] at hlocked
    cases hlocked
  -- A thread in its section does not wait to send the token.
  have hfree : u ∉ s.waiting .send (.user achan) := by
    intro hmem
    have hmem' : u ∈ a.sched.waiting .send (.user achan) := by
      rw [hs] at hmem
      exact hmem
    obtain ⟨-, hwaits, -⟩ := hi.good.ok.waiting .send (.user achan) u hmem'
    obtain ⟨call, hcall, hsend⟩ := Option.bind_eq_some_iff.mp hwaits
    rcases hi.calls u call hcall with ⟨hp, -⟩ | ⟨-, hspares⟩
    · exact hne hp rfl rfl
    · cases call with
      | send n val =>
        obtain rfl : n = achan := by simpa [Call.waits] using hsend
        exact hspares rfl
      | recv n => simp [Call.waits] at hsend
      | join jthr => simp [Call.waits] at hsend
      | recvRv c jthr => simp [Call.waits] at hsend
  have hbroken : ((s.recvChannel t achan).threads u).state.isDead = true := by
    rcases s.recvChannel_cases t achan with ⟨hempty, -⟩ | ⟨-, ch, -, -, heq⟩
    · exact absurd (hempty.symm.trans hdata) (by simp)
    · have hnot : (s.waiting .send (.user achan)).head? ≠ some u :=
        fun h => hfree (List.mem_of_mem_head? h)
      have hstate : ((s.recvChannel t achan).threads u).state = .Tbroken := by
        have hkilled : (s.threads u).state = .Tbroken := by simp [hs]
        have hwake : (((s.setChan (.user achan) ch).wake
            (s.waiting .send (.user achan)).head?).threads u).state = .Tbroken := by
          rw [Sched.state_wake, if_neg hnot]
          exact hkilled
        rw [heq]
        by_cases hut : u = t
        · subst hut
          simpa using hwake
        · simpa [hut] using hwake
      rw [hstate]
      rfl
  have hnone : ∀ v, ¬ Holds { a with sched := s.recvChannel t achan } v := by
    rintro v ⟨hlocked, hset⟩
    obtain ⟨hvu, hset⟩ : v ≠ u ∧ a.cell v = true := by
      simpa using (hcell v).symm.trans hset
    exact hvu (hi.unique v u ⟨hlocked, hset⟩ hholds)
  constructor
  · exact hg
  · intro v hv
    refine hi.fresh v (Nat.le_trans ?_ hv)
    simp [hs]
  · intro v hv
    exact (hcell v).trans ((if_neg (hne hv rfl)).trans (hi.unset v hv))
  · intro v hv
    have hvu : v ≠ u := by
      rcases hv with hv | hv
      · exact hne hv rfl
      · exact hne hv rfl
    exact (hcell v).trans ((if_neg hvu).trans (hi.set v hv))
  · rintro v ⟨hlocked, hfalse⟩
    by_cases hvu : v = u
    · rw [hvu]
      exact hbroken
    · exact hwoken v ⟨hlocked, (if_neg hvu).symm.trans ((hcell v).symm.trans hfalse)⟩
  · exact fun v hv => absurd hv (hnone v)
  · exact fun v _ hv => absurd hv (hnone v)
  · have hempty : ((s.recvChannel t achan).chans (.user achan)).hasdata = false := by
      rw [Sched.recvChannel_hasdata, if_pos rfl]
    simp [hempty, hnone]
  · intro v call hc
    rw [hcall] at hc
    split at hc
    · cases hc
    · exact hi.calls v call hc

theorem Inv.kill (hi : Inv achan a) (ht : a.sched.current = some t) (hlt : u < a.sched.count)
    (hclean : a.cell u = true → (a.phase u).locked = true)
    (hwoken : ∀ v, a.Lost v → ((a.sched.killThread w achan t u).threads v).state.isDead = true) :
    Inv achan { a with sched := a.sched.killThread w achan t u } := by
  have hg := hi.good.killThread ht hlt w achan
  have hacell : ((a.sched.endThread u .Tbroken).threads u).acell = a.cell u := by
    simp [cell]
  cases hcell : a.cell u with
  | false =>
    have heq : a.sched.killThread w achan t u =
        (a.sched.endThread u .Tbroken).setValr t (w.thread u) := by
      simp only [Sched.killThread, hacell, hcell]
      rfl
    rw [heq] at hg ⊢
    exact hi.killUnset hg hcell
  | true =>
    have heq : a.sched.killThread w achan t u =
        ((a.sched.endThread u .Tbroken).setThread u
          { (a.sched.endThread u .Tbroken).threads u with acell := false }).recvChannel t achan := by
      simp only [Sched.killThread, hacell, hcell]
      rfl
    rw [heq] at hg hwoken ⊢
    exact hi.killHolder ⟨hclean hcell, hcell⟩ rfl hg hwoken

end Atomic

theorem Inv.act (hi : Inv achan a) (ht : a.sched.current = some t) {x : Act V}
    (hs : a.act w achan t x = some a') (hclean : a.CleanStep (.sched (.act x)) a') :
    Inv achan a' := by
  have hlive : a.phase t ≠ .outside → ¬ a.Dead t := fun hp hdead =>
    hp (hclean.runs t ht (.inl ⟨x, rfl⟩) hdead)
  have hwoken : ∀ u, a.Lost u → (a'.sched.threads u).state.isDead = true := hclean.woken
  simp only [AtomicSched.act, Option.ite_none_right_eq_some, Option.map_eq_some_iff] at hs
  obtain ⟨hallowed, s, hs, rfl⟩ := hs
  have hstays : ∀ {b}, nextPhase b (a.phase t) x = a.phase t →
      Inv achan { a with sched := s } →
      Inv achan ({ a with sched := s }.setPhase t (nextPhase b (a.phase t) x)) := by
    intro b hnext hinv
    have hself : ({ a with sched := s } : AtomicSched V).setPhase t (a.phase t) =
        { a with sched := s } := setPhase_self
    rw [hnext, hself]
    exact hinv
  cases x with
  | resume =>
    obtain ⟨call, hcall, rfl⟩ := Option.map_eq_some_iff.mp hs
    rcases hi.calls t call hcall with ⟨hp, val, rfl⟩ | ⟨hp, hspares⟩
    · have hlock := hi.lock val ht (hlive (by simp [hp])) hp hwoken
      rw [hp]
      exact hlock
    · apply hstays
      · rcases hp with hp | hp <;> rw [hp] <;> rfl
      · exact hi.resumeCall ht hp hspares w hwoken
  | compute valr =>
    simp only [Sched.act, Option.ite_none_left_eq_some, Option.some.injEq] at hs
    obtain ⟨hnone, rfl⟩ := hs
    apply hstays
    · cases a.phase t <;> rfl
    · exact hi.own ht _ rfl rfl rfl fun call hcall => .inl hcall
  | atomicCell val =>
    simp only [Sched.act, Option.ite_none_left_eq_some, Option.some.injEq] at hs
    obtain ⟨hnone, rfl⟩ := hs
    have hnone : (a.sched.threads t).call = none := by simpa using hnone
    cases hp : a.phase t with
    | outside =>
      obtain ⟨rfl, -⟩ : val = true ∧ _ := by simpa [allowed, hp] using hallowed
      exact hi.setCell ht (by rw [hp]; rfl) hnone (p := .entering) rfl
    | released =>
      obtain rfl : val = false := by simpa [allowed, hp] using hallowed
      exact hi.setCell ht (by rw [hp]; rfl) hnone (p := .outside) rfl
    | entering => simp [allowed, hp] at hallowed
    | inside => simp [allowed, hp] at hallowed
    | after => simp [allowed, hp] at hallowed
  | recv n =>
    simp only [Sched.act, Option.ite_none_left_eq_some, Option.some.injEq] at hs
    obtain ⟨-, rfl⟩ := hs
    cases hp : a.phase t with
    | outside =>
      have hn : n ≠ achan := by simpa [allowed, hp] using hallowed
      exact hp ▸ hstays (by rw [hp]; rfl) (hi.recv ht hn (.inl hp) hwoken)
    | inside =>
      have hn : n ≠ achan := by simpa [allowed, hp] using hallowed
      exact hp ▸ hstays (by rw [hp]; rfl) (hi.recv ht hn (.inr hp) hwoken)
    | after =>
      obtain rfl : n = achan := by simpa [allowed, hp] using hallowed
      exact hi.unlock ht (hlive (by simp [hp])) hp hwoken
    | entering => simp [allowed, hp] at hallowed
    | released => simp [allowed, hp] at hallowed
  | send n val =>
    simp only [Sched.act, Option.ite_none_left_eq_some, Option.some.injEq] at hs
    obtain ⟨-, rfl⟩ := hs
    cases hp : a.phase t with
    | outside =>
      have hn : n ≠ achan := by simpa [allowed, hp] using hallowed
      exact hp ▸ hstays (by rw [hp]; rfl) (hi.send ht hn (.inl hp) hwoken)
    | inside =>
      have hn : n ≠ achan := by simpa [allowed, hp] using hallowed
      exact hp ▸ hstays (by rw [hp]; rfl) (hi.send ht hn (.inr hp) hwoken)
    | entering =>
      obtain rfl : n = achan := by simpa [allowed, hp] using hallowed
      exact hi.lock _ ht (hlive (by simp [hp])) hp hwoken
    | after => simp [allowed, hp] at hallowed
    | released => simp [allowed, hp] at hallowed
  | join jthr =>
    simp only [Sched.act, Option.ite_none_left_eq_some, Option.ite_none_right_eq_some,
      Option.some.injEq] at hs
    obtain ⟨-, -, rfl⟩ := hs
    have hp : a.phase t = .outside ∨ a.phase t = .inside := by
      cases hp : a.phase t <;> simp [allowed, hp] at hallowed ⊢
    apply hstays
    · cases a.phase t <;> rfl
    · exact hi.joinThread ht hp w jthr hwoken
  | kill tthr =>
    simp only [Sched.act, Option.ite_none_left_eq_some, Option.ite_none_right_eq_some,
      Option.some.injEq] at hs
    obtain ⟨-, hlt, rfl⟩ := hs
    have hp : a.phase t = .outside ∨ a.phase t = .inside := by
      cases hp : a.phase t <;> simp [allowed, hp] at hallowed ⊢
    apply hstays
    · cases a.phase t <;> rfl
    · exact hi.kill ht hlt (hclean.kill tthr rfl) hwoken
  | finish valr =>
    simp only [Sched.act, Option.ite_none_left_eq_some, Option.some.injEq] at hs
    obtain ⟨-, rfl⟩ := hs
    have hp : a.phase t = .outside := by
      cases hp : a.phase t <;> simp [allowed, hp] at hallowed ⊢
    exact hstays (by rw [hp]; rfl) (hi.ends _ ht hp rfl)
  | fail =>
    simp only [Sched.act, Option.ite_none_left_eq_some, Option.some.injEq] at hs
    obtain ⟨-, rfl⟩ := hs
    have hp : a.phase t = .outside := by
      cases hp : a.phase t <;> simp [allowed, hp] at hallowed ⊢
    have hends := hi.ends (a.sched.threads t).valr ht hp (show ThreadState.Tbroken.isDead = true from rfl)
    rw [Sched.setValr_self] at hends
    exact hstays (by rw [hp]; rfl) hends

theorem Inv.unlink (hi : Inv achan a) (ht : t ∈ a.sched.listed)
    (hg : (a.sched.unlink w t).Good)
    (hwoken : ∀ u, a.Lost u → ((a.sched.unlink w t).threads u).state.isDead = true) :
    Inv achan { a with sched := a.sched.unlink w t } := by
  obtain ⟨ch, -, -, -, heq⟩ := hi.good.ok.unlink_eq ht w
  have hthread : ∀ u, ((a.sched.unlink w t).threads u).acell = a.cell u ∧
      ((a.sched.unlink w t).threads u).call = (a.sched.threads u).call ∧
      (((a.sched.unlink w t).threads u).state.isDead = true → a.Dead u) := by
    intro u
    rw [heq]
    by_cases hw : u ∈ a.sched.waiting .recv (.rv t)
    · by_cases hut : u = t
      · subst hut
        simp [hw, cell, ThreadState.isDead]
      · simp [hut, hw, cell, ThreadState.isDead]
    · by_cases hut : u = t
      · subst hut
        simp [hw, cell, Dead]
      · simp [hut, hw, cell, Dead]
  apply hi.spare hg
  · rw [heq]
    exact Nat.le_refl _
  · rw [heq]
    simp
  · exact fun u => .inl (hthread u).1
  · exact fun u hu => .inl ((hthread u).2.2 hu)
  · exact fun u call hc => .inl ((hthread u).2.1 ▸ hc)
  · exact hwoken

theorem Inv.newThread (hi : Inv achan a) (hg : s'.Good)
    (hold : ∀ u, u ≠ a.sched.count → s'.threads u = a.sched.threads u)
    (hcount : s'.count = a.sched.count + 1)
    (hcell : (s'.threads a.sched.count).acell = false)
    (hcall : (s'.threads a.sched.count).call = none)
    (hchans : s'.chans = a.sched.chans) : Inv achan { a with sched := s' } := by
  have hout := hi.fresh a.sched.count (Nat.le_refl _)
  apply hi.spare hg (hcount ▸ Nat.le_succ _) (hchans ▸ rfl)
  · intro u
    by_cases hu : u = a.sched.count
    · subst hu
      exact .inr ⟨hout, hcell⟩
    · rw [hold u hu]
      exact .inl rfl
  · intro u hdead
    by_cases hu : u = a.sched.count
    · subst hu
      exact .inr hout
    · rw [hold u hu] at hdead
      exact .inl hdead
  · intro u call hc
    by_cases hu : u = a.sched.count
    · subst hu
      exact absurd (hcall.symm.trans hc) (by simp)
    · rw [hold u hu] at hc
      exact .inl hc
  · intro u hlost
    have hu : u ≠ a.sched.count := by
      rintro rfl
      have hlocked := hlost.1
      simp [hout, Phase.locked] at hlocked
    rw [hold u hu]
    exact hi.lost u hlost

theorem Inv.step (hi : Inv achan a) {e : AtomicEvent V} (hs : a.step w achan e = some a')
    (hclean : a.CleanStep e a') : Inv achan a' := by
  cases e with
  | leave =>
    obtain ⟨t, ht, hs⟩ := Option.bind_eq_some_iff.mp hs
    simp only [Option.ite_none_right_eq_some, Option.some.injEq] at hs
    obtain ⟨⟨hp, hcall⟩, rfl⟩ := hs
    have hlive : ¬ a.Dead t := by
      intro hdead
      cases hp.symm.trans (hclean.runs t ht (.inr rfl) hdead)
    exact hi.leaveThunk ht hlive hp (by simpa using hcall)
  | sched e =>
    -- Other steps of the dispatcher leave the phases.
    have hother : (a.sched.step w achan e).map (fun s => { a with sched := s }) = some a' →
        (∀ x, e ≠ .act x) → Inv achan a' := by
      intro hs hact
      obtain ⟨s, hstep, rfl⟩ := Option.map_eq_some_iff.mp hs
      have hg := hi.good.step hstep
      have hwoken : ∀ u, a.Lost u → (s.threads u).state.isDead = true := hclean.woken
      cases Sched.step_stepped hstep with
      | call | own | kill | ends => exact absurd rfl (hact _)
      | quantum ht =>
        exact hi.spare hg (Nat.le_refl _) rfl (fun _ => .inl rfl) (fun _ hu => .inl hu)
          (fun _ _ hc => .inl hc) hwoken
      | spawn =>
        apply hi.newThread hg _ rfl
        · simp [Sched.spawn, Arcueid.newThread]
        · simp [Sched.spawn, Arcueid.newThread]
        · rfl
        · intro u hu
          simp [Sched.spawn, hu]
      | spawnDone =>
        apply hi.newThread hg _ rfl
        · simp [Sched.spawnDone, Arcueid.newThread]
        · simp [Sched.spawnDone, Arcueid.newThread]
        · rfl
        · intro u hu
          simp [Sched.spawnDone, hu]
      | pass =>
        exact hi.spare hg (Nat.le_refl _) rfl (fun _ => .inl rfl) (fun _ hu => .inl hu)
          (fun _ _ hc => .inl hc) hwoken
      | unlink _ ht =>
        exact hi.unlink (List.mem_append_right _ (List.mem_of_mem_head? ht)) hg hwoken
      | skip =>
        exact hi.spare hg (Nat.le_refl _) rfl (fun _ => .inl rfl) (fun _ hu => .inl hu)
          (fun _ _ hc => .inl hc) hwoken
      | resume =>
        exact hi.spare hg (Nat.le_refl _) rfl (fun _ => .inl rfl) (fun _ hu => .inl hu)
          (fun _ _ hc => .inl hc) hwoken
    cases e with
    | act x =>
      obtain ⟨t, ht, hs⟩ := Option.bind_eq_some_iff.mp hs
      exact hi.act ht hs hclean
    | spawn thunk => exact hother hs (by simp)
    | spawnDone valr => exact hother hs (by simp)
    | pass => exact hother hs (by simp)
    | visit => exact hother hs (by simp)
    | quantum => exact hother hs (by simp)

theorem Inv.start (w : Values V) (achan : Nat) : Inv achan (start w) where
  good := .init w
  fresh := fun _ _ => rfl
  unset := fun _ _ => rfl
  set := by simp [AtomicSched.start]
  lost := by simp [AtomicSched.start, Lost, Phase.locked]
  alive := by simp [AtomicSched.start, Holds, Phase.locked]
  unique := by simp [AtomicSched.start, Holds, Phase.locked]
  token := by simp [AtomicSched.start, Holds, Phase.locked, arcInitThreads, arcMkchan]
  calls := by simp [AtomicSched.start, arcInitThreads, Arcueid.newThread]

theorem Inv.run {es : List (AtomicEvent V)} (hi : Inv achan a) (hclean : CleanRun w achan a es)
    (hs : a.run w achan es = some a') : Inv achan a' := by
  induction es generalizing a with
  | nil =>
    obtain rfl := Option.some.inj hs
    exact hi
  | cons e es ih =>
    obtain ⟨b, hb, hrest⟩ := Option.bind_eq_some_iff.mp hs
    obtain ⟨hstep, htail⟩ := hclean b hb
    exact ih (hi.step hb hstep) htail hrest

/-- Of the live threads one at most has the token, and with none the channel is
empty. -/
theorem Inv.exclusive (hi : Inv achan a) :
    (∀ t u, a.InThunk t → a.InThunk u → t = u) ∧
      ((∀ t, ¬ a.HasSent t) → (a.sched.chans (.user achan)).hasdata = false) := by
  have hin : ∀ t, a.InThunk t → a.Holds t := by
    rintro t ⟨hp, hlive⟩
    exact hi.holds hlive (by rw [hp]; rfl)
  constructor
  · intro t u ht hu
    exact hi.unique t u (hin t ht) (hin u hu)
  · intro hnone
    rw [Bool.eq_false_iff, ne_eq, hi.token]
    rintro ⟨t, ht⟩
    exact hnone t ⟨ht.1, hi.alive t ht⟩

theorem CleanStep.of_live {e : AtomicEvent V} (hkill : ∀ u, e ≠ .sched (.act (.kill u)))
    (hdead : ∀ t, ¬ a.Dead t) (hlost : ∀ t, ¬ a.Lost t) : a.CleanStep e a' :=
  ⟨fun u he => absurd he (hkill u), fun t _ _ h => absurd h (hdead t),
    fun u h => absurd h (hlost u)⟩

def unitValues : Values Unit := ⟨(), fun _ => none, fun _ => ()⟩

/-- A thread enters an atomic section. -/
def entered : List (AtomicEvent Unit) :=
  [.sched (.spawn ()), .sched .visit, .sched (.act (.atomicCell true)), .sched (.act (.send 0 ()))]

/-- A thread that waits for the token is killed by a third one. -/
def killedEntering : List (AtomicEvent Unit) :=
  [.sched (.spawn ()), .sched (.spawn ()), .sched (.spawn ()),
    .sched .visit, .sched (.act (.atomicCell true)), .sched (.act (.send 0 ())), .sched .quantum,
    .sched .visit, .sched (.act (.atomicCell true)), .sched (.act (.send 0 ())),
    .sched .visit, .sched (.act (.kill 1)), .sched (.act (.atomicCell true)),
    .sched (.act (.send 0 ()))]

end AtomicSched

end Arcueid
