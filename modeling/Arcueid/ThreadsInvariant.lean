import Arcueid.Threads

/-! What holds in every state of the threads: who is in which queue. -/

namespace Arcueid

variable {V : Type}

inductive Side where
  | recv
  | send
  deriving DecidableEq

/-- The state of a thread that waits. -/
def Side.state : Side → ThreadState
  | .recv => .Trecv
  | .send => .Tsend

/-- What a thread waits for in a queue: data, or none. -/
def Side.ready : Side → Bool
  | .recv => true
  | .send => false

def Side.other : Side → Side
  | .recv => .send
  | .send => .recv

theorem Side.state_ne_ready (i : Side) : i.state ≠ .Tready := by cases i <;> decide

/-- The queue that a call waits in. -/
def Call.waits : Call V → Option (Side × ChanId)
  | .recv n => some (.recv, .user n)
  | .send n _ => some (.send, .user n)
  | .join _ => none
  | .recvRv c _ => some (.recv, c)

/-- The calls that a thread makes. -/
def Call.act : Call V → Option (Act V)
  | .recv n => some (.recv n)
  | .send n val => some (.send n val)
  | .join jthr => some (.join jthr)
  | .recvRv _ _ => none

namespace Chan

def waiting (ch : Chan V) : Side → Queue
  | .recv => ch.rq
  | .send => ch.sq

def setWaiting (ch : Chan V) (q : Queue) : Side → Chan V
  | .recv => { ch with rq := q }
  | .send => { ch with sq := q }

theorem waiting_setWaiting (ch : Chan V) (q : Queue) (i j : Side) :
    (ch.setWaiting q i).waiting j = if j = i then q else ch.waiting j := by
  cases i <;> cases j <;> rfl

end Chan

namespace Sched

/-- The list of the dispatcher. -/
def listed (s : Sched V) : List Nat := s.passed ++ s.queue

def waits (s : Sched V) (t : Nat) : Option (Side × ChanId) := (s.threads t).call.bind Call.waits

/-- The threads in a queue of a channel. -/
def waiting (s : Sched V) (i : Side) (c : ChanId) : List Nat := ((s.chans c).waiting i).toList

structure Ok (s : Sched V) : Prop where
  nodup : s.listed.Nodup
  lt_count : ∀ t ∈ s.listed, t < s.count
  listed_rvch : ∀ t ∈ s.listed, (s.threads t).rvch = none
  live_listed : ∀ t < s.count, s.ended t = false → t ∈ s.listed
  ended : ∀ t, (s.threads t).state.isDead = true → s.ended t = true
  removed : ∀ t, (s.threads t).rvch = s.removed t
  waiting_nodup : ∀ i c, (s.waiting i c).Nodup
  waiting : ∀ i c, ∀ t ∈ s.waiting i c, t < s.count ∧ s.waits t = some (i, c) ∧
    ((s.threads t).state = i.state ∨ (s.threads t).state = .Tbroken)
  blocked : ∀ t i, (s.threads t).state = i.state → ∃ c, s.waits t = some (i, c) ∧ t ∈ s.waiting i c
  fresh : ∀ t, s.count ≤ t → s.removed t = none ∧ s.ended t = false

/-- The thread that runs waits in no queue. -/
def Free (s : Sched V) : Prop := ∀ t, s.current = some t → ∀ i c, t ∉ s.waiting i c

variable {s : Sched V} {t n : Nat} {i : Side} {c : ChanId}

theorem current_mem (ht : s.current = some t) : t ∈ s.queue := by
  unfold current at ht
  split at ht
  · exact List.mem_of_mem_head? ht
  · simp at ht

theorem current_mem_listed (ht : s.current = some t) : t ∈ s.listed :=
  List.mem_append_right _ (current_mem ht)

@[simp] theorem listed_leave : s.leave.listed = s.listed := by
  cases hq : s.queue <;> simp [listed, hq]

@[simp] theorem current_leave : s.leave.current = none := by simp [current]

@[simp] theorem waiting_leave : s.leave.waiting i c = s.waiting i c := rfl

@[simp] theorem waits_leave : s.leave.waits t = s.waits t := rfl

@[simp] theorem waiting_setThread {thr : SchedThread V} :
    (s.setThread t thr).waiting i c = s.waiting i c := rfl

@[simp] theorem listed_setThread {thr : SchedThread V} :
    (s.setThread t thr).listed = s.listed := rfl

@[simp] theorem current_setThread {thr : SchedThread V} :
    (s.setThread t thr).current = s.current := rfl

theorem waits_setThread {thr : SchedThread V} (u : Nat) :
    (s.setThread t thr).waits u = if u = t then thr.call.bind Call.waits else s.waits u := by
  by_cases hut : u = t <;> simp [waits, hut]

theorem Ok.leave (h : s.Ok) : s.leave.Ok where
  nodup := by rw [listed_leave]; exact h.nodup
  lt_count := by rw [listed_leave]; exact h.lt_count
  listed_rvch := by rw [listed_leave]; exact h.listed_rvch
  live_listed := by rw [listed_leave]; exact h.live_listed
  ended := h.ended
  removed := h.removed
  waiting_nodup := h.waiting_nodup
  waiting := h.waiting
  blocked := h.blocked
  fresh := h.fresh

theorem Ok.setThread (h : s.Ok) {thr : SchedThread V} (ht : ∀ i c, t ∉ s.waiting i c)
    (hrvch : thr.rvch = (s.threads t).rvch) (hstate : ∀ i : Side, thr.state ≠ i.state)
    (hdead : thr.state.isDead = true → s.ended t = true) : (s.setThread t thr).Ok where
  nodup := h.nodup
  lt_count := h.lt_count
  listed_rvch := by
    intro u hu
    by_cases hut : u = t
    · subst hut
      simpa [hrvch] using h.listed_rvch u hu
    · simpa [hut] using h.listed_rvch u hu
  live_listed := h.live_listed
  ended := by
    intro u hu
    by_cases hut : u = t
    · subst hut
      exact hdead (by simpa using hu)
    · exact h.ended u (by simpa [hut] using hu)
  removed := by
    intro u
    by_cases hut : u = t
    · subst hut
      simpa [hrvch] using h.removed u
    · simpa [hut] using h.removed u
  waiting_nodup := h.waiting_nodup
  waiting := by
    intro i c u hu
    have hut : u ≠ t := fun heq => ht i c (heq ▸ hu)
    simpa [hut, waits_setThread] using h.waiting i c u hu
  blocked := by
    intro u i hu
    by_cases hut : u = t
    · subst hut
      exact absurd (by simpa using hu) (hstate i)
    · simpa [hut, waits_setThread] using h.blocked u i (by simpa [hut] using hu)
  fresh := h.fresh

theorem waiting_setChan {ch : Chan V} (j : Side) (d : ChanId) :
    (s.setChan c ch).waiting j d = if d = c then (ch.waiting j).toList else s.waiting j d := by
  by_cases hd : d = c <;> simp [waiting, hd]

@[simp] theorem listed_setChan {ch : Chan V} : (s.setChan c ch).listed = s.listed := rfl

@[simp] theorem current_setChan {ch : Chan V} : (s.setChan c ch).current = s.current := rfl

@[simp] theorem waits_setChan {ch : Chan V} : (s.setChan c ch).waits t = s.waits t := rfl

/-- The channel with a thread at the end of a queue. -/
def enqueued (s : Sched V) (i : Side) (c : ChanId) (t : Nat) : Chan V :=
  (s.chans c).setWaiting (((s.chans c).waiting i).enqueue t) i

theorem waiting_enqueued (j : Side) (d : ChanId) :
    (s.setChan c (s.enqueued i c t)).waiting j d =
      if j = i ∧ d = c then s.waiting i c ++ [t] else s.waiting j d := by
  rw [waiting_setChan]
  by_cases hd : d = c
  · subst hd
    by_cases hj : j = i
    · subst hj
      simp [enqueued, Chan.waiting_setWaiting, Queue.toList_enqueue, waiting]
    · simp [enqueued, Chan.waiting_setWaiting, hj, waiting]
  · simp [hd]

theorem Ok.enqueue (h : s.Ok) (hf : s.Free) (ht : s.current = some t) {call : Call V}
    (hcall : call.waits = some (i, c)) :
    ((s.setChan c (s.enqueued i c t)).block t i.state call).Ok := by
  have hfree := hf t ht
  have hlisted := current_mem_listed ht
  have hnew : t ∉ s.waiting i c := hfree i c
  apply Ok.leave
  constructor
  · exact h.nodup
  · exact h.lt_count
  · intro u hu
    by_cases hut : u = t
    · subst hut
      simpa using h.listed_rvch u hu
    · simpa [hut] using h.listed_rvch u hu
  · exact h.live_listed
  · intro u hu
    by_cases hut : u = t
    · subst hut
      cases i <;> simp [Side.state, ThreadState.isDead] at hu
    · exact h.ended u (by simpa [hut] using hu)
  · intro u
    by_cases hut : u = t
    · subst hut
      simpa using h.removed u
    · simpa [hut] using h.removed u
  · intro j d
    rw [waiting_setThread, waiting_enqueued]
    split
    · exact List.nodup_append.mpr ⟨h.waiting_nodup i c, List.nodup_singleton t, by
        intro u hu v hv huv
        rw [List.mem_singleton.mp hv] at huv
        exact hnew (huv ▸ hu)⟩
    · exact h.waiting_nodup j d
  · intro j d u hu
    rw [waiting_setThread, waiting_enqueued] at hu
    by_cases hut : u = t
    · subst hut
      split at hu
      · rename_i hjd
        obtain ⟨rfl, rfl⟩ := hjd
        exact ⟨h.lt_count u hlisted, by simp [waits_setThread, hcall], by simp⟩
      · exact absurd hu (hfree j d)
    · have hold : u ∈ s.waiting j d := by
        split at hu
        · rename_i hjd
          obtain ⟨rfl, rfl⟩ := hjd
          simpa [hut] using hu
        · exact hu
      simpa [hut, waits_setThread] using h.waiting j d u hold
  · intro u j hu
    by_cases hut : u = t
    · subst hut
      have hj : i = j := by
        cases i <;> cases j <;> simp [Side.state] at hu ⊢
      subst hj
      refine ⟨c, by simp [waits_setThread, hcall], ?_⟩
      rw [waiting_setThread, waiting_enqueued]
      simp
    · obtain ⟨d, hwaits, hmem⟩ := h.blocked u j (by simpa [hut] using hu)
      refine ⟨d, by simpa [hut, waits_setThread] using hwaits, ?_⟩
      rw [waiting_setThread, waiting_enqueued]
      split
      · rename_i hjd
        obtain ⟨rfl, rfl⟩ := hjd
        exact List.mem_append_left _ hmem
      · exact hmem
  · exact h.fresh

/-- The channel without the head of a queue. -/
def Dequeued (s : Sched V) (i : Side) (c : ChanId) (ch : Chan V) : Prop :=
  ∀ j, (ch.waiting j).toList = if j = i then (s.waiting i c).tail else s.waiting j c

theorem Dequeued.waiting {ch : Chan V} (hch : s.Dequeued i c ch) (j : Side) (d : ChanId) :
    (s.setChan c ch).waiting j d = if j = i ∧ d = c then (s.waiting i c).tail else s.waiting j d := by
  rw [waiting_setChan]
  by_cases hd : d = c
  · subst hd
    simp [hch j]
  · simp [hd]

/-- All threads in a list are ready. -/
@[simps]
def readied (s : Sched V) (thrs : List Nat) : Sched V :=
  { s with
    threads := fun u => if u ∈ thrs then { s.threads u with state := .Tready } else s.threads u }

theorem setChan_self : s.setChan c (s.chans c) = s := by
  have hchans : (s.setChan c (s.chans c)).chans = s.chans := by
    funext d
    by_cases hd : d = c <;> simp [hd]
  show { s with chans := (s.setChan c (s.chans c)).chans } = s
  rw [hchans]

theorem readied_nil : s.readied [] = s := by simp [readied]

theorem readied_cons (ch : Chan V) (t : Nat) (thrs : List Nat) :
    ((s.setChan c ch).setState t .Tready).readied thrs = (s.readied (t :: thrs)).setChan c ch := by
  have hthreads : (((s.setChan c ch).setState t .Tready).readied thrs).threads =
      ((s.readied (t :: thrs)).setChan c ch).threads := by
    funext u
    by_cases hut : u = t
    · subst hut
      simp
    · simp [hut]
  show { (s.readied (t :: thrs)).setChan c ch with
    threads := (((s.setChan c ch).setState t .Tready).readied thrs).threads } = _
  rw [hthreads]

@[simp] theorem waits_readied (thrs : List Nat) : (s.readied thrs).waits t = s.waits t := by
  by_cases ht : t ∈ thrs <;> simp [waits, ht]

/-- Threads that wait are woken and are out of the queue. -/
theorem Ok.wakeList (h : s.Ok) {thrs : List Nat} {ch : Chan V}
    (hthrs : ∀ t ∈ thrs, t ∈ s.waiting i c) (hnodup : ∀ j, (ch.waiting j).toList.Nodup)
    (hch : ∀ j t, t ∈ (ch.waiting j).toList ↔ t ∈ s.waiting j c ∧ t ∉ thrs) :
    ((s.readied thrs).setChan c ch).Ok := by
  have hwaiting : ∀ j d t, t ∈ ((s.readied thrs).setChan c ch).waiting j d ↔
      t ∈ s.waiting j d ∧ t ∉ thrs := by
    intro j d t
    rw [waiting_setChan]
    split
    · rename_i hd
      rw [hch, hd]
    · rename_i hd
      constructor
      · intro ht
        refine ⟨ht, fun hwoken => hd ?_⟩
        have hwaits := (h.waiting i c t (hthrs t hwoken)).2.1
        rw [(h.waiting j d t ht).2.1] at hwaits
        simp only [Option.some.injEq, Prod.mk.injEq] at hwaits
        exact hwaits.2
      · exact fun ht => ht.1
  constructor
  · exact h.nodup
  · exact h.lt_count
  · intro u hu
    by_cases hut : u ∈ thrs
    · simpa [hut] using h.listed_rvch u hu
    · simpa [hut] using h.listed_rvch u hu
  · exact h.live_listed
  · intro u hu
    by_cases hut : u ∈ thrs
    · simp [hut, ThreadState.isDead] at hu
    · exact h.ended u (by simpa [hut] using hu)
  · intro u
    by_cases hut : u ∈ thrs
    · simpa [hut] using h.removed u
    · simpa [hut] using h.removed u
  · intro j d
    rw [waiting_setChan]
    split
    · exact hnodup j
    · exact h.waiting_nodup j d
  · intro j d u hu
    obtain ⟨hu, hne⟩ := (hwaiting j d u).mp hu
    simpa [hne] using h.waiting j d u hu
  · intro u j hu
    by_cases hut : u ∈ thrs
    · exact absurd (by simpa [hut] using hu.symm) j.state_ne_ready
    · obtain ⟨d, hwaits, hmem⟩ := h.blocked u j (by simpa [hut] using hu)
      exact ⟨d, by simpa using hwaits, (hwaiting j d u).mpr ⟨hmem, hut⟩⟩
  · exact h.fresh

theorem Ok.wake (h : s.Ok) {ch : Chan V} (hch : s.Dequeued i c ch) :
    ((s.setChan c ch).wake (s.waiting i c).head?).Ok := by
  have hnodup : ∀ j, (ch.waiting j).toList.Nodup := by
    intro j
    rw [hch j]
    split
    · exact (h.waiting_nodup i c).tail
    · exact h.waiting_nodup j c
  have hother : ∀ j t, j ≠ i → t ∈ s.waiting j c → t ∉ s.waiting i c := by
    intro j t hj ht ht'
    have hwaits := (h.waiting j c t ht).2.1
    rw [(h.waiting i c t ht').2.1] at hwaits
    simp only [Option.some.injEq, Prod.mk.injEq] at hwaits
    exact hj hwaits.1.symm
  cases hq : s.waiting i c with
  | nil =>
    have hok : ((s.readied []).setChan c ch).Ok := by
      apply h.wakeList (i := i) (by simp) hnodup
      intro j t
      rw [hch j]
      split
      · rename_i hj
        simp [hj, hq]
      · simp
    rwa [readied_nil] at hok
  | cons xthr xthrs =>
    have hnd := h.waiting_nodup i c
    rw [hq] at hnd
    have hne := (List.nodup_cons.mp hnd).1
    have hok : ((s.readied [xthr]).setChan c ch).Ok := by
      apply h.wakeList (i := i) (by simp [hq]) hnodup
      intro j t
      rw [hch j, List.mem_singleton]
      split
      · rename_i hj
        subst hj
        rw [hq, List.tail_cons]
        constructor
        · exact fun ht => ⟨List.mem_cons_of_mem _ ht, fun heq => hne (heq ▸ ht)⟩
        · exact fun ht => List.mem_of_ne_of_mem ht.2 ht.1
      · rename_i hj
        constructor
        · exact fun ht => ⟨ht, fun heq => hother j t hj ht (by simp [heq, hq])⟩
        · exact fun ht => ht.1
    rwa [← readied_cons, readied_nil] at hok

theorem Dequeued.mem {ch : Chan V} (hch : s.Dequeued i c ch) {j : Side} {d : ChanId} {u : Nat}
    (hu : u ∈ (s.setChan c ch).waiting j d) : u ∈ s.waiting j d := by
  rw [hch.waiting] at hu
  split at hu
  · rename_i hjd
    obtain ⟨rfl, rfl⟩ := hjd
    exact List.mem_of_mem_tail hu
  · exact hu

@[simp] theorem waiting_wake (xthr : Option Nat) : (s.wake xthr).waiting i c = s.waiting i c := by
  cases xthr <;> rfl

@[simp] theorem chans_wake (xthr : Option Nat) : (s.wake xthr).chans = s.chans := by
  cases xthr <;> rfl

@[simp] theorem sent_wake (xthr : Option Nat) : (s.wake xthr).sent = s.sent := by
  cases xthr <;> rfl

@[simp] theorem received_wake (xthr : Option Nat) : (s.wake xthr).received = s.received := by
  cases xthr <;> rfl

@[simp] theorem listed_wake (xthr : Option Nat) : (s.wake xthr).listed = s.listed := by
  cases xthr <;> rfl

@[simp] theorem count_wake (xthr : Option Nat) : (s.wake xthr).count = s.count := by
  cases xthr <;> rfl

@[simp] theorem ended_wake (xthr : Option Nat) : (s.wake xthr).ended = s.ended := by
  cases xthr <;> rfl

theorem call_wake (xthr : Option Nat) (u : Nat) :
    ((s.wake xthr).threads u).call = (s.threads u).call := by
  cases xthr with
  | none => rfl
  | some x =>
    by_cases hu : u = x
    · subst hu
      simp [wake]
    · simp [wake, hu]

@[simp] theorem waits_wake (xthr : Option Nat) : (s.wake xthr).waits t = s.waits t := by
  rw [waits, call_wake, waits]

theorem state_wake (xthr : Option Nat) (u : Nat) : ((s.wake xthr).threads u).state =
    if xthr = some u then .Tready else (s.threads u).state := by
  cases xthr with
  | none => simp [wake]
  | some x =>
    by_cases hu : u = x
    · subst hu
      simp [wake]
    · simp [wake, hu, Ne.symm hu]

@[simp] theorem joined_wake (xthr : Option Nat) : (s.wake xthr).joined = s.joined := by
  cases xthr <;> rfl

@[simp] theorem removed_wake (xthr : Option Nat) : (s.wake xthr).removed = s.removed := by
  cases xthr <;> rfl

@[simp] theorem current_wake (xthr : Option Nat) : (s.wake xthr).current = s.current := by
  cases xthr <;> rfl

theorem Free.wake (hf : s.Free) {ch : Chan V} (hch : s.Dequeued i c ch) (xthr : Option Nat) :
    ((s.setChan c ch).wake xthr).Free := by
  intro t ht j d hmem
  rw [current_wake] at ht
  rw [waiting_wake] at hmem
  exact hf t ht j d (hch.mem hmem)

/-- The state of a thread in no queue does not change. -/
theorem Ok.update (h : s.Ok) {thr : SchedThread V} (ht : ∀ i c, t ∉ s.waiting i c)
    (hrvch : thr.rvch = (s.threads t).rvch) (hstate : thr.state = (s.threads t).state) :
    (s.setThread t thr).Ok := by
  apply h.setThread ht hrvch
  · intro i hi
    obtain ⟨c, -, hmem⟩ := h.blocked t i (hstate ▸ hi)
    exact ht i c hmem
  · intro hdead
    exact h.ended t (hstate ▸ hdead)

/-- A receive waits, or takes the data and wakes the head of those that send. -/
theorem recvChannel_cases (s : Sched V) (t n : Nat) :
    (s.chans (.user n)).hasdata = false ∧
        s.recvChannel t n =
          (s.setChan (.user n) (s.enqueued .recv (.user n) t)).block t .Trecv (.recv n) ∨
      (s.chans (.user n)).hasdata = true ∧ ∃ ch, s.Dequeued .send (.user n) ch ∧
        ch.hasdata = false ∧
        s.recvChannel t n =
          (((s.setChan (.user n) ch).wake (s.waiting .send (.user n)).head?).areturn t
            (s.chans (.user n)).data).didRecv n (s.chans (.user n)).data := by
  cases hdata : (s.chans (.user n)).hasdata with
  | false => exact .inl ⟨rfl, if_pos hdata⟩
  | true =>
    right
    obtain ⟨hhead, hrest⟩ := Queue.dequeue_eq (s.chans (.user n)).sq
    refine ⟨rfl, { s.chans (.user n) with
      hasdata := false, sq := (s.chans (.user n)).sq.dequeue.2 }, ?_, rfl, ?_⟩
    · intro j
      cases j with
      | recv => rfl
      | send => exact hrest
    · have hw : (s.waiting .send (.user n)).head? = (s.chans (.user n)).sq.dequeue.1 := hhead.symm
      rw [hw]
      exact if_neg (by simp [hdata])

/-- A send waits, or puts the data and wakes the head of those that receive. -/
theorem sendChannel_cases (s : Sched V) (t n : Nat) (val : V) :
    (s.chans (.user n)).hasdata = true ∧
        s.sendChannel t n val =
          (s.setChan (.user n) (s.enqueued .send (.user n) t)).block t .Tsend (.send n val) ∨
      (s.chans (.user n)).hasdata = false ∧ ∃ ch, s.Dequeued .recv (.user n) ch ∧
        ch.hasdata = true ∧ ch.data = val ∧
        s.sendChannel t n val =
          (((s.setChan (.user n) ch).wake (s.waiting .recv (.user n)).head?).areturn t
            val).didSend n val := by
  cases hdata : (s.chans (.user n)).hasdata with
  | true => exact .inl ⟨rfl, if_pos hdata⟩
  | false =>
    right
    obtain ⟨hhead, hrest⟩ := Queue.dequeue_eq (s.chans (.user n)).rq
    refine ⟨rfl, { s.chans (.user n) with
      hasdata := true, data := val, rq := (s.chans (.user n)).rq.dequeue.2 }, ?_, rfl, rfl, ?_⟩
    · intro j
      cases j with
      | recv => exact hrest
      | send => rfl
    · have hw : (s.waiting .recv (.user n)).head? = (s.chans (.user n)).rq.dequeue.1 := hhead.symm
      rw [hw]
      exact if_neg (by simp [hdata])

/-- The channel with nobody left who waits to receive. -/
def Emptied (s : Sched V) (c : ChanId) (ch : Chan V) : Prop :=
  ∀ j, (ch.waiting j).toList = if j = .recv then [] else s.waiting j c

theorem setChan_setChan (ch ch' : Chan V) : (s.setChan c ch).setChan c ch' = s.setChan c ch' := by
  unfold setChan
  congr
  funext d
  by_cases hd : d = c <;> simp [hd]

theorem emptied_self (hnil : s.waiting .recv c = []) : ∃ ch, s.Emptied c ch ∧
    ch.hasdata = (s.chans c).hasdata ∧ ch.data = (s.chans c).data ∧
    s = (s.readied (s.waiting .recv c)).setChan c ch := by
  refine ⟨s.chans c, ?_, rfl, rfl, ?_⟩
  · intro j
    cases j with
    | recv => exact hnil
    | send => rfl
  · rw [hnil, readied_nil, setChan_self]

/-- `__arc_send_rvchan` wakes all of them. -/
theorem wakeAll_eq (fuel : Nat) (s : Sched V) (c : ChanId)
    (hfuel : (s.waiting .recv c).length ≤ fuel) :
    ∃ ch, s.Emptied c ch ∧ ch.hasdata = (s.chans c).hasdata ∧ ch.data = (s.chans c).data ∧
      wakeAll fuel s c = (s.readied (s.waiting .recv c)).setChan c ch := by
  induction fuel generalizing s with
  | zero => exact emptied_self (by simpa using hfuel)
  | succ fuel ih =>
    obtain ⟨hhead, hrest⟩ := Queue.dequeue_eq (s.chans c).rq
    have hlist : (s.chans c).rq.toList = s.waiting .recv c := rfl
    rw [hlist] at hhead hrest
    cases hq : s.waiting .recv c with
    | nil =>
      rw [hq] at hhead
      have hstop : wakeAll (fuel + 1) s c = s := by
        rw [wakeAll]
        split
        · rfl
        · rename_i hdeq
          rw [hdeq] at hhead
          simp at hhead
      rw [hstop, ← hq]
      exact emptied_self hq
    | cons t thrs =>
      rw [hq] at hhead hrest hfuel
      let ch := { s.chans c with rq := (s.chans c).rq.dequeue.2 }
      have hgo : wakeAll (fuel + 1) s c = wakeAll fuel ((s.setChan c ch).setState t .Tready) c := by
        rw [wakeAll]
        split
        · rename_i hdeq
          rw [hdeq] at hhead
          simp at hhead
        · rename_i xthr rq hdeq
          rw [hdeq] at hhead
          obtain rfl : xthr = t := by simpa using hhead
          simp [ch, hdeq]
      have hwaiting : ((s.setChan c ch).setState t .Tready).waiting .recv c = thrs := by
        rw [setState, waiting_setThread, waiting_setChan, if_pos rfl]
        exact hrest
      have hsend : ((s.setChan c ch).setState t .Tready).waiting .send c = s.waiting .send c := by
        rw [setState, waiting_setThread, waiting_setChan, if_pos rfl]
        rfl
      obtain ⟨ch', hch', hdata, hval, heq⟩ := ih ((s.setChan c ch).setState t .Tready)
        (by simpa [hwaiting] using hfuel)
      refine ⟨ch', ?_, by simpa [ch] using hdata, by simpa [ch] using hval, ?_⟩
      · intro j
        rw [hch' j]
        cases j with
        | recv => rfl
        | send => exact hsend
      · rw [hgo, heq, hwaiting, readied_cons, setChan_setChan]

theorem Ok.wakeEvery (h : s.Ok) {ch : Chan V} (hch : s.Emptied c ch) :
    ((s.readied (s.waiting .recv c)).setChan c ch).Ok := by
  apply h.wakeList (fun t ht => ht)
  · intro j
    rw [hch j]
    split
    · exact List.nodup_nil
    · exact h.waiting_nodup j c
  · intro j t
    rw [hch j]
    cases j with
    | recv => simp
    | send =>
      constructor
      · intro ht
        refine ⟨ht, fun ht' => ?_⟩
        have hwaits := (h.waiting .send c t ht).2.1
        rw [(h.waiting .recv c t ht').2.1] at hwaits
        simp at hwaits
      · exact fun ht => ht.1

theorem sendRvchan_eq (s : Sched V) (c : ChanId) (val : V) :
    ∃ ch, s.Emptied c ch ∧ ch.hasdata = true ∧ ch.data = val ∧
      s.sendRvchan c val = (s.readied (s.waiting .recv c)).setChan c ch := by
  let s' := s.setChan c { s.chans c with hasdata := true, data := val }
  have hwaiting : ∀ j, s'.waiting j c = s.waiting j c := by
    intro j
    rw [waiting_setChan, if_pos rfl]
    cases j <;> rfl
  obtain ⟨ch, hch, hdata, hval, heq⟩ :=
    wakeAll_eq (s.waiting .recv c).length s' c (Nat.le_of_eq (by rw [hwaiting]))
  refine ⟨ch, ?_, by simpa [s'] using hdata, by simpa [s'] using hval, ?_⟩
  · intro j
    rw [hch j, hwaiting]
  · have hreadied : s'.readied (s.waiting .recv c) =
        (s.readied (s.waiting .recv c)).setChan c { s.chans c with hasdata := true, data := val } :=
      rfl
    rw [hwaiting, hreadied, setChan_setChan] at heq
    exact heq

structure Good (s : Sched V) : Prop where
  ok : s.Ok
  free : s.Free

theorem Free.of_none (h : s.current = none) : s.Free := by
  intro t ht
  simp [h] at ht

variable {val : V}

theorem Good.leave (h : s.Good) : s.leave.Good :=
  ⟨h.ok.leave, .of_none current_leave⟩

theorem Good.update (h : s.Good) (ht : s.current = some t) {thr : SchedThread V}
    (hrvch : thr.rvch = (s.threads t).rvch) (hstate : thr.state = (s.threads t).state) :
    (s.setThread t thr).Good :=
  ⟨h.ok.update (h.free t ht) hrvch hstate, h.free⟩

theorem Good.areturn (h : s.Good) (ht : s.current = some t) : (s.areturn t val).Good :=
  h.update ht rfl rfl

/-- What is kept of what was completed does not matter. -/
theorem Good.ghost (h : s.Good) (sent received : Nat → List V) (joined : List (Nat × V)) :
    { s with sent := sent, received := received, joined := joined }.Good :=
  ⟨⟨h.ok.nodup, h.ok.lt_count, h.ok.listed_rvch, h.ok.live_listed, h.ok.ended, h.ok.removed,
    h.ok.waiting_nodup, h.ok.waiting, h.ok.blocked, h.ok.fresh⟩, h.free⟩

theorem Good.enqueue (h : s.Good) (ht : s.current = some t) {call : Call V}
    (hcall : call.waits = some (i, c)) :
    ((s.setChan c (s.enqueued i c t)).block t i.state call).Good :=
  ⟨h.ok.enqueue h.free ht hcall, .of_none (current_leave ..)⟩

theorem Good.wake (h : s.Good) {ch : Chan V} (hch : s.Dequeued i c ch) :
    ((s.setChan c ch).wake (s.waiting i c).head?).Good :=
  ⟨h.ok.wake hch, h.free.wake hch _⟩

theorem Good.recvChannel (h : s.Good) (ht : s.current = some t) : (s.recvChannel t n).Good := by
  rcases s.recvChannel_cases t n with ⟨-, heq⟩ | ⟨-, ch, hch, -, heq⟩
  · rw [heq]
    exact h.enqueue ht rfl
  · rw [heq]
    exact ((h.wake hch).areturn (by simpa using ht)).ghost _ _ _

theorem Good.sendChannel (h : s.Good) (ht : s.current = some t) :
    (s.sendChannel t n val).Good := by
  rcases s.sendChannel_cases t n val with ⟨-, heq⟩ | ⟨-, ch, hch, -, -, heq⟩
  · rw [heq]
    exact h.enqueue ht rfl
  · rw [heq]
    exact ((h.wake hch).areturn (by simpa using ht)).ghost _ _ _

theorem Good.recvRvchan (h : s.Good) (ht : s.current = some t) (j : Nat) :
    (s.recvRvchan t c j).Good := by
  unfold Sched.recvRvchan
  dsimp only
  split
  · exact h.enqueue (i := .recv) ht rfl
  · exact h.update ht rfl rfl

theorem Good.joinThread (h : s.Good) (ht : s.current = some t) (w : Values V) (j : Nat) :
    (s.joinThread w t j).Good := by
  unfold Sched.joinThread
  split
  · exact h.recvRvchan ht j
  · split
    · exact h.recvRvchan ht j
    · exact (h.areturn ht).ghost _ _ _

theorem Good.endThread (h : s.Good) {state : ThreadState} (hlt : t < s.count)
    (hdead : state.isDead = true)
    (hstate : state = .Tbroken ∨ ∀ i c, t ∉ s.waiting i c) : (s.endThread t state).Good := by
  have hwaits : ∀ u, (s.endThread t state).waits u = s.waits u := by
    intro u
    by_cases hut : u = t
    · subst hut
      simp [waits]
    · simp [waits, hut]
  refine ⟨?_, h.free⟩
  constructor
  · exact h.ok.nodup
  · exact h.ok.lt_count
  · intro u hu
    by_cases hut : u = t
    · subst hut
      simpa using h.ok.listed_rvch u hu
    · simpa [hut] using h.ok.listed_rvch u hu
  · intro u hu hlive
    simp only [endThread_ended, Bool.or_eq_false_iff] at hlive
    exact h.ok.live_listed u hu hlive.2
  · intro u hu
    by_cases hut : u = t
    · simp [hut]
    · simpa [hut] using h.ok.ended u (by simpa [hut] using hu)
  · intro u
    by_cases hut : u = t
    · subst hut
      simpa using h.ok.removed u
    · simpa [hut] using h.ok.removed u
  · exact h.ok.waiting_nodup
  · intro i c u hu
    obtain ⟨hlt, hw, hst⟩ := h.ok.waiting i c u hu
    refine ⟨hlt, (hwaits u).trans hw, ?_⟩
    by_cases hut : u = t
    · subst hut
      rcases hstate with rfl | hfree
      · simp
      · exact absurd hu (hfree i c)
    · simpa [hut] using hst
  · intro u i hu
    by_cases hut : u = t
    · subst hut
      have hi : state = i.state := by simpa using hu
      cases i <;> simp [hi, Side.state, ThreadState.isDead] at hdead
    · obtain ⟨c, hw, hmem⟩ := h.ok.blocked u i (by simpa [hut] using hu)
      exact ⟨c, (hwaits u).trans hw, hmem⟩
  · intro u hu
    have hut : u ≠ t := fun heq => absurd hlt (Nat.not_lt.mpr (heq ▸ hu))
    simpa [hut] using h.ok.fresh u hu

theorem Good.setAcell (h : s.Good) (acell : Bool) :
    (s.setThread t { s.threads t with acell := acell }).Good := by
  have hthread : ∀ u, ((s.setThread t { s.threads t with acell := acell }).threads u).state =
      (s.threads u).state ∧ ((s.setThread t { s.threads t with acell := acell }).threads u).rvch =
      (s.threads u).rvch := by
    intro u
    by_cases hut : u = t
    · subst hut
      simp
    · simp [hut]
  have hwaits : ∀ u, (s.setThread t { s.threads t with acell := acell }).waits u = s.waits u := by
    intro u
    by_cases hut : u = t
    · subst hut
      simp [waits]
    · simp [waits, hut]
  refine ⟨?_, h.free⟩
  constructor
  · exact h.ok.nodup
  · exact h.ok.lt_count
  · intro u hu
    exact (hthread u).2.trans (h.ok.listed_rvch u hu)
  · exact h.ok.live_listed
  · intro u hu
    exact h.ok.ended u ((hthread u).1 ▸ hu)
  · intro u
    exact (hthread u).2.trans (h.ok.removed u)
  · exact h.ok.waiting_nodup
  · intro i c u hu
    rw [hwaits, (hthread u).1]
    exact h.ok.waiting i c u hu
  · intro u i hu
    rw [hwaits]
    exact h.ok.blocked u i ((hthread u).1 ▸ hu)
  · exact h.ok.fresh

theorem Good.killThread (h : s.Good) (ht : s.current = some t) {u : Nat} (hu : u < s.count)
    (w : Values V) (achan : Nat) : (s.killThread w achan t u).Good := by
  have hend : (s.endThread u .Tbroken).Good := h.endThread hu rfl (.inl rfl)
  unfold Sched.killThread
  dsimp only
  split
  · exact (hend.setAcell false).recvChannel ht
  · exact hend.update ht rfl rfl

theorem Good.resumeCall (h : s.Good) (ht : s.current = some t) (w : Values V) (call : Call V) :
    (s.resumeCall w t call).Good := by
  cases call with
  | recv n => exact h.recvChannel ht
  | send n val => exact h.sendChannel ht
  | join jthr => exact h.joinThread ht w jthr
  | recvRv c jthr => exact h.recvRvchan ht jthr

/-- What a step can do. -/
inductive Stepped (w : Values V) (achan : Nat) (s : Sched V) : SchedEvent V → Sched V → Prop
  | call {u a} (call : Call V) : s.current = some u →
      (s.threads u).call = some call ∧ a = .resume ∨
        (s.threads u).call = none ∧ call.act = some a ∧ (∀ jthr, a = .join jthr → jthr < s.count) →
      Stepped w achan s (.act a) (s.resumeCall w u call)
  | own {u a thr} : s.current = some u → thr.state = (s.threads u).state →
      thr.rvch = (s.threads u).rvch → thr.call = (s.threads u).call →
      Stepped w achan s (.act a) (s.setThread u thr)
  | kill {u tthr} : s.current = some u → (s.threads u).call = none → tthr < s.count →
      Stepped w achan s (.act (.kill tthr)) (s.killThread w achan u tthr)
  | ends {u a state valr} : s.current = some u → (s.threads u).call = none →
      state.isDead = true →
      Stepped w achan s (.act a) ((s.setValr u valr).endThread u state).leave
  | quantum {u} : s.current = some u → Stepped w achan s .quantum s.leave
  | spawn {thunk} : Stepped w achan s (.spawn thunk) (s.spawn thunk)
  | spawnDone {valr} : Stepped w achan s (.spawnDone valr) (s.spawnDone valr)
  | pass : s.running = false → s.queue = [] → Stepped w achan s .pass { s with passed := [], queue := s.passed }
  | unlink {u} : s.running = false → s.queue.head? = some u →
      (s.threads u).state.isDead = true → Stepped w achan s .visit (s.unlink w u)
  | skip : s.running = false → Stepped w achan s .visit s.leave
  | resume {u} : s.running = false → s.queue.head? = some u → (s.threads u).state = .Tready →
      Stepped w achan s .visit { s with running := true }

theorem setValr_self : s.setValr t (s.threads t).valr = s := by
  have hthreads : (s.setValr t (s.threads t).valr).threads = s.threads := by
    funext u
    by_cases hut : u = t <;> simp [hut]
  show { s with threads := (s.setValr t (s.threads t).valr).threads } = s
  rw [hthreads]

theorem stepped_act {s' : Sched V} {w : Values V} {achan : Nat} {a : Act V}
    (ht : s.current = some t) (hs : s.act w achan t a = some s') :
    Stepped w achan s (.act a) s' := by
  cases a with
  | resume =>
    obtain ⟨call, hcall, rfl⟩ := Option.map_eq_some_iff.mp hs
    exact .call call ht (.inl ⟨hcall, rfl⟩)
  | compute valr =>
    simp only [Sched.act, Option.ite_none_left_eq_some, Option.some.injEq] at hs
    obtain ⟨-, rfl⟩ := hs
    exact .own ht rfl rfl rfl
  | atomicCell acell =>
    simp only [Sched.act, Option.ite_none_left_eq_some, Option.some.injEq] at hs
    obtain ⟨-, rfl⟩ := hs
    exact .own ht rfl rfl rfl
  | recv n =>
    simp only [Sched.act, Option.ite_none_left_eq_some, Option.some.injEq] at hs
    obtain ⟨hcall, rfl⟩ := hs
    exact .call (.recv n) ht (.inr ⟨by simpa using hcall, rfl, by simp⟩)
  | send n val =>
    simp only [Sched.act, Option.ite_none_left_eq_some, Option.some.injEq] at hs
    obtain ⟨hcall, rfl⟩ := hs
    exact .call (.send n val) ht (.inr ⟨by simpa using hcall, rfl, by simp⟩)
  | join jthr =>
    simp only [Sched.act, Option.ite_none_left_eq_some, Option.ite_none_right_eq_some,
      Option.some.injEq] at hs
    obtain ⟨hcall, hlt, rfl⟩ := hs
    exact .call (.join jthr) ht (.inr ⟨by simpa using hcall, rfl, by simpa using hlt⟩)
  | kill tthr =>
    simp only [Sched.act, Option.ite_none_left_eq_some, Option.ite_none_right_eq_some,
      Option.some.injEq] at hs
    obtain ⟨hcall, hlt, rfl⟩ := hs
    exact .kill ht (by simpa using hcall) hlt
  | finish valr =>
    simp only [Sched.act, Option.ite_none_left_eq_some, Option.some.injEq] at hs
    obtain ⟨hcall, rfl⟩ := hs
    exact .ends ht (by simpa using hcall) rfl
  | fail =>
    simp only [Sched.act, Option.ite_none_left_eq_some, Option.some.injEq] at hs
    obtain ⟨hcall, rfl⟩ := hs
    have hends : Stepped w achan s (.act .fail)
        ((s.setValr t (s.threads t).valr).endThread t .Tbroken).leave :=
      .ends ht (by simpa using hcall) rfl
    rwa [setValr_self] at hends

theorem step_stepped {s' : Sched V} {w : Values V} {achan : Nat} {e : SchedEvent V}
    (hs : s.step w achan e = some s') : Stepped w achan s e s' := by
  cases e with
  | spawn thunk =>
    obtain rfl := Option.some.inj hs
    exact .spawn
  | spawnDone valr =>
    obtain rfl := Option.some.inj hs
    exact .spawnDone
  | pass =>
    obtain ⟨⟨hrun, hq⟩, rfl⟩ : (s.running = false ∧ s.queue = []) ∧
        { s with passed := [], queue := s.passed } = s' := by
      simpa [Sched.step] using hs
    exact .pass hrun hq
  | visit =>
    obtain ⟨hrun, t, ht, rfl⟩ : s.running = false ∧ ∃ t, s.queue.head? = some t ∧
        s.visit w t = s' := by
      simpa [Sched.step] using hs
    cases hstate : (s.threads t).state with
    | Tsend =>
      simp only [visit, hstate]
      exact .skip hrun
    | Trecv =>
      simp only [visit, hstate]
      exact .skip hrun
    | Tready =>
      simp only [visit, hstate]
      exact .resume hrun ht hstate
    | Trelease =>
      simp only [visit, hstate]
      exact .unlink hrun ht (by rw [hstate]; rfl)
    | Tbroken =>
      simp only [visit, hstate]
      exact .unlink hrun ht (by rw [hstate]; rfl)
  | act a =>
    obtain ⟨t, ht, hact⟩ := Option.bind_eq_some_iff.mp hs
    exact stepped_act ht hact
  | quantum =>
    obtain ⟨t, ht, rfl⟩ := Option.map_eq_some_iff.mp hs
    exact .quantum ht

/-- What is left when the dispatcher unlinks a thread. -/
theorem Ok.unlink_eq (h : s.Ok) (ht : t ∈ s.listed) (w : Values V) :
    ∃ ch, s.Emptied (.rv t) ch ∧ ch.hasdata = true ∧ ch.data = (s.threads t).valr ∧
      let s' := (s.readied (s.waiting .recv (.rv t))).setChan (.rv t) ch
      s.unlink w t = { s'.setThread t { s'.threads t with rvch := some (s.threads t).valr } with
        queue := s.queue.tail
        removed := fun u => if u = t then some (s.threads t).valr else s.removed u } := by
  obtain ⟨ch, hch, hdata, hval, heq⟩ := s.sendRvchan_eq (.rv t) (s.threads t).valr
  refine ⟨ch, hch, hdata, hval, ?_⟩
  simp only [Sched.unlink, h.listed_rvch t ht, heq]
  rfl

theorem Good.unlink (h : s.Good) (hrun : s.running = false) (ht : s.queue.head? = some t)
    (hdead : (s.threads t).state.isDead = true) (w : Values V) : (s.unlink w t).Good := by
  have hlisted : t ∈ s.listed := List.mem_append_right _ (List.mem_of_mem_head? ht)
  obtain ⟨ch, hch, -, -, heq⟩ := h.ok.unlink_eq hlisted w
  have hok := h.ok.wakeEvery hch
  generalize hs' : (s.readied (s.waiting .recv (.rv t))).setChan (.rv t) ch = s' at hok heq
  have hpassed : s'.passed = s.passed := by rw [← hs']; rfl
  have hqueue : s'.queue = s.queue := by rw [← hs']; rfl
  have hended : s'.ended = s.ended := by rw [← hs']; rfl
  have hremoved : s'.removed = s.removed := by rw [← hs']; rfl
  have hrunning : s'.running = s.running := by rw [← hs']; rfl
  rw [heq, ← hqueue, ← hremoved]
  have hlist : s'.listed = s'.passed ++ t :: s'.queue.tail := by
    rw [Sched.listed, hqueue, List.cons_head?_tail ht]
  have hmem : ∀ u, u ∈ s'.passed ++ s'.queue.tail → u ∈ s'.listed ∧ u ≠ t := by
    have hnd := hok.nodup
    rw [hlist, List.nodup_middle, List.nodup_cons] at hnd
    intro u hu
    refine ⟨?_, fun heq => hnd.1 (heq ▸ hu)⟩
    rw [hlist]
    rcases List.mem_append.mp hu with hu | hu
    · exact List.mem_append_left _ hu
    · exact List.mem_append_right _ (List.mem_cons_of_mem _ hu)
  have hdead' : s'.ended t = true := by
    rw [hended]
    exact h.ok.ended t hdead
  constructor
  · constructor
    · have hnd := hok.nodup
      rw [hlist, List.nodup_middle, List.nodup_cons] at hnd
      exact hnd.2
    · intro u hu
      exact hok.lt_count u (hmem u hu).1
    · intro u hu
      obtain ⟨hold, hne⟩ := hmem u hu
      simpa [hne] using hok.listed_rvch u hold
    · intro u hu hlive
      have hne : u ≠ t := by
        rintro rfl
        exact absurd (hdead'.symm.trans hlive) (by simp)
      have hold := hok.live_listed u hu hlive
      rw [hlist] at hold
      rcases List.mem_append.mp hold with hold | hold
      · exact List.mem_append_left _ hold
      · exact List.mem_append_right _ (List.mem_of_ne_of_mem hne hold)
    · intro u hu
      by_cases hut : u = t
      · rw [hut]
        exact hdead'
      · exact hok.ended u (by simpa [hut] using hu)
    · intro u
      by_cases hut : u = t
      · simp [hut]
      · simpa [hut] using hok.removed u
    · exact hok.waiting_nodup
    · intro i c u hu
      by_cases hut : u = t
      · subst hut
        simpa [waits] using hok.waiting i c u hu
      · simpa [waits, hut] using hok.waiting i c u hu
    · intro u i hu
      by_cases hut : u = t
      · subst hut
        obtain ⟨c, hw, hu'⟩ := hok.blocked u i (by simpa using hu)
        exact ⟨c, by simpa [waits] using hw, hu'⟩
      · obtain ⟨c, hw, hu'⟩ := hok.blocked u i (by simpa [hut] using hu)
        exact ⟨c, by simpa [waits, hut] using hw, hu'⟩
    · intro u hu
      have hut : u ≠ t := by
        rintro rfl
        have hlt := hok.lt_count u (hlist ▸ List.mem_append_right _ List.mem_cons_self)
        exact absurd hlt (Nat.not_lt.mpr hu)
      simpa [hut] using hok.fresh u hu
  · apply Free.of_none
    have hnot : s'.running = false := hrunning.trans hrun
    simp [current, hnot]

theorem Ok.newThread (h : s.Ok) {s' : Sched V} (hcount : s'.count = s.count + 1)
    (hwaiting : ∀ i c, s'.waiting i c = s.waiting i c)
    (hold : ∀ u, u ≠ s.count → s'.threads u = s.threads u ∧ s'.ended u = s.ended u ∧
      s'.removed u = s.removed u)
    (hnew : ∀ i : Side, (s'.threads s.count).state ≠ i.state)
    (hdead : (s'.threads s.count).state.isDead = true → s'.ended s.count = true)
    (hrvch : (s'.threads s.count).rvch = s'.removed s.count)
    (hlisted : s'.listed = s.listed ∧ s'.ended s.count = true ∨
      s'.listed = s.listed ++ [s.count] ∧ (s'.threads s.count).rvch = none) : s'.Ok := by
  have hmem : ∀ u ∈ s.listed, u ≠ s.count ∧ u ∈ s'.listed := by
    intro u hu
    refine ⟨Nat.ne_of_lt (h.lt_count u hu), ?_⟩
    rcases hlisted with ⟨hl, -⟩ | ⟨hl, -⟩
    · exact hl ▸ hu
    · exact hl ▸ List.mem_append_left _ hu
  have hmem' : ∀ u ∈ s'.listed, u ∈ s.listed ∨ u = s.count ∧ (s'.threads s.count).rvch = none := by
    intro u hu
    rcases hlisted with ⟨hl, -⟩ | ⟨hl, hnone⟩
    · exact .inl (hl ▸ hu)
    · rw [hl] at hu
      rcases List.mem_append.mp hu with hu | hu
      · exact .inl hu
      · exact .inr ⟨List.mem_singleton.mp hu, hnone⟩
  constructor
  · rcases hlisted with ⟨hl, -⟩ | ⟨hl, -⟩
    · rw [hl]
      exact h.nodup
    · rw [hl, List.nodup_append]
      exact ⟨h.nodup, List.nodup_singleton _, by
        intro u hu v hv huv
        rw [List.mem_singleton.mp hv] at huv
        exact (hmem u hu).1 huv⟩
  · intro u hu
    rw [hcount]
    rcases hmem' u hu with hu | ⟨rfl, -⟩
    · exact Nat.lt_succ_of_lt (h.lt_count u hu)
    · exact Nat.lt_succ_self _
  · intro u hu
    rcases hmem' u hu with hu | ⟨rfl, hnone⟩
    · rw [(hold u (hmem u hu).1).1]
      exact h.listed_rvch u hu
    · exact hnone
  · intro u hu hlive
    rw [hcount] at hu
    by_cases hut : u = s.count
    · subst hut
      rcases hlisted with ⟨-, hended⟩ | ⟨hl, -⟩
      · exact absurd (hended.symm.trans hlive) (by simp)
      · rw [hl]
        exact List.mem_append_right _ (List.mem_singleton.mpr rfl)
    · rw [(hold u hut).2.1] at hlive
      exact (hmem u (h.live_listed u (by omega) hlive)).2
  · intro u hu
    by_cases hut : u = s.count
    · subst hut
      exact hdead hu
    · obtain ⟨hthr, hended, -⟩ := hold u hut
      rw [hended]
      exact h.ended u (hthr ▸ hu)
  · intro u
    by_cases hut : u = s.count
    · subst hut
      exact hrvch
    · obtain ⟨hthr, -, hremoved⟩ := hold u hut
      rw [hthr, hremoved]
      exact h.removed u
  · intro i c
    rw [hwaiting]
    exact h.waiting_nodup i c
  · intro i c u hu
    rw [hwaiting] at hu
    obtain ⟨hlt, hw, hstate⟩ := h.waiting i c u hu
    rw [waits, (hold u (Nat.ne_of_lt hlt)).1, hcount]
    exact ⟨Nat.lt_succ_of_lt hlt, hw, hstate⟩
  · intro u i hu
    by_cases hut : u = s.count
    · subst hut
      exact absurd hu (hnew i)
    · rw [(hold u hut).1] at hu
      obtain ⟨c, hw, hmem⟩ := h.blocked u i hu
      refine ⟨c, ?_, (hwaiting i c).symm ▸ hmem⟩
      rw [waits, (hold u hut).1]
      exact hw
  · intro u hu
    rw [hcount] at hu
    obtain ⟨-, hended, hremoved⟩ := hold u (by omega)
    rw [hended, hremoved]
    exact h.fresh u (by omega)

theorem Good.spawn (h : s.Good) (thunk : V) : (s.spawn thunk).Good := by
  constructor
  · have hcount : (s.spawn thunk).count = s.count + 1 := rfl
    apply h.ok.newThread hcount (fun _ _ => rfl)
    · intro u hu
      simp [Sched.spawn, hu]
    · intro i
      simpa [Sched.spawn, newThread] using i.state_ne_ready.symm
    · simp [Sched.spawn, newThread, ThreadState.isDead]
    · simpa [Sched.spawn, newThread] using (h.ok.fresh s.count (Nat.le_refl _)).1.symm
    · right
      simp [Sched.spawn, Sched.listed, newThread]
  · intro t ht i c hmem
    have hlt := (h.ok.waiting i c t hmem).1
    cases hq : s.queue with
    | nil =>
      have hcount : t ∈ [s.count] := by
        simpa [Sched.spawn, hq] using current_mem ht
      rw [List.mem_singleton.mp hcount] at hlt
      exact Nat.lt_irrefl _ hlt
    | cons u us =>
      have hold : s.current = some t := by
        simpa [Sched.spawn, current, hq] using ht
      exact h.free t hold i c hmem

theorem Good.spawnDone (h : s.Good) (valr : V) : (s.spawnDone valr).Good := by
  constructor
  · have hcount : (s.spawnDone valr).count = s.count + 1 := rfl
    apply h.ok.newThread hcount (fun _ _ => rfl)
    · intro u hu
      simp [Sched.spawnDone, hu]
    · intro i
      cases i <;> simp [Sched.spawnDone, Side.state]
    · simp [Sched.spawnDone]
    · simp [Sched.spawnDone]
    · left
      simp [Sched.spawnDone, Sched.listed]
  · exact h.free

theorem current_lt (h : s.Good) (ht : s.current = some t) : t < s.count :=
  h.ok.lt_count t (current_mem_listed ht)

theorem Good.step {s' : Sched V} {w : Values V} {achan : Nat} {e : SchedEvent V} (h : s.Good)
    (hs : s.step w achan e = some s') : s'.Good := by
  cases step_stepped hs with
  | call call ht => exact h.resumeCall ht w call
  | own ht hstate hrvch => exact h.update ht hrvch hstate
  | kill ht _ hlt => exact h.killThread ht hlt w achan
  | @ends t _ _ valr ht _ hdead =>
    have hset : (s.setValr t valr).Good := h.update ht rfl rfl
    exact (hset.endThread (current_lt hset ht) hdead (.inr (h.free t ht))).leave
  | quantum => exact h.leave
  | spawn => exact h.spawn _
  | spawnDone => exact h.spawnDone _
  | pass hrun hq =>
    have hlist : { s with passed := [], queue := s.passed }.listed = s.listed := by
      simp [Sched.listed, hq]
    constructor
    · exact {
        nodup := hlist ▸ h.ok.nodup
        lt_count := hlist ▸ h.ok.lt_count
        listed_rvch := hlist ▸ h.ok.listed_rvch
        live_listed := hlist ▸ h.ok.live_listed
        ended := h.ok.ended
        removed := h.ok.removed
        waiting_nodup := h.ok.waiting_nodup
        waiting := h.ok.waiting
        blocked := h.ok.blocked
        fresh := h.ok.fresh }
    · apply Free.of_none
      simp [current, hrun]
  | unlink hrun ht hdead => exact h.unlink hrun ht hdead w
  | skip => exact h.leave
  | @resume t hrun ht hstate =>
    constructor
    · exact ⟨h.ok.nodup, h.ok.lt_count, h.ok.listed_rvch, h.ok.live_listed, h.ok.ended,
        h.ok.removed, h.ok.waiting_nodup, h.ok.waiting, h.ok.blocked, h.ok.fresh⟩
    · intro u hu i c hmem
      obtain rfl : t = u := by simpa [current, ht] using hu
      obtain ⟨-, -, hwait⟩ := h.ok.waiting i c t hmem
      simp only [hstate] at hwait
      rcases hwait with hwait | hwait
      · exact i.state_ne_ready hwait.symm
      · cases hwait

theorem Good.init (w : Values V) : (arcInitThreads w).Good := by
  have hwaiting : ∀ i c, (arcInitThreads w).waiting i c = [] := by
    intro i c
    cases i <;> rfl
  constructor
  · constructor
    · exact List.nodup_nil
    · simp [Sched.listed, arcInitThreads]
    · simp [Sched.listed, arcInitThreads]
    · simp [arcInitThreads]
    · simp [arcInitThreads, newThread, ThreadState.isDead]
    · simp [arcInitThreads, newThread]
    · simp [hwaiting]
    · simp [hwaiting]
    · intro t i hstate
      exact absurd hstate.symm i.state_ne_ready
    · simp [arcInitThreads]
  · exact .of_none rfl

theorem Good.run {s' : Sched V} {w : Values V} {achan : Nat} {es : List (SchedEvent V)}
    (h : s.Good) (hs : s.run w achan es = some s') : s'.Good := by
  induction es generalizing s with
  | nil =>
    obtain rfl := Option.some.inj hs
    exact h
  | cons e es ih =>
    obtain ⟨m, hm, hrest⟩ := Option.bind_eq_some_iff.mp hs
    exact ih (h.step hm) hrest

end Sched

end Arcueid
