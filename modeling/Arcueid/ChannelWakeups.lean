import Arcueid.ThreadsInvariant

/-! Wake-ups of threads that wait for a channel, when no thread joins another.
A completed call wakes one thread of the opposite queue; whether that is enough
depends on whom it wakes, and on whom `kill-thread` puts an end to. -/

namespace Arcueid

/-- Calls other than `join-thread`. -/
def Call.onChannel {V : Type} : Call V → Bool
  | .recv _ => true
  | .send _ _ => true
  | .join _ => false
  | .recvRv _ _ => false

def SchedEvent.isJoin {V : Type} : SchedEvent V → Bool
  | .act (.join _) => true
  | _ => false

namespace Sched

variable {V : Type} {s s' : Sched V} {t n : Nat} {i : Side} {c : ChanId}

structure Live (s : Sched V) (t : Nat) : Prop where
  lt : t < s.count
  ended : s.ended t = false

/-- Dequeued, and about to try again. -/
structure Woken (s : Sched V) (i : Side) (n t : Nat) : Prop where
  live : s.Live t
  ready : (s.threads t).state = .Tready
  listed : t ∈ s.listed
  waits : s.waits t = some (i, .user n)
  dequeued : t ∉ s.waiting i (.user n)

/-- Where a live thread waits although it need not, another is about to try. -/
def NoLostWakeup (s : Sched V) : Prop :=
  ∀ i n, (s.chans (.user n)).hasdata = i.ready → (∃ t ∈ s.waiting i (.user n), s.Live t) →
    ∃ t, s.Woken i n t

/-- Who has been released or broken is not ready again. -/
def NoResurrection (s : Sched V) : Prop := ∀ t, s.ended t = true → (s.threads t).state ≠ .Tready

/-- The head of a queue has not ended. -/
def HeadLive (s : Sched V) (i : Side) (n : Nat) : Prop :=
  ∀ t, (s.waiting i (.user n)).head? = some t → s.ended t = false

/-- A completed call wakes no thread that has ended. -/
def CleanCall (s : Sched V) : Call V → Prop
  | .recv n => (s.chans (.user n)).hasdata = true → s.HeadLive .send n
  | .send n _ => (s.chans (.user n)).hasdata = false → s.HeadLive .recv n
  | .join _ => True
  | .recvRv _ _ => True

/-- `kill-thread` does not come between a wake-up and the retry. -/
def CleanKill (achan : Nat) (s : Sched V) (tthr : Nat) : Prop :=
  (∀ i n, ¬ s.Woken i n tthr) ∧
    ((s.threads tthr).acell = true → (s.endThread tthr .Tbroken).CleanCall (.recv achan))

def CleanStep (achan : Nat) (s : Sched V) : SchedEvent V → Prop
  | .act .resume => ∀ t call, s.current = some t → (s.threads t).call = some call → s.CleanCall call
  | .act (.recv n) => s.CleanCall (.recv n)
  | .act (.send n val) => s.CleanCall (.send n val)
  | .act (.kill tthr) => s.CleanKill achan tthr
  | _ => True

/-- Every step of a run is clean. -/
def CleanRun (w : Values V) (achan : Nat) : Sched V → List (SchedEvent V) → Prop
  | _, [] => True
  | s, e :: es => s.CleanStep achan e ∧ ∀ s', s.step w achan e = some s' → CleanRun w achan s' es

structure Lively (s : Sched V) : Prop where
  good : s.Good
  onChannel : ∀ t call, (s.threads t).call = some call → call.onChannel = true
  wakeups : s.NoLostWakeup
  resurrection : s.NoResurrection

/-- Nothing that has to do with wake-ups is different. -/
theorem NoLostWakeup.of_same (h : s.NoLostWakeup)
    (hdata : ∀ n, (s'.chans (.user n)).hasdata = (s.chans (.user n)).hasdata)
    (hwaiting : ∀ i n, s'.waiting i (.user n) = s.waiting i (.user n))
    (hlive : ∀ i n, ∀ t ∈ s.waiting i (.user n), s'.Live t → s.Live t)
    (hwoken : ∀ i n t, s.Woken i n t → s'.Woken i n t) : s'.NoLostWakeup := by
  intro i n hready ⟨t, ht, hl⟩
  rw [hwaiting] at ht
  obtain ⟨u, hu⟩ := h i n (hdata n ▸ hready) ⟨t, ht, hlive i n t ht hl⟩
  exact ⟨u, hwoken i n u hu⟩

theorem NoLostWakeup.block (h : s.NoLostWakeup) {call : Call V}
    (hpending : s.waits t = none ∨ s.waits t = some (i, .user n))
    (hdata : (s.chans (.user n)).hasdata ≠ i.ready) :
    ((s.setChan (.user n) (s.enqueued i (.user n) t)).block t i.state call).NoLostWakeup := by
  have hchans : ∀ m, ((s.setChan (.user n) (s.enqueued i (.user n) t)).chans (.user m)).hasdata =
      (s.chans (.user m)).hasdata := by
    intro m
    by_cases hm : m = n
    · subst hm
      cases i <;> simp [enqueued, Chan.setWaiting]
    · simp [hm]
  intro j m hready hwaits
  obtain ⟨u, hu, hl⟩ := hwaits
  have hready' : (s.chans (.user m)).hasdata = j.ready := (hchans m).symm.trans hready
  have hjm : ¬ (j = i ∧ ChanId.user m = .user n) := by
    rintro ⟨rfl, hm⟩
    obtain rfl := ChanId.user.inj hm
    exact hdata hready'
  have hwaiting : ((s.setChan (.user n) (s.enqueued i (.user n) t)).block t i.state
      call).waiting j (.user m) = s.waiting j (.user m) := by
    have hset := waiting_enqueued (s := s) (i := i) (c := .user n) (t := t) j (.user m)
    rw [if_neg hjm] at hset
    exact hset
  rw [hwaiting] at hu
  obtain ⟨x, hx⟩ := h j m hready' ⟨u, hu, ⟨hl.lt, hl.ended⟩⟩
  have hxt : x ≠ t := by
    rintro rfl
    rcases hpending with hp | hp
    · rw [hx.waits] at hp
      cases hp
    · rw [hx.waits] at hp
      simp only [Option.some.injEq, Prod.mk.injEq] at hp
      exact hjm hp
  refine ⟨x, ⟨hx.live.lt, hx.live.ended⟩, ?_, ?_, ?_, ?_⟩
  · simpa [hxt] using hx.ready
  · show x ∈ ((s.setChan (.user n) (s.enqueued i (.user n) t)).setThread t _).leave.listed
    rw [listed_leave]
    exact hx.listed
  · have hw := hx.waits
    simpa [waits, hxt] using hw
  · rw [hwaiting]
    exact hx.dequeued

theorem Side.other_ready (i : Side) : i.other.ready ≠ i.ready := by cases i <;> decide

theorem Side.eq_of_ready {i j : Side} (h : i.ready = j.ready) : i = j := by
  cases i <;> cases j <;> simp [Side.ready] at h ⊢

/-- The thread that runs completes its call and wakes the head of the other queue. -/
theorem NoLostWakeup.complete (h : s.NoLostWakeup) (hg : s.Good) (ht : s.current = some t)
    (hpending : s.waits t = none ∨ s.waits t = some (i.other, .user n)) {ch : Chan V}
    (hch : s.Dequeued i (.user n) ch) (hready : ch.hasdata = i.ready) (hclean : s.HeadLive i n)
    (val : V) :
    (((s.setChan (.user n) ch).wake (s.waiting i (.user n)).head?).areturn t val).NoLostWakeup := by
  generalize hs' : ((s.setChan (.user n) ch).wake (s.waiting i (.user n)).head?).areturn t val = s'
  have hwaiting : ∀ j m, s'.waiting j (.user m) =
      if j = i ∧ m = n then (s.waiting i (.user n)).tail else s.waiting j (.user m) := by
    intro j m
    have hdeq := hch.waiting j (.user m)
    rw [← hs']
    simpa [areturn] using hdeq
  have hstate : ∀ u, u ≠ t → (s'.threads u).state =
      if (s.waiting i (.user n)).head? = some u then .Tready else (s.threads u).state := by
    intro u hu
    rw [← hs', areturn_threads, if_neg hu, state_wake]
    rfl
  have hwaits : ∀ u, u ≠ t → s'.waits u = s.waits u := by
    intro u hu
    rw [← hs', areturn, waits_setThread, if_neg hu, waits_wake, waits_setChan]
  have hlisted : s'.listed = s.listed := by
    rw [← hs', areturn, listed_setThread, listed_wake, listed_setChan]
  have hlive : ∀ u, s'.Live u ↔ s.Live u := by
    intro u
    rw [← hs']
    constructor
    · exact fun hl => ⟨by simpa using hl.lt, by simpa using hl.ended⟩
    · exact fun hl => ⟨by simpa using hl.lt, by simpa using hl.ended⟩
  have hdata : ∀ m, (s'.chans (.user m)).hasdata =
      if m = n then i.ready else (s.chans (.user m)).hasdata := by
    intro m
    rw [← hs']
    by_cases hm : m = n
    · simp [hm, hready]
    · simp [hm]
  intro j m hm ⟨u, hu, hl⟩
  rw [hdata] at hm
  rw [hwaiting] at hu
  by_cases hmn : m = n
  · subst hmn
    rw [if_pos rfl] at hm
    obtain rfl := Side.eq_of_ready hm
    rw [if_pos ⟨rfl, rfl⟩] at hu
    cases hq : s.waiting i (.user m) with
    | nil => simp [hq] at hu
    | cons x xs =>
      have hx : x ∈ s.waiting i (.user m) := hq ▸ List.mem_cons_self
      have hxt : x ≠ t := fun heq => hg.free t ht i _ (heq ▸ hx)
      have hhead : (s.waiting i (.user m)).head? = some x := by rw [hq]; rfl
      obtain ⟨hlt, hw, -⟩ := hg.ok.waiting i _ x hx
      have hlx : s.Live x := ⟨hlt, hclean x hhead⟩
      have hnd := hg.ok.waiting_nodup i (.user m)
      refine ⟨x, (hlive x).mpr hlx, ?_, ?_, ?_, ?_⟩
      · rw [hstate x hxt, if_pos hhead]
      · rw [hlisted]
        exact hg.ok.live_listed x hlt hlx.ended
      · rw [hwaits x hxt, hw]
      · rw [hwaiting, if_pos ⟨rfl, rfl⟩, hq]
        rw [hq] at hnd
        exact (List.nodup_cons.mp hnd).1
  · rw [if_neg hmn] at hm
    rw [if_neg (fun hjm => hmn hjm.2)] at hu
    obtain ⟨x, hx⟩ := h j m hm ⟨u, hu, (hlive u).mp hl⟩
    have hxt : x ≠ t := by
      rintro rfl
      rcases hpending with hp | hp
      · rw [hx.waits] at hp
        cases hp
      · rw [hx.waits] at hp
        simp only [Option.some.injEq, Prod.mk.injEq, ChanId.user.injEq] at hp
        exact hmn hp.2
    refine ⟨x, (hlive x).mpr hx.live, ?_, ?_, ?_, ?_⟩
    · rw [hstate x hxt]
      split
      · rfl
      · exact hx.ready
    · rw [hlisted]
      exact hx.listed
    · rw [hwaits x hxt]
      exact hx.waits
    · rw [hwaiting, if_neg (fun hjm => hmn hjm.2)]
      exact hx.dequeued

theorem NoResurrection.of_same (h : s.NoResurrection)
    (hstate : ∀ t, (s'.threads t).state = .Tready → (s.threads t).state = .Tready)
    (hended : ∀ t, s'.ended t = true → s.ended t = true) : s'.NoResurrection :=
  fun t ht hready => h t (hended t ht) (hstate t hready)

theorem NoResurrection.wake (h : s.NoResurrection) {ch : Chan V} {xthr : Option Nat}
    (hclean : ∀ t, xthr = some t → s.ended t = false) :
    ((s.setChan c ch).wake xthr).NoResurrection := by
  intro t ht hready
  rw [ended_wake] at ht
  rw [state_wake] at hready
  split at hready
  · rename_i heq
    have hlive := hclean t heq
    exact absurd (ht.symm.trans hlive) (by simp)
  · exact h t ht hready

/-- The thread that runs has no call, or the one it makes. -/
def Pending (s : Sched V) (t : Nat) (call : Call V) : Prop :=
  (s.threads t).call = none ∨ (s.threads t).call = some call

theorem Pending.waits {call : Call V} (h : s.Pending t call) :
    s.waits t = none ∨ s.waits t = call.waits := by
  rcases h with h | h
  · exact .inl (by simp [Sched.waits, h])
  · exact .inr (by simp [Sched.waits, h])

theorem onChannel_setThread (h : ∀ t call, (s.threads t).call = some call → call.onChannel = true)
    {thr : SchedThread V} (hthr : ∀ call, thr.call = some call → call.onChannel = true) :
    ∀ u call, ((s.setThread t thr).threads u).call = some call → call.onChannel = true := by
  intro u call hu
  by_cases hut : u = t
  · exact hthr call (by simpa [hut] using hu)
  · exact h u call (by simpa [hut] using hu)

theorem Lively.block (h : s.Lively) (ht : s.current = some t) {call : Call V}
    (hchannel : call.onChannel = true) (hcall : call.waits = some (i, .user n))
    (hp : s.Pending t call) (hdata : (s.chans (.user n)).hasdata ≠ i.ready) :
    ((s.setChan (.user n) (s.enqueued i (.user n) t)).block t i.state call).Lively where
  good := h.good.enqueue ht hcall
  onChannel := onChannel_setThread h.onChannel fun call' hcall' => by
    obtain rfl := Option.some.inj hcall'
    exact hchannel
  wakeups := by
    have hpending := hp.waits
    rw [hcall] at hpending
    exact h.wakeups.block hpending hdata
  resurrection := by
    refine h.resurrection.of_same ?_ fun u hu => hu
    intro u hu
    by_cases hut : u = t
    · subst hut
      exact absurd (by simpa using hu) i.state_ne_ready
    · simpa [hut] using hu

theorem Lively.complete (h : s.Lively) (ht : s.current = some t) {call : Call V}
    (hcall : call.waits = some (i.other, .user n)) (hp : s.Pending t call) {ch : Chan V}
    (hch : s.Dequeued i (.user n) ch) (hready : ch.hasdata = i.ready) (hclean : s.HeadLive i n)
    (val : V) :
    (((s.setChan (.user n) ch).wake (s.waiting i (.user n)).head?).areturn t val).Lively where
  good := (h.good.wake hch).areturn (by simpa using ht)
  onChannel := by
    apply onChannel_setThread
    · intro u call' hu
      rw [call_wake] at hu
      exact h.onChannel u call' hu
    · intro call' hcall'
      cases hcall'
  wakeups := by
    have hpending := hp.waits
    rw [hcall] at hpending
    exact h.wakeups.complete h.good ht hpending hch hready hclean val
  resurrection := by
    refine (h.resurrection.wake hclean).of_same ?_ fun u hu => hu
    intro u hu
    by_cases hut : u = t
    · subst hut
      simpa using hu
    · simpa [hut] using hu

/-- What is kept of what was completed does not matter. -/
theorem Lively.ghost (h : s.Lively) (sent received : Nat → List V) (joined : List (Nat × V)) :
    { s with sent := sent, received := received, joined := joined }.Lively where
  good := h.good.ghost sent received joined
  onChannel := h.onChannel
  wakeups := by
    refine h.wakeups.of_same (fun _ => rfl) (fun _ _ => rfl) ?_ ?_
    · exact fun _ _ _ _ hl => ⟨hl.lt, hl.ended⟩
    · exact fun _ _ _ hw => ⟨⟨hw.live.lt, hw.live.ended⟩, hw.ready, hw.listed, hw.waits, hw.dequeued⟩
  resurrection := h.resurrection

theorem Lively.recvChannel (h : s.Lively) (ht : s.current = some t) (hp : s.Pending t (.recv n))
    (hclean : s.CleanCall (.recv n)) : (s.recvChannel t n).Lively := by
  rcases s.recvChannel_cases t n with ⟨hdata, heq⟩ | ⟨hdata, ch, hch, hready, heq⟩
  · rw [heq]
    exact h.block (i := .recv) ht rfl rfl hp (by simp [hdata, Side.ready])
  · rw [heq]
    exact (h.complete ht rfl hp hch hready (hclean hdata) _).ghost _ _ _

theorem Lively.sendChannel (h : s.Lively) (ht : s.current = some t) {val : V}
    (hp : s.Pending t (.send n val)) (hclean : s.CleanCall (.send n val)) :
    (s.sendChannel t n val).Lively := by
  rcases s.sendChannel_cases t n val with ⟨hdata, heq⟩ | ⟨hdata, ch, hch, hready, -, heq⟩
  · rw [heq]
    exact h.block (i := .send) ht rfl rfl hp (by simp [hdata, Side.ready])
  · rw [heq]
    exact (h.complete ht rfl hp hch hready (hclean hdata) _).ghost _ _ _

/-- Steps that change no channel and no call, and wake nobody. -/
theorem Lively.of_same (h : s.Lively) (hg : s'.Good)
    (hchans : ∀ n, s'.chans (.user n) = s.chans (.user n))
    (hcall : ∀ t call, (s'.threads t).call = some call → (s.threads t).call = some call)
    (hready : ∀ t, (s'.threads t).state = .Tready → s'.ended t = true →
      (s.threads t).state = .Tready ∧ s.ended t = true)
    (hlive : ∀ t < s.count, s'.ended t = false → s.ended t = false)
    (hwoken : ∀ i n t, s.Woken i n t → s'.Live t ∧ (s'.threads t).state = .Tready ∧
      t ∈ s'.listed ∧ s'.waits t = s.waits t) : s'.Lively := by
  have hwaiting : ∀ i n, s'.waiting i (.user n) = s.waiting i (.user n) := by
    intro i n
    simp [waiting, hchans]
  refine ⟨hg, ?_, ?_, ?_⟩
  · exact fun t call ht => h.onChannel t call (hcall t call ht)
  · refine h.wakeups.of_same (fun n => by rw [hchans]) hwaiting ?_ ?_
    · intro i n t ht hl
      have hlt := (h.good.ok.waiting i _ t ht).1
      exact ⟨hlt, hlive t hlt hl.ended⟩
    · intro i n t hw
      obtain ⟨hl, hst, hlisted, hwaits⟩ := hwoken i n t hw
      exact ⟨hl, hst, hlisted, hwaits.trans hw.waits, by
        rw [hwaiting]
        exact hw.dequeued⟩
  · intro t ht hst
    obtain ⟨hst', ht'⟩ := hready t hst ht
    exact h.resurrection t ht' hst'

/-- The list of the dispatcher and who runs play no part. -/
theorem Lively.of_sched (h : s.Lively) (hg : s'.Good) (hchans : s'.chans = s.chans)
    (hthreads : s'.threads = s.threads) (hcount : s'.count = s.count)
    (hended : s'.ended = s.ended) (hlisted : s'.listed = s.listed) : s'.Lively := by
  apply h.of_same hg
  · simp [hchans]
  · simp [hthreads]
  · rw [hthreads, hended]
    exact fun _ hst hend => ⟨hst, hend⟩
  · simp [hended]
  · intro i n t hw
    refine ⟨⟨hcount ▸ hw.live.lt, hended ▸ hw.live.ended⟩, ?_, ?_, ?_⟩
    · rw [hthreads]
      exact hw.ready
    · rw [hlisted]
      exact hw.listed
    · simp [waits, hthreads]

/-- A change to a thread that is neither its state nor its call. -/
theorem Lively.own (h : s.Lively) {thr : SchedThread V} (hg : (s.setThread t thr).Good)
    (hstate : thr.state = (s.threads t).state) (hcall : thr.call = (s.threads t).call) :
    (s.setThread t thr).Lively := by
  have hthread : ∀ u, ((s.setThread t thr).threads u).state = (s.threads u).state ∧
      ((s.setThread t thr).threads u).call = (s.threads u).call := by
    intro u
    by_cases hut : u = t
    · subst hut
      simp [hstate, hcall]
    · simp [hut]
  apply h.of_same hg (fun _ => rfl)
  · intro u call hu
    rwa [(hthread u).2] at hu
  · intro u hu hu'
    rw [(hthread u).1] at hu
    exact ⟨hu, hu'⟩
  · exact fun _ _ hu => hu
  · intro i n u hw
    refine ⟨⟨hw.live.lt, hw.live.ended⟩, ?_, hw.listed, ?_⟩
    · rw [(hthread u).1]
      exact hw.ready
    · rw [waits, (hthread u).2, waits]

theorem Lively.endThread (h : s.Lively) {state : ThreadState} (hg : (s.endThread t state).Good)
    (hdead : state.isDead = true) (hwoken : ∀ i n, ¬ s.Woken i n t) :
    (s.endThread t state).Lively := by
  have hother : ∀ u, u ≠ t → (s.endThread t state).threads u = s.threads u := by
    intro u hu
    simp [hu]
  have hcall : ∀ u, ((s.endThread t state).threads u).call = (s.threads u).call := by
    intro u
    by_cases hut : u = t
    · subst hut
      simp
    · simp [hut]
  apply h.of_same hg (fun _ => rfl)
  · intro u call hu
    rwa [hcall] at hu
  · intro u hu hu'
    by_cases hut : u = t
    · subst hut
      obtain rfl : state = .Tready := by simpa using hu
      simp [ThreadState.isDead] at hdead
    · rw [hother u hut] at hu
      exact ⟨hu, by simpa [hut] using hu'⟩
  · intro u _ hu
    simp only [endThread_ended, Bool.or_eq_false_iff] at hu
    exact hu.2
  · intro i n u hw
    have hut : u ≠ t := by
      rintro rfl
      exact hwoken i n hw
    refine ⟨⟨hw.live.lt, by simpa [hut] using hw.live.ended⟩, ?_, hw.listed, ?_⟩
    · rw [hother u hut]
      exact hw.ready
    · rw [waits, hcall, waits]

theorem Lively.killThread (h : s.Lively) (ht : s.current = some t) {u : Nat} (hu : u < s.count)
    (hcall : (s.threads t).call = none) {achan : Nat} (hclean : s.CleanKill achan u)
    (w : Values V) : (s.killThread w achan t u).Lively := by
  have hend := h.endThread (h.good.endThread hu rfl (.inl rfl)) rfl hclean.1
  have hcall' : ((s.endThread u .Tbroken).threads t).call = none := by
    by_cases htu : t = u
    · subst htu
      simpa using hcall
    · simpa [htu] using hcall
  unfold Sched.killThread
  dsimp only
  split
  · rename_i hacell
    have hacell' : (s.threads u).acell = true := by simpa using hacell
    have hset := hend.own (t := u) (hend.good.setAcell false) rfl rfl
    apply hset.recvChannel ht
    · left
      by_cases htu : t = u
      · subst htu
        simpa using hcall
      · simpa [htu] using hcall
    · exact hclean.2 hacell'
  · exact hend.own (hend.good.update ht rfl rfl) rfl rfl

theorem Lively.waiting_rv (h : s.Lively) (u : Nat) : s.waiting i (.rv u) = [] := by
  cases hq : s.waiting i (.rv u) with
  | nil => rfl
  | cons x xs =>
    have hwaits := (h.good.ok.waiting i _ x (hq ▸ List.mem_cons_self)).2.1
    obtain ⟨call, hcall, hw⟩ := Option.bind_eq_some_iff.mp hwaits
    have hchannel := h.onChannel x call hcall
    cases call with
    | recv n => simp [Call.waits] at hw
    | send n val => simp [Call.waits] at hw
    | join jthr => simp [Call.onChannel] at hchannel
    | recvRv c jthr => simp [Call.onChannel] at hchannel

theorem Lively.unlink (h : s.Lively) {w : Values V} (hg : (s.unlink w t).Good)
    (ht : t ∈ s.listed) (hhead : s.queue.head? = some t) (hdead : s.ended t = true) :
    (s.unlink w t).Lively := by
  obtain ⟨ch, -, -, -, heq⟩ := h.good.ok.unlink_eq ht w
  rw [h.waiting_rv, readied_nil] at heq
  dsimp only at heq
  have hthread : ∀ u, ((s.unlink w t).threads u).state = (s.threads u).state ∧
      ((s.unlink w t).threads u).call = (s.threads u).call := by
    intro u
    rw [heq]
    by_cases hut : u = t
    · subst hut
      simp
    · simp [hut]
  have hended : (s.unlink w t).ended = s.ended := by rw [heq]; rfl
  apply h.of_same hg
  · intro n
    rw [heq]
    simp
  · intro u call hu
    rwa [(hthread u).2] at hu
  · intro u hu hu'
    rw [(hthread u).1] at hu
    exact ⟨hu, hended ▸ hu'⟩
  · intro u _ hu
    rwa [hended] at hu
  · intro i n u hw
    have hut : u ≠ t := by
      rintro rfl
      exact absurd (hdead.symm.trans hw.live.ended) (by simp)
    have hcount : (s.unlink w t).count = s.count := by rw [heq]; rfl
    refine ⟨⟨hcount ▸ hw.live.lt, hended ▸ hw.live.ended⟩, ?_, ?_, ?_⟩
    · rw [(hthread u).1]
      exact hw.ready
    · have hlisted : (s.unlink w t).listed = s.passed ++ s.queue.tail := by rw [heq]; rfl
      rw [hlisted]
      rcases List.mem_append.mp hw.listed with hu | hu
      · exact List.mem_append_left _ hu
      · rw [← List.cons_head?_tail hhead] at hu
        exact List.mem_append_right _ (List.mem_of_ne_of_mem hut hu)
    · rw [waits, (hthread u).2, waits]

theorem Lively.newThread (h : s.Lively) (hg : s'.Good) (hcount : s'.count = s.count + 1)
    (hchans : s'.chans = s.chans)
    (hold : ∀ u, u ≠ s.count → s'.threads u = s.threads u ∧ s'.ended u = s.ended u)
    (hcall : (s'.threads s.count).call = none)
    (hready : (s'.threads s.count).state = .Tready → s'.ended s.count = false)
    (hlisted : ∀ u ∈ s.listed, u ∈ s'.listed) : s'.Lively := by
  apply h.of_same hg
  · simp [hchans]
  · intro u call hu
    by_cases hut : u = s.count
    · rw [hut, hcall] at hu
      cases hu
    · rwa [(hold u hut).1] at hu
  · intro u hu hu'
    by_cases hut : u = s.count
    · subst hut
      exact absurd (hu'.symm.trans (hready hu)) (by simp)
    · rw [(hold u hut).1] at hu
      rw [(hold u hut).2] at hu'
      exact ⟨hu, hu'⟩
  · intro u hu hlive
    rwa [(hold u (Nat.ne_of_lt hu)).2] at hlive
  · intro i n u hw
    obtain ⟨hthr, hended⟩ := hold u (Nat.ne_of_lt hw.live.lt)
    refine ⟨⟨?_, hended.trans hw.live.ended⟩, ?_, hlisted u hw.listed, ?_⟩
    · rw [hcount]
      exact Nat.lt_succ_of_lt hw.live.lt
    · rw [hthr]
      exact hw.ready
    · rw [waits, hthr, waits]

theorem Lively.resumeCall (h : s.Lively) (ht : s.current = some t) {w : Values V} {achan : Nat}
    {a : Act V} {call : Call V} (ha : SchedEvent.isJoin (.act a) = false)
    (hclean : s.CleanStep achan (.act a))
    (hcall : (s.threads t).call = some call ∧ a = .resume ∨
      (s.threads t).call = none ∧ call.act = some a ∧ ∀ jthr, a = .join jthr → jthr < s.count) :
    (s.resumeCall w t call).Lively := by
  have hpending : s.Pending t call := by
    rcases hcall with ⟨hc, -⟩ | ⟨hc, -⟩
    · exact .inr hc
    · exact .inl hc
  have hcalled : s.CleanCall call ∧ call.onChannel = true := by
    rcases hcall with ⟨hc, rfl⟩ | ⟨hc, hact, -⟩
    · exact ⟨hclean t call ht hc, h.onChannel t call hc⟩
    · cases call with
      | recv n =>
        obtain rfl := Option.some.inj hact
        exact ⟨hclean, rfl⟩
      | send n val =>
        obtain rfl := Option.some.inj hact
        exact ⟨hclean, rfl⟩
      | join jthr =>
        obtain rfl := Option.some.inj hact
        cases ha
      | recvRv c jthr => cases hact
  obtain ⟨hclean', hchannel⟩ := hcalled
  cases call with
  | recv n => exact h.recvChannel ht hpending hclean'
  | send n val => exact h.sendChannel ht hpending hclean'
  | join jthr => cases hchannel
  | recvRv c jthr => cases hchannel

/-- A clean step keeps wake-ups and wakes nobody who has ended. -/
theorem Lively.step {w : Values V} {achan : Nat} {e : SchedEvent V} (h : s.Lively)
    (he : e.isJoin = false) (hclean : s.CleanStep achan e) (hs : s.step w achan e = some s') :
    s'.Lively := by
  have hg := h.good.step hs
  cases step_stepped hs with
  | call call ht hcall => exact h.resumeCall ht he hclean hcall
  | own ht hstate _ hcall => exact h.own hg hstate hcall
  | kill ht hcall hlt => exact h.killThread ht hlt hcall hclean w
  | @ends t a state valr ht hcall hdead =>
    have hset : (s.setValr t valr).Lively := h.own (h.good.update ht rfl rfl) rfl rfl
    have hgood := hset.good.endThread (current_lt hset.good ht) hdead (.inr (hset.good.free t ht))
    have hend := hset.endThread hgood hdead fun i n hw => by
      have hw' := hw.waits
      simp [waits, hcall] at hw'
    exact hend.of_sched hg rfl rfl rfl rfl listed_leave
  | quantum => exact h.of_sched hg rfl rfl rfl rfl listed_leave
  | @spawn thunk =>
    refine h.newThread hg rfl rfl ?_ ?_ ?_ ?_
    · intro u hu
      simp [Sched.spawn, hu]
    · simp [Sched.spawn, Arcueid.newThread]
    · intro _
      exact (h.good.ok.fresh s.count (Nat.le_refl _)).2
    · intro u hu
      have hlist : (s.spawn thunk).listed = s.listed ++ [s.count] := by
        simp [Sched.spawn, Sched.listed]
      rw [hlist]
      exact List.mem_append_left _ hu
  | spawnDone =>
    refine h.newThread hg rfl rfl ?_ ?_ ?_ ?_
    · intro u hu
      simp [Sched.spawnDone, hu]
    · simp [Sched.spawnDone, Arcueid.newThread]
    · simp [Sched.spawnDone]
    · exact fun u hu => hu
  | pass hrun hq =>
    apply h.of_sched hg rfl rfl rfl rfl
    simp [Sched.listed, hq]
  | @unlink t hrun ht hdead =>
    exact h.unlink hg (List.mem_append_right _ (List.mem_of_mem_head? ht)) ht
      (h.good.ok.ended t hdead)
  | skip => exact h.of_sched hg rfl rfl rfl rfl listed_leave
  | resume hrun ht hstate => exact h.of_sched hg rfl rfl rfl rfl rfl

theorem Lively.run {w : Values V} {achan : Nat} {es : List (SchedEvent V)} (h : s.Lively)
    (he : ∀ e ∈ es, e.isJoin = false) (hclean : s.CleanRun w achan es)
    (hs : s.run w achan es = some s') : s'.Lively := by
  induction es generalizing s with
  | nil =>
    obtain rfl := Option.some.inj hs
    exact h
  | cons e es ih =>
    obtain ⟨m, hm, hrest⟩ := Option.bind_eq_some_iff.mp hs
    have hstep := h.step (he e List.mem_cons_self) hclean.1 hm
    exact ih hstep (fun e he' => he e (List.mem_cons_of_mem _ he')) (hclean.2 m hm) hrest

theorem Lively.init (w : Values V) : (arcInitThreads w).Lively := by
  refine ⟨.init w, ?_, ?_, ?_⟩
  · simp [arcInitThreads, Arcueid.newThread]
  · intro i n _ hwaits
    obtain ⟨t, ht, -⟩ := hwaits
    cases i <;> cases ht
  · intro t ht
    simp [arcInitThreads] at ht

end Sched

/-- In every state of a run whose steps are clean no wake-up is lost, and nobody
who has ended is ready. -/
theorem cleanRun_wakeups {V : Type} {w : Values V} {achan : Nat} {es : List (SchedEvent V)}
    {s : Sched V} (he : ∀ e ∈ es, e.isJoin = false)
    (hclean : (arcInitThreads w).CleanRun w achan es)
    (hs : (arcInitThreads w).run w achan es = some s) : s.NoLostWakeup ∧ s.NoResurrection := by
  have h := (Sched.Lively.init w).run he hclean hs
  exact ⟨h.wakeups, h.resurrection⟩

def plainValues : Values Nat := ⟨0, fun _ => none, id⟩

/-- A thread receives, another sends. -/
def wokenReceiver : List (SchedEvent Nat) :=
  [.spawn 0, .spawn 0, .visit, .act (.recv 1), .visit, .act (.send 1 7)]

theorem wokenReceiver_wakeups :
    ∃ s, (arcInitThreads plainValues).run plainValues 0 wokenReceiver = some s ∧
      (s.threads 0).state = .Tready ∧ s.NoLostWakeup ∧ s.NoResurrection := by
  have hready : ((arcInitThreads plainValues).run plainValues 0 wokenReceiver).map
      (fun s => (s.threads 0).state) = some .Tready := rfl
  obtain ⟨s, hs, hs'⟩ := Option.map_eq_some_iff.mp hready
  refine ⟨s, hs, hs', cleanRun_wakeups (by simp [wokenReceiver, SchedEvent.isJoin]) ?_ hs⟩
  refine ⟨trivial, fun _ hs => ?_⟩
  cases hs
  refine ⟨trivial, fun _ hs => ?_⟩
  cases hs
  refine ⟨trivial, fun _ hs => ?_⟩
  cases hs
  refine ⟨?_, fun _ hs => ?_⟩
  · intro hdata
    cases hdata
  cases hs
  refine ⟨trivial, fun _ hs => ?_⟩
  cases hs
  refine ⟨?_, fun _ hs => trivial⟩
  intro _ t ht
  cases ht
  rfl

/-- A thread that waits to receive is killed and unlinked; then a value is sent. -/
def killedReceiver : List (SchedEvent Nat) :=
  [.spawn 0, .spawn 0, .spawn 0, .visit, .act (.recv 1), .visit, .act (.recv 1),
    .visit, .act (.kill 0), .quantum, .pass, .visit, .visit, .visit, .act (.send 1 7)]

/-- The one that was killed is woken, and the other waits on. -/
theorem killedReceiver_lost :
    ∃ s, (arcInitThreads plainValues).run plainValues 0 killedReceiver = some s ∧
      (∀ e ∈ killedReceiver, e.isJoin = false) ∧ ¬ s.NoLostWakeup ∧ ¬ s.NoResurrection := by
  have hfacts : ((arcInitThreads plainValues).run plainValues 0 killedReceiver).map
      (fun s => ((s.chans (.user 1)).hasdata, s.waiting .recv (.user 1), s.count,
        s.ended 0, s.ended 1, (s.threads 0).state, (s.waits 2).isNone)) =
      some (true, [1], 3, true, false, .Tready, true) := rfl
  obtain ⟨s, hs, hs'⟩ := Option.map_eq_some_iff.mp hfacts
  simp only [Prod.mk.injEq] at hs'
  obtain ⟨hdata, hwaiting, hcount, hended, hlive, hready, hidle⟩ := hs'
  refine ⟨s, hs, by simp [killedReceiver, SchedEvent.isJoin], ?_, fun h => h 0 hended hready⟩
  intro h
  obtain ⟨t, ht⟩ := h .recv 1 hdata ⟨1, by simp [hwaiting], ⟨by omega, hlive⟩⟩
  have hlt := ht.live.lt
  rw [hcount] at hlt
  match t, hlt with
  | 0, _ => exact absurd (hended.symm.trans ht.live.ended) (by simp)
  | 1, _ => exact ht.dequeued (by simp [hwaiting])
  | 2, _ => simp [ht.waits] at hidle

end Arcueid
