import Arcueid.ThreadsInvariant

/-! `join-thread`: the threads that wait for another to end are woken when the
dispatcher unlinks it, and find its value where its channel was. -/

namespace Arcueid

/-- The thread that a call waits for. -/
def Call.joins {V : Type} : Call V → Option Nat
  | .recv _ => none
  | .send _ _ => none
  | .join jthr => some jthr
  | .recvRv _ jthr => some jthr

namespace Sched

variable {V : Type} {s s' : Sched V} {t n : Nat} {i : Side} {c : ChanId} {w : Values V}

/-- In the middle of a join on a thread. -/
def Joins (s : Sched V) (j t : Nat) : Prop := (s.threads j).call.bind Call.joins = some t

/-- Who joins a thread that was unlinked can run. -/
def JoinsReady (s : Sched V) : Prop :=
  ∀ t v, s.removed t = some v → ∀ j < s.count, s.ended j = false → s.Joins j t →
    (s.threads j).state = .Tready ∧ j ∈ s.listed

/-- What a join has returned is what the thread had left. -/
def JoinsReturn (s : Sched V) : Prop := ∀ p ∈ s.joined, s.removed p.1 = some p.2

/-- The value that a thread left is not taken for its channel. -/
def CleanJoin (w : Values V) (s : Sched V) (jthr : Nat) : Prop :=
  ∀ v, (s.threads jthr).rvch = some v → w.chanOf v = none

def JoinClean (w : Values V) (s : Sched V) : SchedEvent V → Prop
  | .act (.join jthr) => s.CleanJoin w jthr
  | .act .resume => ∀ t jthr, s.current = some t → (s.threads t).call = some (.join jthr) →
      s.CleanJoin w jthr
  | _ => True

/-- Every join of a run is clean. -/
def JoinCleanRun (w : Values V) (achan : Nat) : Sched V → List (SchedEvent V) → Prop
  | _, [] => True
  | s, e :: es => s.JoinClean w e ∧ ∀ s', s.step w achan e = some s' → JoinCleanRun w achan s' es

structure Served (s : Sched V) : Prop where
  good : s.Good
  lt_count : ∀ j t, s.Joins j t → t < s.count
  own : ∀ j c t, (s.threads j).call = some (.recvRv c t) →
    c = .rv t ∧ (s.removed t = none ∨ (s.chans (.rv t)).hasdata = true)
  empty : ∀ t, s.removed t ≠ none → s.waiting .recv (.rv t) = []
  log : s.JoinsReturn

/-- Nobody is left in the queue of a thread that was unlinked. -/
theorem Served.ready (h : s.Served) : s.JoinsReady := by
  intro t v hv j hj hlive hjoins
  refine ⟨?_, h.good.ok.live_listed j hj hlive⟩
  have hdead : (s.threads j).state.isDead = false := by
    cases hd : (s.threads j).state.isDead with
    | false => rfl
    | true => exact absurd ((h.good.ok.ended j hd).symm.trans hlive) (by simp)
  have hblocked : ∀ i : Side, (s.threads j).state ≠ i.state := by
    intro i hi
    obtain ⟨c, hwaits, hmem⟩ := h.good.ok.blocked j i hi
    obtain ⟨call, hcall, hjoins⟩ := Option.bind_eq_some_iff.mp hjoins
    cases call with
    | recv n => cases hjoins
    | send n val => cases hjoins
    | join jthr => simp [waits, hcall, Call.waits] at hwaits
    | recvRv c' jthr =>
      obtain rfl := Option.some.inj hjoins
      obtain ⟨rfl, -⟩ := h.own j c' jthr hcall
      simp only [waits, hcall, Call.waits, Option.bind_some, Option.some.injEq,
        Prod.mk.injEq] at hwaits
      obtain ⟨rfl, rfl⟩ := hwaits
      rw [h.empty jthr (by simp [hv])] at hmem
      cases hmem
  cases hst : (s.threads j).state with
  | Tready => rfl
  | Tsend => exact absurd hst (hblocked .send)
  | Trecv => exact absurd hst (hblocked .recv)
  | Trelease => simp [hst, ThreadState.isDead] at hdead
  | Tbroken => simp [hst, ThreadState.isDead] at hdead

theorem Served.of_same (h : s.Served) (hg : s'.Good)
    (hchans : ∀ t, s'.chans (.rv t) = s.chans (.rv t)) (hremoved : s'.removed = s.removed)
    (hjoined : s'.joined = s.joined) (hcount : s.count ≤ s'.count)
    (hcall : ∀ j, (s'.threads j).call.bind Call.joins ≠ none →
      (s'.threads j).call = (s.threads j).call) : s'.Served where
  good := hg
  lt_count := by
    intro j t hj
    have hsame := hcall j (by rw [hj]; simp)
    exact Nat.lt_of_lt_of_le (h.lt_count j t (by rw [Joins, ← hsame]; exact hj)) hcount
  own := by
    intro j c t hj
    have hsame := hcall j (by rw [hj]; simp [Call.joins])
    rw [hremoved, hchans]
    exact h.own j c t (hsame.symm.trans hj)
  empty := by
    intro t ht
    rw [waiting, hchans]
    exact h.empty t (hremoved ▸ ht)
  log := by
    intro p hp
    rw [hremoved]
    exact h.log p (hjoined ▸ hp)

theorem call_setThread {thr : SchedThread V} (hthr : thr.call.bind Call.joins = none) {j : Nat}
    (hj : ((s.setThread t thr).threads j).call.bind Call.joins ≠ none) :
    ((s.setThread t thr).threads j).call = (s.threads j).call := by
  by_cases hjt : j = t
  · exact absurd hthr (by simpa [hjt] using hj)
  · simp [hjt]

theorem Served.recvChannel (h : s.Served) (ht : s.current = some t) :
    (s.recvChannel t n).Served := by
  have hg := h.good.recvChannel (n := n) ht
  rcases s.recvChannel_cases t n with ⟨-, heq⟩ | ⟨-, ch, -, -, heq⟩
  · rw [heq] at hg ⊢
    exact h.of_same hg (fun u => by simp) rfl rfl (Nat.le_refl _)
      fun j hj => call_setThread rfl hj
  · rw [heq] at hg ⊢
    refine h.of_same hg (fun u => by simp) (removed_wake _) (joined_wake _) (by simp)
      fun j hj => ?_
    have hcall := call_setThread rfl hj
    rwa [call_wake] at hcall

theorem Served.sendChannel (h : s.Served) (ht : s.current = some t) {val : V} :
    (s.sendChannel t n val).Served := by
  have hg : (s.sendChannel t n val).Good := h.good.sendChannel ht
  rcases s.sendChannel_cases t n val with ⟨-, heq⟩ | ⟨-, ch, -, -, -, heq⟩
  · rw [heq] at hg ⊢
    exact h.of_same hg (fun u => by simp) rfl rfl (Nat.le_refl _)
      fun j hj => call_setThread rfl hj
  · rw [heq] at hg ⊢
    refine h.of_same hg (fun u => by simp) (removed_wake _) (joined_wake _) (by simp)
      fun j hj => ?_
    have hcall := call_setThread rfl hj
    rwa [call_wake] at hcall

/-- A change of a thread that takes no part in a join. -/
theorem Served.update (h : s.Served) {thr : SchedThread V} (hg : (s.setThread t thr).Good)
    (hthr : thr.call.bind Call.joins = none ∨ thr.call = (s.threads t).call) :
    (s.setThread t thr).Served := by
  apply h.of_same hg (fun _ => rfl) rfl rfl (Nat.le_refl _)
  intro j hj
  rcases hthr with hthr | hthr
  · exact call_setThread hthr hj
  · by_cases hjt : j = t
    · simp [hjt, hthr]
    · simp [hjt]

theorem lt_count_setThread (h : s.Served) {thr : SchedThread V} {jthr : Nat}
    (hthr : thr.call.bind Call.joins = some jthr) (hlt : jthr < s.count) (j u : Nat)
    (hj : (s.setThread t thr).Joins j u) : u < s.count := by
  by_cases hjt : j = t
  · have hu : some jthr = some u := by simpa [Joins, hjt, hthr] using hj
    exact Option.some.inj hu ▸ hlt
  · exact h.lt_count j u (by simpa [Joins, hjt] using hj)

/-- A thread waits for one that has not been unlinked. -/
theorem Served.enqueue (h : s.Served) (ht : s.current = some t) {jthr : Nat}
    (hlt : jthr < s.count) (hnone : s.removed jthr = none) :
    ((s.setChan (.rv jthr) (s.enqueued .recv (.rv jthr) t)).block t .Trecv
      (.recvRv (.rv jthr) jthr)).Served where
  good := h.good.enqueue (i := .recv) ht rfl
  lt_count := lt_count_setThread h rfl hlt
  own := by
    intro j c u hj
    by_cases hjt : j = t
    · have hcall : (.recvRv (.rv jthr) jthr : Call V) = .recvRv c u := by simpa [hjt] using hj
      cases hcall
      exact ⟨rfl, .inl hnone⟩
    · obtain ⟨hc, hrv⟩ := h.own j c u (by simpa [hjt] using hj)
      refine ⟨hc, hrv.imp id fun hdata => ?_⟩
      by_cases hu : u = jthr
      · subst hu
        simpa [enqueued, Chan.setWaiting] using hdata
      · simpa [hu] using hdata
  empty := by
    intro u hu
    have hne : u ≠ jthr := by
      rintro rfl
      exact hu hnone
    have hempty := h.empty u hu
    simpa [waiting, hne] using hempty
  log := h.log

/-- Waiting for a thread, or finding that it has been unlinked. -/
theorem Served.recvRvchan (h : s.Served) (ht : s.current = some t) {jthr : Nat}
    (hlt : jthr < s.count)
    (hrv : s.removed jthr = none ∨ (s.chans (.rv jthr)).hasdata = true) :
    (s.recvRvchan t (.rv jthr) jthr).Served := by
  have hg := h.good.recvRvchan (c := .rv jthr) ht jthr
  cases hdata : (s.chans (.rv jthr)).hasdata with
  | false =>
    have hnone : s.removed jthr = none := by
      rcases hrv with hrv | hrv
      · exact hrv
      · exact absurd (hdata.symm.trans hrv) (by simp)
    have hblock := h.enqueue ht hlt hnone
    have heq : s.recvRvchan t (.rv jthr) jthr = _ := if_pos hdata
    rw [heq]
    exact hblock
  | true =>
    have heq : s.recvRvchan t (.rv jthr) jthr = s.setThread t { s.threads t with
        valr := (s.chans (.rv jthr)).data, call := some (.join jthr) } := if_neg (by simp [hdata])
    rw [heq] at hg ⊢
    refine ⟨hg, lt_count_setThread h rfl hlt, ?_, h.empty, h.log⟩
    intro j c u hj
    by_cases hjt : j = t
    · simp [hjt] at hj
    · exact h.own j c u (by simpa [hjt] using hj)

theorem Served.joinThread (h : s.Served) (ht : s.current = some t) {jthr : Nat}
    (hlt : jthr < s.count) (hclean : s.CleanJoin w jthr) : (s.joinThread w t jthr).Served := by
  have hg := h.good.joinThread ht w jthr
  have hremoved := h.good.ok.removed jthr
  unfold Sched.joinThread at hg ⊢
  cases hrv : (s.threads jthr).rvch with
  | none =>
    rw [hrv] at hremoved
    exact h.recvRvchan ht hlt (.inl hremoved.symm)
  | some v =>
    simp only [hrv, hclean v hrv] at hg ⊢
    have hset : (s.areturn t v).Served := h.update (h.good.areturn ht) (.inl rfl)
    refine ⟨hg, hset.lt_count, hset.own, hset.empty, ?_⟩
    intro p hp
    rcases List.mem_append.mp hp with hp | hp
    · exact h.log p hp
    · obtain rfl := List.mem_singleton.mp hp
      exact hremoved.symm.trans hrv

theorem Served.unlink (h : s.Served) (hg : (s.unlink w t).Good) (ht : t ∈ s.listed) :
    (s.unlink w t).Served := by
  obtain ⟨ch, hch, hdata, -, heq⟩ := h.good.ok.unlink_eq ht w
  have hnone : s.removed t = none :=
    (h.good.ok.removed t).symm.trans (h.good.ok.listed_rvch t ht)
  have hthread : ∀ u, ((s.unlink w t).threads u).call = (s.threads u).call := by
    intro u
    rw [heq]
    by_cases hut : u = t
    · subst hut
      by_cases hq : u ∈ s.waiting .recv (.rv u) <;> simp [hq]
    · by_cases hq : u ∈ s.waiting .recv (.rv t) <;> simp [hut, hq]
  have hremoved : ∀ u, (s.unlink w t).removed u =
      if u = t then some (s.threads t).valr else s.removed u := by
    intro u
    rw [heq]
  have hchans : ∀ u, (s.unlink w t).chans (.rv u) = if u = t then ch else s.chans (.rv u) := by
    intro u
    rw [heq]
    simp
  have hcount : (s.unlink w t).count = s.count := by rw [heq]; rfl
  have hjoined : (s.unlink w t).joined = s.joined := by rw [heq]; rfl
  constructor
  · exact hg
  · intro j u hj
    rw [Joins, hthread] at hj
    rw [hcount]
    exact h.lt_count j u hj
  · intro j c u hj
    rw [hthread] at hj
    obtain ⟨hc, hrv⟩ := h.own j c u hj
    rw [hremoved, hchans]
    refine ⟨hc, ?_⟩
    by_cases hut : u = t
    · simp [hut, hdata]
    · simpa [hut] using hrv
  · intro u hu
    rw [hremoved] at hu
    rw [waiting, hchans]
    by_cases hut : u = t
    · simpa [hut] using hch .recv
    · simpa [hut, waiting] using h.empty u (by simpa [hut] using hu)
  · intro p hp
    rw [hjoined] at hp
    have hold := h.log p hp
    have hne : p.1 ≠ t := by
      intro hpt
      rw [hpt, hnone] at hold
      cases hold
    rw [hremoved]
    simpa [hne] using hold

theorem Served.spawnDone (h : s.Served) (valr : V) : (s.spawnDone valr).Served := by
  have hfresh := (h.good.ok.fresh s.count (Nat.le_refl _)).1
  have hthread : ∀ j, ((s.spawnDone valr).threads j).call.bind Call.joins ≠ none →
      ((s.spawnDone valr).threads j).call = (s.threads j).call := by
    intro j hj
    by_cases hjc : j = s.count
    · simp [Sched.spawnDone, newThread, hjc] at hj
    · simp [Sched.spawnDone, hjc]
  have hremoved : ∀ u, (s.spawnDone valr).removed u =
      if u = s.count then some valr else s.removed u := fun u => rfl
  constructor
  · exact h.good.spawnDone valr
  · intro j u hj
    have hsame := hthread j (by rw [hj]; simp)
    exact Nat.lt_succ_of_lt (h.lt_count j u (by rw [Joins, ← hsame]; exact hj))
  · intro j c u hj
    have hsame := hthread j (by rw [hj]; simp [Call.joins])
    have hold := hsame.symm.trans hj
    have hlt := h.lt_count j u (by rw [Joins, hold]; rfl)
    rw [hremoved, if_neg (Nat.ne_of_lt hlt)]
    exact h.own j c u hold
  · intro u hu
    by_cases hut : u = s.count
    · show s.waiting .recv (.rv u) = []
      cases hq : s.waiting .recv (.rv u) with
      | nil => rfl
      | cons x xs =>
        have hwaits := (h.good.ok.waiting _ _ x (hq ▸ List.mem_cons_self)).2.1
        obtain ⟨call, hcall, hw⟩ := Option.bind_eq_some_iff.mp hwaits
        cases call with
        | recv n => simp [Call.waits] at hw
        | send n val => simp [Call.waits] at hw
        | join jthr => simp [Call.waits] at hw
        | recvRv c jthr =>
          have hlt := h.lt_count x jthr (by rw [Joins, hcall]; rfl)
          obtain ⟨rfl, -⟩ := h.own x c jthr hcall
          simp only [Call.waits, Option.some.injEq, Prod.mk.injEq, ChanId.rv.injEq] at hw
          omega
    · exact h.empty u (by simpa [hremoved, hut] using hu)
  · intro p hp
    have hold := h.log p hp
    have hne : p.1 ≠ s.count := by
      intro hpt
      rw [hpt, hfresh] at hold
      cases hold
    rw [hremoved]
    simpa [hne] using hold

theorem Served.resumeCall (h : s.Served) (ht : s.current = some t) {a : Act V} {call : Call V}
    (hclean : s.JoinClean w (.act a))
    (hcall : (s.threads t).call = some call ∧ a = .resume ∨
      (s.threads t).call = none ∧ call.act = some a ∧ ∀ jthr, a = .join jthr → jthr < s.count) :
    (s.resumeCall w t call).Served := by
  cases call with
  | recv n => exact h.recvChannel ht
  | send n val => exact h.sendChannel ht
  | join jthr =>
    rcases hcall with ⟨hc, rfl⟩ | ⟨-, hact, hlt⟩
    · exact h.joinThread ht (h.lt_count t jthr (by rw [Joins, hc]; rfl)) (hclean t jthr ht hc)
    · obtain rfl := Option.some.inj hact
      exact h.joinThread ht (hlt jthr rfl) hclean
  | recvRv c jthr =>
    rcases hcall with ⟨hc, -⟩ | ⟨-, hact, -⟩
    · obtain ⟨rfl, hrv⟩ := h.own t c jthr hc
      exact h.recvRvchan ht (h.lt_count t jthr (by rw [Joins, hc]; rfl)) hrv
    · cases hact

theorem Served.endThread (h : s.Served) {state : ThreadState} (hg : (s.endThread t state).Good) :
    (s.endThread t state).Served := by
  refine h.of_same hg (fun _ => rfl) rfl rfl (Nat.le_refl _) ?_
  intro j _
  by_cases hjt : j = t
  · simp [hjt]
  · simp [hjt]

theorem Served.killThread (h : s.Served) (ht : s.current = some t) {u : Nat} (hu : u < s.count)
    (achan : Nat) : (s.killThread w achan t u).Served := by
  have hend := h.endThread (h.good.endThread hu rfl (.inl rfl))
  unfold Sched.killThread
  dsimp only
  split
  · exact (hend.update (hend.good.setAcell false) (.inr rfl)).recvChannel ht
  · exact hend.update (hend.good.update ht rfl rfl) (.inr rfl)

theorem Served.step {achan : Nat} {e : SchedEvent V} (h : s.Served) (hclean : s.JoinClean w e)
    (hs : s.step w achan e = some s') : s'.Served := by
  have hg := h.good.step hs
  have hsched : s'.chans = s.chans → s'.removed = s.removed → s'.joined = s.joined →
      s'.count = s.count → s'.threads = s.threads → s'.Served := by
    intro hchans hremoved hjoined hcount hthreads
    exact h.of_same hg (fun _ => by rw [hchans]) hremoved hjoined (Nat.le_of_eq hcount.symm)
      fun j _ => by rw [hthreads]
  cases step_stepped hs with
  | call call ht hcall => exact h.resumeCall ht hclean hcall
  | own ht hstate _ hcall => exact h.update hg (.inr hcall)
  | kill ht hcall hlt => exact h.killThread ht hlt achan
  | @ends t a state valr ht hcall hdead =>
    refine h.of_same hg (fun _ => rfl) rfl rfl (Nat.le_refl _) fun j hj => ?_
    by_cases hjt : j = t
    · simp [hjt]
    · simp [hjt]
  | quantum => exact hsched rfl rfl rfl rfl rfl
  | spawn =>
    refine h.of_same hg (fun _ => rfl) rfl rfl (Nat.le_succ _) fun j hj => ?_
    by_cases hjc : j = s.count
    · simp [Sched.spawn, newThread, hjc] at hj
    · simp [Sched.spawn, hjc]
  | spawnDone => exact h.spawnDone _
  | pass => exact hsched rfl rfl rfl rfl rfl
  | unlink hrun ht => exact h.unlink hg (List.mem_append_right _ (List.mem_of_mem_head? ht))
  | skip => exact hsched rfl rfl rfl rfl rfl
  | resume => exact hsched rfl rfl rfl rfl rfl

theorem Served.run {achan : Nat} {es : List (SchedEvent V)} (h : s.Served)
    (hclean : s.JoinCleanRun w achan es) (hs : s.run w achan es = some s') : s'.Served := by
  induction es generalizing s with
  | nil =>
    obtain rfl := Option.some.inj hs
    exact h
  | cons e es ih =>
    obtain ⟨m, hm, hrest⟩ := Option.bind_eq_some_iff.mp hs
    exact ih (h.step hclean.1 hm) (hclean.2 m hm) hrest

theorem Served.init (w : Values V) : (arcInitThreads w).Served := by
  have hcall : ∀ j : Nat, ((arcInitThreads w).threads j).call = none := fun _ => rfl
  constructor
  · exact .init w
  · intro j t hj
    simp [Joins, hcall] at hj
  · intro j c t hj
    simp [hcall] at hj
  · intro t _
    rfl
  · intro p hp
    cases hp

/-- A thread that goes on with a join on one that was unlinked completes it. -/
theorem Served.completes (h : s.Served) {jthr : Nat} {v : V} (hjoins : s.Joins t jthr)
    (hv : s.removed jthr = some v) (hclean : w.chanOf v = none) :
    (∃ c, (s.threads t).call = some (.recvRv c jthr) ∧
        ((s.recvRvchan t c jthr).threads t).call = some (.join jthr)) ∨
      (s.threads t).call = some (.join jthr) ∧
        s.joinThread w t jthr = (s.areturn t v).didJoin jthr v := by
  obtain ⟨call, hcall, hj⟩ := Option.bind_eq_some_iff.mp hjoins
  cases call with
  | recv n => cases hj
  | send n val => cases hj
  | join j =>
    obtain rfl := Option.some.inj hj
    right
    refine ⟨hcall, ?_⟩
    have hrvch := (h.good.ok.removed j).trans hv
    simp only [Sched.joinThread, hrvch, hclean]
  | recvRv c j =>
    obtain rfl := Option.some.inj hj
    left
    obtain ⟨rfl, hrv⟩ := h.own t c j hcall
    have hdata : (s.chans (.rv j)).hasdata = true := hrv.resolve_left (by simp [hv])
    refine ⟨_, hcall, ?_⟩
    simp [Sched.recvRvchan, hdata]

end Sched

/-- In every state of a run whose joins are clean, whoever joins a thread that
was unlinked can run, and every completed join has returned its value. -/
theorem joinCleanRun_served {V : Type} {w : Values V} {achan : Nat} {es : List (SchedEvent V)}
    {s : Sched V} (hclean : (arcInitThreads w).JoinCleanRun w achan es)
    (hs : (arcInitThreads w).run w achan es = some s) : s.JoinsReady ∧ s.JoinsReturn := by
  have h := (Sched.Served.init w).run hclean hs
  exact ⟨h.ready, h.log⟩

/-- Numbers; those from 100 on are channels. -/
def chanValues : Values Nat := ⟨0, fun v => if 100 ≤ v then some (v - 100) else none, id⟩

/-- One thread joins another before it ends and again after. -/
def joinedTwice : List (SchedEvent Nat) :=
  [.spawn 0, .spawn 0, .visit, .act (.join 1), .visit, .act (.finish 7), .pass, .visit, .visit,
    .pass, .visit, .act .resume, .act .resume, .act (.join 1)]

theorem joinedTwice_served :
    ∃ s, (arcInitThreads chanValues).run chanValues 0 joinedTwice = some s ∧
      s.joined = [(1, 7), (1, 7)] ∧ s.JoinsReady ∧ s.JoinsReturn := by
  have hjoined : ((arcInitThreads chanValues).run chanValues 0 joinedTwice).map Sched.joined =
      some [(1, 7), (1, 7)] := rfl
  obtain ⟨s, hs, hs'⟩ := Option.map_eq_some_iff.mp hjoined
  refine ⟨s, hs, hs', joinCleanRun_served ?_ hs⟩
  iterate 3
    refine ⟨trivial, fun _ hs => ?_⟩
    cases hs
  refine ⟨?_, fun _ hs => ?_⟩
  · intro v hv
    cases hv
  cases hs
  iterate 7
    refine ⟨trivial, fun _ hs => ?_⟩
    cases hs
  -- woken, and then going around the loop of the join
  refine ⟨?_, fun _ hs => ?_⟩
  · intro t jthr ht hcall
    cases ht
    cases hcall
  cases hs
  refine ⟨?_, fun _ hs => ?_⟩
  · intro t jthr ht hcall v hv
    cases ht
    cases hcall
    cases hv
    rfl
  cases hs
  refine ⟨?_, fun _ _ => trivial⟩
  intro v hv
  cases hv
  rfl

/-- A thread that returns a channel is joined after it was unlinked. -/
def joinedChannel : List (SchedEvent Nat) :=
  [.spawn 0, .spawn 0, .visit, .quantum, .visit, .act (.finish 101), .pass, .visit, .quantum,
    .visit, .pass, .visit, .act (.join 1)]

/-- The one that joins waits for the channel. -/
theorem joinedChannel_stuck :
    ∃ s, (arcInitThreads chanValues).run chanValues 0 joinedChannel = some s ∧
      ¬ s.JoinsReady := by
  have hfacts : ((arcInitThreads chanValues).run chanValues 0 joinedChannel).map
      (fun s => (s.removed 1, (s.threads 0).call.bind Call.joins, s.count, s.ended 0,
        (s.threads 0).state)) = some (some 101, some 1, 2, false, .Trecv) := rfl
  obtain ⟨s, hs, hs'⟩ := Option.map_eq_some_iff.mp hfacts
  simp only [Prod.mk.injEq] at hs'
  obtain ⟨hremoved, hjoins, hcount, hlive, hstate⟩ := hs'
  refine ⟨s, hs, fun h => ?_⟩
  obtain ⟨hready, -⟩ := h 1 101 hremoved 0 (by omega) hlive hjoins
  rw [hstate] at hready
  cases hready

end Arcueid
