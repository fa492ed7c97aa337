import Arcueid.ThreadsInvariant

/-! What is sent through a channel is received, once and in order. -/

namespace Arcueid

namespace Sched

variable {V : Type} {s s' : Sched V} {t n : Nat} {w : Values V} {achan : Nat}

/-- What a channel holds. -/
def held (s : Sched V) (n : Nat) : List V :=
  if (s.chans (.user n)).hasdata then [(s.chans (.user n)).data] else []

/-- What has been sent is what has been received and what is held. -/
def Ordered (s : Sched V) : Prop := ∀ n, s.sent n = s.received n ++ s.held n

/-- Neither data nor completed calls are different. -/
structure SameData (s s' : Sched V) : Prop where
  sent : s'.sent = s.sent
  received : s'.received = s.received
  hasdata : ∀ n, (s'.chans (.user n)).hasdata = (s.chans (.user n)).hasdata
  data : ∀ n, (s'.chans (.user n)).data = (s.chans (.user n)).data

theorem SameData.held (h : SameData s s') (n : Nat) : s'.held n = s.held n := by
  simp [Sched.held, h.hasdata, h.data]

theorem SameData.ordered (h : SameData s s') (ho : s.Ordered) : s'.Ordered := by
  intro n
  rw [h.sent, h.received, h.held]
  exact ho n

theorem SameData.of_eq (hsent : s'.sent = s.sent) (hreceived : s'.received = s.received)
    (hchans : s'.chans = s.chans) : SameData s s' :=
  ⟨hsent, hreceived, fun n => by rw [hchans], fun n => by rw [hchans]⟩

theorem held_setChan {c : ChanId} {ch : Chan V} :
    (s.setChan c ch).held n =
      if c = .user n then if ch.hasdata then [ch.data] else [] else s.held n := by
  by_cases hc : c = .user n
  · simp [held, hc]
  · simp [held, hc, Ne.symm hc]

theorem SameData.setChan {c : ChanId} {ch : Chan V} (hdata : ch.hasdata = (s.chans c).hasdata)
    (hval : ch.data = (s.chans c).data) : SameData s (s.setChan c ch) := by
  refine ⟨rfl, rfl, ?_, ?_⟩
  · intro n
    by_cases hc : .user n = c
    · simp [hc, hdata]
    · simp [hc]
  · intro n
    by_cases hc : .user n = c
    · simp [hc, hval]
    · simp [hc]

theorem SameData.enqueued (i : Side) (c : ChanId) (t : Nat) (state : ThreadState) (call : Call V) :
    SameData s ((s.setChan c (s.enqueued i c t)).block t state call) := by
  have h : SameData s (s.setChan c (s.enqueued i c t)) := by
    cases i <;> exact .setChan rfl rfl
  exact ⟨h.sent, h.received, h.hasdata, h.data⟩

theorem Ordered.recvChannel (h : s.Ordered) (t n : Nat) : (s.recvChannel t n).Ordered := by
  rcases s.recvChannel_cases t n with ⟨-, heq⟩ | ⟨hdata, ch, -, hempty, heq⟩
  · rw [heq]
    exact (SameData.enqueued ..).ordered h
  · rw [heq]
    intro m
    have hheld : ∀ r : Sched V, r.chans = (s.setChan (.user n) ch).chans →
        r.held m = if n = m then [] else s.held m := by
      intro r hr
      have hset : r.held m = (s.setChan (.user n) ch).held m := by simp [held, hr]
      simp [hset, held_setChan, hempty]
    rw [hheld _ (by funext d; simp)]
    by_cases hm : n = m
    · subst hm
      have hn : s.held n = [(s.chans (.user n)).data] := by simp [held, hdata]
      simpa [hn] using h n
    · simpa [hm, Ne.symm hm] using h m

theorem Ordered.sendChannel (h : s.Ordered) (t n : Nat) (val : V) :
    (s.sendChannel t n val).Ordered := by
  rcases s.sendChannel_cases t n val with ⟨-, heq⟩ | ⟨hdata, ch, -, hfull, hval, heq⟩
  · rw [heq]
    exact (SameData.enqueued ..).ordered h
  · rw [heq]
    intro m
    have hheld : ∀ r : Sched V, r.chans = (s.setChan (.user n) ch).chans →
        r.held m = if n = m then [val] else s.held m := by
      intro r hr
      have hset : r.held m = (s.setChan (.user n) ch).held m := by simp [held, hr]
      simp [hset, held_setChan, hfull, hval]
    rw [hheld _ (by funext d; simp)]
    by_cases hm : n = m
    · subst hm
      have hn : s.held n = [] := by simp [held, hdata]
      simpa [hn] using h n
    · simpa [hm, Ne.symm hm] using h m

theorem Ordered.recvRvchan (h : s.Ordered) (t : Nat) (c : ChanId) (jthr : Nat) :
    (s.recvRvchan t c jthr).Ordered := by
  unfold Sched.recvRvchan
  dsimp only
  split
  · exact (SameData.enqueued .recv c t ..).ordered h
  · exact (SameData.of_eq rfl rfl rfl).ordered h

theorem Ordered.resumeCall (h : s.Ordered) (w : Values V) (t : Nat) (call : Call V) :
    (s.resumeCall w t call).Ordered := by
  cases call with
  | recv n => exact h.recvChannel t n
  | send n val => exact h.sendChannel t n val
  | recvRv c jthr => exact h.recvRvchan t c jthr
  | join jthr =>
    simp only [Sched.resumeCall, Sched.joinThread]
    split
    · exact h.recvRvchan t _ jthr
    · split
      · exact h.recvRvchan t _ jthr
      · exact (SameData.of_eq rfl rfl rfl).ordered h

theorem Ordered.unlink (hg : s.Good) (h : s.Ordered) (ht : t ∈ s.listed) (w : Values V) :
    (s.unlink w t).Ordered := by
  obtain ⟨ch, -, -, -, heq⟩ := hg.ok.unlink_eq ht w
  rw [heq]
  apply SameData.ordered ⟨rfl, rfl, fun n => ?_, fun n => ?_⟩ h
  · simp
  · simp

theorem Ordered.step {e : SchedEvent V} (hg : s.Good) (h : s.Ordered)
    (hs : s.step w achan e = some s') : s'.Ordered := by
  cases step_stepped hs with
  | call call => exact h.resumeCall w _ call
  | own => exact (SameData.of_eq rfl rfl rfl).ordered h
  | kill =>
    unfold Sched.killThread
    dsimp only
    split
    · apply Ordered.recvChannel
      exact (SameData.of_eq rfl rfl rfl).ordered h
    · exact (SameData.of_eq rfl rfl rfl).ordered h
  | ends => exact (SameData.of_eq rfl rfl rfl).ordered h
  | quantum => exact (SameData.of_eq rfl rfl rfl).ordered h
  | spawn => exact (SameData.of_eq rfl rfl rfl).ordered h
  | spawnDone => exact (SameData.of_eq rfl rfl rfl).ordered h
  | pass => exact (SameData.of_eq rfl rfl rfl).ordered h
  | unlink _ ht => exact h.unlink hg (List.mem_append_right _ (List.mem_of_mem_head? ht)) w
  | skip => exact (SameData.of_eq rfl rfl rfl).ordered h
  | resume => exact (SameData.of_eq rfl rfl rfl).ordered h

theorem Ordered.run {es : List (SchedEvent V)} (hg : s.Good) (h : s.Ordered)
    (hs : s.run w achan es = some s') : s'.Ordered := by
  induction es generalizing s with
  | nil =>
    obtain rfl := Option.some.inj hs
    exact h
  | cons e es ih =>
    obtain ⟨m, hm, hrest⟩ := Option.bind_eq_some_iff.mp hs
    exact ih (hg.step hm) (h.step hg hm) hrest

end Sched

/-- In every state of every run, what has been received from a channel is a
prefix of what has been sent, and what is missing is what the channel holds. -/
theorem received_prefix_sent {V : Type} {w : Values V} {achan : Nat} {es : List (SchedEvent V)}
    {s : Sched V} (hs : (arcInitThreads w).run w achan es = some s) (n : Nat) :
    s.received n <+: s.sent n ∧ s.sent n = s.received n ++ s.held n ∧ (s.held n).length ≤ 1 := by
  have hinit : (arcInitThreads w).Ordered := by
    intro n
    rfl
  have h := hinit.run (.init w) hs n
  refine ⟨⟨s.held n, h.symm⟩, h, ?_⟩
  unfold Sched.held
  split <;> simp

def numValues : Values Nat := ⟨0, fun _ => none, id⟩

/-- A third thread gets in between a wake-up and the retry. -/
def overtaken : List (SchedEvent Nat) :=
  [.spawn 0, .spawn 0, .spawn 0,
    .visit, .act (.recv 1),
    .visit, .act (.send 1 7), .act (.send 1 8),
    .visit, .act (.recv 1), .quantum, .pass,
    .visit, .act .resume,
    .visit, .act .resume, .quantum,
    .visit, .quantum, .pass,
    .visit, .act .resume]

theorem overtaken_prefix : ∃ s, (arcInitThreads numValues).run numValues 0 overtaken = some s ∧
    s.received 1 = [7, 8] ∧
    s.received 1 <+: s.sent 1 ∧ s.sent 1 = s.received 1 ++ s.held 1 ∧ (s.held 1).length ≤ 1 := by
  have hreceived : ((arcInitThreads numValues).run numValues 0 overtaken).map
      (fun s => s.received 1) = some [7, 8] := rfl
  obtain ⟨s, hs, hs'⟩ := Option.map_eq_some_iff.mp hreceived
  exact ⟨s, hs, hs', received_prefix_sent hs 1⟩

end Arcueid
