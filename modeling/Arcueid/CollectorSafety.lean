import Arcueid.CollectorInvariant

/-! Slices of the collector, and whole runs. Two things can lose a block: a pop
from a thread that is not scanned yet, and the deepest stack slot, which
`thread_marker` leaves out. -/

namespace Arcueid

variable {buckets : Nat → Nat × Nat}

section Conditions

variable (buckets : Nat → Nat × Nat) (h : Memory)

/-- The pop is from a scanned thread, or the marker still comes to all that the
popped value leads to and that is still in use. -/
def PopGuarded (t : Nat) : Prop :=
  Black h t ∨ ∀ b, Tricolour.From (Edge buckets h) (· ∈ targets buckets (h.popped t)) b →
    Held buckets (h.pop t) b → Guarded buckets (h.pop t) b

/-- No block is reachable through a deepest stack slot only. -/
def AllVisible : Prop :=
  ∀ b, Reachable buckets h b → Tricolour.From (VisibleEdge buckets h) (Root buckets h) b

/-- A pop is guarded, and an epoch ends only while all is visible. -/
def Careful : Action → Prop
  | .pop t => PopGuarded buckets h t
  | .gc quantum => (h.gcSlice buckets quantum).gccolour ≠ h.gccolour → AllVisible buckets h
  | _ => True

inductive CarefulRun (start : Memory) : Memory → Prop
  | refl : CarefulRun start start
  | step {h : Memory} (a : Action) : CarefulRun start h → Enabled buckets h a →
      Careful buckets h a → CarefulRun start (apply buckets h a)

end Conditions

section Pop

variable {h : Memory} {b t : Nat}

theorem Inv.pop (hi : Inv buckets h) (ht : Held buckets h t) (hth : IsThread h t)
    (hpop : PopGuarded buckets h t) : Inv buckets (h.pop t) := by
  obtain ⟨regs, slots, tstack, hc⟩ := hth
  have hts := hi.1.tstack_held ht hc
  have hm := mutated_stack slots.tail tstack ht hc hts fun w hw => .inl (List.mem_of_mem_tail hw)
  have heq : h.pop t = { h with
      contents := Function.update h.contents t (.thread regs slots.tail tstack) } := by
    rw [Memory.pop, hc]
    rfl
  rw [PopGuarded] at hpop
  rw [heq] at hpop ⊢
  refine ⟨hi.1.mutated hm, ?_⟩
  rcases hpop with hblack | hpop
  · exact hi.2.mutated hi.1 hm fun hn => absurd hblack hn
  · intro b hb
    by_cases hled : Tricolour.From (Edge buckets h) (· ∈ targets buckets (h.popped t)) b
    · exact hpop b hled hb
    · refine (hi.2 b (hm.held_of hb)).imp_right fun hfound => ?_
      have hkept : ∀ x y, VisibleEdge buckets h x y → y ∈ targets buckets (h.popped t) ∨
          VisibleEdge buckets { h with
            contents := Function.update h.contents t (.thread regs slots.tail tstack) } x y := by
        intro x y he
        by_cases hx : x = t
        · subst hx
          rw [VisibleEdge, hc] at he
          rw [VisibleEdge]
          change _ ∨ y ∈ visible buckets (Function.update h.contents x _ x)
          rw [Function.update_self, Memory.popped, hc]
          rcases mem_visible_thread.mp he with hr | ⟨w, hw, hwy⟩ | hs
          · exact .inr (mem_visible_thread.mpr (.inl hr))
          · cases slots with
            | nil => simp at hw
            | cons v slots =>
              cases slots with
              | nil => simp at hw
              | cons v' slots =>
                rcases List.mem_cons.mp hw with rfl | hw
                · exact .inl hwy
                · exact .inr (mem_visible_thread.mpr (.inr (.inl ⟨w, hw, hwy⟩)))
          · exact .inr (mem_visible_thread.mpr (.inr (.inr hs)))
        · right
          rw [VisibleEdge]
          change y ∈ visible buckets (Function.update h.contents t _ x)
          rw [Function.update_of_ne hx]
          exact he
      have hboth := Tricolour.From.induct (P := fun x =>
        Tricolour.From (Edge buckets h) (· ∈ targets buckets (h.popped t)) x ∨
          Tricolour.Found (VisibleEdge buckets { h with
            contents := Function.update h.contents t (.thread regs slots.tail tstack) })
            (Grey h) (White h) x) hfound (fun r hr => .inr (.of_src hr)) fun x y _ hx he => ?_
      · exact hboth.resolve_left hled
      · rcases hx with hx | hx
        · exact .inl (hx.step (visible_subset he.1))
        · rcases hkept x y he.1 with hy | hy
          · exact .inl (.of_src hy)
          · exact .inr (hx.step ⟨hy, he.2⟩)

end Pop

section Walk

variable {h : Memory}

/-- What holds during a walk: the part of the list passed has no garbage, and
no propagators unless the flag says so. -/
structure Walking (buckets : Nat → Nat × Nat) (h : Memory) : Prop where
  sound : Sound buckets h
  guarded : AllGuarded buckets h
  swept : ∀ b ∈ h.passed, h.marks.colour b ≠ garbage h
  prop : h.marks.nprop = false → ∀ b ∈ h.passed, ¬ Grey h b

variable {ahead : List Nat} {b : Nat}

theorem passed_perm (ha : h.ahead = b :: ahead) :
    (b :: h.passed ++ ahead).Perm (h.passed ++ h.ahead) := by
  rw [ha]
  exact List.perm_middle.symm

theorem Walking.move (hw : Walking buckets h) (ha : h.ahead = b :: ahead)
    (hcol : h.marks.colour b ≠ garbage h) (hprop : h.marks.nprop = false → ¬ Grey h b) :
    Walking buckets { h with ahead := ahead, passed := b :: h.passed } := by
  have hs := hw.sound
  have hperm := passed_perm ha
  have hswept : ∀ x ∈ b :: h.passed, h.marks.colour x ≠ garbage h := by
    intro x hx
    rcases List.mem_cons.mp hx with rfl | hx
    · exact hcol
    · exact hw.swept x hx
  have hgrey : h.marks.nprop = false → ∀ x ∈ b :: h.passed, ¬ Grey h x := by
    intro hn x hx
    rcases List.mem_cons.mp hx with rfl | hx
    · exact hprop hn
    · exact hw.prop hn x hx
  exact ⟨⟨hs.epoch, hs.mutator, hs.sweeper, hperm.nodup_iff.mpr hs.nodup,
    fun x => hperm.mem_iff.trans (hs.list x), hs.closed, hs.roots, hs.fresh, hs.tstack, hs.grey,
    hs.freed_lt, hs.known, fun _ => hswept, fun _ => hgrey⟩, hw.guarded, hswept, hgrey⟩

theorem Walking.marked {k' : Marks} (hw : Walking buckets h)
    (hm : Marked buckets h.contents h.mutator (Known buckets h) h.marks k') :
    Walking buckets { h with marks := k' } := by
  have hs := hw.sound
  refine ⟨hs.marked hm, fun x hx => ?_, fun x hx hc => ?_, fun hn x hx hg => ?_⟩
  · exact (hw.guarded x hx).change hs.mutator_ne rfl hm fun _ _ _ he => .inr he
  · rcases hm.keep x with hk | hk | hk
    · exact hw.swept x hx (hk.symm.trans hc)
    · exact hs.mutator_ne_garbage (hk.symm.trans hc)
    · exact garbage_ne_propagator h (hk.symm.trans hc)
  · rcases hm.flag with hflag | hflag
    · exact absurd (hn.symm.trans hflag) (by decide)
    · have hn' : h.marks.nprop = false := by
        by_contra hc
        have hp : k'.nprop = true := hm.nprop (by simpa using hc)
        exact absurd (hn.symm.trans hp) (by decide)
      exact hw.prop hn' x hx (hflag x hg)

theorem Walking.scan (hw : Walking buckets h) (ha : h.ahead = b :: ahead) (hgrey : Grey h b) :
    Walking buckets { h with
      ahead := ahead, passed := b :: h.passed,
      marks := markBlock buckets h.contents h.mutator maxMarkRecursion b h.marks } := by
  have hs := hw.sound
  have hlist := hs.grey b hgrey
  have hknown : Known buckets h b := .of_src (.inr (.inr ⟨hlist.1, hlist.2, .inr hgrey⟩))
  have hblack : h.marks.colour b ≠ h.mutator := fun hc => hs.mutator_ne (hc.symm.trans hgrey)
  obtain ⟨hm, hcol, hflag⟩ := markBlock_marked (n := maxMarkRecursion) (k := h.marks) hs.mutator_ne
    (fun x s hx hxs => hs.tstack x s (hs.known_lt hx) hxs) (fun x y hx hy => hx.step hy) hknown
  have hmarked := hw.marked hm
  refine Walking.move hmarked ha ?_ fun hn => ?_
  · rcases hcol with hc | hc
    · exact fun hg => hs.mutator_ne_garbage (hc.symm.trans hg)
    · exact fun hg => garbage_ne_propagator h (hc.symm.trans hg)
  · exact absurd (hn.symm.trans (hflag hblack)) (by decide)

theorem Walking.sweep (hw : Walking buckets h) (ha : h.ahead = b :: ahead)
    (hsweep : h.marks.colour b = h.sweeper) :
    Walking buckets { h with ahead := ahead, freed := b :: h.freed } := by
  have hs := hw.sound
  have hb : b < h.count ∧ b ∉ h.freed := (hs.list b).mp (by simp [ha])
  have hgarbage : h.marks.colour b = garbage h ∧ ¬ Grey h b := by
    rcases hs.sweeper with hsw | ⟨hne, -, hall⟩
    · have hc := hsweep.trans hsw
      exact ⟨hc, fun hg => garbage_ne_propagator h (hg.symm.trans hc)⟩
    · exact absurd (hsweep.symm.trans (hall b hb.1)) hne
  have hunknown : ¬ Known buckets h b := fun hk => (hs.known b hk).2 hgarbage.1
  have hnodup := hs.nodup
  rw [ha] at hnodup
  obtain ⟨hnotin, hnodup⟩ := List.nodup_cons.mp (List.perm_middle.nodup_iff.mp hnodup)
  refine ⟨⟨hs.epoch, hs.mutator, hs.sweeper, hnodup, fun x => ?_,
    hs.closed, hs.roots, hs.fresh, hs.tstack, fun x hx => ?_, fun x hx => ?_, fun x hx => ?_,
    fun _ => hw.swept, fun _ => hw.prop⟩, hw.guarded, hw.swept, hw.prop⟩
  · change x ∈ h.passed ++ ahead ↔ x < h.count ∧ x ∉ b :: h.freed
    have hl := hs.list x
    rw [ha, List.mem_append, List.mem_cons] at hl
    by_cases hx : x = b
    · subst hx
      simp [hnotin]
    · simp only [hx, false_or] at hl
      rw [List.mem_append, hl, List.mem_cons]
      simp [hx]
  · have hg := hs.grey x hx
    refine ⟨hg.1, fun hmem => ?_⟩
    rcases List.mem_cons.mp hmem with rfl | hmem
    · exact hgarbage.2 hx
    · exact hg.2 hmem
  · rcases List.mem_cons.mp hx with rfl | hx
    · exact hb.1
    · exact hs.freed_lt x hx
  · have hx' : Known buckets h x := hx.mono (fun r hr => hr.imp_right fun hr => hr.imp_right
      fun hr => ⟨hr.1, fun hf => hr.2.1 (List.mem_cons_of_mem _ hf), hr.2.2⟩) fun _ _ he => he
    refine ⟨fun hmem => ?_, (hs.known x hx').2⟩
    rcases List.mem_cons.mp hmem with rfl | hmem
    · exact hunknown hx'
    · exact (hs.known x hx').1 hmem

theorem Walking.pass (hw : Walking buckets h) (ha : h.ahead = b :: ahead) (hgrey : ¬ Grey h b)
    (hsweep : h.marks.colour b ≠ h.sweeper) :
    Walking buckets { h with ahead := ahead, passed := b :: h.passed } := by
  have hs := hw.sound
  refine hw.move ha ?_ fun _ => hgrey
  rcases hs.sweeper with hsw | ⟨-, -, hall⟩
  · exact hsw ▸ hsweep
  · have hb : b < h.count ∧ b ∉ h.freed := (hs.list b).mp (by simp [ha])
    have hblack : h.marks.colour b = h.mutator := hall b hb.1
    rw [hblack]
    exact hs.mutator_ne_garbage

theorem Walking.walked (hw : Walking buckets h) : Walking buckets (h.walked buckets) := by
  have hstep : ∀ ahead passed freed k, Walking buckets { h with
      ahead := ahead, passed := passed, freed := freed, marks := k } →
      ∀ r, r = gcWalk buckets h.contents h.mutator h.sweeper ahead passed freed k →
        Walking buckets { h with
          ahead := r.1, passed := r.2.1, freed := r.2.2.1, marks := r.2.2.2 } := by
    intro ahead
    induction ahead with
    | nil =>
      intro passed freed k hw r hr
      rw [hr]
      exact hw
    | cons b ahead ih =>
      intro passed freed k hw r hr
      rw [gcWalk] at hr
      split at hr
      · rw [hr]
        exact hw
      · split at hr
        · next hgrey => exact ih _ _ _ (hw.scan rfl hgrey) r hr
        · next hgrey =>
          split at hr
          · next hsweep => exact ih _ _ _ (hw.sweep rfl hsweep) r hr
          · next hsweep => exact ih _ _ _ (hw.pass rfl hgrey hsweep) r hr
  exact hstep h.ahead h.passed h.freed h.marks hw _ rfl

end Walk

section Slice

variable {h : Memory} {b : Nat}

theorem Inv.startWalk (hi : Inv buckets h) (quantum : Nat) :
    Walking buckets (h.startWalk quantum) := by
  obtain ⟨hs, hg⟩ := hi
  have hmark : Marked buckets h.contents h.mutator (Known buckets h) h.marks
      { h.marks with visit := quantum } :=
    ⟨fun _ => .inl rfl, fun _ h => h, fun _ h => absurd rfl h, fun _ h h' => absurd h' h,
      fun h => h, .inr fun _ h => h⟩
  have hsm := hs.marked hmark
  have hperm : ((if h.ahead = [] then [] else h.passed) ++
      (if h.ahead = [] then h.passed.reverse else h.ahead)).Perm (h.passed ++ h.ahead) := by
    split
    · next ha =>
      rw [ha, List.nil_append, List.append_nil]
      exact List.reverse_perm _
    · exact .refl _
  have hpassed : ∀ x ∈ (if h.ahead = [] then [] else h.passed), h.ahead ≠ [] ∧ x ∈ h.passed := by
    intro x hx
    split at hx
    · cases hx
    · next ha => exact ⟨ha, hx⟩
  have hswept : ∀ x ∈ (if h.ahead = [] then [] else h.passed), h.marks.colour x ≠ garbage h :=
    fun x hx => hs.swept (hpassed x hx).1 x (hpassed x hx).2
  have hprop : h.marks.nprop = false → ∀ x ∈ (if h.ahead = [] then [] else h.passed), ¬ Grey h x :=
    fun hn x hx => hs.prop (hpassed x hx).1 hn x (hpassed x hx).2
  have hnone : ∀ x ∈ ([] : List Nat), x < h.count ∧ Black h x := by simp
  refine ⟨⟨hs.epoch, hs.mutator, hs.sweeper, hperm.nodup_iff.mpr hs.nodup,
    fun x => hperm.mem_iff.trans (hs.list x), hs.closed, hs.roots, hnone, hs.tstack, hs.grey,
    hs.freed_lt, fun x hx => ?_, fun _ => hswept, fun _ => hprop⟩, fun x hx => ?_, hswept, hprop⟩
  · refine hs.known x (hx.mono (fun r hr => ?_) fun _ _ he => he)
    rcases hr with hr | hr | hr
    · exact .inl hr
    · cases hr
    · exact .inr (.inr hr)
  · refine hg x (hx.mono (fun r hr => ?_) fun _ _ he => he)
    rcases hr with hr | hr
    · exact .inl hr
    · cases hr

theorem startWalk_same (quantum : Nat) : (h.startWalk quantum).gccolour = h.gccolour ∧
    (h.startWalk quantum).contents = h.contents ∧ (h.startWalk quantum).roots = h.roots ∧
    (h.startWalk quantum).fresh = [] := ⟨rfl, rfl, rfl, rfl⟩

/-- At the end of a whole walk without propagators, all that is reachable is black. -/
theorem Walking.all_black (hw : Walking buckets h) (ha : h.ahead = []) (hn : h.marks.nprop = false)
    (hb : Held buckets h b) : Black h b := by
  have hs := hw.sound
  refine (hw.guarded b hb).resolve_right (Tricolour.not_found fun x hx => ?_)
  have hlist := (hs.list x).mpr (hs.grey x hx)
  rw [ha, List.append_nil] at hlist
  exact hw.prop hn x hlist hx

theorem Inv.unflag (hi : Inv buckets h) (ha : h.ahead = []) :
    Inv buckets { h with marks := { h.marks with nprop := false } } := by
  obtain ⟨hs, hg⟩ := hi
  exact ⟨⟨hs.epoch, hs.mutator, hs.sweeper, hs.nodup, hs.list, hs.closed, hs.roots, hs.fresh,
    hs.tstack, hs.grey, hs.freed_lt, hs.known, fun hne => absurd ha hne,
    fun hne => absurd ha hne⟩, hg⟩

/-- With all garbage freed and no propagators left the colours can change. -/
theorem Walking.newEpoch (hw : Walking buckets h) (ha : h.ahead = []) (hfresh : h.fresh = [])
    (hn : h.marks.nprop = false) : Sound buckets h.newEpoch := by
  have hs := hw.sound
  have hepoch := hs.epoch
  have hfreshNone : ∀ x ∈ h.fresh, x < h.count ∧ Black h.newEpoch x := by simp [hfresh]
  refine ⟨Nat.succ_le_succ (Nat.zero_le _), rfl, .inl ?_, hs.nodup, hs.list, hs.closed, hs.roots,
    hfreshNone, hs.tstack, hs.grey, hs.freed_lt, fun x hx => ?_, fun hne => absurd ha hne,
    fun hne => absurd ha hne⟩
  · change (h.gccolour - 1) % 3 = (h.gccolour + 1 + 1) % 3
    omega
  · have hheld : Held buckets h x := by
      refine hx.of_changed (fun r hr => ?_) fun _ _ _ he => .inl he
      rcases hr with hr | hr | ⟨hlt, hnf, hr⟩
      · exact .of_src (.inl hr)
      · exact .of_src (.inr hr)
      · have hlist : r ∈ h.passed := by
          have hl := (hs.list r).mpr ⟨hlt, hnf⟩
          rwa [ha, List.append_nil] at hl
        rcases hr with hr | hr
        · exact absurd hr (hw.swept r hlist)
        · exact absurd hr (hw.prop hn r hlist)
    have hblack : h.marks.colour x = h.mutator := hw.all_black ha hn hheld
    refine ⟨(hs.known x hheld.known).1, ?_⟩
    change h.marks.colour x ≠ (h.gccolour + 1 + 1) % 3
    rw [hblack, hs.mutator]
    omega

theorem markroots_marked (hs : Sound buckets h) :
    Marked buckets h.contents h.mutator (Known buckets h) h.marks (h.markroots buckets).marks ∧
      ∀ b, Root buckets h b → (h.markroots buckets).marks.colour b = h.mutator ∨
        (h.markroots buckets).marks.colour b = propagator := by
  have hprop : ∀ k, ∀ v ∈ h.roots,
      Marked buckets h.contents h.mutator (Known buckets h) k (markprop buckets h.mutator v k) ∧
        ∀ b ∈ targets buckets v, (markprop buckets h.mutator v k).colour b = h.mutator ∨
          (markprop buckets h.mutator v k).colour b = propagator := fun k v hv =>
    markprop_marked hs.mutator_ne (fun b hb => Tricolour.From.of_src (.inl ⟨v, hv, hb⟩)) k
  have hfold := foldl_marked hprop h.marks
  refine ⟨hfold.1, fun b hb => ?_⟩
  obtain ⟨v, hv, hvb⟩ := hb
  exact hfold.2 b (List.mem_flatMap.mpr ⟨v, hv, hvb⟩)

theorem markroots_colour (h : Memory) (x : Nat) :
    (h.markroots buckets).marks.colour x = h.marks.colour x ∨
      (h.markroots buckets).marks.colour x = propagator := by
  have hfold : ∀ (vs : List Ref) (k : Marks),
      (vs.foldl (fun k v => markprop buckets h.mutator v k) k).colour x = k.colour x ∨
        (vs.foldl (fun k v => markprop buckets h.mutator v k) k).colour x = propagator := by
    intro vs
    induction vs with
    | nil => exact fun k => .inl rfl
    | cons v vs ih =>
      intro k
      rcases ih (markprop buckets h.mutator v k) with hx | hx
      · rw [List.foldl_cons, hx]
        exact markprop_colour v k x
      · exact .inr hx
  exact hfold h.roots h.marks

theorem Walking.passEnd (hw : Walking buckets h) (ha : h.ahead = []) (hfresh : h.fresh = [])
    (hall : h.marks.nprop = false → AllVisible buckets h) : Inv buckets (h.passEnd buckets) := by
  rw [Memory.passEnd]
  split
  · next hn =>
    have hs := hw.newEpoch ha hfresh hn
    obtain ⟨hm, hroots⟩ := markroots_marked hs
    refine Inv.unflag ⟨hs.marked hm, fun b hb => .inr ?_⟩ ha
    have hmutator : h.mutator = h.gccolour % 3 := hw.sound.mutator
    have hblack : ∀ x, Held buckets h x → h.marks.colour x = h.gccolour % 3 := fun x hx => by
      rw [← hmutator]
      exact hw.all_black ha hn hx
    have hmut' : h.newEpoch.mutator = (h.gccolour + 1) % 3 := rfl
    have hne : ∀ x, Held buckets h x → h.marks.colour x ≠ h.newEpoch.mutator := fun x hx => by
      rw [hblack x hx, hmut']
      omega
    have hmark : ∀ x, Held buckets h x →
        (h.newEpoch.markroots buckets).marks.colour x = propagator ∨
          White (h.newEpoch.markroots buckets) x := by
      intro x hx
      by_cases hp : (h.newEpoch.markroots buckets).marks.colour x = propagator
      · exact .inl hp
      · have hcol := (markroots_colour h.newEpoch x).resolve_right hp
        exact .inr ⟨fun hb => hne x hx (hcol.symm.trans hb), hp⟩
    have hreach : Reachable buckets h b := by
      refine hb.mono (fun r hr => ?_) fun _ _ he => he
      rcases hr with hr | hr
      · exact hr
      · change r ∈ h.fresh at hr
        rw [hfresh] at hr
        cases hr
    have hroot : ∀ r, Root buckets h r → Held buckets h r := fun r hr => .of_src (.inl hr)
    refine Tricolour.found_of_from (hall hn b hreach) (fun r hr => ?_) fun x hx => ?_
    · rcases hmark r (hroot r hr) with hp | hwhite
      · exact hp
      · exact (hroots r hr).resolve_left fun hc => hwhite.1 hc
    · have hxheld : Held buckets h x :=
        hx.mono (fun r hr => .inl hr) fun _ _ he => visible_subset he
      exact hmark x hxheld
  · exact Inv.unflag ⟨hw.sound, hw.guarded⟩ ha

theorem passEnd_gccolour (h : Memory) (hn : h.marks.nprop = false) :
    (h.passEnd buckets).gccolour = h.gccolour + 1 := by
  rw [Memory.passEnd, if_pos hn]
  rfl

theorem Inv.gc {quantum : Nat} (hi : Inv buckets h)
    (hcare : (h.gcSlice buckets quantum).gccolour ≠ h.gccolour → AllVisible buckets h) :
    Inv buckets (h.gcSlice buckets quantum) := by
  have hw := (hi.startWalk quantum).walked
  rw [Memory.gcSlice] at hcare ⊢
  split
  · next ha =>
    rw [if_pos ha] at hcare
    refine hw.passEnd ha rfl fun hn => hcare ?_
    rw [passEnd_gccolour _ hn]
    exact Nat.succ_ne_self _
  · exact ⟨hw.sound, hw.guarded⟩

end Slice

section Runs

variable {start h : Memory} {b : Nat}

theorem Initial.inv (hi : Initial buckets h) : Inv buckets h := by
  have hblack : ∀ b, Black h b := fun b => (hi.colour b).trans hi.mutator.symm
  have hknown : ∀ b, h.marks.colour b ≠ garbage h := fun b => by
    rw [hi.colour b, garbage, hi.gccolour]
    decide
  have hmem : ∀ b, b ∈ h.passed ++ h.ahead ↔ b < h.count ∧ b ∉ h.freed := fun b => by
    rw [hi.ahead, hi.freed, List.append_nil, hi.list b]
    simp
  refine ⟨⟨?_, ?_, .inr ⟨?_, ?_, fun b _ => hblack b⟩, ?_, hmem, hi.closed, hi.roots,
    fun b hb => ⟨hi.fresh b hb, hblack b⟩, hi.tstack, fun b hb => ?_, fun b hb => ?_,
    fun b hb => ⟨?_, hknown b⟩, fun hne => absurd hi.ahead hne, fun hne => absurd hi.ahead hne⟩,
    fun b _ => .inl (hblack b)⟩
  · rw [hi.gccolour]
    decide
  · rw [hi.mutator, hi.gccolour]
  · rw [hi.sweeper, hi.mutator]
    decide
  · rw [hi.sweeper]
    decide
  · rw [hi.ahead, List.append_nil]
    exact hi.nodup
  · rw [Grey, hi.colour b] at hb
    cases hb
  · rw [hi.freed] at hb
    cases hb
  · rw [hi.freed]
    exact List.not_mem_nil

theorem Inv.step {a : Action} (hi : Inv buckets h) (he : Enabled buckets h a)
    (hc : Careful buckets h a) : Inv buckets (apply buckets h a) := by
  cases a with
  | alloc c => exact hi.alloc he
  | initField b i v => exact hi.initField he.1 he.2.1 he.2.2
  | initReg t r v => exact hi.initReg he.1 he.2.1 he.2.2
  | initTstack t s => exact hi.initTstack he.1 he.2.1 he.2.2.1 he.2.2.2
  | writeField b i v => exact hi.writeField he.1 he.2.1 he.2.2
  | writeReg t r v => exact hi.writeReg he.1 he.2.1 he.2.2
  | push t v => exact hi.push he.1 he.2.1 he.2.2
  | pop t => exact hi.pop he.1 he.2 hc
  | gc quantum => exact hi.gc hc

theorem CarefulRun.inv (hstart : Initial buckets start) (hrun : CarefulRun buckets start h) :
    Inv buckets h := by
  induction hrun with
  | refl => exact hstart.inv
  | step a _ he hc ih => exact ih.step he hc

theorem CarefulRun.run (hrun : CarefulRun buckets start h) : Run buckets start h := by
  induction hrun with
  | refl => exact .refl
  | step a _ he _ ih => exact .step a ih he

end Runs

/-- A memory with one thread, its stack vector and a global object of one field. -/
def oneThread : Memory where
  contents := fun b => match b with
    | 0 => .thread (fun _ => .immediate) [] (some 1)
    | 2 => .object [.immediate]
    | _ => .stack
  marks := ⟨fun _ => 0, false, 0⟩
  mutator := 0
  marker := 1
  sweeper := 2
  gccolour := 3
  passed := [0, 1, 2]
  ahead := []
  freed := []
  count := 3
  roots := [.block 0, .block 2]
  fresh := []

def noSymbols : Nat → Nat × Nat := fun _ => (0, 0)

theorem oneThread_initial : Initial noSymbols oneThread where
  mutator := rfl
  marker := rfl
  sweeper := rfl
  gccolour := rfl
  nprop := rfl
  ahead := rfl
  freed := rfl
  nodup := by decide
  list := fun b => by
    simp only [oneThread, List.mem_cons, List.not_mem_nil, or_false]
    omega
  colour := fun _ => rfl
  closed := fun b hb => by
    have hcases : b = 0 ∨ b = 1 ∨ b = 2 := by
      simp only [oneThread] at hb
      omega
    rcases hcases with rfl | rfl | rfl <;> decide
  roots := fun b hb => by
    obtain ⟨v, hv, hvb⟩ := hb
    simp only [oneThread, List.mem_cons, List.not_mem_nil, or_false] at hv
    rcases hv with rfl | rfl <;> (simp [targets] at hvb; subst hvb; decide)
  fresh := nofun
  tstack := fun t s ht hs => by
    have hcases : t = 0 ∨ t = 1 ∨ t = 2 := by
      simp only [oneThread] at ht
      omega
    rcases hcases with rfl | rfl | rfl
    · cases hs
      rfl
    · cases hs
    · cases hs

/-- The thread after pushing a new block on its empty stack. -/
def onePushed : Memory := (oneThread.allocBlock (.object [])).push 0 (.block 3)

theorem onePushed_careful : CarefulRun noSymbols oneThread onePushed := by
  have hroot : ∀ h : Memory, h.roots = oneThread.roots → Held noSymbols h 0 := fun h hr =>
    .of_src (.inl ⟨.block 0, by rw [hr]; decide, by decide⟩)
  refine .step (.push 0 (.block 3)) (.step (.alloc (.object [])) .refl (.object 0) trivial)
    ⟨hroot _ rfl, ⟨_, _, _, rfl⟩, fun b hb => ?_⟩ trivial
  obtain rfl : b = 3 := by simpa [targets] using hb
  exact held_fresh (by decide)

theorem onePushed_reachable {h : Memory} (hc : (h.contents 0) = onePushed.contents 0)
    (hr : h.roots = onePushed.roots) : Reachable noSymbols h 3 := by
  have hroot : Reachable noSymbols h 0 := .of_src ⟨.block 0, by rw [hr]; decide, by decide⟩
  refine Tricolour.From.step hroot ?_
  rw [Edge, hc]
  decide

/-- Four slices free the block in the deepest slot. -/
def oneSwept : Memory :=
  (((onePushed.gcSlice noSymbols 64).gcSlice noSymbols 64).gcSlice noSymbols 64).gcSlice noSymbols 64

/-- Block 3 is on the stack of a thread that is not scanned yet; the global
object is. -/
def halfScanned : Memory :=
  (((((oneThread.allocBlock (.object [])).push 0 .immediate).push 0 (.block 3)).gcSlice
    noSymbols 64).gcSlice noSymbols 1)

/-- The block is put into a new object that the global object holds, and popped. -/
def poppedUnscanned : Memory :=
  ((((halfScanned.allocBlock (.object [.immediate])).initField 4 0 (.block 3)).writeField
    noSymbols 2 0 (.block 4)).pop 0)

def poppedSwept : Memory :=
  ((poppedUnscanned.gcSlice noSymbols 64).gcSlice noSymbols 64).gcSlice noSymbols 64

theorem run_frees_popped : Run noSymbols oneThread poppedSwept ∧
    Reachable noSymbols poppedSwept 3 ∧ 3 ∈ poppedSwept.freed := by
  have hthread : ∀ h : Memory, h.roots = oneThread.roots → Held noSymbols h 0 := fun h hr =>
    .of_src (.inl ⟨.block 0, by rw [hr]; decide, by decide⟩)
  have hglobal : ∀ h : Memory, h.roots = oneThread.roots → Held noSymbols h 2 := fun h hr =>
    .of_src (.inl ⟨.block 2, by rw [hr]; decide, by decide⟩)
  have href : ∀ {h : Memory} {b : Nat}, Held noSymbols h b → HeldRef noSymbols h (.block b) := by
    intro h b hb y hy
    obtain rfl : y = b := by simpa [targets] using hy
    exact hb
  have hstack : ∀ h : Memory, h.roots = oneThread.roots →
      3 ∈ successors noSymbols (h.contents 0) → Held noSymbols h 3 :=
    fun h hr he => Tricolour.From.step (hthread h hr) he
  have hhalf : Run noSymbols oneThread halfScanned := by
    refine .step (.gc 1) (.step (.gc 64) (.step (.push 0 (.block 3)) (.step (.push 0 .immediate)
      (.step (.alloc (.object [])) .refl (.object 0)) ⟨hthread _ rfl, ⟨_, _, _, rfl⟩, ?_⟩)
      ⟨hthread _ rfl, ⟨_, _, _, rfl⟩, href (held_fresh (by decide))⟩) ?_) ?_
    · exact fun b hb => nomatch hb
    · exact (by decide : 0 < 64)
    · exact (by decide : 0 < 1)
  have hpopped : Run noSymbols oneThread poppedUnscanned := by
    refine .step (.pop 0) (.step (.writeField 2 0 (.block 4)) (.step (.initField 4 0 (.block 3))
      (.step (.alloc (.object [.immediate])) hhalf (.object 1)) ⟨?_, ⟨_, rfl, ?_⟩, ?_⟩)
      ⟨?_, ⟨_, rfl, ?_⟩, ?_⟩) ⟨?_, ?_⟩
    · decide
    · decide
    · exact href (hstack _ rfl (by decide))
    · exact hglobal _ rfl
    · decide
    · exact href (held_fresh (by decide))
    · exact hthread _ rfl
    · exact ⟨_, _, _, rfl⟩
  have hslice : ∀ h, Run noSymbols oneThread h → Run noSymbols oneThread (h.gcSlice noSymbols 64) :=
    fun h hr => .step (.gc 64) hr (by decide : 0 < 64)
  refine ⟨hslice _ (hslice _ (hslice _ hpopped)), ?_, by decide⟩
  have hfirst : Reachable noSymbols poppedSwept 2 := .of_src ⟨.block 2, by decide, by decide⟩
  have hsecond : Reachable noSymbols poppedSwept 4 :=
    Tricolour.From.step hfirst (by rw [Edge]; decide)
  exact Tricolour.From.step hsecond (by rw [Edge]; decide)

end Arcueid
