import Mathlib.Tactic.Tauto
import Arcueid.CollectorMarks

/-! The invariant of the collector, and the steps of the mutator. -/

namespace Arcueid

variable {buckets : Nat → Nat × Nat}

/-- The colour of the blocks that were still white when the epoch began. -/
def garbage (h : Memory) : Nat := (h.gccolour + 1) % 3

/-- Reachable from the roots or from a block that is marked already. -/
def Known (buckets : Nat → Nat × Nat) (h : Memory) : Nat → Prop :=
  Tricolour.From (Edge buckets h) fun b => Root buckets h b ∨ b ∈ h.fresh ∨
    b < h.count ∧ b ∉ h.freed ∧ (Black h b ∨ Grey h b)

structure Sound (buckets : Nat → Nat × Nat) (h : Memory) : Prop where
  epoch : 1 ≤ h.gccolour
  mutator : h.mutator = h.gccolour % 3
  sweeper : h.sweeper = garbage h ∨ h.sweeper ≠ h.mutator ∧ h.sweeper ≠ propagator ∧
    ∀ b, b < h.count → Black h b
  nodup : (h.passed ++ h.ahead).Nodup
  list : ∀ b, b ∈ h.passed ++ h.ahead ↔ b < h.count ∧ b ∉ h.freed
  closed : ∀ b, b < h.count → ∀ y ∈ successors buckets (h.contents b), y < h.count
  roots : ∀ b, Root buckets h b → b < h.count
  fresh : ∀ b ∈ h.fresh, b < h.count ∧ Black h b
  tstack : ∀ t s, t < h.count → (h.contents t).tstack = some s → h.contents s = .stack
  grey : ∀ b, Grey h b → b < h.count ∧ b ∉ h.freed
  freed_lt : ∀ b ∈ h.freed, b < h.count
  known : ∀ b, Known buckets h b → b ∉ h.freed ∧ h.marks.colour b ≠ garbage h
  swept : h.ahead ≠ [] → ∀ b ∈ h.passed, h.marks.colour b ≠ garbage h
  prop : h.ahead ≠ [] → h.marks.nprop = false → ∀ b ∈ h.passed, ¬ Grey h b

/-- The marker comes to all that the mutator can get at. -/
def AllGuarded (buckets : Nat → Nat × Nat) (h : Memory) : Prop :=
  ∀ b, Held buckets h b → Guarded buckets h b

section Graph

variable {h h' : Memory} {b x y t : Nat}

theorem mem_visible_object {fields : List Ref} :
    y ∈ visible buckets (.object fields) ↔ ∃ v ∈ fields, y ∈ targets buckets v := by
  simp [visible, children, Child.targets, List.mem_flatMap]

theorem mem_successors_object {fields : List Ref} :
    y ∈ successors buckets (.object fields) ↔ ∃ v ∈ fields, y ∈ targets buckets v := by
  simp [successors, Contents.refs, Contents.tstack, List.mem_flatMap]

theorem exists_reg {P : Reg → Prop} : (∃ r, P r) ↔ P .funr ∨ P .envr ∨ P .valr ∨ P .conr ∨ P .ch ∨
    P .exh ∨ P .cm ∨ P .rvch ∨ P .bch := by
  constructor
  · rintro ⟨r, hr⟩
    cases r <;> simp [hr]
  · rintro (h | h | h | h | h | h | h | h | h) <;> exact ⟨_, h⟩

theorem mem_visible_thread {regs : Reg → Ref} {slots : List Ref} {tstack : Option Nat} :
    y ∈ visible buckets (.thread regs slots tstack) ↔ (∃ r, y ∈ targets buckets (regs r)) ∨
      (∃ v ∈ slots.dropLast, y ∈ targets buckets v) ∨ tstack = some y := by
  have htstack : y ∈ (tstack.map Child.only).toList.flatMap (Child.targets buckets) ↔
      tstack = some y := by
    cases tstack <;> simp [Child.targets, eq_comm]
  have hslots : y ∈ (slots.dropLast.map Child.mark).flatMap (Child.targets buckets) ↔
      ∃ v ∈ slots.dropLast, y ∈ targets buckets v := by
    rw [List.flatMap_map, List.mem_flatMap]
    rfl
  rw [exists_reg, ← hslots, ← htstack]
  simp only [visible, children, List.flatMap_append, List.mem_append, List.flatMap_cons,
    List.flatMap_nil, List.append_nil, Child.targets]
  tauto

theorem mem_successors_thread {regs : Reg → Ref} {slots : List Ref} {tstack : Option Nat} :
    y ∈ successors buckets (.thread regs slots tstack) ↔ (∃ r, y ∈ targets buckets (regs r)) ∨
      (∃ v ∈ slots, y ∈ targets buckets v) ∨ tstack = some y := by
  rw [exists_reg]
  simp only [successors, Contents.refs, Contents.tstack, List.flatMap_append, List.mem_append,
    List.flatMap_cons, List.flatMap_nil, List.append_nil, List.mem_flatMap, Option.mem_toList]
  exact or_assoc

theorem visible_subset {c : Contents} (hy : y ∈ visible buckets c) : y ∈ successors buckets c := by
  cases c with
  | object fields => exact mem_successors_object.mpr (mem_visible_object.mp hy)
  | stack => simp [visible, children] at hy
  | thread regs slots tstack =>
    refine mem_successors_thread.mpr ?_
    rcases mem_visible_thread.mp hy with hr | ⟨v, hv, hvy⟩ | hs
    · exact .inl hr
    · exact .inr (.inl ⟨v, slots.dropLast_subset hv, hvy⟩)
    · exact .inr (.inr hs)

end Graph

section Colours

variable {h h' : Memory} {b x : Nat}

theorem Sound.mutator_lt (hs : Sound buckets h) : h.mutator < 3 := by
  rw [hs.mutator]
  exact Nat.mod_lt _ (by decide)

theorem Sound.mutator_ne (hs : Sound buckets h) : h.mutator ≠ propagator :=
  Nat.ne_of_lt hs.mutator_lt

theorem Sound.mutator_ne_garbage (hs : Sound buckets h) : h.mutator ≠ garbage h := by
  rw [hs.mutator, garbage]
  omega

theorem garbage_ne_propagator (h : Memory) : propagator ≠ garbage h := by
  have hlt : (h.gccolour + 1) % 3 < 3 := Nat.mod_lt _ (by decide)
  rw [garbage, propagator]
  omega

theorem Held.known (hb : Held buckets h b) : Known buckets h b :=
  hb.mono (fun _ hr => hr.imp_right .inl) fun _ _ he => he

theorem Reachable.held (hb : Reachable buckets h b) : Held buckets h b :=
  hb.mono (fun _ hr => .inl hr) fun _ _ he => he

theorem Known.step {y : Nat} (hx : Known buckets h x) (hy : y ∈ visible buckets (h.contents x)) :
    Known buckets h y :=
  Tricolour.From.step hx (visible_subset hy)

theorem Sound.known_lt (hs : Sound buckets h) (hb : Known buckets h b) : b < h.count := by
  refine hb.induct (fun r hr => ?_) fun x y _ hx he => hs.closed x hx y he
  rcases hr with hr | hr | hr
  · exact hs.roots r hr
  · exact (hs.fresh r hr).1
  · exact hr.1

theorem Sound.marked {k' : Marks} (hs : Sound buckets h)
    (hm : Marked buckets h.contents h.mutator (Known buckets h) h.marks k') :
    Sound buckets { h with marks := k' } := by
  have hcol : ∀ b, k'.colour b = garbage h → h.marks.colour b = garbage h := by
    intro b hb
    rcases hm.keep b with hk | hk | hk
    · exact hk.symm.trans hb
    · exact absurd (hk.symm.trans hb) hs.mutator_ne_garbage
    · exact absurd (hk.symm.trans hb) (garbage_ne_propagator h)
  have hgrey : ∀ b, k'.colour b = propagator → b < h.count ∧ b ∉ h.freed := by
    intro b hb
    by_cases hk : k'.colour b = h.marks.colour b
    · exact hs.grey b (hk.symm.trans hb)
    · exact ⟨hs.known_lt (hm.within b hk), (hs.known b (hm.within b hk)).1⟩
  refine ⟨hs.epoch, hs.mutator, hs.sweeper.imp_right fun hsw => ⟨hsw.1, hsw.2.1, fun b hb =>
    hm.black b (hsw.2.2 b hb)⟩, hs.nodup, hs.list, hs.closed, hs.roots,
    fun b hb => ⟨(hs.fresh b hb).1, hm.black b (hs.fresh b hb).2⟩, hs.tstack, hgrey, hs.freed_lt, fun b hb => ?_,
    fun ha b hb hc => hs.swept ha b hb (hcol b hc), fun ha hn b hb hg => ?_⟩
  · have hknown : Known buckets h b := by
      refine hb.of_changed (fun r hr => ?_) fun x y _ he => .inl he
      rcases hr with hr | hr | ⟨hlt, hnf, hr⟩
      · exact .of_src (.inl hr)
      · exact .of_src (.inr (.inl hr))
      · by_cases hk : k'.colour r = h.marks.colour r
        · refine .of_src (.inr (.inr ⟨hlt, hnf, ?_⟩))
          exact hr.imp (fun h' => hk.symm.trans h') fun h' => hk.symm.trans h'
        · exact hm.within r hk
    exact ⟨(hs.known b hknown).1, fun hc => (hs.known b hknown).2 (hcol b hc)⟩
  · rcases hm.flag with hflag | hflag
    · exact absurd (hn.symm.trans hflag) (by decide)
    · have hn' : h.marks.nprop = false := by
        by_contra hc
        have hp : k'.nprop = true := hm.nprop (by simpa using hc)
        exact absurd (hn.symm.trans hp) (by decide)
      exact hs.prop ha hn' b hb (hflag b hg)

/-- Marking and cutting links keep what the marker comes to, if a link is cut
only at a black block or where it leads to a marked one. -/
theorem Guarded.change {S : Nat → Prop} (hg : Guarded buckets h b) (hne : h.mutator ≠ propagator)
    (hmut : h'.mutator = h.mutator) (hm : Marked buckets h.contents h.mutator S h.marks h'.marks)
    (hedge : ∀ x y, ¬ Black h x → VisibleEdge buckets h x y →
      (Grey h' y ∨ Black h' y) ∨ VisibleEdge buckets h' x y) : Guarded buckets h' b := by
  have hblack : ∀ x, Black h' x ↔ h'.marks.colour x = h.mutator := fun x => by rw [Black, hmut]
  rcases hg with hg | hg
  · exact .inl ((hblack b).mpr (hm.black b hg))
  · refine Tricolour.Found.change hg (fun x hx => ?_) (fun x _ => ?_) fun x y hx he _ => ?_
    · exact (hm.still (.inr hx)).symm.imp_right (hblack x).mpr
    · by_cases hb : Black h' x
      · exact .inr (.inr hb)
      · by_cases hp : Grey h' x
        · exact .inr (.inl hp)
        · exact .inl ⟨hb, hp⟩
    · have hnot : ¬ Black h x := by
        rcases hx with hx | hx
        · intro hb
          exact hne (hb.symm.trans hx)
        · exact hx.1
      rcases hedge x y hnot he with hsafe | he'
      · exact .inl hsafe
      · by_cases hb : Black h' x
        · exact .inl ((hm.closed x hnot ((hblack x).mp hb) y he).symm.imp_right (hblack y).mpr)
        · exact .inr ⟨hb, he'⟩

end Colours

section Mutation

variable {h : Memory} {contents' : Nat → Contents} {marks' : Marks} {b t : Nat}

/-- A write of the mutator to the block `t`. -/
structure Mutated (buckets : Nat → Nat × Nat) (t : Nat) (h : Memory) (contents' : Nat → Contents)
    (marks' : Marks) : Prop where
  held : Held buckets h t
  other : ∀ x, x ≠ t → contents' x = h.contents x
  stack : h.contents t ≠ .stack
  tstack : ∀ s, (contents' t).tstack = some s → h.contents s = .stack
  succ : ∀ y ∈ successors buckets (contents' t),
    y ∈ successors buckets (h.contents t) ∨ Held buckets h y
  marked : Marked buckets h.contents h.mutator (Held buckets h) h.marks marks'

theorem Marked.mono {contents : Nat → Contents} {mutator : Nat} {S S' : Nat → Prop} {k k' : Marks}
    (h : Marked buckets contents mutator S k k') (hsub : ∀ x, S x → S' x) :
    Marked buckets contents mutator S' k k' :=
  ⟨h.keep, h.black, fun x hx => hsub x (h.within x hx), h.closed, h.nprop, h.flag⟩

theorem Mutated.edge (hm : Mutated buckets t h contents' marks') {x y : Nat}
    (he : y ∈ successors buckets (contents' x)) : Edge buckets h x y ∨ Held buckets h y := by
  by_cases hx : x = t
  · subst hx
    exact hm.succ y he
  · rw [hm.other x hx] at he
    exact .inl he

theorem Mutated.held_of (hm : Mutated buckets t h contents' marks')
    (hb : Held buckets { h with contents := contents', marks := marks' } b) : Held buckets h b :=
  hb.of_changed (fun _ hr => .of_src hr) fun _ _ _ he => hm.edge he

theorem Sound.mutated (hs : Sound buckets h) (hm : Mutated buckets t h contents' marks') :
    Sound buckets { h with contents := contents', marks := marks' } := by
  have hsm := hs.marked (hm.marked.mono fun x hx => hx.known)
  have hlt : ∀ y, Held buckets h y → y < h.count := fun y hy => hs.known_lt hy.known
  have hstack : ∀ s, h.contents s = .stack → contents' s = .stack := by
    intro s hst
    rw [hm.other s (by rintro rfl; exact hm.stack hst), hst]
  refine ⟨hsm.epoch, hsm.mutator, hsm.sweeper, hsm.nodup, hsm.list, fun x hx y hy => ?_, hsm.roots,
    hsm.fresh, fun x s hx hxs => ?_, hsm.grey, hsm.freed_lt, fun y hy => ?_, hsm.swept, hsm.prop⟩
  · rcases hm.edge hy with he | he
    · exact hs.closed x hx y he
    · exact hlt y he
  · by_cases hxt : x = t
    · subst hxt
      exact hstack s (hm.tstack s hxs)
    · exact hstack s (hs.tstack x s hx (hm.other x hxt ▸ hxs))
  · refine hsm.known y (Tricolour.From.of_changed hy (fun r hr => .of_src hr) fun x z _ he => ?_)
    exact (hm.edge he).imp_right fun hz => hz.known.mono (fun r hr => hr.imp_right fun hr =>
      hr.imp_right fun hr => ⟨hr.1, hr.2.1, hm.marked.still hr.2.2⟩) fun _ _ he => he

/-- The mutator's writes keep all guarded if no visible link is cut at a block
that is not black, except to a marked block. -/
theorem AllGuarded.mutated (hs : Sound buckets h) (hg : AllGuarded buckets h)
    (hm : Mutated buckets t h contents' marks')
    (hvisible : ¬ Black h t → ∀ y ∈ visible buckets (h.contents t),
      (marks'.colour y = propagator ∨ marks'.colour y = h.mutator) ∨
        y ∈ visible buckets (contents' t)) :
    AllGuarded buckets { h with contents := contents', marks := marks' } := by
  refine fun b hb => (hg b (hm.held_of hb)).change hs.mutator_ne rfl hm.marked fun x y hx he => ?_
  by_cases hxt : x = t
  · subst hxt
    exact hvisible hx y he
  · exact .inr (by rw [VisibleEdge]; change y ∈ visible buckets (contents' x); rwa [hm.other x hxt])

theorem markprop_held (hs : Sound buckets h) {v : Ref} (hv : HeldRef buckets h v) :
    Marked buckets h.contents h.mutator (Held buckets h) h.marks
      (markprop buckets h.mutator v h.marks) ∧
        ∀ b ∈ targets buckets v, (markprop buckets h.mutator v h.marks).colour b = h.mutator ∨
          (markprop buckets h.mutator v h.marks).colour b = propagator :=
  markprop_marked hs.mutator_ne hv h.marks

end Mutation

section Writes

variable {h : Memory} {b i t s : Nat} {r : Reg} {v w : Ref} {fields slots : List Ref}
  {regs : Reg → Ref} {tstack : Option Nat}

theorem store_other {c : Contents} {x : Nat} (hx : x ≠ b) :
    Function.update h.contents b c x = h.contents x :=
  Function.update_of_ne hx _ _

theorem Held.of_field (hb : Held buckets h b) (hc : h.contents b = .object fields)
    (hw : w ∈ fields) : HeldRef buckets h w := by
  refine fun y hy => Tricolour.From.step hb ?_
  rw [Edge, hc]
  exact mem_successors_object.mpr ⟨w, hw, hy⟩

theorem Held.of_reg (ht : Held buckets h t) (hc : h.contents t = .thread regs slots tstack)
    (r : Reg) : HeldRef buckets h (regs r) := by
  refine fun y hy => Tricolour.From.step ht ?_
  rw [Edge, hc]
  exact mem_successors_thread.mpr (.inl ⟨r, hy⟩)

/-- A field or a register is written with or without a barrier. -/
theorem mutated_object (hb : Held buckets h b) (hc : h.contents b = .object fields)
    (hv : HeldRef buckets h v) {k : Marks}
    (hk : Marked buckets h.contents h.mutator (Held buckets h) h.marks k) :
    Mutated buckets b h (Function.update h.contents b (.object (fields.set i v))) k := by
  refine ⟨hb, fun x hx => store_other hx, by rw [hc]; exact nofun, fun s hs => ?_, fun y hy => ?_, hk⟩
  · rw [Function.update_self] at hs
    cases hs
  · rw [Function.update_self] at hy
    rw [hc]
    obtain ⟨w, hw, hwy⟩ := mem_successors_object.mp hy
    rcases List.mem_or_eq_of_mem_set hw with hw | rfl
    · exact .inl (mem_successors_object.mpr ⟨w, hw, hwy⟩)
    · exact .inr (hv y hwy)

theorem mutated_reg (ht : Held buckets h t) (hc : h.contents t = .thread regs slots tstack)
    (hs : Sound buckets h) (hv : HeldRef buckets h v) {k : Marks}
    (hk : Marked buckets h.contents h.mutator (Held buckets h) h.marks k) :
    Mutated buckets t h
      (Function.update h.contents t (.thread (Function.update regs r v) slots tstack)) k := by
  have htlt : t < h.count := hs.known_lt ht.known
  refine ⟨ht, fun x hx => store_other hx, by rw [hc]; exact nofun, fun s hts => ?_, fun y hy => ?_, hk⟩
  · rw [Function.update_self] at hts
    exact hs.tstack t s htlt (by rw [hc]; exact hts)
  · rw [Function.update_self] at hy
    rw [hc]
    rcases mem_successors_thread.mp hy with ⟨r', hr⟩ | hrest
    · by_cases hrr : r' = r
      · rw [hrr, Function.update_self] at hr
        exact .inr (hv y hr)
      · rw [Function.update_of_ne hrr] at hr
        exact .inl (mem_successors_thread.mpr (.inl ⟨r', hr⟩))
    · exact .inl (mem_successors_thread.mpr (.inr hrest))

/-- The stack or the stack vector of a thread is changed. -/
theorem mutated_stack (slots' : List Ref) (tstack' : Option Nat) (ht : Held buckets h t)
    (hc : h.contents t = .thread regs slots tstack)
    (hts : ∀ s, tstack' = some s → h.contents s = .stack ∧ Held buckets h s)
    (hslots : ∀ w ∈ slots', w ∈ slots ∨ HeldRef buckets h w) :
    Mutated buckets t h (Function.update h.contents t (.thread regs slots' tstack')) h.marks := by
  refine ⟨ht, fun x hx => store_other hx, by rw [hc]; exact nofun, fun s hs => ?_, fun y hy => ?_,
    .refl _⟩
  · rw [Function.update_self] at hs
    exact (hts s hs).1
  · rw [Function.update_self] at hy
    rw [hc]
    rcases mem_successors_thread.mp hy with hr | ⟨w, hw, hwy⟩ | hs
    · exact .inl (mem_successors_thread.mpr (.inl hr))
    · rcases hslots w hw with hold | hnew
      · exact .inl (mem_successors_thread.mpr (.inr (.inl ⟨w, hold, hwy⟩)))
      · exact .inr (hnew y hwy)
    · exact .inr (hts y hs).2

/-- What holds between the steps of a run. -/
def Inv (buckets : Nat → Nat × Nat) (h : Memory) : Prop := Sound buckets h ∧ AllGuarded buckets h

theorem held_fresh (hb : b ∈ h.fresh) : Held buckets h b := .of_src (.inr hb)

theorem Inv.initField (hi : Inv buckets h) (hb : b ∈ h.fresh) (hf : HasField h b i)
    (hv : HeldRef buckets h v) : Inv buckets (h.initField b i v) := by
  obtain ⟨fields, hc, -⟩ := hf
  have hm := mutated_object (i := i) (held_fresh hb) hc hv (.refl _)
  rw [Memory.initField, hc]
  exact ⟨hi.1.mutated hm, hi.2.mutated hi.1 hm fun hn => absurd (hi.1.fresh b hb).2 hn⟩

theorem Inv.initReg (hi : Inv buckets h) (ht : t ∈ h.fresh) (hth : IsThread h t)
    (hv : HeldRef buckets h v) : Inv buckets (h.initReg t r v) := by
  obtain ⟨regs, slots, tstack, hc⟩ := hth
  have hm := mutated_reg (r := r) (held_fresh ht) hc hi.1 hv (.refl _)
  rw [Memory.initReg, hc]
  exact ⟨hi.1.mutated hm, hi.2.mutated hi.1 hm fun hn => absurd (hi.1.fresh t ht).2 hn⟩

theorem Inv.initTstack (hi : Inv buckets h) (ht : t ∈ h.fresh) (hth : IsThread h t)
    (hs : h.contents s = .stack) (hheld : Held buckets h s) :
    Inv buckets (h.initTstack t s) := by
  obtain ⟨regs, slots, tstack, hc⟩ := hth
  have hm := mutated_stack slots (some s) (held_fresh ht) hc
    (fun s' hs' => by cases hs'; exact ⟨hs, hheld⟩) fun w hw => .inl hw
  rw [Memory.initTstack, hc]
  exact ⟨hi.1.mutated hm, hi.2.mutated hi.1 hm fun hn => absurd (hi.1.fresh t ht).2 hn⟩

theorem Inv.writeField (hi : Inv buckets h) (hb : Held buckets h b) (hf : HasField h b i)
    (hv : HeldRef buckets h v) : Inv buckets (h.writeField buckets b i v) := by
  obtain ⟨fields, hc, hlt⟩ := hf
  have hold : fields.getD i .immediate = fields[i] := by simp [hlt]
  obtain ⟨hmarked, hcol⟩ := markprop_held hi.1 (hb.of_field hc (List.getElem_mem hlt))
  have hm := mutated_object (i := i) hb hc hv hmarked
  rw [Memory.writeField, hc]
  simp only [Memory.wb, Memory.store, hold]
  refine ⟨hi.1.mutated hm, hi.2.mutated hi.1 hm fun _ y hy => ?_⟩
  rw [hc] at hy
  rw [Function.update_self]
  obtain ⟨w, hw, hwy⟩ := mem_visible_object.mp hy
  obtain ⟨j, hj, rfl⟩ := List.mem_iff_getElem.mp hw
  by_cases hji : j = i
  · subst hji
    exact .inl (hcol y hwy).symm
  · refine .inr (mem_visible_object.mpr ⟨fields[j], ?_, hwy⟩)
    refine List.mem_iff_getElem.mpr ⟨j, by simpa using hj, ?_⟩
    rw [List.getElem_set_ne (fun h => hji h.symm)]

theorem Inv.writeReg (hi : Inv buckets h) (ht : Held buckets h t) (hth : IsThread h t)
    (hv : HeldRef buckets h v) : Inv buckets (h.writeReg buckets t r v) := by
  obtain ⟨regs, slots, tstack, hc⟩ := hth
  obtain ⟨hmarked, hcol⟩ := markprop_held hi.1 (ht.of_reg hc r)
  have hm := mutated_reg (r := r) ht hc hi.1 hv hmarked
  rw [Memory.writeReg, hc]
  simp only [Memory.wb, Memory.store]
  refine ⟨hi.1.mutated hm, hi.2.mutated hi.1 hm fun _ y hy => ?_⟩
  rw [hc] at hy
  rw [Function.update_self]
  rcases mem_visible_thread.mp hy with ⟨r', hr⟩ | hrest
  · by_cases hrr : r' = r
    · subst hrr
      exact .inl (hcol y hr).symm
    · refine .inr (mem_visible_thread.mpr (.inl ⟨r', ?_⟩))
      rwa [Function.update_of_ne hrr]
  · exact .inr (mem_visible_thread.mpr (.inr hrest))

theorem Sound.tstack_held (hs : Sound buckets h) (ht : Held buckets h t)
    (hc : h.contents t = .thread regs slots tstack) :
    ∀ s, tstack = some s → h.contents s = .stack ∧ Held buckets h s := by
  intro s hsome
  have hedge : Edge buckets h t s := by
    rw [Edge, hc]
    exact mem_successors_thread.mpr (.inr (.inr hsome))
  exact ⟨hs.tstack t s (hs.known_lt ht.known) (by rw [hc]; exact hsome), Tricolour.From.step ht hedge⟩

theorem Inv.push (hi : Inv buckets h) (ht : Held buckets h t) (hth : IsThread h t)
    (hv : HeldRef buckets h v) : Inv buckets (h.push t v) := by
  obtain ⟨regs, slots, tstack, hc⟩ := hth
  have hts := hi.1.tstack_held ht hc
  have hm := mutated_stack (v :: slots) tstack ht hc hts fun w hw => by
    rcases List.mem_cons.mp hw with rfl | hw
    · exact .inr hv
    · exact .inl hw
  rw [Memory.push, hc]
  refine ⟨hi.1.mutated hm, hi.2.mutated hi.1 hm fun _ y hy => .inr ?_⟩
  rw [hc] at hy
  rw [Function.update_self]
  rcases mem_visible_thread.mp hy with hr | ⟨w, hw, hwy⟩ | hs
  · exact mem_visible_thread.mpr (.inl hr)
  · refine mem_visible_thread.mpr (.inr (.inl ⟨w, ?_, hwy⟩))
    cases slots with
    | nil => simp at hw
    | cons w' slots => exact List.mem_cons_of_mem _ hw
  · exact mem_visible_thread.mpr (.inr (.inr hs))

end Writes

section Alloc

variable {h : Memory} {b : Nat} {c : Contents}

theorem Blank.successors_eq (hc : Blank c) : successors buckets c = [] := by
  cases hc with
  | object n =>
    refine List.eq_nil_iff_forall_not_mem.mpr fun y hy => ?_
    obtain ⟨v, hv, hvy⟩ := mem_successors_object.mp hy
    rw [List.eq_of_mem_replicate hv] at hvy
    cases hvy
  | stack => rfl
  | thread => rfl

theorem allocBlock_contents {x : Nat} (hx : x ≠ h.count) :
    (h.allocBlock c).contents x = h.contents x :=
  Function.update_of_ne hx _ _

theorem allocBlock_colour {x : Nat} (hx : x ≠ h.count) :
    (h.allocBlock c).marks.colour x = h.marks.colour x :=
  Function.update_of_ne hx _ _

theorem allocBlock_black : Black (h.allocBlock c) h.count := Function.update_self _ _ _

theorem allocBlock_edge (hc : Blank c) {x y : Nat} (he : Edge buckets (h.allocBlock c) x y) :
    x ≠ h.count ∧ Edge buckets h x y := by
  by_cases hx : x = h.count
  · have hnew : (h.allocBlock c).contents h.count = c := Function.update_self _ _ _
    rw [Edge, hx, hnew, hc.successors_eq] at he
    cases he
  · rw [Edge, allocBlock_contents hx] at he
    exact ⟨hx, he⟩

theorem allocBlock_from {src src' : Nat → Prop} (hc : Blank c)
    (hsrc : ∀ r, src' r → r = h.count ∨ Tricolour.From (Edge buckets h) src r)
    (hb : Tricolour.From (Edge buckets (h.allocBlock c)) src' b) :
    b = h.count ∨ Tricolour.From (Edge buckets h) src b := by
  refine hb.induct hsrc fun x y _ hx he => ?_
  obtain ⟨hne, he⟩ := allocBlock_edge hc he
  exact .inr ((hx.resolve_left hne).step he)

theorem Sound.alloc (hs : Sound buckets h) (hc : Blank c) : Sound buckets (h.allocBlock c) := by
  have hmem : ∀ x, x ∈ h.passed ++ h.ahead → x ≠ h.count := fun x hx =>
    Nat.ne_of_lt ((hs.list x).mp hx).1
  have hcount : h.count ∉ h.freed := fun hf => Nat.lt_irrefl _ (hs.freed_lt _ hf)
  have hlt : ∀ x, x < h.count + 1 → x = h.count ∨ x < h.count := by omega
  have hblack : ∀ x, Black h x → Black (h.allocBlock c) x := fun x hx => by
    by_cases hxc : x = h.count
    · exact hxc ▸ allocBlock_black
    · exact (allocBlock_colour hxc).trans hx
  have hpassed : ∀ x, x ∈ h.passed ++ [h.count] → x = h.count ∨ x ∈ h.passed := fun x hx => by
    simpa [or_comm] using hx
  refine ⟨hs.epoch, hs.mutator, hs.sweeper.imp_right fun hsw => ⟨hsw.1, hsw.2.1, fun x hx => ?_⟩,
    ?_, fun x => ?_, fun x hx y hy => ?_, fun r hr => Nat.lt_succ_of_lt (hs.roots r hr),
    fun x hx => ?_, fun t s ht hts => ?_, fun x hx => ?_,
    fun x hx => Nat.lt_succ_of_lt (hs.freed_lt x hx), fun x hx => ?_, fun ha x hx => ?_,
    fun ha hn x hx => ?_⟩
  · rcases hlt x hx with rfl | hx
    · exact allocBlock_black
    · exact hblack x (hsw.2.2 x hx)
  · change (h.passed ++ [h.count] ++ h.ahead).Nodup
    have hperm : (h.passed ++ [h.count] ++ h.ahead).Perm (h.count :: (h.passed ++ h.ahead)) := by
      rw [List.append_assoc, List.singleton_append]
      exact List.perm_middle
    exact hperm.nodup_iff.mpr (List.nodup_cons.mpr ⟨fun hx => hmem _ hx rfl, hs.nodup⟩)
  · change x ∈ h.passed ++ [h.count] ++ h.ahead ↔ x < h.count + 1 ∧ x ∉ h.freed
    have hl := hs.list x
    by_cases hxc : x = h.count
    · subst hxc
      simp [hcount]
    · have hsucc : x < h.count + 1 ↔ x < h.count := by omega
      simp only [List.mem_append, List.mem_singleton, hxc, or_false] at hl ⊢
      rw [hl, hsucc]
  · obtain ⟨hne, he⟩ := allocBlock_edge hc hy
    exact Nat.lt_succ_of_lt (hs.closed x ((hlt x hx).resolve_left hne) y he)
  · rcases List.mem_cons.mp hx with rfl | hx
    · exact ⟨Nat.lt_succ_self _, allocBlock_black⟩
    · exact ⟨Nat.lt_succ_of_lt (hs.fresh x hx).1, hblack x (hs.fresh x hx).2⟩
  · have hedge : Edge buckets (h.allocBlock c) t s := by
      rw [Edge, successors, hts]
      simp
    obtain ⟨hne, he⟩ := allocBlock_edge hc hedge
    rw [allocBlock_contents hne] at hts
    have htlt := (hlt t ht).resolve_left hne
    rw [allocBlock_contents (Nat.ne_of_lt (hs.closed t htlt s he))]
    exact hs.tstack t s htlt hts
  · have hxc : x ≠ h.count := by
      rintro rfl
      have hb : (h.allocBlock c).marks.colour h.count = h.mutator := allocBlock_black
      exact hs.mutator_ne (hb.symm.trans hx)
    have hg := hs.grey x ((allocBlock_colour hxc).symm.trans hx)
    exact ⟨Nat.lt_succ_of_lt hg.1, hg.2⟩
  · have hknown : x = h.count ∨ Known buckets h x := by
      refine allocBlock_from hc (fun r hr => ?_) hx
      rcases hr with hr | hr | ⟨hrlt, hnf, hr⟩
      · exact .inr (.of_src (.inl hr))
      · exact (List.mem_cons.mp hr).imp_right fun hr => .of_src (.inr (.inl hr))
      · refine (hlt r hrlt).imp_right fun hrlt => .of_src (.inr (.inr ⟨hrlt, hnf, ?_⟩))
        rw [Black, Grey, allocBlock_colour (Nat.ne_of_lt hrlt)] at hr
        exact hr
    rcases hknown with rfl | hknown
    · refine ⟨hcount, ?_⟩
      have hb : (h.allocBlock c).marks.colour h.count = h.mutator := allocBlock_black
      rw [hb]
      exact hs.mutator_ne_garbage
    · rw [allocBlock_colour (Nat.ne_of_lt (hs.known_lt hknown))]
      exact hs.known x hknown
  · rcases hpassed x hx with rfl | hx
    · have hb : (h.allocBlock c).marks.colour h.count = h.mutator := allocBlock_black
      rw [hb]
      exact hs.mutator_ne_garbage
    · rw [allocBlock_colour (hmem x (List.mem_append_left _ hx))]
      exact hs.swept ha x hx
  · rcases hpassed x hx with rfl | hx
    · intro hg
      have hb : (h.allocBlock c).marks.colour h.count = h.mutator := allocBlock_black
      exact hs.mutator_ne (hb.symm.trans hg)
    · rw [Grey, allocBlock_colour (hmem x (List.mem_append_left _ hx))]
      exact hs.prop ha hn x hx

theorem Inv.alloc (hi : Inv buckets h) (hc : Blank c) : Inv buckets (h.allocBlock c) := by
  obtain ⟨hs, hg⟩ := hi
  refine ⟨hs.alloc hc, fun b hb => ?_⟩
  have hheld : b = h.count ∨ Held buckets h b := by
    refine allocBlock_from hc (fun r hr => ?_) hb
    rcases hr with hr | hr
    · exact .inr (.of_src (.inl hr))
    · exact (List.mem_cons.mp hr).imp_right fun hr => .of_src (.inr hr)
  rcases hheld with rfl | hheld
  · exact .inl allocBlock_black
  · rcases hg b hheld with hblack | hfound
    · exact .inl ((allocBlock_colour (Nat.ne_of_lt (hs.known_lt hheld.known))).trans hblack)
    · right
      have hboth : b < h.count ∧ Tricolour.Found (VisibleEdge buckets (h.allocBlock c))
          (Grey (h.allocBlock c)) (White (h.allocBlock c)) b := by
        refine Tricolour.From.induct (P := fun b => b < h.count ∧
          Tricolour.Found (VisibleEdge buckets (h.allocBlock c)) (Grey (h.allocBlock c))
            (White (h.allocBlock c)) b) hfound (fun r hr => ?_) fun x y _ hx he => ?_
        · have hlt := (hs.grey r hr).1
          exact ⟨hlt, .of_src ((allocBlock_colour (Nat.ne_of_lt hlt)).trans hr)⟩
        · have hlt := hs.closed x hx.1 y (visible_subset he.1)
          refine ⟨hlt, hx.2.step ⟨?_, ?_⟩⟩
          · rw [VisibleEdge, allocBlock_contents (Nat.ne_of_lt hx.1)]
            exact he.1
          · rw [White, Black, Grey, allocBlock_colour (Nat.ne_of_lt hlt)]
            exact he.2
      exact hboth.2

end Alloc

end Arcueid
