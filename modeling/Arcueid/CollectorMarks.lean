import Arcueid.Collector

/-! What marking does to the colours, whatever the recursion limit and the
budget of the slice. -/

namespace Arcueid

variable {buckets : Nat → Nat × Nat} {contents : Nat → Contents} {mutator : Nat}

/-- Blocks of `S` have been marked: a block has got the mutator colour only
together with marks on all that its marker visits. -/
structure Marked (buckets : Nat → Nat × Nat) (contents : Nat → Contents) (mutator : Nat)
    (S : Nat → Prop) (k k' : Marks) : Prop where
  keep : ∀ x, k'.colour x = k.colour x ∨ k'.colour x = mutator ∨ k'.colour x = propagator
  black : ∀ x, k.colour x = mutator → k'.colour x = mutator
  within : ∀ x, k'.colour x ≠ k.colour x → S x
  closed : ∀ x, k.colour x ≠ mutator → k'.colour x = mutator →
    ∀ y ∈ visible buckets (contents x), k'.colour y = mutator ∨ k'.colour y = propagator
  nprop : k.nprop = true → k'.nprop = true
  flag : k'.nprop = true ∨ ∀ x, k'.colour x = propagator → k.colour x = propagator

section Marked

variable {S : Nat → Prop} {k k' k'' : Marks} {b n : Nat}

theorem Marked.refl (k : Marks) : Marked buckets contents mutator S k k :=
  ⟨fun _ => .inl rfl, fun _ h => h, fun _ h => absurd rfl h, fun _ h h' => absurd h' h,
    fun h => h, .inr fun _ h => h⟩

theorem Marked.still (h : Marked buckets contents mutator S k k') {x : Nat}
    (hx : k.colour x = mutator ∨ k.colour x = propagator) :
    k'.colour x = mutator ∨ k'.colour x = propagator := by
  rcases hx with hx | hx
  · exact .inl (h.black x hx)
  · rcases h.keep x with hk | hk
    · exact .inr (hk.trans hx)
    · exact hk

theorem Marked.trans (h : Marked buckets contents mutator S k k')
    (h' : Marked buckets contents mutator S k' k'') : Marked buckets contents mutator S k k'' where
  keep := fun x => by
    rcases h'.keep x with hk | hk
    · rw [hk]
      exact h.keep x
    · exact .inr hk
  black := fun x hx => h'.black x (h.black x hx)
  within := fun x hx => by
    by_cases hk : k'.colour x = k.colour x
    · exact h'.within x (hk ▸ hx)
    · exact h.within x hk
  closed := fun x hx hx' y hy => by
    by_cases hk : k'.colour x = mutator
    · exact h'.still (h.closed x hx hk y hy)
    · exact h'.closed x hk hx' y hy
  nprop := fun hk => h'.nprop (h.nprop hk)
  flag := by
    rcases h.flag with hk | hk
    · exact .inl (h'.nprop hk)
    · rcases h'.flag with hk' | hk'
      · exact .inl hk'
      · exact .inr fun x hx => hk x (hk' x hx)

theorem visited_marked : Marked buckets contents mutator S k (visited k) :=
  ⟨fun _ => .inl rfl, fun _ h => h, fun _ h => absurd rfl h, fun _ h h' => absurd h' h,
    fun h => h, .inr fun _ h => h⟩

theorem setmark_marked (hm : mutator ≠ propagator) (hb : S b) :
    Marked buckets contents mutator S k (setmark mutator b k) ∧
      ((setmark mutator b k).colour b = mutator ∨ (setmark mutator b k).colour b = propagator) := by
  by_cases hc : k.colour b = mutator
  · rw [setmark, if_neg (not_not.mpr hc)]
    exact ⟨.refl k, .inl hc⟩
  · rw [setmark, if_pos hc]
    have hcol : ∀ x, Function.update k.colour b propagator x = k.colour x ∨
        x = b ∧ Function.update k.colour b propagator x = propagator := by
      intro x
      by_cases hx : x = b
      · exact .inr ⟨hx, by rw [hx, Function.update_self]⟩
      · exact .inl (Function.update_of_ne hx _ _)
    refine ⟨⟨fun x => ?_, fun x hx => ?_, fun x hx => ?_, fun x hx hx' => ?_, fun _ => rfl, .inl rfl⟩,
      .inr (Function.update_self _ _ _)⟩
    · exact (hcol x).imp_right fun h => .inr h.2
    · rcases hcol x with h | ⟨rfl, -⟩
      · exact h.trans hx
      · exact absurd hx hc
    · rcases hcol x with h | ⟨rfl, -⟩
      · exact absurd h hx
      · exact hb
    · rcases hcol x with h | ⟨-, h⟩
      · exact absurd (h.symm.trans hx') hx
      · exact absurd (hx'.symm.trans h) hm

/-- A fold of markings over blocks of `S`. -/
theorem foldl_marked {α : Type} {f : Marks → α → Marks} {blocks : α → List Nat} {xs : List α}
    (hf : ∀ k, ∀ x ∈ xs, Marked buckets contents mutator S k (f k x) ∧
      ∀ b ∈ blocks x, (f k x).colour b = mutator ∨ (f k x).colour b = propagator) (k : Marks) :
    Marked buckets contents mutator S k (xs.foldl f k) ∧ ∀ b ∈ xs.flatMap blocks,
      (xs.foldl f k).colour b = mutator ∨ (xs.foldl f k).colour b = propagator := by
  induction xs generalizing k with
  | nil => exact ⟨.refl k, by simp⟩
  | cons x xs ih =>
    obtain ⟨hx, hblocks⟩ := hf k x List.mem_cons_self
    obtain ⟨hxs, hrest⟩ := ih (fun k y hy => hf k y (List.mem_cons_of_mem _ hy)) (f k x)
    refine ⟨hx.trans hxs, fun b hb => ?_⟩
    rw [List.flatMap_cons, List.mem_append] at hb
    rcases hb with hb | hb
    · exact hxs.still (hblocks b hb)
    · exact hrest b hb

theorem markprop_marked (hm : mutator ≠ propagator) {v : Ref}
    (hv : ∀ b ∈ targets buckets v, S b) (k : Marks) :
    Marked buckets contents mutator S k (markprop buckets mutator v k) ∧
      ∀ b ∈ targets buckets v, (markprop buckets mutator v k).colour b = mutator ∨
        (markprop buckets mutator v k).colour b = propagator := by
  have hset : ∀ k, ∀ b ∈ targets buckets v,
      Marked buckets contents mutator S k (setmark mutator b k) ∧ ∀ x ∈ [b],
        (setmark mutator b k).colour x = mutator ∨
          (setmark mutator b k).colour x = propagator := by
    intro k b hb
    obtain ⟨hmarked, hcol⟩ :
        Marked buckets contents mutator S k (setmark mutator b k) ∧ _ := setmark_marked hm (hv b hb)
    exact ⟨hmarked, by simpa using hcol⟩
  have hfold := foldl_marked hset k
  simpa [markprop] using hfold

theorem setmark_colour (k : Marks) (b x : Nat) :
    (setmark mutator b k).colour x = k.colour x ∨ (setmark mutator b k).colour x = propagator := by
  rw [setmark]
  split
  · by_cases hx : x = b
    · exact .inr (by rw [hx]; exact Function.update_self _ _ _)
    · exact .inl (Function.update_of_ne hx _ _)
  · exact .inl rfl

/-- The barrier and the root marker make no block black. -/
theorem markprop_colour (v : Ref) (k : Marks) (x : Nat) :
    (markprop buckets mutator v k).colour x = k.colour x ∨
      (markprop buckets mutator v k).colour x = propagator := by
  rw [markprop]
  induction targets buckets v generalizing k with
  | nil => exact .inl rfl
  | cons b bs ih =>
    rcases ih (setmark mutator b k) with h | h
    · rw [List.foldl_cons, h]
      exact setmark_colour k b x
    · exact .inr h

/-- A block that gets the mutator colour while all that its marker visits is marked. -/
theorem paint_marked (hm : mutator ≠ propagator) (hb : S b)
    (h : Marked buckets contents mutator S (paint mutator b k) k')
    (hchildren : ∀ y ∈ visible buckets (contents b),
      k'.colour y = mutator ∨ k'.colour y = propagator) :
    Marked buckets contents mutator S k k' := by
  have hcol : ∀ x, x = b ∧ (paint mutator b k).colour x = mutator ∨
      (paint mutator b k).colour x = k.colour x := by
    intro x
    by_cases hx : x = b
    · exact .inl ⟨hx, by rw [hx]; exact Function.update_self _ _ _⟩
    · exact .inr (Function.update_of_ne hx _ _)
  refine ⟨fun x => ?_, fun x hx => h.black x ?_, fun x hx => ?_, fun x hx hx' => ?_, h.nprop, ?_⟩
  · rcases hcol x with ⟨-, hp⟩ | hp
    · exact .inr (.inl (h.black x hp))
    · rw [← hp]
      exact h.keep x
  · rcases hcol x with ⟨-, hp⟩ | hp
    · exact hp
    · exact hp.trans hx
  · rcases hcol x with ⟨rfl, -⟩ | hp
    · exact hb
    · exact h.within x (hp ▸ hx)
  · rcases hcol x with ⟨rfl, -⟩ | hp
    · exact hchildren
    · exact h.closed x (hp ▸ hx) hx'
  · refine h.flag.imp_right fun hk x hx => ?_
    rcases hcol x with ⟨-, hp⟩ | hp
    · exact absurd (hp.symm.trans (hk x hx)) hm
    · exact hp.symm.trans (hk x hx)

theorem visible_eq (c : Contents) :
    visible buckets c = (children c).flatMap (Child.targets buckets) := rfl

theorem tstack_of_only {c : Contents} {s : Nat} (h : Child.only s ∈ children c) :
    c.tstack = some s := by
  cases c with
  | object fields => simp [children] at h
  | stack => simp [children] at h
  | thread regs slots tstack =>
    simp only [children, List.mem_append] at h
    rcases h with ((h | h) | h) | h
    · simp at h
    · obtain ⟨v, -, hv⟩ := List.mem_map.mp h
      cases hv
    · simpa [Contents.tstack] using h
    · simp at h

/-- The round of `mark` for one child. -/
def markChild (buckets : Nat → Nat × Nat) (contents : Nat → Contents) (mutator n : Nat) (k : Marks) :
    Child → Marks
  | .mark v => (targets buckets v).foldl (fun k b => markBlock buckets contents mutator n b k) k
  | .only b => visited (paint mutator b k)

theorem markBlock_succ : markBlock buckets contents mutator (n + 1) b k =
    if 0 ≤ (visited (setmark mutator b k)).visit then
      (children (contents b)).foldl (markChild buckets contents mutator n)
        (paint mutator b (visited (setmark mutator b k)))
    else visited (setmark mutator b k) :=
  rfl

/-- Marking a block: whatever the recursion limit and the budget, what turns
black has only marked children. -/
theorem markBlock_marked (hm : mutator ≠ propagator)
    (hstack : ∀ x s, S x → (contents x).tstack = some s → contents s = .stack)
    (hclosed : ∀ x y, S x → y ∈ visible buckets (contents x) → S y) (hb : S b) :
    Marked buckets contents mutator S k (markBlock buckets contents mutator n b k) ∧
      ((markBlock buckets contents mutator n b k).colour b = mutator ∨
        (markBlock buckets contents mutator n b k).colour b = propagator) ∧
      (k.colour b ≠ mutator → (markBlock buckets contents mutator n b k).nprop = true) := by
  have hflag : k.colour b ≠ mutator → (setmark mutator b k).nprop = true := fun hc => by
    rw [setmark, if_pos hc]
  have hmark : ∀ b k, S b → Marked buckets contents mutator S k (setmark mutator b k) ∧
      ((setmark mutator b k).colour b = mutator ∨
        (setmark mutator b k).colour b = propagator) := fun b k hb => setmark_marked hm hb
  induction n generalizing b k with
  | zero =>
    obtain ⟨hset, hcol⟩ := hmark b k hb
    exact ⟨hset.trans visited_marked, hcol, hflag⟩
  | succ n ih =>
    obtain ⟨hset, hcol⟩ := hmark b k hb
    have hvisit := hset.trans visited_marked
    rw [markBlock_succ]
    split
    · let f := markChild buckets contents mutator n
      have hchild : ∀ k, ∀ child ∈ children (contents b),
          Marked buckets contents mutator S k (f k child) ∧ ∀ y ∈ child.targets buckets,
            (f k child).colour y = mutator ∨ (f k child).colour y = propagator := by
        intro k child hmem
        have hsub : ∀ y ∈ child.targets buckets, S y := fun y hy =>
          hclosed b y hb (List.mem_flatMap.mpr ⟨child, hmem, hy⟩)
        cases child with
        | mark v =>
          have hblock : ∀ k, ∀ y ∈ targets buckets v,
              Marked buckets contents mutator S k (markBlock buckets contents mutator n y k) ∧
                ∀ x ∈ [y], (markBlock buckets contents mutator n y k).colour x = mutator ∨
                  (markBlock buckets contents mutator n y k).colour x = propagator := by
            intro k y hy
            obtain ⟨hmarked, hcol, -⟩ := ih (k := k) (hsub y hy) fun hc => by
              rw [setmark, if_pos hc]
            exact ⟨hmarked, by simpa using hcol⟩
          have hfold := foldl_marked hblock k
          simpa [f, markChild, Child.targets] using hfold
        | only s =>
          have hempty : contents s = .stack := hstack b s hb (tstack_of_only hmem)
          refine ⟨(paint_marked hm (hsub s (by simp [Child.targets])) (.refl _) ?_).trans
            visited_marked, ?_⟩
          · simp [hempty, visible_eq, children]
          · simp [Child.targets, f, markChild, visited, paint]
      obtain ⟨hfold, hmarks⟩ := foldl_marked hchild (paint mutator b (visited (setmark mutator b k)))
      have hpaint := paint_marked hm hb hfold hmarks
      refine ⟨hvisit.trans hpaint, hfold.still (.inl ?_), fun hc => hpaint.nprop (hflag hc)⟩
      exact Function.update_self _ _ _
    · exact ⟨hvisit, hcol, hflag⟩

end Marked

end Arcueid
