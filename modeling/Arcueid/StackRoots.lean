import Arcueid.FrameOverflow

/-! The part of the stack that `thread_marker` (`thread.c`) marks, after pushes
and pops on a new thread. -/

namespace Arcueid

inductive StackOp where
  | push (v : Value)
  | pop

/-- The values pushed and not yet popped, the last one first, for sequences that
pop no more than they push. -/
def unpopped : List Value → List StackOp → Option (List Value)
  | vs, [] => some vs
  | vs, .push v :: ops => unpopped (v :: vs) ops
  | _ :: vs, .pop :: ops => unpopped vs ops
  | [], .pop :: _ => none

/-- The greatest depth of the stack on the way, from depth `n`. -/
def greatestDepth : Nat → List StackOp → Nat
  | n, [] => n
  | n, .push _ :: ops => max n (greatestDepth (n + 1) ops)
  | n, .pop :: ops => max n (greatestDepth (n - 1) ops)

namespace VmThread

variable (t : VmThread)

def stackOp (fuel : Nat) : StackOp → Option VmThread
  | .push v => t.cpush fuel fun _ => v
  | .pop => some t.cpop.2

def stackOps (fuel : Nat) (ops : List StackOp) : Option VmThread :=
  ops.foldlM (fun t op => t.stackOp fuel op) t

/-- The stack values that `thread_marker` passes to the mark function: from
`TSP + 1` up to the one before `TSTOP`. -/
def markedStack : Option (List Value) := do
  let n ← t.stktop.diff (t.spr.sub (-1))
  return (List.range n.toNat).map t.popped

end VmThread

/-- The stack values marked after a sequence of operations are those on the
stack. -/
def RootsComplete (fuel : Nat) (t : VmThread) (ops : List StackOp) (vs : List Value) : Prop :=
  ∃ t' l, t.stackOps fuel ops = some t' ∧ t'.markedStack = some l ∧ ∀ v, v ∈ l ↔ v ∈ vs

/-- The values on the stack of a thread, the last one pushed first. -/
structure Stacked (t : VmThread) (vs : List Value) : Prop where
  inside : Inside t
  depth : (vs.length : Int) = t.stktop.idx - t.spr.idx
  values : ∀ j (hj : j < vs.length), t.popped j = vs[j]

section Stacked

variable {t t' : VmThread} {vs vs' : List Value} {fuel : Nat} {ops : List StackOp}

/-- The values of pops as slots counted from the deepest one. -/
theorem Inside.popped_eq_slot (h : Inside t) {j : Nat} (hj : (j : Int) < t.stktop.idx - t.spr.idx) :
    t.popped j = t.machine.slot (t.machine.sp - 1 - j) := by
  have hsp : t.machine.sp = (t.stktop.idx - t.spr.idx).toNat := rfl
  have htop : t.stktop.vec = t.spr.vec := by rw [t.top_eq, h.vec]
  have hptr : t.spr.sub (-(j + 1)) = t.stktop.sub (t.machine.sp - 1 - j : Nat) := by
    rw [hsp, Ptr.sub, Ptr.sub, htop]
    congr 1
    omega
  rw [VmThread.popped, hptr]
  rfl

theorem Stacked.push (h : Stacked t vs) (hroom : 0 < t.spr.idx) (v : Value) :
    ∃ t', t.cpush fuel (fun _ => v) = some t' ∧ t'.stktop = t.stktop ∧ Stacked t' (v :: vs) := by
  have hne : t.spr ≠ t.stkbase := h.inside.spr_eq_iff.not.mpr (by omega)
  obtain ⟨t', hrun, hm, htop, hin⟩ : ∃ t', t.cpush fuel (fun _ => v) = some t' ∧
      t'.machine = t.machine.cpush v ∧ t'.stktop = t.stktop ∧ Inside t' := cpush_machine h.inside hne
  have hsp : t'.machine.sp = t.machine.sp + 1 := by rw [hm]; rfl
  have hdepth := h.depth
  have hsp' : (t'.stktop.idx - t'.spr.idx).toNat = (t.stktop.idx - t.spr.idx).toNat + 1 := hsp
  have hhi := hin.hi
  refine ⟨t', hrun, htop, hin, ?_, fun j hj => ?_⟩
  · rw [List.length_cons]
    omega
  · rw [List.length_cons] at hj
    have hold : t.machine.sp = vs.length := by
      change (t.stktop.idx - t.spr.idx).toNat = vs.length
      omega
    rw [hin.popped_eq_slot (by omega), hsp, hold, hm, Machine.cpush, Machine.setSlot, hold]
    cases j with
    | zero => exact Function.update_self _ _ _
    | succ j =>
      have hlt : j < vs.length := Nat.lt_of_succ_lt_succ hj
      have hval := h.values j hlt
      rw [h.inside.popped_eq_slot (by omega), hold] at hval
      have hidx : vs.length + 1 - 1 - (j + 1) = vs.length - 1 - j := by omega
      dsimp only
      rw [hidx, Function.update_of_ne (by omega), hval]
      rfl

theorem Stacked.pop {v : Value} (h : Stacked t (v :: vs)) : Stacked t.cpop.2 vs := by
  have hdepth := h.depth
  rw [List.length_cons] at hdepth
  have hidx : t.cpop.2.spr.idx = t.spr.idx + 1 := Int.sub_neg _ _
  have hlo := h.inside.lo
  refine ⟨⟨h.inside.vec, ?_, ?_, h.inside.stkfn, h.inside.fn⟩, ?_, fun j hj => ?_⟩
  · omega
  · change t.cpop.2.spr.idx ≤ t.stktop.idx
    omega
  · change (vs.length : Int) = t.stktop.idx - t.cpop.2.spr.idx
    omega
  · have hval := h.values (j + 1) (by rw [List.length_cons]; omega)
    rw [List.getElem_cons_succ] at hval
    rw [← hval]
    have hptr : t.cpop.2.spr.sub (-(j + 1)) = t.spr.sub (-((j + 1 : Nat) + 1)) := by
      rw [Ptr.sub, Ptr.sub, hidx]
      congr 1
      omega
    change t.read (t.cpop.2.spr.sub (-(j + 1))) = t.read (t.spr.sub (-((j + 1 : Nat) + 1)))
    rw [hptr]

/-- The deepest value is not marked. -/
theorem Stacked.markedStack (h : Stacked t vs) : t.markedStack = some vs.dropLast := by
  have htop : t.stktop.vec = (t.spr.sub (-1)).vec := by
    rw [t.top_eq]
    exact h.inside.vec.symm
  have hdepth := h.depth
  have hcount : (t.stktop.idx - (t.spr.sub (-1)).idx).toNat = vs.dropLast.length := by
    rw [List.length_dropLast, Ptr.sub]
    dsimp only
    omega
  rw [VmThread.markedStack, Ptr.diff, if_pos htop]
  change some ((List.range (t.stktop.idx - (t.spr.sub (-1)).idx).toNat).map t.popped) = _
  rw [hcount]
  congr 1
  apply List.ext_getElem
  · simp
  · intro j hj hj'
    rw [List.getElem_map, List.getElem_range, List.getElem_dropLast]
    exact h.values j _

theorem greatestDepth_ge (n : Nat) (ops : List StackOp) : n ≤ greatestDepth n ops := by
  cases ops with
  | nil => exact le_refl n
  | cons op ops =>
    cases op with
    | push v => exact le_max_left _ _
    | pop => exact le_max_left _ _

/-- A stack pointer that was left behind stays behind. -/
theorem stackOps_outside (hout : t.spr.vec ≠ t.stack) (hrun : t.stackOps fuel ops = some t') :
    t'.spr.vec ≠ t'.stack := by
  induction ops generalizing t with
  | nil =>
    cases hrun
    exact hout
  | cons op ops ih =>
    obtain ⟨t₁, hop, hrest⟩ := Option.bind_eq_some_iff.mp hrun
    cases op with
    | push v =>
      have hpush : t.cpush fuel (fun _ => v) = some t₁ := hop
      rw [cpush_outside hout] at hpush
      cases hpush
    | pop =>
      obtain rfl := Option.some.inj hop
      have houts : t.cpop.2.spr.vec ≠ t.cpop.2.stack := hout
      exact ih houts hrest

/-- Operations that stay within the stack leave on it what was not popped. -/
theorem Stacked.run (h : Stacked t vs) (hops : unpopped vs ops = some vs')
    (hroom : (greatestDepth vs.length ops : Int) ≤ t.stktop.idx) :
    ∃ t', t.stackOps fuel ops = some t' ∧ Stacked t' vs' := by
  induction ops generalizing t vs with
  | nil =>
    cases hops
    exact ⟨t, rfl, h⟩
  | cons op ops ih =>
    have hdepth := h.depth
    cases op with
    | push v =>
      rw [greatestDepth] at hroom
      have hnext := greatestDepth_ge (vs.length + 1) ops
      obtain ⟨t₁, hpush, htop, h₁⟩ := h.push (by omega) v
      obtain ⟨t₂, hrun, h₂⟩ := ih h₁ hops (by rw [List.length_cons, htop]; omega)
      refine ⟨t₂, ?_, h₂⟩
      rw [VmThread.stackOps, List.foldlM_cons, VmThread.stackOp, hpush]
      exact hrun
    | pop =>
      cases vs with
      | nil => cases hops
      | cons v vs =>
        rw [greatestDepth, List.length_cons, Nat.add_sub_cancel] at hroom
        obtain ⟨t₂, hrun, h₂⟩ := ih h.pop hops (by
          change (greatestDepth vs.length ops : Int) ≤ t.stktop.idx
          omega)
        exact ⟨t₂, hrun, h₂⟩

/-- A push beyond the stack leaves its pointer behind. -/
theorem Stacked.run_full (h : Stacked t vs) (hops : unpopped vs ops = some vs')
    (hfull : t.stktop.idx < greatestDepth vs.length ops) (hrun : t.stackOps fuel ops = some t') :
    t'.spr.vec ≠ t'.stack := by
  induction ops generalizing t vs with
  | nil =>
    have hdepth := h.depth
    have hlo := h.inside.lo
    rw [greatestDepth] at hfull
    omega
  | cons op ops ih =>
    have hdepth := h.depth
    have hlo := h.inside.lo
    obtain ⟨t₁, hop, hrest⟩ := Option.bind_eq_some_iff.mp hrun
    cases op with
    | push v =>
      rw [greatestDepth] at hfull
      by_cases hroom : 0 < t.spr.idx
      · obtain ⟨t₂, hpush, htop, h₂⟩ := h.push hroom v
        obtain rfl := Option.some.inj (hop.symm.trans hpush)
        exact ih h₂ hops (by rw [List.length_cons, htop]; omega) hrest
      · have hbase : t.spr = t.stkbase := h.inside.spr_eq_iff.mpr (by omega)
        obtain ⟨hspr, hstack⟩ := cpush_full h.inside hbase hop
        have hlt := t.stack_lt
        exact stackOps_outside (by omega) hrest
    | pop =>
      obtain rfl := Option.some.inj hop
      cases vs with
      | nil => cases hops
      | cons v vs =>
        rw [greatestDepth, List.length_cons, Nat.add_sub_cancel] at hfull
        rw [List.length_cons] at hdepth
        exact ih h.pop hops (by
          change t.stktop.idx < (greatestDepth vs.length ops : Int)
          omega) hrest

end Stacked

theorem mem_dropLast_iff {vs : List Value} : (∀ v, v ∈ vs.dropLast ↔ v ∈ vs) ↔
    ∀ v, vs.getLast? = some v → v ∈ vs.dropLast := by
  constructor
  · intro h v hv
    exact (h v).mpr (List.mem_of_getLast? hv)
  · intro h v
    refine ⟨fun hv => List.dropLast_subset vs hv, fun hv => ?_⟩
    obtain rfl | ⟨rest, d, rfl⟩ := List.eq_nil_or_concat' vs
    · exact hv
    · rw [List.dropLast_concat] at h ⊢
      rcases List.mem_append.mp hv with hv | hv
      · exact hv
      · rw [List.mem_singleton.mp hv]
        exact h d List.getLast?_concat

theorem stacked_arcMkvmthread {stksize : Nat} (hsize : 0 < stksize) (genv : Sym → Value) :
    Stacked (arcMkvmthread stksize genv) [] := by
  refine ⟨⟨rfl, ?_, Int.le_refl _, rfl, Int.le_refl _⟩, ?_, fun j hj => ?_⟩
  · change (0 : Int) ≤ stksize - 1
    omega
  · exact (Int.sub_self _).symm
  · cases hj

/-- The marked stack values are the values on the stack if and only if no push
found the stack full and the deepest value is on it once more. -/
theorem rootsComplete_iff (fuel : Nat) {stksize : Nat} (hsize : 0 < stksize) (genv : Sym → Value)
    {ops : List StackOp} {vs : List Value} (hops : unpopped [] ops = some vs) :
    RootsComplete fuel (arcMkvmthread stksize genv) ops vs ↔
      greatestDepth 0 ops < stksize ∧ ∀ v, vs.getLast? = some v → v ∈ vs.dropLast := by
  have hstart := stacked_arcMkvmthread hsize genv
  have htop : (arcMkvmthread stksize genv).stktop.idx = stksize - 1 := rfl
  by_cases hroom : greatestDepth 0 ops < stksize
  · have hdepth : (greatestDepth 0 ops : Int) ≤ (arcMkvmthread stksize genv).stktop.idx := by
      rw [htop]
      omega
    obtain ⟨t, hrun, ht⟩ := hstart.run hops hdepth
    rw [← mem_dropLast_iff]
    constructor
    · rintro ⟨t', l, hrun', hl, hmem⟩
      cases hrun.symm.trans hrun'
      cases ht.markedStack.symm.trans hl
      exact ⟨hroom, hmem⟩
    · rintro ⟨-, hmem⟩
      exact ⟨t, _, hrun, ht.markedStack, hmem⟩
  · refine ⟨fun hcomplete => ?_, fun h => (hroom h.1).elim⟩
    obtain ⟨t, l, hrun, hl, -⟩ := hcomplete
    have hfull : (arcMkvmthread stksize genv).stktop.idx < greatestDepth 0 ops := by
      rw [htop]
      omega
    have hout := hstart.run_full hops hfull hrun
    have hne : t.stktop.vec ≠ (t.spr.sub (-1)).vec := by
      rw [t.top_eq]
      exact hout.symm
    rw [VmThread.markedStack, Ptr.diff_of_ne hne] at hl
    cases hl

theorem rootsComplete_pushed_twice : RootsComplete 0 (arcMkvmthread 4 fun _ => .unbound)
    [.push (.fixnum 7), .push (.fixnum 7)] [.fixnum 7, .fixnum 7] := by
  refine (rootsComplete_iff 0 (by decide) _ rfl).mpr ⟨by decide, fun v hv => ?_⟩
  cases hv
  exact List.mem_cons_self

/-- The only value on a stack is not marked. -/
theorem only_value_unmarked : ¬ RootsComplete 0 (arcMkvmthread 4 fun _ => .unbound)
    [.push (.fixnum 7)] [.fixnum 7] := by
  rintro ⟨t, l, hrun, hl, hmem⟩
  cases hrun
  cases hl
  exact List.not_mem_nil ((hmem (.fixnum 7)).mpr List.mem_cons_self)

end Arcueid
