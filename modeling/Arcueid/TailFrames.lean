import Arcueid.FrameOverflow

/-! The frame of a tail call: `__arc_menv` and then `__arc_mkenv` (`env.c`). -/

namespace Arcueid

/-- `__arc_menv`. The destination is the place of the last of `n` variables of
the frame; of none it is the slot above the first one. -/
def VmThread.menv (t : VmThread) (n : Nat) : Option VmThread :=
  match t.envr with
  | .nil => some t
  | .env e => do
    let parentenv := nextenv t.machine t.envr
    let dest := t.stktop.sub (senvStart t.machine e + n - 1)
    let t ← t.memmove dest (t.spr.sub (-1)) n
    return { t with spr := dest.sub 1, envr := parentenv }
  | _ => some { t with envr := nextenv t.machine t.envr }

/-- A thread in a frame on its stack, with `n` values above the frame. -/
structure InFrame (t : VmThread) (e n : Nat) : Prop where
  inside : Inside t
  envr : t.envr = .env e
  fits : senvCount t.machine e + 1 ≤ e
  args : e + 1 + n ≤ t.machine.sp

/-- What is to be left of the frame at `e` once the frame of a tail call has
taken its place. -/
structure FrameReplaced (t t' : VmThread) (e n extra : Nat) : Prop where
  current : t'.spr.vec = t'.stack
  size : frameSize t'.machine t'.envr = n + extra
  values : ∀ i, i < n →
    arcGetenv t'.machine 0 i = some (t.machine.slot (t.machine.sp - n + i))
  unbound : ∀ i, i < extra → arcGetenv t'.machine 0 (n + i) = some .unbound
  parent : nextenv t'.machine t'.envr = nextenv t.machine t.envr
  older : ∀ i, i < senvStart t.machine e → t'.machine.slot i = t.machine.slot i

/-- The two calls succeed and replace the frame. -/
def ReplacesFrame (fuel : Nat) (t : VmThread) (e n extra : Nat) : Prop :=
  ∃ t₁ t', t.menv n = some t₁ ∧ t₁.mkenv fuel n extra = some t' ∧ FrameReplaced t t' e n extra

section TailFrames

variable {t t' : VmThread} {fuel e n extra : Nat}

theorem Inside.sp_eq (h : Inside t) : (t.machine.sp : Int) = t.stktop.idx - t.spr.idx := by
  have hhi := h.hi
  exact Int.toNat_of_nonneg (by omega)

theorem InFrame.start_le (h : InFrame t e n) : senvStart t.machine e + n ≤ t.machine.sp := by
  have hargs := h.args
  rw [senvStart]
  omega

/-- The words of the stack after the move. -/
theorem Inside.moved_slot {start : Nat} (h : Inside t) (hstart : start + n ≤ t.machine.sp)
    (hmove : t.memmove (t.stktop.sub (start + n - 1)) (t.spr.sub (-1)) n = some t') (i : Nat) :
    t'.read (t.stktop.sub i) =
      if start ≤ i ∧ i < start + n then t.machine.slot (t.machine.sp - n + (i - start))
      else t.machine.slot i := by
  obtain ⟨-, rfl⟩ := memmove_eq_some hmove
  have htop : t.stktop.vec = t.stack := by rw [t.top_eq]
  have hdest : (t.stktop.sub (start + n - 1)).vec < t.vectors.length := by
    change t.stktop.vec < t.vectors.length
    rw [htop]
    exact t.stack_lt
  have hlen := stack_length t
  have hlo := h.lo
  have hsp := h.sp_eq
  by_cases hneg : t.stktop.idx - i < 0
  · have hout : ∀ u : VmThread, u.read (t.stktop.sub i) = .nil := fun u => if_pos hneg
    rw [hout, if_neg (by omega)]
    exact (hout t).symm
  · have hcast : ((t.stktop.sub i).idx.toNat : Int) = t.stktop.idx - i :=
      Int.toNat_of_nonneg (by simp only [Ptr.sub]; omega)
    have hvec : (t.stktop.sub i).vec = (t.stktop.sub (start + n - 1)).vec := rfl
    have hfit : (t.stktop.sub i).idx < (t.vecAt t.stktop.vec).length := by
      rw [htop]
      simp only [Ptr.sub]
      omega
    rw [setVec_read hdest hvec (by simp only [Ptr.sub]; omega) hfit, hcast]
    by_cases hmid : start ≤ i ∧ i < start + n
    · have hsrc : (⟨(t.spr.sub (-1)).vec, (t.spr.sub (-1)).idx + (t.stktop.idx - i -
          (t.stktop.sub (start + n - 1)).idx)⟩ : Ptr) =
          t.stktop.sub (t.machine.sp - n + (i - start) : Nat) := by
        simp only [Ptr.sub, Ptr.mk.injEq]
        exact ⟨by rw [h.vec, htop], by omega⟩
      rw [if_pos hmid, if_pos (by simp only [Ptr.sub]; omega), hsrc]
      rfl
    · rw [if_neg hmid, if_neg (by simp only [Ptr.sub]; omega)]
      exact (if_neg hneg).symm

/-- The move on the words of the stack is the one on the slots. -/
theorem menv_machine (h : Inside t) (henvr : t.envr = .env e)
    (hstart : senvStart t.machine e + n ≤ t.machine.sp) :
    ∃ t', t.menv n = some t' ∧ t'.machine = arcMenv t.machine n ∧ t'.stktop = t.stktop ∧
      Inside t' := by
  let dest := t.stktop.sub (senvStart t.machine e + n - 1)
  have hmove : ∃ t₁, t.memmove dest (t.spr.sub (-1)) n = some t₁ := ⟨_, if_neg (by omega)⟩
  obtain ⟨t₁, ht₁⟩ := hmove
  have hlo := h.lo
  have hsp := h.sp_eq
  have hidx : (dest.sub 1).idx = t.stktop.idx - (senvStart t.machine e + n) := by
    simp only [dest, Ptr.sub]
    omega
  have hslot : (fun i : Nat => t₁.read (t.stktop.sub i)) = fun i =>
      if senvStart t.machine e ≤ i ∧ i < senvStart t.machine e + n then
        t.machine.slot (t.machine.sp - n + (i - senvStart t.machine e))
      else t.machine.slot i := funext (h.moved_slot hstart ht₁)
  obtain ⟨-, ht₁'⟩ := memmove_eq_some ht₁
  have henvr' : t.machine.envr = .env e := henvr
  refine ⟨{ t₁ with spr := dest.sub 1, envr := nextenv t.machine t.envr }, ?_, ?_, ?_, ?_⟩
  · rw [VmThread.menv, henvr]
    change (t.memmove dest (t.spr.sub (-1)) n).bind _ = _
    rw [ht₁]
    rfl
  · have hnewsp : (t.stktop.idx - (dest.sub 1).idx).toNat = senvStart t.machine e + n := by omega
    rw [arcMenv, henvr']
    dsimp only
    rw [← hslot, ← hnewsp, ht₁', ← henvr']
    rfl
  · rw [ht₁']
    rfl
  · have hvec : (dest.sub 1).vec = t.stack := by
      change t.stktop.vec = t.stack
      rw [t.top_eq]
    rw [ht₁']
    refine ⟨hvec, ?_, ?_, h.stkfn, h.fn⟩
    · change 0 ≤ (dest.sub 1).idx
      omega
    · change (dest.sub 1).idx ≤ t.stktop.idx
      omega

theorem arcMenv_eq {m : Machine} (henvr : m.envr = .env e) (n : Nat) :
    (arcMenv m n).sp = senvStart m e + n ∧ (arcMenv m n).envr = nextenv m m.envr ∧
    ∀ i, (arcMenv m n).slot i =
      if senvStart m e ≤ i ∧ i < senvStart m e + n then m.slot (m.sp - n + (i - senvStart m e))
      else m.slot i := by
  rw [arcMenv, henvr]
  exact ⟨rfl, rfl, fun i => rfl⟩

/-- The stack pointer after the move. -/
theorem InFrame.spr_idx (h : InFrame t e n) (hm : t'.machine = arcMenv t.machine n)
    (htop : t'.stktop = t.stktop) (hin : Inside t') :
    t'.spr.idx = t.stktop.idx - (senvStart t.machine e + n) := by
  have hsp : t'.machine.sp = senvStart t.machine e + n := by rw [hm, (arcMenv_eq h.envr n).1]
  have hidx := hin.sp_eq
  rw [htop] at hidx
  omega

/-- A frame that could be made had room. -/
theorem InFrame.room (h : InFrame t e n) (hrep : ReplacesFrame fuel t e n extra) :
    (senvStart t.machine e : Int) + n + extra + 2 ≤ t.stktop.idx := by
  obtain ⟨t₁, t₂, hmenv, hmkenv, -⟩ := hrep
  obtain ⟨t₁', hmenv', hm, htop, hin⟩ := menv_machine h.inside h.envr h.start_le
  obtain rfl := Option.some.inj (hmenv.symm.trans hmenv')
  have hidx := h.spr_idx hm htop hin
  have hroom := mkenv_room hin hmkenv
  omega

theorem InFrame.frameReplaced {t₁ : VmThread} (h : InFrame t e n)
    (hm : t₁.machine = arcMenv t.machine n) (hin : Inside t₁)
    (hrun : t₁.mkenv fuel n extra = some t') (hcurrent : t'.spr.vec = t'.stack) :
    FrameReplaced t t' e n extra := by
  have henvr' : t.machine.envr = .env e := h.envr
  obtain ⟨hsp, henvr, hslot⟩ := arcMenv_eq henvr' n
  rw [← hm] at hsp henvr hslot
  have hnew : NewFrame t₁ t' n extra := newFrame hin (by omega) hrun hcurrent
  have hstart : t₁.machine.sp - n = senvStart t.machine e := by omega
  refine ⟨hcurrent, hnew.size, fun i hi => ?_, hnew.unbound, hnew.parent.trans henvr, fun i hi => ?_⟩
  · have hmid : senvStart t.machine e + i - senvStart t.machine e = i := by omega
    rw [hnew.values i hi, hstart, hslot, if_pos (by omega), hmid]
  · rw [hnew.kept i (by omega), hslot, if_neg (by omega)]

/-- The frame is replaced if and only if the new one fits on the stack. -/
theorem replacesFrame_iff (fuel extra : Nat) (h : InFrame t e n) : ReplacesFrame fuel t e n extra ↔
    (senvStart t.machine e : Int) + n + extra + 2 ≤ t.stktop.idx := by
  constructor
  · exact h.room
  · intro hroom
    obtain ⟨t₁, hmenv, hm, htop, hin⟩ := menv_machine h.inside h.envr h.start_le
    have hidx := h.spr_idx hm htop hin
    obtain ⟨t', hmkenv, hcurrent⟩ := mkenv_run fuel n extra hin (by omega)
    exact ⟨t₁, t', hmenv, hmkenv, h.frameReplaced hm hin hmkenv hcurrent⟩

end TailFrames

section Eight

theorem tailBase_eq : (⟨0, 0⟩ : Ptr) = ⟨0, 0⟩ := rfl

/-- A stack of eight words with a frame of one variable, 1, and the argument 8
of a tail call. -/
def tailThread : VmThread where
  vectors := [[.nil, .nil, .nil, .nil, .fixnum 8, .nil, .fixnum 1, .fixnum 1]]
  stack := 0
  stkbase := ⟨0, 0⟩
  stktop := ⟨0, 7⟩
  spr := ⟨0, 3⟩
  stkfn := ⟨0, 4⟩
  funr := .nil
  envr := .env 2
  valr := .nil
  conr := .nil
  argc := 0
  ip := 0
  heap := []
  genv := fun _ => .unbound
  stack_lt := Nat.zero_lt_one
  base_eq := tailBase_eq
  top_eq := rfl

theorem tailThread_inFrame : InFrame tailThread 2 1 where
  inside := ⟨rfl, by decide, by decide, rfl, by decide⟩
  envr := rfl
  fits := Nat.le_refl 2
  args := Nat.le_refl 4

theorem replacesFrame_larger : ReplacesFrame 0 tailThread 2 1 4 :=
  (replacesFrame_iff 0 4 tailThread_inFrame).mpr (by decide)

/-- With one more variable the last push finds the stack full. -/
theorem not_replacesFrame_full : ¬ ∃ fuel, ReplacesFrame fuel tailThread 2 1 5 := by
  rintro ⟨fuel, hrep⟩
  exact absurd (tailThread_inFrame.room hrep) (by decide)

end Eight

end Arcueid
