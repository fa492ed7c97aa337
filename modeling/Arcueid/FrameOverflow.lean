import Arcueid.StackCheck

/-! Frames and continuations made near the end of the stack (`env.c`, `cont.c`).
A push that finds the stack full leaves the stack pointer in the old vector, so
no frame is finished after it. -/

namespace Arcueid

namespace VmThread

variable (t : VmThread)

/-- The macro `CPOP`. -/
def cpop : Value × VmThread :=
  let p := t.spr.sub (-1)
  (t.read p, { t with spr := p })

/-- The loop that puts the words of a saved stack back. -/
def restoreStack (fuel : Nat) (t : VmThread) (stk : Nat) : Option VmThread :=
  (List.range (t.machine.vec stk).length).foldlM
    (fun t i => t.cpush fuel fun t => t.machine.vindex stk i) t

/-- `arc_restorecont`. The resume point is an index into the code for closures
and a line of the function for foreign functions. -/
def restorecont (fuel : Nat) (t : VmThread) (cont : Value) : Option VmThread :=
  match cont with
  | .fixnum n =>
    let t := { t with spr := t.stktop.sub n }
    let (conr, t) := t.cpop
    let (argc, t) := t.cpop
    let (funr, t) := t.cpop
    let (envr, t) := t.cpop
    let (offset, t) := t.cpop
    let (tsfn, t) := t.cpop
    some { t with
      conr := conr, argc := (fix2int argc).toNat, funr := funr, envr := envr,
      ip := (fix2int offset).toNat, stkfn := t.stktop.sub (fix2int tsfn) }
  | .cont a => do
    let k := t.machine.hcont a
    let t := { t with
      funr := k.contFun, envr := k.contEnv, argc := (fix2int k.contArgc).toNat
      conr := k.contCont, stkfn := t.spr }
    let t ← match k.contStk with
      | .vector stk => t.restoreStack fuel stk
      | _ => some t
    some { t with ip := (fix2int k.contOfs).toNat }
  | _ => none

/-- Pushes of values that are computed one after the other. -/
def pushes (fuel : Nat) (vals : List (VmThread → Value)) (t : VmThread) : Option VmThread :=
  vals.foldlM (fun t val => t.cpush fuel val) t

end VmThread

/-- A thread that runs: its frames on the stack lie below the stack pointer. -/
structure RunningThread (t : VmThread) (es : List Value) : Prop where
  inside : Inside t
  chain : EnvChain t.machine t.envr es
  below : ∀ e, Value.env e ∈ es → senvCount t.machine e + 1 ≤ e ∧ e < t.machine.sp

/-- The variables of `m`, seen from `depth` frames further in, are those of `m'`. -/
def VarsKept (depth : Nat) (m m' : Machine) : Prop :=
  ∀ d i, i < frameSize m (envAt m m.envr d) → arcGetenv m' (depth + d) i = arcGetenv m d i

/-- What a new frame is to hold. -/
structure FrameMade (t t' : VmThread) (prevsize extrasize : Nat) : Prop where
  current : t'.spr.vec = t'.stack
  size : frameSize t'.machine t'.envr = prevsize + extrasize
  values : ∀ i, i < prevsize →
    arcGetenv t'.machine 0 i = some (t.machine.slot (t.machine.sp - prevsize + i))
  unbound : ∀ i, i < extrasize → arcGetenv t'.machine 0 (prevsize + i) = some .unbound
  parent : nextenv t'.machine t'.envr = t.envr
  bindings : VarsKept 1 t.machine t'.machine

/-- What a restored continuation is to give back. -/
structure Resumed (t : VmThread) (offset : Nat) (r : VmThread) : Prop where
  inside : Inside r
  funr : r.funr = t.funr
  ip : r.ip = offset
  argc : r.argc = t.argc
  envr : r.envr = t.envr
  bindings : VarsKept 0 t.machine r.machine
  conr : r.conr = t.conr
  part : r.machine.tsfn = t.machine.tsfn ∧ r.machine.sp = t.machine.sp
  stack : ∀ i, i < t.machine.sp → r.machine.slot i = t.machine.slot i

/-- A later thread that has only used the stack above the pointer of `t`. -/
structure Above (t u : VmThread) : Prop where
  stack : u.stack = t.stack
  stktop : u.stktop = t.stktop
  slot : ∀ i, i < t.machine.sp → u.machine.slot i = t.machine.slot i
  heap : ∀ a, a < t.heap.length → u.machine.vec a = t.machine.vec a

section Bindings

variable {m m' : Machine} {es : List Value}

/-- Frames below `top` read the same where the words below `top` are kept. -/
theorem VarsKept.of_kept {depth top : Nat} (hchain : EnvChain m m.envr es)
    (hbelow : ∀ e, Value.env e ∈ es → senvCount m e + 1 ≤ e ∧ e < top)
    (hslot : ∀ i, i < top → m'.slot i = m.slot i)
    (hvec : ∀ a, a < m.heap.length → m'.vec a = m.vec a)
    (henvr : (nextenv m')^[depth] m'.envr = m.envr) : VarsKept depth m m' := by
  intro d i hi
  have hat : envAt m' m'.envr (depth + d) = envAt m m.envr d := by
    have hkept : envAt m' m.envr d = envAt m m.envr d :=
      hchain.envAt_eq hvec (fun e he => hslot e (hbelow e he).2) d
    rw [envAt, Nat.add_comm, Function.iterate_add_apply, henvr]
    exact hkept
  rw [arcGetenv, arcGetenv, envval, envval, hat]
  cases hv : envAt m m.envr d with
  | vector a =>
    have hlt := hchain.frame_lt hv
    simp only [Option.map_some, Machine.read, Machine.vindex, hvec a hlt]
  | env e =>
    have hmem : Value.env e ∈ es := by
      rcases hchain.envAt_mem d with hnil | hmem
      · rw [hv] at hnil
        cases hnil
      · rwa [hv] at hmem
    obtain ⟨hfit, hlt⟩ := hbelow e hmem
    have hcount : senvCount m' e = senvCount m e := by
      rw [senvCount, senvCount, hslot _ (by omega)]
    have hsize : i < senvCount m e := by
      rw [hv] at hi
      exact hi
    have hstart : senvStart m' e = senvStart m e := by rw [senvStart, senvStart, hcount]
    have hread : m'.slot (senvStart m e + i) = m.slot (senvStart m e + i) := by
      refine hslot _ ?_
      rw [senvStart]
      omega
    simp only [Option.map_some, Machine.read, hstart, hread]
  | _ => rfl

end Bindings

section Pushes

variable {t t' : VmThread} {fuel : Nat} {val : VmThread → Value}

theorem pushes_cons {vals : List (VmThread → Value)} :
    t.pushes fuel (val :: vals) = (t.cpush fuel val).bind fun t => t.pushes fuel vals := rfl

theorem cpush_run (fuel : Nat) (val : VmThread → Value) (h : Inside t) (hroom : 0 < t.spr.idx) :
    ∃ t', t.cpush fuel val = some t' ∧ Inside t' ∧ t'.spr.idx = t.spr.idx - 1 ∧
      t'.stktop = t.stktop := by
  have hne : t.spr ≠ t.stkbase := h.spr_eq_iff.not.mpr (by omega)
  have hpush : ∃ t', t.cpush fuel val = some t' ∧ t'.machine = t.machine.cpush (val t) ∧
      t'.stktop = t.stktop ∧ Inside t' := cpush_machine h hne
  obtain ⟨t', hrun, hm, htop, hin⟩ := hpush
  have hsp : (t'.stktop.idx - t'.spr.idx).toNat = (t.stktop.idx - t.spr.idx).toNat + 1 :=
    congrArg Machine.sp hm
  have hhi := h.hi
  have hhi' := hin.hi
  rw [htop] at hsp hhi'
  exact ⟨t', hrun, hin, by omega, htop⟩

theorem cpush_room (h : Inside t) (hrun : t.cpush fuel val = some t')
    (hin : t'.spr.vec = t'.stack) : 0 < t.spr.idx := by
  have hlo := h.lo
  have hne : t.spr.idx ≠ 0 := by
    intro hz
    obtain ⟨hspr, hstack⟩ := cpush_full h (h.spr_eq_iff.mpr hz) hrun
    have hlt := t.stack_lt
    omega
  omega

theorem pushes_outside {vals : List (VmThread → Value)} (hout : t.spr.vec ≠ t.stack)
    (hrun : t.pushes fuel vals = some t') : t'.spr.vec ≠ t'.stack := by
  cases vals with
  | nil =>
    cases hrun
    exact hout
  | cons val vals =>
    rw [pushes_cons, cpush_outside hout] at hrun
    cases hrun

/-- With room for all of them, pushes succeed. -/
theorem pushes_run (fuel : Nat) (vals : List (VmThread → Value)) (h : Inside t)
    (hroom : (vals.length : Int) ≤ t.spr.idx) :
    ∃ t', t.pushes fuel vals = some t' ∧ Inside t' ∧ t'.spr.idx = t.spr.idx - vals.length := by
  induction vals generalizing t with
  | nil => exact ⟨t, rfl, h, (Int.sub_zero _).symm⟩
  | cons val vals ih =>
    rw [List.length_cons] at hroom ⊢
    obtain ⟨t₁, hrun₁, hin₁, hidx₁, -⟩ := cpush_run fuel val h (by omega)
    obtain ⟨t₂, hrun₂, hin₂, hidx₂⟩ := ih hin₁ (by omega)
    have hrun : t.pushes fuel (val :: vals) = some t₂ := by rw [pushes_cons, hrun₁]; exact hrun₂
    exact ⟨t₂, hrun, hin₂, by omega⟩

/-- Pushes that end in the current vector had room. -/
theorem pushes_room {vals : List (VmThread → Value)} (h : Inside t)
    (hrun : t.pushes fuel vals = some t') (hin : t'.spr.vec = t'.stack) :
    (vals.length : Int) ≤ t.spr.idx := by
  induction vals generalizing t with
  | nil => exact h.lo
  | cons val vals ih =>
    rw [pushes_cons] at hrun
    obtain ⟨t₁, hrun₁, hrest⟩ := Option.bind_eq_some_iff.mp hrun
    have hvec₁ : t₁.spr.vec = t₁.stack := by
      by_contra hout
      exact pushes_outside hout hrest hin
    have hpos := cpush_room h hrun₁ hvec₁
    obtain ⟨t₁', hrun₁', hin₁, hidx₁, -⟩ := cpush_run fuel val h hpos
    cases hrun₁.symm.trans hrun₁'
    have hrest' := ih hin₁ hrest
    rw [List.length_cons]
    omega

theorem pushAll_eq_pushes (vs : List Value) :
    t.pushAll fuel vs = t.pushes fuel (vs.map fun v _ => v) := by
  rw [VmThread.pushAll, VmThread.pushes, List.foldlM_map]

end Pushes

section Frames

variable {t t' : VmThread} {fuel prevsize extrasize offset : Nat} {es : List Value}

theorem mkcont_eq : t.mkcont fuel offset = (t.stktop.diff t.stkfn).bind fun tsfn =>
    (t.pushes fuel [fun _ => .fixnum tsfn, fun _ => .fixnum offset, VmThread.envr, VmThread.funr,
      fun t => .fixnum t.argc, VmThread.conr]).bind fun t =>
    (t.stktop.diff t.spr).bind fun cont => some { t with conr := .fixnum cont } := by
  simp only [VmThread.mkcont, VmThread.pushes, List.foldlM_cons, List.foldlM_nil,
    Option.bind_eq_bind, Option.bind_assoc, Option.pure_def, Option.bind_some]

theorem mkenv_eq : t.mkenv fuel prevsize extrasize =
    (t.pushes fuel (List.replicate extrasize (fun _ => .unbound) ++
      [fun _ => .fixnum (prevsize + extrasize : Nat)])).bind fun t =>
    (t.cpush fuel VmThread.envr).bind fun t' =>
    (t'.stktop.diff t.spr).bind fun esofs =>
      some { t' with stkfn := t'.spr, envr := .env esofs.toNat } := by
  simp only [VmThread.mkenv, pushAll_eq_pushes, List.map_replicate, VmThread.pushes,
    List.foldlM_append, List.foldlM_cons, List.foldlM_nil, Option.bind_eq_bind, Option.bind_assoc,
    Option.pure_def, Option.bind_some]

theorem mkcont_run (fuel offset : Nat) (h : Inside t) (hroom : 6 ≤ t.spr.idx) :
    ∃ t', t.mkcont fuel offset = some t' := by
  have htop : t.stktop.vec = t.stkfn.vec := by rw [h.stkfn, t.top_eq]
  rw [mkcont_eq, Ptr.diff_eq_some.mpr ⟨htop, rfl⟩, Option.bind_some]
  obtain ⟨t₁, hrun, hin, -⟩ := pushes_run fuel [fun _ => .fixnum (t.stktop.idx - t.stkfn.idx),
    fun _ => .fixnum offset, VmThread.envr, VmThread.funr, fun t => .fixnum t.argc,
    VmThread.conr] h hroom
  have htop₁ : t₁.stktop.vec = t₁.spr.vec := by rw [hin.vec, t₁.top_eq]
  rw [hrun, Option.bind_some, Ptr.diff_eq_some.mpr ⟨htop₁, rfl⟩]
  exact ⟨_, rfl⟩

theorem mkcont_room (h : Inside t) (hrun : t.mkcont fuel offset = some t') : 6 ≤ t.spr.idx := by
  rw [mkcont_eq] at hrun
  obtain ⟨tsfn, -, hrun⟩ := Option.bind_eq_some_iff.mp hrun
  obtain ⟨t₁, hpushes, hrun⟩ := Option.bind_eq_some_iff.mp hrun
  obtain ⟨cont, hcont, -⟩ := Option.bind_eq_some_iff.mp hrun
  have hvec : t₁.spr.vec = t₁.stack := by
    rw [← (Ptr.diff_eq_some.mp hcont).1, t₁.top_eq]
  exact pushes_room h hpushes hvec

theorem mkenv_run (fuel prevsize extrasize : Nat) (h : Inside t)
    (hroom : (extrasize : Int) + 2 ≤ t.spr.idx) :
    ∃ t', t.mkenv fuel prevsize extrasize = some t' ∧ t'.spr.vec = t'.stack := by
  let vals : List (VmThread → Value) := List.replicate extrasize (fun _ => .unbound) ++
    [fun _ => .fixnum (prevsize + extrasize : Nat)]
  have hlen : (vals.length : Int) = extrasize + 1 := by simp [vals]
  obtain ⟨t₁, hrun₁, hin₁, hidx₁⟩ := pushes_run fuel vals h (by omega)
  obtain ⟨t₂, hrun₂, hin₂, -, htop⟩ := cpush_run fuel VmThread.envr hin₁ (by omega)
  have hsame : t₂.stktop.vec = t₁.spr.vec := by rw [htop, hin₁.vec, t₁.top_eq]
  rw [mkenv_eq, hrun₁, Option.bind_some, hrun₂, Option.bind_some,
    Ptr.diff_eq_some.mpr ⟨hsame, rfl⟩, Option.bind_some]
  exact ⟨_, rfl, hin₂.vec⟩

theorem mkenv_room (h : Inside t) (hrun : t.mkenv fuel prevsize extrasize = some t') :
    (extrasize : Int) + 2 ≤ t.spr.idx := by
  let vals : List (VmThread → Value) := List.replicate extrasize (fun _ => .unbound) ++
    [fun _ => .fixnum (prevsize + extrasize : Nat)]
  have hlen : (vals.length : Int) = extrasize + 1 := by simp [vals]
  rw [mkenv_eq] at hrun
  obtain ⟨t₁, hrun₁, hrun⟩ := Option.bind_eq_some_iff.mp hrun
  obtain ⟨t₂, hrun₂, hrun⟩ := Option.bind_eq_some_iff.mp hrun
  obtain ⟨esofs, hofs, -⟩ := Option.bind_eq_some_iff.mp hrun
  have hvec₁ : t₁.spr.vec = t₁.stack := by
    by_contra hout
    rw [cpush_outside hout] at hrun₂
    cases hrun₂
  have hroom₁ : (vals.length : Int) ≤ t.spr.idx := pushes_room h hrun₁ hvec₁
  obtain ⟨t₁', hrun₁', hin₁, hidx₁⟩ := pushes_run fuel vals h hroom₁
  cases hrun₁.symm.trans hrun₁'
  -- the offset of the frame is a difference of pointers: the last push had room too
  have hne : t₁.spr.idx ≠ 0 := by
    intro hz
    obtain ⟨-, hstack⟩ := cpush_full hin₁ (hin₁.spr_eq_iff.mpr hz) hrun₂
    have hsame : t₂.stktop.vec = t₁.spr.vec := (Ptr.diff_eq_some.mp hofs).1
    have hlt := t₁.stack_lt
    rw [t₂.top_eq, hin₁.vec] at hsame
    change t₂.stack = t₁.stack at hsame
    omega
  have hlo := hin₁.lo
  omega

/-- The words of a new frame. -/
theorem arcMkenv_words (m : Machine) (prevsize extrasize : Nat) :
    (arcMkenv m prevsize extrasize).envr = .env (m.sp + extrasize + 1) ∧
    (arcMkenv m prevsize extrasize).slot (m.sp + extrasize + 1) = m.envr ∧
    senvCount (arcMkenv m prevsize extrasize) (m.sp + extrasize + 1) = prevsize + extrasize ∧
    (∀ i, i < m.sp → (arcMkenv m prevsize extrasize).slot i = m.slot i) ∧
    ∀ i, i < extrasize → (arcMkenv m prevsize extrasize).slot (m.sp + i) = .unbound := by
  let vs := List.replicate extrasize .unbound ++ [.fixnum (prevsize + extrasize : Nat), m.envr]
  have hword : ∀ i (hi : i < vs.length), (arcMkenv m prevsize extrasize).slot (m.sp + i) = vs[i] := by
    intro i hi
    rw [arcMkenv_eq]
    exact pushAll_slot_add hi
  have hlen : vs.length = extrasize + 2 := by simp [vs]
  refine ⟨by rw [arcMkenv_eq], ?_, ?_, ?_, ?_⟩
  · rw [Nat.add_assoc, hword (extrasize + 1) (by omega)]
    simp [vs]
  · have hcount : vs[extrasize] = .fixnum (prevsize + extrasize : Nat) := by simp [vs]
    rw [senvCount, Nat.add_sub_cancel, hword extrasize (by omega), hcount]
    rfl
  · intro i hi
    rw [arcMkenv_eq]
    exact pushAll_slot_lt hi
  · intro i hi
    rw [hword i (by omega)]
    simp [vs, List.getElem_append_left, hi]

/-- What a frame holds that was made on the values below the stack pointer. -/
structure NewFrame (t t' : VmThread) (prevsize extrasize : Nat) : Prop where
  size : frameSize t'.machine t'.envr = prevsize + extrasize
  values : ∀ i, i < prevsize →
    arcGetenv t'.machine 0 i = some (t.machine.slot (t.machine.sp - prevsize + i))
  unbound : ∀ i, i < extrasize → arcGetenv t'.machine 0 (prevsize + i) = some .unbound
  parent : nextenv t'.machine t'.envr = t.envr
  kept : ∀ i, i < t.machine.sp → t'.machine.slot i = t.machine.slot i
  heap : t'.machine.heap = t.machine.heap

theorem newFrame (h : Inside t) (hp : prevsize ≤ t.machine.sp)
    (hrun : t.mkenv fuel prevsize extrasize = some t') (hcurrent : t'.spr.vec = t'.stack) :
    NewFrame t t' prevsize extrasize := by
  have hm : t'.machine = arcMkenv t.machine prevsize extrasize := by
    rcases mkenv_cases h hrun with ⟨hm, -⟩ | hout
    · exact hm
    · exact absurd hcurrent hout
  have hwords := arcMkenv_words t.machine prevsize extrasize
  have hheap : (arcMkenv t.machine prevsize extrasize).heap = t.machine.heap := by
    rw [arcMkenv_eq]
    exact pushAll_heap
  rw [← hm] at hwords hheap
  obtain ⟨henvr, hlink, hcount, hslot, hunbound⟩ := hwords
  have hget : ∀ i, arcGetenv t'.machine 0 i =
      some (t'.machine.slot (t.machine.sp - prevsize + i)) := by
    intro i
    have hstart : senvStart t'.machine (t.machine.sp + extrasize + 1) = t.machine.sp - prevsize := by
      rw [senvStart, hcount]
      omega
    rw [arcGetenv, envval, henvr]
    simp only [envAt, Function.iterate_zero, id_eq, Option.map_some, Machine.read, hstart]
  have hnext : nextenv t'.machine t'.machine.envr = t.machine.envr := by
    rw [henvr]
    exact hlink
  refine ⟨?_, fun i hi => ?_, fun i hi => ?_, hnext, hslot, hheap⟩
  · change frameSize t'.machine t'.machine.envr = _
    rw [henvr]
    exact hcount
  · rw [hget i, hslot _ (by omega)]
  · have hidx : t.machine.sp - prevsize + (prevsize + i) = t.machine.sp + i := by omega
    rw [hget, hidx, hunbound i hi]

/-- With room for its words, a frame holds what it is to hold. -/
theorem frameMade (h : RunningThread t es) (hp : prevsize ≤ t.machine.sp)
    (hrun : t.mkenv fuel prevsize extrasize = some t') (hcurrent : t'.spr.vec = t'.stack) :
    FrameMade t t' prevsize extrasize := by
  have hnew : NewFrame t t' prevsize extrasize := newFrame h.inside hp hrun hcurrent
  refine ⟨hcurrent, hnew.size, hnew.values, hnew.unbound, hnew.parent, ?_⟩
  refine VarsKept.of_kept h.chain h.below hnew.kept (fun a _ => ?_) hnew.parent
  rw [Machine.vec, Machine.vec, hnew.heap]

/-- The words a continuation is made of. -/
theorem sconrMkcont_words (m : Machine) (offset : Nat) :
    (sconrMkcont m offset).sp = m.sp + 6 ∧ (sconrMkcont m offset).conr = .fixnum (m.sp + 6 : Nat) ∧
    (∀ i, i < m.sp → (sconrMkcont m offset).slot i = m.slot i) ∧
    (sconrMkcont m offset).slot m.sp = .fixnum m.tsfn ∧
    (sconrMkcont m offset).slot (m.sp + 1) = .fixnum offset ∧
    (sconrMkcont m offset).slot (m.sp + 2) = m.envr ∧
    (sconrMkcont m offset).slot (m.sp + 3) = m.funr ∧
    (sconrMkcont m offset).slot (m.sp + 4) = .fixnum m.argc ∧
    (sconrMkcont m offset).slot (m.sp + 5) = m.conr := by
  let vs : List Value := [.fixnum m.tsfn, .fixnum offset, m.envr, m.funr, .fixnum m.argc, m.conr]
  have hword : ∀ i (hi : i < 6), (sconrMkcont m offset).slot (m.sp + i) = vs[i] := by
    intro i hi
    change (m.pushAll vs).slot (m.sp + i) = vs[i]
    exact pushAll_slot_add hi
  refine ⟨rfl, rfl, ?_, hword 0 (by decide), hword 1 (by decide), hword 2 (by decide),
    hword 3 (by decide), hword 4 (by decide), hword 5 (by decide)⟩
  intro i hi
  change (m.pushAll vs).slot i = m.slot i
  exact pushAll_slot_lt hi

theorem Ptr.sub_iterate (k : Nat) (p : Ptr) : (fun p : Ptr => p.sub (-1))^[k] p = p.sub (-k) := by
  induction k generalizing p with
  | zero => simp [Ptr.sub]
  | succ k ih =>
    rw [Function.iterate_succ_apply, ih]
    simp only [Ptr.sub, Ptr.mk.injEq, true_and]
    omega

/-- The pops of a restored continuation on the stack. -/
theorem restorecont_fixnum (fuel n : Nat) (u : VmThread) :
    ∃ r, u.restorecont fuel (.fixnum (n + 6 : Nat)) = some r ∧
      r.vectors = u.vectors ∧ r.stack = u.stack ∧ r.stktop = u.stktop ∧ r.heap = u.heap ∧
      r.spr = u.stktop.sub n ∧ r.stkfn = u.stktop.sub (fix2int (u.machine.slot n)) ∧
      r.ip = (fix2int (u.machine.slot (n + 1))).toNat ∧ r.envr = u.machine.slot (n + 2) ∧
      r.funr = u.machine.slot (n + 3) ∧ r.argc = (fix2int (u.machine.slot (n + 4))).toNat ∧
      r.conr = u.machine.slot (n + 5) := by
  have hpop : ∀ k i : Nat, i + k = n + 6 →
      u.read ((fun p : Ptr => p.sub (-1))^[k] (u.stktop.sub (n + 6 : Nat))) = u.machine.slot i := by
    intro k i hi
    change _ = u.read (u.stktop.sub i)
    rw [Ptr.sub_iterate]
    congr 1
    simp only [Ptr.sub, Ptr.mk.injEq, true_and]
    omega
  have hspr : (fun p : Ptr => p.sub (-1))^[6] (u.stktop.sub (n + 6 : Nat)) = u.stktop.sub n := by
    simp only [Function.iterate_succ_apply, Function.iterate_zero_apply, Ptr.sub, Ptr.mk.injEq,
      true_and]
    omega
  refine ⟨_, rfl, rfl, rfl, rfl, rfl, hspr, ?_, ?_, hpop 4 _ (by omega), hpop 3 _ (by omega), ?_,
    hpop 1 _ (by omega)⟩
  · exact congrArg (fun v => u.stktop.sub (fix2int v)) (hpop 6 n (by omega))
  · exact congrArg (fun v => (fix2int v).toNat) (hpop 5 (n + 1) (by omega))
  · exact congrArg (fun v => (fix2int v).toNat) (hpop 2 (n + 4) (by omega))

/-- Once its words are on the stack, a continuation gives back what it saves. -/
theorem resumed {u : VmThread} (h : RunningThread t es) (hrun : t.mkcont fuel offset = some t')
    (hu : Above t' u) : ∃ r, u.restorecont fuel t'.conr = some r ∧ Resumed t offset r := by
  obtain ⟨hm, hin⟩ := mkcont_inside h.inside hrun
  obtain ⟨hsp, hconr, hslot, h0, h1, h2, h3, h4, h5⟩ := sconrMkcont_words t.machine offset
  have hsame : (sconrMkcont t.machine offset).heap = t.machine.heap := rfl
  rw [← hm] at hsp hconr hslot h0 h1 h2 h3 h4 h5 hsame
  have hkept : ∀ i, i < t.machine.sp + 6 → u.machine.slot i = t'.machine.slot i :=
    fun i hi => hu.slot i (by omega)
  obtain ⟨r, hr, hvectors, hstack, hstktop, hrheap, hspr, hstkfn, hip, henvr, hfunr, hargc, hrconr⟩ :=
    restorecont_fixnum fuel t.machine.sp u
  rw [hkept _ (by omega), h0] at hstkfn
  rw [hkept _ (by omega), h1] at hip
  rw [hkept _ (by omega), h2] at henvr
  rw [hkept _ (by omega), h3] at hfunr
  rw [hkept _ (by omega), h4] at hargc
  rw [hkept _ (by omega), h5] at hrconr
  have hrslot : ∀ i, i < t.machine.sp → r.machine.slot i = t.machine.slot i := by
    intro i hi
    have hsame : r.machine.slot i = u.machine.slot i := by
      change r.read (r.stktop.sub i) = u.read (u.stktop.sub i)
      rw [hstktop, VmThread.read, VmThread.read, VmThread.vecAt, VmThread.vecAt, hvectors]
    rw [hsame, hkept i (by omega), hslot i hi]
  have hrvec : ∀ a, a < t.machine.heap.length → r.machine.vec a = t.machine.vec a := by
    intro a ha
    have hlt : a < t'.heap.length := by
      change a < t'.machine.heap.length
      rwa [hsame]
    calc r.machine.vec a = u.machine.vec a := by
          have hheap : r.machine.heap = u.machine.heap := hrheap
          rw [Machine.vec, Machine.vec, hheap]
      _ = t'.machine.vec a := hu.heap a hlt
      _ = t.machine.vec a := by rw [Machine.vec, Machine.vec, hsame]
  have htop : r.stktop.idx = t'.stktop.idx := by rw [hstktop, hu.stktop]
  have hlo := hin.lo
  have hhi := hin.hi
  have hfit : t'.stktop.idx - t'.spr.idx = (t.machine.sp + 6 : Nat) := by
    have hspr' : (t'.stktop.idx - t'.spr.idx).toNat = t.machine.sp + 6 := hsp
    omega
  have hinside : Inside r := by
    have hvec : u.stktop.vec = r.stack := by rw [u.top_eq, hstack]
    refine ⟨by rw [hspr]; exact hvec, ?_, ?_, by rw [hstkfn]; exact hvec, ?_⟩
    · rw [hspr, ← hstktop]
      simp only [Ptr.sub]
      omega
    · rw [hspr, ← hstktop]
      simp only [Ptr.sub]
      omega
    · rw [hstkfn, ← hstktop]
      simp only [Ptr.sub, fix2int]
      omega
  have hpart : r.machine.tsfn = t.machine.tsfn ∧ r.machine.sp = t.machine.sp := by
    constructor
    · change (r.stktop.idx - r.stkfn.idx).toNat = _
      rw [hstkfn, hstktop]
      simp only [Ptr.sub, fix2int]
      omega
    · change (r.stktop.idx - r.spr.idx).toNat = _
      rw [hspr, hstktop]
      simp only [Ptr.sub]
      omega
  have hcont : t'.conr = .fixnum (t.machine.sp + 6 : Nat) := hconr
  refine ⟨r, hcont ▸ hr, hinside, hfunr, ?_, ?_, henvr, ?_, hrconr, hpart, hrslot⟩
  · rw [hip]
    exact Int.toNat_natCast offset
  · rw [hargc]
    exact Int.toNat_natCast t.argc
  · exact VarsKept.of_kept h.chain h.below hrslot hrvec henvr

/-- A frame is made, and a continuation gives back the state of the call,
exactly where the pushes in them do not reach the end of the stack. -/
theorem frames_kept_iff (h : RunningThread t es) (hp : prevsize ≤ t.machine.sp)
    (fuel extrasize offset : Nat) :
    ((∃ t', t.mkenv fuel prevsize extrasize = some t' ∧ FrameMade t t' prevsize extrasize) ↔
      (extrasize : Int) + 2 ≤ t.spr.idx) ∧
    ((∃ t', t.mkcont fuel offset = some t' ∧ ∀ u, Above t' u →
      ∃ r, u.restorecont fuel t'.conr = some r ∧ Resumed t offset r) ↔ 6 ≤ t.spr.idx) := by
  refine ⟨⟨?_, fun hroom => ?_⟩, ?_, fun hroom => ?_⟩
  · rintro ⟨t', hrun, -⟩
    exact mkenv_room h.inside hrun
  · obtain ⟨t', hrun, hcurrent⟩ := mkenv_run fuel prevsize extrasize h.inside hroom
    exact ⟨t', hrun, frameMade h hp hrun hcurrent⟩
  · rintro ⟨t', hrun, -⟩
    exact mkcont_room h.inside hrun
  · obtain ⟨t', hrun⟩ := mkcont_run fuel offset h.inside hroom
    exact ⟨t', hrun, fun u hu => resumed h hrun hu⟩

theorem Reached.running {cs : List Value} {top : Nat} (h : Reached fuel t cs top)
    (hin : Inside t) : ∃ es, RunningThread t es := by
  rcases h.built with ⟨hbuilt, -⟩ | hout
  · have hbelow := hbuilt.formedBelow
    obtain ⟨es, hchain, -, hframes⟩ := hbelow.envr
    refine ⟨es, hin, hchain, fun e he => ?_⟩
    obtain ⟨hfit, hlt⟩ := hframes e he
    exact ⟨hfit, lt_of_lt_of_le hlt hbelow.le⟩
  · exact absurd hin.vec hout

end Frames

/-- A new thread with nine stack slots after one push. -/
def roomyThread : VmThread :=
  { (arcMkvmthread 9 fun _ => .unbound).write ⟨0, 8⟩ (.fixnum 7) with spr := ⟨0, 7⟩ }

theorem roomyThread_running : RunningThread roomyThread [] :=
  ⟨⟨rfl, by decide, by decide, rfl, by decide⟩, .nil, by simp⟩

theorem fullThread_running : RunningThread fullThread [] :=
  ⟨⟨rfl, by decide, by decide, rfl, by decide⟩, .nil, by simp⟩

theorem frames_kept_roomyThread :
    ((∃ t', roomyThread.mkenv 2 1 1 = some t' ∧ FrameMade roomyThread t' 1 1) ↔
      ((1 : Nat) : Int) + 2 ≤ roomyThread.spr.idx) ∧
    ((∃ t', roomyThread.mkcont 2 5 = some t' ∧ ∀ u, Above t' u →
      ∃ r, u.restorecont 2 t'.conr = some r ∧ Resumed roomyThread 5 r) ↔
      6 ≤ roomyThread.spr.idx) :=
  frames_kept_iff roomyThread_running (by decide) 2 1 5

/-- The push of the count leaves the stack pointer in vector 0 and makes vector
1 the stack, and neither a frame nor a continuation is finished. -/
theorem frames_lost_fullThread : RunningThread fullThread [] ∧ 1 ≤ fullThread.machine.sp ∧
    (fullThread.cpush 2 fun _ => .fixnum 1).map (fun t => (t.spr.vec, t.stack)) = some (0, 1) ∧
    (¬ ∃ t', fullThread.mkenv 2 1 0 = some t' ∧ FrameMade fullThread t' 1 0) ∧
    ¬ ∃ t', fullThread.mkcont 2 5 = some t' ∧ ∀ u, Above t' u →
      ∃ r, u.restorecont 2 t'.conr = some r ∧ Resumed fullThread 5 r := by
  refine ⟨fullThread_running, by decide, by decide, ?_, ?_⟩
  · rintro ⟨t', hrun, -⟩
    have hroom := mkenv_room fullThread_running.inside hrun
    exact absurd hroom (by decide)
  · rintro ⟨t', hrun, -⟩
    have hroom := mkcont_room fullThread_running.inside hrun
    exact absurd hroom (by decide)

end Arcueid
