import Arcueid.ContSharing

/-! The stack of a thread as pointers into vectors, and what is done when it is
full (`thread.c`). -/

namespace Arcueid

/-- A pointer to an element of a stack vector. -/
structure Ptr where
  vec : Nat
  idx : Int
  deriving DecidableEq

namespace Ptr

def sub (p : Ptr) (n : Int) : Ptr := ⟨p.vec, p.idx - n⟩

/-- Only pointers into one vector can be subtracted or compared. -/
def diff (p q : Ptr) : Option Int := if p.vec = q.vec then some (p.idx - q.idx) else none

end Ptr

/-- A thread with all vectors that have served as its stack. -/
structure VmThread where
  vectors : List (List Value)
  stack : Nat
  stkbase : Ptr
  stktop : Ptr
  spr : Ptr
  stkfn : Ptr
  funr : Value
  envr : Value
  valr : Value
  conr : Value
  argc : Nat
  ip : Nat
  heap : List Obj
  genv : Sym → Value
  stack_lt : stack < vectors.length
  base_eq : stkbase = ⟨stack, 0⟩
  top_eq : stktop = ⟨stack, vectors[stack].length - 1⟩

/-- `arc_mkthread` with the stack size of the context. -/
def arcMkvmthread (stksize : Nat) (genv : Sym → Value) : VmThread where
  vectors := [List.replicate stksize .nil]
  stack := 0
  stkbase := ⟨0, 0⟩
  stktop := ⟨0, stksize - 1⟩
  spr := ⟨0, stksize - 1⟩
  stkfn := ⟨0, stksize - 1⟩
  funr := .nil
  envr := .nil
  valr := .nil
  conr := .nil
  argc := 0
  ip := 0
  heap := []
  genv := genv
  stack_lt := Nat.zero_lt_one
  base_eq := rfl
  top_eq := by simp

namespace VmThread

variable (t : VmThread)

def vecAt (i : Nat) : List Value := t.vectors.getD i []

def read (p : Ptr) : Value := if p.idx < 0 then .nil else (t.vecAt p.vec).getD p.idx.toNat .nil

/-- Overwrite the elements of a vector. -/
def setVec (i : Nat) (elem : Nat → Value) : VmThread :=
  { t with
    vectors := t.vectors.set i ((List.range (t.vecAt i).length).map elem)
    stack_lt := by simpa using t.stack_lt
    top_eq := by
      rw [t.top_eq, List.getElem_set]
      split
      · next hi => simp [vecAt, hi, t.stack_lt]
      · rfl }

def write (p : Ptr) (v : Value) : VmThread :=
  t.setVec p.vec fun j => if (j : Int) = p.idx then v else (t.vecAt p.vec).getD j .nil

/-- The thread as the other operations see it: the stack counted from `TSTOP`. -/
def machine : Machine where
  slot := fun i => t.read (t.stktop.sub i)
  sp := (t.stktop.idx - t.spr.idx).toNat
  tsfn := (t.stktop.idx - t.stkfn.idx).toNat
  funr := t.funr
  envr := t.envr
  valr := t.valr
  conr := t.conr
  argc := t.argc
  ip := t.ip
  heap := t.heap
  genv := t.genv

/-- The stack words, the heap and the registers of a machine put into the thread. -/
def setMachine (m : Machine) : VmThread :=
  { t.setVec t.stack fun j => m.slot (t.stktop.idx - j).toNat with
    funr := m.funr, envr := m.envr, valr := m.valr, conr := m.conr, argc := m.argc, ip := m.ip
    heap := m.heap, genv := m.genv }

/-- A negative count is converted to an unsigned one and never comes back. -/
def memmove (dst src : Ptr) (n : Int) : Option VmThread :=
  if n < 0 then none
  else some (t.setVec dst.vec fun j =>
    if dst.idx ≤ j ∧ j < dst.idx + n then t.read ⟨src.vec, src.idx + (j - dst.idx)⟩
    else (t.vecAt dst.vec).getD j .nil)

end VmThread

def vectorDoubledown (curr : List Value) : List Value :=
  List.replicate curr.length .nil ++ curr

def growStack (t : VmThread) : VmThread :=
  let tsfnofs := t.stktop.idx - t.stkfn.idx
  let new := vectorDoubledown (t.vecAt t.stack)
  { t with
    vectors := t.vectors ++ [new]
    stack := t.vectors.length
    stkbase := ⟨t.vectors.length, 0⟩
    stktop := ⟨t.vectors.length, new.length - 1⟩
    stkfn := ⟨t.vectors.length, new.length - 1 - tsfnofs⟩
    stack_lt := by simp
    base_eq := rfl
    top_eq := by simp }

/-- `__arc_stackcheck`. The statement `if (TSP(thr) <= TSBASE(thr));` guards
nothing, so the stack is grown in any case. -/
def arcStackcheck (fuel : Nat) (t : VmThread) : Option VmThread := do
  let used ← t.spr.diff t.stkbase
  if used < 0 then none
  else if 0 < used then return t
  else
    let m ← moveToHeap fuel t.machine
    let t := t.setMachine m
    let mvcount ← t.stkfn.diff t.spr
    let t ← t.memmove (t.stktop.sub mvcount) t.spr mvcount
    let t := { t with spr := t.stktop.sub mvcount }
    return growStack t

/-- The macro `CPUSH`: the value is that of an expression after the check. -/
def VmThread.cpush (fuel : Nat) (t : VmThread) (val : VmThread → Value) : Option VmThread := do
  let used ← t.spr.diff t.stkbase
  if used < 0 then none
  else
    let t ← if used = 0 then arcStackcheck fuel t else some t
    let t := t.write t.spr (val t)
    return { t with spr := t.spr.sub 1 }

def VmThread.pushAll (fuel : Nat) (t : VmThread) (vs : List Value) : Option VmThread :=
  vs.foldlM (fun t v => t.cpush fuel fun _ => v) t

def VmThread.mkenv (fuel : Nat) (t : VmThread) (prevsize extrasize : Nat) : Option VmThread := do
  let t ← t.pushAll fuel (List.replicate extrasize .unbound)
  let t ← t.cpush fuel fun _ => .fixnum (prevsize + extrasize : Nat)
  let envstart := t.spr
  let t ← t.cpush fuel VmThread.envr
  let esofs ← t.stktop.diff envstart
  return { t with stkfn := t.spr, envr := .env esofs.toNat }

/-- `__arc_mkcont`, and its result put into the register. -/
def VmThread.mkcont (fuel : Nat) (t : VmThread) (offset : Nat) : Option VmThread := do
  let tsfn ← t.stktop.diff t.stkfn
  let t ← t.cpush fuel fun _ => .fixnum tsfn
  let t ← t.cpush fuel fun _ => .fixnum offset
  let t ← t.cpush fuel VmThread.envr
  let t ← t.cpush fuel VmThread.funr
  let t ← t.cpush fuel fun t => .fixnum t.argc
  let t ← t.cpush fuel VmThread.conr
  let cont ← t.stktop.diff t.spr
  return { t with conr := .fixnum cont }

/-- The value that the `j`-th of the next pops yields, from 0. -/
def VmThread.popped (t : VmThread) (j : Nat) : Value := t.read (t.spr.sub (-(j + 1)))

/-- A thread that can go on: the stack pointer is in the current vector, with a
free slot, and the pops return what was pushed. -/
structure StackKept (t t' : VmThread) : Prop where
  current : t'.spr.vec = t'.stack
  room : 0 ≤ t'.spr.idx ∧ t'.spr.idx < t'.stktop.idx + 1
  pops : ∀ j : Nat, (j : Int) < t.stkfn.idx - t.spr.idx → t'.popped j = t.popped j

section StackCheck

variable {t t' : VmThread} {fuel : Nat}

@[simp] theorem setVec_stack {i : Nat} {elem : Nat → Value} :
    (t.setVec i elem).stack = t.stack := rfl
@[simp] theorem setVec_spr {i : Nat} {elem : Nat → Value} : (t.setVec i elem).spr = t.spr := rfl
@[simp] theorem setVec_stktop {i : Nat} {elem : Nat → Value} :
    (t.setVec i elem).stktop = t.stktop := rfl
@[simp] theorem setVec_length {i : Nat} {elem : Nat → Value} :
    (t.setVec i elem).vectors.length = t.vectors.length := by simp [VmThread.setVec]
@[simp] theorem setMachine_stack {m : Machine} : (t.setMachine m).stack = t.stack := rfl
@[simp] theorem setMachine_spr {m : Machine} : (t.setMachine m).spr = t.spr := rfl
@[simp] theorem setMachine_stktop {m : Machine} : (t.setMachine m).stktop = t.stktop := rfl
@[simp] theorem setMachine_length {m : Machine} :
    (t.setMachine m).vectors.length = t.vectors.length := setVec_length
@[simp] theorem growStack_stack : (growStack t).stack = t.vectors.length := rfl
@[simp] theorem growStack_spr : (growStack t).spr = t.spr := rfl

theorem setVec_vecAt {i : Nat} {elem : Nat → Value} (hi : i < t.vectors.length) :
    (t.setVec i elem).vecAt i = (List.range (t.vecAt i).length).map elem := by
  simp [VmThread.setVec, VmThread.vecAt, hi]

theorem setMachine_vecAt_length {m : Machine} :
    ((t.setMachine m).vecAt t.stack).length = (t.vecAt t.stack).length := by
  have hvec : (t.setMachine m).vecAt t.stack = _ := setVec_vecAt t.stack_lt
  rw [hvec, List.length_map, List.length_range]

theorem setVec_read {i : Nat} {elem : Nat → Value} {p : Ptr} (hi : i < t.vectors.length)
    (hp : p.vec = i) (hlo : 0 ≤ p.idx) (hhi : p.idx < (t.vecAt i).length) :
    (t.setVec i elem).read p = elem p.idx.toNat := by
  have hlt : p.idx.toNat < (t.vecAt i).length := by omega
  rw [VmThread.read, if_neg (by omega), hp, setVec_vecAt hi]
  simp [hlt]

theorem growStack_read {p : Ptr} (hp : p.vec < t.vectors.length) :
    (growStack t).read p = t.read p := by
  simp [VmThread.read, VmThread.vecAt, growStack, List.getElem?_append_left hp]

theorem stack_length (t : VmThread) : t.stktop.idx + 1 = (t.vecAt t.stack).length := by
  have hlt := t.stack_lt
  rw [t.top_eq]
  simp [VmThread.vecAt, hlt]

theorem Ptr.diff_eq_some {p q : Ptr} {n : Int} :
    p.diff q = some n ↔ p.vec = q.vec ∧ p.idx - q.idx = n := by
  simp [Ptr.diff]

theorem memmove_eq_some {dst src : Ptr} {n : Int} (h : t.memmove dst src n = some t') :
    0 ≤ n ∧ t' = t.setVec dst.vec fun j =>
      if dst.idx ≤ j ∧ j < dst.idx + n then t.read ⟨src.vec, src.idx + (j - dst.idx)⟩
      else (t.vecAt dst.vec).getD j .nil := by
  rw [VmThread.memmove] at h
  split at h
  · cases h
  · next hn => exact ⟨Int.not_lt.mp hn, (Option.some.inj h).symm⟩

theorem arcStackcheck_full (hfull : t.spr = t.stkbase) (h : arcStackcheck fuel t = some t') :
    ∃ m t₁, moveToHeap fuel t.machine = some m ∧ t.stkfn.vec = t.spr.vec ∧
      (t.setMachine m).memmove (t.stktop.sub (t.stkfn.idx - t.spr.idx)) t.spr
        (t.stkfn.idx - t.spr.idx) = some t₁ ∧
      t' = growStack { t₁ with spr := t₁.stktop.sub (t.stkfn.idx - t.spr.idx) } := by
  have hzero : t.spr.diff t.stkbase = some 0 := by rw [hfull, Ptr.diff, if_pos rfl, Int.sub_self]
  simp only [arcStackcheck, hzero, Option.bind_eq_bind, Option.bind_some, Int.lt_irrefl, if_false,
    Option.bind_eq_some_iff, Option.pure_def, Option.some.injEq] at h
  obtain ⟨m, hm, mvcount, hcount, t₁, ht₁, rfl⟩ := h
  obtain ⟨hvec, rfl⟩ := Ptr.diff_eq_some.mp hcount
  exact ⟨m, t₁, hm, hvec, ht₁, rfl⟩

/-- After a check of a full stack the stack pointer is in the old vector. -/
theorem arcStackcheck_spr (hfull : t.spr = t.stkbase) (h : arcStackcheck fuel t = some t') :
    t'.spr = t.stktop.sub (t.stkfn.idx - t.spr.idx) ∧ t'.stack = t.vectors.length := by
  obtain ⟨m, t₁, -, -, ht₁, rfl⟩ := arcStackcheck_full hfull h
  obtain ⟨-, rfl⟩ := memmove_eq_some ht₁
  simp

/-- What the pops after a check of a full stack yield, wherever they read it:
the words are moved one short, so the last one is what `TSTOP` held. -/
theorem arcStackcheck_pops (hfull : t.spr = t.stkbase) (hfn : t.stkfn.idx ≤ t.stktop.idx)
    (h : arcStackcheck fuel t = some t') : ∃ m, moveToHeap fuel t.machine = some m ∧
      ∀ j : Nat, (j : Int) < t.stkfn.idx - t.spr.idx → t'.popped j =
        if (j : Int) + 1 < t.stkfn.idx - t.spr.idx then (t.setMachine m).popped j
        else (t.setMachine m).read t.stktop := by
  obtain ⟨m, t₁, hm, -, ht₁, rfl⟩ := arcStackcheck_full hfull h
  clear h
  obtain ⟨hcount, rfl⟩ := memmove_eq_some ht₁
  have htop : t.stktop.vec = t.stack := by rw [t.top_eq]
  have hspr : t.spr = ⟨t.stack, 0⟩ := hfull.trans t.base_eq
  have hlen := stack_length t
  have hlt := t.stack_lt
  refine ⟨m, hm, fun j hj => ?_⟩
  let n := t.stkfn.idx - t.spr.idx
  have hbase : t.spr.idx = 0 := by rw [hspr]
  have hfit : n ≤ t.stktop.idx := by omega
  let p := (t.stktop.sub n).sub (-(j + 1))
  have hvec : p.vec = (t.stktop.sub n).vec := rfl
  have hidx : p.idx = t.stktop.idx - n + (j + 1) := by simp only [p, Ptr.sub]; omega
  have hjn : (j : Int) < n := hj
  rw [VmThread.popped, growStack_read (by simpa [Ptr.sub, htop] using hlt)]
  change ((t.setMachine m).setVec (t.stktop.sub n).vec _).read p = _
  rw [setVec_read (by simpa [Ptr.sub, htop] using hlt) hvec (by omega)
    (by simp only [Ptr.sub, htop, setMachine_vecAt_length]; omega)]
  have hcast : (p.idx.toNat : Int) = p.idx := Int.toNat_of_nonneg (by omega)
  by_cases hlast : (j : Int) + 1 < n
  · rw [if_pos hlast, hcast, if_pos (by simp only [Ptr.sub]; omega), VmThread.popped]
    congr 1
    simp only [Ptr.sub, Ptr.mk.injEq, setMachine_spr, true_and]
    omega
  · have hp : p = t.stktop := by
      have hidx' : p.idx = t.stktop.idx := by omega
      calc p = ⟨p.vec, p.idx⟩ := rfl
        _ = ⟨t.stktop.vec, t.stktop.idx⟩ := by rw [hidx']; rfl
    rw [if_neg hlast, hcast, if_neg (by simp only [Ptr.sub]; omega), hp, VmThread.read,
      if_neg (by omega)]
    rfl

/-- No check of a full stack keeps the thread usable. -/
theorem arcStackcheck_keeps_never (fuel : Nat) (hfull : t.spr = t.stkbase) :
    ¬ ∃ t', arcStackcheck fuel t = some t' ∧ StackKept t t' := by
  rintro ⟨t', hrun, hkept⟩
  obtain ⟨hspr, hnew⟩ := arcStackcheck_spr hfull hrun
  have hlt := t.stack_lt
  have hsame := hkept.current
  rw [hspr, hnew, Ptr.sub, t.top_eq] at hsame
  simp at hsame
  omega

end StackCheck

section Refinement

variable {t t' : VmThread} {fuel : Nat} {val : VmThread → Value}

/-- The stack pointer is in the current vector. -/
structure Inside (t : VmThread) : Prop where
  vec : t.spr.vec = t.stack
  lo : 0 ≤ t.spr.idx
  hi : t.spr.idx ≤ t.stktop.idx
  stkfn : t.stkfn.vec = t.stack
  fn : t.stkfn.idx ≤ t.stktop.idx

theorem Inside.diff_base (h : Inside t) : t.spr.diff t.stkbase = some t.spr.idx := by
  rw [t.base_eq, Ptr.diff, if_pos h.vec, Int.sub_zero]

theorem Inside.write_slot (h : Inside t) (v : Value) :
    (t.write t.spr v).machine.slot = (t.machine.setSlot t.machine.sp v).slot := by
  have hlen := stack_length t
  have hlo := h.lo
  have hhi := h.hi
  have htop : t.stktop.vec = t.stack := by rw [t.top_eq]
  have hsp : t.machine.sp = (t.stktop.idx - t.spr.idx).toNat := rfl
  funext i
  rw [setSlot_slot, hsp]
  change (t.write t.spr v).read (t.stktop.sub i) = _
  have hidx : (t.stktop.sub i).idx = t.stktop.idx - i := rfl
  have hvec : (t.stktop.sub i).vec = t.spr.vec := htop.trans h.vec.symm
  by_cases hneg : t.stktop.idx - i < 0
  · have hout : ∀ t' : VmThread, t'.read (t.stktop.sub i) = .nil := fun t' => if_pos hneg
    rw [hout, Function.update_of_ne (by omega)]
    exact (hout t).symm
  · have hcast : ((t.stktop.idx - i).toNat : Int) = t.stktop.idx - i := Int.toNat_of_nonneg (by omega)
    rw [VmThread.write, setVec_read (h.vec ▸ t.stack_lt) hvec (by omega) (by rw [h.vec]; omega), hidx,
      hcast]
    by_cases hi : t.stktop.idx - i = t.spr.idx
    · have hii : (t.stktop.idx - t.spr.idx).toNat = i := by omega
      rw [if_pos hi, hii, Function.update_self]
    · rw [if_neg hi, Function.update_of_ne (by omega), ← hvec]
      exact (if_neg (by omega)).symm

theorem Inside.spr_eq_iff (h : Inside t) : t.spr = t.stkbase ↔ t.spr.idx = 0 := by
  constructor
  · intro hbase
    rw [hbase, t.base_eq]
  · intro hz
    rw [t.base_eq, ← h.vec, ← hz]

theorem cpush_machine (h : Inside t) (hroom : t.spr ≠ t.stkbase) :
    ∃ t', t.cpush fuel val = some t' ∧ t'.machine = t.machine.cpush (val t) ∧
      t'.stktop = t.stktop ∧ Inside t' := by
  have hne : t.spr.idx ≠ 0 := h.spr_eq_iff.not.mp hroom
  have hlo := h.lo
  have hhi := h.hi
  refine ⟨{ t.write t.spr (val t) with spr := t.spr.sub 1 }, ?_, ?_, rfl, ?_⟩
  · rw [VmThread.cpush, h.diff_base, Option.bind_eq_bind, Option.bind_some, if_neg (by omega),
      if_neg hne]
    rfl
  · have hslot := h.write_slot (val t)
    have hsp : (t.stktop.idx - (t.spr.idx - 1)).toNat = (t.stktop.idx - t.spr.idx).toNat + 1 := by
      omega
    calc ({ t.write t.spr (val t) with spr := t.spr.sub 1 } : VmThread).machine
        = { (t.write t.spr (val t)).machine with
            sp := (t.stktop.idx - (t.spr.idx - 1)).toNat } := rfl
      _ = { t.machine with slot := (t.machine.setSlot t.machine.sp (val t)).slot,
                           sp := (t.stktop.idx - t.spr.idx).toNat + 1 } := by
          rw [hsp, ← hslot]; rfl
      _ = t.machine.cpush (val t) := rfl
  · exact ⟨h.vec, by simp only [Ptr.sub]; omega, by
      change t.spr.idx - 1 ≤ t.stktop.idx
      omega, h.stkfn, h.fn⟩

theorem Ptr.diff_of_ne {p q : Ptr} (h : p.vec ≠ q.vec) : p.diff q = none := if_neg h

theorem cpush_outside (h : t.spr.vec ≠ t.stack) : t.cpush fuel val = none := by
  have hbase : t.stkbase.vec = t.stack := by rw [t.base_eq]
  rw [VmThread.cpush, Ptr.diff_of_ne (hbase.symm ▸ h)]
  rfl

/-- A push that grows the stack leaves the pointer in the old vector. -/
theorem cpush_full (h : Inside t) (hfull : t.spr = t.stkbase) (hrun : t.cpush fuel val = some t') :
    t'.spr.vec = t.stack ∧ t'.stack = t.vectors.length := by
  have hzero : t.spr.idx = 0 := by rw [hfull, t.base_eq]
  rw [VmThread.cpush, h.diff_base, Option.bind_eq_bind, Option.bind_some, if_neg (by omega),
    if_pos hzero] at hrun
  obtain ⟨t₁, ht₁, hrest⟩ := Option.bind_eq_some_iff.mp hrun
  cases hrest
  obtain ⟨hspr, hstack⟩ := arcStackcheck_spr hfull ht₁
  refine ⟨?_, hstack⟩
  change t₁.spr.vec = t.stack
  rw [hspr, Ptr.sub, t.top_eq]

/-- A push is a push, or the stack is grown and the pointer left behind. -/
theorem cpush_cases (h : Inside t) (hrun : t.cpush fuel val = some t') :
    t'.machine = t.machine.cpush (val t) ∧ t'.stktop = t.stktop ∧ Inside t' ∨
      t'.spr.vec ≠ t'.stack := by
  by_cases hfull : t.spr = t.stkbase
  · obtain ⟨hspr, hstack⟩ := cpush_full h hfull hrun
    have hlt := t.stack_lt
    exact .inr (by omega)
  · left
    obtain ⟨t'', hrun', hm, hin⟩ := cpush_machine h hfull
    cases hrun.symm.trans hrun'
    exact ⟨hm, hin⟩

/-- A push that another push follows has not left the pointer behind. -/
theorem cpush_then {t'' : VmThread} {val' : VmThread → Value} (h : Inside t)
    (hrun : t.cpush fuel val = some t') (hnext : t'.cpush fuel val' = some t'') :
    t'.machine = t.machine.cpush (val t) ∧ t'.stktop = t.stktop ∧ Inside t' := by
  refine (cpush_cases h hrun).resolve_right fun hout => ?_
  rw [cpush_outside hout] at hnext
  cases hnext

theorem pushAll_then {t'' : VmThread} {vs : List Value} (h : Inside t)
    (hrun : t.pushAll fuel vs = some t') (hnext : t'.cpush fuel val = some t'') :
    t'.machine = t.machine.pushAll vs ∧ Inside t' := by
  induction vs generalizing t with
  | nil =>
    cases hrun
    exact ⟨rfl, h⟩
  | cons v vs ih =>
    rw [VmThread.pushAll, List.foldlM_cons] at hrun
    obtain ⟨t₁, ht₁, hrest⟩ := Option.bind_eq_some_iff.mp hrun
    have hin : t₁.machine = t.machine.cpush v ∧ t₁.stktop = t.stktop ∧ Inside t₁ := by
      cases vs with
      | nil =>
        cases hrest
        exact cpush_then h ht₁ hnext
      | cons v' vs =>
        obtain ⟨t₂, ht₂, -⟩ := Option.bind_eq_some_iff.mp hrest
        exact cpush_then h ht₁ ht₂
    obtain ⟨hm, hin'⟩ := ih hin.2.2 hrest
    exact ⟨by rw [hm, hin.1, pushAll_cons], hin'⟩

theorem mkenv_cases {prevsize extrasize : Nat} (h : Inside t)
    (hrun : t.mkenv fuel prevsize extrasize = some t') :
    t'.machine = arcMkenv t.machine prevsize extrasize ∧ Inside t' ∨ t'.spr.vec ≠ t'.stack := by
  obtain ⟨t₁, ht₁, hrun⟩ := Option.bind_eq_some_iff.mp hrun
  obtain ⟨t₂, ht₂, hrun⟩ := Option.bind_eq_some_iff.mp hrun
  obtain ⟨t₃, ht₃, hrun⟩ := Option.bind_eq_some_iff.mp hrun
  obtain ⟨esofs, hofs, hrun⟩ := Option.bind_eq_some_iff.mp hrun
  cases hrun
  obtain ⟨hm₁, hin₁⟩ := pushAll_then h ht₁ ht₂
  obtain ⟨hm₂, -, hin₂⟩ := cpush_then hin₁ ht₂ ht₃
  rcases cpush_cases hin₂ ht₃ with ⟨hm₃, htop₃, hin₃⟩ | hout
  · left
    obtain ⟨-, rfl⟩ := Ptr.diff_eq_some.mp hofs
    have hsp₂ : (t₃.stktop.idx - t₂.spr.idx).toNat = t₂.machine.sp := by rw [htop₃]; rfl
    have henvr : t₂.envr = t.machine.envr := by
      change t₂.machine.envr = _
      rw [hm₂, hm₁, pushAll_frame]
      rfl
    refine ⟨?_, hin₃.vec, hin₃.lo, hin₃.hi, hin₃.vec, hin₃.hi⟩
    calc ({ t₃ with stkfn := t₃.spr, envr := .env (t₃.stktop.idx - t₂.spr.idx).toNat } :
          VmThread).machine
        = { t₃.machine with tsfn := t₃.machine.sp, envr := .env t₂.machine.sp } := by
          rw [hsp₂]; rfl
      _ = arcMkenv t.machine prevsize extrasize := by
          rw [hm₃, henvr, hm₂, hm₁]; rfl
  · exact .inr hout

theorem mkcont_inside {offset : Nat} (h : Inside t)
    (hrun : t.mkcont fuel offset = some t') :
    t'.machine = sconrMkcont t.machine offset ∧ Inside t' := by
  obtain ⟨tsfn, htsfn, hrun⟩ := Option.bind_eq_some_iff.mp hrun
  obtain ⟨t₁, ht₁, hrun⟩ := Option.bind_eq_some_iff.mp hrun
  obtain ⟨t₂, ht₂, hrun⟩ := Option.bind_eq_some_iff.mp hrun
  obtain ⟨t₃, ht₃, hrun⟩ := Option.bind_eq_some_iff.mp hrun
  obtain ⟨t₄, ht₄, hrun⟩ := Option.bind_eq_some_iff.mp hrun
  obtain ⟨t₅, ht₅, hrun⟩ := Option.bind_eq_some_iff.mp hrun
  obtain ⟨t₆, ht₆, hrun⟩ := Option.bind_eq_some_iff.mp hrun
  obtain ⟨cont, hcont, hrun⟩ := Option.bind_eq_some_iff.mp hrun
  cases hrun
  obtain ⟨hm₁, htop₁, hin₁⟩ := cpush_then h ht₁ ht₂
  obtain ⟨hm₂, htop₂, hin₂⟩ := cpush_then hin₁ ht₂ ht₃
  obtain ⟨hm₃, htop₃, hin₃⟩ := cpush_then hin₂ ht₃ ht₄
  obtain ⟨hm₄, htop₄, hin₄⟩ := cpush_then hin₃ ht₄ ht₅
  obtain ⟨hm₅, htop₅, hin₅⟩ := cpush_then hin₄ ht₅ ht₆
  obtain ⟨hvec, rfl⟩ := Ptr.diff_eq_some.mp hcont
  obtain ⟨hm₆, -, hin₆⟩ := (cpush_cases hin₅ ht₆).resolve_right fun hout => hout (by
    rw [← hvec, t₆.top_eq])
  obtain ⟨-, rfl⟩ := Ptr.diff_eq_some.mp htsfn
  have hfn : t.stktop.idx - t.stkfn.idx = (t.machine.tsfn : Int) := by
    have hle := h.fn
    exact (Int.toNat_of_nonneg (by omega)).symm
  have hsp : t₆.stktop.idx - t₆.spr.idx = (t₆.machine.sp : Int) := by
    have hle := hin₆.hi
    exact (Int.toNat_of_nonneg (by omega)).symm
  refine ⟨?_, hin₆.vec, hin₆.lo, hin₆.hi, hin₆.stkfn, hin₆.fn⟩
  have henvr : t₂.envr = t.machine.envr := by
    change t₂.machine.envr = _
    rw [hm₂, hm₁]
    rfl
  have hfunr : t₃.funr = t.machine.funr := by
    change t₃.machine.funr = _
    rw [hm₃, hm₂, hm₁]
    rfl
  have hargc : t₄.argc = t.machine.argc := by
    change t₄.machine.argc = _
    rw [hm₄, hm₃, hm₂, hm₁]
    rfl
  have hconr : t₅.conr = t.machine.conr := by
    change t₅.machine.conr = _
    rw [hm₅, hm₄, hm₃, hm₂, hm₁]
    rfl
  have hpushed : t₆.machine = (arcMkcont t.machine offset).1 := by
    rw [hm₆, hconr, hm₅, hargc, hm₄, hfunr, hm₃, henvr, hm₂, hm₁, hfn]
    rfl
  calc ({ t₆ with conr := .fixnum (t₆.stktop.idx - t₆.spr.idx) } : VmThread).machine
      = { t₆.machine with conr := .fixnum t₆.machine.sp } := by rw [hsp]; rfl
    _ = sconrMkcont t.machine offset := by rw [hpushed]; rfl

/-- A thread reached by pushes, `__arc_mkenv` and `__arc_mkcont`. -/
inductive Reached (fuel : Nat) : VmThread → List Value → Nat → Prop
  | thread (stksize : Nat) (genv : Sym → Value) : 0 < stksize →
      Reached fuel (arcMkvmthread stksize genv) [] 0
  | push {t t' : VmThread} {cs : List Value} {top : Nat} {v : Value} : Reached fuel t cs top →
      envP v = false → t.cpush fuel (fun _ => v) = some t' → Reached fuel t' cs top
  | mkenv {t t' : VmThread} {cs : List Value} {top prevsize extrasize : Nat} :
      Reached fuel t cs top → top + prevsize ≤ t.machine.sp →
      t.mkenv fuel prevsize extrasize = some t' → Reached fuel t' cs t'.machine.sp
  | mkcont {t t' : VmThread} {cs : List Value} {top offset : Nat} : Reached fuel t cs top →
      t.mkcont fuel offset = some t' → Reached fuel t' (t'.conr :: cs) t'.machine.sp

theorem arcMkvmthread_machine (stksize : Nat) (genv : Sym → Value) :
    (arcMkvmthread stksize genv).machine = arcMkthread genv := by
  have hslot : (arcMkvmthread stksize genv).machine.slot = fun _ => .nil := by
    funext i
    change VmThread.read _ _ = Value.nil
    rw [VmThread.read]
    split
    · rfl
    · have hvec : (arcMkvmthread stksize genv).vecAt 0 = List.replicate stksize .nil := rfl
      change ((arcMkvmthread stksize genv).vecAt 0).getD _ _ = _
      rw [hvec, List.getD_eq_getElem?_getD, List.getElem?_replicate]
      split <;> rfl
  have hsp : (((stksize : Int) - 1) - (stksize - 1)).toNat = 0 := by omega
  calc (arcMkvmthread stksize genv).machine
      = { arcMkthread genv with
          slot := (arcMkvmthread stksize genv).machine.slot,
          sp := (((stksize : Int) - 1) - (stksize - 1)).toNat,
          tsfn := (((stksize : Int) - 1) - (stksize - 1)).toNat } := rfl
    _ = arcMkthread genv := by rw [hslot, hsp]; rfl

theorem mkenv_outside {prevsize extrasize : Nat} (h : t.spr.vec ≠ t.stack) :
    t.mkenv fuel prevsize extrasize = none := by
  cases extrasize with
  | zero =>
    rw [VmThread.mkenv]
    simp only [VmThread.pushAll, List.replicate_zero, List.foldlM_nil, Option.pure_def,
      Option.bind_eq_bind, Option.bind_some, cpush_outside h, Option.bind_none]
  | succ n =>
    rw [VmThread.mkenv]
    simp only [VmThread.pushAll, List.replicate_succ, List.foldlM_cons, cpush_outside h,
      Option.bind_eq_bind, Option.bind_none]

theorem mkcont_outside {offset : Nat} (h : t.spr.vec ≠ t.stack) : t.mkcont fuel offset = none := by
  simp only [VmThread.mkcont, cpush_outside h, Option.bind_eq_bind, Option.bind_none,
    Option.bind_fun_none]

/-- Until the stack has been grown, a reached thread is a built one. -/
theorem Reached.built {cs : List Value} {top : Nat} (h : Reached fuel t cs top) :
    Built t.machine cs top ∧ Inside t ∨ t.spr.vec ≠ t.stack := by
  induction h with
  | thread stksize genv hpos =>
    left
    rw [arcMkvmthread_machine]
    refine ⟨.thread genv, rfl, ?_, Int.le_refl _, rfl, Int.le_refl _⟩
    simp only [arcMkvmthread]
    omega
  | push _ hv hrun ih =>
    rcases ih with ⟨hbuilt, hin⟩ | hout
    · rcases cpush_cases hin hrun with ⟨hm, -, hin'⟩ | hout'
      · exact .inl ⟨hm ▸ .push hbuilt hv, hin'⟩
      · exact .inr hout'
    · rw [cpush_outside hout] at hrun
      cases hrun
  | mkenv _ hp hrun ih =>
    rcases ih with ⟨hbuilt, hin⟩ | hout
    · rcases mkenv_cases hin hrun with ⟨hm, hin'⟩ | hout'
      · exact .inl ⟨hm ▸ .mkenv hbuilt hp, hin'⟩
      · exact .inr hout'
    · rw [mkenv_outside hout] at hrun
      cases hrun
  | @mkcont t t' cs top offset _ hrun ih =>
    rcases ih with ⟨hbuilt, hin⟩ | hout
    · obtain ⟨hm, hin'⟩ := mkcont_inside hin hrun
      have hconr : t'.conr = (sconrMkcont t.machine offset).conr := congrArg Machine.conr hm
      left
      refine ⟨?_, hin'⟩
      rw [hconr, hm]
      exact .mkcont hbuilt
    · rw [mkcont_outside hout] at hrun
      cases hrun

/-- The threads the check is for: a full stack in the current vector. -/
theorem Reached.full_built {cs : List Value} {top : Nat} (h : Reached fuel t cs top)
    (hfull : t.spr = t.stkbase) : Built t.machine cs top := by
  rcases h.built with ⟨hbuilt, -⟩ | hout
  · exact hbuilt
  · rw [hfull, t.base_eq] at hout
    exact absurd rfl hout

end Refinement

/-- A new thread with two stack slots after one push. -/
def fullThread : VmThread :=
  { (arcMkvmthread 2 fun _ => .unbound).write ⟨0, 1⟩ (.fixnum 7) with spr := ⟨0, 0⟩ }

theorem fullThread_reached : Reached 2 fullThread [] 0 :=
  .push (v := .fixnum 7) (.thread 2 (fun _ => .unbound) (by decide)) rfl rfl

theorem arcStackcheck_fullThread_never : Reached 2 fullThread [] 0 ∧
    ¬ ∃ t', arcStackcheck 2 fullThread = some t' ∧ StackKept fullThread t' :=
  ⟨fullThread_reached, arcStackcheck_keeps_never 2 rfl⟩

/-- The stack pointer is left in vector 0, and the stack is now vector 1. -/
theorem arcStackcheck_fullThread : Reached 2 fullThread [] 0 ∧ fullThread.spr = fullThread.stkbase ∧
    ∃ t', arcStackcheck 2 fullThread = some t' ∧ ¬ StackKept fullThread t' := by
  refine ⟨fullThread_reached, rfl, ?_⟩
  have hruns : (arcStackcheck 2 fullThread).isSome = true := by decide
  have hspr : (arcStackcheck 2 fullThread).map (fun t' => (t'.spr.vec, t'.stack)) = some (0, 1) := by
    decide
  obtain ⟨t', ht'⟩ := Option.isSome_iff_exists.mp hruns
  rw [ht', Option.map_some, Option.some.injEq, Prod.mk.injEq] at hspr
  refine ⟨t', ht', fun hkept => ?_⟩
  have hsame := hkept.current
  rw [hspr.1, hspr.2] at hsame
  exact absurd hsame (by decide)

end Arcueid
