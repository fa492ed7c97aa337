import Arcueid.Compiler
import Arcueid.ControlRuns
import Arcueid.EnvHeap

/-! The virtual machine (`vmengine.c`): one instruction, the trampoline, and
runs until a thread is done. Functions written in C and the operations on
numbers are parameters. An error ends a run. -/

namespace Arcueid

inductive VmError where
  | err (msg : String)
  | unboundSymbol (s : Sym)
  /-- The machine would leave its code, its stack or its frames. -/
  | stuck
  deriving DecidableEq

/-- What the trampoline does next. -/
inductive Tr where
  | resume | suspend | fnapp | rc
  deriving DecidableEq

structure Runtime where
  isString : Value → Bool
  /-- `__arc_add2` and the like, by their instruction. -/
  arith : Inst → Value → Value → Except VmError Value
  /-- The function that adds strings. -/
  add2String : Value
  /-- `apply_vr`, but for closures and continuations. -/
  applyOther : Machine → Except VmError (Machine × Tr)
  /-- `__arc_resume_aff`. -/
  resumeAff : Machine → Except VmError (Machine × Tr)

namespace Machine

variable (m : Machine)

def setValr (v : Value) : Machine := { m with valr := v }

def cpop : Except VmError (Value × Machine) :=
  if m.sp = 0 then .error .stuck else .ok (m.top, m.drop)

/-- Take the arguments past the first `n` into a list. -/
def popRest : Nat → Machine → Value → Value × Machine
  | 0, m, rest => (rest, m)
  | k + 1, m, rest => popRest k m.drop (.cons m.top rest)

end Machine

section Instructions

variable (rt : Runtime) (c : Code) (m : Machine)

def literalAt (i : Value) : Except VmError Value :=
  match c.literals[(fix2int i).toNat]? with
  | some v => .ok v
  | none => .error .stuck

/-- `icar` and `icdr`. -/
def unpair (part : Value → Value → Value) (msg : String) : Value → Except VmError Value
  | .nil => .ok .nil
  | .cons a d => .ok (part a d)
  | _ => .error (.err msg)

/-- `idcar` and `idcdr`. -/
def unbindPair (part : Value → Value → Value) (msg : String) : Value → Except VmError Value
  | .nil | .unbound => .ok .unbound
  | .cons a d => .ok (part a d)
  | _ => .error (.err msg)

/-- Go on at a distance from an instruction. -/
def jump (ip : Nat) (target : Value) : Machine := { m with ip := (ip + fix2int target).toNat }

def tooFew (minenv : Nat) : VmError :=
  .err s!"too few arguments, at least {minenv} required, {m.argc} passed"

/-- `ienv`. -/
def runEnv (minenv dsenv optenv : Nat) : Except VmError Machine :=
  if m.argc < minenv then .error (tooFew m minenv)
  else if m.argc > minenv + optenv then
    .error (.err s!"too many arguments, at most {minenv + optenv} allowed, {m.argc} passed")
  else .ok (arcMkenv m m.argc (minenv + optenv - m.argc + dsenv))

/-- `ienvr`. -/
def runEnvr (minenv dsenv optenv : Nat) : Except VmError Machine :=
  if m.argc < minenv then .error (tooFew m minenv)
  else
    let (rest, m') := Machine.popRest (m.argc - (minenv + optenv)) m .nil
    let i := min m.argc (minenv + optenv)
    let m' := arcMkenv m' i (minenv + optenv - i + dsenv + 1)
    match arcPutenv m' 0 (minenv + optenv + dsenv) rest with
    | some m' => .ok m'
    | none => .error .stuck

/-- `iadd`: strings are added by a call. -/
def runAdd : Except VmError (Machine × Tr) := do
  let (arg1, m') ← m.cpop
  if rt.isString arg1 then
    let arg2 := m.valr
    let (m', conr) := arcMkcont m' m.ip
    let m' := ({ m' with conr := conr }.cpush arg1).cpush arg2
    return ({ m' with argc := 2, valr := rt.add2String }, .fnapp)
  else return (m'.setValr (← rt.arith .iadd arg1 m.valr), .resume)

/-- An instruction that takes its first argument from the stack. -/
def runBinary (f : Value → Value → Except VmError Value) : Except VmError (Machine × Tr) := do
  let (arg1, m') ← m.cpop
  return (m'.setValr (← f arg1 m.valr), .resume)

/-- The frame `icls` puts in a closure is moved to the heap. -/
def runCls : Except VmError (Machine × Tr) :=
  match if envP m.envr then senvrEnv2heap (m.sp + m.heap.length + 2) m else some m with
  | some m' => .ok (m'.setValr (.clos m'.valr m'.envr), .resume)
  | none => .error .stuck

/-- Execute an instruction that stands at `ip`; the instruction pointer is past
it. Instructions that are never emitted are left out. -/
def runInstr (ip : Nat) (i : Instr) : Except VmError (Machine × Tr) :=
  let next (m : Machine) : Except VmError (Machine × Tr) := .ok (m, .resume)
  let orStuck (m : Option Machine) : Except VmError (Machine × Tr) :=
    match m with
    | some m => .ok (m, .resume)
    | none => .error .stuck
  let nat (v : Value) : Nat := (fix2int v).toNat
  match i.op, i.args with
  | .inop, _ => next m
  | .ipush, _ => next (m.cpush m.valr)
  | .ipop, _ => do
    let (v, m) ← m.cpop
    return (m.setValr v, .resume)
  | .ildi, [v] => next (m.setValr v)
  | .ildl, [l] => do return (m.setValr (← literalAt c l), .resume)
  | .ildg, [l] => do
    match ← literalAt c l with
    | .symbol s =>
      if m.genv s = .unbound then throw (.unboundSymbol s)
      else return (m.setValr (m.genv s), .resume)
    | _ => throw .stuck
  | .istg, [l] => do
    match ← literalAt c l with
    | .symbol s => return ({ m with genv := Function.update m.genv s m.valr }, .resume)
    | _ => throw .stuck
  | .ilde, [level, idx] => orStuck ((arcGetenv m (nat level) (nat idx)).map m.setValr)
  | .ilde0, [idx] => orStuck ((arcGetenv m 0 (nat idx)).map m.setValr)
  | .iste, [level, idx] => orStuck (arcPutenv m (nat level) (nat idx) m.valr)
  | .iste0, [idx] => orStuck (arcPutenv m 0 (nat idx) m.valr)
  | .icont, [target] =>
    let (m', conr) := arcMkcont m (ip + fix2int target).toNat
    next { m' with conr := conr }
  | .ienv, [minenv, dsenv, optenv] => do
    return (← runEnv m (nat minenv) (nat dsenv) (nat optenv), .resume)
  | .ienvr, [minenv, dsenv, optenv] => do
    return (← runEnvr m (nat minenv) (nat dsenv) (nat optenv), .resume)
  | .iapply, [n] => .ok ({ m with argc := nat n }, .fnapp)
  | .iret, _ => .ok (m, .rc)
  | .ijmp, [target] => next (jump m ip target)
  | .ijt, [target] => next (if m.valr ≠ .nil then jump m ip target else m)
  | .ijf, [target] => next (if m.valr = .nil then jump m ip target else m)
  | .ijbnd, [target] => next (if m.valr ≠ .unbound then jump m ip target else m)
  | .itrue, _ => next (m.setValr .tru)
  | .inil, _ => next (m.setValr .nil)
  | .ihlt, _ => .ok (m, .suspend)
  | .iadd, _ => runAdd rt m
  | .isub, _ => runBinary m (rt.arith .isub)
  | .imul, _ => runBinary m (rt.arith .imul)
  | .idiv, _ => runBinary m (rt.arith .idiv)
  | .icons, _ => runBinary m fun a d => .ok (.cons a d)
  | .icar, _ => do
    return (m.setValr (← unpair (fun a _ => a) "can't take car of value" m.valr), .resume)
  | .icdr, _ => do
    return (m.setValr (← unpair (fun _ d => d) "can't take cdr of value" m.valr), .resume)
  | .icls, _ => runCls m
  | .imenv, [n] => next { arcMenv m (nat n) with argc := nat n }
  | .idcar, _ => do
    return (m.setValr (← unbindPair (fun a _ => a) "can't take car of value" m.valr), .resume)
  | .idcdr, _ => do
    return (m.setValr (← unbindPair (fun _ d => d) "can't take cdr of value" m.valr), .resume)
  | _, _ => .error .stuck

end Instructions

section Trampoline

variable (rt : Runtime) (codes : List Code)

/-- One instruction of `__arc_vmengine`. -/
def vmengine (m : Machine) : Except VmError (Machine × Tr) :=
  match m.funr with
  | .clos (.code n) _ =>
    match codes[n]? with
    | some c =>
      match c.instrAt m.ip with
      | some i => runInstr rt c { m with ip := m.ip + i.size } m.ip i
      | none => .error .stuck
    | none => .error .stuck
  | _ => .error .stuck

def applyVr (m : Machine) : Except VmError (Machine × Tr) :=
  match m.valr with
  | .clos (.code _) env => .ok ({ m with ip := 0, envr := env, funr := m.valr }, .resume)
  | .cont _ =>
    if m.argc = 1 then .ok ({ m.drop with valr := m.top, conr := m.valr, funr := m.valr }, .rc)
    else .error (.err s!"context expected 1 value, received {m.argc} values")
  | _ => rt.applyOther { m with funr := m.valr }

/-- One round of `__arc_thr_trampoline`; nothing when it returns. -/
def trampoline (x : Machine × Tr) : Except VmError (Option (Machine × Tr)) :=
  match x.2 with
  | .suspend => .ok none
  | .resume =>
    match x.1.funr with
    | .ccode _ _ => (rt.resumeAff x.1).map some
    | _ => (vmengine rt codes x.1).map some
  | .fnapp => (applyVr rt x.1).map some
  | .rc =>
    match x.1.conr with
    | .nil => .ok none
    | cont => .ok (some (arcRestorecont x.1 cont, .resume))

/-- The end of a thread within a number of rounds. -/
def runThread : Nat → Machine × Tr → Option (Except VmError Machine)
  | 0, _ => none
  | n + 1, x =>
    match trampoline rt codes x with
    | .error e => some (.error e)
    | .ok none => some (.ok x.1)
    | .ok (some y) => runThread n y

/-- A thread comes to an end. -/
def Halts (x : Machine × Tr) (r : Except VmError Machine) : Prop :=
  ∃ n, runThread rt codes n x = some r

variable {rt codes} {x : Machine × Tr} {r r' : Except VmError Machine}

theorem runThread_add {n : Nat} (h : runThread rt codes n x = some r) (k : Nat) :
    runThread rt codes (n + k) x = some r := by
  induction n generalizing x with
  | zero => cases h
  | succ n ih =>
    rw [Nat.succ_add, runThread]
    rw [runThread] at h
    cases ht : trampoline rt codes x with
    | error e => simpa [ht] using h
    | ok y =>
      cases y with
      | none => simpa [ht] using h
      | some y =>
        rw [ht] at h
        exact ih h

theorem Halts.unique (h : Halts rt codes x r) (h' : Halts rt codes x r') : r = r' := by
  obtain ⟨n, hn⟩ := h
  obtain ⟨n', hn'⟩ := h'
  have hmax := runThread_add hn n'
  rw [Nat.add_comm, runThread_add hn' n] at hmax
  exact (Option.some.inj hmax).symm

end Trampoline

section Evaluation

variable {W : Type} (host : Host W)

/-- A code object for an expression in a compile-time environment. -/
def codeIn (fuel : Nat) (expr : Value) (env : CEnv) : Comp W Value := do
  let ctx ← arcCompile host fuel expr arcMkcctx env true
  mkCode ctx

/-- What compiling comes to, however long it takes. -/
def Compiled (expr : Value) (env : CEnv) (s : State W)
    (r : Except CompileError (Value × State W)) : Prop :=
  ∃ k, ∀ fuel, k ≤ fuel → codeIn host fuel expr env s = r ∧ r ≠ .error .outOfFuel

theorem compiled_ok {host : Host W} {expr : Value} {env : CEnv} {s s' : State W} {code : Value}
    (n : Nat) (h : ∀ k, codeIn host (k + n) expr env s = .ok (code, s')) :
    Compiled host expr env s (.ok (code, s')) := by
  refine ⟨n, fun fuel hfuel => ?_⟩
  obtain ⟨k, rfl⟩ := Nat.exists_eq_add_of_le' hfuel
  exact ⟨h k, nofun⟩

theorem Compiled.unique {host : Host W} {expr : Value} {env : CEnv} {s : State W}
    {r r' : Except CompileError (Value × State W)} (h : Compiled host expr env s r)
    (h' : Compiled host expr env s r') : r = r' := by
  obtain ⟨k, hk⟩ := h
  obtain ⟨k', hk'⟩ := h'
  rw [← (hk (k + k') (Nat.le_add_right _ _)).1, ← (hk' (k + k') (Nat.le_add_left _ _)).1]

/-- What is seen of a run: an error or the value, with the globals and the heap. -/
def observed (r : Except VmError Machine) : Except VmError (Value × (Sym → Value) × List Obj) :=
  r.map fun m => (m.valr, m.genv, m.heap)

inductive Observation (W : Type) where
  | failed (e : CompileError)
  | ran (globals : Globals W) (r : Except VmError (Value × (Sym → Value) × List Obj))

/-- Compile an expression and run the code, as a closure over the environment
of a thread. -/
inductive Behaves (rt : Runtime) (expr : Value) (env : CEnv) (s : State W) (m : Machine) :
    Observation W → Prop
  | failed {e : CompileError} : Compiled host expr env s (.error e) →
      Behaves rt expr env s m (.failed e)
  | ran {code : Value} {s' : State W} {r : Except VmError Machine} :
      Compiled host expr env s (.ok (code, s')) →
      Halts rt s'.codes ({ m with valr := .clos code m.envr, argc := 0 }, .fnapp) r →
      Behaves rt expr env s m (.ran s'.globals (observed r))

theorem Behaves.of_run {host : Host W} {rt : Runtime} {expr : Value} {env : CEnv} {s s' : State W}
    {m : Machine} {code : Value} {g : Globals W} {o : Except VmError (Value × (Sym → Value) × List Obj)}
    (n : Nat) (hc : Compiled host expr env s (.ok (code, s'))) (hg : s'.globals = g)
    (hrun : (runThread rt s'.codes n ({ m with valr := .clos code m.envr, argc := 0 }, .fnapp)).map
      observed = some o) : Behaves host rt expr env s m (.ran g o) := by
  obtain ⟨r, hr, rfl⟩ := Option.map_eq_some_iff.mp hrun
  rw [← hg]
  exact .ran hc ⟨n, hr⟩

theorem Behaves.unique {host : Host W} {rt : Runtime} {expr : Value} {env : CEnv} {s : State W}
    {m : Machine} {o o' : Observation W} (h : Behaves host rt expr env s m o)
    (h' : Behaves host rt expr env s m o') : o = o' := by
  cases h with
  | failed hc =>
    cases h' with
    | failed hc' => rw [Except.error.inj (hc.unique hc')]
    | ran hc' => cases hc.unique hc'
  | ran hc hrun =>
    cases h' with
    | failed hc' => cases hc.unique hc'
    | ran hc' hrun' =>
      cases hc.unique hc'
      rw [hrun.unique hrun']

/-- Two expressions cannot be told apart: same value, same errors, same effects,
in every environment, while macros are looked up in `w`. -/
def SameBehaviour (rt : Runtime) (w : W) (e e' : Value) : Prop :=
  ∀ env s m o, s.globals.world = w → (Behaves host rt e env s m o ↔ Behaves host rt e' env s m o)

theorem sameBehaviour_of_code {host : Host W} {rt : Runtime} {w : W} {e e' : Value}
    (h : ∀ fuel env s, s.globals.world = w → codeIn host fuel e env s = codeIn host fuel e' env s) :
    SameBehaviour host rt w e e' := by
  intro env s m o hs
  have hcomp : ∀ r, Compiled host e env s r ↔ Compiled host e' env s r := by
    intro r
    simp only [Compiled, h _ env s hs]
  constructor
  · rintro (hc | ⟨hc, hrun⟩)
    · exact .failed ((hcomp _).mp hc)
    · exact .ran ((hcomp _).mp hc) hrun
  · rintro (hc | ⟨hc, hrun⟩)
    · exact .failed ((hcomp _).mpr hc)
    · exact .ran ((hcomp _).mpr hc) hrun

end Evaluation

end Arcueid
