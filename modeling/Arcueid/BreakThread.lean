import Arcueid.Dispatch
import Arcueid.TailFrames
import Arcueid.OnErrRuns

/-! `break-thread` (`thread.c`). A call of `arc_err` is put into the registers of
a suspended thread from outside; the count of its arguments is not. -/

namespace Arcueid

/-- Strings as values. -/
structure CStrings where
  mkstringc : String → Value
  text : Value → String
  text_mkstringc : ∀ s, text (mkstringc s) = s

/-- A foreign function: its number of parameters, or -1 for any number of them
and -2 for a function that makes its own frame. -/
structure Cfunc where
  argc : Int
  env : Value

/-- What `cfunc_apply` leaves to be done. -/
inductive Applied where
  | wrongArgc (text : String)
  | resume (t : VmThread)
  | simple (t : VmThread) (argv : List Value)

/-- The code of `arc_err`, and the function made of it. -/
def errCfunc : Cfunc := ⟨-2, .nil⟩

def errAff : Value := .ccode 0 .nil

namespace VmThread

/-- `argv[i] = CPOP(thr)` from the last argument on. -/
def popArgs : Nat → VmThread → List Value × VmThread
  | 0, t => ([], t)
  | n + 1, t =>
    let (arg, t) := t.cpop
    let (args, t) := popArgs n t
    (args ++ [arg], t)

def cfuncApply (t : VmThread) (rcfn : Cfunc) (cfn : Value) : Applied :=
  if 0 ≤ rcfn.argc ∧ rcfn.argc ≠ t.argc then
    .wrongArgc ("wrong number of arguments (" ++ toString t.argc ++ " for " ++
      toString rcfn.argc ++ ")")
  else if rcfn.argc = -2 then .resume { t with ip := 0, envr := rcfn.env, funr := cfn }
  else
    let (argv, t) := t.popArgs t.argc
    .simple t argv

/-- `__arc_affenv` for a function without a rest parameter: an error, or the
thread with the frame of the function. -/
def affenv (fuel : Nat) (t : VmThread) (nargs optargs localvars : Nat) :
    Except String (Option VmThread) :=
  if t.ip ≠ 0 then .ok (some t)
  else if t.argc < nargs then
    .error ("too few arguments, at least " ++ toString nargs ++ " required, " ++
      toString t.argc ++ " passed")
  else if nargs + optargs < t.argc then
    .error ("too many arguments, at most " ++ toString (nargs + optargs) ++ " allowed, " ++
      toString t.argc ++ " passed")
  else .ok (t.mkenv fuel t.argc (nargs + optargs - t.argc + localvars))

/-- `__arc_affapply` without a continuation. -/
def affapply (fuel : Nat) (t : VmThread) (func : Value) (args : List Value) : Option VmThread := do
  let t ← t.pushAll fuel args
  { t with argc := args.length, valr := func }.menv args.length

/-- `va_err_cstrfmt` up to its jump back into the trampoline. -/
def vaErrCstrfmt (fuel : Nat) (t : VmThread) (str : Value) : Option VmThread := do
  let t ← t.mkenv fuel 0 0
  t.affapply fuel errAff [str]

end VmThread

inductive TrampolineState where
  | resume
  | fnapp

section Break

variable {V α : Type} (w : CStrings) (x : Exceptions V) (str : String → V) (fuel : Nat)

/-- The trampoline on a thread whose function is `arc_err`, up to the exception:
the value it is made of. -/
def errTrampoline : Nat → TrampolineState → VmThread → Option (Value × VmThread)
  | 0, _, _ => none
  | n + 1, .fnapp, t =>
    match t.cfuncApply errCfunc t.valr with
    | .resume t => errTrampoline n .resume t
    | _ => none
  | n + 1, .resume, t =>
    match t.affenv fuel 1 0 3 with
    | .error text => do
      let t ← t.vaErrCstrfmt fuel (w.mkstringc text)
      errTrampoline n .fnapp t
    | .ok t => do
      let t ← t
      let arg ← arcGetenv t.machine 0 0
      return (arg, t)

/-- The registers that `arc_break_thread` sets. -/
def forgeErr (t : VmThread) : Option VmThread := do
  let t := { t with valr := errAff }
  let t ← t.cpush fuel fun _ => w.mkstringc "user break"
  match { t with funr := t.valr }.cfuncApply errCfunc t.valr with
  | .resume t => some t
  | _ => none

/-- A thread with its registers and its handlers. -/
structure HandledThread (V α : Type) where
  tstate : Dispatch.TState
  vm : VmThread
  err : ErrThread V α

def breakable : Dispatch.TState → Bool
  | .Tready | .Tsleep | .Tiowait => true
  | _ => false

def arcBreakThread (thr : HandledThread V α) : Option (HandledThread V α) :=
  if breakable thr.tstate then do
    let vm ← forgeErr w fuel thr.vm
    return { thr with tstate := .Tready, vm := vm }
  else some thr

/-- What the dispatcher has a ready thread do whose function is `arc_err`: the
error is raised to the handler in `TEXH`, or the thread is broken. -/
def resumeErr (thr : HandledThread V α) : Option (String × HandledThread V α) := do
  let (arg, vm) ← errTrampoline w fuel 3 .resume thr.vm
  let text := w.text arg
  return (text,
    { tstate := if thr.err.texh.isNone then .Tbroken else .Tready, vm := vm
      err := thr.err.raise (x.mkexception (str text)) })

end Break

section Handlers

variable {V α : Type} {x : Exceptions V} {s s' : ErrThread V α}

/-- The continuation of a handler is waiting in the `on-err` of that handler. -/
def Waits (texh : Texh V α) : Prop :=
  ∀ cont handler, texh = some (cont, handler) → ∃ fs, cont.tcr = .onErr handler :: fs

/-- The handler in force and the ones to be put back. -/
structure HandlersWait (s : ErrThread V α) : Prop where
  texh : Waits s.texh
  acts : ∀ id act, s.acts id = some act →
    Waits (some (act.cont, act.handler)) ∧ Waits act.old

theorem HandlersWait.congr (h : HandlersWait s) (htexh : s'.texh = s.texh)
    (hacts : s'.acts = s.acts) : HandlersWait s' :=
  ⟨htexh ▸ h.texh, hacts ▸ h.acts⟩

theorem HandlersWait.callThunk (h : HandlersWait s) (thunk : WindThunk α) :
    HandlersWait (s.callThunk thunk) := by
  cases thunk with
  | savetexh id =>
    rw [ErrThread.callThunk]
    cases hact : s.acts id with
    | none => exact h
    | some act =>
      obtain ⟨hcont, hold⟩ := h.acts id act hact
      refine ⟨hcont, fun i act' hi => ?_⟩
      by_cases heq : i = id
      · have hnew : act' = { act with old := s.texh } := by
          simp only [heq, if_true] at hi
          exact (Option.some.inj hi).symm
        rw [hnew]
        exact ⟨hcont, h.texh⟩
      · simp only [heq, if_false] at hi
        exact h.acts i act' hi
  | restoretexh id =>
    rw [ErrThread.callThunk]
    cases hact : s.acts id with
    | none => exact h
    | some act => exact ⟨(h.acts id act hact).2, h.acts⟩
  | user a => exact h.congr rfl rfl

theorem HandlersWait.reroot (h : HandlersWait s) (there : Here α) :
    HandlersWait (s.reroot there) := by
  have hfold : ∀ (ts : List (WindThunk α)) (s : ErrThread V α), HandlersWait s →
      HandlersWait (ts.foldl ErrThread.callThunk s) := by
    intro ts
    induction ts with
    | nil => exact fun s h => h
    | cons t ts ih => exact fun s h => ih _ (h.callThunk t)
  exact (hfold _ s h).congr rfl rfl

theorem HandlersWait.enterWind (h : HandlersWait s) (before after : WindThunk α)
    (thunk : Prog V α) : HandlersWait (s.enterWind before after thunk) := by
  let there : Here α := ⟨s.states.length, before, after⟩ :: s.here
  have hs : HandlersWait { s with states := s.states ++ [there] } := h.congr rfl rfl
  exact (hs.reroot there).congr rfl rfl

theorem HandlersWait.onErr (h : HandlersWait s) (handler : V → Prog V α) (thunk : Prog V α) :
    HandlersWait (s.onErr handler thunk) := by
  let act : Activation V α := ⟨⟨.onErr handler :: s.frames, s.here⟩, none, handler⟩
  have hs : HandlersWait { s with
      frames := .onErr handler :: s.frames
      acts := fun i => if i = s.states.length then some act else s.acts i } := by
    refine ⟨h.texh, fun i act' hi => ?_⟩
    by_cases heq : i = s.states.length
    · have hnew : act' = act := by
        simp only [heq, if_true] at hi
        exact (Option.some.inj hi).symm
      rw [hnew]
      refine ⟨fun cont handler' hsome => ?_, fun cont handler' hnone => by cases hnone⟩
      cases hsome
      exact ⟨s.frames, rfl⟩
    · simp only [heq, if_false] at hi
      exact h.acts i act' hi
  exact hs.enterWind _ _ _

theorem HandlersWait.contwrapper (h : HandlersWait s) (cont : Captured V α) (v : V) :
    HandlersWait (s.contwrapper cont v) := by
  have hs := h.reroot cont.tch
  rw [ErrThread.contwrapper]
  cases cont.tcr with
  | nil => exact hs.congr rfl rfl
  | cons f fs => exact hs.congr rfl rfl

theorem HandlersWait.raise (h : HandlersWait s) (exc : V) : HandlersWait (s.raise exc) := by
  rw [ErrThread.raise]
  cases s.texh with
  | none => exact (h.reroot []).congr rfl rfl
  | some p => exact h.contwrapper p.1 exc

theorem HandlersWait.ret {v : V} (h : HandlersWait s) (hret : s.ret x v = some s') :
    HandlersWait s' := by
  rw [ErrThread.ret] at hret
  cases hfs : s.frames with
  | nil =>
    rw [hfs] at hret
    cases hret
  | cons f fs =>
    rw [hfs] at hret
    cases f with
    | seq k =>
      cases hret
      exact h.congr rfl rfl
    | exitWind here =>
      cases hret
      exact (h.reroot here).congr rfl rfl
    | onErr handler =>
      dsimp only at hret
      by_cases hv : x.isException v = true
      · rw [if_pos hv] at hret
        cases hret
        exact h.congr rfl rfl
      · rw [if_neg hv] at hret
        cases hret
        exact h.congr rfl rfl

theorem HandlersWait.step (h : HandlersWait s) (hstep : s.step x = some s') :
    HandlersWait s' := by
  rw [ErrThread.step] at hstep
  cases hs : s.control with
  | broken exc =>
    rw [hs] at hstep
    cases hstep
  | eval p =>
    rw [hs] at hstep
    cases p with
    | ret v => exact h.ret hstep
    | bind p k =>
      cases hstep
      exact h.congr rfl rfl
    | err str =>
      cases hstep
      exact h.raise _
    | onErr handler thunk =>
      cases hstep
      exact h.onErr handler thunk
    | ccc body =>
      cases hstep
      exact h.congr rfl rfl
    | apply k v =>
      obtain ⟨cont, -, rfl⟩ := Option.map_eq_some_iff.mp hstep
      exact h.contwrapper cont v
    | dynWind before after during =>
      cases hstep
      exact h.enterWind _ _ _

theorem HandlersWait.steps {n : Nat} (h : HandlersWait s) (hrun : s.steps x n = some s') :
    HandlersWait s' := by
  induction n generalizing s with
  | zero =>
    cases hrun
    exact h
  | succ n ih =>
    obtain ⟨s₁, hs₁, hrest⟩ := Option.bind_eq_some_iff.mp hrun
    exact ih (h.step hs₁) hrest

theorem handlersWait_start (p : Prog V α) : HandlersWait (startThread p) :=
  ⟨fun _ _ h => (by cases h), fun _ _ h => (by cases h)⟩

end Handlers

/-- The next thing a broken thread does is to raise the error "user break": the
`on-err` that `TEXH` is of gets the exception, or the thread ends. -/
def RaisesUserBreak {V α : Type} (w : CStrings) (x : Exceptions V) (str : String → V) (fuel : Nat)
    (thr : HandledThread V α) : Prop :=
  ∃ thr' r, arcBreakThread w fuel thr = some thr' ∧ thr'.tstate = .Tready ∧
    resumeErr w x str fuel thr' = some ("user break", r) ∧
    match thr.err.texh with
    | none => r.tstate = .Tbroken ∧ r.err.control = .broken (x.mkexception (str "user break"))
    | some (_, handler) => r.tstate = .Tready ∧
      r.err.control = .eval (.ret (x.mkexception (str "user break"))) ∧
      ∃ fs, r.err.frames = .onErr handler :: fs

section Registers

variable {w : CStrings} {fuel n : Nat} {t t' : VmThread} {v : Value}

/-- The topmost value of the stack. -/
def topValue (t : VmThread) : Value := t.machine.slot (t.machine.sp - 1)

/-- A push that has room puts its value on top. -/
theorem cpush_top (h : Inside t) (hrun : t.cpush fuel (fun _ => v) = some t')
    (hin : t'.spr.vec = t'.stack) : Inside t' ∧ t'.spr.idx = t.spr.idx - 1 ∧ 0 < t.spr.idx ∧
      1 ≤ t'.machine.sp ∧ topValue t' = v := by
  have hroom := cpush_room h hrun hin
  obtain ⟨t'', hrun', hin', hidx, -⟩ := cpush_run fuel (fun _ => v) h hroom
  cases hrun.symm.trans hrun'
  have hm : t'.machine = t.machine.cpush v := by
    rcases cpush_cases h hrun with ⟨hm, -, -⟩ | hout
    · exact hm
    · exact absurd hin hout
  have hsp : t'.machine.sp = t.machine.sp + 1 := by rw [hm]; rfl
  refine ⟨hin', hidx, hroom, by omega, ?_⟩
  rw [topValue, hsp, hm]
  exact Function.update_self _ _ _

/-- `arc_err` called with one argument makes its exception of it, if its frame fits. -/
theorem errTrampoline_called (w : CStrings) (fuel n : Nat) (h : Inside t) (hsp : 1 ≤ t.machine.sp) (hip : t.ip = 0)
    (henvr : t.envr = .nil) (hargc : t.argc = 1) :
    (∀ r, errTrampoline w fuel (n + 1) .resume t = some r → 5 ≤ t.spr.idx ∧ r.1 = topValue t) ∧
    (5 ≤ t.spr.idx → ∃ r, errTrampoline w fuel (n + 1) .resume t = some r) := by
  have henv : t.affenv fuel 1 0 3 = .ok (t.mkenv fuel 1 3) := by
    simp [VmThread.affenv, hip, hargc]
  have hrunning : RunningThread t [] :=
    ⟨h, by rw [henvr]; exact .nil, fun e he => by cases he⟩
  have htramp : errTrampoline w fuel (n + 1) .resume t =
      (t.mkenv fuel 1 3).bind fun t => (arcGetenv t.machine 0 0).map fun arg => (arg, t) := by
    rw [errTrampoline, henv]
    cases t.mkenv fuel 1 3 with
    | none => rfl
    | some t₁ =>
      simp only [Option.bind_eq_bind, Option.bind_some, Option.pure_def]
      cases arcGetenv t₁.machine 0 0 <;> rfl
  have hget : ∀ t', t.mkenv fuel 1 3 = some t' → 5 ≤ t.spr.idx ∧
      arcGetenv t'.machine 0 0 = some (topValue t) := by
    intro t' hrun
    have hroom := mkenv_room h hrun
    obtain ⟨t'', hrun', hcurrent⟩ := mkenv_run fuel 1 3 h hroom
    cases hrun.symm.trans hrun'
    have hframe := frameMade hrunning hsp hrun hcurrent
    exact ⟨by omega, hframe.values 0 Nat.zero_lt_one⟩
  rw [htramp]
  constructor
  · intro r hr
    obtain ⟨t', hrun, hr⟩ := Option.bind_eq_some_iff.mp hr
    obtain ⟨arg, harg, rfl⟩ := Option.map_eq_some_iff.mp hr
    obtain ⟨hroom, hval⟩ := hget t' hrun
    exact ⟨hroom, Option.some.inj (harg.symm.trans hval)⟩
  · intro hroom
    obtain ⟨t', hrun, -⟩ := mkenv_run fuel 1 3 h (by omega)
    obtain ⟨-, hval⟩ := hget t' hrun
    rw [hrun, Option.bind_some, hval]
    exact ⟨_, rfl⟩

theorem arcEnv2heap_head {m : Machine} {env : Value} {p : Machine × Value}
    (h : arcEnv2heap fuel n m env = some p) : envP p.2 = false := by
  cases n with
  | zero => cases h
  | succ n =>
    cases env with
    | nil =>
      cases h
      rfl
    | _ =>
      simp only [arcEnv2heap, heapEnv, Option.bind_eq_bind, Option.pure_def] at h
      obtain ⟨m₁, -, h⟩ := Option.bind_eq_some_iff.mp h
      obtain ⟨q, -, h⟩ := Option.bind_eq_some_iff.mp h
      cases h
      rfl

/-- A thread whose stack has been grown has its environment on the heap. -/
theorem cpush_grown (h : Inside t) (hrun : t.cpush fuel (fun _ => v) = some t')
    (hout : t'.spr.vec ≠ t'.stack) : envP t'.envr = false := by
  have hfull : t.spr = t.stkbase := by
    by_contra hroom
    obtain ⟨t'', hrun', -, -, hin⟩ : ∃ t'', t.cpush fuel (fun _ => v) = some t'' ∧
        t''.machine = t.machine.cpush v ∧ t''.stktop = t.stktop ∧ Inside t'' :=
      cpush_machine h hroom
    cases hrun.symm.trans hrun'
    exact hout hin.vec
  have hzero : t.spr.idx = 0 := h.spr_eq_iff.mp hfull
  rw [VmThread.cpush, h.diff_base, Option.bind_eq_bind, Option.bind_some, if_neg (by omega),
    if_pos hzero] at hrun
  obtain ⟨t₁, ht₁, hrest⟩ := Option.bind_eq_some_iff.mp hrun
  cases hrest
  obtain ⟨m, t₂, hm, -, hmove, rfl⟩ := arcStackcheck_full hfull ht₁
  obtain ⟨-, rfl⟩ := memmove_eq_some hmove
  obtain ⟨p, -, hsenvr⟩ := Option.bind_eq_some_iff.mp hm
  obtain ⟨q, hq, rfl⟩ := Option.map_eq_some_iff.mp hsenvr
  exact arcEnv2heap_head hq

theorem menv_regs (hrun : t.menv n = some t') : t'.argc = t.argc ∧ t'.valr = t.valr := by
  rw [VmThread.menv] at hrun
  cases henvr : t.envr with
  | env e =>
    rw [henvr] at hrun
    obtain ⟨t₁, hmove, hrun⟩ := Option.bind_eq_some_iff.mp hrun
    cases hrun
    obtain ⟨-, rfl⟩ := memmove_eq_some hmove
    exact ⟨rfl, rfl⟩
  | _ =>
    rw [henvr] at hrun
    cases hrun
    exact ⟨rfl, rfl⟩

/-- Moving one word over a frame moves the topmost one. -/
theorem menv_top {e : Nat} (h : Inside t) (henvr : t.envr = .env e)
    (hfit : senvStart t.machine e < t.machine.sp) (hrun : t.menv 1 = some t') :
    Inside t' ∧ 1 ≤ t'.machine.sp ∧ topValue t' = topValue t := by
  obtain ⟨t₁, hmenv, hm, -, hin⟩ := menv_machine (n := 1) h henvr hfit
  obtain rfl := Option.some.inj (hrun.symm.trans hmenv)
  have henvr' : t.machine.envr = .env e := henvr
  obtain ⟨hsp', -, hslot⟩ := arcMenv_eq henvr' 1
  rw [← hm] at hsp' hslot
  have hlast : senvStart t.machine e + 1 - 1 = senvStart t.machine e := by omega
  have hword : t.machine.sp - 1 + (senvStart t.machine e - senvStart t.machine e) =
      t.machine.sp - 1 := by omega
  refine ⟨hin, by omega, ?_⟩
  rw [topValue, topValue, hsp', hslot, hlast, if_pos (by omega), hword]

/-- The error of a foreign function leaves its text on top for `arc_err`. -/
theorem vaErrCstrfmt_top (h : Inside t) (hrun : t.vaErrCstrfmt fuel v = some t') :
    t'.spr.vec ≠ t'.stack ∨ Inside t' ∧ 1 ≤ t'.machine.sp ∧ t'.argc = 1 ∧ t'.valr = errAff ∧
      topValue t' = v := by
  obtain ⟨t₁, hframe, hrun⟩ := Option.bind_eq_some_iff.mp hrun
  obtain ⟨t₂, hpush, hmenv⟩ := Option.bind_eq_some_iff.mp hrun
  have hpush' : t₁.cpush fuel (fun _ => v) = some t₂ := by
    rw [pushAll_eq_pushes, List.map_singleton, pushes_cons] at hpush
    obtain ⟨t₂', hpush', hnil⟩ := Option.bind_eq_some_iff.mp hpush
    cases hnil
    exact hpush'
  have hin₁ : t₁.machine = arcMkenv t.machine 0 0 ∧ Inside t₁ := by
    refine (mkenv_cases h hframe).resolve_right fun hout => ?_
    rw [cpush_outside hout] at hpush'
    cases hpush'
  by_cases hvec : t₂.spr.vec = t₂.stack
  · right
    obtain ⟨hin₂, -, -, -, htop₂⟩ := cpush_top hin₁.2 hpush' hvec
    have hm₂ : t₂.machine = (arcMkenv t.machine 0 0).cpush v := by
      rcases cpush_cases hin₁.2 hpush' with ⟨hm, -, -⟩ | hout
      · rw [hm, hin₁.1]
      · exact absurd hvec hout
    obtain ⟨henvr, -, hcount, -, -⟩ := arcMkenv_words t.machine 0 0
    have hsp₁ : (arcMkenv t.machine 0 0).sp = t.machine.sp + 2 := by
      rw [arcMkenv_eq]
      simp
    have hsp : t₂.machine.sp = t.machine.sp + 3 := by rw [hm₂, Machine.cpush, hsp₁]
    have henvr₂ : t₂.envr = .env (t.machine.sp + 0 + 1) := by
      change t₂.machine.envr = _
      rw [hm₂]
      exact henvr
    have hstart : senvStart t₂.machine (t.machine.sp + 0 + 1) = t.machine.sp := by
      have hkept : senvCount t₂.machine (t.machine.sp + 0 + 1) = 0 := by
        rw [hm₂, senvCount]
        have hne : t.machine.sp + 0 + 1 - 1 ≠ (arcMkenv t.machine 0 0).sp := by omega
        have hslot : ((arcMkenv t.machine 0 0).cpush v).slot (t.machine.sp + 0 + 1 - 1) =
            (arcMkenv t.machine 0 0).slot (t.machine.sp + 0 + 1 - 1) := Function.update_of_ne hne _ _
        rw [hslot]
        exact hcount
      rw [senvStart, hkept]
      omega
    let t₃ : VmThread := { t₂ with argc := 1, valr := errAff }
    have hin₃ : Inside t₃ := ⟨hin₂.vec, hin₂.lo, hin₂.hi, hin₂.stkfn, hin₂.fn⟩
    have hfit : senvStart t₃.machine (t.machine.sp + 0 + 1) < t₃.machine.sp := by
      change senvStart t₂.machine (t.machine.sp + 0 + 1) < t₂.machine.sp
      omega
    obtain ⟨hin', hsp', htop'⟩ := menv_top hin₃ henvr₂ hfit hmenv
    obtain ⟨hargc, hvalr⟩ := menv_regs hmenv
    exact ⟨hin', hsp', hargc, hvalr, htop'.trans htop₂⟩
  · left
    have hgrown := cpush_grown hin₁.2 hpush' hvec
    have hkept : t'.spr = t₂.spr ∧ t'.stack = t₂.stack := by
      rw [VmThread.menv] at hmenv
      cases henvr : t₂.envr with
      | env e =>
        rw [henvr] at hgrown
        cases hgrown
      | _ =>
        rw [henvr] at hmenv
        cases hmenv
        exact ⟨rfl, rfl⟩
    rw [hkept.1, hkept.2]
    exact hvec

theorem errTrampoline_outside (hout : t.spr.vec ≠ t.stack) (hip : t.ip = 0) :
    errTrampoline w fuel (n + 1) .resume t = none := by
  have hmenv : ∀ k l, t.mkenv fuel k l = none := fun k l => mkenv_outside hout
  rw [errTrampoline, VmThread.affenv, if_neg (fun hne => hne hip)]
  have hva : ∀ v, t.vaErrCstrfmt fuel v = none := by
    intro v
    rw [VmThread.vaErrCstrfmt, hmenv]
    rfl
  by_cases hfew : t.argc < 1
  · rw [if_pos hfew]
    simp only [hva, Option.bind_eq_bind, Option.bind_none]
  · rw [if_neg hfew]
    by_cases hmany : 1 + 0 < t.argc
    · rw [if_pos hmany]
      simp only [hva, Option.bind_eq_bind, Option.bind_none]
    · rw [if_neg hmany]
      simp only [hmenv, Option.bind_eq_bind, Option.bind_none]

/-- Any other count of arguments is an error of its own. -/
theorem affenv_miscounted (fuel : Nat) (hip : t.ip = 0) (hargc : t.argc ≠ 1) :
    ∃ text, t.affenv fuel 1 0 3 = .error text ∧ text ≠ "user break" := by
  have hhead : ∀ a b : String, (a ++ b).toList.head? = some 't' → a ++ b ≠ "user break" := by
    intro a b hab heq
    rw [heq] at hab
    simp at hab
  rw [VmThread.affenv, if_neg (fun hne => hne hip)]
  by_cases hfew : t.argc < 1
  · rw [if_pos hfew]
    exact ⟨_, rfl, hhead _ _ (by simp)⟩
  · rw [if_neg hfew, if_pos (by omega)]
    exact ⟨_, rfl, hhead _ _ (by simp)⟩

theorem errTrampoline_miscounted (h : Inside t) (hip : t.ip = 0) (hargc : t.argc ≠ 1)
    {r : Value × VmThread} (hr : errTrampoline w fuel 3 .resume t = some r) :
    w.text r.1 ≠ "user break" := by
  obtain ⟨text, henv, hne⟩ := affenv_miscounted fuel hip hargc
  rw [errTrampoline, henv] at hr
  obtain ⟨t₁, hva, hr⟩ := Option.bind_eq_some_iff.mp hr
  let t₂ : VmThread := { t₁ with ip := 0, envr := .nil, funr := t₁.valr }
  have hr₂ : errTrampoline w fuel 1 .resume t₂ = some r := hr
  rcases vaErrCstrfmt_top h hva with hout | ⟨hin, hsp, hargc₁, -, htop⟩
  · have hnone : errTrampoline w fuel 1 .resume t₂ = none := errTrampoline_outside hout rfl
    rw [hnone] at hr₂
    cases hr₂
  · have hin₂ : Inside t₂ := ⟨hin.vec, hin.lo, hin.hi, hin.stkfn, hin.fn⟩
    obtain ⟨hcalled, -⟩ := errTrampoline_called w fuel 0 hin₂ hsp rfl rfl hargc₁
    obtain ⟨-, hval⟩ := hcalled r hr₂
    have htop₂ : topValue t₂ = w.mkstringc text := htop
    rw [hval, htop₂, w.text_mkstringc]
    exact hne

theorem forgeErr_eq_some (hrun : forgeErr w fuel t = some t') :
    ∃ t₁, ({ t with valr := errAff } : VmThread).cpush fuel
      (fun _ => w.mkstringc "user break") = some t₁ ∧
      t' = { t₁ with ip := 0, envr := .nil, funr := t₁.valr } := by
  obtain ⟨t₁, hpush, hrest⟩ := Option.bind_eq_some_iff.mp hrun
  cases hrest
  exact ⟨t₁, hpush, rfl⟩

theorem cpush_argc (hrun : t.cpush fuel (fun _ => v) = some t') (hin : t'.spr.vec = t'.stack)
    (h : Inside t) : t'.argc = t.argc := by
  rcases cpush_cases h hrun with ⟨hm, -, -⟩ | hout
  · exact congrArg Machine.argc hm
  · exact absurd hin hout

end Registers

section Breaking

variable {V α : Type} {w : CStrings} {x : Exceptions V} {str : String → V} {fuel n : Nat}
  {thr : HandledThread V α}

/-- What the registers come to: the text of the next error of a broken thread. -/
theorem forgeErr_text_iff (w : CStrings) (fuel : Nat) {t : VmThread} (h : Inside t) :
    (∃ t' r, forgeErr w fuel t = some t' ∧ errTrampoline w fuel 3 .resume t' = some r ∧
      w.text r.1 = "user break") ↔ t.argc = 1 ∧ 6 ≤ t.spr.idx := by
  let t₀ : VmThread := { t with valr := errAff }
  have hin₀ : Inside t₀ := ⟨h.vec, h.lo, h.hi, h.stkfn, h.fn⟩
  constructor
  · rintro ⟨t', r, hforge, hr, htext⟩
    obtain ⟨t₁, hpush, rfl⟩ := forgeErr_eq_some hforge
    by_cases hvec : t₁.spr.vec = t₁.stack
    · obtain ⟨hin₁, hidx, hroom, hsp, htop⟩ := cpush_top hin₀ hpush hvec
      have hargc : t₁.argc = t₀.argc := cpush_argc hpush hvec hin₀
      let t₂ : VmThread := { t₁ with ip := 0, envr := .nil, funr := t₁.valr }
      have hin₂ : Inside t₂ := ⟨hin₁.vec, hin₁.lo, hin₁.hi, hin₁.stkfn, hin₁.fn⟩
      have hone : t₂.argc = 1 := by
        by_contra hne
        exact errTrampoline_miscounted hin₂ rfl hne hr htext
      obtain ⟨hcalled, -⟩ := errTrampoline_called w fuel 2 hin₂ hsp rfl rfl hone
      obtain ⟨hfive, -⟩ := hcalled r hr
      have hidx₂ : t₂.spr.idx = t.spr.idx - 1 := hidx
      exact ⟨hargc.symm.trans hone, by omega⟩
    · have hnone : errTrampoline w fuel 3 .resume
          { t₁ with ip := 0, envr := .nil, funr := t₁.valr } = none := errTrampoline_outside hvec rfl
      rw [hnone] at hr
      cases hr
  · rintro ⟨hargc, hroom⟩
    have hroom₀ : 0 < t₀.spr.idx := by
      change 0 < t.spr.idx
      omega
    obtain ⟨t₁, hpush, hin₁, -, -⟩ := cpush_run fuel (fun _ => w.mkstringc "user break") hin₀ hroom₀
    obtain ⟨-, hidx, -, hsp, htop⟩ := cpush_top hin₀ hpush hin₁.vec
    let t₂ : VmThread := { t₁ with ip := 0, envr := .nil, funr := t₁.valr }
    have hin₂ : Inside t₂ := ⟨hin₁.vec, hin₁.lo, hin₁.hi, hin₁.stkfn, hin₁.fn⟩
    have hargc₁ : t₁.argc = t₀.argc := cpush_argc hpush hin₁.vec hin₀
    have hone : t₂.argc = 1 := hargc₁.trans hargc
    have hforge : forgeErr w fuel t = some t₂ := by
      have hbind : forgeErr w fuel t = (t₀.cpush fuel fun _ => w.mkstringc "user break").bind
        fun t => some { t with ip := 0, envr := .nil, funr := t.valr } := rfl
      rw [hbind, hpush]
      rfl
    obtain ⟨hcalled, hruns⟩ := errTrampoline_called w fuel 2 hin₂ hsp rfl rfl hone
    have hidx₂ : t₂.spr.idx = t.spr.idx - 1 := hidx
    obtain ⟨r, hr⟩ := hruns (by omega)
    obtain ⟨-, hval⟩ := hcalled r hr
    have htop₂ : topValue t₂ = w.mkstringc "user break" := htop
    refine ⟨t₂, r, hforge, hr, ?_⟩
    rw [hval, htop₂, w.text_mkstringc]

theorem raise_none {s : ErrThread V α} (exc : V) (h : s.texh = none) :
    (s.raise exc).control = .broken exc := by
  rw [ErrThread.raise, h]

/-- An exception is returned to the `on-err` that waits for it. -/
theorem raise_some {s : ErrThread V α} {cont : Captured V α} {handler : V → Prog V α}
    {fs : List (Frame V α)} (exc : V) (h : s.texh = some (cont, handler))
    (hwait : cont.tcr = .onErr handler :: fs) :
    (s.raise exc).control = .eval (.ret exc) ∧ (s.raise exc).frames = .onErr handler :: fs := by
  rw [ErrThread.raise, h]
  simp [ErrThread.contwrapper, hwait]

/-- Where the steps of a run are clean, `TEXH` is of the innermost `on-err`. -/
theorem texh_innermost {p : Prog V α} {s : ErrThread V α}
    (hrun : (startThread p).steps x n = some s)
    (hclean : ∀ k < n, ∀ s', (startThread p).steps x k = some s' → s'.CleanStep x) :
    s.texh = inForce s.frames := by
  have hsim := (Simulates.start p).steps n hclean
  rw [hrun] at hsim
  cases hspec : (specThread p).steps x n with
  | none =>
    rw [hspec] at hsim
    cases hsim
  | some t =>
    rw [hspec, Option.rel_some_some] at hsim
    exact hsim.agrees.texh

/-- A suspended thread that is broken raises "user break" exactly when one
argument was passed last and the call fits on its stack. -/
theorem arcBreakThread_raises_iff {p : Prog V α} (hrun : (startThread p).steps x n = some thr.err)
    (hin : Inside thr.vm) :
    (breakable thr.tstate = false → arcBreakThread w fuel thr = some thr) ∧
    (breakable thr.tstate = true →
      (RaisesUserBreak w x str fuel thr ↔ thr.vm.argc = 1 ∧ 6 ≤ thr.vm.spr.idx)) ∧
    ((∀ k < n, ∀ s, (startThread p).steps x k = some s → s.CleanStep x) →
      thr.err.texh = inForce thr.err.frames) := by
  have hwait : HandlersWait thr.err := (handlersWait_start p).steps hrun
  refine ⟨fun hstate => ?_, fun hstate => ?_, texh_innermost hrun⟩
  · rw [arcBreakThread, hstate]
    rfl
  rw [← forgeErr_text_iff w fuel hin]
  have hbreak : arcBreakThread w fuel thr =
      (forgeErr w fuel thr.vm).map fun vm => { thr with tstate := .Tready, vm := vm } := by
    rw [arcBreakThread, if_pos hstate]
    cases forgeErr w fuel thr.vm <;> rfl
  have hresume : ∀ thr' : HandledThread V α, resumeErr w x str fuel thr' =
      (errTrampoline w fuel 3 .resume thr'.vm).map fun r => (w.text r.1,
        { tstate := if thr'.err.texh.isNone then .Tbroken else .Tready, vm := r.2,
          err := thr'.err.raise (x.mkexception (str (w.text r.1))) }) := by
    intro thr'
    rw [resumeErr]
    cases errTrampoline w fuel 3 .resume thr'.vm <;> rfl
  constructor
  · rintro ⟨thr', r, hthr', -, hr, -⟩
    rw [hbreak] at hthr'
    obtain ⟨vm, hforge, rfl⟩ := Option.map_eq_some_iff.mp hthr'
    rw [hresume] at hr
    obtain ⟨q, hq, heq⟩ := Option.map_eq_some_iff.mp hr
    exact ⟨vm, q, hforge, hq, congrArg Prod.fst heq⟩
  · rintro ⟨vm, q, hforge, hq, htext⟩
    let thr' : HandledThread V α := { thr with tstate := .Tready, vm := vm }
    have hraise : resumeErr w x str fuel thr' = some ("user break",
        { tstate := if thr.err.texh.isNone then .Tbroken else .Tready, vm := q.2,
          err := thr.err.raise (x.mkexception (str "user break")) }) := by
      have hq' : errTrampoline w fuel 3 .resume thr'.vm = some q := hq
      rw [hresume, hq', Option.map_some, htext]
    refine ⟨thr', _, by rw [hbreak, hforge]; rfl, rfl, hraise, ?_⟩
    cases htexh : thr.err.texh with
    | none => exact ⟨by simp, raise_none _ htexh⟩
    | some ch =>
      obtain ⟨cont, handler⟩ := ch
      obtain ⟨fs, hfs⟩ := hwait.texh cont handler htexh
      obtain ⟨hcontrol, hframes⟩ := raise_some (x.mkexception (str "user break")) htexh hfs
      exact ⟨by simp, hcontrol, fs, hframes⟩

end Breaking

/-- The characters of a list of character codes. -/
def codeChars : Value → List Char
  | .cons car cdr => Char.ofNat (fix2int car).toNat :: codeChars cdr
  | _ => []

def charCodes (cs : List Char) : Value := cs.foldr (fun ch v => .cons (.fixnum ch.toNat) v) .nil

theorem codeChars_charCodes (cs : List Char) : codeChars (charCodes cs) = cs := by
  induction cs with
  | nil => rfl
  | cons ch cs ih =>
    have hhead : Char.ofNat (fix2int (.fixnum ch.toNat)).toNat = ch := by simp [fix2int]
    calc codeChars (charCodes (ch :: cs))
        = Char.ofNat (fix2int (.fixnum ch.toNat)).toNat :: codeChars (charCodes cs) := rfl
      _ = ch :: cs := by rw [hhead, ih]

/-- Strings as lists of character codes. -/
def codeStrings : CStrings where
  mkstringc s := charCodes s.toList
  text v := String.ofList (codeChars v)
  text_mkstringc s := by rw [codeChars_charCodes, String.ofList_toList]

/-- Values that are strings or exceptions made of them. -/
def textExceptions : Exceptions (Bool × String) where
  isException := Prod.fst
  mkexception str := (true, str.2)
  isException_mkexception _ := rfl

/-- A thread that was just spawned, or one to whose function `argc` arguments
were passed. -/
def spawnedThread (argc : Nat) : HandledThread (Bool × String) Unit where
  tstate := .Tready
  vm := { arcMkvmthread 16 fun _ => .unbound with argc := argc }
  err := startThread (.ret (false, ""))

theorem spawnedThread_inside (argc : Nat) : Inside (spawnedThread argc).vm :=
  ⟨rfl, Int.natCast_nonneg 15, Int.le_refl _, rfl, Int.le_refl _⟩

theorem arcBreakThread_raises_one : (breakable (spawnedThread 1).tstate = false →
      arcBreakThread codeStrings 2 (spawnedThread 1) = some (spawnedThread 1)) ∧
    (breakable (spawnedThread 1).tstate = true →
      (RaisesUserBreak codeStrings textExceptions (Prod.mk false) 2 (spawnedThread 1) ↔
        (spawnedThread 1).vm.argc = 1 ∧ 6 ≤ (spawnedThread 1).vm.spr.idx)) ∧
    ((∀ k < 0, ∀ s : ErrThread (Bool × String) Unit,
        (startThread (.ret (false, ""))).steps textExceptions k = some s →
          s.CleanStep textExceptions) →
      (spawnedThread 1).err.texh = inForce (spawnedThread 1).err.frames) :=
  arcBreakThread_raises_iff (n := 0) (p := .ret (false, "")) rfl (spawnedThread_inside 1)

/-- A thread whose thunk has no parameter raises an error of another text. -/
theorem arcBreakThread_miscounts :
    ((arcBreakThread codeStrings 2 (spawnedThread 0)).bind
      (resumeErr codeStrings textExceptions (Prod.mk false) 2)).map Prod.fst =
        some "too few arguments, at least 1 required, 0 passed" ∧
    ¬ RaisesUserBreak codeStrings textExceptions (Prod.mk false) 2 (spawnedThread 0) := by
  have htext : ((arcBreakThread codeStrings 2 (spawnedThread 0)).bind
      (resumeErr codeStrings textExceptions (Prod.mk false) 2)).map Prod.fst =
        some "too few arguments, at least 1 required, 0 passed" := by decide +kernel
  refine ⟨htext, ?_⟩
  rintro ⟨thr', r, hthr', -, hr, -⟩
  have hother : "user break" ≠ "too few arguments, at least 1 required, 0 passed" := by decide
  rw [hthr', Option.bind_some, hr, Option.map_some, Option.some.injEq] at htext
  exact hother htext

end Arcueid
