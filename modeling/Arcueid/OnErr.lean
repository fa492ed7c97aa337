import Arcueid.Lib.Winding

/-! `on-err` (`err.c`) over `call/cc` and `dynamic-wind` (`vmengine.c`), inside
one thread. The continuation register is the list of the pending frames; a
jump to another state of control calls the thunks of the winds on the way. -/

namespace Arcueid

open Winding

/-- What a thunk or a handler does: return, call, raise, catch, capture, escape
and wind. -/
inductive Prog (V α : Type) where
  | ret (v : V)
  | bind (p : Prog V α) (k : V → Prog V α)
  | err (str : V)
  | onErr (handler : V → Prog V α) (thunk : Prog V α)
  | ccc (body : Nat → Prog V α)
  | apply (k : Nat) (v : V)
  | dynWind (before after : α) (during : Prog V α)

/-- The exceptions among the values. -/
structure Exceptions (V : Type) where
  isException : V → Bool
  mkexception : V → V
  isException_mkexception : ∀ str, isException (mkexception str) = true

inductive WindThunk (α : Type) where
  | savetexh (id : Nat)
  | restoretexh (id : Nat)
  | user (a : α)

/-- The winds a thread is inside of. -/
abbrev Here (α : Type) := List (Wind (WindThunk α))

inductive Frame (V α : Type) where
  | seq (k : V → Prog V α)
  /-- `arc_on_err`, waiting for the call of `arc_callcc`. -/
  | onErr (handler : V → Prog V α)
  /-- `arc_dynamic_wind`, waiting for the call of the thunk. -/
  | exitWind (here : Here α)

/-- What `contwrapper` reads in the environment of `arc_callcc`. -/
structure Captured (V α : Type) where
  tcr : List (Frame V α)
  tch : Here α

/-- The value of `TEXH`: a continuation and a handler. -/
abbrev Texh (V α : Type) := Option (Captured V α × (V → Prog V α))

/-- The variables of a call of `ccchandler` and of its `arc_on_err`. -/
structure Activation (V α : Type) where
  cont : Captured V α
  old : Texh V α
  handler : V → Prog V α

inductive Event (V α : Type) where
  /-- A thunk of a `dynamic-wind` is called. -/
  | thunk (a : α)
  /-- A handler is called. -/
  | handled (exc : V)

inductive Control (V α : Type) where
  | eval (p : Prog V α)
  | broken (exc : V)

structure ErrThread (V α : Type) where
  control : Control V α
  frames : List (Frame V α)
  states : List (Here α)
  here : Here α
  texh : Texh V α
  acts : Nat → Option (Activation V α)
  conts : List (Captured V α)
  log : List (Event V α)

variable {V α : Type}

def startThread (p : Prog V α) : ErrThread V α where
  control := .eval p
  frames := []
  states := [[]]
  here := []
  texh := none
  acts := fun _ => none
  conts := []
  log := []

namespace ErrThread

def callThunk (s : ErrThread V α) : WindThunk α → ErrThread V α
  | .savetexh id =>
    match s.acts id with
    | some act => { s with
        acts := fun i => if i = id then some { act with old := s.texh } else s.acts i
        texh := some (act.cont, act.handler) }
    | none => s
  | .restoretexh id =>
    match s.acts id with
    | some act => { s with texh := act.old }
    | none => s
  | .user a => { s with log := s.log ++ [.thunk a] }

def reroot (s : ErrThread V α) (there : Here α) : ErrThread V α :=
  { (thunks s.here there).foldl callThunk s with here := there }

/-- `arc_dynamic_wind` up to the call of its thunk. -/
def enterWind (s : ErrThread V α) (before after : WindThunk α) (thunk : Prog V α) :
    ErrThread V α :=
  let there := ⟨s.states.length, before, after⟩ :: s.here
  let t := { s with states := s.states ++ [there] }.reroot there
  { t with control := .eval thunk, frames := .exitWind s.here :: s.frames }

/-- Apply a captured continuation. When it has no frame the value is returned
to the frames at hand. -/
def contwrapper (s : ErrThread V α) (cont : Captured V α) (v : V) : ErrThread V α :=
  let t := s.reroot cont.tch
  match cont.tcr with
  | [] => { t with control := .eval (.ret v) }
  | frames => { t with control := .eval (.ret v), frames := frames }

/-- `arc_on_err` up to the call of the thunk. -/
def onErr (s : ErrThread V α) (handler : V → Prog V α) (thunk : Prog V α) : ErrThread V α :=
  let frames := .onErr handler :: s.frames
  let id := s.states.length
  let act := ⟨⟨frames, s.here⟩, none, handler⟩
  let t := { s with
    frames := frames
    acts := fun i => if i = id then some act else s.acts i }
  t.enterWind (.savetexh id) (.restoretexh id) thunk

/-- Raise an exception. -/
def raise (s : ErrThread V α) (exc : V) : ErrThread V α :=
  match s.texh with
  | none => { s.reroot [] with control := .broken exc }
  | some (cont, _) => s.contwrapper cont exc

/-- Return a value to the first frame. -/
def ret (x : Exceptions V) (s : ErrThread V α) (v : V) : Option (ErrThread V α) :=
  match s.frames with
  | [] => none
  | .seq k :: frames => some { s with control := .eval (k v), frames := frames }
  | .exitWind here :: frames =>
    some { s.reroot here with control := .eval (.ret v), frames := frames }
  | .onErr handler :: frames =>
    if x.isException v then
      some { s with control := .eval (handler v), frames := frames, log := s.log ++ [.handled v] }
    else some { s with control := .eval (.ret v), frames := frames }

def step (x : Exceptions V) (s : ErrThread V α) : Option (ErrThread V α) :=
  match s.control with
  | .broken _ => none
  | .eval (.ret v) => s.ret x v
  | .eval (.bind p k) => some { s with control := .eval p, frames := .seq k :: s.frames }
  | .eval (.err str) => some (s.raise (x.mkexception str))
  | .eval (.onErr handler thunk) => some (s.onErr handler thunk)
  | .eval (.ccc body) => some { s with
      control := .eval (body s.conts.length)
      conts := s.conts ++ [⟨s.frames, s.here⟩] }
  | .eval (.apply k v) => s.conts[k]?.map fun cont => s.contwrapper cont v
  | .eval (.dynWind before after during) =>
    some (s.enterWind (.user before) (.user after) during)

/-- Exactly `n` steps. -/
def steps (x : Exceptions V) : Nat → ErrThread V α → Option (ErrThread V α)
  | 0, s => some s
  | n + 1, s => (s.step x).bind (steps x n)

/-- A thunk does not return an exception to its `on-err`, and a continuation that
was captured with nothing pending is applied with nothing pending. -/
def CleanStep (x : Exceptions V) (s : ErrThread V α) : Prop :=
  (∀ v here handler frames, s.control = .eval (.ret v) →
    s.frames = .exitWind here :: .onErr handler :: frames → x.isException v = false) ∧
  ∀ k v cont, s.control = .eval (.apply k v) → s.conts[k]? = some cont →
    cont.tcr = [] → s.frames = []

end ErrThread

end Arcueid
