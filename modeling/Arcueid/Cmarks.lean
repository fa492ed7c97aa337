import Mathlib.Logic.Relation
import Arcueid.DynamicWind
import Arcueid.TableMap

/-! Continuation marks: the table of stacks of a thread (`arc_cmark`,
`arc_scmark` and `arc_ccmark` of `thread.c`), and the runs of a thread whose
`call-w/cmark` and `eval` push and pop through `arc_dynamic_wind`. The thunks of
other winds are code like any other, which may raise errors and jump while
`__arc_reroot` is under way. -/

namespace Arcueid.Cmarks

open Winding

/-- The marks pushed by one wind, in order. -/
abbrev MarkList (K V : Type) := List (K × V)

section Table

variable {K V : Type} (fuel : Nat) (kg : Keying K) (cm : Table K (List V))

def arcCmark (nil : V) (key : K) : Option V := do
  match ← arcHashLookup fuel kg cm key with
  | none => return nil
  | some val => return val.headD nil

def arcScmark (key : K) (val : V) : Option (Table K (List V)) := do
  let bind ← arcHashLookup fuel kg cm key
  let (cm, _) ← arcHashInsert fuel kg cm key (some (val :: bind.getD []))
  return cm

def arcCcmark (key : K) : Option (Table K (List V)) := do
  match ← arcHashLookup fuel kg cm key with
  | none => return cm
  | some bind =>
    if bind.tail = [] then (arcHashDelete fuel kg cm key).map Prod.fst
    else (arcHashInsert fuel kg cm key (some bind.tail)).map Prod.fst

/-- The before thunk of `call-w/cmark`. -/
def scmarks (marks : MarkList K V) : Option (Table K (List V)) :=
  marks.foldlM (fun cm m => arcScmark fuel kg cm m.1 m.2) cm

/-- Its after thunk. -/
def ccmarks (marks : MarkList K V) : Option (Table K (List V)) :=
  marks.foldlM (fun cm m => arcCcmark fuel kg cm m.1) cm

end Table

/-- What a wind calls. Other code than the thunks of marks runs with the marks
that are in force where its `dynamic-wind` was called. -/
inductive Thunk (K V : Type) where
  | push (marks : MarkList K V)
  | pop (marks : MarkList K V)
  | user (env : MarkList K V)

/-- What waits for a call. The marks that a frame carries are those in force
there, innermost first: they say what is meant, and no test reads them. -/
inductive Frame (K V : Type) where
  | code (env : MarkList K V)
  /-- `__arc_reroot`, waiting for its own call. -/
  | hop (there : Nat)
  /-- `arc_dynamic_wind`, waiting to call its thunk. -/
  | during (here : Nat) (env : MarkList K V)
  /-- `arc_dynamic_wind`, waiting for its thunk. -/
  | exitWind (here : Nat)
  /-- `arc_dynamic_wind`, waiting to return. -/
  | result
  /-- `contwrapper` with a captured continuation, waiting for `__arc_reroot`. -/
  | throw (k : Nat)
  /-- `arc_err` without a handler, waiting for `__arc_reroot`. -/
  | broken

structure Captured (K V : Type) where
  tcr : List (Frame K V)
  tch : Nat

inductive Control where
  | code
  | returning
  /-- `__arc_reroot` is called. -/
  | reroot (there : Nat)
  | raise
  | ended

structure MarkThread (K V : Type) where
  control : Control
  conr : List (Frame K V)
  winds : WindThread (Thunk K V)
  captured : List (Captured K V)
  cm : Table K (List V)
  /-- The marks of the calls of `call-w/cmark` and `eval` whose thunk is active,
  innermost first. -/
  env : MarkList K V

variable {K V : Type}

/-- A thread from `arc_mkthread`. -/
def startThread : MarkThread K V where
  control := .code
  conr := []
  winds := arcMkthreadWinds
  captured := []
  cm := arcMkhash 6
  env := []

/-- `arc_dynamic_wind` up to its first call of `__arc_reroot`. -/
def MarkThread.enterWind (s : MarkThread K V) (before after : Thunk K V) (env : MarkList K V) :
    MarkThread K V :=
  { s with
    winds := { s.winds with
      cells := s.winds.cells ++ [⟨some (before, after), some s.winds.tch⟩] }
    conr := .during s.winds.tch env :: s.conr
    control := .reroot s.winds.cells.length }

def MarkThread.callWCmark (s : MarkThread K V) (marks : MarkList K V) : MarkThread K V :=
  s.enterWind (.push marks) (.pop marks) (marks.reverse ++ s.env)

/-- The mark of `arc_eval`: only a table of line numbers that is bound. -/
def lndataMarks (lndata : K) : Option V → MarkList K V
  | some tbl => [(lndata, tbl)]
  | none => []

section Steps

variable (kg : Keying K) (lndata : K)

/-- What a thread may do next. -/
inductive Step : MarkThread K V → MarkThread K V → Prop
  | call {s} : s.control = .code → Step s { s with conr := .code s.env :: s.conr }
  | areturn {s} : s.control = .code → Step s { s with control := .returning }
  | err {s} : s.control = .code → Step s { s with control := .raise }
  /-- Any other `dynamic-wind`, such as that of `on-err`. -/
  | wind {s} : s.control = .code → Step s (s.enterWind (.user s.env) (.user s.env) s.env)
  | callWCmark {s} marks : s.control = .code → Step s (s.callWCmark marks)
  /-- `arc_eval`, up to the wind around `arc_compile`. -/
  | eval {s : MarkThread K V} tbl : s.control = .code →
      Step s ({ s with conr := .code s.env :: s.conr }.callWCmark (lndataMarks lndata tbl))
  | capture {s} : s.control = .code →
      Step s { s with captured := s.captured ++ [⟨s.conr, s.winds.tch⟩] }
  /-- A continuation is applied, by code or to the exception of an error. -/
  | throw {s k c} : s.control = .code ∨ s.control = .raise → s.captured[k]? = some c →
      Step s { s with conr := .throw k :: s.conr, control := .reroot c.tch }
  /-- There is no handler. -/
  | broken {s} : s.control = .raise →
      Step s { s with conr := .broken :: s.conr, control := .reroot 0 }
  | arrive {s there} : s.control = .reroot there → s.winds.tch = there →
      Step s { s with control := .returning }
  | descend {s there cell next} : s.control = .reroot there → s.winds.tch ≠ there →
      s.winds.cells[there]? = some cell → cell.cdr = some next →
      Step s { s with conr := .hop there :: s.conr, control := .reroot next }
  | hopUser {s there env after cdr conr} : s.control = .returning → s.conr = .hop there :: conr →
      s.winds.cells[there]? = some ⟨some (.user env, after), cdr⟩ →
      Step s { s with
        control := .code, conr := conr, winds := hop s.winds there (.user env) after, env := env }
  | hopPush {s there marks after cdr conr fuel cm} : s.control = .returning →
      s.conr = .hop there :: conr →
      s.winds.cells[there]? = some ⟨some (.push marks, after), cdr⟩ →
      scmarks fuel kg s.cm marks = some cm →
      Step s { s with conr := conr, winds := hop s.winds there (.push marks) after, cm := cm }
  | hopPop {s there marks after cdr conr fuel cm} : s.control = .returning →
      s.conr = .hop there :: conr →
      s.winds.cells[there]? = some ⟨some (.pop marks, after), cdr⟩ →
      ccmarks fuel kg s.cm marks = some cm →
      Step s { s with conr := conr, winds := hop s.winds there (.pop marks) after, cm := cm }
  | during {s here env conr} : s.control = .returning → s.conr = .during here env :: conr →
      Step s { s with control := .code, conr := .exitWind here :: conr, env := env }
  | exitWind {s here conr} : s.control = .returning → s.conr = .exitWind here :: conr →
      Step s { s with control := .reroot here, conr := .result :: conr }
  | toResult {s conr} : s.control = .returning → s.conr = .result :: conr →
      Step s { s with conr := conr }
  | toCode {s env conr} : s.control = .returning → s.conr = .code env :: conr →
      Step s { s with control := .code, conr := conr, env := env }
  /-- A continuation without frames returns to what is at hand. -/
  | toThrow {s k c conr} : s.control = .returning → s.conr = .throw k :: conr →
      s.captured[k]? = some c → Step s { s with conr := if c.tcr.isEmpty then conr else c.tcr }
  | toBroken {s conr} : s.control = .returning → s.conr = .broken :: conr →
      Step s { s with control := .ended, conr := conr }
  | release {s} : s.control = .returning → s.conr = [] → Step s { s with control := .ended }

/-- A continuation that was captured with nothing pending is applied with nothing
pending. -/
def Clean (s : MarkThread K V) : Prop := ∀ k c conr, s.control = .returning →
  s.conr = .throw k :: conr → s.captured[k]? = some c → c.tcr = [] → conr = []

end Steps

/-- The values given for a key by the calls that are active, innermost first. -/
def marksFor (kg : Keying K) (env : MarkList K V) (key : K) : List V :=
  (env.filter fun m => kg.same m.1 key).map Prod.snd

/-- What `cmark` is to answer wherever code runs, as far as the table answers:
its stack for a key holds the values of the calls that are active, and no
others. -/
structure MarksActive (kg : Keying K) (nil : V) (s : MarkThread K V) : Prop where
  stack : ∀ key fuel bind, arcHashLookup fuel kg s.cm key = some bind →
    bind.getD [] = marksFor kg s.env key
  value : ∀ key, (∃ fuel, arcCmark fuel kg s.cm nil key = some ((marksFor kg s.env key).headD nil)) ↔
    ∃ i, i < s.cm.tablesize ∧ (s.cm.slot i).stops kg key = true

end Arcueid.Cmarks
