import Arcueid.Params

/-! Parameter lists in the self-hosted compiler (`acc-args` and the functions it
calls, `compiler/compiler.arc`), over the contexts of `bootstrap.arc`. The
compiler of the defaults is a parameter. -/

namespace Arcueid.Acc

/-- A word of code: an instruction or an operand. -/
inductive Word where
  | op (inst : Inst)
  | arg (n : Int)
  deriving DecidableEq

/-- A compilation context; only functions of the runtime look into it. -/
structure Ctx where
  code : List Word
  literals : List Value

def accContext : Ctx := ⟨[], []⟩

inductive AccError where
  | compile (msg : String)
  /-- A function is given something that it rejects. -/
  | rejected
  deriving DecidableEq

abbrev AccM := StateT Ctx (Except AccError)

/-- What the arguments of `acc-processargs` can be, the wrong ones included: a
list of names and slots is made of `bind`, and may end in a number. -/
inductive Arg where
  | nil
  | num (n : Nat)
  | context
  | bind (name : Value) (slot rest : Arg)
  | outer
  deriving DecidableEq

/-- `acc` on the default of an argument: the expression, and the innermost frame
and the rest of the environment. -/
abbrev AccFn := Value → Arg → Arg → AccM Unit

/-- `acc-gen`. -/
def accGen (ctx : Arg) (inst : Inst) (args : List Int) : AccM Unit :=
  if ctx = .context then modify fun c => { c with code := c.code ++ .op inst :: args.map .arg }
  else throw .rejected

def accCodeptr (ctx : Arg) : AccM Nat := do
  if ctx = .context then return (← get).code.length else throw .rejected

def accPatch (ctx : Arg) (offset : Nat) (w : Word) : AccM Unit :=
  if ctx = .context then modify fun c => { c with code := c.code.set offset w }
  else throw .rejected

def invalidArg {α : Type} : AccM α := throw (.compile "invalid fn arg")

def internalError {α : Type} : AccM α := throw (.compile "internal compiler error")

def lateArg {α : Type} : AccM α :=
  throw (.compile "non-optional arg found after optional args")

/-- `(isa v 'sym)` of something that is not nil. -/
def isSym : Value → Bool
  | .symbol _ => true
  | .tru => true
  | _ => false

/-- The car of something that `let` takes apart. -/
def dcar : Value → AccM Value
  | .nil | .unbound => pure .unbound
  | .cons a _ => pure a
  | _ => throw .rejected

def dcdr : Value → AccM Value
  | .nil | .unbound => pure .unbound
  | .cons _ d => pure d
  | _ => throw .rejected

section Destructure

variable (acc : AccFn)

/-- The optional argument of a pattern, after its `o`. -/
def accDestructureOptional (d : Value) (env ctx nenv : Arg) (dsbidx dsbargc : Nat) :
    AccM (Nat × Nat × Arg) := do
  let name ← dcar d
  let default ← dcar (← dcdr d)
  let jumpaddr ← accCodeptr ctx
  accGen ctx .ijbnd [0]
  acc default nenv env
  accGen ctx .iste0 [dsbidx]
  accPatch ctx (jumpaddr + 1) (.arg ((← accCodeptr ctx) - jumpaddr))
  pure (dsbidx + 1, dsbargc + 1, .bind name (.num dsbidx) nenv)

/-- The next slot, the number of slots so far, and the names. -/
def accDestructure (env ctx : Arg) : Value → Arg → Nat → Nat → Bool → AccM (Nat × Nat × Arg)
  | .nil, _, _, _, _ => internalError
  | .cons a d, nenv, dsbidx, dsbargc, optflag =>
    if optflag ∧ a = .symbol .sO then accDestructureOptional acc d env ctx nenv dsbidx dsbargc
    else if a ≠ .nil ∧ d ≠ .nil then do
      accGen ctx .ipush []
      accGen ctx .idcar []
      let (ndsbidx, ndsbargc, nnenv) ← accDestructure env ctx a nenv dsbidx dsbargc true
      accGen ctx .ipop []
      accGen ctx .idcdr []
      accDestructure env ctx d nnenv ndsbidx ndsbargc false
    else if a ≠ .nil then do
      accGen ctx .idcar []
      accDestructure env ctx a nenv dsbidx dsbargc true
    else if d ≠ .nil then do
      accGen ctx .idcdr []
      accDestructure env ctx d nenv dsbidx dsbargc false
    else internalError
  | v, nenv, dsbidx, dsbargc, _ =>
    if isSym v then do
      accGen ctx .iste0 [dsbidx]
      pure (dsbidx + 1, dsbargc + 1, .bind v (.num dsbidx) nenv)
    else invalidArg

/-- `acc-dsbind`, up to the arguments that follow: the number of slots, and the
names. -/
def accDsbind (dsarg : Value) (env ctx nenv dsbidx : Arg) (idx dsbargc : Nat) :
    AccM (Nat × Arg) := do
  accGen ctx .ilde0 [idx]
  match dsbidx with
  | .num dsbidx => do
    let (_, ndsbargc, nenv) ← accDestructure acc env ctx dsarg nenv dsbidx dsbargc false
    pure (ndsbargc, nenv)
  | _ => throw .rejected

/-- An optional argument, after its `o`: its name. -/
def accOptional (d : Value) (env ctx nenv : Arg) (idx : Nat) : AccM Value := do
  let name ← dcar d
  let default ← dcar (← dcdr d)
  accGen ctx .ilde0 [idx]
  let jumpaddr ← accCodeptr ctx
  accGen ctx .ijbnd [0]
  acc default nenv env
  accGen ctx .iste0 [idx]
  accPatch ctx (jumpaddr + 1) (.arg ((← accCodeptr ctx) - jumpaddr))
  pure name

/-- What `acc-processargs` returns. -/
structure Processed where
  nenv : Arg
  regargc : Nat
  dsbargc : Nat
  optargc : Nat
  restarg : Bool

def accProcessargs : Value → Arg → Arg → Arg → Arg → Nat → Nat → Nat → Nat → AccM Processed
  | .nil, _, _, _, nenv, _, regargc, dsbargc, optargc =>
    pure ⟨nenv, regargc, dsbargc, optargc, false⟩
  | .cons a rest, env, ctx, dsbidx, nenv, idx, regargc, dsbargc, optargc =>
    if a = .nil then
      -- the call leaves `env` out, so every argument stands for the one before it
      accProcessargs rest ctx dsbidx nenv (.num (idx + 1)) (regargc + 1) dsbargc optargc 0
    else if isSym a then
      if optargc = 0 then
        accProcessargs rest env ctx dsbidx (.bind a (.num idx) nenv) (idx + 1) (regargc + 1)
          dsbargc optargc
      else lateArg
    else match a with
      | .cons (.symbol .sO) d => do
        let name ← accOptional acc d env ctx nenv idx
        accProcessargs rest env ctx dsbidx (.bind name (.num idx) nenv) (idx + 1) regargc
          dsbargc (optargc + 1)
      | .cons _ _ =>
        if optargc = 0 then do
          let (ndsbargc, nenv) ← accDsbind acc a env ctx nenv dsbidx idx dsbargc
          accProcessargs rest env ctx dsbidx nenv idx regargc ndsbargc optargc
        else lateArg
      | _ => throw .rejected
  | v, _, _, dsbidx, nenv, _, regargc, dsbargc, optargc =>
    if isSym v then pure ⟨.bind v dsbidx nenv, regargc, dsbargc, optargc, true⟩
    else throw .rejected

/-- The number of conses in a list of arguments. -/
def conses : Value → Nat
  | .cons _ d => conses d + 1
  | _ => 0

/-- The innermost frame of the new environment, if there is one. -/
def accArgs (args : Value) : AccM (Option Arg) :=
  match args with
  | .nil => pure none
  | .cons a d => do
    let envaddr ← accCodeptr .context
    accGen .context .ienv [0, 0, 0]
    let p ← accProcessargs acc (.cons a d) .outer .context (.num (conses (.cons a d))) .nil 0 0 0 0
    accPatch .context (envaddr + 1) (.arg p.regargc)
    accPatch .context (envaddr + 2) (.arg p.dsbargc)
    accPatch .context (envaddr + 3) (.arg p.optargc)
    if p.restarg then accPatch .context envaddr (.op .ienvr)
    pure (some p.nenv)
  | v =>
    if isSym v then do
      accGen .context .ienvr [0, 0, 0]
      pure (some (.bind v (.num 0) .nil))
    else invalidArg

end Destructure

/-- The slot recorded for a name. -/
def slotOf (name : Value) : Arg → Option Arg
  | .bind n slot rest => if n = name then some slot else slotOf name rest
  | _ => none

end Arcueid.Acc
