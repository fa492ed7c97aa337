import Arcueid.Compiler
import Arcueid.Lib.Tour

/-! The parts of an expression that the compiler goes into, in its order, and
the malformed parts that it comes to. Contexts and environments are left out:
no step depends on them. `w` is what macros are looked up in. -/

namespace Arcueid

/-- An error that is raised, an access to something other than a cons, or the
call of a macro, after which nothing is known. -/
inductive Fault where
  | raised
  | badAccess
  | macroCall
  deriving DecidableEq

def CompileError.fault : CompileError → Option Fault
  | .err _ => some .raised
  | .badAccess => some .badAccess
  | .outOfFuel => none

abbrev Parts := Tour Value Fault

def isList : Value → Bool
  | .nil => true
  | .cons _ d => isList d
  | _ => false

/-- What the macro `and` of `arc.arc` makes of its arguments. -/
def andExpansion : Value → Value
  | .cons a .nil => a
  | .cons a d => .cons (.symbol .sIf) (.cons a (.cons (.cons (.symbol .sAnd) d) .nil))
  | _ => .tru

namespace Parts

def part (e : Value) : Parts Unit := .visit e (.ok ())

def raise {α : Type} : Parts α := .fail .raised

def access {α : Type} : Parts α := .fail .badAccess

def car : Value → Parts Value
  | .cons a _ => pure a
  | _ => access

def cdr : Value → Parts Value
  | .cons _ d => pure d
  | _ => access

def ofIf : Value → Parts Unit
  | .nil => pure ()
  | .cons e .nil => part e
  | .cons e (.cons thn els) => do
    part e
    part thn
    ofIf els
  | .cons e _ => do
    part e
    access
  | _ => access

def ofOargdef (rest : Value) : Parts Value := if rest = .nil then pure .nil else car rest

/-- An optional argument, after its `o`. -/
def ofOptional (d : Value) : Parts Unit := do
  let oargname ← car d
  if isSymbol oargname then do
    let oargdef ← ofOargdef (← cdr d)
    part oargdef
  else raise

def ofIsOptional (a d : Value) (optional : Bool) : Parts Bool :=
  if optional ∧ a = .symbol .sO ∧ d ≠ .nil then do
    let oargname ← car d
    pure (decide (oargname ≠ .nil))
  else pure false

def ofDestructure : Value → Bool → Parts Unit
  | .symbol _, _ => pure ()
  | .cons a d, optional => do
    if ← ofIsOptional a d optional then ofOptional d
    else if a ≠ .nil ∧ d ≠ .nil then do
      ofDestructure a true
      ofDestructure d false
    else if a ≠ .nil then ofDestructure a true
    else if d ≠ .nil then ofDestructure d false
    else pure ()
  | _, _ => raise

/-- Whether optional arguments have begun, and the patterns that were put off. -/
abbrev ArgsSoFar := Bool × List Value

def ofArg (arg : Value) (l : ArgsSoFar) : Parts ArgsSoFar :=
  match arg with
  | .symbol _ => if l.1 then raise else pure l
  | .cons (.symbol .sO) d => do
    ofOptional d
    pure (true, l.2)
  | .cons _ _ => pure (l.1, arg :: l.2)
  | .nil => pure l
  | _ => raise

def ofArgsFrom : Value → ArgsSoFar → Parts ArgsSoFar
  | .cons arg rest, l => do
    let l ← ofArg arg l
    match rest with
    | .symbol _ => pure l
    | .nil => pure l
    | rest => ofArgsFrom rest l
  | _, _ => access

def ofDsb : List Value → Parts Unit
  | [] => pure ()
  | arg :: dsb => do
    ofDestructure arg false
    ofDsb dsb

def ofArgs (args : Value) : Parts Unit :=
  match args with
  | .nil => pure ()
  | .symbol _ => pure ()
  | .cons _ _ => do
    let l ← ofArgsFrom args (false, [])
    ofDsb l.2
  | _ => raise

def ofBody : Value → Parts Unit
  | .nil => pure ()
  | .cons e rest => do
    part e
    ofBody rest
  | _ => access

def ofFn (expr : Value) : Parts Unit := do
  let args ← car expr
  let body ← cdr expr
  ofArgs args
  ofBody body

def ofQuote (expr : Value) : Parts Unit := do
  let _ ← car expr
  pure ()

/-- The operands of an inlined function; their number. -/
def ofOperands : Value → Nat → Parts Nat
  | .nil, count => pure count
  | .cons e rest, count => do
    part e
    ofOperands rest (count + 1)
  | _, _ => access

def ofInlineFunc (nargs : Nat) (expr : Value) : Parts Unit := do
  let count ← ofOperands (← cdr expr) 0
  if count = nargs then pure () else raise

def ofInlinen (expr base : Value) : Parts Unit := do
  part base
  let _ ← ofOperands (← cdr expr) 0
  pure ()

def ofInlinen2 (expr base : Value) : Parts Unit := do
  let xexpr ← cdr expr
  match arcListLength xexpr with
  | 0 => raise
  | 1 => ofInlinen expr base
  | _ => do ofInlinen (.cons (← car expr) (← cdr xexpr)) (← car xexpr)

def ofPlus (expr : Value) : Parts Unit := do
  let xexpr ← cdr expr
  match arcListLength xexpr with
  | 0 => part (int2fix 0)
  | 1 => do part (← car xexpr)
  | _ => ofInlinen2 expr (int2fix 0)

def ofInlineFuncOf : Value → Option (Value → Parts Unit)
  | .symbol .sCons => some (ofInlineFunc 2)
  | .symbol .sCar => some (ofInlineFunc 1)
  | .symbol .sCdr => some (ofInlineFunc 1)
  | .symbol .sPlus => some ofPlus
  | .symbol .sTimes => some fun expr => ofInlinen expr (int2fix 1)
  | .symbol .sMinus => some fun expr => ofInlinen2 expr (int2fix 0)
  | .symbol .sDiv => some fun expr => ofInlinen2 expr (int2fix 1)
  | _ => none

def ofFold (expr final : Value) : Parts Value :=
  match expr with
  | .cons f .nil => pure (.cons f final)
  | .cons f rest => do pure (.cons f (.cons (← ofFold rest final) .nil))
  | _ => access

def ofCompose (expr : Value) : Parts Unit := do
  let composer ← cdr (← car expr)
  let cargs ← cdr expr
  part (← ofFold composer cargs)

def ofComplement (expr : Value) : Parts Unit := do
  let complemented ← cdr (← car expr)
  let cargs ← cdr expr
  if (← cdr complemented) ≠ .nil then raise
  else do
    let complemented ← car complemented
    part (.cons (.symbol .sNo) (.cons (.cons complemented cargs) .nil))

def ofApplyArgs : Value → Parts Unit
  | .nil => pure ()
  | .cons e rest => do
    part e
    ofApplyArgs rest
  | _ => access

section Host

variable {W : Type} (host : Host W) (w : W)

/-- Whether an operator is bound to a macro. -/
def isMacro : Value → Bool
  | .symbol op => (host.ismacro w op).isSome
  | _ => false

def ofMacex : Value → Parts Value
  | .cons op args => if isMacro host w op then .fail .macroCall else pure (.cons op args)
  | e => pure e

def ofAssign : Value → Parts Unit
  | .nil => pure ()
  | .cons place (.cons val rest) => do
    let a ← ofMacex host w place
    if a = .nil ∨ a = .symbol .sT then raise
    else do
      part val
      ofAssign rest
  | .cons place _ => do
    let _ ← ofMacex host w place
    access
  | _ => access

/-- The macro `and` is known, given a list. -/
def ofMacro (fname args : Value) : Parts Unit :=
  if fname = .symbol .sAnd ∧ isList args = true then part (andExpansion args)
  else .fail .macroCall

def ofApply (expr : Value) : Parts Unit := do
  let fname ← car expr
  let args ← cdr expr
  if isMacro host w fname then ofMacro fname args
  else do
    ofApplyArgs args
    part fname

def ofAndfUniqs : Value → Value → Parts Value
  | .nil, uniqs => pure uniqs
  | .cons _ rest, uniqs =>
    .fresh fun n => ofAndfUniqs rest (.cons (.symbol (host.intern s!"g{n}")) uniqs)
  | _, _ => access

def ofAndfBody (uniqs : Value) : Value → Value → Parts Value
  | .nil, body => pure body
  | .cons f rest, body => ofAndfBody uniqs rest (.cons (.cons f uniqs) body)
  | _, _ => access

def ofReverseOnto : Value → Value → Parts Value
  | .nil, acc => pure acc
  | .cons a d, acc => ofReverseOnto d (.cons a acc)
  | _, _ => access

def ofAndf (expr : Value) : Parts Unit := do
  let andargs ← cdr expr
  let uniqs ← ofAndfUniqs host andargs .nil
  let body ← ofAndfBody uniqs (← cdr (← car expr)) .nil
  let body ← ofReverseOnto body .nil
  let body := Value.cons (.cons (.symbol .sAnd) body) .nil
  part (.cons (.cons (.symbol .sFn) (.cons uniqs body)) andargs)

def ofSsexpand : Value → Parts Value
  | .symbol s =>
    match host.ssexpand s with
    | .ok v => pure v
    | .error (.err _) => raise
    | .error _ => access
  | _ => pure .nil

def ofExpandList : Value → Parts Value
  | .nil => pure .nil
  | .cons x xs => do
    let result ← ofSsexpand host x
    let x := if result = .nil then x else result
    pure (.cons x (← ofExpandList xs))
  | _ => access

def ofCall (expr : Value) : Parts Unit := do
  let op ← car expr
  match ofInlineFuncOf op with
  | some inline => inline expr
  | none =>
    match op with
    | .cons (.symbol .sCompose) _ => ofCompose expr
    | .cons (.symbol .sComplement) _ => ofComplement expr
    | .cons (.symbol .sAndf) _ => ofAndf host expr
    | _ => ofApply host w expr

def ofList (op rest : Value) : Parts Unit :=
  match op with
  | .symbol .sIf => ofIf rest
  | .symbol .sFn => ofFn rest
  | .symbol .sQuote => ofQuote rest
  | .symbol .sAssign => ofAssign host w rest
  | _ => do ofCall host w (← ofExpandList host (.cons op rest))

/-- The parts of an expression. -/
def ofExpr (expr : Value) : Parts Unit :=
  if literalP expr then pure ()
  else match expr with
    | .symbol _ => do
      let ssx ← ofSsexpand host expr
      if ssx = .nil then pure () else part ssx
    | .cons op rest => ofList host w op rest
    | _ => raise

end Host

end Parts

end Arcueid
