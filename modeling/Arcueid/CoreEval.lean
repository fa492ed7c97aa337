import Arcueid.RenamingCompiled

/-! The core of the language: literals, `quote`, names, `if`, `fn` with required
parameters, `assign` and application. What its expressions come to, with the
variables in a store of frames. -/

namespace Arcueid.Core

/-- The names of a frame, and where its values are. -/
structure Rib where
  names : List Sym
  frame : Nat
  deriving DecidableEq

/-- The innermost frame comes first. -/
abbrev Env := List Rib

inductive CoreVal where
  | data (v : Value)
  | clos (params body : Value) (env : Env)
  deriving DecidableEq

structure Store where
  frames : List (List CoreVal)
  globals : Sym → CoreVal

section Variables

/-- The last of several parameters of one name is meant. -/
def indexFrom (s : Sym) : Nat → List Sym → Option Nat
  | _, [] => none
  | i, x :: xs => (indexFrom s (i + 1) xs).or (if x = s then some i else none)

/-- How many frames out, and which of its variables. -/
def position (s : Sym) : Env → Option (Nat × Nat)
  | [] => none
  | sc :: env =>
    match indexFrom s 0 sc.names with
    | some i => some (0, i)
    | none => (position s env).map fun p => (p.1 + 1, p.2)

/-- The values of a frame of the environment. -/
def Store.frameAt (σ : Store) (env : Env) (level : Nat) : Option (Nat × List CoreVal) := do
  let sc ← env[level]?
  return (sc.frame, ← σ.frames[sc.frame]?)

def Store.read (σ : Store) (env : Env) (s : Sym) : Option CoreVal :=
  match position s env with
  | some (level, i) => do (← σ.frameAt env level).2[i]?
  | none => if σ.globals s = .data .unbound then none else some (σ.globals s)

def Store.write (σ : Store) (env : Env) (s : Sym) (v : CoreVal) : Option Store :=
  match position s env with
  | some (level, i) => do
    let (f, vals) ← σ.frameAt env level
    if i < vals.length then some { σ with frames := σ.frames.set f (vals.set i v) } else none
  | none => some { σ with globals := Function.update σ.globals s v }

end Variables

/-- The names of a list of required parameters. -/
def paramNames : Value → Option (List Sym)
  | .nil => some []
  | .cons (.symbol s) rest => (paramNames rest).map (s :: ·)
  | _ => none

section Evaluation

abbrev EvalFn := Value → Env → Store → Option (CoreVal × Store)

variable (ev : EvalFn)

def evalIf : Value → Env → Store → Option (CoreVal × Store)
  | .nil, _, σ => some (.data .nil, σ)
  | .cons e .nil, env, σ => ev e env σ
  | .cons e (.cons thn els), env, σ => do
    let (v, σ) ← ev e env σ
    if v = .data .nil then evalIf els env σ else ev thn env σ
  | _, _, _ => none

/-- From left to right. -/
def evalArgs : Value → Env → Store → Option (List CoreVal × Store)
  | .nil, _, σ => some ([], σ)
  | .cons e rest, env, σ => do
    let (v, σ) ← ev e env σ
    let (vs, σ) ← evalArgs rest env σ
    some (v :: vs, σ)
  | _, _, _ => none

def evalAssign : Value → Env → Store → Option (CoreVal × Store)
  | .cons (.symbol s) (.cons e rest), env, σ => do
    let (v, σ) ← ev e env σ
    let σ ← σ.write env s v
    if rest = .nil then some (v, σ) else evalAssign rest env σ
  | _, _, _ => none

def evalBody : Value → Env → Store → Option (CoreVal × Store)
  | .nil, _, σ => some (.data .nil, σ)
  | .cons e rest, env, σ => do
    let (v, σ) ← ev e env σ
    if rest = .nil then some (v, σ) else evalBody rest env σ
  | _, _, _ => none

def dataOf : List CoreVal → Option (List Value)
  | [] => some []
  | .data v :: vs => (dataOf vs).map (v :: ·)
  | _ => none

/-- A closure gets a frame for its parameters, if it has any. Functions in C are given
by what they return. -/
def apply (prim : Nat → List Value → Option Value) (σ : Store) (args : List CoreVal) :
    CoreVal → Option (CoreVal × Store)
  | .clos params body env => do
    let names ← paramNames params
    if args.length ≠ names.length then none
    else if names = [] then evalBody ev body env σ
    else evalBody ev body (⟨names, σ.frames.length⟩ :: env) { σ with frames := σ.frames ++ [args] }
  | .data (.ccode n _) => do
    let r ← prim n (← dataOf args)
    some (.data r, σ)
  | .data _ => none

end Evaluation

/-- What stands for a literal. -/
def literal : Value → Value
  | .symbol .sNil => .nil
  | .symbol .sT => .tru
  | v => v

def eval (prim : Nat → List Value → Option Value) : Nat → EvalFn
  | 0, _, _, _ => none
  | fuel + 1, e, env, σ =>
    if literalP e then some (.data (literal e), σ)
    else match e with
      | .symbol s => (σ.read env s).map fun v => (v, σ)
      | .cons (.symbol .sQuote) (.cons v _) => some (.data (literal v), σ)
      | .cons (.symbol .sIf) clauses => evalIf (eval prim fuel) clauses env σ
      | .cons (.symbol .sFn) (.cons params body) => some (.clos params body env, σ)
      | .cons (.symbol .sAssign) places => evalAssign (eval prim fuel) places env σ
      | .cons op args => do
        let (vs, σ) ← evalArgs (eval prim fuel) args env σ
        let (f, σ) ← eval prim fuel op env σ
        apply (eval prim fuel) prim σ vs f
      | _ => none

section Language

variable {W : Type} (host : Host W) (w : W)

/-- What a list is, as a part of an expression. -/
inductive Role where
  | expr | clauses | args | places | body

/-- An operator that the compiler makes a call of. -/
def Called : Value → Prop
  | .symbol s => Scope.isSpecial s = false ∧
      Scope.isInlined s = false ∧ host.ismacro w s = none
  | .cons o _ => Scope.isFunctional o = false
  | _ => True

/-- Expressions of the core: none of their names has special syntax, and none of their
operators is a macro or one that is inlined. -/
inductive IsCore : Role → Value → Prop
  | literal {e : Value} : literalP e = true → (∀ s, e = .symbol s → host.ssexpand s = .ok .nil) →
      IsCore .expr e
  | name {s : Sym} : literalP (.symbol s) = false → host.ssexpand s = .ok .nil → IsCore .expr (.symbol s)
  | quote {v rest : Value} : IsCore .expr (.cons (.symbol .sQuote) (.cons v rest))
  | cond {clauses : Value} : IsCore .clauses clauses → IsCore .expr (.cons (.symbol .sIf) clauses)
  | fn {params body : Value} {names : List Sym} : paramNames params = some names → IsCore .body body →
      IsCore .expr (.cons (.symbol .sFn) (.cons params body))
  | assign {places : Value} : places ≠ .nil → IsCore .places places →
      IsCore .expr (.cons (.symbol .sAssign) places)
  | call {op args : Value} : Called host w op → IsCore .expr op → IsCore .args args →
      IsCore .expr (.cons op args)
  | noClause : IsCore .clauses .nil
  | lastClause {e : Value} : IsCore .expr e → IsCore .clauses (.cons e .nil)
  | clause {e thn els : Value} : IsCore .expr e → IsCore .expr thn → IsCore .clauses els →
      IsCore .clauses (.cons e (.cons thn els))
  | noArg : IsCore .args .nil
  | arg {e rest : Value} : IsCore .expr e → IsCore .args rest → IsCore .args (.cons e rest)
  | noPlace : IsCore .places .nil
  | place {s : Sym} {e rest : Value} : literalP (.symbol s) = false → IsCore .expr e → IsCore .places rest →
      IsCore .places (.cons (.symbol s) (.cons e rest))
  | noBody : IsCore .body .nil
  | body {e rest : Value} : IsCore .expr e → IsCore .body rest → IsCore .body (.cons e rest)

end Language

end Arcueid.Core
