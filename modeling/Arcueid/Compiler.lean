import Arcueid.Codegen

/-! The compiler (`compiler.c`). Functions that compile subexpressions take
`arc_compile` as their first argument; only `arcCompile` counts steps. The
expander of special syntax, macros and the interning of symbols belong to the
running system and are parameters. -/

namespace Arcueid

inductive CompileError where
  /-- An error raised with a message. -/
  | err (msg : String)
  /-- The car or the cdr of something other than a cons is taken. -/
  | badAccess
  | outOfFuel
  deriving DecidableEq

/-- What running code may change: the counter of `arc_uniq`, and all else. -/
structure Globals (W : Type) where
  uniqnum : Nat
  world : W

/-- The code objects made so far, and the globals. -/
structure State (W : Type) where
  codes : List Code
  globals : Globals W

abbrev Comp (W : Type) := StateT (State W) (Except CompileError)

structure Host (W : Type) where
  ssexpand : Sym → Except CompileError Value
  /-- The macro a symbol is bound to. -/
  ismacro : W → Sym → Option (Value → Globals W → Except CompileError (Value × Globals W))
  intern : String → Sym
  /-- Whether two conses with the same parts are the same object. -/
  sameCons : Value → Value → Bool
  /-- What `FIX2INT` makes of a symbol. -/
  symbolWord : Sym → Nat

/-- A frame of the compile-time environment: names to indices and back. -/
abbrev EnvFrame := List (Value × Value)

abbrev CEnv := List EnvFrame

abbrev CompileFn (W : Type) := Value → Cctx → CEnv → Bool → Comp W Cctx

section Lists

variable {W : Type}

def car : Value → Comp W Value
  | .cons a _ => pure a
  | _ => throw .badAccess

def cdr : Value → Comp W Value
  | .cons _ d => pure d
  | _ => throw .badAccess

def cadr (v : Value) : Comp W Value := do car (← cdr v)

def isSymbol : Value → Bool
  | .symbol _ => true
  | _ => false

def arcListLength : Value → Nat
  | .cons _ d => arcListLength d + 1
  | .nil => 0
  | _ => 1

def listReverseOnto : Value → Value → Comp W Value
  | .nil, acc => pure acc
  | .cons a d, acc => listReverseOnto d (.cons a acc)
  | _, _ => throw .badAccess

def arcListReverse (xs : Value) : Comp W Value := listReverseOnto xs .nil

end Lists

/-- Equality of literals: conses are only equal to themselves. -/
def arcIs2 {W : Type} (host : Host W) (a b : Value) : Bool :=
  decide (a = b) && match a with
    | .cons _ _ => host.sameCons a b
    | _ => true

def compileContinuation (ctx : Cctx) (cont : Bool) : Cctx :=
  if cont then arcEmit ctx .iret else ctx

section Names

variable {W : Type} (host : Host W)

/-- The index of a literal, which is added if it is not found. -/
def findLiteral (ctx : Cctx) (lit : Value) : Cctx × Nat :=
  match ctx.lits.findIdx? fun l => arcIs2 host l lit with
  | some i => (ctx, i)
  | none => arcLiteral ctx lit

/-- A literal is found among those made, never past them. -/
theorem findLiteral_found (ctx : Cctx) {lit : Value} (hlit : lit ≠ .nil) :
    (findLiteral host ctx lit).1.code = ctx.code ∧
      ctx.literals <+: (findLiteral host ctx lit).1.literals ∧
      (findLiteral host ctx lit).1.literals[(findLiteral host ctx lit).2]? = some lit := by
  unfold findLiteral
  split
  · next i hi =>
    obtain ⟨hlt, hsame, -⟩ := List.findIdx?_eq_some_iff_getElem.mp hi
    have heq : ctx.lits[i] = lit := by
      simp only [arcIs2, Bool.and_eq_true, decide_eq_true_eq] at hsame
      exact hsame.1
    have hused : i < ctx.lptr := by
      by_contra hge
      have hmem : lit ∈ ctx.lits.drop ctx.lptr := by
        rw [← heq, List.mem_drop_iff_getElem]
        exact ⟨i - ctx.lptr, by omega, by simp [Nat.add_sub_cancel' (Nat.le_of_not_lt hge)]⟩
      exact hlit (ctx.lits_unused lit hmem)
    refine ⟨rfl, List.prefix_rfl, ?_⟩
    rw [Cctx.literals, List.getElem?_take_of_lt hused, List.getElem?_eq_getElem hlt, heq]
  · refine ⟨rfl, ?_, ?_⟩
    · rw [arcLiteral_literals]
      exact List.prefix_append _ _
    · rw [arcLiteral_literals]
      change (ctx.literals ++ [lit])[ctx.lptr]? = some lit
      rw [← ctx.literals_length]
      simp

def compileLiteral (lit : Value) (ctx : Cctx) (cont : Bool) : Cctx :=
  let ctx := match lit with
    | .symbol .sNil | .nil => arcEmit ctx .inil
    | .symbol .sT | .tru => arcEmit ctx .itrue
    | .fixnum _ => arcEmit1 ctx .ildi lit
    | _ =>
      let (ctx, i) := findLiteral host ctx lit
      arcEmit1 ctx .ildl (int2fix i)
  compileContinuation ctx cont

/-- The index found under a name. The frame also holds the names under the
indices, and `FIX2INT` is applied to what is found. -/
def frameIndex : Value → Nat
  | .fixnum n => n.toNat
  | .symbol s => host.symbolWord s
  | _ => 0

/-- The frame and the index of a variable. -/
def findVar (var : Value) : CEnv → Option (Nat × Nat)
  | [] => none
  | frame :: env =>
    match frame.lookup var with
    | some vidx => some (0, frameIndex host vidx)
    | none => (findVar var env).map fun p => (p.1 + 1, p.2)

def compileIdent (ident : Value) (ctx : Cctx) (env : CEnv) (cont : Bool) : Cctx :=
  let ctx := match findVar host ident env with
    | some (0, offset) => arcEmit1 ctx .ilde0 (int2fix offset)
    | some (level, offset) => arcEmit2 ctx .ilde (int2fix level) (int2fix offset)
    | none =>
      let (ctx, i) := findLiteral host ctx ident
      arcEmit1 ctx .ildg (int2fix i)
  compileContinuation ctx cont

end Names

/-- Add a name to the innermost frame. -/
def addEnvName (env : CEnv) (name : Value) (idx : Nat) : CEnv :=
  match env with
  | [] => []
  | frame :: env => ((int2fix idx, name) :: (name, int2fix idx) :: frame) :: env

section Forms

variable {W : Type} (host : Host W) (compile : CompileFn W)

def compileIf : Value → Cctx → CEnv → Bool → Comp W Cctx
  | .nil, ctx, _, cont => pure (compileContinuation (arcEmit ctx .inil) cont)
  | .cons e .nil, ctx, env, cont => compile e ctx env cont
  | .cons e (.cons thn els), ctx, env, cont => do
    let ctx ← compile e ctx env false
    let jumpaddr := ctx.vcptr
    let ctx := arcEmit1 ctx .ijf (int2fix 0)
    let ctx ← compile thn ctx env false
    let jumpaddr2 := ctx.vcptr
    let ctx := arcEmit1 ctx .ijmp (int2fix 0)
    let ctx := arcJmpoffset ctx jumpaddr ctx.vcptr
    let ctx ← compileIf els ctx env cont
    let ctx := arcJmpoffset ctx jumpaddr2 ctx.vcptr
    pure (compileContinuation ctx cont)
  | .cons e _, ctx, env, _ => do
    let _ ← compile e ctx env false
    throw .badAccess
  | _, _, _, _ => throw .badAccess

/-- The default of an optional argument, given what follows its name. -/
def oargdef (rest : Value) : Comp W Value := if rest = .nil then pure .nil else car rest

/-- Whether a cons in a destructured pattern is an optional argument. -/
def isOptional (a d : Value) (optional : Bool) : Comp W Bool :=
  if optional ∧ a = .symbol .sO ∧ d ≠ .nil then do
    let oargname ← car d
    pure (decide (oargname ≠ .nil))
  else pure false

/-- Code for a name of a destructured pattern: the context, the environment
with the name, and the next index. -/
def destructureSymbol (arg : Value) (ctx : Cctx) (env : CEnv) (idx : Nat) :
    Cctx × CEnv × Nat :=
  let jumpaddr := ctx.vcptr
  let ctx := arcEmit1 ctx .ijbnd (int2fix 0)
  let ctx := arcEmit ctx .inil
  let ctx := arcJmpoffset ctx jumpaddr ctx.vcptr
  let ctx := arcEmit1 ctx .iste0 (int2fix idx)
  (ctx, addEnvName env arg idx, idx + 1)

/-- Code for an optional argument inside a destructured pattern. -/
def destructureOptional (d : Value) (ctx : Cctx) (env : CEnv) (idx : Nat) :
    Comp W (Cctx × CEnv × Nat) := do
  let oargname ← car d
  if isSymbol oargname then do
    let oargdef ← oargdef (← cdr d)
    let jumpaddr := ctx.vcptr
    let ctx := arcEmit1 ctx .ijbnd (int2fix 0)
    let ctx ← compile oargdef ctx env false
    let ctx := arcJmpoffset ctx jumpaddr ctx.vcptr
    let ctx := arcEmit1 ctx .iste0 (int2fix idx)
    pure (ctx, addEnvName env oargname idx, idx + 1)
  else throw (.err "optional arg is not an identifier")

def destructure : Value → Cctx → CEnv → Nat → Bool → Comp W (Cctx × CEnv × Nat)
  | .symbol s, ctx, env, idx, _ => pure (destructureSymbol (.symbol s) ctx env idx)
  | .cons a d, ctx, env, idx, optional => do
    if ← isOptional a d optional then destructureOptional compile d ctx env idx
    else if a ≠ .nil ∧ d ≠ .nil then do
      let ctx := arcEmit ctx .ipush
      let ctx := arcEmit ctx .idcar
      let (ctx, env, idx) ← destructure a ctx env idx true
      let ctx := arcEmit ctx .ipop
      let ctx := arcEmit ctx .idcdr
      destructure d ctx env idx false
    else if a ≠ .nil then destructure a (arcEmit ctx .idcar) env idx true
    else if d ≠ .nil then destructure d (arcEmit ctx .idcdr) env idx false
    else pure (ctx, env, idx)
  | _, _, _, _, _ => throw (.err "invalid fn arg")

/-- The variables of the loop of `compile_args`. -/
structure ArgLoop where
  ctx : Cctx
  env : CEnv
  regargs : Nat
  optargs : Nat
  idx : Nat
  optargbegin : Bool
  dsb : List (Value × Nat)

/-- One optional argument `(o name default)`, given what follows the `o`. -/
def compileOptional (d : Value) (l : ArgLoop) : Comp W ArgLoop := do
  let oargname ← car d
  if isSymbol oargname then do
    let oargdef ← oargdef (← cdr d)
    let ctx := arcEmit1 l.ctx .ilde0 (int2fix l.idx)
    let jumpaddr := ctx.vcptr
    let ctx := arcEmit1 ctx .ijbnd (int2fix 0)
    let ctx ← compile oargdef ctx l.env false
    let ctx := arcEmit1 ctx .iste0 (int2fix l.idx)
    let ctx := arcJmpoffset ctx jumpaddr ctx.vcptr
    pure { l with
      ctx := ctx
      env := addEnvName l.env oargname l.idx
      idx := l.idx + 1
      optargs := l.optargs + 1
      optargbegin := true }
  else throw (.err "optional arg is not an identifier")

/-- One argument. -/
def compileArg (arg : Value) (l : ArgLoop) : Comp W ArgLoop :=
  match arg with
  | .symbol s =>
    if l.optargbegin then throw (.err "non-optional arg found after optional args")
    else pure { l with
      env := addEnvName l.env (.symbol s) l.idx
      idx := l.idx + 1
      regargs := l.regargs + 1 }
  | .cons (.symbol .sO) d => compileOptional compile d l
  | .cons _ _ => pure { l with
      dsb := (arg, l.idx) :: l.dsb
      idx := l.idx + 1
      regargs := l.regargs + 1 }
  | .nil => pure { l with idx := l.idx + 1, regargs := l.regargs + 1 }
  | _ => throw (.err "invalid fn arg")

/-- The loop over the arguments. A rest argument changes the instruction at
`envptr`. -/
def compileArgsFrom (envptr : Nat) : Value → ArgLoop → Comp W ArgLoop
  | .cons arg rest, l => do
    let l ← compileArg compile arg l
    match rest with
    | .symbol s => pure { l with
        ctx := l.ctx.setVcode envptr (int2fix Inst.ienvr.opcode)
        env := addEnvName l.env (.symbol s) l.idx
        idx := l.idx + 1 }
    | .nil => pure l
    | rest => compileArgsFrom envptr rest l
  | _, _ => throw .badAccess

/-- The destructuring binds that were put off. -/
def compileDsb : List (Value × Nat) → Cctx → CEnv → Nat → Comp W (Cctx × CEnv × Nat)
  | [], ctx, env, idx => pure (ctx, env, idx)
  | (arg, argidx) :: dsb, ctx, env, idx => do
    let ctx := arcEmit1 ctx .ilde0 (int2fix argidx)
    let (ctx, env, idx) ← destructure compile arg ctx env idx false
    compileDsb dsb ctx env idx

/-- Store the counts of arguments in the environment instruction. -/
def patchEnv (ctx : Cctx) (envptr regargs dsbargs optargs : Nat) : Cctx :=
  ((ctx.setVcode (envptr + 1) (int2fix regargs)).setVcode (envptr + 2)
    (int2fix dsbargs)).setVcode (envptr + 3) (int2fix optargs)

def compileArgs (args : Value) (ctx : Cctx) (env : CEnv) : Comp W (Cctx × CEnv) :=
  match args with
  | .nil => pure (ctx, env)
  | .symbol s =>
    pure (arcEmit3 ctx .ienvr (int2fix 0) (int2fix 0) (int2fix 0),
      addEnvName ([] :: env) (.symbol s) 0)
  | .cons _ _ => do
    let envptr := ctx.vcptr
    let ctx := arcEmit3 ctx .ienv (int2fix 0) (int2fix 0) (int2fix 0)
    let l ← compileArgsFrom compile envptr args ⟨ctx, [] :: env, 0, 0, 0, false, []⟩
    let (ctx, env, idx) ← compileDsb compile l.dsb l.ctx l.env l.idx
    pure (patchEnv ctx envptr l.regargs (idx - l.idx) l.optargs, env)
  | _ => throw (.err "invalid fn arg")

/-- The body of a fn: the last statement is compiled with the continuation
flag set. -/
def compileBody : Value → Cctx → CEnv → Comp W Cctx
  | .nil, ctx, _ => pure ctx
  | .cons e rest, ctx, env => do
    let ctx ← compile e ctx env (decide (rest = .nil))
    compileBody rest ctx env
  | _, _, _ => throw .badAccess

/-- Make a code object of a context. -/
def mkCode (ctx : Cctx) : Comp W Value := fun s =>
  .ok (.code s.codes.length, { s with codes := s.codes ++ [arcCctx2code ctx] })

def compileFn (expr : Value) (ctx : Cctx) (env : CEnv) (cont : Bool) : Comp W Cctx := do
  let args ← car expr
  let body ← cdr expr
  let (nctx, nenv) ← compileArgs compile args arcMkcctx env
  let nctx ← compileBody compile body nctx nenv
  let nctx := if body = .nil then arcEmit (arcEmit nctx .inil) .iret else nctx
  let newcode ← mkCode nctx
  let (ctx, i) := findLiteral host ctx newcode
  let ctx := arcEmit1 ctx .ildl (int2fix i)
  let ctx := arcEmit ctx .icls
  pure (compileContinuation ctx cont)

def compileQuote (expr : Value) (ctx : Cctx) (cont : Bool) : Comp W Cctx := do
  pure (compileLiteral host (← car expr) ctx cont)

/-- Code that stores the value register in a variable or a global. -/
def assignTo (a : Value) (ctx : Cctx) (env : CEnv) : Cctx :=
  match findVar host a env with
  | some (0, idx) => arcEmit1 ctx .iste0 (int2fix idx)
  | some (frameno, idx) => arcEmit2 ctx .iste (int2fix frameno) (int2fix idx)
  | none =>
    let (ctx, i) := findLiteral host ctx a
    arcEmit1 ctx .istg (int2fix i)

/-- The loop over places and values. -/
def compileAssignFrom (macex : Value → Comp W Value) : Value → Cctx → CEnv → Comp W Cctx
  | .nil, ctx, _ => pure ctx
  | .cons place (.cons val rest), ctx, env => do
    let a ← macex place
    if a = .nil then throw (.err "can't rebind nil")
    else if a = .symbol .sT then throw (.err "Can't rebind t")
    else do
      let ctx ← compile val ctx env false
      compileAssignFrom macex rest (assignTo host a ctx env) env
  | .cons place _, _, _ => do
    let _ ← macex place
    throw .badAccess
  | _, _, _ => throw .badAccess

def compileAssign (macex : Value → Comp W Value) (expr : Value) (ctx : Cctx) (env : CEnv)
    (cont : Bool) : Comp W Cctx := do
  let ctx ← compileAssignFrom host compile macex expr ctx env
  pure (compileContinuation ctx cont)

/-- The arguments of an inlined function, all but the last pushed; the count. -/
def inlineArgs : Value → Cctx → CEnv → Nat → Comp W (Cctx × Nat)
  | .nil, ctx, _, count => pure (ctx, count)
  | .cons e rest, ctx, env, count => do
    let ctx ← compile e ctx env false
    let ctx := if rest = .nil then ctx else arcEmit ctx .ipush
    inlineArgs rest ctx env (count + 1)
  | _, _, _, _ => throw .badAccess

def inlineFunc (instr : Inst) (nargs : Nat) (expr : Value) (ctx : Cctx) (env : CEnv)
    (cont : Bool) : Comp W Cctx := do
  let (ctx, count) ← inlineArgs compile (← cdr expr) ctx env 0
  if count = nargs then pure (compileContinuation (arcEmit ctx instr) cont)
  else throw (.err s!"inline procedure expects {nargs} arguments ({count} passed)")

def inlineCons := inlineFunc compile .icons 2

def inlineCar := inlineFunc compile .icar 1

def inlineCdr := inlineFunc compile .icdr 1

/-- The operands of `compile_inlinen`. -/
def inlinenFrom (inst : Inst) : Value → Cctx → CEnv → Comp W Cctx
  | .nil, ctx, _ => pure ctx
  | .cons e rest, ctx, env => do
    let ctx := arcEmit ctx .ipush
    let ctx ← compile e ctx env false
    inlinenFrom inst rest (arcEmit ctx inst) env
  | _, _, _ => throw .badAccess

def compileInlinen (inst : Inst) (expr : Value) (ctx : Cctx) (env : CEnv) (cont : Bool)
    (base : Value) : Comp W Cctx := do
  let ctx ← compile base ctx env false
  let ctx ← inlinenFrom compile inst (← cdr expr) ctx env
  pure (compileContinuation ctx cont)

def compileInlinen2 (inst : Inst) (expr : Value) (ctx : Cctx) (env : CEnv) (cont : Bool)
    (base : Value) : Comp W Cctx := do
  let xexpr ← cdr expr
  match arcListLength xexpr with
  | 0 => throw (.err "operator requires at least one argument")
  | 1 => compileInlinen compile inst expr ctx env cont base
  | _ =>
    compileInlinen compile inst (.cons (← car expr) (← cdr xexpr)) ctx env cont (← car xexpr)

def inlinePlus (expr : Value) (ctx : Cctx) (env : CEnv) (cont : Bool) : Comp W Cctx := do
  let xexpr ← cdr expr
  match arcListLength xexpr with
  | 0 => compile (int2fix 0) ctx env cont
  | 1 => compile (← car xexpr) ctx env cont
  | _ => compileInlinen2 compile .iadd expr ctx env cont (int2fix 0)

def inlineTimes (expr : Value) (ctx : Cctx) (env : CEnv) (cont : Bool) : Comp W Cctx :=
  compileInlinen compile .imul expr ctx env cont (int2fix 1)

def inlineMinus (expr : Value) (ctx : Cctx) (env : CEnv) (cont : Bool) : Comp W Cctx :=
  compileInlinen2 compile .isub expr ctx env cont (int2fix 0)

def inlineDiv (expr : Value) (ctx : Cctx) (env : CEnv) (cont : Bool) : Comp W Cctx :=
  compileInlinen2 compile .idiv expr ctx env cont (int2fix 1)

/-- The inlined function of a name. -/
def inlineFuncOf : Value → Option (Value → Cctx → CEnv → Bool → Comp W Cctx)
  | .symbol .sCons => some (inlineCons compile)
  | .symbol .sCar => some (inlineCar compile)
  | .symbol .sCdr => some (inlineCdr compile)
  | .symbol .sPlus => some (inlinePlus compile)
  | .symbol .sTimes => some (inlineTimes compile)
  | .symbol .sMinus => some (inlineMinus compile)
  | .symbol .sDiv => some (inlineDiv compile)
  | _ => none

def fold (expr final : Value) : Comp W Value :=
  match expr with
  | .cons f .nil => pure (.cons f final)
  | .cons f rest => do pure (.cons f (.cons (← fold rest final) .nil))
  | _ => throw .badAccess

def compileCompose (expr : Value) (ctx : Cctx) (env : CEnv) (cont : Bool) : Comp W Cctx := do
  let composer ← cdr (← car expr)
  let cargs ← cdr expr
  compile (← fold composer cargs) ctx env cont

def compileComplement (expr : Value) (ctx : Cctx) (env : CEnv) (cont : Bool) : Comp W Cctx := do
  let complemented ← cdr (← car expr)
  let cargs ← cdr expr
  if (← cdr complemented) ≠ .nil then
    throw (.err "complement: wrong number of arguments (1 required)")
  else do
    let complemented ← car complemented
    compile (.cons (.symbol .sNo) (.cons (.cons complemented cargs) .nil)) ctx env cont

/-- Push the arguments of an application; their number. -/
def applyArgs : Value → Cctx → CEnv → Nat → Comp W (Cctx × Nat)
  | .nil, ctx, _, nargs => pure (ctx, nargs)
  | .cons e rest, ctx, env, nargs => do
    let ctx ← compile e ctx env false
    applyArgs rest (arcEmit ctx .ipush) env (nargs + 1)
  | _, _, _, _ => throw .badAccess

/-- Run a macro. -/
def applyMacro (expand : Value → Globals W → Except CompileError (Value × Globals W))
    (args : Value) : Comp W Value := fun s =>
  match expand args s.globals with
  | .ok (v, globals) => .ok (v, { s with globals := globals })
  | .error e => .error e

/-- The macro of an operator. -/
def macroOf (fname : Value) :
    Comp W (Option (Value → Globals W → Except CompileError (Value × Globals W))) := fun s =>
  match fname with
  | .symbol op => .ok (host.ismacro s.globals.world op, s)
  | _ => .ok (none, s)

def macex : Nat → Value → Comp W Value
  | 0, _ => throw .outOfFuel
  | fuel + 1, .cons op args => do
    match ← macroOf host op with
    | some expand => macex fuel (← applyMacro expand args)
    | none => pure (.cons op args)
  | _ + 1, e => pure e

def compileApply (expr : Value) (ctx : Cctx) (env : CEnv) (cont : Bool) : Comp W Cctx := do
  let fname ← car expr
  let args ← cdr expr
  match ← macroOf host fname with
  | some expand => compile (← applyMacro expand args) ctx env cont
  | none =>
    let contaddr := ctx.vcptr
    let ctx := if cont then ctx else arcEmit1 ctx .icont .nil
    let (ctx, nargs) ← applyArgs compile args ctx env 0
    let ctx ← compile fname ctx env false
    let ctx := if cont then arcEmit1 ctx .imenv (int2fix nargs) else ctx
    let ctx := arcEmit1 ctx .iapply (int2fix nargs)
    pure (if cont then ctx else arcJmpoffset ctx contaddr ctx.vcptr)

def arcUniq : Comp W Value := fun s =>
  let g := s.globals
  .ok (.symbol (host.intern s!"g{g.uniqnum}"),
    { s with globals := { g with uniqnum := g.uniqnum + 1 } })

/-- A new name for each argument. -/
def andfUniqs : Value → Value → Comp W Value
  | .nil, uniqs => pure uniqs
  | .cons _ rest, uniqs => do andfUniqs rest (.cons (← arcUniq host) uniqs)
  | _, _ => throw .badAccess

/-- Apply each function to the names. -/
def andfBody (uniqs : Value) : Value → Value → Comp W Value
  | .nil, body => pure body
  | .cons f rest, body => andfBody uniqs rest (.cons (.cons f uniqs) body)
  | _, _ => throw .badAccess

def compileAndf (expr : Value) (ctx : Cctx) (env : CEnv) (cont : Bool) : Comp W Cctx := do
  let andargs ← cdr expr
  let uniqs ← andfUniqs host andargs .nil
  let body ← andfBody uniqs (← cdr (← car expr)) .nil
  let body ← arcListReverse body
  let body := Value.cons (.cons (.symbol .sAnd) body) .nil
  compile (.cons (.cons (.symbol .sFn) (.cons uniqs body)) andargs) ctx env cont

/-- The expansion of a symbol with special syntax, or nil. -/
def ssexpandOf : Value → Comp W Value
  | .symbol s => liftM (host.ssexpand s)
  | _ => pure .nil

/-- Expand the special syntax of the symbols of a list. -/
def expandList : Value → Comp W Value
  | .nil => pure .nil
  | .cons x xs => do
    let result ← ssexpandOf host x
    let x := if result = .nil then x else result
    pure (.cons x (← expandList xs))
  | _ => throw .badAccess

/-- Compile a list that is no special form and has no special syntax. -/
def compileCall (expr : Value) (ctx : Cctx) (env : CEnv) (cont : Bool) : Comp W Cctx := do
  let op ← car expr
  match inlineFuncOf compile op with
  | some inline => inline expr ctx env cont
  | none =>
    match op with
    | .cons (.symbol .sCompose) _ => compileCompose compile expr ctx env cont
    | .cons (.symbol .sComplement) _ => compileComplement compile expr ctx env cont
    | .cons (.symbol .sAndf) _ => compileAndf host compile expr ctx env cont
    | _ => compileApply host compile expr ctx env cont

def compileList (macex : Value → Comp W Value) (op rest : Value) (ctx : Cctx) (env : CEnv)
    (cont : Bool) : Comp W Cctx :=
  match op with
  | .symbol .sIf => compileIf compile rest ctx env cont
  | .symbol .sFn => compileFn host compile rest ctx env cont
  | .symbol .sQuote => compileQuote host rest ctx cont
  | .symbol .sAssign => compileAssign host compile macex rest ctx env cont
  | _ => do compileCall host compile (← expandList host (.cons op rest)) ctx env cont

end Forms

/-- Atoms are characters, strings, numbers and regular expressions. -/
def literalP : Value → Bool
  | .symbol .sT | .symbol .sNil | .nil | .tru | .fixnum _ | .atom _ => true
  | _ => false

def arcCompile {W : Type} (host : Host W) : Nat → CompileFn W
  | 0, _, _, _, _ => throw .outOfFuel
  | fuel + 1, expr, ctx, env, cont =>
    if literalP expr then pure (compileLiteral host expr ctx cont)
    else match expr with
      | .symbol s => do
        let ssx ← liftM (host.ssexpand s)
        if ssx = .nil then pure (compileIdent host expr ctx env cont)
        else arcCompile host fuel ssx ctx env cont
      | .cons op rest =>
        compileList host (arcCompile host fuel) (macex host fuel) op rest ctx env cont
      | _ => throw (.err "invalid_expression")

/-- The code object `arc_eval` makes of an expression. -/
def evalCode {W : Type} (host : Host W) (fuel : Nat) (expr : Value) : Comp W Code := do
  let ctx ← arcCompile host fuel expr arcMkcctx [] true
  pure (arcCctx2code ctx)

end Arcueid
