import Arcueid.Arith
import Arcueid.Bytecode
import Arcueid.Compiler

/-! Operators that the compiler turns into instructions: the functions bound to
their names, and running the code of a form. -/

namespace Arcueid

open Outcome

inductive Operator where
  | plus | minus | times | div | cons | car | cdr
  deriving DecidableEq

def Operator.sym : Operator → Sym
  | plus => .sPlus
  | minus => .sMinus
  | times => .sTimes
  | div => .sDiv
  | cons => .sCons
  | car => .sCar
  | cdr => .sCdr

variable {F : Type} {flo : Floats F} {W : Type}

section Functions

def arcAdd (args : List (Val flo)) : ArcM flo (Val flo) :=
  let sum := match args with
    | .nil :: _ | .cons _ :: _ | .string _ :: _ => .nil
    | _ => .fix 0
  args.foldlM add2 sum

def arcSub : List (Val flo) → ArcM flo (Val flo)
  | [] => throw (.error "-: expects at least 1 argument, given 0")
  | [v] => [v].foldlM sub2 (.fix 0)
  | diff :: list => list.foldlM sub2 diff

def arcMul (args : List (Val flo)) : ArcM flo (Val flo) :=
  args.foldlM (fun prod v => mul2 v prod) (.fix 1)

def arcDiv : List (Val flo) → ArcM flo (Val flo)
  | [] => throw (.error "/: expects at least 1 argument, given 0")
  | [v] => [v].foldlM div2 (.fix 1)
  | quot :: list => list.foldlM div2 quot

def arcCar : Val flo → ArcM flo (Val flo)
  | .nil => pure .nil
  | .cons a => do pure (Heap.cell (← get) a).1
  | v => throw (.error s!"arc_car: expected argument to be type {v.type} given type 10")

def arcCdr : Val flo → ArcM flo (Val flo)
  | .nil => pure .nil
  | .cons a => do pure (Heap.cell (← get) a).2
  | v => throw (.error s!"arc_cdr: expected argument to be type {v.type} given type 10")

def wrongNumber {α : Type} (argc n : Nat) : ArcM flo α :=
  throw (.error s!"wrong number of arguments ({argc} for {n})")

/-- Apply the function an operator's name is bound to. -/
def applyFn : Operator → List (Val flo) → ArcM flo (Val flo)
  | .plus, args => arcAdd args
  | .minus, args => arcSub args
  | .times, args => arcMul args
  | .div, args => arcDiv args
  | .cons, [v, w] => mkCons v w
  | .cons, args => wrongNumber args.length 2
  | .car, [v] => arcCar v
  | .car, args => wrongNumber args.length 1
  | .cdr, [v] => arcCdr v
  | .cdr, args => wrongNumber args.length 1

end Functions

section Instructions

/-- The value register, and what is on the stack of the running function. -/
structure Regs (flo : Floats F) where
  stack : List (Val flo)
  valr : Val flo

def iadd : Val flo → Val flo → ArcM flo (Val flo)
  | .string s, w => add2String s w
  | v, w => add2 v w

def icar : Val flo → ArcM flo (Val flo)
  | .nil => pure .nil
  | .cons a => do pure (Heap.cell (← get) a).1
  | _ => throw (.error "can't take car of value")

def icdr : Val flo → ArcM flo (Val flo)
  | .nil => pure .nil
  | .cons a => do pure (Heap.cell (← get) a).2
  | _ => throw (.error "can't take cdr of value")

/-- Instructions on the top of the stack and the value register. -/
def binary : Inst → Option (Val flo → Val flo → ArcM flo (Val flo))
  | .iadd => some iadd
  | .isub => some sub2
  | .imul => some mul2
  | .idiv => some div2
  | .icons => some mkCons
  | _ => none

/-- Instructions on the value register. -/
def unary : Inst → Option (Val flo → ArcM flo (Val flo))
  | .icar => some icar
  | .icdr => some icdr
  | _ => none

def ipush (r : Regs flo) : Regs flo := ⟨r.valr :: r.stack, r.valr⟩

def setValr (v : Val flo) (r : Regs flo) : Regs flo := ⟨r.stack, v⟩

def updateValr (f : Val flo → ArcM flo (Val flo)) (r : Regs flo) : ArcM flo (Regs flo) := do
  let v ← f r.valr
  pure (setValr v r)

/-- Combine the top of the stack with the value register. -/
def combine (f : Val flo → Val flo → ArcM flo (Val flo)) (r : Regs flo) : ArcM flo (Regs flo) :=
  match r.stack with
  | [] => throw .undefined
  | v :: stack => do
    let u ← f v r.valr
    pure ⟨stack, u⟩

/-- The argument a literal stands for, or the literal itself. -/
def literalVal (args : List (Val flo)) : Value → Val flo
  | .fixnum n => .fix n
  | .atom k => args.getD k .nil
  | _ => .nil

/-- Run the words of code without jumps, with its literals. -/
def run (args : List (Val flo)) (lits : List Value) : List Value → Regs flo → ArcM flo (Regs flo)
  | [], r => pure r
  | .fixnum w :: ws, r =>
    match Inst.ofOpcode w.toNat, ws with
    | some .ipush, ws => run args lits ws (ipush r)
    | some .ildi, v :: ws => run args lits ws (setValr (literalVal args v) r)
    | some .ildl, .fixnum k :: ws =>
      match lits[k.toNat]? with
      | some v => run args lits ws (setValr (literalVal args v) r)
      | none => throw .undefined
    | some inst, ws =>
      match binary inst, unary inst with
      | some f, _ => combine f r >>= run args lits ws
      | _, some f => updateValr f r >>= run args lits ws
      | _, _ => throw .undefined
    | none, _ => throw .undefined
  | _ :: _, _ => throw .undefined

/-- The arguments with these numbers, quoted. -/
def argForms : List Nat → Value
  | [] => .nil
  | k :: ks => .cons (.cons (.symbol .sQuote) (.cons (.atom k) .nil)) (argForms ks)

/-- A form of an operator and `n` arguments. -/
def opForm (op : Operator) (n : Nat) : Value :=
  .cons (.symbol op.sym) (argForms (List.range n))

def compileStop : CompileError → Stop
  | .err msg => .error msg
  | .badAccess => .undefined
  | .outOfFuel => .fuel

/-- Run what the compiler made of a form. -/
def runCompiled (args : List (Val flo)) : Except CompileError (Cctx × State W) → ArcM flo (Val flo)
  | .error e => throw (compileStop e)
  | .ok (ctx, _) => do
    let r ← run args ctx.literals ctx.code ⟨[], .nil⟩
    pure r.valr

/-- Evaluate a form with its operator inlined. -/
def inlined (host : Host W) (fuel : Nat) (s : State W) (op : Operator) (args : List (Val flo)) :
    ArcM flo (Val flo) :=
  match inlineFuncOf (arcCompile host fuel) (.symbol op.sym) with
  | none => throw .undefined
  | some inline => runCompiled args (inline (opForm op args.length) arcMkcctx [] false s)

end Instructions

section Code

variable {args : List (Val flo)} {ctx ctx' ctx'' : Cctx} {f g : Regs flo → ArcM flo (Regs flo)}
  {r : Regs flo}

/-- The code that `ctx'` has after that of `ctx` acts on the registers as `f`. -/
structure Runs (args : List (Val flo)) (ctx ctx' : Cctx) (f : Regs flo → ArcM flo (Regs flo)) :
    Prop where
  code : ∃ ws, ctx'.code = ctx.code ++ ws ∧ ∀ lits, ctx'.literals <+: lits → ∀ rest r,
    run args lits (ws ++ rest) r = f r >>= run args lits rest
  literals : ctx.literals <+: ctx'.literals

namespace Runs

theorem refl : Runs args ctx ctx pure :=
  ⟨⟨[], by simp, by simp⟩, List.prefix_rfl⟩

theorem trans (hf : Runs args ctx ctx' f) (hg : Runs args ctx' ctx'' g) :
    Runs args ctx ctx'' fun r => f r >>= g := by
  obtain ⟨ws, hws, hrun⟩ := hf.code
  obtain ⟨ws', hws', hrun'⟩ := hg.code
  refine ⟨⟨ws ++ ws', by rw [hws', hws, List.append_assoc], ?_⟩, hf.literals.trans hg.literals⟩
  intro lits hlits rest r
  rw [List.append_assoc, hrun lits (hg.literals.trans hlits), bind_assoc]
  congr 1
  funext r'
  exact hrun' lits hlits rest r'

theorem run_eq (hf : Runs args arcMkcctx ctx f) :
    run args ctx.literals ctx.code r = f r := by
  obtain ⟨ws, hws, hrun⟩ := hf.code
  have hall := hrun ctx.literals List.prefix_rfl [] r
  rw [List.append_nil] at hall
  rw [hws, show arcMkcctx.code ++ ws = ws from rfl, hall]
  exact bind_pure _

end Runs

theorem runs_ipush : Runs args ctx (arcEmit ctx .ipush) fun r => pure (ipush r) := by
  refine ⟨⟨_, arcEmit_code, ?_⟩, List.prefix_rfl⟩
  intro lits _ rest r
  rw [pure_bind]
  rfl

theorem runs_binary {inst : Inst} {op : Val flo → Val flo → ArcM flo (Val flo)}
    (hop : binary inst = some op) : Runs args ctx (arcEmit ctx inst) (combine op) := by
  refine ⟨⟨_, arcEmit_code, ?_⟩, List.prefix_rfl⟩
  intro lits _ rest r
  cases inst <;> cases hop <;> rfl

theorem runs_unary {inst : Inst} {op : Val flo → ArcM flo (Val flo)} (hop : unary inst = some op) :
    Runs args ctx (arcEmit ctx inst) (updateValr op) := by
  refine ⟨⟨_, arcEmit_code, ?_⟩, List.prefix_rfl⟩
  intro lits _ rest r
  cases inst <;> cases hop <;> rfl

variable (host : Host W) (fuel : Nat) (s : State W) (env : CEnv)

theorem compile_fixnum (args : List (Val flo)) (ctx : Cctx) (n : Int) : ∃ ctx',
    arcCompile host (fuel + 1) (.fixnum n) ctx env false s = .ok (ctx', s) ∧
      Runs args ctx ctx' fun r => pure (setValr (.fix n) r) := by
  refine ⟨arcEmit1 ctx .ildi (.fixnum n), rfl, ⟨_, arcEmit1_code, ?_⟩, List.prefix_rfl⟩
  intro lits _ rest r
  rw [pure_bind]
  rfl

theorem compile_arg (args : List (Val flo)) (ctx : Cctx) (k : Nat) : ∃ ctx',
    arcCompile host (fuel + 1) (.cons (.symbol .sQuote) (.cons (.atom k) .nil)) ctx env false s =
        .ok (ctx', s) ∧
      Runs args ctx ctx' fun r => pure (setValr (args.getD k .nil) r) := by
  obtain ⟨hcode, hlits, hfound⟩ := findLiteral_found host ctx (show Value.atom k ≠ .nil by simp)
  refine ⟨_, rfl, ⟨Instr.words ⟨.ildl, [int2fix (findLiteral host ctx (.atom k)).2]⟩, ?_, ?_⟩,
    hlits⟩
  · rw [← hcode]
    exact arcEmit1_code
  · intro lits hpre rest r
    have hpre : (findLiteral host ctx (.atom k)).1.literals <+: lits := hpre
    have hlit : lits[(findLiteral host ctx (.atom k)).2]? = some (.atom k) := by
      obtain ⟨more, rfl⟩ := hpre
      rw [List.getElem?_append_left (List.getElem?_eq_some_iff.mp hfound).1]
      exact hfound
    rw [pure_bind]
    change (match lits[((findLiteral host ctx (.atom k)).2 : Int).toNat]? with
      | some v => run args lits rest (setValr (literalVal args v) r)
      | none => throw Stop.undefined) = _
    rw [Int.toNat_natCast, hlit]
    rfl

/-- The values of arguments with these numbers. -/
def argVals (args : List (Val flo)) (ks : List Nat) : List (Val flo) := ks.map (args.getD · .nil)

theorem argVals_range (args : List (Val flo)) : argVals args (List.range args.length) = args := by
  apply List.ext_getElem
  · simp [argVals]
  · intro k hk hk'
    simp [argVals, hk']

/-- Combine the value register with values, one after another. -/
def foldValr (f : Val flo → Val flo → ArcM flo (Val flo)) (vs : List (Val flo)) :
    Regs flo → ArcM flo (Regs flo) :=
  updateValr fun v => vs.foldlM f v

theorem inlinenFrom_runs {args : List (Val flo)} {inst : Inst} {op : Val flo → Val flo → ArcM flo (Val flo)}
    (hop : binary inst = some op) (ks : List Nat) (ctx : Cctx) : ∃ ctx',
      inlinenFrom (arcCompile host (fuel + 1)) inst (argForms ks) ctx env s = .ok (ctx', s) ∧
        Runs args ctx ctx' (foldValr op (argVals args ks)) := by
  induction ks generalizing ctx with
  | nil =>
    refine ⟨ctx, rfl, ?_⟩
    have hnil : foldValr op (argVals args []) = pure := by
      funext r
      simp [foldValr, updateValr, argVals, setValr]
    rw [hnil]
    exact .refl
  | cons k ks ih =>
    obtain ⟨ctx₁, hctx₁, hrun₁⟩ := compile_arg host fuel s env args (arcEmit ctx .ipush) k
    obtain ⟨ctx₂, hctx₂, hrun₂⟩ := ih (arcEmit ctx₁ inst)
    refine ⟨ctx₂, ?_, ?_⟩
    · rw [argForms, inlinenFrom]
      exact Yields.bind hctx₁ hctx₂
    · have hall := ((runs_ipush.trans hrun₁).trans (runs_binary hop)).trans hrun₂
      convert hall using 1
      funext r
      simp [foldValr, updateValr, argVals, combine, ipush, setValr]

/-- Load values, pushing all but the last. -/
def loadAll : List (Val flo) → Regs flo → Regs flo
  | [], r => r
  | [v], r => setValr v r
  | v :: vs, r => loadAll vs (ipush (setValr v r))

theorem inlineArgs_runs (args : List (Val flo)) (ks : List Nat) (ctx : Cctx) (n : Nat) : ∃ ctx',
    inlineArgs (arcCompile host (fuel + 1)) (argForms ks) ctx env n s =
        .ok ((ctx', n + ks.length), s) ∧
      Runs args ctx ctx' fun r => pure (loadAll (argVals args ks) r) := by
  induction ks generalizing ctx n with
  | nil => exact ⟨ctx, rfl, .refl⟩
  | cons k ks ih =>
    obtain ⟨ctx₁, hctx₁, hrun₁⟩ := compile_arg host fuel s env args ctx k
    cases ks with
    | nil => exact ⟨ctx₁, Yields.bind hctx₁ rfl, hrun₁⟩
    | cons k' ks =>
      obtain ⟨ctx₂, hctx₂, hrun₂⟩ := ih (arcEmit ctx₁ .ipush) (n + 1)
      refine ⟨ctx₂, ?_, ?_⟩
      · rw [argForms, inlineArgs, List.length_cons, show n + ((k' :: ks).length + 1) =
          n + 1 + (k' :: ks).length by omega]
        exact Yields.bind hctx₁ hctx₂
      · convert (hrun₁.trans runs_ipush).trans hrun₂ using 1
        funext r
        simp [argVals, loadAll]

theorem runCompiled_ok {x : Except CompileError (Cctx × State W)}
    (hx : ∃ ctx, x = .ok (ctx, s) ∧ Runs args arcMkcctx ctx f) :
    runCompiled args x = f ⟨[], .nil⟩ >>= fun r => pure r.valr := by
  obtain ⟨ctx, rfl, hrun⟩ := hx
  rw [runCompiled, hrun.run_eq]

theorem inlineFunc_error {instr : Inst} {op : Operator} {n : Nat} (hn : args.length ≠ n) :
    inlineFunc (arcCompile host (fuel + 1)) instr n (opForm op args.length) arcMkcctx [] false s =
      .error (.err s!"inline procedure expects {n} arguments ({args.length} passed)") := by
  obtain ⟨ctx₁, hctx₁, -⟩ := inlineArgs_runs host fuel s [] args (List.range args.length) arcMkcctx 0
  rw [List.length_range, Nat.zero_add] at hctx₁
  rw [inlineFunc, bind_of_ok (show cdr (opForm op args.length) s = _ from rfl), bind_of_ok hctx₁]
  simp only [hn, if_false]
  rfl

theorem inlineFunc_runs {instr : Inst} {op : Operator} {f : Regs flo → ArcM flo (Regs flo)}
    (hinstr : ∀ ctx, Runs args ctx (arcEmit ctx instr) f) : ∃ ctx',
      inlineFunc (arcCompile host (fuel + 1)) instr args.length (opForm op args.length) arcMkcctx []
          false s = .ok (ctx', s) ∧
        Runs args arcMkcctx ctx' fun r => f (loadAll args r) := by
  obtain ⟨ctx₁, hctx₁, hrun₁⟩ :=
    inlineArgs_runs host fuel s [] args (List.range args.length) arcMkcctx 0
  rw [List.length_range, Nat.zero_add] at hctx₁
  refine ⟨arcEmit ctx₁ instr, ?_, ?_⟩
  · refine Yields.bind yields_pure (Yields.bind hctx₁ ?_)
    simp only [if_true]
    exact yields_pure
  · convert hrun₁.trans (hinstr ctx₁) using 1
    funext r
    rw [argVals_range]
    simp

variable {inst : Inst} {op : Val flo → Val flo → ArcM flo (Val flo)} {base : Value} (name : Value)
  {v : Val flo}

theorem arcListLength_argForms (ks : List Nat) : arcListLength (argForms ks) = ks.length := by
  induction ks with
  | nil => rfl
  | cons k ks ih => rw [argForms, arcListLength, ih, List.length_cons]

theorem compileInlinen_runs (hop : binary inst = some op)
    (hbase : ∃ ctx', arcCompile host (fuel + 1) base arcMkcctx [] false s = .ok (ctx', s) ∧
      Runs args arcMkcctx ctx' fun r => pure (setValr v r)) (ks : List Nat) : ∃ ctx',
      compileInlinen (arcCompile host (fuel + 1)) inst (.cons name (argForms ks)) arcMkcctx [] false
          base s = .ok (ctx', s) ∧
        Runs args arcMkcctx ctx' fun r => foldValr op (argVals args ks) (setValr v r) := by
  obtain ⟨ctx₁, hctx₁, hrun₁⟩ := hbase
  obtain ⟨ctx₂, hctx₂, hrun₂⟩ := inlinenFrom_runs host fuel s [] hop ks ctx₁
  refine ⟨ctx₂, Yields.bind hctx₁ (Yields.bind yields_pure (Yields.bind hctx₂ rfl)), ?_⟩
  convert hrun₁.trans hrun₂ using 1
  funext r
  simp

theorem foldValr_valr {f : Val flo → Val flo → ArcM flo (Val flo)} {vs : List (Val flo)} :
    (foldValr f vs r >>= fun r => pure r.valr) = vs.foldlM f r.valr := by
  simp [foldValr, updateValr, setValr]

theorem runCompiled_inlinen2 (hop : binary inst = some op) {n : Int} :
    runCompiled args (compileInlinen2 (arcCompile host (fuel + 1)) inst
        (.cons name (argForms (List.range args.length))) arcMkcctx [] false (int2fix n) s) =
      match args with
      | [] => throw (.error "operator requires at least one argument")
      | [v] => [v].foldlM op (.fix n)
      | v :: vs => vs.foldlM op v := by
  match args with
  | [] => rfl
  | [v] =>
    have hrun := compileInlinen_runs host fuel s name hop (compile_fixnum host fuel s [] [v] arcMkcctx n) [0]
    exact (runCompiled_ok s hrun).trans foldValr_valr
  | v :: w :: vs =>
    have hrun := compileInlinen_runs host fuel s name hop
      (compile_arg host fuel s [] (v :: w :: vs) arcMkcctx 0)
      ((0 :: (List.range vs.length).map Nat.succ).map Nat.succ)
    have hall := argVals_range (v :: w :: vs)
    rw [List.length_cons, List.length_cons, List.range_succ_eq_map, List.range_succ_eq_map] at hall
    have htail : argVals (v :: w :: vs) ((0 :: (List.range vs.length).map Nat.succ).map Nat.succ) =
        w :: vs := List.tail_eq_of_cons_eq hall
    rw [htail] at hrun
    rw [List.length_cons, List.length_cons, List.range_succ_eq_map, List.range_succ_eq_map]
    exact (runCompiled_ok s hrun).trans foldValr_valr

end Code

/-- What the code of a form does. -/
def inlineOp : Operator → List (Val flo) → ArcM flo (Val flo)
  | .plus, [] => pure (.fix 0)
  | .plus, v :: vs => vs.foldlM iadd v
  | .times, vs => vs.foldlM mul2 (.fix 1)
  | .minus, [] | .div, [] => throw (.error "operator requires at least one argument")
  | .minus, [v] => [v].foldlM sub2 (.fix 0)
  | .minus, v :: vs => vs.foldlM sub2 v
  | .div, [v] => [v].foldlM div2 (.fix 1)
  | .div, v :: vs => vs.foldlM div2 v
  | .cons, [v, w] => mkCons v w
  | .cons, vs => throw (.error s!"inline procedure expects 2 arguments ({vs.length} passed)")
  | .car, [v] => icar v
  | .car, vs => throw (.error s!"inline procedure expects 1 arguments ({vs.length} passed)")
  | .cdr, [v] => icdr v
  | .cdr, vs => throw (.error s!"inline procedure expects 1 arguments ({vs.length} passed)")

theorem inlined_inlineFunc (host : Host W) (fuel : Nat) (s : State W) {op : Operator} {instr : Inst}
    {args : List (Val flo)} {f : Regs flo → ArcM flo (Regs flo)}
    (hinstr : ∀ ctx, Runs args ctx (arcEmit ctx instr) f) {n : Nat} :
    runCompiled args (inlineFunc (arcCompile host (fuel + 1)) instr n (opForm op args.length)
        arcMkcctx [] false s) =
      if args.length = n then f (loadAll args ⟨[], .nil⟩) >>= fun r => pure r.valr
      else throw (.error s!"inline procedure expects {n} arguments ({args.length} passed)") := by
  split_ifs with hn
  · subst hn
    exact runCompiled_ok s (inlineFunc_runs host fuel s hinstr)
  · rw [inlineFunc_error host fuel s hn]
    rfl

theorem inlined_eq (host : Host W) (fuel : Nat) (s : State W) (op : Operator)
    (args : List (Val flo)) : inlined host (fuel + 1) s op args = inlineOp op args := by
  cases op with
  | plus =>
    match args with
    | [] => rfl
    | [v] =>
      exact runCompiled_ok s (compile_arg host fuel s [] [v] arcMkcctx 0)
    | v :: w :: vs =>
      have hlen : arcListLength (argForms (List.range (v :: w :: vs).length)) = vs.length + 2 := by
        rw [arcListLength_argForms, List.length_range]
        rfl
      have hplus : inlinePlus (arcCompile host (fuel + 1)) (opForm .plus (v :: w :: vs).length)
          arcMkcctx [] false s = compileInlinen2 (arcCompile host (fuel + 1)) .iadd
          (opForm .plus (v :: w :: vs).length) arcMkcctx [] false (int2fix 0) s := by
        rw [inlinePlus, bind_of_ok (show cdr (opForm .plus (v :: w :: vs).length) s = _ from rfl), hlen]
        rfl
      exact (congrArg _ hplus).trans (runCompiled_inlinen2 host fuel s _ rfl)
  | minus => exact (runCompiled_inlinen2 host fuel s _ rfl).trans (by rcases args with _ | ⟨v, _ | _⟩ <;> rfl)
  | div => exact (runCompiled_inlinen2 host fuel s _ rfl).trans (by rcases args with _ | ⟨v, _ | _⟩ <;> rfl)
  | times =>
    have hrun := compileInlinen_runs host fuel s (.symbol .sTimes) (show binary .imul = some mul2 from rfl)
      (compile_fixnum host fuel s [] args arcMkcctx 1) (List.range args.length)
    rw [argVals_range] at hrun
    exact (runCompiled_ok s hrun).trans foldValr_valr
  | cons =>
    refine (inlined_inlineFunc host fuel s fun _ => runs_binary rfl).trans ?_
    rcases args with _ | ⟨v, _ | ⟨w, _ | _⟩⟩
    · rfl
    · rfl
    · simp [loadAll, combine, ipush, setValr, inlineOp]
    · rfl
  | car =>
    refine (inlined_inlineFunc host fuel s fun _ => runs_unary rfl).trans ?_
    rcases args with _ | ⟨v, _ | _⟩
    · rfl
    · simp [loadAll, updateValr, setValr, inlineOp]
    · rfl
  | cdr =>
    refine (inlined_inlineFunc host fuel s fun _ => runs_unary rfl).trans ?_
    rcases args with _ | ⟨v, _ | _⟩
    · rfl
    · simp [loadAll, updateValr, setValr, inlineOp]
    · rfl

end Arcueid
