import Arcueid.CompilerHeights
import Arcueid.ControlRuns

/-! Calls in tail positions: where the compiler puts them, and the chain of
continuations that they pass on. -/

namespace Arcueid

open StackCode Outcome

/-- A way through the clauses of an if. -/
inductive Branch where
  | thn | els
  deriving DecidableEq

section Addresses

variable {W : Type} (host : Host W) (compile : CompileFn W)

/-- The code of a fn, before it is made an object. -/
def fnContext (args body : Value) (env : CEnv) : Comp W Cctx := do
  let (nctx, nenv) ← compileArgs compile args arcMkcctx env
  let nctx ← compileBody compile body nctx nenv
  pure (if body = .nil then arcEmit (arcEmit nctx .inil) .iret else nctx)

theorem compileFn_eq (args body : Value) (ctx : Cctx) (env : CEnv) (cont : Bool) :
    compileFn host compile (.cons args body) ctx env cont = (do
      let newcode ← mkCode (← fnContext compile args body env)
      let (ctx, i) := findLiteral host ctx newcode
      pure (compileContinuation (arcEmit (arcEmit1 ctx .ildl (int2fix i)) .icls) cont)) := by
  simp [compileFn, fnContext, car, cdr]

/-- The address of the call for an application at a tail position in the clauses
of an if, given how to find it in an expression. -/
def clauseCall (find : List Branch → Value → Cctx → CEnv → Bool → Comp W Nat) :
    List Branch → Value → Cctx → CEnv → Bool → Comp W Nat
  | path, .cons e .nil, ctx, env, cont => find path e ctx env cont
  | .thn :: path, .cons e (.cons thn _), ctx, env, _ => do
    let ctx ← compile e ctx env false
    find path thn (arcEmit1 ctx .ijf (int2fix 0)) env false
  | .els :: path, .cons e (.cons thn els), ctx, env, cont => do
    let ctx ← compile e ctx env false
    let jumpaddr := ctx.vcptr
    let ctx ← compile thn (arcEmit1 ctx .ijf (int2fix 0)) env false
    let ctx := arcEmit1 ctx .ijmp (int2fix 0)
    clauseCall find path els (arcJmpoffset ctx jumpaddr ctx.vcptr) env cont
  | _, _, _, _, _ => throw (.err "no application")

/-- Special forms, and operators that are compiled to something else than a
call of them. -/
def callsOther : Value → Bool
  | .symbol .sIf | .symbol .sFn | .symbol .sQuote | .symbol .sAssign => true
  | .cons (.symbol .sCompose) _ | .cons (.symbol .sComplement) _ | .cons (.symbol .sAndf) _ => true
  | f => (inlineFuncOf compile f).isSome

/-- The address of the call that the code of an expression makes for the
application at a tail position. -/
def tailCallIn : Nat → List Branch → Value → Cctx → CEnv → Bool → Comp W Nat
  | fuel + 1, path, .cons (.symbol .sIf) clauses, ctx, env, cont =>
    clauseCall (arcCompile host fuel) (tailCallIn fuel) path clauses ctx env cont
  | fuel + 1, [], .cons op rest, ctx, env, cont => do
    let f ← car (← expandList host (.cons op rest))
    let m ← macroOf host f
    if callsOther (arcCompile host fuel) op || callsOther (arcCompile host fuel) f || m.isSome then
      throw (.err "no application")
    else do
      let ctx ← arcCompile host (fuel + 1) (.cons op rest) ctx env cont
      pure (ctx.vcptr - 2)
  | _, _, _, _, _, _ => throw (.err "no application")

/-- The last expression of a body is in a tail position. -/
def tailCallInBody (fuel : Nat) (path : List Branch) : Value → Cctx → CEnv → Comp W Nat
  | .cons e .nil, ctx, env => tailCallIn host fuel path e ctx env true
  | .cons e rest, ctx, env => do
    let ctx ← arcCompile host fuel e ctx env false
    tailCallInBody fuel path rest ctx env
  | _, _, _ => throw (.err "no application")

def tailCallInFn (fuel : Nat) (path : List Branch) (args body : Value) (env : CEnv) :
    Comp W Nat := do
  let (nctx, nenv) ← compileArgs (arcCompile host fuel) args arcMkcctx env
  tailCallInBody host fuel path body nctx nenv

end Addresses

/-- The number of continuations made for a call in a tail position: none, except
in the then expression of an if. -/
def contsAtCall (cont : Bool) (path : List Branch) (h : Nat) : Nat :=
  if cont = true ∧ .thn ∉ path then 0 else h + 1

section Emission

variable {W : Type} {host : Host W} {compile : CompileFn W} {s s' s'' : State W}
  {ctx ctx' : Cctx} {env : CEnv} {cont : Bool} {e : Value} {path : List Branch} {h o : Nat}

theorem Yields.unique {α : Type} {x : Comp W α} {a b : α} (ha : Yields x s a s')
    (hb : Yields x s b s'') : a = b ∧ s' = s'' := by
  have heq := Except.ok.inj (ha.symm.trans hb)
  exact ⟨congrArg Prod.fst heq, congrArg Prod.snd heq⟩

/-- The calls at the tail positions of what `compile` is given are found. -/
def FindsCalls (compile : CompileFn W)
    (find : List Branch → Value → Cctx → CEnv → Bool → Comp W Nat) : Prop :=
  ∀ path e ctx env cont s h o s' ctx' s'', (cont = true → h = 0) →
    Yields (find path e ctx env cont) s o s' → Yields (compile e ctx env cont) s ctx' s'' →
    EmitsBy conts ctx ctx' h (exitHeight cont h) [(o, contsAtCall cont path h)]

section Clauses

variable {find : List Branch → Value → Cctx → CEnv → Bool → Comp W Nat}
  (hcompile : Compiles compile) (hfind : FindsCalls compile find)

include hcompile hfind in
theorem clauseCall_emits (hcont : cont = true → h = 0)
    (ho : Yields (clauseCall compile find path e ctx env cont) s o s')
    (hok : Yields (compileIf compile e ctx env cont) s ctx' s'') :
    EmitsBy conts ctx ctx' h (exitHeight cont h) [(o, contsAtCall cont path h)] := by
  induction path, e, ctx, env, cont using clauseCall.induct generalizing s ctx' s'' with
  | case1 path e ctx env cont =>
    rw [clauseCall] at ho
    exact hfind path e ctx env cont s h o s' ctx' s'' hcont ho hok
  | case2 path e thn els ctx env cont =>
    rw [clauseCall] at ho
    rw [compileIf] at hok
    obtain ⟨ctx₁, s₁, he, ho⟩ := yields_bind ho
    obtain ⟨ctx₁', s₁', he', hok⟩ := yields_bind hok
    obtain ⟨rfl, rfl⟩ := Yields.unique he he'
    obtain ⟨ctx₂, s₂, hthn, hok⟩ := yields_bind hok
    obtain ⟨ctx₃, s₃, hels, hok⟩ := yields_bind hok
    obtain ⟨rfl, -⟩ := yields_pure_iff.mp hok
    have h₁ := ((hcompile.value conts h) ctx₁ s₁ he).2
    have h₂ := hfind path thn _ env false s₁ h o s' ctx₂ s₂ (fun hf => Bool.noConfusion hf) ho hthn
    have h₃ := (compileIf_emits hcompile (c := conts) hcont ctx₃ s₃ hels).2
    have hall := (h₁.trans (h₂.branch rfl h₃ (exitHeight_eq hcont))).continuation hcont
    simpa [contsAtCall] using hall
  | case3 path e thn els ctx env cont ih =>
    rw [clauseCall] at ho
    rw [compileIf] at hok
    obtain ⟨ctx₁, s₁, he, ho⟩ := yields_bind ho
    obtain ⟨ctx₁', s₁', he', hok⟩ := yields_bind hok
    obtain ⟨rfl, rfl⟩ := Yields.unique he he'
    obtain ⟨ctx₂, s₂, hthn, ho⟩ := yields_bind ho
    obtain ⟨ctx₂', s₂', hthn', hok⟩ := yields_bind hok
    obtain ⟨rfl, rfl⟩ := Yields.unique hthn hthn'
    obtain ⟨ctx₃, s₃, hels, hok⟩ := yields_bind hok
    obtain ⟨rfl, -⟩ := yields_pure_iff.mp hok
    have h₁ := ((hcompile.value conts h) ctx₁ s₁ he).2
    have h₂ := ((hcompile.value conts h) ctx₂ s₂ hthn).2
    have h₃ := ih ctx₁ ctx₂ hcont ho hels
    have hall := (h₁.trans (h₂.branch rfl h₃ (exitHeight_eq hcont))).continuation hcont
    simpa [contsAtCall] using hall
  | case4 path e ctx env cont hlast hthn hels =>
    rw [clauseCall] at ho
    · exact absurd ho not_yields_throw
    · exact hlast
    · exact hthn
    · exact hels

end Clauses

theorem compileList_call {macex : Value → Comp W Value} {op rest : Value}
    (h : callsOther compile op = false) :
    compileList host compile macex op rest ctx env cont = (do
      compileCall host compile (← expandList host (.cons op rest)) ctx env cont) := by
  unfold compileList
  split <;> first | rfl | cases h

theorem compileCall_apply {f args : Value} (h : callsOther compile f = false) :
    compileCall host compile (.cons f args) ctx env cont =
      compileApply host compile (.cons f args) ctx env cont := by
  rw [compileCall, car, pure_bind]
  have hinline : inlineFuncOf compile f = none := by
    cases hi : inlineFuncOf compile f with
    | none => rfl
    | some inline =>
      unfold callsOther at h
      split at h <;> simp [hi] at h
  rw [hinline]
  dsimp only
  split <;> first | rfl | cases h

theorem ssexpandOf_state {v r : Value} (hok : Yields (ssexpandOf host v) s r s') : s' = s := by
  cases v with
  | symbol x => exact (yields_lift_iff.mp hok).2.symm
  | _ => exact (yields_pure_iff.mp hok).2.symm

theorem expandList_state {v r : Value} (hok : Yields (expandList host v) s r s') : s' = s := by
  induction v generalizing r s' with
  | nil => exact (yields_pure_iff.mp hok).2.symm
  | cons x xs _ ih =>
    obtain ⟨y, s₁, hy, hrest⟩ := yields_bind hok
    obtain ⟨ys, s₂, hys, hlast⟩ := yields_bind hrest
    rw [ssexpandOf_state hy] at hys
    rw [← (yields_pure_iff.mp hlast).2, ih hys]
  | _ => exact absurd hok not_yields_throw

theorem yields_car {v a : Value} (hok : Yields (car v : Comp W Value) s a s') :
    ∃ d, v = .cons a d ∧ s = s' := by
  cases v with
  | cons x d =>
    obtain ⟨rfl, rfl⟩ := yields_pure_iff.mp hok
    exact ⟨d, rfl, rfl⟩
  | _ => exact absurd hok not_yields_throw

theorem macroOf_state (host : Host W) (v : Value) (s : State W) : ∃ m, macroOf host v s = .ok (m, s) := by
  cases v <;> exact ⟨_, rfl⟩

/-- The call that an application is compiled to comes last in its code. -/
theorem applicationCall_emits {fuel : Nat} {op rest : Value} (hop : op ≠ .symbol .sIf)
    (hcont : cont = true → h = 0)
    (ho : Yields (tailCallIn host (fuel + 1) [] (.cons op rest) ctx env cont) s o s')
    (hok : Yields (arcCompile host (fuel + 1) (.cons op rest) ctx env cont) s ctx' s'') :
    EmitsBy conts ctx ctx' h (exitHeight cont h) [(o, contsAtCall cont [] h)] := by
  rw [tailCallIn] at ho
  · obtain ⟨expr, s₁, hexpr, ho₁⟩ := yields_bind ho
    obtain ⟨f, s₂, hcar, ho₂⟩ := yields_bind ho₁
    obtain ⟨m, s₃, hm, ho₃⟩ := yields_bind ho₂
    obtain rfl := expandList_state hexpr
    obtain ⟨xs, rfl, rfl⟩ := yields_car hcar
    obtain ⟨m', hm'⟩ := macroOf_state host f s₁
    obtain ⟨rfl, rfl⟩ := Yields.unique hm hm'
    by_cases hother : (callsOther (arcCompile host fuel) op || callsOther (arcCompile host fuel) f ||
        m.isSome) = true
    · rw [if_pos hother] at ho₃
      exact absurd ho₃ not_yields_throw
    · rw [if_neg hother] at ho₃
      simp only [Bool.or_eq_true, not_or, Bool.not_eq_true, Option.isSome_eq_false_iff,
        Option.isNone_iff_eq_none] at hother
      obtain ⟨⟨hop, hf⟩, rfl⟩ := hother
      obtain ⟨ctx₁, s₄, hok', ho₄⟩ := yields_bind ho₃
      obtain ⟨rfl, -⟩ := Yields.unique hok hok'
      obtain ⟨rfl, -⟩ := yields_pure_iff.mp ho₄
      have hlist : Yields (compileList host (arcCompile host fuel) (macex host fuel) op rest ctx
          env cont) s₃ ctx' s'' := hok
      rw [compileList_call hop] at hlist
      have happly : Yields (compileApply host (arcCompile host fuel) (.cons f xs) ctx env cont) s₃
          ctx' s'' := by
        rw [← compileCall_apply hf]
        exact (bind_of_ok hexpr).symm.trans hlist
      obtain ⟨n, hcall⟩ :=
        (compileApply_calls (arcCompile_compiles fuel) (c := conts) hm' hcont ctx' s'' happly).2
      have hconts : (if cont then 0 else h + conts.cont) + conts.push * n = contsAtCall cont [] h := by
        cases cont <;> simp [contsAtCall, conts]
      rwa [hconts] at hcall
  · simpa using hop

theorem tailCallIn_emits (fuel : Nat) :
    FindsCalls (arcCompile host fuel) (tailCallIn host fuel) := by
  induction fuel with
  | zero =>
    intro path e ctx env cont s h o s' ctx' s'' hcont ho
    exact absurd ho not_yields_throw
  | succ fuel ih =>
    intro path e ctx env cont s h o s' ctx' s'' hcont ho hok
    cases e with
    | cons op rest =>
      by_cases hop : op = .symbol .sIf
      · subst hop
        rw [tailCallIn] at ho
        exact clauseCall_emits (arcCompile_compiles fuel) ih hcont ho hok
      · cases path with
        | nil => exact applicationCall_emits hop hcont ho hok
        | cons b path =>
          rw [tailCallIn] at ho
          · exact absurd ho not_yields_throw
          · simpa using hop
          · simp
    | _ => exact absurd ho not_yields_throw

theorem tailCallInBody_emits {fuel : Nat} {body : Value}
    (ho : Yields (tailCallInBody host fuel path body ctx env) s o s')
    (hok : Yields (compileBody (arcCompile host fuel) body ctx env) s ctx' s'') :
    body ≠ .nil ∧ EmitsBy conts ctx ctx' 0 none [(o, contsAtCall true path 0)] := by
  induction body generalizing ctx s with
  | cons e rest _ ih =>
    obtain ⟨ctx₁, s₁, he, hrest⟩ := yields_bind hok
    refine ⟨nofun, ?_⟩
    by_cases hnil : rest = .nil
    · subst hnil
      obtain ⟨rfl, -⟩ := yields_pure_iff.mp hrest
      exact tailCallIn_emits fuel path e ctx env true s 0 o s' ctx₁ s₁ (fun _ => rfl) ho he
    · rw [tailCallInBody] at ho
      · obtain ⟨ctx₁', s₁', he', ho'⟩ := yields_bind ho
        rw [decide_eq_false hnil] at he
        obtain ⟨rfl, rfl⟩ := Yields.unique he he'
        have h₁ := (((arcCompile_compiles fuel).value conts 0) ctx₁ s₁ he).2
        exact h₁.trans (ih ho' hrest).2
      · simpa using hnil
  | _ => exact absurd ho not_yields_throw

theorem tailCallInFn_emits {fuel : Nat} {args body : Value}
    (ho : Yields (tailCallInFn host fuel path args body env) s o s')
    (hok : Yields (fnContext (arcCompile host fuel) args body env) s ctx' s'') :
    EmitsBy conts arcMkcctx ctx' 0 none [(o, contsAtCall true path 0)] := by
  obtain ⟨r, s₁, hargs, ho'⟩ := yields_bind ho
  obtain ⟨r', s₁', hargs', hbody⟩ := yields_bind hok
  obtain ⟨rfl, rfl⟩ := Yields.unique hargs hargs'
  obtain ⟨nctx, s₂, hbody, hlast⟩ := yields_bind hbody
  obtain ⟨hne, hcall⟩ := tailCallInBody_emits ho' hbody
  rw [if_neg hne] at hlast
  obtain ⟨rfl, -⟩ := yields_pure_iff.mp hlast
  have h₁ := (compileArgs_emits (arcCompile_compiles fuel) (c := conts) r s₁ hargs).2
  exact h₁.trans hcall

end Emission

/-- A function is about to call another one from a tail position of its body, and
calls it. -/
inductive TailCall {W : Type} (host : Host W) (w : Registers) (path : List Branch) :
    Registers → Prop
  | call {fuel args body env s nctx s' s''} (f : Fun) :
      Yields (fnContext (arcCompile host fuel) args body env) s nctx s' →
      Yields (tailCallInFn host fuel path args body env) s w.ip s'' →
      w.fn = .code (arcCctx2code nctx) → TailCall host w path (w.enter f)

/-- A run to where the same function runs on, or one with the same continuation. -/
def Meanwhile (v w : Registers) : Prop :=
  Relation.ReflTransGen ControlStep v w ∧ w.start = v.start

/-- Functions call one another from tail positions; whatever else they call
returns. -/
inductive TailChain {W : Type} (host : Host W) (v : Registers) :
    List (List Branch) → Registers → Prop
  | one {w path w'} : Meanwhile v w → TailCall host w path w' → TailChain host v [path] w'
  | more {paths u w path w'} : TailChain host v paths u → Meanwhile u w →
      TailCall host w path w' → TailChain host v (path :: paths) w'

section Chains

variable {W : Type} {host : Host W} {v w w' : Registers} {path : List Branch}
  {paths : List (List Branch)}

theorem ControlReachable.trans (hv : ControlReachable v)
    (hrun : Relation.ReflTransGen ControlStep v w) : ControlReachable w := by
  obtain ⟨f, hf⟩ := hv
  exact ⟨f, hf.trans hrun⟩

theorem EmitsBy.callAt {ctx : Cctx} {p : Nat × Nat} (hc : EmitsBy conts arcMkcctx ctx 0 none [p]) :
    ∃ A, (arcCctx2code ctx).Paired A ∧ CallAt A 0 p := by
  obtain ⟨A, hcode, hA, hcalls⟩ := hc.code
  have hcode : ctx.code = words A := by simpa [arcMkcctx, Cctx.code] using hcode
  exact ⟨A, ⟨⟨_, by rw [arcCctx2code, hcode]⟩, ctx.lptr, hA⟩, hcalls p (by simp)⟩

/-- What is at a call from a tail position: an instruction that applies a
function, with the continuations made for it. -/
theorem TailCall.at (hw : ControlReachable w) (hcall : TailCall host w path w') :
    ControlStep w w' ∧ w'.conr.length = w.start.length + contsAtCall true path 0 ∧
      (w'.conr = w.start ↔ .thn ∉ path) := by
  cases hcall with
  | @call fuel args body env s nctx s' s'' f hcode ho hfn =>
    obtain ⟨A, hA, pre, i, suf, rfl, hi, hip⟩ := (tailCallInFn_emits ho hcode).callAt
    simp only [Nat.zero_add] at hip
    have hrun := hw.inv.running
    rw [hfn] at hrun
    obtain ⟨own, hconr, hat⟩ := hrun _ _ rfl hA
    have hown : own.length = contsAtCall true path 0 :=
      hat.unique Instr.size_pos ⟨pre, i, suf, rfl, hip⟩
    obtain ⟨⟨rest, hwords⟩, nlits, hfrag⟩ := hA
    obtain ⟨succs, hflow, -⟩ := hfrag.steps.at rfl
    have hinstr := instrAt_words hwords (flowBy_arity hflow)
    rw [hip] at hinstr
    refine ⟨.iapply f hfn hinstr hi, ?_, ?_⟩
    · change w.conr.length = _
      rw [hconr, List.length_append, hown, Nat.add_comm]
    · change w.conr = w.start ↔ _
      rw [hconr, List.append_left_eq_self, ← List.length_eq_zero_iff, hown]
      simp [contsAtCall]

theorem TailCall.conr_eq_start (hcall : TailCall host w path w') : w'.conr = w'.start := by
  cases hcall
  rfl

/-- The calls that continuations have been made for. -/
def contsMade (paths : List (List Branch)) : Nat :=
  (paths.map fun path => contsAtCall true path 0).sum

theorem contsMade_eq_zero : contsMade paths = 0 ↔ ∀ path ∈ paths, .thn ∉ path := by
  induction paths with
  | nil => simp [contsMade]
  | cons path paths ih =>
    rw [List.forall_mem_cons, ← ih]
    simp [contsMade, contsAtCall]

/-- The calls of a chain, whatever is called meanwhile. -/
theorem TailChain.runs {v' : Registers} (hv : ControlReachable v)
    (hchain : TailChain host v paths v') :
    ControlReachable v' ∧ v'.conr = v'.start ∧
      v'.conr.length = v.start.length + contsMade paths ∧
      (contsMade paths = 0 → v'.conr = v.start) := by
  induction hchain with
  | one hmean hcall =>
    have hw := hv.trans hmean.1
    obtain ⟨hstep, hlen, hconr⟩ := hcall.at hw
    rw [hmean.2] at hlen hconr
    refine ⟨hw.trans (.single hstep), hcall.conr_eq_start, by simpa [contsMade] using hlen, ?_⟩
    intro hzero
    exact hconr.mpr (by simpa using contsMade_eq_zero.mp hzero)
  | more _ hmean hcall ih =>
    obtain ⟨hu, hstart, hulen, huconr⟩ := ih
    have hw := hu.trans hmean.1
    obtain ⟨hstep, hlen, hconr⟩ := hcall.at hw
    rw [hmean.2, ← hstart] at hlen hconr
    refine ⟨hw.trans (.single hstep), hcall.conr_eq_start, ?_, ?_⟩
    · rw [hlen, hulen]
      simp only [contsMade, List.map_cons, List.sum_cons]
      omega
    · intro hzero
      have hall := contsMade_eq_zero.mp hzero
      rw [hconr.mpr (hall _ (.head _))]
      exact huconr (contsMade_eq_zero.mpr fun path hpath => hall path (.tail _ hpath))

end Chains

/-- A chain of tail calls passes on the continuation register that its first
function was started with, if and only if no call of it is in the then
expression of an if. -/
theorem tailChain_keeps_iff {W : Type} {host : Host W} {v v' : Registers}
    {paths : List (List Branch)} (hv : ControlReachable v)
    (hchain : TailChain host v paths v') :
    (v'.conr = v.start ↔ ∀ path ∈ paths, .thn ∉ path) ∧
      (v'.conr.length = v.start.length ↔ ∀ path ∈ paths, .thn ∉ path) := by
  obtain ⟨-, -, hlen, hconr⟩ := hchain.runs hv
  have hiff : v'.conr.length = v.start.length ↔ ∀ path ∈ paths, .thn ∉ path := by
    rw [← contsMade_eq_zero, hlen]
    omega
  refine ⟨⟨fun h => hiff.mp (by rw [h]), fun hall => hconr (contsMade_eq_zero.mpr hall)⟩, hiff⟩

/-- `(fn () (if x (f) (g)))`, with `x`, `f` and `g` global. -/
def branchingBody : Value :=
  listOf [listOf [.symbol .sIf, .symbol (.id 0), listOf [.symbol (.id 1)], listOf [.symbol (.id 2)]]]

def branchingContext : Cctx :=
  match fnContext (arcCompile plainHost 4) .nil branchingBody [] ⟨[], ⟨0, ()⟩⟩ with
  | .ok (nctx, _) => nctx
  | .error _ => arcMkcctx

/-- The function is about to run the instruction at an offset. -/
def branchingAt (ip : Nat) (conr : List ContFrame) : Registers :=
  ⟨.code (arcCctx2code branchingContext), ip, conr, [], []⟩

theorem branchingAt_next {ip t : Nat} {i : Instr} {conr : List ContFrame}
    (hi : (arcCctx2code branchingContext).instrAt ip = some i) (ht : t ∈ i.targets ip) :
    ControlStep (branchingAt ip conr) (branchingAt t conr) :=
  .next (s := branchingAt ip conr) rfl hi ht

theorem branchingAt_call {path : List Branch} {ip : Nat} {conr : List ContFrame}
    (hip : ∃ s', Yields (tailCallInFn plainHost 4 path .nil branchingBody []) ⟨[], ⟨0, ()⟩⟩ ip s') :
    TailCall plainHost (branchingAt ip conr) path ((branchingAt ip conr).enter (.ccode 0)) := by
  obtain ⟨s'', hip⟩ := hip
  have hcode : ∃ s', Yields (fnContext (arcCompile plainHost 4) .nil branchingBody [])
      ⟨[], ⟨0, ()⟩⟩ branchingContext s' := ⟨_, rfl⟩
  obtain ⟨s', hcode⟩ := hcode
  exact .call (.ccode 0) hcode hip rfl

/-- The call in the else expression passes on the continuation register. -/
theorem branchingElse_keeps : ∃ v', TailChain plainHost (branchingAt 0 []) [[.els]] v' ∧
    v'.conr = [] := by
  have hrun : Relation.ReflTransGen ControlStep (branchingAt 0 []) (branchingAt 16 []) :=
    ((((Relation.ReflTransGen.refl.tail
      (branchingAt_next (t := 2) (i := ⟨.ildg, [.fixnum 0]⟩) rfl (by decide))).tail
      (branchingAt_next (t := 12) (i := ⟨.ijf, [.fixnum 10]⟩) rfl (by decide))).tail
      (branchingAt_next (t := 14) (i := ⟨.ildg, [.fixnum 2]⟩) rfl (by decide))).tail
      (branchingAt_next (t := 16) (i := ⟨.imenv, [.fixnum 0]⟩) rfl (by decide)))
  have hchain : TailChain plainHost (branchingAt 0 []) [[.els]]
      ((branchingAt 16 []).enter (.ccode 0)) :=
    .one ⟨hrun, rfl⟩ (branchingAt_call ⟨_, rfl⟩)
  exact ⟨_, hchain, (tailChain_keeps_iff ⟨_, .refl⟩ hchain).1.mpr (by decide)⟩

/-- For the call in the then expression, a continuation is made. -/
theorem branchingThen_grows : ¬ ∀ v v' paths, ControlReachable v →
    TailChain plainHost v paths v' → v'.conr = v.start := by
  intro hall
  have hicont : ControlStep (branchingAt 4 [])
      (branchingAt 6 [.mk (.code (arcCctx2code branchingContext)) 10 []]) :=
    .icont (s := branchingAt 4 []) (i := ⟨.icont, [.fixnum 6]⟩) rfl rfl rfl
  have hrun : Relation.ReflTransGen ControlStep (branchingAt 0 [])
      (branchingAt 8 [.mk (.code (arcCctx2code branchingContext)) 10 []]) :=
    (((Relation.ReflTransGen.refl.tail
      (branchingAt_next (t := 2) (i := ⟨.ildg, [.fixnum 0]⟩) rfl (by decide))).tail
      (branchingAt_next (t := 4) (i := ⟨.ijf, [.fixnum 10]⟩) rfl (by decide))).tail
      hicont).tail
      (branchingAt_next (t := 8) (i := ⟨.ildg, [.fixnum 1]⟩) rfl (by decide))
  have heq := hall _ _ [[.thn]] ⟨_, .refl⟩
    (.one ⟨hrun, rfl⟩ (branchingAt_call ⟨_, rfl⟩))
  cases heq

end Arcueid
