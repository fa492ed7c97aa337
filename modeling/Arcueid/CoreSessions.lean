import Arcueid.Lib.Settling
import Arcueid.CoreRuns

/-! Expressions of the core, compiled and run one after the other on one thread: the
compiler makes code of each of them, and the values are those that evaluating gives. -/

namespace Arcueid.Core

open Outcome

section Growing

variable {W : Type} {host : Host W} {codes codes' : List Code} {κ : Places} {σ : Store} {v : CoreVal} {w : Value}

/-- Code objects that are made later change nothing. -/
theorem Coded.more {spot : Spot} {lits ws : List Value} {env : CEnv} {e : Value} (hpre : codes <+: codes')
    (h : Coded host codes spot lits env e ws) : Coded host codes' spot lits env e ws := by
  induction h with
  | literal hlit hloads => exact .literal hlit hloads
  | name hlit hacc => exact .name hlit hacc
  | quote hloads => exact .quote hloads
  | cond _ ih => exact .cond ih
  | fn hparams hn hcode hlits _ hi ih => exact .fn hparams (getElem?_kept hpre hn) hcode hlits ih hi
  | assign _ ih => exact .assign ih
  | call hspecial _ _ ihargs ihop => exact .call hspecial ihargs ihop
  | tailCall hspecial _ _ ihargs ihop => exact .tailCall hspecial ihargs ihop
  | noClause => exact .noClause
  | lastClause _ ih => exact .lastClause ih
  | clause _ _ _ ihe iht ihl => exact .clause ihe iht ihl
  | noArg => exact .noArg
  | arg _ _ ihe ihr => exact .arg ihe ihr
  | noPlace => exact .noPlace
  | place _ hacc _ ihe ihr => exact .place ihe hacc ihr
  | noBody => exact .noBody
  | lastBody _ ih => exact .lastBody ih
  | body hne _ _ ihe ihr => exact .body hne ihe ihr

theorem Holds.more (hpre : codes <+: codes') (h : Holds host codes κ v w) : Holds host codes' κ v w := by
  cases h with
  | data => exact .data
  | clos hparams hn hcode hlits hbody henv =>
    exact .clos hparams (getElem?_kept hpre hn) hcode hlits (hbody.more hpre) henv

theorem Inv.more {m : Machine} (hpre : codes <+: codes') (h : Inv host codes κ σ m.heap m.genv) :
    Inv host codes' κ σ m.heap m.genv where
  frames f a p hf := by
    obtain ⟨vals, ws, hvals, hget, hall⟩ := h.frames f a p hf
    exact ⟨vals, ws, hvals, hget, hall.imp fun _ _ hv => hv.more hpre⟩
  older := h.older
  apart := h.apart
  globals s := (h.globals s).more hpre

end Growing

section Compiling

variable {W : Type} {host : Host W} {w : W} {s : State W} {e : Value} {α β : Type}

/-- A computation comes to something as its bound grows, and keeps the globals. -/
def Succeeds (x : Nat → Comp W α) (s : State W) : Prop :=
  ∃ a s', Settling.Settles x s a s' ∧ s'.globals = s.globals

theorem Succeeds.pure {a : α} : Succeeds (fun _ => (pure a : Comp W α)) s := ⟨a, s, Settling.settles_pure, rfl⟩

theorem Succeeds.after {x : Nat → Comp W α} {f : Nat → α → Comp W β} {a : α} (hx : Settling.Settles x s a s)
    (hf : Succeeds (fun n => f n a) s) : Succeeds (fun n => x n >>= f n) s := by
  obtain ⟨b, s', hb, hs'⟩ := hf
  exact ⟨b, s', hx.bind hb, hs'⟩

theorem Succeeds.bind {x : Nat → Comp W α} {f : Nat → α → Comp W β} (h : Succeeds x s)
    (hf : ∀ a s', s'.globals = s.globals → Succeeds (fun n => f n a) s') : Succeeds (fun n => x n >>= f n) s := by
  obtain ⟨a, s', hx, hs'⟩ := h
  obtain ⟨b, s'', hb, hs''⟩ := hf a s' hs'
  exact ⟨b, s'', hx.bind hb, hs''.trans hs'⟩

theorem Succeeds.succ {x y : Nat → Comp W α} (h : Succeeds x s) (hy : ∀ n, y (n + 1) s = x n s) : Succeeds y s := by
  obtain ⟨a, s', hx, hs'⟩ := h
  exact ⟨a, s', hx.succ hy, hs'⟩

theorem Succeeds.congr {x y : Nat → Comp W α} (h : Succeeds x s) (hy : ∀ n, x n s = y n s) : Succeeds y s := by
  obtain ⟨a, s', hx, hs'⟩ := h
  exact ⟨a, s', hx.congr hy, hs'⟩

theorem compileArgsFrom_succeeds {compile : CompileFn W} {params : Value} {names : List Sym}
    (hparams : paramNames params = some names) (hne : params ≠ .nil) (envptr : Nat) {l : ArgLoop}
    (hopt : l.optargbegin = false) :
    ∃ l', Yields (compileArgsFrom compile envptr params l) s l' s := by
  induction params generalizing names l with
  | nil => exact absurd rfl hne
  | cons p rest _ ih =>
    cases p with
    | symbol t =>
      obtain ⟨names, hnames, rfl⟩ := Option.map_eq_some_iff.mp hparams
      obtain ⟨ctx, lenv, regargs, optargs, idx, begun, dsb⟩ := l
      obtain rfl : begun = false := hopt
      cases rest with
      | nil => exact ⟨_, rfl⟩
      | cons q rest =>
        obtain ⟨l', hl'⟩ := ih (l := ⟨ctx, addEnvName lenv (.symbol t) idx, regargs + 1, optargs, idx + 1, false, dsb⟩)
          hnames (by simp) rfl
        exact ⟨l', hl'⟩
      | _ => cases hnames
    | _ => cases hparams
  | _ => cases hparams

theorem compileArgs_succeeds {compile : Nat → CompileFn W} {params : Value} {names : List Sym} {env : CEnv}
    (hparams : paramNames params = some names) :
    Succeeds (fun n => compileArgs (compile n) params arcMkcctx env) s := by
  cases params with
  | nil => exact .pure
  | cons p rest =>
    have hloop : ∀ n, Yields (compileArgsFrom (compile n) arcMkcctx.vcptr (.cons p rest)
        ⟨arcEmit3 arcMkcctx .ienv (int2fix 0) (int2fix 0) (int2fix 0), [] :: env, 0, 0, 0, false, []⟩) s
        ⟨arcEmit3 arcMkcctx .ienv (int2fix 0) (int2fix 0) (int2fix 0), addNames 0 names [] :: env, 0 + names.length, 0,
          0 + names.length, false, []⟩ s := by
      intro n
      obtain ⟨l, hl⟩ := compileArgsFrom_succeeds (s := s) (l := ⟨arcEmit3 arcMkcctx .ienv (int2fix 0) (int2fix 0)
        (int2fix 0), [] :: env, 0, 0, 0, false, []⟩) hparams (by simp) arcMkcctx.vcptr rfl
      obtain ⟨-, rfl⟩ := compileArgsFrom_names hparams (by simp) rfl rfl hl
      exact hl
    exact Succeeds.after (.of_forall hloop) (Succeeds.after (.of_forall fun _ => rfl) .pure)
  | _ => cases hparams

variable (host w)

/-- The compiler gets through a part of an expression. -/
def GetsThrough : Role → Value → Prop
  | .expr, e => ∀ ctx env cont s, s.globals.world = w → Succeeds (fun n => arcCompile host n e ctx env cont) s
  | .clauses, e => ∀ ctx env cont s, s.globals.world = w →
      Succeeds (fun n => compileIf (arcCompile host n) e ctx env cont) s
  | .args, e => ∀ ctx env k s, s.globals.world = w → Succeeds (fun n => applyArgs (arcCompile host n) e ctx env k) s
  | .places, e => ∀ ctx env s, s.globals.world = w →
      Succeeds (fun n => compileAssignFrom host (arcCompile host n) (macex host n) e ctx env) s
  | .body, e => ∀ ctx env s, s.globals.world = w → Succeeds (fun n => compileBody (arcCompile host n) e ctx env) s

variable {host w}

theorem IsCore.getsThrough {role : Role} (h : IsCore host w role e) : GetsThrough host w role e := by
  induction h with
  | @literal e hlit =>
    intro ctx env cont s _
    have hpure : Succeeds (fun _ => (pure (compileLiteral host e ctx cont) : Comp W Cctx)) s := .pure
    refine hpure.succ fun n => ?_
    unfold arcCompile
    rw [if_pos hlit]
  | @name t hlit hplain =>
    intro ctx env cont s _
    have hpure : Succeeds (fun _ => (pure (compileIdent host (.symbol t) ctx env cont) : Comp W Cctx)) s := .pure
    refine hpure.succ fun n => ?_
    rw [Scope.arcCompile_symbol hlit, hplain]
    rfl
  | @quote v rest =>
    intro ctx env cont s _
    have hpure : Succeeds (fun _ => (pure (compileLiteral host v ctx cont) : Comp W Cctx)) s := .pure
    exact hpure.succ fun n => rfl
  | @cond clauses _ ih =>
    intro ctx env cont s hs
    exact (ih ctx env cont s hs).succ fun n => rfl
  | @fn params body names hparams _ ih =>
    intro ctx env cont s hs
    have hfn : Succeeds (fun n => compileFn host (arcCompile host n) (.cons params body) ctx env cont) s := by
      simp only [compileFn, car, cdr, pure_bind]
      refine (compileArgs_succeeds hparams).bind fun r s₁ hs₁ => ?_
      have hw₁ : s₁.globals.world = w := by rw [hs₁, hs]
      refine (ih r.1 r.2 s₁ hw₁).bind fun nctx s₂ _ => ?_
      exact Succeeds.bind ⟨_, _, .of_forall fun _ => rfl, rfl⟩ fun _ _ _ => .pure
    exact hfn.succ fun n => rfl
  | @assign places hne _ ih =>
    intro ctx env cont s hs
    have hassign : Succeeds (fun n => compileAssign host (arcCompile host n) (macex host n) places ctx env cont) s :=
      (ih ctx env s hs).bind fun _ _ _ => .pure
    exact hassign.succ fun n => rfl
  | @call op args hop hcore hargs ihop ihargs =>
    intro ctx env cont s hs
    obtain ⟨-, -, hspecial, hmacros⟩ := hop.plain (arcCompile host 0)
    have happly : Succeeds (fun n => compileApply host (arcCompile host n) (.cons op args) ctx env cont) s := by
      simp only [compileApply, car, cdr, pure_bind]
      refine Succeeds.after (.of_forall fun _ => hmacros s hs) ?_
      refine (ihargs _ env 0 s hs).bind fun r s₁ hs₁ => ?_
      have hw₁ : s₁.globals.world = w := by rw [hs₁, hs]
      exact (ihop r.1 env false s₁ hw₁).bind fun _ _ _ => .pure
    have hcall : Succeeds (fun n => compileCall host (arcCompile host n) (.cons op args) ctx env cont) s := by
      refine happly.congr fun n => ?_
      obtain ⟨hinline, hfun, -, -⟩ := hop.plain (arcCompile host n)
      rw [Scope.compileCall_apply hinline hfun]
    have hexpanded : Succeeds (fun n => expandList host (.cons op args) >>= fun e =>
        compileCall host (arcCompile host n) e ctx env cont) s :=
      Succeeds.after (f := fun n e => compileCall host (arcCompile host n) e ctx env cont)
        (.of_forall fun _ => expandList_core hcore hargs s) hcall
    have hlist : Succeeds (fun n => compileList host (arcCompile host n) (macex host n) op args ctx env cont) s := by
      refine hexpanded.congr fun n => ?_
      rw [Scope.compileList_app hspecial]
    exact hlist.succ fun n => rfl
  | noClause => exact fun ctx env cont s _ => .pure
  | lastClause _ ih => exact ih
  | @clause e thn els _ _ _ ihe iht ihl =>
    intro ctx env cont s hs
    refine (ihe ctx env false s hs).bind fun ctx₁ s₁ hs₁ => ?_
    have hw₁ : s₁.globals.world = w := by rw [hs₁, hs]
    refine (iht _ env false s₁ hw₁).bind fun ctx₂ s₂ hs₂ => ?_
    have hw₂ : s₂.globals.world = w := by rw [hs₂, hw₁]
    exact (ihl _ env cont s₂ hw₂).bind fun _ _ _ => .pure
  | noArg => exact fun ctx env n s _ => .pure
  | arg _ _ ihe ihr =>
    intro ctx env k s hs
    refine (ihe ctx env false s hs).bind fun ctx₁ s₁ hs₁ => ?_
    exact ihr _ env (k + 1) s₁ (by rw [hs₁, hs])
  | noPlace => exact fun ctx env s _ => .pure
  | @place t e rest ht _ _ ihe ihr =>
    intro ctx env s hs
    have htru : ¬ Value.symbol t = .symbol .sT := by
      intro heq
      rw [heq] at ht
      cases ht
    have hmacex : Settling.Settles (fun n => macex host n (.symbol t)) s (.symbol t) s :=
      Settling.settles_pure.succ fun n => rfl
    refine Succeeds.after hmacex ?_
    simp only [if_neg htru]
    refine (ihe ctx env false s hs).bind fun ctx₁ s₁ hs₁ => ?_
    exact ihr _ env s₁ (by rw [hs₁, hs])
  | noBody => exact fun ctx env s _ => .pure
  | body _ _ ihe ihr =>
    intro ctx env s hs
    refine (ihe ctx env _ s hs).bind fun ctx₁ s₁ hs₁ => ?_
    exact ihr _ env s₁ (by rw [hs₁, hs])

end Compiling

section One

variable {W : Type} {host : Host W} {rt : Runtime} {prim : Nat → List Value → Option Value} {s s₁ : State W} {w : W}
  {e code : Value} {κ : Places} {σ σ' : Store} {v : CoreVal} {m : Machine} {fuel : Nat}

theorem codeIn_core (hcore : IsCore host w .expr e) (hw : s.globals.world = w)
    (hcomp : codeIn host fuel e [] s = .ok (code, s₁)) :
    s₁.globals = s.globals ∧ s.codes <+: s₁.codes ∧ ∃ n c ws more, code = .code n ∧ s₁.codes[n]? = some c ∧
      c.code = ws ++ more ∧ Coded host s₁.codes (.expr true) c.literals [] e ws := by
  obtain ⟨ctx, s₂, hok₁, hok₂⟩ := yields_bind hcomp
  have hgrows := arcCompile_core fuel e arcMkcctx [] true s ctx s₂ hw hcore hok₁
  obtain ⟨rfl, rfl⟩ : Value.code s₂.codes.length = code ∧ { s₂ with codes := s₂.codes ++ [arcCctx2code ctx] } = s₁ := by
    cases hok₂
    exact ⟨rfl, rfl⟩
  obtain ⟨ws, hws, hcoded⟩ := hgrows.code
  refine ⟨hgrows.globals, hgrows.codes.trans (List.prefix_append _ _), _, arcCctx2code ctx, ws,
    List.replicate (ctx.vcptr + 1) .nil, rfl, by simp, ?_,
    hcoded _ _ (List.prefix_append _ _) (List.prefix_append _ _)⟩
  rw [arcCctx2code, hws]
  rfl

/-- The code of an expression runs to the value of the expression. -/
theorem codeIn_runs (hprim : Primitives rt prim) (hcore : IsCore host w .expr e) (hw : s.globals.world = w)
    (hcomp : codeIn host fuel e [] s = .ok (code, s₁)) {fuel' : Nat} (heval : eval prim fuel' e [] σ = some (v, σ'))
    (hinv : Inv host s.codes κ σ m.heap m.genv) (hconr : m.conr = .nil) :
    ∃ κ' m', Halts rt s₁.codes ({ m with valr := .clos code .nil, argc := 0 }, .fnapp) (.ok m') ∧ m'.conr = .nil ∧
      κ.Grow κ' ∧ Holds host s₁.codes κ' v m'.valr ∧ Inv host s₁.codes κ' σ' m'.heap m'.genv := by
  obtain ⟨-, hcodes, n, c, ws, more, rfl, hn, hcode, hcoded⟩ := codeIn_core hcore hw hcomp
  have hinv₁ := hinv.more hcodes
  have hstart : Reaches rt s₁.codes ({ m with valr := .clos (.code n) .nil, argc := 0 }, .fnapp)
      ({ m with valr := .clos (.code n) .nil, argc := 0, ip := 0, envr := .nil, funr := .clos (.code n) .nil },
        .resume) := .single rfl
  have hin : InCode s₁.codes c c.literals (.clos (.code n) .nil) := ⟨⟨n, .nil, rfl, hn⟩, List.prefix_rfl⟩
  have hat : CodeAt c.code 0 ws := ⟨[], more, by rw [hcode]; rfl, rfl⟩
  have houter : Outer m.slot m.sp m.conr := by
    rw [hconr]
    exact .nil
  have hhere : Here host s₁.codes κ σ [] m.sp m.sp m.conr []
      { m with valr := .clos (.code n) .nil, argc := 0, ip := 0, envr := .nil, funr := .clos (.code n) .nil } :=
    ⟨hinv₁, .heap .nil, .nil (le_refl _), houter, le_refl _⟩
  obtain ⟨κ', m', hrun, hv, hret⟩ := (eval_simulates hprim fuel').ends heval hcoded hin hat hhere
  have hnil : m'.conr = .nil := hret.conr.trans hconr
  have hend : trampoline rt s₁.codes (m', .rc) = .ok none := by
    rw [trampoline]
    simp only [hnil]
  exact ⟨κ', m', Reaches.halts (hstart.trans hrun) hend, hnil, hret.grow, hv, hret.inv⟩

end One

section Counter

/-- Functions in C are applied to what is on top of the stack. -/
def stackRuntime (prim : Nat → List Value → Option Value) : Runtime where
  isString _ := false
  arith _ _ _ := .error .stuck
  add2String := .nil
  applyOther m :=
    match m.valr with
    | .ccode n _ =>
      match prim n ((List.range m.argc).map fun i => m.slot (m.sp - m.argc + i)) with
      | some r => .ok ({ m with sp := m.sp - m.argc, valr := r }, .rc)
      | none => .error .stuck
    | _ => .error (.err "cannot apply value")
  resumeAff _ := .error .stuck

theorem primitives_stackRuntime (prim : Nat → List Value → Option Value) : Primitives (stackRuntime prim) prim := by
  intro m n env B vs r hvalr hargc hsp hslots hr
  have hB : m.sp - m.argc = B := by omega
  have hvs : ((List.range m.argc).map fun i => m.slot (B + i)) = vs := by
    refine List.ext_getElem (by simp [hargc]) fun i hi hi' => ?_
    simpa using hslots i vs[i] (List.getElem?_eq_getElem hi')
  simp only [stackRuntime, hvalr, hB, hvs, hr]

/-- Adds two numbers. -/
def plusPrim : Nat → List Value → Option Value
  | 0, [.fixnum a, .fixnum b] => some (.fixnum (a + b))
  | _, _ => none

/-- `(assign c ((fn (n) (fn (k) (assign n (plus n k)))) 10))`, then `(c 5)` and `(c 7)`. -/
def counterSession : List Value :=
  let c : Value := .symbol (.id 0)
  let n : Value := .symbol (.id 1)
  let k : Value := .symbol (.id 2)
  let plus : Value := .symbol (.id 3)
  let add := listOf [.symbol .sAssign, n, listOf [plus, n, k]]
  let counter := listOf [.symbol .sFn, listOf [n], listOf [.symbol .sFn, listOf [k], add]]
  [listOf [.symbol .sAssign, c, listOf [counter, .fixnum 10]], listOf [c, .fixnum 5], listOf [c, .fixnum 7]]

def counterGlobals : Sym → Value := Function.update (fun _ => .unbound) (.id 3) (.ccode 0 .nil)

theorem isCore_counterSession : ∀ e ∈ counterSession, IsCore plainHost () .expr e := by
  have hname : ∀ i, IsCore plainHost () .expr (.symbol (.id i)) := fun i => .name rfl rfl
  have hnum : ∀ i : Int, IsCore plainHost () .expr (.fixnum i) := fun i => .literal rfl fun s hs => rfl
  have hcall : ∀ i, Called plainHost () (.symbol (.id i)) := fun i => ⟨rfl, rfl, rfl⟩
  have hadd : IsCore plainHost () .expr
      (listOf [.symbol .sAssign, .symbol (.id 1), listOf [.symbol (.id 3), .symbol (.id 1), .symbol (.id 2)]]) :=
    .assign (by simp [listOf])
      (.place rfl (.call (hcall 3) (hname 3) (.arg (hname 1) (.arg (hname 2) .noArg))) .noPlace)
  have hcounter : IsCore plainHost () .expr (listOf [.symbol .sFn, listOf [.symbol (.id 1)],
      listOf [.symbol .sFn, listOf [.symbol (.id 2)], listOf [.symbol .sAssign, .symbol (.id 1),
        listOf [.symbol (.id 3), .symbol (.id 1), .symbol (.id 2)]]]]) :=
    .fn rfl (.body (.fn rfl (.body hadd .noBody)) .noBody)
  simp only [counterSession, List.mem_cons, List.not_mem_nil, or_false, forall_eq_or_imp, forall_eq]
  refine ⟨.assign (by simp [listOf]) (.place rfl (.call rfl hcounter (.arg (hnum 10) .noArg)) .noPlace), ?_, ?_⟩
  · exact .call (hcall 0) (hname 0) (.arg (hnum 5) .noArg)
  · exact .call (hcall 0) (hname 0) (.arg (hnum 7) .noArg)

end Counter

section Sessions

variable {W : Type} (host : Host W) (rt : Runtime)

/-- Expressions are compiled and run one after the other; the values. -/
inductive Session : State W → Machine → List Value → List Value → State W → Machine → Prop
  | done {s : State W} {m : Machine} : Session s m [] [] s m
  | next {s s₁ s' : State W} {m m₁ m' : Machine} {e code : Value} {es vs : List Value} :
      Compiled host e [] s (.ok (code, s₁)) →
      Halts rt s₁.codes ({ m with valr := .clos code .nil, argc := 0 }, .fnapp) (.ok m₁) →
      Session s₁ m₁ es vs s' m' → Session s m (e :: es) (m₁.valr :: vs) s' m'

def evalAll (ev : EvalFn) : List Value → Store → Option (List CoreVal × Store)
  | [], σ => some ([], σ)
  | e :: es, σ => do
    let (v, σ) ← ev e [] σ
    let (vs, σ) ← evalAll ev es σ
    some (v :: vs, σ)

variable {host rt} {w : W} {s : State W} {e : Value} {prim : Nat → List Value → Option Value} {m : Machine}

/-- The compiler makes code of every expression of the core. -/
theorem IsCore.compiled (hcore : IsCore host w .expr e) (hw : s.globals.world = w) :
    ∃ fuel code s₁, codeIn host fuel e [] s = .ok (code, s₁) ∧ Compiled host e [] s (.ok (code, s₁)) := by
  obtain ⟨ctx, s₁, hset, -⟩ := hcore.getsThrough arcMkcctx [] true s hw
  have hcode : Settling.Settles (fun n => codeIn host n e []) s (.code s₁.codes.length)
      { s₁ with codes := s₁.codes ++ [arcCctx2code ctx] } := hset.bind (.of_forall fun _ => rfl)
  obtain ⟨k, hk⟩ := Filter.eventually_atTop.mp hcode
  refine ⟨k, _, _, hk k (le_refl _), k, fun fuel hfuel => ⟨hk fuel hfuel, fun h => (by cases h)⟩⟩

theorem session_from {es : List Value} {fuel : Nat} {σ σ' : Store} {vs : List CoreVal} {κ : Places}
    (hprim : Primitives rt prim) (hcore : ∀ e ∈ es, IsCore host w .expr e) (hw : s.globals.world = w)
    (heval : evalAll (eval prim fuel) es σ = some (vs, σ')) (hinv : Inv host s.codes κ σ m.heap m.genv)
    (hconr : m.conr = .nil) : ∃ s' m' ws κ', Session host rt s m es ws s' m' ∧ κ.Grow κ' ∧ s.codes <+: s'.codes ∧
      List.Forall₂ (Holds host s'.codes κ') vs ws ∧ Inv host s'.codes κ' σ' m'.heap m'.genv := by
  induction es generalizing s σ vs κ m with
  | nil =>
    obtain ⟨rfl, rfl⟩ := Prod.mk.inj (Option.some.inj heval)
    exact ⟨s, m, [], κ, .done, .refl κ, List.prefix_rfl, .nil, hinv⟩
  | cons e es ih =>
    obtain ⟨⟨v, σ₁⟩, heval₁, hrest⟩ := Option.bind_eq_some_iff.mp heval
    obtain ⟨⟨us, σ₂⟩, heval₂, hvs⟩ := Option.bind_eq_some_iff.mp hrest
    obtain ⟨rfl, rfl⟩ := Prod.mk.inj (Option.some.inj hvs)
    have he := hcore e List.mem_cons_self
    obtain ⟨k, code, s₁, hcode, hcompiled⟩ := he.compiled hw
    obtain ⟨hglobals, hcodes, -⟩ := codeIn_core he hw hcode
    obtain ⟨κ₁, m₁, hhalts, hconr₁, hgrow₁, hv, hinv₁⟩ := codeIn_runs hprim he hw hcode heval₁ hinv hconr
    obtain ⟨s', m', ws, κ', hsession, hgrow, hcodes', hall, hinv'⟩ :=
      ih (fun e' he' => hcore e' (List.mem_cons_of_mem _ he')) (by rw [hglobals, hw]) heval₂ hinv₁ hconr₁
    exact ⟨s', m', m₁.valr :: ws, κ', .next hcompiled hhalts hsession, hgrow₁.trans hgrow, hcodes.trans hcodes',
      .cons ((hv.more hcodes').grow hgrow) hall, hinv'⟩

/-- A session has one end. -/
theorem Session.unique {es ws ws' : List Value} {s₁ s₂ : State W} {m₁ m₂ : Machine}
    (h : Session host rt s m es ws s₁ m₁) (h' : Session host rt s m es ws' s₂ m₂) : ws = ws' ∧ s₁ = s₂ ∧ m₁ = m₂ := by
  induction h generalizing ws' with
  | done =>
    cases h'
    exact ⟨rfl, rfl, rfl⟩
  | next hcompiled hhalts _ ih =>
    cases h' with
    | next hcompiled' hhalts' hrest =>
      cases hcompiled.unique hcompiled'
      cases hhalts.unique hhalts'
      obtain ⟨rfl, rfl, rfl⟩ := ih hrest
      exact ⟨rfl, rfl, rfl⟩

end Sessions

end Arcueid.Core
