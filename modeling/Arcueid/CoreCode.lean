import Arcueid.CoreEval

/-! The code that the compiler makes of an expression of the core, whatever stands in
front of it and behind it. -/

namespace Arcueid.Core

open Outcome

/-- The frame of the compile-time environment that holds names. -/
def addNames : Nat → List Sym → EnvFrame → EnvFrame
  | _, [], frame => frame
  | i, s :: names, frame =>
    addNames (i + 1) names ((int2fix i, .symbol s) :: (.symbol s, int2fix i) :: frame)

def frameOf (names : List Sym) : EnvFrame := addNames 0 names []

/-- The compile-time environment. -/
def cenvOf (env : Env) : CEnv := env.map fun rib => frameOf rib.names

section Positions

variable {W : Type} {host : Host W} {s : Sym}

theorem lookup_addNames (names : List Sym) (i : Nat) (frame : EnvFrame) :
    (addNames i names frame).lookup (.symbol s) =
      ((indexFrom s i names).map fun j => int2fix j).or (frame.lookup (.symbol s)) := by
  induction names generalizing i frame with
  | nil => rfl
  | cons x names ih =>
    have hne : ((Value.symbol s) == int2fix i) = false := by simp [int2fix]
    rw [addNames, ih, indexFrom, List.lookup_cons, hne]
    cases indexFrom s (i + 1) names with
    | some j => rfl
    | none =>
      by_cases hx : x = s
      · simp [hx]
      · have hxs : ((Value.symbol s) == .symbol x) = false := by simpa using Ne.symm hx
        simp [List.lookup_cons, hx, hxs]

/-- The compiler finds a variable where its value is. -/
theorem findVar_cenvOf (env : Env) : findVar host (.symbol s) (cenvOf env) = position s env := by
  induction env with
  | nil => rfl
  | cons rib env ih =>
    change findVar host (.symbol s) (frameOf rib.names :: cenvOf env) = _
    rw [findVar, position, frameOf, lookup_addNames, ← ih]
    cases hi : indexFrom s 0 rib.names with
    | some i => simp [int2fix, frameIndex]
    | none => simp

end Positions

/-- A part of an expression with what its code is to do: whether it returns, or how
many values it pushes. -/
inductive Spot where
  | expr (cont : Bool)
  | clauses (cont : Bool)
  | args (n : Nat)
  | places
  | body

def Spot.role : Spot → Role
  | .expr _ => .expr
  | .clauses _ => .clauses
  | .args _ => .args
  | .places => .places
  | .body => .body

def retWords (cont : Bool) : List Value := if cont then Instr.words ⟨.iret, []⟩ else []

/-- Code that loads a literal. -/
inductive Loads (lits : List Value) (v : Value) : List Value → Prop
  | inil : literal v = .nil → Loads lits v (Instr.words ⟨.inil, []⟩)
  | itrue : literal v = .tru → Loads lits v (Instr.words ⟨.itrue, []⟩)
  | ildi : literal v = v → Loads lits v (Instr.words ⟨.ildi, [v]⟩)
  | ildl {i : Nat} : literal v = v → lits[i]? = some v → Loads lits v (Instr.words ⟨.ildl, [int2fix i]⟩)

/-- Code that goes to a variable, with an instruction for the innermost frame, one for
the others and one for globals. -/
inductive Access {W : Type} (host : Host W) (inner outer global : Inst) (lits : List Value) (env : CEnv)
    (s : Sym) : List Value → Prop
  | inner {i : Nat} : findVar host (.symbol s) env = some (0, i) →
      Access host inner outer global lits env s (Instr.words ⟨inner, [int2fix i]⟩)
  | outer {level i : Nat} : findVar host (.symbol s) env = some (level + 1, i) →
      Access host inner outer global lits env s (Instr.words ⟨outer, [int2fix (level + 1 : Nat), int2fix i]⟩)
  | global {i : Nat} : findVar host (.symbol s) env = none → lits[i]? = some (.symbol s) →
      Access host inner outer global lits env s (Instr.words ⟨global, [int2fix i]⟩)

def entryWords (names : List Sym) : List Value :=
  if names = [] then []
  else Instr.words ⟨.ienv, [int2fix names.length, int2fix 0, int2fix 0]⟩

def entryEnv (names : List Sym) (env : CEnv) : CEnv := if names = [] then env else frameOf names :: env

/-- The code of an expression, in code objects with some literals. -/
inductive Coded {W : Type} (host : Host W) (codes : List Code) :
    Spot → List Value → CEnv → Value → List Value → Prop
  | literal {cont lits env e ws} : literalP e = true → Loads lits e ws →
      Coded host codes (.expr cont) lits env e (ws ++ retWords cont)
  | name {cont lits env s ws} : literalP (.symbol s) = false →
      Access host .ilde0 .ilde .ildg lits env s ws →
      Coded host codes (.expr cont) lits env (.symbol s) (ws ++ retWords cont)
  | quote {cont lits env v rest ws} : Loads lits v ws →
      Coded host codes (.expr cont) lits env (.cons (.symbol .sQuote) (.cons v rest)) (ws ++ retWords cont)
  | cond {cont lits env clauses ws} : Coded host codes (.clauses cont) lits env clauses ws →
      Coded host codes (.expr cont) lits env (.cons (.symbol .sIf) clauses) ws
  | fn {cont lits env params body names ws more} {n i : Nat} {c : Code} {nlits : List Value} :
      paramNames params = some names → codes[n]? = some c → c.code = entryWords names ++ ws ++ more → nlits <+: c.literals →
      Coded host codes .body nlits (entryEnv names env) body ws → lits[i]? = some (.code n) →
      Coded host codes (.expr cont) lits env (.cons (.symbol .sFn) (.cons params body))
        (Instr.words ⟨.ildl, [int2fix i]⟩ ++ Instr.words ⟨.icls, []⟩ ++ retWords cont)
  | assign {cont lits env places ws} : Coded host codes .places lits env places ws →
      Coded host codes (.expr cont) lits env (.cons (.symbol .sAssign) places) (ws ++ retWords cont)
  | call {lits env op args n wargs wop} : (∀ s, op = .symbol s → Scope.isSpecial s = false) →
      Coded host codes (.args n) lits env args wargs → Coded host codes (.expr false) lits env op wop →
      Coded host codes (.expr false) lits env (.cons op args)
        (Instr.words ⟨.icont, [int2fix (2 + wargs.length + wop.length + 2 : Nat)]⟩ ++ wargs ++ wop ++
          Instr.words ⟨.iapply, [int2fix n]⟩)
  | tailCall {lits env op args n wargs wop} : (∀ s, op = .symbol s → Scope.isSpecial s = false) →
      Coded host codes (.args n) lits env args wargs → Coded host codes (.expr false) lits env op wop →
      Coded host codes (.expr true) lits env (.cons op args)
        (wargs ++ wop ++ Instr.words ⟨.imenv, [int2fix n]⟩ ++ Instr.words ⟨.iapply, [int2fix n]⟩)
  | noClause {cont lits env} :
      Coded host codes (.clauses cont) lits env .nil (Instr.words ⟨.inil, []⟩ ++ retWords cont)
  | lastClause {cont lits env e ws} : Coded host codes (.expr cont) lits env e ws →
      Coded host codes (.clauses cont) lits env (.cons e .nil) ws
  | clause {cont lits env e thn els we wt wl} : Coded host codes (.expr false) lits env e we →
      Coded host codes (.expr false) lits env thn wt → Coded host codes (.clauses cont) lits env els wl →
      Coded host codes (.clauses cont) lits env (.cons e (.cons thn els))
        (we ++ Instr.words ⟨.ijf, [int2fix (2 + wt.length + 2 : Nat)]⟩ ++ wt ++
          Instr.words ⟨.ijmp, [int2fix (2 + wl.length : Nat)]⟩ ++ wl ++ retWords cont)
  | noArg {lits env} : Coded host codes (.args 0) lits env .nil []
  | arg {lits env e rest n we wr} : Coded host codes (.expr false) lits env e we →
      Coded host codes (.args n) lits env rest wr →
      Coded host codes (.args (n + 1)) lits env (.cons e rest) (we ++ Instr.words ⟨.ipush, []⟩ ++ wr)
  | noPlace {lits env} : Coded host codes .places lits env .nil []
  | place {lits env s e rest we ws wr} : Coded host codes (.expr false) lits env e we →
      Access host .iste0 .iste .istg lits env s ws → Coded host codes .places lits env rest wr →
      Coded host codes .places lits env (.cons (.symbol s) (.cons e rest)) (we ++ ws ++ wr)
  | noBody {lits env} : Coded host codes .body lits env .nil (Instr.words ⟨.inil, []⟩ ++ Instr.words ⟨.iret, []⟩)
  | lastBody {lits env e ws} : Coded host codes (.expr true) lits env e ws →
      Coded host codes .body lits env (.cons e .nil) ws
  | body {lits env e rest we wr} : rest ≠ .nil → Coded host codes (.expr false) lits env e we →
      Coded host codes .body lits env rest wr →
      Coded host codes .body lits env (.cons e rest) (we ++ wr)

section Growth

variable {W : Type} (host : Host W)

/-- The compiler has put the code of a part of an expression behind the code of a
context, and changed nothing else that was there. -/
structure Grows (p : Spot) (env : CEnv) (e : Value) (ctx ctx' : Cctx) (s s' : State W) : Prop where
  globals : s'.globals = s.globals
  codes : s.codes <+: s'.codes
  literals : ctx.literals <+: ctx'.literals
  code : ∃ ws, ctx'.code = ctx.code ++ ws ∧ ∀ codes lits, s'.codes <+: codes → ctx'.literals <+: lits →
    Coded host codes p lits env e ws

def CompilesCore (w : W) (compile : CompileFn W) : Prop :=
  ∀ e ctx env cont s ctx' s', s.globals.world = w → IsCore host w .expr e →
    Yields (compile e ctx env cont) s ctx' s' → Grows host (.expr cont) env e ctx ctx' s s'

variable {host} {w : W} {compile : CompileFn W} {s s' s'' : State W} {ctx ctx' ctx'' : Cctx} {env : CEnv}
  {cont : Bool} {e v : Value}

theorem continuation_code : (compileContinuation ctx cont).code = ctx.code ++ retWords cont := by
  cases cont
  · exact (List.append_nil _).symm
  · exact arcEmit_code

theorem continuation_literals : (compileContinuation ctx cont).literals = ctx.literals := by
  cases cont <;> rfl

theorem getElem?_kept {α : Type} {xs ys : List α} {i : Nat} {x : α} (h : xs <+: ys) (hi : xs[i]? = some x) :
    ys[i]? = some x := by
  obtain ⟨more, rfl⟩ := h
  rw [List.getElem?_append_left (List.getElem?_eq_some_iff.mp hi).1, hi]

theorem compileLiteral_loads (v : Value) (ctx : Cctx) (cont : Bool) :
    ctx.literals <+: (compileLiteral host v ctx cont).literals ∧
    ∃ ws, (compileLiteral host v ctx cont).code = ctx.code ++ (ws ++ retWords cont) ∧
      ∀ lits, (compileLiteral host v ctx cont).literals <+: lits → Loads lits v ws := by
  have hfound : v ≠ .nil → literal v = v → ∀ ctx₁ : Cctx,
      ctx₁ = arcEmit1 (findLiteral host ctx v).1 .ildl (int2fix (findLiteral host ctx v).2) →
      ctx.literals <+: ctx₁.literals ∧ ∃ ws, ctx₁.code = ctx.code ++ ws ∧
        ∀ lits, ctx₁.literals <+: lits → Loads lits v ws := by
    rintro hne hlit ctx₁ rfl
    obtain ⟨hcode, hlits, hget⟩ := findLiteral_found host ctx hne
    refine ⟨hlits, _, arcEmit1_code.trans (by rw [hcode]), fun lits hpre => ?_⟩
    exact .ildl hlit (getElem?_kept hpre hget)
  have hall : ∃ ctx₁, compileLiteral host v ctx cont = compileContinuation ctx₁ cont ∧
      ctx.literals <+: ctx₁.literals ∧ ∃ ws, ctx₁.code = ctx.code ++ ws ∧
        ∀ lits, ctx₁.literals <+: lits → Loads lits v ws := by
    unfold compileLiteral
    split
    · exact ⟨_, rfl, List.prefix_rfl, _, arcEmit_code, fun _ _ => .inil rfl⟩
    · exact ⟨_, rfl, List.prefix_rfl, _, arcEmit_code, fun _ _ => .inil rfl⟩
    · exact ⟨_, rfl, List.prefix_rfl, _, arcEmit_code, fun _ _ => .itrue rfl⟩
    · exact ⟨_, rfl, List.prefix_rfl, _, arcEmit_code, fun _ _ => .itrue rfl⟩
    · exact ⟨_, rfl, List.prefix_rfl, _, arcEmit1_code, fun _ _ => .ildi rfl⟩
    · next hnil' hnil htru' htru _ =>
      have hlit : literal v = v := by
        unfold literal
        split
        · exact absurd rfl hnil'
        · exact absurd rfl htru'
        · rfl
      exact ⟨_, rfl, hfound hnil hlit _ rfl⟩
  obtain ⟨ctx₁, heq, hlits, ws, hcode, hloads⟩ := hall
  rw [heq, continuation_literals, continuation_code, hcode, List.append_assoc]
  exact ⟨hlits, ws, rfl, hloads⟩

/-- Code that goes to a variable. -/
def accessCode {W : Type} (host : Host W) (inner outer global : Inst) (a : Value) (ctx : Cctx) (env : CEnv) : Cctx :=
  match findVar host a env with
  | some (0, i) => arcEmit1 ctx inner (int2fix i)
  | some (level, i) => arcEmit2 ctx outer (int2fix level) (int2fix i)
  | none =>
    let (ctx, i) := findLiteral host ctx a
    arcEmit1 ctx global (int2fix i)

theorem compileIdent_eq (a : Value) : compileIdent host a ctx env cont =
    compileContinuation (accessCode host .ilde0 .ilde .ildg a ctx env) cont := rfl

theorem assignTo_eq (a : Value) : assignTo host a ctx env =
    accessCode host .iste0 .iste .istg a ctx env := rfl

theorem accessCode_access (inner outer global : Inst) (t : Sym) (ctx : Cctx) (env : CEnv) :
    ctx.literals <+: (accessCode host inner outer global (.symbol t) ctx env).literals ∧
    ∃ ws, (accessCode host inner outer global (.symbol t) ctx env).code = ctx.code ++ ws ∧
      ∀ lits, (accessCode host inner outer global (.symbol t) ctx env).literals <+: lits →
        Access host inner outer global lits env t ws := by
  unfold accessCode
  split
  · next i hi => exact ⟨List.prefix_rfl, _, arcEmit1_code, fun _ _ => .inner hi⟩
  · next level i hne hi =>
    obtain ⟨level, rfl⟩ : ∃ l, level = l + 1 := ⟨level - 1, by
      have hpos : level ≠ 0 := hne
      omega⟩
    exact ⟨List.prefix_rfl, _, arcEmit2_code, fun _ _ => .outer hi⟩
  · next hi =>
    obtain ⟨hcode, hlits, hget⟩ := findLiteral_found host ctx (show Value.symbol t ≠ .nil by simp)
    have hwords : (arcEmit1 (findLiteral host ctx (.symbol t)).1 global
        (int2fix (findLiteral host ctx (.symbol t)).2)).code = ctx.code ++
        Instr.words ⟨global, [int2fix (findLiteral host ctx (.symbol t)).2]⟩ := by
      rw [arcEmit1_code, hcode]
    exact ⟨hlits, _, hwords, fun lits hpre => .global hi (getElem?_kept hpre hget)⟩

theorem Grows.world {p : Spot} (h : Grows host p env e ctx ctx' s s') (hw : s.globals.world = w) :
    s'.globals.world = w := by rw [h.globals, hw]

section Patching

variable {ctx₁ ctx₂ ctx₃ ctx₄ : Cctx} {op : Inst} {ws wt wl : List Value} {u : Value}

/-- A jump that is patched to lead past what follows it. -/
theorem skip_code (h : ctx'.code = (arcEmit1 ctx op u).code ++ ws) :
    (arcJmpoffset ctx' ctx.vcptr ctx'.vcptr).code =
      ctx.code ++ Instr.words ⟨op, [int2fix (2 + ws.length : Nat)]⟩ ++ ws := by
  have hcode : ctx'.code = ctx.code ++ int2fix op.opcode :: u :: ws := by
    rw [h, arcEmit1_code]
    simp [Instr.words]
  have hdist : (ctx'.vcptr : Int) - ctx.vcptr = (2 + ws.length : Nat) := by
    rw [← ctx'.code_length, hcode]
    simp
    omega
  rw [arcJmpoffset, hdist, Cctx.setVcode_code, hcode, ← ctx.code_length, set_operand]
  simp [Instr.words]

/-- The two jumps of a clause. -/
theorem branch_code (h₂ : ctx₂.code = (arcEmit1 ctx₁ .ijf u).code ++ wt) (h₃ : ctx₃ = arcEmit1 ctx₂ .ijmp v)
    (h₄ : ctx₄.code = (arcJmpoffset ctx₃ ctx₁.vcptr ctx₃.vcptr).code ++ wl) :
    (arcJmpoffset ctx₄ ctx₂.vcptr ctx₄.vcptr).code =
      ctx₁.code ++ Instr.words ⟨.ijf, [int2fix (2 + wt.length + 2 : Nat)]⟩ ++ wt ++
        Instr.words ⟨.ijmp, [int2fix (2 + wl.length : Nat)]⟩ ++ wl := by
  have hcode₃ : ctx₃.code = (arcEmit1 ctx₁ .ijf u).code ++ (wt ++ Instr.words ⟨.ijmp, [v]⟩) := by
    rw [h₃, arcEmit1_code, h₂, List.append_assoc]
  have hskip := skip_code hcode₃
  have hlen : (wt ++ Instr.words ⟨.ijmp, [v]⟩).length = wt.length + 2 := by simp [Instr.words]
  rw [hlen, ← Nat.add_assoc] at hskip
  have hcode₄ : ctx₄.code = (ctx₁.code ++ Instr.words ⟨.ijf, [int2fix (2 + wt.length + 2 : Nat)]⟩ ++ wt) ++
      int2fix Inst.ijmp.opcode :: v :: wl := by
    rw [h₄, hskip]
    simp [Instr.words]
  have hstart : ctx₂.vcptr =
      (ctx₁.code ++ Instr.words ⟨.ijf, [int2fix (2 + wt.length + 2 : Nat)]⟩ ++ wt).length := by
    rw [← ctx₂.code_length, h₂, arcEmit1_code]
    simp [Instr.words]
  have hdist : (ctx₄.vcptr : Int) - ctx₂.vcptr = (2 + wl.length : Nat) := by
    rw [hstart, ← ctx₄.code_length, hcode₄]
    simp [Instr.words]
    omega
  rw [arcJmpoffset, hdist, Cctx.setVcode_code, hcode₄, hstart, set_operand]
  simp [Instr.words]

end Patching

section Loops

variable (hc : CompilesCore host w compile)

include hc in
theorem applyArgs_grows {args : Value} {k : Nat} {r : Cctx × Nat} (hargs : IsCore host w .args args)
    (hw : s.globals.world = w) (hok : Yields (applyArgs compile args ctx env k) s r s') :
    ∃ n, r.2 = k + n ∧ Grows host (.args n) env args ctx r.1 s s' := by
  induction args generalizing ctx k s with
  | nil =>
    obtain ⟨rfl, rfl⟩ := yields_pure_iff.mp hok
    exact ⟨0, rfl, rfl, List.prefix_rfl, List.prefix_rfl, [], (List.append_nil _).symm, fun _ _ _ _ => .noArg⟩
  | cons e rest _ ih =>
    cases hargs with
    | arg he hrest =>
      obtain ⟨ctx₁, s₁, hok₁, hok₂⟩ := yields_bind hok
      have h₁ := hc e ctx env false s ctx₁ s₁ hw he hok₁
      obtain ⟨n, hn, h₂⟩ := ih hrest (h₁.world hw) hok₂
      obtain ⟨we, hwe, he'⟩ := h₁.code
      obtain ⟨wr, hwr, hr⟩ := h₂.code
      refine ⟨n + 1, by omega, h₂.globals.trans h₁.globals, h₁.codes.trans h₂.codes,
        h₁.literals.trans h₂.literals, we ++ Instr.words ⟨.ipush, []⟩ ++ wr, ?_, fun codes lits hcodes hlits => ?_⟩
      · rw [hwr, arcEmit_code, hwe]
        simp
      · exact .arg (he' codes lits (h₂.codes.trans hcodes) (h₂.literals.trans hlits)) (hr codes lits hcodes hlits)
  | _ => exact absurd hok not_yields_throw

include hc in
theorem compileBody_grows {body : Value} (hbody : IsCore host w .body body) (hne : body ≠ .nil)
    (hw : s.globals.world = w) (hok : Yields (compileBody compile body ctx env) s ctx' s') :
    Grows host .body env body ctx ctx' s s' := by
  induction body generalizing ctx s with
  | nil => exact absurd rfl hne
  | cons e rest _ ih =>
    cases hbody with
    | body he hrest =>
      obtain ⟨ctx₁, s₁, hok₁, hok₂⟩ := yields_bind hok
      have h₁ := hc e ctx env _ s ctx₁ s₁ hw he hok₁
      obtain ⟨we, hwe, he'⟩ := h₁.code
      by_cases hnil : rest = .nil
      · subst hnil
        obtain ⟨rfl, rfl⟩ := yields_pure_iff.mp hok₂
        exact ⟨h₁.globals, h₁.codes, h₁.literals, we, hwe, fun codes lits hcodes hlits =>
          .lastBody (he' codes lits hcodes hlits)⟩
      · rw [decide_eq_false hnil] at he'
        have h₂ := ih hrest hnil (h₁.world hw) hok₂
        obtain ⟨wr, hwr, hr⟩ := h₂.code
        refine ⟨h₂.globals.trans h₁.globals, h₁.codes.trans h₂.codes,
          h₁.literals.trans h₂.literals, we ++ wr, ?_, fun codes lits hcodes hlits => ?_⟩
        · rw [hwr, hwe, List.append_assoc]
        · exact .body hnil (he' codes lits (h₂.codes.trans hcodes) (h₂.literals.trans hlits))
            (hr codes lits hcodes hlits)
  | _ => exact absurd hok not_yields_throw

theorem macex_symbol {fuel : Nat} {t : Sym} {a : Value}
    (hok : Yields (macex host fuel (.symbol t)) s a s') : a = .symbol t ∧ s' = s := by
  cases fuel with
  | zero => exact absurd hok not_yields_throw
  | succ fuel =>
    obtain ⟨rfl, rfl⟩ := yields_pure_iff.mp hok
    exact ⟨rfl, rfl⟩

include hc in
theorem compileAssignFrom_grows {fuel : Nat} {places : Value} (hplaces : IsCore host w .places places)
    (hw : s.globals.world = w)
    (hok : Yields (compileAssignFrom host compile (macex host fuel) places ctx env) s ctx' s') :
    Grows host .places env places ctx ctx' s s' := by
  generalize hrole : Role.places = role at hplaces
  induction hplaces generalizing ctx s with
  | noPlace =>
    obtain ⟨rfl, rfl⟩ := yields_pure_iff.mp hok
    exact ⟨rfl, List.prefix_rfl, List.prefix_rfl, [], (List.append_nil _).symm, fun _ _ _ _ => .noPlace⟩
  | @place t e rest ht he hrest _ ih =>
    obtain ⟨a, s₁, hok₁, hok₂⟩ := yields_bind hok
    obtain ⟨rfl, rfl⟩ := macex_symbol hok₁
    have htru : ¬ Value.symbol t = .symbol .sT := by
      intro heq
      rw [heq] at ht
      cases ht
    rw [if_neg (by simp), if_neg htru] at hok₂
    obtain ⟨ctx₂, s₂, hok₂, hok₃⟩ := yields_bind hok₂
    have h₁ := hc e ctx env false s₁ ctx₂ s₂ hw he hok₂
    rw [assignTo_eq] at hok₃
    have h₂ := ih (h₁.world hw) hok₃ rfl
    obtain ⟨we, hwe, he'⟩ := h₁.code
    obtain ⟨hlits₁, ws, hws, hacc⟩ := accessCode_access .iste0 .iste .istg t ctx₂ env
    obtain ⟨wr, hwr, hr⟩ := h₂.code
    refine ⟨h₂.globals.trans h₁.globals, h₁.codes.trans h₂.codes,
      (h₁.literals.trans hlits₁).trans h₂.literals, we ++ ws ++ wr, ?_, fun codes lits hcodes hlits => ?_⟩
    · rw [hwr, hws, hwe]
      simp
    · exact .place (he' codes lits (h₂.codes.trans hcodes) ((hlits₁.trans h₂.literals).trans hlits))
        (hacc lits (h₂.literals.trans hlits)) (hr codes lits hcodes hlits)
  | _ => cases hrole

include hc in
theorem compileIf_grows {clauses : Value} (hclauses : IsCore host w .clauses clauses)
    (hw : s.globals.world = w) (hok : Yields (compileIf compile clauses ctx env cont) s ctx' s') :
    Grows host (.clauses cont) env clauses ctx ctx' s s' := by
  generalize hrole : Role.clauses = role at hclauses
  induction hclauses generalizing ctx ctx' s s' with
  | noClause =>
    obtain ⟨rfl, rfl⟩ := yields_pure_iff.mp hok
    refine ⟨rfl, List.prefix_rfl, ?_, Instr.words ⟨.inil, []⟩ ++ retWords cont, ?_, fun _ _ _ _ => .noClause⟩
    · rw [continuation_literals]
      exact List.prefix_rfl
    · rw [continuation_code, arcEmit_code, List.append_assoc]
  | lastClause he =>
    have h₁ := hc _ ctx env cont s ctx' s' hw he hok
    obtain ⟨we, hwe, he'⟩ := h₁.code
    exact ⟨h₁.globals, h₁.codes, h₁.literals, we, hwe, fun codes lits hcodes hlits =>
      .lastClause (he' codes lits hcodes hlits)⟩
  | @clause e thn els he hthn hels _ _ ih =>
    obtain ⟨ctx₁, s₁, hok₁, hrest⟩ := yields_bind hok
    obtain ⟨ctx₂, s₂, hok₂, hrest⟩ := yields_bind hrest
    obtain ⟨ctx₄, s₃, hok₃, hrest⟩ := yields_bind hrest
    obtain ⟨rfl, rfl⟩ := yields_pure_iff.mp hrest
    have h₁ := hc e ctx env false s ctx₁ s₁ hw he hok₁
    have h₂ := hc thn _ env false s₁ ctx₂ s₂ (h₁.world hw) hthn hok₂
    have h₃ := ih (h₂.world (h₁.world hw)) hok₃ rfl
    obtain ⟨we, hwe, he'⟩ := h₁.code
    obtain ⟨wt, hwt, ht'⟩ := h₂.code
    obtain ⟨wl, hwl, hl'⟩ := h₃.code
    have hlits₂ : ctx₁.literals <+: ctx₂.literals := h₂.literals
    have hlits₃ : ctx₂.literals <+: ctx₄.literals := h₃.literals
    have hbranch := branch_code hwt rfl hwl
    refine ⟨h₃.globals.trans (h₂.globals.trans h₁.globals), h₁.codes.trans (h₂.codes.trans h₃.codes), ?_,
      we ++ Instr.words ⟨.ijf, [int2fix (2 + wt.length + 2 : Nat)]⟩ ++ wt ++
          Instr.words ⟨.ijmp, [int2fix (2 + wl.length : Nat)]⟩ ++ wl ++ retWords cont, ?_,
      fun codes lits hcodes hlits => ?_⟩
    · rw [continuation_literals]
      exact h₁.literals.trans (hlits₂.trans hlits₃)
    · rw [continuation_code, hbranch, hwe]
      simp
    · rw [continuation_literals] at hlits
      exact .clause (he' codes lits ((h₂.codes.trans h₃.codes).trans hcodes) ((hlits₂.trans hlits₃).trans hlits))
        (ht' codes lits (h₃.codes.trans hcodes) (hlits₃.trans hlits)) (hl' codes lits hcodes hlits)
  | _ => cases hrole

/-- The loop over required parameters. -/
theorem compileArgsFrom_names {params : Value} {names : List Sym} (hparams : paramNames params = some names)
    (hne : params ≠ .nil) {envptr : Nat} {l l' : ArgLoop} {frame : EnvFrame} (henv : l.env = frame :: env)
    (hopt : l.optargbegin = false)
    (hok : Yields (compileArgsFrom compile envptr params l) s l' s') :
    s' = s ∧ l' = { l with
      env := addNames l.idx names frame :: env
      idx := l.idx + names.length
      regargs := l.regargs + names.length } := by
  induction params generalizing names l frame with
  | nil => exact absurd rfl hne
  | cons p rest _ ih =>
    cases p with
    | symbol t =>
      obtain ⟨names, hnames, rfl⟩ := Option.map_eq_some_iff.mp hparams
      obtain ⟨ctx, lenv, regargs, optargs, idx, begun, dsb⟩ := l
      obtain rfl : lenv = frame :: env := henv
      obtain rfl : begun = false := hopt
      rw [compileArgsFrom] at hok
      obtain ⟨l₁, s₁, hok₁, hok₂⟩ := yields_bind hok
      rw [compileArg, if_neg (by simp)] at hok₁
      obtain ⟨rfl, rfl⟩ := yields_pure_iff.mp hok₁
      cases rest with
      | nil =>
        obtain rfl := Option.some.inj hnames
        obtain ⟨rfl, rfl⟩ := yields_pure_iff.mp hok₂
        exact ⟨rfl, rfl⟩
      | cons q rest =>
        obtain ⟨rfl, rfl⟩ := ih hnames (by simp) rfl rfl hok₂
        refine ⟨rfl, ?_⟩
        simp only [List.length_cons, addNames, ArgLoop.mk.injEq, true_and, and_true]
        omega
      | _ => cases hnames
    | _ => cases hparams
  | _ => cases hparams

theorem compileArgs_names {params : Value} {names : List Sym} (hparams : paramNames params = some names)
    {r : Cctx × CEnv} (hok : Yields (compileArgs compile params arcMkcctx env) s r s') :
    s' = s ∧ r.1.literals = [] ∧ r.1.code = entryWords names ∧ r.2 = entryEnv names env := by
  cases params with
  | nil =>
    obtain rfl := Option.some.inj hparams
    obtain ⟨rfl, rfl⟩ := yields_pure_iff.mp hok
    exact ⟨rfl, rfl, rfl, rfl⟩
  | cons p rest =>
    cases p with
    | symbol t =>
      obtain ⟨l, s₁, hok₁, hok₂⟩ := yields_bind hok
      obtain ⟨rfl, rfl⟩ := compileArgsFrom_names hparams (by simp) rfl rfl hok₁
      obtain ⟨⟨ctx₁, env₁, idx⟩, s₂, hok₂, hok₃⟩ := yields_bind hok₂
      obtain ⟨heq, rfl⟩ := yields_pure_iff.mp hok₂
      cases heq
      obtain ⟨rfl, rfl⟩ := yields_pure_iff.mp hok₃
      obtain ⟨names, hnames, rfl⟩ := Option.map_eq_some_iff.mp hparams
      refine ⟨rfl, rfl, ?_, rfl⟩
      rw [patchEnv]
      simp only [Cctx.setVcode_code, arcEmit3_code]
      simp [arcMkcctx, Cctx.code, Instr.words, entryWords]
    | _ => cases hparams
  | _ => cases hparams

theorem Called.plain (compile : CompileFn W) {op : Value} (hop : Called host w op) :
    inlineFuncOf compile op = none ∧ (∀ f d, op = .cons f d → Scope.isFunctional f = false) ∧
      (∀ t, op = .symbol t → Scope.isSpecial t = false) ∧
      ∀ s : State W, s.globals.world = w → macroOf host op s = .ok (none, s) := by
  cases op with
  | symbol t =>
    obtain ⟨hspecial, hinline, hnone⟩ := hop
    refine ⟨Scope.inlineFuncOf_none hinline, fun _ _ h => (by cases h), ?_, fun s hs => ?_⟩
    · rintro _ ⟨rfl⟩
      exact hspecial
    · rw [macroOf, hs, hnone]
  | cons f d =>
    refine ⟨rfl, ?_, fun _ h => (by cases h), fun _ _ => rfl⟩
    rintro _ _ ⟨rfl, rfl⟩
    exact hop
  | _ => exact ⟨rfl, fun _ _ h => (by cases h), fun _ h => (by cases h), fun _ _ => rfl⟩

theorem expandList_core {op args : Value} (hop : IsCore host w .expr op) (hargs : IsCore host w .args args)
    (s : State W) : expandList host (.cons op args) s = .ok (.cons op args, s) := by
  have hplain : ∀ e, IsCore host w .expr e → ssexpandOf host e s = .ok (.nil, s) := by
    intro e he
    cases e with
    | symbol t =>
      have ht : host.ssexpand t = .ok .nil := by
        cases he with
        | literal _ hall => exact hall t rfl
        | name _ ht => exact ht
      rw [ssexpandOf, ht]
      rfl
    | _ => rfl
  have hone : ∀ e rest, IsCore host w .expr e → expandList host rest s = .ok (rest, s) →
      expandList host (.cons e rest) s = .ok (.cons e rest, s) := by
    intro e rest he hrest
    rw [expandList, bind_of_ok (hplain e he), bind_of_ok hrest]
    rfl
  refine hone op args hop ?_
  induction args with
  | nil => rfl
  | cons e rest _ ih =>
    cases hargs with
    | arg he hrest => exact hone e rest he (ih hrest)
  | _ => cases hargs

include hc in
theorem compileApply_grows {op args : Value} (hop : Called host w op) (hcore : IsCore host w .expr op)
    (hargs : IsCore host w .args args) (hw : s.globals.world = w)
    (hok : Yields (compileApply host compile (.cons op args) ctx env cont) s ctx' s') :
    Grows host (.expr cont) env (.cons op args) ctx ctx' s s' := by
  obtain ⟨-, -, hspecial, hnone⟩ := hop.plain compile
  rw [compileApply, car, cdr, pure_bind, pure_bind, Yields, bind_of_ok (hnone s hw)] at hok
  obtain ⟨r, s₁, hok₁, hrest⟩ := yields_bind hok
  obtain ⟨ctx₂, s₂, hok₂, hrest⟩ := yields_bind hrest
  obtain ⟨rfl, rfl⟩ := yields_pure_iff.mp hrest
  obtain ⟨n, hn, h₁⟩ := applyArgs_grows hc hargs hw hok₁
  rw [Nat.zero_add] at hn
  have h₂ := hc op r.1 env false s₁ ctx₂ s₂ (h₁.world hw) hcore hok₂
  obtain ⟨wargs, hwargs, hargs'⟩ := h₁.code
  obtain ⟨wop, hwop, hop'⟩ := h₂.code
  have hlits₁ : ctx.literals <+: r.1.literals := by
    have hall := h₁.literals
    cases cont <;> exact hall
  cases cont with
  | false =>
    have hcode : (arcEmit1 ctx₂ .iapply (int2fix r.2)).code =
        (arcEmit1 ctx .icont .nil).code ++ (wargs ++ wop ++ Instr.words ⟨.iapply, [int2fix r.2]⟩) := by
      rw [arcEmit1_code, hwop, hwargs]
      simp
    have hskip := skip_code hcode
    have hlen : 2 + (wargs ++ wop ++ Instr.words ⟨.iapply, [int2fix r.2]⟩).length =
        2 + wargs.length + wop.length + 2 := by
      simp [Instr.words]
      omega
    rw [hlen, hn] at hskip
    rw [hn]
    refine ⟨h₂.globals.trans h₁.globals, h₁.codes.trans h₂.codes, hlits₁.trans h₂.literals,
      Instr.words ⟨.icont, [int2fix (2 + wargs.length + wop.length + 2 : Nat)]⟩ ++ wargs ++ wop ++
          Instr.words ⟨.iapply, [int2fix n]⟩, ?_, fun codes lits hcodes hlits => ?_⟩
    · refine hskip.trans ?_
      simp
    · exact .call hspecial (hargs' codes lits (h₂.codes.trans hcodes) (h₂.literals.trans hlits))
        (hop' codes lits hcodes hlits)
  | true =>
    rw [hn]
    refine ⟨h₂.globals.trans h₁.globals, h₁.codes.trans h₂.codes, hlits₁.trans h₂.literals,
      wargs ++ wop ++ Instr.words ⟨.imenv, [int2fix n]⟩ ++ Instr.words ⟨.iapply, [int2fix n]⟩, ?_,
      fun codes lits hcodes hlits => ?_⟩
    · have hcode : (arcEmit1 (arcEmit1 ctx₂ .imenv (int2fix n)) .iapply (int2fix n)).code = ctx.code ++
          (wargs ++ wop ++ Instr.words ⟨.imenv, [int2fix n]⟩ ++ Instr.words ⟨.iapply, [int2fix n]⟩) := by
        rw [arcEmit1_code, arcEmit1_code, hwop, hwargs]
        simp
      exact hcode
    · exact .tailCall hspecial (hargs' codes lits (h₂.codes.trans hcodes) (h₂.literals.trans hlits))
        (hop' codes lits hcodes hlits)

include hc in
theorem compileFn_grows {params body : Value} {names : List Sym} (hparams : paramNames params = some names)
    (hbody : IsCore host w .body body) (hw : s.globals.world = w)
    (hok : Yields (compileFn host compile (.cons params body) ctx env cont) s ctx' s') :
    Grows host (.expr cont) env (.cons (.symbol .sFn) (.cons params body)) ctx ctx' s s' := by
  rw [compileFn, car, cdr, pure_bind, pure_bind] at hok
  obtain ⟨r, s₁, hok₁, hrest⟩ := yields_bind hok
  obtain ⟨rfl, hlits₁, hcode₁, henv₁⟩ := compileArgs_names hparams hok₁
  obtain ⟨nctx, s₂, hok₂, hrest⟩ := yields_bind hrest
  obtain ⟨newcode, s₃, hok₃, hrest⟩ := yields_bind hrest
  have hgrows : Grows host .body r.2 body r.1
      (if body = .nil then arcEmit (arcEmit nctx .inil) .iret else nctx) s₁ s₂ := by
    by_cases hnil : body = .nil
    · subst hnil
      obtain ⟨rfl, rfl⟩ := yields_pure_iff.mp hok₂
      refine ⟨rfl, List.prefix_rfl, List.prefix_rfl, _, ?_, fun _ _ _ _ => .noBody⟩
      rw [if_pos rfl, arcEmit_code, arcEmit_code, List.append_assoc]
    · rw [if_neg hnil]
      exact compileBody_grows hc hbody hnil hw hok₂
  generalize (if body = .nil then arcEmit (arcEmit nctx .inil) .iret else nctx) = nctx' at hok₃ hgrows
  obtain ⟨rfl, rfl⟩ : Value.code s₂.codes.length = newcode ∧
      { s₂ with codes := s₂.codes ++ [arcCctx2code nctx'] } = s₃ := by
    cases hok₃
    exact ⟨rfl, rfl⟩
  obtain ⟨rfl, rfl⟩ := yields_pure_iff.mp hrest
  obtain ⟨hcode₂, hlits₂, hget⟩ := findLiteral_found host ctx (show Value.code s₂.codes.length ≠ .nil by simp)
  obtain ⟨ws, hws, hbody'⟩ := hgrows.code
  have hclosure : (arcEmit (arcEmit1 (findLiteral host ctx (.code s₂.codes.length)).1 .ildl
      (int2fix (findLiteral host ctx (.code s₂.codes.length)).2)) .icls).code =
      ctx.code ++ (Instr.words ⟨.ildl, [int2fix (findLiteral host ctx (.code s₂.codes.length)).2]⟩ ++
        Instr.words ⟨.icls, []⟩) := by
    rw [arcEmit_code, arcEmit1_code, hcode₂, List.append_assoc]
  refine ⟨hgrows.globals, hgrows.codes.trans (List.prefix_append _ _), ?_,
    Instr.words ⟨.ildl, [int2fix (findLiteral host ctx (.code s₂.codes.length)).2]⟩ ++
      Instr.words ⟨.icls, []⟩ ++ retWords cont, ?_, fun codes lits hcodes hlits => ?_⟩
  · rw [continuation_literals]
    exact hlits₂
  · refine continuation_code.trans ?_
    rw [← List.append_assoc]
    exact congrArg (· ++ retWords cont) hclosure
  · rw [continuation_literals] at hlits
    have hnew : codes[s₂.codes.length]? = some (arcCctx2code nctx') := by
      obtain ⟨more, rfl⟩ := hcodes
      simp
    have hwords : (arcCctx2code nctx').code =
        entryWords names ++ ws ++ List.replicate (nctx'.vcptr + 1) .nil := by
      rw [arcCctx2code, hws, hcode₁]
    have hcoded : Coded host codes .body nctx'.literals (entryEnv names env) body ws := by
      rw [henv₁] at hbody'
      exact hbody' codes nctx'.literals ((List.prefix_append _ _).trans hcodes) List.prefix_rfl
    exact .fn hparams hnew hwords (List.prefix_append _ _) hcoded (getElem?_kept hlits hget)

end Loops

/-- What the compiler makes of an expression of the core. -/
theorem arcCompile_core (fuel : Nat) : CompilesCore host w (arcCompile host fuel) := by
  induction fuel with
  | zero =>
    intro e ctx env cont s ctx' s' hw he hok
    exact absurd hok not_yields_throw
  | succ fuel ih =>
    intro e ctx env cont s ctx' s' hw he hok
    by_cases hlit : literalP e = true
    · unfold arcCompile at hok
      rw [if_pos hlit] at hok
      obtain ⟨rfl, rfl⟩ := yields_pure_iff.mp hok
      obtain ⟨hlits, ws, hcode, hloads⟩ := compileLiteral_loads e ctx cont
      exact ⟨rfl, List.prefix_rfl, hlits, _, hcode, fun codes lits _ hpre => .literal hlit (hloads lits hpre)⟩
    · cases he with
      | literal h => exact absurd h hlit
      | @name t ht hplain =>
        rw [Scope.arcCompile_symbol ht, hplain] at hok
        have hident : Yields (pure (compileIdent host (.symbol t) ctx env cont)) s ctx' s' := hok
        rw [compileIdent_eq] at hident
        obtain ⟨rfl, rfl⟩ := yields_pure_iff.mp hident
        obtain ⟨hlits, ws, hcode, hacc⟩ := accessCode_access .ilde0 .ilde .ildg t ctx env
        refine ⟨rfl, List.prefix_rfl, ?_, ws ++ retWords cont, ?_, fun codes lits _ hpre => .name ht (hacc lits ?_)⟩
        · rw [continuation_literals]
          exact hlits
        · rw [continuation_code, hcode, List.append_assoc]
        · rwa [continuation_literals] at hpre
      | @quote v rest =>
        obtain ⟨rfl, rfl⟩ := yields_pure_iff.mp hok
        obtain ⟨hlits, ws, hcode, hloads⟩ := compileLiteral_loads v ctx cont
        exact ⟨rfl, List.prefix_rfl, hlits, _, hcode, fun codes lits _ hpre => .quote (hloads lits hpre)⟩
      | cond hclauses =>
        have h := compileIf_grows ih hclauses hw hok
        obtain ⟨ws, hws, hall⟩ := h.code
        exact ⟨h.globals, h.codes, h.literals, ws, hws,
          fun codes lits hcodes hpre => .cond (hall codes lits hcodes hpre)⟩
      | fn hparams hbody => exact compileFn_grows ih hparams hbody hw hok
      | assign _ hplaces =>
        obtain ⟨ctx₁, s₁, hok₁, hok₂⟩ := yields_bind hok
        obtain ⟨rfl, rfl⟩ := yields_pure_iff.mp hok₂
        have h := compileAssignFrom_grows ih hplaces hw hok₁
        obtain ⟨ws, hws, hall⟩ := h.code
        refine ⟨h.globals, h.codes, ?_, ws ++ retWords cont, ?_,
          fun codes lits hcodes hpre => .assign (hall codes lits hcodes ?_)⟩
        · rw [continuation_literals]
          exact h.literals
        · rw [continuation_code, hws, List.append_assoc]
        · rwa [continuation_literals] at hpre
      | @call op args hop hcore hargs =>
        obtain ⟨hinline, hfun, hspecial, -⟩ := hop.plain (arcCompile host fuel)
        have hlist : Yields (compileList host (arcCompile host fuel) (macex host fuel) op args ctx env cont)
            s ctx' s' := by
          rw [arcCompile, if_neg hlit] at hok
          exact hok
        rw [Scope.compileList_app hspecial, Yields, bind_of_ok (expandList_core hcore hargs s),
          Scope.compileCall_apply hinline hfun] at hlist
        exact compileApply_grows ih hop hcore hargs hw hlist

end Growth

end Arcueid.Core
