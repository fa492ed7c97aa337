import Arcueid.Bytecode
import Arcueid.Compiler
import Arcueid.Lib.Outcome

/-! Every compiled expression is well formed bytecode. A function of the
compiler that emits code for an expression in a tail position emits code that
is never left; otherwise the stack is as high after the code as before it. -/

namespace Arcueid

open StackCode Outcome

/-- The height after an expression that starts with height `h`. -/
def exitHeight (cont : Bool) (h : Nat) : Option Nat := if cont then none else some h

/-- The code objects made meanwhile are well formed. -/
def NewCodes {W : Type} (s s' : State W) : Prop :=
  ∃ new, s'.codes = s.codes ++ new ∧ ∀ c ∈ new, c.WellFormed

variable {W : Type} {c : Cost} {host : Host W} {compile : CompileFn W} {s s' s'' : State W}
  {ctx ctx' : Cctx} {env env' : CEnv} {cont : Bool} {e v : Value} {h k l n : Nat}
  {out : Option Nat}

theorem NewCodes.refl : NewCodes s s := ⟨[], by simp, by simp⟩

theorem NewCodes.trans (hs : NewCodes s s') (hs' : NewCodes s' s'') : NewCodes s s'' := by
  obtain ⟨new, heq, hwf⟩ := hs
  obtain ⟨new', heq', hwf'⟩ := hs'
  refine ⟨new ++ new', by simp [heq', heq], ?_⟩
  intro c hc
  exact (List.mem_append.mp hc).elim (hwf c) (hwf' c)

theorem NewCodes.of_eq (heq : s'.codes = s.codes) : NewCodes s s' := ⟨[], by simp [heq], by simp⟩

/-- The computation only makes well formed code objects. -/
def Makes {α : Type} (x : Comp W α) (s : State W) (Q : α → Prop) : Prop :=
  Ensures x s fun a s' => NewCodes s s' ∧ Q a

section Makes

variable {α β : Type} {x : Comp W α} {f : α → Comp W β} {Q R : α → Prop} {P : β → Prop}

theorem Makes.pure {a : α} (hQ : Q a) : Makes (Pure.pure a : Comp W α) s Q :=
  Ensures.pure ⟨.refl, hQ⟩

theorem Makes.throw {e : CompileError} : Makes (throw e : Comp W α) s Q := Ensures.throw

theorem Makes.bind (hx : Makes x s Q) (hf : ∀ a s', Q a → Makes (f a) s' P) :
    Makes (x >>= f) s P := by
  intro b s'' h
  obtain ⟨a, s', ha, hb⟩ := yields_bind h
  have hxa := hx a s' ha
  have hfb := hf a s' hxa.2 b s'' hb
  exact ⟨hxa.1.trans hfb.1, hfb.2⟩

theorem Makes.of_ok {a : α} (hx : x s = .ok (a, s)) (hf : Makes (f a) s P) :
    Makes (x >>= f) s P := by
  intro b s' h
  rw [Yields, bind_of_ok hx] at h
  exact hf b s' h

theorem Makes.mono (hx : Makes x s Q) (hQR : ∀ a, Q a → R a) : Makes x s R :=
  Ensures.mono hx fun a _ ha => ⟨ha.1, hQR a ha.2⟩

/-- A computation that leaves the code objects alone. -/
theorem Makes.of_codes (hx : ∀ a s', Yields x s a s' → s'.codes = s.codes) :
    Makes x s fun _ => True :=
  fun a s' ha => ⟨.of_eq (hx a s' ha), trivial⟩

theorem Makes.lift {r : Except CompileError α} :
    Makes (liftM r : Comp W α) s fun _ => True := by
  apply Makes.of_codes
  intro a s' ha
  obtain ⟨-, rfl⟩ := yields_lift_iff.mp ha
  rfl

end Makes

section Accessors

theorem makes_car : Makes (car v : Comp W Value) s fun _ => True := by
  cases v <;> first | exact .pure trivial | exact .throw

theorem makes_cdr : Makes (cdr v : Comp W Value) s fun _ => True := by
  cases v <;> first | exact .pure trivial | exact .throw

theorem makes_listReverseOnto {acc : Value} :
    Makes (listReverseOnto v acc : Comp W Value) s fun _ => True := by
  induction v generalizing acc with
  | nil => exact .pure trivial
  | cons a d _ ih => exact ih
  | _ => exact .throw

theorem makes_fold {final : Value} : Makes (fold v final : Comp W Value) s fun _ => True := by
  induction v generalizing s with
  | cons f rest _ ih =>
    cases rest with
    | nil => exact .pure trivial
    | _ => exact Makes.bind (P := fun _ => True) ih fun _ _ _ => .pure trivial
  | _ => exact .throw

theorem makes_ssexpandOf : Makes (ssexpandOf host v) s fun _ => True := by
  cases v <;> first | exact .lift | exact .pure trivial

theorem makes_expandList : Makes (expandList host v) s fun _ => True := by
  induction v generalizing s with
  | nil => exact .pure trivial
  | cons a d _ ih =>
    apply makes_ssexpandOf.bind
    intro x s' _
    exact ih.bind fun _ _ _ => .pure trivial
  | _ => exact .throw

theorem makes_macroOf : Makes (macroOf host v) s fun _ => True := by
  apply Makes.of_codes
  intro a s' ha
  cases v <;> (cases ha; rfl)

theorem makes_applyMacro
    {expand : Value → Globals W → Except CompileError (Value × Globals W)} :
    Makes (applyMacro expand v) s fun _ => True := by
  apply Makes.of_codes
  intro a s' ha
  cases he : expand v s.globals with
  | ok p =>
    rw [Yields, applyMacro, he] at ha
    cases ha
    rfl
  | error e =>
    rw [Yields, applyMacro, he] at ha
    cases ha

theorem makes_arcUniq : Makes (arcUniq host) s fun _ => True := by
  apply Makes.of_codes
  intro a s' ha
  cases ha
  rfl

theorem makes_andfUniqs {uniqs : Value} : Makes (andfUniqs host v uniqs) s fun _ => True := by
  induction v generalizing uniqs s with
  | nil => exact .pure trivial
  | cons a d _ ih => exact makes_arcUniq.bind fun _ _ _ => ih
  | _ => exact .throw

theorem makes_andfBody {uniqs body : Value} :
    Makes (andfBody uniqs v body : Comp W Value) s fun _ => True := by
  induction v generalizing body with
  | nil => exact .pure trivial
  | cons a d _ ih => exact ih
  | _ => exact .throw

theorem makes_macex (fuel : Nat) : Makes (macex host fuel v) s fun _ => True := by
  induction fuel generalizing v s with
  | zero => exact .throw
  | succ fuel ih =>
    cases v with
    | cons op args =>
      refine makes_macroOf.bind fun m _ _ => ?_
      cases m with
      | none => exact .pure trivial
      | some expand => exact makes_applyMacro.bind fun _ _ _ => ih
    | _ => exact .pure trivial

theorem makes_oargdef : Makes (oargdef v : Comp W Value) s fun _ => True := by
  unfold oargdef
  split
  · exact .pure trivial
  · exact makes_car

end Accessors

section Literals

theorem findLiteral_spec {lit : Value} (hlit : lit ≠ .nil) :
    Emitted c ctx (findLiteral host ctx lit).1 h (some h) ∧
      (findLiteral host ctx lit).2 < (findLiteral host ctx lit).1.lptr := by
  obtain ⟨hcode, hlits, hfound⟩ := findLiteral_found host ctx hlit
  refine ⟨⟨⟨[], by simp [hcode], .nil, nofun⟩, hlits⟩, ?_⟩
  simpa using (List.getElem?_eq_some_iff.mp hfound).1

theorem flow_literal {op : Inst} {m : Nat} (hop : op = .ildl ∨ op = .ildg ∨ op = .istg)
    (hn : n < m) : flowBy c m ⟨op, [int2fix n]⟩ h = some [(2, h)] := by
  rcases hop with rfl | rfl | rfl <;> simp [flowBy, Inst.arity, Instr.size, hn]

theorem emits_literal {op : Inst} {lit : Value} (hop : op = .ildl ∨ op = .ildg ∨ op = .istg)
    (hlit : lit ≠ .nil) :
    Emitted c ctx (arcEmit1 (findLiteral host ctx lit).1 op
      (int2fix (findLiteral host ctx lit).2)) h (some h) := by
  obtain ⟨hfind, hlt⟩ : Emitted c ctx (findLiteral host ctx lit).1 h (some h) ∧ _ :=
    findLiteral_spec hlit
  exact hfind.trans (emits_arcEmit1 (flow_literal hop hlt))

theorem EmitsBy.continuation {calls : List (Nat × Nat)} (hc : EmitsBy c ctx ctx' h (some h) calls)
    (hcont : cont = true → h = 0) :
    EmitsBy c ctx (compileContinuation ctx' cont) h (exitHeight cont h) calls := by
  cases cont with
  | false => exact hc
  | true =>
    obtain rfl := hcont rfl
    have hret := hc.trans emits_iret
    rwa [List.append_nil] at hret

theorem compileLiteral_emits {lit : Value} (hcont : cont = true → h = 0) :
    Emitted c ctx (compileLiteral host lit ctx cont) h (exitHeight cont h) := by
  refine EmitsBy.continuation ?_ hcont
  split
  · exact emits_arcEmit rfl
  · exact emits_arcEmit rfl
  · exact emits_arcEmit rfl
  · exact emits_arcEmit rfl
  · exact emits_arcEmit1 rfl
  · next hnil _ _ _ => exact emits_literal (.inl rfl) hnil

theorem compileIdent_emits {x : Sym} (hcont : cont = true → h = 0) :
    Emitted c ctx (compileIdent host (.symbol x) ctx env cont) h (exitHeight cont h) := by
  refine EmitsBy.continuation ?_ hcont
  split
  · exact emits_arcEmit1 rfl
  · exact emits_arcEmit2 rfl
  · exact emits_literal (.inr (.inl rfl)) nofun

end Literals

/-- What every expression is compiled to, in a tail position only on an empty
stack. -/
def Compiles (compile : CompileFn W) : Prop :=
  ∀ c e ctx env cont s h, (cont = true → h = 0) →
    Makes (compile e ctx env cont) s fun ctx' => Emitted c ctx ctx' h (exitHeight cont h)

/-- An instruction that takes a word from the stack. -/
def Combines (c : Cost) (inst : Inst) : Prop :=
  ∀ m h, flowBy c m ⟨inst, []⟩ (h + c.push) = some [(1, h)]

section Forms

theorem exitHeight_eq {m : Nat} (hcont : cont = true → h = 0) :
    ∀ k, exitHeight cont m = some k → k = m := by
  intro k hk
  cases cont with
  | false => exact (Option.some.inj hk).symm
  | true => cases hk

variable (hcompile : Compiles compile)

include hcompile

omit hcompile in
theorem combines_ipop {inst : Inst}
    (hinst : inst = .ipop ∨ inst = .iadd ∨ inst = .isub ∨ inst = .imul ∨ inst = .idiv ∨
      inst = .icons) : Combines c inst := by
  intro m h
  rcases hinst with rfl | rfl | rfl | rfl | rfl | rfl <;> simp [flowBy, Inst.arity, Instr.size]

theorem Compiles.value (c : Cost) (h : Nat) :
    Makes (compile e ctx env false) s fun ctx' => Emitted c ctx ctx' h (some h) :=
  hcompile c e ctx env false s h nofun

theorem compileIf_emits (hcont : cont = true → h = 0) :
    Makes (compileIf compile e ctx env cont) s fun ctx' =>
      Emitted c ctx ctx' h (exitHeight cont h) := by
  induction e, ctx, env, cont using compileIf.induct generalizing s with
  | case1 ctx env cont => exact .pure (EmitsBy.continuation (emits_arcEmit rfl) hcont)
  | case2 e ctx env cont => exact hcompile c e ctx env cont s h hcont
  | case3 e thn els ctx env cont ih =>
    rw [compileIf]
    refine (hcompile.value c h).bind fun ctx₁ s₁ h₁ => (hcompile.value c h).bind fun ctx₂ s₂ h₂ => ?_
    refine (ih ctx₁ ctx₂ hcont).bind fun ctx₃ s₃ h₃ => .pure ?_
    exact (h₁.trans (h₂.branch rfl h₃ (exitHeight_eq hcont))).continuation hcont
  | case4 e d ctx env cont _ _ =>
    rw [compileIf]
    · exact (hcompile.value c 0).bind fun _ _ _ => .throw
    all_goals assumption
  | case5 v ctx env cont _ _ _ _ =>
    rw [compileIf]
    · exact .throw
    all_goals assumption

/-- The code for a pattern leaves the stack as it was. -/
def Binds (c : Cost) (ctx : Cctx) (h : Nat) (r : Cctx × CEnv × Nat) : Prop := Emitted c ctx r.1 h (some h)

omit hcompile in
theorem destructureSymbol_binds : Binds c ctx h (destructureSymbol v ctx env n) := by
  have hnil : Emitted c (arcEmit1 ctx .ijbnd (int2fix 0))
      (arcEmit (arcEmit1 ctx .ijbnd (int2fix 0)) .inil) h (some h) := emits_arcEmit rfl
  have hskip := hnil.skip (k := h) (by simp) fun _ _ => flow_ijbnd
  exact hskip.trans (emits_arcEmit1 rfl)

theorem destructureOptional_binds :
    Makes (destructureOptional compile v ctx env n) s (Binds c ctx h) := by
  refine makes_car.bind fun name s₁ _ => ?_
  split
  · refine makes_cdr.bind fun _ _ _ => makes_oargdef.bind fun _ _ _ => ?_
    refine (hcompile.value c h).bind fun ctx₁ s₂ h₁ => .pure ?_
    have hskip := h₁.skip (k := h) (by simp) fun _ _ => flow_ijbnd
    exact hskip.trans (emits_arcEmit1 rfl)
  · exact .throw

theorem destructure_binds {optional : Bool} :
    Makes (destructure compile v ctx env n optional) s (Binds c ctx h) := by
  induction v generalizing ctx env n optional s h with
  | symbol x => exact .pure destructureSymbol_binds
  | cons a d iha ihd =>
    have hopt : Makes (isOptional a d optional : Comp W Bool) s fun _ => True := by
      unfold isOptional
      split
      · exact makes_car.bind fun _ _ _ => .pure trivial
      · exact .pure trivial
    refine hopt.bind fun b s₁ _ => ?_
    split
    · exact destructureOptional_binds hcompile
    split
    · refine Makes.bind (iha (h := h + c.push)) fun r₁ s₂ h₁ => ?_
      have hpush : Emitted c ctx (arcEmit ctx .ipush) h (some (h + c.push)) := emits_arcEmit rfl
      have hcar : Emitted c (arcEmit ctx .ipush) (arcEmit (arcEmit ctx .ipush) .idcar) (h + c.push)
        (some (h + c.push)) := emits_arcEmit rfl
      have hpop : Emitted c r₁.1 (arcEmit r₁.1 .ipop) (h + c.push) (some h) :=
        emits_arcEmit (combines_ipop (.inl rfl) _ _)
      have hcdr : Emitted c (arcEmit r₁.1 .ipop) (arcEmit (arcEmit r₁.1 .ipop) .idcdr) h (some h) :=
        emits_arcEmit rfl
      refine Makes.mono (ihd (h := h)) fun r₂ h₂ => ?_
      exact (hpush.trans (hcar.trans h₁)).trans (hpop.trans (hcdr.trans h₂))
    split
    · exact Makes.mono (iha (h := h)) fun r h₁ => (emits_arcEmit rfl).trans h₁
    split
    · exact Makes.mono (ihd (h := h)) fun r h₁ => (emits_arcEmit rfl).trans h₁
    · exact .pure .refl
  | _ => exact .throw

theorem compileDsb_binds {dsb : List (Value × Nat)} :
    Makes (compileDsb compile dsb ctx env n) s (Binds c ctx h) := by
  induction dsb generalizing ctx env n s with
  | nil => exact .pure .refl
  | cons p dsb ih =>
    refine (destructure_binds hcompile (c := c) (h := h)).bind fun r s₁ h₁ => ?_
    refine Makes.mono ih fun r' h₂ => ?_
    exact (emits_arcEmit1 rfl).trans (h₁.trans h₂)

theorem compileOptional_emits {l : ArgLoop} :
    Makes (compileOptional compile v l) s fun l' => Emitted c l.ctx l'.ctx 0 (some 0) := by
  refine makes_car.bind fun name s₁ _ => ?_
  split
  · refine makes_cdr.bind fun _ _ _ => makes_oargdef.bind fun _ _ _ => ?_
    refine (hcompile.value c 0).bind fun ctx₁ s₂ h₁ => .pure ?_
    have hstore : Emitted c ctx₁ (arcEmit1 ctx₁ .iste0 (int2fix l.idx)) 0 (some 0) :=
      emits_arcEmit1 rfl
    have hskip := (h₁.trans hstore).skip (k := 0) (by simp) fun _ _ => flow_ijbnd
    exact (emits_arcEmit1 rfl).trans hskip
  · exact .throw

theorem compileArg_emits {l : ArgLoop} :
    Makes (compileArg compile v l) s fun l' => Emitted c l.ctx l'.ctx 0 (some 0) := by
  unfold compileArg
  split
  · split
    · exact .throw
    · exact .pure .refl
  · exact compileOptional_emits hcompile
  · exact .pure .refl
  · exact .pure .refl
  · exact .throw

/-- The arguments are emitted after an environment instruction, which a rest
argument changes. -/
theorem compileArgsFrom_emits {l : ArgLoop} {x y z : Value}
    (hl : Emitted c (arcEmit3 ctx .ienv x y z) l.ctx 0 (some 0)) :
    Makes (compileArgsFrom compile ctx.vcptr v l) s fun l' =>
      ∃ op, (op = .ienv ∨ op = .ienvr) ∧
        Emitted c (arcEmit3 ctx op x y z) l'.ctx 0 (some 0) := by
  induction v generalizing l s with
  | cons arg rest _ ih =>
    rw [compileArgsFrom]
    refine (compileArg_emits hcompile (c := c)).bind fun l₁ s₁ h₁ => ?_
    have hl₁ := hl.trans h₁
    have hmore : Makes (compileArgsFrom compile ctx.vcptr rest l₁) s₁ fun l' =>
      ∃ op, (op = .ienv ∨ op = .ienvr) ∧
        Emitted c (arcEmit3 ctx op x y z) l'.ctx 0 (some 0) := ih hl₁
    cases rest with
    | nil => exact .pure ⟨.ienv, .inl rfl, hl₁⟩
    | symbol r =>
      refine .pure ⟨.ienvr, .inr rfl, ?_, hl₁.literals⟩
      obtain ⟨A, hcode, hf⟩ := hl₁.code
      refine ⟨A, ?_, hf⟩
      rw [Cctx.setVcode_code, hcode, arcEmit3_code, arcEmit3_code, ← ctx.code_length]
      simp [Instr.words, List.set_append_right]
    | _ => exact hmore
  | _ => exact .throw

theorem compileArgs_emits :
    Makes (compileArgs compile v ctx env) s fun r => Emitted c ctx r.1 0 (some 0) := by
  cases v with
  | nil => exact .pure .refl
  | symbol x => exact .pure (emits_arcEmit3 rfl)
  | cons a d =>
    refine Makes.bind (compileArgsFrom_emits hcompile (c := c) .refl) fun l s₁ hl => ?_
    obtain ⟨op, hop, hl⟩ := hl
    refine (compileDsb_binds hcompile (c := c) (h := 0)).bind fun r s₂ hr => .pure ?_
    exact (hl.trans hr).patchEnv hop
  | _ => exact .throw

theorem compileBody_emits :
    Makes (compileBody compile v ctx env) s fun ctx' =>
      Emitted c ctx ctx' 0 (if v = .nil then some 0 else none) := by
  induction v generalizing ctx s with
  | nil => exact .pure .refl
  | cons e rest _ ih =>
    refine (hcompile c e ctx env _ s 0 fun _ => rfl).bind fun ctx₁ s₁ h₁ => ?_
    by_cases hrest : rest = .nil
    · subst hrest
      exact .pure h₁
    · rw [decide_eq_false hrest] at h₁
      refine Makes.mono ih fun ctx₂ h₂ => ?_
      rw [if_neg hrest] at h₂
      exact h₁.trans h₂
  | _ => exact .throw

omit hcompile in
theorem makes_mkCode (hwf : (arcCctx2code ctx).WellFormed) :
    Makes (mkCode ctx : Comp W Value) s fun v => v ≠ .nil := by
  intro v s' hv
  cases hv
  refine ⟨⟨[arcCctx2code ctx], rfl, ?_⟩, nofun⟩
  intro c hc
  rw [List.mem_singleton.mp hc]
  exact hwf

theorem compileFn_emits (hcont : cont = true → h = 0) :
    Makes (compileFn host compile v ctx env cont) s fun ctx' =>
      Emitted c ctx ctx' h (exitHeight cont h) := by
  refine makes_car.bind fun args _ _ => makes_cdr.bind fun body _ _ => ?_
  refine (compileArgs_emits hcompile (c := ⟨1, 6⟩)).bind fun r _ hargs => ?_
  refine (compileBody_emits hcompile (c := ⟨1, 6⟩)).bind fun nctx _ hbody => ?_
  have hclosed : Emitted ⟨1, 6⟩ arcMkcctx
      (if body = .nil then arcEmit (arcEmit nctx .inil) .iret else nctx) 0 none := by
    split at hbody
    · next hnil =>
      rw [if_pos hnil]
      exact hargs.trans (hbody.trans ((emits_arcEmit rfl).trans emits_iret))
    · next hnil =>
      rw [if_neg hnil]
      exact hargs.trans hbody
  refine (makes_mkCode hclosed.emits.wellFormed).bind fun newcode _ hcode => .pure ?_
  exact ((emits_literal (.inl rfl) hcode).trans (emits_arcEmit rfl)).continuation hcont

theorem compileAssignFrom_emits {macex : Value → Comp W Value}
    (hmacex : ∀ v s, Makes (macex v) s fun _ => True) :
    Makes (compileAssignFrom host compile macex v ctx env) s fun ctx' =>
      Emitted c ctx ctx' h (some h) := by
  induction v, ctx, env using compileAssignFrom.induct host generalizing s with
  | case1 ctx env => exact .pure .refl
  | case2 place val rest ctx env ih =>
    rw [compileAssignFrom]
    refine (hmacex place s).bind fun a s₁ _ => ?_
    split
    · exact .throw
    split
    · exact .throw
    · next hnil _ =>
      refine (hcompile.value c h).bind fun ctx₁ s₂ h₁ => ?_
      have hstore : Emitted c ctx₁ (assignTo host a ctx₁ env) h (some h) := by
        unfold assignTo
        split
        · exact emits_arcEmit1 rfl
        · exact emits_arcEmit2 rfl
        · exact emits_literal (.inr (.inr rfl)) hnil
      exact Makes.mono (ih a ctx₁) fun ctx₂ h₂ => h₁.trans (hstore.trans h₂)
  | case3 place d ctx env _ =>
    rw [compileAssignFrom]
    · exact (hmacex place s).bind fun _ _ _ => .throw
    all_goals assumption
  | case4 v ctx env _ _ _ =>
    rw [compileAssignFrom]
    · exact .throw
    all_goals assumption

theorem compileAssign_emits {macex : Value → Comp W Value}
    (hmacex : ∀ v s, Makes (macex v) s fun _ => True) (hcont : cont = true → h = 0) :
    Makes (compileAssign host compile macex v ctx env cont) s fun ctx' =>
      Emitted c ctx ctx' h (exitHeight cont h) :=
  (compileAssignFrom_emits hcompile hmacex (c := c)).bind fun _ _ h₁ => .pure (h₁.continuation hcont)

omit hcompile in
theorem emits_ipush : Emitted c ctx (arcEmit ctx .ipush) (h + c.push * n)
    (some (h + c.push * (n + 1))) := by
  rw [Nat.mul_succ, ← Nat.add_assoc]
  exact emits_arcEmit rfl

theorem inlineArgs_emits {d : Value} :
    Makes (inlineArgs compile (.cons e d) ctx env n) s fun r =>
      n < r.2 ∧ Emitted c ctx r.1 (h + c.push * n) (some (h + c.push * (r.2 - 1))) := by
  induction d generalizing e ctx n s with
  | nil =>
    refine (hcompile.value c (h + c.push * n)).bind fun ctx₁ s₁ h₁ => .pure ?_
    exact ⟨Nat.lt_succ_self n, h₁⟩
  | cons e' d _ ih =>
    refine (hcompile.value c (h + c.push * n)).bind fun ctx₁ s₁ h₁ => ?_
    refine Makes.mono ih fun r hr => ⟨Nat.lt_of_succ_lt hr.1, ?_⟩
    exact h₁.trans (emits_ipush.trans hr.2)
  | _ => exact (hcompile.value c 0).bind fun _ _ _ => .throw

theorem inlineFunc_emits {instr : Inst} (hn : 0 < n)
    (hflow : ∀ m, flowBy c m ⟨instr, []⟩ (h + c.push * (n - 1)) = some [(1, h)]) (hcont : cont = true → h = 0) :
    Makes (inlineFunc compile instr n v ctx env cont) s fun ctx' =>
      Emitted c ctx ctx' h (exitHeight cont h) := by
  refine makes_cdr.bind fun args s₁ _ => ?_
  have hargs : Makes (inlineArgs compile args ctx env 0) s₁ fun r =>
      r.2 = n → Emitted c ctx r.1 h (some (h + c.push * (n - 1))) := by
    cases args with
    | nil => exact .pure fun h0 => absurd h0 (Nat.ne_of_lt hn)
    | cons e d =>
      refine Makes.mono (inlineArgs_emits hcompile (c := c) (h := h)) fun r hr heq => ?_
      rw [← heq]
      exact hr.2
    | _ => exact .throw
  refine hargs.bind fun r s₂ hr => ?_
  by_cases heq : r.2 = n
  · simp only [heq, if_true]
    exact .pure (((hr heq).trans (emits_arcEmit (hflow _))).continuation hcont)
  · simp only [heq, if_false]
    exact .throw

theorem inlinenFrom_emits {inst : Inst} (hinst : Combines c inst) :
    Makes (inlinenFrom compile inst v ctx env) s fun ctx' => Emitted c ctx ctx' h (some h) := by
  induction v generalizing ctx s with
  | nil => exact .pure .refl
  | cons e d _ ih =>
    refine (hcompile.value c (h + c.push)).bind fun ctx₁ s₁ h₁ => ?_
    have hpush : Emitted c ctx (arcEmit ctx .ipush) h (some (h + c.push)) := emits_arcEmit rfl
    have hinst : Emitted c ctx₁ (arcEmit ctx₁ inst) (h + c.push) (some h) := emits_arcEmit (hinst _ _)
    exact Makes.mono ih fun ctx₂ h₂ => (hpush.trans h₁).trans (hinst.trans h₂)
  | _ => exact .throw

theorem compileInlinen_emits {inst : Inst} {base : Value} (hinst : Combines c inst)
    (hcont : cont = true → h = 0) :
    Makes (compileInlinen compile inst v ctx env cont base) s fun ctx' =>
      Emitted c ctx ctx' h (exitHeight cont h) := by
  refine (hcompile.value c h).bind fun ctx₁ _ h₁ => makes_cdr.bind fun args _ _ => ?_
  refine (inlinenFrom_emits hcompile hinst (h := h)).bind fun ctx₂ _ h₂ => .pure ?_
  exact (h₁.trans h₂).continuation hcont

theorem compileInlinen2_emits {inst : Inst} {base : Value} (hinst : Combines c inst)
    (hcont : cont = true → h = 0) :
    Makes (compileInlinen2 compile inst v ctx env cont base) s fun ctx' =>
      Emitted c ctx ctx' h (exitHeight cont h) := by
  refine makes_cdr.bind fun xexpr _ _ => ?_
  split
  · exact .throw
  · exact compileInlinen_emits hcompile hinst hcont
  · refine makes_car.bind fun _ _ _ => makes_cdr.bind fun _ _ _ => makes_car.bind fun _ _ _ => ?_
    exact compileInlinen_emits hcompile hinst hcont

theorem inlinePlus_emits (hcont : cont = true → h = 0) :
    Makes (inlinePlus compile v ctx env cont) s fun ctx' =>
      Emitted c ctx ctx' h (exitHeight cont h) := by
  refine makes_cdr.bind fun xexpr _ _ => ?_
  split
  · exact hcompile _ _ _ _ _ _ _ hcont
  · exact makes_car.bind fun _ _ _ => hcompile _ _ _ _ _ _ _ hcont
  · exact compileInlinen2_emits hcompile (combines_ipop (by simp)) hcont

theorem inlineFuncOf_emits {op : Value} {inline : Value → Cctx → CEnv → Bool → Comp W Cctx}
    (hop : inlineFuncOf compile op = some inline) (hcont : cont = true → h = 0) :
    Makes (inline v ctx env cont) s fun ctx' => Emitted c ctx ctx' h (exitHeight cont h) := by
  unfold inlineFuncOf at hop
  split at hop <;> cases hop
  · refine inlineFunc_emits hcompile (by decide) (fun m => ?_) hcont
    rw [Nat.mul_one]
    exact combines_ipop (by simp) m h
  · exact inlineFunc_emits hcompile (by decide) (fun _ => rfl) hcont
  · exact inlineFunc_emits hcompile (by decide) (fun _ => rfl) hcont
  · exact inlinePlus_emits hcompile hcont
  · exact compileInlinen_emits hcompile (combines_ipop (by simp)) hcont
  · exact compileInlinen2_emits hcompile (combines_ipop (by simp)) hcont
  · exact compileInlinen2_emits hcompile (combines_ipop (by simp)) hcont

theorem compileCompose_emits (hcont : cont = true → h = 0) :
    Makes (compileCompose compile v ctx env cont) s fun ctx' =>
      Emitted c ctx ctx' h (exitHeight cont h) :=
  makes_car.bind fun _ _ _ => makes_cdr.bind fun _ _ _ => makes_cdr.bind fun _ _ _ =>
    makes_fold.bind fun _ _ _ => hcompile _ _ _ _ _ _ _ hcont

theorem compileComplement_emits (hcont : cont = true → h = 0) :
    Makes (compileComplement compile v ctx env cont) s fun ctx' =>
      Emitted c ctx ctx' h (exitHeight cont h) := by
  refine makes_car.bind fun _ _ _ => makes_cdr.bind fun _ _ _ => makes_cdr.bind fun _ _ _ =>
    makes_cdr.bind fun _ _ _ => ?_
  split
  · exact .throw
  · exact makes_car.bind fun _ _ _ => hcompile _ _ _ _ _ _ _ hcont

theorem compileAndf_emits (hcont : cont = true → h = 0) :
    Makes (compileAndf host compile v ctx env cont) s fun ctx' =>
      Emitted c ctx ctx' h (exitHeight cont h) :=
  makes_cdr.bind fun _ _ _ => makes_andfUniqs.bind fun _ _ _ => makes_car.bind fun _ _ _ =>
    makes_cdr.bind fun _ _ _ => makes_andfBody.bind fun _ _ _ =>
      makes_listReverseOnto.bind fun _ _ _ => hcompile _ _ _ _ _ _ _ hcont

theorem applyArgs_emits :
    Makes (applyArgs compile v ctx env n) s fun r =>
      Emitted c ctx r.1 (h + c.push * n) (some (h + c.push * r.2)) := by
  induction v generalizing ctx n s with
  | nil => exact .pure .refl
  | cons e d _ ih =>
    refine (hcompile.value c (h + c.push * n)).bind fun ctx₁ s₁ h₁ => ?_
    refine Makes.mono ih fun r hr => ?_
    exact h₁.trans (emits_ipush.trans hr)
  | _ => exact .throw

/-- A call of a function: where it is in the code, and the height there. -/
theorem compileApply_calls {f args : Value} (hm : macroOf host f s = .ok (none, s))
    (hcont : cont = true → h = 0) :
    Makes (compileApply host compile (.cons f args) ctx env cont) s fun ctx' => ∃ n,
      EmitsBy c ctx ctx' h (exitHeight cont h)
        [(ctx'.vcptr - 2, (if cont then 0 else h + c.cont) + c.push * n)] := by
  rw [compileApply, car, cdr, pure_bind, pure_bind]
  refine Makes.of_ok hm ?_
  cases cont with
  | false =>
    refine Makes.bind (applyArgs_emits hcompile (c := c) (h := h + c.cont)) fun r _ hr => ?_
    refine (hcompile.value c (h + c.cont + c.push * r.2)).bind fun ctx₁ _ h₁ => .pure ⟨r.2, ?_⟩
    have happly := (hr.trans h₁).trans (emits_iapply (Nat.le_add_left _ (h + c.cont)))
    exact happly.skip (k := h) nofun fun _ _ => flow_icont
  | true =>
    obtain rfl := hcont rfl
    refine Makes.bind (applyArgs_emits hcompile (c := c) (h := 0)) fun r _ hr => ?_
    refine (hcompile.value c (0 + c.push * r.2)).bind fun ctx₁ _ h₁ => .pure ⟨r.2, ?_⟩
    have hmenv : Emitted c ctx₁ (arcEmit1 ctx₁ .imenv (int2fix r.2)) (0 + c.push * r.2)
        (some (0 + c.push * r.2)) := by
      apply emits_arcEmit1
      simp [flowBy, Inst.arity, Instr.size]
    exact (hr.trans h₁).trans (hmenv.trans (emits_iapply (Nat.le_add_left _ 0)))

theorem compileApply_emits (hcont : cont = true → h = 0) :
    Makes (compileApply host compile v ctx env cont) s fun ctx' =>
      Emitted c ctx ctx' h (exitHeight cont h) := by
  cases v with
  | cons f args =>
    have hmacro : ∃ m, macroOf host f s = .ok (m, s) := by
      cases f with
      | symbol x => exact ⟨_, rfl⟩
      | _ => exact ⟨_, rfl⟩
    obtain ⟨m, hm⟩ := hmacro
    cases m with
    | none => exact Makes.mono (compileApply_calls hcompile hm hcont) fun _ ⟨_, hc⟩ => hc.forget
    | some expand =>
      rw [compileApply, car, cdr, pure_bind, pure_bind]
      exact Makes.of_ok hm (makes_applyMacro.bind fun _ _ _ => hcompile _ _ _ _ _ _ _ hcont)
  | _ => exact .throw

theorem compileCall_emits (hcont : cont = true → h = 0) :
    Makes (compileCall host compile v ctx env cont) s fun ctx' =>
      Emitted c ctx ctx' h (exitHeight cont h) := by
  refine makes_car.bind fun op _ _ => ?_
  split
  · next hop => exact inlineFuncOf_emits hcompile hop hcont
  split
  · exact compileCompose_emits hcompile hcont
  · exact compileComplement_emits hcompile hcont
  · exact compileAndf_emits hcompile hcont
  · exact compileApply_emits hcompile hcont

theorem compileList_emits {macex : Value → Comp W Value} {op rest : Value}
    (hmacex : ∀ v s, Makes (macex v) s fun _ => True) (hcont : cont = true → h = 0) :
    Makes (compileList host compile macex op rest ctx env cont) s fun ctx' =>
      Emitted c ctx ctx' h (exitHeight cont h) := by
  unfold compileList
  split
  · exact compileIf_emits hcompile hcont
  · exact compileFn_emits hcompile hcont
  · exact makes_car.bind fun _ _ _ => .pure (compileLiteral_emits hcont)
  · exact compileAssign_emits hcompile hmacex hcont
  · exact makes_expandList.bind fun _ _ _ => compileCall_emits hcompile hcont

end Forms

theorem arcCompile_compiles (fuel : Nat) : Compiles (arcCompile host fuel) := by
  induction fuel with
  | zero =>
    intro c e ctx env cont s h hcont
    exact .throw
  | succ fuel ih =>
    intro c e ctx env cont s h hcont
    unfold arcCompile
    split
    · exact .pure (compileLiteral_emits hcont)
    split
    · refine Makes.lift.bind fun ssx s₁ _ => ?_
      split
      · exact .pure (compileIdent_emits hcont)
      · exact ih _ _ _ _ _ _ _ hcont
    · exact compileList_emits ih (fun _ _ => makes_macex fuel) hcont
    · exact .throw

/-- Every expression compiles to well formed bytecode, in a context of its own
and after other code, and so does every fn inside it. -/
theorem arcCompile_wellFormed (host : Host W) (fuel : Nat) (expr : Value) (ctx : Cctx) (env : CEnv)
    (cont : Bool) (s s' : State W) (ctx' : Cctx)
    (hok : Yields (arcCompile host fuel expr ctx env cont) s ctx' s') :
    (∀ h, (cont = true → h = 0) → Emits ctx ctx' h (exitHeight cont h)) ∧
      (cont = true → ctx = arcMkcctx → (arcCctx2code ctx').WellFormed) ∧ NewCodes s s' := by
  have hall : ∀ h, (cont = true → h = 0) → Makes (arcCompile host fuel expr ctx env cont) s
      fun ctx' => Emits ctx ctx' h (exitHeight cont h) :=
    fun h hcont => Makes.mono (arcCompile_compiles fuel ⟨1, 6⟩ expr ctx env cont s h hcont)
      fun _ hemits => hemits.emits
  refine ⟨fun h hcont => (hall h hcont ctx' s' hok).2, ?_, (hall 0 (fun _ => rfl) ctx' s' hok).1⟩
  intro htrue hctx
  subst htrue hctx
  exact (hall 0 (fun _ => rfl) ctx' s' hok).2.wellFormed

/-- A system without macros and special syntax. -/
def plainHost : Host Unit where
  ssexpand _ := .ok .nil
  ismacro _ _ := none
  intern _ := .id 0
  sameCons _ _ := false
  symbolWord _ := 0

/-- A proper list. -/
def listOf (vs : List Value) : Value := vs.foldr .cons .nil

/-- `(fn ((a b) (o c 1)) (if a (f b) c))`. -/
def destructuringFn : Value :=
  let a : Value := .symbol (.id 0)
  let b : Value := .symbol (.id 1)
  let c : Value := .symbol (.id 2)
  listOf [.symbol .sFn, listOf [listOf [a, b], listOf [.symbol .sO, c, .fixnum 1]],
    listOf [.symbol .sIf, a, listOf [.symbol (.id 3), b], c]]

theorem destructuringFn_wellFormed : ∃ ctx' s',
    Yields (arcCompile plainHost 4 destructuringFn arcMkcctx [] true) ⟨[], ⟨2874, ()⟩⟩ ctx' s' ∧
      (arcCctx2code ctx').WellFormed ∧ ∀ c ∈ s'.codes, c.WellFormed := by
  refine ⟨_, _, rfl, ?_⟩
  obtain ⟨-, hwf, new, hcodes, hnew⟩ :=
    arcCompile_wellFormed plainHost 4 destructuringFn arcMkcctx [] true ⟨[], ⟨2874, ()⟩⟩ _ _ rfl
  refine ⟨hwf rfl rfl, ?_⟩
  rw [hcodes]
  simpa using hnew

end Arcueid
