import Arcueid.Lib.Lockstep
import Arcueid.Renaming

/-! The forms of the compiler on expressions that differ in the names of required
parameters, where only the environment sees the names: the code is the same if
it is the same for the parts. -/

namespace Arcueid.Scope

open Outcome
open Parts (isMacro)

variable {W : Type} {host : Host W} {w : W} {compile : CompileFn W}

/-- Two computations of the compiler while macros are looked up in `w`. -/
abbrev Step {α β : Type} (w : W) (R : α → β → Prop) (x : Comp W α) (y : Comp W β) : Prop :=
  Lockstep (fun s => s.globals.world = w) R x y

abbrev Same (host : Host W) (w : W) := Renames host w (silent host w)

/-- What `arc_compile` has to do for the parts of an expression. -/
def CompilesSame (host : Host W) (w : W) (compile : CompileFn W) : Prop :=
  ∀ ps e e' ctx env env' cont, EnvsAlike ps env env' → Same host w .expr ps e e' →
    Step w Eq (compile e ctx env cont) (compile e' ctx env' cont)

section Tails

variable {v : Value} {ctx : Cctx} {env : CEnv}

theorem compileIf_of_tail (h : isTail v) (cont : Bool) :
    compileIf compile v ctx env cont = throw .badAccess := by
  cases v <;> simp_all [isTail, compileIf]

theorem compileIf_tail (h : isTail v) (e : Value) (cont : Bool) :
    compileIf compile (.cons e v) ctx env cont =
      (do let _ ← compile e ctx env false; throw .badAccess) := by
  cases v <;> simp_all [isTail, compileIf]

theorem compileBody_of_tail (h : isTail v) : compileBody compile v ctx env = throw .badAccess := by
  cases v <;> simp_all [isTail, compileBody]

theorem applyArgs_of_tail (h : isTail v) (n : Nat) :
    applyArgs compile v ctx env n = throw .badAccess := by
  cases v <;> simp_all [isTail, applyArgs]

theorem inlineArgs_of_tail (h : isTail v) (n : Nat) :
    inlineArgs compile v ctx env n = throw .badAccess := by
  cases v <;> simp_all [isTail, inlineArgs]

theorem inlinenFrom_of_tail (h : isTail v) (inst : Inst) :
    inlinenFrom compile inst v ctx env = throw .badAccess := by
  cases v <;> simp_all [isTail, inlinenFrom]

theorem compileAssignFrom_of_tail {macex : Value → Comp W Value} (h : isTail v) :
    compileAssignFrom host compile macex v ctx env = throw .badAccess := by
  cases v <;> simp_all [isTail, compileAssignFrom]

theorem compileAssignFrom_odd {macex : Value → Comp W Value} (h : consP v = false) (a : Value) :
    compileAssignFrom host compile macex (.cons a v) ctx env =
      (do let _ ← macex a; throw .badAccess) := by
  cases v <;> simp_all [consP, compileAssignFrom]

theorem expandList_of_tail (h : isTail v) : expandList host v = throw .badAccess := by
  cases v <;> simp_all [isTail, expandList]

theorem ssexpandOf_other (h : isSymbol v = false) : ssexpandOf host v = pure .nil := by
  cases v <;> simp_all [isSymbol, ssexpandOf]

theorem fold_of_tail (h : isTail v) (final : Value) :
    (fold v final : Comp W Value) = throw .badAccess := by
  cases v <;> simp_all [isTail, fold]

theorem andfUniqs_of_tail (h : isTail v) (gs : Value) :
    andfUniqs host v gs = throw .badAccess := by
  cases v <;> simp_all [isTail, andfUniqs]

theorem andfBody_of_tail (h : isTail v) (uniqs body : Value) :
    (andfBody uniqs v body : Comp W Value) = throw .badAccess := by
  cases v <;> simp_all [isTail, andfBody]

theorem listReverseOnto_of_tail (h : isTail v) (acc : Value) :
    (listReverseOnto v acc : Comp W Value) = throw .badAccess := by
  cases v <;> simp_all [isTail, listReverseOnto]

theorem andExpansion_of_tail (h : isTail v) : andExpansion v = .tru := by
  cases v <;> simp_all [isTail, andExpansion]

theorem andExpansion_cons (h : v ≠ .nil) (a : Value) :
    andExpansion (.cons a v) =
      .cons (.symbol .sIf) (.cons a (.cons (.cons (.symbol .sAnd) v) .nil)) := by
  cases v <;> simp_all [andExpansion]

theorem fold_cons (h : v ≠ .nil) (f final : Value) :
    (fold (.cons f v) final : Comp W Value) =
      (do pure (.cons f (.cons (← fold v final) .nil))) := by
  cases v <;> simp_all [fold]

theorem car_pair (a d : Value) : (car (.cons a d) : Comp W Value) = pure a := rfl

theorem cdr_pair (a d : Value) : (cdr (.cons a d) : Comp W Value) = pure d := rfl

theorem car_of_not_cons (h : consP v = false) : (car v : Comp W Value) = throw .badAccess := by
  cases v <;> simp_all [consP, car]

theorem cdr_of_not_cons (h : consP v = false) : (cdr v : Comp W Value) = throw .badAccess := by
  cases v <;> simp_all [consP, cdr]

theorem not_cons_of_tail (h : isTail v) : consP v = false := by
  cases v <;> simp_all [isTail, consP]

theorem ne_nil_of_tail (h : isTail v) : v ≠ .nil := by
  rintro rfl
  simp [isTail] at h

end Tails

section Lists

variable {R : Renaming → Value → Value → Prop} {ps : Renaming} {d d' : Value}

theorem Each.nil_iff (h : Each R d d' ps) : d = .nil ↔ d' = .nil := by
  cases h with
  | nil => exact Iff.rfl
  | cons => simp
  | tail ht ht' => simp [ne_nil_of_tail ht, ne_nil_of_tail ht']

theorem arcListLength_of_tail {v : Value} (h : isTail v) : arcListLength v = 1 := by
  cases v <;> simp_all [isTail, arcListLength]

theorem Each.length_eq (h : Each R d d' ps) : arcListLength d = arcListLength d' := by
  induction h with
  | nil => rfl
  | cons _ _ ih => rw [arcListLength, arcListLength, ih]
  | tail ht ht' => rw [arcListLength_of_tail ht, arcListLength_of_tail ht']

end Lists

section Names

variable {ps : Renaming} {env env' : CEnv} {s t : Sym}

theorem EnvsAlike.found (host : Host W) (h : EnvsAlike ps env env') (hst : Alike ps s t) (hne : s ≠ t) :
    findVar host (.symbol s) env ≠ none := by
  induction h with
  | base env => exact absurd hst hne
  | frame _ ih =>
    rw [findVar_frame]
    simpa using ih hst
  | name a b idx _ ih =>
    rw [findVar_addEnvName]
    split
    · simp
    · next hs =>
      rcases hst with ⟨hsa, -⟩ | ⟨-, -, hst⟩
      · exact absurd hsa hs
      · exact ih hst

theorem compileIdent_same (h : EnvsAlike ps env env') (hst : Alike ps s t) (ctx : Cctx)
    (cont : Bool) :
    compileIdent host (.symbol s) ctx env cont = compileIdent host (.symbol t) ctx env' cont := by
  by_cases heq : s = t
  · subst heq
    rw [compileIdent, compileIdent, h.finds hst]
  · have hfound := h.found host hst heq
    rw [compileIdent, compileIdent, ← h.finds hst]
    cases hv : findVar host (.symbol s) env with
    | none => exact absurd hv hfound
    | some p => cases p with | mk k i => cases k <;> rfl

theorem Place.nil_iff {a a' : Value} (ha : Place host w (silent host w) ps a a') :
    a = .nil ↔ a' = .nil := by
  cases ha <;> simp

theorem Place.t_iff {a a' : Value} (ha : Place host w (silent host w) ps a a') :
    a = .symbol .sT ↔ a' = .symbol .sT := by
  cases ha with
  | @name s t _ hst =>
    by_cases heq : s = t
    · rw [heq]
    · simp [hst heq]
  | number => simp
  | other => exact Iff.rfl

theorem assignTo_same (h : EnvsAlike ps env env') {a a' : Value}
    (ha : Place host w (silent host w) ps a a') (ctx : Cctx) :
    assignTo host a ctx env = assignTo host a' ctx env' := by
  cases ha with
  | @name s t hst _ =>
    by_cases heq : s = t
    · subst heq
      rw [assignTo, assignTo, h.finds hst]
    · have hfound := h.found host hst heq
      rw [assignTo, assignTo, ← h.finds hst]
      cases hv : findVar host (.symbol s) env with
      | none => exact absurd hv hfound
      | some p => cases p with | mk k i => cases k <;> rfl
  | number n hn => rw [h.eq hn]
  | other hsym hfix _ =>
    have hs : ∀ s, a ≠ .symbol s := by
      rintro s rfl
      simp [isSymbol] at hsym
    rw [assignTo, assignTo, h.finds_other hs hfix]

end Names

section Macros

variable {ps : Renaming}

theorem step_macroOf {op op' : Value} (h : isMacro host w op = false)
    (h' : isMacro host w op' = false) :
    Step w (fun m m' => m = none ∧ m' = none) (macroOf host op) (macroOf host op') := by
  have hnone : ∀ {op : Value}, isMacro host w op = false → ∀ s : State W, s.globals.world = w →
      Yields (macroOf host op) s none s := by
    intro op h s hs
    cases op <;> simp_all [Yields, macroOf, isMacro]
  intro s hs
  exact .inr ⟨none, none, s, hnone h s hs, hnone h' s hs, ⟨rfl, rfl⟩, hs⟩

theorem step_macex {a a' : Value} (ha : Place host w (silent host w) ps a a') (fuel : Nat) :
    Step w (fun v v' => v = a ∧ v' = a') (macex host fuel a) (macex host fuel a') := by
  cases fuel with
  | zero => exact .throw
  | succ fuel =>
    cases ha with
    | name => exact .pure ⟨rfl, rfl⟩
    | number => exact .pure ⟨rfl, rfl⟩
    | other _ _ hmac =>
      cases a with
      | cons op args =>
        refine (step_macroOf (hmac op args rfl) (hmac op args rfl)).bind ?_
        rintro _ _ ⟨rfl, rfl⟩
        exact .pure ⟨rfl, rfl⟩
      | _ => exact .pure ⟨rfl, rfl⟩

end Macros

theorem step_oargdef {ps : Renaming} {d d' : Value} (h : Default (Same host w .expr) d d' ps) :
    Step w (Same host w .expr ps) (oargdef d) (oargdef d') := by
  cases h with
  | none => exact .pure (.atom rfl rfl)
  | some d d' he => exact .pure he
  | tail ht ht' =>
    rw [oargdef, oargdef, if_neg (ne_nil_of_tail ht), if_neg (ne_nil_of_tail ht'),
      car_of_not_cons (not_cons_of_tail ht), car_of_not_cons (not_cons_of_tail ht')]
    exact .throw

theorem isOptional_no {a d : Value} {b : Bool} (h : optionalP b a d = false) :
    (isOptional a d b : Comp W Bool) = pure false := by
  unfold isOptional
  split
  · next hif =>
    obtain ⟨hb, ha, hd⟩ := hif
    cases d with
    | nil => exact absurd rfl hd
    | cons n d => cases n <;> simp_all [optionalP, car]
    | _ => simp_all [optionalP]
  · rfl

theorem isOptional_yes {d : Value} (h : optionalP true (.symbol .sO) d) (hd : consP d = true) :
    (isOptional (.symbol .sO) d true : Comp W Bool) = pure true := by
  cases d with
  | cons n d => cases n <;> simp_all [optionalP, isOptional, car]
  | _ => simp [consP] at hd

theorem isOptional_error {d : Value} (h : optionalP true (.symbol .sO) d) (hd : consP d = false) :
    (isOptional (.symbol .sO) d true : Comp W Bool) = throw .badAccess := by
  cases d with
  | cons n d => simp [consP] at hd
  | nil => simp [optionalP] at h
  | _ => rfl

theorem destructure_pair (a d : Value) (ctx : Cctx) (env : CEnv) (idx : Nat) (b : Bool) :
    destructure compile (.cons a d) ctx env idx b = (do
      if ← isOptional a d b then destructureOptional compile d ctx env idx
      else if a ≠ .nil ∧ d ≠ .nil then do
        let ctx := arcEmit ctx .ipush
        let ctx := arcEmit ctx .idcar
        let (ctx, env, idx) ← destructure compile a ctx env idx true
        let ctx := arcEmit ctx .ipop
        let ctx := arcEmit ctx .idcdr
        destructure compile d ctx env idx false
      else if a ≠ .nil then destructure compile a (arcEmit ctx .idcar) env idx true
      else if d ≠ .nil then destructure compile d (arcEmit ctx .idcdr) env idx false
      else pure (ctx, env, idx)) := by
  rw [destructure]

theorem Optional.consP_eq {R : Renaming → Value → Value → Prop} {d d' : Value} {ps ps₁ : Renaming}
    (h : Optional R d d' ps ps₁) : consP d = consP d' := by
  cases h with
  | other hd hd' => rw [hd, hd']
  | _ => rfl

theorem Pattern.nil_iff {R : Renaming → Value → Value → Prop} {b : Bool} {v v' : Value}
    {ps ps₁ : Renaming} (h : Pattern R b v v' ps ps₁) : v = .nil ↔ v' = .nil := by
  cases h <;> simp

theorem Pattern.nil_eq {R : Renaming → Value → Value → Prop} {b : Bool} {v v' : Value}
    {ps ps₁ : Renaming} (h : Pattern R b v v' ps ps₁) (hv : v' = .nil) : ps₁ = ps := by
  subst hv
  cases h <;> rfl

/-- What binding names leaves: the code, the environment and the next index. -/
structure Bound (ps : Renaming) (x x' : Cctx × CEnv × Nat) : Prop where
  ctx : x.1 = x'.1
  env : EnvsAlike ps x.2.1 x'.2.1
  ne_nil : x.2.1 ≠ []
  idx : x.2.2 = x'.2.2

theorem compileArg_pattern {a : Value} (ha : a ≠ .symbol .sO) (d : Value) (l : ArgLoop) :
    compileArg compile (.cons a d) l = pure { l with
      dsb := (.cons a d, l.idx) :: l.dsb
      idx := l.idx + 1
      regargs := l.regargs + 1 } := by
  rw [compileArg]
  simpa using ha

/-- Neither the end of the arguments nor a rest argument. -/
def goesOn : Value → Bool
  | .nil | .symbol _ => false
  | _ => true

theorem Args.goesOn {R : Renaming → Value → Value → Prop} {B : Sym → Sym → Prop} {a a' : Value}
    {ps ps₁ : Renaming} {dsb dsb₁ : PutOff} (h : Args R B a a' ps dsb ps₁ dsb₁) :
    goesOn a = true ∧ goesOn a' = true := by
  cases h with
  | other ht hs => cases a <;> simp_all [isTail, isSymbol, Scope.goesOn]
  | _ => exact ⟨rfl, rfl⟩

theorem compileArgsFrom_more {d : Value} (hd : goesOn d = true) (a : Value) (l : ArgLoop)
    (envptr : Nat) :
    compileArgsFrom compile envptr (.cons a d) l =
      (do compileArgsFrom compile envptr d (← compileArg compile a l)) := by
  rw [compileArgsFrom]
  cases d <;> simp_all [goesOn]

/-- The patterns that were put off, with the index of their argument. -/
inductive PutOffAlike : PutOff → List (Value × Nat) → List (Value × Nat) → Prop
  | nil : PutOffAlike [] [] []
  | cons {dsb : PutOff} {xs ys : List (Value × Nat)} (p p' : Value) (idx : Nat) :
      PutOffAlike dsb xs ys → PutOffAlike ((p, p') :: dsb) ((p, idx) :: xs) ((p', idx) :: ys)

/-- The loop over the arguments at the same place. -/
structure LoopsAlike (ps : Renaming) (dsb : PutOff) (l l' : ArgLoop) : Prop where
  same : l' = { l with env := l'.env, dsb := l'.dsb }
  env : EnvsAlike ps l.env l'.env
  ne_nil : l.env ≠ []
  putOff : PutOffAlike dsb l.dsb l'.dsb

theorem LoopsAlike.exists_eq {ps : Renaming} {dsb : PutOff} {l l' : ArgLoop}
    (h : LoopsAlike ps dsb l l') :
    ∃ env' xs', l' = { l with env := env', dsb := xs' } ∧ EnvsAlike ps l.env env' ∧
      PutOffAlike dsb l.dsb xs' := ⟨l'.env, l'.dsb, h.same, h.env, h.putOff⟩

theorem step_mkCode (ctx : Cctx) : Step w Eq (mkCode ctx) (mkCode ctx) := by
  refine .refl fun s hs => ?_
  rintro a s' h
  obtain ⟨-, rfl⟩ := Prod.mk.inj (Except.ok.inj h)
  exact hs

section Forms

variable (hc : CompilesSame host w compile) {ps : Renaming} {env env' : CEnv}
  (henv : EnvsAlike ps env env')

include hc henv

theorem step_compileIfs {d d' : Value} (h : Each (Same host w .expr) d d' ps) (cont : Bool) :
    (∀ ctx, Step w Eq (compileIf compile d ctx env cont) (compileIf compile d' ctx env' cont)) ∧
      ∀ {a a' : Value}, Same host w .expr ps a a' → ∀ ctx,
        Step w Eq (compileIf compile (.cons a d) ctx env cont)
          (compileIf compile (.cons a' d') ctx env' cont) := by
  induction h with
  | nil => exact ⟨fun ctx => .pure rfl, fun he ctx => hc _ _ _ _ _ _ _ henv he⟩
  | cons he hrest ih =>
    refine ⟨fun ctx => (ih henv).2 he ctx, fun ha ctx => ?_⟩
    refine (hc _ _ _ _ _ _ _ henv ha).bind ?_
    rintro ctx _ rfl
    refine (hc _ _ _ _ _ _ _ henv he).bind ?_
    rintro ctx _ rfl
    refine ((ih henv).1 _).bind ?_
    rintro ctx _ rfl
    exact .pure rfl
  | tail ht ht' =>
    refine ⟨fun ctx => ?_, fun ha ctx => ?_⟩
    · rw [compileIf_of_tail ht, compileIf_of_tail ht']
      exact .throw
    · rw [compileIf_tail ht, compileIf_tail ht']
      exact (hc _ _ _ _ _ _ _ henv ha).bind fun _ _ _ => .throw

theorem step_compileIf {d d' : Value} (h : Each (Same host w .expr) d d' ps) (ctx : Cctx)
    (cont : Bool) :
    Step w Eq (compileIf compile d ctx env cont) (compileIf compile d' ctx env' cont) :=
  (step_compileIfs hc henv h cont).1 ctx

theorem step_compileBody {d d' : Value} (h : Each (Same host w .expr) d d' ps) (ctx : Cctx) :
    Step w Eq (compileBody compile d ctx env) (compileBody compile d' ctx env') := by
  induction h generalizing ctx with
  | nil => exact .pure rfl
  | cons he hd ih =>
    rw [compileBody, compileBody]
    simp only [hd.nil_iff]
    refine (hc _ _ _ _ _ _ _ henv he).bind ?_
    rintro ctx _ rfl
    exact ih henv ctx
  | tail ht ht' =>
    rw [compileBody_of_tail ht, compileBody_of_tail ht']
    exact .throw

theorem step_applyArgs {d d' : Value} (h : Each (Same host w .expr) d d' ps) (ctx : Cctx)
    (n : Nat) :
    Step w Eq (applyArgs compile d ctx env n) (applyArgs compile d' ctx env' n) := by
  induction h generalizing ctx n with
  | nil => exact .pure rfl
  | cons he hd ih =>
    refine (hc _ _ _ _ _ _ _ henv he).bind ?_
    rintro ctx _ rfl
    exact ih henv _ _
  | tail ht ht' =>
    rw [applyArgs_of_tail ht, applyArgs_of_tail ht']
    exact .throw

theorem step_inlineArgs {d d' : Value} (h : Each (Same host w .expr) d d' ps) (ctx : Cctx)
    (n : Nat) :
    Step w Eq (inlineArgs compile d ctx env n) (inlineArgs compile d' ctx env' n) := by
  induction h generalizing ctx n with
  | nil => exact .pure rfl
  | cons he hd ih =>
    rw [inlineArgs, inlineArgs]
    simp only [hd.nil_iff]
    refine (hc _ _ _ _ _ _ _ henv he).bind ?_
    rintro ctx _ rfl
    exact ih henv _ _
  | tail ht ht' =>
    rw [inlineArgs_of_tail ht, inlineArgs_of_tail ht']
    exact .throw

theorem step_inlinenFrom (inst : Inst) {d d' : Value} (h : Each (Same host w .expr) d d' ps)
    (ctx : Cctx) :
    Step w Eq (inlinenFrom compile inst d ctx env) (inlinenFrom compile inst d' ctx env') := by
  induction h generalizing ctx with
  | nil => exact .pure rfl
  | cons he hd ih =>
    refine (hc _ _ _ _ _ _ _ henv he).bind ?_
    rintro ctx _ rfl
    exact ih henv _
  | tail ht ht' =>
    rw [inlinenFrom_of_tail ht, inlinenFrom_of_tail ht']
    exact .throw

theorem step_compileAssignFrom (fuel : Nat) {d d' : Value}
    (h : Places (Place host w (silent host w)) (Same host w .expr) d d' ps) (ctx : Cctx) :
    Step w Eq (compileAssignFrom host compile (macex host fuel) d ctx env)
      (compileAssignFrom host compile (macex host fuel) d' ctx env') := by
  induction h generalizing ctx with
  | nil => exact .pure rfl
  | pair ha hv _ ih =>
    refine (step_macex ha fuel).bind ?_
    rintro a a' ⟨rfl, rfl⟩
    refine Lockstep.ite ha.nil_iff .throw (Lockstep.ite ha.t_iff .throw ?_)
    refine (hc _ _ _ _ _ _ _ henv hv).bind ?_
    rintro ctx _ rfl
    rw [assignTo_same henv ha]
    exact ih henv _
  | odd ha hd hd' =>
    rw [compileAssignFrom_odd hd, compileAssignFrom_odd hd']
    exact (step_macex ha fuel).bind fun _ _ _ => .throw
  | tail ht ht' =>
    rw [compileAssignFrom_of_tail ht, compileAssignFrom_of_tail ht']
    exact .throw

theorem step_destructureOptional (hne : env ≠ []) {d d' : Value} {ps₁ : Renaming}
    (h : Optional (Same host w .expr) d d' ps ps₁) (ctx : Cctx) (idx : Nat) :
    Step w (Bound ps₁) (destructureOptional compile d ctx env idx)
      (destructureOptional compile d' ctx env' idx) := by
  cases h with
  | named s hd =>
    simp only [destructureOptional, car, cdr, pure_bind, isSymbol, if_true]
    refine (step_oargdef hd).bind fun e e' he => ?_
    refine (hc _ _ _ _ _ _ _ henv he).bind ?_
    rintro ctx _ rfl
    exact .pure ⟨rfl, henv.add hne s s idx, addEnvName_ne_nil hne, rfl⟩
  | unnamed d d' hn =>
    simp only [destructureOptional, car, pure_bind, hn, Bool.false_eq_true, if_false]
    exact .throw
  | other hd hd' =>
    rw [destructureOptional, destructureOptional, car_of_not_cons hd, car_of_not_cons hd']
    exact .throw_bind

theorem step_destructure (hne : env ≠ []) {b : Bool} {v v' : Value} {ps₁ : Renaming}
    (h : Pattern (Same host w .expr) b v v' ps ps₁) (hv : v ≠ .nil) (ctx : Cctx) (idx : Nat) :
    Step w (Bound ps₁) (destructure compile v ctx env idx b)
      (destructure compile v' ctx env' idx b) := by
  induction h generalizing env env' ctx idx with
  | nil => exact absurd rfl hv
  | name b ps s => exact .pure ⟨rfl, henv.add hne s s idx, addEnvName_ne_nil hne, rfl⟩
  | @optional ps ps₁ d d' ho ho' h =>
    rw [destructure_pair, destructure_pair]
    by_cases hd : consP d = true
    · rw [isOptional_yes ho hd, isOptional_yes ho' (h.consP_eq ▸ hd)]
      simp only [pure_bind, if_true]
      exact step_destructureOptional hc henv hne h ctx idx
    · rw [isOptional_error ho (by simpa using hd),
        isOptional_error ho' (by rw [← h.consP_eq]; simpa using hd)]
      exact .throw_bind
  | @cons b ps ps₁ ps₂ a a' d d' ho ho' ha hd iha ihd =>
    rw [destructure_pair, destructure_pair, isOptional_no ho, isOptional_no ho']
    simp only [pure_bind, Bool.false_eq_true, if_false, ne_eq, ha.nil_iff, hd.nil_iff]
    by_cases hna : a' = .nil
    · obtain rfl := ha.nil_eq hna
      by_cases hnd : d' = .nil
      · obtain rfl := hd.nil_eq hnd
        simp only [hna, hnd, not_true_eq_false, and_self, if_false]
        exact .pure ⟨rfl, henv, hne, rfl⟩
      · simp only [hna, hnd, not_true_eq_false, not_false_eq_true, false_and, if_false, if_true]
        exact ihd henv hne (mt hd.nil_iff.mp hnd) _ _
    · have hpart := iha henv hne (mt ha.nil_iff.mp hna)
      by_cases hnd : d' = .nil
      · obtain rfl := hd.nil_eq hnd
        simp only [hna, hnd, not_true_eq_false, not_false_eq_true, and_false, if_false, if_true]
        exact hpart _ _
      · simp only [hna, hnd, not_false_eq_true, and_self, if_true]
        refine (hpart _ _).bind ?_
        rintro ⟨ctx, env, idx⟩ ⟨ctx', env', idx'⟩ ⟨hctx, henv, hne, hidx⟩
        obtain rfl : ctx = ctx' := hctx
        obtain rfl : idx = idx' := hidx
        exact ihd henv hne (mt hd.nil_iff.mp hnd) _ _
  | @other b ps v ht hs =>
    cases v with
    | symbol => simp [isSymbol] at hs
    | cons => simp [isTail] at ht
    | _ => exact .throw

omit henv

theorem step_compileOptional {dsb : PutOff} {l l' : ArgLoop} (hl : LoopsAlike ps dsb l l')
    {d d' : Value} {ps₁ : Renaming} (h : Optional (Same host w .expr) d d' ps ps₁) :
    Step w (LoopsAlike ps₁ dsb) (compileOptional compile d l) (compileOptional compile d' l') := by
  obtain ⟨env', xs', rfl, henv, hdsb⟩ := hl.exists_eq
  cases h with
  | named s hd =>
    simp only [compileOptional, car, cdr, pure_bind, isSymbol, if_true]
    refine (step_oargdef hd).bind fun e e' he => ?_
    refine (hc _ _ _ _ _ _ _ henv he).bind ?_
    rintro ctx _ rfl
    exact .pure ⟨rfl, henv.add hl.ne_nil s s _, addEnvName_ne_nil hl.ne_nil, hdsb⟩
  | unnamed d d' hn =>
    simp only [compileOptional, car, pure_bind, hn, Bool.false_eq_true, if_false]
    exact .throw
  | other hd hd' =>
    rw [compileOptional, compileOptional, car_of_not_cons hd, car_of_not_cons hd']
    exact .throw_bind

theorem step_compileArg {dsb dsb₁ : PutOff} {l l' : ArgLoop} (hl : LoopsAlike ps dsb l l')
    {B : Sym → Sym → Prop} {a a' : Value} {ps₁ : Renaming}
    (h : Arg (Same host w .expr) B a a' ps dsb ps₁ dsb₁) :
    Step w (LoopsAlike ps₁ dsb₁) (compileArg compile a l) (compileArg compile a' l') := by
  cases h with
  | @required _ _ s t _ =>
    obtain ⟨env', xs', rfl, henv, hdsb⟩ := hl.exists_eq
    refine Lockstep.ite Iff.rfl .throw (.pure ?_)
    exact ⟨rfl, henv.add hl.ne_nil s t _, addEnvName_ne_nil hl.ne_nil, hdsb⟩
  | optional h => exact step_compileOptional hc hl h
  | pattern d d' ha ha' =>
    obtain ⟨env', xs', rfl, henv, hdsb⟩ := hl.exists_eq
    rw [compileArg_pattern ha, compileArg_pattern ha']
    exact .pure ⟨rfl, henv, hl.ne_nil, .cons _ _ _ hdsb⟩
  | blank =>
    obtain ⟨env', xs', rfl, henv, hdsb⟩ := hl.exists_eq
    exact .pure ⟨rfl, henv, hl.ne_nil, hdsb⟩
  | other ht hs =>
    cases a with
    | symbol => simp [isSymbol] at hs
    | cons => simp [isTail] at ht
    | nil => simp [isTail] at ht
    | _ => exact .throw

theorem step_compileArgsFrom {dsb dsb₁ : PutOff} {l l' : ArgLoop} (hl : LoopsAlike ps dsb l l')
    {B : Sym → Sym → Prop} {a a' : Value} {ps₁ : Renaming}
    (h : Args (Same host w .expr) B a a' ps dsb ps₁ dsb₁) (envptr : Nat) :
    Step w (LoopsAlike ps₁ dsb₁) (compileArgsFrom compile envptr a l)
      (compileArgsFrom compile envptr a' l') := by
  induction h generalizing l l' with
  | last ha => exact (step_compileArg hc hl ha).bind fun _ _ hl => .pure hl
  | rest s ha =>
    refine (step_compileArg hc hl ha).bind fun l l' hl => ?_
    obtain ⟨env', xs', rfl, henv, hdsb⟩ := hl.exists_eq
    exact .pure ⟨rfl, henv.add hl.ne_nil s s _, addEnvName_ne_nil hl.ne_nil, hdsb⟩
  | more ha hd ih =>
    rw [compileArgsFrom_more hd.goesOn.1, compileArgsFrom_more hd.goesOn.2]
    exact (step_compileArg hc hl ha).bind fun l l' hl => ih hl
  | @other ps dsb v ht hs =>
    cases v with
    | cons => simp [isTail] at ht
    | _ => exact .throw

theorem step_compileDsb {dsb : PutOff} {xs ys : List (Value × Nat)} (hxs : PutOffAlike dsb xs ys)
    {ps₁ : Renaming} (h : Patterns (Same host w .expr) dsb ps ps₁) (henv : EnvsAlike ps env env')
    (hne : env ≠ []) (ctx : Cctx) (idx : Nat) :
    Step w (Bound ps₁) (compileDsb compile xs ctx env idx) (compileDsb compile ys ctx env' idx) := by
  induction h generalizing xs ys env env' ctx idx with
  | nil =>
    cases hxs
    exact .pure ⟨rfl, henv, hne, rfl⟩
  | @cons _ _ _ p p' _ hp _ ih =>
    cases hxs with
    | cons _ _ i hxs =>
      by_cases hp0 : p = .nil
      · rw [hp0, hp.nil_iff.mp hp0]
        exact .throw_bind
      · refine (step_destructure hc henv hne hp hp0 _ idx).bind ?_
        rintro ⟨ctx, env, idx⟩ ⟨ctx', env', idx'⟩ ⟨hctx, henv, hne, hidx⟩
        obtain rfl : ctx = ctx' := hctx
        obtain rfl : idx = idx' := hidx
        exact ih hxs henv hne ctx idx

theorem step_compileArgs {B : Sym → Sym → Prop} {a a' : Value} {ps₁ : Renaming}
    (h : Params (Same host w .expr) B a a' ps ps₁) (henv : EnvsAlike ps env env') (ctx : Cctx) :
    Step w (fun x x' => x.1 = x'.1 ∧ EnvsAlike ps₁ x.2 x'.2) (compileArgs compile a ctx env)
      (compileArgs compile a' ctx env') := by
  cases h with
  | none => exact .pure ⟨rfl, henv⟩
  | rest _ s => exact .pure ⟨rfl, henv.frame.add (by simp) s s 0⟩
  | list ha hp =>
    have hstart : LoopsAlike ps []
        ⟨arcEmit3 ctx .ienv (int2fix 0) (int2fix 0) (int2fix 0), [] :: env, 0, 0, 0, false, []⟩
        ⟨arcEmit3 ctx .ienv (int2fix 0) (int2fix 0) (int2fix 0), [] :: env', 0, 0, 0, false, []⟩ :=
      ⟨rfl, henv.frame, by simp, .nil⟩
    refine (step_compileArgsFrom hc hstart ha _).bind fun l l' hl => ?_
    obtain ⟨env', xs', rfl, henv, hdsb⟩ := hl.exists_eq
    refine (step_compileDsb hc hdsb hp henv hl.ne_nil _ _).bind ?_
    rintro ⟨ctx, env, idx⟩ ⟨ctx', env', idx'⟩ ⟨hctx, henv, -, hidx⟩
    obtain rfl : ctx = ctx' := hctx
    obtain rfl : idx = idx' := hidx
    exact .pure ⟨rfl, henv⟩
  | other ht hs =>
    cases a with
    | symbol => simp [isSymbol] at hs
    | cons => simp [isTail] at ht
    | nil => simp [isTail] at ht
    | _ => exact .throw

theorem step_compileFn {B : Sym → Sym → Prop} {a a' b b' : Value} {ps₁ : Renaming}
    (h : Params (Same host w .expr) B a a' ps ps₁) (hb : Each (Same host w .expr) b b' ps₁)
    (henv : EnvsAlike ps env env') (ctx : Cctx) (cont : Bool) :
    Step w Eq (compileFn host compile (.cons a b) ctx env cont)
      (compileFn host compile (.cons a' b') ctx env' cont) := by
  simp only [compileFn, car, cdr, pure_bind, hb.nil_iff]
  refine (step_compileArgs hc h henv _).bind ?_
  rintro ⟨nctx, nenv⟩ ⟨nctx', nenv'⟩ ⟨hctx, hnenv⟩
  obtain rfl : nctx = nctx' := hctx
  refine (step_compileBody hc hnenv hb _).bind ?_
  rintro nctx _ rfl
  refine (step_mkCode _).bind ?_
  rintro newcode _ rfl
  exact .pure rfl

variable (henv : EnvsAlike ps env env')

include henv

section Operands

variable {d d' : Value} (hd : Each (Same host w .expr) d d' ps) (o o' : Value)

include hd

theorem step_inlineFunc (inst : Inst) (nargs : Nat) (ctx : Cctx) (cont : Bool) :
    Step w Eq (inlineFunc compile inst nargs (.cons o d) ctx env cont)
      (inlineFunc compile inst nargs (.cons o' d') ctx env' cont) := by
  simp only [inlineFunc, cdr, pure_bind]
  refine (step_inlineArgs hc henv hd ctx 0).bind ?_
  rintro ⟨ctx, count⟩ _ rfl
  exact Lockstep.ite Iff.rfl (.pure rfl) .throw

theorem step_compileInlinen (inst : Inst) {base base' : Value}
    (hbase : Same host w .expr ps base base') (ctx : Cctx) (cont : Bool) :
    Step w Eq (compileInlinen compile inst (.cons o d) ctx env cont base)
      (compileInlinen compile inst (.cons o' d') ctx env' cont base') := by
  refine (hc _ _ _ _ _ _ _ henv hbase).bind ?_
  rintro ctx _ rfl
  simp only [cdr, pure_bind]
  refine (step_inlinenFrom hc henv inst hd ctx).bind ?_
  rintro ctx _ rfl
  exact .pure rfl

theorem step_compileInlinen2 (inst : Inst) (base : Int) (ctx : Cctx) (cont : Bool) :
    Step w Eq (compileInlinen2 compile inst (.cons o d) ctx env cont (int2fix base))
      (compileInlinen2 compile inst (.cons o' d') ctx env' cont (int2fix base)) := by
  simp only [compileInlinen2, cdr, pure_bind, hd.length_eq]
  split
  · exact .throw
  · exact step_compileInlinen hc henv hd o o' inst (.atom rfl rfl) ctx cont
  · next h₀ h₁ =>
    cases hd with
    | nil => exact (h₀ rfl).elim
    | cons he hd => exact step_compileInlinen hc henv hd o o' inst he ctx cont
    | tail _ ht => exact (h₁ (arcListLength_of_tail ht)).elim

theorem step_inlinePlus (ctx : Cctx) (cont : Bool) :
    Step w Eq (inlinePlus compile (.cons o d) ctx env cont)
      (inlinePlus compile (.cons o' d') ctx env' cont) := by
  have htwo := step_compileInlinen2 hc henv hd o o' .iadd 0 ctx cont
  simp only [inlinePlus, cdr, pure_bind, hd.length_eq]
  split
  · exact hc _ _ _ _ _ _ _ henv (.atom rfl rfl)
  · next hone =>
    cases hd with
    | nil => cases hone
    | cons he hd => exact hc _ _ _ _ _ _ _ henv he
    | tail ht ht' =>
      rw [car_of_not_cons (not_cons_of_tail ht), car_of_not_cons (not_cons_of_tail ht')]
      exact .throw_bind
  · exact htwo

theorem step_inlineFuncOf {op : Value} {f : Value → Cctx → CEnv → Bool → Comp W Cctx}
    (hf : inlineFuncOf compile op = some f) (ctx : Cctx) (cont : Bool) :
    Step w Eq (f (.cons o d) ctx env cont) (f (.cons o' d') ctx env' cont) := by
  unfold inlineFuncOf at hf
  split at hf
  · obtain rfl := Option.some.inj hf
    exact step_inlineFunc hc henv hd o o' _ _ ctx cont
  · obtain rfl := Option.some.inj hf
    exact step_inlineFunc hc henv hd o o' _ _ ctx cont
  · obtain rfl := Option.some.inj hf
    exact step_inlineFunc hc henv hd o o' _ _ ctx cont
  · obtain rfl := Option.some.inj hf
    exact step_inlinePlus hc henv hd o o' ctx cont
  · obtain rfl := Option.some.inj hf
    exact step_compileInlinen hc henv hd o o' _ (.atom rfl rfl) ctx cont
  · obtain rfl := Option.some.inj hf
    exact step_compileInlinen2 hc henv hd o o' _ _ ctx cont
  · obtain rfl := Option.some.inj hf
    exact step_compileInlinen2 hc henv hd o o' _ _ ctx cont
  · cases hf

end Operands

end Forms

end Arcueid.Scope
