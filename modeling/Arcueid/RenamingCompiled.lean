import Arcueid.CompilerHeights
import Arcueid.RenamingForms
import Arcueid.Vm

/-! Expressions that differ in the names of required parameters, where only the
environment sees the names, are compiled to the same code and behave the same. -/

namespace Arcueid.Scope

open Outcome
open Parts (isMacro)

variable {W : Type} {host : Host W} {w : W} {compile : CompileFn W}

/-- What the names that the compiler inserts are in the running system. -/
structure Standard (host : Host W) (w : W) : Prop where
  noSyntax : host.ssexpand .sNo = .ok .nil
  andSyntax : host.ssexpand .sAnd = .ok .nil
  uniqSyntax : ∀ n : Nat, host.ssexpand (host.intern s!"g{n}") = .ok .nil
  noMacro : isMacro host w (.symbol .sNo) = false
  and : KnowsAnd host w

section Spots

variable {ps : Renaming} {o o' : Value}

theorem Plain.expanded {m : Spot} {s : Sym} (h : Plain host w m s) : Plain host w m.expanded s where
  notConstant := h.notConstant
  notOperator hm := h.notOperator (by rintro rfl; exact hm rfl)
  notSpecial hm := by cases m <;> simp [Spot.expanded] at hm

theorem Same.name_expanded {m : Spot} {s t : Sym} (h : (silent host w).name m s t) :
    (silent host w).name m.expanded s t :=
  ⟨fun hm => by cases m <;> simp [Spot.expanded] at hm,
    fun hne => ⟨(h.2 hne).1.expanded, (h.2 hne).2.expanded⟩⟩

theorem Same.operand_op (h : Same host w .operand ps o o') : Same host w .op ps o o' := by
  generalize hm : Spot.operand = m at h
  cases h with
  | atom hs hc => exact .atom hs hc
  | @name m ps s t hs ht hst _ hmac hname =>
    subst hm
    obtain ⟨hspec, hplain⟩ := hname
    refine .name hs ht hst (fun _ _ => (hspec rfl).1) (fun heq _ => hmac heq (by decide)) ?_
    refine ⟨nofun, fun hne => ⟨?_, ?_⟩⟩
    · exact ⟨(hplain hne).1.notConstant, fun _ => (hplain hne).1.notOperator (by decide),
        fun _ => (hspec rfl).1⟩
    · exact ⟨(hplain hne).2.notConstant, fun _ => (hplain hne).2.notOperator (by decide),
        fun _ => (hspec rfl).2⟩
  | special hs ht hv hv' hcs hct hspec _ hrec =>
    subst hm
    exact .special hs ht hv hv' hcs hct (fun _ => hspec (.inr rfl)) nofun hrec
  | broken he hm' =>
    subst hm
    exact .broken he fun _ => hm' (by decide)
  | list _ hhead h =>
    exact .list (by decide) hhead h
  | compose _ h => exact .compose (by decide) h
  | complement _ hno h => exact .complement (by decide) hno h
  | andf _ hand h => exact .andf (by decide) hand h
  | _ => cases hm

/-- An operator that is not taken apart is compiled as an expression. -/
theorem Same.call_expr (h : Same host w .call ps o o')
    (hfun : ∀ f d, o = .cons f d → isFunctional f = false) : Same host w .expr ps o o' := by
  generalize hm : Spot.call = m at h
  cases h with
  | atom hs hc => exact .atom hs hc
  | name hs ht hst _ _ hname =>
    subst hm
    exact .name hs ht hst nofun (fun _ h => absurd rfl h) (Same.name_expanded hname)
  | special hs ht hv hv' hcs hct _ _ hrec =>
    subst hm
    exact .special hs ht hv hv' hcs hct nofun nofun hrec
  | broken he hm' => exact .broken he fun h => absurd rfl h
  | list _ _ h => exact h
  | compose => exact absurd (hfun _ _ rfl) (by decide)
  | complement => exact absurd (hfun _ _ rfl) (by decide)
  | andf => exact absurd (hfun _ _ rfl) (by decide)
  | _ => cases hm

theorem Same.not_macro (h : Same host w .call ps o o') :
    isMacro host w o = false ∧ isMacro host w o' = false := by
  generalize hm : Spot.call = m at h
  cases h with
  | atom hs _ =>
    cases o with
    | symbol => simp [isSymbol] at hs
    | _ => exact ⟨rfl, rfl⟩
  | @name m ps s t _ _ _ _ hmac hname =>
    subst hm
    by_cases hst : s = t
    · subst hst
      exact ⟨hmac rfl (by decide), hmac rfl (by decide)⟩
    · exact ⟨((hname.2 hst).1.notOperator (by decide)).2,
        ((hname.2 hst).2.notOperator (by decide)).2⟩
  | special _ _ _ _ _ _ _ hcall => exact ⟨(hcall hm.symm).2.2.1, (hcall hm.symm).2.2.2⟩
  | broken _ hb =>
    subst hm
    exact ⟨(hb (by decide)).2.2, (hb (by decide)).2.2⟩
  | _ => exact ⟨rfl, rfl⟩

theorem inlineFuncOf_none {s : Sym} (h : isInlined s = false) :
    inlineFuncOf compile (.symbol s) = none := by
  cases s <;> simp_all [isInlined, inlineFuncOf]

theorem Same.inlineFuncOf_eq (h : Same host w .call ps o o') :
    inlineFuncOf compile o = inlineFuncOf compile o' := by
  generalize hm : Spot.call = m at h
  cases h with
  | @name m ps s t _ _ _ _ _ hname =>
    subst hm
    by_cases hst : s = t
    · rw [hst]
    · rw [inlineFuncOf_none ((hname.2 hst).1.notOperator (by decide)).1,
        inlineFuncOf_none ((hname.2 hst).2.notOperator (by decide)).1]
  | special _ _ _ _ _ _ _ hcall =>
    rw [inlineFuncOf_none (hcall hm.symm).1, inlineFuncOf_none (hcall hm.symm).2.1]
  | _ => rfl

/-- What is no symbol stays where it is when special syntax is expanded. -/
theorem Same.settle {m : Spot} (hm : m = .expr ∨ m = .op) (h : Same host w m ps o o')
    (ho : isSymbol o = false) : Same host w m.expanded ps o o' := by
  rcases hm with rfl | rfl
  · exact h
  · generalize hm : Spot.op = m at h
    cases h with
    | atom hs hc => exact .atom hs hc
    | list _ hhead h => exact .list (by subst hm; decide) hhead h
    | compose _ h => exact .compose (by subst hm; decide) h
    | complement _ hno h => exact .complement (by subst hm; decide) hno h
    | andf _ hand h => exact .andf (by subst hm; decide) hand h
    | name => simp [isSymbol] at ho
    | special => simp [isSymbol] at ho
    | broken => simp [isSymbol] at ho
    | _ => cases hm

theorem compileCall_apply (hin : inlineFuncOf compile o = none)
    (hfun : ∀ f d, o = .cons f d → isFunctional f = false) (d : Value) (ctx : Cctx) (env : CEnv)
    (cont : Bool) :
    compileCall host compile (.cons o d) ctx env cont =
      compileApply host compile (.cons o d) ctx env cont := by
  simp only [compileCall, car_pair, pure_bind, hin]
  split
  · exact absurd (hfun _ _ rfl) (by decide)
  · exact absurd (hfun _ _ rfl) (by decide)
  · exact absurd (hfun _ _ rfl) (by decide)
  · rfl

theorem Same.functional (h : Same host w .call ps o o')
    (hfun : ∀ f d, o = .cons f d → isFunctional f = false) :
    ∀ f d, o' = .cons f d → isFunctional f = false := by
  generalize hm : Spot.call = m at h
  cases h with
  | list _ hhead =>
    rintro f d ⟨rfl, rfl⟩
    exact hhead.2
  | atom => exact hfun
  | compose => exact absurd (hfun _ _ rfl) (by decide)
  | complement => exact absurd (hfun _ _ rfl) (by decide)
  | andf => exact absurd (hfun _ _ rfl) (by decide)
  | name => nofun
  | special => nofun
  | broken => nofun
  | _ => cases hm

theorem Same.not_special (h : Same host w .op ps o o') :
    (∀ s, o = .symbol s → isSpecial s = false) ∧ ∀ s, o' = .symbol s → isSpecial s = false := by
  generalize hm : Spot.op = m at h
  cases h with
  | atom hs =>
    cases o with
    | symbol => simp [isSymbol] at hs
    | _ => exact ⟨fun _ ho => Value.noConfusion ho, fun _ ho => Value.noConfusion ho⟩
  | @name m ps s t _ _ _ hspec _ hname =>
    subst hm
    refine ⟨fun r hr => ?_, fun r hr => ?_⟩
    · obtain rfl := Value.symbol.inj hr
      by_cases hst : s = t
      · exact hspec hst rfl
      · exact (hname.2 hst).1.notSpecial rfl
    · obtain rfl := Value.symbol.inj hr
      by_cases hst : s = t
      · exact hst ▸ hspec hst rfl
      · exact (hname.2 hst).2.notSpecial rfl
  | @special m ps s t _ _ _ _ _ _ _ _ hspec =>
    refine ⟨fun r hr => ?_, fun r hr => ?_⟩
    · obtain rfl := Value.symbol.inj hr
      exact (hspec (.inl hm.symm)).1
    · obtain rfl := Value.symbol.inj hr
      exact (hspec (.inl hm.symm)).2
  | broken _ hb =>
    subst hm
    refine ⟨fun r hr => ?_, fun r hr => ?_⟩ <;>
    · obtain rfl := Value.symbol.inj hr
      exact (hb (by decide)).1
  | list => exact ⟨fun _ ho => Value.noConfusion ho, fun _ ho => Value.noConfusion ho⟩
  | compose => exact ⟨fun _ ho => Value.noConfusion ho, fun _ ho => Value.noConfusion ho⟩
  | complement => exact ⟨fun _ ho => Value.noConfusion ho, fun _ ho => Value.noConfusion ho⟩
  | andf => exact ⟨fun _ ho => Value.noConfusion ho, fun _ ho => Value.noConfusion ho⟩
  | _ => cases hm

theorem compileList_app {macex : Value → Comp W Value}
    (h : ∀ s, o = .symbol s → isSpecial s = false) (d : Value) (ctx : Cctx) (env : CEnv)
    (cont : Bool) :
    compileList host compile macex o d ctx env cont =
      (do compileCall host compile (← expandList host (.cons o d)) ctx env cont) := by
  unfold compileList
  split
  · exact absurd (h _ rfl) (by decide)
  · exact absurd (h _ rfl) (by decide)
  · exact absurd (h _ rfl) (by decide)
  · exact absurd (h _ rfl) (by decide)
  · rfl

end Spots

section Expansion

variable {ps : Renaming}

/-- What the compiler goes on with after `ssexpand`. -/
def picked (x result : Value) : Value := if result = .nil then x else result

theorem step_ssexpandOf {m : Spot} (hm : m = .expr ∨ m = .op) {x x' : Value}
    (h : Same host w m ps x x') :
    Step w (fun r r' => Same host w m.expanded ps (picked x r) (picked x' r'))
      (ssexpandOf host x) (ssexpandOf host x') := by
  by_cases hx : isSymbol x = false
  · have hx' : isSymbol x' = false := by cases h <;> first | rfl | assumption
    rw [ssexpandOf_other hx, ssexpandOf_other hx']
    exact .pure (h.settle hm hx)
  · cases h with
    | name hs ht hst hspec hmac hname =>
      rw [ssexpandOf, ssexpandOf, hs, ht]
      refine .pure (.name hs ht hst (fun heq he => ?_) (fun heq he => hmac heq ?_)
        (Same.name_expanded hname))
      · cases m <;> simp [Spot.expanded] at he
      · rintro rfl
        exact he rfl
    | special hs ht hv hv' _ _ _ _ hrec =>
      rw [ssexpandOf, ssexpandOf, hs, ht]
      refine .pure ?_
      rwa [picked, picked, if_neg hv, if_neg hv']
    | broken he =>
      rw [ssexpandOf, he]
      exact .throw
    | atom hs => exact absurd hs hx
    | _ => simp [isSymbol] at hx

theorem step_expandList {d d' : Value} (h : Each (Same host w .expr) d d' ps) :
    Step w (fun v v' => Each (Same host w .expr) v v' ps ∧ isList v = true)
      (expandList host d) (expandList host d') := by
  induction h with
  | nil => exact .pure ⟨.nil _, rfl⟩
  | cons ha _ ih =>
    refine (step_ssexpandOf (.inl rfl) ha).bind fun r r' hr => ?_
    refine ih.bind fun v v' hv => ?_
    exact .pure ⟨.cons hr hv.1, hv.2⟩
  | tail ht ht' =>
    rw [expandList_of_tail ht, expandList_of_tail ht']
    exact .throw

/-- The special syntax of an application is expanded alike. -/
theorem step_expandCall {o o' d d' : Value} (ho : Same host w .op ps o o')
    (hd : Each (Same host w .expr) d d' ps) :
    Step w (fun v v' => ∃ o o' d d', v = .cons o d ∧ v' = .cons o' d' ∧ Same host w .call ps o o' ∧
        Each (Same host w .expr) d d' ps)
      (expandList host (.cons o d)) (expandList host (.cons o' d')) := by
  refine (step_ssexpandOf (.inr rfl) ho).bind fun r r' hr => ?_
  refine (step_expandList hd).bind fun v v' hv => ?_
  exact .pure ⟨_, _, _, _, rfl, rfl, hr, hv.1⟩

end Expansion

section Uniqs

variable {ps : Renaming}

/-- A list of names. -/
def symbols : List Sym → Value
  | [] => .nil
  | g :: gs => .cons (.symbol g) (symbols gs)

theorem each_symbols (hstd : Standard host w) {gs hs : List Sym} (hgs : (silent host w).hidden gs)
    (hsub : ∀ g ∈ gs, g ∈ hs) : Each (Same host w .expr) (symbols gs) (symbols gs) (kept hs ++ ps) := by
  induction gs with
  | nil => exact .nil _
  | cons g gs ih =>
    obtain ⟨n, rfl⟩ := hgs g (.head _)
    refine .cons ?_ (ih (fun g hg => hgs g (.tail _ hg)) fun g hg => hsub g (.tail _ hg))
    exact .name (hstd.uniqSyntax n) (hstd.uniqSyntax n) (.kept (hsub _ (.head _)) ps) nofun
      (fun _ h => absurd rfl h) ⟨nofun, fun h => absurd rfl h⟩

theorem args_symbols {R : Renaming → Value → Value → Prop} {B : Sym → Sym → Prop}
    (hB : ∀ g, B g g) (g : Sym) (gs : List Sym) (dsb : PutOff) :
    Args R B (symbols (g :: gs)) (symbols (g :: gs)) ps dsb (kept (g :: gs).reverse ++ ps) dsb := by
  induction gs generalizing g ps with
  | nil => exact .last (.required (hB g))
  | cons g' gs ih =>
    have htail := @ih ((g, g) :: ps) g'
    rw [show kept (g :: g' :: gs).reverse ++ ps = kept (g' :: gs).reverse ++ (g, g) :: ps by
      simp [kept]]
    exact .more (.required (hB g)) htail

theorem params_symbols {R : Renaming → Value → Value → Prop} {B : Sym → Sym → Prop}
    (hB : ∀ g, B g g) (gs : List Sym) :
    Params R B (symbols gs) (symbols gs) ps (kept gs.reverse ++ ps) := by
  cases gs with
  | nil => exact .none ps
  | cons g gs => exact .list (args_symbols hB g gs []) (.nil _)

theorem step_andfUniqs {R : Renaming → Value → Value → Prop} {d d' : Value}
    (h : Each R d d' ps) (gs : List Sym) (hgs : (silent host w).hidden gs) :
    Step w (fun v v' => ∃ gs, v = symbols gs ∧ v' = symbols gs ∧ (silent host w).hidden gs)
      (andfUniqs host d (symbols gs)) (andfUniqs host d' (symbols gs)) := by
  induction h generalizing gs with
  | nil => exact .pure ⟨gs, rfl, rfl, hgs⟩
  | cons _ _ ih =>
    have huniq : Step w (fun v v' => ∃ n : Nat, v = .symbol (host.intern s!"g{n}") ∧ v' = v)
        (arcUniq host) (arcUniq host) :=
      fun s hs => .inr ⟨_, _, _, rfl, rfl, ⟨_, rfl, rfl⟩, hs⟩
    refine huniq.bind ?_
    rintro _ _ ⟨n, rfl, rfl⟩
    refine @ih (host.intern s!"g{n}" :: gs) fun g hg => ?_
    rcases List.mem_cons.mp hg with rfl | hg
    · exact ⟨n, rfl⟩
    · exact hgs g hg
  | tail ht ht' =>
    rw [andfUniqs_of_tail ht, andfUniqs_of_tail ht']
    exact .throw

theorem step_andfBody {uniqs fs fs' : Value}
    (hu : Each (Same host w .expr) uniqs uniqs ps) (hfs : Each (Same host w .operand) fs fs' ps)
    {b b' : Value} (hb : Each (Same host w .expr) b b' ps) :
    Step w (fun v v' => Each (Same host w .expr) v v' ps) (andfBody uniqs fs b)
      (andfBody uniqs fs' b') := by
  induction hfs generalizing b b' with
  | nil => exact .pure hb
  | cons hf _ ih => exact ih hu (.cons (.app (Same.operand_op hf) hu) hb)
  | tail ht ht' =>
    rw [andfBody_of_tail ht, andfBody_of_tail ht']
    exact .throw

theorem step_listReverseOnto {R : Renaming → Value → Value → Prop} {d d' acc acc' : Value}
    (h : Each R d d' ps) (hacc : Each R acc acc' ps) :
    Step w (fun v v' => Each R v v' ps) (listReverseOnto d acc) (listReverseOnto d' acc') := by
  induction h generalizing acc acc' with
  | nil => exact .pure hacc
  | cons ha _ ih => exact ih (.cons ha hacc)
  | tail ht ht' =>
    rw [listReverseOnto_of_tail ht, listReverseOnto_of_tail ht']
    exact .throw

end Uniqs

section And

variable {ps : Renaming} {d d' : Value}

theorem expandList_and (h : host.ssexpand .sAnd = .ok .nil) (d : Value) :
    expandList host (.cons (.symbol .sAnd) d) =
      (do pure (.cons (.symbol .sAnd) (← expandList host d))) := by
  rw [expandList, ssexpandOf, h]
  rfl

theorem Each.isList_eq {R : Renaming → Value → Value → Prop} (h : Each R d d' ps) :
    isList d = isList d' := by
  induction h with
  | nil => rfl
  | cons _ _ ih => exact ih
  | tail ht ht' =>
    have hfalse : ∀ v, isTail v → isList v = false := by
      intro v hv
      cases v <;> simp_all [isTail, isList]
    rw [hfalse _ ht, hfalse _ ht']

/-- The standard `and` is expanded alike. -/
theorem same_andExpansion (hmac : isMacro host w (.symbol .sAnd) = true)
    (hd : Each (Same host w .expr) d d' ps) :
    Same host w .expr ps (andExpansion d) (andExpansion d') := by
  cases hd with
  | nil => exact .atom rfl rfl
  | @cons _ _ _ d d' ha hd =>
    by_cases hnil : d = .nil
    · rw [hnil, hd.nil_iff.mp hnil]
      exact ha
    · rw [andExpansion_cons hnil, andExpansion_cons (mt hd.nil_iff.mpr hnil)]
      exact .ifForm (.cons ha (.cons (.and hmac hd) (.nil _)))
  | tail ht ht' =>
    rw [andExpansion_of_tail ht, andExpansion_of_tail ht']
    exact .atom rfl rfl

/-- A call of the standard `and` is compiled as what it expands to. -/
theorem compileCall_and {expand : Value → Globals W → Except CompileError (Value × Globals W)}
    (hand : KnowsAnd host w) (hexpand : host.ismacro w .sAnd = some expand)
    (hlist : isList d = true) {s : State W} (hs : s.globals.world = w) {ctx : Cctx} {env : CEnv}
    {cont : Bool} :
    compileCall host compile (.cons (.symbol .sAnd) d) ctx env cont s =
      compile (andExpansion d) ctx env cont s := by
  have hmacro : Yields (macroOf host (.symbol .sAnd)) s (some expand) s := by
    rw [Yields, macroOf, hs, hexpand]
  have happly : Yields (applyMacro expand d) s (andExpansion d) s := by
    rw [Yields, applyMacro, hand expand hexpand d _ hlist]
  simp only [compileCall, car_pair, pure_bind, inlineFuncOf_none (show isInlined .sAnd = false from rfl),
    compileApply, cdr_pair]
  rw [bind_of_ok hmacro]
  exact bind_of_ok happly

end And

section Calls

variable (hc : CompilesSame host w compile) {ps : Renaming} {env env' : CEnv}
  {d d' : Value}

/-- The functions of a `compose` around its arguments. -/
theorem step_fold {fs fs' : Value} (hfs : Each (Same host w .operand) fs fs' ps)
    (hd : Each (Same host w .expr) d d' ps) :
    Step w (Same host w .expr ps) (fold fs d) (fold fs' d') := by
  induction hfs with
  | nil => exact .throw
  | cons hf hfs ih =>
    have happ := fun {xs xs'} (hxs : Each (Same host w .expr) xs xs' _) =>
      Renames.app (Same.operand_op hf) hxs
    cases hfs with
    | nil => exact .pure (happ hd)
    | cons hg hgs =>
      refine (ih hd).bind fun v v' hv => ?_
      exact .pure (happ (.cons hv (.nil _)))
    | tail ht ht' =>
      rw [fold_cons (ne_nil_of_tail ht), fold_cons (ne_nil_of_tail ht'), fold_of_tail ht,
        fold_of_tail ht']
      exact .throw_bind
  | tail ht ht' =>
    rw [fold_of_tail ht, fold_of_tail ht']
    exact .throw

variable (henv : EnvsAlike ps env env')

include hc henv

theorem step_compileCompose {fs fs' : Value} (hfs : Each (Same host w .operand) fs fs' ps)
    (hd : Each (Same host w .expr) d d' ps) (f f' : Value) (ctx : Cctx) (cont : Bool) :
    Step w Eq (compileCompose compile (.cons (.cons f fs) d) ctx env cont)
      (compileCompose compile (.cons (.cons f' fs') d') ctx env' cont) := by
  simp only [compileCompose, car, cdr, pure_bind]
  exact (step_fold hfs hd).bind fun v v' hv => hc _ _ _ _ _ _ _ henv hv

theorem step_compileComplement (hstd : Standard host w) (hno : (silent host w).inserted ps .sNo)
    {fs fs' : Value} (hfs : Each (Same host w .operand) fs fs' ps)
    (hd : Each (Same host w .expr) d d' ps) (f f' : Value) (ctx : Cctx) (cont : Bool) :
    Step w Eq (compileComplement compile (.cons (.cons f fs) d) ctx env cont)
      (compileComplement compile (.cons (.cons f' fs') d') ctx env' cont) := by
  simp only [compileComplement, car_pair, cdr_pair, pure_bind]
  cases hfs with
  | nil => exact .throw_bind
  | cons hg hgs =>
    simp only [car_pair, cdr_pair, pure_bind]
    refine Lockstep.ite (not_congr hgs.nil_iff) .throw (hc _ _ _ _ _ _ _ henv ?_)
    have hname : Same host w .op ps (.symbol .sNo) (.symbol .sNo) :=
      .name hstd.noSyntax hstd.noSyntax (hno.resolve_left (by simp [hstd.noMacro]))
        (fun _ _ => rfl) (fun _ _ => hstd.noMacro) ⟨nofun, fun h => absurd rfl h⟩
    exact .app hname (.cons (.app hg.operand_op hd) (.nil _))
  | tail ht ht' =>
    rw [cdr_of_not_cons (not_cons_of_tail ht), cdr_of_not_cons (not_cons_of_tail ht')]
    exact .throw_bind

theorem step_compileAndf (hstd : Standard host w) {fs fs' : Value}
    (hand : ∀ gs, (silent host w).hidden gs → (silent host w).inserted (kept gs ++ ps) .sAnd)
    (hfs : ∀ gs, (silent host w).hidden gs → Each (Same host w .operand) fs fs' (kept gs ++ ps))
    (hd : Each (Same host w .expr) d d' ps) (f f' : Value) (ctx : Cctx) (cont : Bool) :
    Step w Eq (compileAndf host compile (.cons (.cons f fs) d) ctx env cont)
      (compileAndf host compile (.cons (.cons f' fs') d') ctx env' cont) := by
  simp only [compileAndf, car_pair, cdr_pair, pure_bind]
  refine (step_andfUniqs hd [] nofun).bind ?_
  rintro _ _ ⟨gs, rfl, rfl, hgs⟩
  have hrev : (silent host w).hidden gs.reverse := fun g hg => hgs g (List.mem_reverse.mp hg)
  have huniqs : Each (Same host w .expr) (symbols gs) (symbols gs) (kept gs.reverse ++ ps) :=
    each_symbols hstd hgs (by simp)
  refine (step_andfBody huniqs (hfs _ hrev) (.nil _)).bind fun b b' hb => ?_
  refine (step_listReverseOnto hb (.nil _)).bind fun b b' hb => ?_
  refine hc _ _ _ _ _ _ _ henv (.app (.list (by decide) ⟨rfl, rfl⟩ ?_) hd)
  refine .fn (params_symbols (fun _ h => absurd rfl h) gs) (.cons ?_ (.nil _))
  rcases hand _ hrev with hmac | halike
  · exact .and hmac hb
  · by_cases hmac : isMacro host w (.symbol .sAnd) = true
    · exact .and hmac hb
    · refine .app (.name hstd.andSyntax hstd.andSyntax halike (fun _ _ => rfl)
        (fun _ _ => by simpa using hmac) ⟨nofun, fun h => absurd rfl h⟩) hb

theorem step_compileApply {o o' : Value} (ho : Same host w .call ps o o')
    (hfun : ∀ f d, o = .cons f d → isFunctional f = false)
    (hd : Each (Same host w .expr) d d' ps) (ctx : Cctx) (cont : Bool) :
    Step w Eq (compileApply host compile (.cons o d) ctx env cont)
      (compileApply host compile (.cons o' d') ctx env' cont) := by
  simp only [compileApply, car_pair, cdr_pair, pure_bind]
  refine (step_macroOf ho.not_macro.1 ho.not_macro.2).bind ?_
  rintro _ _ ⟨rfl, rfl⟩
  refine (step_applyArgs hc henv hd _ 0).bind ?_
  rintro ⟨ctx, nargs⟩ _ rfl
  refine (hc _ _ _ _ _ _ _ henv (ho.call_expr hfun)).bind ?_
  rintro ctx _ rfl
  exact .pure rfl

theorem step_compileCall (hstd : Standard host w) {o o' : Value} (ho : Same host w .call ps o o')
    (hd : Each (Same host w .expr) d d' ps) (ctx : Cctx) (cont : Bool) :
    Step w Eq (compileCall host compile (.cons o d) ctx env cont)
      (compileCall host compile (.cons o' d') ctx env' cont) := by
  cases hf : inlineFuncOf compile o with
  | some f =>
    simp only [compileCall, car_pair, pure_bind, ← ho.inlineFuncOf_eq, hf]
    exact step_inlineFuncOf hc henv hd o o' hf ctx cont
  | none =>
    have hf' : inlineFuncOf compile o' = none := by rw [← ho.inlineFuncOf_eq, hf]
    by_cases hfun : ∀ f d, o = .cons f d → isFunctional f = false
    · have hfun' := ho.functional hfun
      rw [compileCall_apply hf hfun, compileCall_apply hf' hfun']
      exact step_compileApply hc henv ho hfun hd ctx cont
    · simp only [compileCall, car_pair, pure_bind, hf, hf']
      generalize hm : Spot.call = m at ho
      cases ho with
      | compose _ h => exact step_compileCompose hc henv h hd _ _ ctx cont
      | complement _ hno h => exact step_compileComplement hc henv hstd hno h hd _ _ ctx cont
      | andf _ hand h => exact step_compileAndf hc henv hstd hand h hd _ _ ctx cont
      | list _ hhead =>
        refine absurd (fun f d ho => ?_) hfun
        cases ho
        exact hhead.1
      | atom _ hcons =>
        refine absurd (fun f d ho => ?_) hfun
        subst ho
        simp [consP] at hcons
      | name => exact absurd (fun _ _ ho => Value.noConfusion ho) hfun
      | special => exact absurd (fun _ _ ho => Value.noConfusion ho) hfun
      | broken => exact absurd (fun _ _ ho => Value.noConfusion ho) hfun
      | _ => cases hm

theorem step_compileAnd (hstd : Standard host w) (hmac : isMacro host w (.symbol .sAnd) = true)
    (hd : Each (Same host w .expr) d d' ps) (ctx : Cctx) (cont : Bool) :
    Step w Eq
      (do compileCall host compile (← expandList host (.cons (.symbol .sAnd) d)) ctx env cont)
      (do compileCall host compile (← expandList host (.cons (.symbol .sAnd) d')) ctx env' cont) := by
  obtain ⟨expand, hexpand⟩ := Option.isSome_iff_exists.mp hmac
  simp only [expandList_and hstd.andSyntax, bind_assoc, pure_bind]
  refine (step_expandList hd).bind fun v v' hv => ?_
  have hlist' : isList v' = true := hv.1.isList_eq ▸ hv.2
  intro s hs
  simp only [Yields, compileCall_and hstd.and hexpand hv.2 hs,
    compileCall_and hstd.and hexpand hlist' hs]
  exact hc _ _ _ _ _ _ _ henv (same_andExpansion hmac hv.1) s hs

end Calls

section Main

variable {ps : Renaming} {env env' : CEnv}

theorem step_compileList (hc : CompilesSame host w compile) (hstd : Standard host w)
    (henv : EnvsAlike ps env env') (fuel : Nat) {o o' d d' : Value}
    (h : Same host w .expr ps (.cons o d) (.cons o' d')) (ctx : Cctx) (cont : Bool) :
    Step w Eq (compileList host compile (macex host fuel) o d ctx env cont)
      (compileList host compile (macex host fuel) o' d' ctx env' cont) := by
  cases h with
  | atom _ hcons => simp [consP] at hcons
  | quote d =>
    simp only [compileList, compileQuote]
    cases d with
    | cons a d => exact .pure rfl
    | _ => exact .throw_bind
  | ifForm h => exact step_compileIf hc henv h ctx cont
  | assign h =>
    refine (step_compileAssignFrom hc henv fuel h ctx).bind ?_
    rintro ctx _ rfl
    exact .pure rfl
  | fn hp hb => exact step_compileFn hc hp hb henv ctx cont
  | fnOther hd hd' =>
    simp only [compileList, compileFn, car_of_not_cons hd, car_of_not_cons hd']
    exact .throw_bind
  | app ho hd =>
    rw [compileList_app (Same.not_special ho).1, compileList_app (Same.not_special ho).2]
    refine (step_expandCall ho hd).bind ?_
    rintro _ _ ⟨o, o', d, d', rfl, rfl, ho, hd⟩
    exact step_compileCall hc henv hstd ho hd ctx cont
  | and hmac hd => exact step_compileAnd hc henv hstd hmac hd ctx cont
  | list hm => exact absurd rfl hm
  | compose hm => exact absurd rfl hm
  | complement hm => exact absurd rfl hm
  | andf hm => exact absurd rfl hm

theorem arcCompile_constant {s : Sym} (h : isConstant s = true) (fuel : Nat) (ctx : Cctx)
    (env : CEnv) (cont : Bool) :
    arcCompile host (fuel + 1) (.symbol s) ctx env cont =
      pure (compileLiteral host (.symbol s) ctx cont) := by
  rw [arcCompile, if_pos (show literalP (.symbol s) = true from h)]

theorem arcCompile_symbol {s : Sym} (h : isConstant s = false) (fuel : Nat) (ctx : Cctx)
    (env : CEnv) (cont : Bool) :
    arcCompile host (fuel + 1) (.symbol s) ctx env cont =
      match host.ssexpand s with
      | .error e => throw e
      | .ok ssx =>
        if ssx = .nil then pure (compileIdent host (.symbol s) ctx env cont)
        else arcCompile host fuel ssx ctx env cont := by
  rw [arcCompile, if_neg (by simpa [isConstant] using h)]
  cases host.ssexpand s <;> rfl

/-- Renamings that only the environment sees leave the code as it is. -/
theorem step_arcCompile (hstd : Standard host w) (fuel : Nat) :
    CompilesSame host w (arcCompile host fuel) := by
  induction fuel with
  | zero => exact fun _ _ _ _ _ _ _ _ _ => .throw
  | succ fuel ih =>
    intro ps e e' ctx env env' cont henv h
    cases h with
    | atom hs hcons =>
      cases e with
      | symbol => simp [isSymbol] at hs
      | cons => simp [consP] at hcons
      | nil => exact .pure rfl
      | tru => exact .pure rfl
      | fixnum => exact .pure rfl
      | atom => exact .pure rfl
      | _ => exact .throw
    | @name _ _ s t hs ht hst _ _ hname =>
      by_cases hconst : isConstant s = true
      · have heq : s = t := by
          by_contra hne
          rw [(hname.2 hne).1.notConstant] at hconst
          cases hconst
        subst heq
        rw [arcCompile_constant hconst, arcCompile_constant hconst]
        exact .pure rfl
      · have hconst' : isConstant t = false := by
          by_cases heq : s = t
          · rw [← heq]
            simpa using hconst
          · exact (hname.2 heq).2.notConstant
        rw [arcCompile_symbol (by simpa using hconst), arcCompile_symbol hconst', hs, ht,
          ← compileIdent_same henv hst]
        exact .pure rfl
    | special hs ht hv hv' hcs hct _ _ hrec =>
      simp only [arcCompile_symbol hcs, arcCompile_symbol hct, hs, ht, if_neg hv, if_neg hv']
      exact ih _ _ _ _ _ _ _ henv hrec
    | @broken _ _ s _ he _ =>
      by_cases hconst : isConstant s = true
      · rw [arcCompile_constant hconst, arcCompile_constant hconst]
        exact .pure rfl
      · rw [arcCompile_symbol (by simpa using hconst), arcCompile_symbol (by simpa using hconst), he]
        exact .throw
    | list hm => exact absurd rfl hm
    | compose hm => exact absurd rfl hm
    | complement hm => exact absurd rfl hm
    | andf hm => exact absurd rfl hm
    | quote d => exact step_compileList ih hstd henv fuel (.quote d) ctx cont
    | ifForm h => exact step_compileList ih hstd henv fuel (.ifForm h) ctx cont
    | assign h => exact step_compileList ih hstd henv fuel (.assign h) ctx cont
    | fn hp hb => exact step_compileList ih hstd henv fuel (.fn hp hb) ctx cont
    | fnOther hd hd' => exact step_compileList ih hstd henv fuel (.fnOther hd hd') ctx cont
    | app ho hd => exact step_compileList ih hstd henv fuel (.app ho hd) ctx cont
    | and hmac hd => exact step_compileList ih hstd henv fuel (.and hmac hd) ctx cont

end Main

section Instances

/-- Numbers and functions written in C are not used. -/
def plainRuntime : Runtime where
  isString _ := false
  arith _ _ _ := .error .stuck
  add2String := .nil
  applyOther _ := .error (.err "cannot apply value")
  resumeAff _ := .error .stuck

theorem plainHost_standard : Standard plainHost () where
  noSyntax := rfl
  andSyntax := rfl
  uniqSyntax _ := rfl
  noMacro := rfl
  and := nofun

/-- `((fn (f x) (f x)) (fn (y) y) 5)`, with other names for `f` and `x`. -/
def callArgument (f x : Sym) : Value :=
  let y : Value := .symbol (.id 2)
  listOf [listOf [.symbol .sFn, listOf [.symbol f, .symbol x], listOf [.symbol f, .symbol x]],
    listOf [.symbol .sFn, listOf [y], y], .fixnum 5]

/-- The names may be changed wherever the operands alone are names. -/
theorem callArgument_renames {care : Care} {f x f' x' : Sym}
    (hf : f ≠ x) (hf' : f' ≠ x') (hfresh : f ≠ f' → Fresh plainHost () f')
    (hx : x ≠ x' → Fresh plainHost () x') (hspec : f = f' → isSpecial f = false)
    (hcare : care.name .op f f' ∧ care.name .expr x x' ∧ care.name .expr (.id 2) (.id 2) ∧
      ∀ o o', isFunctional o = false → isFunctional o' = false → care.head o o') :
    Renames plainHost () care .expr [] (callArgument f x) (callArgument f' x') := by
  obtain ⟨hnf, hnx, hny, hhead⟩ := hcare
  have hbody : Renames plainHost () care .expr [(x, x'), (f, f')]
      (listOf [.symbol f, .symbol x]) (listOf [.symbol f', .symbol x']) := by
    refine .app (.name rfl rfl (.skip hf hf' .head) (fun h _ => hspec h)
      (fun _ _ => rfl) hnf) (.cons (.name rfl rfl .head nofun (fun _ h => absurd rfl h)
      hnx) (.nil _))
  have hfn := @Renames.fn _ plainHost () care _ _ _ _ _ _
    (.list (.more (.required hfresh) (.last (.required hx))) (.nil _)) (.cons hbody (.nil _))
  have hid : Renames plainHost () care .expr [] (listOf [.symbol .sFn, listOf [.symbol (.id 2)],
      .symbol (.id 2)]) (listOf [.symbol .sFn, listOf [.symbol (.id 2)], .symbol (.id 2)]) :=
    .fn (.list (.last (.required fun h => absurd rfl h)) (.nil _)) (.cons (.name rfl rfl
      .head nofun (fun _ h => absurd rfl h) hny) (.nil _))
  exact .app (.list (by decide) (hhead _ _ rfl rfl) hfn) (.cons hid (.cons (.atom rfl rfl) (.nil _)))

/-- The empty system, in which the expressions are run. -/
def emptyState : State Unit := ⟨[], ⟨0, ()⟩⟩

def emptyThread : Machine := arcMkthread fun _ => .unbound

theorem callArgument_value : Behaves plainHost plainRuntime (callArgument (.id 0) (.id 1)) []
    emptyState emptyThread (.ran ⟨0, ()⟩ (.ok (.fixnum 5, fun _ => .unbound, []))) :=
  .of_run 60 (compiled_ok 6 fun _ => rfl) rfl rfl

theorem callArgument_error : Behaves plainHost plainRuntime (callArgument .sCar (.id 1)) []
    emptyState emptyThread (.ran ⟨0, ()⟩ (.error (.err "can't take car of value"))) :=
  .of_run 60 (compiled_ok 6 fun _ => rfl) rfl rfl

end Instances

end Arcueid.Scope
