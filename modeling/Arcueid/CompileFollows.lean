import Arcueid.CompileTour

/-! Compiling an expression comes to what the tour of its parts comes to. -/

namespace Arcueid

open Parts

variable {W : Type} {host : Host W} {w : W} {o : Tour.Oracle Value Fault}

/-- Macros are looked up in `w` all along, and one that is called may do
anything. -/
def compileView (w : W) : Tour.View (State W) CompileError Fault where
  keeps s := s.globals.world = w
  count s := s.globals.uniqnum
  kind := CompileError.fault
  excused f := f = .macroCall

/-- The computation comes to what the parts come to. -/
abbrev Follow {α β : Type} (w : W) (o : Tour.Oracle Value Fault) (x : Comp W α) (t : Parts β)
    (Q : α → β → Prop) : Prop :=
  Tour.Follows (compileView w) o x t Q

/-- Whatever is compiled comes to what the oracle says. -/
def FollowsParts (w : W) (o : Tour.Oracle Value Fault) (compile : CompileFn W) : Prop :=
  ∀ e ctx env cont, Follow w o (compile e ctx env cont) (part e) fun _ _ => True

section Accessors

variable {α β γ δ : Type} {x : Comp W α} {t : Parts β} {v : Value}

theorem follow_pure {a : α} {b : β} {Q : α → β → Prop} (h : Q a b) :
    Follow w o (pure a : Comp W α) (pure b : Parts β) Q :=
  Tour.Follows.pure h

theorem follow_err {msg : String} {Q : α → β → Prop} :
    Follow w o (throw (.err msg) : Comp W α) (raise : Parts β) Q :=
  Tour.Follows.throw rfl

theorem follow_access {Q : α → β → Prop} :
    Follow w o (throw .badAccess : Comp W α) (access : Parts β) Q :=
  Tour.Follows.throw rfl

theorem follow_car : Follow w o (car v : Comp W Value) (Parts.car v) Eq := by
  cases v with
  | cons a d => exact follow_pure rfl
  | _ => exact follow_access

theorem follow_cdr : Follow w o (cdr v : Comp W Value) (Parts.cdr v) Eq := by
  cases v with
  | cons a d => exact follow_pure rfl
  | _ => exact follow_access

theorem follow_oargdef : Follow w o (oargdef v : Comp W Value) (ofOargdef v) Eq := by
  unfold oargdef ofOargdef
  split
  · exact follow_pure rfl
  · exact follow_car

theorem follow_isOptional {a d : Value} {optional : Bool} :
    Follow w o (isOptional a d optional : Comp W Bool) (ofIsOptional a d optional) Eq := by
  unfold isOptional ofIsOptional
  split
  · refine follow_car.bind ?_
    rintro name _ rfl
    exact follow_pure rfl
  · exact follow_pure rfl

end Accessors

/-- The macro of an operator, in the world that is kept to. -/
theorem follow_macroOf {α β : Type} {fname : Value}
    {f : Option (Value → Globals W → Except CompileError (Value × Globals W)) → Comp W α}
    {t : Parts β} {Q : α → β → Prop}
    (hnone : isMacro host w fname = false → Follow w o (f none) t Q)
    (hsome : ∀ op expand, fname = .symbol op → host.ismacro w op = some expand →
      Follow w o (f (some expand)) t Q) :
    Follow w o (macroOf host fname >>= f) t Q := by
  intro s r k hs hw
  cases fname with
  | symbol op =>
    have heq : (macroOf host (.symbol op) >>= f) s = f (host.ismacro w op) s := by
      rw [← hs]
      rfl
    rw [heq]
    cases hm : host.ismacro w op with
    | none =>
      refine hnone ?_ s r k hs hw
      rw [isMacro, hm]
      rfl
    | some expand => exact hsome op expand rfl hm s r k hs hw
  | _ => exact hnone rfl s r k hs hw

/-- The place of an assignment, whose macro is not called. -/
theorem follow_macex (fuel : Nat) (v : Value) :
    Follow w o (macex host (fuel + 1) v) (ofMacex host w v) Eq := by
  cases v with
  | cons op args =>
    rw [macex, ofMacex]
    refine follow_macroOf (fun hno => ?_) fun op' expand hop hm => ?_
    · rw [hno]
      exact follow_pure rfl
    · have hyes : isMacro host w op = true := by
        rw [hop, isMacro, hm]
        rfl
      rw [if_pos hyes]
      exact Tour.Follows.excuse rfl
  | _ => exact follow_pure rfl

section Forms

variable {compile : CompileFn W} (hc : FollowsParts w o compile)

include hc in
theorem follow_compileIf (e : Value) (ctx : Cctx) (env : CEnv) (cont : Bool) :
    Follow w o (compileIf compile e ctx env cont) (ofIf e) fun _ _ => True := by
  fun_induction ofIf e generalizing ctx with
  | case1 => exact follow_pure trivial
  | case2 e => exact hc e ctx env cont
  | case3 e thn els ih =>
    refine (hc e _ _ _).bind fun _ _ _ => ?_
    refine (hc thn _ _ _).bind fun _ _ _ => ?_
    exact (ih _).after fun _ _ _ => follow_pure trivial
  | case4 e d hnil hcons =>
    rw [compileIf]
    · exact (hc e _ _ _).bind fun _ _ _ => follow_access
    · exact hnil
    · exact hcons
  | case5 v hnil hone htwo hcons =>
    rw [compileIf]
    · exact follow_access
    · exact hnil
    · exact hone
    · exact htwo
    · exact hcons

include hc in
theorem follow_optional (d : Value) (l : ArgLoop) :
    Follow w o (compileOptional compile d l) (ofOptional d) fun l' _ =>
      l'.optargbegin = true ∧ l'.dsb = l.dsb := by
  refine follow_car.bind ?_
  rintro name _ rfl
  split
  · refine follow_cdr.bind ?_
    rintro d _ rfl
    refine follow_oargdef.bind ?_
    rintro v _ rfl
    exact (hc v _ _ _).after fun _ _ _ => follow_pure ⟨rfl, rfl⟩
  · exact follow_err

include hc in
theorem follow_destructureOptional (d : Value) (ctx : Cctx) (env : CEnv) (idx : Nat) :
    Follow w o (destructureOptional compile d ctx env idx) (ofOptional d) fun _ _ => True := by
  refine follow_car.bind ?_
  rintro name _ rfl
  split
  · refine follow_cdr.bind ?_
    rintro d _ rfl
    refine follow_oargdef.bind ?_
    rintro v _ rfl
    exact (hc v _ _ _).after fun _ _ _ => follow_pure trivial
  · exact follow_err

include hc in
theorem follow_destructure (v : Value) (optional : Bool) (ctx : Cctx) (env : CEnv) (idx : Nat) :
    Follow w o (destructure compile v ctx env idx optional) (ofDestructure v optional)
      fun _ _ => True := by
  induction v generalizing optional ctx env idx with
  | symbol s => exact follow_pure trivial
  | cons a d iha ihd =>
    rw [destructure, ofDestructure]
    refine follow_isOptional.bind ?_
    rintro b _ rfl
    split
    · exact follow_destructureOptional hc d ctx env idx
    split
    · exact (iha _ _ _ _).bind fun _ _ _ => ihd _ _ _ _
    split
    · exact iha _ _ _ _
    split
    · exact ihd _ _ _ _
    · exact follow_pure trivial
  | _ => exact follow_err

/-- The same patterns are put off, and optional arguments have begun or not. -/
def SameArgs (l : ArgLoop) (l' : ArgsSoFar) : Prop :=
  l.optargbegin = l'.1 ∧ l.dsb.map Prod.fst = l'.2

include hc in
theorem follow_compileArg (arg : Value) {l : ArgLoop} {l' : ArgsSoFar} (h : SameArgs l l') :
    Follow w o (compileArg compile arg l) (ofArg arg l') SameArgs := by
  obtain ⟨hbegin, hdsb⟩ := h
  cases arg with
  | symbol s =>
    rw [compileArg, ofArg, hbegin]
    split
    · exact follow_err
    · exact follow_pure ⟨rfl, hdsb⟩
  | cons a d =>
    by_cases ha : a = .symbol .sO
    · rw [ha, compileArg, ofArg]
      refine (follow_optional hc d l).map fun l₁ _ hl => ?_
      exact ⟨hl.1, by rw [hl.2]; exact hdsb⟩
    · rw [compileArg, ofArg]
      · exact follow_pure ⟨hbegin, by simp [hdsb]⟩
      · simpa using ha
      · simpa using ha
  | nil => exact follow_pure ⟨hbegin, hdsb⟩
  | _ => exact follow_err

include hc in
theorem follow_compileArgsFrom (envptr : Nat) (args : Value) {l : ArgLoop} {l' : ArgsSoFar}
    (h : SameArgs l l') :
    Follow w o (compileArgsFrom compile envptr args l) (ofArgsFrom args l') SameArgs := by
  induction args generalizing l l' with
  | cons arg rest _ ih =>
    rw [compileArgsFrom, ofArgsFrom]
    refine (follow_compileArg hc arg h).bind fun l₁ l₁' hl => ?_
    cases rest with
    | symbol s => exact follow_pure hl
    | nil => exact follow_pure hl
    | _ => exact ih hl
  | _ => exact follow_access

include hc in
theorem follow_compileDsb (dsb : List (Value × Nat)) (ctx : Cctx) (env : CEnv) (idx : Nat) :
    Follow w o (compileDsb compile dsb ctx env idx) (ofDsb (dsb.map Prod.fst)) fun _ _ => True := by
  induction dsb generalizing ctx env idx with
  | nil => exact follow_pure trivial
  | cons p dsb ih => exact (follow_destructure hc _ _ _ _ _).bind fun _ _ _ => ih _ _ _

include hc in
theorem follow_compileArgs (args : Value) (ctx : Cctx) (env : CEnv) :
    Follow w o (compileArgs compile args ctx env) (ofArgs args) fun _ _ => True := by
  cases args with
  | nil => exact follow_pure trivial
  | symbol s => exact follow_pure trivial
  | cons a d =>
    refine (follow_compileArgsFrom hc _ _ ⟨rfl, rfl⟩).bind fun l l' hl => ?_
    rw [← hl.2]
    exact (follow_compileDsb hc _ _ _ _).after fun _ _ _ => follow_pure trivial
  | _ => exact follow_err

include hc in
theorem follow_compileBody (body : Value) (ctx : Cctx) (env : CEnv) :
    Follow w o (compileBody compile body ctx env) (ofBody body) fun _ _ => True := by
  induction body generalizing ctx with
  | nil => exact follow_pure trivial
  | cons e rest _ ih => exact (hc e _ _ _).bind fun _ _ _ => ih _
  | _ => exact follow_access

include hc in
theorem follow_compileFn (expr : Value) (ctx : Cctx) (env : CEnv) (cont : Bool) :
    Follow w o (compileFn host compile expr ctx env cont) (ofFn expr) fun _ _ => True := by
  refine follow_car.bind ?_
  rintro args _ rfl
  refine follow_cdr.bind ?_
  rintro body _ rfl
  refine (follow_compileArgs hc _ _ _).bind fun _ _ _ => ?_
  refine (follow_compileBody hc _ _ _).after fun _ _ _ => ?_
  intro s r k hs hw
  cases hw
  exact ⟨_, _, rfl, hs, rfl, trivial⟩

theorem follow_compileQuote (expr : Value) (ctx : Cctx) (cont : Bool) :
    Follow w o (compileQuote host expr ctx cont) (ofQuote expr) fun _ _ => True :=
  follow_car.bind fun _ _ _ => follow_pure trivial

include hc in
theorem follow_compileAssignFrom {macex : Value → Comp W Value}
    (hmacex : ∀ v, Follow w o (macex v) (ofMacex host w v) Eq) (expr : Value) (ctx : Cctx)
    (env : CEnv) :
    Follow w o (compileAssignFrom host compile macex expr ctx env) (ofAssign host w expr)
      fun _ _ => True := by
  fun_induction ofAssign host w expr generalizing ctx with
  | case1 => exact follow_pure trivial
  | case2 place val rest ih =>
    refine (hmacex place).bind ?_
    rintro a _ rfl
    by_cases hnil : a = .nil
    · rw [if_pos hnil, if_pos (.inl hnil)]
      exact follow_err
    by_cases ht : a = .symbol .sT
    · rw [if_neg hnil, if_pos ht, if_pos (.inr ht)]
      exact follow_err
    rw [if_neg hnil, if_neg ht, if_neg (not_or.mpr ⟨hnil, ht⟩)]
    exact (hc val _ _ _).bind fun _ _ _ => ih _
  | case3 place rest hrest =>
    rw [compileAssignFrom]
    · exact (hmacex place).bind fun _ _ _ => follow_access
    · exact hrest
  | case4 v hnil hcons htwo =>
    rw [compileAssignFrom]
    · exact follow_access
    · exact hnil
    · exact hcons
    · exact htwo

include hc in
theorem follow_inlineArgs (args : Value) (ctx : Cctx) (env : CEnv) (count : Nat) :
    Follow w o (inlineArgs compile args ctx env count) (ofOperands args count)
      fun p n => p.2 = n := by
  induction args generalizing ctx count with
  | nil => exact follow_pure rfl
  | cons e rest _ ih => exact (hc e _ _ _).bind fun _ _ _ => ih _ _
  | _ => exact follow_access

include hc in
theorem follow_inlineFunc (instr : Inst) (nargs : Nat) (expr : Value) (ctx : Cctx) (env : CEnv)
    (cont : Bool) :
    Follow w o (inlineFunc compile instr nargs expr ctx env cont) (ofInlineFunc nargs expr)
      fun _ _ => True := by
  refine follow_cdr.bind ?_
  rintro args _ rfl
  refine (follow_inlineArgs hc _ _ _ _).bind ?_
  rintro ⟨ctx, count⟩ _ rfl
  dsimp only
  split
  · exact follow_pure trivial
  · exact follow_err

include hc in
theorem follow_inlinenFrom (inst : Inst) (args : Value) (ctx : Cctx) (env : CEnv) (count : Nat) :
    Follow w o (inlinenFrom compile inst args ctx env) (ofOperands args count) fun _ _ => True := by
  induction args generalizing ctx count with
  | nil => exact follow_pure trivial
  | cons e rest _ ih => exact (hc e _ _ _).bind fun _ _ _ => ih _ _
  | _ => exact follow_access

include hc in
theorem follow_compileInlinen (inst : Inst) (expr : Value) (ctx : Cctx) (env : CEnv)
    (cont : Bool) (base : Value) :
    Follow w o (compileInlinen compile inst expr ctx env cont base) (ofInlinen expr base)
      fun _ _ => True := by
  refine (hc base _ _ _).bind fun _ _ _ => ?_
  refine follow_cdr.bind ?_
  rintro args _ rfl
  exact (follow_inlinenFrom hc _ _ _ _ _).bind fun _ _ _ => follow_pure trivial

include hc in
theorem follow_compileInlinen2 (inst : Inst) (expr : Value) (ctx : Cctx) (env : CEnv)
    (cont : Bool) (base : Value) :
    Follow w o (compileInlinen2 compile inst expr ctx env cont base) (ofInlinen2 expr base)
      fun _ _ => True := by
  refine follow_cdr.bind ?_
  rintro xexpr _ rfl
  rcases arcListLength xexpr with _ | _ | n
  · exact follow_err
  · exact follow_compileInlinen hc _ _ _ _ _ _
  · refine follow_car.bind ?_
    rintro a _ rfl
    refine follow_cdr.bind ?_
    rintro d _ rfl
    refine follow_car.bind ?_
    rintro b _ rfl
    exact follow_compileInlinen hc _ _ _ _ _ _

include hc in
theorem follow_inlinePlus (expr : Value) (ctx : Cctx) (env : CEnv) (cont : Bool) :
    Follow w o (inlinePlus compile expr ctx env cont) (ofPlus expr) fun _ _ => True := by
  refine follow_cdr.bind ?_
  rintro xexpr _ rfl
  rcases arcListLength xexpr with _ | _ | n
  · exact hc _ _ _ _
  · refine follow_car.bind ?_
    rintro a _ rfl
    exact hc _ _ _ _
  · exact follow_compileInlinen2 hc _ _ _ _ _ _

theorem follow_fold (expr final : Value) :
    Follow w o (fold expr final : Comp W Value) (ofFold expr final) Eq := by
  induction expr with
  | cons f rest _ ih =>
    cases rest with
    | nil => exact follow_pure rfl
    | _ =>
      refine ih.bind ?_
      rintro v _ rfl
      exact follow_pure rfl
  | _ => exact follow_access

include hc in
theorem follow_compileCompose (expr : Value) (ctx : Cctx) (env : CEnv) (cont : Bool) :
    Follow w o (compileCompose compile expr ctx env cont) (ofCompose expr) fun _ _ => True := by
  refine follow_car.bind ?_
  rintro op _ rfl
  refine follow_cdr.bind ?_
  rintro composer _ rfl
  refine follow_cdr.bind ?_
  rintro cargs _ rfl
  refine (follow_fold _ _).bind ?_
  rintro v _ rfl
  exact hc _ _ _ _

include hc in
theorem follow_compileComplement (expr : Value) (ctx : Cctx) (env : CEnv) (cont : Bool) :
    Follow w o (compileComplement compile expr ctx env cont) (ofComplement expr)
      fun _ _ => True := by
  refine follow_car.bind ?_
  rintro op _ rfl
  refine follow_cdr.bind ?_
  rintro complemented _ rfl
  refine follow_cdr.bind ?_
  rintro cargs _ rfl
  refine follow_cdr.bind ?_
  rintro more _ rfl
  split
  · exact follow_err
  · refine follow_car.bind ?_
    rintro f _ rfl
    exact hc _ _ _ _

include hc in
theorem follow_applyArgs (args : Value) (ctx : Cctx) (env : CEnv) (nargs : Nat) :
    Follow w o (applyArgs compile args ctx env nargs) (ofApplyArgs args) fun _ _ => True := by
  induction args generalizing ctx nargs with
  | nil => exact follow_pure trivial
  | cons e rest _ ih => exact (hc e _ _ _).bind fun _ _ _ => ih _ _
  | _ => exact follow_access

/-- The macro `and`, where it is one, is that of `arc.arc`. -/
def KnowsAnd (host : Host W) (w : W) : Prop :=
  ∀ expand, host.ismacro w .sAnd = some expand →
    ∀ args g, isList args = true → expand args g = .ok (andExpansion args, g)

theorem follow_applyMacro (hand : KnowsAnd host w) {op : Sym}
    {expand : Value → Globals W → Except CompileError (Value × Globals W)}
    (hm : host.ismacro w op = some expand) (args : Value) {f : Value → Comp W Cctx}
    (hf : ∀ v, Follow w o (f v) (part v) fun _ _ => True) :
    Follow w o (applyMacro expand args >>= f) (ofMacro (.symbol op) args) fun _ _ => True := by
  unfold ofMacro
  split
  · next h =>
    obtain ⟨hop, hlist⟩ := h
    cases hop
    intro s r k hs hw
    have heq : (applyMacro expand args >>= f) s = f (andExpansion args) s := by
      change (applyMacro expand args s >>= fun p => f p.1 p.2) = _
      rw [applyMacro, hand expand hm args s.globals hlist]
      rfl
    rw [heq]
    exact hf _ s r k hs hw
  · exact Tour.Follows.excuse rfl

include hc in
theorem follow_compileApply (hand : KnowsAnd host w) (expr : Value) (ctx : Cctx)
    (env : CEnv) (cont : Bool) :
    Follow w o (compileApply host compile expr ctx env cont) (ofApply host w expr)
      fun _ _ => True := by
  refine follow_car.bind ?_
  rintro fname _ rfl
  refine follow_cdr.bind ?_
  rintro args _ rfl
  refine follow_macroOf (fun hno => ?_) fun op expand hop hm => ?_
  · rw [hno]
    refine (follow_applyArgs hc _ _ _ _).bind fun _ _ _ => ?_
    exact (hc _ _ _ _).after fun _ _ _ => follow_pure trivial
  · have hyes : isMacro host w fname = true := by
      rw [hop, isMacro, hm]
      rfl
    rw [if_pos hyes, hop]
    exact follow_applyMacro hand hm args fun v => hc v _ _ _

theorem follow_andfUniqs (args uniqs : Value) :
    Follow w o (andfUniqs host args uniqs) (ofAndfUniqs host args uniqs) Eq := by
  induction args generalizing uniqs with
  | nil => exact follow_pure rfl
  | cons a rest _ ih =>
    intro s r k hs hw
    exact ih (.cons (.symbol (host.intern s!"g{s.globals.uniqnum}")) uniqs)
      { s with globals := { s.globals with uniqnum := s.globals.uniqnum + 1 } } r k hs hw
  | _ => exact follow_access

theorem follow_andfBody (uniqs fs body : Value) :
    Follow w o (andfBody uniqs fs body : Comp W Value) (ofAndfBody uniqs fs body) Eq := by
  induction fs generalizing body with
  | nil => exact follow_pure rfl
  | cons f rest _ ih => exact ih _
  | _ => exact follow_access

theorem follow_listReverseOnto (xs acc : Value) :
    Follow w o (listReverseOnto xs acc : Comp W Value) (ofReverseOnto xs acc) Eq := by
  induction xs generalizing acc with
  | nil => exact follow_pure rfl
  | cons a d _ ih => exact ih _
  | _ => exact follow_access

include hc in
theorem follow_compileAndf (expr : Value) (ctx : Cctx) (env : CEnv) (cont : Bool) :
    Follow w o (compileAndf host compile expr ctx env cont) (ofAndf host expr) fun _ _ => True := by
  refine follow_cdr.bind ?_
  rintro andargs _ rfl
  refine (follow_andfUniqs _ _).bind ?_
  rintro uniqs _ rfl
  refine follow_car.bind ?_
  rintro op _ rfl
  refine follow_cdr.bind ?_
  rintro fs _ rfl
  refine (follow_andfBody _ _ _).bind ?_
  rintro body _ rfl
  refine (follow_listReverseOnto _ _).bind ?_
  rintro body _ rfl
  exact hc _ _ _ _

/-- The expander of special syntax comes to an end. -/
def ExpandsOrFails (host : Host W) : Prop := ∀ s, host.ssexpand s ≠ .error .outOfFuel

theorem follow_ssexpandOf (hss : ExpandsOrFails host) (v : Value) :
    Follow w o (ssexpandOf host v) (ofSsexpand host v) Eq := by
  cases v with
  | symbol s =>
    intro st r k hst hw
    rw [ofSsexpand] at hw
    rw [ssexpandOf]
    cases hs : host.ssexpand s with
    | ok v =>
      rw [hs] at hw
      cases hw
      exact ⟨v, st, rfl, hst, rfl, rfl⟩
    | error e =>
      rw [hs] at hw
      cases e with
      | err msg =>
        cases hw
        exact .inr ⟨_, rfl, rfl⟩
      | badAccess =>
        cases hw
        exact .inr ⟨_, rfl, rfl⟩
      | outOfFuel => exact absurd hs (hss s)
  | _ => exact follow_pure rfl

theorem follow_expandList (hss : ExpandsOrFails host) (v : Value) :
    Follow w o (expandList host v) (ofExpandList host v) Eq := by
  induction v with
  | nil => exact follow_pure rfl
  | cons x xs _ ih =>
    refine (follow_ssexpandOf hss x).bind ?_
    rintro result _ rfl
    refine ih.bind ?_
    rintro xs _ rfl
    exact follow_pure rfl
  | _ => exact follow_access

include hc in
theorem follow_inlineFuncOf (op : Value) :
    match inlineFuncOf compile op, ofInlineFuncOf op with
    | some inline, some t => ∀ expr ctx env cont,
        Follow w o (inline expr ctx env cont) (t expr) fun _ _ => True
    | none, none => True
    | _, _ => False := by
  cases op with
  | symbol s =>
    cases s with
    | sCons => exact follow_inlineFunc hc _ _
    | sCar => exact follow_inlineFunc hc _ _
    | sCdr => exact follow_inlineFunc hc _ _
    | sPlus => exact follow_inlinePlus hc
    | sTimes => exact fun _ _ _ _ => follow_compileInlinen hc _ _ _ _ _ _
    | sMinus => exact fun _ _ _ _ => follow_compileInlinen2 hc _ _ _ _ _ _
    | sDiv => exact fun _ _ _ _ => follow_compileInlinen2 hc _ _ _ _ _ _
    | _ => trivial
  | _ => trivial

include hc in
theorem follow_compileCall (hand : KnowsAnd host w) (expr : Value) (ctx : Cctx)
    (env : CEnv) (cont : Bool) :
    Follow w o (compileCall host compile expr ctx env cont) (ofCall host w expr) fun _ _ => True := by
  refine follow_car.bind ?_
  rintro op _ rfl
  have hinline := follow_inlineFuncOf hc op
  cases hi : inlineFuncOf compile op with
  | some inline =>
    cases ht : ofInlineFuncOf op with
    | some t =>
      rw [hi, ht] at hinline
      exact hinline expr ctx env cont
    | none => simp [hi, ht] at hinline
  | none =>
    cases ht : ofInlineFuncOf op with
    | some t => simp [hi, ht] at hinline
    | none =>
      dsimp only
      split
      · exact follow_compileCompose hc _ _ _ _
      · exact follow_compileComplement hc _ _ _ _
      · exact follow_compileAndf hc _ _ _ _
      · next h₁ h₂ h₃ =>
        have happly := follow_compileApply hc hand expr ctx env cont
        (try split) <;>
          first
          | exact happly
          | exact absurd rfl (h₁ _)
          | exact absurd rfl (h₂ _)
          | exact absurd rfl (h₃ _)

include hc in
theorem follow_compileList (hand : KnowsAnd host w) (hss : ExpandsOrFails host)
    {macex : Value → Comp W Value} (hmacex : ∀ v, Follow w o (macex v) (ofMacex host w v) Eq) (op rest : Value) (ctx : Cctx)
    (env : CEnv) (cont : Bool) :
    Follow w o (compileList host compile macex op rest ctx env cont) (ofList host w op rest)
      fun _ _ => True := by
  unfold compileList ofList
  split
  · exact follow_compileIf hc _ _ _ _
  · exact follow_compileFn hc _ _ _ _
  · exact follow_compileQuote _ _ _
  · exact (follow_compileAssignFrom hc hmacex _ _ _).after fun _ _ _ => follow_pure trivial
  · next h₁ h₂ h₃ h₄ =>
    have hcall : Follow w o (expandList host (.cons op rest) >>= fun expr =>
          compileCall host compile expr ctx env cont)
        (ofExpandList host (.cons op rest) >>= ofCall host w) fun _ _ => True := by
      refine (follow_expandList hss _).bind ?_
      rintro expr _ rfl
      exact follow_compileCall hc hand _ _ _ _
    (try split) <;>
      first
      | exact hcall
      | exact absurd rfl h₁
      | exact absurd rfl h₂
      | exact absurd rfl h₃
      | exact absurd rfl h₄

end Forms

theorem follow_arcCompile (hand : KnowsAnd host w) (hss : ExpandsOrFails host)
    (fuel : Nat) : FollowsParts w (Tour.run (ofExpr host w) fuel) (arcCompile host (fuel + 1)) := by
  induction fuel with
  | zero =>
    intro e ctx env cont s r k _ hw
    cases hw
  | succ fuel ih =>
    intro e ctx env cont
    have hexpr : Follow w (Tour.run (ofExpr host w) fuel) (arcCompile host (fuel + 2) e ctx env cont)
        (ofExpr host w e) fun _ _ => True := by
      cases e with
      | symbol s =>
        rw [arcCompile, ofExpr]
        split
        · exact follow_pure trivial
        · refine (follow_ssexpandOf hss (.symbol s)).bind ?_
          rintro ssx _ rfl
          split
          · exact follow_pure trivial
          · exact ih _ _ _ _
      | cons op rest =>
        exact follow_compileList ih hand hss (follow_macex fuel) _ _ _ _ _
      | _ => first | exact follow_pure trivial | exact follow_err
    intro s r k hs hw
    refine hexpr s r k hs ?_
    rw [part, Tour.walk, Tour.run] at hw
    cases ht : Tour.walk (Tour.run (ofExpr host w) fuel) (ofExpr host w e)
        ((compileView w).count s) with
    | none =>
      rw [ht] at hw
      cases hw
    | some q =>
      obtain ⟨q, k'⟩ := q
      rw [ht] at hw
      cases q with
      | error e => exact hw
      | ok u => exact hw

end Arcueid
