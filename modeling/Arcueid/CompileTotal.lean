import Arcueid.CompileFollows

/-! The compiler comes to an end on every expression, and takes the car or the
cdr of something other than a cons exactly if the first malformed part that it
comes to is one that it does not check. -/

namespace Arcueid

open Parts

/-- Every value in the place of a car meets `Q`. -/
def Elts (Q : Value → Prop) : Value → Prop
  | .cons a d => Q a ∧ Elts Q a ∧ Elts Q d
  | _ => True

theorem Elts.mono {Q R : Value → Prop} (h : ∀ v, Q v → R v) {v : Value} (hv : Elts Q v) :
    Elts R v := by
  induction v with
  | cons a d iha ihd => exact ⟨h a hv.1, iha hv.2.1, ihd hv.2.2⟩
  | _ => trivial

/-- Not what a macro did. -/
def Fault.OfCompiler : Fault → Prop
  | .macroCall => False
  | _ => True

abbrev Parts.All {α : Type} (Q : Value → Prop) (R : α → Prop) (t : Parts α) : Prop :=
  Tour.All Q Fault.OfCompiler R t

section Forms

variable {Q : Value → Prop}

theorem all_part {e : Value} (h : Q e) : (part e).All Q fun _ => True := ⟨h, trivial⟩

theorem all_car {R : Value → Prop} {v : Value} (h : Elts R v) :
    (Parts.car v).All Q fun a => R a ∧ Elts R a := by
  cases v with
  | cons a d => exact ⟨h.1, h.2.1⟩
  | _ => trivial

theorem all_cdr {R : Value → Prop} {v : Value} (h : Elts R v) :
    (Parts.cdr v).All Q (Elts R) := by
  cases v with
  | cons a d => exact h.2.2
  | _ => trivial

theorem all_ofIf {e : Value} (h : Elts Q e) : (ofIf e).All Q fun _ => True := by
  fun_induction ofIf e with
  | case1 => trivial
  | case2 e => exact all_part h.1
  | case3 e thn els ih =>
    exact (all_part h.1).bind fun _ _ => (all_part h.2.2.1).bind fun _ _ => ih h.2.2.2.2
  | case4 e d _ _ => exact (all_part h.1).bind fun _ _ => trivial
  | case5 v _ _ _ _ => trivial

theorem all_ofOargdef (hnil : Q .nil) {rest : Value} (h : Elts Q rest) :
    (ofOargdef rest).All Q Q := by
  unfold ofOargdef
  split
  · exact hnil
  · exact (all_car h).mono fun _ ha => ha.1

theorem all_ofOptional (hnil : Q .nil) {d : Value} (h : Elts Q d) :
    (ofOptional d).All Q fun _ => True := by
  refine (all_car h).bind fun name _ => ?_
  split
  · refine (all_cdr h).bind fun rest hrest => ?_
    exact (all_ofOargdef hnil hrest).bind fun v hv => all_part hv
  · trivial

theorem all_ofIsOptional (a : Value) {d : Value} (h : Elts Q d) (optional : Bool) :
    (ofIsOptional a d optional).All Q fun _ => True := by
  unfold ofIsOptional
  split
  · exact (all_car h).bind fun _ _ => trivial
  · trivial

theorem all_ofDestructure (hnil : Q .nil) {v : Value} (h : Elts Q v) (optional : Bool) :
    (ofDestructure v optional).All Q fun _ => True := by
  induction v generalizing optional with
  | cons a d iha ihd =>
    rw [ofDestructure]
    refine (all_ofIsOptional a h.2.2 optional).bind fun b _ => ?_
    split
    · exact all_ofOptional hnil h.2.2
    split
    · exact (iha h.2.1 _).bind fun _ _ => ihd h.2.2 _
    split
    · exact iha h.2.1 _
    split
    · exact ihd h.2.2 _
    · trivial
  | _ => trivial

theorem all_ofArg (hnil : Q .nil) {arg : Value} (h : Elts Q arg) {l : ArgsSoFar}
    (hl : ∀ p ∈ l.2, Elts Q p) :
    (ofArg arg l).All Q fun l => ∀ p ∈ l.2, Elts Q p := by
  cases arg with
  | symbol s =>
    rw [ofArg]
    split
    · trivial
    · exact hl
  | cons a d =>
    by_cases ha : a = .symbol .sO
    · rw [ha, ofArg]
      exact (all_ofOptional hnil h.2.2).bind fun _ _ => hl
    · rw [ofArg]
      · intro p hp
        rcases List.mem_cons.mp hp with rfl | hp
        · exact h
        · exact hl p hp
      · simpa using ha
  | nil => exact hl
  | _ => trivial

theorem all_ofArgsFrom (hnil : Q .nil) {args : Value} (h : Elts Q args) {l : ArgsSoFar}
    (hl : ∀ p ∈ l.2, Elts Q p) :
    (ofArgsFrom args l).All Q fun l => ∀ p ∈ l.2, Elts Q p := by
  induction args generalizing l with
  | cons arg rest _ ih =>
    rw [ofArgsFrom]
    refine (all_ofArg hnil h.2.1 hl).bind fun l hl => ?_
    cases rest with
    | symbol s => exact hl
    | nil => exact hl
    | _ => exact ih h.2.2 hl
  | _ => trivial

theorem all_ofDsb (hnil : Q .nil) {dsb : List Value} (h : ∀ p ∈ dsb, Elts Q p) :
    (ofDsb dsb).All Q fun _ => True := by
  induction dsb with
  | nil => trivial
  | cons p dsb ih =>
    refine (all_ofDestructure hnil (h p (.head _)) false).bind fun _ _ => ?_
    exact ih fun q hq => h q (.tail _ hq)

theorem all_ofArgs (hnil : Q .nil) {args : Value} (h : Elts Q args) :
    (ofArgs args).All Q fun _ => True := by
  cases args with
  | cons a d =>
    refine (all_ofArgsFrom hnil h (l := (false, [])) nofun).bind fun l hl => ?_
    exact all_ofDsb hnil hl
  | _ => trivial

theorem all_ofBody {body : Value} (h : Elts Q body) : (ofBody body).All Q fun _ => True := by
  induction body with
  | cons e rest _ ih => exact (all_part h.1).bind fun _ _ => ih h.2.2
  | _ => trivial

theorem all_ofFn (hnil : Q .nil) {expr : Value} (h : Elts Q expr) :
    (ofFn expr).All Q fun _ => True := by
  refine (all_car h).bind fun args hargs => ?_
  refine (all_cdr h).bind fun body hbody => ?_
  exact (all_ofArgs hnil hargs.2).bind fun _ _ => all_ofBody hbody

theorem all_ofOperands {args : Value} (h : Elts Q args) (count : Nat) :
    (ofOperands args count).All Q fun _ => True := by
  induction args generalizing count with
  | cons e rest _ ih => exact (all_part h.1).bind fun _ _ => ih h.2.2 _
  | _ => trivial

theorem all_ofInlineFunc (nargs : Nat) {expr : Value} (h : Elts Q expr) :
    (ofInlineFunc nargs expr).All Q fun _ => True := by
  refine (all_cdr h).bind fun args hargs => ?_
  refine (all_ofOperands hargs 0).bind fun count _ => ?_
  split
  · trivial
  · trivial

theorem all_ofInlinen {expr base : Value} (h : Elts Q expr) (hb : Q base) :
    (ofInlinen expr base).All Q fun _ => True := by
  refine (all_part hb).bind fun _ _ => ?_
  refine (all_cdr h).bind fun args hargs => ?_
  exact (all_ofOperands hargs 0).bind fun _ _ => trivial

theorem all_ofInlinen2 {expr base : Value} (h : Elts Q expr) (hb : Q base) :
    (ofInlinen2 expr base).All Q fun _ => True := by
  refine (all_cdr h).bind fun xexpr hx => ?_
  rcases arcListLength xexpr with _ | _ | n
  · trivial
  · exact all_ofInlinen h hb
  · refine (all_car h).bind fun a ha => ?_
    refine (all_cdr hx).bind fun d hd => ?_
    refine (all_car hx).bind fun b hb => ?_
    exact all_ofInlinen ⟨ha.1, ha.2, hd⟩ hb.1

theorem all_ofPlus (hzero : Q (int2fix 0)) {expr : Value} (h : Elts Q expr) :
    (ofPlus expr).All Q fun _ => True := by
  refine (all_cdr h).bind fun xexpr hx => ?_
  rcases arcListLength xexpr with _ | _ | n
  · exact all_part hzero
  · exact (all_car hx).bind fun a ha => all_part ha.1
  · exact all_ofInlinen2 h hzero

theorem all_ofInlineFuncOf (hint : ∀ n, Q (int2fix n)) {op expr : Value} {t : Value → Parts Unit}
    (ht : ofInlineFuncOf op = some t) (h : Elts Q expr) : (t expr).All Q fun _ => True := by
  unfold ofInlineFuncOf at ht
  split at ht
  · cases ht
    exact all_ofInlineFunc 2 h
  · cases ht
    exact all_ofInlineFunc 1 h
  · cases ht
    exact all_ofInlineFunc 1 h
  · cases ht
    exact all_ofPlus (hint 0) h
  · cases ht
    exact all_ofInlinen h (hint 1)
  · cases ht
    exact all_ofInlinen2 h (hint 0)
  · cases ht
    exact all_ofInlinen2 h (hint 1)
  · cases ht

theorem all_ofApplyArgs {args : Value} (h : Elts Q args) :
    (ofApplyArgs args).All Q fun _ => True := by
  induction args with
  | cons e rest _ ih => exact (all_part h.1).bind fun _ _ => ih h.2.2
  | _ => trivial

end Forms

/-- Every symbol meets `T`. -/
def Syms (T : Sym → Prop) : Value → Prop
  | .symbol s => T s
  | .cons a d => Syms T a ∧ Syms T d
  | _ => True

theorem Syms.mono {T T' : Sym → Prop} (h : ∀ s, T s → T' s) {v : Value} (hv : Syms T v) :
    Syms T' v := by
  induction v with
  | symbol s => exact h s hv
  | cons a d iha ihd => exact ⟨iha hv.1, ihd hv.2⟩
  | _ => trivial

theorem Syms.and {T T' : Sym → Prop} {v : Value} (hv : Syms T v) (hv' : Syms T' v) :
    Syms (fun s => T s ∧ T' s) v := by
  induction v with
  | symbol s => exact ⟨hv, hv'⟩
  | cons a d iha ihd => exact ⟨iha hv.1 hv'.1, ihd hv.2 hv'.2⟩
  | _ => trivial

section Ends

variable {W : Type} (host : Host W) (w : W) (T : Sym → Prop)

abbrev ExprEnds (v : Value) : Prop := Tour.Ends (ofExpr host w) Fault.OfCompiler v

/-- In front of any arguments, the compiler comes to an end. -/
def OpEnds (a : Value) : Prop :=
  ∀ d, Syms T d → Elts (ExprEnds host w) d → ExprEnds host w (.cons a d)

/-- As an expression and as an operator. -/
structure Good (v : Value) : Prop where
  ends : ExprEnds host w v
  syms : Syms T v
  op : OpEnds host w T v

/-- An argument list or a part of one. -/
def IsArgs (v : Value) : Prop := Syms T v ∧ Elts (ExprEnds host w) v

variable {host w T}

theorem Elts.ends {v : Value} (h : Elts (Good host w T) v) : Elts (ExprEnds host w) v :=
  h.mono fun _ hv => hv.ends

theorem IsArgs.cons {a d : Value} (ha : ExprEnds host w a) (hsa : IsArgs host w T a)
    (hd : IsArgs host w T d) : IsArgs host w T (.cons a d) :=
  ⟨⟨hsa.1, hd.1⟩, ha, hsa.2, hd.2⟩

theorem isArgs_nil : IsArgs host w T .nil := ⟨trivial, trivial⟩

theorem Good.isArgs {v : Value} (h : Good host w T v) (he : Elts (Good host w T) v) :
    IsArgs host w T v := ⟨h.syms, he.ends⟩

theorem ends_literal {v : Value} (h : literalP v = true) : ExprEnds host w v := by
  refine Tour.All.ends (R := fun _ => True) ?_
  unfold ofExpr
  rw [if_pos h]
  trivial

theorem ends_symbol {s : Sym} (hs : ∀ v, host.ssexpand s = .ok v → ExprEnds host w v) :
    ExprEnds host w (.symbol s) := by
  refine Tour.All.ends (R := fun _ => True) ?_
  unfold ofExpr
  split
  · trivial
  · change Tour.All _ _ _ (ofSsexpand host (.symbol s) >>= fun ssx =>
      if ssx = .nil then pure () else part ssx)
    rw [ofSsexpand]
    cases hv : host.ssexpand s with
    | ok v =>
      change Tour.All _ _ _ (if v = .nil then pure () else part v)
      split
      · trivial
      · exact all_part (hs v hv)
    | error e => cases e <;> trivial

theorem ends_symbol_plain {s : Sym} (hs : host.ssexpand s = .ok .nil) :
    ExprEnds host w (.symbol s) := by
  refine ends_symbol fun v hv => ?_
  rw [hs] at hv
  cases hv
  exact ends_literal rfl

theorem all_ofApply {f args : Value} (hf : isMacro host w f = false)
    (h : Elts (ExprEnds host w) (.cons f args)) :
    (ofApply host w (.cons f args)).All (ExprEnds host w) fun _ => True := by
  change Tour.All _ _ _ (if isMacro host w f then ofMacro f args
    else ofApplyArgs args >>= fun _ => part f)
  rw [hf, if_neg Bool.false_ne_true]
  exact (all_ofApplyArgs h.2.2).bind fun _ _ => all_part h.1

theorem ofCall_cons (x args : Value) :
    ofCall host w (.cons x args) = match ofInlineFuncOf x with
      | some inline => inline (.cons x args)
      | none => match x with
        | .cons (.symbol .sCompose) _ => ofCompose (.cons x args)
        | .cons (.symbol .sComplement) _ => ofComplement (.cons x args)
        | .cons (.symbol .sAndf) _ => ofAndf host (.cons x args)
        | _ => ofApply host w (.cons x args) :=
  rfl

/-- An operator that is no cons is called or inlined. -/
theorem all_ofCall_atom {x args : Value} (hx : ∀ a d, x ≠ .cons a d)
    (hm : isMacro host w x = false) (h : Elts (ExprEnds host w) (.cons x args)) :
    (ofCall host w (.cons x args)).All (ExprEnds host w) fun _ => True := by
  rw [ofCall_cons]
  cases ht : ofInlineFuncOf x with
  | some t => exact all_ofInlineFuncOf (fun n => ends_literal rfl) ht h
  | none =>
    cases x with
    | cons a d => exact absurd rfl (hx a d)
    | _ => exact all_ofApply hm h

variable (hmac : ∀ s, T s → host.ismacro w s = none)
  (hT : ∀ s, T s → ∀ v, host.ssexpand s = .ok v →
    ExprEnds host w v ∧ Elts (ExprEnds host w) v ∧ Syms T v)

include hmac in
theorem isMacro_false {v : Value} (hv : Syms T v) : isMacro host w v = false := by
  cases v with
  | symbol s =>
    rw [isMacro, hmac s hv]
    rfl
  | _ => rfl

include hmac in
theorem all_ofAssign {expr : Value} (h : IsArgs host w T expr) :
    (ofAssign host w expr).All (ExprEnds host w) fun _ => True := by
  have hplace : ∀ place, Syms T place → ofMacex host w place = pure place := by
    intro place hs
    cases place with
    | cons op args => rw [ofMacex, isMacro_false hmac hs.1, if_neg Bool.false_ne_true]
    | _ => rfl
  fun_induction ofAssign host w expr with
  | case1 => trivial
  | case2 place val rest ih =>
    rw [hplace place h.1.1]
    change Tour.All _ _ _ (if place = .nil ∨ place = .symbol .sT then raise
      else part val >>= fun _ => ofAssign host w rest)
    split
    · trivial
    · exact (all_part h.2.2.2.1).bind fun _ _ => ih ⟨h.1.2.2, h.2.2.2.2.2⟩
  | case3 place rest _ =>
    rw [hplace place h.1.1]
    trivial
  | case4 v _ _ _ => trivial

include hT in
theorem all_ofSsexpand {x : Value} (hx : Syms T x) :
    (ofSsexpand host x).All (ExprEnds host w) fun r =>
      ExprEnds host w r ∧ Elts (ExprEnds host w) r ∧ Syms T r := by
  cases x with
  | symbol s =>
    rw [ofSsexpand]
    cases hs : host.ssexpand s with
    | ok v => exact hT s hx v hs
    | error e => cases e <;> trivial
  | _ => exact ⟨ends_literal rfl, trivial, trivial⟩

include hT in
theorem all_ofExpandList {d : Value} (hd : IsArgs host w T d) :
    (ofExpandList host d).All (ExprEnds host w) fun r =>
      IsArgs host w T r ∧ isList r = true ∧ arcListLength r = arcListLength d := by
  induction d with
  | nil => exact ⟨isArgs_nil, rfl, rfl⟩
  | cons x xs _ ih =>
    rw [ofExpandList]
    refine (all_ofSsexpand hT hd.1.1).bind fun result hresult => ?_
    refine (ih ⟨hd.1.2, hd.2.2.2⟩).bind fun xs hxs => ?_
    refine ⟨?_, hxs.2.1, congrArg (· + 1) hxs.2.2⟩
    split
    · exact .cons hd.2.1 ⟨hd.1.1, hd.2.2.1⟩ hxs.1
    · exact .cons hresult.1 ⟨hresult.2.2, hresult.2.1⟩ hxs.1
  | _ => trivial

include hT in
theorem ends_list {op d : Value} (hop : ∀ s, op ≠ .symbol s) (hd : IsArgs host w T d)
    (hcall : ∀ args, IsArgs host w T args →
      (ofCall host w (.cons op args)).All (ExprEnds host w) fun _ => True) :
    ExprEnds host w (.cons op d) := by
  refine Tour.All.ends (R := fun _ => True) ?_
  change (ofList host w op d).All _ _
  have hexpand : ofSsexpand host op = .ok .nil := by
    cases op with
    | symbol s => exact absurd rfl (hop s)
    | _ => rfl
  have hlist : ofList host w op d = ofExpandList host (.cons op d) >>= ofCall host w := by
    cases op with
    | symbol s => exact absurd rfl (hop s)
    | _ => rfl
  rw [hlist, ofExpandList, hexpand]
  refine Tour.All.bind (R := fun e => ∃ xs, e = .cons op xs ∧ IsArgs host w T xs) ?_ ?_
  · exact (all_ofExpandList hT hd).bind fun xs hxs => ⟨xs, rfl, hxs.1⟩
  · rintro _ ⟨xs, rfl, hxs⟩
    exact hcall xs hxs

include hmac hT in
/-- A symbol heads a special form, or a call of itself or of what it expands to. -/
theorem ends_symbol_op {s : Sym} {d : Value} (hd : IsArgs host w T d)
    (hcall : ∀ x xs, (x = .symbol s ∨ host.ssexpand s = .ok x ∧ x ≠ .nil) →
      IsArgs host w T xs → isList xs = true → arcListLength xs = arcListLength d →
      (ofCall host w (.cons x xs)).All (ExprEnds host w) fun _ => True) :
    ExprEnds host w (.cons (.symbol s) d) := by
  refine Tour.All.ends (R := fun _ => True) ?_
  change (ofList host w (.symbol s) d).All _ _
  have hnil : ExprEnds host w .nil := ends_literal rfl
  unfold ofList
  split
  · exact all_ofIf hd.2
  · exact all_ofFn hnil hd.2
  · refine (all_car hd.2).bind fun _ _ => ?_
    trivial
  · exact all_ofAssign hmac hd
  · rw [ofExpandList, ofSsexpand]
    cases hs : host.ssexpand s with
    | error e => cases e <;> trivial
    | ok v =>
      refine Tour.All.bind (R := fun e => ∃ x xs, e = .cons x xs ∧
        (x = .symbol s ∨ host.ssexpand s = .ok x ∧ x ≠ .nil) ∧
        IsArgs host w T xs ∧ isList xs = true ∧ arcListLength xs = arcListLength d) ?_ ?_
      · refine (all_ofExpandList hT hd).bind fun xs hxs => ⟨_, xs, rfl, ?_, hxs⟩
        by_cases hv : v = .nil
        · exact .inl (if_pos hv)
        · rw [if_neg hv]
          exact .inr ⟨hs, hv⟩
      · rintro _ ⟨x, xs, rfl, hx, hxs, hlist, hlen⟩
        exact hcall x xs hx hxs hlist hlen

include hmac hT in
/-- A symbol without special syntax can be an operator. -/
theorem good_plain {s : Sym} (hs : T s) (hplain : host.ssexpand s = .ok .nil) :
    Good host w T (.symbol s) := by
  have hends : ExprEnds host w (.symbol s) := ends_symbol_plain hplain
  refine ⟨hends, hs, fun d hsyms helts => ?_⟩
  refine ends_symbol_op hmac hT ⟨hsyms, helts⟩ fun x xs hx hxs _ _ => ?_
  rcases hx with rfl | ⟨hx, hne⟩
  · exact all_ofCall_atom nofun (isMacro_false hmac hs) ⟨hends, trivial, hxs.2⟩
  · rw [hplain] at hx
    exact absurd (Except.ok.inj hx).symm hne

/-- A call of `and`, if what the macro makes of the arguments comes to an end. -/
theorem all_ofCall_and {xs : Value} (hlist : isList xs = true)
    (h : Elts (ExprEnds host w) (.cons (.symbol .sAnd) xs))
    (hexp : ExprEnds host w (andExpansion xs)) :
    (ofCall host w (.cons (.symbol .sAnd) xs)).All (ExprEnds host w) fun _ => True := by
  change (ofApply host w (.cons (.symbol .sAnd) xs)).All _ _
  cases hm : isMacro host w (.symbol .sAnd) with
  | false => exact all_ofApply hm h
  | true =>
    change Tour.All _ _ _ (if isMacro host w (.symbol .sAnd) then ofMacro (.symbol .sAnd) xs
      else ofApplyArgs xs >>= fun _ => part (.symbol .sAnd))
    rw [hm, if_pos rfl, ofMacro, if_pos ⟨rfl, hlist⟩]
    exact all_part hexp

include hmac hT in
/-- The macro `and` takes one argument off at a time. -/
theorem ends_and (hplain : host.ssexpand .sAnd = .ok .nil) (n : Nat) {d : Value}
    (hn : arcListLength d = n) (hd : IsArgs host w T d) :
    ExprEnds host w (.cons (.symbol .sAnd) d) := by
  have hsym : ExprEnds host w (.symbol .sAnd) := ends_symbol_plain hplain
  induction n generalizing d with
  | zero =>
    refine ends_symbol_op hmac hT hd fun x xs hx hxs hlist hlen => ?_
    rcases hx with rfl | ⟨hx, hne⟩
    · refine all_ofCall_and hlist ⟨hsym, trivial, hxs.2⟩ ?_
      cases xs with
      | cons a d => simp [arcListLength, hn] at hlen
      | _ => exact ends_literal rfl
    · rw [hplain] at hx
      exact absurd (Except.ok.inj hx).symm hne
  | succ n ih =>
    refine ends_symbol_op hmac hT hd fun x xs hx hxs hlist hlen => ?_
    rcases hx with rfl | ⟨hx, hne⟩
    · refine all_ofCall_and hlist ⟨hsym, trivial, hxs.2⟩ ?_
      rw [hn] at hlen
      cases xs with
      | cons a d =>
        have hrest : IsArgs host w T d := ⟨hxs.1.2, hxs.2.2.2⟩
        have hand := ih (Nat.succ.inj hlen) hrest
        cases d with
        | nil => exact hxs.2.1
        | _ =>
          refine Tour.All.ends (R := fun _ => True) (all_ofIf ?_)
          exact ⟨hxs.2.1, hxs.2.2.1, hand, ⟨hsym, trivial, hrest.2⟩, trivial⟩
      | _ => exact ends_literal rfl
    · rw [hplain] at hx
      exact absurd (Except.ok.inj hx).symm hne

theorem all_ofFold {fs args : Value} (hfs : Elts (Good host w T) fs)
    (hargs : IsArgs host w T args) :
    (ofFold fs args).All (ExprEnds host w) fun v => ExprEnds host w v ∧ IsArgs host w T v := by
  have hcons : ∀ f d, Good host w T f → Elts (Good host w T) f → IsArgs host w T d →
      ExprEnds host w (.cons f d) ∧ IsArgs host w T (.cons f d) :=
    fun f d hf he hd => ⟨hf.op d hd.1 hd.2, .cons hf.ends (hf.isArgs he) hd⟩
  induction fs with
  | cons f rest _ ih =>
    cases rest with
    | nil => exact hcons f args hfs.1 hfs.2.1 hargs
    | _ =>
      refine (ih hfs.2.2).bind fun v hv => ?_
      exact hcons f _ hfs.1 hfs.2.1 (.cons hv.1 hv.2 isArgs_nil)
  | _ => trivial

theorem all_ofCompose {op args : Value} (hop : Elts (Good host w T) op)
    (hargs : IsArgs host w T args) :
    (ofCompose (.cons op args)).All (ExprEnds host w) fun _ => True := by
  change Tour.All _ _ _ (Parts.cdr op >>= fun composer => ofFold composer args >>= part)
  refine (all_cdr hop).bind fun composer hc => ?_
  exact (all_ofFold hc hargs).bind fun v hv => all_part hv.1

/-- The names that the compiler puts in have no special syntax. -/
structure PlainNames (host : Host W) (T : Sym → Prop) : Prop where
  no : T .sNo ∧ host.ssexpand .sNo = .ok .nil
  and : host.ssexpand .sAnd = .ok .nil
  fn : host.ssexpand .sFn = .ok .nil
  uniq : ∀ n : Nat, T (host.intern s!"g{n}") ∧ host.ssexpand (host.intern s!"g{n}") = .ok .nil

variable (hplain : PlainNames host T)

include hmac hT hplain in
theorem all_ofComplement {op args : Value} (hop : Elts (Good host w T) op)
    (hargs : IsArgs host w T args) :
    (ofComplement (.cons op args)).All (ExprEnds host w) fun _ => True := by
  change Tour.All _ _ _ (Parts.cdr op >>= fun complemented => Parts.cdr complemented >>=
    fun more => if more ≠ .nil then raise else Parts.car complemented >>= fun f =>
      part (.cons (.symbol .sNo) (.cons (.cons f args) .nil)))
  refine (all_cdr hop).bind fun complemented hc => ?_
  refine (all_cdr hc).bind fun more _ => ?_
  split
  · trivial
  · refine (all_car hc).bind fun f hf => ?_
    have hcall : IsArgs host w T (.cons (.cons f args) .nil) :=
      .cons (hf.1.op args hargs.1 hargs.2) (.cons hf.1.ends (hf.1.isArgs hf.2) hargs) isArgs_nil
    exact all_part ((good_plain hmac hT hplain.no.1 hplain.no.2).op _ hcall.1 hcall.2)

include hmac hT hplain in
theorem all_ofAndfUniqs (args : Value) {uniqs : Value} (hu : ExprEnds host w uniqs)
    (hus : IsArgs host w T uniqs) :
    (ofAndfUniqs host args uniqs).All (ExprEnds host w) fun us =>
      ExprEnds host w us ∧ IsArgs host w T us := by
  induction args generalizing uniqs with
  | nil => exact ⟨hu, hus⟩
  | cons a rest _ ih =>
    intro n
    have hg := good_plain hmac hT (hplain.uniq n).1 (hplain.uniq n).2
    exact ih (hg.op uniqs hus.1 hus.2) (.cons hg.ends ⟨hg.syms, trivial⟩ hus)
  | _ => trivial

theorem all_ofAndfBody {fs uniqs body : Value} (hfs : Elts (Good host w T) fs)
    (hus : IsArgs host w T uniqs) (hbody : IsArgs host w T body) :
    (ofAndfBody uniqs fs body).All (ExprEnds host w) (IsArgs host w T) := by
  induction fs generalizing body with
  | nil => exact hbody
  | cons f rest _ ih =>
    refine ih hfs.2.2 ?_
    exact .cons (hfs.1.op uniqs hus.1 hus.2) (.cons hfs.1.ends (hfs.1.isArgs hfs.2.1) hus) hbody
  | _ => trivial

theorem all_ofReverseOnto {xs acc : Value} (hxs : IsArgs host w T xs)
    (hacc : IsArgs host w T acc) :
    (ofReverseOnto xs acc).All (ExprEnds host w) (IsArgs host w T) := by
  induction xs generalizing acc with
  | nil => exact hacc
  | cons a d _ ih =>
    exact ih ⟨hxs.1.2, hxs.2.2.2⟩ (.cons hxs.2.1 ⟨hxs.1.1, hxs.2.2.1⟩ hacc)
  | _ => trivial

include hmac hT hplain in
theorem all_ofAndf {op args : Value} (hop : Elts (Good host w T) op)
    (hargs : IsArgs host w T args) :
    (ofAndf host (.cons op args)).All (ExprEnds host w) fun _ => True := by
  have hnil : ExprEnds host w .nil := ends_literal rfl
  change Tour.All _ _ _ (ofAndfUniqs host args .nil >>= fun uniqs => Parts.cdr op >>= fun fs =>
    ofAndfBody uniqs fs .nil >>= fun body => ofReverseOnto body .nil >>= fun body =>
      part (.cons (.cons (.symbol .sFn)
        (.cons uniqs (.cons (.cons (.symbol .sAnd) body) .nil))) args))
  refine (all_ofAndfUniqs hmac hT hplain args hnil isArgs_nil).bind fun us hus => ?_
  refine (all_cdr hop).bind fun fs hfs => ?_
  refine (all_ofAndfBody hfs hus.2 isArgs_nil).bind fun body hbody => ?_
  refine (all_ofReverseOnto hbody isArgs_nil).bind fun body hbody => all_part ?_
  have hcall : ExprEnds host w (.cons (.symbol .sAnd) body) :=
    ends_and hmac hT hplain.and _ rfl hbody
  have hand : Elts (ExprEnds host w) (.cons (.cons (.symbol .sAnd) body) .nil) :=
    ⟨hcall, ⟨ends_symbol_plain hplain.and, trivial, hbody.2⟩, trivial⟩
  have hfn : ExprEnds host w (.cons (.symbol .sFn)
      (.cons us (.cons (.cons (.symbol .sAnd) body) .nil))) :=
    Tour.All.ends (R := fun _ => True) (all_ofFn hnil ⟨hus.1, hus.2.2, hand⟩)
  refine ends_list hT nofun hargs fun xs hxs => ?_
  change (ofApply host w _).All _ _
  refine all_ofApply rfl ?_
  exact ⟨hfn, ⟨ends_symbol_plain hplain.fn, trivial, hus.1, hus.2.2, hand⟩, hxs.2⟩

include hmac hT hplain in
theorem all_ofCall {x xs : Value} (hx : ExprEnds host w x) (hs : Syms T x)
    (hex : Elts (Good host w T) x) (hxs : IsArgs host w T xs) :
    (ofCall host w (.cons x xs)).All (ExprEnds host w) fun _ => True := by
  cases x with
  | cons a d =>
    rw [ofCall_cons, show ofInlineFuncOf (.cons a d) = none from rfl]
    dsimp only
    split
    · exact all_ofCompose hex hxs
    · exact all_ofComplement hmac hT hplain hex hxs
    · exact all_ofAndf hmac hT hplain hex hxs
    · exact all_ofApply rfl ⟨hx, hex.ends, hxs.2⟩
  | _ => exact all_ofCall_atom (fun _ _ ho => Value.noConfusion ho) (isMacro_false hmac hs) ⟨hx, trivial, hxs.2⟩

include hmac hT hplain in
theorem good_cons {a d : Value} (ha : Good host w T a) (hea : Elts (Good host w T) a)
    (hd : Good host w T d) (hed : Elts (Good host w T) d) : Good host w T (.cons a d) := by
  have hends : ExprEnds host w (.cons a d) := ha.op d hd.syms hed.ends
  have hsyms : Syms T (.cons a d) := ⟨ha.syms, hd.syms⟩
  refine ⟨hends, hsyms, fun args hargs helts => ?_⟩
  exact ends_list hT nofun ⟨hargs, helts⟩ fun xs hxs =>
    all_ofCall hmac hT hplain hends hsyms ⟨ha, hea, hed⟩ hxs

include hmac hT hplain in
theorem good_symbol {s : Sym} (hs : T s)
    (hexp : ∀ v, host.ssexpand s = .ok v → Good host w T v ∧ Elts (Good host w T) v) :
    Good host w T (.symbol s) := by
  have hends : ExprEnds host w (.symbol s) := ends_symbol fun v hv => (hT s hs v hv).1
  refine ⟨hends, hs, fun d hsyms helts => ?_⟩
  refine ends_symbol_op hmac hT ⟨hsyms, helts⟩ fun x xs hx hxs _ _ => ?_
  rcases hx with rfl | ⟨hx, -⟩
  · exact all_ofCall_atom nofun (isMacro_false hmac hs) ⟨hends, trivial, hxs.2⟩
  · obtain ⟨hgood, helts⟩ := hexp x hx
    exact all_ofCall hmac hT hplain hgood.ends hgood.syms helts hxs

include hT in
theorem good_atom {v : Value} (hcons : ∀ a d, v ≠ .cons a d) (hsym : ∀ s, v ≠ .symbol s) :
    Good host w T v := by
  have hends : ExprEnds host w v := by
    refine Tour.All.ends (R := fun _ => True) ?_
    cases v with
    | cons a d => exact absurd rfl (hcons a d)
    | symbol s => exact absurd rfl (hsym s)
    | _ => trivial
  have hsyms : Syms T v := by
    cases v with
    | cons a d => exact absurd rfl (hcons a d)
    | symbol s => exact absurd rfl (hsym s)
    | _ => trivial
  have helts : Elts (ExprEnds host w) v := by
    cases v with
    | cons a d => exact absurd rfl (hcons a d)
    | _ => trivial
  have hmacro : isMacro host w v = false := by
    cases v with
    | symbol s => exact absurd rfl (hsym s)
    | _ => rfl
  refine ⟨hends, hsyms, fun d hd he => ends_list hT hsym ⟨hd, he⟩ fun xs hxs => ?_⟩
  exact all_ofCall_atom hcons hmacro ⟨hends, helts, hxs.2⟩

include hmac hT hplain in
theorem good_of_syms {v : Value} (hv : Syms (fun s => T s ∧
      ∀ v, host.ssexpand s = .ok v → Good host w T v ∧ Elts (Good host w T) v) v) :
    Good host w T v ∧ Elts (Good host w T) v := by
  induction v with
  | cons a d iha ihd =>
    obtain ⟨ha, hea⟩ := iha hv.1
    obtain ⟨hd, hed⟩ := ihd hv.2
    exact ⟨good_cons hmac hT hplain ha hea hd hed, ha, hea, hed⟩
  | symbol s => exact ⟨good_symbol hmac hT hplain hv.1 hv.2, trivial⟩
  | _ => exact ⟨good_atom hT nofun nofun, trivial⟩

end Ends

/-- Special syntax is expanded to symbols of a lower rank, and the names that
the compiler puts in have none. -/
structure LowersRank {W : Type} (host : Host W) (rank : Sym → Nat) : Prop where
  ends : ExpandsOrFails host
  lower : ∀ s v, host.ssexpand s = .ok v → Syms (fun s' => rank s' < rank s) v
  no : host.ssexpand .sNo = .ok .nil
  and : host.ssexpand .sAnd = .ok .nil
  fn : host.ssexpand .sFn = .ok .nil
  uniq : ∀ n : Nat, host.ssexpand (host.intern s!"g{n}") = .ok .nil

/-- Names that are not bound to macros, with those that they expand to and those
that the compiler puts in. -/
structure NotMacros {W : Type} (host : Host W) (w : W) (T : Sym → Prop) : Prop where
  ismacro : ∀ s, T s → host.ismacro w s = none
  ssexpand : ∀ s, T s → ∀ v, host.ssexpand s = .ok v → Syms T v
  no : T .sNo
  uniq : ∀ n : Nat, T (host.intern s!"g{n}")

section Ranks

variable {W : Type} {host : Host W} {w : W} {T : Sym → Prop} {rank : Sym → Nat}

/-- No special syntax, or little. -/
def Below (host : Host W) (T : Sym → Prop) (rank : Sym → Nat) (n : Nat) (s : Sym) : Prop :=
  T s ∧ (host.ssexpand s = .ok .nil ∨ rank s < n)

theorem plainNames_below (h : LowersRank host rank) (hT : NotMacros host w T) (n : Nat) :
    PlainNames host (Below host T rank n) where
  no := ⟨⟨hT.no, .inl h.no⟩, h.no⟩
  and := h.and
  fn := h.fn
  uniq i := ⟨⟨hT.uniq i, .inl (h.uniq i)⟩, h.uniq i⟩

theorem Below.lower (h : LowersRank host rank) (hT : NotMacros host w T) {n : Nat} {s : Sym}
    (hs : Below host T rank n s) {v : Value} (hv : host.ssexpand s = .ok v) :
    v = .nil ∨ rank s < n ∧ Syms (fun s' => T s' ∧ rank s' < rank s) v := by
  rcases hs.2 with hplain | hlt
  · rw [hplain] at hv
    exact .inl (Except.ok.inj hv).symm
  · exact .inr ⟨hlt, (hT.ssexpand s hs.1 v hv).and (h.lower s v hv)⟩

theorem ends_below (h : LowersRank host rank) (hT : NotMacros host w T) (n : Nat) {v : Value}
    (hv : Syms (Below host T rank n) v) : ExprEnds host w v ∧ Elts (ExprEnds host w) v := by
  induction n using Nat.strongRecOn generalizing v with
  | ind n ih =>
    have hmac : ∀ s, Below host T rank n s → host.ismacro w s = none :=
      fun s hs => hT.ismacro s hs.1
    have hexp : ∀ s, Below host T rank n s → ∀ v, host.ssexpand s = .ok v →
        ExprEnds host w v ∧ Elts (ExprEnds host w) v ∧ Syms (Below host T rank n) v := by
      intro s hs v hv
      rcases hs.lower h hT hv with rfl | ⟨hlt, hsyms⟩
      · exact ⟨ends_literal rfl, trivial, trivial⟩
      · obtain ⟨hends, helts⟩ := ih (rank s) hlt (hsyms.mono fun _ hs' => ⟨hs'.1, .inr hs'.2⟩)
        exact ⟨hends, helts, hsyms.mono fun _ hs' => ⟨hs'.1, .inr (Nat.lt_trans hs'.2 hlt)⟩⟩
    have hplain := plainNames_below h hT n
    -- what a symbol expands to is good, by induction on its rank
    have hgood : ∀ k s, rank s = k → Below host T rank n s → ∀ v, host.ssexpand s = .ok v →
        Good host w (Below host T rank n) v ∧ Elts (Good host w (Below host T rank n)) v := by
      intro k
      induction k using Nat.strongRecOn with
      | ind k ihk =>
        rintro s rfl hs v hv
        rcases hs.lower h hT hv with rfl | ⟨hlt, hsyms⟩
        · exact ⟨good_atom hexp nofun nofun, trivial⟩
        · refine good_of_syms hmac hexp hplain (hsyms.mono fun s' hs' => ?_)
          have hbelow : Below host T rank n s' := ⟨hs'.1, .inr (Nat.lt_trans hs'.2 hlt)⟩
          exact ⟨hbelow, ihk (rank s') hs'.2 s' rfl hbelow⟩
    obtain ⟨hv, helts⟩ :=
      good_of_syms hmac hexp hplain (hv.mono fun s hs => ⟨hs, hgood _ s rfl hs⟩)
    exact ⟨hv.ends, helts.ends⟩

theorem syms_bounded (rank : Sym → Nat) (v : Value) : ∃ n, Syms (fun s => rank s < n) v := by
  induction v with
  | symbol s => exact ⟨rank s + 1, Nat.lt_succ_self _⟩
  | cons a d iha ihd =>
    obtain ⟨n, ha⟩ := iha
    obtain ⟨m, hd⟩ := ihd
    exact ⟨max n m, ha.mono fun _ hs => Nat.lt_of_lt_of_le hs (Nat.le_max_left n m),
      hd.mono fun _ hs => Nat.lt_of_lt_of_le hs (Nat.le_max_right n m)⟩
  | _ => exact ⟨0, trivial⟩

theorem expr_ends (h : LowersRank host rank) (hT : NotMacros host w T) {v : Value}
    (hv : Syms T v) : ExprEnds host w v := by
  obtain ⟨n, hn⟩ := syms_bounded rank v
  exact (ends_below h hT n ((hv.and hn).mono fun _ hs => ⟨hs.1, .inr hs.2⟩)).1

end Ranks

/-- A result, or an error with a message. -/
def Completes {α : Type} (x : Except CompileError α) : Prop :=
  (∃ a, x = .ok a) ∨ ∃ msg, x = .error (.err msg)

/-- The first part of the expression, in the compiler's order, that has a fault
has this one. -/
def FirstFault {W : Type} (host : Host W) (g : Globals W) (e : Value) (f : Fault) : Prop :=
  ∃ fuel k, Tour.run (ofExpr host g.world) fuel e g.uniqnum = some (.error f, k)

theorem CompileError.eq_of_fault {e : CompileError} {f : Fault} (h : e.fault = some f) :
    (f = .raised → ∃ msg, e = .err msg) ∧ (f = .badAccess → e = .badAccess) := by
  cases e <;> cases h <;> simp

section Completes

variable {W : Type} {host : Host W} {s : State W} {e : Value}

theorem not_firstFault {l k : Nat}
    (h : Tour.run (ofExpr host s.globals.world) l e s.globals.uniqnum = some (.ok (), k))
    (f : Fault) : ¬ FirstFault host s.globals e f := by
  rintro ⟨fuel', k', h'⟩
  cases Tour.run_unique h h'

theorem arcCompile_badAccess (hss : ExpandsOrFails host) (hand : KnowsAnd host s.globals.world)
    (h : FirstFault host s.globals e .badAccess) (fuel₀ : Nat) (ctx : Cctx) (env : CEnv)
    (cont : Bool) : ∃ fuel ≥ fuel₀, arcCompile host fuel e ctx env cont s = .error .badAccess := by
  obtain ⟨fuel, k, hrun⟩ := h
  have hrun := Tour.run_mono (Nat.le_max_left fuel fuel₀) hrun
  refine ⟨max fuel fuel₀ + 1, Nat.le_succ_of_le (Nat.le_max_right _ _), ?_⟩
  have hpart : Tour.walk (Tour.run (ofExpr host s.globals.world) (max fuel fuel₀)) (part e)
      s.globals.uniqnum = some (.error .badAccess, k) := by
    rw [part, Tour.walk, hrun]
  rcases follow_arcCompile hand hss _ e ctx env cont s _ _ rfl hpart with hexc | ⟨e', he, hkind⟩
  · cases hexc
  · rw [he, (CompileError.eq_of_fault hkind).2 rfl]

theorem arcCompile_completes {fuel k : Nat} {r : Except Fault Unit} (hss : ExpandsOrFails host)
    (hand : KnowsAnd host s.globals.world)
    (hrun : Tour.run (ofExpr host s.globals.world) fuel e s.globals.uniqnum = some (r, k))
    (hr : r = .ok () ∨ r = .error .raised) (ctx : Cctx) (env : CEnv) (cont : Bool) :
    Completes (arcCompile host (fuel + 1) e ctx env cont s) := by
  have hpart : Tour.walk (Tour.run (ofExpr host s.globals.world) fuel) (part e)
      s.globals.uniqnum = some (r, k) := by
    rw [part, Tour.walk, hrun]
    rcases hr with rfl | rfl <;> rfl
  have hfollow := follow_arcCompile hand hss fuel e ctx env cont s r k rfl hpart
  rcases hr with rfl | rfl
  · obtain ⟨ctx', s', heq, -⟩ := hfollow
    exact .inl ⟨_, heq⟩
  · rcases hfollow with hexc | ⟨e', he, hkind⟩
    · cases hexc
    · obtain ⟨msg, rfl⟩ := (CompileError.eq_of_fault hkind).1 rfl
      exact .inr ⟨msg, he⟩

end Completes

/-- `a:b` is compound, and `and` is the macro of `arc.arc`. -/
def compoundHost : Host Unit where
  ssexpand s :=
    if s = .id 1 then
      .ok (.cons (.symbol .sCompose) (.cons (.symbol (.id 2)) (.cons (.symbol (.id 3)) .nil)))
    else .ok .nil
  ismacro _ s := if s = .sAnd then some fun args g => .ok (andExpansion args, g) else none
  intern _ := .id 0
  sameCons _ _ := false
  symbolWord _ := 0

/-- `((andf a:b c) x)`. -/
def compoundCall : Value :=
  .cons (.cons (.symbol .sAndf) (.cons (.symbol (.id 1)) (.cons (.symbol (.id 4)) .nil)))
    (.cons (.symbol (.id 5)) .nil)

theorem compoundHost_lowers :
    LowersRank compoundHost fun s => if s = .id 1 then 1 else 0 where
  ends s := by
    unfold compoundHost
    dsimp only
    split <;> simp
  lower s v hv := by
    unfold compoundHost at hv
    dsimp only at hv
    split at hv
    · next hs =>
      cases hv
      simp [Syms, hs]
    · cases hv
      trivial
  no := rfl
  and := rfl
  fn := rfl
  uniq _ := rfl

theorem compoundHost_notMacros : NotMacros compoundHost () (· ≠ .sAnd) where
  ismacro s hs := if_neg hs
  ssexpand s _ v hv := by
    unfold compoundHost at hv
    dsimp only at hv
    split at hv
    · cases hv
      simp [Syms]
    · cases hv
      trivial
  no := nofun
  uniq _ := nofun

end Arcueid
