import Mathlib.Data.List.Induction
import Arcueid.Quasiquote

/-! What the expansion of a quasiquote evaluates to: the template filled in. -/

namespace Arcueid.Quasiquote

section Meaning

/-- A value: an atom or the address of a cons. -/
abbrev Value := ConsStore.Ref Atom

/-- The conses, and whatever else expressions read and change. -/
structure State (W : Type) where
  store : ConsStore.Store Atom
  world : W

variable {W : Type}

def State.cons (s : State W) (a d : Value) : Value × State W :=
  ((ConsStore.cons s.store a d).1, { s with store := (ConsStore.cons s.store a d).2 })

def arcDlist (s : State W) : List Value → Option (Value × State W)
  | [] => none
  | [x] => some (x, s)
  | x :: xs => (arcDlist s xs).map fun (d, s) => s.cons x d

/-- The recursion of `arc_append` takes one argument or one element at each step. -/
def arcAppend (s : State W) : Nat → List Value → Option (Value × State W)
  | _, [] => some (.atom .nil, s)
  | _, [a] => some (a, s)
  | 0, _ => none
  | n + 1, a :: args =>
    if a = .atom .nil then arcAppend s n args
    else do
      let (d, s) ← arcAppend s n ((← ConsStore.cdr s.store a) :: args)
      return s.cons (← ConsStore.car s.store a) d

/-- The functions called in expansions; a list without a cycle has no more elements
than there are conses. -/
def applyBuiltin (s : State W) : Atom → List Value → Option (Value × State W)
  | .cons, [a, d] => some (s.cons a d)
  | .dlist, args => arcDlist s args
  | .append, args => arcAppend s (s.store.length + args.length) args
  | _, _ => none

/-- The evaluation of forms, where it comes to an end without an error, and the conses
that expressions can come to. -/
structure Evaluator (W : Type) where
  eval : Form → State W → Option (Value × State W)
  held : State W → Nat → Prop

/-- Quoted atoms, nil and calls of the three functions have their usual meaning. A cons
is out of reach of the expressions when it is new, and then remains so unless it is
passed on; what is out of reach is not changed. -/
structure Standard (E : Evaluator W) : Prop where
  quote : ∀ a s, E.eval (.list [.atom .quote, .atom a]) s = some (.atom a, s)
  nil : ∀ s, E.eval (.atom .nil) s = some (.atom .nil, s)
  call : ∀ op ∈ [Atom.cons, .dlist, .append], ∀ x y s, E.eval (.list [.atom op, x, y]) s =
    (E.eval x s).bind fun p => (E.eval y p.2).bind fun q => applyBuiltin q.2 op [p.1, q.1]
  held_lt : ∀ {s n}, E.held s n → n < s.store.length
  held_cons : ∀ {s : State W} {a d n}, E.held (s.cons a d).2 n → E.held s n
  frame : ∀ {e s v s' n p}, E.eval e s = some (v, s') → ¬ E.held s n → s.store[n]? = some p →
    s'.store[n]? = some p ∧ ¬ E.held s' n

end Meaning

section Spec

variable {W : Type}

/-- New conses apart, the state is the same. -/
structure State.Extends (s s' : State W) : Prop where
  store : s.store <+: s'.store
  world : s'.world = s.world

/-- An element of a list, or a value whose elements are spliced. -/
inductive Piece where
  | one (t : ConsStore.Shape Atom)
  | many (v : Value)

/-- What the evaluation of the expressions on one level of a template comes to: one of
them fails, a value spliced in a list within is no proper list, or the pieces and what
is behind the last one. -/
inductive Result (W : Type) where
  | failed
  | improper
  | filled (ps : List Piece) (tail : Value) (s : State W)

def Result.push (p : Piece) : Result W → Result W
  | .filled ps tail s => .filled (p :: ps) tail s
  | r => r

/-- The elements that the pieces give, with those of the lists spliced. -/
def Elements (st : ConsStore.Store Atom) : List Piece → List (ConsStore.Shape Atom) → Prop
  | [], xs => xs = []
  | .one t :: ps, xs => ∃ ys, Elements st ps ys ∧ xs = t :: ys
  | .many v :: ps, xs => ∃ (vs : List Value) (ys : _), Elements st ps ys ∧ xs = vs.map .leaf ++ ys ∧
      ConsStore.Shows (fun _ => True) st v (.list (vs.map .leaf) (.leaf (.atom .nil)))

/-- The expressions of a template in their order, each evaluated once, with nothing but
new conses in between. A list within is complete before what follows it. -/
inductive Level (E : Evaluator W) : Template → State W → Result W → Prop where
  | atom {a s s'} (hs : s.Extends s') : Level E (.atom a) s (.filled [] (.atom a) s')
  | unquote {e s s₁ v s₂} (hs : s.Extends s₁) (he : E.eval e s₁ = some (v, s₂)) :
      Level E (.unquote e) s (.filled [] v s₂)
  | unquoteFailed {e s s₁} (hs : s.Extends s₁) (he : E.eval e s₁ = none) :
      Level E (.unquote e) s .failed
  | cons {head tail s ps v s₁ xs s₂ r} (hhead : Level E head s (.filled ps v s₁))
      (hxs : Elements s₁.store ps xs) (hs : s₁.Extends s₂) (htail : Level E tail s₂ r) :
      Level E (.cons head tail) s (r.push (.one (.list xs (.leaf v))))
  | consFailed {head tail s} (hhead : Level E head s .failed) : Level E (.cons head tail) s .failed
  | consImproper {head tail s} (hhead : Level E head s .improper) :
      Level E (.cons head tail) s .improper
  | consSpliced {head tail s ps v s₁} (hhead : Level E head s (.filled ps v s₁))
      (hxs : ∀ xs, ¬ Elements s₁.store ps xs) : Level E (.cons head tail) s .improper
  | splice {e tail s s₁ v s₂ r} (hs : s.Extends s₁) (he : E.eval e s₁ = some (v, s₂))
      (htail : Level E tail s₂ r) : Level E (.splice e tail) s (r.push (.many v))
  | spliceFailed {e tail s s₁} (hs : s.Extends s₁) (he : E.eval e s₁ = none) :
      Level E (.splice e tail) s .failed

/-- The outcome is the filled list, over conses that only it has, made after all
expressions were evaluated; or the evaluation fails. -/
def Meets (E : Evaluator W) : Result W → Option (Value × State W) → Prop
  | .failed, out => out = none
  | .improper, _ => True
  | .filled ps v s, out => ∀ xs, Elements s.store ps xs → ∃ r s', out = some (r, s') ∧ s.Extends s' ∧
      ConsStore.Shows (fun n => ¬ E.held s' n) s'.store r (.list xs (.leaf v))

/-- The forms evaluated in order, once each, with nothing but new conses in between. -/
def InOrder (E : Evaluator W) : List Form → State W → State W → Prop
  | [], s, s' => s.Extends s'
  | e :: es, s, s' => ∃ s₁ v s₂, s.Extends s₁ ∧ E.eval e s₁ = some (v, s₂) ∧ InOrder E es s₂ s'

/-- The expressions of a template from the left to the right. -/
def Template.exprs : Template → List Form
  | .atom _ => []
  | .unquote e => [e]
  | .cons head tail => head.exprs ++ tail.exprs
  | .splice e tail => e :: tail.exprs

end Spec

section Extensions

variable {W : Type} {E : Evaluator W} {s s' s₁ s₂ : State W} {a d v : Value} {n : Nat}

theorem State.Extends.refl (s : State W) : s.Extends s := ⟨List.prefix_refl _, rfl⟩

theorem State.Extends.trans (h : s.Extends s₁) (h' : s₁.Extends s₂) : s.Extends s₂ :=
  ⟨h.store.trans h'.store, h'.world.trans h.world⟩

theorem State.extends_cons (s : State W) (a d : Value) : s.Extends (s.cons a d).2 :=
  ⟨ConsStore.prefix_cons _ _ _, rfl⟩

/-- New conses put none of the old ones within reach. -/
theorem Standard.held_of_extends (hE : Standard E) (h : s.Extends s') (hn : E.held s' n) : E.held s n := by
  obtain ⟨st, w⟩ := s'
  have hst : s.store <+: st := h.store
  have hw : w = s.world := h.world
  obtain ⟨ext, rfl⟩ := hst
  subst hw
  clear h
  induction ext using List.reverseRecOn with
  | nil => rwa [List.append_nil] at hn
  | append_singleton ext p ih =>
    rw [← List.append_assoc] at hn
    exact ih (hE.held_cons (a := p.1) (d := p.2) hn)

theorem Standard.shows_extends (hE : Standard E) (h : s.Extends s') {t : ConsStore.Shape Atom}
    (ht : ConsStore.Shows (fun n => ¬ E.held s n) s.store v t) :
    ConsStore.Shows (fun n => ¬ E.held s' n) s'.store v t :=
  (ht.extend h.store).region fun _ hn hheld => hn (hE.held_of_extends h hheld)

/-- What is out of reach stays what it is while an expression is evaluated. -/
theorem Standard.shows_eval (hE : Standard E) {e : Form} {u : Value} {t : ConsStore.Shape Atom}
    (he : E.eval e s = some (u, s')) (ht : ConsStore.Shows (fun n => ¬ E.held s n) s.store v t) :
    ConsStore.Shows (fun n => ¬ E.held s' n) s'.store v t := by
  induction t generalizing v with
  | leaf w => exact ht
  | cons a d iha ihd =>
    obtain ⟨n, x, y, rfl, hheld, hn, ha, hd⟩ := ht
    obtain ⟨hn', hheld'⟩ := hE.frame he hheld hn
    exact ⟨n, x, y, rfl, hheld', hn', iha ha, ihd hd⟩

/-- A new cons is out of reach. -/
theorem Standard.shows_cons (hE : Standard E) {t t' : ConsStore.Shape Atom}
    (ha : ConsStore.Shows (fun n => ¬ E.held s n) s.store a t)
    (hd : ConsStore.Shows (fun n => ¬ E.held s n) s.store d t') :
    ConsStore.Shows (fun n => ¬ E.held (s.cons a d).2 n) (s.cons a d).2.store (s.cons a d).1 (.cons t t') := by
  have hnew : ConsStore.Shows (fun n => ¬ E.held s n) (s.cons a d).2.store (s.cons a d).1 (.cons t t') :=
    ha.cons hd fun hheld => absurd (hE.held_lt hheld) (Nat.lt_irrefl _)
  exact hnew.region fun _ hn hheld => hn (hE.held_cons hheld)

end Extensions

section Append

variable {W : Type} {E : Evaluator W} {s s₁ : State W} {a b v r : Value} {vs : List Value} {n : Nat}
  {xs : List (ConsStore.Shape Atom)} {t : ConsStore.Shape Atom} {op : Atom}

/-- The elements of the first list are copied in front of the second argument. -/
theorem Standard.arcAppend_spec (hE : Standard E) {D : Nat → Prop}
    (hv : ConsStore.Shows D s.store v (.list (vs.map .leaf) (.leaf (.atom .nil))))
    (hb : ConsStore.Shows (fun n => ¬ E.held s n) s.store b t) (hn : vs.length < n) :
    ∃ r s', arcAppend s n [v, b] = some (r, s') ∧ s.Extends s' ∧
      ConsStore.Shows (fun n => ¬ E.held s' n) s'.store r (.list (vs.map .leaf) t) := by
  induction vs generalizing v n with
  | nil =>
    obtain ⟨m, rfl⟩ : ∃ m, n = m + 1 := ⟨n - 1, by simp at hn; omega⟩
    cases hv
    refine ⟨b, s, ?_, .refl s, hb⟩
    cases m <;> rfl
  | cons x vs ih =>
    obtain ⟨m, rfl⟩ : ∃ m, n = m + 1 := ⟨n - 1, by simp at hn; omega⟩
    obtain ⟨k, u, d, rfl, -, hk, hu, hd⟩ := hv
    cases hu
    obtain ⟨r, s', happ, hext, hr⟩ := ih hd (by simpa using hn)
    have hk' := ConsStore.getElem?_of_prefix hext.store hk
    refine ⟨(s'.cons x r).1, (s'.cons x r).2, ?_, hext.trans (s'.extends_cons x r),
      hE.shows_cons ConsStore.shows_leaf hr⟩
    have hne : (ConsStore.Ref.cell k : Value) ≠ .atom .nil := by
      rintro ⟨⟩
    simp only [arcAppend, hne, if_false, ConsStore.cdr, ConsStore.car, hk, hk', Option.map_some,
      Option.bind_eq_bind, Option.bind_some, Option.pure_def, happ]

theorem applyBuiltin_cons (hop : op = .cons ∨ op = .dlist) (s : State W) (a d : Value) :
    applyBuiltin s op [a, d] = some (s.cons a d) := by
  rcases hop with rfl | rfl <;> rfl

theorem Standard.append_spec (hE : Standard E) {D : Nat → Prop}
    (hv : ConsStore.Shows D s.store v (.list (vs.map .leaf) (.leaf (.atom .nil))))
    (hb : ConsStore.Shows (fun n => ¬ E.held s n) s.store b t) :
    ∃ r s', applyBuiltin s .append [v, b] = some (r, s') ∧ s.Extends s' ∧
      ConsStore.Shows (fun n => ¬ E.held s' n) s'.store r (.list (vs.map .leaf) t) := by
  have hlength := hv.length_le
  rw [List.length_map] at hlength
  exact hE.arcAppend_spec hv hb (by simp; omega)

/-- A list of one element, made before the second argument was evaluated. -/
theorem append_one (hv : s.store[n]? = some (a, .atom .nil)) :
    applyBuiltin s .append [.cell n, b] = some (s.cons a b) := by
  have hne : (ConsStore.Ref.cell n : Value) ≠ .atom .nil := by
    rintro ⟨⟩
  have hfuel : s.store.length + [ConsStore.Ref.cell n, b].length = s.store.length + 2 := rfl
  rw [applyBuiltin, hfuel]
  simp only [arcAppend, hne, if_false, if_true, ConsStore.cdr, ConsStore.car, hv, Option.map_some,
    Option.bind_eq_bind, Option.bind_some, Option.pure_def]

end Append

section Filling

variable {W : Type} {E : Evaluator W} {T : Template} {form : Form} {s : State W}

theorem InOrder.extends_left {es : List Form} {s₁ s' : State W} (hs : s.Extends s₁)
    (h : InOrder E es s₁ s') : InOrder E es s s' := by
  cases es with
  | nil => exact hs.trans h
  | cons e es =>
    obtain ⟨s₂, v, s₃, hs₂, he, hrest⟩ := h
    exact ⟨s₂, v, s₃, hs.trans hs₂, he, hrest⟩

theorem InOrder.append {es es' : List Form} {s₁ s' : State W} (h : InOrder E es s s₁)
    (h' : InOrder E es' s₁ s') : InOrder E (es ++ es') s s' := by
  induction es generalizing s with
  | nil => exact h'.extends_left h
  | cons e es ih =>
    obtain ⟨s₂, v, s₃, hs₂, he, hrest⟩ := h
    exact ⟨s₂, v, s₃, hs₂, he, ih hrest⟩

theorem Result.push_eq_filled {r : Result W} {p : Piece} {ps : List Piece} {v : Value} {s : State W}
    (h : r.push p = .filled ps v s) : ∃ qs, r = .filled qs v s := by
  cases r with
  | failed => cases h
  | improper => cases h
  | filled qs u s₁ =>
    cases h
    exact ⟨qs, rfl⟩

theorem Level.inOrder {r : Result W} {ps : List Piece} {v : Value} {s' : State W} (h : Level E T s r)
    (hr : r = .filled ps v s') : InOrder E T.exprs s s' := by
  induction h generalizing ps v s' with
  | atom hs =>
    cases hr
    exact hs
  | unquote hs he =>
    cases hr
    exact ⟨_, _, _, hs, he, .refl _⟩
  | cons hhead hxs hs htail ihh iht =>
    obtain ⟨qs, hqs⟩ := Result.push_eq_filled hr
    exact (ihh rfl).append ((iht hqs).extends_left hs)
  | splice hs he htail ih =>
    obtain ⟨qs, hqs⟩ := Result.push_eq_filled hr
    exact ⟨_, _, _, hs, he, ih hqs⟩
  | unquoteFailed hs he => cases hr
  | consFailed hhead => cases hr
  | consImproper hhead => cases hr
  | consSpliced hhead hxs => cases hr
  | spliceFailed hs he => cases hr

/-- The first argument of the call is a list of one element, which no expression of the
second one changes. -/
theorem Standard.eval_one (hE : Standard E) {op : Atom} {x f : Form} {w : Value} {s₁ : State W}
    (hop : op = .cons ∨ op = .dlist) (hx : E.eval x s = some (w, s₁)) :
    E.eval (.list [.atom .append, .list [.atom op, x, .atom .nil], f]) s =
      (E.eval f (s₁.cons w (.atom .nil)).2).map fun p => p.2.cons w p.1 := by
  have hmem : op ∈ [Atom.cons, .dlist, .append] := by
    rcases hop with rfl | rfl <;> simp
  have hone : E.eval (.list [.atom op, x, .atom .nil]) s = some (s₁.cons w (.atom .nil)) := by
    rw [hE.call op hmem, hx, Option.bind_some, hE.nil]
    exact applyBuiltin_cons hop s₁ w (.atom .nil)
  rw [hE.call .append (by simp), hone, Option.bind_some]
  cases hf : E.eval f (s₁.cons w (.atom .nil)).2 with
  | none => rfl
  | some p =>
    obtain ⟨d, s₂⟩ := p
    have hnew : (s₁.cons w (.atom .nil)).2.store[s₁.store.length]? = some (w, .atom .nil) := by
      simp [State.cons, ConsStore.cons]
    have hheld : ¬ E.held (s₁.cons w (.atom .nil)).2 s₁.store.length := fun h =>
      absurd (hE.held_lt (hE.held_cons h)) (Nat.lt_irrefl _)
    exact append_one (hE.frame hf hheld hnew).1

/-- An expansion evaluates to the template filled in. -/
theorem Expands.meets (hE : Standard E) (h : Expands T form) (s : State W) :
    ∃ r, Level E T s r ∧ Meets E r (E.eval form s) := by
  induction h generalizing s with
  | @atom a =>
    refine ⟨_, .atom (.refl s), fun xs hxs => ⟨.atom a, s, hE.quote a s, .refl s, ?_⟩⟩
    cases hxs
    exact ConsStore.shows_leaf
  | @unquote e =>
    cases he : E.eval e s with
    | none => exact ⟨_, .unquoteFailed (.refl s) he, rfl⟩
    | some p =>
      obtain ⟨v, s'⟩ := p
      refine ⟨_, .unquote (.refl s) he, fun xs hxs => ⟨v, s', rfl, .refl s', ?_⟩⟩
      cases hxs
      exact ConsStore.shows_leaf
  | @splice e tail f hf ih =>
    rw [hE.call .append (by simp)]
    cases he : E.eval e s with
    | none => exact ⟨_, .spliceFailed (.refl s) he, rfl⟩
    | some p =>
      obtain ⟨v, s₁⟩ := p
      obtain ⟨r, hlevel, hmeets⟩ := ih s₁
      refine ⟨_, .splice (.refl s) he hlevel, ?_⟩
      cases r with
      | failed =>
        have hnone : E.eval f s₁ = none := hmeets
        simp [Meets, Result.push, hnone]
      | improper => trivial
      | filled ps u s₂ =>
        rintro xs ⟨vs, ys, hys, rfl, hv⟩
        obtain ⟨d, s₃, hd, hext, hshows⟩ := hmeets ys hys
        obtain ⟨w, s₄, happ, hext', hw⟩ := hE.append_spec (hv.extend hext.store) hshows
        refine ⟨w, s₄, ?_, hext.trans hext', ?_⟩
        · simp only [Option.bind_some, hd, happ]
        · rw [ConsStore.list_append]
          exact hw
  | @cons op head tail x f hop hx hf ihx ihf =>
    obtain ⟨r, hlevel, hmeets⟩ := ihx s
    cases r with
    | failed =>
      have hnone : E.eval x s = none := hmeets
      have hmem : op ∈ [Atom.cons, .dlist, .append] := by
        rcases hop with rfl | rfl <;> simp
      refine ⟨_, .consFailed hlevel, ?_⟩
      rw [hE.call .append (by simp), hE.call op hmem, hnone]
      rfl
    | improper => exact ⟨_, .consImproper hlevel, trivial⟩
    | filled ps v s₁ =>
      by_cases helements : ∃ xs, Elements s₁.store ps xs
      · obtain ⟨xs, hxs⟩ := helements
        obtain ⟨w, s₂, hw, hext, hshows⟩ := hmeets xs hxs
        obtain ⟨r', hlevel', hmeets'⟩ := ihf (s₂.cons w (.atom .nil)).2
        refine ⟨_, .cons hlevel hxs (hext.trans (s₂.extends_cons _ _)) hlevel', ?_⟩
        rw [hE.eval_one hop hw]
        cases r' with
        | failed =>
          have hnone : E.eval f (s₂.cons w (.atom .nil)).2 = none := hmeets'
          rw [hnone]
          rfl
        | improper => trivial
        | filled qs u s₃ =>
          rintro zs ⟨ys, hys, rfl⟩
          obtain ⟨d, s₄, hd, hext', hshows'⟩ := hmeets' ys hys
          have hw' := hE.shows_eval hd (hE.shows_extends (s₂.extends_cons w (.atom .nil)) hshows)
          refine ⟨(s₄.cons w d).1, (s₄.cons w d).2, ?_, hext'.trans (s₄.extends_cons w d),
            hE.shows_cons hw' hshows'⟩
          rw [hd]
          rfl
      · exact ⟨_, .consSpliced hlevel fun xs hxs => helements ⟨xs, hxs⟩, trivial⟩

/-- A template without nested quasiquotes has an expansion. From any state its value is
the template with the values of the expressions in their places, which are evaluated
from the left to the right, once each, and no cons that was there is changed between
and after them; where one of them fails, so does the whole. -/
theorem qqexpand_fills (hE : Standard E) (hT : T.Wf) : ∃ form, qqexpand T.form = .ok form ∧
    ∀ s, ∃ r, Level E T s r ∧ Meets E r (E.eval form s) ∧
      ∀ ps v s', r = .filled ps v s' → InOrder E T.exprs s s' := by
  obtain ⟨form, hexpand, hform⟩ := exists_expands hT
  refine ⟨form, hexpand, fun s => ?_⟩
  obtain ⟨r, hlevel, hmeets⟩ := hform.meets hE s
  exact ⟨r, hlevel, hmeets, fun ps v s' hr => hlevel.inOrder hr⟩

end Filling

section Variables

/-- Expressions that are variables, which the world gives their values. -/
def varEval : Form → State (Nat → Value) → Option (Value × State (Nat → Value))
  | .atom .nil, s => some (.atom .nil, s)
  | .atom (.other n), s => some (s.world n, s)
  | .cons (.atom .quote) (.cons (.atom a) (.atom .nil)), s => some (.atom a, s)
  | .cons (.atom op) (.cons x (.cons y (.atom .nil))), s =>
    if op ∈ [Atom.cons, .dlist, .append] then
      (varEval x s).bind fun p => (varEval y p.2).bind fun q => applyBuiltin q.2 op [p.1, q.1]
    else none
  | _, _ => none

variable {W : Type} {s s' : State W} {v : Value}

theorem arcDlist_extends {args : List Value} (h : arcDlist s args = some (v, s')) : s.Extends s' := by
  induction args generalizing v s' with
  | nil => cases h
  | cons x xs ih =>
    cases xs with
    | nil =>
      cases h
      exact .refl s
    | cons y ys =>
      obtain ⟨⟨d, s₁⟩, hrest, heq⟩ := Option.map_eq_some_iff.mp h
      cases heq
      exact (ih hrest).trans (s₁.extends_cons x d)

theorem arcAppend_extends {n : Nat} {args : List Value} (h : arcAppend s n args = some (v, s')) :
    s.Extends s' := by
  fun_induction arcAppend s n args generalizing v s' with
  | case1 =>
    cases h
    exact .refl s
  | case2 =>
    cases h
    exact .refl s
  | case3 => cases h
  | case4 n args hne ih => exact ih h
  | case5 n a args hne hnil ih =>
    obtain ⟨y, -, h⟩ := Option.bind_eq_some_iff.mp h
    obtain ⟨⟨d, s₁⟩, hrest, h⟩ := Option.bind_eq_some_iff.mp h
    obtain ⟨x, -, h⟩ := Option.bind_eq_some_iff.mp h
    cases h
    exact (ih y hrest).trans (s₁.extends_cons x d)

theorem applyBuiltin_extends {op : Atom} {args : List Value} (h : applyBuiltin s op args = some (v, s')) :
    s.Extends s' := by
  unfold applyBuiltin at h
  split at h
  · cases h
    exact s.extends_cons _ _
  · exact arcDlist_extends h
  · exact arcAppend_extends h
  · cases h

theorem varEval_extends {e : Form} {s s' : State (Nat → Value)} (h : varEval e s = some (v, s')) :
    s.Extends s' := by
  fun_induction varEval e s generalizing v s' with
  | case1 s =>
    cases h
    exact .refl s
  | case2 n s =>
    cases h
    exact .refl s
  | case3 a s =>
    cases h
    exact .refl s
  | case4 op x y s hop ihx ihy =>
    obtain ⟨⟨a, s₁⟩, ha, h⟩ := Option.bind_eq_some_iff.mp h
    obtain ⟨⟨d, s₂⟩, hd, h⟩ := Option.bind_eq_some_iff.mp h
    exact ((ihx ha).trans (ihy _ hd)).trans (applyBuiltin_extends h)
  | case5 => cases h
  | case6 => cases h

def varEvaluator : Evaluator (Nat → Value) := ⟨varEval, fun _ _ => False⟩

theorem varEvaluator_standard : Standard varEvaluator where
  quote _ _ := rfl
  nil _ := rfl
  call op hop x y s := by
    simp only [varEvaluator, Form.list, varEval, hop, if_true]
  held_lt h := h.elim
  held_cons h := h
  frame he _ hn := ⟨ConsStore.getElem?_of_prefix (varEval_extends he).store hn, not_false⟩

/-- The list of a constant, a variable and a spliced variable. -/
theorem qqexpand_fills_list : ∃ form,
    qqexpand (.list [.atom (.other 0), .list [.atom .unquote, .atom (.other 1)],
      .list [.atom .unquotesp, .atom (.other 2)]]) = .ok form ∧
    ∀ s, ∃ r, Level varEvaluator (.cons (.atom (.other 0)) (.cons (.unquote (.atom (.other 1)))
        (.splice (.atom (.other 2)) (.atom .nil)))) s r ∧ Meets varEvaluator r (varEvaluator.eval form s) ∧
      ∀ ps v s', r = .filled ps v s' → InOrder varEvaluator [.atom (.other 1), .atom (.other 2)] s s' := by
  have hT : (Template.cons (.atom (.other 0)) (.cons (.unquote (.atom (.other 1)))
      (.splice (.atom (.other 2)) (.atom .nil)))).Wf := by
    simp [Template.Wf, Template.Element, Whole]
  exact qqexpand_fills varEvaluator_standard hT

end Variables

end Arcueid.Quasiquote
