import Arcueid.Lib.ConsStore

/-! The expansion of quasiquotes in `compiler.c`, and what it makes of a template
without nested quasiquotes. -/

namespace Arcueid.Quasiquote

/-- The symbols that the expansion looks for or puts in its result, and all other atoms. -/
inductive Atom where
  | nil | unquote | unquotesp | qquote | quote | append | cons | dlist | eval
  | other (n : Nat)
  deriving DecidableEq

inductive Form where
  | atom (a : Atom)
  | cons (car cdr : Form)
  deriving DecidableEq

/-- The expansion raises an error, or reads the car of something that is no cons. -/
inductive Stop where
  | error (fmt : String)
  | undefined
  deriving DecidableEq

section Model

def Form.list : List Form → Form
  | [] => .atom .nil
  | x :: xs => .cons x (Form.list xs)

def Form.car : Form → Except Stop Form
  | .cons a _ => .ok a
  | .atom _ => .error .undefined

/-- Whether the expression may yield several elements; the argument is that of an
`unquote`. -/
def splicing : Form → Except Stop Bool
  | .cons (.atom .unquotesp) _ => .ok true
  | .cons (.atom .unquote) (.cons x _) => splicing x
  | .cons (.atom .unquote) (.atom _) => .error .undefined
  | _ => .ok false

/-- The second argument is optional. -/
def qqappend : List Form → Except Stop Form
  | [expr1] => .ok (.list [.atom .append, expr1, .atom .nil])
  | [expr1, expr2] => .ok (.list [.atom .append, expr1, expr2])
  | _ => .error .undefined

def arcRreduce (f : List Form → Except Stop Form) : List Form → Except Stop Form
  | [] => .error (.error "arg 2 of rreduce must be a list")
  | [x] => f [x]
  | [x, y] => f [x, y]
  | x :: xs => do f [x, ← arcRreduce f xs]

def qqappends (exprs : List Form) : Except Stop Form := do
  let expr ← arcRreduce qqappend exprs
  if ← splicing expr then
    return .list [.atom .append, expr]
  return expr

def qqcons (expr1 expr2 : Form) : Except Stop Form := do
  let operator := if ← splicing expr1 then Atom.dlist else Atom.cons
  return .list [.atom operator, expr1, expr2]

def qqlist (expr : Form) : Except Stop Form := qqcons expr (.atom .nil)

mutual

def qqtransform (expr : Form) : Except Stop Form :=
  match expr with
  | .cons (.atom .unquote) d => do qqlist (← d.car)
  | .cons (.atom .unquotesp) d => d.car
  | .cons (.atom .qquote) (.cons x _) => do qqlist (.list [.atom .qquote, ← qqexpand x])
  | .cons (.atom .qquote) (.atom _) => .error .undefined
  | expr => do qqlist (← qqexpand expr)
termination_by (sizeOf expr, 2)

/-- An `unquote` in the middle of a list is taken for one behind a dot. -/
def qqexpandlist (expr : Form) : Except Stop (List Form) :=
  match expr with
  | .atom a => .ok [.list [.atom .quote, .atom a]]
  | .cons (.atom .unquote) d => do return [← d.car]
  | .cons (.atom .unquotesp) _ => .error (.error "invalid use of unquote-splicing")
  | .cons a d => do
    let trans ← qqtransform a
    return trans :: (← qqexpandlist d)
termination_by (sizeOf expr, 0)

def qqexpand (expr : Form) : Except Stop Form :=
  match expr with
  | .atom a => .ok (.list [.atom .quote, .atom a])
  | .cons (.atom .unquote) d => d.car
  | .cons (.atom .unquotesp) _ => .error (.error "invalid use of unquote-splicing")
  | .cons (.atom .qquote) (.cons x _) => do
    return .list [.atom .eval, .list [.atom .qquote, ← qqexpand x]]
  | .cons (.atom .qquote) (.atom _) => .error .undefined
  | expr => do qqappends (← qqexpandlist expr)
termination_by (sizeOf expr, 1)

end

end Model

section Templates

/-- A template. A list goes on with its tail behind each element, a template itself or
the expression of a `,@`; an `unquote` as the tail is one behind a dot. -/
inductive Template where
  | atom (a : Atom)
  | unquote (e : Form)
  | cons (head tail : Template)
  | splice (e : Form) (tail : Template)

/-- The template as the reader makes it. -/
def Template.form : Template → Form
  | .atom a => .atom a
  | .unquote e => .list [.atom .unquote, e]
  | .cons head tail => .cons head.form tail.form
  | .splice e tail => .cons (.list [.atom .unquotesp, e]) tail.form

/-- No `unquote` without an argument. -/
def Whole : Form → Prop
  | .cons (.atom .unquote) (.cons x _) => Whole x
  | .cons (.atom .unquote) (.atom _) => False
  | _ => True

/-- An element is none of the symbols behind which the list would stand for something
else: `(unquote e)` and `(a unquote e)` are `,e` and `(a . ,e)`. -/
def Template.Element : Template → Prop
  | .atom a => a ≠ .unquote ∧ a ≠ .unquotesp ∧ a ≠ .qquote
  | .unquote e => Whole e
  | _ => True

def Template.Wf : Template → Prop
  | .atom _ => True
  | .unquote _ => True
  | .cons head tail => head.Element ∧ head.Wf ∧ tail.Wf
  | .splice _ tail => tail.Wf

/-- The forms that a template may expand to. -/
inductive Expands : Template → Form → Prop where
  | atom {a : Atom} : Expands (.atom a) (.list [.atom .quote, .atom a])
  | unquote {e : Form} : Expands (.unquote e) e
  | cons {op : Atom} {head tail : Template} {x f : Form} (hop : op = .cons ∨ op = .dlist)
      (hx : Expands head x) (hf : Expands tail f) : Expands (.cons head tail)
        (.list [.atom .append, .list [.atom op, x, .atom .nil], f])
  | splice {e : Form} {tail : Template} {f : Form} (hf : Expands tail f) :
      Expands (.splice e tail) (.list [.atom .append, e, f])

end Templates

section Expansion

variable {e a d : Form} {T head tail : Template}

theorem splicing_of_whole (he : Whole e) : ∃ b, splicing e = .ok b := by
  fun_induction splicing e with
  | case1 d => exact ⟨true, rfl⟩
  | case2 x d ih => exact ih he
  | case3 b => exact absurd he not_false
  | case4 e h1 h2 h3 => exact ⟨false, rfl⟩

theorem qqlist_of_whole (he : Whole e) :
    ∃ op, (op = .cons ∨ op = .dlist) ∧ qqlist e = .ok (.list [.atom op, e, .atom .nil]) := by
  obtain ⟨b, hb⟩ := splicing_of_whole he
  rw [qqlist, qqcons, hb]
  cases b
  · exact ⟨.cons, .inl rfl, rfl⟩
  · exact ⟨.dlist, .inr rfl, rfl⟩

/-- The car is none of the symbols that the expansion looks for. -/
structure Unmarked (a : Form) : Prop where
  unquote : a ≠ .atom .unquote
  unquotesp : a ≠ .atom .unquotesp
  qquote : a ≠ .atom .qquote

theorem Template.Element.unmarked (h : head.Element) : Unmarked head.form := by
  cases head with
  | atom a =>
    obtain ⟨h1, h2, h3⟩ := h
    exact ⟨by simpa [Template.form], by simpa [Template.form], by simpa [Template.form]⟩
  | unquote e => exact ⟨by simp [Template.form, Form.list], by simp [Template.form, Form.list],
      by simp [Template.form, Form.list]⟩
  | cons head tail => exact ⟨by simp [Template.form], by simp [Template.form], by simp [Template.form]⟩
  | splice e tail => exact ⟨by simp [Template.form], by simp [Template.form], by simp [Template.form]⟩

theorem unmarked_splice (e : Form) : Unmarked (.list [.atom .unquotesp, e]) :=
  ⟨by simp [Form.list], by simp [Form.list], by simp [Form.list]⟩

theorem qqexpandlist_cons (h : Unmarked a) : qqexpandlist (.cons a d) = do
    let trans ← qqtransform a
    return trans :: (← qqexpandlist d) := by
  rw [qqexpandlist]
  · exact h.unquote
  · exact h.unquotesp

theorem qqexpand_cons (h : Unmarked a) :
    qqexpand (.cons a d) = qqexpandlist (.cons a d) >>= qqappends := by
  rw [qqexpand]
  · rintro b ⟨⟩
  · exact fun d' heq => h.unquote (Form.cons.inj heq).1
  · exact fun d' heq => h.unquotesp (Form.cons.inj heq).1
  · exact fun x d' heq => h.qquote (Form.cons.inj heq).1
  · exact fun b heq => h.qquote (Form.cons.inj heq).1

theorem qqtransform_cons (h : Unmarked a) :
    qqtransform (.cons a d) = qqexpand (.cons a d) >>= qqlist := by
  rw [qqtransform]
  · exact fun d' heq => h.unquote (Form.cons.inj heq).1
  · exact fun d' heq => h.unquotesp (Form.cons.inj heq).1
  · exact fun x d' heq => h.qquote (Form.cons.inj heq).1
  · exact fun b heq => h.qquote (Form.cons.inj heq).1

/-- What the right fold makes of the forms of a list. -/
def joined : Form → List Form → Form
  | f, [] => f
  | f, g :: fs => .list [.atom .append, f, joined g fs]

theorem arcRreduce_eq (f g : Form) (fs : List Form) :
    arcRreduce qqappend (f :: g :: fs) = .ok (joined f (g :: fs)) := by
  induction fs generalizing f g with
  | nil => rfl
  | cons g' fs ih =>
    rw [arcRreduce, ih]
    · rfl
    · simp
    · simp

theorem qqappends_eq (f g : Form) (fs : List Form) :
    qqappends (f :: g :: fs) = .ok (joined f (g :: fs)) := by
  rw [qqappends, arcRreduce_eq]
  rfl

/-- The list is expanded to forms that the fold joins to an expansion, at least two of
them where the template is a list. -/
structure ExpandsList (T : Template) (f : Form) (fs : List Form) : Prop where
  expanded : qqexpandlist T.form = .ok (f :: fs)
  joined : Expands T (joined f fs)
  long : ∀ a d, T.form = .cons a d → Unmarked a → fs ≠ []

theorem ExpandsList.qqexpand {f : Form} {fs : List Form} (h : ExpandsList T f fs)
    (hcons : T.form = .cons a d) (ha : Unmarked a) :
    ∃ x, qqexpand T.form = .ok x ∧ Expands T x ∧ splicing x = .ok false := by
  obtain ⟨g, gs, rfl⟩ := List.exists_cons_of_ne_nil (h.long a d hcons ha)
  refine ⟨_, ?_, h.joined, rfl⟩
  have hexp := h.expanded
  rw [hcons] at hexp ⊢
  rw [qqexpand_cons ha, hexp]
  exact qqappends_eq f g gs

theorem exists_expandsList (hT : T.Wf) : ∃ f fs, ExpandsList T f fs := by
  induction T with
  | atom a =>
    refine ⟨.list [.atom .quote, .atom a], [], by rw [Template.form, qqexpandlist], .atom, ?_⟩
    rintro a d ⟨⟩
  | unquote e =>
    refine ⟨e, [], by rw [Template.form, Form.list, qqexpandlist]; rfl, .unquote, ?_⟩
    rintro a d ⟨⟩ h
    exact absurd rfl h.unquote
  | splice e tail ih =>
    obtain ⟨f, fs, h⟩ := ih hT
    refine ⟨e, f :: fs, ?_, .splice h.joined, fun a d _ _ => List.cons_ne_nil f fs⟩
    have htrans : qqtransform (.list [.atom .unquotesp, e]) = .ok e := by
      rw [Form.list, qqtransform]
      rfl
    rw [Template.form, qqexpandlist_cons (unmarked_splice e), htrans, h.expanded]
    rfl
  | cons head tail ihh iht =>
    obtain ⟨helement, hhead, htail⟩ := hT
    obtain ⟨f, fs, h⟩ := iht htail
    suffices htrans : ∃ op x, (op = .cons ∨ op = .dlist) ∧ Expands head x ∧
        qqtransform head.form = .ok (.list [.atom op, x, .atom .nil]) by
      obtain ⟨op, x, hop, hx, htrans⟩ := htrans
      refine ⟨_, f :: fs, ?_, .cons hop hx h.joined, fun a d _ _ => List.cons_ne_nil f fs⟩
      rw [Template.form, qqexpandlist_cons helement.unmarked, htrans, h.expanded]
      rfl
    obtain ⟨g, gs, hg⟩ := ihh hhead
    have hlist : ∀ {a d}, head.form = .cons a d → Unmarked a → ∃ op x, (op = .cons ∨ op = .dlist) ∧
        Expands head x ∧ qqtransform head.form = .ok (.list [.atom op, x, .atom .nil]) := by
      intro a d hform ha
      obtain ⟨x, hexp, hx, hsplicing⟩ := hg.qqexpand hform ha
      refine ⟨.cons, x, .inl rfl, hx, ?_⟩
      rw [hform] at hexp ⊢
      rw [qqtransform_cons ha, hexp]
      change qqlist x = _
      rw [qqlist, qqcons, hsplicing]
      rfl
    cases head with
    | atom a =>
      refine ⟨.cons, _, .inl rfl, .atom, ?_⟩
      rw [Template.form, qqtransform, qqexpand]
      · rfl
      all_goals simp
    | unquote e =>
      obtain ⟨op, hop, hqqlist⟩ := qqlist_of_whole helement
      refine ⟨op, e, hop, .unquote, ?_⟩
      rw [Template.form, Form.list, qqtransform]
      exact hqqlist
    | cons head tail => exact hlist rfl (Template.Element.unmarked hhead.1)
    | splice e tail => exact hlist rfl (unmarked_splice e)

/-- Every template without nested quasiquotes has an expansion. -/
theorem exists_expands (hT : T.Wf) : ∃ form, qqexpand T.form = .ok form ∧ Expands T form := by
  obtain ⟨f, fs, h⟩ := exists_expandsList hT
  cases T with
  | atom a => exact ⟨_, by rw [Template.form, Quasiquote.qqexpand], .atom⟩
  | unquote e => exact ⟨e, by rw [Template.form, Form.list, Quasiquote.qqexpand]; rfl, .unquote⟩
  | cons head tail =>
    obtain ⟨x, hexp, hx, -⟩ := h.qqexpand rfl hT.1.unmarked
    exact ⟨x, hexp, hx⟩
  | splice e tail =>
    obtain ⟨x, hexp, hx, -⟩ := h.qqexpand rfl (unmarked_splice e)
    exact ⟨x, hexp, hx⟩

end Expansion

end Arcueid.Quasiquote
