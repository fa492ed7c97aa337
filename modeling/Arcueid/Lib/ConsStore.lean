import Mathlib.Data.List.Perm.Subperm
import Mathlib.Data.List.Nodup

/-! Stores of conses. A value is an atom or the address of a cons, and a shape says
what is found from a value over the conses of a given region. -/

namespace Arcueid.ConsStore

inductive Ref (A : Type) where
  | atom (a : A)
  | cell (n : Nat)
  deriving DecidableEq

/-- The conses by their addresses, in the order in which they were made. -/
abbrev Store (A : Type) := List (Ref A × Ref A)

variable {A : Type}

section Operations

variable (s : Store A)

def cons (a d : Ref A) : Ref A × Store A := (.cell s.length, s ++ [(a, d)])

def car : Ref A → Option (Ref A)
  | .cell n => s[n]?.map Prod.fst
  | .atom _ => none

def cdr : Ref A → Option (Ref A)
  | .cell n => s[n]?.map Prod.snd
  | .atom _ => none

def scar (r v : Ref A) : Option (Store A) :=
  match r with
  | .cell n => s[n]?.map fun p => s.set n (v, p.2)
  | .atom _ => none

def scdr (r v : Ref A) : Option (Store A) :=
  match r with
  | .cell n => s[n]?.map fun p => s.set n (p.1, v)
  | .atom _ => none

end Operations

/-- Values at the leaves, with the conses above them. -/
inductive Shape (A : Type) where
  | leaf (r : Ref A)
  | cons (a d : Shape A)

/-- From the value the shape is found, over conses of the region `D` alone. -/
def Shows (D : Nat → Prop) (s : Store A) : Ref A → Shape A → Prop
  | r, .leaf v => r = v
  | r, .cons a d => ∃ n x y, r = .cell n ∧ D n ∧ s[n]? = some (x, y) ∧ Shows D s x a ∧ Shows D s y d

section Shapes

variable {D D' : Nat → Prop} {s s' : Store A} {r x y : Ref A} {t a d : Shape A} {n : Nat}

theorem shows_leaf : Shows D s r (.leaf r) := rfl

theorem Shows.cons_iff : Shows D s (.cell n) (.cons a d) ↔
    D n ∧ ∃ x y, s[n]? = some (x, y) ∧ Shows D s x a ∧ Shows D s y d := by
  constructor
  · rintro ⟨_, x, y, heq, hD, hn, ha, hd⟩
    cases heq
    exact ⟨hD, x, y, hn, ha, hd⟩
  · rintro ⟨hD, x, y, hn, ha, hd⟩
    exact ⟨n, x, y, rfl, hD, hn, ha, hd⟩

/-- What is found stays found where the conses of the region keep their contents. -/
theorem Shows.frame (hs : ∀ n p, D n → s[n]? = some p → s'[n]? = some p) (h : Shows D s r t) :
    Shows D s' r t := by
  induction t generalizing r with
  | leaf v => exact h
  | cons a d iha ihd =>
    obtain ⟨n, x, y, rfl, hD, hn, ha, hd⟩ := h
    exact ⟨n, x, y, rfl, hD, hs n _ hD hn, iha ha, ihd hd⟩

theorem Shows.region (hD : ∀ n, D n → D' n) (h : Shows D s r t) : Shows D' s r t := by
  induction t generalizing r with
  | leaf v => exact h
  | cons a d iha ihd =>
    obtain ⟨n, x, y, rfl, hn, hs, ha, hd⟩ := h
    exact ⟨n, x, y, rfl, hD n hn, hs, iha ha, ihd hd⟩

theorem getElem?_of_prefix {p : Ref A × Ref A} (hs : s <+: s') (hn : s[n]? = some p) :
    s'[n]? = some p := by
  obtain ⟨ext, rfl⟩ := hs
  obtain ⟨hlt, -⟩ := List.getElem?_eq_some_iff.mp hn
  rw [List.getElem?_append_left hlt, hn]

/-- Nor does it matter what is made afterwards. -/
theorem Shows.extend (hs : s <+: s') (h : Shows D s r t) : Shows D s' r t :=
  h.frame fun _ _ _ hn => getElem?_of_prefix hs hn

theorem prefix_cons (s : Store A) (x y : Ref A) : s <+: (cons s x y).2 := List.prefix_append s _

theorem Shows.cons (hx : Shows D s x a) (hy : Shows D s y d) (hD : D s.length) :
    Shows D (ConsStore.cons s x y).2 (ConsStore.cons s x y).1 (.cons a d) :=
  ⟨s.length, x, y, rfl, hD, by simp [ConsStore.cons], hx.extend (prefix_cons s x y),
    hy.extend (prefix_cons s x y)⟩

theorem Shows.car (h : Shows D s r (.cons a d)) : ∃ x, ConsStore.car s r = some x ∧ Shows D s x a := by
  obtain ⟨n, x, y, rfl, -, hn, ha, -⟩ := h
  exact ⟨x, by simp [ConsStore.car, hn], ha⟩

theorem Shows.cdr (h : Shows D s r (.cons a d)) : ∃ y, ConsStore.cdr s r = some y ∧ Shows D s y d := by
  obtain ⟨n, x, y, rfl, -, hn, -, hd⟩ := h
  exact ⟨y, by simp [ConsStore.cdr, hn], hd⟩

end Shapes

section Lists

/-- The elements, and what comes in place of the last cdr. -/
def Shape.list (xs : List (Shape A)) (tail : Shape A) : Shape A := xs.foldr .cons tail

@[simp] theorem list_nil (tail : Shape A) : Shape.list [] tail = tail := rfl

@[simp] theorem list_cons (x : Shape A) (xs : List (Shape A)) (tail : Shape A) :
    Shape.list (x :: xs) tail = .cons x (Shape.list xs tail) := rfl

theorem list_append (xs ys : List (Shape A)) (tail : Shape A) :
    Shape.list (xs ++ ys) tail = Shape.list xs (Shape.list ys tail) := List.foldr_append

variable {D : Nat → Prop} {s : Store A} {r : Ref A} {a : A} {xs ys : List (Shape A)}

theorem Shows.length_unique (h : Shows D s r (.list xs (.leaf (.atom a))))
    (h' : Shows D s r (.list ys (.leaf (.atom a)))) : xs.length = ys.length := by
  induction xs generalizing r ys with
  | nil =>
    cases h
    cases ys with
    | nil => rfl
    | cons y ys =>
      obtain ⟨n, _, _, heq, -⟩ := h'
      cases heq
  | cons x xs ih =>
    rw [list_cons] at h
    obtain ⟨n, u, v, rfl, -, hn, -, hv⟩ := h
    cases ys with
    | nil => cases h'
    | cons y ys =>
      obtain ⟨-, u', v', hn', -, hv'⟩ := Shows.cons_iff.mp h'
      cases hn.symm.trans hn'
      exact congrArg (· + 1) (ih hv hv')

/-- A list that comes to an end goes through no cons twice. -/
theorem Shows.length_le (h : Shows D s r (.list xs (.leaf (.atom a)))) : xs.length ≤ s.length := by
  have hcells : ∃ cs : List Nat, cs.length = xs.length ∧ cs.Nodup ∧ ∀ c ∈ cs, c < s.length ∧
      ∃ ys, ys.length ≤ xs.length ∧ Shows D s (.cell c) (.list ys (.leaf (.atom a))) := by
    induction xs generalizing r with
    | nil => exact ⟨[], rfl, List.nodup_nil, fun c hc => absurd hc List.not_mem_nil⟩
    | cons x xs ih =>
      have hcons := h
      obtain ⟨n, u, v, rfl, -, hn, -, hv⟩ := hcons
      obtain ⟨cs, hlength, hnodup, hcs⟩ := ih hv
      refine ⟨n :: cs, congrArg (· + 1) hlength, List.nodup_cons.mpr ⟨fun hmem => ?_, hnodup⟩, ?_⟩
      · obtain ⟨-, ys, hle, hys⟩ := hcs n hmem
        have heq := h.length_unique hys
        rw [List.length_cons] at heq
        omega
      · intro c hc
        rcases List.mem_cons.mp hc with rfl | hc
        · exact ⟨(List.getElem?_eq_some_iff.mp hn).1, x :: xs, Nat.le_refl _, h⟩
        · obtain ⟨hlt, ys, hle, hys⟩ := hcs c hc
          exact ⟨hlt, ys, Nat.le_succ_of_le hle, hys⟩
  obtain ⟨cs, hlength, hnodup, hcs⟩ := hcells
  rw [← hlength, ← List.length_range (n := s.length)]
  exact (hnodup.subperm fun c hc => List.mem_range.mpr (hcs c hc).1).length_le

end Lists

end Arcueid.ConsStore
