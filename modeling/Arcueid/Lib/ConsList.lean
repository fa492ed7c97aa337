import Mathlib.Data.List.Basic
import Arcueid.Lib.ConsStore

/-! Lists in a store of conses, as the conses that they are made of. -/

namespace Arcueid.ConsList

open ConsStore (Ref Store cons scar scdr)

variable {A : Type}

section Operations

variable [DecidableEq A] (nil : A)

/-- The car of the end of a list is that end. -/
def car (s : Store A) (r : Ref A) : Option (Ref A) :=
  if r = .atom nil then some r else ConsStore.car s r

def cdr (s : Store A) (r : Ref A) : Option (Ref A) :=
  if r = .atom nil then some r else ConsStore.cdr s r

variable {nil} {s : Store A} {x d : Ref A} {n : Nat}

theorem car_cell (h : s[n]? = some (x, d)) : car nil s (.cell n) = some x := by
  rw [car, if_neg (fun heq => by cases heq), ConsStore.car, h]
  rfl

theorem cdr_cell (h : s[n]? = some (x, d)) : cdr nil s (.cell n) = some d := by
  rw [cdr, if_neg (fun heq => by cases heq), ConsStore.cdr, h]
  rfl

omit [DecidableEq A] in
theorem scdr_cell (h : s[n]? = some (x, d)) (v : Ref A) :
    scdr s (.cell n) v = some (s.set n (x, v)) := by
  rw [scdr, h]
  rfl

omit [DecidableEq A] in
theorem scar_cell (h : s[n]? = some (x, d)) (v : Ref A) :
    scar s (.cell n) v = some (s.set n (v, d)) := by
  rw [scar, h]
  rfl

omit [DecidableEq A] in
theorem relink {v : Ref A} (hn : s[n]? = some (v, d)) (u : Ref A) : ∃ s₁, scdr s (.cell n) u = some s₁ ∧
    s₁.length = s.length ∧ s₁[n]? = some (v, u) ∧ ∀ m, m ≠ n → s₁[m]? = s[m]? := by
  have hlt := (List.getElem?_eq_some_iff.mp hn).1
  exact ⟨_, scdr_cell hn u, List.length_set, List.getElem?_set_self hlt,
    fun m hm => List.getElem?_set_ne (Ne.symm hm)⟩

end Operations

section Lists

/-- A list that ends, as its conses with their elements. -/
def ListAt (nil : A) (s : Store A) : Ref A → List (Nat × Ref A) → Prop
  | r, [] => r = .atom nil
  | r, (n, x) :: l => r = .cell n ∧ ∃ d, s[n]? = some (x, d) ∧ ListAt nil s d l

variable {nil : A} {s s' : Store A} {r x d : Ref A} {n : Nat} {l rest : List (Nat × Ref A)}

theorem ListAt.frame (h : ListAt nil s r l) (hs : ∀ m ∈ l.map Prod.fst, s'[m]? = s[m]?) :
    ListAt nil s' r l := by
  induction l generalizing r with
  | nil => exact h
  | cons p l ih =>
    obtain ⟨hr, d, hn, hd⟩ := h
    refine ⟨hr, d, ?_, ih hd fun m hm => hs m (List.mem_cons_of_mem _ hm)⟩
    rw [hs p.1 (by simp), hn]

theorem ListAt.lt (h : ListAt nil s r l) (hn : n ∈ l.map Prod.fst) : n < s.length := by
  induction l generalizing r with
  | nil => cases hn
  | cons p l ih =>
    obtain ⟨hr, d, hp, hd⟩ := h
    rcases List.mem_cons.mp hn with rfl | hn
    · exact (List.getElem?_eq_some_iff.mp hp).1
    · exact ih hd hn

theorem ListAt.length_le (h : ListAt nil s r l) (hl : (l.map Prod.fst).Nodup) : l.length ≤ s.length := by
  have hsub : l.map Prod.fst ⊆ List.range s.length := fun n hn => List.mem_range.mpr (h.lt hn)
  simpa using (hl.subperm hsub).length_le

theorem ListAt.eq_nil_iff (h : ListAt nil s r l) : r = .atom nil ↔ l = [] := by
  cases l with
  | nil => exact iff_of_true h rfl
  | cons p l =>
    obtain ⟨rfl, -⟩ := h
    exact iff_of_false (fun heq => by cases heq) (List.cons_ne_nil _ _)

/-- A new cons in front of a list. -/
theorem ListAt.cons (h : ListAt nil s d l) (x : Ref A) :
    ListAt nil (ConsStore.cons s x d).2 (ConsStore.cons s x d).1 ((s.length, x) :: l) :=
  ⟨rfl, d, by simp [ConsStore.cons], h.frame fun _ hm => List.getElem?_append_left (h.lt hm)⟩

theorem ListAt.getLast {p : Nat × Ref A} (h : ListAt nil s r l) (hlast : l.getLast? = some p) :
    s[p.1]? = some (p.2, .atom nil) := by
  induction l generalizing r with
  | nil => cases hlast
  | cons q l ih =>
    obtain ⟨rfl, d, hq, hd⟩ := h
    cases l with
    | nil =>
      obtain rfl : q = p := Option.some.inj hlast
      rw [hq, show d = .atom nil from hd]
    | cons q' l => exact ih hd (by rwa [List.getLast?_cons_cons] at hlast)

/-- A cons that the last one of a list is made to point to. -/
theorem ListAt.append_last {p : Nat × Ref A} (h : ListAt nil s r l) (hl : (l.map Prod.fst).Nodup)
    (hlast : l.getLast? = some p) (hp : s'[p.1]? = some (p.2, .cell n)) (hn : s'[n]? = some (x, .atom nil))
    (hs : ∀ m ∈ l.map Prod.fst, m ≠ p.1 → s'[m]? = s[m]?) : ListAt nil s' r (l ++ [(n, x)]) := by
  induction l generalizing r with
  | nil => cases hlast
  | cons q l ih =>
    obtain ⟨rfl, d, hq, hd⟩ := h
    rw [List.map_cons, List.nodup_cons] at hl
    cases l with
    | nil =>
      obtain rfl : q = p := Option.some.inj hlast
      exact ⟨rfl, .cell n, hp, rfl, .atom nil, hn, rfl⟩
    | cons q' l =>
      rw [List.getLast?_cons_cons] at hlast
      have hmem : p.1 ∈ (q' :: l).map Prod.fst := List.mem_map_of_mem (List.mem_of_getLast? hlast)
      have hne : q.1 ≠ p.1 := fun heq => hl.1 (heq ▸ hmem)
      have hrest := ih hd hl.2 hlast fun m hm => hs m (List.mem_cons_of_mem _ hm)
      exact ⟨rfl, d, (hs q.1 List.mem_cons_self hne).trans hq, hrest⟩

/-- A proper list with the given elements. -/
def IsList (nil : A) (s : Store A) (r : Ref A) (vs : List (Ref A)) : Prop :=
  ConsStore.Shows (fun _ => True) s r (.list (vs.map .leaf) (.leaf (.atom nil)))

theorem isList_iff {vs : List (Ref A)} :
    IsList nil s r vs ↔ ∃ l, ListAt nil s r l ∧ l.map Prod.snd = vs := by
  induction vs generalizing r with
  | nil =>
    constructor
    · intro h
      exact ⟨[], h, rfl⟩
    · rintro ⟨l, hl, hvs⟩
      obtain rfl := List.map_eq_nil_iff.mp hvs
      exact hl
  | cons v vs ih =>
    constructor
    · rintro ⟨n, x, d, rfl, -, hn, rfl, hd⟩
      obtain ⟨l, hl, rfl⟩ := ih.mp hd
      exact ⟨(n, x) :: l, ⟨rfl, d, hn, hl⟩, rfl⟩
    · rintro ⟨l, hl, hvs⟩
      obtain ⟨p, l, rfl⟩ := List.exists_cons_of_ne_nil (show l ≠ [] by rintro rfl; cases hvs)
      obtain ⟨hr, d, hn, hd⟩ := hl
      obtain ⟨hv, hvs⟩ := List.cons.inj hvs
      exact ⟨p.1, p.2, d, hr, trivial, hn, hv, ih.mpr ⟨l, hd, hvs⟩⟩

end Lists

end Arcueid.ConsList
