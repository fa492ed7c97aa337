import Mathlib.Data.List.Basic

/-! Stable sorting by a test: what sorting is to give, and how a merge keeps it. -/

namespace Arcueid.StableSort

variable {α : Type} (le : α → α → Bool)

/-- A total order up to equivalence. -/
structure Preorder : Prop where
  trans : ∀ a b c, le a b → le b c → le a c
  total : ∀ a b, le a b || le b a

/-- Neither comes before the other. -/
def same (a b : α) : Bool := le a b && le b a

/-- The same elements, which are in order, those that are equivalent in the order in
which they were, where the test is an order. -/
structure SortOf (vs ws : List α) : Prop where
  perm : ws.Perm vs
  sorted : Preorder le → ws.Pairwise fun a b => le a b
  stable : Preorder le → ∀ a, ws.filter (same le a) = vs.filter (same le a)

variable {le} {vs ws vs' ws' : List α} {a b : α}

theorem Preorder.refl (h : Preorder le) (a : α) : le a a = true := by
  simpa using h.total a a

theorem sortOf_short (h : vs.length ≤ 1) : SortOf le vs vs where
  perm := .refl vs
  sorted _ := by
    cases vs with
    | nil => exact .nil
    | cons a vs =>
      have hnil : vs = [] := by simpa using h
      rw [hnil]
      exact List.pairwise_singleton _ _
  stable _ _ := rfl

/-- Where an element of the second list goes first, none of the first is equivalent. -/
theorem filter_merge (h : Preorder le) (hws : ws.Pairwise fun a b => le a b) (ws' : List α) (a : α) :
    (ws.merge ws' le).filter (same le a) = ws.filter (same le a) ++ ws'.filter (same le a) := by
  induction ws generalizing ws' with
  | nil => simp
  | cons x ws ih =>
    induction ws' with
    | nil => simp
    | cons y ws' ih' =>
      rw [List.cons_merge_cons]
      by_cases hxy : le x y = true
      · rw [if_pos hxy, List.filter_cons, ih hws.tail]
        by_cases hax : same le a x = true
        · simp [hax]
        · simp [hax]
      · rw [if_neg hxy, List.filter_cons, ih']
        by_cases hay : same le a y = true
        · have hnone : (x :: ws).filter (same le a) = [] := by
            refine List.filter_eq_nil_iff.mpr fun z hz haz => hxy ?_
            have hxz : le x z = true := by
              rcases List.mem_cons.mp hz with rfl | hz
              · exact h.refl z
              · exact List.rel_of_pairwise_cons hws hz
            rw [same, Bool.and_eq_true] at hay haz
            exact h.trans x z y hxz (h.trans z a y haz.2 hay.1)
          simp [hnone, hay]
        · simp [hay]

theorem SortOf.merge (h : SortOf le vs ws) (h' : SortOf le vs' ws') :
    SortOf le (vs ++ vs') (ws.merge ws' le) where
  perm := (List.merge_perm_append le).trans (h.perm.append h'.perm)
  sorted hle := List.pairwise_merge hle.trans hle.total _ _ (h.sorted hle) (h'.sorted hle)
  stable hle a := by
    rw [filter_merge hle (h.sorted hle), h.stable hle, h'.stable hle, List.filter_append]

theorem sortOf_pair (h : le a b = true) : SortOf le [a, b] [a, b] := by
  have ha : SortOf le [a] [a] := sortOf_short (Nat.le_refl 1)
  have hb : SortOf le [b] [b] := sortOf_short (Nat.le_refl 1)
  simpa [h] using ha.merge hb

theorem sortOf_swap (h : le a b = false) : SortOf le [a, b] [b, a] := by
  have ha : SortOf le [a] [a] := sortOf_short (Nat.le_refl 1)
  have hb : SortOf le [b] [b] := sortOf_short (Nat.le_refl 1)
  simpa [h] using ha.merge hb

end Arcueid.StableSort
