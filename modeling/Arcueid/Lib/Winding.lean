import Mathlib.Data.List.Nodup
import Mathlib.Data.List.Infix

/-! States of control that are entered and left through winds. A state is the
list of the winds it is inside of, innermost first; going from one state to
another runs the thunks of the winds left and entered. -/

namespace Winding

structure Wind (α : Type*) where
  id : Nat
  before : α
  after : α

variable {α : Type*} {s t pre : List (Wind α)} {w : Wind α}

def ids (s : List (Wind α)) : List Nat := s.map Wind.id

@[simp] theorem ids_cons : ids (w :: s) = w.id :: ids s := rfl

@[simp] theorem ids_append : ids (s ++ t) = ids s ++ ids t := List.map_append

/-- The winds of `s` that `t` is not inside of. -/
def left (s t : List (Wind α)) : List (Wind α) := s.filter fun w => decide (w.id ∉ ids t)

/-- What runs on the way from `s` to `t`: the afters of the winds left,
innermost first, and the befores of the winds entered, outermost first. -/
def thunks (s t : List (Wind α)) : List α :=
  (left s t).map Wind.after ++ (left t s).reverse.map Wind.before

theorem left_eq_nil (h : ∀ w ∈ s, w.id ∈ ids t) : left s t = [] :=
  List.filter_eq_nil_iff.mpr fun w hw => by simp [h w hw]

theorem left_eq_self (h : ∀ w ∈ s, w.id ∉ ids t) : left s t = s :=
  List.filter_eq_self.mpr fun w hw => by simp [h w hw]

theorem mem_ids (h : w ∈ s) : w.id ∈ ids s := List.mem_map_of_mem h

/-- Going out runs the afters on the way. -/
theorem thunks_out (hnd : (ids (pre ++ t)).Nodup) :
    thunks (pre ++ t) t = pre.map Wind.after := by
  have hdisj : ∀ w ∈ pre, w.id ∉ ids t := by
    intro w hw ht
    rw [ids_append] at hnd
    exact List.disjoint_of_nodup_append hnd (mem_ids hw) ht
  have hpre : left (pre ++ t) t = pre := by
    have happend : left (pre ++ t) t = left pre t ++ left t t := List.filter_append ..
    rw [happend, left_eq_self hdisj, left_eq_nil fun w hw => mem_ids hw, List.append_nil]
  have hback : left t (pre ++ t) = [] :=
    left_eq_nil fun w hw => mem_ids (List.mem_append_right _ hw)
  simp [thunks, hpre, hback]

/-- Going one wind further in runs its before last. -/
theorem thunks_in (hw : w.id ∉ ids s) : thunks s (w :: t) = thunks s t ++ [w.before] := by
  have hout : left s (w :: t) = left s t := by
    apply List.filter_congr
    intro x hx
    have hne : x.id ≠ w.id := fun heq => hw (heq ▸ mem_ids hx)
    simp [hne]
  have hin : left (w :: t) s = w :: left t s := by simp [left, hw]
  simp [thunks, hout, hin]

/-- The number of a state: that of its innermost wind. -/
def top : List (Wind α) → Nat
  | [] => 0
  | w :: _ => w.id

@[simp] theorem top_nil : top ([] : List (Wind α)) = 0 := rfl

@[simp] theorem top_cons : top (w :: s) = w.id := rfl

/-- The states of a run: each wind is entered from a state reached before, and
makes the state of its own number. -/
inductive Grown : List (List (Wind α)) → Prop
  | start : Grown [[]]
  | wind {states s before after} : Grown states → s ∈ states →
      Grown (states ++ [⟨states.length, before, after⟩ :: s])

variable {states : List (List (Wind α))} {i : Nat}

theorem Grown.top_lt (hg : Grown states) (hs : s ∈ states) : top s < states.length := by
  induction hg with
  | start => simp [List.mem_singleton.mp hs]
  | wind _ _ ih =>
    rcases List.mem_append.mp hs with hold | hnew
    · exact Nat.lt_of_lt_of_le (ih hold) (by simp)
    · simp [List.mem_singleton.mp hnew]

theorem Grown.getElem? (hg : Grown states) (hs : s ∈ states) : states[top s]? = some s := by
  induction hg with
  | start => simp [List.mem_singleton.mp hs]
  | wind hg _ ih =>
    rcases List.mem_append.mp hs with hold | hnew
    · rw [List.getElem?_append_left (hg.top_lt hold), ih hold]
    · simp [List.mem_singleton.mp hnew]

theorem Grown.exists_top (hg : Grown states) (hi : i < states.length) :
    ∃ s, s ∈ states ∧ top s = i := by
  induction hg with
  | start => exact ⟨[], by simp, (Nat.lt_one_iff.mp hi).symm⟩
  | @wind states u before after hg hu ih =>
    rcases Nat.lt_or_ge i states.length with hlt | hge
    · obtain ⟨s, hs, htop⟩ := ih hlt
      exact ⟨s, List.mem_append_left _ hs, htop⟩
    · have heq : states.length = i := by
        simp at hi
        omega
      exact ⟨_, List.mem_append_right _ (List.mem_singleton.mpr rfl), heq⟩

theorem Grown.eq_of_top (hg : Grown states) (hs : s ∈ states) (ht : t ∈ states)
    (htop : top s = top t) : s = t := by
  have h := hg.getElem? hs
  rw [htop, hg.getElem? ht] at h
  exact (Option.some.inj h).symm

theorem Grown.tail (hg : Grown states) (hs : w :: s ∈ states) : s ∈ states ∧ top s < w.id := by
  induction hg with
  | start => simp at hs
  | @wind states u before after hg hu ih =>
    rcases List.mem_append.mp hs with hold | hnew
    · obtain ⟨hmem, hlt⟩ := ih hold
      exact ⟨List.mem_append_left _ hmem, hlt⟩
    · obtain ⟨rfl, rfl⟩ := List.cons.inj (List.mem_singleton.mp hnew)
      exact ⟨List.mem_append_left _ hu, hg.top_lt hu⟩

theorem Grown.suffix (hg : Grown states) (hs : pre ++ s ∈ states) : s ∈ states := by
  induction pre with
  | nil => exact hs
  | cons w pre ih => exact ih (hg.tail hs).1

theorem Grown.id_le (hg : Grown states) (hs : s ∈ states) (hw : w ∈ s) : w.id ≤ top s := by
  induction s with
  | nil => simp at hw
  | cons x s ih =>
    obtain ⟨hmem, hlt⟩ := hg.tail hs
    rcases List.mem_cons.mp hw with rfl | hw
    · simp
    · exact Nat.le_of_lt (Nat.lt_of_le_of_lt (ih hmem hw) hlt)

theorem Grown.id_pos (hg : Grown states) (hs : s ∈ states) (hw : w ∈ s) : 0 < w.id := by
  obtain ⟨pre, suf, rfl⟩ := List.append_of_mem hw
  exact Nat.zero_lt_of_lt (hg.tail (hg.suffix hs)).2

theorem Grown.not_mem_of_lt (hg : Grown states) (hs : s ∈ states) (hi : top s < i) :
    i ∉ ids s := by
  intro hmem
  obtain ⟨w, hw, rfl⟩ := List.mem_map.mp hmem
  exact absurd (hg.id_le hs hw) (Nat.not_le_of_gt hi)

theorem Grown.nodup (hg : Grown states) (hs : s ∈ states) : (ids s).Nodup := by
  induction s with
  | nil => exact List.nodup_nil
  | cons w s ih =>
    obtain ⟨hmem, hlt⟩ := hg.tail hs
    exact List.nodup_cons.mpr ⟨hg.not_mem_of_lt hmem hlt, ih hmem⟩

/-- A state whose innermost wind another state is inside of encloses it. -/
theorem Grown.enclosed (hg : Grown states) (hs : w :: s ∈ states) (ht : t ∈ states)
    (hw : w.id ∈ ids t) : ∃ pre, t = pre ++ w :: s := by
  obtain ⟨x, hx, hid⟩ := List.mem_map.mp hw
  obtain ⟨pre, suf, rfl⟩ := List.append_of_mem hx
  have heq : x :: suf = w :: s := hg.eq_of_top (hg.suffix ht) hs hid
  exact ⟨pre, by rw [heq]⟩

/-- The way from one state to another goes out to a state that encloses both,
and then in. -/
theorem Grown.thunks_split (hg : Grown states) (hs : s ∈ states) (ht : t ∈ states) :
    ∃ pre pre' u, s = pre ++ u ∧ t = pre' ++ u ∧
      thunks s t = pre.map Wind.after ++ pre'.reverse.map Wind.before := by
  induction t with
  | nil =>
    refine ⟨s, [], [], by simp, rfl, ?_⟩
    have hout : thunks (s ++ []) [] = s.map Wind.after :=
      thunks_out (by simpa using hg.nodup hs)
    simpa using hout
  | cons w t ih =>
    by_cases hw : w.id ∈ ids s
    · obtain ⟨pre, rfl⟩ := hg.enclosed ht hs hw
      exact ⟨pre, [], w :: t, rfl, rfl, by simp [thunks_out (hg.nodup hs)]⟩
    · obtain ⟨pre, pre', u, hsplit, rfl, hthunks⟩ := ih (hg.tail ht).1
      exact ⟨pre, w :: pre', u, hsplit, rfl, by simp [thunks_in hw, hthunks]⟩

/-- The wind with other thunks. -/
def Wind.map {β : Type*} (f : α → β) (w : Wind α) : Wind β := ⟨w.id, f w.before, f w.after⟩

theorem thunks_map {β : Type*} (f : α → β) (s t : List (Wind α)) :
    thunks (s.map (Wind.map f)) (t.map (Wind.map f)) = (thunks s t).map f := by
  have hids : ∀ s : List (Wind α), ids (s.map (Wind.map f)) = ids s := by
    intro s
    simp [ids, Wind.map]
  have hleft : ∀ s t : List (Wind α),
      left (s.map (Wind.map f)) (t.map (Wind.map f)) = (left s t).map (Wind.map f) := by
    intro s t
    rw [left, hids, List.filter_map]
    rfl
  simp only [thunks, hleft, List.map_append, ← List.map_reverse, List.map_map]
  rfl

end Winding
