import Mathlib.Data.List.Basic

/-! Queues of threads (`__arc_enqueue` and `__arc_dequeue` of `util.c`): a chain
of conses between a head and a tail. The conses of a queue are made by
`__arc_enqueue` and belong to no other queue. -/

namespace Arcueid

/-- A cons: a thread and the next cons. -/
structure QCell where
  thr : Nat
  next : Option Nat

/-- The chain of conses from one to the tail, and the threads in it. -/
inductive Chained (cells : List QCell) (tail : Nat) : Nat → List Nat → Prop
  | last {thr} : cells[tail]? = some ⟨thr, none⟩ → Chained cells tail tail [thr]
  | cons {i j thr thrs} : cells[i]? = some ⟨thr, some j⟩ → i < j → Chained cells tail j thrs →
      Chained cells tail i (thr :: thrs)

/-- The head and the tail are both nil or both conses. -/
structure Queue where
  cells : List QCell
  ends : Option (Nat × Nat)
  chained : ∀ head tail, ends = some (head, tail) → ∃ thrs, Chained cells tail head thrs

section Chains

variable {cells : List QCell} {tail i : Nat} {thrs : List Nat}

theorem Chained.le (h : Chained cells tail i thrs) : i ≤ tail := by
  induction h with
  | last => exact Nat.le_refl _
  | cons _ hlt _ ih => omega

theorem Chained.lt (h : Chained cells tail i thrs) : tail < cells.length := by
  induction h with
  | last hcell =>
    obtain ⟨hlt, -⟩ := List.getElem?_eq_some_iff.mp hcell
    exact hlt
  | cons _ _ _ ih => exact ih

/-- Put a new cons behind a tail. -/
def append (cells : List QCell) (tail thr : Nat) : List QCell :=
  cells.modify tail (fun cell => { cell with next := some cells.length }) ++ [⟨thr, none⟩]

theorem getElem?_append_tail {last : QCell} (h : cells[tail]? = some last) (thr : Nat) :
    (append cells tail thr)[tail]? = some ⟨last.thr, some cells.length⟩ := by
  obtain ⟨hlt, -⟩ := List.getElem?_eq_some_iff.mp h
  rw [append, List.getElem?_append_left (by simpa using hlt), List.getElem?_modify]
  simp [h]

theorem getElem?_append_ne (hlt : i < cells.length) (hne : tail ≠ i) (thr : Nat) :
    (append cells tail thr)[i]? = cells[i]? := by
  rw [append, List.getElem?_append_left (by simpa using hlt), List.getElem?_modify]
  simp [hne]

theorem getElem?_append_new (thr : Nat) :
    (append cells tail thr)[cells.length]? = some ⟨thr, none⟩ := by
  simp [append]

theorem Chained.append (h : Chained cells tail i thrs) (thr : Nat) :
    Chained (append cells tail thr) cells.length i (thrs ++ [thr]) := by
  have hlt := h.lt
  induction h with
  | last hcell =>
    exact .cons (getElem?_append_tail hcell thr) hlt (.last (getElem?_append_new thr))
  | @cons i j thr' thrs hcell hij hrest ih =>
    have hle := hrest.le
    apply Chained.cons _ hij ih
    rw [getElem?_append_ne (by omega) (by omega), hcell]

end Chains

/-- The threads from a cons on, at most so many. -/
def walk (cells : List QCell) : Nat → Nat → List Nat
  | 0, _ => []
  | fuel + 1, i =>
    match cells[i]? with
    | none => []
    | some ⟨thr, none⟩ => [thr]
    | some ⟨thr, some j⟩ => thr :: walk cells fuel j

theorem Chained.walk_eq {cells : List QCell} {tail i : Nat} {thrs : List Nat}
    (h : Chained cells tail i thrs) : ∀ fuel, tail < i + fuel → walk cells fuel i = thrs := by
  induction h with
  | last hcell =>
    intro fuel hfuel
    cases fuel with
    | zero => omega
    | succ fuel => simp [walk, hcell]
  | @cons i j thr thrs hcell hij hrest ih =>
    intro fuel hfuel
    have hle := hrest.le
    cases fuel with
    | zero => omega
    | succ fuel => simp [walk, hcell, ih fuel (by omega)]

namespace Queue

/-- The threads in a queue, in the order they leave it. -/
def toList (q : Queue) : List Nat :=
  match q.ends with
  | none => []
  | some (head, _) => walk q.cells q.cells.length head

theorem toList_eq {q : Queue} {head tail : Nat} {thrs : List Nat} (hq : q.ends = some (head, tail))
    (h : Chained q.cells tail head thrs) : q.toList = thrs := by
  have hlt := h.lt
  rw [toList, hq]
  exact h.walk_eq _ (by omega)

def empty : Queue := ⟨[], none, by simp⟩

@[simp] theorem toList_empty : empty.toList = [] := rfl

def enqueue (q : Queue) (thr : Nat) : Queue where
  cells :=
    match q.ends with
    | none => q.cells ++ [⟨thr, none⟩]
    | some (_, tail) => append q.cells tail thr
  ends :=
    match q.ends with
    | none => some (q.cells.length, q.cells.length)
    | some (head, _) => some (head, q.cells.length)
  chained := by
    intro head tail hends
    cases hq : q.ends with
    | none =>
      simp only [hq, Option.some.injEq, Prod.mk.injEq] at hends
      obtain ⟨rfl, rfl⟩ := hends
      exact ⟨[thr], .last (by simp)⟩
    | some ends =>
      obtain ⟨head', tail'⟩ := ends
      obtain ⟨thrs, hthrs⟩ := q.chained head' tail' hq
      simp only [hq, Option.some.injEq, Prod.mk.injEq] at hends
      obtain ⟨rfl, rfl⟩ := hends
      exact ⟨thrs ++ [thr], hthrs.append thr⟩

theorem toList_enqueue (q : Queue) (thr : Nat) : (q.enqueue thr).toList = q.toList ++ [thr] := by
  cases hq : q.ends with
  | none =>
    have hnil : q.toList = [] := by rw [toList, hq]
    have hends : (q.enqueue thr).ends = some (q.cells.length, q.cells.length) := by
      simp [enqueue, hq]
    have hchain : Chained (q.enqueue thr).cells q.cells.length q.cells.length [thr] := by
      apply Chained.last
      simp [enqueue, hq]
    rw [toList_eq hends hchain, hnil]
    rfl
  | some ends =>
    obtain ⟨head, tail⟩ := ends
    obtain ⟨thrs, hthrs⟩ := q.chained head tail hq
    have hends : (q.enqueue thr).ends = some (head, q.cells.length) := by simp [enqueue, hq]
    have hchain : Chained (q.enqueue thr).cells q.cells.length head (thrs ++ [thr]) := by
      have happend : (q.enqueue thr).cells = append q.cells tail thr := by simp [enqueue, hq]
      rw [happend]
      exact hthrs.append thr
    rw [toList_eq hends hchain, toList_eq hq hthrs]

/-- `__arc_dequeue`, the queue that is left. -/
def rest (q : Queue) : Queue where
  cells := q.cells
  ends := q.ends.bind fun (head, tail) => (q.cells[head]?.bind QCell.next).map fun next => (next, tail)
  chained := by
    intro head tail hends
    cases hq : q.ends with
    | none => simp [hq] at hends
    | some ends =>
      obtain ⟨head', tail'⟩ := ends
      obtain ⟨thrs, hthrs⟩ := q.chained head' tail' hq
      cases hthrs with
      | last hcell => simp [hq, hcell] at hends
      | cons hcell _ hrest =>
        simp only [hq, Option.bind_some, hcell, Option.map_some, Option.some.injEq,
          Prod.mk.injEq] at hends
        obtain ⟨rfl, rfl⟩ := hends
        exact ⟨_, hrest⟩

def dequeue (q : Queue) : Option Nat × Queue :=
  match q.ends with
  | none => (none, q)
  | some (head, _) => (q.cells[head]?.map QCell.thr, q.rest)

theorem dequeue_eq (q : Queue) : q.dequeue.1 = q.toList.head? ∧ q.dequeue.2.toList = q.toList.tail := by
  cases hq : q.ends with
  | none =>
    have hnil : q.toList = [] := by rw [toList, hq]
    have hdeq : q.dequeue = (none, q) := by rw [dequeue, hq]
    simp [hdeq, hnil]
  | some ends =>
    obtain ⟨head, tail⟩ := ends
    obtain ⟨thrs, hthrs⟩ := q.chained head tail hq
    have hdeq : q.dequeue = (q.cells[head]?.map QCell.thr, q.rest) := by rw [dequeue, hq]
    rw [hdeq, toList_eq hq hthrs]
    cases hthrs with
    | last hcell =>
      have hends : q.rest.ends = none := by simp [rest, hq, hcell]
      have hnil : q.rest.toList = [] := by rw [toList, hends]
      simp [hcell, hnil]
    | @cons _ j _ _ hcell _ hrest =>
      have hends : q.rest.ends = some (j, tail) := by simp [rest, hq, hcell]
      have hthrs' : q.rest.toList = _ := toList_eq hends hrest
      simp [hcell, hthrs']

end Queue

end Arcueid
