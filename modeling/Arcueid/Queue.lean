import Arcueid.Lib.ConsList

/-! Queues of `arc.arc`: a list of their first cons, their last cons and their length. -/

namespace Arcueid.Queue

open ConsStore (cons scar scdr)
open ConsList

inductive Atom (B : Type) where
  | nil
  | num (n : Int)
  | other (b : B)
  deriving DecidableEq

abbrev Val (B : Type) := ConsStore.Ref (Atom B)

abbrev Store (B : Type) := ConsStore.Store (Atom B)

variable {B : Type} [DecidableEq B]

section Model

variable (s : Store B)

def nil : Val B := .atom .nil

def car (r : Val B) : Option (Val B) := ConsList.car .nil s r

def cdr (r : Val B) : Option (Val B) := ConsList.cdr .nil s r

def cadr (r : Val B) : Option (Val B) := do car s (← cdr s r)

/-- `(list nil nil 0)`. -/
def queue : Val B × Store B :=
  let (c₂, s) := cons s (.atom (.num 0)) nil
  let (c₁, s) := cons s nil c₂
  cons s nil c₁

/-- The length that is kept, `(q 2)`. -/
def qlen (q : Val B) : Option Int := do
  match ← car s (← cdr s (← cdr s q)) with
  | .atom (.num n) => some n
  | _ => none

def setLen (q : Val B) (n : Int) : Option (Store B) := do
  scar s (← cdr s (← cdr s q)) (.atom (.num n))

def qlist (q : Val B) : Option (Val B) := car s q

def enq (obj q : Val B) : Option (Val B × Store B) := do
  let s ← setLen s q ((← qlen s q) + 1)
  if (← car s q) = nil then
    let (c, s) := cons s obj nil
    let s ← scar s q c
    let s ← scar s (← cdr s q) c
    return (← car s q, s)
  else
    let (c, s) := cons s obj nil
    let s ← scdr s (← cadr s q) c
    let s ← scar s (← cdr s q) (← cdr s (← cadr s q))
    return (← car s q, s)

/-- `(pop (car q))`. -/
def popFirst (q : Val B) : Option (Val B × Store B) := do
  let first ← car s q
  return (← car s first, ← scar s q (← cdr s first))

def deq (q : Val B) : Option (Val B × Store B) := do
  let n ← qlen s q
  if n = 0 then popFirst s q else popFirst (← setLen s q (n - 1)) q

def enqLimit (val q : Val B) (limit : Int) : Option (Val B × Store B) := do
  if (← qlen s q) < limit then enq s val q
  else
    let (_, s) ← deq s q
    enq s val q

end Model

section Invariant

/-- The conses of a queue: the three that it starts with, and those of its list. -/
structure Conses (B : Type) where
  c₀ : Nat
  c₁ : Nat
  c₂ : Nat
  list : List (Nat × Val B)

namespace Conses

variable (k : Conses B)

def addresses : List Nat := k.c₀ :: k.c₁ :: k.c₂ :: k.list.map Prod.fst

def elements : List (Val B) := k.list.map Prod.snd

/-- The queue as the store has it. What is kept as the last cons of an empty queue is
of no account. -/
structure Holds (s : Store B) : Prop where
  nodup : k.addresses.Nodup
  first : ∃ v, s[k.c₀]? = some (v, .cell k.c₁) ∧ ListAt .nil s v k.list
  last : ∃ v, s[k.c₁]? = some (v, .cell k.c₂) ∧ ∀ p, k.list.getLast? = some p → v = .cell p.1
  length : s[k.c₂]? = some (.atom (.num k.list.length), nil)

/-- What an operation does to the conses: those of the queue apart and new ones, all
of them are as before. -/
structure Steps (s s' : Store B) (k k' : Conses B) : Prop where
  holds : k'.Holds s'
  c₀ : k'.c₀ = k.c₀
  frame : ∀ n < s.length, n ∉ k.addresses → s'[n]? = s[n]?
  addresses : ∀ n ∈ k'.addresses, n ∈ k.addresses ∨ s.length ≤ n
  length : s.length ≤ s'.length

variable {k} {k₁ k₂ k₃ : Conses B} {s s₁ s₂ s₃ s' : Store B} {n : Nat}

omit [DecidableEq B] in
theorem Steps.refl (h : k.Holds s) : Steps s s k k :=
  ⟨h, rfl, fun _ _ _ => rfl, fun _ hn => .inl hn, Nat.le_refl _⟩

omit [DecidableEq B] in
theorem Steps.trans (h₁ : Steps s₁ s₂ k₁ k₂) (h₂ : Steps s₂ s₃ k₂ k₃) : Steps s₁ s₃ k₁ k₃ where
  holds := h₂.holds
  c₀ := h₂.c₀.trans h₁.c₀
  frame n hn hnot := by
    have hnot₂ : n ∉ k₂.addresses := fun hmem => (h₁.addresses n hmem).elim hnot (Nat.not_le.mpr hn)
    rw [h₂.frame n (Nat.lt_of_lt_of_le hn h₁.length) hnot₂, h₁.frame n hn hnot]
  addresses n hn := by
    rcases h₂.addresses n hn with hmem | hle
    · exact h₁.addresses n hmem
    · exact .inr (Nat.le_trans h₁.length hle)
  length := Nat.le_trans h₁.length h₂.length

omit [DecidableEq B] in
theorem Holds.frame (h : k.Holds s) (hs : ∀ n ∈ k.addresses, s'[n]? = s[n]?) : k.Holds s' := by
  obtain ⟨v, hfirst, hlist⟩ := h.first
  obtain ⟨w, hlast, hw⟩ := h.last
  refine ⟨h.nodup, ⟨v, ?_, hlist.frame fun m hm => hs m ?_⟩, ⟨w, ?_, hw⟩, ?_⟩
  · rw [hs k.c₀ (by simp [addresses]), hfirst]
  · simp [addresses, hm]
  · rw [hs k.c₁ (by simp [addresses]), hlast]
  · rw [hs k.c₂ (by simp [addresses]), h.length]

omit [DecidableEq B] in
theorem Holds.lt (h : k.Holds s) (hn : n ∈ k.addresses) : n < s.length := by
  obtain ⟨v, hfirst, hlist⟩ := h.first
  obtain ⟨w, hlast, -⟩ := h.last
  have hlt : ∀ {m : Nat} {p : Val B × Val B}, s[m]? = some p → m < s.length := fun hm =>
    (List.getElem?_eq_some_iff.mp hm).1
  simp only [addresses, List.mem_cons] at hn
  rcases hn with rfl | rfl | rfl | hn
  · exact hlt hfirst
  · exact hlt hlast
  · exact hlt h.length
  · exact hlist.lt hn

omit [DecidableEq B] in
theorem Holds.distinct (h : k.Holds s) : k.c₀ ≠ k.c₁ ∧ k.c₀ ≠ k.c₂ ∧ k.c₁ ≠ k.c₂ ∧
    (k.list.map Prod.fst).Nodup ∧ ∀ n ∈ k.list.map Prod.fst, n ≠ k.c₀ ∧ n ≠ k.c₁ ∧ n ≠ k.c₂ := by
  have hnodup := h.nodup
  simp only [addresses, List.nodup_cons, List.mem_cons, not_or] at hnodup
  obtain ⟨⟨h₀₁, h₀₂, h₀⟩, ⟨h₁₂, h₁⟩, h₂, hlist⟩ := hnodup
  refine ⟨h₀₁, h₀₂, h₁₂, hlist, fun n hn => ⟨?_, ?_, ?_⟩⟩
  · exact fun heq => h₀ (heq ▸ hn)
  · exact fun heq => h₁ (heq ▸ hn)
  · exact fun heq => h₂ (heq ▸ hn)

end Conses

end Invariant

section Steps

variable {s : Store B} {k : Conses B} {v w x d : Val B} {n : Nat}

theorem car_at (h : s[n]? = some (x, d)) : car s (.cell n) = some x := car_cell h

theorem cdr_at (h : s[n]? = some (x, d)) : cdr s (.cell n) = some d := cdr_cell h

theorem car_nil : car s nil = some nil := by simp [car, ConsList.car, nil]

theorem cdr_nil : cdr s nil = some nil := by simp [cdr, ConsList.cdr, nil]

theorem qlen_eq (h : k.Holds s) : qlen s (.cell k.c₀) = some (k.list.length : Int) := by
  obtain ⟨v, hfirst, -⟩ := h.first
  obtain ⟨w, hlast, -⟩ := h.last
  simp only [qlen, cdr_at hfirst, cdr_at hlast, car_at h.length, Option.bind_eq_bind, Option.bind_some]

theorem setLen_eq (h : k.Holds s) (m : Int) :
    setLen s (.cell k.c₀) m = some (s.set k.c₂ (.atom (.num m), nil)) := by
  obtain ⟨v, hfirst, -⟩ := h.first
  obtain ⟨w, hlast, -⟩ := h.last
  simp only [setLen, cdr_at hfirst, cdr_at hlast, Option.bind_eq_bind, Option.bind_some]
  exact scar_cell h.length _

theorem popFirst_nil (hfirst : s[n]? = some (nil, d)) :
    popFirst s (.cell n) = some (nil, s.set n (nil, d)) := by
  simp only [popFirst, car_at hfirst, car_nil, cdr_nil, Option.bind_eq_bind, Option.bind_some]
  rw [scar_cell hfirst]
  rfl

theorem popFirst_cell {m : Nat} {e : Val B} (hfirst : s[n]? = some (.cell m, d)) (hm : s[m]? = some (x, e)) :
    popFirst s (.cell n) = some (x, s.set n (e, d)) := by
  simp only [popFirst, car_at hfirst, car_at hm, cdr_at hm, Option.bind_eq_bind, Option.bind_some]
  rw [scar_cell hfirst]
  rfl

theorem set_same {α : Type} {l : List α} {p : α} (h : l[n]? = some p) : l.set n p = l := by
  obtain ⟨hlt, rfl⟩ := List.getElem?_eq_some_iff.mp h
  exact List.set_getElem_self hlt

/-- What is taken from an empty queue is nil, and nothing changes. -/
theorem deq_empty (h : k.Holds s) (hlist : k.list = []) : deq s (.cell k.c₀) = some (nil, s) := by
  obtain ⟨v, hfirst, hv⟩ := h.first
  rw [hlist] at hv
  obtain rfl : v = nil := hv
  rw [deq, qlen_eq h, hlist]
  rw [Option.bind_eq_bind, Option.bind_some, if_pos (by rfl), popFirst_nil hfirst, set_same hfirst]

theorem deq_cons {p : Nat × Val B} {l : List (Nat × Val B)} (h : k.Holds s) (hlist : k.list = p :: l) :
    ∃ s', deq s (.cell k.c₀) = some (p.2, s') ∧ k.Steps s s' { k with list := l } := by
  obtain ⟨h₀₁, h₀₂, h₁₂, hnodup, hne⟩ := h.distinct
  obtain ⟨v, hfirst, hv⟩ := h.first
  obtain ⟨w, hlast, hw⟩ := h.last
  have hlength := h.length
  rw [hlist] at hv hw hlength hnodup hne
  obtain ⟨rfl, d, hp, hd⟩ := hv
  have hp₂ : p.1 ≠ k.c₂ := (hne p.1 (by simp)).2.2
  let s₁ := s.set k.c₂ (.atom (.num l.length), nil)
  let s₂ := s₁.set k.c₀ (d, .cell k.c₁)
  have hs₁ : ∀ m, m ≠ k.c₂ → s₁[m]? = s[m]? := fun m hm => List.getElem?_set_ne (Ne.symm hm)
  have hs₂ : ∀ m, m ≠ k.c₀ → s₂[m]? = s₁[m]? := fun m hm => List.getElem?_set_ne (Ne.symm hm)
  have hlt₀ : k.c₀ < s₁.length := by
    rw [List.length_set]
    exact (List.getElem?_eq_some_iff.mp hfirst).1
  have hlt₂ : k.c₂ < s.length := (List.getElem?_eq_some_iff.mp hlength).1
  have hrun : deq s (.cell k.c₀) = some (p.2, s₂) := by
    rw [deq, qlen_eq h, hlist, Option.bind_eq_bind, Option.bind_some, if_neg (by simp; omega), setLen_eq h]
    rw [show ((p :: l).length : Int) - 1 = l.length by simp, Option.bind_eq_bind, Option.bind_some]
    exact popFirst_cell ((hs₁ _ h₀₂).trans hfirst) ((hs₁ _ hp₂).trans hp)
  refine ⟨s₂, hrun, ⟨?_, rfl, fun n _ hn => ?_, fun n hn => .inl ?_, by simp [s₂, s₁]⟩⟩
  · refine ⟨?_, ⟨d, List.getElem?_set_self hlt₀, hd.frame fun m hm => ?_⟩, ⟨w, ?_, ?_⟩, ?_⟩
    · have hsub : (({ k with list := l } : Conses B).addresses).Sublist k.addresses := by
        rw [Conses.addresses, Conses.addresses, hlist]
        simp
      exact h.nodup.sublist hsub
    · have hm := hne m (List.mem_cons_of_mem _ hm)
      rw [hs₂ m hm.1, hs₁ m hm.2.2]
    · rw [hs₂ _ h₀₁.symm, hs₁ _ h₁₂, hlast]
    · intro p' hp'
      cases l with
      | nil => cases hp'
      | cons q l => exact hw p' (by rwa [List.getLast?_cons_cons])
    · rw [hs₂ _ h₀₂.symm]
      exact List.getElem?_set_self hlt₂
  · simp only [Conses.addresses, List.mem_cons, not_or] at hn
    rw [hs₂ n hn.1, hs₁ n hn.2.2.1]
  · simp only [Conses.addresses, hlist, List.map_cons, List.mem_cons] at hn ⊢
    tauto

omit [DecidableEq B] in
theorem enq_holds {s' : Store B} {obj : Val B} (h : k.Holds s) (hle : s.length < s'.length)
    (hfirst : ∃ v, s'[k.c₀]? = some (v, .cell k.c₁) ∧ ListAt .nil s' v (k.list ++ [(s.length, obj)]))
    (hlast : s'[k.c₁]? = some (.cell s.length, .cell k.c₂))
    (hlength : s'[k.c₂]? = some (.atom (.num (k.list.length + 1)), nil))
    (hframe : ∀ n < s.length, n ∉ k.addresses → s'[n]? = s[n]?) :
    k.Steps s s' { k with list := k.list ++ [(s.length, obj)] } := by
  have haddresses : ({ k with list := k.list ++ [(s.length, obj)] } : Conses B).addresses =
      k.addresses ++ [s.length] := by simp [Conses.addresses]
  have hnew : s.length ∉ k.addresses := fun hmem => Nat.lt_irrefl _ (h.lt hmem)
  refine ⟨⟨?_, hfirst, ⟨_, hlast, fun p hp => ?_⟩, ?_⟩, rfl, hframe, fun n hn => ?_, Nat.le_of_lt hle⟩
  · rw [haddresses]
    exact List.nodup_append_comm.mp (List.nodup_cons.mpr ⟨hnew, h.nodup⟩)
  · rw [List.getLast?_concat] at hp
    cases hp
    rfl
  · rw [hlength, List.length_append, List.length_singleton]
    rfl
  · rw [haddresses, List.mem_append, List.mem_singleton] at hn
    exact hn.imp_right fun heq => Nat.le_of_eq heq.symm

/-- A queue is handed back with its new element behind all others. -/
theorem enq_steps (h : k.Holds s) (obj : Val B) : ∃ r s', enq s obj (.cell k.c₀) = some (r, s') ∧
    ListAt .nil s' r (k.list ++ [(s.length, obj)]) ∧
    k.Steps s s' { k with list := k.list ++ [(s.length, obj)] } := by
  obtain ⟨h₀₁, h₀₂, h₁₂, hnodup, hne⟩ := h.distinct
  obtain ⟨v, hfirst, hv⟩ := h.first
  obtain ⟨w, hlast, hw⟩ := h.last
  have hlength := h.length
  have hlt₀ := (List.getElem?_eq_some_iff.mp hfirst).1
  have hlt₁ := (List.getElem?_eq_some_iff.mp hlast).1
  have hlt₂ := (List.getElem?_eq_some_iff.mp hlength).1
  let s₁ := s.set k.c₂ (.atom (.num (k.list.length + 1)), nil)
  let s₂ := s₁ ++ [(obj, nil)]
  have hlen₁ : s₁.length = s.length := List.length_set
  have hcons : cons s₁ obj nil = (.cell s.length, s₂) := by rw [cons, hlen₁]
  have hlen₂ : s₂.length = s.length + 1 := by simp [s₂, hlen₁]
  have hs₂ : ∀ m < s.length, m ≠ k.c₂ → s₂[m]? = s[m]? := by
    intro m hm hne
    rw [List.getElem?_append_left (by omega), List.getElem?_set_ne (Ne.symm hne)]
  have hnew₂ : s₂[s.length]? = some (obj, nil) := by
    rw [← hlen₁]
    exact List.getElem?_concat_length
  have hc₂ : s₂[k.c₂]? = some (.atom (.num (k.list.length + 1)), nil) := by
    rw [List.getElem?_append_left (by omega), List.getElem?_set_self hlt₂]
  have hc₁ : s₂[k.c₁]? = some (w, .cell k.c₂) := (hs₂ _ hlt₁ h₁₂).trans hlast
  have hc₀ : s₂[k.c₀]? = some (v, .cell k.c₁) := (hs₂ _ hlt₀ h₀₂).trans hfirst
  have hcar₁ : car s₁ (.cell k.c₀) = some v :=
    car_at ((List.getElem?_set_ne (Ne.symm h₀₂)).trans hfirst)
  have hset : setLen s (.cell k.c₀) (k.list.length + 1) = some s₁ := setLen_eq h _
  by_cases hlist : k.list = []
  · rw [hlist] at hv
    obtain rfl : v = nil := hv
    let s₃ := s₂.set k.c₀ (.cell s.length, .cell k.c₁)
    let s₄ := s₃.set k.c₁ (.cell s.length, .cell k.c₂)
    have hs₃ : ∀ m, m ≠ k.c₀ → s₃[m]? = s₂[m]? := fun m hm => List.getElem?_set_ne (Ne.symm hm)
    have hs₄ : ∀ m, m ≠ k.c₁ → s₄[m]? = s₃[m]? := fun m hm => List.getElem?_set_ne (Ne.symm hm)
    have hd₃ : s₃[k.c₀]? = some (.cell s.length, .cell k.c₁) := List.getElem?_set_self (by omega)
    have hd₄ : s₄[k.c₀]? = some (.cell s.length, .cell k.c₁) := (hs₄ _ h₀₁).trans hd₃
    have hnew₄ : s₄[s.length]? = some (obj, nil) := by rw [hs₄ _ (by omega), hs₃ _ (by omega), hnew₂]
    have hscar₃ : scar s₂ (.cell k.c₀) (.cell s.length) = some s₃ := scar_cell hc₀ _
    have hscar₄ : scar s₃ (.cell k.c₁) (.cell s.length) = some s₄ :=
      scar_cell ((hs₃ _ h₀₁.symm).trans hc₁) _
    have hrun : enq s obj (.cell k.c₀) = some (.cell s.length, s₄) := by
      simp only [enq, qlen_eq h, hset, hcar₁, if_true, hcons, hscar₃, cdr_at hd₃, hscar₄, car_at hd₄,
        Option.bind_eq_bind, Option.bind_some]
      rfl
    have hnewlist : ListAt .nil s₄ (.cell s.length) (k.list ++ [(s.length, obj)]) := by
      rw [hlist]
      exact ⟨rfl, nil, hnew₄, rfl⟩
    refine ⟨_, s₄, hrun, hnewlist, enq_holds h (by simp [s₄, s₃, hlen₂]) ⟨_, hd₄, hnewlist⟩
      (List.getElem?_set_self (by simp [s₃, hlen₂]; omega)) ?_ fun n hn hnot => ?_⟩
    · rw [hs₄ _ h₁₂.symm, hs₃ _ h₀₂.symm, hc₂]
    · simp only [Conses.addresses, List.mem_cons, not_or] at hnot
      rw [hs₄ n hnot.2.1, hs₃ n hnot.1, hs₂ n hn hnot.2.2.1]
  · obtain ⟨p, hp⟩ : ∃ p, k.list.getLast? = some p := ⟨_, List.getLast?_eq_some_getLast hlist⟩
    obtain rfl := hw p hp
    have hmem : p.1 ∈ k.list.map Prod.fst := List.mem_map_of_mem (List.mem_of_getLast? hp)
    obtain ⟨hp₀, hp₁, hp₂⟩ := hne p.1 hmem
    have hltp : p.1 < s.length := hv.lt hmem
    have hlp₂ : s₂[p.1]? = some (p.2, nil) := (hs₂ _ hltp hp₂).trans (hv.getLast hp)
    let s₃ := s₂.set p.1 (p.2, .cell s.length)
    let s₄ := s₃.set k.c₁ (.cell s.length, .cell k.c₂)
    have hs₃ : ∀ m, m ≠ p.1 → s₃[m]? = s₂[m]? := fun m hm => List.getElem?_set_ne (Ne.symm hm)
    have hs₄ : ∀ m, m ≠ k.c₁ → s₄[m]? = s₃[m]? := fun m hm => List.getElem?_set_ne (Ne.symm hm)
    have hd₃ : s₃[k.c₀]? = some (v, .cell k.c₁) := (hs₃ _ hp₀.symm).trans hc₀
    have he₃ : s₃[k.c₁]? = some (.cell p.1, .cell k.c₂) := (hs₃ _ hp₁.symm).trans hc₁
    have hp₃ : s₃[p.1]? = some (p.2, .cell s.length) := List.getElem?_set_self (by omega)
    have hd₄ : s₄[k.c₀]? = some (v, .cell k.c₁) := (hs₄ _ h₀₁).trans hd₃
    have hnew₄ : s₄[s.length]? = some (obj, nil) := by rw [hs₄ _ (by omega), hs₃ _ (by omega), hnew₂]
    have hscdr₃ : scdr s₂ (.cell p.1) (.cell s.length) = some s₃ := scdr_cell hlp₂ _
    have hscar₄ : scar s₃ (.cell k.c₁) (.cell s.length) = some s₄ := scar_cell he₃ _
    have hvnil : v ≠ nil := fun heq => hlist (hv.eq_nil_iff.mp heq)
    have hrun : enq s obj (.cell k.c₀) = some (v, s₄) := by
      simp only [enq, cadr, qlen_eq h, hset, hcar₁, if_neg hvnil, hcons, cdr_at hc₀, car_at hc₁, hscdr₃,
        cdr_at hd₃, car_at he₃, cdr_at hp₃, hscar₄, car_at hd₄, Option.bind_eq_bind, Option.bind_some]
      rfl
    have hnewlist : ListAt .nil s₄ v (k.list ++ [(s.length, obj)]) := by
      refine hv.append_last hnodup hp ((hs₄ _ hp₁).trans hp₃) hnew₄ fun m hm hmp => ?_
      rw [hs₄ m (hne m hm).2.1, hs₃ m hmp, hs₂ m (hv.lt hm) (hne m hm).2.2]
    refine ⟨_, s₄, hrun, hnewlist, enq_holds h (by simp [s₄, s₃, hlen₂]) ⟨_, hd₄, hnewlist⟩
      (List.getElem?_set_self (by simp [s₃, hlen₂]; omega)) ?_ fun n hn hnot => ?_⟩
    · rw [hs₄ _ h₁₂.symm, hs₃ _ hp₂.symm, hc₂]
    · simp only [Conses.addresses, List.mem_cons, not_or] at hnot
      have hnp : n ≠ p.1 := fun heq => hnot.2.2.2 (heq ▸ hmem)
      rw [hs₄ n hnot.2.1, hs₃ n hnp, hs₂ n hn hnot.2.2.1]

end Steps

section Runs

/-- What a program does with its queues, and the conses that it makes besides. -/
inductive Op (B : Type) where
  | queue
  | enq (i : Nat) (obj : Val B)
  | deq (i : Nat)
  | enqLimit (i : Nat) (val : Val B) (limit : Int)
  | qlen (i : Nat)
  | qlist (i : Nat)
  | cons (x y : Val B)

/-- The conses and the queues that were made. -/
structure State (B : Type) where
  store : Store B
  queues : List (Val B)

namespace State

def step (σ : State B) : Op B → Option (Val B × State B)
  | .queue =>
    let (q, s) := queue σ.store
    some (q, ⟨s, σ.queues ++ [q]⟩)
  | .enq i obj => do
    let (r, s) ← Queue.enq σ.store obj (← σ.queues[i]?)
    return (r, ⟨s, σ.queues⟩)
  | .deq i => do
    let (r, s) ← Queue.deq σ.store (← σ.queues[i]?)
    return (r, ⟨s, σ.queues⟩)
  | .enqLimit i val limit => do
    let (r, s) ← Queue.enqLimit σ.store val (← σ.queues[i]?) limit
    return (r, ⟨s, σ.queues⟩)
  | .qlen i => do
    let n ← Queue.qlen σ.store (← σ.queues[i]?)
    return (.atom (.num n), σ)
  | .qlist i => do
    let r ← Queue.qlist σ.store (← σ.queues[i]?)
    return (r, σ)
  | .cons x y =>
    let (r, s) := ConsStore.cons σ.store x y
    some (r, ⟨s, σ.queues⟩)

/-- The answers, each with the store in which it was given. -/
def run (σ : State B) : List (Op B) → Option (List (Val B × Store B) × State B)
  | [] => some ([], σ)
  | op :: ops => do
    let (r, σ') ← σ.step op
    let (rs, σ'') ← σ'.run ops
    return ((r, σ'.store) :: rs, σ'')

end State

/-- What an operation is to answer. -/
inductive Answer (B : Type) where
  | value (v : Val B)
  | list (vs : List (Val B))
  | pair (x y : Val B)
  | queue

def Answer.Is (s : Store B) (r : Val B) : Answer B → Prop
  | .value v => r = v
  | .list vs => IsList .nil s r vs
  | .pair x y => car s r = some x ∧ cdr s r = some y
  | .queue => qlen s r = some 0

/-- The queues as lists, the first element first. -/
abbrev Lists (B : Type) := List (List (Val B))

namespace Lists

def step (ls : Lists B) : Op B → Option (Answer B × Lists B)
  | .queue => some (.queue, ls ++ [[]])
  | .enq i obj => do
    let l ← ls[i]?
    return (.list (l ++ [obj]), ls.set i (l ++ [obj]))
  | .deq i => do
    let l ← ls[i]?
    return (.value (l.headD nil), ls.set i l.tail)
  | .enqLimit i val limit => do
    let l ← ls[i]?
    let l := if l.length < limit then l else l.tail
    return (.list (l ++ [val]), ls.set i (l ++ [val]))
  | .qlen i => do
    let l ← ls[i]?
    return (.value (.atom (.num l.length)), ls)
  | .qlist i => do
    let l ← ls[i]?
    return (.list l, ls)
  | .cons x y => some (.pair x y, ls)

def run (ls : Lists B) : List (Op B) → Option (List (Answer B) × Lists B)
  | [] => some ([], ls)
  | op :: ops => do
    let (a, ls') ← step ls op
    let (as, ls'') ← run ls' ops
    return (a :: as, ls'')

end Lists

/-- The store has every queue, and no two of them have a cons in common. -/
structure Represents (σ : State B) (ls : Lists B) (ks : List (Conses B)) : Prop where
  queues : σ.queues = ks.map fun k => .cell k.c₀
  lists : ls = ks.map Conses.elements
  holds : ∀ (i : Nat) (k : Conses B), ks[i]? = some k → k.Holds σ.store
  apart : ∀ (i j : Nat) (k k' : Conses B), i ≠ j → ks[i]? = some k → ks[j]? = some k' →
    k.addresses.Disjoint k'.addresses

variable {σ : State B} {ls : Lists B} {ks : List (Conses B)} {s : Store B} {k k' : Conses B} {i : Nat}

omit [DecidableEq B] in
theorem Represents.queue_at (h : Represents σ ls ks) (hk : ks[i]? = some k) :
    σ.queues[i]? = some (.cell k.c₀) := by
  rw [h.queues, List.getElem?_map, hk]
  rfl

omit [DecidableEq B] in
theorem Represents.at_index {l : List (Val B)} (h : Represents σ ls ks) (hl : ls[i]? = some l) :
    ∃ k, ks[i]? = some k ∧ k.Holds σ.store ∧ σ.queues[i]? = some (.cell k.c₀) ∧ l = k.elements := by
  rw [h.lists, List.getElem?_map, Option.map_eq_some_iff] at hl
  obtain ⟨k, hk, rfl⟩ := hl
  exact ⟨k, hk, h.holds i k hk, h.queue_at hk, rfl⟩

omit [DecidableEq B] in
/-- An operation on one of the queues leaves the others as they are. -/
theorem Represents.set (h : Represents σ ls ks) (hk : ks[i]? = some k) (hsteps : k.Steps σ.store s k') :
    Represents ⟨s, σ.queues⟩ (ls.set i k'.elements) (ks.set i k') := by
  have hlt : i < ks.length := (List.getElem?_eq_some_iff.mp hk).1
  have hother : ∀ j kj, j ≠ i → ks[j]? = some kj → ∀ n ∈ kj.addresses, n ∉ k'.addresses := by
    intro j kj hj hkj n hn hn'
    rcases hsteps.addresses n hn' with hmem | hle
    · exact h.apart j i kj k hj hkj hk hn hmem
    · exact absurd ((h.holds j kj hkj).lt hn) (Nat.not_lt.mpr hle)
  refine ⟨?_, by rw [h.lists, List.map_set], fun j kj hkj => ?_, fun j m kj km hjm hkj hkm => ?_⟩
  · rw [List.map_set, hsteps.c₀, ← h.queues]
    exact (set_same (h.queue_at hk)).symm
  · by_cases hj : j = i
    · subst hj
      rw [List.getElem?_set_self hlt] at hkj
      cases hkj
      exact hsteps.holds
    · rw [List.getElem?_set_ne (Ne.symm hj)] at hkj
      have hkj' := h.holds j kj hkj
      refine hkj'.frame fun n hn => hsteps.frame n (hkj'.lt hn) ?_
      exact fun hmem => h.apart j i kj k hj hkj hk hn hmem
  · by_cases hj : j = i
    · subst hj
      rw [List.getElem?_set_self hlt] at hkj
      rw [List.getElem?_set_ne hjm] at hkm
      cases hkj
      exact fun n hn hn' => hother m km (Ne.symm hjm) hkm n hn' hn
    · rw [List.getElem?_set_ne (Ne.symm hj)] at hkj
      by_cases hm : m = i
      · subst hm
        rw [List.getElem?_set_self hlt] at hkm
        cases hkm
        exact fun n hn hn' => hother j kj hj hkj n hn hn'
      · rw [List.getElem?_set_ne (Ne.symm hm)] at hkm
        exact h.apart j m kj km hjm hkj hkm

omit [DecidableEq B] in
theorem Represents.extend (h : Represents σ ls ks) (hs : σ.store <+: s) :
    Represents ⟨s, σ.queues⟩ ls ks := by
  refine ⟨h.queues, h.lists, fun i k hk => ?_, h.apart⟩
  have hholds := h.holds i k hk
  refine hholds.frame fun n hn => ?_
  obtain ⟨p, hp⟩ : ∃ p, σ.store[n]? = some p := ⟨_, List.getElem?_eq_getElem (hholds.lt hn)⟩
  rw [hp, ConsStore.getElem?_of_prefix hs hp]

/-- The conses of a queue that was just made. -/
def fresh (s : Store B) : Conses B := ⟨s.length + 2, s.length + 1, s.length, []⟩

omit [DecidableEq B] in
theorem fresh_holds (s : Store B) : (fresh s).Holds (queue s).2 := by
  have hqueue : (queue s).2 = s ++ [(.atom (.num 0), nil), (nil, .cell s.length), (nil, .cell (s.length + 1))] := by
    simp [queue, ConsStore.cons]
  rw [hqueue]
  refine ⟨?_, ⟨nil, ?_, rfl⟩, ⟨nil, ?_, fun p hp => by cases hp⟩, ?_⟩ <;>
    simp [fresh, Conses.addresses]

omit [DecidableEq B] in
theorem Represents.queue (h : Represents σ ls ks) : Represents
    ⟨(queue σ.store).2, σ.queues ++ [(queue σ.store).1]⟩ (ls ++ [[]]) (ks ++ [fresh σ.store]) := by
  have hprefix : σ.store <+: (Queue.queue σ.store).2 := by
    simp [Queue.queue, ConsStore.cons]
  have hold := h.extend hprefix
  have hnew : ∀ (i : Nat) (k : Conses B), ks[i]? = some k → k.addresses.Disjoint (fresh σ.store).addresses := by
    intro i k hk n hn hn'
    have hlt := (h.holds i k hk).lt hn
    simp only [Conses.addresses, fresh, List.map_nil, List.mem_cons, List.not_mem_nil, or_false] at hn'
    omega
  have hcases : ∀ (i : Nat) (k : Conses B), (ks ++ [fresh σ.store])[i]? = some k →
      ks[i]? = some k ∨ i = ks.length ∧ k = fresh σ.store := by
    intro i k hk
    rw [List.getElem?_append] at hk
    split at hk
    · exact .inl hk
    · rw [List.getElem?_singleton] at hk
      split at hk
      · cases hk
        exact .inr ⟨by omega, rfl⟩
      · cases hk
  refine ⟨?_, ?_, fun i k hk => ?_, fun i j k k' hij hk hk' => ?_⟩
  · rw [List.map_append, ← h.queues]
    simp [Queue.queue, ConsStore.cons, fresh]
  · rw [List.map_append, ← h.lists]
    rfl
  · rcases hcases i k hk with hk | ⟨-, rfl⟩
    · exact hold.holds i k hk
    · exact fresh_holds σ.store
  · rcases hcases i k hk with hi | ⟨hi, rfl⟩ <;> rcases hcases j k' hk' with hj | ⟨hj, rfl⟩
    · exact h.apart i j k k' hij hi hj
    · exact hnew i k hi
    · exact List.disjoint_comm.mp (hnew j k' hj)
    · exact absurd (hi.trans hj.symm) hij

theorem deq_steps (h : k.Holds s) : ∃ s' k', deq s (.cell k.c₀) = some (k.elements.headD nil, s') ∧
    k.Steps s s' k' ∧ k'.elements = k.elements.tail := by
  cases hlist : k.list with
  | nil =>
    have helements : k.elements = [] := by rw [Conses.elements, hlist, List.map_nil]
    rw [helements]
    exact ⟨s, k, deq_empty h hlist, .refl h, helements⟩
  | cons p l =>
    obtain ⟨s', hrun, hsteps⟩ := deq_cons h hlist
    rw [Conses.elements, hlist]
    exact ⟨s', _, hrun, hsteps, rfl⟩

theorem enq_answers (h : k.Holds s) (obj : Val B) : ∃ r s' k', enq s obj (.cell k.c₀) = some (r, s') ∧
    IsList .nil s' r (k.elements ++ [obj]) ∧ k.Steps s s' k' ∧ k'.elements = k.elements ++ [obj] := by
  obtain ⟨r, s', hrun, hlist, hsteps⟩ := enq_steps h obj
  refine ⟨r, s', _, hrun, isList_iff.mpr ⟨_, hlist, ?_⟩, hsteps, ?_⟩ <;> simp [Conses.elements]

theorem enqLimit_answers (h : k.Holds s) (val : Val B) (limit : Int) : ∃ r s' k' l,
    enqLimit s val (.cell k.c₀) limit = some (r, s') ∧
      l = (if k.elements.length < limit then k.elements else k.elements.tail) ∧
      IsList .nil s' r (l ++ [val]) ∧ k.Steps s s' k' ∧ k'.elements = l ++ [val] := by
  have hlength : k.list.length = k.elements.length := by rw [Conses.elements, List.length_map]
  rw [enqLimit, qlen_eq h, Option.bind_eq_bind, Option.bind_some, hlength]
  by_cases hlt : (k.elements.length : Int) < limit
  · obtain ⟨r, s', k', hrun, hlist, hsteps, hk'⟩ := enq_answers h val
    exact ⟨r, s', k', _, by rw [if_pos hlt, hrun], (if_pos hlt).symm, hlist, hsteps, hk'⟩
  · obtain ⟨s₁, k₁, hrun₁, hsteps₁, hk₁⟩ := deq_steps h
    obtain ⟨r, s', k', hrun, hlist, hsteps, hk'⟩ := enq_answers hsteps₁.holds val
    rw [hk₁] at hlist hk'
    rw [hsteps₁.c₀] at hrun
    refine ⟨r, s', k', _, ?_, (if_neg hlt).symm, hlist, hsteps₁.trans hsteps, hk'⟩
    rw [if_neg hlt, hrun₁]
    exact hrun

theorem step_follows {op : Op B} {a : Answer B} {ls' : Lists B} (h : Represents σ ls ks)
    (hstep : ls.step op = some (a, ls')) : ∃ r σ' ks', σ.step op = some (r, σ') ∧ a.Is σ'.store r ∧
      Represents σ' ls' ks' := by
  cases op with
  | queue =>
    cases hstep
    have hqlen := qlen_eq (fresh_holds σ.store)
    have hqueue : Queue.queue σ.store = (.cell (fresh σ.store).c₀, (Queue.queue σ.store).2) := by
      simp [Queue.queue, ConsStore.cons, fresh]
    have hstep : σ.step .queue = some ((Queue.queue σ.store).1, ⟨(Queue.queue σ.store).2,
        σ.queues ++ [(Queue.queue σ.store).1]⟩) := rfl
    refine ⟨_, _, _, hstep, ?_, h.queue⟩
    rw [hqueue]
    exact hqlen
  | cons x y =>
    cases hstep
    have hnew : (ConsStore.cons σ.store x y).2[σ.store.length]? = some (x, y) := List.getElem?_concat_length
    exact ⟨_, _, ks, rfl, ⟨car_at hnew, cdr_at hnew⟩, h.extend (ConsStore.prefix_cons _ x y)⟩
  | enq i obj =>
    obtain ⟨l, hl, hstep⟩ := Option.bind_eq_some_iff.mp hstep
    obtain ⟨k, hk, hholds, hqueue, rfl⟩ := h.at_index hl
    obtain ⟨r, s', k', hrun, hlist, hsteps, hk'⟩ := enq_answers hholds obj
    cases hstep
    refine ⟨r, ⟨s', σ.queues⟩, ks.set i k', ?_, hlist, hk' ▸ h.set hk hsteps⟩
    simp only [State.step, hqueue, Option.bind_eq_bind, Option.bind_some, hrun]
    rfl
  | deq i =>
    obtain ⟨l, hl, hstep⟩ := Option.bind_eq_some_iff.mp hstep
    obtain ⟨k, hk, hholds, hqueue, rfl⟩ := h.at_index hl
    obtain ⟨s', k', hrun, hsteps, hk'⟩ := deq_steps hholds
    cases hstep
    refine ⟨_, ⟨s', σ.queues⟩, ks.set i k', ?_, rfl, hk' ▸ h.set hk hsteps⟩
    simp only [State.step, hqueue, Option.bind_eq_bind, Option.bind_some, hrun]
    rfl
  | enqLimit i val limit =>
    obtain ⟨l, hl, hstep⟩ := Option.bind_eq_some_iff.mp hstep
    obtain ⟨k, hk, hholds, hqueue, rfl⟩ := h.at_index hl
    obtain ⟨r, s', k', l, hrun, hl', hlist, hsteps, hk'⟩ := enqLimit_answers hholds val limit
    rw [← hl'] at hstep
    cases hstep
    refine ⟨r, ⟨s', σ.queues⟩, ks.set i k', ?_, hlist, hk' ▸ h.set hk hsteps⟩
    simp only [State.step, hqueue, Option.bind_eq_bind, Option.bind_some, hrun]
    rfl
  | qlen i =>
    obtain ⟨l, hl, hstep⟩ := Option.bind_eq_some_iff.mp hstep
    obtain ⟨k, hk, hholds, hqueue, rfl⟩ := h.at_index hl
    cases hstep
    refine ⟨_, σ, ks, ?_, rfl, h⟩
    simp only [State.step, hqueue, Option.bind_eq_bind, Option.bind_some, qlen_eq hholds, Conses.elements,
      List.length_map]
    rfl
  | qlist i =>
    obtain ⟨l, hl, hstep⟩ := Option.bind_eq_some_iff.mp hstep
    obtain ⟨k, hk, hholds, hqueue, rfl⟩ := h.at_index hl
    obtain ⟨v, hfirst, hv⟩ := hholds.first
    cases hstep
    refine ⟨v, σ, ks, ?_, isList_iff.mpr ⟨_, hv, rfl⟩, h⟩
    simp only [State.step, Queue.qlist, hqueue, Option.bind_eq_bind, Option.bind_some, car_at hfirst]
    rfl

/-- Whatever a program does with its queues in turn, each answers as a list that is
added to at its end and taken from at its front. -/
theorem queues_follow (s : Store B) (ops : List (Op B)) {as : List (Answer B)} {ls : Lists B}
    (hrun : Lists.run [] ops = some (as, ls)) : ∃ rs σ, State.run ⟨s, []⟩ ops = some (rs, σ) ∧
      List.Forall₂ (fun (r : Val B × Store B) a => a.Is r.2 r.1) rs as := by
  have hfollow : ∀ (ops : List (Op B)) (σ : State B) (ls : Lists B) (ks : List (Conses B)) as ls',
      Represents σ ls ks → ls.run ops = some (as, ls') → ∃ rs σ', σ.run ops = some (rs, σ') ∧
        List.Forall₂ (fun (r : Val B × Store B) a => a.Is r.2 r.1) rs as := by
    intro ops
    induction ops with
    | nil =>
      intro σ ls ks as ls' h hrun
      cases hrun
      exact ⟨[], σ, rfl, .nil⟩
    | cons op ops ih =>
      intro σ ls ks as ls' h hrun
      obtain ⟨⟨a, ls₁⟩, hstep, hrun⟩ := Option.bind_eq_some_iff.mp hrun
      obtain ⟨⟨as', ls₂⟩, hrest, hrun⟩ := Option.bind_eq_some_iff.mp hrun
      cases hrun
      obtain ⟨r, σ₁, ks₁, hstep₁, his, h₁⟩ := step_follows h hstep
      obtain ⟨rs, σ₂, hrun₁, hall⟩ := ih σ₁ ls₁ ks₁ as' ls' h₁ hrest
      refine ⟨(r, σ₁.store) :: rs, σ₂, ?_, .cons his hall⟩
      simp only [State.run, hstep₁, hrun₁, Option.bind_eq_bind, Option.bind_some]
      rfl
  have hstart : Represents (⟨s, []⟩ : State B) [] [] :=
    ⟨rfl, rfl, fun i k hk => (by cases hk), fun i j k k' _ hk => (by cases hk)⟩
  exact hfollow ops ⟨s, []⟩ [] [] as ls hstart hrun

def someOps : List (Op Nat) :=
  [.queue, .enq 0 (.atom (.other 5)), .queue, .enq 0 (.atom (.other 6)), .enqLimit 0 (.atom (.other 7)) 2,
    .enq 1 (.atom (.other 8)), .deq 0, .deq 1, .deq 1, .qlist 0]

theorem queues_some : ∃ as ls, Lists.run [] someOps = some (as, ls) ∧
    as.getLast? = some (.list [.atom (.other 7)]) ∧
    ∃ rs σ, State.run ⟨[], []⟩ someOps = some (rs, σ) ∧
      List.Forall₂ (fun (r : Val Nat × Store Nat) a => a.Is r.2 r.1) rs as :=
  ⟨_, _, rfl, rfl, queues_follow [] someOps rfl⟩

end Runs

end Arcueid.Queue
