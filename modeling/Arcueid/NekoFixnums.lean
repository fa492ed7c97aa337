import Arcueid.NekoLongMap

/-! The table of fixnum objects of nekoarc (`Fixnum.java`), a `LongMap` of weak
references, under collections that clear them. -/

namespace Arcueid.Neko

/-- The fixnum objects with their numbers, the weak references, which are none once
they are cleared, the objects that can be reached, and the results of `get` so far. -/
structure Fixtable where
  fixnums : List UInt64
  refs : List (Option Nat)
  table : LongMap (Option Nat)
  reached : List Nat
  results : List (UInt64 × Nat)

/-- The program gets a fixnum and holds the result, or it gives up the last reference
to an object, or the collector clears the reference to an object that cannot be
reached. -/
inductive FixnumEvent where
  | get (x : UInt64)
  | release (a : Nat)
  | collect (a : Nat)

namespace Fixtable

section Model

variable (S : LongMap.Settings)

def init : Fixtable := ⟨[], [], LongMap.new S (2 ^ 5), [], []⟩

/-- The object that the table has for a number, if its reference is not cleared. -/
def cached (w : Fixtable) (x : UInt64) : Option Nat :=
  if w.table.containsKey x then
    (w.table.get x none).bind fun wrf => w.refs[wrf]?.bind fun a => a
  else none

/-- `Fixnum.get`. -/
def get (w : Fixtable) (x : UInt64) : Except LongMap.Thrown (Nat × Fixtable) :=
  match w.cached x with
  | some a => .ok (a, w)
  | none => do
    let (_, table) ← LongMap.put S w.table x (some w.refs.length)
    return (w.fixnums.length,
      { w with fixnums := w.fixnums ++ [x], refs := w.refs ++ [some w.fixnums.length], table := table })

def step (w : Fixtable) : FixnumEvent → Except LongMap.Thrown Fixtable
  | .get x => do
    let (a, w) ← w.get S x
    return { w with reached := a :: w.reached, results := (x, a) :: w.results }
  | .release a => .ok { w with reached := w.reached.filter (· ≠ a) }
  | .collect a =>
    if a ∈ w.reached then .ok w
    else .ok { w with refs := w.refs.map fun r => if r = some a then none else r }

/-- Results that can be reached are one object just where the numbers were equal. -/
def OneIdentity (w : Fixtable) : Prop :=
  ∀ p ∈ w.results, ∀ q ∈ w.results, p.2 ∈ w.reached → q.2 ∈ w.reached → (p.2 = q.2 ↔ p.1 = q.1)

/-- A property of every state of a run, up to an exception. -/
def Always (P : Fixtable → Prop) : Fixtable → List FixnumEvent → Prop
  | w, [] => P w
  | w, e :: es => P w ∧ ∀ w', w.step S e = .ok w' → Always P w' es

end Model

/-- What holds in any run: the table has a reference for each number with an object
that can be reached, and it is the reference to that object. -/
structure Kept (S : LongMap.Settings) (w : Fixtable) (f : UInt64 → Option (Option Nat)) : Prop where
  table : LongMap.Represents S w.table f
  entries : ∀ x v, f x = some v → ∃ r ref, v = some r ∧ w.refs[r]? = some ref ∧
    ∀ a, ref = some a → w.fixnums[a]? = some x
  reached : ∀ a ∈ w.reached, ∃ x r, w.fixnums[a]? = some x ∧ f x = some (some r) ∧ w.refs[r]? = some (some a)
  results : ∀ p ∈ w.results, w.fixnums[p.2]? = some p.1

section Runs

variable {S : LongMap.Settings} {w w' : Fixtable} {f : UInt64 → Option (Option Nat)} {x : UInt64} {a : Nat}
  {e : FixnumEvent}

theorem kept_init (S : LongMap.Settings) : Kept S (init S) fun _ => none where
  table := LongMap.represents_new S (by decide)
  entries x v h := by cases h
  reached a h := by cases h
  results p h := by cases h

theorem Kept.oneIdentity (h : Kept S w f) : w.OneIdentity := by
  intro p hp q hq hreachp hreachq
  have hnump := h.results p hp
  have hnumq := h.results q hq
  constructor
  · intro heq
    rw [heq, hnumq] at hnump
    exact (Option.some.inj hnump).symm
  · intro heq
    obtain ⟨x, r, hx, hfx, hr⟩ := h.reached p.2 hreachp
    obtain ⟨y, s, hy, hfy, hs⟩ := h.reached q.2 hreachq
    have hxy : x = y := by
      have hx' : x = p.1 := Option.some.inj (hx.symm.trans hnump)
      have hy' : y = q.1 := Option.some.inj (hy.symm.trans hnumq)
      rw [hx', hy', heq]
    subst hxy
    have hrs : r = s := Option.some.inj (Option.some.inj (hfx.symm.trans hfy))
    subst hrs
    exact Option.some.inj (Option.some.inj (hr.symm.trans hs))

theorem Kept.cached_some (h : Kept S w f) (hx : w.cached x = some a) :
    w.fixnums[a]? = some x ∧ ∃ r, f x = some (some r) ∧ w.refs[r]? = some (some a) := by
  rw [cached, h.table.containsKey_eq, h.table.get_eq] at hx
  cases hfx : f x with
  | none => simp [hfx] at hx
  | some v =>
    obtain ⟨r, ref, rfl, hr, hnum⟩ := h.entries x v hfx
    have hread : ref = some a := by simpa [hfx, hr] using hx
    subst hread
    exact ⟨hnum a rfl, r, rfl, hr⟩

/-- A result that is in the table. -/
theorem Kept.found (h : Kept S w f) (hx : w.cached x = some a) :
    Kept S { w with reached := a :: w.reached, results := (x, a) :: w.results } f := by
  obtain ⟨hnum, r, hfx, hr⟩ := h.cached_some hx
  refine ⟨h.table, h.entries, ?_, ?_⟩
  · exact List.forall_mem_cons.mpr ⟨⟨x, r, hnum, hfx, hr⟩, h.reached⟩
  · exact List.forall_mem_cons.mpr ⟨hnum, h.results⟩

/-- A number without an object has none that can be reached. -/
theorem Kept.not_reached (h : Kept S w f) (hx : w.cached x = none) (ha : a ∈ w.reached) :
    w.fixnums[a]? ≠ some x := by
  intro hnum
  obtain ⟨y, r, hy, hfy, hr⟩ := h.reached a ha
  have hxy : y = x := Option.some.inj (hy.symm.trans hnum)
  subst hxy
  rw [cached, h.table.containsKey_eq, h.table.get_eq, hfy] at hx
  simp [hr] at hx

/-- A new object for a number. -/
theorem Kept.fresh {table : LongMap (Option Nat)} (h : Kept S w f) (hx : w.cached x = none)
    (htable : LongMap.Represents S table (Function.update f x (some (some w.refs.length)))) :
    Kept S { fixnums := w.fixnums ++ [x], refs := w.refs ++ [some w.fixnums.length], table := table,
             reached := w.fixnums.length :: w.reached, results := (x, w.fixnums.length) :: w.results }
      (Function.update f x (some (some w.refs.length))) := by
  have hold : ∀ a y, w.fixnums[a]? = some y → (w.fixnums ++ [x])[a]? = some y := fun a y hy =>
    (List.getElem?_append_left (List.getElem?_eq_some_iff.mp hy).1).trans hy
  have holdref : ∀ r v, w.refs[r]? = some v → (w.refs ++ [some w.fixnums.length])[r]? = some v := fun r v hr =>
    (List.getElem?_append_left (List.getElem?_eq_some_iff.mp hr).1).trans hr
  have hnew : (w.fixnums ++ [x])[w.fixnums.length]? = some x := List.getElem?_concat_length
  have hnewref : (w.refs ++ [some w.fixnums.length])[w.refs.length]? = some (some w.fixnums.length) :=
    List.getElem?_concat_length
  refine ⟨htable, fun y v hy => ?_, ?_, ?_⟩
  · by_cases hyx : y = x
    · subst hyx
      rw [Function.update_self] at hy
      cases hy
      refine ⟨w.refs.length, some w.fixnums.length, rfl, hnewref, ?_⟩
      rintro a ⟨⟩
      exact hnew
    · rw [Function.update_of_ne hyx] at hy
      obtain ⟨r, ref, hv, hr, hnum⟩ := h.entries y v hy
      exact ⟨r, ref, hv, holdref r ref hr, fun a ha => hold a y (hnum a ha)⟩
  · refine List.forall_mem_cons.mpr ⟨⟨x, w.refs.length, hnew, Function.update_self _ _ _, hnewref⟩, fun a ha => ?_⟩
    obtain ⟨y, r, hy, hfy, hr⟩ := h.reached a ha
    have hyx : y ≠ x := by
      rintro rfl
      exact h.not_reached hx ha hy
    exact ⟨y, r, hold a y hy, by rwa [Function.update_of_ne hyx], holdref r _ hr⟩
  · exact List.forall_mem_cons.mpr ⟨hnew, fun p hp => hold p.2 p.1 (h.results p hp)⟩

/-- The collector clears references to what cannot be reached. -/
theorem Kept.collect (h : Kept S w f) (ha : a ∉ w.reached) :
    Kept S { w with refs := w.refs.map fun r => if r = some a then none else r } f := by
  refine ⟨h.table, fun y v hy => ?_, fun b hb => ?_, h.results⟩
  · obtain ⟨r, ref, hv, hr, hnum⟩ := h.entries y v hy
    refine ⟨r, if ref = some a then none else ref, hv, ?_, fun b hb => ?_⟩
    · rw [List.getElem?_map, hr]
      rfl
    · by_cases hra : ref = some a
      · rw [if_pos hra] at hb
        cases hb
      · rw [if_neg hra] at hb
        exact hnum b hb
  · obtain ⟨y, r, hy, hfy, hr⟩ := h.reached b hb
    refine ⟨y, r, hy, hfy, ?_⟩
    have hba : some b ≠ some a := by
      rintro ⟨⟩
      exact ha hb
    rw [List.getElem?_map, hr, Option.map_some, if_neg hba]

theorem Kept.step (h : Kept S w f) (hstep : w.step S e = .ok w') : ∃ f', Kept S w' f' := by
  cases e with
  | get x =>
    rw [Fixtable.step, get] at hstep
    cases hx : w.cached x with
    | some a =>
      rw [hx] at hstep
      cases hstep
      exact ⟨f, h.found hx⟩
    | none =>
      rw [hx] at hstep
      cases hput : LongMap.put S w.table x (some w.refs.length) with
      | error t =>
        rw [hput] at hstep
        cases hstep
      | ok p =>
        rw [hput] at hstep
        cases hstep
        exact ⟨_, h.fresh hx (h.table.putWith_ok (LongMap.doubling_sound S 31) hput).2⟩
  | release a =>
    cases hstep
    exact ⟨f, h.table, h.entries, fun b hb => h.reached b (List.mem_of_mem_filter hb), h.results⟩
  | collect a =>
    rw [Fixtable.step] at hstep
    by_cases ha : a ∈ w.reached
    · rw [if_pos ha] at hstep
      cases hstep
      exact ⟨f, h⟩
    · rw [if_neg ha] at hstep
      cases hstep
      exact ⟨f, h.collect ha⟩

theorem Kept.always (h : Kept S w f) (es : List FixnumEvent) : Always S OneIdentity w es := by
  induction es generalizing w f with
  | nil => exact h.oneIdentity
  | cons e es ih =>
    refine ⟨h.oneIdentity, fun w' hstep => ?_⟩
    obtain ⟨f', h'⟩ := h.step hstep
    exact ih h'

/-- In every state of every run two fixnum objects that can be reached are the same
object just where the numbers are equal. -/
theorem fixnums_oneIdentity (S : LongMap.Settings) (es : List FixnumEvent) :
    Always S OneIdentity (init S) es :=
  (kept_init S).always es

end Runs

end Fixtable

end Arcueid.Neko
