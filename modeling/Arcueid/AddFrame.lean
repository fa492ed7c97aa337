import Mathlib.Data.Finset.Range
import Arcueid.Lib.Descent
import Arcueid.Lib.Outcome
import Arcueid.ExactQuotients

/-! `__arc_add2` on values of all types, with the conses, strings and characters
as objects of the memory (`arith.c`, `string.c`, `cons.c`). -/

namespace Arcueid.AddFrame

open Outcome

variable {F : Type}

/-- A value: an immediate, or the address of an object. -/
inductive Val where
  | nil
  | fixnum (n : Int)
  | other (type id : Nat)
  | obj (addr : Nat)
  deriving DecidableEq

inductive Cell (F : Type) where
  | cons (car cdr : Val)
  | string (str : List Nat)
  | char (r : Nat)
  | number (x : Exact.Obj F)
  | other (type : Nat)

abbrev Heap (F : Type) := List (Cell F)

abbrev M (F : Type) := StateT (Heap F) (Except Stop)

/-- What the type tests of `__arc_add2` and the accesses behind them see. -/
inductive Kind (F : Type) where
  | nil
  | fixnum (n : Int)
  | number (x : Exact.Obj F)
  | cons
  | string
  | char (r : Nat)
  | other

def Cell.kind : Cell F → Kind F
  | .cons _ _ => .cons
  | .string _ => .string
  | .char r => .char r
  | .number x => .number x
  | .other _ => .other

def kind (h : Heap F) : Val → Kind F
  | .nil => .nil
  | .fixnum n => .fixnum n
  | .other _ _ => .other
  | .obj a => match h[a]? with
    | some cell => cell.kind
    | none => .other

def Cell.type : Cell F → Nat
  | .cons _ _ => 10
  | .string _ => 8
  | .char _ => 7
  | .number x => x.type
  | .other t => t

def type (h : Heap F) : Val → Nat
  | .nil => 0
  | .fixnum _ => 2
  | .other t _ => t
  | .obj a => match h[a]? with
    | some cell => cell.type
    | none => 64

section Strings

def alloc (cell : Cell F) : M F Nat := do
  let h ← get
  set (h ++ [cell])
  pure h.length

def mkstringlen (length : Nat) : M F Nat := alloc (.string (List.replicate length 0))

def Cell.write (off : Nat) (src : List Nat) : Cell F → Cell F
  | .string str => .string (str.take off ++ src ++ str.drop (off + src.length))
  | cell => cell

/-- `memcpy` into a string. -/
def memcpy (a off : Nat) (src : List Nat) : M F Unit := do
  let h ← get
  set (h.modify a (Cell.write off src))

def strrep (v : Val) : M F (List Nat) := do
  match v with
  | .obj a => match (← get)[a]? with
    | some (.string str) => pure str
    | _ => throw .undefined
  | _ => throw .undefined

def mkstring (data : List Nat) : M F Val := do
  let newstr ← mkstringlen data.length
  memcpy newstr 0 data
  pure (.obj newstr)

def strcat (v1 v2 : Val) : M F Val := do
  let str1 ← strrep v1
  let str2 ← strrep v2
  let newstr ← mkstringlen (str1.length + str2.length)
  memcpy newstr 0 str1
  memcpy newstr str1.length str2
  pure (.obj newstr)

def strcatc (v1 : Val) (ch : Nat) : M F Val := do
  let str1 ← strrep v1
  let newstr ← mkstringlen (str1.length + 1)
  memcpy newstr 0 str1
  memcpy newstr str1.length [ch]
  pure (.obj newstr)

end Strings

section Lists

/-- The loop of `arc_list_append`, over `n` conses at most. -/
def lastCons (h : Heap F) : Nat → Val → Except Stop Nat
  | 0, _ => throw .fuel
  | n + 1, .obj a => match h[a]? with
    | some (.cons _ cdr) => if cdr = .nil then pure a else lastCons h n cdr
    | _ => throw .undefined
  | _, _ => throw .undefined

def Cell.scdr (val : Val) : Cell F → Cell F
  | .cons car _ => .cons car val
  | cell => cell

/-- `arc_list_append`. A list that runs into itself is followed forever. -/
def listAppend (list1 val : Val) : M F Val :=
  if val = .nil then pure list1
  else if list1 = .nil then pure val
  else do
    let h ← get
    let last ← lastCons h (h.length + 1) list1
    set (h.modify last (Cell.scdr val))
    pure list1

end Lists

/-- A number of its own object, or a fixnum. -/
def box : Exact.Obj F → M F Val
  | .fixnum n => pure (.fixnum n)
  | x => do pure (.obj (← alloc (.number x)))

def boxed (r : Except Stop (Exact.Obj F)) : M F Val := do box (← r)

/-- The cases of `__arc_add2`. -/
def addKinds (d : Doubles F) (h : Heap F) (arg1 arg2 : Val) (kind1 kind2 : Kind F) : M F Val :=
  match kind1, kind2 with
  | .fixnum m, .fixnum n => boxed (Exact.add2 d (.fixnum m) (.fixnum n))
  | .nil, .nil => pure arg2
  | .nil, .cons => pure arg2
  | .cons, .nil => pure arg1
  | .cons, .cons => listAppend arg1 arg2
  | .nil, .string => pure arg2
  | .string, .nil => pure arg1
  | .string, .string => strcat arg1 arg2
  | .nil, .char r => mkstring [r]
  | .char r, .nil => mkstring [r]
  | .char r, .char r' => do strcat (← mkstring [r]) (← mkstring [r'])
  | .string, .char r => strcatc arg1 r
  | .char r, .string => do strcat (← mkstring [r]) arg2
  | .string, .other => throw (.error "cannot coerce to string")
  | .string, .cons => throw (.error "cannot coerce to string")
  -- a number's coercion function makes nil of it, where a string is looked for
  | .string, .fixnum _ => throw .undefined
  | .string, .number _ => throw .undefined
  | .fixnum m, .number y => boxed (Exact.add2 d (.fixnum m) y)
  | .number x, .fixnum n => boxed (Exact.add2 d x (.fixnum n))
  | .number x, .number y => boxed (Exact.add2 d x y)
  | _, _ => throw (.error s!"cannot coerce {type h arg1} {type h arg2}")

def add2 (d : Doubles F) (arg1 arg2 : Val) : M F Val := do
  let h ← get
  addKinds d h arg1 arg2 (kind h arg1) (kind h arg2)

section Frame

/-- The objects reached from a value. -/
inductive Reach (h : Heap F) : Val → Nat → Prop
  | self (a : Nat) : Reach h (.obj a) a
  | car {a b : Nat} {x y : Val} (hcell : h[a]? = some (.cons x y)) (hx : Reach h x b) :
    Reach h (.obj a) b
  | cdr {a b : Nat} {x y : Val} (hcell : h[a]? = some (.cons x y)) (hy : Reach h y b) :
    Reach h (.obj a) b

def ProperList (h : Heap F) : Val → List Val → Prop
  | v, [] => v = .nil
  | v, x :: xs => ∃ a y, v = .obj a ∧ h[a]? = some (.cons x y) ∧ ProperList h y xs

def Preserved (h h' : Heap F) (v w : Val) : Prop :=
  ∀ a cell, Reach h v a ∨ Reach h w a → h[a]? = some cell → h'[a]? = some cell

/-- Addition leaves its arguments as they are, and its result on lists is their
concatenation. -/
def Unmodified (d : Doubles F) (h : Heap F) (v w : Val) : Prop :=
  ∀ r h', Yields (add2 d v w) h r h' → Preserved h h' v w ∧
    ∀ xs ys, ProperList h v xs → ProperList h w ys → ProperList h' r (xs ++ ys)

variable {h h' h0 : Heap F} {v w r : Val}

/-- Nothing but new objects. -/
def Grown (h : Heap F) {α : Type} : α → Heap F → Prop := fun _ h' => h <+: h'

theorem preserved_of_grown (hp : h <+: h') : Preserved h h' v w := by
  obtain ⟨extra, rfl⟩ := hp
  intro a cell _ hcell
  have hlt : a < h.length := (List.getElem?_eq_some_iff.mp hcell).1
  rwa [List.getElem?_append_left hlt]

theorem properList_of_grown (hp : h <+: h') {xs : List Val} (hv : ProperList h v xs) :
    ProperList h' v xs := by
  induction xs generalizing v with
  | nil => exact hv
  | cons x xs ih =>
    obtain ⟨a, y, rfl, hcell, hy⟩ := hv
    exact ⟨a, y, rfl, preserved_of_grown hp a _ (v := .obj a) (w := .obj a) (.inl (.self a)) hcell, ih hy⟩

theorem mkstringlen_ensures (hp : h0 <+: h) (length : Nat) :
    Ensures (mkstringlen length) h fun a h' => h0.length ≤ a ∧ h0 <+: h' := by
  intro a h' hy
  obtain ⟨rfl, rfl⟩ := Prod.mk.inj (Except.ok.inj hy)
  exact ⟨hp.length_le, hp.trans (List.prefix_append _ _)⟩

theorem memcpy_ensures {a : Nat} (hp : h0 <+: h) (ha : h0.length ≤ a) (off : Nat) (src : List Nat) :
    Ensures (memcpy a off src) h (Grown h0) := by
  intro u h' hy
  obtain ⟨-, rfl⟩ := Prod.mk.inj (Except.ok.inj hy)
  rw [Grown, List.prefix_iff_getElem?]
  intro i hi
  have hne : a ≠ i := by omega
  rw [List.getElem?_modify_ne _ _ hne]
  exact List.prefix_iff_getElem?.mp hp i hi

theorem strrep_ensures (hp : h0 <+: h) (v : Val) : Ensures (strrep v) h (Grown h0) := by
  intro str h' hy
  cases v with
  | obj a =>
    obtain ⟨g, s, hg, hread⟩ := yields_bind hy
    obtain ⟨rfl, rfl⟩ := Prod.mk.inj (Except.ok.inj hg)
    cases hcell : h[a]? with
    | none =>
      rw [hcell] at hread
      exact absurd hread not_yields_throw
    | some cell =>
      rw [hcell] at hread
      cases cell with
      | string str' =>
        obtain ⟨-, rfl⟩ := yields_pure_iff.mp hread
        exact hp
      | _ => exact absurd hread not_yields_throw
  | _ => exact absurd hy not_yields_throw

theorem mkstring_ensures (hp : h0 <+: h) (data : List Nat) : Ensures (mkstring data) h (Grown h0) := by
  rw [mkstring]
  refine Ensures.bind (mkstringlen_ensures hp _) ?_
  rintro a h1 ⟨ha, h1p⟩
  refine Ensures.bind (memcpy_ensures h1p ha _ _) ?_
  intro _ h2 h2p
  exact Ensures.pure h2p

theorem strcat_ensures (hp : h0 <+: h) (v1 v2 : Val) : Ensures (strcat v1 v2) h (Grown h0) := by
  rw [strcat]
  refine Ensures.bind (strrep_ensures hp v1) ?_
  intro str1 h1 h1p
  refine Ensures.bind (strrep_ensures h1p v2) ?_
  intro str2 h2 h2p
  refine Ensures.bind (mkstringlen_ensures h2p _) ?_
  rintro a h3 ⟨ha, h3p⟩
  refine Ensures.bind (memcpy_ensures h3p ha _ _) ?_
  intro _ h4 h4p
  refine Ensures.bind (memcpy_ensures h4p ha _ _) ?_
  intro _ h5 h5p
  exact Ensures.pure h5p

theorem strcatc_ensures (hp : h0 <+: h) (v1 : Val) (ch : Nat) :
    Ensures (strcatc v1 ch) h (Grown h0) := by
  rw [strcatc]
  refine Ensures.bind (strrep_ensures hp v1) ?_
  intro str1 h1 h1p
  refine Ensures.bind (mkstringlen_ensures h1p _) ?_
  rintro a h2 ⟨ha, h2p⟩
  refine Ensures.bind (memcpy_ensures h2p ha _ _) ?_
  intro _ h3 h3p
  refine Ensures.bind (memcpy_ensures h3p ha _ _) ?_
  intro _ h4 h4p
  exact Ensures.pure h4p

theorem boxed_ensures (hp : h0 <+: h) (x : Except Stop (Exact.Obj F)) :
    Ensures (boxed x) h (Grown h0) := by
  rw [boxed]
  refine Ensures.bind (Ensures.lift (Q := fun _ s => s = h) fun _ _ => rfl) ?_
  rintro y _ rfl
  cases y with
  | fixnum n => exact Ensures.pure hp
  | _ =>
    intro v h' hy
    obtain ⟨a, h1, ha, hpure⟩ := yields_bind hy
    obtain ⟨rfl, rfl⟩ := Prod.mk.inj (Except.ok.inj ha)
    obtain ⟨-, rfl⟩ := yields_pure_iff.mp hpure
    exact hp.trans (List.prefix_append _ _)

variable {d : Doubles F}

theorem yields_add2_iff : Yields (add2 d v w) h r h' ↔
    Yields (addKinds d h v w (kind h v) (kind h w)) h r h' := Iff.rfl

/-- All cases but that of two lists only make objects. -/
theorem addKinds_ensures (kind1 kind2 : Kind F) (hnot : ¬ (kind1 = .cons ∧ kind2 = .cons)) :
    Ensures (addKinds d h v w kind1 kind2) h (Grown h) := by
  have hp : h <+: h := List.prefix_rfl
  have hchar : ∀ r, Ensures (mkstring [r]) h (Grown h) := fun r => mkstring_ensures hp [r]
  cases kind1 <;> cases kind2 <;> first
    | exact Ensures.throw
    | exact Ensures.pure hp
    | exact boxed_ensures hp _
    | exact mkstring_ensures hp _
    | exact strcat_ensures hp _ _
    | exact strcatc_ensures hp _ _
    | exact absurd ⟨rfl, rfl⟩ hnot
    | exact Ensures.bind (hchar _) fun _ _ h1p => strcat_ensures h1p _ _
    | exact Ensures.bind (hchar _) fun _ _ h1p => Ensures.bind (mkstring_ensures h1p _)
        fun _ _ h2p => strcat_ensures h2p _ _

theorem lastCons_ok {n l : Nat} (hl : lastCons h n v = .ok l) :
    ∃ x xs car, ProperList h v (x :: xs) ∧ h[l]? = some (.cons car .nil) ∧ Reach h v l := by
  induction n generalizing v with
  | zero => cases hl
  | succ n ih =>
    cases v with
    | obj a =>
      rw [lastCons] at hl
      cases hcell : h[a]? with
      | none =>
        rw [hcell] at hl
        cases hl
      | some cell =>
        rw [hcell] at hl
        cases cell with
        | cons x y =>
          by_cases hy : y = .nil
          · simp only [if_pos hy] at hl
            cases hl
            exact ⟨x, [], x, ⟨l, y, rfl, hcell, hy⟩, hy ▸ hcell, .self l⟩
          · simp only [if_neg hy] at hl
            obtain ⟨x', xs, car, hlist, hlast, hreach⟩ := ih hl
            exact ⟨x, x' :: xs, car, ⟨a, y, rfl, hcell, hlist⟩, hlast, .cdr hcell hreach⟩
        | _ => cases hl
    | _ => cases hl

theorem lastCons_of_properList {n : Nat} {x : Val} {xs : List Val} (hv : ProperList h v (x :: xs))
    (hn : xs.length < n) : ∃ l, lastCons h n v = .ok l := by
  induction xs generalizing v x n with
  | nil =>
    obtain ⟨a, y, rfl, hcell, rfl⟩ := hv
    cases n with
    | zero => omega
    | succ n => exact ⟨a, by rw [lastCons, hcell]; rfl⟩
  | cons x' xs ih =>
    obtain ⟨a, y, rfl, hcell, hy⟩ := hv
    cases n with
    | zero => omega
    | succ n =>
      have hne : y ≠ .nil := by
        obtain ⟨b, z, rfl, -⟩ := hy
        exact fun h => Val.noConfusion h
      obtain ⟨l, hl⟩ := ih hy (Nat.lt_of_succ_lt_succ hn)
      refine ⟨l, ?_⟩
      rw [lastCons, hcell]
      exact (if_neg hne).trans hl

theorem properList_unique {xs ys : List Val} (hx : ProperList h v xs) (hy : ProperList h v ys) :
    xs = ys := by
  induction xs generalizing v ys with
  | nil =>
    subst hx
    cases ys with
    | nil => rfl
    | cons y ys =>
      obtain ⟨a, z, hv, -⟩ := hy
      cases hv
  | cons x xs ih =>
    obtain ⟨a, z, rfl, hcell, hz⟩ := hx
    cases ys with
    | nil => cases hy
    | cons y ys =>
      obtain ⟨a', z', hv, hcell', hz'⟩ := hy
      cases hv
      cases hcell.symm.trans hcell'
      rw [ih hz hz']

/-- The conses of a proper list are different objects. -/
theorem properList_length_le {xs : List Val} (hv : ProperList h v xs) : xs.length ≤ h.length := by
  have hbound := Descent.le_card (fun n v => ∃ xs, ProperList h v xs ∧ xs.length = n)
    ((Finset.range h.length).image Val.obj) (n := xs.length) (a := v) ?_ ?_ ?_ ⟨xs, hv, rfl⟩
  · have hcard : ((Finset.range h.length).image Val.obj).card ≤ (Finset.range h.length).card :=
      Finset.card_image_le
    rw [Finset.card_range] at hcard
    omega
  · rintro m n v ⟨xs, hx, rfl⟩ ⟨ys, hy, rfl⟩
    rw [properList_unique hx hy]
  · rintro n v ⟨xs, hx, hlen⟩
    cases xs with
    | nil => cases hlen
    | cons x xs =>
      obtain ⟨a, y, -, -, hy⟩ := hx
      exact ⟨y, xs, hy, Nat.succ.inj hlen⟩
  · rintro n v ⟨xs, hx, hlen⟩
    cases xs with
    | nil => cases hlen
    | cons x xs =>
      obtain ⟨a, y, rfl, hcell, -⟩ := hx
      have hlt : a < h.length := (List.getElem?_eq_some_iff.mp hcell).1
      exact Finset.mem_image_of_mem _ (Finset.mem_range.mpr hlt)

theorem kind_of_properList {xs : List Val} (hv : ProperList h v xs) :
    v = .nil ∧ xs = [] ∨ kind h v = .cons := by
  cases xs with
  | nil => exact .inl ⟨hv, rfl⟩
  | cons x xs =>
    obtain ⟨a, y, rfl, hcell, -⟩ := hv
    right
    rw [kind, hcell]
    rfl

theorem yields_listAppend (hv : kind h v = .cons) (hw : kind h w = .cons) :
    Yields (listAppend v w) h r h' ↔
      ∃ l, lastCons h (h.length + 1) v = .ok l ∧ r = v ∧ h' = h.modify l (Cell.scdr w) := by
  have hvnil : v ≠ .nil := by
    rintro rfl
    cases hv
  have hwnil : w ≠ .nil := by
    rintro rfl
    cases hw
  rw [listAppend, if_neg hwnil, if_neg hvnil]
  constructor
  · intro hy
    obtain ⟨g, h1, hg, hy⟩ := yields_bind hy
    obtain ⟨rfl, rfl⟩ := Prod.mk.inj (Except.ok.inj hg)
    obtain ⟨l, h2, hlast, hy⟩ := yields_bind hy
    obtain ⟨hl, rfl⟩ := yields_lift_iff.mp hlast
    obtain ⟨u, h3, hset, hy⟩ := yields_bind hy
    obtain ⟨-, rfl⟩ := Prod.mk.inj (Except.ok.inj hset)
    obtain ⟨rfl, rfl⟩ := yields_pure_iff.mp hy
    exact ⟨l, hl, rfl, rfl⟩
  · rintro ⟨l, hl, rfl, rfl⟩
    have hget : Yields (get : M F (Heap F)) h h h := rfl
    have hlast : Yields (liftM (lastCons h (h.length + 1) r) : M F Nat) h l h :=
      yields_lift_iff.mpr ⟨hl, rfl⟩
    have hset : Yields (set (h.modify l (Cell.scdr w)) : M F PUnit) h ⟨⟩ (h.modify l (Cell.scdr w)) := rfl
    exact hget.bind (hlast.bind (hset.bind yields_pure))

end Frame

end Arcueid.AddFrame
