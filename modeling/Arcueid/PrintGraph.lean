import Mathlib.Order.Filter.AtTopBot.Basic
import Arcueid.Iso
import Arcueid.TableRuns

/-! `cons_pprint` with its table of visited lists, on conses that may be part of
themselves, and the lists it walks over. -/

namespace Arcueid.Objects

/-- The car and the cdr of a cons. -/
def Heap.cell (h : Heap) : Val → Option (Val × Val)
  | .obj a =>
    match h a with
    | .cons car cdr => some (car, cdr)
    | _ => none
  | _ => none

abbrev PrintM := StateT VisitTable (Except Fault)

def ascii (s : String) : List Rune := s.toList.map fun c => BitVec.ofNat 32 c.toNat

section Visits

def printVisit (fuel : Nat) (v : Val) : PrintM Val := fun tbl => arcVisit fuel v tbl

def arcVisitp (fuel : Nat) (v : Val) : PrintM Bool := fun tbl =>
  match arcHashLookup fuel fixnumKeying tbl (arcVisitkey v) with
  | none => .error .spent
  | some val => .ok (val.isSome, tbl)

def arcUnvisit (fuel : Nat) (v : Val) : PrintM Unit := fun tbl =>
  match arcHashDelete fuel fixnumKeying tbl (arcVisitkey v) with
  | none => .error .spent
  | some (tbl, _) => .ok ((), tbl)

end Visits

section Printing

/-- `cons_pprint`, given its loop. -/
def consPprint (fuel : Nat) (loop : Val → PrintM (List Rune)) (sexpr : Val) :
    PrintM (List Rune) := do
  if (← printVisit fuel sexpr) ≠ .nil then
    return ascii "(...)"
  let text ← loop sexpr
  arcUnvisit fuel sexpr
  return ascii "(" ++ text ++ ascii ")"

def pprintCar (fuel : Nat) (dw : Val → PrintM (List Rune)) (car : Val) : PrintM (List Rune) := do
  if ← arcVisitp fuel car then
    return ascii "(...)"
  dw car

/-- What follows the loop: the tail of an improper list. -/
def pprintTail (dw : Val → PrintM (List Rune)) (sexpr : Val) : PrintM (List Rune) := do
  if sexpr = .nil then
    return []
  let text ← dw sexpr
  return ascii " . " ++ text

/-- A round of the loop of `cons_pprint`, given what goes on with the cdr. -/
def pprintCell (fuel : Nat) (dw loop : Val → PrintM (List Rune)) (car cdr : Val) :
    PrintM (List Rune) := do
  let text ← pprintCar fuel dw car
  if ← arcVisitp fuel cdr then
    let tail ← pprintTail dw cdr
    return text ++ tail
  let rest ← loop cdr
  return text ++ (if cdr = .nil then [] else ascii " ") ++ rest

-- `atom` gives the text of a value that is not a cons
variable (atom : Val → List Rune) (h : Heap)

mutual

def arcDispWrite : Nat → Val → PrintM (List Rune)
  | 0, _ => throw .spent
  | fuel + 1, arg =>
    match h.cell arg with
    | some _ => consPprint fuel (consLoop fuel) arg
    | none => return atom arg

/-- The loop of `cons_pprint`, and what follows it. -/
def consLoop : Nat → Val → PrintM (List Rune)
  | 0, _ => throw .spent
  | fuel + 1, sexpr =>
    match h.cell sexpr with
    | none => pprintTail (arcDispWrite fuel) sexpr
    | some (car, cdr) => pprintCell fuel (arcDispWrite fuel) (consLoop fuel) car cdr

end

/-- `arc_write` and `arc_disp`, with the text of the atoms that each of them writes. -/
def arcWrite (fuel : Nat) (arg : Val) : Except Fault (List Rune) := do
  let (text, _) ← (arcDispWrite atom h fuel arg).run (arcMkhash arcHashbits)
  return text

end Printing

section Walks

/-- What there is to print: a value, the list from a cell on, an element, a tail. -/
inductive Job where
  | disp (v : Val)
  | loop (v : Val)
  | car (v : Val)
  | tail (v : Val)

variable (h : Heap)

/-- The visits made for a job, in order, while the lists with the keys `P` are being
printed. -/
inductive Walk : List Int → Job → List (TableOp Int Val) → Prop
  | atom {P v} : h.cell v = none → Walk P (.disp v) []
  | again {P v c} : h.cell v = some c → arcVisitkey v ∈ P →
      Walk P (.disp v) [.lookup (arcVisitkey v)]
  | list {P v c ops} : h.cell v = some c → arcVisitkey v ∉ P →
      Walk (arcVisitkey v :: P) (.loop v) ops →
      Walk P (.disp v) (.lookup (arcVisitkey v) ::
        .insert (arcVisitkey v) (some (.fixnum (arcVisitkey v))) ::
        (ops ++ [.delete (arcVisitkey v)]))
  | finish {P v ops} : h.cell v = none → Walk P (.tail v) ops → Walk P (.loop v) ops
  | rejoin {P v car cdr ops ops'} : h.cell v = some (car, cdr) → Walk P (.car car) ops →
      arcVisitkey cdr ∈ P → Walk P (.tail cdr) ops' →
      Walk P (.loop v) (ops ++ .lookup (arcVisitkey cdr) :: ops')
  | next {P v car cdr ops ops'} : h.cell v = some (car, cdr) → Walk P (.car car) ops →
      arcVisitkey cdr ∉ P → Walk P (.loop cdr) ops' →
      Walk P (.loop v) (ops ++ .lookup (arcVisitkey cdr) :: ops')
  | seen {P v} : arcVisitkey v ∈ P → Walk P (.car v) [.lookup (arcVisitkey v)]
  | car {P v ops} : arcVisitkey v ∉ P → Walk P (.disp v) ops →
      Walk P (.car v) (.lookup (arcVisitkey v) :: ops)
  | proper {P} : Walk P (.tail .nil) []
  | improper {P v ops} : v ≠ .nil → Walk P (.disp v) ops → Walk P (.tail v) ops

/-- The next cell of a list, unless it is being printed. -/
def NextCell (P : List Int) (v w : Val) : Prop :=
  ∃ car, h.cell v = some (car, w) ∧ (h.cell w).isSome ∧ arcVisitkey w ∉ P

/-- The lists that come to be printed within `v₀`, with the keys of those being printed
then, their own first. -/
inductive Opens (v₀ : Val) : List Int → Val → Prop
  | root : (h.cell v₀).isSome → Opens v₀ [arcVisitkey v₀] v₀
  | element {P v w car cdr} : Opens v₀ P v → Relation.ReflTransGen (NextCell h P) v w →
      h.cell w = some (car, cdr) → (h.cell car).isSome → arcVisitkey car ∉ P →
      Opens v₀ (arcVisitkey car :: P) car

/-- Going on by cdrs leads to an atom, or to a list that is being printed. -/
def SpineEnds (P : List Int) (v : Val) : Prop :=
  ∃ w, Relation.ReflTransGen (NextCell h P) v w ∧ ∀ w', ¬ NextCell h P w w'

/-- No list is walked over for ever. -/
def NoLoop (v₀ : Val) : Prop := ∀ P v, Opens h v₀ P v → SpineEnds h P v

/-- `w` is the car or the cdr of `v`. -/
def Part (v w : Val) : Prop := ∃ car cdr, h.cell v = some (car, cdr) ∧ (w = car ∨ w = cdr)

def Obj.consOrAtom : Obj → Bool
  | .vector _ => false
  | .table _ => false
  | _ => true

/-- A finite graph of conses and atoms. -/
structure ConsGraph (v₀ : Val) : Prop where
  consOrAtom : ∀ a, Relation.ReflTransGen (Part h) v₀ (.obj a) → (h a).consOrAtom = true
  finite : {v | Relation.ReflTransGen (Part h) v₀ v}.Finite

end Walks

/-- Printing comes to a text. -/
def WriteEnds (atom : Val → List Rune) (h : Heap) (v : Val) : Prop :=
  ∃ text, ∀ᶠ fuel in Filter.atTop, arcWrite atom h fuel v = .ok text

end Arcueid.Objects
