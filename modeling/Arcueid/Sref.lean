import Arcueid.Lib.Narrowing
import Arcueid.Objects

/-! `arc_sref` on strings, lists and vectors, and the application of these to an
index. -/

namespace Arcueid.Sref

open Objects Narrowing

/-- How an operation can stop: with an error, given by its format, or by reading
or writing outside of the object it was given. -/
inductive Stop where
  | error (fmt : String)
  | outside
  deriving DecidableEq

/-- What an application returns; the rune of a string is made a character. -/
inductive Elt where
  | val (v : Val)
  | char (r : Rune)
  deriving DecidableEq

section Access

def car (h : Heap) : Val → Except Stop Val
  | .obj a => match h a with
    | .cons x _ => .ok x
    | _ => .error .outside
  | _ => .error .outside

def cdr (h : Heap) : Val → Except Stop Val
  | .obj a => match h a with
    | .cons _ y => .ok y
    | _ => .error .outside
  | _ => .error .outside

def scar (h : Heap) (x val : Val) : Except Stop Heap :=
  match x with
  | .obj a => match h a with
    | .cons _ y => .ok (Function.update h a (.cons val y))
    | _ => .error .outside
  | _ => .error .outside

/-- An element of an array, at an index that is nowhere checked again. -/
def index {α : Type} (l : List α) (i : Int) : Except Stop α :=
  match l[i.toNat]? with
  | some x => if 0 ≤ i then .ok x else .error .outside
  | none => .error .outside

/-- `SVINDEX` and `arc_strsetindex`. -/
def setIndex {α : Type} (l : List α) (i : Int) (x : α) : Except Stop (List α) :=
  if 0 ≤ i ∧ i < l.length then .ok (l.set i.toNat x) else .error .outside

end Access

section Application

/-- `string_apply`, with what was given for its one argument. -/
def stringApply (str : List Rune) : List Val → Except Stop Elt
  | [.fixnum n] =>
    let index := toInt32 n
    if index < 0 then
      .error (.error "application of a string expects type <non-negative exact integer> as argument")
    else if index ≥ str.length then .error (.error "string index %d out of range [0, %d] for string")
    else (Sref.index str index).map .char
  | [_] =>
    .error (.error "application of a string expects type <non-negative exact integer> as argument")
  | _ => .error (.error "application of a string expects 1 argument, given %d")

/-- `vector_apply`. -/
def vectorApply (vec : List Val) : List Val → Except Stop Elt
  | [.fixnum n] =>
    let index := toInt32 n
    if index < 0 then
      .error (.error "application of a vector expects type <non-negative exact integer> as argument")
    else if index ≥ vec.length then .error (.error "index %d out of range [0, %d] for vector")
    else (Sref.index vec index).map .val
  | [_] =>
    .error (.error "application of a vector expects type <non-negative exact integer> as argument")
  | _ => .error (.error "application of a vector expects 1 argument, given %d")

/-- The loop of `cons_apply`, which has `n` conses to go. -/
def consWalk (h : Heap) : Nat → Val → Except Stop Val
  | 0, list => car h list
  | n + 1, list => do
    let list ← cdr h list
    if typeOf h list ≠ .tCons then .error (.error "index %d too large for list") else consWalk h n list

/-- `cons_apply`. -/
def consApply (h : Heap) (list : Val) : List Val → Except Stop Elt
  | [.fixnum n] =>
    let index := toInt32 n
    if index < 0 then
      .error (.error "application of a cons expects type <non-negative exact integer> as argument")
    else (consWalk h index.toNat list).map .val
  | [_] => .error (.error "application of a cons expects type <non-negative exact integer> as argument")
  | _ => .error (.error "application of a cons expects 1 argument, given %d")

/-- The application of a string, a vector or a cons. What else can be applied is
left to `other`. -/
def apply (other : List Val → Except Stop Elt) (h : Heap) (x : Val) (args : List Val) :
    Except Stop Elt :=
  match x with
  | .obj a => match h a with
    | .string str => stringApply str args
    | .vector vec => vectorApply vec args
    | .cons _ _ => consApply h x args
    | _ => other args
  | _ => other args

end Application

section Assignment

/-- The loop over a list, which leaves off at the cons that is `idx` further. -/
def srefWalk (h : Heap) (val : Val) : Nat → Val → Except Stop Heap
  | 0, obj => if obj = .nil then .error (.error "index %d too large for list") else scar h obj val
  | idx + 1, obj =>
    if obj = .nil then .error (.error "index %d too large for list")
    else do srefWalk h val idx (← cdr h obj)

def srefString (h : Heap) (a : Nat) (str : List Rune) (val ind : Val) : Except Stop Heap :=
  match val with
  | .obj b => match h b with
    | .char r => match ind with
      | .fixnum n =>
        if n < 0 then .error (.error "string index must be non-negative exact integer")
        else if n ≥ str.length then .error (.error "string index out of bounds")
        else do return Function.update h a (.string (← setIndex str (toInt32 n) r))
      | _ => .error (.error "string index must be non-negative exact integer")
    | _ => .error (.error "cannot set string index to non-character")
  | _ => .error (.error "cannot set string index to non-character")

def srefCons (h : Heap) (x val ind : Val) : Except Stop Heap :=
  match ind with
  | .fixnum n =>
    let idx := toInt32 n
    if idx < 0 then .error (.error "list index must be non-negative exact integer")
    else srefWalk h val idx.toNat x
  | _ => .error (.error "list index must be non-negative exact integer")

def srefVector (h : Heap) (a : Nat) (vec : List Val) (val ind : Val) : Except Stop Heap :=
  match ind with
  | .fixnum n =>
    if n < 0 then .error (.error "vector index must be non-negative exact integer")
    else if n ≥ vec.length then .error (.error "index %d too large for vector")
    else do return Function.update h a (.vector (← setIndex vec n val))
  | _ => .error (.error "vector index must be non-negative exact integer")

/-- `val` is returned, or the error leaves the memory as it is: each is raised
before anything is stored. -/
def settle (h : Heap) (val : Val) : Except Stop Heap → Except Stop Val × Heap
  | .ok h' => (.ok val, h')
  | .error stop => (.error stop, h)

/-- `arc_sref`, with the memory it leaves. The assignment to a table is `table`. -/
def arcSref (table : Heap → Val → Val → Val → Except Stop Heap) (h : Heap) (com val ind : Val) :
    Except Stop Val × Heap :=
  settle h val <| match com with
    | .obj a => match h a with
      | .table _ => table h com val ind
      | .string str => srefString h a str val ind
      | .cons _ _ => srefCons h com val ind
      | .vector vec => srefVector h a vec val ind
      | _ => .error (.error "can't set reference to object of type %d")
    | _ => .error (.error "can't set reference to object of type %d")

end Assignment

end Arcueid.Sref
