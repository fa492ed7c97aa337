import Arcueid.Objects

/-! `iso`: the comparison with the two tables of visited objects that is
threaded through it. -/

namespace Arcueid.Objects

section Visits

/-- A value as the word that holds it. -/
def Val.word : Val → BitVec 64
  | .nil => 0
  | .fixnum n => BitVec.ofInt 64 (2 * n + 1)
  | .symbol id => BitVec.ofNat 64 (256 * id + 14)
  | .obj a => BitVec.ofNat 64 a

/-- The fixnum `INT2FIX` makes of a word, whose top bit is lost. -/
def int2fix (w : BitVec 64) : Int := (w.setWidth 63).toInt

def arcVisitkey (v : Val) : Int :=
  int2fix (arcHashFinal (arcHashUpdate (arcHashInit 0) v.word) 1)

abbrev VisitTable := Table Int Val

/-- `__arc_visit2`. The value given for the key may be the marker `CUNBOUND`. -/
def arcVisit2 (fuel : Nat) (v : Val) (tbl : VisitTable) (mykeyval : Option Val) :
    Except Fault (Val × VisitTable) :=
  let keyval := arcVisitkey v
  let mykeyval := if mykeyval = some .nil then some (.fixnum keyval) else mykeyval
  match arcHashLookup fuel fixnumKeying tbl keyval with
  | none => .error .spent
  | some (some val) => .ok (val, tbl)
  | some none =>
    match arcHashInsert fuel fixnumKeying tbl keyval mykeyval with
    | none => .error .spent
    | some (tbl, _) => .ok (.nil, tbl)

def arcVisit (fuel : Nat) (v : Val) (tbl : VisitTable) : Except Fault (Val × VisitTable) :=
  arcVisit2 fuel v tbl (some .nil)

def arcHashbits : Nat := 6

end Visits

/-- The tables of the objects visited on the left and on the right. -/
structure Visits where
  vh1 : VisitTable
  vh2 : VisitTable

abbrev IsoM := StateT Visits (Except Fault)

def visit1 (fuel : Nat) (v1 : Val) : IsoM Val := do
  let s ← get
  let (val, vh1) ← arcVisit fuel v1 s.vh1
  set { s with vh1 := vh1 }
  return val

def visit2 (fuel : Nat) (v2 : Val) (mykeyval : Option Val) : IsoM Val := do
  let s ← get
  let (val, vh2) ← arcVisit2 fuel v2 s.vh2 mykeyval
  set { s with vh2 := vh2 }
  return val

/-- How the `isocmp` of conses, vectors and tables begin: the answer when an
object was visited before. `mark` is the value that the right object gets. -/
def isoVisit (fuel : Nat) (v1 v2 : Val) (mark : Val → IsoM (Option Val)) :
    IsoM (Option Bool) := do
  let vhh1 ← visit1 fuel v1
  if vhh1 ≠ .nil then
    let vhh2 ← visit2 fuel v2 (some .nil)
    return some (vhh2 = vhh1)
  let vhh1 ← visit1 fuel v1
  let marked ← mark vhh1
  if (← visit2 fuel v2 marked) ≠ .nil then
    return some false
  return none

section Comparisons

variable (fuel : Nat) (iso2 : Val → Val → IsoM Bool)

def consIsocmp (v1 v2 car1 cdr1 car2 cdr2 : Val) : IsoM Bool := do
  match ← isoVisit fuel v1 v2 fun vhh1 => pure (some vhh1) with
  | some answer => return answer
  | none =>
    if !(← iso2 car1 car2) then
      return false
    if !(← iso2 cdr1 cdr2) then
      return false
    return true

/-- The conversion of a value to the `int` index of a frame slot. -/
def frameIndex (v : Val) : Int := (v.word.setWidth 32).toInt

/-- `AV` in `__arc_vector_isocmp`: slot `index` of its frame, which holds the
arguments `v1`, `v2`, `vh1`, `vh2` and the two unset variables. -/
def vectorFrame (v1 v2 vh1 vh2 : Val) (index : Int) : Except Fault (Option Val) :=
  match index with
  | 0 => .ok (some v1)
  | 1 => .ok (some v2)
  | 2 => .ok (some vh1)
  | 3 => .ok (some vh2)
  | 4 => .ok none
  | 5 => .ok none
  | _ => .error (.outsideFrame index)

/-- `VINDEX(v, i)`. -/
def vindex (elts : List Val) (i : Int) : Except Fault Val :=
  if i < 0 then .error (.outsideVector i)
  else
    match elts[i.toNat]? with
    | some v => .ok v
    | none => .error (.outsideVector i)

/-- The fixnum `i` as the word that holds it, which indexes the vectors. -/
def fixWord (i : Nat) : Int := 2 * i + 1

/-- The loop over the elements, from the counter `i` on. -/
def vectorLoop (elts1 elts2 : List Val) : Nat → Nat → IsoM Bool
  | 0, _ => return true
  | n + 1, i => do
    let a ← vindex elts1 (fixWord i)
    let b ← vindex elts2 (fixWord i)
    if !(← iso2 a b) then
      return false
    vectorLoop elts1 elts2 n (i + 1)

/-- `vh1` and `vh2` are the tables of visited objects as values. -/
def vectorIsocmp (vh1 vh2 : Val) (v1 v2 : Val) (elts1 elts2 : List Val) : IsoM Bool := do
  match ← isoVisit fuel v1 v2 fun vhh1 => vectorFrame v1 v2 vh1 vh2 (frameIndex vhh1) with
  | some answer => return answer
  | none =>
    if elts1.length ≠ elts2.length then
      return false
    vectorLoop iso2 elts1 elts2 elts1.length 0

/-- The simple interface's key comparison. -/
def simpleKeying (h : Heap) : Keying Val where
  same := arcIs2 h
  hash key := match arcHash h key with
    | .ok hv => hv.toNat
    | .error _ => 0

/-- `arc_hash_lookup` with the errors of `arc_hash`. -/
def lookupKey (h : Heap) (tbl : Table Val Val) (key : Val) : Except Fault (Option Val) := do
  let _ ← arcHash h key
  match arcHashLookup fuel (simpleKeying h) tbl key with
  | none => .error .spent
  | some val => .ok val

/-- `iso2` where a side may be the marker `CUNBOUND`. -/
def isoBound : Option Val → Option Val → IsoM Bool
  | some a, some b => iso2 a b
  | none, none => return true
  | _, _ => return false

/-- The loop over the slots of the left table, from slot `i` on. -/
def hashLoop (h : Heap) (tbl1 tbl2 : Table Val Val) : Nat → Nat → IsoM Bool
  | 0, _ => return true
  | n + 1, i => do
    match tbl1.slot i with
    | .bucket e =>
      let v2val ← lookupKey fuel h tbl2 e.bkey
      if !(← isoBound iso2 e.bvalue v2val) then
        return false
      hashLoop h tbl1 tbl2 n (i + 1)
    | _ => hashLoop h tbl1 tbl2 n (i + 1)

def hashIsocmp (h : Heap) (v1 v2 : Val) (tbl1 tbl2 : Table Val Val) : IsoM Bool := do
  match ← isoVisit fuel v1 v2 fun vhh1 => pure (some vhh1) with
  | some answer => return answer
  | none =>
    if tbl1.nentries ≠ tbl2.nentries then
      return false
    hashLoop fuel iso2 h tbl1 tbl2 tbl1.tablesize 0

/-- The `isocmp` of the objects' type, or else its `iscmp`. -/
def isocmp (h : Heap) (vh1 vh2 a b : Val) : Obj → Obj → IsoM Bool
  | .cons car1 cdr1, .cons car2 cdr2 => consIsocmp fuel iso2 a b car1 cdr1 car2 cdr2
  | .vector elts1, .vector elts2 => vectorIsocmp fuel iso2 vh1 vh2 a b elts1 elts2
  | .table tbl1, .table tbl2 => hashIsocmp fuel iso2 h a b tbl1 tbl2
  | o1, o2 => return iscmp o1 o2

end Comparisons

def arcIso2 (h : Heap) (vh1 vh2 : Val) : Nat → Val → Val → IsoM Bool
  | 0, _, _ => throw .spent
  | fuel + 1, a, b => do
    if a = b then
      return true
    if typeOf h a ≠ typeOf h b then
      return false
    match a, b with
    | .obj x, .obj y => isocmp fuel (arcIso2 h vh1 vh2 fuel) h vh1 vh2 a b (h x) (h y)
    | _, _ => return false

/-- `pairwise`, which goes on with the list after both elements of the pair. -/
def pairwise {M : Type → Type} [Monad M] (pred : Val → Val → M Bool) : List Val → M Bool
  | a :: b :: rest => do
    if !(← pred a b) then
      return false
    pairwise pred rest
  | _ => return true

def arcIs (h : Heap) (list : List Val) : Bool :=
  Id.run (pairwise (fun a b => pure (arcIs2 h a b)) list)

/-- The tables are new ones, at the addresses `vh1` and `vh2`. -/
def arcIso (h : Heap) (vh1 vh2 : Val) (fuel : Nat) (list : List Val) : Except Fault Bool := do
  let (answer, _) ← (pairwise (arcIso2 h vh1 vh2 fuel) list).run
    ⟨arcMkhash arcHashbits, arcMkhash arcHashbits⟩
  return answer

end Arcueid.Objects
