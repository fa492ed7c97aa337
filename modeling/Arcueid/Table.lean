import Mathlib.Algebra.Order.Ring.Nat
import Mathlib.Logic.Function.Basic
import Mathlib.Data.List.Basic

/-! Hash tables of `hash.c`: open addressing with tombstones, the simple
interface over `arc_is2` and the general one over `iso`. Every probing loop
takes a step bound, and `none` is a loop that has not ended within it. -/

namespace Arcueid

/-- A hash bucket. A missing value is the marker `CUNBOUND`. -/
structure Bucket (K V : Type) where
  bindex : Nat
  bkey : K
  bvalue : Option V
  bhashval : Nat

/-- A slot of a table vector: `CUNBOUND`, the tombstone `CUNDEF`, or a bucket. -/
inductive Slot (K V : Type) where
  | cunbound
  | cundef
  | bucket (e : Bucket K V)

/-- A key comparison with the hash function used beside it: `arc_is2` and
`arc_hash` for the simple interface, `iso` and `arc_xhash` for the general. -/
structure Keying (K : Type) where
  same : K → K → Bool
  hash : K → Nat

structure Table (K V : Type) where
  hashbits : Nat
  nentries : Nat
  llimit : Nat
  slot : Nat → Slot K V

variable {K V : Type}

def Slot.emptyp : Slot K V → Bool
  | .bucket _ => false
  | _ => true

def Slot.bvalue : Slot K V → Option V
  | .bucket e => e.bvalue
  | _ => none

/-- The slot holds a bucket with the given key. -/
def Slot.holds (kg : Keying K) (key : K) : Slot K V → Bool
  | .bucket e => kg.same e.bkey key
  | _ => false

def hashsize (n : Nat) : Nat := 2 ^ n

def maxLoadFactor : Nat := 70

def loadLimit (n : Nat) : Nat := hashsize n * maxLoadFactor / 100

/-- The conversion of a hash value to `unsigned int`. -/
def uint (n : Nat) : Nat := n % 2 ^ 32

def Table.tablesize (t : Table K V) : Nat := hashsize t.hashbits

def Table.setSlot (t : Table K V) (index : Nat) (s : Slot K V) : Table K V :=
  { t with slot := Function.update t.slot index s }

def arcMkhash (hashbits : Nat) : Table K V where
  hashbits := hashbits
  nentries := 0
  llimit := loadLimit hashbits
  slot := fun _ => .cunbound

/-- The loop of `hash_lookup` and `xhash_lookup`: the index where it stops and
the bucket found there, if any. -/
def lookupLoop (kg : Keying K) (t : Table K V) (key : K) :
    Nat → Nat → Nat → Option (Nat × Option (Bucket K V))
  | 0, _, _ => none
  | fuel + 1, index, i =>
    let index := (index + i) % t.tablesize
    match t.slot index with
    | .cunbound => some (index, none)
    | .cundef => lookupLoop kg t key fuel index (i + 1)
    | .bucket e =>
      if kg.same e.bkey key then some (index, some e)
      else lookupLoop kg t key fuel index (i + 1)

def probeFor (fuel : Nat) (kg : Keying K) (t : Table K V) (key : K) :
    Option (Nat × Option (Bucket K V)) :=
  lookupLoop kg t key fuel (uint (kg.hash key) % t.tablesize) 0

/-- The value found, `CUNBOUND` when there is none, and the index. -/
def hashLookup (fuel : Nat) (kg : Keying K) (t : Table K V) (key : K) :
    Option (Option V × Nat) := do
  let (index, e) ← probeFor fuel kg t key
  return (e.bind Bucket.bvalue, index)

def arcHashLookup (fuel : Nat) (kg : Keying K) (t : Table K V) (key : K) :
    Option (Option V) := do
  let (val, _) ← hashLookup fuel kg t key
  return val

/-- The bucket itself, when `hash_lookup` finds a value. -/
def arcHashLookup2 (fuel : Nat) (kg : Keying K) (t : Table K V) (key : K) :
    Option (Option (Bucket K V)) := do
  let (val, index) ← hashLookup fuel kg t key
  match val, t.slot index with
  | some _, .bucket e => return some e
  | _, _ => return none

/-- The loop of `hashtable_expand` that looks for an empty slot of the new
vector. -/
def expandLoop (newtbl : Nat → Slot K V) (nhashbits : Nat) : Nat → Nat → Nat → Option Nat
  | 0, _, _ => none
  | fuel + 1, index, j =>
    if (newtbl index).emptyp then some index
    else expandLoop newtbl nhashbits fuel ((index + j) % hashsize nhashbits) (j + 1)

/-- Move the bucket of slot `i` of the old vector, if it holds one. -/
def expandSlot (fuel : Nat) (oldtbl : Nat → Slot K V) (nhashbits : Nat)
    (newtbl : Nat → Slot K V) (i : Nat) : Option (Nat → Slot K V) :=
  match oldtbl i with
  | .bucket e => do
    let index ← expandLoop newtbl nhashbits fuel (uint e.bhashval % hashsize nhashbits) 0
    return Function.update newtbl index (.bucket { e with bindex := index })
  | _ => some newtbl

def hashtableExpand (fuel : Nat) (t : Table K V) : Option (Table K V) := do
  let nhashbits := t.hashbits + 1
  let newtbl ← (List.range t.tablesize).foldlM (expandSlot fuel t.slot nhashbits)
    (fun _ => .cunbound)
  return { t with hashbits := nhashbits, llimit := loadLimit nhashbits, slot := newtbl }

/-- The second loop of the insert functions: the index of an empty slot, or of
a bucket with the key. -/
def insertLoop (kg : Keying K) (t : Table K V) (key : K) : Nat → Nat → Nat → Option Nat
  | 0, _, _ => none
  | fuel + 1, index, i =>
    if (t.slot index).emptyp || (t.slot index).holds kg key then some index
    else insertLoop kg t key fuel ((index + i) % t.tablesize) (i + 1)

/-- Store into the slot where the second loop stopped. -/
def storeAt (t : Table K V) (index : Nat) (key : K) (val : Option V) (hashcode : Nat) :
    Table K V :=
  match t.slot index with
  | .bucket e => t.setSlot index (.bucket { e with bvalue := val })
  | _ => t.setSlot index (.bucket ⟨index, key, val, hashcode⟩)

/-- The part of the insert functions after the key was not found. -/
def insertNew (fuel : Nat) (kg : Keying K) (t : Table K V) (key : K) (val : Option V)
    (hashcode : Nat) : Option (Table K V) := do
  let t ← if t.nentries + 1 > t.llimit then hashtableExpand fuel t else some t
  let t := { t with nentries := t.nentries + 1 }
  let index ← insertLoop kg t key fuel (hashcode % t.tablesize) 0
  return storeAt t index key val hashcode

def arcHashInsert (fuel : Nat) (kg : Keying K) (t : Table K V) (key : K) (val : Option V) :
    Option (Table K V × Option V) := do
  let (old, index) ← hashLookup fuel kg t key
  match old, t.slot index with
  | some _, .bucket e => return (t.setSlot index (.bucket { e with bvalue := val }), val)
  | _, _ => return (← insertNew fuel kg t key val (uint (kg.hash key)), val)

def arcHashDelete (fuel : Nat) (kg : Keying K) (t : Table K V) (key : K) :
    Option (Table K V × Option V) := do
  let (old, index) ← hashLookup fuel kg t key
  match old with
  | some _ => return ({ t with nentries := t.nentries - 1 }.setSlot index .cundef, old)
  | none => return (t, old)

def arcHashLength (t : Table K V) : Nat :=
  (List.range t.tablesize).countP fun i => !(t.slot i).emptyp

/-- The general lookup returns the bucket found, whatever value it holds. -/
def arcXhashLookup2 (fuel : Nat) (kg : Keying K) (t : Table K V) (key : K) :
    Option (Option (Bucket K V)) := do
  let (_, e) ← probeFor fuel kg t key
  return e

def arcXhashLookup (fuel : Nat) (kg : Keying K) (t : Table K V) (key : K) :
    Option (Option V) := do
  let e ← arcXhashLookup2 fuel kg t key
  return e.bind Bucket.bvalue

/-- The general insert changes the bucket it found, which sits in its own slot,
and keeps the whole hash value in a new bucket. -/
def arcXhashInsert (fuel : Nat) (kg : Keying K) (t : Table K V) (key : K) (val : Option V) :
    Option (Table K V × Option V) := do
  let (index, e) ← probeFor fuel kg t key
  match e with
  | some e => return (t.setSlot index (.bucket { e with bvalue := val }), val)
  | none => return (← insertNew fuel kg t key val (kg.hash key), val)

/-- The general delete clears the slot that the bucket names. -/
def arcXhashDelete (fuel : Nat) (kg : Keying K) (t : Table K V) (key : K) :
    Option (Table K V × Option V) := do
  match ← arcXhashLookup2 fuel kg t key with
  | some e =>
    return ({ t with nentries := t.nentries - 1 }.setSlot e.bindex .cundef,
      (t.slot e.bindex).bvalue)
  | none => return (t, none)

end Arcueid
