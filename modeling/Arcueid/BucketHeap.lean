import Arcueid.Table

/-! Hash tables in memory: buckets and table vectors are objects of their own, a
bucket names the vector and the slot where it sits, and the collector sweeps
tables, vectors and buckets one by one. `none` is a loop that has not ended
within its bound, or an access to a swept object. -/

namespace Arcueid.Buckets

abbrev Addr := Nat

/-- A hash bucket. `btable` is missing when it is nil. -/
structure HashBucket (K V : Type) where
  bindex : Nat
  bkey : K
  bvalue : Option V
  btable : Option Addr
  bhashval : Nat

/-- What a slot of a table vector refers to. -/
inductive SlotRef where
  | cunbound
  | cundef
  | bucket (b : Addr)
  deriving DecidableEq

structure TableVec where
  veclen : Nat
  vindex : Nat → SlotRef

/-- The object of a table, with the address of its vector. -/
structure HashTable where
  table : Addr
  hashbits : Nat
  nentries : Nat
  llimit : Nat

structure Memory (K V : Type) where
  buckets : Addr → Option (HashBucket K V)
  vecs : Addr → Option TableVec
  tables : Addr → Option HashTable

variable {K V : Type}

section Access

def Memory.empty : Memory K V := ⟨fun _ => none, fun _ => none, fun _ => none⟩

/-- No object is at the address. -/
def Memory.Free (m : Memory K V) (a : Addr) : Prop :=
  m.buckets a = none ∧ m.vecs a = none ∧ m.tables a = none

/-- `VINDEX(v, i)`. -/
def Memory.slotRef (m : Memory K V) (v : Addr) (i : Nat) : Option SlotRef := do
  let tv ← m.vecs v
  if i < tv.veclen then some (tv.vindex i) else none

/-- `SVINDEX(v, i, s)`. -/
def Memory.setSlot (m : Memory K V) (v : Addr) (i : Nat) (s : SlotRef) : Option (Memory K V) := do
  let tv ← m.vecs v
  if i < tv.veclen then
    some { m with vecs := Function.update m.vecs v
                    (some { tv with vindex := Function.update tv.vindex i s }) }
  else none

def Memory.setBucket (m : Memory K V) (b : Addr) (e : HashBucket K V) : Memory K V :=
  { m with buckets := Function.update m.buckets b (some e) }

def Memory.setTable (m : Memory K V) (t : Addr) (ht : HashTable) : Memory K V :=
  { m with tables := Function.update m.tables t (some ht) }

/-- The slots of a vector as they are read. -/
def Memory.slots (m : Memory K V) (v : Addr) (i : Nat) : Slot K V :=
  match m.slotRef v i with
  | some (.bucket b) =>
    match m.buckets b with
    | some e => .bucket ⟨e.bindex, e.bkey, e.bvalue, e.bhashval⟩
    | none => .cundef
  | some .cundef => .cundef
  | _ => .cunbound

/-- The table as it is read. -/
def Memory.view (m : Memory K V) (ht : HashTable) : Table K V where
  hashbits := ht.hashbits
  nentries := ht.nentries
  llimit := ht.llimit
  slot := m.slots ht.table

end Access

section Operations

variable (fuel : Nat) (kg : Keying K) (m : Memory K V)

/-- The new table is at `t`, its vector at `hv`. -/
def arcMkhash (t hv : Addr) (hashbits : Nat) : Memory K V :=
  { m with
    vecs := Function.update m.vecs hv (some ⟨hashsize hashbits, fun _ => .cunbound⟩)
    tables := Function.update m.tables t (some ⟨hv, hashbits, 0, loadLimit hashbits⟩) }

/-- Move the bucket of slot `i` of the old vector, if it holds one. -/
def expandSlot (oldtbl newtbl : Addr) (nhashbits : Nat) (m : Memory K V) (i : Nat) :
    Option (Memory K V) := do
  match ← m.slotRef oldtbl i with
  | .bucket b =>
    let e ← m.buckets b
    let m ← m.setSlot oldtbl i .cunbound
    let index ← expandLoop (m.slots newtbl) nhashbits fuel
      (uint e.bhashval % hashsize nhashbits) 0
    (m.setBucket b { e with btable := some newtbl, bindex := index }).setSlot newtbl index (.bucket b)
  | _ => return m

/-- The new vector is at `newtbl`. -/
def hashtableExpand (t newtbl : Addr) : Option (Memory K V) := do
  let ht ← m.tables t
  let oldtbl ← m.vecs ht.table
  let nhashbits := ht.hashbits + 1
  let m := { m with vecs := Function.update m.vecs newtbl
                              (some ⟨hashsize nhashbits, fun _ => .cunbound⟩) }
  let m ← (List.range oldtbl.veclen).foldlM (expandSlot fuel ht.table newtbl nhashbits) m
  return m.setTable t { ht with hashbits := nhashbits, llimit := loadLimit nhashbits, table := newtbl }

def mkhashbucket (bucket : Addr) (key : K) (val : Option V) (index : Nat) (ht : HashTable)
    (hashcode : Nat) : Memory K V :=
  m.setBucket bucket ⟨index, key, val, some ht.table, hashcode⟩

/-- Store into the slot where the loop of an insertion stopped. -/
def storeAt (ht : HashTable) (bucket : Addr) (index : Nat) (key : K) (val : Option V)
    (hashcode : Nat) : Option (Memory K V) := do
  match ← m.slotRef ht.table index with
  | .bucket b =>
    let e ← m.buckets b
    return m.setBucket b { e with bvalue := val }
  | _ => (mkhashbucket m bucket key val index ht hashcode).setSlot ht.table index (.bucket bucket)

/-- Room for one more entry. -/
def roomFor (t newtbl : Addr) : Option (Memory K V) := do
  let ht ← m.tables t
  if ht.nentries + 1 > ht.llimit then hashtableExpand fuel m t newtbl else some m

/-- The part of the insert functions after the key was not found. -/
def insertNew (t newtbl bucket : Addr) (key : K) (val : Option V) (hashcode : Nat) :
    Option (Memory K V) := do
  let m ← roomFor fuel m t newtbl
  let ht ← m.tables t
  let ht := { ht with nentries := ht.nentries + 1 }
  let m := m.setTable t ht
  let index ← insertLoop kg (m.view ht) key fuel (hashcode % hashsize ht.hashbits) 0
  storeAt m ht bucket index key val hashcode

def arcHashInsert (t newtbl bucket : Addr) (key : K) (val : Option V) : Option (Memory K V) := do
  let ht ← m.tables t
  let (old, index) ← hashLookup fuel kg (m.view ht) key
  match old, ← m.slotRef ht.table index with
  | some _, .bucket b =>
    let e ← m.buckets b
    return m.setBucket b { e with bvalue := val }
  | _, _ => insertNew fuel kg m t newtbl bucket key val (uint (kg.hash key))

/-- Take the bucket out of the slot, and count it out. -/
def deleteAt (t : Addr) (index : Nat) : Option (Memory K V × Option V) := do
  let ht ← m.tables t
  match ← m.slotRef ht.table index with
  | .bucket b =>
    let e ← m.buckets b
    let m ← (m.setBucket b { e with btable := none }).setSlot ht.table index .cundef
    return (m.setTable t { ht with nentries := ht.nentries - 1 }, e.bvalue)
  | _ => none

def arcHashDelete (t : Addr) (key : K) : Option (Memory K V × Option V) := do
  let ht ← m.tables t
  let (old, index) ← hashLookup fuel kg (m.view ht) key
  match old with
  | some _ => deleteAt m t index
  | none => return (m, none)

def arcXhashInsert (t newtbl bucket : Addr) (key : K) (val : Option V) : Option (Memory K V) := do
  let ht ← m.tables t
  let (index, found) ← probeFor fuel kg (m.view ht) key
  match found, ← m.slotRef ht.table index with
  | some _, .bucket b =>
    let e ← m.buckets b
    return m.setBucket b { e with bvalue := val }
  | _, _ => insertNew fuel kg m t newtbl bucket key val (kg.hash key)

/-- The lookup gives the bucket, and the slot is the one that the bucket names. -/
def arcXhashDelete (t : Addr) (key : K) : Option (Memory K V × Option V) := do
  let ht ← m.tables t
  let (_, found) ← probeFor fuel kg (m.view ht) key
  match found with
  | some e => deleteAt m t e.bindex
  | none => return (m, none)

end Operations

section Sweepers

variable (m : Memory K V)

def hbSweeper (b : Addr) : Option (Memory K V) := do
  let e ← m.buckets b
  match e.btable with
  | some t => m.setSlot t e.bindex .cundef
  | none => return m

/-- Clear the owner of the bucket of slot `i`, if it holds one. -/
def clearBtable (tv : TableVec) (m : Memory K V) (i : Nat) : Option (Memory K V) :=
  match tv.vindex i with
  | .bucket b => do
    let e ← m.buckets b
    return m.setBucket b { e with btable := none }
  | _ => some m

def tablevecSweeper (v : Addr) : Option (Memory K V) := do
  let tv ← m.vecs v
  (List.range tv.veclen).foldlM (clearBtable tv) m

def Memory.freeBucket (b : Addr) : Memory K V :=
  { m with buckets := Function.update m.buckets b none }

def Memory.freeVec (v : Addr) : Memory K V := { m with vecs := Function.update m.vecs v none }

def Memory.freeTable (t : Addr) : Memory K V :=
  { m with tables := Function.update m.tables t none }

end Sweepers

end Arcueid.Buckets
