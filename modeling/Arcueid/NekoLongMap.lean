import Mathlib.Algebra.Order.Ring.Nat
import Arcueid.Lib.SlotTable
import Arcueid.NekoSymbols

/-! The hash map under the symbol table of nekoarc (`LongMap.java`): three hashes,
a random walk that pushes keys on, and a stash behind the buckets. -/

namespace Arcueid.Neko

/-- The sizes that come from floating point numbers, and the random numbers. -/
structure LongMap.Settings where
  threshold : Nat → Nat
  stashCapacity : Nat → Nat
  random : Nat → Nat

/-- `draws` is how many random numbers were taken. -/
structure LongMap (V : Type) where
  size : Nat
  keyTable : List UInt64
  valueTable : List V
  capacity : Nat
  stashSize : Nat
  zeroValue : V
  hasZeroValue : Bool
  draws : Nat

/-- The array for a capacity that has overflowed. -/
inductive LongMap.Thrown where
  | negativeArraySize
  deriving DecidableEq

namespace LongMap

variable {V : Type}

section Model

def prime2 : UInt64 := 0xffffffffb4b82e39

def prime3 : UInt64 := 0xffffffffced1c241

def mask (m : LongMap V) : UInt64 := UInt64.ofNat (m.capacity - 1)

def hashShift (m : LongMap V) : UInt64 := UInt64.ofNat (63 - Nat.log2 m.capacity)

def pushIterations (m : LongMap V) : Nat := max (min m.capacity 8) (Nat.sqrt m.capacity / 8)

def hash1 (m : LongMap V) (key : UInt64) : Nat := (key &&& m.mask).toNat

def hash2 (m : LongMap V) (h : UInt64) : Nat :=
  let h := h * prime2
  ((h ^^^ (h >>> m.hashShift)) &&& m.mask).toNat

def hash3 (m : LongMap V) (h : UInt64) : Nat :=
  let h := h * prime3
  ((h ^^^ (h >>> m.hashShift)) &&& m.mask).toNat

def keyAt (m : LongMap V) (i : Nat) : UInt64 := m.keyTable[i]?.getD 0

variable [Inhabited V]

/-- The default value is null. -/
def valueAt (m : LongMap V) (i : Nat) : V := m.valueTable[i]?.getD default

def write (m : LongMap V) (i : Nat) (key : UInt64) (value : V) : LongMap V :=
  { m with keyTable := m.keyTable.set i key, valueTable := m.valueTable.set i value }

/-- The place of a key: one of its three buckets, or one in the stash. -/
def find (m : LongMap V) (key : UInt64) : Option Nat :=
  if m.keyAt (m.hash1 key) = key then some (m.hash1 key)
  else if m.keyAt (m.hash2 key) = key then some (m.hash2 key)
  else if m.keyAt (m.hash3 key) = key then some (m.hash3 key)
  else (List.range' m.capacity m.stashSize).find? fun i => m.keyAt i = key

/-- `get` with a default value. -/
def get (m : LongMap V) (key : UInt64) (defaultValue : V) : V :=
  if key = 0 then if m.hasZeroValue then m.zeroValue else defaultValue
  else match m.find key with
  | some i => m.valueAt i
  | none => defaultValue

def containsKey (m : LongMap V) (key : UInt64) : Bool :=
  if key = 0 then m.hasZeroValue else (m.find key).isSome

def removeStashIndex (m : LongMap V) (index : Nat) : LongMap V :=
  let m := { m with stashSize := m.stashSize - 1 }
  let lastIndex := m.capacity + m.stashSize
  if index < lastIndex then
    { m with
      keyTable := m.keyTable.set index (m.keyAt lastIndex)
      valueTable := (m.valueTable.set index (m.valueAt lastIndex)).set lastIndex default }
  else { m with valueTable := m.valueTable.set index default }

def remove (m : LongMap V) (key : UInt64) : V × LongMap V :=
  if key = 0 then
    if m.hasZeroValue then
      (m.zeroValue, { m with zeroValue := default, hasZeroValue := false, size := m.size - 1 })
    else (default, m)
  else match m.find key with
  | some i =>
    if i < m.capacity then (m.valueAt i, { m.write i 0 default with size := m.size - 1 })
    else (m.valueAt i, { m.removeStashIndex i with size := m.size - 1 })
  | none => (default, m)

def clear (m : LongMap V) : LongMap V :=
  let n := m.capacity + m.stashSize
  { m with
    keyTable := List.replicate n 0 ++ m.keyTable.drop n
    valueTable := List.replicate n default ++ m.valueTable.drop n
    size := 0
    stashSize := 0
    zeroValue := default
    hasZeroValue := false }

/-- The constructor, for a capacity that is a power of two. -/
def new (S : Settings) (capacity : Nat) : LongMap V where
  size := 0
  keyTable := List.replicate (capacity + S.stashCapacity capacity) 0
  valueTable := List.replicate (capacity + S.stashCapacity capacity) default
  capacity := capacity
  stashSize := 0
  zeroValue := default
  hasZeroValue := false
  draws := 0

/-- The calls that put leads to when the table is to have twice its capacity. -/
structure Doubling (V : Type) where
  resize : LongMap V → Except Thrown (LongMap V)
  put : LongMap V → UInt64 → V → Except Thrown (LongMap V)

variable (S : Settings) (D : Doubling V)

/-- A key is put in an empty bucket. -/
def fill (m : LongMap V) (index : Nat) (key : UInt64) (value : V) : Except Thrown (LongMap V) :=
  let filled := { m.write index key value with size := m.size + 1 }
  if S.threshold m.capacity ≤ m.size then D.resize filled else .ok filled

def putStash (m : LongMap V) (key : UInt64) (value : V) : Except Thrown (LongMap V) :=
  if m.stashSize = S.stashCapacity m.capacity then do
    D.put (← D.resize m) key value
  else
    .ok { m.write (m.capacity + m.stashSize) key value with
      stashSize := m.stashSize + 1, size := m.size + 1 }

/-- A key is put in the first of its buckets that is empty. -/
def fillEmpty (m : LongMap V) (key : UInt64) (value : V)
    (full : Except Thrown (LongMap V)) : Except Thrown (LongMap V) :=
  if m.keyAt (m.hash1 key) = 0 then fill S D m (m.hash1 key) key value
  else if m.keyAt (m.hash2 key) = 0 then fill S D m (m.hash2 key) key value
  else if m.keyAt (m.hash3 key) = 0 then fill S D m (m.hash3 key) key value
  else full

/-- The bucket that a random number stands for. -/
def bucket (m : LongMap V) (key : UInt64) (r : Nat) : Nat :=
  if r = 0 then m.hash1 key else if r = 1 then m.hash2 key else m.hash3 key

/-- The loop, with how many iterations are left. -/
def push : Nat → LongMap V → UInt64 → V → Except Thrown (LongMap V)
  | 0, m, key, value => putStash S D m key value
  | n + 1, m, insertKey, insertValue =>
    let index := m.bucket insertKey (S.random m.draws)
    let evictedKey := m.keyAt index
    let evictedValue := m.valueAt index
    let m := { m.write index insertKey insertValue with draws := m.draws + 1 }
    fillEmpty S D m evictedKey evictedValue (push n m evictedKey evictedValue)

def putNew (m : LongMap V) (key : UInt64) (value : V) : Except Thrown (LongMap V) :=
  fillEmpty S D m key value (push S D m.pushIterations m key value)

def putResize (m : LongMap V) (key : UInt64) (value : V) : Except Thrown (LongMap V) :=
  if key = 0 then .ok { m with zeroValue := value, hasZeroValue := true }
  else putNew S D m key value

/-- The map with new arrays, and the keys of the old ones put in them. -/
def resize (m : LongMap V) (newSize : Nat) : Except Thrown (LongMap V) :=
  let oldEndIndex := m.capacity + m.stashSize
  let empty := { m with
    capacity := newSize
    keyTable := List.replicate (newSize + S.stashCapacity newSize) 0
    valueTable := List.replicate (newSize + S.stashCapacity newSize) default
    size := if m.hasZeroValue then 1 else 0
    stashSize := 0 }
  if 0 < m.size then
    (List.range oldEndIndex).foldlM (fun m' i =>
      if m.keyAt i = 0 then .ok m' else putResize S D m' (m.keyAt i) (m.valueAt i)) empty
  else .ok empty

def putWith (m : LongMap V) (key : UInt64) (value : V) : Except Thrown (V × LongMap V) :=
  if key = 0 then
    .ok (m.zeroValue, { m with
      zeroValue := value, hasZeroValue := true, size := if m.hasZeroValue then m.size else m.size + 1 })
  else match m.find key with
  | some i => .ok (m.valueAt i, { m with valueTable := m.valueTable.set i value })
  | none => do return (default, ← putNew S D m key value)

/-- Capacities double up to `2 ^ 30`; the next one is negative. -/
def doubling : Nat → Doubling V
  | 0 => ⟨fun _ => .error .negativeArraySize, fun _ _ _ => .error .negativeArraySize⟩
  | n + 1 =>
    { resize := fun m =>
        if 2 ^ 30 ≤ m.capacity then .error .negativeArraySize
        else resize S (doubling n) m (2 * m.capacity)
      put := fun m key value => (putWith S (doubling n) m key value).map Prod.snd }

/-- No capacity doubles more often. -/
def put (m : LongMap V) (key : UInt64) (value : V) : Except Thrown (V × LongMap V) :=
  putWith S (doubling S 31) m key value

end Model

section Contents

variable [Inhabited V]

/-- What is in a place that is in use. -/
def slot (m : LongMap V) (i : Nat) : Option (UInt64 × V) :=
  if i < m.capacity + m.stashSize ∧ m.keyAt i ≠ 0 then some (m.keyAt i, m.valueAt i) else none

/-- A bucket of the key. -/
def IsBucket (m : LongMap V) (key : UInt64) (i : Nat) : Prop :=
  i = m.hash1 key ∨ i = m.hash2 key ∨ i = m.hash3 key

/-- The map `f` is what the table holds. A key is in one of its buckets or in the
stash, and the key zero has a place of its own. -/
structure Represents (S : Settings) (m : LongMap V) (f : UInt64 → Option V) : Prop where
  keys_length : m.keyTable.length = m.capacity + S.stashCapacity m.capacity
  values_length : m.valueTable.length = m.capacity + S.stashCapacity m.capacity
  stash_le : m.stashSize ≤ S.stashCapacity m.capacity
  capacity : ∃ j, j ≤ 30 ∧ m.capacity = 2 ^ j
  placed : ∀ i, i < m.capacity → m.keyAt i ≠ 0 → m.IsBucket (m.keyAt i) i
  table : SlotTable.Holds m.slot (Function.update f 0 none)
  zero : f 0 = if m.hasZeroValue then some m.zeroValue else none
  zeroNull : m.hasZeroValue = false → m.zeroValue = default
  size : SlotTable.HasSize f m.size

/-- No bucket of the key is empty. -/
def Full (m : LongMap V) (key : UInt64) : Prop := ∀ i, m.IsBucket key i → m.keyAt i ≠ 0

variable {S : Settings} {D : Doubling V} {m m' : LongMap V} {f : UInt64 → Option V} {key : UInt64}
  {value : V} {i : Nat}

theorem and_mask_lt (h : Represents S m f) (x : UInt64) : (x &&& m.mask).toNat < m.capacity := by
  obtain ⟨j, hj, hcap⟩ := h.capacity
  have hpos : 0 < m.capacity := hcap ▸ Nat.two_pow_pos j
  have hle : m.capacity ≤ 2 ^ 30 := hcap ▸ Nat.pow_le_pow_right (by decide) hj
  have hmask : m.mask.toNat = m.capacity - 1 := by
    rw [mask, UInt64.toNat_ofNat']
    exact Nat.mod_eq_of_lt (by omega)
  have hand : (x &&& m.mask).toNat ≤ m.capacity - 1 := by
    rw [UInt64.toNat_and, hmask]
    exact Nat.and_le_right
  omega

theorem IsBucket.lt (hi : m.IsBucket key i) (h : Represents S m f) : i < m.capacity := by
  rcases hi with rfl | rfl | rfl
  · exact and_mask_lt h _
  · exact and_mask_lt h _
  · exact and_mask_lt h _

theorem slot_eq_some {k : UInt64} {v : V} (h : m.slot i = some (k, v)) :
    i < m.capacity + m.stashSize ∧ m.keyAt i = k ∧ k ≠ 0 ∧ m.valueAt i = v := by
  by_cases hi : i < m.capacity + m.stashSize ∧ m.keyAt i ≠ 0
  · rw [slot, if_pos hi] at h
    cases h
    exact ⟨hi.1, rfl, hi.2, rfl⟩
  · rw [slot, if_neg hi] at h
    cases h

theorem slot_of (hi : i < m.capacity + m.stashSize) (hkey : m.keyAt i = key) (hne : key ≠ 0) :
    m.slot i = some (key, m.valueAt i) := by
  subst hkey
  exact if_pos ⟨hi, hne⟩

theorem slot_empty (hkey : m.keyAt i = 0) : m.slot i = none := if_neg fun h => h.2 hkey

omit [Inhabited V] in
theorem keyAt_write (hi : i < m.keyTable.length) (key : UInt64) (value : V) :
    (m.write i key value).keyAt = Function.update m.keyAt i key := by
  funext j
  by_cases hj : j = i
  · subst hj
    simp [keyAt, write, hi]
  · rw [Function.update_of_ne hj]
    simp [keyAt, write, List.getElem?_set_ne (Ne.symm hj)]

theorem valueAt_write (hi : i < m.valueTable.length) (key : UInt64) (value : V) :
    (m.write i key value).valueAt = Function.update m.valueAt i value := by
  funext j
  by_cases hj : j = i
  · subst hj
    simp [valueAt, write, hi]
  · rw [Function.update_of_ne hj]
    simp [valueAt, write, List.getElem?_set_ne (Ne.symm hj)]

theorem Represents.in_keys (h : Represents S m f) (hi : i < m.capacity + m.stashSize) :
    i < m.keyTable.length := by
  have hstash := h.stash_le
  have hlength := h.keys_length
  omega

theorem Represents.in_values (h : Represents S m f) (hi : i < m.capacity + m.stashSize) :
    i < m.valueTable.length := by
  have hstash := h.stash_le
  have hlength := h.values_length
  omega

theorem slot_write (h : Represents S m f) (hi : i < m.capacity + m.stashSize) (hne : key ≠ 0) :
    (m.write i key value).slot = Function.update m.slot i (some (key, value)) := by
  funext j
  have hkeys := keyAt_write (h.in_keys hi) key value
  have hvalues := valueAt_write (h.in_values hi) key value
  rw [slot, hkeys, hvalues]
  by_cases hj : j = i
  · subst hj
    simp only [Function.update_self]
    exact if_pos ⟨hi, hne⟩
  · simp only [Function.update_of_ne hj]
    rfl

theorem slot_write_zero (h : Represents S m f) (hi : i < m.capacity + m.stashSize) :
    (m.write i 0 value).slot = Function.update m.slot i none := by
  funext j
  have hkeys := keyAt_write (h.in_keys hi) 0 value
  have hvalues := valueAt_write (h.in_values hi) 0 value
  rw [slot, hkeys, hvalues]
  by_cases hj : j = i
  · subst hj
    simp only [Function.update_self]
    exact if_neg fun hz => hz.2 rfl
  · simp only [Function.update_of_ne hj]
    rfl

/-- The key of a place in use has the value there. -/
theorem Represents.value_at (h : Represents S m f) (hi : i < m.capacity + m.stashSize)
    (hkey : m.keyAt i = key) (hne : key ≠ 0) : f key = some (m.valueAt i) := by
  have hvalue := h.table.value (slot_of hi hkey hne)
  rwa [Function.update_of_ne hne] at hvalue

theorem Represents.find_some (h : Represents S m f) (hne : key ≠ 0) (hfind : m.find key = some i) :
    i < m.capacity + m.stashSize ∧ m.keyAt i = key ∧ f key = some (m.valueAt i) := by
  have hin : i < m.capacity + m.stashSize ∧ m.keyAt i = key := by
    have hbucket : ∀ b, m.IsBucket key b → b < m.capacity + m.stashSize := fun b hb =>
      Nat.lt_of_lt_of_le (hb.lt h) (Nat.le_add_right _ _)
    rw [find] at hfind
    by_cases h1 : m.keyAt (m.hash1 key) = key
    · rw [if_pos h1] at hfind
      cases hfind
      exact ⟨hbucket _ (.inl rfl), h1⟩
    · rw [if_neg h1] at hfind
      by_cases h2 : m.keyAt (m.hash2 key) = key
      · rw [if_pos h2] at hfind
        cases hfind
        exact ⟨hbucket _ (.inr (.inl rfl)), h2⟩
      · rw [if_neg h2] at hfind
        by_cases h3 : m.keyAt (m.hash3 key) = key
        · rw [if_pos h3] at hfind
          cases hfind
          exact ⟨hbucket _ (.inr (.inr rfl)), h3⟩
        · rw [if_neg h3] at hfind
          have hmem := List.mem_of_find?_eq_some hfind
          have hkey := List.find?_some hfind
          rw [List.mem_range'_1] at hmem
          exact ⟨hmem.2, of_decide_eq_true hkey⟩
  exact ⟨hin.1, hin.2, h.value_at hin.1 hin.2 hne⟩

theorem Represents.find_none (h : Represents S m f) (hne : key ≠ 0) (hfind : m.find key = none) :
    f key = none := by
  rw [find] at hfind
  by_cases h1 : m.keyAt (m.hash1 key) = key
  · rw [if_pos h1] at hfind
    cases hfind
  rw [if_neg h1] at hfind
  by_cases h2 : m.keyAt (m.hash2 key) = key
  · rw [if_pos h2] at hfind
    cases hfind
  rw [if_neg h2] at hfind
  by_cases h3 : m.keyAt (m.hash3 key) = key
  · rw [if_pos h3] at hfind
    cases hfind
  rw [if_neg h3, List.find?_eq_none] at hfind
  cases hvalue : f key with
  | none => rfl
  | some v =>
    have hheld : Function.update f 0 none key = some v := by rwa [Function.update_of_ne hne]
    obtain ⟨i, hi⟩ := (h.table.value_iff key v).mp hheld
    obtain ⟨hlt, hkey, -, -⟩ := slot_eq_some hi
    by_cases hcap : i < m.capacity
    · have hplaced := h.placed i hcap (by rwa [hkey])
      rw [hkey] at hplaced
      rcases hplaced with rfl | rfl | rfl
      · exact absurd hkey h1
      · exact absurd hkey h2
      · exact absurd hkey h3
    · have hstash := hfind i (List.mem_range'_1.mpr ⟨Nat.le_of_not_lt hcap, hlt⟩)
      exact absurd (decide_eq_true hkey) hstash

end Contents

section Steps

variable [Inhabited V] {S : Settings} {D : Doubling V} {m m' : LongMap V}
  {f : UInt64 → Option V} {key e : UInt64} {value w : V} {i : Nat}

omit [Inhabited V] in
/-- The buckets of a key do not depend on what the tables hold. -/
theorem isBucket_congr (hcap : m'.capacity = m.capacity) : m'.IsBucket key i ↔ m.IsBucket key i := by
  have hmask : m'.mask = m.mask := by rw [mask, mask, hcap]
  have hshift : m'.hashShift = m.hashShift := by rw [hashShift, hashShift, hcap]
  rw [IsBucket, IsBucket, hash1, hash1, hash2, hash2, hash3, hash3, hmask, hshift]

/-- A key is written to one of its buckets or to the stash. -/
theorem Represents.placed_write (h : Represents S m f) (value : V) (hi : i < m.keyTable.length)
    (hb : key ≠ 0 → i < m.capacity → m.IsBucket key i) (j : Nat) (hj : j < m.capacity)
    (hz : (m.write i key value).keyAt j ≠ 0) :
    (m.write i key value).IsBucket ((m.write i key value).keyAt j) j := by
  rw [keyAt_write hi] at hz ⊢
  rw [isBucket_congr rfl]
  by_cases hji : j = i
  · subst hji
    rw [Function.update_self] at hz ⊢
    exact hb hz hj
  · rw [Function.update_of_ne hji] at hz ⊢
    exact h.placed j hj hz

/-- A new key in an empty bucket. -/
theorem Represents.fill (h : Represents S m f) (hne : key ≠ 0) (hkey : f key = none)
    (hb : m.IsBucket key i) (hi : m.keyAt i = 0) (value : V) :
    Represents S { m.write i key value with size := m.size + 1 } (Function.update f key (some value)) := by
  have hlt := hb.lt h
  have hin : i < m.capacity + m.stashSize := Nat.lt_of_lt_of_le hlt (Nat.le_add_right _ _)
  refine ⟨List.length_set.trans h.keys_length, List.length_set.trans h.values_length, h.stash_le,
    h.capacity, h.placed_write value (h.in_keys hin) fun _ _ => hb, ?_, ?_, h.zeroNull, h.size.insert hkey value⟩
  · change SlotTable.Holds (m.write i key value).slot _
    rw [slot_write h hin hne, Function.update_comm hne]
    refine h.table.insert (slot_empty hi) ?_ value
    rwa [Function.update_of_ne hne]
  · rw [Function.update_of_ne (Ne.symm hne)]
    exact h.zero

/-- A new key takes a bucket from another one. -/
theorem Represents.evict (h : Represents S m f) (hne : key ≠ 0) (hkey : f key = none)
    (hb : m.IsBucket key i) (hi : m.keyAt i = e) (he : e ≠ 0) (value : V) (draws : Nat) :
    Represents S { m.write i key value with draws := draws }
      (Function.update (Function.update f e none) key (some value)) := by
  have hlt := hb.lt h
  have hin : i < m.capacity + m.stashSize := Nat.lt_of_lt_of_le hlt (Nat.le_add_right _ _)
  have hvalue := h.value_at hin hi he
  refine ⟨List.length_set.trans h.keys_length, List.length_set.trans h.values_length, h.stash_le,
    h.capacity, h.placed_write value (h.in_keys hin) fun _ _ => hb, ?_, ?_, h.zeroNull, h.size.evict hvalue hkey value⟩
  · change SlotTable.Holds (m.write i key value).slot _
    rw [slot_write h hin hne, Function.update_comm hne, Function.update_comm he]
    refine h.table.evict (slot_of hin hi he) ?_ value
    rwa [Function.update_of_ne hne]
  · rw [Function.update_of_ne (Ne.symm hne), Function.update_of_ne (Ne.symm he)]
    exact h.zero

/-- A new key behind the others in the stash. -/
theorem Represents.stash (h : Represents S m f) (hne : key ≠ 0) (hkey : f key = none)
    (hroom : m.stashSize ≠ S.stashCapacity m.capacity) (value : V) :
    Represents S { m.write (m.capacity + m.stashSize) key value with
      stashSize := m.stashSize + 1, size := m.size + 1 } (Function.update f key (some value)) := by
  have hstash := h.stash_le
  have hlt : m.stashSize < S.stashCapacity m.capacity := by omega
  have hinkeys : m.capacity + m.stashSize < m.keyTable.length := by
    rw [h.keys_length]
    omega
  have hinvalues : m.capacity + m.stashSize < m.valueTable.length := by
    rw [h.values_length]
    omega
  have hkeys := keyAt_write hinkeys key value
  have hvalues := valueAt_write hinvalues key value
  refine ⟨List.length_set.trans h.keys_length, List.length_set.trans h.values_length, hlt,
    h.capacity, h.placed_write value hinkeys fun _ hcap => absurd hcap (by omega), ?_, ?_, h.zeroNull,
    h.size.insert hkey value⟩
  · have hslot : slot { m.write (m.capacity + m.stashSize) key value with
        stashSize := m.stashSize + 1, size := m.size + 1 } =
        Function.update m.slot (m.capacity + m.stashSize) (some (key, value)) := by
      funext j
      change (if j < m.capacity + (m.stashSize + 1) ∧
          (m.write (m.capacity + m.stashSize) key value).keyAt j ≠ 0 then
        some ((m.write (m.capacity + m.stashSize) key value).keyAt j,
          (m.write (m.capacity + m.stashSize) key value).valueAt j) else none) = _
      rw [hkeys, hvalues]
      by_cases hj : j = m.capacity + m.stashSize
      · subst hj
        simp only [Function.update_self]
        exact if_pos ⟨by omega, hne⟩
      · simp only [Function.update_of_ne hj]
        have hiff : j < m.capacity + (m.stashSize + 1) ↔ j < m.capacity + m.stashSize := by omega
        exact if_congr (and_congr_left' hiff) rfl rfl
    have hfree : m.slot (m.capacity + m.stashSize) = none := if_neg fun hz => Nat.lt_irrefl _ hz.1
    rw [hslot, Function.update_comm hne]
    refine h.table.insert hfree ?_ value
    rwa [Function.update_of_ne hne]
  · rw [Function.update_of_ne (Ne.symm hne)]
    exact h.zero

/-- Another value for a key. -/
theorem Represents.setValue (h : Represents S m f) (hne : key ≠ 0) (hin : i < m.capacity + m.stashSize)
    (hi : m.keyAt i = key) (value : V) :
    Represents S { m with valueTable := m.valueTable.set i value } (Function.update f key (some value)) := by
  have hsame : { m with valueTable := m.valueTable.set i value } = m.write i key value := by
    have hkey : m.keyTable.set i key = m.keyTable := by
      have hlt := h.in_keys hin
      refine List.ext_getElem? fun j => ?_
      by_cases hj : j = i
      · subst hj
        rw [List.getElem?_set_self hlt, List.getElem?_eq_getElem hlt]
        simpa [keyAt, hlt] using hi.symm
      · rw [List.getElem?_set_ne (Ne.symm hj)]
    rw [write, hkey]
  have hold := h.value_at hin hi hne
  rw [hsame]
  have hbucket : i < m.capacity → m.IsBucket key i := fun hcap => by
    have hplaced := h.placed i hcap (by rwa [hi])
    rwa [hi] at hplaced
  refine ⟨List.length_set.trans h.keys_length, List.length_set.trans h.values_length, h.stash_le,
    h.capacity, h.placed_write value (h.in_keys hin) fun _ => hbucket, ?_, ?_, h.zeroNull, h.size.replace hold value⟩
  · rw [slot_write h hin hne, Function.update_comm hne]
    exact h.table.replace (slot_of hin hi hne) value
  · rw [Function.update_of_ne (Ne.symm hne)]
    exact h.zero

/-- A bucket is emptied. -/
theorem Represents.empty (h : Represents S m f) (hne : key ≠ 0) (hlt : i < m.capacity)
    (hi : m.keyAt i = key) :
    Represents S { m.write i 0 default with size := m.size - 1 } (Function.update f key none) := by
  have hin : i < m.capacity + m.stashSize := Nat.lt_of_lt_of_le hlt (Nat.le_add_right _ _)
  have hold := h.value_at hin hi hne
  refine ⟨List.length_set.trans h.keys_length, List.length_set.trans h.values_length, h.stash_le,
    h.capacity, h.placed_write default (h.in_keys hin) fun hz _ => absurd rfl hz, ?_, ?_, h.zeroNull, h.size.remove hold⟩
  · change SlotTable.Holds (m.write i 0 default).slot _
    rw [slot_write_zero h hin, Function.update_comm hne]
    exact h.table.remove (slot_of hin hi hne)
  · rw [Function.update_of_ne (Ne.symm hne)]
    exact h.zero

/-- The last place of the stash is moved to the one that is removed. -/
theorem slot_removeStashIndex (h : Represents S m f) (hcap : m.capacity ≤ i)
    (hin : i < m.capacity + m.stashSize) :
    (m.removeStashIndex i).slot =
      Function.update (Function.update m.slot i (m.slot (m.capacity + m.stashSize - 1)))
        (m.capacity + m.stashSize - 1) none := by
  have hlast : m.capacity + (m.stashSize - 1) = m.capacity + m.stashSize - 1 := by omega
  have hinlast : m.capacity + m.stashSize - 1 < m.capacity + m.stashSize := by omega
  have hlastkeys := h.in_keys hinlast
  have hlastvalues := h.in_values hinlast
  funext j
  by_cases hlt : i < m.capacity + (m.stashSize - 1)
  · have hrun : m.removeStashIndex i = { m with
        stashSize := m.stashSize - 1
        keyTable := m.keyTable.set i (m.keyAt (m.capacity + m.stashSize - 1))
        valueTable := (m.valueTable.set i (m.valueAt (m.capacity + m.stashSize - 1))).set
          (m.capacity + m.stashSize - 1) default } := by
      rw [removeStashIndex]
      simp only [hlast]
      exact if_pos (hlast ▸ hlt)
    rw [hrun]
    have hkeys := keyAt_write (h.in_keys hin) (m.keyAt (m.capacity + m.stashSize - 1)) default
    change (if j < m.capacity + (m.stashSize - 1) ∧
        (m.write i (m.keyAt (m.capacity + m.stashSize - 1)) default).keyAt j ≠ 0 then
      some ((m.write i (m.keyAt (m.capacity + m.stashSize - 1)) default).keyAt j,
        ((m.valueTable.set i (m.valueAt (m.capacity + m.stashSize - 1))).set
          (m.capacity + m.stashSize - 1) default)[j]?.getD default) else none) = _
    rw [hkeys]
    by_cases hj : j = m.capacity + m.stashSize - 1
    · rw [hj, Function.update_self]
      exact if_neg fun hz => absurd hz.1 (by omega)
    · rw [Function.update_of_ne hj, List.getElem?_set_ne (Ne.symm hj)]
      by_cases hji : j = i
      · subst hji
        rw [Function.update_self, Function.update_self, List.getElem?_set_self (h.in_values hin),
          Option.getD_some]
        refine if_congr ?_ rfl rfl
        exact and_congr_left' (iff_of_true hlt hinlast)
      · rw [Function.update_of_ne hji, Function.update_of_ne hji, List.getElem?_set_ne (Ne.symm hji)]
        refine if_congr ?_ rfl rfl
        exact and_congr_left' (by omega)
  · have hi : i = m.capacity + m.stashSize - 1 := by omega
    have hrun : m.removeStashIndex i = { m with
        stashSize := m.stashSize - 1, valueTable := m.valueTable.set i default } := by
      rw [removeStashIndex]
      exact if_neg hlt
    rw [hrun, ← hi, Function.update_idem]
    by_cases hj : j = i
    · rw [hj, Function.update_self]
      exact if_neg fun hz => absurd hz.1 hlt
    · rw [Function.update_of_ne hj]
      change (if j < m.capacity + (m.stashSize - 1) ∧ m.keyAt j ≠ 0 then
        some (m.keyAt j, (m.valueTable.set i default)[j]?.getD default) else none) = _
      rw [List.getElem?_set_ne (Ne.symm hj)]
      refine if_congr ?_ rfl rfl
      exact and_congr_left' (by omega)

theorem Represents.removeStash (h : Represents S m f) (hne : key ≠ 0) (hcap : m.capacity ≤ i)
    (hin : i < m.capacity + m.stashSize) (hi : m.keyAt i = key) :
    Represents S { m.removeStashIndex i with size := m.size - 1 } (Function.update f key none) := by
  have hold := h.value_at hin hi hne
  have hslot := slot_removeStashIndex h hcap hin
  have hstash := h.stash_le
  have hinlast : m.capacity + m.stashSize - 1 < m.capacity + m.stashSize := by omega
  have htable : SlotTable.Holds (m.removeStashIndex i).slot
      (Function.update (Function.update f key none) 0 none) := by
    rw [hslot, Function.update_comm hne]
    by_cases hlast : i = m.capacity + m.stashSize - 1
    · rw [← hlast, Function.update_idem]
      exact h.table.remove (slot_of hin hi hne)
    · by_cases hz : m.keyAt (m.capacity + m.stashSize - 1) = 0
      · rw [slot_empty hz]
        have hgone : Function.update m.slot i none (m.capacity + m.stashSize - 1) = none := by
          rw [Function.update_of_ne (Ne.symm hlast), slot_empty hz]
        rw [Function.update_eq_self_iff.mpr hgone.symm]
        exact h.table.remove (slot_of hin hi hne)
      · rw [slot_of hinlast rfl hz]
        exact h.table.move (slot_of hin hi hne) (slot_of hinlast rfl hz) hlast
  have hzero : Function.update f key none 0 = if m.hasZeroValue then some m.zeroValue else none := by
    rw [Function.update_of_ne (Ne.symm hne)]
    exact h.zero
  by_cases hlt : i < m.capacity + (m.stashSize - 1)
  · have hrun : m.removeStashIndex i = { m with
        stashSize := m.stashSize - 1
        keyTable := m.keyTable.set i (m.keyAt (m.capacity + (m.stashSize - 1)))
        valueTable := (m.valueTable.set i (m.valueAt (m.capacity + (m.stashSize - 1)))).set
          (m.capacity + (m.stashSize - 1)) default } := if_pos hlt
    rw [hrun] at htable ⊢
    refine ⟨List.length_set.trans h.keys_length,
      List.length_set.trans (List.length_set.trans h.values_length),
      Nat.le_trans (Nat.sub_le _ _) hstash, h.capacity, ?_, htable, hzero, h.zeroNull, h.size.remove hold⟩
    exact h.placed_write default (h.in_keys hin) fun _ hlow => absurd hlow (by omega)
  · have hrun : m.removeStashIndex i = { m with
        stashSize := m.stashSize - 1, valueTable := m.valueTable.set i default } := if_neg hlt
    rw [hrun] at htable ⊢
    exact ⟨h.keys_length, List.length_set.trans h.values_length, Nat.le_trans (Nat.sub_le _ _) hstash,
      h.capacity, h.placed, htable, hzero, h.zeroNull, h.size.remove hold⟩

/-- The key zero is put. -/
theorem Represents.putZero (h : Represents S m f) (value : V) :
    Represents S { m with
      zeroValue := value, hasZeroValue := true, size := if m.hasZeroValue then m.size else m.size + 1 }
      (Function.update f 0 (some value)) := by
  refine ⟨h.keys_length, h.values_length, h.stash_le, h.capacity, h.placed, ?_, ?_, by simp, ?_⟩
  · rw [Function.update_idem]
    exact h.table
  · rw [Function.update_self]
    rfl
  · have hzero := h.zero
    cases hhas : m.hasZeroValue with
    | true =>
      rw [hhas, if_pos rfl] at hzero
      exact h.size.replace hzero value
    | false =>
      rw [hhas, if_neg (by decide)] at hzero
      exact h.size.insert hzero value

theorem Represents.removeZero (h : Represents S m f) (hhas : m.hasZeroValue = true) :
    Represents S { m with zeroValue := default, hasZeroValue := false, size := m.size - 1 }
      (Function.update f 0 none) := by
  have hzero := h.zero
  rw [hhas, if_pos rfl] at hzero
  refine ⟨h.keys_length, h.values_length, h.stash_le, h.capacity, h.placed, ?_, ?_, fun _ => rfl,
    h.size.remove hzero⟩
  · rw [Function.update_idem]
    exact h.table
  · rw [Function.update_self]
    rfl

/-- Empty tables hold no key but zero. -/
theorem represents_of_empty (S : Settings) {j : Nat} (hj : j ≤ 30) (hcap : m.capacity = 2 ^ j)
    (hkeys : m.keyTable.length = m.capacity + S.stashCapacity m.capacity)
    (hvalues : m.valueTable.length = m.capacity + S.stashCapacity m.capacity)
    (hempty : ∀ i, i < m.capacity → m.keyAt i = 0) (hstash : m.stashSize = 0)
    (hnull : m.hasZeroValue = false → m.zeroValue = default)
    (hsize : m.size = if m.hasZeroValue then 1 else 0) :
    Represents S m fun k => if k = 0 ∧ m.hasZeroValue then some m.zeroValue else none := by
  have hslot : m.slot = fun _ => none := by
    funext i
    by_cases hi : i < m.capacity
    · exact slot_empty (hempty i hi)
    · exact if_neg fun hz => absurd hz.1 (by omega)
  have htable : Function.update (fun k : UInt64 => if k = 0 ∧ m.hasZeroValue then some m.zeroValue else none)
      0 none = fun _ => none := by
    funext k
    by_cases hk : k = 0
    · rw [hk, Function.update_self]
    · rw [Function.update_of_ne hk, if_neg fun hz => hk hz.1]
  refine ⟨hkeys, hvalues, by omega, ⟨j, hj, hcap⟩, fun i hi hz => absurd (hempty i hi) hz, ?_, ?_, hnull, ?_⟩
  · rw [htable, hslot]
    exact SlotTable.holds_empty
  · simp
  · rw [hsize]
    cases hhas : m.hasZeroValue with
    | false => simpa using SlotTable.hasSize_zero
    | true =>
      have hone : SlotTable.HasSize (Function.update (fun _ : UInt64 => none) 0 (some m.zeroValue)) 1 :=
        SlotTable.hasSize_zero.insert rfl m.zeroValue
      have heq : (fun k : UInt64 => if k = 0 ∧ true = true then some m.zeroValue else none) =
          Function.update (fun _ => none) 0 (some m.zeroValue) := by
        funext k
        by_cases hk : k = 0
        · simp [hk]
        · simp [hk]
      rw [heq]
      exact hone

theorem represents_new (S : Settings) {j : Nat} (hj : j ≤ 30) :
    Represents S (new S (2 ^ j) : LongMap V) fun _ => none := by
  have hempty : ∀ i, (new S (2 ^ j) : LongMap V).keyAt i = 0 := by
    intro i
    simp only [keyAt, new, List.getElem?_replicate]
    by_cases hi : i < 2 ^ j + S.stashCapacity (2 ^ j)
    · simp [hi]
    · simp [hi]
  have hout := represents_of_empty (m := new S (2 ^ j)) S hj rfl List.length_replicate
    List.length_replicate (fun i _ => hempty i) rfl (fun _ => rfl) rfl
  simpa [new] using hout

theorem Represents.clear (h : Represents S m f) : Represents S m.clear fun _ => none := by
  obtain ⟨j, hj, hcap⟩ := h.capacity
  have hstash := h.stash_le
  have hkeys := h.keys_length
  have hvalues := h.values_length
  have hempty : ∀ i, i < m.clear.capacity → m.clear.keyAt i = 0 := by
    intro i hi
    have hi' : i < m.capacity := hi
    have hlt : i < m.capacity + m.stashSize := by omega
    simp [keyAt, LongMap.clear, List.getElem?_append, hlt]
  have hout := represents_of_empty (m := m.clear) S hj hcap
    (by simp only [LongMap.clear, List.length_append, List.length_replicate, List.length_drop]; omega)
    (by simp only [LongMap.clear, List.length_append, List.length_replicate, List.length_drop]; omega)
    hempty rfl (fun _ => rfl) rfl
  simpa [LongMap.clear] using hout

end Steps

section Calls

variable [Inhabited V] {S : Settings} {D : Doubling V} {m m' : LongMap V} {f : UInt64 → Option V}
  {key : UInt64} {value : V} {i n : Nat}

/-- What the calls at twice the capacity give when they return. -/
structure Doubling.Sound (S : Settings) (D : Doubling V) : Prop where
  resize : ∀ {m m' f}, Represents S m f → D.resize m = .ok m' → Represents S m' f
  put : ∀ {m m' f key value}, Represents S m f → D.put m key value = .ok m' →
    Represents S m' (Function.update f key (some value))

theorem Represents.fill_ok (h : Represents S m f) (hD : D.Sound S) (hne : key ≠ 0) (hkey : f key = none)
    (hb : m.IsBucket key i) (hi : m.keyAt i = 0) (hrun : LongMap.fill S D m i key value = .ok m') :
    Represents S m' (Function.update f key (some value)) := by
  have hfilled := h.fill hne hkey hb hi value
  rw [LongMap.fill] at hrun
  by_cases hfull : S.threshold m.capacity ≤ m.size
  · rw [if_pos hfull] at hrun
    exact hD.resize hfilled hrun
  · rw [if_neg hfull] at hrun
    cases hrun
    exact hfilled

theorem Represents.putStash_ok (h : Represents S m f) (hD : D.Sound S) (hne : key ≠ 0)
    (hkey : f key = none) (hrun : putStash S D m key value = .ok m') :
    Represents S m' (Function.update f key (some value)) := by
  rw [putStash] at hrun
  by_cases hfull : m.stashSize = S.stashCapacity m.capacity
  · rw [if_pos hfull] at hrun
    cases hresize : D.resize m with
    | error e =>
      rw [hresize] at hrun
      cases hrun
    | ok m₁ =>
      rw [hresize] at hrun
      exact hD.put (hD.resize h hresize) hrun
  · rw [if_neg hfull] at hrun
    cases hrun
    exact h.stash hne hkey hfull value

theorem Represents.fillEmpty_ok {full : Except Thrown (LongMap V)} (h : Represents S m f)
    (hD : D.Sound S) (hne : key ≠ 0) (hkey : f key = none)
    (hfull : m.Full key → full = .ok m' → Represents S m' (Function.update f key (some value)))
    (hrun : fillEmpty S D m key value full = .ok m') :
    Represents S m' (Function.update f key (some value)) := by
  rw [fillEmpty] at hrun
  by_cases h1 : m.keyAt (m.hash1 key) = 0
  · rw [if_pos h1] at hrun
    exact h.fill_ok hD hne hkey (.inl rfl) h1 hrun
  rw [if_neg h1] at hrun
  by_cases h2 : m.keyAt (m.hash2 key) = 0
  · rw [if_pos h2] at hrun
    exact h.fill_ok hD hne hkey (.inr (.inl rfl)) h2 hrun
  rw [if_neg h2] at hrun
  by_cases h3 : m.keyAt (m.hash3 key) = 0
  · rw [if_pos h3] at hrun
    exact h.fill_ok hD hne hkey (.inr (.inr rfl)) h3 hrun
  rw [if_neg h3] at hrun
  refine hfull (fun i hi => ?_) hrun
  rcases hi with rfl | rfl | rfl
  · exact h1
  · exact h2
  · exact h3

omit [Inhabited V] in
theorem bucket_isBucket (m : LongMap V) (key : UInt64) (r : Nat) : m.IsBucket key (m.bucket key r) := by
  rw [bucket]
  by_cases h0 : r = 0
  · rw [if_pos h0]
    exact .inl rfl
  · rw [if_neg h0]
    by_cases h1 : r = 1
    · rw [if_pos h1]
      exact .inr (.inl rfl)
    · rw [if_neg h1]
      exact .inr (.inr rfl)

/-- The key in hand changes with every iteration; with it the table holds the map. -/
theorem Represents.push_ok (h : Represents S m f) (hD : D.Sound S) (hne : key ≠ 0) (hkey : f key = none)
    (hfull : m.Full key) (hrun : push S D n m key value = .ok m') :
    Represents S m' (Function.update f key (some value)) := by
  induction n generalizing m f key value with
  | zero => exact h.putStash_ok hD hne hkey hrun
  | succ n ih =>
    rw [push] at hrun
    let b := m.bucket key (S.random m.draws)
    have hb : m.IsBucket key b := bucket_isBucket m key _
    have hin : b < m.capacity + m.stashSize := Nat.lt_of_lt_of_le (hb.lt h) (Nat.le_add_right _ _)
    have he : m.keyAt b ≠ 0 := hfull b hb
    have hold := h.value_at hin rfl he
    have hdiff : m.keyAt b ≠ key := by
      intro heq
      rw [heq, hkey] at hold
      cases hold
    have hevicted := h.evict hne hkey hb rfl he value (m.draws + 1)
    have hgone : Function.update (Function.update f (m.keyAt b) none) key (some value) (m.keyAt b) = none := by
      rw [Function.update_of_ne hdiff, Function.update_self]
    have hback : Function.update (Function.update (Function.update f (m.keyAt b) none) key (some value))
        (m.keyAt b) (some (m.valueAt b)) = Function.update f key (some value) := by
      rw [Function.update_comm hdiff.symm, Function.update_idem, ← hold, Function.update_eq_self]
    rw [← hback]
    exact hevicted.fillEmpty_ok hD he hgone (fun hfull' hrun' => ih hevicted he hgone hfull' hrun') hrun

theorem Represents.putNew_ok (h : Represents S m f) (hD : D.Sound S) (hne : key ≠ 0) (hkey : f key = none)
    (hrun : putNew S D m key value = .ok m') :
    Represents S m' (Function.update f key (some value)) :=
  h.fillEmpty_ok hD hne hkey (fun hfull hpush => h.push_ok hD hne hkey hfull hpush) hrun

theorem Represents.putWith_ok {old : V} (h : Represents S m f) (hD : D.Sound S)
    (hrun : putWith S D m key value = .ok (old, m')) :
    old = (f key).getD default ∧ Represents S m' (Function.update f key (some value)) := by
  rw [putWith] at hrun
  by_cases hz : key = 0
  · subst hz
    rw [if_pos rfl] at hrun
    cases hrun
    refine ⟨?_, h.putZero value⟩
    rw [h.zero]
    cases hhas : m.hasZeroValue with
    | true => rfl
    | false => exact h.zeroNull hhas
  · rw [if_neg hz] at hrun
    cases hfind : m.find key with
    | some i =>
      simp only [hfind] at hrun
      obtain ⟨hin, hi, hold⟩ := h.find_some hz hfind
      cases hrun
      rw [hold]
      exact ⟨rfl, h.setValue hz hin hi value⟩
    | none =>
      simp only [hfind] at hrun
      have hkey := h.find_none hz hfind
      cases hput : putNew S D m key value with
      | error e =>
        rw [hput] at hrun
        cases hrun
      | ok m₁ =>
        rw [hput] at hrun
        cases hrun
        rw [hkey]
        exact ⟨rfl, h.putNew_ok hD hz hkey hput⟩

/-- The rest of the old places, put in a table that holds all other keys. -/
theorem Represents.reinsert {m₁ : LongMap V} (h : Represents S m f) (hD : D.Sound S) {is : List Nat}
    (his : is.Nodup) (hin : ∀ i ∈ is, i < m.capacity + m.stashSize)
    (h₁ : Represents S m₁ fun k => if k ≠ 0 ∧ k ∈ is.map m.keyAt then none else f k)
    (hrun : is.foldlM (fun m' i =>
      if m.keyAt i = 0 then .ok m' else putResize S D m' (m.keyAt i) (m.valueAt i)) m₁ = .ok m') :
    Represents S m' f := by
  induction is generalizing m₁ with
  | nil =>
    cases hrun
    simpa using h₁
  | cons i is ih =>
    obtain ⟨hi, his⟩ := List.nodup_cons.mp his
    have hin' : ∀ i ∈ is, i < m.capacity + m.stashSize := fun j hj => hin j (List.mem_cons_of_mem _ hj)
    rw [List.foldlM_cons] at hrun
    by_cases hz : m.keyAt i = 0
    · rw [if_pos hz] at hrun
      refine ih his hin' ?_ hrun
      have hsame : (fun k => if k ≠ 0 ∧ k ∈ (i :: is).map m.keyAt then none else f k) =
          fun k => if k ≠ 0 ∧ k ∈ is.map m.keyAt then none else f k := by
        funext k
        refine if_congr (and_congr_right fun hk => ?_) rfl rfl
        rw [List.map_cons, List.mem_cons, hz]
        exact or_iff_right hk
      rwa [← hsame]
    · rw [if_neg hz, putResize, if_neg hz] at hrun
      have hold := h.value_at (hin i List.mem_cons_self) rfl hz
      have hother : m.keyAt i ∉ is.map m.keyAt := by
        intro hmem
        obtain ⟨j, hj, hkey⟩ := List.mem_map.mp hmem
        have hsame : j = i := h.table.unique _ _ _ _ _ (slot_of (hin' j hj) hkey hz)
          (slot_of (hin i List.mem_cons_self) rfl hz)
        exact hi (hsame ▸ hj)
      have hkey : (fun k => if k ≠ 0 ∧ k ∈ (i :: is).map m.keyAt then none else f k) (m.keyAt i) = none :=
        if_pos ⟨hz, by simp⟩
      cases hput : putNew S D m₁ (m.keyAt i) (m.valueAt i) with
      | error e =>
        rw [hput] at hrun
        cases hrun
      | ok m₂ =>
        rw [hput] at hrun
        refine ih his hin' ?_ hrun
        have hsame : Function.update (fun k => if k ≠ 0 ∧ k ∈ (i :: is).map m.keyAt then none else f k)
            (m.keyAt i) (some (m.valueAt i)) = fun k => if k ≠ 0 ∧ k ∈ is.map m.keyAt then none else f k := by
          funext k
          by_cases hk : k = m.keyAt i
          · rw [hk, Function.update_self, if_neg fun hmem => hother hmem.2, hold]
          · rw [Function.update_of_ne hk]
            refine if_congr (and_congr_right fun _ => ?_) rfl rfl
            rw [List.map_cons, List.mem_cons]
            exact or_iff_right hk
        rw [← hsame]
        exact h₁.putNew_ok hD hz hkey hput

theorem Represents.resize_ok (h : Represents S m f) (hD : D.Sound S) {j : Nat} (hj : j ≤ 30)
    (hrun : LongMap.resize S D m (2 ^ j) = .ok m') : Represents S m' f := by
  rw [LongMap.resize] at hrun
  let empty : LongMap V := { m with
    capacity := 2 ^ j
    keyTable := List.replicate (2 ^ j + S.stashCapacity (2 ^ j)) 0
    valueTable := List.replicate (2 ^ j + S.stashCapacity (2 ^ j)) default
    size := if m.hasZeroValue then 1 else 0
    stashSize := 0 }
  have hempty : Represents S empty fun k => if k = 0 ∧ m.hasZeroValue then some m.zeroValue else none := by
    refine represents_of_empty S hj rfl List.length_replicate List.length_replicate (fun i hi => ?_) rfl
      h.zeroNull rfl
    have hi' : i < 2 ^ j := hi
    simp [keyAt, empty, Nat.lt_of_lt_of_le hi' (Nat.le_add_right _ _)]
  have hzero := h.zero
  by_cases hsize : 0 < m.size
  · rw [if_pos hsize] at hrun
    refine h.reinsert hD List.nodup_range (fun i hi => List.mem_range.mp hi) ?_ hrun
    have hsame : (fun k => if k ≠ 0 ∧ k ∈ (List.range (m.capacity + m.stashSize)).map m.keyAt then none
        else f k) = fun k => if k = 0 ∧ m.hasZeroValue then some m.zeroValue else none := by
      funext k
      by_cases hk : k = 0
      · subst hk
        simpa using hzero
      · rw [if_neg fun hz : k = 0 ∧ _ => hk hz.1]
        by_cases hmem : k ∈ (List.range (m.capacity + m.stashSize)).map m.keyAt
        · exact if_pos ⟨hk, hmem⟩
        · rw [if_neg fun hz => hmem hz.2]
          cases hvalue : f k with
          | none => rfl
          | some v =>
            have hheld : Function.update f 0 none k = some v := by rwa [Function.update_of_ne hk]
            obtain ⟨i, hi⟩ := (h.table.value_iff k v).mp hheld
            obtain ⟨hlt, hkey, -, -⟩ := slot_eq_some hi
            exact absurd (List.mem_map.mpr ⟨i, List.mem_range.mpr hlt, hkey⟩) hmem
    rw [hsame]
    exact hempty
  · rw [if_neg hsize] at hrun
    cases hrun
    have hnone := SlotTable.HasSize.eq_none (Nat.eq_zero_of_not_pos hsize ▸ h.size)
    have hsame : (fun k => if k = 0 ∧ m.hasZeroValue then some m.zeroValue else none) = f := by
      funext k
      by_cases hk : k = 0
      · subst hk
        simpa using hzero.symm
      · rw [if_neg fun hz => hk hz.1, hnone k]
    exact hsame ▸ hempty

theorem doubling_resize (S : Settings) (n : Nat) (m : LongMap V) :
    (doubling S (n + 1)).resize m = if 2 ^ 30 ≤ m.capacity then .error .negativeArraySize
      else LongMap.resize S (doubling S n) m (2 * m.capacity) := rfl

theorem doubling_put (S : Settings) (n : Nat) (m : LongMap V) (key : UInt64) (value : V) :
    (doubling S (n + 1)).put m key value = (putWith S (doubling S n) m key value).map Prod.snd := rfl

theorem doubling_sound (S : Settings) (n : Nat) : (doubling S n : Doubling V).Sound S := by
  induction n with
  | zero =>
    constructor
    · intro m m' f h hrun
      cases hrun
    · intro m m' f key value h hrun
      cases hrun
  | succ n ih =>
    constructor
    · intro m m' f h hrun
      rw [doubling_resize] at hrun
      by_cases hcap : 2 ^ 30 ≤ m.capacity
      · rw [if_pos hcap] at hrun
        cases hrun
      · rw [if_neg hcap] at hrun
        obtain ⟨j, hj, hpow⟩ := h.capacity
        have hlt : j < 30 := by
          by_contra hge
          exact hcap (hpow ▸ Nat.pow_le_pow_right (by decide) (Nat.le_of_not_lt hge))
        have htwice : 2 * m.capacity = 2 ^ (j + 1) := by rw [hpow, Nat.pow_succ, Nat.mul_comm]
        rw [htwice] at hrun
        exact h.resize_ok ih hlt hrun
    · intro m m' f key value h hrun
      rw [doubling_put] at hrun
      cases hput : putWith S (doubling S n) m key value with
      | error e =>
        rw [hput] at hrun
        cases hrun
      | ok p =>
        rw [hput] at hrun
        cases hrun
        exact (h.putWith_ok ih hput).2

end Calls

section Depth

variable [Inhabited V] {S : Settings} {D D' : Doubling V} {m m' : LongMap V} {key : UInt64} {value : V}
  {i j n : Nat}

/-- A map that a call returns has a capacity from `2 ^ j` on. -/
def GrowsTo (j : Nat) (r : Except Thrown (LongMap V)) : Prop :=
  ∀ m', r = .ok m' → ∃ j', j ≤ j' ∧ j' ≤ 30 ∧ m'.capacity = 2 ^ j'

/-- From the capacity `2 ^ j` on, the calls return larger maps and are the same. -/
structure Doubling.Alike (D D' : Doubling V) (j : Nat) : Prop where
  grows_resize : ∀ m : LongMap V, ∀ k, j ≤ k → k ≤ 30 → m.capacity = 2 ^ k → GrowsTo (k + 1) (D.resize m)
  grows_put : ∀ (m : LongMap V) key value, ∀ k, j < k → k ≤ 30 → m.capacity = 2 ^ k →
    GrowsTo k (D.put m key value)
  resize : ∀ m : LongMap V, ∀ k, j ≤ k → k ≤ 30 → m.capacity = 2 ^ k → D.resize m = D'.resize m
  put : ∀ (m : LongMap V) key value, ∀ k, j < k → k ≤ 30 → m.capacity = 2 ^ k →
    D.put m key value = D'.put m key value

omit [Inhabited V] in
theorem GrowsTo.mono {r : Except Thrown (LongMap V)} {k : Nat} (h : GrowsTo k r) (hjk : j ≤ k) :
    GrowsTo j r := by
  intro m' hr
  obtain ⟨l, hkl, hl, hcap⟩ := h m' hr
  exact ⟨l, Nat.le_trans hjk hkl, hl, hcap⟩

omit [Inhabited V] in
theorem growsTo_ok (hcap : m.capacity = 2 ^ j) (hj : j ≤ 30) : GrowsTo j (.ok m) := by
  rintro m' ⟨⟩
  exact ⟨j, Nat.le_refl j, hj, hcap⟩

omit [Inhabited V] in
theorem fill_alike (h : D.Alike D' j) (hcap : m.capacity = 2 ^ j) (hj : j ≤ 30) :
    GrowsTo j (fill S D m i key value) ∧ fill S D m i key value = fill S D' m i key value := by
  rw [fill, fill]
  let filled : LongMap V := { m.write i key value with size := m.size + 1 }
  have hfilled : filled.capacity = 2 ^ j := hcap
  by_cases hfull : S.threshold m.capacity ≤ m.size
  · rw [if_pos hfull, if_pos hfull]
    exact ⟨(h.grows_resize filled j (Nat.le_refl j) hj hfilled).mono (Nat.le_succ j),
      h.resize filled j (Nat.le_refl j) hj hfilled⟩
  · rw [if_neg hfull, if_neg hfull]
    exact ⟨growsTo_ok hcap hj, rfl⟩

omit [Inhabited V] in
theorem putStash_alike (h : D.Alike D' j) (hcap : m.capacity = 2 ^ j) (hj : j ≤ 30) :
    GrowsTo j (putStash S D m key value) ∧ putStash S D m key value = putStash S D' m key value := by
  rw [putStash, putStash]
  by_cases hfull : m.stashSize = S.stashCapacity m.capacity
  · rw [if_pos hfull, if_pos hfull, ← h.resize m j (Nat.le_refl j) hj hcap]
    have hgrows := h.grows_resize m j (Nat.le_refl j) hj hcap
    cases hresize : D.resize m with
    | error e => exact ⟨fun m' hm' => (by cases hm'), rfl⟩
    | ok m₁ =>
      obtain ⟨k, hjk, hk, hcap₁⟩ := hgrows m₁ hresize
      exact ⟨(h.grows_put m₁ key value k hjk hk hcap₁).mono (Nat.le_of_lt hjk),
        h.put m₁ key value k hjk hk hcap₁⟩
  · rw [if_neg hfull, if_neg hfull]
    exact ⟨growsTo_ok hcap hj, rfl⟩

omit [Inhabited V] in
theorem fillEmpty_alike {full full' : Except Thrown (LongMap V)} (h : D.Alike D' j)
    (hcap : m.capacity = 2 ^ j) (hj : j ≤ 30) (hfull : GrowsTo j full ∧ full = full') :
    GrowsTo j (fillEmpty S D m key value full) ∧
      fillEmpty S D m key value full = fillEmpty S D' m key value full' := by
  rw [fillEmpty, fillEmpty]
  by_cases h1 : m.keyAt (m.hash1 key) = 0
  · rw [if_pos h1, if_pos h1]
    exact fill_alike h hcap hj
  rw [if_neg h1, if_neg h1]
  by_cases h2 : m.keyAt (m.hash2 key) = 0
  · rw [if_pos h2, if_pos h2]
    exact fill_alike h hcap hj
  rw [if_neg h2, if_neg h2]
  by_cases h3 : m.keyAt (m.hash3 key) = 0
  · rw [if_pos h3, if_pos h3]
    exact fill_alike h hcap hj
  rw [if_neg h3, if_neg h3]
  exact hfull

theorem push_alike (h : D.Alike D' j) (hcap : m.capacity = 2 ^ j) (hj : j ≤ 30) :
    GrowsTo j (push S D n m key value) ∧ push S D n m key value = push S D' n m key value := by
  induction n generalizing m key value with
  | zero => exact putStash_alike h hcap hj
  | succ n ih => exact fillEmpty_alike h hcap hj (ih hcap)

theorem putNew_alike (h : D.Alike D' j) (hcap : m.capacity = 2 ^ j) (hj : j ≤ 30) (key : UInt64)
    (value : V) :
    GrowsTo j (putNew S D m key value) ∧ putNew S D m key value = putNew S D' m key value :=
  fillEmpty_alike h hcap hj (push_alike h hcap hj)

omit [Inhabited V] in
theorem Doubling.Alike.mono {k : Nat} (h : D.Alike D' j) (hjk : j ≤ k) : D.Alike D' k where
  grows_resize m l hl := h.grows_resize m l (Nat.le_trans hjk hl)
  grows_put m key value l hl := h.grows_put m key value l (Nat.lt_of_le_of_lt hjk hl)
  resize m l hl := h.resize m l (Nat.le_trans hjk hl)
  put m key value l hl := h.put m key value l (Nat.lt_of_le_of_lt hjk hl)

theorem reinsert_alike (h : D.Alike D' j) {m₁ : LongMap V} {is : List Nat} {k : Nat} (hjk : j ≤ k)
    (hk : k ≤ 30) (hcap : m₁.capacity = 2 ^ k) :
    GrowsTo j (is.foldlM (fun m' i =>
      if m.keyAt i = 0 then .ok m' else putResize S D m' (m.keyAt i) (m.valueAt i)) m₁) ∧
    is.foldlM (fun m' i =>
      if m.keyAt i = 0 then .ok m' else putResize S D m' (m.keyAt i) (m.valueAt i)) m₁ =
    is.foldlM (fun m' i =>
      if m.keyAt i = 0 then .ok m' else putResize S D' m' (m.keyAt i) (m.valueAt i)) m₁ := by
  induction is generalizing m₁ k with
  | nil => exact ⟨(growsTo_ok hcap hk).mono hjk, rfl⟩
  | cons i is ih =>
    rw [List.foldlM_cons, List.foldlM_cons]
    by_cases hz : m.keyAt i = 0
    · rw [if_pos hz, if_pos hz]
      exact ih hjk hk hcap
    · rw [if_neg hz, if_neg hz, putResize, putResize, if_neg hz, if_neg hz]
      obtain ⟨hgrows, hsame⟩ := putNew_alike (S := S) (h.mono hjk) hcap hk (m.keyAt i) (m.valueAt i)
      rw [← hsame]
      cases hput : putNew S D m₁ (m.keyAt i) (m.valueAt i) with
      | error e => exact ⟨fun m' hm' => (by cases hm'), rfl⟩
      | ok m₂ =>
        obtain ⟨l, hkl, hl, hcap₂⟩ := hgrows m₂ hput
        exact ih (Nat.le_trans hjk hkl) hl hcap₂

theorem resize_alike (h : D.Alike D' j) (hj : j ≤ 30) :
    GrowsTo j (LongMap.resize S D m (2 ^ j)) ∧
      LongMap.resize S D m (2 ^ j) = LongMap.resize S D' m (2 ^ j) := by
  rw [LongMap.resize, LongMap.resize]
  by_cases hsize : 0 < m.size
  · rw [if_pos hsize, if_pos hsize]
    exact reinsert_alike h (Nat.le_refl j) hj rfl
  · rw [if_neg hsize, if_neg hsize]
    exact ⟨growsTo_ok rfl hj, rfl⟩

theorem putWith_alike (h : D.Alike D' j) (hcap : m.capacity = 2 ^ j) (hj : j ≤ 30) (key : UInt64)
    (value : V) :
    GrowsTo j ((putWith S D m key value).map Prod.snd) ∧
      putWith S D m key value = putWith S D' m key value := by
  rw [putWith, putWith]
  by_cases hz : key = 0
  · rw [if_pos hz, if_pos hz]
    exact ⟨growsTo_ok hcap hj, rfl⟩
  · rw [if_neg hz, if_neg hz]
    cases hfind : m.find key with
    | some i => exact ⟨growsTo_ok hcap hj, rfl⟩
    | none =>
      obtain ⟨hgrows, hsame⟩ := putNew_alike (S := S) h hcap hj key value
      simp only [← hsame]
      refine ⟨?_, trivial⟩
      cases hput : putNew S D m key value with
      | error e => exact fun m' hm' => (by cases hm')
      | ok m₁ =>
        rw [hput] at hgrows
        exact hgrows

/-- One level more makes no difference where the capacity can be doubled no more
often than there are levels. -/
theorem doubling_alike (S : Settings) (n : Nat) (hn : 30 ≤ j + n) :
    (doubling S n : Doubling V).Alike (doubling S (n + 1)) j := by
  induction n generalizing j with
  | zero =>
    constructor
    · rintro m k hjk hk hcap m' ⟨⟩
    · rintro m key value k hjk hk hcap m' ⟨⟩
    · intro m k hjk hk hcap
      have hk' : k = 30 := by omega
      subst hk'
      rw [doubling_resize, if_pos (Nat.le_of_eq hcap.symm)]
      rfl
    · intro m key value k hjk hk hcap
      omega
  | succ n ih =>
    have hresize : ∀ m : LongMap V, ∀ k, j ≤ k → k ≤ 30 → m.capacity = 2 ^ k →
        GrowsTo (k + 1) ((doubling S (n + 1)).resize m) ∧
          (doubling S (n + 1)).resize m = (doubling S (n + 2)).resize m := by
      intro m k hjk hk hcap
      rw [doubling_resize, doubling_resize]
      by_cases hmax : 2 ^ 30 ≤ m.capacity
      · rw [if_pos hmax, if_pos hmax]
        exact ⟨fun m' hm' => (by cases hm'), rfl⟩
      · have hlt : k < 30 := by
          by_contra hge
          exact hmax (hcap ▸ Nat.pow_le_pow_right (by decide) (Nat.le_of_not_lt hge))
        have htwice : 2 * m.capacity = 2 ^ (k + 1) := by rw [hcap, Nat.pow_succ, Nat.mul_comm]
        rw [if_neg hmax, if_neg hmax, htwice]
        exact resize_alike (ih (by omega)) hlt
    have hput : ∀ (m : LongMap V) key value, ∀ k, j < k → k ≤ 30 → m.capacity = 2 ^ k →
        GrowsTo k ((doubling S (n + 1)).put m key value) ∧
          (doubling S (n + 1)).put m key value = (doubling S (n + 2)).put m key value := by
      intro m key value k hjk hk hcap
      obtain ⟨hgrows, hsame⟩ := putWith_alike (S := S) (ih (show 30 ≤ k + n by omega)) hcap hk key value
      rw [doubling_put, doubling_put, ← hsame]
      exact ⟨hgrows, rfl⟩
    exact ⟨fun m k hjk hk hcap => (hresize m k hjk hk hcap).1,
      fun m key value k hjk hk hcap => (hput m key value k hjk hk hcap).1,
      fun m k hjk hk hcap => (hresize m k hjk hk hcap).2,
      fun m key value k hjk hk hcap => (hput m key value k hjk hk hcap).2⟩

/-- No call of `put` doubles the capacity more than thirty times. -/
theorem put_depth {f : UInt64 → Option V} (h : Represents S m f) (hn : 30 ≤ n) :
    putWith S (doubling S n) m key value = put S m key value := by
  obtain ⟨j, hj, hcap⟩ := h.capacity
  have hnext : ∀ n, 30 ≤ n → putWith S (doubling S n) m key value =
      putWith S (doubling S (n + 1)) m key value := fun n hn =>
    (putWith_alike (doubling_alike S n (Nat.le_trans hn (Nat.le_add_left n j))) hcap hj key value).2
  have hall : ∀ d, putWith S (doubling S (30 + d)) m key value = put S m key value := by
    intro d
    induction d with
    | zero => exact hnext 30 (Nat.le_refl 30)
    | succ d ih => rw [← ih, hnext (30 + d) (Nat.le_add_right _ _)]; rfl
  obtain ⟨d, rfl⟩ := Nat.exists_eq_add_of_le hn
  exact hall d

end Depth

section Runs

inductive Op (V : Type) where
  | get (key : UInt64) (defaultValue : V)
  | containsKey (key : UInt64)
  | put (key : UInt64) (value : V)
  | remove (key : UInt64)
  | clear
  | size

inductive Out (V : Type) where
  | value (v : V)
  | bool (b : Bool)
  | nat (n : Nat)
  | done
  | thrown

variable [Inhabited V]

def apply (S : Settings) (m : LongMap V) : Op V → Except Thrown (Out V × LongMap V)
  | .get key defaultValue => .ok (.value (m.get key defaultValue), m)
  | .containsKey key => .ok (.bool (m.containsKey key), m)
  | .put key value => (put S m key value).map fun p => (.value p.1, p.2)
  | .remove key => .ok (.value (m.remove key).1, (m.remove key).2)
  | .clear => .ok (.done, m.clear)
  | .size => .ok (.nat m.size, m)

/-- What a sequence of calls returns, up to an exception. -/
def run (S : Settings) (m : LongMap V) : List (Op V) → List (Out V)
  | [] => []
  | op :: ops =>
    match apply S m op with
    | .ok (out, m) => out :: run S m ops
    | .error _ => [.thrown]

/-- What a finite map answers, and the map after it. The default value is null. -/
def Answers (f : UInt64 → Option V) : Op V → Out V → (UInt64 → Option V) → Prop
  | .get key defaultValue, out, f' => out = .value ((f key).getD defaultValue) ∧ f' = f
  | .containsKey key, out, f' => out = .bool (f key).isSome ∧ f' = f
  | .put key value, out, f' =>
    out = .value ((f key).getD default) ∧ f' = Function.update f key (some value)
  | .remove key, out, f' => out = .value ((f key).getD default) ∧ f' = Function.update f key none
  | .clear, out, f' => out = .done ∧ f' = fun _ => none
  | .size, out, f' => (∃ n, out = .nat n ∧ SlotTable.HasSize f n) ∧ f' = f

/-- The results are those of a finite map. Only where a new key is put may the calls
end with an exception. -/
def Follows (f : UInt64 → Option V) : List (Op V) → List (Out V) → Prop
  | [], outs => outs = []
  | op :: ops, outs =>
    (∃ out f' outs', outs = out :: outs' ∧ Answers f op out f' ∧ Follows f' ops outs') ∨
      (outs = [.thrown] ∧ ∃ key value, op = .put key value ∧ f key = none)

variable {S : Settings} {m m' : LongMap V} {f : UInt64 → Option V} {key : UInt64}

theorem Represents.get_eq (h : Represents S m f) (defaultValue : V) :
    m.get key defaultValue = (f key).getD defaultValue := by
  rw [get]
  by_cases hz : key = 0
  · subst hz
    rw [if_pos rfl, h.zero]
    cases m.hasZeroValue <;> rfl
  · rw [if_neg hz]
    cases hfind : m.find key with
    | some i => rw [(h.find_some hz hfind).2.2]; rfl
    | none => rw [h.find_none hz hfind]; rfl

theorem Represents.containsKey_eq (h : Represents S m f) : m.containsKey key = (f key).isSome := by
  rw [containsKey]
  by_cases hz : key = 0
  · subst hz
    rw [if_pos rfl, h.zero]
    cases m.hasZeroValue <;> rfl
  · rw [if_neg hz]
    cases hfind : m.find key with
    | some i => rw [(h.find_some hz hfind).2.2]; rfl
    | none => rw [h.find_none hz hfind]; rfl

theorem Represents.remove_eq (h : Represents S m f) (key : UInt64) :
    (m.remove key).1 = (f key).getD default ∧ Represents S (m.remove key).2 (Function.update f key none) := by
  rw [remove]
  by_cases hz : key = 0
  · subst hz
    rw [if_pos rfl]
    have hzero := h.zero
    cases hhas : m.hasZeroValue with
    | true =>
      rw [hhas, if_pos rfl] at hzero
      rw [if_pos rfl, hzero]
      exact ⟨rfl, h.removeZero hhas⟩
    | false =>
      rw [hhas, if_neg (by decide)] at hzero
      rw [if_neg (by decide), hzero, Function.update_eq_self_iff.mpr hzero.symm]
      exact ⟨rfl, h⟩
  · rw [if_neg hz]
    cases hfind : m.find key with
    | some i =>
      obtain ⟨hin, hi, hold⟩ := h.find_some hz hfind
      simp only []
      by_cases hcap : i < m.capacity
      · rw [if_pos hcap, hold]
        exact ⟨rfl, h.empty hz hcap hi⟩
      · rw [if_neg hcap, hold]
        exact ⟨rfl, h.removeStash hz (Nat.le_of_not_lt hcap) hin hi⟩
    | none =>
      have hkey := h.find_none hz hfind
      simp only []
      rw [hkey, Function.update_eq_self_iff.mpr hkey.symm]
      exact ⟨rfl, h⟩

/-- A key that is there is put without new tables. -/
theorem Represents.put_present (h : Represents S m f) {v : V} (hkey : f key = some v) (value : V) :
    ∃ p, put S m key value = .ok p := by
  rw [put, putWith]
  by_cases hz : key = 0
  · rw [if_pos hz]
    exact ⟨_, rfl⟩
  · rw [if_neg hz]
    cases hfind : m.find key with
    | some i => exact ⟨_, rfl⟩
    | none =>
      rw [h.find_none hz hfind] at hkey
      cases hkey

theorem Represents.apply_ok {op : Op V} {out : Out V} (h : Represents S m f)
    (hrun : apply S m op = .ok (out, m')) : ∃ f', Answers f op out f' ∧ Represents S m' f' := by
  cases op with
  | get key defaultValue =>
    cases hrun
    exact ⟨f, ⟨by rw [h.get_eq], rfl⟩, h⟩
  | containsKey key =>
    cases hrun
    exact ⟨f, ⟨by rw [h.containsKey_eq], rfl⟩, h⟩
  | put key value =>
    rw [apply] at hrun
    cases hput : put S m key value with
    | error e =>
      rw [hput] at hrun
      cases hrun
    | ok p =>
      rw [hput] at hrun
      cases hrun
      obtain ⟨hold, hnext⟩ := h.putWith_ok (doubling_sound S 31) hput
      exact ⟨_, ⟨by rw [hold], rfl⟩, hnext⟩
  | remove key =>
    cases hrun
    obtain ⟨hold, hnext⟩ := h.remove_eq key
    exact ⟨_, ⟨by rw [hold], rfl⟩, hnext⟩
  | clear =>
    cases hrun
    exact ⟨_, ⟨rfl, rfl⟩, h.clear⟩
  | size =>
    cases hrun
    exact ⟨f, ⟨⟨m.size, rfl, h.size⟩, rfl⟩, h⟩

theorem Represents.apply_error {op : Op V} {e : Thrown} (h : Represents S m f)
    (hrun : apply S m op = .error e) : ∃ key value, op = .put key value ∧ f key = none := by
  cases op with
  | put key value =>
    refine ⟨key, value, rfl, ?_⟩
    cases hkey : f key with
    | none => rfl
    | some v =>
      obtain ⟨p, hput⟩ := h.put_present hkey value
      rw [apply, hput] at hrun
      cases hrun
  | get key defaultValue => cases hrun
  | containsKey key => cases hrun
  | remove key => cases hrun
  | clear => cases hrun
  | size => cases hrun

theorem Represents.follows (h : Represents S m f) (ops : List (Op V)) : Follows f ops (run S m ops) := by
  induction ops generalizing m f with
  | nil => rfl
  | cons op ops ih =>
    rw [run]
    cases hrun : apply S m op with
    | ok p =>
      obtain ⟨f', hanswers, hnext⟩ := h.apply_ok hrun
      exact .inl ⟨p.1, f', run S p.2 ops, rfl, hanswers, ih hnext⟩
    | error e => exact .inr ⟨rfl, h.apply_error hrun⟩

end Runs

end LongMap

end Arcueid.Neko
