import Mathlib.Data.Nat.Digits.Defs
import Mathlib.Data.Rat.Defs
import Arcueid.Hash

/-! Objects behind values: type numbers, `arc_is2`, and the simple hash function
with the hashers of the types it knows. -/

namespace Arcueid.Objects

abbrev Rune := BitVec 32

/-- A value: an immediate, or the address of an object. -/
inductive Val where
  | nil
  | fixnum (n : Int)
  | symbol (id : Nat)
  | obj (addr : Nat)
  deriving DecidableEq

inductive Obj where
  | char (r : Rune)
  | string (str : List Rune)
  | bignum (n : Int)
  | rational (q : Rat)
  | flonum (bits : BitVec 64)
  | cons (car cdr : Val)
  | vector (elts : List Val)
  | table (tbl : Table Val Val)

abbrev Heap := Nat → Obj

inductive ArcType where
  | tNil | tFixnum | tBignum | tFlonum | tRational | tChar | tString | tSymbol
  | tCons | tTable | tVector | tNone
  deriving DecidableEq

def ArcType.num : ArcType → Nat
  | .tNil => 0
  | .tFixnum => 2
  | .tBignum => 3
  | .tFlonum => 4
  | .tRational => 5
  | .tChar => 7
  | .tString => 8
  | .tSymbol => 9
  | .tCons => 10
  | .tTable => 11
  | .tVector => 19
  | .tNone => 64

def Obj.type : Obj → ArcType
  | .char _ => .tChar
  | .string _ => .tString
  | .bignum _ => .tBignum
  | .rational _ => .tRational
  | .flonum _ => .tFlonum
  | .cons _ _ => .tCons
  | .vector _ => .tVector
  | .table _ => .tTable

def typeOf (h : Heap) : Val → ArcType
  | .nil => .tNil
  | .fixnum _ => .tFixnum
  | .symbol _ => .tSymbol
  | .obj a => (h a).type

/-- What can go wrong below: a loop or recursion that has not ended within the
given bound, an error of the interpreter, or a read outside of an object. -/
inductive Fault where
  | spent
  | noHasher (type : ArcType)
  | noTypefn
  | outsideFrame (slot : Int)
  | outsideVector (index : Int)
  deriving DecidableEq

section Comparison

def flonumNan (b : BitVec 64) : Bool :=
  b.extractLsb' 52 11 == BitVec.allOnes 11 && b.extractLsb' 0 52 != 0

def flonumZero (b : BitVec 64) : Bool := b.extractLsb' 0 63 == 0

/-- `==` on doubles. -/
def flonumEq (b b' : BitVec 64) : Bool :=
  !flonumNan b && !flonumNan b' && (b == b' || flonumZero b && flonumZero b')

def arcStrcmp : List Rune → List Rune → Int
  | r1 :: s1, r2 :: s2 =>
    if r1.toInt > r2.toInt then 1
    else if r1.toInt < r2.toInt then -1
    else arcStrcmp s1 s2
  | _ :: _, [] => 1
  | [], _ :: _ => -1
  | [], [] => 0

/-- The `iscmp` of the two objects' type, if it has one. -/
def iscmp : Obj → Obj → Bool
  | .char r, .char r' => r == r'
  | .string s, .string s' => arcStrcmp s s' == 0
  | .bignum n, .bignum n' => n == n'
  | .rational q, .rational q' => q == q'
  | .flonum b, .flonum b' => flonumEq b b'
  | _, _ => false

def arcIs2 (h : Heap) (a b : Val) : Bool :=
  if a = b then true
  else if typeOf h a ≠ typeOf h b then false
  else
    match a, b with
    | .obj x, .obj y => iscmp (h x) (h y)
    | _, _ => false

theorem arcStrcmp_eq_zero {s s' : List Rune} : arcStrcmp s s' = 0 ↔ s = s' := by
  fun_induction arcStrcmp s s' with
  | case1 r1 s1 r2 s2 hgt => simp; intro h; subst h; omega
  | case2 r1 s1 r2 s2 _ hlt => simp; intro h; subst h; omega
  | case3 r1 s1 r2 s2 hgt hlt ih =>
    have hr : r1 = r2 := BitVec.eq_of_toInt_eq (by omega)
    simp [ih, hr]
  | case4 => simp
  | case5 => simp
  | case6 => simp

/-- The two zeros, which are equal as doubles. -/
def SignedZeros (b b' : BitVec 64) : Prop := flonumZero b ∧ flonumZero b' ∧ b ≠ b'

instance (b b' : BitVec 64) : Decidable (SignedZeros b b') := inferInstanceAs (Decidable (_ ∧ _))

theorem flonumEq_iff {b b' : BitVec 64} :
    flonumEq b b' = true ↔
      flonumNan b = false ∧ flonumNan b' = false ∧ (b = b' ∨ SignedZeros b b') := by
  by_cases hb : b = b' <;> simp [flonumEq, SignedZeros, hb, and_assoc]

theorem eq_or_zeros_of_iscmp {o o' : Obj} (heq : iscmp o o' = true) :
    o = o' ∨ ∃ w w', o = .flonum w ∧ o' = .flonum w' ∧ SignedZeros w w' := by
  cases o <;> cases o' <;> simp only [iscmp, reduceCtorEq, beq_iff_eq] at heq
  case char => exact .inl (by rw [heq])
  case string => exact .inl (by rw [arcStrcmp_eq_zero.mp heq])
  case bignum => exact .inl (by rw [heq])
  case rational => exact .inl (by rw [heq])
  case flonum w w' =>
    obtain ⟨-, -, rfl | hz⟩ := flonumEq_iff.mp heq
    · exact .inl rfl
    · exact .inr ⟨w, w', rfl, rfl, hz⟩

end Comparison

section Hashing

/-- The bytes of a double in memory, the least significant first. -/
def flonumBytes (b : BitVec 64) : List (BitVec 8) :=
  (List.range 8).map fun i => b.extractLsb' (8 * i) 8

/-- Each byte is a signed `char`. -/
def flonumHash (b : BitVec 64) (s : ArcHs) : ArcHs × BitVec 64 :=
  ((flonumBytes b).foldl (fun s byte => arcHashUpdate s (byte.signExtend 64)) s, 1)

def charHash (r : Rune) (s : ArcHs) : ArcHs × BitVec 64 :=
  (arcHashUpdate s (r.signExtend 64), 1)

def stringHash (str : List Rune) (s : ArcHs) : ArcHs × BitVec 64 :=
  (str.foldl (fun s r => arcHashUpdate s (r.signExtend 64)) s, BitVec.ofNat 64 str.length)

/-- The words `mpz_export` writes: the magnitude, its most significant word first. -/
def mpzExport (n : Int) : List (BitVec 64) :=
  (Nat.digits (2 ^ 64) n.natAbs).reverse.map (BitVec.ofNat 64)

def bignumHash2 (n : Int) (s : ArcHs) : ArcHs × BitVec 64 :=
  ((mpzExport n).foldl arcHashUpdate s, BitVec.ofNat 64 (mpzExport n).length)

def rationalHash (q : Rat) (s : ArcHs) : ArcHs × BitVec 64 :=
  let (s, count) := bignumHash2 q.num s
  let (s, count') := bignumHash2 q.den s
  (s, count + count')

/-- The `hash` of the object's type, if it has one. -/
def Obj.hash? : Obj → Option (ArcHs → ArcHs × BitVec 64)
  | .char r => some (charHash r)
  | .string str => some (stringHash str)
  | .bignum n => some (bignumHash2 n)
  | .rational q => some (rationalHash q)
  | .flonum b => some (flonumHash b)
  | .cons _ _ => none
  | .vector _ => none
  | .table _ => none

/-- `(unsigned long)TYPE(v)`. -/
def typeWord (h : Heap) (v : Val) : BitVec 64 := BitVec.ofNat 64 (typeOf h v).num

def arcHashIncrement (h : Heap) (v : Val) (s : ArcHs) : Except Fault (ArcHs × BitVec 64) :=
  let s := arcHashUpdate s (typeWord h v)
  match v with
  | .nil => .ok (s, 1)
  | .fixnum n => .ok (arcHashUpdate s (BitVec.ofInt 64 n), 1)
  | .symbol id => .ok (arcHashUpdate s (BitVec.ofNat 64 id), 1)
  | .obj a =>
    match (h a).hash? with
    | some hash => .ok (hash s)
    | none => .error (.noHasher (h a).type)

def arcHashLevel (h : Heap) (v : Val) (level : BitVec 64) : Except Fault (BitVec 64) := do
  let (s, len) ← arcHashIncrement h v (arcHashInit level)
  return arcHashFinal s len

def arcHash (h : Heap) (v : Val) : Except Fault (BitVec 64) := arcHashLevel h v 0

end Hashing

end Arcueid.Objects
