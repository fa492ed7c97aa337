import Mathlib.Data.Fin.VecNotation
import Arcueid.Iso

/-! The general hash function `arc_xhash`, which keeps its state in a vector of
fixnums and goes into conses, vectors and tables. -/

namespace Arcueid.Objects

section Encoding

/-- The vector that holds a hash state, `ENC_VEC_LEN` fixnums. -/
abbrev EncVec := Fin 7 → Int

/-- `(w >> shift) & MASK` as a fixnum. -/
def encHalf (w : BitVec 64) (shift : Nat) : Int := int2fix ((w >>> shift) &&& 0xffffffff)

/-- `FIX2INT(n) & MASK`. -/
def decHalf (n : Int) : BitVec 64 := BitVec.ofInt 64 n &&& 0xffffffff

def encodeHs (hs : ArcHs) : EncVec :=
  ![encHalf hs.s0 0, encHalf hs.s0 32, encHalf hs.s1 0, encHalf hs.s1 32,
    encHalf hs.s2 0, encHalf hs.s2 32, hs.state]

def decodeHs (enc : EncVec) : ArcHs where
  s0 := decHalf (enc 0) ||| decHalf (enc 1) <<< 32
  s1 := decHalf (enc 2) ||| decHalf (enc 3) <<< 32
  s2 := decHalf (enc 4) ||| decHalf (enc 5) <<< 32
  state := (enc 6).toNat

theorem getLsbD_int2fix (w : BitVec 64) {i : Nat} (hi : i < 63) :
    (BitVec.ofInt 64 (int2fix w)).getLsbD i = w.getLsbD i := by
  have h63 : BitVec.ofInt 64 (int2fix w) = (w.setWidth 63).signExtend 64 := rfl
  have h64 : i < 64 := by omega
  rw [h63, BitVec.getLsbD_signExtend, if_pos hi, BitVec.getLsbD_setWidth]
  simp [hi, h64]

theorem getLsbD_mask (i : Nat) : (0xffffffff : BitVec 64).getLsbD i = decide (i < 32) := by
  have hmask : (0xffffffff : BitVec 64) = (BitVec.allOnes 32).setWidth 64 := by decide
  rw [hmask, BitVec.getLsbD_setWidth, BitVec.getLsbD_allOnes]
  by_cases hi : i < 32
  · simp [hi, show i < 64 by omega]
  · simp [hi]

theorem getLsbD_decHalf_encHalf (w : BitVec 64) (shift i : Nat) :
    (decHalf (encHalf w shift)).getLsbD i = (decide (i < 32) && w.getLsbD (shift + i)) := by
  rw [decHalf, encHalf, BitVec.getLsbD_and, getLsbD_mask]
  by_cases hi : i < 32
  · rw [getLsbD_int2fix _ (by omega), BitVec.getLsbD_and, getLsbD_mask,
      BitVec.getLsbD_ushiftRight]
    simp [hi]
  · simp [hi]

theorem decode_halves (w : BitVec 64) :
    decHalf (encHalf w 0) ||| decHalf (encHalf w 32) <<< 32 = w := by
  apply BitVec.eq_of_getLsbD_eq
  intro i hi
  rw [BitVec.getLsbD_or, BitVec.getLsbD_shiftLeft, getLsbD_decHalf_encHalf,
    getLsbD_decHalf_encHalf]
  by_cases h32 : i < 32
  · simp [h32]
  · simp [h32, hi, show i - 32 < 32 by omega, show 32 + (i - 32) = i by omega]

@[simp] theorem decodeHs_encodeHs (hs : ArcHs) : decodeHs (encodeHs hs) = hs := by
  obtain ⟨s0, s1, s2, state⟩ := hs
  simp [decodeHs, encodeHs, decode_halves]

end Encoding

structure Hashing where
  ehs : EncVec
  /-- The table of objects visited, made by the first object that needs it. -/
  visithash : Option VisitTable

abbrev XhashM := StateT Hashing (Except Fault)

def setEhs (hs : ArcHs) : XhashM Unit := modify fun s => { s with ehs := encodeHs hs }

/-- Whether the object was visited before. -/
def xhashVisit (fuel : Nat) (v : Val) : XhashM Bool := do
  let s ← get
  let (val, tbl) ← arcVisit fuel v (s.visithash.getD (arcMkhash arcHashbits))
  set { s with visithash := some tbl }
  return val ≠ .nil

section Hashers

variable (fuel : Nat) (incr : Val → XhashM Int)

def consXhash (v car cdr : Val) (length : Int) : XhashM Int := do
  if ← xhashVisit fuel v then
    return length
  let length := length + (← incr car)
  return length + (← incr cdr)

def vectorXhash (v : Val) (elts : List Val) (length : Int) : XhashM Int := do
  if ← xhashVisit fuel v then
    return length
  elts.foldlM (fun length elt => return length + (← incr elt)) length

/-- The bindings in the order of `arc_xhash_iter`. -/
def bindings (tbl : Table Val Val) : List (Val × Option Val) :=
  (List.range tbl.tablesize).filterMap fun i =>
    match tbl.slot i with
    | .bucket e => some (e.bkey, e.bvalue)
    | _ => none

/-- The marker `CUNBOUND` has no type functions. -/
def incrBound : Option Val → XhashM Int
  | some v => incr v
  | none => throw .noTypefn

def hashXhash (v : Val) (tbl : Table Val Val) (length : Int) : XhashM Int := do
  if ← xhashVisit fuel v then
    return length
  (bindings tbl).foldlM
    (fun length (key, val) => do
      let length := length + (← incr key)
      return length + (← incrBound incr val))
    length

end Hashers

def arcXhashIncrement (h : Heap) : Nat → Val → XhashM Int
  | 0, _ => throw .spent
  | fuel + 1, v => do
    let hs := arcHashUpdate (decodeHs (← get).ehs) (typeWord h v)
    match v with
    | .nil =>
      setEhs hs
      return 1
    | .fixnum n =>
      setEhs (arcHashUpdate hs (BitVec.ofInt 64 n))
      return 1
    | .symbol id =>
      setEhs (arcHashUpdate hs (BitVec.ofNat 64 id))
      return 1
    | .obj a =>
      match (h a).hash? with
      | some hash =>
        setEhs (hash hs).1
        return int2fix (hash hs).2
      | none =>
        setEhs hs
        match h a with
        | .cons car cdr => consXhash fuel (arcXhashIncrement h fuel) v car cdr 1
        | .vector elts => vectorXhash fuel (arcXhashIncrement h fuel) v elts 1
        | .table tbl => hashXhash fuel (arcXhashIncrement h fuel) v tbl 1
        | _ => throw (.noHasher .tNil) -- the type of `v` itself, which is the number of a slot

def arcXhash (h : Heap) (fuel : Nat) (v : Val) : Except Fault Int := do
  let (len, s) ← (arcXhashIncrement h fuel v).run ⟨encodeHs (arcHashInit 0), none⟩
  return int2fix (arcHashFinal (decodeHs s.ehs) (BitVec.ofInt 64 len))

end Arcueid.Objects
