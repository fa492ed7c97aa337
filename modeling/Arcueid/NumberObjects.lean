import Mathlib.Data.Rat.Floor
import Arcueid.Arith

/-! Number objects and the arithmetic of `arith.c` on two of them, as words and
`mpz_t` and `mpq_t` hold them. No invariant is assumed of an object here; a
signed operation that overflows a `long` is undefined. -/

namespace Arcueid

open Numeral

/-- Doubles, with the values of the finite ones, NaNs, and the order against 0. -/
structure Doubles (F : Type) extends Floats F where
  value : F → Option ℚ
  isNan : F → Bool
  positive : F → Bool
  negative : F → Bool

namespace Exact

/-- A value as far as arithmetic tells values apart. -/
inductive Obj (F : Type) where
  | fixnum (n : Int)
  | bignum (n : Int)
  | rational (q : ℚ)
  | flonum (f : F)
  | complex (z : F × F)
  | other (type : Nat)
  deriving DecidableEq

variable {F : Type}

namespace Obj

def type : Obj F → Nat
  | .fixnum _ => 2
  | .bignum _ => 3
  | .flonum _ => 4
  | .rational _ => 5
  | .complex _ => 6
  | .other t => t

def isRational : Obj F → Bool
  | .rational _ => true
  | _ => false

def isFlonum : Obj F → Bool
  | .flonum _ => true
  | _ => false

def isComplex : Obj F → Bool
  | .complex _ => true
  | _ => false

/-- Only numbers have a coercion function. -/
def hasCoercefn : Obj F → Bool
  | .other _ => false
  | _ => true

end Obj

section Long

/-- The result of a signed operation on `long`s. -/
def long (n : Int) : Except Stop Int :=
  if -2 ^ 63 ≤ n ∧ n < 2 ^ 63 then pure n else throw .undefined

/-- `ABS`. -/
def absLong (n : Int) : Except Stop Int := if 0 ≤ n then pure n else long (-n)

/-- `INT2FIX`, which shifts its argument. -/
def int2fix (n : Int) : Except Stop (Obj F) := do
  let _ ← long (2 * n)
  pure (.fixnum n)

def ldiv (m n : Int) : Except Stop (Int × Int) :=
  if n = 0 then throw .undefined else do
  let quot ← long (m.tdiv n)
  pure (quot, m.tmod n)

/-- The loop of `hibit`. -/
def hibitFrom (n ret : Nat) : Nat :=
  if n >>> 1 = 0 then ret else hibitFrom (n >>> 1) (ret + 1)
termination_by n
decreasing_by
  rw [Nat.shiftRight_one] at *
  omega

def hibit (n : Nat) : Nat := if n = 0 then 0 else hibitFrom n 1

theorem hibitFrom_eq {n : Nat} (hn : n ≠ 0) (ret : Nat) : hibitFrom n ret + 1 = ret + n.size := by
  induction n using Nat.strong_induction_on generalizing ret with
  | _ n ih =>
    have hsize : n.size = (n / 2).size + 1 := by
      have hbit := Nat.size_bit (b := n.bodd) (n := n.div2) (by rwa [Nat.bit_bodd_div2])
      rwa [Nat.bit_bodd_div2, Nat.div2_val] at hbit
    rw [hibitFrom, Nat.shiftRight_one]
    by_cases h : n / 2 = 0
    · have hhalf : (n / 2).size = 0 := by rw [h, Nat.size_zero]
      rw [if_pos h]
      omega
    · have hrec := ih (n / 2) (by omega) h (ret + 1)
      rw [if_neg h]
      omega

theorem hibit_eq (n : Nat) : hibit n = n.size := by
  rw [hibit]
  split
  · rename_i h
    rw [h, Nat.size_zero]
  · rename_i h
    have hloop := hibitFrom_eq h 1
    omega

theorem long_eq {n : Int} (h : -2 ^ 63 ≤ n ∧ n < 2 ^ 63) : long n = .ok n := if_pos h

theorem absLong_eq {n : Int} (h : -2 ^ 63 < n) (h' : n < 2 ^ 63) : absLong n = .ok |n| := by
  rw [absLong]
  split
  · rename_i hn
    rw [abs_of_nonneg hn]
    rfl
  · rename_i hn
    rw [long_eq (by omega), abs_of_neg (by omega)]

theorem int2fix_eq {n : Int} (h : -2 ^ 62 ≤ n ∧ n < 2 ^ 62) :
    int2fix n = .ok (.fixnum n : Obj F) := by
  rw [int2fix, long_eq (by omega)]
  rfl

end Long

def bignumFixnum (n : Int) : Except Stop (Obj F) :=
  if 0 ≤ n ∧ n ≤ fixnumMax ∨ n < 0 ∧ -fixnumMax ≤ n then int2fix n else pure (.bignum n)

def rationalInt (q : ℚ) : Except Stop (Obj F) :=
  if q.den ≠ 1 then pure (.rational q)
  else if q > fixnumMax ∨ q < -fixnumMax then pure (.bignum (q.num.tdiv q.den))
  else int2fix (q.num.tdiv q.den)

section Coercion

variable (d : Doubles F)

/-- The conversion of a double to an integer. -/
def truncate (q : ℚ) : Int := if 0 ≤ q then ⌊q⌋ else ⌈q⌉

/-- The test of the last bit, after a conversion to an `int`. -/
def intOdd (base : Int) : Except Stop Bool :=
  if -2 ^ 31 ≤ base ∧ base < 2 ^ 31 then pure (base % 2 = 1) else throw .undefined

/-- Whether the coercions of a double with the value `q` add 1. -/
def roundsUp (q : ℚ) : Except Stop Bool :=
  let base := ⌊q⌋
  let drem := q - base
  if drem > 1 / 2 then pure true
  else if drem = 1 / 2 then intOdd base
  else pure false

/-- What `mpz_set_d` and the test after it make of a double. -/
def roundDouble (q : ℚ) : Except Stop Int := do
  if ← roundsUp q then pure (truncate q + 1) else pure (truncate q)

def coerceComplex : Obj F → Except Stop (F × F)
  | .fixnum n => pure (d.add (d.ofFixnum n) d.zero, d.zero)
  | .bignum n => pure (d.add (d.ofBignum n) d.zero, d.zero)
  | .rational q => pure (d.add (d.ofRational q) d.zero, d.zero)
  | .flonum f => pure (d.add f d.zero, d.zero)
  | .complex z => pure z
  | .other _ => throw .undefined

def coerceFlonum : Obj F → Except Stop F
  | .fixnum n => pure (d.ofFixnum n)
  | .bignum n => pure (d.ofBignum n)
  | .rational q => pure (d.ofRational q)
  | .flonum f => pure f
  | .complex z => pure z.1
  | .other _ => throw .undefined

/-- `mpq_set_d` takes finite doubles only. -/
def coerceRational : Obj F → Except Stop ℚ
  | .fixnum n => pure (mkrationall n 1)
  | .bignum n => pure n
  | .rational q => pure q
  | .flonum f => match d.value f with
    | some q => pure q
    | none => throw .undefined
  | .complex z => match d.value z.1 with
    | some q => pure q
    | none => throw .undefined
  | .other _ => throw .undefined

/-- Doubles that are not finite become nil, where the caller looks for an `mpz_t`. -/
def coerceBignum : Obj F → Except Stop Int
  | .fixnum n => pure n
  | .bignum n => pure n
  | .rational q => pure (q.num.tdiv q.den)
  | .flonum f => match d.value f with
    | some q => roundDouble q
    | none => throw .undefined
  | .complex z => match d.value z.1 with
    | some q => roundDouble q
    | none => throw .undefined
  | .other _ => throw .undefined

/-- The functions that `TYPE_CASES` chooses from. -/
structure Cases (F : Type) where
  complex : F × F → F × F → Except Stop (Obj F)
  flonum : F → F → Except Stop (Obj F)
  rational : ℚ → ℚ → Except Stop (Obj F)
  bignum : Int → Int → Except Stop (Obj F)

/-- `TYPE_CASES`, and the error behind it. -/
def typeCases (func : Cases F) (invalid : String) (arg1 arg2 : Obj F) : Except Stop (Obj F) :=
  if !arg1.hasCoercefn || !arg2.hasCoercefn then
    throw (.error s!"cannot coerce {arg1.type} {arg2.type}")
  else if arg1.isComplex || arg2.isComplex then do
    func.complex (← coerceComplex d arg1) (← coerceComplex d arg2)
  else if arg1.isFlonum || arg2.isFlonum then do
    func.flonum (← coerceFlonum d arg1) (← coerceFlonum d arg2)
  else if arg1.isRational || arg2.isRational then do
    func.rational (← coerceRational d arg1) (← coerceRational d arg2)
  else if arg1.type = 3 || arg2.type = 3 then do
    func.bignum (← coerceBignum d arg1) (← coerceBignum d arg2)
  else throw (.error invalid)

end Coercion

section Operations

variable (d : Doubles F)

def addCases : Cases F where
  complex z w := pure (.complex (d.add z.1 w.1, d.add z.2 w.2))
  flonum f g := pure (.flonum (d.add f g))
  rational q r := rationalInt (q + r)
  bignum m n := bignumFixnum (m + n)

def subCases : Cases F where
  complex z w := pure (.complex (d.sub z.1 w.1, d.sub z.2 w.2))
  flonum f g := pure (.flonum (d.sub f g))
  rational q r := rationalInt (q - r)
  bignum m n := bignumFixnum (m - n)

def mulCases : Cases F where
  complex z w := pure (.complex (d.cmul z w))
  flonum f g := pure (.flonum (d.mul f g))
  rational q r := rationalInt (q * r)
  bignum m n := bignumFixnum (m * n)

def divRational (q r : ℚ) : Except Stop (Obj F) :=
  if 0 = r then throw (.error "Division by zero") else rationalInt (q / r)

def divCases : Cases F where
  complex z w :=
    if d.isZero w.1 && d.isZero w.2 then throw (.error "Division by zero")
    else pure (.complex (d.cdiv z w))
  flonum f g :=
    if d.isZero g then throw (.error "Division by zero") else pure (.flonum (d.div f g))
  rational := divRational
  bignum m n := divRational m n

/-- The end of `__arc_add2` and `__arc_sub2` on fixnums, and of `__arc_div2` when
nothing remains. -/
def fixnumResult (n : Int) : Except Stop (Obj F) := do
  if (← absLong n) > fixnumMax then pure (.bignum n) else int2fix n

/-- `__arc_add2` on numbers. -/
def add2 : Obj F → Obj F → Except Stop (Obj F)
  | .fixnum m, .fixnum n => do fixnumResult (← long (m + n))
  | arg1, arg2 => typeCases d (addCases d) "Invalid types for addition" arg1 arg2

def sub2 : Obj F → Obj F → Except Stop (Obj F)
  | .fixnum m, .fixnum n => do fixnumResult (← long (m - n))
  | arg1, arg2 => typeCases d (subCases d) "Invalid types for subtraction" arg1 arg2

def mul2 : Obj F → Obj F → Except Stop (Obj F)
  | .fixnum m, .fixnum n => do
    if hibit (← absLong m).toNat + hibit (← absLong n).toNat ≥ hibit fixnumMax.toNat then
      (mulCases d).bignum m n
    else int2fix (← long (m * n))
  | arg1, arg2 => typeCases d (mulCases d) "Invalid types for multiplication" arg1 arg2

def div2 : Obj F → Obj F → Except Stop (Obj F)
  | .fixnum m, .fixnum n =>
    if n = 0 then throw (.error "Division by zero") else do
    let res ← ldiv m n
    if res.2 = 0 then fixnumResult res.1 else pure (.rational (mkrationall m n))
  | arg1, arg2 => typeCases d (divCases d) "Invalid types for division" arg1 arg2

def compare (positive negative : Bool) : Except Stop (Obj F) :=
  if positive then int2fix 1 else if negative then int2fix (-1) else int2fix 0

def numcmp (v1 v2 : Obj F) : Except Stop (Obj F) := do
  match ← sub2 d v1 v2 with
  | .fixnum n => compare (0 < n) (n < 0)
  | .flonum f => compare (d.positive f) (d.negative f)
  | .bignum n => int2fix n.sign
  | .rational q => int2fix q.num.sign
  | _ => throw (.error "Invalid types for numeric comparison")

def Obj.isInteger : Obj F → Bool
  | .fixnum _ | .bignum _ => true
  | _ => false

/-- The quotient and the remainder of `mpz_fdiv_q` and `mpz_fdiv_r`. -/
def mpzFdiv (m n : Int) : Except Stop (Int × Int) :=
  if n = 0 then throw .undefined else pure (m.fdiv n, m.fmod n)

def idiv2 : Obj F → Obj F → Except Stop (Obj F)
  | _, .fixnum 0 => throw (.error "Division by zero")
  | .fixnum m, .fixnum n => do int2fix (← ldiv m n).1
  | arg1, arg2 =>
    -- the source asks for the type of its first argument twice
    if arg1.isInteger && arg1.isInteger then do
      bignumFixnum (← mpzFdiv (← coerceBignum d arg1) (← coerceBignum d arg2)).1
    else throw (.error "Invalid types for idiv")

def mod2 : Obj F → Obj F → Except Stop (Obj F)
  | _, .fixnum 0 => throw (.error "Division by zero")
  | .fixnum m, .fixnum n => do
    let res ← ldiv m n
    if m < 0 ∧ n > 0 ∨ m > 0 ∧ n < 0 then int2fix (← ldiv (← long (res.2 + n)) n).2
    else int2fix res.2
  | arg1, arg2 =>
    if arg1.isInteger && arg1.isInteger then do
      bignumFixnum (← mpzFdiv (← coerceBignum d arg1) (← coerceBignum d arg2)).2
    else throw (.error "Invalid types for modulus")

end Operations

end Exact

end Arcueid
