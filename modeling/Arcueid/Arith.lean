import Mathlib.Data.Nat.Size
import Arcueid.Lib.Descent
import Arcueid.Reader

/-! Arithmetic on two arguments, strings and lists included (`arith.c`), and
what it uses of `cons.c` and of the coercion functions. Floating point is left
to the parameter `Floats`. -/

namespace Arcueid

open Numeral Reader

/-- Doubles: conversion from fixnums, from `mpz_t` and from `mpq_t`, arithmetic,
that of complex numbers, and the texts of `snprintf`. -/
structure Floats (F : Type) where
  ofFixnum : Int → F
  ofBignum : Int → F
  ofRational : ℚ → F
  negZero : F
  add : F → F → F
  sub : F → F → F
  mul : F → F → F
  div : F → F → F
  cmul : F × F → F × F → F × F
  cdiv : F × F → F × F → F × F
  isZero : F → Bool
  text : F → List Nat
  complexText : F × F → List Nat

variable {F : Type}

namespace Floats

variable (flo : Floats F)

def zero : F := flo.ofFixnum 0

def ofInteger (n : Int) : F :=
  if -fixnumMax ≤ n ∧ n ≤ fixnumMax then flo.ofFixnum n else flo.ofBignum n

end Floats

def Bignum : Type := { n : Int // ¬ (-fixnumMax ≤ n ∧ n ≤ fixnumMax) }

/-- Arithmetic leaves no denominator 1. Such rationals are made of flonums by
`coerce`, and convert back as integers do. -/
def Rational (flo : Floats F) : Type :=
  { q : ℚ // q.den = 1 → flo.ofRational q = flo.ofInteger q.num }

inductive Num (flo : Floats F) where
  | fixnum (n : Fixnum)
  | bignum (n : Bignum)
  | rational (q : Rational flo)
  | flonum (f : F)
  | complex (z : F × F)

/-- A value. A cons is its address; what no operator looks into is `other`. -/
inductive Val (flo : Floats F) where
  | nil
  | number (x : Num flo)
  | char (r : Nat)
  | string (s : List Nat)
  | symbol (name : List Nat)
  | cons (a : Nat)
  | other (type id : Nat)

variable {flo : Floats F}

/-- The cars and the cdrs of the conses. -/
abbrev Heap (flo : Floats F) := List (Val flo × Val flo)

/-- The cons at an address. No value holds an address outside the memory. -/
def Heap.cell (h : Heap flo) (a : Nat) : Val flo × Val flo := h.getD a (.nil, .nil)

abbrev ArcM (flo : Floats F) := StateT (Heap flo) (Except Stop)

namespace Num

/-- `__arc_bignum_fixnum`. -/
def ofInt (n : Int) : Num flo :=
  if h : -fixnumMax ≤ n ∧ n ≤ fixnumMax then .fixnum ⟨n, h⟩ else .bignum ⟨n, h⟩

/-- `__arc_rational_int`. -/
def ofRat (q : ℚ) : Num flo :=
  if h : q.den = 1 then ofInt q.num else .rational ⟨q, fun hq => absurd hq h⟩

def isRational : Num flo → Bool
  | .rational _ => true
  | _ => false

def isFlonum : Num flo → Bool
  | .flonum _ => true
  | _ => false

def isComplex : Num flo → Bool
  | .complex _ => true
  | _ => false

def toFlonum : Num flo → F
  | .fixnum n => flo.ofFixnum n.val
  | .bignum n => flo.ofBignum n.val
  | .rational q => flo.ofRational q.val
  | .flonum f => f
  | .complex z => z.1

/-- A real number is added to `I*0.0`. -/
def toComplex : Num flo → F × F
  | .complex z => z
  | x => (flo.add x.toFlonum flo.zero, flo.zero)

/-- Asked of fixnums, bignums and rationals. -/
def toRat : Num flo → ℚ
  | .fixnum n => n.val
  | .bignum n => n.val
  | .rational q => q.val
  | _ => 0

/-- Asked of fixnums and bignums. -/
def toInt : Num flo → Int
  | .fixnum n => n.val
  | .bignum n => n.val
  | _ => 0

def text : Num flo → List Nat
  | .fixnum n => fixnumText n.val
  | .bignum n => fixnumText n.val
  | .rational q =>
    if q.val.den = 1 then fixnumText q.val.num
    else fixnumText q.val.num ++ '/'.toNat :: decimal q.val.den
  | .flonum f => flo.text f
  | .complex z => flo.complexText z

/-- `TYPE_CASES`, for two numbers. -/
def typeCases {α : Type} (complex : F × F → F × F → α) (flonum : F → F → α) (rational : ℚ → ℚ → α)
    (bignum : Int → Int → α) (x y : Num flo) : α :=
  if x.isComplex || y.isComplex then complex x.toComplex y.toComplex
  else if x.isFlonum || y.isFlonum then flonum x.toFlonum y.toFlonum
  else if x.isRational || y.isRational then rational x.toRat y.toRat
  else bignum x.toInt y.toInt

/-- `__arc_add2` on numbers. -/
def add : Num flo → Num flo → Num flo
  | .fixnum m, .fixnum n => ofInt (m.val + n.val)
  | x, y => typeCases (fun z w => .complex (flo.add z.1 w.1, flo.add z.2 w.2))
      (fun f g => .flonum (flo.add f g)) (fun q r => ofRat (q + r)) (fun m n => ofInt (m + n)) x y

/-- `__arc_sub2` on numbers. -/
def sub : Num flo → Num flo → Num flo
  | .fixnum m, .fixnum n => ofInt (m.val - n.val)
  | x, y => typeCases (fun z w => .complex (flo.sub z.1 w.1, flo.sub z.2 w.2))
      (fun f g => .flonum (flo.sub f g)) (fun q r => ofRat (q - r)) (fun m n => ofInt (m - n)) x y

/-- `hibit`, the number of bits. -/
def hibit (n : Nat) : Nat := n.size

theorem fits_mul {m n : Int} (h : hibit m.natAbs + hibit n.natAbs < hibit fixnumMax.natAbs) :
    -fixnumMax ≤ m * n ∧ m * n ≤ fixnumMax := by
  have hmax : hibit fixnumMax.natAbs = 62 := by decide
  rw [hmax] at h
  have hm : m.natAbs < 2 ^ hibit m.natAbs := Nat.lt_size_self _
  have hn : n.natAbs < 2 ^ hibit n.natAbs := Nat.lt_size_self _
  have hpow : 2 ^ (hibit m.natAbs + hibit n.natAbs) ≤ 2 ^ 61 :=
    Nat.pow_le_pow_right (by decide) (by omega)
  have hprod : (m * n).natAbs < 2 ^ 61 := by
    rw [Int.natAbs_mul]
    calc m.natAbs * n.natAbs < 2 ^ hibit m.natAbs * 2 ^ hibit n.natAbs := Nat.mul_lt_mul'' hm hn
      _ = 2 ^ (hibit m.natAbs + hibit n.natAbs) := (Nat.pow_add _ _ _).symm
      _ ≤ 2 ^ 61 := hpow
  rw [fixnumMax]
  omega

/-- A product that could overflow is taken as one of bignums. -/
def mulFixnum (m n : Fixnum) : Num flo :=
  if h : hibit fixnumMax.natAbs ≤ hibit m.val.natAbs + hibit n.val.natAbs then
    ofInt (m.val * n.val)
  else .fixnum ⟨m.val * n.val, fits_mul (Nat.lt_of_not_le h)⟩

/-- `__arc_mul2` on numbers. -/
def mul : Num flo → Num flo → Num flo
  | .fixnum m, .fixnum n => mulFixnum m n
  | x, y => typeCases (fun z w => .complex (flo.cmul z w)) (fun f g => .flonum (flo.mul f g))
      (fun q r => ofRat (q * r)) (fun m n => ofInt (m * n)) x y

def divRational (q r : ℚ) : Except Stop (Num flo) :=
  if r = 0 then throw (.error "Division by zero") else pure (ofRat (q / r))

/-- `__arc_div2` on numbers. Fixnums and bignums that do not divide make a
rational. -/
def div : Num flo → Num flo → Except Stop (Num flo)
  | .fixnum m, .fixnum n =>
    if n.val = 0 then throw (.error "Division by zero")
    else if m.val % n.val = 0 then pure (ofInt (m.val / n.val))
    else pure (ofRat (mkrationall m.val n.val))
  | x, y => typeCases
      (fun z w => if flo.isZero w.1 && flo.isZero w.2 then throw (.error "Division by zero")
        else pure (.complex (flo.cdiv z w)))
      (fun f g => if flo.isZero g then throw (.error "Division by zero")
        else pure (.flonum (flo.div f g)))
      divRational (fun m n => divRational m n) x y

end Num

namespace Val

def fix (n : Int) : Val flo := .number (.ofInt n)

def type : Val flo → Nat
  | .nil => 0
  | .number (.fixnum _) => 2
  | .number (.bignum _) => 3
  | .number (.flonum _) => 4
  | .number (.rational _) => 5
  | .number (.complex _) => 6
  | .char _ => 7
  | .string _ => 8
  | .symbol _ => 9
  | .cons _ => 10
  | .other t _ => t

/-- An operator of numbers; other values have no coercion function. -/
def arith (op : Num flo → Num flo → Except Stop (Num flo)) : Val flo → Val flo → ArcM flo (Val flo)
  | .number x, .number y => do pure (.number (← op x y))
  | v, w => throw (.error s!"cannot coerce {v.type} {w.type}")

end Val

/-- The last cons of a list, `n` conses at most from its start. -/
def lastCons (h : Heap flo) : Nat → Nat → Except Stop Nat
  | 0, _ => throw .fuel
  | n + 1, a =>
    match (Heap.cell h a).2 with
    | .nil => pure a
    | .cons b => lastCons h n b
    | _ => throw .undefined

/-- The last cdr of the list at `a` is set. A list that runs into itself is
followed forever. -/
def arcListAppend (a : Nat) (v : Val flo) : ArcM flo (Val flo) := do
  let h ← get
  let l ← lastCons h (h.length + 1) a
  set (h.modify l fun cell => (cell.1, v))
  pure (.cons a)

/-- `arc_coerce` to a string, where no more than `n` conses are below each
other. -/
def coerceString (h : Heap flo) : Nat → Val flo → Except Stop (List Nat)
  | _, .nil => pure []
  | _, .number x => pure x.text
  | _, .char r => pure [r]
  | _, .string s => pure s
  | _, .symbol name => pure name
  | _, .other _ _ => throw (.error "cannot coerce")
  | 0, .cons _ => throw .fuel
  | n + 1, .cons a => do
    let s ← coerceString h n (Heap.cell h a).1
    match (Heap.cell h a).2 with
    | .nil => pure s
    | .cons b => do
      let t ← coerceString h n (.cons b)
      pure (s ++ t)
    | _ => throw (.error "cannot coerce improper list")

def arcCoerceString (h : Heap flo) (v : Val flo) : Except Stop (List Nat) :=
  coerceString h (h.length + 1) v

def add2String (s : List Nat) (v : Val flo) : ArcM flo (Val flo) := do
  let t ← arcCoerceString (← get) v
  pure (.string (s ++ t))

def add2 : Val flo → Val flo → ArcM flo (Val flo)
  | .nil, .nil => pure .nil
  | .nil, .cons b => pure (.cons b)
  | .cons a, .nil => pure (.cons a)
  | .cons a, .cons b => arcListAppend a (.cons b)
  | .nil, .string t => pure (.string t)
  | .string s, .nil => pure (.string s)
  | .string s, .string t => pure (.string (s ++ t))
  | .nil, .char r => pure (.string [r])
  | .char r, .nil => pure (.string [r])
  | .char r, .char r' => pure (.string [r, r'])
  | .string s, .char r => pure (.string (s ++ [r]))
  | .char r, .string t => pure (.string (r :: t))
  -- a number's coercion function makes nil of it, where `arc_strcat` looks for a string
  | .string _, .number _ => throw .undefined
  | .string _, _ => throw (.error "cannot coerce to string")
  | v, w => v.arith (fun x y => pure (x.add y)) w

def sub2 (v w : Val flo) : ArcM flo (Val flo) := v.arith (fun x y => pure (x.sub y)) w

def mul2 (v w : Val flo) : ArcM flo (Val flo) := v.arith (fun x y => pure (x.mul y)) w

def div2 (v w : Val flo) : ArcM flo (Val flo) := v.arith Num.div w

/-- `cons`. -/
def mkCons (v w : Val flo) : ArcM flo (Val flo) := do
  let h ← get
  set (h ++ [(v, w)])
  pure (.cons h.length)

section Depth

variable {h : Heap flo} {m n a : Nat} {v : Val flo}

theorem coerceString_succ (hn : coerceString h n v ≠ .error .fuel) :
    coerceString h (n + 1) v = coerceString h n v := by
  induction n generalizing v with
  | zero =>
    cases v with
    | cons a => exact absurd rfl hn
    | _ => rfl
  | succ n ih =>
    cases v with
    | cons a =>
      rw [coerceString] at hn
      have hcar : coerceString h n (h.cell a).1 ≠ .error .fuel := by
        intro hfuel
        rw [hfuel] at hn
        exact hn rfl
      rw [coerceString, ih hcar, coerceString]
      cases hs : coerceString h n (h.cell a).1 with
      | error e => rfl
      | ok s =>
        rw [hs] at hn
        cases hcdr : (h.cell a).2 with
        | cons b =>
          have hb : coerceString h n (.cons b) ≠ .error .fuel := by
            intro hfuel
            rw [hcdr] at hn
            simp only [bind, Except.bind, hfuel] at hn
            exact hn rfl
          simp only [ih hb]
        | _ => rfl
    | _ => rfl

theorem coerceString_of_le (hn : coerceString h n v ≠ .error .fuel) (hm : n ≤ m) :
    coerceString h m v = coerceString h n v := by
  induction m, hm using Nat.le_induction with
  | base => rfl
  | succ m _ ih => rw [coerceString_succ (ih ▸ hn), ih]

/-- The conses below the cons at `a` are at most `n` deep. -/
def NeedsDepth (h : Heap flo) (n a : Nat) : Prop :=
  coerceString h n (.cons a) = .error .fuel ∧ coerceString h (n + 1) (.cons a) ≠ .error .fuel

theorem NeedsDepth.unique (hm : NeedsDepth h m a) (hn : NeedsDepth h n a) : m = n := by
  have hlt : ∀ {m n}, NeedsDepth h m a → NeedsDepth h n a → ¬ m < n := by
    intro m n hm hn hlt
    exact hm.2 (coerceString_of_le hm.2 hlt ▸ hn.1)
  exact Nat.le_antisymm (Nat.le_of_not_lt (hlt hn hm)) (Nat.le_of_not_lt (hlt hm hn))

theorem NeedsDepth.down (hn : NeedsDepth h (n + 1) a) : ∃ b, NeedsDepth h n b := by
  obtain ⟨hfuel, hends⟩ := hn
  have hchild : ∀ v : Val flo, coerceString h n v = .error .fuel →
      coerceString h (n + 1) v ≠ .error .fuel → ∃ b, NeedsDepth h n b := by
    intro v hv hv'
    cases v with
    | cons b => exact ⟨b, hv, hv'⟩
    | _ => exact absurd hv (by cases n <;> simp [coerceString, pure, Except.pure, throw, throwThe,
        MonadExceptOf.throw])
  rw [coerceString] at hfuel hends
  cases hs : coerceString h n (h.cell a).1 with
  | error e =>
    rw [hs] at hfuel
    cases hfuel
    apply hchild _ hs
    intro hs'
    rw [hs'] at hends
    exact hends rfl
  | ok s =>
    have hs' : coerceString h (n + 1) (h.cell a).1 = .ok s := by
      rw [coerceString_succ (by simp [hs]), hs]
    rw [hs] at hfuel
    rw [hs'] at hends
    cases hcdr : (h.cell a).2 with
    | cons b =>
      rw [hcdr] at hfuel hends
      apply hchild (.cons b)
      · cases hb : coerceString h n (.cons b) with
        | ok t => simp [bind, Except.bind, hb, pure, Except.pure] at hfuel
        | error e =>
          simp only [bind, Except.bind, hb] at hfuel
          exact hfuel
      · intro hb
        simp only [bind, Except.bind, hb] at hends
        exact hends rfl
    | _ => simp [hcdr, bind, Except.bind, pure, Except.pure, throw, throwThe,
        MonadExceptOf.throw] at hfuel

theorem NeedsDepth.lt_length (hn : NeedsDepth h (n + 1) a) : a < h.length := by
  by_contra hge
  have hcell : h.cell a = (.nil, .nil) := by
    simp [Heap.cell, List.getD_eq_getElem?_getD, Nat.le_of_not_lt hge]
  have hfuel := hn.1
  cases n <;> simp [coerceString, hcell, bind, Except.bind, pure, Except.pure] at hfuel

/-- A bound above the number of conses is never what stops `coerceString`: a
value it stops at holds a cons that is part of itself. -/
theorem arcCoerceString_eq (hn : coerceString h n v ≠ .error .fuel) :
    arcCoerceString h v = coerceString h n v := by
  rcases Nat.le_total n (h.length + 1) with hle | hle
  · exact coerceString_of_le hn hle
  · by_cases hfuel : coerceString h (h.length + 1) v = .error .fuel
    · obtain ⟨a, rfl⟩ : ∃ a, v = .cons a := by
        cases v with
        | cons a => exact ⟨a, rfl⟩
        | _ => simp [coerceString, pure, Except.pure, throw, throwThe, MonadExceptOf.throw] at hfuel
      obtain ⟨k, hk, hneeds⟩ : ∃ k, h.length + 1 ≤ k ∧ NeedsDepth h k a := by
        clear hle
        induction n with
        | zero => exact absurd rfl hn
        | succ n ih =>
          by_cases hf : coerceString h n (.cons a) = .error .fuel
          · refine ⟨n, ?_, hf, hn⟩
            by_contra hlt
            have hle : n + 1 ≤ h.length + 1 := by omega
            exact hn ((coerceString_of_le hn hle).symm.trans hfuel)
          · exact ih hf
      have hbound := Descent.le_card (NeedsDepth h) (Finset.range h.length) (fun _ _ _ => NeedsDepth.unique)
        (fun _ _ hb => hb.down) (fun _ _ hb => Finset.mem_range.mpr hb.lt_length) hneeds
      rw [Finset.card_range] at hbound
      omega
    · exact (coerceString_of_le hfuel hle).symm

end Depth

end Arcueid
