import Mathlib.Data.Sign.Basic
import Mathlib.Tactic.NormNum
import Mathlib.Tactic.FieldSimp
import Arcueid.NumberObjects

/-! Canonical exact numbers: one object for each rational number. The operations
of `arith.c` are the operations on these, but for a quotient of fixnums. -/

namespace Arcueid.Exact

open Numeral

variable {F : Type}

def Canonical : Obj F → Prop
  | .fixnum n => -fixnumMax ≤ n ∧ n ≤ fixnumMax
  | .bignum n => ¬ (-fixnumMax ≤ n ∧ n ≤ fixnumMax)
  | .rational q => q.den ≠ 1
  | _ => False

structure ExactNumber (F : Type) where
  obj : Obj F
  canonical : Canonical obj

/-- Asked of fixnums, bignums and rationals. -/
def Obj.rat : Obj F → ℚ
  | .fixnum n => n
  | .bignum n => n
  | .rational q => q
  | _ => 0

namespace ExactNumber

def rat (x : ExactNumber F) : ℚ := x.obj.rat

def ofInt (n : Int) : ExactNumber F :=
  if h : -fixnumMax ≤ n ∧ n ≤ fixnumMax then ⟨.fixnum n, h⟩ else ⟨.bignum n, h⟩

def ofRat (q : ℚ) : ExactNumber F :=
  if h : q.den = 1 then ofInt q.num else ⟨.rational q, h⟩

theorem ofInt_rat (n : Int) : (ofInt n : ExactNumber F).rat = n := by
  rw [ofInt]
  split <;> rfl

@[simp] theorem ofRat_rat (q : ℚ) : (ofRat q : ExactNumber F).rat = q := by
  rw [ofRat]
  split
  · rename_i h
    rw [ofInt_rat]
    exact (Rat.den_eq_one_iff q).mp h
  · rfl

theorem ofRat_intCast (n : Int) : (ofRat (n : ℚ) : ExactNumber F) = ofInt n := by
  rw [ofRat, dif_pos (Rat.den_intCast n), Rat.num_intCast]

theorem ofInt_obj_fixnum {n : Int} (h : -fixnumMax ≤ n ∧ n ≤ fixnumMax) :
    (ofInt n : ExactNumber F).obj = .fixnum n := by
  rw [ofInt, dif_pos h]

theorem ofInt_obj_bignum {n : Int} (h : ¬ (-fixnumMax ≤ n ∧ n ≤ fixnumMax)) :
    (ofInt n : ExactNumber F).obj = .bignum n := by
  rw [ofInt, dif_neg h]

/-- Each exact number is the only one of its value. -/
@[simp] theorem rat_ofRat (x : ExactNumber F) : ofRat x.rat = x := by
  obtain ⟨obj, h⟩ := x
  cases obj with
  | fixnum n =>
    have hn : (⟨.fixnum n, h⟩ : ExactNumber F).rat = (n : ℚ) := rfl
    rw [hn, ofRat_intCast]
    exact dif_pos h
  | bignum n =>
    have hn : (⟨.bignum n, h⟩ : ExactNumber F).rat = (n : ℚ) := rfl
    rw [hn, ofRat_intCast]
    exact dif_neg h
  | rational q =>
    have hq : (⟨.rational q, h⟩ : ExactNumber F).rat = q := rfl
    rw [hq]
    exact dif_neg h
  | flonum f => exact h.elim
  | complex z => exact h.elim
  | other t => exact h.elim

theorem rat_injective : Function.Injective (rat : ExactNumber F → ℚ) := by
  intro x y h
  rw [← rat_ofRat x, h, rat_ofRat]

end ExactNumber

open ExactNumber

theorem fixnumMax_eq : fixnumMax = 2 ^ 62 - 1 := rfl

section Results

theorem bignumFixnum_eq (n : Int) : bignumFixnum n = .ok (ofInt n : ExactNumber F).obj := by
  have hmax := fixnumMax_eq
  rw [bignumFixnum]
  by_cases h : -fixnumMax ≤ n ∧ n ≤ fixnumMax
  · rw [if_pos (by omega), int2fix_eq (by omega), ofInt_obj_fixnum h]
  · rw [if_neg (by omega), ofInt_obj_bignum h]
    rfl

theorem rationalInt_eq (q : ℚ) : rationalInt q = .ok (ofRat q : ExactNumber F).obj := by
  have hmax := fixnumMax_eq
  rw [rationalInt, ofRat]
  by_cases hden : q.den = 1
  · have hq : (q.num : ℚ) = q := (Rat.den_eq_one_iff q).mp hden
    have hquot : q.num.tdiv q.den = q.num := by rw [hden]; exact Int.tdiv_one _
    have hgt : q > fixnumMax ↔ q.num > fixnumMax := by
      conv_lhs => rw [← hq]
      exact Int.cast_lt
    have hlt : q < -fixnumMax ↔ q.num < -fixnumMax := by
      conv_lhs => rw [← hq]
      exact_mod_cast Iff.rfl
    have hrange := or_congr hgt hlt
    rw [if_neg (by simpa using hden), dif_pos hden, hquot]
    by_cases h : -fixnumMax ≤ q.num ∧ q.num ≤ fixnumMax
    · rw [if_neg (hrange.not.mpr (by omega)), int2fix_eq (by omega), ofInt_obj_fixnum h]
    · rw [if_pos (hrange.mpr (by omega)), ofInt_obj_bignum h]
      rfl
  · rw [if_pos hden, dif_neg hden]
    rfl

theorem fixnumResult_eq {n : Int} (h : -2 ^ 63 < n ∧ n < 2 ^ 63) :
    fixnumResult n = .ok (ofInt n : ExactNumber F).obj := by
  have hmax := fixnumMax_eq
  have habs : absLong n = .ok |n| := absLong_eq h.1 h.2
  have hdef : (fixnumResult n : Except Stop (Obj F)) =
      if |n| > fixnumMax then pure (.bignum n) else int2fix n := by
    rw [fixnumResult, habs]
    rfl
  rw [hdef]
  by_cases hn : -fixnumMax ≤ n ∧ n ≤ fixnumMax
  · rw [if_neg (not_lt.mpr (abs_le.mpr hn)), int2fix_eq (by omega), ofInt_obj_fixnum hn]
  · rw [if_pos (lt_of_not_ge fun hle => hn (abs_le.mp hle)), ofInt_obj_bignum hn]
    rfl

theorem mkrationall_one (n : Int) : mkrationall n 1 = n := by
  rw [mkrationall]
  norm_num

end Results

section Operations

variable (d : Doubles F) (x y : ExactNumber F)

def Obj.isFixnum : Obj F → Bool
  | .fixnum _ => true
  | _ => false

/-- The slow path on exact numbers is one operation on their values. -/
theorem typeCases_exact {func : Cases F} {op : ℚ → ℚ → Except Stop (Obj F)} {invalid : String}
    (hrational : ∀ q r, func.rational q r = op q r)
    (hbignum : ∀ m n : Int, func.bignum m n = op m n)
    (h : ¬ (x.obj.isFixnum ∧ y.obj.isFixnum)) :
    typeCases d func invalid x.obj y.obj = op x.rat y.rat := by
  obtain ⟨xo, hx⟩ := x
  obtain ⟨yo, hy⟩ := y
  cases xo with
  | fixnum m =>
    cases yo with
    | fixnum n => exact absurd ⟨rfl, rfl⟩ h
    | bignum n => exact hbignum m n
    | rational r =>
      have hm := hrational (mkrationall m 1) r
      rw [mkrationall_one] at hm
      have hdef : typeCases d func invalid (.fixnum m) (.rational r) =
        func.rational (mkrationall m 1) r := rfl
      rw [hdef, mkrationall_one]
      exact hm
    | flonum f => exact hy.elim
    | complex z => exact hy.elim
    | other t => exact hy.elim
  | bignum m =>
    cases yo with
    | fixnum n => exact hbignum m n
    | bignum n => exact hbignum m n
    | rational r => exact hrational m r
    | flonum f => exact hy.elim
    | complex z => exact hy.elim
    | other t => exact hy.elim
  | rational q =>
    cases yo with
    | fixnum n =>
      have hn := hrational q (mkrationall n 1)
      rw [mkrationall_one] at hn
      have hdef : typeCases d func invalid (.rational q) (.fixnum n) =
        func.rational q (mkrationall n 1) := rfl
      rw [hdef, mkrationall_one]
      exact hn
    | bignum n => exact hrational q n
    | rational r => exact hrational q r
    | flonum f => exact hy.elim
    | complex z => exact hy.elim
    | other t => exact hy.elim
  | flonum f => exact hx.elim
  | complex z => exact hx.elim
  | other t => exact hx.elim

/-- Two exact numbers are both fixnums, or `TYPE_CASES` sees them. -/
theorem fixnums_or (x y : ExactNumber F) :
    (∃ m n, x.obj = .fixnum m ∧ y.obj = .fixnum n ∧ (-fixnumMax ≤ m ∧ m ≤ fixnumMax) ∧
      (-fixnumMax ≤ n ∧ n ≤ fixnumMax) ∧ x.rat = m ∧ y.rat = n) ∨
      ¬ (x.obj.isFixnum ∧ y.obj.isFixnum) := by
  obtain ⟨xo, hx⟩ := x
  obtain ⟨yo, hy⟩ := y
  cases xo with
  | fixnum m =>
    cases yo with
    | fixnum n => exact .inl ⟨m, n, rfl, rfl, hx, hy, rfl, rfl⟩
    | _ => exact .inr fun h => Bool.noConfusion h.2
  | _ => exact .inr fun h => Bool.noConfusion h.1

/-- Sums, differences and products of the slow path come out canonical. -/
theorem typeCases_closed {func : Cases F} {f : ℚ → ℚ → ℚ} {g : Int → Int → Int} {invalid : String}
    (hrational : ∀ q r, func.rational q r = rationalInt (f q r))
    (hbignum : ∀ m n, func.bignum m n = bignumFixnum (g m n))
    (hcast : ∀ m n : Int, f m n = g m n) (h : ¬ (x.obj.isFixnum ∧ y.obj.isFixnum)) :
    typeCases d func invalid x.obj y.obj =
      .ok (ofRat (f x.rat y.rat) : ExactNumber F).obj := by
  rw [typeCases_exact d x y hrational _ h, rationalInt_eq]
  intro m n
  rw [hbignum, bignumFixnum_eq, rationalInt_eq, hcast, ofRat_intCast]

theorem add2_eq : add2 d x.obj y.obj = .ok (ofRat (x.rat + y.rat) : ExactNumber F).obj := by
  have hmax := fixnumMax_eq
  rcases fixnums_or x y with ⟨m, n, hx, hy, hm, hn, hxr, hyr⟩ | h
  · have hsum : long (m + n) = .ok (m + n) := long_eq (by omega)
    have hfast : add2 d (.fixnum m) (.fixnum n) = fixnumResult (m + n) := by
      rw [add2, hsum]
      rfl
    have hcast : x.rat + y.rat = ((m + n : Int) : ℚ) := by rw [hxr, hyr, Int.cast_add]
    rw [hx, hy, hfast, fixnumResult_eq (by omega), hcast, ofRat_intCast]
  · have hslow : add2 d x.obj y.obj =
        typeCases d (addCases d) "Invalid types for addition" x.obj y.obj := by
      rw [add2]
      intro m n hx hy
      rw [hx, hy] at h
      exact h ⟨rfl, rfl⟩
    rw [hslow]
    exact typeCases_closed d x y (fun _ _ => rfl) (fun _ _ => rfl)
      (fun m n => (Int.cast_add m n).symm) h

theorem sub2_eq : sub2 d x.obj y.obj = .ok (ofRat (x.rat - y.rat) : ExactNumber F).obj := by
  have hmax := fixnumMax_eq
  rcases fixnums_or x y with ⟨m, n, hx, hy, hm, hn, hxr, hyr⟩ | h
  · have hdiff : long (m - n) = .ok (m - n) := long_eq (by omega)
    have hfast : sub2 d (.fixnum m) (.fixnum n) = fixnumResult (m - n) := by
      rw [sub2, hdiff]
      rfl
    have hcast : x.rat - y.rat = ((m - n : Int) : ℚ) := by rw [hxr, hyr, Int.cast_sub]
    rw [hx, hy, hfast, fixnumResult_eq (by omega), hcast, ofRat_intCast]
  · have hslow : sub2 d x.obj y.obj =
        typeCases d (subCases d) "Invalid types for subtraction" x.obj y.obj := by
      rw [sub2]
      intro m n hx hy
      rw [hx, hy] at h
      exact h ⟨rfl, rfl⟩
    rw [hslow]
    exact typeCases_closed d x y (fun _ _ => rfl) (fun _ _ => rfl)
      (fun m n => (Int.cast_sub m n).symm) h

/-- Factors with few bits have a product that is a fixnum. -/
theorem product_fits {m n : Int} (h : hibit m.natAbs + hibit n.natAbs < hibit fixnumMax.toNat) :
    -2 ^ 61 < m * n ∧ m * n < 2 ^ 61 := by
  have hmax : fixnumMax.toNat.size = 62 := by decide
  rw [hibit_eq, hibit_eq, hibit_eq, hmax] at h
  have hprod : (m * n).natAbs < 2 ^ 61 := by
    calc (m * n).natAbs = m.natAbs * n.natAbs := Int.natAbs_mul m n
      _ < 2 ^ m.natAbs.size * 2 ^ n.natAbs.size :=
        Nat.mul_lt_mul'' (Nat.lt_size_self _) (Nat.lt_size_self _)
      _ = 2 ^ (m.natAbs.size + n.natAbs.size) := (Nat.pow_add _ _ _).symm
      _ ≤ 2 ^ 61 := Nat.pow_le_pow_right (by omega) (by omega)
  omega

theorem mul2_eq : mul2 d x.obj y.obj = .ok (ofRat (x.rat * y.rat) : ExactNumber F).obj := by
  have hmax := fixnumMax_eq
  rcases fixnums_or x y with ⟨m, n, hx, hy, hm, hn, hxr, hyr⟩ | h
  · have hcast : x.rat * y.rat = ((m * n : Int) : ℚ) := by rw [hxr, hyr, Int.cast_mul]
    have hfast : mul2 d (.fixnum m) (.fixnum n) =
        if hibit m.natAbs + hibit n.natAbs ≥ hibit fixnumMax.toNat then bignumFixnum (m * n)
        else long (m * n) >>= int2fix := by
      rw [mul2, absLong_eq (by omega) (by omega), absLong_eq (by omega) (by omega),
        Int.abs_eq_natAbs, Int.abs_eq_natAbs]
      rfl
    rw [hx, hy, hfast, hcast, ofRat_intCast]
    by_cases hbits : hibit m.natAbs + hibit n.natAbs ≥ hibit fixnumMax.toNat
    · rw [if_pos hbits, bignumFixnum_eq]
    · have hfits := product_fits (Nat.lt_of_not_le hbits)
      have hlong : long (m * n) = .ok (m * n) := long_eq (by omega)
      rw [if_neg hbits, hlong, ofInt_obj_fixnum (by omega)]
      exact int2fix_eq (by omega)
  · have hslow : mul2 d x.obj y.obj =
        typeCases d (mulCases d) "Invalid types for multiplication" x.obj y.obj := by
      rw [mul2]
      intro m n hx hy
      rw [hx, hy] at h
      exact h ⟨rfl, rfl⟩
    rw [hslow]
    exact typeCases_closed d x y (fun _ _ => rfl) (fun _ _ => rfl)
      (fun m n => (Int.cast_mul m n).symm) h

theorem sign_num (q : ℚ) : q.num.sign = SignType.sign q := by
  rcases lt_trichotomy q 0 with hq | hq | hq
  · rw [sign_neg hq, Int.sign_eq_neg_one_of_neg (Rat.num_neg.mpr hq)]
    rfl
  · rw [hq]
    rfl
  · rw [sign_pos hq, Int.sign_eq_one_of_pos (Rat.num_pos.mpr hq)]
    rfl

theorem int2fix_sign (q : ℚ) : int2fix q.num.sign = .ok (.fixnum (SignType.sign q) : Obj F) := by
  have hsign := Int.sign_trichotomy q.num
  rw [int2fix_eq (by omega), sign_num]

theorem compare_eq (n : Int) :
    compare (0 < n) (n < 0) = .ok (.fixnum (SignType.sign (n : ℚ)) : Obj F) := by
  have hsign := int2fix_sign (F := F) (n : ℚ)
  rw [Rat.num_intCast] at hsign
  rw [← hsign, compare]
  rcases lt_trichotomy n 0 with hn | hn | hn
  · rw [if_neg (by simpa using hn.le), if_pos (by simpa using hn), Int.sign_eq_neg_one_of_neg hn]
  · rw [hn]
    rfl
  · rw [if_pos (by simpa using hn), Int.sign_eq_one_of_pos hn]

theorem numcmp_of_sub {z : ExactNumber F} (h : sub2 d x.obj y.obj = .ok z.obj) :
    numcmp d x.obj y.obj = .ok (.fixnum (SignType.sign z.rat)) := by
  obtain ⟨zo, hz⟩ := z
  rw [numcmp, h]
  cases zo with
  | fixnum n => exact compare_eq n
  | bignum n =>
    have hsign := int2fix_sign (F := F) (n : ℚ)
    rw [Rat.num_intCast] at hsign
    exact hsign
  | rational q => exact int2fix_sign q
  | flonum f => exact hz.elim
  | complex z => exact hz.elim
  | other t => exact hz.elim

theorem numcmp_eq : numcmp d x.obj y.obj = .ok (.fixnum (SignType.sign (x.rat - y.rat))) := by
  rw [numcmp_of_sub d x y (sub2_eq d x y), ofRat_rat]

/-- Sums, differences, products and comparisons of exact numbers. -/
theorem exact_operations :
    (∃ z : ExactNumber F, add2 d x.obj y.obj = .ok z.obj ∧ z.rat = x.rat + y.rat) ∧
      (∃ z : ExactNumber F, sub2 d x.obj y.obj = .ok z.obj ∧ z.rat = x.rat - y.rat) ∧
      (∃ z : ExactNumber F, mul2 d x.obj y.obj = .ok z.obj ∧ z.rat = x.rat * y.rat) ∧
      numcmp d x.obj y.obj = .ok (.fixnum (SignType.sign (x.rat - y.rat))) :=
  ⟨⟨_, add2_eq d x y, ofRat_rat _⟩, ⟨_, sub2_eq d x y, ofRat_rat _⟩,
    ⟨_, mul2_eq d x y, ofRat_rat _⟩, numcmp_eq d x y⟩

end Operations

end Arcueid.Exact
