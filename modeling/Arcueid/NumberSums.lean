import Mathlib.Tactic.Ring
import Arcueid.Arith

/-! Sums of numbers that start from 0 and from the first number. -/

namespace Arcueid

open Numeral

variable {F : Type} {flo : Floats F}

/-- What doubles promise: -0.0 is neutral, 0.0 is neutral but for -0.0, sums and
products do not depend on the order, and no conversion gives -0.0. -/
structure Floats.Lawful (flo : Floats F) : Prop where
  add_comm (f g : F) : flo.add f g = flo.add g f
  mul_comm (f g : F) : flo.mul f g = flo.mul g f
  cmul_comm (z w : F × F) : flo.cmul z w = flo.cmul w z
  negZero_add (f : F) : flo.add flo.negZero f = f
  zero_add (f : F) : f ≠ flo.negZero → flo.add flo.zero f = f
  ofFixnum_ne (n : Int) : flo.ofFixnum n ≠ flo.negZero
  ofBignum_ne (n : Int) : flo.ofBignum n ≠ flo.negZero
  ofRational_ne (q : ℚ) : flo.ofRational q ≠ flo.negZero

namespace Floats.Lawful

variable (hflo : flo.Lawful)

include hflo

theorem zero_ne : flo.zero ≠ flo.negZero := hflo.ofFixnum_ne 0

theorem zero_add_negZero : flo.add flo.zero flo.negZero = flo.zero := by
  rw [hflo.add_comm, hflo.negZero_add]

theorem zero_add_zero : flo.add flo.zero flo.zero = flo.zero := hflo.zero_add _ hflo.zero_ne

theorem zero_add_ne (f : F) : flo.add flo.zero f ≠ flo.negZero := by
  by_cases hf : f = flo.negZero
  · rw [hf, hflo.zero_add_negZero]
    exact hflo.zero_ne
  · rw [hflo.zero_add f hf]
    exact hf

theorem add_zero_ne (f : F) : flo.add f flo.zero ≠ flo.negZero := by
  rw [hflo.add_comm]
  exact hflo.zero_add_ne f

/-- Two sums differ only if all that is added is -0.0. -/
theorem foldl_add_eq_iff (f : F) (gs : List F) :
    gs.foldl flo.add f = gs.foldl flo.add (flo.add flo.zero f) ↔
      ¬ (f = flo.negZero ∧ ∀ g ∈ gs, g = flo.negZero) := by
  by_cases hf : f = flo.negZero
  · subst hf
    rw [hflo.zero_add_negZero]
    induction gs with
    | nil => simp [hflo.zero_ne.symm]
    | cons g gs ih =>
      simp only [List.foldl_cons, hflo.negZero_add]
      by_cases hg : g = flo.negZero
      · subst hg
        simpa [hflo.zero_add_negZero] using ih
      · simp [hflo.zero_add g hg, hg]
  · simp [hflo.zero_add f hf, hf]

end Floats.Lawful

namespace Num

theorem mulFixnum_eq (m n : Fixnum) : (mulFixnum m n : Num flo) = ofInt (m.val * n.val) := by
  unfold mulFixnum
  split
  · rfl
  · next h => rw [ofInt, dif_pos (fits_mul (Nat.lt_of_not_le h))]

section Cases

variable {α : Type} {complex : F × F → F × F → α} {flonum : F → F → α} {rational : ℚ → ℚ → α}
  {bignum : Int → Int → α}

theorem typeCases_comm (hc : ∀ z w, complex z w = complex w z) (hf : ∀ f g, flonum f g = flonum g f)
    (hq : ∀ q r, rational q r = rational r q) (hb : ∀ m n, bignum m n = bignum n m)
    (x y : Num flo) :
    typeCases complex flonum rational bignum x y = typeCases complex flonum rational bignum y x := by
  rw [typeCases, typeCases, hc x.toComplex, hf x.toFlonum, hq x.toRat, hb x.toInt,
    Bool.or_comm x.isComplex, Bool.or_comm x.isFlonum, Bool.or_comm x.isRational]

end Cases

theorem mul_eq (x y : Num flo) : x.mul y =
    typeCases (fun z w => .complex (flo.cmul z w)) (fun f g => .flonum (flo.mul f g))
      (fun q r => ofRat (q * r)) (fun m n => ofInt (m * n)) x y := by
  cases x with
  | fixnum m =>
    cases y with
    | fixnum n => exact mulFixnum_eq m n
    | _ => rfl
  | _ => rfl

theorem mul_comm (hflo : flo.Lawful) (x y : Num flo) : x.mul y = y.mul x := by
  rw [mul_eq, mul_eq]
  apply typeCases_comm
  · intro z w
    rw [hflo.cmul_comm]
  · intro f g
    rw [hflo.mul_comm]
  · intro q r
    rw [Rat.mul_comm]
  · intro m n
    rw [Int.mul_comm]

theorem add_eq (x y : Num flo) : x.add y =
    typeCases (fun z w => .complex (flo.add z.1 w.1, flo.add z.2 w.2))
      (fun f g => .flonum (flo.add f g)) (fun q r => ofRat (q + r)) (fun m n => ofInt (m + n)) x y := by
  cases x with
  | fixnum m => cases y <;> rfl
  | _ => rfl

theorem ofInt_val (n : Fixnum) : (ofInt n.val : Num flo) = .fixnum n := dif_pos n.property

theorem ofInt_bignum (n : Bignum) : (ofInt n.val : Num flo) = .bignum n := dif_neg n.property

theorem ofRat_int (n : Int) : (ofRat (n : ℚ) : Num flo) = ofInt n := by
  rw [ofRat, dif_pos (Rat.den_intCast n), Rat.num_intCast]

theorem toFlonum_ofInt (n : Int) : (ofInt n : Num flo).toFlonum = flo.ofInteger n := by
  unfold ofInt Floats.ofInteger
  split <;> rfl

/-- A rational with denominator 1 counts as an integer. -/
theorem add_rational_int {q : Rational flo} (hq : q.val.den = 1) (y : Num flo) :
    (Num.rational q).add y = (ofInt q.val.num).add y := by
  have hval : q.val = (q.val.num : ℚ) := (Rat.den_eq_one_iff q.val).mp hq |>.symm
  have hflonum : (Num.rational q).toFlonum = (ofInt q.val.num : Num flo).toFlonum := by
    rw [toFlonum_ofInt]
    exact q.property hq
  have hint : ∀ n : Int, (ofInt n : Num flo).isComplex = false ∧ (ofInt n : Num flo).isFlonum = false ∧
      (ofInt n : Num flo).isRational = false ∧ (ofInt n : Num flo).toRat = n ∧
      (ofInt n : Num flo).toInt = n ∧ (ofInt n : Num flo).toComplex =
        (flo.add (ofInt n : Num flo).toFlonum flo.zero, flo.zero) := by
    intro n
    unfold ofInt
    split <;> simp [isComplex, isFlonum, isRational, toRat, toInt, toComplex]
  obtain ⟨hc, hf, hr, hrat, hint, hcomplex⟩ := hint q.val.num
  rw [add_eq, add_eq, typeCases, typeCases, hcomplex, ← hflonum, hc, hf, hr, hrat, hint]
  have hsum : ∀ n : Int, (ofRat (q.val + n) : Num flo) = ofInt (q.val.num + n) := by
    intro n
    rw [← ofRat_int, Int.cast_add, ← hval]
  cases y with
  | fixnum n => simpa [isComplex, isFlonum, isRational, toRat, toInt] using hsum n.val
  | bignum n => simpa [isComplex, isFlonum, isRational, toRat, toInt] using hsum n.val
  | rational r => simp [isComplex, isFlonum, isRational, toRat, ← hval]
  | flonum g => simp [isComplex, isFlonum]
  | complex w => simp [isComplex, toComplex]

theorem zero_add (hflo : flo.Lawful) (x : Num flo) :
    (ofInt 0 : Num flo).add x = match x with
      | .fixnum n => .fixnum n
      | .bignum n => .bignum n
      | .rational q => ofRat q.val
      | .flonum f => .flonum (flo.add flo.zero f)
      | .complex z => .complex (flo.add flo.zero z.1, flo.add flo.zero z.2) := by
  have hzero : (ofInt 0 : Num flo) = .fixnum ⟨0, by decide⟩ := dif_pos (by decide)
  rw [hzero]
  cases x with
  | fixnum n =>
    change ofInt (0 + n.val) = _
    rw [Int.zero_add, ofInt_val]
  | bignum n =>
    change ofInt (0 + n.val) = _
    rw [Int.zero_add, ofInt_bignum]
  | rational q =>
    change ofRat (((0 : Int) : ℚ) + q.val) = _
    rw [Int.cast_zero, Rat.zero_add]
  | flonum f => rfl
  | complex z =>
    change Num.complex (flo.add (flo.add flo.zero flo.zero) z.1, flo.add flo.zero z.2) = _
    rw [hflo.zero_add_zero]

/-- Numbers whose sum depends on whether it starts from 0. -/
def SumFromZeroDiffers (flo : Floats F) (xs : List (Num flo)) : Prop :=
  (∃ q : Rational flo, xs = [.rational q] ∧ q.val.den = 1) ∨
    (∀ x ∈ xs, x = .flonum flo.negZero) ∨
    (∀ x ∈ xs, ∃ im, x = .complex (flo.negZero, im)) ∨ ∀ x ∈ xs, ∃ re, x = .complex (re, flo.negZero)

theorem negZero_add (hflo : flo.Lawful) {y : Num flo} (hy : y ≠ .flonum flo.negZero) :
    (Num.flonum flo.negZero).add y = (Num.flonum flo.zero).add y := by
  have hadd : ∀ f, f ≠ flo.negZero → flo.add flo.negZero f = flo.add flo.zero f := by
    intro f hf
    rw [hflo.negZero_add, hflo.zero_add f hf]
  cases y with
  | fixnum n => exact congrArg Num.flonum (hadd _ (hflo.ofFixnum_ne n.val))
  | bignum n => exact congrArg Num.flonum (hadd _ (hflo.ofBignum_ne n.val))
  | rational q => exact congrArg Num.flonum (hadd _ (hflo.ofRational_ne q.val))
  | flonum f => exact congrArg Num.flonum (hadd f fun hf => hy (hf ▸ rfl))
  | complex z =>
    have hre : flo.add flo.negZero flo.zero = flo.add flo.zero flo.zero := by
      rw [hflo.negZero_add, hflo.zero_add_zero]
    exact congrArg (fun f => Num.complex (flo.add f z.1, flo.add flo.zero z.2)) hre

theorem foldl_add_flonum (hflo : flo.Lawful) (ys : List (Num flo)) :
    ys.foldl add (.flonum flo.negZero) = ys.foldl add (.flonum flo.zero) ↔
      ¬ ∀ y ∈ ys, y = .flonum flo.negZero := by
  induction ys with
  | nil => simpa using hflo.zero_ne.symm
  | cons y ys ih =>
    by_cases hy : y = .flonum flo.negZero
    · subst hy
      have hneg : (Num.flonum flo.negZero : Num flo).add (.flonum flo.negZero) =
          .flonum flo.negZero := congrArg Num.flonum (hflo.negZero_add _)
      have hzero : (Num.flonum flo.zero : Num flo).add (.flonum flo.negZero) = .flonum flo.zero :=
        congrArg Num.flonum hflo.zero_add_negZero
      simp only [List.foldl_cons, hneg, hzero, ih]
      simp
    · simp [negZero_add hflo hy, hy]

theorem foldl_add_complex (z : F × F) (ys : List (Num flo)) :
    ys.foldl add (.complex z) = .complex ((ys.map fun y => y.toComplex.1).foldl flo.add z.1,
      (ys.map fun y => y.toComplex.2).foldl flo.add z.2) := by
  induction ys generalizing z with
  | nil => rfl
  | cons y ys ih =>
    have hadd : (Num.complex z).add y =
        .complex (flo.add z.1 y.toComplex.1, flo.add z.2 y.toComplex.2) := by
      rw [add_eq, typeCases]
      simp [isComplex, toComplex]
    rw [List.foldl_cons, hadd, ih]
    rfl

theorem toComplex_negZero (hflo : flo.Lawful) (y : Num flo) :
    (y.toComplex.1 = flo.negZero ↔ ∃ im, y = .complex (flo.negZero, im)) ∧
      (y.toComplex.2 = flo.negZero ↔ ∃ re, y = .complex (re, flo.negZero)) := by
  cases y with
  | complex z =>
    obtain ⟨re, im⟩ := z
    simp [toComplex]
  | _ => simp [toComplex, hflo.add_zero_ne, hflo.zero_ne]

/-- The sum from the first number is that from 0, but for a few lists. -/
theorem foldl_add_iff (hflo : flo.Lawful) (x : Num flo) (ys : List (Num flo)) :
    ys.foldl add x = ys.foldl add ((ofInt 0 : Num flo).add x) ↔
      ¬ SumFromZeroDiffers flo (x :: ys) := by
  rw [zero_add hflo]
  cases x with
  | fixnum n => simp [SumFromZeroDiffers]
  | bignum n => simp [SumFromZeroDiffers]
  | rational q =>
    by_cases hq : q.val.den = 1
    · simp only [ofRat, dif_pos hq]
      cases ys with
      | nil =>
        have hne : (Num.rational q : Num flo) ≠ ofInt q.val.num := by
          unfold ofInt
          split <;> simp
        simp [SumFromZeroDiffers, hq, hne]
      | cons y ys => simp [SumFromZeroDiffers, add_rational_int hq]
    · have hsame : (ofRat q.val : Num flo) = .rational q := dif_neg hq
      simp [SumFromZeroDiffers, hsame, hq]
  | flonum f =>
    by_cases hf : f = flo.negZero
    · subst hf
      simp only [hflo.zero_add_negZero, foldl_add_flonum hflo]
      simp [SumFromZeroDiffers]
    · simp [SumFromZeroDiffers, hflo.zero_add f hf, hf]
  | complex z =>
    obtain ⟨re, im⟩ := z
    simp only [foldl_add_complex, Num.complex.injEq, Prod.mk.injEq, hflo.foldl_add_eq_iff,
      List.forall_mem_map, (toComplex_negZero hflo _).1, (toComplex_negZero hflo _).2]
    simp [SumFromZeroDiffers, not_or]

end Num

end Arcueid
