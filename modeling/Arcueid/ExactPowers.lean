import Mathlib.Algebra.Order.Field.Power
import Mathlib.Algebra.Order.Ring.Nat
import Mathlib.Algebra.Ring.Int.Parity
import Mathlib.RingTheory.Coprime.Lemmas
import Arcueid.ExactQuotients

/-! Powers of exact numbers (`arc_expt` of `mathfns.c`). -/

namespace Arcueid.Exact

open Numeral ExactNumber

variable {F : Type}

/-- `abs` of an exponent, which it takes as an `int`. -/
def absInt (n : Int) : Except Stop Nat :=
  let i := n.bmod (2 ^ 32)
  if i = -2 ^ 31 then throw .undefined else pure i.natAbs

/-- The numerator and the denominator of a base. -/
def fraction : Obj F → Except Stop (Int × Int)
  | .fixnum n => pure (n, 1)
  | .bignum n => pure (n, 1)
  | .rational q => pure (q.num, q.den)
  | _ => throw (.error "Invalid types for exponentiation")

/-- `mpq_canonicalize` divides. -/
def mpqCanonicalize (num den : Int) : Except Stop ℚ :=
  if den = 0 then throw .undefined else pure (num / den)

/-- What `arc_expt` makes of the powers. -/
def powersResult (num den : Int) : Except Stop (Obj F) :=
  if den = 1 then bignumFixnum num else do pure (.rational (← mpqCanonicalize num den))

def Obj.isFixnumZero : Obj F → Bool
  | .fixnum n => n = 0
  | _ => false

/-- `arc_expt`. `cpow` is that of the C library, `isReal` the test of its result. -/
def expt (d : Doubles F) (cpow : F × F → F × F → F × F) (isReal : F → Bool) (a b : Obj F) :
    Except Stop (Obj F) :=
  -- the source asks whether `a`, and not `b`, is a rational or a complex number
  if !(a.hasCoercefn && (b.isInteger || b.isFlonum || a.isRational || a.isComplex)) then
    throw (.error "Invalid types for exponentiation")
  else if a.isFlonum || b.isFlonum || a.isComplex || b.isComplex || b.isRational then do
    let p := cpow (← coerceComplex d a) (← coerceComplex d b)
    pure (if isReal p.2 then .flonum p.1 else .complex p)
  else match b with
  | .bignum _ => throw (.error "Exponent too large")
  | .fixnum e =>
    if a.isFixnumZero then int2fix 0
    else if e = 0 then int2fix 1
    else do
      let (anumer, adenom) ← fraction a
      let babs ← absInt e
      if e < 0 then powersResult (adenom ^ babs) (anumer ^ babs)
      else powersResult (anumer ^ babs) (adenom ^ babs)
  | _ => throw .undefined

section Power

variable (d : Doubles F) (cpow : F × F → F × F → F × F) (isReal : F → Bool) (x : ExactNumber F)

theorem expt_fixnum (e : Int) :
    expt d cpow isReal x.obj (.fixnum e) =
      if x.obj.isFixnumZero then int2fix 0
      else if e = 0 then int2fix 1
      else absInt e >>= fun babs =>
        if e < 0 then powersResult ((x.rat.den : Int) ^ babs) (x.rat.num ^ babs)
        else powersResult (x.rat.num ^ babs) ((x.rat.den : Int) ^ babs) := by
  obtain ⟨xo, hx⟩ := x
  cases xo with
  | fixnum n => rfl
  | bignum n => rfl
  | rational q => rfl
  | flonum f => exact hx.elim
  | complex z => exact hx.elim
  | other t => exact hx.elim

theorem isFixnumZero_iff : x.obj.isFixnumZero = true ↔ x.rat = 0 := by
  constructor
  · intro h
    obtain ⟨xo, hx⟩ := x
    cases xo with
    | fixnum n =>
      have hn : n = 0 := by simpa [Obj.isFixnumZero] using h
      exact Int.cast_eq_zero.mpr hn
    | _ => cases h
  · intro h
    have hx : x = ofInt 0 := by
      rw [← rat_ofRat x, h, ← ofRat_intCast, Int.cast_zero]
    have hobj : (ofInt 0 : ExactNumber F).obj = .fixnum 0 := ofInt_obj_fixnum (by decide)
    rw [hx, hobj]
    rfl

theorem ofRat_obj_rational_iff (q : ℚ) :
    (.rational q : Obj F) = (ofRat q : ExactNumber F).obj ↔ q.den ≠ 1 := by
  constructor
  · intro h hden
    have hcanonical := (ofRat q : ExactNumber F).canonical
    rw [← h] at hcanonical
    exact hcanonical hden
  · exact fun h => (ofRat_obj_rational h).symm

/-- A quotient in lowest terms is canonical, but for the denominator -1. -/
theorem powersResult_eq {num den : Int} (hcoprime : IsCoprime num den) (hden : den ≠ 0) :
    powersResult num den =
      .ok (if den = -1 then .rational (num / den) else (ofRat (num / den) : ExactNumber F).obj) := by
  by_cases hone : den = 1
  · have hcast : (num : ℚ) / (1 : Int) = num := by rw [Int.cast_one, div_one]
    rw [powersResult, if_pos hone, hone, if_neg (by omega), bignumFixnum_eq, hcast, ofRat_intCast]
  · have hcanonicalize : mpqCanonicalize num den = .ok ((num : ℚ) / den) := if_neg hden
    have hresult : powersResult num den = (.ok (.rational (num / den)) : Except Stop (Obj F)) := by
      rw [powersResult, if_neg hone, hcanonicalize]
      rfl
    rw [hresult]
    by_cases hminus : den = -1
    · rw [if_pos hminus]
    · have hdvd : ¬ den ∣ num := by
        intro h
        have hunit : IsUnit den := hcoprime.isUnit_of_dvd' h dvd_rfl
        rcases Int.isUnit_iff.mp hunit with h1 | h1
        · exact hone h1
        · exact hminus h1
      have hden1 : ((num : ℚ) / den).den ≠ 1 := by
        intro h
        exact hdvd ((Rat.den_div_intCast_eq_one_iff num den hden).mp h)
      rw [if_neg hminus, ofRat_obj_rational hden1]

theorem coprime_powers (q : ℚ) (m : Nat) : IsCoprime (q.num ^ m) ((q.den : Int) ^ m) := by
  apply IsCoprime.pow
  rw [Int.isCoprime_iff_gcd_eq_one]
  exact q.reduced

/-- The result is the power by the exponent that `abs` leaves, and a rational if the
denominator comes out as -1. -/
theorem expt_eq {e : Int} {m : Nat} (hx : x.rat ≠ 0) (he : e ≠ 0) (hm : absInt e = .ok m) :
    expt d cpow isReal x.obj (.fixnum e) =
      .ok (if e < 0 ∧ x.rat.num ^ m = -1 then .rational (x.rat ^ (e.sign * m))
        else (ofRat (x.rat ^ (e.sign * m)) : ExactNumber F).obj) := by
  have hnum : x.rat.num ^ m ≠ 0 := pow_ne_zero m (Rat.num_ne_zero.mpr hx)
  have hden : (x.rat.den : Int) ^ m ≠ 0 := pow_ne_zero m (Int.natCast_ne_zero.mpr x.rat.den_ne_zero)
  have hcoprime := coprime_powers x.rat m
  have hpow : ((x.rat.num ^ m : Int) : ℚ) / ((x.rat.den : Int) ^ m : Int) = x.rat ^ (m : Int) := by
    rw [zpow_natCast, Int.cast_pow, Int.cast_pow, Int.cast_natCast, ← div_pow, Rat.num_div_den]
  have hzero : ¬ x.obj.isFixnumZero = true := fun h => hx ((isFixnumZero_iff x).mp h)
  rw [expt_fixnum, if_neg hzero, if_neg he, hm]
  rcases lt_or_gt_of_ne he with hneg | hpos
  · have hinv : (((x.rat.den : Int) ^ m : Int) : ℚ) / (x.rat.num ^ m : Int) = x.rat ^ (e.sign * m) := by
      rw [Int.sign_eq_neg_one_of_neg hneg, neg_one_mul, zpow_neg, ← hpow, inv_div]
    have hresult := powersResult_eq (F := F) hcoprime.symm hnum
    rw [hinv] at hresult
    simp only [and_iff_right hneg]
    exact (if_pos hneg).trans hresult
  · have hsame : ((x.rat.num ^ m : Int) : ℚ) / ((x.rat.den : Int) ^ m : Int) = x.rat ^ (e.sign * m) := by
      rw [Int.sign_eq_one_of_pos hpos, one_mul, hpow]
    have hne : (x.rat.den : Int) ^ m ≠ -1 := by
      have hnonneg : 0 ≤ (x.rat.den : Int) ^ m := pow_nonneg (Int.natCast_nonneg _) m
      omega
    have hresult := powersResult_eq (F := F) hcoprime hden
    rw [hsame, if_neg hne] at hresult
    rw [if_neg (fun h => absurd h.1 (by omega))]
    exact (if_neg (by omega)).trans hresult

/-- The power is exact and canonical. -/
def ExactPower (e : Int) : Prop :=
  ∃ z : ExactNumber F, expt d cpow isReal x.obj (.fixnum e) = .ok z.obj ∧ z.rat = x.rat ^ e

/-- What a base and an exponent must be for it. -/
def PowerFits (q : ℚ) (e : Int) : Prop :=
  if q = 0 then e ≠ 0
  else e = 0 ∨ (-2 ^ 31 < e ∧ e < 2 ^ 31 ∨ |q| = 1 ∧ e % 2 ^ 32 ≠ 2 ^ 31) ∧
    ¬ (e < 0 ∧ e % 2 = 1 ∧ q.num = -1)

theorem exactPower_iff_eq {e : Int} :
    ExactPower d cpow isReal x e ↔
      expt d cpow isReal x.obj (.fixnum e) = .ok (ofRat (x.rat ^ e) : ExactNumber F).obj := by
  constructor
  · rintro ⟨z, hz, hrat⟩
    rw [hz, ← hrat, rat_ofRat]
  · intro h
    exact ⟨_, h, ofRat_rat _⟩

/-- Powers with the same parity of the exponents are equal only if the exponents
are, or the base is 1 or -1. -/
theorem zpow_eq_iff {q : ℚ} {i j : Int} (hq : q ≠ 0) (hparity : (i - j) % 2 = 0) :
    q ^ i = q ^ j ↔ i = j ∨ |q| = 1 := by
  constructor
  · intro h
    by_cases habs : |q| = 1
    · exact .inr habs
    · left
      have hpow : |q| ^ i = |q| ^ j := by rw [← abs_zpow, h, abs_zpow]
      exact (zpow_right_inj₀ (abs_pos.mpr hq) habs).mp hpow
  · rintro (rfl | habs)
    · rfl
    · rcases eq_or_eq_neg_of_abs_eq habs with rfl | rfl
      · rw [one_zpow, one_zpow]
      · have heven : Even (i - j) := Int.even_iff.mpr hparity
        have hone : (-1 : ℚ) ^ (i - j) = 1 := heven.neg_one_zpow
        rwa [zpow_sub₀ (by norm_num), div_eq_one_iff_eq (zpow_ne_zero j (by norm_num))] at hone

theorem absInt_cases (e : Int) :
    (e % 2 ^ 32 = 2 ^ 31 ∧ absInt e = .error .undefined) ∨
      (e % 2 ^ 32 ≠ 2 ^ 31 ∧ ∃ m : Nat, absInt e = .ok m ∧ (e.sign * m - e) % 2 = 0 ∧
        (e.sign * m = e ↔ -2 ^ 31 < e ∧ e < 2 ^ 31)) := by
  have hmod : e.bmod (2 ^ 32) % (2 ^ 32 : Nat) = e % (2 ^ 32 : Nat) := Int.bmod_emod
  have hle : -2 ^ 31 ≤ e.bmod (2 ^ 32) := Int.le_bmod (by omega)
  have hlt : e.bmod (2 ^ 32) < 2 ^ 31 := Int.bmod_lt (by omega)
  rw [absInt]
  by_cases hmin : e.bmod (2 ^ 32) = -2 ^ 31
  · exact .inl ⟨by omega, if_pos hmin⟩
  · right
    refine ⟨by omega, _, if_neg hmin, ?_⟩
    rcases lt_trichotomy e 0 with hneg | hzero | hpos
    · rw [Int.sign_eq_neg_one_of_neg hneg]
      omega
    · subst hzero
      simp
    · rw [Int.sign_eq_one_of_pos hpos]
      omega

theorem pow_eq_neg_one_iff {n : Int} {m : Nat} : n ^ m = -1 ↔ n = -1 ∧ m % 2 = 1 := by
  constructor
  · intro h
    have hunit : IsUnit (n ^ m) := by
      rw [h]
      exact Int.isUnit_iff.mpr (.inr rfl)
    by_cases hm : m = 0
    · rw [hm, pow_zero] at h
      omega
    · rcases Int.isUnit_iff.mp ((isUnit_pow_iff hm).mp hunit) with rfl | rfl
      · rw [one_pow] at h
        omega
      · rcases Nat.even_or_odd m with heven | hodd
        · rw [heven.neg_one_pow] at h
          omega
        · exact ⟨rfl, Nat.odd_iff.mp hodd⟩
  · rintro ⟨rfl, hodd⟩
    exact (Nat.odd_iff.mpr hodd).neg_one_pow

theorem ofRat_obj_injective : Function.Injective fun q => (ofRat q : ExactNumber F).obj := by
  intro q r h
  have hrat : (ofRat q : ExactNumber F).rat = (ofRat r : ExactNumber F).rat := congrArg Obj.rat h
  rwa [ofRat_rat, ofRat_rat] at hrat

theorem ofRat_obj_one : (ofRat 1 : ExactNumber F).obj = .fixnum 1 := by
  have hcast := ofRat_intCast (F := F) 1
  rw [Int.cast_one] at hcast
  rw [hcast]
  exact ofInt_obj_fixnum (by decide)

theorem exactPower_zero_iff {e : Int} (hx : x.rat = 0) (he : 0 ≤ e) :
    ExactPower d cpow isReal x e ↔ e ≠ 0 := by
  have hresult : expt d cpow isReal x.obj (.fixnum e) = .ok x.obj := by
    have hobj : x.obj.isFixnumZero = true := (isFixnumZero_iff x).mpr hx
    have hzero : (ofRat 0 : ExactNumber F).obj = .fixnum 0 := by
      have hcast := ofRat_intCast (F := F) 0
      rw [Int.cast_zero] at hcast
      rw [hcast]
      exact ofInt_obj_fixnum (by decide)
    rw [expt_fixnum, if_pos hobj, ← rat_ofRat x, hx, hzero]
    exact int2fix_eq (by decide)
  constructor
  · rintro ⟨z, hz, hrat⟩ rfl
    have hobj : x.obj = z.obj := Except.ok.inj (hresult.symm.trans hz)
    have hrats : x.rat = z.rat := congrArg Obj.rat hobj
    rw [hx, hrat, hx, zpow_zero] at hrats
    exact zero_ne_one hrats
  · intro hne
    exact ⟨x, hresult, by rw [hx, zero_zpow e hne]⟩

theorem exactPower_exponent_zero (hx : x.rat ≠ 0) : ExactPower d cpow isReal x 0 := by
  have hzero : ¬ x.obj.isFixnumZero = true := fun h => hx ((isFixnumZero_iff x).mp h)
  rw [exactPower_iff_eq, expt_fixnum, if_neg hzero, if_pos rfl, zpow_zero, ofRat_obj_one]
  exact int2fix_eq (by decide)

theorem exactPower_nonzero_iff {e : Int} (hx : x.rat ≠ 0) (he : e ≠ 0) :
    ExactPower d cpow isReal x e ↔
      (-2 ^ 31 < e ∧ e < 2 ^ 31 ∨ |x.rat| = 1 ∧ e % 2 ^ 32 ≠ 2 ^ 31) ∧
        ¬ (e < 0 ∧ e % 2 = 1 ∧ x.rat.num = -1) := by
  rw [exactPower_iff_eq]
  rcases absInt_cases e with ⟨hmin, hundefined⟩ | ⟨hmin, m, hm, hparity, hsame⟩
  · have hzero : ¬ x.obj.isFixnumZero = true := fun h => hx ((isFixnumZero_iff x).mp h)
    rw [expt_fixnum, if_neg hzero, if_neg he, hundefined]
    refine iff_of_false (by intro h; cases h) ?_
    rintro ⟨h | h, -⟩
    · omega
    · exact h.2 hmin
  · rw [expt_eq d cpow isReal x hx he hm]
    by_cases hminus : e < 0 ∧ x.rat.num ^ m = -1
    · obtain ⟨hnum, hodd⟩ := pow_eq_neg_one_iff.mp hminus.2
      rw [if_pos hminus]
      refine iff_of_false ?_ ?_
      · intro h
        -- the denominator is 1, and no canonical rational has this
        have hcanonical := (ofRat (x.rat ^ e) : ExactNumber F).canonical
        rw [← Except.ok.inj h] at hcanonical
        apply hcanonical
        rw [Int.sign_eq_neg_one_of_neg hminus.1, neg_one_mul, zpow_neg, zpow_natCast,
          Rat.den_inv_of_ne_zero (pow_ne_zero m hx), Rat.num_pow, hminus.2]
        rfl
      · rintro ⟨-, h⟩
        apply h
        rw [Int.sign_eq_neg_one_of_neg hminus.1] at hparity
        omega
    · rw [if_neg hminus, Except.ok.injEq, ofRat_obj_injective.eq_iff, zpow_eq_iff hx hparity, hsame]
      have hnot : ¬ (e < 0 ∧ e % 2 = 1 ∧ x.rat.num = -1) := by
        rintro ⟨hneg, hodd, hnum⟩
        rw [Int.sign_eq_neg_one_of_neg hneg] at hparity
        exact hminus ⟨hneg, pow_eq_neg_one_iff.mpr ⟨hnum, by omega⟩⟩
      simp only [hnot, not_false_eq_true, and_true, hmin, ne_eq]

/-- A power is right but for 0^0, odd negative powers of -1/n, and exponents
beyond an `int`. -/
theorem exactPower_iff {e : Int} (he : x.rat = 0 → 0 ≤ e) :
    ExactPower d cpow isReal x e ↔ PowerFits x.rat e := by
  rw [PowerFits]
  by_cases hx : x.rat = 0
  · rw [if_pos hx]
    exact exactPower_zero_iff d cpow isReal x hx (he hx)
  · rw [if_neg hx]
    by_cases hzero : e = 0
    · subst hzero
      exact iff_of_true (exactPower_exponent_zero d cpow isReal x hx) (.inl rfl)
    · rw [exactPower_nonzero_iff d cpow isReal x hx hzero, or_iff_right hzero]

/-- (expt -2 -3). -/
theorem exactPower_minus_two :
    ExactPower Signed.doubles (fun z _ => z) (fun f => f.toRat = 0) (ofRat (-2)) (-3) :=
  (exactPower_iff Signed.doubles (fun z _ => z) (fun f => f.toRat = 0) (ofRat (-2))
    (by rw [ofRat_rat]; norm_num)).mpr (by
    have hcast : (-2 : ℚ) = (-2 : Int) := by norm_num
    have hnum : (-2 : ℚ).num ≠ -1 := by
      rw [hcast, Rat.num_intCast]
      decide
    rw [ofRat_rat, PowerFits, if_neg (by norm_num)]
    exact .inr ⟨.inl (by omega), fun h => hnum h.2.2⟩)

/-- (expt 0 0) is 0. -/
theorem not_exactPower_zero_zero :
    ¬ ExactPower Signed.doubles (fun z _ => z) (fun f => f.toRat = 0) (ofRat 0) 0 := by
  rw [exactPower_zero_iff _ _ _ _ (ofRat_rat 0) (by decide)]
  decide

end Power

end Arcueid.Exact
