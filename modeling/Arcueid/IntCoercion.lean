import Mathlib.Data.Int.Log
import Arcueid.Lib.NearestEven
import Arcueid.ExactQuotients

/-! Coercing rationals and flonums (`rational_xcoerce`, `flonum_xcoerce`), above
all to integers. -/

namespace Arcueid.Exact

open Numeral ExactNumber NearestEven

variable {F : Type}

/-- The types that numbers are coerced to. -/
inductive Target where
  | fixnum | bignum | int | rational | num | flonum | complex | string | cons | other
  deriving DecidableEq

inductive Coerced (F : Type) where
  | num (x : Obj F)
  | string (s : List Nat)
  | cons (car cdr : Obj F)

/-- What the coercions use of GMP: `mpq_get_d`, into the doubles and as the
number it gives, and `mpq_get_str`. -/
structure Gmp (F : Type) where
  getD : ℚ → ℚ
  mkflonum : ℚ → F
  getStr : Int → ℚ → List Nat

/-- `mpq_get_d` truncates to a double. What it does with numbers closer to 0 than
the normal doubles depends on the system. -/
structure Truncates (getD : ℚ → ℚ) : Prop where
  normal (q : ℚ) (k : ℤ) : -1022 ≤ k → k ≤ 1023 → 2 ^ k ≤ |q| → |q| < 2 ^ (k + 1) →
    getD q = SignType.sign q * (⌊|q| / 2 ^ (k - 52)⌋ * 2 ^ (k - 52))
  small (q : ℚ) : |q| < 2 ^ (-1022 : ℤ) → |getD q| ≤ |q|

section Definitions

variable (d : Doubles F) (gmp : Gmp F)

/-- `rational_xcoerce`. `arg` is the base for a string, if one is given. -/
def rationalXcoerce (q : ℚ) (stype : Target) (arg : Option Int) : Except Stop (Coerced F) :=
  match stype with
  | .fixnum | .bignum | .int => do
    let bignum := q.num.tdiv q.den
    let drem := gmp.getD (q.num.tmod q.den / q.den)
    if drem > 1 / 2 then .num <$> bignumFixnum (bignum + 1)
    else if drem = 1 / 2 ∧ bignum % 2 = 1 then .num <$> bignumFixnum (bignum + 1)
    else .num <$> bignumFixnum bignum
  | .rational | .num => pure (.num (.rational q))
  | .flonum | .complex => pure (.num (.flonum (gmp.mkflonum q)))
  | .string => pure (.string (gmp.getStr (arg.getD 10) q))
  | .cons => do pure (.cons (← bignumFixnum q.num) (← bignumFixnum q.den))
  | .other => throw (.error "cannot coerce")

def doubleToLong (q : ℚ) : Except Stop Int := long (truncate q)

/-- `flonum_xcoerce`. `FIXNUM_MAX` is rounded up to 2^62 for the comparison. -/
def flonumXcoerce (f : F) (stype : Target) (arg : Option Int) : Except Stop (Coerced F) :=
  match stype with
  | .flonum | .complex | .num => pure (.num (.flonum f))
  | .fixnum | .bignum | .int =>
    match d.value f with
    | none => throw (if d.isNan f then .undefined else .error "cannot coerce inf or nan")
    | some q =>
      if |q| > 2 ^ 62 then pure (.num (.bignum (truncate q)))
      else do
        if ← roundsUp q then .num <$> int2fix (← long ((← doubleToLong q) + 1))
        else .num <$> int2fix (← doubleToLong q)
  | .rational =>
    match d.value f with
    | none => throw .undefined
    | some q => pure (.num (.rational q))
  | stype =>
    if arg ≠ none ∧ arg ≠ some 10 then
      throw (.error "inexact numbers can only be printed in base 10")
    else if stype = .string then pure (.string (d.text f))
    else throw (.error "cannot coerce")

end Definitions

section Truncation

theorem num_tdiv_den (q : ℚ) : q.num.tdiv q.den = truncate q := by
  rw [truncate]
  split
  · rename_i h
    rw [Int.tdiv_eq_ediv_of_nonneg (Rat.num_nonneg.mpr h), Rat.floor_def']
  · rename_i h
    have hneg : 0 ≤ (-q).num := Rat.num_nonneg.mpr (by linarith)
    have hceil : ⌈q⌉ = -⌊-q⌋ := by rw [Int.floor_neg, neg_neg]
    have hnum : q.num = -(-q).num := by rw [Rat.num_neg_eq_neg_num, neg_neg]
    rw [hceil, Rat.floor_def', Rat.den_neg_eq_den, hnum, Int.neg_tdiv,
      Int.tdiv_eq_ediv_of_nonneg hneg]

theorem num_tmod_den (q : ℚ) : (q.num.tmod q.den : ℚ) / q.den = q - truncate q := by
  have hden : (q.den : ℚ) ≠ 0 := Nat.cast_ne_zero.mpr q.den_ne_zero
  have hspec : ((q.den : Int) * q.num.tdiv q.den + q.num.tmod q.den : Int) = q.num :=
    Int.mul_tdiv_add_tmod q.num q.den
  have hcast : (q.den : ℚ) * truncate q + (q.num.tmod q.den : ℚ) = q.num := by
    rw [← num_tdiv_den]
    exact_mod_cast hspec
  have hq : (q.num : ℚ) = q * q.den := (Rat.mul_den_eq_num q).symm
  rw [div_eq_iff hden, sub_mul, ← hq, ← hcast]
  ring

theorem truncate_nonneg {q : ℚ} (h : 0 ≤ q) : truncate q = ⌊q⌋ := if_pos h

theorem truncate_neg {q : ℚ} (h : q < 0) : truncate q = ⌈q⌉ := if_neg (not_le.mpr h)

theorem sub_truncate_of_nonneg {q : ℚ} (h : 0 ≤ q) : 0 ≤ q - truncate q ∧ q - truncate q < 1 := by
  rw [truncate_nonneg h]
  have hle := Int.floor_le q
  have hlt := Int.lt_floor_add_one q
  constructor <;> linarith

theorem sub_truncate_of_neg {q : ℚ} (h : q < 0) : -1 < q - truncate q ∧ q - truncate q ≤ 0 := by
  rw [truncate_neg h]
  have hle := Int.le_ceil q
  have hlt := Int.ceil_lt_add_one q
  constructor <;> linarith

theorem sub_truncate_bounds (q : ℚ) : -1 < q - truncate q ∧ q - truncate q < 1 := by
  rcases lt_or_ge q 0 with h | h
  · have hbounds := sub_truncate_of_neg h
    constructor <;> linarith [hbounds.1, hbounds.2]
  · have hbounds := sub_truncate_of_nonneg h
    constructor <;> linarith [hbounds.1, hbounds.2]

end Truncation

section GetD

variable {getD : ℚ → ℚ} (hget : Truncates getD) {r : ℚ}

include hget

theorem getD_lt_half (hr : r < 1 / 2) (hlow : -1 < r) : getD r < 1 / 2 := by
  by_cases hsmall : |r| < 2 ^ (-1022 : ℤ)
  · have hle := hget.small r hsmall
    have hpow : (2 : ℚ) ^ (-1022 : ℤ) < 1 / 2 := by
      have hlt : (2 : ℚ) ^ (-1022 : ℤ) < 2 ^ (-1 : ℤ) := zpow_lt_zpow_right₀ (by norm_num) (by norm_num)
      rwa [zpow_neg_one, ← one_div] at hlt
    linarith [le_abs_self (getD r)]
  · have hne : |r| ≠ 0 := by
      intro h
      rw [h] at hsmall
      exact hsmall (zpow_pos (by norm_num) _)
    have hpos : 0 < |r| := lt_of_le_of_ne (abs_nonneg r) (Ne.symm hne)
    have hlow' : (2 : ℚ) ^ Int.log 2 |r| ≤ |r| := by exact_mod_cast Int.zpow_log_le_self (by norm_num) hpos
    have hhigh : |r| < (2 : ℚ) ^ (Int.log 2 |r| + 1) := by
      exact_mod_cast Int.lt_zpow_succ_log_self (by norm_num) |r|
    have hbelow : -1022 ≤ Int.log 2 |r| := by
      have hlt := lt_of_le_of_lt (not_lt.mp hsmall) hhigh
      have hexp := (zpow_lt_zpow_iff_right₀ (by norm_num : (1 : ℚ) < 2)).mp hlt
      omega
    have habove : Int.log 2 |r| ≤ 1023 := by
      have hone : |r| < 2 ^ (0 : ℤ) := by
        rw [zpow_zero, abs_lt]
        constructor <;> linarith
      have hexp := (zpow_lt_zpow_iff_right₀ (by norm_num : (1 : ℚ) < 2)).mp (lt_of_le_of_lt hlow' hone)
      omega
    have hspec := hget.normal r _ hbelow habove hlow' hhigh
    have hunit : (0 : ℚ) < 2 ^ (Int.log 2 |r| - 52) := zpow_pos (by norm_num) _
    have hfloor : (0 : ℤ) ≤ ⌊|r| / 2 ^ (Int.log 2 |r| - 52)⌋ :=
      Int.floor_nonneg.mpr (div_nonneg hpos.le hunit.le)
    have hnonneg : 0 ≤ (⌊|r| / 2 ^ (Int.log 2 |r| - 52)⌋ : ℚ) * 2 ^ (Int.log 2 |r| - 52) :=
      mul_nonneg (Int.cast_nonneg hfloor) hunit.le
    have hle : (⌊|r| / 2 ^ (Int.log 2 |r| - 52)⌋ : ℚ) * 2 ^ (Int.log 2 |r| - 52) ≤ |r| :=
      (le_div_iff₀ hunit).mp (Int.floor_le _)
    rw [hspec]
    rcases lt_or_gt_of_ne (abs_ne_zero.mp hne) with hneg | hgt
    · rw [sign_neg hneg, SignType.coe_neg_one]
      linarith
    · rw [sign_pos hgt, SignType.coe_one]
      linarith [abs_of_pos hgt]

theorem getD_of_half_le (hr : 1 / 2 ≤ r) (hlt : r < 1) : getD r = ⌊r * 2 ^ 53⌋ / 2 ^ 53 := by
  have hpos : 0 < r := by linarith
  have habs : |r| = r := abs_of_pos hpos
  have hspec := hget.normal r (-1) (by norm_num) (by norm_num) (by rw [habs]; norm_num; linarith)
    (by rw [habs]; norm_num; exact hlt)
  have hunit : (2 : ℚ) ^ ((-1 : ℤ) - 52) = (2 ^ 53)⁻¹ := by
    rw [← zpow_natCast, ← zpow_neg]
    norm_num
  rw [hspec, habs, sign_pos hpos, hunit, div_inv_eq_mul, ← div_eq_mul_inv]
  simp

theorem getD_gt_half_iff (hlow : -1 < r) (hlt : r < 1) : getD r > 1 / 2 ↔ 1 / 2 + 1 / 2 ^ 53 ≤ r := by
  by_cases hr : r < 1 / 2
  · have hless := getD_lt_half hget hr hlow
    have hunit : (0 : ℚ) < 1 / 2 ^ 53 := by positivity
    exact iff_of_false (by linarith) (by linarith)
  · rw [getD_of_half_le hget (not_lt.mp hr) hlt]
    have hfloor : 2 ^ 52 + 1 ≤ ⌊r * 2 ^ 53⌋ ↔ ((2 ^ 52 + 1 : Int) : ℚ) ≤ r * 2 ^ 53 := Int.le_floor
    have hhalf : (⌊r * 2 ^ 53⌋ : ℚ) / 2 ^ 53 > 1 / 2 ↔ 2 ^ 52 + 1 ≤ ⌊r * 2 ^ 53⌋ := by
      rw [gt_iff_lt, lt_div_iff₀ (by positivity), Int.add_one_le_iff]
      have hcast : (1 : ℚ) / 2 * 2 ^ 53 = ((2 ^ 52 : Int) : ℚ) := by norm_num
      rw [hcast, Int.cast_lt]
    rw [hhalf, hfloor]
    constructor
    · intro h
      push_cast at h
      linarith
    · intro h
      push_cast
      linarith

theorem getD_eq_half_iff (hlow : -1 < r) (hlt : r < 1) :
    getD r = 1 / 2 ↔ 1 / 2 ≤ r ∧ r < 1 / 2 + 1 / 2 ^ 53 := by
  by_cases hr : r < 1 / 2
  · have hless := getD_lt_half hget hr hlow
    exact iff_of_false (by linarith) (fun h => by linarith [h.1])
  · have hge := not_lt.mp hr
    have hgt := getD_gt_half_iff hget hlow hlt
    have hleast : 1 / 2 ≤ getD r := by
      rw [getD_of_half_le hget hge hlt, le_div_iff₀ (by positivity)]
      have hfloor : (2 ^ 52 : Int) ≤ ⌊r * 2 ^ 53⌋ := by
        rw [Int.le_floor]
        push_cast
        linarith
      calc (1 / 2 * 2 ^ 53 : ℚ) = ((2 ^ 52 : Int) : ℚ) := by norm_num
        _ ≤ ⌊r * 2 ^ 53⌋ := Int.cast_le.mpr hfloor
    constructor
    · intro h
      exact ⟨hge, not_le.mp fun hle => absurd (hgt.mpr hle) (by linarith)⟩
    · rintro ⟨-, h⟩
      have hnot : ¬ getD r > 1 / 2 := fun hcon => absurd (hgt.mp hcon) (not_le.mpr h)
      linarith [not_lt.mp hnot]

end GetD

/-- An integer is returned, the nearest to `q` or the even one of the two. -/
def ToNearest (r : Except Stop (Coerced F)) (q : ℚ) : Prop :=
  ∃ n : Int, r = .ok (.num (ofInt n : ExactNumber F).obj) ∧ Rounds q n

theorem toNearest_iff {r : Except Stop (Coerced F)} {n : Int} {q : ℚ}
    (h : r = .ok (.num (ofInt n : ExactNumber F).obj)) : ToNearest r q ↔ Rounds q n := by
  constructor
  · rintro ⟨m, hm, hrounds⟩
    have hobj := Coerced.num.inj (Except.ok.inj (h.symm.trans hm))
    rwa [ofInt_obj_injective hobj]
  · exact fun hrounds => ⟨n, h, hrounds⟩

section Rationals

variable (gmp : Gmp F) (hget : Truncates gmp.getD) (q : ℚ)

/-- What `rational_xcoerce` rounds to. -/
def roundedRational : Int :=
  if 1 / 2 ≤ q - truncate q ∧ (1 / 2 + 1 / 2 ^ 53 ≤ q - truncate q ∨ truncate q % 2 = 1) then
    truncate q + 1
  else truncate q

include hget in
theorem rationalXcoerce_int :
    rationalXcoerce gmp q .int none = .ok (.num (ofInt (roundedRational q) : ExactNumber F).obj) := by
  obtain ⟨hlow, hhigh⟩ := sub_truncate_bounds q
  have hgt := getD_gt_half_iff hget hlow hhigh
  have heq := getD_eq_half_iff hget hlow hhigh
  have hunit : (0 : ℚ) < 1 / 2 ^ 53 := by positivity
  have hresult : ∀ n : Int, (Coerced.num <$> bignumFixnum n : Except Stop (Coerced F)) =
      .ok (.num (ofInt n : ExactNumber F).obj) := by
    intro n
    rw [bignumFixnum_eq]
    rfl
  rw [rationalXcoerce, num_tmod_den, num_tdiv_den, roundedRational]
  simp only [hresult, hgt, heq]
  by_cases habove : 1 / 2 + 1 / 2 ^ 53 ≤ q - truncate q
  · rw [if_pos habove, if_pos ⟨by linarith, .inl habove⟩]
  · rw [if_neg habove]
    by_cases hbump : 1 / 2 ≤ q - truncate q ∧ truncate q % 2 = 1
    · rw [if_pos ⟨⟨hbump.1, not_le.mp habove⟩, hbump.2⟩, if_pos ⟨hbump.1, .inr hbump.2⟩]
    · rw [if_neg (fun h => hbump ⟨h.1.1, h.2⟩), if_neg]
      rintro ⟨hhalf, h | h⟩
      · exact habove h
      · exact hbump ⟨hhalf, h⟩

/-- Where this is right. -/
def RationalRounds : Prop :=
  |q - truncate q| < 1 / 2 ∨
    (|q - truncate q| = 1 / 2 ∧ (0 < q ∨ truncate q % 2 = 0)) ∨
    (0 < q ∧ 1 / 2 < |q - truncate q| ∧
      (1 / 2 + 1 / 2 ^ 53 ≤ |q - truncate q| ∨ truncate q % 2 = 1))

theorem rounds_truncate_iff : Rounds q (truncate q) ↔
    |q - truncate q| < 1 / 2 ∨ |q - truncate q| = 1 / 2 ∧ truncate q % 2 = 0 := by
  rw [rounds_iff, Int.even_iff]
  constructor
  · rintro ⟨hle, htie⟩
    rcases lt_or_eq_of_le hle with h | h
    · exact .inl h
    · exact .inr ⟨h, htie h⟩
  · rintro (h | ⟨h, heven⟩)
    · exact ⟨h.le, fun htie => absurd htie (ne_of_lt h)⟩
    · exact ⟨h.le, fun _ => heven⟩

theorem rounds_truncate_succ_iff (hlow : 1 / 2 ≤ q - truncate q) (hlt : q - truncate q < 1) :
    Rounds q (truncate q + 1) ↔ 1 / 2 < q - truncate q ∨ truncate q % 2 = 1 := by
  have habs : |q - (truncate q + 1 : Int)| = 1 - (q - truncate q) := by
    rw [Int.cast_add, Int.cast_one, abs_of_neg (by linarith)]
    ring
  rw [rounds_iff, habs, Int.even_iff]
  constructor
  · rintro ⟨-, htie⟩
    rcases lt_or_eq_of_le hlow with h | h
    · exact .inl h
    · right
      have heven := htie (by rw [← h]; norm_num)
      omega
  · intro h
    refine ⟨by linarith, fun htie => ?_⟩
    rcases h with h | h
    · linarith
    · omega

theorem roundedRational_iff : Rounds q (roundedRational q) ↔ RationalRounds q := by
  rw [RationalRounds, roundedRational]
  rcases lt_or_ge 0 q with hpos | hneg
  · obtain ⟨hlow, hhigh⟩ := sub_truncate_of_nonneg hpos.le
    rw [abs_of_nonneg hlow]
    by_cases hhalf : 1 / 2 ≤ q - truncate q
    · by_cases hbump : 1 / 2 + 1 / 2 ^ 53 ≤ q - truncate q ∨ truncate q % 2 = 1
      · rw [if_pos ⟨hhalf, hbump⟩, rounds_truncate_succ_iff q hhalf hhigh]
        rcases lt_or_eq_of_le hhalf with h | h
        · exact iff_of_true (.inl h) (.inr (.inr ⟨hpos, h, hbump⟩))
        · have hodd : truncate q % 2 = 1 := by
            rcases hbump with hb | hb
            · have hunit : (0 : ℚ) < 1 / 2 ^ 53 := by positivity
              linarith
            · exact hb
          exact iff_of_true (.inr hodd) (.inr (.inl ⟨h.symm, .inl hpos⟩))
      · have heven : truncate q % 2 = 0 := by omega
        rw [if_neg (fun h => hbump h.2), rounds_truncate_iff, abs_of_nonneg hlow]
        constructor
        · rintro (h | ⟨h, -⟩)
          · exact .inl h
          · exact .inr (.inl ⟨h, .inl hpos⟩)
        · rintro (h | ⟨h, -⟩ | ⟨-, -, h⟩)
          · exact .inl h
          · exact .inr ⟨h, heven⟩
          · exact absurd h hbump
    · rw [if_neg (fun h => hhalf h.1), rounds_truncate_iff, abs_of_nonneg hlow]
      exact iff_of_true (.inl (not_le.mp hhalf)) (.inl (not_le.mp hhalf))
  · have hle : q - truncate q ≤ 0 := by
      rcases lt_or_eq_of_le hneg with h | h
      · exact (sub_truncate_of_neg h).2
      · subst h
        norm_num [truncate]
    rw [if_neg (fun h => by linarith [h.1]), rounds_truncate_iff]
    simp [not_lt.mpr hneg]

end Rationals

section Flonums

variable (d : Doubles F) {f : F} {q : ℚ}

/-- Doubles of this size are coerced by rounding them. -/
theorem flonumXcoerce_int (hf : d.value f = some q) (hq : |q| < 2 ^ 52) :
    flonumXcoerce d f .int none = (roundDouble q >>= fun n =>
      .ok (.num (ofInt n : ExactNumber F).obj)) := by
  have hmax := fixnumMax_eq
  obtain ⟨hlow, hhigh⟩ := sub_truncate_bounds q
  obtain ⟨hqlow, hqhigh⟩ := abs_lt.mp hq
  have hbelow : -2 ^ 53 < truncate q := by
    have hcast : ((-2 ^ 53 : Int) : ℚ) < truncate q := by
      push_cast
      linarith
    exact Int.cast_lt.mp hcast
  have habove : truncate q < 2 ^ 53 := by
    have hcast : (truncate q : ℚ) < ((2 ^ 53 : Int) : ℚ) := by
      push_cast
      linarith
    exact Int.cast_lt.mp hcast
  have hlong : doubleToLong q = .ok (truncate q) := long_eq (by omega)
  have hresult : ∀ n : Int, -2 ^ 54 < n → n < 2 ^ 54 → (Coerced.num <$> int2fix n : Except Stop (Coerced F)) =
      .ok (.num (ofInt n : ExactNumber F).obj) := by
    intro n hn hn'
    rw [int2fix_eq (by omega), ofInt_obj_fixnum (by omega)]
    rfl
  have hsmall : ¬ |q| > 2 ^ 62 := by linarith
  rw [flonumXcoerce]
  simp only [hf, if_neg hsmall, hlong]
  rw [roundDouble]
  rcases roundsUp_cases q with hup | ⟨b, hup⟩
  · rw [hup]
    rfl
  · rw [hup]
    cases b with
    | false => exact hresult _ (by omega) (by omega)
    | true =>
      have hsucc : long (truncate q + 1) = .ok (truncate q + 1) := long_eq (by omega)
      have hstep : (long (truncate q + 1) >>= fun n => Coerced.num <$> int2fix n :
          Except Stop (Coerced F)) = .ok (.num (ofInt (truncate q + 1) : ExactNumber F).obj) := by
        rw [hsucc]
        exact hresult _ (by omega) (by omega)
      exact hstep

/-- An integer against the floor of `q`. -/
theorem rounds_floor_add_iff (k : Int) : Rounds q (⌊q⌋ + k) ↔
    |q - ⌊q⌋ - k| ≤ 1 / 2 ∧ (|q - ⌊q⌋ - k| = 1 / 2 → (⌊q⌋ + k) % 2 = 0) := by
  rw [rounds_iff, Int.even_iff, Int.cast_add, sub_add_eq_sub_sub]

/-- Where the rounding is right. -/
def FlonumRounds (q : ℚ) : Prop := q = truncate q ∨ 0 < q ∧ ¬ (q - ⌊q⌋ = 1 / 2 ∧ 2 ^ 31 ≤ ⌊q⌋)

theorem roundDouble_of_false (h : roundsUp q = .ok false) :
    (∃ n, roundDouble q = .ok n ∧ Rounds q n) ↔ Rounds q (truncate q) := by
  have hround : roundDouble q = .ok (truncate q) := by
    rw [roundDouble, h]
    rfl
  simp [hround]

theorem roundDouble_of_true (h : roundsUp q = .ok true) :
    (∃ n, roundDouble q = .ok n ∧ Rounds q n) ↔ Rounds q (truncate q + 1) := by
  have hround : roundDouble q = .ok (truncate q + 1) := by
    rw [roundDouble, h]
    rfl
  simp [hround]

/-- The cases of the test, with the remainder over the floor. -/
theorem roundsUp_spec (q : ℚ) :
    (1 / 2 < q - ⌊q⌋ ∧ roundsUp q = .ok true) ∨
      (q - ⌊q⌋ < 1 / 2 ∧ roundsUp q = .ok false) ∨
      (q - ⌊q⌋ = 1 / 2 ∧ -2 ^ 31 ≤ ⌊q⌋ ∧ ⌊q⌋ < 2 ^ 31 ∧ roundsUp q = .ok (⌊q⌋ % 2 = 1)) ∨
      (q - ⌊q⌋ = 1 / 2 ∧ (⌊q⌋ < -2 ^ 31 ∨ 2 ^ 31 ≤ ⌊q⌋) ∧ roundsUp q = .error .undefined) := by
  rw [roundsUp, intOdd]
  rcases lt_trichotomy (q - ⌊q⌋) (1 / 2) with h | h | h
  · exact .inr (.inl ⟨h, by rw [if_neg (by linarith), if_neg h.ne]; rfl⟩)
  · rw [if_neg (by linarith), if_pos h]
    by_cases hrange : -2 ^ 31 ≤ ⌊q⌋ ∧ ⌊q⌋ < 2 ^ 31
    · exact .inr (.inr (.inl ⟨h, hrange.1, hrange.2, if_pos hrange⟩))
    · exact .inr (.inr (.inr ⟨h, by omega, if_neg hrange⟩))
  · exact .inl ⟨h, if_pos h⟩

/-- How far an integer is that is reached from the floor. -/
theorem rounds_above {k : Int} (hk : q - ⌊q⌋ ≤ k) : Rounds q (⌊q⌋ + k) ↔
    k - (q - ⌊q⌋) ≤ 1 / 2 ∧ (k - (q - ⌊q⌋) = 1 / 2 → (⌊q⌋ + k) % 2 = 0) := by
  rw [rounds_floor_add_iff, abs_sub_comm, abs_of_nonneg (by linarith)]

theorem rounds_floor : Rounds q ⌊q⌋ ↔
    q - ⌊q⌋ ≤ 1 / 2 ∧ (q - ⌊q⌋ = 1 / 2 → ⌊q⌋ % 2 = 0) := by
  have hfloor := Int.floor_le q
  rw [rounds_iff, Int.even_iff, abs_of_nonneg (by linarith)]

theorem roundDouble_of_nonneg (hq : 0 ≤ q) :
    (∃ n, roundDouble q = .ok n ∧ Rounds q n) ↔ ¬ (q - ⌊q⌋ = 1 / 2 ∧ 2 ^ 31 ≤ ⌊q⌋) := by
  have hlt := Int.lt_floor_add_one q
  have hfloor : 0 ≤ ⌊q⌋ := Int.floor_nonneg.mpr hq
  have hone : Rounds q (⌊q⌋ + 1) ↔ 1 - (q - ⌊q⌋) ≤ 1 / 2 ∧ (1 - (q - ⌊q⌋) = 1 / 2 → (⌊q⌋ + 1) % 2 = 0) := by
    rw [rounds_above (by push_cast; linarith), Int.cast_one]
  rcases roundsUp_spec q with ⟨h, hup⟩ | ⟨h, hup⟩ | ⟨h, -, hmax, hup⟩ | ⟨h, hmax, hup⟩
  · rw [roundDouble_of_true hup, truncate_nonneg hq, hone]
    exact iff_of_true ⟨by linarith, fun htie => by linarith⟩ (fun htie => by linarith [htie.1])
  · rw [roundDouble_of_false hup, truncate_nonneg hq, rounds_floor]
    exact iff_of_true ⟨by linarith, fun htie => by linarith⟩ (fun htie => by linarith [htie.1])
  · by_cases hodd : ⌊q⌋ % 2 = 1
    · rw [decide_eq_true hodd] at hup
      rw [roundDouble_of_true hup, truncate_nonneg hq, hone]
      exact iff_of_true ⟨by linarith, fun _ => by omega⟩ (fun htie => by omega)
    · rw [decide_eq_false hodd] at hup
      rw [roundDouble_of_false hup, truncate_nonneg hq, rounds_floor]
      exact iff_of_true ⟨by linarith, fun _ => by omega⟩ (fun htie => by omega)
  · have hround : roundDouble q = .error .undefined := by
      rw [roundDouble, hup]
      rfl
    refine iff_of_false ?_ (fun hnot => hnot ⟨h, by omega⟩)
    rintro ⟨n, hn, -⟩
    cases hround.symm.trans hn

/-- A negative number is rounded on after its truncation went up. -/
theorem roundDouble_of_neg (hq : q < 0) (hint : q ≠ truncate q) :
    ¬ ∃ n, roundDouble q = .ok n ∧ Rounds q n := by
  have hlt := Int.lt_floor_add_one q
  have hfract : 0 < q - ⌊q⌋ := by
    refine lt_of_le_of_ne (by linarith [Int.floor_le q]) ?_
    intro hzero
    have hfloor : q = ⌊q⌋ := by linarith
    apply hint
    rw [truncate_neg hq, hfloor, Int.ceil_intCast]
  have hceil : ⌈q⌉ = ⌊q⌋ + 1 := by
    rw [Int.ceil_eq_iff]
    push_cast
    constructor <;> linarith
  have hone : Rounds q (⌊q⌋ + 1) ↔ 1 - (q - ⌊q⌋) ≤ 1 / 2 ∧ (1 - (q - ⌊q⌋) = 1 / 2 → (⌊q⌋ + 1) % 2 = 0) := by
    rw [rounds_above (by push_cast; linarith), Int.cast_one]
  have htwo : ¬ Rounds q (⌊q⌋ + 1 + 1) := by
    rw [add_assoc, rounds_above (by push_cast; linarith)]
    push_cast
    rintro ⟨h, -⟩
    linarith
  rcases roundsUp_spec q with ⟨h, hup⟩ | ⟨h, hup⟩ | ⟨h, -, hmax, hup⟩ | ⟨h, hmax, hup⟩
  · rw [roundDouble_of_true hup, truncate_neg hq, hceil]
    exact htwo
  · rw [roundDouble_of_false hup, truncate_neg hq, hceil, hone]
    rintro ⟨hle, -⟩
    linarith
  · by_cases hodd : ⌊q⌋ % 2 = 1
    · rw [decide_eq_true hodd] at hup
      rw [roundDouble_of_true hup, truncate_neg hq, hceil]
      exact htwo
    · rw [decide_eq_false hodd] at hup
      rw [roundDouble_of_false hup, truncate_neg hq, hceil, hone]
      rintro ⟨-, htie⟩
      have heven := htie (by linarith)
      omega
  · have hround : roundDouble q = .error .undefined := by
      rw [roundDouble, hup]
      rfl
    rintro ⟨n, hn, -⟩
    cases hround.symm.trans hn

theorem roundDouble_iff : (∃ n, roundDouble q = .ok n ∧ Rounds q n) ↔ FlonumRounds q := by
  rw [FlonumRounds]
  rcases lt_or_ge q 0 with hneg | hnonneg
  · by_cases hint : q = truncate q
    · have hfloor : q - ⌊q⌋ = 0 := by
        rw [hint, Int.floor_intCast, sub_self]
      have hup : roundsUp q = .ok false := by
        rw [roundsUp, hfloor]
        norm_num
        rfl
      rw [roundDouble_of_false hup, rounds_iff, ← hint, sub_self, abs_zero]
      exact iff_of_true ⟨by norm_num, by norm_num⟩ (.inl rfl)
    · refine iff_of_false (roundDouble_of_neg hneg hint) ?_
      rintro (h | ⟨h, -⟩)
      · exact hint h
      · linarith
  · rw [roundDouble_of_nonneg hnonneg]
    constructor
    · intro h
      rcases lt_or_eq_of_le hnonneg with hpos | hzero
      · exact .inr ⟨hpos, h⟩
      · left
        rw [← hzero, truncate_nonneg le_rfl]
        norm_num
    · rintro (hint | ⟨-, h⟩)
      · rintro ⟨htie, -⟩
        rw [truncate_nonneg hnonneg] at hint
        linarith
      · exact h

theorem flonumXcoerce_toNearest_iff (hf : d.value f = some q) (hq : |q| < 2 ^ 52) :
    ToNearest (flonumXcoerce d f .int none) q ↔ FlonumRounds q := by
  rw [← roundDouble_iff, flonumXcoerce_int d hf hq]
  cases hround : roundDouble q with
  | error e =>
    refine iff_of_false ?_ (fun h => by obtain ⟨n, hn, -⟩ := h; cases hn)
    rintro ⟨n, hn, -⟩
    cases hn
  | ok n =>
    have hok : (.ok n >>= fun n => .ok (.num (ofInt n : ExactNumber F).obj) : Except Stop (Coerced F)) =
        .ok (.num (ofInt n : ExactNumber F).obj) := rfl
    rw [toNearest_iff hok]
    simp

end Flonums

/-- Rationals and flonums are coerced to the nearest integer but for what these
conditions leave out; where nothing is left out, negation commutes with it. -/
theorem coercions_to_int (d : Doubles F) (gmp : Gmp F) (hget : Truncates gmp.getD) :
    (∀ q : ℚ, ToNearest (rationalXcoerce gmp q .int none) q ↔ RationalRounds q) ∧
      (∀ (f : F) (q : ℚ), d.value f = some q → |q| < 2 ^ 52 →
        (ToNearest (flonumXcoerce d f .int none) q ↔ FlonumRounds q)) ∧
      (∀ (q : ℚ) (m n : Int), RationalRounds q → RationalRounds (-q) →
        rationalXcoerce gmp q .int none = .ok (.num (ofInt m : ExactNumber F).obj) →
        rationalXcoerce gmp (-q) .int none = .ok (.num (ofInt n : ExactNumber F).obj) → n = -m) ∧
      (∀ (f g : F) (q : ℚ) (m n : Int), d.value f = some q → d.value g = some (-q) → |q| < 2 ^ 52 →
        FlonumRounds q → FlonumRounds (-q) →
        flonumXcoerce d f .int none = .ok (.num (ofInt m : ExactNumber F).obj) →
        flonumXcoerce d g .int none = .ok (.num (ofInt n : ExactNumber F).obj) → n = -m) := by
  have hrational : ∀ q : ℚ, ToNearest (rationalXcoerce gmp q .int none) q ↔ RationalRounds q := by
    intro q
    rw [toNearest_iff (rationalXcoerce_int gmp hget q), roundedRational_iff]
  refine ⟨hrational, fun f q => flonumXcoerce_toNearest_iff d, ?_, ?_⟩
  · intro q m n hq hneg hm hn
    have hround := (toNearest_iff hm).mp ((hrational q).mpr hq)
    have hround' := (toNearest_iff hn).mp ((hrational (-q)).mpr hneg)
    exact hround'.unique hround.neg
  · intro f g q m n hf hg hsmall hq hneg hm hn
    have hsmall' : |-q| < 2 ^ 52 := by rwa [abs_neg]
    have hround := (toNearest_iff hm).mp ((flonumXcoerce_toNearest_iff d hf hsmall).mpr hq)
    have hround' := (toNearest_iff hn).mp ((flonumXcoerce_toNearest_iff d hg hsmall').mpr hneg)
    exact hround'.unique hround.neg

/-- `mpq_get_d`, with what is too small for a normal double made 0. -/
def mpqGetD (q : ℚ) : ℚ :=
  if |q| < 2 ^ (-1022 : ℤ) then 0
  else SignType.sign q * (⌊|q| / 2 ^ (Int.log 2 |q| - 52)⌋ * 2 ^ (Int.log 2 |q| - 52))

theorem mpqGetD_truncates : Truncates mpqGetD where
  normal q k hlow _ hle hlt := by
    have hsmall : ¬ |q| < 2 ^ (-1022 : ℤ) := by
      have hpow : (2 : ℚ) ^ (-1022 : ℤ) ≤ 2 ^ k := zpow_le_zpow_right₀ (by norm_num) hlow
      exact not_lt.mpr (hpow.trans hle)
    have hpos : 0 < |q| := lt_of_lt_of_le (zpow_pos (by norm_num) k) hle
    have hlog : Int.log 2 |q| = k := by
      have hge := (Int.zpow_le_iff_le_log (b := 2) (by norm_num) hpos).mp (by exact_mod_cast hle)
      have hless := (Int.lt_zpow_iff_log_lt (b := 2) (by norm_num) hpos).mp (by exact_mod_cast hlt)
      omega
    rw [mpqGetD, if_neg hsmall, hlog]
  small q hq := by
    rw [mpqGetD, if_pos hq, abs_zero]
    exact abs_nonneg q

def signedGmp : Gmp Signed where
  getD := mpqGetD
  mkflonum := .val
  getStr _ q := fixnumText q.num ++ '/'.toNat :: decimal q.den

/-- (coerce 7/2 'int). -/
theorem coercion_seven_halves : ToNearest (rationalXcoerce signedGmp (7 / 2) .int none) (7 / 2) :=
  ((coercions_to_int Signed.doubles signedGmp mpqGetD_truncates).1 (7 / 2)).mpr (by
    have htrunc : truncate (7 / 2) = 3 := by
      rw [truncate_nonneg (by norm_num), Int.floor_eq_iff]
      norm_num
    rw [RationalRounds, htrunc]
    norm_num)

/-- (coerce -7/4 'int) is -1, and (coerce -0.5 'int) is 1. -/
theorem not_toNearest_negative :
    ¬ ToNearest (rationalXcoerce signedGmp (-7 / 4) .int none) (-7 / 4) ∧
      ¬ ToNearest (flonumXcoerce Signed.doubles (.val (-1 / 2)) .int none) (-1 / 2) := by
  constructor
  · have htrunc : truncate (-7 / 4) = -1 := by
      rw [truncate_neg (by norm_num), Int.ceil_eq_iff]
      norm_num
    rw [toNearest_iff (rationalXcoerce_int signedGmp mpqGetD_truncates _), roundedRational_iff,
      RationalRounds, htrunc]
    norm_num [abs_of_neg]
  · have htrunc : truncate (-1 / 2) = 0 := by
      rw [truncate_neg (by norm_num), Int.ceil_eq_iff]
      norm_num
    have hvalue : Signed.doubles.value (.val (-1 / 2)) = some (-1 / 2) := rfl
    rw [flonumXcoerce_toNearest_iff Signed.doubles hvalue (by norm_num [abs_of_neg]), FlonumRounds,
      htrunc]
    norm_num

end Arcueid.Exact
