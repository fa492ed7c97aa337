import Arcueid.ExactNumbers
import Arcueid.InlineAgree

/-! Quotients of exact numbers, and of integers with their remainders. -/

namespace Arcueid

def Signed.doubles : Doubles Signed where
  toFloats := floats
  value f := some f.toRat
  isNan _ := false
  positive f := 0 < f.toRat
  negative f := f.toRat < 0

namespace Exact

open Numeral ExactNumber

variable {F : Type}

section Division

/-- A divisor: an exact number, or a zero of any representation. -/
def DivisorObj (y : Obj F) : Prop := Canonical y ∨ y = .bignum 0 ∨ y = .rational 0

variable (d : Doubles F) (x : ExactNumber F)

/-- The quotient is exact and canonical, and zero divides nothing. -/
def ExactQuotient (y : Obj F) : Prop :=
  if y.rat = 0 then div2 d x.obj y = .error (.error "Division by zero")
  else ∃ z : ExactNumber F, div2 d x.obj y = .ok z.obj ∧ z.rat = x.rat / y.rat

theorem exactQuotient_iff_eq {y : Obj F} :
    ExactQuotient d x y ↔ div2 d x.obj y =
      if y.rat = 0 then .error (.error "Division by zero")
      else .ok (ofRat (x.rat / y.rat) : ExactNumber F).obj := by
  rw [ExactQuotient]
  split
  · rfl
  · constructor
    · rintro ⟨z, hz, hrat⟩
      rw [hz, ← hrat, rat_ofRat]
    · intro h
      exact ⟨_, h, ofRat_rat _⟩

theorem divRational_eq (q r : ℚ) : divRational q r =
    if r = 0 then .error (.error "Division by zero")
    else .ok (ofRat (q / r) : ExactNumber F).obj := by
  rw [divRational, rationalInt_eq]
  by_cases h : r = 0
  · rw [if_pos h.symm, if_pos h]
    rfl
  · rw [if_neg (Ne.symm h), if_neg h]

theorem div2_zero {y : Obj F} (hy : y = .bignum 0 ∨ y = .rational 0) :
    div2 d x.obj y = .error (.error "Division by zero") := by
  obtain ⟨xo, hx⟩ := x
  rcases hy with rfl | rfl <;> cases xo with
  | fixnum m => rfl
  | bignum m => rfl
  | rational q => rfl
  | flonum f => exact hx.elim
  | complex z => exact hx.elim
  | other t => exact hx.elim

theorem div2_slow (y : ExactNumber F) (h : ¬ (x.obj.isFixnum ∧ y.obj.isFixnum)) :
    div2 d x.obj y.obj = divRational x.rat y.rat := by
  have hslow : div2 d x.obj y.obj =
      typeCases d (divCases d) "Invalid types for division" x.obj y.obj := by
    rw [div2]
    intro m n hx hy
    rw [hx, hy] at h
    exact h ⟨rfl, rfl⟩
  rw [hslow]
  exact typeCases_exact d x y (fun _ _ => rfl) (fun _ _ => rfl) h

/-- The fast path, where the quotient is one of fixnums. -/
theorem div2_fixnums {m n : Int} (hm : -fixnumMax ≤ m ∧ m ≤ fixnumMax) (hn : n ≠ 0) :
    div2 d (.fixnum m) (.fixnum n) =
      if n ∣ m then .ok (ofInt (m / n) : ExactNumber F).obj
      else .ok (.rational (mkrationall m n)) := by
  have hmax := fixnumMax_eq
  have hquot : (m.tdiv n).natAbs ≤ m.natAbs := Int.natAbs_tdiv_le_natAbs m n
  have hres : ldiv m n = .ok (m.tdiv n, m.tmod n) := by
    rw [ldiv, if_neg hn, long_eq (by omega)]
    rfl
  have hfast : div2 d (.fixnum m) (.fixnum n) =
      if m.tmod n = 0 then fixnumResult (m.tdiv n) else .ok (.rational (mkrationall m n)) := by
    rw [div2, if_neg hn, hres]
    rfl
  rw [hfast]
  by_cases hdvd : n ∣ m
  · rw [if_pos (Int.tmod_eq_zero_of_dvd hdvd), if_pos hdvd, fixnumResult_eq (by omega),
      Int.tdiv_eq_ediv_of_dvd hdvd]
  · rw [if_neg (fun h => hdvd (Int.dvd_of_tmod_eq_zero h)), if_neg hdvd]

/-- A fixnum makes a denominator only if it is positive. -/
theorem mkrationall_eq_iff {m n : Int} (hm : m ≠ 0) (hn : n ≠ 0)
    (hrange : -fixnumMax ≤ n ∧ n ≤ fixnumMax) :
    mkrationall m n = (m : ℚ) / n ↔ 0 < n := by
  have hmax := fixnumMax_eq
  have hmq : (m : ℚ) ≠ 0 := Int.cast_ne_zero.mpr hm
  have hnq : (n : ℚ) ≠ 0 := Int.cast_ne_zero.mpr hn
  have hden : n % 2 ^ 64 ≠ 0 := by omega
  have hdenq : ((n % 2 ^ 64 : Int) : ℚ) ≠ 0 := Int.cast_ne_zero.mpr hden
  rw [mkrationall, div_eq_div_iff hdenq hnq, mul_right_inj' hmq, Int.cast_inj]
  omega

theorem ofRat_obj_rational {q : ℚ} (h : q.den ≠ 1) : (ofRat q : ExactNumber F).obj = .rational q := by
  rw [ofRat, dif_neg h]

theorem exactQuotient_fixnums {m n : Int} {y : Obj F} (hx : x.obj = .fixnum m)
    (hy : y = .fixnum n) (hm : -fixnumMax ≤ m ∧ m ≤ fixnumMax)
    (hn : -fixnumMax ≤ n ∧ n ≤ fixnumMax) :
    ExactQuotient d x y ↔ ¬ (n < 0 ∧ ¬ n ∣ m) := by
  have hxr : x.rat = m := by rw [ExactNumber.rat, hx, Obj.rat]
  have hyr : y.rat = n := by rw [hy, Obj.rat]
  rw [exactQuotient_iff_eq, hxr, hyr, hx, hy]
  by_cases hzero : n = 0
  · rw [hzero, Int.cast_zero, if_pos rfl]
    exact iff_of_true rfl (by omega)
  · have hzeroq : (n : ℚ) ≠ 0 := Int.cast_ne_zero.mpr hzero
    rw [if_neg hzeroq, div2_fixnums d hm hzero]
    by_cases hdvd : n ∣ m
    · rw [if_pos hdvd, ← Int.cast_div hdvd hzeroq, ofRat_intCast]
      exact iff_of_true rfl (by simp [hdvd])
    · have hm0 : m ≠ 0 := by
        rintro rfl
        exact hdvd (dvd_zero n)
      have hden : ((m : ℚ) / n).den ≠ 1 := by
        intro h
        exact hdvd ((Rat.den_div_intCast_eq_one_iff m n hzero).mp h)
      rw [if_neg hdvd, ofRat_obj_rational hden, Except.ok.injEq, Obj.rational.injEq,
        mkrationall_eq_iff hm0 hzero hn]
      simp only [hdvd, not_false_eq_true, and_true]
      omega

/-- A quotient is right but for one kind: of fixnums, the divisor negative and no
divisor of the other. -/
theorem exactQuotient_iff (y : Obj F) (hy : DivisorObj y) :
    ExactQuotient d x y ↔
      ¬ ∃ m n, x.obj = .fixnum m ∧ y = .fixnum n ∧ n < 0 ∧ ¬ n ∣ m := by
  rcases hy with hy | hy
  · obtain ⟨Y, rfl⟩ : ∃ Y : ExactNumber F, Y.obj = y := ⟨⟨y, hy⟩, rfl⟩
    rcases fixnums_or x Y with ⟨m, n, hx, hY, hm, hn, -, -⟩ | h
    · rw [exactQuotient_fixnums d x hx hY hm hn, hx, hY]
      simp
    · have hslow : ExactQuotient d x Y.obj := by
        rw [exactQuotient_iff_eq, div2_slow d x Y h, divRational_eq]
        rfl
      refine iff_of_true hslow ?_
      rintro ⟨m, n, hm, hn, -⟩
      rw [hm, hn] at h
      exact h ⟨rfl, rfl⟩
  · have hzero : ExactQuotient d x y := by
      rw [exactQuotient_iff_eq, div2_zero d x hy, if_pos]
      rcases hy with rfl | rfl <;> rfl
    refine iff_of_true hzero ?_
    rintro ⟨m, n, -, rfl, -⟩
    rcases hy with hy | hy <;> cases hy

/-- The bignum 2^62 into the fixnum 3. -/
theorem exactQuotient_bignum :
    ExactQuotient Signed.doubles (ofInt 3) (.bignum (2 ^ 62)) :=
  (exactQuotient_iff Signed.doubles (ofInt 3) (.bignum (2 ^ 62)) (.inl (by rw [Canonical]; decide))).mpr (by
    rintro ⟨m, n, -, hn, -⟩
    cases hn)

theorem not_exactQuotient_one_minus_two : ¬ ExactQuotient Signed.doubles (ofInt 1) (.fixnum (-2)) := by
  have hone : (ofInt 1 : ExactNumber Signed).obj = .fixnum 1 := ofInt_obj_fixnum (by decide)
  rw [exactQuotient_fixnums Signed.doubles (ofInt 1) hone rfl (by decide) (by decide)]
  decide

end Division

section Remainder

variable (d : Doubles F)

/-- Fixnums are in the range of fixnums and bignums are not. -/
def Proper : Obj F → Prop
  | .fixnum n => -fixnumMax ≤ n ∧ n ≤ fixnumMax
  | .bignum n => ¬ (-fixnumMax ≤ n ∧ n ≤ fixnumMax)
  | _ => True

def Obj.int? : Obj F → Option Int
  | .fixnum n => some n
  | .bignum n => some n
  | _ => none

def IsError {α : Type} (r : Except Stop α) : Prop := ∃ msg, r = .error (.error msg)

/-- What `idiv` and `mod` promise of two arguments. -/
def FitTogether (a b : Obj F) : Prop :=
  match a.int?, b.int? with
  | some m, some n =>
    if n = 0 then IsError (idiv2 d a b) ∧ IsError (mod2 d a b)
    else ∃ q r : Int, idiv2 d a b = .ok (ofInt q : ExactNumber F).obj ∧
      mod2 d a b = .ok (ofInt r : ExactNumber F).obj ∧ m = q * n + r ∧
      (r = 0 ∨ r.sign = n.sign ∧ |r| < |n|)
  | _, _ => IsError (idiv2 d a b) ∧ IsError (mod2 d a b)

/-- Two fixnums of opposite signs that do not divide, or an integer by what is none. -/
def Misfit (a b : Obj F) : Prop :=
  (∃ m n, a = .fixnum m ∧ b = .fixnum n ∧ (m < 0 ∧ 0 < n ∨ 0 < m ∧ n < 0) ∧ ¬ n ∣ m) ∨
    (a.int? ≠ none ∧ b.int? = none)

theorem tdiv_eq_fdiv_iff {m n : Int} :
    m.tdiv n = m.fdiv n ↔ ¬ ((m < 0 ∧ 0 < n ∨ 0 < m ∧ n < 0) ∧ ¬ n ∣ m) := by
  rw [Int.tdiv_eq_fdiv]
  by_cases hdvd : n ∣ m
  · simp [hdvd]
  · have hm : m ≠ 0 := by
      rintro rfl
      exact hdvd (dvd_zero n)
    rcases lt_trichotomy n 0 with hn | hn | hn
    · rw [Int.sign_eq_neg_one_of_neg hn]
      split_ifs <;> omega
    · subst hn
      simp
    · rw [Int.sign_eq_one_of_pos hn]
      split_ifs <;> omega

theorem fmod_sign {m n : Int} (hn : n ≠ 0) :
    m.fmod n = 0 ∨ (m.fmod n).sign = n.sign ∧ |m.fmod n| < |n| := by
  by_cases hzero : m.fmod n = 0
  · exact .inl hzero
  · right
    rcases lt_or_gt_of_ne hn with hneg | hpos
    · have hspec := (Int.fdiv_fmod_unique' (a := m) (q := m.fdiv n) hneg).mp ⟨rfl, rfl⟩
      rw [Int.sign_eq_neg_one_of_neg hneg, Int.sign_eq_neg_one_of_neg (by omega),
        abs_of_neg hneg, abs_of_neg (by omega)]
      omega
    · have hspec := (Int.fdiv_fmod_unique (a := m) (q := m.fdiv n) hpos).mp ⟨rfl, rfl⟩
      rw [Int.sign_eq_one_of_pos hpos, Int.sign_eq_one_of_pos (by omega), abs_of_pos hpos,
        abs_of_pos (by omega)]
      omega

theorem natAbs_fmod_lt {m n : Int} (hn : n ≠ 0) : (m.fmod n).natAbs < n.natAbs := by
  rcases fmod_sign (m := m) hn with h | ⟨-, h⟩
  · omega
  · rw [Int.abs_eq_natAbs, Int.abs_eq_natAbs] at h
    omega

theorem tmod_of_natAbs_lt {m n : Int} (h : m.natAbs < n.natAbs) : m.tmod n = m := by
  have hquot : m.tdiv n = 0 := by
    have hdiv : m.natAbs.div n.natAbs = 0 := Nat.div_eq_of_lt h
    rw [← Int.natAbs_eq_zero, Int.natAbs_tdiv, hdiv]
  have hspec := Int.mul_tdiv_add_tmod m n
  rwa [hquot, Int.mul_zero, Int.zero_add] at hspec

/-- The correction of `mod` on fixnums makes the remainder a floored one. -/
theorem corrected_tmod {m n : Int} (hopposite : m < 0 ∧ n > 0 ∨ m > 0 ∧ n < 0) :
    (m.tmod n + n).tmod n = m.fmod n := by
  have hn : n ≠ 0 := by omega
  by_cases hdvd : n ∣ m
  · rw [Int.tmod_eq_zero_of_dvd hdvd, Int.zero_add, Int.tmod_self, Int.fmod_eq_zero_of_dvd hdvd]
  · have hshift : m.tmod n + n = m.fmod n := by
      rw [Int.fmod_eq_tmod, if_neg hdvd]
      split_ifs <;> omega
    rw [hshift, tmod_of_natAbs_lt (natAbs_fmod_lt hn)]

theorem uncorrected_tmod {m n : Int} (h : ¬ (m < 0 ∧ n > 0 ∨ m > 0 ∧ n < 0)) :
    m.tmod n = m.fmod n := by
  by_cases hzero : m = 0
  · rw [hzero, Int.zero_tmod, Int.zero_fmod]
  · rw [Int.fmod_eq_tmod]
    split_ifs <;> omega

section Fixnums

variable {m n : Int} (hm : -fixnumMax ≤ m ∧ m ≤ fixnumMax) (hzero : n ≠ 0)

include hm hzero

theorem ldiv_fixnums : ldiv m n = .ok (m.tdiv n, m.tmod n) := by
  have hmax := fixnumMax_eq
  have hquot : (m.tdiv n).natAbs ≤ m.natAbs := Int.natAbs_tdiv_le_natAbs m n
  rw [ldiv, if_neg hzero, long_eq (by omega)]
  rfl

theorem idiv2_fixnums :
    idiv2 d (.fixnum m) (.fixnum n) = .ok (ofInt (m.tdiv n) : ExactNumber F).obj := by
  have hmax := fixnumMax_eq
  have hquot : (m.tdiv n).natAbs ≤ m.natAbs := Int.natAbs_tdiv_le_natAbs m n
  have hdef : idiv2 d (.fixnum m) (.fixnum n) = (ldiv m n >>= fun res => int2fix res.1) := by
    rw [idiv2]
    intro h
    exact hzero h
  rw [hdef, ldiv_fixnums hm hzero, ofInt_obj_fixnum (by omega)]
  exact int2fix_eq (by omega)

theorem mod2_fixnums (hn : -fixnumMax ≤ n ∧ n ≤ fixnumMax) :
    mod2 d (.fixnum m) (.fixnum n) = .ok (ofInt (m.fmod n) : ExactNumber F).obj := by
  have hmax := fixnumMax_eq
  have hfmod := natAbs_fmod_lt (m := m) hzero
  have hrem : (m.tmod n).natAbs ≤ m.natAbs := by
    rw [Int.natAbs_tmod]
    exact Nat.mod_le _ _
  have hdef : mod2 d (.fixnum m) (.fixnum n) = (ldiv m n >>= fun res =>
      if m < 0 ∧ n > 0 ∨ m > 0 ∧ n < 0 then
        long (res.2 + n) >>= fun sum => ldiv sum n >>= fun res => int2fix res.2
      else int2fix res.2) := by
    rw [mod2]
    intro h
    exact hzero h
  have hbind : mod2 d (.fixnum m) (.fixnum n) =
      if m < 0 ∧ n > 0 ∨ m > 0 ∧ n < 0 then
        long (m.tmod n + n) >>= fun sum => ldiv sum n >>= fun res => int2fix res.2
      else int2fix (m.tmod n) := by
    rw [hdef, ldiv_fixnums hm hzero]
    rfl
  rw [hbind, ofInt_obj_fixnum (by omega)]
  split
  · rename_i hopposite
    have hsum : -fixnumMax ≤ m.tmod n + n ∧ m.tmod n + n ≤ fixnumMax := by
      have hlt : (m.tmod n).natAbs < n.natAbs := by
        rw [Int.natAbs_tmod]
        exact Nat.mod_lt _ (by omega)
      rcases hopposite with ⟨hneg, hpos⟩ | ⟨hpos, hneg⟩
      · have hsign := Int.tmod_nonneg n (a := -m) (by omega)
        rw [Int.neg_tmod] at hsign
        omega
      · have hsign := Int.tmod_nonneg n (a := m) (by omega)
        omega
    rw [long_eq (by omega)]
    have hcorrected : ldiv (m.tmod n + n) n =
        .ok ((m.tmod n + n).tdiv n, m.fmod n) := by
      rw [ldiv_fixnums hsum hzero, corrected_tmod hopposite]
    have hok : (ldiv (m.tmod n + n) n >>= fun res => int2fix res.2) =
        (int2fix (m.fmod n) : Except Stop (Obj F)) := by
      rw [hcorrected]
      rfl
    exact hok.trans (int2fix_eq (by omega))
  · rename_i hsame
    rw [uncorrected_tmod hsame]
    exact int2fix_eq (by omega)

end Fixnums

theorem idiv2_slow {a b : Obj F} (hzero : b ≠ .fixnum 0) (h : ¬ (a.isFixnum ∧ b.isFixnum)) :
    idiv2 d a b =
      if a.isInteger && a.isInteger then do
        bignumFixnum (← mpzFdiv (← coerceBignum d a) (← coerceBignum d b)).1
      else throw (.error "Invalid types for idiv") := by
  rw [idiv2]
  · exact hzero
  · intro m n ha hb
    rw [ha, hb] at h
    exact h ⟨rfl, rfl⟩

theorem mod2_slow {a b : Obj F} (hzero : b ≠ .fixnum 0) (h : ¬ (a.isFixnum ∧ b.isFixnum)) :
    mod2 d a b =
      if a.isInteger && a.isInteger then do
        bignumFixnum (← mpzFdiv (← coerceBignum d a) (← coerceBignum d b)).2
      else throw (.error "Invalid types for modulus") := by
  rw [mod2]
  · exact hzero
  · intro m n ha hb
    rw [ha, hb] at h
    exact h ⟨rfl, rfl⟩

theorem int_facts {a : Obj F} {m : Int} (ha : a.int? = some m) :
    a.isInteger = true ∧ coerceBignum d a = .ok m := by
  cases a with
  | fixnum m' =>
    cases ha
    exact ⟨rfl, rfl⟩
  | bignum m' =>
    cases ha
    exact ⟨rfl, rfl⟩
  | _ => cases ha

/-- With a bignum among the two, quotient and remainder are floored. -/
theorem slow_eq {a b : Obj F} {m n : Int} (ha : a.int? = some m) (hb : b.int? = some n)
    (hzero : n ≠ 0) (h : ¬ (a.isFixnum ∧ b.isFixnum)) :
    idiv2 d a b = .ok (ofInt (m.fdiv n) : ExactNumber F).obj ∧
      mod2 d a b = .ok (ofInt (m.fmod n) : ExactNumber F).obj := by
  obtain ⟨hint, hm⟩ := int_facts d ha
  obtain ⟨-, hn⟩ := int_facts d hb
  have hdiv : mpzFdiv m n = .ok (m.fdiv n, m.fmod n) := by
    rw [mpzFdiv, if_neg hzero]
    rfl
  have hb0 : b ≠ .fixnum 0 := by
    rintro rfl
    exact hzero (Option.some.inj hb).symm
  rw [idiv2_slow d hb0 h, mod2_slow d hb0 h, hint, hm, hn]
  have hquot : (mpzFdiv m n >>= fun res => bignumFixnum res.1) =
      .ok (ofInt (m.fdiv n) : ExactNumber F).obj := by
    rw [hdiv]
    exact bignumFixnum_eq _
  have hrem : (mpzFdiv m n >>= fun res => bignumFixnum res.2) =
      .ok (ofInt (m.fmod n) : ExactNumber F).obj := by
    rw [hdiv]
    exact bignumFixnum_eq _
  exact ⟨hquot, hrem⟩

theorem ofInt_obj_injective : Function.Injective fun n => (ofInt n : ExactNumber F).obj := by
  intro m n h
  have hm := ofInt_rat (F := F) m
  have hn := ofInt_rat (F := F) n
  have hrat : (ofInt m : ExactNumber F).rat = (ofInt n : ExactNumber F).rat := congrArg Obj.rat h
  rw [hm, hn] at hrat
  exact Int.cast_injective hrat

/-- A floored remainder fits the floored quotient only. -/
theorem fits_iff {a b : Obj F} {m n q : Int} (ha : a.int? = some m) (hb : b.int? = some n)
    (hzero : n ≠ 0) (hidiv : idiv2 d a b = .ok (ofInt q : ExactNumber F).obj)
    (hmod : mod2 d a b = .ok (ofInt (m.fmod n) : ExactNumber F).obj) :
    FitTogether d a b ↔ q = m.fdiv n := by
  have hspec := Int.fdiv_mul_add_fmod m n
  rw [FitTogether, ha, hb]
  simp only [if_neg hzero]
  constructor
  · rintro ⟨q', r, hq, hr, hfit, -⟩
    have hq' : q = q' := ofInt_obj_injective (Except.ok.inj (hidiv.symm.trans hq))
    have hr' : m.fmod n = r := ofInt_obj_injective (Except.ok.inj (hmod.symm.trans hr))
    have hprod : q * n = m.fdiv n * n := by
      rw [hq']
      omega
    exact Int.eq_of_mul_eq_mul_right hzero hprod
  · rintro rfl
    exact ⟨_, _, hidiv, hmod, hspec.symm, fmod_sign hzero⟩

/-- A fixnum 0 divides nothing, whatever it is given. -/
theorem zero_error (a : Obj F) : IsError (idiv2 d a (.fixnum 0)) ∧ IsError (mod2 d a (.fixnum 0)) :=
  ⟨⟨"Division by zero", rfl⟩, ⟨"Division by zero", rfl⟩⟩

theorem dividend_error {a : Obj F} (b : Obj F) (ha : a.int? = none) :
    IsError (idiv2 d a b) ∧ IsError (mod2 d a b) := by
  by_cases hb : b = .fixnum 0
  · rw [hb]
    exact zero_error d a
  · have hnone : a.isInteger = false ∧ a.isFixnum = false := by
      cases a with
      | fixnum m => cases ha
      | bignum m => cases ha
      | _ => exact ⟨rfl, rfl⟩
    have hfix : ¬ (a.isFixnum ∧ b.isFixnum) := by
      rw [hnone.2]
      exact fun h => Bool.noConfusion h.1
    rw [idiv2_slow d hb hfix, mod2_slow d hb hfix, hnone.1]
    exact ⟨⟨"Invalid types for idiv", rfl⟩, ⟨"Invalid types for modulus", rfl⟩⟩

theorem roundsUp_cases (q : ℚ) :
    roundsUp q = .error .undefined ∨ ∃ b, roundsUp q = .ok b := by
  rw [roundsUp, intOdd]
  split_ifs
  · exact .inr ⟨_, rfl⟩
  · exact .inr ⟨_, rfl⟩
  · exact .inl rfl
  · exact .inr ⟨_, rfl⟩

theorem roundDouble_no_error (q : ℚ) : ¬ IsError (roundDouble q) := by
  rintro ⟨msg, h⟩
  rw [roundDouble] at h
  rcases roundsUp_cases q with hup | ⟨b, hup⟩
  · rw [hup] at h
    cases h
  · rw [hup] at h
    cases b <;> cases h

theorem coerceBignum_no_error (b : Obj F) : ¬ IsError (coerceBignum d b) := by
  rintro ⟨msg, h⟩
  cases b with
  | flonum f =>
    rw [coerceBignum] at h
    cases hf : d.value f with
    | none => simp [hf, throw, throwThe, MonadExceptOf.throw] at h
    | some q =>
      rw [hf] at h
      exact roundDouble_no_error q ⟨msg, h⟩
  | complex z =>
    rw [coerceBignum] at h
    cases hz : d.value z.1 with
    | none => simp [hz, throw, throwThe, MonadExceptOf.throw] at h
    | some q =>
      rw [hz] at h
      exact roundDouble_no_error q ⟨msg, h⟩
  | fixnum n => cases h
  | bignum n => cases h
  | rational q => cases h
  | other t => cases h

theorem divisor_no_error {a b : Obj F} {m : Int} (ha : a.int? = some m) (hb : b.int? = none) :
    ¬ IsError (idiv2 d a b) := by
  obtain ⟨hint, hm⟩ := int_facts d ha
  have hb0 : b ≠ .fixnum 0 := by
    rintro rfl
    cases hb
  have hfix : ¬ (a.isFixnum ∧ b.isFixnum) := by
    intro h
    cases b with
    | fixnum n => cases hb
    | _ => exact Bool.noConfusion h.2
  rw [idiv2_slow d hb0 hfix, hint, hm]
  rintro ⟨msg, h⟩
  cases hcoerce : coerceBignum d b with
  | error e =>
    have hcase : (.error e : Except Stop (Obj F)) = .error (.error msg) := by
      rw [hcoerce] at h
      exact h
    cases hcase
    exact coerceBignum_no_error d b ⟨msg, hcoerce⟩
  | ok n =>
    rw [hcoerce] at h
    have hcase : (mpzFdiv m n >>= fun res => bignumFixnum res.1) =
        (.error (.error msg) : Except Stop (Obj F)) := h
    rw [mpzFdiv] at hcase
    split at hcase
    · cases hcase
    · have hok : (.ok (ofInt (m.fdiv n) : ExactNumber F).obj : Except Stop (Obj F)) =
          .error (.error msg) := (bignumFixnum_eq _).symm.trans hcase
      cases hok

theorem fixnums_of {a b : Obj F} {m n : Int} (ha : a.int? = some m) (hb : b.int? = some n)
    (h : a.isFixnum ∧ b.isFixnum) : a = .fixnum m ∧ b = .fixnum n := by
  cases a with
  | fixnum m' =>
    cases b with
    | fixnum n' =>
      cases ha
      cases hb
      exact ⟨rfl, rfl⟩
    | _ => exact Bool.noConfusion h.2
  | _ => exact Bool.noConfusion h.1

theorem proper_zero {b : Obj F} (hb : Proper b) (hzero : b.int? = some 0) : b = .fixnum 0 := by
  cases b with
  | fixnum n =>
    cases hzero
    rfl
  | bignum n =>
    cases hzero
    exact absurd (by decide) hb
  | _ => cases hzero

theorem fitTogether_iff (a b : Obj F) (ha : Proper a) (hb : Proper b) :
    FitTogether d a b ↔ ¬ Misfit a b := by
  cases hm : a.int? with
  | none =>
    have herror : FitTogether d a b := by
      rw [FitTogether, hm]
      exact dividend_error d b hm
    refine iff_of_true herror ?_
    rintro (⟨m, n, rfl, -⟩ | ⟨h, -⟩)
    · cases hm
    · exact h hm
  | some m =>
    cases hn : b.int? with
    | none =>
      refine iff_of_false ?_ ?_
      · rw [FitTogether, hm, hn]
        exact fun h => divisor_no_error d hm hn h.1
      · exact fun h => h (.inr ⟨by simp [hm], hn⟩)
    | some n =>
      have hnone : ¬ (a.int? ≠ none ∧ b.int? = none) := by simp [hn]
      rw [Misfit, or_iff_left hnone]
      by_cases hzero : n = 0
      · have hb0 : b = .fixnum 0 := proper_zero hb (hzero ▸ hn)
        have herror : FitTogether d a b := by
          rw [FitTogether, hm, hn]
          simp only [if_pos hzero]
          rw [hb0]
          exact zero_error d a
        refine iff_of_true herror ?_
        rintro ⟨m', n', -, hn', hsign, -⟩
        cases hb0.symm.trans hn'
        omega
      · by_cases hfix : a.isFixnum ∧ b.isFixnum
        · obtain ⟨rfl, rfl⟩ := fixnums_of hm hn hfix
          rw [fits_iff d hm hn hzero (idiv2_fixnums d ha hzero) (mod2_fixnums d ha hzero hb),
            tdiv_eq_fdiv_iff]
          simp
        · obtain ⟨hidiv, hmod⟩ := slow_eq d hm hn hzero hfix
          rw [fits_iff d hm hn hzero hidiv hmod]
          refine iff_of_true rfl ?_
          rintro ⟨m', n', rfl, rfl, -⟩
          exact hfix ⟨rfl, rfl⟩

/-- (idiv 2^62 -3) and (mod 2^62 -3). -/
theorem fitTogether_bignum :
    FitTogether Signed.doubles (.bignum (2 ^ 62)) (.fixnum (-3)) :=
  (fitTogether_iff Signed.doubles (.bignum (2 ^ 62)) (.fixnum (-3)) (by rw [Proper]; decide)
    (by rw [Proper]; decide)).mpr (by
    rintro (⟨m, n, hm, -⟩ | ⟨-, h⟩)
    · cases hm
    · cases h)

/-- (idiv -7 2) is -3 and (mod -7 2) is 1. -/
theorem not_fitTogether_minus_seven : ¬ FitTogether Signed.doubles (.fixnum (-7)) (.fixnum 2) := by
  rw [fits_iff Signed.doubles rfl rfl (by decide) (idiv2_fixnums _ (by decide) (by decide))
    (mod2_fixnums _ (by decide) (by decide) (by decide))]
  decide

end Remainder

end Exact

end Arcueid
