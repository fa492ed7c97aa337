import Mathlib.Data.List.GetD
import Arcueid.Lib.Positional
import Arcueid.ExactQuotients

/-! Integers to digit strings and back (`__arc_itoa`, `__arc_str2int`). -/

namespace Arcueid.Exact

open Numeral ExactNumber Positional

variable {F : Type}

/-- `__arc_neg`. Doubles are subtracted from -0.0. -/
def neg (d : Doubles F) : Obj F → Except Stop (Obj F)
  | .fixnum n => int2fix (-n)
  | .flonum f => pure (.flonum (d.sub d.negZero f))
  | .complex z => pure (.complex (d.sub d.negZero z.1, d.sub d.negZero z.2))
  | .bignum n => pure (.bignum (-n))
  | .rational q => pure (.rational (-q))
  | .other _ => throw (.error "Invalid type for negation")

section Definitions

def itoaDigits (uc : Bool) : List Nat :=
  (if uc then "0123456789ABCDEFGHIJKLMNOPQRSTUVWXYZ" else "0123456789abcdefghijklmnopqrstuvwxyz").toList.map
    Char.toNat

variable (d : Doubles F)

/-- The loop of `__arc_itoa`, over `fuel` digits at most. -/
def itoaLoop (digits : List Nat) (base : Obj F) : Nat → Obj F → List Nat → Except Stop (List Nat)
  | 0, _, _ => throw .fuel
  | fuel + 1, .fixnum n, str =>
    if n > 0 then do
      match ← mod2 d (.fixnum n) base with
      | .fixnum dig =>
        match digits[dig.toNat]? with
        | some ch => do
          let num ← idiv2 d (.fixnum n) base
          itoaLoop digits base fuel num (str ++ [ch])
        | none => throw .undefined
      | _ => throw .undefined
    else pure str
  | _, _, _ => throw .undefined

/-- The loop that swaps the runes from both ends. -/
def swapLoop (str : List Nat) (p q : Nat) : List Nat :=
  if p < q then swapLoop ((str.set p (str.getD q 0)).set q (str.getD p 0)) (p + 1) (q - 1) else str
termination_by q - p

def itoa (onum : Int) (base : Obj F) (uc sf : Bool) : Except Stop (List Nat) :=
  if onum.sign = 0 then pure ['0'.toNat]
  else do
    let num ← int2fix (onum.sign * onum)
    let str ← itoaLoop d (itoaDigits uc) base (onum.natAbs + 1) num []
    let str := if onum.sign < 0 then str ++ ['-'.toNat] else if sf then str ++ ['+'.toNat] else str
    pure (swapLoop str 0 (str.length - 1))

def isupper (r : Nat) : Bool := 'A'.toNat ≤ r && r ≤ 'Z'.toNat

def islower (r : Nat) : Bool := 'a'.toNat ≤ r && r ≤ 'z'.toNat

def toupper (r : Nat) : Nat := if islower r then r - 32 else r

/-- The digit that `__arc_str2int` makes of a rune. -/
def str2intDigit (r : Nat) : Option Nat :=
  if isdigit r then some (r - '0'.toNat)
  else if isupper r || islower r then some (toupper r - 'A'.toNat + 10)
  else none

/-- The loop of `__arc_str2int`. -/
def str2intLoop (base : Int) : Obj F → List Nat → Except Stop (Option (Obj F))
  | res, [] => pure (some res)
  | res, r :: str =>
    match str2intDigit r with
    | none => pure none
    | some v =>
      if (v : Int) > base then pure none
      else do
        let res ← mul2 d res (.fixnum base)
        let res ← add2 d res (← int2fix v)
        str2intLoop base res str

/-- `__arc_str2int` on the runes from `strptr` to `limit`, nil where there is no number. -/
def str2int (obj : List Nat) (base : Int) (strptr limit : Nat) : Except Stop (Option (Obj F)) :=
  match (obj.take limit).drop strptr with
  | [] => pure none
  | r :: str =>
    let negative := r = '-'.toNat
    let str := if r = '-'.toNat then str else if r = '+'.toNat then str else r :: str
    if str.isEmpty then pure none
    else do
      match ← str2intLoop d base (.fixnum 0) str with
      | none => pure none
      | some res => if negative then some <$> neg d res else pure (some res)

end Definitions

section Value

variable (d : Doubles F)

theorem add2_ofInt (m n : Int) : add2 d (ofInt m).obj (ofInt n).obj = .ok (ofInt (m + n) : ExactNumber F).obj := by
  rw [add2_eq, ofInt_rat, ofInt_rat, ← Int.cast_add, ofRat_intCast]

theorem mul2_ofInt (m n : Int) : mul2 d (ofInt m).obj (ofInt n).obj = .ok (ofInt (m * n) : ExactNumber F).obj := by
  rw [mul2_eq, ofInt_rat, ofInt_rat, ← Int.cast_mul, ofRat_intCast]

theorem neg_ofInt (n : Int) : neg d (ofInt n).obj = .ok (ofInt (-n) : ExactNumber F).obj := by
  have hmax := fixnumMax_eq
  by_cases h : -fixnumMax ≤ n ∧ n ≤ fixnumMax
  · rw [ofInt_obj_fixnum h, ofInt_obj_fixnum (by omega)]
    exact int2fix_eq (by omega)
  · rw [ofInt_obj_bignum h, ofInt_obj_bignum (by omega)]
    rfl

variable {b : Nat}

/-- The loop reads digits, the base itself among them. -/
theorem str2intLoop_eq (hb : b ≤ 36) (v : Nat) (str : List Nat) :
    str2intLoop d b (ofInt v : ExactNumber F).obj str =
      .ok ((readDigits str2intDigit (b + 1) b v str).map fun n => (ofInt n : ExactNumber F).obj) := by
  have hmax := fixnumMax_eq
  induction str generalizing v with
  | nil => rfl
  | cons r str ih =>
    have hbase : (.fixnum (b : Int) : Obj F) = (ofInt b : ExactNumber F).obj :=
      (ofInt_obj_fixnum (by omega)).symm
    by_cases hr : DigitBelow str2intDigit (b + 1) r
    · obtain ⟨dig, hdig, hlt⟩ := hr
      have hfix : int2fix (dig : Int) = .ok (ofInt dig : ExactNumber F).obj := by
        rw [int2fix_eq (by omega), ofInt_obj_fixnum (by omega)]
      have hstep : str2intLoop d b (ofInt v : ExactNumber F).obj (r :: str) =
          str2intLoop d b (ofInt ((v : Int) * b + dig) : ExactNumber F).obj str := by
        rw [str2intLoop, hdig]
        simp only [if_neg (show ¬ (dig : Int) > b by omega), hbase, mul2_ofInt, hfix]
        have hsum : (add2 d (ofInt ((v : Int) * b)).obj (ofInt (dig : Int)).obj >>= fun res =>
            str2intLoop d b res str) =
            str2intLoop d b (ofInt ((v : Int) * b + dig) : ExactNumber F).obj str := by
          rw [add2_ofInt]
          rfl
        exact hsum
      have hnext := ih (v * b + dig)
      push_cast at hnext
      rw [hstep, hnext, readDigits_cons hdig hlt]
    · rw [readDigits_cons_none hr, str2intLoop]
      cases hdig : str2intDigit r with
      | none => rfl
      | some dig =>
        have hgt : (dig : Int) > b := by
          by_contra hle
          exact hr ⟨dig, hdig, by omega⟩
        simp only [if_pos hgt]
        rfl

/-- The integers that `__arc_str2int` reads: the base counts as a digit of it. -/
theorem str2int_eq (hb : b ≤ 36) (str : List Nat) :
    str2int d str b 0 str.length =
      .ok ((integer '-'.toNat '+'.toNat str2intDigit (b + 1) b str).map fun n =>
        (ofInt n : ExactNumber F).obj) := by
  have hzero : (.fixnum 0 : Obj F) = (ofInt (0 : Nat) : ExactNumber F).obj :=
    (ofInt_obj_fixnum (by decide)).symm
  have hloop := fun s => str2intLoop_eq d hb 0 s
  rw [← hzero] at hloop
  have hall : (str.take str.length).drop 0 = str := by rw [List.take_length, List.drop_zero]
  rw [str2int, hall]
  cases str with
  | nil => rfl
  | cons r s =>
    have hsplit : splitSign '-'.toNat '+'.toNat (r :: s) =
        (if r = '-'.toNat then -1 else 1,
          if r = '-'.toNat then s else if r = '+'.toNat then s else r :: s) := by
      rw [splitSign]
      split_ifs <;> rfl
    rw [integer, hsplit]
    simp only
    generalize (if r = '-'.toNat then s else if r = '+'.toNat then s else r :: s) = ds
    rw [numeral]
    cases hempty : ds.isEmpty with
    | true => rfl
    | false =>
      simp only [hloop, Bool.false_eq_true, if_false]
      cases hread : readDigits str2intDigit (b + 1) b 0 ds with
      | none => rfl
      | some n =>
        by_cases hminus : r = '-'.toNat
        · simp only [hminus, if_true]
          have hneg : (some <$> neg d (ofInt n : ExactNumber F).obj : Except Stop (Option (Obj F))) =
              .ok (some (ofInt (-1 * n) : ExactNumber F).obj) := by
            rw [neg_ofInt, neg_one_mul]
            rfl
          exact hneg
        · simp only [if_neg hminus]
          have hsame : ((1 : Int) * n) = n := one_mul _
          have hdone : (pure (some (ofInt n : ExactNumber F).obj) : Except Stop (Option (Obj F))) =
              .ok (some (ofInt (1 * n) : ExactNumber F).obj) := by
            rw [hsame]
            rfl
          exact hdone

end Value

section Text

/-- The digits of `__arc_itoa`. -/
def digitChar (uc : Bool) (i : Nat) : Nat := (itoaDigits uc).getD i 0

theorem digitChar_facts {i : Nat} (uc : Bool) (hi : i < 36) :
    (itoaDigits uc)[i]? = some (digitChar uc i) ∧ str2intDigit (digitChar uc i) = some i ∧
      digitChar uc i ≠ '-'.toNat ∧ digitChar uc i ≠ '+'.toNat := by
  revert i
  cases uc <;> decide

variable (d : Doubles F) {b : Nat}

theorem itoaLoop_eq (uc : Bool) (hb : 2 ≤ b) (hb' : b ≤ 36) {n fuel : Nat} (hn : (n : Int) ≤ fixnumMax)
    (hfuel : n < fuel) (str : List Nat) :
    itoaLoop d (itoaDigits uc) (.fixnum b) fuel (.fixnum n) str =
      .ok (str ++ (Nat.digits b n).map (digitChar uc)) := by
  have hmax := fixnumMax_eq
  induction n using Nat.strong_induction_on generalizing fuel str with
  | _ n ih =>
    cases fuel with
    | zero => omega
    | succ fuel =>
      rw [itoaLoop]
      by_cases hzero : n = 0
      · subst hzero
        simp
        rfl
      · have hrem : mod2 d (.fixnum n) (.fixnum b) = .ok (.fixnum ((n % b : Nat) : Int)) := by
          have hfmod : (n : Int).fmod b = ((n % b : Nat) : Int) := by
            rw [Int.fmod_eq_emod_of_nonneg _ (by omega), Int.natCast_emod]
          have hlt : n % b < b := Nat.mod_lt _ (by omega)
          rw [mod2_fixnums d (by omega) (by omega) (by omega), hfmod, ofInt_obj_fixnum (by omega)]
        have hquot : idiv2 d (.fixnum n) (.fixnum b) = .ok (.fixnum ((n / b : Nat) : Int)) := by
          have htdiv : (n : Int).tdiv b = ((n / b : Nat) : Int) := by
            rw [Int.tdiv_eq_ediv_of_nonneg (by omega), Int.natCast_ediv]
          have hle : n / b ≤ n := Nat.div_le_self _ _
          have hnonneg : (0 : Int) ≤ ((n / b : Nat) : Int) := Int.natCast_nonneg _
          rw [idiv2_fixnums d (by omega) (by omega), htdiv, ofInt_obj_fixnum (by omega)]
        have hlt : n % b < 36 := lt_of_lt_of_le (Nat.mod_lt _ (by omega)) hb'
        have hsmaller : n / b < n := Nat.div_lt_self (by omega) (by omega)
        have henough : n / b < fuel := by omega
        have hnext := ih (n / b) hsmaller (by omega) henough
          (str ++ [digitChar uc (n % b)])
        have hchar := (digitChar_facts uc hlt).1
        rw [if_pos (by omega), hrem]
        simp only [bind, Except.bind, Int.toNat_natCast, hchar, hquot, hnext]
        have hdigits : Nat.digits b n = n % b :: Nat.digits b (n / b) :=
          Nat.digits_def' (by omega) (by omega)
        rw [hdigits, List.map_cons, List.append_assoc]
        rfl

theorem swap_getElem? {str : List Nat} {p q : Nat} (hp : p < str.length) (hq : q < str.length) (i : Nat) :
    ((str.set p (str.getD q 0)).set q (str.getD p 0))[i]? =
      if i = q then str[p]? else if i = p then str[q]? else str[i]? := by
  rw [List.getElem?_set, List.getElem?_set, List.length_set]
  by_cases hiq : i = q
  · subst hiq
    rw [if_pos rfl, if_pos rfl, if_pos hq, List.getD_eq_getElem _ _ hp, List.getElem?_eq_getElem hp]
  · rw [if_neg (Ne.symm hiq), if_neg hiq]
    by_cases hip : i = p
    · subst hip
      rw [if_pos rfl, if_pos rfl, if_pos hp, List.getD_eq_getElem _ _ hq, List.getElem?_eq_getElem hq]
    · rw [if_neg (Ne.symm hip), if_neg hip]

theorem swapLoop_getElem? {str : List Nat} {p q : Nat} (hq : q < str.length) (i : Nat) :
    (swapLoop str p q)[i]? = if p ≤ i ∧ i ≤ q then str[p + q - i]? else str[i]? := by
  fun_induction swapLoop str p q with
  | case1 str p q hlt ih =>
    have hp : p < str.length := by omega
    rw [ih (by rw [List.length_set, List.length_set]; omega), swap_getElem? hp hq, swap_getElem? hp hq]
    by_cases hend : i = p ∨ i = q
    · rcases hend with rfl | rfl
      · rw [if_neg (by omega), if_neg (by omega), if_pos rfl, if_pos (by omega), Nat.add_sub_cancel_left]
      · rw [if_neg (by omega), if_pos rfl, if_pos (by omega), Nat.add_sub_cancel_right]
    · by_cases hin : p ≤ i ∧ i ≤ q
      · rw [if_pos (by omega), if_neg (by omega), if_neg (by omega), if_pos hin]
        congr 1
        omega
      · rw [if_neg (by omega), if_neg (by omega), if_neg (by omega), if_neg hin]
  | case2 str p q hge =>
    split
    · rename_i h
      have hi : p + q - i = i := by omega
      rw [hi]
    · rfl

theorem swapLoop_eq (str : List Nat) : swapLoop str 0 (str.length - 1) = str.reverse := by
  by_cases hempty : str.length = 0
  · rw [List.length_eq_zero_iff.mp hempty, swapLoop]
    rfl
  · apply List.ext_getElem?
    intro i
    rw [swapLoop_getElem? (by omega)]
    by_cases hi : i < str.length
    · rw [if_pos (by omega), List.getElem?_reverse hi]
      congr 1
      omega
    · rw [if_neg (by omega), List.getElem?_eq_none (by omega),
        List.getElem?_eq_none (by rw [List.length_reverse]; omega)]

/-- The sign that `__arc_itoa` writes. -/
def signText (n : Int) (sf : Bool) : List Nat :=
  if n < 0 then ['-'.toNat] else if sf then ['+'.toNat] else []

theorem itoa_eq (uc sf : Bool) (hb : 2 ≤ b) (hb' : b ≤ 36) {n : Int} (hn : -fixnumMax ≤ n ∧ n ≤ fixnumMax)
    (hzero : n ≠ 0) :
    itoa d n (.fixnum b) uc sf =
      .ok (signText n sf ++ (Nat.digits b n.natAbs).reverse.map (digitChar uc)) := by
  have hmax := fixnumMax_eq
  have hsign : n.sign ≠ 0 := fun h => hzero (Int.sign_eq_zero_iff_zero.mp h)
  have habs : n.sign * n = (n.natAbs : Int) := Int.sign_mul_self_eq_natAbs n
  have hfix : int2fix (n.sign * n) = .ok (.fixnum (n.natAbs : Int) : Obj F) := by
    rw [habs, int2fix_eq (by omega)]
  have hle : (n.natAbs : Int) ≤ fixnumMax := by omega
  have hloop := itoaLoop_eq d uc hb hb' hle (Nat.lt_succ_self n.natAbs) []
  have hneg : n.sign < 0 ↔ n < 0 := Int.sign_neg_iff
  rw [itoa, if_neg hsign, hfix]
  simp only [bind, Except.bind, hloop, List.nil_append, hneg]
  rw [swapLoop_eq, signText, List.map_reverse]
  split
  · rw [List.reverse_append]
    rfl
  · split
    · rw [List.reverse_append]
      rfl
    · rfl

theorem digits_read (uc : Bool) (hb : 2 ≤ b) (hb' : b ≤ 36) {m : Nat} (hm : m ≠ 0) :
    numeral str2intDigit (b + 1) b ((Nat.digits b m).reverse.map (digitChar uc)) = some m := by
  have hdigit : ∀ i, i < b → str2intDigit (digitChar uc i) = some i := fun i hi =>
    (digitChar_facts uc (by omega)).2.1
  have hread := readDigits_digits hb hdigit m
  have hbelow : ∀ c ∈ (Nat.digits b m).reverse.map (digitChar uc), DigitBelow str2intDigit b c := by
    intro c hc
    obtain ⟨i, hi, rfl⟩ := List.mem_map.mp hc
    have hlt : i < b := Nat.digits_lt_base (by omega) (List.mem_reverse.mp hi)
    exact ⟨i, hdigit i hlt, hlt⟩
  have hne : ((Nat.digits b m).reverse.map (digitChar uc)).isEmpty = false := by
    simpa [Nat.digits_eq_nil_iff_eq_zero] using hm
  rw [numeral, hne, readDigits_of_below hbelow (by omega)]
  exact hread

theorem splitSign_digits (uc : Bool) (hb : 2 ≤ b) (hb' : b ≤ 36) (m : Nat) :
    splitSign '-'.toNat '+'.toNat ((Nat.digits b m).reverse.map (digitChar uc)) =
      (1, (Nat.digits b m).reverse.map (digitChar uc)) := by
  cases hds : (Nat.digits b m).reverse with
  | nil => rfl
  | cons i ds =>
    have hlt : i < b := by
      have hmem : i ∈ (Nat.digits b m).reverse := by
        rw [hds]
        exact List.mem_cons_self
      exact Nat.digits_lt_base (by omega) (List.mem_reverse.mp hmem)
    obtain ⟨-, -, hminus, hplus⟩ := digitChar_facts uc (i := i) (by omega)
    rw [List.map_cons, splitSign, if_neg hminus, if_neg hplus]

theorem integer_digits (uc sf : Bool) (hb : 2 ≤ b) (hb' : b ≤ 36) {n : Int} (hzero : n ≠ 0) :
    integer '-'.toNat '+'.toNat str2intDigit (b + 1) b
      (signText n sf ++ (Nat.digits b n.natAbs).reverse.map (digitChar uc)) = some n := by
  have hread := digits_read uc hb hb' (m := n.natAbs) (by omega)
  have hsplit : splitSign '-'.toNat '+'.toNat
      (signText n sf ++ (Nat.digits b n.natAbs).reverse.map (digitChar uc)) =
      (if n < 0 then -1 else 1, (Nat.digits b n.natAbs).reverse.map (digitChar uc)) := by
    rw [signText]
    by_cases hneg : n < 0
    · rw [if_pos hneg, if_pos hneg]
      rfl
    · rw [if_neg hneg, if_neg hneg]
      cases sf with
      | true => rfl
      | false => exact splitSign_digits uc hb hb' n.natAbs
  have hvalue : (if n < 0 then -1 else 1) * (n.natAbs : Int) = n := by
    split <;> omega
  rw [integer, hsplit]
  simp only [hread]
  exact congrArg some hvalue

/-- A fixnum is read back from what `__arc_itoa` writes. -/
theorem str2int_itoa (uc sf : Bool) (hb : 2 ≤ b) (hb' : b ≤ 36) {n : Int} (hn : -fixnumMax ≤ n ∧ n ≤ fixnumMax) :
    ∃ str, itoa d n (.fixnum b) uc sf = .ok str ∧
      str2int d str b 0 str.length = .ok (some (.fixnum n)) := by
  by_cases hzero : n = 0
  · subst hzero
    refine ⟨['0'.toNat], rfl, ?_⟩
    have hint : integer '-'.toNat '+'.toNat str2intDigit (b + 1) b ['0'.toNat] = some 0 := by
      have hread : readDigits str2intDigit (b + 1) b 0 ['0'.toNat] = some 0 := by
        rw [readDigits_cons (d := 0) (by decide) (by omega), Nat.zero_mul]
        rfl
      have hsplit : splitSign '-'.toNat '+'.toNat ['0'.toNat] = (1, ['0'.toNat]) := rfl
      have hnumeral : numeral str2intDigit (b + 1) b ['0'.toNat] = some 0 := hread
      rw [integer, hsplit]
      simp only [hnumeral]
      rfl
    rw [str2int_eq d hb', hint]
    have hobj : (ofInt 0 : ExactNumber F).obj = .fixnum 0 := ofInt_obj_fixnum (by decide)
    rw [Option.map_some, hobj]
  · refine ⟨_, itoa_eq d uc sf hb hb' hn hzero, ?_⟩
    rw [str2int_eq d hb', integer_digits uc sf hb hb' hzero, Option.map_some, ofInt_obj_fixnum hn]

end Text

section Reading

variable (d : Doubles F)

/-- An optional sign and digits below the base read as their positional value, and
no other string as a number. -/
def ReadsIntegers (b : Nat) (str : List Nat) : Prop :=
  str2int d str b 0 str.length =
    .ok ((integer '-'.toNat '+'.toNat str2intDigit b b str).map fun n => (ofInt n : ExactNumber F).obj)

/-- Digits up to the base itself, one of them the base, after an optional sign. -/
def HoldsBase (b : Nat) (str : List Nat) : Prop :=
  (splitSign '-'.toNat '+'.toNat str).2 ≠ [] ∧
    (∀ r ∈ (splitSign '-'.toNat '+'.toNat str).2, DigitBelow str2intDigit (b + 1) r) ∧
    ∃ r ∈ (splitSign '-'.toNat '+'.toNat str).2, str2intDigit r = some b

theorem splitSign_ne_zero (str : List Nat) : (splitSign '-'.toNat '+'.toNat str).1 ≠ 0 := by
  cases str with
  | nil => decide
  | cons r str =>
    rw [splitSign]
    split_ifs
    · exact Int.neg_ne_zero.mpr one_ne_zero
    · exact one_ne_zero
    · exact one_ne_zero

theorem readsIntegers_iff {b : Nat} (hb : b ≤ 36) (str : List Nat) :
    ReadsIntegers d b str ↔ ¬ HoldsBase b str := by
  have hinj : Function.Injective (Option.map fun n => (ofInt n : ExactNumber F).obj) :=
    Option.map_injective ofInt_obj_injective
  have hsign : (splitSign '-'.toNat '+'.toNat str).1 ≠ 0 := splitSign_ne_zero str
  have hmul : Function.Injective (Option.map fun n : Nat => (splitSign '-'.toNat '+'.toNat str).1 * (n : Int)) := by
    apply Option.map_injective
    intro m n h
    exact Int.ofNat.inj (Int.eq_of_mul_eq_mul_left hsign h)
  rw [ReadsIntegers, str2int_eq d hb, Except.ok.injEq, hinj.eq_iff, integer, integer, hmul.eq_iff,
    numeral_eq_iff (Nat.le_succ b), HoldsBase]
  refine not_congr (and_congr_right fun _ => and_congr_right fun hall => ?_)
  constructor
  · rintro ⟨r, hr, hnot⟩
    obtain ⟨i, hi, hlt⟩ := hall r hr
    have hib : i = b := by
      by_contra hne
      exact hnot ⟨i, hi, by omega⟩
    exact ⟨r, hr, hib ▸ hi⟩
  · rintro ⟨r, hr, hb⟩
    refine ⟨r, hr, ?_⟩
    rintro ⟨i, hi, hlt⟩
    have hib : i = b := Option.some.inj (hi.symm.trans hb)
    omega

/-- Fixnums come back from their digits in either case; strings are read as they
should be but for those with a digit equal to the base. -/
theorem digit_strings {b : Nat} (hb : 2 ≤ b) (hb' : b ≤ 36) :
    (∀ (n : Int) (uc sf : Bool), -fixnumMax ≤ n ∧ n ≤ fixnumMax →
        ∃ str, itoa d n (.fixnum b) uc sf = .ok str ∧
          str2int d str b 0 str.length = .ok (some (.fixnum n))) ∧
      ∀ str, ReadsIntegers d b str ↔ ¬ HoldsBase b str :=
  ⟨fun _ uc sf hn => str2int_itoa d uc sf hb hb' hn, readsIntegers_iff d hb'⟩

/-- Base 16 in capitals. -/
theorem digit_strings_sixteen :
    (∃ str, itoa Signed.doubles (-255) (.fixnum 16) true false = .ok str ∧
      str2int Signed.doubles str 16 0 str.length = .ok (some (.fixnum (-255)))) ∧
      (ReadsIntegers Signed.doubles 16 [] ↔ ¬ HoldsBase 16 []) :=
  ⟨(digit_strings Signed.doubles (b := 16) (by decide) (by decide)).1 (-255) true false (by decide),
    (digit_strings Signed.doubles (b := 16) (by decide) (by decide)).2 []⟩

/-- The digit 2 in base 2. -/
theorem not_readsIntegers_two : ¬ ReadsIntegers Signed.doubles 2 ['2'.toNat] := by
  rw [readsIntegers_iff Signed.doubles (by decide), not_not]
  refine ⟨by decide, ?_, '2'.toNat, List.mem_singleton_self _, rfl⟩
  intro r hr
  rw [List.mem_singleton.mp hr]
  exact ⟨2, rfl, by decide⟩

end Reading

end Arcueid.Exact
