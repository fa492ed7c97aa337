import Mathlib.Data.Nat.Digits.Defs
import Mathlib.Data.Rat.Defs
import Mathlib.Tactic.IntervalCases
import Arcueid.Utf

/-! Reading numbers: `arc_string2num`. Integers and rationals are exact;
floating point is left to the parameter `F`. -/

namespace Arcueid

open Utf

/-- A number as the reader makes it. -/
inductive Number (F : Type) where
  | fixnum (n : Int)
  | bignum (n : Int)
  | rational (q : ℚ)
  | flonum (f : F)
  deriving DecidableEq

/-- The floating point numbers that tokens denote. -/
structure Flonums (F : Type) where
  str2flonum : List Nat → Option F
  infinity : Int → F
  nan : F

namespace Numeral

def fixnumMax : Int := 2 ^ 62 - 1

end Numeral

open Numeral

def Fixnum : Type := { n : Int // -fixnumMax ≤ n ∧ n ≤ fixnumMax }

namespace Numeral

variable {F : Type}

/-- An integer, a fixnum if it fits. -/
def mkInteger (n : Int) : Number F :=
  if -fixnumMax ≤ n ∧ n ≤ fixnumMax then .fixnum n else .bignum n

/-- `arc_mkrationall`. `mpq_set_si` takes the denominator as an unsigned long. -/
def mkrationall (num den : Int) : ℚ := num / (den % 2 ^ 64 : Int)

/-- `__arc_div2` on integers. -/
def div2 (n d : Int) : Except String (Number F) :=
  if d = 0 then throw "Division by zero"
  else if n % d = 0 then pure (mkInteger (n / d))
  else if (-fixnumMax ≤ n ∧ n ≤ fixnumMax) ∧ -fixnumMax ≤ d ∧ d ≤ fixnumMax then
    pure (.rational (mkrationall n d))
  else pure (.rational (n / d))

def isdigit (ch : Nat) : Bool := '0'.toNat ≤ ch && ch ≤ '9'.toNat

def tolower (ch : Nat) : Nat := if 'A'.toNat ≤ ch ∧ ch ≤ 'Z'.toNat then ch + 32 else ch

/-- The value of a digit. The radix is compared as the fixnum word it is
passed as. -/
def rune2dig (r : Nat) (radix : Int) : Option Int :=
  if !ucisalnum r then none else
  let rl := tolower r
  let v : Int := if rl ≤ '9'.toNat then rl - '0'.toNat else rl - 'a'.toNat + 10
  if v > 2 * radix + 1 then none else some v

/-- States 4 and 5 of `arc_string2num`: the integer read so far and the radix. -/
inductive NumState where
  | sign
  | first
  | digits (nval : Int)
  | radix (radix nval : Int)

/-- `arc_string2num` from one of its states. `token` is the whole string,
`denominator` tells that it is read for a denominator. -/
def string2numFrom (flo : Flonums F) (token : List Nat) (denominator : Bool) :
    NumState → Int → List Nat → Except String (Option (Number F))
  | .sign, _, [] | .first, _, [] => pure none
  | .digits nval, sign, [] | .radix _ nval, sign, [] => pure (some (mkInteger (nval * sign)))
  | .sign, _, ch :: rest =>
    if ch = Runeerror then pure none
    else if ch = '-'.toNat then string2numFrom flo token denominator .first (-1) rest
    else if ch = '+'.toNat then string2numFrom flo token denominator .first 1 rest
    else if ch = '.'.toNat then pure ((flo.str2flonum token).map .flonum)
    else if !isdigit ch then pure none
    -- the digit is pushed back, twice over
    else string2numFrom flo token denominator (.digits (ch - '0'.toNat)) 1 rest
  | .first, sign, ch :: rest =>
    if ch = Runeerror then pure none
    else if ch = '.'.toNat then pure ((flo.str2flonum token).map .flonum)
    else if tolower ch = 'i'.toNat then
      if rest.take 4 = "nf.0".toList.map Char.toNat then pure (some (.flonum (flo.infinity sign)))
      else pure none
    else if tolower ch = 'n'.toNat then
      if rest.take 4 = "an.0".toList.map Char.toNat then pure (some (.flonum flo.nan)) else pure none
    else if !isdigit ch then pure none
    else string2numFrom flo token denominator (.digits (ch - '0'.toNat)) sign rest
  | .digits nval, sign, ch :: rest =>
    if ch = Runeerror then pure (some (mkInteger (nval * sign)))
    else if ch = '.'.toNat ∨ ch = 'e'.toNat ∨ ch = 'E'.toNat then
      pure ((flo.str2flonum token).map .flonum)
    else if ch = 'r'.toNat then
      if 2 ≤ nval ∧ nval ≤ 36 then string2numFrom flo token denominator (.radix nval 0) sign rest
      else pure none
    else if ch = '/'.toNat then
      if denominator then pure none else do
        match ← string2numFrom flo token true .sign 1 rest with
        | some (.fixnum d) | some (.bignum d) => some <$> div2 (sign * nval) d
        | _ => pure none
    else if ch = 'i'.toNat ∨ ch = 'I'.toNat ∨ ch = 'j'.toNat ∨ ch = 'J'.toNat ∨ ch = '+'.toNat ∨
        ch = '-'.toNat then
      pure ((flo.str2flonum token).map .flonum)
    else match rune2dig ch 10 with
      | none => pure none
      | some digitval => string2numFrom flo token denominator (.digits (nval * 10 + digitval)) sign rest
  | .radix radix nval, sign, ch :: rest =>
    if ch = Runeerror then pure (some (mkInteger (nval * sign)))
    else match rune2dig ch radix with
      | none => pure none
      | some digitval =>
        string2numFrom flo token denominator (.radix radix (nval * radix + digitval)) sign rest

def string2num (flo : Flonums F) (str : List Nat) : Except String (Option (Number F)) :=
  string2numFrom flo str false .sign 1 str

/-- The digits of `n`, as `%ld` prints them. -/
def decimal (n : Nat) : List Nat :=
  if n = 0 then ['0'.toNat] else (Nat.digits 10 n).reverse.map (· + '0'.toNat)

/-- The text of a fixnum. -/
def fixnumText (n : Int) : List Nat :=
  if n < 0 then '-'.toNat :: decimal n.natAbs else decimal n.natAbs

variable {flo : Flonums F} {token : List Nat} {denominator : Bool}

theorem decimal_eq (n : Nat) :
    ∃ d ds, decimal n = (d :: ds).map (· + '0'.toNat) ∧ (∀ x ∈ d :: ds, x < 10) ∧
      ds.foldl (fun v x => v * 10 + x) d = n := by
  by_cases hn : n = 0
  · exact ⟨0, [], by simp [decimal, hn], by simp, by simp [hn]⟩
  · have hne : (Nat.digits 10 n).reverse ≠ [] := by
      simpa [Nat.digits_eq_nil_iff_eq_zero] using hn
    obtain ⟨d, ds, hds⟩ := List.exists_cons_of_ne_nil hne
    refine ⟨d, ds, by rw [decimal, if_neg hn, hds], ?_, ?_⟩
    · intro x hx
      rw [← hds, List.mem_reverse] at hx
      exact Nat.digits_lt_base (by omega) hx
    · have hfold : (d :: ds).foldl (fun v x => v * 10 + x) 0 = n := by
        rw [← hds, List.foldl_reverse]
        have hof := Nat.ofDigits_digits 10 n
        rw [Nat.ofDigits_eq_foldr] at hof
        simpa [Nat.mul_comm, Nat.add_comm] using hof
      simpa using hfold

theorem digit_facts {d : Nat} (h : d < 10) :
    rune2dig (d + '0'.toNat) 10 = some (d : Int) ∧ isdigit (d + '0'.toNat) = true ∧
      d + '0'.toNat < 'A'.toNat ∧ '/'.toNat < d + '0'.toNat := by
  decide +revert

theorem string2numFrom_digits {sign : Int} {v : Nat} {ds : List Nat} (hds : ∀ x ∈ ds, x < 10) :
    string2numFrom flo token denominator (.digits v) sign (ds.map (· + '0'.toNat)) =
      .ok (some (mkInteger ((ds.foldl (fun v x => v * 10 + x) v : Nat) * sign))) := by
  induction ds generalizing v with
  | nil => simp [string2numFrom, pure, Except.pure]
  | cons d ds ih =>
    obtain ⟨hdig, -, hA, hslash⟩ := digit_facts (hds d (by simp))
    have h0 : '0'.toNat = 48 := rfl
    have hA0 : 'A'.toNat = 65 := rfl
    have hs0 : '/'.toNat = 47 := rfl
    rw [List.map_cons, string2numFrom, hdig]
    have hne : ∀ x : Nat, x ≤ 47 ∨ 65 ≤ x → d + '0'.toNat ≠ x := by
      intro x hx
      omega
    rw [if_neg (hne _ (by decide)), if_neg (not_or.mpr ⟨hne _ (by decide), not_or.mpr
      ⟨hne _ (by decide), hne _ (by decide)⟩⟩), if_neg (hne _ (by decide)), if_neg (hne _ (by decide)),
      if_neg (by simp only [not_or]; exact ⟨hne _ (by decide), hne _ (by decide), hne _ (by decide),
        hne _ (by decide), hne _ (by decide), hne _ (by decide)⟩)]
    have hrec := ih (v := v * 10 + d) fun x hx => hds x (by simp [hx])
    simpa using hrec

theorem string2numFrom_sign_digit {d : Nat} (hd : d < 10) (rest : List Nat) :
    string2numFrom flo token denominator .sign 1 ((d + '0'.toNat) :: rest) =
      string2numFrom flo token denominator (.digits d) 1 rest := by
  interval_cases d <;> rfl

theorem string2numFrom_first_digit {d : Nat} (hd : d < 10) (sign : Int) (rest : List Nat) :
    string2numFrom flo token denominator .first sign ((d + '0'.toNat) :: rest) =
      string2numFrom flo token denominator (.digits d) sign rest := by
  interval_cases d <;> rfl

theorem string2num_fixnumText {n : Int} (h : -fixnumMax ≤ n ∧ n ≤ fixnumMax) :
    string2num flo (fixnumText n) = .ok (some (.fixnum n)) := by
  obtain ⟨d, ds, htext, hlt, hfold⟩ := decimal_eq n.natAbs
  have hd := hlt d (by simp)
  have hds : ∀ x ∈ ds, x < 10 := fun x hx => hlt x (by simp [hx])
  have hmk : (mkInteger n : Number F) = .fixnum n := if_pos h
  rw [string2num, fixnumText, htext, List.map_cons]
  split_ifs with hn
  · rw [show ∀ token : List Nat, string2numFrom flo token false .sign 1
        ('-'.toNat :: (d + '0'.toNat) :: ds.map (· + '0'.toNat)) =
        string2numFrom flo token false .first (-1) ((d + '0'.toNat) :: ds.map (· + '0'.toNat)) from
        fun _ => rfl, string2numFrom_first_digit hd, string2numFrom_digits hds, hfold,
      show (n.natAbs : Int) * -1 = n by omega, hmk]
  · rw [string2numFrom_sign_digit hd, string2numFrom_digits hds, hfold,
      show (n.natAbs : Int) * 1 = n by omega, hmk]

end Numeral

end Arcueid
