import Mathlib.Data.List.TakeWhile
import Arcueid.DigitStrings
import Arcueid.FlonumTokens
import Arcueid.Reader

/-! Which tokens `arc_string2num` reads as integers, and which go on to be symbols. -/

namespace Arcueid.Numeral

open Utf Positional Reader
open Exact (str2intDigit)

variable {F : Type}

section Tokens

/-- Decimal digits, or a decimal radix from 2 to 36, `r` and digits below the radix. -/
def unsignedInteger (body : List Nat) : Option Nat :=
  match body.dropWhile (· ≠ 'r'.toNat) with
  | [] => numeral str2intDigit 10 10 body
  | _ :: digits => (numeral str2intDigit 10 10 (body.takeWhile (· ≠ 'r'.toNat))).bind fun b =>
      if 2 ≤ b ∧ b ≤ 36 then numeral str2intDigit b b digits else none

/-- The integer that a token stands for. -/
def integerToken (s : List Nat) : Option Int :=
  (unsignedInteger (splitSign '-'.toNat '+'.toNat s).2).map fun n : Nat =>
    (splitSign '-'.toNat '+'.toNat s).1 * (n : Int)

/-- Digits and signs, as they stand before an exponent or an imaginary unit. -/
def Mantissa (p : List Nat) : Prop :=
  (∀ x ∈ p, isdigit x = true ∨ signRune x = true) ∧ ∃ x ∈ p, isdigit x = true

/-- A token without point, slash, exponent and imaginary suffix. -/
structure IntegerShaped (s : List Nat) : Prop where
  no_point : '.'.toNat ∉ s
  no_slash : '/'.toNat ∉ s
  no_exponent : ∀ p ch rest, s = p ++ ch :: rest → Mantissa p → exponentMark ch = false
  no_suffix : ∀ p ch, s = p ++ [ch] → Mantissa p → imaginaryUnit ch = false

/-- The token is read as the integer it stands for, or else made a symbol. -/
def ReadsInteger (flo : Flonums F) (s : List Nat) : Prop :=
  string2num flo s = .ok ((integerToken s).map mkInteger) ∧
    ∀ n p p', getsymbol n .start [] p = .ok (.text s, p') →
      readSymbol flo n p =
        .ok (((integerToken s).map fun n => Datum.number (mkInteger n)).getD (intern s), p')

/-- The digits of states 4 and 5 of `arc_string2num`: letters up to `l` count among the
decimal digits. -/
def looseDigit (ch : Nat) : Bool :=
  (str2intDigit ch).any (· < 22) && !exponentMark ch && !imaginaryUnit ch

def looseDigits (s : List Nat) : List Nat :=
  (splitSign '-'.toNat '+'.toNat s).2.takeWhile looseDigit

def afterDigits (s : List Nat) : List Nat :=
  (splitSign '-'.toNat '+'.toNat s).2.dropWhile looseDigit

def AllBelow (b : Nat) (ds : List Nat) : Prop := ∀ ch ∈ ds, DigitBelow str2intDigit b ch

/-- A radix with letters in it, with no digits behind it, or with digits between the radix
and its double. -/
def MisreadRadix (ds digits : List Nat) : Prop :=
  ∃ b, readDigits str2intDigit 22 10 0 ds = some b ∧ 2 ≤ b ∧ b ≤ 36 ∧
    AllBelow (2 * b + 2) (digits.takeWhile (· ≠ Runeerror)) ∧
    ¬ (AllBelow 10 ds ∧ digits ≠ [] ∧ AllBelow b digits)

/-- The tokens that are read as numbers and should not be: letters among the decimal digits,
what stands before a broken rune, a misread radix, an imaginary unit inside. -/
def Misread (s : List Nat) : Prop :=
  (∃ d ds, looseDigits s = d :: ds ∧ isdigit d = true) ∧
    (afterDigits s = [] ∧ ¬ AllBelow 10 (looseDigits s) ∨
      ∃ ch rest, afterDigits s = ch :: rest ∧
        (ch = Runeerror ∨ ch = 'r'.toNat ∧ MisreadRadix (looseDigits s) rest ∨
          AllBelow 10 (looseDigits s) ∧
            (imaginaryUnit ch = true ∨ signRune ch = true ∧ ImaginaryText rest)))

end Tokens

section Digits

theorem rune2dig_eq (r radix : Nat) :
    rune2dig r radix = ((str2intDigit r).filter fun d => d < 2 * radix + 2).map Int.ofNat := by
  have hchars : '0'.toNat = 48 ∧ '9'.toNat = 57 ∧ 'A'.toNat = 65 ∧ 'Z'.toNat = 90 ∧ 'a'.toNat = 97 ∧
      'z'.toNat = 122 := by decide
  obtain ⟨h0, h9, hA, hZ, ha, hz⟩ := hchars
  have hlimit : ∀ (v : Int) (d : Nat), v = d → (if v > 2 * radix + 1 then none else some v) =
      ((some d).filter fun d => d < 2 * radix + 2).map Int.ofNat := by
    rintro v d rfl
    by_cases hd : d < 2 * radix + 2
    · rw [if_neg (by omega), Option.filter_some_pos (by simpa using hd)]
      rfl
    · rw [if_pos (by omega), Option.filter_some_neg (by simpa using hd)]
      rfl
  by_cases hdigit : 48 ≤ r ∧ r ≤ 57
  · have halnum : ucisalnum r = true := by
      simp only [ucisalnum, h0, h9, Bool.and_eq_true, Bool.or_eq_true, decide_eq_true_eq]
      omega
    have hlow : tolower r = r := if_neg (by omega)
    have hval : str2intDigit r = some (r - 48) := if_pos (by simpa [isdigit, h0, h9] using hdigit)
    rw [rune2dig, halnum, hlow, hval]
    simp only [h0, h9, Bool.not_true, Bool.false_eq_true, if_false, if_pos hdigit.2]
    exact hlimit _ _ (by omega)
  · have hnot : ¬ isdigit r = true := by simpa [isdigit, h0, h9] using hdigit
    by_cases hupper : 65 ≤ r ∧ r ≤ 90
    · have halnum : ucisalnum r = true := by
        simp only [ucisalnum, hA, hZ, Bool.and_eq_true, Bool.or_eq_true, decide_eq_true_eq]
        omega
      have hlow : tolower r = r + 32 := if_pos hupper
      have hup : Exact.toupper r = r := if_neg (by simp [Exact.islower, ha]; omega)
      have hval : str2intDigit r = some (r - 65 + 10) := by
        rw [str2intDigit, if_neg hnot, if_pos (by simp [Exact.isupper, hA, hZ, hupper]), hup, hA]
      rw [rune2dig, halnum, hlow, hval]
      simp only [h9, ha, Bool.not_true, Bool.false_eq_true, if_false, if_neg (show ¬ r + 32 ≤ 57 by omega)]
      exact hlimit _ _ (by omega)
    · by_cases hlower : 97 ≤ r ∧ r ≤ 122
      · have halnum : ucisalnum r = true := by
          simp only [ucisalnum, ha, hz, Bool.and_eq_true, Bool.or_eq_true, decide_eq_true_eq]
          omega
        have hlow : tolower r = r := if_neg (by omega)
        have hup : Exact.toupper r = r - 32 := if_pos (by simp [Exact.islower, ha, hz, hlower])
        have hval : str2intDigit r = some (r - 32 - 65 + 10) := by
          rw [str2intDigit, if_neg hnot, if_pos (by simp [Exact.islower, ha, hz, hlower]), hup, hA]
        rw [rune2dig, halnum, hlow, hval]
        simp only [h9, ha, Bool.not_true, Bool.false_eq_true, if_false, if_neg (show ¬ r ≤ 57 by omega)]
        exact hlimit _ _ (by omega)
      · have halnum : ucisalnum r = false := by
          rw [Bool.eq_false_iff]
          simp only [ucisalnum, h0, h9, hA, hZ, ha, hz, ne_eq, Bool.and_eq_true, Bool.or_eq_true,
            decide_eq_true_eq]
          omega
        have hval : str2intDigit r = none := by
          have hletter : ¬ (Exact.isupper r || Exact.islower r) = true := by
            simp only [Exact.isupper, Exact.islower, hA, hZ, ha, hz, Bool.and_eq_true, Bool.or_eq_true,
              decide_eq_true_eq]
            omega
          rw [str2intDigit, if_neg hnot, if_neg hletter]
        rw [rune2dig, halnum, hval]
        rfl

theorem digitBelow_ten_iff (ch : Nat) : DigitBelow str2intDigit 10 ch ↔ isdigit ch = true := by
  constructor
  · rintro ⟨d, hd, hlt⟩
    by_contra hnot
    rw [str2intDigit, if_neg hnot] at hd
    split at hd
    · cases hd
      omega
    · cases hd
  · intro h
    have hbounds : 48 ≤ ch ∧ ch ≤ 57 := by simpa [isdigit] using h
    have h0 : '0'.toNat = 48 := rfl
    exact ⟨ch - '0'.toNat, if_pos h, by omega⟩

open Exact (ExactNumber) in
open Exact.ExactNumber in
/-- The sums and products of the loop stay what they are beyond the fixnums. -/
theorem accumulate (d : Doubles F) (nval radix digitval : Int) :
    (Exact.mul2 d (ofInt nval).obj (ofInt radix).obj >>= fun prod =>
        Exact.add2 d prod (ofInt digitval).obj) =
      .ok (ofInt (nval * radix + digitval) : ExactNumber F).obj := by
  rw [Exact.mul2_ofInt]
  exact Exact.add2_ofInt d _ _

theorem looseDigit_iff {ch : Nat} : looseDigit ch = true ↔
    DigitBelow str2intDigit 22 ch ∧ exponentMark ch = false ∧ imaginaryUnit ch = false := by
  rw [looseDigit, Bool.and_eq_true, Bool.and_eq_true, Bool.not_eq_true', Bool.not_eq_true', and_assoc,
    DigitBelow, Option.any_eq_true]
  simp only [decide_eq_true_eq]

theorem digitBelow_of_isdigit {ch : Nat} (h : isdigit ch = true) :
    DigitBelow str2intDigit 22 ch := by
  obtain ⟨d, hd, hlt⟩ := (digitBelow_ten_iff ch).mpr h
  exact ⟨d, hd, by omega⟩

theorem looseDigit_of_isdigit {ch : Nat} (h : isdigit ch = true) : looseDigit ch = true :=
  looseDigit_iff.mpr ⟨digitBelow_of_isdigit h, (plain_of_isdigit h).no_mark, (plain_of_isdigit h).no_unit⟩

theorem loose_facts {ch : Nat} (h : looseDigit ch = true) :
    Plain ch ∧ ch ≠ 'r'.toNat ∧ ch ≠ '/'.toNat := by
  obtain ⟨hdigit, hmark, hunit⟩ := looseDigit_iff.mp h
  have hne : ∀ c, ¬ DigitBelow str2intDigit 22 c → ch ≠ c := by
    rintro c hc rfl
    exact hc hdigit
  have hnot : ∀ c, (str2intDigit c).any (· < 22) = false → ¬ DigitBelow str2intDigit 22 c := by
    rintro c hc ⟨d, hd, hlt⟩
    rw [hd] at hc
    exact absurd hlt (of_decide_eq_false hc)
  have hsign : signRune ch = false := by
    cases hs : signRune ch with
    | false => rfl
    | true =>
      have hchar : ch = '+'.toNat ∨ ch = '-'.toNat := by simpa [signRune] using hs
      rcases hchar with h | h
      · exact absurd h (hne _ (hnot _ (by decide)))
      · exact absurd h (hne _ (hnot _ (by decide)))
  exact ⟨⟨hne _ (hnot _ (by decide)), hne _ (hnot _ (by decide)), hmark, hsign, hunit⟩,
    hne _ (hnot _ (by decide)), hne _ (hnot _ (by decide))⟩

end Digits

section Scan

variable {flo : Flonums F} {token : List Nat} {denominator : Bool} {sign : Int} {ch : Nat} {t : List Nat}

variable (flo token denominator sign t) in
theorem digits_step (h : looseDigit ch = true) (v : Nat) :
    ∃ d, str2intDigit ch = some d ∧ d < 22 ∧
      string2numFrom flo token denominator (.digits v) sign (ch :: t) =
        string2numFrom flo token denominator (.digits (v * 10 + d : Nat)) sign t := by
  obtain ⟨⟨d, hd, hlt⟩, hmark, hunit⟩ := looseDigit_iff.mp h
  obtain ⟨hp, hr, hslash⟩ := loose_facts h
  have hmarks : ¬ (ch = '.'.toNat ∨ ch = 'e'.toNat ∨ ch = 'E'.toNat) := by
    simp only [exponentMark, Bool.or_eq_false_iff, decide_eq_false_iff_not] at hmark
    rintro (h | h | h)
    · exact hp.no_point h
    · exact hmark.1 h
    · exact hmark.2 h
  have hunits : ¬ (ch = 'i'.toNat ∨ ch = 'I'.toNat ∨ ch = 'j'.toNat ∨ ch = 'J'.toNat ∨ ch = '+'.toNat ∨
      ch = '-'.toNat) := by
    have hsign := hp.no_sign
    simp only [imaginaryUnit, signRune, Bool.or_eq_false_iff, decide_eq_false_iff_not] at hunit hsign
    tauto
  have hdig : rune2dig ch 10 = some (d : Int) := by
    have heq := rune2dig_eq ch 10
    rw [hd, Option.filter_some_pos (by simpa using hlt)] at heq
    exact heq
  refine ⟨d, hd, hlt, ?_⟩
  rw [string2numFrom, if_neg hp.no_error, if_neg hmarks, if_neg hr, if_neg hslash, if_neg hunits, hdig]
  push_cast
  rfl

variable (flo token denominator sign t) in
/-- Digits and the letters among them are read into the number so far. -/
theorem digits_scan {ds : List Nat} (hds : ∀ ch ∈ ds, looseDigit ch = true) (v : Nat) :
    ∃ w, readDigits str2intDigit 22 10 v ds = some w ∧
      string2numFrom flo token denominator (.digits v) sign (ds ++ t) =
        string2numFrom flo token denominator (.digits w) sign t := by
  induction ds generalizing v with
  | nil => exact ⟨v, rfl, rfl⟩
  | cons ch ds ih =>
    obtain ⟨d, hd, hlt, hstep⟩ := digits_step flo token denominator sign (ds ++ t)
      (hds ch List.mem_cons_self) v
    obtain ⟨w, hw, hrest⟩ := ih (fun y hy => hds y (List.mem_cons_of_mem _ hy)) (v * 10 + d)
    refine ⟨w, ?_, ?_⟩
    · rw [readDigits_cons hd hlt, hw]
    · rw [List.cons_append, hstep, hrest]

theorem radix_scan (radix v : Nat) (t : List Nat) :
    string2numFrom flo token denominator (.radix radix v) sign t =
      .ok ((readDigits str2intDigit (2 * radix + 2) radix v (t.takeWhile (· ≠ Runeerror))).map
        fun n : Nat => mkInteger (n * sign)) := by
  induction t generalizing v with
  | nil => rfl
  | cons ch t ih =>
    by_cases herror : ch = Runeerror
    · subst herror
      rw [string2numFrom, if_pos rfl]
      rfl
    · have htake : (ch :: t).takeWhile (· ≠ Runeerror) = ch :: t.takeWhile (· ≠ Runeerror) :=
        List.takeWhile_cons_of_pos (by simpa using herror)
      rw [string2numFrom, if_neg herror, htake, rune2dig_eq]
      by_cases hch : DigitBelow str2intDigit (2 * radix + 2) ch
      · obtain ⟨d, hd, hlt⟩ := hch
        have hnext := ih (v * radix + d)
        push_cast at hnext
        rw [readDigits_cons hd hlt, hd, Option.filter_some_pos (by simpa using hlt)]
        exact hnext
      · rw [readDigits_cons_none hch]
        cases hd : str2intDigit ch with
        | none => rfl
        | some d =>
          have hge : ¬ d < 2 * radix + 2 := fun hlt => hch ⟨d, hd, hlt⟩
          rw [Option.filter_some_neg (by simpa using hge)]
          rfl

end Scan

section Numerals

variable {ds rest : List Nat} {ch : Nat}

theorem numeral_none {b b' : Nat} {s : List Nat} (h : ∃ ch ∈ s, ¬ DigitBelow str2intDigit b ch) :
    numeral str2intDigit b b' s = none := by
  rw [numeral, readDigits_eq_none_iff.mpr h, ite_self]

theorem takeWhile_radix (hds : ∀ ch ∈ ds, ch ≠ 'r'.toNat) :
    (ds ++ rest).takeWhile (· ≠ 'r'.toNat) = ds ++ rest.takeWhile (· ≠ 'r'.toNat) :=
  List.takeWhile_append_of_pos fun ch hch => decide_eq_true (hds ch hch)

theorem dropWhile_radix (hds : ∀ ch ∈ ds, ch ≠ 'r'.toNat) :
    (ds ++ rest).dropWhile (· ≠ 'r'.toNat) = rest.dropWhile (· ≠ 'r'.toNat) :=
  List.dropWhile_append_of_pos fun ch hch => decide_eq_true (hds ch hch)

theorem unsignedInteger_digits (hds : ∀ ch ∈ ds, ch ≠ 'r'.toNat) :
    unsignedInteger ds = numeral str2intDigit 10 10 ds := by
  have hdrop : (ds ++ []).dropWhile (· ≠ 'r'.toNat) = ([] : List Nat).dropWhile (· ≠ 'r'.toNat) :=
    dropWhile_radix hds
  rw [List.append_nil] at hdrop
  rw [unsignedInteger, hdrop]
  rfl

variable (rest) in
theorem unsignedInteger_radix (hds : ∀ ch ∈ ds, ch ≠ 'r'.toNat) :
    unsignedInteger (ds ++ 'r'.toNat :: rest) = (numeral str2intDigit 10 10 ds).bind fun b =>
      if 2 ≤ b ∧ b ≤ 36 then numeral str2intDigit b b rest else none := by
  have htake : ('r'.toNat :: rest).takeWhile (· ≠ 'r'.toNat) = [] := List.takeWhile_cons_of_neg (by simp)
  have hdrop : ('r'.toNat :: rest).dropWhile (· ≠ 'r'.toNat) = 'r'.toNat :: rest :=
    List.dropWhile_cons_of_neg (by simp)
  rw [unsignedInteger, dropWhile_radix hds, takeWhile_radix hds, hdrop, htake, List.append_nil]

variable (rest) in
/-- What is no decimal digit, and no `r`, spoils the digits it follows. -/
theorem unsignedInteger_none (hds : ∀ ch ∈ ds, ch ≠ 'r'.toNat) (hr : ch ≠ 'r'.toNat)
    (hch : ¬ DigitBelow str2intDigit 10 ch) : unsignedInteger (ds ++ ch :: rest) = none := by
  have htake : (ch :: rest).takeWhile (· ≠ 'r'.toNat) = ch :: rest.takeWhile (· ≠ 'r'.toNat) :=
    List.takeWhile_cons_of_pos (decide_eq_true hr)
  have hmem : ∀ t : List Nat, ch ∈ ds ++ ch :: t := fun t =>
    List.mem_append_right _ List.mem_cons_self
  rw [unsignedInteger, takeWhile_radix hds, htake]
  split
  · exact numeral_none ⟨ch, hmem _, hch⟩
  · rw [numeral_none ⟨ch, hmem _, hch⟩]
    rfl

end Numerals

section Start

variable {flo : Flonums F} {token s rest : List Nat} {d : Nat}

theorem splitSign_eq (s : List Nat) :
    ∃ sg, s = sg ++ (splitSign '-'.toNat '+'.toNat s).2 ∧ (sg = [] ∨ ∃ u, sg = [u] ∧ signRune u = true) := by
  cases s with
  | nil => exact ⟨[], rfl, .inl rfl⟩
  | cons ch s =>
    rw [splitSign]
    by_cases hminus : ch = '-'.toNat
    · rw [if_pos hminus]
      exact ⟨[ch], rfl, .inr ⟨ch, rfl, by rw [hminus]; rfl⟩⟩
    · rw [if_neg hminus]
      by_cases hplus : ch = '+'.toNat
      · rw [if_pos hplus]
        exact ⟨[ch], rfl, .inr ⟨ch, rfl, by rw [hplus]; rfl⟩⟩
      · rw [if_neg hplus]
        exact ⟨[], rfl, .inl rfl⟩

theorem first_digit (hd : isdigit d = true) (sign : Int) :
    string2numFrom flo token false .first sign (d :: rest) =
      string2numFrom flo token false (.digits (d - '0'.toNat : Nat)) sign rest := by
  have hbounds : 48 ≤ d ∧ d ≤ 57 := by simpa [isdigit] using hd
  obtain ⟨hlow, hhigh⟩ := hbounds
  interval_cases d <;> rfl

theorem sign_digit (hd : isdigit d = true) :
    string2numFrom flo token false .sign 1 (d :: rest) =
      string2numFrom flo token false (.digits (d - '0'.toNat : Nat)) 1 rest := by
  have hbounds : 48 ≤ d ∧ d ≤ 57 := by simpa [isdigit] using hd
  obtain ⟨hlow, hhigh⟩ := hbounds
  interval_cases d <;> rfl

/-- The first digit of a token is reached behind its sign. -/
theorem string2num_digit (hs : (splitSign '-'.toNat '+'.toNat s).2 = d :: rest) (hd : isdigit d = true) :
    string2num flo s = string2numFrom flo s false (.digits (d - '0'.toNat : Nat))
      (splitSign '-'.toNat '+'.toNat s).1 rest := by
  cases s with
  | nil => cases hs
  | cons ch s =>
    rw [splitSign] at hs ⊢
    by_cases hminus : ch = '-'.toNat
    · rw [if_pos hminus] at hs ⊢
      have htail : s = d :: rest := hs
      rw [hminus, htail, ← first_digit hd]
      rfl
    · rw [if_neg hminus] at hs ⊢
      by_cases hplus : ch = '+'.toNat
      · rw [if_pos hplus] at hs ⊢
        have htail : s = d :: rest := hs
        rw [hplus, htail, ← first_digit hd]
        rfl
      · rw [if_neg hplus] at hs ⊢
        have htail : ch :: s = d :: rest := hs
        rw [htail, ← sign_digit hd]
        rfl

theorem first_other (hpoint : '.'.toNat ∉ rest) (hnot : ∀ d t, rest = d :: t → isdigit d = false)
    (sign : Int) : string2numFrom flo token false .first sign rest = .ok none := by
  cases rest with
  | nil => rfl
  | cons d t =>
    have hdot : d ≠ '.'.toNat := fun h => hpoint (h ▸ List.mem_cons_self)
    have htail : '.'.toNat ∉ t := fun h => hpoint (List.mem_cons_of_mem _ h)
    have hinf : t.take 4 ≠ "nf.0".toList.map Char.toNat := fun h =>
      htail (List.mem_of_mem_take (h ▸ (by decide : '.'.toNat ∈ "nf.0".toList.map Char.toNat)))
    have hnan : t.take 4 ≠ "an.0".toList.map Char.toNat := fun h =>
      htail (List.mem_of_mem_take (h ▸ (by decide : '.'.toNat ∈ "an.0".toList.map Char.toNat)))
    rw [string2numFrom, if_neg hdot, if_neg hinf, if_neg hnan, hnot d t rfl]
    simp only [Bool.not_false, if_true, ite_self]
    rfl

theorem string2num_other (hpoint : '.'.toNat ∉ s)
    (hnot : ∀ d t, (splitSign '-'.toNat '+'.toNat s).2 = d :: t → isdigit d = false) :
    string2num flo s = .ok none := by
  cases s with
  | nil => rfl
  | cons ch s =>
    have htail : '.'.toNat ∉ s := fun h => hpoint (List.mem_cons_of_mem _ h)
    rw [splitSign] at hnot
    by_cases hminus : ch = '-'.toNat
    · rw [if_pos hminus] at hnot
      rw [hminus]
      exact first_other htail hnot (-1)
    · rw [if_neg hminus] at hnot
      by_cases hplus : ch = '+'.toNat
      · rw [if_pos hplus] at hnot
        rw [hplus]
        exact first_other htail hnot 1
      · rw [if_neg hplus] at hnot
        have hdot : ch ≠ '.'.toNat := fun h => hpoint (h ▸ List.mem_cons_self)
        rw [string2num, string2numFrom, if_neg hminus, if_neg hplus, if_neg hdot, hnot ch s rfl]
        simp only [Bool.not_false, if_true, ite_self]
        rfl

end Start

section Main

variable {dec : Decimals F} {s ds rest : List Nat} {d ch w : Nat}

theorem allBelow_ten_iff : AllBelow 10 ds ↔ ∀ ch ∈ ds, isdigit ch = true :=
  forall₂_congr fun ch _ => digitBelow_ten_iff ch

theorem not_allBelow_ten_iff : ¬ AllBelow 10 ds ↔ ∃ ch ∈ ds, isdigit ch = false := by
  rw [allBelow_ten_iff]
  push Not
  simp only [ne_eq, Bool.not_eq_true]

/-- What `arc_string2num` sees of a token: a sign, digits that begin with a decimal one, and
what follows them. -/
structure Scanned (s sg ds : List Nat) (d w : Nat) : Prop where
  sign : sg = [] ∨ ∃ u, sg = [u] ∧ signRune u = true
  text : s = sg ++ d :: (ds ++ afterDigits s)
  body : (splitSign '-'.toNat '+'.toNat s).2 = d :: (ds ++ afterDigits s)
  digits : looseDigits s = d :: ds
  loose : ∀ ch ∈ d :: ds, looseDigit ch = true
  first : isdigit d = true
  value : readDigits str2intDigit 22 10 0 (d :: ds) = some w
  scan : ∀ {G : Type} (flo : Flonums G), string2num flo s =
    string2numFrom flo s false (.digits w) (splitSign '-'.toNat '+'.toNat s).1 (afterDigits s)

theorem scanned (hs : (splitSign '-'.toNat '+'.toNat s).2 = d :: rest) (hd : isdigit d = true) :
    ∃ sg ds w, Scanned s sg ds d w := by
  obtain ⟨sg, hsg, hsign⟩ := splitSign_eq s
  have hloose := looseDigit_of_isdigit hd
  have htake : looseDigits s = d :: rest.takeWhile looseDigit := by
    rw [looseDigits, hs]
    exact List.takeWhile_cons_of_pos hloose
  have hdrop : afterDigits s = rest.dropWhile looseDigit := by
    rw [afterDigits, hs]
    exact List.dropWhile_cons_of_pos hloose
  have hrest : rest = rest.takeWhile looseDigit ++ afterDigits s := by
    rw [hdrop]
    exact List.takeWhile_append_dropWhile.symm
  have hds : ∀ ch ∈ rest.takeWhile looseDigit, looseDigit ch = true := fun ch hch =>
    List.mem_takeWhile_imp hch
  obtain ⟨i, hi, hlt⟩ := digitBelow_of_isdigit hd
  have hdig : i = d - '0'.toNat := Option.some.inj (hi.symm.trans (if_pos hd))
  obtain ⟨w, hw, -⟩ := digits_scan (⟨fun _ => none, fun _ => (), ()⟩ : Flonums Unit) [] false 1 [] hds i
  refine ⟨sg, rest.takeWhile looseDigit, w, hsign, ?_, ?_, htake, ?_, hd, ?_, ?_⟩
  · rw [← hrest, ← hs]
    exact hsg
  · rw [← hrest, hs]
  · intro ch hch
    rcases List.mem_cons.mp hch with rfl | hch
    · exact hloose
    · exact hds ch hch
  · rw [readDigits_cons hi hlt, Nat.zero_mul, Nat.zero_add, hw]
  · intro G flo
    obtain ⟨w', hw', hscan⟩ := digits_scan flo s false (splitSign '-'.toNat '+'.toNat s).1 (afterDigits s) hds i
    have hsame : w' = w := Option.some.inj (hw'.symm.trans hw)
    rw [string2num_digit hs hd, ← hdig]
    rw [hsame, ← hrest] at hscan
    exact hscan

theorem ne_runeerror {b : Nat} (h : DigitBelow str2intDigit b ch) : ch ≠ Runeerror := by
  obtain ⟨d, hd, -⟩ := h
  rintro rfl
  cases hd

theorem numeral_letters {b b' : Nat} (hnot : ¬ AllBelow b ds) : numeral str2intDigit b b' ds = none := by
  rw [AllBelow] at hnot
  push Not at hnot
  exact numeral_none hnot

namespace Scanned

variable {sg : List Nat}

theorem no_radix (h : Scanned s sg ds d w) : ∀ ch ∈ d :: ds, ch ≠ 'r'.toNat := fun ch hch => (loose_facts (h.loose ch hch)).2.1

theorem plain (h : Scanned s sg ds d w) : ∀ ch ∈ ds, Plain ch := fun ch hch =>
  (loose_facts (h.loose ch (List.mem_cons_of_mem _ hch))).1

theorem letter (h : Scanned s sg ds d w) (hnot : ¬ AllBelow 10 (d :: ds)) : ∃ ch ∈ ds, isdigit ch = false := by
  obtain ⟨ch, hch, hno⟩ := not_allBelow_ten_iff.mp hnot
  rcases List.mem_cons.mp hch with rfl | hch
  · rw [h.first] at hno
    cases hno
  · exact ⟨ch, hch, hno⟩

theorem misread_iff (h : Scanned s sg ds d w) : Misread s ↔
    (afterDigits s = [] ∧ ¬ AllBelow 10 (d :: ds) ∨
      ∃ ch rest, afterDigits s = ch :: rest ∧
        (ch = Runeerror ∨ ch = 'r'.toNat ∧ MisreadRadix (d :: ds) rest ∨
          AllBelow 10 (d :: ds) ∧
            (imaginaryUnit ch = true ∨ signRune ch = true ∧ ImaginaryText rest))) := by
  rw [Misread, h.digits]
  exact and_iff_right ⟨d, ds, rfl, h.first⟩

theorem misread_cons_iff (h : Scanned s sg ds d w) (ha : afterDigits s = ch :: rest) : Misread s ↔
    (ch = Runeerror ∨ ch = 'r'.toNat ∧ MisreadRadix (d :: ds) rest ∨
      AllBelow 10 (d :: ds) ∧ (imaginaryUnit ch = true ∨ signRune ch = true ∧ ImaginaryText rest)) := by
  rw [h.misread_iff, ha]
  constructor
  · rintro (⟨hnil, -⟩ | ⟨ch', rest', heq, hcond⟩)
    · cases hnil
    · cases heq
      exact hcond
  · exact fun hcond => .inr ⟨ch, rest, rfl, hcond⟩

theorem numeral_eq (h : Scanned s sg ds d w) (hall : AllBelow 10 (d :: ds)) :
    numeral str2intDigit 10 10 (d :: ds) = some w := by
  rw [numeral]
  exact (readDigits_of_below hall (by omega)).symm.trans h.value

theorem integerToken_eq (h : Scanned s sg ds d w) : integerToken s =
    (unsignedInteger (d :: ds ++ afterDigits s)).map fun n : Nat =>
      (splitSign '-'.toNat '+'.toNat s).1 * (n : Int) := by
  rw [integerToken, h.body]
  rfl

theorem afterDigits_head (ha : afterDigits s = ch :: rest) : looseDigit ch = false := by
  have hdrop : (splitSign '-'.toNat '+'.toNat s).2.dropWhile looseDigit = ch :: rest := ha
  have hne : (splitSign '-'.toNat '+'.toNat s).2.dropWhile looseDigit ≠ [] := by
    rw [hdrop]
    exact List.cons_ne_nil _ _
  have hhead := List.head_dropWhile_not looseDigit hne
  simpa only [hdrop, List.head_cons] using hhead

/-- No integer is meant where something else than `r` follows the digits. -/
theorem integerToken_none (h : Scanned s sg ds d w) (ha : afterDigits s = ch :: rest)
    (hr : ch ≠ 'r'.toNat) : integerToken s = none := by
  have hten : ¬ DigitBelow str2intDigit 10 ch := by
    intro hten
    have hdigit := looseDigit_of_isdigit ((digitBelow_ten_iff ch).mp hten)
    rw [afterDigits_head ha] at hdigit
    cases hdigit
  rw [h.integerToken_eq, ha, unsignedInteger_none rest h.no_radix hr hten]
  rfl

theorem misread_nil_iff (h : Scanned s sg ds d w) (ha : afterDigits s = []) :
    Misread s ↔ ¬ AllBelow 10 (d :: ds) := by
  rw [h.misread_iff, ha]
  constructor
  · rintro (⟨-, hnot⟩ | ⟨ch, rest, heq, -⟩)
    · exact hnot
    · cases heq
  · exact fun hnot => .inl ⟨rfl, hnot⟩

theorem reads_end (h : Scanned s sg ds d w) (ha : afterDigits s = []) :
    string2num (flonums dec) s = .ok ((integerToken s).map mkInteger) ↔ ¬ Misread s := by
  rw [h.misread_nil_iff ha, not_not, h.scan, h.integerToken_eq, ha, List.append_nil,
    unsignedInteger_digits h.no_radix]
  have hread : string2numFrom (flonums dec) s false (.digits w) (splitSign '-'.toNat '+'.toNat s).1 [] =
      .ok (some (mkInteger (w * (splitSign '-'.toNat '+'.toNat s).1))) := rfl
  rw [hread]
  by_cases hall : AllBelow 10 (d :: ds)
  · rw [h.numeral_eq hall, Int.mul_comm]
    exact iff_of_true rfl hall
  · rw [numeral_letters hall]
    refine iff_of_false ?_ hall
    intro heq
    cases Except.ok.inj heq

theorem reads_error (h : Scanned s sg ds d w) (ha : afterDigits s = Runeerror :: rest) :
    string2num (flonums dec) s = .ok ((integerToken s).map mkInteger) ↔ ¬ Misread s := by
  have hmis : Misread s := (h.misread_cons_iff ha).mpr (.inl rfl)
  refine iff_of_false ?_ (not_not_intro hmis)
  rw [h.scan, ha, h.integerToken_none ha (by decide), string2numFrom, if_pos rfl]
  intro heq
  cases Except.ok.inj heq

theorem mantissa (h : Scanned s sg ds d w) (hall : AllBelow 10 (d :: ds)) {p : List Nat}
    (hp : ∀ x ∈ p, isdigit x = true ∨ signRune x = true) : Mantissa (sg ++ d :: (ds ++ p)) := by
  have hdigits := allBelow_ten_iff.mp hall
  refine ⟨?_, d, by simp, h.first⟩
  intro x hx
  rcases List.mem_append.mp hx with hx | hx
  · rcases h.sign with rfl | ⟨u, rfl, hu⟩
    · cases hx
    · exact .inr (List.mem_singleton.mp hx ▸ hu)
  · rcases List.mem_cons.mp hx with rfl | hx
    · exact .inl h.first
    · rcases List.mem_append.mp hx with hx | hx
      · exact .inl (hdigits x (List.mem_cons_of_mem _ hx))
      · exact hp x hx

variable (dec) in
/-- Flonums and complex numbers are left to `str2flonum`, which takes the complex ones. -/
theorem str2flonum_isSome_iff (h : Scanned s sg ds d w) (hs : IntegerShaped s)
    (ha : afterDigits s = ch :: rest)
    (hch : exponentMark ch = true ∨ imaginaryUnit ch = true ∨ signRune ch = true) :
    (str2flonum dec s).isSome = true ↔
      AllBelow 10 (d :: ds) ∧ (imaginaryUnit ch = true ∨ signRune ch = true ∧ ImaginaryText rest) := by
  have htext := h.text
  rw [ha] at htext
  by_cases hall : AllBelow 10 (d :: ds)
  · have hdigits : ∀ y ∈ ds, isdigit y = true := fun y hy =>
      allBelow_ten_iff.mp hall y (List.mem_cons_of_mem _ hy)
    cases hunit : imaginaryUnit ch with
    | true =>
      have hsome := str2flonum_unit dec (t := rest) h.sign h.first hdigits hunit
      rw [← htext] at hsome
      exact iff_of_true hsome ⟨hall, .inl rfl⟩
    | false =>
      cases hsign : signRune ch with
      | true =>
        have hrest : ∀ x ∈ rest, x ∈ s := by
          intro x hx
          rw [htext]
          simp [hx]
        have hpoint : '.'.toNat ∉ rest := fun hmem => hs.no_point (hrest _ hmem)
        have hexp : NoExponent rest := by
          rintro ds' ch' rest' rfl hds'
          have hmantissa := h.mantissa hall (p := ch :: ds') (by
            intro x hx
            rcases List.mem_cons.mp hx with rfl | hx
            · exact .inr hsign
            · exact .inl (hds' x hx))
          refine hs.no_exponent _ ch' rest' ?_ hmantissa
          rw [htext]
          simp
        have hiff := str2flonum_sign dec h.sign h.first hdigits hsign hpoint hexp
        rw [← htext] at hiff
        rw [hiff]
        simp [hall]
      | false =>
        exfalso
        rcases hch with hmark | hu | hu
        · have hmantissa := h.mantissa hall (p := []) fun x hx => absurd hx List.not_mem_nil
          rw [List.append_nil] at hmantissa
          have hno := hs.no_exponent _ ch rest (by rw [htext]; simp) hmantissa
          rw [hno] at hmark
          cases hmark
        · rw [hunit] at hu
          cases hu
        · rw [hsign] at hu
          cases hu
  · have hnone := str2flonum_letters dec (t := ch :: rest) h.sign h.first h.plain (h.letter hall)
    rw [← htext] at hnone
    rw [hnone]
    exact iff_of_false (fun heq => Bool.noConfusion heq) fun hboth => hall hboth.1

theorem reads_flonum (h : Scanned s sg ds d w) (hs : IntegerShaped s)
    (ha : afterDigits s = ch :: rest)
    (hch : exponentMark ch = true ∨ imaginaryUnit ch = true ∨ signRune ch = true) :
    string2num (flonums dec) s = .ok ((integerToken s).map mkInteger) ↔ ¬ Misread s := by
  have hchar : ch ∈ runes "eEiIjJ+-" := by
    simp only [exponentMark, imaginaryUnit, signRune, Bool.or_eq_true, decide_eq_true_eq] at hch
    simp [runes]
    tauto
  have hread : ch ≠ Runeerror ∧ ch ≠ 'r'.toNat ∧
      string2numFrom (flonums dec) s false (.digits w) (splitSign '-'.toNat '+'.toNat s).1 (ch :: rest) =
        .ok ((str2flonum dec s).map .flonum) := by
    simp [runes] at hchar
    rcases hchar with rfl | rfl | rfl | rfl | rfl | rfl | rfl | rfl <;>
      exact ⟨by decide, by decide, rfl⟩
  obtain ⟨herror, hr, hread⟩ := hread
  have hiff := h.str2flonum_isSome_iff dec hs ha hch
  rw [h.scan, h.misread_cons_iff ha, ha, hread, h.integerToken_none ha hr, ← hiff, Option.map_none,
    Except.ok.injEq, Option.map_eq_none_iff, ← Option.not_isSome_iff_eq_none]
  tauto

theorem reads_other (h : Scanned s sg ds d w) (hs : IntegerShaped s) (ha : afterDigits s = ch :: rest)
    (herror : ch ≠ Runeerror) (hr : ch ≠ 'r'.toNat)
    (hmark : exponentMark ch = false) (hunit : imaginaryUnit ch = false) (hsign : signRune ch = false) :
    string2num (flonums dec) s = .ok ((integerToken s).map mkInteger) ↔ ¬ Misread s := by
  have hmis : ¬ Misread s := by
    rw [h.misread_cons_iff ha, hunit, hsign]
    simp only [Bool.false_eq_true]
    tauto
  have hmem : ch ∈ s := by
    rw [h.text, ha]
    simp
  have hdot : ch ≠ '.'.toNat := fun heq => hs.no_point (heq ▸ hmem)
  have hslash : ch ≠ '/'.toNat := fun heq => hs.no_slash (heq ▸ hmem)
  have hmarks : ¬ (ch = '.'.toNat ∨ ch = 'e'.toNat ∨ ch = 'E'.toNat) := by
    simp only [exponentMark, Bool.or_eq_false_iff, decide_eq_false_iff_not] at hmark
    tauto
  have hunits : ¬ (ch = 'i'.toNat ∨ ch = 'I'.toNat ∨ ch = 'j'.toNat ∨ ch = 'J'.toNat ∨ ch = '+'.toNat ∨
      ch = '-'.toNat) := by
    simp only [imaginaryUnit, signRune, Bool.or_eq_false_iff, decide_eq_false_iff_not] at hunit hsign
    tauto
  have hdigit : ¬ DigitBelow str2intDigit 22 ch := by
    intro hbelow
    have hloose := looseDigit_iff.mpr ⟨hbelow, hmark, hunit⟩
    rw [afterDigits_head ha] at hloose
    cases hloose
  have hdig : rune2dig ch 10 = none := by
    have heq := rune2dig_eq ch 10
    cases hd : str2intDigit ch with
    | none =>
      rw [hd] at heq
      exact heq
    | some i =>
      have hge : ¬ i < 22 := fun hlt => hdigit ⟨i, hd, hlt⟩
      rw [hd, Option.filter_some_neg (by simpa using hge)] at heq
      exact heq
  refine iff_of_true ?_ hmis
  rw [h.scan, ha, h.integerToken_none ha hr, string2numFrom, if_neg herror, if_neg hmarks, if_neg hr,
    if_neg hslash, if_neg hunits, hdig]
  rfl

theorem reads_radix (h : Scanned s sg ds d w) (ha : afterDigits s = 'r'.toNat :: rest) :
    string2num (flonums dec) s = .ok ((integerToken s).map mkInteger) ↔ ¬ Misread s := by
  have hmis : Misread s ↔ MisreadRadix (d :: ds) rest := by
    rw [h.misread_cons_iff ha]
    simp [imaginaryUnit, signRune, Runeerror]
  have hread : string2num (flonums dec) s = if 2 ≤ w ∧ w ≤ 36 then
      string2numFrom (flonums dec) s false (.radix w (0 : Nat)) (splitSign '-'.toNat '+'.toNat s).1 rest
      else .ok none := by
    rw [h.scan, ha]
    by_cases hrange : 2 ≤ w ∧ w ≤ 36
    · have hint : 2 ≤ (w : Int) ∧ (w : Int) ≤ 36 := by omega
      rw [if_pos hrange, string2numFrom]
      exact if_pos hint
    · have hint : ¬ (2 ≤ (w : Int) ∧ (w : Int) ≤ 36) := by omega
      rw [if_neg hrange, string2numFrom]
      exact if_neg hint
  have htoken : integerToken s = ((numeral str2intDigit 10 10 (d :: ds)).bind fun b =>
      if 2 ≤ b ∧ b ≤ 36 then numeral str2intDigit b b rest else none).map fun n : Nat =>
        (splitSign '-'.toNat '+'.toNat s).1 * (n : Int) := by
    rw [h.integerToken_eq, ha, unsignedInteger_radix rest h.no_radix]
  have hmisread : MisreadRadix (d :: ds) rest ↔ (2 ≤ w ∧ w ≤ 36) ∧
      AllBelow (2 * w + 2) (rest.takeWhile (· ≠ Runeerror)) ∧
      ¬ (AllBelow 10 (d :: ds) ∧ rest ≠ [] ∧ AllBelow w rest) := by
    rw [MisreadRadix, h.value]
    constructor
    · rintro ⟨b, hb, hlow, hhigh, hcond⟩
      cases hb
      exact ⟨⟨hlow, hhigh⟩, hcond⟩
    · rintro ⟨⟨hlow, hhigh⟩, hcond⟩
      exact ⟨w, rfl, hlow, hhigh, hcond⟩
  rw [hmis, hmisread, hread, htoken]
  by_cases hrange : 2 ≤ w ∧ w ≤ 36
  · rw [if_pos hrange, radix_scan]
    have hwhole : AllBelow w rest → rest.takeWhile (· ≠ Runeerror) = rest := fun hbelow =>
      List.takeWhile_eq_self_iff.mpr fun x hx => decide_eq_true (ne_runeerror (hbelow x hx))
    by_cases hgood : AllBelow 10 (d :: ds) ∧ rest ≠ [] ∧ AllBelow w rest
    · obtain ⟨hall, hne, hbelow⟩ := hgood
      refine iff_of_true ?_ fun hcond => hcond.2.2 ⟨hall, hne, hbelow⟩
      have hvalue : numeral str2intDigit w w rest = readDigits str2intDigit (2 * w + 2) w 0 rest := by
        have hsame : readDigits str2intDigit (2 * w + 2) w 0 rest = readDigits str2intDigit w w 0 rest :=
          readDigits_of_below hbelow (by omega)
        rw [numeral, List.isEmpty_eq_false_iff.mpr hne, hsame]
        rfl
      rw [h.numeral_eq hall, Option.bind_some, if_pos hrange, hvalue, hwhole hbelow, Option.map_map,
        Except.ok.injEq]
      congr 1
      funext n
      exact congrArg mkInteger (Int.mul_comm _ _)
    · have hnone : ((numeral str2intDigit 10 10 (d :: ds)).bind fun b =>
          if 2 ≤ b ∧ b ≤ 36 then numeral str2intDigit b b rest else none) = none := by
        by_cases hall : AllBelow 10 (d :: ds)
        · rw [h.numeral_eq hall, Option.bind_some, if_pos hrange]
          by_cases hne : rest = []
          · rw [hne]
            rfl
          · exact numeral_letters fun hbelow => hgood ⟨hall, hne, hbelow⟩
        · rw [numeral_letters hall]
          rfl
      rw [hnone, Option.map_none, Option.map_none, Except.ok.injEq, Option.map_eq_none_iff,
        readDigits_eq_none_iff]
      have hsome : (∃ c ∈ rest.takeWhile (· ≠ Runeerror), ¬ DigitBelow str2intDigit (2 * w + 2) c) ↔
          ¬ AllBelow (2 * w + 2) (rest.takeWhile (· ≠ Runeerror)) := by
        rw [AllBelow]
        push Not
        rfl
      rw [hsome]
      exact not_congr ⟨fun hbelow => ⟨hrange, hbelow, hgood⟩, fun hcond => hcond.2.1⟩
  · rw [if_neg hrange]
    have hnone : ((numeral str2intDigit 10 10 (d :: ds)).bind fun b =>
        if 2 ≤ b ∧ b ≤ 36 then numeral str2intDigit b b rest else none) = none := by
      by_cases hall : AllBelow 10 (d :: ds)
      · rw [h.numeral_eq hall, Option.bind_some, if_neg hrange]
      · rw [numeral_letters hall]
        rfl
    rw [hnone]
    exact iff_of_true rfl fun hcond => hrange hcond.1

end Scanned

/-- A token without a digit in front is no number, and means none. -/
theorem reads_no_digit (hs : IntegerShaped s)
    (hnot : ∀ d t, (splitSign '-'.toNat '+'.toNat s).2 = d :: t → isdigit d = false) :
    string2num (flonums dec) s = .ok ((integerToken s).map mkInteger) ↔ ¬ Misread s := by
  have hnil : ∀ ch ∈ ([] : List Nat), ch ≠ 'r'.toNat := fun ch hch => absurd hch List.not_mem_nil
  have hnone : integerToken s = none := by
    rw [integerToken]
    cases hbody : (splitSign '-'.toNat '+'.toNat s).2 with
    | nil => rfl
    | cons d t =>
      have hten : ¬ DigitBelow str2intDigit 10 d := by
        rw [digitBelow_ten_iff, hnot d t hbody]
        exact Bool.false_ne_true
      by_cases hr : d = 'r'.toNat
      · have hradix := unsignedInteger_radix t hnil
        rw [hr, ← List.nil_append ('r'.toNat :: t), hradix]
        rfl
      · have hbad := unsignedInteger_none t hnil hr hten
        rw [← List.nil_append (d :: t), hbad]
        rfl
  have hmis : ¬ Misread s := by
    rintro ⟨⟨d, ds, htake, hd⟩, -⟩
    rw [looseDigits] at htake
    cases hbody : (splitSign '-'.toNat '+'.toNat s).2 with
    | nil =>
      rw [hbody] at htake
      cases htake
    | cons d' t =>
      have hhead : d' = d := by
        rw [hbody, List.takeWhile_cons] at htake
        split at htake
        · exact (List.cons.inj htake).1
        · cases htake
      have hno := hnot d' t hbody
      rw [hhead, hd] at hno
      cases hno
  rw [string2num_other hs.no_point hnot, hnone]
  exact iff_of_true rfl hmis

/-- The tokens that `arc_string2num` reads as they are meant. -/
theorem string2num_eq_iff (hs : IntegerShaped s) :
    string2num (flonums dec) s = .ok ((integerToken s).map mkInteger) ↔ ¬ Misread s := by
  by_cases hdigit : ∃ d t, (splitSign '-'.toNat '+'.toNat s).2 = d :: t ∧ isdigit d = true
  · obtain ⟨d, t, hbody, hd⟩ := hdigit
    obtain ⟨sg, ds, w, h⟩ := scanned hbody hd
    cases ha : afterDigits s with
    | nil => exact h.reads_end ha
    | cons ch rest =>
      by_cases herror : ch = Runeerror
      · exact h.reads_error (herror ▸ ha)
      · by_cases hr : ch = 'r'.toNat
        · exact h.reads_radix (hr ▸ ha)
        · by_cases hch : exponentMark ch = true ∨ imaginaryUnit ch = true ∨ signRune ch = true
          · exact h.reads_flonum hs ha hch
          · simp only [not_or, Bool.not_eq_true] at hch
            obtain ⟨hmark, hunit, hsign⟩ := hch
            exact h.reads_other hs ha herror hr hmark hunit hsign
  · refine reads_no_digit hs fun d t hbody => ?_
    rw [← Bool.not_eq_true]
    exact fun hd => hdigit ⟨d, t, hbody, hd⟩

/-- The reader makes a symbol of every token that is no number. -/
theorem readsInteger_iff {flo : Flonums F} (hpoint : '.'.toNat ∉ s) :
    ReadsInteger flo s ↔ string2num flo s = .ok ((integerToken s).map mkInteger) := by
  refine and_iff_left_of_imp fun hread n p p' hget => ?_
  have hdot : s ≠ runes "." := by
    rintro rfl
    exact hpoint List.mem_cons_self
  rw [readSymbol, Outcome.bind_of_ok hget]
  simp only [if_neg hdot, hread]
  cases integerToken s with
  | none => rfl
  | some n => rfl

/-- Integers are read from the tokens that stand for them, and from no others, but for
the tokens that are misread. -/
theorem readsInteger_iff_not_misread (dec : Decimals F) (s : List Nat) (hs : IntegerShaped s) :
    ReadsInteger (flonums dec) s ↔ ¬ Misread s := by
  rw [readsInteger_iff hs.no_point, string2num_eq_iff hs]

def Decimals.unit : Decimals Unit :=
  ⟨fun _ => (), (), fun _ _ => (), fun _ _ => (), fun _ => (), fun _ => (), ()⟩

theorem integerShaped_of_plain (hpoint : '.'.toNat ∉ s) (hslash : '/'.toNat ∉ s)
    (hs : ∀ ch ∈ s, exponentMark ch = false ∧ imaginaryUnit ch = false) : IntegerShaped s where
  no_point := hpoint
  no_slash := hslash
  no_exponent := by
    rintro p ch rest rfl -
    exact (hs ch (by simp)).1
  no_suffix := by
    rintro p ch rfl -
    exact (hs ch (by simp)).2

theorem readsInteger_hexadecimal :
    string2num (flonums Decimals.unit) (runes "-16rff") = .ok (some (.fixnum (-255))) ∧
      (ReadsInteger (flonums Decimals.unit) (runes "-16rff") ↔ ¬ Misread (runes "-16rff")) :=
  ⟨rfl, readsInteger_iff_not_misread Decimals.unit (runes "-16rff")
    (integerShaped_of_plain (by decide) (by decide) (by decide))⟩

/-- The identifier `1a` is read as 20. -/
theorem not_readsInteger_letter :
    IntegerShaped (runes "1a") ∧ ¬ ReadsInteger (flonums Decimals.unit) (runes "1a") := by
  refine ⟨integerShaped_of_plain (by decide) (by decide) (by decide), ?_⟩
  rintro ⟨hread, -⟩
  have hvalue : string2num (flonums Decimals.unit) (runes "1a") = .ok (some (.fixnum 20)) := rfl
  have htoken : integerToken (runes "1a") = none := by decide
  rw [hvalue, htoken] at hread
  cases Except.ok.inj hread

end Main

end Arcueid.Numeral
