import Mathlib.Tactic.IntervalCases
import Arcueid.Numeral

/-! `str2flonum`: the floating point and the complex numbers among the tokens. -/

namespace Arcueid.Numeral

open Utf

variable {F : Type}

/-- Doubles, as far as tokens make them. -/
structure Decimals (F : Type) where
  ofInt : Int → F
  tenth : F
  add : F → F → F
  mul : F → F → F
  pow10 : Int → F
  infinity : Int → F
  nan : F

inductive Inexact (F : Type) where
  | flonum (x : F)
  | complex (re im : F)

/-- What has been read of a number. -/
structure Reading (F : Type) where
  sign : F
  mantissa : F
  mult : F
  expnsign : Int
  expn : Int

/-- The states of `str2flonum`, numbered 1 to 5 in the source. -/
inductive FloState where
  | sign
  | whole
  | fraction
  | expnSign
  | exponent

/-- Ends an imaginary part. -/
def imaginaryUnit (ch : Nat) : Bool :=
  ch = 'i'.toNat || ch = 'I'.toNat || ch = 'j'.toNat || ch = 'J'.toNat

def signRune (ch : Nat) : Bool := ch = '+'.toNat || ch = '-'.toNat

def exponentMark (ch : Nat) : Bool := ch = 'e'.toNat || ch = 'E'.toNat

variable (dec : Decimals F)

namespace Reading

def start : Reading F := ⟨dec.ofInt 1, dec.ofInt 0, dec.tenth, 1, 0⟩

def withSign (ch : Nat) (x : Reading F) : Reading F :=
  { x with sign := if ch = '-'.toNat then dec.ofInt (-1) else dec.ofInt 1 }

def withDigit (ch : Nat) (x : Reading F) : Reading F :=
  { x with mantissa := dec.add (dec.mul x.mantissa (dec.ofInt 10)) (dec.ofInt (ch - '0'.toNat)) }

def withDecimal (ch : Nat) (x : Reading F) : Reading F :=
  { x with
    mantissa := dec.add x.mantissa (dec.mul (dec.ofInt (ch - '0'.toNat)) x.mult)
    mult := dec.mul x.mult dec.tenth }

def scaled (x : Reading F) : F := dec.mul x.mantissa (dec.pow10 (x.expnsign * x.expn))

def real (x : Reading F) : F := dec.mul x.sign (x.scaled dec)

/-- `I * sign * ..`: the product is taken in both components. -/
def imaginary (x : Reading F) : Inexact F :=
  .complex (dec.mul (dec.mul (dec.ofInt 0) x.sign) (x.scaled dec)) (x.real dec)

end Reading

/-- A real part is added to an imaginary part, if there is one. -/
def withReal (x : F) : Option (Inexact F) → Option (Inexact F)
  | some (.complex re im) => some (.complex (dec.add re x) im)
  | _ => none

/-- `rune2dig` with the radix 10 as it is, not as a fixnum. -/
def exponentDigit (ch : Nat) : Option Int := (rune2dig ch 10).filter (· ≤ 10)

/-- `str2flonum` from one of its states. -/
def str2flonumFrom : Bool → FloState → Reading F → List Nat → Option (Inexact F)
  | _, _, x, [] => some (.flonum (x.real dec))
  | imagflag, state, x, ch :: rest =>
    if ch = Runeerror then some (.flonum (x.real dec))
    else match state with
    | .sign =>
      if signRune ch then str2flonumFrom imagflag .whole (x.withSign dec ch) rest
      -- a digit or a point is pushed back
      else if isdigit ch then str2flonumFrom imagflag .whole (x.withDigit dec ch) rest
      else if ch = '.'.toNat then str2flonumFrom imagflag .fraction x rest
      else none
    | .whole =>
      if ch = '.'.toNat then str2flonumFrom imagflag .fraction x rest
      else if exponentMark ch then str2flonumFrom imagflag .expnSign x rest
      else if signRune ch then
        -- the imaginary part starts at its sign
        if imagflag then none else withReal dec (x.real dec)
          (str2flonumFrom true .whole ((Reading.start dec).withSign dec ch) rest)
      else if imaginaryUnit ch then some (x.imaginary dec)
      else if isdigit ch then str2flonumFrom imagflag .whole (x.withDigit dec ch) rest
      else none
    | .fraction =>
      if exponentMark ch then str2flonumFrom imagflag .expnSign x rest
      else if signRune ch then
        if imagflag then none else withReal dec (x.real dec)
          (str2flonumFrom true .whole ((Reading.start dec).withSign dec ch) rest)
      else if imaginaryUnit ch then withReal dec (dec.ofInt 0) (some (x.imaginary dec))
      else if isdigit ch then str2flonumFrom imagflag .fraction (x.withDecimal dec ch) rest
      else none
    | .expnSign =>
      if signRune ch then
        str2flonumFrom imagflag .exponent { x with expnsign := if ch = '-'.toNat then -1 else 1 } rest
      else if isdigit ch then
        str2flonumFrom imagflag .exponent { x with expn := ch - '0'.toNat } rest
      else none
    | .exponent =>
      if signRune ch then
        if imagflag then none else withReal dec (x.real dec)
          (str2flonumFrom true .whole ((Reading.start dec).withSign dec ch) rest)
      else if imaginaryUnit ch then withReal dec (dec.ofInt 0) (some (x.imaginary dec))
      else match exponentDigit ch with
        | none => none
        | some digitval => str2flonumFrom imagflag .exponent { x with expn := x.expn * 10 + digitval } rest

def str2flonum (str : List Nat) : Option (Inexact F) :=
  str2flonumFrom dec false .sign (Reading.start dec) str

def flonums : Flonums (Inexact F) where
  str2flonum := str2flonum dec
  infinity sign := .flonum (dec.infinity sign)
  nan := .flonum dec.nan

section Acceptance

/-- A rune that is no mark to `str2flonum`. -/
structure Plain (ch : Nat) : Prop where
  no_error : ch ≠ Runeerror
  no_point : ch ≠ '.'.toNat
  no_mark : exponentMark ch = false
  no_sign : signRune ch = false
  no_unit : imaginaryUnit ch = false

theorem plain_of_isdigit {ch : Nat} (h : isdigit ch = true) : Plain ch := by
  have hbounds : 48 ≤ ch ∧ ch ≤ 57 := by simpa [isdigit] using h
  obtain ⟨hlow, hhigh⟩ := hbounds
  interval_cases ch <;> exact ⟨by decide, by decide, rfl, rfl, rfl⟩

/-- Digits up to an imaginary unit. -/
def ImaginaryText (t : List Nat) : Prop :=
  ∃ ds ch rest, t = ds ++ ch :: rest ∧ (∀ x ∈ ds, isdigit x = true) ∧ imaginaryUnit ch = true

theorem imaginaryText_cons_iff {ch : Nat} {t : List Nat} (h : isdigit ch = true) :
    ImaginaryText (ch :: t) ↔ ImaginaryText t := by
  constructor
  · rintro ⟨ds, u, rest, heq, hds, hu⟩
    cases ds with
    | nil =>
      cases heq
      have hno := (plain_of_isdigit h).no_unit
      rw [hno] at hu
      cases hu
    | cons y ds =>
      obtain ⟨rfl, htail⟩ := List.cons.inj heq
      exact ⟨ds, u, rest, htail, fun x hx => hds x (List.mem_cons_of_mem _ hx), hu⟩
  · rintro ⟨ds, u, rest, rfl, hds, hu⟩
    refine ⟨ch :: ds, u, rest, rfl, ?_, hu⟩
    intro x hx
    rcases List.mem_cons.mp hx with rfl | hx
    · exact h
    · exact hds x hx

theorem not_imaginaryText_cons {ch : Nat} {t : List Nat} (hdigit : isdigit ch = false)
    (hunit : imaginaryUnit ch = false) : ¬ ImaginaryText (ch :: t) := by
  rintro ⟨ds, u, rest, heq, hds, hu⟩
  cases ds with
  | nil =>
    cases heq
    rw [hunit] at hu
    cases hu
  | cons y ds =>
    obtain ⟨rfl, -⟩ := List.cons.inj heq
    have hy := hds ch List.mem_cons_self
    rw [hdigit] at hy
    cases hy

/-- No exponent follows digits. -/
def NoExponent (t : List Nat) : Prop :=
  ∀ ds ch rest, t = ds ++ ch :: rest → (∀ x ∈ ds, isdigit x = true) → exponentMark ch = false

theorem NoExponent.tail {ch : Nat} {t : List Nat} (h : NoExponent (ch :: t)) (hdigit : isdigit ch = true) :
    NoExponent t := by
  rintro ds u rest rfl hds
  refine h (ch :: ds) u rest rfl ?_
  intro x hx
  rcases List.mem_cons.mp hx with rfl | hx
  · exact hdigit
  · exact hds x hx

variable {dec : Decimals F} {imagflag : Bool} {x : Reading F} {ch : Nat} {t : List Nat}

theorem whole_digit (h : isdigit ch = true) :
    str2flonumFrom dec imagflag .whole x (ch :: t) =
      str2flonumFrom dec imagflag .whole (x.withDigit dec ch) t := by
  have hp := plain_of_isdigit h
  simp only [str2flonumFrom, if_neg hp.no_error, if_neg hp.no_point, hp.no_mark, hp.no_sign, hp.no_unit, h,
    Bool.false_eq_true, if_false, if_true]

theorem whole_plain (hp : Plain ch) (h : isdigit ch = false) :
    str2flonumFrom dec imagflag .whole x (ch :: t) = none := by
  simp only [str2flonumFrom, if_neg hp.no_error, if_neg hp.no_point, hp.no_mark, hp.no_sign, hp.no_unit, h,
    Bool.false_eq_true, if_false]

variable (dec imagflag) in
theorem whole_digits {ds : List Nat} (hds : ∀ x ∈ ds, isdigit x = true) (x : Reading F) :
    ∃ x', str2flonumFrom dec imagflag .whole x (ds ++ t) = str2flonumFrom dec imagflag .whole x' t := by
  induction ds generalizing x with
  | nil => exact ⟨x, rfl⟩
  | cons d ds ih =>
    obtain ⟨x', hx'⟩ := ih (fun y hy => hds y (List.mem_cons_of_mem _ hy)) (x.withDigit dec d)
    have hd := hds d List.mem_cons_self
    exact ⟨x', by rw [List.cons_append, whole_digit hd, hx']⟩

theorem whole_letters {ds : List Nat} (hds : ∀ y ∈ ds, Plain y) (hletter : ∃ y ∈ ds, isdigit y = false)
    (x : Reading F) : str2flonumFrom dec imagflag .whole x (ds ++ t) = none := by
  induction ds generalizing x with
  | nil =>
    obtain ⟨y, hy, -⟩ := hletter
    cases hy
  | cons d ds ih =>
    rw [List.cons_append]
    cases hd : isdigit d with
    | false => exact whole_plain (hds d List.mem_cons_self) hd
    | true =>
      rw [whole_digit hd]
      obtain ⟨y, hy, hny⟩ := hletter
      rcases List.mem_cons.mp hy with rfl | hy
      · rw [hd] at hny
        cases hny
      · exact ih (fun z hz => hds z (List.mem_cons_of_mem _ hz)) ⟨y, hy, hny⟩ _

theorem imaginary_part_isSome (hpoint : '.'.toNat ∉ t) (hexp : NoExponent t) (x : Reading F) (r : F) :
    (withReal dec r (str2flonumFrom dec true .whole x t)).isSome = true ↔ ImaginaryText t := by
  induction t generalizing x with
  | nil =>
    refine iff_of_false (fun h => Bool.noConfusion h) ?_
    rintro ⟨ds, u, rest, heq, -⟩
    cases ds <;> cases heq
  | cons ch t ih =>
    have hmark : exponentMark ch = false := hexp [] ch t rfl fun x hx => absurd hx List.not_mem_nil
    have hdot : ch ≠ '.'.toNat := fun h => hpoint (h ▸ List.mem_cons_self)
    cases hdigit : isdigit ch with
    | true =>
      rw [whole_digit hdigit, imaginaryText_cons_iff hdigit]
      exact ih (fun h => hpoint (List.mem_cons_of_mem _ h)) (hexp.tail hdigit) _
    | false =>
      cases hunit : imaginaryUnit ch with
      | true =>
        have herror : ch ≠ Runeerror := by
          rintro rfl
          cases hunit
        have hsign : signRune ch = false := by
          cases hs : signRune ch with
          | false => rfl
          | true =>
            have hchar : ch = '+'.toNat ∨ ch = '-'.toNat := by simpa [signRune] using hs
            rcases hchar with rfl | rfl <;> cases hunit
        refine iff_of_true ?_ ⟨[], ch, t, rfl, fun x hx => absurd hx List.not_mem_nil, hunit⟩
        simp only [str2flonumFrom, if_neg herror, if_neg hdot, hmark, hsign, hunit, Bool.false_eq_true, if_false,
          if_true]
        rfl
      | false =>
        refine iff_of_false ?_ (not_imaginaryText_cons hdigit hunit)
        by_cases herror : ch = Runeerror
        · simp only [str2flonumFrom, if_pos herror]
          exact fun h => Bool.noConfusion h
        · cases hsign : signRune ch with
          | true =>
            simp only [str2flonumFrom, if_neg herror, if_neg hdot, hmark, hsign, Bool.false_eq_true, if_false,
              if_true]
            exact fun h => Bool.noConfusion h
          | false =>
            rw [whole_plain ⟨herror, hdot, hmark, hsign, hunit⟩ hdigit]
            exact fun h => Bool.noConfusion h

variable (dec) in
theorem str2flonum_start {sg : List Nat} (hsg : sg = [] ∨ ∃ u, sg = [u] ∧ signRune u = true)
    (hdigit : isdigit ch = true) :
    ∃ x, str2flonum dec (sg ++ ch :: t) = str2flonumFrom dec false .whole x t := by
  have hp := plain_of_isdigit hdigit
  rcases hsg with rfl | ⟨u, rfl, hu⟩
  · refine ⟨(Reading.start dec).withDigit dec ch, ?_⟩
    simp only [str2flonum, List.nil_append, str2flonumFrom, if_neg hp.no_error, hp.no_sign, hdigit,
      Bool.false_eq_true, if_false, if_true]
  · refine ⟨((Reading.start dec).withSign dec u).withDigit dec ch, ?_⟩
    have herror : u ≠ Runeerror := by
      rintro rfl
      cases hu
    rw [← whole_digit hdigit]
    simp only [str2flonum, List.cons_append, List.nil_append, str2flonumFrom, if_neg herror, hu, if_true]

variable {ds sg : List Nat}

variable (dec) in
/-- A token with letters among its digits is no flonum. -/
theorem str2flonum_letters (hsg : sg = [] ∨ ∃ u, sg = [u] ∧ signRune u = true) (hdigit : isdigit ch = true)
    (hds : ∀ y ∈ ds, Plain y) (hletter : ∃ y ∈ ds, isdigit y = false) :
    str2flonum dec (sg ++ ch :: (ds ++ t)) = none := by
  obtain ⟨x, hx⟩ := str2flonum_start dec (t := ds ++ t) hsg hdigit
  rw [hx, whole_letters hds hletter]

variable (dec) in
theorem str2flonum_unit (hsg : sg = [] ∨ ∃ u, sg = [u] ∧ signRune u = true) (hdigit : isdigit ch = true)
    (hds : ∀ y ∈ ds, isdigit y = true) {u : Nat} (hu : imaginaryUnit u = true) :
    (str2flonum dec (sg ++ ch :: (ds ++ u :: t))).isSome = true := by
  obtain ⟨x, hx⟩ := str2flonum_start dec (t := ds ++ u :: t) hsg hdigit
  obtain ⟨x', hx'⟩ := whole_digits dec false (t := u :: t) hds x
  have hchar : u = 'i'.toNat ∨ u = 'I'.toNat ∨ u = 'j'.toNat ∨ u = 'J'.toNat := by
    simpa [imaginaryUnit, or_assoc] using hu
  rw [hx, hx']
  rcases hchar with rfl | rfl | rfl | rfl <;> rfl

variable (dec) in
theorem str2flonum_sign (hsg : sg = [] ∨ ∃ u, sg = [u] ∧ signRune u = true) (hdigit : isdigit ch = true)
    (hds : ∀ y ∈ ds, isdigit y = true) {u : Nat} (hu : signRune u = true) (hpoint : '.'.toNat ∉ t)
    (hexp : NoExponent t) :
    (str2flonum dec (sg ++ ch :: (ds ++ u :: t))).isSome = true ↔ ImaginaryText t := by
  obtain ⟨x, hx⟩ := str2flonum_start dec (t := ds ++ u :: t) hsg hdigit
  obtain ⟨x', hx'⟩ := whole_digits dec false (t := u :: t) hds x
  have hchar : u = '+'.toNat ∨ u = '-'.toNat := by simpa [signRune] using hu
  rw [hx, hx']
  rw [← imaginary_part_isSome hpoint hexp ((Reading.start dec).withSign dec u) (x'.real dec)]
  rcases hchar with rfl | rfl <;> rfl

end Acceptance

end Arcueid.Numeral
