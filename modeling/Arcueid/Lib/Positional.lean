import Mathlib.Data.Nat.Digits.Lemmas
import Mathlib.Tactic.Ring

/-! Numerals of a base, the most significant digit first, over any characters.
Which digits are admitted is kept apart from the base. -/

namespace Positional

variable {α : Type*} {digit : α → Option ℕ} {bound bound' base v n : ℕ} {s t : List α}

/-- The digits of `s` after the number `v`. -/
def readDigits (digit : α → Option ℕ) (bound base : ℕ) : ℕ → List α → Option ℕ
  | v, [] => some v
  | v, c :: s =>
    match digit c with
    | some d => if d < bound then readDigits digit bound base (v * base + d) s else none
    | none => none

def DigitBelow (digit : α → Option ℕ) (bound : ℕ) (c : α) : Prop := ∃ d, digit c = some d ∧ d < bound

theorem readDigits_cons {c : α} {d : ℕ} (hc : digit c = some d) (hd : d < bound) :
    readDigits digit bound base v (c :: s) = readDigits digit bound base (v * base + d) s := by
  rw [readDigits, hc]
  exact if_pos hd

theorem readDigits_cons_none {c : α} (hc : ¬ DigitBelow digit bound c) :
    readDigits digit bound base v (c :: s) = none := by
  rw [readDigits]
  cases hd : digit c with
  | none => rfl
  | some d => exact if_neg fun h => hc ⟨d, hd, h⟩

theorem readDigits_eq_none_iff :
    readDigits digit bound base v s = none ↔ ∃ c ∈ s, ¬ DigitBelow digit bound c := by
  induction s generalizing v with
  | nil => simp [readDigits]
  | cons c s ih =>
    by_cases hc : DigitBelow digit bound c
    · obtain ⟨d, hd, hlt⟩ := hc
      have hbelow : DigitBelow digit bound c := ⟨d, hd, hlt⟩
      rw [readDigits_cons hd hlt, ih]
      simp [hbelow]
    · rw [readDigits_cons_none hc]
      simp [hc]

theorem readDigits_append :
    readDigits digit bound base v (s ++ t) =
      (readDigits digit bound base v s).bind fun v' => readDigits digit bound base v' t := by
  induction s generalizing v with
  | nil => rfl
  | cons c s ih =>
    by_cases hc : DigitBelow digit bound c
    · obtain ⟨d, hd, hlt⟩ := hc
      rw [List.cons_append, readDigits_cons hd hlt, readDigits_cons hd hlt, ih]
    · rw [List.cons_append, readDigits_cons_none hc, readDigits_cons_none hc]
      rfl

/-- What is read does not depend on the digits that are admitted besides. -/
theorem readDigits_of_below (h : ∀ c ∈ s, DigitBelow digit bound c) (hle : bound ≤ bound') :
    readDigits digit bound' base v s = readDigits digit bound base v s := by
  induction s generalizing v with
  | nil => rfl
  | cons c s ih =>
    obtain ⟨d, hd, hlt⟩ := h c List.mem_cons_self
    have hrest : ∀ c ∈ s, DigitBelow digit bound c := fun c hc => h c (List.mem_cons_of_mem _ hc)
    rw [readDigits_cons hd hlt, readDigits_cons hd (by omega), ih hrest]

theorem readDigits_map {char : ℕ → α} {ds : List ℕ} (hchar : ∀ d ∈ ds, digit (char d) = some d)
    (hds : ∀ d ∈ ds, d < bound) :
    readDigits digit bound base v (ds.map char) = some (v * base ^ ds.length + Nat.ofDigits base ds.reverse) := by
  induction ds generalizing v with
  | nil => simp [readDigits]
  | cons d ds ih =>
    have hrest : ∀ d ∈ ds, digit (char d) = some d := fun d hd => hchar d (List.mem_cons_of_mem _ hd)
    have hlt : ∀ d ∈ ds, d < bound := fun d hd => hds d (List.mem_cons_of_mem _ hd)
    rw [List.map_cons, readDigits_cons (hchar d List.mem_cons_self) (hds d List.mem_cons_self),
      ih hrest hlt, List.reverse_cons, Nat.ofDigits_append, List.length_reverse, Nat.ofDigits_singleton,
      List.length_cons]
    ring_nf

/-- The digits of a number are read back. -/
theorem readDigits_digits {char : ℕ → α} (hbase : 2 ≤ base)
    (hchar : ∀ d, d < base → digit (char d) = some d) (n : ℕ) :
    readDigits digit base base 0 ((Nat.digits base n).reverse.map char) = some n := by
  have hlt : ∀ d ∈ (Nat.digits base n).reverse, d < base := by
    intro d hd
    exact Nat.digits_lt_base (by omega) (List.mem_reverse.mp hd)
  rw [readDigits_map (fun d hd => hchar d (hlt d hd)) hlt, List.reverse_reverse, Nat.ofDigits_digits]
  simp

/-- A numeral has one digit at least. -/
def numeral (digit : α → Option ℕ) (bound base : ℕ) (s : List α) : Option ℕ :=
  if s.isEmpty then none else readDigits digit bound base 0 s

/-- A sign, if there is one, and what follows it. -/
def splitSign [DecidableEq α] (minus plus : α) : List α → Int × List α
  | [] => (1, [])
  | c :: s => if c = minus then (-1, s) else if c = plus then (1, s) else (1, c :: s)

/-- The integer of an optional sign and a numeral. -/
def integer [DecidableEq α] (minus plus : α) (digit : α → Option ℕ) (bound base : ℕ) (s : List α) :
    Option Int :=
  (numeral digit bound base (splitSign minus plus s).2).map fun n : ℕ =>
    (splitSign minus plus s).1 * (n : Int)

/-- Admitting more digits changes what is read of the numerals with such a digit. -/
theorem numeral_eq_iff (hle : bound ≤ bound') :
    numeral digit bound' base s = numeral digit bound base s ↔
      ¬ (s ≠ [] ∧ (∀ c ∈ s, DigitBelow digit bound' c) ∧ ∃ c ∈ s, ¬ DigitBelow digit bound c) := by
  cases s with
  | nil => simp [numeral]
  | cons c s =>
    have hne : (c :: s).isEmpty = false := rfl
    rw [numeral, numeral, hne]
    by_cases hbelow : ∃ c' ∈ c :: s, ¬ DigitBelow digit bound c'
    · rw [readDigits_eq_none_iff.mpr hbelow]
      simp only [Bool.false_eq_true, if_false, readDigits_eq_none_iff]
      constructor
      · rintro ⟨c', hc', hnot⟩ ⟨-, hall, -⟩
        exact hnot (hall c' hc')
      · intro hnot
        by_contra hnone
        push Not at hnone
        exact hnot ⟨by simp, hnone, hbelow⟩
    · have hall : ∀ c' ∈ c :: s, DigitBelow digit bound c' := by
        intro c' hc'
        by_contra hnot
        exact hbelow ⟨c', hc', hnot⟩
      rw [readDigits_of_below hall hle]
      exact iff_of_true rfl fun h => hbelow h.2.2

end Positional
