import Mathlib.Algebra.Order.Field.Basic
import Mathlib.Algebra.Order.Round
import Mathlib.Algebra.Ring.Int.Parity
import Mathlib.Tactic.Linarith
import Mathlib.Tactic.Ring

/-! The integers nearest to the elements of an ordered field, the even one on a
tie. -/

namespace NearestEven

variable {K : Type*} [Field K] [LinearOrder K] [IsStrictOrderedRing K]

/-- `n` is nearest to `q`, and even if another integer is as near. -/
structure Rounds (q : K) (n : ℤ) : Prop where
  nearest : ∀ m : ℤ, |q - n| ≤ |q - m|
  even : ∀ m : ℤ, m ≠ n → |q - n| = |q - m| → Even n

variable {q : K} {n : ℤ}

theorem one_le_abs_sub {m n : ℤ} (h : m ≠ n) : (1 : K) ≤ |(m : K) - n| := by
  have hint : (1 : ℤ) ≤ |m - n| := Int.one_le_abs (sub_ne_zero.mpr h)
  have hcast : ((1 : ℤ) : K) ≤ ((|m - n| : ℤ) : K) := Int.cast_le.mpr hint
  rwa [Int.cast_one, Int.cast_abs, Int.cast_sub] at hcast

/-- The next integer on the side of `q`. -/
theorem exists_other (q : K) (n : ℤ) : ∃ m : ℤ, m ≠ n ∧ |q - m| = abs (1 - |q - n|) := by
  rcases le_total (n : K) q with h | h
  · refine ⟨n + 1, by omega, ?_⟩
    rw [abs_of_nonneg (sub_nonneg.mpr h), Int.cast_add, Int.cast_one, abs_sub_comm]
    congr 1
    ring
  · refine ⟨n - 1, by omega, ?_⟩
    rw [abs_of_nonpos (sub_nonpos.mpr h), Int.cast_sub, Int.cast_one]
    congr 1
    ring

theorem rounds_iff : Rounds q n ↔ |q - n| ≤ 1 / 2 ∧ (|q - n| = 1 / 2 → Even n) := by
  obtain ⟨m, hm, hother⟩ := exists_other q n
  constructor
  · intro h
    have hhalf : |q - n| ≤ 1 / 2 := by
      have hle := h.nearest m
      rw [hother] at hle
      rcases le_total |q - n| 1 with hone | hone
      · rw [abs_of_nonneg (sub_nonneg.mpr hone)] at hle
        linarith
      · rw [abs_of_nonpos (sub_nonpos.mpr hone)] at hle
        linarith
    refine ⟨hhalf, fun htie => h.even m hm ?_⟩
    rw [hother, htie]
    norm_num
  · rintro ⟨hhalf, htie⟩
    have hfar : ∀ m : ℤ, m ≠ n → 1 - |q - n| ≤ |q - m| := by
      intro m hm
      have htriangle : |(m : K) - n| ≤ |q - n| + |q - m| := by
        have hsum := abs_sub_le (m : K) q n
        rw [abs_sub_comm (m : K) q] at hsum
        linarith
      linarith [one_le_abs_sub (K := K) hm]
    constructor
    · intro m
      by_cases hm : m = n
      · rw [hm]
      · linarith [hfar m hm]
    · intro m hm heq
      exact htie (by linarith [hfar m hm])

theorem Rounds.unique {m : ℤ} (hm : Rounds q m) (hn : Rounds q n) : m = n := by
  by_contra hne
  have heq : |q - m| = |q - n| := le_antisymm (hm.nearest n) (hn.nearest m)
  have hdist := one_le_abs_sub (K := K) hne
  have hmhalf := (rounds_iff.mp hm).1
  have hnhalf := (rounds_iff.mp hn).1
  have htriangle := abs_sub_le (m : K) q n
  rw [abs_sub_comm (m : K) q] at htriangle
  -- both are at the distance 1/2, so they are neighbours and both even
  have hmeven := (rounds_iff.mp hm).2 (by linarith)
  have hneven := (rounds_iff.mp hn).2 (by linarith)
  have hnear : ((|m - n| : ℤ) : K) ≤ ((1 : ℤ) : K) := by
    rw [Int.cast_abs, Int.cast_sub, Int.cast_one]
    linarith
  have hint := Int.cast_le.mp hnear
  obtain ⟨i, hi⟩ := hmeven
  obtain ⟨j, hj⟩ := hneven
  have hbound := abs_le.mp hint
  omega

omit [IsStrictOrderedRing K] in
theorem Rounds.neg (h : Rounds q n) : Rounds (-q) (-n) := by
  have habs : ∀ m : ℤ, |-q - (-m : ℤ)| = |q - m| := by
    intro m
    rw [Int.cast_neg, neg_sub_neg, abs_sub_comm]
  constructor
  · intro m
    have hle := h.nearest (-m)
    have hm := habs (-m)
    rw [neg_neg] at hm
    rw [habs, hm]
    exact hle
  · intro m hm heq
    have hm' := habs (-m)
    rw [neg_neg] at hm'
    rw [habs, hm'] at heq
    exact (h.even (-m) (by omega) heq).neg

end NearestEven
