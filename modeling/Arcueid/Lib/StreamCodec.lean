import Mathlib.Data.List.Basic

/-! A stream of words, read one symbol at a time: a test tells from the
symbols read so far whether a word is complete. -/

namespace StreamCodec

variable {β : Type}

/-- Reads symbols onto `acc` until `full` holds, `n` symbols at most: the
word read and what is left of the stream. -/
def pull (full : List β → Bool) : Nat → List β → List β → Option (List β × List β)
  | 0, _, _ => none
  | _ + 1, _, [] => none
  | n + 1, acc, b :: bs =>
    if full (acc ++ [b]) then some (acc ++ [b], bs) else pull full n (acc ++ [b]) bs

variable {full : List β → Bool} {n : Nat} {acc w bs rest : List β}

theorem pull_append (h : pull full n acc bs = some (w, rest)) : acc ++ bs = w ++ rest := by
  induction n generalizing acc bs with
  | zero => simp [pull] at h
  | succ n ih =>
    cases bs with
    | nil => simp [pull] at h
    | cons b bs =>
      simp only [pull] at h
      split at h
      · simp only [Option.some.injEq, Prod.mk.injEq] at h
        simp [← h.1, h.2]
      · simpa using ih h

theorem pull_length_le (h : pull full n acc bs = some (w, rest)) :
    w.length ≤ acc.length + n := by
  induction n generalizing acc bs with
  | zero => simp [pull] at h
  | succ n ih =>
    cases bs with
    | nil => simp [pull] at h
    | cons b bs =>
      simp only [pull] at h
      split at h
      · simp only [Option.some.injEq, Prod.mk.injEq] at h
        simp [← h.1]
      · have hw := ih h
        simp only [List.length_append, List.length_singleton] at hw
        omega

/-- A test that holds of every word of `m` symbols stops the reader there. -/
theorem pull_length_le_of_full {m : Nat} (hm : ∀ u : List β, u.length = m → full u = true)
    (hacc : acc.length < m) (h : pull full n acc bs = some (w, rest)) : w.length ≤ m := by
  induction n generalizing acc bs with
  | zero => simp [pull] at h
  | succ n ih =>
    cases bs with
    | nil => simp [pull] at h
    | cons b bs =>
      simp only [pull] at h
      split at h
      · simp only [Option.some.injEq, Prod.mk.injEq] at h
        simp only [← h.1, List.length_append, List.length_singleton]
        omega
      · next hb =>
        have hlen : (acc ++ [b]).length ≠ m := fun he => hb (hm _ he)
        simp only [List.length_append, List.length_singleton] at hlen
        exact ih (by simp; omega) h

/-- A word that is complete only as a whole, in front of any other text, is
what the reader reads. -/
theorem pull_word (hn : w.length ≤ n) (hw : w ≠ []) (hfull : full (acc ++ w) = true)
    (hmin : ∀ u v, u ++ v = w → u ≠ [] → v ≠ [] → full (acc ++ u) = false) :
    pull full n acc (w ++ rest) = some (acc ++ w, rest) := by
  induction w generalizing n acc with
  | nil => exact absurd rfl hw
  | cons b w ih =>
    obtain ⟨n, rfl⟩ := Nat.exists_eq_add_of_lt (show 0 < n by simp at hn; omega)
    simp only [Nat.zero_add, List.cons_append, pull]
    cases w with
    | nil => simp [hfull]
    | cons b' w =>
      have hb : full (acc ++ [b]) = false := hmin [b] (b' :: w) rfl (by simp) (by simp)
      rw [hb]
      have hrec : pull full n (acc ++ [b]) (b' :: w ++ rest) = some (acc ++ [b] ++ b' :: w, rest) :=
        ih (by simpa using hn) (by simp) (by simpa using hfull) fun u v huv hu hv => by
          simpa using hmin (b :: u) v (by simp [huv]) (by simp) hv
      simpa using hrec

end StreamCodec
