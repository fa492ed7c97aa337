import Mathlib.Data.Finset.Card
import Mathlib.Data.Fintype.Card

/-! Recursions over a finite graph that take a bound on their depth. A node
needs depth `n` if `n` is too small for it and `n + 1` is not. -/

namespace Descent

variable {α : Type} {needs : Nat → α → Prop} {n : Nat} {a : α}

theorem exists_needs_of_le (hdown : ∀ n a, needs (n + 1) a → ∃ b, needs n b) (h : needs n a)
    {m : Nat} (hm : m ≤ n) : ∃ b, needs m b := by
  induction n generalizing a with
  | zero =>
    obtain rfl : m = 0 := Nat.le_zero.mp hm
    exact ⟨a, h⟩
  | succ n ih =>
    rcases Nat.lt_or_eq_of_le hm with hlt | rfl
    · obtain ⟨b, hb⟩ := hdown n a h
      exact ih hb (Nat.le_of_lt_succ hlt)
    · exact ⟨a, h⟩

/-- No node needs more depth than there are nodes. -/
theorem le_card (needs : Nat → α → Prop) (s : Finset α)
    (huniq : ∀ m n a, needs m a → needs n a → m = n)
    (hdown : ∀ n a, needs (n + 1) a → ∃ b, needs n b) (hmem : ∀ n a, needs (n + 1) a → a ∈ s)
    (h : needs n a) : n ≤ s.card := by
  choose f hf using fun i : Fin n => exists_needs_of_le hdown h (Nat.succ_le_of_lt i.isLt)
  have hcard : (Finset.univ : Finset (Fin n)).card ≤ s.card := by
    apply Finset.card_le_card_of_injOn f
    · intro i _
      exact hmem i (f i) (hf i)
    · intro i _ j _ hij
      have hij' := huniq _ _ (f i) (hf i) (hij ▸ hf j)
      exact Fin.ext (Nat.succ.inj hij')
  simpa using hcard

end Descent
