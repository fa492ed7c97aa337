import Arcueid.Lib.Outcome

/-! Computations that take a bound on their loops and calls, and give the error
`out` when it is too small. A computation that is monotone gives with a larger
bound what it gives with a smaller one. -/

namespace Bounded

open Outcome

variable {σ ε α β : Type} {out : ε} {x y z : StateT σ (Except ε) α}
  {f g : α → StateT σ (Except ε) β}

/-- `y` ends as `x` does where `x` has a large enough bound. -/
def Le (out : ε) (x y : StateT σ (Except ε) α) : Prop := ∀ s, x s ≠ .error out → y s = x s

theorem Le.refl : Le out x x := fun _ _ => rfl

theorem Le.trans (hxy : Le out x y) (hyz : Le out y z) : Le out x z := by
  intro s hs
  have heq := hxy s hs
  rw [← heq] at hs ⊢
  exact hyz s hs

theorem Le.of_throw : Le out (throw out) y := fun _ hs => absurd rfl hs

theorem Le.bind (hxy : Le out x y) (hfg : ∀ a, Le out (f a) (g a)) :
    Le out (x >>= f) (y >>= g) := by
  intro s hs
  cases hx : x s with
  | error e =>
    rw [bind_of_error hx] at hs ⊢
    have hne : x s ≠ .error out := by
      rw [hx]
      rintro h
      obtain rfl := Except.error.inj h
      exact hs rfl
    exact bind_of_error ((hxy s hne).trans hx)
  | ok p =>
    rw [bind_of_ok hx] at hs ⊢
    rw [bind_of_ok ((hxy s (by simp [hx])).trans hx)]
    exact hfg p.1 p.2 hs

theorem Le.ite {c : Prop} [Decidable c] {x' y' : StateT σ (Except ε) α} (h : Le out x y)
    (h' : Le out x' y') : Le out (if c then x else x') (if c then y else y') := by
  split
  · exact h
  · exact h'

/-- The bound is large enough. -/
def Enough (out : ε) (x : StateT σ (Except ε) α) (s : σ) : Prop := x s ≠ .error out

theorem Enough.pure (a : α) (s : σ) : Enough out (pure a : StateT σ (Except ε) α) s := nofun

theorem Enough.throw {e : ε} (he : e ≠ out) (s : σ) :
    Enough out (throw e : StateT σ (Except ε) α) s := by
  intro h
  exact he (Except.error.inj h)

theorem Enough.of_ok {s : σ} {p : α × σ} (h : x s = .ok p) : Enough out x s := by
  simp [Enough, h]

theorem Enough.bind {s : σ} (hx : Enough out x s)
    (hf : ∀ a s', x s = .ok (a, s') → Enough out (f a) s') : Enough out (x >>= f) s := by
  cases h : x s with
  | error e =>
    rw [Enough, bind_of_error h]
    intro heq
    obtain rfl := Except.error.inj heq
    exact hx h
  | ok p =>
    rw [Enough, bind_of_ok h]
    exact hf p.1 p.2 h

theorem Enough.ite {c : Prop} [Decidable c] {s : σ} (hx : c → Enough out x s)
    (hy : ¬ c → Enough out y s) : Enough out (if c then x else y) s := by
  split
  · exact hx ‹_›
  · exact hy ‹_›

/-- Without a state. -/
theorem ne_error_bind {out : ε} {r : Except ε α} {g : α → Except ε β} (hr : r ≠ .error out)
    (hg : ∀ a, r = .ok a → g a ≠ .error out) : (r >>= g) ≠ .error out := by
  cases r with
  | error e =>
    intro h
    cases h
    exact hr rfl
  | ok a => exact hg a rfl

variable {w : Nat → StateT σ (Except ε) α} {m n : Nat} {s s' : σ} {a : α}

theorem le_of_le (hw : ∀ n, Le out (w n) (w (n + 1))) (h : m ≤ n) : Le out (w m) (w n) := by
  induction h with
  | refl => exact Le.refl
  | step _ ih => exact ih.trans (hw _)

theorem ok_of_le (hw : ∀ n, Le out (w n) (w (n + 1))) (h : m ≤ n) (hm : w m s = .ok (a, s')) :
    w n s = .ok (a, s') :=
  (le_of_le hw h s (by simp [hm])).trans hm

/-- Some bound is large enough. -/
def Halts (out : ε) (w : Nat → StateT σ (Except ε) α) (s : σ) : Prop := ∃ n, w n s ≠ .error out

/-- What a monotone computation gives in the end. -/
theorem eq_of_halts (hw : ∀ n, Le out (w n) (w (n + 1))) (hm : w m s ≠ .error out)
    (hn : w n s ≠ .error out) : w m s = w n s := by
  rcases Nat.le_total m n with h | h
  · exact (le_of_le hw h s hm).symm
  · exact le_of_le hw h s hn

theorem out_or_eq (hw : ∀ n, Le out (w n) (w (n + 1))) (h : w m s = .ok (a, s')) (n : Nat) :
    w n s = .error out ∨ w n s = .ok (a, s') := by
  by_cases hn : w n s = .error out
  · exact .inl hn
  · exact .inr ((eq_of_halts hw hn (by simp [h])).trans h)

end Bounded
