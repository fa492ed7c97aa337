import Mathlib.Order.Filter.AtTopBot.Basic
import Arcueid.Lib.Outcome

/-! Computations with a step bound, and what they settle on as the bound grows. -/

namespace Settling

open Filter

variable {σ ε α β : Type} {x y : ℕ → StateT σ (Except ε) α} {f : ℕ → α → StateT σ (Except ε) β}
  {s s' s'' : σ} {a a' : α} {b : β}

/-- With every large enough bound `x` ends from `s` with the value `a` and the
state `s'`. -/
def Settles (x : ℕ → StateT σ (Except ε) α) (s : σ) (a : α) (s' : σ) : Prop :=
  ∀ᶠ n in atTop, x n s = .ok (a, s')

theorem Settles.of_forall (h : ∀ n, x n s = .ok (a, s')) : Settles x s a s' :=
  Eventually.of_forall h

theorem settles_pure : Settles (fun _ => (pure a : StateT σ (Except ε) α)) s a s :=
  Settles.of_forall fun _ => rfl

theorem Settles.congr (hx : Settles x s a s') (h : ∀ n, x n s = y n s) : Settles y s a s' := by
  filter_upwards [hx] with n hn
  rw [← h n, hn]

theorem Settles.bind (hx : Settles x s a s') (hf : Settles (fun n => f n a) s' b s'') :
    Settles (fun n => x n >>= f n) s b s'' := by
  filter_upwards [hx, hf] with n hn hn'
  rw [Outcome.bind_of_ok hn, hn']

theorem Settles.unique {t t' : σ} (h : Settles x s a t) (h' : Settles x s a' t') :
    a = a' ∧ t = t' := by
  obtain ⟨n, hn, hn'⟩ := (h.and h').exists
  rw [hn] at hn'
  cases hn'
  exact ⟨rfl, rfl⟩

/-- A computation that gives its bound, less one, to another one. -/
theorem Settles.succ {t : σ} (hx : Settles x s a s') (hy : ∀ n, y (n + 1) t = x n s) :
    Settles y t a s' := by
  obtain ⟨N, hN⟩ := eventually_atTop.mp hx
  refine eventually_atTop.mpr ⟨N + 1, fun n hn => ?_⟩
  obtain ⟨m, rfl⟩ : ∃ m, n = m + 1 := ⟨n - 1, by omega⟩
  rw [hy, hN m (by omega)]

end Settling
