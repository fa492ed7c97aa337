import Arcueid.Lib.Outcome

/-! Two computations on the same state, step by step: they fail with the same
error, or end in the same state with related values. `I` holds of the states
between steps. -/

namespace Outcome

variable {σ ε α β γ δ : Type} {I : σ → Prop} {R : α → β → Prop} {S : γ → δ → Prop}

def Lockstep (I : σ → Prop) (R : α → β → Prop) (x : StateT σ (Except ε) α)
    (y : StateT σ (Except ε) β) : Prop :=
  ∀ s, I s → (∃ e, x s = .error e ∧ y s = .error e) ∨
    ∃ a b s', Yields x s a s' ∧ Yields y s b s' ∧ R a b ∧ I s'

variable {x : StateT σ (Except ε) α} {y : StateT σ (Except ε) β}

theorem Lockstep.pure {a : α} {b : β} (h : R a b) :
    Lockstep I R (Pure.pure a : StateT σ (Except ε) α) (Pure.pure b) :=
  fun s hs => .inr ⟨a, b, s, yields_pure, yields_pure, h, hs⟩

theorem Lockstep.throw {e : ε} :
    Lockstep I R (MonadExcept.throw e : StateT σ (Except ε) α) (MonadExcept.throw e) :=
  fun _ _ => .inl ⟨e, rfl, rfl⟩

theorem Lockstep.bind {f : α → StateT σ (Except ε) γ} {g : β → StateT σ (Except ε) δ}
    (hx : Lockstep I R x y) (hf : ∀ a b, R a b → Lockstep I S (f a) (g b)) :
    Lockstep I S (x >>= f) (y >>= g) := by
  intro s hs
  rcases hx s hs with ⟨e, hxe, hye⟩ | ⟨a, b, s', hxa, hyb, hR, hs'⟩
  · exact .inl ⟨e, bind_of_error hxe, bind_of_error hye⟩
  · rw [bind_of_ok hxa, bind_of_ok hyb]
    rcases hf a b hR s' hs' with ⟨e, hfe, hge⟩ | ⟨c, d, s'', hfc, hgd, hS, hs''⟩
    · exact .inl ⟨e, hfe, hge⟩
    · refine .inr ⟨c, d, s'', ?_, ?_, hS, hs''⟩
      · rw [Yields, bind_of_ok hxa]
        exact hfc
      · rw [Yields, bind_of_ok hyb]
        exact hgd

theorem Lockstep.throw_bind {e : ε} {f : α → StateT σ (Except ε) γ}
    {g : β → StateT σ (Except ε) δ} :
    Lockstep I S (MonadExcept.throw e >>= f) (MonadExcept.throw e >>= g) :=
  fun _ _ => .inl ⟨e, rfl, rfl⟩

theorem Lockstep.mono {R' : α → β → Prop} (h : Lockstep I R x y)
    (hR : ∀ a b, R a b → R' a b) : Lockstep I R' x y := by
  intro s hs
  rcases h s hs with he | ⟨a, b, s', hxa, hyb, hab, hs'⟩
  · exact .inl he
  · exact .inr ⟨a, b, s', hxa, hyb, hR a b hab, hs'⟩

theorem Lockstep.ite {p q : Prop} [Decidable p] [Decidable q] {x' : StateT σ (Except ε) α}
    {y' : StateT σ (Except ε) β} (hpq : p ↔ q) (hx : Lockstep I R x y)
    (hx' : Lockstep I R x' y') :
    Lockstep I R (if p then x else x') (if q then y else y') := by
  by_cases hp : p
  · rwa [if_pos hp, if_pos (hpq.mp hp)]
  · rwa [if_neg hp, if_neg (mt hpq.mpr hp)]

/-- A computation that keeps `I` keeps step with itself. -/
theorem Lockstep.refl {x : StateT σ (Except ε) α} (h : ∀ s, I s → Ensures x s fun _ s' => I s') :
    Lockstep I Eq x x := by
  intro s hs
  cases hx : x s with
  | error e => exact .inl ⟨e, rfl, rfl⟩
  | ok p => exact .inr ⟨p.1, p.1, p.2, hx, hx, rfl, h s hs _ _ hx⟩

theorem Lockstep.eq {y : StateT σ (Except ε) α} (h : Lockstep I Eq x y) {s : σ} (hs : I s) :
    x s = y s := by
  rcases h s hs with ⟨e, hx, hy⟩ | ⟨a, _, s', hx, hy, rfl, -⟩
  · rw [hx, hy]
  · exact hx.trans hy.symm

end Outcome
