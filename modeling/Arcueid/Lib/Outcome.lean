import Mathlib.Logic.Basic

/-! Computations that keep a state and may fail: what holds of each outcome,
and how outcomes compose. -/

namespace Outcome

variable {σ ε α β : Type} {x : StateT σ (Except ε) α} {f : α → StateT σ (Except ε) β}
  {s s' s'' : σ} {a : α} {b : β}

/-- `x` ends from `s` with the value `a` and the state `s'`. -/
def Yields (x : StateT σ (Except ε) α) (s : σ) (a : α) (s' : σ) : Prop := x s = .ok (a, s')

/-- Every outcome of `x` from `s` meets `Q`. -/
def Ensures (x : StateT σ (Except ε) α) (s : σ) (Q : α → σ → Prop) : Prop :=
  ∀ a s', Yields x s a s' → Q a s'

theorem yields_pure : Yields (pure a : StateT σ (Except ε) α) s a s := rfl

theorem pure_apply (a : α) (s : σ) : (pure a : StateT σ (Except ε) α) s = .ok (a, s) := rfl

theorem Yields.bind (hx : Yields x s a s') (hf : Yields (f a) s' b s'') :
    Yields (x >>= f) s b s'' := by
  change (x s >>= fun p => f p.1 p.2) = _
  rw [show x s = .ok (a, s') from hx]
  exact hf

theorem bind_of_ok (h : x s = .ok (a, s')) : (x >>= f) s = f a s' := by
  change (x s >>= fun p => f p.1 p.2) = _
  rw [h]
  rfl

theorem bind_of_error {e : ε} (h : x s = .error e) : (x >>= f) s = .error e := by
  change (x s >>= fun p => f p.1 p.2) = _
  rw [h]
  rfl

theorem yields_bind (h : Yields (x >>= f) s b s'') :
    ∃ a s', Yields x s a s' ∧ Yields (f a) s' b s'' := by
  change (x s >>= fun p => f p.1 p.2) = _ at h
  cases hx : x s with
  | error e => simp [hx, bind, Except.bind] at h
  | ok p =>
    rw [hx] at h
    exact ⟨p.1, p.2, hx, h⟩

theorem yields_pure_iff {c : α} :
    Yields (pure c : StateT σ (Except ε) α) s a s' ↔ c = a ∧ s = s' := by
  change (Except.ok (c, s) : Except ε (α × σ)) = .ok (a, s') ↔ _
  simp only [Except.ok.injEq, Prod.mk.injEq]

theorem not_yields_throw {e : ε} : ¬ Yields (throw e : StateT σ (Except ε) α) s a s' := by
  simp [Yields, throw, throwThe, MonadExceptOf.throw, StateT.lift, bind, Except.bind]

theorem yields_lift_iff {r : Except ε α} :
    Yields (liftM r : StateT σ (Except ε) α) s a s' ↔ r = .ok a ∧ s = s' := by
  cases r with
  | error e =>
    have hne : ¬ Yields (liftM (Except.error e : Except ε α) : StateT σ (Except ε) α) s a s' :=
      nofun
    simp [hne]
  | ok b =>
    change (Except.ok (b, s) : Except ε (α × σ)) = .ok (a, s') ↔ _
    simp

variable {Q R : α → σ → Prop} {P : β → σ → Prop}

theorem Ensures.mono (hx : Ensures x s Q) (hQR : ∀ a s', Q a s' → R a s') : Ensures x s R :=
  fun a s' h => hQR a s' (hx a s' h)

theorem Ensures.pure (hQ : Q a s) : Ensures (Pure.pure a : StateT σ (Except ε) α) s Q := by
  intro b s' h
  obtain ⟨rfl, rfl⟩ := yields_pure_iff.mp h
  exact hQ

theorem Ensures.bind (hx : Ensures x s Q) (hf : ∀ a s', Q a s' → Ensures (f a) s' P) :
    Ensures (x >>= f) s P := by
  intro b s'' h
  obtain ⟨a, s', ha, hb⟩ := yields_bind h
  exact hf a s' (hx a s' ha) b s'' hb

theorem Ensures.throw {e : ε} : Ensures (throw e : StateT σ (Except ε) α) s Q :=
  fun _ _ h => absurd h not_yields_throw

theorem Ensures.lift {r : Except ε α} (hQ : ∀ a, r = .ok a → Q a s) :
    Ensures (liftM r : StateT σ (Except ε) α) s Q := by
  intro b s' h
  obtain ⟨hr, rfl⟩ := yields_lift_iff.mp h
  exact hQ b hr

end Outcome
