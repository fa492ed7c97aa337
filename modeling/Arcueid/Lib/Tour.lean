import Mathlib.Logic.Basic

/-! Tours: a recursive computation over parts, reduced to which parts it goes
into, in which order, and where it stops with an error of its own. A tour also
draws numbers from a counter. -/

inductive Tour (P ε α : Type) : Type
  | ok (a : α)
  | fail (e : ε)
  | visit (p : P) (next : Tour P ε α)
  | fresh (next : Nat → Tour P ε α)

namespace Tour

variable {P ε α β : Type}

def bind (t : Tour P ε α) (f : α → Tour P ε β) : Tour P ε β :=
  match t with
  | ok a => f a
  | fail e => fail e
  | visit p next => visit p (bind next f)
  | fresh next => fresh fun n => bind (next n) f

instance : Monad (Tour P ε) where
  pure := ok
  bind := bind

@[simp] theorem pure_bind (a : α) (f : α → Tour P ε β) : (ok a >>= f) = f a := rfl

@[simp] theorem fail_bind (e : ε) (f : α → Tour P ε β) : (fail e >>= f) = fail e := rfl

@[simp] theorem visit_bind (p : P) (t : Tour P ε α) (f : α → Tour P ε β) :
    (visit p t >>= f) = visit p (t >>= f) := rfl

@[simp] theorem fresh_bind (t : Nat → Tour P ε α) (f : α → Tour P ε β) :
    (fresh t >>= f) = fresh fun n => t n >>= f := rfl

theorem bind_ok (t : Tour P ε α) : (t >>= ok) = t := by
  induction t with
  | ok a => rfl
  | fail e => rfl
  | visit p next ih => exact congrArg (visit p) ih
  | fresh next ih => exact congrArg fresh (funext ih)

/-- What the parts come to: an end and the counter, if there is one. -/
abbrev Oracle (P ε : Type) := P → Nat → Option (Except ε Unit × Nat)

/-- Make the tour, with the counter at `k`. -/
def walk (o : Oracle P ε) : Tour P ε α → Nat → Option (Except ε α × Nat)
  | ok a, k => some (.ok a, k)
  | fail e, k => some (.error e, k)
  | visit p next, k =>
    match o p k with
    | none => none
    | some (.error e, k) => some (.error e, k)
    | some (.ok _, k) => walk o next k
  | fresh next, k => walk o (next k) (k + 1)

/-- Go into the parts, at most `fuel` deep. -/
def run (plan : P → Tour P ε Unit) : Nat → Oracle P ε
  | 0, _, _ => none
  | fuel + 1, p, k => walk (run plan fuel) (plan p) k

theorem walk_bind (o : Oracle P ε) (t : Tour P ε α) (f : α → Tour P ε β) (k : Nat) :
    walk o (t >>= f) k =
      match walk o t k with
      | none => none
      | some (.error e, k) => some (.error e, k)
      | some (.ok a, k) => walk o (f a) k := by
  induction t generalizing k with
  | ok a => rfl
  | fail e => rfl
  | visit p next ih =>
    rw [visit_bind, walk, walk]
    cases o p k with
    | none => rfl
    | some r =>
      obtain ⟨r, k'⟩ := r
      cases r with
      | error e => rfl
      | ok u => exact ih k'
  | fresh next ih => exact ih k (k + 1)

theorem walk_mono {o o' : Oracle P ε} (h : ∀ p k r, o p k = some r → o' p k = some r)
    {t : Tour P ε α} {k : Nat} {r : Except ε α × Nat} (ht : walk o t k = some r) :
    walk o' t k = some r := by
  induction t generalizing k with
  | ok a => exact ht
  | fail e => exact ht
  | visit p next ih =>
    rw [walk] at ht ⊢
    cases hp : o p k with
    | none => simp [hp] at ht
    | some q =>
      rw [hp] at ht
      rw [h p k q hp]
      obtain ⟨q, k'⟩ := q
      cases q with
      | error e => exact ht
      | ok u => exact ih ht
  | fresh next ih => exact ih k ht

variable {plan : P → Tour P ε Unit}

theorem run_succ {fuel : Nat} {p : P} {k : Nat} {r : Except ε Unit × Nat}
    (h : run plan fuel p k = some r) : run plan (fuel + 1) p k = some r := by
  induction fuel generalizing p k r with
  | zero => cases h
  | succ fuel ih => exact walk_mono (fun _ _ _ => ih) h

theorem run_mono {fuel fuel' : Nat} (hle : fuel ≤ fuel') {p : P} {k : Nat}
    {r : Except ε Unit × Nat} (h : run plan fuel p k = some r) : run plan fuel' p k = some r := by
  induction hle with
  | refl => exact h
  | step _ ih => exact run_succ ih

/-- However deep a part is gone into, it comes to the same. -/
theorem run_unique {fuel fuel' : Nat} {p : P} {k : Nat} {r r' : Except ε Unit × Nat}
    (h : run plan fuel p k = some r) (h' : run plan fuel' p k = some r') : r = r' := by
  have hmax := run_mono (Nat.le_max_left fuel fuel') h
  rw [run_mono (Nat.le_max_right fuel fuel') h'] at hmax
  exact (Option.some.inj hmax).symm

/-- A part whose tour comes to an end, with an error of the kind allowed if any. -/
def Ends (plan : P → Tour P ε Unit) (allowed : ε → Prop) (p : P) : Prop :=
  ∀ k, ∃ fuel r, run plan fuel p k = some r ∧ ∀ e, r.1 = .error e → allowed e

/-- Every part of the tour meets `Q`, its own errors are allowed, and its value
meets `R`. -/
def All (Q : P → Prop) (allowed : ε → Prop) (R : α → Prop) : Tour P ε α → Prop
  | ok a => R a
  | fail e => allowed e
  | visit p next => Q p ∧ All Q allowed R next
  | fresh next => ∀ k, All Q allowed R (next k)

section All

variable {Q : P → Prop} {allowed : ε → Prop} {R : α → Prop} {t : Tour P ε α}

theorem All.bind {f : α → Tour P ε β} {R' : β → Prop} (ht : All Q allowed R t)
    (hf : ∀ a, R a → All Q allowed R' (f a)) : All Q allowed R' (t >>= f) := by
  induction t with
  | ok a => exact hf a ht
  | fail e => exact ht
  | visit p next ih => exact ⟨ht.1, ih ht.2⟩
  | fresh next ih => exact fun k => ih k (ht k)

theorem All.mono {R' : α → Prop} (ht : All Q allowed R t) (h : ∀ a, R a → R' a) :
    All Q allowed R' t := by
  induction t with
  | ok a => exact h a ht
  | fail e => exact ht
  | visit p next ih => exact ⟨ht.1, ih ht.2⟩
  | fresh next ih => exact fun k => ih k (ht k)

theorem All.walk (h : All (Ends plan allowed) allowed R t) (k : Nat) :
    ∃ fuel r, walk (run plan fuel) t k = some r ∧ ∀ e, r.1 = .error e → allowed e := by
  induction t generalizing k with
  | ok a => exact ⟨0, (.ok a, k), rfl, nofun⟩
  | fail e =>
    refine ⟨0, (.error e, k), rfl, fun e' he => ?_⟩
    cases he
    exact h
  | visit p next ih =>
    obtain ⟨fuel, ⟨r, k'⟩, hp, hr⟩ := h.1 k
    cases r with
    | error e =>
      refine ⟨fuel, (.error e, k'), by rw [Tour.walk, hp], fun e' he => ?_⟩
      cases he
      exact hr e rfl
    | ok u =>
      obtain ⟨fuel', r, hnext, hr⟩ := ih h.2 k'
      refine ⟨max fuel fuel', r, ?_, hr⟩
      rw [Tour.walk, run_mono (Nat.le_max_left fuel fuel') hp]
      exact walk_mono (fun _ _ _ => run_mono (Nat.le_max_right fuel fuel')) hnext
  | fresh next ih => exact ih k (h k) (k + 1)

theorem All.ends {p : P} {R : Unit → Prop} (h : All (Ends plan allowed) allowed R (plan p)) :
    Ends plan allowed p := by
  intro k
  obtain ⟨fuel, r, hr⟩ := h.walk k
  exact ⟨fuel + 1, r, hr⟩

end All

/-- What is seen of a computation: the states it keeps to, its counter and the
errors of its own, some of which may be anything. -/
structure View (σ η ε : Type) where
  keeps : σ → Prop
  count : σ → Nat
  kind : η → Option ε
  excused : ε → Prop

section Follows

variable {σ η : Type} (view : View σ η ε) (o : Oracle P ε)

/-- The computation comes to what the tour comes to. -/
def Follows (x : StateT σ (Except η) α) (t : Tour P ε β) (Q : α → β → Prop) : Prop :=
  ∀ s r k, view.keeps s → walk o t (view.count s) = some (r, k) →
    match r with
    | .ok b => ∃ a s', x s = .ok (a, s') ∧ view.keeps s' ∧ view.count s' = k ∧ Q a b
    | .error e => view.excused e ∨ ∃ e', x s = .error e' ∧ view.kind e' = some e

variable {view o} {γ δ : Type} {x : StateT σ (Except η) α} {t : Tour P ε β}
  {Q : α → β → Prop}

theorem Follows.pure {a : α} {b : β} (h : Q a b) :
    Follows view o (pure a : StateT σ (Except η) α) (.ok b : Tour P ε β) Q := by
  intro s r k hs hw
  cases hw
  exact ⟨a, s, rfl, hs, rfl, h⟩

theorem Follows.throw {e : ε} {e' : η} (h : view.kind e' = some e) :
    Follows view o (throw e' : StateT σ (Except η) α) (.fail e : Tour P ε β) Q := by
  intro s r k _ hw
  cases hw
  exact .inr ⟨e', rfl, h⟩

theorem Follows.excuse {e : ε} (h : view.excused e) :
    Follows view o x (.fail e : Tour P ε β) Q := by
  intro s r k _ hw
  cases hw
  exact .inl h

theorem Follows.bind {f : α → StateT σ (Except η) γ} {g : β → Tour P ε δ} {R : γ → δ → Prop}
    (hx : Follows view o x t Q)
    (hf : ∀ a b, Q a b → Follows view o (f a) (g b) R) :
    Follows view o (x >>= f) (t >>= g) R := by
  intro s r k hs hw
  rw [walk_bind] at hw
  cases ht : walk o t (view.count s) with
  | none => simp [ht] at hw
  | some q =>
    obtain ⟨q, k'⟩ := q
    have hxs := hx s q k' hs ht
    rw [ht] at hw
    cases q with
    | error e =>
      cases hw
      refine hxs.imp_right fun ⟨e', he, hk⟩ => ⟨e', ?_, hk⟩
      change (x s >>= fun p => f p.1 p.2) = _
      rw [he]
      rfl
    | ok b =>
      obtain ⟨a, s', ha, hs', hcount, hq⟩ := hxs
      have hstep := hf a b hq s' r k hs' (by rw [hcount]; exact hw)
      have heq : (x >>= f) s = f a s' := by
        change (x s >>= fun p => f p.1 p.2) = _
        rw [ha]
        rfl
      rw [heq]
      exact hstep

/-- What follows the computation needs no part. -/
theorem Follows.after {f : α → StateT σ (Except η) γ} {R : γ → β → Prop}
    (hx : Follows view o x t Q)
    (hf : ∀ a b, Q a b → Follows view o (f a) (ok b : Tour P ε β) R) :
    Follows view o (x >>= f) t R := by
  have h := hx.bind hf
  rwa [bind_ok] at h

theorem Follows.map {g : β → δ} {R : α → δ → Prop} (hx : Follows view o x t Q)
    (h : ∀ a b, Q a b → R a (g b)) :
    Follows view o x (t >>= fun b => ok (g b)) R := by
  have hp : Follows view o (x >>= Pure.pure) (t >>= fun b => ok (g b)) R :=
    hx.bind fun a b hq => .pure (h a b hq)
  rwa [bind_pure] at hp

end Follows

end Tour
