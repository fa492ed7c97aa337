import Mathlib.Data.Option.Basic
import Mathlib.Logic.Function.Basic

/-! Two partial maps that are inverse to each other, changed link by link. -/

namespace PartialInverse

variable {α β : Type} {f : α → Option β} {g : β → Option α} {a : α} {b : β}

def Inverse (f : α → Option β) (g : β → Option α) : Prop := ∀ a b, f a = some b ↔ g b = some a

theorem Inverse.empty : Inverse (fun _ : α => (none : Option β)) fun _ => none := by
  intro a b
  simp

theorem Inverse.eq_of_eq {a' : α} (h : Inverse f g) (ha : f a = some b) (ha' : f a' = some b) :
    a = a' := by
  have hb := (h a b).mp ha
  rw [(h a' b).mp ha'] at hb
  exact (Option.some.inj hb).symm

/-- Keep the links at the places of `p` only. -/
theorem Inverse.restrict (h : Inverse f g) (p : α → Prop) [DecidablePred p] :
    Inverse (fun a => if p a then f a else none) fun b => (g b).filter fun a => p a := by
  intro a b
  rw [Option.filter_eq_some_iff, ← h a b]
  by_cases hp : p a <;> simp [hp]

variable [DecidableEq α] [DecidableEq β]

theorem Inverse.unlink (h : Inverse f g) (hab : f a = some b) :
    Inverse (Function.update f a none) (Function.update g b none) := by
  intro a' b'
  by_cases ha : a' = a
  · subst ha
    by_cases hb : b' = b
    · subst hb
      simp
    · have hne : g b' ≠ some a' := by
        intro hg
        rw [(h a' b').mpr hg] at hab
        exact hb (Option.some.inj hab)
      simp [hb, hne]
  · by_cases hb : b' = b
    · subst hb
      have hne : f a' ≠ some b' := fun hf => ha (h.eq_of_eq hf hab)
      simp [ha, hne]
    · simp [ha, hb, h a' b']

theorem Inverse.link (h : Inverse f g) (ha : f a = none) (hb : g b = none) :
    Inverse (Function.update f a (some b)) (Function.update g b (some a)) := by
  intro a' b'
  by_cases ha' : a' = a
  · subst ha'
    by_cases hb' : b' = b
    · subst hb'
      simp
    · have hne : g b' ≠ some a' := by
        intro hg
        rw [(h a' b').mpr hg] at ha
        cases ha
      simp [hb', hne, Ne.symm hb']
  · by_cases hb' : b' = b
    · subst hb'
      have hne : f a' ≠ some b' := by
        intro hf
        rw [(h a' b').mp hf] at hb
        cases hb
      simp [ha', hne, Ne.symm ha']
    · simp [ha', hb', h a' b']

end PartialInverse
