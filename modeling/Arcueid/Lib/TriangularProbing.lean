import Mathlib.Data.Nat.Choose.Basic
import Mathlib.Data.Fintype.EquivFin
import Mathlib.Data.ZMod.Basic
import Mathlib.Tactic.Ring

/-! Triangular probing modulo a power of two. Every slot is met within one
round of `2 ^ b` probes, whatever the starting slot is. -/

namespace TriangularProbing

/-- The sum of the first `n` probe increments. -/
def offset (n : Nat) : Nat := n * (n + 1) / 2

@[simp] theorem offset_zero : offset 0 = 0 := rfl

theorem two_mul_offset (n : Nat) : 2 * offset n = n * (n + 1) :=
  Nat.mul_div_cancel' (Nat.even_mul_succ_self n).two_dvd

theorem offset_succ (n : Nat) : offset (n + 1) = offset n + (n + 1) := by
  have h := two_mul_offset (n + 1)
  have h' := two_mul_offset n
  have he : (n + 1) * (n + 1 + 1) = n * (n + 1) + 2 * (n + 1) := by ring
  omega

/-- The slot met by probe number `n` from the slot of `start`. -/
def probe (b start n : Nat) : Nat := (start + offset n) % 2 ^ b

theorem probe_lt (b start n : Nat) : probe b start n < 2 ^ b :=
  Nat.mod_lt _ (Nat.two_pow_pos b)

@[simp] theorem probe_zero (b start : Nat) : probe b start 0 = start % 2 ^ b := rfl

theorem probe_succ (b start n : Nat) :
    probe b start (n + 1) = (probe b start n + (n + 1)) % 2 ^ b := by
  rw [probe, probe, offset_succ, Nat.mod_add_mod, Nat.add_assoc]

/-- Two probes of one round differ: the difference of their offsets is half a
product of an odd and an even factor, both too small to carry `2 ^ (b + 1)`. -/
theorem probe_injOn (b start : Nat) {i j : Nat} (hij : i < j) (hj : j < 2 ^ b) :
    probe b start i ≠ probe b start j := by
  intro he
  have hdvd : 2 ^ b ∣ offset j - offset i := by
    have hm : (start + offset i) ≡ (start + offset j) [MOD 2 ^ b] := he
    have hle : offset i ≤ offset j :=
      Nat.div_le_div_right (Nat.mul_le_mul hij.le (Nat.succ_le_succ hij.le))
    exact (Nat.modEq_iff_dvd' hle).mp (Nat.ModEq.add_left_cancel' start hm)
  obtain ⟨d, rfl⟩ : ∃ d, j = i + d := ⟨j - i, by omega⟩
  have hprod : 2 * (offset (i + d) - offset i) = d * (2 * i + d + 1) := by
    have h := two_mul_offset (i + d)
    have h' := two_mul_offset i
    have hexp : (i + d) * (i + d + 1) = i * (i + 1) + d * (2 * i + d + 1) := by ring
    omega
  have hpow : 2 ^ (b + 1) ∣ d * (2 * i + d + 1) := by
    rw [← hprod, pow_succ, Nat.mul_comm]
    exact Nat.mul_dvd_mul_left 2 hdvd
  have hd : d < 2 ^ (b + 1) := by rw [pow_succ]; omega
  have hs : 2 * i + d + 1 < 2 ^ (b + 1) := by rw [pow_succ]; omega
  have hsmall : ∀ {x y : Nat}, 0 < x → x < 2 ^ (b + 1) → Odd y → 2 ^ (b + 1) ∣ x * y → False := by
    intro x y hx hlt hy hxy
    have hc : Nat.Coprime (2 ^ (b + 1)) y := Nat.Coprime.pow_left _ hy.coprime_two_left
    exact absurd (Nat.le_of_dvd hx (hc.dvd_of_dvd_mul_right hxy)) (by omega)
  rcases Nat.even_or_odd d with hpar | hpar
  · exact hsmall (by omega) hd ((Even.add (even_two_mul i) hpar).add_one) hpow
  · rw [Nat.mul_comm] at hpow
    exact hsmall (by omega) hs hpar hpow

/-- One round of probes meets every slot. -/
theorem exists_probe_eq (b start : Nat) {r : Nat} (hr : r < 2 ^ b) :
    ∃ n, n < 2 ^ b ∧ probe b start n = r := by
  let f : Fin (2 ^ b) → Fin (2 ^ b) := fun n => ⟨probe b start n, probe_lt b start n⟩
  have hinj : Function.Injective f := by
    intro i j hij
    have he : probe b start i = probe b start j := congrArg Fin.val hij
    by_contra hne
    rcases Nat.lt_or_gt_of_ne (fun h => hne (Fin.ext h)) with hlt | hlt
    · exact probe_injOn b start hlt j.isLt he
    · exact probe_injOn b start hlt i.isLt he.symm
  obtain ⟨n, hn⟩ := Finite.surjective_of_injective hinj ⟨r, hr⟩
  exact ⟨n, n.isLt, congrArg Fin.val hn⟩

/-- The probing loop: look at the slot, and step by the loop counter until
`stop` accepts one. -/
def walk (stop : Nat → Bool) (b : Nat) : Nat → Nat → Nat → Option Nat
  | 0, _, _ => none
  | fuel + 1, index, i =>
    if stop index then some index else walk stop b fuel ((index + i) % 2 ^ b) (i + 1)

/-- From probe `n` on, the loop returns the first accepted probe. -/
theorem walk_eq_some_iff {stop : Nat → Bool} {b start fuel n r : Nat} :
    walk stop b fuel (probe b start n) (n + 1) = some r ↔
      ∃ m, n ≤ m ∧ m < n + fuel ∧ r = probe b start m ∧ stop r = true ∧
        ∀ k, n ≤ k → k < m → stop (probe b start k) = false := by
  induction fuel generalizing n with
  | zero => simp only [walk, reduceCtorEq, false_iff]; rintro ⟨m, hn, hm, -⟩; omega
  | succ fuel ih =>
    by_cases hs : stop (probe b start n) = true
    · simp only [walk, hs, if_true, Option.some.injEq]
      constructor
      · rintro rfl
        exact ⟨n, le_refl n, by omega, rfl, hs, fun k hk hk' => absurd hk (by omega)⟩
      · rintro ⟨m, hn, -, rfl, -, hm⟩
        rcases Nat.eq_or_lt_of_le hn with rfl | hlt
        · rfl
        · exact absurd hs (by simp [hm n (le_refl n) hlt])
    · have hf : stop (probe b start n) = false := by simpa using hs
      rw [walk, if_neg hs, ← probe_succ, ih]
      constructor
      · rintro ⟨m, hn, hm, hr, hstop, hpre⟩
        refine ⟨m, by omega, by omega, hr, hstop, fun k hk hk' => ?_⟩
        rcases Nat.eq_or_lt_of_le hk with rfl | hlt
        · exact hf
        · exact hpre k hlt hk'
      · rintro ⟨m, hn, hm, rfl, hstop, hpre⟩
        have hne : n ≠ m := fun he => hs (he ▸ hstop)
        exact ⟨m, by omega, by omega, rfl, hstop, fun k hk hk' => hpre k (by omega) hk'⟩

/-- A loop whose counter starts at zero looks at its first slot twice. -/
theorem walk_zero {stop : Nat → Bool} {b start fuel : Nat} :
    walk stop b (fuel + 1) (probe b start 0) 0 =
      if stop (probe b start 0) then some (probe b start 0)
      else walk stop b fuel (probe b start 0) 1 := by
  rw [walk, Nat.add_zero, Nat.mod_eq_of_lt (probe_lt b start 0)]

/-- The loop ends exactly when some slot is accepted. -/
theorem walk_terminates_iff {stop : Nat → Bool} {b start : Nat} :
    (∃ fuel r, walk stop b fuel (probe b start 0) 1 = some r) ↔
      ∃ r, r < 2 ^ b ∧ stop r = true := by
  constructor
  · rintro ⟨fuel, r, h⟩
    obtain ⟨m, -, -, rfl, hs, -⟩ := walk_eq_some_iff.mp h
    exact ⟨_, probe_lt b start m, hs⟩
  · rintro ⟨r, hr, hs⟩
    obtain ⟨n, -, rfl⟩ := exists_probe_eq b start hr
    have hex : ∃ m, stop (probe b start m) = true := ⟨n, hs⟩
    refine ⟨Nat.find hex + 1, _, walk_eq_some_iff.mpr
      ⟨Nat.find hex, Nat.zero_le _, by omega, rfl, Nat.find_spec hex, fun k _ hk => ?_⟩⟩
    simpa using Nat.find_min hex hk

theorem walk_mono {stop : Nat → Bool} {b fuel fuel' index i r : Nat} (hle : fuel ≤ fuel')
    (h : walk stop b fuel index i = some r) : walk stop b fuel' index i = some r := by
  induction fuel generalizing fuel' index i with
  | zero => simp [walk] at h
  | succ fuel ih =>
    obtain ⟨f, rfl⟩ : ∃ f, fuel' = f + 1 := ⟨fuel' - 1, by omega⟩
    by_cases hs : stop index = true
    · simpa [walk, hs] using h
    · rw [walk, if_neg hs] at h ⊢
      exact ih (by omega) h

end TriangularProbing
