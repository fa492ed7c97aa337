import Mathlib.Data.Finset.Card
import Mathlib.Logic.Function.Basic

/-! A table of slots, each empty or with a key and a value, that holds a finite map:
every key of the map is in one slot. -/

namespace Arcueid.SlotTable

variable {I K V : Type} [DecidableEq I] [DecidableEq K]

structure Holds (s : I → Option (K × V)) (f : K → Option V) : Prop where
  value_iff : ∀ k v, f k = some v ↔ ∃ i, s i = some (k, v)
  unique : ∀ i j k v w, s i = some (k, v) → s j = some (k, w) → i = j

/-- The number of keys of a map. -/
def HasSize (f : K → Option V) (n : Nat) : Prop :=
  ∃ keys : Finset K, (∀ k, k ∈ keys ↔ (f k).isSome) ∧ keys.card = n

section Slots

variable {s : I → Option (K × V)} {f : K → Option V} {i j : I} {k e : K} {v w : V}

omit [DecidableEq I] [DecidableEq K] in
theorem Holds.value (h : Holds s f) (hi : s i = some (k, v)) : f k = some v :=
  (h.value_iff k v).mpr ⟨i, hi⟩

omit [DecidableEq I] [DecidableEq K] in
theorem Holds.not_in (h : Holds s f) (hk : f k = none) (i : I) (v : V) : s i ≠ some (k, v) := by
  intro hi
  rw [h.value hi] at hk
  cases hk

omit [DecidableEq I] [DecidableEq K] in
theorem holds_empty : Holds (fun _ : I => (none : Option (K × V))) fun _ => none where
  value_iff := by simp
  unique := by simp

/-- A slot is emptied. -/
theorem Holds.remove (h : Holds s f) (hi : s i = some (k, v)) :
    Holds (Function.update s i none) (Function.update f k none) where
  value_iff k' v' := by
    by_cases hk : k' = k
    · subst hk
      rw [Function.update_self]
      refine iff_of_false (by simp) ?_
      rintro ⟨j, hj⟩
      by_cases hji : j = i
      · rw [hji, Function.update_self] at hj
        cases hj
      · rw [Function.update_of_ne hji] at hj
        exact hji (h.unique _ _ _ _ _ hj hi)
    · rw [Function.update_of_ne hk, h.value_iff]
      constructor
      · rintro ⟨j, hj⟩
        refine ⟨j, ?_⟩
        have hji : j ≠ i := by
          rintro rfl
          rw [hi] at hj
          cases hj
          exact hk rfl
        rwa [Function.update_of_ne hji]
      · rintro ⟨j, hj⟩
        by_cases hji : j = i
        · rw [hji, Function.update_self] at hj
          cases hj
        · exact ⟨j, by rwa [Function.update_of_ne hji] at hj⟩
  unique a b k' v' w' ha hb := by
    have hne : ∀ c x, Function.update s i none c = some x → s c = some x := by
      intro c x hc
      by_cases hci : c = i
      · rw [hci, Function.update_self] at hc
        cases hc
      · rwa [Function.update_of_ne hci] at hc
    exact h.unique a b k' v' w' (hne _ _ ha) (hne _ _ hb)

/-- A new key is put in an empty slot. -/
theorem Holds.insert (h : Holds s f) (hi : s i = none) (hk : f k = none) (v : V) :
    Holds (Function.update s i (some (k, v))) (Function.update f k (some v)) where
  value_iff k' v' := by
    by_cases hkk : k' = k
    · subst hkk
      rw [Function.update_self]
      constructor
      · rintro hv
        exact ⟨i, by rw [Function.update_self, Option.some.inj hv]⟩
      · rintro ⟨j, hj⟩
        by_cases hji : j = i
        · rw [hji, Function.update_self] at hj
          cases hj
          rfl
        · rw [Function.update_of_ne hji] at hj
          exact absurd hj (h.not_in hk j v')
    · rw [Function.update_of_ne hkk, h.value_iff]
      constructor
      · rintro ⟨j, hj⟩
        refine ⟨j, ?_⟩
        have hji : j ≠ i := by
          rintro rfl
          rw [hi] at hj
          cases hj
        rwa [Function.update_of_ne hji]
      · rintro ⟨j, hj⟩
        by_cases hji : j = i
        · rw [hji, Function.update_self] at hj
          cases hj
          exact absurd rfl hkk
        · exact ⟨j, by rwa [Function.update_of_ne hji] at hj⟩
  unique a b k' v' w' ha hb := by
    by_cases hai : a = i
    · by_cases hbi : b = i
      · exact hai.trans hbi.symm
      · rw [hai, Function.update_self] at ha
        rw [Function.update_of_ne hbi] at hb
        cases ha
        exact absurd hb (h.not_in hk b w')
    · rw [Function.update_of_ne hai] at ha
      by_cases hbi : b = i
      · rw [hbi, Function.update_self] at hb
        cases hb
        exact absurd ha (h.not_in hk a v')
      · rw [Function.update_of_ne hbi] at hb
        exact h.unique a b k' v' w' ha hb

/-- A slot is given another value for its key. -/
theorem Holds.replace (h : Holds s f) (hi : s i = some (k, w)) (v : V) :
    Holds (Function.update s i (some (k, v))) (Function.update f k (some v)) := by
  have hout := (h.remove hi).insert (i := i) (Function.update_self _ _ _) (Function.update_self _ _ _) v
  rwa [Function.update_idem, Function.update_idem] at hout

/-- A new key takes the place of another one. -/
theorem Holds.evict (h : Holds s f) (hi : s i = some (e, w)) (hk : f k = none) (v : V) :
    Holds (Function.update s i (some (k, v)))
      (Function.update (Function.update f e none) k (some v)) := by
  have hnone : Function.update f e none k = none := by
    by_cases hke : k = e
    · rw [hke, Function.update_self]
    · rwa [Function.update_of_ne hke]
  have hout := (h.remove hi).insert (i := i) (Function.update_self _ _ _) hnone v
  rwa [Function.update_idem] at hout

/-- A key goes to another slot, whose key is gone. -/
theorem Holds.move (h : Holds s f) (hi : s i = some (k, v)) (hj : s j = some (e, w)) (hij : i ≠ j) :
    Holds (Function.update (Function.update s i (some (e, w))) j none) (Function.update f k none) := by
  have hke : e ≠ k := by
    rintro rfl
    exact hij (h.unique _ _ _ _ _ hi hj)
  have hj' : Function.update s i none j = some (e, w) := by
    rwa [Function.update_of_ne (Ne.symm hij)]
  have hboth := (h.remove hi).remove hj'
  have hempty : Function.update (Function.update s i none) j none i = none := by
    rw [Function.update_of_ne hij, Function.update_self]
  have hout := hboth.insert hempty (Function.update_self _ _ _) w
  have hslots : Function.update (Function.update (Function.update s i none) j none) i (some (e, w)) =
      Function.update (Function.update s i (some (e, w))) j none := by
    rw [Function.update_comm (Ne.symm hij), Function.update_idem]
  have hvalues : Function.update (Function.update (Function.update f k none) e none) e (some w) =
      Function.update f k none := by
    rw [Function.update_idem, Function.update_eq_self_iff, Function.update_of_ne hke]
    exact (h.value hj).symm
  rwa [hslots, hvalues] at hout

end Slots

section Sizes

variable {f : K → Option V} {k : K} {v w : V} {n m : Nat}

omit [DecidableEq K] in
theorem hasSize_zero : HasSize (fun _ : K => (none : Option V)) 0 := ⟨∅, by simp, rfl⟩

omit [DecidableEq K] in
theorem HasSize.eq_none (h : HasSize f 0) (k : K) : f k = none := by
  obtain ⟨keys, hkeys, hcard⟩ := h
  rw [Finset.card_eq_zero.mp hcard] at hkeys
  simpa using hkeys k

omit [DecidableEq K] in
theorem HasSize.unique (h : HasSize f n) (h' : HasSize f m) : n = m := by
  obtain ⟨keys, hkeys, rfl⟩ := h
  obtain ⟨keys', hkeys', rfl⟩ := h'
  have heq : keys = keys' := Finset.ext fun k => (hkeys k).trans (hkeys' k).symm
  rw [heq]

theorem HasSize.insert (h : HasSize f n) (hk : f k = none) (v : V) :
    HasSize (Function.update f k (some v)) (n + 1) := by
  obtain ⟨keys, hkeys, hcard⟩ := h
  have hnot : k ∉ keys := by simp [hkeys, hk]
  refine ⟨Insert.insert k keys, fun k' => ?_, by rw [Finset.card_insert_of_notMem hnot, hcard]⟩
  by_cases hkk : k' = k
  · simp [hkk]
  · simp [hkk, hkeys]

theorem HasSize.replace (h : HasSize f n) (hk : f k = some w) (v : V) :
    HasSize (Function.update f k (some v)) n := by
  obtain ⟨keys, hkeys, hcard⟩ := h
  refine ⟨keys, fun k' => ?_, hcard⟩
  by_cases hkk : k' = k
  · simp [hkk, hkeys, hk]
  · simp [hkk, hkeys]

theorem HasSize.remove (h : HasSize f n) (hk : f k = some w) :
    HasSize (Function.update f k none) (n - 1) := by
  obtain ⟨keys, hkeys, hcard⟩ := h
  have hmem : k ∈ keys := by simp [hkeys, hk]
  refine ⟨keys.erase k, fun k' => ?_, by rw [Finset.card_erase_of_mem hmem, hcard]⟩
  by_cases hkk : k' = k
  · simp [hkk]
  · simp [hkk, hkeys]

theorem HasSize.evict {e : K} (h : HasSize f n) (he : f e = some w) (hk : f k = none) (v : V) :
    HasSize (Function.update (Function.update f e none) k (some v)) n := by
  have hpos : n ≠ 0 := by
    rintro rfl
    rw [h.eq_none e] at he
    cases he
  have hnone : Function.update f e none k = none := by
    by_cases hke : k = e
    · rw [hke, Function.update_self]
    · rwa [Function.update_of_ne hke]
  have hout := (h.remove he).insert hnone v
  rwa [Nat.sub_add_cancel (Nat.one_le_iff_ne_zero.mpr hpos)] at hout

end Sizes

end Arcueid.SlotTable
