import Mathlib.Data.Finset.Card
import Arcueid.Lib.TriangularProbing
import Arcueid.Table

/-! The probing loops of the tables are triangular walks, so each one ends
exactly when the vector has a slot that stops it. -/

namespace Arcueid

open TriangularProbing

variable {K V : Type}

def Slot.bucket? : Slot K V → Option (Bucket K V)
  | .bucket e => some e
  | _ => none

/-- The slots where a lookup stops: never used, or holding the key. -/
def Slot.stops (kg : Keying K) (key : K) : Slot K V → Bool
  | .cunbound => true
  | .cundef => false
  | .bucket e => kg.same e.bkey key

theorem lookupLoop_eq_walk (kg : Keying K) (t : Table K V) (key : K) (fuel index i : Nat) :
    lookupLoop kg t key fuel index i =
      (walk (fun r => (t.slot r).stops kg key) t.hashbits fuel
        ((index + i) % 2 ^ t.hashbits) (i + 1)).map fun r => (r, (t.slot r).bucket?) := by
  induction fuel generalizing index i with
  | zero => rfl
  | succ fuel ih =>
    have hi := ih ((index + i) % 2 ^ t.hashbits) (i + 1)
    rw [lookupLoop, walk]
    simp only [Table.tablesize, hashsize]
    cases hs : t.slot ((index + i) % 2 ^ t.hashbits) with
    | cunbound => simp [Slot.stops, Slot.bucket?, hs]
    | cundef => simpa [Slot.stops] using hi
    | bucket e =>
      by_cases hk : kg.same e.bkey key = true
      · simp [Slot.stops, Slot.bucket?, hs, hk]
      · simpa [Slot.stops, hk] using hi

theorem probeFor_eq_walk (fuel : Nat) (kg : Keying K) (t : Table K V) (key : K) :
    probeFor fuel kg t key =
      (walk (fun r => (t.slot r).stops kg key) t.hashbits fuel
        (probe t.hashbits (uint (kg.hash key)) 0) 1).map fun r => (r, (t.slot r).bucket?) := by
  rw [probeFor, lookupLoop_eq_walk]
  simp [Table.tablesize, hashsize]

theorem insertLoop_eq_walk (kg : Keying K) (t : Table K V) (key : K) (fuel index i : Nat) :
    insertLoop kg t key fuel index i =
      walk (fun r => (t.slot r).emptyp || (t.slot r).holds kg key) t.hashbits fuel index i := by
  induction fuel generalizing index i with
  | zero => rfl
  | succ fuel ih => rw [insertLoop, walk, ih, Table.tablesize, hashsize]

theorem expandLoop_eq_walk (newtbl : Nat → Slot K V) (b fuel index i : Nat) :
    expandLoop newtbl b fuel index i = walk (fun r => (newtbl r).emptyp) b fuel index i := by
  induction fuel generalizing index i with
  | zero => rfl
  | succ fuel ih => rw [expandLoop, walk, ih, hashsize]

/-- A lookup stops at the first slot of the probe path that stops it. -/
theorem probeFor_eq_some_iff {fuel : Nat} {kg : Keying K} {t : Table K V} {key : K} {r : Nat}
    {e : Option (Bucket K V)} :
    probeFor fuel kg t key = some (r, e) ↔
      e = (t.slot r).bucket? ∧ ∃ m, m < fuel ∧ r = probe t.hashbits (uint (kg.hash key)) m ∧
        (t.slot r).stops kg key = true ∧
        ∀ k, k < m → (t.slot (probe t.hashbits (uint (kg.hash key)) k)).stops kg key = false := by
  rw [probeFor_eq_walk, Option.map_eq_some_iff]
  simp only [Prod.mk.injEq]
  constructor
  · rintro ⟨_, hw, rfl, rfl⟩
    obtain ⟨m, -, hm, hr, hs, hpre⟩ := walk_eq_some_iff.mp hw
    exact ⟨rfl, m, by omega, hr, hs, fun k hk => hpre k (Nat.zero_le k) hk⟩
  · rintro ⟨rfl, m, hm, hr, hs, hpre⟩
    exact ⟨r, walk_eq_some_iff.mpr
      ⟨m, Nat.zero_le m, by omega, hr, hs, fun k _ hk => hpre k hk⟩, rfl, rfl⟩

theorem probeFor_terminates_iff {kg : Keying K} {t : Table K V} {key : K} :
    (∃ fuel r, probeFor fuel kg t key = some r) ↔
      ∃ i, i < t.tablesize ∧ (t.slot i).stops kg key = true := by
  rw [show t.tablesize = 2 ^ t.hashbits from rfl, ← walk_terminates_iff]
  simp only [probeFor_eq_walk, Option.map_eq_some_iff]
  constructor
  · rintro ⟨fuel, _, r, hr, rfl⟩
    exact ⟨fuel, r, hr⟩
  · rintro ⟨fuel, r, hr⟩
    exact ⟨fuel, _, r, hr, rfl⟩

theorem probeFor_mono {fuel fuel' : Nat} {kg : Keying K} {t : Table K V} {key : K}
    {r : Nat × Option (Bucket K V)} (hle : fuel ≤ fuel')
    (h : probeFor fuel kg t key = some r) : probeFor fuel' kg t key = some r := by
  rw [probeFor_eq_walk, Option.map_eq_some_iff] at h ⊢
  obtain ⟨i, hi, rfl⟩ := h
  exact ⟨i, walk_mono hle hi, rfl⟩

/-- A loop that starts at the home slot of `start` and stops at empty slots
ends within one round if the vector has an empty slot. -/
theorem walk_home_of_empty {stop : Nat → Bool} {b start r : Nat} (hr : r < 2 ^ b)
    (hs : stop r = true) : ∃ i, walk stop b (2 ^ b + 1) (start % 2 ^ b) 0 = some i := by
  obtain ⟨n, hn, rfl⟩ := exists_probe_eq b start hr
  rw [← probe_zero, walk_zero]
  split
  · exact ⟨_, rfl⟩
  · have hex : ∃ m, stop (probe b start m) = true := ⟨n, hs⟩
    have hlt := Nat.find_min' hex hs
    refine ⟨_, walk_eq_some_iff.mpr
      ⟨Nat.find hex, Nat.zero_le _, by omega, rfl, Nat.find_spec hex, fun k _ hk => ?_⟩⟩
    simpa using Nat.find_min hex hk

/-- The slot where such a loop stops, and the path it leaves behind. -/
theorem walk_home_eq_some {stop : Nat → Bool} {b start fuel r : Nat}
    (h : walk stop b fuel (start % 2 ^ b) 0 = some r) :
    ∃ m, r = probe b start m ∧ stop r = true ∧
      ∀ k, k < m → stop (probe b start k) = false := by
  cases fuel with
  | zero => simp [walk] at h
  | succ fuel =>
    rw [← probe_zero, walk_zero] at h
    split at h
    · next hs =>
      cases h
      exact ⟨0, rfl, hs, fun k hk => absurd hk (Nat.not_lt_zero k)⟩
    · obtain ⟨m, -, -, hr, hs, hpre⟩ := walk_eq_some_iff.mp h
      exact ⟨m, hr, hs, fun k hk => hpre k (Nat.zero_le k) hk⟩

section Live

/-- The slots below `n` that hold a bucket. -/
def liveSlots (slot : Nat → Slot K V) (n : Nat) : Finset Nat :=
  (Finset.range n).filter fun i => (slot i).emptyp = false

theorem mem_liveSlots {slot : Nat → Slot K V} {n i : Nat} :
    i ∈ liveSlots slot n ↔ i < n ∧ (slot i).emptyp = false := by
  simp [liveSlots]

def Table.liveCount (t : Table K V) : Nat := (liveSlots t.slot t.tablesize).card

theorem arcHashLength_eq_liveCount (t : Table K V) : arcHashLength t = t.liveCount := by
  rw [arcHashLength, Table.liveCount, liveSlots, List.countP_eq_length_filter]
  rw [← List.toFinset_card_of_nodup (List.nodup_range.filter _)]
  congr 1
  ext i
  simp

theorem exists_empty_of_card_lt {slot : Nat → Slot K V} {n : Nat}
    (h : (liveSlots slot n).card < n) : ∃ i, i < n ∧ (slot i).emptyp = true := by
  by_contra hc
  have hall : liveSlots slot n = Finset.range n := by
    apply Finset.filter_true_of_mem
    intro i hi
    simpa using fun he => hc ⟨i, Finset.mem_range.mp hi, he⟩
  simp [hall] at h

theorem liveSlots_update_bucket {slot : Nat → Slot K V} {n index : Nat} {s : Slot K V}
    (hi : index < n) (hs : s.emptyp = false) :
    liveSlots (Function.update slot index s) n = insert index (liveSlots slot n) := by
  ext i
  by_cases he : i = index
  · subst he; simp [mem_liveSlots, hi, hs]
  · simp [mem_liveSlots, he]

theorem liveSlots_update_empty {slot : Nat → Slot K V} {n index : Nat} {s : Slot K V}
    (hs : s.emptyp = true) :
    liveSlots (Function.update slot index s) n = (liveSlots slot n).erase index := by
  ext i
  by_cases he : i = index
  · subst he; simp [mem_liveSlots, hs]
  · simp [mem_liveSlots, he]

variable {t : Table K V} {r : Nat} {s : Slot K V}

theorem liveCount_setSlot_new (hr : r < t.tablesize) (hold : (t.slot r).emptyp = true)
    (hs : s.emptyp = false) : (t.setSlot r s).liveCount = t.liveCount + 1 := by
  change (liveSlots (Function.update t.slot r s) t.tablesize).card = _
  rw [liveSlots_update_bucket hr hs, Finset.card_insert_of_notMem (by simp [mem_liveSlots, hold])]
  rfl

theorem liveCount_setSlot_live (hr : r < t.tablesize) (hold : (t.slot r).emptyp = false)
    (hs : s.emptyp = false) : (t.setSlot r s).liveCount = t.liveCount := by
  change (liveSlots (Function.update t.slot r s) t.tablesize).card = _
  rw [liveSlots_update_bucket hr hs, Finset.insert_eq_of_mem (mem_liveSlots.mpr ⟨hr, hold⟩)]
  rfl

theorem liveCount_setSlot_bury (hr : r < t.tablesize) (hold : (t.slot r).emptyp = false)
    (hs : s.emptyp = true) : (t.setSlot r s).liveCount = t.liveCount - 1 := by
  change (liveSlots (Function.update t.slot r s) t.tablesize).card = _
  rw [liveSlots_update_empty hs, Finset.card_erase_of_mem (mem_liveSlots.mpr ⟨hr, hold⟩)]
  rfl

end Live

end Arcueid
