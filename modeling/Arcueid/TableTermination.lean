import Arcueid.TableProbes

/-! Which table operations end. The load limit counts live entries only, so a
table can run out of never-used slots; then a lookup of an absent key has
nothing to stop at. -/

namespace Arcueid

open TriangularProbing

variable {K V : Type}

theorem loadLimit_lt (n : Nat) : loadLimit n < hashsize n := by
  have h : 0 < hashsize n := Nat.two_pow_pos n
  unfold loadLimit maxLoadFactor
  omega

theorem loadLimit_succ (n : Nat) : loadLimit n + 1 ≤ loadLimit (n + 1) := by
  have h : 0 < hashsize n := Nat.two_pow_pos n
  have h' : hashsize (n + 1) = 2 * hashsize n := by simp [hashsize, pow_succ, Nat.mul_comm]
  rw [loadLimit, loadLimit, h', maxLoadFactor]
  rcases Nat.eq_or_lt_of_le h with h1 | h1
  · rw [← h1]
  · omega

/-- What keeps an insertion going: live entries are counted, the count stays
within the load limit, and every bucket knows its slot. -/
structure Table.Sized (t : Table K V) : Prop where
  limit : t.llimit = loadLimit t.hashbits
  live_le : t.liveCount ≤ t.nentries
  le_limit : t.nentries ≤ t.llimit
  indexed : ∀ i e, i < t.tablesize → t.slot i = .bucket e → e.bindex = i

theorem arcMkhash_sized (n : Nat) : (arcMkhash n : Table K V).Sized where
  limit := rfl
  live_le := by simp [Table.liveCount, liveSlots, arcMkhash, Slot.emptyp]
  le_limit := Nat.zero_le _
  indexed := by simp [arcMkhash]

theorem liveSlots_succ (slot : Nat → Slot K V) (n : Nat) :
    liveSlots slot (n + 1) =
      if (slot n).emptyp = false then insert n (liveSlots slot n) else liveSlots slot n := by
  rw [liveSlots, Finset.range_add_one, Finset.filter_insert]
  rfl

theorem card_liveSlots_succ (slot : Nat → Slot K V) (n : Nat) :
    (liveSlots slot (n + 1)).card =
      (liveSlots slot n).card + if (slot n).emptyp = false then 1 else 0 := by
  rw [liveSlots_succ]
  split
  · rw [Finset.card_insert_of_notMem (by simp [mem_liveSlots])]
  · rfl

section Expand

variable {fuel b : Nat} {oldtbl newtbl newtbl' : Nat → Slot K V} {i : Nat}

/-- Moving one slot: nothing for an empty slot, otherwise the bucket goes to
the first empty slot of its probe path in the new vector. -/
theorem expandSlot_eq_some (h : expandSlot fuel oldtbl b newtbl i = some newtbl') :
    ((oldtbl i).emptyp = true ∧ newtbl' = newtbl) ∨
      ∃ e m, oldtbl i = .bucket e ∧
        (newtbl (probe b (uint e.bhashval) m)).emptyp = true ∧
        (∀ k, k < m → (newtbl (probe b (uint e.bhashval) k)).emptyp = false) ∧
        newtbl' = Function.update newtbl (probe b (uint e.bhashval) m)
          (.bucket { e with bindex := probe b (uint e.bhashval) m }) := by
  unfold expandSlot at h
  cases hs : oldtbl i with
  | bucket e =>
    simp only [hs, expandLoop_eq_walk, hashsize, Option.pure_def, Option.bind_eq_bind,
      Option.bind_eq_some_iff, Option.some.injEq] at h
    obtain ⟨index, hw, rfl⟩ := h
    obtain ⟨m, rfl, hstop, hpre⟩ := walk_home_eq_some hw
    exact .inr ⟨e, m, rfl, hstop, hpre, rfl⟩
  | cunbound => simp only [hs, Option.some.injEq] at h; exact .inl ⟨rfl, h.symm⟩
  | cundef => simp only [hs, Option.some.injEq] at h; exact .inl ⟨rfl, h.symm⟩

theorem expandSlot_terminates (oldtbl : Nat → Slot K V) (i : Nat) (hfuel : 2 ^ b + 1 ≤ fuel)
    (hroom : (liveSlots newtbl (2 ^ b)).card < 2 ^ b) :
    ∃ newtbl', expandSlot fuel oldtbl b newtbl i = some newtbl' := by
  unfold expandSlot
  split
  · next e he =>
    obtain ⟨r, hr, hempty⟩ := exists_empty_of_card_lt hroom
    obtain ⟨index, hw⟩ : ∃ index, walk (fun r => (newtbl r).emptyp) b (2 ^ b + 1)
        (uint e.bhashval % 2 ^ b) 0 = some index := walk_home_of_empty hr hempty
    simp [expandLoop_eq_walk, hashsize, walk_mono hfuel hw]
  · exact ⟨_, rfl⟩

theorem card_liveSlots_expandSlot (h : expandSlot fuel oldtbl b newtbl i = some newtbl') :
    (liveSlots newtbl' (2 ^ b)).card =
      (liveSlots newtbl (2 ^ b)).card + if (oldtbl i).emptyp = false then 1 else 0 := by
  rcases expandSlot_eq_some h with ⟨he, rfl⟩ | ⟨e, m, he, hempty, -, rfl⟩
  · simp [he]
  · rw [liveSlots_update_bucket (probe_lt b _ m) rfl, Finset.card_insert_of_notMem]
    · simp [he, Slot.emptyp]
    · simp [mem_liveSlots, hempty]

/-- The buckets moved so far, for every prefix of the old vector. -/
theorem card_liveSlots_expand {n : Nat}
    (h : (List.range n).foldlM (expandSlot fuel oldtbl b) (fun _ => .cunbound) = some newtbl) :
    (liveSlots newtbl (2 ^ b)).card = (liveSlots oldtbl n).card := by
  induction n generalizing newtbl with
  | zero =>
    simp only [List.range_zero, List.foldlM_nil, Option.pure_def, Option.some.injEq] at h
    subst h
    rw [liveSlots, Finset.filter_false_of_mem fun i _ => by simp [Slot.emptyp]]
    rfl
  | succ n ih =>
    rw [List.range_succ, List.foldlM_append] at h
    obtain ⟨mid, hmid, hstep⟩ := Option.bind_eq_some_iff.mp h
    simp only [List.foldlM_cons, List.foldlM_nil, bind_pure] at hstep
    rw [card_liveSlots_expandSlot hstep, ih hmid, card_liveSlots_succ]

theorem expand_terminates {n : Nat} (hfuel : 2 ^ b + 1 ≤ fuel)
    (hroom : (liveSlots oldtbl n).card < 2 ^ b) :
    ∃ newtbl, (List.range n).foldlM (expandSlot fuel oldtbl b) (fun _ => .cunbound) =
      some newtbl := by
  induction n with
  | zero => exact ⟨_, rfl⟩
  | succ n ih =>
    have hcard := card_liveSlots_succ oldtbl n
    obtain ⟨mid, hmid⟩ := ih (by omega)
    obtain ⟨newtbl, hnew⟩ := expandSlot_terminates oldtbl n hfuel
      (by rw [card_liveSlots_expand hmid]; omega)
    refine ⟨newtbl, ?_⟩
    rw [List.range_succ, List.foldlM_append, hmid]
    simpa using hnew

/-- What the new vector consists of: buckets of the old one, each with the index
of its new slot. -/
theorem expand_slot_cases {n : Nat}
    (h : (List.range n).foldlM (expandSlot fuel oldtbl b) (fun _ => .cunbound) = some newtbl)
    (i : Nat) :
    newtbl i = .cunbound ∨
      ∃ j e, oldtbl j = .bucket e ∧ newtbl i = .bucket { e with bindex := i } := by
  induction n generalizing newtbl with
  | zero =>
    simp only [List.range_zero, List.foldlM_nil, Option.pure_def, Option.some.injEq] at h
    subst h
    exact .inl rfl
  | succ n ih =>
    rw [List.range_succ, List.foldlM_append] at h
    obtain ⟨mid, hmid, hstep⟩ := Option.bind_eq_some_iff.mp h
    simp only [List.foldlM_cons, List.foldlM_nil, bind_pure] at hstep
    rcases expandSlot_eq_some hstep with ⟨-, rfl⟩ | ⟨e, m, he, -, -, rfl⟩
    · exact ih hmid
    · by_cases hi : i = probe b (uint e.bhashval) m
      · subst hi
        exact .inr ⟨n, e, he, Function.update_self ..⟩
      · rw [Function.update_of_ne hi]
        exact ih hmid

theorem indexed_expand {n : Nat}
    (h : (List.range n).foldlM (expandSlot fuel oldtbl b) (fun _ => .cunbound) = some newtbl) :
    ∀ i e, newtbl i = .bucket e → e.bindex = i := by
  intro i e he
  rcases expand_slot_cases h i with hi | ⟨j, e', -, hi⟩ <;> rw [hi] at he <;> cases he
  rfl

end Expand

theorem hashtableExpand_eq_some {fuel : Nat} {t t' : Table K V}
    (h : hashtableExpand fuel t = some t') :
    ∃ newtbl, (List.range t.tablesize).foldlM (expandSlot fuel t.slot (t.hashbits + 1))
        (fun _ => .cunbound) = some newtbl ∧
      t' = { t with hashbits := t.hashbits + 1, llimit := loadLimit (t.hashbits + 1),
                    slot := newtbl } := by
  obtain ⟨newtbl, hn, ht⟩ := Option.bind_eq_some_iff.mp h
  exact ⟨newtbl, hn, (Option.some.inj ht).symm⟩

/-- Expansion keeps every live entry and makes room for one more. -/
theorem hashtableExpand_sized {fuel : Nat} {t t' : Table K V} (ht : t.Sized)
    (h : hashtableExpand fuel t = some t') :
    t'.Sized ∧ t'.nentries = t.nentries ∧ t'.nentries + 1 ≤ t'.llimit := by
  obtain ⟨newtbl, hn, rfl⟩ := hashtableExpand_eq_some h
  have hlim := ht.le_limit
  rw [ht.limit] at hlim
  have hs := loadLimit_succ t.hashbits
  refine ⟨⟨rfl, ?_, by simp only; omega, fun i e _ => indexed_expand hn i e⟩, rfl,
    by simp only; omega⟩
  exact (card_liveSlots_expand hn).trans_le ht.live_le

theorem hashtableExpand_terminates {fuel : Nat} {t : Table K V} (ht : t.Sized)
    (hfuel : 2 ^ (t.hashbits + 1) + 1 ≤ fuel) : ∃ t', hashtableExpand fuel t = some t' := by
  have hlive : (liveSlots t.slot t.tablesize).card < 2 ^ (t.hashbits + 1) := by
    have h1 := ht.live_le
    have h2 := ht.le_limit
    have h3 := ht.limit
    have h4 := loadLimit_lt t.hashbits
    simp only [Table.liveCount, hashsize] at h1 h4
    omega
  obtain ⟨newtbl, hn⟩ := expand_terminates hfuel hlive
  exact ⟨_, Option.bind_eq_some_iff.mpr ⟨newtbl, hn, rfl⟩⟩

/-- The table an insertion of a new key works on, after the load check. -/
def Table.roomFor (fuel : Nat) (t : Table K V) : Option (Table K V) :=
  if t.nentries + 1 > t.llimit then hashtableExpand fuel t else some t

theorem roomFor_sized {fuel : Nat} {t t' : Table K V} (ht : t.Sized)
    (h : t.roomFor fuel = some t') :
    t'.Sized ∧ t'.nentries = t.nentries ∧ t'.nentries + 1 ≤ t'.llimit := by
  unfold Table.roomFor at h
  split at h
  · exact hashtableExpand_sized ht h
  · cases h
    exact ⟨ht, rfl, by omega⟩

/-- The second loop finds an empty slot: the load limit leaves one. -/
theorem exists_empty_of_room {t : Table K V} (ht : t.Sized) (hroom : t.nentries + 1 ≤ t.llimit) :
    ∃ i, i < t.tablesize ∧ (t.slot i).emptyp = true := by
  apply exists_empty_of_card_lt
  have h1 := ht.live_le
  have h2 := ht.limit
  have h3 : loadLimit t.hashbits < t.tablesize := loadLimit_lt t.hashbits
  rw [Table.liveCount] at h1
  omega

theorem insertNew_eq_bind (fuel : Nat) (kg : Keying K) (t : Table K V) (key : K)
    (val : Option V) (hashcode : Nat) :
    insertNew fuel kg t key val hashcode = (t.roomFor fuel).bind fun u =>
      (insertLoop kg { u with nentries := u.nentries + 1 } key fuel
        (hashcode % u.tablesize) 0).map fun index =>
          storeAt { u with nentries := u.nentries + 1 } index key val hashcode := by
  unfold insertNew Table.roomFor
  split <;> simp only [Option.bind_eq_bind, Option.pure_def, Option.map_eq_bind] <;> rfl

theorem insertNew_eq_some {fuel hashcode : Nat} {kg : Keying K} {t t' : Table K V} {key : K}
    {val : Option V} (h : insertNew fuel kg t key val hashcode = some t') :
    ∃ u index, t.roomFor fuel = some u ∧
      insertLoop kg { u with nentries := u.nentries + 1 } key fuel
        (hashcode % u.tablesize) 0 = some index ∧
      t' = storeAt { u with nentries := u.nentries + 1 } index key val hashcode := by
  rw [insertNew_eq_bind] at h
  obtain ⟨u, hu, h⟩ := Option.bind_eq_some_iff.mp h
  obtain ⟨index, hi, ht'⟩ := Option.map_eq_some_iff.mp h
  exact ⟨u, index, hu, hi, ht'.symm⟩

/-- Storing at the slot where the second loop stopped adds at most one entry. -/
theorem storeAt_sized {t : Table K V} {index hashcode : Nat} {key : K} {val : Option V}
    (ht : t.Sized) (hindex : index < t.tablesize) (hroom : t.nentries + 1 ≤ t.llimit) :
    (storeAt { t with nentries := t.nentries + 1 } index key val hashcode).Sized := by
  have hcard : ∀ s : Slot K V, s.emptyp = false →
      (liveSlots (Function.update t.slot index s) t.tablesize).card ≤ t.nentries + 1 := by
    intro s hs
    rw [liveSlots_update_bucket hindex hs]
    exact (Finset.card_insert_le _ _).trans (Nat.succ_le_succ ht.live_le)
  unfold storeAt
  split
  · next e he =>
    refine ⟨ht.limit, hcard _ rfl, hroom, fun i e' hi hb => ?_⟩
    by_cases hii : i = index
    · subst hii
      simp only [Table.setSlot, Function.update_self, Slot.bucket.injEq] at hb
      rw [← hb]
      exact ht.indexed i e hi he
    · simp only [Table.setSlot, Function.update_of_ne hii] at hb
      exact ht.indexed i e' hi hb
  · refine ⟨ht.limit, hcard _ rfl, hroom, fun i e' hi hb => ?_⟩
    by_cases hii : i = index
    · subst hii
      simp only [Table.setSlot, Function.update_self, Slot.bucket.injEq] at hb
      rw [← hb]
    · simp only [Table.setSlot, Function.update_of_ne hii] at hb
      exact ht.indexed i e' hi hb

theorem insertNew_sized {fuel hashcode : Nat} {kg : Keying K} {t t' : Table K V} {key : K}
    {val : Option V} (ht : t.Sized) (h : insertNew fuel kg t key val hashcode = some t') :
    t'.Sized := by
  obtain ⟨u, index, hu, hi, rfl⟩ := insertNew_eq_some h
  obtain ⟨hs, -, hroom⟩ := roomFor_sized ht hu
  rw [insertLoop_eq_walk] at hi
  obtain ⟨m, rfl, -, -⟩ := walk_home_eq_some hi
  exact storeAt_sized hs (probe_lt _ _ m) hroom

theorem insertNew_terminates {t : Table K V} (ht : t.Sized) (kg : Keying K) (key : K)
    (val : Option V) (hashcode : Nat) :
    ∃ fuel t', insertNew fuel kg t key val hashcode = some t' := by
  let fuel := 2 ^ (t.hashbits + 1) + 1
  have hroom : ∃ u, t.roomFor fuel = some u ∧ u.hashbits ≤ t.hashbits + 1 := by
    unfold Table.roomFor
    split
    · obtain ⟨u, hu⟩ := hashtableExpand_terminates ht (le_refl fuel)
      obtain ⟨_, -, rfl⟩ := hashtableExpand_eq_some hu
      exact ⟨_, hu, le_refl _⟩
    · exact ⟨t, rfl, Nat.le_succ _⟩
  obtain ⟨u, hu, hbits⟩ := hroom
  obtain ⟨hs, -, hle⟩ := roomFor_sized ht hu
  obtain ⟨i, hi, hempty⟩ := exists_empty_of_room hs hle
  obtain ⟨index, hw⟩ : ∃ index, walk (fun r => (u.slot r).emptyp || (u.slot r).holds kg key)
      u.hashbits (2 ^ u.hashbits + 1) (hashcode % 2 ^ u.hashbits) 0 = some index :=
    walk_home_of_empty hi (by simp [hempty])
  have hfuel : 2 ^ u.hashbits + 1 ≤ fuel :=
    Nat.succ_le_succ (Nat.pow_le_pow_right (by decide) hbits)
  have hloop : insertLoop kg { u with nentries := u.nentries + 1 } key fuel
      (hashcode % u.tablesize) 0 = some index := by
    rw [insertLoop_eq_walk]
    exact walk_mono hfuel hw
  exact ⟨fuel, _, (insertNew_eq_bind fuel kg t key val hashcode).trans
    (Option.bind_eq_some_iff.mpr ⟨u, hu, Option.map_eq_some_iff.mpr ⟨index, hloop, rfl⟩⟩)⟩

end Arcueid
