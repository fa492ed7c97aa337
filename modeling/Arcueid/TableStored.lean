import Arcueid.TableRuns

/-! What an insertion leaves in a table: the binding is found again, and no key
is new but the one inserted. -/

namespace Arcueid

open TriangularProbing

section Inserted

variable {K V : Type} {fuel : Nat} {kg : Keying K} {t t' : Table K V} {key : K} {v : V}
  {r : Option V}

theorem probeFor_of_path {m : Nat} {e : Bucket K V}
    (hslot : t.slot (probe t.hashbits (uint (kg.hash key)) m) = .bucket e)
    (hkey : kg.same e.bkey key = true)
    (hpre : ∀ k, k < m →
      (t.slot (probe t.hashbits (uint (kg.hash key)) k)).stops kg key = false) :
    probeFor (m + 1) kg t key =
      some (probe t.hashbits (uint (kg.hash key)) m, some e) := by
  refine probeFor_eq_some_iff.mpr ⟨?_, m, Nat.lt_succ_self m, rfl, ?_, hpre⟩
  · rw [hslot]
    rfl
  · rw [hslot]
    exact hkey

/-- The probe after a bucket was given another value. -/
theorem probeFor_overwrite {i : Nat} {b : Bucket K V} {val : Option V}
    (hp : probeFor fuel kg t key = some (i, some b)) :
    probeFor fuel kg (t.setSlot i (.bucket { b with bvalue := val })) key =
      some (i, some { b with bvalue := val }) := by
  have hb := slot_of_probeFor hp
  obtain ⟨-, m, hm, hi, hs, hpre⟩ := probeFor_eq_some_iff.mp hp
  have hstops : ∀ j, ((t.setSlot i (.bucket { b with bvalue := val })).slot j).stops kg key =
      (t.slot j).stops kg key := by
    intro j
    by_cases hj : j = i
    · subst hj
      simp [Table.setSlot, hb, Slot.stops]
    · simp [Table.setSlot, hj]
  refine probeFor_eq_some_iff.mpr ⟨?_, m, hm, hi, ?_, fun k hk => ?_⟩
  · simp [Table.setSlot, Slot.bucket?]
  · rw [hstops, hs]
  · rw [hstops]
    exact hpre k hk

theorem storeAt_of_stop {index : Nat} (hashcode : Nat) (v : V) (hrefl : kg.same key key = true)
    (hstop : ((t.slot index).emptyp || (t.slot index).holds kg key) = true) :
    ∃ e, storeAt t index key (some v) hashcode = t.setSlot index (.bucket e) ∧
      e.bvalue = some v ∧ kg.same e.bkey key = true := by
  unfold storeAt
  split
  · next e he =>
    refine ⟨_, rfl, rfl, ?_⟩
    simpa [he, Slot.emptyp, Slot.holds] using hstop
  · exact ⟨_, rfl, rfl, hrefl⟩

theorem probeFor_of_insertNew {hashcode : Nat} (hrefl : kg.same key key = true)
    (hcode : hashcode % t'.tablesize = uint (kg.hash key) % t'.tablesize)
    (h : insertNew fuel kg t key (some v) hashcode = some t') :
    ∃ n i e, probeFor n kg t' key = some (i, some e) ∧ e.bvalue = some v := by
  obtain ⟨u, index, -, hloop, rfl⟩ := insertNew_eq_some h
  rw [insertLoop_eq_walk] at hloop
  obtain ⟨m, hindex, hstop, hpre⟩ := walk_home_eq_some hloop
  obtain ⟨e, hstore, hval, hkey⟩ := storeAt_of_stop hashcode v hrefl hstop
  rw [hstore] at hcode ⊢
  have hprobe : ∀ k, probe u.hashbits (uint (kg.hash key)) k = probe u.hashbits hashcode k := by
    intro k
    rw [probe, probe, Nat.add_mod, ← show hashcode % 2 ^ u.hashbits =
      uint (kg.hash key) % 2 ^ u.hashbits from hcode, ← Nat.add_mod]
  refine ⟨_, _, e, probeFor_of_path (m := m) ?_ hkey fun k hk => ?_, hval⟩
  · simp [Table.setSlot, hprobe, hindex]
  · have hk' := hpre k hk
    have hne : probe u.hashbits hashcode k ≠ index := by
      rintro heq
      rw [heq, hstop] at hk'
      cases hk'
    simp only [Table.setSlot, hprobe, Function.update_of_ne hne]
    simp only [Bool.or_eq_false_iff] at hk'
    cases hs : u.slot (probe u.hashbits hashcode k) with
    | bucket e => simpa [hs, Slot.holds, Slot.stops] using hk'.2
    | cunbound => simp [hs, Slot.emptyp] at hk'
    | cundef => rfl

/-- What the simple interface stored under a key, a probe for the key finds. -/
theorem probeFor_of_arcHashInsert (hrefl : kg.same key key = true)
    (h : arcHashInsert fuel kg t key (some v) = some (t', r)) :
    ∃ n i e, probeFor n kg t' key = some (i, some e) ∧ e.bvalue = some v := by
  cases hp : probeFor fuel kg t key with
  | none => simp [arcHashInsert_of_none hp] at h
  | some p =>
    obtain ⟨i, e⟩ := p
    by_cases he : e.bind Bucket.bvalue = none
    · rw [arcHashInsert_of_unbound hp he, Option.map_eq_some_iff] at h
      obtain ⟨u, hu, heq⟩ := h
      cases heq
      exact probeFor_of_insertNew hrefl rfl hu
    · cases e with
      | none => exact absurd rfl he
      | some b =>
        rw [arcHashInsert_of_bound hp he] at h
        cases h
        exact ⟨fuel, i, _, probeFor_overwrite hp, rfl⟩

/-- What the general interface stored under a key, a probe for the key finds. -/
theorem probeFor_of_arcXhashInsert (hrefl : kg.same key key = true)
    (hbits : t'.hashbits ≤ 32)
    (h : arcXhashInsert fuel kg t key (some v) = some (t', r)) :
    ∃ n i e, probeFor n kg t' key = some (i, some e) ∧ e.bvalue = some v := by
  cases hp : probeFor fuel kg t key with
  | none => simp [arcXhashInsert, hp] at h
  | some p =>
    obtain ⟨i, e⟩ := p
    cases e with
    | none =>
      rw [arcXhashInsert_of_missing hp, Option.map_eq_some_iff] at h
      obtain ⟨u, hu, heq⟩ := h
      cases heq
      refine probeFor_of_insertNew hrefl ?_ hu
      rw [uint, Table.tablesize, hashsize, Nat.mod_mod_of_dvd _ (Nat.pow_dvd_pow 2 hbits)]
    | some b =>
      rw [arcXhashInsert_of_found hp] at h
      cases h
      exact ⟨fuel, i, _, probeFor_overwrite hp, rfl⟩

end Inserted

section Keys

variable {K V : Type} {fuel : Nat} {kg kg' : Keying K} {t t' : Table K V} {key : K}
  {val r : Option V} {P : K → Prop}

/-- Every key of the table is one of `P`. -/
def Table.KeysIn (P : K → Prop) (t : Table K V) : Prop := ∀ i e, t.slot i = .bucket e → P e.bkey

theorem Table.KeysIn.setSlot {i : Nat} {e : Bucket K V} (ht : t.KeysIn P) (he : P e.bkey) :
    (t.setSlot i (.bucket e)).KeysIn P := by
  intro j e' hj
  by_cases hji : j = i
  · subst hji
    simp only [Table.setSlot, Function.update_self, Slot.bucket.injEq] at hj
    rwa [← hj]
  · simp only [Table.setSlot, Function.update_of_ne hji] at hj
    exact ht j e' hj

theorem Table.KeysIn.bury {i n : Nat} (ht : t.KeysIn P) :
    ({ t with nentries := n }.setSlot i .cundef).KeysIn P := by
  intro j e hj
  by_cases hji : j = i
  · subst hji
    simp [Table.setSlot] at hj
  · simp only [Table.setSlot, Function.update_of_ne hji] at hj
    exact ht j e hj

theorem Table.KeysIn.hashtableExpand (ht : t.KeysIn P)
    (h : Arcueid.hashtableExpand fuel t = some t') : t'.KeysIn P := by
  obtain ⟨newtbl, hn, rfl⟩ := hashtableExpand_eq_some h
  intro i e he
  rcases expand_slot_cases hn i with hi | ⟨j, e', hj, hi⟩
  · exact absurd (hi.symm.trans he) nofun
  · cases hi.symm.trans he
    exact ht j e' hj

theorem Table.KeysIn.roomFor (ht : t.KeysIn P) (h : t.roomFor fuel = some t') : t'.KeysIn P := by
  unfold Table.roomFor at h
  split at h
  · exact ht.hashtableExpand h
  · cases h
    exact ht

theorem Table.KeysIn.insertNew {hashcode : Nat} (ht : t.KeysIn P) (hkey : P key)
    (h : Arcueid.insertNew fuel kg t key val hashcode = some t') : t'.KeysIn P := by
  obtain ⟨u, index, hu, -, rfl⟩ := insertNew_eq_some h
  have hu : u.KeysIn P := ht.roomFor hu
  have hP : Table.KeysIn P { u with nentries := u.nentries + 1 } := hu
  unfold storeAt
  split
  · next e he => exact hP.setSlot (hP index e he)
  · exact hP.setSlot hkey

theorem Table.KeysIn.arcHashInsert (ht : t.KeysIn P) (hkey : P key)
    (h : Arcueid.arcHashInsert fuel kg t key val = some (t', r)) : t'.KeysIn P := by
  cases hp : probeFor fuel kg t key with
  | none => simp [arcHashInsert_of_none hp] at h
  | some p =>
    obtain ⟨i, e⟩ := p
    by_cases he : e.bind Bucket.bvalue = none
    · rw [arcHashInsert_of_unbound hp he, Option.map_eq_some_iff] at h
      obtain ⟨u, hu, heq⟩ := h
      cases heq
      exact ht.insertNew hkey hu
    · cases e with
      | none => exact absurd rfl he
      | some b =>
        rw [arcHashInsert_of_bound hp he] at h
        cases h
        exact Table.KeysIn.setSlot ht (ht i b (slot_of_probeFor hp))

theorem Table.KeysIn.arcXhashInsert (ht : t.KeysIn P) (hkey : P key)
    (h : Arcueid.arcXhashInsert fuel kg t key val = some (t', r)) : t'.KeysIn P := by
  cases hp : probeFor fuel kg t key with
  | none => simp [Arcueid.arcXhashInsert, hp] at h
  | some p =>
    obtain ⟨i, e⟩ := p
    cases e with
    | none =>
      rw [arcXhashInsert_of_missing hp, Option.map_eq_some_iff] at h
      obtain ⟨u, hu, heq⟩ := h
      cases heq
      exact ht.insertNew hkey hu
    | some b =>
      rw [arcXhashInsert_of_found hp] at h
      cases h
      exact Table.KeysIn.setSlot ht (ht i b (slot_of_probeFor hp))

theorem Table.KeysIn.arcHashDelete (ht : t.KeysIn P)
    (h : Arcueid.arcHashDelete fuel kg t key = some (t', r)) : t'.KeysIn P := by
  cases hp : probeFor fuel kg t key with
  | none => simp [Arcueid.arcHashDelete, hashLookup_eq_map, hp] at h
  | some p =>
    obtain ⟨i, e⟩ := p
    cases he : e.bind Bucket.bvalue with
    | none =>
      rw [arcHashDelete_of_unbound hp he] at h
      cases h
      exact ht
    | some w =>
      rw [arcHashDelete_of_bound hp he] at h
      cases h
      exact ht.bury

theorem Table.KeysIn.arcXhashDelete (ht : t.KeysIn P)
    (h : Arcueid.arcXhashDelete fuel kg t key = some (t', r)) : t'.KeysIn P := by
  cases hp : probeFor fuel kg t key with
  | none => simp [Arcueid.arcXhashDelete, arcXhashLookup2, hp] at h
  | some p =>
    obtain ⟨i, e⟩ := p
    cases e with
    | none =>
      rw [arcXhashDelete_of_missing hp] at h
      cases h
      exact ht
    | some b =>
      rw [arcXhashDelete_of_found hp] at h
      cases h
      exact ht.bury

/-- Key comparisons that agree on the table, and keys that hash equally, give one probe. -/
theorem probeFor_congr {key' : K} (hhash : uint (kg.hash key) = uint (kg'.hash key'))
    (hsame : t.KeysIn fun k => kg.same k key = kg'.same k key') :
    probeFor fuel kg t key = probeFor fuel kg' t key' := by
  have hstops : ∀ i, (t.slot i).stops kg key = (t.slot i).stops kg' key' := by
    intro i
    cases hs : t.slot i with
    | bucket e => exact hsame i e hs
    | cunbound => rfl
    | cundef => rfl
  rw [probeFor_eq_walk, probeFor_eq_walk, hhash]
  simp only [hstops]

end Keys

end Arcueid
