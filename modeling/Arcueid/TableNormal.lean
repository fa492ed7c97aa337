import Arcueid.TableMap
import Arcueid.TableStored

/-! The general interface of the tables does what the simple one does, but for the
upper half of the hash values that it keeps in the buckets. -/

namespace Arcueid

open TriangularProbing

variable {K V : Type}

section Normal

/-- The bucket as the simple interface makes it. -/
def Bucket.normal (e : Bucket K V) : Bucket K V := { e with bhashval := uint e.bhashval }

def Slot.normal : Slot K V → Slot K V
  | .bucket e => .bucket e.normal
  | s => s

def Table.normal (t : Table K V) : Table K V := { t with slot := fun i => (t.slot i).normal }

@[simp] theorem normal_bkey (e : Bucket K V) : e.normal.bkey = e.bkey := rfl

@[simp] theorem normal_bvalue (e : Bucket K V) : e.normal.bvalue = e.bvalue := rfl

@[simp] theorem normal_bhashval (e : Bucket K V) : e.normal.bhashval = uint e.bhashval := rfl

@[simp] theorem normal_cunbound : (.cunbound : Slot K V).normal = .cunbound := rfl

@[simp] theorem normal_cundef : (.cundef : Slot K V).normal = .cundef := rfl

@[simp] theorem normal_bucket (e : Bucket K V) : (Slot.bucket e).normal = .bucket e.normal := rfl

@[simp] theorem normal_emptyp (s : Slot K V) : s.normal.emptyp = s.emptyp := by
  cases s <;> rfl

@[simp] theorem normal_holds (kg : Keying K) (key : K) (s : Slot K V) :
    s.normal.holds kg key = s.holds kg key := by
  cases s <;> rfl

@[simp] theorem normal_stops (kg : Keying K) (key : K) (s : Slot K V) :
    s.normal.stops kg key = s.stops kg key := by
  cases s <;> rfl

theorem normal_bucket? (s : Slot K V) : s.normal.bucket? = s.bucket?.map Bucket.normal := by
  cases s <;> rfl

theorem bind_bvalue_normal (e : Option (Bucket K V)) :
    (e.map Bucket.normal).bind Bucket.bvalue = e.bind Bucket.bvalue := by
  cases e <;> rfl

theorem slot_normal (t : Table K V) (i : Nat) : t.normal.slot i = (t.slot i).normal := rfl

theorem normal_setSlot (t : Table K V) (i : Nat) (s : Slot K V) :
    (t.setSlot i s).normal = t.normal.setSlot i s.normal := by
  have hslot : (fun j => (Function.update t.slot i s j).normal) =
      Function.update (fun j => (t.slot j).normal) i s.normal := by
    funext j
    by_cases hj : j = i
    · subst hj
      simp
    · simp [hj]
  simp only [Table.setSlot, Table.normal, hslot]

theorem arcMkhash_normal (n : Nat) : (arcMkhash n : Table K V).normal = arcMkhash n := rfl

theorem probeFor_normal (fuel : Nat) (kg : Keying K) (t : Table K V) (key : K) :
    probeFor fuel kg t.normal key =
      (probeFor fuel kg t key).map fun p => (p.1, p.2.map Bucket.normal) := by
  rw [probeFor_eq_walk, probeFor_eq_walk, Option.map_map]
  simp only [slot_normal, normal_stops, normal_bucket?]
  rfl

end Normal

section Insertion

variable {fuel hc : Nat} {kg kg' : Keying K} {t t' u : Table K V} {key : K} {val : Option V}

theorem expandSlot_normal {oldtbl newtbl newtbl' : Nat → Slot K V} {b i : Nat}
    (h : expandSlot fuel oldtbl b newtbl i = some newtbl') :
    expandSlot fuel (fun j => (oldtbl j).normal) b (fun j => (newtbl j).normal) i =
      some fun j => (newtbl' j).normal := by
  unfold expandSlot at h ⊢
  cases hs : oldtbl i with
  | cunbound =>
    rw [hs] at h
    cases h
    simp only [hs, normal_cunbound]
  | cundef =>
    rw [hs] at h
    cases h
    simp only [hs, normal_cundef]
  | bucket e =>
    simp only [hs, expandLoop_eq_walk, Option.bind_eq_bind, Option.pure_def, Option.bind_eq_some_iff,
      Option.some.injEq] at h
    obtain ⟨index, hw, rfl⟩ := h
    simp only [hs, normal_bucket, normal_bhashval, uint_uint, expandLoop_eq_walk, normal_emptyp, hw,
      Option.bind_eq_bind, Option.bind_some, Option.pure_def, Option.some.injEq]
    funext j
    by_cases hj : j = index
    · subst hj
      simp [Bucket.normal]
    · simp [hj]

theorem expand_normal {oldtbl newtbl : Nat → Slot K V} {b n : Nat}
    (h : (List.range n).foldlM (expandSlot fuel oldtbl b) (fun _ => .cunbound) = some newtbl) :
    (List.range n).foldlM (expandSlot fuel (fun j => (oldtbl j).normal) b) (fun _ => .cunbound) =
      some fun j => (newtbl j).normal := by
  induction n generalizing newtbl with
  | zero =>
    cases h
    rfl
  | succ n ih =>
    rw [List.range_succ, List.foldlM_append] at h ⊢
    obtain ⟨mid, hmid, hstep⟩ := Option.bind_eq_some_iff.mp h
    simp only [List.foldlM_cons, List.foldlM_nil, bind_pure] at hstep
    rw [ih hmid]
    simpa using expandSlot_normal hstep

theorem hashtableExpand_normal (h : hashtableExpand fuel t = some u) :
    hashtableExpand fuel t.normal = some u.normal := by
  obtain ⟨newtbl, hn, rfl⟩ := hashtableExpand_eq_some h
  exact Option.bind_eq_some_iff.mpr ⟨_, expand_normal hn, rfl⟩

theorem roomFor_normal (h : t.roomFor fuel = some u) : t.normal.roomFor fuel = some u.normal := by
  unfold Table.roomFor at h ⊢
  split at h
  · next hfull =>
    have hfull' : t.normal.nentries + 1 > t.normal.llimit := hfull
    rw [if_pos hfull']
    exact hashtableExpand_normal h
  · next hroom =>
    have hroom' : ¬ t.normal.nentries + 1 > t.normal.llimit := hroom
    cases h
    rw [if_neg hroom']

theorem storeAt_hashbits (index : Nat) : (storeAt t index key val hc).hashbits = t.hashbits := by
  unfold storeAt
  split <;> rfl

theorem storeAt_normal (index : Nat) :
    (storeAt t index key val hc).normal = storeAt t.normal index key val (uint hc) := by
  cases hs : t.slot index <;> simp only [storeAt, slot_normal, hs, Slot.normal, normal_setSlot] <;> rfl

/-- Two ways to compare keys agree on the key and those of the table. -/
structure KeyingsAgree (kg kg' : Keying K) (t : Table K V) (key : K) : Prop where
  hash : uint (kg.hash key) = uint (kg'.hash key)
  same : t.KeysIn fun k => kg.same k key = kg'.same k key

theorem KeyingsAgree.probeFor (h : KeyingsAgree kg kg' t key) : probeFor fuel kg t key = probeFor fuel kg' t key :=
  probeFor_congr h.hash h.same

theorem insertLoop_congr (h : t.KeysIn fun k => kg.same k key = kg'.same k key) (index i : Nat) :
    insertLoop kg t key fuel index i = insertLoop kg' t.normal key fuel index i := by
  rw [insertLoop_eq_walk, insertLoop_eq_walk]
  have hstop : ∀ r, ((t.slot r).emptyp || (t.slot r).holds kg key) =
      ((t.normal.slot r).emptyp || (t.normal.slot r).holds kg' key) := by
    intro r
    rw [slot_normal, normal_emptyp, normal_holds]
    cases hs : t.slot r with
    | cunbound => rfl
    | cundef => rfl
    | bucket e => simp only [Slot.emptyp, Slot.holds, h r e hs]
  simp only [hstop]
  rfl

/-- Where the vector has at most 2^32 slots, or the hash value is a whole one, the
upper half of the hash value has no effect. -/
theorem insertNew_normal (h : KeyingsAgree kg kg' t key) (hsmall : hc = uint hc ∨ t'.hashbits ≤ 32)
    (hnew : insertNew fuel kg t key val hc = some t') :
    insertNew fuel kg' t.normal key val (uint hc) = some t'.normal := by
  obtain ⟨u, index, hu, hi, rfl⟩ := insertNew_eq_some hnew
  have hbits : hc = uint hc ∨ u.hashbits ≤ 32 := by
    refine hsmall.imp_right fun hle => ?_
    rwa [storeAt_hashbits] at hle
  have hstart : hc % u.tablesize = uint hc % u.normal.tablesize := by
    change hc % 2 ^ u.hashbits = uint hc % 2 ^ u.hashbits
    rcases hbits with heq | hle
    · rw [← heq]
    · rw [uint, Nat.mod_mod_of_dvd _ (Nat.pow_dvd_pow 2 hle)]
  have hkeys : u.KeysIn fun k => kg.same k key = kg'.same k key := h.same.roomFor hu
  have hkeys : Table.KeysIn (fun k => kg.same k key = kg'.same k key)
      { u with nentries := u.nentries + 1 } := hkeys
  rw [insertLoop_congr hkeys, hstart] at hi
  rw [insertNew_eq_bind, roomFor_normal hu, Option.bind_some, storeAt_normal]
  change (insertLoop kg' (Table.normal { u with nentries := u.nentries + 1 }) key fuel
    (uint hc % u.normal.tablesize) 0).map _ = _
  rw [hi]
  rfl

end Insertion

section Operations

variable {fuel : Nat} {kg kg' : Keying K} {t t' : Table K V} {key : K} {val v : Option V}

/-- Every bucket holds a value, in the slot that it names. -/
structure Table.Stored (t : Table K V) : Prop where
  valued : ∀ i e, i < t.tablesize → t.slot i = .bucket e → e.bvalue ≠ none
  indexed : ∀ i e, i < t.tablesize → t.slot i = .bucket e → e.bindex = i

theorem KeyingsAgree.probeFor_normal {r : Nat} {e : Option (Bucket K V)} (h : KeyingsAgree kg kg' t key)
    (hp : Arcueid.probeFor fuel kg t key = some (r, e)) :
    Arcueid.probeFor fuel kg' t.normal key = some (r, e.map Bucket.normal) := by
  rw [Arcueid.probeFor_normal, ← h.probeFor, hp]
  rfl

theorem arcHashInsert_normal (h : KeyingsAgree kg kg' t key)
    (hins : arcHashInsert fuel kg t key val = some (t', v)) :
    arcHashInsert fuel kg' t.normal key val = some (t'.normal, v) := by
  cases hp : probeFor fuel kg t key with
  | none =>
    rw [arcHashInsert_of_none hp] at hins
    cases hins
  | some p =>
    obtain ⟨r, e⟩ := p
    have hp' := h.probeFor_normal hp
    cases he : e.bind Bucket.bvalue with
    | none =>
      rw [arcHashInsert_of_unbound hp he] at hins
      obtain ⟨u, hu, heq⟩ := Option.map_eq_some_iff.mp hins
      cases heq
      have hnew := insertNew_normal h (.inl (uint_uint _).symm) hu
      rw [uint_uint, h.hash] at hnew
      rw [arcHashInsert_of_unbound hp' ((bind_bvalue_normal e).trans he), hnew]
      rfl
    | some w =>
      obtain ⟨b, rfl, hb⟩ := Option.bind_eq_some_iff.mp he
      have hne : b.bvalue ≠ none := by simp [hb]
      rw [arcHashInsert_of_bound hp hne] at hins
      cases hins
      rw [arcHashInsert_of_bound hp' hne, normal_setSlot]
      rfl

theorem arcXhashInsert_normal (h : KeyingsAgree kg kg' t key) (ht : t.Stored) (hsmall : t'.hashbits ≤ 32)
    (hins : arcXhashInsert fuel kg t key val = some (t', v)) :
    arcHashInsert fuel kg' t.normal key val = some (t'.normal, v) := by
  obtain ⟨⟨r, e⟩, hp, -⟩ := Option.bind_eq_some_iff.mp hins
  have hp' := h.probeFor_normal hp
  cases e with
  | none =>
    rw [arcXhashInsert_of_missing hp] at hins
    obtain ⟨u, hu, heq⟩ := Option.map_eq_some_iff.mp hins
    cases heq
    have hnew := insertNew_normal h (.inr hsmall) hu
    rw [h.hash] at hnew
    rw [arcHashInsert_of_unbound hp' rfl, hnew]
    rfl
  | some b =>
    rw [arcXhashInsert_of_found hp] at hins
    cases hins
    have hne : b.bvalue ≠ none := ht.valued r b (probeFor_index_lt hp) (slot_of_probeFor hp)
    rw [arcHashInsert_of_bound hp' hne, normal_setSlot]
    rfl

theorem arcHashDelete_normal (h : KeyingsAgree kg kg' t key) (hdel : arcHashDelete fuel kg t key = some (t', v)) :
    arcHashDelete fuel kg' t.normal key = some (t'.normal, v) := by
  cases hp : probeFor fuel kg t key with
  | none => simp [arcHashDelete, hashLookup_eq_map, hp] at hdel
  | some p =>
    obtain ⟨r, e⟩ := p
    have hp' := h.probeFor_normal hp
    cases he : e.bind Bucket.bvalue with
    | none =>
      rw [arcHashDelete_of_unbound hp he] at hdel
      cases hdel
      exact arcHashDelete_of_unbound hp' ((bind_bvalue_normal e).trans he)
    | some w =>
      rw [arcHashDelete_of_bound hp he] at hdel
      cases hdel
      rw [arcHashDelete_of_bound hp' ((bind_bvalue_normal e).trans he), normal_setSlot]
      rfl

theorem arcXhashDelete_normal (h : KeyingsAgree kg kg' t key) (ht : t.Stored)
    (hdel : arcXhashDelete fuel kg t key = some (t', v)) :
    arcHashDelete fuel kg' t.normal key = some (t'.normal, v) := by
  cases hp : probeFor fuel kg t key with
  | none => simp [arcXhashDelete, arcXhashLookup2, hp] at hdel
  | some p =>
    obtain ⟨r, e⟩ := p
    have hp' := h.probeFor_normal hp
    cases e with
    | none =>
      rw [arcXhashDelete_of_missing hp] at hdel
      cases hdel
      exact arcHashDelete_of_unbound hp' rfl
    | some b =>
      have hslot := slot_of_probeFor hp
      have hi := ht.indexed r b (probeFor_index_lt hp) hslot
      obtain ⟨w, hw⟩ := Option.ne_none_iff_exists'.mp (ht.valued r b (probeFor_index_lt hp) hslot)
      rw [arcXhashDelete_of_found hp, hi, hslot] at hdel
      cases hdel
      rw [arcHashDelete_of_bound hp' hw, normal_setSlot]
      change some (_, some w) = some (_, b.bvalue)
      rw [hw]
      rfl

theorem arcHashLookup_normal (h : KeyingsAgree kg kg' t key) (hl : arcHashLookup fuel kg t key = some v) :
    arcHashLookup fuel kg' t.normal key = some v := by
  simp only [arcHashLookup, hashLookup_eq_map] at hl ⊢
  rw [Arcueid.probeFor_normal, ← h.probeFor]
  cases hp : probeFor fuel kg t key with
  | none =>
    rw [hp] at hl
    cases hl
  | some p =>
    rw [hp] at hl
    cases hl
    simp [bind_bvalue_normal]

theorem arcXhashLookup_eq (fuel : Nat) (kg : Keying K) (t : Table K V) (key : K) :
    arcXhashLookup fuel kg t key = arcHashLookup fuel kg t key := by
  simp only [arcXhashLookup, arcXhashLookup2, arcHashLookup, hashLookup_eq_map]
  cases probeFor fuel kg t key <;> rfl

end Operations

section Hashbits

variable {fuel hc : Nat} {kg : Keying K} {t t' : Table K V} {key : K} {val v : Option V}

theorem insertNew_hashbits (h : insertNew fuel kg t key val hc = some t') : t.hashbits ≤ t'.hashbits := by
  obtain ⟨u, index, hu, -, rfl⟩ := insertNew_eq_some h
  rw [storeAt_hashbits]
  change t.hashbits ≤ u.hashbits
  unfold Table.roomFor at hu
  split at hu
  · obtain ⟨newtbl, -, rfl⟩ := hashtableExpand_eq_some hu
    exact Nat.le_succ _
  · cases hu
    exact Nat.le_refl _

theorem arcHashInsert_hashbits (h : arcHashInsert fuel kg t key val = some (t', v)) :
    t.hashbits ≤ t'.hashbits := by
  cases hp : probeFor fuel kg t key with
  | none => simp [arcHashInsert_of_none hp] at h
  | some p =>
    obtain ⟨i, e⟩ := p
    by_cases he : e.bind Bucket.bvalue = none
    · rw [arcHashInsert_of_unbound hp he, Option.map_eq_some_iff] at h
      obtain ⟨u, hu, heq⟩ := h
      cases heq
      exact insertNew_hashbits hu
    · cases e with
      | none => exact absurd rfl he
      | some b =>
        rw [arcHashInsert_of_bound hp he] at h
        cases h
        exact Nat.le_refl _

theorem arcXhashInsert_hashbits (h : arcXhashInsert fuel kg t key val = some (t', v)) :
    t.hashbits ≤ t'.hashbits := by
  obtain ⟨⟨r, e⟩, hp, -⟩ := Option.bind_eq_some_iff.mp h
  cases e with
  | none =>
    rw [arcXhashInsert_of_missing hp] at h
    obtain ⟨u, hu, heq⟩ := Option.map_eq_some_iff.mp h
    cases heq
    exact insertNew_hashbits hu
  | some b =>
    rw [arcXhashInsert_of_found hp] at h
    cases h
    exact Nat.le_refl _

theorem arcHashDelete_hashbits (h : arcHashDelete fuel kg t key = some (t', v)) :
    t'.hashbits = t.hashbits := by
  obtain ⟨⟨old, index⟩, -, hrest⟩ := Option.bind_eq_some_iff.mp h
  cases old <;> cases hrest <;> rfl

theorem arcXhashDelete_hashbits (h : arcXhashDelete fuel kg t key = some (t', v)) :
    t'.hashbits = t.hashbits := by
  obtain ⟨e, -, hrest⟩ := Option.bind_eq_some_iff.mp h
  cases e <;> cases hrest <;> rfl

end Hashbits

end Arcueid
