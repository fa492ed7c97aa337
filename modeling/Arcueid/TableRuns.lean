import Arcueid.Hash
import Arcueid.TableTermination

/-! Runs of table operations through both interfaces, and which of them end. -/

namespace Arcueid

variable {K V : Type}

inductive TableOp (K V : Type) where
  | lookup (key : K)
  | lookup2 (key : K)
  | insert (key : K) (val : Option V)
  | delete (key : K)
  | length
  | xlookup (key : K)
  | xlookup2 (key : K)
  | xinsert (key : K) (val : Option V)
  | xdelete (key : K)

inductive TableAnswer (K V : Type) where
  | val (v : Option V)
  | found (e : Option (Bucket K V))
  | count (n : Nat)

/-- One operation: the simple interface compares keys with `s`, the general
one with `g`. -/
def tableStep (fuel : Nat) (s g : Keying K) (t : Table K V) :
    TableOp K V → Option (Table K V × TableAnswer K V)
  | .lookup key => (arcHashLookup fuel s t key).map fun v => (t, .val v)
  | .lookup2 key => (arcHashLookup2 fuel s t key).map fun e => (t, .found e)
  | .insert key val => (arcHashInsert fuel s t key val).map fun p => (p.1, .val p.2)
  | .delete key => (arcHashDelete fuel s t key).map fun p => (p.1, .val p.2)
  | .length => some (t, .count (arcHashLength t))
  | .xlookup key => (arcXhashLookup fuel g t key).map fun v => (t, .val v)
  | .xlookup2 key => (arcXhashLookup2 fuel g t key).map fun e => (t, .found e)
  | .xinsert key val => (arcXhashInsert fuel g t key val).map fun p => (p.1, .val p.2)
  | .xdelete key => (arcXhashDelete fuel g t key).map fun p => (p.1, .val p.2)

/-- A sequence of operations: the table it leaves and the answers in order. -/
def tableRun (fuel : Nat) (s g : Keying K) (t : Table K V) :
    List (TableOp K V) → Option (Table K V × List (TableAnswer K V))
  | [] => some (t, [])
  | op :: ops =>
    (tableStep fuel s g t op).bind fun (t', r) =>
      (tableRun fuel s g t' ops).map fun (t'', rs) => (t'', r :: rs)

/-- The key an operation probes for, with the way it compares keys. -/
def TableOp.probes (s g : Keying K) : TableOp K V → Option (Keying K × K)
  | .lookup key | .lookup2 key | .insert key _ | .delete key => some (s, key)
  | .xlookup key | .xlookup2 key | .xinsert key _ | .xdelete key => some (g, key)
  | .length => none

/-- The vector has a slot that stops the probe of the operation: a never-used
slot, or a bucket with its key. -/
def TableOp.Stopped (s g : Keying K) (t : Table K V) (op : TableOp K V) : Prop :=
  ∀ kg key, op.probes s g = some (kg, key) →
    ∃ i, i < t.tablesize ∧ (t.slot i).stops kg key = true

/-- Every operation of the sequence is stopped in the table it meets. -/
def StoppedRun (s g : Keying K) : Table K V → List (TableOp K V) → Prop
  | _, [] => True
  | t, op :: ops => op.Stopped s g t ∧
      ∀ fuel t' r, tableStep fuel s g t op = some (t', r) → StoppedRun s g t' ops

section Shapes

variable {fuel r : Nat} {kg : Keying K} {t t' : Table K V} {key : K} {val v : Option V}
  {b : Bucket K V} {e : Option (Bucket K V)}

theorem hashLookup_eq_map (fuel : Nat) (kg : Keying K) (t : Table K V) (key : K) :
    hashLookup fuel kg t key =
      (probeFor fuel kg t key).map fun p => (p.2.bind Bucket.bvalue, p.1) := by
  simp only [hashLookup, Option.bind_eq_bind, Option.pure_def, Option.map_eq_bind]
  rfl

theorem slot_of_probeFor (hp : probeFor fuel kg t key = some (r, some b)) :
    t.slot r = .bucket b := by
  have hb := (probeFor_eq_some_iff.mp hp).1
  cases hs : t.slot r with
  | bucket b' => simpa [hs, Slot.bucket?] using hb.symm
  | cunbound => simp [hs, Slot.bucket?] at hb
  | cundef => simp [hs, Slot.bucket?] at hb

theorem arcHashInsert_of_none (hp : probeFor fuel kg t key = none) :
    arcHashInsert fuel kg t key val = none := by
  rw [arcHashInsert, hashLookup_eq_map, hp]
  rfl

theorem arcHashInsert_of_bound (hp : probeFor fuel kg t key = some (r, some b))
    (hb : b.bvalue ≠ none) :
    arcHashInsert fuel kg t key val =
      some (t.setSlot r (.bucket { b with bvalue := val }), val) := by
  obtain ⟨w, hw⟩ := Option.ne_none_iff_exists'.mp hb
  rw [arcHashInsert, hashLookup_eq_map, hp]
  simp [hw, slot_of_probeFor hp]

theorem arcHashInsert_of_unbound (hp : probeFor fuel kg t key = some (r, e))
    (he : e.bind Bucket.bvalue = none) :
    arcHashInsert fuel kg t key val =
      (insertNew fuel kg t key val (uint (kg.hash key))).map fun t' => (t', val) := by
  have hl : hashLookup fuel kg t key = some (none, r) := by simp [hashLookup_eq_map, hp, he]
  rw [arcHashInsert, hl, Option.map_eq_bind]
  rfl

theorem arcHashDelete_of_bound {w : V} (hp : probeFor fuel kg t key = some (r, e))
    (he : e.bind Bucket.bvalue = some w) :
    arcHashDelete fuel kg t key =
      some ({ t with nentries := t.nentries - 1 }.setSlot r .cundef, some w) := by
  rw [arcHashDelete, hashLookup_eq_map, hp]
  simp [he]

theorem arcHashDelete_of_unbound (hp : probeFor fuel kg t key = some (r, e))
    (he : e.bind Bucket.bvalue = none) : arcHashDelete fuel kg t key = some (t, none) := by
  rw [arcHashDelete, hashLookup_eq_map, hp]
  simp [he]

theorem arcXhashInsert_of_found (hp : probeFor fuel kg t key = some (r, some b)) :
    arcXhashInsert fuel kg t key val =
      some (t.setSlot r (.bucket { b with bvalue := val }), val) := by
  rw [arcXhashInsert, hp]
  rfl

theorem arcXhashInsert_of_missing (hp : probeFor fuel kg t key = some (r, none)) :
    arcXhashInsert fuel kg t key val =
      (insertNew fuel kg t key val (kg.hash key)).map fun t' => (t', val) := by
  rw [arcXhashInsert, hp, Option.map_eq_bind]
  rfl

theorem arcXhashDelete_of_found (hp : probeFor fuel kg t key = some (r, some b)) :
    arcXhashDelete fuel kg t key =
      some ({ t with nentries := t.nentries - 1 }.setSlot b.bindex .cundef,
        (t.slot b.bindex).bvalue) := by
  rw [arcXhashDelete, arcXhashLookup2, hp]
  rfl

theorem arcXhashDelete_of_missing (hp : probeFor fuel kg t key = some (r, none)) :
    arcXhashDelete fuel kg t key = some (t, none) := by
  rw [arcXhashDelete, arcXhashLookup2, hp]
  rfl

end Shapes

section Preservation

variable {fuel r : Nat} {s g kg : Keying K} {t t' : Table K V} {key : K} {val v : Option V}

theorem probeFor_index_lt {e : Option (Bucket K V)} (hp : probeFor fuel kg t key = some (r, e)) :
    r < t.tablesize := by
  obtain ⟨-, m, -, rfl, -⟩ := probeFor_eq_some_iff.mp hp
  exact TriangularProbing.probe_lt _ _ m

theorem overwrite_sized {b : Bucket K V} (ht : t.Sized) (hr : r < t.tablesize)
    (hb : t.slot r = .bucket b) :
    (t.setSlot r (.bucket { b with bvalue := val })).Sized := by
  refine ⟨ht.limit, ?_, ht.le_limit, fun i e hi he => ?_⟩
  · rw [liveCount_setSlot_live hr (by simp [hb, Slot.emptyp]) rfl]
    exact ht.live_le
  · by_cases hir : i = r
    · subst hir
      simp only [Table.setSlot, Function.update_self, Slot.bucket.injEq] at he
      rw [← he]
      exact ht.indexed i b hi hb
    · simp only [Table.setSlot, Function.update_of_ne hir] at he
      exact ht.indexed i e hi he

theorem bury_sized {b : Bucket K V} (ht : t.Sized) (hr : r < t.tablesize)
    (hb : t.slot r = .bucket b) :
    ({ t with nentries := t.nentries - 1 }.setSlot r .cundef).Sized := by
  refine ⟨ht.limit, ?_, (Nat.sub_le _ _).trans ht.le_limit, fun i e hi he => ?_⟩
  · have hcard := liveCount_setSlot_bury (t := { t with nentries := t.nentries - 1 })
      (s := .cundef) hr (by simp [hb, Slot.emptyp]) rfl
    rw [hcard]
    exact Nat.sub_le_sub_right ht.live_le 1
  · by_cases hir : i = r
    · subst hir
      simp [Table.setSlot] at he
    · simp only [Table.setSlot, Function.update_of_ne hir] at he
      exact ht.indexed i e hi he

theorem arcHashInsert_sized (ht : t.Sized)
    (h : arcHashInsert fuel kg t key val = some (t', v)) : t'.Sized := by
  cases hp : probeFor fuel kg t key with
  | none => rw [arcHashInsert_of_none hp] at h; cases h
  | some p =>
    obtain ⟨r, e⟩ := p
    cases he : e.bind Bucket.bvalue with
    | some w =>
      obtain ⟨b, rfl, hb⟩ := Option.bind_eq_some_iff.mp he
      rw [arcHashInsert_of_bound hp (by simp [hb])] at h
      cases h
      exact overwrite_sized ht (probeFor_index_lt hp) (slot_of_probeFor hp)
    | none =>
      rw [arcHashInsert_of_unbound hp he] at h
      obtain ⟨u, hu, h⟩ := Option.map_eq_some_iff.mp h
      cases h
      exact insertNew_sized ht hu

theorem arcXhashInsert_sized (ht : t.Sized)
    (h : arcXhashInsert fuel kg t key val = some (t', v)) : t'.Sized := by
  obtain ⟨⟨r, e⟩, hp, -⟩ := Option.bind_eq_some_iff.mp h
  cases e with
  | some b =>
    rw [arcXhashInsert_of_found hp] at h
    cases h
    exact overwrite_sized ht (probeFor_index_lt hp) (slot_of_probeFor hp)
  | none =>
    rw [arcXhashInsert_of_missing hp] at h
    obtain ⟨u, hu, h⟩ := Option.map_eq_some_iff.mp h
    cases h
    exact insertNew_sized ht hu

theorem arcHashDelete_sized (ht : t.Sized)
    (h : arcHashDelete fuel kg t key = some (t', v)) : t'.Sized := by
  cases hp : probeFor fuel kg t key with
  | none => simp [arcHashDelete, hashLookup_eq_map, hp] at h
  | some p =>
    obtain ⟨r, e⟩ := p
    cases he : e.bind Bucket.bvalue with
    | some w =>
      obtain ⟨b, rfl, -⟩ := Option.bind_eq_some_iff.mp he
      rw [arcHashDelete_of_bound hp he] at h
      cases h
      exact bury_sized ht (probeFor_index_lt hp) (slot_of_probeFor hp)
    | none =>
      rw [arcHashDelete_of_unbound hp he] at h
      cases h
      exact ht

theorem arcXhashDelete_sized (ht : t.Sized)
    (h : arcXhashDelete fuel kg t key = some (t', v)) : t'.Sized := by
  cases hp : probeFor fuel kg t key with
  | none => simp [arcXhashDelete, arcXhashLookup2, hp] at h
  | some p =>
    obtain ⟨r, e⟩ := p
    cases e with
    | some b =>
      have hi := ht.indexed r b (probeFor_index_lt hp) (slot_of_probeFor hp)
      rw [arcXhashDelete_of_found hp, hi] at h
      cases h
      exact bury_sized ht (probeFor_index_lt hp) (slot_of_probeFor hp)
    | none =>
      rw [arcXhashDelete_of_missing hp] at h
      cases h
      exact ht

theorem tableStep_sized {op : TableOp K V} {a : TableAnswer K V} (ht : t.Sized)
    (h : tableStep fuel s g t op = some (t', a)) : t'.Sized := by
  have hsame : ∀ {α : Type} {x : Option α} {f : α → TableAnswer K V},
      (x.map fun y => (t, f y)) = some (t', a) → t'.Sized := by
    intro α x f hx
    obtain ⟨y, -, hy⟩ := Option.map_eq_some_iff.mp hx
    cases hy
    exact ht
  cases op with
  | lookup key => exact hsame h
  | lookup2 key => exact hsame h
  | xlookup key => exact hsame h
  | xlookup2 key => exact hsame h
  | length => cases h; exact ht
  | insert key val =>
    obtain ⟨p, hp, h⟩ := Option.map_eq_some_iff.mp h
    cases h
    exact arcHashInsert_sized ht hp
  | delete key =>
    obtain ⟨p, hp, h⟩ := Option.map_eq_some_iff.mp h
    cases h
    exact arcHashDelete_sized ht hp
  | xinsert key val =>
    obtain ⟨p, hp, h⟩ := Option.map_eq_some_iff.mp h
    cases h
    exact arcXhashInsert_sized ht hp
  | xdelete key =>
    obtain ⟨p, hp, h⟩ := Option.map_eq_some_iff.mp h
    cases h
    exact arcXhashDelete_sized ht hp

end Preservation

section Bounds

variable {fuel fuel' : Nat} {s g kg : Keying K} {t t' : Table K V} {key : K}
  {val v : Option V}

theorem expandSlot_mono {oldtbl newtbl newtbl' : Nat → Slot K V} {b i : Nat}
    (hle : fuel ≤ fuel') (h : expandSlot fuel oldtbl b newtbl i = some newtbl') :
    expandSlot fuel' oldtbl b newtbl i = some newtbl' := by
  unfold expandSlot at h ⊢
  cases hs : oldtbl i with
  | cunbound => simpa [hs] using h
  | cundef => simpa [hs] using h
  | bucket e =>
    simp only [hs, expandLoop_eq_walk, Option.bind_eq_bind, Option.bind_eq_some_iff] at h ⊢
    obtain ⟨index, hw, h⟩ := h
    exact ⟨index, TriangularProbing.walk_mono hle hw, h⟩

theorem expand_mono {oldtbl newtbl : Nat → Slot K V} {b n : Nat} (hle : fuel ≤ fuel')
    (h : (List.range n).foldlM (expandSlot fuel oldtbl b) (fun _ => .cunbound) = some newtbl) :
    (List.range n).foldlM (expandSlot fuel' oldtbl b) (fun _ => .cunbound) = some newtbl := by
  induction n generalizing newtbl with
  | zero => exact h
  | succ n ih =>
    rw [List.range_succ, List.foldlM_append] at h ⊢
    obtain ⟨mid, hmid, hstep⟩ := Option.bind_eq_some_iff.mp h
    simp only [List.foldlM_cons, List.foldlM_nil, bind_pure] at hstep
    rw [ih hmid]
    simpa using expandSlot_mono hle hstep

theorem roomFor_mono (hle : fuel ≤ fuel') (h : t.roomFor fuel = some t') :
    t.roomFor fuel' = some t' := by
  unfold Table.roomFor at h ⊢
  split at h
  · next hfull =>
    rw [if_pos hfull]
    obtain ⟨newtbl, hn, rfl⟩ := hashtableExpand_eq_some h
    exact Option.bind_eq_some_iff.mpr ⟨newtbl, expand_mono hle hn, rfl⟩
  · next hroom => rwa [if_neg hroom]

theorem insertNew_mono {hashcode : Nat} (hle : fuel ≤ fuel')
    (h : insertNew fuel kg t key val hashcode = some t') :
    insertNew fuel' kg t key val hashcode = some t' := by
  obtain ⟨u, index, hu, hi, rfl⟩ := insertNew_eq_some h
  rw [insertLoop_eq_walk] at hi
  rw [insertNew_eq_bind, roomFor_mono hle hu, Option.bind_some, insertLoop_eq_walk,
    TriangularProbing.walk_mono hle hi, Option.map_some]

theorem arcHashInsert_mono {p : Table K V × Option V} (hle : fuel ≤ fuel')
    (h : arcHashInsert fuel kg t key val = some p) :
    arcHashInsert fuel' kg t key val = some p := by
  cases hp : probeFor fuel kg t key with
  | none => rw [arcHashInsert_of_none hp] at h; cases h
  | some q =>
    obtain ⟨r, e⟩ := q
    cases he : e.bind Bucket.bvalue with
    | some w =>
      obtain ⟨b, rfl, hb⟩ := Option.bind_eq_some_iff.mp he
      have hne : b.bvalue ≠ none := by simp [hb]
      rw [arcHashInsert_of_bound hp hne] at h
      rw [arcHashInsert_of_bound (probeFor_mono hle hp) hne, h]
    | none =>
      rw [arcHashInsert_of_unbound hp he] at h
      obtain ⟨u, hu, rfl⟩ := Option.map_eq_some_iff.mp h
      rw [arcHashInsert_of_unbound (probeFor_mono hle hp) he, insertNew_mono hle hu,
        Option.map_some]

theorem arcXhashInsert_mono {p : Table K V × Option V} (hle : fuel ≤ fuel')
    (h : arcXhashInsert fuel kg t key val = some p) :
    arcXhashInsert fuel' kg t key val = some p := by
  obtain ⟨⟨r, e⟩, hp, -⟩ := Option.bind_eq_some_iff.mp h
  cases e with
  | some b =>
    rw [arcXhashInsert_of_found hp] at h
    rw [arcXhashInsert_of_found (probeFor_mono hle hp), h]
  | none =>
    rw [arcXhashInsert_of_missing hp] at h
    obtain ⟨u, hu, rfl⟩ := Option.map_eq_some_iff.mp h
    rw [arcXhashInsert_of_missing (probeFor_mono hle hp), insertNew_mono hle hu, Option.map_some]

end Bounds

section Termination

variable {fuel fuel' : Nat} {s g kg : Keying K} {t t' : Table K V} {key : K}

/-- What `arc_hash_lookup2` gives when the probe stops there. -/
def Table.bucketAt (t : Table K V) (p : Nat × Option (Bucket K V)) : Option (Bucket K V) :=
  match p.2.bind Bucket.bvalue, t.slot p.1 with
  | some _, .bucket e => some e
  | _, _ => none

def Table.deletedAt (t : Table K V) (p : Nat × Option (Bucket K V)) :
    Table K V × TableAnswer K V :=
  match p.2.bind Bucket.bvalue with
  | some w => ({ t with nentries := t.nentries - 1 }.setSlot p.1 .cundef, .val (some w))
  | none => (t, .val none)

def Table.xdeletedAt (t : Table K V) (p : Nat × Option (Bucket K V)) :
    Table K V × TableAnswer K V :=
  match p.2 with
  | some e => ({ t with nentries := t.nentries - 1 }.setSlot e.bindex .cundef,
      .val (t.slot e.bindex).bvalue)
  | none => (t, .val none)

/-- What an operation other than an insertion does is decided by its probe. -/
theorem tableStep_eq_map {op : TableOp K V} (hkey : op.probes s g = some (kg, key)) :
    (∃ f, ∀ fuel, tableStep fuel s g t op = (probeFor fuel kg t key).map f) ∨
      (∃ val, op = .insert key val ∧ kg = s) ∨ (∃ val, op = .xinsert key val ∧ kg = g) := by
  cases op with
  | length => cases hkey
  | insert key val => cases hkey; exact .inr (.inl ⟨val, rfl, rfl⟩)
  | xinsert key val => cases hkey; exact .inr (.inr ⟨val, rfl, rfl⟩)
  | lookup key =>
    cases hkey
    refine .inl ⟨fun p => (t, .val (p.2.bind Bucket.bvalue)), fun fuel => ?_⟩
    simp only [tableStep, arcHashLookup, hashLookup_eq_map]
    cases probeFor fuel s t key <;> rfl
  | lookup2 key =>
    cases hkey
    refine .inl ⟨fun p => (t, .found (t.bucketAt p)), fun fuel => ?_⟩
    simp only [tableStep, arcHashLookup2, hashLookup_eq_map]
    cases probeFor fuel s t key with
    | none => rfl
    | some p =>
      cases hv : p.2.bind Bucket.bvalue <;> cases hs : t.slot p.1 <;>
        simp [Table.bucketAt, hv, hs]
  | delete key =>
    cases hkey
    refine .inl ⟨t.deletedAt, fun fuel => ?_⟩
    simp only [tableStep, arcHashDelete, hashLookup_eq_map]
    cases probeFor fuel s t key with
    | none => rfl
    | some p => cases hv : p.2.bind Bucket.bvalue <;> simp [Table.deletedAt, hv]
  | xlookup key =>
    cases hkey
    refine .inl ⟨fun p => (t, .val (p.2.bind Bucket.bvalue)), fun fuel => ?_⟩
    simp only [tableStep, arcXhashLookup, arcXhashLookup2]
    cases probeFor fuel g t key <;> rfl
  | xlookup2 key =>
    cases hkey
    refine .inl ⟨fun p => (t, .found p.2), fun fuel => ?_⟩
    simp only [tableStep, arcXhashLookup2]
    cases probeFor fuel g t key <;> rfl
  | xdelete key =>
    cases hkey
    refine .inl ⟨t.xdeletedAt, fun fuel => ?_⟩
    simp only [tableStep, arcXhashDelete, arcXhashLookup2]
    cases probeFor fuel g t key with
    | none => rfl
    | some p => cases hv : p.2 <;> simp [Table.xdeletedAt, hv]

theorem tableStep_mono {op : TableOp K V} {p : Table K V × TableAnswer K V} (hle : fuel ≤ fuel')
    (h : tableStep fuel s g t op = some p) : tableStep fuel' s g t op = some p := by
  cases hkey : op.probes s g with
  | none => cases op <;> first | exact h | simp [TableOp.probes] at hkey
  | some q =>
    obtain ⟨kg, key⟩ := q
    rcases tableStep_eq_map (t := t) hkey with ⟨f, hf⟩ | ⟨val, rfl, rfl⟩ | ⟨val, rfl, rfl⟩
    · rw [hf] at h ⊢
      obtain ⟨x, hx, rfl⟩ := Option.map_eq_some_iff.mp h
      rw [probeFor_mono hle hx, Option.map_some]
    · obtain ⟨x, hx, rfl⟩ := Option.map_eq_some_iff.mp h
      exact Option.map_eq_some_iff.mpr ⟨x, arcHashInsert_mono hle hx, rfl⟩
    · obtain ⟨x, hx, rfl⟩ := Option.map_eq_some_iff.mp h
      exact Option.map_eq_some_iff.mpr ⟨x, arcXhashInsert_mono hle hx, rfl⟩

theorem tableStep_unique {op : TableOp K V} {p p' : Table K V × TableAnswer K V}
    (h : tableStep fuel s g t op = some p) (h' : tableStep fuel' s g t op = some p') : p = p' := by
  have hp := tableStep_mono (Nat.le_max_left fuel fuel') h
  have hp' := tableStep_mono (Nat.le_max_right fuel fuel') h'
  exact Option.some.inj (hp.symm.trans hp')

theorem arcHashInsert_terminates_iff (val : Option V) (ht : t.Sized) :
    (∃ fuel p, arcHashInsert fuel kg t key val = some p) ↔
      ∃ fuel p, probeFor fuel kg t key = some p := by
  constructor
  · rintro ⟨fuel, p, h⟩
    cases hp : probeFor fuel kg t key with
    | none => rw [arcHashInsert_of_none hp] at h; cases h
    | some r => exact ⟨fuel, r, hp⟩
  · rintro ⟨f₁, ⟨r, e⟩, hp⟩
    obtain ⟨f₂, u, hu⟩ := insertNew_terminates ht kg key val (uint (kg.hash key))
    have hp' := probeFor_mono (Nat.le_max_left f₁ f₂) hp
    cases he : e.bind Bucket.bvalue with
    | some w =>
      obtain ⟨b, rfl, hb⟩ := Option.bind_eq_some_iff.mp he
      exact ⟨_, _, arcHashInsert_of_bound hp' (by simp [hb])⟩
    | none =>
      refine ⟨_, (u, val), (arcHashInsert_of_unbound hp' he).trans ?_⟩
      rw [insertNew_mono (Nat.le_max_right f₁ f₂) hu, Option.map_some]

theorem arcXhashInsert_terminates_iff (val : Option V) (ht : t.Sized) :
    (∃ fuel p, arcXhashInsert fuel kg t key val = some p) ↔
      ∃ fuel p, probeFor fuel kg t key = some p := by
  constructor
  · rintro ⟨fuel, p, h⟩
    obtain ⟨r, hr, -⟩ := Option.bind_eq_some_iff.mp h
    exact ⟨fuel, r, hr⟩
  · rintro ⟨f₁, ⟨r, e⟩, hp⟩
    obtain ⟨f₂, u, hu⟩ := insertNew_terminates ht kg key val (kg.hash key)
    have hp' := probeFor_mono (Nat.le_max_left f₁ f₂) hp
    cases e with
    | some b => exact ⟨_, _, arcXhashInsert_of_found hp'⟩
    | none =>
      refine ⟨_, (u, val), (arcXhashInsert_of_missing hp').trans ?_⟩
      rw [insertNew_mono (Nat.le_max_right f₁ f₂) hu, Option.map_some]

/-- An operation on a sized table ends exactly when its probe is stopped: the
expansion and the second loop of an insertion always end. -/
theorem tableStep_terminates_iff {op : TableOp K V} (ht : t.Sized) :
    (∃ fuel p, tableStep fuel s g t op = some p) ↔ op.Stopped s g t := by
  cases hkey : op.probes s g with
  | none =>
    refine ⟨fun _ kg key h => by simp [hkey] at h, fun _ => ?_⟩
    cases op <;> first | exact ⟨0, _, rfl⟩ | simp [TableOp.probes] at hkey
  | some q =>
    obtain ⟨kg, key⟩ := q
    have hstop : op.Stopped s g t ↔ ∃ fuel r, probeFor fuel kg t key = some r := by
      rw [probeFor_terminates_iff, TableOp.Stopped]
      refine ⟨fun h => h kg key hkey, fun h kg' key' he => ?_⟩
      obtain ⟨rfl, rfl⟩ : kg = kg' ∧ key = key' := by simpa [hkey] using he
      exact h
    rw [hstop]
    rcases tableStep_eq_map (t := t) hkey with ⟨f, hf⟩ | ⟨val, rfl, rfl⟩ | ⟨val, rfl, rfl⟩
    · simp only [hf, Option.map_eq_some_iff]
      exact ⟨fun ⟨fuel, _, r, hr, _⟩ => ⟨fuel, r, hr⟩, fun ⟨fuel, r, hr⟩ => ⟨fuel, _, r, hr, rfl⟩⟩
    · rw [← arcHashInsert_terminates_iff val ht]
      simp only [tableStep, Option.map_eq_some_iff]
      exact ⟨fun ⟨fuel, _, p, hp, _⟩ => ⟨fuel, p, hp⟩, fun ⟨fuel, p, hp⟩ => ⟨fuel, _, p, hp, rfl⟩⟩
    · rw [← arcXhashInsert_terminates_iff val ht]
      simp only [tableStep, Option.map_eq_some_iff]
      exact ⟨fun ⟨fuel, _, p, hp, _⟩ => ⟨fuel, p, hp⟩, fun ⟨fuel, p, hp⟩ => ⟨fuel, _, p, hp, rfl⟩⟩

theorem tableRun_mono {ops : List (TableOp K V)} {p : Table K V × List (TableAnswer K V)}
    (hle : fuel ≤ fuel') (h : tableRun fuel s g t ops = some p) :
    tableRun fuel' s g t ops = some p := by
  induction ops generalizing t p with
  | nil => exact h
  | cons op ops ih =>
    obtain ⟨⟨t', a⟩, hstep, hrest⟩ := Option.bind_eq_some_iff.mp h
    obtain ⟨q, hq, rfl⟩ := Option.map_eq_some_iff.mp hrest
    exact Option.bind_eq_some_iff.mpr
      ⟨_, tableStep_mono hle hstep, Option.map_eq_some_iff.mpr ⟨q, ih hq, rfl⟩⟩

/-- A run on a sized table ends exactly when all its probes are stopped. -/
theorem tableRun_terminates_iff {ops : List (TableOp K V)} (ht : t.Sized) :
    (∃ fuel p, tableRun fuel s g t ops = some p) ↔ StoppedRun s g t ops := by
  induction ops generalizing t with
  | nil => exact ⟨fun _ => trivial, fun _ => ⟨0, _, rfl⟩⟩
  | cons op ops ih =>
    rw [StoppedRun, ← tableStep_terminates_iff ht]
    constructor
    · rintro ⟨fuel, p, h⟩
      obtain ⟨⟨t', a⟩, hstep, hrest⟩ := Option.bind_eq_some_iff.mp h
      obtain ⟨q, hq, -⟩ := Option.map_eq_some_iff.mp hrest
      refine ⟨⟨fuel, _, hstep⟩, fun fuel' t'' a' hstep' => ?_⟩
      cases tableStep_unique hstep hstep'
      exact (ih (tableStep_sized ht hstep)).mp ⟨fuel, q, hq⟩
    · rintro ⟨⟨f₁, ⟨t', a⟩, hstep⟩, hrest⟩
      obtain ⟨f₂, q, hq⟩ := (ih (tableStep_sized ht hstep)).mpr (hrest f₁ t' a hstep)
      exact ⟨max f₁ f₂, _, Option.bind_eq_some_iff.mpr
        ⟨_, tableStep_mono (Nat.le_max_left f₁ f₂) hstep, Option.map_eq_some_iff.mpr
          ⟨q, tableRun_mono (Nat.le_max_right f₁ f₂) hq, rfl⟩⟩⟩

/-- On a new table of any size, a sequence of operations ends exactly when each
of them meets a table with a never-used slot or a bucket of its key. -/
theorem tableRun_arcMkhash_terminates_iff (hashbits : Nat) (s g : Keying K)
    (ops : List (TableOp K V)) :
    (∃ fuel p, tableRun fuel s g (arcMkhash hashbits) ops = some p) ↔
      StoppedRun s g (arcMkhash hashbits) ops :=
  tableRun_terminates_iff (arcMkhash_sized hashbits)

theorem stopped_of_stoppedRun_append {ops : List (TableOp K V)} {op : TableOp K V}
    {as : List (TableAnswer K V)} (hrun : tableRun fuel s g t ops = some (t', as))
    (h : StoppedRun s g t (ops ++ [op])) : op.Stopped s g t' := by
  induction ops generalizing t as with
  | nil => cases hrun; exact h.1
  | cons o ops ih =>
    obtain ⟨⟨u, a⟩, hstep, hrest⟩ := Option.bind_eq_some_iff.mp hrun
    obtain ⟨q, hq, he⟩ := Option.map_eq_some_iff.mp hrest
    cases he
    exact ih hq (h.2 fuel u a hstep)

/-- No slot of the vector stops a probe for the key. -/
def Table.spentFor (kg : Keying K) (key : K) (t : Table K V) : Bool :=
  (List.range t.tablesize).all fun i => !(t.slot i).stops kg key

/-- Two tombstones fill a table of one bit, and the next lookup goes on for
ever. -/
theorem tableRun_tombstones_diverge : ¬ ∃ fuel p,
    tableRun (V := Int) fuel fixnumKeying fixnumKeying (arcMkhash 1)
      [.insert 0 (some 1), .delete 0, .insert 5 (some 1), .delete 5, .lookup 0] = some p := by
  rw [tableRun_terminates_iff (arcMkhash_sized 1)]
  intro h
  have hspent : (tableRun (V := Int) 3 fixnumKeying fixnumKeying (arcMkhash 1)
      [.insert 0 (some 1), .delete 0, .insert 5 (some 1), .delete 5]).any
        (fun p => p.1.spentFor fixnumKeying 0) = true := by decide +kernel
  obtain ⟨⟨t, as⟩, hrun, hall⟩ := (Option.any_eq_true _ _).mp hspent
  obtain ⟨i, hi, hs⟩ := stopped_of_stoppedRun_append hrun h fixnumKeying 0 rfl
  have hno := List.all_eq_true.mp hall i (List.mem_range.mpr hi)
  simp [hs] at hno

end Termination

end Arcueid
