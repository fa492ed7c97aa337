import Mathlib.Order.Filter.AtTopBot.Basic
import Arcueid.Iso
import Arcueid.TableMap

/-! Tables of visited objects as maps from visit keys: nothing is deleted from
them while values are compared, so a visit always ends. -/

namespace Arcueid

open Filter TriangularProbing

section Fresh

variable {K V : Type} {fuel : Nat} {kg : Keying K} {t t' : Table K V} {key : K} {val r : Option V}

/-- A table from which nothing was deleted. -/
def Table.Fresh (t : Table K V) : Prop := ∀ i, t.slot i ≠ .cundef

theorem arcMkhash_fresh (n : Nat) : (arcMkhash n : Table K V).Fresh := fun _ => nofun

theorem Table.Fresh.setSlot {i : Nat} {e : Bucket K V} (ht : t.Fresh) :
    (t.setSlot i (.bucket e)).Fresh := by
  intro j
  by_cases hj : j = i
  · subst hj
    simp [Table.setSlot]
  · simpa [Table.setSlot, hj] using ht j

theorem Table.Fresh.insertNew {hashcode : Nat} (ht : t.Fresh)
    (h : Arcueid.insertNew fuel kg t key val hashcode = some t') : t'.Fresh := by
  obtain ⟨u, index, hu, -, rfl⟩ := insertNew_eq_some h
  have hfresh : u.Fresh := by
    unfold Table.roomFor at hu
    split at hu
    · obtain ⟨newtbl, hn, rfl⟩ := hashtableExpand_eq_some hu
      intro i hi
      rcases expand_slot_cases hn i with hi' | ⟨j, e', -, hi'⟩ <;> cases hi'.symm.trans hi
    · cases hu
      exact ht
  have hP : Table.Fresh { u with nentries := u.nentries + 1 } := hfresh
  unfold storeAt
  split <;> exact hP.setSlot

theorem Table.Fresh.arcHashInsert (ht : t.Fresh)
    (h : Arcueid.arcHashInsert fuel kg t key val = some (t', r)) : t'.Fresh := by
  cases hp : probeFor fuel kg t key with
  | none => simp [arcHashInsert_of_none hp] at h
  | some p =>
    obtain ⟨i, e⟩ := p
    by_cases he : e.bind Bucket.bvalue = none
    · rw [arcHashInsert_of_unbound hp he, Option.map_eq_some_iff] at h
      obtain ⟨u, hu, heq⟩ := h
      cases heq
      exact ht.insertNew hu
    · cases e with
      | none => exact absurd rfl he
      | some b =>
        rw [arcHashInsert_of_bound hp he] at h
        cases h
        exact Table.Fresh.setSlot ht

/-- The load limit leaves a never-used slot, where every probe stops. -/
theorem Table.Fresh.probe_ends (ht : t.Fresh) (hs : t.Sized) (kg : Keying K) (key : K) :
    ∃ fuel p, probeFor fuel kg t key = some p := by
  apply probeFor_terminates_iff.mpr
  obtain ⟨i, hi, hempty⟩ : ∃ i, i < t.tablesize ∧ (t.slot i).emptyp = true := by
    apply exists_empty_of_card_lt
    have h1 := hs.live_le
    have h2 := hs.le_limit
    have h3 : loadLimit t.hashbits < t.tablesize := loadLimit_lt t.hashbits
    rw [hs.limit] at h2
    rw [Table.liveCount] at h1
    omega
  refine ⟨i, hi, ?_⟩
  cases hslot : t.slot i with
  | cunbound => rfl
  | cundef => exact absurd hslot (ht i)
  | bucket e => simp [hslot, Slot.emptyp] at hempty

end Fresh

namespace Objects

/-- The table holds the visits `m`, by visit key. -/
structure Seen (tbl : VisitTable) (m : Int → Option Val) : Prop where
  fresh : tbl.Fresh
  refines : ∃ km : KeyMap fixnumLawful Val, Refines fixnumLawful tbl km ∧
    ∀ k, km (fixnumLawful.key k) = m k

theorem seen_arcMkhash : Seen (arcMkhash arcHashbits) fun _ => none :=
  ⟨arcMkhash_fresh _, _, arcMkhash_refines fixnumLawful arcHashbits, fun _ => rfl⟩

variable {tbl : VisitTable} {m : Int → Option Val} {v mykeyval : Val}

theorem Seen.congr {m' : Int → Option Val} (h : Seen tbl m) (heq : ∀ k, m k = m' k) :
    Seen tbl m' := by
  obtain rfl : m = m' := funext heq
  exact h

theorem Seen.lookup (h : Seen tbl m) (k : Int) :
    ∀ᶠ fuel in atTop, arcHashLookup fuel fixnumKeying tbl k = some (m k) := by
  obtain ⟨hfresh, km, hr, hkm⟩ := h
  obtain ⟨N, ⟨i, e⟩, hp⟩ := hfresh.probe_ends hr.sized fixnumKeying k
  have hval := hr.probe_value hp
  filter_upwards [eventually_ge_atTop N] with fuel hfuel
  simp [arcHashLookup, hashLookup, probeFor_mono hfuel hp, hval, hkm]

theorem Seen.insert (h : Seen tbl m) (k : Int) (w : Val) :
    ∃ tbl', ∀ᶠ fuel in atTop,
      arcHashInsert fuel fixnumKeying tbl k (some w) = some (tbl', some w) := by
  obtain ⟨hfresh, km, hr, hkm⟩ := h
  obtain ⟨N, ⟨tbl', r⟩, hins⟩ := (arcHashInsert_terminates_iff (some w) hr.sized).mpr
    (hfresh.probe_ends hr.sized fixnumKeying k)
  obtain ⟨-, rfl⟩ := hr.insert (by simp) hins
  refine ⟨tbl', ?_⟩
  filter_upwards [eventually_ge_atTop N] with fuel hfuel
  exact arcHashInsert_mono hfuel hins

theorem Seen.lookup_eq (h : Seen tbl m) {fuel : Nat} {k : Int} {r : Option Val}
    (hl : arcHashLookup fuel fixnumKeying tbl k = some r) : r = m k := by
  obtain ⟨-, km, hr, hkm⟩ := h
  cases hp : probeFor fuel fixnumKeying tbl k with
  | none => simp [arcHashLookup, hashLookup, hp] at hl
  | some p =>
    obtain ⟨i, e⟩ := p
    have hval := hr.probe_value hp
    rw [hkm] at hval
    simpa [arcHashLookup, hashLookup, hp, hval, eq_comm] using hl

theorem Seen.insert_eq (h : Seen tbl m) {fuel : Nat} {k : Int} {w : Val} {tbl' : VisitTable}
    {r : Option Val} (hins : arcHashInsert fuel fixnumKeying tbl k (some w) = some (tbl', r)) :
    Seen tbl' (Function.update m k (some w)) := by
  obtain ⟨hfresh, km, hr, hkm⟩ := h
  obtain ⟨hr', -⟩ := hr.insert (by simp) hins
  refine ⟨hfresh.arcHashInsert hins, _, hr', fun k' => ?_⟩
  by_cases hk : k' = k
  · subst hk
    simp
  · have hne : fixnumLawful.key k' ≠ fixnumLawful.key k := by
      intro heq
      exact hk (beq_iff_eq.mp (LawfulKeying.key_eq_iff.mp heq))
    simp [hk, hne, hkm]

/-- The value a first visit leaves for the object. -/
def visitMark (v : Val) (mykeyval : Val) : Val :=
  if mykeyval = .nil then .fixnum (arcVisitkey v) else mykeyval

/-- What a visit that ends does: it gives the mark of an object seen before, or
leaves one. -/
theorem Seen.visit2_ok (h : Seen tbl m) {fuel : Nat} {tbl' : VisitTable} {w : Val}
    (hv : arcVisit2 fuel v tbl (some mykeyval) = .ok (w, tbl')) :
    (m (arcVisitkey v) = some w ∧ tbl' = tbl) ∨
      (m (arcVisitkey v) = none ∧ w = .nil ∧
        Seen tbl' (Function.update m (arcVisitkey v) (some (visitMark v mykeyval)))) := by
  unfold arcVisit2 at hv
  have hmark : (if some mykeyval = some Val.nil then some (.fixnum (arcVisitkey v))
      else some mykeyval) = some (visitMark v mykeyval) := by
    by_cases hk : mykeyval = .nil <;> simp [visitMark, hk]
  simp only [hmark] at hv
  cases hl : arcHashLookup fuel fixnumKeying tbl (arcVisitkey v) with
  | none => simp [hl] at hv
  | some val =>
    have hval := h.lookup_eq hl
    cases val with
    | some val =>
      simp only [hl, Except.ok.injEq, Prod.mk.injEq] at hv
      obtain ⟨rfl, rfl⟩ := hv
      exact .inl ⟨hval.symm, rfl⟩
    | none =>
      simp only [hl] at hv
      cases hins : arcHashInsert fuel fixnumKeying tbl (arcVisitkey v)
          (some (visitMark v mykeyval)) with
      | none => simp [hins] at hv
      | some p =>
        obtain ⟨u, r⟩ := p
        simp only [hins, Except.ok.injEq, Prod.mk.injEq] at hv
        obtain ⟨rfl, rfl⟩ := hv
        exact .inr ⟨hval.symm, rfl, h.insert_eq hins⟩

theorem Seen.visit2_ends (h : Seen tbl m) (v mykeyval : Val) :
    ∃ w tbl', ∀ᶠ fuel in atTop, arcVisit2 fuel v tbl (some mykeyval) = .ok (w, tbl') := by
  cases hm : m (arcVisitkey v) with
  | some w =>
    refine ⟨w, tbl, ?_⟩
    filter_upwards [h.lookup (arcVisitkey v)] with fuel hl
    simp [arcVisit2, hl, hm]
  | none =>
    obtain ⟨tbl', hins⟩ := h.insert (arcVisitkey v) (visitMark v mykeyval)
    refine ⟨.nil, tbl', ?_⟩
    filter_upwards [h.lookup (arcVisitkey v), hins] with fuel hl hi
    unfold visitMark at hi
    by_cases hk : mykeyval = .nil <;> simp_all [arcVisit2]

end Objects

end Arcueid
