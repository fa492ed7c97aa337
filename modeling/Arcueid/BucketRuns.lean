import Mathlib.Logic.Relation
import Arcueid.BackPointers

/-! Runs of table operations and of the collector: in every memory reached, a
deletion takes out the binding of its key and no other, and a swept bucket clears no
slot but its own. -/

namespace Arcueid.Buckets

variable {K V : Type}

/-- An operation on a table, a part of one between which the collector may run, or the
sweep of an object. -/
inductive Step (m : Memory K V) : Memory K V → Prop
  | mkhash {t hv} (hashbits : Nat) : m.Free t → m.Free hv → Step m (arcMkhash m t hv hashbits)
  | hashInsert {fuel kg t newtbl bucket key val m'} : m.Free newtbl → m.Free bucket →
      arcHashInsert fuel kg m t newtbl bucket key val = some m' → Step m m'
  | xhashInsert {fuel kg t newtbl bucket key val m'} : m.Free newtbl → m.Free bucket →
      arcXhashInsert fuel kg m t newtbl bucket key val = some m' → Step m m'
  | hashDelete {fuel kg t key m' r} : arcHashDelete fuel kg m t key = some (m', r) → Step m m'
  | xhashDelete {fuel kg t key m' r} : arcXhashDelete fuel kg m t key = some (m', r) → Step m m'
  | expand {fuel t newtbl m'} : m.Free newtbl → hashtableExpand fuel m t newtbl = some m' → Step m m'
  | count {t ht n} : m.tables t = some ht → Step m (m.setTable t { ht with nentries := n })
  | store {t ht bucket index key val hashcode m'} : m.tables t = some ht → m.Free bucket →
      storeAt m ht bucket index key val hashcode = some m' → Step m m'
  | sweepBucket {b m'} : hbSweeper m b = some m' → Step m (m'.freeBucket b)
  | sweepVec {v m'} : (∀ t ht, m.tables t = some ht → ht.table ≠ v) →
      tablevecSweeper m v = some m' → Step m (m'.freeVec v)
  | sweepTable {t} : Step m (m.freeTable t)

variable {m m' : Memory K V} {v t b : Addr} {i : Nat} {ht : HashTable}

theorem linked_empty : Linked (Memory.empty : Memory K V) where
  back := .empty
  sized := nofun
  apart := nofun

theorem Step.linked (h : Step m m') (hm : Linked m) : Linked m' := by
  cases h with
  | mkhash hashbits _ hhv => exact arcMkhash_linked hm hhv.2.1
  | hashInsert hvec hfree h => exact arcHashInsert_linked hm hvec.2.1 hfree.1 h
  | xhashInsert hvec hfree h => exact arcXhashInsert_linked hm hvec.2.1 hfree.1 h
  | hashDelete h => exact arcHashDelete_linked hm h
  | xhashDelete h => exact arcXhashDelete_linked hm h
  | expand hvec h => exact (hashtableExpand_linked hm hvec.2.1 h).1
  | count htab => exact hm.count htab
  | store _ hfree h => exact storeAt_linked hm hfree.1 h
  | sweepBucket h => exact sweepBucket_linked hm h
  | sweepVec hfree h => exact sweepVec_linked hm hfree h
  | sweepTable => exact sweepTable_linked hm

theorem linked_of_run (hrun : Relation.ReflTransGen Step Memory.empty m) : Linked m := by
  induction hrun with
  | refl => exact linked_empty
  | tail _ hstep ih => exact hstep.linked ih

/-- The binding in slot `i` of the table is gone, and nothing else is: in every vector
each other slot reads as before. -/
structure Removes (m m' : Memory K V) (t : Addr) (ht : HashTable) (i : Nat) (e : Bucket K V) :
    Prop where
  bound : (m.view ht).slot i = .bucket e
  slots : ∀ v j, m'.slots v j = if (v, j) = (ht.table, i) then .cundef else m.slots v j
  tables : m'.tables = Function.update m.tables t (some { ht with nentries := ht.nentries - 1 })

/-- Only slots that refer to the bucket are changed. -/
def ClearsOnly (m m' : Memory K V) (b : Addr) : Prop :=
  ∀ v j s, m.slotRef v j = some s → s ≠ .bucket b → m'.slotRef v j = some s

section Removal

/-- A bucket that is read in a slot sits there, and names it. -/
theorem Linked.of_slots {e : Bucket K V} (hm : Linked m) (h : m.slots v i = .bucket e) :
    ∃ b e', m.slotRef v i = some (.bucket b) ∧ m.buckets b = some e' ∧ e'.btable = some v ∧
      e.bindex = i ∧ e.bvalue = e'.bvalue := by
  cases hs : m.slotRef v i with
  | none => simp [Memory.slots, hs] at h
  | some s =>
    cases s with
    | bucket b =>
      obtain ⟨e', he', hv, hi⟩ := hm.back.live (held_eq_some.mpr hs)
      simp only [Memory.slots, hs, he', Slot.bucket.injEq] at h
      subst h
      exact ⟨b, e', rfl, he', hv, hi, rfl⟩
    | _ => simp [Memory.slots, hs] at h

theorem deleteAt_removes {e : Bucket K V} (hm : Linked m) (htab : m.tables t = some ht)
    (h : (m.view ht).slot i = .bucket e) :
    ∃ m', deleteAt m t e.bindex = some (m', e.bvalue) ∧ Removes m m' t ht i e := by
  obtain ⟨b, e', hslot, hb, hv, hi, hval⟩ := hm.of_slots h
  obtain ⟨tv, hvec, hlt, -⟩ := slotRef_eq_some.mp hslot
  obtain ⟨m₁, hm₁⟩ : ∃ m₁, (m.setBucket b { e' with btable := none }).setSlot ht.table i .cundef =
      some m₁ := ⟨_, setSlot_eq_some.mpr ⟨tv, hvec, hlt, rfl⟩⟩
  refine ⟨m₁.setTable t { ht with nentries := ht.nentries - 1 }, ?_, h, fun v' j => ?_, ?_⟩
  · simp only [deleteAt, htab, hi, hslot, hb, hm₁, hval, Option.bind_eq_bind, Option.bind_some,
      Option.pure_def]
  · have href := slotRef_setSlot hm₁ v' j
    have hbuckets : m₁.buckets = Function.update m.buckets b (some { e' with btable := none }) := by
      obtain ⟨tv', -, -, rfl⟩ := setSlot_eq_some.mp hm₁
      rfl
    by_cases hj : (v', j) = (ht.table, i)
    · rw [if_pos hj] at href
      rw [if_pos hj, show (m₁.setTable t _).slots v' j = m₁.slots v' j from rfl]
      simp [Memory.slots, href]
    · rw [if_neg hj] at href
      have href' : m₁.slotRef v' j = m.slotRef v' j := href
      rw [if_neg hj, show (m₁.setTable t _).slots v' j = m₁.slots v' j from rfl]
      unfold Memory.slots
      rw [href']
      cases hs : m.slotRef v' j with
      | none => rfl
      | some s =>
        cases s with
        | bucket b' =>
          have hne : b' ≠ b := by
            rintro rfl
            exact hj (hm.back.eq_of_eq (held_eq_some.mpr hs) (held_eq_some.mpr hslot))
          simp [hbuckets, hne]
        | _ => rfl
  · rw [Memory.setTable, (sameTables_setSlot hm₁).tables]
    rfl

theorem arcXhashDelete_removes {fuel : Nat} {kg : Keying K} {key : K} {e : Bucket K V}
    (hm : Linked m) (htab : m.tables t = some ht)
    (hp : probeFor fuel kg (m.view ht) key = some (i, some e)) :
    kg.same e.bkey key = true ∧
      ∃ m', arcXhashDelete fuel kg m t key = some (m', e.bvalue) ∧ Removes m m' t ht i e := by
  obtain ⟨hbucket, -, -, -, hstops, -⟩ := probeFor_eq_some_iff.mp hp
  have hslot : (m.view ht).slot i = .bucket e := by
    cases hs : (m.view ht).slot i with
    | bucket e' =>
      rw [hs] at hbucket
      cases hbucket
      rfl
    | _ =>
      rw [hs] at hbucket
      cases hbucket
  rw [hslot] at hstops
  obtain ⟨m', hdel, hrem⟩ := deleteAt_removes hm htab hslot
  refine ⟨hstops, m', ?_, hrem⟩
  simp only [arcXhashDelete, htab, hp, Option.bind_eq_bind, Option.bind_some]
  exact hdel

theorem hbSweeper_clearsOnly (hm : Linked m) (h : hbSweeper m b = some m') : ClearsOnly m m' b := by
  intro v' j s hs hne
  rcases hbSweeper_eq_some hm h with ⟨rfl, -⟩ | ⟨v, i, hheld, hset⟩
  · exact hs
  · rw [slotRef_setSlot hset, if_neg ?_, hs]
    rintro heq
    cases heq
    rw [held_eq_some.mp hheld] at hs
    exact hne (Option.some.inj hs).symm

end Removal

/-- In every memory that table operations and sweeps lead to, slots and buckets name each
other, a general deletion removes the binding it found or nothing, and sweeping a bucket
clears no slot of another bucket. -/
theorem back_pointers (hrun : Relation.ReflTransGen Step Memory.empty m) :
    (∀ v i b, m.slotRef v i = some (.bucket b) →
      ∃ e, m.buckets b = some e ∧ e.bindex = i ∧ e.btable = some v) ∧
    (∀ b e, m.buckets b = some e → (∀ v i, m.slotRef v i ≠ some (.bucket b)) → e.btable = none) ∧
    (∀ fuel kg t ht key i e, m.tables t = some ht →
      probeFor fuel kg (m.view ht) key = some (i, some e) → kg.same e.bkey key = true ∧
        ∃ m', arcXhashDelete fuel kg m t key = some (m', e.bvalue) ∧ Removes m m' t ht i e) ∧
    (∀ fuel kg t ht key i, m.tables t = some ht →
      probeFor fuel kg (m.view ht) key = some (i, none) →
        arcXhashDelete fuel kg m t key = some (m, none)) ∧
    (∀ b e, m.buckets b = some e → ∃ m', hbSweeper m b = some m' ∧ ClearsOnly m m' b) := by
  have hm := linked_of_run hrun
  refine ⟨fun v i b hslot => ?_, fun b e hb hloose => ?_, fun fuel kg t ht key i e htab hp => ?_,
    fun fuel kg t ht key i htab hp => ?_, fun b e hb => ?_⟩
  · obtain ⟨e, he, hv, hi⟩ := hm.back.live (held_eq_some.mpr hslot)
    exact ⟨e, he, hi, hv⟩
  · by_contra hne
    obtain ⟨v, hv⟩ := Option.ne_none_iff_exists'.mp hne
    have howner := owner_eq_some.mpr ⟨e, hb, hv, rfl⟩
    exact hloose v e.bindex (held_eq_some.mp ((hm.back _ _).mpr howner))
  · exact arcXhashDelete_removes hm htab hp
  · simp only [arcXhashDelete, htab, hp, Option.bind_eq_bind, Option.bind_some]
    rfl
  · obtain ⟨m', hsweep⟩ := hbSweeper_ends hm hb
    exact ⟨m', hsweep, hbSweeper_clearsOnly hm hsweep⟩

/-- Two insertions, of which the second expands the table. -/
theorem back_pointers_expanded : ∃ m : Memory Nat Nat, Relation.ReflTransGen Step .empty m ∧
    m.slotRef 4 1 = some (.bucket 3) ∧
    ∃ e, m.buckets 3 = some e ∧ e.bindex = 1 ∧ e.btable = some 4 := by
  have h₂ : (arcXhashInsert 9 ⟨fun a b => a == b, id⟩ (arcMkhash .empty 0 1 1) 0 2 3 5
    (some 50)).isSome = true := by decide +kernel
  have h₃ : (arcXhashInsert 9 ⟨fun a b => a == b, id⟩ (Option.get _ h₂) 0 4 6 7
    (some 70)).isSome = true := by decide +kernel +revert
  have hslot : (Option.get _ h₃).slotRef 4 1 = some (.bucket 3) := by decide +kernel +revert
  have hfree : (Option.get _ h₂).Free 4 ∧ (Option.get _ h₂).Free 6 := by
    simp only [Memory.Free, ← Option.isNone_iff_eq_none]
    decide +kernel +revert
  have hnew : Step (Memory.empty (K := Nat) (V := Nat)) (arcMkhash .empty 0 1 1) :=
    .mkhash 1 ⟨rfl, rfl, rfl⟩ ⟨rfl, rfl, rfl⟩
  have hfirst := Step.xhashInsert ⟨rfl, rfl, rfl⟩ ⟨rfl, rfl, rfl⟩ (Option.some_get h₂).symm
  have hsecond := Step.xhashInsert hfree.1 hfree.2 (Option.some_get h₃).symm
  have hrun := ((Relation.ReflTransGen.single hnew).tail hfirst).tail hsecond
  exact ⟨_, hrun, hslot, (back_pointers hrun).1 4 1 3 hslot⟩

end Arcueid.Buckets
