import Arcueid.Lib.PartialInverse
import Arcueid.BucketHeap
import Arcueid.TableProbes

/-! The slot of a vector refers to the bucket that names this vector and this slot,
and only to it, whatever is inserted, deleted, moved and swept. -/

namespace Arcueid.Buckets

open PartialInverse

variable {K V : Type} {m m' : Memory K V} {v t b : Addr} {i : Nat} {s : SlotRef}
  {e : HashBucket K V} {ht : HashTable}

section Links

def SlotRef.bucket? : SlotRef → Option Addr
  | .bucket b => some b
  | _ => none

/-- The bucket in a slot of a live vector. -/
def Memory.held (m : Memory K V) (p : Addr × Nat) : Option Addr :=
  (m.slotRef p.1 p.2).bind SlotRef.bucket?

/-- The vector and the slot that a live bucket names. -/
def Memory.owner (m : Memory K V) (b : Addr) : Option (Addr × Nat) := do
  let e ← m.buckets b
  let v ← e.btable
  return (v, e.bindex)

/-- Slots and buckets name each other. -/
def BackPointers (m : Memory K V) : Prop := Inverse m.held m.owner

theorem held_eq_some : m.held (v, i) = some b ↔ m.slotRef v i = some (.bucket b) := by
  unfold Memory.held
  cases hs : m.slotRef v i with
  | none => simp
  | some s => cases s <;> simp [SlotRef.bucket?]

theorem owner_eq_some :
    m.owner b = some (v, i) ↔ ∃ e, m.buckets b = some e ∧ e.btable = some v ∧ e.bindex = i := by
  unfold Memory.owner
  cases hb : m.buckets b with
  | none => simp
  | some e =>
    cases he : e.btable with
    | none => simp [he]
    | some v' => simp [he]

theorem setSlot_eq_some : m.setSlot v i s = some m' ↔ ∃ tv, m.vecs v = some tv ∧ i < tv.veclen ∧
    m' = { m with vecs := Function.update m.vecs v
                    (some { tv with vindex := Function.update tv.vindex i s }) } := by
  unfold Memory.setSlot
  cases hv : m.vecs v with
  | none => simp
  | some tv =>
    by_cases hi : i < tv.veclen
    · simp [hi, eq_comm]
    · simp [hi]

theorem slotRef_eq_some : m.slotRef v i = some s ↔
    ∃ tv, m.vecs v = some tv ∧ i < tv.veclen ∧ tv.vindex i = s := by
  unfold Memory.slotRef
  cases hv : m.vecs v with
  | none => simp
  | some tv =>
    by_cases hi : i < tv.veclen
    · simp [hi]
    · simp [hi]

theorem slotRef_setSlot (h : m.setSlot v i s = some m') (v' : Addr) (j : Nat) :
    m'.slotRef v' j = if (v', j) = (v, i) then some s else m.slotRef v' j := by
  obtain ⟨tv, hv, hi, rfl⟩ := setSlot_eq_some.mp h
  unfold Memory.slotRef
  by_cases hv' : v' = v
  · subst hv'
    by_cases hj : j = i
    · subst hj
      simp [hi]
    · simp [hv, hj]
  · simp [hv']

theorem held_setSlot (h : m.setSlot v i s = some m') :
    m'.held = Function.update m.held (v, i) s.bucket? := by
  funext ⟨v', j⟩
  unfold Memory.held
  rw [slotRef_setSlot h]
  by_cases hj : (v', j) = (v, i)
  · simp [hj]
  · simp [hj]

theorem owner_setSlot (h : m.setSlot v i s = some m') : m'.owner = m.owner := by
  obtain ⟨tv, -, -, rfl⟩ := setSlot_eq_some.mp h
  rfl

@[simp] theorem held_setBucket : (m.setBucket b e).held = m.held := rfl

@[simp] theorem owner_setBucket : (m.setBucket b e).owner =
    Function.update m.owner b (e.btable.map fun v => (v, e.bindex)) := by
  funext b'
  by_cases hb : b' = b
  · subst hb
    cases he : e.btable <;> simp [Memory.owner, Memory.setBucket, he]
  · simp [Memory.owner, Memory.setBucket, hb]

@[simp] theorem held_setTable : (m.setTable t ht).held = m.held := rfl

@[simp] theorem owner_setTable : (m.setTable t ht).owner = m.owner := rfl

end Links

/-- Slots and buckets name each other, and each table has a vector of its own, as long
as its hash bits say. -/
structure Linked (m : Memory K V) : Prop where
  back : BackPointers m
  sized : ∀ {t ht}, m.tables t = some ht →
    ∃ tv, m.vecs ht.table = some tv ∧ tv.veclen = hashsize ht.hashbits
  apart : ∀ {t t' ht ht'}, m.tables t = some ht → m.tables t' = some ht' →
    ht.table = ht'.table → t = t'

section Writes

theorem vecs_setSlot (h : m.setSlot v i s = some m') (v' : Addr) :
    (m'.vecs v').map TableVec.veclen = (m.vecs v').map TableVec.veclen := by
  obtain ⟨tv, hv, -, rfl⟩ := setSlot_eq_some.mp h
  by_cases hv' : v' = v
  · subst hv'
    simp [hv]
  · simp [hv']

/-- The tables and the lengths of the vectors are the same. -/
structure SameTables (m m' : Memory K V) : Prop where
  tables : m'.tables = m.tables
  veclen : ∀ v, (m'.vecs v).map TableVec.veclen = (m.vecs v).map TableVec.veclen

theorem SameTables.refl : SameTables m m := ⟨rfl, fun _ => rfl⟩

theorem SameTables.trans {m'' : Memory K V} (h : SameTables m m') (h' : SameTables m' m'') :
    SameTables m m'' :=
  ⟨h'.tables.trans h.tables, fun v => (h'.veclen v).trans (h.veclen v)⟩

theorem sameTables_setSlot (h : m.setSlot v i s = some m') : SameTables m m' := by
  refine ⟨?_, vecs_setSlot h⟩
  obtain ⟨tv, -, -, rfl⟩ := setSlot_eq_some.mp h
  rfl

theorem sameTables_setBucket : SameTables m (m.setBucket b e) := ⟨rfl, fun _ => rfl⟩

theorem Linked.of_sameTables (hm : Linked m) (h : SameTables m m') (hback : BackPointers m') :
    Linked m' where
  back := hback
  sized := by
    intro t ht htab
    rw [h.tables] at htab
    obtain ⟨tv, hv, hlen⟩ := hm.sized htab
    have hveclen := h.veclen ht.table
    rw [hv] at hveclen
    obtain ⟨tv', hv', hlen'⟩ := Option.map_eq_some_iff.mp hveclen
    exact ⟨tv', hv', by rw [hlen', hlen]⟩
  apart := by
    intro t t' ht ht' htab htab'
    rw [h.tables] at htab htab'
    exact hm.apart htab htab'

theorem Linked.bind (hm : Linked m) (hfree : m.buckets b = none) (hempty : m.held (v, i) = none)
    (hv : e.btable = some v) (hi : e.bindex = i)
    (h : (m.setBucket b e).setSlot v i (.bucket b) = some m') : Linked m' := by
  refine hm.of_sameTables (sameTables_setBucket.trans (sameTables_setSlot h)) ?_
  unfold BackPointers
  rw [held_setSlot h, owner_setSlot h, held_setBucket, owner_setBucket, hv, hi]
  exact hm.back.link hempty (by simp [Memory.owner, hfree])

theorem Linked.assign {val : Option V} (hm : Linked m) (hb : m.buckets b = some e) :
    Linked (m.setBucket b { e with bvalue := val }) := by
  refine hm.of_sameTables sameTables_setBucket ?_
  unfold BackPointers
  have howner : m.owner b = e.btable.map fun v => (v, e.bindex) := by
    cases he : e.btable <;> simp [Memory.owner, hb, he]
  rw [held_setBucket, owner_setBucket, ← howner, Function.update_eq_self]
  exact hm.back

theorem Linked.unbind (hm : Linked m) (hheld : m.held (v, i) = some b)
    (hs : s.bucket? = none)
    (h : (m.setBucket b { e with btable := none }).setSlot v i s = some m') : Linked m' := by
  refine hm.of_sameTables (sameTables_setBucket.trans (sameTables_setSlot h)) ?_
  unfold BackPointers
  rw [held_setSlot h, owner_setSlot h, held_setBucket, owner_setBucket, hs]
  exact hm.back.unlink hheld

end Writes

section Expansion

variable {fuel oldtbl newtbl nhashbits : Nat}

/-- A slot that reads as empty holds no bucket, if the bucket it refers to is live. -/
theorem held_eq_none_of_emptyp (hlive : ∀ b, m.held (v, i) = some b → m.buckets b ≠ none)
    (h : (m.slots v i).emptyp = true) : m.held (v, i) = none := by
  by_contra hne
  obtain ⟨b, hb⟩ := Option.ne_none_iff_exists'.mp hne
  have hslot := held_eq_some.mp hb
  obtain ⟨e, he⟩ := Option.ne_none_iff_exists'.mp (hlive b hb)
  simp [Memory.slots, hslot, he, Slot.emptyp] at h

theorem BackPointers.live (hm : BackPointers m) {p : Addr × Nat} (h : m.held p = some b) :
    ∃ e, m.buckets b = some e ∧ e.btable = some p.1 ∧ e.bindex = p.2 :=
  owner_eq_some.mp ((hm p b).mp h)

theorem expandSlot_eq_some (h : expandSlot fuel oldtbl newtbl nhashbits m i = some m') :
    m' = m ∨ ∃ b e m₁ index, m.slotRef oldtbl i = some (.bucket b) ∧ m.buckets b = some e ∧
      m.setSlot oldtbl i .cunbound = some m₁ ∧ (m₁.slots newtbl index).emptyp = true ∧
      (m₁.setBucket b { e with btable := some newtbl, bindex := index }).setSlot newtbl index
        (.bucket b) = some m' := by
  unfold expandSlot at h
  cases hs : m.slotRef oldtbl i with
  | none => simp [hs] at h
  | some s =>
    cases s with
    | bucket b =>
      simp only [hs, Option.bind_eq_bind, Option.bind_some, Option.bind_eq_some_iff] at h
      obtain ⟨e, he, m₁, hm₁, index, hindex, hm'⟩ := h
      rw [expandLoop_eq_walk, hashsize] at hindex
      obtain ⟨n, -, hstop, -⟩ := walk_home_eq_some hindex
      exact .inr ⟨b, e, m₁, index, rfl, he, hm₁, hstop, hm'⟩
    | cunbound =>
      simp only [hs, Option.bind_eq_bind, Option.bind_some, Option.pure_def, Option.some.injEq] at h
      exact .inl h.symm
    | cundef =>
      simp only [hs, Option.bind_eq_bind, Option.bind_some, Option.pure_def, Option.some.injEq] at h
      exact .inl h.symm

/-- What the moves of an expansion keep beside the links. -/
structure Moves (m m' : Memory K V) : Prop extends SameTables m m' where
  freed : ∀ b, m.buckets b = none → m'.buckets b = none

theorem expandSlot_linked (hm : Linked m)
    (h : expandSlot fuel oldtbl newtbl nhashbits m i = some m') : Linked m' ∧ Moves m m' := by
  rcases expandSlot_eq_some h with rfl | ⟨b, e, m₁, index, hslot, he, h1, hempty, h2⟩
  · exact ⟨hm, .refl, fun _ hb => hb⟩
  have hbuckets : m₁.buckets = m.buckets := by
    obtain ⟨tv, -, -, rfl⟩ := setSlot_eq_some.mp h1
    rfl
  have hnone : m₁.held (newtbl, index) = none := by
    refine held_eq_none_of_emptyp (fun b' hb' => ?_) hempty
    rw [held_setSlot h1, Function.update_apply] at hb'
    split at hb'
    · cases hb'
    · obtain ⟨e', he', -⟩ := hm.back.live hb'
      rw [hbuckets, he']
      exact nofun
  have hsame := (sameTables_setSlot h1).trans (sameTables_setBucket.trans (sameTables_setSlot h2))
  refine ⟨hm.of_sameTables hsame ?_, hsame, fun b' hb' => ?_⟩
  · have hback := hm.back.unlink (held_eq_some.mpr hslot)
    have hheld : m₁.held = Function.update m.held (oldtbl, i) none := held_setSlot h1
    rw [← hheld] at hback
    have hlink := hback.link hnone (Function.update_self ..)
    rw [Function.update_idem] at hlink
    unfold BackPointers
    rw [held_setSlot h2, owner_setSlot h2, held_setBucket, owner_setBucket, owner_setSlot h1]
    exact hlink
  · have hne : b' ≠ b := by
      rintro rfl
      rw [he] at hb'
      cases hb'
    obtain ⟨tv, -, -, rfl⟩ := setSlot_eq_some.mp h2
    simp [Memory.setBucket, hne, hbuckets, hb']

theorem Moves.trans {m'' : Memory K V} (h : Moves m m') (h' : Moves m' m'') : Moves m m'' :=
  ⟨h.toSameTables.trans h'.toSameTables, fun b hb => h'.freed b (h.freed b hb)⟩

theorem expand_linked {is : List Nat} (hm : Linked m)
    (h : is.foldlM (expandSlot fuel oldtbl newtbl nhashbits) m = some m') :
    Linked m' ∧ Moves m m' := by
  induction is generalizing m with
  | nil =>
    simp only [List.foldlM_nil, Option.pure_def, Option.some.injEq] at h
    subst h
    exact ⟨hm, .refl, fun _ hb => hb⟩
  | cons i is ih =>
    simp only [List.foldlM_cons, Option.bind_eq_bind, Option.bind_eq_some_iff] at h
    obtain ⟨m₁, h1, h2⟩ := h
    obtain ⟨hm₁, hmoves⟩ := expandSlot_linked hm h1
    obtain ⟨hm', hmoves'⟩ := ih hm₁ h2
    exact ⟨hm', hmoves.trans hmoves'⟩

theorem Linked.newVec {n : Nat} (hm : Linked m) (hfree : m.vecs v = none) :
    Linked { m with vecs := Function.update m.vecs v (some ⟨n, fun _ => .cunbound⟩) } where
  back := by
    have hheld : Memory.held
        { m with vecs := Function.update m.vecs v (some ⟨n, fun _ => .cunbound⟩) } = m.held := by
      funext ⟨v', j⟩
      by_cases hv : v' = v
      · subst hv
        by_cases hj : j < n <;> simp [Memory.held, Memory.slotRef, hfree, hj, SlotRef.bucket?]
      · simp [Memory.held, Memory.slotRef, hv]
    unfold BackPointers
    rw [hheld]
    exact hm.back
  sized := by
    intro t ht htab
    obtain ⟨tv, hv, hlen⟩ := hm.sized htab
    have hne : ht.table ≠ v := by
      rintro heq
      rw [heq, hfree] at hv
      cases hv
    exact ⟨tv, by simp [hne, hv], hlen⟩
  apart := hm.apart

/-- A table gets a vector of the right length that no other table has. -/
theorem Linked.setTable (hm : Linked m)
    (hsized : ∃ tv, m.vecs ht.table = some tv ∧ tv.veclen = hashsize ht.hashbits)
    (hapart : ∀ t' ht', m.tables t' = some ht' → ht'.table = ht.table → t' = t) :
    Linked (m.setTable t ht) where
  back := hm.back
  sized := by
    intro t' ht' htab
    by_cases ht' : t' = t
    · subst ht'
      simp only [Memory.setTable, Function.update_self, Option.some.injEq] at htab
      subst htab
      exact hsized
    · simp only [Memory.setTable, Function.update_of_ne ht'] at htab
      exact hm.sized htab
  apart := by
    intro t₁ t₂ ht₁ ht₂ h1 h2 heq
    by_cases h1t : t₁ = t
    · subst h1t
      by_cases h2t : t₂ = t₁
      · exact h2t.symm
      · simp only [Memory.setTable, Function.update_self, Option.some.injEq] at h1
        subst h1
        simp only [Memory.setTable, Function.update_of_ne h2t] at h2
        exact (hapart t₂ ht₂ h2 heq.symm).symm
    · simp only [Memory.setTable, Function.update_of_ne h1t] at h1
      by_cases h2t : t₂ = t
      · subst h2t
        simp only [Memory.setTable, Function.update_self, Option.some.injEq] at h2
        subst h2
        exact hapart t₁ ht₁ h1 heq
      · simp only [Memory.setTable, Function.update_of_ne h2t] at h2
        exact hm.apart h1 h2 heq

theorem Linked.count {n : Nat} (hm : Linked m) (htab : m.tables t = some ht) :
    Linked (m.setTable t { ht with nentries := n }) := by
  have hsized := hm.sized htab
  exact hm.setTable hsized fun _ _ htab' heq => hm.apart htab' htab heq

theorem hashtableExpand_linked (hm : Linked m) (hfree : m.vecs newtbl = none)
    (h : hashtableExpand fuel m t newtbl = some m') :
    Linked m' ∧ ∀ b, m.buckets b = none → m'.buckets b = none := by
  unfold hashtableExpand at h
  simp only [Option.bind_eq_bind, Option.bind_eq_some_iff, Option.pure_def, Option.some.injEq] at h
  obtain ⟨ht, htab, old, -, m₁, hfold, rfl⟩ := h
  obtain ⟨hm₁, hmoves⟩ := expand_linked (hm.newVec hfree) hfold
  refine ⟨hm₁.setTable ?_ fun t' ht' htab' heq => ?_, hmoves.freed⟩
  · have hlen := hmoves.veclen newtbl
    simp only [Function.update_self, Option.map_some] at hlen
    exact Option.map_eq_some_iff.mp hlen
  · rw [hmoves.tables] at htab'
    obtain ⟨tv, hv, -⟩ := hm.sized htab'
    rw [heq, hfree] at hv
    cases hv

end Expansion

section Operations

variable {fuel newtbl bucket index hashcode : Nat} {kg : Keying K} {key : K} {val r : Option V}

theorem storeAt_linked (hm : Linked m) (hfree : m.buckets bucket = none)
    (h : storeAt m ht bucket index key val hashcode = some m') : Linked m' := by
  unfold storeAt at h
  cases hs : m.slotRef ht.table index with
  | none => simp [hs] at h
  | some s =>
    cases s with
    | bucket b =>
      simp only [hs, Option.bind_eq_bind, Option.bind_some, Option.bind_eq_some_iff, Option.pure_def,
        Option.some.injEq] at h
      obtain ⟨e, he, rfl⟩ := h
      exact hm.assign he
    | _ =>
      simp only [hs, Option.bind_eq_bind, Option.bind_some] at h
      refine hm.bind hfree ?_ rfl rfl h
      simp [Memory.held, hs, SlotRef.bucket?]

theorem roomFor_linked (hm : Linked m) (hvec : m.vecs newtbl = none)
    (h : roomFor fuel m t newtbl = some m') :
    Linked m' ∧ ∀ b, m.buckets b = none → m'.buckets b = none := by
  unfold roomFor at h
  simp only [Option.bind_eq_bind, Option.bind_eq_some_iff] at h
  obtain ⟨ht, -, hroom⟩ := h
  split at hroom
  · exact hashtableExpand_linked hm hvec hroom
  · cases hroom
    exact ⟨hm, fun _ hb => hb⟩

theorem insertNew_linked (hm : Linked m) (hvec : m.vecs newtbl = none)
    (hfree : m.buckets bucket = none)
    (h : insertNew fuel kg m t newtbl bucket key val hashcode = some m') : Linked m' := by
  unfold insertNew at h
  simp only [Option.bind_eq_bind, Option.bind_eq_some_iff] at h
  obtain ⟨m₁, hroom, ht₁, htab₁, index, -, hstore⟩ := h
  obtain ⟨hm₁, hkeep⟩ := roomFor_linked hm hvec hroom
  exact storeAt_linked (hm₁.count htab₁) (hkeep _ hfree) hstore

theorem arcHashInsert_linked (hm : Linked m) (hvec : m.vecs newtbl = none)
    (hfree : m.buckets bucket = none)
    (h : arcHashInsert fuel kg m t newtbl bucket key val = some m') : Linked m' := by
  unfold arcHashInsert at h
  simp only [Option.bind_eq_bind, Option.bind_eq_some_iff] at h
  obtain ⟨ht, -, ⟨old, index⟩, -, s, hs, hmatch⟩ := h
  split at hmatch
  · simp only [Option.bind_eq_some_iff, Option.pure_def, Option.some.injEq] at hmatch
    obtain ⟨e, he, rfl⟩ := hmatch
    exact hm.assign he
  · exact insertNew_linked hm hvec hfree hmatch

theorem arcXhashInsert_linked (hm : Linked m) (hvec : m.vecs newtbl = none)
    (hfree : m.buckets bucket = none)
    (h : arcXhashInsert fuel kg m t newtbl bucket key val = some m') : Linked m' := by
  unfold arcXhashInsert at h
  simp only [Option.bind_eq_bind, Option.bind_eq_some_iff] at h
  obtain ⟨ht, -, ⟨index, found⟩, -, s, hs, hmatch⟩ := h
  split at hmatch
  · simp only [Option.bind_eq_some_iff, Option.pure_def, Option.some.injEq] at hmatch
    obtain ⟨e, he, rfl⟩ := hmatch
    exact hm.assign he
  · exact insertNew_linked hm hvec hfree hmatch

theorem deleteAt_eq_some (h : deleteAt m t index = some (m', r)) :
    ∃ ht b e m₁, m.tables t = some ht ∧ m.slotRef ht.table index = some (.bucket b) ∧
      m.buckets b = some e ∧ r = e.bvalue ∧
      (m.setBucket b { e with btable := none }).setSlot ht.table index .cundef = some m₁ ∧
      m' = m₁.setTable t { ht with nentries := ht.nentries - 1 } := by
  unfold deleteAt at h
  simp only [Option.bind_eq_bind, Option.bind_eq_some_iff] at h
  obtain ⟨ht, htab, s, hs, hmatch⟩ := h
  cases s with
  | bucket b =>
    simp only [Option.bind_eq_some_iff, Option.pure_def, Option.some.injEq, Prod.mk.injEq] at hmatch
    obtain ⟨e, he, m₁, hm₁, rfl, rfl⟩ := hmatch
    exact ⟨ht, b, e, m₁, htab, hs, he, rfl, hm₁, rfl⟩
  | _ => cases hmatch

theorem deleteAt_linked (hm : Linked m) (h : deleteAt m t index = some (m', r)) : Linked m' := by
  obtain ⟨ht, b, e, m₁, htab, hs, -, -, hm₁, rfl⟩ := deleteAt_eq_some h
  refine (hm.unbind (held_eq_some.mpr hs) rfl hm₁).count ?_
  rw [(sameTables_setSlot hm₁).tables]
  exact htab

theorem arcHashDelete_linked (hm : Linked m)
    (h : arcHashDelete fuel kg m t key = some (m', r)) : Linked m' := by
  unfold arcHashDelete at h
  simp only [Option.bind_eq_bind, Option.bind_eq_some_iff] at h
  obtain ⟨ht, -, ⟨old, index⟩, -, hmatch⟩ := h
  cases old with
  | some v => exact deleteAt_linked hm hmatch
  | none =>
    cases hmatch
    exact hm

theorem arcXhashDelete_linked (hm : Linked m)
    (h : arcXhashDelete fuel kg m t key = some (m', r)) : Linked m' := by
  unfold arcXhashDelete at h
  simp only [Option.bind_eq_bind, Option.bind_eq_some_iff] at h
  obtain ⟨ht, -, ⟨index, found⟩, -, hmatch⟩ := h
  cases found with
  | some e => exact deleteAt_linked hm hmatch
  | none =>
    cases hmatch
    exact hm

theorem arcMkhash_linked {hv n : Nat} (hm : Linked m) (hfree : m.vecs hv = none) :
    Linked (arcMkhash m t hv n) := by
  have hnew := hm.newVec (n := hashsize n) hfree
  unfold arcMkhash
  refine hnew.setTable ⟨_, Function.update_self .., rfl⟩ ?_
  intro t' ht' htab heq
  obtain ⟨tv, hv', -⟩ := hm.sized htab
  rw [heq, hfree] at hv'
  cases hv'

end Operations

section Sweeps

theorem hbSweeper_ends (hm : Linked m) (hb : m.buckets b = some e) :
    ∃ m', hbSweeper m b = some m' := by
  unfold hbSweeper
  cases he : e.btable with
  | none => exact ⟨m, by simp [hb, he]⟩
  | some v =>
    have hheld : m.held (v, e.bindex) = some b := (hm.back _ _).mpr (owner_eq_some.mpr ⟨e, hb, he, rfl⟩)
    obtain ⟨tv, hv, hi, -⟩ := slotRef_eq_some.mp (held_eq_some.mp hheld)
    exact ⟨_, by simp only [hb, he, Option.bind_eq_bind, Option.bind_some]; exact setSlot_eq_some.mpr ⟨tv, hv, hi, rfl⟩⟩

/-- Sweeping a bucket clears its own slot, if it has one. -/
theorem hbSweeper_eq_some (hm : Linked m) (h : hbSweeper m b = some m') :
    (m' = m ∧ m.owner b = none) ∨ ∃ v i, m.held (v, i) = some b ∧ m.setSlot v i .cundef = some m' := by
  unfold hbSweeper at h
  simp only [Option.bind_eq_bind, Option.bind_eq_some_iff] at h
  obtain ⟨e, hb, hmatch⟩ := h
  cases he : e.btable with
  | none =>
    simp only [he, Option.pure_def, Option.some.injEq] at hmatch
    exact .inl ⟨hmatch.symm, by simp [Memory.owner, hb, he]⟩
  | some v =>
    simp only [he] at hmatch
    exact .inr ⟨v, e.bindex, (hm.back _ _).mpr (owner_eq_some.mpr ⟨e, hb, he, rfl⟩), hmatch⟩

theorem owner_freeBucket : (m.freeBucket b).owner = Function.update m.owner b none := by
  funext b'
  by_cases hb : b' = b
  · subst hb
    simp [Memory.owner, Memory.freeBucket]
  · simp [Memory.owner, Memory.freeBucket, hb]

theorem sweepBucket_linked (hm : Linked m) (h : hbSweeper m b = some m') :
    Linked (m'.freeBucket b) := by
  rcases hbSweeper_eq_some hm h with ⟨rfl, hnone⟩ | ⟨v, i, hheld, hset⟩
  · refine hm.of_sameTables ⟨rfl, fun _ => rfl⟩ ?_
    unfold BackPointers
    rw [owner_freeBucket, ← hnone, Function.update_eq_self]
    exact hm.back
  · refine hm.of_sameTables ((sameTables_setSlot hset).trans ⟨rfl, fun _ => rfl⟩) ?_
    unfold BackPointers
    rw [owner_freeBucket, show (m'.freeBucket b).held = m'.held from rfl, held_setSlot hset,
      owner_setSlot hset]
    exact hm.back.unlink hheld

/-- A vector whose first `n` slots were gone through. -/
structure Cleared (m m' : Memory K V) (v n : Nat) : Prop where
  vecs : m'.vecs = m.vecs
  tables : m'.tables = m.tables
  owner : ∀ b, m'.owner b = (m.owner b).filter fun p => ¬ (p.1 = v ∧ p.2 < n)

theorem Cleared.zero : Cleared m m v 0 := by
  refine ⟨rfl, rfl, fun b => ?_⟩
  cases m.owner b <;> simp [Option.filter]

theorem Cleared.succ {m₁ : Memory K V} {tv : TableVec} {n : Nat} (hm : Linked m)
    (hc : Cleared m m₁ v n) (hv : m.vecs v = some tv) (hn : n < tv.veclen)
    (h : clearBtable tv m₁ n = some m') : Cleared m m' v (n + 1) := by
  have hheld : m.held (v, n) = (tv.vindex n).bucket? := by
    simp [Memory.held, Memory.slotRef, hv, hn]
  have hkeep : ∀ b, m.owner b ≠ some (v, n) → (m.owner b).filter (fun p => ¬ (p.1 = v ∧ p.2 < n)) =
      (m.owner b).filter fun p => ¬ (p.1 = v ∧ p.2 < n + 1) := by
    intro b hb
    cases howner : m.owner b with
    | none => rfl
    | some p =>
      obtain ⟨v', i⟩ := p
      have hne : ¬ (v' = v ∧ i = n) := by
        rintro ⟨rfl, rfl⟩
        exact hb howner
      have hiff : (v' = v ∧ i < n) ↔ (v' = v ∧ i < n + 1) := by
        rw [Nat.lt_succ_iff_lt_or_eq]
        tauto
      simp only [Option.filter, hiff]
  unfold clearBtable at h
  cases hs : tv.vindex n with
  | bucket b =>
    simp only [hs, Option.bind_eq_bind, Option.bind_eq_some_iff, Option.pure_def,
      Option.some.injEq] at h
    obtain ⟨e, -, rfl⟩ := h
    rw [hs] at hheld
    have howner := (hm.back _ _).mp hheld
    refine ⟨hc.vecs, hc.tables, fun b' => ?_⟩
    rw [owner_setBucket]
    by_cases hb : b' = b
    · subst hb
      simp [howner, Option.filter]
    · rw [Function.update_of_ne hb, hc.owner, hkeep b' fun heq => hb ?_]
      rw [(hm.back _ _).mpr heq] at hheld
      exact Option.some.inj hheld
  | _ =>
    simp only [hs, Option.some.injEq] at h
    subst h
    rw [hs] at hheld
    refine ⟨hc.vecs, hc.tables, fun b' => ?_⟩
    rw [hc.owner, hkeep b' fun heq => ?_]
    rw [(hm.back _ _).mpr heq] at hheld
    cases hheld

theorem cleared_of_foldlM {tv : TableVec} {n : Nat} (hm : Linked m) (hv : m.vecs v = some tv)
    (hn : n ≤ tv.veclen) (h : (List.range n).foldlM (clearBtable tv) m = some m') :
    Cleared m m' v n := by
  induction n generalizing m' with
  | zero =>
    simp only [List.range_zero, List.foldlM_nil, Option.pure_def, Option.some.injEq] at h
    subst h
    exact .zero
  | succ n ih =>
    simp only [List.range_succ, List.foldlM_append, List.foldlM_cons, List.foldlM_nil, bind_pure,
      Option.bind_eq_bind, Option.bind_eq_some_iff] at h
    obtain ⟨m₁, h1, h2⟩ := h
    exact (ih (by omega) h1).succ hm hv (by omega) h2

theorem sweepVec_linked (hm : Linked m) (hfree : ∀ t ht, m.tables t = some ht → ht.table ≠ v)
    (h : tablevecSweeper m v = some m') : Linked (m'.freeVec v) := by
  unfold tablevecSweeper at h
  simp only [Option.bind_eq_bind, Option.bind_eq_some_iff] at h
  obtain ⟨tv, hv, hfold⟩ := h
  have hc := cleared_of_foldlM hm hv le_rfl hfold
  refine ⟨?_, fun {t ht} htab => ?_, fun {t t' ht ht'} htab htab' heq => ?_⟩
  · have hback := hm.back.restrict fun p => p.1 ≠ v
    have hheld : (m'.freeVec v).held = fun p => if p.1 ≠ v then m.held p else none := by
      funext ⟨v', i⟩
      by_cases hv' : v' = v
      · simp [Memory.held, Memory.slotRef, Memory.freeVec, hv']
      · simp [Memory.held, Memory.slotRef, Memory.freeVec, hv', hc.vecs]
    have howner : (m'.freeVec v).owner = fun b => (m.owner b).filter fun p => p.1 ≠ v := by
      funext b
      rw [show (m'.freeVec v).owner b = m'.owner b from rfl, hc.owner]
      cases hb : m.owner b with
      | none => rfl
      | some p =>
        obtain ⟨v', i⟩ := p
        have hiff : (v' = v ∧ i < tv.veclen) ↔ v' = v := by
          refine ⟨fun h => h.1, fun heq => ⟨heq, ?_⟩⟩
          subst heq
          obtain ⟨tv', hv', hi, -⟩ := slotRef_eq_some.mp (held_eq_some.mp ((hm.back _ _).mpr hb))
          rw [hv] at hv'
          cases hv'
          exact hi
        simp only [Option.filter, hiff, ne_eq]
    unfold BackPointers
    rw [hheld, howner]
    exact hback
  · have htab' : m.tables t = some ht := by
      rw [← hc.tables]
      exact htab
    obtain ⟨tv', hv', hlen⟩ := hm.sized htab'
    exact ⟨tv', by simp [Memory.freeVec, hfree t ht htab', hc.vecs, hv'], hlen⟩
  · refine hm.apart ?_ ?_ heq
    · rw [← hc.tables]
      exact htab
    · rw [← hc.tables]
      exact htab'

theorem sweepTable_linked (hm : Linked m) : Linked (m.freeTable t) := by
  have hsome : ∀ {t' ht'}, (m.freeTable t).tables t' = some ht' → m.tables t' = some ht' := by
    intro t' ht' htab
    by_cases ht' : t' = t
    · simp [Memory.freeTable, ht'] at htab
    · simpa [Memory.freeTable, ht'] using htab
  exact ⟨hm.back, fun htab => hm.sized (hsome htab),
    fun htab htab' heq => hm.apart (hsome htab) (hsome htab') heq⟩

end Sweeps

end Arcueid.Buckets
