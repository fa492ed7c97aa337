import Arcueid.MixedTables
import Arcueid.TableIteration
import Arcueid.VisitTables

/-! The bindings of a table gone through by `maptable`, and through a list to another
table. -/

namespace Arcueid.Objects

open Filter

/-- A live binding of the table. -/
def Binds (t : Table Val Val) (key v : Val) : Prop :=
  ∃ i e, i < t.tablesize ∧ t.slot i = .bucket e ∧ e.bkey = key ∧ e.bvalue = some v

section Bindings

variable {t : Table Val Val} {h : Heap} {S : Val → Prop} {g : Keying Val} {hk : TableKeys h S g}
  {he : IsoEquiv S g} {m : Val → Option Val}

theorem bindingAt_eq_some {s : Slot Val Val} {p : Val × Option Val} :
    (match s with
      | .bucket e => some (e.bkey, e.bvalue)
      | _ => none) = some p ↔ ∃ e, s = .bucket e ∧ p = (e.bkey, e.bvalue) := by
  cases s <;> simp [eq_comm]

theorem mem_bindings {p : Val × Option Val} : p ∈ bindings t ↔
    ∃ i e, i < t.tablesize ∧ t.slot i = .bucket e ∧ p = (e.bkey, e.bvalue) := by
  simp only [bindings, List.mem_filterMap, List.mem_range]
  constructor
  · rintro ⟨i, hi, hp⟩
    obtain ⟨e, hs, rfl⟩ := bindingAt_eq_some.mp hp
    exact ⟨i, e, hi, hs, rfl⟩
  · rintro ⟨i, e, hi, hs, rfl⟩
    exact ⟨i, hi, bindingAt_eq_some.mpr ⟨e, hs, rfl⟩⟩

theorem length_bindings (t : Table Val Val) : (bindings t).length = t.liveCount := by
  rw [← arcHashLength_eq_liveCount, bindings, arcHashLength, List.length_filterMap_eq_countP]
  refine List.countP_congr fun i _ => ?_
  cases t.slot i <;> simp [Slot.emptyp]

/-- The live bindings, slot by slot. -/
def liveBindings (t : Table Val Val) : List (Val × Val) :=
  (bindings t).filterMap fun p => p.2.map fun v => (p.1, v)

theorem mem_liveBindings {key v : Val} : (key, v) ∈ liveBindings t ↔ Binds t key v := by
  simp only [liveBindings, List.mem_filterMap, Option.map_eq_some_iff]
  constructor
  · rintro ⟨p, hp, w, hw, heq⟩
    cases heq
    obtain ⟨i, e, hi, hs, rfl⟩ := mem_bindings.mp hp
    exact ⟨i, e, hi, hs, rfl, hw⟩
  · rintro ⟨i, e, hi, hs, rfl, hval⟩
    exact ⟨_, mem_bindings.mpr ⟨i, e, hi, hs, rfl⟩, v, hval, rfl⟩

theorem MapsTo.bindings_eq (hm : MapsTo hk he t m) :
    bindings t = (liveBindings t).map fun p => (p.1, some p.2) := by
  have hvalued : ∀ p ∈ bindings t, p.2 ≠ none := by
    intro p hp
    obtain ⟨i, e, hi, hs, rfl⟩ := mem_bindings.mp hp
    exact hm.stored.valued i e hi hs
  rw [liveBindings]
  generalize bindings t = ps at hvalued
  induction ps with
  | nil => rfl
  | cons p ps ih =>
    obtain ⟨v, hv⟩ := Option.ne_none_iff_exists'.mp (hvalued p List.mem_cons_self)
    obtain ⟨key, val⟩ := p
    cases hv
    simp only [List.filterMap_cons, Option.map_some, List.map_cons]
    rw [← ih fun q hq => hvalued q (List.mem_cons_of_mem _ hq)]

theorem MapsTo.length_le (hm : MapsTo hk he t m) : (liveBindings t).length ≤ loadLimit t.hashbits := by
  obtain ⟨M, hM, -⟩ := hm.refines
  have hlength : (liveBindings t).length = (bindings t).length := by
    rw [hm.bindings_eq, List.length_map]
  have hcount : t.normal.liveCount = t.liveCount := by
    simp [Table.liveCount, liveSlots, slot_normal]
    rfl
  have hlimit := hM.sized.le_limit
  rw [hM.sized.limit, hM.counted, hcount] at hlimit
  rw [hlength, length_bindings]
  exact hlimit

/-- Neither key is taken for the other. -/
def Apart (g : Keying Val) (a b : Val) : Prop := g.same a b = false ∧ g.same b a = false

theorem MapsTo.pairwise (hm : MapsTo hk he t m) :
    (liveBindings t).Pairwise fun p q => Apart g p.1 q.1 := by
  have hslots : (bindings t).Pairwise fun p q => Apart g p.1 q.1 := by
    rw [bindings, List.pairwise_filterMap]
    refine List.pairwise_lt_range.imp_of_mem ?_
    intro i j hi hj hlt p hp q hq
    obtain ⟨e, hs, rfl⟩ := bindingAt_eq_some.mp hp
    obtain ⟨e', hs', rfl⟩ := bindingAt_eq_some.mp hq
    rw [List.mem_range] at hi hj
    constructor
    · by_contra hsame
      exact absurd (hm.unique hi hj hs hs' (by simpa using hsame)) hlt.ne
    · by_contra hsame
      exact absurd (hm.unique hj hi hs' hs (by simpa using hsame)) hlt.ne'
  rw [hm.bindings_eq, List.pairwise_map] at hslots
  exact hslots

theorem MapsTo.key_mem (hm : MapsTo hk he t m) {p : Val × Val} (hp : p ∈ liveBindings t) : S p.1 := by
  obtain ⟨i, e, -, hs, hkey, -⟩ := mem_liveBindings.mp hp
  rw [← hkey]
  exact hm.keys i e hs

theorem MapsTo.nodup (hm : MapsTo hk he t m) : (liveBindings t).Nodup := by
  refine hm.pairwise.imp_of_mem ?_
  rintro p q hp - hapart rfl
  rw [Apart, hk.same_refl (hm.key_mem hp)] at hapart
  cases hapart.1

end Bindings

section Rebuilding

variable {h : Heap} {S : Val → Prop} {g : Keying Val} {hk : TableKeys h S g} {he : IsoEquiv S g}
  {t : Table Val Val} {ps : List (Val × Val)} {b : Nat}

/-- A table of at most `b` hash bits with the bindings `ps` inserted one by one. -/
structure Rebuilt (hk : TableKeys h S g) (he : IsoEquiv S g) (b : Nat) (t : Table Val Val)
    (ps : List (Val × Val)) : Prop where
  maps : ∃ m, MapsTo hk he t m ∧
    ∀ k v, S k → (m k = some v ↔ ∃ p ∈ ps, g.same k p.1 = true ∧ p.2 = v)
  fresh : t.Fresh
  sized : t.Sized
  entries : t.nentries = ps.length
  small : t.hashbits ≤ b
  keys : t.KeysIn fun key => ∃ p ∈ ps, p.1 = key

theorem rebuilt_arcMkhash (hb : arcHashbits ≤ b) : Rebuilt hk he b (arcMkhash arcHashbits) [] where
  maps := ⟨_, mapsTo_arcMkhash arcHashbits, by simp⟩
  fresh := arcMkhash_fresh _
  sized := arcMkhash_sized _
  entries := rfl
  small := hb
  keys := by
    intro i e hs
    cases hs

theorem loadLimit_mono : Monotone loadLimit :=
  monotone_nat_of_le_succ fun n => (Nat.le_succ _).trans (loadLimit_succ n)

/-- An expansion happens only where the bindings exceed the load limit. -/
theorem insertNew_small {fuel hc : Nat} {t' : Table Val Val} {key : Val} {val : Option Val} (ht : t.Sized)
    (hroom : t.nentries + 1 ≤ loadLimit b) (hsmall : t.hashbits ≤ b)
    (hnew : insertNew fuel g t key val hc = some t') :
    t'.hashbits ≤ b ∧ t'.nentries = t.nentries + 1 := by
  obtain ⟨u, index, hu, -, rfl⟩ := insertNew_eq_some hnew
  obtain ⟨-, hentries, -⟩ := roomFor_sized ht hu
  have hstore : ∀ v : Table Val Val, (storeAt v index key val hc).nentries = v.nentries := by
    intro v
    unfold storeAt
    split <;> rfl
  rw [storeAt_hashbits, hstore]
  refine ⟨?_, congrArg (· + 1) hentries⟩
  change u.hashbits ≤ b
  unfold Table.roomFor at hu
  split at hu
  · next hfull =>
    obtain ⟨newtbl, -, rfl⟩ := hashtableExpand_eq_some hu
    rw [ht.limit] at hfull
    exact loadLimit_mono.reflect_lt (hfull.trans_le hroom)
  · cases hu
    exact hsmall

/-- Another binding, of a key that is the same as none of those there. -/
theorem Rebuilt.insert {key v : Val} (hr : Rebuilt hk he b t ps) (hb : b ≤ 32) (hkey : S key)
    (hps : ∀ p ∈ ps, S p.1 ∧ Apart g p.1 key) (hroom : ps.length + 1 ≤ loadLimit b) :
    ∃ t', (∀ᶠ fuel in atTop, arcXhashInsert fuel g t key (some v) = some (t', some v)) ∧
      Rebuilt hk he b t' (ps ++ [(key, v)]) := by
  obtain ⟨m, hm, hmps⟩ := hr.maps
  obtain ⟨f₁, ⟨r, e⟩, hp⟩ := hr.fresh.probe_ends hr.sized g key
  obtain ⟨f₂, t', hnew⟩ := insertNew_terminates hr.sized g key (some v) (g.hash key)
  have hmissing : e = none := by
    cases e with
    | none => rfl
    | some b =>
      have hslot := slot_of_probeFor hp
      obtain ⟨p, hpps, hpkey⟩ := hr.keys r b hslot
      obtain ⟨-, n, -, -, hstop, -⟩ := probeFor_eq_some_iff.mp hp
      have hsame : g.same b.bkey key = true := by simpa [hslot, Slot.stops] using hstop
      rw [← hpkey, (hps p hpps).2.1] at hsame
      cases hsame
  subst hmissing
  have hins : ∀ {fuel}, max f₁ f₂ ≤ fuel → arcXhashInsert fuel g t key (some v) = some (t', some v) := by
    intro fuel hfuel
    rw [arcXhashInsert_of_missing (probeFor_mono (le_of_max_le_left hfuel) hp),
      insertNew_mono (le_of_max_le_right hfuel) hnew]
    rfl
  rw [← hr.entries] at hroom
  obtain ⟨hsmall, hentries⟩ := insertNew_small hr.sized hroom hr.small hnew
  obtain ⟨hm', -⟩ := hm.xinsert hkey (hsmall.trans hb) (hins (le_refl _))
  refine ⟨t', eventually_atTop.mpr ⟨_, fun _ hfuel => hins hfuel⟩, ⟨_, hm', fun k w hkS => ?_⟩,
    hr.fresh.insertNew hnew, insertNew_sized hr.sized hnew, ?_, hsmall, ?_⟩
  · have hold : g.same k key = true → ∀ p ∈ ps, g.same k p.1 = false := by
      intro hsame p hp
      by_contra hne
      have hpk := he.symm hkS (hps p hp).1 (by simpa using hne)
      have hpkey := he.trans (hps p hp).1 hkS hkey hpk hsame
      rw [(hps p hp).2.1] at hpkey
      cases hpkey
    rw [bindKey]
    by_cases hsame : g.same k key = true
    · have hnone := hold hsame
      simp only [if_pos hsame, Option.some.injEq, List.mem_append, List.mem_singleton]
      constructor
      · rintro rfl
        exact ⟨(key, v), .inr rfl, hsame, rfl⟩
      · rintro ⟨p, hp | rfl, hpk, rfl⟩
        · rw [hnone p hp] at hpk
          cases hpk
        · rfl
    · simp only [if_neg hsame, List.mem_append, List.mem_singleton]
      rw [hmps k w hkS]
      constructor
      · rintro ⟨p, hp, hpk⟩
        exact ⟨p, .inl hp, hpk⟩
      · rintro ⟨p, hp | rfl, hpk, hpw⟩
        · exact ⟨p, hp, hpk, hpw⟩
        · exact absurd hpk hsame
  · rw [hentries, hr.entries, List.length_append]
    rfl
  · refine Table.KeysIn.insertNew (fun i e hs => ?_) ⟨(key, v), by simp, rfl⟩ hnew
    obtain ⟨p, hp, hpk⟩ := hr.keys i e hs
    exact ⟨p, List.mem_append_left _ hp, hpk⟩

theorem insertAll_rebuilt (qs : List (Val × Val)) (hr : Rebuilt hk he b t ps) (hb : b ≤ 32)
    (hS : ∀ p ∈ ps ++ qs, S p.1) (hapart : (ps ++ qs).Pairwise fun p q => Apart g p.1 q.1)
    (hroom : (ps ++ qs).length ≤ loadLimit b) :
    ∃ t', (∀ᶠ fuel in atTop, insertAll fuel g (qs.map fun p => (p.1, some p.2)) t = some t') ∧
      Rebuilt hk he b t' (ps ++ qs) := by
  induction qs generalizing t ps with
  | nil => exact ⟨t, .of_forall fun _ => rfl, by simpa using hr⟩
  | cons q qs ih =>
    obtain ⟨key, v⟩ := q
    have hq : (key, v) ∈ ps ++ (key, v) :: qs := List.mem_append_right _ List.mem_cons_self
    have hps : ∀ p ∈ ps, S p.1 ∧ Apart g p.1 key := fun p hp =>
      ⟨hS p (List.mem_append_left _ hp), (List.pairwise_append.mp hapart).2.2 p hp _ List.mem_cons_self⟩
    have hroom' : ps.length + 1 ≤ loadLimit b := by
      rw [List.length_append, List.length_cons] at hroom
      omega
    obtain ⟨u, hins, hu⟩ := hr.insert hb (hS _ hq) hps hroom'
    rw [List.append_cons] at hS hapart hroom ⊢
    obtain ⟨t', hall, ht'⟩ := ih hu hS hapart hroom
    refine ⟨t', ?_, ht'⟩
    filter_upwards [hins, hall] with fuel h1 h2
    rw [List.map_cons, insertAll, List.foldlM_cons, h1]
    exact h2

/-- The rebuilt table has no other bindings, and under no other objects for keys. -/
theorem Rebuilt.binds_iff (hr : Rebuilt hk he b t ps) (hS : ∀ p ∈ ps, S p.1)
    (hapart : ps.Pairwise fun p q => Apart g p.1 q.1) (key v : Val) :
    Binds t key v ↔ (key, v) ∈ ps := by
  obtain ⟨m, hm, hmps⟩ := hr.maps
  have hunique : ∀ {p q : Val × Val}, p ∈ ps → q ∈ ps → g.same p.1 q.1 = true → p = q := by
    intro p q hp hq hsame
    by_contra hne
    have hsymm : Std.Symm fun p q : Val × Val => Apart g p.1 q.1 := ⟨fun _ _ h => ⟨h.2, h.1⟩⟩
    have hpq := hapart.forall hp hq hne
    rw [hpq.1] at hsame
    cases hsame
  constructor
  · rintro ⟨i, e, hi, hs, rfl, hval⟩
    obtain ⟨p, hp, hpkey⟩ := hr.keys i e hs
    have hvalue := hm.value_of_slot hi hs
    rw [hval] at hvalue
    obtain ⟨q, hq, hsame, rfl⟩ := (hmps _ _ (hm.keys i e hs)).mp hvalue
    rw [← hpkey] at hsame ⊢
    rwa [hunique hp hq hsame]
  · intro hp
    have hvalue := (hmps key v (hS _ hp)).mpr ⟨_, hp, hk.same_refl (hS _ hp), rfl⟩
    obtain ⟨i, e, hi, hs, hsame, hval⟩ := hm.slot_of_value (hS _ hp) hvalue
    obtain ⟨q, hq, hqkey⟩ := hr.keys i e hs
    rw [← hqkey] at hsame
    have heq := hunique hq hp hsame
    exact ⟨i, e, hi, hs, by rw [← hqkey, heq], hval⟩

end Rebuilding

section Conversions

variable {h : Heap} {S : Val → Prop} {g : Keying Val} {hk : TableKeys h S g} {he : IsoEquiv S g}
  {t : Table Val Val} {m : Val → Option Val} {fuel : Nat}

/-- `maptable` comes to an end, having called the procedure once for each live binding,
with its key and its value. -/
def CallsOnce (t : Table Val Val) : Prop :=
  ∃ calls : List (Val × Val), calls.Nodup ∧ (∀ key v, (key, v) ∈ calls ↔ Binds t key v) ∧
    ∀ {W : Type} {tableOf : W → Table Val Val} {proc : CellRef → CellRef → W → Option W} (s : Cells) (w : W),
      tableOf w = t → KeepsTable tableOf proc → ∀ᶠ fuel in atTop,
        arcXhashMap fuel tableOf proc s w = callAll proc (calls.map fun p => (p.1, some p.2)) w

/-- The table to a list, and the list to a table. -/
def coerceBack (fuel : Nat) (g : Keying Val) (t : Table Val Val) (s : Cells) :
    Option (Except String (Operand × Cells)) :=
  (arcCoerce fuel g (.table t) .tCons s).bind fun
    | .ok (list, s) => arcCoerce fuel g list .tTable s
    | .error fmt => some (.error fmt)

/-- The list converts back to a table with the same bindings. -/
def RoundTrips (g : Keying Val) (t : Table Val Val) : Prop :=
  ∀ s, ∃ t', (∀ᶠ fuel in atTop, ∃ s', coerceBack fuel g t s = some (.ok (.table t', s'))) ∧
    ∀ key v, Binds t' key v ↔ Binds t key v

theorem MapsTo.callsOnce (hm : MapsTo hk he t m) : CallsOnce t := by
  refine ⟨liveBindings t, hm.nodup, fun key v => mem_liveBindings, ?_⟩
  intro W tableOf proc s w htable hproc
  filter_upwards [eventually_gt_atTop (bindings t).length] with fuel hfuel
  subst htable
  rw [arcXhashMap_eq hproc hfuel, hm.bindings_eq]

/-- Where nothing is bound the list is nil. -/
theorem coerceBack_empty (s : Cells) (hempty : bindings t = []) (hfuel : 0 < fuel) :
    coerceBack fuel g t s = some (.error "cannot coerce") := by
  obtain ⟨list, s', hloop, hshows⟩ := xcoerceLoop_bindings t s (by simpa [hempty] using hfuel)
  rw [hempty] at hshows
  cases hshows
  rw [coerceBack, arcCoerce, hashXcoerce, hloop]
  rfl

theorem coerceBack_eq (s : Cells) (hbound : bindings t ≠ []) (hfuel : (bindings t).length < fuel) :
    ∃ s', coerceBack fuel g t s =
      (insertAll fuel g (bindings t).reverse (arcMkhash arcHashbits)).map fun hash =>
        .ok (.table hash, s') := by
  obtain ⟨list, s', hloop, hshows⟩ := xcoerceLoop_bindings t s hfuel
  have hcons : ∃ n, list = .cell n := by
    obtain ⟨p, qs, hpq⟩ := List.exists_cons_of_ne_nil (List.reverse_ne_nil_iff.mpr hbound)
    rw [hpq] at hshows
    obtain ⟨n, -, -, hn, -⟩ := hshows
    exact ⟨n, hn⟩
  obtain ⟨n, rfl⟩ := hcons
  have hassoc : assocLoop fuel g s' fuel (.cell n) (arcMkhash arcHashbits) =
      (insertAll fuel g (bindings t).reverse (arcMkhash arcHashbits)).map .ok :=
    assocLoop_eq hshows (by simpa using hfuel)
  refine ⟨s', ?_⟩
  rw [coerceBack, arcCoerce, hashXcoerce, hloop]
  change (assocLoop fuel g s' fuel (.cell n) (arcMkhash arcHashbits)).map _ = _
  rw [hassoc, Option.map_map]
  rfl

theorem MapsTo.roundTrips (hm : MapsTo hk he t m) (hsmall : t.hashbits ≤ 32)
    (hbound : ∃ key v, Binds t key v) : RoundTrips g t := by
  intro s
  obtain ⟨key, v, hbound⟩ := hbound
  let ps := (liveBindings t).reverse
  let b := max arcHashbits t.hashbits
  have hassoc : (bindings t).reverse = ps.map fun p => (p.1, some p.2) := by
    rw [hm.bindings_eq, List.map_reverse]
  have hS : ∀ p ∈ ps, S p.1 := fun p hp => hm.key_mem (List.mem_reverse.mp hp)
  have hapart : ps.Pairwise fun p q => Apart g p.1 q.1 :=
    List.pairwise_reverse.mpr (hm.pairwise.imp fun h => ⟨h.2, h.1⟩)
  have hroom : ps.length ≤ loadLimit b := by
    rw [List.length_reverse]
    exact hm.length_le.trans (loadLimit_mono (le_max_right _ _))
  have hb : b ≤ 32 := max_le (by decide) hsmall
  have hnew : Rebuilt hk he b (arcMkhash arcHashbits) [] := rebuilt_arcMkhash (le_max_left _ _)
  obtain ⟨t', hall, ht'⟩ := insertAll_rebuilt ps hnew hb hS hapart hroom
  refine ⟨t', ?_, fun key v => ?_⟩
  · have hne : bindings t ≠ [] := by
      rw [hm.bindings_eq]
      exact List.ne_nil_of_mem (List.mem_map.mpr ⟨_, mem_liveBindings.mpr hbound, rfl⟩)
    filter_upwards [hall, eventually_gt_atTop (bindings t).length] with fuel hfuel hlength
    obtain ⟨s', hs'⟩ := coerceBack_eq (g := g) s hne hlength
    rw [hassoc, hfuel] at hs'
    exact ⟨s', hs'⟩
  · exact (ht'.binds_iff hS hapart key v).trans (List.mem_reverse.trans mem_liveBindings)

/-- Every table that the operations of both interfaces make from a new one is gone
through once by `maptable`; through a list it comes back exactly when it binds
something. -/
theorem tableConversions_iff (hk : TableKeys h S g) (he : IsoEquiv S g) (hashbits : Nat)
    {ops : List MixedOp} {as : List MixedAnswer} (hops : ∀ op ∈ ops, op.Keyed h S)
    (hsmall : t.hashbits ≤ 32)
    (hrun : mixedRun fuel (simpleKeying h) g (arcMkhash hashbits) ops = some (t, as)) :
    CallsOnce t ∧ (RoundTrips g t ↔ ∃ key v, Binds t key v) := by
  have hnew : MapsTo hk he (arcMkhash hashbits) fun _ => none := mapsTo_arcMkhash hashbits
  obtain ⟨hm, -⟩ := mixedRun_mapsTo hnew hops hsmall hrun
  refine ⟨hm.callsOnce, fun hround => ?_, hm.roundTrips hsmall⟩
  by_contra hnone
  have hempty : bindings t = [] := by
    rw [hm.bindings_eq, List.map_eq_nil_iff, List.eq_nil_iff_forall_not_mem]
    rintro ⟨key, v⟩ hp
    exact hnone ⟨key, v, mem_liveBindings.mp hp⟩
  obtain ⟨t', hcoerce, -⟩ := hround []
  obtain ⟨fuel, ⟨s', hok⟩, hfuel⟩ := (hcoerce.and (eventually_gt_atTop 0)).exists
  rw [coerceBack_empty [] hempty hfuel] at hok
  cases hok

/-- A table of one list. -/
theorem tableConversions_list : ∃ t as,
    mixedRun 5 (simpleKeying fun _ => .cons .nil .nil) listKeying (arcMkhash 1)
      [.xinsert (.obj 16) (.fixnum 1)] = some (t, as) ∧ CallsOnce t ∧ RoundTrips listKeying t := by
  let ops : List MixedOp := [.xinsert (.obj 16) (.fixnum 1)]
  have hops : ∀ op ∈ ops, op.Keyed (fun _ => .cons .nil .nil) fun v => ∃ x, v = .obj x := by
    simp [ops, MixedOp.Keyed]
  have hend : ((mixedRun 5 (simpleKeying fun _ => .cons .nil .nil) listKeying (arcMkhash 1) ops).map
      fun p => (p.1.hashbits, liveBindings p.1)) = some (1, [(.obj 16, .fixnum 1)]) := by
    decide +kernel
  obtain ⟨⟨t, as⟩, hrun, hlive⟩ := Option.map_eq_some_iff.mp hend
  have hbits : t.hashbits = 1 := congrArg Prod.fst hlive
  have hlive : liveBindings t = [(.obj 16, .fixnum 1)] := congrArg Prod.snd hlive
  obtain ⟨hcalls, hiff⟩ := tableConversions_iff tableKeys_lists isoEquiv_lists 1 hops (by omega) hrun
  exact ⟨t, as, hrun, hcalls, hiff.mpr ⟨.obj 16, .fixnum 1, mem_liveBindings.mp (by simp [hlive])⟩⟩

/-- A table without bindings becomes nil, which becomes no table. -/
theorem empty_table_lost : (∀ fuel, 0 < fuel →
    coerceBack fuel listKeying (arcMkhash arcHashbits) [] = some (.error "cannot coerce")) ∧
      ¬ RoundTrips listKeying (arcMkhash arcHashbits) := by
  have hempty : bindings (arcMkhash arcHashbits) = [] := by
    rw [List.eq_nil_iff_forall_not_mem]
    intro p hp
    obtain ⟨i, e, -, hs, -⟩ := mem_bindings.mp hp
    cases hs
  refine ⟨fun fuel hfuel => coerceBack_empty [] hempty hfuel, fun hround => ?_⟩
  obtain ⟨t', hcoerce, -⟩ := hround []
  obtain ⟨fuel, ⟨s', hok⟩, hfuel⟩ := (hcoerce.and (eventually_gt_atTop 0)).exists
  rw [coerceBack_empty [] hempty hfuel] at hok
  cases hok

end Conversions

end Arcueid.Objects
