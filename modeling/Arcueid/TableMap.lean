import Mathlib.Data.Set.Card
import Arcueid.TableRuns

/-! Tables of the simple interface as finite maps modulo the key comparison. -/

namespace Arcueid

open TriangularProbing

variable {K V : Type}

/-- A key comparison that is an equivalence, with a hash function that gives
equal keys the same value. -/
structure LawfulKeying (K : Type) extends Keying K where
  equiv : Equivalence fun a b => same a b = true
  hash_congr : ∀ {a b}, same a b = true → hash a = hash b

def LawfulKeying.setoid (kg : LawfulKeying K) : Setoid K := ⟨_, kg.equiv⟩

/-- The class of a key. -/
def LawfulKeying.key (kg : LawfulKeying K) (k : K) : Quotient kg.setoid :=
  Quotient.mk kg.setoid k

theorem LawfulKeying.key_eq_iff {kg : LawfulKeying K} {a b : K} :
    kg.key a = kg.key b ↔ kg.same a b = true :=
  ⟨fun h => Quotient.exact h, fun h => Quotient.sound (s := kg.setoid) h⟩

/-- Maps from key classes to values. -/
abbrev KeyMap (kg : LawfulKeying K) (V : Type) := Quotient kg.setoid → Option V

section Spec

variable (kg : LawfulKeying K)

/-- The operations of the simple interface, on values other than the marker. -/
def TableOp.Simple : TableOp K V → Prop
  | .insert _ val => val ≠ none
  | .lookup _ | .lookup2 _ | .delete _ | .length => True
  | _ => False

open Classical in
/-- The map after an operation. -/
noncomputable def KeyMap.after (m : KeyMap kg V) : TableOp K V → KeyMap kg V
  | .insert key val => Function.update m (kg.key key) val
  | .delete key => Function.update m (kg.key key) none
  | _ => m

/-- The answer a map gives to an operation. -/
def KeyMap.Answers (m : KeyMap kg V) : TableOp K V → TableAnswer K V → Prop
  | .lookup key, .val v => v = m (kg.key key)
  | .lookup2 key, .found none => m (kg.key key) = none
  | .lookup2 key, .found (some e) => kg.same e.bkey key = true ∧ e.bvalue ≠ none ∧
      m (kg.key key) = e.bvalue
  | .insert _ val, .val v => v = val
  | .delete key, .val v => v = m (kg.key key)
  | .length, .count n => n = Set.ncard {q | m q ≠ none}
  | _, _ => False

/-- The answers a map gives to a sequence of operations. -/
def KeyMap.AnswersAll : KeyMap kg V → List (TableOp K V) → List (TableAnswer K V) → Prop
  | _, [], [] => True
  | m, op :: ops, a :: as => m.Answers kg op a ∧ KeyMap.AnswersAll (m.after kg op) ops as
  | _, _, _ => False

end Spec

/-- A slot of the vector holds the bucket. -/
def HeldAt (b : Nat) (slot : Nat → Slot K V) (i : Nat) (e : Bucket K V) : Prop :=
  i < 2 ^ b ∧ slot i = .bucket e

/-- Where buckets sit: no key twice, and no never-used slot on the probe path
before a bucket. -/
structure Placed (kg : LawfulKeying K) (b : Nat) (slot : Nat → Slot K V) : Prop where
  valued : ∀ {i e}, HeldAt b slot i e → e.bvalue ≠ none
  hashed : ∀ {i e}, HeldAt b slot i e → e.bhashval = uint (kg.hash e.bkey)
  unique : ∀ {i j e e'}, HeldAt b slot i e → HeldAt b slot j e' →
    kg.same e.bkey e'.bkey = true → i = j
  onPath : ∀ {i e}, HeldAt b slot i e → ∃ m, i = probe b (uint (kg.hash e.bkey)) m ∧
    ∀ k, k < m → slot (probe b (uint (kg.hash e.bkey)) k) ≠ .cunbound

/-- The vector holds the bindings of the map. -/
def Represents (kg : LawfulKeying K) (b : Nat) (slot : Nat → Slot K V) (m : KeyMap kg V) : Prop :=
  ∀ key v, m (kg.key key) = some v ↔
    ∃ i e, HeldAt b slot i e ∧ kg.same e.bkey key = true ∧ e.bvalue = some v

@[simp] theorem uint_uint (n : Nat) : uint (uint n) = uint n := Nat.mod_mod n (2 ^ 32)

theorem Slot.ne_cunbound {s : Slot K V} (h : s.emptyp = false) : s ≠ .cunbound := by
  rintro rfl
  cases h

section Lookup

variable {kg : LawfulKeying K} {b : Nat} {slot : Nat → Slot K V} {m : KeyMap kg V}

/-- A probe that stops at a never-used slot proves the key absent: the bucket of
the key would lie before that slot, and stop the probe, or beyond it. -/
theorem Placed.absent_of_path {key : K} {n : Nat} (hp : Placed kg b slot)
    (hstop : slot (probe b (uint (kg.hash key)) n) = .cunbound)
    (hpre : ∀ k, k < n →
      (slot (probe b (uint (kg.hash key)) k)).stops kg.toKeying key = false) :
    ∀ i e, HeldAt b slot i e → kg.same e.bkey key = false := by
  intro i e hi
  by_contra hne
  have hsame : kg.same e.bkey key = true := by simpa using hne
  obtain ⟨l, hl, hpath⟩ := hp.onPath hi
  rw [kg.hash_congr hsame] at hl hpath
  rcases Nat.lt_trichotomy l n with hlt | heq | hgt
  · have hs := hpre l hlt
    rw [← hl, hi.2] at hs
    simp [Slot.stops, hsame] at hs
  · subst heq
    rw [← hl, hi.2] at hstop
    cases hstop
  · exact hpath n hgt hstop

theorem Represents.absent_iff {key : K} (hv : ∀ {i e}, HeldAt b slot i e → e.bvalue ≠ none)
    (hr : Represents kg b slot m) :
    m (kg.key key) = none ↔ ∀ i e, HeldAt b slot i e → kg.same e.bkey key = false := by
  constructor
  · intro hm i e hi
    by_contra hne
    obtain ⟨v, hv⟩ := Option.ne_none_iff_exists'.mp (hv hi)
    have := (hr key v).mpr ⟨i, e, hi, by simpa using hne, hv⟩
    rw [hm] at this
    cases this
  · intro habs
    cases hm : m (kg.key key) with
    | none => rfl
    | some v =>
      obtain ⟨i, e, hi, hs, -⟩ := (hr key v).mp hm
      rw [habs i e hi] at hs
      cases hs

theorem Represents.value_of_held {i : Nat} {e : Bucket K V} {key : K}
    (hv : e.bvalue ≠ none) (hr : Represents kg b slot m) (hi : HeldAt b slot i e)
    (hs : kg.same e.bkey key = true) : m (kg.key key) = e.bvalue := by
  obtain ⟨v, hv⟩ := Option.ne_none_iff_exists'.mp hv
  rw [hv]
  exact (hr key v).mpr ⟨i, e, hi, hs, hv⟩

end Lookup

section Store

variable {kg : LawfulKeying K} {b r : Nat} {slot : Nat → Slot K V} {m : KeyMap kg V}
  {s : Slot K V} {i : Nat} {e : Bucket K V}

theorem held_update_of_ne (hne : i ≠ r) :
    HeldAt b (Function.update slot r s) i e ↔ HeldAt b slot i e := by
  rw [HeldAt, HeldAt, Function.update_of_ne hne]

theorem held_update_self :
    HeldAt b (Function.update slot r s) r e ↔ r < 2 ^ b ∧ s = .bucket e := by
  rw [HeldAt, Function.update_self]

/-- Storing over a slot keeps the paths of the other buckets unless it makes
the slot never-used. -/
theorem onPath_update {n start : Nat} (hs : s ≠ .cunbound)
    (hpath : ∀ k, k < n → slot (probe b start k) ≠ .cunbound) :
    ∀ k, k < n → Function.update slot r s (probe b start k) ≠ .cunbound := by
  intro k hk
  by_cases hr : probe b start k = r
  · rwa [hr, Function.update_self]
  · rw [Function.update_of_ne hr]
    exact hpath k hk

/-- Storing a bucket at a slot of its probe path, when no other slot holds its
key. -/
theorem Placed.store (hp : Placed kg b slot) (hv : e.bvalue ≠ none)
    (hh : e.bhashval = uint (kg.hash e.bkey))
    (hothers : ∀ i e', i ≠ r → HeldAt b slot i e' → kg.same e'.bkey e.bkey = false)
    (hpath : ∃ n, r = probe b (uint (kg.hash e.bkey)) n ∧
      ∀ k, k < n → slot (probe b (uint (kg.hash e.bkey)) k) ≠ .cunbound) :
    Placed kg b (Function.update slot r (.bucket e)) := by
  have hself : ∀ {e'}, HeldAt b (Function.update slot r (.bucket e)) r e' → e' = e := by
    intro e' h
    exact (Slot.bucket.inj (held_update_self.mp h).2).symm
  refine ⟨fun {i e'} hi => ?_, fun {i e'} hi => ?_, fun {i j e₁ e₂} hi hj hs => ?_,
    fun {i e'} hi => ?_⟩
  · by_cases hir : i = r
    · subst hir; rwa [hself hi]
    · exact hp.valued ((held_update_of_ne hir).mp hi)
  · by_cases hir : i = r
    · subst hir; rwa [hself hi]
    · exact hp.hashed ((held_update_of_ne hir).mp hi)
  · by_cases hir : i = r <;> by_cases hjr : j = r
    · rw [hir, hjr]
    · subst hir
      rw [hself hi] at hs
      have ho := hothers j e₂ hjr ((held_update_of_ne hjr).mp hj)
      rw [kg.equiv.symm hs] at ho
      cases ho
    · subst hjr
      rw [hself hj] at hs
      rw [hothers i e₁ hir ((held_update_of_ne hir).mp hi)] at hs
      cases hs
    · exact hp.unique ((held_update_of_ne hir).mp hi) ((held_update_of_ne hjr).mp hj) hs
  · by_cases hir : i = r
    · subst hir
      rw [hself hi]
      obtain ⟨n, hn, hpre⟩ := hpath
      exact ⟨n, hn, onPath_update (by simp) hpre⟩
    · obtain ⟨n, hn, hpre⟩ := hp.onPath ((held_update_of_ne hir).mp hi)
      exact ⟨n, hn, onPath_update (by simp) hpre⟩

theorem Placed.bury (hp : Placed kg b slot) : Placed kg b (Function.update slot r .cundef) := by
  have hold : ∀ {i e'}, HeldAt b (Function.update slot r .cundef) i e' → HeldAt b slot i e' := by
    intro i e' h
    by_cases hir : i = r
    · subst hir; cases (held_update_self.mp h).2
    · exact (held_update_of_ne hir).mp h
  refine ⟨fun hi => hp.valued (hold hi), fun hi => hp.hashed (hold hi),
    fun hi hj => hp.unique (hold hi) (hold hj), fun hi => ?_⟩
  obtain ⟨n, hn, hpre⟩ := hp.onPath (hold hi)
  exact ⟨n, hn, onPath_update (by simp) hpre⟩

open Classical in
theorem Represents.store (hr : Represents kg b slot m) (hlt : r < 2 ^ b)
    (hothers : ∀ i e', i ≠ r → HeldAt b slot i e' → kg.same e'.bkey e.bkey = false)
    (hself : ∀ e', slot r = .bucket e' → kg.same e'.bkey e.bkey = true) :
    Represents kg b (Function.update slot r (.bucket e))
      (Function.update m (kg.key e.bkey) e.bvalue) := by
  intro key v
  by_cases hk : kg.key key = kg.key e.bkey
  · have hsame : kg.same e.bkey key = true := kg.equiv.symm (LawfulKeying.key_eq_iff.mp hk)
    rw [hk, Function.update_self]
    constructor
    · exact fun hv => ⟨r, e, held_update_self.mpr ⟨hlt, rfl⟩, hsame, hv⟩
    · rintro ⟨i, e', hi, hs, hv⟩
      by_cases hir : i = r
      · subst hir
        cases (held_update_self.mp hi).2
        exact hv
      · have ho := hothers i e' hir ((held_update_of_ne hir).mp hi)
        rw [kg.equiv.trans hs (kg.equiv.symm hsame)] at ho
        cases ho
  · rw [Function.update_of_ne hk, hr key v]
    have hno : ∀ {k}, kg.same k key = true → kg.same k e.bkey = false := by
      intro k hs
      by_contra hne
      have hs' : kg.same k e.bkey = true := by simpa using hne
      exact hk ((LawfulKeying.key_eq_iff.mpr hs).symm.trans (LawfulKeying.key_eq_iff.mpr hs'))
    constructor
    · rintro ⟨i, e', hi, hs, hv⟩
      have hir : i ≠ r := by
        rintro rfl
        have hsame := hself e' hi.2
        rw [hno hs] at hsame
        cases hsame
      exact ⟨i, e', (held_update_of_ne hir).mpr hi, hs, hv⟩
    · rintro ⟨i, e', hi, hs, hv⟩
      have hir : i ≠ r := by
        rintro rfl
        cases (held_update_self.mp hi).2
        have hne := hno hs
        rw [kg.equiv.refl e.bkey] at hne
        cases hne
      exact ⟨i, e', (held_update_of_ne hir).mp hi, hs, hv⟩

open Classical in
theorem Represents.bury {key : K} (hp : Placed kg b slot) (hr : Represents kg b slot m)
    (hi : HeldAt b slot r e) (hs : kg.same e.bkey key = true) :
    Represents kg b (Function.update slot r .cundef) (Function.update m (kg.key key) none) := by
  intro key' v
  have hheld : ∀ {i e'}, HeldAt b (Function.update slot r .cundef) i e' ↔
      i ≠ r ∧ HeldAt b slot i e' := by
    intro i e'
    by_cases hir : i = r
    · subst hir
      exact ⟨fun h => (nomatch (held_update_self.mp h).2), fun h => absurd rfl h.1⟩
    · rw [held_update_of_ne hir]
      exact ⟨fun h => ⟨hir, h⟩, fun h => h.2⟩
  by_cases hk : kg.key key' = kg.key key
  · rw [hk, Function.update_self]
    refine ⟨fun h => (nomatch h), fun ⟨i, e', hi', hs', _⟩ => ?_⟩
    have hsame : kg.same e'.bkey e.bkey = true :=
      kg.equiv.trans (kg.equiv.trans hs' (LawfulKeying.key_eq_iff.mp hk)) (kg.equiv.symm hs)
    exact absurd (hp.unique (hheld.mp hi').2 hi hsame) (hheld.mp hi').1
  · rw [Function.update_of_ne hk, hr key' v]
    constructor
    · rintro ⟨i, e', hi', hs', hv⟩
      refine ⟨i, e', hheld.mpr ⟨?_, hi'⟩, hs', hv⟩
      rintro rfl
      have he : e = e' := Slot.bucket.inj (hi.2.symm.trans hi'.2)
      subst he
      exact hk (LawfulKeying.key_eq_iff.mpr (kg.equiv.trans (kg.equiv.symm hs') hs))
    · rintro ⟨i, e', hi', hs', hv⟩
      exact ⟨i, e', (hheld.mp hi').2, hs', hv⟩

end Store

section Count

variable {kg : LawfulKeying K} {b : Nat} {slot : Nat → Slot K V} {m : KeyMap kg V}

def Slot.bucketOf : (s : Slot K V) → s.emptyp = false → Bucket K V
  | .bucket e, _ => e

theorem Slot.eq_bucketOf {s : Slot K V} (h : s.emptyp = false) : s = .bucket (s.bucketOf h) := by
  cases s with
  | bucket e => rfl
  | cunbound => cases h
  | cundef => cases h

/-- The map has as many keys as the vector has buckets. -/
theorem Represents.ncard_eq (hp : Placed kg b slot) (hr : Represents kg b slot m) :
    Set.ncard {q | m q ≠ none} = (liveSlots slot (2 ^ b)).card := by
  have hheld : ∀ {i} (hi : i ∈ liveSlots slot (2 ^ b)),
      HeldAt b slot i ((slot i).bucketOf (mem_liveSlots.mp hi).2) := fun hi =>
    ⟨(mem_liveSlots.mp hi).1, Slot.eq_bucketOf _⟩
  rw [← Set.ncard_coe_finset]
  symm
  refine Set.ncard_congr (fun i hi => kg.key ((slot i).bucketOf (mem_liveSlots.mp hi).2).bkey)
    (fun i hi => ?_) (fun i j hi hj h => ?_) (fun q hq => ?_)
  · have hv := hp.valued (hheld hi)
    rw [Set.mem_ofPred_eq, hr.value_of_held hv (hheld hi) (kg.equiv.refl _)]
    exact hv
  · exact hp.unique (hheld hi) (hheld hj) (LawfulKeying.key_eq_iff.mp h)
  · obtain ⟨key, rfl⟩ := Quotient.exists_rep q
    obtain ⟨v, hv⟩ := Option.ne_none_iff_exists'.mp hq
    obtain ⟨i, e, hi, hs, -⟩ := (hr key v).mp hv
    have hmem : i ∈ liveSlots slot (2 ^ b) := mem_liveSlots.mpr ⟨hi.1, by simp [hi.2, Slot.emptyp]⟩
    refine ⟨i, hmem, ?_⟩
    have he : (slot i).bucketOf (mem_liveSlots.mp hmem).2 = e :=
      Slot.bucket.inj ((Slot.eq_bucketOf _).symm.trans hi.2)
    rw [he]
    exact LawfulKeying.key_eq_iff.mpr hs

end Count

section Rehash

variable {kg : LawfulKeying K} {fuel b n : Nat} {oldtbl newtbl newtbl' : Nat → Slot K V}

/-- The new vector while the slots below `n` of the old one have been moved. -/
structure Moved (kg : LawfulKeying K) (b n : Nat) (oldtbl newtbl : Nat → Slot K V) : Prop where
  placed : Placed kg b newtbl
  source : ∀ {i e}, HeldAt b newtbl i e → ∃ j e₀, j < n ∧ oldtbl j = .bucket e₀ ∧
    e₀.bkey = e.bkey ∧ e₀.bvalue = e.bvalue
  target : ∀ {j e}, j < n → oldtbl j = .bucket e → ∃ i, HeldAt b newtbl i { e with bindex := i }

theorem moved_zero (b : Nat) (oldtbl : Nat → Slot K V) :
    Moved kg b 0 oldtbl (fun _ => .cunbound) := by
  have hno : ∀ {i : Nat} {e : Bucket K V}, ¬ HeldAt b (fun _ => .cunbound) i e :=
    fun h => nomatch h.2
  exact ⟨⟨fun h => absurd h hno, fun h => absurd h hno, fun h => absurd h hno,
    fun h => absurd h hno⟩, fun h => absurd h hno, fun h => absurd h (Nat.not_lt_zero _)⟩

/-- Moving one more slot. The bucket goes to the first empty slot of its path,
and no bucket moved before it has its key. -/
theorem Moved.succ {b₀ : Nat} (hold : Placed kg b₀ oldtbl) (hn : n < 2 ^ b₀)
    (hm : Moved kg b n oldtbl newtbl)
    (h : expandSlot fuel oldtbl b newtbl n = some newtbl') : Moved kg b (n + 1) oldtbl newtbl' := by
  rcases expandSlot_eq_some h with ⟨hempty, rfl⟩ | ⟨e, l, he, hempty, hpre, rfl⟩
  · refine ⟨hm.placed, fun hi => ?_, fun {j e} hj hje => ?_⟩
    · obtain ⟨j, e₀, hj, h⟩ := hm.source hi
      exact ⟨j, e₀, by omega, h⟩
    · rcases Nat.lt_succ_iff_lt_or_eq.mp hj with hlt | rfl
      · exact hm.target hlt hje
      · simp [hje, Slot.emptyp] at hempty
  · have hheld : HeldAt b₀ oldtbl n e := ⟨hn, he⟩
    have hval := hold.valued hheld
    have hhash := hold.hashed hheld
    have hu : uint e.bhashval = uint (kg.hash e.bkey) := by rw [hhash, uint_uint]
    rw [hu] at hempty hpre ⊢
    have hothers : ∀ i e', HeldAt b newtbl i e' → kg.same e'.bkey e.bkey = false := by
      intro i e' hi
      by_contra hne
      obtain ⟨j, e₀, hj, hje, hkey, -⟩ := hm.source hi
      have hs : kg.same e₀.bkey e.bkey = true := by rw [hkey]; simpa using hne
      exact absurd (hold.unique ⟨hj.trans hn, hje⟩ hheld hs) (Nat.ne_of_lt hj)
    refine ⟨?_, fun {i e'} hi => ?_, fun {j e'} hj hje => ?_⟩
    · exact hm.placed.store (e := { e with bindex := probe b (uint (kg.hash e.bkey)) l })
        hval hhash
        (fun i e' _ hi => hothers i e' hi)
        ⟨l, rfl, fun k hk => Slot.ne_cunbound (hpre k hk)⟩
    · by_cases hir : i = probe b (uint (kg.hash e.bkey)) l
      · subst hir
        cases (held_update_self.mp hi).2
        exact ⟨n, e, Nat.lt_succ_self n, he, rfl, rfl⟩
      · obtain ⟨j, e₀, hj, h⟩ := hm.source ((held_update_of_ne hir).mp hi)
        exact ⟨j, e₀, by omega, h⟩
    · rcases Nat.lt_succ_iff_lt_or_eq.mp hj with hlt | rfl
      · obtain ⟨i, hi⟩ := hm.target hlt hje
        refine ⟨i, (held_update_of_ne ?_).mpr hi⟩
        rintro rfl
        simp [hi.2, Slot.emptyp] at hempty
      · cases he.symm.trans hje
        exact ⟨_, held_update_self.mpr ⟨probe_lt b _ l, rfl⟩⟩

theorem moved_expand {b₀ : Nat} (hold : Placed kg b₀ oldtbl) (hn : n ≤ 2 ^ b₀)
    (h : (List.range n).foldlM (expandSlot fuel oldtbl b) (fun _ => .cunbound) = some newtbl) :
    Moved kg b n oldtbl newtbl := by
  induction n generalizing newtbl with
  | zero =>
    cases h
    exact moved_zero b oldtbl
  | succ n ih =>
    rw [List.range_succ, List.foldlM_append] at h
    obtain ⟨mid, hmid, hstep⟩ := Option.bind_eq_some_iff.mp h
    simp only [List.foldlM_cons, List.foldlM_nil, bind_pure] at hstep
    exact (ih (by omega) hmid).succ hold hn hstep

theorem Moved.represents {b₀ : Nat} {m : KeyMap kg V} (hm : Moved kg b (2 ^ b₀) oldtbl newtbl)
    (hr : Represents kg b₀ oldtbl m) : Represents kg b newtbl m := by
  intro key v
  rw [hr key v]
  constructor
  · rintro ⟨j, e, hj, hs, hv⟩
    obtain ⟨i, hi⟩ := hm.target hj.1 hj.2
    exact ⟨i, _, hi, hs, hv⟩
  · rintro ⟨i, e, hi, hs, hv⟩
    obtain ⟨j, e₀, hj, hje, hkey, hval⟩ := hm.source hi
    exact ⟨j, e₀, ⟨hj, hje⟩, hkey ▸ hs, hval.trans hv⟩

end Rehash

/-- A table whose buckets are the bindings of a map, counted by `nentries`. -/
structure Refines (kg : LawfulKeying K) (t : Table K V) (m : KeyMap kg V) : Prop where
  sized : t.Sized
  placed : Placed kg t.hashbits t.slot
  represents : Represents kg t.hashbits t.slot m
  counted : t.nentries = t.liveCount

theorem arcMkhash_refines (kg : LawfulKeying K) (n : Nat) :
    Refines kg (arcMkhash n : Table K V) (fun _ => none) where
  sized := arcMkhash_sized n
  placed := (moved_zero n fun _ => .cunbound).placed
  represents := fun key v => ⟨fun h => (nomatch h), fun ⟨_, _, hi, _⟩ => (nomatch hi.2)⟩
  counted := by simp [Table.liveCount, liveSlots, arcMkhash, Slot.emptyp]

section Simulation

variable {kg : LawfulKeying K} {g : Keying K} {t t' : Table K V} {m : KeyMap kg V}
  {fuel r : Nat} {key : K} {val v : Option V}

theorem Refines.of_found {e : Bucket K V} (h : Refines kg t m)
    (hp : probeFor fuel kg.toKeying t key = some (r, some e)) :
    HeldAt t.hashbits t.slot r e ∧ kg.same e.bkey key = true ∧ e.bvalue ≠ none ∧
      m (kg.key key) = e.bvalue := by
  have hs := slot_of_probeFor hp
  have hi : HeldAt t.hashbits t.slot r e := ⟨probeFor_index_lt hp, hs⟩
  obtain ⟨-, n, -, -, hstop, -⟩ := probeFor_eq_some_iff.mp hp
  have hsame : kg.same e.bkey key = true := by simpa [hs, Slot.stops] using hstop
  have hv := h.placed.valued hi
  exact ⟨hi, hsame, hv, h.represents.value_of_held hv hi hsame⟩

theorem Refines.of_missing (h : Refines kg t m)
    (hp : probeFor fuel kg.toKeying t key = some (r, none)) :
    m (kg.key key) = none ∧
      ∀ i e, HeldAt t.hashbits t.slot i e → kg.same e.bkey key = false := by
  obtain ⟨hb, n, -, hr, hstop, hpre⟩ := probeFor_eq_some_iff.mp hp
  have hslot : t.slot r = .cunbound := by
    cases hs : t.slot r with
    | cunbound => rfl
    | cundef => simp [hs, Slot.stops] at hstop
    | bucket e => simp [hs, Slot.bucket?] at hb
  have habs := h.placed.absent_of_path (hr ▸ hslot) hpre
  exact ⟨(h.represents.absent_iff h.placed.valued).mpr habs, habs⟩

theorem Refines.probe_value {e : Option (Bucket K V)} (h : Refines kg t m)
    (hp : probeFor fuel kg.toKeying t key = some (r, e)) :
    e.bind Bucket.bvalue = m (kg.key key) := by
  cases e with
  | some b => exact (h.of_found hp).2.2.2.symm
  | none => exact (h.of_missing hp).1.symm

theorem Refines.expand (h : Refines kg t m) (hu : hashtableExpand fuel t = some t') :
    Refines kg t' m := by
  have hsized := (hashtableExpand_sized h.sized hu).1
  obtain ⟨newtbl, hn, rfl⟩ := hashtableExpand_eq_some hu
  have hm := moved_expand h.placed (le_refl _) hn
  refine ⟨hsized, hm.placed, hm.represents h.represents, ?_⟩
  exact h.counted.trans (card_liveSlots_expand hn).symm

theorem Refines.roomFor (h : Refines kg t m) (hu : t.roomFor fuel = some t') :
    Refines kg t' m := by
  unfold Table.roomFor at hu
  split at hu
  · exact h.expand hu
  · cases hu
    exact h

open Classical in
theorem Refines.insertNew (h : Refines kg t m) (hval : val ≠ none)
    (habs : m (kg.key key) = none)
    (hnew : insertNew fuel kg.toKeying t key val (uint (kg.hash key)) = some t') :
    Refines kg t' (Function.update m (kg.key key) val) := by
  have hsized := insertNew_sized h.sized hnew
  obtain ⟨u, index, hu, hi, rfl⟩ := insertNew_eq_some hnew
  have hru := h.roomFor hu
  have hothers := (hru.represents.absent_iff hru.placed.valued).mp habs
  rw [insertLoop_eq_walk] at hi
  obtain ⟨n, rfl, hstop, hpre⟩ := walk_home_eq_some hi
  set index := probe u.hashbits (uint (kg.hash key)) n
  have hlt : index < u.tablesize := probe_lt _ _ n
  have hempty : (u.slot index).emptyp = true := by
    cases hs : u.slot index with
    | cunbound => rfl
    | cundef => rfl
    | bucket e =>
      have hno := hothers index e ⟨hlt, hs⟩
      simp [index, hs, Slot.emptyp, Slot.holds, hno] at hstop
  have hstore : storeAt { u with nentries := u.nentries + 1 } index key val
      (uint (kg.hash key)) = { u with nentries := u.nentries + 1 }.setSlot index
        (.bucket ⟨index, key, val, uint (kg.hash key)⟩) := by
    unfold storeAt
    cases hs : u.slot index with
    | cunbound => rfl
    | cundef => rfl
    | bucket e => simp [hs, Slot.emptyp] at hempty
  rw [hstore] at hsized ⊢
  refine ⟨hsized, ?_, ?_, ?_⟩
  · refine hru.placed.store (e := ⟨index, key, val, uint (kg.hash key)⟩) hval rfl
      (fun i e' _ hi => hothers i e' hi) ⟨n, rfl, fun k hk => Slot.ne_cunbound ?_⟩
    simpa using (Bool.or_eq_false_iff.mp (hpre k hk)).1
  · exact hru.represents.store (e := ⟨index, key, val, uint (kg.hash key)⟩) hlt
      (fun i e' _ hi => hothers i e' hi) (fun e' he' => by simp [he', Slot.emptyp] at hempty)
  · have hc := liveCount_setSlot_new (t := { u with nentries := u.nentries + 1 })
      (s := .bucket ⟨index, key, val, uint (kg.hash key)⟩) hlt hempty rfl
    rw [hc]
    exact congrArg (· + 1) hru.counted

open Classical in
theorem Refines.insert (h : Refines kg t m) (hval : val ≠ none)
    (hins : arcHashInsert fuel kg.toKeying t key val = some (t', v)) :
    Refines kg t' (Function.update m (kg.key key) val) ∧ v = val := by
  cases hp : probeFor fuel kg.toKeying t key with
  | none => rw [arcHashInsert_of_none hp] at hins; cases hins
  | some p =>
    obtain ⟨r, e⟩ := p
    cases e with
    | none =>
      rw [arcHashInsert_of_unbound hp rfl] at hins
      obtain ⟨u, hu, he⟩ := Option.map_eq_some_iff.mp hins
      cases he
      exact ⟨h.insertNew hval (h.of_missing hp).1 hu, rfl⟩
    | some b =>
      obtain ⟨hi, hsame, hb, -⟩ := h.of_found hp
      have hsized := arcHashInsert_sized h.sized hins
      rw [arcHashInsert_of_bound hp hb] at hins
      cases hins
      have hothers : ∀ i e', i ≠ r → HeldAt t.hashbits t.slot i e' →
          kg.same e'.bkey b.bkey = false := by
        intro i e' hne hi'
        by_contra hc
        exact hne (h.placed.unique hi' hi (by simpa using hc))
      have hkey : kg.key key = kg.key b.bkey := (LawfulKeying.key_eq_iff.mpr hsame).symm
      refine ⟨⟨hsized, ?_, ?_, ?_⟩, rfl⟩
      · have hhash := h.placed.hashed hi
        have hpath := h.placed.onPath hi
        exact h.placed.store (e := { b with bvalue := val }) hval hhash hothers hpath
      · rw [hkey]
        exact h.represents.store (e := { b with bvalue := val }) hi.1 hothers
          (fun e' he' => by
            cases hi.2.symm.trans he'
            exact kg.equiv.refl _)
      · rw [liveCount_setSlot_live (probeFor_index_lt hp) (by simp [hi.2, Slot.emptyp]) rfl]
        exact h.counted

open Classical in
theorem Refines.delete (h : Refines kg t m)
    (hdel : arcHashDelete fuel kg.toKeying t key = some (t', v)) :
    Refines kg t' (Function.update m (kg.key key) none) ∧ v = m (kg.key key) := by
  cases hp : probeFor fuel kg.toKeying t key with
  | none => simp [arcHashDelete, hashLookup_eq_map, hp] at hdel
  | some p =>
    obtain ⟨r, e⟩ := p
    have hval := h.probe_value hp
    cases e with
    | none =>
      rw [arcHashDelete_of_unbound hp rfl] at hdel
      cases hdel
      have hnone : m (kg.key key) = none := hval.symm
      rw [Function.update_eq_self_iff.mpr hnone.symm]
      exact ⟨h, hnone.symm⟩
    | some b =>
      obtain ⟨hi, hsame, hb, -⟩ := h.of_found hp
      obtain ⟨w, hw⟩ := Option.ne_none_iff_exists'.mp hb
      have hsized := arcHashDelete_sized h.sized hdel
      rw [arcHashDelete_of_bound hp hw] at hdel
      cases hdel
      refine ⟨⟨hsized, h.placed.bury, h.represents.bury h.placed hi hsame, ?_⟩,
        hw.symm.trans hval⟩
      have hc := liveCount_setSlot_bury (t := { t with nentries := t.nentries - 1 })
        (s := .cundef) hi.1 (by simp [hi.2, Slot.emptyp]) rfl
      rw [hc]
      exact congrArg (· - 1) h.counted

/-- One operation of the simple interface is the same operation on the map. -/
theorem tableStep_refines {op : TableOp K V} {a : TableAnswer K V} (h : Refines kg t m)
    (hop : op.Simple) (hstep : tableStep fuel kg.toKeying g t op = some (t', a)) :
    Refines kg t' (m.after kg op) ∧ m.Answers kg op a := by
  cases op with
  | xlookup key => exact hop.elim
  | xlookup2 key => exact hop.elim
  | xinsert key val => exact hop.elim
  | xdelete key => exact hop.elim
  | length =>
    cases hstep
    refine ⟨h, ?_⟩
    rw [KeyMap.Answers, arcHashLength_eq_liveCount, h.represents.ncard_eq h.placed]
    rfl
  | insert key val =>
    obtain ⟨⟨u, w⟩, hins, he⟩ := Option.map_eq_some_iff.mp hstep
    cases he
    exact h.insert hop hins
  | delete key =>
    obtain ⟨⟨u, w⟩, hdel, he⟩ := Option.map_eq_some_iff.mp hstep
    cases he
    exact h.delete hdel
  | lookup key =>
    obtain ⟨w, hl, he⟩ := Option.map_eq_some_iff.mp hstep
    cases he
    rw [arcHashLookup, hashLookup_eq_map] at hl
    cases hp : probeFor fuel kg.toKeying t key with
    | none => simp [hp] at hl
    | some p =>
      refine ⟨h, ?_⟩
      have hv := h.probe_value hp
      simp only [hp] at hl
      cases hl
      exact hv
  | lookup2 key =>
    obtain ⟨w, hl, he⟩ := Option.map_eq_some_iff.mp hstep
    cases he
    rw [arcHashLookup2, hashLookup_eq_map] at hl
    cases hp : probeFor fuel kg.toKeying t key with
    | none => simp [hp] at hl
    | some p =>
      obtain ⟨r, e⟩ := p
      refine ⟨h, ?_⟩
      cases e with
      | none =>
        simp only [hp] at hl
        cases hl
        exact (h.of_missing hp).1
      | some b =>
        obtain ⟨hi, hsame, hb, hm⟩ := h.of_found hp
        obtain ⟨w, hw⟩ := Option.ne_none_iff_exists'.mp hb
        simp only [hp, Option.map_some, Option.bind_some, hw, hi.2, Option.bind_eq_bind,
          Option.pure_def] at hl
        cases hl
        exact ⟨hsame, hb, hm⟩

theorem tableRun_refines {ops : List (TableOp K V)} {as : List (TableAnswer K V)}
    (h : Refines kg t m) (hops : ∀ op ∈ ops, op.Simple)
    (hrun : tableRun fuel kg.toKeying g t ops = some (t', as)) :
    KeyMap.AnswersAll kg m ops as ∧ ∃ m', Refines kg t' m' := by
  induction ops generalizing t m as with
  | nil =>
    cases hrun
    exact ⟨trivial, m, h⟩
  | cons op ops ih =>
    obtain ⟨⟨u, a⟩, hstep, hrest⟩ := Option.bind_eq_some_iff.mp hrun
    obtain ⟨⟨t'', as'⟩, hq, he⟩ := Option.map_eq_some_iff.mp hrest
    cases he
    obtain ⟨hu, ha⟩ := tableStep_refines h (hops op (by simp)) hstep
    obtain ⟨has, hend⟩ := ih hu (fun o ho => hops o (by simp [ho])) hq
    exact ⟨⟨ha, has⟩, hend⟩

/-- A new table of any size answers as a finite map does, stores no key twice,
and counts its live buckets. -/
theorem tableRun_arcMkhash_refines (kg : LawfulKeying K) (g : Keying K) (hashbits : Nat)
    {ops : List (TableOp K V)} {as : List (TableAnswer K V)} (hops : ∀ op ∈ ops, op.Simple)
    (hrun : tableRun fuel kg.toKeying g (arcMkhash hashbits) ops = some (t, as)) :
    KeyMap.AnswersAll kg (fun _ => none) ops as ∧
      (∀ i j e e', i < t.tablesize → j < t.tablesize → t.slot i = .bucket e →
        t.slot j = .bucket e' → kg.same e.bkey e'.bkey = true → i = j) ∧
      t.nentries = arcHashLength t := by
  obtain ⟨has, m', hm⟩ := tableRun_refines (arcMkhash_refines kg hashbits) hops hrun
  refine ⟨has, fun i j e e' hi hj he he' => hm.placed.unique ⟨hi, he⟩ ⟨hj, he'⟩, ?_⟩
  rw [arcHashLength_eq_liveCount, hm.counted]

end Simulation

/-- Fixnum keys are compared by identity. -/
def fixnumLawful : LawfulKeying Int where
  toKeying := fixnumKeying
  equiv := ⟨fun n => beq_self_eq_true n, fun h => beq_iff_eq.mpr (beq_iff_eq.mp h).symm,
    fun h h' => beq_iff_eq.mpr ((beq_iff_eq.mp h).trans (beq_iff_eq.mp h'))⟩
  hash_congr := fun h => congrArg fixnumKeying.hash (beq_iff_eq.mp h)

theorem tableRun_refines_fixnums : ∃ t as,
    tableRun 5 fixnumKeying fixnumKeying (arcMkhash 1)
      [.insert 0 (some 'a'), .insert 5 (some 'b'), .delete 0, .lookup 5] = some (t, as) ∧
    KeyMap.AnswersAll fixnumLawful (fun _ => none)
      [.insert 0 (some 'a'), .insert 5 (some 'b'), .delete 0, .lookup 5] as ∧
    t.nentries = arcHashLength t := by
  obtain ⟨⟨t, as⟩, hrun⟩ := Option.isSome_iff_exists.mp (show (tableRun 5 fixnumKeying
    fixnumKeying (arcMkhash 1) [.insert 0 (some 'a'), .insert 5 (some 'b'), .delete 0,
      .lookup 5]).isSome = true by decide +kernel)
  obtain ⟨has, -, hcount⟩ := tableRun_arcMkhash_refines fixnumLawful fixnumKeying 1
    (by simp [TableOp.Simple]) hrun
  exact ⟨t, as, hrun, has, hcount⟩

/-- Inserting the marker `CUNBOUND` as a value: the bucket is there but counts
as missing, so the second insertion counts the key again. -/
theorem arcHashInsert_marker_miscounts : ∃ t as,
    tableRun (V := Int) 5 fixnumKeying fixnumKeying (arcMkhash 2)
      [.insert 0 none, .insert 0 none] = some (t, as) ∧
    t.nentries ≠ arcHashLength t := by
  have hrun : (tableRun (V := Int) 5 fixnumKeying fixnumKeying (arcMkhash 2)
      [.insert 0 none, .insert 0 none]).any
        (fun p => p.1.nentries == 2 && arcHashLength p.1 == 1) = true := by decide +kernel
  obtain ⟨⟨t, as⟩, h, hcount⟩ := (Option.any_eq_true _ _).mp hrun
  refine ⟨t, as, h, fun he => ?_⟩
  simp only [Bool.and_eq_true, beq_iff_eq] at hcount
  omega

end Arcueid
