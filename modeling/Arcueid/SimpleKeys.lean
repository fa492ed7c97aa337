import Arcueid.Lib.Outcome
import Arcueid.TableStored
import Arcueid.Xhash

/-! Keys without components under both interfaces of the tables: equal keys hash
equally but for the two zeros, and what one interface stores the other finds. -/

namespace Arcueid.Objects

def Obj.simple : Obj → Bool
  | .cons _ _ => false
  | .vector _ => false
  | .table _ => false
  | _ => true

/-- A value without components. -/
def SimpleKey (h : Heap) : Val → Prop
  | .obj a => (h a).simple = true
  | _ => True

/-- The keys of the general interface; `fuel` bounds the depth of keys. -/
def generalKeying (h : Heap) (vh1 vh2 : Val) (fuel : Nat) : Keying Val where
  same a b := match arcIso h vh1 vh2 fuel [a, b] with
    | .ok answer => answer
    | .error _ => false
  hash key := match arcXhash h fuel key with
    | .ok n => (BitVec.ofInt 64 n).toNat
    | .error _ => 0

variable {h : Heap} {vh1 vh2 a b v : Val} {fuel n : Nat}

section General

theorem isocmp_simple {o o' : Obj} {iso2 : Val → Val → IsoM Bool} (ho : o.simple = true) :
    isocmp fuel iso2 h vh1 vh2 a b o o' = pure (iscmp o o') := by
  cases o with
  | cons car cdr => cases ho
  | vector elts => cases ho
  | table tbl => cases ho
  | _ => cases o' <;> rfl

theorem arcIso2_simple (ha : SimpleKey h a) (s : Visits) :
    arcIso2 h vh1 vh2 (n + 1) a b s = .ok (arcIs2 h a b, s) := by
  unfold arcIso2 arcIs2
  by_cases hab : a = b
  · simp [hab]
    rfl
  · by_cases ht : typeOf h a ≠ typeOf h b
    · simp [hab, ht]
      rfl
    · simp only [hab, ht, if_false]
      cases a with
      | obj x =>
        cases b with
        | obj y =>
          simp only [isocmp_simple ha]
          rfl
        | _ => rfl
      | _ => cases b <;> rfl

theorem arcIso_simple (ha : SimpleKey h a) :
    arcIso h vh1 vh2 (n + 1) [a, b] = .ok (arcIs2 h a b) := by
  simp only [arcIso, pairwise, StateT.run]
  rw [Outcome.bind_of_ok (arcIso2_simple ha _)]
  cases arcIs2 h a b <;> rfl

/-- The type tells whether a value has components. -/
theorem simpleKey_iff : SimpleKey h a ↔ typeOf h a ∉ [ArcType.tCons, .tVector, .tTable] := by
  cases a with
  | obj x => cases hx : h x <;> simp [SimpleKey, typeOf, Obj.type, Obj.simple, hx]
  | _ => simp [SimpleKey, typeOf]

theorem arcIso_simple_right (hb : SimpleKey h b) :
    arcIso h vh1 vh2 (n + 1) [a, b] = .ok (arcIs2 h a b) := by
  by_cases ha : SimpleKey h a
  · exact arcIso_simple ha
  · have htype : typeOf h a ≠ typeOf h b := fun heq => ha (simpleKey_iff.mpr (heq ▸ simpleKey_iff.mp hb))
    have hne : a ≠ b := fun heq => htype (by rw [heq])
    have hiso2 : ∀ s, arcIso2 h vh1 vh2 (n + 1) a b s = .ok (false, s) := by
      intro s
      simp only [arcIso2, hne, htype, if_false, if_true, ne_eq, not_false_eq_true]
      rfl
    simp only [arcIso, pairwise, StateT.run, arcIs2, hne, htype, if_false, if_true, ne_eq, not_false_eq_true]
    rw [Outcome.bind_of_ok (hiso2 _)]
    rfl

theorem Obj.hash?_of_simple {o : Obj} (ho : o.simple = true) : ∃ f, o.hash? = some f := by
  cases o with
  | cons car cdr => cases ho
  | vector elts => cases ho
  | table tbl => cases ho
  | _ => exact ⟨_, rfl⟩

/-- On a simple key both traversals make the same updates. -/
theorem arcXhashIncrement_simple (hv : SimpleKey h v) (hs : ArcHs) (visithash : Option VisitTable) :
    ∃ hs' len, arcHashIncrement h v hs = .ok (hs', len) ∧
      arcXhashIncrement h (n + 1) v ⟨encodeHs hs, visithash⟩ =
        .ok (int2fix len, ⟨encodeHs hs', visithash⟩) := by
  cases v with
  | obj x =>
    obtain ⟨f, hf⟩ := Obj.hash?_of_simple hv
    refine ⟨_, _, by simp only [arcHashIncrement, hf]; rfl, ?_⟩
    unfold arcXhashIncrement
    rw [Outcome.bind_of_ok rfl]
    simp only [hf, decodeHs_encodeHs]
    rfl
  | _ =>
    refine ⟨_, _, rfl, ?_⟩
    unfold arcXhashIncrement
    rw [Outcome.bind_of_ok rfl]
    simp only [decodeHs_encodeHs]
    rfl

end General

section Agreement

/-- Both hash functions have a value, and the values have the same low half. -/
def HashesAgree (h : Heap) (v : Val) : Prop :=
  ∃ hv x, arcHash h v = .ok hv ∧ (∀ n, arcXhash h (n + 1) v = .ok x) ∧
    (BitVec.ofInt 64 x).setWidth 32 = hv.setWidth 32

theorem ofInt_int2fix_shift (w : BitVec 64) : BitVec.ofInt 64 (int2fix w) <<< 3 = w <<< 3 := by
  apply BitVec.eq_of_getLsbD_eq
  intro i hi
  rw [BitVec.getLsbD_shiftLeft, BitVec.getLsbD_shiftLeft, getLsbD_int2fix _ (by omega)]

theorem setWidth_int2fix (w : BitVec 64) :
    (BitVec.ofInt 64 (int2fix w)).setWidth 32 = w.setWidth 32 := by
  apply BitVec.eq_of_getLsbD_eq
  intro i hi
  rw [BitVec.getLsbD_setWidth, BitVec.getLsbD_setWidth, getLsbD_int2fix _ (by omega)]

theorem hashesAgree_of_simple (hv : SimpleKey h v) : HashesAgree h v := by
  obtain ⟨hs, len, hinc, -⟩ := arcXhashIncrement_simple (n := 0) hv (arcHashInit 0) none
  refine ⟨arcHashFinal hs len, int2fix (arcHashFinal hs len), ?_, fun n => ?_, setWidth_int2fix _⟩
  · rw [arcHash, arcHashLevel, hinc]
    rfl
  · obtain ⟨hs', len', hinc', hx⟩ := arcXhashIncrement_simple (n := n) hv (arcHashInit 0) none
    rw [hinc] at hinc'
    cases hinc'
    rw [arcXhash, StateT.run, hx]
    simp only [bind, Except.bind, decodeHs_encodeHs, arcHashFinal, ofInt_int2fix_shift]
    rfl

theorem uint_toNat (w : BitVec 64) : uint w.toNat = (w.setWidth 32).toNat := by
  rw [BitVec.toNat_setWidth, uint]

theorem uint_hash_eq (hv : SimpleKey h v) :
    uint ((generalKeying h vh1 vh2 (n + 1)).hash v) = uint ((simpleKeying h).hash v) := by
  obtain ⟨w, x, hhash, hx, hlow⟩ := hashesAgree_of_simple hv
  simp only [generalKeying, simpleKeying, hhash, hx, uint_toNat, hlow]

theorem same_eq (ha : SimpleKey h a) :
    (generalKeying h vh1 vh2 (n + 1)).same a b = (simpleKeying h).same a b := by
  simp only [generalKeying, simpleKeying, arcIso_simple ha]

theorem arcIs2_self (h : Heap) (a : Val) : arcIs2 h a a = true := by simp [arcIs2]

/-- On a table of simple keys both interfaces make the same probes. -/
theorem probeFor_general {t : Table Val Val} (ht : t.KeysIn (SimpleKey h)) (ha : SimpleKey h a) :
    probeFor fuel (generalKeying h vh1 vh2 (n + 1)) t a = probeFor fuel (simpleKeying h) t a :=
  probeFor_congr (uint_hash_eq ha) fun i e he => same_eq (ht i e he)

/-- Whatever value one interface binds to the key in a table of simple keys, the
other one finds. -/
structure FoundThroughOther (h : Heap) (vh1 vh2 : Val) (n : Nat) (a : Val) : Prop where
  general : ∀ {fuel} {t t' : Table Val Val} {v r}, t.KeysIn (SimpleKey h) →
    arcHashInsert fuel (simpleKeying h) t a (some v) = some (t', r) →
    ∃ m, arcXhashLookup m (generalKeying h vh1 vh2 n) t' a = some (some v)
  simple : ∀ {fuel} {t t' : Table Val Val} {v r}, t.KeysIn (SimpleKey h) →
    t'.hashbits ≤ 32 →
    arcXhashInsert fuel (generalKeying h vh1 vh2 n) t a (some v) = some (t', r) →
    ∃ m, arcHashLookup m (simpleKeying h) t' a = some (some v)

theorem foundThroughOther_of_simple (vh1 vh2 : Val) (n : Nat) (ha : SimpleKey h a) :
    FoundThroughOther h vh1 vh2 (n + 1) a where
  general := by
    intro fuel t t' v r ht hins
    obtain ⟨m, i, e, hp, he⟩ := probeFor_of_arcHashInsert (arcIs2_self h a) hins
    rw [← @probeFor_general _ vh1 vh2 _ _ n _ (ht.arcHashInsert ha hins) ha] at hp
    exact ⟨m, by simp [arcXhashLookup, arcXhashLookup2, hp, he]⟩
  simple := by
    intro fuel t t' v r ht hbits hins
    have hrefl : (generalKeying h vh1 vh2 (n + 1)).same a a = true := by
      rw [same_eq ha]
      exact arcIs2_self h a
    obtain ⟨m, i, e, hp, he⟩ := probeFor_of_arcXhashInsert hrefl hbits hins
    rw [probeFor_general (ht.arcXhashInsert ha hins) ha] at hp
    exact ⟨m, by simp [arcHashLookup, hashLookup, hp, he]⟩

end Agreement

section Equal

/-- The two values are the two zeros. -/
def ZerosApart (h : Heap) (a b : Val) : Prop :=
  ∃ x y w w', a = .obj x ∧ b = .obj y ∧ h x = .flonum w ∧ h y = .flonum w' ∧ SignedZeros w w'

theorem arcHash_congr {x y : Nat} (hxy : h x = h y) : arcHash h (.obj x) = arcHash h (.obj y) := by
  simp only [arcHash, arcHashLevel, arcHashIncrement, typeWord, typeOf, hxy]

theorem arcHash_eq_of_is (his : arcIs2 h a b = true) (hz : ¬ ZerosApart h a b) :
    arcHash h a = arcHash h b := by
  unfold arcIs2 at his
  split at his
  · next hab => rw [hab]
  · split at his
    · cases his
    · split at his
      · next x y _ _ =>
        rcases eq_or_zeros_of_iscmp his with heq | ⟨w, w', hx, hy, hzero⟩
        · exact arcHash_congr heq
        · exact absurd ⟨x, y, w, w', rfl, rfl, hx, hy, hzero⟩ hz
      · cases his

theorem flonumZero_cases {w : BitVec 64} (hw : flonumZero w = true) : w = 0 ∨ w = 1 <<< 63 := by
  have hlow : w.toNat % 2 ^ 63 = 0 := by
    have heq : w.extractLsb' 0 63 = 0 := by simpa [flonumZero] using hw
    simpa using congrArg BitVec.toNat heq
  have hlt := w.isLt
  have hcases : w.toNat = 0 ∨ w.toNat = 2 ^ 63 := by omega
  rcases hcases with hz | hz
  · exact .inl (BitVec.eq_of_toNat_eq hz)
  · exact .inr (BitVec.eq_of_toNat_eq hz)

theorem zeros_hash : arcHashFinal (flonumHash 0 (arcHashUpdate (arcHashInit 0) 4)).1 1 ≠
    arcHashFinal (flonumHash (1 <<< 63) (arcHashUpdate (arcHashInit 0) 4)).1 1 := by
  decide +kernel

theorem arcHash_flonum {x : Nat} {w : BitVec 64} (hx : h x = .flonum w) :
    arcHash h (.obj x) =
      .ok (arcHashFinal (flonumHash w (arcHashUpdate (arcHashInit 0) 4)).1 1) := by
  simp only [arcHash, arcHashLevel, arcHashIncrement, typeWord, typeOf, hx]
  rfl

/-- The two zeros are the same, but their bytes hash differently. -/
theorem zeros_differ (hz : ZerosApart h a b) :
    arcIs2 h a b = true ∧ arcHash h a ≠ arcHash h b := by
  obtain ⟨x, y, w, w', rfl, rfl, hx, hy, hw, hw', hne⟩ := hz
  constructor
  · have hnan : ∀ w, flonumZero w = true → flonumNan w = false := by
      intro w hw
      rcases flonumZero_cases hw with rfl | rfl <;> decide
    have heq : flonumEq w w' = true :=
      flonumEq_iff.mpr ⟨hnan w hw, hnan w' hw', .inr ⟨hw, hw', hne⟩⟩
    unfold arcIs2
    split
    · rfl
    · simp [typeOf, hx, hy, Obj.type, iscmp, heq]
  · rw [arcHash_flonum hx, arcHash_flonum hy]
    intro heq
    have heq' := Except.ok.inj heq
    rcases flonumZero_cases hw with rfl | rfl <;> rcases flonumZero_cases hw' with rfl | rfl
    · exact hne rfl
    · exact zeros_hash heq'
    · exact zeros_hash heq'.symm
    · exact hne rfl

end Equal

/-- Simple keys that `arc_is2` takes for equal have one hash value, the two hash
functions agree on them, and each interface finds what the other stored, exactly
when the keys are not the two zeros. -/
theorem simpleKeys_hash_iff (vh1 vh2 : Val) (n : Nat) (ha : SimpleKey h a) (hb : SimpleKey h b) :
    ((arcIs2 h a b = true → arcHash h a = arcHash h b) ∧
      (HashesAgree h a ∧ FoundThroughOther h vh1 vh2 (n + 1) a) ∧
      HashesAgree h b ∧ FoundThroughOther h vh1 vh2 (n + 1) b) ↔ ¬ ZerosApart h a b := by
  constructor
  · rintro ⟨heq, -⟩ hz
    obtain ⟨his, hne⟩ := zeros_differ hz
    exact hne (heq his)
  · intro hz
    exact ⟨fun his => arcHash_eq_of_is his hz,
      ⟨hashesAgree_of_simple ha, foundThroughOther_of_simple vh1 vh2 n ha⟩,
      hashesAgree_of_simple hb, foundThroughOther_of_simple vh1 vh2 n hb⟩

/-- One string in two objects. -/
theorem simpleKeys_hash_strings :
    arcHash (fun _ => .string [97]) (.obj 16) = arcHash (fun _ => .string [97]) (.obj 32) := by
  have hz : ¬ ZerosApart (fun _ => .string [97]) (.obj 16) (.obj 32) := by
    rintro ⟨x, y, w, w', -, -, hx, -⟩
    cases hx
  have ha : ∀ x, SimpleKey (fun _ => .string [97]) (.obj x) := fun _ => rfl
  exact ((simpleKeys_hash_iff .nil .nil 0 (ha 16) (ha 32)).mpr hz).1 (by decide)

/-- Positive zero in one object and negative zero in the other. -/
theorem zeros_are_same_hash_apart : ∃ (h : Heap) (a b : Val), SimpleKey h a ∧ SimpleKey h b ∧
    arcIs2 h a b = true ∧ arcHash h a ≠ arcHash h b := by
  let h : Heap := fun x => if x = 16 then .flonum 0 else .flonum (1 <<< 63)
  have hz : ZerosApart h (.obj 16) (.obj 32) :=
    ⟨16, 32, 0, 1 <<< 63, rfl, rfl, rfl, rfl, by decide⟩
  exact ⟨h, .obj 16, .obj 32, rfl, rfl, zeros_differ hz⟩

end Arcueid.Objects
