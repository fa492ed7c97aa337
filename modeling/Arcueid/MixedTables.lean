import Arcueid.IsoTables
import Arcueid.TableNormal

/-! Tables used through both interfaces, `sref` and application at once, as finite
maps modulo `iso`. -/

namespace Arcueid.Objects

open Filter

section Model

/-- The branch of `arc_sref` for tables, where nil removes the binding. -/
def srefTable (fuel : Nat) (g : Keying Val) (t : Table Val Val) (val ind : Val) :
    Option (Table Val Val × Val) :=
  if val = .nil then (arcXhashDelete fuel g t ind).map fun p => (p.1, val)
  else (arcXhashInsert fuel g t ind (some val)).map fun p => (p.1, val)

def xhashApply (fuel : Nat) (g : Keying Val) (t : Table Val Val) (key dflt : Val) : Option Val :=
  (arcXhashLookup fuel g t key).map fun v => v.getD dflt

/-- `hash_apply`, with what was given for its arguments. -/
def hashApply (fuel : Nat) (g : Keying Val) (t : Table Val Val) : List Val → Option (Except String Val)
  | [key] => (xhashApply fuel g t key .nil).map .ok
  | [key, dflt] => (xhashApply fuel g t key dflt).map .ok
  | _ => some (.error "application of a table expects 1 or 2 arguments, given %d")

/-- The first three are those of the simple interface. -/
inductive MixedOp where
  | insert (key val : Val)
  | lookup (key : Val)
  | delete (key : Val)
  | xinsert (key val : Val)
  | xlookup (key : Val)
  | xdelete (key : Val)
  | sref (val ind : Val)
  | apply (args : List Val)

inductive MixedAnswer where
  | val (v : Option Val)
  | error (fmt : String)
  deriving DecidableEq

def mixedStep (fuel : Nat) (s g : Keying Val) (t : Table Val Val) :
    MixedOp → Option (Table Val Val × MixedAnswer)
  | .insert key val => (arcHashInsert fuel s t key (some val)).map fun p => (p.1, .val p.2)
  | .lookup key => (arcHashLookup fuel s t key).map fun v => (t, .val v)
  | .delete key => (arcHashDelete fuel s t key).map fun p => (p.1, .val p.2)
  | .xinsert key val => (arcXhashInsert fuel g t key (some val)).map fun p => (p.1, .val p.2)
  | .xlookup key => (arcXhashLookup fuel g t key).map fun v => (t, .val v)
  | .xdelete key => (arcXhashDelete fuel g t key).map fun p => (p.1, .val p.2)
  | .sref val ind => (srefTable fuel g t val ind).map fun p => (p.1, .val (some p.2))
  | .apply args => (hashApply fuel g t args).map fun
    | .ok v => (t, .val (some v))
    | .error fmt => (t, .error fmt)

def mixedRun (fuel : Nat) (s g : Keying Val) (t : Table Val Val) :
    List MixedOp → Option (Table Val Val × List MixedAnswer)
  | [] => some (t, [])
  | op :: ops =>
    (mixedStep fuel s g t op).bind fun (t', a) =>
      (mixedRun fuel s g t' ops).map fun (t'', as) => (t'', a :: as)

end Model

section Spec

variable (g : Keying Val)

/-- Binds every key that is the same as `key`. -/
def bindKey (m : Val → Option Val) (key : Val) (v : Option Val) : Val → Option Val := fun k =>
  if g.same k key then v else m k

/-- The map after an operation. -/
def mapAfter (m : Val → Option Val) : MixedOp → Val → Option Val
  | .insert key val | .xinsert key val => bindKey g m key (some val)
  | .delete key | .xdelete key => bindKey g m key none
  | .sref val ind => bindKey g m ind (if val = .nil then none else some val)
  | .lookup _ | .xlookup _ | .apply _ => m

/-- What the map answers. -/
def mapAnswer (m : Val → Option Val) : MixedOp → MixedAnswer
  | .insert _ val | .xinsert _ val | .sref val _ => .val (some val)
  | .lookup key | .xlookup key | .delete key | .xdelete key => .val (m key)
  | .apply [key] => .val (some ((m key).getD .nil))
  | .apply [key, dflt] => .val (some ((m key).getD dflt))
  | .apply _ => .error "application of a table expects 1 or 2 arguments, given %d"

def mapAnswers : (Val → Option Val) → List MixedOp → List MixedAnswer
  | _, [] => []
  | m, op :: ops => mapAnswer m op :: mapAnswers (mapAfter g m op) ops

end Spec

/-- Keys with the comparison that `iso` makes of them, and a hash function that
gives the same keys the same value, on keys without components that of `arc_hash`. -/
structure TableKeys (h : Heap) (S : Val → Prop) (g : Keying Val) : Prop where
  iso : ∀ {a b}, S a → S b → ∀ vh1 vh2, IsoAnswer h vh1 vh2 a b (g.same a b)
  hash_congr : ∀ {a b}, S a → S b → g.same a b = true → g.hash a = g.hash b
  hash_simple : ∀ {a}, S a → SimpleKey h a → uint (g.hash a) = uint ((simpleKeying h).hash a)

/-- `iso` is symmetric and transitive on the keys. -/
structure IsoEquiv (S : Val → Prop) (g : Keying Val) : Prop where
  symm : ∀ {a b}, S a → S b → g.same a b = true → g.same b a = true
  trans : ∀ {a b c}, S a → S b → S c → g.same a b = true → g.same b c = true → g.same a c = true

/-- The keys of an operation are of `S`, and simple ones for the simple interface. -/
def MixedOp.Keyed (h : Heap) (S : Val → Prop) : MixedOp → Prop
  | .insert key _ | .lookup key | .delete key => S key ∧ SimpleKey h key
  | .xinsert key _ | .xlookup key | .xdelete key | .sref _ key => S key
  | .apply args => ∀ key ∈ args.head?, S key

section Keys

variable {h : Heap} {S : Val → Prop} {g : Keying Val} {a b : Val}

theorem TableKeys.same_refl (hk : TableKeys h S g) (ha : S a) : g.same a a = true :=
  isoAnswer_unique (hk.iso ha ha .nil .nil) (isoAnswer_self h .nil .nil a)

/-- On a simple key both interfaces compare alike. -/
theorem TableKeys.same_simple (hk : TableKeys h S g) (ha : S a) (hb : S b) (hsimple : SimpleKey h b) :
    (simpleKeying h).same a b = g.same a b := by
  have hanswer : IsoAnswer h .nil .nil a b (arcIs2 h a b) := by
    refine eventually_atTop.mpr ⟨1, fun fuel hfuel => ?_⟩
    obtain ⟨n, rfl⟩ := Nat.exists_eq_add_of_le' hfuel
    exact arcIso_simple_right hsimple
  exact isoAnswer_unique hanswer (hk.iso ha hb .nil .nil)

open Classical in
/-- The comparison made lawful: other values are the same only as themselves. -/
noncomputable def TableKeys.lawful (hk : TableKeys h S g) (he : IsoEquiv S g) : LawfulKeying Val where
  same a b := decide (a = b ∨ S a ∧ S b ∧ g.same a b = true)
  hash := g.hash
  equiv := by
    refine ⟨fun a => by simp, fun {a b} hab => ?_, fun {a b c} hab hbc => ?_⟩
    · rw [decide_eq_true_iff] at hab ⊢
      rcases hab with rfl | ⟨ha, hb, hab⟩
      · exact .inl rfl
      · exact .inr ⟨hb, ha, he.symm ha hb hab⟩
    · rw [decide_eq_true_iff] at hab hbc ⊢
      rcases hab with rfl | ⟨ha, hb, hab⟩
      · exact hbc
      rcases hbc with rfl | ⟨-, hc, hbc⟩
      · exact .inr ⟨ha, hb, hab⟩
      · exact .inr ⟨ha, hc, he.trans ha hb hc hab hbc⟩
  hash_congr := by
    intro a b hab
    rw [decide_eq_true_iff] at hab
    rcases hab with rfl | ⟨ha, hb, hab⟩
    · rfl
    · exact hk.hash_congr ha hb hab

theorem TableKeys.lawful_same (hk : TableKeys h S g) (he : IsoEquiv S g) (ha : S a) (hb : S b) :
    (hk.lawful he).same a b = g.same a b := by
  rw [Bool.eq_iff_iff]
  simp only [TableKeys.lawful, decide_eq_true_iff]
  constructor
  · rintro (rfl | ⟨-, -, hab⟩)
    · exact hk.same_refl ha
    · exact hab
  · exact fun hab => .inr ⟨ha, hb, hab⟩

variable {t : Table Val Val}

theorem TableKeys.agree (hk : TableKeys h S g) (he : IsoEquiv S g) (ht : t.KeysIn S) (hb : S b) :
    KeyingsAgree g (hk.lawful he).toKeying t b :=
  ⟨rfl, fun i e hi => (hk.lawful_same he (ht i e hi) hb).symm⟩

theorem TableKeys.agree_simple (hk : TableKeys h S g) (he : IsoEquiv S g) (ht : t.KeysIn S) (hb : S b)
    (hsimple : SimpleKey h b) : KeyingsAgree (simpleKeying h) (hk.lawful he).toKeying t b :=
  ⟨(hk.hash_simple hb hsimple).symm, fun i e hi =>
    (hk.same_simple (ht i e hi) hb hsimple).trans (hk.lawful_same he (ht i e hi) hb).symm⟩

end Keys

section Simulation

variable {h : Heap} {S : Val → Prop} {g : Keying Val} {fuel : Nat} {t t' : Table Val Val}
  {m : Val → Option Val} {key : Val} {val v : Option Val}

/-- The table, as the simple interface would have filled it, has the bindings of the
map on the keys. -/
structure MapsTo (hk : TableKeys h S g) (he : IsoEquiv S g) (t : Table Val Val) (m : Val → Option Val) :
    Prop where
  refines : ∃ M, Refines (hk.lawful he) t.normal M ∧ ∀ k, S k → m k = M ((hk.lawful he).key k)
  keys : t.KeysIn S

variable {hk : TableKeys h S g} {he : IsoEquiv S g}

theorem held_normal {i : Nat} {e : Bucket Val Val} (hi : i < t.tablesize) (hs : t.slot i = .bucket e) :
    HeldAt t.normal.hashbits t.normal.slot i e.normal := by
  refine ⟨hi, ?_⟩
  rw [slot_normal, hs, normal_bucket]

theorem MapsTo.stored (hm : MapsTo hk he t m) : t.Stored := by
  obtain ⟨M, hM, -⟩ := hm.refines
  refine ⟨fun i e hi hs => ?_, fun i e hi hs => ?_⟩
  · have hval := hM.placed.valued (held_normal hi hs)
    exact hval
  · exact hM.sized.indexed i e.normal hi (held_normal hi hs).2

theorem mapsTo_arcMkhash (hashbits : Nat) : MapsTo hk he (arcMkhash hashbits) fun _ => none where
  refines := ⟨fun _ => none, arcMkhash_refines _ hashbits, fun _ _ => rfl⟩
  keys := by
    intro i e hs
    cases hs

/-- No two buckets have keys that are the same. -/
theorem MapsTo.unique {i j : Nat} {e e' : Bucket Val Val} (hm : MapsTo hk he t m) (hi : i < t.tablesize)
    (hj : j < t.tablesize) (hs : t.slot i = .bucket e) (hs' : t.slot j = .bucket e')
    (hsame : g.same e.bkey e'.bkey = true) : i = j := by
  obtain ⟨M, hM, -⟩ := hm.refines
  refine hM.placed.unique (held_normal hi hs) (held_normal hj hs') ?_
  exact (hk.lawful_same he (hm.keys i e hs) (hm.keys j e' hs')).trans hsame

theorem MapsTo.value_of_slot {i : Nat} {e : Bucket Val Val} (hm : MapsTo hk he t m) (hi : i < t.tablesize)
    (hs : t.slot i = .bucket e) : m e.bkey = e.bvalue := by
  obtain ⟨M, hM, hmM⟩ := hm.refines
  have hheld := held_normal hi hs
  have hvalue := hM.represents.value_of_held (hM.placed.valued hheld) hheld ((hk.lawful he).equiv.refl e.bkey)
  exact (hmM e.bkey (hm.keys i e hs)).trans hvalue

theorem MapsTo.slot_of_value {v : Val} (hm : MapsTo hk he t m) (hkey : S key) (hv : m key = some v) :
    ∃ i e, i < t.tablesize ∧ t.slot i = .bucket e ∧ g.same e.bkey key = true ∧ e.bvalue = some v := by
  obtain ⟨M, hM, hmM⟩ := hm.refines
  rw [hmM key hkey] at hv
  obtain ⟨i, e, ⟨hi, hslot⟩, hsame, hval⟩ := (hM.represents key v).mp hv
  rw [slot_normal] at hslot
  cases hs : t.slot i with
  | bucket e' =>
    rw [hs] at hslot
    cases hslot
    exact ⟨i, e', hi, hs, (hk.lawful_same he (hm.keys i e' hs) hkey).symm.trans hsame, hval⟩
  | cunbound =>
    rw [hs] at hslot
    cases hslot
  | cundef =>
    rw [hs] at hslot
    cases hslot

open Classical in
/-- An update of the map at the class of a key binds the keys that are the same. -/
theorem bindKey_eq {M : KeyMap (hk.lawful he) Val} (hkey : S key)
    (hM : ∀ k, S k → m k = M ((hk.lawful he).key k)) :
    ∀ k, S k → bindKey g m key v k = Function.update M ((hk.lawful he).key key) v ((hk.lawful he).key k) := by
  intro k hkS
  have hiff : g.same k key = true ↔ (hk.lawful he).key k = (hk.lawful he).key key := by
    rw [LawfulKeying.key_eq_iff, hk.lawful_same he hkS hkey]
  rw [bindKey]
  by_cases hsame : g.same k key = true
  · rw [if_pos hsame, hiff.mp hsame, Function.update_self]
  · rw [if_neg hsame, Function.update_of_ne (fun heq => hsame (hiff.mpr heq))]
    exact hM k hkS

theorem MapsTo.insert (hm : MapsTo hk he t m) (hkey : S key) (hval : val ≠ none) (hkeys : t'.KeysIn S)
    (hins : arcHashInsert fuel (hk.lawful he).toKeying t.normal key val = some (t'.normal, v)) :
    MapsTo hk he t' (bindKey g m key val) ∧ v = val := by
  obtain ⟨M, hM, hmM⟩ := hm.refines
  obtain ⟨hM', hv⟩ := hM.insert hval hins
  exact ⟨⟨⟨_, hM', bindKey_eq hkey hmM⟩, hkeys⟩, hv⟩

theorem MapsTo.delete (hm : MapsTo hk he t m) (hkey : S key) (hkeys : t'.KeysIn S)
    (hdel : arcHashDelete fuel (hk.lawful he).toKeying t.normal key = some (t'.normal, v)) :
    MapsTo hk he t' (bindKey g m key none) ∧ v = m key := by
  obtain ⟨M, hM, hmM⟩ := hm.refines
  obtain ⟨hM', hv⟩ := hM.delete hdel
  exact ⟨⟨⟨_, hM', bindKey_eq hkey hmM⟩, hkeys⟩, hv.trans (hmM key hkey).symm⟩

theorem MapsTo.lookup (hm : MapsTo hk he t m) (hkey : S key)
    (hl : arcHashLookup fuel (hk.lawful he).toKeying t.normal key = some v) : v = m key := by
  obtain ⟨M, hM, hmM⟩ := hm.refines
  rw [arcHashLookup, hashLookup_eq_map] at hl
  cases hp : probeFor fuel (hk.lawful he).toKeying t.normal key with
  | none => simp [hp] at hl
  | some p =>
    rw [hp] at hl
    cases hl
    exact (hM.probe_value hp).trans (hmM key hkey).symm

theorem MapsTo.xinsert {val : Val} (hm : MapsTo hk he t m) (hkey : S key) (hsmall : t'.hashbits ≤ 32)
    (hins : arcXhashInsert fuel g t key (some val) = some (t', v)) :
    MapsTo hk he t' (bindKey g m key (some val)) ∧ v = some val :=
  hm.insert hkey (Option.some_ne_none val) (hm.keys.arcXhashInsert hkey hins)
    (arcXhashInsert_normal (hk.agree he hm.keys hkey) hm.stored hsmall hins)

theorem MapsTo.xdelete (hm : MapsTo hk he t m) (hkey : S key)
    (hdel : arcXhashDelete fuel g t key = some (t', v)) :
    MapsTo hk he t' (bindKey g m key none) ∧ v = m key :=
  hm.delete hkey (hm.keys.arcXhashDelete hdel)
    (arcXhashDelete_normal (hk.agree he hm.keys hkey) hm.stored hdel)

theorem MapsTo.xlookup (hm : MapsTo hk he t m) (hkey : S key)
    (hl : arcXhashLookup fuel g t key = some v) : v = m key := by
  rw [arcXhashLookup_eq] at hl
  exact hm.lookup hkey (arcHashLookup_normal (hk.agree he hm.keys hkey) hl)

theorem MapsTo.sref {val ind r : Val} (hm : MapsTo hk he t m) (hkey : S ind) (hsmall : t'.hashbits ≤ 32)
    (h : srefTable fuel g t val ind = some (t', r)) :
    MapsTo hk he t' (bindKey g m ind (if val = .nil then none else some val)) ∧ r = val := by
  rw [srefTable] at h
  by_cases hnil : val = .nil
  · rw [if_pos hnil] at h ⊢
    obtain ⟨⟨u, w⟩, hdel, heq⟩ := Option.map_eq_some_iff.mp h
    cases heq
    exact ⟨(hm.xdelete hkey hdel).1, rfl⟩
  · rw [if_neg hnil] at h ⊢
    obtain ⟨⟨u, w⟩, hins, heq⟩ := Option.map_eq_some_iff.mp h
    cases heq
    exact ⟨(hm.xinsert hkey hsmall hins).1, rfl⟩

theorem MapsTo.apply {args : List Val} {r : Except String Val} (hm : MapsTo hk he t m)
    (hkey : ∀ key ∈ args.head?, S key) (h : hashApply fuel g t args = some r) :
    mapAnswer m (.apply args) = match r with
      | .ok v => .val (some v)
      | .error fmt => .error fmt := by
  have hfound : ∀ {key dflt : Val} {w}, S key → xhashApply fuel g t key dflt = some w →
      (m key).getD dflt = w := by
    intro key dflt w hkey hw
    obtain ⟨v, hv, rfl⟩ := Option.map_eq_some_iff.mp hw
    rw [hm.xlookup hkey hv]
  rcases args with _ | ⟨key, _ | ⟨dflt, _ | ⟨x, rest⟩⟩⟩
  · cases h
    rfl
  · obtain ⟨w, hw, rfl⟩ := Option.map_eq_some_iff.mp h
    simp only [mapAnswer, hfound (hkey key rfl) hw]
  · obtain ⟨w, hw, rfl⟩ := Option.map_eq_some_iff.mp h
    simp only [mapAnswer, hfound (hkey key rfl) hw]
  · cases h
    rfl

/-- An expansion changes no binding. -/
theorem MapsTo.expand (hm : MapsTo hk he t m) (hexp : hashtableExpand fuel t = some t') :
    MapsTo hk he t' m := by
  obtain ⟨M, hM, hmM⟩ := hm.refines
  exact ⟨⟨M, hM.expand (hashtableExpand_normal hexp), hmM⟩, hm.keys.hashtableExpand hexp⟩

/-- What a step of either interface does, the table and the map do alike. -/
theorem mixedStep_mapsTo {op : MixedOp} {a : MixedAnswer} (hm : MapsTo hk he t m)
    (hop : op.Keyed h S) (hsmall : t'.hashbits ≤ 32)
    (hstep : mixedStep fuel (simpleKeying h) g t op = some (t', a)) :
    MapsTo hk he t' (mapAfter g m op) ∧ a = mapAnswer m op := by
  cases op with
  | insert key val =>
    obtain ⟨⟨u, w⟩, hins, heq⟩ := Option.map_eq_some_iff.mp hstep
    cases heq
    have hnormal := arcHashInsert_normal (hk.agree_simple he hm.keys hop.1 hop.2) hins
    obtain ⟨hm', rfl⟩ := hm.insert hop.1 (Option.some_ne_none val) (hm.keys.arcHashInsert hop.1 hins) hnormal
    exact ⟨hm', rfl⟩
  | lookup key =>
    obtain ⟨w, hl, heq⟩ := Option.map_eq_some_iff.mp hstep
    cases heq
    have hnormal := arcHashLookup_normal (hk.agree_simple he hm.keys hop.1 hop.2) hl
    exact ⟨hm, congrArg MixedAnswer.val (hm.lookup hop.1 hnormal)⟩
  | delete key =>
    obtain ⟨⟨u, w⟩, hdel, heq⟩ := Option.map_eq_some_iff.mp hstep
    cases heq
    have hnormal := arcHashDelete_normal (hk.agree_simple he hm.keys hop.1 hop.2) hdel
    obtain ⟨hm', rfl⟩ := hm.delete hop.1 (hm.keys.arcHashDelete hdel) hnormal
    exact ⟨hm', rfl⟩
  | xinsert key val =>
    obtain ⟨⟨u, w⟩, hins, heq⟩ := Option.map_eq_some_iff.mp hstep
    cases heq
    obtain ⟨hm', rfl⟩ := hm.xinsert hop hsmall hins
    exact ⟨hm', rfl⟩
  | xlookup key =>
    obtain ⟨w, hl, heq⟩ := Option.map_eq_some_iff.mp hstep
    cases heq
    exact ⟨hm, congrArg MixedAnswer.val (hm.xlookup hop hl)⟩
  | xdelete key =>
    obtain ⟨⟨u, w⟩, hdel, heq⟩ := Option.map_eq_some_iff.mp hstep
    cases heq
    obtain ⟨hm', rfl⟩ := hm.xdelete hop hdel
    exact ⟨hm', rfl⟩
  | sref val ind =>
    obtain ⟨⟨u, w⟩, hs, heq⟩ := Option.map_eq_some_iff.mp hstep
    cases heq
    obtain ⟨hm', rfl⟩ := hm.sref hop hsmall hs
    exact ⟨hm', rfl⟩
  | apply args =>
    obtain ⟨r, hr, heq⟩ := Option.map_eq_some_iff.mp hstep
    have ha := hm.apply hop hr
    cases r <;> cases heq <;> exact ⟨hm, ha.symm⟩

end Simulation

section Runs

variable {h : Heap} {S : Val → Prop} {s g : Keying Val} {fuel : Nat} {t t' : Table Val Val}
  {m : Val → Option Val}

/-- No step makes the vector smaller. -/
theorem mixedStep_hashbits {op : MixedOp} {a : MixedAnswer}
    (hstep : mixedStep fuel s g t op = some (t', a)) : t.hashbits ≤ t'.hashbits := by
  cases op with
  | insert key val =>
    obtain ⟨⟨u, w⟩, hins, heq⟩ := Option.map_eq_some_iff.mp hstep
    cases heq
    exact arcHashInsert_hashbits hins
  | delete key =>
    obtain ⟨⟨u, w⟩, hdel, heq⟩ := Option.map_eq_some_iff.mp hstep
    cases heq
    exact (arcHashDelete_hashbits hdel).ge
  | xinsert key val =>
    obtain ⟨⟨u, w⟩, hins, heq⟩ := Option.map_eq_some_iff.mp hstep
    cases heq
    exact arcXhashInsert_hashbits hins
  | xdelete key =>
    obtain ⟨⟨u, w⟩, hdel, heq⟩ := Option.map_eq_some_iff.mp hstep
    cases heq
    exact (arcXhashDelete_hashbits hdel).ge
  | sref val ind =>
    obtain ⟨⟨u, w⟩, hs, heq⟩ := Option.map_eq_some_iff.mp hstep
    cases heq
    rw [srefTable] at hs
    split at hs
    · obtain ⟨⟨u, w⟩, hdel, heq⟩ := Option.map_eq_some_iff.mp hs
      cases heq
      exact (arcXhashDelete_hashbits hdel).ge
    · obtain ⟨⟨u, w⟩, hins, heq⟩ := Option.map_eq_some_iff.mp hs
      cases heq
      exact arcXhashInsert_hashbits hins
  | lookup key | xlookup key =>
    obtain ⟨w, -, heq⟩ := Option.map_eq_some_iff.mp hstep
    cases heq
    exact Nat.le_refl _
  | apply args =>
    obtain ⟨r, -, heq⟩ := Option.map_eq_some_iff.mp hstep
    cases r <;> cases heq <;> exact Nat.le_refl _

theorem mixedRun_cons_eq_some {op : MixedOp} {ops : List MixedOp} {as : List MixedAnswer}
    (hrun : mixedRun fuel s g t (op :: ops) = some (t', as)) : ∃ u a as', as = a :: as' ∧
      mixedStep fuel s g t op = some (u, a) ∧ mixedRun fuel s g u ops = some (t', as') := by
  obtain ⟨⟨u, a⟩, hstep, hmap⟩ := Option.bind_eq_some_iff.mp hrun
  obtain ⟨⟨t'', as'⟩, hrest, heq⟩ := Option.map_eq_some_iff.mp hmap
  cases heq
  exact ⟨u, a, as', rfl, hstep, hrest⟩

theorem mixedRun_hashbits {ops : List MixedOp} {as : List MixedAnswer}
    (hrun : mixedRun fuel s g t ops = some (t', as)) : t.hashbits ≤ t'.hashbits := by
  induction ops generalizing t as with
  | nil =>
    cases hrun
    exact Nat.le_refl _
  | cons op ops ih =>
    obtain ⟨u, a, as', -, hstep, hrest⟩ := mixedRun_cons_eq_some hrun
    exact (mixedStep_hashbits hstep).trans (ih hrest)

theorem mixedRun_mapsTo {hk : TableKeys h S g} {he : IsoEquiv S g} {ops : List MixedOp}
    {as : List MixedAnswer} (hm : MapsTo hk he t m) (hops : ∀ op ∈ ops, op.Keyed h S)
    (hsmall : t'.hashbits ≤ 32) (hrun : mixedRun fuel (simpleKeying h) g t ops = some (t', as)) :
    MapsTo hk he t' (ops.foldl (mapAfter g) m) ∧ as = mapAnswers g m ops := by
  induction ops generalizing t m as with
  | nil =>
    cases hrun
    exact ⟨hm, rfl⟩
  | cons op ops ih =>
    obtain ⟨u, a, as', rfl, hstep, hrest⟩ := mixedRun_cons_eq_some hrun
    have hu : u.hashbits ≤ 32 := (mixedRun_hashbits hrest).trans hsmall
    obtain ⟨hm', rfl⟩ := mixedStep_mapsTo hm (hops op List.mem_cons_self) hu hstep
    obtain ⟨hfinal, rfl⟩ := ih hm' (fun op' hop' => hops op' (List.mem_cons_of_mem op hop')) hrest
    exact ⟨hfinal, rfl⟩

/-- A new table of any size answers both interfaces as a finite map modulo `iso`
does, and another expansion keeps every binding. -/
theorem mixedRun_refines (hk : TableKeys h S g) (he : IsoEquiv S g) (hashbits : Nat)
    {ops : List MixedOp} {as : List MixedAnswer} (hops : ∀ op ∈ ops, op.Keyed h S)
    (hsmall : t.hashbits ≤ 32)
    (hrun : mixedRun fuel (simpleKeying h) g (arcMkhash hashbits) ops = some (t, as)) :
    as = mapAnswers g (fun _ => none) ops ∧
      ∀ n u key v, hashtableExpand n t = some u → S key → arcXhashLookup n g u key = some v →
        v = ops.foldl (mapAfter g) (fun _ => none) key := by
  have hnew : MapsTo hk he (arcMkhash hashbits) fun _ => none := mapsTo_arcMkhash hashbits
  obtain ⟨hm, has⟩ := mixedRun_mapsTo hnew hops hsmall hrun
  exact ⟨has, fun n u key v hexp hkey hl => (hm.expand hexp).xlookup hkey hl⟩

end Runs

section Examples

/-- Every object is a list of one nil, and all of them are the same key. -/
def listKeying : Keying Val := ⟨fun _ _ => true, fun _ => 0⟩

theorem tableKeys_lists :
    TableKeys (fun _ => .cons .nil .nil) (fun v => ∃ x, v = .obj x) listKeying where
  iso := by
    rintro _ _ ⟨x, rfl⟩ ⟨y, rfl⟩ vh1 vh2
    exact isoAnswer_lists vh1 vh2 x y
  hash_congr _ _ _ := rfl
  hash_simple := by
    rintro _ ⟨x, rfl⟩ hsimple
    cases hsimple

theorem isoEquiv_lists : IsoEquiv (fun v => ∃ x, v = .obj x) listKeying :=
  ⟨fun _ _ _ => rfl, fun _ _ _ _ _ => rfl⟩

/-- A value inserted under one list is found, and removed, under another. -/
theorem mixedRun_refines_lists : ∃ t as,
    mixedRun 5 (simpleKeying fun _ => .cons .nil .nil) listKeying (arcMkhash 1)
      [.sref (.fixnum 1) (.obj 16), .apply [.obj 32], .sref .nil (.obj 48),
        .apply [.obj 16, .fixnum 7]] = some (t, as) ∧
    as = [.val (some (.fixnum 1)), .val (some (.fixnum 1)), .val (some .nil),
      .val (some (.fixnum 7))] := by
  let ops : List MixedOp := [.sref (.fixnum 1) (.obj 16), .apply [.obj 32], .sref .nil (.obj 48),
    .apply [.obj 16, .fixnum 7]]
  have hops : ∀ op ∈ ops, op.Keyed (fun _ => .cons .nil .nil) fun v => ∃ x, v = .obj x := by
    simp [ops, MixedOp.Keyed]
  have hend : ((mixedRun 5 (simpleKeying fun _ => .cons .nil .nil) listKeying (arcMkhash 1) ops).map
      fun p => p.1.hashbits) = some 1 := by
    decide +kernel
  obtain ⟨⟨t, as⟩, hrun, hbits⟩ := Option.map_eq_some_iff.mp hend
  have hbits : t.hashbits = 1 := hbits
  obtain ⟨has, -⟩ := mixedRun_refines tableKeys_lists isoEquiv_lists 1 hops (by omega) hrun
  exact ⟨t, as, hrun, has⟩

/-- The three pairs of `pairHeap`, two of them not `iso` though both are to the third:
after an insertion under each of the two, the table answers as no map does that
takes `iso` keys for the same. -/
theorem mixedRun_pairHeap : ∃ t as,
    mixedRun 5 (simpleKeying pairHeap) { generalKeying pairHeap .nil .nil 20 with hash := fun _ => 0 }
      (arcMkhash 2) [.xinsert (.obj 16) (.fixnum 1), .xinsert (.obj 32) (.fixnum 2),
        .xlookup (.obj 16), .xlookup (.obj 48)] = some (t, as) ∧
    ∀ g : Keying Val, (∀ x ∈ [16, 32, 48], ∀ y ∈ [16, 32, 48],
        arcIso pairHeap .nil .nil 20 [.obj x, .obj y] = .ok true → g.same (.obj x) (.obj y) = true) →
      as ≠ mapAnswers g (fun _ => none) [.xinsert (.obj 16) (.fixnum 1),
        .xinsert (.obj 32) (.fixnum 2), .xlookup (.obj 16), .xlookup (.obj 48)] := by
  have hend : ((mixedRun 5 (simpleKeying pairHeap) { generalKeying pairHeap .nil .nil 20 with hash := fun _ => 0 }
      (arcMkhash 2) [.xinsert (.obj 16) (.fixnum 1), .xinsert (.obj 32) (.fixnum 2),
        .xlookup (.obj 16), .xlookup (.obj 48)]).map fun p => p.2) =
      some [.val (some (.fixnum 1)), .val (some (.fixnum 2)), .val (some (.fixnum 1)),
        .val (some (.fixnum 1))] := by
    decide +kernel
  obtain ⟨⟨t, as⟩, hrun, has⟩ := Option.map_eq_some_iff.mp hend
  refine ⟨t, as, hrun, fun g hg heq => ?_⟩
  have hiso := hg 48 (by simp) 32 (by simp) iso_pairHeap.2.2.2
  rw [show as = _ from has] at heq
  simp [mapAnswers, mapAnswer, mapAfter, bindKey, hiso] at heq

end Examples

end Arcueid.Objects
