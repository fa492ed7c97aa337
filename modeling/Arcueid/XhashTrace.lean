import Arcueid.IsoVectors
import Arcueid.SimpleKeys
import Arcueid.Lib.Settling

/-! What the general hash function goes through: the types and the atoms of a value in
the order of its layout, cut off at objects met before. -/

namespace Arcueid.Objects

open Filter Outcome Settling

section Traces

/-- What is hashed of a value: an atom, or the type of an object with components. -/
inductive Item where
  | nil
  | fixnum (n : Int)
  | symbol (id : Nat)
  | leaf (o : Obj)
  | compound (type : ArcType)

def leafItem (h : Heap) : Val → Item
  | .nil => .nil
  | .fixnum n => .fixnum n
  | .symbol id => .symbol id
  | .obj a => .leaf (h a)

def ArcType.word (t : ArcType) : BitVec 64 := BitVec.ofNat 64 t.num

/-- The updates for an item, and its length. -/
def Item.step (hs : ArcHs) : Item → ArcHs × BitVec 64
  | .nil => (arcHashUpdate hs ArcType.tNil.word, 1)
  | .fixnum n => (arcHashUpdate (arcHashUpdate hs ArcType.tFixnum.word) (BitVec.ofInt 64 n), 1)
  | .symbol id => (arcHashUpdate (arcHashUpdate hs ArcType.tSymbol.word) (BitVec.ofNat 64 id), 1)
  | .leaf o =>
    match o.hash? with
    | some hash => hash (arcHashUpdate hs o.type.word)
    | none => (hs, 0)
  | .compound t => (arcHashUpdate hs t.word, 1)

/-- The state and the length after the items. -/
def digest (hs : ArcHs) (len : Int) : List Item → ArcHs × Int
  | [] => (hs, len)
  | i :: items => digest (i.step hs).1 (len + int2fix (i.step hs).2) items

def components : Obj → List Val
  | .cons car cdr => [car, cdr]
  | .vector elts => elts
  | .table tbl => (bindings tbl).flatMap fun (key, val) => key :: val.toList
  | _ => []

/-- Each binding of a table has a value. -/
def Obj.Valued : Obj → Prop
  | .table tbl => ∀ p ∈ bindings tbl, p.2 ≠ none
  | _ => True

/-- A finite value without cycles. -/
inductive Acyclic (h : Heap) : Val → Prop
  | leaf {v} : SimpleKey h v → Acyclic h v
  | node {x} : (h x).simple = false → (h x).Valued →
      (∀ v ∈ components (h x), Acyclic h v) → Acyclic h (.obj x)

/-- The items of the values, in order, where `K` are the visit keys met before; and the
visit keys met after that. -/
inductive Trace (h : Heap) : List Int → List Val → List Item → List Int → Prop
  | nil {K} : Trace h K [] [] K
  | leaf {K K' v vs items} : SimpleKey h v → Trace h K vs items K' →
      Trace h K (v :: vs) (leafItem h v :: items) K'
  | again {K K' x vs items} : (h x).simple = false → (h x).Valued → arcVisitkey (.obj x) ∈ K →
      Trace h K vs items K' → Trace h K (.obj x :: vs) (.compound (h x).type :: items) K'
  | enter {K K₁ K' x vs items items'} : (h x).simple = false → (h x).Valued →
      arcVisitkey (.obj x) ∉ K →
      Trace h (arcVisitkey (.obj x) :: K) (components (h x)) items K₁ → Trace h K₁ vs items' K' →
      Trace h K (.obj x :: vs) (.compound (h x).type :: (items ++ items')) K'

variable {h : Heap} {K K' K'' : List Int} {v : Val} {vs vs' : List Val}
  {items items' : List Item} {hs : ArcHs} {len len' : Int} {x n : Nat} {s s' : Hashing}

theorem Trace.append (ht : Trace h K vs items K') (ht' : Trace h K' vs' items' K'') :
    Trace h K (vs ++ vs') (items ++ items') K'' := by
  induction ht with
  | nil => exact ht'
  | leaf hv _ ih => exact .leaf hv (ih ht')
  | again hx hvalued hmem _ ih => exact .again hx hvalued hmem (ih ht')
  | enter hx hvalued hmem hbody _ _ ih =>
    rw [List.cons_append, List.cons_append, List.append_assoc]
    exact .enter hx hvalued hmem hbody (ih ht')

theorem exists_trace_of_forall (hvs : ∀ v ∈ vs, ∀ K, ∃ items K', Trace h K [v] items K')
    (K : List Int) : ∃ items K', Trace h K vs items K' := by
  induction vs generalizing K with
  | nil => exact ⟨[], K, .nil⟩
  | cons v vs ih =>
    obtain ⟨items, K₁, ht⟩ := hvs v List.mem_cons_self K
    obtain ⟨items', K₂, ht'⟩ := ih (fun w hw => hvs w (List.mem_cons_of_mem _ hw)) K₁
    exact ⟨items ++ items', K₂, ht.append ht'⟩

theorem Acyclic.trace (hv : Acyclic h v) (K : List Int) : ∃ items K', Trace h K [v] items K' := by
  induction hv generalizing K with
  | leaf hv => exact ⟨_, K, .leaf hv .nil⟩
  | @node x hx hvalued _ ih =>
    by_cases hmem : arcVisitkey (.obj x) ∈ K
    · exact ⟨_, K, .again hx hvalued hmem .nil⟩
    · obtain ⟨items, K₁, ht⟩ := exists_trace_of_forall (fun v hv K => ih v hv K)
        (arcVisitkey (.obj x) :: K)
      exact ⟨_, K₁, .enter hx hvalued hmem ht .nil⟩

theorem digest_add (hs : ArcHs) (k len : Int) (items : List Item) :
    digest hs (k + len) items = ((digest hs len items).1, k + (digest hs len items).2) := by
  induction items generalizing hs len with
  | nil => rfl
  | cons i items ih => rw [digest, digest, Int.add_assoc, ih]

theorem digest_append (hs : ArcHs) (len : Int) (items items' : List Item) :
    digest hs len (items ++ items') =
      digest (digest hs len items).1 (digest hs len items).2 items' := by
  induction items generalizing hs len with
  | nil => rfl
  | cons i items ih => exact ih ..

end Traces

section Hashers

variable {h : Heap} {v : Val} {hs : ArcHs} {x n fuel : Nat} {s s' s'' : Hashing} {K K' : List Int}

theorem arcHashIncrement_leaf (hv : SimpleKey h v) (hs : ArcHs) :
    arcHashIncrement h v hs = .ok ((leafItem h v).step hs) := by
  cases v with
  | obj a =>
    obtain ⟨f, hf⟩ := Obj.hash?_of_simple hv
    simp only [arcHashIncrement, leafItem, Item.step, hf]
    rfl
  | _ => rfl

theorem incr_leaf_settles (hv : SimpleKey h v) (hs : ArcHs) (visithash : Option VisitTable) :
    Settles (fun n => arcXhashIncrement h n v) ⟨encodeHs hs, visithash⟩
      (int2fix ((leafItem h v).step hs).2) ⟨encodeHs ((leafItem h v).step hs).1, visithash⟩ := by
  refine eventually_atTop.mpr ⟨1, fun n hn => ?_⟩
  obtain ⟨m, rfl⟩ : ∃ m, n = m + 1 := ⟨n - 1, by omega⟩
  obtain ⟨hs', len, hinc, hx⟩ := arcXhashIncrement_simple (n := m) hv hs visithash
  rw [arcHashIncrement_leaf hv] at hinc
  obtain ⟨rfl, rfl⟩ := Prod.mk.inj (Except.ok.inj hinc)
  exact hx

/-- The values in order, with the sum of their lengths. -/
def incrAll (incr : Val → XhashM Int) (vs : List Val) (length : Int) : XhashM Int :=
  vs.foldlM (fun length v => return length + (← incr v)) length

theorem incrBound_some (incr : Val → XhashM Int) (v : Val) : incrBound incr (some v) = incr v :=
  rfl

theorem bindings_incrAll (incr : Val → XhashM Int) (ps : List (Val × Option Val))
    (hps : ∀ p ∈ ps, p.2 ≠ none) (length : Int) :
    ps.foldlM (fun length (key, val) => do
        let length := length + (← incr key)
        return length + (← incrBound incr val)) length =
      incrAll incr (ps.flatMap fun (key, val) => key :: val.toList) length := by
  induction ps generalizing length with
  | nil => rfl
  | cons p ps ih =>
    obtain ⟨key, val⟩ := p
    obtain ⟨w, hw⟩ := Option.ne_none_iff_exists'.mp (hps _ List.mem_cons_self)
    obtain rfl : val = some w := hw
    have hrest := ih fun q hq => hps q (List.mem_cons_of_mem _ hq)
    simp only [incrAll] at hrest
    simp only [List.foldlM_cons, incrAll, List.flatMap_cons, Option.toList_some,
      List.cons_append, List.nil_append, bind_assoc, LawfulMonad.pure_bind, incrBound_some,
      hrest]

/-- An object with components: its type, its visit, and its components if it is new. -/
theorem arcXhashIncrement_compound (hx : (h x).simple = false) (hvalued : (h x).Valued) :
    arcXhashIncrement h (n + 1) (.obj x) = (do
      setEhs (arcHashUpdate (decodeHs (← get).ehs) (h x).type.word)
      if ← xhashVisit n (.obj x) then
        return 1
      incrAll (arcXhashIncrement h n) (components (h x)) 1) := by
  unfold arcXhashIncrement
  cases ho : h x with
  | cons car cdr =>
    simp only [ho, Obj.hash?, typeWord, typeOf, consXhash, components, incrAll, List.foldlM_cons,
      List.foldlM_nil, bind_assoc, LawfulMonad.pure_bind, bind_pure]
    rfl
  | vector elts =>
    simp only [ho, Obj.hash?, typeWord, typeOf, vectorXhash, components, incrAll]
    rfl
  | table tbl =>
    have hps : ∀ p ∈ bindings tbl, p.2 ≠ none := by
      rw [ho] at hvalued
      exact hvalued
    simp only [ho, Obj.hash?, typeWord, typeOf, hashXhash, components,
      bindings_incrAll _ _ hps]
    rfl
  | _ =>
    rw [ho] at hx
    cases hx

/-- The visits made by a hasher: each key that was met is bound to itself. -/
def Visited (visithash : Option VisitTable) (K : List Int) : Prop :=
  Seen (visithash.getD (arcMkhash arcHashbits)) fun k =>
    if k ∈ K then some (.fixnum k) else none

theorem xhashVisit_settles (hm : Visited s.visithash K) (v : Val) :
    ∃ tbl, Settles (fun n => xhashVisit n v) s (decide (arcVisitkey v ∈ K))
        { s with visithash := some tbl } ∧
      Visited (some tbl) (if arcVisitkey v ∈ K then K else arcVisitkey v :: K) := by
  obtain ⟨w, tbl, hends⟩ := hm.visit2_ends v .nil
  obtain ⟨n, hn⟩ := hends.exists
  have hsettles : Settles (fun n => xhashVisit n v) s (decide (w ≠ .nil))
      { s with visithash := some tbl } := by
    filter_upwards [hends] with n hn
    simp only [xhashVisit]
    rw [bind_of_ok rfl, arcVisit, hn]
    rfl
  refine ⟨tbl, ?_⟩
  by_cases hmem : arcVisitkey v ∈ K
  · rcases hm.visit2_ok hn with ⟨hw, rfl⟩ | ⟨hw, -⟩
    · rw [if_pos hmem, Option.some.injEq] at hw
      subst hw
      refine ⟨by simpa [hmem] using hsettles, ?_⟩
      rw [if_pos hmem]
      exact hm
    · simp [hmem] at hw
  · rcases hm.visit2_ok hn with ⟨hw, -⟩ | ⟨-, rfl, hseen⟩
    · simp [hmem] at hw
    · refine ⟨by simpa [hmem] using hsettles, ?_⟩
      rw [if_neg hmem]
      refine hseen.congr fun k => ?_
      by_cases hk : k = arcVisitkey v
      · subst hk
        simp [visitMark]
      · simp [hk]

variable {v : Val} {vs : List Val} {items : List Item} {tbl₀ tbl₁ : Option VisitTable}

theorem incrAll_cons_settles {len k len' : Int}
    (hv : Settles (fun n => arcXhashIncrement h n v) s k s')
    (hvs : Settles (fun n => incrAll (arcXhashIncrement h n) vs (len + k)) s' len' s'') :
    Settles (fun n => incrAll (arcXhashIncrement h n) (v :: vs) len) s len' s'' := by
  simp only [incrAll, List.foldlM_cons, bind_assoc, LawfulMonad.pure_bind] at hvs ⊢
  exact hv.bind hvs

theorem setEhs_bind (hs : ArcHs) (f : Unit → XhashM Int) (s : Hashing) :
    (setEhs hs >>= f) s = f () { s with ehs := encodeHs hs } :=
  rfl

section Compound

variable {t : ArcType} {tbl tbl₁ tbl' : Option VisitTable} {hs' : ArcHs} {len : Int}
  (hx : (h x).simple = false) (hvalued : (h x).Valued)
include hx hvalued

theorem compound_step (hs : ArcHs) (tbl : Option VisitTable) (n : Nat) :
    arcXhashIncrement h (n + 1) (.obj x) ⟨encodeHs hs, tbl⟩ = (do
      if ← xhashVisit n (.obj x) then
        return 1
      incrAll (arcXhashIncrement h n) (components (h x)) 1 : XhashM Int)
        ⟨encodeHs (arcHashUpdate hs (h x).type.word), tbl⟩ := by
  rw [arcXhashIncrement_compound hx hvalued, bind_of_ok rfl, setEhs_bind, decodeHs_encodeHs]

theorem compound_again {s' : Hashing}
    (hvisit : Settles (fun n => xhashVisit n (.obj x))
      ⟨encodeHs (arcHashUpdate hs (h x).type.word), tbl⟩ true s') :
    Settles (fun n => arcXhashIncrement h n (.obj x)) ⟨encodeHs hs, tbl⟩ 1 s' :=
  Settles.succ (hvisit.bind settles_pure) (compound_step hx hvalued hs tbl)

theorem compound_enter
    (hvisit : Settles (fun n => xhashVisit n (.obj x))
      ⟨encodeHs (arcHashUpdate hs (h x).type.word), tbl⟩ false s')
    (hbody : Settles (fun n => incrAll (arcXhashIncrement h n) (components (h x)) 1) s' len s'') :
    Settles (fun n => arcXhashIncrement h n (.obj x)) ⟨encodeHs hs, tbl⟩ len s'' :=
  Settles.succ (hvisit.bind hbody) (compound_step hx hvalued hs tbl)

end Compound

theorem digest_cons (hs : ArcHs) (len : Int) (i : Item) (items : List Item) :
    digest hs len (i :: items) = digest (i.step hs).1 (len + int2fix (i.step hs).2) items :=
  rfl

theorem digest_compound (hs : ArcHs) (len : Int) (t : ArcType) (items : List Item) :
    digest hs len (.compound t :: items) = digest (arcHashUpdate hs t.word) (len + 1) items := by
  have h1 : int2fix 1 = 1 := by decide +kernel
  simp only [digest_cons, Item.step, h1]

/-- Every update that the hashers make is one of the items of the trace. -/
theorem Trace.settles (ht : Trace h K vs items K') (hs : ArcHs) (tbl : Option VisitTable)
    (hm : Visited tbl K) (len : Int) :
    ∃ tbl', Settles (fun n => incrAll (arcXhashIncrement h n) vs len) ⟨encodeHs hs, tbl⟩
        (digest hs len items).2 ⟨encodeHs (digest hs len items).1, tbl'⟩ ∧
      Visited tbl' K' := by
  induction ht generalizing hs tbl len with
  | nil => exact ⟨tbl, settles_pure, hm⟩
  | @leaf K K' v vs items hv _ ih =>
    rw [digest_cons]
    obtain ⟨tbl', hvs, hm'⟩ := ih ((leafItem h v).step hs).1 tbl hm
      (len + int2fix ((leafItem h v).step hs).2)
    exact ⟨tbl', incrAll_cons_settles (incr_leaf_settles hv hs tbl) hvs, hm'⟩
  | @again K K' x vs items hx hvalued hmem _ ih =>
    rw [digest_compound]
    obtain ⟨tbl₁, hvisit, hm₁⟩ := xhashVisit_settles
      (s := ⟨encodeHs (arcHashUpdate hs (h x).type.word), tbl⟩) hm (.obj x)
    simp only [hmem, decide_true, if_true] at hvisit hm₁
    obtain ⟨tbl', hvs, hm'⟩ := ih _ (some tbl₁) hm₁ (len + 1)
    exact ⟨tbl', incrAll_cons_settles (compound_again hx hvalued hvisit) hvs, hm'⟩
  | @enter K K₁ K' x vs items items' hx hvalued hmem _ _ ih ih' =>
    rw [digest_compound, digest_append]
    obtain ⟨tbl₁, hvisit, hm₁⟩ := xhashVisit_settles
      (s := ⟨encodeHs (arcHashUpdate hs (h x).type.word), tbl⟩) hm (.obj x)
    simp only [hmem, decide_false, if_false] at hvisit hm₁
    obtain ⟨tbl₂, hbody, hm₂⟩ := ih _ (some tbl₁) hm₁ 1
    obtain ⟨tbl', hvs, hm'⟩ := ih' _ tbl₂ hm₂ (len + (digest _ 1 items).2)
    rw [digest_add]
    exact ⟨tbl', incrAll_cons_settles (compound_enter hx hvalued hvisit hbody) hvs, hm'⟩

end Hashers

section Law

variable {h : Heap} {vh1 vh2 a b v : Val} {items items' : List Item} {K K' : List Int} {x y : Int}
  {n : Nat}

/-- The hash of the items, with their whole length. -/
def traceHash (items : List Item) : Int :=
  let (hs, len) := digest (arcHashInit 0) 0 items
  int2fix (arcHashFinal hs (BitVec.ofInt 64 len))

def HashesTo (h : Heap) (v : Val) (x : Int) : Prop := ∀ᶠ n in atTop, arcXhash h n v = .ok x

theorem HashesTo.unique (hx : HashesTo h v x) (hy : HashesTo h v y) : x = y := by
  obtain ⟨n, hn, hn'⟩ := (hx.and hy).exists
  exact Except.ok.inj (hn.symm.trans hn')

theorem arcXhash_of_ok {len : Int} {s : Hashing}
    (hx : arcXhashIncrement h n v ⟨encodeHs (arcHashInit 0), none⟩ = .ok (len, s)) :
    arcXhash h n v = .ok (int2fix (arcHashFinal (decodeHs s.ehs) (BitVec.ofInt 64 len))) := by
  rw [arcXhash, StateT.run, hx]
  rfl

theorem Trace.hashesTo (ht : Trace h [] [v] items K) : HashesTo h v (traceHash items) := by
  have hm : Visited none [] := seen_arcMkhash.congr fun k => rfl
  obtain ⟨tbl, hsettles, -⟩ := ht.settles (arcHashInit 0) none hm 0
  simp only [incrAll, List.foldlM_cons, List.foldlM_nil, bind_pure] at hsettles
  filter_upwards [hsettles] with n hn
  obtain ⟨len, s, hlen, hret⟩ := yields_bind hn
  obtain ⟨hsum, hstate⟩ := yields_pure_iff.mp hret
  rw [zero_add] at hsum
  have hfinal : decodeHs s.ehs = (digest (arcHashInit 0) 0 items).1 := by
    rw [hstate, decodeHs_encodeHs]
  rw [arcXhash_of_ok hlen, hfinal, hsum, traceHash]

/-- The two values have one trace. -/
def SameTrace (h : Heap) (a b : Val) : Prop :=
  ∃ items K K', Trace h [] [a] items K ∧ Trace h [] [b] items K'

/-- What is stored under `a`, in a table with no key that `iso` tells from only one of `a`
and `b`, is found under `b`. -/
def FoundUnder (h : Heap) (vh1 vh2 : Val) (n : Nat) (a b : Val) : Prop :=
  ∀ {fuel} {t t' : Table Val Val} {v r},
    t.KeysIn (fun k => (generalKeying h vh1 vh2 n).same k a = (generalKeying h vh1 vh2 n).same k b) →
    t'.hashbits ≤ 32 →
    arcXhashInsert fuel (generalKeying h vh1 vh2 n) t a (some v) = some (t', r) →
    ∃ m, arcXhashLookup m (generalKeying h vh1 vh2 n) t' b = some (some v)

/-- If `iso` of the values is true, they have one hash, and one is found for the other. -/
def HashLaw (h : Heap) (vh1 vh2 a b : Val) : Prop :=
  IsoHolds h vh1 vh2 [a, b] →
    (∃ x, HashesTo h a x ∧ HashesTo h b x) ∧ ∀ᶠ n in atTop, FoundUnder h vh1 vh2 n a b

theorem foundUnder_of_hash (hself : arcIso h vh1 vh2 n [a, a] = .ok true)
    (hiso : arcIso h vh1 vh2 n [a, b] = .ok true) (ha : arcXhash h n a = .ok x)
    (hb : arcXhash h n b = .ok x) : FoundUnder h vh1 vh2 n a b := by
  intro fuel t t' v r hkeys hbits hins
  have hrefl : (generalKeying h vh1 vh2 n).same a a = true := by simp [generalKeying, hself]
  have hsame : (generalKeying h vh1 vh2 n).same a b = true := by simp [generalKeying, hiso]
  obtain ⟨m, i, e, hp, he⟩ := probeFor_of_arcXhashInsert hrefl hbits hins
  have hhash : uint ((generalKeying h vh1 vh2 n).hash a) =
      uint ((generalKeying h vh1 vh2 n).hash b) := by simp [generalKeying, ha, hb]
  rw [probeFor_congr hhash (hkeys.arcXhashInsert (hrefl.trans hsame.symm) hins)] at hp
  exact ⟨m, by simp [arcXhashLookup, arcXhashLookup2, hp, he]⟩

theorem hashLaw_of_hash (ha : HashesTo h a x) (hb : HashesTo h b x) : HashLaw h vh1 vh2 a b := by
  intro hiso
  refine ⟨⟨x, ha, hb⟩, ?_⟩
  filter_upwards [isoHolds_self h vh1 vh2 a, hiso, ha, hb] with n hself hiso ha hb
  exact foundUnder_of_hash hself hiso ha hb

/-- Values without cycles that are gone through alike obey the law of hashing; in
general it holds exactly when the two traces hash alike or `iso` is not true. -/
theorem xhash_law_of_trace (vh1 vh2 : Val) (ha : Acyclic h a) (hb : Acyclic h b) :
    (SameTrace h a b → HashLaw h vh1 vh2 a b) ∧
      ∃ items items' K K', Trace h [] [a] items K ∧ Trace h [] [b] items' K' ∧
        (HashLaw h vh1 vh2 a b ↔
          (IsoHolds h vh1 vh2 [a, b] → traceHash items = traceHash items')) := by
  constructor
  · rintro ⟨items, K, K', hta, htb⟩
    exact hashLaw_of_hash hta.hashesTo htb.hashesTo
  · obtain ⟨items, K, hta⟩ := ha.trace []
    obtain ⟨items', K', htb⟩ := hb.trace []
    refine ⟨items, items', K, K', hta, htb, fun hlaw hiso => ?_, fun heq hiso => ?_⟩
    · obtain ⟨⟨x, hax, hbx⟩, -⟩ := hlaw hiso
      rw [hta.hashesTo.unique hax, htb.hashesTo.unique hbx]
    · have hb' := htb.hashesTo
      rw [← heq hiso] at hb'
      exact hashLaw_of_hash hta.hashesTo hb' hiso

theorem acyclic_list {h : Heap} {x : Nat} (hx : h x = .cons .nil .nil) : Acyclic h (.obj x) := by
  have hleaf : ∀ v ∈ components (h x), Acyclic h v := by
    rw [hx]
    intro v hv
    obtain rfl : v = .nil := by simpa [components] using hv
    exact .leaf trivial
  exact .node (by rw [hx]; rfl) (by rw [hx]; trivial) hleaf

theorem trace_list {h : Heap} {x : Nat} {K : List Int} (hx : h x = .cons .nil .nil)
    (hmem : arcVisitkey (.obj x) ∉ K) :
    Trace h K [.obj x] [.compound .tCons, .nil, .nil] (arcVisitkey (.obj x) :: K) := by
  have hbody : Trace h (arcVisitkey (.obj x) :: K) (components (h x)) [.nil, .nil]
      (arcVisitkey (.obj x) :: K) := by
    rw [hx]
    exact .leaf trivial (.leaf trivial .nil)
  have ht := Trace.enter (by rw [hx]; rfl) (by rw [hx]; trivial) hmem hbody .nil
  rw [hx] at ht
  exact ht

/-- Two lists of one nil. -/
theorem xhash_law_lists : HashLaw (fun _ => .cons .nil .nil) .nil .nil (.obj 16) (.obj 32) :=
  (xhash_law_of_trace .nil .nil (acyclic_list rfl) (acyclic_list rfl)).1
    ⟨_, _, _, trace_list rfl nofun, trace_list rfl nofun⟩

section Shared

/-- Two lists at 16 and 32, and pairs of them: at 48 of both, at 64 of one twice. -/
def sharedHeap : Heap := fun x =>
  if x = 48 then .cons (.obj 16) (.obj 32)
  else if x = 64 then .cons (.obj 16) (.obj 16)
  else .cons .nil .nil

theorem met_sharedHeap {u v : Val} (hm : Met sharedHeap [(.obj 48, .obj 64)] u v) :
    u = .obj 48 ∧ v = .obj 64 ∨ u = .obj 32 ∧ v = .obj 16 ∨ u = v := by
  induction hm with
  | root hq =>
    cases List.mem_singleton.mp hq
    exact .inl ⟨rfl, rfl⟩
  | step _ hne hc ih =>
    rcases ih with ⟨hx, hy⟩ | ⟨hx, hy⟩ | hxy
    · cases hx
      cases hy
      cases hc with
      | car => exact .inr (.inr rfl)
      | cdr => exact .inr (.inl ⟨rfl, rfl⟩)
    · cases hx
      cases hy
      cases hc <;> exact .inr (.inr rfl)
    · exact absurd (Val.obj.inj hxy) hne

theorem node_sharedHeap {x y : Nat} (hn : Node sharedHeap [(.obj 48, .obj 64)] x y) :
    x = 48 ∧ y = 64 ∨ x = 32 ∧ y = 16 := by
  rcases met_sharedHeap hn.met with ⟨hx, hy⟩ | ⟨hx, hy⟩ | hxy
  · exact .inl ⟨Val.obj.inj hx, Val.obj.inj hy⟩
  · exact .inr ⟨Val.obj.inj hx, Val.obj.inj hy⟩
  · exact absurd (Val.obj.inj hxy) hn.ne

theorem alike_sharedHeap : Alike sharedHeap [(.obj 48, .obj 64)] where
  agree hm := by
    rcases met_sharedHeap hm with ⟨rfl, rfl⟩ | ⟨rfl, rfl⟩ | rfl
    · exact .inr ⟨48, 64, rfl, rfl, by decide, .inr .cons⟩
    · exact .inr ⟨32, 16, rfl, rfl, by decide, .inr .cons⟩
    · exact .inl rfl
  matched hn hn' := by
    rcases node_sharedHeap hn with ⟨rfl, rfl⟩ | ⟨rfl, rfl⟩ <;>
      rcases node_sharedHeap hn' with ⟨rfl, rfl⟩ | ⟨rfl, rfl⟩ <;> simp

theorem isoHolds_sharedHeap : IsoHolds sharedHeap .nil .nil [.obj 48, .obj 64] := by
  have hkeys : key 48 ≠ key 32 ∧ key 64 ≠ key 16 := by decide +kernel
  refine (isoHolds_iff ⟨fun hn hn' heq => ?_, fun hn hn' heq => ?_⟩ (fun hn hvec => ?_) ?_).mpr
    alike_sharedHeap
  · rcases node_sharedHeap hn with ⟨rfl, rfl⟩ | ⟨rfl, rfl⟩ <;>
      rcases node_sharedHeap hn' with ⟨rfl, rfl⟩ | ⟨rfl, rfl⟩ <;>
      first | rfl | exact absurd heq hkeys.1 | exact absurd heq.symm hkeys.1
  · rcases node_sharedHeap hn with ⟨rfl, rfl⟩ | ⟨rfl, rfl⟩ <;>
      rcases node_sharedHeap hn' with ⟨rfl, rfl⟩ | ⟨rfl, rfl⟩ <;>
      first | rfl | exact absurd heq hkeys.2 | exact absurd heq.symm hkeys.2
  · rcases node_sharedHeap hn with ⟨rfl, rfl⟩ | ⟨rfl, rfl⟩ <;> cases hvec
  · refine (Set.toFinite {48, 32}).subset ?_
    rintro x ⟨y, hn⟩
    rcases node_sharedHeap hn with ⟨rfl, rfl⟩ | ⟨rfl, rfl⟩ <;> simp

theorem acyclic_sharedHeap {x : Nat} (hx : x = 48 ∨ x = 64) : Acyclic sharedHeap (.obj x) := by
  rcases hx with rfl | rfl
  all_goals
    refine .node rfl trivial fun v hv => ?_
    have hv' : v = .obj 16 ∨ v = .obj 32 := by
      simp [sharedHeap, components] at hv
      tauto
    rcases hv' with rfl | rfl <;> exact acyclic_list rfl

/-- The pair of both lists and the pair of one list twice are `iso`: the first lists are
the same object, and are not visited. The second time, the hashers do not go into a list. -/
theorem shared_iso_hash_apart : Acyclic sharedHeap (.obj 48) ∧ Acyclic sharedHeap (.obj 64) ∧
    ¬ HashLaw sharedHeap .nil .nil (.obj 48) (.obj 64) := by
  refine ⟨acyclic_sharedHeap (.inl rfl), acyclic_sharedHeap (.inr rfl), fun hlaw => ?_⟩
  obtain ⟨⟨x, ha, hb⟩, -⟩ := hlaw isoHolds_sharedHeap
  have hkeys : key 16 ≠ key 48 ∧ key 16 ≠ key 64 ∧ key 32 ≠ key 16 ∧ key 32 ≠ key 48 := by
    decide +kernel
  simp only [key] at hkeys
  have hta := Trace.enter (h := sharedHeap) (K := []) (x := 48) rfl trivial List.not_mem_nil
    ((trace_list (x := 16) rfl (by simp [hkeys])).append
      (trace_list (x := 32) rfl (by simp [hkeys]))) .nil
  have htb := Trace.enter (h := sharedHeap) (K := []) (x := 64) rfl trivial List.not_mem_nil
    ((trace_list (x := 16) rfl (by simp [hkeys])).append
      (.again (x := 16) rfl trivial (by simp) .nil)) .nil
  have heq := (hta.hashesTo.unique ha).trans (hb.unique htb.hashesTo)
  revert heq
  decide +kernel

end Shared

end Law

end Arcueid.Objects
