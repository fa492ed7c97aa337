import Arcueid.Lib.Outcome
import Arcueid.VisitTables

/-! The pairs of values that `iso` meets, and what an answer says about all of
them. -/

namespace Arcueid.Objects

open Outcome

section Pairs

/-- The lookup ends with this value, the marker included. -/
def Finds (h : Heap) (tbl : Table Val Val) (key : Val) (v : Option Val) : Prop :=
  ∃ fuel, lookupKey fuel h tbl key = .ok v

/-- The bucket of a slot has a value in the other table as well, or is unbound in
both. -/
def SlotFits (h : Heap) (tbl1 tbl2 : Table Val Val) (i : Nat) : Prop :=
  ∀ e, tbl1.slot i = .bucket e → ∃ v, Finds h tbl2 e.bkey v ∧ e.bvalue.isSome = v.isSome

/-- The values compared for the bucket of a slot. -/
def SlotPair (h : Heap) (tbl1 tbl2 : Table Val Val) (i : Nat) (a b : Val) : Prop :=
  ∃ e, tbl1.slot i = .bucket e ∧ e.bvalue = some a ∧ Finds h tbl2 e.bkey (some b)

/-- The pairs of values compared after two distinct objects. -/
inductive Compares (h : Heap) : Obj → Obj → Val → Val → Prop
  | car {car1 cdr1 car2 cdr2} : Compares h (.cons car1 cdr1) (.cons car2 cdr2) car1 car2
  | cdr {car1 cdr1 car2 cdr2} : Compares h (.cons car1 cdr1) (.cons car2 cdr2) cdr1 cdr2
  | slot {tbl1 tbl2 i a b} : tbl1.nentries = tbl2.nentries → i < tbl1.tablesize →
      SlotPair h tbl1 tbl2 i a b → Compares h (.table tbl1) (.table tbl2) a b

/-- The objects agree as far as they are compared without their components. -/
inductive Fits (h : Heap) : Obj → Obj → Prop
  | cons {car1 cdr1 car2 cdr2} : Fits h (.cons car1 cdr1) (.cons car2 cdr2)
  | table {tbl1 tbl2} : tbl1.nentries = tbl2.nentries →
      (∀ i, i < tbl1.tablesize → SlotFits h tbl1 tbl2 i) → Fits h (.table tbl1) (.table tbl2)

/-- A pair of values that is compared when the pairs `roots` are. -/
inductive Met (h : Heap) (roots : List (Val × Val)) : Val → Val → Prop
  | root {a b} : (a, b) ∈ roots → Met h roots a b
  | step {x y a b} : Met h roots (.obj x) (.obj y) → x ≠ y →
      Compares h (h x) (h y) a b → Met h roots a b

variable (h : Heap) (roots : List (Val × Val))

/-- Two distinct objects with components that are compared. -/
structure Node (x y : Nat) : Prop where
  met : Met h roots (.obj x) (.obj y)
  ne : x ≠ y
  type : (h x).type = (h y).type
  compound : (h x).hash? = none

def Agree (a b : Val) : Prop :=
  a = b ∨ ∃ x y, a = .obj x ∧ b = .obj y ∧ x ≠ y ∧
    (iscmp (h x) (h y) = true ∨ Fits h (h x) (h y))

/-- Each object on one side is met with one object of the other side. -/
def Matched : Prop :=
  ∀ {x y x' y'}, Node h roots x y → Node h roots x' y' → (x = x' ↔ y = y')

/-- What makes `iso` answer `t`. -/
structure Alike : Prop where
  agree : ∀ {a b}, Met h roots a b → Agree h a b
  matched : Matched h roots

/-- The key under which the object is visited. -/
def key (x : Nat) : Int := arcVisitkey (.obj x)

/-- Distinct objects have distinct visit keys. -/
structure KeysApart : Prop where
  left : ∀ {x y x' y'}, Node h roots x y → Node h roots x' y' → key x = key x' → x = x'
  right : ∀ {x y x' y'}, Node h roots x y → Node h roots x' y' → key y = key y' → y = y'

def Obj.vector? : Obj → Bool
  | .vector _ => true
  | _ => false

/-- The visit key of no vector is the number of a slot of the frame, so that
comparing it with another vector reads outside of the frame. -/
def NoSlot : Prop :=
  ∀ {x y}, Node h roots x y → (h x).vector? = true →
    frameIndex (.fixnum (key x)) < 0 ∨ 5 < frameIndex (.fixnum (key x))

/-- The table holds the visits of objects that are listed, each with the object
whose key is its mark. -/
def Marks (tbl : VisitTable) (ms : List (Nat × Nat)) : Prop :=
  ∃ m, Seen tbl m ∧ ∀ k w, m k = some w ↔ ∃ p ∈ ms, key p.1 = k ∧ w = .fixnum (key p.2)

/-- The state of the comparison after visits of the pairs `P`. -/
structure Trail (P : List (Nat × Nat)) (s : Visits) : Prop where
  node : ∀ {p}, p ∈ P → Node h roots p.1 p.2 ∧ (h p.1).vector? = false
  matched : ∀ {p q}, p ∈ P → q ∈ P → (p.1 = q.1 ↔ p.2 = q.2)
  left : Marks s.vh1 (P.map fun p => (p.1, p.1))
  right : Marks s.vh2 (P.map fun p => (p.2, p.1))

/-- The comparison of the pair has come out well, or is under way. -/
def Done (P : List (Nat × Nat)) (a b : Val) : Prop :=
  a = b ∨ ∃ x y, a = .obj x ∧ b = .obj y ∧ x ≠ y ∧ (iscmp (h x) (h y) = true ∨ (x, y) ∈ P)

def Closed (P : List (Nat × Nat)) (p : Nat × Nat) : Prop :=
  Fits h (h p.1) (h p.2) ∧ ∀ {a b}, Compares h (h p.1) (h p.2) a b → Done h P a b

end Pairs

variable {h : Heap} {roots : List (Val × Val)} {P P' : List (Nat × Nat)} {s s' : Visits}
  {fuel x y : Nat} {a b vh1 vh2 : Val} {iso2 : Val → Val → IsoM Bool}

section Visiting

theorem visit1_ok {v : Val} (hv : Yields (visit1 fuel v) s a s') :
    ∃ tbl, arcVisit2 fuel v s.vh1 (some .nil) = .ok (a, tbl) ∧ s' = { s with vh1 := tbl } := by
  obtain ⟨s₀, s₁, hget, hv⟩ := yields_bind hv
  cases hget
  obtain ⟨⟨w, tbl⟩, s₂, hlift, hv⟩ := yields_bind hv
  obtain ⟨hvisit, rfl⟩ := yields_lift_iff.mp hlift
  cases hv
  exact ⟨tbl, hvisit, rfl⟩

theorem visit2_ok {v : Val} {mykeyval : Option Val} (hv : Yields (visit2 fuel v mykeyval) s a s') :
    ∃ tbl, arcVisit2 fuel v s.vh2 mykeyval = .ok (a, tbl) ∧ s' = { s with vh2 := tbl } := by
  obtain ⟨s₀, s₁, hget, hv⟩ := yields_bind hv
  cases hget
  obtain ⟨⟨w, tbl⟩, s₂, hlift, hv⟩ := yields_bind hv
  obtain ⟨hvisit, rfl⟩ := yields_lift_iff.mp hlift
  cases hv
  exact ⟨tbl, hvisit, rfl⟩

theorem marks_new : Marks (arcMkhash arcHashbits) [] := ⟨_, seen_arcMkhash, by simp⟩

/-- A visit gives the mark of an object seen before, or leaves one. -/
theorem Marks.visit {tbl tbl' : VisitTable} {ms : List (Nat × Nat)} {z : Nat} {w mykeyval : Val}
    (hm : Marks tbl ms) (hapart : ∀ p ∈ ms, key p.1 = key x → p.1 = x)
    (hmark : visitMark (.obj x) mykeyval = .fixnum (key z))
    (hv : arcVisit2 fuel (.obj x) tbl (some mykeyval) = .ok (w, tbl')) :
    (∃ p ∈ ms, p.1 = x ∧ w = .fixnum (key p.2) ∧ tbl' = tbl) ∨
      ((∀ p ∈ ms, p.1 ≠ x) ∧ w = .nil ∧ Marks tbl' ((x, z) :: ms)) := by
  obtain ⟨m, hseen, hm⟩ := hm
  rcases hseen.visit2_ok hv with ⟨hfound, rfl⟩ | ⟨hnone, rfl, hseen'⟩
  · obtain ⟨p, hp, hkey, rfl⟩ := (hm _ _).mp hfound
    exact .inl ⟨p, hp, hapart p hp hkey, rfl, rfl⟩
  · have hout : ∀ p ∈ ms, key p.1 ≠ key x := by
      intro p hp hkey
      have hsome := (hm _ _).mpr ⟨p, hp, hkey, rfl⟩
      rw [show arcVisitkey (.obj x) = key x from rfl] at hnone
      rw [hnone] at hsome
      cases hsome
    refine .inr ⟨fun p hp heq => hout p hp (by rw [heq]), rfl, _, hseen', fun k w => ?_⟩
    rw [hmark, show arcVisitkey (.obj x) = key x from rfl]
    by_cases hk : k = key x
    · subst hk
      simp only [Function.update_self, Option.some.injEq, List.mem_cons, exists_eq_or_imp, true_and]
      constructor
      · rintro rfl
        exact .inl rfl
      · rintro (rfl | ⟨p, hp, hkey, -⟩)
        · rfl
        · exact absurd hkey (hout p hp)
    · simp [hk, hm, Ne.symm hk]

theorem visitMark_nil : visitMark (.obj x) .nil = .fixnum (key x) := by simp [visitMark, key]

theorem visitMark_fixnum {v : Val} {n : Int} : visitMark v (.fixnum n) = .fixnum n := by
  simp [visitMark]

theorem Trail.cons (ht : Trail h roots P s) (hn : Node h roots x y)
    (hvec : (h x).vector? = false) (hx : ∀ q ∈ P, q.1 ≠ x) (hy : ∀ q ∈ P, q.2 ≠ y)
    (hleft : Marks s'.vh1 (((x, y) :: P).map fun p => (p.1, p.1)))
    (hright : Marks s'.vh2 (((x, y) :: P).map fun p => (p.2, p.1))) :
    Trail h roots ((x, y) :: P) s' := by
  refine ⟨?_, ?_, hleft, hright⟩
  · intro p hp
    rcases List.mem_cons.mp hp with rfl | hp
    · exact ⟨hn, hvec⟩
    · exact ht.node hp
  · intro p q hp hq
    rcases List.mem_cons.mp hp with rfl | hp <;> rcases List.mem_cons.mp hq with rfl | hq
    · simp
    · simp [Ne.symm (hx q hq), Ne.symm (hy q hq)]
    · simp [hx p hp, hy p hp]
    · exact ht.matched hp hq

theorem vectorFrame_outside {v1 v2 : Val} {index : Int} (hindex : index < 0 ∨ 5 < index) :
    vectorFrame v1 v2 vh1 vh2 index = .error (.outsideFrame index) := by
  unfold vectorFrame
  split <;> first | omega | rfl

end Visiting

section Enter

variable (hap : KeysApart h roots)
include hap

theorem Trail.left_apart {p : Nat × Nat} (ht : Trail h roots P s) (hn : Node h roots x y)
    (hp : p ∈ P.map fun p => (p.1, p.1)) (hkey : key p.1 = key x) : p.1 = x := by
  obtain ⟨q, hq, rfl⟩ := List.mem_map.mp hp
  exact hap.left (ht.node hq).1 hn hkey

theorem Trail.right_apart {p : Nat × Nat} (ht : Trail h roots P s) (hn : Node h roots x y)
    (hp : p ∈ P.map fun p => (p.2, p.1)) (hkey : key p.1 = key y) : p.1 = y := by
  obtain ⟨q, hq, rfl⟩ := List.mem_map.mp hp
  exact hap.right (ht.node hq).1 hn hkey

/-- The first visit of the left object, and the second one after it. -/
theorem Trail.visit1 {w : Val} (ht : Trail h roots P s) (hn : Node h roots x y)
    (hv : Yields (Objects.visit1 fuel (.obj x)) s w s') :
    (w = .fixnum (key x) ∧ s' = s ∧ ∃ q ∈ P, q.1 = x) ∨
      (w = .nil ∧ (∀ q ∈ P, q.1 ≠ x) ∧ s'.vh2 = s.vh2 ∧
        Marks s'.vh1 (((x, y) :: P).map fun p => (p.1, p.1)) ∧
        ∀ {w' s₂}, Yields (Objects.visit1 fuel (.obj x)) s' w' s₂ →
          w' = .fixnum (key x) ∧ s₂ = s') := by
  obtain ⟨tbl, hvisit, rfl⟩ := visit1_ok hv
  rcases ht.left.visit (fun p hp => ht.left_apart hap hn hp) visitMark_nil hvisit with
    ⟨p, hp, rfl, rfl, rfl⟩ | ⟨hout, rfl, hleft⟩
  · obtain ⟨q, hq, rfl⟩ := List.mem_map.mp hp
    exact .inl ⟨rfl, rfl, q, hq, rfl⟩
  · refine .inr ⟨rfl, fun q hq => hout (q.1, q.1) (List.mem_map.mpr ⟨q, hq, rfl⟩), rfl, hleft, ?_⟩
    intro w' s₂ hv'
    obtain ⟨tbl₂, hvisit₂, rfl⟩ := visit1_ok hv'
    have hapart : ∀ p ∈ (x, x) :: P.map (fun p => (p.1, p.1)), key p.1 = key x → p.1 = x := by
      intro p hp hkey
      rcases List.mem_cons.mp hp with rfl | hp
      · rfl
      · exact ht.left_apart hap hn hp hkey
    rcases hleft.visit hapart visitMark_nil hvisit₂ with ⟨p, hp, hpx, rfl, rfl⟩ | ⟨hout', -⟩
    · rcases List.mem_cons.mp hp with rfl | hp
      · exact ⟨rfl, rfl⟩
      · obtain ⟨q, -, rfl⟩ := List.mem_map.mp hp
        exact ⟨by rw [← hpx], rfl⟩
    · exact absurd rfl (hout' (x, x) List.mem_cons_self)

theorem Trail.visit2 {w mykeyval : Val} {z : Nat} {s₀ : Visits} (ht : Trail h roots P s₀)
    (hn : Node h roots x y) (hvh2 : s.vh2 = s₀.vh2)
    (hmark : visitMark (.obj y) mykeyval = .fixnum (key z))
    (hv : Yields (Objects.visit2 fuel (.obj y) (some mykeyval)) s w s') :
    (∃ q ∈ P, q.2 = y ∧ w = .fixnum (key q.1) ∧ s' = s) ∨
      (w = .nil ∧ (∀ q ∈ P, q.2 ≠ y) ∧ s'.vh1 = s.vh1 ∧
        Marks s'.vh2 ((y, z) :: P.map fun p => (p.2, p.1))) := by
  obtain ⟨tbl, hvisit, rfl⟩ := visit2_ok hv
  rw [hvh2] at hvisit
  rcases ht.right.visit (fun p hp => ht.right_apart hap hn hp) hmark hvisit with
    ⟨p, hp, hpy, rfl, rfl⟩ | ⟨hout, rfl, hright⟩
  · obtain ⟨q, hq, rfl⟩ := List.mem_map.mp hp
    exact .inl ⟨q, hq, hpy, rfl, by rw [← hvh2]⟩
  · exact .inr ⟨rfl, fun q hq => hout (q.2, q.1) (List.mem_map.mpr ⟨q, hq, rfl⟩), rfl, hright⟩

/-- What the visits at the start of a comparison say: the pair is new, was
visited before, or does not match the pairs visited before. -/
theorem isoVisit_ok {r : Option Bool} (ht : Trail h roots P s) (hn : Node h roots x y)
    (hvec : (h x).vector? = false)
    (hv : Yields (isoVisit fuel (.obj x) (.obj y) fun vhh1 => pure (some vhh1)) s r s') :
    (r = none ∧ (∀ q ∈ P, q.1 ≠ x) ∧ Trail h roots ((x, y) :: P) s') ∨
      (r = some true ∧ (x, y) ∈ P ∧ s' = s) ∨
      (r = some false ∧ ∃ p ∈ P, ¬ (x = p.1 ↔ y = p.2)) := by
  obtain ⟨vhh1, s₁, h1, hrest⟩ := yields_bind hv
  clear hv
  rcases ht.visit1 hap hn h1 with ⟨rfl, rfl, q, hq, hqx⟩ | ⟨rfl, hx, hvh2, hleft, hsecond⟩
  · rw [if_pos (by simp)] at hrest
    obtain ⟨vhh2, s₂, h2, hrest⟩ := yields_bind hrest
    obtain ⟨rfl, rfl⟩ := yields_pure_iff.mp hrest
    rcases ht.visit2 hap hn rfl visitMark_nil h2 with ⟨q₂, hq₂, hqy, rfl, rfl⟩ | ⟨rfl, hy, -⟩
    · by_cases hqx₂ : q₂.1 = x
      · have hmem : (x, y) ∈ P := by
          rw [← hqx₂, ← hqy]
          exact hq₂
        exact .inr (.inl ⟨by simp [hqx₂], hmem, rfl⟩)
      · have hne : key q₂.1 ≠ key x := fun heq => hqx₂ (hap.left (ht.node hq₂).1 hn heq)
        exact .inr (.inr ⟨by simp [hne], q₂, hq₂, by simp [hqy, Ne.symm hqx₂]⟩)
    · exact .inr (.inr ⟨by simp, q, hq, by simp [hqx, Ne.symm (hy q hq)]⟩)
  · rw [if_neg (by simp)] at hrest
    obtain ⟨vhh1, s₂, h1', hmarked⟩ := yields_bind hrest
    obtain ⟨rfl, rfl⟩ := hsecond h1'
    obtain ⟨marked, s₃, hmark, hvisit2⟩ := yields_bind hmarked
    obtain ⟨rfl, rfl⟩ := yields_pure_iff.mp hmark
    obtain ⟨vhh2, s₄, h2, hend⟩ := yields_bind hvisit2
    rcases ht.visit2 hap hn hvh2 visitMark_fixnum h2 with
      ⟨q₂, hq₂, hqy, rfl, rfl⟩ | ⟨rfl, hy, hvh1, hright⟩
    · rw [if_pos (by simp)] at hend
      obtain ⟨rfl, rfl⟩ := yields_pure_iff.mp hend
      exact .inr (.inr ⟨rfl, q₂, hq₂, by simp [hqy, Ne.symm (hx q₂ hq₂)]⟩)
    · rw [if_neg (by simp)] at hend
      obtain ⟨rfl, rfl⟩ := yields_pure_iff.mp hend
      exact .inl ⟨rfl, hx, ht.cons hn hvec hx hy (by rw [hvh1]; exact hleft) hright⟩

/-- Two distinct vectors are never compared to an end: the mark is read from
outside of the frame. -/
theorem vectorIsocmp_fails {r : Bool} {elts1 elts2 : List Val} (hns : NoSlot h roots)
    (ht : Trail h roots P s) (hn : Node h roots x y) (hvec : (h x).vector? = true) :
    ¬ Yields (vectorIsocmp fuel iso2 vh1 vh2 (.obj x) (.obj y) elts1 elts2) s r s' := by
  intro hv
  obtain ⟨r₀, s₀, hvisit, -⟩ := yields_bind hv
  obtain ⟨vhh1, s₁, h1, hrest⟩ := yields_bind hvisit
  clear hv hvisit
  rcases ht.visit1 hap hn h1 with ⟨rfl, rfl, q, hq, rfl⟩ | ⟨rfl, -, -, -, hsecond⟩
  · have hno := (ht.node hq).2
    rw [hvec] at hno
    cases hno
  · rw [if_neg (by simp)] at hrest
    obtain ⟨vhh1, s₂, h1', hmarked⟩ := yields_bind hrest
    obtain ⟨rfl, rfl⟩ := hsecond h1'
    obtain ⟨marked, s₃, hmark, -⟩ := yields_bind hmarked
    obtain ⟨hframe, -⟩ := yields_lift_iff.mp hmark
    rw [vectorFrame_outside (hns hn hvec)] at hframe
    cases hframe

end Enter

section Answers

/-- Comparing pairs in turn, until one of them differs. -/
def compareAll (iso2 : Val → Val → IsoM Bool) : List (Val × Val) → IsoM Bool
  | [] => return true
  | (a, b) :: ps => do
    if !(← iso2 a b) then
      return false
    compareAll iso2 ps

/-- The pairs that `pairwise` compares. -/
def strides : List Val → List (Val × Val)
  | a :: b :: rest => (a, b) :: strides rest
  | _ => []

theorem pairwise_eq_compareAll (list : List Val) :
    pairwise iso2 list = compareAll iso2 (strides list) := by
  fun_induction strides list with
  | case1 a b rest ih => simp only [pairwise, compareAll, ih]
  | case2 list hshort =>
    match list, hshort with
    | [], _ => rfl
    | [a], _ => rfl
    | a :: b :: rest, hshort => exact absurd rfl (hshort a b rest)

/-- The tables of visited objects of a new comparison. -/
def newVisits : Visits := ⟨arcMkhash arcHashbits, arcMkhash arcHashbits⟩

theorem arcIso_ok_iff {list : List Val} {r : Bool} :
    arcIso h vh1 vh2 fuel list = .ok r ↔
      ∃ s', Yields (compareAll (arcIso2 h vh1 vh2 fuel) (strides list)) newVisits r s' := by
  rw [arcIso, pairwise_eq_compareAll]
  change ((compareAll (arcIso2 h vh1 vh2 fuel) (strides list) newVisits) >>= fun p => pure p.1) =
    .ok r ↔ _
  cases hrun : compareAll (arcIso2 h vh1 vh2 fuel) (strides list) newVisits with
  | error e => simp [Yields, hrun, bind, Except.bind]
  | ok p => simp [Yields, hrun, bind, Except.bind, pure, Except.pure, Prod.ext_iff]

/-- The visits go on from `P` by the pairs `N`, whose components came out well. -/
structure Extends (h : Heap) (roots : List (Val × Val)) (P N : List (Nat × Nat)) (s : Visits) :
    Prop where
  trail : Trail h roots (N ++ P) s
  closed : ∀ p ∈ N, Closed h (N ++ P) p

/-- What an answer says. -/
def Sound (h : Heap) (roots : List (Val × Val)) (iso2 : Val → Val → IsoM Bool) : Prop :=
  ∀ {a b P s r s'}, Met h roots a b → Trail h roots P s → Yields (iso2 a b) s r s' →
    (r = true → ∃ N, Extends h roots P N s' ∧ Done h (N ++ P) a b) ∧
      (r = false → ¬ Alike h roots)

theorem Done.mono (hd : Done h P a b) (hsub : P ⊆ P') : Done h P' a b := by
  rcases hd with rfl | ⟨x, y, rfl, rfl, hne, hc | hmem⟩
  · exact .inl rfl
  · exact .inr ⟨x, y, rfl, rfl, hne, .inl hc⟩
  · exact .inr ⟨x, y, rfl, rfl, hne, .inr (hsub hmem)⟩

theorem Closed.mono {p : Nat × Nat} (hc : Closed h P p) (hsub : P ⊆ P') : Closed h P' p := by
  exact ⟨hc.1, fun hab => (hc.2 hab).mono hsub⟩

theorem Extends.refl (ht : Trail h roots P s) : Extends h roots P [] s := ⟨ht, by simp⟩

theorem Extends.trans {N N' : List (Nat × Nat)} (he : Extends h roots P N s)
    (he' : Extends h roots (N ++ P) N' s') : Extends h roots P (N' ++ N) s' := by
  refine ⟨by rw [List.append_assoc]; exact he'.trail, fun p hp => ?_⟩
  rw [List.append_assoc]
  rcases List.mem_append.mp hp with hp | hp
  · exact he'.closed p hp
  · exact (he.closed p hp).mono (List.subset_append_right _ _)

theorem compareAll_sound {ps : List (Val × Val)} {r : Bool} (hiso2 : Sound h roots iso2)
    (hmet : ∀ q ∈ ps, Met h roots q.1 q.2) (ht : Trail h roots P s)
    (hv : Yields (compareAll iso2 ps) s r s') :
    (r = true → ∃ N, Extends h roots P N s' ∧ ∀ q ∈ ps, Done h (N ++ P) q.1 q.2) ∧
      (r = false → ¬ Alike h roots) := by
  induction ps generalizing P s with
  | nil =>
    obtain ⟨rfl, rfl⟩ := yields_pure_iff.mp hv
    exact ⟨fun _ => ⟨[], Extends.refl ht, by simp⟩, nofun⟩
  | cons q ps ih =>
    obtain ⟨a, b⟩ := q
    obtain ⟨r₁, s₁, h1, hrest⟩ := yields_bind hv
    obtain ⟨htrue, hfalse⟩ := hiso2 (hmet (a, b) List.mem_cons_self) ht h1
    cases r₁ with
    | false =>
      obtain ⟨rfl, rfl⟩ := yields_pure_iff.mp hrest
      exact ⟨nofun, fun _ => hfalse rfl⟩
    | true =>
      obtain ⟨N, he, hd⟩ := htrue rfl
      obtain ⟨htrue', hfalse'⟩ := ih (fun q hq => hmet q (List.mem_cons_of_mem _ hq)) he.trail hrest
      refine ⟨fun hr => ?_, hfalse'⟩
      obtain ⟨N', he', hds⟩ := htrue' hr
      refine ⟨N' ++ N, he.trans he', fun q hq => ?_⟩
      rw [List.append_assoc]
      rcases List.mem_cons.mp hq with rfl | hq
      · exact hd.mono (List.subset_append_right _ _)
      · exact hds q hq

theorem lookupKey_mono {fuel' : Nat} {tbl : Table Val Val} {k : Val} {v : Option Val}
    (hle : fuel ≤ fuel') (hl : lookupKey fuel h tbl k = .ok v) : lookupKey fuel' h tbl k = .ok v := by
  unfold lookupKey at hl ⊢
  cases hh : arcHash h k with
  | error e => simp [hh, bind, Except.bind] at hl
  | ok hv =>
    simp only [hh, bind, Except.bind] at hl ⊢
    cases hp : probeFor fuel (simpleKeying h) tbl k with
    | none => simp [arcHashLookup, hashLookup, hp] at hl
    | some p =>
      simp only [arcHashLookup, hashLookup, hp, probeFor_mono hle hp] at hl ⊢
      exact hl

theorem Finds.unique {tbl : Table Val Val} {k : Val} {v v' : Option Val}
    (hf : Finds h tbl k v) (hf' : Finds h tbl k v') : v = v' := by
  obtain ⟨n, hn⟩ := hf
  obtain ⟨n', hn'⟩ := hf'
  have h1 := lookupKey_mono (Nat.le_max_left n n') hn
  rw [lookupKey_mono (Nat.le_max_right n n') hn'] at h1
  exact (Except.ok.inj h1).symm

theorem SlotFits.of_emptyp {tbl1 tbl2 : Table Val Val} {i : Nat}
    (hempty : (tbl1.slot i).emptyp = true) : SlotFits h tbl1 tbl2 i := by
  intro e he
  simp [he, Slot.emptyp] at hempty

theorem slotPair_of_emptyp {tbl1 tbl2 : Table Val Val} {i : Nat}
    (hempty : (tbl1.slot i).emptyp = true) : ¬ SlotPair h tbl1 tbl2 i a b := by
  rintro ⟨e, he, -⟩
  simp [he, Slot.emptyp] at hempty

/-- What the loop over the slots compares: pairs in turn, up to a bucket that does
not fit if there is one. -/
structure LoopPairs (h : Heap) (iso2 : Val → Val → IsoM Bool) (tbl1 tbl2 : Table Val Val)
    (n i : Nat) (s s' : Visits) (r : Bool) (ps : List (Val × Val)) : Prop where
  pair : ∀ q ∈ ps, ∃ j, i ≤ j ∧ j < i + n ∧ SlotPair h tbl1 tbl2 j q.1 q.2
  run : (Yields (compareAll iso2 ps) s r s' ∧
      (r = true → ∀ j, i ≤ j → j < i + n → SlotFits h tbl1 tbl2 j ∧
        ∀ a b, SlotPair h tbl1 tbl2 j a b → (a, b) ∈ ps)) ∨
    (r = false ∧ ∃ j, i ≤ j ∧ j < i + n ∧ ¬ SlotFits h tbl1 tbl2 j)

theorem LoopPairs.skip {tbl1 tbl2 : Table Val Val} {n i : Nat} {r : Bool} {ps : List (Val × Val)}
    (hl : LoopPairs h iso2 tbl1 tbl2 n (i + 1) s s' r ps) (hfits : SlotFits h tbl1 tbl2 i)
    (hno : ∀ a b, ¬ SlotPair h tbl1 tbl2 i a b) :
    LoopPairs h iso2 tbl1 tbl2 (n + 1) i s s' r ps := by
  refine ⟨fun q hq => ?_, ?_⟩
  · obtain ⟨j, hj, hj', hpair⟩ := hl.pair q hq
    exact ⟨j, by omega, by omega, hpair⟩
  · rcases hl.run with ⟨hrun, hall⟩ | ⟨hr, j, hj, hj', hnot⟩
    · refine .inl ⟨hrun, fun hr j hj hj' => ?_⟩
      rcases Nat.eq_or_lt_of_le hj with rfl | hlt
      · exact ⟨hfits, fun a b hpair => absurd hpair (hno a b)⟩
      · exact hall hr j (by omega) (by omega)
    · exact .inr ⟨hr, j, by omega, by omega, hnot⟩

/-- A slot with a pair that compares well, before the others. -/
theorem LoopPairs.next {tbl1 tbl2 : Table Val Val} {n i : Nat} {r : Bool} {ps : List (Val × Val)}
    {s₁ : Visits} (hl : LoopPairs h iso2 tbl1 tbl2 n (i + 1) s₁ s' r ps)
    (hfits : SlotFits h tbl1 tbl2 i) (hpair : SlotPair h tbl1 tbl2 i a b)
    (honly : ∀ a' b', SlotPair h tbl1 tbl2 i a' b' → a' = a ∧ b' = b)
    (hiso : Yields (iso2 a b) s true s₁) :
    LoopPairs h iso2 tbl1 tbl2 (n + 1) i s s' r ((a, b) :: ps) := by
  refine ⟨fun q hq => ?_, ?_⟩
  · rcases List.mem_cons.mp hq with rfl | hq
    · exact ⟨i, le_refl i, by omega, hpair⟩
    · obtain ⟨j, hj, hj', hpair⟩ := hl.pair q hq
      exact ⟨j, by omega, by omega, hpair⟩
  · rcases hl.run with ⟨hrun, hall⟩ | ⟨hr, j, hj, hj', hnot⟩
    · refine .inl ⟨hiso.bind hrun, fun hr j hj hj' => ?_⟩
      rcases Nat.eq_or_lt_of_le hj with rfl | hlt
      · refine ⟨hfits, fun a' b' hpair' => ?_⟩
        obtain ⟨rfl, rfl⟩ := honly a' b' hpair'
        exact List.mem_cons_self
      · obtain ⟨hfits', hmem⟩ := hall hr j (by omega) (by omega)
        exact ⟨hfits', fun a' b' hpair' => List.mem_cons_of_mem _ (hmem a' b' hpair')⟩
    · exact .inr ⟨hr, j, by omega, by omega, hnot⟩

theorem hashLoop_pairs {tbl1 tbl2 : Table Val Val} {n i : Nat} {r : Bool}
    (hv : Yields (hashLoop fuel iso2 h tbl1 tbl2 n i) s r s') :
    ∃ ps, LoopPairs h iso2 tbl1 tbl2 n i s s' r ps := by
  induction n generalizing i s with
  | zero => exact ⟨[], by simp, .inl ⟨hv, fun _ j hj hj' => absurd hj' (by omega)⟩⟩
  | succ n ih =>
    unfold hashLoop at hv
    cases hslot : tbl1.slot i with
    | cunbound =>
      simp only [hslot] at hv
      obtain ⟨ps, hps⟩ := ih hv
      have hempty : (tbl1.slot i).emptyp = true := by rw [hslot]; rfl
      exact ⟨ps, hps.skip (.of_emptyp hempty) fun _ _ => slotPair_of_emptyp hempty⟩
    | cundef =>
      simp only [hslot] at hv
      obtain ⟨ps, hps⟩ := ih hv
      have hempty : (tbl1.slot i).emptyp = true := by rw [hslot]; rfl
      exact ⟨ps, hps.skip (.of_emptyp hempty) fun _ _ => slotPair_of_emptyp hempty⟩
    | bucket e =>
      simp only [hslot] at hv
      obtain ⟨v2val, s₁, hl, hrest⟩ := yields_bind hv
      obtain ⟨hlookup, rfl⟩ := yields_lift_iff.mp hl
      have hfinds : Finds h tbl2 e.bkey v2val := ⟨fuel, hlookup⟩
      have hpair : ∀ a b, SlotPair h tbl1 tbl2 i a b → e.bvalue = some a ∧ v2val = some b := by
        rintro a b ⟨e', he', hval, hfinds'⟩
        cases hslot.symm.trans he'
        exact ⟨hval, hfinds.unique hfinds'⟩
      have hfits : e.bvalue.isSome = v2val.isSome → SlotFits h tbl1 tbl2 i := by
        intro heq e' he'
        cases hslot.symm.trans he'
        exact ⟨v2val, hfinds, heq⟩
      have hnot : e.bvalue.isSome ≠ v2val.isSome → ¬ SlotFits h tbl1 tbl2 i := by
        intro hne hfits
        obtain ⟨v, hfinds', heq⟩ := hfits e hslot
        rw [hfinds.unique hfinds'] at hne
        exact hne heq
      obtain ⟨r₁, s₂, h1, hloop⟩ := yields_bind hrest
      cases hval : e.bvalue with
      | none =>
        cases v2val with
        | none =>
          rw [hval] at h1
          obtain ⟨rfl, rfl⟩ := yields_pure_iff.mp h1
          obtain ⟨ps, hps⟩ := ih hloop
          refine ⟨ps, hps.skip (hfits (by rw [hval])) fun a b hp => ?_⟩
          exact absurd (hpair a b hp).2 nofun
        | some b =>
          rw [hval] at h1
          obtain ⟨rfl, rfl⟩ := yields_pure_iff.mp h1
          obtain ⟨rfl, rfl⟩ := yields_pure_iff.mp hloop
          exact ⟨[], by simp, .inr ⟨rfl, i, le_refl i, by omega, hnot (by simp [hval])⟩⟩
      | some a =>
        cases v2val with
        | none =>
          rw [hval] at h1
          obtain ⟨rfl, rfl⟩ := yields_pure_iff.mp h1
          obtain ⟨rfl, rfl⟩ := yields_pure_iff.mp hloop
          exact ⟨[], by simp, .inr ⟨rfl, i, le_refl i, by omega, hnot (by simp [hval])⟩⟩
        | some b =>
          rw [hval] at h1
          have hab : SlotPair h tbl1 tbl2 i a b := ⟨e, hslot, hval, hfinds⟩
          cases r₁ with
          | false =>
            obtain ⟨rfl, rfl⟩ := yields_pure_iff.mp hloop
            refine ⟨[(a, b)], fun q hq => ?_, .inl ⟨h1.bind yields_pure, nofun⟩⟩
            obtain rfl := List.mem_singleton.mp hq
            exact ⟨i, le_refl i, by omega, hab⟩
          | true =>
            obtain ⟨ps, hps⟩ := ih hloop
            refine ⟨_, hps.next (hfits (by rw [hval]; rfl)) hab (fun a' b' hp => ?_) h1⟩
            obtain ⟨ha, hb⟩ := hpair a' b' hp
            rw [hval] at ha
            exact ⟨(Option.some.inj ha).symm, (Option.some.inj hb).symm⟩

theorem Compares.hash?_none {o o' : Obj} (hc : Compares h o o' a b) : o.hash? = none := by
  cases hc <;> rfl

theorem Fits.hash?_none {o o' : Obj} (hc : Fits h o o') : o.hash? = none := by cases hc <;> rfl

theorem Fits.type {o o' : Obj} (hc : Fits h o o') : o.type = o'.type := by cases hc <;> rfl

theorem iscmp_of_hash? {o o' : Obj} (ho : o.hash? = none) : iscmp o o' = false := by
  cases o with
  | cons car cdr => rfl
  | vector elts => rfl
  | table tbl => rfl
  | _ => cases ho

theorem Agree.fits (hagree : Agree h (.obj x) (.obj y)) (hne : x ≠ y)
    (hcomp : (h x).hash? = none) : Fits h (h x) (h y) := by
  rcases hagree with heq | ⟨x', y', hx, hy, -, hc | hfits⟩
  · exact absurd (Val.obj.inj heq) hne
  · cases hx
    cases hy
    rw [iscmp_of_hash? hcomp] at hc
    cases hc
  · cases hx
    cases hy
    exact hfits

theorem Done.mem (hd : Done h P (.obj x) (.obj y)) (hne : x ≠ y)
    (hcomp : (h x).hash? = none) : (x, y) ∈ P := by
  rcases hd with heq | ⟨x', y', hx, hy, -, hc | hmem⟩
  · exact absurd (Val.obj.inj heq) hne
  · cases hx
    cases hy
    rw [iscmp_of_hash? hcomp] at hc
    cases hc
  · cases hx
    cases hy
    exact hmem

theorem isocmp_of_hash? {o o' : Obj} (ho : o.hash? ≠ none) :
    isocmp fuel iso2 h vh1 vh2 a b o o' = pure (iscmp o o') := by
  cases o with
  | cons car cdr => exact absurd rfl ho
  | vector elts => exact absurd rfl ho
  | table tbl => exact absurd rfl ho
  | _ => cases o' <;> rfl

theorem type_of_iscmp {o o' : Obj} (hc : iscmp o o' = true) : o.type = o'.type := by
  cases o <;> cases o' <;> first | rfl | simp [iscmp] at hc

theorem Agree.type (hagree : Agree h a b) : typeOf h a = typeOf h b := by
  rcases hagree with rfl | ⟨x, y, rfl, rfl, -, hc | hfits⟩
  · rfl
  · exact type_of_iscmp hc
  · exact hfits.type

/-- What the comparison of the components of two objects does: some of them in
turn, and all of them for the answer `t`. -/
def ComparesAll (h : Heap) (iso2 : Val → Val → IsoM Bool) (o o' : Obj) (body : IsoM Bool) : Prop :=
  ∀ {s r s'}, Yields body s r s' → ∃ ps : List (Val × Val),
    (∀ q ∈ ps, Compares h o o' q.1 q.2) ∧
      ((Yields (compareAll iso2 ps) s r s' ∧
          (r = true → Fits h o o' ∧ ∀ a b, Compares h o o' a b → (a, b) ∈ ps)) ∨
        (r = false ∧ ¬ Fits h o o'))

theorem consBody_comparesAll {car1 cdr1 car2 cdr2 : Val} :
    ComparesAll h iso2 (.cons car1 cdr1) (.cons car2 cdr2)
      (compareAll iso2 [(car1, car2), (cdr1, cdr2)]) := by
  intro s r s' hv
  refine ⟨_, fun q hq => ?_, .inl ⟨hv, fun _ => ⟨.cons, fun a b hc => ?_⟩⟩⟩
  · rcases List.mem_cons.mp hq with rfl | hq
    · exact .car
    · obtain rfl := List.mem_singleton.mp hq
      exact .cdr
  · cases hc <;> simp

theorem hashBody_comparesAll {tbl1 tbl2 : Table Val Val} :
    ComparesAll h iso2 (.table tbl1) (.table tbl2) (do
      if tbl1.nentries ≠ tbl2.nentries then
        return false
      hashLoop fuel iso2 h tbl1 tbl2 tbl1.tablesize 0) := by
  intro s r s' hv
  by_cases hentries : tbl1.nentries = tbl2.nentries
  · rw [if_neg (not_not.mpr hentries)] at hv
    obtain ⟨ps, hpair, hrun⟩ := hashLoop_pairs hv
    refine ⟨ps, fun q hq => ?_, ?_⟩
    · obtain ⟨j, -, hj, hq'⟩ := hpair q hq
      exact .slot hentries (by omega) hq'
    · rcases hrun with ⟨hrun, hall⟩ | ⟨hr, j, -, hj, hnot⟩
      · refine .inl ⟨hrun, fun hr => ⟨.table hentries fun i hi => ?_, fun a b hc => ?_⟩⟩
        · exact (hall hr i (Nat.zero_le i) (by omega)).1
        · cases hc with
          | slot _ hi hp => exact (hall hr _ (Nat.zero_le _) (by omega)).2 a b hp
      · refine .inr ⟨hr, fun hfits => ?_⟩
        cases hfits with
        | table _ hslots => exact hnot (hslots j (by omega))
  · rw [if_pos hentries] at hv
    obtain ⟨rfl, rfl⟩ := yields_pure_iff.mp hv
    refine ⟨[], by simp, .inr ⟨rfl, fun hfits => ?_⟩⟩
    cases hfits with
    | table heq => exact hentries heq

/-- After the visits of a new pair: the comparison of its components. -/
theorem components_sound {r : Bool} {body : IsoM Bool} (hiso2 : Sound h roots iso2)
    (hn : Node h roots x y) (ht : Trail h roots ((x, y) :: P) s)
    (hbody : ComparesAll h iso2 (h x) (h y) body) (hv : Yields body s r s') :
    (r = true → ∃ N, Extends h roots P N s' ∧ Done h (N ++ P) (.obj x) (.obj y)) ∧
      (r = false → ¬ Alike h roots) := by
  obtain ⟨ps, hps, ⟨hrun, hall⟩ | ⟨rfl, hnot⟩⟩ := hbody hv
  · obtain ⟨htrue, hfalse⟩ :=
      compareAll_sound hiso2 (fun q hq => .step hn.met hn.ne (hps q hq)) ht hrun
    refine ⟨fun hr => ?_, hfalse⟩
    obtain ⟨hfits, hmem⟩ := hall hr
    obtain ⟨N, he, hds⟩ := htrue hr
    have happ : (N ++ [(x, y)]) ++ P = N ++ (x, y) :: P := by simp
    refine ⟨N ++ [(x, y)], ⟨by rw [happ]; exact he.trail, fun p hp => ?_⟩, ?_⟩
    · rw [happ]
      rcases List.mem_append.mp hp with hp | hp
      · exact he.closed p hp
      · obtain rfl := List.mem_singleton.mp hp
        exact ⟨hfits, fun {a b} hab => hds (a, b) (hmem a b hab)⟩
    · exact .inr ⟨x, y, rfl, rfl, hn.ne, .inr (by simp)⟩
  · exact ⟨nofun, fun _ halike => hnot ((halike.agree hn.met).fits hn.ne hn.compound)⟩

end Answers

section Main

variable (hap : KeysApart h roots) (hns : NoSlot h roots)
include hap

/-- The comparison of two objects that begins with their visits. -/
theorem visited_sound {r : Bool} {body : IsoM Bool} (hiso2 : Sound h roots iso2)
    (hn : Node h roots x y) (hvec : (h x).vector? = false) (ht : Trail h roots P s)
    (hbody : ComparesAll h iso2 (h x) (h y) body)
    (hv : Yields (do
      match ← isoVisit fuel (.obj x) (.obj y) fun vhh1 => pure (some vhh1) with
      | some answer => return answer
      | none => body) s r s') :
    (r = true → ∃ N, Extends h roots P N s' ∧ Done h (N ++ P) (.obj x) (.obj y)) ∧
      (r = false → ¬ Alike h roots) := by
  obtain ⟨r₀, s₁, h1, hrest⟩ := yields_bind hv
  rcases isoVisit_ok hap ht hn hvec h1 with ⟨rfl, -, ht'⟩ | ⟨rfl, hmem, rfl⟩ | ⟨rfl, q, hq, hdiff⟩
  · exact components_sound hiso2 hn ht' hbody hrest
  · obtain ⟨rfl, rfl⟩ := yields_pure_iff.mp hrest
    exact ⟨fun _ => ⟨[], .refl ht, .inr ⟨x, y, rfl, rfl, hn.ne, .inr hmem⟩⟩, nofun⟩
  · obtain ⟨rfl, rfl⟩ := yields_pure_iff.mp hrest
    exact ⟨nofun, fun _ halike => hdiff (halike.matched hn (ht.node hq).1)⟩

include hns

theorem isocmp_sound {r : Bool} (hiso2 : Sound h roots iso2) (hmet : Met h roots (.obj x) (.obj y))
    (hne : x ≠ y) (htype : (h x).type = (h y).type) (ht : Trail h roots P s)
    (hv : Yields (isocmp fuel iso2 h vh1 vh2 (.obj x) (.obj y) (h x) (h y)) s r s') :
    (r = true → ∃ N, Extends h roots P N s' ∧ Done h (N ++ P) (.obj x) (.obj y)) ∧
      (r = false → ¬ Alike h roots) := by
  by_cases hcomp : (h x).hash? = none
  · have hn : Node h roots x y := ⟨hmet, hne, htype, hcomp⟩
    cases hx : h x with
    | cons car1 cdr1 =>
      cases hy : h y with
      | cons car2 cdr2 =>
        rw [hx, hy] at hv
        exact visited_sound hap hiso2 hn (by rw [hx]; rfl) ht
          (by rw [hx, hy]; exact consBody_comparesAll) hv
      | _ => simp [hx, hy, Obj.type] at htype
    | vector elts1 =>
      cases hy : h y with
      | vector elts2 =>
        rw [hx, hy] at hv
        exact absurd hv (vectorIsocmp_fails hap hns ht hn (by rw [hx]; rfl))
      | _ => simp [hx, hy, Obj.type] at htype
    | table tbl1 =>
      cases hy : h y with
      | table tbl2 =>
        rw [hx, hy] at hv
        exact visited_sound hap hiso2 hn (by rw [hx]; rfl) ht
          (by rw [hx, hy]; exact hashBody_comparesAll) hv
      | _ => simp [hx, hy, Obj.type] at htype
    | _ => simp [hx, Obj.hash?] at hcomp
  · rw [isocmp_of_hash? hcomp] at hv
    obtain ⟨hcmp, rfl⟩ := yields_pure_iff.mp hv
    refine ⟨fun hr => ⟨[], .refl ht, ?_⟩, fun hr halike => ?_⟩
    · exact .inr ⟨x, y, rfl, rfl, hne, .inl (hcmp.trans hr)⟩
    · rcases halike.agree hmet with heq | ⟨x', y', hx, hy, -, hc | hfits⟩
      · exact hne (Val.obj.inj heq)
      · cases hx
        cases hy
        rw [hcmp, hr] at hc
        cases hc
      · cases hx
        cases hy
        exact hcomp hfits.hash?_none

/-- Every answer of `iso2` is right about all the pairs met. -/
theorem arcIso2_sound (fuel : Nat) : Sound h roots (arcIso2 h vh1 vh2 fuel) := by
  induction fuel with
  | zero =>
    intro a b P s r s' _ _ hv
    exact absurd hv not_yields_throw
  | succ fuel ih =>
    intro a b P s r s' hmet ht hv
    unfold arcIso2 at hv
    by_cases hab : a = b
    · rw [if_pos hab] at hv
      obtain ⟨rfl, rfl⟩ := yields_pure_iff.mp hv
      exact ⟨fun _ => ⟨[], .refl ht, .inl hab⟩, nofun⟩
    rw [if_neg hab] at hv
    by_cases htype : typeOf h a = typeOf h b
    · rw [if_neg (not_not.mpr htype)] at hv
      cases a with
      | obj x =>
        cases b with
        | obj y => exact isocmp_sound hap hns ih hmet (fun heq => hab (by rw [heq])) htype ht hv
        | _ =>
          obtain ⟨rfl, rfl⟩ := yields_pure_iff.mp hv
          exact ⟨nofun, fun _ halike => (halike.agree hmet).elim hab nofun⟩
      | _ =>
        obtain ⟨rfl, rfl⟩ := yields_pure_iff.mp hv
        exact ⟨nofun, fun _ halike => (halike.agree hmet).elim hab nofun⟩
    · rw [if_pos htype] at hv
      obtain ⟨rfl, rfl⟩ := yields_pure_iff.mp hv
      exact ⟨nofun, fun _ halike => htype (halike.agree hmet).type⟩

omit hap hns

/-- Once the visits are closed, every pair met came out well. -/
theorem Met.done {N : List (Nat × Nat)} (hroots : ∀ q ∈ roots, Done h N q.1 q.2)
    (hclosed : ∀ p ∈ N, Closed h N p) (hmet : Met h roots a b) : Done h N a b := by
  induction hmet with
  | root hq => exact hroots _ hq
  | step _ hne hc ih => exact (hclosed _ (ih.mem hne hc.hash?_none)).2 hc

theorem Extends.alike {N : List (Nat × Nat)} (he : Extends h roots [] N s)
    (hroots : ∀ q ∈ roots, Done h N q.1 q.2) : Alike h roots := by
  have hclosed : ∀ p ∈ N, Closed h N p := by simpa using he.closed
  have htrail : Trail h roots N s := by simpa using he.trail
  have hmem : ∀ {x y}, Node h roots x y → (x, y) ∈ N := fun hn =>
    (hn.met.done hroots hclosed).mem hn.ne hn.compound
  refine ⟨fun {a b} hmet => ?_, fun hn hn' => htrail.matched (hmem hn) (hmem hn')⟩
  rcases hmet.done hroots hclosed with heq | ⟨x, y, rfl, rfl, hne, hc | hxy⟩
  · exact .inl heq
  · exact .inr ⟨x, y, rfl, rfl, hne, .inl hc⟩
  · exact .inr ⟨x, y, rfl, rfl, hne, .inr (hclosed _ hxy).1⟩

theorem trail_new : Trail h roots [] newVisits :=
  ⟨by simp, by simp, marks_new, marks_new⟩

/-- An answer about pairs compared in turn with new tables is `t` exactly when
all the pairs met agree, one to one. -/
theorem compareAll_iff {r : Bool} (hap : KeysApart h roots) (hns : NoSlot h roots)
    (hv : Yields (compareAll (arcIso2 h vh1 vh2 fuel) roots) newVisits r s') : r = true ↔ Alike h roots := by
  obtain ⟨htrue, hfalse⟩ := compareAll_sound (arcIso2_sound hap hns fuel)
    (fun q hq => .root hq) trail_new hv
  constructor
  · intro hr
    obtain ⟨N, he, hds⟩ := htrue hr
    exact he.alike (by simpa using hds)
  · intro halike
    cases r with
    | true => rfl
    | false => exact absurd halike (hfalse rfl)

end Main

end Arcueid.Objects
