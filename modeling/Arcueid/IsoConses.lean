import Mathlib.Data.Fintype.Pigeonhole
import Arcueid.IsoEnds

/-! `iso` on finite acyclic values made of conses and atoms: equality of the trees
they stand for, and of the way their conses are shared. -/

namespace Arcueid.Objects

open Filter Outcome Settling

/-- What a value without cycles stands for. -/
inductive Tree where
  | nil
  | fixnum (n : Int)
  | symbol (id : Nat)
  | char (r : Rune)
  | string (str : List Rune)
  | bignum (n : Int)
  | rational (q : Rat)
  | cons (car cdr : Tree)

/-- What an atom stands for. -/
def atomTree (h : Heap) : Val → Option Tree
  | .nil => some .nil
  | .fixnum n => some (.fixnum n)
  | .symbol id => some (.symbol id)
  | .obj x =>
    match h x with
    | .char r => some (.char r)
    | .string str => some (.string str)
    | .bignum n => some (.bignum n)
    | .rational q => some (.rational q)
    | _ => none

inductive Denotes (h : Heap) : Val → Tree → Prop
  | atom {v t} : atomTree h v = some t → Denotes h v t
  | cons {x car cdr t t'} : h x = .cons car cdr → Denotes h car t → Denotes h cdr t' →
      Denotes h (.obj x) (.cons t t')

/-- `iso` of two values comes to this answer. -/
def IsoAnswer (h : Heap) (vh1 vh2 a b : Val) (r : Bool) : Prop :=
  ∀ᶠ fuel in atTop, arcIso h vh1 vh2 fuel [a, b] = .ok r

/-- The values reached through conses. -/
inductive Within (h : Heap) : Val → Val → Prop
  | refl {v} : Within h v v
  | car {x car cdr v} : h x = .cons car cdr → Within h car v → Within h (.obj x) v
  | cdr {x car cdr v} : h x = .cons car cdr → Within h cdr v → Within h (.obj x) v

variable {h : Heap} {a b u v vh1 vh2 : Val} {t t' : Tree} {x y : Nat}

section Trees

theorem atomTree_cons {car cdr : Val} (hx : h x = .cons car cdr) : atomTree h (.obj x) = none := by
  simp [atomTree, hx]

theorem atomTree_compound (hx : (h x).hash? = none) : atomTree h (.obj x) = none := by
  cases ho : h x <;> simp [atomTree, ho, Obj.hash?] at hx ⊢

theorem Denotes.unique (hd : Denotes h v t) (hd' : Denotes h v t') : t = t' := by
  induction hd generalizing t' with
  | atom hl =>
    cases hd' with
    | atom hl' => exact Option.some.inj (hl.symm.trans hl')
    | cons hx => simp [atomTree_cons hx] at hl
  | cons hx _ _ ih ih' =>
    cases hd' with
    | atom hl' => simp [atomTree_cons hx] at hl'
    | cons hx' hcar hcdr =>
      cases hx.symm.trans hx'
      rw [ih hcar, ih' hcdr]

theorem Denotes.of_cons {car cdr : Val} (hd : Denotes h (.obj x) t) (hx : h x = .cons car cdr) :
    ∃ t₁ t₂, t = .cons t₁ t₂ ∧ Denotes h car t₁ ∧ Denotes h cdr t₂ := by
  cases hd with
  | atom hl => simp [atomTree_cons hx] at hl
  | cons hx' hcar hcdr =>
    cases hx.symm.trans hx'
    exact ⟨_, _, rfl, hcar, hcdr⟩

theorem Within.trans (hw : Within h a u) (hw' : Within h u v) : Within h a v := by
  induction hw with
  | refl => exact hw'
  | car hx _ ih => exact .car hx (ih hw')
  | cdr hx _ ih => exact .cdr hx (ih hw')

theorem Denotes.finite (hd : Denotes h a t) : {x | Within h a (.obj x)}.Finite := by
  induction hd with
  | @atom v t hl =>
    refine Set.Subsingleton.finite fun y hy z hz => ?_
    have hself : ∀ {z}, Within h v (.obj z) → v = .obj z := by
      intro z hz
      cases hz with
      | refl => rfl
      | car hx _ => simp [atomTree_cons hx] at hl
      | cdr hx _ => simp [atomTree_cons hx] at hl
    exact Val.obj.inj ((hself hy).symm.trans (hself hz))
  | @cons x car cdr t t' hx _ _ ih ih' =>
    refine ((Set.finite_singleton x).union (ih.union ih')).subset fun z hz => ?_
    cases hz with
    | refl => exact .inl rfl
    | car hx' hw =>
      cases hx.symm.trans hx'
      exact .inr (.inl hw)
    | cdr hx' hw =>
      cases hx.symm.trans hx'
      exact .inr (.inr hw)

end Trees

section Pairs

/-- Objects whose components are compared, on the way from values without cycles,
are conses. -/
theorem Denotes.conses {b' : Val} {o : Obj} (hx : Denotes h (.obj x) t)
    (hc : Compares h (h x) o a b') : ∃ car cdr, h x = .cons car cdr := by
  cases hx with
  | cons hx' _ _ => exact ⟨_, _, hx'⟩
  | atom hl => simp [atomTree_compound hc.hash?_none] at hl

variable {roots : List (Val × Val)}

/-- The values met stand for trees as well, and for one tree if the first two do. -/
theorem Met.within (hmet : Met h [(a, b)] u v) (ha : Denotes h a t) (hb : Denotes h b t') :
    Within h a u ∧ ∃ t₁ t₂, Denotes h u t₁ ∧ Denotes h v t₂ ∧ (t = t' → t₁ = t₂) := by
  induction hmet with
  | root hq =>
    cases List.mem_singleton.mp hq
    exact ⟨.refl, t, t', ha, hb, id⟩
  | @step x y u v _ hne hc ih =>
    obtain ⟨hw, t₁, t₂, hx, hy, heq⟩ := ih
    obtain ⟨car1, cdr1, hx'⟩ := hx.conses hc
    rw [hx'] at hc
    obtain ⟨s₁, s₂, rfl, hcar1, hcdr1⟩ := hx.of_cons hx'
    generalize hy' : h y = o at hc
    cases hc with
    | car =>
      obtain ⟨r₁, r₂, rfl, hcar2, -⟩ := hy.of_cons hy'
      exact ⟨hw.trans (.car hx' .refl), s₁, r₁, hcar1, hcar2, fun ht => (Tree.cons.inj (heq ht)).1⟩
    | cdr =>
      obtain ⟨r₁, r₂, rfl, -, hcdr2⟩ := hy.of_cons hy'
      exact ⟨hw.trans (.cdr hx' .refl), s₂, r₂, hcdr1, hcdr2, fun ht => (Tree.cons.inj (heq ht)).2⟩

theorem Denotes.comparable (ha : Denotes h a t) (hb : Denotes h b t') :
    Comparable h [(a, b)] := by
  have hcons : ∀ {x y}, Node h [(a, b)] x y → ∃ car cdr, h x = .cons car cdr := by
    intro x y hn
    obtain ⟨-, t₁, t₂, hx, -⟩ := hn.met.within ha hb
    cases hx with
    | cons hx' _ _ => exact ⟨_, _, hx'⟩
    | atom hl => simp [atomTree_compound hn.compound] at hl
  refine ⟨fun {x y} hn => ?_, fun {x y tbl1 tbl2} hn hx => ?_, ?_⟩
  · obtain ⟨car, cdr, hx⟩ := hcons hn
    rw [hx]
    rfl
  · obtain ⟨car, cdr, hx'⟩ := hcons hn
    cases hx.symm.trans hx'
  · exact ha.finite.subset fun x ⟨y, hn⟩ => (hn.met.within ha hb).1

theorem atomTree_obj_inj (hx : atomTree h (.obj x) = some t) (hy : atomTree h (.obj y) = some t) :
    h x = h y := by
  cases hx' : h x <;> simp only [atomTree, hx', reduceCtorEq, Option.some.injEq] at hx <;>
    subst hx <;> cases hy' : h y <;>
    simp only [atomTree, hy', reduceCtorEq, Option.some.injEq, Tree.char.injEq,
      Tree.string.injEq, Tree.bignum.injEq, Tree.rational.injEq] at hy <;> rw [hy]

theorem iscmp_self (hx : atomTree h (.obj x) = some t) : iscmp (h x) (h x) = true := by
  cases hx' : h x <;> simp [atomTree, hx', iscmp, arcStrcmp_eq_zero] at hx ⊢

theorem agree_of_atomTree (hu : atomTree h u = some t) (hv : atomTree h v = some t) :
    Agree h u v := by
  by_cases huv : u = v
  · exact .inl huv
  cases u with
  | obj x =>
    cases v with
    | obj y =>
      refine .inr ⟨x, y, rfl, rfl, fun heq => huv (by rw [heq]), .inl ?_⟩
      rw [← atomTree_obj_inj hu hv]
      exact iscmp_self hu
    | _ =>
      cases hv
      cases hx : h x <;> simp [atomTree, hx] at hu
  | _ =>
    cases hu
    cases v with
    | obj y => cases hy : h y <;> simp [atomTree, hy] at hv
    | _ => simp_all [atomTree]

theorem not_atomTree_cons {t₁ t₂ : Tree} : atomTree h v ≠ some (.cons t₁ t₂) := by
  cases v with
  | obj x => cases hx : h x <;> simp [atomTree, hx]
  | _ => nofun

theorem Denotes.agree (hu : Denotes h u t) (hv : Denotes h v t) : Agree h u v := by
  cases hu with
  | atom hl =>
    cases hv with
    | atom hl' => exact agree_of_atomTree hl hl'
    | cons _ _ _ => exact absurd hl not_atomTree_cons
  | @cons x _ _ _ _ hx _ _ =>
    cases hv with
    | atom hl' => exact absurd hl' not_atomTree_cons
    | @cons y _ _ _ _ hy _ _ =>
      by_cases hxy : x = y
      · exact .inl (by rw [hxy])
      · refine .inr ⟨x, y, rfl, rfl, hxy, .inr ?_⟩
        rw [hx, hy]
        exact .cons

theorem atomTree_of_iscmp (hx : atomTree h (.obj x) = some t) (hc : iscmp (h x) (h y) = true) :
    atomTree h (.obj y) = some t := by
  rcases eq_or_zeros_of_iscmp hc with heq | ⟨w, w', hx', -⟩
  · simpa only [atomTree, heq] using hx
  · simp [atomTree, hx'] at hx

theorem Denotes.eq_of_agree (hu : Denotes h u t) (hv : Denotes h v t') (hmet : Met h roots u v)
    (hagree : ∀ {a b}, Met h roots a b → Agree h a b) : t = t' := by
  induction hu generalizing v t' with
  | @atom u t hl =>
    rcases hagree hmet with rfl | ⟨x, y, rfl, rfl, -, hc | hfits⟩
    · exact (Denotes.atom hl).unique hv
    · exact (Denotes.atom (atomTree_of_iscmp hl hc)).unique hv
    · simp [atomTree_compound hfits.hash?_none] at hl
  | @cons x car cdr t₁ t₂ hx hcar hcdr ih ih' =>
    rcases hagree hmet with rfl | ⟨x', y, hx', rfl, hne, hc | hfits⟩
    · exact (Denotes.cons hx hcar hcdr).unique hv
    · cases hx'
      rw [hx] at hc
      cases hc
    · cases hx'
      generalize hy : h y = o at hfits
      rw [hx] at hfits
      cases hfits with
      | @cons _ _ car2 cdr2 =>
        obtain ⟨s₁, s₂, rfl, hcar2, hcdr2⟩ := hv.of_cons hy
        have hstep : ∀ {a b}, Compares h (.cons car cdr) (.cons car2 cdr2) a b → Met h roots a b := by
          intro a b hab
          refine .step hmet hne ?_
          rwa [hx, hy]
        rw [ih hcar2 (hstep .car), ih' hcdr2 (hstep .cdr)]

end Pairs

section Answers

/-- Each cons on one side is met with one cons of the other side. -/
def SharedAlike (h : Heap) (a b : Val) : Prop := Matched h [(a, b)]

theorem Denotes.alike_iff (ha : Denotes h a t) (hb : Denotes h b t') :
    Alike h [(a, b)] ↔ t = t' ∧ SharedAlike h a b := by
  have hroot : Met h [(a, b)] a b := .root List.mem_cons_self
  constructor
  · intro halike
    exact ⟨ha.eq_of_agree hb hroot halike.agree, halike.matched⟩
  · rintro ⟨rfl, hmatched⟩
    refine ⟨fun {u v} hmet => ?_, hmatched⟩
    obtain ⟨-, t₁, t₂, hu, hv, heq⟩ := hmet.within ha hb
    obtain rfl := heq rfl
    exact hu.agree hv

theorem Met.swap (hmet : Met h [(a, b)] u v) (ha : Denotes h a t) (hb : Denotes h b t') :
    Met h [(b, a)] v u := by
  induction hmet with
  | root hq =>
    cases List.mem_singleton.mp hq
    exact .root List.mem_cons_self
  | @step x y u v hxy hne hc ih =>
    obtain ⟨-, t₁, t₂, hx, -⟩ := hxy.within ha hb
    obtain ⟨car1, cdr1, hx'⟩ := hx.conses hc
    refine .step ih hne.symm ?_
    rw [hx'] at hc ⊢
    generalize h y = o at hc ⊢
    cases hc with
    | car => exact .car
    | cdr => exact .cdr

theorem Node.swap (hn : Node h [(a, b)] x y) (ha : Denotes h a t) (hb : Denotes h b t') :
    Node h [(b, a)] y x := by
  refine ⟨hn.met.swap ha hb, hn.ne.symm, hn.type.symm, ?_⟩
  have htype := hn.type
  have hcomp := hn.compound
  cases hx : h x <;> simp [hx, Obj.hash?] at hcomp <;>
    cases hy : h y <;> simp [hx, hy, Obj.type, Obj.hash?] at htype ⊢

theorem KeysApart.swap (hap : KeysApart h [(a, b)]) (ha : Denotes h a t) (hb : Denotes h b t') :
    KeysApart h [(b, a)] where
  left hn hn' := hap.right (hn.swap hb ha) (hn'.swap hb ha)
  right hn hn' := hap.left (hn.swap hb ha) (hn'.swap hb ha)

theorem SharedAlike.swap (hs : SharedAlike h a b) (ha : Denotes h a t) (hb : Denotes h b t') :
    SharedAlike h b a :=
  fun hn hn' => (hs (hn.swap hb ha) (hn'.swap hb ha)).symm

theorem isoAnswer_of_denotes (vh1 vh2 : Val) (ha : Denotes h a t) (hb : Denotes h b t')
    (hap : KeysApart h [(a, b)]) :
    ∃ r, IsoAnswer h vh1 vh2 a b r ∧ (r = true ↔ t = t' ∧ SharedAlike h a b) := by
  obtain ⟨r, s', hs, hr⟩ := @compareAll_answers _ _ vh1 vh2 hap (ha.comparable hb)
  refine ⟨r, ?_, hr.trans (ha.alike_iff hb)⟩
  filter_upwards [hs] with fuel hfuel
  exact arcIso_ok_iff.mpr ⟨s', hfuel⟩

theorem isoAnswer_self (h : Heap) (vh1 vh2 a : Val) : IsoAnswer h vh1 vh2 a a true := by
  filter_upwards [eventually_ge_atTop 1] with fuel hfuel
  obtain ⟨n, rfl⟩ : ∃ n, fuel = n + 1 := ⟨fuel - 1, by omega⟩
  refine arcIso_ok_iff.mpr ⟨newVisits, ?_⟩
  have hself : Yields (arcIso2 h vh1 vh2 (n + 1) a a) newVisits true newVisits := by
    unfold arcIso2
    rw [if_pos rfl]
    rfl
  exact hself.bind yields_pure

/-- On values without cycles `iso` comes to an answer, whatever the order of the
values: `t` exactly when they stand for one tree and share their conses alike. -/
theorem arcIso_conses (vh1 vh2 : Val) (ha : Denotes h a t) (hb : Denotes h b t')
    (hap : KeysApart h [(a, b)]) :
    ∃ r, IsoAnswer h vh1 vh2 a b r ∧ IsoAnswer h vh1 vh2 b a r ∧ IsoAnswer h vh1 vh2 a a true ∧
      (r = true ↔ t = t' ∧ SharedAlike h a b) := by
  obtain ⟨r, hr, hiff⟩ := isoAnswer_of_denotes vh1 vh2 ha hb hap
  obtain ⟨r', hr', hiff'⟩ := isoAnswer_of_denotes vh1 vh2 hb ha (hap.swap ha hb)
  have hsame : r = r' := by
    rw [Bool.eq_iff_iff, hiff, hiff']
    exact and_congr eq_comm ⟨fun hs => hs.swap ha hb, fun hs => hs.swap hb ha⟩
  subst hsame
  exact ⟨r, hr, hr', isoAnswer_self h vh1 vh2 a, hiff⟩

end Answers

section Sharing

/-- Some objects have one visit key: a key has one bit less than an address. -/
theorem key_collides : ∃ x y, x < 2 ^ 64 ∧ y < 2 ^ 64 ∧ x ≠ y ∧ key x = key y := by
  let low (x : Nat) : BitVec 63 := BitVec.setWidth 63
    (arcHashFinal (arcHashUpdate (arcHashInit 0) (Val.obj x).word) 1)
  let f (x : Fin (2 ^ 64)) : Fin (2 ^ 63) := (low x).toFin
  have hcard : Fintype.card (Fin (2 ^ 63)) < Fintype.card (Fin (2 ^ 64)) := by
    rw [Fintype.card_fin, Fintype.card_fin]
    norm_num
  obtain ⟨x, y, hne, heq⟩ := Fintype.exists_ne_map_eq_of_card_lt f hcard
  have hlow : low x = low y := BitVec.toFin_inj.mp heq
  exact ⟨x, y, x.isLt, y.isLt, fun h => hne (Fin.ext h), congrArg BitVec.toInt hlow⟩

/-- Pairs of lists of one nil: one list twice, two lists, and one of each. -/
def pairHeap : Heap := fun x =>
  if x = 16 then .cons (.obj 112) (.obj 112)
  else if x = 32 then .cons (.obj 64) (.obj 80)
  else if x = 48 then .cons (.obj 112) (.obj 96)
  else .cons .nil .nil

/-- The three pairs stand for one tree. `iso` tells the first two apart, and takes
both for the third. -/
theorem iso_pairHeap :
    (∀ a ∈ [16, 32, 48], Denotes pairHeap (.obj a) (.cons (.cons .nil .nil) (.cons .nil .nil))) ∧
      arcIso pairHeap .nil .nil 20 [.obj 16, .obj 32] = .ok false ∧
      arcIso pairHeap .nil .nil 20 [.obj 16, .obj 48] = .ok true ∧
      arcIso pairHeap .nil .nil 20 [.obj 48, .obj 32] = .ok true := by
  have hnil : Denotes pairHeap .nil .nil := .atom rfl
  have hlist : ∀ x ∈ [64, 80, 96, 112], Denotes pairHeap (.obj x) (.cons .nil .nil) := by
    intro x hx
    have hcons : pairHeap x = .cons .nil .nil := by
      fin_cases hx <;> rfl
    exact .cons hcons hnil hnil
  refine ⟨?_, by decide +kernel, by decide +kernel, by decide +kernel⟩
  intro a ha
  fin_cases ha
  · exact .cons rfl (hlist 112 (by simp)) (hlist 112 (by simp))
  · exact .cons rfl (hlist 64 (by simp)) (hlist 80 (by simp))
  · exact .cons rfl (hlist 112 (by simp)) (hlist 96 (by simp))

section Lists

/-- Every object a list of one nil. -/
theorem denotes_list (x : Nat) : Denotes (fun _ => .cons .nil .nil) (.obj x) (.cons .nil .nil) :=
  .cons rfl (.atom rfl) (.atom rfl)

variable {x y x' y' : Nat}

theorem node_lists (hn : Node (fun _ => .cons .nil .nil) [(.obj x, .obj y)] x' y') :
    x' = x ∧ y' = y := by
  have hmet : ∀ {u v}, Met (fun _ => .cons .nil .nil) [(.obj x, .obj y)] u v →
      u = .obj x ∧ v = .obj y ∨ u = .nil ∧ v = .nil := by
    intro u v hm
    cases hm with
    | root hq =>
      cases List.mem_singleton.mp hq
      exact .inl ⟨rfl, rfl⟩
    | step _ _ hc => cases hc <;> exact .inr ⟨rfl, rfl⟩
  rcases hmet hn.met with ⟨hx, hy⟩ | ⟨hx, -⟩
  · exact ⟨Val.obj.inj hx, Val.obj.inj hy⟩
  · cases hx

theorem keysApart_lists : KeysApart (fun _ => .cons .nil .nil) [(.obj x, .obj y)] where
  left hn hn' _ := by rw [(node_lists hn).1, (node_lists hn').1]
  right hn hn' _ := by rw [(node_lists hn).2, (node_lists hn').2]

theorem isoAnswer_lists (vh1 vh2 : Val) (x y : Nat) :
    IsoAnswer (fun _ => .cons .nil .nil) vh1 vh2 (.obj x) (.obj y) true := by
  obtain ⟨r, hr, hiff⟩ := isoAnswer_of_denotes vh1 vh2 (denotes_list x) (denotes_list y) keysApart_lists
  have hshared : SharedAlike (fun _ => .cons .nil .nil) (.obj x) (.obj y) := by
    intro x₁ y₁ x₂ y₂ hn hn'
    rw [(node_lists hn).1, (node_lists hn).2, (node_lists hn').1, (node_lists hn').2]
    simp
  rwa [hiff.mpr ⟨rfl, hshared⟩] at hr

/-- Two lists of one nil. -/
theorem arcIso_conses_lists : ∃ r, IsoAnswer (fun _ => .cons .nil .nil) .nil .nil (.obj 16) (.obj 32) r ∧
    (r = true ↔ Tree.cons .nil .nil = .cons .nil .nil ∧
      SharedAlike (fun _ => .cons .nil .nil) (.obj 16) (.obj 32)) := by
  obtain ⟨r, hr, -, -, hiff⟩ := arcIso_conses .nil .nil (denotes_list 16) (denotes_list 32) keysApart_lists
  exact ⟨r, hr, hiff⟩

end Lists

end Sharing

end Arcueid.Objects
