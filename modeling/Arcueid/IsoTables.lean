import Arcueid.IsoVectors
import Arcueid.SimpleKeys

/-! `iso` of tables: the bindings of the left table are looked up in the right one
through the simple interface. -/

namespace Arcueid.Objects

open Filter Outcome Settling

variable {h : Heap} {vh1 vh2 a b : Val} {tbl1 tbl2 : Table Val Val} {x y i : Nat}

section Spec

/-- The tables count as many bindings, and each binding of the left one has in the
right one a binding with an `iso` key and an `iso` value. -/
structure SameBindings (h : Heap) (vh1 vh2 : Val) (tbl1 tbl2 : Table Val Val) : Prop where
  count : tbl1.nentries = tbl2.nentries
  binding : ∀ {i e v}, i < tbl1.tablesize → tbl1.slot i = .bucket e → e.bvalue = some v →
    ∃ j e' v', tbl2.slot j = .bucket e' ∧ e'.bvalue = some v' ∧
      IsoHolds h vh1 vh2 [e.bkey, e'.bkey] ∧ IsoHolds h vh1 vh2 [v, v']

/-- What `iso` of two tables is to do. -/
def TableLaw (h : Heap) (vh1 vh2 : Val) (x y : Nat) (tbl1 tbl2 : Table Val Val) : Prop :=
  ∃ r, IsoAnswer h vh1 vh2 (.obj x) (.obj y) r ∧
    (r = true ↔ SameBindings h vh1 vh2 tbl1 tbl2)

/-- The simple lookup of each key of the left table ends, and finds a value in the right
table that is `iso` to the key's own. -/
def FoundSimply (h : Heap) (vh1 vh2 : Val) (tbl1 tbl2 : Table Val Val) : Prop :=
  ∀ i, i < tbl1.tablesize → SlotFits h tbl1 tbl2 i ∧
    ∀ a b, SlotPair h tbl1 tbl2 i a b → IsoHolds h vh1 vh2 [a, b]

end Spec

section Keys

theorem iscmp_comm {o o' : Obj} (heq : iscmp o o' = true) : iscmp o' o = true := by
  rcases eq_or_zeros_of_iscmp heq with rfl | ⟨w, w', rfl, rfl, hz⟩
  · exact heq
  · have hiff := flonumEq_iff.mp heq
    exact flonumEq_iff.mpr ⟨hiff.2.1, hiff.1, .inr ⟨hz.2.1, hz.1, Ne.symm hz.2.2⟩⟩

theorem simple_of_iscmp {o o' : Obj} (heq : iscmp o o' = true) : o.simple = true := by
  cases o <;> first | rfl | (cases o' <;> cases heq)

theorem isoHolds_of_arcIs2 (his : arcIs2 h b a = true) : IsoHolds h vh1 vh2 [a, b] := by
  by_cases hab : a = b
  · subst hab
    exact isoHolds_self h vh1 vh2 a
  · simp only [arcIs2, Ne.symm hab, if_false] at his
    split at his
    · cases his
    · next htype =>
      cases b with
      | obj y =>
        cases a with
        | obj x =>
          have hcmp := iscmp_comm his
          have hsimple : SimpleKey h (.obj x) := simple_of_iscmp hcmp
          refine eventually_atTop.mpr ⟨1, fun n hn => ?_⟩
          obtain ⟨m, rfl⟩ : ∃ m, n = m + 1 := ⟨n - 1, by omega⟩
          rw [arcIso_simple hsimple]
          simp only [arcIs2, hab, not_not.mp htype, ne_eq, not_true_eq_false, if_false, hcmp]
        | _ => cases his
      | _ => cases his

/-- What the simple lookup finds is the value of a binding whose key is the same. -/
theorem Finds.binding {key v : Val} (hf : Finds h tbl2 key (some v)) :
    ∃ j e, tbl2.slot j = .bucket e ∧ e.bvalue = some v ∧ arcIs2 h e.bkey key = true := by
  obtain ⟨fuel, hl⟩ := hf
  unfold lookupKey at hl
  cases hh : arcHash h key with
  | error e => simp [hh, Bind.bind, Except.bind] at hl
  | ok hv =>
    simp only [hh, Bind.bind, Except.bind] at hl
    cases hp : probeFor fuel (simpleKeying h) tbl2 key with
    | none => simp [arcHashLookup, hashLookup, hp] at hl
    | some p =>
      obtain ⟨j, e⟩ := p
      simp only [arcHashLookup, hashLookup, hp, Option.bind_eq_bind, Option.bind_some,
        Option.pure_def, Except.ok.injEq] at hl
      cases e with
      | none => cases hl
      | some e =>
        obtain ⟨-, n, -, -, hstop, -⟩ := probeFor_eq_some_iff.mp hp
        have hslot := slot_of_probeFor hp
        rw [hslot] at hstop
        exact ⟨j, e, hslot, hl, hstop⟩

theorem FoundSimply.binding (hfound : FoundSimply h vh1 vh2 tbl1 tbl2) {e : Bucket Val Val}
    {v : Val} (hi : i < tbl1.tablesize) (he : tbl1.slot i = .bucket e) (hv : e.bvalue = some v) :
    ∃ j e' v', tbl2.slot j = .bucket e' ∧ e'.bvalue = some v' ∧
      IsoHolds h vh1 vh2 [e.bkey, e'.bkey] ∧ IsoHolds h vh1 vh2 [v, v'] := by
  obtain ⟨hfits, hpairs⟩ := hfound i hi
  obtain ⟨w, hf, hsome⟩ := hfits e he
  rw [hv] at hsome
  cases w with
  | none => cases hsome
  | some v' =>
    obtain ⟨j, e', hslot, hval, his⟩ := hf.binding
    exact ⟨j, e', v', hslot, hval, isoHolds_of_arcIs2 his, hpairs v v' ⟨e, he, hv, hf⟩⟩

end Keys

section Visits

theorem isoVisit_new (v1 v2 : Val) : ∃ s,
    Settles (fun n => isoVisit n v1 v2 fun vhh1 => pure (some vhh1)) newVisits none s := by
  obtain ⟨s, hfirst, hsecond, hvh2⟩ := visit1_new v1
  obtain ⟨s', hthird⟩ := visit2_new v2 (some (.fixnum (arcVisitkey v1))) hvh2
  refine ⟨s', hfirst.bind ?_⟩
  simp only [ne_eq, not_true_eq_false, if_false]
  refine hsecond.bind (Settles.bind settles_pure (hthird.bind ?_))
  simp only [not_true_eq_false, if_false]
  exact settles_pure

theorem isoAnswer_of_settles {r : Bool} {s : Visits}
    (hs : Settles (fun n => arcIso2 h vh1 vh2 n a b) newVisits r s) :
    IsoAnswer h vh1 vh2 a b r := by
  filter_upwards [hs] with fuel hfuel
  refine arcIso_ok_iff.mpr ⟨s, Yields.bind hfuel ?_⟩
  cases r with
  | false => exact yields_pure
  | true => exact yields_pure

theorem isoAnswer_unique {r r' : Bool} (hr : IsoAnswer h vh1 vh2 a b r)
    (hr' : IsoAnswer h vh1 vh2 a b r') : r = r' := by
  obtain ⟨fuel, hfuel, hfuel'⟩ := (hr.and hr').exists
  rw [hfuel] at hfuel'
  exact Except.ok.inj hfuel'

end Visits

section Tables

variable (hx : h x = .table tbl1) (hy : h y = .table tbl2)
include hx hy

/-- Tables that count differently are told apart at once. -/
theorem isoAnswer_of_count (hne : x ≠ y) (hcount : tbl1.nentries ≠ tbl2.nentries) :
    IsoAnswer h vh1 vh2 (.obj x) (.obj y) false := by
  obtain ⟨s, hvisit⟩ := isoVisit_new (.obj x) (.obj y)
  have hcmp : Settles (fun n => hashIsocmp n (arcIso2 h vh1 vh2 n) h (.obj x) (.obj y) tbl1 tbl2)
      newVisits false s := by
    refine hvisit.bind ?_
    simp only [hcount, ne_eq, not_false_eq_true, if_true]
    exact settles_pure
  refine isoAnswer_of_settles (hcmp.succ fun n => ?_)
  simp only [arcIso2, Val.obj.injEq, hne, typeOf, hx, hy, Obj.type, ne_eq, not_true_eq_false,
    if_false]
  rfl

theorem met_slotPair (hne : x ≠ y) (hcount : tbl1.nentries = tbl2.nentries)
    (hi : i < tbl1.tablesize) (hpair : SlotPair h tbl1 tbl2 i a b) :
    Met h [(.obj x, .obj y)] a b := by
  refine .step (.root List.mem_cons_self) hne ?_
  rw [hx, hy]
  exact .slot hcount hi hpair

/-- What is met is the two tables, or is met from the values of a binding. -/
theorem Met.of_tables (hmet : Met h [(.obj x, .obj y)] a b) :
    (a = .obj x ∧ b = .obj y) ∨ ∃ i u v, i < tbl1.tablesize ∧ SlotPair h tbl1 tbl2 i u v ∧
      Met h [(u, v)] a b := by
  induction hmet with
  | root hq =>
    cases List.mem_singleton.mp hq
    exact .inl ⟨rfl, rfl⟩
  | @step x' y' a b _ hne hc ih =>
    rcases ih with ⟨hx', hy'⟩ | ⟨i, u, v, hi, hpair, hm⟩
    · cases hx'
      cases hy'
      rw [hx, hy] at hc
      cases hc with
      | @slot _ _ i _ _ _ hi hpair => exact .inr ⟨i, a, b, hi, hpair, .root List.mem_cons_self⟩
    · exact .inr ⟨i, u, v, hi, hpair, .step hm hne hc⟩

variable (hap : KeysApart h [(.obj x, .obj y)]) (hns : NoSlot h [(.obj x, .obj y)])
  (hfin : {z | ∃ z', Node h [(.obj x, .obj y)] z z'}.Finite)
include hap hns hfin

/-- The tables are alike when the simple lookups find `iso` values, and what is met is
matched one to one. -/
theorem alike_tables_iff (hne : x ≠ y) (hcount : tbl1.nentries = tbl2.nentries) :
    Alike h [(.obj x, .obj y)] ↔
      FoundSimply h vh1 vh2 tbl1 tbl2 ∧ Matched h [(.obj x, .obj y)] := by
  have hpairs : ∀ {i u v}, i < tbl1.tablesize → SlotPair h tbl1 tbl2 i u v →
      (IsoHolds h vh1 vh2 [u, v] ↔ Alike h [(u, v)]) := by
    intro i u v hi hpair
    have hsub : ∀ q ∈ [(u, v)], Met h [(.obj x, .obj y)] q.1 q.2 := by
      intro q hq
      obtain rfl := List.mem_singleton.mp hq
      exact met_slotPair hx hy hne hcount hi hpair
    exact isoHolds_iff (hap.mono hsub) (hns.mono hsub) (nodes_finite_mono hsub hfin)
  constructor
  · intro halike
    refine ⟨fun i hi => ⟨?_, fun a b hpair => (hpairs hi hpair).mpr (halike.mono ?_)⟩,
      halike.matched⟩
    · have hfits := (halike.agree (.root List.mem_cons_self)).fits hne (by rw [hx]; rfl)
      rw [hx, hy] at hfits
      cases hfits with
      | table _ hslots => exact hslots i hi
    · intro q hq
      obtain rfl := List.mem_singleton.mp hq
      exact met_slotPair hx hy hne hcount hi hpair
  · rintro ⟨hfound, hmatched⟩
    refine ⟨fun {a b} hmet => ?_, hmatched⟩
    rcases hmet.of_tables hx hy with ⟨rfl, rfl⟩ | ⟨i, u, v, hi, hpair, hm⟩
    · refine .inr ⟨x, y, rfl, rfl, hne, .inr ?_⟩
      rw [hx, hy]
      exact .table hcount fun i hi => (hfound i hi).1
    · exact ((hpairs hi hpair).mp ((hfound i hi).2 u v hpair)).agree hm

theorem tableLaw_iff_of_same (hne : x ≠ y) (hsame : SameBindings h vh1 vh2 tbl1 tbl2) :
    TableLaw h vh1 vh2 x y tbl1 tbl2 ↔
      FoundSimply h vh1 vh2 tbl1 tbl2 ∧ Matched h [(.obj x, .obj y)] := by
  rw [← alike_tables_iff hx hy hap hns hfin hne hsame.count]
  have hiff : IsoHolds h vh1 vh2 [.obj x, .obj y] ↔ Alike h [(.obj x, .obj y)] :=
    isoHolds_iff hap hns hfin
  rw [← hiff]
  constructor
  · rintro ⟨r, hr, hlaw⟩
    rw [hlaw.mpr hsame] at hr
    exact hr
  · intro hholds
    exact ⟨true, hholds, iff_of_true rfl hsame⟩

omit hns hfin in
theorem tableLaw_of_comparable (hne : x ≠ y) (hcount : tbl1.nentries = tbl2.nentries)
    (hsame : ¬ SameBindings h vh1 vh2 tbl1 tbl2) (hc : Comparable h [(.obj x, .obj y)]) :
    TableLaw h vh1 vh2 x y tbl1 tbl2 := by
  obtain ⟨r, s, hs, hr⟩ : ∃ r s, Settles (fun fuel => compareAll (arcIso2 h vh1 vh2 fuel)
      [(.obj x, .obj y)]) newVisits r s ∧ (r = true ↔ Alike h [(.obj x, .obj y)]) :=
    compareAll_answers hap hc
  refine ⟨r, ?_, iff_of_false (fun htrue => hsame ⟨hcount, fun hi he hv => ?_⟩) hsame⟩
  · filter_upwards [hs] with fuel hfuel
    exact arcIso_ok_iff.mpr ⟨s, hfuel⟩
  · have halike : Alike h [(.obj x, .obj y)] ↔
        FoundSimply h vh1 vh2 tbl1 tbl2 ∧ Matched h [(.obj x, .obj y)] :=
      alike_tables_iff hx hy hap hc.noSlot hc.finite hne hcount
    exact (halike.mp (hr.mp htrue)).1.binding hi he hv

end Tables

theorem sameBindings_self (h : Heap) (vh1 vh2 : Val) (tbl : Table Val Val) :
    SameBindings h vh1 vh2 tbl tbl := by
  refine ⟨rfl, fun {i e v} _ he hv => ?_⟩
  exact ⟨i, e, v, he, hv, isoHolds_self h vh1 vh2 _, isoHolds_self h vh1 vh2 v⟩

section Examples

/-- One binding, whose key is the cons at 48. -/
def consKeyTable : Table Val Val :=
  ⟨1, 1, 1, fun i => if i = 0 then .bucket ⟨0, .obj 48, some (.fixnum 7), 0⟩ else .cunbound⟩

/-- Tables of one binding under the key `(1)`, the same cons in both. -/
def consKeyHeap (a : Nat) : Obj := if a = 48 then .cons (.fixnum 1) .nil else .table consKeyTable

theorem not_finds_consKey {v : Option Val} : ¬ Finds consKeyHeap consKeyTable (.obj 48) v := by
  rintro ⟨fuel, hl⟩
  cases hl

theorem node_consKeyHeap (hn : Node consKeyHeap [(.obj 16, .obj 32)] x y) : x = 16 ∧ y = 32 := by
  rcases hn.met.of_tables rfl rfl with ⟨hx, hy⟩ | ⟨i, u, v, -, ⟨e, he, -, hfinds⟩, -⟩
  · exact ⟨Val.obj.inj hx, Val.obj.inj hy⟩
  · have hkey : e.bkey = .obj 48 := by
      dsimp only [consKeyTable] at he
      split at he
      · cases he
        rfl
      · cases he
    rw [hkey] at hfinds
    exact absurd hfinds not_finds_consKey

theorem keysApart_consKeyHeap : KeysApart consKeyHeap [(.obj 16, .obj 32)] where
  left hn hn' _ := by rw [(node_consKeyHeap hn).1, (node_consKeyHeap hn').1]
  right hn hn' _ := by rw [(node_consKeyHeap hn).2, (node_consKeyHeap hn').2]

theorem noSlot_consKeyHeap : NoSlot consKeyHeap [(.obj 16, .obj 32)] := by
  intro x y hn hvec
  rw [(node_consKeyHeap hn).1] at hvec
  cases hvec

theorem finite_consKeyHeap : {z | ∃ z', Node consKeyHeap [(.obj 16, .obj 32)] z z'}.Finite := by
  refine (Set.finite_singleton 16).subset ?_
  rintro z ⟨z', hn⟩
  exact (node_consKeyHeap hn).1

end Examples

end Arcueid.Objects
