import Mathlib.Tactic.IntervalCases
import Arcueid.IsoConses
import Arcueid.Pairwise

/-! `iso` of vectors: the mark of the right vector is read from the frame at the
visit key, and the elements at the word that holds the counter. -/

namespace Arcueid.Objects

open Filter Outcome Settling

variable {h : Heap} {vh1 vh2 v1 v2 : Val} {elts1 elts2 : List Val} {x y : Nat} {s s' : Visits}

section Visiting

/-- The visits of the left object in a new comparison: the first leaves the key that
the second gives back. -/
theorem visit1_new (v1 : Val) : ∃ s, Settles (fun n => visit1 n v1) newVisits .nil s ∧
    Settles (fun n => visit1 n v1) s (.fixnum (arcVisitkey v1)) s ∧ s.vh2 = newVisits.vh2 := by
  have hnew : Seen newVisits.vh1 fun _ => none := seen_arcMkhash
  obtain ⟨w, s, hfirst, -, hvh2⟩ := visit1_settles ⟨_, hnew⟩ v1
  obtain ⟨n, hn⟩ := hfirst.exists
  obtain ⟨tbl, hvisit, rfl⟩ := visit1_ok hn
  rcases hnew.visit2_ok hvisit with ⟨hnone, -⟩ | ⟨-, rfl, hseen⟩
  · cases hnone
  obtain ⟨w', s', hsecond, -, -⟩ := visit1_settles (s := { newVisits with vh1 := tbl }) ⟨_, hseen⟩ v1
  obtain ⟨n', hn'⟩ := hsecond.exists
  obtain ⟨tbl', hvisit', rfl⟩ := visit1_ok hn'
  refine ⟨_, hfirst, ?_, hvh2⟩
  rcases hseen.visit2_ok hvisit' with ⟨hsome, rfl⟩ | ⟨hnone, -⟩
  · simp only [Function.update_self, Option.some.injEq, visitMark, if_true] at hsome
    rwa [hsome]
  · simp at hnone

/-- The first visit of the right object, whatever its mark is. -/
theorem visit2_new (v2 : Val) (mykeyval : Option Val) (hs : s.vh2 = newVisits.vh2) :
    ∃ s', Settles (fun n => visit2 n v2 mykeyval) s .nil s' := by
  have hr := arcMkhash_refines (V := Val) fixnumLawful arcHashbits
  obtain ⟨N, ⟨tbl, r⟩, hins⟩ := (arcHashInsert_terminates_iff
    (if mykeyval = some .nil then some (.fixnum (arcVisitkey v2)) else mykeyval) hr.sized).mpr
    ((arcMkhash_fresh _).probe_ends hr.sized fixnumKeying (arcVisitkey v2))
  refine ⟨{ s with vh2 := tbl }, ?_⟩
  filter_upwards [seen_arcMkhash.lookup (arcVisitkey v2), eventually_ge_atTop N] with n hl hn
  have hvisit : arcVisit2 n v2 s.vh2 mykeyval = .ok (.nil, tbl) := by
    rw [hs]
    simp [arcVisit2, newVisits, hl, arcHashInsert_mono hn hins]
  simp only [visit2]
  rw [bind_of_ok rfl, hvisit]
  rfl

end Visiting

section Vectors

variable {iso2 : ℕ → Val → Val → IsoM Bool}

/-- The visit key, as an index, is the number of a slot of the frame. -/
def NamesSlot (x : Nat) : Prop :=
  0 ≤ frameIndex (.fixnum (key x)) ∧ frameIndex (.fixnum (key x)) ≤ 5

instance (x : Nat) : Decidable (NamesSlot x) := inferInstanceAs (Decidable (_ ∧ _))

theorem vectorFrame_inside (vh1 vh2 v1 v2 : Val) (hx : NamesSlot x) :
    ∃ mark, vectorFrame v1 v2 vh1 vh2 (frameIndex (.fixnum (key x))) = .ok mark := by
  obtain ⟨hlo, hhi⟩ := hx
  generalize frameIndex (.fixnum (key x)) = index at hlo hhi
  interval_cases index <;> exact ⟨_, rfl⟩

/-- With a mark from outside of the frame the comparison fails there. -/
theorem vectorIsocmp_outside (hindex : frameIndex (.fixnum (arcVisitkey v1)) < 0 ∨
      5 < frameIndex (.fixnum (arcVisitkey v1))) :
    ∀ᶠ n in atTop, vectorIsocmp n (iso2 n) vh1 vh2 v1 v2 elts1 elts2 newVisits =
      .error (.outsideFrame (frameIndex (.fixnum (arcVisitkey v1)))) := by
  obtain ⟨s, hfirst, hsecond, -⟩ := visit1_new v1
  filter_upwards [hfirst, hsecond] with n hn hn'
  refine bind_of_error ?_
  unfold isoVisit
  rw [bind_of_ok hn, if_neg (by simp), bind_of_ok hn']
  refine bind_of_error ?_
  simp only [vectorFrame_outside hindex]
  rfl

/-- With a mark from the frame the comparison gets to the lengths. -/
theorem vectorIsocmp_inside {mark : Option Val}
    (hmark : vectorFrame v1 v2 vh1 vh2 (frameIndex (.fixnum (arcVisitkey v1))) = .ok mark) :
    ∃ s, ∀ᶠ n in atTop, vectorIsocmp n (iso2 n) vh1 vh2 v1 v2 elts1 elts2 newVisits =
      if elts1.length ≠ elts2.length then .ok (false, s)
      else vectorLoop (iso2 n) elts1 elts2 elts1.length 0 s := by
  obtain ⟨s, hfirst, hsecond, hvh2⟩ := visit1_new v1
  obtain ⟨s', hthird⟩ := visit2_new v2 mark hvh2
  refine ⟨s', ?_⟩
  filter_upwards [hfirst, hsecond, hthird] with n hn hn' hn''
  have hvisit : isoVisit n v1 v2 (fun vhh1 => vectorFrame v1 v2 vh1 vh2 (frameIndex vhh1)) newVisits =
      .ok (none, s') := by
    unfold isoVisit
    rw [bind_of_ok hn, if_neg (by simp), bind_of_ok hn']
    simp only [hmark]
    refine (bind_of_ok rfl).trans ?_
    rw [bind_of_ok hn'', if_neg (by simp)]
    rfl
  unfold vectorIsocmp
  rw [bind_of_ok hvisit]
  by_cases hlen : elts1.length = elts2.length
  · simp [hlen]
  · simp only [hlen, ne_eq, not_false_eq_true, if_true]
    rfl

theorem vindex_ok {elts : List Val} {i : Int} {v : Val} (hv : vindex elts i = .ok v) :
    i < elts.length := by
  unfold vindex at hv
  split at hv
  · cases hv
  · split at hv
    · have hlt := (List.getElem?_eq_some_iff.mp ‹_›).1
      omega
    · cases hv

/-- The loop comes to its end only with all the words it counts below the length. -/
theorem vectorLoop_fixWord_lt {iso2 : Val → Val → IsoM Bool} {n i : Nat}
    (hv : Yields (vectorLoop iso2 elts1 elts2 n i) s true s') :
    ∀ j, i ≤ j → j < i + n → fixWord j < elts1.length := by
  induction n generalizing i s with
  | zero =>
    intro j hj hj'
    omega
  | succ n ih =>
    intro j hj hj'
    obtain ⟨a, s₁, ha, hrest⟩ := yields_bind hv
    obtain ⟨b, s₂, -, hcmp⟩ := yields_bind hrest
    obtain ⟨r, s₃, -, hend⟩ := yields_bind hcmp
    rcases Nat.eq_or_lt_of_le hj with rfl | hlt
    · exact vindex_ok (yields_lift_iff.mp ha).1
    · cases r with
      | false => cases (yields_pure_iff.mp hend).1
      | true => exact ih hend j (by omega) (by omega)

theorem vectorLoop_not_true {iso2 : Val → Val → IsoM Bool} (hne : elts1 ≠ []) :
    ¬ Yields (vectorLoop iso2 elts1 elts2 elts1.length 0) s true s' := by
  intro hv
  have hpos := List.length_pos_of_ne_nil hne
  have hlt := vectorLoop_fixWord_lt hv (elts1.length - 1) (by omega) (by omega)
  unfold fixWord at hlt
  omega

end Vectors

/-- The run stays inside of the vectors and of the frame. -/
def InRange (h : Heap) (vh1 vh2 : Val) (list : List Val) : Prop :=
  ∀ᶠ fuel in atTop, ∀ i, arcIso h vh1 vh2 fuel list ≠ .error (.outsideFrame i) ∧
    arcIso h vh1 vh2 fuel list ≠ .error (.outsideVector i)

/-- Vectors of one length whose elements are `iso`, index by index. -/
def SameElements (h : Heap) (vh1 vh2 : Val) (elts1 elts2 : List Val) : Prop :=
  elts1.length = elts2.length ∧ ∀ (i : Nat) (a b : Val), elts1[i]? = some a → elts2[i]? = some b →
    IsoHolds h vh1 vh2 [a, b]

/-- What `iso` of two vectors is to do. -/
structure VectorLaw (h : Heap) (vh1 vh2 v1 v2 : Val) (elts1 elts2 : List Val) : Prop where
  inRange : InRange h vh1 vh2 [v1, v2]
  iso : IsoHolds h vh1 vh2 [v1, v2] ↔ SameElements h vh1 vh2 elts1 elts2

section Law

theorem isoHolds_self (h : Heap) (vh1 vh2 v : Val) : IsoHolds h vh1 vh2 [v, v] :=
  isoAnswer_self h vh1 vh2 v

theorem vectorLaw_self (h : Heap) (vh1 vh2 v : Val) (elts : List Val) :
    VectorLaw h vh1 vh2 v v elts elts where
  inRange := by
    filter_upwards [isoHolds_self h vh1 vh2 v] with fuel hfuel i
    simp [hfuel]
  iso := by
    refine iff_of_true (isoHolds_self h vh1 vh2 v) ⟨rfl, fun i a b ha hb => ?_⟩
    rw [ha] at hb
    cases hb
    exact isoHolds_self h vh1 vh2 a

variable (hx : h x = .vector elts1) (hy : h y = .vector elts2) (hne : x ≠ y)
include hx hy hne

theorem arcIso2_vectors (n : Nat) : arcIso2 h vh1 vh2 (n + 1) (.obj x) (.obj y) =
    vectorIsocmp n (arcIso2 h vh1 vh2 n) vh1 vh2 (.obj x) (.obj y) elts1 elts2 := by
  simp only [arcIso2, Val.obj.injEq, hne, typeOf, hx, hy, Obj.type, ne_eq, not_true_eq_false,
    if_false]
  rfl

theorem arcIso_vectors_ok {n : Nat} {r : Bool} (hv : vectorIsocmp n (arcIso2 h vh1 vh2 n) vh1 vh2
      (.obj x) (.obj y) elts1 elts2 newVisits = .ok (r, s)) :
    arcIso h vh1 vh2 (n + 1) [.obj x, .obj y] = .ok r := by
  rw [← arcIso2_vectors hx hy hne] at hv
  refine arcIso_ok_iff.mpr ⟨s, ?_⟩
  refine Yields.bind hv ?_
  cases r with
  | false => exact yields_pure
  | true => exact yields_pure

theorem arcIso_vectors_error {n : Nat} {e : Fault} (hv : vectorIsocmp n (arcIso2 h vh1 vh2 n) vh1
      vh2 (.obj x) (.obj y) elts1 elts2 newVisits = .error e) :
    arcIso h vh1 vh2 (n + 1) [.obj x, .obj y] = .error e := by
  rw [← arcIso2_vectors hx hy hne] at hv
  rw [arcIso, pairwise_eq_compareAll]
  refine congrArg (· >>= fun p => pure p.1) (?_ : compareAll _ _ _ = .error e)
  exact bind_of_error hv

/-- Distinct vectors are outside of the frame unless the key names one of its slots. -/
theorem not_inRange (hslot : ¬ NamesSlot x) : ¬ InRange h vh1 vh2 [.obj x, .obj y] := by
  intro hin
  have hindex : frameIndex (.fixnum (key x)) < 0 ∨ 5 < frameIndex (.fixnum (key x)) := by
    unfold NamesSlot at hslot
    omega
  have hout := @vectorIsocmp_outside vh1 vh2 _ (.obj y) elts1 elts2 (arcIso2 h vh1 vh2) hindex
  obtain ⟨n, hn, hn'⟩ := (((tendsto_add_atTop_nat 1).eventually hin).and hout).exists
  exact (hn _).1 (arcIso_vectors_error hx hy hne hn')

/-- Vectors of different lengths, or without elements, are told apart by the lengths. -/
theorem vectorLaw_of_length (hslot : NamesSlot x)
    (hlen : elts1.length ≠ elts2.length ∨ elts1 = []) :
    VectorLaw h vh1 vh2 (.obj x) (.obj y) elts1 elts2 := by
  obtain ⟨mark, hmark⟩ := vectorFrame_inside vh1 vh2 (.obj x) (.obj y) hslot
  obtain ⟨s, hs⟩ := @vectorIsocmp_inside _ _ _ _ elts1 elts2 (arcIso2 h vh1 vh2) _ hmark
  obtain ⟨r, hr, hsame⟩ : ∃ r, (∀ᶠ n in atTop, vectorIsocmp n (arcIso2 h vh1 vh2 n) vh1 vh2
      (.obj x) (.obj y) elts1 elts2 newVisits = .ok (r, s)) ∧
      (r = true ↔ SameElements h vh1 vh2 elts1 elts2) := by
    by_cases heq : elts1.length = elts2.length
    · obtain rfl := hlen.resolve_left (not_not.mpr heq)
      obtain rfl := List.eq_nil_of_length_eq_zero heq.symm
      exact ⟨true, hs, by simp [SameElements]⟩
    · simp only [ne_eq, heq, not_false_eq_true, if_true] at hs
      exact ⟨false, hs, by simp [SameElements, heq]⟩
  have hanswer : ∀ᶠ n in atTop, arcIso h vh1 vh2 n [.obj x, .obj y] = .ok r := by
    obtain ⟨N, hN⟩ := eventually_atTop.mp hr
    refine eventually_atTop.mpr ⟨N + 1, fun n hn => ?_⟩
    obtain ⟨m, rfl⟩ : ∃ m, n = m + 1 := ⟨n - 1, by omega⟩
    exact arcIso_vectors_ok hx hy hne (hN m (by omega))
  constructor
  · filter_upwards [hanswer] with n hn i
    simp [hn]
  · rw [← hsame]
    constructor
    · intro hholds
      obtain ⟨n, hn, hn'⟩ := (hholds.and hanswer).exists
      rw [hn] at hn'
      exact (Except.ok.inj hn').symm
    · rintro rfl
      exact hanswer

theorem not_isoHolds_vectors (hslot : NamesSlot x) (hlen : elts1.length = elts2.length)
    (hsome : elts1 ≠ []) : ¬ IsoHolds h vh1 vh2 [.obj x, .obj y] := by
  intro hholds
  obtain ⟨mark, hmark⟩ := vectorFrame_inside vh1 vh2 (.obj x) (.obj y) hslot
  obtain ⟨s, hs⟩ := @vectorIsocmp_inside _ _ _ _ elts1 elts2 (arcIso2 h vh1 vh2) _ hmark
  simp only [hlen, ne_eq, not_true_eq_false, if_false] at hs
  obtain ⟨n, hn, hn'⟩ := (((tendsto_add_atTop_nat 1).eventually hholds).and hs).exists
  cases hloop : vectorLoop (arcIso2 h vh1 vh2 n) elts1 elts2 elts2.length 0 s with
  | error e =>
    rw [hloop] at hn'
    rw [arcIso_vectors_error hx hy hne hn'] at hn
    cases hn
  | ok p =>
    obtain ⟨r, s'⟩ := p
    rw [hloop] at hn'
    rw [arcIso_vectors_ok hx hy hne hn'] at hn
    obtain rfl := Except.ok.inj hn
    rw [← hlen] at hloop
    exact vectorLoop_not_true hsome hloop

end Law

/-- `iso` does what it is to do for a vector and itself only, unless the visit key of the
left one happens to name a slot of the frame; in that case it goes by the lengths. -/
theorem iso_vectors_iff (vh1 vh2 : Val) (hx : h x = .vector elts1) (hy : h y = .vector elts2) :
    (¬ NamesSlot x → (VectorLaw h vh1 vh2 (.obj x) (.obj y) elts1 elts2 ↔ x = y)) ∧
      (NamesSlot x → x ≠ y →
        (elts1.length ≠ elts2.length → VectorLaw h vh1 vh2 (.obj x) (.obj y) elts1 elts2) ∧
        (SameElements h vh1 vh2 elts1 elts2 →
          (VectorLaw h vh1 vh2 (.obj x) (.obj y) elts1 elts2 ↔ elts1 = []))) := by
  refine ⟨fun hslot => ⟨fun hlaw => ?_, ?_⟩, fun hslot hne => ⟨fun hlen => ?_, fun hsame => ?_⟩⟩
  · by_contra hne
    exact not_inRange hx hy hne hslot hlaw.inRange
  · rintro rfl
    rw [hx] at hy
    cases hy
    exact vectorLaw_self h vh1 vh2 _ elts1
  · exact vectorLaw_of_length hx hy hne hslot (.inl hlen)
  · refine ⟨fun hlaw => ?_, fun hnil => vectorLaw_of_length hx hy hne hslot (.inr hnil)⟩
    by_contra hsome
    exact not_isoHolds_vectors hx hy hne hslot hsame.1 hsome (hlaw.iso.mpr hsame)

/-- Two vectors of one element. -/
theorem iso_vectors_one :
    VectorLaw (fun _ => .vector [.fixnum 1]) .nil .nil (.obj 16) (.obj 32) [.fixnum 1]
      [.fixnum 1] ↔ 16 = 32 :=
  (iso_vectors_iff .nil .nil rfl rfl).1 (by decide +kernel)

theorem iso_vectors_leave_frame :
    ¬ VectorLaw (fun _ => .vector [.fixnum 1]) .nil .nil (.obj 16) (.obj 32) [.fixnum 1]
      [.fixnum 1] ∧
    arcIso (fun _ => .vector [.fixnum 1]) .nil .nil 5 [.obj 16, .obj 32] =
      .error (.outsideFrame (frameIndex (.fixnum (key 16)))) := by
  refine ⟨fun hlaw => ?_, by decide +kernel⟩
  exact not_inRange rfl rfl (by decide) (by decide +kernel) hlaw.inRange

end Arcueid.Objects
