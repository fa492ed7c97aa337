import Arcueid.IsoPairs
import Arcueid.Lib.Settling

/-! Comparisons end: each pair of objects whose components are compared is new,
and there are finitely many. -/

namespace Arcueid.Objects

open Filter Outcome Settling

variable {h : Heap} {roots : List (Val × Val)} {P : List (Nat × Nat)} {s : Visits} {x y : Nat}
  {a b vh1 vh2 : Val}

section Visits

theorem visit1_settles (hs : ∃ m, Seen s.vh1 m) (v : Val) :
    ∃ w s', Settles (fun n => visit1 n v) s w s' ∧ (∃ m, Seen s'.vh1 m) ∧ s'.vh2 = s.vh2 := by
  obtain ⟨m, hm⟩ := hs
  obtain ⟨w, tbl, hvisit⟩ := hm.visit2_ends v .nil
  obtain ⟨n, hn⟩ := hvisit.exists
  refine ⟨w, { s with vh1 := tbl }, ?_, ?_, rfl⟩
  · filter_upwards [hvisit] with n hn
    simp only [visit1, arcVisit]
    rw [bind_of_ok rfl, hn]
    rfl
  · rcases hm.visit2_ok hn with ⟨-, rfl⟩ | ⟨-, -, hm'⟩
    · exact ⟨m, hm⟩
    · exact ⟨_, hm'⟩

theorem visit2_settles (hs : ∃ m, Seen s.vh2 m) (v mykeyval : Val) :
    ∃ w s', Settles (fun n => visit2 n v (some mykeyval)) s w s' := by
  obtain ⟨m, hm⟩ := hs
  obtain ⟨w, tbl, hvisit⟩ := hm.visit2_ends v mykeyval
  refine ⟨w, { s with vh2 := tbl }, ?_⟩
  filter_upwards [hvisit] with n hn
  simp only [visit2]
  rw [bind_of_ok rfl, hn]
  rfl

theorem isoVisit_settles (ht : Trail h roots P s) (v1 v2 : Val) :
    ∃ r s', Settles (fun n => isoVisit n v1 v2 fun vhh1 => pure (some vhh1)) s r s' := by
  obtain ⟨m1, hm1, -⟩ := ht.left
  obtain ⟨m2, hm2, -⟩ := ht.right
  obtain ⟨w, s₁, h1, hs₁, hvh2⟩ := visit1_settles ⟨m1, hm1⟩ v1
  by_cases hw : w = .nil
  · obtain ⟨w', s₂, h1', hs₂, hvh2'⟩ := visit1_settles hs₁ v1
    have hseen : ∃ m, Seen s₂.vh2 m := ⟨m2, by rw [hvh2', hvh2]; exact hm2⟩
    obtain ⟨w₂, s₃, h2⟩ := visit2_settles hseen v2 w'
    refine ⟨if w₂ ≠ .nil then some false else none, s₃, h1.bind ?_⟩
    simp only [hw, ne_eq, not_true_eq_false, if_false]
    refine h1'.bind (Settles.bind settles_pure (h2.bind ?_))
    by_cases hw₂ : w₂ = .nil <;> simp only [hw₂, not_true_eq_false, not_false_eq_true,
      if_false, if_true] <;> exact settles_pure
  · have hseen : ∃ m, Seen s₁.vh2 m := ⟨m2, by rw [hvh2]; exact hm2⟩
    obtain ⟨w₂, s₂, h2⟩ := visit2_settles hseen v2 .nil
    refine ⟨some (w₂ = w), s₂, h1.bind ?_⟩
    simp only [hw, ne_eq, not_false_eq_true, if_true]
    exact h2.bind settles_pure

end Visits

/-- What lets the comparison of all pairs end. -/
structure Comparable (h : Heap) (roots : List (Val × Val)) : Prop where
  novector : ∀ {x y}, Node h roots x y → (h x).vector? = false
  found : ∀ {x y tbl1 tbl2}, Node h roots x y → h x = .table tbl1 → h y = .table tbl2 →
    ∀ {i e}, i < tbl1.tablesize → tbl1.slot i = .bucket e → ∃ v, Finds h tbl2 e.bkey v
  finite : {x | ∃ y, Node h roots x y}.Finite

theorem Comparable.noSlot (hc : Comparable h roots) : NoSlot h roots := by
  intro x y hn hvec
  rw [hc.novector hn] at hvec
  cases hvec

theorem Finds.settles {tbl : Table Val Val} {k : Val} {v : Option Val} (hf : Finds h tbl k v) :
    Settles (fun fuel => (liftM (lookupKey fuel h tbl k) : IsoM (Option Val))) s v s := by
  obtain ⟨n, hn⟩ := hf
  filter_upwards [eventually_ge_atTop n] with fuel hfuel
  rw [lookupKey_mono hfuel hn]
  rfl

section Ends

variable (hap : KeysApart h roots) (hc : Comparable h roots)

/-- The objects not visited yet. -/
noncomputable def unvisited (hc : Comparable h roots) (P : List (Nat × Nat)) : Finset Nat :=
  hc.finite.toFinset.filter fun x => ∀ q ∈ P, q.1 ≠ x

theorem unvisited_subset {N : List (Nat × Nat)} : unvisited hc (N ++ P) ⊆ unvisited hc P := by
  intro x hx
  simp only [unvisited, Finset.mem_filter] at hx ⊢
  exact ⟨hx.1, fun q hq => hx.2 q (List.mem_append_right _ hq)⟩

theorem unvisited_cons_lt (hn : Node h roots x y) (hx : ∀ q ∈ P, q.1 ≠ x) :
    (unvisited hc ((x, y) :: P)).card < (unvisited hc P).card := by
  apply Finset.card_lt_card
  refine Finset.ssubset_iff.mpr ⟨x, by simp [unvisited], fun z hz => ?_⟩
  rcases Finset.mem_insert.mp hz with rfl | hz
  · simp only [unvisited, Finset.mem_filter, Set.Finite.mem_toFinset]
    exact ⟨⟨y, hn⟩, hx⟩
  · exact unvisited_subset (N := [(x, y)]) hc hz

/-- Comparisons end while fewer than `n` objects are not visited. -/
def EndsBelow (vh1 vh2 : Val) (n : Nat) : Prop :=
  ∀ {a b P s}, Met h roots a b → Trail h roots P s → (unvisited hc P).card < n →
    ∃ r s', Settles (fun fuel => arcIso2 h vh1 vh2 fuel a b) s r s'

include hap hc

theorem settles_sound {r : Bool} {s' : Visits} (hmet : Met h roots a b) (ht : Trail h roots P s)
    (hs : Settles (fun fuel => arcIso2 h vh1 vh2 fuel a b) s r s') :
    (r = true → ∃ N, Extends h roots P N s' ∧ Done h (N ++ P) a b) ∧
      (r = false → ¬ Alike h roots) := by
  obtain ⟨fuel, hfuel⟩ := hs.exists
  exact arcIso2_sound hap hc.noSlot fuel hmet ht hfuel

theorem compareAll_settles {n : Nat} {ps : List (Val × Val)} (hends : EndsBelow hc vh1 vh2 n)
    (hmet : ∀ q ∈ ps, Met h roots q.1 q.2) (ht : Trail h roots P s)
    (hlt : (unvisited hc P).card < n) :
    ∃ r s', Settles (fun fuel => compareAll (arcIso2 h vh1 vh2 fuel) ps) s r s' := by
  induction ps generalizing P s with
  | nil => exact ⟨true, s, settles_pure⟩
  | cons q ps ih =>
    obtain ⟨a, b⟩ := q
    have hab := hmet (a, b) List.mem_cons_self
    obtain ⟨r₁, s₁, h1⟩ := hends hab ht hlt
    cases r₁ with
    | false => exact ⟨false, s₁, h1.bind settles_pure⟩
    | true =>
      obtain ⟨N, he, -⟩ := (settles_sound hap hc hab ht h1).1 rfl
      have hcard := Finset.card_le_card (unvisited_subset (N := N) (P := P) hc)
      obtain ⟨r, s', h2⟩ := ih (fun q hq => hmet q (List.mem_cons_of_mem _ hq)) he.trail (by omega)
      exact ⟨r, s', h1.bind h2⟩

theorem hashLoop_settles {n m i : Nat} {tbl1 tbl2 : Table Val Val} (hends : EndsBelow hc vh1 vh2 n)
    (hn : Node h roots x y) (hx : h x = .table tbl1) (hy : h y = .table tbl2)
    (hentries : tbl1.nentries = tbl2.nentries) (hi : i + m ≤ tbl1.tablesize)
    (ht : Trail h roots P s) (hlt : (unvisited hc P).card < n) :
    ∃ r s', Settles (fun fuel => hashLoop fuel (arcIso2 h vh1 vh2 fuel) h tbl1 tbl2 m i) s r s' := by
  induction m generalizing i P s with
  | zero => exact ⟨true, s, settles_pure⟩
  | succ m ih =>
    cases hslot : tbl1.slot i with
    | cunbound =>
      simp only [hashLoop, hslot]
      exact ih (by omega) ht hlt
    | cundef =>
      simp only [hashLoop, hslot]
      exact ih (by omega) ht hlt
    | bucket e =>
      simp only [hashLoop, hslot]
      obtain ⟨v, hv⟩ := hc.found hn hx hy (by omega) hslot
      cases hval : e.bvalue with
      | none =>
        cases v with
        | none =>
          obtain ⟨r, s', h1⟩ := ih (i := i + 1) (by omega) ht hlt
          exact ⟨r, s', hv.settles.bind (settles_pure.bind h1)⟩
        | some b => exact ⟨false, s, hv.settles.bind (settles_pure.bind settles_pure)⟩
      | some a =>
        cases v with
        | none => exact ⟨false, s, hv.settles.bind (settles_pure.bind settles_pure)⟩
        | some b =>
          have hab : Met h roots a b := by
            refine .step hn.met hn.ne ?_
            rw [hx, hy]
            exact .slot hentries (by omega) ⟨e, hslot, hval, hv⟩
          obtain ⟨r₁, s₁, h1⟩ := hends hab ht hlt
          cases r₁ with
          | false => exact ⟨false, s₁, hv.settles.bind (h1.bind settles_pure)⟩
          | true =>
            obtain ⟨N, he, -⟩ := (settles_sound hap hc hab ht h1).1 rfl
            have hcard := Finset.card_le_card (unvisited_subset (N := N) (P := P) hc)
            obtain ⟨r, s', h2⟩ := ih (i := i + 1) (by omega) he.trail (by omega)
            exact ⟨r, s', hv.settles.bind (h1.bind h2)⟩

/-- The comparison of two objects that begins with their visits. -/
theorem visited_settles {n : Nat} {body : ℕ → IsoM Bool} (hn : Node h roots x y)
    (ht : Trail h roots P s) (hlt : (unvisited hc P).card < n + 1)
    (hbody : ∀ {s}, Trail h roots ((x, y) :: P) s → (unvisited hc ((x, y) :: P)).card < n →
      ∃ r s', Settles body s r s') :
    ∃ r s', Settles (fun fuel => do
      match ← isoVisit fuel (.obj x) (.obj y) fun vhh1 => pure (some vhh1) with
      | some answer => return answer
      | none => body fuel) s r s' := by
  obtain ⟨r₀, s₁, h1⟩ := isoVisit_settles ht (.obj x) (.obj y)
  obtain ⟨fuel, hfuel⟩ := h1.exists
  rcases isoVisit_ok hap ht hn (hc.novector hn) hfuel with ⟨rfl, hx, ht'⟩ | ⟨rfl, -⟩ | ⟨rfl, -⟩
  · have hcard := unvisited_cons_lt hc hn hx
    obtain ⟨r, s', h2⟩ := hbody ht' (by omega)
    exact ⟨r, s', h1.bind h2⟩
  · exact ⟨true, s₁, h1.bind settles_pure⟩
  · exact ⟨false, s₁, h1.bind settles_pure⟩

theorem isocmp_settles {n : Nat} (hends : EndsBelow hc vh1 vh2 n)
    (hmet : Met h roots (.obj x) (.obj y)) (hne : x ≠ y) (htype : (h x).type = (h y).type)
    (ht : Trail h roots P s) (hlt : (unvisited hc P).card < n + 1) :
    ∃ r s', Settles (fun fuel => isocmp fuel (arcIso2 h vh1 vh2 fuel) h vh1 vh2 (.obj x) (.obj y)
      (h x) (h y)) s r s' := by
  by_cases hcomp : (h x).hash? = none
  · have hn : Node h roots x y := ⟨hmet, hne, htype, hcomp⟩
    cases hx : h x with
    | cons car1 cdr1 =>
      cases hy : h y with
      | cons car2 cdr2 =>
        refine visited_settles hap hc hn ht hlt fun ht' hlt' => ?_
        refine @compareAll_settles _ _ _ _ _ _ hap hc _ [(car1, car2), (cdr1, cdr2)] hends ?_ ht' hlt'
        intro q hq
        refine .step hmet hne ?_
        rw [hx, hy]
        rcases List.mem_cons.mp hq with rfl | hq
        · exact .car
        · obtain rfl := List.mem_singleton.mp hq
          exact .cdr
      | _ => simp [hx, hy, Obj.type] at htype
    | vector elts1 =>
      have hvec := hc.novector hn
      rw [hx] at hvec
      cases hvec
    | table tbl1 =>
      cases hy : h y with
      | table tbl2 =>
        refine visited_settles hap hc hn ht hlt fun ht' hlt' => ?_
        by_cases hentries : tbl1.nentries = tbl2.nentries
        · simp only [hentries, ne_eq, not_true_eq_false, if_false]
          exact hashLoop_settles hap hc hends hn hx hy hentries (by omega) ht' hlt'
        · simp only [hentries, ne_eq, not_false_eq_true, if_true]
          exact ⟨false, _, settles_pure⟩
      | _ => simp [hx, hy, Obj.type] at htype
    | _ => simp [hx, Obj.hash?] at hcomp
  · simp only [isocmp_of_hash? hcomp]
    exact ⟨_, s, settles_pure⟩

theorem arcIso2_settles (n : Nat) : EndsBelow hc vh1 vh2 n := by
  induction n with
  | zero => exact fun _ _ hlt => absurd hlt (Nat.not_lt_zero _)
  | succ n ih =>
    intro a b P s hmet ht hlt
    have hstep : ∃ r s', Settles (fun fuel => arcIso2 h vh1 vh2 (fuel + 1) a b) s r s' := by
      unfold arcIso2
      by_cases hab : a = b
      · simp only [hab, if_true]
        exact ⟨true, s, settles_pure⟩
      by_cases htype : typeOf h a = typeOf h b
      · simp only [hab, htype, ne_eq, not_true_eq_false, if_false]
        cases a with
        | obj x =>
          cases b with
          | obj y =>
            exact isocmp_settles hap hc ih hmet (fun heq => hab (by rw [heq])) htype ht hlt
          | _ => exact ⟨false, s, settles_pure⟩
        | _ => exact ⟨false, s, settles_pure⟩
      · simp only [hab, htype, ne_eq, not_false_eq_true, if_true, if_false]
        exact ⟨false, s, settles_pure⟩
    obtain ⟨r, s', hs⟩ := hstep
    exact ⟨r, s', hs.succ fun _ => rfl⟩

/-- The comparison of pairs in turn, with new tables, comes to an answer: `t` exactly
when all the pairs met agree, one to one. -/
theorem compareAll_answers :
    ∃ r s', Settles (fun fuel => compareAll (arcIso2 h vh1 vh2 fuel) roots) newVisits r s' ∧ (r = true ↔ Alike h roots) := by
  obtain ⟨r, s', hs⟩ := @compareAll_settles _ _ _ _ vh1 vh2 hap hc _ _
    (arcIso2_settles hap hc _) (fun q hq => .root hq) trail_new (Nat.lt_succ_self _)
  obtain ⟨fuel, hfuel⟩ := hs.exists
  exact ⟨r, s', hs, compareAll_iff hap hc.noSlot hfuel⟩

end Ends

end Arcueid.Objects
