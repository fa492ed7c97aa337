import Arcueid.Lib.Settling
import Arcueid.PrintGraph
import Arcueid.TableMap

/-! Printing makes the visits of the lists it walks over, in their order: it ends
exactly when there are finitely many of them and each of them ends. -/

namespace Arcueid.Objects

open Filter Outcome Settling

variable {h : Heap} {atom : Val → List Rune} {tbl tbl' u : VisitTable} {P : List Int}
  {v w : Val} {n fuel : Nat} {k : Int} {op : TableOp Int Val} {ops ops' : List (TableOp Int Val)}

section Visits

/-- The table marks the lists with the keys `P`, and no other. -/
def Marked (tbl : VisitTable) (P : List Int) : Prop :=
  ∃ km : KeyMap fixnumLawful Val, Refines fixnumLawful tbl km ∧
    ∀ k, km (fixnumLawful.key k) = if k ∈ P then some (.fixnum k) else none

/-- The operations end one after the other, and lead to the table `tbl'`. -/
def VisitsTo (tbl : VisitTable) (ops : List (TableOp Int Val)) (tbl' : VisitTable) : Prop :=
  ∃ fuel as, tableRun fuel fixnumKeying fixnumKeying tbl ops = some (tbl', as)

theorem marked_new : Marked (arcMkhash arcHashbits) [] :=
  ⟨_, arcMkhash_refines fixnumLawful arcHashbits, by simp⟩

theorem visitsTo_nil : VisitsTo tbl [] tbl' ↔ tbl = tbl' := by
  constructor
  · rintro ⟨fuel, as, hrun⟩
    cases hrun
    rfl
  · rintro rfl
    exact ⟨0, [], rfl⟩

theorem visitsTo_cons : VisitsTo tbl (op :: ops) tbl' ↔
    ∃ u, VisitsTo tbl [op] u ∧ VisitsTo u ops tbl' := by
  constructor
  · rintro ⟨fuel, as, hrun⟩
    obtain ⟨⟨u, a⟩, hstep, hrest⟩ := Option.bind_eq_some_iff.mp hrun
    obtain ⟨⟨t, as'⟩, hq, heq⟩ := Option.map_eq_some_iff.mp hrest
    cases heq
    exact ⟨u, ⟨fuel, [a], by simp [tableRun, hstep]⟩, fuel, as', hq⟩
  · rintro ⟨u, ⟨n, as, hone⟩, n', as', hrest⟩
    obtain ⟨⟨u', a⟩, hstep, hnil⟩ := Option.bind_eq_some_iff.mp hone
    cases hnil
    refine ⟨max n n', a :: as', Option.bind_eq_some_iff.mpr
      ⟨_, tableStep_mono (Nat.le_max_left n n') hstep, ?_⟩⟩
    exact Option.map_eq_some_iff.mpr ⟨_, tableRun_mono (Nat.le_max_right n n') hrest, rfl⟩

theorem visitsTo_append : VisitsTo tbl (ops ++ ops') tbl' ↔
    ∃ u, VisitsTo tbl ops u ∧ VisitsTo u ops' tbl' := by
  induction ops generalizing tbl with
  | nil => simp [visitsTo_nil]
  | cons op ops ih =>
    rw [List.cons_append, visitsTo_cons]
    simp only [ih]
    constructor
    · rintro ⟨u, hu, u', hu', hrest⟩
      exact ⟨u', visitsTo_cons.mpr ⟨u, hu, hu'⟩, hrest⟩
    · rintro ⟨u', hfirst, hrest⟩
      obtain ⟨u, hu, hu'⟩ := visitsTo_cons.mp hfirst
      exact ⟨u, hu, u', hu', hrest⟩

theorem visitsTo_single : VisitsTo tbl [op] tbl' ↔
    ∃ fuel a, tableStep fuel fixnumKeying fixnumKeying tbl op = some (tbl', a) := by
  constructor
  · rintro ⟨fuel, as, hrun⟩
    obtain ⟨⟨u, a⟩, hstep, hnil⟩ := Option.bind_eq_some_iff.mp hrun
    cases hnil
    exact ⟨fuel, a, hstep⟩
  · rintro ⟨fuel, a, hstep⟩
    exact ⟨fuel, [a], by simp [tableRun, hstep]⟩

theorem Marked.lookup {val : Option Val} (hm : Marked tbl P)
    (hl : arcHashLookup fuel fixnumKeying tbl k = some val) :
    val = (if k ∈ P then some (.fixnum k) else none) ∧ VisitsTo tbl [.lookup k] tbl := by
  obtain ⟨km, hr, hkm⟩ := hm
  have hstep : tableStep fuel fixnumKeying fixnumKeying tbl (.lookup k) = some (tbl, .val val) := by
    simp [tableStep, hl]
  have hsimple : (TableOp.lookup k : TableOp Int Val).Simple := trivial
  obtain ⟨-, hval⟩ := tableStep_refines hr hsimple hstep
  exact ⟨hval.trans (hkm k), visitsTo_single.mpr ⟨fuel, _, hstep⟩⟩

theorem Marked.lookup_ends (hm : Marked tbl P) (hrun : VisitsTo tbl [.lookup k] tbl') :
    tbl' = tbl ∧ ∀ᶠ fuel in atTop, arcHashLookup fuel fixnumKeying tbl k =
      some (if k ∈ P then some (.fixnum k) else none) := by
  obtain ⟨n, a, hstep⟩ := visitsTo_single.mp hrun
  obtain ⟨val, hl, heq⟩ := Option.map_eq_some_iff.mp hstep
  cases heq
  refine ⟨rfl, ?_⟩
  filter_upwards [eventually_ge_atTop n] with fuel hfuel
  have hstep' := tableStep_mono hfuel hstep
  obtain ⟨val', hl', heq⟩ := Option.map_eq_some_iff.mp hstep'
  cases heq
  rw [hl', (hm.lookup hl').1]

theorem Marked.insert {val : Option Val} (hm : Marked tbl P)
    (hins : arcHashInsert fuel fixnumKeying tbl k (some (.fixnum k)) = some (tbl', val)) :
    Marked tbl' (k :: P) ∧ VisitsTo tbl [.insert k (some (.fixnum k))] tbl' := by
  obtain ⟨km, hr, hkm⟩ := hm
  obtain ⟨hr', -⟩ := hr.insert (by simp) hins
  refine ⟨⟨_, hr', fun k' => ?_⟩, visitsTo_single.mpr ⟨fuel, .val val, by simp [tableStep, hins]⟩⟩
  by_cases hk : k' = k
  · subst hk
    simp
  · have hne : fixnumLawful.key k' ≠ fixnumLawful.key k := fun heq =>
      hk (beq_iff_eq.mp (LawfulKeying.key_eq_iff.mp heq))
    simp [hne, hk, hkm]

theorem Marked.delete {val : Option Val} (hm : Marked tbl (k :: P)) (hk : k ∉ P)
    (hdel : arcHashDelete fuel fixnumKeying tbl k = some (tbl', val)) :
    Marked tbl' P ∧ VisitsTo tbl [.delete k] tbl' := by
  obtain ⟨km, hr, hkm⟩ := hm
  obtain ⟨hr', -⟩ := hr.delete hdel
  refine ⟨⟨_, hr', fun k' => ?_⟩, visitsTo_single.mpr ⟨fuel, .val val, by simp [tableStep, hdel]⟩⟩
  by_cases hk' : k' = k
  · subst hk'
    simp [hk]
  · have hne : fixnumLawful.key k' ≠ fixnumLawful.key k := fun heq =>
      hk' (beq_iff_eq.mp (LawfulKeying.key_eq_iff.mp heq))
    simp [hne, hk', hkm]

end Visits

section Operations

theorem arcVisitp_ok {b : Bool} (hm : Marked tbl P) (hv : Yields (arcVisitp fuel v) tbl b tbl') :
    tbl' = tbl ∧ (b = true ↔ arcVisitkey v ∈ P) ∧ VisitsTo tbl [.lookup (arcVisitkey v)] tbl := by
  unfold Yields arcVisitp at hv
  cases hl : arcHashLookup fuel fixnumKeying tbl (arcVisitkey v) with
  | none => simp [hl] at hv
  | some val =>
    obtain ⟨hval, hrun⟩ := hm.lookup hl
    simp only [hl, Except.ok.injEq, Prod.mk.injEq] at hv
    obtain ⟨rfl, rfl⟩ := hv
    refine ⟨rfl, ?_, hrun⟩
    rw [hval]
    by_cases hk : arcVisitkey v ∈ P <;> simp [hk]

theorem arcVisitp_settles (hm : Marked tbl P)
    (hrun : VisitsTo tbl [.lookup (arcVisitkey v)] tbl') :
    tbl' = tbl ∧ Settles (fun n => arcVisitp n v) tbl (decide (arcVisitkey v ∈ P)) tbl := by
  obtain ⟨rfl, hends⟩ := hm.lookup_ends hrun
  refine ⟨rfl, ?_⟩
  filter_upwards [hends] with n hn
  unfold arcVisitp
  rw [hn]
  by_cases hk : arcVisitkey v ∈ P <;> simp [hk]

/-- A visit finds the mark of the list, or leaves one. -/
theorem printVisit_ok (hm : Marked tbl P) (hv : Yields (printVisit fuel v) tbl w tbl') :
    (arcVisitkey v ∈ P ∧ w ≠ .nil ∧ tbl' = tbl ∧ VisitsTo tbl [.lookup (arcVisitkey v)] tbl) ∨
      (arcVisitkey v ∉ P ∧ w = .nil ∧ Marked tbl' (arcVisitkey v :: P) ∧
        VisitsTo tbl [.lookup (arcVisitkey v),
          .insert (arcVisitkey v) (some (.fixnum (arcVisitkey v)))] tbl') := by
  unfold Yields printVisit arcVisit arcVisit2 at hv
  cases hl : arcHashLookup fuel fixnumKeying tbl (arcVisitkey v) with
  | none => simp [hl] at hv
  | some val =>
    obtain ⟨hval, hrun⟩ := hm.lookup hl
    by_cases hk : arcVisitkey v ∈ P
    · rw [if_pos hk] at hval
      subst hval
      simp only [hl, Except.ok.injEq, Prod.mk.injEq] at hv
      obtain ⟨rfl, rfl⟩ := hv
      exact .inl ⟨hk, nofun, rfl, hrun⟩
    · rw [if_neg hk] at hval
      subst hval
      simp only [hl, if_true] at hv
      cases hins : arcHashInsert fuel fixnumKeying tbl (arcVisitkey v)
          (some (.fixnum (arcVisitkey v))) with
      | none => simp [hins] at hv
      | some p =>
        obtain ⟨t, r⟩ := p
        simp only [hins, Except.ok.injEq, Prod.mk.injEq] at hv
        obtain ⟨rfl, rfl⟩ := hv
        obtain ⟨hm', hrun'⟩ := hm.insert hins
        exact .inr ⟨hk, rfl, hm', visitsTo_cons.mpr ⟨tbl, hrun, hrun'⟩⟩

theorem printVisit_again (hm : Marked tbl P) (hk : arcVisitkey v ∈ P)
    (hrun : VisitsTo tbl [.lookup (arcVisitkey v)] tbl') :
    tbl' = tbl ∧ Settles (fun n => printVisit n v) tbl (.fixnum (arcVisitkey v)) tbl := by
  obtain ⟨rfl, hends⟩ := hm.lookup_ends hrun
  refine ⟨rfl, ?_⟩
  filter_upwards [hends] with n hn
  rw [if_pos hk] at hn
  simp [printVisit, arcVisit, arcVisit2, hn]

theorem printVisit_first (hm : Marked tbl P) (hk : arcVisitkey v ∉ P)
    (hrun : VisitsTo tbl [.lookup (arcVisitkey v)] u)
    (hrun' : VisitsTo u [.insert (arcVisitkey v) (some (.fixnum (arcVisitkey v)))] tbl') :
    Marked tbl' (arcVisitkey v :: P) ∧ Settles (fun n => printVisit n v) tbl .nil tbl' := by
  obtain ⟨rfl, hends⟩ := hm.lookup_ends hrun
  obtain ⟨N, a, hstep⟩ := visitsTo_single.mp hrun'
  obtain ⟨⟨t, r⟩, hins, heq⟩ := Option.map_eq_some_iff.mp hstep
  cases heq
  refine ⟨(hm.insert hins).1, ?_⟩
  filter_upwards [hends, eventually_ge_atTop N] with n hn hN
  rw [if_neg hk] at hn
  simp [printVisit, arcVisit, arcVisit2, hn, arcHashInsert_mono hN hins]

theorem arcUnvisit_ok {r : Unit} (hm : Marked tbl (arcVisitkey v :: P)) (hk : arcVisitkey v ∉ P)
    (hv : Yields (arcUnvisit fuel v) tbl r tbl') :
    Marked tbl' P ∧ VisitsTo tbl [.delete (arcVisitkey v)] tbl' := by
  unfold Yields arcUnvisit at hv
  cases hdel : arcHashDelete fuel fixnumKeying tbl (arcVisitkey v) with
  | none => simp [hdel] at hv
  | some p =>
    obtain ⟨t, val⟩ := p
    simp only [hdel, Except.ok.injEq, Prod.mk.injEq] at hv
    obtain ⟨-, rfl⟩ := hv
    exact hm.delete hk hdel

theorem arcUnvisit_settles (hm : Marked tbl (arcVisitkey v :: P)) (hk : arcVisitkey v ∉ P)
    (hrun : VisitsTo tbl [.delete (arcVisitkey v)] tbl') :
    Marked tbl' P ∧ Settles (fun n => arcUnvisit n v) tbl () tbl' := by
  obtain ⟨N, a, hstep⟩ := visitsTo_single.mp hrun
  obtain ⟨⟨t, r⟩, hdel, heq⟩ := Option.map_eq_some_iff.mp hstep
  cases heq
  refine ⟨(hm.delete hk hdel).1, ?_⟩
  filter_upwards [eventually_ge_atTop N] with n hN
  obtain ⟨⟨t', r'⟩, hdel', heq⟩ := Option.map_eq_some_iff.mp (tableStep_mono hN hstep)
  cases heq
  simp [arcUnvisit, hdel']

end Operations

section Jobs

def runJob (atom : Val → List Rune) (h : Heap) (fuel : Nat) : Job → PrintM (List Rune)
  | .disp v => arcDispWrite atom h fuel v
  | .loop v => consLoop atom h fuel v
  | .car v => pprintCar fuel (arcDispWrite atom h fuel) v
  | .tail v => pprintTail (arcDispWrite atom h fuel) v

/-- A job that comes to its text makes the visits of its walk. -/
def Follows (atom : Val → List Rune) (h : Heap) (fuel : Nat) (job : Job) : Prop :=
  ∀ {P tbl text tbl'}, Marked tbl P → Yields (runJob atom h fuel job) tbl text tbl' →
    ∃ ops, Walk h P job ops ∧ VisitsTo tbl ops tbl' ∧ Marked tbl' P

theorem follows_car (hdisp : Follows atom h fuel (.disp v)) : Follows atom h fuel (.car v) := by
  intro P tbl text tbl' hm hv
  obtain ⟨b, t₁, hvisitp, hrest⟩ := yields_bind hv
  obtain ⟨rfl, hb, hlookup⟩ := arcVisitp_ok hm hvisitp
  cases b with
  | true =>
    obtain ⟨-, rfl⟩ := yields_pure_iff.mp hrest
    exact ⟨_, .seen (hb.mp rfl), hlookup, hm⟩
  | false =>
    obtain ⟨ops, hwalk, hrun, hm'⟩ := hdisp hm hrest
    exact ⟨_, .car (fun hk => nomatch hb.mpr hk) hwalk, visitsTo_cons.mpr ⟨_, hlookup, hrun⟩, hm'⟩

theorem follows_tail (hdisp : Follows atom h fuel (.disp v)) : Follows atom h fuel (.tail v) := by
  intro P tbl text tbl' hm hv
  simp only [runJob, pprintTail] at hv
  by_cases hnil : v = .nil
  · subst hnil
    obtain ⟨-, rfl⟩ := yields_pure_iff.mp hv
    exact ⟨[], .proper, visitsTo_nil.mpr rfl, hm⟩
  · rw [if_neg hnil] at hv
    obtain ⟨text', t₁, hdw, hrest⟩ := yields_bind hv
    obtain ⟨-, rfl⟩ := yields_pure_iff.mp hrest
    obtain ⟨ops, hwalk, hrun, hm'⟩ := hdisp hm hdw
    exact ⟨ops, .improper hnil hwalk, hrun, hm'⟩

theorem follows_disp (hloop : ∀ v, Follows atom h fuel (.loop v)) :
    Follows atom h (fuel + 1) (.disp v) := by
  intro P tbl text tbl' hm hv
  simp only [runJob, arcDispWrite] at hv
  cases hcell : h.cell v with
  | none =>
    simp only [hcell] at hv
    obtain ⟨-, rfl⟩ := yields_pure_iff.mp hv
    exact ⟨[], .atom hcell, visitsTo_nil.mpr rfl, hm⟩
  | some c =>
    simp only [hcell] at hv
    obtain ⟨w, t₁, hvisit, hrest⟩ := yields_bind hv
    rcases printVisit_ok hm hvisit with ⟨hk, hw, rfl, hlookup⟩ | ⟨hk, rfl, hm₁, hvisits⟩
    · rw [if_pos hw] at hrest
      obtain ⟨-, rfl⟩ := yields_pure_iff.mp hrest
      exact ⟨_, .again hcell hk, hlookup, hm⟩
    · rw [if_neg (by simp)] at hrest
      obtain ⟨text', t₂, hbody, hend⟩ := yields_bind hrest
      obtain ⟨r, t₃, hunvisit, hret⟩ := yields_bind hend
      obtain ⟨-, rfl⟩ := yields_pure_iff.mp hret
      obtain ⟨ops, hwalk, hrun, hm₂⟩ := hloop v hm₁ hbody
      obtain ⟨hm₃, hdelete⟩ := arcUnvisit_ok hm₂ hk hunvisit
      refine ⟨_, .list hcell hk hwalk, ?_, hm₃⟩
      have hwhole := visitsTo_append.mpr ⟨_, hrun, hdelete⟩
      exact visitsTo_append.mpr ⟨_, hvisits, hwhole⟩

theorem follows_loop (hdisp : ∀ v, Follows atom h fuel (.disp v))
    (hloop : ∀ v, Follows atom h fuel (.loop v)) : Follows atom h (fuel + 1) (.loop v) := by
  intro P tbl text tbl' hm hv
  simp only [runJob, consLoop, pprintCell] at hv
  cases hcell : h.cell v with
  | none =>
    simp only [hcell] at hv
    obtain ⟨ops, hwalk, hrun, hm'⟩ := follows_tail (hdisp v) hm hv
    exact ⟨ops, .finish hcell hwalk, hrun, hm'⟩
  | some c =>
    obtain ⟨car, cdr⟩ := c
    simp only [hcell] at hv
    obtain ⟨text₁, t₁, hcar, hrest⟩ := yields_bind hv
    obtain ⟨ops₁, hwalk₁, hrun₁, hm₁⟩ := follows_car (hdisp car) hm hcar
    obtain ⟨b, t₂, hvisitp, hgo⟩ := yields_bind hrest
    obtain ⟨rfl, hb, hlookup⟩ := arcVisitp_ok hm₁ hvisitp
    cases b with
    | true =>
      obtain ⟨text₂, t₃, htail, hret⟩ := yields_bind hgo
      obtain ⟨-, rfl⟩ := yields_pure_iff.mp hret
      obtain ⟨ops₂, hwalk₂, hrun₂, hm₂⟩ := follows_tail (hdisp cdr) hm₁ htail
      refine ⟨_, .rejoin hcell hwalk₁ (hb.mp rfl) hwalk₂, ?_, hm₂⟩
      exact visitsTo_append.mpr ⟨_, hrun₁, visitsTo_cons.mpr ⟨_, hlookup, hrun₂⟩⟩
    | false =>
      obtain ⟨text₂, t₃, hnext, hret⟩ := yields_bind hgo
      obtain ⟨-, rfl⟩ := yields_pure_iff.mp hret
      obtain ⟨ops₂, hwalk₂, hrun₂, hm₂⟩ := hloop cdr hm₁ hnext
      refine ⟨_, .next hcell hwalk₁ (fun hk => nomatch hb.mpr hk) hwalk₂, ?_, hm₂⟩
      exact visitsTo_append.mpr ⟨_, hrun₁, visitsTo_cons.mpr ⟨_, hlookup, hrun₂⟩⟩

theorem follows_disp_loop (fuel : Nat) :
    (∀ v, Follows atom h fuel (.disp v)) ∧ ∀ v, Follows atom h fuel (.loop v) := by
  induction fuel with
  | zero =>
    refine ⟨fun v => ?_, fun v => ?_⟩
    · intro P tbl text tbl' _ hv
      exact absurd hv not_yields_throw
    · intro P tbl text tbl' _ hv
      exact absurd hv not_yields_throw
  | succ fuel ih => exact ⟨fun v => follows_disp ih.2, fun v => follows_loop ih.1 ih.2⟩

/-- The visits of a walk, if each of them ends, take the job to its text. -/
theorem Walk.settles {job : Job} (hwalk : Walk h P job ops) (atom : Val → List Rune)
    (hm : Marked tbl P) (hrun : VisitsTo tbl ops tbl') :
    Marked tbl' P ∧ ∃ text, Settles (fun n => runJob atom h n job) tbl text tbl' := by
  induction hwalk generalizing tbl tbl' with
  | @atom P v hcell =>
    obtain rfl := visitsTo_nil.mp hrun
    have hret : Settles (fun _ => (pure (atom v) : PrintM (List Rune))) tbl (atom v) tbl :=
      settles_pure
    refine ⟨hm, _, hret.succ fun n => ?_⟩
    simp only [runJob, arcDispWrite, hcell]
  | @again P v c hcell hk =>
    obtain ⟨rfl, hvisit⟩ := printVisit_again hm hk hrun
    have hshort : Settles (fun n => consPprint n (consLoop atom h n) v) tbl' (ascii "(...)") tbl' := by
      refine hvisit.bind ?_
      simp only [ne_eq, reduceCtorEq, not_false_eq_true, if_true]
      exact settles_pure
    refine ⟨hm, _, hshort.succ fun n => ?_⟩
    simp only [runJob, arcDispWrite, hcell]
  | @list P v c ops hcell hk _ ih =>
    obtain ⟨t₁, hlookup, hrest⟩ := visitsTo_cons.mp hrun
    obtain ⟨t₂, hinsert, hrest'⟩ := visitsTo_cons.mp hrest
    obtain ⟨t₃, hbody, hdelete⟩ := visitsTo_append.mp hrest'
    obtain ⟨hm₂, hvisit⟩ := printVisit_first hm hk hlookup hinsert
    obtain ⟨hm₃, text, hloop⟩ := ih hm₂ hbody
    obtain ⟨hm', hunvisit⟩ := arcUnvisit_settles hm₃ hk hdelete
    have hwhole : Settles (fun n => consPprint n (consLoop atom h n) v) tbl
        (ascii "(" ++ text ++ ascii ")") tbl' := by
      refine hvisit.bind ?_
      simp only [ne_eq, not_true_eq_false, if_false]
      exact hloop.bind (hunvisit.bind settles_pure)
    refine ⟨hm', _, hwhole.succ fun n => ?_⟩
    simp only [runJob, arcDispWrite, hcell]
  | @finish P v ops hcell _ ih =>
    obtain ⟨hm', text, htail⟩ := ih hm hrun
    refine ⟨hm', text, htail.succ fun n => ?_⟩
    simp only [runJob, consLoop, hcell]
  | @rejoin P v car cdr ops ops' hcell _ hk _ ihcar ihtail =>
    obtain ⟨t₁, hrun₁, hrest⟩ := visitsTo_append.mp hrun
    obtain ⟨t₂, hlookup, hrun₂⟩ := visitsTo_cons.mp hrest
    obtain ⟨hm₁, text₁, hcar⟩ := ihcar hm hrun₁
    obtain ⟨rfl, hvisitp⟩ := arcVisitp_settles hm₁ hlookup
    obtain ⟨hm₂, text₂, htail⟩ := ihtail hm₁ hrun₂
    have hround : Settles (fun n => pprintCell n (arcDispWrite atom h n) (consLoop atom h n) car cdr)
        tbl (text₁ ++ text₂) tbl' := by
      refine hcar.bind (hvisitp.bind ?_)
      simp only [hk, decide_true, if_true]
      exact htail.bind settles_pure
    refine ⟨hm₂, _, hround.succ fun n => ?_⟩
    simp only [runJob, consLoop, hcell]
  | @next P v car cdr ops ops' hcell _ hk _ ihcar ihnext =>
    obtain ⟨t₁, hrun₁, hrest⟩ := visitsTo_append.mp hrun
    obtain ⟨t₂, hlookup, hrun₂⟩ := visitsTo_cons.mp hrest
    obtain ⟨hm₁, text₁, hcar⟩ := ihcar hm hrun₁
    obtain ⟨rfl, hvisitp⟩ := arcVisitp_settles hm₁ hlookup
    obtain ⟨hm₂, text₂, hnext⟩ := ihnext hm₁ hrun₂
    have hround : Settles (fun n => pprintCell n (arcDispWrite atom h n) (consLoop atom h n) car cdr)
        tbl (text₁ ++ (if cdr = .nil then [] else ascii " ") ++ text₂) tbl' := by
      refine hcar.bind (hvisitp.bind ?_)
      simp only [hk, decide_false, Bool.false_eq_true, if_false]
      exact hnext.bind settles_pure
    refine ⟨hm₂, _, hround.succ fun n => ?_⟩
    simp only [runJob, consLoop, hcell]
  | @seen P v hk =>
    obtain ⟨rfl, hvisitp⟩ := arcVisitp_settles hm hrun
    refine ⟨hm, ascii "(...)", hvisitp.bind ?_⟩
    simp only [hk, decide_true, if_true]
    exact settles_pure
  | @car P v ops hk _ ih =>
    obtain ⟨t₁, hlookup, hrun₁⟩ := visitsTo_cons.mp hrun
    obtain ⟨rfl, hvisitp⟩ := arcVisitp_settles hm hlookup
    obtain ⟨hm', text, hdisp⟩ := ih hm hrun₁
    refine ⟨hm', text, hvisitp.bind ?_⟩
    simp only [hk, decide_false, Bool.false_eq_true, if_false]
    exact hdisp
  | proper =>
    obtain rfl := visitsTo_nil.mp hrun
    exact ⟨hm, [], settles_pure⟩
  | @improper P v ops hnil _ ih =>
    obtain ⟨hm', text, hdisp⟩ := ih hm hrun
    refine ⟨hm', ascii " . " ++ text, ?_⟩
    simp only [runJob, pprintTail, hnil, if_false]
    exact hdisp.bind settles_pure

end Jobs

end Arcueid.Objects
