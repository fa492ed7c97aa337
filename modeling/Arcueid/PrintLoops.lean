import Arcueid.PrintEnds

/-! Printing a finite graph of conses ends exactly when each list that comes to be
printed leads by cdrs to an atom or to a list being printed, and the table of visited
lists can tell what was visited throughout. -/

namespace Arcueid.Objects

open Filter Outcome Settling

variable {h : Heap} {P : List Int} {v v₀ w : Val} {job : Job} {ops ops' : List (TableOp Int Val)}

section Walks

theorem Walk.unique (hw : Walk h P job ops) (hw' : Walk h P job ops') : ops = ops' := by
  induction hw generalizing ops' with
  | atom hcell =>
    cases hw' with
    | atom => rfl
    | again hcell' => simp [hcell] at hcell'
    | list hcell' => simp [hcell] at hcell'
  | again hcell hk =>
    cases hw' with
    | atom hcell' => simp [hcell'] at hcell
    | again => rfl
    | list _ hk' => exact absurd hk hk'
  | list hcell hk _ ih =>
    cases hw' with
    | atom hcell' => simp [hcell'] at hcell
    | again _ hk' => exact absurd hk' hk
    | list _ _ hloop => rw [ih hloop]
  | finish hcell _ ih =>
    cases hw' with
    | finish _ htail => exact ih htail
    | rejoin hcell' => simp [hcell] at hcell'
    | next hcell' => simp [hcell] at hcell'
  | rejoin hcell _ hk _ ihcar ihtail =>
    cases hw' with
    | finish hcell' => simp [hcell'] at hcell
    | rejoin hcell' hcar _ htail =>
      rw [hcell] at hcell'
      cases hcell'
      rw [ihcar hcar, ihtail htail]
    | next hcell' _ hk' =>
      rw [hcell] at hcell'
      cases hcell'
      exact absurd hk hk'
  | next hcell _ hk _ ihcar ihnext =>
    cases hw' with
    | finish hcell' => simp [hcell'] at hcell
    | rejoin hcell' _ hk' =>
      rw [hcell] at hcell'
      cases hcell'
      exact absurd hk' hk
    | next hcell' hcar _ hnext =>
      rw [hcell] at hcell'
      cases hcell'
      rw [ihcar hcar, ihnext hnext]
  | seen hk =>
    cases hw' with
    | seen => rfl
    | car hk' => exact absurd hk hk'
  | car hk _ ih =>
    cases hw' with
    | seen hk' => exact absurd hk' hk
    | car _ hdisp => rw [ih hdisp]
  | proper =>
    cases hw' with
    | proper => rfl
    | improper hnil => exact absurd rfl hnil
  | improper hnil _ ih =>
    cases hw' with
    | proper => exact absurd rfl hnil
    | improper _ hdisp => exact ih hdisp

theorem Walk.next_cell (hw : Walk h P (.loop v) ops) (hn : NextCell h P v w) :
    ∃ ops', Walk h P (.loop w) ops' := by
  obtain ⟨car, hcell, -, hk⟩ := hn
  cases hw with
  | finish hcell' => simp [hcell'] at hcell
  | rejoin hcell' _ hk' =>
    rw [hcell] at hcell'
    cases hcell'
    exact absurd hk' hk
  | next hcell' _ _ hnext =>
    rw [hcell] at hcell'
    cases hcell'
    exact ⟨_, hnext⟩

theorem Walk.chain (hw : Walk h P (.loop v) ops)
    (hchain : Relation.ReflTransGen (NextCell h P) v w) : ∃ ops', Walk h P (.loop w) ops' := by
  induction hchain with
  | refl => exact ⟨ops, hw⟩
  | tail _ hn ih =>
    obtain ⟨ops', hw'⟩ := ih
    exact hw'.next_cell hn

theorem Walk.spineEnds (hw : Walk h P (.loop v) ops) : SpineEnds h P v := by
  generalize hjob : Job.loop v = job at hw
  induction hw generalizing v with
  | finish hcell =>
    cases hjob
    refine ⟨_, .refl, fun w' hn => ?_⟩
    obtain ⟨car, hcell', -⟩ := hn
    simp [hcell] at hcell'
  | rejoin hcell _ hk =>
    cases hjob
    refine ⟨_, .refl, fun w' hn => ?_⟩
    obtain ⟨car, hcell', -, hk'⟩ := hn
    rw [hcell] at hcell'
    cases hcell'
    exact hk' hk
  | @next P v' car cdr ops ops' hcell _ hk _ _ ih =>
    cases hjob
    by_cases hsome : (h.cell cdr).isSome
    · obtain ⟨w, hchain, hend⟩ := ih rfl
      exact ⟨w, .head ⟨car, hcell, hsome, hk⟩ hchain, hend⟩
    · refine ⟨_, .refl, fun w' hn => ?_⟩
      obtain ⟨car', hcell', hsome', -⟩ := hn
      rw [hcell] at hcell'
      cases hcell'
      exact hsome hsome'
  | _ => cases hjob

theorem Walk.body (hw : Walk h P (.disp v) ops) (hcell : (h.cell v).isSome)
    (hk : arcVisitkey v ∉ P) : ∃ ops', Walk h (arcVisitkey v :: P) (.loop v) ops' := by
  cases hw with
  | atom hcell' => simp [hcell'] at hcell
  | again _ hk' => exact absurd hk' hk
  | list _ _ hloop => exact ⟨_, hloop⟩

theorem Walk.element {car cdr : Val} (hw : Walk h P (.loop v) ops)
    (hcell : h.cell v = some (car, cdr)) : ∃ ops', Walk h P (.car car) ops' := by
  cases hw with
  | finish hcell' => simp [hcell'] at hcell
  | rejoin hcell' hcar =>
    rw [hcell] at hcell'
    cases hcell'
    exact ⟨_, hcar⟩
  | next hcell' hcar =>
    rw [hcell] at hcell'
    cases hcell'
    exact ⟨_, hcar⟩

/-- A walk over a value walks over every list that comes to be printed. -/
theorem Walk.opens (hw : Walk h [] (.disp v₀) ops) (ho : Opens h v₀ P v) :
    ∃ ops', Walk h P (.loop v) ops' := by
  induction ho with
  | root hcell => exact hw.body hcell (by simp)
  | element _ hchain hcell hsome hk ih =>
    obtain ⟨ops₁, hloop⟩ := ih
    obtain ⟨ops₂, hloop'⟩ := hloop.chain hchain
    obtain ⟨ops₃, hcar⟩ := hloop'.element hcell
    cases hcar with
    | seen hk' => exact absurd hk' hk
    | car _ hdisp => exact hdisp.body hsome hk

theorem Walk.noLoop (hw : Walk h [] (.disp v₀) ops) : NoLoop h v₀ := by
  intro P v ho
  obtain ⟨ops', hloop⟩ := hw.opens ho
  exact hloop.spineEnds

end Walks

section Finite

theorem part_of_nextCell (hn : NextCell h P v w) : Part h v w := by
  obtain ⟨car, hcell, -⟩ := hn
  exact ⟨car, w, hcell, .inr rfl⟩

theorem reach_of_chain (hreach : Relation.ReflTransGen (Part h) v₀ v)
    (hchain : Relation.ReflTransGen (NextCell h P) v w) : Relation.ReflTransGen (Part h) v₀ w := by
  induction hchain with
  | refl => exact hreach
  | tail _ hn ih => exact ih.tail (part_of_nextCell hn)

/-- A tail that is an atom, or is being printed, has a walk. -/
theorem exists_walk_tail (hend : h.cell v = none ∨ arcVisitkey v ∈ P) :
    ∃ ops, Walk h P (.tail v) ops := by
  by_cases hnil : v = .nil
  · subst hnil
    exact ⟨[], .proper⟩
  · cases hcell : h.cell v with
    | none => exact ⟨_, .improper hnil (.atom hcell)⟩
    | some c =>
      rw [hcell] at hend
      exact ⟨_, .improper hnil (.again hcell (hend.resolve_left nofun))⟩

/-- The list has walks for all its elements, up to where it ends. -/
theorem exists_walk_loop (hcars : ∀ u car cdr, Relation.ReflTransGen (NextCell h P) v u →
      h.cell u = some (car, cdr) → ∃ ops, Walk h P (.car car) ops) (hends : SpineEnds h P v) :
    ∃ ops, Walk h P (.loop v) ops := by
  obtain ⟨w, hchain, hend⟩ := hends
  have hall : ∀ u, Relation.ReflTransGen (NextCell h P) u w →
      Relation.ReflTransGen (NextCell h P) v u → ∃ ops, Walk h P (.loop u) ops := by
    intro u hu
    induction hu using Relation.ReflTransGen.head_induction_on with
    | refl =>
      intro hv
      cases hcell : h.cell w with
      | none =>
        obtain ⟨ops, htail⟩ := exists_walk_tail (P := P) (.inl hcell)
        exact ⟨ops, .finish hcell htail⟩
      | some c =>
        obtain ⟨car, cdr⟩ := c
        obtain ⟨ops₁, hcar⟩ := hcars w car cdr hv hcell
        by_cases hk : arcVisitkey cdr ∈ P
        · obtain ⟨ops₂, htail⟩ := exists_walk_tail (h := h) (.inr hk)
          exact ⟨_, .rejoin hcell hcar hk htail⟩
        · have hnone : h.cell cdr = none := by
            by_contra hne
            exact hend cdr ⟨car, hcell, Option.isSome_iff_ne_none.mpr hne, hk⟩
          obtain ⟨ops₂, htail⟩ := exists_walk_tail (P := P) (.inl hnone)
          exact ⟨_, .next hcell hcar hk (.finish hnone htail)⟩
    | head hn _ ih =>
      intro hv
      obtain ⟨ops₂, hloop⟩ := ih (hv.tail hn)
      obtain ⟨car, hcell, -, hk⟩ := hn
      obtain ⟨ops₁, hcar⟩ := hcars _ car _ hv hcell
      exact ⟨_, .next hcell hcar hk hloop⟩
  exact hall v hchain .refl

/-- The keys of the reachable values that are not being printed. -/
noncomputable def keysLeft (hfin : {v | Relation.ReflTransGen (Part h) v₀ v}.Finite) (P : List Int) :
    Finset Int :=
  (hfin.toFinset.image arcVisitkey).filter (· ∉ P)

theorem keysLeft_cons_lt (hfin : {v | Relation.ReflTransGen (Part h) v₀ v}.Finite)
    (hreach : Relation.ReflTransGen (Part h) v₀ w) (hk : arcVisitkey w ∉ P) :
    (keysLeft hfin (arcVisitkey w :: P)).card < (keysLeft hfin P).card := by
  apply Finset.card_lt_card
  refine Finset.ssubset_iff.mpr ⟨arcVisitkey w, by simp [keysLeft], fun k hk' => ?_⟩
  rcases Finset.mem_insert.mp hk' with rfl | hk'
  · simp only [keysLeft, Finset.mem_filter, Finset.mem_image, Set.Finite.mem_toFinset]
    exact ⟨⟨w, hreach, rfl⟩, hk⟩
  · simp only [keysLeft, Finset.mem_filter, List.mem_cons, not_or] at hk' ⊢
    exact ⟨hk'.1, hk'.2.2⟩

theorem exists_walk_of_opens (hfin : {v | Relation.ReflTransGen (Part h) v₀ v}.Finite)
    (hloop : NoLoop h v₀) (n : Nat) (ho : Opens h v₀ P v)
    (hreach : Relation.ReflTransGen (Part h) v₀ v) (hlt : (keysLeft hfin P).card < n) :
    ∃ ops, Walk h P (.loop v) ops := by
  induction n generalizing P v with
  | zero => exact absurd hlt (Nat.not_lt_zero _)
  | succ n ih =>
    refine exists_walk_loop (fun u car cdr hchain hcell => ?_) (hloop P v ho)
    by_cases hk : arcVisitkey car ∈ P
    · exact ⟨_, .seen hk⟩
    · cases hcar : h.cell car with
      | none => exact ⟨_, .car hk (.atom hcar)⟩
      | some c =>
        have hreach' : Relation.ReflTransGen (Part h) v₀ car :=
          (reach_of_chain hreach hchain).tail ⟨car, cdr, hcell, .inl rfl⟩
        have hcard := keysLeft_cons_lt hfin hreach' hk
        obtain ⟨ops, hwalk⟩ := ih (.element ho hchain hcell (by simp [hcar]) hk) hreach' (by omega)
        exact ⟨_, .car hk (.list hcar hk hwalk)⟩

theorem exists_walk (hfin : {v | Relation.ReflTransGen (Part h) v₀ v}.Finite)
    (hloop : NoLoop h v₀) : ∃ ops, Walk h [] (.disp v₀) ops := by
  cases hcell : h.cell v₀ with
  | none => exact ⟨[], .atom hcell⟩
  | some c =>
    obtain ⟨ops, hwalk⟩ := exists_walk_of_opens hfin hloop _ (.root (by simp [hcell])) .refl
      (Nat.lt_succ_self _)
    exact ⟨_, .list hcell (by simp) hwalk⟩

end Finite

section Main

variable {atom : Val → List Rune}

theorem walk_of_writeEnds (hends : WriteEnds atom h v) :
    ∃ ops tbl, Walk h [] (.disp v) ops ∧ VisitsTo (arcMkhash arcHashbits) ops tbl := by
  obtain ⟨text, hwrite⟩ := hends
  obtain ⟨fuel, hfuel⟩ := hwrite.exists
  unfold arcWrite at hfuel
  cases hrun : (arcDispWrite atom h fuel v).run (arcMkhash arcHashbits) with
  | error e =>
    rw [hrun] at hfuel
    cases hfuel
  | ok p =>
    obtain ⟨text', tbl⟩ := p
    obtain ⟨ops, hwalk, hvisits, -⟩ := (follows_disp_loop fuel).1 v marked_new hrun
    exact ⟨ops, tbl, hwalk, hvisits⟩

theorem writeEnds_of_walk {tbl : VisitTable} (atom : Val → List Rune)
    (hwalk : Walk h [] (.disp v) ops) (hvisits : VisitsTo (arcMkhash arcHashbits) ops tbl) :
    WriteEnds atom h v := by
  obtain ⟨-, text, hsettles⟩ := hwalk.settles atom marked_new hvisits
  refine ⟨text, ?_⟩
  filter_upwards [hsettles] with fuel hfuel
  change (arcDispWrite atom h fuel v (arcMkhash arcHashbits) >>= fun p => pure p.1) = .ok text
  rw [show arcDispWrite atom h fuel v (arcMkhash arcHashbits) = .ok (text, tbl) from hfuel]
  rfl

theorem visitsTo_iff_stopped : (∃ tbl, VisitsTo (arcMkhash arcHashbits) ops tbl) ↔
    StoppedRun fixnumKeying fixnumKeying (arcMkhash arcHashbits) ops := by
  rw [← tableRun_terminates_iff (arcMkhash_sized arcHashbits)]
  constructor
  · rintro ⟨tbl, fuel, as, hrun⟩
    exact ⟨fuel, _, hrun⟩
  · rintro ⟨fuel, ⟨tbl, as⟩, hrun⟩
    exact ⟨tbl, fuel, as, hrun⟩

/-- Printing a finite graph of conses ends exactly when no list is walked over for ever,
and each visit of the walk meets a table with a never-used slot, or the visit's key. -/
theorem write_ends_iff (atom : Val → List Rune) (hgraph : ConsGraph h v) :
    WriteEnds atom h v ↔ NoLoop h v ∧ ∀ visits, Walk h [] (.disp v) visits →
      StoppedRun fixnumKeying fixnumKeying (arcMkhash arcHashbits) visits := by
  constructor
  · intro hends
    obtain ⟨ops, tbl, hwalk, hvisits⟩ := walk_of_writeEnds hends
    refine ⟨hwalk.noLoop, fun visits hwalk' => ?_⟩
    rw [hwalk'.unique hwalk]
    exact visitsTo_iff_stopped.mp ⟨tbl, hvisits⟩
  · rintro ⟨hloop, hstopped⟩
    obtain ⟨ops, hwalk⟩ := exists_walk hgraph.finite hloop
    obtain ⟨tbl, hvisits⟩ := visitsTo_iff_stopped.mpr (hstopped ops hwalk)
    exact writeEnds_of_walk atom hwalk hvisits

/-- A list of one element, in memory that holds nothing else. -/
theorem write_ends_one : WriteEnds (fun _ => ascii "1")
      (fun a => if a = 16 then .cons (.fixnum 1) .nil else .char 0) (.obj 16) ↔
    NoLoop (fun a => if a = 16 then .cons (.fixnum 1) .nil else .char 0) (.obj 16) ∧
      ∀ visits, Walk (fun a => if a = 16 then .cons (.fixnum 1) .nil else .char 0) []
          (.disp (.obj 16)) visits →
        StoppedRun fixnumKeying fixnumKeying (arcMkhash arcHashbits) visits := by
  have hreach : ∀ w, Relation.ReflTransGen
      (Part fun a => if a = 16 then .cons (.fixnum 1) .nil else .char 0) (.obj 16) w →
      w ∈ [.obj 16, .fixnum 1, .nil] := by
    intro w hw
    induction hw with
    | refl => simp
    | tail _ hpart ih =>
      obtain ⟨car, cdr, hcell, hw⟩ := hpart
      fin_cases ih
      · cases hcell
        rcases hw with rfl | rfl <;> simp
      · cases hcell
      · cases hcell
  refine write_ends_iff _ ⟨fun a ha => ?_, (List.finite_toSet _).subset hreach⟩
  have ha' := hreach _ ha
  simp only [List.mem_cons, Val.obj.injEq, reduceCtorEq, List.not_mem_nil, or_false] at ha'
  subst ha'
  rfl

/-- The list `(1 . y)`, where `y` is `(2 . y)`, never comes to its end. -/
theorem write_walks_for_ever : ¬ WriteEnds (fun _ => ascii "1")
    (fun a => if a = 16 then .cons (.fixnum 1) (.obj 32) else .cons (.fixnum 2) (.obj 32))
    (.obj 16) := by
  intro hends
  obtain ⟨ops, tbl, hwalk, -⟩ := walk_of_writeEnds hends
  obtain ⟨w, hchain, hend⟩ := hwalk.noLoop _ _ (.root rfl)
  have hkey : arcVisitkey (.obj 32) ∉ [arcVisitkey (.obj 16)] := by decide +kernel
  have hcell : ∃ a, w = .obj a := by
    cases hchain.cases_tail with
    | inl heq => exact ⟨16, heq⟩
    | inr htail =>
      obtain ⟨u, -, car, hcell, hsome, -⟩ := htail
      cases w with
      | obj a => exact ⟨a, rfl⟩
      | _ => cases hsome
  obtain ⟨a, rfl⟩ := hcell
  refine hend (.obj 32) ⟨if a = 16 then .fixnum 1 else .fixnum 2, ?_, rfl, hkey⟩
  by_cases ha : a = 16 <;> simp [Heap.cell, ha]

end Main

end Arcueid.Objects
