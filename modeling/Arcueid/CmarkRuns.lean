import Arcueid.CmarkStacks

/-! Runs of a thread with continuation marks: the table shows the marks of the
winds that `TCH` is inside of, and these are the marks of the code that runs. -/

namespace Arcueid.Cmarks

open Winding

abbrev Here (K V : Type) := List (Wind (Thunk K V))

variable {K V : Type}

/-- The marks that the winds of a state have pushed, innermost first. -/
def marksOf : Here K V → MarkList K V
  | [] => []
  | w :: here =>
    match w.before with
    | .push marks => marks.reverse ++ marksOf here
    | _ => marksOf here

/-- The thunks of a wind that was entered from `here`. -/
inductive Marked (here : Here K V) : Wind (Thunk K V) → Prop
  | marks (id : Nat) (marks : MarkList K V) : Marked here ⟨id, .push marks, .pop marks⟩
  | user (id : Nat) : Marked here ⟨id, .user (marksOf here), .user (marksOf here)⟩

/-- What a continuation finds when it is returned to in the state `cur`. -/
inductive Framed (states : List (Here K V)) (captured : List (Captured K V)) :
    List (Frame K V) → Here K V → Prop
  | nil {cur} : Framed states captured [] cur
  | code {fs cur} : Framed states captured fs cur →
      Framed states captured (.code (marksOf cur) :: fs) cur
  | hop {fs cur t} : t ∈ states → (∃ w, t = w :: cur ∨ cur = w :: t) →
      Framed states captured fs t → Framed states captured (.hop (top t) :: fs) cur
  | during {fs w here} : here ∈ states → Framed states captured fs here →
      Framed states captured (.during (top here) (marksOf (w :: here)) :: fs) (w :: here)
  | exitWind {fs w here} : here ∈ states → Framed states captured fs here →
      Framed states captured (.exitWind (top here) :: fs) (w :: here)
  | result {fs cur} : Framed states captured fs cur → Framed states captured (.result :: fs) cur
  | throw {fs cur k c} : captured[k]? = some c → c.tch = top cur →
      Framed states captured (.throw k :: fs) cur
  | broken {fs cur} : Framed states captured (.broken :: fs) cur

variable {states states' : List (Here K V)} {captured : List (Captured K V)} {fs : List (Frame K V)}
  {cur t : Here K V} {s s' : MarkThread K V}

theorem Framed.mono (h : Framed states captured fs cur) (hstates : states ⊆ states')
    (more : List (Captured K V)) : Framed states' (captured ++ more) fs cur := by
  induction h with
  | nil => exact .nil
  | code _ ih => exact .code ih
  | hop ht hnext _ ih => exact .hop (hstates ht) hnext ih
  | during hhere _ ih => exact .during (hstates hhere) ih
  | exitWind hhere _ ih => exact .exitWind (hstates hhere) ih
  | result _ ih => exact .result ih
  | throw hk htch =>
    have hlt := (List.getElem?_eq_some_iff.mp hk).1
    exact .throw (by rw [List.getElem?_append_left hlt, hk]) htch
  | broken => exact .broken

/-- The control of a thread in the state `cur`. -/
def InState (states : List (Here K V)) (s : MarkThread K V) (cur : Here K V) : Prop :=
  match s.control with
  | .code => s.env = marksOf cur ∧ Framed states s.captured s.conr cur
  | .returning => Framed states s.captured s.conr cur
  | .reroot there => ∃ t ∈ states, there = top t ∧ Framed states s.captured s.conr t
  | .raise => True
  | .ended => True

structure Inv (kg : LawfulKeying K) (s : MarkThread K V) (states : List (Here K V))
    (cur : Here K V) : Prop where
  rooted : Rooted states cur s.winds
  marked : ∀ w t, w :: t ∈ states → Marked t w
  holds : Holds kg s.cm (stacksOf kg (marksOf cur))
  captured : ∀ c ∈ s.captured, ∃ t ∈ states, c.tch = top t ∧ Framed states s.captured c.tcr t
  inState : InState states s cur

/-- The cell of a state that is not the current one leads to the next state. -/
theorem next_state {winds : WindThread (Thunk K V)} (hr : Rooted states cur winds)
    (ht : t ∈ states) (hne : winds.tch ≠ top t) : ∃ u ∈ states, ∃ w car,
      (t = w :: u ∨ u = w :: t) ∧ winds.cells[top t]? = some ⟨car, some (top u)⟩ := by
  have hout : ∀ {pre}, cur = pre ++ t → ∃ u ∈ states, ∃ w car,
      (t = w :: u ∨ u = w :: t) ∧ winds.cells[top t]? = some ⟨car, some (top u)⟩ := by
    intro pre hcur
    obtain hnil | ⟨outer, w, hpre⟩ := List.eq_nil_or_concat pre
    · rw [hnil, List.nil_append] at hcur
      exact (hne (hcur ▸ hr.here)).elim
    · rw [hpre, List.concat_eq_append, List.append_assoc, List.singleton_append] at hcur
      have hw : w :: t ∈ states := hr.grown.suffix (hcur ▸ hr.mem)
      have hid : w.id ∈ ids cur := by simp [hcur]
      exact ⟨w :: t, hw, w, _, .inr rfl, hr.outside hw hid⟩
  cases t with
  | nil => exact hout (List.append_nil cur).symm
  | cons w u =>
    by_cases hw : w.id ∈ ids cur
    · obtain ⟨pre, hcur⟩ := hr.grown.enclosed ht hr.mem hw
      exact hout hcur
    · exact ⟨u, (hr.grown.tail ht).1, w, _, .inl rfl, hr.inside ht hw⟩

section Steps

variable {kg : LawfulKeying K} {lndata : K}

theorem marked_push {w : Wind (Thunk K V)} {marks : MarkList K V} (hm : Marked t w)
    (hw : w.before = .push marks) : marksOf (w :: t) = marks.reverse ++ marksOf t := by
  cases hm with
  | marks id marks' =>
    cases hw
    rfl
  | user => cases hw

theorem marked_pop {w : Wind (Thunk K V)} {marks : MarkList K V} (hm : Marked t w)
    (hw : w.after = .pop marks) : marksOf (w :: t) = marks.reverse ++ marksOf t := by
  cases hm with
  | marks id marks' =>
    cases hw
    rfl
  | user => cases hw

theorem marked_user {w : Wind (Thunk K V)} {env : MarkList K V} (hm : Marked t w)
    (hw : w.before = .user env ∨ w.after = .user env) :
    env = marksOf t ∧ marksOf (w :: t) = marksOf t := by
  cases hm with
  | marks id marks' =>
    rcases hw with hw | hw
    · cases hw
    · cases hw
  | user id =>
    rcases hw with hw | hw
    · cases hw
      exact ⟨rfl, rfl⟩
    · cases hw
      exact ⟨rfl, rfl⟩

/-- The hop of a frame goes to the next state, and its thunk is that of the wind
between the two. -/
theorem Inv.hop {there : Nat} {before after : Thunk K V} {cdr : Option Nat}
    {conr : List (Frame K V)} (h : Inv kg s states cur)
    (hframed : Framed states s.captured (.hop there :: conr) cur)
    (hcell : s.winds.cells[there]? = some ⟨some (before, after), cdr⟩) :
    ∃ t w, Rooted states t (Arcueid.hop s.winds there before after) ∧
      Framed states s.captured conr t ∧
      (t = w :: cur ∧ Marked cur w ∧ w.before = before ∨
        cur = w :: t ∧ Marked t w ∧ w.after = before) := by
  cases hframed with
  | @hop _ _ t ht hnext hconr =>
    obtain ⟨w, rfl | rfl⟩ := hnext
    · have hid : w.id ∉ ids cur :=
        h.rooted.grown.not_mem_of_lt h.rooted.mem (h.rooted.grown.tail ht).2
      rw [top_cons, h.rooted.inside ht hid] at hcell
      cases hcell
      exact ⟨w :: cur, w, h.rooted.down ht, hconr, .inl ⟨rfl, h.marked w cur ht, rfl⟩⟩
    · have hin : w.id ∈ ids (w :: t) := List.mem_cons_self
      rw [h.rooted.outside h.rooted.mem hin] at hcell
      cases hcell
      exact ⟨t, w, h.rooted.up, hconr, .inr ⟨rfl, h.marked w t h.rooted.mem, rfl⟩⟩

theorem Inv.enterWind (h : Inv kg s states cur) (hcode : s.control = .code)
    {before after : Thunk K V} (hmarked : Marked cur ⟨states.length, before, after⟩) :
    Inv kg (s.enterWind before after (marksOf (⟨states.length, before, after⟩ :: cur)))
      (states ++ [⟨states.length, before, after⟩ :: cur]) cur := by
  have hsub : states ⊆ states ++ [⟨states.length, before, after⟩ :: cur] :=
    fun t ht => List.mem_append_left _ ht
  have hmono : ∀ {fs : List (Frame K V)} {t}, Framed states s.captured fs t →
      Framed (states ++ [⟨states.length, before, after⟩ :: cur]) s.captured fs t := by
    intro fs t hf
    have hf' := hf.mono hsub []
    rw [List.append_nil] at hf'
    exact hf'
  have hin := h.inState
  rw [InState, hcode] at hin
  refine ⟨h.rooted.grow, fun w t ht => ?_, h.holds, fun c hc => ?_, ?_⟩
  · rcases List.mem_append.mp ht with ht | ht
    · exact h.marked w t ht
    · obtain ⟨rfl, rfl⟩ := List.cons.inj (List.mem_singleton.mp ht)
      exact hmarked
  · obtain ⟨t, ht, htch, hf⟩ := h.captured c hc
    exact ⟨t, hsub ht, htch, hmono hf⟩
  · refine ⟨⟨states.length, before, after⟩ :: cur,
      List.mem_append_right _ (List.mem_singleton.mpr rfl), h.rooted.size, ?_⟩
    have hframe := Framed.during (w := ⟨states.length, before, after⟩) (hsub h.rooted.mem) (hmono hin.2)
    rw [← h.rooted.here] at hframe
    exact hframe

/-- A step that leaves the winds, the marks and the continuations as they are. -/
theorem Inv.setControl (h : Inv kg s states cur) (hwinds : s'.winds = s.winds) (hcm : s'.cm = s.cm)
    (hcap : s'.captured = s.captured) (hin : InState states s' cur) : Inv kg s' states cur := by
  refine ⟨hwinds ▸ h.rooted, h.marked, hcm ▸ h.holds, ?_, hin⟩
  rw [hcap]
  exact h.captured

theorem Inv.step (h : Inv kg s states cur) (hclean : Clean s)
    (hstep : Step kg.toKeying lndata s s') : ∃ states' cur', Inv kg s' states' cur' := by
  have hin := h.inState
  rw [InState] at hin
  cases hstep with
  | call hcode =>
    rw [hcode] at hin
    refine ⟨states, cur, h.setControl rfl rfl rfl ?_⟩
    rw [InState, hcode]
    exact ⟨hin.1, hin.1 ▸ .code hin.2⟩
  | areturn hcode =>
    rw [hcode] at hin
    exact ⟨states, cur, h.setControl rfl rfl rfl hin.2⟩
  | err => exact ⟨states, cur, h.setControl rfl rfl rfl trivial⟩
  | wind hcode =>
    rw [hcode] at hin
    rw [hin.1]
    exact ⟨_, cur, h.enterWind hcode (.user states.length)⟩
  | callWCmark marks hcode =>
    rw [hcode] at hin
    rw [MarkThread.callWCmark, hin.1]
    exact ⟨_, cur, h.enterWind hcode (.marks states.length marks)⟩
  | eval tbl hcode =>
    rw [hcode] at hin
    have hcall : Inv kg { s with conr := .code s.env :: s.conr } states cur := by
      refine h.setControl rfl rfl rfl ?_
      rw [InState, hcode]
      exact ⟨hin.1, hin.1 ▸ .code hin.2⟩
    rw [MarkThread.callWCmark, hin.1] at *
    exact ⟨_, cur, hcall.enterWind hcode (.marks states.length (lndataMarks lndata tbl))⟩
  | capture hcode =>
    rw [hcode] at hin
    refine ⟨states, cur, h.rooted, h.marked, h.holds, fun c hc => ?_, ?_⟩
    · rcases List.mem_append.mp hc with hc | hc
      · obtain ⟨t, ht, htch, hf⟩ := h.captured c hc
        exact ⟨t, ht, htch, hf.mono (List.Subset.refl _) _⟩
      · rw [List.mem_singleton.mp hc]
        exact ⟨cur, h.rooted.mem, h.rooted.here, hin.2.mono (List.Subset.refl _) _⟩
    · rw [InState, hcode]
      exact ⟨hin.1, hin.2.mono (List.Subset.refl _) _⟩
  | throw hcontrol hk =>
    obtain ⟨t, ht, htch, hf⟩ := h.captured _ (List.mem_of_getElem? hk)
    exact ⟨states, cur, h.setControl rfl rfl rfl ⟨t, ht, htch, .throw hk htch⟩⟩
  | broken =>
    have hroot : cur ++ [] ∈ states := by
      rw [List.append_nil]
      exact h.rooted.mem
    exact ⟨states, cur, h.setControl rfl rfl rfl ⟨[], h.rooted.grown.suffix hroot, rfl, .broken⟩⟩
  | arrive hcontrol hthere =>
    rw [hcontrol] at hin
    obtain ⟨t, ht, htop, hf⟩ := hin
    have hcur : t = cur :=
      h.rooted.grown.eq_of_top ht h.rooted.mem (by rw [← htop, ← hthere, h.rooted.here])
    exact ⟨states, cur, h.setControl rfl rfl rfl (hcur ▸ hf)⟩
  | descend hcontrol hne hcell hnext =>
    rw [hcontrol] at hin
    obtain ⟨t, ht, rfl, hf⟩ := hin
    obtain ⟨u, hu, w, car, htu, hlink⟩ := next_state h.rooted ht hne
    rw [hlink] at hcell
    cases hcell
    cases hnext
    exact ⟨states, cur, h.setControl rfl rfl rfl ⟨u, hu, rfl, .hop ht ⟨w, htu⟩ hf⟩⟩
  | @hopUser there env after cdr conr hcontrol hconr hcell =>
    rw [hcontrol, hconr] at hin
    obtain ⟨t, w, hrooted, hf, hside⟩ := h.hop hin hcell
    have hboth : env = marksOf t ∧ marksOf t = marksOf cur := by
      rcases hside with ⟨rfl, hmarked, hw⟩ | ⟨rfl, hmarked, hw⟩
      · obtain ⟨henv, heq⟩ := marked_user hmarked (.inl hw)
        exact ⟨henv.trans heq.symm, heq⟩
      · obtain ⟨henv, heq⟩ := marked_user hmarked (.inr hw)
        exact ⟨henv, heq.symm⟩
    exact ⟨states, t, hrooted, h.marked, hboth.2 ▸ h.holds, h.captured, hboth.1, hf⟩
  | hopPush hcontrol hconr hcell hcm =>
    rw [hcontrol, hconr] at hin
    obtain ⟨t, w, hrooted, hf, hside⟩ := h.hop hin hcell
    refine ⟨states, t, hrooted, h.marked, ?_, h.captured, ?_⟩
    · have hpush := Holds.scmarks h.holds hcm
      rw [pushes_stacksOf] at hpush
      rcases hside with ⟨rfl, hmarked, hw⟩ | ⟨rfl, hmarked, hw⟩
      · rw [marked_push hmarked hw]
        exact hpush
      · cases hmarked with
        | marks => cases hw
        | user => cases hw
    · rw [InState, hcontrol]
      exact hf
  | hopPop hcontrol hconr hcell hcm =>
    rw [hcontrol, hconr] at hin
    obtain ⟨t, w, hrooted, hf, hside⟩ := h.hop hin hcell
    refine ⟨states, t, hrooted, h.marked, ?_, h.captured, ?_⟩
    · have hpop := Holds.ccmarks h.holds hcm
      rcases hside with ⟨rfl, hmarked, hw⟩ | ⟨rfl, hmarked, hw⟩
      · cases hmarked with
        | marks => cases hw
        | user => cases hw
      · rw [marked_pop hmarked hw, pops_stacksOf] at hpop
        exact hpop
    · rw [InState, hcontrol]
      exact hf
  | during hcontrol hconr =>
    rw [hcontrol, hconr] at hin
    cases hin with
    | during hhere hf =>
      exact ⟨states, _, h.setControl rfl rfl rfl ⟨rfl, .exitWind hhere hf⟩⟩
  | exitWind hcontrol hconr =>
    rw [hcontrol, hconr] at hin
    cases hin with
    | exitWind hhere hf =>
      exact ⟨states, _, h.setControl rfl rfl rfl ⟨_, hhere, rfl, .result hf⟩⟩
  | toResult hcontrol hconr =>
    rw [hcontrol, hconr] at hin
    refine ⟨states, cur, h.setControl rfl rfl rfl ?_⟩
    rw [InState, hcontrol]
    cases hin with
    | result hf => exact hf
  | toCode hcontrol hconr =>
    rw [hcontrol, hconr] at hin
    cases hin with
    | code hf => exact ⟨states, cur, h.setControl rfl rfl rfl ⟨rfl, hf⟩⟩
  | @toThrow k c conr hcontrol hconr hk =>
    rw [hcontrol, hconr] at hin
    refine ⟨states, cur, h.setControl rfl rfl rfl ?_⟩
    rw [InState, hcontrol]
    obtain ⟨t, ht, htch, hf⟩ := h.captured c (List.mem_of_getElem? hk)
    have hcur : t = cur := by
      cases hin with
      | throw hk' htch' =>
        rw [hk] at hk'
        cases hk'
        exact h.rooted.grown.eq_of_top ht h.rooted.mem (htch.symm.trans htch')
    subst hcur
    change Framed states s.captured (if c.tcr.isEmpty then conr else c.tcr) t
    split
    · next hempty =>
      rw [hclean k c conr hcontrol hconr hk (List.isEmpty_iff.mp hempty)]
      exact .nil
    · exact hf
  | toBroken => exact ⟨states, cur, h.setControl rfl rfl rfl trivial⟩
  | release => exact ⟨states, cur, h.setControl rfl rfl rfl trivial⟩

theorem Inv.start : Inv kg (startThread : MarkThread K V) [[]] [] := by
  refine ⟨⟨.start, List.mem_cons_self, rfl, rfl, rfl, fun hs => ?_, fun hs => ?_⟩, fun w t ht => ?_,
    ?_, fun c hc => ?_, ⟨rfl, .nil⟩⟩
  · simp at hs
  · simp at hs
  · simp at ht
  · have hnone : Stacks.map (stacksOf kg (marksOf ([] : Here K V))) = fun _ => none := by
      funext q
      simp [Stacks.map, stacksOf, marksOf]
    rw [Holds, hnone]
    exact arcMkhash_refines kg 6
  · cases hc

theorem arcCmark_eq_map (fuel : Nat) (kg : Keying K) (cm : Table K (List V)) (nil : V) (key : K) :
    arcCmark fuel kg cm nil key =
      (arcHashLookup fuel kg cm key).map fun bind => (bind.getD []).headD nil := by
  rw [arcCmark]
  cases arcHashLookup fuel kg cm key with
  | none => rfl
  | some bind =>
    cases bind with
    | none => rfl
    | some val => rfl

theorem Inv.marksActive (h : Inv kg s states cur) (hcode : s.control = .code) (nil : V) :
    MarksActive kg.toKeying nil s := by
  have hin := h.inState
  rw [InState, hcode] at hin
  have hstack : ∀ key fuel bind, arcHashLookup fuel kg.toKeying s.cm key = some bind →
      bind.getD [] = marksFor kg.toKeying s.env key := by
    intro key fuel bind hl
    rw [Holds.lookup h.holds hl, Stacks.map_getD, stacksOf_key, hin.1]
  refine ⟨hstack, fun key => ?_⟩
  rw [← probeFor_terminates_iff]
  constructor
  · rintro ⟨fuel, hcmark⟩
    rw [arcCmark_eq_map] at hcmark
    obtain ⟨bind, hl, -⟩ := Option.map_eq_some_iff.mp hcmark
    rw [arcHashLookup, hashLookup_eq_map] at hl
    obtain ⟨r, hr, -⟩ := Option.bind_eq_some_iff.mp hl
    obtain ⟨p, hp, -⟩ := Option.map_eq_some_iff.mp hr
    exact ⟨fuel, p, hp⟩
  · rintro ⟨fuel, p, hp⟩
    have hl : arcHashLookup fuel kg.toKeying s.cm key = some (p.2.bind Bucket.bvalue) := by
      rw [arcHashLookup, hashLookup_eq_map, hp]
      rfl
    refine ⟨fuel, ?_⟩
    rw [arcCmark_eq_map, hl, Option.map_some, hstack key fuel _ hl]

/-- In any run whose steps are clean, `cmark` answers wherever code runs with the
value of the innermost call that is active, and the marks of the calls that have
been left, in whatever way, are gone. -/
theorem marksActive_of_run (nil : V)
    (hrun : Relation.ReflTransGen (fun s t => Clean s ∧ Step kg.toKeying lndata s t) startThread s)
    (hcode : s.control = .code) : MarksActive kg.toKeying nil s := by
  have hinv : ∃ states cur, Inv kg s states cur := by
    clear hcode
    induction hrun with
    | refl => exact ⟨[[]], [], .start⟩
    | tail _ hstep ih =>
      obtain ⟨states, cur, h⟩ := ih
      exact h.step hstep.1 hstep.2
  obtain ⟨states, cur, h⟩ := hinv
  exact h.marksActive hcode nil

end Steps

theorem clean_of_control (h : s.control ≠ .returning) : Clean s := fun _ _ _ hc => absurd hc h

theorem clean_of_conr (h : ∀ k conr, s.conr ≠ .throw k :: conr) : Clean s :=
  fun k _ conr _ hconr => absurd hconr (h k conr)

theorem marksActive_of_run_one : ∃ s : MarkThread Int Nat, s.control = .code ∧ s.env = [(1, 5)] ∧
    MarksActive fixnumKeying 0 s := by
  have hscmarks : (scmarks 2 fixnumKeying (arcMkhash 6) [((1 : Int), (5 : Nat))]).isSome = true := by
    decide +kernel
  obtain ⟨cm, hcm⟩ := Option.isSome_iff_exists.mp hscmarks
  let Run := Relation.ReflTransGen
    fun s t : MarkThread Int Nat => Clean s ∧ Step fixnumKeying 0 s t
  have hcall : Run startThread (startThread.callWCmark [(1, 5)]) :=
    .single ⟨clean_of_control (by intro h; cases h), .callWCmark _ rfl⟩
  have hdescend := hcall.tail ⟨clean_of_control (by intro h; cases h), .descend rfl (by decide) rfl rfl⟩
  have harrive := hdescend.tail ⟨clean_of_control (by intro h; cases h), .arrive rfl rfl⟩
  have hpush := harrive.tail ⟨clean_of_conr (by intro k conr h; cases h), .hopPush rfl rfl rfl hcm⟩
  have hduring := hpush.tail ⟨clean_of_conr (by intro k conr h; cases h), .during rfl rfl⟩
  have hactive : MarksActive fixnumLawful.toKeying 0 _ := marksActive_of_run 0 hduring rfl
  exact ⟨_, rfl, rfl, hactive⟩

/-- A continuation captured with nothing pending, applied by the thunk of a
`call-w/cmark`: the thunk goes on, and its mark is gone. -/
theorem cmark_lost : ∃ s : MarkThread Int Nat,
    Relation.ReflTransGen (Step fixnumKeying 0) startThread s ∧ s.control = .code ∧
      s.env = [(1, 5)] ∧ ∃ fuel, arcCmark fuel fixnumKeying s.cm 0 1 = some 0 := by
  have htable : ((scmarks 2 fixnumKeying (arcMkhash 6) [((1 : Int), (5 : Nat))]).bind fun cm =>
      (ccmarks 2 fixnumKeying cm [(1, 5)]).bind fun cm => arcCmark 2 fixnumKeying cm 0 1) =
        some 0 := by
    decide +kernel
  obtain ⟨cm, hscmarks, htable⟩ := Option.bind_eq_some_iff.mp htable
  obtain ⟨cm', hccmarks, hcmark⟩ := Option.bind_eq_some_iff.mp htable
  let Run := Relation.ReflTransGen (@Step Int Nat fixnumKeying 0)
  have hk : ([⟨[], 0⟩] : List (Captured Int Nat))[0]? = some ⟨[], 0⟩ := rfl
  have hcapture : Run startThread { startThread with captured := [⟨[], 0⟩] } := .single (.capture rfl)
  have hcall := (hcapture.tail (.callWCmark [(1, 5)] rfl)).tail (.descend rfl (by decide) rfl rfl)
  have hpush := (hcall.tail (.arrive rfl rfl)).tail (.hopPush rfl rfl rfl hscmarks)
  have hduring := (hpush.tail (.during rfl rfl)).tail (.call rfl)
  have hthrow := hduring.tail (.throw (.inl rfl) hk)
  have hreroot := (hthrow.tail (.descend rfl (Nat.succ_ne_zero 0) rfl rfl)).tail (.arrive rfl rfl)
  have hpop := hreroot.tail (.hopPop rfl rfl rfl hccmarks)
  have hcode := (hpop.tail (.toThrow rfl rfl hk)).tail (.toCode rfl rfl)
  exact ⟨_, hcode, rfl, rfl, 2, hcmark⟩

end Arcueid.Cmarks
