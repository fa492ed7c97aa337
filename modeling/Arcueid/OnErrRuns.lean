import Mathlib.Data.List.Forall2
import Arcueid.OnErrRefinement

/-! Runs of the machine of `err.c` against the handler frames. -/

namespace Arcueid

open Winding

variable {V α : Type}

/-- The value `TEXH` should have: the continuation that waits for the innermost
`on-err` whose thunk runs, and its handler. -/
def inForce : List (Frame V α) → Texh V α
  | .exitWind here :: .onErr h :: fs => some (⟨.onErr h :: fs, here⟩, h)
  | _ :: fs => inForce fs
  | [] => none

theorem Framed.inForce_exitWind {acts : Nat → Option (Activation V α)} {here : Here α}
    {fs : List (Frame V α)} {gs : List (SFrame V α)} (hf : Framed acts fs here gs) (out : Here α) :
    inForce (.exitWind out :: fs) = inForce fs := by
  cases hf with
  | nil => simp [inForce]
  | seq => simp [inForce]
  | wind => simp [inForce]
  | handle => simp [inForce]

theorem Framed.texhOf_inForce {acts : Nat → Option (Activation V α)} {here : Here α}
    {fs : List (Frame V α)} {gs : List (SFrame V α)} (hf : Framed acts fs here gs) :
    texhOf acts here = inForce fs := by
  induction hf with
  | nil => simp [texhOf, inForce]
  | seq _ ih => simpa [inForce] using ih
  | wind hf ih => simpa [texhOf, hf.inForce_exitWind] using ih
  | handle _ ha _ =>
    obtain ⟨old, ha⟩ := ha
    simp [texhOf, inForce, ha]

/-- Where control is. -/
inductive Shown (x : Exceptions V) : ErrThread V α → SControl V α → Prop
  | eval {s : ErrThread V α} {p} : s.control = .eval p → Shown x s (.eval p)
  | returned {s : ErrThread V α} {v h fs} : s.control = .eval (.ret v) → s.frames = .onErr h :: fs →
      x.isException v = false → Shown x s (.leave (.ok v) h)
  | raised {s : ErrThread V α} {v h fs} : s.control = .eval (.ret v) → s.frames = .onErr h :: fs →
      x.isException v = true → Shown x s (.leave (.error v) h)
  | broken {s : ErrThread V α} {v} : s.control = .broken v → Shown x s (.broken v)

/-- The machine does what the handler frames say, and `TEXH` is what is in force. -/
structure Agrees (x : Exceptions V) (s : ErrThread V α) (t : SThread V α) : Prop where
  control : Shown x s t.control
  log : s.log = t.log
  texh : s.texh = inForce s.frames

/-- What holds of the winds, the activations and the continuations. -/
structure Stored (s : ErrThread V α) (t : SThread V α) : Prop where
  grown : Grown s.states
  mem : s.here ∈ s.states
  nwinds : t.nwinds = s.states.length
  fresh : ∀ id, s.states.length ≤ id → s.acts id = none
  ok : ∀ w ∈ s.here, WindOk s.acts w
  winds : windsOf t.frames = s.here.map (Wind.map WindThunk.label)
  force : InForce s s.here
  conts : List.Forall₂ (fun cont gs => cont.tch ∈ s.states ∧ Framed s.acts cont.tcr cont.tch gs)
    s.conts t.conts
  log : t.log = s.log

theorem forall₂_getElem? {A B : Type*} {R : A → B → Prop} {as : List A} {bs : List B}
    (h : List.Forall₂ R as bs) (k : Nat) :
    as[k]? = none ∧ bs[k]? = none ∨ ∃ a b, as[k]? = some a ∧ bs[k]? = some b ∧ R a b := by
  induction h generalizing k with
  | nil => simp
  | cons hab _ ih =>
    cases k with
    | zero => exact .inr ⟨_, _, rfl, rfl, hab⟩
    | succ k => simpa using ih k

section Moves

variable {s : ErrThread V α} {t : SThread V α} {there : Here α} {fs : List (Frame V α)}
  {gs : List (SFrame V α)} {frame : SFrame V α} {w : Wind (WindThunk α)}

open ErrThread

theorem filterMap_label (ts : List (WindThunk α)) :
    (ts.map WindThunk.label).filterMap (Option.map .thunk) = (labels ts : List (Event V α)) := by
  simp [labels, List.filterMap_map]

/-- A move of control to frames and to the state of their winds. -/
theorem Stored.goto (h : Stored s t) (hthere : there ∈ s.states) (hf : Framed s.acts fs there gs)
    (c : SControl V α) :
    Stored (s.reroot there) (t.goto gs c) ∧ Framed (s.reroot there).acts fs there gs ∧
      (s.reroot there).here = there ∧ (s.reroot there).frames = s.frames := by
  obtain ⟨texh, acts, hrun, hk, hnone, hforce⟩ :=
    reroot_spec h.grown h.mem hthere h.force h.ok hf.windOk
  rw [hrun]
  have hf' : Framed acts fs there gs := hf.keeps hk
  have hlog : (t.goto gs c).log = s.log ++ labels (thunks s.here there) := by
    rw [SThread.goto, h.winds, hf.windsOf_eq, thunks_map, filterMap_label, h.log]
  refine ⟨?_, hf', rfl, rfl⟩
  exact {
    grown := h.grown
    mem := hthere
    nwinds := h.nwinds
    fresh := fun id hid => (hnone id).mpr (h.fresh id hid)
    ok := hf'.windOk
    winds := hf'.windsOf_eq
    force := ⟨hforce.texh, hforce.olds⟩
    conts := h.conts.imp fun cont gs' hcont => ⟨hcont.1, hcont.2.keeps hk⟩
    log := hlog }

/-- A new wind inside of the state that control is in. -/
theorem Stored.extend {acts : Nat → Option (Activation V α)} (h : Stored s t)
    (hk : Keeps s.acts acts) (hacts : ∀ i, i ≠ s.states.length → acts i = s.acts i)
    (before after : WindThunk α) :
    Stored { s with
        states := s.states ++ [⟨s.states.length, before, after⟩ :: s.here]
        acts := acts }
      { t with nwinds := t.nwinds + 1 } := by
  have hnew : s.states.length ∉ ids s.here := h.grown.not_mem_of_lt h.mem (h.grown.top_lt h.mem)
  exact {
    grown := h.grown.wind h.mem
    mem := List.mem_append_left _ h.mem
    nwinds := by simp [h.nwinds]
    fresh := by
      intro id hid
      simp only [List.length_append, List.length_singleton] at hid
      have hne : acts id = s.acts id := hacts id (by omega)
      exact hne.trans (h.fresh id (by omega))
    ok := fun w hw => hk.windOk (h.ok w hw)
    winds := h.winds
    force := ⟨h.force.texh.trans (hk.texhOf h.ok).symm, h.force.olds.update h.ok hk hnew hacts⟩
    conts := h.conts.imp fun cont gs' hcont =>
      ⟨List.mem_append_left _ hcont.1, hcont.2.keeps hk⟩
    log := h.log }

theorem Stored.resume (h : Stored s t) (c : Control V α) (fs : List (Frame V α)) :
    Stored { s with control := c, frames := fs } t :=
  ⟨h.grown, h.mem, h.nwinds, h.fresh, h.ok, h.winds, ⟨h.force.texh, h.force.olds⟩, h.conts, h.log⟩

theorem Stored.resumeSpec (h : Stored s t) (c : SControl V α) (hg : windsOf gs = windsOf t.frames) :
    Stored s { t with control := c, frames := gs } :=
  ⟨h.grown, h.mem, h.nwinds, h.fresh, h.ok, hg.trans h.winds, h.force, h.conts, h.log⟩

end Moves

/-- The frames of the machine are those of the semantics. -/
inductive Running (x : Exceptions V) (s : ErrThread V α) (t : SThread V α) : Prop
  | eval {p} : s.control = .eval p → t.control = .eval p →
      Framed s.acts s.frames s.here t.frames → Running x s t
  | leave {v h fs r} : s.control = .eval (.ret v) → s.frames = .onErr h :: fs →
      t.control = .leave r h → Framed s.acts fs s.here t.frames →
      (r = .ok v ∧ x.isException v = false ∨ r = .error v ∧ x.isException v = true) → Running x s t
  | broken {v} : s.control = .broken v → t.control = .broken v → s.here = [] →
      inForce s.frames = none → Running x s t

structure Simulates (x : Exceptions V) (s : ErrThread V α) (t : SThread V α) : Prop where
  stored : Stored s t
  running : Running x s t

section Steps

variable {x : Exceptions V} {s : ErrThread V α} {t : SThread V α}

open ErrThread

theorem Simulates.agrees (h : Simulates x s t) : Agrees x s t := by
  obtain ⟨hst, hrun⟩ := h
  have htexh := hst.force.texh
  cases hrun with
  | eval hs ht hf =>
    exact ⟨ht ▸ .eval hs, hst.log.symm, htexh.trans hf.texhOf_inForce⟩
  | @leave v h fs r hs hfs ht hf hr =>
    have hforce : inForce s.frames = inForce fs := by simp [hfs, inForce]
    refine ⟨?_, hst.log.symm, by rw [hforce, ← hf.texhOf_inForce, htexh]⟩
    rw [ht]
    rcases hr with ⟨rfl, hv⟩ | ⟨rfl, hv⟩
    · exact .returned hs hfs hv
    · exact .raised hs hfs hv
  | broken hs ht hhere hnone =>
    refine ⟨ht ▸ .broken hs, hst.log.symm, ?_⟩
    rw [htexh, hhere, hnone]
    rfl

theorem Simulates.start (p : Prog V α) : Simulates x (startThread p) (specThread p) where
  stored := {
    grown := .start
    mem := List.mem_singleton.mpr rfl
    nwinds := rfl
    fresh := fun _ _ => rfl
    ok := by simp [startThread]
    winds := rfl
    force := ⟨rfl, trivial⟩
    conts := .nil
    log := rfl }
  running := .eval rfl rfl .nil

/-- Entering a wind whose frames show a new frame of the semantics. -/
theorem Stored.enterWind {acts : Nat → Option (Activation V α)} {fs : List (Frame V α)}
    {frame : SFrame V α} {before after : WindThunk α} (h : Stored s t)
    (hk : Keeps s.acts acts) (hacts : ∀ i, i ≠ s.states.length → acts i = s.acts i)
    (hf : Framed acts (.exitWind s.here :: fs)
      (⟨s.states.length, before, after⟩ :: s.here) (frame :: t.frames)) (p : Prog V α) :
    Simulates x ({ s with frames := fs, acts := acts }.enterWind before after p)
      (t.enter frame p) := by
  let there : Here α := ⟨s.states.length, before, after⟩ :: s.here
  have hext := (h.extend hk hacts before after).resume s.control fs
  have hthere : there ∈ s.states ++ [there] := List.mem_append_right _ (List.mem_singleton.mpr rfl)
  obtain ⟨hst, hf', hhere, -⟩ := hext.goto hthere hf (.eval p)
  constructor
  · exact hst.resume _ _
  · apply Running.eval (p := p) rfl rfl
    rw [← hhere] at hf'
    exact hf'

theorem Stored.contwrapper {cont : Captured V α} {gs : List (SFrame V α)} (h : Stored s t)
    (hmem : cont.tch ∈ s.states) (hf : Framed s.acts cont.tcr cont.tch gs)
    (hne : cont.tcr = [] → s.frames = []) (v : V) :
    Simulates x (s.contwrapper cont v) (t.goto gs (.eval (.ret v))) := by
  obtain ⟨hst, hf', hhere, hfs⟩ := h.goto hmem hf (.eval (.ret v))
  have hrun : s.contwrapper cont v =
      { s.reroot cont.tch with control := .eval (.ret v), frames := cont.tcr } := by
    cases htcr : cont.tcr with
    | nil =>
      have hnil : (s.reroot cont.tch).frames = [] := hfs.trans (hne htcr)
      rw [← hnil]
      simp [ErrThread.contwrapper, htcr]
    | cons f fs => simp [ErrThread.contwrapper, htcr]
  rw [hrun]
  constructor
  · exact hst.resume _ _
  · apply Running.eval (p := .ret v) rfl rfl
    rw [← hhere] at hf'
    exact hf'

theorem Stored.raise (h : Stored s t) (hf : Framed s.acts s.frames s.here t.frames) {exc : V}
    (hexc : x.isException exc = true) : Simulates x (s.raise exc) (t.raise exc) := by
  have htexh := h.force.texh
  rcases hf.texhOf_eq with ⟨hin, hnone⟩ | ⟨h', gs, fs, here, hin, hsome, hf', hsuf⟩
  · rw [hnone] at htexh
    have hroot : ([] : Here α) ∈ s.states :=
      h.grown.suffix (show s.here ++ [] ∈ s.states by simpa using h.mem)
    obtain ⟨hst, -, hhere, hfs⟩ := h.goto hroot .nil (.broken exc)
    have hs : s.raise exc = { s.reroot [] with control := .broken exc } := by
      simp [ErrThread.raise, htexh]
    have ht : t.raise exc = t.goto [] (.broken exc) := by simp [SThread.raise, hin]
    rw [hs, ht]
    constructor
    · exact hst.resume _ (s.reroot []).frames
    · have hout : inForce (s.reroot []).frames = none := by
        rw [hfs, ← hf.texhOf_inForce, hnone]
      exact .broken (v := exc) rfl rfl hhere hout
  · rw [hsome] at htexh
    obtain ⟨pre, hpre⟩ := hsuf
    have hmem : here ∈ s.states := h.grown.suffix (show pre ++ here ∈ s.states from hpre ▸ h.mem)
    obtain ⟨hst, hf', hhere, -⟩ := h.goto hmem hf' (.leave (.error exc) h')
    have hs : s.raise exc =
        { s.reroot here with control := .eval (.ret exc), frames := .onErr h' :: fs } := by
      simp [ErrThread.raise, htexh, ErrThread.contwrapper]
    have ht : t.raise exc = t.goto gs (.leave (.error exc) h') := by simp [SThread.raise, hin]
    rw [hs, ht]
    constructor
    · exact hst.resume _ _
    · rw [← hhere] at hf'
      exact .leave rfl rfl rfl hf' (.inr ⟨rfl, hexc⟩)

theorem Stored.ret (h : Stored s t) (hf : Framed s.acts s.frames s.here t.frames) {v : V}
    (hclean : ∀ here handler fs, s.frames = .exitWind here :: .onErr handler :: fs →
      x.isException v = false) :
    Option.Rel (Simulates x) (s.ret x v) (t.ret v) := by
  generalize hfs : s.frames = fs at hf
  generalize hhere : s.here = here at hf
  generalize hgs : t.frames = gs at hf
  cases hf with
  | nil =>
    simp only [ErrThread.ret, SThread.ret, hfs, hgs]
    exact .none
  | @seq k fs here gs hf =>
    simp only [ErrThread.ret, SThread.ret, hfs, hgs]
    apply Option.Rel.some
    constructor
    · exact (h.resume _ _).resumeSpec _ (by rw [hgs]; rfl)
    · apply Running.eval (p := k v) rfl rfl
      rw [← hhere] at hf
      exact hf
  | @wind id b a fs here gs hf =>
    have hmem : here ∈ s.states := (h.grown.tail (hhere ▸ h.mem)).1
    obtain ⟨hst, hf', hhere', -⟩ := h.goto hmem hf (.eval (.ret v))
    simp only [ErrThread.ret, SThread.ret, hfs, hgs]
    apply Option.Rel.some
    constructor
    · exact hst.resume _ _
    · apply Running.eval (p := .ret v) rfl rfl
      rw [← hhere'] at hf'
      exact hf'
  | @handle id handler fs here gs hf ha =>
    have hv : x.isException v = false := hclean _ _ _ hfs
    have hmem : here ∈ s.states := (h.grown.tail (hhere ▸ h.mem)).1
    obtain ⟨hst, hf', hhere', -⟩ := h.goto hmem hf (.leave (.ok v) handler)
    simp only [ErrThread.ret, SThread.ret, hfs, hgs]
    apply Option.Rel.some
    constructor
    · exact hst.resume _ _
    · rw [← hhere'] at hf'
      exact .leave rfl rfl rfl hf' (.inl ⟨rfl, hv⟩)

theorem Simulates.step (h : Simulates x s t) (hclean : s.CleanStep x) :
    Option.Rel (Simulates x) (s.step x) (t.step x) := by
  obtain ⟨hst, hrun⟩ := h
  cases hrun with
  | broken hs ht =>
    simp [ErrThread.step, SThread.step, hs, ht]
  | @leave v handler fs r hs hfs ht hf hr =>
    rcases hr with ⟨rfl, hv⟩ | ⟨rfl, hv⟩
    · have hstep : s.step x = some { s with control := .eval (.ret v), frames := fs } := by
        simp [ErrThread.step, ErrThread.ret, hs, hfs, hv]
      have hstep' : t.step x = some { t with control := .eval (.ret v) } := by
        simp [SThread.step, ht]
      rw [hstep, hstep']
      apply Option.Rel.some
      constructor
      · exact (hst.resume _ _).resumeSpec _ rfl
      · exact .eval (p := .ret v) rfl rfl hf
    · have hstep : s.step x = some { s with
          control := .eval (handler v), frames := fs, log := s.log ++ [.handled v] } := by
        simp [ErrThread.step, ErrThread.ret, hs, hfs, hv]
      have hstep' : t.step x = some { t with
          control := .eval (handler v), log := t.log ++ [.handled v] } := by
        simp [SThread.step, ht]
      rw [hstep, hstep']
      apply Option.Rel.some
      constructor
      · exact { (hst.resume (.eval (handler v)) fs) with
          force := ⟨hst.force.texh, hst.force.olds⟩
          log := by simp [hst.log] }
      · exact .eval (p := handler v) rfl rfl hf
  | @eval p hs ht hf =>
    cases p with
    | ret v =>
      have hret : s.step x = s.ret x v := by simp [ErrThread.step, hs]
      have hret' : t.step x = t.ret v := by simp [SThread.step, ht]
      rw [hret, hret']
      exact hst.ret hf fun here handler fs => hclean.1 v here handler fs hs
    | bind p k =>
      simp only [ErrThread.step, SThread.step, hs, ht]
      apply Option.Rel.some
      constructor
      · exact (hst.resume _ _).resumeSpec _ rfl
      · exact .eval (p := p) rfl rfl (.seq hf)
    | err str =>
      simp only [ErrThread.step, SThread.step, hs, ht]
      exact .some (hst.raise hf (x.isException_mkexception str))
    | onErr handler thunk =>
      simp only [ErrThread.step, SThread.step, hs, ht]
      apply Option.Rel.some
      let act : Activation V α := ⟨⟨.onErr handler :: s.frames, s.here⟩, none, handler⟩
      let acts := fun i => if i = s.states.length then some act else s.acts i
      have hother : ∀ i, i ≠ s.states.length → acts i = s.acts i := fun i hi => by simp [acts, hi]
      have hk : Keeps s.acts acts := by
        intro id a ha
        have hne : id ≠ s.states.length := by
          rintro rfl
          simp [hst.fresh s.states.length (Nat.le_refl _)] at ha
        exact ⟨a, (hother id hne).trans ha, rfl, rfl⟩
      have ha : Activates acts s.states.length ⟨.onErr handler :: s.frames, s.here⟩ handler :=
        ⟨none, by simp [acts, act]⟩
      rw [hst.nwinds]
      exact hst.enterWind hk hother (.handle (hf.keeps hk) ha) thunk
    | ccc body =>
      have hlen : s.conts.length = t.conts.length := hst.conts.length_eq
      simp only [ErrThread.step, SThread.step, hs, ht, hlen]
      apply Option.Rel.some
      constructor
      · exact { (hst.resume (.eval (body t.conts.length)) s.frames) with
          force := ⟨hst.force.texh, hst.force.olds⟩
          conts := List.rel_append hst.conts (.cons ⟨hst.mem, hf⟩ .nil) }
      · exact .eval (p := body t.conts.length) rfl rfl hf
    | apply k v =>
      simp only [ErrThread.step, SThread.step, hs, ht]
      rcases forall₂_getElem? hst.conts k with ⟨hcont, hcont'⟩ | ⟨cont, gs, hcont, hcont', hmem, hf'⟩
      · rw [hcont, hcont']
        exact .none
      · rw [hcont, hcont']
        exact .some (hst.contwrapper hmem hf' (hclean.2 k v cont hs hcont) v)
    | dynWind before after during =>
      simp only [ErrThread.step, SThread.step, hs, ht]
      apply Option.Rel.some
      rw [hst.nwinds]
      exact hst.enterWind .refl (fun _ _ => rfl) (.wind hf) during

/-- As long as the steps are clean the machine and the handler frames go together. -/
theorem Simulates.steps (h : Simulates x s t) (n : Nat)
    (hclean : ∀ k < n, ∀ s', s.steps x k = some s' → s'.CleanStep x) :
    Option.Rel (Simulates x) (s.steps x n) (t.steps x n) := by
  induction n generalizing s t with
  | zero => exact .some h
  | succ n ih =>
    have hstep := h.step (hclean 0 (Nat.zero_lt_succ n) s rfl)
    simp only [ErrThread.steps, SThread.steps]
    generalize hs : s.step x = s' at hstep
    generalize t.step x = t' at hstep
    cases hstep with
    | none => exact .none
    | some h' =>
      apply ih h'
      intro k hk s'' hs''
      apply hclean (k + 1) (Nat.succ_lt_succ hk)
      simpa [ErrThread.steps, hs] using hs''

theorem ErrThread.steps_add (m n : Nat) : s.steps x (m + n) = (s.steps x m).bind (steps x n) := by
  induction m generalizing s with
  | zero => simp [ErrThread.steps]
  | succ m ih =>
    rw [Nat.succ_add]
    cases hs : s.step x with
    | none => simp [ErrThread.steps, hs]
    | some s' => simpa [ErrThread.steps, hs] using ih

theorem SThread.steps_add (m n : Nat) : t.steps x (m + n) = (t.steps x m).bind (steps x n) := by
  induction m generalizing t with
  | zero => simp [SThread.steps]
  | succ m ih =>
    rw [Nat.succ_add]
    cases ht : t.step x with
    | none => simp [SThread.steps, ht]
    | some t' => simpa [SThread.steps, ht] using ih

/-- A thunk that returns an exception would have its handler called. -/
theorem Simulates.returns_ok (h : Simulates x s t)
    (hagrees : Option.Rel (Agrees x) (s.steps x 1) (t.steps x 1)) {v : V} {here : Here α}
    {handler : V → Prog V α} {fs : List (Frame V α)} (hs : s.control = .eval (.ret v))
    (hfs : s.frames = .exitWind here :: .onErr handler :: fs) : x.isException v = false := by
  obtain ⟨hst, hrun⟩ := h
  cases hrun with
  | broken hs' =>
    rw [hs'] at hs
    cases hs
  | leave _ hfs' =>
    rw [hfs'] at hfs
    cases hfs
  | eval hs' ht hf =>
    rw [hs] at hs'
    obtain rfl := Control.eval.inj hs'
    rw [hfs] at hf
    generalize s.here = out at hf
    generalize hgs : t.frames = gs at hf
    cases hf with
    | wind hf => cases hf
    | @handle id _ _ _ gs hf ha =>
      have hstep' : t.steps x 1 = some (t.goto gs (.leave (.ok v) handler)) := by
        simp [SThread.steps, SThread.step, SThread.ret, ht, hgs]
      have hstep : s.steps x 1 = some
          { s.reroot here with control := .eval (.ret v), frames := .onErr handler :: fs } := by
        simp [ErrThread.steps, ErrThread.step, ErrThread.ret, hs, hfs]
      rw [hstep, hstep', Option.rel_some_some] at hagrees
      have hshown := hagrees.control
      cases hshown with
      | returned hs'' _ hv =>
        cases hs''
        exact hv

/-- A continuation with nothing pending ends the thread. -/
theorem Simulates.applies_ended (h : Simulates x s t)
    (hagrees : Option.Rel (Agrees x) (s.steps x 2) (t.steps x 2)) {k : Nat} {v : V}
    {cont : Captured V α} (hs : s.control = .eval (.apply k v)) (hcont : s.conts[k]? = some cont)
    (htcr : cont.tcr = []) : s.frames = [] := by
  obtain ⟨hst, hrun⟩ := h
  cases hrun with
  | broken hs' =>
    rw [hs'] at hs
    cases hs
  | leave hs' =>
    rw [hs'] at hs
    cases hs
  | eval hs' ht hf =>
    rw [hs] at hs'
    obtain rfl := Control.eval.inj hs'
    rcases forall₂_getElem? hst.conts k with ⟨hnone, -⟩ | ⟨cont', gs, hcont', hgs, hmem, hf'⟩
    · rw [hnone] at hcont
      cases hcont
    · obtain rfl := Option.some.inj (hcont.symm.trans hcont')
      obtain ⟨hst', -, hhere, hfs⟩ := hst.goto hmem hf' (.eval (.ret v))
      rw [htcr] at hf'
      generalize cont.tch = tch at hf'
      cases hf'
      have hstep' : t.steps x 2 = none := by
        simp [SThread.steps, SThread.step, ht, hgs, SThread.goto, SThread.ret]
      have hstep : s.steps x 2 = ({ s.reroot cont.tch with control := .eval (.ret v) }).ret x v := by
        simp [ErrThread.steps, ErrThread.step, hs, hcont, ErrThread.contwrapper, htcr]
      rw [hstep, hstep'] at hagrees
      cases hpending : s.frames with
      | nil => rfl
      | cons f fs =>
        exfalso
        rw [hpending] at hfs
        cases f with
        | seq => simp [ErrThread.ret, hfs] at hagrees
        | exitWind => simp [ErrThread.ret, hfs] at hagrees
        | onErr =>
          simp only [ErrThread.ret, hfs] at hagrees
          split at hagrees <;> cases hagrees

theorem Simulates.cleanStep (h : Simulates x s t)
    (hagrees : ∀ n, Option.Rel (Agrees x) (s.steps x n) (t.steps x n)) : s.CleanStep x :=
  ⟨fun _ _ _ _ hs hfs => h.returns_ok (hagrees 1) hs hfs,
    fun _ _ _ hs hcont htcr => h.applies_ended (hagrees 2) hs hcont htcr⟩

end Steps

/-- Numbers; those from 100 on are exceptions. -/
def numExceptions : Exceptions Nat where
  isException v := decide (100 ≤ v)
  mkexception str := 100 + str
  isException_mkexception := by simp

/-- `(on-err (fn (e) 1) (fn () (on-err (fn (e) e) (fn () (err 7)))))` -/
def nestedOnErr : Prog Nat Unit := .onErr (fun _ => .ret 1) (.onErr .ret (.err 7))

end Arcueid
