import Arcueid.OnErr

/-! Handlers as frames: what `on-err` is for. Raising an exception goes out to
the innermost handler frame, and a continuation carries the handler in force
with it. The machine of `err.c` does the same as long as no thunk returns an
exception to its `on-err`. -/

namespace Arcueid

open Winding

inductive SFrame (V α : Type) where
  | seq (k : V → Prog V α)
  | handle (id : Nat) (handler : V → Prog V α)
  | wind (id : Nat) (before after : α)

inductive SControl (V α : Type) where
  | eval (p : Prog V α)
  /-- The thunk of an `on-err` with this handler has ended. -/
  | leave (result : Except V V) (handler : V → Prog V α)
  | broken (exc : V)

/-- The winds of frames; a handler is a wind without thunks. -/
def windsOf {V α : Type} : List (SFrame V α) → List (Wind (Option α))
  | [] => []
  | .seq _ :: frames => windsOf frames
  | .handle id _ :: frames => ⟨id, none, none⟩ :: windsOf frames
  | .wind id before after :: frames => ⟨id, some before, some after⟩ :: windsOf frames

/-- The innermost handler, and the frames outside of it. -/
def innermost {V α : Type} : List (SFrame V α) → Option ((V → Prog V α) × List (SFrame V α))
  | [] => none
  | .handle _ handler :: frames => some (handler, frames)
  | _ :: frames => innermost frames

structure SThread (V α : Type) where
  control : SControl V α
  frames : List (SFrame V α)
  nwinds : Nat
  conts : List (List (SFrame V α))
  log : List (Event V α)

variable {V α : Type}

def specThread (p : Prog V α) : SThread V α := ⟨.eval p, [], 1, [], []⟩

namespace SThread

/-- Go on with other frames. -/
def goto (s : SThread V α) (frames : List (SFrame V α)) (control : SControl V α) : SThread V α :=
  { s with
    control := control
    frames := frames
    log := s.log ++ (thunks (windsOf s.frames) (windsOf frames)).filterMap (Option.map .thunk) }

def enter (s : SThread V α) (frame : SFrame V α) (p : Prog V α) : SThread V α :=
  { s.goto (frame :: s.frames) (.eval p) with nwinds := s.nwinds + 1 }

def raise (s : SThread V α) (exc : V) : SThread V α :=
  match innermost s.frames with
  | none => s.goto [] (.broken exc)
  | some (handler, frames) => s.goto frames (.leave (.error exc) handler)

def ret (s : SThread V α) (v : V) : Option (SThread V α) :=
  match s.frames with
  | [] => none
  | .seq k :: frames => some { s with control := .eval (k v), frames := frames }
  | .wind _ _ _ :: frames => some (s.goto frames (.eval (.ret v)))
  | .handle _ handler :: frames => some (s.goto frames (.leave (.ok v) handler))

def step (x : Exceptions V) (s : SThread V α) : Option (SThread V α) :=
  match s.control with
  | .broken _ => none
  | .leave (.ok v) _ => some { s with control := .eval (.ret v) }
  | .leave (.error exc) handler =>
    some { s with control := .eval (handler exc), log := s.log ++ [.handled exc] }
  | .eval (.ret v) => s.ret v
  | .eval (.bind p k) => some { s with control := .eval p, frames := .seq k :: s.frames }
  | .eval (.err str) => some (s.raise (x.mkexception str))
  | .eval (.onErr handler thunk) => some (s.enter (.handle s.nwinds handler) thunk)
  | .eval (.ccc body) =>
    some { s with control := .eval (body s.conts.length), conts := s.conts ++ [s.frames] }
  | .eval (.apply k v) => s.conts[k]?.map fun frames => s.goto frames (.eval (.ret v))
  | .eval (.dynWind before after during) => some (s.enter (.wind s.nwinds before after) during)

def steps (x : Exceptions V) : Nat → SThread V α → Option (SThread V α)
  | 0, s => some s
  | n + 1, s => (s.step x).bind (steps x n)

end SThread

/-- The thunk of a user. -/
def WindThunk.label : WindThunk α → Option α
  | .user a => some a
  | _ => none

/-- The handler of an activation, and the continuation it returns to. -/
def Activates (acts : Nat → Option (Activation V α)) (id : Nat) (cont : Captured V α)
    (handler : V → Prog V α) : Prop :=
  ∃ old, acts id = some ⟨cont, old, handler⟩

/-- The frames and winds of the machine show those of the semantics. -/
inductive Framed (acts : Nat → Option (Activation V α)) :
    List (Frame V α) → Here α → List (SFrame V α) → Prop
  | nil : Framed acts [] [] []
  | seq {k fs here gs} : Framed acts fs here gs → Framed acts (.seq k :: fs) here (.seq k :: gs)
  | wind {id b a fs here gs} : Framed acts fs here gs →
      Framed acts (.exitWind here :: fs) (⟨id, .user b, .user a⟩ :: here) (.wind id b a :: gs)
  | handle {id h fs here gs} : Framed acts fs here gs →
      Activates acts id ⟨.onErr h :: fs, here⟩ h →
      Framed acts (.exitWind here :: .onErr h :: fs)
        (⟨id, .savetexh id, .restoretexh id⟩ :: here) (.handle id h :: gs)

/-- The handler that is in force inside of winds. -/
def texhOf (acts : Nat → Option (Activation V α)) : Here α → Texh V α
  | [] => none
  | ⟨_, .savetexh id, _⟩ :: _ => (acts id).map fun act => (act.cont, act.handler)
  | _ :: here => texhOf acts here

/-- Each activation a thread is inside of keeps the handler in force outside. -/
def Olds (acts : Nat → Option (Activation V α)) : Here α → Prop
  | [] => True
  | ⟨_, .savetexh id, _⟩ :: here =>
    (∀ act, acts id = some act → act.old = texhOf acts here) ∧ Olds acts here
  | _ :: here => Olds acts here

/-- A wind of a user, or of an activation. -/
def WindOk (acts : Nat → Option (Activation V α)) (w : Wind (WindThunk α)) : Prop :=
  (∃ b a, w = ⟨w.id, .user b, .user a⟩) ∨
    w = ⟨w.id, .savetexh w.id, .restoretexh w.id⟩ ∧ ∃ act, acts w.id = some act

/-- Every activation is still there, up to the handler it keeps. -/
def Keeps (acts acts' : Nat → Option (Activation V α)) : Prop :=
  ∀ id act, acts id = some act →
    ∃ act', acts' id = some act' ∧ act'.cont = act.cont ∧ act'.handler = act.handler

section Acts

variable {acts acts' acts'' : Nat → Option (Activation V α)} {here : Here α}
  {w : Wind (WindThunk α)} {fs : List (Frame V α)} {gs : List (SFrame V α)}

theorem Keeps.refl : Keeps acts acts := fun _ act h => ⟨act, h, rfl, rfl⟩

theorem Keeps.trans (h : Keeps acts acts') (h' : Keeps acts' acts'') : Keeps acts acts'' := by
  intro id act hact
  obtain ⟨act', hact', hc, hh⟩ := h id act hact
  obtain ⟨act'', hact'', hc', hh'⟩ := h' id act' hact'
  exact ⟨act'', hact'', hc'.trans hc, hh'.trans hh⟩

theorem Keeps.activates (h : Keeps acts acts') {id : Nat} {cont : Captured V α}
    {handler : V → Prog V α} (ha : Activates acts id cont handler) :
    Activates acts' id cont handler := by
  obtain ⟨old, ha⟩ := ha
  obtain ⟨⟨cont', old', handler'⟩, hact, hc, hh⟩ := h id _ ha
  simp only at hc hh
  subst hc hh
  exact ⟨old', hact⟩

theorem Keeps.windOk (h : Keeps acts acts') (hw : WindOk acts w) : WindOk acts' w := by
  rcases hw with hw | ⟨hw, act, hact⟩
  · exact .inl hw
  · obtain ⟨act', hact', -⟩ := h w.id act hact
    exact .inr ⟨hw, act', hact'⟩

theorem Keeps.texhOf (h : Keeps acts acts') (hok : ∀ w ∈ here, WindOk acts w) :
    texhOf acts' here = texhOf acts here := by
  induction here with
  | nil => rfl
  | cons w here ih =>
    have ih := ih fun w hw => hok w (List.mem_cons_of_mem _ hw)
    rcases hok w List.mem_cons_self with ⟨b, a, hw⟩ | ⟨hw, act, hact⟩
    · rw [hw]
      exact ih
    · obtain ⟨act', hact', hc, hh⟩ := h w.id act hact
      rw [hw]
      simp [Arcueid.texhOf, hact, hact', hc, hh]

theorem Framed.keeps (hf : Framed acts fs here gs) (h : Keeps acts acts') :
    Framed acts' fs here gs := by
  induction hf with
  | nil => exact .nil
  | seq _ ih => exact .seq ih
  | wind _ ih => exact .wind ih
  | handle _ ha ih => exact .handle ih (h.activates ha)

theorem Framed.windOk (hf : Framed acts fs here gs) : ∀ w ∈ here, WindOk acts w := by
  induction hf with
  | nil => simp
  | seq _ ih => exact ih
  | wind _ ih =>
    intro w hw
    rcases List.mem_cons.mp hw with rfl | hw
    · exact .inl ⟨_, _, rfl⟩
    · exact ih w hw
  | handle _ ha ih =>
    intro w hw
    rcases List.mem_cons.mp hw with rfl | hw
    · obtain ⟨old, ha⟩ := ha
      exact .inr ⟨rfl, _, ha⟩
    · exact ih w hw

theorem Framed.windsOf_eq (hf : Framed acts fs here gs) :
    windsOf gs = here.map (Wind.map WindThunk.label) := by
  induction hf with
  | nil => rfl
  | seq _ ih => exact ih
  | wind _ ih =>
    rw [windsOf, ih]
    rfl
  | handle _ _ ih =>
    rw [windsOf, ih]
    rfl

/-- The handler in force is that of the innermost handler frame. -/
theorem Framed.texhOf_eq (hf : Framed acts fs here gs) :
    (innermost gs = none ∧ texhOf acts here = none) ∨
      ∃ h gs' fs' here', innermost gs = some (h, gs') ∧
        texhOf acts here = some (⟨.onErr h :: fs', here'⟩, h) ∧ Framed acts fs' here' gs' ∧
        here' <:+ here := by
  induction hf with
  | nil => exact .inl ⟨rfl, rfl⟩
  | seq _ ih => exact ih
  | wind _ ih =>
    rcases ih with ih | ⟨h, gs', fs', here', hin, htexh, hf, hsuf⟩
    · exact .inl ih
    · exact .inr ⟨h, gs', fs', here', hin, htexh, hf, hsuf.trans (List.suffix_cons _ _)⟩
  | handle hf ha _ =>
    obtain ⟨old, ha⟩ := ha
    refine .inr ⟨_, _, _, _, rfl, ?_, hf, List.suffix_cons _ _⟩
    rw [texhOf, ha]
    rfl

/-- What an activation keeps is only changed by entering it. -/
theorem Olds.update {id : Nat} (ho : Olds acts here) (hok : ∀ w ∈ here, WindOk acts w)
    (hk : Keeps acts acts') (hid : id ∉ ids here) (hacts : ∀ i, i ≠ id → acts' i = acts i) :
    Olds acts' here := by
  induction here with
  | nil => trivial
  | cons w here ih =>
    obtain ⟨hne, hid⟩ := not_or.mp (mt List.mem_cons.mpr hid)
    have hrest : ∀ w ∈ here, WindOk acts w := fun w hw => hok w (List.mem_cons_of_mem _ hw)
    rcases hok w List.mem_cons_self with ⟨b, a, hw⟩ | ⟨hw, -⟩
    · rw [hw] at ho ⊢
      exact ih ho hrest hid
    · rw [hw] at ho ⊢
      refine ⟨?_, ih ho.2 hrest hid⟩
      rw [hacts _ (Ne.symm hne), hk.texhOf hrest]
      exact ho.1

end Acts

/-- The handler register is the one in force inside of `here`. -/
structure InForce (s : ErrThread V α) (here : Here α) : Prop where
  texh : s.texh = texhOf s.acts here
  olds : Olds s.acts here

/-- The calls that users see. -/
def labels (ts : List (WindThunk α)) : List (Event V α) :=
  ts.filterMap fun t => t.label.map .thunk

section Reroot

variable {s : ErrThread V α} {pre here there : Here α}

open ErrThread

/-- Going out of winds restores the handlers they keep. -/
theorem callThunks_out (hf : InForce s (pre ++ here)) (hok : ∀ w ∈ pre, WindOk s.acts w) :
    ∃ texh, (pre.map Wind.after).foldl callThunk s =
        { s with texh := texh, log := s.log ++ labels (pre.map Wind.after) } ∧
      InForce { s with texh := texh } here := by
  induction pre generalizing s with
  | nil => exact ⟨s.texh, by simp [labels], hf⟩
  | cons w pre ih =>
    rcases hok w List.mem_cons_self with ⟨b, a, hw⟩ | ⟨hw, act, hact⟩
    · rw [hw] at hf
      obtain ⟨texh, hrun, hforce⟩ :=
        ih (s := { s with log := s.log ++ [.thunk a] }) ⟨hf.texh, hf.olds⟩
          fun w hw => hok w (List.mem_cons_of_mem _ hw)
      refine ⟨texh, ?_, hforce.texh, hforce.olds⟩
      rw [List.map_cons, List.foldl_cons, hw]
      simpa [callThunk, labels, WindThunk.label] using hrun
    · rw [hw] at hf
      obtain ⟨texh, hrun, hforce⟩ :=
        ih (s := { s with texh := act.old }) ⟨hf.olds.1 act hact, hf.olds.2⟩
          fun w hw => hok w (List.mem_cons_of_mem _ hw)
      refine ⟨texh, ?_, hforce.texh, hforce.olds⟩
      rw [List.map_cons, List.foldl_cons, hw]
      simpa [callThunk, labels, WindThunk.label, hact] using hrun

/-- Going into winds keeps the handlers in force outside. -/
theorem callThunks_in (hf : InForce s here) (hok : ∀ w ∈ pre ++ here, WindOk s.acts w)
    (hnd : (ids (pre ++ here)).Nodup) :
    ∃ texh acts, (pre.reverse.map Wind.before).foldl callThunk s =
        { s with
          texh := texh
          acts := acts
          log := s.log ++ labels (pre.reverse.map Wind.before) } ∧
      Keeps s.acts acts ∧ (∀ id, acts id = none ↔ s.acts id = none) ∧
      InForce { s with texh := texh, acts := acts } (pre ++ here) := by
  induction pre with
  | nil => exact ⟨s.texh, s.acts, by simp [labels], .refl, fun _ => .rfl, hf⟩
  | cons w pre ih =>
    have hnd' := List.nodup_cons.mp hnd
    have hrest : ∀ w ∈ pre ++ here, WindOk s.acts w := fun w hw => hok w (List.mem_cons_of_mem _ hw)
    obtain ⟨texh, acts, hrun, hk, hnone, hforce⟩ := ih hrest hnd'.2
    have hfold : ∀ t : WindThunk α, (w.before = t) →
        ((w :: pre).reverse.map Wind.before).foldl callThunk s =
          callThunk { s with
            texh := texh
            acts := acts
            log := s.log ++ labels (pre.reverse.map Wind.before) } t := by
      intro t ht
      rw [List.reverse_cons, List.map_append, List.foldl_append, hrun]
      simp [ht]
    rcases hok w List.mem_cons_self with ⟨b, a, hw⟩ | ⟨hw, act, hact⟩
    · have hbefore : w.before = .user b := by rw [hw]
      refine ⟨texh, acts, ?_, hk, hnone, ?_, ?_⟩
      · rw [hfold _ hbefore]
        simp [callThunk, labels, WindThunk.label, hbefore]
      · rw [List.cons_append, hw]
        exact hforce.texh
      · rw [List.cons_append, hw]
        exact hforce.olds
    · have hbefore : w.before = .savetexh w.id := by rw [hw]
      obtain ⟨act', hact', hc, hh⟩ := hk w.id act hact
      let acts' := fun i => if i = w.id then some { act' with old := texh } else acts i
      have hk' : Keeps acts acts' := by
        intro id a ha
        by_cases hid : id = w.id
        · rw [hid, hact'] at ha
          obtain rfl := Option.some.inj ha
          exact ⟨{ act' with old := texh }, by simp [acts', hid], rfl, rfl⟩
        · exact ⟨a, by simp [acts', hid, ha], rfl, rfl⟩
      have hok' : ∀ w ∈ pre ++ here, WindOk acts w := fun w hw => hk.windOk (hrest w hw)
      refine ⟨some (act'.cont, act'.handler), acts', ?_, hk.trans hk', ?_, ?_, ?_⟩
      · rw [hfold _ hbefore]
        simp [callThunk, labels, WindThunk.label, hbefore, hact', acts']
      · intro id
        by_cases hid : id = w.id
        · simp [acts', hid, hact]
        · simp [acts', hid, hnone]
      · rw [List.cons_append, hw]
        simp [texhOf, acts']
      · rw [List.cons_append, hw]
        refine ⟨?_, hforce.olds.update hok' hk' hnd'.1 fun i hi => by simp [acts', hi]⟩
        intro a ha
        simp only [acts', if_true] at ha
        rw [← Option.some.inj ha, hk'.texhOf hok']
        exact hforce.texh

/-- After a move the handler in force where control goes is in the register. -/
theorem reroot_spec (hg : Grown s.states) (hhere : s.here ∈ s.states) (hthere : there ∈ s.states)
    (hf : InForce s s.here) (hok : ∀ w ∈ s.here, WindOk s.acts w)
    (hok' : ∀ w ∈ there, WindOk s.acts w) :
    ∃ texh acts, s.reroot there =
        { s with
          here := there
          texh := texh
          acts := acts
          log := s.log ++ labels (thunks s.here there) } ∧
      Keeps s.acts acts ∧ (∀ id, acts id = none ↔ s.acts id = none) ∧
      InForce { s with texh := texh, acts := acts } there := by
  obtain ⟨pre, pre', u, hsplit, rfl, hthunks⟩ := hg.thunks_split hhere hthere
  rw [hsplit] at hf hok
  obtain ⟨texh, hout, hforce⟩ := callThunks_out hf fun w hw => hok w (List.mem_append_left _ hw)
  let t := { s with texh := texh, log := s.log ++ labels (pre.map Wind.after) }
  obtain ⟨texh', acts, hin, hk, hnone, hforce'⟩ :=
    callThunks_in (s := t) ⟨hforce.texh, hforce.olds⟩ hok' (hg.nodup hthere)
  refine ⟨texh', acts, ?_, hk, hnone, hforce'.texh, hforce'.olds⟩
  rw [reroot, hthunks, List.foldl_append, hout, hin]
  simp [t, labels]

end Reroot

end Arcueid
