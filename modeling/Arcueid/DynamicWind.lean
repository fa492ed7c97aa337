import Mathlib.Logic.Relation
import Arcueid.Lib.Winding

/-! The tree that `TCH` roots (`__arc_reroot`, `arc_dynamic_wind` and
`contwrapper` of `vmengine.c`, for jumps inside one thread). Its nodes are
conses whose car is a pair of thunks and whose cdr is the next node on the way
to `TCH`. A node is its place in the list of the nodes made so far, and a thunk
that is called is put in a log. -/

namespace Arcueid

open Winding

/-- A node; the car is nothing when it is `INT2FIX(0xdead)`. -/
structure WindCell (α : Type) where
  car : Option (α × α)
  cdr : Option Nat

structure WindThread (α : Type) where
  cells : List (WindCell α)
  tch : Nat
  log : List α

variable {α : Type}

/-- The winds of a new thread. -/
def arcMkthreadWinds : WindThread α := ⟨[⟨none, none⟩], 0, []⟩

/-- Turn the link between `TCH` and `there` around, and call the thunk. -/
def hop (m : WindThread α) (there : Nat) (before after : α) : WindThread α where
  cells := (m.cells.set m.tch ⟨some (after, before), some there⟩).set there ⟨none, none⟩
  tch := there
  log := m.log ++ [before]

/-- Taking the car or the cdr of something other than a cons does not return. -/
def arcReroot : Nat → WindThread α → Nat → Option (WindThread α)
  | 0, _, _ => none
  | fuel + 1, m, there =>
    if m.tch = there then some m
    else do
      let cell ← m.cells[there]?
      let m ← arcReroot fuel m (← cell.cdr)
      let cell ← m.cells[there]?
      let (before, after) ← cell.car
      some (hop m there before after)

/-- Enter a `dynamic-wind`. -/
def windEnter (fuel : Nat) (m : WindThread α) (before after : α) : Option (WindThread α) :=
  arcReroot fuel { m with cells := m.cells ++ [⟨some (before, after), some m.tch⟩] }
    m.cells.length

inductive WindEvent (α : Type) where
  | enter (before after : α)
  /-- The thunk of a `dynamic-wind` entered in state `here` returns. -/
  | exit (here : Nat)
  /-- A continuation captured in state `tch` is applied. -/
  | jump (tch : Nat)

def windStep (fuel : Nat) (m : WindThread α) : WindEvent α → Option (WindThread α)
  | .enter before after => windEnter fuel m before after
  | .exit here => arcReroot fuel m here
  | .jump tch => arcReroot fuel m tch

def windRun (fuel : Nat) (m : WindThread α) (es : List (WindEvent α)) : Option (WindThread α) :=
  es.foldlM (windStep fuel) m

/-- Exits and jumps go to states there were before. -/
def CapturedStates : Nat → List (WindEvent α) → Prop
  | _, [] => True
  | n, .enter _ _ :: es => CapturedStates (n + 1) es
  | n, .exit here :: es => here < n ∧ CapturedStates n es
  | n, .jump tch :: es => tch < n ∧ CapturedStates n es

/-- The states of a run, the current one, and what has been called: what the
events mean. -/
structure Winds (α : Type) where
  states : List (List (Wind α))
  cur : List (Wind α)
  log : List α

theorem arcReroot_mono {m m' : WindThread α} {fuel fuel' there : Nat} (hle : fuel ≤ fuel')
    (h : arcReroot fuel m there = some m') : arcReroot fuel' m there = some m' := by
  induction fuel generalizing fuel' there m' with
  | zero => cases h
  | succ fuel ih =>
    obtain ⟨fuel', rfl⟩ := Nat.exists_eq_succ_of_ne_zero (Nat.ne_zero_of_lt hle)
    rw [arcReroot] at h ⊢
    split
    · next heq => rwa [if_pos heq] at h
    · next hne =>
      rw [if_neg hne] at h
      obtain ⟨cell, hcell, h⟩ := Option.bind_eq_some_iff.mp h
      obtain ⟨next, hnext, h⟩ := Option.bind_eq_some_iff.mp h
      obtain ⟨m₁, hrun, h⟩ := Option.bind_eq_some_iff.mp h
      simp only [hcell, hnext, ih (Nat.le_of_succ_le_succ hle) hrun, Option.bind_eq_bind,
        Option.bind_some]
      exact h

namespace Winds

def start : Winds α := ⟨[[]], [], []⟩

/-- Go to another state. -/
def move (v : Winds α) (s : List (Wind α)) : Winds α :=
  { v with cur := s, log := v.log ++ thunks v.cur s }

def step (v : Winds α) : WindEvent α → Winds α
  | .enter before after =>
    let s := ⟨v.states.length, before, after⟩ :: v.cur
    { v with states := v.states ++ [s] }.move s
  | .exit here => v.move (v.states.getD here [])
  | .jump tch => v.move (v.states.getD tch [])

def run (v : Winds α) (es : List (WindEvent α)) : Winds α := es.foldl step v

end Winds

variable {states : List (List (Wind α))} {cur s t pre : List (Wind α)} {w : Wind α}
  {m m' : WindThread α} {before after : α}

/-- Every link of the tree leads towards the current state. The links on the
way out of it are turned around, with their thunks swapped. -/
structure Rooted (states : List (List (Wind α))) (cur : List (Wind α)) (m : WindThread α) :
    Prop where
  grown : Grown states
  mem : cur ∈ states
  size : m.cells.length = states.length
  here : m.tch = top cur
  root : m.cells[m.tch]? = some ⟨none, none⟩
  outside : ∀ {w s}, w :: s ∈ states → w.id ∈ ids cur →
    m.cells[top s]? = some ⟨some (w.after, w.before), some w.id⟩
  inside : ∀ {w s}, w :: s ∈ states → w.id ∉ ids cur →
    m.cells[w.id]? = some ⟨some (w.before, w.after), some (top s)⟩

namespace Rooted

/-- A state whose number is `top t` is `t`. -/
theorem mem_of_top (hr : Rooted states cur m) (hs : w :: s ∈ states) (ht : t ∈ states)
    (htop : w.id = top t) : w.id ∈ ids t := by
  have heq := hr.grown.eq_of_top hs ht htop
  rw [← heq]
  simp

/-- The states outside of `w :: s`, and their numbers. -/
theorem top_lt_of_mem (hr : Rooted states cur m) (hs : w :: s ∈ states) (ht : t ∈ states)
    (hw : w.id ∈ ids t) : top s < top t := by
  obtain ⟨pre, rfl⟩ := hr.grown.enclosed hs ht hw
  have hle := hr.grown.id_le ht (List.mem_append_right _ List.mem_cons_self)
  exact Nat.lt_of_lt_of_le (hr.grown.tail hs).2 hle

theorem hop_get (hne : i ≠ m.tch) (hne' : i ≠ there) :
    (hop m there before after).cells[i]? = m.cells[i]? := by
  simp [hop, List.getElem?_set_ne hne'.symm, List.getElem?_set_ne hne.symm]

theorem hop_get_tch (hlt : m.tch < m.cells.length) (hne : there ≠ m.tch) :
    (hop m there before after).cells[m.tch]? = some ⟨some (after, before), some there⟩ := by
  rw [hop, List.getElem?_set_ne hne, List.getElem?_set_self hlt]

/-- Entering a wind that is inside the current state. -/
theorem down (hr : Rooted states cur m) (hw : w :: cur ∈ states) :
    Rooted states (w :: cur) (hop m w.id w.before w.after) := by
  have hlt := (hr.grown.tail hw).2
  have hhere := hr.here
  have hid := hr.grown.top_lt hw
  have hcur := hr.grown.top_lt hr.mem
  have hsize := hr.size
  rw [top_cons] at hid
  refine ⟨hr.grown, hw, by simp [hop, hsize], rfl, ?_, ?_, ?_⟩
  · simp [hop, hsize, hid]
  · intro x s hs hx
    rcases List.mem_cons.mp hx with heq | hx
    · have hsame := hr.grown.eq_of_top hs hw heq
      obtain ⟨rfl, rfl⟩ := List.cons.inj hsame
      rw [← hhere]
      exact hop_get_tch (by omega) (by omega)
    · have htop := hr.top_lt_of_mem hs hr.mem hx
      rw [hop_get (by omega) (by omega)]
      exact hr.outside hs hx
  · intro x s hs hx
    obtain ⟨hne, hx⟩ := not_or.mp (mt List.mem_cons.mpr hx)
    have hne' : x.id ≠ m.tch := fun heq => hx (hr.mem_of_top hs hr.mem (heq.trans hhere))
    rw [hop_get hne' hne]
    exact hr.inside hs hx

theorem up (hr : Rooted states (w :: cur) m) :
    Rooted states cur (hop m (top cur) w.after w.before) := by
  obtain ⟨hmem, hlt⟩ := hr.grown.tail hr.mem
  have hhere := hr.here
  have hid := hr.grown.top_lt hr.mem
  have hsize := hr.size
  rw [top_cons] at hid hhere
  refine ⟨hr.grown, hmem, by simp [hop, hsize], rfl, ?_, ?_, ?_⟩
  · have hcur : top cur < states.length := by omega
    simp [hop, hsize, hcur]
  · intro x s hs hx
    have htop := hr.top_lt_of_mem hs hmem hx
    rw [hop_get (by omega) (by omega)]
    exact hr.outside hs (List.mem_cons_of_mem _ hx)
  · intro x s hs hx
    by_cases heq : x.id = w.id
    · have hsame := hr.grown.eq_of_top hs hr.mem heq
      obtain ⟨rfl, rfl⟩ := List.cons.inj hsame
      rw [← hhere]
      exact hop_get_tch (by omega) (by omega)
    · have hne : x.id ≠ top cur := fun htop => hx (hr.mem_of_top hs hmem htop)
      rw [hop_get (by rw [hhere]; exact heq) hne]
      exact hr.inside hs (by simp [heq, show x.id ∉ ids cur from hx])

/-- Rerooting to a state that encloses the current one. -/
theorem reroot_out (hr : Rooted states (pre ++ t) m) {fuel : Nat} (hfuel : pre.length < fuel) :
    ∃ m', arcReroot fuel m (top t) = some m' ∧ Rooted states t m' ∧
      m'.log = m.log ++ pre.map Wind.after := by
  induction pre using List.reverseRecOn generalizing t fuel with
  | nil =>
    obtain ⟨fuel, rfl⟩ := Nat.exists_eq_succ_of_ne_zero (Nat.ne_zero_of_lt hfuel)
    exact ⟨m, by simp [arcReroot, hr.here], hr, by simp⟩
  | append_singleton pre w ih =>
    obtain ⟨fuel, rfl⟩ := Nat.exists_eq_succ_of_ne_zero (Nat.ne_zero_of_lt hfuel)
    rw [List.append_assoc, List.singleton_append] at hr
    have hw : w :: t ∈ states := hr.grown.suffix hr.mem
    have hmem : w.id ∈ ids (pre ++ w :: t) := by simp
    have hlt := hr.top_lt_of_mem hw hr.mem hmem
    have hne : m.tch ≠ top t := by
      rw [hr.here]
      omega
    obtain ⟨m', hrun, hr', hlog⟩ := ih hr (show pre.length < fuel by simpa using hfuel)
    rw [top_cons] at hrun
    have hback := hr'.outside hw List.mem_cons_self
    refine ⟨hop m' (top t) w.after w.before, ?_, hr'.up, ?_⟩
    · simp [arcReroot, hne, hr.outside hw hmem, hrun, hback]
    · simp [hop, hlog]

/-- Rerooting ends in the state asked for, and calls the thunks on the way. -/
theorem reroot (hr : Rooted states cur m) (ht : t ∈ states) {fuel : Nat}
    (hfuel : (thunks cur t).length < fuel) :
    ∃ m', arcReroot fuel m (top t) = some m' ∧ Rooted states t m' ∧
      m'.log = m.log ++ thunks cur t := by
  have hout : ∀ {pre t fuel}, cur = pre ++ t → (thunks cur t).length < fuel →
      ∃ m', arcReroot fuel m (top t) = some m' ∧ Rooted states t m' ∧
        m'.log = m.log ++ thunks cur t := by
    intro pre t fuel hcur hfuel
    subst hcur
    rw [thunks_out (hr.grown.nodup hr.mem), List.length_map] at hfuel
    rw [thunks_out (hr.grown.nodup hr.mem)]
    exact hr.reroot_out hfuel
  induction t generalizing fuel with
  | nil => exact hout (List.append_nil cur).symm hfuel
  | cons w t ih =>
    by_cases hw : w.id ∈ ids cur
    · obtain ⟨pre, hcur⟩ := hr.grown.enclosed ht hr.mem hw
      exact hout hcur hfuel
    · obtain ⟨hmem, hlt⟩ := hr.grown.tail ht
      rw [thunks_in hw, List.length_append, List.length_singleton] at hfuel
      obtain ⟨fuel, rfl⟩ := Nat.exists_eq_succ_of_ne_zero (Nat.ne_zero_of_lt hfuel)
      obtain ⟨m', hrun, hr', hlog⟩ := ih hmem (show (thunks cur t).length < fuel by omega)
      have hne : m.tch ≠ w.id := fun heq => hw (hr.mem_of_top ht hr.mem (heq.symm.trans hr.here))
      have hout : w.id ∉ ids t := hr.grown.not_mem_of_lt hmem hlt
      refine ⟨hop m' w.id w.before w.after, ?_, hr'.down ht, ?_⟩
      · simp [arcReroot, hne, hr.inside ht hw, hrun, hr'.inside ht hout]
      · simp [hop, hlog, thunks_in hw]

theorem grow (hr : Rooted states cur m) :
    Rooted (states ++ [⟨states.length, before, after⟩ :: cur]) cur
      { m with cells := m.cells ++ [⟨some (before, after), some m.tch⟩] } := by
  have hg : Grown (states ++ [⟨states.length, before, after⟩ :: cur]) := hr.grown.wind hr.mem
  have hold : ∀ {i : Nat} {c}, m.cells[i]? = some c →
      (m.cells ++ [⟨some (before, after), some m.tch⟩])[i]? = some c := by
    intro i c hi
    rw [List.getElem?_append_left (List.getElem?_eq_some_iff.mp hi).1, hi]
  refine ⟨hg, List.mem_append_left _ hr.mem, by simp [hr.size], hr.here, hold hr.root, ?_, ?_⟩
  · intro w s hs hw
    rcases List.mem_append.mp hs with hs | hs
    · exact hold (hr.outside hs hw)
    · obtain ⟨rfl, rfl⟩ := List.cons.inj (List.mem_singleton.mp hs)
      exact absurd hw (hr.grown.not_mem_of_lt hr.mem (hr.grown.top_lt hr.mem))
  · intro w s hs hw
    rcases List.mem_append.mp hs with hs | hs
    · exact hold (hr.inside hs hw)
    · obtain ⟨rfl, rfl⟩ := List.cons.inj (List.mem_singleton.mp hs)
      rw [← hr.size, List.getElem?_concat_length, hr.here]

/-- The next node on the way to `TCH`. -/
def Link (m : WindThread α) (i j : Nat) : Prop := ∃ cell, m.cells[i]? = some cell ∧ cell.cdr = some j

/-- Every node reaches `TCH`. -/
theorem reaches (hr : Rooted states cur m) (hs : s ∈ states) :
    Relation.ReflTransGen (Link m) (top s) m.tch := by
  have hout : ∀ {pre t}, cur = pre ++ t → Relation.ReflTransGen (Link m) (top t) m.tch := by
    intro pre t hcur
    induction pre using List.reverseRecOn generalizing t with
    | nil => rw [hr.here, hcur, List.nil_append]
    | append_singleton pre w ih =>
      rw [List.append_assoc, List.singleton_append] at hcur
      have hw : w :: t ∈ states := hr.grown.suffix (hcur ▸ hr.mem)
      have hlink : Link m (top t) w.id := ⟨_, hr.outside hw (by simp [hcur]), rfl⟩
      exact .head hlink (ih hcur)
  induction s with
  | nil => exact hout (List.append_nil cur).symm
  | cons w s ih =>
    by_cases hw : w.id ∈ ids cur
    · obtain ⟨pre, hcur⟩ := hr.grown.enclosed hs hr.mem hw
      exact hout hcur
    · exact .head ⟨_, hr.inside hs hw, rfl⟩ (ih (hr.grown.tail hs).1)

end Rooted

/-- The tree of `m` is that of the states of `v`, and the same has been called. -/
def Shows (v : Winds α) (m : WindThread α) : Prop := Rooted v.states v.cur m ∧ m.log = v.log

theorem shows_start : Shows Winds.start (arcMkthreadWinds : WindThread α) := by
  refine ⟨⟨.start, List.mem_singleton.mpr rfl, rfl, rfl, rfl, ?_, ?_⟩, rfl⟩
  · intro w s hs
    simp [Winds.start] at hs
  · intro w s hs
    simp [Winds.start] at hs

variable {v : Winds α} {e : WindEvent α} {es : List (WindEvent α)} {here : Nat}

/-- A state that was captured is one of the states of the run. -/
theorem Shows.move (hv : Shows v m) (hhere : here < v.states.length) :
    ∃ fuel m', arcReroot fuel m here = some m' ∧ Shows (v.move (v.states.getD here [])) m' := by
  obtain ⟨s, hs, htop⟩ := hv.1.grown.exists_top hhere
  have hget : v.states.getD here [] = s := by
    rw [List.getD_eq_getElem?_getD, ← htop, hv.1.grown.getElem? hs, Option.getD_some]
  obtain ⟨m', hrun, hr, hlog⟩ := hv.1.reroot hs (Nat.lt_succ_self _)
  rw [htop] at hrun
  rw [hget]
  exact ⟨_, m', hrun, hr, by rw [hlog, hv.2]; rfl⟩

theorem Shows.step (hv : Shows v m) (he : CapturedStates v.states.length [e]) :
    ∃ fuel m', windStep fuel m e = some m' ∧ Shows (v.step e) m' := by
  cases e with
  | enter before after =>
    have hgrow : Rooted (v.states ++ [⟨v.states.length, before, after⟩ :: v.cur]) v.cur _ := hv.1.grow
    have hmem : ⟨v.states.length, before, after⟩ :: v.cur ∈
        v.states ++ [⟨v.states.length, before, after⟩ :: v.cur] :=
      List.mem_append_right _ (List.mem_singleton.mpr rfl)
    obtain ⟨m', hrun, hr, hlog⟩ := hgrow.reroot hmem (Nat.lt_succ_self _)
    have hid : (⟨v.states.length, before, after⟩ : Wind α).id = m.cells.length :=
      hv.1.size.symm
    rw [top_cons, hid] at hrun
    generalize (thunks v.cur _).length.succ = fuel at hrun
    exact ⟨fuel, m', hrun, hr, by rw [hlog, hv.2]; rfl⟩
  | exit here => exact hv.move he.1
  | jump tch => exact hv.move he.1

theorem capturedStates_cons (he : CapturedStates v.states.length (e :: es)) :
    CapturedStates v.states.length [e] ∧ CapturedStates (v.step e).states.length es := by
  cases e with
  | enter before after =>
    have hlen : (v.step (.enter before after)).states.length = v.states.length + 1 := by
      simp [Winds.step, Winds.move]
    rw [hlen]
    exact ⟨trivial, he⟩
  | exit here => exact ⟨⟨he.1, trivial⟩, he.2⟩
  | jump tch => exact ⟨⟨he.1, trivial⟩, he.2⟩

theorem windStep_mono {fuel fuel' : Nat} (hle : fuel ≤ fuel') (h : windStep fuel m e = some m') :
    windStep fuel' m e = some m' := by
  cases e with
  | enter before after => exact arcReroot_mono hle h
  | exit here => exact arcReroot_mono hle h
  | jump tch => exact arcReroot_mono hle h

theorem windRun_mono {fuel fuel' : Nat} (hle : fuel ≤ fuel') (h : windRun fuel m es = some m') :
    windRun fuel' m es = some m' := by
  induction es generalizing m with
  | nil => exact h
  | cons e es ih =>
    obtain ⟨m₁, hstep, hrest⟩ := Option.bind_eq_some_iff.mp h
    exact Option.bind_eq_some_iff.mpr ⟨m₁, windStep_mono hle hstep, ih hrest⟩

theorem Shows.run (hv : Shows v m) (he : CapturedStates v.states.length es) :
    ∃ fuel m', windRun fuel m es = some m' ∧ Shows (v.run es) m' := by
  induction es generalizing v m with
  | nil => exact ⟨0, m, rfl, hv⟩
  | cons e es ih =>
    obtain ⟨hfirst, hrest⟩ := capturedStates_cons he
    obtain ⟨n, m₁, hstep, hv₁⟩ := hv.step hfirst
    obtain ⟨k, m', hrun, hv'⟩ := ih hv₁ hrest
    refine ⟨max n k, m', ?_, hv'⟩
    have hstep' := windStep_mono (Nat.le_max_left n k) hstep
    have hrun' := windRun_mono (Nat.le_max_right n k) hrun
    exact Option.bind_eq_some_iff.mpr ⟨m₁, hstep', hrun'⟩

/-- In every run of entries, normal exits and jumps, `TCH` is the root of a tree
that all nodes are in, and exactly the thunks of the winds left and entered have
been called at each move. -/
theorem windRun_arcMkthread (es : List (WindEvent α)) (he : CapturedStates 1 es) :
    ∃ n m, (∀ fuel, n ≤ fuel → windRun fuel arcMkthreadWinds es = some m) ∧
      m.log = (Winds.start.run es).log ∧ m.tch = top (Winds.start.run es).cur ∧
      m.cells[m.tch]? = some ⟨none, none⟩ ∧
      ∀ i < m.cells.length, Relation.ReflTransGen (Rooted.Link m) i m.tch := by
  obtain ⟨n, m, hrun, hr, hlog⟩ := shows_start.run he
  refine ⟨n, m, fun fuel hle => windRun_mono hle hrun, hlog, hr.here, hr.root, ?_⟩
  intro i hi
  rw [hr.size] at hi
  obtain ⟨s, hs, htop⟩ := hr.grown.exists_top hi
  rw [← htop]
  exact hr.reaches hs

/-- Two nested winds, a jump out of both and one back to the inner one. -/
theorem windRun_reentry :
    CapturedStates 1 [.enter 1 2, .enter 3 4, .jump 0, .jump 2, WindEvent.exit 1] ∧
      ∃ n m, (∀ fuel, n ≤ fuel → windRun fuel arcMkthreadWinds
          [.enter 1 2, .enter 3 4, .jump 0, .jump 2, .exit 1] = some m) ∧
        m.log = [1, 3, 4, 2, 1, 3, 4] ∧ m.tch = 1 := by
  have hcaptured : CapturedStates 1 [.enter 1 2, .enter 3 4, .jump 0, .jump 2, WindEvent.exit 1] := by
    simp [CapturedStates]
  obtain ⟨n, m, hrun, hlog, htch, -⟩ := windRun_arcMkthread _ hcaptured
  exact ⟨hcaptured, n, m, hrun, hlog.trans (by decide), htch.trans (by decide)⟩

end Arcueid
