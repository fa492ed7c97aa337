import Arcueid.Load
import Arcueid.TokenBoundaries

/-! Runs of a thread that loads files: every port is closed outside of its load,
and its forms are evaluated in order. -/

namespace Arcueid.Load

open Winding

variable {D P N α : Type}

/-- Some of the ports have been closed, and nothing else. -/
def PortsClosed (ports ports' : List (FilePort P)) : Prop :=
  ∀ p : Nat, ∃ b, ports'[p]? = ports[p]?.map fun fp : FilePort P => { fp with closed := fp.closed || b }

section Closing

variable {s s' : LoadThread D P α}

theorem PortsClosed.refl (ports : List (FilePort P)) : PortsClosed ports ports := by
  intro p
  refine ⟨false, ?_⟩
  cases ports[p]? with
  | none => rfl
  | some fp => simp

theorem PortsClosed.trans {ports ports' ports'' : List (FilePort P)} (h : PortsClosed ports ports')
    (h' : PortsClosed ports' ports'') : PortsClosed ports ports'' := by
  intro p
  obtain ⟨b, hb⟩ := h p
  obtain ⟨b', hb'⟩ := h' p
  refine ⟨b || b', ?_⟩
  rw [hb', hb]
  cases ports[p]? with
  | none => rfl
  | some fp => simp [Bool.or_assoc]

theorem PortsClosed.get {ports ports' : List (FilePort P)} (h : PortsClosed ports ports') {p : Nat}
    {fp' : FilePort P} (hp : ports'[p]? = some fp') :
    ∃ fp, ports[p]? = some fp ∧ fp'.opened = fp.opened ∧ fp'.cur = fp.cur ∧
      (fp.closed = true → fp'.closed = true) := by
  obtain ⟨b, hb⟩ := h p
  rw [hp] at hb
  cases hold : ports[p]? with
  | none =>
    rw [hold] at hb
    cases hb
  | some fp =>
    rw [hold] at hb
    obtain rfl := Option.some.inj hb
    exact ⟨fp, rfl, rfl, rfl, fun hc => by simp [hc]⟩

theorem PortsClosed.length {ports ports' : List (FilePort P)} (h : PortsClosed ports ports') :
    ports'.length = ports.length := by
  have hiff : ∀ p, p < ports'.length ↔ p < ports.length := by
    intro p
    obtain ⟨b, hb⟩ := h p
    have hnone : ports'[p]? = none ↔ ports[p]? = none := by rw [hb, Option.map_eq_none_iff]
    rw [List.getElem?_eq_none_iff, List.getElem?_eq_none_iff] at hnone
    omega
  have hle := hiff ports'.length
  have hge := hiff ports.length
  omega

theorem close_ports (s : LoadThread D P α) (p : Nat) : PortsClosed s.ports (s.close p).ports ∧
    ∀ fp, (s.close p).ports[p]? = some fp → fp.closed = true := by
  have hget : ∀ q, (s.close p).ports[q]? =
      (fun fp => if p = q then { fp with closed := true } else fp) <$> s.ports[q]? :=
    fun q => List.getElem?_modify _ _ _ _
  refine ⟨fun q => ⟨decide (p = q), ?_⟩, fun fp hfp => ?_⟩
  · rw [hget]
    cases s.ports[q]? with
    | none => rfl
    | some fp => by_cases hq : p = q <;> simp [hq]
  · rw [hget] at hfp
    obtain ⟨fp₀, -, rfl⟩ := Option.map_eq_some_iff.mp hfp
    simp

/-- Thunks close ports, and `afterthunk` the one of its own load. -/
theorem foldl_callThunk (ts : List (Thunk α)) (s : LoadThread D P α) :
    PortsClosed s.ports (ts.foldl LoadThread.callThunk s).ports ∧
      ∀ r, Thunk.close r ∈ ts → Shows s.slot r → ∀ fp,
        (ts.foldl LoadThread.callThunk s).ports[r.port]? = some fp → fp.closed = true := by
  induction ts generalizing s with
  | nil => exact ⟨.refl _, fun r hr => by cases hr⟩
  | cons t ts ih =>
    obtain ⟨hclosed, hown⟩ := ih (s.callThunk t)
    have hfirst : PortsClosed s.ports (s.callThunk t).ports := by
      cases t with
      | close r =>
        rw [LoadThread.callThunk]
        split
        · exact (close_ports s _).1
        · exact .refl _
      | _ => exact .refl _
    refine ⟨hfirst.trans hclosed, fun r hr hshows fp hfp => ?_⟩
    rcases List.mem_cons.mp hr with rfl | hr
    · obtain ⟨fp₀, hfp₀, -, -, hkeep⟩ := hclosed.get hfp
      rw [LoadThread.callThunk, hshows.loadFp] at hfp₀
      exact hkeep ((close_ports s r.port).2 fp₀ hfp₀)
    · have hslot : (s.callThunk t).slot = s.slot := by rw [callThunk_frame]
      exact hown r hr (hslot ▸ hshows) fp hfp

theorem reroot_closes (there : Here α) : PortsClosed s.ports (s.reroot there).ports :=
  (foldl_callThunk (thunks s.tch there) s).1

/-- The ports whose `afterthunk` is still to be called. -/
def portsOf (here : Here α) : List Nat := (hereRefs here).map Ref.port

/-- On the way to another state the port of a load that is left is closed. -/
theorem reroot_inside {states : List (Here α)} {there : Here α} {p : Nat} {fp : FilePort P}
    (hgrown : Grown states) (htch : s.tch ∈ states) (hthere : there ∈ states)
    (hshows : ∀ r ∈ hereRefs s.tch, Shows s.slot r)
    (hp : p ∈ portsOf s.tch ∨ ∀ fp, s.ports[p]? = some fp → fp.closed = true)
    (hfp : (s.reroot there).ports[p]? = some fp) : p ∈ portsOf there ∨ fp.closed = true := by
  rcases hp with hp | hp
  · obtain ⟨r, hr, rfl⟩ := List.mem_map.mp hp
    obtain ⟨w, hw, hwr⟩ := List.mem_flatMap.mp hr
    have hafter : w.after = .close r := by
      cases ha : w.after with
      | close q =>
        rw [Wind.refs, ha] at hwr
        rw [List.mem_singleton.mp hwr]
      | _ =>
        rw [Wind.refs, ha] at hwr
        cases hwr
    by_cases hid : w.id ∈ ids there
    · left
      obtain ⟨pre, suf, heq⟩ := List.append_of_mem hw
      have hmem : w :: suf ∈ states := hgrown.suffix (heq ▸ htch)
      obtain ⟨pre', heq'⟩ := hgrown.enclosed hmem hthere hid
      have hin : w ∈ there := by
        rw [heq']
        exact List.mem_append_right _ List.mem_cons_self
      exact List.mem_map.mpr ⟨r, List.mem_flatMap.mpr ⟨w, hin, hwr⟩, rfl⟩
    · right
      have hleft : w ∈ left s.tch there := List.mem_filter.mpr ⟨hw, by simp [hid]⟩
      have hthunk : Thunk.close r ∈ thunks s.tch there :=
        List.mem_append_left _ (List.mem_map.mpr ⟨w, hleft, hafter⟩)
      exact (foldl_callThunk (thunks s.tch there) s).2 r hthunk (hshows r hr) fp hfp
  · right
    obtain ⟨fp₀, hfp₀, -, -, hkeep⟩ := (reroot_closes there).get hfp
    exact hkeep (hp fp₀ hfp₀)

def heres (conr : List (Cont α)) : List (Here α) := conr.filterMap fun k =>
  match k.pending with
  | .exitWind here => some here
  | _ => none

/-- The states that a thread can go to are states it was in. -/
structure Wound (s : LoadThread D P α) : Prop where
  grown : Grown s.states
  tch : s.tch ∈ s.states
  conr : ∀ here ∈ heres s.conr, here ∈ s.states
  captured : ∀ k ∈ s.captured, k.tch ∈ s.states ∧ ∀ here ∈ heres k.tcr, here ∈ s.states

/-- A loop whose `arc_dynamic_wind` goes out of its load. -/
def Inner (r : Ref) (conr : List (Cont α)) : Prop :=
  ∃ here base ks, conr = ⟨.exitWind here, base⟩ :: ks ∧ r.port ∉ portsOf here

def Loops : List (Cont α) → Prop
  | [] => True
  | k :: ks => (∀ r, k.pending = .loop r → Inner r ks) ∧ Loops ks

theorem Inner.toHeap {r : Ref} {ks : List (Cont α)} (h : Inner r ks) :
    Inner r (ks.map Cont.toHeap) := by
  obtain ⟨here, base, ks, rfl, hr⟩ := h
  exact ⟨here, none, ks.map Cont.toHeap, rfl, hr⟩

theorem Loops.toHeap {ks : List (Cont α)} (h : Loops ks) : Loops (ks.map Cont.toHeap) := by
  induction ks with
  | nil => trivial
  | cons k ks ih => exact ⟨fun r hr => (h.1 r hr).toHeap, ih h.2⟩

theorem heres_toHeap (ks : List (Cont α)) : heres (ks.map Cont.toHeap) = heres ks := by
  rw [heres, List.filterMap_map]
  rfl

/-- A port that is open is inside of its load. -/
def OpenInside (ports : List (FilePort P)) (tch : Here α) : Prop :=
  ∀ p fp, ports[p]? = some fp → p ∈ portsOf tch ∨ fp.closed = true

structure Closing (s : LoadThread D P α) : Prop where
  known : ∀ r ∈ s.refs, r.port < s.ports.length
  inside : OpenInside s.ports s.tch
  loops : Loops s.conr
  captured : ∀ k ∈ s.captured, Loops k.tcr
  control : ∀ r, s.control = .read r → Inner r s.conr

variable {fs : FileSystem N P} {lpath : List N} {sread : D → P → Option (D × P)} {nil : D}

theorem Wound.of_states (h : Wound s) (hstates : s'.states = s.states) (htch : s'.tch ∈ s.states)
    (hconr : ∀ here ∈ heres s'.conr, here ∈ s.states) (hcap : s'.captured = s.captured) :
    Wound s' := by
  refine ⟨hstates ▸ h.grown, hstates ▸ htch, ?_, ?_⟩
  · rw [hstates]
    exact hconr
  · rw [hstates, hcap]
    exact h.captured

/-- A new wind inside of the current state. -/
theorem Wound.extend (h : Wound s) {before after : Thunk α}
    (hstates : s'.states = s.states ++ [⟨s.states.length, before, after⟩ :: s.tch])
    (htch : s'.tch = ⟨s.states.length, before, after⟩ :: s.tch)
    (hconr : ∀ here ∈ heres s'.conr, here ∈ s.states) (hcap : s'.captured = s.captured) :
    Wound s' := by
  have hmem : ∀ {here}, here ∈ s.states → here ∈ s'.states := by
    intro here hin
    rw [hstates]
    exact List.mem_append_left _ hin
  refine ⟨?_, ?_, fun here hin => hmem (hconr here hin), fun k hk => ?_⟩
  · rw [hstates]
    exact .wind h.grown h.tch
  · rw [hstates, htch]
    exact List.mem_append_right _ (List.mem_singleton.mpr rfl)
  · rw [hcap] at hk
    obtain ⟨hktch, hkconr⟩ := h.captured k hk
    exact ⟨hmem hktch, fun here hin => hmem (hkconr here hin)⟩

theorem Wound.step (h : Wound s) (hstep : Step fs lpath sread nil s s') : Wound s' := by
  have hpop : ∀ {k : Cont α} {ks}, s.conr = k :: ks → ∀ here ∈ heres ks, here ∈ s.states := by
    intro k ks hconr here hin
    refine h.conr here ?_
    rw [hconr, heres, List.filterMap_cons]
    split
    · exact hin
    · exact List.mem_cons_of_mem _ hin
  have hwind : ∀ {here base ks}, s.conr = ⟨.exitWind here, base⟩ :: ks → here ∈ s.states := by
    intro here base ks hconr
    refine h.conr here ?_
    rw [hconr]
    exact List.mem_cons_self
  cases hstep with
  | assign => exact h.of_states rfl h.tch h.conr rfl
  | call => exact h.of_states rfl h.tch h.conr rfl
  | areturn => exact h.of_states rfl h.tch h.conr rfl
  | err => exact h.of_states rfl h.tch h.conr rfl
  | wind =>
    rw [LoadThread.enterWind, reroot_frame]
    refine h.extend rfl rfl (fun here hin => ?_) rfl
    rcases List.mem_cons.mp hin with rfl | hin
    · exact h.tch
    · exact h.conr here hin
  | capture =>
    refine ⟨h.grown, h.tch, fun here hin => ?_, fun k hk => ?_⟩
    · rw [heres_toHeap] at hin
      exact h.conr here hin
    · rcases List.mem_append.mp hk with hk | hk
      · exact h.captured k hk
      · rw [List.mem_singleton.mp hk, heres_toHeap]
        exact ⟨h.tch, h.conr⟩
  | throw hcontrol hk hsp =>
    rw [LoadThread.throw, reroot_frame]
    obtain ⟨htch, hconr⟩ := h.captured _ hk
    refine h.of_states rfl htch (fun here hin => ?_) rfl
    split at hin
    · exact h.conr here hin
    · exact hconr here hin
  | broken =>
    rw [reroot_frame]
    have hstart : s.tch ++ [] ∈ s.states := by
      rw [List.append_nil]
      exact h.tch
    exact h.of_states rfl (h.grown.suffix hstart) (fun here hin => by cases hin) rfl
  | load =>
    rw [LoadThread.enterLoad, LoadThread.enterWind, reroot_frame]
    refine h.extend rfl rfl (fun here hin => ?_) rfl
    rcases List.mem_cons.mp hin with rfl | hin
    · exact h.tch
    · exact h.conr here hin
  | loadFails => exact h.of_states rfl h.tch h.conr rfl
  | form => exact h.of_states rfl h.tch h.conr rfl
  | finish hread hfp hp hopen hd hconr hsp =>
    rw [reroot_frame]
    exact h.of_states rfl (hwind hconr) (hpop hconr) rfl
  | readFails => exact h.of_states rfl h.tch h.conr rfl
  | toCode hret hconr hsp => exact h.of_states rfl h.tch (hpop hconr) rfl
  | toLoop hret hconr hsp => exact h.of_states rfl h.tch (hpop hconr) rfl
  | toLoad hret hconr hsp => exact h.of_states rfl h.tch (hpop hconr) rfl
  | toWind hret hconr hsp =>
    rw [reroot_frame]
    exact h.of_states rfl (hwind hconr) (hpop hconr) rfl
  | release => exact h.of_states rfl h.tch h.conr rfl
  | overflow => exact h.of_states rfl h.tch h.conr rfl

theorem refs_subset {q : Ref → Prop} (hcontrol : ∀ r ∈ s'.control.refs, r ∈ s.refs)
    (htch : ∀ r ∈ hereRefs s'.tch, r ∈ s.refs) (hconr : ∀ r ∈ contRefs s'.conr, r ∈ s.refs)
    (hcap : s'.captured = s.captured) : ∀ r ∈ s'.refs, r ∈ s.refs ∨ q r := by
  intro r hr
  left
  rcases List.mem_append.mp hr with hr | hr
  · rcases List.mem_append.mp hr with hr | hr
    · rcases List.mem_append.mp hr with hr | hr
      · exact hcontrol r hr
      · exact htch r hr
    · exact hconr r hr
  · rw [hcap] at hr
    exact List.mem_append_right _ hr

theorem enterLoad_ports (s : LoadThread D P α) (opened : P) (ofs base windBase sp : Nat)
    (slot : Nat → Value) : PortsClosed (s.ports ++ [⟨opened, opened, false⟩])
      (s.enterLoad opened ofs base windBase sp slot).ports := by
  rw [LoadThread.enterLoad, LoadThread.enterWind]
  exact reroot_closes _

/-- Only a load refers to another frame, the one of its own port. -/
theorem Step.refs (hstep : Step fs lpath sread nil s s') :
    ∀ r ∈ s'.refs, r ∈ s.refs ∨ r.port = s.ports.length ∧ s'.ports.length = s.ports.length + 1 := by
  have hnone : ∀ r ∈ ([] : List Ref), r ∈ s.refs := fun r hr => by cases hr
  have htch : ∀ r ∈ hereRefs s.tch, r ∈ s.refs := fun r hr => mem_refs_tch hr
  have hconr : ∀ r ∈ contRefs s.conr, r ∈ s.refs := fun r hr => mem_refs_conr hr
  have hpop : ∀ {k : Cont α} {ks}, s.conr = k :: ks → ∀ r ∈ contRefs ks, r ∈ s.refs := by
    intro k ks hk r hr
    refine hconr r ?_
    rw [hk, contRefs_cons]
    exact List.mem_append_right _ hr
  have hexit : ∀ {k : Cont α} {ks}, s.conr = k :: ks → ∀ r ∈ k.pending.refs, r ∈ s.refs := by
    intro k ks hk r hr
    refine hconr r ?_
    rw [hk, contRefs_cons]
    exact List.mem_append_left _ hr
  have hcontrol : ∀ r ∈ s.control.refs, r ∈ s.refs :=
    fun r hr => List.mem_append_left _ (List.mem_append_left _ (List.mem_append_left _ hr))
  cases hstep with
  | assign => exact fun r hr => .inl hr
  | call => exact fun r hr => .inl hr
  | areturn => exact refs_subset hnone htch hconr rfl
  | err => exact refs_subset hnone htch hconr rfl
  | wind =>
    rw [LoadThread.enterWind, reroot_frame]
    refine refs_subset hcontrol htch (fun r hr => ?_) rfl
    rcases List.mem_append.mp hr with hr | hr
    · exact htch r hr
    · exact hconr r hr
  | capture =>
    intro r hr
    simp only [LoadThread.refs, contRefs_toHeap, List.flatMap_append, List.flatMap_cons,
      List.flatMap_nil, Captured.refs, List.append_nil, List.mem_append] at hr ⊢
    tauto
  | @throw k _ _ hk =>
    rw [LoadThread.throw, reroot_frame]
    have hcapt : ∀ r ∈ k.refs, r ∈ s.refs := fun r hr => mem_refs_captured hk hr
    refine refs_subset hnone (fun r hr => hcapt r (List.mem_append_right _ hr))
      (fun r hr => ?_) rfl
    change r ∈ contRefs (if k.tcr.isEmpty then s.conr else k.tcr) at hr
    split at hr
    · exact hconr r hr
    · exact hcapt r (List.mem_append_left _ hr)
  | broken =>
    rw [reroot_frame]
    exact refs_subset hnone hnone hnone rfl
  | @load _ _ opened ofs base windBase sp slot =>
    intro r hr
    have hlen := (enterLoad_ports s opened ofs base windBase sp slot).length
    rw [List.length_append] at hlen
    rcases refs_enterLoad hr with rfl | hr
    · exact .inr ⟨rfl, hlen⟩
    · exact .inl hr
  | loadFails => exact refs_subset hnone htch hconr rfl
  | form hread =>
    refine refs_subset hnone htch (fun r hr => ?_) rfl
    rcases List.mem_append.mp hr with hr | hr
    · refine hcontrol r ?_
      rw [hread]
      exact hr
    · exact hconr r hr
  | finish hread hfp hp hopen hd hk hsp =>
    rw [reroot_frame]
    exact refs_subset hnone (hexit hk) (hpop hk) rfl
  | readFails => exact refs_subset hnone htch hconr rfl
  | toCode hret hk hsp => exact refs_subset hnone htch (hpop hk) rfl
  | toLoop hret hk hsp => exact refs_subset (hexit hk) htch (hpop hk) rfl
  | toLoad hret hk hsp => exact refs_subset hcontrol htch (hpop hk) rfl
  | toWind hret hk hsp =>
    rw [reroot_frame]
    exact refs_subset hcontrol (hexit hk) (hpop hk) rfl
  | release => exact refs_subset hnone htch hconr rfl
  | overflow => exact refs_subset hnone htch hconr rfl

theorem OpenInside.get {ports : List (FilePort P)} {tch : Here α} (h : OpenInside ports tch)
    (p : Nat) : p ∈ portsOf tch ∨ ∀ fp, ports[p]? = some fp → fp.closed = true := by
  by_cases hp : p ∈ portsOf tch
  · exact .inl hp
  · exact .inr fun fp hfp => (h p fp hfp).resolve_left hp

theorem OpenInside.set {ports : List (FilePort P)} {tch : Here α} (h : OpenInside ports tch)
    {p : Nat} {fp : FilePort P} (hp : ports[p]? = some fp) (cur : P) :
    OpenInside (ports.set p { fp with cur := cur }) tch := by
  intro q fq hq
  by_cases heq : p = q
  · subst heq
    have hlt : p < ports.length := (List.getElem?_eq_some_iff.mp hp).1
    rw [List.getElem?_set_self hlt] at hq
    obtain rfl := Option.some.inj hq
    exact h p fp hp
  · rw [List.getElem?_set_ne heq] at hq
    exact h q fq hq

theorem OpenInside.reroot {states : List (Here α)} {there : Here α}
    (h : OpenInside s.ports s.tch) (hgrown : Grown states) (htch : s.tch ∈ states)
    (hthere : there ∈ states) (hshows : ∀ r ∈ hereRefs s.tch, Shows s.slot r) :
    OpenInside (s.reroot there).ports there :=
  fun p _ hfp => reroot_inside hgrown htch hthere hshows (h.get p) hfp

/-- A wind may be entered with the port that its after closes open. -/
theorem enterWind_inside (hgrown : Grown s.states) (htch : s.tch ∈ s.states)
    (hshows : ∀ r ∈ hereRefs s.tch, Shows s.slot r) (before after : Thunk α) (base : Nat)
    (h : ∀ p, p ∈ portsOf (⟨s.states.length, before, after⟩ :: s.tch) ∨
      ∀ fp, s.ports[p]? = some fp → fp.closed = true) :
    OpenInside (s.enterWind before after base).ports (s.enterWind before after base).tch := by
  intro p fp hfp
  let there : Here α := ⟨s.states.length, before, after⟩ :: s.tch
  let t : LoadThread D P α := { s with states := s.states ++ [there] }
  have hnew : Grown (s.states ++ [there]) := .wind hgrown htch
  have hold : s.tch ∈ s.states ++ [there] := List.mem_append_left _ htch
  have hlast : there ∈ s.states ++ [there] :=
    List.mem_append_right _ (List.mem_singleton.mpr rfl)
  rcases h p with hp | hp
  · exact .inl hp
  · exact reroot_inside (s := t) hnew hold hlast hshows (.inr hp) hfp

theorem Closing.inside_step (h : Closing s) (hkept : Kept s) (hwound : Wound s)
    (hstep : Step fs lpath sread nil s s') : OpenInside s'.ports s'.tch := by
  have hwinds : ∀ r ∈ hereRefs s.tch, Shows s.slot r :=
    fun r hr => (hkept.words r (mem_refs_tch hr)).2
  have hwind : ∀ {here base ks}, s.conr = ⟨.exitWind here, base⟩ :: ks → here ∈ s.states := by
    intro here base ks hconr
    refine hwound.conr here ?_
    rw [hconr]
    exact List.mem_cons_self
  have hin : ∀ {there}, there ∈ s.states → OpenInside (s.reroot there).ports there :=
    fun hthere => h.inside.reroot hwound.grown hwound.tch hthere hwinds
  have hkept' := hkept.step hstep
  cases hstep with
  | @wind before after base =>
    exact enterWind_inside hwound.grown hwound.tch hwinds _ _ base h.inside.get
  | throw hcontrol hk hsp => exact hin (hwound.captured _ hk).1
  | broken hraise =>
    have hstart : s.tch ++ [] ∈ s.states := by
      rw [List.append_nil]
      exact hwound.tch
    exact hin (hwound.grown.suffix hstart)
  | @load loadfile file opened ofs base windBase sp slot hcode hfile hopened hofs hbase =>
    let t : LoadThread D P α := { s with
      ports := s.ports ++ [⟨opened, opened, false⟩]
      slot := slot
      conr := ⟨.load ⟨ofs, s.ports.length⟩, some base⟩ :: s.conr }
    have hshows : ∀ r ∈ hereRefs s.tch, Shows slot r := by
      intro r hr
      have hr' : r ∈ (s.enterLoad opened ofs base windBase sp slot).refs :=
        mem_refs_tch (List.mem_append_right _ hr)
      have hwords := (hkept'.words r hr').2
      rw [LoadThread.enterLoad, LoadThread.enterWind, reroot_frame] at hwords
      exact hwords
    refine enterWind_inside (s := t) hwound.grown hwound.tch hshows _ _ windBase fun p => ?_
    by_cases hp : p < s.ports.length
    · rcases h.inside.get p with hin | hclosed
      · exact .inl (List.mem_cons_of_mem _ hin)
      · refine .inr fun fp hfp => hclosed fp ?_
        rw [← hfp]
        exact (List.getElem?_append_left hp).symm
    · by_cases heq : p = s.ports.length
      · subst heq
        exact .inl List.mem_cons_self
      · right
        intro fp hfp
        have hlt := (List.getElem?_eq_some_iff.mp hfp).1
        have hlen : t.ports.length = s.ports.length + 1 := List.length_append
        omega
  | form hread hfp hp hopen hd hne hsp => exact h.inside.set hp _
  | @finish r p fp cur here base conr sp hread hfp hp hopen hd hconr hsp =>
    let t : LoadThread D P α := { s with
      sp := sp
      ports := s.ports.set p { fp with cur := cur }
      finished := s.finished ++ [p] }
    exact OpenInside.reroot (s := t) (h.inside.set hp _) hwound.grown hwound.tch (hwind hconr) hwinds
  | @toWind here base conr sp hret hconr hsp =>
    let t : LoadThread D P α := { s with sp := sp }
    exact OpenInside.reroot (s := t) h.inside hwound.grown hwound.tch (hwind hconr) hwinds
  | _ => exact h.inside

/-- What a step does to the ports and to what has been evaluated. -/
inductive Traced (sread : D → P → Option (D × P)) (nil : D) (s s' : LoadThread D P α) : Prop
  | closes : PortsClosed s.ports s'.ports → s'.evals = s.evals → s'.finished = s.finished →
      Traced sread nil s s'
  | opens (opened : P) : PortsClosed (s.ports ++ [⟨opened, opened, false⟩]) s'.ports →
      s'.evals = s.evals → s'.finished = s.finished → Traced sread nil s s'
  | form (r : Ref) (p : Nat) (fp : FilePort P) (d : D) (cur : P) : s.control = .read r →
      loadFp s.slot r.ofs = .atom p → s.ports[p]? = some fp → fp.closed = false →
      sread nil fp.cur = some (d, cur) → d ≠ nil →
      s'.ports = s.ports.set p { fp with cur := cur } → s'.evals = s.evals ++ [(p, d)] →
      s'.finished = s.finished → Traced sread nil s s'
  | finish (r : Ref) (p : Nat) (fp : FilePort P) (cur : P) (conr : List (Cont α))
      (base : Option Nat) : s.control = .read r →
      loadFp s.slot r.ofs = .atom p → s.ports[p]? = some fp → fp.closed = false →
      sread nil fp.cur = some (nil, cur) → s.conr = ⟨.exitWind s'.tch, base⟩ :: conr →
      PortsClosed (s.ports.set p { fp with cur := cur }) s'.ports → s'.evals = s.evals →
      s'.finished = s.finished ++ [p] → Traced sread nil s s'

theorem Step.traced (hstep : Step fs lpath sread nil s s') : Traced sread nil s s' := by
  cases hstep with
  | @wind before after base =>
    let there : Here α := ⟨s.states.length, .user before, .user after⟩ :: s.tch
    let t : LoadThread D P α := { s with states := s.states ++ [there] }
    have hclosed := reroot_closes (s := t) there
    rw [LoadThread.enterWind, reroot_frame]
    exact .closes hclosed rfl rfl
  | throw =>
    rw [LoadThread.throw, reroot_frame]
    exact .closes (reroot_closes _) rfl rfl
  | broken =>
    rw [reroot_frame]
    exact .closes (reroot_closes _) rfl rfl
  | @load loadfile file opened ofs base windBase sp slot =>
    have hclosed := enterLoad_ports s opened ofs base windBase sp slot
    rw [LoadThread.enterLoad, LoadThread.enterWind, reroot_frame] at hclosed ⊢
    exact .opens opened hclosed rfl rfl
  | form hread hfp hp hopen hd hne =>
    exact .form _ _ _ _ _ hread hfp hp hopen hd hne rfl rfl rfl
  | @finish r p fp cur here base conr sp hread hfp hp hopen hd hconr =>
    rw [reroot_frame]
    exact .finish r p fp cur conr base hread hfp hp hopen hd hconr (reroot_closes _) rfl rfl
  | toWind =>
    rw [reroot_frame]
    exact .closes (reroot_closes _) rfl rfl
  | _ => exact .closes (.refl _) rfl rfl

theorem Traced.length_le (h : Traced sread nil s s') : s.ports.length ≤ s'.ports.length := by
  cases h with
  | closes hports => exact hports.length.ge
  | opens opened hports =>
    rw [hports.length, List.length_append]
    exact Nat.le_add_right _ _
  | form r p fp d cur hread hfp hp hopen hd hne hports =>
    rw [hports, List.length_set]
  | finish r p fp cur conr base hread hfp hp hopen hd hconr hports =>
    rw [hports.length, List.length_set]

theorem Closing.step (h : Closing s) (hkept : Kept s) (hwound : Wound s)
    (hstep : Step fs lpath sread nil s s') : Closing s' := by
  have hknown : ∀ r ∈ s'.refs, r.port < s'.ports.length := by
    intro r hr
    have hle := hstep.traced.length_le
    rcases hstep.refs r hr with hr | ⟨hport, hlen⟩
    · exact lt_of_lt_of_le (h.known r hr) hle
    · omega
  have hpop : ∀ {k : Cont α} {ks}, s.conr = k :: ks →
      (∀ r, k.pending = .loop r → Inner r ks) ∧ Loops ks := by
    intro k ks hconr
    have hloops := h.loops
    rw [hconr] at hloops
    exact hloops
  have hinside := h.inside_step hkept hwound hstep
  have hnoread : ∀ {c : Control}, s.control = c → c.refs = [] → ∀ r, s.control = .read r → False := by
    intro c hc hrefs r hread
    rw [← hc, hread] at hrefs
    cases hrefs
  cases hstep with
  | assign => exact ⟨hknown, hinside, h.loops, h.captured, h.control⟩
  | call hcode =>
    refine ⟨hknown, hinside, ⟨?_, h.loops⟩, h.captured, fun r hr => (hnoread hcode rfl r hr).elim⟩
    intro r hr
    cases hr
  | areturn | err | loadFails | readFails | release | overflow =>
    refine ⟨hknown, hinside, h.loops, h.captured, ?_⟩
    intro r hr
    cases hr
  | wind hcode =>
    rw [LoadThread.enterWind, reroot_frame] at hknown hinside ⊢
    refine ⟨hknown, hinside, ⟨?_, h.loops⟩, h.captured, fun r hr => (hnoread hcode rfl r hr).elim⟩
    intro r hr
    cases hr
  | capture hcode =>
    refine ⟨hknown, hinside, h.loops.toHeap, fun k hk => ?_, fun r hr => (h.control r hr).toHeap⟩
    rcases List.mem_append.mp hk with hk | hk
    · exact h.captured k hk
    · rw [List.mem_singleton.mp hk]
      exact h.loops.toHeap
  | throw hcontrol hk hsp =>
    rw [LoadThread.throw, reroot_frame] at hknown hinside ⊢
    refine ⟨hknown, hinside, ?_, h.captured, ?_⟩
    · change Loops (if _ then _ else _)
      split
      · exact h.loops
      · exact h.captured _ hk
    · intro r hr
      cases hr
  | broken =>
    rw [reroot_frame] at hknown hinside ⊢
    refine ⟨hknown, hinside, trivial, h.captured, ?_⟩
    intro r hr
    cases hr
  | load hcode =>
    rw [LoadThread.enterLoad, LoadThread.enterWind, reroot_frame] at hknown hinside ⊢
    refine ⟨hknown, hinside, ⟨?_, ?_, h.loops⟩, h.captured, ?_⟩
    · intro r hr
      cases hr
    · intro r hr
      cases hr
    · intro r hr
      cases hr
      refine ⟨s.tch, _, _, rfl, fun hin => ?_⟩
      obtain ⟨q, hq, hport⟩ := List.mem_map.mp hin
      have hlt := h.known q (mem_refs_tch hq)
      change q.port = s.ports.length at hport
      omega
  | form hread =>
    refine ⟨hknown, hinside, ⟨?_, h.loops⟩, h.captured, ?_⟩
    · intro r hr
      cases hr
      exact h.control _ hread
    · intro r hr
      cases hr
  | finish hread hfp hp hopen hd hconr hsp =>
    rw [reroot_frame] at hknown hinside ⊢
    refine ⟨hknown, hinside, (hpop hconr).2, h.captured, ?_⟩
    intro r hr
    cases hr
  | toCode hret hconr hsp =>
    refine ⟨hknown, hinside, (hpop hconr).2, h.captured, ?_⟩
    intro r hr
    cases hr
  | toLoop hret hconr hsp =>
    refine ⟨hknown, hinside, (hpop hconr).2, h.captured, ?_⟩
    intro r hr
    cases hr
    exact (hpop hconr).1 _ rfl
  | toLoad hret hconr hsp =>
    exact ⟨hknown, hinside, (hpop hconr).2, h.captured, fun r hr => (hnoread hret rfl r hr).elim⟩
  | toWind hret hconr hsp =>
    rw [reroot_frame] at hknown hinside ⊢
    exact ⟨hknown, hinside, (hpop hconr).2, h.captured, fun r hr => (hnoread hret rfl r hr).elim⟩

theorem evalsOf_append (s : LoadThread D P α) (p q : Nat) (d : D) :
    ({ s with evals := s.evals ++ [(p, d)] } : LoadThread D P α).evalsOf q =
      s.evalsOf q ++ if p = q then [d] else [] := by
  simp only [LoadThread.evalsOf, List.filter_append, List.map_append]
  by_cases h : p = q <;> simp [h]

theorem evalsOf_congr (h : s'.evals = s.evals) (p : Nat) : s'.evalsOf p = s.evalsOf p := by
  rw [LoadThread.evalsOf, LoadThread.evalsOf, h]

/-- What has been evaluated of a file, and what is left of it. -/
structure Ordered (sread : D → P → Option (D × P)) (nil : D) (s : LoadThread D P α) : Prop where
  seen : ∀ e ∈ s.evals, e.1 < s.ports.length
  done : ∀ p ∈ s.finished, p < s.ports.length
  split : ∀ p fp ds, s.ports[p]? = some fp → Forms sread fp.opened ds →
    ∃ rest, ds = s.evalsOf p ++ rest ∧ nil ∉ s.evalsOf p ∧
      (p ∉ s.finished → Forms sread fp.cur rest) ∧
      (p ∈ s.finished → fp.closed = true ∧ (rest = [] ∨ ∃ rest', rest = nil :: rest'))

/-- A form that is read is the next one of the file. -/
theorem Forms.read {cur cur' : P} {d : D} {rest : List D} (h : Forms sread cur rest)
    (hd : sread nil cur = some (d, cur')) (hne : d ≠ nil) :
    ∃ rest', rest = d :: rest' ∧ Forms sread cur' rest' := by
  cases h with
  | nil hend =>
    rw [hend nil] at hd
    cases hd
    exact (hne rfl).elim
  | @cons _ p' d' rest' hform hrest =>
    rw [hform nil] at hd
    cases hd
    exact ⟨rest', rfl, hrest⟩

/-- Where nil is read the file is at its end, or at a form that is nil. -/
theorem Forms.end_or_nil {cur cur' : P} {rest : List D} (h : Forms sread cur rest)
    (hd : sread nil cur = some (nil, cur')) : rest = [] ∨ ∃ rest', rest = nil :: rest' := by
  cases h with
  | nil => exact .inl rfl
  | @cons _ p' d' rest' hform hrest =>
    rw [hform nil] at hd
    cases hd
    exact .inr ⟨rest', rfl⟩

theorem Ordered.closes (h : Ordered sread nil s) (hports : PortsClosed s.ports s'.ports)
    (hevals : s'.evals = s.evals) (hfin : s'.finished = s.finished) : Ordered sread nil s' := by
  refine ⟨?_, ?_, fun p fp' ds hp hforms => ?_⟩
  · rw [hevals, hports.length]
    exact h.seen
  · rw [hfin, hports.length]
    exact h.done
  · obtain ⟨fp, hfp, hopened, hcur, hkeep⟩ := hports.get hp
    rw [hopened] at hforms
    obtain ⟨rest, hds, hnil, hleft, hdone⟩ := h.split p fp ds hfp hforms
    rw [evalsOf_congr hevals, hfin, hcur]
    exact ⟨rest, hds, hnil, hleft, fun hp => (hdone hp).imp_left hkeep⟩

theorem Ordered.opens (h : Ordered sread nil s) {opened : P}
    (hports : s'.ports = s.ports ++ [⟨opened, opened, false⟩]) (hevals : s'.evals = s.evals)
    (hfin : s'.finished = s.finished) : Ordered sread nil s' := by
  have hlen : s'.ports.length = s.ports.length + 1 := by
    rw [hports, List.length_append]
    rfl
  refine ⟨fun e he => ?_, fun p hp => ?_, fun p fp ds hp hforms => ?_⟩
  · rw [hevals] at he
    exact hlen ▸ Nat.lt_succ_of_lt (h.seen e he)
  · rw [hfin] at hp
    exact hlen ▸ Nat.lt_succ_of_lt (h.done p hp)
  · rw [evalsOf_congr hevals, hfin]
    by_cases hlt : p < s.ports.length
    · rw [hports, List.getElem?_append_left hlt] at hp
      exact h.split p fp ds hp hforms
    · have hend := (List.getElem?_eq_some_iff.mp hp).1
      obtain rfl : p = s.ports.length := by omega
      rw [hports, List.getElem?_concat_length] at hp
      obtain rfl := Option.some.inj hp
      have hnone : s.evalsOf s.ports.length = [] := by
        rw [LoadThread.evalsOf, List.map_eq_nil_iff, List.filter_eq_nil_iff]
        intro e he heq
        exact (h.seen e he).ne (of_decide_eq_true heq)
      rw [hnone]
      exact ⟨ds, rfl, List.not_mem_nil, fun _ => hforms, fun hp => ((h.done _ hp).ne rfl).elim⟩

theorem Ordered.form (h : Ordered sread nil s) {p : Nat} {fp : FilePort P} {d : D} {cur : P}
    (hp : s.ports[p]? = some fp) (hopen : fp.closed = false)
    (hd : sread nil fp.cur = some (d, cur)) (hne : d ≠ nil)
    (hports : s'.ports = s.ports.set p { fp with cur := cur })
    (hevals : s'.evals = s.evals ++ [(p, d)]) (hfin : s'.finished = s.finished) :
    Ordered sread nil s' := by
  have hlt : p < s.ports.length := (List.getElem?_eq_some_iff.mp hp).1
  have hlen : s'.ports.length = s.ports.length := by rw [hports, List.length_set]
  have hsplit : ∀ q, s'.evalsOf q = s.evalsOf q ++ if p = q then [d] else [] := by
    intro q
    rw [← evalsOf_append, LoadThread.evalsOf, hevals, LoadThread.evalsOf]
  refine ⟨fun e he => ?_, ?_, fun q fq ds hq hforms => ?_⟩
  · rw [hlen]
    rw [hevals] at he
    rcases List.mem_append.mp he with he | he
    · exact h.seen e he
    · rw [List.mem_singleton.mp he]
      exact hlt
  · rw [hfin, hlen]
    exact h.done
  · rw [hports] at hq
    rw [hsplit, hfin]
    by_cases heq : p = q
    · subst heq
      rw [List.getElem?_set_self hlt] at hq
      obtain rfl := Option.some.inj hq
      obtain ⟨rest, hds, hnil, hleft, hdone⟩ := h.split p fp ds hp hforms
      have hopen' : p ∉ s.finished := fun hin => by
        rw [(hdone hin).1] at hopen
        cases hopen
      obtain ⟨rest', rfl, hrest⟩ := (hleft hopen').read hd hne
      refine ⟨rest', ?_, ?_, fun _ => hrest, fun hin => (hopen' hin).elim⟩
      · simp [hds]
      · simp [hnil, hne.symm]
    · rw [List.getElem?_set_ne heq] at hq
      rw [if_neg heq, List.append_nil]
      exact h.split q fq ds hq hforms

theorem Ordered.finish (h : Ordered sread nil s) {p : Nat} {fp : FilePort P} {cur : P}
    (hp : s.ports[p]? = some fp) (hopen : fp.closed = false)
    (hd : sread nil fp.cur = some (nil, cur))
    (hports : PortsClosed (s.ports.set p { fp with cur := cur }) s'.ports)
    (hevals : s'.evals = s.evals) (hfin : s'.finished = s.finished ++ [p])
    (hclosed : ∀ fp, s'.ports[p]? = some fp → fp.closed = true) : Ordered sread nil s' := by
  have hlt : p < s.ports.length := (List.getElem?_eq_some_iff.mp hp).1
  have hlen : s'.ports.length = s.ports.length := by rw [hports.length, List.length_set]
  refine ⟨?_, fun q hq => ?_, fun q fq ds hq hforms => ?_⟩
  · rw [hevals, hlen]
    exact h.seen
  · rw [hlen]
    rw [hfin] at hq
    rcases List.mem_append.mp hq with hq | hq
    · exact h.done q hq
    · rw [List.mem_singleton.mp hq]
      exact hlt
  · obtain ⟨fq₀, hq₀, hopened, hcur, hkeep⟩ := hports.get hq
    rw [hopened] at hforms
    rw [evalsOf_congr hevals, hfin]
    by_cases heq : p = q
    · subst heq
      rw [List.getElem?_set_self hlt] at hq₀
      obtain rfl := Option.some.inj hq₀
      obtain ⟨rest, hds, hnil, hleft, hdone⟩ := h.split p fp ds hp hforms
      have hopen' : p ∉ s.finished := fun hin => by
        rw [(hdone hin).1] at hopen
        cases hopen
      have hin : p ∈ s.finished ++ [p] := List.mem_append_right _ (List.mem_singleton.mpr rfl)
      exact ⟨rest, hds, hnil, fun hno => (hno hin).elim,
        fun _ => ⟨hclosed _ hq, (hleft hopen').end_or_nil hd⟩⟩
    · rw [List.getElem?_set_ne heq] at hq₀
      obtain ⟨rest, hds, hnil, hleft, hdone⟩ := h.split q fq₀ ds hq₀ hforms
      have hiff : q ∈ s.finished ++ [p] ↔ q ∈ s.finished := by
        rw [List.mem_append, List.mem_singleton]
        exact or_iff_left (Ne.symm heq)
      rw [hiff, hcur]
      exact ⟨rest, hds, hnil, hleft, fun hin => (hdone hin).imp_left hkeep⟩

theorem Ordered.step (h : Ordered sread nil s) (hkept : Kept s) (hclosing : Closing s)
    (hclosing' : Closing s') (htraced : Traced sread nil s s') : Ordered sread nil s' := by
  cases htraced with
  | closes hports hevals hfin => exact h.closes hports hevals hfin
  | opens opened hports hevals hfin =>
    let t : LoadThread D P α := { s with ports := s.ports ++ [⟨opened, opened, false⟩] }
    have ht : Ordered sread nil t := h.opens rfl rfl rfl
    exact ht.closes hports hevals hfin
  | form r p fp d cur hread hfp hp hopen hd hne hports hevals hfin =>
    exact h.form hp hopen hd hne hports hevals hfin
  | finish r p fp cur conr base hread hfp hp hopen hd hconr hports hevals hfin =>
    refine h.finish hp hopen hd hports hevals hfin fun fp' hfp' => ?_
    have hmem : r ∈ s.refs := by
      rw [LoadThread.refs, hread]
      exact List.mem_cons_self
    have hport := (hkept.words r hmem).2.loadFp
    rw [hfp] at hport
    obtain rfl : p = r.port := by
      cases hport
      rfl
    obtain ⟨here, base', ks, heq, hout⟩ := hclosing.control r hread
    rw [hconr] at heq
    cases heq
    exact (hclosing'.inside _ fp' hfp').resolve_left hout

theorem Ordered.loaded (h : Ordered sread nil s) (hkept : Kept s) (hclosing : Closing s) :
    Loaded sread nil s := by
  refine ⟨fun r hread => ?_, fun r fp ds hread hp hopen hforms => ?_, fun p fp ds hp hforms => ?_,
    fun p fp ds hp hforms hfin => ?_, fun p fp hp hout => (hclosing.inside p fp hp).resolve_left hout⟩
  · have hmem : r ∈ s.refs := by
      rw [LoadThread.refs, hread]
      exact List.mem_cons_self
    exact (hkept.words r hmem).2.loadFp
  · obtain ⟨rest, hds, hnil, hleft, hdone⟩ := h.split r.port fp ds hp hforms
    have hnot : r.port ∉ s.finished := fun hin => by
      rw [(hdone hin).1] at hopen
      cases hopen
    cases hleft hnot with
    | nil hend => rw [hend nil, Option.isSome_some]
    | cons hform => rw [hform nil, Option.isSome_some]
  · obtain ⟨rest, hds, hnil, hleft, hdone⟩ := h.split p fp ds hp hforms
    exact ⟨rest, hds.symm⟩
  · obtain ⟨rest, hds, hnil, hleft, hdone⟩ := h.split p fp ds hp hforms
    rcases (hdone hfin).2 with rfl | ⟨rest', rfl⟩
    · rw [List.append_nil] at hds
      rw [hds]
      exact ⟨fun _ => hnil, fun _ => rfl⟩
    · rw [hds]
      have hin : nil ∈ s.evalsOf p ++ nil :: rest' := List.mem_append_right _ List.mem_cons_self
      refine ⟨fun heq => ?_, fun hno => (hno hin).elim⟩
      have hlen := congrArg List.length heq
      simp at hlen

theorem kept_start (slot : Nat → Value) : Kept (startThread slot : LoadThread D P α) := by
  refine ⟨fun r hr => ?_, trivial, fun k hk => ?_, fun k hk => ?_⟩
  · cases hr
  · cases hk
  · cases hk

theorem wound_start (slot : Nat → Value) : Wound (startThread slot : LoadThread D P α) := by
  refine ⟨.start, List.mem_cons_self, fun here hin => ?_, fun k hk => ?_⟩
  · cases hin
  · cases hk

theorem closing_start (slot : Nat → Value) : Closing (startThread slot : LoadThread D P α) := by
  refine ⟨fun r hr => ?_, fun p fp hp => ?_, trivial, fun k hk => ?_, fun r hr => ?_⟩
  · cases hr
  · cases hp
  · cases hk
  · cases hr

theorem ordered_start (slot : Nat → Value) :
    Ordered sread nil (startThread slot : LoadThread D P α) := by
  refine ⟨fun e he => ?_, fun p hp => ?_, fun p fp ds hp => ?_⟩
  · cases he
  · cases hp
  · cases hp

end Closing

section OneFile

open Reader

def readForm (n : Nat) (eof : Datum Unit) (p : Port) : Option (Datum Unit × Port) :=
  (Reader.sread noFlonums n eof p).toOption

/-- A file system with one file. -/
def oneFile (text : String) : FileSystem Unit Port where
  isAbsolutePath := fun _ => true
  pathjoin2 := fun _ _ => ()
  fileExists := fun _ => true
  infile := fun _ => some (instring (runes text))

def frameSlots (i : Nat) : Value := if i = 5 then .fixnum 5 else .atom 0

def emptyThread : LoadThread (Datum Unit) Port Unit := startThread fun _ => .nil

/-- The thread at the head of the loop, with the first file open. -/
def openedThread (text : String) : LoadThread (Datum Unit) Port Unit :=
  emptyThread.enterLoad (instring (runes text)) 6 7 8 8 frameSlots

theorem step_openedThread (text : String) (n : Nat) :
    Step (oneFile text) [] (readForm n) .nil emptyThread (openedThread text) := by
  have hfind : (oneFile text).find [] () = some () := rfl
  have hshows : Shows frameSlots ⟨6, 0⟩ := ⟨by decide, rfl, rfl⟩
  refine .load rfl hfind rfl (by decide) (by decide) (by decide) (by decide) hshows ?_
  intro i hi
  cases hi

theorem returns_openedThread (text : String) : (openedThread text).Returns (some 8) 8 := rfl

end OneFile

end Arcueid.Load
