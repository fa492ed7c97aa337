import Mathlib.Logic.Relation
import Arcueid.Lib.Winding
import Arcueid.Machine

/-! `load` (`load.c`) in one thread. Loaded code and the code around it may do
anything that has no reference to the frame of `arc_load`: it calls and returns,
overwrites the stack from its own part on, captures and applies continuations,
winds, raises errors and loads. `duringthunk` and `afterthunk` reach the port
through the offset of that frame on the stack. -/

namespace Arcueid.Load

open Winding

/-- The offset of a frame of `arc_load`, and the port that was put in it. The
code has the offset only. -/
structure Ref where
  ofs : Nat
  port : Nat

inductive Thunk (α : Type) where
  /-- `beforethunk` -/
  | nop
  /-- `afterthunk` -/
  | close (r : Ref)
  | user (a : α)

/-- The winds a thread is inside of. -/
abbrev Here (α : Type) := List (Wind (Thunk α))

inductive Pending (α : Type) where
  | code
  /-- `arc_dynamic_wind`, waiting for the call of its thunk. -/
  | exitWind (here : Here α)
  /-- `duringthunk`, waiting for the call of `arc_eval`. -/
  | loop (r : Ref)
  /-- `arc_load`, waiting for the call of `arc_dynamic_wind`. -/
  | load (r : Ref)

/-- A continuation. On the stack it has the height to return to; one that has
been moved to the heap has none, and returning leaves the stack as it is. -/
structure Cont (α : Type) where
  pending : Pending α
  base : Option Nat

structure Captured (α : Type) where
  tcr : List (Cont α)
  tch : Here α

inductive Control where
  | code
  | returning
  /-- `duringthunk` at the head of its loop. -/
  | read (r : Ref)
  | raise
  | ended
  /-- A push has found the stack full. -/
  | overflow

/-- A port of a file: as it was opened, as it is, and whether it is closed. -/
structure FilePort (P : Type) where
  opened : P
  cur : P
  closed : Bool

/-- What `arc_load` asks of the file system. -/
structure FileSystem (N P : Type) where
  isAbsolutePath : N → Bool
  pathjoin2 : N → N → N
  fileExists : N → Bool
  infile : N → Option P

/-- The file that `arc_load` opens. -/
def FileSystem.find {N P : Type} (fs : FileSystem N P) (lpath : List N) (loadfile : N) : Option N :=
  if fs.isAbsolutePath loadfile then some loadfile
  else (lpath.map fun dir => fs.pathjoin2 dir loadfile).find? fs.fileExists

structure LoadThread (D P α : Type) where
  control : Control
  conr : List (Cont α)
  states : List (Here α)
  tch : Here α
  /-- The start of the running code's part of the stack. -/
  sp : Nat
  slot : Nat → Value
  ports : List (FilePort P)
  captured : List (Captured α)
  /-- The forms passed to `arc_eval`, with the ports they were read from. -/
  evals : List (Nat × D)
  /-- The ports whose `duringthunk` has returned. -/
  finished : List Nat

variable {D P N α : Type}

def startThread (slot : Nat → Value) : LoadThread D P α where
  control := .code
  conr := []
  states := [[]]
  tch := []
  sp := 0
  slot := slot
  ports := []
  captured := []
  evals := []
  finished := []

/-- `LOAD_FP`: variable 3 of the frame at an offset. -/
def loadFp (slot : Nat → Value) (ofs : Nat) : Value :=
  slot (ofs - 1 - (fix2int (slot (ofs - 1))).toNat + 3)

/-- What is in the frame of `arc_load` once the file is open. -/
structure Shows (slot : Nat → Value) (r : Ref) : Prop where
  fit : 6 ≤ r.ofs
  count : slot (r.ofs - 1) = .fixnum 5
  fp : slot (r.ofs - 3) = .atom r.port

def Wind.refs (w : Wind (Thunk α)) : List Ref :=
  match w.after with
  | .close r => [r]
  | _ => []

def hereRefs (here : Here α) : List Ref := here.flatMap Wind.refs

def Pending.refs : Pending α → List Ref
  | .code => []
  | .exitWind here => hereRefs here
  | .loop r => [r]
  | .load r => [r]

def contRefs (conr : List (Cont α)) : List Ref := conr.flatMap fun k => k.pending.refs

def Captured.refs (k : Captured α) : List Ref := contRefs k.tcr ++ hereRefs k.tch

def Control.refs : Control → List Ref
  | .read r => [r]
  | _ => []

/-- What `__arc_cont2heap` makes of a continuation. -/
def Cont.toHeap (k : Cont α) : Cont α := { k with base := none }

namespace LoadThread

variable (s : LoadThread D P α)

def refs : List Ref :=
  s.control.refs ++ hereRefs s.tch ++ contRefs s.conr ++ s.captured.flatMap Captured.refs

def close (p : Nat) : LoadThread D P α :=
  { s with ports := s.ports.modify p fun fp => { fp with closed := true } }

def callThunk : Thunk α → LoadThread D P α
  | .close r =>
    match loadFp s.slot r.ofs with
    | .atom p => s.close p
    | _ => s
  | _ => s

/-- `__arc_reroot`. -/
def reroot (there : Here α) : LoadThread D P α :=
  { (thunks s.tch there).foldl callThunk s with tch := there }

/-- `arc_dynamic_wind` up to the call of its thunk, from the height `base`. -/
def enterWind (before after : Thunk α) (base : Nat) : LoadThread D P α :=
  let there := ⟨s.states.length, before, after⟩ :: s.tch
  let t := { s with states := s.states ++ [there] }.reroot there
  { t with conr := ⟨.exitWind s.tch, some base⟩ :: s.conr }

/-- The height after a return to a continuation. -/
def Returns (base : Option Nat) (sp : Nat) : Prop :=
  match base with
  | some b => sp = b
  | none => s.sp ≤ sp

/-- `contwrapper`. A continuation that was captured with nothing pending leaves
what is pending. -/
def throw (k : Captured α) (sp : Nat) : LoadThread D P α :=
  let t := s.reroot k.tch
  { t with control := .returning, sp := sp, conr := if k.tcr.isEmpty then s.conr else k.tcr }

/-- `arc_load` up to the first turn of the loop of `duringthunk`: its frame has
the offset `ofs`, and its port is the next one. -/
def enterLoad (opened : P) (ofs base windBase sp : Nat) (slot : Nat → Value) : LoadThread D P α :=
  let r : Ref := ⟨ofs, s.ports.length⟩
  let fp : FilePort P := ⟨opened, opened, false⟩
  let t : LoadThread D P α := { s with
    ports := s.ports ++ [fp]
    slot := slot
    conr := ⟨.load r, some base⟩ :: s.conr }
  { t.enterWind .nop (.close r) windBase with control := .read r, sp := sp }

end LoadThread

section Steps

variable (fs : FileSystem N P) (lpath : List N) (sread : D → P → Option (D × P)) (nil : D)

/-- What a thread may do next. -/
inductive Step : LoadThread D P α → LoadThread D P α → Prop
  /-- Code changes the stack, but no frame of `arc_load` below its own part. -/
  | assign {s slot} : s.control = .code →
      (∀ r ∈ s.refs, r.ofs < s.sp → slot (r.ofs - 1) = s.slot (r.ofs - 1) ∧
        slot (r.ofs - 3) = s.slot (r.ofs - 3)) →
      Step s { s with slot := slot }
  | call {s sp} : s.control = .code → s.sp ≤ sp →
      Step s { s with conr := ⟨.code, some s.sp⟩ :: s.conr, sp := sp }
  | areturn {s} : s.control = .code → Step s { s with control := .returning }
  | err {s} : s.control = .code → Step s { s with control := .raise }
  | wind {s before after base sp} : s.control = .code → s.sp ≤ base → s.sp ≤ sp →
      Step s { s.enterWind (.user before) (.user after) base with sp := sp }
  | capture {s} : s.control = .code →
      Step s { s with
        conr := s.conr.map Cont.toHeap
        captured := s.captured ++ [⟨s.conr.map Cont.toHeap, s.tch⟩] }
  | throw {s k sp} : s.control = .code ∨ s.control = .raise → k ∈ s.captured → s.sp ≤ sp →
      Step s (s.throw k sp)
  /-- There is no handler. -/
  | broken {s} : s.control = .raise → Step s { s.reroot [] with control := .ended, conr := [] }
  | load {s loadfile file opened ofs base windBase sp slot} : s.control = .code →
      fs.find lpath loadfile = some file → fs.infile file = some opened →
      s.sp + 6 ≤ ofs → ofs < base → base ≤ windBase → windBase ≤ sp →
      Shows slot ⟨ofs, s.ports.length⟩ → (∀ i < s.sp, slot i = s.slot i) →
      Step s (s.enterLoad opened ofs base windBase sp slot)
  | loadFails {s loadfile} : s.control = .code →
      (fs.find lpath loadfile).bind fs.infile = none → Step s { s with control := .raise }
  /-- A form is read and passed to `arc_eval`. -/
  | form {s r p fp d cur sp} : s.control = .read r → loadFp s.slot r.ofs = .atom p →
      s.ports[p]? = some fp → fp.closed = false → sread nil fp.cur = some (d, cur) → d ≠ nil →
      s.sp ≤ sp →
      Step s { s with
        control := .code
        conr := ⟨.loop r, some s.sp⟩ :: s.conr
        sp := sp
        ports := s.ports.set p { fp with cur := cur }
        evals := s.evals ++ [(p, d)] }
  /-- `duringthunk` returns nil to `arc_dynamic_wind`. -/
  | finish {s r p fp cur here base conr sp} : s.control = .read r →
      loadFp s.slot r.ofs = .atom p → s.ports[p]? = some fp → fp.closed = false →
      sread nil fp.cur = some (nil, cur) → s.conr = ⟨.exitWind here, base⟩ :: conr →
      s.Returns base sp →
      Step s { ({ s with
          sp := sp
          ports := s.ports.set p { fp with cur := cur }
          finished := s.finished ++ [p] } : LoadThread D P α).reroot here with
        control := .returning, conr := conr }
  /-- There is no port, it is closed, or what is read is no form. -/
  | readFails {s r} : s.control = .read r →
      (∀ p fp, loadFp s.slot r.ofs = .atom p → s.ports[p]? = some fp → fp.closed = false →
        sread nil fp.cur = none) →
      Step s { s with control := .raise }
  | toCode {s base conr sp} : s.control = .returning → s.conr = ⟨.code, base⟩ :: conr →
      s.Returns base sp → Step s { s with control := .code, conr := conr, sp := sp }
  | toLoop {s r base conr sp} : s.control = .returning → s.conr = ⟨.loop r, base⟩ :: conr →
      s.Returns base sp → Step s { s with control := .read r, conr := conr, sp := sp }
  | toLoad {s r base conr sp} : s.control = .returning → s.conr = ⟨.load r, base⟩ :: conr →
      s.Returns base sp → Step s { s with conr := conr, sp := sp }
  | toWind {s here base conr sp} : s.control = .returning →
      s.conr = ⟨.exitWind here, base⟩ :: conr → s.Returns base sp →
      Step s { ({ s with sp := sp } : LoadThread D P α).reroot here with conr := conr }
  | release {s} : s.control = .returning → s.conr = [] → Step s { s with control := .ended }
  | overflow {s} : Step s { s with control := .overflow }

/-- The forms of a file: what is read does not depend on what stands for the
end of the file, up to there. -/
inductive Forms : P → List D → Prop
  | nil {p p'} : (∀ eof, sread eof p = some (eof, p')) → Forms p []
  | cons {p p' d ds} : (∀ eof, sread eof p = some (d, p')) → Forms p' ds → Forms p (d :: ds)

end Steps

/-- The forms of one port that have been evaluated, in order. -/
def LoadThread.evalsOf (s : LoadThread D P α) (p : Nat) : List D :=
  (s.evals.filter fun e => e.1 = p).map Prod.snd

/-- What loading is to do, as far as a thread has come. -/
structure Loaded (sread : D → P → Option (D × P)) (nil : D) (s : LoadThread D P α) : Prop where
  ownPort : ∀ r, s.control = .read r → loadFp s.slot r.ofs = .atom r.port
  reads : ∀ r fp ds, s.control = .read r → s.ports[r.port]? = some fp → fp.closed = false →
    Forms sread fp.opened ds → (sread nil fp.cur).isSome
  order : ∀ p fp ds, s.ports[p]? = some fp → Forms sread fp.opened ds → s.evalsOf p <+: ds
  whole : ∀ p fp ds, s.ports[p]? = some fp → Forms sread fp.opened ds → p ∈ s.finished →
    (s.evalsOf p = ds ↔ nil ∉ ds)
  closed : ∀ p fp, s.ports[p]? = some fp → p ∉ (hereRefs s.tch).map Ref.port → fp.closed = true

/-- Variable 3 of the frame outside of the current one. -/
theorem arcGetenv_loadFp {m : Machine} {ofs : Nat} (h : nextenv m m.envr = .env ofs) :
    arcGetenv m 1 3 = some (loadFp m.slot ofs) := by
  have hat : envAt m m.envr 1 = .env ofs := h
  rw [arcGetenv, envval, hat]
  rfl

theorem Shows.loadFp {slot : Nat → Value} {r : Ref} (h : Shows slot r) :
    loadFp slot r.ofs = .atom r.port := by
  have hfit := h.fit
  have hidx : r.ofs - 1 - (fix2int (.fixnum 5)).toNat + 3 = r.ofs - 3 := by
    change r.ofs - 1 - 5 + 3 = r.ofs - 3
    omega
  rw [Load.loadFp, h.count, hidx, h.fp]

/-- The references that a return to a continuation leaves in force. -/
def Cont.next (es : List Ref) (k : Cont α) : List Ref :=
  match k.pending with
  | .exitWind here => hereRefs here
  | .loop r => r :: es
  | _ => es

/-- Continuations on the stack lie above the frames that are referred to from
further out, or until they are returned to. -/
def Held : List Ref → List (Cont α) → Prop
  | _, [] => True
  | es, k :: ks =>
    (∀ b, k.base = some b → ∀ r ∈ es ++ contRefs (k :: ks), r.ofs < b) ∧ Held (k.next es) ks

/-- Every frame of `arc_load` that is still referred to is on the stack. -/
structure Kept (s : LoadThread D P α) : Prop where
  words : ∀ r ∈ s.refs, r.ofs < s.sp ∧ Shows s.slot r
  held : Held (s.control.refs ++ hereRefs s.tch) s.conr
  heap : ∀ k ∈ s.captured, ∀ c ∈ k.tcr, c.base = none
  apart : ∀ k ∈ s.captured, ∀ r ∈ k.refs, ∀ c ∈ s.conr, ∀ b, c.base = some b → r.ofs < b

section Kept

variable {s s' : LoadThread D P α}

theorem contRefs_cons (k : Cont α) (ks : List (Cont α)) :
    contRefs (k :: ks) = k.pending.refs ++ contRefs ks := List.flatMap_cons

theorem contRefs_toHeap (ks : List (Cont α)) : contRefs (ks.map Cont.toHeap) = contRefs ks := by
  rw [contRefs, List.flatMap_map]
  rfl

theorem hereRefs_cons (w : Wind (Thunk α)) (here : Here α) :
    hereRefs (w :: here) = Wind.refs w ++ hereRefs here := List.flatMap_cons

theorem Held.of_heap {es : List Ref} {ks : List (Cont α)} (h : ∀ k ∈ ks, k.base = none) :
    Held es ks := by
  induction ks generalizing es with
  | nil => trivial
  | cons k ks ih =>
    refine ⟨fun b hb => ?_, ih fun k hk => h k (List.mem_cons_of_mem _ hk)⟩
    rw [h k List.mem_cons_self] at hb
    cases hb

/-- References that lie below all continuations on the stack can be added. -/
theorem Held.weaken {es es' : List Ref} {ks : List (Cont α)} (h : Held es ks)
    (hes : ∀ r ∈ es', r ∈ es ∨ ∀ k ∈ ks, ∀ b, k.base = some b → r.ofs < b) : Held es' ks := by
  induction ks generalizing es es' with
  | nil => trivial
  | cons k ks ih =>
    have hrest : ∀ r : Ref, (∀ k' ∈ k :: ks, ∀ b, k'.base = some b → r.ofs < b) →
        ∀ k' ∈ ks, ∀ b, k'.base = some b → r.ofs < b :=
      fun r hr k' hk' => hr k' (List.mem_cons_of_mem _ hk')
    refine ⟨fun b hb r hr => ?_, ih h.2 fun r hr => ?_⟩
    · rcases List.mem_append.mp hr with hr | hr
      · rcases hes r hr with hold | hlow
        · exact h.1 b hb r (List.mem_append_left _ hold)
        · exact hlow k List.mem_cons_self b hb
      · exact h.1 b hb r (List.mem_append_right _ hr)
    · cases hk : k.pending with
      | exitWind here =>
        simp only [Cont.next, hk] at hr ⊢
        exact .inl hr
      | loop q =>
        simp only [Cont.next, hk] at hr ⊢
        rcases List.mem_cons.mp hr with rfl | hr
        · exact .inl List.mem_cons_self
        · exact (hes r hr).imp (List.mem_cons_of_mem _) (hrest r)
      | code =>
        simp only [Cont.next, hk] at hr ⊢
        exact (hes r hr).imp_right (hrest r)
      | load q =>
        simp only [Cont.next, hk] at hr ⊢
        exact (hes r hr).imp_right (hrest r)

theorem callThunk_frame (t : Thunk α) :
    s.callThunk t = { s with ports := (s.callThunk t).ports } := by
  cases t with
  | close r =>
    rw [LoadThread.callThunk]
    split <;> rfl
  | _ => rfl

theorem reroot_frame (there : Here α) :
    s.reroot there = { s with ports := (s.reroot there).ports, tch := there } := by
  have hfold : ∀ (ts : List (Thunk α)) (s : LoadThread D P α),
      ts.foldl LoadThread.callThunk s =
        { s with ports := (ts.foldl LoadThread.callThunk s).ports } := by
    intro ts
    induction ts with
    | nil => exact fun s => rfl
    | cons t ts ih =>
      intro s
      rw [List.foldl_cons, ih, callThunk_frame t]
  rw [LoadThread.reroot, hfold]

/-- What a return to the topmost continuation leaves. -/
theorem Kept.pop (h : Kept s) {k : Cont α} {ks : List (Cont α)} {sp : Nat}
    (hconr : s.conr = k :: ks) (hsp : s.Returns k.base sp) :
    (∀ r ∈ s.refs, r.ofs < sp) ∧ Held (k.next (s.control.refs ++ hereRefs s.tch)) ks ∧
      ∀ q ∈ s.captured, ∀ r ∈ q.refs, ∀ c ∈ ks, ∀ b, c.base = some b → r.ofs < b := by
  have hheld := h.held
  have hapart := h.apart
  rw [hconr] at hheld hapart
  refine ⟨fun r hr => ?_, hheld.2, fun q hq r hr c hc => hapart q hq r hr c (List.mem_cons_of_mem _ hc)⟩
  cases hbase : k.base with
  | none =>
    rw [hbase] at hsp
    exact lt_of_lt_of_le (h.words r hr).1 hsp
  | some b =>
    rw [hbase] at hsp
    obtain rfl : sp = b := hsp
    rw [LoadThread.refs, hconr] at hr
    rcases List.mem_append.mp hr with hr | hr
    · exact hheld.1 sp hbase r hr
    · obtain ⟨q, hq, hrq⟩ := List.mem_flatMap.mp hr
      exact hapart q hq r hrq k List.mem_cons_self sp hbase

/-- Where the words and the captured continuations are as they were. -/
theorem Kept.of_refs (h : Kept s) (hslot : s'.slot = s.slot) (hcap : s'.captured = s.captured)
    (hrefs : ∀ r ∈ s'.control.refs ++ hereRefs s'.tch ++ contRefs s'.conr, r ∈ s.refs)
    (hsp : ∀ r ∈ s.refs, r.ofs < s'.sp) (hheld : Held (s'.control.refs ++ hereRefs s'.tch) s'.conr)
    (hapart : ∀ k ∈ s.captured, ∀ r ∈ k.refs, ∀ c ∈ s'.conr, ∀ b, c.base = some b → r.ofs < b) :
    Kept s' := by
  have hall : ∀ r ∈ s'.refs, r ∈ s.refs := by
    intro r hr
    rcases List.mem_append.mp hr with hr | hr
    · exact hrefs r hr
    · rw [hcap] at hr
      exact List.mem_append_right _ hr
  refine ⟨fun r hr => ⟨hsp r (hall r hr), hslot ▸ (h.words r (hall r hr)).2⟩, hheld, ?_, ?_⟩
  · rw [hcap]
    exact h.heap
  · rw [hcap]
    exact hapart

variable {fs : FileSystem N P} {lpath : List N} {sread : D → P → Option (D × P)} {nil : D}

theorem mem_refs_tch {r : Ref} (h : r ∈ hereRefs s.tch) : r ∈ s.refs :=
  List.mem_append_left _ (List.mem_append_left _ (List.mem_append_right _ h))

theorem mem_refs_conr {r : Ref} (h : r ∈ contRefs s.conr) : r ∈ s.refs :=
  List.mem_append_left _ (List.mem_append_right _ h)

theorem mem_refs_captured {r : Ref} {k : Captured α} (hk : k ∈ s.captured) (h : r ∈ k.refs) :
    r ∈ s.refs := List.mem_append_right _ (List.mem_flatMap.mpr ⟨k, hk, h⟩)

/-- A wind that is entered, with references that lie below its continuation. -/
theorem Kept.enterWind (h : Kept s) (hcode : s.control = .code) (before after : α) {base sp : Nat}
    (hbase : s.sp ≤ base) (hsp : s.sp ≤ sp) :
    Kept { s.enterWind (.user before) (.user after) base with sp := sp } := by
  have hnew : hereRefs (⟨s.states.length, .user before, .user after⟩ :: s.tch : Here α) =
      hereRefs s.tch := rfl
  rw [LoadThread.enterWind, reroot_frame]
  refine h.of_refs rfl rfl (fun r hr => ?_) (fun r hr => lt_of_lt_of_le (h.words r hr).1 hsp)
    ⟨fun b hb r hr => ?_, ?_⟩ fun k hk r hr c hc b hb => ?_
  · rcases List.mem_append.mp hr with hr | hr
    · rcases List.mem_append.mp hr with hr | hr
      · rw [hcode] at hr
        cases hr
      · exact mem_refs_tch hr
    · rcases List.mem_append.mp hr with hr | hr
      · exact mem_refs_tch hr
      · exact mem_refs_conr hr
  · cases hb
    have hmem : r ∈ s.refs := by
      rcases List.mem_append.mp hr with hr | hr
      · rcases List.mem_append.mp hr with hr | hr
        · rw [hcode] at hr
          cases hr
        · exact mem_refs_tch hr
      · rcases List.mem_append.mp hr with hr | hr
        · exact mem_refs_tch hr
        · exact mem_refs_conr hr
    exact lt_of_lt_of_le (h.words r hmem).1 hbase
  · have hheld := h.held
    rw [hcode] at hheld
    exact hheld
  · rcases List.mem_cons.mp hc with rfl | hc
    · cases hb
      exact lt_of_lt_of_le (h.words r (mem_refs_captured hk hr)).1 hbase
    · exact h.apart k hk r hr c hc b hb

theorem Kept.throw (h : Kept s) {k : Captured α} (hk : k ∈ s.captured) {sp : Nat}
    (hsp : s.sp ≤ sp) : Kept (s.throw k sp) := by
  have hlow : ∀ r ∈ s.refs, r.ofs < sp := fun r hr => lt_of_lt_of_le (h.words r hr).1 hsp
  rw [LoadThread.throw, reroot_frame]
  cases htcr : k.tcr with
  | nil =>
    refine h.of_refs rfl rfl (fun r hr => ?_) hlow ?_ h.apart
    · rcases List.mem_append.mp hr with hr | hr
      · exact mem_refs_captured hk (List.mem_append_right _ hr)
      · exact mem_refs_conr hr
    · exact h.held.weaken fun r hr => .inr (h.apart k hk r (List.mem_append_right _ hr))
  | cons c cs =>
    have hheap : ∀ c' ∈ c :: cs, c'.base = none := htcr ▸ h.heap k hk
    refine h.of_refs rfl rfl (fun r hr => ?_) hlow (Held.of_heap hheap) fun q hq r hr c' hc' b hb => ?_
    · rcases List.mem_append.mp hr with hr | hr
      · exact mem_refs_captured hk (List.mem_append_right _ hr)
      · refine mem_refs_captured hk (List.mem_append_left _ ?_)
        rw [htcr]
        exact hr
    · rw [hheap c' hc'] at hb
      cases hb

theorem refs_enterLoad {opened : P} {ofs base windBase sp : Nat} {slot : Nat → Value} {r : Ref}
    (hr : r ∈ (s.enterLoad opened ofs base windBase sp slot).refs) :
    r = ⟨ofs, s.ports.length⟩ ∨ r ∈ s.refs := by
  rw [LoadThread.enterLoad, LoadThread.enterWind, reroot_frame] at hr
  rcases List.mem_append.mp hr with hr | hr
  · rcases List.mem_append.mp hr with hr | hr
    · rcases List.mem_append.mp hr with hr | hr
      · exact .inl (List.mem_singleton.mp hr)
      · rcases List.mem_append.mp hr with hr | hr
        · exact .inl (List.mem_singleton.mp hr)
        · exact .inr (mem_refs_tch hr)
    · rcases List.mem_append.mp hr with hr | hr
      · exact .inr (mem_refs_tch hr)
      · rcases List.mem_append.mp hr with hr | hr
        · exact .inl (List.mem_singleton.mp hr)
        · exact .inr (mem_refs_conr hr)
  · exact .inr (List.mem_append_right _ hr)

theorem Kept.enterLoad (h : Kept s) (hcode : s.control = .code) {opened : P}
    {ofs base windBase sp : Nat} {slot : Nat → Value} (hofs : s.sp + 6 ≤ ofs) (hbase : ofs < base)
    (hwind : base ≤ windBase) (hsp : windBase ≤ sp) (hshows : Shows slot ⟨ofs, s.ports.length⟩)
    (hslot : ∀ i < s.sp, slot i = s.slot i) :
    Kept (s.enterLoad opened ofs base windBase sp slot) := by
  let r₀ : Ref := ⟨ofs, s.ports.length⟩
  have hall : ∀ r, r ∈ (s.enterLoad opened ofs base windBase sp slot).refs → r = r₀ ∨ r ∈ s.refs :=
    fun r hr => refs_enterLoad hr
  have hold : ∀ r ∈ s.refs, r.ofs < ofs ∧ Shows slot r := by
    intro r hr
    obtain ⟨hlt, hr⟩ := h.words r hr
    have hcount := hslot (r.ofs - 1) (by omega)
    have hfp := hslot (r.ofs - 3) (by omega)
    exact ⟨by omega, hr.fit, hcount.trans hr.count, hfp.trans hr.fp⟩
  have hlow : ∀ r, r = r₀ ∨ r ∈ s.refs → r.ofs < base := by
    rintro r (rfl | hr)
    · exact hbase
    · exact lt_trans (hold r hr).1 hbase
  have hheld := h.held
  rw [hcode] at hheld
  refine ⟨fun r hr => ?_, ?_, ?_, ?_⟩
  · have hsp' : (s.enterLoad opened ofs base windBase sp slot).sp = sp := rfl
    have hslot' : (s.enterLoad opened ofs base windBase sp slot).slot = slot := by
      rw [LoadThread.enterLoad, LoadThread.enterWind, reroot_frame]
    rw [hsp', hslot']
    rcases hall r hr with rfl | hr
    · exact ⟨by change ofs < sp; omega, hshows⟩
    · obtain ⟨hlt, hr⟩ := hold r hr
      exact ⟨by omega, hr⟩
  · have hrefs : ∀ r ∈ (s.enterLoad opened ofs base windBase sp slot).refs, r.ofs < base :=
      fun r hr => hlow r (hall r hr)
    rw [LoadThread.enterLoad, LoadThread.enterWind, reroot_frame] at hrefs ⊢
    refine ⟨fun b hb r hr => ?_, fun b hb r hr => ?_, hheld⟩
    · cases hb
      exact lt_of_lt_of_le (hrefs r (List.mem_append_left _ hr)) hwind
    · cases hb
      refine hrefs r (List.mem_append_left _ ?_)
      rcases List.mem_append.mp hr with hr | hr
      · exact List.mem_append_left _ (List.mem_append_right _ (List.mem_append_right _ hr))
      · exact List.mem_append_right _ (List.mem_append_right _ hr)
  · rw [LoadThread.enterLoad, LoadThread.enterWind, reroot_frame]
    exact h.heap
  · rw [LoadThread.enterLoad, LoadThread.enterWind, reroot_frame]
    intro k hk r hr c hc b hb
    have hmem : r ∈ s.refs := mem_refs_captured hk hr
    rcases List.mem_cons.mp hc with rfl | hc
    · cases hb
      exact lt_of_lt_of_le (hlow r (.inr hmem)) hwind
    · rcases List.mem_cons.mp hc with rfl | hc
      · cases hb
        exact hlow r (.inr hmem)
      · exact h.apart k hk r hr c hc b hb

theorem Kept.pushLoop (h : Kept s) {r : Ref} (hread : s.control = .read r) {sp : Nat}
    (hsp : s.sp ≤ sp) (ports : List (FilePort P)) (evals : List (Nat × D)) :
    Kept { s with
      control := .code, conr := ⟨.loop r, some s.sp⟩ :: s.conr, sp := sp
      ports := ports, evals := evals } := by
  have hr₀ : r ∈ s.control.refs := by
    rw [hread]
    exact List.mem_singleton.mpr rfl
  have hmem : ∀ q, q ∈ hereRefs s.tch ++ contRefs (⟨.loop r, some s.sp⟩ :: s.conr) → q ∈ s.refs := by
    intro q hq
    rcases List.mem_append.mp hq with hq | hq
    · exact mem_refs_tch hq
    · rcases List.mem_cons.mp hq with rfl | hq
      · exact List.mem_append_left _ (List.mem_append_left _ (List.mem_append_left _ hr₀))
      · exact mem_refs_conr hq
  refine h.of_refs rfl rfl hmem (fun q hq => lt_of_lt_of_le (h.words q hq).1 hsp)
    ⟨fun b hb q hq => ?_, ?_⟩ fun k hk q hq c hc b hb => ?_
  · cases hb
    exact (h.words q (hmem q hq)).1
  · have hheld := h.held
    rw [hread] at hheld
    exact hheld
  · rcases List.mem_cons.mp hc with rfl | hc
    · cases hb
      exact (h.words q (mem_refs_captured hk hq)).1
    · exact h.apart k hk q hq c hc b hb

/-- A change of control that refers to no more frames. -/
theorem Kept.setControl (h : Kept s) {c : Control} (hc : c.refs = []) :
    Kept { s with control := c } := by
  refine h.of_refs rfl rfl (fun r hr => ?_) (fun r hr => (h.words r hr).1) ?_ h.apart
  · rw [hc] at hr
    rcases List.mem_append.mp hr with hr | hr
    · exact mem_refs_tch hr
    · exact mem_refs_conr hr
  · refine h.held.weaken fun r hr => .inl ?_
    rw [hc] at hr
    exact List.mem_append_right _ hr

/-- A return that refers to the frames of the continuation and of the winds. -/
theorem Kept.popTo (h : Kept s) (c : Control) (tch : Here α) {k : Cont α} {ks : List (Cont α)}
    {sp : Nat} (hconr : s.conr = k :: ks) (hsp : s.Returns k.base sp)
    (hes : c.refs ++ hereRefs tch = k.next (s.control.refs ++ hereRefs s.tch))
    (hmem : ∀ r ∈ c.refs ++ hereRefs tch, r ∈ s.refs) (ports : List (FilePort P))
    (finished : List Nat) :
    Kept { s with
      control := c, tch := tch, conr := ks, sp := sp, ports := ports, finished := finished } := by
  obtain ⟨hlow, hheld, hapart⟩ := h.pop hconr hsp
  refine h.of_refs rfl rfl (fun r hr => ?_) hlow (hes ▸ hheld) hapart
  rcases List.mem_append.mp hr with hr | hr
  · exact hmem r hr
  · refine mem_refs_conr ?_
    rw [hconr, contRefs_cons]
    exact List.mem_append_right _ hr

theorem Kept.step (h : Kept s) (hstep : Step fs lpath sread nil s s') : Kept s' := by
  have hlow : ∀ {sp}, s.sp ≤ sp → ∀ r ∈ s.refs, r.ofs < sp :=
    fun hsp r hr => lt_of_lt_of_le (h.words r hr).1 hsp
  cases hstep with
  | assign hcode hwords =>
    refine ⟨fun r hr => ?_, h.held, h.heap, h.apart⟩
    obtain ⟨hlt, hshows⟩ := h.words r hr
    obtain ⟨hcount, hfp⟩ := hwords r hr hlt
    exact ⟨hlt, hshows.fit, hcount.trans hshows.count, hfp.trans hshows.fp⟩
  | call hcode hsp =>
    have hmem : ∀ r ∈ s.control.refs ++ hereRefs s.tch ++ contRefs s.conr, r ∈ s.refs :=
      fun r hr => List.mem_append_left _ hr
    refine h.of_refs rfl rfl hmem (hlow hsp) ⟨fun b hb r hr => ?_, h.held⟩ fun k hk r hr c hc b hb => ?_
    · cases hb
      exact (h.words r (hmem r hr)).1
    · rcases List.mem_cons.mp hc with rfl | hc
      · cases hb
        exact (h.words r (mem_refs_captured hk hr)).1
      · exact h.apart k hk r hr c hc b hb
  | areturn hcode => exact h.setControl rfl
  | err hcode => exact h.setControl rfl
  | wind hcode hbase hsp => exact h.enterWind hcode _ _ hbase hsp
  | capture hcode =>
    have hheap : ∀ c ∈ s.conr.map Cont.toHeap, c.base = none := by
      intro c hc
      obtain ⟨c', -, rfl⟩ := List.mem_map.mp hc
      rfl
    refine ⟨fun r hr => h.words r ?_, Held.of_heap hheap, fun k hk => ?_, fun k hk r hr c hc b hb => ?_⟩
    · simp only [LoadThread.refs, contRefs_toHeap, List.flatMap_append, List.flatMap_cons,
        List.flatMap_nil, Captured.refs, List.append_nil, List.mem_append] at hr ⊢
      tauto
    · rcases List.mem_append.mp hk with hk | hk
      · exact h.heap k hk
      · rw [List.mem_singleton.mp hk]
        exact hheap
    · rw [hheap c hc] at hb
      cases hb
  | throw hcontrol hk hsp => exact h.throw hk hsp
  | broken hraise =>
    rw [reroot_frame]
    exact h.of_refs rfl rfl (fun r hr => by cases hr) (fun r hr => (h.words r hr).1) trivial
      fun k hk r hr c hc => by cases hc
  | load hcode hfile hopened hofs hbase hwind hsp hshows hslot =>
    exact h.enterLoad hcode hofs hbase hwind hsp hshows hslot
  | loadFails hcode => exact h.setControl rfl
  | form hread hfp hp hopen hd hne hsp => exact h.pushLoop hread hsp _ _
  | finish hread hfp hp hopen hd hconr hsp =>
    rw [reroot_frame]
    refine h.popTo .returning _ hconr hsp rfl (fun r hr => mem_refs_conr ?_) _ _
    rw [hconr, contRefs_cons]
    exact List.mem_append_left _ hr
  | readFails hread hno => exact h.setControl rfl
  | toCode hret hconr hsp =>
    refine h.popTo .code s.tch hconr hsp ?_ (fun r hr => mem_refs_tch hr) _ _
    rw [hret]
    rfl
  | toLoop hret hconr hsp =>
    refine h.popTo (.read _) s.tch hconr hsp ?_ (fun r hr => ?_) _ _
    · rw [hret]
      rfl
    · rcases List.mem_cons.mp hr with rfl | hr
      · refine mem_refs_conr ?_
        rw [hconr]
        exact List.mem_cons_self
      · exact mem_refs_tch hr
  | toLoad hret hconr hsp =>
    exact h.popTo s.control s.tch hconr hsp rfl (fun r hr => List.mem_append_left _ (List.mem_append_left _ hr)) _ _
  | toWind hret hconr hsp =>
    rw [reroot_frame]
    refine h.popTo s.control _ hconr hsp ?_ (fun r hr => ?_) _ _
    · rw [hret]
      rfl
    · rw [hret] at hr
      refine mem_refs_conr ?_
      rw [hconr, contRefs_cons]
      exact List.mem_append_left _ hr
  | release hret hconr => exact h.setControl rfl
  | overflow => exact h.setControl rfl

end Kept

end Arcueid.Load
