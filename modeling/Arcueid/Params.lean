import Mathlib.Logic.Relation
import Arcueid.Codegen

/-! Parameter lists, what a call binds their names to, and the code that fills
the frame of a call (`ienv`, `ienvr` and the instructions of `vmengine.c` that
set defaults and take patterns apart). The rest of the instruction set is a
parameter. -/

namespace Arcueid

/-- `(o name default)`. -/
def optArg (s : Sym) (d : Value) : Value :=
  .cons (.symbol .sO) (.cons (.symbol s) (.cons d .nil))

/-- The patterns; only the car of a pattern can be an optional argument. -/
inductive IsPat : Bool → Value → Prop
  | name {b : Bool} (s : Sym) : IsPat b (.symbol s)
  | opt (s : Sym) (d : Value) : IsPat true (optArg s d)
  | both {b : Bool} {a d : Value} (ha : IsPat true a) (hd : IsPat false d)
      (ho : b = true → a ≠ .symbol .sO) : IsPat b (.cons a d)
  | left {b : Bool} {a : Value} (ha : IsPat true a) (ho : b = true → a ≠ .symbol .sO) :
      IsPat b (.cons a .nil)
  | right {b : Bool} {d : Value} (hd : IsPat false d) : IsPat b (.cons .nil d)

/-- A placeholder, a name or a pattern. -/
inductive IsRequired : Value → Prop
  | blank : IsRequired .nil
  | name (s : Sym) : IsRequired (.symbol s)
  | pat {a d : Value} (hp : IsPat false (.cons a d)) (ho : a ≠ .symbol .sO) :
      IsRequired (.cons a d)

/-- The name of an optional argument, after its `o`. -/
def optName : Value → List Sym
  | .cons (.symbol s) _ => [s]
  | _ => []

def patNames : Bool → Value → List Sym
  | _, .symbol s => [s]
  | b, .cons a d =>
    if b = true ∧ a = .symbol .sO then optName d else patNames true a ++ patNames false d
  | _, _ => []

theorem IsPat.names_ne_nil {b : Bool} {p : Value} (h : IsPat b p) : patNames b p ≠ [] := by
  induction h with
  | name s => simp [patNames]
  | opt s d => simp [patNames, optArg, optName]
  | both ha hd ho iha ihd =>
    rw [patNames, if_neg fun h => ho h.1 h.2]
    simp [iha]
  | left ha ho iha =>
    rw [patNames, if_neg fun h => ho h.1 h.2]
    simp [iha]
  | right hd ihd => simp [patNames, ihd]

def listOnto (vs : List Value) (tail : Value) : Value := vs.foldr .cons tail

@[simp] theorem listOnto_nil (tail : Value) : listOnto [] tail = tail := rfl

@[simp] theorem listOnto_cons (v : Value) (vs : List Value) (tail : Value) :
    listOnto (v :: vs) tail = .cons v (listOnto vs tail) := rfl

/-- A parameter list with distinct names. -/
structure Params where
  required : List Value
  optional : List (Sym × Value)
  rest : Option Sym
  required_ok : ∀ p ∈ required, IsRequired p
  distinct : (required.flatMap (patNames false) ++ optional.map Prod.fst ++ rest.toList).Nodup

namespace Params

variable (ps : Params)

def names : List Sym :=
  ps.required.flatMap (patNames false) ++ ps.optional.map Prod.fst ++ ps.rest.toList

def toValue : Value :=
  listOnto ps.required
    (listOnto (ps.optional.map fun p => optArg p.1 p.2) (ps.rest.elim .nil .symbol))

theorem toValue_cases : (∃ a d, ps.toValue = .cons a d) ∨
    ps.required = [] ∧ ps.optional = [] ∧ ps.toValue = ps.rest.elim .nil .symbol := by
  cases hr : ps.required with
  | cons p required => exact .inl ⟨p, _, by rw [toValue, hr, listOnto_cons]⟩
  | nil =>
    cases ho : ps.optional with
    | cons p optional =>
      exact .inl ⟨optArg p.1 p.2, _, by rw [toValue, hr, ho, List.map_cons]; rfl⟩
    | nil => exact .inr ⟨rfl, rfl, by rw [toValue, hr, ho]; rfl⟩

/-- The numbers of arguments that a call can have. -/
def Takes (n : Nat) : Prop :=
  ps.required.length ≤ n ∧ (ps.rest = none → n ≤ ps.required.length + ps.optional.length)

end Params

/-- The names bound so far, the oldest first. -/
abbrev Bindings := List (Sym × Value)

/-- The value of a default, what the names in scope hold afterwards, and what
became of all else; nothing if an error is raised or there is no end. -/
abbrev Eval (W : Type) := Value → Bindings → W → Option (Value × (Sym → Value) × W)

def rebind (f : Sym → Value) (ρ : Bindings) : Bindings := ρ.map fun p => (p.1, f p.1)

/-- The car and the cdr of a component, which can be missing. -/
def components : Option Value → Option (Option Value × Option Value)
  | none | some .nil => some (none, none)
  | some (.cons a d) => some (some a, some d)
  | some _ => none

section Bind

variable {W : Type} (eval : Eval W)

def bindOptional (s : Sym) (d : Value) (v : Option Value) (ρ : Bindings) (w : W) :
    Option (Bindings × W) :=
  match v with
  | some v => some (ρ ++ [(s, v)], w)
  | none => do
    let (v, f, w) ← eval d ρ w
    some (rebind f ρ ++ [(s, v)], w)

/-- An optional argument of a pattern, after its `o`. -/
def bindOptArg (d : Value) (v : Option Value) (ρ : Bindings) (w : W) : Option (Bindings × W) :=
  match d with
  | .cons (.symbol s) (.cons d _) => bindOptional eval s d v ρ w
  | _ => none

/-- Bind the names of a pattern, or none if the pattern is nil. -/
def bindPat : Bool → Value → Option Value → Bindings → W → Option (Bindings × W)
  | _, .symbol s, v, ρ, w => some (ρ ++ [(s, v.getD .nil)], w)
  | b, .cons a d, v, ρ, w =>
    if b = true ∧ a = .symbol .sO then bindOptArg eval d v ρ w
    else do
      let (x, y) ← components v
      let (ρ, w) ← bindPat true a x ρ w
      bindPat false d y ρ w
  | _, _, _, ρ, w => some (ρ, w)

def bindRequired : List Value → List Value → Bindings → W → Option (Bindings × List Value × W)
  | [], args, ρ, w => some (ρ, args, w)
  | _ :: _, [], _, _ => none
  | p :: ps, arg :: args, ρ, w => do
    let (ρ, w) ← bindPat eval false p (some arg) ρ w
    bindRequired ps args ρ w

def bindOptionals : List (Sym × Value) → List Value → Bindings → W →
    Option (Bindings × List Value × W)
  | [], args, ρ, w => some (ρ, args, w)
  | (s, d) :: os, args, ρ, w => do
    let (ρ, w) ← bindOptional eval s d args.head? ρ w
    bindOptionals os args.tail ρ w

def bindRest : Option Sym → List Value → Bindings → Option Bindings
  | some s, args, ρ => some (ρ ++ [(s, listOnto args .nil)])
  | none, [], ρ => some ρ
  | none, _ :: _, _ => none

theorem lookup_of_slot {ρ : Bindings} {s : Sym} {k : Nat} (hnd : (ρ.map Prod.fst).Nodup)
    (hk : (ρ.map Prod.fst)[k]? = some s) :
    ∃ v, ρ.lookup s = some v ∧ (ρ.map Prod.snd)[k]? = some v := by
  induction ρ generalizing k with
  | nil => simp at hk
  | cons p ρ ih =>
    obtain ⟨s', v⟩ := p
    rw [List.map_cons, List.nodup_cons] at hnd
    cases k with
    | zero =>
      have hs : s' = s := by simpa using hk
      exact ⟨v, by simp [hs], by simp⟩
    | succ k =>
      have hk : (ρ.map Prod.fst)[k]? = some s := by simpa using hk
      obtain ⟨v', hlookup, hslot⟩ := ih hnd.2 hk
      have hne : s ≠ s' := fun h => hnd.1 (h ▸ List.mem_of_getElem? hk)
      refine ⟨v', ?_, by simpa using hslot⟩
      simpa [List.lookup_cons, beq_false_of_ne hne] using hlookup

/-- What the names are bound to, from the left to the right. -/
def Params.bind (ps : Params) (args : List Value) (w : W) : Option (Bindings × W) := do
  let (ρ, args, w) ← bindRequired eval ps.required args [] w
  let (ρ, args, w) ← bindOptionals eval ps.optional args ρ w
  let ρ ← bindRest ps.rest args ρ
  some (ρ, w)

variable {eval} in
theorem bindRequired_names {names : List Sym} {args : List Value} (ρ : Bindings) (w : W)
    (h : names.length ≤ args.length) :
    bindRequired eval (names.map .symbol) args ρ w =
      some (ρ ++ names.zip (args.take names.length), args.drop names.length, w) := by
  induction names generalizing args ρ with
  | nil => simp [bindRequired]
  | cons s names ih =>
    cases args with
    | nil => simp at h
    | cons a args =>
      have hrest := ih (ρ ++ [(s, a)]) (by simpa using h)
      rw [List.map_cons, bindRequired, bindPat]
      change bindRequired eval (names.map .symbol) args (ρ ++ [(s, a)]) w = _
      rw [hrest]
      simp

theorem bindRest_ok (rest : Option Sym) (as : List Value) (ρ : Bindings)
    (has : rest = none → as = []) :
    ∃ ρ', bindRest rest as ρ = some ρ' ∧ ρ'.map Prod.fst = ρ.map Prod.fst ++ rest.toList ∧
      ρ'.map Prod.snd =
        ρ.map Prod.snd ++ if rest.isSome then [listOnto as .nil] else [] := by
  cases rest with
  | none =>
    rw [has rfl]
    exact ⟨ρ, rfl, by simp, by simp⟩
  | some s => exact ⟨_, rfl, by simp, by simp⟩

end Bind

/-- Code as the virtual machine reads it: what is at an address, read as an
instruction and as an operand. -/
structure Fetch where
  inst : Nat → Option Inst
  operand : Nat → Option Int

/-- The operands of an environment instruction; whether it is `ienvr`. -/
structure EnvCounts where
  minenv : Nat
  dsenv : Nat
  optenv : Nat
  restenv : Bool

/-- The frame for a list of arguments, unless there are too few or too many. -/
def EnvCounts.enter (n : EnvCounts) (args : List Value) : Option (List Value) :=
  let argc := args.length
  if argc < n.minenv then none
  else if n.restenv then
    let i := min argc (n.minenv + n.optenv)
    let frame := args.take i ++ List.replicate (n.minenv + n.optenv - i + n.dsenv + 1) .unbound
    some (frame.set (n.minenv + n.optenv + n.dsenv) (listOnto (args.drop i) .nil))
  else if argc > n.minenv + n.optenv then none
  else some (args ++ List.replicate (n.minenv + n.optenv - argc + n.dsenv) .unbound)

/-- What an optional argument's slot and those of arguments after it hold, for
`m` of them, when the arguments `as` are left. -/
def slotsOf (m : Nat) (as : List Value) : List Value :=
  as.take m ++ List.replicate (m - as.length) .unbound

@[simp] theorem slotsOf_length (m : Nat) (as : List Value) : (slotsOf m as).length = m := by
  simp [slotsOf]
  omega

theorem slotsOf_succ (m : Nat) (as : List Value) :
    slotsOf (m + 1) as = as.headD .unbound :: slotsOf m as.tail := by
  cases as with
  | nil => simp [slotsOf, List.replicate_succ]
  | cons a as => simp [slotsOf]

/-- The frame of a call that is let in: the arguments, slots for the names of
patterns, and the surplus. -/
theorem EnvCounts.enter_eq {n : EnvCounts} {args frame : List Value}
    (h : n.enter args = some frame) :
    n.minenv ≤ args.length ∧ (n.restenv = false → args.length ≤ n.minenv + n.optenv) ∧
      frame = args.take n.minenv ++ (slotsOf n.optenv (args.drop n.minenv) ++
        (List.replicate n.dsenv .unbound ++
          if n.restenv then [listOnto (args.drop (n.minenv + n.optenv)) .nil] else [])) := by
  obtain ⟨r, ds, o, rest⟩ := n
  change (if args.length < r then none else _) = _ at h
  by_cases hr : args.length < r
  · rw [if_pos hr] at h
    cases h
  rw [if_neg hr] at h
  have hr : r ≤ args.length := Nat.le_of_not_lt hr
  have hparts : ∀ k, args.take (r + o) ++ List.replicate (r + o - args.length + k) .unbound =
      args.take r ++ (slotsOf o (args.drop r) ++ List.replicate k .unbound) := by
    intro k
    rw [slotsOf, List.take_add, List.replicate_add, List.length_drop]
    rw [show o - (args.length - r) = r + o - args.length by omega]
    simp
  cases rest with
  | false =>
    change (if args.length > r + o then none else _) = _ at h
    by_cases ho : args.length > r + o
    · rw [if_pos ho] at h
      cases h
    rw [if_neg ho, Option.some.injEq] at h
    have hall : args.take (r + o) = args := List.take_of_length_le (Nat.le_of_not_lt ho)
    have hds := hparts ds
    rw [hall] at hds
    refine ⟨hr, fun _ => Nat.le_of_not_lt ho, ?_⟩
    simpa using h.symm.trans hds
  | true =>
    refine ⟨hr, nofun, ?_⟩
    change some (List.set _ _ _) = _ at h
    have htake : args.take (min args.length (r + o)) = args.take (r + o) := by
      rcases Nat.le_total args.length (r + o) with hle | hle
      · rw [Nat.min_eq_left hle, List.take_length, List.take_of_length_le hle]
      · rw [Nat.min_eq_right hle]
    have hdrop : args.drop (min args.length (r + o)) = args.drop (r + o) := by
      rcases Nat.le_total args.length (r + o) with hle | hle
      · rw [Nat.min_eq_left hle, List.drop_length, List.drop_eq_nil_of_le hle]
      · rw [Nat.min_eq_right hle]
    rw [Option.some.injEq, htake, hdrop,
      show r + o - min args.length (r + o) = r + o - args.length by omega,
      List.replicate_succ', ← List.append_assoc, hparts ds,
      List.set_append_right _ _ (by simp; omega)] at h
    rw [← h]
    have hlen : r + o + ds - (args.take r ++ (slotsOf o (args.drop r) ++
        List.replicate ds Value.unbound)).length = 0 := by
      simp
      omega
    rw [hlen]
    simp

/-- The environment instruction at the start of the code. -/
def Fetch.envCounts (f : Fetch) : Option EnvCounts := do
  let inst ← f.inst 0
  let minenv ← f.operand 1
  let dsenv ← f.operand 2
  let optenv ← f.operand 3
  if inst = .ienv then some ⟨minenv.toNat, dsenv.toNat, optenv.toNat, false⟩
  else if inst = .ienvr then some ⟨minenv.toNat, dsenv.toNat, optenv.toNat, true⟩
  else none

/-- A call whose frame is being filled: its registers, its frame, what it has
pushed, and all else. -/
structure Entry (W : Type) where
  pc : Nat
  valr : Value
  frame : List Value
  stack : List Value
  world : W

section Machine

variable {W : Type} (f : Fetch) (other : Inst → Entry W → Option (Entry W))

/-- An address inside the frame; `__arc_putenv` outside it writes over
something else. -/
def frameSlot (frame : List Value) (i : Int) : Option Nat :=
  if 0 ≤ i ∧ i.toNat < frame.length then some i.toNat else none

/-- `idcar` and `idcdr`. -/
def unbindPart (part : Value → Value → Value) : Value → Option Value
  | .nil | .unbound => some .unbound
  | .cons a d => some (part a d)
  | _ => none

/-- One instruction of a call that fills its frame. -/
def entryStep (s : Entry W) : Option (Entry W) :=
  match f.inst s.pc with
  | none => none
  | some .ilde0 => do
    let i ← frameSlot s.frame (← f.operand (s.pc + 1))
    let v ← s.frame[i]?
    some { s with pc := s.pc + 2, valr := v }
  | some .iste0 => do
    let i ← frameSlot s.frame (← f.operand (s.pc + 1))
    some { s with pc := s.pc + 2, frame := s.frame.set i s.valr }
  | some .ijbnd => do
    let n ← f.operand (s.pc + 1)
    some { s with pc := if s.valr = .unbound then s.pc + 2 else (s.pc + n).toNat }
  | some .inil => some { s with pc := s.pc + 1, valr := .nil }
  | some .ipush => some { s with pc := s.pc + 1, stack := s.valr :: s.stack }
  | some .ipop =>
    match s.stack with
    | v :: stack => some { s with pc := s.pc + 1, valr := v, stack := stack }
    | [] => none
  | some .idcar => do
    let v ← unbindPart (fun a _ => a) s.valr
    some { s with pc := s.pc + 1, valr := v }
  | some .idcdr => do
    let v ← unbindPart (fun _ d => d) s.valr
    some { s with pc := s.pc + 1, valr := v }
  | some i => other i s

def EntrySteps : Entry W → Entry W → Prop :=
  Relation.ReflTransGen fun s t => entryStep f other s = some t

/-- Whatever the call does, it never gets to the address `n`. -/
def NeverAt (n : Nat) (s : Entry W) : Prop := ∀ t, EntrySteps f other s t → t.pc ≠ n

/-- The names' slots are inside the frame and hold, when the instruction at `n`
is reached, what the names are bound to: for every call that is let in. -/
def LayoutHolds (eval : Eval W) (ps : Params) (slot : Sym → Option Nat) (n : Nat) : Prop :=
  ∀ args : List Value, .unbound ∉ args →
    ∀ counts ∈ f.envCounts, ∀ frame ∈ counts.enter args, ∀ valr w, ∀ name ∈ ps.names,
      ∃ k, slot name = some k ∧ k < frame.length ∧ ps.Takes args.length ∧
        ∀ s, EntrySteps f other ⟨4, valr, frame, [], w⟩ s → s.pc = n →
          ∃ ρ w' v, ps.bind eval args w = some (ρ, w') ∧ ρ.lookup name = some v ∧
            s.frame[k]? = some v

variable {f other} {n : Nat} {s t : Entry W}

theorem entrySteps_total {u : Entry W} (ht : EntrySteps f other s t) (hu : EntrySteps f other s u) :
    EntrySteps f other t u ∨ EntrySteps f other u t := by
  refine Relation.ReflTransGen.total_of_right_unique ?_ ht hu
  intro a b c hb hc
  exact Option.some.inj (hb.symm.trans hc)

theorem EntrySteps.eq_of_stuck (hs : entryStep f other s = none) (ht : EntrySteps f other s t) :
    s = t := by
  rcases Relation.ReflTransGen.cases_head ht with h | ⟨u, hu, -⟩
  · exact h
  · rw [hs] at hu
    cases hu

theorem entryStep_at_end (hn : f.inst n = none) (ht : t.pc = n) : entryStep f other t = none := by
  rw [entryStep, ht, hn]

theorem NeverAt.of_steps (hn : f.inst n = none) (hst : EntrySteps f other s t)
    (ht : NeverAt f other n t) : NeverAt f other n s := by
  intro u hu hpc
  rcases entrySteps_total hst hu with h | h
  · exact ht u h hpc
  · have heq := h.eq_of_stuck (entryStep_at_end hn hpc)
    exact ht t .refl (heq ▸ hpc)

theorem EntrySteps.unique {u : Entry W} (hn : f.inst n = none) (ht : EntrySteps f other s t)
    (htn : t.pc = n) (hu : EntrySteps f other s u) (hun : u.pc = n) : u = t := by
  rcases entrySteps_total ht hu with h | h
  · exact (h.eq_of_stuck (entryStep_at_end hn htn)).symm
  · exact h.eq_of_stuck (entryStep_at_end hn hun)

end Machine

end Arcueid
