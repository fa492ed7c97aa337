import Mathlib.Data.List.Induction
import Arcueid.Lib.Outcome
import Arcueid.AccArgs

/-! The slots that `acc-args` records agree with the frames of the calls when
the required parameters are names, and otherwise only if there is no name. -/

namespace Arcueid.Acc

open Outcome

def Ctx.fetch (c : Ctx) : Fetch where
  inst a := match c.code[a]? with
    | some (.op inst) => some inst
    | _ => none
  operand a := match c.code[a]? with
    | some (.arg n) => some n
    | _ => none

def Ctx.append (c : Ctx) (ws : List Word) : Ctx := { c with code := c.code ++ ws }

theorem Ctx.append_append (c : Ctx) (ws ws' : List Word) :
    (c.append ws).append ws' = c.append (ws ++ ws') := by
  simp [Ctx.append]

theorem fetch_end (o : Ctx) : o.fetch.inst o.code.length = none := by
  simp [Ctx.fetch]

/-- The slot of a name, if it is a number. -/
def slotIn (nenv : Arg) (s : Sym) : Option Nat :=
  match slotOf (.symbol s) nenv with
  | some (.num k) => some k
  | _ => none

def recordFrom (nenv : Arg) (idx : Nat) : List Sym → Arg
  | [] => nenv
  | s :: names => recordFrom (.bind (.symbol s) (.num idx) nenv) (idx + 1) names

/-- Names that have the slots from 0 on. -/
def recorded (names : List Sym) : Arg := recordFrom .nil 0 names

theorem recordFrom_append (nenv : Arg) (idx : Nat) (l l' : List Sym) :
    recordFrom nenv idx (l ++ l') = recordFrom (recordFrom nenv idx l) (idx + l.length) l' := by
  induction l generalizing nenv idx with
  | nil => rfl
  | cons s l ih =>
    rw [List.cons_append, recordFrom, ih, recordFrom, List.length_cons, Nat.add_assoc,
      Nat.add_comm 1]

theorem recorded_append_singleton (l : List Sym) (s : Sym) :
    recorded (l ++ [s]) = .bind (.symbol s) (.num l.length) (recorded l) := by
  rw [recorded, recordFrom_append, Nat.zero_add]
  rfl

theorem slotIn_recorded {l : List Sym} {s : Sym} {k : Nat} (hl : l.Nodup) (hk : l[k]? = some s) :
    slotIn (recorded l) s = some k := by
  induction l using List.reverseRecOn with
  | nil => simp at hk
  | append_singleton l s' ih =>
    rw [recorded_append_singleton, slotIn, slotOf]
    rw [List.nodup_append] at hl
    by_cases hlt : k < l.length
    · rw [List.getElem?_append_left hlt] at hk
      have hne : s' ≠ s := by
        intro heq
        exact hl.2.2 s (List.mem_of_getElem? hk) s' (by simp) heq.symm
      rw [if_neg (by simpa using hne)]
      exact ih hl.1 hk
    · rw [List.getElem?_append_right (Nat.le_of_not_lt hlt)] at hk
      obtain ⟨hlen, rfl⟩ := List.getElem?_eq_some_iff.mp hk
      have hk : k = l.length := by
        rw [List.length_singleton] at hlen
        omega
      simp [hk]

/-- The code at an address. -/
def Segment (o : Ctx) (base : Nat) (seg : List Word) : Prop :=
  ∃ before after, o.code = before ++ seg ++ after ∧ before.length = base

theorem Segment.getElem? {o : Ctx} {base i : Nat} {seg : List Word} (h : Segment o base seg)
    (hi : i < seg.length) : o.code[base + i]? = seg[i]? := by
  obtain ⟨before, after, hcode, rfl⟩ := h
  rw [hcode, List.append_assoc, List.getElem?_append_right (by omega), Nat.add_sub_cancel_left,
    List.getElem?_append_left hi]

theorem Segment.left {o : Ctx} {base : Nat} {seg seg' : List Word}
    (h : Segment o base (seg ++ seg')) : Segment o base seg := by
  obtain ⟨before, after, hcode, hlen⟩ := h
  exact ⟨before, seg' ++ after, by simp [hcode], hlen⟩

theorem Segment.right {o : Ctx} {base : Nat} {seg seg' : List Word}
    (h : Segment o base (seg ++ seg')) : Segment o (base + seg.length) seg' := by
  obtain ⟨before, after, hcode, hlen⟩ := h
  exact ⟨before ++ seg, after, by simp [hcode], by simp [hlen]⟩

theorem Segment.le {o : Ctx} {base : Nat} {seg : List Word} (h : Segment o base seg) :
    base + seg.length ≤ o.code.length := by
  obtain ⟨before, after, hcode, rfl⟩ := h
  simp [hcode]

section Run

variable {W : Type} (acc : AccFn) (other : Ctx → Inst → Entry W → Option (Entry W))
  (eval : Eval W)

/-- Code at `base` evaluates the default `d` among these names. -/
def RunsDefault (o : Ctx) (base : Nat) (seg : List Word) (names : List Sym) (d : Value) : Prop :=
  ∀ (s : Entry W) (ρ : Bindings), s.pc = base → ρ.map Prod.fst = names →
    s.frame.take ρ.length = ρ.map Prod.snd →
    match eval d ρ s.world with
    | some (v, f, w) =>
      EntrySteps o.fetch (other o) s
        { s with
          pc := s.pc + seg.length
          valr := v
          frame := (rebind f ρ).map Prod.snd ++ s.frame.drop ρ.length
          world := w }
    | none => ∀ t, EntrySteps o.fetch (other o) s t → t.pc < s.pc + seg.length

/-- `acc` appends code that evaluates the default among these names, wherever
the code and its literals end up. -/
def CompilesDefault (names : List Sym) (d : Value) : Prop :=
  ∀ c : Ctx, ∃ seg c', acc d (recorded names) .outer c = .ok ((), c') ∧
    c'.code = c.code ++ seg ∧ c.literals <+: c'.literals ∧
    ∀ o : Ctx, Segment o c.code.length seg → c'.literals <+: o.literals →
      RunsDefault other eval o c.code.length seg names d

end Run

section Step

variable {W : Type} {other : Inst → Entry W → Option (Entry W)} {o : Ctx} {s : Entry W} {i : Nat}

theorem step_ilde0 {v : Value} (hop : o.code[s.pc]? = some (.op .ilde0))
    (harg : o.code[s.pc + 1]? = some (.arg i)) (hv : s.frame[i]? = some v) :
    entryStep o.fetch other s = some { s with pc := s.pc + 2, valr := v } := by
  obtain ⟨hlt, rfl⟩ := List.getElem?_eq_some_iff.mp hv
  simp [entryStep, Ctx.fetch, hop, harg, frameSlot, hlt]

theorem step_iste0 (hop : o.code[s.pc]? = some (.op .iste0))
    (harg : o.code[s.pc + 1]? = some (.arg i)) (hi : i < s.frame.length) :
    entryStep o.fetch other s = some { s with pc := s.pc + 2, frame := s.frame.set i s.valr } := by
  simp [entryStep, Ctx.fetch, hop, harg, frameSlot, hi]

theorem step_ijbnd (hop : o.code[s.pc]? = some (.op .ijbnd))
    (harg : o.code[s.pc + 1]? = some (.arg i)) :
    entryStep o.fetch other s =
      some { s with pc := if s.valr = .unbound then s.pc + 2 else s.pc + i } := by
  simp only [entryStep, Ctx.fetch, hop, harg]
  rfl

end Step

section Emit

variable (acc : AccFn)

theorem accGen_ok (inst : Inst) (args : List Int) (c : Ctx) :
    accGen .context inst args c = .ok ((), c.append (.op inst :: args.map .arg)) := rfl

theorem accGen_one (inst : Inst) (n : Int) (c : Ctx) :
    accGen .context inst [n] c = .ok ((), c.append [.op inst, .arg n]) := rfl

theorem dcar_ok (a d : Value) (c : Ctx) : dcar (.cons a d) c = .ok (a, c) := rfl

theorem dcdr_ok (a d : Value) (c : Ctx) : dcdr (.cons a d) c = .ok (d, c) := rfl

theorem accCodeptr_ok (c : Ctx) : accCodeptr .context c = .ok (c.code.length, c) := rfl

theorem accPatch_ok (offset : Nat) (w : Word) (c : Ctx) :
    accPatch .context offset w c = .ok ((), { c with code := c.code.set offset w }) := rfl

/-- The code of an optional argument. -/
def optionalCode (idx : Nat) (seg : List Word) : List Word :=
  [.op .ilde0, .arg idx, .op .ijbnd, .arg (seg.length + 4 : Nat)] ++ seg ++ [.op .iste0, .arg idx]

theorem accOptional_ok {s : Sym} {d : Value} {nenv : Arg} {idx : Nat} {c c' : Ctx}
    {seg : List Word}
    (hacc : acc d nenv .outer (c.append [.op .ilde0, .arg idx, .op .ijbnd, .arg 0]) = .ok ((), c'))
    (hcode : c'.code = c.code ++ [.op .ilde0, .arg idx, .op .ijbnd, .arg 0] ++ seg) :
    accOptional acc (.cons (.symbol s) (.cons d .nil)) .outer .context nenv idx c =
      .ok (.symbol s, ⟨c.code ++ optionalCode idx seg, c'.literals⟩) := by
  have hsplit : c.append [.op .ilde0, .arg idx, .op .ijbnd, .arg 0] =
      (c.append [.op .ilde0, .arg idx]).append [.op .ijbnd, .arg 0] := by
    rw [Ctx.append_append]
    rfl
  rw [hsplit] at hacc
  rw [accOptional]
  rw [bind_of_ok (dcar_ok _ _ _), bind_of_ok (dcdr_ok _ _ _), bind_of_ok (dcar_ok _ _ _),
    bind_of_ok (accGen_one _ _ _), bind_of_ok (accCodeptr_ok _), bind_of_ok (accGen_one _ _ _),
    bind_of_ok hacc, bind_of_ok (accGen_one _ _ _), bind_of_ok (accCodeptr_ok _),
    bind_of_ok (accPatch_ok _ _ _)]
  change Except.ok (Value.symbol s, Ctx.mk _ _) = _
  have hpatch : ∀ n : Int, (c'.code ++ [Word.op .iste0, .arg idx]).set
      ((c.code ++ [Word.op .ilde0, .arg idx]).length + 1) (.arg n) =
      c.code ++ ([.op .ilde0, .arg idx, .op .ijbnd, .arg n] ++ seg ++ [.op .iste0, .arg idx]) := by
    intro n
    have hle : c.code.length ≤ (c.code ++ [Word.op .ilde0, .arg idx]).length + 1 := by
      rw [List.length_append]
      omega
    rw [hcode, List.append_assoc, List.append_assoc, List.set_append_right _ _ hle]
    simp [Nat.add_assoc]
  have hlen : (((c'.append [.op .iste0, .arg idx]).code.length : Nat) : Int) -
      ((c.append [.op .ilde0, .arg idx]).code.length : Nat) = (seg.length + 4 : Nat) := by
    simp [Ctx.append, hcode]
    omega
  rw [hlen]
  exact congrArg (fun code => Except.ok (Value.symbol s, Ctx.mk code c'.literals)) (hpatch _)

theorem process_name (s : Sym) (rest : Value) (env ctx dsb nenv : Arg)
    (idx regargc dsbargc : Nat) :
    accProcessargs acc (.cons (.symbol s) rest) env ctx dsb nenv idx regargc dsbargc 0 =
      accProcessargs acc rest env ctx dsb (.bind (.symbol s) (.num idx) nenv) (idx + 1)
        (regargc + 1) dsbargc 0 := by
  simp [accProcessargs, isSym]

theorem process_names (names : List Sym) (tail : Value) (env ctx dsb nenv : Arg)
    (idx regargc dsbargc : Nat) :
    accProcessargs acc (listOnto (names.map .symbol) tail) env ctx dsb nenv idx regargc dsbargc 0 =
      accProcessargs acc tail env ctx dsb (recordFrom nenv idx names) (idx + names.length)
        (regargc + names.length) dsbargc 0 := by
  induction names generalizing nenv idx regargc with
  | nil => rfl
  | cons s names ih =>
    rw [List.map_cons, listOnto_cons, process_name, ih, recordFrom, List.length_cons,
      Nat.add_assoc, Nat.add_assoc, Nat.add_comm 1]

theorem process_optional (s : Sym) (d rest : Value) (dsb nenv : Arg)
    (idx regargc dsbargc optargc : Nat) :
    accProcessargs acc (.cons (optArg s d) rest) .outer .context dsb nenv idx regargc dsbargc
        optargc =
      (do
        let name ← accOptional acc (.cons (.symbol s) (.cons d .nil)) .outer .context nenv idx
        accProcessargs acc rest .outer .context dsb (.bind name (.num idx) nenv) (idx + 1) regargc
          dsbargc (optargc + 1)) := by
  simp [accProcessargs, isSym, optArg]

end Emit

section Optional

variable {W : Type} {other : Ctx → Inst → Entry W → Option (Entry W)}
  {eval : Eval W} {names : List Sym} {d : Value}

/-- The slot of an optional argument is set to what its name is bound to. -/
theorem optional_run {o : Ctx} {base : Nat} {seg : List Word} {s : Entry W} {ρ : Bindings}
    {as : List Value} (sym : Sym) (tail : List Value)
    (hrun : RunsDefault other eval o (base + 4) seg names d)
    (ho : Segment o base (optionalCode names.length seg)) (hpc : s.pc = base)
    (hρ : ρ.map Prod.fst = names) (has : .unbound ∉ as)
    (hframe : s.frame = ρ.map Prod.snd ++ as.headD .unbound :: tail) :
    match bindOptional eval sym d as.head? ρ s.world with
    | some (ρ', w) => ∃ v, EntrySteps o.fetch (other o) s
        { s with
          pc := s.pc + (optionalCode names.length seg).length
          valr := v
          frame := ρ'.map Prod.snd ++ tail
          world := w }
    | none => NeverAt o.fetch (other o) o.code.length s := by
  have hlen : ρ.length = names.length := by rw [← hρ, List.length_map]
  have hword : ∀ i (hi : i < (optionalCode names.length seg).length),
      o.code[s.pc + i]? = some (optionalCode names.length seg)[i] := by
    intro i hi
    rw [hpc, ho.getElem? hi, List.getElem?_eq_getElem hi]
  have hlong : (optionalCode names.length seg).length = seg.length + 6 := by
    simp [optionalCode]
  have hslot : s.frame[names.length]? = some (as.headD .unbound) := by
    rw [hframe, List.getElem?_append_right (by simp [hlen])]
    simp [hlen]
  have hload : entryStep o.fetch (other o) s =
      some { s with pc := s.pc + 2, valr := as.headD .unbound } :=
    step_ilde0 (hword 0 (by omega)) (hword 1 (by omega)) hslot
  have hjump : entryStep o.fetch (other o) { s with pc := s.pc + 2, valr := as.headD .unbound } =
      some { s with
        pc := if as.headD .unbound = .unbound then s.pc + 2 + 2 else s.pc + 2 + (seg.length + 4)
        valr := as.headD .unbound } :=
    step_ijbnd (hword 2 (by omega)) (hword 3 (by omega))
  have hfirst : EntrySteps o.fetch (other o) s _ := .head hload (.single hjump)
  cases as with
  | cons a as =>
    have ha : a ≠ .unbound := fun h => has (by simp [h])
    rw [List.headD_cons, if_neg ha] at hfirst
    refine ⟨a, ?_⟩
    convert hfirst using 1
    rw [hlong, hframe]
    simp
    omega
  | nil =>
    rw [List.headD_nil, if_pos rfl] at hfirst
    have hfr := hframe
    rw [List.headD_nil] at hfr
    have hdef := hrun { s with pc := s.pc + 2 + 2, valr := .unbound } ρ (by simp [hpc]) hρ
      (by simp [hfr])
    have hlast := ho.le
    rw [List.head?_nil, bindOptional]
    change match eval d ρ s.world with | some (v, f, w) => _ | none => _ at hdef
    cases he : eval d ρ s.world with
    | none =>
      rw [he] at hdef
      refine NeverAt.of_steps (fetch_end o) hfirst fun t ht hend => ?_
      have hlt : t.pc < s.pc + 2 + 2 + seg.length := hdef t ht
      omega
    | some r =>
      obtain ⟨v, f, w⟩ := r
      rw [he] at hdef
      have hdrop : s.frame.drop ρ.length = .unbound :: tail := by
        rw [hfr, List.drop_left' (by simp)]
      have hwords : ∀ i < 2, o.code[s.pc + 2 + 2 + seg.length + i]? =
          [Word.op .iste0, .arg names.length][i]? := by
        intro i hi
        have hw := hword (4 + seg.length + i) (by omega)
        rw [← List.getElem?_eq_getElem, optionalCode, List.getElem?_append_right (by simp; omega),
          List.length_append] at hw
        rw [show s.pc + 2 + 2 + seg.length + i = s.pc + (4 + seg.length + i) by omega, hw]
        simp
      refine ⟨v, hfirst.trans (hdef.tail ?_)⟩
      refine (step_iste0 (i := names.length) (hwords 0 (by omega)) (hwords 1 (by omega))
        (by simp [hfr, rebind, hlen])).trans ?_
      rw [hdrop, List.set_append_right _ _ (by simp [rebind, hlen])]
      simp [rebind, hlen, hlong]
      omega

theorem bindOptional_names {sym : Sym} {v : Option Value} {ρ ρ' : Bindings} {w w' : W}
    (h : bindOptional eval sym d v ρ w = some (ρ', w')) :
    ρ'.map Prod.fst = ρ.map Prod.fst ++ [sym] := by
  cases v with
  | some v =>
    cases h
    simp
  | none =>
    rw [bindOptional] at h
    cases he : eval d ρ w with
    | none => simp [he] at h
    | some r =>
      rw [he] at h
      cases h
      simp [rebind]

/-- Code at `base` sets the slots of the optional arguments. -/
def SetsOptionals (other : Ctx → Inst → Entry W → Option (Entry W)) (eval : Eval W) (o : Ctx)
    (base : Nat) (seg : List Word) (l : List Sym) (os : List (Sym × Value)) : Prop :=
  ∀ (s : Entry W) (ρ : Bindings) (as tail : List Value), s.pc = base → ρ.map Prod.fst = l →
    .unbound ∉ as → s.frame = ρ.map Prod.snd ++ (slotsOf os.length as ++ tail) →
    match bindOptionals eval os as ρ s.world with
    | some (ρ', as', w) =>
      ρ'.map Prod.fst = l ++ os.map Prod.fst ∧ as' = as.drop os.length ∧
      ∃ v, EntrySteps o.fetch (other o) s
        { s with
          pc := s.pc + seg.length
          valr := v
          frame := ρ'.map Prod.snd ++ tail
          world := w }
    | none => NeverAt o.fetch (other o) o.code.length s

theorem setsOptionals_nil (o : Ctx) (base : Nat) (l : List Sym) :
    SetsOptionals other eval o base [] l [] := by
  intro s ρ as tail _ hρ _ hframe
  refine ⟨by simpa using hρ, rfl, s.valr, ?_⟩
  have hframe : s.frame = ρ.map Prod.snd ++ tail := by simpa [slotsOf] using hframe
  rw [← hframe]
  exact .refl

theorem optionals_ok (acc : AccFn) (dsb : Arg) (regargc dsbargc : Nat) (os : List (Sym × Value))
    (l : List Sym) (optargc : Nat) (c : Ctx)
    (hacc : ∀ l₁ p l₂, os = l₁ ++ p :: l₂ →
      CompilesDefault acc other eval (l ++ l₁.map Prod.fst) p.2) :
    ∃ seg c',
      (∀ rest, accProcessargs acc (listOnto (os.map fun p => optArg p.1 p.2) rest) .outer .context
          dsb (recorded l) l.length regargc dsbargc optargc c =
        accProcessargs acc rest .outer .context dsb (recorded (l ++ os.map Prod.fst))
          (l.length + os.length) regargc dsbargc (optargc + os.length) c') ∧
      c'.code = c.code ++ seg ∧ c.literals <+: c'.literals ∧
      ∀ o : Ctx, Segment o c.code.length seg → c'.literals <+: o.literals →
        SetsOptionals other eval o c.code.length seg l os := by
  induction os generalizing l optargc c with
  | nil =>
    exact ⟨[], c, by simp, by simp, List.prefix_rfl, fun o _ _ => setsOptionals_nil o _ l⟩
  | cons p os ih =>
    obtain ⟨sym, d⟩ := p
    have hd := hacc [] (sym, d) os rfl
    rw [List.map_nil, List.append_nil] at hd
    obtain ⟨seg, c₁, hcomp, hcode, hlits, hrun⟩ :=
      hd (c.append [.op .ilde0, .arg l.length, .op .ijbnd, .arg 0])
    have hcode : c₁.code = c.code ++ [.op .ilde0, .arg l.length, .op .ijbnd, .arg 0] ++ seg := hcode
    obtain ⟨seg', c', hproc, hcode', hlits', hrun'⟩ :=
      ih (l ++ [sym]) (optargc + 1) ⟨c.code ++ optionalCode l.length seg, c₁.literals⟩ (by
        intro l₁ p l₂ hos
        have h := hacc ((sym, d) :: l₁) p l₂ (by simp [hos])
        simpa using h)
    refine ⟨optionalCode l.length seg ++ seg', c', ?_, by simpa using hcode', hlits.trans hlits', ?_⟩
    · intro rest
      have hstep := hproc rest
      rw [recorded_append_singleton, List.length_append, List.length_singleton] at hstep
      rw [List.map_cons, listOnto_cons, process_optional,
        bind_of_ok (accOptional_ok acc hcomp hcode), hstep]
      simp [Nat.add_assoc, Nat.add_comm 1]
    · intro o ho hol s ρ as tail hpc hρ has hframe
      have hbase : (c.append [.op .ilde0, .arg l.length, .op .ijbnd, .arg 0]).code.length =
          c.code.length + 4 := by simp [Ctx.append]
      have hdefault : RunsDefault other eval o (c.code.length + 4) seg l d := by
        rw [← hbase]
        refine hrun o ?_ (hlits'.trans hol)
        rw [hbase]
        exact ho.left.left.right
      rw [List.length_cons, slotsOf_succ] at hframe
      have hone := optional_run sym (slotsOf os.length as.tail ++ tail) hdefault ho.left hpc hρ has
        (by simpa using hframe)
      have has' : .unbound ∉ as.tail := fun h => has (List.mem_of_mem_tail h)
      rw [bindOptionals]
      cases hb : bindOptional eval sym d as.head? ρ s.world with
      | none =>
        rw [hb] at hone
        exact hone
      | some r =>
        obtain ⟨ρ₁, w₁⟩ := r
        rw [hb] at hone
        obtain ⟨v, hsteps⟩ := hone
        have hnames : ρ₁.map Prod.fst = l ++ [sym] := by
          rw [bindOptional_names hb, hρ]
        have hrest := hrun' o (by simpa using ho.right) hol
          { s with
            pc := s.pc + (optionalCode l.length seg).length
            valr := v
            frame := ρ₁.map Prod.snd ++ (slotsOf os.length as.tail ++ tail)
            world := w₁ } ρ₁ as.tail tail (by simp [hpc]) hnames has' rfl
        change (match bindOptionals eval os as.tail ρ₁ w₁ with
          | some (ρ', as', w) => _
          | none => _)
        cases hr : bindOptionals eval os as.tail ρ₁ w₁ with
        | none =>
          rw [hr] at hrest
          exact hrest.of_steps (fetch_end o) hsteps
        | some r =>
          obtain ⟨ρ', as', w⟩ := r
          rw [hr] at hrest
          obtain ⟨hn, has', v', hsteps'⟩ := hrest
          refine ⟨by simpa using hn, by simpa using has', v', ?_⟩
          have hall := hsteps.trans hsteps'
          rw [List.length_append, ← Nat.add_assoc]
          exact hall

end Optional

theorem conses_listOnto (vs : List Value) (tail : Value) :
    conses (listOnto vs tail) = vs.length + conses tail := by
  induction vs with
  | nil => simp
  | cons v vs ih =>
    rw [listOnto_cons, conses, ih, List.length_cons]
    omega

section Names

variable {W : Type} {acc : AccFn} {other : Ctx → Inst → Entry W → Option (Entry W)}
  {eval : Eval W} {ps : Params}

/-- The environment instruction, once it is patched. -/
def envCode (regargc dsbargc optargc : Nat) (restarg : Bool) : List Word :=
  [.op (if restarg then .ienvr else .ienv), .arg regargc, .arg dsbargc, .arg optargc]

theorem accArgs_cons {a d : Value} {p : Processed} {c' : Ctx} {seg : List Word}
    (hp : accProcessargs acc (.cons a d) .outer .context (.num (conses (.cons a d))) .nil 0 0 0 0
      ⟨[.op .ienv, .arg 0, .arg 0, .arg 0], []⟩ = .ok (p, c'))
    (hcode : c'.code = [.op .ienv, .arg 0, .arg 0, .arg 0] ++ seg) :
    accArgs acc (.cons a d) accContext =
      .ok (some p.nenv, ⟨envCode p.regargc p.dsbargc p.optargc p.restarg ++ seg, c'.literals⟩) := by
  rw [accArgs, bind_of_ok (accCodeptr_ok _), bind_of_ok (accGen_ok _ _ _)]
  change (accProcessargs acc (.cons a d) .outer .context _ .nil 0 0 0 0 >>= _)
    ⟨[.op .ienv, .arg 0, .arg 0, .arg 0], []⟩ = _
  rw [bind_of_ok hp, bind_of_ok (accPatch_ok _ _ _), bind_of_ok (accPatch_ok _ _ _),
    bind_of_ok (accPatch_ok _ _ _)]
  cases hr : p.restarg with
  | false => 
    change Except.ok (some p.nenv, Ctx.mk _ _) = _
    simp [accContext, hcode, envCode]
  | true =>
    change Except.ok (some p.nenv, Ctx.mk _ _) = _
    simp [accContext, hcode, envCode]

theorem process_rest (rest : Option Sym) (dsb nenv : Arg) (idx regargc dsbargc optargc : Nat)
    (c : Ctx) :
    accProcessargs acc (rest.elim .nil .symbol) .outer .context dsb nenv idx regargc dsbargc
        optargc c =
      .ok (⟨rest.elim nenv fun s => .bind (.symbol s) dsb nenv, regargc, dsbargc, optargc,
        rest.isSome⟩, c) := by
  cases rest with
  | none => rfl
  | some s => rfl

theorem recorded_rest (l : List Sym) (rest : Option Sym) :
    recorded (l ++ rest.toList) =
      rest.elim (recorded l) fun s => .bind (.symbol s) (.num l.length) (recorded l) := by
  cases rest with
  | none => simp
  | some s => exact recorded_append_singleton l s

/-- Names and optional arguments get the slots from 0 on, and the surplus the
one after them. -/
theorem accArgs_names {nenv : Arg} {c : Ctx} (names : List Sym)
    (hreq : ps.required = names.map .symbol)
    (hacc : ∀ l₁ p l₂, ps.optional = l₁ ++ p :: l₂ →
      CompilesDefault acc other eval (names ++ l₁.map Prod.fst) p.2)
    (hok : accArgs acc ps.toValue accContext = .ok (some nenv, c)) :
    nenv = recorded ps.names ∧
      ∃ seg, c.code = envCode names.length 0 ps.optional.length ps.rest.isSome ++ seg ∧
        SetsOptionals other eval c 4 seg names ps.optional := by
  have hnames : ps.names = names ++ ps.optional.map Prod.fst ++ ps.rest.toList := by
    rw [Params.names, hreq, List.flatMap_map]
    simp [patNames]
  obtain ⟨seg, c', hproc, hcode, hlits, hrun⟩ :=
    optionals_ok acc (.num (names.length + ps.optional.length)) names.length 0 ps.optional names 0
      ⟨[.op .ienv, .arg 0, .arg 0, .arg 0], []⟩ hacc
  have hconses : conses ps.toValue = names.length + ps.optional.length := by
    rw [Params.toValue, hreq, conses_listOnto, conses_listOnto]
    cases ps.rest with
    | none => simp [conses]
    | some s => simp [conses]
  have hall : accProcessargs acc ps.toValue .outer .context (.num (conses ps.toValue)) .nil 0 0 0 0
      ⟨[.op .ienv, .arg 0, .arg 0, .arg 0], []⟩ =
      .ok (⟨recorded ps.names, names.length, 0, ps.optional.length, ps.rest.isSome⟩, c') := by
    rw [hconses, Params.toValue, hreq, process_names, Nat.zero_add]
    refine (hproc _).trans ((process_rest ..).trans ?_)
    rw [hnames, recorded_rest, Nat.zero_add]
    simp
  rcases ps.toValue_cases with ⟨a, d, hv⟩ | ⟨hr, ho, hv⟩
  · rw [hv] at hall hok
    rw [accArgs_cons hall hcode] at hok
    cases hok
    refine ⟨rfl, seg, rfl, hrun _ ?_ List.prefix_rfl⟩
    exact ⟨_, [], (List.append_nil _).symm, rfl⟩
  · obtain rfl : names = [] := by simpa [hr] using hreq.symm
    cases hrest : ps.rest with
    | none =>
      rw [hv, hrest] at hok
      cases hok
    | some s =>
      rw [hv, hrest] at hok
      cases hok
      rw [hnames, ho, hrest]
      exact ⟨rfl, [], rfl, setsOptionals_nil _ _ _⟩

theorem envCounts_envCode {c : Ctx} {r ds o : Nat} {rest : Bool} {seg : List Word}
    (hc : c.code = envCode r ds o rest ++ seg) : c.fetch.envCounts = some ⟨r, ds, o, rest⟩ := by
  cases rest with
  | false => simp [Fetch.envCounts, Ctx.fetch, hc, envCode]
  | true => simp [Fetch.envCounts, Ctx.fetch, hc, envCode]

theorem layout_of_names {nenv : Arg} {c : Ctx} (names : List Sym)
    (hreq : ps.required = names.map .symbol)
    (hacc : ∀ l₁ p l₂, ps.optional = l₁ ++ p :: l₂ →
      CompilesDefault acc other eval (names ++ l₁.map Prod.fst) p.2)
    (hok : accArgs acc ps.toValue accContext = .ok (some nenv, c)) :
    LayoutHolds c.fetch (other c) eval ps (slotIn nenv) c.code.length := by
  obtain ⟨rfl, seg, hcode, hsets⟩ := accArgs_names names hreq hacc hok
  have hnames : ps.names = names ++ ps.optional.map Prod.fst ++ ps.rest.toList := by
    rw [Params.names, hreq, List.flatMap_map]
    simp [patNames]
  have hlen : c.code.length = 4 + seg.length := by
    simp [hcode, envCode]
    omega
  intro args hargs counts hcounts frame hframe valr w name hname
  rw [envCounts_envCode hcode] at hcounts
  cases hcounts
  obtain ⟨hmin, hmax, hframe⟩ := EnvCounts.enter_eq hframe
  dsimp only at hmin hmax hframe
  rw [List.replicate_zero, List.nil_append] at hframe
  obtain ⟨k, hk, hkname⟩ := List.getElem_of_mem hname
  have hkslot : ps.names[k]? = some name := by rw [List.getElem?_eq_getElem hk, hkname]
  refine ⟨k, slotIn_recorded ps.distinct hkslot, ?_, ?_, ?_⟩
  · rw [hframe]
    rw [hnames] at hk
    cases hrest : ps.rest with
    | none =>
      simp [hrest] at hk ⊢
      omega
    | some s =>
      simp [hrest] at hk ⊢
      omega
  · refine ⟨by simpa [hreq] using hmin, fun hnone => ?_⟩
    have hle := hmax (by rw [hnone]; rfl)
    simpa [hreq] using hle
  · intro s hs hend
    have htake : (args.take names.length).length = names.length := by simp [hmin]
    have hfst : (names.zip (args.take names.length)).map Prod.fst = names :=
      List.map_fst_zip (Nat.le_of_eq htake.symm)
    have hsnd : (names.zip (args.take names.length)).map Prod.snd = args.take names.length :=
      List.map_snd_zip (Nat.le_of_eq htake)
    have hrun := hsets ⟨4, valr, frame, [], w⟩ _ (args.drop names.length) _ rfl hfst
      (fun h => hargs (List.mem_of_mem_drop h)) (by rw [hsnd]; exact hframe)
    rw [Params.bind, hreq, bindRequired_names [] w hmin, List.nil_append]
    change ∃ ρ w' v, (bindOptionals eval ps.optional _ _ w >>= _) = _ ∧ _
    dsimp only at hrun
    cases hb : bindOptionals eval ps.optional (args.drop names.length)
      (names.zip (args.take names.length)) w with
    | none =>
      rw [hb] at hrun
      exact absurd hend (hrun s hs)
    | some r =>
      obtain ⟨ρ', as', w'⟩ := r
      rw [hb] at hrun
      obtain ⟨hρ', has', v, hsteps⟩ := hrun
      have hs : s = _ := EntrySteps.unique (fetch_end c) hsteps hlen.symm hs hend
      rw [List.drop_drop] at has'
      obtain ⟨ρ, hbind, hfsts, hsnds⟩ := bindRest_ok ps.rest as' ρ' (by
        intro hnone
        have hle := hmax (by rw [hnone]; rfl)
        rw [has', List.drop_eq_nil_of_le hle])
      rw [hρ', ← hnames] at hfsts
      obtain ⟨x, hlookup, hslot⟩ := lookup_of_slot (by rw [hfsts]; exact ps.distinct)
        (by rw [hfsts]; exact hkslot)
      refine ⟨ρ, w', x, ?_, hlookup, ?_⟩
      · change (bindRest ps.rest as' ρ' >>= _) = _
        rw [hbind]
        rfl
      · rw [hs, ← has', ← hsnds]
        exact hslot

end Names

end Arcueid.Acc
