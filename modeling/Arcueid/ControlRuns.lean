import Mathlib.Logic.Relation
import Arcueid.Bytecode

/-! Control in the virtual machine: the instruction pointer and the chain of
continuations (`vmengine.c`, `cont.c`). Values are left out: both ways of a
conditional jump may be taken, and a call may enter any function. A function
also keeps the continuation register it was started with, which the machine
itself does not. -/

namespace Arcueid

open StackCode

inductive Fun where
  | code (c : Code)
  /-- A function written in C. -/
  | ccode (n : Nat)

/-- A continuation goes on with a function at an offset. -/
inductive ContFrame where
  | mk (fn : Fun) (ofs : Nat) (start : List ContFrame)

structure Registers where
  fn : Fun
  ip : Nat
  conr : List ContFrame
  /-- The continuation register the function was started with. -/
  start : List ContFrame
  /-- Continuations that values hold. -/
  held : List (List ContFrame)

namespace Registers

variable (s : Registers)

/-- Start a function. -/
def enter (f : Fun) : Registers := { s with fn := f, ip := 0, start := s.conr }

/-- Make a continuation that goes on at an offset. -/
def mkcont (ofs : Nat) : Registers := { s with conr := .mk s.fn ofs s.start :: s.conr }

def restorecont (fr : ContFrame) (rest : List ContFrame) : Registers :=
  match fr with
  | .mk fn ofs start => { s with fn := fn, ip := ofs, conr := rest, start := start }

end Registers

/-- The instruction at a word. -/
def Code.instrAt (c : Code) (ip : Nat) : Option Instr :=
  match c.code[ip]? with
  | some (.fixnum w) =>
    (Inst.ofOpcode w.toNat).map fun op => ⟨op, (c.code.drop (ip + 1)).take op.arity⟩
  | _ => none

/-- Where a jump or a continuation leads. -/
def Instr.target (i : Instr) (ip : Nat) : Nat := (ip + (i.args.map fix2int).headI).toNat

/-- Where the same function may go on after an instruction. -/
def Instr.targets (i : Instr) (ip : Nat) : List Nat :=
  match i.op with
  | .ijmp => [i.target ip]
  | .ijt | .ijf | .ijbnd => [ip + i.size, i.target ip]
  | .icont | .iapply | .iret | .ihlt => []
  | _ => [ip + i.size]

inductive ControlStep : Registers → Registers → Prop
  | next {s c i t} : s.fn = .code c → c.instrAt s.ip = some i → t ∈ i.targets s.ip →
      ControlStep s { s with ip := t }
  | icont {s c i} : s.fn = .code c → c.instrAt s.ip = some i → i.op = .icont →
      ControlStep s { s.mkcont (i.target s.ip) with ip := s.ip + i.size }
  | iapply {s c i} (f : Fun) : s.fn = .code c → c.instrAt s.ip = some i → i.op = .iapply →
      ControlStep s (s.enter f)
  /-- Strings are added by a C function, after which the code goes on. -/
  | iadd {s c i} (n : Nat) : s.fn = .code c → c.instrAt s.ip = some i → i.op = .iadd →
      ControlStep s ((s.mkcont (s.ip + i.size)).enter (.ccode n))
  | iret {s c i fr rest} : s.fn = .code c → c.instrAt s.ip = some i → i.op = .iret →
      s.conr = fr :: rest → ControlStep s (s.restorecont fr rest)
  /-- An error handler is called. -/
  | error {s} (f : Fun) : ControlStep s (s.enter f)
  | call {s n} (ofs : Nat) (f : Fun) : s.fn = .ccode n →
      ControlStep s ((s.mkcont ofs).enter f)
  | tailCall {s n} (f : Fun) : s.fn = .ccode n → ControlStep s (s.enter f)
  | ret {s n fr rest} : s.fn = .ccode n → s.conr = fr :: rest →
      ControlStep s (s.restorecont fr rest)
  /-- `ccc`. -/
  | hold {s n} : s.fn = .ccode n → ControlStep s { s with held := s.conr :: s.held }
  /-- A continuation that is held is applied. -/
  | throw {s n fr rest} : s.fn = .ccode n → fr :: rest ∈ s.held →
      ControlStep s (s.restorecont fr rest)

/-- A thread starts with a function and no continuation. -/
def ControlReachable (s : Registers) : Prop :=
  ∃ f, Relation.ReflTransGen ControlStep ⟨f, 0, [], [], []⟩ s

/-- Heights that count continuations only. -/
def conts : Cost := ⟨0, 1⟩

/-- Code whose continuations are all accounted for: instructions are reached
with one number of them. -/
def Code.Paired (c : Code) (A : List (Instr × Nat)) : Prop :=
  (∃ rest, c.code = words A ++ rest) ∧
    ∃ nlits, Fragment Instr.size (flowBy conts nlits) A 0 none

section Decode

variable {c : Code} {A pre suf : List (Instr × Nat)} {i : Instr} {h nlits ip : Nat}

theorem flowBy_arity {succs : List (Nat × Nat)} (hflow : flowBy conts nlits i h = some succs) :
    i.args.length = i.op.arity := by
  unfold flowBy at hflow
  split at hflow
  · assumption
  · cases hflow

/-- The machine reads the instructions that were emitted. -/
theorem instrAt_words {rest : List Value} (hcode : c.code = words (pre ++ (i, h) :: suf) ++ rest)
    (harity : i.args.length = i.op.arity) : c.instrAt (width Instr.size pre) = some i := by
  have hword : c.code = words pre ++ int2fix i.op.opcode :: (i.args ++ (words suf ++ rest)) := by
    rw [hcode]
    simp [Instr.words]
  unfold Code.instrAt
  rw [hword, ← words_length, List.getElem?_append_right (Nat.le_refl _)]
  have hdrop : (words pre).drop (width Instr.size pre + 1) = [] :=
    List.drop_eq_nil_of_le (by simp)
  simp [int2fix, ← harity, List.drop_append, hdrop]

theorem operand_target {d : Nat} (hd : i.operand = some d) : i.target ip = ip + d := by
  unfold Instr.operand at hd
  split at hd
  · next n hargs =>
    split at hd
    · next hn =>
      obtain rfl := Option.some.inj hd
      simp only [Instr.target, hargs, List.map_cons, List.headI_cons, fix2int]
      omega
    · cases hd
  · cases hd

theorem flowBy_targets {succs : List (Nat × Nat)} (hflow : flowBy conts nlits i h = some succs)
    {t : Nat} (ht : t ∈ i.targets ip) : ∃ d, t = ip + d ∧ (d, h) ∈ succs := by
  have hjump : ∀ d, i.operand = some d → i.target ip = ip + d := fun d hd => operand_target hd
  rw [flowBy, if_pos (flowBy_arity hflow)] at hflow
  unfold Instr.targets at ht
  cases hop : i.op <;> rw [hop] at hflow ht <;>
    simp only [conts, Nat.zero_mul, Nat.zero_le, if_true, Nat.add_zero, Nat.sub_zero,
      Option.bind_eq_some_iff, Option.map_eq_some_iff, Option.ite_none_right_eq_some,
      Option.some.injEq, List.mem_cons, List.not_mem_nil, or_false] at hflow ht <;>
    grind

theorem flowBy_icont (ip : Nat) {succs : List (Nat × Nat)} (hflow : flowBy conts nlits i h = some succs)
    (hop : i.op = .icont) :
    (i.size, h + 1) ∈ succs ∧ ∃ d, i.target ip = ip + d ∧ (d, h) ∈ succs := by
  rw [flowBy, if_pos (flowBy_arity hflow), hop] at hflow
  obtain ⟨d, hd, rfl⟩ := Option.map_eq_some_iff.mp hflow
  exact ⟨by simp [conts], d, operand_target hd, by simp⟩

end Decode

/-- A function is at an instruction, with as many continuations above those it
was started with as are accounted for there. -/
def Accounted (fn : Fun) (ip : Nat) (conr start : List ContFrame) : Prop :=
  ∀ c A, fn = .code c → c.Paired A →
    ∃ own, conr = own ++ start ∧ At Instr.size A ip own.length

def ChainAccounted : List ContFrame → Prop
  | [] => True
  | .mk fn ofs start :: rest => Accounted fn ofs rest start ∧ ChainAccounted rest

/-- Every function that runs or is waited for is accounted for. -/
structure ControlInv (s : Registers) : Prop where
  running : Accounted s.fn s.ip s.conr s.start
  chain : ChainAccounted s.conr
  held : ∀ k ∈ s.held, ChainAccounted k

section Invariant

variable {s s' : Registers} {f : Fun} {c : Code} {i : Instr} {fr : ContFrame} {rest : List ContFrame}
  {ip ofs : Nat} {conr start : List ContFrame}

theorem accounted_ccode {n : Nat} : Accounted (.ccode n) ip conr start := nofun

theorem accounted_enter : Accounted f 0 conr conr := by
  rintro c A rfl ⟨-, nlits, hA⟩
  exact ⟨[], rfl, hA.entry.at⟩

theorem ControlInv.enter (h : ControlInv s) : ControlInv (s.enter f) where
  running := accounted_enter
  chain := h.chain
  held := h.held

theorem ControlInv.restorecont {k : List ContFrame} (h : ControlInv s) (hk : ChainAccounted k)
    (heq : k = fr :: rest) : ControlInv (s.restorecont fr rest) := by
  rw [heq] at hk
  obtain ⟨fn, ofs, start⟩ := fr
  exact ⟨hk.1, hk.2, h.held⟩

/-- An instruction that runs, in code that is accounted for. -/
theorem Accounted.at {A : List (Instr × Nat)} (hrun : Accounted (.code c) ip conr start)
    (hi : c.instrAt ip = some i) (hc : c.Paired A) :
    ∃ own nlits succs, conr = own ++ start ∧ flowBy conts nlits i own.length = some succs ∧
      ∀ d k, (d, k) ∈ succs → At Instr.size A (ip + d) k := by
  obtain ⟨own, hconr, hat⟩ := hrun c A rfl hc
  obtain ⟨⟨more, hcode⟩, nlits, hA⟩ := hc
  obtain ⟨pre, j, suf, rfl, hpre⟩ := hat
  obtain ⟨succs, hflow, hsuccs⟩ := hA.steps.at rfl
  have hj : c.instrAt ip = some j := by
    rw [← hpre]
    exact instrAt_words hcode (flowBy_arity hflow)
  obtain rfl := Option.some.inj (hi.symm.trans hj)
  refine ⟨own, nlits, succs, hconr, hflow, fun d k hd => ?_⟩
  have hl := hsuccs d k hd
  rw [Nat.zero_add, hpre] at hl
  exact hl.at

theorem accounted_next {t : Nat} (hrun : Accounted (.code c) ip conr start)
    (hi : c.instrAt ip = some i) (ht : t ∈ i.targets ip) : Accounted (.code c) t conr start := by
  intro c' A hc' hA
  cases hc'
  obtain ⟨own, nlits, succs, hconr, hflow, hsuccs⟩ := hrun.at hi hA
  obtain ⟨d, rfl, hd⟩ := flowBy_targets hflow ht
  exact ⟨own, hconr, hsuccs _ _ hd⟩

/-- A continuation goes on with those below it; its function meanwhile has one
more. -/
theorem accounted_icont (hrun : Accounted (.code c) ip conr start)
    (hi : c.instrAt ip = some i) (hop : i.op = .icont) :
    Accounted (.code c) (i.target ip) conr start ∧
      ∀ fr, Accounted (.code c) (ip + i.size) (fr :: conr) start := by
  constructor
  · intro c' A hc' hA
    cases hc'
    obtain ⟨own, nlits, succs, hconr, hflow, hsuccs⟩ := hrun.at hi hA
    obtain ⟨-, d, htarget, hd⟩ := flowBy_icont ip hflow hop
    rw [htarget]
    exact ⟨own, hconr, hsuccs _ _ hd⟩
  · intro fr c' A hc' hA
    cases hc'
    obtain ⟨own, nlits, succs, hconr, hflow, hsuccs⟩ := hrun.at hi hA
    exact ⟨fr :: own, by rw [hconr, List.cons_append], hsuccs _ _ (flowBy_icont ip hflow hop).1⟩

theorem ControlInv.step (h : ControlInv s) (hstep : ControlStep s s') : ControlInv s' := by
  cases hstep with
  | next hfn hi ht =>
    refine ⟨?_, h.chain, h.held⟩
    have hrun := h.running
    rw [hfn] at hrun
    have hnext := accounted_next hrun hi ht
    rw [← hfn] at hnext
    exact hnext
  | icont hfn hi hop =>
    have hrun := h.running
    rw [hfn] at hrun
    have hcont := accounted_icont hrun hi hop
    rw [← hfn] at hcont
    exact ⟨hcont.2 _, ⟨hcont.1, h.chain⟩, h.held⟩
  | iapply f => exact h.enter
  | @iadd _ i n hfn hi hop =>
    have hrun := h.running
    rw [hfn] at hrun
    have hnext := accounted_next (t := s.ip + i.size) hrun hi (by simp [Instr.targets, hop])
    rw [← hfn] at hnext
    exact ⟨accounted_ccode, ⟨hnext, h.chain⟩, h.held⟩
  | iret hfn hi hop hconr => exact h.restorecont h.chain hconr
  | error f => exact h.enter
  | call ofs f hfn =>
    refine ⟨accounted_enter, ⟨?_, h.chain⟩, h.held⟩
    rw [hfn]
    exact accounted_ccode
  | tailCall f hfn => exact h.enter
  | ret hfn hconr => exact h.restorecont h.chain hconr
  | hold hfn =>
    refine ⟨h.running, h.chain, fun k hk => ?_⟩
    rcases List.mem_cons.mp hk with rfl | hk
    · exact h.chain
    · exact h.held k hk
  | throw hfn hheld => exact h.restorecont (h.held _ hheld) rfl

theorem ControlReachable.inv (h : ControlReachable s) : ControlInv s := by
  obtain ⟨f, hruns⟩ := h
  induction hruns with
  | refl => exact ⟨accounted_enter, trivial, nofun⟩
  | tail _ hstep ih => exact ih.step hstep

end Invariant

end Arcueid
