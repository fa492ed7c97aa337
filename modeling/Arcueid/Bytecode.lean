import Arcueid.Codegen
import Arcueid.Lib.StackCode

/-! What may follow an instruction in the virtual machine, and code emitted at
the end of a context. Heights are counted from the frame of the running
function; a continuation takes six words. -/

namespace Arcueid

open StackCode

/-- The single operand of an instruction, if it is not negative. -/
def Instr.operand (i : Instr) : Option Nat :=
  match i.args with
  | [.fixnum n] => if 0 ≤ n then some n.toNat else none
  | _ => none

/-- The distances to the instructions that may follow, and the heights there. -/
def flow (nlits : Nat) : Flow Instr := fun i h =>
  if i.args.length = i.op.arity then
    match i.op with
    | .ipush => some [(i.size, h + 1)]
    | .ipop | .iadd | .isub | .imul | .idiv | .icons | .iscar | .iscdr | .iis | .iconsr | .ispl =>
      if 0 < h then some [(i.size, h - 1)] else none
    | .idup => if 0 < h then some [(i.size, h)] else none
    | .ildl | .ildg | .istg =>
      i.operand.bind fun n => if n < nlits then some [(i.size, h)] else none
    | .icont => i.operand.map fun d => [(i.size, h + 6), (d, h)]
    | .ijmp => i.operand.map fun d => [(d, h)]
    | .ijt | .ijf | .ijbnd => i.operand.map fun d => [(i.size, h), (d, h)]
    | .ienv | .ienvr => if h = 0 then some [(i.size, 0)] else none
    | .imenv => i.operand.bind fun n => if h = n then some [(i.size, n)] else none
    | .iapply => i.operand.bind fun n => if n ≤ h then some [] else none
    | .iret => if h = 0 then some [] else none
    | .ihlt => some []
    | _ => some [(i.size, h)]
  else none

/-- How much a push and a continuation add to a height. -/
structure Cost where
  push : Nat
  cont : Nat

/-- `flow` with heights counted otherwise. -/
def flowBy (c : Cost) (nlits : Nat) : Flow Instr := fun i h =>
  if i.args.length = i.op.arity then
    match i.op with
    | .ipush => some [(i.size, h + c.push)]
    | .ipop | .iadd | .isub | .imul | .idiv | .icons | .iscar | .iscdr | .iis | .iconsr | .ispl =>
      if c.push ≤ h then some [(i.size, h - c.push)] else none
    | .idup => if c.push ≤ h then some [(i.size, h)] else none
    | .ildl | .ildg | .istg =>
      i.operand.bind fun n => if n < nlits then some [(i.size, h)] else none
    | .icont => i.operand.map fun d => [(i.size, h + c.cont), (d, h)]
    | .ijmp => i.operand.map fun d => [(d, h)]
    | .ijt | .ijf | .ijbnd => i.operand.map fun d => [(i.size, h), (d, h)]
    | .ienv | .ienvr => if h = 0 then some [(i.size, 0)] else none
    | .imenv => i.operand.bind fun n => if h = c.push * n then some [(i.size, c.push * n)] else none
    | .iapply => i.operand.bind fun n => if c.push * n ≤ h then some [] else none
    | .iret => if h = 0 then some [] else none
    | .ihlt => some []
    | _ => some [(i.size, h)]
  else none

theorem flow_eq (nlits : Nat) : flow nlits = flowBy ⟨1, 6⟩ nlits := by
  funext i h
  unfold flow flowBy
  split
  · cases i.op <;> simp only [Nat.one_mul] <;> rfl
  · rfl

@[simp] theorem operand_int2fix {op : Inst} {n : Nat} :
    Instr.operand ⟨op, [int2fix n]⟩ = some n := by
  simp [Instr.operand, int2fix]

section Jumps

variable {c : Cost} {m d h : Nat}

theorem flow_ijmp : flowBy c m ⟨.ijmp, [int2fix d]⟩ h = some [(d, h)] := by
  simp [flowBy, Inst.arity]

theorem flow_ijf : flowBy c m ⟨.ijf, [int2fix d]⟩ h = some [(2, h), (d, h)] := by
  simp [flowBy, Inst.arity, Instr.size]

theorem flow_ijbnd : flowBy c m ⟨.ijbnd, [int2fix d]⟩ h = some [(2, h), (d, h)] := by
  simp [flowBy, Inst.arity, Instr.size]

theorem flow_icont : flowBy c m ⟨.icont, [int2fix d]⟩ h = some [(2, h + c.cont), (d, h)] := by
  simp [flowBy, Inst.arity, Instr.size]

end Jumps

theorem flow_mono {c : Cost} {m n : Nat} (hmn : m ≤ n) (i : Instr) (h : Nat)
    (succs : List (Nat × Nat)) (hflow : flowBy c m i h = some succs) :
    flowBy c n i h = some succs := by
  have hlit : ∀ o : Option Nat,
      (o.bind fun k => if k < m then some [(i.size, h)] else none) = some succs →
      (o.bind fun k => if k < n then some [(i.size, h)] else none) = some succs := by
    intro o ho
    obtain ⟨k, rfl, hk⟩ := Option.bind_eq_some_iff.mp ho
    have hlt : k < m := by
      by_contra hge
      simp [hge] at hk
    simpa [hlt, Nat.lt_of_lt_of_le hlt hmn] using hk
  unfold flowBy at hflow ⊢
  split
  · next harity =>
    rw [if_pos harity] at hflow
    cases hop : i.op <;> rw [hop] at hflow <;> first | exact hlit _ hflow | exact hflow
  · next harity =>
    rw [if_neg harity] at hflow
    exact hflow

/-- The words of annotated code. -/
def words (A : List (Instr × Nat)) : List Value := A.flatMap fun p => p.1.words

@[simp] theorem words_nil : words [] = [] := rfl

@[simp] theorem words_cons (p : Instr × Nat) (A : List (Instr × Nat)) :
    words (p :: A) = p.1.words ++ words A := rfl

@[simp] theorem words_append (A B : List (Instr × Nat)) : words (A ++ B) = words A ++ words B := by
  simp [words]

@[simp] theorem words_length (A : List (Instr × Nat)) :
    (words A).length = width Instr.size A := by
  induction A with
  | nil => rfl
  | cons p A ih =>
    rw [words_cons, List.length_append, ih, width_cons, Instr.words, Instr.size,
      List.length_cons, Nat.add_comm 1]

/-- A code object starts with instructions that control never runs past. Each
is reached with one stack height, jumps and continuations lead to one of them,
and literal indices are below the number of literals. -/
def Code.WellFormed (c : Code) : Prop :=
  ∃ A lits, c.code = words A ++ List.replicate ((words A).length + 1) .nil ∧
    c.literals = lits ++ List.replicate (lits.length + 1) .nil ∧
    Fragment Instr.size (flow lits.length) A 0 none

/-- The code of `ctx'` is that of `ctx` and a fragment entered with height `h`. -/
structure Emits (ctx ctx' : Cctx) (h : Nat) (out : Option Nat) : Prop where
  code : ∃ A, ctx'.code = ctx.code ++ words A ∧ Fragment Instr.size (flow ctx'.lptr) A h out
  literals : ctx.literals <+: ctx'.literals

/-- A call starts at word `p.1` and is reached with height `p.2`, in code that
starts at word `o`. -/
def CallAt (A : List (Instr × Nat)) (o : Nat) (p : Nat × Nat) : Prop :=
  ∃ pre i suf, A = pre ++ (i, p.2) :: suf ∧ i.op = .iapply ∧ o + width Instr.size pre = p.1

section CallAt

variable {A B : List (Instr × Nat)} {o : Nat} {p : Nat × Nat}

theorem CallAt.append_right (hat : CallAt A o p) : CallAt (A ++ B) o p := by
  obtain ⟨pre, i, suf, rfl, hi, ho⟩ := hat
  exact ⟨pre, i, suf ++ B, by simp, hi, ho⟩

theorem CallAt.append_left (hat : CallAt B (o + width Instr.size A) p) : CallAt (A ++ B) o p := by
  obtain ⟨pre, i, suf, rfl, hi, ho⟩ := hat
  exact ⟨A ++ pre, i, suf, by simp, hi, by rw [← ho, width_append, Nat.add_assoc]⟩

end CallAt

/-- `Emits` with heights counted otherwise; the fragment has calls at `calls`. -/
structure EmitsBy (c : Cost) (ctx ctx' : Cctx) (h : Nat) (out : Option Nat)
    (calls : List (Nat × Nat)) : Prop where
  code : ∃ A, ctx'.code = ctx.code ++ words A ∧
    Fragment Instr.size (flowBy c ctx'.lptr) A h out ∧ ∀ p ∈ calls, CallAt A ctx.vcptr p
  literals : ctx.literals <+: ctx'.literals

/-- Wherever the calls are. -/
abbrev Emitted (c : Cost) (ctx ctx' : Cctx) (h : Nat) (out : Option Nat) : Prop :=
  EmitsBy c ctx ctx' h out []

namespace EmitsBy

variable {c : Cost} {ctx ctx' ctx'' : Cctx} {h k l : Nat} {out : Option Nat}
  {calls calls' : List (Nat × Nat)}

theorem emits (hc : EmitsBy ⟨1, 6⟩ ctx ctx' h out calls) : Emits ctx ctx' h out := by
  obtain ⟨A, hA, hfA, -⟩ := hc.code
  rw [← flow_eq] at hfA
  exact ⟨⟨A, hA, hfA⟩, hc.literals⟩

theorem forget (hc : EmitsBy c ctx ctx' h out calls) : Emitted c ctx ctx' h out := by
  obtain ⟨A, hA, hfA, -⟩ := hc.code
  exact ⟨⟨A, hA, hfA, nofun⟩, hc.literals⟩

theorem refl : EmitsBy c ctx ctx h (some h) [] :=
  ⟨⟨[], by simp, .nil, nofun⟩, List.prefix_rfl⟩

theorem lptr_le (hc : EmitsBy c ctx ctx' h out calls) : ctx.lptr ≤ ctx'.lptr := by
  simpa using hc.literals.length_le

theorem trans (hc : EmitsBy c ctx ctx' h (some k) calls)
    (hc' : EmitsBy c ctx' ctx'' k out calls') :
    EmitsBy c ctx ctx'' h out (calls ++ calls') := by
  obtain ⟨A, hA, hfA, hcalls⟩ := hc.code
  obtain ⟨B, hB, hfB, hcalls'⟩ := hc'.code
  have hvcptr : ctx'.vcptr = ctx.vcptr + width Instr.size A := by
    rw [← ctx'.code_length, hA]
    simp
  refine ⟨⟨A ++ B, ?_, (hfA.flow_mono (flow_mono hc'.lptr_le)).append hfB, ?_⟩,
    hc.literals.trans hc'.literals⟩
  · rw [hB, hA, words_append, List.append_assoc]
  · intro p hp
    rcases List.mem_append.mp hp with hp | hp
    · exact (hcalls p hp).append_right
    · exact CallAt.append_left (hvcptr ▸ hcalls' p hp)

end EmitsBy

section Single

variable {c : Cost} {ctx : Cctx} {op : Inst} {h k : Nat} {v w x : Value}

theorem arcEmit_code : (arcEmit ctx op).code = ctx.code ++ Instr.words ⟨op, []⟩ :=
  ctx.emitWords_code

theorem arcEmit1_code : (arcEmit1 ctx op v).code = ctx.code ++ Instr.words ⟨op, [v]⟩ :=
  ctx.emitWords_code

theorem arcEmit2_code : (arcEmit2 ctx op v w).code = ctx.code ++ Instr.words ⟨op, [v, w]⟩ :=
  ctx.emitWords_code

theorem arcEmit3_code :
    (arcEmit3 ctx op v w x).code = ctx.code ++ Instr.words ⟨op, [v, w, x]⟩ :=
  ctx.emitWords_code

theorem emits_arcEmit (hflow : flowBy c ctx.lptr ⟨op, []⟩ h = some [(1, k)]) :
    Emitted c ctx (arcEmit ctx op) h (some k) :=
  ⟨⟨[(⟨op, []⟩, h)], by rw [arcEmit_code]; simp, .next hflow, nofun⟩, List.prefix_rfl⟩

theorem emits_arcEmit1 (hflow : flowBy c ctx.lptr ⟨op, [v]⟩ h = some [(2, k)]) :
    Emitted c ctx (arcEmit1 ctx op v) h (some k) :=
  ⟨⟨[(⟨op, [v]⟩, h)], by rw [arcEmit1_code]; simp, .next hflow, nofun⟩, List.prefix_rfl⟩

theorem emits_arcEmit2 (hflow : flowBy c ctx.lptr ⟨op, [v, w]⟩ h = some [(3, k)]) :
    Emitted c ctx (arcEmit2 ctx op v w) h (some k) :=
  ⟨⟨[(⟨op, [v, w]⟩, h)], by rw [arcEmit2_code]; simp, .next hflow, nofun⟩, List.prefix_rfl⟩

theorem emits_arcEmit3 (hflow : flowBy c ctx.lptr ⟨op, [v, w, x]⟩ h = some [(4, k)]) :
    Emitted c ctx (arcEmit3 ctx op v w x) h (some k) :=
  ⟨⟨[(⟨op, [v, w, x]⟩, h)], by rw [arcEmit3_code]; simp, .next hflow, nofun⟩,
    List.prefix_rfl⟩

theorem emits_iret : Emitted c ctx (arcEmit ctx .iret) 0 none :=
  ⟨⟨[(⟨.iret, []⟩, 0)], by rw [arcEmit_code]; simp, .halt rfl, nofun⟩, List.prefix_rfl⟩

theorem emits_iapply {n : Nat} (hn : c.push * n ≤ h) :
    EmitsBy c ctx (arcEmit1 ctx .iapply (int2fix n)) h none [(ctx.vcptr, h)] := by
  refine ⟨⟨[(⟨.iapply, [int2fix n]⟩, h)], by rw [arcEmit1_code]; simp, .halt ?_, ?_⟩,
    List.prefix_rfl⟩
  · simp [flowBy, Inst.arity, hn]
  · intro p hp
    rw [List.mem_singleton.mp hp]
    exact ⟨[], _, [], rfl, rfl, rfl⟩

end Single

section Patch

variable {c : Cost} {ctx ctx' ctx'' : Cctx} {op : Inst} {h k l : Nat} {v : Value}
  {out : Option Nat} {calls calls' : List (Nat × Nat)}

theorem setVcode_literals {i : Nat} : (ctx.setVcode i v).literals = ctx.literals := rfl

theorem set_operand {xs ys : List Value} {o w : Value} :
    (xs ++ o :: w :: ys).set (xs.length + 1) v = xs ++ o :: v :: ys := by
  rw [List.set_append_right _ _ (Nat.le_succ _)]
  simp

/-- Code under a jump that is patched to lead past it. -/
theorem EmitsBy.skip {w : Value} (hA : EmitsBy c (arcEmit1 ctx op w) ctx' l out calls)
    (hout : ∀ l, out = some l → l = k)
    (hflow : ∀ m d : Nat, flowBy c m ⟨op, [int2fix d]⟩ h = some [(2, l), (d, k)]) :
    EmitsBy c ctx (arcJmpoffset ctx' ctx.vcptr ctx'.vcptr) h (some k) calls := by
  obtain ⟨A, hcode, hf, hcalls⟩ := hA.code
  have hvcptr : (ctx'.vcptr : Int) - ctx.vcptr = (2 + width Instr.size A : Nat) := by
    rw [← ctx'.code_length, hcode, arcEmit1_code]
    simp [Instr.words]
    omega
  refine ⟨⟨(⟨op, [int2fix (2 + width Instr.size A : Nat)]⟩, h) :: A, ?_, ?_, ?_⟩, hA.literals⟩
  · rw [arcJmpoffset, hvcptr, Cctx.setVcode_code, hcode, arcEmit1_code, ← ctx.code_length]
    simp [Instr.words]
  · exact hf.skip (hflow _ _) hout
  · exact fun p hp => CallAt.append_left (A := [(_, h)]) (hcalls p hp)

/-- The two branches of a conditional: the jump over the first is patched before
the second is emitted. -/
theorem EmitsBy.branch {ctx₁ ctx₂ ctx₃ : Cctx} {v w : Value}
    (hA : EmitsBy c (arcEmit1 ctx .ijf v) ctx₁ h (some h) calls)
    (h₂ : ctx₂ = arcEmit1 ctx₁ .ijmp w)
    (hB : EmitsBy c (arcJmpoffset ctx₂ ctx.vcptr ctx₂.vcptr) ctx₃ h out calls')
    (hout : ∀ k, out = some k → k = h) :
    EmitsBy c ctx (arcJmpoffset ctx₃ ctx₁.vcptr ctx₃.vcptr) h (some h) (calls ++ calls') := by
  obtain ⟨A, hcodeA, hfA, hcallsA⟩ := hA.code
  obtain ⟨B, hcodeB, hfB, hcallsB⟩ := hB.code
  have hcode₂ : ctx₂.code = ctx.code ++ int2fix Inst.ijf.opcode :: v ::
      (words A ++ Instr.words ⟨.ijmp, [w]⟩) := by
    rw [h₂, arcEmit1_code, hcodeA, arcEmit1_code]
    simp [Instr.words]
  have hvcptr₂ : ctx₂.vcptr = ctx.vcptr + (2 + width Instr.size A + 2) := by
    rw [← ctx₂.code_length, hcode₂]
    simp [Instr.words]
    omega
  have hd : (ctx₂.vcptr : Int) - ctx.vcptr = (2 + width Instr.size A + 2 : Nat) := by
    rw [hvcptr₂]
    omega
  have hcode₃ : ctx₃.code = (ctx.code ++ Instr.words ⟨.ijf,
      [int2fix (2 + width Instr.size A + 2 : Nat)]⟩ ++ words A) ++
      int2fix Inst.ijmp.opcode :: w :: words B := by
    rw [hcodeB, arcJmpoffset, hd, Cctx.setVcode_code, hcode₂, ← ctx.code_length, set_operand]
    simp [Instr.words]
  have hlen : ctx₁.vcptr = (ctx.code ++ Instr.words ⟨.ijf,
      [int2fix (2 + width Instr.size A + 2 : Nat)]⟩ ++ words A).length := by
    rw [← ctx₁.code_length, hcodeA, arcEmit1_code]
    simp [Instr.words]
  have he : (ctx₃.vcptr : Int) - ctx₁.vcptr = (2 + width Instr.size B : Nat) := by
    rw [hlen, ← ctx₃.code_length, hcode₃]
    simp [Instr.words]
    omega
  have hlits : ctx₁.lptr ≤ ctx₃.lptr := by
    have hle := hB.lptr_le
    rw [h₂] at hle
    exact hle
  refine ⟨⟨(⟨.ijf, [int2fix (2 + width Instr.size A + 2 : Nat)]⟩, h) ::
    (A ++ (⟨.ijmp, [int2fix (2 + width Instr.size B : Nat)]⟩, h) :: B), ?_, ?_, ?_⟩, ?_⟩
  · rw [arcJmpoffset, he, Cctx.setVcode_code, hcode₃, hlen, set_operand]
    simp [Instr.words]
  · refine Fragment.branch ?_ ?_ (hfA.flow_mono (flow_mono hlits)) hfB hout
    · exact flow_ijf
    · exact flow_ijmp
  · intro p hp
    refine CallAt.append_left (A := [(_, h)]) ?_
    rcases List.mem_append.mp hp with hp | hp
    · exact (hcallsA p hp).append_right
    · refine CallAt.append_left (CallAt.append_left (A := [(_, h)]) ?_)
      have hat := hcallsB p hp
      change CallAt B ctx₂.vcptr p at hat
      rw [hvcptr₂] at hat
      convert hat using 1
      simp [Instr.size]
      omega
  · have hlitsA := hA.literals
    have hlitsB := hB.literals
    rw [h₂] at hlitsB
    exact hlitsA.trans hlitsB

/-- An environment instruction whose operands are stored after what follows it
has been emitted. -/
theorem EmitsBy.patchEnv {a b d v w x : Value} (hop : op = .ienv ∨ op = .ienvr)
    (hA : EmitsBy c (arcEmit3 ctx op v w x) ctx' 0 out calls) :
    EmitsBy c ctx (((ctx'.setVcode (ctx.vcptr + 1) a).setVcode (ctx.vcptr + 2) b).setVcode
      (ctx.vcptr + 3) d) 0 out calls := by
  obtain ⟨A, hcode, hf, hcalls⟩ := hA.code
  refine ⟨⟨[(⟨op, [a, b, d]⟩, 0)] ++ A, ?_, ?_, ?_⟩, hA.literals⟩
  · simp only [Cctx.setVcode_code, hcode, arcEmit3_code, ← ctx.code_length]
    simp [Instr.words, List.set_append_right]
  · refine Fragment.append (Fragment.next ?_) hf
    rcases hop with rfl | rfl <;> rfl
  · exact fun p hp => CallAt.append_left (hcalls p hp)

/-- A closed context makes a well formed code object. -/
theorem Emits.wellFormed (hc : Emits arcMkcctx ctx 0 none) : (arcCctx2code ctx).WellFormed := by
  obtain ⟨A, hcode, hf⟩ := hc.code
  have hcode : ctx.code = words A := by simpa [arcMkcctx, Cctx.code] using hcode
  refine ⟨A, ctx.literals, ?_, ?_, ?_⟩
  · rw [arcCctx2code, ← ctx.code_length, hcode]
  · rw [arcCctx2code, ← ctx.literals_length]
  · rw [ctx.literals_length]
    exact hf

end Patch

end Arcueid
