import Mathlib.Data.List.Basic
import Arcueid.Value

/-! Instructions, compilation contexts and code objects (`vmengine.h`,
`codegen.c`). Line numbers are left out. -/

namespace Arcueid

inductive Inst where
  | inop | ipush | ipop | ildl | ildi | ildg | istg | ilde | iste | icont | ienv | ienvr
  | iapply | iret | ijmp | ijt | ijf | ijbnd | itrue | inil | ihlt | iadd | isub | imul | idiv
  | icons | icar | icdr | iscar | iscdr | iis | idup | icls | iconsr | imenv | idcar | idcdr
  | ispl | ilde0 | iste0
  deriving DecidableEq

namespace Inst

def opcode : Inst → Nat
  | inop => 0 | ipush => 1 | ipop => 2 | ildl => 67 | ildi => 68 | ildg => 69 | istg => 70
  | ilde => 135 | iste => 136 | icont => 137 | ienv => 202 | ienvr => 203 | iapply => 76
  | iret => 13 | ijmp => 78 | ijt => 79 | ijf => 80 | ijbnd => 81 | itrue => 18 | inil => 19
  | ihlt => 20 | iadd => 21 | isub => 22 | imul => 23 | idiv => 24 | icons => 25 | icar => 26
  | icdr => 27 | iscar => 28 | iscdr => 29 | iis => 31 | idup => 34 | icls => 35 | iconsr => 36
  | imenv => 101 | idcar => 38 | idcdr => 39 | ispl => 40 | ilde0 => 105 | iste0 => 106

/-- The number of operands the virtual machine reads after the opcode. -/
def arity : Inst → Nat
  | ildl | ildi | ildg | istg | icont | iapply | ijmp | ijt | ijf | ijbnd | imenv | ilde0
  | iste0 => 1
  | ilde | iste => 2
  | ienv | ienvr => 3
  | _ => 0

/-- The instruction the virtual machine decodes from an opcode. -/
def ofOpcode : Nat → Option Inst
  | 0 => inop | 1 => ipush | 2 => ipop | 67 => ildl | 68 => ildi | 69 => ildg | 70 => istg
  | 135 => ilde | 136 => iste | 137 => icont | 202 => ienv | 203 => ienvr | 76 => iapply
  | 13 => iret | 78 => ijmp | 79 => ijt | 80 => ijf | 81 => ijbnd | 18 => itrue | 19 => inil
  | 20 => ihlt | 21 => iadd | 22 => isub | 23 => imul | 24 => idiv | 25 => icons | 26 => icar
  | 27 => icdr | 28 => iscar | 29 => iscdr | 31 => iis | 34 => idup | 35 => icls | 36 => iconsr
  | 101 => imenv | 38 => idcar | 39 => idcdr | 40 => ispl | 105 => ilde0 | 106 => iste0
  | _ => none

@[simp] theorem ofOpcode_opcode (i : Inst) : ofOpcode i.opcode = some i := by
  cases i <;> rfl

end Inst

/-- An instruction with its operands. -/
structure Instr where
  op : Inst
  args : List Value
  deriving DecidableEq

def int2fix (n : Int) : Value := .fixnum n

def Instr.words (i : Instr) : List Value := int2fix i.op.opcode :: i.args

def Instr.size (i : Instr) : Nat := 1 + i.args.length

theorem Instr.size_pos (i : Instr) : 0 < i.size := by
  rw [Instr.size]
  exact Nat.lt_add_right _ Nat.one_pos

/-- A compilation context. A vector that is not made yet has no words. Words
past `vcptr` mean nothing; literals past `lptr` are nil. -/
structure Cctx where
  vcptr : Nat
  vcode : List Value
  lptr : Nat
  lits : List Value
  vcptr_le : vcptr ≤ vcode.length
  vcode_size : vcode = [] ∨ 16 ≤ vcode.length
  lptr_le : lptr ≤ lits.length
  lits_size : lits = [] ∨ 16 ≤ lits.length
  lits_unused : ∀ v ∈ lits.drop lptr, v = .nil

def arcMkcctx : Cctx where
  vcptr := 0
  vcode := []
  lptr := 0
  lits := []
  vcptr_le := Nat.le_refl _
  vcode_size := .inl rfl
  lptr_le := Nat.le_refl _
  lits_size := .inl rfl
  lits_unused := by simp

/-- The first `ptr` words, in a vector twice as long. -/
def resize (ptr : Nat) (words : List Value) : List Value :=
  let size := if words = [] then 16 else 2 * words.length
  words.take ptr ++ List.replicate (size - ptr) .nil

theorem resize_length {ptr : Nat} {words : List Value} (hptr : ptr ≤ words.length) :
    (resize ptr words).length = if words = [] then 16 else 2 * words.length := by
  have hle : ptr ≤ if words = [] then 16 else 2 * words.length := by
    split
    · next h =>
      rw [h, List.length_nil] at hptr
      omega
    · omega
  simp only [resize, List.length_append, List.length_take, List.length_replicate,
    Nat.min_eq_left hptr]
  omega

/-- The vector when `n` more words have to fit. -/
def grow (ptr n : Nat) (words : List Value) : List Value :=
  if words = [] ∨ ptr + n > words.length then resize ptr words else words

section Grow

variable {ptr n : Nat} {words : List Value}

theorem grow_size (hptr : ptr ≤ words.length) (hsize : words = [] ∨ 16 ≤ words.length) :
    16 ≤ (grow ptr n words).length := by
  unfold grow
  split
  · rw [resize_length hptr]
    split <;> grind
  · grind

theorem grow_fits (hptr : ptr ≤ words.length) (hsize : words = [] ∨ 16 ≤ words.length)
    (hn : n ≤ 4) : ptr + n ≤ (grow ptr n words).length := by
  unfold grow
  split
  · rw [resize_length hptr]
    split
    · next h =>
      rw [h, List.length_nil] at hptr
      omega
    · grind
  · grind

theorem grow_take (hptr : ptr ≤ words.length) : (grow ptr n words).take ptr = words.take ptr := by
  unfold grow
  split
  · rw [resize, List.take_left' (by simp [hptr])]
  · rfl

theorem grow_drop_nil (hptr : ptr ≤ words.length) (hnil : ∀ v ∈ words.drop ptr, v = .nil) :
    ∀ v ∈ (grow ptr n words).drop ptr, v = .nil := by
  intro v hv
  unfold grow at hv
  split at hv
  · rw [resize, List.drop_left' (by simp [hptr])] at hv
    exact List.eq_of_mem_replicate hv
  · exact hnil v hv

end Grow

/-- Store words at `ptr`. -/
def store (ptr : Nat) (words ws : List Value) : List Value :=
  words.take ptr ++ ws ++ words.drop (ptr + ws.length)

section Store

variable {ptr : Nat} {words ws : List Value}

theorem store_length (hfits : ptr + ws.length ≤ words.length) :
    (store ptr words ws).length = words.length := by
  simp only [store, List.length_append, List.length_take, List.length_drop]
  omega

theorem store_take (hfits : ptr + ws.length ≤ words.length) :
    (store ptr words ws).take (ptr + ws.length) = words.take ptr ++ ws := by
  have hlen : (words.take ptr ++ ws).length = ptr + ws.length := by
    rw [List.length_append, List.length_take]
    omega
  rw [store, List.take_left' hlen]

theorem store_drop (hfits : ptr + ws.length ≤ words.length) :
    (store ptr words ws).drop (ptr + ws.length) = words.drop (ptr + ws.length) := by
  have hlen : (words.take ptr ++ ws).length = ptr + ws.length := by
    rw [List.length_append, List.length_take]
    omega
  rw [store, List.drop_left' hlen]

end Store

namespace Cctx

variable (ctx : Cctx)

/-- The words emitted so far. -/
def code : List Value := ctx.vcode.take ctx.vcptr

/-- The literals made so far. -/
def literals : List Value := ctx.lits.take ctx.lptr

@[simp] theorem code_length : ctx.code.length = ctx.vcptr := by
  rw [code, List.length_take, Nat.min_eq_left ctx.vcptr_le]

@[simp] theorem literals_length : ctx.literals.length = ctx.lptr := by
  rw [literals, List.length_take, Nat.min_eq_left ctx.lptr_le]

/-- Write at most four words at the end of the code. -/
def emitWords (ws : List Value) (hws : ws.length ≤ 4) : Cctx where
  vcptr := ctx.vcptr + ws.length
  vcode := store ctx.vcptr (grow ctx.vcptr ws.length ctx.vcode) ws
  lptr := ctx.lptr
  lits := ctx.lits
  vcptr_le := by
    have hfits := grow_fits ctx.vcptr_le ctx.vcode_size hws
    rwa [store_length hfits]
  vcode_size := by
    have hfits := grow_fits ctx.vcptr_le ctx.vcode_size hws
    rw [store_length hfits]
    exact .inr (grow_size ctx.vcptr_le ctx.vcode_size)
  lptr_le := ctx.lptr_le
  lits_size := ctx.lits_size
  lits_unused := ctx.lits_unused

theorem emitWords_code {ws : List Value} {hws : ws.length ≤ 4} :
    (ctx.emitWords ws hws).code = ctx.code ++ ws := by
  have hfits := grow_fits ctx.vcptr_le ctx.vcode_size hws
  change (store _ _ ws).take (ctx.vcptr + ws.length) = _
  rw [store_take hfits, grow_take ctx.vcptr_le, code]

end Cctx

def arcEmit (ctx : Cctx) (inst : Inst) : Cctx := ctx.emitWords [int2fix inst.opcode] (by simp)

def arcEmit1 (ctx : Cctx) (inst : Inst) (arg : Value) : Cctx :=
  ctx.emitWords [int2fix inst.opcode, arg] (by simp)

def arcEmit2 (ctx : Cctx) (inst : Inst) (arg1 arg2 : Value) : Cctx :=
  ctx.emitWords [int2fix inst.opcode, arg1, arg2] (by simp)

def arcEmit3 (ctx : Cctx) (inst : Inst) (arg1 arg2 arg3 : Value) : Cctx :=
  ctx.emitWords [int2fix inst.opcode, arg1, arg2, arg3] (by simp)

/-- Change the word at `i`. -/
def Cctx.setVcode (ctx : Cctx) (i : Nat) (v : Value) : Cctx :=
  { ctx with
    vcode := ctx.vcode.set i v
    vcptr_le := by
      rw [List.length_set]
      exact ctx.vcptr_le
    vcode_size := by
      rw [List.length_set, List.set_eq_nil_iff]
      exact ctx.vcode_size }

theorem Cctx.setVcode_code (ctx : Cctx) {i : Nat} {v : Value} :
    (ctx.setVcode i v).code = ctx.code.set i v := by
  change (ctx.vcode.set i v).take ctx.vcptr = (ctx.vcode.take ctx.vcptr).set i v
  rw [List.take_set]

/-- Patch a jump with the distance from it to its destination. -/
def arcJmpoffset (ctx : Cctx) (jmpinst destoffset : Nat) : Cctx :=
  ctx.setVcode (jmpinst + 1) (int2fix ((destoffset : Int) - jmpinst))

/-- Add a literal: the context and the literal's index. -/
def arcLiteral (ctx : Cctx) (literal : Value) : Cctx × Nat :=
  ({ ctx with
    lptr := ctx.lptr + 1
    lits := store ctx.lptr (grow ctx.lptr 1 ctx.lits) [literal]
    lptr_le := by
      have hfits : ctx.lptr + [literal].length ≤ (grow ctx.lptr 1 ctx.lits).length :=
        grow_fits ctx.lptr_le ctx.lits_size (by simp)
      rwa [store_length hfits]
    lits_size := by
      have hfits : ctx.lptr + [literal].length ≤ (grow ctx.lptr 1 ctx.lits).length :=
        grow_fits ctx.lptr_le ctx.lits_size (by simp)
      rw [store_length hfits]
      exact .inr (grow_size ctx.lptr_le ctx.lits_size)
    lits_unused := by
      have hfits : ctx.lptr + [literal].length ≤ (grow ctx.lptr 1 ctx.lits).length :=
        grow_fits ctx.lptr_le ctx.lits_size (by simp)
      have hdrop := store_drop hfits
      intro v hv
      rw [List.length_singleton] at hdrop
      rw [hdrop, ← List.drop_drop] at hv
      exact grow_drop_nil ctx.lptr_le ctx.lits_unused v (List.mem_of_mem_drop hv) }, ctx.lptr)

theorem arcLiteral_literals (ctx : Cctx) (literal : Value) :
    (arcLiteral ctx literal).1.literals = ctx.literals ++ [literal] := by
  have hfits : ctx.lptr + [literal].length ≤ (grow ctx.lptr 1 ctx.lits).length :=
    grow_fits ctx.lptr_le ctx.lits_size (by simp)
  change (store _ _ [literal]).take (ctx.lptr + [literal].length) = _
  rw [store_take hfits, grow_take ctx.lptr_le, Cctx.literals]

theorem arcLiteral_code (ctx : Cctx) (literal : Value) :
    (arcLiteral ctx literal).1.code = ctx.code := rfl

/-- A code object. -/
structure Code where
  code : List Value
  literals : List Value
  deriving DecidableEq

/-- The pointers are passed on as tagged integers, so the vectors of the code
object are `2 * n + 1` words long. -/
def arcCctx2code (ctx : Cctx) : Code where
  code := ctx.code ++ List.replicate (ctx.vcptr + 1) .nil
  literals := ctx.literals ++ List.replicate (ctx.lptr + 1) .nil

end Arcueid
