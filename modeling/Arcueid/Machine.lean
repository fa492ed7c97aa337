import Mathlib.Data.List.Basic
import Mathlib.Logic.Function.Basic
import Arcueid.Value

/-! A thread with its stack, its registers and the heap objects that frames and
continuations are moved to (`vmengine.h`, `env.c`, `cont.c`).

Stack slots are counted from `TSTOP`, the first slot pushed: slot `i` is
`*(TSTOP - i)`, `sp` is `TSTOP - TSP` and `tsfn` is `TSTOP - TSFN`. Loops over
linked environments and continuations take a step bound. -/

namespace Arcueid

/-- A continuation on the heap. -/
structure HeapCont where
  contOfs : Value
  contFun : Value
  contEnv : Value
  contArgc : Value
  contCont : Value
  contStk : Value
  deriving DecidableEq

inductive Obj where
  | vector (elems : List Value)
  | cont (k : HeapCont)
  deriving DecidableEq

structure Machine where
  slot : Nat → Value
  sp : Nat
  tsfn : Nat
  funr : Value
  envr : Value
  valr : Value
  conr : Value
  argc : Nat
  ip : Nat
  heap : List Obj
  genv : Sym → Value

/-- A new thread. -/
def arcMkthread (genv : Sym → Value) : Machine where
  slot := fun _ => .nil
  sp := 0
  tsfn := 0
  funr := .nil
  envr := .nil
  valr := .nil
  conr := .nil
  argc := 0
  ip := 0
  heap := []
  genv := genv

namespace Machine

variable (m : Machine)

def vec (a : Nat) : List Value :=
  match m.heap[a]? with
  | some (.vector xs) => xs
  | _ => []

def vindex (a i : Nat) : Value := (m.vec a).getD i .nil

def hcont (a : Nat) : HeapCont :=
  match m.heap[a]? with
  | some (.cont k) => k
  | _ => ⟨.nil, .nil, .nil, .nil, .nil, .nil⟩

/-- Allocate an object. -/
def alloc (o : Obj) : Machine := { m with heap := m.heap ++ [o] }

def setSlot (i : Nat) (v : Value) : Machine := { m with slot := Function.update m.slot i v }

def setObj (a : Nat) (o : Obj) : Machine := { m with heap := m.heap.set a o }

def setVindex (a i : Nat) (v : Value) : Machine := m.setObj a (.vector ((m.vec a).set i v))

def cpush (v : Value) : Machine := { m.setSlot m.sp v with sp := m.sp + 1 }

/-- The value `CPOP` yields. -/
def top : Value := m.slot (m.sp - 1)

def drop : Machine := { m with sp := m.sp - 1 }

def pushAll (vs : List Value) : Machine := vs.foldl cpush m

end Machine

section Push

variable {m : Machine} {vs : List Value} {v : Value} {i : Nat}

theorem pushAll_cons : m.pushAll (v :: vs) = (m.cpush v).pushAll vs := rfl

theorem pushAll_frame :
    m.pushAll vs = { m with slot := (m.pushAll vs).slot, sp := m.sp + vs.length } := by
  induction vs generalizing m with
  | nil => rfl
  | cons v vs ih =>
    rw [pushAll_cons, ih, List.length_cons, Machine.cpush, Machine.setSlot]
    simp only [Nat.add_comm vs.length 1, Nat.add_assoc]

theorem pushAll_slot_lt (hi : i < m.sp) : (m.pushAll vs).slot i = m.slot i := by
  induction vs generalizing m with
  | nil => rfl
  | cons v vs ih =>
    rw [pushAll_cons, ih (Nat.lt_succ_of_lt hi)]
    exact Function.update_of_ne (Nat.ne_of_lt hi) _ _

theorem pushAll_slot_add (hi : i < vs.length) :
    (m.pushAll vs).slot (m.sp + i) = vs[i] := by
  induction vs generalizing m i with
  | nil => simp at hi
  | cons v vs ih =>
    cases i with
    | zero =>
      rw [pushAll_cons, pushAll_slot_lt (Nat.lt_succ_self _)]
      exact Function.update_self _ _ _
    | succ i =>
      have hstep := ih (m := m.cpush v) (Nat.lt_of_succ_lt_succ hi)
      rw [pushAll_cons, ← Nat.add_assoc, Nat.add_right_comm]
      exact hstep

@[simp] theorem pushAll_heap : (m.pushAll vs).heap = m.heap := by rw [pushAll_frame]

@[simp] theorem pushAll_sp : (m.pushAll vs).sp = m.sp + vs.length := by rw [pushAll_frame]

end Push

section Environments

variable (m : Machine)

/-- Make a frame of the topmost `prevsize` values and `extrasize` unbound ones. -/
def arcMkenv (prevsize extrasize : Nat) : Machine :=
  let m' := (m.pushAll (List.replicate extrasize .unbound)).cpush
    (.fixnum (prevsize + extrasize : Nat))
  let esofs := m'.sp
  let m' := m'.cpush m.envr
  { m' with tsfn := m'.sp, envr := .env esofs }

def nextenv : Value → Value
  | .vector a => m.vindex a 0
  | .env e => m.slot e
  | _ => .nil

/-- The count word of a stack frame. -/
def senvCount (e : Nat) : Nat := (fix2int (m.slot (e - 1))).toNat

/-- The slot of the first variable of a stack frame. -/
def senvStart (e : Nat) : Nat := e - 1 - senvCount m e

/-- A place `envval` can point to. -/
inductive Place where
  | stack (i : Nat)
  | heap (a i : Nat)

def envAt (env : Value) (depth : Nat) : Value := (nextenv m)^[depth] env

def envval (depth index : Nat) : Option Place :=
  match envAt m m.envr depth with
  | .vector a => some (.heap a (index + 1))
  | .env e => some (.stack (senvStart m e + index))
  | _ => none

def Machine.read : Place → Value
  | .stack i => m.slot i
  | .heap a i => m.vindex a i

def Machine.write (p : Place) (v : Value) : Machine :=
  match p with
  | .stack i => m.setSlot i v
  | .heap a i => m.setVindex a i v

def arcGetenv (depth index : Nat) : Option Value := (envval m depth index).map m.read

def arcPutenv (depth index : Nat) (v : Value) : Option Machine :=
  (envval m depth index).map fun p => m.write p v

/-- Move the topmost `n` values over the current frame if it is on the stack,
and leave the frame. -/
def arcMenv (n : Nat) : Machine :=
  match m.envr with
  | .nil => m
  | .env e =>
    let dest := senvStart m e
    { m with
      slot := fun i => if dest ≤ i ∧ i < dest + n then m.slot (m.sp - n + (i - dest)) else m.slot i
      sp := dest + n
      envr := nextenv m m.envr }
  | _ => { m with envr := nextenv m m.envr }

end Environments

section Continuations

variable (m : Machine)

/-- Save the registers on the stack: the machine and the new continuation. -/
def arcMkcont (offset : Nat) : Machine × Value :=
  let m' := m.pushAll
    [.fixnum m.tsfn, .fixnum offset, m.envr, m.funr, .fixnum m.argc, m.conr]
  (m', .fixnum m'.sp)

def stackCont (c i : Nat) : Value := m.slot (c - i)

def arcRestorecont : Value → Machine
  | .fixnum c =>
    let c := c.toNat
    { m with
      sp := c - 6
      conr := stackCont m c 1
      argc := (fix2int (stackCont m c 2)).toNat
      funr := stackCont m c 3
      envr := stackCont m c 4
      ip := (fix2int (stackCont m c 5)).toNat
      tsfn := (fix2int (stackCont m c 6)).toNat }
  | .cont a =>
    let k := m.hcont a
    let stk := match k.contStk with
      | .vector b => m.vec b
      | _ => []
    { m.pushAll stk with
      funr := k.contFun
      envr := k.contEnv
      argc := (fix2int k.contArgc).toNat
      conr := k.contCont
      tsfn := m.sp
      ip := (fix2int k.contOfs).toNat }
  | _ => m

def nextcont : Value → Value
  | .fixnum c => stackCont m c.toNat 1
  | .cont a => (m.hcont a).contCont
  | _ => .nil

/-- The environment a continuation saves. -/
def contenv : Value → Value
  | .fixnum c => stackCont m c.toNat 4
  | .cont a => (m.hcont a).contEnv
  | _ => .nil

def setContenv : Value → Value → Machine
  | .fixnum c, env => m.setSlot (c.toNat - 4) env
  | .cont a, env => m.setObj a (.cont { m.hcont a with contEnv := env })
  | _, _ => m

end Continuations

/-- The loop of `__arc_update_cont_envs` from one continuation on. -/
def updateContEnvsFrom (oldenv nenv : Value) : Nat → Machine → Value → Option Machine
  | 0, _, _ => none
  | _ + 1, m, .nil => some m
  | fuel + 1, m, cont =>
    let m' := if contenv m cont = oldenv then setContenv m cont nenv else m
    updateContEnvsFrom oldenv nenv fuel m' (nextcont m' cont)

def arcUpdateContEnvs (fuel : Nat) (m : Machine) (oldenv nenv : Value) : Option Machine :=
  updateContEnvsFrom oldenv nenv fuel m m.conr

/-- Copy one stack frame to a vector. -/
def heapEnv (m : Machine) (e : Nat) : Machine × Value :=
  (m.alloc (.vector (m.slot e ::
    (List.range (senvCount m e)).map fun i => m.slot (senvStart m e + i))),
    .vector m.heap.length)

/-- The loop of `__arc_env2heap`: the machine, and what the first frame became. -/
def arcEnv2heap (fuel : Nat) : Nat → Machine → Value → Option (Machine × Value)
  | 0, _, _ => none
  | _ + 1, m, .nil => some (m, .nil)
  | n + 1, m, oldenv => do
    let (m, nenv) := match oldenv with
      | .env e => heapEnv m e
      | _ => (m, oldenv)
    let m ← arcUpdateContEnvs fuel m oldenv nenv
    let (m, _) ← arcEnv2heap fuel n m (nextenv m nenv)
    return (m, nenv)

/-- `arc_mkvector` of a length below -1 does not return: the size it asks for
wraps around. -/
def arcMkvector (m : Machine) (length : Int) (elem : Nat → Value) : Option (Machine × Value) :=
  if length < -1 then none
  else some (m.alloc (.vector ((List.range length.toNat).map elem)), .vector m.heap.length)

/-- Move one continuation to the heap. -/
def heapCont (fuel : Nat) (m : Machine) : Value → Option (Machine × Value)
  | .fixnum c => do
    let c := c.toNat
    let ncont := m.heap.length
    let k : HeapCont := ⟨.nil, stackCont m c 3, .nil, stackCont m c 2, stackCont m c 1, .nil⟩
    let (m, env) ← arcEnv2heap fuel fuel (m.alloc (.cont k)) (stackCont m c 4)
    let m := if m.envr = stackCont m c 4 then { m with envr := env } else m
    let ofs := stackCont m c 5
    let tsfn := fix2int (stackCont m c 6)
    let (m, stk) ← arcMkvector m (c - 6 - tsfn) fun i => m.slot (tsfn.toNat + i)
    return (m.setObj ncont (.cont { k with contEnv := env, contOfs := ofs, contStk := stk }),
      .cont ncont)
  | cont => some (m, cont)

/-- The loop of `__arc_cont2heap`, linking each moved continuation to the next;
the value is the first one moved. -/
def arcCont2heap (fuel : Nat) : Nat → Machine → Value → Value → Option (Machine × Value)
  | 0, _, _, _ => none
  | _ + 1, m, _, .nil => some (m, .nil)
  | n + 1, m, oldcont, cont => do
    let (m, cont) ← heapCont fuel m cont
    let m := match oldcont with
      | .cont a => m.setObj a (.cont { m.hcont a with contCont := cont })
      | _ => m
    let (m, _) ← arcCont2heap fuel n m cont (nextcont m cont)
    return (m, cont)

end Arcueid
