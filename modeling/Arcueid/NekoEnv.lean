import Mathlib.Data.List.Basic

/-! Environments of nekoarc on the stack and on the heap (`VirtualMachine.java`,
`HeapEnv.java`). -/

namespace Arcueid.Neko

inductive ArcObject where
  | nil
  | null
  | unbound
  | fixnum (fixnum : Int)
  | heapEnv (a : Nat)
  | atom (n : Nat)
  deriving DecidableEq

inductive Failure where
  | nekoArc (message : String)
  | arrayIndexOutOfBounds
  | classCast
  | negativeArraySize
  | stackOverflow
  deriving DecidableEq

structure HeapEnv where
  vec : List ArcObject
  prev : ArcObject

def HeapEnv.getEnv (e : HeapEnv) (index : Int) : Except Failure ArcObject :=
  if index < 0 then throw .arrayIndexOutOfBounds
  else (e.vec[index.toNat]?).elim (throw .arrayIndexOutOfBounds) pure

def HeapEnv.setEnv (e : HeapEnv) (index : Int) (value : ArcObject) : Except Failure HeapEnv :=
  if index < 0 ∨ (e.vec.length : Int) ≤ index then throw .arrayIndexOutOfBounds
  else pure { e with vec := e.vec.set index.toNat value }

structure VirtualMachine where
  stack : List ArcObject
  sp : Nat
  bp : Nat
  env : ArcObject
  heap : List HeapEnv

namespace VirtualMachine

variable (vm : VirtualMachine)

def stackIndex (index : Int) : Except Failure ArcObject :=
  if index < 0 then throw .arrayIndexOutOfBounds
  else (vm.stack[index.toNat]?).elim (throw .arrayIndexOutOfBounds) pure

def setStackIndex (index : Int) (value : ArcObject) : Except Failure VirtualMachine :=
  if index < 0 ∨ (vm.stack.length : Int) ≤ index then throw .arrayIndexOutOfBounds
  else pure { vm with stack := vm.stack.set index.toNat value }

/-- `((Fixnum)stackIndex(index)).fixnum`. -/
def fixnumAt (index : Int) : Except Failure Int := do
  match ← vm.stackIndex index with
  | .fixnum n => pure n
  | _ => throw .classCast

def heapAt (a : Nat) : Except Failure HeapEnv := (vm.heap[a]?).elim (throw .classCast) pure

/-- `push`, where the stack is not full. -/
def push (obj : ArcObject) : Except Failure VirtualMachine := do
  let vm ← vm.setStackIndex vm.sp obj
  return { vm with sp := vm.sp + 1 }

/-- `new HeapEnv(size, prev)` with its elements. -/
def alloc (vec : List ArcObject) (prev : ArcObject) : ArcObject × VirtualMachine :=
  (.heapEnv vm.heap.length, { vm with heap := vm.heap ++ [⟨vec, prev⟩] })

/-- `HeapEnv.fromStackEnv`, with a bound on the depth of the calls. -/
def fromStackEnv : Nat → VirtualMachine → ArcObject → Except Failure (ArcObject × VirtualMachine)
  | _, vm, .heapEnv a => pure (.heapEnv a, vm)
  | _, vm, .nil => pure (.nil, vm)
  | 0, _, _ => throw .stackOverflow
  | fuel + 1, vm, .fixnum si => do
    let start ← vm.fixnumAt si
    let size ← vm.fixnumAt (si + 1)
    let penv ← vm.stackIndex (si + 2)
    let (penv, vm) ← fromStackEnv fuel vm penv
    if size < 0 then throw .negativeArraySize
    else
      let vec ← (List.range size.toNat).mapM fun i : Nat => vm.stackIndex (start + i)
      return vm.alloc vec penv
  | _ + 1, _, _ => throw .classCast

/-- The depth is at most that of the stack: every stack frame is behind its parent. -/
def envFuel : Nat := vm.stack.length + 1

def mkheapenv (prevsize extrasize : Nat) : Except Failure VirtualMachine := do
  let (env, vm) ← fromStackEnv vm.envFuel vm vm.env
  let vm := { vm with env := env }
  let envstart : Int := vm.sp - prevsize
  let vec ← (List.range prevsize).mapM fun i : Nat => vm.stackIndex (envstart + i)
  let (nenv, vm) := vm.alloc (vec ++ List.replicate extrasize .unbound) vm.env
  return { vm with bp := vm.sp, env := nenv }

/-- `mkenv`. The sizes are bytes of the code, so their sums do not wrap. -/
def mkenv (prevsize extrasize : Nat) : Except Failure VirtualMachine :=
  if vm.stack.length < vm.sp + extrasize + 3 then vm.mkheapenv prevsize extrasize
  else do
    let vm ← (List.replicate extrasize ArcObject.unbound).foldlM push vm
    let count := prevsize + extrasize
    let envstart : Int := vm.sp - count
    let envptr := vm.sp
    let vm ← vm.push (.fixnum envstart)
    let vm ← vm.push (.fixnum count)
    let vm ← vm.push vm.env
    return { vm with env := .fixnum envptr, bp := vm.sp }

def heapenv : Except Failure VirtualMachine := do
  let (env, vm) ← fromStackEnv vm.envFuel vm vm.env
  return { vm with env := env }

/-- The body of the loop of `findenv`. -/
def prevEnv : ArcObject → Except Failure ArcObject
  | .fixnum index => vm.stackIndex (index + 2)
  | .heapEnv a => do return (← vm.heapAt a).prev
  | _ => throw .classCast

def findenvFrom : Nat → ArcObject → Except Failure ArcObject
  | 0, cenv => pure cenv
  | _ + 1, .nil => pure .nil
  | depth + 1, cenv => do findenvFrom depth (← vm.prevEnv cenv)

def findenv (depth : Int) : Except Failure ArcObject := vm.findenvFrom depth.toNat vm.env

/-- The place of a variable in the stack frame at `si`. -/
def stackPlace (si index : Int) : Except Failure Int := do
  let start ← vm.fixnumAt si
  let size ← vm.fixnumAt (si + 1)
  if size < index then throw (.nekoArc "stack environment index exceeded")
  else return start + index

def getenv (depth index : Int) : Except Failure ArcObject := do
  match ← vm.findenv depth with
  | .nil => throw (.nekoArc "environment depth exceeded")
  | .fixnum si => vm.stackIndex (← vm.stackPlace si index)
  | .heapEnv a => (← vm.heapAt a).getEnv index
  | _ => throw .classCast

def setenv (depth index : Int) (value : ArcObject) : Except Failure (ArcObject × VirtualMachine) := do
  match ← vm.findenv depth with
  | .nil => throw (.nekoArc "environment depth exceeded")
  | .fixnum si => return (value, ← vm.setStackIndex (← vm.stackPlace si index) value)
  | .heapEnv a => do
    let e ← (← vm.heapAt a).setEnv index value
    return (value, { vm with heap := vm.heap.set a e })
  | _ => throw .classCast

end VirtualMachine

inductive EnvCall where
  | getenv (depth index : Int)
  | setenv (depth index : Int) (value : ArcObject)

def EnvCall.depth : EnvCall → Int
  | .getenv depth _ => depth
  | .setenv depth _ _ => depth

def EnvCall.index : EnvCall → Int
  | .getenv _ index => index
  | .setenv _ index _ => index

/-- The result of a call, none for an error, and the machine after it. -/
def VirtualMachine.call (vm : VirtualMachine) : EnvCall → Option ArcObject × VirtualMachine
  | .getenv depth index => ((vm.getenv depth index).toOption, vm)
  | .setenv depth index value =>
    match vm.setenv depth index value with
    | .ok (r, vm') => (some r, vm')
    | .error _ => (none, vm)

def VirtualMachine.calls (vm : VirtualMachine) : List EnvCall → List (Option ArcObject) × VirtualMachine
  | [] => ([], vm)
  | c :: cs =>
    let (r, vm) := vm.call c
    let (rs, vm) := vm.calls cs
    (r :: rs, vm)

/-- The environment as lists of variables, the innermost frame first. -/
abbrev Frames := List (List ArcObject)

namespace Frames

def lookup (fs : Frames) (depth index : Int) : Option ArcObject :=
  if index < 0 then none else (fs[depth.toNat]?).bind fun f => f[index.toNat]?

def update (fs : Frames) (depth index : Int) (value : ArcObject) : Frames :=
  fs.modify depth.toNat fun f => f.set index.toNat value

/-- What a call is to do: an error outside the chain or outside the frame. -/
def call (fs : Frames) : EnvCall → Option ArcObject × Frames
  | .getenv depth index => (fs.lookup depth index, fs)
  | .setenv depth index value =>
    if (fs.lookup depth index).isSome then (some value, fs.update depth index value) else (none, fs)

def calls (fs : Frames) : List EnvCall → List (Option ArcObject)
  | [] => []
  | c :: cs => (fs.call c).1 :: calls (fs.call c).2 cs

end Frames

/-- Where the variables of a frame are. -/
inductive Block where
  | stack (start size : Nat)
  | heap (a : Nat)

def VirtualMachine.vals (vm : VirtualMachine) : Block → List ArcObject
  | .stack start size => (vm.stack.drop start).take size
  | .heap a => (vm.heap[a]?).elim [] HeapEnv.vec

/-- The blocks of an environment. Each lies below the one further in: on the stack
below `top`, on the heap before `limit`. -/
inductive Chain (vm : VirtualMachine) : Nat → Nat → ArcObject → List Block → Prop
  | nil {top limit : Nat} : Chain vm top limit .nil []
  | stack {top limit si start size : Nat} {penv : ArcObject} {bs : List Block} :
    vm.stack[si]? = some (.fixnum start) → vm.stack[si + 1]? = some (.fixnum size) →
    vm.stack[si + 2]? = some penv → start + size ≤ si → si + 3 ≤ top →
    Chain vm start limit penv bs → Chain vm top limit (.fixnum si) (.stack start size :: bs)
  | heap {top limit a : Nat} {e : HeapEnv} {bs : List Block} :
    vm.heap[a]? = some e → a < limit → Chain vm 0 a e.prev bs →
    Chain vm top limit (.heapEnv a) (.heap a :: bs)

/-- The arguments of a new frame are on the stack above the frames of the environment. -/
structure Ready (vm : VirtualMachine) (prevsize : Nat) (bs : List Block) : Prop where
  args : prevsize ≤ vm.sp
  sp : vm.sp ≤ vm.stack.length
  chain : Chain vm (vm.sp - prevsize) vm.heap.length vm.env bs

/-- The frames once a new one is made. -/
def newFrames (vm : VirtualMachine) (prevsize extrasize : Nat) (bs : List Block) : Frames :=
  (vm.vals (.stack (vm.sp - prevsize) prevsize) ++ List.replicate extrasize .unbound) :: bs.map vm.vals

/-- The blocks once a new frame is made on the stack. -/
def stackBlocks (vm : VirtualMachine) (prevsize extrasize : Nat) (bs : List Block) : List Block :=
  .stack (vm.sp - prevsize) (prevsize + extrasize) :: bs

/-- Slots of the stack that are no variables of the blocks. -/
def Elsewhere (bs : List Block) (j : Nat) : Prop :=
  ∀ start size, Block.stack start size ∈ bs → j < start ∨ start + size ≤ j

/-- The calls give the results they are to give, and change no slot of the stack
but variables of the blocks. -/
structure Serves (vm : VirtualMachine) (fs : Frames) (bs : List Block) (cs : List EnvCall) : Prop where
  results : (vm.calls cs).1 = fs.calls cs
  stack : ∀ j, Elsewhere bs j → (vm.calls cs).2.stack[j]? = vm.stack[j]?

/-- The new frame on the stack, the one on the heap and the copy of the former
serve the calls alike. -/
def Interchangeable (vm : VirtualMachine) (prevsize extrasize : Nat) (bs : List Block)
    (cs : List EnvCall) : Prop :=
  ∃ vms vmh vmc, vm.mkenv prevsize extrasize = .ok vms ∧ vm.mkheapenv prevsize extrasize = .ok vmh ∧
    vms.heapenv = .ok vmc ∧
    Serves vms (newFrames vm prevsize extrasize bs) (stackBlocks vm prevsize extrasize bs) cs ∧
    Serves vmh (newFrames vm prevsize extrasize bs) [] cs ∧
    Serves vmc (newFrames vm prevsize extrasize bs) [] cs

/-- A call for a slot of the stack next to a frame: right behind its variables, or
before them. -/
def Stray (bs : List Block) (c : EnvCall) : Prop :=
  ∃ start size, bs[c.depth.toNat]? = some (.stack start size) ∧
    (c.index = size ∨ c.index < 0 ∧ 0 ≤ start + c.index)

end Arcueid.Neko
