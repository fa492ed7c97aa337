import Arcueid.NekoEnv

/-! Stack frames and heap frames of nekoarc serve the same calls. -/

namespace Arcueid.Neko

variable {vm vm' : VirtualMachine} {top limit fuel : Nat} {env cenv v : ArcObject}
  {bs : List Block} {cs : List EnvCall} {c : EnvCall}

section Access

theorem stackIndex_ok {j : Nat} (h : vm.stack[j]? = some v) : vm.stackIndex j = .ok v := by
  rw [VirtualMachine.stackIndex, if_neg (by omega), Int.toNat_natCast, h]
  rfl

theorem fixnumAt_ok {j : Nat} {n : Int} (h : vm.stack[j]? = some (.fixnum n)) :
    vm.fixnumAt j = .ok n := by
  rw [VirtualMachine.fixnumAt, stackIndex_ok h]
  rfl

theorem stack_lt {j : Nat} (h : vm.stack[j]? = some v) : j < vm.stack.length :=
  (List.getElem?_eq_some_iff.mp h).1

theorem vals_stack_getElem? (start size i : Nat) :
    (vm.vals (.stack start size))[i]? = if i < size then vm.stack[start + i]? else none := by
  simp [VirtualMachine.vals, List.getElem?_take, List.getElem?_drop]

theorem vals_stack_length {start size : Nat} (h : start + size ≤ vm.stack.length) :
    (vm.vals (.stack start size)).length = size := by
  simp only [VirtualMachine.vals, List.length_take, List.length_drop]
  omega

theorem vals_heap {a : Nat} {e : HeapEnv} (h : vm.heap[a]? = some e) : vm.vals (.heap a) = e.vec := by
  rw [VirtualMachine.vals, h]
  rfl

theorem vals_stack_congr {start size : Nat} (h : ∀ j, j < start + size → vm'.stack[j]? = vm.stack[j]?) :
    vm'.vals (.stack start size) = vm.vals (.stack start size) := by
  apply List.ext_getElem?
  intro i
  rw [vals_stack_getElem?, vals_stack_getElem?]
  by_cases hi : i < size
  · rw [if_pos hi, if_pos hi, h (start + i) (by omega)]
  · rw [if_neg hi, if_neg hi]

theorem mapM_ok {α β : Type} {f : α → Except Failure β} {g : α → β} {l : List α}
    (h : ∀ x ∈ l, f x = .ok (g x)) : l.mapM f = .ok (l.map g) := by
  induction l with
  | nil => rfl
  | cons x xs ih =>
    have hx : f x = .ok (g x) := h x List.mem_cons_self
    have hxs := ih fun y hy => h y (List.mem_cons_of_mem x hy)
    rw [List.mapM_cons, hx, hxs]
    rfl

/-- The loop that copies variables from the stack. -/
theorem copy_ok {start size : Nat} (h : start + size ≤ vm.stack.length) :
    ((List.range size).mapM fun i : Nat => vm.stackIndex ((start : Int) + i)) =
      .ok (vm.vals (.stack start size)) := by
  have hread : ∀ i ∈ List.range size, vm.stackIndex ((start : Int) + i) =
      .ok ((vm.stack[start + i]?).getD .null) := by
    intro i hi
    have hlt : start + i < vm.stack.length := by
      have hsize := List.mem_range.mp hi
      omega
    have hget : vm.stack[start + i]? = some vm.stack[start + i] := List.getElem?_eq_getElem hlt
    have hcast : (start : Int) + i = (start + i : Nat) := by omega
    rw [hcast, stackIndex_ok hget, hget]
    rfl
  rw [mapM_ok hread]
  congr 1
  apply List.ext_getElem?
  intro i
  rw [vals_stack_getElem?, List.getElem?_map]
  by_cases hi : i < size
  · have hget : vm.stack[start + i]? = some vm.stack[start + i] := List.getElem?_eq_getElem (by omega)
    rw [if_pos hi, List.getElem?_range hi, Option.map_some, hget, Option.getD_some]
  · have hnone : (List.range size)[i]? = none := List.getElem?_eq_none (by simp; omega)
    rw [if_neg hi, hnone]
    rfl

end Access

section Chains

/-- A chain depends on the stack below its top and the heap before its limit only. -/
theorem Chain.congr (h : Chain vm top limit env bs) (vm' : VirtualMachine)
    (hstack : ∀ j, j < top → vm'.stack[j]? = vm.stack[j]?)
    (hheap : ∀ a, a < limit → vm'.heap[a]? = vm.heap[a]?) :
    Chain vm' top limit env bs ∧ bs.map vm'.vals = bs.map vm.vals := by
  induction h with
  | nil => exact ⟨.nil, rfl⟩
  | @stack top limit si start size penv bs hstart hsize hprev hfit htop hrest ih =>
    obtain ⟨hchain, hvals⟩ := ih (fun j hj => hstack j (by omega)) hheap
    have hsame : vm'.vals (.stack start size) = vm.vals (.stack start size) :=
      vals_stack_congr fun j hj => hstack j (by omega)
    refine ⟨.stack ?_ ?_ ?_ hfit htop hchain, ?_⟩
    · rw [hstack _ (by omega), hstart]
    · rw [hstack _ (by omega), hsize]
    · rw [hstack _ (by omega), hprev]
    · rw [List.map_cons, List.map_cons, hsame, hvals]
  | @heap top limit a e bs he ha hrest ih =>
    obtain ⟨hchain, hvals⟩ := ih (fun j hj => by omega) fun b hb => hheap b (by omega)
    have hsame : vm'.heap[a]? = some e := by rw [hheap a ha, he]
    exact ⟨.heap hsame ha hchain, by
      rw [List.map_cons, List.map_cons, hvals, vals_heap he, vals_heap hsame]⟩

theorem Chain.mono {top' limit' : Nat} (h : Chain vm top limit env bs) (ht : top ≤ top')
    (hl : limit ≤ limit') : Chain vm top' limit' env bs := by
  induction h generalizing top' limit' with
  | nil => exact .nil
  | stack hstart hsize hprev hfit htop hrest ih =>
    exact .stack hstart hsize hprev hfit (by omega) (ih (Nat.le_refl _) hl)
  | heap he ha hrest ih => exact .heap he (by omega) hrest

theorem Chain.stack_le {n start size : Nat} (h : Chain vm top limit env bs)
    (hb : bs[n]? = some (.stack start size)) : start + size ≤ top ∧ (0 < size → start + size < top) := by
  induction h generalizing n with
  | nil => cases hb
  | @stack top limit si start' size' penv bs hstart hsize hprev hfit htop hrest ih =>
    cases n with
    | zero =>
      cases hb
      omega
    | succ n =>
      have hrest' := ih hb
      omega
  | @heap top limit a e bs he ha hrest ih =>
    cases n with
    | zero => cases hb
    | succ n =>
      have hrest' := ih hb
      omega

theorem Chain.heap_lt {n a : Nat} (h : Chain vm top limit env bs) (hb : bs[n]? = some (.heap a)) :
    a < limit := by
  induction h generalizing n with
  | nil => cases hb
  | stack hstart hsize hprev hfit htop hrest ih =>
    cases n with
    | zero => cases hb
    | succ n => exact ih hb
  | @heap top limit b e bs he ha hrest ih =>
    cases n with
    | zero =>
      cases hb
      exact ha
    | succ n =>
      have hrest' := ih hb
      omega

/-- A write to a variable on the stack changes that variable. -/
theorem Chain.write_stack {n start size i : Nat} (h : Chain vm top limit env bs)
    (hb : bs[n]? = some (.stack start size)) (hi : i < size)
    (hw : vm' = { vm with stack := vm.stack.set (start + i) v }) :
    Chain vm' top limit env bs ∧
      bs.map vm'.vals = (bs.map vm.vals).modify n fun f => f.set i v := by
  have hother : ∀ j, j ≠ start + i → vm'.stack[j]? = vm.stack[j]? := by
    intro j hj
    rw [hw]
    exact List.getElem?_set_ne hj.symm
  have hheap : vm'.heap = vm.heap := by rw [hw]
  induction h generalizing n with
  | nil => cases hb
  | @stack top limit si start' size' penv bs hstart hsize hprev hfit htop hrest ih =>
    cases n with
    | zero =>
      cases hb
      obtain ⟨hchain, hvals⟩ := hrest.congr _ (fun j hj => hother j (by omega))
        fun a ha => by rw [hheap]
      have hown : vm'.vals (.stack start size) = (vm.vals (.stack start size)).set i v := by
        apply List.ext_getElem?
        intro k
        have hslot : start + i < vm.stack.length := by
          have hlt := stack_lt hstart
          omega
        by_cases hk : i = k
        · subst hk
          have hlen : i < (vm.vals (.stack start size)).length := by
            rw [vals_stack_length (by have hlt := stack_lt hstart; omega)]
            exact hi
          rw [vals_stack_getElem?, if_pos hi, List.getElem?_set_self hlen, hw]
          exact List.getElem?_set_self hslot
        · rw [List.getElem?_set_ne hk, vals_stack_getElem?, vals_stack_getElem?,
            hother _ (by omega)]
      refine ⟨.stack ?_ ?_ ?_ hfit htop hchain, ?_⟩
      · rw [hother _ (by omega), hstart]
      · rw [hother _ (by omega), hsize]
      · rw [hother _ (by omega), hprev]
      · rw [List.map_cons, List.map_cons, List.modify_zero_cons, hown, hvals]
    | succ n =>
      obtain ⟨hchain, hvals⟩ := ih hb
      have hbelow := hrest.stack_le hb
      have hown : vm'.vals (.stack start' size') = vm.vals (.stack start' size') := by
        apply List.ext_getElem?
        intro k
        rw [vals_stack_getElem?, vals_stack_getElem?, hother _ (by omega)]
      refine ⟨.stack ?_ ?_ ?_ hfit htop hchain, ?_⟩
      · rw [hother _ (by omega), hstart]
      · rw [hother _ (by omega), hsize]
      · rw [hother _ (by omega), hprev]
      · rw [List.map_cons, List.map_cons, List.modify_succ_cons, hown, hvals]
  | @heap top limit a e bs he ha hrest ih =>
    cases n with
    | zero => cases hb
    | succ n =>
      have hbelow := hrest.stack_le hb
      omega

/-- A write to a variable on the heap changes that variable. -/
theorem Chain.write_heap {n a i : Nat} {e : HeapEnv} (h : Chain vm top limit env bs)
    (hb : bs[n]? = some (.heap a)) (he : vm.heap[a]? = some e)
    (hw : vm' = { vm with heap := vm.heap.set a { e with vec := e.vec.set i v } }) :
    Chain vm' top limit env bs ∧
      bs.map vm'.vals = (bs.map vm.vals).modify n fun f => f.set i v := by
  have hother : ∀ b, b ≠ a → vm'.heap[b]? = vm.heap[b]? := by
    intro b hba
    rw [hw]
    exact List.getElem?_set_ne hba.symm
  have hstack : vm'.stack = vm.stack := by rw [hw]
  induction h generalizing n with
  | nil => cases hb
  | @stack top limit si start size penv bs hstart hsize hprev hfit htop hrest ih =>
    cases n with
    | zero => cases hb
    | succ n =>
      obtain ⟨hchain, hvals⟩ := ih hb
      have hown : vm'.vals (.stack start size) = vm.vals (.stack start size) :=
        vals_stack_congr fun j hj => by rw [hstack]
      refine ⟨.stack (hstack ▸ hstart) (hstack ▸ hsize) (hstack ▸ hprev) hfit htop hchain, ?_⟩
      rw [List.map_cons, List.map_cons, List.modify_succ_cons, hown, hvals]
  | @heap top limit b e' bs he' hlt hrest ih =>
    cases n with
    | zero =>
      cases hb
      obtain rfl := Option.some.inj (he'.symm.trans he)
      obtain ⟨hchain, hvals⟩ := hrest.congr _ (fun j hj => by omega)
        fun b hb => hother b (by omega)
      have hcell : vm'.heap[a]? = some { e' with vec := e'.vec.set i v } := by
        rw [hw]
        exact List.getElem?_set_self (List.getElem?_eq_some_iff.mp he).1
      refine ⟨.heap hcell hlt hchain, ?_⟩
      rw [List.map_cons, List.map_cons, List.modify_zero_cons, hvals, vals_heap hcell, vals_heap he]
    | succ n =>
      obtain ⟨hchain, hvals⟩ := ih hb
      have hbelow := hrest.heap_lt hb
      have hcell : vm'.heap[b]? = some e' := by rw [hother b (by omega), he']
      refine ⟨.heap hcell hlt hchain, ?_⟩
      rw [List.map_cons, List.map_cons, List.modify_succ_cons, hvals, vals_heap hcell, vals_heap he']

end Chains

section Calls

/-- The environment that a walk of `n` steps finds. -/
theorem Chain.find (h : Chain vm top limit env bs) (n : Nat) : ∃ cenv top' limit',
    vm.findenvFrom n env = .ok cenv ∧ Chain vm top' limit' cenv (bs.drop n) := by
  induction n generalizing top limit env bs with
  | zero => exact ⟨env, top, limit, rfl, h⟩
  | succ n ih =>
    cases h with
    | nil => exact ⟨.nil, top, limit, rfl, .nil⟩
    | @stack _ _ si start size penv bs hstart hsize hprev hfit htop hrest =>
      obtain ⟨cenv, top', limit', hfind, hchain⟩ := ih hrest
      have hread : vm.prevEnv (.fixnum si) = .ok penv := stackIndex_ok hprev
      refine ⟨cenv, top', limit', ?_, hchain⟩
      rw [VirtualMachine.findenvFrom, hread]
      · exact hfind
      · intro hnil
        cases hnil
    | @heap _ _ a e bs he ha hrest =>
      obtain ⟨cenv, top', limit', hfind, hchain⟩ := ih hrest
      have hread : vm.prevEnv (.heapEnv a) = .ok e.prev := by
        rw [VirtualMachine.prevEnv, VirtualMachine.heapAt, he]
        rfl
      refine ⟨cenv, top', limit', ?_, hchain⟩
      rw [VirtualMachine.findenvFrom, hread]
      · exact hfind
      · intro hnil
        cases hnil

/-- Outside the chain. -/
theorem Chain.find_none {depth : Int} (h : Chain vm top limit vm.env bs)
    (hb : bs[depth.toNat]? = none) : vm.findenv depth = .ok .nil := by
  obtain ⟨cenv, top', limit', hfind, hchain⟩ := h.find depth.toNat
  rw [List.drop_eq_nil_of_le (List.getElem?_eq_none_iff.mp hb)] at hchain
  cases hchain
  exact hfind

theorem Chain.find_some {b : Block} {depth : Int} (h : Chain vm top limit vm.env bs)
    (hb : bs[depth.toNat]? = some b) : ∃ cenv top' limit' rest,
      vm.findenv depth = .ok cenv ∧ Chain vm top' limit' cenv (b :: rest) := by
  obtain ⟨cenv, top', limit', hfind, hchain⟩ := h.find depth.toNat
  obtain ⟨hlt, hget⟩ := List.getElem?_eq_some_iff.mp hb
  rw [List.drop_eq_getElem_cons hlt, hget] at hchain
  exact ⟨cenv, top', limit', _, hfind, hchain⟩

/-- A frame on the stack: where its variables are to be found. -/
theorem Chain.find_stack {start size : Nat} {depth : Int} (h : Chain vm top limit vm.env bs)
    (hb : bs[depth.toNat]? = some (.stack start size)) : start + size < vm.stack.length ∧
      ∃ si : Nat, vm.findenv depth = .ok (.fixnum si) ∧ ∀ index, vm.stackPlace si index =
        if size < index then .error (.nekoArc "stack environment index exceeded")
        else .ok (start + index) := by
  obtain ⟨cenv, top', limit', rest, hfind, hchain⟩ := h.find_some hb
  cases hchain with
  | @stack _ _ si _ _ penv _ hstart hsize hprev hfit htop hrest =>
    have hlt := stack_lt hstart
    refine ⟨by omega, si, hfind, fun index => ?_⟩
    have hcast : (si : Int) + 1 = (si + 1 : Nat) := rfl
    rw [VirtualMachine.stackPlace, fixnumAt_ok hstart, hcast, fixnumAt_ok hsize]
    rfl

theorem Chain.find_heap {a : Nat} {depth : Int} (h : Chain vm top limit vm.env bs)
    (hb : bs[depth.toNat]? = some (.heap a)) :
    vm.findenv depth = .ok (.heapEnv a) ∧ ∃ e, vm.heap[a]? = some e := by
  obtain ⟨cenv, top', limit', rest, hfind, hchain⟩ := h.find_some hb
  cases hchain with
  | heap he ha hrest => exact ⟨hfind, _, he⟩

variable {depth index : Int}

theorem Chain.getenv_outside (h : Chain vm top limit vm.env bs) (hb : bs[depth.toNat]? = none) :
    vm.getenv depth index = .error (.nekoArc "environment depth exceeded") ∧
      vm.setenv depth index v = .error (.nekoArc "environment depth exceeded") := by
  have hfind := h.find_none hb
  constructor
  · rw [VirtualMachine.getenv, hfind]
    rfl
  · rw [VirtualMachine.setenv, hfind]
    rfl

theorem Chain.getenv_stack {start size : Nat} (h : Chain vm top limit vm.env bs)
    (hb : bs[depth.toNat]? = some (.stack start size)) (index : Int) (value : ArcObject) :
    vm.getenv depth index =
        (if size < index then .error (.nekoArc "stack environment index exceeded")
        else vm.stackIndex (start + index)) ∧
      vm.setenv depth index value =
        if size < index then .error (.nekoArc "stack environment index exceeded")
        else (vm.setStackIndex (start + index) value).map fun vm' => (value, vm') := by
  obtain ⟨-, si, hfind, hplace⟩ := h.find_stack hb
  have hget : vm.getenv depth index = vm.stackPlace si index >>= vm.stackIndex := by
    rw [VirtualMachine.getenv, hfind]
    rfl
  have hset : vm.setenv depth index value = vm.stackPlace si index >>= fun p =>
      (vm.setStackIndex p value).map fun vm' => (value, vm') := by
    rw [VirtualMachine.setenv, hfind]
    rfl
  rw [hget, hset, hplace]
  by_cases hi : (size : Int) < index
  · simp only [if_pos hi]
    exact ⟨rfl, rfl⟩
  · simp only [if_neg hi]
    exact ⟨rfl, rfl⟩

theorem Chain.getenv_heap {a : Nat} (h : Chain vm top limit vm.env bs)
    (hb : bs[depth.toNat]? = some (.heap a)) : ∃ e, vm.heap[a]? = some e ∧
      ∀ index value, vm.getenv depth index = e.getEnv index ∧
        vm.setenv depth index value = (e.setEnv index value).map fun e =>
          (value, { vm with heap := vm.heap.set a e }) := by
  obtain ⟨hfind, e, he⟩ := h.find_heap hb
  have hat : vm.heapAt a = .ok e := by
    rw [VirtualMachine.heapAt, he]
    rfl
  refine ⟨e, he, fun index value => ⟨?_, ?_⟩⟩
  · rw [VirtualMachine.getenv, hfind]
    change (vm.heapAt a >>= fun e => e.getEnv index) = _
    rw [hat]
    rfl
  · rw [VirtualMachine.setenv, hfind]
    change (vm.heapAt a >>= fun e => e.setEnv index value >>= fun e =>
      pure (value, { vm with heap := vm.heap.set a e })) = _
    rw [hat]
    rfl

theorem stackIndex_neg (h : index < 0) : vm.stackIndex index = .error .arrayIndexOutOfBounds ∧
    vm.setStackIndex index v = .error .arrayIndexOutOfBounds :=
  ⟨if_pos h, if_pos (.inl h)⟩

theorem setStackIndex_ok {j : Nat} (h : j < vm.stack.length) :
    vm.setStackIndex j v = .ok { vm with stack := vm.stack.set j v } := by
  rw [VirtualMachine.setStackIndex, if_neg (by omega)]
  rfl

end Calls

section Runs

/-- What a call leaves: its result is the one it is to have, and so are the frames. -/
structure Served (vm vm' : VirtualMachine) (top limit : Nat) (bs : List Block) (c : EnvCall) : Prop where
  call : vm.call c = ((Frames.call (bs.map vm.vals) c).1, vm')
  chain : Chain vm' top limit vm'.env bs
  frames : bs.map vm'.vals = (Frames.call (bs.map vm.vals) c).2
  stack : ∀ j, Elsewhere bs j → vm'.stack[j]? = vm.stack[j]?

variable {depth index : Int} {value : ArcObject}

theorem lookup_eq (bs : List Block) (depth index : Int) :
    Frames.lookup (bs.map vm.vals) depth index =
      if index < 0 then none else (bs[depth.toNat]?).bind fun b => (vm.vals b)[index.toNat]? := by
  rw [Frames.lookup, List.getElem?_map, Option.bind_map]
  rfl

/-- A reading that fails, or finds the variable. -/
theorem Chain.served_getenv (h : Chain vm top limit vm.env bs)
    (heq : (vm.getenv depth index).toOption = Frames.lookup (bs.map vm.vals) depth index) :
    Served vm vm top limit bs (.getenv depth index) :=
  ⟨by rw [VirtualMachine.call, heq]; rfl, h, rfl, fun j hj => rfl⟩

theorem Chain.served_error {e : Failure} (h : Chain vm top limit vm.env bs)
    (hset : vm.setenv depth index value = .error e)
    (hnone : Frames.lookup (bs.map vm.vals) depth index = none) :
    Served vm vm top limit bs (.setenv depth index value) := by
  have hframes : Frames.call (bs.map vm.vals) (.setenv depth index value) =
      (none, bs.map vm.vals) := by
    rw [Frames.call, hnone]
    rfl
  have hcall : vm.call (.setenv depth index value) = (none, vm) := by
    rw [VirtualMachine.call, hset]
  exact ⟨by rw [hframes, hcall], h, by rw [hframes], fun j hj => rfl⟩

/-- A write to a variable. -/
theorem served_write {w : ArcObject} (hset : vm.setenv depth index value = .ok (value, vm'))
    (hlookup : Frames.lookup (bs.map vm.vals) depth index = some w)
    (hchain : Chain vm' top limit vm'.env bs)
    (hvals : bs.map vm'.vals = Frames.update (bs.map vm.vals) depth index value)
    (hstack : ∀ j, Elsewhere bs j → vm'.stack[j]? = vm.stack[j]?) :
    Served vm vm' top limit bs (.setenv depth index value) := by
  have hframes : Frames.call (bs.map vm.vals) (.setenv depth index value) =
      (some value, Frames.update (bs.map vm.vals) depth index value) := by
    rw [Frames.call, hlookup]
    rfl
  have hcall : vm.call (.setenv depth index value) = (some value, vm') := by
    rw [VirtualMachine.call, hset]
  exact ⟨by rw [hframes, hcall], hchain, by rw [hframes, hvals], hstack⟩

theorem Chain.served_outside (h : Chain vm top limit vm.env bs) (hb : bs[c.depth.toNat]? = none) :
    Served vm vm top limit bs c := by
  have hnone : Frames.lookup (bs.map vm.vals) c.depth c.index = none := by
    rw [lookup_eq, hb]
    exact ite_self _
  cases c with
  | getenv depth index =>
    have hb' : bs[depth.toNat]? = none := hb
    have hget : vm.getenv depth index = .error _ := (h.getenv_outside (v := .nil) hb').1
    refine h.served_getenv ?_
    rw [hget]
    exact hnone.symm
  | setenv depth index value => exact h.served_error (h.getenv_outside hb).2 hnone

theorem lookup_stack {start size : Nat} (hb : bs[depth.toNat]? = some (.stack start size)) :
    Frames.lookup (bs.map vm.vals) depth index =
      if index < 0 then none
      else if index.toNat < size then vm.stack[start + index.toNat]? else none := by
  rw [lookup_eq, hb]
  exact congrArg _ (vals_stack_getElem? start size index.toNat)

/-- Calls for no variable of a frame on the stack, and for no slot next to it. -/
theorem Chain.stack_error {start size : Nat} (h : Chain vm top limit vm.env bs)
    (hb : bs[depth.toNat]? = some (.stack start size))
    (hout : size < index ∨ index < 0 ∧ start + index < 0) :
    Frames.lookup (bs.map vm.vals) depth index = none ∧
      (∃ e, vm.getenv depth index = .error e) ∧ ∃ e, vm.setenv depth index v = .error e := by
  obtain ⟨hget, hset⟩ := h.getenv_stack hb index v
  rw [lookup_stack hb, hget, hset]
  rcases hout with hlarge | ⟨hneg, hlow⟩
  · rw [if_neg (by omega), if_neg (by omega), if_pos hlarge, if_pos hlarge]
    exact ⟨rfl, ⟨_, rfl⟩, _, rfl⟩
  · rw [if_pos hneg, if_neg (by omega), if_neg (by omega), (stackIndex_neg (v := .nil) hlow).1,
      (stackIndex_neg hlow).2]
    exact ⟨rfl, ⟨_, rfl⟩, _, rfl⟩

/-- A variable of a frame on the stack is read and written. -/
theorem Chain.stack_variable {start size i : Nat} (h : Chain vm top limit vm.env bs)
    (hb : bs[depth.toNat]? = some (.stack start size)) (hi : i < size) : ∃ w,
      Frames.lookup (bs.map vm.vals) depth i = some w ∧ vm.getenv depth i = .ok w ∧
      vm.setenv depth i v = .ok (v, { vm with stack := vm.stack.set (start + i) v }) := by
  obtain ⟨hfit, -⟩ := h.find_stack hb
  obtain ⟨hget, hset⟩ := h.getenv_stack hb i v
  have hlt : start + i < vm.stack.length := by omega
  have hslot : vm.stack[start + i]? = some vm.stack[start + i] := List.getElem?_eq_getElem hlt
  have hcast : (start : Int) + i = (start + i : Nat) := by omega
  refine ⟨vm.stack[start + i], ?_, ?_, ?_⟩
  · rw [lookup_stack hb, if_neg (by omega), Int.toNat_natCast, if_pos hi, hslot]
  · rw [hget, if_neg (by omega), hcast, stackIndex_ok hslot]
  · rw [hset, if_neg (by omega), hcast, setStackIndex_ok hlt]
    rfl

/-- Calls on a frame on the stack that do not stray from it. -/
theorem Chain.served_stack {start size : Nat} (h : Chain vm top limit vm.env bs)
    (hb : bs[c.depth.toNat]? = some (.stack start size)) (hc : ¬ Stray bs c) :
    ∃ vm', Served vm vm' top limit bs c := by
  have hne : c.index ≠ size := fun heq => hc ⟨start, size, hb, .inl heq⟩
  have hneg : c.index < 0 → start + c.index < 0 := by
    intro hlt
    by_contra hge
    exact hc ⟨start, size, hb, .inr ⟨hlt, by omega⟩⟩
  by_cases hin : 0 ≤ c.index ∧ c.index < size
  · obtain ⟨i, hi⟩ := Int.eq_ofNat_of_zero_le hin.1
    have hsize : i < size := by omega
    cases c with
    | getenv depth index =>
      obtain rfl : index = i := hi
      have hb' : bs[depth.toNat]? = some (.stack start size) := hb
      obtain ⟨w, hlookup, hget, -⟩ := h.stack_variable (v := .nil) hb' hsize
      exact ⟨vm, h.served_getenv (by rw [hlookup, hget]; rfl)⟩
    | setenv depth index value =>
      obtain rfl : index = i := hi
      obtain ⟨w, hlookup, -, hset⟩ := h.stack_variable (v := value) hb hsize
      obtain ⟨hchain, hvals⟩ := h.write_stack hb hsize rfl
      refine ⟨_, served_write hset hlookup hchain hvals fun j hj => ?_⟩
      have hfar := hj start size (List.mem_of_getElem? hb)
      exact List.getElem?_set_ne (by omega)
  · have hout : size < c.index ∨ c.index < 0 ∧ start + c.index < 0 := by omega
    refine ⟨vm, ?_⟩
    cases c with
    | getenv depth index =>
      obtain ⟨hnone, ⟨e, hget⟩, -⟩ := h.stack_error (v := .nil) hb hout
      have hget' : vm.getenv depth index = .error e := hget
      have hnone' : Frames.lookup (bs.map vm.vals) depth index = none := hnone
      exact h.served_getenv (by rw [hget', hnone']; rfl)
    | setenv depth index value =>
      obtain ⟨hnone, -, e, hset⟩ := h.stack_error (v := value) hb hout
      exact h.served_error hset hnone

/-- Calls on a frame on the heap. -/
theorem Chain.served_heap {a : Nat} (h : Chain vm top limit vm.env bs)
    (hb : bs[c.depth.toNat]? = some (.heap a)) : ∃ vm', Served vm vm' top limit bs c := by
  obtain ⟨e, he, heq⟩ := h.getenv_heap hb
  have hlookup : Frames.lookup (bs.map vm.vals) c.depth c.index =
      if c.index < 0 then none else e.vec[c.index.toNat]? := by
    rw [lookup_eq, hb]
    exact congrArg _ (by rw [Option.bind_some, vals_heap he])
  cases c with
  | getenv depth index =>
    refine ⟨vm, h.served_getenv ?_⟩
    have hlookup' : Frames.lookup (bs.map vm.vals) depth index =
      if index < 0 then none else e.vec[index.toNat]? := hlookup
    have hget : vm.getenv depth index = e.getEnv index := (heq index .nil).1
    rw [hget, hlookup', HeapEnv.getEnv]
    by_cases hneg : index < 0
    · rw [if_pos hneg, if_pos hneg]
      rfl
    · rw [if_neg hneg, if_neg hneg]
      cases e.vec[index.toNat]? with
      | none => rfl
      | some w => rfl
  | setenv depth index value =>
    have hset : vm.setenv depth index value = (e.setEnv index value).map fun e =>
      (value, { vm with heap := vm.heap.set a e }) := (heq index value).2
    have hlookup' : Frames.lookup (bs.map vm.vals) depth index =
      if index < 0 then none else e.vec[index.toNat]? := hlookup
    by_cases hout : index < 0 ∨ (e.vec.length : Int) ≤ index
    · refine ⟨vm, h.served_error (e := .arrayIndexOutOfBounds) ?_ ?_⟩
      · rw [hset, HeapEnv.setEnv, if_pos hout]
        rfl
      · rw [hlookup']
        rcases hout with hneg | hlarge
        · exact if_pos hneg
        · rw [List.getElem?_eq_none (by omega)]
          exact ite_self _
    · have hlt : index.toNat < e.vec.length := by omega
      rw [if_neg (by omega), List.getElem?_eq_getElem hlt] at hlookup'
      obtain ⟨hchain, hvals⟩ := h.write_heap (i := index.toNat) (v := value) hb he rfl
      refine ⟨_, served_write ?_ hlookup' hchain hvals fun j hj => rfl⟩
      rw [hset, HeapEnv.setEnv, if_neg hout]
      rfl

theorem Chain.served (h : Chain vm top limit vm.env bs) (hc : ¬ Stray bs c) :
    ∃ vm', Served vm vm' top limit bs c := by
  cases hb : bs[c.depth.toNat]? with
  | none => exact ⟨vm, h.served_outside hb⟩
  | some b =>
    cases b with
    | stack start size => exact h.served_stack hb hc
    | heap a => exact h.served_heap hb

/-- Right behind the variables and before them, the stack is read and written. -/
theorem Chain.stack_stray {start size : Nat} (h : Chain vm top limit vm.env bs)
    (hb : bs[depth.toNat]? = some (.stack start size))
    (hslot : index = size ∨ index < 0 ∧ 0 ≤ start + index) :
    Frames.lookup (bs.map vm.vals) depth index = none ∧
      (∃ w, vm.getenv depth index = .ok w) ∧ ∃ vm', vm.setenv depth index v = .ok (v, vm') := by
  obtain ⟨hfit, -⟩ := h.find_stack hb
  obtain ⟨hget, hset⟩ := h.getenv_stack hb index v
  have hlo : 0 ≤ start + index := by omega
  obtain ⟨j, hj⟩ := Int.eq_ofNat_of_zero_le hlo
  have hlt : j < vm.stack.length := by omega
  have hslot' : vm.stack[j]? = some vm.stack[j] := List.getElem?_eq_getElem hlt
  refine ⟨?_, ⟨vm.stack[j], ?_⟩, { vm with stack := vm.stack.set j v }, ?_⟩
  · rw [lookup_stack hb]
    rcases hslot with heq | ⟨hneg, -⟩
    · rw [if_neg (by omega), if_neg (by omega)]
    · rw [if_pos hneg]
  · rw [hget, if_neg (by omega), hj, stackIndex_ok hslot']
  · rw [hset, if_neg (by omega), hj, setStackIndex_ok hlt]
    rfl

/-- A call that strays has a result where there is to be an error. -/
theorem Chain.stray (h : Chain vm top limit vm.env bs) (hc : Stray bs c) :
    (vm.call c).1 ≠ (Frames.call (bs.map vm.vals) c).1 := by
  obtain ⟨start, size, hb, hslot⟩ := hc
  cases c with
  | getenv depth index =>
    have hb' : bs[depth.toNat]? = some (.stack start size) := hb
    have hslot' : index = size ∨ index < 0 ∧ 0 ≤ start + index := hslot
    obtain ⟨hnone, ⟨w, hget⟩, -⟩ := h.stack_stray (v := .nil) hb' hslot'
    rw [VirtualMachine.call, hget, Frames.call, hnone]
    exact Option.some_ne_none w
  | setenv depth index value =>
    have hb' : bs[depth.toNat]? = some (.stack start size) := hb
    have hslot' : index = size ∨ index < 0 ∧ 0 ≤ start + index := hslot
    obtain ⟨hnone, -, vm', hset⟩ := h.stack_stray (v := value) hb' hslot'
    rw [VirtualMachine.call, hset, Frames.call, hnone]
    exact Option.some_ne_none value

/-- Calls that do not stray are served. -/
theorem Chain.serves (h : Chain vm top limit vm.env bs) (hcs : ∀ c ∈ cs, ¬ Stray bs c) :
    Serves vm (bs.map vm.vals) bs cs := by
  induction cs generalizing vm with
  | nil => exact ⟨rfl, fun j hj => rfl⟩
  | cons c cs ih =>
    obtain ⟨vm₁, hserved⟩ := h.served (hcs c List.mem_cons_self)
    have hrest := ih hserved.chain fun d hd => hcs d (List.mem_cons_of_mem c hd)
    rw [hserved.frames] at hrest
    have hcalls : vm.calls (c :: cs) =
        ((Frames.call (bs.map vm.vals) c).1 :: (vm₁.calls cs).1, (vm₁.calls cs).2) := by
      rw [VirtualMachine.calls, hserved.call]
    refine ⟨?_, fun j hj => ?_⟩
    · rw [hcalls, Frames.calls, hrest.results]
    · rw [hcalls, hrest.stack j hj, hserved.stack j hj]

/-- Calls that are served do not stray. -/
theorem Chain.not_stray (h : Chain vm top limit vm.env bs)
    (hserves : (vm.calls cs).1 = Frames.calls (bs.map vm.vals) cs) : ∀ c ∈ cs, ¬ Stray bs c := by
  induction cs generalizing vm with
  | nil =>
    intro c hc
    cases hc
  | cons c cs ih =>
    have hhead : (vm.calls (c :: cs)).1 = (vm.call c).1 :: ((vm.call c).2.calls cs).1 := rfl
    rw [hhead, Frames.calls] at hserves
    obtain ⟨hfirst, hrest⟩ := List.cons.inj hserves
    have hc : ¬ Stray bs c := fun hstray => h.stray hstray hfirst
    obtain ⟨vm₁, hserved⟩ := h.served hc
    rw [hserved.call, ← hserved.frames] at hrest
    exact List.forall_mem_cons.mpr ⟨hc, ih hserved.chain hrest⟩

end Runs

section Made

theorem heap_append {a : Nat} {new : List HeapEnv} (ha : a < vm.heap.length) :
    (vm.heap ++ new)[a]? = vm.heap[a]? := List.getElem?_append_left ha

/-- A frame on the heap in front of a chain on the heap. -/
theorem Chain.alloc (h : Chain vm 0 vm.heap.length env bs) (vec : List ArcObject) :
    Chain (vm.alloc vec env).2 0 (vm.alloc vec env).2.heap.length (vm.alloc vec env).1
        (.heap vm.heap.length :: bs) ∧
      (Block.heap vm.heap.length :: bs).map (vm.alloc vec env).2.vals = vec :: bs.map vm.vals := by
  have hcell : (vm.alloc vec env).2.heap[vm.heap.length]? = some ⟨vec, env⟩ :=
    List.getElem?_concat_length
  have hcongr := h.congr (vm.alloc vec env).2 (fun j hj => rfl)
    fun a ha => heap_append ha
  obtain ⟨hchain, hvals⟩ := hcongr
  have hlt : vm.heap.length < (vm.alloc vec env).2.heap.length := (List.getElem?_eq_some_iff.mp hcell).1
  refine ⟨.heap hcell hlt hchain, ?_⟩
  rw [List.map_cons, hvals, vals_heap hcell]

/-- The copy of an environment is on the heap, with the same variables. -/
theorem Chain.fromStackEnv (h : Chain vm top limit env bs) (hlimit : limit ≤ vm.heap.length)
    (hfuel : top < fuel) : ∃ env' vm' bs', VirtualMachine.fromStackEnv fuel vm env = .ok (env', vm') ∧
      (∃ new, vm' = { vm with heap := vm.heap ++ new }) ∧
      Chain vm' 0 vm'.heap.length env' bs' ∧ bs'.map vm'.vals = bs.map vm.vals := by
  induction h generalizing fuel with
  | nil =>
    have hrun : VirtualMachine.fromStackEnv fuel vm .nil = .ok (.nil, vm) := by
      cases fuel <;> rfl
    exact ⟨.nil, vm, [], hrun, ⟨[], by simp⟩, .nil, rfl⟩
  | @stack top limit si start size penv bs hstart hsize hprev hfit htop hrest ih =>
    obtain ⟨fuel, rfl⟩ : ∃ f, fuel = f + 1 := ⟨fuel - 1, by omega⟩
    obtain ⟨env', vm₁, bs', hrun, ⟨new, hnew⟩, hchain, hvals⟩ := @ih fuel hlimit (by omega)
    have hlt := stack_lt hstart
    have hstack : vm₁.stack = vm.stack := by rw [hnew]
    have hcopy : ((List.range size).mapM fun i : Nat => vm₁.stackIndex ((start : Int) + i)) =
        .ok (vm₁.vals (.stack start size)) := copy_ok (by rw [hstack]; omega)
    have hsame : vm₁.vals (.stack start size) = vm.vals (.stack start size) :=
      vals_stack_congr fun j hj => by rw [hstack]
    have hone : (si : Int) + 1 = (si + 1 : Nat) := rfl
    have htwo : (si : Int) + 2 = (si + 2 : Nat) := rfl
    have hrun' : VirtualMachine.fromStackEnv (fuel + 1) vm (.fixnum si) =
        .ok (vm₁.alloc (vm.vals (.stack start size)) env') := by
      rw [VirtualMachine.fromStackEnv, fixnumAt_ok hstart, hone, fixnumAt_ok hsize, htwo,
        stackIndex_ok hprev]
      change (VirtualMachine.fromStackEnv fuel vm penv >>= _) = _
      rw [hrun]
      change (if (size : Int) < 0 then throw Failure.negativeArraySize else
        ((List.range (size : Int).toNat).mapM fun i : Nat => vm₁.stackIndex ((start : Int) + i)) >>= _) = _
      rw [if_neg (by omega), Int.toNat_natCast, hcopy, ← hsame]
      rfl
    obtain ⟨hchain', hvals'⟩ := hchain.alloc (vm.vals (.stack start size))
    refine ⟨_, (vm₁.alloc (vm.vals (.stack start size)) env').2, .heap vm₁.heap.length :: bs', hrun',
      ⟨new ++ [⟨vm.vals (.stack start size), env'⟩], ?_⟩, hchain', ?_⟩
    · have halloc : (vm₁.alloc (vm.vals (.stack start size)) env').2 =
          { vm₁ with heap := vm₁.heap ++ [⟨vm.vals (.stack start size), env'⟩] } := rfl
      rw [halloc, hnew]
      simp
    · exact hvals'.trans (by rw [List.map_cons, hvals])
  | @heap top limit a e bs he ha hrest ih =>
    have hrun : VirtualMachine.fromStackEnv fuel vm (.heapEnv a) = .ok (.heapEnv a, vm) := by
      cases fuel <;> rfl
    have hlt : a < vm.heap.length := (List.getElem?_eq_some_iff.mp he).1
    exact ⟨.heapEnv a, vm, .heap a :: bs, hrun, ⟨[], by simp⟩, .heap he hlt hrest, rfl⟩

theorem push_ok (vm : VirtualMachine) (h : vm.sp < vm.stack.length) (v : ArcObject) :
    vm.push v = .ok { vm with stack := vm.stack.set vm.sp v, sp := vm.sp + 1 } := by
  rw [VirtualMachine.push, setStackIndex_ok h]
  rfl

/-- The last words of a frame, pushed one after the other. -/
theorem push_words {a b : ArcObject} {k : VirtualMachine → Except Failure VirtualMachine} (vm : VirtualMachine)
    (h : vm.sp + 3 ≤ vm.stack.length) :
    (do
      let vm ← vm.push a
      let vm ← vm.push b
      let vm ← vm.push vm.env
      k vm) = [a, b, vm.env].foldlM VirtualMachine.push vm >>= k := by
  let vm₁ : VirtualMachine := { vm with stack := vm.stack.set vm.sp a, sp := vm.sp + 1 }
  let vm₂ : VirtualMachine := { vm₁ with stack := vm₁.stack.set vm₁.sp b, sp := vm₁.sp + 1 }
  have hpush₁ : vm.push a = .ok vm₁ := push_ok vm (by omega) a
  have hpush₂ : vm₁.push b = .ok vm₂ := push_ok vm₁ (by simp only [vm₁, List.length_set]; omega) b
  have hpush₃ := push_ok vm₂ (by simp only [vm₂, vm₁, List.length_set]; omega) vm.env
  rw [List.foldlM_cons, hpush₁]
  change (vm₁.push b >>= fun vm => vm.push vm.env >>= k) =
    [b, vm.env].foldlM VirtualMachine.push vm₁ >>= k
  rw [List.foldlM_cons, hpush₂]
  change vm₂.push vm.env >>= k = [vm.env].foldlM VirtualMachine.push vm₂ >>= k
  rw [List.foldlM_cons, hpush₃]
  rfl

/-- Pushes that the stack has room for. -/
theorem pushes_ok (vm : VirtualMachine) (vs : List ArcObject) (h : vm.sp + vs.length ≤ vm.stack.length) :
    ∃ stack, vs.foldlM VirtualMachine.push vm = .ok { vm with stack, sp := vm.sp + vs.length } ∧
      stack.length = vm.stack.length ∧ (∀ j, j < vm.sp → stack[j]? = vm.stack[j]?) ∧
      ∀ i, i < vs.length → stack[vm.sp + i]? = vs[i]? := by
  induction vs generalizing vm with
  | nil => exact ⟨vm.stack, rfl, rfl, fun j hj => rfl, fun i hi => by cases hi⟩
  | cons v vs ih =>
    rw [List.length_cons] at h
    have hlt : vm.sp < vm.stack.length := by omega
    have hroom : vm.sp + 1 + vs.length ≤ (vm.stack.set vm.sp v).length := by
      rw [List.length_set]
      omega
    obtain ⟨stack, hrun, hlen, hbelow, hpushed⟩ :=
      ih { vm with stack := vm.stack.set vm.sp v, sp := vm.sp + 1 } hroom
    have hsp : vm.sp + (v :: vs).length = vm.sp + 1 + vs.length := by
      rw [List.length_cons]
      omega
    refine ⟨stack, ?_, hlen.trans List.length_set, fun j hj => ?_, fun i hi => ?_⟩
    · rw [List.foldlM_cons, push_ok vm hlt, hsp]
      exact hrun
    · have hkept : stack[j]? = (vm.stack.set vm.sp v)[j]? := hbelow j (Nat.lt_succ_of_lt hj)
      rw [hkept, List.getElem?_set_ne (by omega)]
    · cases i with
      | zero =>
        have hkept : stack[vm.sp]? = (vm.stack.set vm.sp v)[vm.sp]? := hbelow vm.sp (Nat.lt_succ_self _)
        rw [Nat.add_zero, hkept, List.getElem?_set_self hlt]
        rfl
      | succ i =>
        have hword : stack[vm.sp + 1 + i]? = vs[i]? := hpushed i (by rw [List.length_cons] at hi; omega)
        have hidx : vm.sp + (i + 1) = vm.sp + 1 + i := by omega
        rw [hidx, hword]
        rfl

variable {prevsize extrasize : Nat}

theorem Ready.mkenv (h : Ready vm prevsize bs) (hroom : vm.sp + extrasize + 3 ≤ vm.stack.length) :
    ∃ vm', vm.mkenv prevsize extrasize = .ok vm' ∧ vm'.sp ≤ vm'.stack.length ∧
      Chain vm' vm'.sp vm'.heap.length vm'.env (stackBlocks vm prevsize extrasize bs) ∧
      (stackBlocks vm prevsize extrasize bs).map vm'.vals = newFrames vm prevsize extrasize bs := by
  have hargs := h.args
  let extra := List.replicate extrasize ArcObject.unbound
  have hextra : extra.length = extrasize := List.length_replicate
  obtain ⟨s₁, hrun₁, hlen₁, hbelow₁, hunbound⟩ := pushes_ok vm extra (by omega)
  rw [hextra] at hrun₁ hunbound
  let words : List ArcObject := [.fixnum (vm.sp - prevsize : Nat), .fixnum (prevsize + extrasize : Nat), vm.env]
  have hwords : words.length = 3 := rfl
  obtain ⟨s₂, hrun₂, hlen₂, hbelow₂, hword⟩ :=
    pushes_ok { vm with stack := s₁, sp := vm.sp + extrasize } words
      (by simp only [hlen₁, hwords]; omega)
  simp only [hwords] at hrun₂ hlen₂ hbelow₂ hword
  let vm' : VirtualMachine :=
    { vm with stack := s₂, sp := vm.sp + extrasize + 3, bp := vm.sp + extrasize + 3,
              env := .fixnum (vm.sp + extrasize : Nat) }
  have hcount : ((vm.sp + extrasize : Nat) : Int) - (prevsize + extrasize : Nat) =
      (vm.sp - prevsize : Nat) := by omega
  have hrun : vm.mkenv prevsize extrasize = .ok vm' := by
    rw [VirtualMachine.mkenv, if_neg (by omega), hrun₁]
    change (({ vm with stack := s₁, sp := vm.sp + extrasize } : VirtualMachine).push
      (.fixnum (((vm.sp + extrasize : Nat) : Int) - (prevsize + extrasize : Nat))) >>= _) = _
    rw [hcount]
    refine (push_words { vm with stack := s₁, sp := vm.sp + extrasize } ?_).trans ?_
    · simp only [hlen₁]
      omega
    · exact congrArg (· >>= _) hrun₂
  have hbelow : ∀ j, j < vm.sp → s₂[j]? = vm.stack[j]? := fun j hj =>
    (hbelow₂ j (by omega)).trans (hbelow₁ j hj)
  have hcongr := h.chain.congr vm' (fun j hj => hbelow j (by omega)) fun a ha => rfl
  obtain ⟨hchain, hvals⟩ := hcongr
  refine ⟨vm', hrun, ?_, .stack (hword 0 (by decide)) (hword 1 (by decide)) (hword 2 (by decide)) ?_
    (Nat.le_refl _) hchain, ?_⟩
  · change vm.sp + extrasize + 3 ≤ s₂.length
    omega
  · omega
  · rw [stackBlocks, List.map_cons, hvals, newFrames]
    congr 1
    apply List.ext_getElem?
    intro i
    have hlen : (vm.vals (.stack (vm.sp - prevsize) prevsize)).length = prevsize :=
      vals_stack_length (by have hsp := h.sp; omega)
    have hslot : vm'.stack[vm.sp - prevsize + i]? = s₂[vm.sp - prevsize + i]? := rfl
    rw [vals_stack_getElem?, hslot]
    by_cases hi : i < prevsize
    · rw [if_pos (by omega), hbelow _ (by omega), List.getElem?_append_left (by omega),
        vals_stack_getElem?, if_pos hi]
    · rw [List.getElem?_append_right (by omega), hlen]
      by_cases hx : i < prevsize + extrasize
      · have hidx : vm.sp - prevsize + i = vm.sp + (i - prevsize) := by omega
        rw [if_pos hx, hidx, hbelow₂ _ (Nat.add_lt_add_left (by omega) _), hunbound _ (by omega)]
      · rw [if_neg hx, List.getElem?_eq_none (by rw [List.length_replicate]; omega)]

theorem Ready.mkheapenv (h : Ready vm prevsize bs) (extrasize : Nat) :
    ∃ vm' bs', vm.mkheapenv prevsize extrasize = .ok vm' ∧
      Chain vm' 0 vm'.heap.length vm'.env bs' ∧
      bs'.map vm'.vals = newFrames vm prevsize extrasize bs := by
  have hsp := h.sp
  have hargs := h.args
  obtain ⟨env', vm₁, bs', hrun, ⟨new, hnew⟩, hchain, hvals⟩ :=
    h.chain.fromStackEnv (Nat.le_refl _)
      (show vm.sp - prevsize < vm.envFuel by rw [VirtualMachine.envFuel]; omega)
  have hstack : vm₁.stack = vm.stack := by rw [hnew]
  have hstart : ((vm₁.sp : Int) - prevsize) = (vm.sp - prevsize : Nat) := by
    have hsame : vm₁.sp = vm.sp := by rw [hnew]
    omega
  let args := vm.vals (.stack (vm.sp - prevsize) prevsize)
  have hcopy : ((List.range prevsize).mapM fun i : Nat =>
      vm₁.stackIndex (((vm.sp - prevsize : Nat) : Int) + i)) = .ok args := by
    have hsame : vm₁.vals (.stack (vm.sp - prevsize) prevsize) = args :=
      vals_stack_congr fun j hj => by rw [hstack]
    rw [← hsame]
    exact copy_ok (by rw [hstack]; omega)
  let vec := args ++ List.replicate extrasize ArcObject.unbound
  obtain ⟨hchain', hvals'⟩ := hchain.alloc vec
  let vm' : VirtualMachine :=
    { (vm₁.alloc vec env').2 with bp := vm₁.sp, env := (vm₁.alloc vec env').1 }
  have hcongr := hchain'.congr vm' (fun j hj => rfl) fun a ha => rfl
  refine ⟨vm', .heap vm₁.heap.length :: bs', ?_, hcongr.1, ?_⟩
  · rw [VirtualMachine.mkheapenv, hrun]
    change (((List.range prevsize).mapM fun i : Nat =>
      vm₁.stackIndex (((vm₁.sp : Int) - prevsize) + i)) >>= _) = _
    rw [hstart, hcopy]
    rfl
  · rw [hcongr.2, hvals', hvals]
    rfl

/-- Arguments pushed in a frame are ready for the next one. -/
theorem Chain.ready {vs : List ArcObject} (h : Chain vm vm.sp vm.heap.length vm.env bs)
    (hroom : vm.sp + vs.length ≤ vm.stack.length) :
    ∃ vm', vs.foldlM VirtualMachine.push vm = .ok vm' ∧ Ready vm' vs.length bs := by
  obtain ⟨stack, hrun, hlen, hbelow, -⟩ := pushes_ok vm vs hroom
  let vm' : VirtualMachine := { vm with stack, sp := vm.sp + vs.length }
  have hsp : vm'.sp - vs.length = vm.sp := Nat.add_sub_cancel vm.sp vs.length
  have hchain : Chain vm' vm.sp vm'.heap.length vm'.env bs :=
    (h.congr vm' hbelow fun a ha => rfl).1
  exact ⟨vm', hrun, Nat.le_add_left _ _, hlen.symm ▸ hroom, hsp.symm ▸ hchain⟩

theorem Chain.heapenv (h : Chain vm top vm.heap.length vm.env bs) (htop : top ≤ vm.stack.length) :
    ∃ vm' bs', vm.heapenv = .ok vm' ∧ Chain vm' 0 vm'.heap.length vm'.env bs' ∧
      bs'.map vm'.vals = bs.map vm.vals := by
  obtain ⟨env', vm₁, bs', hrun, -, hchain, hvals⟩ :=
    h.fromStackEnv (Nat.le_refl _) (show top < vm.envFuel by rw [VirtualMachine.envFuel]; omega)
  have hcongr := hchain.congr { vm₁ with env := env' } (fun j hj => rfl) fun a ha => rfl
  refine ⟨{ vm₁ with env := env' }, bs', ?_, hcongr.1, hcongr.2.trans hvals⟩
  rw [VirtualMachine.heapenv, hrun]
  rfl

theorem Chain.heap_only (h : Chain vm top limit env bs) (htop : top = 0) {start size : Nat} :
    .stack start size ∉ bs := by
  induction h with
  | nil => exact List.not_mem_nil
  | stack hstart hsize hprev hfit hle hrest ih => omega
  | heap he ha hrest ih =>
    intro hmem
    rcases List.mem_cons.mp hmem with hhead | hmem
    · cases hhead
    · exact ih rfl hmem

/-- Frames on the heap serve any calls, and leave the stack as it is. -/
theorem Chain.serves_heap (h : Chain vm 0 limit vm.env bs) (cs : List EnvCall) :
    Serves vm (bs.map vm.vals) [] cs := by
  have hnone : ∀ start size, Block.stack start size ∉ bs := fun start size => h.heap_only rfl
  have hcs : ∀ c ∈ cs, ¬ Stray bs c := by
    rintro c - ⟨start, size, hb, -⟩
    exact hnone start size (List.mem_of_getElem? hb)
  have hserves := h.serves hcs
  exact ⟨hserves.results, fun j hj => hserves.stack j fun start size hmem =>
    (hnone start size hmem).elim⟩

/-- The three frames serve calls alike if and only if none is for a slot next to the
variables of a frame on the stack. -/
theorem interchangeable_iff (cs : List EnvCall) (h : Ready vm prevsize bs)
    (hroom : vm.sp + extrasize + 3 ≤ vm.stack.length) :
    Interchangeable vm prevsize extrasize bs cs ↔
      ∀ c ∈ cs, ¬ Stray (stackBlocks vm prevsize extrasize bs) c := by
  obtain ⟨vms, hmkenv, hsp, hchain, hvals⟩ := h.mkenv hroom
  constructor
  · rintro ⟨vms', -, -, hmkenv', -, -, hserves, -, -⟩
    obtain rfl := Except.ok.inj (hmkenv.symm.trans hmkenv')
    refine hchain.not_stray ?_
    rw [hvals]
    exact hserves.results
  · intro hcs
    obtain ⟨vmh, bsh, hmkheapenv, hchainh, hvalsh⟩ := h.mkheapenv extrasize
    obtain ⟨vmc, bsc, hheapenv, hchainc, hvalsc⟩ := hchain.heapenv hsp
    have hs := hchain.serves hcs
    have hh := hchainh.serves_heap cs
    have hc := hchainc.serves_heap cs
    rw [hvals] at hs
    rw [hvalsh] at hh
    rw [hvalsc, hvals] at hc
    exact ⟨vms, vmh, vmc, hmkenv, hmkheapenv, hheapenv, hs, hh, hc⟩

/-- A machine with the one argument 5 on a stack of eight slots. -/
def oneArg : VirtualMachine where
  stack := [.fixnum 5, .null, .null, .null, .null, .null, .null, .null]
  sp := 1
  bp := 0
  env := .nil
  heap := []

theorem interchangeable_one : Interchangeable oneArg 1 1 []
    [.getenv 0 0, .setenv 0 1 (.fixnum 6), .getenv 0 1, .getenv 1 0] := by
  refine (interchangeable_iff _ ⟨by decide, by decide, .nil⟩ (by decide)).mpr ?_
  intro c hc
  rintro ⟨start, size, hb, hslot⟩
  simp only [List.mem_cons, List.not_mem_nil, or_false] at hc
  rcases hc with rfl | rfl | rfl | rfl <;> cases hb <;> revert hslot <;> decide

/-- Of the frame on the stack the variable behind the last one can be read. -/
theorem getenv_behind : ¬ Interchangeable oneArg 1 0 [] [.getenv 0 1] := by
  rintro ⟨vms, vmh, vmc, hs, hh, -, hserves, hserveh, -⟩
  have hsame := hserves.results.trans hserveh.results.symm
  cases hs
  cases hh
  exact absurd hsame (by decide)

end Made

end Arcueid.Neko
