import Mathlib.Order.Nat
import Arcueid.Machine

/-! Moving an environment chain to the heap. A copied frame keeps the parent
link it had on the stack, so only a chain whose links all lead to the heap is
moved as a whole. -/

namespace Arcueid

/-- A finite chain of frames. -/
inductive EnvChain (m : Machine) : Value → List Value → Prop
  | nil : EnvChain m .nil []
  | vector {a : Nat} {es : List Value} : a < m.heap.length →
      EnvChain m (m.vindex a 0) es → EnvChain m (.vector a) (.vector a :: es)
  | env {e : Nat} {es : List Value} :
      EnvChain m (m.slot e) es → EnvChain m (.env e) (.env e :: es)

/-- A finite chain of continuations. -/
inductive ContChain (m : Machine) : Value → List Value → Prop
  | nil : ContChain m .nil []
  | stack {c : Int} {cs : List Value} :
      ContChain m (stackCont m c.toNat 1) cs → ContChain m (.fixnum c) (.fixnum c :: cs)
  | heap {a : Nat} {k : HeapCont} {cs : List Value} : m.heap[a]? = some (.cont k) →
      ContChain m k.contCont cs → ContChain m (.cont a) (.cont a :: cs)

/-- The value is the head of a continuation chain, not an environment. -/
def contP : Value → Bool
  | .nil | .fixnum _ | .cont _ => true
  | _ => false

theorem ContChain.head_contP {m : Machine} {cont : Value} {cs : List Value}
    (h : ContChain m cont cs) : contP cont = true := by
  cases h <;> rfl

section Accessors

variable {m : Machine} {i a b : Nat} {v : Value} {o : Obj}

@[simp] theorem setSlot_heap : (m.setSlot i v).heap = m.heap := rfl
@[simp] theorem setSlot_vec : (m.setSlot i v).vec a = m.vec a := rfl
@[simp] theorem setSlot_hcont : (m.setSlot i v).hcont a = m.hcont a := rfl
@[simp] theorem setObj_slot : (m.setObj a o).slot = m.slot := rfl
@[simp] theorem alloc_slot : (m.alloc o).slot = m.slot := rfl
@[simp] theorem alloc_length : (m.alloc o).heap.length = m.heap.length + 1 := by
  simp [Machine.alloc]

@[simp] theorem setObj_length : (m.setObj a o).heap.length = m.heap.length := by
  simp [Machine.setObj]

theorem setSlot_slot : (m.setSlot i v).slot = Function.update m.slot i v := rfl

theorem hcont_of_get {k : HeapCont} (h : m.heap[a]? = some (.cont k)) : m.hcont a = k := by
  simp [Machine.hcont, h]

theorem alloc_vec (h : a < m.heap.length) : (m.alloc o).vec a = m.vec a := by
  simp [Machine.vec, Machine.alloc, List.getElem?_append_left h]

theorem alloc_vec_self {xs : List Value} : (m.alloc (.vector xs)).vec m.heap.length = xs := by
  simp [Machine.vec, Machine.alloc]

theorem setObj_cont_get {k k' : HeapCont} (h : m.heap[a]? = some (.cont k)) :
    (m.setObj a (.cont k')).heap[b]? = if b = a then some (.cont k') else m.heap[b]? := by
  have hlt : a < m.heap.length := List.getElem?_eq_some_iff.mp h |>.1
  by_cases hb : b = a
  · subst hb; simp [Machine.setObj, hlt]
  · simp [Machine.setObj, hb, List.getElem?_set_ne (Ne.symm hb)]

theorem setObj_cont_vec {k k' : HeapCont} (h : m.heap[a]? = some (.cont k)) :
    (m.setObj a (.cont k')).vec b = m.vec b := by
  rw [Machine.vec, setObj_cont_get h]
  by_cases hb : b = a
  · subst hb; simp [Machine.vec, h]
  · simp [Machine.vec, hb]

theorem setObj_cont_hcont {k k' : HeapCont} (h : m.heap[a]? = some (.cont k)) :
    (m.setObj a (.cont k')).hcont b = if b = a then k' else m.hcont b := by
  rw [Machine.hcont, setObj_cont_get h]
  by_cases hb : b = a <;> simp [Machine.hcont, hb]

end Accessors

section Update

variable {m m' : Machine} {old new cont : Value} {cs : List Value}

/-- The stack slots where the continuations of a chain save their environment. -/
def savedSlots (cs : List Value) : List Nat :=
  cs.filterMap fun cont => match cont with
    | .fixnum c => some (c.toNat - 4)
    | _ => none

/-- What `__arc_update_cont_envs` does to the machine. -/
structure ContEnvsUpdated (cs : List Value) (old new : Value) (m m' : Machine) : Prop where
  frame : m' = { m with slot := m'.slot, heap := m'.heap }
  length : m'.heap.length = m.heap.length
  slot : ∀ i, m'.slot i =
    if m.slot i = old ∧ i ∈ savedSlots cs then new else m.slot i
  vec : ∀ a, m'.vec a = m.vec a
  get : ∀ a, Value.cont a ∉ cs → m'.heap[a]? = m.heap[a]?
  cont : ∀ a k, m.heap[a]? = some (Obj.cont k) → m'.heap[a]? = some (Obj.cont
    (if Value.cont a ∈ cs ∧ k.contEnv = old then { k with contEnv := new } else k))

theorem contEnvsUpdated_refl : ContEnvsUpdated [] old new m m where
  frame := rfl
  length := rfl
  slot := by simp [savedSlots]
  vec := fun _ => rfl
  get := fun _ _ => rfl
  cont := by simp

/-- One continuation of the chain. -/
def updateOne (old new : Value) (m : Machine) (cont : Value) : Machine :=
  if contenv m cont = old then setContenv m cont new else m

theorem updateOne_stack (c : Int) :
    updateOne old new m (.fixnum c) =
      m.setSlot (c.toNat - 4) (if m.slot (c.toNat - 4) = old then new else m.slot (c.toNat - 4)) := by
  by_cases h : m.slot (c.toNat - 4) = old
  · simp [updateOne, contenv, stackCont, setContenv, h]
  · simp [updateOne, contenv, stackCont, h, Machine.setSlot]

theorem updateOne_heap {a : Nat} {k : HeapCont} (hk : m.heap[a]? = some (.cont k)) :
    updateOne old new m (.cont a) =
      m.setObj a (.cont (if k.contEnv = old then { k with contEnv := new } else k)) := by
  have hlt : a < m.heap.length := List.getElem?_eq_some_iff.mp hk |>.1
  have hget : m.heap[a] = .cont k := List.getElem?_eq_some_iff.mp hk |>.2
  by_cases h : k.contEnv = old
  · simp [updateOne, contenv, setContenv, hcont_of_get hk, h]
  · simp [updateOne, contenv, hcont_of_get hk, h, Machine.setObj, ← hget]

theorem ContEnvsUpdated.cons_stack {c : Int} (hne : old ≠ new)
    (h : ContEnvsUpdated cs old new (updateOne old new m (.fixnum c)) m') :
    ContEnvsUpdated (.fixnum c :: cs) old new m m' := by
  rw [updateOne_stack] at h
  refine ⟨h.frame, h.length, fun i => ?_, h.vec, fun a ha => h.get a (by simp_all), fun a k hk => ?_⟩
  · rw [h.slot i, setSlot_slot]
    by_cases hi : i = c.toNat - 4
    · subst hi
      by_cases ho : m.slot (c.toNat - 4) = old
      · simp [ho, hne.symm, savedSlots]
      · simp [ho]
    · simp [hi, savedSlots]
  · have := h.cont a k hk
    simpa using this

theorem ContEnvsUpdated.cons_heap {a : Nat} {k : HeapCont} (hne : old ≠ new)
    (hk : m.heap[a]? = some (.cont k))
    (h : ContEnvsUpdated cs old new (updateOne old new m (.cont a)) m') :
    ContEnvsUpdated (.cont a :: cs) old new m m' := by
  rw [updateOne_heap hk] at h
  refine ⟨h.frame, by rw [h.length, setObj_length], fun i => ?_, fun b => ?_, fun b hb => ?_,
    fun b k' hk' => ?_⟩
  · rw [h.slot i]
    simp [savedSlots]
  · rw [h.vec b, setObj_cont_vec hk]
  · have hba : b ≠ a := by rintro rfl; simp at hb
    rw [h.get b (by simp_all), setObj_cont_get hk, if_neg hba]
  · by_cases hba : b = a
    · subst hba
      cases Obj.cont.inj (Option.some.inj (hk.symm.trans hk'))
      rw [h.cont b _ (by rw [setObj_cont_get hk, if_pos rfl])]
      by_cases ho : k.contEnv = old <;> simp [ho, hne.symm]
    · rw [h.cont b k' (by rw [setObj_cont_get hk, if_neg hba, hk'])]
      simp [hba]

theorem ContChain.of_kept {cont : Value} (h : ContChain m cont cs)
    (hslot : ∀ i, contP (m.slot i) = true → m'.slot i = m.slot i)
    (hcont : ∀ (a : Nat) (k : HeapCont), m.heap[a]? = some (Obj.cont k) →
      ∃ k', m'.heap[a]? = some (Obj.cont k') ∧ k'.contCont = k.contCont) :
    ContChain m' cont cs := by
  induction h with
  | nil => exact .nil
  | stack hrest ih =>
    refine .stack ?_
    rw [stackCont, hslot _ hrest.head_contP]
    exact ih
  | heap hk hrest ih =>
    obtain ⟨k', hk', hcc⟩ := hcont _ _ hk
    exact .heap hk' (hcc ▸ ih)

theorem ContEnvsUpdated.contChain {xs : List Value} (hold : contP old = false)
    (h : ContEnvsUpdated cs old new m m') (hc : ContChain m cont xs) : ContChain m' cont xs := by
  refine hc.of_kept (fun i hi => ?_) (fun a k hk => ⟨_, h.cont a k hk, by split <;> rfl⟩)
  rw [h.slot i, if_neg]
  rintro ⟨ho, -⟩
  rw [ho, hold] at hi
  cases hi

theorem updateOne_contChain {cont x : Value} {xs : List Value} (hold : contP old = false)
    (hc : ContChain m cont cs) (hx : ContChain m x xs) :
    ContChain (updateOne old new m cont) x xs := by
  cases hc with
  | nil => cases hold' : old <;> simp_all [updateOne, contenv, contP]
  | @stack c cs' hrest =>
    rw [updateOne_stack]
    refine hx.of_kept (fun i hi => ?_) (fun a k hk => ⟨k, hk, rfl⟩)
    rw [setSlot_slot]
    by_cases hic : i = c.toNat - 4
    · rw [hic, Function.update_self, if_neg]
      rintro rfl
      rw [← hic, hi] at hold
      cases hold
    · rw [Function.update_of_ne hic]
  | heap hk hrest =>
    rw [updateOne_heap hk]
    refine hx.of_kept (fun i _ => rfl) (fun b k' hk' => ?_)
    rw [setObj_cont_get hk]
    split
    · next hb =>
      subst hb
      cases Obj.cont.inj (Option.some.inj (hk.symm.trans hk'))
      exact ⟨_, rfl, by split <;> rfl⟩
    · exact ⟨k', hk', rfl⟩

theorem nextcont_updateOne {cont next : Value} (hold : contP old = false)
    (hc : ContChain m cont (next :: cs)) :
    ContChain (updateOne old new m cont) (nextcont (updateOne old new m cont) cont) cs := by
  have hkept : ContChain (updateOne old new m cont) cont (next :: cs) :=
    updateOne_contChain hold hc hc
  generalize updateOne old new m cont = m₁ at hkept
  cases hkept with
  | stack hrest => exact hrest
  | heap hk hrest => rwa [nextcont, hcont_of_get hk]

theorem updateContEnvsFrom_succ {fuel : Nat} (hcont : cont ≠ .nil) :
    updateContEnvsFrom old new (fuel + 1) m cont =
      updateContEnvsFrom old new fuel (updateOne old new m cont)
        (nextcont (updateOne old new m cont) cont) := by
  cases cont <;> first | exact absurd rfl hcont | rfl

theorem ContChain.ne_nil {x : Value} (hc : ContChain m cont (x :: cs)) : cont ≠ .nil := by
  cases hc <;> simp

/-- The update of a whole chain ends, and redirects every saved environment. -/
theorem updateContEnvsFrom_spec {fuel : Nat} (hold : contP old = false) (hne : old ≠ new)
    (hc : ContChain m cont cs) (hfuel : cs.length < fuel) :
    ∃ m', updateContEnvsFrom old new fuel m cont = some m' ∧ ContEnvsUpdated cs old new m m' := by
  induction cs generalizing m cont fuel with
  | nil =>
    obtain ⟨f, rfl⟩ : ∃ f, fuel = f + 1 := ⟨fuel - 1, by omega⟩
    cases hc
    exact ⟨m, rfl, contEnvsUpdated_refl⟩
  | cons x xs ih =>
    obtain ⟨f, rfl⟩ : ∃ f, fuel = f + 1 := ⟨fuel - 1, by simp at hfuel; omega⟩
    have hnext : ContChain (updateOne old new m cont)
        (nextcont (updateOne old new m cont) cont) xs := nextcont_updateOne hold hc
    obtain ⟨m', hm', hu⟩ := ih hnext (Nat.lt_of_succ_lt_succ hfuel)
    refine ⟨m', (updateContEnvsFrom_succ hc.ne_nil).trans hm', ?_⟩
    cases hc with
    | stack hrest => exact hu.cons_stack hne
    | heap hk hrest => exact hu.cons_heap hne hk

theorem updateContEnvsFrom_same {fuel : Nat} (hc : ContChain m cont cs) (hfuel : cs.length < fuel)
    (old : Value) : updateContEnvsFrom old old fuel m cont = some m := by
  induction cs generalizing cont fuel with
  | nil =>
    obtain ⟨f, rfl⟩ : ∃ f, fuel = f + 1 := ⟨fuel - 1, by omega⟩
    cases hc
    rfl
  | cons x xs ih =>
    obtain ⟨f, rfl⟩ : ∃ f, fuel = f + 1 := ⟨fuel - 1, by simp at hfuel; omega⟩
    have hsame : updateOne old old m cont = m := by
      cases hc with
      | stack hrest =>
        rw [updateOne_stack, ite_eq_right_iff.mpr Eq.symm, Machine.setSlot, Function.update_eq_self]
      | heap hk hrest =>
        obtain ⟨hlt, hget⟩ := List.getElem?_eq_some_iff.mp hk
        rw [updateOne_heap hk]
        split
        · next ho => simp [Machine.setObj, ← ho, ← hget]
        · simp [Machine.setObj, ← hget]
    have hnext : ContChain m (nextcont m cont) xs := by
      cases hc with
      | stack hrest => exact hrest
      | heap hk hrest => rwa [nextcont, hcont_of_get hk]
    rw [updateContEnvsFrom_succ hc.ne_nil, hsame]
    exact ih hnext (Nat.lt_of_succ_lt_succ hfuel)

end Update

section Move

variable {m m' : Machine} {env : Value} {es cs : List Value}

theorem EnvChain.unique {es' : List Value} (h : EnvChain m env es) (h' : EnvChain m env es') :
    es = es' := by
  induction h generalizing es' with
  | nil => cases h'; rfl
  | vector ha hrest ih => cases h' with | vector _ hrest' => rw [ih hrest']
  | env hrest ih => cases h' with | env hrest' => rw [ih hrest']

theorem EnvChain.next (h : EnvChain m env es) : ∃ es', EnvChain m (nextenv m env) es' := by
  cases h with
  | nil => exact ⟨[], .nil⟩
  | vector _ hrest => exact ⟨_, hrest⟩
  | env hrest => exact ⟨_, hrest⟩

theorem EnvChain.of_mem {x : Value} (h : EnvChain m env es) (hx : x ∈ es) :
    ∃ es', EnvChain m x es' ∧ es'.length ≤ es.length := by
  induction h with
  | nil => simp at hx
  | vector ha hrest ih =>
    rcases List.mem_cons.mp hx with rfl | hx
    · exact ⟨_, .vector ha hrest, le_refl _⟩
    · obtain ⟨es', h', hle⟩ := ih hx
      exact ⟨es', h', Nat.le_succ_of_le hle⟩
  | env hrest ih =>
    rcases List.mem_cons.mp hx with rfl | hx
    · exact ⟨_, .env hrest, le_refl _⟩
    · obtain ⟨es', h', hle⟩ := ih hx
      exact ⟨es', h', Nat.le_succ_of_le hle⟩

theorem EnvChain.not_mem {x : Value} (h : EnvChain m env (x :: es)) : x ∉ es := by
  intro hx
  have hhead : env = x := by cases h <;> rfl
  obtain ⟨es', h', hle⟩ := (show ∃ es', EnvChain m x es' ∧ es'.length ≤ es.length by
    cases h with
    | vector _ hrest => exact hrest.of_mem hx
    | env hrest => exact hrest.of_mem hx)
  have hlen := congrArg List.length (h.unique (hhead ▸ h'))
  rw [List.length_cons] at hlen
  omega

/-- The machine keeps its registers and its heap objects; a stack slot changes
only from a stack environment to a heap one. -/
structure Redirected (m m' : Machine) : Prop where
  frame : m' = { m with slot := m'.slot, heap := m'.heap }
  length : m.heap.length ≤ m'.heap.length
  slot : ∀ i, m'.slot i = m.slot i ∨ envP (m.slot i) = true ∧ envP (m'.slot i) = false
  vec : ∀ a, a < m.heap.length → m'.vec a = m.vec a
  cont : ∀ (a : Nat) (k : HeapCont), m.heap[a]? = some (Obj.cont k) → envP k.contEnv = false →
    m'.heap[a]? = some (Obj.cont k)

theorem Redirected.refl (m : Machine) : Redirected m m :=
  ⟨rfl, le_refl _, fun _ => .inl rfl, fun _ _ => rfl, fun _ _ h _ => h⟩

theorem Redirected.trans {m'' : Machine} (h : Redirected m m') (h' : Redirected m' m'') :
    Redirected m m'' := by
  refine ⟨?_, h.length.trans h'.length, fun i => ?_, fun a ha => ?_,
    fun a k hk he => h'.cont a k (h.cont a k hk he) he⟩
  · rw [h'.frame, h.frame]
  · rcases h.slot i with hi | ⟨hi, hi'⟩ <;> rcases h'.slot i with hj | ⟨hj, hj'⟩
    · exact .inl (hj.trans hi)
    · exact .inr ⟨hi ▸ hj, hj'⟩
    · exact .inr ⟨hi, hj ▸ hi'⟩
    · rw [hi'] at hj
      cases hj
  · rw [h'.vec a (ha.trans_le h.length), h.vec a ha]

theorem alloc_get {o : Obj} {a : Nat} (ha : a < m.heap.length) :
    (m.alloc o).heap[a]? = m.heap[a]? :=
  List.getElem?_append_left ha

theorem heapEnv_redirected (m : Machine) (e : Nat) : Redirected m (heapEnv m e).1 :=
  ⟨rfl, by simp [heapEnv], fun _ => .inl rfl, fun _ ha => alloc_vec ha, fun _ _ hk _ =>
    (alloc_get (List.getElem?_eq_some_iff.mp hk).1).trans hk⟩

theorem ContEnvsUpdated.redirected {e : Nat} {v : Nat}
    (h : ContEnvsUpdated cs (.env e) (.vector v) m m') : Redirected m m' := by
  refine ⟨h.frame, h.length.ge, fun i => ?_, fun a _ => h.vec a, fun a k hk he => ?_⟩
  · by_cases hi : m.slot i = .env e ∧ i ∈ savedSlots cs
    · exact .inr ⟨by rw [hi.1]; rfl, by rw [h.slot i, if_pos hi]; rfl⟩
    · exact .inl (by rw [h.slot i, if_neg hi])
  · have hne : ¬ (Value.cont a ∈ cs ∧ k.contEnv = .env e) := by
      intro hc
      rw [hc.2] at he
      cases he
    rw [h.cont a k hk, if_neg hne]

theorem EnvChain.next_mem {e : Nat} (h : EnvChain m env es) (he : Value.env e ∈ es) :
    m.slot e = .nil ∨ m.slot e ∈ es := by
  obtain ⟨es', h', -⟩ := h.of_mem he
  have hsub : ∀ {x ys zs}, EnvChain m x ys → EnvChain m (.env e) zs → Value.env e ∈ ys → zs ⊆ ys := by
    intro x ys zs hx hz
    induction hx with
    | nil => simp
    | vector ha hrest ih =>
      intro hmem
      rcases List.mem_cons.mp hmem with hc | hc
      · cases hc
      · exact fun z hz => List.mem_cons_of_mem _ (ih hc hz)
    | env hrest ih =>
      intro hmem
      rcases List.mem_cons.mp hmem with hc | hc
      · cases hc
        rw [hz.unique (.env hrest)]
        exact List.Subset.refl _
      · exact fun z hz => List.mem_cons_of_mem _ (ih hc hz)
  have hss := hsub h h' he
  cases h' with
  | env hrest =>
    generalize m.slot e = next at hrest
    cases hrest with
    | nil => exact .inl rfl
    | vector _ _ => exact .inr (hss (by simp))
    | env _ => exact .inr (hss (by simp))

theorem Machine.vindex_of_vec {a i : Nat} (h : m'.vec a = m.vec a) :
    m'.vindex a i = m.vindex a i := by
  rw [Machine.vindex, Machine.vindex, h]

theorem EnvChain.of_kept (h : EnvChain m env es) (hlen : m.heap.length ≤ m'.heap.length)
    (hvec : ∀ a, a < m.heap.length → m'.vec a = m.vec a)
    (hslot : ∀ e, Value.env e ∈ es → m'.slot e = m.slot e) : EnvChain m' env es := by
  induction h with
  | nil => exact .nil
  | vector ha hrest ih =>
    refine .vector (ha.trans_le hlen) ?_
    rw [Machine.vindex_of_vec (hvec _ ha)]
    exact ih fun e he => hslot e (List.mem_cons_of_mem _ he)
  | env hrest ih =>
    refine .env ?_
    rw [hslot _ List.mem_cons_self]
    exact ih fun e he => hslot e (List.mem_cons_of_mem _ he)

/-- The cells of a stack frame, parent link first. -/
def frameCells (m : Machine) (e : Nat) : List Value :=
  m.slot e :: (List.range (senvCount m e)).map fun i => m.slot (senvStart m e + i)

/-- What the head of a chain becomes: a stack frame is copied. -/
def MovedHead (m m' : Machine) : Value → Value → Prop
  | .env e, env' => ∃ v, env' = .vector v ∧ m.heap.length ≤ v ∧ v < m'.heap.length ∧
      m'.vec v = frameCells m e
  | env, env' => env' = env

/-- One frame: copied if it is on the stack, and the saved environments of the
chain redirected to the copy. -/
theorem moveFrame_spec {fuel e : Nat} (hcont : ContChain m m.conr cs) (hfuel : cs.length < fuel) :
    ∃ m', arcUpdateContEnvs fuel (heapEnv m e).1 (.env e) (heapEnv m e).2 = some m' ∧
      Redirected m m' ∧ ContEnvsUpdated cs (.env e) (.vector m.heap.length) (heapEnv m e).1 m' ∧
      ContChain m' m'.conr cs ∧ MovedHead m m' (.env e) (.vector m.heap.length) := by
  have hchain : ContChain (heapEnv m e).1 m.conr cs := by
    refine hcont.of_kept (fun i _ => rfl) (fun a k hk => ⟨k, ?_, rfl⟩)
    have hlt : a < m.heap.length := (List.getElem?_eq_some_iff.mp hk).1
    simpa [heapEnv, Machine.alloc, List.getElem?_append_left hlt] using hk
  have hne : Value.env e ≠ .vector m.heap.length := by simp
  obtain ⟨m', hm', hu⟩ := updateContEnvsFrom_spec rfl hne hchain hfuel
  have hred := (heapEnv_redirected m e).trans hu.redirected
  refine ⟨m', hm', hred, hu, ?_, m.heap.length, rfl, le_refl _, ?_, ?_⟩
  · have hconr : m'.conr = m.conr := by rw [hred.frame]
    rw [hconr]
    exact hu.contChain rfl hchain
  · rw [hu.length]
    simp [heapEnv]
  · rw [hu.vec, heapEnv, alloc_vec_self]
    rfl

theorem arcEnv2heap_spec {n fuel : Nat} (henv : EnvChain m env es)
    (hcont : ContChain m m.conr cs) (hn : es.length < n) (hfuel : cs.length < fuel) :
    ∃ m' env', arcEnv2heap fuel n m env = some (m', env') ∧ Redirected m m' ∧
      (∀ i, i ∉ savedSlots cs → m'.slot i = m.slot i) ∧ ContChain m' m'.conr cs ∧
      MovedHead m m' env env' := by
  induction es generalizing m env n with
  | nil =>
    obtain ⟨n, rfl⟩ : ∃ k, n = k + 1 := ⟨n - 1, by omega⟩
    cases henv
    exact ⟨m, .nil, rfl, Redirected.refl m, fun _ _ => rfl, hcont, rfl⟩
  | cons x es ih =>
    obtain ⟨n, rfl⟩ : ∃ k, n = k + 1 := ⟨n - 1, by simp at hn; omega⟩
    have hn' : es.length < n := Nat.lt_of_succ_lt_succ hn
    have hmem := henv.not_mem
    cases henv with
    | @vector a _ ha hrest =>
      obtain ⟨m', env', hrun, hred, hslot, hc, -⟩ := ih hrest hcont hn'
      refine ⟨m', .vector a, ?_, hred, hslot, hc, rfl⟩
      simp only [arcEnv2heap, arcUpdateContEnvs, updateContEnvsFrom_same hcont hfuel,
        Option.bind_eq_bind, Option.bind_some, nextenv, hrun, Option.pure_def]
    | @env e _ hrest =>
      obtain ⟨m₁, hupd, hred₁, hu, hc₁, v, hv, hle, hlt, hcells⟩ := moveFrame_spec (e := e) hcont hfuel
      cases hv
      have hnext : nextenv m₁ (.vector m.heap.length) = m.slot e := by
        simp [nextenv, Machine.vindex, hcells, frameCells]
      have hrest₁ : EnvChain m₁ (m.slot e) es := by
        refine hrest.of_kept hred₁.length hred₁.vec fun e' he' => ?_
        rw [hu.slot e', if_neg]
        · rfl
        · rintro ⟨ho, -⟩
          rcases hrest.next_mem he' with hnil | hin
          · exact nomatch hnil.symm.trans ho
          · exact hmem (ho ▸ hin)
      obtain ⟨m', env', hrun, hred, hslot, hc, -⟩ := ih hrest₁ hc₁ hn'
      refine ⟨m', .vector m.heap.length, ?_, hred₁.trans hred, fun i hi => ?_, hc, m.heap.length,
        rfl, hle, hlt.trans_le hred.length, (hred.vec _ hlt).trans hcells⟩
      · rw [← hnext] at hrun
        simp only [arcEnv2heap, hupd, Option.bind_eq_bind, Option.bind_some, Option.pure_def]
        rw [show (heapEnv m e).2 = .vector m.heap.length from rfl, hrun]
        rfl
      · rw [hslot i hi, hu.slot i, if_neg fun hc => hi hc.2]
        rfl

end Move

section Chain

variable {m m' : Machine} {env : Value} {es cs : List Value}

theorem envAt_succ (m : Machine) (env : Value) (d : Nat) :
    envAt m env (d + 1) = envAt m (nextenv m env) d := rfl

/-- No frame of the chain is on the stack. -/
def AllHeap (m : Machine) (env : Value) : Prop := ∀ d, envP (envAt m env d) = false

theorem envAt_nil (m : Machine) (d : Nat) : envAt m .nil d = .nil := by
  induction d with
  | zero => rfl
  | succ d ih => exact ih

theorem AllHeap.next (h : AllHeap m env) : AllHeap m (nextenv m env) := fun d => h (d + 1)

theorem allHeap_vector {a : Nat} :
    AllHeap m (.vector a) ↔ AllHeap m (m.vindex a 0) := by
  refine ⟨fun h => h.next, fun h d => ?_⟩
  cases d with
  | zero => rfl
  | succ d => exact h d

theorem EnvChain.envAt_eq (henv : EnvChain m env es)
    (hvec : ∀ a, a < m.heap.length → m'.vec a = m.vec a)
    (hslot : ∀ e, Value.env e ∈ es → m'.slot e = m.slot e) (d : Nat) :
    envAt m' env d = envAt m env d := by
  induction henv generalizing d with
  | nil => rw [envAt_nil, envAt_nil]
  | vector ha hrest ih =>
    cases d with
    | zero => rfl
    | succ d =>
      rw [envAt_succ, envAt_succ, nextenv, nextenv, Machine.vindex_of_vec (hvec _ ha)]
      exact ih (fun e he => hslot e (List.mem_cons_of_mem _ he)) d
  | env hrest ih =>
    cases d with
    | zero => rfl
    | succ d =>
      rw [envAt_succ, envAt_succ, nextenv, nextenv, hslot _ List.mem_cons_self]
      exact ih (fun e he => hslot e (List.mem_cons_of_mem _ he)) d

theorem AllHeap.not_mem_env (henv : EnvChain m env es) (h : AllHeap m env) (e : Nat) :
    Value.env e ∉ es := by
  induction henv with
  | nil => simp
  | vector ha hrest ih => simpa using ih (allHeap_vector.mp h)
  | env hrest ih => exact nomatch h 0

/-- A chain on the heap is the same for any machine with the same vectors. -/
theorem AllHeap.envAt_eq (hheap : AllHeap m env) (henv : EnvChain m env es)
    (hvec : ∀ a, a < m.heap.length → m'.vec a = m.vec a) (d : Nat) :
    envAt m' env d = envAt m env d :=
  henv.envAt_eq hvec (fun e he => absurd he (hheap.not_mem_env henv e)) d

/-- Where the vectors stay, so do the stack frames of a chain. -/
theorem EnvChain.allHeap_iff (henv : EnvChain m env es)
    (hvec : ∀ a, a < m.heap.length → m'.vec a = m.vec a) : AllHeap m' env ↔ AllHeap m env := by
  induction henv with
  | nil => exact ⟨fun _ d => by rw [envAt_nil]; rfl, fun _ d => by rw [envAt_nil]; rfl⟩
  | env hrest ih => exact ⟨fun hh => (nomatch hh 0), fun hh => (nomatch hh 0)⟩
  | vector ha hrest ih =>
    rw [allHeap_vector, allHeap_vector, Machine.vindex_of_vec (hvec _ ha)]
    exact ih

theorem EnvChain.envAt_mem (henv : EnvChain m env es) (d : Nat) :
    envAt m env d = .nil ∨ envAt m env d ∈ es := by
  induction henv generalizing d with
  | nil => exact .inl (envAt_nil m d)
  | vector ha hrest ih =>
    cases d with
    | zero => exact .inr List.mem_cons_self
    | succ d => exact (ih d).imp_right (List.mem_cons_of_mem _)
  | env hrest ih =>
    cases d with
    | zero => exact .inr List.mem_cons_self
    | succ d => exact (ih d).imp_right (List.mem_cons_of_mem _)

/-- No stack frame of a finite chain comes back further up. -/
theorem EnvChain.envAt_ne (henv : EnvChain m env es) {d : Nat}
    (he : envP (envAt m env (d + 1)) = true) : envAt m env (d + 1) ≠ env := by
  intro heq
  cases henv with
  | nil => rw [heq] at he; cases he
  | vector ha hrest => rw [heq] at he; cases he
  | @env e es hrest =>
    rcases hrest.envAt_mem d with hnil | hin
    · rw [envAt_succ, nextenv, hnil] at heq
      cases heq
    · rw [envAt_succ, nextenv] at heq
      exact EnvChain.not_mem (.env hrest) (heq ▸ hin)

theorem EnvChain.frame_lt {a d : Nat} (henv : EnvChain m env es)
    (ha : envAt m env d = .vector a) : a < m.heap.length := by
  induction henv generalizing d with
  | nil => rw [envAt_nil] at ha; cases ha
  | vector hlt hrest ih =>
    cases d with
    | zero => cases ha; exact hlt
    | succ d => exact ih ha
  | env hrest ih =>
    cases d with
    | zero => cases ha
    | succ d => exact ih ha

theorem MovedHead.next_eq {env' : Value} (h : MovedHead m m' env env') (hred : Redirected m m')
    (henv : EnvChain m env es) : nextenv m' env' = nextenv m env := by
  cases henv with
  | nil => cases h; rfl
  | vector ha hrest =>
    cases h
    exact Machine.vindex_of_vec (hred.vec _ ha)
  | env hrest =>
    obtain ⟨v, rfl, -, -, hcells⟩ := h
    simp [nextenv, Machine.vindex, hcells, frameCells]

end Chain

section Senvr

variable {m m' : Machine} {es cs : List Value}

/-- `SENVR(thr, __arc_env2heap(c, thr, TENVR(thr)))`. -/
def senvrEnv2heap (fuel : Nat) (m : Machine) : Option Machine :=
  (arcEnv2heap fuel fuel m m.envr).map fun p => { p.1 with envr := p.2 }

/-- The number of variables of a frame. -/
def frameSize (m : Machine) : Value → Nat
  | .env e => senvCount m e
  | .vector a => (m.vec a).length - 1
  | _ => 0

/-- What moving the environment of `m` is for: every frame is on the heap, and
every variable has its value, whatever becomes of the stack. -/
def EnvMoved (m m' : Machine) : Prop :=
  AllHeap m' m'.envr ∧ ∀ d i, i < frameSize m (envAt m m.envr d) →
    arcGetenv m' d i = arcGetenv m d i ∧
      ∀ slot, arcGetenv { m' with slot := slot } d i = arcGetenv m d i

/-- No frame of the chain has a stack environment as its parent link. -/
def OnlyFirstOnStack (m : Machine) : Prop := AllHeap m (nextenv m m.envr)

theorem senvStart_add (m : Machine) (e i : Nat) (hi : i < senvCount m e) :
    (frameCells m e).getD (i + 1) .nil = m.slot (senvStart m e + i) := by
  simp [frameCells, hi]

/-- A frame of a heap chain reads the same in any machine with its vectors. -/
theorem arcGetenv_of_heap {m₂ : Machine} {d i : Nat} (henv : EnvChain m m.envr es)
    (hheap : AllHeap m (nextenv m m.envr)) (hvec : ∀ a, a < m.heap.length → m₂.vec a = m.vec a)
    (hhead : MovedHead m m₂ m.envr m₂.envr) (hnext : nextenv m₂ m₂.envr = nextenv m m.envr)
    (hi : i < frameSize m (envAt m m.envr d)) : arcGetenv m₂ d i = arcGetenv m d i := by
  cases d with
  | succ d =>
    obtain ⟨es', hrest⟩ := henv.next
    have hat : envAt m₂ m₂.envr (d + 1) = envAt m m.envr (d + 1) := by
      rw [envAt_succ, envAt_succ, hnext, hheap.envAt_eq hrest hvec]
    have hno := hheap d
    rw [← envAt_succ] at hno
    rw [arcGetenv, arcGetenv, envval, envval, hat]
    cases hv : envAt m m.envr (d + 1) with
    | vector a =>
      rw [envAt_succ] at hv
      simp [Machine.read, Machine.vindex, hvec a (hrest.frame_lt hv)]
    | env e => rw [hv] at hno; cases hno
    | _ => rfl
  | zero =>
    rw [arcGetenv, arcGetenv, envval, envval]
    simp only [envAt, Function.iterate_zero, id_eq] at hi ⊢
    generalize m.envr = env at henv hhead hi
    generalize m₂.envr = env₂ at hhead
    cases henv with
    | nil => cases hhead; rfl
    | vector ha hrest =>
      cases hhead
      simp [Machine.read, Machine.vindex, hvec _ ha]
    | env hrest =>
      obtain ⟨v, rfl, -, -, hcells⟩ := hhead
      simp only [Option.map_some, Machine.read, Machine.vindex, hcells]
      rw [senvStart_add m _ i hi]

/-- The chain is moved, with its values, exactly when only its first frame may
be on the stack. -/
theorem senvrEnv2heap_moves_iff (henv : EnvChain m m.envr es) (hcont : ContChain m m.conr cs)
    {fuel : Nat} (hes : es.length < fuel) (hcs : cs.length < fuel) :
    ∃ m', senvrEnv2heap fuel m = some m' ∧ (EnvMoved m m' ↔ OnlyFirstOnStack m) := by
  obtain ⟨m₁, env', hrun, hred, -, -, hhead⟩ := arcEnv2heap_spec henv hcont hes hcs
  refine ⟨{ m₁ with envr := env' }, by rw [senvrEnv2heap, hrun]; rfl, ?_⟩
  have hnext := hhead.next_eq hred henv
  obtain ⟨es', hrest⟩ := henv.next
  have htail : AllHeap m₁ (nextenv m₁ env') ↔ OnlyFirstOnStack m := by
    rw [hnext]
    exact hrest.allHeap_iff hred.vec
  have hfirst : envP env' = false := by
    generalize m.envr = env at henv hhead
    cases henv with
    | nil => cases hhead; rfl
    | vector _ _ => cases hhead; rfl
    | env _ => obtain ⟨v, rfl, -⟩ := hhead; rfl
  constructor
  · intro hmoved
    exact htail.mp fun d => hmoved.1 (d + 1)
  · intro hstack
    have hheap := htail.mpr hstack
    refine ⟨fun d => ?_, fun d i hi => ⟨?_, fun slot => ?_⟩⟩
    · cases d with
      | zero => exact hfirst
      | succ d => exact hheap d
    · exact arcGetenv_of_heap henv hstack hred.vec hhead hnext hi
    · refine arcGetenv_of_heap henv hstack hred.vec hhead ?_ hi
      rw [← hnext]
      cases env' <;> first | rfl | cases hfirst

end Senvr

/-- A new thread with one frame on its stack. -/
def oneFrame : Machine := arcMkenv ((arcMkthread fun _ => .unbound).cpush (.fixnum 7)) 1 0

/-- The same with a second frame inside the first. -/
def nestedFrames : Machine := arcMkenv (oneFrame.cpush (.fixnum 8)) 1 0

theorem senvrEnv2heap_oneFrame : ∃ m', senvrEnv2heap 3 oneFrame = some m' ∧
    (EnvMoved oneFrame m' ↔ OnlyFirstOnStack oneFrame) :=
  senvrEnv2heap_moves_iff (.env .nil) .nil (by decide) (by decide)

/-- The copy of the inner frame still links to the outer frame on the stack. -/
theorem senvrEnv2heap_nestedFrames :
    ∃ m', senvrEnv2heap 4 nestedFrames = some m' ∧ ¬ EnvMoved nestedFrames m' := by
  refine ⟨_, rfl, fun h => ?_⟩
  exact absurd (h.1 1) (by decide)

end Arcueid
