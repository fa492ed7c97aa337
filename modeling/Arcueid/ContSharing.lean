import Arcueid.ThreadBuilt

/-! What restoring a moved continuation gives, and when sharing survives. The
saved environments keep denoting one frame; the environment register gets a
second copy of a frame that some continuation saves too. -/

namespace Arcueid

/-- `SCONR(thr, __arc_cont2heap(c, thr, TCONR(thr)))` and then the same for the
environment. -/
def moveToHeap (fuel : Nat) (m : Machine) : Option Machine :=
  (arcCont2heap fuel fuel m .nil m.conr).bind fun p =>
    senvrEnv2heap fuel { p.1 with conr := p.2 }

def contAt (m : Machine) (k : Nat) : Value := (nextcont m)^[k] m.conr

/-- The current function's part of the stack. -/
def functionPart (m : Machine) : List Value :=
  (List.range (m.sp - m.tsfn)).map fun i => m.slot (m.tsfn + i)

/-- Two restored machines go on alike, with environments renamed by `ρ`. -/
structure SameContinuation (ρ : Value → Value) (r r' : Machine) : Prop where
  funr : r'.funr = r.funr
  ip : r'.ip = r.ip
  argc : r'.argc = r.argc
  envr : r'.envr = ρ r.envr
  heap : AllHeap r' r'.envr
  vars : ∀ d i, i < frameSize r (envAt r r.envr d) → arcGetenv r' d i = arcGetenv r d i
  saved : List.Forall₂ (fun v v' => v' = v ∨ v' = ρ v) (functionPart r) (functionPart r')

/-- Every continuation of the first `n` restores as before, on any stack, and
references to one environment are still references to one. -/
def ContsMoved (n : Nat) (m m' : Machine) : Prop :=
  ∃ ρ : Value → Value, (∀ v, envP v = false → ρ v = v) ∧
    (∀ d, envAt m' m'.envr d = ρ (envAt m m.envr d)) ∧
    ∀ k, k < n → ∀ slot sp, SameContinuation ρ (arcRestorecont m (contAt m k))
      (arcRestorecont { m' with slot := slot, sp := sp } (contAt m' k))

/-- Saved frames link to the heap only, no frame of the current environment that
is on the stack is saved by a continuation, and no saved frame pointer is stale. -/
structure MovesCleanly (m : Machine) (cs : List Value) : Prop where
  linked : ∀ cont ∈ cs, AllHeap m (nextenv m (contenv m cont))
  apart : ∀ d, envP (envAt m m.envr d) = true → ∀ cont ∈ cs, contenv m cont ≠ envAt m m.envr d
  length : ∀ c, Value.fixnum c ∈ cs → -1 ≤ savedLength m c

section FunctionPart

variable {m : Machine}

/-- A heap continuation puts its words back as the function's part. -/
theorem functionPart_restore {a : Nat} {k : HeapCont} (hk : m.heap[a]? = some (.cont k)) :
    functionPart (arcRestorecont m (.cont a)) = match k.contStk with
      | .vector b => m.vec b
      | _ => [] := by
  have hpush : ∀ vs : List Value, functionPart { m.pushAll vs with tsfn := m.sp } = vs := by
    intro vs
    refine List.ext_getElem (by simp [functionPart]) fun i h₁ h₂ => ?_
    simp [functionPart, pushAll_slot_add h₂]
  rw [arcRestorecont]
  simp only [hcont_of_get hk]
  exact hpush _

theorem functionPart_stack {c : Int} (hc : 6 ≤ c) {n : Nat}
    (hn : stackCont m c.toNat 6 = .fixnum n) :
    functionPart (arcRestorecont m (.fixnum c)) = savedWords m c := by
  have hlen : c.toNat - 6 - n = (c - 6 - (n : Int)).toNat := by omega
  simp [functionPart, arcRestorecont, savedWords, savedLength, hn, fix2int, hlen]

end FunctionPart

section Restore

variable {cs rs es : List Value} {σ : Nat → Option Nat} {m m' : Machine}

/-- The frame a reference denotes, by what its copy holds. -/
theorem nextenv_rename {x : Value} (hx : envP (rename σ x) = false)
    (hcopy : ∀ e v, σ e = some v → m'.vec v = frameCells m e)
    (henv : EnvChain m x es) (hvec : ∀ a, a < m.heap.length → m'.vec a = m.vec a) :
    nextenv m' (rename σ x) = nextenv m x := by
  cases henv with
  | nil => rfl
  | vector ha hrest => exact Machine.vindex_of_vec (hvec _ ha)
  | @env e _ hrest =>
    cases hs : σ e with
    | none => rw [rename_env_none hs] at hx; cases hx
    | some v => simp [rename_env_some hs, nextenv, Machine.vindex, hcopy e v hs, frameCells]

theorem heap_at {cont : Value} (hc : ContChain m cont rs) (hall : ∀ x ∈ rs, ∃ a, x = .cont a)
    (hold : ∀ (a : Nat) (k : HeapCont), m.heap[a]? = some (Obj.cont k) → Value.cont a ∈ rs →
      m'.heap[a]? = some (Obj.cont k)) {k : Nat} (hk : k < rs.length) :
    ∃ a kk, rs[k] = .cont a ∧ (nextcont m)^[k] cont = .cont a ∧
      (nextcont m')^[k] cont = .cont a ∧ m.heap[a]? = some (Obj.cont kk) ∧
      m'.heap[a]? = some (Obj.cont kk) := by
  induction rs generalizing cont k with
  | nil => simp at hk
  | cons x rs ih =>
    cases hc with
    | stack hrest => obtain ⟨a, ha⟩ := hall _ List.mem_cons_self; cases ha
    | @heap a kk _ hget hrest =>
      have hget' := hold a kk hget List.mem_cons_self
      cases k with
      | zero => exact ⟨a, kk, rfl, rfl, rfl, hget, hget'⟩
      | succ k =>
        obtain ⟨b, kb, hb⟩ := ih hrest (fun x hx => hall x (List.mem_cons_of_mem _ hx))
          (fun a k hk hm => hold a k hk (List.mem_cons_of_mem _ hm)) (Nat.lt_of_succ_lt_succ hk)
        refine ⟨b, kb, ?_⟩
        rw [Function.iterate_succ_apply, Function.iterate_succ_apply, nextcont, nextcont,
          hcont_of_get hget, hcont_of_get hget']
        exact hb

theorem ContChain.head_eq {cont : Value} (hc : ContChain m cont rs) : cont = rs.headD .nil := by
  cases hc <;> rfl

/-- Position `k` of the two chains. -/
theorem Linked.at {cont first : Value} (h : Linked cs m σ m' rs first)
    (hc : ContChain m cont rs)
    (hold : ∀ (a : Nat) (k : HeapCont), m.heap[a]? = some (Obj.cont k) → Value.cont a ∈ rs →
      m'.heap[a]? = some (Obj.cont k)) {k : Nat} (hk : k < rs.length) :
    (∃ c a kk, rs[k] = .fixnum c ∧ (nextcont m)^[k] cont = .fixnum c ∧
      (nextcont m')^[k] first = .cont a ∧ m'.heap[a]? = some (Obj.cont kk) ∧
      MovedCont cs m σ m' c kk) ∨
    (∃ a kk, rs[k] = .cont a ∧ (nextcont m)^[k] cont = .cont a ∧
      (nextcont m')^[k] first = .cont a ∧ m.heap[a]? = some (Obj.cont kk) ∧
      m'.heap[a]? = some (Obj.cont kk)) := by
  induction h generalizing cont k with
  | heap hchain hall =>
    rw [hc.head_eq, ← hchain.head_eq]
    exact .inr (heap_at hchain hall hold hk)
  | stack ha hget hmoved hrest ih =>
    cases hc with
    | stack hcrest =>
      cases k with
      | zero => exact .inl ⟨_, _, _, rfl, rfl, rfl, hget, hmoved⟩
      | succ k =>
        simp only [Function.iterate_succ_apply, nextcont, hcont_of_get hget, List.getElem_cons_succ]
        exact ih hcrest (fun a k hk hm => hold a k hk (List.mem_cons_of_mem _ hm))
          (Nat.lt_of_succ_lt_succ hk)

theorem savedSlots_heap {xs : List Value} (h : ∀ x ∈ xs, ∃ a, x = Value.cont a) :
    savedSlots xs = [] := by
  refine List.filterMap_eq_nil_iff.mpr fun x hx => ?_
  obtain ⟨a, rfl⟩ := h x hx
  rfl

theorem Linked.contChain {first : Value} (h : Linked cs m σ m' rs first)
    (hold : ∀ (a : Nat) (k : HeapCont), m.heap[a]? = some (Obj.cont k) → Value.cont a ∈ rs →
      m'.heap[a]? = some (Obj.cont k)) :
    ∃ ys, ContChain m' first ys ∧ ys.length = rs.length ∧ savedSlots ys = [] := by
  induction h with
  | heap hchain hall =>
    refine ⟨_, ?_, rfl, savedSlots_heap hall⟩
    induction hchain with
    | nil => exact .nil
    | stack _ _ => obtain ⟨a, ha⟩ := hall _ List.mem_cons_self; cases ha
    | heap hk hrest ih =>
      exact .heap (hold _ _ hk List.mem_cons_self) (ih
        (fun x hx => hall x (List.mem_cons_of_mem _ hx))
        (fun a k hk hm => hold a k hk (List.mem_cons_of_mem _ hm)))
  | stack ha hget hmoved hrest ih =>
    obtain ⟨ys, hys, hlen, hslots⟩ := ih fun a k hk hm => hold a k hk (List.mem_cons_of_mem _ hm)
    exact ⟨_, .heap hget hys, by simp [hlen], hslots⟩

end Restore

section Whole

variable {cs : List Value} {m : Machine} {fuel : Nat}

/-- The machine after both moves: the saved environments renamed by `σ`, the
environment register given its own copy. -/
structure MovedMachine (cs : List Value) (m : Machine) (σ : Nat → Option Nat) (m' : Machine) :
    Prop where
  vec : ∀ a, a < m.heap.length → m'.vec a = m.vec a
  old : ∀ (a : Nat) (k : HeapCont), m.heap[a]? = some (Obj.cont k) → Value.cont a ∈ cs →
    m'.heap[a]? = some (Obj.cont k)
  linked : Linked cs m σ m' cs m'.conr
  copy : ∀ e v, σ e = some v →
    m.heap.length ≤ v ∧ v < m'.heap.length ∧ m'.vec v = frameCells m e
  fresh : ∀ e, m.envr = .env e → ∃ v, m'.envr = .vector v ∧ ∀ e', σ e' ≠ some v
  envr : envP m.envr = false → m'.envr = m.envr
  parents : ∀ d, envAt m' m'.envr (d + 1) = envAt m m.envr (d + 1)

theorem moveToHeap_moved (hf : ThreadFormed m cs) (hb : Bounded m cs fuel)
    (henv : ∃ es, EnvChain m m.envr es ∧ FramesApart m cs es ∧ es.length < fuel)
    (hlens : ∀ c, Value.fixnum c ∈ cs → -1 ≤ savedLength m c) :
    ∃ m' σ, moveToHeap fuel m = some m' ∧ MovedMachine cs m σ m' := by
  have hbefore : Before m m.conr .nil := trivial
  obtain ⟨m₁, σ, first, hrun₁, hr, -, -, hlinked⟩ := arcCont2heap_moves hf (Renamed.refl cs m)
    hf.chain (fun x hx => hx) hb hb.1 hbefore (fun p hp => nomatch hp) hlens
  have hold₁ : ∀ (a : Nat) (k : HeapCont), m.heap[a]? = some (Obj.cont k) →
      Value.cont a ∈ cs → m₁.heap[a]? = some (Obj.cont k) :=
    fun a k hk _ => (hr.old a (List.getElem?_eq_some_iff.mp hk).1).trans hk
  obtain ⟨es, hchain, hap, hlen⟩ := henv
  obtain ⟨ys, hys, hylen, hslots⟩ := hlinked.contChain hold₁
  let m₁' : Machine := { m₁ with conr := first }
  have henvr : m₁'.envr = m.envr := by
    change m₁.envr = m.envr
    rw [hr.frame]
  have hchain₁ : EnvChain m₁' m.envr es := hchain.of_kept hr.length
    (fun a ha => vec_of_get (hr.old a ha)) fun e he => hr.out e (hap e he e (.inl rfl))
  have hys₁ : ContChain m₁' m₁'.conr ys := hys.of_kept (fun _ _ => rfl) fun a k hk => ⟨k, hk, rfl⟩
  have hylt : ys.length < fuel := hylen ▸ hb.1
  obtain ⟨m₂, env', hrun₂, hred, hslot₂, -, hhead⟩ := arcEnv2heap_spec hchain₁ hys₁ hlen hylt
  have hvec₂ : ∀ a, a < m₁.heap.length → m₂.vec a = m₁.vec a := fun a ha => hred.vec a ha
  refine ⟨{ m₂ with envr := env' }, σ, ?_, ⟨fun a ha => ?_, fun a k hk hm => ?_, ?_, fun e v hs => ?_,
    fun e he => ?_, fun he => ?_, fun d => ?_⟩⟩
  · have hstep : senvrEnv2heap fuel m₁' = some { m₂ with envr := env' } := by
      rw [senvrEnv2heap, henvr, hrun₂]
      rfl
    rw [moveToHeap, hrun₁]
    exact hstep
  · exact (hvec₂ a (ha.trans_le hr.length)).trans (vec_of_get (hr.old a ha))
  · exact hred.cont a k (hold₁ a k hk hm) (hf.heap a k hm hk).1
  · have hconr : m₂.conr = first := by rw [hred.frame]
    change Linked cs m σ _ cs m₂.conr
    rw [hconr]
    exact hlinked.mono (Extends.refl σ) hred.length (fun a k _ hk he => hred.cont a k hk he)
      fun b _ hb => hvec₂ b hb
  · obtain ⟨hge, hlt, hcells⟩ := hr.copy e v hs
    exact ⟨hge, hlt.trans_le hred.length, (hvec₂ v hlt).trans hcells⟩
  · rw [he] at hhead
    obtain ⟨v, rfl, hge, -⟩ := hhead
    refine ⟨v, rfl, fun e' hs => ?_⟩
    have hlt := (hr.copy e' v hs).2.1
    change m₁.heap.length ≤ v at hge
    omega
  · cases hv : m.envr with
    | env e => rw [hv] at he; cases he
    | _ => rw [hv] at hhead; exact hhead
  · have hslot : ∀ e, Value.env e ∈ es → m₂.slot e = m.slot e := fun e he => by
      rw [hslot₂ e (by simp [hslots])]
      exact hr.out e (hap e he e (.inl rfl))
    have hvec : ∀ a, a < m.heap.length → m₂.vec a = m.vec a := fun a ha =>
      (hvec₂ a (ha.trans_le hr.length)).trans (vec_of_get (hr.old a ha))
    have hnext : nextenv m₂ env' = nextenv m₂ m.envr := by
      rw [hhead.next_eq hred hchain₁]
      cases hv : m.envr with
      | env e =>
        rw [hv] at hchain
        cases hchain
        exact (hslot₂ e (by simp [hslots])).symm
      | vector a =>
        rw [hv] at hchain₁
        cases hchain₁ with
        | vector ha _ => exact (Machine.vindex_of_vec (hred.vec a ha)).symm
      | _ => rfl
    have hgo := hchain.envAt_eq hvec hslot (d + 1)
    rw [envAt_succ, ← hnext] at hgo
    exact hgo

/-- The `k`-th continuation restored before and after the moves. -/
structure Restored (cs : List Value) (m : Machine) (σ : Nat → Option Nat) (m' : Machine)
    (cont : Value) (r r' : Machine) : Prop where
  envr : r.envr = contenv m cont
  moved : r'.envr = rename σ (contenv m cont)
  onHeap : envP r'.envr = false
  slot : r.slot = m.slot ∨ envP (contenv m cont) = false
  heap : r.heap = m.heap
  heap' : r'.heap = m'.heap
  funr : r'.funr = r.funr
  ip : r'.ip = r.ip
  argc : r'.argc = r.argc
  saved : List.Forall₂ (Word (SavedEnv m cs) σ) (functionPart r) (functionPart r')

theorem restorecont_heap (m : Machine) (cont : Value) : (arcRestorecont m cont).heap = m.heap := by
  cases cont <;> first | rfl | exact pushAll_heap

theorem restorecont_cont {a : Nat} {k : HeapCont} (hk : m.heap[a]? = some (.cont k)) :
    (arcRestorecont m (.cont a)).envr = k.contEnv ∧ (arcRestorecont m (.cont a)).funr = k.contFun ∧
      (arcRestorecont m (.cont a)).ip = (fix2int k.contOfs).toNat ∧
      (arcRestorecont m (.cont a)).argc = (fix2int k.contArgc).toNat := by
  simp only [arcRestorecont, hcont_of_get hk, and_self]

theorem MovedMachine.restored {σ : Nat → Option Nat} {m' : Machine} (hf : ThreadFormed m cs)
    (h : MovedMachine cs m σ m') {k : Nat} (hk : k < cs.length) (slot : Nat → Value) (sp : Nat) :
    Restored cs m σ m' cs[k] (arcRestorecont m (contAt m k))
      (arcRestorecont { m' with slot := slot, sp := sp } (contAt m' k)) := by
  have hmem : cs[k] ∈ cs := List.getElem_mem hk
  rcases h.linked.at hf.chain h.old hk with ⟨c, a, kk, hc, hm, hm', hget, hmoved⟩ |
    ⟨a, kk, hc, hm, hm', hget, hget'⟩
  · have hs' : ({ m' with slot := slot, sp := sp } : Machine).heap[a]? = some (.cont kk) := hget
    obtain ⟨he, hfun, hip, hargc⟩ := restorecont_cont hs'
    have hwords' := functionPart_restore hs'
    rw [hc] at hmem ⊢
    obtain ⟨hsix, ⟨T, hT⟩, -⟩ := hf.stack c hmem
    obtain ⟨b, hb, -, -, hwords⟩ := hmoved.contStk
    rw [hb] at hwords'
    rw [contAt, contAt, hm, hm']
    refine ⟨rfl, he.trans hmoved.contEnv, he ▸ hmoved.heapEnv, .inl rfl, rfl,
      restorecont_heap _ _, hfun.trans hmoved.contFun, ?_, ?_, ?_⟩
    · rw [hip, hmoved.contOfs]
      rfl
    · rw [hargc, hmoved.contArgc]
      rfl
    · rw [functionPart_stack hsix hT, hwords']
      exact hwords
  · have hs' : ({ m' with slot := slot, sp := sp } : Machine).heap[a]? = some (.cont kk) := hget'
    obtain ⟨he, hfun, hip, hargc⟩ := restorecont_cont hget
    obtain ⟨he', hfun', hip', hargc'⟩ := restorecont_cont hs'
    have hwords := functionPart_restore hget
    have hwords' := functionPart_restore hs'
    rw [hc] at hmem ⊢
    obtain ⟨henv, -, hstk⟩ := hf.heap a kk hmem hget
    have hce : contenv m (.cont a) = kk.contEnv := by rw [contenv, hcont_of_get hget]
    rw [contAt, contAt, hm, hm']
    refine ⟨he.trans hce.symm, ?_, he' ▸ henv, .inr (hce ▸ henv), restorecont_heap _ _,
      restorecont_heap _ _, hfun'.trans hfun.symm, hip'.trans hip.symm, hargc'.trans hargc.symm, ?_⟩
    · rw [he', hce, rename_of_not_env henv]
    · rw [hwords, hwords']
      cases hb : kk.contStk with
      | vector b =>
        have hvec : ({ m' with slot := slot, sp := sp } : Machine).vec b = m.vec b :=
          h.vec b (hstk b hb)
        simp only [hvec]
        exact List.forall₂_same.mpr fun _ _ => .inl rfl
      | _ => exact .nil

open scoped Classical in
/-- The renaming of all references: the environment register is given a copy of
its own, and the frames above it stay where they are. -/
noncomputable def renameAll (σ : Nat → Option Nat) (m m' : Machine) (v : Value) : Value :=
  if v = m.envr then m'.envr
  else if ∃ d, v = envAt m m.envr d then v
  else rename σ v

theorem Restored.allHeap_iff {σ : Nat → Option Nat} {m' r r' : Machine} {cont : Value}
    {es : List Value} (h : Restored cs m σ m' cont r r') (hm : MovedMachine cs m σ m')
    (henv : EnvChain m (contenv m cont) es) :
    AllHeap r' r'.envr ↔ AllHeap m (nextenv m (contenv m cont)) := by
  have hvec : ∀ a, r'.vec a = m'.vec a := fun a => by rw [Machine.vec, Machine.vec, h.heap']
  have hnext : nextenv r' r'.envr = nextenv m (contenv m cont) := by
    rw [h.moved]
    refine nextenv_rename (h.moved ▸ h.onHeap) (fun e v hs => (hvec v).trans (hm.copy e v hs).2.2) henv
      fun a ha => (hvec a).trans (hm.vec a ha)
  obtain ⟨es', hrest⟩ := henv.next
  rw [← hrest.allHeap_iff fun a ha => (hvec a).trans (hm.vec a ha), ← hnext]
  refine ⟨fun hall => hall.next, fun hall d => ?_⟩
  cases d with
  | zero => exact h.onHeap
  | succ d => exact hall d

theorem SavedEnv.contenv {v : Value} (h : SavedEnv m cs v) : ∃ cont ∈ cs, contenv m cont = v := by
  obtain ⟨i, hi, hv⟩ := h
  obtain ⟨cont, hmem, hslot⟩ := List.mem_filterMap.mp hi
  cases cont with
  | fixnum c =>
    have hi' : c.toNat - 4 = i := Option.some.inj hslot
    exact ⟨.fixnum c, hmem, by rw [← hv, ← hi']; rfl⟩
  | _ => exact nomatch hslot

theorem MovedMachine.renameAll_of_not_env {σ : Nat → Option Nat} {m' : Machine} {v : Value}
    (h : MovedMachine cs m σ m') (hv : envP v = false) : renameAll σ m m' v = v := by
  rw [renameAll]
  split
  · next he => rw [h.envr (he ▸ hv), he]
  · split
    · rfl
    · exact rename_of_not_env hv

theorem renameAll_saved {σ : Nat → Option Nat} {m' : Machine} {v : Value}
    (h : ∀ d, v ≠ envAt m m.envr d) : renameAll σ m m' v = rename σ v := by
  have hhead : v ≠ m.envr := h 0
  rw [renameAll, if_neg hhead, if_neg fun ⟨d, hd⟩ => h d hd]

theorem MovesCleanly.renameAll_eq {σ : Nat → Option Nat} {m' : Machine}
    (hclean : MovesCleanly m cs) (hm : MovedMachine cs m σ m') {cont : Value} (hcont : cont ∈ cs) :
    renameAll σ m m' (contenv m cont) = rename σ (contenv m cont) := by
  by_cases hv : envP (contenv m cont) = true
  · refine renameAll_saved fun d hd => ?_
    exact hclean.apart d (hd ▸ hv) cont hcont hd
  · have hv' : envP (contenv m cont) = false := by simpa using hv
    rw [hm.renameAll_of_not_env hv', rename_of_not_env hv']

theorem MovedMachine.envAt_eq {σ : Nat → Option Nat} {m' : Machine} {es : List Value}
    (h : MovedMachine cs m σ m') (henv : EnvChain m m.envr es) (d : Nat) :
    envAt m' m'.envr d = renameAll σ m m' (envAt m m.envr d) := by
  cases d with
  | zero => exact (if_pos rfl).symm
  | succ d =>
    rw [h.parents d]
    by_cases hv : envP (envAt m m.envr (d + 1)) = true
    · rw [renameAll, if_neg (henv.envAt_ne hv), if_pos ⟨d + 1, rfl⟩]
    · rw [h.renameAll_of_not_env (by simpa using hv)]

theorem Restored.vec {σ : Nat → Option Nat} {m' r r' : Machine} {cont : Value}
    (h : Restored cs m σ m' cont r r') (a : Nat) : r.vec a = m.vec a := by
  rw [Machine.vec, Machine.vec, h.heap]

theorem Restored.vec' {σ : Nat → Option Nat} {m' r r' : Machine} {cont : Value}
    (h : Restored cs m σ m' cont r r') (a : Nat) : r'.vec a = m'.vec a := by
  rw [Machine.vec, Machine.vec, h.heap']

theorem Restored.nextenv_eq {σ : Nat → Option Nat} {m' r r' : Machine} {cont : Value}
    (h : Restored cs m σ m' cont r r') :
    nextenv r (contenv m cont) = nextenv m (contenv m cont) := by
  cases hv : contenv m cont with
  | env e =>
    rcases h.slot with hslot | hno
    · rw [nextenv, nextenv, hslot]
    · rw [hv] at hno
      cases hno
  | vector a => exact Machine.vindex_of_vec (h.vec a)
  | _ => rfl

theorem Restored.envChain {σ : Nat → Option Nat} {m' r r' : Machine} {cont : Value}
    {es : List Value} (h : Restored cs m σ m' cont r r') (henv : EnvChain m (contenv m cont) es)
    (hlinked : AllHeap m (nextenv m (contenv m cont))) : EnvChain r r.envr es := by
  rw [h.envr]
  refine henv.of_kept (by rw [h.heap]) (fun a _ => h.vec a) fun e he => ?_
  rcases h.slot with hslot | hno
  · rw [hslot]
  · have hheap : AllHeap m (contenv m cont) := by
      intro d
      cases d with
      | zero => exact hno
      | succ d => exact hlinked d
    exact absurd he (hheap.not_mem_env henv e)

theorem Restored.movedHead {σ : Nat → Option Nat} {m' r r' : Machine} {cont : Value}
    (h : Restored cs m σ m' cont r r') (hm : MovedMachine cs m σ m') :
    MovedHead r r' r.envr r'.envr := by
  rw [h.envr, h.moved]
  have hheap := h.onHeap
  rw [h.moved] at hheap
  cases hv : contenv m cont with
  | env e =>
    have hslot : r.slot = m.slot := by
      rcases h.slot with hslot | hno
      · exact hslot
      · rw [hv] at hno
        cases hno
    cases hs : σ e with
    | none => rw [hv, rename_env_none hs] at hheap; cases hheap
    | some v =>
      obtain ⟨hge, hlt, hcells⟩ := hm.copy e v hs
      refine ⟨v, rename_env_some hs, by rwa [h.heap], by rwa [h.heap'], ?_⟩
      rw [h.vec', hcells, frameCells, frameCells, senvStart, senvStart, senvCount, senvCount, hslot]
  | _ => rfl

theorem Restored.sameContinuation {σ : Nat → Option Nat} {m' r r' : Machine} {cont : Value}
    (hf : ThreadFormed m cs) (hclean : MovesCleanly m cs) (hm : MovedMachine cs m σ m')
    (hcont : cont ∈ cs) (h : Restored cs m σ m' cont r r') :
    SameContinuation (renameAll σ m m') r r' := by
  have hlinked := hclean.linked cont hcont
  obtain ⟨es, henv, -⟩ := hf.saved cont hcont
  obtain ⟨es', hrest⟩ := henv.next
  have hnextr : nextenv r r.envr = nextenv m (contenv m cont) := by rw [h.envr, h.nextenv_eq]
  have hnext : nextenv r' r'.envr = nextenv r r.envr := by
    rw [hnextr, h.moved]
    exact nextenv_rename (h.moved ▸ h.onHeap) (fun e v hs => (h.vec' v).trans (hm.copy e v hs).2.2)
      henv fun a ha => (h.vec' a).trans (hm.vec a ha)
  have hheapr : AllHeap r (nextenv r r.envr) := by
    rw [hnextr]
    exact (hrest.allHeap_iff fun a _ => h.vec a).mpr hlinked
  refine ⟨h.funr, h.ip, h.argc, ?_, (h.allHeap_iff hm henv).mpr hlinked, fun d i hi => ?_, ?_⟩
  · rw [h.envr, h.moved, hclean.renameAll_eq hm hcont]
  · have hvec : ∀ a, a < r.heap.length → r'.vec a = r.vec a := fun a ha => by
      rw [h.vec', h.vec, hm.vec a (h.heap ▸ ha)]
    exact arcGetenv_of_heap (h.envChain henv hlinked) hheapr hvec (h.movedHead hm) hnext hi
  · refine h.saved.imp fun v v' hw => ?_
    rcases hw with hw | ⟨hS, hw⟩
    · exact .inl hw
    · obtain ⟨x, hx, rfl⟩ := hS.contenv
      exact .inr (hw.trans (hclean.renameAll_eq hm hx).symm)

theorem exists_lt_of_forall {P : Value → List Value → Prop} {xs : List Value}
    (h : ∀ x ∈ xs, ∃ es, P x es) : ∃ n, ∀ x ∈ xs, ∃ es, P x es ∧ es.length < n := by
  induction xs with
  | nil => exact ⟨0, by simp⟩
  | cons x xs ih =>
    obtain ⟨n, hn⟩ := ih fun y hy => h y (List.mem_cons_of_mem _ hy)
    obtain ⟨es, hes⟩ := h x List.mem_cons_self
    refine ⟨n + es.length + 1, fun y hy => ?_⟩
    rcases List.mem_cons.mp hy with rfl | hy
    · exact ⟨es, hes, by omega⟩
    · obtain ⟨ys, hys, hlt⟩ := hn y hy
      exact ⟨ys, hys, by omega⟩

/-- A step bound that covers all chains of the thread. -/
theorem ThreadFormed.exists_bound (hf : ThreadFormed m cs) : ∃ bound, ∀ fuel, bound ≤ fuel →
    Bounded m cs fuel ∧ ∃ es, EnvChain m m.envr es ∧ FramesApart m cs es ∧ es.length < fuel := by
  obtain ⟨n, hn⟩ := exists_lt_of_forall hf.saved
  obtain ⟨es, henv, hap⟩ := hf.envr
  refine ⟨cs.length + n + es.length + 1, fun fuel hfuel => ⟨⟨by omega, fun x hx => ?_⟩, es, henv,
    hap, by omega⟩⟩
  obtain ⟨ys, hys, hlt⟩ := hn x hx
  exact ⟨ys, hys.1, hys.2, by omega⟩

/-- Moving the continuations and then the environment keeps all continuations
and the sharing of frames exactly for the threads that move cleanly. -/
theorem moveToHeap_preserves_iff (hf : ThreadFormed m cs) : ∃ bound, ∀ fuel, bound ≤ fuel →
    ((∃ m', moveToHeap fuel m = some m' ∧ ContsMoved cs.length m m') ↔ MovesCleanly m cs) := by
  obtain ⟨bound, hbound⟩ := hf.exists_bound
  refine ⟨bound, fun fuel hfuel => ?_⟩
  obtain ⟨hb, henv⟩ := hbound fuel hfuel
  constructor
  · rintro ⟨m', hrun, ρ, hρ, hshare, hsame⟩
    have hlens : ∀ c, Value.fixnum c ∈ cs → -1 ≤ savedLength m c := by
      by_contra hc
      push Not at hc
      have hbefore : Before m m.conr .nil := trivial
      have hfail := arcCont2heap_fails (n := fuel) hf (Renamed.refl cs m) hf.chain
        (fun x hx => hx) hb hbefore (fun p hp => nomatch hp) (hc.imp fun c h => ⟨h.1, by omega⟩)
      rw [moveToHeap, hfail] at hrun
      cases hrun
    obtain ⟨m₂, σ, hrun₂, hm⟩ := moveToHeap_moved hf hb henv hlens
    cases hrun.symm.trans hrun₂
    have hrestored := fun k (hk : k < cs.length) => hm.restored hf hk m'.slot m'.sp
    have hlinked : ∀ cont ∈ cs, AllHeap m (nextenv m (contenv m cont)) := by
      intro cont hmem
      obtain ⟨k, hk, rfl⟩ := List.mem_iff_getElem.mp hmem
      obtain ⟨es, hes, -⟩ := hf.saved _ hmem
      exact ((hrestored k hk).allHeap_iff hm hes).mp (hsame k hk _ _).heap
    refine ⟨hlinked, fun d he cont hmem heq => ?_, hlens⟩
    obtain ⟨k, hk, rfl⟩ := List.mem_iff_getElem.mp hmem
    obtain ⟨e, hv⟩ : ∃ e, envAt m m.envr d = .env e := by
      cases hv : envAt m m.envr d <;> first | exact ⟨_, rfl⟩ | (rw [hv] at he; cases he)
    have hr := hrestored k hk
    have hmoved := (hsame k hk m'.slot m'.sp).envr
    have hheap := hr.onHeap
    rw [hr.moved, heq, hv] at hheap
    rw [hr.envr, heq, ← hshare d, hr.moved, heq, hv] at hmoved
    cases d with
    | zero =>
      obtain ⟨v, hv', hfresh⟩ := hm.fresh e hv
      cases hs : σ e with
      | none => rw [rename_env_none hs] at hheap; cases hheap
      | some w =>
        rw [rename_env_some hs] at hmoved
        exact hfresh e (hs.trans (congrArg some (Value.vector.inj (hmoved.trans hv'))))
    | succ d =>
      rw [hm.parents d, hv] at hmoved
      rw [hmoved] at hheap
      cases hheap
  · intro hclean
    obtain ⟨m', σ, hrun, hm⟩ := moveToHeap_moved hf hb henv hclean.length
    obtain ⟨es, hchain, -⟩ := henv
    refine ⟨m', hrun, renameAll σ m m', fun v hv => hm.renameAll_of_not_env hv,
      hm.envAt_eq hchain, ?_⟩
    intro k hk slot sp
    exact (hm.restored hf hk slot sp).sameContinuation hf hclean hm (List.getElem_mem hk)

end Whole

/-- A continuation made inside the frame that the environment register holds. -/
def sharedFrame : Machine := sconrMkcont oneFrame 5

theorem sharedFrame_built : Built sharedFrame [.fixnum 9] 9 :=
  .mkcont (.mkenv (.push (.thread _) rfl) (by decide))

theorem moveToHeap_sharedFrame : ∃ bound, ∀ fuel, bound ≤ fuel →
    ((∃ m', moveToHeap fuel sharedFrame = some m' ∧ ContsMoved 1 sharedFrame m') ↔
      MovesCleanly sharedFrame [.fixnum 9]) :=
  moveToHeap_preserves_iff sharedFrame_built.formed

/-- The register and the continuation end up with different copies. -/
theorem moveToHeap_sharedFrame_splits :
    ∃ m', moveToHeap 4 sharedFrame = some m' ∧ ¬ ContsMoved 1 sharedFrame m' := by
  have hruns : (moveToHeap 4 sharedFrame).isSome = true := by decide
  have hreg : (moveToHeap 4 sharedFrame).map Machine.envr = some (.vector 3) := by decide
  have hrestored : (moveToHeap 4 sharedFrame).map (fun m' =>
      (arcRestorecont { m' with slot := fun _ => .nil, sp := 0 } (contAt m' 0)).envr) =
        some (.vector 1) := by decide
  obtain ⟨m', hm'⟩ := Option.isSome_iff_exists.mp hruns
  rw [hm', Option.map_some, Option.some.injEq] at hreg hrestored
  refine ⟨m', hm', ?_⟩
  rintro ⟨ρ, -, hshare, hsame⟩
  have hcopy := hshare 0
  have hcont := (hsame 0 (by decide) (fun _ => .nil) 0).envr
  have henv : (arcRestorecont sharedFrame (contAt sharedFrame 0)).envr =
      envAt sharedFrame sharedFrame.envr 0 := by decide
  rw [henv, ← hcopy, hrestored] at hcont
  exact absurd (hcont.trans hreg) (by decide)

end Arcueid
