import Mathlib.Data.List.Forall2
import Arcueid.EnvHeap

/-! Moving the continuations of a thread to the heap. Saved environments are
renamed consistently; the environment register is not among them. -/

namespace Arcueid

/-- The frames of a chain lie apart from the words where continuations save
their environment. -/
def FramesApart (m : Machine) (cs es : List Value) : Prop :=
  ∀ e, Value.env e ∈ es → ∀ i, (i = e ∨ i = e - 1 ∨
    ∃ j, j < senvCount m e ∧ i = senvStart m e + j) → i ∉ savedSlots cs

/-- A thread as `__arc_mkenv` and `__arc_mkcont` leave it. Continuations that
were moved before lie behind the ones on the stack. -/
structure ThreadFormed (m : Machine) (cs : List Value) : Prop where
  chain : ContChain m m.conr cs
  envr : ∃ es, EnvChain m m.envr es ∧ FramesApart m cs es
  saved : ∀ cont ∈ cs, ∃ es, EnvChain m (contenv m cont) es ∧ FramesApart m cs es
  stack : ∀ c, Value.fixnum c ∈ cs → 6 ≤ c ∧ (∃ n : Nat, stackCont m c.toNat 6 = .fixnum n) ∧
    envP (stackCont m c.toNat 2) = false ∧ envP (stackCont m c.toNat 3) = false ∧
    envP (stackCont m c.toNat 5) = false
  heap : ∀ a k, Value.cont a ∈ cs → m.heap[a]? = some (Obj.cont k) →
    envP k.contEnv = false ∧ (k.contCont = .nil ∨ ∃ b, k.contCont = .cont b) ∧
      ∀ b, k.contStk = .vector b → b < m.heap.length

/-- Moved environments replaced by their copies. -/
def rename (σ : Nat → Option Nat) : Value → Value
  | .env e => match σ e with
    | some v => .vector v
    | none => .env e
  | v => v

def extend (σ : Nat → Option Nat) (e v : Nat) : Nat → Option Nat :=
  Function.update σ e (some ((σ e).getD v))

def Extends (σ σ' : Nat → Option Nat) : Prop := ∀ e v, σ e = some v → σ' e = some v

section Rename

variable {σ σ' : Nat → Option Nat} {e v : Nat} {x : Value}

theorem rename_of_not_env (h : envP x = false) : rename σ x = x := by
  cases x <;> first | rfl | cases h

theorem rename_env_none (h : σ e = none) : rename σ (.env e) = .env e := by simp [rename, h]

theorem rename_env_some (h : σ e = some v) : rename σ (.env e) = .vector v := by simp [rename, h]

theorem Extends.refl (σ : Nat → Option Nat) : Extends σ σ := fun _ _ h => h

theorem Extends.trans {σ'' : Nat → Option Nat} (h : Extends σ σ') (h' : Extends σ' σ'') :
    Extends σ σ'' := fun e v he => h' e v (h e v he)

theorem extends_extend : Extends σ (extend σ e v) := by
  intro e' w h
  by_cases he : e' = e
  · subst he; simp [extend, h]
  · simp [extend, he, h]

theorem Extends.rename_eq (h : Extends σ σ') (hx : envP (rename σ x) = false) :
    rename σ' x = rename σ x := by
  cases x with
  | env e =>
    cases hs : σ e with
    | none => rw [rename_env_none hs] at hx; cases hx
    | some v => rw [rename_env_some hs, rename_env_some (h e v hs)]
  | _ => rfl

/-- A word is as it was, or a renamed member of `S`. -/
def Word (S : Value → Prop) (σ : Nat → Option Nat) (v v' : Value) : Prop :=
  v' = v ∨ S v ∧ v' = rename σ v

theorem Word.mono {S : Value → Prop} {v' : Value} (h : Extends σ σ') (hw : Word S σ x v') :
    Word S σ' x v' := by
  rcases hw with hw | ⟨hS, hw⟩
  · exact .inl hw
  · by_cases hx : envP (rename σ x) = false
    · exact .inr ⟨hS, hw.trans (h.rename_eq hx).symm⟩
    · refine .inl (hw.trans ?_)
      cases x with
      | env e =>
        cases hs : σ e with
        | none => exact rename_env_none hs
        | some v => exact absurd (by rw [rename_env_some hs]; rfl) hx
      | _ => rfl

end Rename

/-- The machine `m` with its saved environments renamed and objects added. -/
structure Renamed (cs : List Value) (σ : Nat → Option Nat) (m m' : Machine) : Prop where
  frame : m' = { m with slot := m'.slot, heap := m'.heap }
  length : m.heap.length ≤ m'.heap.length
  out : ∀ i, i ∉ savedSlots cs → m'.slot i = m.slot i
  saved : ∀ i, i ∈ savedSlots cs → m'.slot i = rename σ (m.slot i)
  old : ∀ a, a < m.heap.length → m'.heap[a]? = m.heap[a]?
  copy : ∀ e v, σ e = some v →
    m.heap.length ≤ v ∧ v < m'.heap.length ∧ m'.vec v = frameCells m e

section Renamed

variable {cs es : List Value} {σ : Nat → Option Nat} {m m' m'' : Machine} {e fuel : Nat}

theorem Renamed.refl (cs : List Value) (m : Machine) : Renamed cs (fun _ => none) m m where
  frame := rfl
  length := le_refl _
  out := fun _ _ => rfl
  saved := fun i _ => by cases h : m.slot i <;> rfl
  old := fun _ _ => rfl
  copy := fun _ _ h => nomatch h

/-- The environments that the continuations of a chain save on the stack. -/
def SavedEnv (m : Machine) (cs : List Value) (v : Value) : Prop :=
  ∃ i ∈ savedSlots cs, m.slot i = v

theorem Renamed.word (h : Renamed cs σ m m') (i : Nat) :
    Word (SavedEnv m cs) σ (m.slot i) (m'.slot i) := by
  by_cases hi : i ∈ savedSlots cs
  · exact .inr ⟨⟨i, hi, rfl⟩, h.saved i hi⟩
  · exact .inl (h.out i hi)

theorem Renamed.slot_eq (h : Renamed cs σ m m') {i : Nat} (hi : envP (m.slot i) = false) :
    m'.slot i = m.slot i := by
  rcases h.word i with hw | ⟨-, hw⟩
  · exact hw
  · rw [hw, rename_of_not_env hi]

theorem vec_of_get {a : Nat} (h : m'.heap[a]? = m.heap[a]?) : m'.vec a = m.vec a := by
  rw [Machine.vec, Machine.vec, h]

theorem Renamed.contChain {cont : Value} {xs : List Value} (h : Renamed cs σ m m')
    (hc : ContChain m cont xs) : ContChain m' cont xs := by
  refine hc.of_kept (fun i hi => h.slot_eq ?_) (fun a k hk => ⟨k, ?_, rfl⟩)
  · cases hv : m.slot i <;> first | rfl | (rw [hv] at hi; cases hi)
  · rw [h.old a (List.getElem?_eq_some_iff.mp hk).1, hk]

theorem Renamed.redirected (h : Renamed cs σ m m') : Redirected m m' := by
  refine ⟨h.frame, h.length, fun i => ?_, fun a ha => vec_of_get (h.old a ha),
    fun a k hk _ => (h.old a (List.getElem?_eq_some_iff.mp hk).1).trans hk⟩
  rcases h.word i with hw | ⟨-, hw⟩
  · exact .inl hw
  · cases hv : m.slot i with
    | env e =>
      cases hs : σ e with
      | none => exact .inl (by rw [hw, hv, rename_env_none hs])
      | some v => exact .inr ⟨rfl, by rw [hw, hv, rename_env_some hs]; rfl⟩
    | _ => exact .inl (by rw [hw, hv]; rfl)

theorem Renamed.frameCells_eq (h : Renamed cs σ m m') (hap : FramesApart m cs es)
    (he : Value.env e ∈ es) : frameCells m' e = frameCells m e := by
  have hcount : senvCount m' e = senvCount m e := by
    rw [senvCount, senvCount, h.out _ (hap e he _ (.inr (.inl rfl)))]
  rw [frameCells, frameCells, senvStart, senvStart, hcount, h.out e (hap e he e (.inl rfl))]
  congr 1
  refine List.map_congr_left fun i hi => h.out _ (hap e he _ (.inr (.inr ⟨i, ?_, rfl⟩)))
  exact List.mem_range.mp hi

theorem Renamed.alloc (h : Renamed cs σ m m') (o : Obj) : Renamed cs σ m (m'.alloc o) where
  frame := by rw [Machine.alloc, h.frame]
  length := by rw [alloc_length]; exact Nat.le_succ_of_le h.length
  out := h.out
  saved := h.saved
  old := fun a ha => (alloc_get (ha.trans_le h.length)).trans (h.old a ha)
  copy := fun e v hs => by
    obtain ⟨h₁, h₂, h₃⟩ := h.copy e v hs
    exact ⟨h₁, by rw [alloc_length]; omega, (alloc_vec h₂).trans h₃⟩

theorem Renamed.setCont {a : Nat} {k k' : HeapCont} (h : Renamed cs σ m m')
    (ha : m.heap.length ≤ a) (hk : m'.heap[a]? = some (.cont k)) :
    Renamed cs σ m (m'.setObj a (.cont k')) where
  frame := by rw [Machine.setObj, h.frame]
  length := by rw [setObj_length]; exact h.length
  out := h.out
  saved := h.saved
  old := fun b hb => by
    rw [setObj_cont_get hk, if_neg (by omega)]
    exact h.old b hb
  copy := fun e v hs => by
    obtain ⟨h₁, h₂, h₃⟩ := h.copy e v hs
    exact ⟨h₁, by rw [setObj_length]; exact h₂, (setObj_cont_vec hk).trans h₃⟩

theorem Renamed.heapCont_get {a : Nat} (hf : ThreadFormed m cs) (h : Renamed cs σ m m')
    (ha : Value.cont a ∈ cs) : ∃ k, m'.heap[a]? = some (.cont k) ∧ envP k.contEnv = false := by
  have hex : ∀ {x xs}, ContChain m x xs → Value.cont a ∈ xs →
      ∃ k, m.heap[a]? = some (Obj.cont k) := by
    intro x xs hx
    induction hx with
    | nil => simp
    | stack hrest ih => intro hmem; exact ih (by simpa using hmem)
    | heap hk hrest ih =>
      intro hmem
      rcases List.mem_cons.mp hmem with hc | hc
      · cases hc; exact ⟨_, hk⟩
      · exact ih hc
  obtain ⟨k, hk⟩ := hex hf.chain ha
  exact ⟨k, (h.old a (List.getElem?_eq_some_iff.mp hk).1).trans hk, (hf.heap a k ha hk).1⟩

/-- Copying one frame renames it wherever a continuation of the chain saves it. -/
theorem Renamed.moveFrame (hf : ThreadFormed m cs) (h : Renamed cs σ m m')
    (hap : FramesApart m cs es) (he : Value.env e ∈ es) (hfuel : cs.length < fuel) :
    ∃ m'', arcUpdateContEnvs fuel (heapEnv m' e).1 (.env e) (heapEnv m' e).2 = some m'' ∧
      Renamed cs (extend σ e m'.heap.length) m m'' ∧
      (∀ b, b < m'.heap.length → m''.heap[b]? = m'.heap[b]?) ∧
      m''.heap.length = m'.heap.length + 1 ∧ m''.vec m'.heap.length = frameCells m e := by
  have hconr : m'.conr = m.conr := by rw [h.frame]
  have hchain : ContChain m' m'.conr cs := hconr ▸ h.contChain hf.chain
  obtain ⟨m'', hupd, hred, hu, -, v, hv, -, hlt, hcells⟩ := moveFrame_spec (e := e) hchain hfuel
  cases hv
  have hcells' : m''.vec m'.heap.length = frameCells m e :=
    hcells.trans (h.frameCells_eq hap he)
  have hkeep : ∀ b, b < m'.heap.length → m''.heap[b]? = m'.heap[b]? := by
    intro b hb
    have hget : (heapEnv m' e).1.heap[b]? = m'.heap[b]? := alloc_get hb
    by_cases hmem : Value.cont b ∈ cs
    · obtain ⟨k, hk, henv⟩ := h.heapCont_get hf hmem
      rw [hu.cont b k (hget.trans hk), if_neg, hk]
      rintro ⟨-, hke⟩
      rw [hke] at henv
      cases henv
    · rw [hu.get b hmem, hget]
  have hlen : m''.heap.length = m'.heap.length + 1 := by
    rw [hu.length]
    simp [heapEnv]
  refine ⟨m'', hupd, ⟨?_, ?_, fun i hi => ?_, fun i hi => ?_, fun a ha => ?_, fun e' w hs => ?_⟩,
    hkeep, hlen, hcells'⟩
  · rw [hred.frame, h.frame]
  · exact h.length.trans hred.length
  · rw [hu.slot i, if_neg (fun hc => hi hc.2)]
    exact h.out i hi
  · have hslot : m''.slot i = if m'.slot i = .env e then .vector m'.heap.length else m'.slot i := by
      rw [hu.slot i]
      simp [hi, heapEnv]
    rw [hslot, h.saved i hi]
    cases hv : m.slot i with
    | env e' =>
      by_cases hee : e' = e
      · subst hee
        cases hs : σ e' with
        | none => simp [rename, extend, hs]
        | some w => simp [rename, extend, hs]
      · cases hs : σ e' with
        | none => simp [rename, extend, hs, hee]
        | some w => simp [rename, extend, hs, hee]
    | _ => simp [rename]
  · rw [hkeep a (ha.trans_le h.length)]
    exact h.old a ha
  · have hcopy : ∀ w, σ e' = some w →
        m.heap.length ≤ w ∧ w < m''.heap.length ∧ m''.vec w = frameCells m e' := by
      intro w hs
      obtain ⟨h₁, h₂, h₃⟩ := h.copy e' w hs
      exact ⟨h₁, by omega, (vec_of_get (hkeep w h₂)).trans h₃⟩
    by_cases hee : e' = e
    · subst hee
      cases hs' : σ e' with
      | none =>
        simp only [extend, hs', Option.getD_none, Function.update_self, Option.some.injEq] at hs
        subst hs
        exact ⟨h.length, by omega, hcells'⟩
      | some w' =>
        simp only [extend, hs', Option.getD_some, Function.update_self, Option.some.injEq] at hs
        subst hs
        exact hcopy _ hs'
    · rw [extend, Function.update_of_ne hee] at hs
      exact hcopy w hs

/-- Objects below the old end of the heap are kept. -/
def KeptBelow (n : Nat) (m m' : Machine) : Prop := ∀ b, b < n → m'.heap[b]? = m.heap[b]?

/-- Moving a chain of `m` renames its stack frames. -/
theorem Renamed.env2heap {n : Nat} {env : Value} (hf : ThreadFormed m cs)
    (h : Renamed cs σ m m') (henv : EnvChain m env es) (hap : FramesApart m cs es)
    (hn : es.length < n) (hfuel : cs.length < fuel) :
    ∃ m'' σ' env', arcEnv2heap fuel n m' env = some (m'', env') ∧ Renamed cs σ' m m'' ∧
      Extends σ σ' ∧ KeptBelow m'.heap.length m' m'' ∧ m'.heap.length ≤ m''.heap.length ∧
      envP env' = false ∧ ((∀ e, env = .env e → σ e = none) → env' = rename σ' env) := by
  induction es generalizing m' env n σ with
  | nil =>
    obtain ⟨n, rfl⟩ : ∃ k, n = k + 1 := ⟨n - 1, by omega⟩
    cases henv
    exact ⟨m', σ, .nil, rfl, h, Extends.refl σ, fun _ _ => rfl, le_refl _, rfl, fun _ => rfl⟩
  | cons x es ih =>
    obtain ⟨n, rfl⟩ : ∃ k, n = k + 1 := ⟨n - 1, by simp at hn; omega⟩
    have hn' : es.length < n := Nat.lt_of_succ_lt_succ hn
    have hap' : FramesApart m cs es := fun e he => hap e (List.mem_cons_of_mem _ he)
    have hconr : m'.conr = m.conr := by rw [h.frame]
    have hchain : ContChain m' m'.conr cs := hconr ▸ h.contChain hf.chain
    cases henv with
    | @vector a _ ha hrest =>
      have hnext : m'.vindex a 0 = m.vindex a 0 := Machine.vindex_of_vec (vec_of_get (h.old a ha))
      obtain ⟨m'', σ', env', hrun, hr, hext, hkeep, hlen, -, -⟩ := ih h hrest hap' hn'
      refine ⟨m'', σ', .vector a, ?_, hr, hext, hkeep, hlen, rfl, fun _ => rfl⟩
      rw [← hnext] at hrun
      simp only [arcEnv2heap, arcUpdateContEnvs, updateContEnvsFrom_same hchain hfuel,
        Option.bind_eq_bind, Option.bind_some, nextenv, hrun, Option.pure_def]
    | @env e _ hrest =>
      obtain ⟨m₁, hupd, hr₁, hkeep₁, hlen₁, hcells⟩ :=
        h.moveFrame hf hap List.mem_cons_self hfuel
      have hnext : nextenv m₁ (.vector m'.heap.length) = m.slot e := by
        simp [nextenv, Machine.vindex, hcells, frameCells]
      obtain ⟨m'', σ', env', hrun, hr, hext, hkeep, hlen, -, -⟩ := ih hr₁ hrest hap' hn'
      refine ⟨m'', σ', .vector m'.heap.length, ?_, hr, extends_extend.trans hext,
        fun b hb => ?_, by omega, rfl, fun hnone => ?_⟩
      · rw [← hnext] at hrun
        simp only [arcEnv2heap, hupd, Option.bind_eq_bind, Option.bind_some, Option.pure_def]
        rw [show (heapEnv m' e).2 = .vector m'.heap.length from rfl, hrun]
        rfl
      · rw [hkeep b (by omega), hkeep₁ b hb]
      · refine (rename_env_some (hext e _ ?_)).symm
        simp [extend, hnone e rfl]

/-- Moving a saved environment, which may have been moved before. -/
theorem Renamed.env2heap_saved {n : Nat} {env : Value} (hf : ThreadFormed m cs)
    (h : Renamed cs σ m m') (henv : EnvChain m env es) (hap : FramesApart m cs es)
    (hn : es.length < n) (hfuel : cs.length < fuel) :
    ∃ m'' σ', arcEnv2heap fuel n m' (rename σ env) = some (m'', rename σ' env) ∧
      Renamed cs σ' m m'' ∧ Extends σ σ' ∧ KeptBelow m'.heap.length m' m'' ∧
      m'.heap.length ≤ m''.heap.length ∧ envP (rename σ' env) = false := by
  have hfresh : ∀ (_ : ∀ e, env = .env e → σ e = none), rename σ env = env := by
    intro hnone
    cases env with
    | env e => exact rename_env_none (hnone e rfl)
    | _ => rfl
  by_cases hnone : ∀ e, env = .env e → σ e = none
  · obtain ⟨m'', σ', env', hrun, hr, hext, hkeep, hlen, hheap, heq⟩ :=
      h.env2heap hf henv hap hn hfuel
    rw [heq hnone] at hrun hheap
    exact ⟨m'', σ', by rw [hfresh hnone, hrun], hr, hext, hkeep, hlen, hheap⟩
  · obtain ⟨e, rfl, hsome⟩ : ∃ e, env = .env e ∧ σ e ≠ none := by
      push Not at hnone
      exact hnone
    obtain ⟨v, hv⟩ := Option.ne_none_iff_exists'.mp hsome
    obtain ⟨-, -, hcells⟩ := h.copy e v hv
    obtain ⟨n, rfl⟩ : ∃ k, n = k + 1 := ⟨n - 1, by omega⟩
    have hconr : m'.conr = m.conr := by rw [h.frame]
    have hchain : ContChain m' m'.conr cs := hconr ▸ h.contChain hf.chain
    have hnext : m'.vindex v 0 = m.slot e := by simp [Machine.vindex, hcells, frameCells]
    cases henv with
    | @env _ es' hrest =>
      obtain ⟨m'', σ', env', hrun, hr, hext, hkeep, hlen, -, -⟩ := h.env2heap (n := n) hf hrest
        (fun e' he' => hap e' (List.mem_cons_of_mem _ he')) (Nat.lt_of_succ_lt_succ hn) hfuel
      refine ⟨m'', σ', ?_, hr, hext, hkeep, hlen, ?_⟩
      · rw [rename_env_some hv, rename_env_some (hext e v hv)]
        rw [← hnext] at hrun
        simp only [arcEnv2heap, arcUpdateContEnvs, updateContEnvsFrom_same hchain hfuel,
          Option.bind_eq_bind, Option.bind_some, nextenv, hrun, Option.pure_def]
      · rw [rename_env_some (hext e v hv)]
        rfl

end Renamed

section Moved

variable {cs es rs : List Value} {σ σ' : Nat → Option Nat} {m m' m'' : Machine} {fuel : Nat}

/-- The number of words a stack continuation saves above the frame pointer. -/
def savedLength (m : Machine) (c : Int) : Int := c - 6 - fix2int (stackCont m c.toNat 6)

def savedWords (m : Machine) (c : Int) : List Value :=
  (List.range (savedLength m c).toNat).map fun i =>
    m.slot ((fix2int (stackCont m c.toNat 6)).toNat + i)

/-- A heap continuation holds what a stack continuation of `m` saved. -/
structure MovedCont (cs : List Value) (m : Machine) (σ : Nat → Option Nat) (m' : Machine)
    (c : Int) (k : HeapCont) : Prop where
  contFun : k.contFun = stackCont m c.toNat 3
  contArgc : k.contArgc = stackCont m c.toNat 2
  contOfs : k.contOfs = stackCont m c.toNat 5
  contEnv : k.contEnv = rename σ (stackCont m c.toNat 4)
  heapEnv : envP k.contEnv = false
  contStk : ∃ b, k.contStk = .vector b ∧ m.heap.length ≤ b ∧ b < m'.heap.length ∧
    List.Forall₂ (Word (SavedEnv m cs) σ) (savedWords m c) (m'.vec b)

theorem MovedCont.mono {c : Int} {k : HeapCont} (h : MovedCont cs m σ m' c k) (hext : Extends σ σ')
    (hlen : m'.heap.length ≤ m''.heap.length)
    (hvec : ∀ b, m.heap.length ≤ b → b < m'.heap.length → m''.vec b = m'.vec b) :
    MovedCont cs m σ' m'' c k := by
  obtain ⟨b, hb, hlo, hhi, hwords⟩ := h.contStk
  have henv := h.heapEnv
  rw [h.contEnv] at henv
  refine ⟨h.contFun, h.contArgc, h.contOfs, h.contEnv.trans (hext.rename_eq henv).symm, h.heapEnv,
    b, hb, hlo, by omega, ?_⟩
  rw [hvec b hlo hhi]
  exact hwords.imp fun _ _ hw => hw.mono hext

theorem mem_savedSlots {c : Int} (hc : Value.fixnum c ∈ cs) : c.toNat - 4 ∈ savedSlots cs :=
  List.mem_filterMap.mpr ⟨.fixnum c, hc, rfl⟩

/-- Every environment of the thread is shorter than the step bound. -/
def Bounded (m : Machine) (cs : List Value) (fuel : Nat) : Prop :=
  cs.length < fuel ∧ ∀ cont ∈ cs, ∃ es, EnvChain m (contenv m cont) es ∧ FramesApart m cs es ∧
    es.length < fuel

/-- Moving a stack continuation, up to the copy of the words it saves. -/
theorem heapCont_eq {c : Int} (hf : ThreadFormed m cs) (h : Renamed cs σ m m')
    (hc : Value.fixnum c ∈ cs) (hb : Bounded m cs fuel) :
    ∃ m₂ σ', Renamed cs σ' m m₂ ∧ Extends σ σ' ∧ KeptBelow m'.heap.length m' m₂ ∧
      m₂.heap[m'.heap.length]? = some (.cont ⟨.nil, stackCont m c.toNat 3, .nil,
        stackCont m c.toNat 2, stackCont m c.toNat 1, .nil⟩) ∧
      envP (rename σ' (stackCont m c.toNat 4)) = false ∧
      heapCont fuel m' (.fixnum c) = (arcMkvector m₂ (savedLength m c)
        fun i => m₂.slot ((fix2int (stackCont m c.toNat 6)).toNat + i)).map fun p =>
          (p.1.setObj m'.heap.length (.cont ⟨stackCont m c.toNat 5, stackCont m c.toNat 3,
            rename σ' (stackCont m c.toNat 4), stackCont m c.toNat 2, stackCont m c.toNat 1,
            p.2⟩), .cont m'.heap.length) := by
  obtain ⟨hsix, ⟨T, hT⟩, h2, h3, h5⟩ := hf.stack c hc
  have h6 : envP (stackCont m c.toNat 6) = false := by rw [hT]; rfl
  have h1 : envP (stackCont m c.toNat 1) = false := by
    have hex : ∀ {x xs}, ContChain m x xs → Value.fixnum c ∈ xs →
        ∃ ys, ContChain m (stackCont m c.toNat 1) ys := by
      intro x xs hx
      induction hx with
      | nil => simp
      | stack hrest ih =>
        intro hmem
        rcases List.mem_cons.mp hmem with he | he
        · cases he; exact ⟨_, hrest⟩
        · exact ih he
      | heap hk hrest ih => intro hmem; exact ih (by simpa using hmem)
    obtain ⟨ys, hys⟩ := hex hf.chain hc
    have hcontP := hys.head_contP
    cases hv : stackCont m c.toNat 1 <;> first | rfl | (rw [hv] at hcontP; cases hcontP)
  obtain ⟨es, henv, hap, hlen⟩ := hb.2 _ hc
  obtain ⟨m₂, σ', hrun, hr, hext, hkeep, hle, hheap⟩ := (h.alloc (.cont ⟨.nil,
    stackCont m c.toNat 3, .nil, stackCont m c.toNat 2, stackCont m c.toNat 1,
    .nil⟩)).env2heap_saved hf henv hap hlen hb.1
  have hword : ∀ j, envP (stackCont m c.toNat j) = false →
      ∀ {σ m'}, Renamed cs σ m m' → stackCont m' c.toNat j = stackCont m c.toNat j :=
    fun j hj _ _ hr => hr.slot_eq hj
  have hsaved : ∀ {σ m'}, Renamed cs σ m m' →
      stackCont m' c.toNat 4 = rename σ (stackCont m c.toNat 4) :=
    fun hr => hr.saved _ (mem_savedSlots hc)
  refine ⟨m₂, σ', hr, hext, fun b hb => ?_, ?_, hheap, ?_⟩
  · rw [hkeep b (by rw [alloc_length]; omega), alloc_get hb]
  · rw [hkeep _ (by rw [alloc_length]; omega)]
    simp [Machine.alloc]
  · have hregs : (if m₂.envr = stackCont m₂ c.toNat 4 then
        { m₂ with envr := rename σ' (stackCont m c.toNat 4) } else m₂) = m₂ := by
      split
      · next he => rw [← hsaved hr, ← he]
      · rfl
    have hcont : contenv m (.fixnum c) = stackCont m c.toNat 4 := rfl
    rw [hcont] at hrun
    simp only [heapCont, hword 3 h3 h, hword 2 h2 h, hword 1 h1 h, hsaved h, hrun,
      Option.bind_eq_bind, Option.bind_some, hregs, hword 5 h5 hr, hword 6 h6 hr, hT, savedLength,
      Option.pure_def, fix2int, Option.map_eq_bind]
    have hcast : ((c.toNat : Int)) = c := Int.toNat_of_nonneg (by omega)
    rw [hcast]
    rfl

theorem heapCont_fails {c : Int} (hf : ThreadFormed m cs) (h : Renamed cs σ m m')
    (hc : Value.fixnum c ∈ cs) (hb : Bounded m cs fuel) (hlen : savedLength m c < -1) :
    heapCont fuel m' (.fixnum c) = none := by
  obtain ⟨m₂, σ', -, -, -, -, -, hrun⟩ := heapCont_eq hf h hc hb
  rw [hrun, arcMkvector, if_pos hlen]
  rfl

theorem heapCont_moves {c : Int} (hf : ThreadFormed m cs) (h : Renamed cs σ m m')
    (hc : Value.fixnum c ∈ cs) (hb : Bounded m cs fuel) (hlen : -1 ≤ savedLength m c) :
    ∃ m'' σ' k, heapCont fuel m' (.fixnum c) = some (m'', .cont m'.heap.length) ∧
      Renamed cs σ' m m'' ∧ Extends σ σ' ∧ KeptBelow m'.heap.length m' m'' ∧
      m'.heap.length < m''.heap.length ∧ m''.heap[m'.heap.length]? = some (.cont k) ∧
      k.contCont = stackCont m c.toNat 1 ∧ MovedCont cs m σ' m'' c k := by
  obtain ⟨m₂, σ', hr, hext, hkeep, hget, hheap, hrun⟩ := heapCont_eq hf h hc hb
  have hlt : m'.heap.length < m₂.heap.length := (List.getElem?_eq_some_iff.mp hget).1
  let words := (List.range (savedLength m c).toNat).map fun i =>
    m₂.slot ((fix2int (stackCont m c.toNat 6)).toNat + i)
  let m₃ := m₂.alloc (.vector words)
  have hget₃ : m₃.heap[m'.heap.length]? = some (.cont ⟨.nil, stackCont m c.toNat 3, .nil,
      stackCont m c.toNat 2, stackCont m c.toNat 1, .nil⟩) := (alloc_get hlt).trans hget
  let k : HeapCont := ⟨stackCont m c.toNat 5, stackCont m c.toNat 3,
    rename σ' (stackCont m c.toNat 4), stackCont m c.toNat 2, stackCont m c.toNat 1,
    .vector m₂.heap.length⟩
  refine ⟨m₃.setObj m'.heap.length (.cont k), σ', k, ?_, ?_, hext, fun b hb => ?_, ?_, ?_, rfl,
    ⟨rfl, rfl, rfl, rfl, hheap, m₂.heap.length, rfl, hr.length, ?_, ?_⟩⟩
  · rw [hrun, arcMkvector, if_neg (by omega)]
    rfl
  · exact (hr.alloc _).setCont h.length hget₃
  · rw [setObj_cont_get hget₃, if_neg (by omega)]
    exact (alloc_get (hb.trans hlt)).trans (hkeep b hb)
  · rw [setObj_length, alloc_length]
    omega
  · rw [setObj_cont_get hget₃, if_pos rfl]
  · rw [setObj_length, alloc_length]
    omega
  · rw [setObj_cont_vec hget₃]
    change List.Forall₂ _ (savedWords m c) ((m₂.alloc (.vector words)).vec m₂.heap.length)
    rw [alloc_vec_self, savedWords, List.forall₂_map_left_iff, List.forall₂_map_right_iff]
    exact List.forall₂_same.mpr fun i _ => hr.word _

/-- The moved continuations, linked in the order of the old ones. -/
inductive Linked (cs : List Value) (m : Machine) (σ : Nat → Option Nat) (m' : Machine) :
    List Value → Value → Prop
  | heap {cont : Value} {rs : List Value} : ContChain m cont rs →
      (∀ x ∈ rs, ∃ a, x = .cont a) → Linked cs m σ m' rs cont
  | stack {a : Nat} {c : Int} {k : HeapCont} {rs : List Value} : m.heap.length ≤ a →
      m'.heap[a]? = some (.cont k) → MovedCont cs m σ m' c k → Linked cs m σ m' rs k.contCont →
      Linked cs m σ m' (.fixnum c :: rs) (.cont a)

/-- What the loop is given as the continuation moved before. -/
def Before (m : Machine) (cont : Value) : Value → Prop
  | .nil => True
  | .cont p => ∃ k, m.heap[p]? = some (.cont k) ∧ k.contCont = cont
  | _ => False

/-- Linking the continuation moved before. -/
def linkTo (m : Machine) (oldcont cont : Value) : Machine :=
  match oldcont with
  | .cont a => m.setObj a (.cont { m.hcont a with contCont := cont })
  | _ => m

theorem arcCont2heap_succ (n : Nat) {oldcont cont : Value} (hne : cont ≠ .nil) :
    arcCont2heap fuel (n + 1) m oldcont cont = (heapCont fuel m cont).bind fun p =>
      (arcCont2heap fuel n (linkTo p.1 oldcont p.2) p.2
        (nextcont (linkTo p.1 oldcont p.2) p.2)).map fun q => (q.1, p.2) := by
  cases cont <;> first | exact absurd rfl hne | (simp only [Option.map_eq_bind]; rfl)

theorem linkTo_same {oldcont cont : Value} (h : Before m' cont oldcont) :
    linkTo m' oldcont cont = m' := by
  cases oldcont with
  | cont p =>
    obtain ⟨k, hk, rfl⟩ := h
    obtain ⟨hlt, hget⟩ := List.getElem?_eq_some_iff.mp hk
    simp [linkTo, hcont_of_get hk, Machine.setObj, ← hget]
  | _ => rfl

/-- Continuations that are on the heap stay as they are. -/
theorem arcCont2heap_heap (fuel : Nat) {n : Nat} {oldcont cont : Value} (hc : ContChain m' cont rs)
    (hrs : ∀ x ∈ rs, ∃ a, x = .cont a) (hold : Before m' cont oldcont) (hn : rs.length < n) :
    arcCont2heap fuel n m' oldcont cont = some (m', cont) := by
  induction rs generalizing cont oldcont n with
  | nil =>
    obtain ⟨n, rfl⟩ : ∃ k, n = k + 1 := ⟨n - 1, by omega⟩
    cases hc
    rfl
  | cons x rs ih =>
    obtain ⟨n, rfl⟩ : ∃ k, n = k + 1 := ⟨n - 1, by simp at hn; omega⟩
    have hne := hc.ne_nil
    cases hc with
    | stack hrest => obtain ⟨a, ha⟩ := hrs _ List.mem_cons_self; cases ha
    | @heap a k _ hk hrest =>
      have hbefore : Before m' k.contCont (.cont a) := ⟨k, hk, rfl⟩
      have hrec := ih hrest (fun x hx => hrs x (List.mem_cons_of_mem _ hx)) hbefore
        (Nat.lt_of_succ_lt_succ hn)
      have hstay : heapCont fuel m' (.cont a) = some (m', .cont a) := rfl
      rw [arcCont2heap_succ n hne, hstay, Option.bind_some, linkTo_same hold]
      simp only [nextcont, hcont_of_get hk, hrec, Option.map_some]

theorem Linked.mono {first : Value} (h : Linked cs m σ m' rs first) (hext : Extends σ σ')
    (hlen : m'.heap.length ≤ m''.heap.length)
    (hcont : ∀ a k, m.heap.length ≤ a → m'.heap[a]? = some (Obj.cont k) →
      envP k.contEnv = false → m''.heap[a]? = some (Obj.cont k))
    (hvec : ∀ b, m.heap.length ≤ b → b < m'.heap.length → m''.vec b = m'.vec b) :
    Linked cs m σ' m'' rs first := by
  induction h with
  | heap hc hrs => exact .heap hc hrs
  | stack ha hk hmoved hrest ih =>
    exact .stack ha (hcont _ _ ha hk hmoved.heapEnv) (hmoved.mono hext hlen hvec) ih

theorem all_heap {a : Nat} (hf : ThreadFormed m cs) (hc : ContChain m (.cont a) rs)
    (hsub : ∀ x ∈ rs, x ∈ cs) : ∀ x ∈ rs, ∃ b, x = .cont b := by
  induction rs generalizing a with
  | nil => simp
  | cons x rs ih =>
    cases hc with
    | @heap _ k _ hk hrest =>
      intro y hy
      rcases List.mem_cons.mp hy with rfl | hy
      · exact ⟨a, rfl⟩
      · obtain ⟨-, hnext | ⟨b, hnext⟩, -⟩ := hf.heap a k (hsub _ List.mem_cons_self) hk
        · rw [hnext] at hrest
          cases hrest
          simp at hy
        · rw [hnext] at hrest
          exact ih hrest (fun x hx => hsub x (List.mem_cons_of_mem _ hx)) y hy

/-- Objects of a machine are kept, up to the link of the continuation before. -/
structure Relinked (m' m'' : Machine) (oldcont first : Value) : Prop where
  length : m'.heap.length ≤ m''.heap.length
  kept : ∀ b, b < m'.heap.length → oldcont ≠ .cont b → m''.heap[b]? = m'.heap[b]?
  link : ∀ (p : Nat) (k : HeapCont), oldcont = .cont p → m'.heap[p]? = some (Obj.cont k) →
    m''.heap[p]? = some (Obj.cont { k with contCont := first })

theorem Relinked.vec {oldcont first : Value} (h : Relinked m' m'' oldcont first)
    (hold : ∀ p, oldcont = .cont p → ∃ k, m'.heap[p]? = some (Obj.cont k)) {b : Nat}
    (hb : b < m'.heap.length) : m''.vec b = m'.vec b := by
  by_cases he : oldcont = .cont b
  · obtain ⟨k, hk⟩ := hold b he
    simp [Machine.vec, hk, h.link b k he hk]
  · exact vec_of_get (h.kept b hb he)

theorem linkTo_relinked {oldcont cont : Value} (first : Value) (hold : Before m' cont oldcont) :
    Relinked m' (linkTo m' oldcont first) oldcont first := by
  cases oldcont with
  | cont p =>
    obtain ⟨k, hk, -⟩ := hold
    rw [linkTo, hcont_of_get hk]
    refine ⟨by rw [setObj_length], fun b _ hb => ?_, fun q k' hq hk' => ?_⟩
    · rw [setObj_cont_get hk, if_neg (by rintro rfl; exact hb rfl)]
    · cases hq
      cases hk.symm.trans hk'
      rw [setObj_cont_get hk, if_pos rfl]
  | _ => exact ⟨le_refl _, fun _ _ _ => rfl, fun _ _ h => nomatch h⟩

theorem Renamed.linkTo {oldcont cont : Value} (first : Value) (h : Renamed cs σ m m')
    (hold : Before m' cont oldcont) (hnew : ∀ p, oldcont = .cont p → m.heap.length ≤ p) :
    Renamed cs σ m (linkTo m' oldcont first) := by
  cases oldcont with
  | cont p =>
    obtain ⟨k, hk, -⟩ := hold
    exact h.setCont (hnew p rfl) hk
  | _ => exact h

theorem Before.get {oldcont cont : Value} (h : Before m' cont oldcont) (p : Nat)
    (hp : oldcont = .cont p) : ∃ k, m'.heap[p]? = some (Obj.cont k) := by
  subst hp
  obtain ⟨k, hk, -⟩ := h
  exact ⟨k, hk⟩

theorem arcCont2heap_stack {c : Int} {oldcont : Value} (hf : ThreadFormed m cs)
    (h : Renamed cs σ m m') (hc : Value.fixnum c ∈ cs) (hb : Bounded m cs fuel)
    (hold : Before m' (.fixnum c) oldcont) (hnew : ∀ p, oldcont = .cont p → m.heap.length ≤ p)
    (hlen : -1 ≤ savedLength m c) :
    ∃ m₂ σ₂ k, Renamed cs σ₂ m m₂ ∧ Extends σ σ₂ ∧
      Relinked m' m₂ oldcont (.cont m'.heap.length) ∧
      m₂.heap[m'.heap.length]? = some (.cont k) ∧ k.contCont = stackCont m c.toNat 1 ∧
      MovedCont cs m σ₂ m₂ c k ∧ ∀ n, arcCont2heap fuel (n + 1) m' oldcont (.fixnum c) =
        (arcCont2heap fuel n m₂ (.cont m'.heap.length) k.contCont).map fun q =>
          (q.1, .cont m'.heap.length) := by
  obtain ⟨m₁, σ₁, k, hrun₁, hr₁, hext₁, hkeep₁, hlt₁, hget₁, hk, hmoved⟩ :=
    heapCont_moves hf h hc hb hlen
  have hlt : ∀ {p k}, m'.heap[p]? = some (Obj.cont k) → p < m'.heap.length :=
    fun hp => (List.getElem?_eq_some_iff.mp hp).1
  have hold₁ : Before m₁ (.fixnum c) oldcont := by
    cases oldcont with
    | cont p =>
      obtain ⟨kp, hkp, hcc⟩ := hold
      exact ⟨kp, (hkeep₁ p (hlt hkp)).trans hkp, hcc⟩
    | _ => exact hold
  have hr₂ := hr₁.linkTo (.cont m'.heap.length) hold₁ hnew
  have hrel₂ := linkTo_relinked (.cont m'.heap.length) hold₁
  have hfresh : oldcont ≠ .cont m'.heap.length := by
    intro he
    obtain ⟨kp, hkp⟩ := hold.get _ he
    exact absurd (hlt hkp) (lt_irrefl _)
  have hget₂ := (hrel₂.kept _ hlt₁ hfresh).trans hget₁
  refine ⟨Arcueid.linkTo m₁ oldcont (.cont m'.heap.length), σ₁, k, hr₂, hext₁,
    ⟨hlt₁.le.trans hrel₂.length, fun b hb hne => ?_, fun p kp hp hkp => ?_⟩, hget₂, hk, ?_,
    fun n => ?_⟩
  · rw [hrel₂.kept b (hb.trans hlt₁) hne, hkeep₁ b hb]
  · exact hrel₂.link p kp hp ((hkeep₁ p (hlt hkp)).trans hkp)
  · exact hmoved.mono (Extends.refl σ₁) hrel₂.length fun b _ hb => hrel₂.vec hold₁.get hb
  · rw [arcCont2heap_succ n (by simp), hrun₁, Option.bind_some]
    simp only [nextcont, hcont_of_get hget₂]

/-- The whole chain: the environments are renamed, the moved continuations
linked, and the continuation before linked to the first of them. -/
theorem arcCont2heap_moves {n : Nat} {oldcont cont : Value} (hf : ThreadFormed m cs)
    (h : Renamed cs σ m m') (hc : ContChain m cont rs) (hsub : ∀ x ∈ rs, x ∈ cs)
    (hb : Bounded m cs fuel) (hn : rs.length < n) (hold : Before m' cont oldcont)
    (hnew : ∀ p, oldcont = .cont p → m.heap.length ≤ p)
    (hlens : ∀ c, Value.fixnum c ∈ rs → -1 ≤ savedLength m c) :
    ∃ m'' σ' first, arcCont2heap fuel n m' oldcont cont = some (m'', first) ∧
      Renamed cs σ' m m'' ∧ Extends σ σ' ∧ Relinked m' m'' oldcont first ∧
      Linked cs m σ' m'' rs first := by
  induction rs generalizing m' σ cont oldcont n with
  | nil =>
    have hrun := arcCont2heap_heap fuel (h.contChain hc) (by simp) hold hn
    have hrel := linkTo_relinked cont hold
    rw [linkTo_same hold] at hrel
    exact ⟨m', σ, cont, hrun, h, Extends.refl σ, hrel, .heap hc (by simp)⟩
  | cons x rs ih =>
    cases hc with
    | @heap a k _ hk hrest =>
      have hall := all_heap hf (.heap hk hrest) hsub
      have hrun := arcCont2heap_heap fuel (h.contChain (.heap hk hrest)) hall hold hn
      have hrel := linkTo_relinked (.cont a) hold
      rw [linkTo_same hold] at hrel
      exact ⟨m', σ, .cont a, hrun, h, Extends.refl σ, hrel, .heap (.heap hk hrest) hall⟩
    | @stack c _ hrest =>
      obtain ⟨n, rfl⟩ : ∃ k, n = k + 1 := ⟨n - 1, by simp at hn; omega⟩
      obtain ⟨m₂, σ₂, k, hr₂, hext₂, hrel₂, hget₂, hk, hmoved, hturn⟩ := arcCont2heap_stack hf h
        (hsub _ List.mem_cons_self) hb hold hnew (hlens c List.mem_cons_self)
      have hlt₂ : m'.heap.length < m₂.heap.length := (List.getElem?_eq_some_iff.mp hget₂).1
      have hold₂ : Before m₂ k.contCont (.cont m'.heap.length) := ⟨k, hget₂, rfl⟩
      obtain ⟨m₃, σ₃, first, hrun₃, hr₃, hext₃, hrel₃, hlinked⟩ := ih hr₂ (hk ▸ hrest)
        (fun x hx => hsub x (List.mem_cons_of_mem _ hx)) (Nat.lt_of_succ_lt_succ hn) hold₂
        (fun p hp => by cases hp; exact h.length)
        (fun c hc => hlens c (List.mem_cons_of_mem _ hc))
      refine ⟨m₃, σ₃, .cont m'.heap.length, ?_, hr₃, hext₂.trans hext₃,
        ⟨hrel₂.length.trans hrel₃.length, fun b hb hne => ?_, fun p kp hp hkp => ?_⟩, ?_⟩
      · rw [hturn, hrun₃]
        rfl
      · rw [hrel₃.kept b (hb.trans hlt₂) (by simp; omega), hrel₂.kept b hb hne]
      · have hplt := (List.getElem?_eq_some_iff.mp hkp).1
        rw [hrel₃.kept p (hplt.trans hlt₂) (by simp; omega)]
        exact hrel₂.link p kp hp hkp
      · have hm := hmoved.mono hext₃ hrel₃.length fun b _ hb => hrel₃.vec hold₂.get hb
        exact .stack (k := { k with contCont := first }) h.length (hrel₃.link _ k rfl hget₂)
          ⟨hm.contFun, hm.contArgc, hm.contOfs, hm.contEnv, hm.heapEnv, hm.contStk⟩ hlinked

theorem arcCont2heap_fails {n : Nat} {oldcont cont : Value} (hf : ThreadFormed m cs)
    (h : Renamed cs σ m m') (hc : ContChain m cont rs) (hsub : ∀ x ∈ rs, x ∈ cs)
    (hb : Bounded m cs fuel) (hold : Before m' cont oldcont)
    (hnew : ∀ p, oldcont = .cont p → m.heap.length ≤ p)
    (hlens : ∃ c, Value.fixnum c ∈ rs ∧ savedLength m c < -1) :
    arcCont2heap fuel n m' oldcont cont = none := by
  induction rs generalizing m' σ cont oldcont n with
  | nil => simp at hlens
  | cons x rs ih =>
    obtain ⟨c', hmem, hlen'⟩ := hlens
    have hne := hc.ne_nil
    cases n with
    | zero => rfl
    | succ n =>
      cases hc with
      | @heap a k _ hk hrest =>
        obtain ⟨b, hb⟩ := all_heap hf (.heap hk hrest) hsub _ hmem
        cases hb
      | @stack c _ hrest =>
        by_cases hbad : savedLength m c < -1
        · rw [arcCont2heap_succ n hne, heapCont_fails hf h (hsub _ List.mem_cons_self) hb hbad]
          rfl
        · obtain ⟨m₂, σ₂, k, hr₂, -, -, hget₂, hk, -, hturn⟩ := arcCont2heap_stack hf h
            (hsub _ List.mem_cons_self) hb hold hnew (by omega)
          have hmem' : Value.fixnum c' ∈ rs := by
            rcases List.mem_cons.mp hmem with he | he
            · cases he; exact absurd hlen' hbad
            · exact he
          have hold₂ : Before m₂ k.contCont (.cont m'.heap.length) := ⟨k, hget₂, rfl⟩
          rw [hturn, ih hr₂ (hk ▸ hrest) (fun x hx => hsub x (List.mem_cons_of_mem _ hx)) hold₂
            (fun p hp => by cases hp; exact h.length) ⟨c', hmem', hlen'⟩]
          rfl

end Moved

end Arcueid
