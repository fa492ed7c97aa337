import Arcueid.CoreCode

/-! Frames of variables in the machine. A frame is on the stack until a closure is made
in it. Then it becomes a vector, which the closure and the function that made it share,
and the function's continuations lead back to the vector. -/

namespace Arcueid.Core

/-- For the frames that are on the heap, where they are and which environment they lead
on to. -/
abbrev Places := Nat → Option (Nat × Value)

/-- An environment whose frames are all on the heap. -/
inductive EnvAt (κ : Places) : Env → Value → Prop
  | nil : EnvAt κ [] .nil
  | cons {rib : Rib} {env : Env} {a : Nat} {p : Value} : κ rib.frame = some (a, p) →
      EnvAt κ env p → EnvAt κ (rib :: env) (.vector a)

/-- Frames that are on the heap stay where they are. -/
def Places.Grow (κ κ' : Places) : Prop := ∀ f x, κ f = some x → κ' f = some x

section Values

variable {W : Type} (host : Host W) (codes : List Code) {κ κ' κ'' : Places}

/-- How the machine holds a value. -/
inductive Holds (κ : Places) : CoreVal → Value → Prop
  | data {v : Value} : Holds κ (.data v) v
  | clos {params body w : Value} {env : Env} {names : List Sym} {n : Nat} {c : Code}
      {ws more lits : List Value} : paramNames params = some names → codes[n]? = some c →
      c.code = entryWords names ++ ws ++ more → lits <+: c.literals →
      Coded host codes .body lits (entryEnv names (cenvOf env)) body ws → EnvAt κ env w →
      Holds κ (.clos params body env) (.clos (.code n) w)

theorem Places.Grow.refl (κ : Places) : κ.Grow κ := fun _ _ h => h

theorem Places.Grow.trans (h : Places.Grow κ κ') (h' : Places.Grow κ' κ'') : Places.Grow κ κ'' :=
  fun f x hx => h' f x (h f x hx)

theorem EnvAt.grow {env : Env} {w : Value} (h : EnvAt κ env w) (hκ : Places.Grow κ κ') : EnvAt κ' env w := by
  induction h with
  | nil => exact .nil
  | cons ha _ ih => exact .cons (hκ _ _ ha) ih

variable {host codes}

theorem Holds.grow {v : CoreVal} {w : Value} (h : Holds host codes κ v w) (hκ : Places.Grow κ κ') :
    Holds host codes κ' v w := by
  cases h with
  | data => exact .data
  | clos hparams hn hcode hlits hbody henv => exact .clos hparams hn hcode hlits hbody (henv.grow hκ)

theorem Holds.data_iff {v w : Value} (h : Holds host codes κ (.data v) w) : w = v := by
  cases h
  rfl

theorem Holds.nil_iff {v : CoreVal} {w : Value} (h : Holds host codes κ v w) : v = .data .nil ↔ w = .nil := by
  cases h with
  | data => simp
  | clos => simp

end Values

section Invariant

variable {W : Type} (host : Host W) (codes : List Code)

/-- The heap and the globals hold what the store says. -/
structure Inv (κ : Places) (σ : Store) (heap : List Obj) (genv : Sym → Value) : Prop where
  frames : ∀ f a p, κ f = some (a, p) → ∃ vals ws, σ.frames[f]? = some vals ∧
    heap[a]? = some (.vector (p :: ws)) ∧ List.Forall₂ (Holds host codes κ) vals ws
  older : ∀ f a b, κ f = some (a, .vector b) → b < a
  apart : ∀ f g a p q, κ f = some (a, p) → κ g = some (a, q) → f = g
  globals : ∀ s, Holds host codes κ (σ.globals s) (genv s)

/-- The environment of a function that runs. Its frame, if it is on the stack, begins
at `B` and ends before `E`. -/
inductive CurEnv (κ : Places) (frames : List (List CoreVal)) (slot : Nat → Value) (B E : Nat) :
    Env → Value → Prop
  | heap {env : Env} {w : Value} : EnvAt κ env w → CurEnv κ frames slot B E env w
  | stack {rib : Rib} {env : Env} {vals : List CoreVal} : κ rib.frame = none →
      frames[rib.frame]? = some vals → E = B + vals.length + 2 →
      slot (B + vals.length) = .fixnum (vals.length : Nat) →
      EnvAt κ env (slot (B + vals.length + 1)) →
      (∀ (i : Nat) (v : CoreVal), vals[i]? = some v → Holds host codes κ v (slot (B + i))) →
      CurEnv κ frames slot B E (rib :: env) (.env (B + vals.length + 1))

/-- Continuations on the stack below `b`, with the frames their functions run in below
them. -/
inductive Outer (slot : Nat → Value) : Nat → Value → Prop
  | nil {b : Nat} : Outer slot b .nil
  | cont {b c : Nat} {cont : Value} : c + 6 ≤ b → (∀ e, slot (c + 2) = .env e → e < c) →
      slot (c + 5) = cont → Outer slot c cont → Outer slot b (.fixnum (c + 6 : Nat))

/-- The continuations that a function has made and not come back to. -/
inductive Pending (slot : Nat → Value) (envr outer : Value) (E : Nat) : Nat → Value → List Nat → Prop
  | nil {b : Nat} : E ≤ b → Pending slot envr outer E b outer []
  | cons {b c : Nat} {cont : Value} {own : List Nat} : c + 6 ≤ b → slot (c + 2) = envr →
      slot (c + 5) = cont → Pending slot envr outer E c cont own →
      Pending slot envr outer E b (.fixnum (c + 6 : Nat)) (c :: own)

/-- A function runs in an environment, called with a stack of height `B` under its
arguments. -/
structure Here (κ : Places) (σ : Store) (env : Env) (B E : Nat) (outer : Value) (own : List Nat)
    (m : Machine) : Prop where
  inv : Inv host codes κ σ m.heap m.genv
  cur : CurEnv host codes κ σ.frames m.slot B E env m.envr
  pending : Pending m.slot m.envr outer E m.sp m.conr own
  outer : Outer m.slot B outer
  base : B ≤ E

/-- Frames on the stack, but the innermost one of an environment, keep their values. -/
def Frozen (κ : Places) (σ : Store) (env : Env) (κ' : Places) (σ' : Store) : Prop :=
  ∀ f vals, σ.frames[f]? = some vals → κ f = none → (∀ rib, env.head? = some rib → f ≠ rib.frame) →
    κ' f = none ∧ σ'.frames[f]? = some vals

/-- The same function has run on. -/
structure After (κ : Places) (σ : Store) (env : Env) (B E : Nat) (outer : Value) (own : List Nat)
    (m : Machine) (κ' : Places) (σ' : Store) (m' : Machine) : Prop where
  here : Here host codes κ' σ' env B E outer own m'
  grow : Places.Grow κ κ'
  frozen : Frozen κ σ env κ' σ'
  sp : m.sp ≤ m'.sp
  funr : m'.funr = m.funr
  conr : m'.conr = m.conr
  slots : ∀ i, i < m.sp → (i < B ∨ E ≤ i) → (∀ c ∈ own, i ≠ c + 2) → m'.slot i = m.slot i

/-- The function has returned. -/
structure Returned (κ : Places) (σ : Store) (env : Env) (B : Nat) (outer : Value) (m : Machine)
    (κ' : Places) (σ' : Store) (m' : Machine) : Prop where
  inv : Inv host codes κ' σ' m'.heap m'.genv
  grow : Places.Grow κ κ'
  frozen : Frozen κ σ env κ' σ'
  conr : m'.conr = outer
  slots : ∀ i, i < B → m'.slot i = m.slot i

end Invariant

section Stack

variable {slot slot' : Nat → Value} {envr outer conr : Value} {B E b b' : Nat} {own : List Nat}

theorem Outer.mono (h : Outer slot b conr) (hb : b ≤ b') : Outer slot b' conr := by
  cases h with
  | nil => exact .nil
  | cont hc henv hcont hrest => exact .cont (hc.trans hb) henv hcont hrest

theorem Outer.of_same (h : Outer slot b conr) (hslot : ∀ i, i < b → slot' i = slot i) :
    Outer slot' b conr := by
  induction h with
  | nil => exact .nil
  | @cont b c cont hc henv hcont _ ih =>
    refine .cont hc ?_ ?_ (ih fun i hi => hslot i (by omega))
    · rw [hslot _ (by omega)]
      exact henv
    · rw [hslot _ (by omega)]
      exact hcont

theorem Pending.le (h : Pending slot envr outer E b conr own) : E ≤ b := by
  induction h with
  | nil hE => exact hE
  | cons hc _ _ _ ih => omega

theorem Pending.mem_le (h : Pending slot envr outer E b conr own) {c : Nat} (hc : c ∈ own) :
    E ≤ c ∧ c + 6 ≤ b := by
  induction h with
  | nil => cases hc
  | cons hle _ _ hrest ih =>
    rcases List.mem_cons.mp hc with rfl | hc
    · exact ⟨hrest.le, hle⟩
    · have := ih hc
      omega

theorem Pending.mono (h : Pending slot envr outer E b conr own) (hb : b ≤ b') :
    Pending slot envr outer E b' conr own := by
  cases h with
  | nil hE => exact .nil (hE.trans hb)
  | cons hc henv hcont hrest => exact .cons (hc.trans hb) henv hcont hrest

theorem Pending.of_same (h : Pending slot envr outer E b conr own)
    (hslot : ∀ i, E ≤ i → i < b → slot' i = slot i) : Pending slot' envr outer E b conr own := by
  induction h with
  | nil hE => exact .nil hE
  | @cons b c cont own hc henv hcont hrest ih =>
    have hE := hrest.le
    refine .cons hc ?_ ?_ (ih fun i hE hi => hslot i hE (by omega))
    · rw [hslot _ (by omega) (by omega)]
      exact henv
    · rw [hslot _ (by omega) (by omega)]
      exact hcont

/-- To a function that is called, the caller's continuations are outer ones. -/
theorem Pending.toOuter (h : Pending slot envr outer E b conr own) (hout : Outer slot E outer)
    (henv : ∀ e, envr = .env e → e < E) : Outer slot b conr := by
  induction h with
  | nil hE => exact hout.mono hE
  | @cons b c cont own hc henvr hcont hrest ih =>
    refine .cont hc (fun e he => ?_) hcont ih
    have hE := hrest.le
    have hlt := henv e (henvr.symm.trans he)
    omega

/-- The continuations of a thread, where all of them are on the stack. -/
theorem Outer.contChain {m : Machine} (h : Outer m.slot b conr) : ∃ cs, ContChain m conr cs ∧
    cs.length ≤ b ∧ (∀ a, Value.cont a ∉ cs) ∧ ∀ i ∈ savedSlots cs, i < b ∧ ∀ e, m.slot i = .env e → e < i := by
  generalize hs : m.slot = slot at h
  induction h with
  | nil => exact ⟨[], .nil, Nat.zero_le _, by simp, by simp [savedSlots]⟩
  | @cont b c cont hc henv hcont _ ih =>
    obtain ⟨cs, hchain, hlen, hheap, hsaved⟩ := ih
    subst hs
    have htop : stackCont m (((c + 6 : Nat) : Int).toNat) 1 = cont := hcont
    refine ⟨_, .stack (htop ▸ hchain), ?_, ?_, ?_⟩
    · rw [List.length_cons]
      omega
    · simpa using hheap
    · intro i hi
      have hslots : savedSlots (.fixnum (c + 6 : Nat) :: cs) = (c + 2) :: savedSlots cs := rfl
      rw [hslots] at hi
      rcases List.mem_cons.mp hi with rfl | hi
      · refine ⟨by omega, fun e he => ?_⟩
        have := henv e he
        omega
      · obtain ⟨hlt, he⟩ := hsaved i hi
        exact ⟨by omega, he⟩

/-- The continuations of a function that runs: those it has pending, and outer ones. -/
theorem Pending.contChain {m : Machine} (h : Pending m.slot envr outer E b conr own) (hout : Outer m.slot B outer)
    (hB : B ≤ E) : ∃ cs, ContChain m conr cs ∧ cs.length ≤ b ∧ (∀ a, Value.cont a ∉ cs) ∧
      (∀ c ∈ own, c + 2 ∈ savedSlots cs) ∧ ∀ i ∈ savedSlots cs, (∃ c ∈ own, i = c + 2) ∨
        i < B ∧ ∀ e, m.slot i = .env e → e < i := by
  generalize hs : m.slot = slot at h hout
  induction h with
  | nil hE =>
    subst hs
    obtain ⟨cs, hchain, hlen, hheap, hsaved⟩ := hout.contChain
    exact ⟨cs, hchain, hlen.trans (hB.trans hE), hheap, by simp, fun i hi => .inr (hsaved i hi)⟩
  | @cons b c cont own hc henv hcont _ ih =>
    obtain ⟨cs, hchain, hlen, hheap, hown, hsaved⟩ := ih
    subst hs
    have htop : stackCont m (((c + 6 : Nat) : Int).toNat) 1 = cont := hcont
    have hslots : savedSlots (.fixnum (c + 6 : Nat) :: cs) = (c + 2) :: savedSlots cs := rfl
    refine ⟨_, .stack (htop ▸ hchain), ?_, by simpa using hheap, ?_, ?_⟩
    · rw [List.length_cons]
      omega
    · intro d hd
      rw [hslots]
      rcases List.mem_cons.mp hd with rfl | hd
      · exact List.mem_cons_self
      · exact List.mem_cons_of_mem _ (hown d hd)
    · intro i hi
      rw [hslots] at hi
      rcases List.mem_cons.mp hi with rfl | hi
      · exact .inl ⟨c, List.mem_cons_self, rfl⟩
      · exact (hsaved i hi).imp_left fun ⟨d, hd, hid⟩ => ⟨d, List.mem_cons_of_mem _ hd, hid⟩

/-- What a pending continuation saves. -/
theorem Pending.saved (h : Pending slot envr outer E b conr own) (hout : contP outer = true) {c : Nat}
    (hc : c ∈ own) : slot (c + 2) = envr ∧ contP (slot (c + 5)) = true := by
  induction h with
  | nil => cases hc
  | cons _ henv hcont hrest ih =>
    rcases List.mem_cons.mp hc with rfl | hc
    · refine ⟨henv, ?_⟩
      rw [hcont]
      cases hrest with
      | nil => exact hout
      | cons => rfl
    · exact ih hc

/-- The environments that pending continuations save are redirected. -/
theorem Pending.redirect {w : Value} (h : Pending slot envr outer E b conr own)
    (henv : ∀ c ∈ own, slot' (c + 2) = w) (hlink : ∀ c ∈ own, slot' (c + 5) = slot (c + 5)) :
    Pending slot' w outer E b conr own := by
  induction h with
  | nil hE => exact .nil hE
  | @cons b c cont own hc _ hcont _ ih =>
    have hrest := ih (fun d hd => henv d (List.mem_cons_of_mem _ hd)) fun d hd => hlink d (List.mem_cons_of_mem _ hd)
    exact .cons hc (henv c List.mem_cons_self) ((hlink c List.mem_cons_self).trans hcont) hrest

theorem Outer.contP (h : Outer slot b conr) : contP conr = true := by
  cases h <;> rfl

end Stack

section HeapFrames

variable {W : Type} {host : Host W} {codes : List Code} {κ κ' : Places} {σ : Store} {m : Machine} {env : Env}
  {w : Value}

theorem Inv.vec {f a : Nat} {p : Value} (hinv : Inv host codes κ σ m.heap m.genv) (hf : κ f = some (a, p)) :
    ∃ vals ws, σ.frames[f]? = some vals ∧ m.heap[a]? = some (.vector (p :: ws)) ∧ m.vec a = p :: ws ∧
      List.Forall₂ (Holds host codes κ) vals ws := by
  obtain ⟨vals, ws, hvals, hget, hall⟩ := hinv.frames f a p hf
  refine ⟨vals, ws, hvals, hget, ?_, hall⟩
  rw [Machine.vec, hget]

theorem Inv.nextenv {f a : Nat} {p : Value} (hinv : Inv host codes κ σ m.heap m.genv)
    (hf : κ f = some (a, p)) : nextenv m (.vector a) = p := by
  obtain ⟨vals, ws, -, -, hvec, -⟩ := hinv.vec hf
  rw [Arcueid.nextenv, Machine.vindex, hvec]
  rfl

/-- The machine finds a frame of the environment. -/
theorem EnvAt.at {level : Nat} {rib : Rib} (h : EnvAt κ env w) (hinv : Inv host codes κ σ m.heap m.genv)
    (hl : env[level]? = some rib) : ∃ a p, envAt m w level = .vector a ∧ κ rib.frame = some (a, p) := by
  induction h generalizing level with
  | nil => cases hl
  | @cons r env a p ha _ ih =>
    cases level with
    | zero =>
      obtain rfl := Option.some.inj hl
      exact ⟨a, p, rfl, ha⟩
    | succ level =>
      rw [envAt_succ, hinv.nextenv ha]
      exact ih hl

/-- Parents are older, so that an environment is no longer than the heap. -/
theorem EnvAt.length_le (h : EnvAt κ env w) (hinv : Inv host codes κ σ m.heap m.genv) :
    env.length ≤ m.heap.length := by
  have hall : env = [] ∨ ∃ a, w = .vector a ∧ env.length ≤ a + 1 ∧ a < m.heap.length := by
    induction h with
    | nil => exact .inl rfl
    | @cons rib env a p ha _ ih =>
      obtain ⟨vals, ws, -, hget, -⟩ := hinv.frames _ _ _ ha
      have hlt : a < m.heap.length := (List.getElem?_eq_some_iff.mp hget).1
      refine .inr ⟨a, rfl, ?_, hlt⟩
      rcases ih with rfl | ⟨b, rfl, hlen, -⟩
      · simp
      · have hba : b < a := hinv.older _ _ _ ha
        rw [List.length_cons]
        omega
  rcases hall with rfl | ⟨a, -, hlen, hlt⟩
  · exact Nat.zero_le _
  · omega

/-- An environment that is on the heap stays there. -/
theorem EnvAt.arcEnv2heap_same {cs : List Value} {n fuel : Nat} (h : EnvAt κ env w)
    (hinv : Inv host codes κ σ m.heap m.genv) (hcont : ContChain m m.conr cs) (hcs : cs.length < fuel)
    (hn : env.length < n) : arcEnv2heap fuel n m w = some (m, w) := by
  induction h generalizing n with
  | nil =>
    obtain ⟨n, rfl⟩ : ∃ k, n = k + 1 := ⟨n - 1, by omega⟩
    rfl
  | @cons rib env a p ha _ ih =>
    obtain ⟨n, rfl⟩ : ∃ k, n = k + 1 := ⟨n - 1, by omega⟩
    have hrest := ih (Nat.lt_of_succ_lt_succ hn)
    simp only [arcEnv2heap, arcUpdateContEnvs, updateContEnvsFrom_same hcont hcs, Option.bind_eq_bind,
      Option.bind_some, hinv.nextenv ha, hrest, Option.pure_def]

theorem Inv.grow_frames (hinv : Inv host codes κ σ m.heap m.genv) (vals : List CoreVal) :
    Inv host codes κ { σ with frames := σ.frames ++ [vals] } m.heap m.genv where
  frames f a p hf := by
    obtain ⟨vals', ws, hvals, hget, hall⟩ := hinv.frames f a p hf
    refine ⟨vals', ws, ?_, hget, hall⟩
    rw [List.getElem?_append_left (List.getElem?_eq_some_iff.mp hvals).1]
    exact hvals
  older := hinv.older
  apart := hinv.apart
  globals := hinv.globals

/-- A frame that is not there yet has no place on the heap. -/
theorem Inv.fresh (hinv : Inv host codes κ σ m.heap m.genv) : κ σ.frames.length = none := by
  cases hf : κ σ.frames.length with
  | none => rfl
  | some x =>
    obtain ⟨vals, ws, hvals, -⟩ := hinv.frames _ x.1 x.2 hf
    simp at hvals

theorem Inv.setGlobal {s : Sym} {v : CoreVal} (hinv : Inv host codes κ σ m.heap m.genv)
    (hv : Holds host codes κ v w) :
    Inv host codes κ { σ with globals := Function.update σ.globals s v } m.heap
      (Function.update m.genv s w) where
  frames := hinv.frames
  older := hinv.older
  apart := hinv.apart
  globals t := by
    by_cases ht : t = s
    · subst ht
      simpa using hv
    · simpa [ht] using hinv.globals t

theorem forall₂_set {α β : Type} {R : α → β → Prop} {xs : List α} {ys : List β} {x : α} {y : β}
    (h : List.Forall₂ R xs ys) (hxy : R x y) (i : Nat) : List.Forall₂ R (xs.set i x) (ys.set i y) := by
  induction h generalizing i with
  | nil => exact .nil
  | cons hhead htail ih =>
    cases i with
    | zero => exact .cons hxy htail
    | succ i => exact .cons hhead (ih i)

/-- A variable of a frame on the heap is set. -/
theorem Inv.setVariable {f a i : Nat} {p : Value} {v : CoreVal} {vals : List CoreVal}
    (hinv : Inv host codes κ σ m.heap m.genv) (hf : κ f = some (a, p)) (hvals : σ.frames[f]? = some vals)
    (hv : Holds host codes κ v w) :
    Inv host codes κ { σ with frames := σ.frames.set f (vals.set i v) } (m.setVindex a (i + 1) w).heap
      m.genv where
  frames g b q hg := by
    obtain ⟨vals', ws, hvals', hget, hvec, hall⟩ := hinv.vec hf
    obtain rfl := Option.some.inj (hvals.symm.trans hvals')
    by_cases hgf : g = f
    · subst hgf
      obtain ⟨rfl, rfl⟩ := Prod.mk.inj (Option.some.inj (hf.symm.trans hg))
      refine ⟨vals.set i v, ws.set i w, ?_, ?_, forall₂_set hall hv i⟩
      · rw [List.getElem?_set_self (List.getElem?_eq_some_iff.mp hvals).1]
      · rw [Machine.setVindex, hvec, Machine.setObj, List.set_cons_succ,
          List.getElem?_set_self (List.getElem?_eq_some_iff.mp hget).1]
    · obtain ⟨vals', ws', hvals', hget', hall'⟩ := hinv.frames g b q hg
      have hab : a ≠ b := by
        rintro rfl
        exact hgf (hinv.apart g f a q p hg hf)
      refine ⟨vals', ws', ?_, ?_, hall'⟩
      · rw [List.getElem?_set_ne (Ne.symm hgf)]
        exact hvals'
      · rw [Machine.setVindex, Machine.setObj, List.getElem?_set_ne hab]
        exact hget'
  older := hinv.older
  apart := hinv.apart
  globals := hinv.globals

end HeapFrames

section Running

variable {W : Type} {host : Host W} {codes : List Code} {κ κ' κ'' : Places} {σ σ' σ'' : Store} {m m' m'' : Machine}
  {env : Env} {B E : Nat} {outer : Value} {own : List Nat}

theorem CurEnv.of_same {frames frames' : List (List CoreVal)} {slot slot' : Nat → Value} {envr : Value}
    (h : CurEnv host codes κ frames slot B E env envr) (hκ : Places.Grow κ κ')
    (hframes : ∀ rib vals, env.head? = some rib → κ rib.frame = none → frames[rib.frame]? = some vals →
      κ' rib.frame = none ∧ frames'[rib.frame]? = some vals)
    (hslot : ∀ i, B ≤ i → i < E → slot' i = slot i) : CurEnv host codes κ' frames' slot' B E env envr := by
  cases h with
  | heap henv => exact .heap (henv.grow hκ)
  | @stack rib env vals hnone hvals hE hcount hparent hall =>
    obtain ⟨hnone', hvals'⟩ := hframes rib vals rfl hnone hvals
    refine .stack hnone' hvals' hE ?_ ?_ fun i v hi => ?_
    · rw [hslot _ (by omega) (by omega)]
      exact hcount
    · rw [hslot _ (by omega) (by omega)]
      exact hparent.grow hκ
    · have hlt := (List.getElem?_eq_some_iff.mp hi).1
      rw [hslot _ (by omega) (by omega)]
      exact (hall i v hi).grow hκ

/-- A frame on the stack lies between the bounds. -/
theorem CurEnv.env_lt {frames : List (List CoreVal)} {slot : Nat → Value} {envr : Value}
    (h : CurEnv host codes κ frames slot B E env envr) (e : Nat) (he : envr = .env e) : B ≤ e ∧ e < E := by
  cases h with
  | heap henv => cases henv <;> cases he
  | stack _ _ hE =>
    cases he
    omega

theorem Here.height (h : Here host codes κ σ env B E outer own m) : E ≤ m.sp := h.pending.le

theorem Here.le (h : Here host codes κ σ env B E outer own m) : B ≤ m.sp := h.base.trans h.height

theorem Here.conr_eq (h : Here host codes κ σ env B E outer [] m) : m.conr = outer := by
  have hpending := h.pending
  generalize m.conr = conr at hpending
  cases hpending
  rfl

/-- The continuations, to a function that is called. -/
theorem Here.toOuter (h : Here host codes κ σ env B E outer own m) : Outer m.slot m.sp m.conr :=
  h.pending.toOuter (h.outer.mono h.base) fun e he => (h.cur.env_lt e he).2

/-- The topmost continuation is right above the frame of its function. -/
theorem Here.toOuterTop {c : Nat} (h : Here host codes κ σ env B E outer (c :: own) m) :
    Outer m.slot (c + 6) m.conr := by
  have hout := h.toOuter
  have hpending := h.pending
  generalize m.conr = conr at hout hpending
  cases hpending with
  | cons hc henv hcont hrest =>
    have hlower := hrest.toOuter (h.outer.mono h.base) fun e he => (h.cur.env_lt e he).2
    have hE := hrest.le
    refine .cont (le_refl _) (fun e he => ?_) hcont hlower
    have := (h.cur.env_lt e (henv.symm.trans he)).2
    omega

/-- Values are pushed, and nothing else happens. -/
theorem Here.of_same (h : Here host codes κ σ env B E outer own m) (hslot : ∀ i, i < m.sp → m'.slot i = m.slot i)
    (hsp : m.sp ≤ m'.sp) (henvr : m'.envr = m.envr) (hconr : m'.conr = m.conr) (hheap : m'.heap = m.heap)
    (hgenv : m'.genv = m.genv) : Here host codes κ σ env B E outer own m' := by
  have hE := h.height
  have hB := h.base
  refine ⟨?_, ?_, ?_, h.outer.of_same fun i hi => hslot i (by omega), h.base⟩
  · rw [hheap, hgenv]
    exact h.inv
  · rw [henvr]
    exact h.cur.of_same (.refl κ) (fun _ _ _ hnone hvals => ⟨hnone, hvals⟩) fun i _ hi => hslot i (by omega)
  · rw [henvr, hconr]
    exact (h.pending.of_same fun i _ hi => hslot i hi).mono hsp

theorem Frozen.refl (κ : Places) (σ : Store) (env : Env) : Frozen κ σ env κ σ :=
  fun _ _ hvals hnone _ => ⟨hnone, hvals⟩

theorem Frozen.trans (h : Frozen κ σ env κ' σ') (h' : Frozen κ' σ' env κ'' σ'') : Frozen κ σ env κ'' σ'' := by
  intro f vals hvals hnone hne
  obtain ⟨hnone', hvals'⟩ := h f vals hvals hnone hne
  exact h' f vals hvals' hnone' hne

theorem Frozen.of_nil (h : Frozen κ σ [] κ' σ') : Frozen κ σ env κ' σ' :=
  fun f vals hvals hnone _ => h f vals hvals hnone fun _ hrib => (by cases hrib)

theorem After.of_same (h : Here host codes κ σ env B E outer own m) (hslot : ∀ i, i < m.sp → m'.slot i = m.slot i)
    (hsp : m.sp ≤ m'.sp) (hfunr : m'.funr = m.funr) (henvr : m'.envr = m.envr) (hconr : m'.conr = m.conr)
    (hheap : m'.heap = m.heap) (hgenv : m'.genv = m.genv) :
    After host codes κ σ env B E outer own m κ σ m' :=
  ⟨h.of_same hslot hsp henvr hconr hheap hgenv, .refl κ, .refl κ σ env, hsp, hfunr, hconr, fun i hi _ _ => hslot i hi⟩

theorem After.trans (h : After host codes κ σ env B E outer own m κ' σ' m')
    (h' : After host codes κ' σ' env B E outer own m' κ'' σ'' m'') :
    After host codes κ σ env B E outer own m κ'' σ'' m'' where
  here := h'.here
  grow := h.grow.trans h'.grow
  frozen := h.frozen.trans h'.frozen
  sp := h.sp.trans h'.sp
  funr := h'.funr.trans h.funr
  conr := h'.conr.trans h.conr
  slots i hi hzone hown := by
    rw [h'.slots i (hi.trans_le h.sp) hzone hown, h.slots i hi hzone hown]

/-- The registers that say what is done next. -/
theorem After.setRegs (h : After host codes κ σ env B E outer own m κ' σ' m') (v : Value) (ip argc : Nat) :
    After host codes κ σ env B E outer own m κ' σ' { m' with valr := v, ip := ip, argc := argc } :=
  ⟨⟨h.here.inv, h.here.cur, h.here.pending, h.here.outer, h.here.base⟩, h.grow, h.frozen, h.sp, h.funr, h.conr,
    h.slots⟩

theorem Here.setRegs (h : Here host codes κ σ env B E outer own m) (v : Value) (ip argc : Nat) :
    Here host codes κ σ env B E outer own { m with valr := v, ip := ip, argc := argc } :=
  ⟨h.inv, h.cur, h.pending, h.outer, h.base⟩

/-- A function that has nothing pending returns. -/
theorem After.returned (h : After host codes κ σ env B E outer [] m κ' σ' m') (hB : B ≤ m.sp) :
    Returned host codes κ σ env B outer m κ' σ' m' where
  inv := h.here.inv
  grow := h.grow
  frozen := h.frozen
  conr := h.here.conr_eq
  slots i hi := h.slots i (hi.trans_le hB) (.inl hi) fun c hc => (by cases hc)

end Running

section Variables

variable {W : Type} {host : Host W} {codes : List Code} {κ : Places} {σ σ' : Store} {m : Machine} {env : Env}
  {B E : Nat} {outer w : Value} {own : List Nat} {s : Sym} {v : CoreVal}

theorem frameAt_iff {level f : Nat} {vals : List CoreVal} : σ.frameAt env level = some (f, vals) ↔
    ∃ rib, env[level]? = some rib ∧ rib.frame = f ∧ σ.frames[f]? = some vals := by
  simp only [Store.frameAt, Option.bind_eq_bind, Option.bind_eq_some_iff, Option.pure_def, Option.some.injEq,
    Prod.mk.injEq]
  constructor
  · rintro ⟨rib, hrib, vals, hvals, rfl, rfl⟩
    exact ⟨rib, hrib, rfl, hvals⟩
  · rintro ⟨rib, hrib, rfl, hvals⟩
    exact ⟨rib, hrib, vals, hvals, rfl, rfl⟩

/-- Where a variable is: in the frame on the stack, or in one on the heap. -/
theorem Here.place {level f i : Nat} {vals : List CoreVal} (h : Here host codes κ σ env B E outer own m)
    (hat : σ.frameAt env level = some (f, vals)) (hi : i < vals.length) :
    (∃ rib rest, env = rib :: rest ∧ rib.frame = f ∧ κ f = none ∧ E = B + vals.length + 2 ∧
      envval m level i = some (.stack (B + i))) ∨
    ∃ a p, κ f = some (a, p) ∧ envval m level i = some (.heap a (i + 1)) := by
  obtain ⟨rib, hrib, rfl, hvals⟩ := frameAt_iff.mp hat
  have hcur := h.cur
  rw [envval]
  generalize m.envr = envr at hcur
  cases hcur with
  | heap henv =>
    obtain ⟨a, p, ha, hf⟩ := henv.at h.inv hrib
    exact .inr ⟨a, p, hf, by rw [ha]⟩
  | @stack r rest vals₀ hnone hvals₀ hE hcount hparent hall =>
    cases level with
    | succ level =>
      obtain ⟨a, p, ha, hf⟩ := hparent.at h.inv hrib
      refine .inr ⟨a, p, hf, ?_⟩
      rw [envAt_succ, nextenv, ha]
    | zero =>
      obtain rfl := Option.some.inj hrib
      obtain rfl := Option.some.inj (hvals₀.symm.trans hvals)
      refine .inl ⟨r, rest, rfl, rfl, hnone, hE, ?_⟩
      have hstart : senvStart m (B + vals₀.length + 1) = B := by
        rw [senvStart, senvCount, Nat.add_sub_cancel, hcount, fix2int]
        omega
      have hplace : (some (.stack (senvStart m (B + vals₀.length + 1) + i)) : Option Place) =
          some (.stack (B + i)) := by
        rw [hstart]
      exact hplace

theorem Here.getenv {level f i : Nat} {vals : List CoreVal} (h : Here host codes κ σ env B E outer own m)
    (hat : σ.frameAt env level = some (f, vals)) (hi : vals[i]? = some v) :
    ∃ w, arcGetenv m level i = some w ∧ Holds host codes κ v w := by
  have hlt := (List.getElem?_eq_some_iff.mp hi).1
  obtain ⟨-, -, -, hvals⟩ := frameAt_iff.mp hat
  rw [arcGetenv]
  rcases h.place hat hlt with ⟨rib, rest, rfl, rfl, hnone, hE, hplace⟩ | ⟨a, p, hf, hplace⟩
  · refine ⟨m.slot (B + i), by rw [hplace]; rfl, ?_⟩
    have hcur := h.cur
    generalize m.envr = envr at hcur
    cases hcur with
    | heap henv =>
      cases henv with
      | cons ha => cases hnone.symm.trans ha
    | stack _ hvals₀ _ _ _ hall =>
      obtain rfl := Option.some.inj (hvals₀.symm.trans hvals)
      exact hall i v hi
  · obtain ⟨vals', ws, hvals', -, hvec, hall⟩ := h.inv.vec hf
    obtain rfl := Option.some.inj (hvals.symm.trans hvals')
    have hlt' : i < ws.length := hall.length_eq ▸ hlt
    refine ⟨ws[i], ?_, ?_⟩
    · rw [hplace, Option.map_some, Machine.read, Machine.vindex, hvec]
      simp [List.getElem?_eq_getElem hlt']
    · rw [← (List.getElem?_eq_some_iff.mp hi).2]
      exact hall.get hlt hlt'

/-- A variable of a frame on the stack is set. -/
theorem CurEnv.set {rib : Rib} {rest : Env} {frames : List (List CoreVal)} {slot : Nat → Value} {i : Nat}
    {vals : List CoreVal} (hnone : κ rib.frame = none) (hvals : frames[rib.frame]? = some vals)
    (hE : E = B + vals.length + 2) (hcount : slot (B + vals.length) = .fixnum (vals.length : Nat))
    (hparent : EnvAt κ rest (slot (B + vals.length + 1)))
    (hall : ∀ (i : Nat) (v : CoreVal), vals[i]? = some v → Holds host codes κ v (slot (B + i)))
    (hi : i < vals.length) (hv : Holds host codes κ v w) :
    CurEnv host codes κ (frames.set rib.frame (vals.set i v)) (Function.update slot (B + i) w) B E (rib :: rest)
      (.env (B + vals.length + 1)) := by
  have hslot : ∀ j, j ≠ B + i → Function.update slot (B + i) w j = slot j :=
    fun j hj => Function.update_of_ne hj _ _
  have hlen : vals.length = (vals.set i v).length := (List.length_set ..).symm
  rw [← hslot (B + vals.length) (by omega)] at hcount
  rw [← hslot (B + vals.length + 1) (by omega)] at hparent
  rw [hlen] at hE hcount hparent ⊢
  refine .stack hnone ?_ hE hcount hparent fun j u hj => ?_
  · rw [List.getElem?_set_self (List.getElem?_eq_some_iff.mp hvals).1]
  · by_cases hji : j = i
    · subst hji
      rw [List.getElem?_set_self hi] at hj
      rw [Function.update_self, ← Option.some.inj hj]
      exact hv
    · rw [List.getElem?_set_ne (Ne.symm hji)] at hj
      rw [hslot _ (by omega)]
      exact hall j u hj

theorem Here.putenv {level f i : Nat} {vals : List CoreVal} (h : Here host codes κ σ env B E outer own m)
    (hat : σ.frameAt env level = some (f, vals)) (hi : i < vals.length) (hv : Holds host codes κ v w) :
    ∃ m', arcPutenv m level i w = some m' ∧ m'.valr = m.valr ∧ m'.ip = m.ip ∧ m'.sp = m.sp ∧
      After host codes κ σ env B E outer own m κ { σ with frames := σ.frames.set f (vals.set i v) } m' := by
  obtain ⟨-, -, -, hvals⟩ := frameAt_iff.mp hat
  have hB := h.base
  have hsp := h.height
  rw [arcPutenv]
  rcases h.place hat hi with ⟨rib, rest, rfl, rfl, hnone, hE, hplace⟩ | ⟨a, p, hf, hplace⟩
  · refine ⟨m.setSlot (B + i) w, by rw [hplace]; rfl, rfl, rfl, rfl, ?_⟩
    have hslot : ∀ j, j ≠ B + i → (m.setSlot (B + i) w).slot j = m.slot j :=
      fun j hj => Function.update_of_ne hj _ _
    refine ⟨⟨⟨fun g b q hg => ?_, h.inv.older, h.inv.apart, h.inv.globals⟩, ?_, ?_, ?_, hB⟩, .refl κ, ?_,
      le_refl _, rfl, rfl, fun j hj hzone _ => hslot j (by omega)⟩
    · obtain ⟨vals', ws, hvals', hget, hall⟩ := h.inv.frames g b q hg
      have hne : rib.frame ≠ g := by
        rintro rfl
        cases hnone.symm.trans hg
      refine ⟨vals', ws, ?_, hget, hall⟩
      rw [List.getElem?_set_ne hne]
      exact hvals'
    · have hcur := h.cur
      change CurEnv host codes κ _ _ B E _ m.envr
      generalize m.envr = envr at hcur
      cases hcur with
      | heap henv =>
        cases henv with
        | cons ha => cases hnone.symm.trans ha
      | stack _ hvals₀ hE₀ hcount hparent hall =>
        obtain rfl := Option.some.inj (hvals₀.symm.trans hvals)
        exact CurEnv.set hnone hvals₀ hE₀ hcount hparent hall hi hv
    · exact h.pending.of_same fun j hj _ => hslot j (by omega)
    · exact h.outer.of_same fun j hj => hslot j (by omega)
    · intro g vals' hvals' hnone' hne
      refine ⟨hnone', ?_⟩
      rw [List.getElem?_set_ne (Ne.symm (hne rib rfl))]
      exact hvals'
  · refine ⟨m.setVindex a (i + 1) w, by rw [hplace]; rfl, rfl, rfl, rfl, ?_⟩
    have hne : ∀ g, κ g = none → f ≠ g := by
      rintro g hg rfl
      cases hf.symm.trans hg
    refine ⟨⟨h.inv.setVariable hf hvals hv, ?_, h.pending, h.outer, hB⟩, .refl κ, ?_, le_refl _, rfl, rfl,
      fun _ _ _ _ => rfl⟩
    · refine h.cur.of_same (.refl κ) (fun rib vals' _ hnone hvals' => ⟨hnone, ?_⟩) fun _ _ _ => rfl
      rw [List.getElem?_set_ne (hne _ hnone)]
      exact hvals'
    · intro g vals' hvals' hnone' _
      refine ⟨hnone', ?_⟩
      rw [List.getElem?_set_ne (hne g hnone')]
      exact hvals'

end Variables

section Closures

variable {W : Type} {host : Host W} {codes : List Code} {κ : Places} {σ : Store} {m : Machine} {env : Env}
  {B E : Nat} {outer : Value} {own : List Nat}

/-- A frame of the stack becomes a vector. -/
theorem Inv.moveFrame {heap : List Obj} {rib : Rib} {rest : Env} {p : Value} {vals : List CoreVal} {ws : List Value}
    (hinv : Inv host codes κ σ m.heap m.genv) (hnone : κ rib.frame = none) (hvals : σ.frames[rib.frame]? = some vals)
    (hparent : EnvAt κ rest p) (hall : List.Forall₂ (Holds host codes κ) vals ws)
    (hold : ∀ a, a < m.heap.length → heap[a]? = m.heap[a]?)
    (hnew : heap[m.heap.length]? = some (.vector (p :: ws))) :
    Places.Grow κ (Function.update κ rib.frame (some (m.heap.length, p))) ∧
    Inv host codes (Function.update κ rib.frame (some (m.heap.length, p))) σ heap m.genv := by
  have hgrow : Places.Grow κ (Function.update κ rib.frame (some (m.heap.length, p))) := by
    intro g x hg
    rw [Function.update_of_ne]
    · exact hg
    · rintro rfl
      cases hnone.symm.trans hg
  have hlt : ∀ g b q, κ g = some (b, q) → b < m.heap.length := by
    intro g b q hg
    obtain ⟨_, _, _, hget, _⟩ := hinv.vec hg
    exact (List.getElem?_eq_some_iff.mp hget).1
  have hcases : ∀ g b q, Function.update κ rib.frame (some (m.heap.length, p)) g = some (b, q) →
      g = rib.frame ∧ b = m.heap.length ∧ q = p ∨ κ g = some (b, q) := by
    intro g b q hg
    by_cases hgf : g = rib.frame
    · subst hgf
      rw [Function.update_self] at hg
      obtain ⟨rfl, rfl⟩ := Prod.mk.inj (Option.some.inj hg)
      exact .inl ⟨rfl, rfl, rfl⟩
    · rw [Function.update_of_ne hgf] at hg
      exact .inr hg
  refine ⟨hgrow, fun g b q hg => ?_, fun g b c hg => ?_, fun g g' b q q' hg hg' => ?_, fun s =>
    (hinv.globals s).grow hgrow⟩
  · rcases hcases g b q hg with ⟨rfl, rfl, rfl⟩ | hg
    · exact ⟨vals, ws, hvals, hnew, hall.imp fun _ _ hv => hv.grow hgrow⟩
    · obtain ⟨vals', ws', hvals', hget, hall'⟩ := hinv.frames g b q hg
      exact ⟨vals', ws', hvals', (hold b (hlt g b q hg)).trans hget, hall'.imp fun _ _ hv => hv.grow hgrow⟩
  · rcases hcases g b _ hg with ⟨rfl, rfl, rfl⟩ | hg
    · cases hparent with
      | cons hc => exact hlt _ _ _ hc
    · exact hinv.older g b c hg
  · rcases hcases g b q hg with ⟨hframe, hb, -⟩ | hold <;> rcases hcases g' b q' hg' with ⟨hframe', hb', -⟩ | hold'
    · rw [hframe, hframe']
    · have := hlt g' b q' hold'
      omega
    · have := hlt g b q hold
      omega
    · exact hinv.apart g g' b q q' hold hold'

/-- The frame of the stack is copied, and the continuations are redirected. -/
theorem move_frame {e : Nat} {rest : Env} {cs : List Value} (hinv : Inv host codes κ σ m.heap m.genv)
    (hchain : ContChain m m.conr cs) (hcs : cs.length ≤ m.sp) (hheap : ∀ a, Value.cont a ∉ cs)
    (henvr : m.envr = .env e) (hparent : EnvAt κ rest (m.slot e)) :
    ∃ m', senvrEnv2heap (m.sp + m.heap.length + 2) m = some m' ∧
      m' = { m with slot := m'.slot, heap := m'.heap, envr := .vector m.heap.length } ∧
      (∀ i, m'.slot i =
        if m.slot i = .env e ∧ i ∈ savedSlots cs then .vector m.heap.length else m.slot i) ∧
      (∀ a, a < m.heap.length → m'.heap[a]? = m.heap[a]?) ∧
      m'.heap[m.heap.length]? = some (.vector (frameCells m e)) := by
  obtain ⟨m₁, hupd, hred, hu, hchain₁, v, hv, -, -, hcells⟩ := moveFrame_spec (e := e) hchain
    (show cs.length < m.sp + m.heap.length + 2 by omega)
  cases hv
  have hold : ∀ a, a < m.heap.length → m₁.heap[a]? = m.heap[a]? := by
    intro a ha
    rw [hu.get a (hheap a)]
    exact alloc_get ha
  have hnew : m₁.heap[m.heap.length]? = some (.vector (frameCells m e)) := by
    rw [hu.get _ (hheap _)]
    simp [heapEnv, Machine.alloc, frameCells]
  have hinv₁ : Inv host codes κ σ m₁.heap m₁.genv := by
    refine ⟨fun g b q hg => ?_, hinv.older, hinv.apart, ?_⟩
    · obtain ⟨vals, ws, hvals, hget, hall⟩ := hinv.frames g b q hg
      exact ⟨vals, ws, hvals, (hold b (List.getElem?_eq_some_iff.mp hget).1).trans hget, hall⟩
    · rw [hred.frame]
      exact hinv.globals
  have hnext : nextenv m₁ (.vector m.heap.length) = m.slot e := by
    simp [nextenv, Machine.vindex, hcells, frameCells]
  have hlen := hparent.length_le hinv
  have hrest := hparent.arcEnv2heap_same hinv₁ hchain₁ (show cs.length < m.sp + m.heap.length + 2 by omega)
    (show rest.length < m.sp + m.heap.length + 1 by omega)
  have hloop : arcEnv2heap (m.sp + m.heap.length + 2) (m.sp + m.heap.length + 2) m (.env e) =
      some (m₁, .vector m.heap.length) := by
    rw [← hnext] at hrest
    simp only [arcEnv2heap, hupd, Option.bind_eq_bind, Option.bind_some, Option.pure_def]
    rw [show (heapEnv m e).2 = .vector m.heap.length from rfl, hrest]
    rfl
  refine ⟨{ m₁ with envr := .vector m.heap.length }, ?_, ?_, hu.slot, hold, hnew⟩
  · rw [senvrEnv2heap, henvr, hloop]
    rfl
  · rw [hred.frame]

/-- The environment of a new closure. -/
theorem Here.runCls (h : Here host codes κ σ env B E outer own m) :
    ∃ κ' m' w, Arcueid.runCls m = .ok (m', .resume) ∧ m'.valr = .clos m.valr w ∧ EnvAt κ' env w ∧ m'.sp = m.sp ∧
      m'.ip = m.ip ∧ After host codes κ σ env B E outer own m κ' σ m' := by
  have hB := h.base
  have hsp := h.height
  obtain ⟨hinv, hcur, hpending, houter, -⟩ := h
  generalize henvr : m.envr = envr at hcur
  cases hcur with
  | heap henv =>
    have hno : envP m.envr = false := by
      rw [henvr]
      cases henv <;> rfl
    refine ⟨κ, m.setValr (.clos m.valr m.envr), m.envr, ?_, rfl, henvr ▸ henv, rfl, rfl, ?_⟩
    · rw [Arcueid.runCls, hno]
      rfl
    · have h : Here host codes κ σ env B E outer own m := ⟨hinv, henvr ▸ .heap henv, hpending, houter, hB⟩
      exact .of_same h (fun _ _ => rfl) (le_refl _) rfl rfl rfl rfl rfl
  | @stack rib rest vals hnone hvals hE hcount hparent hall =>
    have hpend := hpending
    rw [henvr] at hpend
    obtain ⟨cs, hchain, hlen, hheap, hown, hsaved⟩ := hpending.contChain houter hB
    obtain ⟨m', hrun, hregs, hslot, hold, hnew⟩ := move_frame hinv hchain hlen hheap henvr hparent
    have hcells : frameCells m (B + vals.length + 1) =
        m.slot (B + vals.length + 1) :: (List.range vals.length).map fun i => m.slot (B + i) := by
      have hcnt : senvCount m (B + vals.length + 1) = vals.length := by
        rw [senvCount, Nat.add_sub_cancel, hcount, fix2int]
        omega
      have hstart : senvStart m (B + vals.length + 1) = B := by
        rw [senvStart, hcnt]
        omega
      rw [frameCells, hcnt, hstart]
    rw [hcells] at hnew
    have hws : List.Forall₂ (Holds host codes κ) vals ((List.range vals.length).map fun i => m.slot (B + i)) := by
      refine List.forall₂_iff_get.mpr ⟨by simp, fun i hi hi' => ?_⟩
      simpa using hall i vals[i] (List.getElem?_eq_getElem hi)
    obtain ⟨hgrow, hinv'⟩ := hinv.moveFrame hnone hvals hparent hws hold hnew
    have hlow : ∀ i, i < B → m'.slot i = m.slot i := by
      intro i hi
      rw [hslot, if_neg]
      rintro ⟨he, hmem⟩
      rcases hsaved i hmem with ⟨c, hc, rfl⟩ | ⟨-, hlt⟩
      · have := hpend.mem_le hc
        omega
      · have := hlt _ he
        omega
    have hothers : ∀ i, (i < B ∨ E ≤ i) → (∀ c ∈ own, i ≠ c + 2) → m'.slot i = m.slot i := by
      intro i hzone hne
      rcases hzone with hi | hi
      · exact hlow i hi
      · rw [hslot, if_neg]
        rintro ⟨-, hmem⟩
        rcases hsaved i hmem with ⟨c, hc, hic⟩ | ⟨hlt, -⟩
        · exact hne c hc hic
        · omega
    have hthere : EnvAt (Function.update κ rib.frame (some (m.heap.length, m.slot (B + vals.length + 1))))
        (rib :: rest) (.vector m.heap.length) := .cons (Function.update_self ..) (hparent.grow hgrow)
    have hpend' : Pending m'.slot (.vector m.heap.length) outer E m.sp m.conr own := by
      refine hpend.redirect (fun c hc => ?_) fun c hc => ?_
      · rw [hslot, if_pos ⟨(hpend.saved houter.contP hc).1, hown c hc⟩]
      · rw [hslot, if_neg]
        rintro ⟨he, -⟩
        have hlink := (hpend.saved houter.contP hc).2
        rw [he] at hlink
        cases hlink
    have hregs' : m'.setValr (.clos m'.valr m'.envr) = { m with
        slot := m'.slot, heap := m'.heap, envr := .vector m.heap.length
        valr := .clos m.valr (.vector m.heap.length) } := by
      rw [hregs]
      rfl
    refine ⟨_, { m with
        slot := m'.slot, heap := m'.heap, envr := .vector m.heap.length
        valr := .clos m.valr (.vector m.heap.length) }, .vector m.heap.length, ?_, rfl, hthere, rfl, rfl,
      ⟨⟨hinv', .heap hthere, hpend', ?_, hB⟩, hgrow, ?_, le_refl _, rfl, rfl, fun i _ hzone hne =>
        hothers i hzone hne⟩⟩
    · rw [← hregs', Arcueid.runCls, henvr, ← henvr, if_pos (by rw [henvr]; rfl), hrun]
    · exact houter.of_same hlow
    · intro f vals' hvals' hnone' hne
      refine ⟨?_, hvals'⟩
      rw [Function.update_of_ne (hne rib rfl)]
      exact hnone'

end Closures

end Arcueid.Core
