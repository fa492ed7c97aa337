import Arcueid.ContHeap

/-! The threads that pushes, `__arc_mkenv` and `__arc_mkcont` build. -/

namespace Arcueid

/-- `SCONR(thr, __arc_mkcont(c, thr, offset))`. -/
def sconrMkcont (m : Machine) (offset : Nat) : Machine :=
  { (arcMkcont m offset).1 with conr := (arcMkcont m offset).2 }

/-- A thread built on the stack, with its continuations and the height of the
topmost frame or continuation. -/
inductive Built : Machine → List Value → Nat → Prop
  | thread (genv : Sym → Value) : Built (arcMkthread genv) [] 0
  | push {m : Machine} {cs : List Value} {top : Nat} {v : Value} : Built m cs top →
      envP v = false → Built (m.cpush v) cs top
  | drop {m : Machine} {cs : List Value} {top : Nat} : Built m cs top → top < m.sp →
      Built m.drop cs top
  | regs {m : Machine} {cs : List Value} {top argc ip tsfn : Nat} {funr valr : Value} :
      Built m cs top → envP funr = false →
      Built { m with funr := funr, valr := valr, argc := argc, ip := ip, tsfn := tsfn } cs top
  | mkenv {m : Machine} {cs : List Value} {top prevsize extrasize : Nat} : Built m cs top →
      top + prevsize ≤ m.sp →
      Built (arcMkenv m prevsize extrasize) cs (arcMkenv m prevsize extrasize).sp
  | mkcont {m : Machine} {cs : List Value} {top offset : Nat} : Built m cs top →
      Built (sconrMkcont m offset) ((sconrMkcont m offset).conr :: cs) (sconrMkcont m offset).sp

/-- A chain of frames below `top`, apart from the saved environments. -/
def FramedBelow (m : Machine) (cs : List Value) (top : Nat) (env : Value) : Prop :=
  ∃ es, EnvChain m env es ∧ FramesApart m cs es ∧
    ∀ e, Value.env e ∈ es → senvCount m e + 1 ≤ e ∧ e < top

/-- What is built lies below `top`. -/
structure FormedBelow (m : Machine) (cs : List Value) (top : Nat) : Prop where
  le : top ≤ m.sp
  chain : ContChain m m.conr cs
  funr : envP m.funr = false
  envr : FramedBelow m cs top m.envr
  saved : ∀ cont ∈ cs, FramedBelow m cs top (contenv m cont)
  stack : ∀ cont ∈ cs, ∃ c : Nat, cont = .fixnum c ∧ 6 ≤ c ∧ c ≤ top ∧
    (∃ n : Nat, stackCont m c 6 = .fixnum n) ∧ envP (stackCont m c 2) = false ∧
    envP (stackCont m c 3) = false ∧ envP (stackCont m c 5) = false

section FormedBelow

variable {m m' : Machine} {cs cs' : List Value} {top top' : Nat}

theorem FramedBelow.of_agree {env : Value} (h : FramedBelow m cs top env)
    (hslot : ∀ i, i < top → m'.slot i = m.slot i) (hheap : m'.heap = m.heap) (hle : top ≤ top')
    (hsaved : ∀ i ∈ savedSlots cs', i < top → i ∈ savedSlots cs) : FramedBelow m' cs' top' env := by
  obtain ⟨es, henv, hap, hframes⟩ := h
  have hcount : ∀ e, Value.env e ∈ es → senvCount m' e = senvCount m e := fun e he => by
    have hlt := (hframes e he).2
    rw [senvCount, senvCount, hslot _ (by omega)]
  refine ⟨es, henv.of_kept (by rw [hheap]) (fun a _ => by rw [Machine.vec, Machine.vec, hheap])
    fun e he => hslot e (hframes e he).2, fun e he i hi hmem => ?_, fun e he => ?_⟩
  · obtain ⟨hfit, hlt⟩ := hframes e he
    rw [senvStart, hcount e he] at hi
    have hbelow : i < top := by
      rcases hi with rfl | rfl | ⟨j, hj, rfl⟩ <;> omega
    exact hap e he i hi (hsaved i hmem hbelow)
  · obtain ⟨hfit, hlt⟩ := hframes e he
    rw [hcount e he]
    exact ⟨hfit, by omega⟩

theorem ContChain.of_agree {cont : Value} (h : ContChain m cont cs)
    (hstack : ∀ x ∈ cs, ∃ c : Nat, x = .fixnum c ∧ 6 ≤ c ∧ c ≤ top)
    (hslot : ∀ i, i < top → m'.slot i = m.slot i) : ContChain m' cont cs := by
  induction h with
  | nil => exact .nil
  | heap _ _ =>
    obtain ⟨c, hc, -⟩ := hstack _ List.mem_cons_self
    cases hc
  | @stack c cs hrest ih =>
    obtain ⟨n, hn, hsix, hle⟩ := hstack _ List.mem_cons_self
    cases hn
    refine .stack ?_
    have hword : stackCont m' (n : Int).toNat 1 = stackCont m (n : Int).toNat 1 :=
      hslot _ (by simp; omega)
    rw [hword]
    exact ih fun x hx => hstack x (List.mem_cons_of_mem _ hx)

theorem FormedBelow.word_eq (h : FormedBelow m cs top)
    (hslot : ∀ i, i < top → m'.slot i = m.slot i) {cont : Value} (hcont : cont ∈ cs) :
    ∃ c : Nat, cont = .fixnum c ∧ ∀ i, 0 < i → stackCont m' c i = stackCont m c i := by
  obtain ⟨c, rfl, hsix, hct, -⟩ := h.stack cont hcont
  exact ⟨c, rfl, fun i hi => hslot _ (by omega)⟩

theorem FormedBelow.saved_of_agree (h : FormedBelow m cs top)
    (hslot : ∀ i, i < top → m'.slot i = m.slot i) (hheap : m'.heap = m.heap) (hle : top ≤ top')
    (hsaved : ∀ i ∈ savedSlots cs', i < top → i ∈ savedSlots cs) {cont : Value}
    (hcont : cont ∈ cs) : FramedBelow m' cs' top' (contenv m' cont) := by
  obtain ⟨c, rfl, hword⟩ := h.word_eq hslot hcont
  have henv : contenv m' (.fixnum c) = contenv m (.fixnum c) := hword 4 (by decide)
  rw [henv]
  exact (h.saved _ hcont).of_agree hslot hheap hle hsaved

theorem FormedBelow.stack_of_agree (h : FormedBelow m cs top)
    (hslot : ∀ i, i < top → m'.slot i = m.slot i) (hle : top ≤ top') {cont : Value}
    (hcont : cont ∈ cs) : ∃ c : Nat, cont = .fixnum c ∧ 6 ≤ c ∧ c ≤ top' ∧
      (∃ n : Nat, stackCont m' c 6 = .fixnum n) ∧ envP (stackCont m' c 2) = false ∧
      envP (stackCont m' c 3) = false ∧ envP (stackCont m' c 5) = false := by
  obtain ⟨c, rfl, hsix, hct, hwords⟩ := h.stack cont hcont
  obtain ⟨c', hc', hword⟩ := h.word_eq hslot hcont
  cases hc'
  refine ⟨c, rfl, hsix, hct.trans hle, ?_⟩
  rw [hword 6 (by decide), hword 2 (by decide), hword 3 (by decide), hword 5 (by decide)]
  exact hwords

theorem FormedBelow.chain_of_agree (h : FormedBelow m cs top)
    (hslot : ∀ i, i < top → m'.slot i = m.slot i) : ContChain m' m.conr cs := by
  refine h.chain.of_agree (fun x hx => ?_) hslot
  obtain ⟨c, rfl, hsix, hct, -⟩ := h.stack x hx
  exact ⟨c, rfl, hsix, hct⟩

/-- Nothing below `top` has changed. -/
theorem FormedBelow.of_agree (h : FormedBelow m cs top)
    (hslot : ∀ i, i < top → m'.slot i = m.slot i) (hheap : m'.heap = m.heap)
    (hle : top ≤ top') (hle' : top' ≤ m'.sp) (hconr : m'.conr = m.conr)
    (hfunr : envP m'.funr = false) (henvr : FramedBelow m' cs top' m'.envr) :
    FormedBelow m' cs top' := by
  refine ⟨hle', hconr ▸ h.chain_of_agree hslot, hfunr, henvr, fun cont hcont => ?_,
    fun cont hcont => h.stack_of_agree hslot hle hcont⟩
  exact h.saved_of_agree hslot hheap hle (fun i hi _ => hi) hcont

theorem FormedBelow.savedSlots_lt (h : FormedBelow m cs top) {i : Nat} (hi : i ∈ savedSlots cs) :
    i < top := by
  obtain ⟨cont, hmem, hslot⟩ := List.mem_filterMap.mp hi
  obtain ⟨c, rfl, hsix, hct, -⟩ := h.stack cont hmem
  have hi' : c - 4 = i := Option.some.inj hslot
  omega

theorem arcMkenv_eq (m : Machine) (prevsize extrasize : Nat) :
    arcMkenv m prevsize extrasize =
      { m.pushAll (List.replicate extrasize .unbound ++
          [.fixnum (prevsize + extrasize : Nat), m.envr]) with
        tsfn := m.sp + extrasize + 2, envr := .env (m.sp + extrasize + 1) } := by
  have hframe : m.pushAll (List.replicate extrasize .unbound) = _ := pushAll_frame
  simp only [arcMkenv, Machine.pushAll, List.foldl_append, List.foldl_cons, List.foldl_nil]
  simp only [Machine.pushAll] at hframe
  rw [hframe]
  simp [Machine.cpush, Machine.setSlot]

theorem FormedBelow.mkenv {prevsize extrasize : Nat} (h : FormedBelow m cs top)
    (hp : top + prevsize ≤ m.sp) :
    FormedBelow (arcMkenv m prevsize extrasize) cs (arcMkenv m prevsize extrasize).sp := by
  let vs := List.replicate extrasize .unbound ++ [.fixnum (prevsize + extrasize : Nat), m.envr]
  have hslot : ∀ i, i < top → (arcMkenv m prevsize extrasize).slot i = m.slot i := fun i hi => by
    rw [arcMkenv_eq]
    exact pushAll_slot_lt (by omega)
  have hcount : (arcMkenv m prevsize extrasize).slot (m.sp + extrasize) =
      .fixnum (prevsize + extrasize : Nat) := by
    rw [arcMkenv_eq]
    have hlt : extrasize < vs.length := by simp [vs]
    exact (pushAll_slot_add hlt).trans (by simp [vs])
  have hlink : (arcMkenv m prevsize extrasize).slot (m.sp + extrasize + 1) = m.envr := by
    rw [arcMkenv_eq, Nat.add_assoc]
    have hlt : extrasize + 1 < vs.length := by simp [vs]
    exact (pushAll_slot_add hlt).trans (by simp [vs])
  have hsp : (arcMkenv m prevsize extrasize).sp = m.sp + extrasize + 2 := by
    rw [arcMkenv_eq]
    simp [Nat.add_assoc]
  have henvr : (arcMkenv m prevsize extrasize).envr = .env (m.sp + extrasize + 1) := by
    rw [arcMkenv_eq]
  have hfunr : (arcMkenv m prevsize extrasize).funr = m.funr := by
    rw [arcMkenv_eq, pushAll_frame]
  have hconr : (arcMkenv m prevsize extrasize).conr = m.conr := by
    rw [arcMkenv_eq, pushAll_frame]
  have hheap : (arcMkenv m prevsize extrasize).heap = m.heap := by
    rw [arcMkenv_eq]
    exact pushAll_heap
  have henv : FramedBelow (arcMkenv m prevsize extrasize) cs top m.envr :=
    h.envr.of_agree hslot hheap (le_refl top) fun i hi _ => hi
  obtain ⟨es, hes, hap, hframes⟩ := henv
  generalize arcMkenv m prevsize extrasize = m' at *
  have hsize : senvCount m' (m.sp + extrasize + 1) = prevsize + extrasize := by
    rw [senvCount, Nat.add_sub_cancel, hcount]
    rfl
  refine h.of_agree hslot hheap (by omega) (le_refl _) hconr (hfunr ▸ h.funr) ?_
  rw [henvr]
  refine ⟨.env (m.sp + extrasize + 1) :: es, .env (hlink ▸ hes), fun e he i hi hmem => ?_,
    fun e he => ?_⟩
  · rcases List.mem_cons.mp he with hnew | hold
    · cases hnew
      have hlt := h.savedSlots_lt hmem
      rw [senvStart, hsize] at hi
      rcases hi with rfl | rfl | ⟨j, hj, rfl⟩ <;> omega
    · exact hap e hold i hi hmem
  · rcases List.mem_cons.mp he with hnew | hold
    · cases hnew
      rw [hsize]
      omega
    · obtain ⟨hfit, hlt⟩ := hframes e hold
      exact ⟨hfit, by omega⟩

theorem FormedBelow.mkcont {offset : Nat} (h : FormedBelow m cs top) :
    FormedBelow (sconrMkcont m offset) ((sconrMkcont m offset).conr :: cs)
      (sconrMkcont m offset).sp := by
  let vs : List Value := [.fixnum m.tsfn, .fixnum offset, m.envr, m.funr, .fixnum m.argc, m.conr]
  have hle := h.le
  have hslot : ∀ i, i < top → (sconrMkcont m offset).slot i = m.slot i := by
    intro i hi
    change (m.pushAll vs).slot i = m.slot i
    exact pushAll_slot_lt (by omega)
  have hword : ∀ i (hi : i < 6), (sconrMkcont m offset).slot (m.sp + i) = vs[i] := by
    intro i hi
    change (m.pushAll vs).slot (m.sp + i) = vs[i]
    exact pushAll_slot_add hi
  have hsp : (sconrMkcont m offset).sp = m.sp + 6 := rfl
  have hconr : (sconrMkcont m offset).conr = .fixnum (m.sp + 6 : Nat) := rfl
  have hheap : (sconrMkcont m offset).heap = m.heap := rfl
  have henvr : (sconrMkcont m offset).envr = m.envr := rfl
  have hfunr : (sconrMkcont m offset).funr = m.funr := rfl
  generalize sconrMkcont m offset = m' at *
  have hsaved : ∀ i ∈ savedSlots (m'.conr :: cs), i < top → i ∈ savedSlots cs := by
    intro i hi hlt
    rw [hconr] at hi
    rcases List.mem_cons.mp hi with hnew | hold
    · simp at hnew
      omega
    · exact hold
  have hcur : FramedBelow m' (m'.conr :: cs) m'.sp m.envr :=
    h.envr.of_agree hslot hheap (by omega) hsaved
  have hstk : ∀ i (hpos : 0 < i) (hi : i ≤ 6),
      stackCont m' (m.sp + 6) i = vs.get ⟨6 - i, by simp [vs]; omega⟩ := by
    intro i hpos hi
    rw [stackCont, show m.sp + 6 - i = m.sp + (6 - i) by omega]
    exact hword _ (by omega)
  refine ⟨le_refl _, ?_, hfunr ▸ h.funr, henvr ▸ hcur, fun cont hcont => ?_, fun cont hcont => ?_⟩
  · rw [hconr]
    refine .stack ?_
    have hnext : stackCont m' (m.sp + 6) 1 = m.conr := hstk 1 (by decide) (by decide)
    rw [Int.toNat_natCast, hnext]
    exact h.chain_of_agree hslot
  · rcases List.mem_cons.mp hcont with hnew | hold
    · have henv : contenv m' cont = m.envr := by
        rw [hnew, hconr]
        exact hstk 4 (by decide) (by decide)
      exact henv ▸ hcur
    · exact h.saved_of_agree hslot hheap (by omega) hsaved hold
  · rcases List.mem_cons.mp hcont with hnew | hold
    · refine ⟨m.sp + 6, hnew.trans hconr, by omega, by omega, ⟨m.tsfn, hstk 6 (by decide) (by decide)⟩,
        ?_, ?_, ?_⟩
      · rw [hstk 2 (by decide) (by decide)]
        rfl
      · rw [hstk 3 (by decide) (by decide)]
        exact h.funr
      · rw [hstk 5 (by decide) (by decide)]
        rfl
    · exact h.stack_of_agree hslot (by omega) hold

theorem Built.formedBelow (h : Built m cs top) : FormedBelow m cs top := by
  induction h with
  | thread genv => exact ⟨le_refl _, .nil, rfl, ⟨[], .nil, by simp [FramesApart], by simp⟩, by simp, by simp⟩
  | @push m cs top v _ hv ih =>
    have hslot : ∀ i, i < top → (m.cpush v).slot i = m.slot i := fun i hi =>
      Function.update_of_ne (by have := ih.le; omega) _ _
    refine ih.of_agree hslot rfl (le_refl _) (Nat.le_succ_of_le ih.le) rfl ih.funr ?_
    exact ih.envr.of_agree hslot rfl (le_refl _) fun i hi _ => hi
  | drop _ hlt ih =>
    refine ih.of_agree (fun i _ => rfl) rfl (le_refl _) (Nat.le_pred_of_lt hlt) rfl ih.funr ?_
    exact ih.envr.of_agree (fun i _ => rfl) rfl (le_refl _) fun i hi _ => hi
  | regs _ hfunr ih =>
    refine ih.of_agree (fun i _ => rfl) rfl (le_refl _) ih.le rfl hfunr ?_
    exact ih.envr.of_agree (fun i _ => rfl) rfl (le_refl _) fun i hi _ => hi
  | mkenv _ hp ih => exact ih.mkenv hp
  | mkcont _ ih => exact ih.mkcont

theorem Built.formed (h : Built m cs top) : ThreadFormed m cs := by
  have hbelow := h.formedBelow
  have hframed : ∀ {env}, FramedBelow m cs top env →
      ∃ es, EnvChain m env es ∧ FramesApart m cs es := fun ⟨es, henv, hap, _⟩ => ⟨es, henv, hap⟩
  refine ⟨hbelow.chain, hframed hbelow.envr, fun cont hcont => hframed (hbelow.saved cont hcont),
    fun c hc => ?_, fun a k ha => ?_⟩
  · obtain ⟨n, hn, hsix, -, hwords⟩ := hbelow.stack _ hc
    cases hn
    exact ⟨by omega, hwords⟩
  · obtain ⟨n, hn, -⟩ := hbelow.stack _ ha
    cases hn

end FormedBelow

end Arcueid
