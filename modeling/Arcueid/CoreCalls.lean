import Arcueid.CoreFrames

/-! Calls of functions and returns from them, in the machine that holds a store. -/

namespace Arcueid.Core

section Calls

variable {W : Type} {host : Host W} {codes : List Code} {κ κ' : Places} {σ σ' : Store} {m m' : Machine}
  {env : Env} {B E b c n : Nat} {outer w : Value} {own : List Nat} {vals : List CoreVal}

/-- A continuation is made. -/
theorem Here.mkcont (h : Here host codes κ σ env B E outer own m) (offset : Nat) :
    ∃ slot, { (arcMkcont m offset).1 with conr := (arcMkcont m offset).2 } =
        { m with slot := slot, sp := m.sp + 6, conr := .fixnum (m.sp + 6 : Nat) } ∧
      (∀ i, i < m.sp → slot i = m.slot i) ∧ slot (m.sp + 1) = .fixnum offset ∧ slot (m.sp + 3) = m.funr ∧
      slot (m.sp + 5) = m.conr ∧ Here host codes κ σ env B E outer (m.sp :: own)
        { m with slot := slot, sp := m.sp + 6, conr := .fixnum (m.sp + 6 : Nat) } := by
  have hlow : ∀ i, i < m.sp → (arcMkcont m offset).1.slot i = m.slot i := fun i hi => pushAll_slot_lt hi
  have hat : ∀ i (hi : i < 6), (arcMkcont m offset).1.slot (m.sp + i) =
      [.fixnum m.tsfn, .fixnum offset, m.envr, m.funr, .fixnum m.argc, m.conr].get ⟨i, hi⟩ :=
    fun i hi => pushAll_slot_add hi
  refine ⟨(arcMkcont m offset).1.slot, ?_, hlow, hat 1 (by decide), hat 3 (by decide), hat 5 (by decide), ?_⟩
  · rw [arcMkcont, pushAll_frame]
    rfl
  · have hE := h.height
    have hB := h.base
    refine ⟨h.inv, ?_, ?_, h.outer.of_same fun i hi => hlow i (by omega), hB⟩
    · exact h.cur.of_same (.refl κ) (fun _ _ _ hnone hvals => ⟨hnone, hvals⟩) fun i _ hi => hlow i (by omega)
    · exact .cons (le_refl _) (hat 2 (by decide)) (hat 5 (by decide))
        (h.pending.of_same fun i _ hi => hlow i hi)

theorem restorecont_stack (c : Nat) : arcRestorecont m (.fixnum (c + 6 : Nat)) = { m with
    sp := c
    conr := m.slot (c + 5)
    argc := (fix2int (m.slot (c + 4))).toNat
    funr := m.slot (c + 3)
    envr := m.slot (c + 2)
    ip := (fix2int (m.slot (c + 1))).toNat
    tsfn := (fix2int (m.slot c)).toNat } := rfl

/-- A function that was called has returned to the continuation that was made for it. -/
theorem Here.restorecont (h : Here host codes κ σ env B E outer (c :: own) m)
    (hret : Returned host codes κ σ [] (c + 6) m.conr m κ' σ' m') :
    m'.conr = .fixnum (c + 6 : Nat) ∧
      Here host codes κ' σ' env B E outer own (arcRestorecont m' (.fixnum (c + 6 : Nat))) := by
  have hB := h.base
  obtain ⟨hinv, hcur, hpending, houter, -⟩ := h
  have hconr := hret.conr
  generalize m.conr = conr at hpending hconr
  cases hpending with
  | @cons _ _ cont _ hc henv hcont hrest =>
    have hE := hrest.le
    refine ⟨hconr, ?_⟩
    rw [restorecont_stack]
    refine ⟨hret.inv, ?_, ?_, houter.of_same fun i hi => hret.slots i (by omega), hB⟩
    · rw [show m'.slot (c + 2) = m.envr from (hret.slots _ (by omega)).trans henv]
      refine hcur.of_same hret.grow (fun rib vals _ hnone hvals => ?_) fun i _ hi => hret.slots i (by omega)
      exact hret.frozen _ _ hvals hnone fun _ hrib => (by cases hrib)
    · rw [show m'.slot (c + 2) = m.envr from (hret.slots _ (by omega)).trans henv,
        show m'.slot (c + 5) = cont from (hret.slots _ (by omega)).trans hcont]
      exact hrest.of_same fun i _ hi => hret.slots i (by omega)

/-- Before a tail call the arguments are moved to where the frame began, if it is on the
stack. -/
theorem Here.menv (h : Here host codes κ σ env B E outer [] m) (hsp : m.sp = b + n) (hb : E ≤ b) :
    ∃ B', B ≤ B' ∧ arcMenv m n = { m with
        slot := (arcMenv m n).slot, sp := B' + n, envr := (arcMenv m n).envr } ∧
      (∀ i, i < n → (arcMenv m n).slot (B' + i) = m.slot (b + i)) ∧
      ∀ i, i < B → (arcMenv m n).slot i = m.slot i := by
  have hB := h.base
  have hcur := h.cur
  rw [arcMenv]
  generalize henvr : m.envr = envr at hcur
  cases hcur with
  | heap henv =>
    cases henv with
    | nil =>
      refine ⟨b, by omega, ?_, fun _ _ => rfl, fun _ _ => rfl⟩
      rw [← hsp]
    | cons =>
      refine ⟨b, by omega, ?_, fun _ _ => rfl, fun _ _ => rfl⟩
      rw [← hsp]
  | @stack rib rest vals hnone hvals hE hcount =>
    have hstart : senvStart m (B + vals.length + 1) = B := by
      rw [senvStart, senvCount, Nat.add_sub_cancel, hcount, fix2int]
      omega
    refine ⟨B, le_refl _, ?_, fun i hi => ?_, fun i hi => ?_⟩
    · simp only [hstart]
    · simp only [hstart]
      rw [if_pos (by omega)]
      congr 1
      omega
    · simp only [hstart]
      rw [if_neg (by omega)]

/-- A function without parameters runs in the environment of its closure. -/
theorem Here.enter (hinv : Inv host codes κ σ m.heap m.genv) (henv : EnvAt κ env m.envr)
    (houter : Outer m.slot m.sp m.conr) : Here host codes κ σ env m.sp m.sp m.conr [] m :=
  ⟨hinv, .heap henv, .nil (le_refl _), houter, le_refl _⟩

/-- The frame that is made for the parameters of a function. -/
theorem Here.mkenv (names : List Sym) (hinv : Inv host codes κ σ m.heap m.genv) (henv : EnvAt κ env m.envr)
    (houter : Outer m.slot B m.conr) (hsp : m.sp = B + vals.length)
    (hall : ∀ (i : Nat) (v : CoreVal), vals[i]? = some v → Holds host codes κ v (m.slot (B + i))) :
    Here host codes κ { σ with frames := σ.frames ++ [vals] } (⟨names, σ.frames.length⟩ :: env) B
        (B + vals.length + 2) m.conr [] (arcMkenv m vals.length 0) ∧
      ∀ i, i < B → (arcMkenv m vals.length 0).slot i = m.slot i := by
  have hlow : ∀ i, i < m.sp → (arcMkenv m vals.length 0).slot i = m.slot i := by
    intro i hi
    change Function.update (Function.update m.slot m.sp _) (m.sp + 1) _ i = _
    rw [Function.update_of_ne (by omega), Function.update_of_ne (by omega)]
  have hcount : (arcMkenv m vals.length 0).slot (B + vals.length) = .fixnum (vals.length : Nat) := by
    change Function.update (Function.update m.slot m.sp _) (m.sp + 1) _ _ = _
    rw [Function.update_of_ne (by omega), ← hsp, Function.update_self]
    rfl
  have hparent : (arcMkenv m vals.length 0).slot (B + vals.length + 1) = m.envr := by
    change Function.update (Function.update m.slot m.sp _) (m.sp + 1) _ _ = _
    rw [← hsp, Function.update_self]
  have henvr : (arcMkenv m vals.length 0).envr = .env (B + vals.length + 1) := by
    rw [← hsp]
    rfl
  have hheight : (arcMkenv m vals.length 0).sp = B + vals.length + 2 := by
    rw [← hsp]
    rfl
  refine ⟨⟨hinv.grow_frames vals, ?_, ?_, houter.of_same fun i hi => hlow i (by omega), by omega⟩,
    fun i hi => hlow i (by omega)⟩
  · rw [henvr]
    refine .stack hinv.fresh (by simp) rfl hcount (by rw [hparent]; exact henv) fun i v hi => ?_
    have hlt := (List.getElem?_eq_some_iff.mp hi).1
    rw [hlow _ (by omega)]
    exact hall i v hi
  · rw [hheight]
    exact .nil (le_refl _)

end Calls

end Arcueid.Core
