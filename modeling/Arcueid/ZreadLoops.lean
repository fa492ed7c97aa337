import Arcueid.Lib.Bounded
import Arcueid.Zread

/-! The loops of the reader in Arc: none gives anything else with a larger bound,
and all but the one of `readblockcomment` end, with no more left than there was. -/

namespace Arcueid.Zread

open Numeral Reader Outcome Bounded

variable {F : Type} {e : ZEnv F} {n : Nat} {s t : List Nat} {eof : Datum F}

theorem blockLoop_le (n nestlevel : Nat) :
    Le .fuel (blockLoop n nestlevel) (blockLoop (n + 1) nestlevel) := by
  induction n generalizing nestlevel with
  | zero => exact Le.of_throw
  | succ n ih =>
    unfold blockLoop
    apply Le.bind Le.refl
    intro r
    apply Le.bind Le.refl
    intro ch
    apply Le.ite
    · apply Le.bind Le.refl
      intro _
      exact Le.ite Le.refl (ih _)
    apply Le.ite
    · apply Le.bind Le.refl
      intro _
      exact ih _
    · exact ih _

theorem readblockcomment_le (n : Nat) :
    Le .fuel (readblockcomment n) (readblockcomment (n + 1)) :=
  Le.bind Le.refl fun _ => blockLoop_le n 0

theorem stringLoop_le {endch : Nat} {metachar : Nat → Option (List Nat)} (n : Nat) (state : ZState)
    (buf : List Nat) :
    Le .fuel (stringLoop endch metachar n state buf)
      (stringLoop endch metachar (n + 1) state buf) := by
  induction n generalizing state buf with
  | zero => exact Le.of_throw
  | succ n ih =>
    have hnext : ∀ {α : Type} (x : ZM α) (state : ZState) (buf : α → List Nat),
        Le .fuel (x >>= fun a => stringLoop endch metachar n state (buf a))
          (x >>= fun a => stringLoop endch metachar (n + 1) state (buf a)) :=
      fun x state buf => Le.bind Le.refl fun a => ih state (buf a)
    unfold stringLoop
    apply Le.bind Le.refl
    intro ch
    cases state with
    | normal =>
      apply Le.ite (hnext _ _ _)
      apply Le.ite (hnext _ _ _)
      exact Le.bind Le.refl fun r => hnext _ _ _
    | done => exact Le.refl
    | escape =>
      apply Le.bind Le.refl
      intro ch
      apply Le.ite (hnext _ _ _)
      cases escapes.lookup ch with
      | some r => exact hnext _ _ _
      | none =>
        apply Le.ite (hnext _ _ _)
        apply Le.ite (hnext _ _ _)
        cases metachar ch with
        | some written => exact hnext _ _ _
        | none => exact Le.ite (ih _ _) Le.refl
    | octal value ndigits =>
      apply Le.bind Le.refl
      intro ch
      exact Le.ite (hnext _ _ _) (hnext _ _ _)
    | unicode max =>
      apply Le.bind Le.refl
      intro ch
      exact Le.ite (ih _ _) Le.refl
    | hex value ndigits max =>
      apply Le.ite
      · apply Le.bind Le.refl
        intro ch
        exact Le.ite (hnext _ _ _) (hnext _ _ _)
      · exact hnext _ _ _

theorem readstring_le {endch : Nat} {metachar : Nat → Option (List Nat)} (n : Nat) :
    Le .fuel (readstring endch metachar n) (readstring endch metachar (n + 1)) :=
  Le.bind Le.refl fun _ => stringLoop_le n _ _

theorem readregex_le (n : Nat) :
    Le .fuel (readregex n : ZM (Datum F)) (readregex (n + 1)) :=
  Le.bind (readstring_le n) fun _ => Le.refl

theorem zread_le (e : ZEnv F) (n : Nat) :
    (∀ eof, Le .fuel (zread e n eof) (zread e (n + 1) eof)) ∧
      (∀ eof top tail indot,
        Le .fuel (readlist e n eof top tail indot) (readlist e (n + 1) eof top tail indot)) ∧
      (∀ eof top, Le .fuel (readbrfn e n eof top) (readbrfn e (n + 1) eof top)) ∧
      (∀ eof, Le .fuel (readsexprcomment e n eof) (readsexprcomment e (n + 1) eof)) ∧
      (∀ eof qsym, Le .fuel (readquote e n eof qsym) (readquote e (n + 1) eof qsym)) ∧
      (∀ eof, Le .fuel (readcomma e n eof) (readcomma e (n + 1) eof)) := by
  induction n with
  | zero =>
    exact ⟨fun _ => Le.of_throw, fun _ _ _ _ => Le.of_throw, fun _ _ => Le.of_throw,
      fun _ => Le.of_throw, fun _ _ => Le.of_throw, fun _ => Le.of_throw⟩
  | succ n ih =>
    obtain ⟨hzread, hlist, hbrfn, hsexpr, hquote, hcomma⟩ := ih
    refine ⟨?_, ?_, ?_, ?_, ?_, ?_⟩
    · intro eof
      unfold zread
      apply Le.bind Le.refl
      rintro (_ | ch)
      · exact Le.refl
      dsimp only
      apply Le.ite (Le.bind Le.refl fun _ => Le.bind (hlist _ _ _ _) fun _ => Le.refl)
      apply Le.ite Le.refl
      apply Le.ite (Le.bind Le.refl fun _ => Le.bind (hbrfn _ _) fun _ => Le.refl)
      apply Le.ite (Le.bind Le.refl fun _ => Le.bind (hquote _ _) fun _ => Le.refl)
      apply Le.ite (Le.bind Le.refl fun _ => Le.bind (hquote _ _) fun _ => Le.refl)
      apply Le.ite (Le.bind (hcomma _) fun _ => Le.refl)
      apply Le.ite (Le.bind (readstring_le n) fun _ => Le.refl)
      apply Le.ite
      · apply Le.bind Le.refl
        intro _
        apply Le.bind Le.refl
        rintro (_ | ch)
        · exact Le.refl
        dsimp only
        apply Le.ite Le.refl
        apply Le.ite (Le.bind (readblockcomment_le n) fun _ => hzread _)
        apply Le.ite (Le.bind Le.refl fun _ => hzread _)
        apply Le.ite (Le.bind (hsexpr _) fun _ => hzread _)
        exact Le.ite (Le.bind (readregex_le n) fun _ => Le.refl) Le.refl
      · exact Le.ite (Le.bind Le.refl fun _ => hzread _) Le.refl
    · intro eof top tail indot
      unfold readlist
      apply Le.bind Le.refl
      intro _
      apply Le.bind Le.refl
      rintro (_ | ch)
      · exact Le.refl
      dsimp only
      apply Le.ite
      · exact Le.ite Le.refl (Le.bind Le.refl fun _ => hlist _ _ _ _)
      · apply Le.bind (hzread _)
        rintro (val | ch)
        · cases indot with
          | no => exact hlist _ _ _ _
          | sawDot => exact Le.ite Le.refl (hlist _ _ _ _)
          | sawTail => exact Le.refl
        · exact Le.refl
    · intro eof top
      unfold readbrfn
      apply Le.bind Le.refl
      intro _
      apply Le.bind Le.refl
      rintro (_ | ch)
      · exact Le.refl
      dsimp only
      apply Le.bind (hzread _)
      rintro (val | ch)
      · exact hbrfn _ _
      · exact Le.refl
    · intro eof
      exact Le.bind Le.refl fun _ => Le.bind (hzread _) fun _ => Le.refl
    · intro eof qsym
      exact Le.bind (hzread _) fun _ => Le.refl
    · intro eof
      unfold readcomma
      apply Le.bind Le.refl
      intro _
      apply Le.bind Le.refl
      intro ch
      exact Le.ite (Le.bind Le.refl fun _ => hquote _ _) (hquote _ _)

/-- What follows a block comment that is open `k + 1` times. -/
def blockEnd : Nat → List Nat → Option (List Nat)
  | k, r :: ch :: s =>
    if r = '|'.toNat ∧ ch = '#'.toNat then if k = 0 then some s else blockEnd (k - 1) s
    else if r = '#'.toNat ∧ ch = '|'.toNat then blockEnd (k + 1) s
    else blockEnd k (ch :: s)
  | _, [_] => none
  | _, [] => none

theorem blockLoop_nil (n k : Nat) : blockLoop n k [] = .error .fuel := by
  induction n with
  | zero => rfl
  | succ n ih => exact ih

theorem readc_cons (ch : Nat) : readc (ch :: s) = .ok (some ch, s) := rfl

theorem peekc_cons (ch : Nat) : peekc (ch :: s) = .ok (some ch, ch :: s) := rfl

theorem blockLoop_cons (n k r ch : Nat) (s : List Nat) : blockLoop (n + 1) k (r :: ch :: s) =
    if r = '|'.toNat ∧ ch = '#'.toNat then
      if k = 0 then .ok (s.head?, s) else blockLoop n (k - 1) s
    else if r = '#'.toNat ∧ ch = '|'.toNat then blockLoop n (k + 1) s
    else blockLoop n k (ch :: s) := by
  rw [blockLoop, bind_of_ok (readc_cons r), bind_of_ok (peekc_cons ch)]
  simp only [Option.some.injEq]
  split
  · rw [bind_of_ok (readc_cons ch)]
    split <;> rfl
  · split
    · rw [bind_of_ok (readc_cons ch)]
    · rfl

theorem blockLoop_of_none {k : Nat} (h : blockEnd k s = none) (n : Nat) :
    blockLoop n k s = .error .fuel := by
  induction n generalizing k s with
  | zero => rfl
  | succ n ih =>
    match s with
    | [] => exact blockLoop_nil (n + 1) k
    | [r] =>
      have hnil : blockLoop (n + 1) k [r] = blockLoop n k [] := by
        by_cases hr : r = '|'.toNat <;> simp [blockLoop, readc, peekc, bind, StateT.bind, Except.bind]
      exact hnil.trans (blockLoop_nil n k)
    | r :: ch :: s =>
      rw [blockLoop_cons]
      unfold blockEnd at h
      split_ifs at h ⊢
      · exact ih h
      · exact ih h
      · exact ih h

theorem blockLoop_of_some {k : Nat} (h : blockEnd k s = some t) :
    (∃ n, blockLoop n k s = .ok (t.head?, t)) ∧ t.length < s.length := by
  fun_induction blockEnd k s with
  | case1 r ch s hclose =>
    obtain rfl := Option.some.inj h
    exact ⟨⟨1, by rw [blockLoop_cons, if_pos hclose, if_pos rfl]⟩, by simp only [List.length_cons]; omega⟩
  | case2 k r ch s hclose hk ih =>
    obtain ⟨⟨n, hn⟩, hlt⟩ := ih h
    exact ⟨⟨n + 1, by rw [blockLoop_cons, if_pos hclose, if_neg hk, hn]⟩, by simp; omega⟩
  | case3 k r ch s hclose hopen ih =>
    obtain ⟨⟨n, hn⟩, hlt⟩ := ih h
    exact ⟨⟨n + 1, by rw [blockLoop_cons, if_neg hclose, if_pos hopen, hn]⟩, by simp; omega⟩
  | case4 k r ch s hclose hopen ih =>
    obtain ⟨⟨n, hn⟩, hlt⟩ := ih h
    refine ⟨⟨n + 1, by rw [blockLoop_cons, if_neg hclose, if_neg hopen, hn]⟩, ?_⟩
    simp only [List.length_cons] at hlt ⊢
    omega
  | case5 => cases h
  | case6 => cases h

/-- A computation that ends leaves no more than there was. -/
def Shrinks {α : Type} (x : ZM α) : Prop := ∀ s, Ensures x s fun _ t => t.length ≤ s.length

section Shrinks

variable {α β : Type} {x y : ZM α} {f : α → ZM β}

theorem Shrinks.pure (a : α) : Shrinks (pure a) := fun _ => Ensures.pure (Nat.le_refl _)

theorem Shrinks.throw (stop : ZStop) : Shrinks (throw stop : ZM α) := fun _ => Ensures.throw

theorem Shrinks.bind (hx : Shrinks x) (hf : ∀ a, Shrinks (f a)) : Shrinks (x >>= f) :=
  fun s => (hx s).bind fun a s' hle => (hf a s').mono fun _ _ h => Nat.le_trans h hle

theorem Shrinks.ite {c : Prop} [Decidable c] (hx : Shrinks x) (hy : Shrinks y) :
    Shrinks (if c then x else y) := by
  split
  · exact hx
  · exact hy

theorem shrinks_readc : Shrinks readc := by
  intro s a t h
  cases h
  simp

theorem shrinks_peekc : Shrinks peekc := by
  intro s a t h
  cases h
  exact Nat.le_refl _

theorem shrinks_ofOption (a : Option α) : Shrinks (ofOption a) := by
  cases a with
  | none => exact .throw _
  | some a => exact .pure a

end Shrinks

/-- A bound for the loop of `readstring`: three rounds for each character. -/
def ZState.rank : ZState → Nat
  | .done => 0
  | .normal => 1
  | .escape => 3
  | .octal .. => 2
  | .hex .. => 2
  | .unicode _ => 3

variable {endch : Nat} {metachar : Nat → Option (List Nat)}

theorem ofOption_enough {α : Type} (a : Option α) (s : List Nat) : Enough .fuel (ofOption a) s := by
  cases a with
  | none =>
    apply Enough.throw
    simp
  | some a => exact .pure a s

theorem stringLoop_enough {n : Nat} {state : ZState} (buf : List Nat)
    (hn : 3 * s.length + state.rank < n) :
    Enough .fuel (stringLoop endch metachar n state buf) s := by
  induction n generalizing state buf s with
  | zero => omega
  | succ n ih =>
    have hstay : ∀ {α : Type} (a : Option α) (buf : α → List Nat) {state' : ZState},
        state'.rank < state.rank →
        Enough .fuel (ofOption a >>= fun r => stringLoop endch metachar n state' (buf r)) s := by
      intro α a buf state' hlt
      apply Enough.bind (ofOption_enough a s)
      intro r t hr
      cases a with
      | none => cases hr
      | some a =>
        cases hr
        exact ih _ (by omega)
    have hnext : ∀ {ch : Nat} (buf : List Nat) {state' : ZState}, s.head? = some ch →
        state'.rank < state.rank + 3 →
        Enough .fuel (readc >>= fun _ => stringLoop endch metachar n state' buf) s := by
      intro ch buf state' hch hlt
      obtain ⟨s, rfl⟩ : ∃ s', s = ch :: s' := ⟨s.tail, (List.cons_head?_tail hch).symm⟩
      apply Enough.bind (.of_ok (readc_cons ch))
      intro r t hr
      cases hr
      exact ih _ (by simp only [List.length_cons, List.tail_cons] at hn ⊢; omega)
    rw [stringLoop]
    apply Enough.bind (.of_ok (show peekc s = .ok (s.head?, s) from rfl))
    intro ch t ht
    cases ht
    cases state with
    | normal =>
      apply Enough.ite
      · exact fun hch => hnext _ hch (by simp [ZState.rank])
      · intro _
        apply Enough.ite
        · exact fun hch => hnext _ hch (by simp [ZState.rank])
        · intro _
          cases s with
          | nil =>
            intro he
            cases he
          | cons r s => exact hnext _ (show (r :: s).head? = some r from rfl) (by simp [ZState.rank])
    | done => exact .pure _ _
    | escape =>
      cases hs : s.head? with
      | none =>
        intro he
        cases he
      | some ch =>
        apply Enough.ite
        · exact fun _ => hnext _ hs (by simp [ZState.rank])
        intro _
        cases escapes.lookup ch with
        | some r => exact hnext _ hs (by simp [ZState.rank])
        | none =>
          apply Enough.ite
          · exact fun _ => hnext _ hs (by simp [ZState.rank])
          intro _
          apply Enough.ite
          · exact fun _ => hnext _ hs (by simp [ZState.rank])
          intro _
          cases metachar ch with
          | some written => exact hnext _ hs (by simp [ZState.rank])
          | none =>
            apply Enough.ite
            · exact fun _ => ih _ (by simp [ZState.rank] at hn ⊢; omega)
            · intro _
              apply Enough.throw
              simp
    | octal value ndigits =>
      cases hs : s.head? with
      | none =>
        intro he
        cases he
      | some ch =>
        apply Enough.ite
        · exact fun _ => hnext _ hs (by simp [ZState.rank])
        · exact fun _ => hstay _ _ (by simp [ZState.rank])
    | unicode max =>
      cases hs : s.head? with
      | none =>
        intro he
        cases he
      | some ch =>
        apply Enough.ite
        · exact fun _ => ih _ (by simp [ZState.rank] at hn ⊢; omega)
        · intro _
          apply Enough.throw
          simp
    | hex value ndigits max =>
      apply Enough.ite
      · intro _
        cases hs : s.head? with
        | none =>
          intro he
          cases he
        | some ch =>
          apply Enough.ite
          · exact fun _ => hnext _ hs (by simp [ZState.rank])
          · exact fun _ => hstay _ _ (by simp [ZState.rank])
      · exact fun _ => hstay _ _ (by simp [ZState.rank])

theorem stringLoop_shrinks (n : Nat) (state : ZState) (buf : List Nat) :
    Shrinks (stringLoop endch metachar n state buf) := by
  induction n generalizing state buf with
  | zero => exact .throw _
  | succ n ih =>
    have hnext : ∀ {α : Type} {x : ZM α} (state : ZState) (buf : α → List Nat), Shrinks x →
        Shrinks (x >>= fun a => stringLoop endch metachar n state (buf a)) :=
      fun state buf hx => hx.bind fun a => ih state (buf a)
    rw [stringLoop]
    apply shrinks_peekc.bind
    intro ch
    cases state with
    | normal =>
      apply Shrinks.ite (hnext _ _ shrinks_readc)
      apply Shrinks.ite (hnext _ _ shrinks_readc)
      exact shrinks_readc.bind fun r => hnext _ _ (shrinks_ofOption r)
    | done => exact .pure _
    | escape =>
      apply (shrinks_ofOption ch).bind
      intro ch
      apply Shrinks.ite (hnext _ _ shrinks_readc)
      cases escapes.lookup ch with
      | some r => exact hnext _ _ shrinks_readc
      | none =>
        apply Shrinks.ite (hnext _ _ shrinks_readc)
        apply Shrinks.ite (hnext _ _ shrinks_readc)
        cases metachar ch with
        | some written => exact hnext _ _ shrinks_readc
        | none => exact Shrinks.ite (ih _ _) (.throw _)
    | octal value ndigits =>
      apply (shrinks_ofOption ch).bind
      intro ch
      exact Shrinks.ite (hnext _ _ shrinks_readc) (hnext _ _ (shrinks_ofOption _))
    | unicode max =>
      apply (shrinks_ofOption ch).bind
      intro ch
      exact Shrinks.ite (ih _ _) (.throw _)
    | hex value ndigits max =>
      apply Shrinks.ite
      · apply (shrinks_ofOption ch).bind
        intro ch
        exact Shrinks.ite (hnext _ _ shrinks_readc) (hnext _ _ (shrinks_ofOption _))
      · exact hnext _ _ (shrinks_ofOption _)

theorem getsymbol_shrinks (buf : List Nat) : Shrinks (getsymbol buf) := by
  intro s
  induction s generalizing buf with
  | nil => exact Ensures.pure (Nat.le_refl _)
  | cons ch s ih =>
    intro sym t h
    change getsymbol buf (ch :: s) = _ at h
    rw [getsymbol] at h
    split at h
    · exact Nat.le_succ_of_le (ih _ sym t h)
    · cases h
      exact Nat.le_refl _

theorem readsym_shrinks (pre : List Nat) : Shrinks (readsym e pre) := by
  apply (getsymbol_shrinks []).bind
  intro sym
  apply (shrinks_ofOption _).bind
  rintro (_ | num)
  · exact .pure _
  · exact .pure _

theorem readcomment_shrinks : Shrinks readcomment := by
  intro s
  induction s with
  | nil => exact Ensures.pure (Nat.le_refl _)
  | cons r s ih =>
    intro sym t h
    change readcomment (r :: s) = _ at h
    rw [readcomment] at h
    split at h
    · cases h
      simp
    · exact Nat.le_succ_of_le (ih sym t h)

theorem shrinks_numToChar (num : Option (Number F)) : Shrinks (match num with
    | some num => (ofOption (e.numToChar num) >>= fun r => pure (.char r))
    | none => throw .rejected : ZM (Datum F)) := by
  cases num with
  | none => exact .throw _
  | some num => exact (shrinks_ofOption _).bind fun r => .pure _

theorem readchar_shrinks : Shrinks (readchar e) := by
  apply shrinks_readc.bind
  intro _
  apply (getsymbol_shrinks []).bind
  intro sym
  cases charTable.lookup sym with
  | some r => exact .pure _
  | none =>
    apply (shrinks_ofOption _).bind
    rintro (_ | num)
    · apply (shrinks_ofOption _).bind
      intro first
      exact Shrinks.ite ((shrinks_ofOption _).bind shrinks_numToChar)
        ((Shrinks.pure _).bind shrinks_numToChar)
    · exact shrinks_numToChar (some num)

theorem regexFlags_shrinks (iflag mflag : Bool) : Shrinks (regexFlags iflag mflag) := by
  intro s
  induction s generalizing iflag mflag with
  | nil => exact Ensures.pure (Nat.le_refl _)
  | cons ch s ih =>
    intro flags t h
    change regexFlags iflag mflag (ch :: s) = _ at h
    rw [regexFlags] at h
    split_ifs at h
    · exact Nat.le_succ_of_le (ih _ _ flags t h)
    · exact Nat.le_succ_of_le (ih _ _ flags t h)
    · cases h
      exact Nat.le_refl _

theorem readregex_shrinks (n : Nat) : Shrinks (readregex n : ZM (Datum F)) := by
  apply (shrinks_readc.bind fun _ => stringLoop_shrinks n _ _).bind
  intro rx
  exact (regexFlags_shrinks false false).bind fun _ => .pure _

theorem getsymbol_enough (buf s : List Nat) : Enough .fuel (getsymbol buf) s := by
  induction s generalizing buf with
  | nil =>
    intro he
    cases he
  | cons ch s ih =>
    rw [Enough, getsymbol]
    split
    · exact ih _
    · intro he
      cases he

theorem readsym_enough (pre s : List Nat) : Enough .fuel (readsym e pre) s := by
  apply (getsymbol_enough [] s).bind
  intro sym t _
  apply (ofOption_enough _ t).bind
  rintro (_ | num) t _
  · exact .pure _ t
  · exact .pure _ t

theorem readcomment_ok (s : List Nat) : ∃ r t, readcomment s = .ok (r, t) := by
  induction s with
  | nil => exact ⟨none, [], rfl⟩
  | cons r s ih =>
    rw [readcomment]
    split
    · exact ⟨some r, s, rfl⟩
    · exact ih

theorem enough_numToChar (num : Option (Number F)) (t : List Nat) : Enough .fuel (match num with
    | some num => (ofOption (e.numToChar num) >>= fun r => pure (.char r))
    | none => throw .rejected : ZM (Datum F)) t := by
  cases num with
  | none => exact Enough.throw (by simp) t
  | some num => exact (ofOption_enough _ t).bind fun r t _ => .pure _ t

theorem readchar_enough (s : List Nat) : Enough .fuel (readchar e) s := by
  apply Enough.bind (.of_ok (show readc s = .ok (s.head?, s.tail) from rfl))
  intro _ s _
  apply (getsymbol_enough [] s).bind
  intro sym t _
  cases charTable.lookup sym with
  | some r => exact .pure _ t
  | none =>
    apply (ofOption_enough _ t).bind
    rintro (_ | num) t _
    · apply (ofOption_enough _ t).bind
      intro first t _
      apply Enough.ite
      · exact fun _ => (ofOption_enough _ t).bind fun num t _ => enough_numToChar num t
      · exact fun _ => enough_numToChar (e := e) none t
    · exact enough_numToChar (some num) t

theorem regexFlags_enough (iflag mflag : Bool) (s : List Nat) :
    Enough .fuel (regexFlags iflag mflag) s := by
  induction s generalizing iflag mflag with
  | nil =>
    intro he
    cases he
  | cons ch s ih =>
    rw [Enough, regexFlags]
    split_ifs
    · simp
    · exact ih _ _
    · simp
    · exact ih _ _
    · intro he
      cases he

theorem readstring_enough (hn : 3 * s.length + 1 < n) :
    Enough .fuel (readstring endch metachar n) s := by
  apply Enough.bind (.of_ok (show readc s = .ok (s.head?, s.tail) from rfl))
  intro _ t ht
  cases ht
  apply stringLoop_enough
  simp only [List.length_tail, ZState.rank]
  omega

theorem readregex_enough (hn : 3 * s.length + 1 < n) :
    Enough .fuel (readregex n : ZM (Datum F)) s := by
  apply (readstring_enough hn).bind
  intro rx t _
  apply (regexFlags_enough false false t).bind
  intro flags t _
  exact .pure _ t

end Arcueid.Zread
