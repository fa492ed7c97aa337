import Arcueid.Lib.Outcome
import Arcueid.Reader

/-! `read_string` on a string port, as a function of the text alone. -/

namespace Arcueid.Reader

open Outcome

/-- What `read_string` makes of a text, and what it leaves of it. -/
def decode : StrState → List Nat → Option (List Nat × List Nat)
  | _, [] => none
  | .normal, c :: cs =>
    if c = '"'.toNat then some ([], cs)
    else if c = '\\'.toNat then decode .escape cs
    else (decode .normal cs).map (Prod.map (c :: ·) id)
  | .escape, c :: cs =>
    if c = 'U'.toNat ∨ c = 'u'.toNat then decode (.unicode 0 0) cs
    else match escapeCode c with
      | some r => (decode .normal cs).map (Prod.map (r :: ·) id)
      | none => none
  | .unicode escrune digcount, c :: cs =>
    match hexDigit c with
    | none => none
    | some d =>
      -- the rune after the fifth digit is read and pushed back
      if digcount ≥ 4 then (decode .normal cs).map (Prod.map ((escrune * 16 + d) :: ·) id)
      else decode (.unicode (escrune * 16 + d) (digcount + 1)) cs

/-- Fewer than five digits were read. -/
def StrState.Open : StrState → Prop
  | .unicode _ digcount => digcount < 5
  | _ => True

variable {n : Nat} {st : StrState} {buf out : List Nat} {c : Nat} {cs rest : List Nat} {p p' : Port}

theorem readString_nil (h : At p []) :
    readString (n + 1) st buf p = .error (.error "unexpected end of source") := by
  rw [readString, bind_of_error h.readc1_nil]

theorem readString_normal (h : At p (c :: cs)) :
    readString (n + 1) .normal buf p =
      (if c = '"'.toNat then pure buf
        else if c = '\\'.toNat then readString n .escape buf
        else readString n .normal (buf ++ [c])) (instring cs) := by
  rw [readString, bind_of_ok h.readc1_cons]

theorem readString_escape (h : At p (c :: cs)) :
    readString (n + 1) .escape buf p =
      (if c = 'U'.toNat ∨ c = 'u'.toNat then readString n (.unicode 0 0) buf
        else match escapeCode c with
          | some r => readString n .normal (buf ++ [r])
          | none => throw (Stop.error "unknown escape code")) (instring cs) := by
  rw [readString]
  exact (bind_of_ok h.readc1_cons).trans rfl

theorem readString_unicode {escrune digcount : Nat} (h : At p (c :: cs)) (hd : digcount < 5) :
    readString (n + 1) (.unicode escrune digcount) buf p =
      (match hexDigit c with
        | some digval => readString n (.unicode (escrune * 16 + digval) (digcount + 1)) buf
        | none => throw (Stop.error "invalid character in Unicode escape")) (instring cs) := by
  rw [readString]
  exact (bind_of_ok h.readc1_cons).trans (congrFun (if_neg (Nat.not_le.mpr hd)) _)

theorem readString_unicode_full {escrune digcount : Nat} (h : At p (c :: cs)) (hd : 5 ≤ digcount) :
    readString (n + 1) (.unicode escrune digcount) buf p =
      readString n .normal (buf ++ [escrune]) (arcUngetcRune c (instring cs)) := by
  rw [readString, bind_of_ok h.readc1_cons]
  simp only [ge_iff_le, hd, if_true]
  rw [bind_of_ok ungetc_instring]

/-- `decode` is what `read_string` computes, when it returns. -/
theorem decode_of_readString (hp : At p cs) (hst : st.Open)
    (h : Yields (readString n st buf) p out p') :
    ∃ out' rest, out = buf ++ out' ∧ p' = instring rest ∧ decode st cs = some (out', rest) := by
  induction n using Nat.strong_induction_on generalizing st buf p cs with
  | _ n ih =>
    cases n with
    | zero => exact absurd h not_yields_throw
    | succ n =>
      rw [Yields] at h
      cases cs with
      | nil =>
        rw [readString_nil hp] at h
        simp at h
      | cons c cs =>
        have hcs := At.clean cs
        cases st with
        | normal =>
          rw [readString_normal hp] at h
          simp only [decode]
          split_ifs at h ⊢
          · obtain ⟨rfl, rfl⟩ := yields_pure_iff.mp h
            exact ⟨[], cs, by simp, rfl, rfl⟩
          · exact ih n (by omega) hcs (by trivial) h
          · obtain ⟨out', rest, rfl, rfl, hd⟩ := ih n (by omega) hcs (by trivial) h
            exact ⟨c :: out', rest, by simp, rfl, by simp [hd]⟩
        | escape =>
          rw [readString_escape hp] at h
          simp only [decode]
          split_ifs at h ⊢
          · exact ih n (by omega) hcs (show 0 < 5 by omega) h
          · cases he : escapeCode c with
            | none =>
              rw [he] at h
              exact absurd h not_yields_throw
            | some r =>
              rw [he] at h
              obtain ⟨out', rest, rfl, rfl, hd⟩ := ih n (by omega) hcs (by trivial) h
              exact ⟨r :: out', rest, by simp, rfl, by simp [hd]⟩
        | unicode escrune digcount =>
          rw [readString_unicode hp hst] at h
          simp only [decode]
          cases hx : hexDigit c with
          | none =>
            rw [hx] at h
            exact absurd h not_yields_throw
          | some d =>
            rw [hx] at h
            simp only
            split_ifs with hk
            · -- the fifth digit: the next round only pushes back
              cases n with
              | zero => exact absurd h not_yields_throw
              | succ n =>
                cases cs with
                | nil =>
                  change readString (n + 1) _ buf (instring []) = _ at h
                  rw [readString_nil hcs] at h
                  simp at h
                | cons c' cs =>
                  change readString (n + 1) _ buf (instring (c' :: cs)) = _ at h
                  rw [readString_unicode_full hcs (by omega)] at h
                  obtain ⟨out', rest, rfl, rfl, hd⟩ := ih n (by omega) (.pushed c' cs) (by trivial) h
                  exact ⟨(escrune * 16 + d) :: out', rest, by simp, rfl, by simp [hd]⟩
            · exact ih n (by omega) hcs (show digcount + 1 < 5 by omega) h

/-- `read_string` computes what `decode` gives, with rounds enough. -/
theorem readString_of_decode (hp : At p cs) (h : decode st cs = some (out, rest))
    (hst : st.Open) (hn : 2 * cs.length ≤ n) :
    Yields (readString n st buf) p (buf ++ out) (instring rest) := by
  induction cs generalizing st buf p n out with
  | nil => simp [decode] at h
  | cons c cs ih =>
    obtain ⟨n, rfl⟩ := Nat.exists_eq_add_of_lt (show 1 < n by simp at hn; omega)
    have hlen : 2 * cs.length ≤ n + 1 := by simp at hn; omega
    rw [Yields, show 1 + n + 1 = (n + 1) + 1 by omega]
    have hcs := At.clean cs
    cases st with
    | normal =>
      rw [readString_normal hp]
      simp only [decode] at h
      split_ifs at h ⊢
      · simp only [Option.some.injEq, Prod.mk.injEq] at h
        simp [← h.1, ← h.2, pure_apply]
      · exact ih hcs h trivial hlen
      · obtain ⟨⟨out', rest'⟩, hd, he⟩ := Option.map_eq_some_iff.mp h
        simp only [Prod.map_apply, id_eq, Prod.mk.injEq] at he
        obtain ⟨rfl, rfl⟩ := he
        have hrun : Yields (readString (n + 1) .normal (buf ++ [c])) (instring cs)
            (buf ++ [c] ++ out') (instring rest') := ih hcs hd trivial hlen
        simpa [Yields] using hrun
    | escape =>
      rw [readString_escape hp]
      simp only [decode] at h
      split_ifs at h ⊢
      · exact ih hcs h (show 0 < 5 by omega) hlen
      · cases he : escapeCode c with
        | none => simp [he] at h
        | some r =>
          rw [he] at h
          obtain ⟨⟨out', rest'⟩, hd, he⟩ := Option.map_eq_some_iff.mp h
          simp only [Prod.map_apply, id_eq, Prod.mk.injEq] at he
          obtain ⟨rfl, rfl⟩ := he
          have hrun : Yields (readString (n + 1) .normal (buf ++ [r])) (instring cs)
            (buf ++ [r] ++ out') (instring rest') := ih hcs hd trivial hlen
          simpa [Yields] using hrun
    | unicode escrune digcount =>
      rw [readString_unicode hp hst]
      simp only [decode] at h
      cases hx : hexDigit c with
      | none => simp [hx] at h
      | some d =>
        rw [hx] at h
        simp only at h ⊢
        split_ifs at h with hk
        · obtain ⟨⟨out', rest'⟩, hd, he⟩ := Option.map_eq_some_iff.mp h
          simp only [Prod.map_apply, id_eq, Prod.mk.injEq] at he
          obtain ⟨rfl, rfl⟩ := he
          cases cs with
          | nil => simp [decode] at hd
          | cons c' cs =>
            rw [readString_unicode_full hcs (by omega)]
            have hrun : Yields (readString n .normal (buf ++ [escrune * 16 + d]))
                (arcUngetcRune c' (instring cs)) (buf ++ [escrune * 16 + d] ++ out')
                (instring rest') :=
              ih (.pushed c' cs) hd trivial (by simp at hn ⊢; omega)
            simpa [Yields] using hrun
        · exact ih hcs h (show digcount + 1 < 5 by omega) hlen

end Arcueid.Reader
