import Mathlib.Tactic.IntervalCases
import Arcueid.StringRead
import Arcueid.SymbolRead

/-! `string_pprint`, and reading back what it writes. -/

namespace Arcueid.Reader

open Outcome Utf

variable {F : Type}

/-- The table `escape_lookup`. A comma is missing after entry 15, so those
after it are one place early and the last pointer is null. -/
def escapeLookup : List (List Nat) :=
  [runes "\\u0000", runes "\\u0001", runes "\\u0002", runes "\\u0003", runes "\\u0004",
   runes "\\u0005", runes "\\u0006", runes "\\a", runes "\\b", runes "\\t", runes "\\n",
   runes "\\v", runes "\\f", runes "\\r", runes "\\u000E", runes ("\\u000F" ++ "\\u0010"),
   runes "\\u0011", runes "\\u0012", runes "\\u0013", runes "\\u0014", runes "\\u0015",
   runes "\\u0016", runes "\\u0017", runes "\\u0018", runes "\\u0019", runes "\\u001A",
   runes "\\e", runes "\\u001C", runes "\\u001D", runes "\\u001E", runes "\\u001F"]

/-- `arc_strindex`, which lets an index past the last rune through: it gives
the word `past` that follows the string in memory. -/
def strindex (s : List Nat) (past index : Nat) : Nat :=
  if index > s.length then Runeerror else (s ++ [past]).getD index 0

/-- Copies a table string from `j` on, `n` rounds at most. -/
def copyEscape : Nat → List Nat → Nat → Nat → Except Stop (List Nat)
  | 0, _, _, _ => throw .fuel
  | n + 1, os, past, j =>
    if strindex os past j ≠ 0 then do
      let text ← copyEscape n os past (j + 1)
      pure (strindex os past j :: text)
    else pure []

/-- One rune in the loop of `string_pprint`. -/
def pprintRune (n past : Nat) (disp : Bool) (ch : Nat) : Except Stop (List Nat) :=
  if ch < 32 ∧ disp = false then
    match escapeLookup[ch]? with
    | some os => copyEscape n os past 0
    | none => throw .undefined
  else pure [ch]

/-- The loop of `string_pprint` from index `i` on. `past i` is the word after
the table string made there. -/
def pprintRunes (n : Nat) (past : Nat → Nat) (disp : Bool) : Nat → List Nat → Except Stop (List Nat)
  | _, [] => pure []
  | i, ch :: s => do
    let text ← pprintRune n (past i) disp ch
    let texts ← pprintRunes n past disp (i + 1) s
    pure (text ++ texts)

def stringPprint (n : Nat) (past : Nat → Nat) (disp : Bool) (s : List Nat) :
    Except Stop (List Nat) := do
  let text ← pprintRunes n past disp 0 s
  pure (if disp then text else '"'.toNat :: text ++ ['"'.toNat])

section Writer

variable {n i past : Nat} {os s t : List Nat}

theorem strindex_of_le {j : Nat} (hj : j ≤ os.length) :
    strindex os past j = (os ++ [past]).getD j 0 := if_neg (Nat.not_lt.mpr hj)

/-- When the word after the string is zero, it ends the copy. -/
theorem copyEscape_zero (hos : 0 ∉ os) {j : Nat} (hj : j ≤ os.length) :
    copyEscape n os 0 j = if os.length < n + j then .ok (os.drop j) else .error .fuel := by
  induction n generalizing j with
  | zero => rw [if_neg (by omega), copyEscape]; rfl
  | succ n ih =>
    rw [copyEscape, strindex_of_le hj]
    rcases hj.lt_or_eq with hlt | rfl
    · have hget : (os ++ [0]).getD j 0 = os[j] := by
        simp [List.getD, List.getElem?_append_left hlt, hlt]
      have hne : os[j] ≠ 0 := fun h => hos (h ▸ List.getElem_mem hlt)
      rw [hget, if_pos hne, ih (by omega), List.drop_eq_getElem_cons hlt]
      have hiff : os.length < n + (j + 1) ↔ os.length < n + 1 + j := by omega
      simp only [hiff]
      split_ifs <;> rfl
    · have hlast : (os ++ [0]).getD os.length 0 = 0 := by simp
      rw [hlast, if_neg (by simp), if_pos (by omega), List.drop_length]
      rfl

/-- When the word after the string is not zero, the copy never ends. -/
theorem copyEscape_ne (hos : 0 ∉ os) (hpast : past ≠ 0) (j : Nat) :
    copyEscape n os past j = .error .fuel := by
  induction n generalizing j with
  | zero => rfl
  | succ n ih =>
    have hne : strindex os past j ≠ 0 := by
      rw [strindex]
      split_ifs with hj
      · decide
      · -- the runes of the string and the word after it
        have hlt : j < (os ++ [past]).length := by simp; omega
        have hmem : (os ++ [past]).getD j 0 ∈ os ++ [past] := by
          simp [List.getD, List.getElem?_eq_getElem hlt]
        intro h0
        rw [h0] at hmem
        simp [hos, hpast.symm] at hmem
    rw [copyEscape, if_pos hne, ih]
    rfl

/-- What `string_pprint` writes for a rune. -/
def charText (ch : Nat) : List Nat := if ch < 32 then (escapeLookup[ch]?).getD [] else [ch]

/-- The writing of a rune ends. -/
def Printable (past ch : Nat) : Prop := ch < 32 → ch ≠ 31 ∧ past = 0

theorem escapeLookup_getElem? {ch : Nat} (h : ch < 32) :
    (ch = 31 ∧ escapeLookup[ch]? = none) ∨
      (ch ≠ 31 ∧ ∃ os, escapeLookup[ch]? = some os ∧ 0 ∉ os ∧ os.length ≤ 12) := by
  interval_cases ch <;> first
    | exact .inl ⟨rfl, rfl⟩
    | exact .inr ⟨by decide, _, rfl, by decide, by decide⟩

theorem pprintRune_ok {ch : Nat} (h : pprintRune n past false ch = .ok t) :
    t = charText ch ∧ Printable past ch := by
  rw [pprintRune] at h
  by_cases hch : ch < 32
  · rw [if_pos ⟨hch, rfl⟩] at h
    rcases escapeLookup_getElem? hch with ⟨-, hnone⟩ | ⟨h31, os, hos, h0, -⟩
    · rw [hnone] at h
      cases h
    · rw [hos] at h
      change copyEscape n os past 0 = _ at h
      have hpast : past = 0 := by
        by_contra hne
        rw [copyEscape_ne h0 hne 0] at h
        cases h
      subst hpast
      rw [copyEscape_zero h0 (Nat.zero_le _)] at h
      split_ifs at h
      cases h
      exact ⟨by simp [charText, hch, hos], fun _ => ⟨h31, rfl⟩⟩
  · rw [if_neg (by simp [hch])] at h
    cases h
    exact ⟨by simp [charText, hch], fun hlt => absurd hlt hch⟩

theorem pprintRune_of_printable {ch : Nat} (hn : 12 < n) (h : Printable past ch) :
    pprintRune n past false ch = .ok (charText ch) := by
  rw [pprintRune, charText]
  by_cases hch : ch < 32
  · rw [if_pos ⟨hch, rfl⟩, if_pos hch]
    obtain ⟨h31, rfl⟩ := h hch
    rcases escapeLookup_getElem? hch with ⟨rfl, -⟩ | ⟨-, os, hos, h0, hlen⟩
    · exact absurd rfl h31
    · rw [hos]
      change copyEscape n os 0 0 = _
      rw [copyEscape_zero h0 (Nat.zero_le _), if_pos (by omega)]
      rfl
  · rw [if_neg (by simp [hch]), if_neg hch]
    rfl

theorem pprintRunes_ok {past : Nat → Nat} (h : pprintRunes n past false i s = .ok t) :
    t = s.flatMap charText ∧ ∀ k ch, s[k]? = some ch → Printable (past (i + k)) ch := by
  induction s generalizing i t with
  | nil =>
    cases h
    simp
  | cons ch s ih =>
    rw [pprintRunes] at h
    cases hr : pprintRune n (past i) false ch with
    | error e =>
      rw [hr] at h
      cases h
    | ok text =>
      cases hs : pprintRunes n past false (i + 1) s with
      | error e =>
        rw [hr] at h
        simp only [bind, Except.bind, hs] at h
        cases h
      | ok texts =>
        rw [hr] at h
        simp only [bind, Except.bind, hs] at h
        cases h
        obtain ⟨rfl, hch⟩ := pprintRune_ok hr
        obtain ⟨rfl, hrest⟩ := ih hs
        refine ⟨rfl, fun k c hk => ?_⟩
        cases k with
        | zero =>
          cases hk
          exact hch
        | succ k =>
          rw [← Nat.add_assoc, Nat.add_right_comm]
          exact hrest k c hk

theorem pprintRunes_of_printable {past : Nat → Nat} (hn : 12 < n)
    (h : ∀ k ch, s[k]? = some ch → Printable (past (i + k)) ch) :
    pprintRunes n past false i s = .ok (s.flatMap charText) := by
  induction s generalizing i with
  | nil => rfl
  | cons ch s ih =>
    have hrest := ih (i := i + 1) fun k c hk => by
      have hk' := h (k + 1) c hk
      rwa [← Nat.add_assoc, Nat.add_right_comm] at hk'
    have hch : Printable (past i) ch := h 0 ch rfl
    rw [pprintRunes, pprintRune_of_printable hn hch, hrest]
    rfl

end Writer

section Reading

variable {m w rest : List Nat} {st : StrState} {c : Nat}

/-- A rune that is read back as itself from what is written for it. -/
def Plain (ch : Nat) : Prop :=
  ch ≠ '"'.toNat ∧ ch ≠ '\\'.toNat ∧ (32 ≤ ch ∨ 7 ≤ ch ∧ ch ≤ 13)

/-- A rune that stands for itself in a string literal. -/
def Raw (x : Nat) : Prop := 32 ≤ x ∧ x ≠ '"'.toNat ∧ x ≠ '\\'.toNat

/-- The text of a string literal after its opening quote. -/
def literalText (w : List Nat) : List Nat := w.flatMap charText ++ ['"'.toNat]

theorem literalText_cons (c : Nat) (w : List Nat) :
    literalText (c :: w) = charText c ++ literalText w := by
  simp [literalText]

theorem charText_of_le (h : 32 ≤ c) : charText c = [c] := if_neg (by omega)

theorem decode_plain (h : Plain c) (t : List Nat) :
    decode .normal (charText c ++ t) = (decode .normal t).map (Prod.map (c :: ·) id) := by
  obtain ⟨hq, hb, hc | ⟨h7, h13⟩⟩ := h
  · rw [charText_of_le hc, List.singleton_append, decode, if_neg hq, if_neg hb]
  · interval_cases c <;> rfl

/-- How the text of a control character starts: with an escape of one letter
or with one of four digits, or there is no text. -/
theorem charText_control (h : c < 32) :
    (c = 31 ∧ charText c = []) ∨
      (∃ x, charText c = ['\\'.toNat, x] ∧ Raw x ∧ x ≠ 'u'.toNat ∧ x ≠ 'U'.toNat ∧
        (escapeCode x = some c ∧ 7 ≤ c ∧ c ≤ 13 ∨ escapeCode x = none)) ∨
      ∃ d₁ d₂ d₃ d₄, (charText c = ['\\'.toNat, 'u'.toNat, d₁, d₂, d₃, d₄] ∨
        charText c = ['\\'.toNat, 'u'.toNat, d₁, d₂, d₃, d₄] ++ runes "\\u0010") ∧
        (hexDigit d₁).isSome ∧ (hexDigit d₂).isSome ∧ (hexDigit d₃).isSome ∧ (hexDigit d₄).isSome := by
  interval_cases c <;> first
    | exact .inl ⟨rfl, rfl⟩
    | exact .inr (.inl ⟨_, rfl, ⟨by decide, by decide, by decide⟩, by decide, by decide, by decide⟩)
    | exact .inr (.inr ⟨_, _, _, _, .inl rfl, by decide, by decide, by decide, by decide⟩)
    | exact .inr (.inr ⟨_, _, _, _, .inr rfl, by decide, by decide, by decide, by decide⟩)

theorem map_cons_eq_some {o : Option (List Nat × List Nat)} {x : Nat} {l : List Nat} :
    o.map (Prod.map (x :: ·) id) = some (l, rest) ↔ ∃ l', l = x :: l' ∧ o = some (l', rest) := by
  constructor
  · intro h
    obtain ⟨⟨l', r⟩, rfl, he⟩ := Option.map_eq_some_iff.mp h
    simp only [Prod.map_apply, id_eq, Prod.mk.injEq] at he
    exact ⟨l', he.1.symm, by rw [he.2]⟩
  · rintro ⟨l', rfl, rfl⟩
    rfl

theorem raw_of_hexDigit {d : Nat} (h : (hexDigit d).isSome) : Raw d := by
  have hmax : d ≤ 'f'.toNat := by
    by_contra hd
    simp only [hexDigit] at h
    split_ifs at h <;> simp_all <;> omega
  have hmin : '0'.toNat ≤ d := by
    by_contra hd
    simp only [hexDigit] at h
    split_ifs at h <;> simp_all <;> omega
  have hb : d ≠ '\\'.toNat := by
    rintro rfl
    revert h
    decide
  have h0 : '0'.toNat = 48 := rfl
  have hq : '"'.toNat = 34 := rfl
  exact ⟨by omega, by omega, hb⟩

/-- Past runes read as themselves, the text of a control character goes on. -/
theorem decode_raw {xs t : List Nat} (hxs : ∀ x ∈ xs, Raw x) (hc : c < 32)
    (h : decode .normal (xs ++ t) = some (m ++ c :: w, rest)) :
    ∃ m', decode .normal t = some (m' ++ c :: w, rest) := by
  induction xs generalizing m with
  | nil => exact ⟨m, h⟩
  | cons x xs ih =>
    obtain ⟨hx, hq, hb⟩ := hxs x (by simp)
    rw [List.cons_append, decode, if_neg hq, if_neg hb, map_cons_eq_some] at h
    obtain ⟨l', hl, hd⟩ := h
    cases m with
    | nil =>
      have : c = x := (List.cons.inj hl).1
      omega
    | cons y m =>
      obtain rfl : m ++ c :: w = l' := (List.cons.inj hl).2
      exact ih (fun x hx => hxs x (by simp [hx])) hd

theorem decode_four {d₁ d₂ d₃ d₄ : Nat} (h₁ : (hexDigit d₁).isSome) (h₂ : (hexDigit d₂).isSome)
    (h₃ : (hexDigit d₃).isSome) (h₄ : (hexDigit d₄).isSome) (t : List Nat) :
    ∃ v, decode .normal ('\\'.toNat :: 'u'.toNat :: d₁ :: d₂ :: d₃ :: d₄ :: t) =
      decode (.unicode v 4) t := by
  obtain ⟨v₁, h₁⟩ := Option.isSome_iff_exists.mp h₁
  obtain ⟨v₂, h₂⟩ := Option.isSome_iff_exists.mp h₂
  obtain ⟨v₃, h₃⟩ := Option.isSome_iff_exists.mp h₃
  obtain ⟨v₄, h₄⟩ := Option.isSome_iff_exists.mp h₄
  refine ⟨(((0 * 16 + v₁) * 16 + v₂) * 16 + v₃) * 16 + v₄, ?_⟩
  simp [decode, h₁, h₂, h₃, h₄]

theorem decode_unicode_backslash {v k : Nat} (t : List Nat) :
    decode (.unicode v k) ('\\'.toNat :: t) = none := by
  rw [decode, show hexDigit '\\'.toNat = none from rfl]

theorem decode_escape_backslash (t : List Nat) :
    decode .escape ('\\'.toNat :: t) = (decode .normal t).map (Prod.map ('\\'.toNat :: ·) id) := by
  rw [decode, if_neg (by decide), show escapeCode '\\'.toNat = some '\\'.toNat from rfl]

theorem decode_escape_backslash_eq_some {t : List Nat}
    (h : decode .escape ('\\'.toNat :: t) = some (m ++ w, rest)) (hm : m ≠ []) :
    ∃ m', decode .normal t = some (m' ++ w, rest) := by
  rw [decode_escape_backslash, map_cons_eq_some] at h
  obtain ⟨l', hl, hd⟩ := h
  cases m with
  | nil => exact absurd rfl hm
  | cons y m =>
    obtain rfl : m ++ w = l' := (List.cons.inj hl).2
    exact ⟨m, hd⟩

/-- The reader that is ahead of the runes it has produced stays ahead, and so
never gives back all of them. -/
theorem decode_ahead (hm : m ≠ []) : decode st (literalText w) ≠ some (m ++ w, rest) := by
  induction w generalizing st m with
  | nil =>
    cases st with
    | normal => simp [literalText, decode, hm.symm]
    | escape => simp [literalText, decode, escapeCode]
    | unicode v k => simp [literalText, decode, hexDigit]
  | cons c w ih =>
    have happ : m ++ c :: w = (m ++ [c]) ++ w := by simp
    -- one more rune read, one produced
    have hstep : ∀ x, (decode .normal (literalText w)).map (Prod.map (x :: ·) id) ≠
        some (m ++ c :: w, rest) := by
      intro x h
      obtain ⟨l', hl, hd⟩ := map_cons_eq_some.mp h
      cases m with
      | nil => exact hm rfl
      | cons y m =>
        obtain rfl : m ++ c :: w = l' := (List.cons.inj hl).2
        exact ih (m := m ++ [c]) (by simp) (by simpa using hd)
    rw [literalText_cons]
    by_cases hc : 32 ≤ c
    · rw [charText_of_le hc, List.singleton_append]
      cases st with
      | normal =>
        rw [decode]
        split_ifs
        · simp
        · exact happ ▸ ih (by simp)
        · exact hstep c
      | escape =>
        rw [decode]
        split_ifs
        · exact happ ▸ ih (by simp)
        · cases escapeCode c with
          | none => simp
          | some r => exact hstep r
      | unicode v k =>
        rw [decode]
        cases hexDigit c with
        | none => simp
        | some d =>
          simp only
          split_ifs
          · exact hstep _
          · exact happ ▸ ih (by simp)
    have hc : c < 32 := by omega
    have hih : ∀ {st : StrState} {m' : List Nat},
        decode st (literalText w) ≠ some (m' ++ c :: w, rest) := fun h =>
      ih (m := _ ++ [c]) (by simp) (by simpa using h)
    rcases charText_control hc with ⟨-, he⟩ | ⟨x, he, hx, hu, hU, -⟩ |
        ⟨d₁, d₂, d₃, d₄, he, h₁, h₂, h₃, h₄⟩
    · rw [he]
      exact hih
    · -- an escape of one letter
      rw [he]
      cases st with
      | normal =>
        change decode .escape (x :: literalText w) ≠ _
        rw [decode, if_neg (not_or.mpr ⟨hU, hu⟩)]
        cases escapeCode x with
        | none => simp
        | some r => exact hstep r
      | escape =>
        intro h
        obtain ⟨m', h⟩ := decode_escape_backslash_eq_some h hm
        obtain ⟨m', h⟩ := decode_raw (List.forall_mem_singleton.mpr hx) hc h
        exact hih h
      | unicode v k =>
        rw [List.cons_append, decode_unicode_backslash]
        simp
    · -- an escape of four digits, or two of them
      obtain ⟨tail, he, htail⟩ : ∃ tail, charText c =
          '\\'.toNat :: 'u'.toNat :: d₁ :: d₂ :: d₃ :: d₄ :: tail ∧
            (tail = [] ∨ tail = runes "\\u0010") := by
        rcases he with he | he
        · exact ⟨[], he, .inl rfl⟩
        · exact ⟨_, he, .inr rfl⟩
      rw [he]
      simp only [List.cons_append]
      cases st with
      | normal =>
        obtain ⟨v, hv⟩ := decode_four h₁ h₂ h₃ h₄ (tail ++ literalText w)
        rw [hv]
        rcases htail with rfl | rfl
        · exact hih
        · exact fun h => by simp [runes, decode, hexDigit] at h
      | escape =>
        intro h
        obtain ⟨m', h⟩ := decode_escape_backslash_eq_some h hm
        have hraw : ∀ x ∈ ['u'.toNat, d₁, d₂, d₃, d₄], Raw x := by
          simp only [List.forall_mem_cons, List.not_mem_nil, false_implies, implies_true, and_true]
          exact ⟨⟨by decide, by decide, by decide⟩, raw_of_hexDigit h₁, raw_of_hexDigit h₂, raw_of_hexDigit h₃,
            raw_of_hexDigit h₄⟩
        obtain ⟨m', h⟩ := decode_raw hraw hc h
        rcases htail with rfl | rfl
        · exact hih h
        · obtain ⟨v, hv⟩ : ∃ v, decode .normal (runes "\\u0010" ++ literalText w) =
              decode (.unicode v 4) (literalText w) := decode_four rfl rfl rfl rfl _
          exact hih (hv.symm.trans h)
      | unicode v k =>
        rw [decode_unicode_backslash]
        simp

/-- What is written for a string is read back exactly when each rune is. -/
theorem decode_literalText_iff {s : List Nat} (h31 : 31 ∉ s) :
    (∃ rest, decode .normal (literalText s) = some (s, rest)) ↔ ∀ ch ∈ s, Plain ch := by
  induction s with
  | nil => simp [literalText, decode]
  | cons c s ih =>
    simp only [List.mem_cons, not_or] at h31
    rw [literalText_cons, List.forall_mem_cons]
    by_cases hp : Plain c
    · rw [decode_plain hp]
      simp only [map_cons_eq_some, hp, true_and, ← ih h31.2, List.cons.injEq]
      simp
    · simp only [hp, false_and, iff_false, not_exists]
      intro rest h
      have hahead : ∀ st, decode st (literalText s) ≠ some (c :: s, rest) := fun st =>
        decode_ahead (m := [c]) (by simp)
      by_cases hc : c < 32
      · rcases charText_control hc with ⟨rfl, -⟩ | ⟨x, he, -, hu, hU, hx⟩ |
            ⟨d₁, d₂, d₃, d₄, he, h₁, h₂, h₃, h₄⟩
        · exact h31.1 rfl
        · rw [he] at h
          change decode .escape (x :: literalText s) = _ at h
          rw [decode, if_neg (not_or.mpr ⟨hU, hu⟩)] at h
          rcases hx with ⟨-, h7, h13⟩ | hx
          · exact hp ⟨by rintro rfl; exact absurd h13 (by decide),
              by rintro rfl; exact absurd h13 (by decide), .inr ⟨h7, h13⟩⟩
          · rw [hx] at h
            cases h
        · obtain ⟨v, hv⟩ := decode_four h₁ h₂ h₃ h₄ (literalText s)
          obtain ⟨v', hv'⟩ := decode_four h₁ h₂ h₃ h₄ (runes "\\u0010" ++ literalText s)
          rcases he with he | he
          · rw [he] at h
            exact hahead _ (hv.symm.trans h)
          · rw [he, List.append_assoc] at h
            have hnone := hv'.symm.trans h
            rw [show decode (.unicode v' 4) (runes "\\u0010" ++ literalText s) = none from
              decode_unicode_backslash _] at hnone
            cases hnone
      · have h32 : 32 ≤ c := by omega
        rw [charText_of_le h32, List.singleton_append, decode] at h
        split_ifs at h with hq hb
        · cases h
        · exact hahead _ h
        · exact hp ⟨hq, hb, .inl h32⟩

theorem sread_string {flo : Flonums F} {eof : Datum F} {t : List Nat} {n : Nat} :
    sread ⟨flo, none⟩ (n + 2) eof (instring ('"'.toNat :: t)) =
      (readString (n + 1) .normal [] >>= fun s => pure (.string s)) (instring t) := by
  rw [sread, bind_of_ok (scan_cons (.clean _) rfl)]
  rfl

theorem sread_string_iff {flo : Flonums F} {t s : List Nat} :
    (∃ n p, sread ⟨flo, none⟩ n .nil (instring ('"'.toNat :: t)) = .ok (.string s, p)) ↔
      ∃ rest, decode .normal t = some (s, rest) := by
  constructor
  · rintro ⟨n, p, h⟩
    cases n with
    | zero => cases h
    | succ n =>
      cases n with
      | zero => cases h
      | succ n =>
        rw [sread_string] at h
        obtain ⟨out, p', hread, hout⟩ := yields_bind h
        obtain ⟨he, rfl⟩ := yields_pure_iff.mp hout
        cases he
        obtain ⟨out', rest, rfl, -, hd⟩ := decode_of_readString (.clean t) (by trivial) hread
        exact ⟨rest, hd⟩
  · rintro ⟨rest, hd⟩
    refine ⟨2 * t.length + 2, instring rest, ?_⟩
    rw [sread_string]
    exact Yields.bind (readString_of_decode (.clean t) hd trivial (by omega)) yields_pure

end Reading

/-- Writing the string ends, and reading the text gives it back. `past i` is
the word in memory after the table string for its rune `i`. -/
def Survives (flo : Flonums F) (past : Nat → Nat) (s : List Char) : Prop :=
  ∃ n text, stringPprint n past false (s.map Char.toNat) = .ok text ∧
    ∃ m p, sread ⟨flo, none⟩ m .nil (instring text) = .ok (.string (s.map Char.toNat), p)

theorem stringPprint_ok {n : Nat} {past : Nat → Nat} {s text : List Nat}
    (h : stringPprint n past false s = .ok text) :
    text = '"'.toNat :: literalText s ∧ ∀ i ch, s[i]? = some ch → Printable (past i) ch := by
  rw [stringPprint] at h
  cases hs : pprintRunes n past false 0 s with
  | error e =>
    rw [hs] at h
    cases h
  | ok t =>
    rw [hs] at h
    cases h
    obtain ⟨rfl, hall⟩ := pprintRunes_ok hs
    exact ⟨rfl, fun i ch hi => Nat.zero_add i ▸ hall i ch hi⟩

theorem stringPprint_of_printable {past : Nat → Nat} {s : List Nat}
    (h : ∀ i ch, s[i]? = some ch → Printable (past i) ch) :
    stringPprint 13 past false s = .ok ('"'.toNat :: literalText s) := by
  rw [stringPprint, pprintRunes_of_printable (by omega) fun i ch hi => by
    rw [Nat.zero_add]
    exact h i ch hi]
  rfl

theorem survives_iff_decode {flo : Flonums F} {past : Nat → Nat} {s : List Char} :
    Survives flo past s ↔
      (∀ i ch, (s.map Char.toNat)[i]? = some ch → Printable (past i) ch) ∧
        ∃ rest, decode .normal (literalText (s.map Char.toNat)) = some (s.map Char.toNat, rest) := by
  constructor
  · rintro ⟨n, text, hw, hread⟩
    obtain ⟨rfl, hall⟩ := stringPprint_ok hw
    exact ⟨hall, sread_string_iff.mp hread⟩
  · rintro ⟨hall, hd⟩
    exact ⟨13, _, stringPprint_of_printable hall, sread_string_iff.mpr hd⟩

/-- A string survives exactly when it has no quote, no backslash and no control
character but those from 7 to 13, whose table string a zero word follows. -/
theorem survives_iff (flo : Flonums F) (past : Nat → Nat) (s : List Char) :
    Survives flo past s ↔ ∀ i ch, s[i]? = some ch →
      Plain ch.toNat ∧ (ch.toNat < 32 → past i = 0) := by
  rw [survives_iff_decode]
  have hget : ∀ i ch : Nat, (s.map Char.toNat)[i]? = some ch ↔ ∃ c : Char, s[i]? = some c ∧ c.toNat = ch := by
    intro i ch
    rw [List.getElem?_map, Option.map_eq_some_iff]
  constructor
  · rintro ⟨hall, hd⟩ i c hi
    have h31 : 31 ∉ s.map Char.toNat := by
      intro hmem
      obtain ⟨k, hk⟩ := List.mem_iff_getElem?.mp hmem
      exact (hall k 31 hk (by omega)).1 rfl
    refine ⟨(decode_literalText_iff h31).mp hd _ (List.mem_map_of_mem (List.mem_of_getElem? hi)),
      fun hlt => (hall i _ ((hget i _).mpr ⟨c, hi, rfl⟩) hlt).2⟩
  · intro h
    have hplain : ∀ ch ∈ s.map Char.toNat, Plain ch := by
      intro ch hch
      obtain ⟨i, hi⟩ := List.mem_iff_getElem?.mp hch
      obtain ⟨c, hc, rfl⟩ := (hget i ch).mp hi
      exact (h i c hc).1
    have h31 : 31 ∉ s.map Char.toNat := by
      intro hmem
      obtain ⟨-, -, h32 | ⟨-, h13⟩⟩ := hplain 31 hmem <;> omega
    refine ⟨fun i ch hi hlt => ?_, (decode_literalText_iff h31).mpr hplain⟩
    obtain ⟨c, hc, rfl⟩ := (hget i ch).mp hi
    exact ⟨fun he => h31 (he ▸ List.mem_of_getElem? hi), (h i c hc).2 hlt⟩

/-- The string of one quote is read back as the empty string. -/
theorem quote_not_survives :
    ¬ Survives (⟨fun _ => none, fun _ => (), ()⟩ : Flonums Unit) (fun _ => 0) ['"'] := by
  rw [survives_iff_decode]
  rintro ⟨-, rest, h⟩
  -- the quote ends the literal
  have hfst : (some [] : Option (List Nat)) = some ['"'.toNat] := congrArg (Option.map Prod.fst) h
  cases hfst

end Arcueid.Reader
