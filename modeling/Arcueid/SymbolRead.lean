import Arcueid.Lib.Outcome
import Arcueid.Reader

/-! Symbols and numbers on a string port: which names are read back as the
symbol, and how a token is read in front of other text. -/

namespace Arcueid.Reader

open Outcome Utf Numeral

variable {F : Type} {n : Nat} {p p' : Port} {cs buf : List Nat} {c : Nat}

/-- The token ends: at the end of the source, or in front of a rune that is
not valid in a symbol. -/
def Delimited (rest : List Nat) : Prop := ∀ c ∈ rest.head?, issym c = false

/-- A rune that `getsymbol` takes into a symbol. -/
def SymRune (c : Nat) : Prop := issym c = true ∧ c ≠ Runeerror

instance (c : Nat) : Decidable (SymRune c) := inferInstanceAs (Decidable (_ ∧ _))

theorem ne_runeerror_of_not_issym (h : issym c = false) : c ≠ Runeerror := by
  rintro rfl
  cases h

theorem getsymbol_cons {st : SymState} (hp : At p (c :: cs)) (hc : SymRune c) {st' : SymState}
    (hr : ¬ (st = .sawR ∧ c = '/'.toNat)) (hst : nextState st c = st')
    (hst' : st' = .sawR ∨ st' = .symbol) :
    getsymbol (n + 1) st buf p = getsymbol n st' (buf ++ [c]) (instring cs) := by
  rw [getsymbol, bind_of_ok hp.readc_cons]
  simp only [Option.getD_some, if_neg hr, hst]
  rcases hst' with rfl | rfl <;> simp [hc.1, hc.2]

theorem getsymbol_delimited {st : SymState} (hp : At p cs) (hcs : Delimited cs)
    (hst : st = .sawR ∨ st = .symbol) :
    ∃ p', getsymbol (n + 1) st buf p = .ok (.text buf, p') ∧ At p' cs := by
  cases cs with
  | nil =>
    refine ⟨instring [], ?_, .clean []⟩
    rw [getsymbol, bind_of_ok hp.readc_nil]
    rcases hst with rfl | rfl <;> rfl
  | cons c cs =>
    have hc : issym c = false := hcs c rfl
    have hslash : c ≠ '/'.toNat := by
      rintro rfl
      cases hc
    refine ⟨arcUngetcRune c (instring cs), ?_, .pushed c cs⟩
    rw [getsymbol, bind_of_ok hp.readc_cons]
    have hnext : nextState st c = .symbol := by
      rcases hst with rfl | rfl
      · exact if_neg hslash
      · rfl
    simp only [Option.getD_some, hslash, and_false, if_false, hnext, ne_runeerror_of_not_issym hc,
      hc, Bool.not_false, if_true]
    rfl

theorem getsymbol_symbol {name : List Nat} (hp : At p (name ++ cs)) (hcs : Delimited cs)
    (hname : ∀ c ∈ name, SymRune c) (hn : name.length < n) :
    ∃ p', getsymbol n .symbol buf p = .ok (.text (buf ++ name), p') ∧ At p' cs := by
  induction name generalizing n buf p with
  | nil =>
    obtain ⟨n, rfl⟩ := Nat.exists_eq_add_of_lt hn
    simpa using getsymbol_delimited (n := 0 + n) hp hcs (.inr rfl)
  | cons c name ih =>
    obtain ⟨n, rfl⟩ := Nat.exists_eq_add_of_lt (show 0 < n by omega)
    rw [show 0 + n + 1 = n + 1 by omega] at hn ⊢
    rw [getsymbol_cons hp (hname c (by simp)) (by simp)
      (show nextState .symbol c = .symbol from rfl) (.inr rfl)]
    have hrun : ∃ p', getsymbol n .symbol (buf ++ [c]) (instring (name ++ cs)) =
        .ok (.text (buf ++ [c] ++ name), p') ∧ At p' cs :=
      ih (.clean _) (fun x hx => hname x (by simp [hx])) (by simpa using hn)
    simpa using hrun

/-- Names that `getsymbol` reads as one token of text. -/
structure TextToken (name : List Nat) : Prop where
  ne_nil : name ≠ []
  valid : ∀ c ∈ name, SymRune c
  not_regexp : ∀ u, name ≠ 'r'.toNat :: '/'.toNat :: u

theorem TextToken.getsymbol {name : List Nat} (h : TextToken name) (hp : At p (name ++ cs))
    (hcs : Delimited cs) (hn : name.length < n) :
    ∃ p', getsymbol n .start [] p = .ok (.text name, p') ∧ At p' cs := by
  obtain ⟨n, rfl⟩ := Nat.exists_eq_add_of_lt (show 0 < n by omega)
  rw [show 0 + n + 1 = n + 1 by omega] at hn ⊢
  cases name with
  | nil => exact absurd rfl h.ne_nil
  | cons c name =>
    have hc := h.valid c (by simp)
    have hname : ∀ x ∈ name, SymRune x := fun x hx => h.valid x (by simp [hx])
    have hn' : name.length < n := by simpa using hn
    by_cases hr : c = 'r'.toNat
    · rw [getsymbol_cons hp hc (by simp) (show nextState .start c = .sawR from if_pos hr) (.inl rfl)]
      obtain ⟨n, rfl⟩ := Nat.exists_eq_add_of_lt (show 0 < n by omega)
      rw [show 0 + n + 1 = n + 1 by omega] at hn' ⊢
      cases name with
      | nil => exact getsymbol_delimited (.clean _) hcs (.inl rfl)
      | cons d name =>
        have hd : d ≠ '/'.toNat := fun hd => h.not_regexp name (by rw [hr, hd])
        change ∃ p', Reader.getsymbol _ _ _ (instring (d :: (name ++ cs))) = _ ∧ _
        rw [getsymbol_cons (.clean _) (hname d (by simp)) (fun h => hd h.2)
          (show nextState .sawR d = .symbol from if_neg hd) (.inr rfl)]
        exact getsymbol_symbol (.clean _) hcs (fun x hx => hname x (by simp [hx]))
          (by simpa using hn')
    · rw [getsymbol_cons hp hc (by simp) (show nextState .start c = .symbol from if_neg hr) (.inr rfl)]
      exact getsymbol_symbol (.clean _) hcs hname hn'

theorem finishToken_text {st : SymState} {s : List Nat}
    (h : finishToken st buf p = .ok (.text s, p')) : s = buf := by
  cases st <;> cases h
  rfl

/-- What `getsymbol` does with a rune that is no part of a regular expression. -/
theorem getsymbol_rune {st : SymState} {s : List Nat}
    (h : (if c = Runeerror then finishToken st buf
      else if !issym c then do
        ungetc c
        finishToken st buf
      else getsymbol n st (buf ++ [c])) (instring cs) = .ok (.text s, p')) :
    s = buf ∨ SymRune c ∧ getsymbol n st (buf ++ [c]) (instring cs) = .ok (.text s, p') := by
  split_ifs at h with he hs
  · exact .inl (finishToken_text h)
  · rw [bind_of_ok ungetc_instring] at h
    exact .inl (finishToken_text h)
  · exact .inr ⟨⟨by simpa using hs, he⟩, h⟩

/-- A token of text is what was read from the states that no regular
expression has been seen in. -/
theorem getsymbol_text {st : SymState} {s : List Nat} (hp : At p cs)
    (h : getsymbol n st buf p = .ok (.text s, p')) :
    (st = .start ∨ st = .sawR ∨ st = .symbol) ∧ ∃ t rest, s = buf ++ t ∧ cs = t ++ rest ∧
      (∀ c ∈ t, SymRune c) ∧ (st = .sawR → t.head? ≠ some '/'.toNat) ∧
      (st = .start → ∀ u, t ≠ 'r'.toNat :: '/'.toNat :: u) := by
  induction n generalizing st buf p cs with
  | zero => cases h
  | succ n ih =>
    cases cs with
    | nil =>
      rw [getsymbol, bind_of_ok hp.readc_nil] at h
      have hend : s = buf → ∃ t rest, s = buf ++ t ∧ [] = t ++ rest ∧
          (∀ c ∈ t, SymRune c) ∧ (st = .sawR → t.head? ≠ some '/'.toNat) ∧
          (st = .start → ∀ u, t ≠ 'r'.toNat :: '/'.toNat :: u) :=
        fun hs => ⟨[], [], by simp [hs], rfl, by simp, by simp, by simp⟩
      cases st with
      | start => exact ⟨.inl rfl, hend (by cases h; rfl)⟩
      | sawR => exact ⟨.inr (.inl rfl), hend (by cases h; rfl)⟩
      | symbol => exact ⟨.inr (.inr rfl), hend (by cases h; rfl)⟩
      | regex => cases h
      | regexEscape => cases h
      | regexFlags casefold multiline => cases h
    | cons c cs =>
      rw [getsymbol, bind_of_ok hp.readc_cons] at h
      simp only [Option.getD_some] at h
      -- no token of text comes out of the states of a regular expression
      have hregex : ∀ {st' : SymState} {buf' : List Nat},
          getsymbol n st' buf' (instring cs) = .ok (.text s, p') →
          st' ≠ .regex ∧ st' ≠ .regexEscape ∧ ∀ casefold multiline,
            st' ≠ .regexFlags casefold multiline := by
        intro st' buf' h
        rcases (ih (.clean cs) h).1 with rfl | rfl | rfl <;> exact ⟨nofun, nofun, nofun⟩
      -- a rune that is taken into the token
      have htake : ∀ {st' : SymState}, getsymbol n st' (buf ++ [c]) (instring cs) = .ok (.text s, p') →
          SymRune c → ∃ t rest, s = buf ++ c :: t ∧ c :: cs = c :: t ++ rest ∧
            (∀ x ∈ c :: t, SymRune x) ∧ (st' = .sawR → t.head? ≠ some '/'.toNat) := by
        intro st' h hc
        obtain ⟨-, t, rest, rfl, rfl, ht, hsaw, -⟩ := ih (.clean cs) h
        exact ⟨t, rest, by simp, rfl, by simpa using ⟨hc, ht⟩, hsaw⟩
      cases st with
      | start =>
        refine ⟨.inl rfl, ?_⟩
        rw [if_neg (by simp)] at h
        have hrune : s = buf ∨ SymRune c ∧
            getsymbol n (nextState .start c) (buf ++ [c]) (instring cs) = .ok (.text s, p') := by
          by_cases hr : c = 'r'.toNat
          · rw [show nextState .start c = .sawR from if_pos hr] at h ⊢
            exact getsymbol_rune h
          · rw [show nextState .start c = .symbol from if_neg hr] at h ⊢
            exact getsymbol_rune h
        rcases hrune with rfl | ⟨hc, h⟩
        · exact ⟨[], c :: cs, by simp, rfl, by simp, by simp, by simp⟩
        · obtain ⟨t, rest, hs, hcs, ht, hsaw⟩ := htake h hc
          refine ⟨c :: t, rest, hs, hcs, ht, by simp, fun _ u hu => ?_⟩
          obtain ⟨hr, rfl⟩ := List.cons.inj hu
          exact hsaw (if_pos hr) rfl
      | sawR =>
        refine ⟨.inr (.inl rfl), ?_⟩
        by_cases hslash : c = '/'.toNat
        · rw [if_pos ⟨rfl, hslash⟩] at h
          exact absurd rfl (hregex h).1
        · rw [if_neg (fun hh => hslash hh.2), show nextState .sawR c = .symbol from if_neg hslash] at h
          rcases getsymbol_rune h with rfl | ⟨hc, h⟩
          · exact ⟨[], c :: cs, by simp, rfl, by simp, by simp, by simp⟩
          · obtain ⟨t, rest, hs, hcs, ht, -⟩ := htake h hc
            exact ⟨c :: t, rest, hs, hcs, ht, fun _ hh => hslash (Option.some.inj hh), by simp⟩
      | symbol =>
        refine ⟨.inr (.inr rfl), ?_⟩
        rw [if_neg (by simp)] at h
        rcases getsymbol_rune h with rfl | ⟨hc, h⟩
        · exact ⟨[], c :: cs, by simp, rfl, by simp, by simp, by simp⟩
        · obtain ⟨t, rest, hs, hcs, ht, -⟩ := htake h hc
          exact ⟨c :: t, rest, hs, hcs, ht, by simp, by simp⟩
      | regex =>
        exfalso
        rw [if_neg (by simp)] at h
        simp only [nextState] at h
        split_ifs at h
        · exact (hregex h).2.2 _ _ rfl
        · cases h
        · exact (hregex h).2.1 rfl
        · exact (hregex h).1 rfl
      | regexEscape => exact absurd rfl (hregex h).1
      | regexFlags casefold multiline =>
        exfalso
        rw [if_neg (by simp)] at h
        simp only [nextState] at h
        split_ifs at h
        · exact (hregex h).2.2 _ _ rfl
        · exact (hregex h).2.2 _ _ rfl
        · cases h
        · cases h
        · cases h

/-- Tokens that `arc_sread` reads as a symbol or a number. -/
structure AtomToken (name : List Nat) : Prop extends TextToken name where
  first : ∀ c ∈ name.head?, c ∉ runes "`,\"#"

theorem scan_blank {r : Nat} (hp : At p (r :: cs)) (hr : ucisspace r = true) :
    scan (n + 1) p = scan n (instring cs) := by
  rw [scan, bind_of_ok hp.readc_cons]
  simp [hr]

theorem scan_cons {r : Nat} (hp : At p (r :: cs)) (hr : ucisspace r = false) :
    scan (n + 1) p = .ok (some r, instring cs) := by
  rw [scan, bind_of_ok hp.readc_cons]
  simp [hr, pure_apply]

theorem not_space_of_issym (h : issym c = true) : ucisspace c = false := by
  rw [issym, Bool.and_eq_true] at h
  simpa using h.1

theorem SymRune.not_space (h : SymRune c) : ucisspace c = false := not_space_of_issym h.1

theorem ne_of_issym (h : issym c = true) {r : Nat} (hr : issym r = false) : c ≠ r := by
  rintro rfl
  rw [h] at hr
  cases hr

theorem SymRune.ne (h : SymRune c) {r : Nat} (hr : issym r = false) : c ≠ r := ne_of_issym h.1 hr

theorem not_mem_opening :
    c ∉ runes "`,\"#" ↔
      c ≠ '`'.toNat ∧ c ≠ ','.toNat ∧ c ≠ '"'.toNat ∧ c ≠ '#'.toNat := by
  simp [runes]

theorem scan_blanks {ws : List Nat} (hp : At p (ws ++ c :: cs))
    (hws : ∀ w ∈ ws, ucisspace w = true) (hc : ucisspace c = false) (hn : ws.length < n) :
    scan n p = .ok (some c, instring cs) := by
  induction ws generalizing n p with
  | nil =>
    obtain ⟨n, rfl⟩ := Nat.exists_eq_add_of_le' (show 1 ≤ n by omega)
    exact scan_cons hp hc
  | cons w ws ih =>
    obtain ⟨n, rfl⟩ := Nat.exists_eq_add_of_le' (show 1 ≤ n by omega)
    rw [scan_blank hp (hws w (by simp))]
    exact ih (.clean _) (fun x hx => hws x (by simp [hx])) (by simpa using hn)

/-- Text that starts a token reaches `read_symbol`. -/
theorem sread_token {e : ReadEnv F} {eof : Datum F} (ws : List Nat) (hp : At p (ws ++ c :: cs))
    (hws : ∀ w ∈ ws, ucisspace w = true) (hn : ws.length < n) (hc : issym c = true)
    (hfirst : c ∉ runes "`,\"#") :
    sread e (n + 1) eof p = readSymbol e.flo n (arcUngetcRune c (instring cs)) := by
  have hne := not_mem_opening.mp hfirst
  have hrune : ∀ r, issym r = false → c ≠ r := fun r hr => ne_of_issym hc hr
  rw [sread, bind_of_ok (scan_blanks hp hws (not_space_of_issym hc) hn)]
  simp only [hrune '('.toNat rfl, hrune ')'.toNat rfl, hrune '['.toNat rfl, hrune ']'.toNat rfl,
    hrune '\''.toNat rfl, hrune ';'.toNat rfl, hne, if_false]
  rw [bind_of_ok ungetc_instring]

theorem sread_atom {e : ReadEnv F} {eof : Datum F} (ws : List Nat) (hp : At p (ws ++ c :: cs))
    (hws : ∀ w ∈ ws, ucisspace w = true) (hn : ws.length < n) (hc : SymRune c)
    (hfirst : c ∉ runes "`,\"#") :
    sread e (n + 1) eof p = readSymbol e.flo n (arcUngetcRune c (instring cs)) :=
  sread_token ws hp hws hn hc.1 hfirst

theorem readSymbol_text (flo : Flonums F) {name : List Nat} (h : TextToken name)
    (hp : At p (name ++ cs)) (hcs : Delimited cs) (hn : name.length < n) (hdot : name ≠ runes ".") :
    ∃ p', At p' cs ∧ readSymbol flo n p = match string2num flo name with
      | .error msg => .error (.error msg)
      | .ok (some num) => .ok (.number num, p')
      | .ok none => .ok (intern name, p') := by
  obtain ⟨p', hget, hp'⟩ := h.getsymbol hp hcs hn
  refine ⟨p', hp', ?_⟩
  rw [readSymbol, bind_of_ok hget]
  simp only [if_neg hdot]
  cases string2num flo name with
  | error msg => rfl
  | ok num =>
    cases num with
    | none => rfl
    | some num => rfl

/-- The dot between the elements and the tail of a list. -/
theorem readSymbol_dot (flo : Flonums F) (hp : At p ('.'.toNat :: cs)) (hcs : Delimited cs) :
    ∃ p', At p' cs ∧ readSymbol flo (n + 2) p = .ok (sDot, p') := by
  have htoken : TextToken (runes ".") :=
    ⟨by decide, by decide, fun u hu => absurd (List.cons.inj hu).1 (by decide)⟩
  obtain ⟨p', hget, hp'⟩ := htoken.getsymbol (n := n + 2) hp hcs (show 1 < n + 2 by omega)
  exact ⟨p', hp', by rw [readSymbol, bind_of_ok hget]; rfl⟩

/-- Alone in a source, the name is read back as the symbol. -/
def ReadsBack (flo : Flonums F) (name : List Nat) : Prop :=
  ∃ n p, sread ⟨flo, none⟩ n .nil (instring name) = .ok (.symbol name, p)

theorem scan_some (hp : At p cs) (h : scan n p = .ok (some c, p')) :
    ∃ ws cs', cs = ws ++ c :: cs' ∧ ucisspace c = false ∧ p' = instring cs' := by
  induction n generalizing p cs with
  | zero => cases h
  | succ n ih =>
    cases cs with
    | nil =>
      rw [scan, bind_of_ok hp.readc_nil] at h
      cases h
    | cons r cs =>
      by_cases hr : ucisspace r = true
      · rw [scan_blank hp hr] at h
        obtain ⟨ws, cs', rfl, hc, rfl⟩ := ih (.clean cs) h
        exact ⟨r :: ws, cs', rfl, hc, rfl⟩
      · rw [scan_cons hp (by simpa using hr)] at h
        cases h
        exact ⟨[], cs, rfl, by simpa using hr, rfl⟩

theorem readComment_ok (hp : At p cs) (h : readComment n p = .ok ((), p')) :
    ∃ sk cs', cs = sk ++ cs' ∧ p' = instring cs' := by
  induction n generalizing p cs with
  | zero => cases h
  | succ n ih =>
    cases cs with
    | nil =>
      rw [readComment, bind_of_ok hp.readc_nil] at h
      cases h
      exact ⟨[], [], rfl, rfl⟩
    | cons r cs =>
      rw [readComment, bind_of_ok hp.readc_cons] at h
      simp only [Option.getD_some] at h
      split_ifs at h
      · cases h
        exact ⟨[r], cs, rfl, rfl⟩
      · cases h
        exact ⟨[r], cs, rfl, rfl⟩
      · obtain ⟨sk, cs', rfl, rfl⟩ := ih (.clean cs) h
        exact ⟨r :: sk, cs', rfl, rfl⟩

section NotSymbol

variable {e : ReadEnv F} {v : Datum F} {name : List Nat}

theorem list_ne_symbol {top : List (Datum F)} (htop : top ≠ []) (tail : Datum F) :
    list top tail ≠ .symbol name := by
  cases top with
  | nil => exact absurd rfl htop
  | cons x top => exact nofun

theorem readList_ne_symbol {top : List (Datum F)} {dotted : Option (Datum F)}
    (htop : dotted.isSome → top ≠ []) (h : readList e n .nil top dotted p = .ok (v, p')) :
    v ≠ .symbol name := by
  induction n generalizing p top dotted with
  | zero => cases h
  | succ n ih =>
    rw [readList] at h
    obtain ⟨ch, p₁, -, h⟩ := yields_bind h
    cases ch with
    | none =>
      cases h
      exact nofun
    | some r =>
      simp only at h
      by_cases hsemi : r = ';'.toNat
      · rw [if_pos hsemi] at h
        obtain ⟨_, p₂, -, h⟩ := yields_bind h
        exact ih htop h
      rw [if_neg hsemi] at h
      by_cases hclose : r = ')'.toNat
      · rw [if_pos hclose] at h
        cases h
        cases dotted with
        | none =>
          cases top with
          | nil => exact nofun
          | cons x top => exact nofun
        | some tail => exact list_ne_symbol (htop rfl) _
      rw [if_neg hclose] at h
      by_cases hdot : dotted.isSome
      · rw [if_pos hdot] at h
        cases h
      rw [if_neg hdot] at h
      obtain ⟨_, p₂, -, h⟩ := yields_bind h
      obtain ⟨val, p₃, -, h⟩ := yields_bind h
      have hval : ∀ {val : Datum F} {p₃ : Port},
          readList e n .nil (top ++ [val]) none p₃ = .ok (v, p') → v ≠ .symbol name :=
        fun h => ih (by simp) h
      cases val with
      | symbol s =>
        simp only at h
        by_cases hs : s = runes "."
        · rw [if_pos hs] at h
          obtain ⟨tail, p₄, -, h⟩ := yields_bind h
          by_cases htop : top = []
          · rw [if_pos htop] at h
            cases h
          · rw [if_neg htop] at h
            exact ih (fun _ => htop) h
        · rw [if_neg hs] at h
          exact hval h
      | nil => exact hval h
      | number num => exact hval h
      | string s => exact hval h
      | char r => exact hval h
      | regexp rx casefold multiline => exact hval h
      | cons a d => exact hval h

theorem readAnonf_ne_symbol {top : List (Datum F)}
    (h : readAnonf e n .nil top p = .ok (v, p')) : v ≠ .symbol name := by
  induction n generalizing p top with
  | zero => cases h
  | succ n ih =>
    rw [readAnonf] at h
    obtain ⟨ch, p₁, -, h⟩ := yields_bind h
    cases ch with
    | none =>
      cases h
      exact nofun
    | some r =>
      simp only at h
      split_ifs at h
      · obtain ⟨_, p₂, -, h⟩ := yields_bind h
        exact ih h
      · cases h
        exact nofun
      · obtain ⟨_, p₂, -, h⟩ := yields_bind h
        obtain ⟨val, p₃, -, h⟩ := yields_bind h
        exact ih h

theorem readq_ne_symbol {qsym : List Nat} {eof : Datum F}
    (h : readq e n qsym eof p = .ok (v, p')) : v ≠ .symbol name := by
  cases n with
  | zero => cases h
  | succ n =>
    rw [readq] at h
    obtain ⟨val, p₁, -, h⟩ := yields_bind h
    cases h
    exact nofun

theorem readComma_ne_symbol {eof : Datum F} (h : readComma e n eof p = .ok (v, p')) :
    v ≠ .symbol name := by
  cases n with
  | zero => cases h
  | succ n =>
    rw [readComma] at h
    obtain ⟨r, p₁, -, h⟩ := yields_bind h
    split_ifs at h
    · exact readq_ne_symbol h
    · obtain ⟨_, p₂, -, h⟩ := yields_bind h
      exact readq_ne_symbol h

theorem readChar_ne_symbol (h : readChar n p = .ok (v, p')) : v ≠ .symbol name := by
  rw [readChar] at h
  obtain ⟨r, p₁, -, h⟩ := yields_bind h
  by_cases hr : r ≠ '\\'.toNat
  · rw [if_pos hr] at h
    cases h
  rw [if_neg hr] at h
  obtain ⟨r, p₂, -, h⟩ := yields_bind h
  by_cases hs : (!issym r) = true
  · rw [if_pos hs] at h
    cases h
    exact nofun
  rw [if_neg hs] at h
  obtain ⟨_, p₃, -, h⟩ := yields_bind h
  obtain ⟨tok, p₄, -, h⟩ := yields_bind h
  cases tok with
  | regexp rx casefold multiline => cases h
  | text tok =>
    simp only at h
    cases ht : charOfToken tok with
    | none =>
      rw [ht] at h
      cases h
    | some r =>
      rw [ht] at h
      cases h
      exact nofun

end NotSymbol

variable {flo : Flonums F} {name : List Nat}

theorem readSymbol_symbol (hp : At p cs) (h : readSymbol flo n p = .ok (.symbol name, p')) :
    name = runes "." ∨ string2num flo name = .ok none ∧ name ≠ runes "nil" ∧ ∃ rest,
      cs = name ++ rest ∧ (∀ c ∈ name, SymRune c) ∧ ∀ u, name ≠ 'r'.toNat :: '/'.toNat :: u := by
  rw [readSymbol] at h
  obtain ⟨tok, p₁, hget, h⟩ := yields_bind h
  cases tok with
  | regexp rx casefold multiline => cases h
  | text sym =>
    obtain ⟨-, t, rest, hsym, hcs, hvalid, -, hregexp⟩ := getsymbol_text hp hget
    obtain rfl : sym = t := hsym
    simp only at h
    by_cases hdot : sym = runes "."
    · rw [if_pos hdot] at h
      cases h
      exact .inl rfl
    rw [if_neg hdot] at h
    cases hnum : string2num flo sym with
    | error msg =>
      rw [hnum] at h
      cases h
    | ok num =>
      rw [hnum] at h
      cases num with
      | some num => cases h
      | none =>
        change Except.ok (intern sym, p₁) = _ at h
        rw [intern] at h
        split_ifs at h with hnil
        · cases h
        cases h
        exact .inr ⟨hnum, hnil, rest, hcs, hvalid, hregexp rfl⟩

/-- A symbol that `arc_sread` returns was read by `read_symbol`. -/
theorem sread_symbol (hp : At p cs)
    (h : sread ⟨flo, none⟩ n .nil p = .ok (.symbol name, p')) :
    ∃ sk c cs', cs = sk ++ c :: cs' ∧ c ∉ runes "`,\"#" ∧
      ∃ m p'', readSymbol flo m (arcUngetcRune c (instring cs')) = .ok (.symbol name, p'') := by
  induction n generalizing p cs with
  | zero => cases h
  | succ n ih =>
    rw [sread] at h
    obtain ⟨ch, p₁, hscan, h⟩ := yields_bind h
    cases ch with
    | none => cases h
    | some r =>
      obtain ⟨ws, cs', rfl, hr, rfl⟩ := scan_some hp hscan
      simp only at h
      by_cases h1 : r = '('.toNat
      · rw [if_pos h1] at h
        exact absurd rfl (readList_ne_symbol (by simp) h)
      rw [if_neg h1] at h
      by_cases h2 : r = ')'.toNat
      · rw [if_pos h2] at h
        cases h
      rw [if_neg h2] at h
      by_cases h3 : r = '['.toNat
      · rw [if_pos h3] at h
        exact absurd rfl (readAnonf_ne_symbol h)
      rw [if_neg h3] at h
      by_cases h4 : r = ']'.toNat
      · rw [if_pos h4] at h
        cases h
      rw [if_neg h4] at h
      by_cases h5 : r = '\''.toNat
      · rw [if_pos h5] at h
        exact absurd rfl (readq_ne_symbol h)
      rw [if_neg h5] at h
      by_cases h6 : r = '`'.toNat
      · rw [if_pos h6] at h
        exact absurd rfl (readq_ne_symbol h)
      rw [if_neg h6] at h
      by_cases h7 : r = ','.toNat
      · rw [if_pos h7] at h
        exact absurd rfl (readComma_ne_symbol h)
      rw [if_neg h7] at h
      by_cases h8 : r = '"'.toNat
      · rw [if_pos h8] at h
        obtain ⟨s, p₂, -, h⟩ := yields_bind h
        cases h
      rw [if_neg h8] at h
      by_cases h9 : r = '#'.toNat
      · rw [if_pos h9] at h
        exact absurd rfl (readChar_ne_symbol h)
      rw [if_neg h9] at h
      by_cases h10 : r = ';'.toNat
      · rw [if_pos h10] at h
        obtain ⟨_, p₂, hcomment, h⟩ := yields_bind h
        obtain ⟨sk, cs₂, rfl, rfl⟩ := readComment_ok (.clean cs') hcomment
        obtain ⟨sk', c, cs₃, rfl, hc, hread⟩ := ih (.clean cs₂) h
        exact ⟨ws ++ r :: sk ++ sk', c, cs₃, by simp, hc, hread⟩
      rw [if_neg h10] at h
      rw [Yields, bind_of_ok ungetc_instring] at h
      exact ⟨ws, r, cs', rfl, not_mem_opening.mpr ⟨h6, h7, h8, h9⟩, _, _, h⟩

/-- The names that are read back alone are those read as one token that is no
number. -/
theorem ReadsBack.token (h : ReadsBack flo name) (hdot : name ≠ runes ".") :
    AtomToken name ∧ string2num flo name = .ok none ∧ name ≠ runes "nil" := by
  obtain ⟨n, p, h⟩ := h
  obtain ⟨sk, c, cs, hname, hc, m, p', hread⟩ := sread_symbol (.clean name) h
  rcases readSymbol_symbol (.pushed c cs) hread with hd | ⟨hnum, hnil, rest, hcs, hvalid, hregexp⟩
  · exact absurd hd hdot
  · -- the token is as long as the whole name, so nothing was skipped
    have hlen := congrArg List.length hname
    have hlen' := congrArg List.length hcs
    simp only [List.length_append, List.length_cons] at hlen hlen'
    obtain rfl : sk = [] := List.eq_nil_of_length_eq_zero (by omega)
    refine ⟨⟨⟨by simp [hname], hvalid, hregexp⟩, ?_⟩, hnum, hnil⟩
    intro x hx
    rw [hname] at hx
    obtain rfl : c = x := Option.some.inj hx
    exact hc

end Arcueid.Reader
