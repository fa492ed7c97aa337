import Arcueid.SymbolRead

/-! Where tokens end: what `arc_sread` makes of the text of a symbol, a number
or a regular expression in front of a delimiter, and where it leaves the port. -/

namespace Arcueid.Reader

open Outcome Utf Numeral

variable {F : Type}

/-- The text of a symbol or a number that does not begin with `r/`. -/
structure PlainToken (w : List Nat) : Prop where
  ne_nil : w ≠ []
  valid : ∀ c ∈ w, issym c = true
  not_regexp : ∀ u, w ≠ 'r'.toNat :: '/'.toNat :: u
  first : ∀ c ∈ w.head?, c ∉ runes "`,\"#"

/-- What such a text denotes: the rune 0x80 is in no number. -/
def plainDatum (flo : Flonums F) (w : List Nat) : Option (Datum F) :=
  if Runeerror ∈ w then some (.symbol w)
  else if w = runes "." then some sDot
  else match string2num flo w with
    | .error _ => none
    | .ok (some num) => some (.number num)
    | .ok none => some (intern w)

/-- The body of a regular expression, with `/` only behind a backslash. -/
inductive RegexBody : List Nat → Prop
  | nil : RegexBody []
  | rune {c : Nat} {rx : List Nat} : c ≠ '/'.toNat → c ≠ '\\'.toNat → RegexBody rx → RegexBody (c :: rx)
  | escape {c : Nat} {rx : List Nat} : RegexBody rx → RegexBody ('\\'.toNat :: c :: rx)

def flagTexts : List (List Nat) := [[], runes "i", runes "m", runes "im", runes "mi"]

/-- The datum that the text of a token denotes. -/
inductive Denotes (flo : Flonums F) : List Nat → Datum F → Prop
  | plain {w : List Nat} {d : Datum F} : PlainToken w → plainDatum flo w = some d → Denotes flo w d
  | regexp {rx flags : List Nat} : RegexBody rx → flags ∈ flagTexts →
      Denotes flo ('r'.toNat :: '/'.toNat :: (rx ++ '/'.toNat :: flags))
        (.regexp rx (flags.contains 'i'.toNat) (flags.contains 'm'.toNat))

/-- In front of `rest`, the text `w` is read as `d`, and `rest` is left. -/
def ReadsToken (e : ReadEnv F) (eof : Datum F) (w : List Nat) (d : Datum F) (rest : List Nat) : Prop :=
  ∀ p, At p (w ++ rest) → ∃ n, ∀ fuel ≥ n, ∃ p', sread e fuel eof p = .ok (d, p') ∧ At p' rest

/-- The text begins as a regular expression does. -/
def IsRegexp (w : List Nat) : Prop := ∃ u, w = 'r'.toNat :: '/'.toNat :: u

section Plain

variable {flo : Flonums F} {e : ReadEnv F} {eof d : Datum F} {w rest cs : List Nat} {n : Nat} {p p' : Port}

theorem PlainToken.atom (h : PlainToken w) (herr : Runeerror ∉ w) : AtomToken w :=
  ⟨⟨h.ne_nil, fun c hc => ⟨h.valid c hc, fun heq => herr (heq ▸ hc)⟩, h.not_regexp⟩, h.first⟩

theorem AtomToken.readsToken (h : AtomToken w) (hd : plainDatum e.flo w = some d)
    (hrest : Delimited rest) : ReadsToken e eof w d rest := by
  have herr : Runeerror ∉ w := fun hmem => (h.valid _ hmem).2 rfl
  rw [plainDatum, if_neg herr] at hd
  obtain ⟨c, t, rfl⟩ := List.exists_cons_of_ne_nil h.ne_nil
  intro p hp
  refine ⟨(c :: t).length + 3, fun fuel hfuel => ?_⟩
  obtain ⟨n, rfl⟩ := Nat.exists_eq_add_of_le' (show 3 ≤ fuel by omega)
  have hn : (c :: t).length < n + 2 := by omega
  rw [sread_atom [] hp (by simp) (Nat.succ_pos _) (h.valid c List.mem_cons_self) (h.first c rfl)]
  have hpushed : At (arcUngetcRune c (instring (t ++ rest))) (c :: t ++ rest) := .pushed c (t ++ rest)
  by_cases hdot : c :: t = runes "."
  · rw [if_pos hdot] at hd
    obtain rfl := Option.some.inj hd
    rw [hdot] at hpushed
    obtain ⟨p', hp', hread⟩ := readSymbol_dot e.flo hpushed hrest
    exact ⟨p', hread, hp'⟩
  · rw [if_neg hdot] at hd
    obtain ⟨p', hp', hread⟩ := readSymbol_text e.flo h.toTextToken hpushed hrest hn hdot
    refine ⟨p', hread.trans ?_, hp'⟩
    cases hnum : string2num e.flo (c :: t) with
    | error msg =>
      rw [hnum] at hd
      cases hd
    | ok num =>
      rw [hnum] at hd
      cases num with
      | none =>
        obtain rfl := Option.some.inj hd
        rfl
      | some num =>
        obtain rfl := Option.some.inj hd
        rfl

/-- No token is read as the symbol of a text with the rune 0x80 in it. -/
theorem PlainToken.not_readsToken (h : PlainToken w) (herr : Runeerror ∈ w)
    (hd : plainDatum e.flo w = some d) : ¬ ReadsToken e eof w d rest := by
  rw [plainDatum, if_pos herr] at hd
  obtain rfl := Option.some.inj hd
  obtain ⟨c, t, rfl⟩ := List.exists_cons_of_ne_nil h.ne_nil
  intro hreads
  obtain ⟨n, hn⟩ := hreads _ (.clean (c :: t ++ rest))
  obtain ⟨p', hread, -⟩ := hn (n + 2) (by omega)
  have hp : At (instring (c :: t ++ rest)) ([] ++ c :: (t ++ rest)) := .clean _
  rw [sread_token [] hp (by simp) (Nat.succ_pos n) (h.valid c List.mem_cons_self) (h.first c rfl)] at hread
  rcases readSymbol_symbol (.pushed c (t ++ rest)) hread with hdot | ⟨-, -, u, -, hvalid, -⟩
  · rw [hdot] at herr
    exact absurd herr (by decide)
  · exact (hvalid _ herr).2 rfl

end Plain

section Regexp

variable {e : ReadEnv F} {eof d : Datum F} {rest cs rx flags buf : List Nat} {n : Nat} {p p' : Port}
  {tok : Token}

theorem instring_injective {cs cs' : List Nat} (h : instring cs = instring cs') : cs = cs' := by
  have hdata : cs.map Int.ofNat = cs'.map Int.ofNat := congrArg Port.data h
  exact List.map_injective_iff.mpr (fun _ _ => Int.ofNat.inj) hdata

/-- The port stands in front of one text only. -/
theorem At.instring_eq (h : At (instring cs) rest) : rest = cs := by
  generalize hport : instring cs = p at h
  cases h with
  | clean => exact (instring_injective hport).symm
  | pushed r t => cases congrArg Port.ungetrune hport

/-- A regular expression ends behind its delimiter, not in front of it. -/
def Behind (rest : List Nat) (p' : Port) : Prop := ∃ c t, rest = c :: t ∧ p' = instring t

theorem Behind.not_at (h : Behind rest p') : ¬ At p' rest := by
  obtain ⟨c, t, rfl, rfl⟩ := h
  intro hat
  have hlen := congrArg List.length hat.instring_eq
  rw [List.length_cons] at hlen
  omega

theorem getsymbol_flags {casefold multiline : Bool} (hp : At p (flags ++ rest))
    (hflags : ∀ f ∈ flags, f = 'i'.toNat ∨ f = 'm'.toNat) (hrest : Delimited rest)
    (h : getsymbol n (.regexFlags casefold multiline) buf p = .ok (tok, p')) : Behind rest p' := by
  induction flags generalizing n p casefold multiline with
  | nil =>
    cases n with
    | zero => cases h
    | succ n =>
      cases rest with
      | nil =>
        -- the end of the source is no flag
        rw [getsymbol, bind_of_ok hp.readc_nil] at h
        cases h
      | cons c t =>
        have hc : issym c = false := hrest c rfl
        have hi : c ≠ 'i'.toNat := fun heq => absurd (heq ▸ hc) (by decide)
        have hm : c ≠ 'm'.toNat := fun heq => absurd (heq ▸ hc) (by decide)
        rw [getsymbol, bind_of_ok hp.readc_cons] at h
        simp only [Option.getD_some, nextState, hi, hm, false_and, or_self, if_false, reduceCtorEq] at h
        split_ifs at h
        · obtain ⟨-, rfl⟩ := Prod.mk.inj (Except.ok.inj h)
          exact ⟨c, t, rfl, rfl⟩
        · cases h
  | cons f flags ih =>
    have hflags' : ∀ f ∈ flags, f = 'i'.toNat ∨ f = 'm'.toNat := fun x hx =>
      hflags x (List.mem_cons_of_mem f hx)
    cases n with
    | zero => cases h
    | succ n =>
      rw [getsymbol, bind_of_ok hp.readc_cons] at h
      simp only [Option.getD_some, nextState, false_and, if_false, reduceCtorEq] at h
      split_ifs at h with hcase hmulti htwice hspace
      · exact ih (.clean _) hflags' h
      · exact ih (.clean _) hflags' h
      · cases h
      · exact absurd (hflags f List.mem_cons_self) htwice
      · cases h

theorem RegexBody.getsymbol (hrx : RegexBody rx) (hp : At p (rx ++ '/'.toNat :: (flags ++ rest)))
    (hflags : ∀ f ∈ flags, f = 'i'.toNat ∨ f = 'm'.toNat) (hrest : Delimited rest)
    (h : Reader.getsymbol n .regex buf p = .ok (tok, p')) : Behind rest p' := by
  induction hrx generalizing n buf p with
  | nil =>
    cases n with
    | zero => cases h
    | succ n =>
      rw [Reader.getsymbol, bind_of_ok hp.readc_cons] at h
      exact getsymbol_flags (.clean _) hflags hrest h
  | @rune c rx hslash hback _ ih =>
    cases n with
    | zero => cases h
    | succ n =>
      rw [Reader.getsymbol, bind_of_ok hp.readc_cons] at h
      simp only [Option.getD_some, nextState, hslash, hback, if_false, reduceCtorEq, and_false] at h
      split_ifs at h
      · cases h
      · exact ih (.clean _) h
  | @escape c rx _ ih =>
    cases n with
    | zero => cases h
    | succ n =>
      rw [Reader.getsymbol, bind_of_ok hp.readc_cons] at h
      cases n with
      | zero => cases h
      | succ n =>
        change Reader.getsymbol (n + 1) .regexEscape (buf ++ ['\\'.toNat])
          (instring (c :: (rx ++ '/'.toNat :: (flags ++ rest)))) = _ at h
        rw [Reader.getsymbol, bind_of_ok (At.clean _).readc_cons] at h
        exact ih (.clean _) h

/-- `read_symbol` leaves the port where `getsymbol` does. -/
theorem readSymbol_port {flo : Flonums F} (h : readSymbol flo n p = .ok (d, p')) :
    ∃ tok, getsymbol n .start [] p = .ok (tok, p') := by
  rw [readSymbol] at h
  obtain ⟨tok, p₁, hget, h⟩ := yields_bind h
  refine ⟨tok, ?_⟩
  cases tok with
  | regexp rx casefold multiline =>
    obtain ⟨-, rfl⟩ := yields_pure_iff.mp h
    exact hget
  | text sym =>
    simp only at h
    split_ifs at h
    · obtain ⟨-, rfl⟩ := yields_pure_iff.mp h
      exact hget
    · cases hnum : string2num flo sym with
      | error msg =>
        rw [hnum] at h
        cases h
      | ok num =>
        rw [hnum] at h
        cases num with
        | none =>
          obtain ⟨-, rfl⟩ := yields_pure_iff.mp h
          exact hget
        | some num =>
          obtain ⟨-, rfl⟩ := yields_pure_iff.mp h
          exact hget

theorem regexp_not_readsToken (hrx : RegexBody rx) (hflags : flags ∈ flagTexts) (hrest : Delimited rest) :
    ¬ ReadsToken e eof ('r'.toNat :: '/'.toNat :: (rx ++ '/'.toNat :: flags)) d rest := by
  have hall : ∀ f ∈ flags, f = 'i'.toNat ∨ f = 'm'.toNat := by
    have hlisted : ∀ fs ∈ flagTexts, ∀ f ∈ fs, f = 'i'.toNat ∨ f = 'm'.toNat := by decide
    exact hlisted flags hflags
  intro hreads
  obtain ⟨n, hn⟩ := hreads _ (.clean _)
  obtain ⟨p', hread, hp'⟩ := hn (n + 4) (by omega)
  have hp : At (instring ('r'.toNat :: '/'.toNat :: (rx ++ '/'.toNat :: flags) ++ rest))
      ([] ++ 'r'.toNat :: '/'.toNat :: (rx ++ '/'.toNat :: (flags ++ rest))) := by
    rw [List.cons_append, List.cons_append, List.append_assoc, List.cons_append]
    exact .clean _
  rw [sread_token [] hp (by simp) (Nat.succ_pos _) (by decide) (by decide)] at hread
  obtain ⟨tok, hget⟩ := readSymbol_port hread
  rw [getsymbol, bind_of_ok (At.pushed _ _).readc_cons] at hget
  change getsymbol (n + 2) .sawR ['r'.toNat]
    (instring ('/'.toNat :: (rx ++ '/'.toNat :: (flags ++ rest)))) = _ at hget
  rw [getsymbol, bind_of_ok (At.clean _).readc_cons] at hget
  exact (hrx.getsymbol (.clean _) hall hrest hget).not_at hp'

end Regexp

theorem readsToken_iff {e : ReadEnv F} {eof d : Datum F} {w rest : List Nat} (hw : Denotes e.flo w d)
    (hrest : Delimited rest) : ReadsToken e eof w d rest ↔ ¬ IsRegexp w ∧ Runeerror ∉ w := by
  cases hw with
  | plain htoken hd =>
    have hregexp : ¬ IsRegexp w := by
      rintro ⟨u, hu⟩
      exact htoken.not_regexp u hu
    by_cases herr : Runeerror ∈ w
    · exact iff_of_false (htoken.not_readsToken herr hd) fun h => h.2 herr
    · exact iff_of_true ((htoken.atom herr).readsToken hd hrest) ⟨hregexp, herr⟩
  | regexp hrx hflags => exact iff_of_false (regexp_not_readsToken hrx hflags hrest) fun h => h.1 ⟨_, rfl⟩

theorem delimited_paren : Delimited (runes ")") := by
  intro c hc
  obtain rfl : ')'.toNat = c := Option.some.inj hc
  decide

/-- A reader without floating point numbers. -/
def noFlonums : ReadEnv Unit := ⟨⟨fun _ => none, fun _ => (), ()⟩, none⟩

theorem readsToken_iff_rest : ReadsToken noFlonums .nil (runes "rest") (.symbol (runes "rest")) (runes ")") ↔
    ¬ IsRegexp (runes "rest") ∧ Runeerror ∉ runes "rest" := by
  have hplain : PlainToken (runes "rest") := by
    refine ⟨by decide, by decide, fun u hu => ?_, by decide⟩
    exact absurd (List.cons.inj (List.cons.inj hu).2).1 (by decide)
  exact readsToken_iff (.plain hplain (by decide)) delimited_paren

/-- A regular expression cannot be the last element of a list. -/
theorem regexp_in_list : ¬ ∀ w (d : Datum Unit) rest, Denotes noFlonums.flo w d → Delimited rest →
    ReadsToken noFlonums .nil w d rest := by
  intro hall
  have hbody : RegexBody (runes "a") := .rune (by decide) (by decide) .nil
  have hflags : ([] : List Nat) ∈ flagTexts := by decide
  exact regexp_not_readsToken hbody hflags delimited_paren
    (hall _ _ _ (.regexp hbody hflags) delimited_paren)

end Arcueid.Reader
