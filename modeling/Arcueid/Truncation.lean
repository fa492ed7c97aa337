import Arcueid.SymbolRead

/-! How a text ends for the scanners of the reader, and what each of them makes of
a text that is cut there. -/

namespace Arcueid.Reader

open Outcome Utf Numeral

variable {F : Type}

section Lexing

/-- Where a token stands: as the first element of a list, elsewhere, or behind
`#\`. -/
inductive Place where
  | first
  | plain
  | char
  deriving DecidableEq

/-- What has been begun, reading a text from left to right. Between the elements,
`first` says that none has come since the last left paren. -/
inductive Lex where
  | between (first : Bool)
  | comment (first : Bool)
  | comma
  | string (state : StrState)
  | hash
  | hashBackslash
  | token (place : Place) (state : SymState) (buf : List Nat)

/-- A rune between elements that begins no token. -/
def stepOpening (first : Bool) (c : Nat) : Option Lex :=
  if ucisspace c then some (.between first)
  else if c = '('.toNat then some (.between true)
  else if c = ')'.toNat ∨ c = '['.toNat ∨ c = ']'.toNat ∨ c = '\''.toNat ∨ c = '`'.toNat then
    some (.between false)
  else if c = ','.toNat then some .comma
  else if c = '"'.toNat then some (.string .normal)
  else if c = '#'.toNat then some .hash
  else if c = ';'.toNat then some (.comment first)
  else none

def stepToken (place : Place) (state : SymState) (buf : List Nat) (c : Nat) : Lex :=
  if state = .sawR ∧ c = '/'.toNat then .token place .regex []
  else match nextState state c with
  | .regex =>
    if c = '/'.toNat then .token place (.regexFlags false false) buf
    else .token place (if c = '\\'.toNat then .regexEscape else .regex) (buf ++ [c])
  | .regexEscape => .token place .regex (buf ++ [c])
  | .regexFlags casefold multiline =>
    if c = 'i'.toNat ∧ casefold = false then .token place (.regexFlags true multiline) buf
    else if c = 'm'.toNat ∧ multiline = false then .token place (.regexFlags casefold true) buf
    else .between false
  | state =>
    if c = Runeerror then .between false
    else if !issym c then (stepOpening false c).getD (.between false)
    else .token place state (buf ++ [c])

def stepString (state : StrState) (c : Nat) : Lex :=
  match state with
  | .normal =>
    if c = '"'.toNat then .between false
    else if c = '\\'.toNat then .string .escape
    else .string .normal
  | .escape => if c = 'U'.toNat ∨ c = 'u'.toNat then .string (.unicode 0 0) else .string .normal
  | .unicode escrune digcount =>
    if digcount ≥ 5 then
      if c = '"'.toNat then .between false
      else if c = '\\'.toNat then .string .escape
      else .string .normal
    else match hexDigit c with
      | some digval => .string (.unicode (escrune * 16 + digval) (digcount + 1))
      | none => .string .normal

def stepBetween (first : Bool) (c : Nat) : Lex :=
  (stepOpening first c).getD (stepToken (if first then .first else .plain) .start [] c)

def Lex.step : Lex → Nat → Lex
  | .between first, c => stepBetween first c
  | .comment first, c => if c = Runeerror ∨ ucisnl c then .between first else .comment first
  | .comma, c => if c = '@'.toNat then .between false else stepBetween false c
  | .string state, c => stepString state c
  | .hash, _ => .hashBackslash
  | .hashBackslash, c => if !issym c then .between false else stepToken .char .start [] c
  | .token place state buf, c => stepToken place state buf c

def lex (l : Lex) (u : List Nat) : Lex := u.foldl Lex.step l

/-- What comes of what has been begun at the end of a text: nothing, an error, the
end of the program, or a dot without a list before it. -/
inductive End where
  | quiet
  | error
  | crash
  | dot
  deriving DecidableEq

def tokenEnding (flo : Flonums F) (place : Place) (state : SymState) (buf : List Nat) : End :=
  match state with
  | .regex | .regexFlags _ _ => .error
  | .regexEscape => .crash
  | .start | .sawR | .symbol =>
    if place = .char then if (charOfToken buf).isSome then .quiet else .error
    else if buf = runes "." then if place = .first then .dot else .quiet
    else match string2num flo buf with
      | .error _ => .error
      | .ok _ => .quiet

def Lex.ending (flo : Flonums F) : Lex → End
  | .between _ | .comment _ => .quiet
  | .comma | .string _ | .hash | .hashBackslash => .error
  | .token place state buf => tokenEnding flo place state buf

end Lexing

section Steps

variable {c : Nat}

@[simp] theorem lex_nil (l : Lex) : lex l [] = l := rfl

@[simp] theorem lex_cons (l : Lex) (c : Nat) (u : List Nat) : lex l (c :: u) = lex (l.step c) u := rfl

theorem step_blank (hspace : ucisspace c = true) (first : Bool) :
    Lex.step (.between first) c = .between first := by
  rw [Lex.step, stepBetween, stepOpening, if_pos hspace]
  rfl

/-- A rune that ends a token is read again between elements. -/
theorem stepOpening_of_not_issym (hc : issym c = false) (l : Lex) :
    (stepOpening false c).getD l = stepBetween false c := by
  have hsome : (stepOpening false c).isSome = true := by
    by_cases hspace : ucisspace c = true
    · rw [stepOpening, if_pos hspace]
      rfl
    · have hmem : c ∈ runes "()';[]" := by
        simpa [issym, hspace, List.contains_eq_mem] using hc
      have hall : ∀ d ∈ runes "()';[]", (stepOpening false d).isSome = true := by decide
      exact hall c hmem
  obtain ⟨l', hl'⟩ := Option.isSome_iff_exists.mp hsome
  rw [stepBetween, hl']
  rfl

end Steps

section Tracking

variable {α β : Type}

/-- A port in front of `u` that holds nothing back. -/
def Clean (p : Port) (u : List Nat) : Prop := p = instring u

theorem Clean.at {p : Port} {u : List Nat} (h : Clean p u) : At p u := by
  rw [h]
  exact .clean u

/-- Where `x` reads a text to some point, it does the same on every beginning of
the text that goes as far, and what was begun goes from `l` to `after`. On a
shorter one, `cut` tells what was begun and what `x` does. -/
def Tracks (ready : Port → List Nat → Prop) (x : ReadM α) (l after : Lex)
    (cut : Lex → Except Stop (α × Port) → Prop) : Prop :=
  ∀ u s p q a p', ready p (u ++ s) → ready q u → Yields x p a p' →
    (∃ r q', At p' (r ++ s) ∧ Yields x q a q' ∧ At q' r ∧ lex l u = lex after r) ∨
      cut (lex l u) (x q)

namespace Tracks

variable {ready : Port → List Nat → Prop} {x : ReadM α} {f : α → ReadM β} {l mid after : Lex}
  {cut : Lex → Except Stop (α × Port) → Prop}
  {cut' : Lex → Except Stop (β × Port) → Prop}

theorem clean (h : Tracks At x l mid cut) : Tracks Clean x l mid cut :=
  fun u s p q a p' hp hq hx => h u s p q a p' hp.at hq.at hx

theorem mono {cut₂ : Lex → Except Stop (α × Port) → Prop} (h : Tracks ready x l mid cut)
    (hcut : ∀ L res, cut L res → cut₂ L res) : Tracks ready x l mid cut₂ :=
  fun u s p q a p' hp hq hx => (h u s p q a p' hp hq hx).imp_right (hcut _ _)

theorem pure {a : α} : Tracks At (Pure.pure a) l l cut := by
  intro u s p q b p' hp hq hx
  obtain ⟨rfl, rfl⟩ := yields_pure_iff.mp hx
  exact .inl ⟨u, q, hp, yields_pure, hq, rfl⟩

theorem lift {r : Except Stop α} : Tracks At (liftM r) l l cut := by
  intro u s p q a p' hp hq hx
  obtain ⟨hr, rfl⟩ := yields_lift_iff.mp hx
  exact .inl ⟨u, q, hp, yields_lift_iff.mpr ⟨hr, rfl⟩, hq, rfl⟩

theorem never (h : ∀ p a p', ¬ Yields x p a p') : Tracks ready x l mid cut :=
  fun _ _ p _ a p' _ _ hx => absurd hx (h p a p')

theorem throw {stop : Stop} : Tracks ready (MonadExcept.throw stop) l mid cut :=
  never fun _ _ _ => not_yields_throw

theorem throw_bind {stop : Stop} : Tracks ready (MonadExcept.throw stop >>= f) l after cut' := by
  refine never fun p b p' hy => ?_
  obtain ⟨a, p₁, hx, -⟩ := yields_bind hy
  exact not_yields_throw hx

theorem bind (hx : Tracks ready x l mid cut) (hf : ∀ a, Tracks At (f a) mid after cut')
    (hcut : ∀ L q, cut L (x q) → cut' L ((x >>= f) q)) : Tracks ready (x >>= f) l after cut' := by
  intro u s p q b p' hp hq hy
  obtain ⟨a, p₁, hxp, hfp⟩ := yields_bind hy
  rcases hx u s p q a p₁ hp hq hxp with ⟨r, q₁, hp₁, hxq, hq₁, hlex⟩ | hc
  · have hrun : (x >>= f) q = f a q₁ := bind_of_ok hxq
    rcases hf a r s p₁ q₁ b p' hp₁ hq₁ hfp with ⟨r', q', hp', hfq, hq', hlex'⟩ | hc
    · exact .inl ⟨r', q', hp', hrun.trans hfq, hq', hlex.trans hlex'⟩
    · rw [hlex, hrun]
      exact .inr hc
  · exact .inr (hcut _ q hc)

theorem readc_bind {f : Option Nat → ReadM β} (hsome : ∀ c, Tracks Clean (f (some c)) (l.step c) after cut')
    (hnone : cut' l (f none (instring []))) : Tracks At (readc >>= f) l after cut' := by
  intro u s p q b p' hp hq hy
  cases u with
  | nil =>
    rw [bind_of_ok hq.readc_nil]
    exact .inr hnone
  | cons c u =>
    rw [Yields, bind_of_ok hp.readc_cons] at hy
    have hrun : (readc >>= f) q = f (some c) (instring u) := bind_of_ok hq.readc_cons
    simp only [Yields, hrun]
    exact hsome c u s _ _ b p' rfl rfl hy

theorem readc1_bind {f : Nat → ReadM β} (hsome : ∀ c, Tracks Clean (f c) (l.step c) after cut')
    (hnone : cut' l (.error (.error "unexpected end of source"))) :
    Tracks At (readc1 >>= f) l after cut' := by
  intro u s p q b p' hp hq hy
  cases u with
  | nil =>
    rw [bind_of_error hq.readc1_nil]
    exact .inr hnone
  | cons c u =>
    rw [Yields, bind_of_ok hp.readc1_cons] at hy
    have hrun : (readc1 >>= f) q = f c (instring u) := bind_of_ok hq.readc1_cons
    simp only [Yields, hrun]
    exact hsome c u s _ _ b p' rfl rfl hy

/-- A rune that is given back is read again. -/
theorem ungetc_bind {c : Nat} (hx : Tracks At x l mid cut) :
    Tracks Clean (ungetc c >>= fun _ => x) (l.step c) mid cut := by
  rintro u s p q a p' rfl rfl hy
  rw [Yields, bind_of_ok ungetc_instring] at hy
  have hrun : (ungetc c >>= fun _ => x) (instring u) = x (arcUngetcRune c (instring u)) :=
    bind_of_ok ungetc_instring
  simp only [Yields, hrun]
  exact hx (c :: u) s _ _ a p' (.pushed c (u ++ s)) (.pushed c u) hy

theorem scan_bind {f : Option Nat → ReadM β} {first : Bool}
    (hsome : ∀ c, ucisspace c = false → Tracks Clean (f (some c)) (stepBetween first c) after cut')
    (hnone : cut' (.between first) (f none (instring []))) (n : Nat) :
    Tracks At (scan n >>= f) (.between first) after cut' := by
  induction n with
  | zero =>
    intro u s p q b p' _ _ hy
    obtain ⟨a, p₁, hscan, -⟩ := yields_bind hy
    exact absurd hscan not_yields_throw
  | succ n ih =>
    rw [scan, bind_assoc]
    refine readc_bind (fun c => ?_) hnone
    by_cases hspace : ucisspace c = true
    · simp only [if_pos hspace, step_blank hspace]
      exact ih.clean
    · simp only [if_neg hspace, pure_bind]
      exact hsome c (by simpa using hspace)

end Tracks

end Tracking

section Scanners

variable {n : Nat} {state : SymState} {place : Place} {buf : List Nat}

theorem readComment_tracks (first : Bool) : Tracks At (readComment n) (.comment first) (.between first)
    fun L res => L = .comment first ∧ res = .ok ((), instring []) := by
  induction n with
  | zero => exact Tracks.throw
  | succ n ih =>
    rw [readComment]
    refine Tracks.readc_bind (fun c => ?_) ⟨rfl, rfl⟩
    simp only [Option.getD_some, Lex.step]
    by_cases herr : c = Runeerror
    · simp only [herr, if_true, true_or]
      exact Tracks.pure.clean
    · by_cases hnl : ucisnl c = true
      · simp only [herr, hnl, if_false, if_true, or_true]
        exact Tracks.pure.clean
      · simp only [herr, hnl, if_false]
        exact ih.clean

theorem readString_tracks {state : StrState} : Tracks At (readString n state buf) (.string state) (.between false)
    fun L res => (∃ state', L = .string state') ∧ res = .error (.error "unexpected end of source") := by
  induction n generalizing state buf with
  | zero => exact Tracks.throw
  | succ n ih =>
    rw [readString]
    refine Tracks.readc1_bind (fun c => ?_) ⟨⟨state, rfl⟩, rfl⟩
    cases state with
    | normal =>
      simp only [Lex.step, stepString]
      split_ifs
      · exact Tracks.pure.clean
      · exact ih.clean
      · exact ih.clean
    | escape =>
      simp only [Lex.step, stepString]
      split_ifs
      · exact ih.clean
      · cases escapeCode c with
        | some r => exact ih.clean
        | none => exact Tracks.throw
    | unicode escrune digcount =>
      by_cases hlong : digcount ≥ 5
      · have hstep : Lex.step (.string (.unicode escrune digcount)) c = Lex.step (.string .normal) c := by
          simp only [Lex.step, stepString, if_pos hlong]
        simp only [if_pos hlong, hstep]
        exact Tracks.ungetc_bind ih
      · simp only [Lex.step, stepString, if_neg hlong]
        cases hexDigit c with
        | some digval => exact ih.clean
        | none => exact Tracks.throw

/-- Within a regular expression. -/
def SymState.InRegex : SymState → Prop
  | .regex | .regexEscape | .regexFlags _ _ => True
  | _ => False

/-- A token that is cut: `getsymbol` is in the state it has come to, at the end. -/
def TokenCut (place : Place) (state : SymState) (L : Lex) (res : Except Stop (Token × Port)) : Prop :=
  ∃ state' buf', L = .token place state' buf' ∧ (state.InRegex → state'.InRegex) ∧
    ∃ n, res = getsymbol (n + 1) state' buf' (instring [])

theorem finishToken_tracks {cut : Lex → Except Stop (Token × Port) → Prop} :
    Tracks At (finishToken state buf) (.between false) (.between false) cut := by
  cases state with
  | symbol => exact Tracks.pure
  | regexFlags casefold multiline => exact Tracks.pure
  | _ => exact Tracks.throw

theorem nextState_of_inRegex (h : state.InRegex) (c : Nat) : nextState state c = state := by
  cases state with
  | start => exact h.elim
  | sawR => exact h.elim
  | symbol => exact h.elim
  | _ => rfl

theorem getsymbol_tracks : Tracks At (getsymbol n state buf) (.token place state buf) (.between false)
    (TokenCut place state) := by
  induction n generalizing state buf with
  | zero => exact Tracks.throw
  | succ n ih =>
    have hkeep : ∀ {state' : SymState} {buf' : List Nat}, (state.InRegex → state'.InRegex) →
        Tracks Clean (getsymbol n state' buf') (.token place state' buf') (.between false)
          (TokenCut place state) := by
      intro state' buf' hregex
      refine (ih.mono ?_).clean
      rintro L res ⟨state'', buf'', hL, hin, hres⟩
      exact ⟨state'', buf'', hL, fun h => hin (hregex h), hres⟩
    rw [getsymbol]
    have hend : ∀ {f : Option Nat → ReadM Token}, getsymbol (n + 1) state buf = (readc >>= f) →
        TokenCut place state (.token place state buf) (f none (instring [])) := by
      rintro f hf
      refine ⟨state, buf, rfl, id, n, ?_⟩
      rw [hf, bind_of_ok (At.clean []).readc_nil]
    refine Tracks.readc_bind (fun c => ?_) (hend (by rw [getsymbol]))
    simp only [Option.getD_some, Lex.step, stepToken]
    by_cases hslash : state = .sawR ∧ c = '/'.toNat
    · simp only [if_pos hslash]
      exact hkeep fun _ => trivial
    simp only [if_neg hslash]
    have hplain : ∀ {state' : SymState}, nextState state c = state' → ¬ state'.InRegex →
        (state.InRegex → state'.InRegex) := by
      rintro state' hnext hnot hin
      rw [nextState_of_inRegex hin] at hnext
      exact absurd (hnext ▸ hin) hnot
    cases hnext : nextState state c with
    | regex =>
      simp only
      by_cases hclose : c = '/'.toNat
      · simp only [if_pos hclose]
        exact hkeep fun _ => trivial
      · by_cases herr : c = Runeerror
        · simp only [if_neg hclose, if_pos herr]
          exact Tracks.throw
        · simp only [if_neg hclose, if_neg herr]
          refine hkeep fun _ => ?_
          split <;> trivial
    | regexEscape => exact hkeep fun _ => trivial
    | regexFlags casefold multiline =>
      simp only
      split_ifs
      · exact hkeep fun _ => trivial
      · exact hkeep fun _ => trivial
      · exact Tracks.throw
      · exact finishToken_tracks.clean
      · exact Tracks.throw
    | _ =>
      simp only
      split_ifs with herr hsym
      · exact finishToken_tracks.clean
      · rw [stepOpening_of_not_issym (by simpa using hsym)]
        exact Tracks.ungetc_bind finishToken_tracks
      · exact hkeep (hplain hnext fun h => h)

end Scanners

section Tokens

variable {n : Nat} {place : Place} {l : Lex} {flo : Flonums F}

/-- The reader raises an error. -/
def Refuses (res : Except Stop (Datum F × Port)) : Prop := ∃ msg, res = .error (.error msg)

/-- What a reader does at the end of a text that ends in `L`. -/
def Ends (flo : Flonums F) (L : Lex) (res : Except Stop (Datum F × Port)) (quiet dot : Prop) : Prop :=
  match L.ending flo with
  | .quiet => quiet
  | .error => Refuses res
  | .crash => res = .error .undefined
  | .dot => dot

theorem Ends.imp {L : Lex} {res : Except Stop (Datum F × Port)} {quiet quiet' dot dot' : Prop}
    (h : Ends flo L res quiet dot) (hquiet : quiet → quiet') (hdot : dot → dot') :
    Ends flo L res quiet' dot' := by
  rw [Ends] at h ⊢
  cases hend : L.ending flo with
  | quiet =>
    rw [hend] at h
    exact hquiet h
  | dot =>
    rw [hend] at h
    exact hdot h
  | error =>
    rw [hend] at h
    exact h
  | crash =>
    rw [hend] at h
    exact h

/-- At the end of the source, in a state of its own. -/
theorem getsymbol_end (state : SymState) (buf : List Nat) :
    (state = .regexEscape ∧ getsymbol (n + 1) state buf (instring []) = .error .undefined) ∨
    (state.InRegex ∧ state ≠ .regexEscape ∧
      ∃ msg, getsymbol (n + 1) state buf (instring []) = .error (.error msg)) ∨
    (¬ state.InRegex ∧ getsymbol (n + 1) state buf (instring []) = .ok (.text buf, instring [])) := by
  rw [getsymbol, bind_of_ok (At.clean []).readc_nil]
  cases state with
  | start => exact .inr (.inr ⟨fun h => h, rfl⟩)
  | sawR => exact .inr (.inr ⟨fun h => h, rfl⟩)
  | symbol => exact .inr (.inr ⟨fun h => h, rfl⟩)
  | regex => exact .inr (.inl ⟨trivial, SymState.noConfusion, _, rfl⟩)
  | regexEscape => exact .inl ⟨rfl, rfl⟩
  | regexFlags casefold multiline => exact .inr (.inl ⟨trivial, SymState.noConfusion, _, rfl⟩)

/-- What the end of the source makes of a token, by its state. -/
theorem TokenCut.cases {state : SymState} {L : Lex} {res : Except Stop (Token × Port)}
    (h : TokenCut place state L res) :
    (L.ending flo = .crash ∧ res = .error .undefined) ∨
    (L.ending flo = .error ∧ ∃ msg, res = .error (.error msg)) ∨
    ∃ state' buf, L = .token place state' buf ∧ ¬ state.InRegex ∧ ¬ state'.InRegex ∧
      res = .ok (.text buf, instring []) := by
  obtain ⟨state', buf, rfl, hin, n, rfl⟩ := h
  rcases getsymbol_end (n := n) state' buf with ⟨rfl, hres⟩ | ⟨hregex, hne, hres⟩ | ⟨hplain, hres⟩
  · exact .inl ⟨rfl, hres⟩
  · refine .inr (.inl ⟨?_, hres⟩)
    cases state' with
    | regex => rfl
    | regexFlags casefold multiline => rfl
    | regexEscape => exact absurd rfl hne
    | _ => exact hregex.elim
  · exact .inr (.inr ⟨state', buf, rfl, fun h => hplain (hin h), hplain, hres⟩)

theorem ending_of_text {state : SymState} {buf : List Nat} (h : ¬ state.InRegex) :
    Lex.ending flo (.token place state buf) =
      if place = .char then if (charOfToken buf).isSome then .quiet else .error
      else if buf = runes "." then if place = .first then .dot else .quiet
      else match string2num flo buf with
        | .error _ => .error
        | .ok _ => .quiet := by
  cases state with
  | start => rfl
  | sawR => rfl
  | symbol => rfl
  | _ => exact absurd trivial h

theorem readChar_tracks (flo : Flonums F) : Tracks At (readChar (F := F) n) .hash (.between false)
    fun L res => Ends flo L res (∃ r, res = .ok (.char r, instring [])) False := by
  rw [readChar]
  refine Tracks.readc1_bind (fun c => ?_) ⟨_, rfl⟩
  by_cases hback : c ≠ '\\'.toNat
  · simp only [if_pos hback]
    exact Tracks.throw_bind
  simp only [if_neg hback]
  refine (Tracks.readc1_bind (fun d => ?_) ⟨_, rfl⟩).clean
  by_cases hsym : (!issym d) = true
  · simp only [Lex.step, if_pos hsym]
    exact Tracks.pure.clean
  have hstep : Lex.step (Lex.step .hash c) d = Lex.step (.token .char .start []) d := by
    simp only [Lex.step, if_neg hsym]
  simp only [if_neg hsym, hstep]
  refine Tracks.ungetc_bind (Tracks.bind getsymbol_tracks (fun tok => ?_) fun L q hcut => ?_)
  · cases tok with
    | regexp rx casefold multiline => exact Tracks.throw
    | text tok =>
      simp only
      cases charOfToken tok with
      | some r => exact Tracks.pure
      | none => exact Tracks.throw
  · rw [Ends]
    rcases hcut.cases with ⟨hend, hres⟩ | ⟨hend, msg, hres⟩ | ⟨state', buf, rfl, -, hplain, hres⟩
    · rw [hend]
      exact bind_of_error hres
    · rw [hend]
      exact ⟨msg, bind_of_error hres⟩
    · rw [ending_of_text hplain, if_pos rfl, bind_of_ok hres]
      simp only
      cases charOfToken buf with
      | some r => exact ⟨r, rfl⟩
      | none => exact ⟨_, rfl⟩

theorem intern_ne_sDot {name : List Nat} (h : name ≠ runes ".") : (intern name : Datum F) ≠ sDot := by
  rw [intern]
  split
  · intro heq
    cases heq
  · intro heq
    exact h (Datum.symbol.inj heq)

/-- In a regular expression no text is taken for a datum. -/
theorem symbol_tracks (flo : Flonums F) (hplace : place ≠ .char) : ∃ G : Token → ReadM (Datum F),
    (∀ n, readSymbol flo n = getsymbol n .start [] >>= G) ∧ ∀ n state buf,
      Tracks At (getsymbol n state buf >>= G) (.token place state buf) (.between false)
        fun L res => Ends flo L res
          (¬ state.InRegex ∧ ∃ v, res = .ok (v, instring []) ∧ (place = .first → v ≠ sDot))
          (¬ state.InRegex ∧ place = .first ∧ res = .ok (sDot, instring [])) := by
  refine ⟨_, fun n => by rw [readSymbol], fun n state buf => ?_⟩
  refine Tracks.bind getsymbol_tracks (fun tok => ?_) fun L q hcut => ?_
  · cases tok with
    | regexp rx casefold multiline => exact Tracks.pure
    | text sym =>
      simp only
      split_ifs
      · exact Tracks.pure
      · cases string2num flo sym with
        | error msg => exact Tracks.throw
        | ok num =>
          cases num with
          | none => exact Tracks.pure
          | some num => exact Tracks.pure
  · rw [Ends]
    rcases hcut.cases with ⟨hend, hres⟩ | ⟨hend, msg, hres⟩ | ⟨state', buf, rfl, hregex, hplain, hres⟩
    · rw [hend]
      exact bind_of_error hres
    · rw [hend]
      exact ⟨msg, bind_of_error hres⟩
    · rw [ending_of_text hplain, if_neg hplace, bind_of_ok hres]
      simp only
      by_cases hdot : buf = runes "."
      · simp only [if_pos hdot]
        by_cases hfirst : place = .first
        · rw [if_pos hfirst]
          exact ⟨hregex, hfirst, rfl⟩
        · rw [if_neg hfirst]
          exact ⟨hregex, sDot, rfl, fun h => absurd h hfirst⟩
      · simp only [if_neg hdot]
        cases string2num flo buf with
        | error msg => exact ⟨_, rfl⟩
        | ok num =>
          cases num with
          | none => exact ⟨hregex, _, rfl, fun _ => intern_ne_sDot hdot⟩
          | some num => exact ⟨hregex, _, rfl, fun _ h => by cases h⟩

end Tokens

end Arcueid.Reader
