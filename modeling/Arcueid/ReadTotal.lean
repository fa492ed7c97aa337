import Arcueid.Lib.Bounded
import Arcueid.SymbolRead

/-! The reader ends on every string: how far each of its functions reads, and that
a bound on the runes is a bound on the steps. -/

namespace Arcueid.Reader

open Outcome Bounded Utf

variable {F α β : Type} {n : Nat} {p p' : Port} {c : Nat} {cs : List Nat}

/-- The bound suffices, and every outcome meets `Q`. -/
structure Settles (x : ReadM α) (p : Port) (Q : α → Port → Prop) : Prop where
  enough : Enough .fuel x p
  ensures : Ensures x p Q

namespace Settles

variable {x : ReadM α} {f : α → ReadM β} {Q R : α → Port → Prop} {P : β → Port → Prop}

theorem pure {a : α} (h : Q a p) : Settles (Pure.pure a : ReadM α) p Q :=
  ⟨Enough.pure a p, Ensures.pure h⟩

theorem throw {stop : Stop} (h : stop ≠ .fuel) : Settles (MonadExcept.throw stop : ReadM α) p Q :=
  ⟨Enough.throw h p, Ensures.throw⟩

theorem bind (hx : Settles x p Q) (hf : ∀ a p', Q a p' → Settles (f a) p' P) :
    Settles (x >>= f) p P :=
  ⟨Enough.bind hx.enough fun a p' h => (hf a p' (hx.ensures a p' h)).enough,
    Ensures.bind hx.ensures fun a p' h => (hf a p' h).ensures⟩

theorem mono (hx : Settles x p Q) (hQR : ∀ a p', Q a p' → R a p') : Settles x p R :=
  ⟨hx.enough, hx.ensures.mono hQR⟩

theorem of_ok {a : α} (h : x p = .ok (a, p')) (hf : Settles (f a) p' P) : Settles (x >>= f) p P := by
  refine ⟨?_, ?_⟩
  · rw [Enough, bind_of_ok h]
    exact hf.enough
  · intro b p'' hy
    rw [Yields, bind_of_ok h] at hy
    exact hf.ensures b p'' hy

theorem of_error {stop : Stop} (h : x p = .error stop) (hne : stop ≠ .fuel) :
    Settles (x >>= f) p P := by
  refine ⟨?_, ?_⟩
  · rw [Enough, bind_of_error h]
    exact fun heq => hne (Except.error.inj heq)
  · intro b p'' hy
    rw [Yields, bind_of_error h] at hy
    cases hy

end Settles

section Tokens

/-- The port stands in front of the rest of `cs`. -/
def Left (cs : List Nat) (p' : Port) : Prop := ∃ t, At p' t ∧ t <:+ cs

theorem left_of_suffix {t : List Nat} (hp : At p' t) (ht : t <:+ cs) : Left cs p' := ⟨t, hp, ht⟩

theorem Left.cons (h : Left cs p') (c : Nat) : Left (c :: cs) p' := by
  obtain ⟨t, ht, hsuf⟩ := h
  exact ⟨t, ht, hsuf.trans (List.suffix_cons c cs)⟩

/-- What `scan` finds: the end, or a rune that is no space. -/
def Scanned (cs : List Nat) (r : Option Nat) (p' : Port) : Prop :=
  r = none ∧ p' = instring [] ∨
    ∃ c t, r = some c ∧ p' = instring t ∧ c :: t <:+ cs ∧ ucisspace c = false

theorem scan_settles (hp : At p cs) (hn : cs.length < n) : Settles (scan n) p (Scanned cs) := by
  induction n generalizing p cs with
  | zero => omega
  | succ n ih =>
    rw [scan]
    cases cs with
    | nil => exact Settles.of_ok hp.readc_nil (Settles.pure (.inl ⟨rfl, rfl⟩))
    | cons c cs =>
      refine Settles.of_ok hp.readc_cons ?_
      simp only
      have hlen : cs.length < n := by simpa using hn
      by_cases hspace : ucisspace c = true
      · rw [if_pos hspace]
        refine (ih (.clean cs) hlen).mono ?_
        rintro r p' (hend | ⟨d, t, hr, ht, hsuf, hd⟩)
        · exact .inl hend
        · exact .inr ⟨d, t, hr, ht, hsuf.trans (List.suffix_cons c cs), hd⟩
      · rw [if_neg hspace]
        exact Settles.pure (.inr ⟨c, cs, rfl, rfl, List.suffix_rfl, by simpa using hspace⟩)

theorem readComment_settles (hp : At p cs) (hn : cs.length < n) :
    Settles (readComment n) p fun _ p' => Left cs p' := by
  induction n generalizing p cs with
  | zero => omega
  | succ n ih =>
    rw [readComment]
    cases cs with
    | nil => exact Settles.of_ok hp.readc_nil (Settles.pure ⟨[], .clean [], List.suffix_rfl⟩)
    | cons c cs =>
      refine Settles.of_ok hp.readc_cons ?_
      have hlen : cs.length < n := by simpa using hn
      have hdone : Left (c :: cs) (instring cs) := ⟨cs, .clean cs, List.suffix_cons c cs⟩
      simp only [Option.getD_some]
      by_cases herror : c = Runeerror
      · rw [if_pos herror]
        exact Settles.pure hdone
      · rw [if_neg herror]
        by_cases hnl : ucisnl c = true
        · rw [if_pos hnl]
          exact Settles.pure hdone
        · rw [if_neg hnl]
          exact (ih (.clean cs) hlen).mono fun _ _ h => h.cons c

/-- A token is made of the runes that were read. -/
def TokenFrom (buf cs : List Nat) (tok : Token) (p' : Port) : Prop :=
  Left cs p' ∧ ∀ s, tok = .text s → ∀ r ∈ s, r ∈ buf ∨ r ∈ cs

theorem finishToken_settles {state : SymState} {buf : List Nat} (hp : Left cs p) :
    Settles (finishToken state buf) p (TokenFrom buf cs) := by
  have htext : TokenFrom buf cs (.text buf) p := by
    refine ⟨hp, ?_⟩
    rintro s hs r hr
    cases hs
    exact .inl hr
  cases state with
  | symbol => exact Settles.pure htext
  | regexFlags casefold multiline => exact Settles.pure ⟨hp, fun s hs => by cases hs⟩
  | _ => exact Settles.throw Stop.noConfusion

variable {buf buf' : List Nat} {tok : Token}

theorem TokenFrom.cons (h : TokenFrom buf' cs tok p') (hbuf : ∀ r ∈ buf', r ∈ buf ∨ r = c) :
    TokenFrom buf (c :: cs) tok p' := by
  refine ⟨h.1.cons c, ?_⟩
  intro s hs r hr
  rcases h.2 s hs r hr with hr | hr
  · rcases hbuf r hr with hr | rfl
    · exact .inl hr
    · exact .inr List.mem_cons_self
  · exact .inr (List.mem_cons_of_mem _ hr)

theorem getsymbol_settles {state : SymState} (hp : At p cs) (hn : cs.length < n) :
    Settles (getsymbol n state buf) p (TokenFrom buf cs) := by
  induction n generalizing p cs state buf with
  | zero => omega
  | succ n ih =>
    rw [getsymbol]
    cases cs with
    | nil =>
      have hleft : Left [] (instring []) := ⟨[], .clean [], List.suffix_rfl⟩
      refine Settles.of_ok hp.readc_nil ?_
      have hslash : ¬ (state = .sawR ∧ Runeerror = '/'.toNat) := fun h => absurd h.2 (by decide)
      simp only [Option.getD_none, if_neg hslash]
      cases nextState state Runeerror with
      | regex => exact Settles.throw Stop.noConfusion
      | regexEscape => exact Settles.throw Stop.noConfusion
      | regexFlags casefold multiline => exact Settles.throw Stop.noConfusion
      | _ =>
        simp only [if_true]
        exact finishToken_settles hleft
    | cons c cs =>
      have hlen : cs.length < n := by simpa using hn
      have hleft : Left (c :: cs) (instring cs) := ⟨cs, .clean cs, List.suffix_cons c cs⟩
      have hkeep : ∀ {state : SymState} {buf' : List Nat}, (∀ r ∈ buf', r ∈ buf ∨ r = c) →
          Settles (getsymbol n state buf') (instring cs) (TokenFrom buf (c :: cs)) := fun hbuf =>
        (ih (.clean cs) hlen).mono fun _ _ h => h.cons hbuf
      have hsame : ∀ r ∈ buf, r ∈ buf ∨ r = c := fun r hr => .inl hr
      have hmore : ∀ r ∈ buf ++ [c], r ∈ buf ∨ r = c := fun r hr => by simpa using hr
      refine Settles.of_ok hp.readc_cons ?_
      simp only [Option.getD_some]
      by_cases hslash : state = .sawR ∧ c = '/'.toNat
      · rw [if_pos hslash]
        exact hkeep fun r hr => absurd hr List.not_mem_nil
      · rw [if_neg hslash]
        cases nextState state c with
        | regex =>
          simp only
          split_ifs
          · exact hkeep hsame
          · exact Settles.throw Stop.noConfusion
          · exact hkeep hmore
          · exact hkeep hmore
        | regexEscape => exact hkeep hmore
        | regexFlags casefold multiline =>
          simp only
          split_ifs
          · exact hkeep hsame
          · exact hkeep hsame
          · exact Settles.throw Stop.noConfusion
          · exact finishToken_settles hleft
          · exact Settles.throw Stop.noConfusion
        | _ =>
          simp only
          split_ifs
          · exact finishToken_settles hleft
          · refine Settles.of_ok ungetc_instring ?_
            exact finishToken_settles ⟨c :: cs, .pushed c cs, List.suffix_rfl⟩
          · exact hkeep hmore

theorem getsymbol_start (hp : At p (c :: cs)) (hc : issym c = true) (hn : cs.length + 1 < n) :
    Settles (getsymbol n .start []) p fun tok p' =>
      Left cs p' ∧ ∀ s, tok = .text s → ∀ r ∈ s, r ∈ c :: cs := by
  cases n with
  | zero => omega
  | succ n =>
    have hlen : cs.length < n := by omega
    have hstart : ¬ (SymState.start = .sawR ∧ c = '/'.toNat) := fun h => SymState.noConfusion h.1
    have hrest : ∀ state, Settles (getsymbol n state [c]) (instring cs) fun tok p' =>
        Left cs p' ∧ ∀ s, tok = .text s → ∀ r ∈ s, r ∈ c :: cs := by
      intro state
      refine (getsymbol_settles (.clean cs) hlen).mono ?_
      rintro tok p' ⟨hleft, htext⟩
      refine ⟨hleft, fun s hs r hr => ?_⟩
      rcases htext s hs r hr with h | h
      · exact List.mem_cons.mpr (.inl (List.mem_singleton.mp h))
      · exact List.mem_cons_of_mem _ h
    have hdone : ∀ state, Settles (finishToken state []) (instring cs) fun tok p' =>
        Left cs p' ∧ ∀ s, tok = .text s → ∀ r ∈ s, r ∈ c :: cs := by
      intro state
      refine (finishToken_settles ⟨cs, .clean cs, List.suffix_rfl⟩).mono ?_
      rintro tok p' ⟨hleft, htext⟩
      refine ⟨hleft, fun s hs r hr => ?_⟩
      rcases htext s hs r hr with h | h
      · cases h
      · exact List.mem_cons_of_mem _ h
    rw [getsymbol]
    refine Settles.of_ok hp.readc_cons ?_
    simp only [Option.getD_some, if_neg hstart]
    by_cases hr : c = 'r'.toNat
    · have hnext : nextState .start c = .sawR := if_pos hr
      simp only [hnext, hc, Bool.not_true, Bool.false_eq_true, if_false]
      split_ifs
      · exact hdone _
      · exact hrest _
    · have hnext : nextState .start c = .symbol := if_neg hr
      simp only [hnext, hc, Bool.not_true, Bool.false_eq_true, if_false]
      split_ifs
      · exact hdone _
      · exact hrest _

end Tokens

section Atoms

/-- Runes still to come of an escape. -/
def StrState.pending : StrState → Nat
  | .unicode _ _ => 1
  | _ => 0

theorem readString_settles {state : StrState} {buf : List Nat} (hp : At p cs)
    (hn : 2 * cs.length + state.pending < n) :
    Settles (readString n state buf) p fun s p' =>
      Left cs p' ∧ s.length + 1 ≤ buf.length + cs.length + state.pending := by
  induction n generalizing p cs state buf with
  | zero => omega
  | succ n ih =>
    rw [readString]
    cases cs with
    | nil => exact Settles.of_error hp.readc1_nil Stop.noConfusion
    | cons c cs =>
      have hlen : 2 * cs.length + 2 + state.pending < n + 1 := by
        simpa [Nat.mul_add] using hn
      have hleft : Left (c :: cs) (instring cs) := ⟨cs, .clean cs, List.suffix_cons c cs⟩
      have hkeep : ∀ {state' : StrState} {buf' : List Nat},
          buf'.length + state'.pending ≤ buf.length + state.pending + 1 →
          Settles (readString n state' buf') (instring cs) fun s p' =>
            Left (c :: cs) p' ∧ s.length + 1 ≤ buf.length + (c :: cs).length + state.pending := by
        intro state' buf' hbuf
        have hpending : state'.pending ≤ 1 := by
          cases state' <;> simp [StrState.pending]
        refine (ih (.clean cs) (by omega)).mono ?_
        rintro s p' ⟨hrest, hs⟩
        refine ⟨hrest.cons c, ?_⟩
        rw [List.length_cons]
        omega
      refine Settles.of_ok hp.readc1_cons ?_
      cases state with
      | normal =>
        simp only
        split_ifs
        · refine Settles.pure ⟨hleft, ?_⟩
          simp [StrState.pending]
        · exact hkeep (by simp [StrState.pending])
        · exact hkeep (by simp [StrState.pending])
      | escape =>
        simp only
        split_ifs
        · exact hkeep (by simp [StrState.pending])
        · cases escapeCode c with
          | some r => exact hkeep (by simp [StrState.pending])
          | none => exact Settles.throw Stop.noConfusion
      | unicode escrune digcount =>
        simp only
        split_ifs
        · refine Settles.of_ok ungetc_instring ?_
          have hfuel : 2 * (c :: cs).length + StrState.normal.pending < n := by
            simp only [StrState.pending, List.length_cons] at hlen ⊢
            omega
          refine (ih (.pushed c cs) hfuel).mono ?_
          rintro s p' ⟨hrest, hs⟩
          refine ⟨hrest, ?_⟩
          simp only [StrState.pending, List.length_append, List.length_cons, List.length_nil] at hs ⊢
          omega
        · cases hexDigit c with
          | some digval => exact hkeep (by simp [StrState.pending])
          | none => exact Settles.throw Stop.noConfusion

/-- No symbol but what stands in the text. -/
def SymbolFrom (cs : List Nat) (x : Datum F) : Prop := ∀ m, x = .symbol m → ∀ r ∈ m, r ∈ cs

theorem SymbolFrom.mono {cs' : List Nat} {x : Datum F} (h : SymbolFrom cs x) (hsub : ∀ r ∈ cs, r ∈ cs') :
    SymbolFrom cs' x := fun m hm r hr => hsub r (h m hm r hr)

theorem readChar_settles (hp : At p cs) (hn : cs.length < n) :
    Settles (readChar (F := F) n) p fun x p' => Left cs p' ∧ SymbolFrom cs x := by
  rw [readChar]
  cases cs with
  | nil => exact Settles.of_error hp.readc1_nil Stop.noConfusion
  | cons c cs =>
    refine Settles.of_ok hp.readc1_cons ?_
    by_cases hslash : c ≠ '\\'.toNat
    · rw [if_pos hslash]
      exact Settles.throw Stop.noConfusion
    · rw [if_neg hslash]
      cases cs with
      | nil => exact Settles.of_error (At.clean []).readc1_nil Stop.noConfusion
      | cons d cs =>
        refine Settles.of_ok (At.clean _).readc1_cons ?_
        have hleft : Left (c :: d :: cs) (instring cs) :=
          ⟨cs, .clean cs, (List.suffix_cons d cs).trans (List.suffix_cons c _)⟩
        have hchar : ∀ r : Nat, SymbolFrom (c :: d :: cs) (Datum.char r : Datum F) := by
          intro r m hm
          cases hm
        by_cases hsym : (!issym d) = true
        · rw [if_pos hsym]
          exact Settles.pure ⟨hleft, hchar d⟩
        · rw [if_neg hsym]
          refine Settles.of_ok ungetc_instring ?_
          have hlen : (d :: cs).length < n := by
            rw [List.length_cons] at hn
            omega
          refine Settles.bind (getsymbol_settles (.pushed d cs) hlen) ?_
          rintro tok p' ⟨hrest, -⟩
          cases tok with
          | regexp => exact Settles.throw Stop.noConfusion
          | text tok =>
            simp only
            cases charOfToken tok with
            | some r => exact Settles.pure ⟨hrest.cons c, hchar r⟩
            | none => exact Settles.throw Stop.noConfusion

theorem readSymbol_settles (flo : Flonums F) (hp : At p (c :: cs)) (hc : issym c = true)
    (hn : cs.length + 1 < n) :
    Settles (readSymbol flo n) p fun x p' => Left cs p' ∧ SymbolFrom (c :: cs) x := by
  rw [readSymbol]
  refine Settles.bind (getsymbol_start hp hc hn) ?_
  rintro tok p' ⟨hleft, htext⟩
  cases tok with
  | regexp rx casefold multiline =>
    refine Settles.pure ⟨hleft, ?_⟩
    rintro m hm
    cases hm
  | text sym =>
    have hsym : ∀ r ∈ sym, r ∈ c :: cs := htext sym rfl
    simp only
    by_cases hdot : sym = runes "."
    · rw [if_pos hdot]
      refine Settles.pure ⟨hleft, ?_⟩
      rintro m hm
      cases hm
      rw [← hdot]
      exact hsym
    · rw [if_neg hdot]
      cases Numeral.string2num flo sym with
      | error msg => exact Settles.throw Stop.noConfusion
      | ok num =>
        cases num with
        | some num =>
          refine Settles.pure ⟨hleft, ?_⟩
          rintro m hm
          cases hm
        | none =>
          refine Settles.pure ⟨hleft, ?_⟩
          rintro m hm
          rw [intern] at hm
          split at hm
          · cases hm
          · cases hm
            exact hsym

end Atoms

section Readers

/-- The reader of strings with expressions ends on strings shorter than `l`. -/
def AtstringsSettle (e : ReadEnv F) (l : Nat) : Prop :=
  ∀ f, e.atstrings = some f → ∀ s, s.length < l → ∀ p, Settles (f s) p fun x p' =>
    p' = p ∧ ∀ m, x ≠ .symbol m

/-- Something is read, if there is anything. -/
def Progress (cs : List Nat) (p' : Port) : Prop :=
  ∃ t, At p' t ∧ t <:+ cs ∧ (cs = [] ∨ t.length < cs.length)

/-- What `arc_sread` leaves. -/
def SreadDone (eof : Datum F) (cs : List Nat) (x : Datum F) (p' : Port) : Prop :=
  Progress cs p' ∧ (x = eof ∨ SymbolFrom cs x)

/-- What the readers of compound forms leave. -/
def FormDone (eof : Datum F) (cs : List Nat) (x : Datum F) (p' : Port) : Prop :=
  Left cs p' ∧ (x = eof ∨ ∀ m, x ≠ .symbol m)

theorem FormDone.of_suffix {eof x : Datum F} {u cs : List Nat} {p' : Port} (hsuf : u <:+ cs)
    (h : FormDone eof u x p') : FormDone eof cs x p' := by
  obtain ⟨⟨w, hw, hwu⟩, hx⟩ := h
  exact ⟨⟨w, hw, hwu.trans hsuf⟩, hx⟩

/-- Three steps for a rune are enough. -/
structure ReadersSettle (e : ReadEnv F) (l n : Nat) : Prop where
  sread : ∀ {p : Port} {cs : List Nat} {eof : Datum F}, At p cs → cs.length ≤ l →
    3 * cs.length + 3 ≤ n → Settles (sread e n eof) p (SreadDone eof cs)
  readList : ∀ {p : Port} {cs : List Nat} {eof : Datum F} {top : List (Datum F)}
    {dotted : Option (Datum F)}, At p cs → cs.length ≤ l → 3 * cs.length + 4 ≤ n →
    (dotted.isSome = true → top ≠ []) → Settles (readList e n eof top dotted) p (FormDone eof cs)
  readAnonf : ∀ {p : Port} {cs : List Nat} {eof : Datum F} {top : List (Datum F)}, At p cs →
    cs.length ≤ l → 3 * cs.length + 4 ≤ n → Settles (readAnonf e n eof top) p (FormDone eof cs)
  readq : ∀ {p : Port} {cs : List Nat} {eof : Datum F} {qsym : List Nat}, At p cs → cs.length ≤ l →
    3 * cs.length + 4 ≤ n → Settles (readq e n qsym eof) p (FormDone eof cs)
  readComma : ∀ {p : Port} {cs : List Nat} {eof : Datum F}, At p cs → cs.length ≤ l →
    3 * cs.length + 5 ≤ n → Settles (readComma e n eof) p (FormDone eof cs)

variable {e : ReadEnv F} {l : Nat} {eof : Datum F} {top : List (Datum F)} {dotted : Option (Datum F)}

theorem issym_of_other {r : Nat} (hspace : ucisspace r = false) (hopen : r ≠ '('.toNat)
    (hclose : r ≠ ')'.toNat) (hquote : r ≠ '\''.toNat) (hsemi : r ≠ ';'.toNat) (hbopen : r ≠ '['.toNat)
    (hbclose : r ≠ ']'.toNat) : issym r = true := by
  have hmem : r ∉ runes "()';[]" := by
    intro h
    have hcases : r = '('.toNat ∨ r = ')'.toNat ∨ r = '\''.toNat ∨ r = ';'.toNat ∨ r = '['.toNat ∨
        r = ']'.toNat := by simpa [runes] using h
    tauto
  rw [issym, hspace, List.contains_eq_mem, decide_eq_false hmem]
  rfl

theorem sread_succ (hat : AtstringsSettle e l) (ih : ReadersSettle e l n) (hp : At p cs)
    (hl : cs.length ≤ l) (hn : 3 * cs.length + 3 ≤ n + 1) :
    Settles (sread e (n + 1) eof) p (SreadDone eof cs) := by
  rw [sread]
  refine Settles.bind (scan_settles hp (by omega)) ?_
  rintro r p' (⟨rfl, rfl⟩ | ⟨r, t, rfl, rfl, hsuf, hspace⟩)
  · refine Settles.pure ⟨⟨[], .clean [], List.nil_suffix, ?_⟩, .inl rfl⟩
    cases cs with
    | nil => exact .inl rfl
    | cons c cs => exact .inr (by simp)
  · have hlen : t.length + 1 ≤ cs.length := hsuf.length_le
    have ht : t <:+ cs := (List.suffix_cons r t).trans hsuf
    have hprogress : ∀ {p' : Port}, Left t p' → Progress cs p' := by
      rintro p' ⟨u, hu, hut⟩
      have hle := hut.length_le
      exact ⟨u, hu, hut.trans ht, .inr (by omega)⟩
    have hform : ∀ x p', FormDone eof t x p' → SreadDone eof cs x p' := by
      rintro x p' ⟨hleft, hx⟩
      refine ⟨hprogress hleft, hx.imp_right ?_⟩
      rintro hno m rfl
      exact absurd rfl (hno m)
    simp only
    by_cases hopen : r = '('.toNat
    · rw [if_pos hopen]
      exact (ih.readList (.clean t) (by omega) (by omega) (fun h => Bool.noConfusion h)).mono hform
    rw [if_neg hopen]
    by_cases hclose : r = ')'.toNat
    · rw [if_pos hclose]
      exact Settles.throw Stop.noConfusion
    rw [if_neg hclose]
    by_cases hbopen : r = '['.toNat
    · rw [if_pos hbopen]
      exact (ih.readAnonf (.clean t) (by omega) (by omega)).mono hform
    rw [if_neg hbopen]
    by_cases hbclose : r = ']'.toNat
    · rw [if_pos hbclose]
      exact Settles.throw Stop.noConfusion
    rw [if_neg hbclose]
    by_cases hquote : r = '\''.toNat
    · rw [if_pos hquote]
      exact (ih.readq (.clean t) (by omega) (by omega)).mono hform
    rw [if_neg hquote]
    by_cases hqquote : r = '`'.toNat
    · rw [if_pos hqquote]
      exact (ih.readq (.clean t) (by omega) (by omega)).mono hform
    rw [if_neg hqquote]
    by_cases hcomma : r = ','.toNat
    · rw [if_pos hcomma]
      exact (ih.readComma (.clean t) (by omega) (by omega)).mono hform
    rw [if_neg hcomma]
    by_cases hstring : r = '"'.toNat
    · rw [if_pos hstring]
      have hfuel : 2 * t.length + StrState.normal.pending < n := by
        simp only [StrState.pending]
        omega
      refine Settles.bind (readString_settles (.clean t) hfuel) ?_
      rintro s p' ⟨hleft, hs⟩
      have hshort : s.length < l := by
        simp only [StrState.pending, List.length_nil] at hs
        omega
      cases hf : e.atstrings with
      | none =>
        refine Settles.pure ⟨hprogress hleft, .inr ?_⟩
        rintro m hm
        cases hm
      | some f =>
        refine (hat f hf s hshort p').mono ?_
        rintro x p'' ⟨rfl, hx⟩
        refine ⟨hprogress hleft, .inr ?_⟩
        rintro m rfl
        exact absurd rfl (hx m)
    rw [if_neg hstring]
    by_cases hhash : r = '#'.toNat
    · rw [if_pos hhash]
      refine (readChar_settles (.clean t) (by omega)).mono ?_
      rintro x p' ⟨hleft, hx⟩
      exact ⟨hprogress hleft, .inr (hx.mono fun r hr => ht.subset hr)⟩
    rw [if_neg hhash]
    by_cases hsemi : r = ';'.toNat
    · rw [if_pos hsemi]
      refine Settles.bind (readComment_settles (.clean t) (by omega)) ?_
      rintro _ p' ⟨u, hu, hut⟩
      have hle := hut.length_le
      refine (ih.sread hu (by omega) (by omega)).mono ?_
      rintro x p'' ⟨⟨w, hw, hwu, -⟩, hx⟩
      refine ⟨hprogress ⟨w, hw, hwu.trans hut⟩, hx.imp_right fun h => ?_⟩
      exact h.mono fun r hr => ht.subset (hut.subset hr)
    rw [if_neg hsemi]
    have hsym : issym r = true := issym_of_other hspace hopen hclose hquote hsemi hbopen hbclose
    refine Settles.of_ok ungetc_instring ?_
    refine (readSymbol_settles e.flo (.pushed r t) hsym (by omega)).mono ?_
    rintro x p' ⟨hleft, hx⟩
    exact ⟨hprogress hleft, .inr (hx.mono fun r hr => hsuf.subset hr)⟩

theorem readList_succ (ih : ReadersSettle e l n) (hp : At p cs) (hl : cs.length ≤ l)
    (hn : 3 * cs.length + 4 ≤ n + 1) (hdotted : dotted.isSome = true → top ≠ []) :
    Settles (readList e (n + 1) eof top dotted) p (FormDone eof cs) := by
  rw [readList]
  refine Settles.bind (scan_settles hp (by omega)) ?_
  rintro r p' (⟨rfl, rfl⟩ | ⟨r, t, rfl, rfl, hsuf, hspace⟩)
  · exact Settles.pure ⟨⟨[], .clean [], List.nil_suffix⟩, .inl rfl⟩
  · have hlen : t.length + 1 ≤ cs.length := hsuf.length_le
    have ht : t <:+ cs := (List.suffix_cons r t).trans hsuf
    have hmore : ∀ {u : List Nat} {p' : Port} {top : List (Datum F)} {dotted : Option (Datum F)}, At p' u →
        u <:+ cs → u.length < cs.length → (dotted.isSome = true → top ≠ []) →
        Settles (readList e n eof top dotted) p' (FormDone eof cs) := by
      intro u p' top dotted hu hsuf hlt hd
      exact (ih.readList hu (by omega) (by omega) hd).mono fun x p'' h => h.of_suffix hsuf
    simp only
    by_cases hsemi : r = ';'.toNat
    · rw [if_pos hsemi]
      refine Settles.bind (readComment_settles (.clean t) (by omega)) ?_
      rintro _ p' ⟨u, hu, hut⟩
      have hle := hut.length_le
      exact hmore hu (hut.trans ht) (by omega) hdotted
    rw [if_neg hsemi]
    by_cases hclose : r = ')'.toNat
    · rw [if_pos hclose]
      refine Settles.pure ⟨⟨t, .clean t, ht⟩, .inr ?_⟩
      intro m
      cases top with
      | nil =>
        cases dotted with
        | none =>
          intro h
          cases h
        | some val => exact absurd rfl (hdotted rfl)
      | cons x xs => exact list_ne_symbol (List.cons_ne_nil x xs) _
    rw [if_neg hclose]
    by_cases hafter : dotted.isSome = true
    · rw [if_pos hafter]
      exact Settles.throw Stop.noConfusion
    rw [if_neg hafter]
    refine Settles.of_ok ungetc_instring ?_
    have hread : (r :: t).length ≤ l := by
      rw [List.length_cons]
      omega
    refine Settles.bind (ih.sread (.pushed r t) hread (by rw [List.length_cons]; omega)) ?_
    rintro x p' ⟨⟨u, hu, hut, hend⟩, -⟩
    have hlt : u.length < cs.length := by
      rcases hend with hnil | hlt
      · cases hnil
      · rw [List.length_cons] at hlt
        omega
    have hnext : ∀ {top : List (Datum F)}, Settles (readList e n eof top none) p' (FormDone eof cs) :=
      hmore hu (hut.trans hsuf) hlt fun h => Bool.noConfusion h
    cases x with
    | symbol name =>
      simp only
      by_cases hdot : name = runes "."
      · rw [if_pos hdot]
        refine Settles.bind (ih.sread hu (by omega) (by omega)) ?_
        rintro val p'' ⟨⟨w, hw, hwu, -⟩, -⟩
        have hle := hwu.length_le
        by_cases htop : top = []
        · rw [if_pos htop]
          exact Settles.throw Stop.noConfusion
        · rw [if_neg htop]
          exact hmore hw (hwu.trans (hut.trans hsuf)) (by omega) fun _ => htop
      · rw [if_neg hdot]
        exact hnext
    | _ => exact hnext

theorem readAnonf_succ (ih : ReadersSettle e l n) (hp : At p cs) (hl : cs.length ≤ l)
    (hn : 3 * cs.length + 4 ≤ n + 1) : Settles (readAnonf e (n + 1) eof top) p (FormDone eof cs) := by
  rw [readAnonf]
  refine Settles.bind (scan_settles hp (by omega)) ?_
  rintro r p' (⟨rfl, rfl⟩ | ⟨r, t, rfl, rfl, hsuf, hspace⟩)
  · exact Settles.pure ⟨⟨[], .clean [], List.nil_suffix⟩, .inl rfl⟩
  · have hlen : t.length + 1 ≤ cs.length := hsuf.length_le
    have ht : t <:+ cs := (List.suffix_cons r t).trans hsuf
    have hmore : ∀ {u : List Nat} {p' : Port} {top : List (Datum F)}, At p' u → u <:+ cs →
        u.length < cs.length → Settles (readAnonf e n eof top) p' (FormDone eof cs) := by
      intro u p' top hu hsuf hlt
      exact (ih.readAnonf hu (by omega) (by omega)).mono fun x p'' h => h.of_suffix hsuf
    simp only
    by_cases hsemi : r = ';'.toNat
    · rw [if_pos hsemi]
      refine Settles.bind (readComment_settles (.clean t) (by omega)) ?_
      rintro _ p' ⟨u, hu, hut⟩
      have hle := hut.length_le
      exact hmore hu (hut.trans ht) (by omega)
    rw [if_neg hsemi]
    by_cases hclose : r = ']'.toNat
    · rw [if_pos hclose]
      exact Settles.pure ⟨⟨t, .clean t, ht⟩, .inr fun m => list_ne_symbol (List.cons_ne_nil _ _) _⟩
    rw [if_neg hclose]
    refine Settles.of_ok ungetc_instring ?_
    have hread : (r :: t).length ≤ l := by
      rw [List.length_cons]
      omega
    refine Settles.bind (ih.sread (.pushed r t) hread (by rw [List.length_cons]; omega)) ?_
    rintro x p' ⟨⟨u, hu, hut, hend⟩, -⟩
    refine hmore hu (hut.trans hsuf) ?_
    rcases hend with hnil | hlt
    · cases hnil
    · rw [List.length_cons] at hlt
      omega

theorem readq_succ {qsym : List Nat} (ih : ReadersSettle e l n) (hp : At p cs) (hl : cs.length ≤ l)
    (hn : 3 * cs.length + 4 ≤ n + 1) : Settles (readq e (n + 1) qsym eof) p (FormDone eof cs) := by
  rw [readq]
  refine Settles.bind (ih.sread hp hl (by omega)) ?_
  rintro x p' ⟨⟨u, hu, hut, -⟩, -⟩
  exact Settles.pure ⟨⟨u, hu, hut⟩, .inr fun m => list_ne_symbol (List.cons_ne_nil _ _) _⟩

theorem readComma_succ (ih : ReadersSettle e l n) (hp : At p cs) (hl : cs.length ≤ l)
    (hn : 3 * cs.length + 5 ≤ n + 1) : Settles (readComma e (n + 1) eof) p (FormDone eof cs) := by
  rw [readComma]
  cases cs with
  | nil => exact Settles.of_error hp.readc1_nil Stop.noConfusion
  | cons c cs =>
    rw [List.length_cons] at hl hn
    refine Settles.of_ok hp.readc1_cons ?_
    by_cases hat : c = '@'.toNat
    · rw [if_pos hat]
      refine (ih.readq (.clean cs) (by omega) (by omega)).mono ?_
      rintro x p' ⟨hleft, hx⟩
      exact ⟨hleft.cons c, hx⟩
    · rw [if_neg hat]
      refine Settles.of_ok ungetc_instring ?_
      exact ih.readq (.pushed c cs) (by rw [List.length_cons]; omega) (by rw [List.length_cons]; omega)

theorem readersSettle (hat : AtstringsSettle e l) (n : Nat) : ReadersSettle e l n := by
  induction n with
  | zero => exact ⟨fun _ _ h => by omega, fun _ _ h => by omega, fun _ _ h => by omega,
      fun _ _ h => by omega, fun _ _ h => by omega⟩
  | succ n ih => exact ⟨sread_succ hat ih, readList_succ ih, readAnonf_succ ih, readq_succ ih, readComma_succ ih⟩

end Readers

end Arcueid.Reader
