import Arcueid.LineErasure
import Arcueid.Truncation

/-! Where the reader stands in a text and which line it takes it for, through each of
the scanners. -/

namespace Arcueid.Reader

open Utf Numeral

variable {F : Type}

theorem data_instring (t : List Nat) : (instring t).data.map Int.toNat = t := by
  simp [instring, mkstringio, Function.comp_def]

theorem At.unique {p : Port} {t t' : List Nat} (h : At p t) (h' : At p t') : t = t' := by
  have hunread : ∀ {t : List Nat}, At p t → t = p.ungetrune.toList ++ p.data.map Int.toNat := by
    intro t h
    cases h with
    | clean => exact (data_instring t).symm
    | pushed r cs => exact congrArg (r :: ·) (data_instring cs).symm
  rw [hunread h, hunread h']

section Newlines

def newlines (u : List Nat) : Nat := u.countP ucisnl

def Lex.InString : Lex → Prop
  | .string _ => True
  | _ => False

/-- Within a token that every delimiter ends. -/
def Lex.Bare : Lex → Prop
  | .token _ state _ => state = .sawR ∨ state = .symbol
  | _ => False

/-- Where a newline is passed over without being counted. -/
def Lex.blind : Lex → Bool
  | .hash | .hashBackslash => true
  | .string .escape => true
  | .string (.unicode _ digcount) => digcount < 5
  | .token _ .regex _ | .token _ .regexEscape _ | .token _ (.regexFlags _ _) _ => true
  | _ => false

def missed (l : Lex) : List Nat → Nat
  | [] => 0
  | c :: u => (if l.blind && ucisnl c then 1 else 0) + missed (l.step c) u

theorem missed_append (l : Lex) (u v : List Nat) : missed l (u ++ v) = missed l u + missed (lex l u) v := by
  induction u generalizing l with
  | nil => simp [missed]
  | cons c u ih => simp only [List.cons_append, missed, lex_cons, ih, Nat.add_assoc]

theorem newlines_append (u v : List Nat) : newlines (u ++ v) = newlines u + newlines v := List.countP_append

theorem lex_append (l : Lex) (u v : List Nat) : lex l (u ++ v) = lex (lex l u) v := List.foldl_append

theorem ucisspace_of_ucisnl {c : Nat} (h : ucisnl c = true) : ucisspace c = true := by
  simp only [ucisnl, Bool.or_eq_true, beq_iff_eq] at h
  rcases h with ((((rfl | rfl) | rfl) | rfl) | rfl) | rfl <;> rfl

theorem ucisnl_of_issym {c : Nat} (h : issym c = true) : ucisnl c = false := by
  by_contra hnl
  have hspace := ucisspace_of_ucisnl (by simpa using hnl)
  simp [issym, hspace] at h

/-- After what was begun the rune `c` is taken as it is taken in `l`. -/
structure Follows (L l : Lex) (c : Nat) : Prop where
  step : L.step c = l.step c
  blind : ucisnl c = true → L.blind = l.blind
  inString : L.InString ↔ l.InString
  bare : l.Bare → L.Bare

theorem Follows.refl (l : Lex) (c : Nat) : Follows l l c := ⟨rfl, fun _ => rfl, Iff.rfl, id⟩

theorem Follows.trans {L l l' : Lex} {c : Nat} (h : Follows L l c) (h' : Follows l l' c) : Follows L l' c :=
  ⟨h.step.trans h'.step, fun hnl => (h.blind hnl).trans (h'.blind hnl), h.inString.trans h'.inString,
    fun hbare => h.bare (h'.bare hbare)⟩

theorem Follows.delimiter {L : Lex} {c : Nat} (hbare : L.Bare) (hc : issym c = false) :
    Follows L (.between false) c := by
  cases L with
  | token place state buf =>
    have hslash : c ≠ '/'.toNat := by
      intro h
      rw [h] at hc
      cases hc
    have hplain : nextState state c = .symbol →
        Lex.step (.token place state buf) c = Lex.step (.between false) c := by
      intro hnext
      simp only [Lex.step, stepToken, hslash, and_false, if_false, hnext, ne_runeerror_of_not_issym hc, hc,
        Bool.not_false, if_true]
      exact stepOpening_of_not_issym hc _
    rcases hbare with rfl | rfl
    · exact ⟨hplain (if_neg hslash), fun _ => rfl, Iff.rfl, False.elim⟩
    · exact ⟨hplain rfl, fun _ => rfl, Iff.rfl, False.elim⟩
  | _ => exact hbare.elim

end Newlines

namespace Lined

section Positions

/-- What a call starts in front of, at a line, and whether `atstrings` is declared. -/
structure Source where
  text : List Nat
  lineno : Nat
  declared : Prop

variable (src : Source)

/-- A string with an expression in it ends where `u` begins, or before. -/
def Interpolated (u : List Nat) : Prop :=
  src.declared ∧ ∃ b v n body p t, src.text = b ++ '"'.toNat :: v ∧ ¬ (lex (.between false) b).InString ∧
    lex (.between false) (b ++ ['"'.toNat]) = .string .normal ∧
    Reader.readString n .normal [] (instring v) = .ok (body, p) ∧ (atpos body).isSome = true ∧
    At p t ∧ u <:+ t

/-- In front of `u`, with `L` begun, at the line that the newlines read tell, the
missed ones apart. -/
def Position (u : List Nat) (L : Lex) (lineno : Nat) : Prop :=
  ∃ b, src.text = b ++ u ∧ lex (.between false) b = L ∧
    (Interpolated src u ∨ lineno + missed (.between false) b = src.lineno + newlines b)

inductive Faces (l : Lex) : List Nat → Lines → Prop
  | clean {u : List Nat} {k : Nat} (h : Position src u l k) : Faces l u ⟨instring u, k⟩
  | pushed {c : Nat} {u : List Nat} {L : Lex} {k : Nat} (h : Position src (c :: u) L k)
      (hl : Follows L l c) : Faces l (c :: u) ⟨arcUngetcRune c (instring u), k⟩
  | ended {L : Lex} {k : Nat} (h : Position src [] L k) : Faces l [] ⟨instring [], k⟩

/-- Behind a datum. A rune is held back behind a token that needs a delimiter only. -/
inductive Rests : List Nat → Lines → Prop
  | clean {u : List Nat} {k : Nat} (h : Position src u (.between false) k) : Rests u ⟨instring u, k⟩
  | pushed {c : Nat} {u : List Nat} {L : Lex} {k : Nat} (h : Position src (c :: u) L k) (hbare : L.Bare)
      (hc : issym c = false) : Rests (c :: u) ⟨arcUngetcRune c (instring u), k⟩
  | ended {L : Lex} {k : Nat} (h : Position src [] L k) : Rests [] ⟨instring [], k⟩

/-- The rune `c` was read, and is not counted yet. -/
def Ahead (l : Lex) (c : Nat) (u : List Nat) (s : Lines) : Prop :=
  ∃ L k, s = ⟨instring u, k⟩ ∧ Position src (c :: u) L k ∧ Follows L l c

/-- At the end of the text. -/
def Ended (s : Lines) : Prop := ∃ L k, s = ⟨instring [], k⟩ ∧ Position src [] L k

def Stopped (u : List Nat) (s : Lines) : Prop := At s.port u ∧ ∃ L, Position src u L s.lineno

variable {src} {l : Lex} {c : Nat} {u : List Nat} {s : Lines} {L : Lex} {k : Nat}

theorem Interpolated.suffix {v : List Nat} (h : Interpolated src u) (hsuf : v <:+ u) : Interpolated src v := by
  obtain ⟨hd, b, w, n, body, p, t, htext, hout, hopen, hread, hat, ht, hu⟩ := h
  exact ⟨hd, b, w, n, body, p, t, htext, hout, hopen, hread, hat, ht, hsuf.trans hu⟩

theorem Position.step (h : Position src (c :: u) L k) (hc : ucisnl c = false ∨ L.blind = true) :
    Position src u (L.step c) k := by
  obtain ⟨b, htext, hlex, hcount⟩ := h
  refine ⟨b ++ [c], by rw [htext, List.append_assoc]; rfl, by rw [lex_append, hlex]; rfl, ?_⟩
  refine hcount.imp (fun h => h.suffix (List.suffix_cons c u)) fun hcount => ?_
  rw [missed_append, newlines_append, hlex]
  rcases hc with hc | hc
  · simpa [missed, newlines, hc] using hcount
  · cases hnl : ucisnl c with
    | false => simpa [missed, newlines, hnl] using hcount
    | true =>
      simp only [missed, newlines, hc, hnl, List.countP_cons, List.countP_nil, Bool.and_self, if_true]
      simp only [newlines] at hcount
      omega

theorem Position.count (h : Position src (c :: u) L k) (hc : ucisnl c = true) (hL : L.blind = false) :
    Position src u (L.step c) (k + 1) := by
  obtain ⟨b, htext, hlex, hcount⟩ := h
  refine ⟨b ++ [c], by rw [htext, List.append_assoc]; rfl, by rw [lex_append, hlex]; rfl, ?_⟩
  refine hcount.imp (fun h => h.suffix (List.suffix_cons c u)) fun hcount => ?_
  rw [missed_append, newlines_append, hlex]
  simp only [missed, newlines, hc, hL, List.countP_cons, List.countP_nil, Bool.false_and, if_true]
  simp only [newlines] at hcount
  simpa using (by omega)

theorem Ahead.faces (h : Ahead src l c u s) (hc : ucisnl c = false ∨ l.blind = true) :
    Faces src (l.step c) u s := by
  obtain ⟨L, k, rfl, hpos, hl⟩ := h
  rw [← hl.step]
  refine Faces.clean (hpos.step ?_)
  by_cases hnl : ucisnl c = true
  · rw [hl.blind hnl]
    exact hc
  · exact .inl (by simpa using hnl)

theorem Ahead.counted (h : Ahead src l c u s) (hc : ucisnl c = true) (hl : l.blind = false) :
    Faces src (l.step c) u { s with lineno := s.lineno + 1 } := by
  obtain ⟨L, k, rfl, hpos, hfol⟩ := h
  rw [← hfol.step]
  exact Faces.clean (hpos.count hc ((hfol.blind hc).trans hl))

theorem Ahead.mono {l' : Lex} (h : Ahead src l c u s) (hl : Follows l l' c) : Ahead src l' c u s := by
  obtain ⟨L, k, hs, hpos, hL⟩ := h
  exact ⟨L, k, hs, hpos, hL.trans hl⟩

/-- The rune that ends a datum was read. -/
theorem Ahead.closed (h : Ahead src l c u s) (hc : ucisnl c = false ∨ l.blind = true)
    (hl : l.step c = .between false) : Rests src u s := by
  have hfaces := h.faces hc
  obtain ⟨L, k, rfl, hpos, hfol⟩ := h
  rw [hl] at hfaces
  cases hfaces with
  | clean h => exact .clean h
  | ended h => exact .ended h

theorem Ended.faces (h : Ended src s) (l : Lex) : Faces src l [] s := by
  obtain ⟨L, k, rfl, hpos⟩ := h
  exact .ended hpos

theorem Ended.rests (h : Ended src s) : Rests src [] s := by
  obtain ⟨L, k, rfl, hpos⟩ := h
  exact .ended hpos

theorem Ahead.pushed (h : Ahead src l c u s) :
    Faces src l (c :: u) { s with port := arcUngetcRune c s.port } := by
  obtain ⟨L, k, rfl, hpos, hl⟩ := h
  exact Faces.pushed hpos hl

theorem Ahead.rests (h : Ahead src l c u s) (hl : l.Bare) (hc : issym c = false) :
    Rests src (c :: u) { s with port := arcUngetcRune c s.port } := by
  obtain ⟨L, k, rfl, hpos, hfol⟩ := h
  exact Rests.pushed hpos (hfol.bare hl) hc

theorem Rests.faces (h : Rests src u s) : Faces src (.between false) u s := by
  cases h with
  | clean h => exact .clean h
  | pushed h hbare hc => exact .pushed h (Follows.delimiter hbare hc)
  | ended h => exact .ended h

theorem Faces.stopped (h : Faces src l u s) : Stopped src u s := by
  cases h with
  | clean h => exact ⟨.clean _, _, h⟩
  | pushed h hl => exact ⟨.pushed _ _, _, h⟩
  | ended h => exact ⟨.clean _, _, h⟩

theorem Rests.stopped (h : Rests src u s) : Stopped src u s := h.faces.stopped

end Positions

section Triples

variable {α β : Type} {src : Source}

/-- Every outcome of `x`, that leaves `u'` of the text `u`. -/
def Reads (src : Source) (x : LineM α) (u : List Nat) (s : Lines)
    (Q : α → List Nat → Lines → Prop) : Prop :=
  match x s with
  | (.ok a, s') => ∃ u', u' <:+ u ∧ Q a u' s'
  | (.error _, s') => ∃ u', u' <:+ u ∧ Stopped src u' s'

namespace Reads

variable {x : LineM α} {f : α → LineM β} {u v : List Nat} {s : Lines} {Q Q' : α → List Nat → Lines → Prop}
  {R : β → List Nat → Lines → Prop} {l : Lex} {c : Nat}

theorem suffix (h : Reads src x v s Q) (hsuf : v <:+ u) : Reads src x u s Q := by
  rw [Reads] at h ⊢
  cases hx : x s with
  | mk r s' =>
    rw [hx] at h
    cases r with
    | ok a =>
      obtain ⟨u', hu, hq⟩ := h
      exact ⟨u', hu.trans hsuf, hq⟩
    | error stop =>
      obtain ⟨u', hu, hq⟩ := h
      exact ⟨u', hu.trans hsuf, hq⟩

theorem mono (h : Reads src x u s Q) (hQ : ∀ a u' s', u' <:+ u → Q a u' s' → Q' a u' s') :
    Reads src x u s Q' := by
  rw [Reads] at h ⊢
  cases hx : x s with
  | mk r s' =>
    rw [hx] at h
    cases r with
    | ok a =>
      obtain ⟨u', hu, hq⟩ := h
      exact ⟨u', hu, hQ a u' s' hu hq⟩
    | error stop => exact h

theorem pure {a : α} (h : Q a u s) : Reads src (Pure.pure a) u s Q := ⟨u, List.suffix_rfl, h⟩

theorem throw {stop : Stop} (h : Stopped src u s) : Reads src (MonadExcept.throw stop) u s Q :=
  ⟨u, List.suffix_rfl, h⟩

theorem bind (hx : Reads src x u s Q) (hf : ∀ a u' s', u' <:+ u → Q a u' s' → Reads src (f a) u' s' R) :
    Reads src (x >>= f) u s R := by
  rw [Reads] at hx
  cases hr : x s with
  | mk r s' =>
    rw [hr] at hx
    cases r with
    | ok a =>
      obtain ⟨u', hu, hq⟩ := hx
      have hrest := (hf a u' s' hu hq).suffix hu
      rw [Reads, bind_ok hr]
      exact hrest
    | error stop =>
      rw [Reads, bind_error hr]
      exact hx

theorem readc_bind {f : Option Nat → LineM β} (h : Faces src l u s)
    (hnone : u = [] → Ended src s → Reads src (f none) [] s R)
    (hsome : ∀ c u' s', u = c :: u' → Ahead src l c u' s' → Reads src (f (some c)) u s' R) :
    Reads src (readc >>= f) u s R := by
  have hend : ∀ {L : Lex} {k : Nat}, Position src [] L k → s = ⟨instring [], k⟩ → u = [] →
      Reads src (readc >>= f) u s R := by
    intro L k hpos hs hu
    subst hs hu
    exact hnone rfl ⟨L, k, rfl, hpos⟩
  cases h with
  | ended h => exact hend h rfl rfl
  | clean h =>
    cases u with
    | nil => exact hend h rfl rfl
    | cons c u => exact hsome c u _ rfl ⟨l, _, rfl, h, Follows.refl l c⟩
  | pushed h hl => exact hsome _ _ _ rfl ⟨_, _, rfl, h, hl⟩

theorem readc1_bind {f : Nat → LineM β} (h : Faces src l u s)
    (hsome : ∀ c u' s', u = c :: u' → Ahead src l c u' s' → Reads src (f c) u s' R) :
    Reads src (readc1 >>= f) u s R := by
  rw [readc1, bind_assoc]
  refine readc_bind h (fun _ hended => ?_) hsome
  exact throw hended.rests.stopped

theorem incLineno_bind {f : PUnit → LineM β} (h : Reads src (f ⟨⟩) u { s with lineno := s.lineno + 1 } R) :
    Reads src (incLineno >>= f) u s R := h

/-- A rune that is given back is read again. -/
theorem ungetc_bind {f : Unit → LineM β} (h : Reads src (f ()) u { s with port := arcUngetcRune c s.port } R) :
    Reads src (ungetc c >>= f) u s R := h

theorem map {g : α → β} (h : Reads src x u s fun a => R (g a)) : Reads src (g <$> x) u s R := by
  rw [map_eq_pure_bind]
  exact h.bind fun a u' s' _ hq => pure hq

end Reads

end Triples

section Scanners

variable {src : Source} {u : List Nat} {s : Lines} {n : Nat} {first : Bool}

/-- What `scan` finds: the end, or a rune that is no space. -/
def Found (src : Source) (first : Bool) : Option Nat → List Nat → Lines → Prop
  | none, u, s => Rests src u s
  | some c, u, s => ∃ v, u = c :: v ∧ ucisspace c = false ∧ Ahead src (.between first) c v s

theorem scan_reads (h : Faces src (.between first) u s) : Reads src (scan n) u s (Found src first) := by
  induction n generalizing u s with
  | zero => exact Reads.throw h.stopped
  | succ n ih =>
    rw [scan]
    refine Reads.readc_bind h (fun _ hended => Reads.pure hended.rests) fun c v s' hu hahead => ?_
    subst hu
    have hblank : ∀ {s' : Lines}, ucisspace c = true → Faces src (Lex.step (.between first) c) v s' →
        Reads src (if ucisspace c then scan n else pure (some c)) (c :: v) s' (Found src first) := by
      intro s' hspace hfaces
      rw [step_blank hspace] at hfaces
      rw [if_pos hspace]
      exact (ih hfaces).suffix (List.suffix_cons c v)
    by_cases hnl : ucisnl c = true
    · simp only [hnl, if_true]
      exact Reads.incLineno_bind (hblank (ucisspace_of_ucisnl hnl) (hahead.counted hnl rfl))
    · have hnl' : ucisnl c = false := by simpa using hnl
      simp only [hnl']
      by_cases hspace : ucisspace c = true
      · exact hblank hspace (hahead.faces (.inl hnl'))
      · simp only [hspace]
        exact Reads.pure ⟨v, rfl, by simpa using hspace, hahead⟩

theorem readComment_reads (h : Faces src (.comment first) u s) :
    Reads src (readComment n) u s fun _ => Faces src (.between first) := by
  induction n generalizing u s with
  | zero => exact Reads.throw h.stopped
  | succ n ih =>
    rw [readComment]
    refine Reads.readc_bind h (fun _ hended => Reads.pure (hended.faces _)) fun c v s' hu hahead => ?_
    · subst hu
      simp only [Option.getD_some]
      have hstep : ∀ {l : Lex} {s' : Lines}, Lex.step (.comment first) c = l →
          Faces src (Lex.step (.comment first) c) v s' → Faces src l v s' := fun hl hf => hl ▸ hf
      by_cases herr : c = Runeerror
      · rw [if_pos herr]
        have hnl : ucisnl c = false := by rw [herr]; rfl
        refine (Reads.pure ?_).suffix (List.suffix_cons c v)
        exact hstep (if_pos (.inl herr)) (hahead.faces (.inl hnl))
      · rw [if_neg herr]
        by_cases hnl : ucisnl c = true
        · rw [if_pos hnl]
          exact ⟨v, List.suffix_cons c v, hstep (if_pos (.inr hnl)) (hahead.counted hnl rfl)⟩
        · rw [if_neg hnl]
          have hfaces := hahead.faces (.inl (by simpa using hnl))
          exact (ih (hstep (if_neg (not_or.mpr ⟨herr, hnl⟩)) hfaces)).suffix (List.suffix_cons c v)

/-- The runes of a string are read up to the closing quote. -/
theorem readString_reads {state : StrState} {buf : List Nat} (h : Faces src (.string state) u s) :
    Reads src (readString n state buf) u s fun _ => Rests src := by
  induction n generalizing u s state buf with
  | zero => exact Reads.throw h.stopped
  | succ n ih =>
    rw [readString]
    refine Reads.readc1_bind h fun c v s' hu hahead => ?_
    subst hu
    have hmore : ∀ {state' : StrState} {buf' : List Nat} {s' : Lines}, stepString state c = .string state' →
        Faces src (Lex.step (.string state) c) v s' →
        Reads src (readString n state' buf') (c :: v) s' fun _ => Rests src := by
      intro state' buf' s' hstep hfaces
      rw [Lex.step, hstep] at hfaces
      exact (ih hfaces).suffix (List.suffix_cons c v)
    cases state with
    | normal =>
      simp only
      by_cases hquote : c = '"'.toNat
      · rw [if_pos hquote]
        have hnl : ucisnl c = false := by rw [hquote]; rfl
        have hrests : Rests src v s' := hahead.closed (.inl hnl) (if_pos hquote)
        exact ⟨v, List.suffix_cons c v, hrests⟩
      rw [if_neg hquote]
      by_cases hback : c = '\\'.toNat
      · rw [if_pos hback]
        have hnl : ucisnl c = false := by rw [hback]; rfl
        refine hmore ?_ (hahead.faces (.inl hnl))
        rw [stepString, if_neg hquote, if_pos hback]
      rw [if_neg hback]
      have hstep : stepString .normal c = .string .normal := by
        rw [stepString, if_neg hquote, if_neg hback]
      by_cases hnl : ucisnl c = true
      · simp only [hnl, if_true]
        exact Reads.incLineno_bind (hmore hstep (hahead.counted hnl rfl))
      · simp only [hnl]
        exact hmore hstep (hahead.faces (.inl (by simpa using hnl)))
    | escape =>
      have hfaces := hahead.faces (.inr rfl)
      simp only
      by_cases hu : c = 'U'.toNat ∨ c = 'u'.toNat
      · rw [if_pos hu]
        exact hmore (if_pos hu) hfaces
      · rw [if_neg hu]
        cases escapeCode c with
        | none => exact (Reads.throw hfaces.stopped).suffix (List.suffix_cons c v)
        | some r => exact hmore (if_neg hu) hfaces
    | unicode escrune digcount =>
      simp only
      by_cases hlong : digcount ≥ 5
      · rw [if_pos hlong]
        refine Reads.ungetc_bind (ih ?_)
        have hfollows : Follows (.string (.unicode escrune digcount)) (.string .normal) c := by
          refine ⟨?_, fun _ => ?_, Iff.rfl, False.elim⟩
          · simp only [Lex.step, stepString, if_pos hlong]
          · exact decide_eq_false (by omega)
        exact (hahead.mono hfollows).pushed
      · rw [if_neg hlong]
        have hfaces := hahead.faces (.inr (decide_eq_true (by omega)))
        cases hdigit : hexDigit c with
        | none => exact (Reads.throw hfaces.stopped).suffix (List.suffix_cons c v)
        | some digval =>
          refine hmore ?_ hfaces
          simp only [stepString, if_neg hlong, hdigit]

/-- A token is read whole. No delimiter is its first rune. -/
theorem getsymbol_reads {place : Place} {state : SymState} {buf : List Nat}
    (h : Faces src (.token place state buf) u s)
    (hstart : state = .start → ∀ c ∈ u.head?, issym c = true) :
    Reads src (getsymbol n state buf) u s fun _ => Rests src := by
  induction n generalizing u s state buf with
  | zero => exact Reads.throw h.stopped
  | succ n ih =>
    rw [getsymbol]
    refine Reads.readc_bind h (fun _ hended => ?_) fun c v s' hu hahead => ?_
    · have hfinish : ∀ {state'}, Reads src (finishToken state' buf) [] s fun _ => Rests src := by
        intro state'
        cases state' with
        | symbol => exact Reads.pure hended.rests
        | regexFlags casefold multiline => exact Reads.pure hended.rests
        | _ => exact Reads.throw hended.rests.stopped
      have hthrow : ∀ {stop}, Reads src (throw stop : LineM Token) [] s fun _ => Rests src := fun {stop} =>
        Reads.throw hended.rests.stopped
      simp only [Option.getD_none]
      rw [if_neg fun h => by cases h.2]
      cases nextState state Runeerror with
      | regex => exact hthrow
      | regexEscape => exact hthrow
      | regexFlags casefold multiline => exact hthrow
      | _ => exact hfinish
    subst hu
    simp only [Option.getD_some]
    have hmore : ∀ {state' : SymState} {buf' : List Nat}, Lex.step (.token place state buf) c =
        .token place state' buf' → state' ≠ .start → ucisnl c = false ∨ (Lex.token place state buf).blind = true →
        Reads src (getsymbol n state' buf') (c :: v) s' fun _ => Rests src := by
      intro state' buf' hstep hne hnl
      have hfaces := hahead.faces hnl
      rw [hstep] at hfaces
      exact (ih hfaces fun h => absurd h hne).suffix (List.suffix_cons c v)
    by_cases hslash : state = .sawR ∧ c = '/'.toNat
    · rw [if_pos hslash]
      have hnl : ucisnl c = false := by rw [hslash.2]; rfl
      exact hmore (if_pos hslash) SymState.noConfusion (.inl hnl)
    rw [if_neg hslash]
    have hplain : ∀ {state' : SymState}, nextState state c = state' → state' = .sawR ∨ state' = .symbol →
        state = .start ∨ state = .sawR ∨ state = .symbol →
        Reads src (if c = Runeerror then finishToken state' buf
          else if (!issym c) = true then do
            ungetc c
            finishToken state' buf
          else getsymbol n state' (buf ++ [c])) (c :: v) s' fun _ => Rests src := by
      intro state' hnext hstate' hstate
      have hfinish : ∀ {u' : List Nat} {s' : Lines}, u' <:+ c :: v → Rests src u' s' →
          Reads src (finishToken state' buf) (c :: v) s' fun _ => Rests src := by
        intro u' s' hsuf hrests
        rcases hstate' with rfl | rfl
        · exact (Reads.throw hrests.stopped).suffix hsuf
        · exact ⟨u', hsuf, hrests⟩
      have hstep : Lex.step (.token place state buf) c = if c = Runeerror then .between false
          else if (!issym c) = true then (stepOpening false c).getD (.between false)
          else .token place state' (buf ++ [c]) := by
        rcases hstate' with rfl | rfl
        · simp only [Lex.step, stepToken, if_neg hslash, hnext]
        · simp only [Lex.step, stepToken, if_neg hslash, hnext]
      by_cases herr : c = Runeerror
      · have hnl : ucisnl c = false := by rw [herr]; rfl
        rw [if_pos herr] at hstep ⊢
        exact hfinish (List.suffix_cons c v) (hahead.closed (.inl hnl) hstep)
      rw [if_neg herr] at hstep ⊢
      by_cases hsym : (!issym c) = true
      · have hc : issym c = false := by simpa using hsym
        have hbare : (Lex.token place state buf).Bare := by
          refine hstate.resolve_left fun h => ?_
          have hissym : issym c = true := hstart h c rfl
          rw [hc] at hissym
          cases hissym
        rw [if_pos hsym]
        exact Reads.ungetc_bind (hfinish List.suffix_rfl (hahead.rests hbare hc))
      · rw [if_neg hsym] at hstep ⊢
        have hne : state' ≠ .start := by
          rcases hstate' with rfl | rfl <;> exact SymState.noConfusion
        exact hmore hstep hne (.inl (ucisnl_of_issym (by simpa using hsym)))
    cases state with
    | start =>
      by_cases hr : c = 'r'.toNat
      · have hnext : nextState .start c = .sawR := if_pos hr
        rw [hnext]
        exact hplain hnext (.inl rfl) (.inl rfl)
      · have hnext : nextState .start c = .symbol := if_neg hr
        rw [hnext]
        exact hplain hnext (.inr rfl) (.inl rfl)
    | sawR =>
      have hnext : nextState .sawR c = .symbol := if_neg fun h => hslash ⟨rfl, h⟩
      rw [hnext]
      exact hplain hnext (.inr rfl) (.inr (.inl rfl))
    | symbol => exact hplain rfl (.inr rfl) (.inr (.inr rfl))
    | regex =>
      have hstep : Lex.step (.token place .regex buf) c =
          if c = '/'.toNat then .token place (.regexFlags false false) buf
          else .token place (if c = '\\'.toNat then .regexEscape else .regex) (buf ++ [c]) := by
        simp only [Lex.step, stepToken, if_neg hslash]
        rfl
      have hfaces := hahead.faces (.inr rfl)
      simp only [nextState]
      by_cases hclose : c = '/'.toNat
      · rw [if_pos hclose] at hstep ⊢
        exact hmore hstep SymState.noConfusion (.inr rfl)
      rw [if_neg hclose] at hstep ⊢
      by_cases herr : c = Runeerror
      · rw [if_pos herr]
        exact (Reads.throw hfaces.stopped).suffix (List.suffix_cons c v)
      · rw [if_neg herr]
        refine hmore hstep ?_ (.inr rfl)
        split <;> exact SymState.noConfusion
    | regexEscape =>
      have hstep : Lex.step (.token place .regexEscape buf) c = .token place .regex (buf ++ [c]) := by
        simp only [Lex.step, stepToken, if_neg hslash]
        rfl
      exact hmore hstep SymState.noConfusion (.inr rfl)
    | regexFlags casefold multiline =>
      have hstep : Lex.step (.token place (.regexFlags casefold multiline) buf) c =
          if c = 'i'.toNat ∧ casefold = false then .token place (.regexFlags true multiline) buf
          else if c = 'm'.toNat ∧ multiline = false then .token place (.regexFlags casefold true) buf
          else .between false := by
        simp only [Lex.step, stepToken, if_neg hslash]
        rfl
      have hfaces := hahead.faces (.inr rfl)
      have hthrow : ∀ {stop}, Reads src (throw stop : LineM Token) (c :: v) s' fun _ => Rests src :=
        fun {stop} => (Reads.throw hfaces.stopped).suffix (List.suffix_cons c v)
      simp only [nextState]
      by_cases hfold : c = 'i'.toNat ∧ casefold = false
      · rw [if_pos hfold] at hstep ⊢
        exact hmore hstep SymState.noConfusion (.inr rfl)
      rw [if_neg hfold] at hstep ⊢
      by_cases hlines : c = 'm'.toNat ∧ multiline = false
      · rw [if_pos hlines] at hstep ⊢
        exact hmore hstep SymState.noConfusion (.inr rfl)
      rw [if_neg hlines] at hstep ⊢
      split
      · exact hthrow
      split
      · exact ⟨v, List.suffix_cons c v, hahead.closed (.inr rfl) hstep⟩
      · exact hthrow

/-- A token whose first rune was looked at. -/
theorem getsymbol_start_reads {place : Place} {l : Lex} {c : Nat} {v : List Nat}
    (h : Ahead src l c v s) (hl : Follows l (.token place .start []) c) (hc : issym c = true) :
    Reads src (getsymbol n .start []) (c :: v) { s with port := arcUngetcRune c s.port } fun _ => Rests src := by
  refine getsymbol_reads (h.mono hl).pushed fun _ => ?_
  intro d hd
  cases hd
  exact hc

theorem readChar_reads (h : Faces src .hash u s) :
    Reads src (readChar (F := F) n) u s fun _ => Rests src := by
  rw [readChar]
  refine Reads.readc1_bind h fun c v s' hu hahead => ?_
  subst hu
  have hfaces : Faces src .hashBackslash v s' := hahead.faces (.inr rfl)
  by_cases hback : c ≠ '\\'.toNat
  · simp only [if_pos hback]
    exact (Reads.bind (Q := fun _ _ _ => False) (Reads.throw hfaces.stopped)
      fun _ _ _ _ h => h.elim).suffix (List.suffix_cons c v)
  simp only [if_neg hback]
  refine (Reads.readc1_bind hfaces fun d w s' hv hnext => ?_).suffix (List.suffix_cons c v)
  subst hv
  by_cases hsym : (!issym d) = true
  · rw [if_pos hsym]
    exact ⟨w, List.suffix_cons d w, hnext.closed (.inr rfl) (if_pos hsym)⟩
  rw [if_neg hsym]
  have hd : issym d = true := by simpa using hsym
  have hfollows : Follows .hashBackslash (.token .char .start []) d := by
    refine ⟨if_neg hsym, fun hnl => ?_, Iff.rfl, ?_⟩
    · rw [ucisnl_of_issym hd] at hnl
      cases hnl
    · rintro (h | h) <;> cases h
  refine Reads.ungetc_bind ((getsymbol_start_reads hnext hfollows hd).bind fun tok u' s' _ hrests => ?_)
  cases tok with
  | regexp rx casefold multiline => exact Reads.throw hrests.stopped
  | text tok =>
    simp only
    cases charOfToken tok with
    | some r => exact Reads.pure hrests
    | none => exact Reads.throw hrests.stopped

theorem readSymbol_reads {flo : Flonums F} {place : Place} {l : Lex} {c : Nat} {v : List Nat}
    (h : Ahead src l c v s) (hl : Follows l (.token place .start []) c) (hc : issym c = true) :
    Reads src (readSymbol flo n) (c :: v) { s with port := arcUngetcRune c s.port } fun _ => Rests src := by
  rw [readSymbol]
  refine (getsymbol_start_reads h hl hc).bind fun tok u' s' _ hrests => ?_
  cases tok with
  | regexp rx casefold multiline => exact Reads.pure hrests
  | text sym =>
    simp only
    split
    · exact Reads.pure hrests
    cases string2num flo sym with
    | error msg => exact Reads.throw hrests.stopped
    | ok num =>
      cases num with
      | none => exact Reads.pure hrests
      | some num => exact Reads.pure hrests

end Scanners

end Lined

end Arcueid.Reader
