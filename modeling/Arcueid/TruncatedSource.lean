import Arcueid.TokenBoundaries
import Arcueid.TruncatedRead

/-! Source that ends within a datum: when `arc_sread` refuses it or tells the end. -/

namespace Arcueid.Reader

open Outcome Bounded Utf

variable {F : Type}

section Openings

variable {e : ReadEnv F} {eof : Datum F} {c : Nat} {u v s : List Nat} {p : Port}

/-- Leaves out blanks and comments in front of a datum; `comment` says whether the text
begins within a comment. -/
def skipFrom : Bool → List Nat → List Nat
  | _, [] => []
  | true, c :: cs => skipFrom (!(c = Runeerror || ucisnl c)) cs
  | false, c :: cs =>
    if ucisspace c then skipFrom false cs
    else if c = ';'.toNat then skipFrom true cs
    else c :: cs

def skip (u : List Nat) : List Nat := skipFrom false u

/-- `S` looks for a datum behind blanks and comments as `arc_sread` does, and goes on
with `K`. -/
structure Skips {α : Type} (S : Nat → ReadM α) (K : Nat → Option Nat → ReadM α) : Prop where
  zero : S 0 = throw .fuel
  succ : ∀ n, S (n + 1) = scan n >>= K n
  comment : ∀ n, K n (some ';'.toNat) = readComment n >>= fun _ => S n

theorem scan_bind_cons {α : Type} {f : Option Nat → ReadM α} (hp : At p (c :: u)) (j : Nat) :
    (scan (j + 1) >>= f) p =
      if ucisspace c = true then (scan j >>= f) (instring u) else f (some c) (instring u) := by
  rw [scan, bind_assoc, bind_of_ok hp.readc_cons]
  simp only
  split <;> rfl

theorem readComment_bind_cons {α : Type} {x : ReadM α} (hp : At p (c :: u)) (j : Nat) :
    (readComment (j + 1) >>= fun _ => x) p =
      if c = Runeerror ∨ ucisnl c = true then x (instring u)
      else (readComment j >>= fun _ => x) (instring u) := by
  rw [readComment, bind_assoc, bind_of_ok hp.readc_cons]
  simp only [Option.getD_some]
  by_cases herr : c = Runeerror
  · rw [if_pos herr, if_pos (.inl herr)]
    rfl
  · by_cases hnl : ucisnl c = true
    · rw [if_neg herr, if_pos hnl, if_pos (.inr hnl)]
      rfl
    · rw [if_neg herr, if_neg hnl, if_neg (by simp [herr, hnl])]

theorem skipFrom_comment (c : Nat) (u : List Nat) :
    skipFrom true (c :: u) = if c = Runeerror ∨ ucisnl c = true then skipFrom false u else skipFrom true u := by
  by_cases herr : c = Runeerror
  · simp [skipFrom, herr]
  · cases hnl : ucisnl c <;> simp [skipFrom, herr, hnl]

/-- Over the text: the datum begins behind a blank, or at the end of a comment. -/
theorem Skips.run {α : Type} {S : Nat → ReadM α} {K : Nat → Option Nat → ReadM α} (h : Skips S K)
    (u : List Nat) :
    (skipFrom false u = c :: v → ∀ n j, ∃ m, ∀ s p, At p (u ++ s) →
      (scan j >>= K n) p = .error .fuel ∨ (scan j >>= K n) p = K m (some c) (instring (v ++ s))) ∧
    (skipFrom true u = c :: v → ∀ n j, ∃ m, ∀ s p, At p (u ++ s) →
      (readComment j >>= fun _ => S n) p = .error .fuel ∨
      (readComment j >>= fun _ => S n) p = K m (some c) (instring (v ++ s))) := by
  induction u with
  | nil =>
    constructor
    · intro h
      cases h
    · intro h
      cases h
  | cons d u ih =>
    refine ⟨fun hskip n j => ?_, fun hskip n j => ?_⟩
    · cases j with
      | zero => exact ⟨0, fun s p _ => .inl rfl⟩
      | succ j =>
        have hread : ∀ {s p}, At p (d :: u ++ s) → _ := fun {s p} hp =>
          scan_bind_cons (u := u ++ s) (f := K n) hp j
        rw [skipFrom] at hskip
        by_cases hspace : ucisspace d = true
        · rw [if_pos hspace] at hskip
          obtain ⟨m, hm⟩ := ih.1 hskip n j
          refine ⟨m, fun s p hp => ?_⟩
          rw [hread hp, if_pos hspace]
          exact hm s _ (.clean _)
        rw [if_neg hspace] at hskip
        by_cases hsemi : d = ';'.toNat
        · rw [if_pos hsemi] at hskip
          obtain ⟨m, hm⟩ := ih.2 hskip n n
          refine ⟨m, fun s p hp => ?_⟩
          rw [hread hp, if_neg hspace, hsemi, h.comment]
          exact hm s _ (.clean _)
        · rw [if_neg hsemi] at hskip
          obtain ⟨rfl, rfl⟩ := List.cons.inj hskip
          exact ⟨n, fun s p hp => .inr (by rw [hread hp, if_neg hspace])⟩
    · cases j with
      | zero => exact ⟨0, fun s p _ => .inl rfl⟩
      | succ j =>
        have hread : ∀ {s p}, At p (d :: u ++ s) → _ := fun {s p} hp =>
          readComment_bind_cons (u := u ++ s) (x := S n) hp j
        rw [skipFrom_comment] at hskip
        by_cases hline : d = Runeerror ∨ ucisnl d = true
        · rw [if_pos hline] at hskip
          cases n with
          | zero =>
            refine ⟨0, fun s p hp => .inl ?_⟩
            rw [hread hp, if_pos hline, h.zero]
            rfl
          | succ n =>
            obtain ⟨m, hm⟩ := ih.1 hskip n n
            refine ⟨m, fun s p hp => ?_⟩
            rw [hread hp, if_pos hline, h.succ]
            exact hm s _ (.clean _)
        · rw [if_neg hline] at hskip
          obtain ⟨m, hm⟩ := ih.2 hskip n j
          refine ⟨m, fun s p hp => ?_⟩
          rw [hread hp, if_neg hline]
          exact hm s _ (.clean _)

theorem lex_skipFrom (u : List Nat) :
    (skipFrom false u = c :: v → lex (.between false) u = lex (stepBetween false c) v) ∧
    (skipFrom true u = c :: v → lex (.comment false) u = lex (stepBetween false c) v) := by
  induction u with
  | nil =>
    constructor
    · intro h
      cases h
    · intro h
      cases h
  | cons d u ih =>
    refine ⟨fun hskip => ?_, fun hskip => ?_⟩
    · rw [skipFrom] at hskip
      by_cases hspace : ucisspace d = true
      · rw [if_pos hspace] at hskip
        rw [lex_cons, step_blank hspace false]
        exact ih.1 hskip
      rw [if_neg hspace] at hskip
      by_cases hsemi : d = ';'.toNat
      · rw [if_pos hsemi] at hskip
        rw [hsemi]
        exact ih.2 hskip
      · rw [if_neg hsemi] at hskip
        obtain ⟨rfl, rfl⟩ := List.cons.inj hskip
        rfl
    · rw [skipFrom_comment] at hskip
      rw [lex_cons, Lex.step]
      by_cases hline : d = Runeerror ∨ ucisnl d = true
      · rw [if_pos hline] at hskip ⊢
        exact ih.1 hskip
      · rw [if_neg hline] at hskip ⊢
        exact ih.2 hskip

end Openings

section Openers

variable {e : ReadEnv F} {eof : Datum F} {n : Nat} {L : Lex}

/-- A datum that is no end of the source. -/
def Foreign (v : Datum F) : Prop := IsCons v ∨ ∃ r, v = .char r

/-- What `arc_sread` does behind the first rune of a datum. -/
structure Opens (e : ReadEnv F) (eof : Datum F) (K : Nat → Option Nat → ReadM (Datum F)) : Prop where
  skips : Skips (fun n => sread e n eof) K
  list : ∀ n, K n (some '('.toNat) = readList e n eof [] none
  anonf : ∀ n, K n (some '['.toNat) = readAnonf e n eof []
  quote : ∀ n, K n (some '\''.toNat) = readq e n (runes "quote") eof
  qquote : ∀ n, K n (some '`'.toNat) = readq e n (runes "quasiquote") eof
  comma : ∀ n, K n (some ','.toNat) = readComma e n eof
  string : ∀ n, K n (some '"'.toNat) = readString n .normal [] >>= fun s =>
    match e.atstrings with
    | some readAtstring => readAtstring s
    | none => pure (.string s)
  char : ∀ n, K n (some '#'.toNat) = readChar n
  symbol : ∀ n, K n (some 'r'.toNat) = ungetc 'r'.toNat >>= fun _ => readSymbol e.flo n

theorem opens (e : ReadEnv F) (eof : Datum F) : ∃ K, Opens e eof K :=
  ⟨_, ⟨rfl, fun n => by rw [sread], fun n => rfl⟩, fun n => rfl, fun n => rfl, fun n => rfl, fun n => rfl,
    fun n => rfl, fun n => rfl, fun n => rfl, fun n => rfl⟩

variable {K : Nat → Option Nat → ReadM (Datum F)} {c : Nat} {p : Port} {w : List Nat}

/-- Behind what opens a list, a bracket function or a string. -/
theorem Opens.tracks_eof (h : Opens e eof K) (hsilent : Silent e) (hc : c ∈ runes "([\"") :
    Tracks Clean (K n (some c)) (stepBetween false c) (.between false) (CutBy e eof (· = eof) False) := by
  have ih : ReadersTrack e eof n := readersTrack hsilent n
  obtain rfl | rfl | rfl : c = '('.toNat ∨ c = '['.toNat ∨ c = '"'.toNat := by simpa [runes] using hc
  · rw [h.list]
    exact (ih.readList [] none Bool.noConfusion).clean
  · rw [h.anonf]
    exact (ih.readAnonf []).clean
  · rw [h.string]
    exact (string_tracks hsilent).clean

/-- Behind a quote prefix or what may become a character. -/
theorem Opens.tracks_foreign (h : Opens e eof K) (hsilent : Silent e) (hc : c ∈ runes "'`,#") :
    Tracks Clean (K n (some c)) (stepBetween false c) (.between false) (CutBy e eof Foreign False) := by
  have ih : ReadersTrack e eof n := readersTrack hsilent n
  have hcons : ∀ {L : Lex} {res}, CutBy e eof IsCons False L res → CutBy e eof Foreign False L res :=
    fun h => h.mono (fun v hv => .inl hv) id
  obtain rfl | rfl | rfl | rfl : c = '\''.toNat ∨ c = '`'.toNat ∨ c = ','.toNat ∨ c = '#'.toNat := by
    simpa [runes] using hc
  · rw [h.quote]
    exact ((ih.readq _).mono fun L res => hcons).clean
  · rw [h.qquote]
    exact ((ih.readq _).mono fun L res => hcons).clean
  · rw [h.comma]
    exact (ih.readComma.mono fun L res => hcons).clean
  · rw [h.char]
    exact (readChar_cut.mono fun L res h => h.mono (fun v hv => .inr hv) id).clean

theorem getsymbol_slash {α : Type} {G : Token → ReadM α} (n : Nat) : ∃ k, ∀ p w,
    At p ('r'.toNat :: '/'.toNat :: w) → (getsymbol n .start [] >>= G) p = .error .fuel ∨
      (getsymbol n .start [] >>= G) p = (getsymbol k .regex [] >>= G) (instring w) := by
  rcases n with _ | _ | n
  · exact ⟨0, fun p w _ => .inl rfl⟩
  · refine ⟨0, fun p w hp => .inl ?_⟩
    rw [getsymbol, bind_assoc, bind_of_ok hp.readc_cons]
    rfl
  · refine ⟨n, fun p w hp => .inr ?_⟩
    rw [getsymbol, bind_assoc, bind_of_ok hp.readc_cons]
    change (getsymbol (n + 1) .sawR ['r'.toNat] >>= G) (instring ('/'.toNat :: w)) = _
    rw [getsymbol, bind_assoc, bind_of_ok (At.clean _).readc_cons]
    rfl

end Openers

section Source

variable {e : ReadEnv F} {eof d : Datum F} {n : Nat} {p s : List Nat} {q : Port}

def quotePrefixes : List (List Nat) := [runes "'", runes "`", runes ",", runes ",@"]

/-- The text ends in a list, a bracket function, a string, a regular expression or a
character, or right behind a quote, quasiquote or unquote prefix, at any depth. -/
inductive Inside : List Nat → Prop
  | opened {c : Nat} {u v : List Nat} : skip u = c :: v → c ∈ runes "([\"#" → Inside u
  | regexp {u v : List Nat} : skip u = 'r'.toNat :: '/'.toNat :: v → Inside u
  | behind {u q v : List Nat} : skip u = q ++ v → q ∈ quotePrefixes → skip v = [] → Inside u
  | quoted {u q v : List Nat} : skip u = q ++ v → q ∈ quotePrefixes → Inside v → Inside u

/-- The text begins with a quote prefix or as a character does. -/
def Prefixed (u : List Nat) : Prop := ∃ c v, skip u = c :: v ∧ c ∈ runes "'`,#"

/-- The reader returns `d` and has read the text to its end. -/
def ReadsWhole (e : ReadEnv F) (eof d : Datum F) (t : List Nat) : Prop :=
  ∃ n, ∀ fuel ≥ n, ∃ q, sread e fuel eof (instring t) = .ok (d, q) ∧ At q []

/-- The reader raises an error or returns the value for the end of the source. -/
def NoDatum (e : ReadEnv F) (eof : Datum F) (p : List Nat) : Prop :=
  ∃ n, ∀ fuel ≥ n, Refuses (sread e fuel eof (instring p)) ∨
    ∃ q, sread e fuel eof (instring p) = .ok (eof, q)

/-- What the text breaks off in is refused, or nothing at its front is made a datum of. -/
def Caught (flo : Flonums F) (p : List Nat) : Prop :=
  match (lex (.between false) p).ending flo with
  | .error | .dot => True
  | .crash => False
  | .quiet => ¬ Prefixed p

/-- A value for the end of the source that no text cut within it stands for. -/
def Marker (eof : Datum F) : Prop := eof ≠ sDot ∧ ¬ Foreign eof

theorem Inside.begins {u : List Nat} (h : Inside u) :
    (∃ c v, skip u = c :: v ∧ (c ∈ runes "([\"" ∨ c ∈ runes "'`,#")) ∨
      ∃ v, skip u = 'r'.toNat :: '/'.toNat :: v := by
  have hquote : ∀ {u q v : List Nat}, skip u = q ++ v → q ∈ quotePrefixes →
      ∃ c w, skip u = c :: w ∧ c ∈ runes "'`,#" := by
    intro u q v hskip hq
    have hheads : ∀ q ∈ quotePrefixes, q ≠ [] ∧ ∀ c ∈ q.head?, c ∈ runes "'`,#" := by decide
    obtain ⟨c, w, rfl⟩ := List.exists_cons_of_ne_nil (hheads q hq).1
    exact ⟨c, w ++ v, hskip, (hheads _ hq).2 c rfl⟩
  cases h with
  | @opened c u v hskip hc =>
    have hsplit : ∀ c ∈ runes "([\"#", c ∈ runes "([\"" ∨ c ∈ runes "'`,#" := by decide
    exact .inl ⟨c, v, hskip, hsplit c hc⟩
  | regexp hskip => exact .inr ⟨_, hskip⟩
  | behind hskip hq _ =>
    obtain ⟨c, w, hw, hc⟩ := hquote hskip hq
    exact .inl ⟨c, w, hw, .inr hc⟩
  | quoted hskip hq _ =>
    obtain ⟨c, w, hw, hc⟩ := hquote hskip hq
    exact .inl ⟨c, w, hw, .inr hc⟩

theorem At.append_nil {r : List Nat} (h : At q (r ++ s)) (hend : At q []) : s = [] := by
  cases hend with
  | clean => exact (List.append_eq_nil_iff.mp h.instring_eq).2

/-- Cut short, a text that was read to its end is cut within its datum. -/
theorem Tracks.cut_of_end {x : ReadM (Datum F)} {l after : Lex} {v : List Nat}
    {cut : Lex → Except Stop (Datum F × Port) → Prop} (h : Tracks Clean x l after cut) (hs : s ≠ [])
    (hx : x (instring (v ++ s)) = .ok (d, q)) (hq : At q []) : cut (lex l v) (x (instring v)) := by
  rcases h v s _ _ d q rfl rfl hx with ⟨r, q', hp, -⟩ | hcut
  · exact absurd (hp.append_nil hq) hs
  · exact hcut

/-- A text that is cut within its datum is read by what its front opens. -/
theorem inside_cut (hsilent : Silent e) (hs : s ≠ [])
    (hread : sread e n eof (instring (p ++ s)) = .ok (d, q)) (hq : At q []) (hp : Inside p) :
    CutBy e eof (fun v => (Prefixed p → Foreign v) ∧ (¬ Prefixed p → v = eof)) False
      (lex (.between false) p) (sread e n eof (instring p)) := by
  obtain ⟨K, hK⟩ := opens e eof
  cases n with
  | zero => cases hread
  | succ n =>
    have hrun : ∀ {c v}, skip p = c :: v → ∃ m, K m (some c) (instring (v ++ s)) = .ok (d, q) ∧
        (sread e (n + 1) eof (instring p) = .error .fuel ∨
          sread e (n + 1) eof (instring p) = K m (some c) (instring v)) := by
      intro c v hskip
      obtain ⟨m, hm⟩ := (hK.skips.run p).1 hskip n n
      rw [← hK.skips.succ] at hm
      refine ⟨m, ?_, ?_⟩
      · rcases hm s _ (.clean _) with hfuel | hok
        · exact absurd (hread.symm.trans hfuel) (fun h => by cases h)
        · exact hok.symm.trans hread
      · have hcut := hm [] (instring p) (by rw [List.append_nil]; exact .clean p)
        rwa [List.append_nil] at hcut
    have hlex : ∀ {c v}, skip p = c :: v → lex (.between false) p = lex (stepBetween false c) v :=
      (lex_skipFrom p).1
    rcases hp.begins with ⟨c, v, hskip, hc⟩ | ⟨v, hskip⟩
    · obtain ⟨m, hok, hfuel | hsame⟩ := hrun hskip
      · exact .inl hfuel
      rw [hlex hskip, hsame]
      rcases hc with hopen | hforeign
      · have hnot : ¬ Prefixed p := by
          rintro ⟨c', v', hskip', hc'⟩
          obtain ⟨rfl, -⟩ := List.cons.inj (hskip.symm.trans hskip')
          have hdisjoint : ∀ c ∈ runes "([\"", c ∉ runes "'`,#" := by decide
          exact hdisjoint c hopen hc'
        refine ((hK.tracks_eof hsilent hopen).cut_of_end hs hok hq).mono ?_ id
        exact fun v hv => ⟨fun h => absurd h hnot, fun _ => hv⟩
      · have hpre : Prefixed p := ⟨c, v, hskip, hforeign⟩
        refine ((hK.tracks_foreign hsilent hforeign).cut_of_end hs hok hq).mono ?_ id
        exact fun v hv => ⟨fun _ => hv, fun h => absurd hpre h⟩
    · obtain ⟨m, hok, hfuel | hsame⟩ := hrun hskip
      · exact .inl hfuel
      have hplain : Place.plain ≠ .char := Place.noConfusion
      obtain ⟨G, hG, htracks⟩ := symbol_tracks e.flo hplain
      obtain ⟨k, hk⟩ := getsymbol_slash (G := G) m
      rw [hK.symbol, bind_of_ok ungetc_instring, hG] at hok
      rw [hK.symbol, bind_of_ok ungetc_instring, hG] at hsame
      rw [hlex hskip, hsame]
      rcases hk _ v (.pushed _ _) with hfuel | hregex
      · exact .inl hfuel
      have hlong : (getsymbol k .regex [] >>= G) (instring (v ++ s)) = .ok (d, q) := by
        rcases hk _ (v ++ s) (.pushed _ _) with hfuel | hregex
        · exact absurd (hok.symm.trans hfuel) (fun h => by cases h)
        · exact hregex.symm.trans hok
      have hcut := (htracks k .regex []).clean.cut_of_end hs hlong hq
      rw [hregex]
      exact .inr (hcut.imp (fun h => absurd trivial h.1) fun h => absurd trivial h.1)

theorem Settings.silent (c : Settings F) (t : List Nat) : Silent (c.env t) := by
  intro f hf
  have hsome : (if c.atstrings then some (atstringReader c.flo t.length) else none) = some f := hf
  split at hsome
  · obtain rfl := Option.some.inj hsome
    cases t.length with
    | zero => exact ⟨fun _ => .error .fuel, fun s => rfl⟩
    | succ n => exact ⟨_, fun s => rfl⟩
  · cases hsome

/-- Whatever the text is a part of, no bound on the loops gives less than the text's
own length allows. -/
theorem Settings.enough (c : Settings F) {p t : List Nat} {fuel : Nat} (hp : p.length ≤ t.length)
    (hfuel : readFuel p ≤ fuel) : sread (c.env t) fuel eof (instring p) ≠ .error .fuel :=
  ((readersSettle (c.settle t) fuel).sread (At.clean p) hp hfuel).enough

end Source

theorem truncated_iff (c : Settings F) {eof d : Datum F} {p s : List Nat} (hs : s ≠ [])
    (ht : ReadsWhole (c.env (p ++ s)) eof d (p ++ s)) (hp : Inside p) :
    (Caught c.flo p → NoDatum (c.env (p ++ s)) eof p) ∧
      (Marker eof → NoDatum (c.env (p ++ s)) eof p → Caught c.flo p) := by
  obtain ⟨n, hn⟩ := ht
  have hcut : ∀ fuel ≥ max n (readFuel p), ∀ res, sread (c.env (p ++ s)) fuel eof (instring p) = res →
      Ends c.flo (lex (.between false) p) res
        ((∃ v, res = .ok (v, instring []) ∧ (Prefixed p → Foreign v) ∧ (¬ Prefixed p → v = eof)) ∨
          eof = sDot ∧ Refuses res)
        (Refuses res ∨ False ∧ res = .ok (sDot, instring [])) := by
    rintro fuel hfuel res rfl
    obtain ⟨q, hread, hq⟩ := hn fuel (by omega)
    refine (inside_cut (c.silent _) hs hread hq hp).resolve_left ?_
    exact c.enough (by simp) (by omega)
  constructor
  · refine fun hcaught => ⟨max n (readFuel p), fun fuel hfuel => ?_⟩
    have hend := hcut fuel hfuel _ rfl
    rw [Caught] at hcaught
    rw [Ends] at hend
    cases hl : (lex (.between false) p).ending c.flo with
    | quiet =>
      rw [hl] at hcaught hend
      rcases hend with ⟨v, hv, hgood⟩ | ⟨-, hrefuses⟩
      · rw [hgood.2 hcaught] at hv
        exact .inr ⟨_, hv⟩
      · exact .inl hrefuses
    | error =>
      rw [hl] at hend
      exact .inl hend
    | crash =>
      rw [hl] at hcaught
      exact hcaught.elim
    | dot =>
      rw [hl] at hend
      rcases hend with hrefuses | ⟨hfalse, -⟩
      · exact .inl hrefuses
      · exact hfalse.elim
  · rintro hmarker ⟨m, hm⟩
    have hno := hm (max m (max n (readFuel p))) (by omega)
    generalize hres : sread (c.env (p ++ s)) (max m (max n (readFuel p))) eof (instring p) = res at hno
    have hend := hcut _ (by omega) res hres
    rw [Caught]
    rw [Ends] at hend
    cases hl : (lex (.between false) p).ending c.flo with
    | quiet =>
      rw [hl] at hend
      rintro hpre
      rcases hend with ⟨v, rfl, hgood⟩ | ⟨heof, -⟩
      · rcases hno with ⟨msg, hmsg⟩ | ⟨q, hq⟩
        · cases hmsg
        · have hv : v = eof := congrArg Prod.fst (Except.ok.inj hq)
          exact hmarker.2 (hv ▸ hgood.1 hpre)
      · exact hmarker.1 heof
    | crash =>
      rw [hl] at hend
      rcases hno with ⟨msg, hmsg⟩ | ⟨q, hq⟩
      · cases hend.symm.trans hmsg
      · cases hend.symm.trans hq
    | error => trivial
    | dot => trivial

/-- A reader without floating point numbers, and `atstrings` not declared. -/
def plainSettings : Settings Unit := ⟨noFlonums.flo, false⟩

theorem truncated_iff_paren :
    (Caught plainSettings.flo (runes "(") → NoDatum (plainSettings.env (runes "()")) .nil (runes "(")) ∧
      (Marker (Datum.nil : Datum Unit) → NoDatum (plainSettings.env (runes "()")) .nil (runes "(") →
        Caught plainSettings.flo (runes "(")) := by
  have hwhole : ReadsWhole (plainSettings.env (runes "(" ++ runes ")")) .nil .nil (runes "(" ++ runes ")") := by
    refine ⟨4, fun fuel hfuel => ⟨instring [], ?_, .clean []⟩⟩
    obtain ⟨n, rfl⟩ := Nat.exists_eq_add_of_le' hfuel
    rfl
  exact truncated_iff plainSettings (List.cons_ne_nil _ _) hwhole (.opened rfl (by decide))

/-- Cut inside the list, a quoted list is read as the quoted end of the source. -/
theorem quoted_end : ¬ ∀ (c : Settings Unit) (eof d : Datum Unit) (p s : List Nat), s ≠ [] →
    ReadsWhole (c.env (p ++ s)) eof d (p ++ s) → Inside p → NoDatum (c.env (p ++ s)) eof p := by
  intro hall
  have hwhole : ReadsWhole (plainSettings.env (runes "'(" ++ runes ")")) .nil
      (list [.symbol (runes "quote"), .nil] .nil) (runes "'(" ++ runes ")") := by
    refine ⟨6, fun fuel hfuel => ⟨instring [], ?_, .clean []⟩⟩
    obtain ⟨n, rfl⟩ := Nat.exists_eq_add_of_le' hfuel
    rfl
  have hinside : Inside (runes "'(") :=
    .quoted (q := runes "'") (v := runes "(") rfl (by decide) (.opened rfl (by decide))
  obtain ⟨m, hm⟩ := hall plainSettings .nil _ _ _ (List.cons_ne_nil _ _) hwhole hinside
  have hread : sread (plainSettings.env (runes "'(" ++ runes ")")) (m + 6) .nil (instring (runes "'(")) =
      .ok (list [.symbol (runes "quote"), .nil] .nil, instring []) := rfl
  rcases hm (m + 6) (by omega) with ⟨msg, hmsg⟩ | ⟨q, hq⟩
  · cases hread.symm.trans hmsg
  · cases hread.symm.trans hq

end Arcueid.Reader
