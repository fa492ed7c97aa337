import Arcueid.Atstrings
import Arcueid.Truncation

/-! A text that is cut inside a datum: what `arc_sread` makes of it. -/

namespace Arcueid.Reader

open Outcome Bounded Utf

variable {F : Type}

section Cuts

/-- What a reader does on a text that ends in `L`, in the middle of what it reads.
Where nothing is begun it returns some `good` datum, and where only a dot is, it may
return that. A list whose first element is the end of the source is refused when the
end is told by a dot. -/
def CutBy (e : ReadEnv F) (eof : Datum F) (good : Datum F → Prop) (dot : Prop) (L : Lex)
    (res : Except Stop (Datum F × Port)) : Prop :=
  res = .error .fuel ∨ Ends e.flo L res
    ((∃ v, res = .ok (v, instring []) ∧ good v) ∨ eof = sDot ∧ Refuses res)
    (Refuses res ∨ dot ∧ res = .ok (sDot, instring []))

variable {e : ReadEnv F} {eof : Datum F} {good good' : Datum F → Prop} {dot dot' : Prop} {L : Lex}
  {res : Except Stop (Datum F × Port)}

theorem CutBy.mono (h : CutBy e eof good dot L res) (hgood : ∀ v, good v → good' v) (hdot : dot → dot') :
    CutBy e eof good' dot' L res := by
  refine h.imp_right fun h => h.imp ?_ ?_
  · rintro (⟨v, hv, hg⟩ | h)
    · exact .inl ⟨v, hv, hgood v hg⟩
    · exact .inr h
  · exact fun h => h.imp_right fun hd => ⟨hdot hd.1, hd.2⟩

theorem CutBy.of_quiet (hend : L.ending e.flo = .quiet)
    (h : res = .error .fuel ∨ ∃ v, res = .ok (v, instring []) ∧ good v) : CutBy e eof good dot L res := by
  refine h.imp_right fun h => ?_
  rw [Ends, hend]
  exact .inl h

theorem CutBy.of_error (hend : L.ending e.flo = .error) (h : Refuses res) :
    CutBy e eof good dot L res := by
  refine .inr ?_
  rw [Ends, hend]
  exact h

/-- What follows is run at the end of the source. -/
theorem CutBy.bind {x : ReadM (Datum F)} {f : Datum F → ReadM (Datum F)} {q : Port}
    (h : CutBy e eof good dot L (x q))
    (hquiet : ∀ v, good v → f v (instring []) = .error .fuel ∨
      (∃ v', f v (instring []) = .ok (v', instring []) ∧ good' v') ∨ eof = sDot ∧ Refuses (f v (instring [])))
    (hdot : dot → f sDot (instring []) = .error .fuel ∨ Refuses (f sDot (instring []))) :
    CutBy e eof good' dot' L ((x >>= f) q) := by
  have hrefuses : Refuses (x q) → Refuses ((x >>= f) q) := by
    rintro ⟨msg, hmsg⟩
    exact ⟨msg, bind_of_error hmsg⟩
  rcases h with hfuel | h
  · exact .inl (bind_of_error hfuel)
  rw [CutBy, Ends]
  rw [Ends] at h
  cases hend : L.ending e.flo with
  | quiet =>
    rw [hend] at h
    rcases h with ⟨v, hv, hg⟩ | ⟨heof, hr⟩
    · rw [bind_of_ok hv]
      exact hquiet v hg
    · exact .inr (.inr ⟨heof, hrefuses hr⟩)
  | dot =>
    rw [hend] at h
    rcases h with hr | ⟨hd, hv⟩
    · exact .inr (.inl (hrefuses hr))
    · rw [bind_of_ok hv]
      exact (hdot hd).imp_right .inl
  | error =>
    rw [hend] at h
    exact .inr (hrefuses h)
  | crash =>
    rw [hend] at h
    exact .inr (bind_of_error h)

end Cuts

section AtEnd

variable {e : ReadEnv F} {eof : Datum F} (n : Nat)

theorem scan_end : scan n (instring []) = .error .fuel ∨ scan n (instring []) = .ok (none, instring []) := by
  cases n with
  | zero => exact .inl rfl
  | succ n =>
    refine .inr ?_
    rw [scan, bind_of_ok (At.clean []).readc_nil]
    rfl

theorem sread_end : sread e n eof (instring []) = .error .fuel ∨
    sread e n eof (instring []) = .ok (eof, instring []) := by
  cases n with
  | zero => exact .inl rfl
  | succ n =>
    rw [sread]
    refine (scan_end n).imp (fun h => bind_of_error h) fun h => ?_
    rw [bind_of_ok h]
    rfl

theorem readList_end (top : List (Datum F)) (dotted : Option (Datum F)) :
    readList e n eof top dotted (instring []) = .error .fuel ∨
    readList e n eof top dotted (instring []) = .ok (eof, instring []) := by
  cases n with
  | zero => exact .inl rfl
  | succ n =>
    rw [readList]
    refine (scan_end n).imp (fun h => bind_of_error h) fun h => ?_
    rw [bind_of_ok h]
    rfl

theorem readAnonf_end (top : List (Datum F)) : readAnonf e n eof top (instring []) = .error .fuel ∨
    readAnonf e n eof top (instring []) = .ok (eof, instring []) := by
  cases n with
  | zero => exact .inl rfl
  | succ n =>
    rw [readAnonf]
    refine (scan_end n).imp (fun h => bind_of_error h) fun h => ?_
    rw [bind_of_ok h]
    rfl

end AtEnd

section Readers

/-- A datum that is neither the dot nor, where `first`, stands for it. -/
def NoDot (eof : Datum F) (first : Bool) (v : Datum F) : Prop := first = true → v = sDot → eof = sDot

def IsCons (v : Datum F) : Prop := ∃ a d, v = .cons a d

/-- The reader of strings with expressions leaves the port alone. -/
def Silent (e : ReadEnv F) : Prop :=
  ∀ f, e.atstrings = some f → ∃ g : List Nat → Except Stop (Datum F), ∀ s, f s = liftM (g s)

structure ReadersTrack (e : ReadEnv F) (eof : Datum F) (n : Nat) : Prop where
  sread : ∀ first, Tracks At (sread e n eof) (.between first) (.between false)
    (CutBy e eof (NoDot eof first) (first = true))
  readList : ∀ top dotted, (dotted.isSome = true → top ≠ []) →
    Tracks At (readList e n eof top dotted) (.between top.isEmpty) (.between false) (CutBy e eof (· = eof) False)
  readAnonf : ∀ top, Tracks At (readAnonf e n eof top) (.between false) (.between false)
    (CutBy e eof (· = eof) False)
  readq : ∀ qsym, Tracks At (readq e n qsym eof) (.between false) (.between false) (CutBy e eof IsCons False)
  readComma : Tracks At (readComma e n eof) .comma (.between false) (CutBy e eof IsCons False)

variable {e : ReadEnv F} {eof : Datum F} {n : Nat} {first : Bool}

theorem IsCons.noDot {v : Datum F} (h : IsCons v) : NoDot eof first v := by
  obtain ⟨a, d, rfl⟩ := h
  rintro - hv
  cases hv

theorem readq_tracks (ih : ReadersTrack e eof n) (qsym : List Nat) :
    Tracks At (readq e (n + 1) qsym eof) (.between false) (.between false) (CutBy e eof IsCons False) := by
  rw [readq]
  refine Tracks.bind (ih.sread false) (fun v => Tracks.pure) fun L q h => ?_
  exact h.bind (fun v _ => .inr (.inl ⟨_, rfl, _, _, rfl⟩)) fun h => Bool.noConfusion h

theorem readComma_tracks (ih : ReadersTrack e eof n) :
    Tracks At (readComma e (n + 1) eof) .comma (.between false) (CutBy e eof IsCons False) := by
  rw [readComma]
  refine Tracks.readc1_bind (fun c => ?_) (.of_error rfl ⟨_, rfl⟩)
  simp only [Lex.step]
  by_cases hat : c = '@'.toNat
  · simp only [if_pos hat]
    exact (ih.readq _).clean
  · simp only [if_neg hat]
    exact Tracks.ungetc_bind (ih.readq _)

/-- After a comment that the text ends in, the end is found. -/
theorem comment_bind {x : ReadM (Datum F)} {good : Datum F → Prop} {dot : Prop}
    (hx : Tracks At x (.between first) (.between false) (CutBy e eof good dot))
    (hend : x (instring []) = .error .fuel ∨ ∃ v, x (instring []) = .ok (v, instring []) ∧ good v) :
    Tracks At (readComment n >>= fun _ => x) (.comment first) (.between false) (CutBy e eof good dot) := by
  refine Tracks.bind (readComment_tracks first) (fun _ => hx) ?_
  rintro L q ⟨rfl, hres⟩
  rw [bind_of_ok hres]
  exact .of_quiet rfl hend

theorem readAnonf_tracks (ih : ReadersTrack e eof n) (top : List (Datum F)) :
    Tracks At (readAnonf e (n + 1) eof top) (.between false) (.between false)
      (CutBy e eof (· = eof) False) := by
  have hend : ∀ top : List (Datum F), readAnonf e n eof top (instring []) = .error .fuel ∨
      ∃ v, readAnonf e n eof top (instring []) = .ok (v, instring []) ∧ v = eof := fun top =>
    (readAnonf_end n top).imp_right fun h => ⟨eof, h, rfl⟩
  rw [readAnonf]
  refine Tracks.scan_bind (fun c _ => ?_) (.of_quiet rfl (.inr ⟨eof, rfl, rfl⟩)) n
  simp only
  by_cases hsemi : c = ';'.toNat
  · subst hsemi
    exact (comment_bind (ih.readAnonf top) (hend top)).clean
  rw [if_neg hsemi]
  by_cases hclose : c = ']'.toNat
  · subst hclose
    exact Tracks.pure.clean
  rw [if_neg hclose]
  refine Tracks.ungetc_bind (Tracks.bind (ih.sread false) (fun v => ih.readAnonf _) fun L q h => ?_)
  exact h.bind (fun v _ => (hend _).imp_right .inl) fun h => Bool.noConfusion h

/-- What `read_list` does with an element. -/
def addElement (e : ReadEnv F) (n : Nat) (eof : Datum F) (top : List (Datum F)) (v : Datum F) :
    ReadM (Datum F) :=
  match v with
  | .symbol name =>
    if name = runes "." then do
      let val ← sread e n eof
      if top = [] then throw (.error "illegal use of .")
      else readList e n eof top (some val)
    else readList e n eof (top ++ [.symbol name]) none
  | val => readList e n eof (top ++ [val]) none

theorem addElement_of_ne {top : List (Datum F)} {v : Datum F} (h : v ≠ sDot) :
    addElement e n eof top v = readList e n eof (top ++ [v]) none := by
  cases v with
  | symbol name =>
    have hname : name ≠ runes "." := by
      rintro rfl
      exact h rfl
    exact if_neg hname
  | _ => rfl

theorem addElement_sDot (top : List (Datum F)) : addElement e n eof top sDot = (do
    let val ← sread e n eof
    if top = [] then throw (.error "illegal use of .")
    else readList e n eof top (some val)) := rfl

theorem addElement_tracks (ih : ReadersTrack e eof n) (top : List (Datum F)) (v : Datum F) :
    Tracks At (addElement e n eof top v) (.between false) (.between false) (CutBy e eof (· = eof) False) := by
  by_cases hv : v = sDot
  · rw [hv, addElement_sDot]
    by_cases htop : top = []
    · refine Tracks.never fun p b p' hy => ?_
      obtain ⟨val, p₁, -, hy⟩ := yields_bind hy
      rw [if_pos htop] at hy
      exact not_yields_throw hy
    · have hmore : top.isEmpty = false := by simpa using htop
      simp only [if_neg htop]
      refine Tracks.bind (ih.sread false) (fun val => ?_) fun L q h => ?_
      · have hlist := ih.readList top (some val) fun _ => htop
        rwa [hmore] at hlist
      · refine h.bind (fun v _ => ?_) fun h => Bool.noConfusion h
        exact (readList_end n top (some v)).imp_right fun h => .inl ⟨eof, h, rfl⟩
  · rw [addElement_of_ne hv]
    have h := ih.readList (top ++ [v]) none Bool.noConfusion
    rwa [show (top ++ [v]).isEmpty = false by simp] at h

/-- Behind a dot, the end of the source is the tail of the list, if it has one. -/
theorem addElement_end (top : List (Datum F)) (v : Datum F) :
    addElement e n eof top v (instring []) = .error .fuel ∨
    (¬ (v = sDot ∧ top = []) ∧ addElement e n eof top v (instring []) = .ok (eof, instring [])) ∨
    v = sDot ∧ top = [] ∧ Refuses (addElement e n eof top v (instring [])) := by
  by_cases hv : v = sDot
  · rw [hv, addElement_sDot]
    have hend : sread e n eof (instring []) = .error .fuel ∨
        sread e n eof (instring []) = .ok (eof, instring []) := sread_end n
    rcases hend with h | h
    · exact .inl (bind_of_error h)
    · rw [bind_of_ok h]
      by_cases htop : top = []
      · rw [if_pos htop]
        exact .inr (.inr ⟨rfl, htop, _, rfl⟩)
      · rw [if_neg htop]
        exact (readList_end n top (some eof)).imp_right fun h => .inl ⟨fun h => htop h.2, h⟩
  · rw [addElement_of_ne hv]
    exact (readList_end n (top ++ [v]) none).imp_right fun h => .inl ⟨fun h => hv h.1, h⟩

theorem readList_tracks (ih : ReadersTrack e eof n) (top : List (Datum F)) (dotted : Option (Datum F))
    (hdotted : dotted.isSome = true → top ≠ []) :
    Tracks At (readList e (n + 1) eof top dotted) (.between top.isEmpty) (.between false)
      (CutBy e eof (· = eof) False) := by
  have hend : ∀ (top : List (Datum F)) dotted, readList e n eof top dotted (instring []) = .error .fuel ∨
      ∃ v, readList e n eof top dotted (instring []) = .ok (v, instring []) ∧ v = eof := fun top dotted =>
    (readList_end n top dotted).imp_right fun h => ⟨eof, h, rfl⟩
  rw [readList]
  refine Tracks.scan_bind (fun c _ => ?_) (.of_quiet rfl (.inr ⟨eof, rfl, rfl⟩)) n
  simp only
  by_cases hsemi : c = ';'.toNat
  · subst hsemi
    exact (comment_bind (ih.readList top dotted hdotted) (hend top dotted)).clean
  rw [if_neg hsemi]
  by_cases hclose : c = ')'.toNat
  · subst hclose
    exact Tracks.pure.clean
  rw [if_neg hclose]
  by_cases hafter : dotted.isSome = true
  · rw [if_pos hafter]
    exact Tracks.throw
  rw [if_neg hafter]
  refine Tracks.ungetc_bind (Tracks.bind (ih.sread top.isEmpty) (addElement_tracks ih top) fun L q h => ?_)
  have helement := @addElement_end F e eof n
  refine h.bind (fun v hv => ?_) fun hempty => ?_
  · rcases helement top v with hfuel | ⟨-, hok⟩ |
      ⟨rfl, rfl, hrefuses⟩
    · exact .inl hfuel
    · exact .inr (.inl ⟨eof, hok, rfl⟩)
    · exact .inr (.inr ⟨hv rfl rfl, hrefuses⟩)
  · obtain rfl := List.isEmpty_iff.mp hempty
    rcases helement [] sDot with hfuel | ⟨hne, -⟩ | ⟨-, -, hrefuses⟩
    · exact .inl hfuel
    · exact absurd ⟨rfl, rfl⟩ hne
    · exact .inr hrefuses

/-- The reader of a string has none of it when the text ends. -/
theorem string_tracks (hsilent : Silent e) {good : Datum F → Prop} {dot : Prop} :
    Tracks At (readString n .normal [] >>= fun s =>
        match e.atstrings with
        | some readAtstring => readAtstring s
        | none => pure (.string s)) (.string .normal) (.between false) (CutBy e eof good dot) := by
  refine Tracks.bind readString_tracks (fun s => ?_) ?_
  · cases hat : e.atstrings with
    | none => exact Tracks.pure
    | some f =>
      obtain ⟨g, hg⟩ := hsilent f hat
      simp only [hg]
      exact Tracks.lift
  · rintro L q ⟨⟨state, rfl⟩, hres⟩
    exact .of_error rfl ⟨_, bind_of_error hres⟩

theorem readChar_cut : Tracks At (readChar n) .hash (.between false)
    (CutBy e eof (fun v => ∃ r, v = .char r) False) := by
  refine (readChar_tracks e.flo).mono fun L res h => .inr (h.imp ?_ False.elim)
  rintro ⟨r, hr⟩
  exact .inl ⟨.char r, hr, r, rfl⟩

theorem readSymbol_cut : Tracks At (readSymbol e.flo n) (.token (if first then .first else .plain) .start [])
    (.between false) (CutBy e eof (NoDot eof first) (first = true)) := by
  have hplace : (if first then Place.first else .plain) ≠ .char := by
    cases first <;> exact Place.noConfusion
  have hfirst : (if first then Place.first else .plain) = .first ↔ first = true := by
    cases first <;> decide
  obtain ⟨G, hG, htracks⟩ := symbol_tracks e.flo hplace
  rw [hG]
  refine (htracks n .start []).mono fun L res h => .inr (h.imp ?_ ?_)
  · rintro ⟨-, v, hv, hne⟩
    exact .inl ⟨v, hv, fun hf hdot => absurd hdot (hne (hfirst.mpr hf))⟩
  · rintro ⟨-, hf, hv⟩
    exact .inr ⟨hfirst.mp hf, hv⟩

theorem sread_tracks (hsilent : Silent e) (ih : ReadersTrack e eof n) (first : Bool) :
    Tracks At (sread e (n + 1) eof) (.between first) (.between false)
      (CutBy e eof (NoDot eof first) (first = true)) := by
  have hlist : ∀ v, v = eof → NoDot eof first v := by
    rintro v rfl - hv
    exact hv
  have hcons : ∀ {L : Lex} {res}, CutBy e eof IsCons False L res →
      CutBy e eof (NoDot eof first) (first = true) L res := fun h =>
    h.mono (fun v hv => hv.noDot) False.elim
  rw [sread]
  refine Tracks.scan_bind (fun c hspace => ?_) (.of_quiet rfl (.inr ⟨eof, rfl, hlist eof rfl⟩)) n
  simp only
  by_cases hopen : c = '('.toNat
  · subst hopen
    exact ((ih.readList [] none Bool.noConfusion).mono fun L res h => h.mono hlist False.elim).clean
  rw [if_neg hopen]
  by_cases hclose : c = ')'.toNat
  · rw [if_pos hclose]
    exact Tracks.throw
  rw [if_neg hclose]
  by_cases hbopen : c = '['.toNat
  · subst hbopen
    exact ((ih.readAnonf []).mono fun L res h => h.mono hlist False.elim).clean
  rw [if_neg hbopen]
  by_cases hbclose : c = ']'.toNat
  · rw [if_pos hbclose]
    exact Tracks.throw
  rw [if_neg hbclose]
  by_cases hquote : c = '\''.toNat
  · subst hquote
    exact ((ih.readq _).mono fun L res => hcons).clean
  rw [if_neg hquote]
  by_cases hqquote : c = '`'.toNat
  · subst hqquote
    exact ((ih.readq _).mono fun L res => hcons).clean
  rw [if_neg hqquote]
  by_cases hcomma : c = ','.toNat
  · subst hcomma
    exact (ih.readComma.mono fun L res => hcons).clean
  rw [if_neg hcomma]
  by_cases hstring : c = '"'.toNat
  · subst hstring
    exact (string_tracks hsilent).clean
  rw [if_neg hstring]
  by_cases hhash : c = '#'.toNat
  · subst hhash
    refine (readChar_cut.mono fun L res h => h.mono ?_ False.elim).clean
    rintro v ⟨r, rfl⟩ - hv
    cases hv
  rw [if_neg hhash]
  by_cases hsemi : c = ';'.toNat
  · subst hsemi
    refine (comment_bind (ih.sread first) ?_).clean
    exact (sread_end n).imp_right fun h => ⟨eof, h, hlist eof rfl⟩
  rw [if_neg hsemi]
  have hstep : stepBetween first c = Lex.step (.token (if first then .first else .plain) .start []) c := by
    have hnone : stepOpening first c = none := by
      simp only [stepOpening, hspace, hopen, hclose, hbopen, hbclose, hquote, hqquote, hcomma, hstring, hhash,
        hsemi, Bool.false_eq_true, or_self, if_false]
    rw [stepBetween, hnone]
    rfl
  rw [hstep]
  exact Tracks.ungetc_bind readSymbol_cut

theorem readersTrack (hsilent : Silent e) (n : Nat) : ReadersTrack e eof n := by
  induction n with
  | zero => exact ⟨fun _ => Tracks.throw, fun _ _ _ => Tracks.throw, fun _ => Tracks.throw,
      fun _ => Tracks.throw, Tracks.throw⟩
  | succ n ih => exact ⟨sread_tracks hsilent ih, readList_tracks ih, readAnonf_tracks ih, readq_tracks ih,
      readComma_tracks ih⟩

end Readers

end Arcueid.Reader
