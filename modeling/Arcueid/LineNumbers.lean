import Arcueid.LineTracking

/-! The line numbers that `arc_sread` records: each is that of the character that opens
its datum, but for newlines that are passed over and strings with expressions in them. -/

namespace Arcueid.Reader.Lined

open Utf

variable {F : Type} {src : Source}

section Readers

/-- The number is that of the opening character, before `u`, the missed newlines apart. -/
def Right (src : Source) (u : List Nat) (m : Mark) : Prop :=
  u <:+ m.opening ∧ ∃ b, src.text = b ++ m.opening ∧
    m.line + missed (.between false) b = src.lineno + newlines b

def AllRight (src : Source) (u : List Nat) (ds : List (Located F)) : Prop :=
  Interpolated src u ∨ ∀ d ∈ ds, ∀ m ∈ d.marks, Right src u m

/-- A datum is read, in front of `u`. -/
def DatumRead (src : Source) (d : Located F) (u : List Nat) (s : Lines) : Prop :=
  Rests src u s ∧ AllRight src u [d]

/-- The reader of strings with expressions leaves the port alone, and everything when
there is no expression. -/
structure StringsApart (src : Source) (e : LineEnv F) : Prop where
  declared : ∀ f, e.atstrings = some f → src.declared
  port : ∀ f, e.atstrings = some f → ∀ body s, (f body s).2.port = s.port
  plain : ∀ f, e.atstrings = some f → ∀ body, atpos body = none → ∀ s, (f body s).2 = s ∧
    ∀ d, (f body s).1 = .ok d → d.marks = []

structure ReadersRead (src : Source) (e : LineEnv F) (eof : Datum F) (n : Nat) : Prop where
  sread : ∀ first u s, Faces src (.between first) u s → Reads src (sread e n eof) u s (DatumRead src)
  readList : ∀ first top dotted u s, Faces src (.between first) u s → AllRight src u (top ++ dotted.toList) →
    Reads src (readList e n eof top dotted) u s (DatumRead src)
  readAnonf : ∀ top u s, Faces src (.between false) u s → AllRight src u top →
    Reads src (readAnonf e n eof top) u s (DatumRead src)
  readq : ∀ qsym u s, Faces src (.between false) u s → Reads src (readq e n qsym eof) u s (DatumRead src)
  readComma : ∀ u s, Faces src .comma u s → Reads src (readComma e n eof) u s (DatumRead src)

variable {e : LineEnv F} {eof : Datum F} {n : Nat} {u v : List Nat} {s : Lines} {first : Bool}
  {ds : List (Located F)}

@[simp] theorem marks_plain (d : Datum F) : (Located.plain d).marks = [] := by
  induction d with
  | cons a d iha ihd => rw [Located.plain, Located.marks, iha, ihd]; rfl
  | _ => rfl

theorem mem_marks_list {xs : List (Located F)} {tail : Located F} {m : Mark}
    (h : m ∈ (Located.list xs tail).marks) : ∃ d ∈ xs ++ [tail], m ∈ d.marks := by
  induction xs with
  | nil => exact ⟨tail, by simp, h⟩
  | cons x xs ih =>
    have hmem : m ∈ x.marks ∨ m ∈ (Located.list xs tail).marks := by
      simpa [Located.list, Located.marks] using h
    rcases hmem with hmem | hmem
    · exact ⟨x, by simp, hmem⟩
    · obtain ⟨d, hd, hm⟩ := ih hmem
      exact ⟨d, List.mem_cons_of_mem x hd, hm⟩

/-- A mark stays right as the reading goes on. -/
theorem right_suffix {m : Mark} (h : Interpolated src u ∨ Right src u m) (hsuf : v <:+ u) :
    Interpolated src v ∨ Right src v m :=
  h.imp (fun h => h.suffix hsuf) fun h => ⟨hsuf.trans h.1, h.2⟩

theorem AllRight.suffix (h : AllRight src u ds) (hsuf : v <:+ u) : AllRight src v ds :=
  h.imp (fun h => h.suffix hsuf) fun h d hd m hm => ⟨hsuf.trans (h d hd m hm).1, (h d hd m hm).2⟩

theorem AllRight.append {ds' : List (Located F)} (h : AllRight src u ds) (h' : AllRight src u ds') :
    AllRight src u (ds ++ ds') := by
  rcases h with h | h
  · exact .inl h
  rcases h' with h' | h'
  · exact .inl h'
  refine .inr fun d hd => ?_
  rcases List.mem_append.mp hd with hd | hd
  · exact h d hd
  · exact h' d hd

theorem AllRight.unmarked (h : ∀ d ∈ ds, d.marks = []) : AllRight src u ds := by
  refine .inr fun d hd m hm => ?_
  rw [h d hd] at hm
  cases hm

theorem AllRight.list {xs : List (Located F)} {tail : Located F} (h : AllRight src u (xs ++ [tail])) :
    AllRight src u [Located.list xs tail] := by
  refine h.imp_right fun h d hd m hm => ?_
  obtain rfl := List.mem_singleton.mp hd
  obtain ⟨d, hd, hm⟩ := mem_marks_list hm
  exact h d hd m hm

theorem AllRight.record {d : Located F} {m : Mark} (h : AllRight src u [d])
    (hm : Interpolated src u ∨ Right src u m) : AllRight src u [d.record m] := by
  rcases h with h | h
  · exact .inl h
  rcases hm with hm | hm
  · exact .inl hm
  refine .inr fun d' hd' m' hm' => ?_
  obtain rfl := List.mem_singleton.mp hd'
  have hd : ∀ m ∈ d.marks, Right src u m := h d List.mem_cons_self
  cases d with
  | atom d => cases hm'
  | cons m₀ a d =>
    have hmem : m' = m ∨ m' ∈ a.marks ++ d.marks := by
      simpa [Located.record, Located.marks] using hm'
    rcases hmem with rfl | hmem
    · exact hm
    · refine hd m' ?_
      rw [Located.marks, List.append_assoc]
      exact List.mem_append_right _ hmem

/-- The line of a datum that `c` opens. -/
theorem Ahead.mark {l : Lex} {c : Nat} (h : Ahead src l c v s) : Interpolated src (c :: v) ∨
    Right src (c :: v) ⟨s.lineno, c :: s.port.data.map Int.toNat⟩ := by
  obtain ⟨L, k, rfl, ⟨b, htext, -, hcount⟩, -⟩ := h
  simp only [data_instring]
  exact hcount.imp_right fun hcount => ⟨List.suffix_rfl, b, htext, hcount⟩

theorem Reads.raw {α : Type} {x : LineM α} {Q : α → List Nat → Lines → Prop} (h : Reads src x u s Q) :
    Reads src x u s fun a u' s' => Q a u' s' ∧ x s = (.ok a, s') := by
  rw [Reads] at h ⊢
  cases hx : x s with
  | mk r s' =>
    rw [hx] at h
    cases r with
    | ok a =>
      obtain ⟨u', hu, hq⟩ := h
      exact ⟨u', hu, hq, rfl⟩
    | error stop => exact h

theorem reads_record {x : LineM (Located F)} {m : Mark} (h : Reads src x u s (DatumRead src))
    (hm : Interpolated src u ∨ Right src u m) : Reads src ((·.record m) <$> x) u s (DatumRead src) := by
  refine Reads.map (h.mono fun d u' s' hsuf hd => ⟨hd.1, hd.2.record ?_⟩)
  exact right_suffix hm hsuf

theorem readq_reads (ih : ReadersRead src e eof n) (qsym : List Nat) (h : Faces src (.between false) u s) :
    Reads src (readq e (n + 1) qsym eof) u s (DatumRead src) := by
  rw [readq]
  refine (ih.sread false u s h).bind fun val u' s' _ hval => Reads.pure ⟨hval.1, AllRight.list ?_⟩
  have hsym : AllRight src u' [Located.atom (F := F) (.symbol qsym)] := AllRight.unmarked (by simp [Located.marks])
  have hnil : AllRight src u' [Located.atom (F := F) .nil] := AllRight.unmarked (by simp [Located.marks])
  exact (hsym.append hval.2).append hnil

theorem readComma_reads (ih : ReadersRead src e eof n) (h : Faces src .comma u s) :
    Reads src (readComma e (n + 1) eof) u s (DatumRead src) := by
  rw [readComma]
  refine Reads.readc1_bind h fun c v s' hu hahead => ?_
  subst hu
  by_cases hat : c = '@'.toNat
  · rw [if_pos hat]
    have hnl : ucisnl c = false := by rw [hat]; rfl
    have hfaces := hahead.faces (.inl hnl)
    have hstep : Lex.step .comma c = .between false := if_pos hat
    rw [hstep] at hfaces
    exact (ih.readq _ v s' hfaces).suffix (List.suffix_cons c v)
  · rw [if_neg hat]
    have hfollows : Follows .comma (.between false) c := ⟨if_neg hat, fun _ => rfl, Iff.rfl, id⟩
    exact Reads.ungetc_bind (ih.readq _ _ _ (hahead.mono hfollows).pushed)

/-- After a comment the reading goes on. -/
theorem comment_reads {x : LineM (Located F)} (h : Ahead src (.between first) ';'.toNat v s)
    (hx : ∀ u' s', u' <:+ v → Faces src (.between first) u' s' → Reads src x u' s' (DatumRead src)) :
    Reads src (readComment n >>= fun _ => x) (';'.toNat :: v) s (DatumRead src) := by
  have hfaces : Faces src (.comment first) v s := h.faces (.inl rfl)
  exact ((readComment_reads hfaces).bind fun _ u' s' hsuf hf => hx u' s' hsuf hf).suffix (List.suffix_cons _ v)

theorem readAnonf_reads (ih : ReadersRead src e eof n) (top : List (Located F))
    (h : Faces src (.between false) u s) (htop : AllRight src u top) :
    Reads src (readAnonf e (n + 1) eof top) u s (DatumRead src) := by
  rw [readAnonf]
  refine (scan_reads h).bind fun ch u' s' hsuf hfound => ?_
  have htop := htop.suffix hsuf
  cases ch with
  | none => exact Reads.pure ⟨hfound, AllRight.unmarked (by simp)⟩
  | some c =>
    obtain ⟨v, rfl, hspace, hahead⟩ := hfound
    simp only
    by_cases hsemi : c = ';'.toNat
    · rw [if_pos hsemi]
      subst hsemi
      exact comment_reads hahead fun u' s' hsuf hf =>
        ih.readAnonf top u' s' hf (htop.suffix (hsuf.trans (List.suffix_cons _ v)))
    rw [if_neg hsemi]
    by_cases hclose : c = ']'.toNat
    · rw [if_pos hclose]
      subst hclose
      have hrests : Rests src v s' := hahead.closed (.inl rfl) rfl
      refine ⟨v, List.suffix_cons _ v, hrests, ?_⟩
      have hatom : ∀ d : Datum F, AllRight src v [Located.atom d] := fun d =>
        AllRight.unmarked (by simp [Located.marks])
      have hbody : AllRight src v [Located.list top (.atom .nil)] :=
        AllRight.list ((htop.suffix (List.suffix_cons _ v)).append (hatom .nil))
      have hargs : AllRight src v [Located.list [.atom (.symbol (runes "_"))] (.atom (F := F) .nil)] :=
        AllRight.list ((hatom _).append (hatom .nil))
      exact AllRight.list (((hatom _).append (hargs.append hbody)).append (hatom .nil))
    rw [if_neg hclose]
    refine Reads.ungetc_bind ((ih.sread false _ _ hahead.pushed).bind fun val u' s' hsuf hval => ?_)
    exact ih.readAnonf _ u' s' hval.1.faces ((htop.suffix hsuf).append hval.2)

theorem readList_reads (ih : ReadersRead src e eof n) (top : List (Located F)) (dotted : Option (Located F))
    (h : Faces src (.between first) u s) (htop : AllRight src u (top ++ dotted.toList)) :
    Reads src (readList e (n + 1) eof top dotted) u s (DatumRead src) := by
  rw [readList]
  refine (scan_reads h).bind fun ch u' s' hsuf hfound => ?_
  have htop := htop.suffix hsuf
  cases ch with
  | none => exact Reads.pure ⟨hfound, AllRight.unmarked (by simp)⟩
  | some c =>
    obtain ⟨v, rfl, hspace, hahead⟩ := hfound
    simp only
    by_cases hsemi : c = ';'.toNat
    · rw [if_pos hsemi]
      subst hsemi
      exact comment_reads hahead fun u' s' hsuf hf =>
        ih.readList first top dotted u' s' hf (htop.suffix (hsuf.trans (List.suffix_cons _ v)))
    rw [if_neg hsemi]
    by_cases hclose : c = ')'.toNat
    · rw [if_pos hclose]
      subst hclose
      have hrests : Rests src v s' := hahead.closed (.inl rfl) rfl
      refine ⟨v, List.suffix_cons _ v, hrests, AllRight.list ?_⟩
      have htop := htop.suffix (List.suffix_cons _ v)
      cases dotted with
      | none =>
        rw [Option.toList_none, List.append_nil] at htop
        exact htop.append (AllRight.unmarked (by simp [Located.marks]))
      | some d => exact htop
    rw [if_neg hclose]
    by_cases hafter : dotted.isSome = true
    · rw [if_pos hafter]
      have hnl : ucisnl c = false := by
        by_contra hnl
        rw [ucisspace_of_ucisnl (by simpa using hnl)] at hspace
        cases hspace
      exact (Reads.throw (hahead.faces (.inl hnl)).stopped).suffix (List.suffix_cons c v)
    rw [if_neg hafter]
    have htop : AllRight src (c :: v) top := htop.imp_right fun h d hd => h d (List.mem_append_left _ hd)
    refine Reads.ungetc_bind ((ih.sread first _ _ hahead.pushed).bind fun val u' s' hsuf hval => ?_)
    have hmore : Reads src (readList e n eof (top ++ [val]) none) u' s' (DatumRead src) :=
      ih.readList false _ none u' s' hval.1.faces
        (((htop.suffix hsuf).append hval.2).append (AllRight.unmarked (by simp)))
    cases val with
    | cons m a d => exact hmore
    | atom d =>
      cases d with
      | symbol name =>
        simp only
        split
        · refine (ih.sread false u' s' hval.1.faces).bind fun val u'' s'' hsuf' hval' => ?_
          split
          · exact Reads.throw hval'.1.stopped
          · exact ih.readList false top (some val) u'' s'' hval'.1.faces
              ((htop.suffix (hsuf'.trans hsuf)).append hval'.2)
        · exact hmore
      | _ => exact hmore

theorem Position.relined {L : Lex} {k : Nat} (h : Position src u L k) (hi : Interpolated src u) (k' : Nat) :
    Position src u L k' := by
  obtain ⟨b, htext, hlex, -⟩ := h
  exact ⟨b, htext, hlex, .inl hi⟩

theorem Rests.relined {s' : Lines} (h : Rests src u s) (hi : Interpolated src u) (hport : s'.port = s.port) :
    Rests src u s' := by
  obtain ⟨p, k⟩ := s'
  obtain rfl : p = s.port := hport
  cases h with
  | clean h => exact .clean (h.relined hi k)
  | pushed h hbare hc => exact .pushed (h.relined hi k) hbare hc
  | ended h => exact .ended (h.relined hi k)

theorem Reads.getLineno_bind {α : Type} {f : Mark → LineM α} {Q : α → List Nat → Lines → Prop} {r : Nat}
    (h : Reads src (f ⟨s.lineno, r :: s.port.data.map Int.toNat⟩) u s Q) :
    Reads src (getLineno r >>= f) u s Q := h

/-- The string that was read had an expression in it. -/
theorem interpolated_of_string {b v u : List Nat} {body : List Nat} {k : Nat} {s : Lines} (hd : src.declared)
    (htext : src.text = b ++ '"'.toNat :: v) (hout : ¬ (lex (.between false) b).InString)
    (hopen : (lex (.between false) b).step '"'.toNat = .string .normal)
    (hread : readString n .normal [] ⟨instring v, k⟩ = (.ok body, s)) (hat : (atpos body).isSome = true)
    (hport : At s.port u) : Interpolated src u := by
  have hplain : Reader.readString n .normal [] (instring v) = .ok (body, s.port) := by
    have herases := readString_erases n .normal [] ⟨instring v, k⟩
    rw [hread] at herases
    exact herases.symm
  refine ⟨hd, b, v, n, body, s.port, u, htext, hout, ?_, hplain, hat, hport, List.suffix_rfl⟩
  rw [lex_append]
  exact hopen

/-- A string is read, with the expressions in it. -/
theorem string_reads (he : StringsApart src e) {m : Mark}
    (h : Ahead src (.between first) '"'.toNat v s) (hm : Interpolated src ('"'.toNat :: v) ∨ Right src ('"'.toNat :: v) m) :
    Reads src (readString n .normal [] >>= fun body =>
        match e.atstrings with
        | some readAtstring => (·.record m) <$> readAtstring body
        | none => pure (.atom (.string body))) ('"'.toNat :: v) s (DatumRead src) := by
  have hfaces : Faces src (.string .normal) v s := h.faces (.inl rfl)
  refine (((readString_reads hfaces).raw.bind fun body u' s' hsuf hbody => ?_)).suffix (List.suffix_cons _ v)
  obtain ⟨hrests, hrun⟩ := hbody
  have hatom : ∀ d : Datum F, AllRight src u' [Located.atom d] := fun d =>
    AllRight.unmarked (by simp [Located.marks])
  have hm := right_suffix hm (hsuf.trans (List.suffix_cons _ v))
  cases hf : e.atstrings with
  | none => exact Reads.pure ⟨hrests, hatom _⟩
  | some f =>
    simp only
    cases hat : atpos body with
    | none =>
      refine reads_record ?_ hm
      obtain ⟨hsame, hplain⟩ := he.plain f hf body hat s'
      rw [Reads]
      cases hr : f body s' with
      | mk r s'' =>
        rw [hr] at hsame hplain
        obtain rfl : s'' = s' := hsame
        cases r with
        | ok d => exact ⟨u', List.suffix_rfl, hrests, AllRight.unmarked (by simpa using hplain d rfl)⟩
        | error stop => exact ⟨u', List.suffix_rfl, hrests.stopped⟩
    | some i =>
      obtain ⟨L, k, rfl, ⟨b, htext, hlex, -⟩, hfol⟩ := h
      have hstring : Interpolated src u' := by
        refine interpolated_of_string (he.declared f hf) htext ?_ ?_ hrun (by rw [hat]; rfl) hrests.stopped.1
        · rw [hlex, hfol.inString]
          exact id
        · rw [hlex, hfol.step]
          rfl
      refine reads_record ?_ (.inl hstring)
      have hport := he.port f hf body s'
      rw [Reads]
      cases hr : f body s' with
      | mk r s'' =>
        rw [hr] at hport
        have hrests' : Rests src u' s'' := hrests.relined hstring hport
        cases r with
        | ok d => exact ⟨u', List.suffix_rfl, hrests', .inl hstring⟩
        | error stop => exact ⟨u', List.suffix_rfl, hrests'.stopped⟩

theorem sread_reads (he : StringsApart src e) (ih : ReadersRead src e eof n) (h : Faces src (.between first) u s) :
    Reads src (sread e (n + 1) eof) u s (DatumRead src) := by
  rw [sread]
  refine (scan_reads h).bind fun ch u' s' hsuf hfound => ?_
  cases ch with
  | none => exact Reads.pure ⟨hfound, AllRight.unmarked (by simp)⟩
  | some c =>
    obtain ⟨v, rfl, hspace, hahead⟩ := hfound
    have hmark := hahead.mark
    have hnl : ucisnl c = false := by
      by_contra hnl
      rw [ucisspace_of_ucisnl (by simpa using hnl)] at hspace
      cases hspace
    have hopen : ∀ {l : Lex}, stepOpening first c = some l → Faces src l v s' := by
      intro l hl
      have hfaces := hahead.faces (.inl hnl)
      have hstep : Lex.step (.between first) c = l := by rw [Lex.step, stepBetween, hl]; rfl
      rwa [hstep] at hfaces
    have hthrow : ∀ {stop}, Reads src (throw stop : LineM (Located F)) (c :: v) s' (DatumRead src) :=
      fun {stop} => (Reads.throw (hahead.faces (.inl hnl)).stopped).suffix (List.suffix_cons c v)
    have hrecord : ∀ {x : LineM (Located F)}, Reads src x v s' (DatumRead src) →
        Reads src ((·.record ⟨s'.lineno, c :: s'.port.data.map Int.toNat⟩) <$> x) (c :: v) s' (DatumRead src) :=
      fun {x} hx => reads_record (hx.suffix (List.suffix_cons c v)) hmark
    simp only
    refine Reads.getLineno_bind ?_
    by_cases hlist : c = '('.toNat
    · rw [if_pos hlist]
      subst hlist
      exact hrecord (ih.readList true [] none v s' (hopen rfl) (AllRight.unmarked (by simp)))
    rw [if_neg hlist]
    by_cases hclose : c = ')'.toNat
    · rw [if_pos hclose]
      exact hthrow
    rw [if_neg hclose]
    by_cases hanonf : c = '['.toNat
    · rw [if_pos hanonf]
      subst hanonf
      exact hrecord (ih.readAnonf [] v s' (hopen rfl) (AllRight.unmarked (by simp)))
    rw [if_neg hanonf]
    by_cases hbclose : c = ']'.toNat
    · rw [if_pos hbclose]
      exact hthrow
    rw [if_neg hbclose]
    by_cases hquote : c = '\''.toNat
    · rw [if_pos hquote]
      subst hquote
      exact hrecord (ih.readq _ v s' (hopen rfl))
    rw [if_neg hquote]
    by_cases hqquote : c = '`'.toNat
    · rw [if_pos hqquote]
      subst hqquote
      exact hrecord (ih.readq _ v s' (hopen rfl))
    rw [if_neg hqquote]
    by_cases hcomma : c = ','.toNat
    · rw [if_pos hcomma]
      subst hcomma
      exact hrecord (ih.readComma v s' (hopen rfl))
    rw [if_neg hcomma]
    by_cases hstring : c = '"'.toNat
    · rw [if_pos hstring]
      subst hstring
      exact string_reads he hahead hmark
    rw [if_neg hstring]
    have hatom : ∀ {x : LineM (Datum F)} {u'' : List Nat} {s'' : Lines},
        Reads src x u'' s'' (fun _ => Rests src) →
        Reads src (Located.atom <$> x) u'' s'' (DatumRead src) := fun {x u'' s''} hx =>
      Reads.map (hx.mono fun d _ _ _ hrests => ⟨hrests, AllRight.unmarked (by simp [Located.marks])⟩)
    by_cases hhash : c = '#'.toNat
    · rw [if_pos hhash]
      subst hhash
      exact (hatom (readChar_reads (hopen rfl))).suffix (List.suffix_cons _ v)
    rw [if_neg hhash]
    by_cases hsemi : c = ';'.toNat
    · rw [if_pos hsemi]
      subst hsemi
      exact comment_reads hahead fun u' s' _ hf => ih.sread first u' s' hf
    rw [if_neg hsemi]
    have hnone : stepOpening first c = none := by
      simp only [stepOpening, hspace, hlist, hclose, hanonf, hbclose, hquote, hqquote, hcomma, hstring, hhash,
        hsemi, Bool.false_eq_true, or_self, if_false]
    have hfollows : Follows (.between first) (.token (if first then .first else .plain) .start []) c := by
      refine ⟨?_, fun h => ?_, Iff.rfl, ?_⟩
      · rw [Lex.step, stepBetween, hnone]
        rfl
      · rw [hnl] at h
        cases h
      · rintro (h | h) <;> cases h
    have hsym : issym c = true := by
      have hmem : ¬ c ∈ runes "()';[]" := by
        intro hmem
        have hall : ∀ d ∈ runes "()';[]", ∀ first, (stepOpening first d).isSome = true := by decide
        have hsome := hall c hmem first
        rw [hnone] at hsome
        cases hsome
      simp [issym, hspace, List.contains_eq_mem, hmem]
    exact Reads.ungetc_bind (hatom (readSymbol_reads hahead hfollows hsym))

theorem readersRead (he : StringsApart src e) (eof : Datum F) (n : Nat) : ReadersRead src e eof n := by
  induction n with
  | zero => exact ⟨fun _ _ _ h => Reads.throw h.stopped, fun _ _ _ _ _ h _ => Reads.throw h.stopped,
      fun _ _ _ h _ => Reads.throw h.stopped, fun _ _ _ h => Reads.throw h.stopped,
      fun _ _ h => Reads.throw h.stopped⟩
  | succ n ih => exact ⟨fun _ _ _ h => sread_reads he ih h, fun _ top dotted _ _ h => readList_reads ih top dotted h,
      fun top _ _ h => readAnonf_reads ih top h, fun qsym _ _ h => readq_reads ih qsym h,
      fun _ _ h => readComma_reads ih h⟩

end Readers

end Arcueid.Reader.Lined
