import Arcueid.ZreadLoops

/-! Where `zread` ends: wherever the reader comes to a block comment, the comment
is closed. -/

namespace Arcueid.Zread

open Numeral Reader Outcome Bounded

variable {F : Type}

/-- What is being read: a datum, the rest of a list, or the rest of a bracket
function. `empty` says that there are no elements so far. -/
inductive Mode where
  | datum
  | list (empty : Bool) (indot : Indot)
  | brfn

/-- The mode after an element. -/
def Mode.after : Mode → Option Mode
  | .list _ .no => some (.list false .no)
  | .list false .sawDot => some (.list false .sawTail)
  | .brfn => some .brfn
  | _ => none

def Mode.closes : Mode → Option Nat
  | .datum => none
  | .list .. => some ')'.toNat
  | .brfn => some ']'.toNat

/-- An element of a list or a bracket function comes next, or its end. -/
inductive Item : Mode → List Nat → Prop where
  | list {c s empty indot} : whitec c = false → c ≠ '.'.toNat → Item (.list empty indot) (c :: s)
  | brfn {c s} : whitec c = false → Item .brfn (c :: s)

/-- A comment that is no datum, with what follows it. -/
inductive Comment : List Nat → List Nat → Prop where
  | line {r s t} : readcomment (';'.toNat :: s) = .ok (r, t) → Comment (';'.toNat :: s) t
  | bang {r s t} : readcomment ('!'.toNat :: s) = .ok (r, t) →
      Comment ('#'.toNat :: '!'.toNat :: s) t
  | block {s t} : blockEnd 0 s = some t → Comment ('#'.toNat :: '|'.toNat :: s) t

/-- A character that begins a symbol or a number. -/
def lead (c : Nat) : Bool := !(whitec c || (runes "()[]'`,\"#;").contains c)

/-- A string, a character, a regular expression, a symbol or a number, with what
follows it. -/
inductive Lexeme (e : ZEnv F) : List Nat → List Nat → Prop where
  | string {n str s t} : readstring '"'.toNat (fun _ => none) n ('"'.toNat :: s) = .ok (str, t) →
      Lexeme e ('"'.toNat :: s) t
  | char {v s t} : readchar e ('\\'.toNat :: s) = .ok (v, t) →
      Lexeme e ('#'.toNat :: '\\'.toNat :: s) t
  | regex {n s t} {v : Datum F} : readregex n ('/'.toNat :: s) = .ok (v, t) →
      Lexeme e ('#'.toNat :: '/'.toNat :: s) t
  | hash {v c s t} : (runes "\\|!;/").contains c = false →
      readsym e ['#'.toNat] (c :: s) = .ok (v, t) → Lexeme e ('#'.toNat :: c :: s) t
  | sym {v c s t} : lead c = true → readsym e [] (c :: s) = .ok (v, t) → Lexeme e (c :: s) t

/-- Reading ends: with a value, or at a closing character. -/
inductive Ends (e : ZEnv F) : Mode → List Nat → Option Nat → List Nat → Prop where
  | white {m c s x t} : whitec c = true → Ends e m s x t → Ends e m (c :: s) x t
  | eof : Ends e .datum [] none []
  | closing {ch s} : ch = ')'.toNat ∨ ch = ']'.toNat → Ends e .datum (ch :: s) (some ch) s
  | list {s t} : Ends e (.list true .no) s none t → Ends e .datum ('('.toNat :: s) none t
  | brfn {s t} : Ends e .brfn s none t → Ends e .datum ('['.toNat :: s) none t
  | quote {q s t} : q = '\''.toNat ∨ q = '`'.toNat → Ends e .datum s none t →
      Ends e .datum (q :: s) none t
  | comma {s t} : s.head? ≠ some '@'.toNat → Ends e .datum s none t →
      Ends e .datum (','.toNat :: s) none t
  | commaAt {s t} : Ends e .datum s none t → Ends e .datum (','.toNat :: '@'.toNat :: s) none t
  | lexeme {s t} : Lexeme e s t → Ends e .datum s none t
  | comment {s s' x t} : Comment s s' → Ends e .datum s' x t → Ends e .datum s x t
  | sexpr {s s' x t} : Ends e .datum s none s' → Ends e .datum s' x t →
      Ends e .datum ('#'.toNat :: ';'.toNat :: s) x t
  | dot {empty s t} : Ends e (.list empty .sawDot) s none t →
      Ends e (.list empty .no) ('.'.toNat :: s) none t
  | item {m m' s s' t} : Item m s → Ends e .datum s none s' → m.after = some m' →
      Ends e m' s' none t → Ends e m s none t
  | close {m s t} : Item m s → Ends e .datum s m.closes t → Ends e m s none t

/-- The reader comes to a block comment that is not closed. -/
inductive MeetsOpen (e : ZEnv F) : Mode → List Nat → Prop where
  | block {s} : blockEnd 0 s = none → MeetsOpen e .datum ('#'.toNat :: '|'.toNat :: s)
  | white {m c s} : whitec c = true → MeetsOpen e m s → MeetsOpen e m (c :: s)
  | list {s} : MeetsOpen e (.list true .no) s → MeetsOpen e .datum ('('.toNat :: s)
  | brfn {s} : MeetsOpen e .brfn s → MeetsOpen e .datum ('['.toNat :: s)
  | quote {q s} : q = '\''.toNat ∨ q = '`'.toNat → MeetsOpen e .datum s →
      MeetsOpen e .datum (q :: s)
  | comma {s} : s.head? ≠ some '@'.toNat → MeetsOpen e .datum s →
      MeetsOpen e .datum (','.toNat :: s)
  | commaAt {s} : MeetsOpen e .datum s → MeetsOpen e .datum (','.toNat :: '@'.toNat :: s)
  | comment {s s'} : Comment s s' → MeetsOpen e .datum s' → MeetsOpen e .datum s
  | sexpr {s} : MeetsOpen e .datum s → MeetsOpen e .datum ('#'.toNat :: ';'.toNat :: s)
  | sexprRest {s s'} : Ends e .datum s none s' → MeetsOpen e .datum s' →
      MeetsOpen e .datum ('#'.toNat :: ';'.toNat :: s)
  | dot {empty s} : MeetsOpen e (.list empty .sawDot) s →
      MeetsOpen e (.list empty .no) ('.'.toNat :: s)
  | item {m s} : Item m s → MeetsOpen e .datum s → MeetsOpen e m s
  | itemRest {m m' s s'} : Item m s → Ends e .datum s none s' → m.after = some m' →
      MeetsOpen e m' s' → MeetsOpen e m s

def Zitem.closing : Zitem F → Option Nat
  | .val _ => none
  | .rparen ch => some ch

/-- `zread`, of which only matters where it ends. -/
def datum (e : ZEnv F) (eof : Datum F) (n : Nat) : ZM (Option Nat) :=
  zread e n eof >>= fun i => pure i.closing

/-- The functions that read in a mode; their values do not matter. -/
inductive Runs (e : ZEnv F) (eof : Datum F) : Mode → (Nat → ZM (Option Nat)) → Prop where
  | datum : Runs e eof .datum (datum e eof)
  | list {top tail empty indot} : (top = [] ↔ empty = true) →
      Runs e eof (.list empty indot) fun n => readlist e n eof top tail indot >>= fun _ => pure none
  | brfn {top} : Runs e eof .brfn fun n => readbrfn e n eof top >>= fun _ => pure none

variable {e : ZEnv F} {eof : Datum F} {n : Nat} {s s' t : List Nat} {x : Option Nat}
  {m m' : Mode} {w : Nat → ZM (Option Nat)}

theorem Runs.le (h : Runs e eof m w) (n : Nat) : Le .fuel (w n) (w (n + 1)) := by
  obtain ⟨hzread, hlist, hbrfn, -⟩ := zread_le e n
  cases h with
  | datum => exact Le.bind (hzread eof) fun _ => Le.refl
  | list => exact Le.bind (hlist _ _ _ _) fun _ => Le.refl
  | brfn => exact Le.bind (hbrfn _ _) fun _ => Le.refl

theorem scan_white {c : Nat} (hc : whitec c = true) : scan (c :: s) = scan s := by
  rw [scan, if_pos hc]

theorem scan_cons {c : Nat} (hc : whitec c = false) : scan (c :: s) = .ok (some c, c :: s) := by
  rw [scan, if_neg (by simp [hc])]

theorem bind_congr_left {α β : Type} {x y : ZM α} {f : α → ZM β} (h : x s = y s') :
    (x >>= f) s = (y >>= f) s' := by
  change (x s >>= fun p => f p.1 p.2) = (y s' >>= fun p => f p.1 p.2)
  rw [h]

theorem Runs.white (h : Runs e eof m w) {c : Nat} (hc : whitec c = true) (n : Nat) :
    w n (c :: s) = w n s := by
  cases n with
  | zero => cases h <;> rfl
  | succ n =>
    cases h with
    | datum =>
      apply bind_congr_left
      rw [zread]
      exact bind_congr_left (scan_white hc)
    | list =>
      apply bind_congr_left
      rw [readlist]
      exact bind_congr_left (scan_white hc)
    | brfn =>
      apply bind_congr_left
      rw [readbrfn]
      exact bind_congr_left (scan_white hc)

/-- A list or a bracket function that meets the end of file is an error. -/
theorem Runs.nil (h : Runs e eof m w) (hm : m ≠ .datum) (n : Nat) :
    ∃ msg, w (n + 1) [] = .error (.error msg) := by
  cases h with
  | datum => exact absurd rfl hm
  | list => exact ⟨_, rfl⟩
  | brfn => exact ⟨_, rfl⟩

theorem Runs.dot {empty : Bool} (h : Runs e eof (.list empty .no) w) :
    ∃ w', Runs e eof (.list empty .sawDot) w' ∧
      ∀ n s, w (n + 1) ('.'.toNat :: s) = w' n s := by
  cases h with
  | list hempty => exact ⟨_, .list hempty, fun n s => rfl⟩

theorem Runs.dots {empty : Bool} {indot : Indot} (h : Runs e eof (.list empty indot) w)
    (hindot : indot ≠ .no) (n : Nat) (s : List Nat) :
    w (n + 1) ('.'.toNat :: s) = .error (.error "illegal use of .") := by
  cases h with
  | list hempty =>
    cases indot with
    | no => exact absurd rfl hindot
    | sawDot => rfl
    | sawTail => rfl

theorem readlist_item {c : Nat} (hc : whitec c = false) (hdot : c ≠ '.'.toNat) (n : Nat)
    (top : List (Datum F)) (tail : Datum F) (indot : Indot) :
    readlist e (n + 1) eof top tail indot (c :: s) = (zread e n eof >>= fun i => match i with
      | .rparen ch => if ch = ')'.toNat then pure (Reader.list top tail) else throw (misplaced ch)
      | .val val => match indot with
        | .sawDot =>
          if top = [] then throw (.error "illegal use of .") else readlist e n eof top val .sawTail
        | .sawTail => throw (.error "illegal use of .")
        | .no => readlist e n eof (top ++ [val]) tail .no) (c :: s) := by
  rw [readlist, bind_of_ok (scan_cons hc), bind_of_ok (peekc_cons c)]
  exact congrFun (if_neg hdot) _

theorem readbrfn_item {c : Nat} (hc : whitec c = false) (n : Nat) (top : List (Datum F)) :
    readbrfn e (n + 1) eof top (c :: s) = (zread e n eof >>= fun i => match i with
      | .rparen ch =>
        if ch = ']'.toNat then
          pure (Reader.list [.symbol (runes "fn"), Reader.list [.symbol (runes "_")] .nil,
            Reader.list top .nil] .nil)
        else throw (misplaced ch)
      | .val val => readbrfn e n eof (top ++ [val])) (c :: s) := by
  rw [readbrfn]
  exact (bind_of_ok (scan_cons hc)).trans ((bind_of_ok (peekc_cons c)).trans rfl)

theorem bind_congr_right {α β : Type} {x : ZM α} {f g : α → ZM β} (h : ∀ a, f a = g a) :
    (x >>= f) s = (x >>= g) s := by
  rw [funext h]

/-- An element is read with `zread`. -/
theorem Runs.item (h : Runs e eof m w) (hm : Item m s) :
    ∃ next : Datum F → Nat → ZM (Option Nat),
      (∀ m' v, m.after = some m' → Runs e eof m' (next v)) ∧
      ∀ n, w (n + 1) s = (zread e n eof >>= fun i => match i with
        | .rparen ch => if some ch = m.closes then pure none else throw (misplaced ch)
        | .val v =>
          if m.after = none then throw (.error "illegal use of .") else next v n) s := by
  cases hm with
  | @list c s empty indot hc hdot =>
    cases h with
    | @list top tail _ _ hempty =>
      let next : Datum F → Nat → ZM (Option Nat) := fun v n =>
        (match indot with
          | .no => readlist e n eof (top ++ [v]) tail .no
          | _ => readlist e n eof top v .sawTail) >>= fun _ => pure none
      refine ⟨next, ?_, ?_⟩
      · rintro m' v hm'
        cases indot with
        | no =>
          cases hm'
          exact .list (by simp)
        | sawDot =>
          cases empty with
          | false =>
            cases hm'
            exact .list hempty
          | true => cases hm'
        | sawTail => cases empty <;> cases hm'
      · intro n
        change (readlist e (n + 1) eof top tail indot >>= fun _ => pure none) (c :: s) = _
        rw [bind_congr_left (readlist_item hc hdot n top tail indot), bind_assoc]
        apply bind_congr_right
        intro i
        cases i with
        | rparen ch =>
          by_cases hch : ch = ')'.toNat
          · subst hch
            rfl
          · have hne : some ch ≠ (Mode.list empty indot).closes := fun h => hch (Option.some.inj h)
            dsimp only
            rw [if_neg hch, if_neg hne]
            rfl
        | val v =>
          cases indot with
          | no => rfl
          | sawDot =>
            cases empty with
            | false => simp [hempty, Mode.after, next]
            | true =>
              dsimp only [Mode.after]
              rw [if_pos (hempty.mpr rfl)]
              rfl
          | sawTail => cases empty <;> rfl
  | @brfn c s hc =>
    cases h with
    | @brfn top =>
      refine ⟨fun v n => readbrfn e n eof (top ++ [v]) >>= fun _ => pure none, ?_, ?_⟩
      · rintro m' v hm'
        cases hm'
        exact .brfn
      · intro n
        change (readbrfn e (n + 1) eof top >>= fun _ => pure none) (c :: s) = _
        rw [bind_congr_left (readbrfn_item hc n top), bind_assoc]
        apply bind_congr_right
        intro i
        cases i with
        | rparen ch =>
          by_cases hch : ch = ']'.toNat
          · subst hch
            rfl
          · have hne : some ch ≠ Mode.brfn.closes := fun h => hch (Option.some.inj h)
            dsimp only
            rw [if_neg hch, if_neg hne]
            rfl
        | val v => rfl

/-- A datum has to come next. -/
def need : Option Nat → ZM (Option Nat)
  | none => pure none
  | some ch => throw (misplaced ch)

section Datum

variable (n) (s)

theorem datum_list : ∃ w, Runs e eof (.list true .no) w ∧
    ∀ n s, datum e eof (n + 1) ('('.toNat :: s) = w n s :=
  ⟨fun n => readlist e n eof [] .nil .no >>= fun _ => pure none, .list (by simp), fun n s => by
    change ((readlist e n eof [] .nil .no >>= fun v => pure (.val v)) >>=
      fun i : Zitem F => pure i.closing) s = _
    rw [bind_assoc]
    rfl⟩

theorem datum_brfn : ∃ w, Runs e eof .brfn w ∧
    ∀ n s, datum e eof (n + 1) ('['.toNat :: s) = w n s :=
  ⟨fun n => readbrfn e n eof [] >>= fun _ => pure none, .brfn, fun n s => by
    change ((readbrfn e n eof [] >>= fun v => pure (.val v)) >>=
      fun i : Zitem F => pure i.closing) s = _
    rw [bind_assoc]
    rfl⟩

theorem datum_readquote (qsym : List Nat) :
    ((readquote e (n + 1) eof qsym >>= fun v => pure (.val v)) >>=
      fun i : Zitem F => pure i.closing) s = (datum e eof n >>= need) s := by
  rw [readquote, datum, bind_assoc, bind_assoc, bind_assoc]
  apply bind_congr_right
  rintro (v | ch) <;> rfl

theorem datum_quote {q : Nat} (hq : q = '\''.toNat ∨ q = '`'.toNat) :
    datum e eof (n + 2) (q :: s) = (datum e eof n >>= need) s := by
  rcases hq with rfl | rfl
  · exact datum_readquote n s (runes "quote")
  · exact datum_readquote n s (runes "quasiquote")

theorem datum_comma : datum e eof (n + 3) (','.toNat :: s) =
    (datum e eof n >>= need) (if s.head? = some '@'.toNat then s.tail else s) := by
  have hpeek : peekc s = .ok (s.head?, s) := rfl
  have hread : readc s = .ok (s.head?, s.tail) := rfl
  change ((readcomma e (n + 2) eof >>= fun v => pure (.val v)) >>=
    fun i : Zitem F => pure i.closing) (','.toNat :: s) = _
  split
  · next hat =>
    rw [← datum_readquote n s.tail (runes "unquote-splicing")]
    apply bind_congr_left
    apply bind_congr_left
    rw [readcomma, bind_of_ok (readc_cons _), bind_of_ok hpeek, if_pos hat, bind_of_ok hread]
  · next hat =>
    rw [← datum_readquote n s (runes "unquote")]
    apply bind_congr_left
    apply bind_congr_left
    rw [readcomma, bind_of_ok (readc_cons _), bind_of_ok hpeek, if_neg hat]

theorem datum_sexpr : datum e eof (n + 2) ('#'.toNat :: ';'.toNat :: s) =
    ((datum e eof n >>= need) >>= fun _ => datum e eof (n + 1)) s := by
  change ((readsexprcomment e (n + 1) eof >>= fun _ => zread e (n + 1) eof) >>=
    fun i : Zitem F => pure i.closing) (';'.toNat :: s) = _
  rw [readsexprcomment, bind_assoc, bind_assoc, bind_of_ok (readc_cons _), datum, bind_assoc,
    bind_assoc, bind_assoc]
  apply bind_congr_right
  rintro (v | ch) <;> rfl

theorem datum_comment (h : Comment s t) :
    ∃ k, ∀ n, k ≤ n → datum e eof (n + 1) s = datum e eof n t := by
  cases h with
  | @line r s t h =>
    refine ⟨0, fun n _ => ?_⟩
    change ((readcomment >>= fun _ => zread e n eof) >>= fun i : Zitem F => pure i.closing)
      (';'.toNat :: s) = _
    rw [bind_assoc, bind_of_ok h]
    rfl
  | @bang r s t h =>
    refine ⟨0, fun n _ => ?_⟩
    change ((readcomment >>= fun _ => zread e n eof) >>= fun i : Zitem F => pure i.closing)
      ('!'.toNat :: s) = _
    rw [bind_assoc, bind_of_ok h]
    rfl
  | @block s t h =>
    obtain ⟨⟨k, hk⟩, -⟩ := blockLoop_of_some h
    refine ⟨k, fun n hn => ?_⟩
    have hloop : readblockcomment n ('|'.toNat :: s) = .ok (t.head?, t) := by
      rw [readblockcomment, bind_of_ok (readc_cons _)]
      exact ((le_of_le (fun n => blockLoop_le n 0) hn s (by simp [hk])).trans hk)
    change ((readblockcomment n >>= fun _ => zread e n eof) >>= fun i : Zitem F => pure i.closing)
      ('|'.toNat :: s) = _
    rw [bind_assoc, bind_of_ok hloop]
    rfl

theorem datum_string : datum e eof (n + 1) ('"'.toNat :: s) =
    (readstring '"'.toNat (fun _ => none) n >>= fun _ => pure none) ('"'.toNat :: s) := by
  change ((readstring '"'.toNat (fun _ => none) n >>= fun v => pure (.val (.string v))) >>=
    fun i : Zitem F => pure i.closing) _ = _
  rw [bind_assoc]
  rfl

theorem datum_char : datum e eof (n + 1) ('#'.toNat :: '\\'.toNat :: s) =
    (readchar e >>= fun _ => pure none) ('\\'.toNat :: s) := by
  change ((readchar e >>= fun v => pure (.val v)) >>= fun i : Zitem F => pure i.closing) _ = _
  rw [bind_assoc]
  rfl

theorem datum_regex : datum e eof (n + 1) ('#'.toNat :: '/'.toNat :: s) =
    ((readregex n : ZM (Datum F)) >>= fun _ => pure none) ('/'.toNat :: s) := by
  change ((readregex n >>= fun v => pure (.val v)) >>= fun i : Zitem F => pure i.closing) _ = _
  rw [bind_assoc]
  rfl

theorem datum_hash {c : Nat} (hc : (runes "\\|!;/").contains c = false) :
    datum e eof (n + 1) ('#'.toNat :: c :: s) =
      (readsym e ['#'.toNat] >>= fun _ => pure none) (c :: s) := by
  have hne : c ≠ '\\'.toNat ∧ c ≠ '|'.toNat ∧ c ≠ '!'.toNat ∧ c ≠ ';'.toNat ∧ c ≠ '/'.toNat := by
    simpa [runes] using hc
  obtain ⟨hchar, hblock, hbang, hsexpr, hregex⟩ := hne
  have hread : zread e (n + 1) eof ('#'.toNat :: c :: s) =
      (readsym e ['#'.toNat] >>= fun v => pure (.val v)) (c :: s) := by
    rw [zread, bind_of_ok (scan_cons rfl)]
    dsimp only
    rw [if_neg (by decide), if_neg (by decide), if_neg (by decide), if_neg (by decide),
      if_neg (by decide), if_neg (by decide), if_neg (by decide), if_pos rfl,
      bind_of_ok (readc_cons _), bind_of_ok (peekc_cons c)]
    dsimp only
    rw [if_neg hchar, if_neg hblock, if_neg hbang, if_neg hsexpr, if_neg hregex]
  rw [datum, bind_congr_left hread, bind_assoc]
  rfl

theorem lead_white {c : Nat} (hc : lead c = true) : whitec c = false := by
  simp only [lead, Bool.not_eq_true', Bool.or_eq_false_iff] at hc
  exact hc.1

theorem datum_sym {c : Nat} (hc : lead c = true) : datum e eof (n + 1) (c :: s) =
    (readsym e [] >>= fun _ => pure none) (c :: s) := by
  have hne : ∀ d ∈ runes "()[]'`,\"#;", c ≠ d := by
    rintro d hd rfl
    simp only [lead, Bool.not_eq_true', Bool.or_eq_false_iff, List.contains_eq_mem,
      decide_eq_false_iff_not] at hc
    exact hc.2 hd
  have hread : zread e (n + 1) eof (c :: s) =
      (readsym e [] >>= fun v => pure (.val v)) (c :: s) := by
    rw [zread, bind_of_ok (scan_cons (lead_white hc))]
    dsimp only
    have hclose : ¬ (c = ')'.toNat ∨ c = ']'.toNat) := by
      rintro (h | h)
      · exact hne _ (by decide) h
      · exact hne _ (by decide) h
    rw [if_neg (hne _ (by decide)), if_neg hclose, if_neg (hne _ (by decide)),
      if_neg (hne _ (by decide)), if_neg (hne _ (by decide)), if_neg (hne _ (by decide)),
      if_neg (hne _ (by decide)), if_neg (hne _ (by decide)), if_neg (hne _ (by decide))]
  rw [datum, bind_congr_left hread, bind_assoc]
  rfl

end Datum

theorem lead_symc {c : Nat} (hc : lead c = true) : symc c = true := by
  simp only [lead, symc, Bool.not_eq_true', Bool.or_eq_false_iff] at hc ⊢
  refine ⟨hc.1, ?_⟩
  have hnot := hc.2
  simp only [runes, List.contains_eq_mem, decide_eq_false_iff_not] at hnot ⊢
  intro hmem
  apply hnot
  revert hmem
  simp
  omega

theorem shrinks_number (sym : List Nat) (num : Option (Number F)) : Shrinks (match num with
    | some n => (pure (.number n) : ZM (Datum F))
    | none => pure (intern sym)) := by
  cases num with
  | none => exact .pure _
  | some num => exact .pure _

theorem Lexeme.shrinks (h : Lexeme e s t) : t.length < s.length := by
  cases h with
  | @string n str s t h =>
    obtain ⟨_, _, hc, h⟩ := yields_bind h
    cases hc
    exact Nat.lt_succ_of_le (stringLoop_shrinks n _ _ s str t h)
  | @char v s t h => exact Nat.lt_succ_of_le (readchar_shrinks _ v t h)
  | @regex n s t v h => exact Nat.lt_succ_of_le (readregex_shrinks n _ v t h)
  | @hash v c s t _ h => exact Nat.lt_succ_of_le (readsym_shrinks _ _ v t h)
  | @sym v c s t hc h =>
    obtain ⟨sym, t', hsym, h⟩ := yields_bind h
    change getsymbol [] (c :: s) = _ at hsym
    rw [getsymbol, if_pos (lead_symc hc)] at hsym
    have hle : t'.length ≤ s.length := getsymbol_shrinks _ s sym t' hsym
    have hrest := (shrinks_ofOption (e.stringToNum ([] ++ sym) 10)).bind
      (shrinks_number ([] ++ sym))
    exact Nat.lt_succ_of_le (Nat.le_trans (hrest t' v t h) hle)

theorem Comment.shrinks (h : Comment s t) : t.length < s.length := by
  cases h with
  | @line r s t h =>
    rw [readcomment, if_neg (by decide)] at h
    exact Nat.lt_succ_of_le (readcomment_shrinks s r t h)
  | @bang r s t h => exact Nat.lt_succ_of_le (readcomment_shrinks _ r t h)
  | @block s t h =>
    have hlt := (blockLoop_of_some h).2
    simp only [List.length_cons]
    omega

theorem Ends.shrinks (h : Ends e m s x t) :
    t.length ≤ s.length ∧ (s ≠ [] → t.length < s.length) := by
  induction h with
  | eof => simp
  | white _ _ ih =>
    simp only [List.length_cons]
    omega
  | closing => simp
  | list _ ih =>
    simp only [List.length_cons]
    omega
  | brfn _ ih =>
    simp only [List.length_cons]
    omega
  | quote _ _ ih =>
    simp only [List.length_cons]
    omega
  | comma _ _ ih =>
    simp only [List.length_cons]
    omega
  | commaAt _ ih =>
    simp only [List.length_cons]
    omega
  | lexeme h =>
    have hlt := h.shrinks
    omega
  | comment h _ ih =>
    have hlt := h.shrinks
    omega
  | sexpr _ _ ih ih' =>
    simp only [List.length_cons]
    omega
  | dot _ ih =>
    simp only [List.length_cons]
    omega
  | item hitem _ _ _ ih ih' =>
    have hlt := ih.2 (by cases hitem <;> simp)
    omega
  | close hitem _ ih =>
    have hlt := ih.2 (by cases hitem <;> simp)
    omega

theorem datum_ok (h : datum e eof n s = .ok (x, t)) :
    ∃ i, zread e n eof s = .ok (i, t) ∧ i.closing = x := by
  obtain ⟨i, t', hi, hx⟩ := yields_bind h
  obtain ⟨rfl, rfl⟩ := yields_pure_iff.mp hx
  exact ⟨i, hi, rfl⟩

theorem datum_error {stop : ZStop} (h : datum e eof n s = .error stop) :
    zread e n eof s = .error stop := by
  cases hi : zread e n eof s with
  | error stop' =>
    rw [datum, bind_of_error hi] at h
    rw [Except.error.inj h]
  | ok p =>
    rw [datum, bind_of_ok hi] at h
    cases h

theorem Lexeme.datum (h : Lexeme e s t) : ∃ n, datum e eof n s = .ok (none, t) := by
  cases h with
  | @string n str s t h => exact ⟨n + 1, (datum_string n s).trans (bind_of_ok h)⟩
  | @char v s t h => exact ⟨1, (datum_char 0 s).trans (bind_of_ok h)⟩
  | @regex n s t v h => exact ⟨n + 1, (datum_regex n s).trans (bind_of_ok h)⟩
  | @hash v c s t hc h => exact ⟨1, (datum_hash 0 s hc).trans (bind_of_ok h)⟩
  | @sym v c s t hc h => exact ⟨1, (datum_sym 0 s hc).trans (bind_of_ok h)⟩

theorem Ends.runs (h : Ends e m s x t) (hw : Runs e eof m w) : ∃ n, w n s = .ok (x, t) := by
  have hneed : ∀ {n s t}, datum e eof n s = .ok (none, t) →
      (datum e eof n >>= need) s = .ok (none, t) := fun h => bind_of_ok h
  induction h generalizing w with
  | white hc _ ih =>
    obtain ⟨n, hn⟩ := ih hw
    exact ⟨n, (hw.white hc n).trans hn⟩
  | eof =>
    cases hw
    exact ⟨1, rfl⟩
  | closing hch =>
    cases hw
    rcases hch with rfl | rfl
    · exact ⟨1, rfl⟩
    · exact ⟨1, rfl⟩
  | list _ ih =>
    cases hw
    obtain ⟨w, hw, heq⟩ := @datum_list _ e eof
    obtain ⟨n, hn⟩ := ih hw
    exact ⟨n + 1, (heq n _).trans hn⟩
  | brfn _ ih =>
    cases hw
    obtain ⟨w, hw, heq⟩ := @datum_brfn _ e eof
    obtain ⟨n, hn⟩ := ih hw
    exact ⟨n + 1, (heq n _).trans hn⟩
  | quote hq _ ih =>
    cases hw
    obtain ⟨n, hn⟩ := ih .datum
    exact ⟨n + 2, (datum_quote n _ hq).trans (hneed hn)⟩
  | comma hat _ ih =>
    cases hw
    obtain ⟨n, hn⟩ := ih .datum
    refine ⟨n + 3, (datum_comma n _).trans ?_⟩
    rw [if_neg hat]
    exact hneed hn
  | commaAt _ ih =>
    cases hw
    obtain ⟨n, hn⟩ := ih .datum
    exact ⟨n + 3, (datum_comma n _).trans (hneed hn)⟩
  | lexeme h =>
    cases hw
    exact h.datum
  | comment h _ ih =>
    cases hw
    obtain ⟨n, hn⟩ := ih .datum
    obtain ⟨k, hk⟩ := @datum_comment _ e eof _ _ h
    refine ⟨max n k + 1, (hk _ (Nat.le_max_right n k)).trans ?_⟩
    exact ok_of_le Runs.datum.le (Nat.le_max_left n k) hn
  | sexpr _ _ ih ih' =>
    cases hw
    obtain ⟨n, hn⟩ := ih .datum
    obtain ⟨n', hn'⟩ := ih' .datum
    have hle := ok_of_le Runs.datum.le (Nat.le_max_left n n') hn
    refine ⟨max n n' + 2, (datum_sexpr _ _).trans ((bind_of_ok (hneed hle)).trans ?_)⟩
    exact ok_of_le Runs.datum.le (Nat.le_succ_of_le (Nat.le_max_right n n')) hn'
  | dot _ ih =>
    obtain ⟨w', hw', heq⟩ := hw.dot
    obtain ⟨n, hn⟩ := ih hw'
    exact ⟨n + 1, (heq n _).trans hn⟩
  | item hitem _ hafter _ ih ih' =>
    obtain ⟨next, hnext, heq⟩ := hw.item hitem
    obtain ⟨n, hn⟩ := ih .datum
    obtain ⟨i, hi, hclosing⟩ := datum_ok hn
    cases i with
    | rparen ch => cases hclosing
    | val v =>
      obtain ⟨n', hn'⟩ := ih' (hnext _ v hafter)
      have hle := ok_of_le (fun n => (zread_le e n).1 eof) (Nat.le_max_left n n') hi
      refine ⟨max n n' + 1, (heq _).trans ((bind_of_ok hle).trans ?_)⟩
      dsimp only
      rw [hafter, if_neg (by simp)]
      exact ok_of_le (hnext _ v hafter).le (Nat.le_max_right n n') hn'
  | @close m s t hitem _ ih =>
    obtain ⟨next, -, heq⟩ := hw.item hitem
    obtain ⟨n, hn⟩ := ih .datum
    obtain ⟨i, hi, hclosing⟩ := datum_ok hn
    refine ⟨n + 1, (heq n).trans ((bind_of_ok hi).trans ?_)⟩
    cases i with
    | val v => cases hitem <;> cases hclosing
    | rparen ch =>
      have hch : some ch = m.closes := hclosing
      dsimp only
      rw [if_pos hch]
      rfl

theorem Runs.hangs_of (hw : Runs e eof m w) (k : Nat) (h : ∀ n, w (n + k) s = .error .fuel)
    (n : Nat) : w n s = .error .fuel := by
  by_contra hn
  have heq := le_of_le hw.le (Nat.le_add_right n k) s hn
  exact hn (heq.symm.trans (h n))

/-- At an open block comment no bound is large enough. -/
theorem MeetsOpen.hangs (h : MeetsOpen e m s) (hw : Runs e eof m w) (n : Nat) :
    w n s = .error .fuel := by
  induction h generalizing w n with
  | @block s hopen =>
    cases hw
    apply Runs.datum.hangs_of 1
    intro n
    have hloop : readblockcomment n ('|'.toNat :: s) = .error .fuel := by
      rw [readblockcomment, bind_of_ok (readc_cons _)]
      exact blockLoop_of_none hopen n
    change ((readblockcomment n >>= fun _ => zread e n eof) >>= fun i : Zitem F => pure i.closing)
      ('|'.toNat :: s) = _
    rw [bind_assoc, bind_of_error hloop]
  | white hc _ ih => exact (hw.white hc n).trans (ih hw n)
  | list _ ih =>
    cases hw
    obtain ⟨w, hw, heq⟩ := @datum_list _ e eof
    exact Runs.datum.hangs_of 1 (fun n => (heq n _).trans (ih hw n)) n
  | brfn _ ih =>
    cases hw
    obtain ⟨w, hw, heq⟩ := @datum_brfn _ e eof
    exact Runs.datum.hangs_of 1 (fun n => (heq n _).trans (ih hw n)) n
  | quote hq _ ih =>
    cases hw
    exact Runs.datum.hangs_of 2
      (fun n => (datum_quote n _ hq).trans (bind_of_error (ih .datum n))) n
  | comma hat _ ih =>
    cases hw
    refine Runs.datum.hangs_of 3 (fun n => (datum_comma n _).trans ?_) n
    rw [if_neg hat]
    exact bind_of_error (ih .datum n)
  | commaAt _ ih =>
    cases hw
    exact Runs.datum.hangs_of 3
      (fun n => (datum_comma n _).trans (bind_of_error (ih .datum n))) n
  | comment h _ ih =>
    cases hw
    obtain ⟨k, hk⟩ := @datum_comment _ e eof _ _ h
    refine Runs.datum.hangs_of (k + 1) (fun n => ?_) n
    exact (hk (n + k) (Nat.le_add_left k n)).trans (ih .datum _)
  | sexpr _ ih =>
    cases hw
    refine Runs.datum.hangs_of 2 (fun n => (datum_sexpr n _).trans ?_) n
    exact bind_of_error (bind_of_error (ih .datum n))
  | sexprRest hends _ ih =>
    cases hw
    obtain ⟨k, hk⟩ := hends.runs (.datum : Runs e eof _ _)
    refine Runs.datum.hangs_of 2 (fun n => (datum_sexpr n _).trans ?_) n
    rcases out_or_eq Runs.datum.le hk n with hn | hn
    · exact bind_of_error (bind_of_error hn)
    · exact (bind_of_ok (bind_of_ok hn)).trans (ih .datum _)
  | dot _ ih =>
    obtain ⟨w', hw', heq⟩ := hw.dot
    exact hw.hangs_of 1 (fun n => (heq n _).trans (ih hw' n)) n
  | item hitem _ ih =>
    obtain ⟨next, -, heq⟩ := hw.item hitem
    refine hw.hangs_of 1 (fun n => (heq n).trans ?_) n
    exact bind_of_error (datum_error (ih .datum n))
  | itemRest hitem hends hafter _ ih =>
    obtain ⟨next, hnext, heq⟩ := hw.item hitem
    obtain ⟨k, hk⟩ := hends.runs (.datum : Runs e eof _ _)
    obtain ⟨i, hi, hclosing⟩ := datum_ok hk
    refine hw.hangs_of 1 (fun n => (heq n).trans ?_) n
    rcases out_or_eq (fun n => (zread_le e n).1 eof) hi n with hn | hn
    · exact bind_of_error hn
    · cases i with
      | rparen ch => cases hclosing
      | val v =>
        refine (bind_of_ok hn).trans ?_
        dsimp only
        rw [hafter, if_neg (by simp)]
        exact ih (hnext _ v hafter) n

/-- With a large enough bound a reading ends, and as the text says. -/
def Settled (w : Nat → ZM (Option Nat)) (s : List Nat) (Q : Option Nat → List Nat → Prop) : Prop :=
  ∃ n, Enough .fuel (w n) s ∧ Ensures (w n) s Q

theorem Settled.need (h : Settled (datum e eof) s (Ends e .datum s)) :
    Settled (fun n => datum e eof n >>= need) s
      fun x t => x = none ∧ Ends e .datum s none t := by
  obtain ⟨n, hn, hends⟩ := h
  refine ⟨n, hn.bind ?_, hends.bind ?_⟩
  · rintro (_ | ch) t -
    · exact .pure _ t
    · exact Enough.throw (by simp [misplaced]) t
  · rintro (_ | ch) t ht
    · exact .pure ⟨rfl, ht⟩
    · exact .throw

theorem Settled.mono {w' : Nat → ZM (Option Nat)} {Q Q' : Option Nat → List Nat → Prop}
    (h : Settled w s Q) (k : Nat) (heq : ∀ n, w' (n + k) s' = w n s)
    (hQ : ∀ x t, Q x t → Q' x t) : Settled w' s' Q' := by
  obtain ⟨n, hn, hQn⟩ := h
  refine ⟨n + k, ?_, fun x t hx => hQ x t (hQn x t ?_)⟩
  · rw [Enough, heq n]
    exact hn
  · exact (heq n).symm.trans hx

theorem Settled.of_error {stop : ZStop} {Q : Option Nat → List Nat → Prop}
    (h : w n s = .error stop) (hstop : stop ≠ .fuel) : Settled w s Q := by
  refine ⟨n, ?_, fun x t hx => ?_⟩
  · rw [Enough, h]
    intro heq
    exact hstop (Except.error.inj heq)
  · cases h.symm.trans hx

theorem Settled.token {α : Type} {x : ZM α} (n : Nat) (hx : Enough .fuel x s')
    (heq : datum e eof n s = (x >>= fun _ => pure none) s')
    (hlexeme : ∀ v t, x s' = .ok (v, t) → Lexeme e s t) :
    Settled (datum e eof) s (Ends e .datum s) := by
  refine ⟨n, ?_, fun c t hc => ?_⟩
  · rw [Enough, heq]
    exact hx.bind fun a t _ => .pure _ t
  · obtain ⟨v, t', hv, hpure⟩ := yields_bind (heq.symm.trans hc)
    obtain ⟨rfl, rfl⟩ := yields_pure_iff.mp hpure
    exact .lexeme (hlexeme v t' hv)

theorem Settled.comment (h : Comment s t) (ht : Settled (datum e eof) t (Ends e .datum t)) :
    Settled (datum e eof) s (Ends e .datum s) := by
  obtain ⟨k, hk⟩ := @datum_comment _ e eof s _ h
  obtain ⟨n, hn, hends⟩ := ht
  have hle := le_of_le Runs.datum.le (Nat.le_max_left n k) t hn
  have heq : datum e eof (max n k + 1) s = datum e eof n t :=
    (hk _ (Nat.le_max_right n k)).trans hle
  refine ⟨max n k + 1, ?_, fun x u hx => .comment h (hends x u (heq.symm.trans hx))⟩
  rw [Enough, heq]
  exact hn

theorem Ends.eq_none (h : Ends e m s x t) (hm : m ≠ .datum) : x = none := by
  induction h with
  | white _ _ ih => exact ih hm
  | closing | comment | sexpr => exact absurd rfl hm
  | _ => rfl

theorem Mode.after_ne (h : m.after = some m') : m' ≠ .datum := by
  rintro rfl
  cases m with
  | datum => cases h
  | list empty indot => cases empty <;> cases indot <;> cases h
  | brfn => cases h

/-- What is known of shorter texts. -/
def Shorter (e : ZEnv F) (eof : Datum F) (s : List Nat) : Prop :=
  ∀ m s' w, s'.length < s.length → Runs e eof m w →
    MeetsOpen e m s' ∨ Settled w s' (Ends e m s')

theorem settled_hash {d : Nat} (ih : Shorter e eof ('#'.toNat :: d :: s)) :
    MeetsOpen e .datum ('#'.toNat :: d :: s) ∨
      Settled (datum e eof) ('#'.toNat :: d :: s) (Ends e .datum ('#'.toNat :: d :: s)) := by
  have hcomment : ∀ {t}, Comment ('#'.toNat :: d :: s) t →
      MeetsOpen e .datum ('#'.toNat :: d :: s) ∨
        Settled (datum e eof) ('#'.toNat :: d :: s) (Ends e .datum ('#'.toNat :: d :: s)) := by
    intro t h
    rcases ih .datum t _ h.shrinks .datum with hmeets | hsettled
    · exact .inl (.comment h hmeets)
    · exact .inr (.comment h hsettled)
  by_cases hchar : d = '\\'.toNat
  · subst hchar
    exact .inr (.token 1 (readchar_enough _) (datum_char 0 s) fun v t h => .char h)
  by_cases hblock : d = '|'.toNat
  · subst hblock
    cases hend : blockEnd 0 s with
    | none => exact .inl (.block hend)
    | some t => exact hcomment (.block hend)
  by_cases hbang : d = '!'.toNat
  · subst hbang
    obtain ⟨r, t, h⟩ := readcomment_ok ('!'.toNat :: s)
    exact hcomment (.bang h)
  by_cases hsexpr : d = ';'.toNat
  · subst hsexpr
    rcases ih .datum s _ (by simp only [List.length_cons]; omega) .datum with hmeets | hsettled
    · exact .inl (.sexpr hmeets)
    obtain ⟨n, hn, hends⟩ := hsettled.need
    cases hx : (datum e eof n >>= need) s with
    | error stop =>
      right
      refine Settled.of_error (n := n + 2) ((datum_sexpr n s).trans (bind_of_error hx)) ?_
      rintro rfl
      exact hn hx
    | ok p =>
      obtain ⟨x, s'⟩ := p
      obtain ⟨-, hs'⟩ := hends x s' hx
      have hlt : s'.length < ('#'.toNat :: ';'.toNat :: s).length := by
        have hle := hs'.shrinks.1
        simp only [List.length_cons]
        omega
      rcases ih .datum s' _ hlt .datum with hmeets | ⟨n', hn', hends'⟩
      · exact .inl (.sexprRest hs' hmeets)
      right
      have hneed : ∀ n, Le .fuel (datum e eof n >>= need) (datum e eof (n + 1) >>= need) :=
        fun n => Le.bind (Runs.datum.le n) fun _ => Le.refl
      have hfirst := ok_of_le hneed (Nat.le_max_left n n') hx
      have hsecond := le_of_le Runs.datum.le
        (Nat.le_succ_of_le (Nat.le_max_right n n')) s' hn'
      have heq : datum e eof (max n n' + 2) ('#'.toNat :: ';'.toNat :: s) =
          datum e eof n' s' :=
        (datum_sexpr _ s).trans ((bind_of_ok hfirst).trans hsecond)
      obtain ⟨rfl, -⟩ := hends x s' hx
      refine ⟨max n n' + 2, ?_, fun x t hx => .sexpr hs' (hends' x t (heq.symm.trans hx))⟩
      rw [Enough, heq]
      exact hn'
  by_cases hregex : d = '/'.toNat
  · subst hregex
    let n := 3 * ('/'.toNat :: s).length + 2
    exact .inr (.token (n + 1) (readregex_enough (Nat.lt_succ_self _)) (datum_regex n s)
      fun v t h => .regex h)
  · have hother : (runes "\\|!;/").contains d = false := by
      simp [runes] at hchar hblock hbang hsexpr hregex ⊢
      simp [hchar, hblock, hbang, hsexpr, hregex]
    exact .inr (.token 1 (readsym_enough _ _) (datum_hash 0 s hother) fun v t h => .hash hother h)

theorem settled_datum {c : Nat} (hc : whitec c = false) (ih : Shorter e eof (c :: s)) :
    MeetsOpen e .datum (c :: s) ∨
      Settled (datum e eof) (c :: s) (Ends e .datum (c :: s)) := by
  have hlt : s.length < (c :: s).length := by simp
  by_cases hlist : c = '('.toNat
  · subst hlist
    obtain ⟨w, hw, heq⟩ := @datum_list _ e eof
    rcases ih _ s w hlt hw with hmeets | hsettled
    · exact .inl (.list hmeets)
    · refine .inr (hsettled.mono 1 (fun n => heq n s) fun x t h => ?_)
      obtain rfl := h.eq_none nofun
      exact .list h
  by_cases hclose : c = ')'.toNat ∨ c = ']'.toNat
  · have hone : datum e eof 1 (c :: s) = .ok (some c, s) := by
      rcases hclose with rfl | rfl <;> rfl
    refine .inr ⟨1, .of_ok hone, fun x t hx => ?_⟩
    cases hone.symm.trans hx
    exact .closing hclose
  by_cases hbrfn : c = '['.toNat
  · subst hbrfn
    obtain ⟨w, hw, heq⟩ := @datum_brfn _ e eof
    rcases ih _ s w hlt hw with hmeets | hsettled
    · exact .inl (.brfn hmeets)
    · refine .inr (hsettled.mono 1 (fun n => heq n s) fun x t h => ?_)
      obtain rfl := h.eq_none nofun
      exact .brfn h
  by_cases hquote : c = '\''.toNat ∨ c = '`'.toNat
  · rcases ih .datum s _ hlt .datum with hmeets | hsettled
    · exact .inl (.quote hquote hmeets)
    · refine .inr (hsettled.need.mono 2 (fun n => datum_quote n s hquote) fun x t h => ?_)
      obtain ⟨rfl, hends⟩ := h
      exact .quote hquote hends
  by_cases hcomma : c = ','.toNat
  · subst hcomma
    by_cases hat : s.head? = some '@'.toNat
    · obtain ⟨s, rfl⟩ : ∃ s', s = '@'.toNat :: s' := ⟨s.tail, (List.cons_head?_tail hat).symm⟩
      rcases ih .datum s _ (by simp only [List.length_cons]; omega) .datum with hmeets | hsettled
      · exact .inl (.commaAt hmeets)
      · refine .inr (hsettled.need.mono 3 (fun n => datum_comma n _) fun x t h => ?_)
        obtain ⟨rfl, hends⟩ := h
        exact .commaAt hends
    · rcases ih .datum s _ hlt .datum with hmeets | hsettled
      · exact .inl (.comma hat hmeets)
      · refine .inr (hsettled.need.mono 3 (fun n => ?_) fun x t h => ?_)
        · rw [datum_comma, if_neg hat]
        · obtain ⟨rfl, hends⟩ := h
          exact .comma hat hends
  by_cases hstring : c = '"'.toNat
  · subst hstring
    let n := 3 * ('"'.toNat :: s).length + 2
    exact .inr (.token (n + 1) (readstring_enough (Nat.lt_succ_self _)) (datum_string n s)
      fun v t h => .string h)
  by_cases hhash : c = '#'.toNat
  · subst hhash
    cases s with
    | nil =>
      have hone : datum e eof 1 ['#'.toNat] =
          .error (.error "end of file reached while reading #") := rfl
      exact .inr (.of_error hone nofun)
    | cons d s => exact settled_hash ih
  by_cases hline : c = ';'.toNat
  · subst hline
    obtain ⟨r, t, h⟩ := readcomment_ok (';'.toNat :: s)
    have hcomment := Comment.line h
    rcases ih .datum t _ hcomment.shrinks .datum with hmeets | hsettled
    · exact .inl (.comment hcomment hmeets)
    · exact .inr (.comment hcomment hsettled)
  · have hlead : lead c = true := by
      simp [lead, runes, hc] at hlist hclose hbrfn hquote hcomma hstring hhash hline ⊢
      simp [hlist, hclose, hbrfn, hquote, hcomma, hstring, hhash, hline]
    exact .inr (.token 1 (readsym_enough _ _) (datum_sym 0 s hlead) fun v t h => .sym hlead h)

theorem settled_item (hw : Runs e eof m w) (hitem : Item m s)
    (hdatum : MeetsOpen e .datum s ∨ Settled (datum e eof) s (Ends e .datum s))
    (ih : Shorter e eof s) : MeetsOpen e m s ∨ Settled w s (Ends e m s) := by
  obtain ⟨next, hnext, heq⟩ := hw.item hitem
  rcases hdatum with hmeets | ⟨n, hn, hends⟩
  · exact .inl (.item hitem hmeets)
  cases hread : zread e n eof s with
  | error stop =>
    right
    refine Settled.of_error ((heq n).trans (bind_of_error hread)) ?_
    rintro rfl
    exact hn (bind_of_error hread)
  | ok p =>
    obtain ⟨i, s'⟩ := p
    have hs' : Ends e .datum s i.closing s' := hends _ _ (bind_of_ok hread)
    have hne : s ≠ [] := by cases hitem <;> simp
    have hstep := (heq n).trans (bind_of_ok hread)
    cases i with
    | rparen ch =>
      right
      by_cases hch : some ch = m.closes
      · have hdone : w (n + 1) s = .ok (none, s') := hstep.trans (congrFun (if_pos hch) s')
        refine ⟨n + 1, .of_ok hdone, fun x t hx => ?_⟩
        cases hdone.symm.trans hx
        exact .close hitem (hch ▸ hs')
      · have herror : w (n + 1) s = .error (misplaced ch) :=
          hstep.trans (congrFun (if_neg hch) s')
        exact .of_error herror nofun
    | val v =>
      cases hafter : m.after with
      | none =>
        right
        have herror : w (n + 1) s = .error (.error "illegal use of .") :=
          hstep.trans (congrFun (if_pos hafter) s')
        exact .of_error herror nofun
      | some m' =>
        rcases ih m' s' _ (hs'.shrinks.2 hne) (hnext m' v hafter) with hmeets | ⟨n', hn', hends'⟩
        · exact .inl (.itemRest hitem hs' hafter hmeets)
        right
        have hfirst := ok_of_le (fun n => (zread_le e n).1 eof) (Nat.le_max_left n n') hread
        have hsecond := le_of_le (hnext m' v hafter).le (Nat.le_max_right n n') s' hn'
        have hall : w (max n n' + 1) s = next v n' s' := by
          refine (heq _).trans ((bind_of_ok hfirst).trans ?_)
          dsimp only
          rw [hafter, if_neg (by simp)]
          exact hsecond
        refine ⟨max n n' + 1, ?_, fun x t hx => ?_⟩
        · rw [Enough, hall]
          exact hn'
        · have hrest := hends' x t (hall.symm.trans hx)
          obtain rfl : x = none := hrest.eq_none (Mode.after_ne hafter)
          exact .item hitem hs' hafter hrest

theorem meets_or_settled (s : List Nat) (hw : Runs e eof m w) :
    MeetsOpen e m s ∨ Settled w s (Ends e m s) := by
  induction hlen : s.length using Nat.strong_induction_on generalizing m s w with
  | _ len ih =>
    subst hlen
    have hshorter : Shorter e eof s := fun m' s' w' hlt hw' => ih _ hlt s' hw' rfl
    cases s with
    | nil =>
      by_cases hm : m = .datum
      · subst hm
        cases hw
        have hone : datum e eof 1 [] = .ok (none, []) := rfl
        refine .inr ⟨1, .of_ok hone, fun x t hx => ?_⟩
        cases hone.symm.trans hx
        exact .eof
      · obtain ⟨msg, herror⟩ := hw.nil hm 0
        exact .inr (.of_error herror nofun)
    | cons c s =>
      cases hc : whitec c with
      | true =>
        rcases hshorter m s w (by simp) hw with hmeets | hsettled
        · exact .inl (.white hc hmeets)
        · exact .inr (hsettled.mono 0 (fun n => hw.white hc n) fun x t h => .white hc h)
      | false =>
        have hdatum := settled_datum hc hshorter
        cases m with
        | datum =>
          cases hw
          exact hdatum
        | list empty indot =>
          by_cases hdot : c = '.'.toNat
          · subst hdot
            by_cases hindot : indot = .no
            · subst hindot
              obtain ⟨w', hw', heq⟩ := hw.dot
              rcases hshorter _ s w' (by simp) hw' with hmeets | hsettled
              · exact .inl (.dot hmeets)
              · refine .inr (hsettled.mono 1 (fun n => heq n s) fun x t h => ?_)
                obtain rfl := h.eq_none nofun
                exact .dot h
            · exact .inr (.of_error (hw.dots hindot 0 s) nofun)
          · exact settled_item hw (.list hc hdot) hdatum hshorter
        | brfn => exact settled_item hw (.brfn hc) hdatum hshorter

/-- `zread` with its default `rparen`. -/
def zreadDefault (e : ZEnv F) (n : Nat) (eof : Datum F) : ZM (Datum F) := do
  noRparen (← zread e n eof)

theorem zreadDefault_fuel_iff : zreadDefault e n eof s = .error .fuel ↔
    datum e eof n s = .error .fuel := by
  cases hi : zread e n eof s with
  | error stop =>
    rw [zreadDefault, datum, bind_of_error hi, bind_of_error hi]
    simp
  | ok p =>
    obtain ⟨i, t⟩ := p
    rw [zreadDefault, datum, bind_of_ok hi, bind_of_ok hi]
    cases i with
    | val d => exact iff_of_false nofun nofun
    | rparen ch => exact iff_of_false nofun nofun

/-- `zread` comes back, with a value or an error, unless the reader comes to a
block comment that is not closed. -/
theorem zread_halts_iff (e : ZEnv F) (eof : Datum F) (s : List Nat) :
    Bounded.Halts .fuel (fun n => zreadDefault e n eof) s ↔ ¬ MeetsOpen e .datum s := by
  constructor
  · rintro ⟨n, hn⟩ hmeets
    exact hn (zreadDefault_fuel_iff.mpr (hmeets.hangs .datum n))
  · intro hnot
    obtain ⟨n, hn, -⟩ := (meets_or_settled s (.datum : Runs e eof _ _)).resolve_left hnot
    exact ⟨n, fun heq => hn (zreadDefault_fuel_iff.mp heq)⟩

/-- No token is a number. -/
def wordEnv : ZEnv Unit := ⟨fun _ _ => some none, fun _ => none⟩

theorem openComment_not_halts :
    ¬ Bounded.Halts .fuel (fun n => zreadDefault wordEnv n .nil) (runes "#|") := by
  rintro ⟨n, hn⟩
  have hmeets : MeetsOpen wordEnv .datum (runes "#|") := .block rfl
  exact hn (zreadDefault_fuel_iff.mpr (hmeets.hangs .datum n))

end Arcueid.Zread
