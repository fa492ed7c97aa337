import Arcueid.LineReader

/-! The line number table is only written: without it the reader reads the same. -/

namespace Arcueid.Reader

open Utf Numeral

variable {F : Type}

@[simp] theorem Located.erase_plain (d : Datum F) : (Located.plain d).erase = d := by
  induction d with
  | cons a d iha ihd => rw [Located.plain, Located.erase, iha, ihd]
  | _ => rfl

@[simp] theorem Located.erase_record (m : Mark) (d : Located F) : (d.record m).erase = d.erase := by
  cases d with
  | atom d => rfl
  | cons m' a d => rfl

@[simp] theorem Located.erase_list (xs : List (Located F)) (tail : Located F) :
    (Located.list xs tail).erase = Reader.list (xs.map Located.erase) tail.erase := by
  induction xs with
  | nil => rfl
  | cons x xs ih => exact congrArg (Datum.cons x.erase) ih

namespace Lined

section Runs

variable {α β : Type} {x : LineM α} {f : α → LineM β} {s s' : Lines} {a : α} {stop : Stop}

theorem bind_ok (h : x s = (.ok a, s')) : (x >>= f) s = f a s' := by
  change ExceptT.bindCont f (x s).1 (x s).2 = _
  rw [h]
  rfl

theorem bind_error (h : x s = (.error stop, s')) : (x >>= f) s = (.error stop, s') := by
  change ExceptT.bindCont f (x s).1 (x s).2 = _
  rw [h]
  rfl

end Runs

/-- What is left of an outcome without the table. -/
def outcome {α β : Type} (er : α → β) (r : Except Stop α × Lines) : Except Stop (β × Port) :=
  match r.1 with
  | .ok a => .ok (er a, r.2.port)
  | .error stop => .error stop

def Erases {α β : Type} (er : α → β) (x : LineM α) (y : ReadM β) : Prop :=
  ∀ s, outcome er (x s) = y s.port

namespace Erases

variable {α β γ δ : Type} {er : α → β} {er' : γ → δ} {x : LineM α} {y : ReadM β}

theorem bind {f : α → LineM γ} {g : β → ReadM δ} (hx : Erases er x y)
    (hf : ∀ a, Erases er' (f a) (g (er a))) : Erases er' (x >>= f) (y >>= g) := by
  intro s
  have hxs := hx s
  cases hr : x s with
  | mk r s' =>
    rw [hr] at hxs
    cases r with
    | ok a =>
      have hy : y s.port = .ok (er a, s'.port) := hxs.symm
      rw [bind_ok hr, Outcome.bind_of_ok hy]
      exact hf a s'
    | error stop =>
      have hy : y s.port = .error stop := hxs.symm
      rw [bind_error hr, Outcome.bind_of_error hy]
      rfl

theorem pure {a : α} : Erases er (Pure.pure a) (Pure.pure (er a)) := fun _ => rfl

theorem throw {stop : Stop} : Erases er (MonadExcept.throw stop) (MonadExcept.throw stop) := fun _ => rfl

theorem onPort (y : ReadM β) : Erases id (Lined.onPort y) y := by
  intro s
  rw [Lined.onPort]
  cases y s.port with
  | ok r => rfl
  | error stop => rfl

theorem map {g : α → γ} (hx : Erases er x y) {er' : γ → β} (hg : ∀ a, er' (g a) = er a) :
    Erases er' (g <$> x) y := by
  intro s
  have hxs := hx s
  change outcome er' (ExceptT.bindCont (fun a => (Pure.pure (g a) : LineM γ)) (x s).1 (x s).2) = _
  rw [← hxs]
  cases x s with
  | mk r s' =>
    cases r with
    | ok a => exact congrArg (fun b => Except.ok (b, s'.port)) (hg a)
    | error stop => rfl

theorem ite {c : Prop} [Decidable c] {x' : LineM α} {y' : ReadM β} (hx : Erases er x y)
    (hx' : Erases er x' y') : Erases er (if c then x else x') (if c then y else y') := by
  split
  · exact hx
  · exact hx'

theorem incLineno_bind {f : PUnit → LineM α} (hf : Erases er (f ⟨⟩) y) : Erases er (incLineno >>= f) y :=
  fun s => hf { s with lineno := s.lineno + 1 }

theorem getLineno_bind {r : Nat} {f : Mark → LineM α} (hf : ∀ m, Erases er (f m) y) :
    Erases er (getLineno r >>= f) y := fun s => hf _ s

end Erases

theorem readc_erases : Erases id readc Reader.readc := Erases.onPort _

theorem ungetc_erases (r : Nat) : Erases id (ungetc r) (Reader.ungetc r) := Erases.onPort _

theorem readc1_erases : Erases id readc1 Reader.readc1 := by
  rw [readc1, Reader.readc1]
  refine readc_erases.bind fun ch => ?_
  cases ch with
  | none => exact Erases.throw
  | some r => exact Erases.pure

theorem scan_erases (n : Nat) : Erases id (scan n) (Reader.scan n) := by
  induction n with
  | zero => exact Erases.throw
  | succ n ih =>
    rw [scan, Reader.scan]
    refine readc_erases.bind fun ch => ?_
    cases ch with
    | none => exact Erases.pure
    | some r =>
      have hrest : Erases id (if ucisspace r then scan n else pure (some r))
          (if ucisspace r then Reader.scan n else pure (some r)) := by
        split
        · exact ih
        · exact Erases.pure
      by_cases hnl : ucisnl r = true
      · simp only [hnl, if_true]
        exact Erases.incLineno_bind hrest
      · simp only [hnl]
        exact hrest

theorem readComment_erases (n : Nat) : Erases id (readComment n) (Reader.readComment n) := by
  induction n with
  | zero => exact Erases.throw
  | succ n ih =>
    rw [readComment, Reader.readComment]
    refine readc_erases.bind fun ch => ?_
    simp only [id]
    split
    · exact Erases.pure
    split
    · exact fun _ => rfl
    · exact ih

theorem getsymbol_erases (n : Nat) (state : SymState) (buf : List Nat) :
    Erases id (getsymbol n state buf) (Reader.getsymbol n state buf) := by
  induction n generalizing state buf with
  | zero => exact Erases.throw
  | succ n ih =>
    rw [getsymbol, Reader.getsymbol]
    refine readc_erases.bind fun ch => ?_
    simp only [id]
    split
    · exact ih _ _
    have hend : ∀ state, Erases id (finishToken state buf) (Reader.finishToken state buf) := fun _ =>
      Erases.onPort _
    have hplain : ∀ state, Erases id
        (if ch.getD Runeerror = Runeerror then finishToken state buf
          else if (!issym (ch.getD Runeerror)) = true then do
            ungetc (ch.getD Runeerror)
            finishToken state buf
          else getsymbol n state (buf ++ [ch.getD Runeerror]))
        (if ch.getD Runeerror = Runeerror then Reader.finishToken state buf
          else if (!issym (ch.getD Runeerror)) = true then do
            Reader.ungetc (ch.getD Runeerror)
            Reader.finishToken state buf
          else Reader.getsymbol n state (buf ++ [ch.getD Runeerror])) := by
      intro state
      split
      · exact hend _
      split
      · exact (ungetc_erases _).bind fun _ => hend _
      · exact ih _ _
    cases nextState state (ch.getD Runeerror) with
    | regex =>
      simp only
      split_ifs
      · exact ih _ _
      · exact Erases.throw
      · exact ih _ _
      · exact ih _ _
    | regexEscape =>
      cases ch with
      | none => exact Erases.throw
      | some r => exact ih _ _
    | regexFlags casefold multiline =>
      simp only
      split_ifs
      · exact ih _ _
      · exact ih _ _
      · exact Erases.throw
      · exact hend _
      · exact Erases.throw
    | start => exact hplain _
    | sawR => exact hplain _
    | symbol => exact hplain _

theorem readString_erases (n : Nat) (state : StrState) (buf : List Nat) :
    Erases id (readString n state buf) (Reader.readString n state buf) := by
  induction n generalizing state buf with
  | zero => exact Erases.throw
  | succ n ih =>
    rw [readString, Reader.readString]
    refine readc1_erases.bind fun r => ?_
    simp only [id]
    cases state with
    | normal =>
      simp only
      split
      · exact Erases.pure
      split
      · exact ih _ _
      split
      · exact Erases.incLineno_bind (ih _ _)
      · exact ih _ _
    | escape =>
      simp only
      split
      · exact ih _ _
      · cases escapeCode r with
        | none => exact Erases.throw
        | some r => exact ih _ _
    | unicode escrune digcount =>
      simp only
      split
      · exact (ungetc_erases r).bind fun _ => ih _ _
      · cases hexDigit r with
        | none => exact Erases.throw
        | some digval => exact ih _ _

theorem readChar_erases (n : Nat) : Erases id (readChar (F := F) n) (Reader.readChar n) := by
  rw [readChar, Reader.readChar]
  refine readc1_erases.bind fun r => ?_
  simp only [id]
  split
  · exact Erases.throw
  refine readc1_erases.bind fun r => ?_
  simp only [id]
  split
  · exact Erases.pure
  refine (ungetc_erases r).bind fun _ => (getsymbol_erases n .start []).bind fun tok => ?_
  cases tok with
  | regexp rx casefold multiline => exact Erases.throw
  | text tok =>
    simp only [id]
    cases charOfToken tok with
    | some r => exact Erases.pure
    | none => exact Erases.throw

theorem readSymbol_erases (flo : Flonums F) (n : Nat) :
    Erases id (readSymbol flo n) (Reader.readSymbol flo n) := by
  rw [readSymbol, Reader.readSymbol]
  refine (getsymbol_erases n .start []).bind fun tok => ?_
  cases tok with
  | regexp rx casefold multiline => exact Erases.pure
  | text sym =>
    simp only [id]
    split
    · exact Erases.pure
    cases string2num flo sym with
    | error msg => exact Erases.throw
    | ok num =>
      cases num with
      | none => exact Erases.pure
      | some num => exact Erases.pure

section Readers

structure ReadersErase (e : LineEnv F) (e' : ReadEnv F) (eof : Datum F) (n : Nat) : Prop where
  sread : Erases Located.erase (sread e n eof) (Reader.sread e' n eof)
  readList : ∀ top dotted, Erases Located.erase (readList e n eof top dotted)
    (Reader.readList e' n eof (top.map Located.erase) (dotted.map Located.erase))
  readAnonf : ∀ top, Erases Located.erase (readAnonf e n eof top)
    (Reader.readAnonf e' n eof (top.map Located.erase))
  readq : ∀ qsym, Erases Located.erase (readq e n qsym eof) (Reader.readq e' n qsym eof)
  readComma : Erases Located.erase (readComma e n eof) (Reader.readComma e' n eof)

/-- The readers of strings agree where they are declared. -/
structure EnvErases (e : LineEnv F) (e' : ReadEnv F) : Prop where
  flo : e.flo = e'.flo
  atstrings : match e.atstrings, e'.atstrings with
    | some f, some f' => ∀ s, Erases Located.erase (f s) (f' s)
    | none, none => True
    | _, _ => False

variable {e : LineEnv F} {e' : ReadEnv F} {eof : Datum F} {n : Nat}

theorem erases_plain (d : Datum F) : Erases Located.erase (pure (.plain d)) (pure d) := by
  have h : Erases Located.erase (pure (.plain d)) (pure (Located.plain d).erase) := Erases.pure
  rwa [Located.erase_plain] at h

theorem erases_list (xs : List (Located F)) (tail : Located F) :
    Erases Located.erase (pure (.list xs tail)) (pure (Reader.list (xs.map Located.erase) tail.erase)) := by
  rw [← Located.erase_list]
  exact Erases.pure

theorem erases_record {x : LineM (Located F)} {y : ReadM (Datum F)} (m : Mark)
    (h : Erases Located.erase x y) : Erases Located.erase ((·.record m) <$> x) y :=
  h.map (Located.erase_record m)

theorem readList_erases (ih : ReadersErase e e' eof n) (top : List (Located F)) (dotted : Option (Located F)) :
    Erases Located.erase (readList e (n + 1) eof top dotted)
      (Reader.readList e' (n + 1) eof (top.map Located.erase) (dotted.map Located.erase)) := by
  rw [readList, Reader.readList]
  refine (scan_erases n).bind fun ch => ?_
  cases ch with
  | none => exact erases_plain eof
  | some r =>
    simp only [id]
    split
    · exact (readComment_erases n).bind fun _ => ih.readList _ _
    split
    · have hlist := erases_list top (dotted.getD (.atom .nil))
      cases dotted with
      | none => exact hlist
      | some d => exact hlist
    rw [Option.isSome_map]
    split
    · exact Erases.throw
    refine (ungetc_erases r).bind fun _ => ih.sread.bind fun val => ?_
    have hmore : ∀ val : Located F, Erases Located.erase (readList e n eof (top ++ [val]) none)
        (Reader.readList e' n eof (top.map Located.erase ++ [val.erase]) none) := by
      intro val
      have h := ih.readList (top ++ [val]) none
      rwa [List.map_append] at h
    cases val with
    | cons m a d => exact hmore _
    | atom d =>
      cases d with
      | symbol name =>
        simp only [Located.erase]
        split
        · refine ih.sread.bind fun val => ?_
          by_cases htop : top = []
          · rw [if_pos htop, if_pos (List.map_eq_nil_iff.mpr htop)]
            exact Erases.throw
          · rw [if_neg htop, if_neg fun h => htop (List.map_eq_nil_iff.mp h)]
            exact ih.readList top (some val)
        · exact hmore _
      | _ => exact hmore _

theorem readAnonf_erases (ih : ReadersErase e e' eof n) (top : List (Located F)) :
    Erases Located.erase (readAnonf e (n + 1) eof top)
      (Reader.readAnonf e' (n + 1) eof (top.map Located.erase)) := by
  rw [readAnonf, Reader.readAnonf]
  refine (scan_erases n).bind fun ch => ?_
  cases ch with
  | none => exact erases_plain eof
  | some r =>
    simp only [id]
    split
    · exact (readComment_erases n).bind fun _ => ih.readAnonf _
    split
    · have hlist := erases_list (F := F) [.atom (.symbol (runes "fn")),
        .list [.atom (.symbol (runes "_"))] (.atom .nil), .list top (.atom .nil)] (.atom .nil)
      simpa only [List.map_cons, List.map_nil, Located.erase_list, Located.erase] using hlist
    refine (ungetc_erases r).bind fun _ => ih.sread.bind fun val => ?_
    have h := ih.readAnonf (top ++ [val])
    rwa [List.map_append] at h

theorem sread_erases (he : EnvErases e e') (ih : ReadersErase e e' eof n) :
    Erases Located.erase (sread e (n + 1) eof) (Reader.sread e' (n + 1) eof) := by
  rw [sread, Reader.sread]
  refine (scan_erases n).bind fun ch => ?_
  cases ch with
  | none => exact erases_plain eof
  | some r =>
    simp only [id]
    refine Erases.getLineno_bind fun m => ?_
    have hsymbol : Erases Located.erase (ungetc r >>= fun _ => .atom <$> readSymbol e.flo n)
        (Reader.ungetc r >>= fun _ => Reader.readSymbol e'.flo n) := by
      rw [← he.flo]
      exact (ungetc_erases r).bind fun _ => (readSymbol_erases e.flo n).map fun _ => rfl
    refine Erases.ite (erases_record m (ih.readList [] none)) (Erases.ite Erases.throw ?_)
    refine Erases.ite (erases_record m (ih.readAnonf [])) (Erases.ite Erases.throw ?_)
    refine Erases.ite (erases_record m (ih.readq _)) (Erases.ite (erases_record m (ih.readq _)) ?_)
    refine Erases.ite (erases_record m ih.readComma) (Erases.ite ?_ ?_)
    · refine (readString_erases n .normal []).bind fun s => ?_
      have hat := he.atstrings
      cases hf : e.atstrings with
      | none =>
        cases hf' : e'.atstrings with
        | none => exact Erases.pure
        | some f' =>
          rw [hf, hf'] at hat
          exact hat.elim
      | some f =>
        cases hf' : e'.atstrings with
        | none =>
          rw [hf, hf'] at hat
          exact hat.elim
        | some f' =>
          rw [hf, hf'] at hat
          exact erases_record m (hat s)
    · refine Erases.ite ((readChar_erases n).map fun _ => rfl) (Erases.ite ?_ hsymbol)
      exact (readComment_erases n).bind fun _ => ih.sread

theorem readersErase (he : EnvErases e e') (eof : Datum F) (n : Nat) : ReadersErase e e' eof n := by
  induction n with
  | zero => exact ⟨Erases.throw, fun _ _ => Erases.throw, fun _ => Erases.throw, fun _ => Erases.throw,
      Erases.throw⟩
  | succ n ih =>
    refine ⟨sread_erases he ih, readList_erases ih, readAnonf_erases ih, fun qsym => ?_, ?_⟩
    · rw [readq, Reader.readq]
      refine ih.sread.bind fun val => ?_
      exact erases_list [.atom (.symbol qsym), val] (.atom .nil)
    · rw [readComma, Reader.readComma]
      refine readc1_erases.bind fun r => ?_
      simp only [id]
      split
      · exact ih.readq _
      · exact (ungetc_erases r).bind fun _ => ih.readq _

end Readers

section Strings

theorem Located.erase_unescaped (d : Located F) : (unescaped d).erase = Datum.unescaped d.erase := by
  cases d with
  | atom d => rfl
  | cons m a d => rfl

theorem onInstring_erases {α β : Type} {er : α → β} {x : LineM α} {y : ReadM β} (h : Erases er x y)
    (rest : List Nat) :
    Erases (fun r => (er r.1, r.2)) (onInstring rest x) (liftM (y (instring rest)) : ReadM (β × Port)) := by
  intro s
  have hx := h { s with port := instring rest }
  rw [onInstring]
  cases hr : x { s with port := instring rest } with
  | mk r s' =>
    rw [hr] at hx
    rw [← hx]
    cases r with
    | ok a => rfl
    | error stop => rfl

/-- Reading the fragments does not touch the port. -/
theorem codestring_erases {read : List Nat → LineM (Located F × Port)}
    {read' : List Nat → Except Stop (Datum F × Port)}
    (hread : ∀ rest, Erases (fun r => (r.1.erase, r.2)) (read rest) (liftM (read' rest))) (n : Nat) (s : List Nat) :
    Erases (List.map Located.erase) (codestring read n s) (liftM (Reader.codestring read' n s)) := by
  induction n generalizing s with
  | zero => exact Erases.throw
  | succ n ih =>
    rw [codestring, Reader.codestring]
    cases atpos s with
    | none => exact Erases.pure
    | some i =>
      simp only
      rw [liftM_bind]
      refine (hread _).bind fun r => ?_
      rw [liftM_bind]
      exact (ih _).bind fun cs => Erases.pure

theorem atstringReader_erases (flo : Flonums F) (n : Nat) (s : List Nat) :
    Erases Located.erase (atstringReader flo n s) (Reader.atstringReader flo n s) := by
  induction n generalizing s with
  | zero => exact Erases.throw
  | succ n ih =>
    have he : EnvErases (F := F) ⟨flo, some (atstringReader flo n)⟩ ⟨flo, some (Reader.atstringReader flo n)⟩ :=
      ⟨rfl, ih⟩
    rw [atstringReader, Reader.atstringReader, readAtstring, Reader.readAtstring]
    split
    · rw [liftM_bind]
      refine (codestring_erases (fun rest => ?_) _ s).bind fun cs => ?_
      · exact onInstring_erases (readersErase he .nil (readFuel rest)).sread rest
      · have hlist : (Located.list (cs.map unescaped) (.atom .nil)).erase =
            Reader.list ((cs.map Located.erase).map Datum.unescaped) .nil := by
          rw [Located.erase_list, List.map_map, List.map_map]
          exact congrArg (fun xs => Reader.list xs .nil) (List.map_congr_left fun d _ => Located.erase_unescaped d)
        rw [← hlist]
        exact Erases.pure
    · exact Erases.pure

end Strings

end Lined

theorem Settings.lined_erases (c : Settings F) (s : List Nat) : Lined.EnvErases (c.lined s) (c.env s) := by
  refine ⟨rfl, ?_⟩
  rw [Settings.lined, Settings.env]
  cases c.atstrings with
  | false => trivial
  | true => exact Lined.atstringReader_erases c.flo s.length

/-- Without the table `arc_sread` reads what it reads with it. -/
theorem readText_lined (c : Settings F) (s : List Nat) (k : Nat) : readText c s =
    Prod.fst <$> Lined.outcome Located.erase (Lined.sread (c.lined s) (readFuel s) .nil ⟨instring s, k⟩) := by
  rw [(Lined.readersErase (c.lined_erases s) .nil (readFuel s)).sread ⟨instring s, k⟩]
  rfl

end Arcueid.Reader
