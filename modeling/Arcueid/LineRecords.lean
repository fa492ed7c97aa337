import Arcueid.LineErasure

/-! Every cons that stands for a datum of the text is recorded in the line number table. -/

namespace Arcueid.Reader.Lined

open Utf Numeral

variable {F : Type}

section Gives

variable {α β : Type} {x : LineM α} {f : α → LineM β} {P P' : α → Prop} {Q : β → Prop}

/-- Whatever `x` returns meets `P`. -/
def Gives (x : LineM α) (P : α → Prop) : Prop := ∀ s a s', x s = (.ok a, s') → P a

theorem Gives.mono (h : Gives x P) (hP : ∀ a, P a → P' a) : Gives x P' :=
  fun s a s' hx => hP a (h s a s' hx)

theorem Gives.any : Gives x fun _ => True := fun _ _ _ _ => trivial

theorem Gives.pure {a : α} (h : P a) : Gives (Pure.pure a) P := by
  intro s b s' hx
  cases hx
  exact h

theorem Gives.throw {stop : Stop} : Gives (MonadExcept.throw stop : LineM α) P := by
  intro s a s' hx
  cases hx

theorem Gives.bind (hx : Gives x P) (hf : ∀ a, P a → Gives (f a) Q) : Gives (x >>= f) Q := by
  intro s b s' hy
  cases hr : x s with
  | mk r s₁ =>
    cases r with
    | ok a =>
      rw [bind_ok hr] at hy
      exact hf a (hx s a s₁ hr) s₁ b s' hy
    | error stop =>
      rw [bind_error hr] at hy
      cases hy

theorem Gives.map {g : α → β} (h : Gives x fun a => Q (g a)) : Gives (g <$> x) Q := by
  rw [map_eq_pure_bind]
  exact h.bind fun a ha => Gives.pure ha

theorem Gives.ite {c : Prop} [Decidable c] {x' : LineM α} (h : Gives x P) (h' : Gives x' P) :
    Gives (if c then x else x') P := by
  split
  · exact h
  · exact h'

end Gives

section Recorded

/-- What is read, with every datum that has an opening character recorded: the conses
without a mark are the further ones of a list and those that brackets stand for. -/
inductive Recorded (eof : Datum F) : Located F → Prop
  | atom {d : Datum F} (h : ∀ a b, d ≠ .cons a b) : Recorded eof (.atom d)
  | ended : Recorded eof (.plain eof)
  | cut (m : Mark) : Recorded eof ((Located.plain eof).record m)
  | list (m : Mark) {xs : List (Located F)} {tail : Located F} (hxs : ∀ x ∈ xs, Recorded eof x)
      (htail : Recorded eof tail) : Recorded eof ((Located.list xs tail).record m)
  | anonf (m : Mark) {xs : List (Located F)} (hxs : ∀ x ∈ xs, Recorded eof x) :
      Recorded eof ((Located.list [.atom (.symbol (runes "fn")), .list [.atom (.symbol (runes "_"))] (.atom .nil),
        .list xs (.atom .nil)] (.atom .nil)).record m)

/-- What `arc_sread` records. -/
def Recordable (eof : Datum F) (d : Located F) : Prop := ∀ m, Recorded eof (d.record m)

structure ReadersRecord (e : LineEnv F) (eof : Datum F) (n : Nat) : Prop where
  sread : Gives (sread e n eof) (Recorded eof)
  readList : ∀ top dotted, (∀ x ∈ top, Recorded eof x) → (∀ x ∈ dotted, Recorded eof x) →
    Gives (readList e n eof top dotted) (Recordable eof)
  readAnonf : ∀ top, (∀ x ∈ top, Recorded eof x) → Gives (readAnonf e n eof top) (Recordable eof)
  readq : ∀ qsym, Gives (readq e n qsym eof) (Recordable eof)
  readComma : Gives (readComma e n eof) (Recordable eof)

variable {e : LineEnv F} {eof : Datum F} {n : Nat}

theorem recorded_nil : Recorded eof (.atom .nil) := .atom fun _ _ h => by cases h

theorem recorded_symbol (name : List Nat) : Recorded eof (.atom (.symbol name)) := .atom fun _ _ h => by cases h

theorem recorded_string (s : List Nat) : Recorded eof (.atom (.string s)) := .atom fun _ _ h => by cases h

theorem forall_mem_snoc {xs : List (Located F)} {x : Located F} (hxs : ∀ x ∈ xs, Recorded eof x)
    (hx : Recorded eof x) : ∀ y ∈ xs ++ [x], Recorded eof y := by
  intro y hy
  rcases List.mem_append.mp hy with hy | hy
  · exact hxs y hy
  · obtain rfl := List.mem_singleton.mp hy
    exact hx

theorem Recorded.of_nil {d : Located F} (h : Recorded .nil d) (eof : Datum F) : Recorded eof d := by
  induction h with
  | atom h => exact .atom h
  | ended => exact recorded_nil
  | cut m => exact recorded_nil
  | list m _ _ hxs htail => exact .list m hxs htail
  | anonf m _ hxs => exact .anonf m hxs

theorem readChar_gives : Gives (readChar (F := F) n) fun d => Recorded eof (.atom d) := by
  rw [readChar]
  refine Gives.any.bind fun r _ => ?_
  refine Gives.ite (Gives.bind (P := fun _ => False) Gives.throw fun _ h => h.elim) ?_
  refine Gives.any.bind fun r _ => ?_
  refine Gives.ite (Gives.pure (.atom fun _ _ h => by cases h)) (Gives.any.bind fun _ _ => ?_)
  refine Gives.any.bind fun tok _ => ?_
  cases tok with
  | regexp rx casefold multiline => exact Gives.throw
  | text tok =>
    simp only
    cases charOfToken tok with
    | some r => exact Gives.pure (.atom fun _ _ h => by cases h)
    | none => exact Gives.throw

theorem readSymbol_gives (flo : Flonums F) : Gives (readSymbol flo n) fun d => Recorded eof (.atom d) := by
  rw [readSymbol]
  refine Gives.any.bind fun tok _ => ?_
  cases tok with
  | regexp rx casefold multiline => exact Gives.pure (.atom fun _ _ h => by cases h)
  | text sym =>
    refine Gives.ite (Gives.pure (recorded_symbol _)) ?_
    cases string2num flo sym with
    | error msg => exact Gives.throw
    | ok num =>
      cases num with
      | some num => exact Gives.pure (.atom fun _ _ h => by cases h)
      | none =>
        refine Gives.pure ?_
        rw [intern]
        split
        · exact recorded_nil
        · exact recorded_symbol _

theorem readList_gives (ih : ReadersRecord e eof n) (top : List (Located F)) (dotted : Option (Located F))
    (htop : ∀ x ∈ top, Recorded eof x) (hdotted : ∀ x ∈ dotted, Recorded eof x) :
    Gives (readList e (n + 1) eof top dotted) (Recordable eof) := by
  rw [readList]
  refine Gives.any.bind fun ch _ => ?_
  cases ch with
  | none => exact Gives.pure .cut
  | some r =>
    refine Gives.ite (Gives.any.bind fun _ _ => ih.readList top dotted htop hdotted) ?_
    refine Gives.ite (Gives.pure fun m => .list m htop ?_) ?_
    · cases dotted with
      | none => exact recorded_nil
      | some d => exact hdotted d rfl
    refine Gives.ite Gives.throw (Gives.any.bind fun _ _ => ih.sread.bind fun val hval => ?_)
    have hmore : ∀ val, Recorded eof val → Gives (readList e n eof (top ++ [val]) none) (Recordable eof) :=
      fun val hval => ih.readList _ none (forall_mem_snoc htop hval) fun x hx => by cases hx
    cases val with
    | cons m a d => exact hmore _ hval
    | atom d =>
      cases d with
      | symbol name =>
        refine Gives.ite (ih.sread.bind fun val hval' => ?_) (hmore _ (recorded_symbol name))
        refine Gives.ite Gives.throw (ih.readList top (some val) htop fun x hx => ?_)
        cases hx
        exact hval'
      | _ => exact hmore _ hval

theorem readAnonf_gives (ih : ReadersRecord e eof n) (top : List (Located F)) (htop : ∀ x ∈ top, Recorded eof x) :
    Gives (readAnonf e (n + 1) eof top) (Recordable eof) := by
  rw [readAnonf]
  refine Gives.any.bind fun ch _ => ?_
  cases ch with
  | none => exact Gives.pure .cut
  | some r =>
    refine Gives.ite (Gives.any.bind fun _ _ => ih.readAnonf top htop) ?_
    refine Gives.ite (Gives.pure fun m => .anonf m htop) (Gives.any.bind fun _ _ => ?_)
    exact ih.sread.bind fun val hval => ih.readAnonf _ (forall_mem_snoc htop hval)

/-- The reader of strings with expressions gives what may be recorded. -/
def StringsRecordable (e : LineEnv F) (eof : Datum F) : Prop :=
  ∀ f, e.atstrings = some f → ∀ body, Gives (f body) (Recordable eof)

theorem sread_gives (he : StringsRecordable e eof) (ih : ReadersRecord e eof n) :
    Gives (sread e (n + 1) eof) (Recorded eof) := by
  have hrecord : ∀ {x : LineM (Located F)} {m : Mark}, Gives x (Recordable eof) →
      Gives ((·.record m) <$> x) (Recorded eof) := fun {x m} h => Gives.map (h.mono fun d hd => hd m)
  rw [sread]
  refine Gives.any.bind fun ch _ => ?_
  cases ch with
  | none => exact Gives.pure .ended
  | some r =>
    refine Gives.any.bind fun m _ => ?_
    refine Gives.ite (hrecord (ih.readList [] none (by simp) (by simp))) (Gives.ite Gives.throw ?_)
    refine Gives.ite (hrecord (ih.readAnonf [] (by simp))) (Gives.ite Gives.throw ?_)
    refine Gives.ite (hrecord (ih.readq _)) (Gives.ite (hrecord (ih.readq _)) ?_)
    refine Gives.ite (hrecord ih.readComma) (Gives.ite (Gives.any.bind fun s _ => ?_) ?_)
    · cases hf : e.atstrings with
      | none => exact Gives.pure (recorded_string s)
      | some f => exact hrecord (he f hf s)
    refine Gives.ite (Gives.map readChar_gives) (Gives.ite (Gives.any.bind fun _ _ => ih.sread) ?_)
    exact Gives.any.bind fun _ _ => Gives.map (readSymbol_gives e.flo)

theorem readersRecord (he : StringsRecordable e eof) (n : Nat) : ReadersRecord e eof n := by
  induction n with
  | zero => exact ⟨Gives.throw, fun _ _ _ _ => Gives.throw, fun _ _ => Gives.throw, fun _ => Gives.throw,
      Gives.throw⟩
  | succ n ih =>
    refine ⟨sread_gives he ih, readList_gives ih, readAnonf_gives ih, fun qsym => ?_, ?_⟩
    · rw [readq]
      refine ih.sread.bind fun val hval => Gives.pure fun m => .list m (fun x hx => ?_) recorded_nil
      rcases List.mem_pair.mp hx with rfl | rfl
      · exact recorded_symbol qsym
      · exact hval
    · rw [readComma]
      exact Gives.any.bind fun r _ => Gives.ite (ih.readq _) (Gives.any.bind fun _ _ => ih.readq _)

end Recorded

section Strings

theorem Recorded.unescaped {eof : Datum F} {d : Located F} (h : Recorded eof d) :
    Recorded eof (Lined.unescaped d) := by
  cases d with
  | cons m a d => exact h
  | atom d =>
    cases d with
    | string s => exact recorded_string _
    | _ => exact h

theorem onInstring_gives {α : Type} {x : LineM α} {P : α → Prop} (h : Gives x P) (rest : List Nat) :
    Gives (onInstring rest x) fun r => P r.1 := by
  intro s a s' hx
  rw [onInstring] at hx
  cases hr : x { s with port := instring rest } with
  | mk r s₁ =>
    rw [hr] at hx
    cases r with
    | ok a =>
      cases hx
      exact h _ _ _ hr
    | error stop => cases hx

theorem codestring_gives {eof : Datum F} {read : List Nat → LineM (Located F × Port)}
    (hread : ∀ rest, Gives (read rest) fun r => Recorded eof r.1) (n : Nat) (s : List Nat) :
    Gives (codestring read n s) fun cs => ∀ x ∈ cs, Recorded eof x := by
  induction n generalizing s with
  | zero => exact Gives.throw
  | succ n ih =>
    rw [codestring]
    cases atpos s with
    | none =>
      refine Gives.pure fun x hx => ?_
      obtain rfl := List.mem_singleton.mp hx
      exact recorded_string s
    | some i =>
      refine (hread _).bind fun r hr => (ih _).bind fun cs hcs => Gives.pure fun x hx => ?_
      rcases List.mem_cons.mp hx with rfl | hx
      · exact recorded_string _
      rcases List.mem_cons.mp hx with rfl | hx
      · exact hr
      · exact hcs x hx

theorem atstringReader_gives (flo : Flonums F) (n : Nat) (body : List Nat) (eof : Datum F) :
    Gives (atstringReader flo n body) (Recordable eof) := by
  induction n generalizing body eof with
  | zero => exact Gives.throw
  | succ n ih =>
    rw [atstringReader, readAtstring]
    refine Gives.ite ?_ (Gives.pure fun m => recorded_string _)
    let read := fun rest => onInstring rest (sread ⟨flo, some (atstringReader flo n)⟩ (readFuel rest) .nil)
    have hread : ∀ rest, Gives (read rest) fun r => Recorded .nil r.1 := by
      intro rest
      refine onInstring_gives (readersRecord ?_ (readFuel rest)).sread rest
      intro f hf body
      cases hf
      exact ih body .nil
    refine (codestring_gives hread _ body).bind fun cs hcs => Gives.pure fun m => ?_
    · have hlist : ∀ x ∈ Located.atom (.symbol (runes "string")) :: cs.map unescaped, Recorded eof x := by
        intro x hx
        rcases List.mem_cons.mp hx with rfl | hx
        · exact recorded_symbol _
        · obtain ⟨y, hy, rfl⟩ := List.mem_map.mp hx
          exact (hcs y hy).unescaped.of_nil eof
      exact .list m hlist recorded_nil

end Strings

end Arcueid.Reader.Lined
