import Mathlib.Tactic.IntervalCases
import Arcueid.Atstrings
import Arcueid.ConsRoundTrip

/-! Special syntax in symbols: `arc_ssexpand` and its expanders (`ssyntax.c`). -/

namespace Arcueid.Ssexpand

open Reader Numeral

variable {F : Type}

section Definitions

def isNil : Datum F → Bool
  | .nil => true
  | _ => false

def quoted (prevchar : Nat) (elt : Datum F) : Datum F :=
  if prevchar = '!'.toNat then list [.symbol (runes "quote"), elt] .nil else elt

def negated (negate : Bool) (elt : Datum F) : Datum F :=
  if negate then
    if isNil elt then .symbol (runes "no") else list [.symbol (runes "complement"), elt] .nil
  else elt

def appended (top : List (Datum F)) (elt : Datum F) : List (Datum F) :=
  if isNil elt then top else top ++ [elt]

/-- The last statements of `expand_compose` and `expand_and`, which take the car and the
cdr of the list also where it is nil. -/
def finish (head : List Nat) : List (Datum F) → Except Stop (Datum F)
  | [] => throw .undefined
  | [x] => pure x
  | top => pure (list (.symbol head :: top) .nil)

variable (c : Settings F)

/-- What has been collected is read, if anything has. -/
def readElt (elt : List Nat) : Except Stop (Datum F) := if elt = [] then pure .nil else readText c elt

/-- The loop of `expand_compose`. -/
def composeFrom : List (Datum F) → Bool → List Nat → List Nat → Except Stop (Datum F)
  | top, negate, elt, [] => do
    let val ← readElt c elt
    if negate && top.isEmpty then pure (negated negate val)
    else finish (runes "compose") (appended top (negated negate val))
  | top, negate, elt, rch :: rest =>
    if rch = ':'.toNat then do
      let val ← readElt c elt
      composeFrom (appended top (negated negate val)) false [] rest
    else if rch = '~'.toNat then composeFrom top true elt rest
    else composeFrom top negate (elt ++ [rch]) rest

def expandCompose (sym : List Nat) : Except Stop (Datum F) := composeFrom c [] false [] sym

/-- The loop of `expand_sexpr`. -/
def sexprFrom : Datum F → Nat → List Nat → List Nat → Except Stop (Datum F)
  | last, prevchar, elt, [] =>
    -- a port is opened on nil
    if elt = [] then throw .undefined
    else do
      let val ← readText c elt
      -- the name is passed to the error as its index, 0
      if isNil val then throw (.error "Bad ssyntax (null)")
      else if isNil last then pure (list [.symbol (runes "get"), quoted prevchar val] .nil)
      else pure (list [last, quoted prevchar val] .nil)
  | last, prevchar, elt, rch :: rest =>
    if rch = '.'.toNat ∨ rch = '!'.toNat then
      if elt = [] then sexprFrom last rch [] rest
      else do
        let val ← readText c elt
        sexprFrom (if isNil last then val else list [last, quoted rch val] .nil) rch [] rest
    else sexprFrom last prevchar (elt ++ [rch]) rest

def expandSexpr (sym : List Nat) : Except Stop (Datum F) := sexprFrom c .nil 0 [] sym

/-- The loop of `expand_and`. -/
def andFrom : List (Datum F) → List Nat → List Nat → Except Stop (Datum F)
  | top, elt, [] => do
    let val ← readElt c elt
    finish (runes "andf") (appended top val)
  | top, elt, rch :: rest =>
    if rch = '&'.toNat then do
      let val ← readElt c elt
      andFrom (appended top val) [] rest
    else andFrom top (elt ++ [rch]) rest

def expandAnd (sym : List Nat) : Except Stop (Datum F) := andFrom c [] [] sym

def expandSsyntax (sym : List Nat) : Except Stop (Datum F) :=
  if ':'.toNat ∈ sym ∨ '~'.toNat ∈ sym then expandCompose c sym
  else if '.'.toNat ∈ sym ∨ '!'.toNat ∈ sym then expandSexpr c sym
  else if '&'.toNat ∈ sym then expandAnd c sym
  else pure .nil

def ssexpand : Datum F → Except Stop (Datum F)
  | .symbol name => if name = runes "=~" then pure .nil else expandSsyntax c name
  | x => pure x

end Definitions

section Elements

/-- A number or a symbol without special syntax. -/
structure Element (flo : Flonums F) (elt : List Nat) : Prop where
  atom : AtomToken elt
  plain : ∀ r ∈ elt, r ∉ runes ":~&.!"
  reads : (readToken flo elt).isSome = true

/-- What an element stands for. -/
def tokenDatum (flo : Flonums F) (elt : List Nat) : Datum F := (readToken flo elt).getD .nil

/-- An element with those that follow it, each behind its separator. -/
def chainText (elt : List Nat) (parts : List (Nat × List Nat)) : List Nat :=
  elt ++ parts.flatMap fun part => part.1 :: part.2

/-- The application to one argument after the other, quoted behind `!`. -/
def applied (flo : Flonums F) (f : Datum F) (parts : List (Nat × List Nat)) : Datum F :=
  parts.foldl (fun f part => list [f, quoted part.1 (tokenDatum flo part.2)] .nil) f

variable {c : Settings F} {elt : List Nat}

theorem Element.readText (h : Element c.flo elt) : readText c elt = .ok (tokenDatum c.flo elt) := by
  obtain ⟨d, hd⟩ := Option.isSome_iff_exists.mp h.reads
  have hdot : elt ≠ runes "." := by
    rintro rfl
    exact h.plain _ List.mem_cons_self (by decide)
  have hcs : Delimited [] := fun r hr => by cases hr
  have hp : At (instring elt) ([] ++ elt ++ []) := by
    rw [List.append_nil]
    exact At.clean elt
  obtain ⟨p', hread, -⟩ := sread_token (e := c.env elt) (n := 3 * elt.length + 2) .nil [] h.atom hdot hd hp hcs
    (fun w hw => by cases hw) (by rw [List.length_nil]; omega)
  rw [Reader.readText, readFuel, hread, tokenDatum, hd]
  rfl

theorem readToken_not_cons {flo : Flonums F} {d : Datum F} (h : readToken flo elt = some d) :
    d.isCons = false := by
  rw [readToken] at h
  split at h
  · cases h
  · cases h
    rfl
  · cases h
    rw [intern]
    split <;> rfl

theorem tokenDatum_not_cons (flo : Flonums F) (elt : List Nat) : (tokenDatum flo elt).isCons = false := by
  rw [tokenDatum]
  cases h : readToken flo elt with
  | none => rfl
  | some d => exact readToken_not_cons h

/-- The element `nil` is the only one that stands for nil. -/
theorem Element.isNil_iff (h : Element c.flo elt) : isNil (tokenDatum c.flo elt) = true ↔ elt = runes "nil" := by
  have hreads := h.reads
  rw [tokenDatum]
  rw [readToken] at hreads ⊢
  constructor
  · intro hnil
    cases hnum : string2num c.flo elt with
    | error msg =>
      rw [hnum] at hreads
      cases hreads
    | ok num =>
      rw [hnum] at hnil
      cases num with
      | some num => cases hnil
      | none =>
        by_contra hne
        have hsym : (intern elt : Datum F) = .symbol elt := if_neg hne
        simp only [hsym] at hnil
        cases hnil
  · rintro rfl
    rfl

end Elements

section Application

variable {c : Settings F} {elt : List Nat} {last f : Datum F} {sep : Nat} {parts : List (Nat × List Nat)}

def IsSep (r : Nat) : Prop := r = '.'.toNat ∨ r = '!'.toNat

theorem sexprFrom_plain {t rest : List Nat} (ht : ∀ r ∈ t, ¬ IsSep r) (elt : List Nat) :
    sexprFrom c last sep elt (t ++ rest) = sexprFrom c last sep (elt ++ t) rest := by
  induction t generalizing elt with
  | nil => rw [List.nil_append, List.append_nil]
  | cons r t ih =>
    have hr : ¬ IsSep r := ht r List.mem_cons_self
    have hstep : sexprFrom c last sep elt (r :: (t ++ rest)) = sexprFrom c last sep (elt ++ [r]) (t ++ rest) :=
      if_neg hr
    rw [List.cons_append, hstep, ih fun x hx => ht x (List.mem_cons_of_mem _ hx), List.append_assoc]
    rfl

/-- The loop over the elements: `elt` waits behind the separator `sep`. -/
def chainFrom (flo : Flonums F) : Datum F → Nat → List Nat → List (Nat × List Nat) →
    Except Stop (Datum F)
  | last, sep, elt, [] =>
    if isNil (tokenDatum flo elt) then throw (.error "Bad ssyntax (null)")
    else if isNil last then pure (list [.symbol (runes "get"), quoted sep (tokenDatum flo elt)] .nil)
    else pure (list [last, quoted sep (tokenDatum flo elt)] .nil)
  | last, _, elt, (sep, next) :: parts =>
    chainFrom flo (if isNil last then tokenDatum flo elt
      else list [last, quoted sep (tokenDatum flo elt)] .nil) sep next parts

/-- The separators and the elements behind them. -/
structure Parts (flo : Flonums F) (parts : List (Nat × List Nat)) : Prop where
  seps : ∀ part ∈ parts, IsSep part.1
  elements : ∀ part ∈ parts, Element flo part.2

theorem Parts.tail {flo : Flonums F} {part : Nat × List Nat} (h : Parts flo (part :: parts)) : Parts flo parts :=
  ⟨fun q hq => h.seps q (List.mem_cons_of_mem _ hq), fun q hq => h.elements q (List.mem_cons_of_mem _ hq)⟩

theorem Element.no_sep {flo : Flonums F} (h : Element flo elt) : ∀ r ∈ elt, ¬ IsSep r := by
  rintro r hr (rfl | rfl)
  · exact h.plain _ hr (by decide)
  · exact h.plain _ hr (by decide)

theorem sexprFrom_chain (helt : Element c.flo elt) (hparts : Parts c.flo parts) (last : Datum F) (sep : Nat) :
    sexprFrom c last sep elt (chainText [] parts) = chainFrom c.flo last sep elt parts := by
  induction parts generalizing last sep elt with
  | nil =>
    have hend : chainText [] [] = [] := rfl
    rw [hend, sexprFrom, if_neg helt.atom.ne_nil, helt.readText, chainFrom]
    rfl
  | cons part parts ih =>
    obtain ⟨s, next⟩ := part
    have hs : IsSep s := hparts.seps _ List.mem_cons_self
    have hnext : Element c.flo next := hparts.elements _ List.mem_cons_self
    have htext : chainText [] ((s, next) :: parts) = s :: (next ++ chainText [] parts) := by
      simp [chainText]
    have hstep : sexprFrom c last sep elt (s :: (next ++ chainText [] parts)) =
        sexprFrom c (if isNil last then tokenDatum c.flo elt
          else list [last, quoted s (tokenDatum c.flo elt)] .nil) s [] (next ++ chainText [] parts) := by
      have hdot : s = '.'.toNat ∨ s = '!'.toNat := hs
      rw [sexprFrom, if_pos hdot, if_neg helt.atom.ne_nil, helt.readText]
      rfl
    rw [htext, hstep, sexprFrom_plain hnext.no_sep, List.nil_append, ih hnext hparts.tail, chainFrom]

theorem expandSexpr_chain (helt : Element c.flo elt) (hparts : Parts c.flo parts) :
    expandSexpr c (chainText elt parts) = chainFrom c.flo .nil 0 elt parts := by
  have htext : chainText elt parts = elt ++ chainText [] parts := by simp [chainText]
  rw [expandSexpr, htext, sexprFrom_plain helt.no_sep, List.nil_append, sexprFrom_chain helt hparts]

/-- The last element. -/
def lastElt : List Nat → List (Nat × List Nat) → List Nat
  | elt, [] => elt
  | _, part :: parts => lastElt part.2 parts

theorem lastElt_element {flo : Flonums F} (helt : Element flo elt) (hparts : Parts flo parts) :
    Element flo (lastElt elt parts) := by
  induction parts generalizing elt with
  | nil => exact helt
  | cons part parts ih => exact ih (hparts.elements _ List.mem_cons_self) hparts.tail

theorem quoted_eq_iff {s s' : Nat} (hs : IsSep s) (hs' : IsSep s') (d : Datum F) :
    quoted s d = quoted s' d ↔ s = s' := by
  have hquote : list [.symbol (runes "quote"), d] .nil ≠ d := by
    intro h
    have hsize := congrArg sizeOf h
    simp [list] at hsize
    omega
  have hdot : quoted '.'.toNat d = d := rfl
  have hbang : quoted '!'.toNat d = list [.symbol (runes "quote"), d] .nil := rfl
  have hne : '.'.toNat ≠ '!'.toNat := by decide
  rcases hs with rfl | rfl <;> rcases hs' with rfl | rfl
  · exact iff_of_true rfl rfl
  · rw [hdot, hbang]
    exact iff_of_false (fun h => hquote h.symm) hne
  · rw [hdot, hbang]
    exact iff_of_false hquote hne.symm
  · exact iff_of_true rfl rfl

theorem list_pair_inj {f f' x x' : Datum F} :
    (list [f, x] .nil : Datum F) = list [f', x'] .nil ↔ f = f' ∧ x = x' := by
  simp [list]

/-- Behind a function, the loop gives the application it stands for just where all separators
are the same and the last element is not nil. -/
theorem chainFrom_eq_iff {flo : Flonums F} (hlast : isNil last = false) (hsep : IsSep sep)
    (hparts : Parts flo parts) :
    chainFrom flo last sep elt parts = .ok (applied flo f ((sep, elt) :: parts)) ↔
      last = f ∧ isNil (tokenDatum flo (lastElt elt parts)) = false ∧ ∀ part ∈ parts, part.1 = sep := by
  induction parts generalizing last f sep elt with
  | nil =>
    rw [chainFrom, lastElt]
    cases hnil : isNil (tokenDatum flo elt) with
    | true =>
      refine iff_of_false (fun h => ?_) fun h => Bool.noConfusion h.2.1
      cases h
    | false =>
      rw [hlast]
      have hdone : (.ok (list [last, quoted sep (tokenDatum flo elt)] .nil) : Except Stop (Datum F)) =
          .ok (applied flo f [(sep, elt)]) ↔ last = f := by
        rw [Except.ok.injEq]
        exact list_pair_inj.trans (and_iff_left rfl)
      refine hdone.trans ?_
      simp
  | cons part parts ih =>
    obtain ⟨s, next⟩ := part
    have hs : IsSep s := hparts.seps _ List.mem_cons_self
    have happ : applied flo f ((sep, elt) :: (s, next) :: parts) =
        applied flo (list [f, quoted sep (tokenDatum flo elt)] .nil) ((s, next) :: parts) := rfl
    have hlast' : isNil (list [last, quoted s (tokenDatum flo elt)] .nil : Datum F) = false := rfl
    rw [chainFrom, hlast, happ]
    simp only [Bool.false_eq_true, if_false]
    rw [ih hlast' hs hparts.tail, list_pair_inj, quoted_eq_iff hs hsep, lastElt, List.forall_mem_cons]
    constructor
    · rintro ⟨⟨rfl, rfl⟩, hnil, hall⟩
      exact ⟨rfl, hnil, rfl, hall⟩
    · rintro ⟨rfl, hnil, rfl, hall⟩
      exact ⟨⟨rfl, rfl⟩, hnil, hall⟩

/-- The function at the very front of a chain of applications. -/
def innermost : Datum F → Datum F
  | .cons f _ => innermost f
  | x => x

theorem innermost_applied (flo : Flonums F) (f : Datum F) (parts : List (Nat × List Nat)) :
    innermost (applied flo f parts) = innermost f := by
  induction parts generalizing f with
  | nil => rfl
  | cons part parts ih => exact ih _

theorem innermost_tokenDatum (flo : Flonums F) (elt : List Nat) :
    innermost (tokenDatum flo elt) = tokenDatum flo elt := by
  have h := tokenDatum_not_cons flo elt
  cases hd : tokenDatum flo elt with
  | cons f x =>
    rw [hd] at h
    cases h
  | _ => rfl

theorem chainFrom_innermost {flo : Flonums F} {x : Datum F}
    (hlast : isNil last = false → isNil (innermost last) = false)
    (hx : chainFrom flo last sep elt parts = .ok x) : isNil (innermost x) = false := by
  induction parts generalizing last sep elt with
  | nil =>
    rw [chainFrom] at hx
    cases hnil : isNil (tokenDatum flo elt) with
    | true =>
      rw [hnil] at hx
      cases hx
    | false =>
      rw [hnil] at hx
      cases hl : isNil last with
      | true =>
        rw [hl] at hx
        cases hx
        rfl
      | false =>
        rw [hl] at hx
        cases hx
        exact hlast hl
  | cons part parts ih =>
    obtain ⟨s, next⟩ := part
    rw [chainFrom] at hx
    refine ih ?_ hx
    cases hl : isNil last with
    | true =>
      intro helt
      simp only [if_true] at helt ⊢
      rwa [innermost_tokenDatum]
    | false => exact fun _ => hlast hl

/-- The expansion of a chain of applications: `(...((e0 a1) a2)... an)`. -/
def Nests (c : Settings F) (elt : List Nat) (parts : List (Nat × List Nat)) : Prop :=
  ssexpand c (.symbol (chainText elt parts)) = .ok (applied c.flo (tokenDatum c.flo elt) parts)

theorem ssexpand_chain (helt : Element c.flo elt) (hparts : Parts c.flo parts) (hne : parts ≠ []) :
    ssexpand c (.symbol (chainText elt parts)) = expandSexpr c (chainText elt parts) := by
  have hrunes : ∀ r ∈ chainText elt parts, IsSep r ∨ r ∉ runes ":~&.!" := by
    intro r hr
    rcases List.mem_append.mp hr with hr | hr
    · exact .inr (helt.plain r hr)
    · obtain ⟨part, hpart, hr⟩ := List.mem_flatMap.mp hr
      rcases List.mem_cons.mp hr with rfl | hr
      · exact .inl (hparts.seps part hpart)
      · exact .inr ((hparts.elements part hpart).plain r hr)
  have hno : ∀ r, r ∈ runes ":~&.!" → ¬ IsSep r → r ∉ chainText elt parts := by
    intro r hr hsep hmem
    rcases hrunes r hmem with h | h
    · exact hsep h
    · exact h hr
  have hcolon : ':'.toNat ∉ chainText elt parts := hno _ (by decide) (by rintro (h | h) <;> cases h)
  have htilde : '~'.toNat ∉ chainText elt parts := hno _ (by decide) (by rintro (h | h) <;> cases h)
  have hsep : '.'.toNat ∈ chainText elt parts ∨ '!'.toNat ∈ chainText elt parts := by
    obtain ⟨part, rest, rfl⟩ := List.exists_cons_of_ne_nil hne
    have hmem : part.1 ∈ chainText elt (part :: rest) := by simp [chainText]
    rcases hparts.seps part List.mem_cons_self with h | h
    · exact .inl (h ▸ hmem)
    · exact .inr (h ▸ hmem)
  have hname : chainText elt parts ≠ runes "=~" := fun h => htilde (h ▸ by decide)
  rw [ssexpand, if_neg hname, expandSsyntax, if_neg (not_or.mpr ⟨hcolon, htilde⟩), if_pos hsep]

/-- Elements behind dots and exclamation marks: what separates them is taken from the
separator behind the element, but for the last one, and the element `nil` is lost. -/
theorem nests_iff (c : Settings F) (elt : List Nat) (parts : List (Nat × List Nat))
    (helt : Element c.flo elt) (hparts : Parts c.flo parts) (hne : parts ≠ []) :
    Nests c elt parts ↔ (∀ p ∈ parts, ∀ q ∈ parts, p.1 = q.1) ∧ elt ≠ runes "nil" ∧
      lastElt elt parts ≠ runes "nil" := by
  obtain ⟨part, rest, rfl⟩ := List.exists_cons_of_ne_nil hne
  obtain ⟨s, next⟩ := part
  have hs : IsSep s := hparts.seps _ List.mem_cons_self
  have hnext : Element c.flo next := hparts.elements _ List.mem_cons_self
  have hlastElt : Element c.flo (lastElt next rest) := lastElt_element hnext hparts.tail
  have hseps : (∀ p ∈ (s, next) :: rest, ∀ q ∈ (s, next) :: rest, p.1 = q.1) ↔ ∀ p ∈ rest, p.1 = s := by
    constructor
    · exact fun h p hp => h p (List.mem_cons_of_mem _ hp) (s, next) List.mem_cons_self
    · intro h p hp q hq
      have hall : ∀ r ∈ (s, next) :: rest, r.1 = s := List.forall_mem_cons.mpr ⟨rfl, h⟩
      rw [hall p hp, hall q hq]
  have hstart : chainFrom c.flo .nil 0 elt ((s, next) :: rest) =
      chainFrom c.flo (tokenDatum c.flo elt) s next rest := rfl
  rw [Nests, ssexpand_chain helt hparts hne, expandSexpr_chain helt hparts, hstart, hseps, lastElt]
  have hfirst : elt ≠ runes "nil" ↔ isNil (tokenDatum c.flo elt) = false := by
    rw [← Bool.not_eq_true, helt.isNil_iff]
  have hend : lastElt next rest ≠ runes "nil" ↔ isNil (tokenDatum c.flo (lastElt next rest)) = false := by
    rw [← Bool.not_eq_true, hlastElt.isNil_iff]
  rw [hfirst, hend]
  cases hnil : isNil (tokenDatum c.flo elt) with
  | true =>
    refine iff_of_false (fun h => ?_) fun h => Bool.noConfusion h.2.1
    have hx := chainFrom_innermost (fun h => by rw [hnil] at h; cases h) h
    rw [innermost_applied, innermost_tokenDatum, hnil] at hx
    cases hx
  | false =>
    rw [chainFrom_eq_iff hnil hs hparts.tail]
    tauto

/-- A reader without floating point numbers. -/
def plainSettings : Settings Unit := ⟨⟨fun _ => none, fun _ => (), ()⟩, false⟩

theorem element_letter {r : Nat} (hlow : 97 ≤ r) (hhigh : r ≤ 99) : Element plainSettings.flo [r] := by
  interval_cases r <;>
    exact ⟨⟨⟨by decide, by decide, fun u hu => by cases hu⟩, by decide⟩, by decide, rfl⟩

theorem nests_dots :
    ssexpand plainSettings (.symbol (runes "a.b.c")) =
        .ok (list [list [.symbol (runes "a"), .symbol (runes "b")] .nil, .symbol (runes "c")] .nil) ∧
      (Nests plainSettings (runes "a") [('.'.toNat, runes "b"), ('.'.toNat, runes "c")] ↔
        (∀ p ∈ [('.'.toNat, runes "b"), ('.'.toNat, runes "c")],
          ∀ q ∈ [('.'.toNat, runes "b"), ('.'.toNat, runes "c")], p.1 = q.1) ∧
        runes "a" ≠ runes "nil" ∧
        lastElt (runes "a") [('.'.toNat, runes "b"), ('.'.toNat, runes "c")] ≠ runes "nil") := by
  have hb : Element plainSettings.flo (runes "b") := element_letter (by decide) (by decide)
  have hc : Element plainSettings.flo (runes "c") := element_letter (by decide) (by decide)
  refine ⟨rfl, nests_iff plainSettings (runes "a") [('.'.toNat, runes "b"), ('.'.toNat, runes "c")]
    (element_letter (by decide) (by decide)) ⟨?_, ?_⟩ (List.cons_ne_nil _ _)⟩
  · intro part hpart
    rcases List.mem_cons.mp hpart with rfl | hpart
    · exact .inl rfl
    · exact .inl (congrArg Prod.fst (List.mem_singleton.mp hpart))
  · intro part hpart
    rcases List.mem_cons.mp hpart with rfl | hpart
    · exact hb
    · rw [List.mem_singleton.mp hpart]
      exact hc

/-- In `a.b!c` the `b` is quoted. -/
theorem not_nests_mixed :
    ¬ Nests plainSettings (runes "a") [('.'.toNat, runes "b"), ('!'.toNat, runes "c")] := by
  intro h
  have hvalue : ssexpand plainSettings (.symbol (runes "a.b!c")) =
      .ok (list [list [.symbol (runes "a"), list [.symbol (runes "quote"), .symbol (runes "b")] .nil] .nil,
        list [.symbol (runes "quote"), .symbol (runes "c")] .nil] .nil) := rfl
  have hboth := hvalue.symm.trans h
  cases Except.ok.inj hboth

end Application

end Arcueid.Ssexpand
