import Arcueid.SsexpandTotal

/-! `arc-ssexpand` of `arcstuff.arc`, which splits a name into tokens, and the expanders of
`ssyntax.c`. -/

namespace Arcueid.Ssexpand

open Reader

variable {F : Type}

section Definitions

/-- `rev` (`arc.arc`): the rest is taken before the first element. -/
def revFrom : Datum F → Datum F → Except Stop (Datum F)
  | .nil, acc => pure acc
  | .cons x xs, acc => revFrom xs (.cons x acc)
  | _, _ => throw (.error "can't take cdr of value")

def rev (xs : Datum F) : Except Stop (Datum F) := revFrom xs .nil

def consif (x : Datum F) (y : List (Datum F)) : List (Datum F) := if isNil x then y else x :: y

/-- `(coerce x 'string)` of what a token can be made of. -/
def coerceString : Datum F → Except Stop (List Nat)
  | .nil => pure []
  | .string s => pure s
  | .char r => pure [r]
  | .symbol name => pure name
  | .cons x xs => do
    let s ← coerceString x
    let t ← coerceString xs
    return s ++ t
  | _ => throw .undefined

/-- The loop of `sstokens` over the characters of the string. -/
def sstokensFrom (test : Nat → Bool) (keepsep : Bool) :
    List Nat → List (Datum F) → Datum F → Datum F → List (Datum F)
  | [], toks, tok, lastsep => consif tok (consif lastsep toks)
  | r :: cs, toks, tok, lastsep =>
    if test r then
      sstokensFrom test keepsep cs (consif tok (consif lastsep toks)) .nil
        (if keepsep then .string [r] else lastsep)
    else sstokensFrom test keepsep cs toks (.cons (.char r) tok) lastsep

/-- `sstokens`. The list of tokens is built from its end. -/
def sstokens (F : Type) (test : Nat → Bool) (keepsep : Bool) (s : List Nat) :
    Except Stop (List (List Nat)) := do
  let toks : List (Datum F) ← (sstokensFrom test keepsep s [] .nil .nil).mapM rev
  let toks ← toks.mapM coerceString
  return toks.reverse

variable (c : Settings F)

/-- The function that `expand-compose` maps over the tokens, which are not empty. -/
def composeToken : List Nat → Except Stop (Datum F)
  | [] => throw (.error "string index 0 out of range [0, -1] for string")
  | r :: rest =>
    if r = '~'.toNat then
      if rest = [] then pure (.symbol (runes "no"))
      else do return list [.symbol (runes "complement"), ← readText c rest] .nil
    else readText c (r :: rest)

/-- `(if (no (cdr elts)) (car elts) (cons head elts))`. -/
def arcFinish (head : List Nat) : List (Datum F) → Datum F
  | [] => .nil
  | [x] => x
  | elts => list (.symbol head :: elts) .nil

def arcExpandCompose (s : List Nat) : Except Stop (Datum F) := do
  let toks ← sstokens F (· = ':'.toNat) false s
  return arcFinish (runes "compose") (← toks.mapM (composeToken c))

/-- `build-sexpr` on the tokens from the last one. -/
def buildSexpr : List (List Nat) → Except Stop (Datum F)
  | [] => pure (.symbol (runes "get"))
  | [tok] => readText c tok
  | tok :: sep :: toks => do
    let f ← buildSexpr toks
    let x ←
      if sep = runes "!" then do pure (list [.symbol (runes "quote"), ← readText c tok] .nil)
      -- `err` takes one argument
      else if tok = runes "." ∨ tok = runes "!" then
        throw (.error "too many arguments, at most 1 allowed, 2 passed")
      else readText c tok
    return list [f, x] .nil

def arcExpandSexpr (s : List Nat) : Except Stop (Datum F) := do
  let toks ← sstokens F (fun r => r = '.'.toNat ∨ r = '!'.toNat) true s
  buildSexpr c toks.reverse

def arcExpandAnd (s : List Nat) : Except Stop (Datum F) := do
  let toks ← sstokens F (· = '&'.toNat) false s
  return arcFinish (runes "andf") (← toks.mapM (readText c))

/-- `arc-ssexpand` of a symbol. Nothing defines the function `error` of its last case. -/
def arcSsexpand (name : List Nat) : Except Stop (Datum F) :=
  if ':'.toNat ∈ name ∨ '~'.toNat ∈ name then arcExpandCompose c name
  else if '.'.toNat ∈ name ∨ '!'.toNat ∈ name then arcExpandSexpr c name
  else if '&'.toNat ∈ name then arcExpandAnd c name
  else throw (.error "Unbound symbol: _error")

end Definitions

/-- Tokens joined by separators of one class. In the first the tokens may be negated, in the
second each is behind its own separator. -/
inductive SsName where
  | compose (first : Bool × List Nat) (rest : List (Bool × List Nat))
  | sexpr (first : List Nat) (rest : List (Nat × List Nat))
  | andf (first : List Nat) (rest : List (List Nat))

def marked (t : Bool × List Nat) : List Nat := if t.1 then '~'.toNat :: t.2 else t.2

def SsName.text : SsName → List Nat
  | .compose first rest => chainText (marked first) (rest.map fun t => (':'.toNat, marked t))
  | .sexpr first rest => chainText first rest
  | .andf first rest => chainText first (rest.map fun t => ('&'.toNat, t))

/-- A token without special syntax that is read back as its symbol. -/
structure Plain (c : Settings F) (t : List Nat) : Prop where
  ne : t ≠ []
  plain : ∀ r ∈ t, r ∉ runes ":~&.!"
  reads : readText c t = .ok (.symbol t)

/-- At least two plain tokens. -/
def SsName.WellFormed (c : Settings F) : SsName → Prop
  | .compose first rest => rest ≠ [] ∧ Plain c first.2 ∧ ∀ t ∈ rest, Plain c t.2
  | .sexpr first rest => rest ≠ [] ∧ Plain c first ∧ ∀ t ∈ rest, IsSep t.1 ∧ Plain c t.2
  | .andf first rest => rest ≠ [] ∧ Plain c first ∧ ∀ t ∈ rest, Plain c t

def SsName.IsSexpr : SsName → Prop
  | .sexpr _ _ => True
  | _ => False

/-- Both expanders return an expansion, the same one. -/
def Agree (c : Settings F) (n : SsName) : Prop :=
  ∃ x, ssexpand c (.symbol n.text) = .ok x ∧ arcSsexpand c n.text = .ok x

section Tokens

variable {test : Nat → Bool} {cs : List Nat} {toks : List (Datum F)}

/-- The characters of a string. -/
def charList (s : List Nat) : Datum F := list (s.map .char) .nil

theorem revFrom_charList (s : List Nat) (acc : List Nat) :
    revFrom (charList s : Datum F) (charList acc) = .ok (charList (s.reverse ++ acc)) := by
  induction s generalizing acc with
  | nil => rfl
  | cons r s ih =>
    have hnext := ih (r :: acc)
    rw [List.reverse_cons, List.append_assoc, List.singleton_append]
    exact hnext

theorem rev_charList (s : List Nat) : rev (charList s : Datum F) = .ok (charList s.reverse) := by
  have hrev := revFrom_charList (F := F) s []
  rw [List.append_nil] at hrev
  exact hrev

theorem coerceString_charList (s : List Nat) : coerceString (charList s : Datum F) = .ok s := by
  induction s with
  | nil => rfl
  | cons r s ih =>
    change (do
      let t ← coerceString (charList s : Datum F)
      return [r] ++ t) = _
    rw [ih]
    rfl

theorem isNil_charList (s : List Nat) : isNil (charList s : Datum F) = decide (s = []) := by
  cases s <;> rfl

theorem consif_charList (tok : List Nat) (toks : List (Datum F)) :
    consif (charList tok.reverse) toks =
      ([tok].filter (· ≠ [])).map (fun t => charList t.reverse) ++ toks := by
  rw [consif, isNil_charList]
  by_cases h : tok = []
  · subst h
    rfl
  · have hrev : tok.reverse ≠ [] := by simpa using h
    simp [h, hrev]

/-- Without the separators, the loop collects the parts that are not empty. -/
theorem sstokensFrom_eq (test : Nat → Bool) (cs tok : List Nat) (toks : List (Datum F)) :
    sstokensFrom test false cs toks (charList tok.reverse) .nil =
      ((((cs.splitOnP test).modifyHead (tok ++ ·)).filter (· ≠ [])).map
        fun t => charList t.reverse).reverse ++ toks := by
  induction cs generalizing tok toks with
  | nil =>
    have hend : consif (charList tok.reverse) (consif .nil toks) = consif (charList tok.reverse) toks := rfl
    rw [sstokensFrom, List.splitOnP_nil, modifyHead_empty, hend, consif_charList]
    by_cases h : tok = [] <;> simp [h]
  | cons r cs ih =>
    rw [List.splitOnP_cons_eq_if_modifyHead]
    by_cases hr : test r = true
    · have hstep : sstokensFrom test false (r :: cs) toks (charList tok.reverse) .nil =
          sstokensFrom test false cs (consif (charList tok.reverse) toks) (charList [].reverse) .nil :=
        if_pos hr
      rw [hstep, ih, if_pos hr, modifyHead_nil, modifyHead_empty, consif_charList]
      by_cases h : tok = [] <;> simp [h]
    · have hstep : sstokensFrom test false (r :: cs) toks (charList tok.reverse) .nil =
          sstokensFrom test false cs toks (.cons (.char r) (charList tok.reverse)) .nil := if_neg hr
      have hcons : (.cons (.char r) (charList tok.reverse) : Datum F) = charList (tok ++ [r]).reverse := by
        rw [List.reverse_append]
        rfl
      rw [hstep, hcons, ih, if_neg hr, modifyHead_append]

theorem mapM_eq_map {α β : Type} {f : α → Except Stop β} {g : α → β} {l : List α}
    (h : ∀ x ∈ l, f x = .ok (g x)) : l.mapM f = .ok (l.map g) := by
  induction l with
  | nil => rfl
  | cons x xs ih =>
    have hx := h x List.mem_cons_self
    rw [mapM_cons_ok hx, ih fun y hy => h y (List.mem_cons_of_mem x hy)]
    rfl

/-- Without the separators, the tokens are the parts that are not empty. -/
theorem sstokens_eq (F : Type) (test : Nat → Bool) (s : List Nat) :
    sstokens F test false s = .ok ((s.splitOnP test).filter (· ≠ [])) := by
  let parts := (s.splitOnP test).filter (· ≠ [])
  have hloop := sstokensFrom_eq (F := F) test s [] []
  rw [modifyHead_nil, List.append_nil, ← List.map_reverse] at hloop
  have hrev : (parts.reverse.map fun t => (charList t.reverse : Datum F)).mapM rev =
      .ok (parts.reverse.map charList) := by
    rw [List.mapM_map]
    refine mapM_eq_map fun t ht => ?_
    rw [Function.comp_apply, rev_charList, List.reverse_reverse]
  have hcoerce : (parts.reverse.map fun t => (charList t : Datum F)).mapM coerceString =
      .ok parts.reverse := by
    rw [List.mapM_map]
    have hid := mapM_eq_map (l := parts.reverse) (f := coerceString ∘ (charList : List Nat → Datum F))
      (g := id) fun t ht => coerceString_charList t
    rw [hid, List.map_id]
  have hstart : sstokensFrom test false s [] .nil .nil =
      parts.reverse.map fun t => (charList t.reverse : Datum F) := hloop
  rw [sstokens, hstart, hrev]
  change ((parts.reverse.map fun t => (charList t : Datum F)).mapM coerceString >>= fun toks =>
    pure toks.reverse) = _
  rw [hcoerce]
  change (.ok parts.reverse.reverse : Except Stop (List (List Nat))) = _
  rw [List.reverse_reverse]

theorem mem_consif {x y : Datum F} (hx : isNil x = false) : x ∈ consif y toks ↔ x = y ∨ x ∈ toks := by
  rw [consif]
  cases hy : isNil y with
  | false => simp
  | true =>
    have hne : x ≠ y := by
      rintro rfl
      rw [hx] at hy
      cases hy
    simp [hne]

/-- With the separators, the loop collects them as strings. -/
theorem sstokensFrom_string (toks : List (Datum F)) (tok lastsep : Datum F)
    (h : (∃ x, .string x ∈ toks) ∨ (∃ x, lastsep = .string x) ∨ ∃ r ∈ cs, test r = true) :
    ∃ x, .string x ∈ sstokensFrom test true cs toks tok lastsep := by
  induction cs generalizing toks tok lastsep with
  | nil =>
    rw [sstokensFrom]
    rcases h with ⟨x, hx⟩ | ⟨x, rfl⟩ | ⟨r, hr, -⟩
    · exact ⟨x, (mem_consif rfl).mpr (.inr ((mem_consif rfl).mpr (.inr hx)))⟩
    · exact ⟨x, (mem_consif rfl).mpr (.inr ((mem_consif rfl).mpr (.inl rfl)))⟩
    · cases hr
  | cons r cs ih =>
    rw [sstokensFrom]
    by_cases hr : test r = true
    · rw [if_pos hr]
      exact ih _ _ _ (.inr (.inl ⟨[r], rfl⟩))
    · rw [if_neg hr]
      refine ih _ _ _ ?_
      rcases h with hx | hx | ⟨q, hq, htest⟩
      · exact .inl hx
      · exact .inr (.inl hx)
      · rcases List.mem_cons.mp hq with rfl | hq
        · exact absurd htest hr
        · exact .inr (.inr ⟨q, hq, htest⟩)

theorem mapM_error {α β : Type} {f : α → Except Stop β} {x : α} {l : List α} {stop : Stop}
    (hx : x ∈ l) (hf : f x = .error stop) : ∃ stop', l.mapM f = .error stop' := by
  induction l with
  | nil => cases hx
  | cons y ys ih =>
    cases hy : f y with
    | error stop' => exact ⟨stop', mapM_cons_error hy⟩
    | ok z =>
      rcases List.mem_cons.mp hx with rfl | hx
      · rw [hf] at hy
        cases hy
      · obtain ⟨stop', hrest⟩ := ih hx
        rw [mapM_cons_ok hy, hrest]
        exact ⟨stop', rfl⟩

/-- `rev` does not reverse the separators. -/
theorem sstokens_error {s : List Nat} {r : Nat} (hr : r ∈ s) (htest : test r = true) :
    ∃ stop, sstokens F test true s = .error stop := by
  obtain ⟨x, hx⟩ := sstokensFrom_string [] (.nil : Datum F) .nil
    (.inr (.inr ⟨r, hr, htest⟩))
  have hrev : rev (.string x : Datum F) = .error (.error "can't take cdr of value") := rfl
  obtain ⟨stop, hstop⟩ := mapM_error hx hrev
  refine ⟨stop, ?_⟩
  rw [sstokens, hstop]
  rfl

end Tokens

section Agreement

variable {c : Settings F} {n : SsName}

theorem chainText_split {p : Nat → Bool} {elt : List Nat} {parts : List (Nat × List Nat)}
    (helt : ∀ r ∈ elt, p r = false)
    (hparts : ∀ part ∈ parts, p part.1 = true ∧ ∀ r ∈ part.2, p r = false) :
    (chainText elt parts).splitOnP p = elt :: parts.map Prod.snd := by
  induction parts generalizing elt with
  | nil =>
    have htext : chainText elt [] = elt := by simp [chainText]
    rw [htext, List.splitOnP_eq_singleton helt]
    rfl
  | cons part parts ih =>
    obtain ⟨hsep, hnext⟩ := hparts part List.mem_cons_self
    have htext : chainText elt (part :: parts) = elt ++ part.1 :: chainText part.2 parts := by
      simp [chainText]
    have hrest := ih hnext fun q hq => hparts q (List.mem_cons_of_mem part hq)
    rw [htext, List.splitOnP_append_cons_of_forall_mem helt part.1 hsep, hrest]
    rfl

theorem mem_chainText {elt : List Nat} {parts : List (Nat × List Nat)} {r : Nat} :
    r ∈ chainText elt parts ↔ r ∈ elt ∨ ∃ part ∈ parts, r = part.1 ∨ r ∈ part.2 := by
  simp [chainText, List.mem_flatMap]

theorem Plain.not_mem {t : List Nat} (h : Plain c t) {r : Nat} (hr : r ∈ runes ":~&.!") : r ∉ t :=
  fun hmem => h.plain r hmem hr

theorem Plain.readElt {t : List Nat} (h : Plain c t) : readElt c t = .ok (.symbol t) := by
  rw [Ssexpand.readElt, if_neg h.ne, h.reads]

/-- What a token of a composition stands for. -/
def composed (t : Bool × List Nat) : Datum F := negated t.1 (.symbol t.2)

theorem not_isNil_composed (t : Bool × List Nat) : isNil (composed t : Datum F) = false := by
  rw [composed, negated]
  cases t.1 <;> rfl

theorem composeElt_marked {t : Bool × List Nat} (h : Plain c t.2) :
    composeElt c (marked t) = .ok (composed t) := by
  obtain ⟨negate, name⟩ := t
  have htilde : '~'.toNat ∉ name := h.not_mem (by decide)
  have hfilter : name.filter (· ≠ '~'.toNat) = name := by
    rw [List.filter_eq_self]
    intro r hr
    have hne : r ≠ '~'.toNat := fun heq => htilde (heq ▸ hr)
    simpa using hne
  have hdecide : decide ('~'.toNat ∈ marked (negate, name)) = negate := by
    cases negate with
    | false => exact decide_eq_false htilde
    | true => exact decide_eq_true List.mem_cons_self
  have hunmarked : (marked (negate, name)).filter (· ≠ '~'.toNat) = name := by
    cases negate with
    | false => exact hfilter
    | true => exact hfilter
  have hread : readUnmarked c (marked (negate, name)) = .ok (.symbol name) := by
    rw [readUnmarked, hunmarked]
    exact h.readElt
  rw [composeElt_ok hread, hdecide]
  rfl

theorem composeToken_marked {t : Bool × List Nat} (h : Plain c t.2) :
    composeToken c (marked t) = .ok (composed t) := by
  obtain ⟨negate, name⟩ := t
  have hread : readText c name = .ok (.symbol name) := h.reads
  have hne : name ≠ [] := h.ne
  cases negate with
  | true =>
    have hmarked : marked (true, name) = '~'.toNat :: name := rfl
    rw [hmarked, composeToken, if_pos rfl, if_neg hne, hread]
    rfl
  | false =>
    obtain ⟨r, rest, rfl⟩ := List.exists_cons_of_ne_nil hne
    have hr : r ≠ '~'.toNat := by
      rintro rfl
      exact h.not_mem (by decide) List.mem_cons_self
    have hmarked : marked (false, r :: rest) = r :: rest := rfl
    rw [hmarked, composeToken, if_neg hr, hread]
    rfl

theorem kept_eq {vals : List (Datum F)} (h : ∀ x ∈ vals, isNil x = false) : kept vals = vals := by
  rw [kept, List.filter_eq_self]
  intro x hx
  rw [h x hx]
  rfl

theorem finish_two {head : List Nat} {x y : Datum F} {rest : List (Datum F)} :
    finish head (x :: y :: rest) = .ok (arcFinish head (x :: y :: rest)) := rfl

theorem marked_ne_nil {t : Bool × List Nat} (h : Plain c t.2) : marked t ≠ [] := by
  rw [marked]
  cases t.1 with
  | false => exact h.ne
  | true => exact List.cons_ne_nil _ _

theorem marked_no_colon {t : Bool × List Nat} (h : Plain c t.2) :
    ∀ r ∈ marked t, decide (r = ':'.toNat) = false := by
  intro r hr
  rw [decide_eq_false_iff_not]
  rintro rfl
  have hcolon : ':'.toNat ∉ t.2 := h.not_mem (by decide)
  rw [marked] at hr
  cases ht : t.1 with
  | false =>
    rw [ht] at hr
    exact hcolon hr
  | true =>
    rw [ht] at hr
    rcases List.mem_cons.mp hr with hr | hr
    · exact absurd hr (by decide)
    · exact hcolon hr

/-- Compositions. -/
theorem agree_compose {first : Bool × List Nat} {rest : List (Bool × List Nat)}
    (h : (SsName.compose first rest).WellFormed c) : Agree c (.compose first rest) := by
  obtain ⟨hne, hfirst, hrest⟩ := h
  obtain ⟨second, rest, rfl⟩ := List.exists_cons_of_ne_nil hne
  let ts := first :: second :: rest
  let text := (SsName.compose first (second :: rest)).text
  have hplain : ∀ t ∈ ts, Plain c t.2 := List.forall_mem_cons.mpr ⟨hfirst, hrest⟩
  have hsplit : text.splitOnP (· = ':'.toNat) = ts.map marked := by
    have hparts : ∀ part ∈ (second :: rest).map fun t => (':'.toNat, marked t),
        decide (part.1 = ':'.toNat) = true ∧ ∀ r ∈ part.2, decide (r = ':'.toNat) = false := by
      intro part hpart
      obtain ⟨t, ht, rfl⟩ := List.mem_map.mp hpart
      exact ⟨rfl, marked_no_colon (hrest t ht)⟩
    refine (chainText_split (marked_no_colon hfirst) hparts).trans ?_
    rw [List.map_map]
    rfl
  have hcolon : ':'.toNat ∈ text := mem_chainText.mpr (.inr ⟨(':'.toNat, marked second), by simp, .inl rfl⟩)
  have hname : text ≠ runes "=~" := fun heq => absurd (heq ▸ hcolon) (by decide)
  refine ⟨arcFinish (runes "compose") (ts.map composed), ?_, ?_⟩
  · have hfrom := composeFrom_eq (c := c) [] [] text
    have hvals : (ts.map marked).mapM (composeElt c) = .ok (ts.map composed) := by
      rw [List.mapM_map]
      exact mapM_eq_map fun t ht => composeElt_marked (hplain t ht)
    have hkept : kept (ts.map (composed : Bool × List Nat → Datum F)) = ts.map composed := by
      refine kept_eq fun x hx => ?_
      obtain ⟨t, -, rfl⟩ := List.mem_map.mp hx
      exact not_isNil_composed t
    have hexpand : expandCompose c text = finish (runes "compose") (ts.map composed) := by
      refine hfrom.trans ?_
      rw [modifyHead_nil, hsplit, hvals]
      exact congrArg (finish (runes "compose")) hkept
    rw [ssexpand, if_neg hname, expandSsyntax, if_pos (.inl hcolon)]
    exact hexpand
  · have htoks : (ts.map marked).filter (· ≠ []) = ts.map marked := by
      rw [List.filter_eq_self]
      intro m hm
      obtain ⟨t, ht, rfl⟩ := List.mem_map.mp hm
      simpa using marked_ne_nil (hplain t ht)
    have hvals : (ts.map marked).mapM (composeToken c) = .ok (ts.map composed) := by
      rw [List.mapM_map]
      exact mapM_eq_map fun t ht => composeToken_marked (hplain t ht)
    have hexpand : arcExpandCompose c text = .ok (arcFinish (runes "compose") (ts.map composed)) := by
      rw [arcExpandCompose, sstokens_eq, hsplit, htoks]
      change ((ts.map marked).mapM (composeToken c) >>= fun elts =>
        pure (arcFinish (runes "compose") elts)) = _
      rw [hvals]
      rfl
    rw [arcSsexpand, if_pos (.inl hcolon)]
    exact hexpand

/-- Conjunctions. -/
theorem agree_andf {first : List Nat} {rest : List (List Nat)}
    (h : (SsName.andf first rest).WellFormed c) : Agree c (.andf first rest) := by
  obtain ⟨hne, hfirst, hrest⟩ := h
  obtain ⟨second, rest, rfl⟩ := List.exists_cons_of_ne_nil hne
  let ts := first :: second :: rest
  let text := (SsName.andf first (second :: rest)).text
  have hplain : ∀ t ∈ ts, Plain c t := List.forall_mem_cons.mpr ⟨hfirst, hrest⟩
  have hno : ∀ t ∈ ts, ∀ r ∈ t, decide (r = '&'.toNat) = false := by
    intro t ht r hr
    rw [decide_eq_false_iff_not]
    rintro rfl
    exact (hplain t ht).not_mem (by decide) hr
  have hsplit : text.splitOnP (· = '&'.toNat) = ts := by
    have hparts : ∀ part ∈ (second :: rest).map fun t => ('&'.toNat, t),
        decide (part.1 = '&'.toNat) = true ∧ ∀ r ∈ part.2, decide (r = '&'.toNat) = false := by
      intro part hpart
      obtain ⟨t, ht, rfl⟩ := List.mem_map.mp hpart
      exact ⟨rfl, hno t (List.mem_cons_of_mem _ ht)⟩
    refine (chainText_split (hno first List.mem_cons_self) hparts).trans ?_
    rw [List.map_map]
    exact congrArg (first :: ·) (List.map_id (second :: rest))
  have hand : '&'.toNat ∈ text := mem_chainText.mpr (.inr ⟨('&'.toNat, second), by simp, .inl rfl⟩)
  have hother : ∀ r, r ∈ runes ":~&.!" → r ≠ '&'.toNat → r ∉ text := by
    intro r hr hne hmem
    rcases mem_chainText.mp hmem with hmem | ⟨part, hpart, hmem⟩
    · exact hfirst.not_mem hr hmem
    · obtain ⟨t, ht, rfl⟩ := List.mem_map.mp hpart
      rcases hmem with hmem | hmem
      · exact hne hmem
      · exact (hrest t ht).not_mem hr hmem
  have hname : text ≠ runes "=~" := fun heq => absurd (heq ▸ hand) (by decide)
  have hcompose : ¬ (':'.toNat ∈ text ∨ '~'.toNat ∈ text) :=
    not_or.mpr ⟨hother _ (by decide) (by decide), hother _ (by decide) (by decide)⟩
  have hsexpr : ¬ ('.'.toNat ∈ text ∨ '!'.toNat ∈ text) :=
    not_or.mpr ⟨hother _ (by decide) (by decide), hother _ (by decide) (by decide)⟩
  refine ⟨arcFinish (runes "andf") (ts.map .symbol), ?_, ?_⟩
  · have hfrom := andFrom_eq (c := c) [] [] text
    have hvals : ts.mapM (readElt c) = .ok (ts.map .symbol) :=
      mapM_eq_map fun t ht => (hplain t ht).readElt
    have hkept : kept (ts.map (.symbol : List Nat → Datum F)) = ts.map .symbol := by
      refine kept_eq fun x hx => ?_
      obtain ⟨t, -, rfl⟩ := List.mem_map.mp hx
      rfl
    have hexpand : expandAnd c text = finish (runes "andf") (ts.map .symbol) := by
      refine hfrom.trans ?_
      rw [modifyHead_nil, hsplit, hvals]
      exact congrArg (finish (runes "andf")) hkept
    rw [ssexpand, if_neg hname, expandSsyntax, if_neg hcompose, if_neg hsexpr, if_pos hand]
    exact hexpand
  · have htoks : ts.filter (· ≠ []) = ts := by
      rw [List.filter_eq_self]
      intro t ht
      simpa using (hplain t ht).ne
    have hvals : ts.mapM (readText c) = .ok (ts.map .symbol) :=
      mapM_eq_map fun t ht => (hplain t ht).reads
    have hexpand : arcExpandAnd c text = .ok (arcFinish (runes "andf") (ts.map .symbol)) := by
      rw [arcExpandAnd, sstokens_eq, hsplit, htoks]
      change (ts.mapM (readText c) >>= fun elts => pure (arcFinish (runes "andf") elts)) = _
      rw [hvals]
      rfl
    rw [arcSsexpand, if_neg hcompose, if_neg hsexpr, if_pos hand]
    exact hexpand

/-- Applications are not expanded: `rev` fails on the separators. -/
theorem arcSsexpand_sexpr {first : List Nat} {rest : List (Nat × List Nat)}
    (h : (SsName.sexpr first rest).WellFormed c) :
    ∃ stop, arcSsexpand c (SsName.sexpr first rest).text = .error stop := by
  obtain ⟨hne, hfirst, hrest⟩ := h
  obtain ⟨part, rest, rfl⟩ := List.exists_cons_of_ne_nil hne
  let text := (SsName.sexpr first (part :: rest)).text
  have hsep : IsSep part.1 := (hrest part List.mem_cons_self).1
  have hmem : part.1 ∈ text := mem_chainText.mpr (.inr ⟨part, List.mem_cons_self, .inl rfl⟩)
  have hother : ∀ r, r ∈ runes ":~&.!" → ¬ IsSep r → r ∉ text := by
    intro r hr hno hmem
    rcases mem_chainText.mp hmem with hmem | ⟨q, hq, hmem⟩
    · exact hfirst.not_mem hr hmem
    · rcases hmem with rfl | hmem
      · exact hno (hrest q hq).1
      · exact (hrest q hq).2.not_mem hr hmem
  have hcompose : ¬ (':'.toNat ∈ text ∨ '~'.toNat ∈ text) := by
    refine not_or.mpr ⟨hother _ (by decide) ?_, hother _ (by decide) ?_⟩
    · rintro (h | h) <;> cases h
    · rintro (h | h) <;> cases h
  have hsexpr : '.'.toNat ∈ text ∨ '!'.toNat ∈ text := by
    rcases hsep with hdot | hbang
    · exact .inl (hdot ▸ hmem)
    · exact .inr (hbang ▸ hmem)
  let dotted : Nat → Bool := fun r => r = '.'.toNat ∨ r = '!'.toNat
  have hdotted : dotted part.1 = true := decide_eq_true hsep
  obtain ⟨stop, hstop⟩ := sstokens_error (F := F) hmem hdotted
  refine ⟨stop, ?_⟩
  have hexpand : arcExpandSexpr c text = .error stop := by
    rw [arcExpandSexpr, hstop]
    rfl
  rw [arcSsexpand, if_neg hcompose, if_pos hsexpr]
  exact hexpand

/-- The two expanders agree on names of plain tokens except for applications. -/
theorem agree_iff (c : Settings F) (h : n.WellFormed c) : Agree c n ↔ ¬ n.IsSexpr := by
  cases n with
  | compose first rest => exact iff_of_true (agree_compose h) id
  | sexpr first rest =>
    refine iff_of_false ?_ fun hno => hno trivial
    rintro ⟨x, -, hx⟩
    obtain ⟨stop, hstop⟩ := arcSsexpand_sexpr h
    rw [hx] at hstop
    cases hstop
  | andf first rest => exact iff_of_true (agree_andf h) id

theorem plain_letter {r : Nat} (hlow : 97 ≤ r) (hhigh : r ≤ 99) : Plain plainSettings [r] := by
  have helt := element_letter hlow hhigh
  refine ⟨List.cons_ne_nil _ _, helt.plain, helt.readText.trans ?_⟩
  interval_cases r <;> rfl

theorem agree_negated : Agree plainSettings (.compose (false, runes "a") [(true, runes "b")]) := by
  have hname : (SsName.compose (false, runes "a") [(true, runes "b")]).WellFormed plainSettings := by
    refine ⟨List.cons_ne_nil _ _, plain_letter (by decide) (by decide), fun t ht => ?_⟩
    rw [List.mem_singleton.mp ht]
    exact plain_letter (by decide) (by decide)
  exact (agree_iff plainSettings hname).mpr id

/-- Of `a.b` only the C function returns an expansion. -/
theorem not_agree_dot : ¬ Agree plainSettings (.sexpr (runes "a") [('.'.toNat, runes "b")]) := by
  rintro ⟨x, -, hx⟩
  have hvalue : arcSsexpand plainSettings (SsName.sexpr (runes "a") [('.'.toNat, runes "b")]).text =
      .error (.error "can't take cdr of value") := rfl
  rw [hvalue] at hx
  cases hx

end Agreement

end Arcueid.Ssexpand
