import Arcueid.LineNumbers
import Arcueid.TokenBoundaries

/-! What becomes of the text of a string with expressions in it. -/

namespace Arcueid.Reader

open Outcome Utf Lined

variable {F : Type}

section Standing

/-- The reader behind the last rune it took: with the next rune held back, where what
it read ends in a token that any delimiter ends. -/
inductive Standing (u : List Nat) : Port → Prop
  | clean {e t : List Nat} (h : u = e ++ t) (hend : ¬ (lex (.between false) e).Bare ∨ t = []) : Standing u (instring t)
  | pushed {e t : List Nat} {c : Nat} (h : u = e ++ c :: t) (hend : (lex (.between false) e).Bare)
      (hc : issym c = false) : Standing u (arcUngetcRune c (instring t))

/-- The readers of a port, as readers that count lines. -/
def ReadEnv.lined (e : ReadEnv F) : LineEnv F :=
  ⟨e.flo, e.atstrings.map fun f body => Located.plain <$> onPort (f body)⟩

/-- The reader of strings with expressions does not touch the port. -/
def StringsSilent (e : ReadEnv F) : Prop :=
  ∀ f, e.atstrings = some f → ∀ body p x p', f body p = .ok (x, p') → p' = p

variable {e : ReadEnv F} {eof d : Datum F} {n : Nat} {u : List Nat} {p : Port}

theorem ReadEnv.lined_erases (e : ReadEnv F) : EnvErases e.lined e := by
  refine ⟨rfl, ?_⟩
  rw [ReadEnv.lined]
  cases e.atstrings with
  | none => trivial
  | some f => exact fun body => (Erases.onPort (f body)).map Located.erase_plain

theorem ReadEnv.lined_apart (h : StringsSilent e) (src : Source) (hd : src.declared) : StringsApart src e.lined := by
  have hsame : ∀ f, e.lined.atstrings = some f → ∀ body s, (f body s).2 = s ∧
      ∀ d, (f body s).1 = .ok d → d.marks = [] := by
    intro f hf body s
    obtain ⟨g, hg, rfl⟩ := Option.map_eq_some_iff.mp hf
    have hrun : (Located.plain <$> onPort (g body)) s = match g body s.port with
        | .ok (x, p) => (.ok (Located.plain x), { s with port := p })
        | .error stop => (.error stop, s) := by
      rw [map_eq_pure_bind]
      cases hx : g body s.port with
      | ok r => exact bind_ok (by rw [onPort, hx])
      | error stop => exact bind_error (by rw [onPort, hx])
    simp only [hrun]
    cases hx : g body s.port with
    | ok r =>
      obtain ⟨x, p⟩ := r
      obtain rfl := h g hg body s.port x p hx
      refine ⟨rfl, fun d hd => ?_⟩
      cases hd
      exact marks_plain x
    | error stop => exact ⟨rfl, fun d hd => by cases hd⟩
  exact ⟨fun _ _ => hd, fun f hf body s => by rw [(hsame f hf body s).1], fun f hf body _ s => hsame f hf body s⟩

/-- Where `arc_sread` stands when it returns. -/
theorem sread_standing (h : StringsSilent e) (hread : sread e n eof (instring u) = .ok (d, p)) : Standing u p := by
  let src : Source := ⟨u, 1, True⟩
  have hfaces : Faces src (.between false) u ⟨instring u, 1⟩ := .clean ⟨[], rfl, rfl, .inr rfl⟩
  have hreads := (readersRead (ReadEnv.lined_apart h src trivial) eof n).sread false u _ hfaces
  have herases := (readersErase (ReadEnv.lined_erases e) eof n).sread ⟨instring u, 1⟩
  rw [Reads] at hreads
  cases hr : Lined.sread e.lined n eof ⟨instring u, 1⟩ with
  | mk r s =>
    rw [hr] at hreads herases
    cases r with
    | error stop =>
      have hstop : Except.error stop = (Except.ok (d, p) : Except Stop (Datum F × Port)) := herases.trans hread
      cases hstop
    | ok x =>
      have hport : Except.ok (x.erase, s.port) = (Except.ok (d, p) : Except Stop (Datum F × Port)) :=
        herases.trans hread
      cases hport
      obtain ⟨t, -, hrests, -⟩ := hreads
      cases hrests with
      | clean hpos =>
        obtain ⟨w, htext, hlex, -⟩ := hpos
        exact .clean htext (.inl (by rw [hlex]; exact id))
      | pushed hpos hbare hc =>
        obtain ⟨w, htext, hlex, -⟩ := hpos
        exact .pushed htext (by rwa [hlex]) hc
      | ended hpos =>
        obtain ⟨w, htext, -, -⟩ := hpos
        exact .clean htext (.inr rfl)

end Standing

section Interpolation

/-- The runes of a literal fragment, each at-sign doubled. -/
def escapeAts (f : List Nat) : List Nat := f.flatMap fun c => if c = '@'.toNat then [c, c] else [c]

/-- The reader takes `d` from `u` and stands in front of `t`. -/
def Takes (read : List Nat → Except Stop (Datum F × Port)) (u t : List Nat) (d : Datum F) : Prop :=
  ∃ p, read u = .ok (d, p) ∧ At p t

/-- The text is made of the literal fragments and, behind an at-sign each, of what the
reader takes for the expressions. A string among these is taken for a fragment too. -/
inductive Interpolation (read : List Nat → Except Stop (Datum F × Port)) : List Nat → List (Datum F) → Prop
  | text (f : List Nat) : Interpolation read (escapeAts f) [.string f]
  | expr {f e t : List Nat} {d : Datum F} {xs : List (Datum F)} (he : e ≠ [])
      (hat : e.head? ≠ some '@'.toNat) (hread : Takes read (e ++ t) t d) (ht : Interpolation read t xs) :
      Interpolation read (escapeAts f ++ '@'.toNat :: (e ++ t)) (.string f :: Datum.unescaped d :: xs)

/-- No text stands behind an expression that ends in a token with no end of its own. -/
inductive Separated (read : List Nat → Except Stop (Datum F × Port)) : List Nat → Prop
  | text (f : List Nat) : Separated read (escapeAts f)
  | expr {f e t : List Nat} {d : Datum F} (he : e ≠ []) (hat : e.head? ≠ some '@'.toNat)
      (hread : Takes read (e ++ t) t d) (hsep : ¬ (lex (.between false) e).Bare ∨ t = [])
      (ht : Separated read t) : Separated read (escapeAts f ++ '@'.toNat :: (e ++ t))

/-- The form that a string stands for. -/
def interpolated : List (Datum F) → Datum F
  | [.string f] => .string f
  | xs => .cons (.symbol (runes "string")) (list xs .nil)

theorem escapeAts_at (f : List Nat) :
    escapeAts ('@'.toNat :: f) = '@'.toNat :: '@'.toNat :: escapeAts f := rfl

theorem escapeAts_of_ne {c : Nat} (hc : c ≠ '@'.toNat) (f : List Nat) : escapeAts (c :: f) = c :: escapeAts f := by
  rw [escapeAts, List.flatMap_cons, if_neg hc]
  rfl

theorem atpos_of_ne {c : Nat} (hc : c ≠ '@'.toNat) (s : List Nat) : atpos (c :: s) = (atpos s).map (· + 1) := by
  rw [atpos.eq_def]
  exact if_neg hc

theorem atpos_at_at (s : List Nat) : atpos ('@'.toNat :: '@'.toNat :: s) = (atpos s).map (· + 2) := by
  rw [atpos.eq_def]
  rfl

theorem unescapeAts_of_ne {c : Nat} (hc : c ≠ '@'.toNat) (s : List Nat) :
    unescapeAts (c :: s) = c :: unescapeAts s := by
  cases s with
  | nil => rfl
  | cons d s =>
    rw [unescapeAts.eq_def]
    exact if_neg fun h => hc h.1

theorem atpos_escapeAts (f : List Nat) : atpos (escapeAts f) = none := by
  induction f with
  | nil => rfl
  | cons c f ih =>
    by_cases hc : c = '@'.toNat
    · rw [hc, escapeAts_at, atpos_at_at, ih]
      rfl
    · rw [escapeAts_of_ne hc, atpos_of_ne hc, ih]
      rfl

theorem unescapeAts_escapeAts (f : List Nat) : unescapeAts (escapeAts f) = f := by
  induction f with
  | nil => rfl
  | cons c f ih =>
    by_cases hc : c = '@'.toNat
    · have hat : unescapeAts ('@'.toNat :: '@'.toNat :: escapeAts f) = '@'.toNat :: unescapeAts (escapeAts f) := by
        rw [unescapeAts.eq_def]
        exact if_pos ⟨rfl, rfl⟩
      rw [hc, escapeAts_at, hat, ih]
    · rw [escapeAts_of_ne hc, unescapeAts_of_ne hc, ih]

theorem atpos_expr (f : List Nat) {v : List Nat} (hv : v ≠ []) (hat : v.head? ≠ some '@'.toNat) :
    atpos (escapeAts f ++ '@'.toNat :: v) = some (escapeAts f).length := by
  induction f with
  | nil =>
    cases v with
    | nil => exact absurd rfl hv
    | cons c v =>
      have hc : c ≠ '@'.toNat := by
        intro h
        exact hat (congrArg some h)
      change atpos ('@'.toNat :: c :: v) = _
      rw [atpos.eq_def]
      exact if_pos hc
  | cons c f ih =>
    by_cases hc : c = '@'.toNat
    · rw [hc, escapeAts_at, List.cons_append, List.cons_append, atpos_at_at, ih]
      rfl
    · rw [escapeAts_of_ne hc, List.cons_append, atpos_of_ne hc, ih]
      rfl

variable {read : List Nat → Except Stop (Datum F × Port)} {n : Nat} {s u t f e : List Nat} {c : Nat}
  {xs cs : List (Datum F)}

theorem codestring_text (f : List Nat) :
    codestring read (n + 1) (escapeAts f) = .ok [.string (escapeAts f)] := by
  rw [codestring, atpos_escapeAts]
  rfl

theorem codestring_expr (f : List Nat) {v : List Nat} (hv : v ≠ []) (hat : v.head? ≠ some '@'.toNat) :
    codestring read (n + 1) (escapeAts f ++ '@'.toNat :: v) = (do
      let r ← read v
      let cs ← codestring read n (r.2.data.map Int.toNat)
      pure (.string (escapeAts f) :: r.1 :: cs)) := by
  have htake : (escapeAts f ++ '@'.toNat :: v).take (escapeAts f).length = escapeAts f := List.take_left
  have hdrop : (escapeAts f ++ '@'.toNat :: v).drop ((escapeAts f).length + 1) = v := by
    rw [← List.drop_drop, List.drop_left]
    rfl
  rw [codestring, atpos_expr f hv hat]
  simp only [htake, hdrop]

theorem codestring_ok (hv : u ≠ []) (hat : u.head? ≠ some '@'.toNat)
    (h : codestring read n (escapeAts f ++ '@'.toNat :: u) = .ok cs) : ∃ m d p cs', n = m + 1 ∧
      read u = .ok (d, p) ∧ codestring read m (p.data.map Int.toNat) = .ok cs' ∧
      cs = .string (escapeAts f) :: d :: cs' := by
  cases n with
  | zero => cases h
  | succ m =>
    rw [codestring_expr f hv hat] at h
    cases hr : read u with
    | error stop =>
      rw [hr] at h
      cases h
    | ok r =>
      rw [hr] at h
      change (codestring read m (r.2.data.map Int.toNat) >>= _) = _ at h
      cases hc : codestring read m (r.2.data.map Int.toNat) with
      | error stop =>
        rw [hc] at h
        cases h
      | ok cs' =>
        rw [hc] at h
        exact ⟨m, r.1, r.2, cs', rfl, rfl, hc, (Except.ok.inj h).symm⟩

theorem head_append_ne (he : e ≠ []) (hat : e.head? ≠ some '@'.toNat) (t : List Nat) :
    e ++ t ≠ [] ∧ (e ++ t).head? ≠ some '@'.toNat := by
  cases e with
  | nil => exact absurd rfl he
  | cons c e => exact ⟨List.cons_ne_nil _ _, hat⟩

/-- A text that begins with no at-sign is a rune in front of a shorter first fragment. -/
theorem escapeAts_tail {v : List Nat} (hc : c ≠ '@'.toNat) (h : c :: t = escapeAts f ++ v)
    (hv : v.head? = none ∨ v.head? = some '@'.toNat) : ∃ g, f = c :: g ∧ t = escapeAts g ++ v := by
  cases f with
  | nil =>
    obtain rfl : c :: t = v := h
    rcases hv with hv | hv
    · cases hv
    · exact absurd (Option.some.inj hv) hc
  | cons c' g =>
    by_cases hat : c' = '@'.toNat
    · rw [hat, escapeAts_at] at h
      exact absurd (List.cons.inj h).1 hc
    · rw [escapeAts_of_ne hat] at h
      obtain ⟨rfl, ht⟩ := List.cons.inj h
      exact ⟨g, rfl, ht⟩

/-- Without its first rune the text has another first fragment. -/
theorem Interpolation.dropped (h : Interpolation read u xs) (hu : u = c :: t) (hc : c ≠ '@'.toNat)
    (hcs : codestring read n t = .ok cs) : cs.map Datum.unescaped ≠ xs := by
  intro hxs
  have hne : ∀ g : List Nat, (Datum.string g : Datum F) ≠ .string (c :: g) := by
    intro g heq
    exact absurd (congrArg List.length (Datum.string.inj heq)) (by simp)
  cases h with
  | text f =>
    have happ : c :: t = escapeAts f ++ [] := by rw [List.append_nil, hu]
    obtain ⟨g, rfl, rfl⟩ := escapeAts_tail hc happ (.inl rfl)
    cases n with
    | zero => cases hcs
    | succ n =>
      rw [List.append_nil, codestring_text] at hcs
      cases hcs
      simp only [List.map_cons, Datum.unescaped, unescapeAts_escapeAts] at hxs
      exact hne g (List.cons.inj hxs).1
  | @expr f e t' d xs he hat hread ht =>
    obtain ⟨g, rfl, rfl⟩ := escapeAts_tail hc hu.symm (.inr rfl)
    obtain ⟨hv, hat'⟩ := head_append_ne he hat t'
    obtain ⟨m, d', p, cs', -, -, -, rfl⟩ := codestring_ok hv hat' hcs
    simp only [List.map_cons, Datum.unescaped, unescapeAts_escapeAts] at hxs
    exact hne g (List.cons.inj hxs).1

theorem Interpolation.separated (hstanding : ∀ u d p, read u = .ok (d, p) → Standing u p)
    (h : Interpolation read s xs) (hcs : codestring read n s = .ok cs) (hxs : cs.map Datum.unescaped = xs) :
    Separated read s := by
  induction h generalizing n cs with
  | text f => exact .text f
  | @expr f e t d xs he hat hread ht ih =>
    obtain ⟨hv, hat'⟩ := head_append_ne he hat t
    obtain ⟨m, d', p, cs', -, hread', hcs', rfl⟩ := codestring_ok hv hat' hcs
    have hrest : cs'.map Datum.unescaped = xs := (List.cons.inj (List.cons.inj hxs).2).2
    have hport : At p t := by
      obtain ⟨p', hp', hat''⟩ := hread
      rw [hread'] at hp'
      cases hp'
      exact hat''
    cases hstanding _ _ _ hread' with
    | @clean w t' htext hend =>
      have ht' : t = t' := hport.unique (.clean t')
      subst ht'
      have hw : e = w := List.append_cancel_right htext
      rw [data_instring] at hcs'
      exact .expr he hat hread (hw ▸ hend) (ih hcs' hrest)
    | @pushed w t' c htext hend hc =>
      have ht' : t = c :: t' := hport.unique (.pushed c t')
      have hne : c ≠ '@'.toNat := by
        intro h
        rw [h] at hc
        cases hc
      have hdata : (arcUngetcRune c (instring t')).data.map Int.toNat = t' := data_instring t'
      rw [hdata] at hcs'
      exact absurd hrest (ht.dropped ht' hne hcs')

theorem Separated.interpolation (hstanding : ∀ u d p, read u = .ok (d, p) → Standing u p) (h : Separated read s)
    (hn : s.length < n) :
    ∃ cs, codestring read n s = .ok cs ∧ Interpolation read s (cs.map Datum.unescaped) := by
  induction h generalizing n with
  | text f =>
    obtain ⟨m, rfl⟩ : ∃ m, n = m + 1 := ⟨n - 1, by omega⟩
    refine ⟨_, codestring_text f, ?_⟩
    simp only [List.map_cons, List.map_nil, Datum.unescaped, unescapeAts_escapeAts]
    exact .text f
  | @expr f e t d he hat hread hsep ht ih =>
    obtain ⟨m, rfl⟩ : ∃ m, n = m + 1 := ⟨n - 1, by omega⟩
    obtain ⟨hv, hat'⟩ := head_append_ne he hat t
    obtain ⟨p, hp, hport⟩ := id hread
    have hdata : p.data.map Int.toNat = t := by
      cases hstanding _ _ _ hp with
      | @clean w t' htext hend =>
        rw [hport.unique (.clean t'), data_instring]
      | @pushed w t' c htext hend hc =>
        have ht' : t = c :: t' := hport.unique (.pushed c t')
        rw [ht'] at htext
        have hw : e = w := List.append_cancel_right htext
        rcases hsep with hsep | hsep
        · exact absurd (hw ▸ hend) hsep
        · rw [hsep] at ht'
          cases ht'
    have hlen : t.length < m := by
      simp only [List.length_append, List.length_cons] at hn
      omega
    obtain ⟨cs, hcs, hint⟩ := ih hlen
    refine ⟨.string (escapeAts f) :: d :: cs, ?_, ?_⟩
    · rw [codestring_expr f hv hat', hp]
      change (codestring read m (p.data.map Int.toNat) >>= _) = _
      rw [hdata, hcs]
      rfl
    · simp only [List.map_cons, Datum.unescaped, unescapeAts_escapeAts]
      exact .expr he hat hread hint

theorem list_nil_injective {xs ys : List (Datum F)} (h : list xs .nil = list ys .nil) : xs = ys := by
  induction xs generalizing ys with
  | nil =>
    cases ys with
    | nil => rfl
    | cons y ys => cases h
  | cons x xs ih =>
    cases ys with
    | nil => cases h
    | cons y ys =>
      have hcons : x = y ∧ list xs .nil = list ys .nil := Datum.cons.inj h
      rw [hcons.1, ih hcons.2]

theorem interpolated_cons {xs ys : List (Datum F)}
    (h : interpolated xs = .cons (.symbol (runes "string")) (list ys .nil)) : xs = ys := by
  rw [interpolated.eq_def] at h
  split at h
  · cases h
  · exact list_nil_injective (Datum.cons.inj h).2

theorem readAtstring_iff (hstanding : ∀ u d p, read u = .ok (d, p) → Standing u p) (s : List Nat) :
    (∃ xs, readAtstring read s = .ok (interpolated xs) ∧ Interpolation read s xs) ↔ Separated read s := by
  constructor
  · intro h
    obtain ⟨xs, hrun, hint⟩ := h
    cases hat : atpos s with
    | none =>
      cases hint with
      | text f => exact .text f
      | @expr f e t d xs he hhead hread ht =>
        obtain ⟨hv, hhead'⟩ := head_append_ne he hhead t
        rw [atpos_expr f hv hhead'] at hat
        cases hat
    | some i =>
      rw [readAtstring, hat, Option.isSome_some, if_pos rfl] at hrun
      cases hcs : codestring read (s.length + 1) s with
      | error stop =>
        rw [hcs] at hrun
        cases hrun
      | ok cs =>
        rw [hcs] at hrun
        have hxs : xs = cs.map Datum.unescaped := interpolated_cons (Except.ok.inj hrun).symm
        exact hint.separated hstanding hcs hxs.symm
  · intro h
    obtain ⟨cs, hcs, hint⟩ := h.interpolation hstanding (Nat.lt_succ_self _)
    refine ⟨cs.map Datum.unescaped, ?_, hint⟩
    cases h with
    | text f =>
      rw [codestring_text] at hcs
      cases hcs
      rw [readAtstring, atpos_escapeAts]
      rfl
    | @expr f e t d he hhead hread hsep ht =>
      obtain ⟨hv, hhead'⟩ := head_append_ne he hhead t
      have hsome : (atpos (escapeAts f ++ '@'.toNat :: (e ++ t))).isSome = true := by
        rw [atpos_expr f hv hhead']
        rfl
      obtain ⟨m, d', p, cs', -, -, -, rfl⟩ := codestring_ok hv hhead' hcs
      rw [readAtstring, if_pos hsome, hcs]
      rfl

end Interpolation

section Atstrings

/-- The reader of the expressions in strings of the given depth. -/
def readExpression (flo : Flonums F) (n : Nat) (rest : List Nat) : Except Stop (Datum F × Port) :=
  sread ⟨flo, some (atstringReader flo n)⟩ (readFuel rest) .nil (instring rest)

theorem atstringReader_silent (flo : Flonums F) (n : Nat) : StringsSilent ⟨flo, some (atstringReader flo n)⟩ := by
  intro f hf body p x p' hrun
  cases hf
  cases n with
  | zero => cases hrun
  | succ n => exact (yields_lift_iff.mp hrun).2.symm

/-- Nothing of a string with expressions in it is lost where each expression that ends
in a token with no end of its own ends the string. -/
theorem atstring_keeps_text_iff (flo : Flonums F) (n : Nat) (s : List Nat) (p : Port) :
    (∃ xs, atstringReader flo (n + 1) s p = .ok (interpolated xs, p) ∧
      Interpolation (readExpression flo n) s xs) ↔ Separated (readExpression flo n) s := by
  have hstanding : ∀ u d p, readExpression flo n u = .ok (d, p) → Standing u p := fun u d p h =>
    sread_standing (atstringReader_silent flo n) h
  rw [← readAtstring_iff hstanding s]
  refine exists_congr fun xs => and_congr_left fun _ => ?_
  exact (yields_lift_iff (r := readAtstring (readExpression flo n) s)).trans (and_iff_left rfl)

/-- The space behind the expression is in no fragment. -/
theorem atstring_drops_space : ¬ ∀ (n : Nat) (s : List Nat) (p : Port),
    (∃ xs, Interpolation (readExpression noFlonums.flo n) s xs) →
    ∃ xs, atstringReader noFlonums.flo (n + 1) s p = .ok (interpolated xs, p) ∧
      Interpolation (readExpression noFlonums.flo n) s xs := by
  intro hall
  have hread : readExpression noFlonums.flo 0 (runes "a b") =
      .ok (.symbol (runes "a"), arcUngetcRune ' '.toNat (instring (runes "b"))) := rfl
  have hwhole : Interpolation (readExpression noFlonums.flo 0) (runes "@a b")
      [.string [], .symbol (runes "a"), .string (runes " b")] :=
    .expr (f := []) (e := runes "a") (t := runes " b") (by decide) (by decide) ⟨_, hread, .pushed _ _⟩
      (.text (runes " b"))
  obtain ⟨xs, hrun, hint⟩ := hall 0 (runes "@a b") (instring []) ⟨_, hwhole⟩
  have hstanding : ∀ u d p, readExpression noFlonums.flo 0 u = .ok (d, p) → Standing u p := fun u d p h =>
    sread_standing (atstringReader_silent noFlonums.flo 0) h
  have hsep : Separated (readExpression noFlonums.flo 0) (runes "@a b") :=
    (readAtstring_iff hstanding _).mp ⟨xs, (yields_lift_iff.mp hrun).1, hint⟩
  have hat : atpos (runes "@a b") = some 0 := rfl
  generalize hs : runes "@a b" = s at hsep hat
  cases hsep with
  | text f =>
    rw [atpos_escapeAts] at hat
    cases hat
  | @expr f e t d he hhead htakes hsep ht =>
    obtain ⟨hv, hhead'⟩ := head_append_ne he hhead t
    rw [atpos_expr f hv hhead'] at hat
    have hnil : escapeAts f = [] := List.eq_nil_of_length_eq_zero (Option.some.inj hat)
    rw [hnil] at hs
    have htext : runes "a b" = e ++ t := (List.cons.inj hs).2
    obtain ⟨p, hp, hport⟩ := htakes
    rw [← htext, hread] at hp
    cases hp
    have ht : t = runes " b" := hport.unique (.pushed ' '.toNat (runes "b"))
    subst ht
    have hexpr : runes "a" = e := List.append_cancel_right (show runes "a" ++ runes " b" = e ++ runes " b" from htext)
    subst hexpr
    rcases hsep with hsep | hsep
    · exact hsep (.inr rfl)
    · cases hsep

end Atstrings

end Arcueid.Reader
