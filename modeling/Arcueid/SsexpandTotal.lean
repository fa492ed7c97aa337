import Arcueid.Ssexpand

/-! Which symbols `arc_ssexpand` expands without leaving what the source defines: the
expanders by the elements between their separators. -/

namespace Arcueid.Ssexpand

open Reader Bounded

variable {F : Type} (c : Settings F)

section Segments

variable {c} {elt rest : List Nat}

theorem modifyHead_append (r : Nat) (segs : List (List Nat)) :
    (segs.modifyHead (r :: ·)).modifyHead (elt ++ ·) = segs.modifyHead (elt ++ [r] ++ ·) := by
  cases segs with
  | nil => rfl
  | cons seg segs => simp

theorem modifyHead_nil (segs : List (List Nat)) : segs.modifyHead (([] : List Nat) ++ ·) = segs := by
  cases segs <;> rfl

theorem modifyHead_empty (segs : List (List Nat)) : ([] :: segs).modifyHead (elt ++ ·) = elt :: segs := by
  simp

/-- What an element adds to a list of them. -/
def kept (vals : List (Datum F)) : List (Datum F) := vals.filter fun x => !isNil x

theorem appended_eq (top : List (Datum F)) (x : Datum F) : appended top x = top ++ kept [x] := by
  rw [appended, kept]
  cases h : isNil x <;> simp [h]

theorem appended_kept (top vals : List (Datum F)) (x : Datum F) :
    appended top x ++ kept vals = top ++ kept (x :: vals) := by
  rw [appended_eq, List.append_assoc]
  congr 1
  rw [kept, kept, ← List.filter_append]
  rfl

variable {α β : Type} {read : α → Except Stop β} {t : α} {ts : List α}

theorem mapM_cons_ok {x : β} (h : read t = .ok x) : (t :: ts).mapM read = (x :: ·) <$> ts.mapM read := by
  rw [List.mapM_cons, h]
  rfl

theorem mapM_cons_error {stop : Stop} (h : read t = .error stop) : (t :: ts).mapM read = .error stop := by
  rw [List.mapM_cons, h]
  rfl

theorem mapM_single_ok {x : β} (h : read t = .ok x) : [t].mapM read = .ok [x] := by
  rw [mapM_cons_ok h, List.mapM_nil]
  rfl

/-- `expand_and` reads the elements between the separators in turn. -/
theorem andFrom_eq (top : List (Datum F)) (elt rest : List Nat) :
    andFrom c top elt rest = (((rest.splitOnP (· = '&'.toNat)).modifyHead (elt ++ ·)).mapM (readElt c) >>=
      fun vals => finish (runes "andf") (top ++ kept vals)) := by
  induction rest generalizing top elt with
  | nil =>
    rw [andFrom, List.splitOnP_nil, modifyHead_empty]
    cases hread : readElt c elt with
    | error stop =>
      rw [mapM_cons_error hread]
      rfl
    | ok x =>
      rw [mapM_single_ok hread]
      exact congrArg (finish (runes "andf")) (appended_eq top x)
  | cons r rest ih =>
    rw [andFrom, List.splitOnP_cons_eq_if_modifyHead]
    by_cases hr : r = '&'.toNat
    · rw [if_pos hr, if_pos (by simpa using hr), modifyHead_empty]
      cases hread : readElt c elt with
      | error stop =>
        rw [mapM_cons_error hread]
        rfl
      | ok x =>
        have hnext := ih (appended top x) []
        rw [modifyHead_nil] at hnext
        simp only [appended_kept] at hnext
        rw [mapM_cons_ok hread, bind_map_left]
        exact hnext
    · rw [if_neg hr, if_neg (by simpa using hr), modifyHead_append]
      exact ih top (elt ++ [r])

/-- A segment between colons without its tildes. -/
def readUnmarked (c : Settings F) (seg : List Nat) : Except Stop (Datum F) :=
  readElt c (seg.filter (· ≠ '~'.toNat))

/-- A segment between colons: whether it is negated, and its text. -/
def composeElt (c : Settings F) (seg : List Nat) : Except Stop (Datum F) :=
  negated (decide ('~'.toNat ∈ seg)) <$> readUnmarked c seg

theorem composeElt_error {seg : List Nat} {stop : Stop}
    (h : readUnmarked c seg = .error stop) : composeElt c seg = .error stop := by
  rw [composeElt, h]
  rfl

theorem composeElt_ok {seg : List Nat} {x : Datum F}
    (h : readUnmarked c seg = .ok x) :
    composeElt c seg = .ok (negated (decide ('~'.toNat ∈ seg)) x) := by
  rw [composeElt, h]
  rfl

theorem not_isNil_negated (x : Datum F) : isNil (negated true x) = false := by
  rw [negated, if_pos rfl]
  cases isNil x <;> rfl

/-- Where the last element is negated, the list need not be looked at. -/
theorem finish_negated (top : List (Datum F)) (negate : Bool) (x : Datum F) :
    (if negate && top.isEmpty then pure (negated negate x)
      else finish (runes "compose") (appended top (negated negate x))) =
      finish (runes "compose") (top ++ kept [negated negate x]) := by
  rw [← appended_eq]
  cases negate with
  | false => rfl
  | true =>
    cases top with
    | nil =>
      have happ : appended [] (negated true x) = [negated true x] := by
        rw [appended, not_isNil_negated]
        rfl
      rw [happ]
      rfl
    | cons y top => rfl

/-- `expand_compose` reads the elements between the colons in turn. -/
theorem composeFrom_eq (top : List (Datum F)) (seg rest : List Nat) :
    composeFrom c top (decide ('~'.toNat ∈ seg)) (seg.filter (· ≠ '~'.toNat)) rest =
      (((rest.splitOnP (· = ':'.toNat)).modifyHead (seg ++ ·)).mapM (composeElt c) >>=
        fun vals => finish (runes "compose") (top ++ kept vals)) := by
  induction rest generalizing top seg with
  | nil =>
    rw [composeFrom, List.splitOnP_nil, modifyHead_empty]
    cases hread : readElt c (seg.filter (· ≠ '~'.toNat)) with
    | error stop =>
      rw [mapM_cons_error (composeElt_error hread)]
      rfl
    | ok x =>
      rw [mapM_single_ok (composeElt_ok hread)]
      exact finish_negated top _ x
  | cons r rest ih =>
    rw [composeFrom, List.splitOnP_cons_eq_if_modifyHead]
    by_cases hr : r = ':'.toNat
    · rw [if_pos hr, if_pos (by simpa using hr), modifyHead_empty]
      cases hread : readElt c (seg.filter (· ≠ '~'.toNat)) with
      | error stop =>
        rw [mapM_cons_error (composeElt_error hread)]
        rfl
      | ok x =>
        have hnext := ih (appended top (negated (decide ('~'.toNat ∈ seg)) x)) []
        rw [modifyHead_nil] at hnext
        simp only [appended_kept] at hnext
        rw [mapM_cons_ok (composeElt_ok hread), bind_map_left]
        exact hnext
    · have hsep : ¬ decide (r = ':'.toNat) = true := by simpa using hr
      rw [if_neg hr, if_neg hsep, modifyHead_append]
      have hnext := ih top (seg ++ [r])
      by_cases htilde : r = '~'.toNat
      · have hmem : decide ('~'.toNat ∈ seg ++ [r]) = true := by simp [htilde]
        have hfilter : (seg ++ [r]).filter (· ≠ '~'.toNat) = seg.filter (· ≠ '~'.toNat) := by
          simp [htilde]
        rw [hmem, hfilter] at hnext
        rw [if_pos htilde]
        exact hnext
      · have hmem : decide ('~'.toNat ∈ seg ++ [r]) = decide ('~'.toNat ∈ seg) := by
          have hne : ¬ '~'.toNat = r := fun h => htilde h.symm
          simp only [List.mem_append, List.mem_singleton, hne, or_false]
        have hfilter : (seg ++ [r]).filter (· ≠ '~'.toNat) = seg.filter (· ≠ '~'.toNat) ++ [r] := by
          rw [List.filter_append, List.filter_cons_of_pos (by simpa using htilde), List.filter_nil]
        rw [hmem, hfilter] at hnext
        rw [if_neg htilde]
        exact hnext

end Segments

section Outcomes

variable {c} {α β : Type} {read : α → Except Stop β} {t : α} {ts : List α} {x : β}

/-- The first element that cannot be read leaves what the source defines. -/
def FirstUndefined (read : α → Except Stop β) (ts : List α) : Prop :=
  ∃ pre t post, ts = pre ++ t :: post ∧ (∀ u ∈ pre, ∃ x, read u = .ok x) ∧ read t = .error .undefined

theorem not_firstUndefined_nil : ¬ FirstUndefined read [] := by
  rintro ⟨pre, t, post, h, -⟩
  cases pre <;> cases h

theorem firstUndefined_of_error {stop : Stop} (h : read t = .error stop) :
    FirstUndefined read (t :: ts) ↔ stop = .undefined := by
  constructor
  · rintro ⟨pre, u, post, heq, hpre, hu⟩
    cases pre with
    | nil =>
      obtain ⟨rfl, -⟩ := List.cons.inj heq
      exact Except.error.inj (h.symm.trans hu)
    | cons v pre =>
      obtain ⟨rfl, -⟩ := List.cons.inj heq
      obtain ⟨x, hx⟩ := hpre t List.mem_cons_self
      cases h.symm.trans hx
  · rintro rfl
    exact ⟨[], t, ts, rfl, fun u hu => absurd hu List.not_mem_nil, h⟩

theorem firstUndefined_of_ok (h : read t = .ok x) :
    FirstUndefined read (t :: ts) ↔ FirstUndefined read ts := by
  constructor
  · rintro ⟨pre, u, post, heq, hpre, hu⟩
    cases pre with
    | nil =>
      obtain ⟨rfl, -⟩ := List.cons.inj heq
      cases h.symm.trans hu
    | cons v pre =>
      obtain ⟨rfl, htail⟩ := List.cons.inj heq
      exact ⟨pre, u, post, htail, fun w hw => hpre w (List.mem_cons_of_mem _ hw), hu⟩
  · rintro ⟨pre, u, post, rfl, hpre, hu⟩
    refine ⟨t :: pre, u, post, rfl, ?_, hu⟩
    intro w hw
    rcases List.mem_cons.mp hw with rfl | hw
    · exact ⟨x, h⟩
    · exact hpre w hw

theorem mapM_undefined_iff : ts.mapM read = .error .undefined ↔ FirstUndefined read ts := by
  induction ts with
  | nil => exact iff_of_false (fun h => by cases h) not_firstUndefined_nil
  | cons t ts ih =>
    cases hread : read t with
    | error stop =>
      rw [firstUndefined_of_error hread, mapM_cons_error hread, Except.error.injEq]
    | ok x =>
      rw [firstUndefined_of_ok hread, ← ih, mapM_cons_ok hread]
      cases ts.mapM read with
      | error stop =>
        constructor
        · intro h
          cases h
          rfl
        · intro h
          cases h
          rfl
      | ok xs => exact iff_of_false (fun h => by cases h) fun h => by cases h

theorem mapM_ne_fuel (h : ∀ t, read t ≠ .error .fuel) : ts.mapM read ≠ .error .fuel := by
  induction ts with
  | nil => exact fun h => by cases h
  | cons t ts ih =>
    rw [List.mapM_cons]
    exact ne_error_bind (h t) fun x _ => ne_error_bind ih fun xs _ h => by cases h

theorem mapM_of_ok (h : ∀ t ∈ ts, ∃ x, read t = .ok x) : ∃ xs, ts.mapM read = .ok xs := by
  induction ts with
  | nil => exact ⟨[], rfl⟩
  | cons t ts ih =>
    obtain ⟨x, hx⟩ := h t List.mem_cons_self
    obtain ⟨xs, hxs⟩ := ih fun u hu => h u (List.mem_cons_of_mem _ hu)
    exact ⟨x :: xs, by rw [mapM_cons_ok hx, hxs]; rfl⟩

theorem mapM_ok {xs : List β} (h : ts.mapM read = .ok xs) : List.Forall₂ (fun t x => read t = .ok x) ts xs := by
  induction ts generalizing xs with
  | nil =>
    cases h
    exact .nil
  | cons t ts ih =>
    rw [List.mapM_cons] at h
    cases hread : read t with
    | error stop =>
      rw [hread] at h
      cases h
    | ok x =>
      rw [hread] at h
      cases hrest : ts.mapM read with
      | error stop =>
        rw [hrest] at h
        cases h
      | ok xs' =>
        rw [hrest] at h
        cases h
        exact .cons hread (ih hrest)

theorem exists_read_of_mem {xs : List β} (h : List.Forall₂ (fun t x => read t = .ok x) ts xs) (hx : x ∈ xs) :
    ∃ t ∈ ts, read t = .ok x := by
  induction h with
  | nil => cases hx
  | cons hread hrest ih =>
    rcases List.mem_cons.mp hx with rfl | hx
    · exact ⟨_, List.mem_cons_self, hread⟩
    · obtain ⟨t, ht, hread'⟩ := ih hx
      exact ⟨t, List.mem_cons_of_mem _ ht, hread'⟩

end Outcomes

section Lists

variable {c} {read : List Nat → Except Stop (Datum F)} {ts : List (List Nat)} {head : List Nat}

/-- Nothing to put into the list, or an element that cannot be read as the source defines. -/
def StuckList (read : List Nat → Except Stop (Datum F)) (ts : List (List Nat)) : Prop :=
  (∀ t ∈ ts, read t = .ok .nil) ∨ FirstUndefined read ts

theorem isNil_eq_true {x : Datum F} : isNil x = true ↔ x = .nil := by
  cases x <;> simp [isNil]

theorem kept_eq_nil_iff {vals : List (Datum F)} : kept vals = [] ↔ ∀ x ∈ vals, x = .nil := by
  rw [kept, List.filter_eq_nil_iff]
  refine forall₂_congr fun x _ => ?_
  rw [Bool.not_eq_true', Bool.not_eq_false, isNil_eq_true]

theorem finish_undefined_iff {top : List (Datum F)} : finish head top = .error .undefined ↔ top = [] := by
  cases top with
  | nil => exact iff_of_true rfl rfl
  | cons x top =>
    refine iff_of_false (fun h => ?_) (List.cons_ne_nil x top)
    cases top <;> cases h

theorem finish_ne_fuel (top : List (Datum F)) : finish head top ≠ .error .fuel := by
  intro h
  cases top with
  | nil => cases h
  | cons x top => cases top <;> cases h

theorem finish_symbol {top : List (Datum F)} {m : List Nat} (h : finish head top = .ok (.symbol m)) :
    .symbol m ∈ top := by
  cases top with
  | nil => cases h
  | cons x top =>
    cases top with
    | nil =>
      cases h
      exact List.mem_cons_self
    | cons y top => cases h

theorem list_undefined_iff :
    (ts.mapM read >>= fun vals => finish head ([] ++ kept vals)) = .error .undefined ↔ StuckList read ts := by
  rw [StuckList, ← mapM_undefined_iff]
  cases hread : ts.mapM read with
  | error stop =>
    have hnot : ¬ ∀ t ∈ ts, read t = .ok .nil := by
      intro hall
      obtain ⟨xs, hxs⟩ := mapM_of_ok fun t ht => ⟨_, hall t ht⟩
      cases hread.symm.trans hxs
    refine Iff.trans ?_ (or_iff_right hnot).symm
    constructor
    · intro h
      cases h
      rfl
    · intro h
      cases h
      rfl
  | ok vals =>
    have hvals := mapM_ok hread
    have hnil : kept vals = [] ↔ ∀ t ∈ ts, read t = .ok .nil := by
      rw [kept_eq_nil_iff]
      clear hread
      induction hvals with
      | nil => simp
      | cons hx hrest ih =>
        rw [List.forall_mem_cons, List.forall_mem_cons, ih, hx, Except.ok.injEq]
    have herror : ¬ (Except.ok vals : Except Stop (List (Datum F))) = .error .undefined := fun h => by cases h
    rw [or_iff_left herror, ← hnil]
    exact finish_undefined_iff

theorem list_ne_fuel (h : ∀ t, read t ≠ .error .fuel) :
    (ts.mapM read >>= fun vals => finish head ([] ++ kept vals)) ≠ .error .fuel :=
  ne_error_bind (mapM_ne_fuel h) fun _ _ => finish_ne_fuel _

theorem list_symbol {m : List Nat}
    (h : (ts.mapM read >>= fun vals => finish head ([] ++ kept vals)) = .ok (.symbol m)) :
    ∃ t ∈ ts, read t = .ok (.symbol m) := by
  cases hread : ts.mapM read with
  | error stop =>
    rw [hread] at h
    cases h
  | ok vals =>
    rw [hread] at h
    have hmem : Datum.symbol m ∈ vals := List.mem_of_mem_filter (finish_symbol h)
    exact exists_read_of_mem (mapM_ok hread) hmem

theorem readElt_ne_fuel (c : Settings F) (t : List Nat) : readElt c t ≠ .error .fuel := by
  rw [readElt]
  split
  · exact fun h => by cases h
  · exact readText_ne_fuel c t

theorem readElt_symbol {t m : List Nat} (h : readElt c t = .ok (.symbol m)) : ∀ r ∈ m, r ∈ t := by
  rw [readElt] at h
  split at h
  · cases h
  · exact readText_symbol c h

end Lists

section Applications

variable {c} {last : Datum F} {prevchar : Nat} {elt rest : List Nat} {segs : List (List Nat)}

/-- Nothing behind the last separator, or an element that cannot be read as the source defines. -/
def StuckChain (c : Settings F) (segs : List (List Nat)) : Prop :=
  (segs.getLast? = some [] ∧ ∀ t ∈ segs, ∃ x, readElt c t = .ok x) ∨ FirstUndefined (readElt c) segs

theorem stuckChain_of_ok {x : Datum F} (h : readElt c elt = .ok x) (hne : segs ≠ []) :
    StuckChain c (elt :: segs) ↔ StuckChain c segs := by
  obtain ⟨seg, segs, rfl⟩ := List.exists_cons_of_ne_nil hne
  have hall : (∀ t ∈ elt :: seg :: segs, ∃ x, readElt c t = .ok x) ↔
      ∀ t ∈ seg :: segs, ∃ x, readElt c t = .ok x := by
    rw [List.forall_mem_cons]
    exact and_iff_right ⟨x, h⟩
  rw [StuckChain, StuckChain, firstUndefined_of_ok h, hall, List.getLast?_cons_cons]

theorem stuckChain_of_error {stop : Stop} (h : readElt c elt = .error stop) :
    StuckChain c (elt :: segs) ↔ stop = .undefined := by
  rw [StuckChain, firstUndefined_of_error h]
  refine or_iff_right ?_
  rintro ⟨-, hall⟩
  obtain ⟨x, hx⟩ := hall elt List.mem_cons_self
  cases h.symm.trans hx

theorem readElt_of_ne_nil (h : elt ≠ []) : readElt c elt = readText c elt := if_neg h

/-- What `expand_sexpr` comes to. -/
structure ChainOutcome (r : Except Stop (Datum F)) (stuck : Prop) : Prop where
  undefined_iff : r = .error .undefined ↔ stuck
  ne_fuel : r ≠ .error .fuel
  ne_symbol : ∀ m, r ≠ .ok (.symbol m)

theorem chainOutcome_error {stop : Stop} (h : readElt c elt = .error stop) {f : Datum F → Except Stop (Datum F)} :
    ChainOutcome (readElt c elt >>= f) (StuckChain c (elt :: segs)) := by
  have hbind : (readElt c elt >>= f) = .error stop := by
    rw [h]
    rfl
  rw [hbind, stuckChain_of_error h]
  refine ⟨?_, ?_, fun m h => by cases h⟩
  · rw [Except.error.injEq]
  · rintro heq
    cases heq
    exact readElt_ne_fuel c elt h

theorem sexprFrom_end : ChainOutcome (sexprFrom c last prevchar elt []) (StuckChain c [elt]) := by
  rw [sexprFrom]
  by_cases hne : elt = []
  · rw [if_pos hne, hne]
    have hread : readElt c [] = .ok .nil := rfl
    refine ⟨iff_of_true rfl (.inl ⟨rfl, ?_⟩), fun h => (by cases h), fun m h => by cases h⟩
    intro t ht
    rw [List.mem_singleton.mp ht]
    exact ⟨.nil, hread⟩
  · rw [if_neg hne, ← readElt_of_ne_nil hne]
    cases hread : readElt c elt with
    | error stop =>
      rw [← hread]
      exact chainOutcome_error hread
    | ok val =>
      have hstuck : ¬ StuckChain c [elt] := by
        rintro (⟨hlast, -⟩ | hfirst)
        · exact hne (Option.some.inj hlast)
        · exact not_firstUndefined_nil ((firstUndefined_of_ok hread).mp hfirst)
      have hval : ∀ f : Datum F → Except Stop (Datum F), ((Except.ok val : Except Stop (Datum F)) >>= f) = f val :=
        fun f => rfl
      rw [hval]
      split
      · exact ⟨iff_of_false (fun h => by cases h) hstuck, fun h => (by cases h), fun m h => by cases h⟩
      · split
        · exact ⟨iff_of_false (fun h => by cases h) hstuck, fun h => (by cases h), fun m h => by cases h⟩
        · exact ⟨iff_of_false (fun h => by cases h) hstuck, fun h => (by cases h), fun m h => by cases h⟩

theorem sexprFrom_outcome (last : Datum F) (prevchar : Nat) (elt rest : List Nat) :
    ChainOutcome (sexprFrom c last prevchar elt rest)
      (StuckChain c ((rest.splitOnP fun r => r = '.'.toNat ∨ r = '!'.toNat).modifyHead (elt ++ ·))) := by
  induction rest generalizing last prevchar elt with
  | nil =>
    rw [List.splitOnP_nil, modifyHead_empty]
    exact sexprFrom_end
  | cons r rest ih =>
    rw [sexprFrom, List.splitOnP_cons_eq_if_modifyHead]
    by_cases hr : r = '.'.toNat ∨ r = '!'.toNat
    · have hsep : decide (r = '.'.toNat ∨ r = '!'.toNat) = true := decide_eq_true hr
      rw [if_pos hr, if_pos hsep, modifyHead_empty]
      have hrest : (rest.splitOnP fun r => r = '.'.toNat ∨ r = '!'.toNat) ≠ [] := List.splitOnP_ne_nil _ _
      by_cases hne : elt = []
      · have hread : readElt c elt = .ok .nil := by
          rw [hne]
          rfl
        have hnext := ih last r []
        rw [modifyHead_nil, ← stuckChain_of_ok hread hrest] at hnext
        rw [if_pos hne]
        exact hnext
      · rw [if_neg hne, ← readElt_of_ne_nil hne]
        cases hread : readElt c elt with
        | error stop =>
          rw [← hread]
          exact chainOutcome_error hread
        | ok val =>
          have hnext := ih (if isNil last then val else list [last, quoted r val] .nil) r []
          rw [modifyHead_nil, ← stuckChain_of_ok hread hrest] at hnext
          exact hnext
    · have hsep : ¬ decide (r = '.'.toNat ∨ r = '!'.toNat) = true := by simpa using hr
      rw [if_neg hr, if_neg hsep, modifyHead_append]
      exact ih last prevchar (elt ++ [r])

end Applications

section Expansion

variable {name m : List Nat}

/-- How many expanders a name may still pass through. -/
def rank (name : List Nat) : Nat :=
  if ':'.toNat ∈ name ∨ '~'.toNat ∈ name then 3
  else if '.'.toNat ∈ name ∨ '!'.toNat ∈ name then 2
  else if '&'.toNat ∈ name then 1
  else 0

/-- An expansion or an error, and no symbol that is its own expansion. -/
def Expands (name : List Nat) : Prop :=
  (∃ msg, ssexpand c (.symbol name) = .error (.error msg)) ∨
    ∃ x, ssexpand c (.symbol name) = .ok x ∧ x ≠ .symbol name

/-- Between colons there is nothing but what reads as nil, none of it negated, or an element
that cannot be read as the source defines. -/
def StuckCompose (segs : List (List Nat)) : Prop :=
  (∀ seg ∈ segs, '~'.toNat ∉ seg ∧ readElt c seg = .ok .nil) ∨
    FirstUndefined (readUnmarked c) segs

/-- The names that are not expanded as the source defines. -/
def Stuck (name : List Nat) : Prop :=
  name ≠ runes "=~" ∧
    if ':'.toNat ∈ name ∨ '~'.toNat ∈ name then StuckCompose c (name.splitOnP (· = ':'.toNat))
    else if '.'.toNat ∈ name ∨ '!'.toNat ∈ name then
      StuckChain c (name.splitOnP fun r => r = '.'.toNat ∨ r = '!'.toNat)
    else '&'.toNat ∈ name ∧ StuckList (readElt c) (name.splitOnP (· = '&'.toNat))

theorem of_mem_splitOnP {p : Nat → Bool} {t : List Nat} (h : t ∈ name.splitOnP p) :
    ∀ r ∈ t, r ∈ name ∧ p r = false := by
  induction name generalizing t with
  | nil =>
    rw [List.splitOnP_nil, List.mem_singleton] at h
    rw [h]
    exact fun r hr => absurd hr List.not_mem_nil
  | cons x name ih =>
    have hcons : ∀ {t : List Nat}, t ∈ name.splitOnP p → ∀ r ∈ t, r ∈ x :: name ∧ p r = false := fun h r hr =>
      ⟨List.mem_cons_of_mem _ (ih h r hr).1, (ih h r hr).2⟩
    rw [List.splitOnP_cons_eq_if_modifyHead] at h
    by_cases hx : p x = true
    · rw [if_pos hx] at h
      rcases List.mem_cons.mp h with rfl | h
      · exact fun r hr => absurd hr List.not_mem_nil
      · exact hcons h
    · rw [if_neg hx] at h
      obtain ⟨seg, segs, hsegs⟩ := List.exists_cons_of_ne_nil (List.splitOnP_ne_nil p name)
      rw [hsegs, List.modifyHead_cons] at h
      rcases List.mem_cons.mp h with rfl | h
      · intro r hr
        rcases List.mem_cons.mp hr with rfl | hr
        · exact ⟨List.mem_cons_self, by simpa using hx⟩
        · exact hcons (hsegs ▸ List.mem_cons_self) r hr
      · exact hcons (hsegs ▸ List.mem_cons_of_mem _ h)

variable {c}

theorem composeElt_nil_iff {seg : List Nat} :
    composeElt c seg = .ok .nil ↔ '~'.toNat ∉ seg ∧ readElt c seg = .ok .nil := by
  by_cases hmem : '~'.toNat ∈ seg
  · refine iff_of_false (fun h => ?_) fun h => h.1 hmem
    cases hread : readUnmarked c seg with
    | error stop =>
      rw [composeElt_error hread] at h
      cases h
    | ok x =>
      rw [composeElt_ok hread, decide_eq_true hmem] at h
      have hnil := not_isNil_negated x
      rw [Except.ok.inj h] at hnil
      cases hnil
  · have hfilter : seg.filter (· ≠ '~'.toNat) = seg := by
      rw [List.filter_eq_self]
      exact fun r hr => decide_eq_true fun h => hmem (h ▸ hr)
    rw [composeElt, readUnmarked, hfilter, decide_eq_false hmem, and_iff_right hmem]
    cases readElt c seg <;> exact Iff.rfl

theorem firstUndefined_composeElt {segs : List (List Nat)} : FirstUndefined (composeElt c) segs ↔
    FirstUndefined (readUnmarked c) segs := by
  induction segs with
  | nil => exact iff_of_false not_firstUndefined_nil not_firstUndefined_nil
  | cons seg segs ih =>
    cases hread : readUnmarked c seg with
    | error stop =>
      rw [firstUndefined_of_error (composeElt_error hread)]
      exact (firstUndefined_of_error hread).symm
    | ok x =>
      rw [firstUndefined_of_ok (composeElt_ok hread), ih]
      exact (firstUndefined_of_ok hread).symm

theorem stuckList_composeElt {segs : List (List Nat)} :
    StuckList (composeElt c) segs ↔ StuckCompose c segs := by
  rw [StuckList, StuckCompose, firstUndefined_composeElt]
  exact or_congr_left (forall₂_congr fun _ _ => composeElt_nil_iff)

theorem composeElt_ne_fuel (seg : List Nat) : composeElt c seg ≠ .error .fuel := by
  intro h
  cases hread : readUnmarked c seg with
  | error stop =>
    rw [composeElt_error hread] at h
    cases h
    exact readElt_ne_fuel c _ hread
  | ok x =>
    rw [composeElt_ok hread] at h
    cases h

theorem composeElt_symbol {seg : List Nat} (h : composeElt c seg = .ok (.symbol m)) :
    m = runes "no" ∨ ∀ r ∈ m, r ∈ seg ∧ r ≠ '~'.toNat := by
  cases hread : readUnmarked c seg with
  | error stop =>
    rw [composeElt_error hread] at h
    cases h
  | ok x =>
    rw [composeElt_ok hread] at h
    have hx := Except.ok.inj h
    rw [negated] at hx
    split at hx
    · split at hx
      · cases hx
        exact .inl rfl
      · cases hx
    · right
      intro r hr
      have hmem := readElt_symbol (hx ▸ hread) r hr
      rw [List.mem_filter] at hmem
      exact ⟨hmem.1, of_decide_eq_true hmem.2⟩

theorem rank_lt_three (hcolon : ':'.toNat ∉ m) (htilde : '~'.toNat ∉ m) : rank m < 3 := by
  rw [rank, if_neg (not_or.mpr ⟨hcolon, htilde⟩)]
  split_ifs <;> omega

/-- What the expander chosen for a name comes to. -/
structure Outcome (c : Settings F) (name : List Nat) (stuck : Prop) : Prop where
  undefined_iff : ssexpand c (.symbol name) = .error .undefined ↔ stuck
  ne_fuel : ssexpand c (.symbol name) ≠ .error .fuel
  lower : ∀ m, ssexpand c (.symbol name) = .ok (.symbol m) → rank m < rank name

theorem outcome_of_nil {stuck : Prop} (h : ssexpand c (.symbol name) = .ok .nil) (hstuck : ¬ stuck) :
    Outcome c name stuck := by
  refine ⟨?_, ?_, ?_⟩
  · rw [h]
    exact iff_of_false (fun h => by cases h) hstuck
  · rw [h]
    exact fun h => by cases h
  · intro m hm
    rw [h] at hm
    cases hm

theorem compose_outcome (hne : name ≠ runes "=~") (hmark : ':'.toNat ∈ name ∨ '~'.toNat ∈ name) :
    Outcome c name (StuckCompose c (name.splitOnP (· = ':'.toNat))) := by
  have heq : ssexpand c (.symbol name) = ((name.splitOnP (· = ':'.toNat)).mapM (composeElt c) >>= fun vals =>
      finish (runes "compose") ([] ++ kept vals)) := by
    have hfrom := composeFrom_eq (c := c) [] [] name
    rw [modifyHead_nil] at hfrom
    rw [ssexpand, if_neg hne, expandSsyntax, if_pos hmark, ← hfrom]
    rfl
  refine ⟨?_, ?_, ?_⟩
  · rw [heq, list_undefined_iff, stuckList_composeElt]
  · rw [heq]
    exact list_ne_fuel composeElt_ne_fuel
  · intro m hm
    rw [heq] at hm
    obtain ⟨seg, hseg, hread⟩ := list_symbol hm
    have hrank : rank name = 3 := if_pos hmark
    rw [hrank]
    rcases composeElt_symbol hread with rfl | hrunes
    · decide
    · refine rank_lt_three (fun h => ?_) fun h => (hrunes _ h).2 rfl
      have hsep := (of_mem_splitOnP hseg _ (hrunes _ h).1).2
      exact absurd rfl (of_decide_eq_false hsep)

theorem sexpr_outcome (hne : name ≠ runes "=~") (hmark : ¬ (':'.toNat ∈ name ∨ '~'.toNat ∈ name))
    (hsep : '.'.toNat ∈ name ∨ '!'.toNat ∈ name) :
    Outcome c name (StuckChain c (name.splitOnP fun r => r = '.'.toNat ∨ r = '!'.toNat)) := by
  have heq : ssexpand c (.symbol name) = sexprFrom c .nil 0 [] name := by
    rw [ssexpand, if_neg hne, expandSsyntax, if_neg hmark, if_pos hsep, expandSexpr]
  have hfrom := sexprFrom_outcome (c := c) .nil 0 [] name
  rw [modifyHead_nil, ← heq] at hfrom
  exact ⟨hfrom.undefined_iff, hfrom.ne_fuel, fun m hm => absurd hm (hfrom.ne_symbol m)⟩

theorem and_outcome (hne : name ≠ runes "=~") (hmark : ¬ (':'.toNat ∈ name ∨ '~'.toNat ∈ name))
    (hsep : ¬ ('.'.toNat ∈ name ∨ '!'.toNat ∈ name)) (hand : '&'.toNat ∈ name) :
    Outcome c name (StuckList (readElt c) (name.splitOnP (· = '&'.toNat))) := by
  have heq : ssexpand c (.symbol name) = ((name.splitOnP (· = '&'.toNat)).mapM (readElt c) >>= fun vals =>
      finish (runes "andf") ([] ++ kept vals)) := by
    have hfrom := andFrom_eq (c := c) [] [] name
    rw [modifyHead_nil] at hfrom
    rw [ssexpand, if_neg hne, expandSsyntax, if_neg hmark, if_neg hsep, if_pos hand, ← hfrom]
    rfl
  refine ⟨?_, ?_, ?_⟩
  · rw [heq, list_undefined_iff]
  · rw [heq]
    exact list_ne_fuel (readElt_ne_fuel c)
  · intro m hm
    rw [heq] at hm
    obtain ⟨seg, hseg, hread⟩ := list_symbol hm
    have hrunes : ∀ r ∈ m, r ∈ name ∧ r ≠ '&'.toNat := by
      intro r hr
      obtain ⟨hmem, hno⟩ := of_mem_splitOnP hseg r (readElt_symbol hread r hr)
      exact ⟨hmem, of_decide_eq_false hno⟩
    have hname : rank name = 1 := by rw [rank, if_neg hmark, if_neg hsep, if_pos hand]
    have hnot : ∀ r, r ∉ name → r ∉ m := fun r hr h => hr (hrunes r h).1
    have hlow : rank m = 0 := by
      simp only [not_or] at hmark hsep
      rw [rank, if_neg (not_or.mpr ⟨hnot _ hmark.1, hnot _ hmark.2⟩),
        if_neg (not_or.mpr ⟨hnot _ hsep.1, hnot _ hsep.2⟩), if_neg fun h => (hrunes _ h).2 rfl]
    omega

theorem ssexpand_outcome (c : Settings F) (name : List Nat) : Outcome c name (Stuck c name) := by
  by_cases hne : name = runes "=~"
  · exact outcome_of_nil (if_pos hne) fun h => h.1 hne
  · rw [Stuck, and_iff_right hne]
    by_cases hmark : ':'.toNat ∈ name ∨ '~'.toNat ∈ name
    · rw [if_pos hmark]
      exact compose_outcome hne hmark
    · rw [if_neg hmark]
      by_cases hsep : '.'.toNat ∈ name ∨ '!'.toNat ∈ name
      · rw [if_pos hsep]
        exact sexpr_outcome hne hmark hsep
      · rw [if_neg hsep]
        by_cases hand : '&'.toNat ∈ name
        · rw [and_iff_right hand]
          exact and_outcome hne hmark hsep hand
        · refine outcome_of_nil ?_ fun h => hand h.1
          rw [ssexpand, if_neg hne, expandSsyntax, if_neg hmark, if_neg hsep, if_neg hand]
          rfl

end Expansion

end Arcueid.Ssexpand
