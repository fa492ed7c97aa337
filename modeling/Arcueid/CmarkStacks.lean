import Arcueid.Cmarks

/-! The table of marks as a stack of values for each key. -/

namespace Arcueid.Cmarks

variable {K V : Type} {kg : LawfulKeying K} {fuel : Nat} {cm cm' : Table K (List V)}

/-- A stack for each class of keys. -/
abbrev Stacks (kg : LawfulKeying K) (V : Type) := Quotient kg.setoid → List V

open Classical in
/-- A key without marks is not bound. -/
noncomputable def Stacks.map (st : Stacks kg V) : KeyMap kg (List V) :=
  fun q => if st q = [] then none else some (st q)

theorem Stacks.map_getD (st : Stacks kg V) (q : Quotient kg.setoid) : (st.map q).getD [] = st q := by
  rw [Stacks.map]
  split
  · next h => exact h.symm
  · rfl

open Classical in
theorem Stacks.map_update (st : Stacks kg V) (q : Quotient kg.setoid) (l : List V) :
    Stacks.map (Function.update st q l) =
      Function.update st.map q (if l = [] then none else some l) := by
  funext q'
  by_cases h : q' = q
  · subst h
    simp [Stacks.map]
  · simp [Stacks.map, h]

/-- The table holds the stacks. -/
def Holds (kg : LawfulKeying K) (cm : Table K (List V)) (st : Stacks kg V) : Prop :=
  Refines kg cm st.map

open Classical in
noncomputable def Stacks.push (st : Stacks kg V) (m : K × V) : Stacks kg V :=
  Function.update st (kg.key m.1) (m.2 :: st (kg.key m.1))

open Classical in
noncomputable def Stacks.pop (st : Stacks kg V) (m : K × V) : Stacks kg V :=
  Function.update st (kg.key m.1) (st (kg.key m.1)).tail

section Operations

variable {st : Stacks kg V} {key : K} {bind : Option (List V)}

theorem Holds.lookup (h : Holds kg cm st) (hl : arcHashLookup fuel kg.toKeying cm key = some bind) :
    bind = st.map (kg.key key) := by
  rw [arcHashLookup, hashLookup_eq_map] at hl
  cases hp : probeFor fuel kg.toKeying cm key with
  | none =>
    rw [hp] at hl
    cases hl
  | some p =>
    obtain ⟨r, e⟩ := p
    rw [hp] at hl
    obtain rfl := Option.some.inj hl
    exact Refines.probe_value h hp

theorem Holds.scmark {m : K × V} (h : Holds kg cm st)
    (hs : arcScmark fuel kg.toKeying cm m.1 m.2 = some cm') : Holds kg cm' (st.push m) := by
  obtain ⟨bind, hl, hs⟩ := Option.bind_eq_some_iff.mp hs
  obtain ⟨⟨cm₁, v⟩, hins, hs⟩ := Option.bind_eq_some_iff.mp hs
  obtain rfl := Option.some.inj hs
  rw [h.lookup hl, Stacks.map_getD] at hins
  have hnew := (Refines.insert h (Option.some_ne_none _) hins).1
  rw [Holds, Stacks.push, Stacks.map_update, if_neg (List.cons_ne_nil _ _)]
  exact hnew

open Classical in
theorem Holds.ccmark {m : K × V} (h : Holds kg cm st)
    (hc : arcCcmark fuel kg.toKeying cm m.1 = some cm') : Holds kg cm' (st.pop m) := by
  obtain ⟨bind, hl, hc⟩ := Option.bind_eq_some_iff.mp hc
  have hbind := h.lookup hl
  rw [Holds, Stacks.pop, Stacks.map_update]
  cases bind with
  | none =>
    obtain rfl := Option.some.inj hc
    have hnil : st (kg.key m.1) = [] := by rw [← st.map_getD, ← hbind, Option.getD_none]
    rw [hnil, List.tail_nil, if_pos rfl, Function.update_eq_self_iff.mpr hbind]
    exact h
  | some l =>
    have hst : st (kg.key m.1) = l := by rw [← st.map_getD, ← hbind, Option.getD_some]
    rw [hst]
    dsimp only at hc
    by_cases htail : l.tail = []
    · rw [if_pos htail] at hc ⊢
      obtain ⟨⟨cm₁, v⟩, hdel, rfl⟩ := Option.map_eq_some_iff.mp hc
      exact (Refines.delete h hdel).1
    · rw [if_neg htail] at hc ⊢
      obtain ⟨⟨cm₁, v⟩, hins, rfl⟩ := Option.map_eq_some_iff.mp hc
      exact (Refines.insert h (Option.some_ne_none _) hins).1

theorem Holds.scmarks {marks : MarkList K V} (h : Holds kg cm st)
    (hs : scmarks fuel kg.toKeying cm marks = some cm') :
    Holds kg cm' (marks.foldl Stacks.push st) := by
  induction marks generalizing cm st with
  | nil =>
    obtain rfl := Option.some.inj hs
    exact h
  | cons m marks ih =>
    obtain ⟨cm₁, hm, hs⟩ := Option.bind_eq_some_iff.mp hs
    exact ih (h.scmark hm) hs

theorem Holds.ccmarks {marks : MarkList K V} (h : Holds kg cm st)
    (hc : ccmarks fuel kg.toKeying cm marks = some cm') :
    Holds kg cm' (marks.foldl Stacks.pop st) := by
  induction marks generalizing cm st with
  | nil =>
    obtain rfl := Option.some.inj hc
    exact h
  | cons m marks ih =>
    obtain ⟨cm₁, hm, hc⟩ := Option.bind_eq_some_iff.mp hc
    exact ih (h.ccmark hm) hc

end Operations

open Classical in
/-- The stacks of the marks that are in force. -/
noncomputable def stacksOf (kg : LawfulKeying K) (env : MarkList K V) : Stacks kg V :=
  fun q => (env.filter fun m => kg.key m.1 = q).map Prod.snd

theorem stacksOf_key (kg : LawfulKeying K) (env : MarkList K V) (key : K) :
    stacksOf kg env (kg.key key) = marksFor kg.toKeying env key := by
  rw [stacksOf, marksFor]
  congr 1
  apply List.filter_congr
  intro m hm
  simp only [LawfulKeying.key_eq_iff, Bool.decide_eq_true]

theorem push_stacksOf (m : K × V) (env : MarkList K V) :
    (stacksOf kg env).push m = stacksOf kg (m :: env) := by
  funext q
  by_cases h : q = kg.key m.1
  · subst h
    simp [Stacks.push, stacksOf]
  · simp [Stacks.push, stacksOf, h, Ne.symm h]

theorem pushes_stacksOf (marks env : MarkList K V) :
    marks.foldl Stacks.push (stacksOf kg env) = stacksOf kg (marks.reverse ++ env) := by
  induction marks generalizing env with
  | nil => rfl
  | cons m marks ih =>
    rw [List.foldl_cons, push_stacksOf, ih, List.reverse_cons, List.append_assoc]
    rfl

open Classical in
/-- Each key is popped as often as it occurs. -/
theorem pops_apply (marks : MarkList K V) (st : Stacks kg V) (q : Quotient kg.setoid) :
    marks.foldl Stacks.pop st q = (st q).drop (marks.filter fun m => kg.key m.1 = q).length := by
  induction marks generalizing st with
  | nil => rfl
  | cons m marks ih =>
    rw [List.foldl_cons, ih, List.filter_cons]
    by_cases h : q = kg.key m.1
    · subst h
      simp [Stacks.pop]
    · simp [Stacks.pop, h, Ne.symm h]

theorem pops_stacksOf (marks env : MarkList K V) :
    marks.foldl Stacks.pop (stacksOf kg (marks.reverse ++ env)) = stacksOf kg env := by
  funext q
  rw [pops_apply]
  simp only [stacksOf, List.filter_append, List.filter_reverse, List.map_append]
  exact List.drop_left' (by simp)

end Arcueid.Cmarks
