import Arcueid.Lib.ConsStore
import Arcueid.Xhash

/-! Iterations over tables: `arc_xhash_iter`, the functions that call it, and what of
`coerce` goes between tables and lists. -/

namespace Arcueid.Objects

/-- Values beside the conses of the store; the missing one is the marker `CUNBOUND`. -/
abbrev CellRef := ConsStore.Ref (Option Val)

abbrev Cells := ConsStore.Store (Option Val)

section Model

def cnil : CellRef := .atom (some .nil)

def fixRef (n : Nat) : CellRef := .atom (some (.fixnum n))

/-- `FIX2INT` of an index that is none of the negative ones. -/
def refIndex : CellRef → Option Nat
  | .atom (some (.fixnum (.ofNat n))) => some n
  | _ => none

/-- The loop of `arc_xhash_iter` over the slots from `index` on, `n` of them. -/
def iterLoop (tbl : Table Val Val) (state keyval : CellRef) (s : Cells) :
    Nat → Nat → Option (CellRef × Cells)
  | 0, _ => some (cnil, s)
  | n + 1, index =>
    match tbl.slot index with
    | .bucket e => do
      let s ← ConsStore.scdr s state (fixRef (index + 1))
      let s ← ConsStore.scar s keyval (.atom (some e.bkey))
      let s ← ConsStore.scdr s keyval (.atom e.bvalue)
      return (state, s)
    | _ => iterLoop tbl state keyval s n (index + 1)

/-- The state is nil or `((key . value) . index)`, and is changed in place. -/
def arcXhashIter (tbl : Table Val Val) (state : CellRef) (s : Cells) : Option (CellRef × Cells) := do
  let (state, s) :=
    if state = cnil then
      let (keyval, s) := ConsStore.cons s cnil cnil
      ConsStore.cons s keyval (fixRef 0)
    else (state, s)
  let keyval ← ConsStore.car s state
  let index ← refIndex (← ConsStore.cdr s state)
  iterLoop tbl state keyval s (tbl.tablesize - index) index

/-- The loop of `arc_xhash_map`. What the procedure does is told by the world that it
makes of another one, and `tableOf` says what table is there; the conses of the
iteration are out of its reach. -/
def xhashMapLoop {W : Type} (tableOf : W → Table Val Val) (proc : CellRef → CellRef → W → Option W) :
    Nat → CellRef → Cells → W → Option W
  | 0, _, _, _ => none
  | fuel + 1, state, s, w => do
    let (state, s) ← arcXhashIter (tableOf w) state s
    if state = cnil then
      return w
    let w ← proc (← ConsStore.car s (← ConsStore.car s state))
      (← ConsStore.cdr s (← ConsStore.car s state)) w
    xhashMapLoop tableOf proc fuel state s w

def arcXhashMap {W : Type} (fuel : Nat) (tableOf : W → Table Val Val)
    (proc : CellRef → CellRef → W → Option W) (s : Cells) (w : W) : Option W :=
  xhashMapLoop tableOf proc fuel cnil s w

/-- The loop of `hash_xcoerce`. -/
def xcoerceLoop (tbl : Table Val Val) : Nat → CellRef → CellRef → Cells → Option (CellRef × Cells)
  | 0, _, _, _ => none
  | fuel + 1, state, list, s => do
    let (state, s) ← arcXhashIter tbl state s
    if state = cnil then
      return (list, s)
    let (keyval, s) := ConsStore.cons s (← ConsStore.car s (← ConsStore.car s state))
      (← ConsStore.cdr s (← ConsStore.car s state))
    let (list, s) := ConsStore.cons s keyval list
    xcoerceLoop tbl fuel state list s

/-- What `coerce` is given and returns here. -/
inductive Operand where
  | table (tbl : Table Val Val)
  | ref (r : CellRef)

def hashXcoerce (fuel : Nat) (tbl : Table Val Val) (stype : ArcType) (s : Cells) :
    Option (Except String (Operand × Cells)) :=
  match stype with
  | .tTable => some (.ok (.table tbl, s))
  | .tCons => (xcoerceLoop tbl fuel cnil cnil s).map fun (list, s) => .ok (.ref list, s)
  | _ => some (.error "cannot coerce")

/-- The loop of `cons_xcoerce` for tables; the keys are no conses of the store. -/
def assocLoop (fuel : Nat) (g : Keying Val) (s : Cells) :
    Nat → CellRef → Table Val Val → Option (Except String (Table Val Val))
  | 0, _, _ => none
  | n + 1, obj, hash => do
    if obj = cnil then
      return .ok hash
    match ← ConsStore.car s obj with
    | .atom _ => return .error "cannot coerce to hash, must be assoc form"
    | cell =>
      match ← ConsStore.car s cell, ← ConsStore.cdr s cell with
      | .atom (some key), .atom val =>
        let (hash, _) ← arcXhashInsert fuel g hash key val
        assocLoop fuel g s n (← ConsStore.cdr s obj) hash
      | _, _ => none

/-- The branches of `cons_xcoerce` for conses and tables. -/
def consXcoerce (fuel : Nat) (g : Keying Val) (obj : CellRef) (stype : ArcType) (s : Cells) :
    Option (Except String (Operand × Cells)) :=
  match stype with
  | .tCons => some (.ok (.ref obj, s))
  | .tTable => (assocLoop fuel g s fuel obj (arcMkhash arcHashbits)).map fun r =>
      r.map fun hash => (.table hash, s)
  | _ => none

/-- `arc_coerce` to conses and tables, of tables, conses and nil: nil has no type
functions, and is looked at before them for strings alone. -/
def arcCoerce (fuel : Nat) (g : Keying Val) (obj : Operand) (stype : ArcType) (s : Cells) :
    Option (Except String (Operand × Cells)) :=
  match obj with
  | .table tbl => hashXcoerce fuel tbl stype s
  | .ref (.cell n) => consXcoerce fuel g (.cell n) stype s
  | .ref (.atom _) => some (.error "cannot coerce")

end Model

section Iter

variable {tbl : Table Val Val} {s s' : Cells} {c n i : Nat} {p : Val × Option Val}
  {ps : List (Val × Option Val)}

theorem cell_ne_cnil : (ConsStore.Ref.cell n : CellRef) ≠ cnil := by
  rintro ⟨⟩

/-- The bindings of the `n` slots from `i` on. -/
def bindingsFrom (tbl : Table Val Val) : Nat → Nat → List (Val × Option Val)
  | 0, _ => []
  | n + 1, i =>
    match tbl.slot i with
    | .bucket e => (e.bkey, e.bvalue) :: bindingsFrom tbl n (i + 1)
    | _ => bindingsFrom tbl n (i + 1)

theorem bindings_eq (tbl : Table Val Val) : bindings tbl = bindingsFrom tbl tbl.tablesize 0 := by
  have hfrom : ∀ n i, bindingsFrom tbl n i = (List.range' i n).filterMap fun j =>
      match tbl.slot j with
      | .bucket e => some (e.bkey, e.bvalue)
      | _ => none := by
    intro n
    induction n with
    | zero => exact fun _ => rfl
    | succ n ih =>
      intro i
      rw [List.range'_succ, List.filterMap_cons, bindingsFrom, ih]
      cases tbl.slot i <;> rfl
  refine Eq.trans ?_ (hfrom tbl.tablesize 0).symm
  exact congrArg (List.filterMap _) List.range_eq_range'

/-- The iteration whose pair is at `c` and whose state follows it has still to go
through the bindings `ps`. -/
structure Pending (tbl : Table Val Val) (s : Cells) (c : Nat) (ps : List (Val × Option Val)) : Prop where
  keyval : ∃ p, s[c]? = some p
  state : ∃ i, s[c + 1]? = some (.cell c, fixRef i) ∧
    bindingsFrom tbl (tbl.tablesize - i) i = ps

/-- The conses of the iteration apart, two stores are alike. -/
structure SameOutside (c : Nat) (s s' : Cells) : Prop where
  length : s'.length = s.length
  same : ∀ n, n ≠ c → n ≠ c + 1 → s'[n]? = s[n]?

theorem iterLoop_nil (h : bindingsFrom tbl n i = []) :
    iterLoop tbl (.cell (c + 1)) (.cell c) s n i = some (cnil, s) := by
  induction n generalizing i with
  | zero => rfl
  | succ n ih =>
    rw [bindingsFrom] at h
    rw [iterLoop]
    cases hs : tbl.slot i with
    | bucket e =>
      rw [hs] at h
      cases h
    | cunbound =>
      rw [hs] at h
      exact ih h
    | cundef =>
      rw [hs] at h
      exact ih h

/-- The loop stops at the first bucket, with its contents in the pair and the slot
behind it as the index. -/
theorem iterLoop_cons {st : CellRef × CellRef} {kv : CellRef × CellRef} (hkv : s[c]? = some kv)
    (hst : s[c + 1]? = some st) (hsize : i + n = tbl.tablesize) (h : bindingsFrom tbl n i = p :: ps) :
    ∃ j, bindingsFrom tbl (tbl.tablesize - j) j = ps ∧
      iterLoop tbl (.cell (c + 1)) (.cell c) s n i =
        some (.cell (c + 1), (s.set (c + 1) (st.1, fixRef j)).set c (.atom (some p.1), .atom p.2)) := by
  induction n generalizing i with
  | zero => cases h
  | succ n ih =>
    rw [bindingsFrom] at h
    rw [iterLoop]
    cases hs : tbl.slot i with
    | bucket e =>
      rw [hs] at h
      cases h
      refine ⟨i + 1, ?_, ?_⟩
      · rw [show tbl.tablesize - (i + 1) = n by omega]
      · have hlt := (List.getElem?_eq_some_iff.mp hkv).1
        simp [ConsStore.scdr, ConsStore.scar, hst, hlt]
    | cunbound =>
      rw [hs] at h
      exact ih (by omega) h
    | cundef =>
      rw [hs] at h
      exact ih (by omega) h

theorem arcXhashIter_cell {j : Nat} (hst : s[c + 1]? = some (.cell c, fixRef j)) :
    arcXhashIter tbl (.cell (c + 1)) s =
      iterLoop tbl (.cell (c + 1)) (.cell c) s (tbl.tablesize - j) j := by
  simp only [arcXhashIter, cell_ne_cnil, if_false, ConsStore.car, ConsStore.cdr, hst]
  rfl

theorem Pending.iter_nil (h : Pending tbl s c []) :
    arcXhashIter tbl (.cell (c + 1)) s = some (cnil, s) := by
  obtain ⟨i, hst, hps⟩ := h.state
  rw [arcXhashIter_cell hst, iterLoop_nil hps]

/-- One step of an iteration that is not over. -/
theorem Pending.iter_cons (h : Pending tbl s c (p :: ps)) :
    ∃ s', arcXhashIter tbl (.cell (c + 1)) s = some (.cell (c + 1), s') ∧ Pending tbl s' c ps ∧
      s'[c]? = some (.atom (some p.1), .atom p.2) ∧ SameOutside c s s' := by
  obtain ⟨kv, hkv⟩ := h.keyval
  obtain ⟨i, hst, hps⟩ := h.state
  have hi : i + (tbl.tablesize - i) = tbl.tablesize := by
    by_contra hne
    rw [show tbl.tablesize - i = 0 by omega] at hps
    cases hps
  obtain ⟨j, hrest, hloop⟩ := iterLoop_cons hkv hst hi hps
  have hc := (List.getElem?_eq_some_iff.mp hkv).1
  have hc' := (List.getElem?_eq_some_iff.mp hst).1
  refine ⟨_, (arcXhashIter_cell hst).trans hloop, ⟨⟨(.atom (some p.1), .atom p.2), ?_⟩, j, ?_, hrest⟩, ?_,
    ⟨by simp, fun n hn hn' => ?_⟩⟩
  · exact List.getElem?_set_self (by simpa using hc)
  · rw [List.getElem?_set_ne (by omega), List.getElem?_set_self hc']
  · exact List.getElem?_set_self (by simpa using hc)
  · rw [List.getElem?_set_ne hn.symm, List.getElem?_set_ne hn'.symm]

/-- The first step makes the two conses. -/
theorem arcXhashIter_cnil (tbl : Table Val Val) (s : Cells) :
    arcXhashIter tbl cnil s = arcXhashIter tbl (.cell (s.length + 1))
        (s ++ [(cnil, cnil), (.cell s.length, fixRef 0)]) ∧
      Pending tbl (s ++ [(cnil, cnil), (.cell s.length, fixRef 0)]) s.length (bindings tbl) := by
  have hst : (s ++ [(cnil, cnil), (.cell s.length, fixRef 0)])[s.length + 1]? =
      some (.cell s.length, fixRef 0) := by simp
  refine ⟨?_, ⟨(cnil, cnil), by simp⟩, 0, hst, ?_⟩
  · rw [arcXhashIter_cell hst]
    simp only [arcXhashIter, if_true, ConsStore.cons, List.append_assoc, List.length_append,
      List.length_singleton, List.singleton_append, ConsStore.car, ConsStore.cdr, hst]
    rfl
  · rw [bindings_eq]
    rfl

end Iter

section Callers

variable {tbl : Table Val Val} {s s' : Cells} {c : Nat} {p : Val × Option Val}
  {ps : List (Val × Option Val)} {fuel : Nat}

/-- What a caller reads from the pair. -/
theorem Pending.pair (h : Pending tbl s c ps) (hp : s[c]? = some (.atom (some p.1), .atom p.2)) :
    ConsStore.car s (.cell (c + 1)) = some (.cell c) ∧
      ConsStore.car s (.cell c) = some (.atom (some p.1)) ∧ ConsStore.cdr s (.cell c) = some (.atom p.2) := by
  obtain ⟨i, hst, -⟩ := h.state
  simp [ConsStore.car, ConsStore.cdr, hst, hp]

section Map

variable {W : Type} {tableOf : W → Table Val Val} {proc : CellRef → CellRef → W → Option W} {w : W}

/-- The procedure leaves the table as it is. -/
def KeepsTable (tableOf : W → Table Val Val) (proc : CellRef → CellRef → W → Option W) : Prop :=
  ∀ {key val w w'}, proc key val w = some w' → tableOf w' = tableOf w

/-- The procedure called with one binding after the other. -/
def callAll (proc : CellRef → CellRef → W → Option W) (ps : List (Val × Option Val)) (w : W) : Option W :=
  ps.foldlM (fun w p => proc (.atom (some p.1)) (.atom p.2) w) w

theorem xhashMapLoop_pending (hproc : KeepsTable tableOf proc) (h : Pending (tableOf w) s c ps)
    (hfuel : ps.length < fuel) :
    xhashMapLoop tableOf proc fuel (.cell (c + 1)) s w = callAll proc ps w := by
  induction ps generalizing fuel s w with
  | nil =>
    obtain ⟨n, rfl⟩ := Nat.exists_eq_add_of_lt hfuel
    rw [xhashMapLoop, h.iter_nil]
    rfl
  | cons p ps ih =>
    obtain ⟨n, rfl⟩ : ∃ n, fuel = n + 1 := ⟨fuel - 1, by simp at hfuel; omega⟩
    obtain ⟨s', hiter, hpending, hp, -⟩ := h.iter_cons
    obtain ⟨hstate, hkey, hval⟩ := hpending.pair hp
    rw [xhashMapLoop, hiter, callAll, List.foldlM_cons]
    simp only [Option.bind_eq_bind, Option.bind_some, cell_ne_cnil, if_false, hstate, hkey, hval]
    cases hcall : proc (.atom (some p.1)) (.atom p.2) w with
    | none => rfl
    | some w' =>
      rw [← hproc hcall] at hpending
      exact ih hpending (by simpa using hfuel)

theorem arcXhashMap_eq (hproc : KeepsTable tableOf proc) (hfuel : (bindings (tableOf w)).length < fuel) :
    arcXhashMap fuel tableOf proc s w = callAll proc (bindings (tableOf w)) w := by
  obtain ⟨hiter, hpending⟩ := arcXhashIter_cnil (tableOf w) s
  rw [← xhashMapLoop_pending hproc hpending hfuel, arcXhashMap]
  obtain ⟨n, rfl⟩ : ∃ n, fuel = n + 1 := ⟨fuel - 1, by omega⟩
  rw [xhashMapLoop, xhashMapLoop, hiter]

end Map

section List

def pairShape (p : Val × Option Val) : ConsStore.Shape (Option Val) :=
  .cons (.leaf (.atom (some p.1))) (.leaf (.atom p.2))

/-- An association list. -/
def assocShape (ps : List (Val × Option Val)) : ConsStore.Shape (Option Val) :=
  .list (ps.map pairShape) (.leaf cnil)

/-- The list is over conses made after those of the iteration, which therefore change
nothing in it. -/
theorem xcoerceLoop_pending {list : CellRef} {done : List (Val × Option Val)} (h : Pending tbl s c ps)
    (hlist : ConsStore.Shows (c + 1 < ·) s list (assocShape done)) (hfuel : ps.length < fuel) :
    ∃ list' s', xcoerceLoop tbl fuel (.cell (c + 1)) list s = some (list', s') ∧
      ConsStore.Shows (c + 1 < ·) s' list' (assocShape (ps.reverse ++ done)) := by
  induction ps generalizing fuel s list done with
  | nil =>
    obtain ⟨n, rfl⟩ := Nat.exists_eq_add_of_lt hfuel
    refine ⟨list, s, ?_, hlist⟩
    rw [xcoerceLoop, h.iter_nil]
    rfl
  | cons p ps ih =>
    obtain ⟨n, rfl⟩ : ∃ n, fuel = n + 1 := ⟨fuel - 1, by simp at hfuel; omega⟩
    obtain ⟨s₁, hiter, hpending, hp, hsame⟩ := h.iter_cons
    obtain ⟨hstate, hkey, hval⟩ := hpending.pair hp
    have hlist₁ : ConsStore.Shows (c + 1 < ·) s₁ list (assocShape done) := by
      refine hlist.frame fun m q hm hq => ?_
      rw [hsame.same m (by omega) (by omega), hq]
    obtain ⟨i, hst, hrest⟩ := hpending.state
    have hlen := (List.getElem?_eq_some_iff.mp hst).1
    have hpair : ConsStore.Shows (c + 1 < ·) (ConsStore.cons s₁ (.atom (some p.1)) (.atom p.2)).2
        (ConsStore.cons s₁ (.atom (some p.1)) (.atom p.2)).1 (pairShape p) :=
      ConsStore.Shows.cons rfl rfl hlen
    have hlist₂ : ConsStore.Shows (c + 1 < ·) _ _ (assocShape (p :: done)) :=
      ConsStore.Shows.cons hpair (hlist₁.extend (ConsStore.prefix_cons _ _ _))
        (show c + 1 < (ConsStore.cons s₁ (.atom (some p.1)) (.atom p.2)).2.length by
          simp [ConsStore.cons]
          omega)
    have hpre := (ConsStore.prefix_cons s₁ (.atom (some p.1)) (.atom p.2)).trans
      (ConsStore.prefix_cons _ (ConsStore.cons s₁ (.atom (some p.1)) (.atom p.2)).1 list)
    have hpending₂ : Pending tbl (ConsStore.cons (ConsStore.cons s₁ (.atom (some p.1)) (.atom p.2)).2
        (ConsStore.cons s₁ (.atom (some p.1)) (.atom p.2)).1 list).2 c ps :=
      ⟨⟨_, ConsStore.getElem?_of_prefix hpre hp⟩, i, ConsStore.getElem?_of_prefix hpre hst, hrest⟩
    obtain ⟨list', s', hloop, hshows⟩ := ih hpending₂ hlist₂ (by simpa using hfuel)
    refine ⟨list', s', ?_, ?_⟩
    · rw [xcoerceLoop, hiter]
      simp only [Option.bind_eq_bind, Option.bind_some, cell_ne_cnil, if_false, hstate, hkey, hval]
      exact hloop
    · rw [List.reverse_cons, List.append_assoc]
      exact hshows

/-- The list of the bindings, the last slot's first. -/
theorem xcoerceLoop_bindings (tbl : Table Val Val) (s : Cells) (hfuel : (bindings tbl).length < fuel) :
    ∃ list s', xcoerceLoop tbl fuel cnil cnil s = some (list, s') ∧
      ConsStore.Shows (fun _ => True) s' list (assocShape (bindings tbl).reverse) := by
  obtain ⟨hiter, hpending⟩ := arcXhashIter_cnil tbl s
  have hnil : ∀ s', ConsStore.Shows (s.length + 1 < ·) s' cnil (assocShape []) :=
    fun _ => ConsStore.shows_leaf
  obtain ⟨list, s', hloop, hshows⟩ := xcoerceLoop_pending hpending (hnil _) hfuel
  refine ⟨list, s', ?_, ?_⟩
  · rw [← hloop]
    obtain ⟨n, rfl⟩ : ∃ n, fuel = n + 1 := ⟨fuel - 1, by omega⟩
    rw [xcoerceLoop, xcoerceLoop, hiter]
  · rw [List.append_nil] at hshows
    exact hshows.region fun _ _ => trivial

/-- The inserts that make a table of an association list. -/
def insertAll (fuel : Nat) (g : Keying Val) (ps : List (Val × Option Val)) (t : Table Val Val) :
    Option (Table Val Val) :=
  ps.foldlM (fun t p => (arcXhashInsert fuel g t p.1 p.2).map Prod.fst) t

theorem assocLoop_eq {D : Nat → Prop} {g : Keying Val} {obj : CellRef} {t : Table Val Val} {n : Nat}
    (h : ConsStore.Shows D s obj (assocShape ps)) (hn : ps.length < n) :
    assocLoop fuel g s n obj t = (insertAll fuel g ps t).map .ok := by
  induction ps generalizing n obj t with
  | nil =>
    obtain ⟨m, rfl⟩ := Nat.exists_eq_add_of_lt hn
    cases h
    rfl
  | cons p ps ih =>
    obtain ⟨m, rfl⟩ : ∃ m, n = m + 1 := ⟨n - 1, by simp at hn; omega⟩
    have h : ConsStore.Shows D s obj (.cons (pairShape p) (assocShape ps)) := h
    obtain ⟨k, x, y, rfl, -, hk, hpair, hrest⟩ := h
    obtain ⟨k', _, _, rfl, -, hk', rfl, rfl⟩ := hpair
    rw [assocLoop, insertAll, List.foldlM_cons]
    simp only [cell_ne_cnil, if_false, ConsStore.car, ConsStore.cdr, hk, hk', Option.map_some,
      Option.bind_eq_bind, Option.bind_some]
    cases hins : arcXhashInsert fuel g t p.1 p.2 with
    | none => rfl
    | some q => exact ih hrest (by simpa using hn)

end List

end Callers

end Arcueid.Objects
