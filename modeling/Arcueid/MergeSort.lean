import Arcueid.Lib.ConsList
import Arcueid.Lib.StableSort

/-! `sort` of `arc.arc`: a merge sort that moves the conses of a copy of the list. -/

namespace Arcueid.MergeSort

open ConsStore (Store cons scar scdr)
open ConsList

variable {A : Type} [DecidableEq A]

section Model

/-- The atom that ends lists, and the test. -/
structure Setting (A : Type) where
  nil : A
  less : ConsStore.Ref A → ConsStore.Ref A → Bool

variable (c : Setting A)

/-- A list without a cycle has no more elements than there are conses. -/
def lenFrom (s : Store A) : Nat → ConsStore.Ref A → Option Nat
  | 0, lst => if lst = .atom c.nil then some 0 else none
  | fuel + 1, lst =>
    if lst = .atom c.nil then some 0 else do return (← lenFrom s fuel (← cdr c.nil s lst)) + 1

def len (s : Store A) (lst : ConsStore.Ref A) : Option Nat := lenFrom c s s.length lst

/-- The local function of `merge`. -/
def lup : Nat → Store A → ConsStore.Ref A → ConsStore.Ref A → ConsStore.Ref A → Bool → Option (Store A)
  | 0, _, _, _, _, _ => none
  | fuel + 1, s, r, x, y, rx => do
    if c.less (← car c.nil s y) (← car c.nil s x) then
      let s ← if rx then scdr s r y else some s
      let d ← cdr c.nil s y
      if d ≠ .atom c.nil then lup fuel s y x d false else scdr s y x
    else
      let s ← if rx then some s else scdr s r x
      let d ← cdr c.nil s x
      if d ≠ .atom c.nil then lup fuel s x d y true else scdr s x y

def merge (s : Store A) (x y : ConsStore.Ref A) : Option (ConsStore.Ref A × Store A) :=
  if x = .atom c.nil then some (y, s)
  else if y = .atom c.nil then some (x, s)
  else do
    if c.less (← car c.nil s y) (← car c.nil s x) then
      let d ← cdr c.nil s y
      (if d ≠ .atom c.nil then lup c s.length s y x d false else scdr s y x).map fun s => (y, s)
    else
      let d ← cdr c.nil s x
      (if d ≠ .atom c.nil then lup c s.length s x d y true else scdr s x y).map fun s => (x, s)

/-- The elements of two conses change places. -/
def swapFirst (s : Store A) (p x y : ConsStore.Ref A) : Option (Store A) := do
  let s ← scar s p y
  scar s (← cdr c.nil s p) x

/-- The function of `mergesort` that sorts the first `n` elements of `lst` and moves
`lst` behind them. -/
def sortFirst (n : Nat) (s : Store A) (lst : ConsStore.Ref A) : Option (ConsStore.Ref A × ConsStore.Ref A × Store A) :=
  if 2 < n then do
    let j := (if n % 2 = 0 then n else n - 1) / 2
    let (a, lst, s) ← sortFirst j s lst
    let (b, lst, s) ← sortFirst (n - j) s lst
    let (r, s) ← merge c s a b
    return (r, lst, s)
  else if n = 2 then do
    let x ← car c.nil s lst
    let y ← car c.nil s (← cdr c.nil s lst)
    let p := lst
    let lst ← cdr c.nil s (← cdr c.nil s lst)
    let s ← if c.less y x then swapFirst c s p x y else some s
    return (p, lst, ← scdr s (← cdr c.nil s p) (.atom c.nil))
  else if n = 1 then do
    let p := lst
    let lst ← cdr c.nil s lst
    return (p, lst, ← scdr s p (.atom c.nil))
  else some (.atom c.nil, lst, s)
termination_by n
decreasing_by all_goals simp_wf; split_ifs <;> omega

def mergesort (s : Store A) (lst : ConsStore.Ref A) : Option (ConsStore.Ref A × Store A) := do
  let n ← len c s lst
  if n ≤ 1 then return (lst, s)
  let (r, _, s) ← sortFirst c n s lst
  return (r, s)

def copylist : Nat → Store A → ConsStore.Ref A → Option (ConsStore.Ref A × Store A)
  | 0, s, xs => if xs = .atom c.nil then some (xs, s) else none
  | fuel + 1, s, xs =>
    if xs = .atom c.nil then some (xs, s)
    else do
      let x ← car c.nil s xs
      let (d, s) ← copylist fuel s (← cdr c.nil s xs)
      return cons s x d

/-- `sort` of a list. -/
def sort (s : Store A) (seq : ConsStore.Ref A) : Option (ConsStore.Ref A × Store A) := do
  let (lst, s) ← copylist c s.length s seq
  mergesort c s lst

end Model

section Lists

variable (c : Setting A)

/-- An element stays in front of one that is not less. -/
def precedes (p q : Nat × ConsStore.Ref A) : Bool := !c.less q.2 p.2

variable {c} {s s' : Store A} {r v x d : ConsStore.Ref A} {n : Nat} {l l' : List (Nat × ConsStore.Ref A)}

theorem lenFrom_eq (h : ListAt c.nil s r l) {fuel : Nat} (hfuel : l.length ≤ fuel) :
    lenFrom c s fuel r = some l.length := by
  induction l generalizing r fuel with
  | nil =>
    cases fuel <;> exact if_pos h
  | cons p l ih =>
    obtain ⟨rfl, d, hn, hd⟩ := h
    obtain ⟨fuel, rfl⟩ : ∃ f, fuel = f + 1 := ⟨fuel - 1, by simp at hfuel; omega⟩
    rw [lenFrom, if_neg (fun heq => by cases heq), cdr_cell hn]
    simp only [Option.bind_eq_bind, Option.bind_some, ih hd (by simpa using hfuel)]
    rfl

end Lists

section Merge

variable {c : Setting A} {s : Store A} {r x y v d : ConsStore.Ref A} {n : Nat} {xs ys : List (Nat × ConsStore.Ref A)}
  {fuel : Nat}

/-- What `lup` leaves: behind the cons `r` the two lists are merged, and all other
conses are as before. -/
structure Merged (c : Setting A) (s s' : Store A) (n : Nat) (v : ConsStore.Ref A) (cells : List Nat)
    (zs : List (Nat × ConsStore.Ref A)) : Prop where
  length : s'.length = s.length
  tail : ∃ d, s'[n]? = some (v, d) ∧ ListAt c.nil s' d zs
  frame : ∀ m, m ≠ n → m ∉ cells → s'[m]? = s[m]?

omit [DecidableEq A] in
/-- A cons in front of a merged list. -/
theorem Merged.link {s₁ s' : Store A} {k : Nat} {w : ConsStore.Ref A} {cells cells' : List Nat}
    {zs : List (Nat × ConsStore.Ref A)} (h : Merged c s₁ s' k w cells zs) (hn : s₁[n]? = some (v, .cell k))
    (hlength : s₁.length = s.length) (hframe : ∀ m, m ≠ n → s₁[m]? = s[m]?) (hnk : n ≠ k)
    (hncells : n ∉ cells) (hsub : ∀ m, m = k ∨ m ∈ cells → m ∈ cells') :
    Merged c s s' n v cells' ((k, w) :: zs) := by
  refine ⟨h.length.trans hlength, ⟨.cell k, ?_, rfl, h.tail⟩, fun m hm hcells => ?_⟩
  · rw [h.frame n hnk hncells, hn]
  · have hmk : m ≠ k := fun heq => hcells (hsub m (.inl heq))
    rw [h.frame m hmk fun hmem => hcells (hsub m (.inr hmem)), hframe m hm]

/-- A cons is taken from the list `ls`: the rest of it is merged with the other list,
or the cons is linked to the other list. -/
theorem merged_next {k : Nat} {w o : ConsStore.Ref A} {ls os zs : List (Nat × ConsStore.Ref A)} {cells : List Nat}
    {rest : Option (Store A)} (hk : s[k]? = some (w, d)) (hd : ListAt c.nil s d ls) (ho : ListAt c.nil s o os)
    (hko : k ∉ os.map Prod.fst) (hnil : ls = [] → zs = os)
    (hrest : ls ≠ [] → ∃ s', rest = some s' ∧ Merged c s s' k w cells zs) :
    ∃ s', (if d ≠ .atom c.nil then rest else scdr s (.cell k) o) = some s' ∧
      Merged c s s' k w cells zs := by
  by_cases hls : ls = []
  · rw [if_neg (not_not.mpr (hd.eq_nil_iff.mpr hls)), hnil hls]
    obtain ⟨s', hrun, hlength, hnew, hframe⟩ := relink hk o
    refine ⟨s', hrun, hlength, ⟨o, hnew, ho.frame fun m hm => hframe m ?_⟩, fun m hm _ => hframe m hm⟩
    rintro rfl
    exact hko hm
  · rw [if_pos fun heq => hls (hd.eq_nil_iff.mp heq)]
    exact hrest hls

/-- The cons `n` is linked to the next one, `k`, and what follows that is merged. -/
theorem merged_step {k : Nat} {w o : ConsStore.Ref A} {ls os zs : List (Nat × ConsStore.Ref A)} {cells cells' : List Nat}
    (link : Option (Store A)) (rest : Store A → ConsStore.Ref A → Option (Store A)) (hk : s[k]? = some (w, d))
    (hd : ListAt c.nil s d ls) (ho : ListAt c.nil s o os)
    (hlink : s[n]? = some (v, .cell k) ∧ link = some s ∨
      s[n]? = some (v, x) ∧ link = scdr s (.cell n) (.cell k))
    (hls : ls.map Prod.fst ⊆ cells) (hos : os.map Prod.fst ⊆ cells) (hcells : cells'.Perm (k :: cells))
    (hn : n ∉ cells') (hnodup : cells'.Nodup) (hnil : ls = [] → zs = os)
    (hrest : ∀ s₁, s₁[k]? = some (w, d) → ListAt c.nil s₁ d ls → ListAt c.nil s₁ o os → ls ≠ [] →
      ∃ s', rest s₁ d = some s' ∧ Merged c s₁ s' k w cells zs) :
    ∃ s', (link.bind fun s => (cdr c.nil s (.cell k)).bind fun d =>
        if d ≠ .atom c.nil then rest s d else scdr s (.cell k) o) = some s' ∧
      Merged c s s' n v cells' ((k, w) :: zs) := by
  have hn' : n ∉ k :: cells := fun hmem => hn (hcells.mem_iff.mpr hmem)
  have hnk : n ≠ k := List.ne_of_not_mem_cons hn'
  have hncells : n ∉ cells := List.not_mem_of_not_mem_cons hn'
  have hkcells : k ∉ cells := (List.nodup_cons.mp (hcells.nodup_iff.mp hnodup)).1
  obtain ⟨s₁, hrun₁, hlength₁, hn₁, hframe₁⟩ : ∃ s₁, link = some s₁ ∧
      s₁.length = s.length ∧ s₁[n]? = some (v, .cell k) ∧ ∀ m, m ≠ n → s₁[m]? = s[m]? := by
    rcases hlink with ⟨hsn, hl⟩ | ⟨hsn, hl⟩
    · exact ⟨s, hl, rfl, hsn, fun m _ => rfl⟩
    · rw [hl]
      exact relink hsn _
  have hkeep : ∀ m ∈ cells, s₁[m]? = s[m]? := by
    intro m hm
    refine hframe₁ m ?_
    rintro rfl
    exact hncells hm
  have hk₁ : s₁[k]? = some (w, d) := (hframe₁ k (Ne.symm hnk)).trans hk
  have hd₁ : ListAt c.nil s₁ d ls := hd.frame fun m hm => hkeep m (hls hm)
  have ho₁ : ListAt c.nil s₁ o os := ho.frame fun m hm => hkeep m (hos hm)
  obtain ⟨s', hrun, hmerged⟩ := merged_next hk₁ hd₁ ho₁ (fun hm => hkcells (hos hm)) hnil
    (hrest s₁ hk₁ hd₁ ho₁)
  refine ⟨s', ?_, hmerged.link hn₁ hlength₁ hframe₁ hnk hncells fun m hm => ?_⟩
  · rw [hrun₁, Option.bind_some, cdr_cell hk₁, Option.bind_some]
    exact hrun
  · exact hcells.mem_iff.mpr (List.mem_cons.mpr hm)

/-- The cons `n` in front of the merged lists is linked to the list it is not from. -/
theorem lup_spec (hfuel : xs.length + ys.length ≤ fuel) (hx : ListAt c.nil s x xs) (hy : ListAt c.nil s y ys)
    (hxs : xs ≠ []) (hys : ys ≠ []) (rx : Bool) (hr : s[n]? = some (v, if rx then x else y))
    (hn : n ∉ (xs ++ ys).map Prod.fst) (hnodup : ((xs ++ ys).map Prod.fst).Nodup) :
    ∃ s', lup c fuel s (.cell n) x y rx = some s' ∧
      Merged c s s' n v ((xs ++ ys).map Prod.fst) (xs.merge ys (precedes c)) := by
  induction fuel generalizing s n v x y xs ys rx with
  | zero =>
    have hlength := List.length_pos_iff.mpr hxs
    omega
  | succ fuel ih =>
    obtain ⟨⟨nx, vx⟩, xs, rfl⟩ := List.exists_cons_of_ne_nil hxs
    obtain ⟨⟨ny, vy⟩, ys, rfl⟩ := List.exists_cons_of_ne_nil hys
    have hxlist := hx
    have hylist := hy
    obtain ⟨rfl, dx, hnx, hdx⟩ := hx
    obtain ⟨rfl, dy, hny, hdy⟩ := hy
    rw [List.length_cons, List.length_cons] at hfuel
    rw [lup, car_cell hny, car_cell hnx]
    simp only [Option.bind_eq_bind, Option.bind_some]
    by_cases hless : c.less vy vx = true
    · have hperm : (((nx, vx) :: xs ++ (ny, vy) :: ys).map Prod.fst).Perm
          (ny :: ((nx, vx) :: xs ++ ys).map Prod.fst) := by
        rw [List.map_append, List.map_append]
        exact List.perm_middle
      have hrest := List.nodup_cons.mp (hperm.nodup_iff.mp hnodup)
      have hzs : ((nx, vx) :: xs).merge ((ny, vy) :: ys) (precedes c) =
          (ny, vy) :: ((nx, vx) :: xs).merge ys (precedes c) := by
        rw [List.cons_merge_cons, precedes]
        simp [hless]
      have hnil : ys = [] → ((nx, vx) :: xs).merge ys (precedes c) = (nx, vx) :: xs := by
        rintro rfl
        exact List.merge_right _
      obtain ⟨s', hrun, hmerged⟩ := merged_step (if rx then scdr s (.cell n) (.cell ny) else some s)
        (fun s d => lup c fuel s (.cell ny) (.cell nx) d false) hny hdy hxlist
        (by cases rx; exact .inl ⟨hr, rfl⟩; exact .inr ⟨hr, rfl⟩)
        (by rw [List.map_append]; exact List.subset_append_right _ _)
        (by rw [List.map_append]; exact List.subset_append_left _ _) hperm hn hnodup
        hnil fun s₁ hk₁ hd₁ ho₁ hys =>
          ih (by rw [List.length_cons]; omega) ho₁ hd₁ (List.cons_ne_nil _ _) hys false hk₁ hrest.1 hrest.2
      rw [if_pos hless, hzs]
      refine ⟨s', ?_, hmerged⟩
      cases rx <;> exact hrun
    · have hperm : (((nx, vx) :: xs ++ (ny, vy) :: ys).map Prod.fst).Perm
          (nx :: (xs ++ (ny, vy) :: ys).map Prod.fst) := .refl _
      have hrest := List.nodup_cons.mp (hperm.nodup_iff.mp hnodup)
      have hzs : ((nx, vx) :: xs).merge ((ny, vy) :: ys) (precedes c) =
          (nx, vx) :: xs.merge ((ny, vy) :: ys) (precedes c) := by
        rw [List.cons_merge_cons, precedes]
        simp [hless]
      have hnil : xs = [] → xs.merge ((ny, vy) :: ys) (precedes c) = (ny, vy) :: ys := by
        rintro rfl
        exact List.nil_merge _
      obtain ⟨s', hrun, hmerged⟩ := merged_step (if rx then some s else scdr s (.cell n) (.cell nx))
        (fun s d => lup c fuel s (.cell nx) d (.cell ny) true) hnx hdx hylist
        (by cases rx; exact .inr ⟨hr, rfl⟩; exact .inl ⟨hr, rfl⟩)
        (by rw [List.map_append]; exact List.subset_append_left _ _)
        (by rw [List.map_append]; exact List.subset_append_right _ _) hperm hn hnodup
        hnil fun s₁ hk₁ hd₁ ho₁ hxs =>
          ih (by rw [List.length_cons]; omega) hd₁ ho₁ hxs (List.cons_ne_nil _ _) true hk₁ hrest.1 hrest.2
      rw [if_neg hless, hzs]
      refine ⟨s', ?_, hmerged⟩
      cases rx <;> exact hrun

/-- What a call leaves: a list at `r`, and the conses outside of `cells` as before. -/
structure Leaves (c : Setting A) (s s' : Store A) (r : ConsStore.Ref A) (cells : List Nat)
    (zs : List (Nat × ConsStore.Ref A)) : Prop where
  length : s'.length = s.length
  list : ListAt c.nil s' r zs
  frame : ∀ m, m ∉ cells → s'[m]? = s[m]?

omit [DecidableEq A] in
theorem Merged.leaves {s' : Store A} {cells cells' : List Nat} {zs : List (Nat × ConsStore.Ref A)}
    (h : Merged c s s' n v cells zs) (hsub : ∀ m, m = n ∨ m ∈ cells → m ∈ cells') :
    Leaves c s s' (.cell n) cells' ((n, v) :: zs) :=
  ⟨h.length, ⟨rfl, h.tail⟩, fun m hm => h.frame m (fun heq => hm (hsub m (.inl heq)))
    fun hmem => hm (hsub m (.inr hmem))⟩

theorem merge_spec (hx : ListAt c.nil s x xs) (hy : ListAt c.nil s y ys)
    (hnodup : ((xs ++ ys).map Prod.fst).Nodup) : ∃ r s', merge c s x y = some (r, s') ∧
      Leaves c s s' r ((xs ++ ys).map Prod.fst) (xs.merge ys (precedes c)) := by
  rw [merge]
  by_cases hxs : xs = []
  · subst hxs
    rw [if_pos (hx.eq_nil_iff.mpr rfl), List.nil_merge]
    exact ⟨y, s, rfl, rfl, hy, fun m _ => rfl⟩
  rw [if_neg fun heq => hxs (hx.eq_nil_iff.mp heq)]
  by_cases hys : ys = []
  · subst hys
    rw [if_pos (hy.eq_nil_iff.mpr rfl), List.merge_right]
    exact ⟨x, s, rfl, rfl, hx, fun m _ => rfl⟩
  rw [if_neg fun heq => hys (hy.eq_nil_iff.mp heq)]
  have hfuel : (xs ++ ys).length ≤ s.length := by
    have hsub : (xs ++ ys).map Prod.fst ⊆ List.range s.length := by
      intro m hm
      rw [List.map_append, List.mem_append] at hm
      exact List.mem_range.mpr (hm.elim hx.lt hy.lt)
    simpa using (hnodup.subperm hsub).length_le
  rw [List.length_append] at hfuel
  obtain ⟨⟨nx, vx⟩, xs, rfl⟩ := List.exists_cons_of_ne_nil hxs
  obtain ⟨⟨ny, vy⟩, ys, rfl⟩ := List.exists_cons_of_ne_nil hys
  have hxlist := hx
  have hylist := hy
  obtain ⟨rfl, dx, hnx, hdx⟩ := hx
  obtain ⟨rfl, dy, hny, hdy⟩ := hy
  rw [List.length_cons, List.length_cons] at hfuel
  rw [car_cell hny, car_cell hnx]
  simp only [Option.bind_eq_bind, Option.bind_some]
  by_cases hless : c.less vy vx = true
  · have hperm : (((nx, vx) :: xs ++ (ny, vy) :: ys).map Prod.fst).Perm
        (ny :: ((nx, vx) :: xs ++ ys).map Prod.fst) := by
      rw [List.map_append, List.map_append]
      exact List.perm_middle
    have hrest := List.nodup_cons.mp (hperm.nodup_iff.mp hnodup)
    have hnyx : ny ∉ ((nx, vx) :: xs).map Prod.fst := fun hm =>
      hrest.1 (by rw [List.map_append]; exact List.mem_append_left _ hm)
    have hnil : ys = [] → ((nx, vx) :: xs).merge ys (precedes c) = (nx, vx) :: xs := by
      rintro rfl
      exact List.merge_right _
    have hfuel₁ : ((nx, vx) :: xs).length + ys.length ≤ s.length := by
      rw [List.length_cons]
      omega
    obtain ⟨s', hrun, hmerged⟩ := merged_next hny hdy hxlist hnyx hnil fun hys =>
      lup_spec hfuel₁ hxlist hdy (List.cons_ne_nil _ _) hys false hny hrest.1 hrest.2
    have hzs : ((nx, vx) :: xs).merge ((ny, vy) :: ys) (precedes c) =
        (ny, vy) :: ((nx, vx) :: xs).merge ys (precedes c) := by
      rw [List.cons_merge_cons, precedes]
      simp [hless]
    rw [if_pos hless, cdr_cell hny, Option.bind_some, hrun, Option.map_some, hzs]
    exact ⟨.cell ny, s', rfl, hmerged.leaves fun m hm => hperm.mem_iff.mpr (List.mem_cons.mpr hm)⟩
  · have hperm : (((nx, vx) :: xs ++ (ny, vy) :: ys).map Prod.fst).Perm
        (nx :: (xs ++ (ny, vy) :: ys).map Prod.fst) := .refl _
    have hrest := List.nodup_cons.mp (hperm.nodup_iff.mp hnodup)
    have hnxy : nx ∉ ((ny, vy) :: ys).map Prod.fst := fun hm =>
      hrest.1 (by rw [List.map_append]; exact List.mem_append_right _ hm)
    have hnil : xs = [] → xs.merge ((ny, vy) :: ys) (precedes c) = (ny, vy) :: ys := by
      rintro rfl
      exact List.nil_merge _
    have hfuel₁ : xs.length + ((ny, vy) :: ys).length ≤ s.length := by
      rw [List.length_cons]
      omega
    obtain ⟨s', hrun, hmerged⟩ := merged_next hnx hdx hylist hnxy hnil fun hxs =>
      lup_spec hfuel₁ hdx hylist hxs (List.cons_ne_nil _ _) true hnx hrest.1 hrest.2
    have hzs : ((nx, vx) :: xs).merge ((ny, vy) :: ys) (precedes c) =
        (nx, vx) :: xs.merge ((ny, vy) :: ys) (precedes c) := by
      rw [List.cons_merge_cons, precedes]
      simp [hless]
    rw [if_neg hless, cdr_cell hnx, Option.bind_some, hrun, Option.map_some, hzs]
    exact ⟨.cell nx, s', rfl, hmerged.leaves fun m hm => hperm.mem_iff.mpr (List.mem_cons.mpr hm)⟩

end Merge

section Sorting

variable {c : Setting A} {s s' : Store A} {r x y v d lst : ConsStore.Ref A} {n : Nat} {l l' rest : List (Nat × ConsStore.Ref A)}

/-- One value goes before another one unless that is less. -/
def before (c : Setting A) (a b : ConsStore.Ref A) : Bool := !c.less b a

omit [DecidableEq A] in
theorem map_merge (xs ys : List (Nat × ConsStore.Ref A)) : (xs.merge ys (precedes c)).map Prod.snd =
    (xs.map Prod.snd).merge (ys.map Prod.snd) (before c) :=
  List.map_merge fun _ _ _ _ => rfl

omit [DecidableEq A] in
theorem ListAt.drop (h : ListAt c.nil s r (l ++ rest)) : ∃ d, ListAt c.nil s d rest := by
  induction l generalizing r with
  | nil => exact ⟨r, h⟩
  | cons p l ih =>
    obtain ⟨-, d, -, hd⟩ := h
    exact ih hd

/-- The result of `sortFirst`. -/
def SortsFirst (c : Setting A) (n : Nat) (s : Store A) (lst : ConsStore.Ref A) (l rest : List (Nat × ConsStore.Ref A)) : Prop :=
  ∃ r lst' s' ws, sortFirst c n s lst = some (r, lst', s') ∧ Leaves c s s' r (l.map Prod.fst) ws ∧
    ListAt c.nil s lst' rest ∧ (ws.map Prod.fst).Perm (l.map Prod.fst) ∧
    StableSort.SortOf (before c) (l.map Prod.snd) (ws.map Prod.snd)

theorem sortsFirst_one {p : Nat × ConsStore.Ref A} (h : ListAt c.nil s lst (p :: rest)) : SortsFirst c 1 s lst [p] rest := by
  obtain ⟨rfl, d, hp, hd⟩ := h
  obtain ⟨s', hrun, hlength, hnew, hframe⟩ := relink hp (.atom c.nil)
  refine ⟨.cell p.1, d, s', [p], ?_, ⟨hlength, ⟨rfl, _, hnew, rfl⟩, fun m hm => hframe m ?_⟩, hd, .refl _,
    StableSort.sortOf_short (Nat.le_refl 1)⟩
  · rw [sortFirst, if_neg (by decide), if_neg (by decide), if_pos rfl, cdr_cell hp]
    simp only [Option.bind_eq_bind, Option.bind_some, hrun]
    rfl
  · simpa using hm

theorem sortsFirst_two {p q : Nat × ConsStore.Ref A} (h : ListAt c.nil s lst (p :: q :: rest)) (hpq : p.1 ≠ q.1) :
    SortsFirst c 2 s lst [p, q] rest := by
  obtain ⟨rfl, d, hp, rfl, e, hq, he⟩ := h
  have hltp := (List.getElem?_eq_some_iff.mp hp).1
  have hltq := (List.getElem?_eq_some_iff.mp hq).1
  rw [SortsFirst, sortFirst, if_neg (by decide), if_pos rfl]
  simp only [Option.bind_eq_bind, Option.bind_some, car_cell hp, cdr_cell hp, car_cell hq, cdr_cell hq]
  by_cases hless : c.less q.2 p.2 = true
  · rw [if_pos hless]
    have hp₁ : (s.set p.1 (q.2, .cell q.1))[p.1]? = some (q.2, .cell q.1) := List.getElem?_set_self hltp
    have hq₁ : (s.set p.1 (q.2, .cell q.1))[q.1]? = some (q.2, e) := (List.getElem?_set_ne hpq).trans hq
    let s₂ := (s.set p.1 (q.2, .cell q.1)).set q.1 (p.2, e)
    have hswap : swapFirst c s (.cell p.1) p.2 q.2 = some s₂ := by
      rw [swapFirst, scar_cell hp]
      simp only [Option.bind_eq_bind, Option.bind_some, cdr_cell hp₁]
      exact scar_cell hq₁ p.2
    have hp₂ : s₂[p.1]? = some (q.2, .cell q.1) := (List.getElem?_set_ne (Ne.symm hpq)).trans hp₁
    have hq₂ : s₂[q.1]? = some (p.2, e) := List.getElem?_set_self (by rw [List.length_set]; exact hltq)
    obtain ⟨s₃, hrun, hlength, hnew, hframe⟩ := relink hq₂ (.atom c.nil)
    have hlength₂ : s₂.length = s.length := List.length_set.trans List.length_set
    refine ⟨.cell p.1, e, s₃, [(p.1, q.2), (q.1, p.2)], ?_, ⟨hlength.trans hlength₂,
      ⟨rfl, _, (hframe p.1 hpq).trans hp₂, rfl, _, hnew, rfl⟩, fun m hm => ?_⟩, he, .refl _,
      StableSort.sortOf_swap ?_⟩
    · simp only [hswap, Option.bind_some, cdr_cell hp₂, hrun]
      rfl
    · have hm' : m ≠ p.1 ∧ m ≠ q.1 := by simpa using hm
      rw [hframe m hm'.2, List.getElem?_set_ne (Ne.symm hm'.2), List.getElem?_set_ne (Ne.symm hm'.1)]
    · rw [before, hless]
      rfl
  · rw [if_neg hless]
    obtain ⟨s₃, hrun, hlength, hnew, hframe⟩ := relink hq (.atom c.nil)
    refine ⟨.cell p.1, e, s₃, [p, q], ?_, ⟨hlength, ⟨rfl, _, (hframe p.1 hpq).trans hp, rfl, _, hnew, rfl⟩,
      fun m hm => ?_⟩, he, .refl _, StableSort.sortOf_pair ?_⟩
    · simp only [Option.bind_some, hrun]
      rfl
    · have hm' : m ≠ p.1 ∧ m ≠ q.1 := by simpa using hm
      exact hframe m hm'.2
    · rw [before]
      simpa using hless

/-- The first `n` elements are sorted on their own conses. -/
theorem sortsFirst (hl : l.length = n) (h : ListAt c.nil s lst (l ++ rest))
    (hnodup : ((l ++ rest).map Prod.fst).Nodup) : SortsFirst c n s lst l rest := by
  induction n using Nat.strongRecOn generalizing s lst l rest with
  | ind n ih =>
    by_cases hbig : 2 < n
    · let j := (if n % 2 = 0 then n else n - 1) / 2
      have hj : 0 < j ∧ j < n := by
        simp only [j]
        split_ifs <;> omega
      have hsplit : l = l.take j ++ l.drop j := (List.take_append_drop j l).symm
      have hlength₁ : (l.take j).length = j := by
        rw [List.length_take]
        omega
      have hlength₂ : (l.drop j).length = n - j := by
        rw [List.length_drop, hl]
      generalize l.take j = l₁ at hsplit hlength₁
      generalize l.drop j = l₂ at hsplit hlength₂
      subst hsplit
      rw [List.append_assoc] at h
      rw [List.append_assoc, List.map_append, List.nodup_append] at hnodup
      obtain ⟨hnodup₁, hnodup₂, hdisj⟩ := hnodup
      have hfirst : ((l₁ ++ (l₂ ++ rest)).map Prod.fst).Nodup := by
        rw [List.map_append]
        exact List.nodup_append.mpr ⟨hnodup₁, hnodup₂, hdisj⟩
      obtain ⟨a, lst₁, s₁, ws₁, hrun₁, hleaves₁, hlst₁, hcells₁, hsort₁⟩ := ih j hj.2 hlength₁ h hfirst
      have hnot : ∀ m ∈ (l₂ ++ rest).map Prod.fst, m ∉ l₁.map Prod.fst := fun m hm hm₁ =>
        hdisj m hm₁ m hm rfl
      have hlst₁' : ListAt c.nil s₁ lst₁ (l₂ ++ rest) := hlst₁.frame fun m hm => hleaves₁.frame m (hnot m hm)
      obtain ⟨b, lst₂, s₂, ws₂, hrun₂, hleaves₂, hlst₂, hcells₂, hsort₂⟩ :=
        ih (n - j) (by omega) hlength₂ hlst₁' hnodup₂
      have hws₁ : ∀ m ∈ ws₁.map Prod.fst, m ∉ l₂.map Prod.fst := fun m hm hm₂ =>
        hnot m (by rw [List.map_append]; exact List.mem_append_left _ hm₂) (hcells₁.mem_iff.mp hm)
      have ha : ListAt c.nil s₂ a ws₁ := hleaves₁.list.frame fun m hm => hleaves₂.frame m (hws₁ m hm)
      have hcells : ((ws₁ ++ ws₂).map Prod.fst).Perm ((l₁ ++ l₂).map Prod.fst) := by
        rw [List.map_append, List.map_append]
        exact hcells₁.append hcells₂
      have hnodup₁₂ : ((l₁ ++ l₂).map Prod.fst).Nodup := by
        rw [← List.append_assoc, List.map_append] at hfirst
        exact (List.nodup_append.mp hfirst).1
      obtain ⟨r, s₃, hrun₃, hleaves₃⟩ := merge_spec ha hleaves₂.list (hcells.nodup_iff.mpr hnodup₁₂)
      have hrest : ∀ m ∈ rest.map Prod.fst, m ∉ l₁.map Prod.fst := fun m hm =>
        hnot m (by rw [List.map_append]; exact List.mem_append_right _ hm)
      refine ⟨r, lst₂, s₃, ws₁.merge ws₂ (precedes c), ?_, ⟨?_, hleaves₃.list, fun m hm => ?_⟩, ?_, ?_, ?_⟩
      · rw [sortFirst, if_pos hbig]
        simp only [Option.bind_eq_bind]
        change ((sortFirst c j s lst).bind _) = _
        rw [hrun₁, Option.bind_some]
        change ((sortFirst c (n - j) s₁ lst₁).bind _) = _
        rw [hrun₂, Option.bind_some]
        simp only [hrun₃, Option.bind_some]
        rfl
      · rw [hleaves₃.length, hleaves₂.length, hleaves₁.length]
      · rw [List.map_append, List.mem_append, not_or] at hm
        have hm₃ : m ∉ (ws₁ ++ ws₂).map Prod.fst := fun hmem => by
          have hmem' := hcells.mem_iff.mp hmem
          rw [List.map_append, List.mem_append] at hmem'
          exact hmem'.elim hm.1 hm.2
        rw [hleaves₃.frame m hm₃, hleaves₂.frame m hm.2, hleaves₁.frame m hm.1]
      · exact hlst₂.frame fun m hm => (hleaves₁.frame m (hrest m hm)).symm
      · exact (List.Perm.map Prod.fst (List.merge_perm_append _)).trans hcells
      · rw [map_merge, List.map_append]
        exact hsort₁.merge hsort₂
    · rcases l with - | ⟨p, - | ⟨q, - | ⟨t, l⟩⟩⟩
      · subst hl
        refine ⟨.atom c.nil, lst, s, [], ?_, ⟨rfl, rfl, fun m _ => rfl⟩, h, .refl _,
          StableSort.sortOf_short (Nat.zero_le 1)⟩
        rw [sortFirst]
        rfl
      · subst hl
        exact sortsFirst_one h
      · subst hl
        have hpq : p.1 ≠ q.1 := by
          rintro heq
          simp [heq] at hnodup
        exact sortsFirst_two h hpq
      · subst hl
        exact absurd (by simp) hbig

/-- The copy is on new conses. -/
theorem copylist_spec (h : ListAt c.nil s r l) {fuel : Nat} (hfuel : l.length ≤ fuel) :
    ∃ r' s' l', copylist c fuel s r = some (r', s') ∧ s <+: s' ∧ ListAt c.nil s' r' l' ∧
      l'.map Prod.snd = l.map Prod.snd ∧ (l'.map Prod.fst).Nodup ∧ ∀ m ∈ l'.map Prod.fst, s.length ≤ m := by
  induction l generalizing r fuel with
  | nil =>
    have hrun : copylist c fuel s r = some (r, s) := by
      cases fuel <;> exact if_pos h
    exact ⟨r, s, [], hrun, List.prefix_refl s, h, rfl, List.nodup_nil, fun m hm => by cases hm⟩
  | cons p l ih =>
    obtain ⟨rfl, d, hn, hd⟩ := h
    obtain ⟨fuel, rfl⟩ : ∃ f, fuel = f + 1 := ⟨fuel - 1, by simp at hfuel; omega⟩
    obtain ⟨r', s', l', hrun, hgrown, hlist, hvals, hnodup, hnew⟩ := ih hd (by simpa using hfuel)
    refine ⟨(cons s' p.2 r').1, (cons s' p.2 r').2, (s'.length, p.2) :: l', ?_,
      hgrown.trans (ConsStore.prefix_cons _ _ _), hlist.cons p.2, by simp [hvals], ?_, ?_⟩
    · rw [copylist, if_neg (fun heq => by cases heq), car_cell hn, cdr_cell hn]
      simp only [Option.bind_eq_bind, Option.bind_some, hrun]
      rfl
    · refine List.nodup_cons.mpr ⟨fun hm => ?_, hnodup⟩
      exact Nat.lt_irrefl _ (hlist.lt hm)
    · exact List.forall_mem_cons.mpr ⟨hgrown.length_le, hnew⟩

end Sorting

section Numbers

/-- Numbers by their size, with zero for the end of lists. -/
def numbers : Setting Nat where
  nil := 0
  less
    | .atom m, .atom n => m < n
    | _, _ => false

/-- The list of 3, 1 and 2. -/
def threeConses : Store Nat := [(.atom 3, .cell 1), (.atom 1, .cell 2), (.atom 2, .atom 0)]

end Numbers

end Arcueid.MergeSort
