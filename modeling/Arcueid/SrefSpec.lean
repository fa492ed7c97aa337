import Mathlib.Data.List.Nodup
import Arcueid.Sref

/-! Which element an index of a string, a vector or a list denotes, for `sref`
and for application. -/

namespace Arcueid.Sref

open Objects Narrowing

/-- Going on by `cdr` from `x`, the conses `cells` are visited before `tail`,
which is none. -/
def Chain (h : Heap) : Val → List Nat → Val → Prop
  | x, [], tail => x = tail ∧ typeOf h tail ≠ .tCons
  | x, a :: cells, tail => x = .obj a ∧ ∃ y d, h a = .cons y d ∧ Chain h d cells tail

/-- What a cons holds. -/
def held (h : Heap) (a : Nat) : Val :=
  match h a with
  | .cons y _ => y
  | _ => .nil

/-- The elements of a string, of a vector or of a list that ends; a list is
`dotted` if nil is not what follows its last cons. The lengths of strings and
vectors are of type `int`. -/
inductive Holds (h : Heap) : Val → List Elt → Bool → Prop
  | string {a : Nat} {str : List Rune} : h a = .string str → str.length < 2 ^ 31 →
      Holds h (.obj a) (str.map .char) false
  | vector {a : Nat} {vec : List Val} : h a = .vector vec → vec.length < 2 ^ 31 →
      Holds h (.obj a) (vec.map .val) false
  | list {x tail : Val} {cells : List Nat} : Chain h x cells tail → cells ≠ [] →
      Holds h x (cells.map fun a => .val (held h a)) (tail ≠ .nil)

/-- An error of the interpreter. -/
def Errs {α : Type} (r : Except Stop α) : Prop := ∃ fmt, r = .error (.error fmt)

section Index

theorem index_eq {α : Type} {l : List α} {n : Int} {x : α} (hn : 0 ≤ n) (hx : l[n.toNat]? = some x) :
    index l n = .ok x := by
  rw [index, hx]
  exact if_pos hn

theorem setIndex_eq {α : Type} {l : List α} {n : Int} (hn : 0 ≤ n) (hlt : n < l.length) (x : α) :
    setIndex l n x = .ok (l.set n.toNat x) := if_pos ⟨hn, hlt⟩

end Index

section Lists

variable {h : Heap} {x tail v : Val} {cells : List Nat}

theorem Chain.consWalk {n : Nat} (hchain : Chain h x cells tail) (hne : cells ≠ []) :
    (∀ hn : n < cells.length, consWalk h n x = .ok (held h cells[n])) ∧
      (cells.length ≤ n → Errs (consWalk h n x)) := by
  induction cells generalizing x n with
  | nil => exact absurd rfl hne
  | cons a cells ih =>
    obtain ⟨rfl, y, d, ha, hrest⟩ := hchain
    cases n with
    | zero =>
      refine ⟨fun _ => ?_, fun hle => absurd hle (by simp)⟩
      simp [Sref.consWalk, car, held, ha]
    | succ n =>
      have hcdr : cdr h (.obj a) = .ok d := by simp only [cdr, ha]
      have hstep : Sref.consWalk h (n + 1) (.obj a) =
          if typeOf h d ≠ .tCons then .error (.error "index %d too large for list")
          else Sref.consWalk h n d := by
        rw [Sref.consWalk, hcdr]
        rfl
      rw [hstep]
      cases cells with
      | nil =>
        obtain ⟨rfl, hd⟩ := hrest
        rw [if_pos hd]
        exact ⟨fun hn => absurd hn (by simp), fun _ => ⟨_, rfl⟩⟩
      | cons b cells =>
        have hd : typeOf h d = .tCons := by
          obtain ⟨rfl, y', d', hb, -⟩ := hrest
          simp [typeOf, hb, Obj.type]
        rw [if_neg (not_not.mpr hd)]
        obtain ⟨hin, hout⟩ := ih (n := n) hrest (List.cons_ne_nil _ _)
        exact ⟨fun hn => hin (Nat.lt_of_succ_lt_succ hn), fun hle => hout (Nat.le_of_succ_le_succ hle)⟩

theorem outside_of_not_cons (hx : typeOf h x ≠ .tCons) (v : Val) :
    cdr h x = .error .outside ∧ scar h x v = .error .outside := by
  cases x with
  | obj a =>
    cases ha : h a with
    | cons y d => exact absurd (by rw [typeOf, ha, Obj.type]) hx
    | _ => simp only [cdr, scar, ha, and_self]
  | _ => exact ⟨rfl, rfl⟩

theorem Chain.srefWalk {n : Nat} (hchain : Chain h x cells tail) (v : Val) :
    (∀ hn : n < cells.length, ∃ y d, h cells[n] = .cons y d ∧
        srefWalk h v n x = .ok (Function.update h cells[n] (.cons v d))) ∧
      (cells.length ≤ n → if tail = .nil then Errs (srefWalk h v n x)
        else srefWalk h v n x = .error .outside) := by
  induction cells generalizing x n with
  | nil =>
    obtain ⟨rfl, hx⟩ := hchain
    refine ⟨fun hn => absurd hn (Nat.not_lt_zero n), fun _ => ?_⟩
    split_ifs with hnil
    · subst hnil
      cases n with
      | zero => exact ⟨_, rfl⟩
      | succ n => exact ⟨_, rfl⟩
    · obtain ⟨hcdr, hscar⟩ := outside_of_not_cons hx v
      cases n with
      | zero => rw [Sref.srefWalk, if_neg hnil, hscar]
      | succ n =>
        rw [Sref.srefWalk, if_neg hnil, hcdr]
        rfl
  | cons a cells ih =>
    obtain ⟨rfl, y, d, ha, hrest⟩ := hchain
    cases n with
    | zero =>
      refine ⟨fun _ => ⟨y, d, ha, ?_⟩, fun hle => absurd hle (by simp)⟩
      simp [Sref.srefWalk, scar, ha]
    | succ n =>
      have hcdr : cdr h (.obj a) = .ok d := by simp only [cdr, ha]
      have hstep : Sref.srefWalk h v (n + 1) (.obj a) = Sref.srefWalk h v n d := by
        rw [Sref.srefWalk, if_neg (by simp), hcdr]
        rfl
      rw [hstep]
      obtain ⟨hin, hout⟩ := ih (n := n) hrest
      exact ⟨fun hn => hin (Nat.lt_of_succ_lt_succ hn), fun hle => hout (Nat.le_of_succ_le_succ hle)⟩

theorem held_update {a b : Nat} {d : Val} (hb : b ≠ a) :
    held (Function.update h a (.cons v d)) b = held h b := by
  rw [held, held, Function.update_of_ne hb]

theorem held_of_cons {a : Nat} {y d : Val} (ha : h a = .cons y d) : held h a = y := by
  simp only [held, ha]

/-- The conses of a list that ends are distinct. -/
theorem Chain.unique {cells' : List Nat} {tail' : Val} (hchain : Chain h x cells tail)
    (hchain' : Chain h x cells' tail') : cells = cells' := by
  induction cells generalizing x cells' with
  | nil =>
    obtain ⟨rfl, hx⟩ := hchain
    cases cells' with
    | nil => rfl
    | cons b cells' =>
      obtain ⟨rfl, y, d, hb, -⟩ := hchain'
      exact absurd (by rw [typeOf, hb, Obj.type]) hx
  | cons a cells ih =>
    obtain ⟨rfl, y, d, ha, hrest⟩ := hchain
    cases cells' with
    | nil =>
      obtain ⟨rfl, hx⟩ := hchain'
      exact absurd (by rw [typeOf, ha, Obj.type]) hx
    | cons b cells' =>
      obtain ⟨hab, y', d', hb, hrest'⟩ := hchain'
      obtain rfl := Val.obj.inj hab
      obtain ⟨-, rfl⟩ := Obj.cons.inj (ha.symm.trans hb)
      rw [ih hrest hrest']

theorem Chain.of_mem {a : Nat} (hchain : Chain h x cells tail) (ha : a ∈ cells) :
    ∃ before after, cells = before ++ a :: after ∧ Chain h (.obj a) (a :: after) tail := by
  induction cells generalizing x with
  | nil => exact absurd ha List.not_mem_nil
  | cons b cells ih =>
    rcases List.mem_cons.mp ha with rfl | hmem
    · obtain ⟨rfl, hcell⟩ := hchain
      exact ⟨[], cells, rfl, rfl, hcell⟩
    · obtain ⟨-, y, d, -, hrest⟩ := hchain
      obtain ⟨before, after, rfl, hsuffix⟩ := ih hrest hmem
      exact ⟨b :: before, after, rfl, hsuffix⟩

theorem Chain.nodup (hchain : Chain h x cells tail) : cells.Nodup := by
  induction cells generalizing x with
  | nil => exact List.nodup_nil
  | cons a cells ih =>
    obtain ⟨rfl, y, d, ha, hrest⟩ := hchain
    refine List.nodup_cons.mpr ⟨fun hmem => ?_, ih hrest⟩
    obtain ⟨before, after, rfl, hsuffix⟩ := hrest.of_mem hmem
    have hwhole : Chain h (.obj a) (a :: (before ++ a :: after)) tail := ⟨rfl, y, d, ha, hrest⟩
    have hlen := congrArg List.length (hwhole.unique hsuffix)
    simp only [List.length_cons, List.length_append] at hlen
    omega

/-- A store to the car of a cons leaves the conses of a list as they are. -/
theorem Chain.scar {a : Nat} {y d : Val} (hchain : Chain h x cells tail) (ha : h a = .cons y d) (v : Val) :
    Chain (Function.update h a (.cons v d)) x cells tail := by
  induction cells generalizing x with
  | nil =>
    obtain ⟨rfl, hx⟩ := hchain
    refine ⟨rfl, ?_⟩
    cases x with
    | obj b =>
      by_cases hb : b = a
      · subst hb
        exact absurd (by rw [typeOf, ha, Obj.type]) hx
      · rwa [typeOf, Function.update_of_ne hb]
    | _ => exact hx
  | cons b cells ih =>
    obtain ⟨rfl, y', d', hb, hrest⟩ := hchain
    refine ⟨rfl, ?_⟩
    by_cases hab : b = a
    · subst hab
      obtain ⟨-, rfl⟩ := Obj.cons.inj (ha.symm.trans hb)
      exact ⟨v, d, Function.update_self _ _ _, ih hrest⟩
    · exact ⟨y', d', (Function.update_of_ne hab _ _).trans hb, ih hrest⟩

/-- The elements of a list after a store to the car of one of its conses. -/
theorem Chain.map_held {n : Nat} (hchain : Chain h x cells tail) (hn : n < cells.length) (v d : Val) :
    cells.map (fun a => Elt.val (held (Function.update h cells[n] (.cons v d)) a)) =
      (cells.map fun a => Elt.val (held h a)).set n (.val v) := by
  refine List.ext_getElem (by simp) fun k hk hk' => ?_
  have hk : k < cells.length := by simpa using hk
  rw [List.getElem_map, List.getElem_set]
  split_ifs with hnk
  · subst hnk
    rw [held_of_cons (Function.update_self _ _ _)]
  · have hne : cells[k] ≠ cells[n] := fun heq =>
      hnk ((List.Nodup.getElem_inj_iff hchain.nodup).mp heq).symm
    rw [List.getElem_map, held_update hne]

end Lists

section Elements

variable {h : Heap} {x v i : Val} {l : List Elt} {d : Bool} {n : Int} {e : Elt}
  {other : List Val → Except Stop Elt} {table : Heap → Val → Val → Val → Except Stop Heap}

def InRange (l : List Elt) (n : Int) : Prop := 0 ≤ n ∧ n < l.length

theorem getElem?_of_inRange (hn : InRange l n) : ∃ e, l[n.toNat]? = some e := by
  obtain ⟨hpos, hlt⟩ := hn
  have hnat : n.toNat < l.length := by omega
  exact ⟨l[n.toNat], List.getElem?_eq_getElem hnat⟩

section Types

variable {a : Nat} {str : List Rune} {vec args : List Val} {y c : Val}

theorem apply_string (ha : h a = .string str) : apply other h (.obj a) args = stringApply str args := by
  simp only [apply, ha]

theorem apply_vector (ha : h a = .vector vec) : apply other h (.obj a) args = vectorApply vec args := by
  simp only [apply, ha]

theorem apply_cons (ha : h a = .cons y c) : apply other h (.obj a) args = consApply h (.obj a) args := by
  simp only [apply, ha]

theorem getElem?_map_eq {α : Type} {f : α → Elt} {xs : List α} {k : Nat} (hk : (xs.map f)[k]? = some e) :
    ∃ x, xs[k]? = some x ∧ f x = e := by
  rw [List.getElem?_map, Option.map_eq_some_iff] at hk
  exact hk

theorem ge_of_not_inRange (hout : ¬ InRange l n) (hneg : ¬ n < 0) : n ≥ l.length := by
  rw [InRange] at hout
  omega

end Types

/-- An index is narrowed before the application looks for the element. -/
theorem Holds.apply (other : List Val → Except Stop Elt) (hx : Holds h x l d) :
    (0 ≤ toInt32 n → l[(toInt32 n).toNat]? = some e → Sref.apply other h x [.fixnum n] = .ok e) ∧
      (¬ InRange l (toInt32 n) → Errs (Sref.apply other h x [.fixnum n])) := by
  have hlt : ∀ {l : List Elt} {k : Int}, 0 ≤ k → l[k.toNat]? = some e → k < l.length := by
    intro l k hk he
    obtain ⟨hlt, -⟩ := List.getElem?_eq_some_iff.mp he
    omega
  cases hx with
  | @string a str ha _ =>
    rw [apply_string ha, stringApply]
    constructor
    · intro hn he
      have hin := hlt hn he
      obtain ⟨r, hr, rfl⟩ := getElem?_map_eq he
      rw [List.length_map] at hin
      rw [if_neg (by omega), if_neg (by omega), index_eq hn hr]
      rfl
    · intro hout
      split_ifs with hneg hge
      · exact ⟨_, rfl⟩
      · exact ⟨_, rfl⟩
      · have hlen := ge_of_not_inRange hout hneg
        rw [List.length_map] at hlen
        exact absurd hlen hge
  | @vector a vec ha _ =>
    rw [apply_vector ha, vectorApply]
    constructor
    · intro hn he
      have hin := hlt hn he
      obtain ⟨r, hr, rfl⟩ := getElem?_map_eq he
      rw [List.length_map] at hin
      rw [if_neg (by omega), if_neg (by omega), index_eq hn hr]
      rfl
    · intro hout
      split_ifs with hneg hge
      · exact ⟨_, rfl⟩
      · exact ⟨_, rfl⟩
      · have hlen := ge_of_not_inRange hout hneg
        rw [List.length_map] at hlen
        exact absurd hlen hge
  | @list x tail cells hchain hne =>
    obtain ⟨hin, hout⟩ := hchain.consWalk (n := (toInt32 n).toNat) hne
    obtain ⟨a, cells, rfl⟩ := List.exists_cons_of_ne_nil hne
    obtain ⟨rfl, y, c, ha, -⟩ := hchain
    rw [apply_cons ha, consApply]
    constructor
    · intro hn he
      obtain ⟨b, hb, rfl⟩ := getElem?_map_eq he
      obtain ⟨hk, rfl⟩ := List.getElem?_eq_some_iff.mp hb
      rw [if_neg (by omega), hin hk]
      rfl
    · intro hnot
      split_ifs with hneg
      · exact ⟨_, rfl⟩
      · have hlen := ge_of_not_inRange hnot hneg
        rw [List.length_map] at hlen
        obtain ⟨fmt, hfmt⟩ := hout (by omega)
        exact ⟨fmt, by rw [hfmt]; rfl⟩

theorem Holds.apply_no_fixnum (other : List Val → Except Stop Elt) (hx : Holds h x l d)
    (hi : ∀ n, i ≠ .fixnum n) : Errs (Sref.apply other h x [i]) := by
  cases i with
  | fixnum n => exact absurd rfl (hi n)
  | _ =>
    cases hx with
    | string ha _ => exact ⟨_, apply_string ha⟩
    | vector ha _ => exact ⟨_, apply_vector ha⟩
    | list hchain hne =>
      obtain ⟨a, cells, rfl⟩ := List.exists_cons_of_ne_nil hne
      obtain ⟨rfl, y, c, ha, -⟩ := hchain
      exact ⟨_, apply_cons ha⟩

/-- What an assignment of `v` makes an element of `x`: a character of a string
is kept as its rune. -/
inductive Stores (h : Heap) (x : Val) : Val → Elt → Prop
  | char {b : Nat} {r : Rune} : typeOf h x = .tString → h b = .char r → Stores h x (.obj b) (.char r)
  | val {v : Val} : typeOf h x ≠ .tString → Stores h x v (.val v)

/-- The element that an assignment looks for: only in a list, the index is
narrowed. -/
def srefIndex (h : Heap) (x : Val) (n : Int) : Int :=
  if typeOf h x = .tCons then toInt32 n else n

section Types

variable {a : Nat} {str : List Rune} {vec : List Val} {y c : Val}

theorem sref_string (ha : h a = .string str) :
    arcSref table h (.obj a) v i = settle h v (srefString h a str v i) := by
  simp only [arcSref, ha]

theorem sref_vector (ha : h a = .vector vec) :
    arcSref table h (.obj a) v i = settle h v (srefVector h a vec v i) := by
  simp only [arcSref, ha]

theorem sref_cons (ha : h a = .cons y c) :
    arcSref table h (.obj a) v i = settle h v (srefCons h (.obj a) v i) := by
  simp only [arcSref, ha]

theorem settle_errs {r : Except Stop Heap} (hr : Errs r) :
    ∃ fmt, settle h v r = (.error (.error fmt), h) := by
  obtain ⟨fmt, rfl⟩ := hr
  exact ⟨fmt, rfl⟩

theorem srefString_spec {b : Nat} {r : Rune} (hb : h b = .char r) (hlen : str.length < 2 ^ 31) :
    (0 ≤ n ∧ n < str.length → srefString h a str (.obj b) (.fixnum n) =
        .ok (Function.update h a (.string (str.set n.toNat r)))) ∧
      (¬ (0 ≤ n ∧ n < str.length) → Errs (srefString h a str (.obj b) (.fixnum n))) := by
  simp only [srefString, hb]
  constructor
  · rintro ⟨hn, hlt⟩
    rw [if_neg (by omega), if_neg (by omega), toInt32_self hn (by omega), setIndex_eq hn hlt]
    rfl
  · intro hout
    split_ifs with hneg hge
    · exact ⟨_, rfl⟩
    · exact ⟨_, rfl⟩
    · exact absurd ⟨by omega, by omega⟩ hout

theorem srefVector_spec (h : Heap) (a : Nat) (vec : List Val) (v : Val) (n : Int) :
    (0 ≤ n ∧ n < vec.length → srefVector h a vec v (.fixnum n) =
        .ok (Function.update h a (.vector (vec.set n.toNat v)))) ∧
      (¬ (0 ≤ n ∧ n < vec.length) → Errs (srefVector h a vec v (.fixnum n))) := by
  simp only [srefVector]
  constructor
  · rintro ⟨hn, hlt⟩
    rw [if_neg (by omega), if_neg (by omega), setIndex_eq hn hlt]
    rfl
  · intro hout
    split_ifs with hneg hge
    · exact ⟨_, rfl⟩
    · exact ⟨_, rfl⟩
    · exact absurd ⟨by omega, by omega⟩ hout

end Types

theorem Holds.sref (table : Heap → Val → Val → Val → Except Stop Heap) (hx : Holds h x l d)
    (hv : Stores h x v e) :
    (InRange l (srefIndex h x n) → ∃ h', arcSref table h x v (.fixnum n) = (.ok v, h') ∧
        Holds h' x (l.set (srefIndex h x n).toNat e) d) ∧
      (¬ InRange l (srefIndex h x n) → (d = true → srefIndex h x n < 0) →
        ∃ fmt, arcSref table h x v (.fixnum n) = (.error (.error fmt), h)) ∧
      (l.length ≤ srefIndex h x n → d = true →
        arcSref table h x v (.fixnum n) = (.error .outside, h)) := by
  cases hx with
  | @string a str ha hlen =>
    have htype : typeOf h (.obj a) = .tString := by rw [typeOf, ha, Obj.type]
    have hindex : srefIndex h (.obj a) n = n := if_neg (by rw [htype]; decide)
    rw [hindex, sref_string ha]
    cases hv with
    | val hne => exact absurd htype hne
    | @char b r _ hb =>
      obtain ⟨hin, hout⟩ := srefString_spec (a := a) (n := n) hb hlen
      refine ⟨fun hn => ?_, fun hn _ => ?_, fun _ hd => absurd hd Bool.false_ne_true⟩
      · rw [InRange, List.length_map] at hn
        refine ⟨_, by rw [hin hn]; rfl, ?_⟩
        rw [← List.map_set]
        exact .string (Function.update_self _ _ _) (by rwa [List.length_set])
      · rw [InRange, List.length_map] at hn
        exact settle_errs (hout hn)
  | @vector a vec ha hlen =>
    have htype : typeOf h (.obj a) = .tVector := by rw [typeOf, ha, Obj.type]
    have hindex : srefIndex h (.obj a) n = n := if_neg (by rw [htype]; decide)
    rw [hindex, sref_vector ha]
    cases hv with
    | char hstring _ => exact absurd (htype.symm.trans hstring) (by decide)
    | val _ =>
      obtain ⟨hin, hout⟩ := srefVector_spec h a vec v n
      refine ⟨fun hn => ?_, fun hn _ => ?_, fun _ hd => absurd hd Bool.false_ne_true⟩
      · rw [InRange, List.length_map] at hn
        refine ⟨_, by rw [hin hn]; rfl, ?_⟩
        rw [← List.map_set]
        exact .vector (Function.update_self _ _ _) (by rwa [List.length_set])
      · rw [InRange, List.length_map] at hn
        exact settle_errs (hout hn)
  | @list x tail cells hchain hne =>
    have hwalk := hchain.srefWalk (n := (toInt32 n).toNat) v
    have hkeep : ∀ {b y c}, h b = .cons y c →
        Chain (Function.update h b (.cons v c)) x cells tail := fun hb => hchain.scar hb v
    have hmap := fun k c => hchain.map_held (n := k) (v := v) (d := c)
    obtain ⟨a, rest, hcells⟩ := List.exists_cons_of_ne_nil hne
    obtain ⟨rfl, y, c, ha, -⟩ : Chain h x (a :: rest) tail := hcells ▸ hchain
    have htype : typeOf h (.obj a) = .tCons := by rw [typeOf, ha, Obj.type]
    have hindex : srefIndex h (.obj a) n = toInt32 n := if_pos htype
    rw [hindex, sref_cons ha, InRange, List.length_map]
    cases hv with
    | char hstring _ => exact absurd (htype.symm.trans hstring) (by decide)
    | val _ =>
      simp only [srefCons]
      refine ⟨fun hn => ?_, fun hn hd => ?_, fun hn hd => ?_⟩
      · have hk : (toInt32 n).toNat < cells.length := by omega
        obtain ⟨y', c', hb, hstored⟩ := hwalk.1 hk
        refine ⟨_, by rw [if_neg (by omega), hstored]; rfl, ?_⟩
        rw [← hmap _ c' hk]
        exact .list (hkeep hb) hne
      · split_ifs with hneg
        · exact ⟨_, rfl⟩
        · have hle : cells.length ≤ (toInt32 n).toNat := by omega
          have hnil : tail = .nil := by
            by_contra htail
            exact hneg (hd (decide_eq_true htail))
          have hends := hwalk.2 hle
          rw [if_pos hnil] at hends
          exact settle_errs hends
      · have hle : cells.length ≤ (toInt32 n).toNat := by omega
        have hends := hwalk.2 hle
        rw [if_neg (of_decide_eq_true hd)] at hends
        rw [if_neg (by omega), hends]
        rfl

/-- Without a fixnum index or a value that can be stored, an error is raised. -/
theorem Holds.sref_refused (table : Heap → Val → Val → Val → Except Stop Heap) (hx : Holds h x l d)
    (hno : (∀ n, i ≠ .fixnum n) ∨ ∀ e, ¬ Stores h x v e) :
    ∃ fmt, arcSref table h x v i = (.error (.error fmt), h) := by
  have hindex : ∀ {y}, typeOf h y ≠ .tString → y = x → ∀ n, i ≠ .fixnum n := by
    rintro y hy rfl
    exact hno.resolve_right fun hall => hall _ (.val hy)
  cases hx with
  | @string a str ha _ =>
    rw [sref_string ha]
    refine settle_errs ?_
    have htype : typeOf h (.obj a) = .tString := by rw [typeOf, ha, Obj.type]
    cases v with
    | obj b =>
      cases hb : h b with
      | char r =>
        have hfix : ∀ n, i ≠ .fixnum n := hno.resolve_right fun hall => hall _ (.char htype hb)
        simp only [srefString, hb]
        cases i with
        | fixnum n => exact absurd rfl (hfix n)
        | _ => exact ⟨_, rfl⟩
      | _ =>
        simp only [srefString, hb]
        exact ⟨_, rfl⟩
    | _ => exact ⟨_, rfl⟩
  | @vector a vec ha _ =>
    have hfix := hindex (y := .obj a) (by simp [typeOf, ha, Obj.type]) rfl
    rw [sref_vector ha]
    refine settle_errs ?_
    cases i with
    | fixnum n => exact absurd rfl (hfix n)
    | _ => exact ⟨_, rfl⟩
  | @list x tail cells hchain hne =>
    obtain ⟨a, rest, rfl⟩ := List.exists_cons_of_ne_nil hne
    obtain ⟨rfl, y, c, ha, -⟩ := hchain
    have hfix := hindex (y := .obj a) (by simp [typeOf, ha, Obj.type]) rfl
    rw [sref_cons ha]
    refine settle_errs ?_
    cases i with
    | fixnum n => exact absurd rfl (hfix n)
    | _ => exact ⟨_, rfl⟩

end Elements

section Assignments

variable {h : Heap} {x v i : Val} {l : List Elt} {d : Bool}

/-- `i` is the index of an element. -/
def IsIndex (l : List Elt) (i : Val) : Prop := ∃ n, i = .fixnum n ∧ InRange l n

/-- `x` is assigned to at `i`, and applied to it, as an array of its elements. -/
structure Meets (table : Heap → Val → Val → Val → Except Stop Heap)
    (other : List Val → Except Stop Elt) (h : Heap) (x : Val) (l : List Elt) (d : Bool) (i : Val) :
    Prop where
  assigned : ∀ n v e, i = .fixnum n → InRange l n → Stores h x v e →
    ∃ h' l', arcSref table h x v i = (.ok v, h') ∧ Holds h' x l' d ∧ l'.length = l.length ∧
      apply other h' x [i] = .ok e ∧ ∀ j e', InRange l j → j ≠ n →
        (apply other h' x [.fixnum j] = .ok e' ↔ apply other h x [.fixnum j] = .ok e')
  refused : ∀ v, ¬ IsIndex l i ∨ (∀ e, ¬ Stores h x v e) →
    ∃ fmt, arcSref table h x v i = (.error (.error fmt), h)
  applied : Errs (apply other h x [i]) ↔ ¬ IsIndex l i
  inside : ∀ v, (arcSref table h x v i).1 ≠ .error .outside ∧
    apply other h x [i] ≠ .error .outside

/-- If the index is, or is narrowed to, that of an element, then narrowing leaves
it as it is, and leaves no other index of an element to be it; in a dotted list it
is not narrowed to one behind the last cons. -/
def Kept (l : List Elt) (d : Bool) (i : Val) : Prop :=
  ∀ n, i = .fixnum n →
    (InRange l n ∨ InRange l (toInt32 n) → toInt32 n = n ∧ l.length ≤ n + 2 ^ 32) ∧
    (d = true → toInt32 n < l.length)

theorem errs_iff {α : Type} {r : Except Stop α} (hr : Errs r) :
    (∀ e, r ≠ .ok e) ∧ r ≠ .error .outside := by
  obtain ⟨fmt, rfl⟩ := hr
  constructor
  · intro e heq
    cases heq
  · intro heq
    cases heq

/-- What an application returns, if it does. -/
theorem Holds.apply_eq_ok_iff (other : List Val → Except Stop Elt) (hx : Holds h x l d) {n : Int} {e : Elt} :
    Sref.apply other h x [.fixnum n] = .ok e ↔
      0 ≤ toInt32 n ∧ l[(toInt32 n).toNat]? = some e := by
  constructor
  · intro happly
    by_cases hin : InRange l (toInt32 n)
    · obtain ⟨e', he'⟩ := getElem?_of_inRange hin
      have happly' := (hx.apply other).1 hin.1 he'
      obtain rfl := Except.ok.inj (happly'.symm.trans happly)
      exact ⟨hin.1, he'⟩
    · exact absurd happly ((errs_iff ((hx.apply (e := e) other).2 hin)).1 e)
  · rintro ⟨hn, he⟩
    exact (hx.apply other).1 hn he

theorem Holds.dotted (hx : Holds h x l d) (hd : d = true) : typeOf h x = .tCons := by
  cases hx with
  | string _ _ => exact absurd hd Bool.false_ne_true
  | vector _ _ => exact absurd hd Bool.false_ne_true
  | list hchain hne =>
    obtain ⟨a, rest, rfl⟩ := List.exists_cons_of_ne_nil hne
    obtain ⟨rfl, y, c, ha, -⟩ := hchain
    rw [typeOf, ha, Obj.type]

/-- Strings and vectors are no longer than an `int` can count. -/
theorem Holds.length_lt (hx : Holds h x l d) (hlist : typeOf h x ≠ .tCons) : l.length < 2 ^ 31 := by
  cases hx with
  | string _ hlen => rwa [List.length_map]
  | vector _ hlen => rwa [List.length_map]
  | list hchain hne =>
    obtain ⟨a, rest, rfl⟩ := List.exists_cons_of_ne_nil hne
    obtain ⟨rfl, y, c, ha, -⟩ := hchain
    exact absurd (by rw [typeOf, ha, Obj.type]) hlist

/-- The element at the index is assigned to. -/
theorem Holds.assigned (table : Heap → Val → Val → Val → Except Stop Heap)
    (other : List Val → Except Stop Elt) (hx : Holds h x l d) {n : Int} {e : Elt} (hn : InRange l n)
    (heq : toInt32 n = n) (hlen : l.length ≤ n + 2 ^ 32) (hv : Stores h x v e) :
    ∃ h' l', arcSref table h x v (.fixnum n) = (.ok v, h') ∧ Holds h' x l' d ∧
      l'.length = l.length ∧ Sref.apply other h' x [.fixnum n] = .ok e ∧
      ∀ j e', InRange l j → j ≠ n →
        (Sref.apply other h' x [.fixnum j] = .ok e' ↔ Sref.apply other h x [.fixnum j] = .ok e') := by
  have hindex : srefIndex h x n = n := by
    rw [srefIndex]
    split_ifs
    · exact heq
    · rfl
  have hsref := (hx.sref (n := n) table hv).1
  rw [hindex] at hsref
  obtain ⟨h', hstored, hx'⟩ := hsref hn
  have hlt : n.toNat < l.length := by
    rw [InRange] at hn
    omega
  refine ⟨h', _, hstored, hx', List.length_set, ?_, fun j e' hj hne => ?_⟩
  · rw [hx'.apply_eq_ok_iff, heq]
    exact ⟨hn.1, List.getElem?_set_self hlt⟩
  · rw [hx'.apply_eq_ok_iff, hx.apply_eq_ok_iff]
    refine and_congr_right fun hpos => ?_
    -- no other index of an element is narrowed to this one
    have hother : n.toNat ≠ (toInt32 j).toNat := by
      obtain ⟨q, hq, -, hbound⟩ := toInt32_spec j
      rw [InRange] at hn hj
      omega
    rw [List.getElem?_set_ne hother]

/-- If the index is not that of an element, also not when it is narrowed, an
error is raised. -/
theorem Holds.refused (table : Heap → Val → Val → Val → Except Stop Heap) (hx : Holds h x l d)
    {n : Int} (hn : ¬ InRange l n) (hk : ¬ InRange l (toInt32 n))
    (hd : d = true → toInt32 n < l.length) (v : Val) :
    ∃ fmt, arcSref table h x v (.fixnum n) = (.error (.error fmt), h) := by
  by_cases hv : ∃ e, Stores h x v e
  · obtain ⟨e, hv⟩ := hv
    refine (hx.sref table hv).2.1 ?_ fun hdot => ?_
    · rw [srefIndex]
      split_ifs
      · exact hk
      · exact hn
    · rw [srefIndex, if_pos (hx.dotted hdot)]
      have hlt := hd hdot
      rw [InRange] at hk
      omega
  · exact hx.sref_refused table (.inr fun e he => hv ⟨e, he⟩)

theorem Kept.meets (table : Heap → Val → Val → Val → Except Stop Heap)
    (other : List Val → Except Stop Elt) (hx : Holds h x l d) (hkept : Kept l d i) :
    Meets table other h x l d i := by
  have hinside : ∀ {v}, (∃ fmt, arcSref table h x v i = (.error (.error fmt), h)) →
      (arcSref table h x v i).1 ≠ .error .outside := by
    rintro v ⟨fmt, hfmt⟩ heq
    rw [hfmt] at heq
    cases heq
  by_cases hi : ∃ n, i = .fixnum n
  · obtain ⟨n, rfl⟩ := hi
    obtain ⟨hrange, hdot⟩ := hkept n rfl
    by_cases hn : InRange l n
    · obtain ⟨heq, hlen⟩ := hrange (.inl hn)
      obtain ⟨e, he⟩ := getElem?_of_inRange hn
      have happly : Sref.apply other h x [.fixnum n] = .ok e := by
        rw [hx.apply_eq_ok_iff, heq]
        exact ⟨hn.1, he⟩
      have hindex : IsIndex l (.fixnum n) := ⟨n, rfl, hn⟩
      refine ⟨fun m v e' hm _ hv => ?_, fun v hno => ?_, ?_, fun v => ⟨?_, ?_⟩⟩
      · obtain rfl := Val.fixnum.inj hm
        exact hx.assigned table other hn heq hlen hv
      · exact hx.sref_refused table (.inr (hno.resolve_left fun hnot => hnot hindex))
      · refine iff_of_false (fun herr => (errs_iff herr).1 e happly) fun hnot => hnot hindex
      · by_cases hv : ∃ e, Stores h x v e
        · obtain ⟨e', hv⟩ := hv
          obtain ⟨h', l', hstored, -⟩ := hx.assigned table other hn heq hlen hv
          rw [hstored]
          intro hc
          cases hc
        · exact hinside (hx.sref_refused table (.inr fun e he => hv ⟨e, he⟩))
      · rw [happly]
        intro hc
        cases hc
    · have hk : ¬ InRange l (toInt32 n) := fun hk => hn ((hrange (.inr hk)).1 ▸ hk)
      have herr := (hx.apply (e := .val .nil) other).2 hk
      have hno : ¬ IsIndex l (.fixnum n) := by
        rintro ⟨m, hm, hin⟩
        exact hn (Val.fixnum.inj hm ▸ hin)
      refine ⟨fun m v e' hm hin _ => ?_, fun v _ => hx.refused table hn hk hdot v,
        iff_of_true herr hno, fun v => ⟨hinside (hx.refused table hn hk hdot v), (errs_iff herr).2⟩⟩
      exact absurd ⟨m, hm, hin⟩ hno
  · have hfix : ∀ n, i ≠ .fixnum n := fun n hn => hi ⟨n, hn⟩
    have herr := hx.apply_no_fixnum other hfix
    refine ⟨fun n _ _ hn => absurd hn (hfix n), fun v _ => hx.sref_refused table (.inl hfix),
      iff_of_true herr ?_, fun v => ⟨hinside (hx.sref_refused table (.inl hfix)), (errs_iff herr).2⟩⟩
    rintro ⟨n, hn, -⟩
    exact hfix n hn

/-- In a list, a value other than the one at a position. -/
theorem exists_other (e : Elt) (hx : typeOf h x ≠ .tString) : ∃ v e', Stores h x v e' ∧ e' ≠ e := by
  by_cases he : e = .val .nil
  · exact ⟨.fixnum 0, _, .val hx, by rw [he]; simp⟩
  · exact ⟨.nil, _, .val hx, Ne.symm he⟩

theorem Meets.kept {table : Heap → Val → Val → Val → Except Stop Heap}
    {other : List Val → Except Stop Elt} (hx : Holds h x l d) (hmeets : Meets table other h x l d i) :
    Kept l d i := by
  rintro n rfl
  have hstep : InRange l n ∨ InRange l (toInt32 n) → toInt32 n = n ∧ l.length ≤ n + 2 ^ 32 := by
    intro hin
    -- the application returns something, so it is an index
    have hk : InRange l (toInt32 n) := by
      by_contra hk
      have herr := (hx.apply (e := .val .nil) other).2 hk
      refine hmeets.applied.mp herr ⟨n, rfl, hin.resolve_right hk⟩
    obtain ⟨e, he⟩ := getElem?_of_inRange hk
    have happly := (hx.apply other).1 hk.1 he
    have hn : InRange l n := by
      by_contra hn
      have hno : ¬ IsIndex l (.fixnum n) := by
        rintro ⟨m, hm, hin⟩
        exact hn (Val.fixnum.inj hm ▸ hin)
      exact (errs_iff (hmeets.applied.mpr hno)).1 e happly
    obtain ⟨q, hq, hlow, hhigh⟩ := toInt32_spec n
    by_cases hlist : typeOf h x = .tCons
    · have hstring : typeOf h x ≠ .tString := by
        rw [hlist]
        decide
      obtain ⟨v, e', hv, hne⟩ := exists_other e hstring
      obtain ⟨h', l', hrun, -, -, -, hsame⟩ := hmeets.assigned n v e' rfl hn hv
      have hindex : srefIndex h x n = toInt32 n := if_pos hlist
      have hsref := (hx.sref (n := n) table hv).1
      rw [hindex] at hsref
      obtain ⟨h₁, hrun₁, hx₁⟩ := hsref hk
      obtain rfl : h₁ = h' := (Prod.mk.inj (hrun₁.symm.trans hrun)).2
      have hlt : (toInt32 n).toNat < l.length := by
        have hk' := hk
        rw [InRange] at hk'
        omega
      -- an index narrowed to the same one now denotes the new element
      have hchanged : ∀ j, toInt32 j = toInt32 n → InRange l j → j = n := by
        intro j hj hjin
        by_contra hjn
        have hnew : Sref.apply other h₁ x [.fixnum j] = .ok e' := by
          rw [hx₁.apply_eq_ok_iff, hj]
          exact ⟨hk.1, List.getElem?_set_self hlt⟩
        have hold : Sref.apply other h x [.fixnum j] = .ok e := by
          rw [hx.apply_eq_ok_iff, hj]
          exact ⟨hk.1, he⟩
        have hold' := (hsame j e' hjin hjn).mp hnew
        exact hne (Except.ok.inj (hold'.symm.trans hold))
      have hself : toInt32 (toInt32 n) = toInt32 n := by
        rw [InRange] at hk
        exact toInt32_self hk.1 hhigh
      refine ⟨hchanged _ hself hk, ?_⟩
      by_contra hlen
      have hnext : toInt32 (n + 2 ^ 32) = toInt32 n := by
        rw [toInt32, toInt32]
        exact Int.add_bmod_right n _
      rw [InRange] at hn
      have hbad := hchanged (n + 2 ^ 32) hnext ⟨by omega, by omega⟩
      omega
    · have hlen := hx.length_lt hlist
      rw [InRange] at hn
      have heq : toInt32 n = n := toInt32_self hn.1 (by omega)
      exact ⟨heq, by omega⟩
  refine ⟨hstep, fun hd => ?_⟩
  by_contra hlt
  have hstring : typeOf h x ≠ .tString := by
    rw [hx.dotted hd]
    decide
  have hindex : srefIndex h x n = toInt32 n := if_pos (hx.dotted hd)
  have hrun := (hx.sref (n := n) table (.val (v := .nil) hstring)).2.2
  rw [hindex] at hrun
  exact (hmeets.inside .nil).1 (congrArg Prod.fst (hrun (by omega) hd))

theorem sref_meets_iff (table : Heap → Val → Val → Val → Except Stop Heap)
    (other : List Val → Except Stop Elt) (hx : Holds h x l d) :
    Meets table other h x l d i ↔ Kept l d i :=
  ⟨Meets.kept hx, Kept.meets table other hx⟩

/-- A memory in which every object is the pair `(1 . 2)`. -/
def pairs : Heap := fun _ => .cons (.fixnum 1) (.fixnum 2)

theorem pairs_holds : Holds pairs (.obj 0) [.val (.fixnum 1)] true := by
  have hchain : Chain pairs (.obj 0) [0] (.fixnum 2) :=
    ⟨rfl, .fixnum 1, .fixnum 2, rfl, rfl, by decide⟩
  exact .list hchain (List.cons_ne_nil 0 [])

theorem sref_meets_iff_pairs :
    Meets (fun h _ _ _ => .ok h) (fun _ => .error .outside) pairs (.obj 0) [.val (.fixnum 1)] true
      (.fixnum 0) ↔ Kept [.val (.fixnum 1)] true (.fixnum 0) :=
  sref_meets_iff _ _ pairs_holds

/-- The assignment at index 1 goes on to the number behind the last cons. -/
theorem pairs_outside : ¬ ∀ h x l d i, Holds h x l d →
    Meets (fun h _ _ _ => .ok h) (fun _ => .error .outside) h x l d i := by
  intro hall
  have hmeets := hall pairs (.obj 0) _ true (.fixnum 1) pairs_holds
  exact (hmeets.inside .nil).1 (by decide)

end Assignments

end Arcueid.Sref
