import Arcueid.CompilerHeights
import Arcueid.Inline
import Arcueid.NumberSums

/-! Inlined operators against the functions bound to their names. -/

namespace Arcueid

open Outcome Numeral

variable {F : Type} {flo : Floats F}

/-- An outcome without the text of its error. -/
def untext {α : Type} : Except Stop α → Except Stop α
  | .error (.error _) => .error (.error "")
  | x => x

/-- The computations end alike: with one value and one memory, or with an
error each. -/
def Alike {α : Type} (x y : ArcM flo α) (h : Heap flo) : Prop := untext (x h) = untext (y h)

namespace Val

/-- Values that can be added to a string. -/
def isText : Val flo → Bool
  | .nil | .char _ | .string _ => true
  | _ => false

def isNumber : Val flo → Bool
  | .number _ => true
  | _ => false

end Val

/-- The conversion of the values to strings, one after another, ends in an
error. -/
def ConversionFails (h : Heap flo) (vs : List (Val flo)) : Prop :=
  ∃ msg, vs.mapM (arcCoerceString h) = .error (.error msg)

/-- What may be added to a string: text only, or values that both ways of
adding refuse. -/
def AfterString (h : Heap flo) (vs : List (Val flo)) : Prop :=
  (∀ v ∈ vs, v.isText = true) ∨
    ((vs.find? fun v => !v.isText).all fun v => !v.isNumber) = true ∧ ConversionFails h vs

/-- What may be added to nil. -/
def AfterNil (h : Heap flo) : List (Val flo) → Prop
  | .nil :: vs => AfterNil h vs
  | .string _ :: vs | .char _ :: vs => AfterString h vs
  | _ => True

/-- The arguments for which `+` does the same inlined and as a function. -/
def PlusAgrees (h : Heap flo) : List (Val flo) → Prop
  | [] | .cons _ :: _ => True
  | .nil :: vs => AfterNil h vs
  | .string _ :: vs => AfterString h vs
  | [.char _] => False
  | .char _ :: v :: vs => v.isText = true → ConversionFails h vs
  | .symbol _ :: vs | .other _ _ :: vs => vs ≠ []
  | .number x :: vs => ∀ ys, vs = ys.map .number → ¬ Num.SumFromZeroDiffers flo (x :: ys)

section Alike

variable {α β : Type} {x y : ArcM flo α} {k l : α → ArcM flo β} {h : Heap flo}

theorem Alike.refl : Alike x x h := rfl

theorem Alike.bind (hxy : Alike x y h) (hkl : ∀ a h', Alike (k a) (l a) h') :
    Alike (x >>= k) (y >>= l) h := by
  change untext (x h >>= fun p => k p.1 p.2) = untext (y h >>= fun p => l p.1 p.2)
  unfold Alike at hxy
  cases hx : x h with
  | ok p =>
    cases hy : y h with
    | ok q =>
      rw [hx, hy] at hxy
      cases hxy
      exact hkl p.1 p.2
    | error e =>
      rw [hx, hy] at hxy
      cases e <;> cases hxy
  | error d =>
    cases hy : y h with
    | ok q =>
      rw [hx, hy] at hxy
      cases d <;> cases hxy
    | error e =>
      rw [hx, hy] at hxy
      cases d <;> cases e <;> first | rfl | cases hxy

theorem Alike.bind_same (hkl : ∀ a h', x h = .ok (a, h') → Alike (k a) (l a) h') :
    Alike (x >>= k) (x >>= l) h := by
  change untext (x h >>= fun p => k p.1 p.2) = untext (x h >>= fun p => l p.1 p.2)
  cases hx : x h with
  | ok p => exact hkl p.1 p.2 hx
  | error e => rfl

theorem Alike.foldlM {f g : Val flo → Val flo → ArcM flo (Val flo)} (hfg : ∀ a v h, Alike (f a v) (g a v) h)
    (vs : List (Val flo)) (a : Val flo) : Alike (vs.foldlM f a) (vs.foldlM g a) h := by
  induction vs generalizing a h with
  | nil => exact .refl
  | cons v vs ih => exact (hfg a v h).bind fun b _ => ih b

end Alike

section Operators

variable {h : Heap flo}

theorem arith_error {op : Num flo → Num flo → Except Stop (Num flo)} {v w : Val flo}
    (hvw : v.isNumber = false ∨ w.isNumber = false) :
    untext (v.arith op w h) = .error (.error "") := by
  cases v with
  | number x =>
    cases w with
    | number y => simp [Val.isNumber] at hvw
    | _ => rfl
  | _ => rfl

theorem mul2_alike (hflo : flo.Lawful) (v w : Val flo) (h : Heap flo) :
    Alike (mul2 v w) (mul2 w v) h := by
  by_cases hvw : v.isNumber = false ∨ w.isNumber = false
  · exact (arith_error hvw).trans (arith_error hvw.symm).symm
  · cases v with
    | number x =>
      cases w with
      | number y =>
        have hxy : mul2 (.number x) (.number y) = mul2 (.number y) (.number x) := by
          simp only [mul2, Val.arith, Num.mul_comm hflo x y]
        rw [hxy]
        exact .refl
      | _ => simp [Val.isNumber] at hvw
    | _ => simp [Val.isNumber] at hvw

/-- All operators but `+` agree on all arguments. -/
theorem inlineOp_alike (hflo : flo.Lawful) {op : Operator} (hop : op ≠ .plus) (args : List (Val flo)) :
    Alike (inlineOp op args) (applyFn op args) h := by
  cases op with
  | plus => exact absurd rfl hop
  | minus => rcases args with _ | ⟨v, _ | _⟩ <;> rfl
  | div => rcases args with _ | ⟨v, _ | _⟩ <;> rfl
  | times => exact .foldlM (fun prod v h => mul2_alike hflo prod v h) args _
  | cons => rcases args with _ | ⟨v, _ | ⟨w, _ | _⟩⟩ <;> rfl
  | car =>
    rcases args with _ | ⟨v, _ | _⟩
    · rfl
    · cases v <;> rfl
    · rfl
  | cdr =>
    rcases args with _ | ⟨v, _ | _⟩
    · rfl
    · cases v <;> rfl
    · rfl

end Operators

section Strings

variable {h : Heap flo} {v : Val flo} {vs : List (Val flo)} {s : List Nat}

theorem add2String_eq (s : List Nat) (v : Val flo) (h : Heap flo) :
    add2String s v h = (arcCoerceString h v).map fun t => (.string (s ++ t), h) := by
  change (do
    let p ← (liftM (arcCoerceString h v) : ArcM flo (List Nat)) h
    pure (Val.string (s ++ p.1), p.2)) = _
  cases arcCoerceString h v <;> rfl

theorem foldlM_iadd_string (s : List Nat) (vs : List (Val flo)) :
    vs.foldlM iadd (.string s) h =
      (vs.mapM (arcCoerceString h)).map fun ts => (.string (s ++ ts.flatten), h) := by
  induction vs generalizing s with
  | nil =>
    rw [List.foldlM_nil, List.mapM_nil, pure_apply]
    simp only [pure, Except.pure, Except.map, List.flatten_nil, List.append_nil]
  | cons v vs ih =>
    rw [List.foldlM_cons, List.mapM_cons]
    change (add2String s v h >>= fun p => vs.foldlM iadd p.1 p.2) = _
    rw [add2String_eq]
    cases arcCoerceString h v with
    | error e => rfl
    | ok t =>
      change vs.foldlM iadd (.string (s ++ t)) h = _
      rw [ih]
      cases vs.mapM (arcCoerceString h) with
      | error e => rfl
      | ok ts => simp [Except.map, bind, Except.bind, pure, Except.pure]

theorem add2_text (hv : v.isText = true) (s : List Nat) :
    ∃ t, arcCoerceString h v = .ok t ∧ add2 (.string s) v = pure (.string (s ++ t)) := by
  cases v with
  | nil => exact ⟨[], rfl, by simp [add2]⟩
  | char r => exact ⟨[r], rfl, rfl⟩
  | string t => exact ⟨t, rfl, rfl⟩
  | _ => simp [Val.isText] at hv

theorem conversionFails_cons (hv : v.isText = true) :
    ConversionFails h (v :: vs) ↔ ConversionFails h vs := by
  obtain ⟨t, ht, -⟩ := add2_text (h := h) hv []
  unfold ConversionFails
  rw [List.mapM_cons, ht]
  cases vs.mapM (arcCoerceString h) <;> simp [bind, Except.bind, pure, Except.pure]

theorem afterString_cons (hv : v.isText = true) : AfterString h (v :: vs) ↔ AfterString h vs := by
  unfold AfterString
  rw [conversionFails_cons hv, List.find?_cons_of_neg (by simp [hv]), List.forall_mem_cons]
  simp [hv]

/-- Inlined, and with a string so far, the sum ends in an error if a conversion does. -/
theorem untext_iadd_string :
    untext (vs.foldlM iadd (.string s) h) = .error (.error "") ↔ ConversionFails h vs := by
  rw [foldlM_iadd_string, ConversionFails]
  cases vs.mapM (arcCoerceString h) with
  | ok ts => simp [Except.map, untext]
  | error e => cases e <;> simp [Except.map, untext]

theorem coerceString_defined (h : Heap flo) (n : Nat) (v : Val flo) :
    coerceString h n v ≠ .error .undefined := by
  induction n generalizing v with
  | zero =>
    intro h0
    cases v <;> cases h0
  | succ n ih =>
    cases v with
    | cons a =>
      rw [coerceString]
      cases hs : coerceString h n (h.cell a).1 with
      | error e =>
        intro he
        cases he
        exact ih _ hs
      | ok s =>
        cases hcdr : (h.cell a).2 with
        | cons b =>
          cases ht : coerceString h n (.cons b) with
          | error e =>
            intro he
            simp only [bind, Except.bind, ht] at he
            cases he
            exact ih _ ht
          | ok t => simp [bind, Except.bind, ht, pure, Except.pure]
        | _ =>
          intro he
          cases he
    | _ =>
      intro he
      cases he

theorem untext_iadd_defined (vs : List (Val flo)) :
    untext (vs.foldlM iadd (.string s) h) ≠ .error .undefined := by
  have hdefined : vs.mapM (arcCoerceString h) ≠ .error .undefined := by
    induction vs with
    | nil => nofun
    | cons v vs ih =>
      rw [List.mapM_cons]
      intro he
      cases hv : arcCoerceString h v with
      | error e =>
        rw [hv] at he
        cases he
        exact coerceString_defined _ _ _ hv
      | ok t =>
        rw [hv] at he
        cases hvs : vs.mapM (arcCoerceString h) with
        | error e =>
          rw [hvs] at he
          cases he
          exact ih hvs
        | ok ts =>
          rw [hvs] at he
          cases he
  rw [foldlM_iadd_string]
  cases hvs : vs.mapM (arcCoerceString h) with
  | ok ts => nofun
  | error e => cases e <;> simp_all [Except.map, untext]

theorem alike_string_iff (s : List Nat) (vs : List (Val flo)) :
    Alike (vs.foldlM iadd (.string s)) (vs.foldlM add2 (.string s)) h ↔ AfterString h vs := by
  induction vs generalizing s with
  | nil => simp [AfterString, Alike]
  | cons v vs ih =>
    by_cases hv : v.isText = true
    · obtain ⟨t, ht, hadd⟩ := add2_text (h := h) hv s
      have hiadd : iadd (.string s) v h = .ok (.string (s ++ t), h) := by
        change add2String s v h = _
        rw [add2String_eq, ht]
        rfl
      rw [afterString_cons hv, ← ih (s ++ t), Alike, Alike, List.foldlM_cons, List.foldlM_cons, hadd]
      change untext (iadd (.string s) v h >>= fun p => vs.foldlM iadd p.1 p.2) = _ ↔ _
      rw [hiadd]
      exact Iff.rfl
    · have hafter : AfterString h (v :: vs) ↔
          v.isNumber = false ∧ ConversionFails h (v :: vs) := by
        unfold AfterString
        rw [List.find?_cons_of_pos (by simp [hv])]
        simp [hv]
      rw [hafter, ← untext_iadd_string (s := s), Alike]
      cases v with
      | number x =>
        exact ⟨fun heq => absurd heq (untext_iadd_defined _), fun heq => absurd heq.1 (by simp [Val.isNumber])⟩
      | cons a => exact ⟨fun heq => ⟨rfl, heq⟩, fun heq => heq.2⟩
      | symbol name => exact ⟨fun heq => ⟨rfl, heq⟩, fun heq => heq.2⟩
      | other t i => exact ⟨fun heq => ⟨rfl, heq⟩, fun heq => heq.2⟩
      | _ => simp [Val.isText] at hv

end Strings

section Sums

variable {h : Heap flo} {v : Val flo} {vs : List (Val flo)}

theorem add2_cons {a : Nat} {w : Val flo} {h' : Heap flo} (hw : add2 (.cons a) v h = .ok (w, h')) :
    w = .cons a := by
  cases v with
  | nil =>
    cases hw
    rfl
  | cons b =>
    obtain ⟨_, _, -, hw⟩ := yields_bind hw
    obtain ⟨_, _, -, hw⟩ := yields_bind hw
    obtain ⟨_, _, -, hw⟩ := yields_bind hw
    exact (yields_pure_iff.mp hw).1.symm
  | _ => cases hw

theorem alike_cons (a : Nat) (vs : List (Val flo)) :
    Alike (vs.foldlM iadd (.cons a)) (vs.foldlM add2 (.cons a)) h := by
  induction vs generalizing h with
  | nil => exact .refl
  | cons v vs ih =>
    apply Alike.bind_same
    intro w h' hw
    rw [add2_cons hw]
    exact ih

theorem alike_nil_iff (vs : List (Val flo)) :
    Alike (vs.foldlM iadd .nil) (vs.foldlM add2 .nil) h ↔ AfterNil h vs := by
  induction vs with
  | nil => exact iff_of_true .refl trivial
  | cons v vs ih =>
    cases v with
    | nil => exact ih
    | char r => exact alike_string_iff [r] vs
    | string s => exact alike_string_iff s vs
    | cons a => exact iff_of_true (alike_cons a vs) trivial
    | _ => exact iff_of_true rfl trivial

theorem add2_numbers (x y : Num flo) :
    add2 (.number x) (.number y) = pure (.number (x.add y)) := by
  cases x with
  | fixnum m => cases y <;> rfl
  | _ => rfl

section Numbers

variable {f : Val flo → Val flo → ArcM flo (Val flo)}
  (hf : ∀ x v, f (.number x) v = add2 (.number x) v)

include hf

theorem foldlM_numbers (x : Num flo) (ys : List (Num flo)) :
    (ys.map Val.number).foldlM f (.number x) = pure (.number (ys.foldl Num.add x)) := by
  induction ys generalizing x with
  | nil => rfl
  | cons y ys ih =>
    rw [List.map_cons, List.foldlM_cons, hf, add2_numbers, pure_bind, ih]
    rfl

theorem foldlM_not_numbers (hvs : ¬ ∃ ys : List (Num flo), vs = ys.map .number) (x : Num flo) :
    untext (vs.foldlM f (.number x) h) = .error (.error "") := by
  induction vs generalizing x with
  | nil => exact absurd ⟨[], rfl⟩ hvs
  | cons v vs ih =>
    cases v with
    | number y =>
      have hrest : ¬ ∃ ys : List (Num flo), vs = ys.map .number := by
        rintro ⟨ys, rfl⟩
        exact hvs ⟨y :: ys, rfl⟩
      rw [List.foldlM_cons, hf, add2_numbers, pure_bind]
      exact ih hrest _
    | _ =>
      rw [List.foldlM_cons, hf]
      rfl

end Numbers

/-- The two ways of evaluating `+` end alike for the arguments that agree, and
for no others. -/
theorem plus_alike_iff (hflo : flo.Lawful) (args : List (Val flo)) :
    Alike (inlineOp .plus args) (applyFn .plus args) h ↔ PlusAgrees h args := by
  rcases args with _ | ⟨v, vs⟩
  · exact iff_of_true .refl trivial
  · cases v with
    | nil => exact alike_nil_iff vs
    | string s => exact alike_string_iff s vs
    | cons a => exact iff_of_true (alike_cons a vs) trivial
    | number x =>
      have hiadd : ∀ x (v : Val flo), iadd (.number x) v = add2 (.number x) v := fun _ _ => rfl
      have happly : applyFn .plus (.number x :: vs) =
          vs.foldlM add2 (.number ((Num.ofInt 0).add x)) := by
        change (Val.number x :: vs).foldlM add2 (.number (Num.ofInt 0)) = _
        rw [List.foldlM_cons, add2_numbers, pure_bind]
      rw [Alike, happly]
      change untext (vs.foldlM iadd (.number x) h) = _ ↔ _
      by_cases hvs : ∃ ys : List (Num flo), vs = ys.map .number
      · obtain ⟨ys, rfl⟩ := hvs
        rw [foldlM_numbers hiadd, foldlM_numbers (fun _ _ => rfl)]
        have hinj : Function.Injective (Val.number : Num flo → Val flo) := by
          intro y z hyz
          cases hyz
          rfl
        have hagrees : PlusAgrees h (.number x :: ys.map .number) ↔
            ¬ Num.SumFromZeroDiffers flo (x :: ys) := by
          constructor
          · intro hall
            exact hall ys rfl
          · intro hys zs hzs
            obtain rfl := List.map_injective_iff.mpr hinj hzs
            exact hys
        rw [hagrees, ← Num.foldl_add_iff hflo x ys]
        constructor
        · intro heq
          have hout := Except.ok.inj heq
          exact Val.number.inj (Prod.mk.inj hout).1
        · intro heq
          rw [heq]
      · rw [foldlM_not_numbers hiadd hvs, foldlM_not_numbers (fun _ _ => rfl) hvs]
        exact iff_of_true rfl fun ys hys => absurd ⟨ys, hys⟩ hvs
    | char r =>
      rcases vs with _ | ⟨w, vs⟩
      · exact iff_of_false nofun id
      · have hstring : ∀ s, Alike (vs.foldlM iadd (.string s)) (throw (.error "") : ArcM flo (Val flo)) h ↔
            ConversionFails h vs := fun s => untext_iadd_string
        cases w with
        | nil => exact (hstring [r]).trans ⟨fun hc _ => hc, fun hc => hc rfl⟩
        | char r' => exact (hstring [r, r']).trans ⟨fun hc _ => hc, fun hc => hc rfl⟩
        | string t => exact (hstring (r :: t)).trans ⟨fun hc _ => hc, fun hc => hc rfl⟩
        | _ => exact iff_of_true rfl nofun
    | symbol name => 
      rcases vs with _ | ⟨w, vs⟩
      · exact iff_of_false nofun fun hne => hne rfl
      · exact iff_of_true rfl (by simp [PlusAgrees])
    | other t i =>
      rcases vs with _ | ⟨w, vs⟩
      · exact iff_of_false nofun fun hne => hne rfl
      · exact iff_of_true rfl (by simp [PlusAgrees])

end Sums

/-- Evaluating a form with its operator inlined ends as applying the function
does, but for `+` on the arguments that `PlusAgrees` leaves out: there the
inlined operator converts to strings, and does not start from a sum, where the
function fails or starts from 0. -/
theorem inlined_alike_iff {W : Type} (hflo : flo.Lawful) (host : Host W) (fuel : Nat) (s : State W)
    (op : Operator) (args : List (Val flo)) (h : Heap flo) :
    Alike (inlined host (fuel + 1) s op args) (applyFn op args) h ↔
      (op = .plus → PlusAgrees h args) := by
  rw [inlined_eq]
  by_cases hop : op = .plus
  · subst hop
    simpa using plus_alike_iff hflo args
  · exact iff_of_true (inlineOp_alike hflo hop args) fun hplus => absurd hplus hop

/-- Signed zeros and the other numbers, without rounding. -/
inductive Signed where
  | negZero
  | val (q : ℚ)
  deriving DecidableEq

namespace Signed

def toRat : Signed → ℚ
  | negZero => 0
  | val q => q

def negative : Signed → Bool
  | negZero => true
  | val q => decide (q < 0)

def add : Signed → Signed → Signed
  | negZero, f => f
  | f, negZero => f
  | val q, val r => val (q + r)

def sub : Signed → Signed → Signed
  | negZero, negZero => val 0
  | val q, negZero => val q
  | negZero, val r => if r = 0 then negZero else val (-r)
  | val q, val r => val (q - r)

/-- A number with this value, -0.0 if it is 0 and negative. -/
def make (q : ℚ) (neg : Bool) : Signed := if q = 0 ∧ neg = true then negZero else val q

def mul (f g : Signed) : Signed := make (f.toRat * g.toRat) (f.negative != g.negative)

def div (f g : Signed) : Signed := make (f.toRat / g.toRat) (f.negative != g.negative)

def floats : Floats Signed where
  ofFixnum n := val n
  ofBignum n := val n
  ofRational q := val q
  negZero := negZero
  add := add
  sub := sub
  mul := mul
  div := div
  cmul z w := (sub (mul z.1 w.1) (mul z.2 w.2), add (mul z.1 w.2) (mul z.2 w.1))
  cdiv z w :=
    let d := add (mul w.1 w.1) (mul w.2 w.2)
    (div (add (mul z.1 w.1) (mul z.2 w.2)) d, div (sub (mul z.2 w.1) (mul z.1 w.2)) d)
  isZero f := f.toRat = 0
  text f := fixnumText f.toRat.num
  complexText z := fixnumText z.1.toRat.num

theorem mul_comm (f g : Signed) : mul f g = mul g f := by
  rw [mul, mul, Rat.mul_comm, bne_comm]

theorem add_comm (f g : Signed) : add f g = add g f := by
  cases f <;> cases g <;> simp [add, Rat.add_comm]

theorem lawful : floats.Lawful where
  add_comm := add_comm
  mul_comm := mul_comm
  cmul_comm z w := by
    change (sub (mul z.1 w.1) (mul z.2 w.2), add (mul z.1 w.2) (mul z.2 w.1)) =
      (sub (mul w.1 z.1) (mul w.2 z.2), add (mul w.1 z.2) (mul w.2 z.1))
    rw [mul_comm z.1, mul_comm z.2, mul_comm z.1, mul_comm z.2, add_comm]
  negZero_add f := rfl
  zero_add f hf := by
    cases f with
    | negZero => exact absurd rfl hf
    | val q => simp [Floats.zero, floats, add]
  ofFixnum_ne n := nofun
  ofBignum_ne n := nofun
  ofRational_ne q := nofun

end Signed

/-- `(+ 2 0.5)`. -/
def twoHalf : List (Val Signed.floats) := [.fix 2, .number (.flonum (.val (1 / 2)))]

theorem inlined_alike_twoHalf :
    Alike (inlined plainHost 1 ⟨[], 0, ()⟩ .plus twoHalf) (applyFn .plus twoHalf) [] := by
  refine (inlined_alike_iff Signed.lawful plainHost 0 ⟨[], 0, ()⟩ .plus twoHalf []).mpr fun _ => ?_
  have htwo : (Num.ofInt 2 : Num Signed.floats) = .fixnum ⟨2, by decide⟩ := dif_pos (by decide)
  rintro ys - (⟨q, hq, -⟩ | hall | hall | hall)
  · rw [htwo] at hq
    cases hq
  · exact absurd (htwo.symm.trans (hall _ List.mem_cons_self)) nofun
  · obtain ⟨im, him⟩ := hall _ List.mem_cons_self
    exact absurd (htwo.symm.trans him) nofun
  · obtain ⟨re, hre⟩ := hall _ List.mem_cons_self
    exact absurd (htwo.symm.trans hre) nofun

/-- The characters `a` and `b` add up to a string where `+` is inlined only. -/
theorem chars_not_alike :
    ¬ Alike (inlined plainHost 1 ⟨[], 0, ()⟩ .plus [(.char 97 : Val Signed.floats), .char 98])
      (applyFn .plus [.char 97, .char 98]) [] := by
  rw [Alike, inlined_eq]
  nofun

end Arcueid
