import Mathlib.Algebra.Order.Ring.Nat
import Mathlib.Tactic.SplitIfs
import Arcueid.Lib.StreamCodec

/-! The codec between runes and bytes: `chartorune`, `runetochar` and
`fullrune`. Runes are naturals: the source's are signed words, and none below
zero is written or read. -/

namespace Arcueid

/-- A C `char`. -/
abbrev Byte := BitVec 8

namespace Utf

/-- Maximum bytes per rune. -/
def UTFmax : Nat := 6

/-- The rune that stands for a decoding error. -/
def Runeerror : Nat := 0x80

def Bit1 : Nat := 7
def Bitx : Nat := 6
def Bit2 : Nat := 5
def Bit3 : Nat := 4
def Bit4 : Nat := 3
def Bit5 : Nat := 2
def Bit6 : Nat := 1
def Bit7 : Nat := 0

def Tx : Nat := ((1 <<< (Bitx + 1)) - 1) ^^^ 0xFF
def T2 : Nat := ((1 <<< (Bit2 + 1)) - 1) ^^^ 0xFF
def T3 : Nat := ((1 <<< (Bit3 + 1)) - 1) ^^^ 0xFF
def T4 : Nat := ((1 <<< (Bit4 + 1)) - 1) ^^^ 0xFF
def T5 : Nat := ((1 <<< (Bit5 + 1)) - 1) ^^^ 0xFF
def T6 : Nat := ((1 <<< (Bit6 + 1)) - 1) ^^^ 0xFF
def T7 : Nat := ((1 <<< (Bit7 + 1)) - 1) ^^^ 0xFF

def Rune1 : Nat := (1 <<< (Bit1 + 0 * Bitx)) - 1
def Rune2 : Nat := (1 <<< (Bit2 + 1 * Bitx)) - 1
def Rune3 : Nat := (1 <<< (Bit3 + 2 * Bitx)) - 1
def Rune4 : Nat := (1 <<< (Bit4 + 3 * Bitx)) - 1
def Rune5 : Nat := (1 <<< (Bit5 + 4 * Bitx)) - 1
def Rune6 : Nat := 0x7FFFFFFF

def Maskx : Nat := (1 <<< Bitx) - 1
def Testx : Nat := Maskx ^^^ 0xFF

theorem Tx_eq : Tx = 0x80 := rfl
theorem T2_eq : T2 = 0xC0 := rfl
theorem T3_eq : T3 = 0xE0 := rfl
theorem T4_eq : T4 = 0xF0 := rfl
theorem Rune1_eq : Rune1 = 0x7F := rfl
theorem Rune2_eq : Rune2 = 0x7FF := rfl
theorem Rune3_eq : Rune3 = 0xFFFF := rfl
theorem Rune4_eq : Rune4 = 0x1FFFFF := rfl

/-- The byte at `i`, unsigned. Past the bytes that were read, `cbuf` holds
what was there before; 0 here. -/
def byteAt (str : List Byte) (i : Nat) : Nat := (str.getD i 0).toNat

/-- The rune at the head of `str`, and how many bytes it takes. -/
def chartorune (str : List Byte) : Nat × Nat :=
  let bad := (Runeerror, 1)
  let c := byteAt str 0
  if c < Tx then (c, 1) else
  let c1 := byteAt str 1 ^^^ Tx
  if c1 &&& Testx ≠ 0 then bad else
  if c < T3 then
    if c < T2 then bad else
    let l := (c <<< Bitx ||| c1) &&& Rune2
    if l ≤ Rune1 then bad else (l, 2)
  else
  let c2 := byteAt str 2 ^^^ Tx
  if c2 &&& Testx ≠ 0 then bad else
  if c < T4 then
    let l := ((c <<< Bitx ||| c1) <<< Bitx ||| c2) &&& Rune3
    if l ≤ Rune2 ∨ (0xd800 ≤ l ∧ l ≤ 0xdfff) then bad else (l, 3)
  else
  let c3 := byteAt str 3 ^^^ Tx
  if c3 &&& Testx ≠ 0 then bad else
  if c < T5 then
    let l := (((c <<< Bitx ||| c1) <<< Bitx ||| c2) <<< Bitx ||| c3) &&& Rune4
    if l ≤ Rune3 then bad else (l, 4)
  else
  let c4 := byteAt str 4 ^^^ Tx
  if c4 &&& Testx ≠ 0 then bad else
  if c < T6 then
    let l := ((((c <<< Bitx ||| c1) <<< Bitx ||| c2) <<< Bitx ||| c3) <<< Bitx ||| c4) &&& Rune5
    if l ≤ Rune4 then bad else (l, 5)
  else
  let c5 := byteAt str 5 ^^^ Tx
  if c5 &&& Testx ≠ 0 then bad else
  if c < T7 then
    let l := (((((c <<< Bitx ||| c1) <<< Bitx ||| c2) <<< Bitx ||| c3) <<< Bitx ||| c4)
      <<< Bitx ||| c5) &&& Rune6
    if l ≤ Rune5 then bad else (l, 6)
  else bad

/-- The bytes of a rune, none when it is invalid. -/
def runetochar (c : Nat) : List Byte :=
  if c ≤ Rune1 then [BitVec.ofNat 8 c]
  else if c ≤ Rune2 then
    [BitVec.ofNat 8 (T2 ||| c >>> (1 * Bitx)), BitVec.ofNat 8 (Tx ||| (c &&& Maskx))]
  else if c < Rune3 then
    [BitVec.ofNat 8 (T3 ||| c >>> (2 * Bitx)), BitVec.ofNat 8 (Tx ||| (c >>> (1 * Bitx) &&& Maskx)),
     BitVec.ofNat 8 (Tx ||| (c &&& Maskx))]
  else if c < Rune4 then
    -- the prefix is that of a three byte sequence
    [BitVec.ofNat 8 (T3 ||| c >>> (3 * Bitx)), BitVec.ofNat 8 (Tx ||| (c >>> (2 * Bitx) &&& Maskx)),
     BitVec.ofNat 8 (Tx ||| (c >>> (1 * Bitx) &&& Maskx)), BitVec.ofNat 8 (Tx ||| (c &&& Maskx))]
  else if c < Rune5 then
    [BitVec.ofNat 8 (T5 ||| c >>> (4 * Bitx)), BitVec.ofNat 8 (Tx ||| (c >>> (3 * Bitx) &&& Maskx)),
     BitVec.ofNat 8 (Tx ||| (c >>> (2 * Bitx) &&& Maskx)),
     BitVec.ofNat 8 (Tx ||| (c >>> (1 * Bitx) &&& Maskx)), BitVec.ofNat 8 (Tx ||| (c &&& Maskx))]
  else if c < Rune6 then
    [BitVec.ofNat 8 (T6 ||| c >>> (5 * Bitx)), BitVec.ofNat 8 (Tx ||| (c >>> (4 * Bitx) &&& Maskx)),
     BitVec.ofNat 8 (Tx ||| (c >>> (3 * Bitx) &&& Maskx)),
     BitVec.ofNat 8 (Tx ||| (c >>> (2 * Bitx) &&& Maskx)),
     BitVec.ofNat 8 (Tx ||| (c >>> (1 * Bitx) &&& Maskx)), BitVec.ofNat 8 (Tx ||| (c &&& Maskx))]
  else []

/-- Whether the `n` bytes of `str` hold a whole rune. -/
def fullrune (str : List Byte) : Bool :=
  let n := str.length
  if n > 0 then
    let c := byteAt str 0
    if c < Tx then true
    else if (c > T5 ∧ n > 5) ∨ (c > T4 ∧ n > 4) ∨ (c > T3 ∧ n > 3) then true
    else if n > 1 then decide (c < T3 ∨ n > 2)
    else false
  else false

def ucisspace (cc : Nat) : Bool :=
  (0x0009 ≤ cc && cc ≤ 0x000d) || cc == 0x20 || cc == 0x0085 || cc == 0x00a0 || cc == 0x1680 ||
    cc == 0x180e || (0x2000 ≤ cc && cc ≤ 0x200a) || cc == 0x2028 || cc == 0x2029 ||
    cc == 0x202f || cc == 0x205f || cc == 0x3000

def ucisnl (cc : Nat) : Bool :=
  cc == 0x000d || cc == 0x000a || cc == 0x0085 || cc == 0x000c || cc == 0x2028 || cc == 0x2029

def ucisalnum (cc : Nat) : Bool :=
  cc ≤ 0x007f && (('0'.toNat ≤ cc && cc ≤ '9'.toNat) || ('A'.toNat ≤ cc && cc ≤ 'Z'.toNat) ||
    ('a'.toNat ≤ cc && cc ≤ 'z'.toNat))

@[simp] theorem byteAt_cons_zero (b : Byte) (bs : List Byte) : byteAt (b :: bs) 0 = b.toNat := rfl

@[simp] theorem byteAt_cons_succ (b : Byte) (bs : List Byte) (i : Nat) :
    byteAt (b :: bs) (i + 1) = byteAt bs i := rfl

theorem or_Tx {x : Nat} (h : x < 64) :
    (BitVec.ofNat 8 (Tx ||| x)).toNat ^^^ Tx = x ∧ x &&& Testx = 0 := by
  decide +revert

theorem and_Maskx (x : Nat) : x &&& Maskx = x % 64 := Nat.and_two_pow_sub_one_eq_mod x 6

theorem shiftRight_Bitx (x k : Nat) : x >>> (k * Bitx) = x / 64 ^ k := by
  rw [Nat.shiftRight_eq_div_pow, show k * Bitx = 6 * k by rw [Bitx, Nat.mul_comm], Nat.pow_mul]

theorem shiftLeft_Bitx_or {a b : Nat} (h : b < 64) : a <<< Bitx ||| b = a * 64 + b := by
  rw [← Nat.shiftLeft_add_eq_or_of_lt (show b < 2 ^ Bitx from h), Nat.shiftLeft_eq]
  rfl

theorem T2_or {x : Nat} (h : x < 32) : (BitVec.ofNat 8 (T2 ||| x)).toNat = T2 + x := by
  decide +revert

theorem T3_or {x : Nat} (h : x < 16) : (BitVec.ofNat 8 (T3 ||| x)).toNat = T3 + x := by
  decide +revert

theorem runetochar_one {c : Nat} (h : c ≤ Rune1) : runetochar c = [BitVec.ofNat 8 c] := if_pos h

theorem runetochar_two {c : Nat} (h1 : Rune1 < c) (h2 : c ≤ Rune2) :
    runetochar c =
      [BitVec.ofNat 8 (T2 ||| c / 64), BitVec.ofNat 8 (Tx ||| c % 64)] := by
  rw [runetochar, if_neg (by omega), if_pos h2, shiftRight_Bitx, and_Maskx, Nat.pow_one]

theorem runetochar_three {c : Nat} (h2 : Rune2 < c) (h3 : c < Rune3) :
    runetochar c =
      [BitVec.ofNat 8 (T3 ||| c / 4096), BitVec.ofNat 8 (Tx ||| c / 64 % 64),
       BitVec.ofNat 8 (Tx ||| c % 64)] := by
  have h1 : Rune1 < c := by rw [Rune1_eq]; rw [Rune2_eq] at h2; omega
  rw [runetochar, if_neg (by omega), if_neg (by omega), if_pos h3, shiftRight_Bitx,
    shiftRight_Bitx, and_Maskx, and_Maskx, Nat.pow_one, show 64 ^ 2 = 4096 from rfl]

theorem length_runetochar_four {c : Nat} (h3 : Rune3 ≤ c) (h4 : c < Rune4) :
    (runetochar c).length = 4 := by
  rw [Rune3_eq] at h3
  rw [runetochar, if_neg (by rw [Rune1_eq]; omega), if_neg (by rw [Rune2_eq]; omega),
    if_neg (by rw [Rune3_eq]; omega), if_pos h4]
  rfl

/-- The runes below `Rune3` that are no surrogates decode to themselves. -/
theorem chartorune_runetochar {c : Nat} (h : c < Rune3) (hs : ¬ (0xd800 ≤ c ∧ c ≤ 0xdfff)) :
    chartorune (runetochar c) = (c, (runetochar c).length) := by
  rw [Rune3_eq] at h
  by_cases h1 : c ≤ Rune1
  · have hc : (BitVec.ofNat 8 c).toNat = c := by
      rw [Rune1_eq] at h1
      rw [BitVec.toNat_ofNat]
      omega
    rw [Rune1_eq] at h1
    rw [runetochar_one h1, chartorune]
    simp only [byteAt_cons_zero, hc]
    rw [if_pos (by rw [Tx_eq]; omega)]
    rfl
  by_cases h2 : c ≤ Rune2
  · rw [runetochar_two (by omega) h2]
    rw [Rune1_eq] at h1
    rw [Rune2_eq] at h2
    obtain ⟨hx, ht⟩ := or_Tx (show c % 64 < 64 by omega)
    have hl : (T2 + c / 64) * 64 + c % 64 = 2048 * 6 + c := by rw [T2_eq]; omega
    have hm : (2048 * 6 + c) &&& Rune2 = c := by
      rw [show Rune2 = 2 ^ 11 - 1 from rfl, Nat.and_two_pow_sub_one_eq_mod]
      omega
    simp only [chartorune, byteAt_cons_zero, byteAt_cons_succ, T2_or (show c / 64 < 32 by omega),
      hx, ht, shiftLeft_Bitx_or (show c % 64 < 64 by omega), hl, hm]
    rw [if_neg (by rw [T2_eq, Tx_eq]; omega), if_neg (by omega),
      if_pos (by rw [T2_eq, T3_eq]; omega), if_neg (by omega), if_neg (by rw [Rune1_eq]; omega)]
    rfl
  · rw [runetochar_three (by omega) (by rw [Rune3_eq]; omega)]
    rw [Rune2_eq] at h2
    obtain ⟨hx, ht⟩ := or_Tx (show c / 64 % 64 < 64 by omega)
    obtain ⟨hy, hu⟩ := or_Tx (show c % 64 < 64 by omega)
    have hl : ((T3 + c / 4096) * 64 + c / 64 % 64) * 64 + c % 64 = 65536 * 14 + c := by
      rw [T3_eq]; omega
    have hm : (65536 * 14 + c) &&& Rune3 = c := by
      rw [show Rune3 = 2 ^ 16 - 1 from rfl, Nat.and_two_pow_sub_one_eq_mod]
      omega
    simp only [chartorune, byteAt_cons_zero, byteAt_cons_succ, T3_or (show c / 4096 < 16 by omega),
      hx, ht, hy, hu, shiftLeft_Bitx_or (show c % 64 < 64 by omega),
      shiftLeft_Bitx_or (show c / 64 % 64 < 64 by omega), hl, hm]
    rw [if_neg (by rw [T3_eq, Tx_eq]; omega), if_neg (by omega), if_neg (by omega),
      if_neg (by omega), if_pos (by rw [T3_eq, T4_eq]; omega),
      if_neg (by rw [Rune2_eq]; omega)]
    rfl

theorem runetochar_ne_nil {c : Nat} (h : c < Rune4) : runetochar c ≠ [] := by
  rw [runetochar]
  split_ifs <;> simp

theorem length_runetochar_le {c : Nat} (h : c < Rune4) : (runetochar c).length ≤ 4 := by
  rw [runetochar]
  split_ifs <;> simp

theorem fullrune_one {b : Byte} : fullrune [b] = decide (b.toNat < Tx) := by
  simp only [fullrune, List.length_singleton, byteAt_cons_zero]
  split_ifs <;> simp_all

theorem fullrune_two {b b' : Byte} : fullrune [b, b'] = decide (b.toNat < T3) := by
  have hTx : Tx < T3 := by decide
  simp only [fullrune, List.length_cons, List.length_nil, byteAt_cons_zero]
  split_ifs <;> simp_all <;> omega

/-- Whatever its lead byte, three bytes are taken for a whole rune. -/
theorem fullrune_three {str : List Byte} (h : str.length = 3) : fullrune str = true := by
  simp only [fullrune, h]
  split_ifs <;> simp_all

theorem fullrune_runetochar {c : Nat} (h : c < Rune3) : fullrune (runetochar c) = true := by
  rw [Rune3_eq] at h
  by_cases h1 : c ≤ Rune1
  · rw [runetochar_one h1, fullrune_one, BitVec.toNat_ofNat]
    rw [Rune1_eq] at h1
    exact decide_eq_true (by rw [Tx_eq]; omega)
  by_cases h2 : c ≤ Rune2
  · rw [runetochar_two (by omega) h2, fullrune_two]
    rw [Rune2_eq] at h2
    rw [T2_or (show c / 64 < 32 by omega)]
    exact decide_eq_true (by rw [T2_eq, T3_eq]; omega)
  · exact fullrune_three (by rw [runetochar_three (by omega) (by rw [Rune3_eq]; omega)]; rfl)

/-- No proper prefix of a rune below `Rune3` is taken for a whole rune. -/
theorem fullrune_prefix {c : Nat} (h : c < Rune3) {u v : List Byte} (huv : u ++ v = runetochar c)
    (hu : u ≠ []) (hv : v ≠ []) : fullrune u = false := by
  rw [Rune3_eq] at h
  by_cases h1 : c ≤ Rune1
  · rw [runetochar_one h1] at huv
    have hlen := congrArg List.length huv
    simp only [List.length_append, List.length_singleton] at hlen
    have := List.length_pos_of_ne_nil hu
    have := List.length_pos_of_ne_nil hv
    omega
  by_cases h2 : c ≤ Rune2
  · rw [runetochar_two (by omega) h2] at huv
    rw [Rune2_eq] at h2
    match u, hu with
    | [b], _ =>
      obtain rfl : b = _ := (List.cons.inj huv).1
      rw [fullrune_one, T2_or (show c / 64 < 32 by omega)]
      exact decide_eq_false (by rw [T2_eq, Tx_eq]; omega)
    | b :: b' :: u, _ => simp_all
  · rw [runetochar_three (by omega) (by rw [Rune3_eq]; omega)] at huv
    have hlead := T3_or (show c / 4096 < 16 by omega)
    match u, hu with
    | [b], _ =>
      obtain rfl : b = _ := (List.cons.inj huv).1
      rw [fullrune_one, hlead]
      exact decide_eq_false (by rw [T3_eq, Tx_eq]; omega)
    | [b, b'], _ =>
      obtain rfl : b = _ := (List.cons.inj huv).1
      rw [fullrune_two, hlead]
      exact decide_eq_false (by rw [T3_eq]; omega)
    | b :: b' :: b'' :: u, _ => simp_all

open StreamCodec in
/-- The reader's loop reads a rune below `Rune3` back, whatever follows it. -/
theorem pull_runetochar {c : Nat} (h : c < Rune3) (rest : List Byte) :
    pull fullrune UTFmax [] (runetochar c ++ rest) = some (runetochar c, rest) := by
  have h4 : c < Rune4 := by rw [Rune3_eq] at h; rw [Rune4_eq]; omega
  have hlen := length_runetochar_le h4
  exact pull_word (show _ ≤ 6 by omega) (runetochar_ne_nil h4) (fullrune_runetochar h)
    fun _ _ huv hu hv => fullrune_prefix h huv hu hv

open StreamCodec in
theorem pull_fullrune_length_le {bs w rest : List Byte}
    (h : pull fullrune UTFmax [] bs = some (w, rest)) : w.length ≤ 3 :=
  pull_length_le_of_full (fun _ => fullrune_three) (by simp) h

end Utf

end Arcueid
