import Mathlib.Data.List.Basic
import Arcueid.Sio

/-! String ports against an array with a position and a place for a character
that was pushed back. -/

namespace Arcueid.Sio

open Narrowing

/-- An array of characters with a position in it, or at its end. -/
structure Tape where
  outport : Bool
  chars : List Rune
  pos : Nat
  back : Option Rune

namespace Tape

/-- The character at the position is replaced, or one appended. -/
def write (t : Tape) (chr : Rune) : Tape :=
  { t with chars := t.chars.take t.pos ++ chr :: t.chars.drop (t.pos + 1), pos := t.pos + 1 }

def read (t : Tape) : Res × Tape :=
  match t.back, t.chars[t.pos]? with
  | some r, _ => (.char r, { t with back := none })
  | none, some r => (.char r, { t with pos := t.pos + 1 })
  | none, none => (.nil, t)

/-- A seek to a position within bounds. -/
def seek (t : Tape) (pos : Int) : Res × Tape := (.tru, { t with pos := pos.toNat, back := none })

def step (t : Tape) : Op → Res × Tape
  | .writec chr =>
    if t.outport then (.char chr, t.write chr) else (.error "argument is not an output port", t)
  | .readc => t.read
  | .ungetc ch => (.char ch, { t with back := some ch })
  | .seekSet offset => t.seek offset
  | .seekCur offset => t.seek (t.pos + offset)
  | .tell => (.fixnum t.pos, t)
  | .inside => (.string t.chars, t)

/-- A seek goes to the position of a character. -/
def InBounds (t : Tape) : Op → Prop
  | .seekSet offset => 0 ≤ offset ∧ offset < t.chars.length
  | .seekCur offset => 0 ≤ t.pos + offset ∧ t.pos + offset < t.chars.length
  | _ => True

instance (t : Tape) : (op : Op) → Decidable (t.InBounds op)
  | .seekSet _ => inferInstanceAs (Decidable (_ ∧ _))
  | .seekCur _ => inferInstanceAs (Decidable (_ ∧ _))
  | .writec _ | .readc | .ungetc _ | .tell | .inside => isTrue trivial

/-- Every seek of a run is within bounds. -/
def Within : Tape → List Op → Prop
  | _, [] => True
  | t, op :: ops => t.InBounds op ∧ (t.step op).2.Within ops

end Tape

/-- The array that a port stands for. -/
structure Represents (p : Port) (t : Tape) : Prop where
  outport : p.outport = t.outport
  opened : p.closed = false
  chars : p.str.getD [] = t.chars
  length_lt : t.chars.length < 2 ^ 31
  idx : p.idx = t.pos
  pos_le : t.pos ≤ t.chars.length
  back : t.back = if 0 ≤ p.ungetrune then some p.ungetrune else none

/-- Step by step, the port returns what the array does, and stands for it. -/
def Follows : Port → Tape → List Op → Prop
  | _, _, [] => True
  | p, t, op :: ops => ∃ p', step p op = some ((t.step op).1, p') ∧ Represents p' (t.step op).2 ∧
      Follows p' (t.step op).2 ops

/-- A write is at the end of the string, which can be made longer; a seek comes
while nothing is pushed back, and one from the position while this is the end; a
read has a string to read from; and no negative rune is pushed back. -/
def StepOk (p : Port) : Op → Prop
  | .writec _ => p.outport = true →
      (p.str.getD []).length ≤ p.idx ∧ (p.str.getD []).length + 1 < 2 ^ 31
  | .readc => p.str ≠ none ∨ 0 ≤ p.ungetrune
  | .ungetc ch => 0 ≤ ch
  | .seekSet _ => p.ungetrune < 0
  | .seekCur _ => p.ungetrune < 0 ∧ (p.str.getD []).length ≤ p.idx
  | .tell | .inside => True

def RunOk : Port → List Op → Prop
  | _, [] => True
  | p, op :: ops => StepOk p op ∧ ∀ r p', step p op = some (r, p') → RunOk p' ops

section Steps

variable {p p' : Port} {t : Tape} {op : Op} {ops : List Op}

theorem represents_instring {str : List Rune} (hstr : str.length < 2 ^ 31) :
    Represents (instring str) ⟨false, str, 0, none⟩ :=
  ⟨rfl, rfl, rfl, hstr, rfl, Nat.zero_le _, rfl⟩

theorem represents_outstring : Represents outstring ⟨true, [], 0, none⟩ :=
  ⟨rfl, rfl, rfl, by decide, rfl, Nat.le_refl _, rfl⟩

theorem Represents.back_none (h : Represents p t) (hp : p.ungetrune < 0) : t.back = none := by
  rw [h.back, if_neg (Int.not_le.mpr hp)]

theorem Represents.back_some (h : Represents p t) (hp : 0 ≤ p.ungetrune) :
    t.back = some p.ungetrune := by
  rw [h.back, if_pos hp]

/-- Only an empty port has no string. -/
theorem Represents.str (h : Represents p t) (ht : t.chars ≠ []) : p.str = some t.chars := by
  have hchars := h.chars
  cases hstr : p.str with
  | none =>
    rw [hstr] at hchars
    exact absurd hchars.symm ht
  | some str =>
    rw [hstr] at hchars
    exact congrArg some hchars

/-- What a step must be for the port to go on as the array does. -/
def StepFollows (p : Port) (t : Tape) (op : Op) : Prop :=
  ∃ p', step p op = some ((t.step op).1, p') ∧ Represents p' (t.step op).2

theorem Represents.putb_iff (h : Represents p t) (hout : p.outport = true) (chr : Rune) :
    (∃ p', sioPutb p chr = some (chr, p') ∧ Represents p' (t.write chr)) ↔
      StepOk p (.writec chr) := by
  have hpos := h.pos_le
  rw [StepOk, h.chars, h.idx]
  by_cases hend : (t.pos : Int) ≥ t.chars.length
  · have hputb : sioPutb p chr = if t.chars.length + 1 < 2 ^ 31 then
        some (chr, { p with idx := t.chars.length + 1, str := some (t.chars ++ [chr]) }) else none := by
      simp only [sioPutb, h.chars, h.idx, if_pos hend]
    have hat : t.pos = t.chars.length := by omega
    have hwrite : (t.write chr).chars = t.chars ++ [chr] := by
      rw [Tape.write, hat, List.take_length, List.drop_eq_nil_of_le (Nat.le_succ _)]
    rw [hputb]
    constructor
    · rintro ⟨p', hrun, -⟩ -
      split_ifs at hrun with hlen
      exact ⟨hend, hlen⟩
    · intro hok
      obtain ⟨-, hlen⟩ := hok hout
      refine ⟨_, if_pos hlen, h.outport, h.opened, hwrite.symm, ?_, ?_, ?_, h.back⟩
      · rw [hwrite, List.length_append]
        exact hlen
      · rw [← hat]
        rfl
      · rw [hwrite, List.length_append]
        exact Nat.succ_le_succ hpos
  · have hputb : sioPutb p chr = some (chr, { p with str := some (t.chars.set p.idx.toNat chr) }) := by
      simp only [sioPutb, h.chars, h.idx, if_neg hend]
    refine iff_of_false ?_ fun hok => hend (hok hout).1
    rintro ⟨p', hrun, h'⟩
    rw [hputb] at hrun
    obtain ⟨-, rfl⟩ := Prod.mk.inj (Option.some.inj hrun)
    -- the position has stayed where it was
    have hidx : p.idx = ((t.pos + 1 : Nat) : Int) := h'.idx
    rw [h.idx] at hidx
    omega

theorem Represents.writec_iff (h : Represents p t) (chr : Rune) :
    StepFollows p t (.writec chr) ↔ StepOk p (.writec chr) := by
  by_cases hout : p.outport = true
  · have hres : t.step (.writec chr) = (.char chr, t.write chr) := if_pos (h.outport ▸ hout)
    have hrun : step p (.writec chr) = (sioPutb p chr).map fun r => (.char r.1, r.2) := by
      simp only [step, writec, hout, h.opened]
      cases sioPutb p chr <;> rfl
    rw [StepFollows, hres, hrun, ← h.putb_iff hout]
    refine exists_congr fun p' => and_congr_left fun _ => ?_
    rw [Option.map_eq_some_iff]
    constructor
    · rintro ⟨⟨r, q⟩, hq, heq⟩
      obtain ⟨hr, rfl⟩ := Prod.mk.inj heq
      obtain rfl : r = chr := Res.char.inj hr
      exact hq
    · intro hq
      exact ⟨_, hq, rfl⟩
  · have hin : p.outport = false := Bool.eq_false_of_not_eq_true hout
    have hres : t.step (.writec chr) = (.error "argument is not an output port", t) :=
      if_neg (h.outport ▸ hout)
    rw [StepFollows, hres]
    exact iff_of_true ⟨p, if_pos hin, h⟩ fun hc => absurd hc hout

theorem Represents.readc_iff (h : Represents p t) :
    StepFollows p t .readc ↔ StepOk p .readc := by
  have hopen : ¬ p.closed = true := by simp [h.opened]
  by_cases hback : 0 ≤ p.ungetrune
  · have hrun : step p .readc = some (.char p.ungetrune, { p with ungetrune := -1 }) := by
      simp only [step, readc, if_neg hopen, if_pos hback]
    have hres : t.step .readc = (.char p.ungetrune, { t with back := none }) := by
      simp only [Tape.step, Tape.read, h.back_some hback]
    rw [StepFollows, hres, hrun]
    exact iff_of_true ⟨_, rfl, h.outport, h.opened, h.chars, h.length_lt, h.idx, h.pos_le, rfl⟩ (.inr hback)
  · have hnone := h.back_none (Int.not_le.mp hback)
    cases hstr : p.str with
    | none =>
      have hrun : step p .readc = none := by
        simp only [step, readc, if_neg hopen, if_neg hback, sioGetb, hstr, strlen]
        rfl
      rw [StepFollows, hrun]
      refine iff_of_false ?_ ?_
      · rintro ⟨p', hc, -⟩
        cases hc
      · rintro (hc | hc)
        · exact hc hstr
        · exact hback hc
    | some str =>
      have hchars : str = t.chars := by
        have hchars := h.chars
        rwa [hstr] at hchars
      subst hchars
      refine iff_of_true ?_ (.inl (by rw [hstr]; exact Option.some_ne_none _))
      have hpos := h.pos_le
      have hrun : step p .readc = (sioGetb p).map fun r => (Res.ofRune r.1, r.2) := by
        simp only [step, readc, if_neg hopen, if_neg hback]
        cases sioGetb p <;> rfl
      rw [StepFollows, hrun]
      by_cases hend : t.pos = t.chars.length
      · have hge : (t.pos : Int) ≥ t.chars.length := by omega
        have hgetb : sioGetb p = some (none, p) := by
          simp only [sioGetb, hstr, strlen, h.idx, Option.bind_eq_bind, Option.bind_some, if_pos hge]
        have hres : t.step .readc = (.nil, t) := by
          simp only [Tape.step, Tape.read, hnone, List.getElem?_eq_none (Nat.le_of_eq hend.symm)]
        rw [hgetb, hres]
        exact ⟨p, rfl, h⟩
      · have hlt : t.pos < t.chars.length := by omega
        have hge : ¬ (t.pos : Int) ≥ t.chars.length := by omega
        have hget := List.getElem?_eq_getElem hlt
        have hgetb : sioGetb p = some (some t.chars[t.pos], { p with idx := p.idx + 1 }) := by
          simp only [sioGetb, hstr, strlen, h.idx, Option.bind_eq_bind, Option.bind_some, if_neg hge,
            Int.toNat_natCast, hget]
        have hres : t.step .readc = (.char t.chars[t.pos], { t with pos := t.pos + 1 }) := by
          simp only [Tape.step, Tape.read, hnone, hget]
        rw [hgetb, hres]
        refine ⟨_, rfl, h.outport, h.opened, h.chars, h.length_lt, ?_, hlt, h.back⟩
        change p.idx + 1 = _
        rw [h.idx]
        rfl

/-- A seek in a string that is not empty. -/
theorem Represents.sioSeek (h : Represents p t) (ht : t.chars ≠ []) (offset whence target : Int)
    (hwhence : whence = 0 ∧ target = toInt32 offset ∨
      whence = 1 ∧ target = toInt32 (offset + t.chars.length)) :
    Sio.sioSeek p offset whence = if target ≥ t.chars.length ∨ target < 0 then some (.nil, p)
      else some (.tru, { p with idx := target }) := by
  simp only [Sio.sioSeek, h.str ht, strlen, Option.bind_eq_bind, Option.bind_some]
  rcases hwhence with ⟨rfl, rfl⟩ | ⟨rfl, rfl⟩
  · rw [if_pos rfl]
  · rw [if_neg (by decide), if_pos rfl]

/-- The port is set to a position of the array. -/
theorem Represents.seek_to (h : Represents p t) {n : Int} (hn : 0 ≤ n) (hlt : n < t.chars.length) :
    Represents { p with idx := n } (t.seek n).2 ↔ p.ungetrune < 0 := by
  constructor
  · intro h'
    by_contra hback
    have hnone : none = some p.ungetrune := h'.back.trans (if_pos (Int.not_lt.mp hback))
    cases hnone
  · intro hback
    refine ⟨h.outport, h.opened, h.chars, h.length_lt, ?_, ?_, (if_neg (Int.not_le.mpr hback)).symm⟩
    · exact (Int.toNat_of_nonneg hn).symm
    · change n.toNat ≤ t.chars.length
      omega

theorem ne_nil_of_inBounds {n : Int} (hn : 0 ≤ n) (hlt : n < t.chars.length) : t.chars ≠ [] := by
  rintro hnil
  rw [hnil, List.length_nil] at hlt
  omega

theorem Represents.seekSet_iff (h : Represents p t) {offset : Int}
    (hin : t.InBounds (.seekSet offset)) :
    StepFollows p t (.seekSet offset) ↔ StepOk p (.seekSet offset) := by
  obtain ⟨hn, hlt⟩ := hin
  have hlen := h.length_lt
  have hself : toInt32 offset = offset := toInt32_self hn (by omega)
  have hrun : step p (.seekSet offset) = some (.tru, { p with idx := offset }) := by
    refine (h.sioSeek (ne_nil_of_inBounds hn hlt) offset 0 offset (.inl ⟨rfl, hself.symm⟩)).trans ?_
    exact if_neg (by omega)
  rw [StepOk, ← h.seek_to hn hlt, StepFollows, hrun]
  constructor
  · rintro ⟨p', hp', h'⟩
    obtain ⟨-, rfl⟩ := Prod.mk.inj (Option.some.inj hp')
    exact h'
  · intro h'
    exact ⟨_, rfl, h'⟩

theorem Represents.seekCur_iff (h : Represents p t) {offset : Int}
    (hin : t.InBounds (.seekCur offset)) :
    StepFollows p t (.seekCur offset) ↔ StepOk p (.seekCur offset) := by
  obtain ⟨hn, hlt⟩ := hin
  have hlen := h.length_lt
  have hpos := h.pos_le
  have hrun := h.sioSeek (ne_nil_of_inBounds hn hlt) offset 1 _ (.inr ⟨rfl, rfl⟩)
  change step p (.seekCur offset) = _ at hrun
  rw [StepOk, h.chars, h.idx, ← h.seek_to hn hlt]
  by_cases hend : (t.chars.length : Int) ≤ t.pos
  · have hat : offset + t.chars.length = t.pos + offset := by omega
    have hself : toInt32 (offset + t.chars.length) = t.pos + offset := by
      rw [hat, toInt32_self hn (by omega)]
    rw [hself, if_neg (by omega)] at hrun
    rw [StepFollows, hrun]
    constructor
    · rintro ⟨p', hp', h'⟩
      obtain ⟨-, rfl⟩ := Prod.mk.inj (Option.some.inj hp')
      exact ⟨h', hend⟩
    · rintro ⟨h', -⟩
      exact ⟨_, rfl, h'⟩
  · -- the offset is taken from the end
    refine iff_of_false ?_ fun hok => hend hok.2
    rintro ⟨p', hp', h'⟩
    rw [hrun] at hp'
    split_ifs at hp' with hout
    · cases (Prod.mk.inj (Option.some.inj hp')).1
    · obtain ⟨-, rfl⟩ := Prod.mk.inj (Option.some.inj hp')
      have hidx : toInt32 (offset + t.chars.length) = ((t.pos + offset).toNat : Int) := h'.idx
      obtain ⟨q, hq, -, -⟩ := toInt32_spec (offset + t.chars.length)
      omega

theorem Represents.step_iff (h : Represents p t) (hin : t.InBounds op) :
    StepFollows p t op ↔ StepOk p op := by
  cases op with
  | writec chr => exact h.writec_iff chr
  | readc => exact h.readc_iff
  | ungetc ch =>
    constructor
    · rintro ⟨p', hstep, h'⟩
      obtain ⟨-, rfl⟩ := Prod.mk.inj (Option.some.inj hstep)
      have hback := h'.back
      by_contra hneg
      exact absurd (hback.trans (if_neg hneg)) (Option.some_ne_none ch)
    · intro hch
      exact ⟨_, rfl, h.outport, h.opened, h.chars, h.length_lt, h.idx, h.pos_le, (if_pos hch).symm⟩
  | seekSet offset => exact h.seekSet_iff hin
  | seekCur offset => exact h.seekCur_iff hin
  | tell =>
    refine iff_of_true ⟨p, ?_, h⟩ trivial
    simp only [step, tell, sioTell, Tape.step, h.idx]
  | inside =>
    refine iff_of_true ⟨p, ?_, h⟩ trivial
    simp only [step, inside, Tape.step, h.chars]

/-- A port goes on as the array for as long as its steps are of that kind. -/
theorem follows_iff_runOk (h : Represents p t) (hops : t.Within ops) :
    Follows p t ops ↔ RunOk p ops := by
  induction ops generalizing p t with
  | nil => exact Iff.rfl
  | cons op ops ih =>
    obtain ⟨hin, hops⟩ := hops
    have hstep := h.step_iff hin
    constructor
    · rintro ⟨p', hrun, h', hrest⟩
      refine ⟨hstep.mp ⟨p', hrun, h'⟩, fun r q hq => ?_⟩
      obtain ⟨-, rfl⟩ := Prod.mk.inj (Option.some.inj (hrun.symm.trans hq))
      exact (ih h' hops).mp hrest
    · rintro ⟨hok, hrest⟩
      obtain ⟨p', hrun, h'⟩ := hstep.mpr hok
      exact ⟨p', hrun, h', (ih h' hops).mpr (hrest _ p' hrun)⟩

theorem follows_iff_runOk_appended :
    Follows outstring ⟨true, [], 0, none⟩ [.writec 97, .writec 98, .seekSet 1, .readc] ↔
      RunOk outstring [.writec 97, .writec 98, .seekSet 1, .readc] :=
  follows_iff_runOk represents_outstring ⟨trivial, trivial, by decide, trivial, trivial⟩

/-- Two characters are written over those at the start of a string, both to the
same position. -/
theorem overwrite_stays : Represents outstring ⟨true, [], 0, none⟩ ∧
    (⟨true, [], 0, none⟩ : Tape).Within
      [.writec 97, .writec 98, .seekSet 0, .writec 120, .writec 121, .inside] ∧
    ¬ Follows outstring ⟨true, [], 0, none⟩
      [.writec 97, .writec 98, .seekSet 0, .writec 120, .writec 121, .inside] := by
  refine ⟨represents_outstring, ⟨trivial, trivial, by decide, trivial, trivial, trivial, trivial⟩, ?_⟩
  rintro ⟨p₁, h₁, -, p₂, h₂, -, p₃, h₃, -, p₄, h₄, hpos, -⟩
  obtain rfl := (Prod.mk.inj (Option.some.inj h₁)).2
  obtain rfl := (Prod.mk.inj (Option.some.inj h₂)).2
  obtain rfl := (Prod.mk.inj (Option.some.inj h₃)).2
  obtain rfl := (Prod.mk.inj (Option.some.inj h₄)).2
  exact absurd hpos.idx (by decide)

end Steps

end Arcueid.Sio
