import Arcueid.Io
import Arcueid.Sio

/-! The rune that a port holds back: `arc_readc`, `arc_readb`, `arc_peekc` and
`arc_ungetc` over any operations of a port. -/

namespace Arcueid.Pushback

open Utf
open Sio (Res)

variable {σ : Type}

section Definitions

/-- The operations of a port on what lies below the rune held back. -/
structure IoOps (σ : Type) where
  closed_p : σ → Bool
  ready : σ → Bool
  getb : σ → Option Int × σ
  /-- `IO_FLAG_GETB_IS_GETC`. -/
  getbIsGetc : Bool
  closed_getb : ∀ s, closed_p (getb s).2 = closed_p s

/-- `ungetrune` is negative when nothing is held back. -/
structure Port (σ : Type) where
  ungetrune : Int
  below : σ

/-- What the trampoline goes on with. -/
inductive TrState where
  | resume
  | suspend
  | fnapp
  | rc
  deriving DecidableEq

/-- `__arc_thr_trampoline` takes the numbers that are no state for `TR_RC`. -/
def trState (state : Int) : TrState :=
  if state = 1 then .resume else if state = 3 then .suspend else if state = 5 then .fnapp else .rc

def int2fix (i : Int) : Int := 2 * i + 1

variable (o : IoOps σ)

/-- `arc_readb` with nothing held back. -/
def getb (s : σ) : Res × σ :=
  if o.ready s then ((o.getb s).1.elim .nil .fixnum, (o.getb s).2)
  else (.error "port is not ready for reading", s)

/-- `arc_readb`. The rune held back is not put into the value register, which has what
the check for a closed port left, but returned to the trampoline for a state. -/
def readb (p : Port σ) : Res × Port σ :=
  if o.closed_p p.below then (.error "port is closed", p)
  else if p.ungetrune ≥ 0 then
    match trState (int2fix p.ungetrune) with
    -- the function goes on behind the check, at once or when it is dispatched again
    | .resume | .suspend => ((getb o p.below).1, ⟨-1, (getb o p.below).2⟩)
    | .fnapp => (.error "cannot apply value", ⟨-1, p.below⟩)
    | .rc => (.nil, ⟨-1, p.below⟩)
  else ((getb o p.below).1, { p with below := (getb o p.below).2 })

/-- The loop of `arc_readc`, with `n` rounds left. -/
def readcLoop : Nat → List Byte → σ → Res × σ
  | 0, _, s => (.nil, s)
  | n + 1, cbuf, s =>
    if o.closed_p s then (.error "port is closed", s)
    else
      match getb o s with
      | (.fixnum chr, s) =>
        let cbuf := cbuf ++ [BitVec.ofInt 8 chr]
        if fullrune cbuf then (.char (chartorune cbuf).1, s) else readcLoop n cbuf s
      | r => r

/-- `arc_readc` with nothing held back. -/
def getc (s : σ) : Res × σ :=
  if o.getbIsGetc then (Res.ofRune (o.getb s).1, (o.getb s).2) else readcLoop o UTFmax [] s

/-- `arc_readc`. -/
def readc (p : Port σ) : Res × Port σ :=
  if o.closed_p p.below then (.error "port is closed", p)
  else if p.ungetrune ≥ 0 then (.char p.ungetrune, { p with ungetrune := -1 })
  else ((getc o p.below).1, { p with below := (getc o p.below).2 })

/-- `arc_ungetc`. -/
def ungetc (ch : Int) (p : Port σ) : Res × Port σ := (.char ch, { p with ungetrune := ch })

/-- `arc_peekc`; none where `arc_char2rune` reads through nil. -/
def peekc (p : Port σ) : Option (Res × Port σ) :=
  match readc o p with
  | (.char ch, p) => some (.char ch, { p with ungetrune := ch })
  | (.error fmt, p) => some (.error fmt, p)
  | _ => none

inductive Op where
  | readc
  | readb
  | peekc
  | ungetc (ch : Int)
  deriving DecidableEq

def step (p : Port σ) : Op → Option (Res × Port σ)
  | .readc => some (readc o p)
  | .readb => some (readb o p)
  | .peekc => peekc o p
  | .ungetc ch => some (ungetc ch p)

end Definitions

section Stream

/-- A stream with a place for a character that was put back. -/
structure Stream (σ : Type) where
  below : σ
  back : Option Int

variable (o : IoOps σ)

namespace Stream

def readc (t : Stream σ) : Res × Stream σ :=
  if o.closed_p t.below then (.error "port is closed", t)
  else match t.back with
    | some ch => (.char ch, { t with back := none })
    | none => ((getc o t.below).1, { t with below := (getc o t.below).2 })

def readb (t : Stream σ) : Res × Stream σ :=
  if o.closed_p t.below then (.error "port is closed", t)
  else match t.back with
    | some ch => (.fixnum ch, { t with back := none })
    | none => ((getb o t.below).1, { t with below := (getb o t.below).2 })

/-- Peeking returns what reading would, and changes nothing. -/
def step (t : Stream σ) : Op → Res × Stream σ
  | .readc => t.readc o
  | .readb => t.readb o
  | .peekc => ((t.readc o).1, t)
  | .ungetc ch => (.char ch, { t with back := some ch })

/-- One character at most is put back at a time. -/
def Single : Stream σ → List Op → Prop
  | _, [] => True
  | t, op :: ops => (∀ ch, op = .ungetc ch → t.back = none) ∧ Single (t.step o op).2 ops

end Stream

/-- The stream that a port is at first. -/
def Port.stream (p : Port σ) : Stream σ := ⟨p.below, if p.ungetrune ≥ 0 then some p.ungetrune else none⟩

/-- Step by step, the port returns what the stream does. -/
def Follows : Port σ → Stream σ → List Op → Prop
  | _, _, [] => True
  | p, t, op :: ops => ∃ p', step o p op = some ((t.step o op).1, p') ∧ Follows p' (t.step o op).2 ops

/-- No byte is read, and no character put back, while a rune is held back (by
`ungetc` or by `peekc`); a character that is put back is no negative number; and
`peekc` finds such a character, or a port that cannot be read. -/
def StepOk (p : Port σ) : Op → Prop
  | .readc => True
  | .readb => p.ungetrune < 0
  | .peekc => (∃ ch p', readc o p = (.char ch, p') ∧ 0 ≤ ch) ∨ ∃ fmt, readc o p = (.error fmt, p)
  | .ungetc ch => p.ungetrune < 0 ∧ 0 ≤ ch

def RunOk : Port σ → List Op → Prop
  | _, [] => True
  | p, op :: ops => StepOk o p op ∧ ∀ r p', step o p op = some (r, p') → RunOk p' ops

end Stream

section Runs

variable {o : IoOps σ} {p p' : Port σ} {t : Stream σ} {ops : List Op}

theorem closed_getb (s : σ) : o.closed_p (getb o s).2 = o.closed_p s := by
  rw [getb]
  split
  · exact o.closed_getb s
  · rfl

theorem closed_readcLoop (n : Nat) (cbuf : List Byte) (s : σ) :
    o.closed_p (readcLoop o n cbuf s).2 = o.closed_p s := by
  induction n generalizing cbuf s with
  | zero => rfl
  | succ n ih =>
    have hbyte := closed_getb (o := o) s
    rw [readcLoop]
    split
    · rfl
    split
    · rename_i chr s' hr
      rw [hr] at hbyte
      simp only
      split
      · exact hbyte
      · exact (ih _ s').trans hbyte
    · exact hbyte

theorem closed_getc (s : σ) : o.closed_p (getc o s).2 = o.closed_p s := by
  rw [getc]
  split
  · exact o.closed_getb s
  · exact closed_readcLoop UTFmax [] s

/-- The stream that a port stands for. A rune that was peeked at is still to be read. -/
inductive Represents (o : IoOps σ) : Port σ → Stream σ → Prop
  | empty {u : Int} {s : σ} (hu : u < 0) : Represents o ⟨u, s⟩ ⟨s, none⟩
  | pushed {ch : Int} {s : σ} (hch : 0 ≤ ch) : Represents o ⟨ch, s⟩ ⟨s, some ch⟩
  | peeked {ch : Int} {s s' : σ} (hch : 0 ≤ ch) (hopen : o.closed_p s = false)
      (hread : getc o s = (.char ch, s')) : Represents o ⟨ch, s'⟩ ⟨s, none⟩

theorem represents_stream (o : IoOps σ) (p : Port σ) : Represents o p p.stream := by
  obtain ⟨u, s⟩ := p
  by_cases hu : u ≥ 0
  · have hstream : (⟨u, s⟩ : Port σ).stream = ⟨s, some u⟩ := congrArg (Stream.mk s) (if_pos hu)
    rw [hstream]
    exact .pushed hu
  · have hstream : (⟨u, s⟩ : Port σ).stream = ⟨s, none⟩ := congrArg (Stream.mk s) (if_neg hu)
    rw [hstream]
    exact .empty (Int.not_le.mp hu)

theorem readc_of_closed (h : o.closed_p p.below = true) : readc o p = (.error "port is closed", p) := if_pos h

theorem readc_of_held (h : o.closed_p p.below = false) (hu : p.ungetrune ≥ 0) :
    readc o p = (.char p.ungetrune, { p with ungetrune := -1 }) := by
  rw [readc, h, if_pos hu]
  rfl

theorem readb_of_held (h : o.closed_p p.below = false) (hu : p.ungetrune ≥ 0) :
    readb o p = match trState (int2fix p.ungetrune) with
      | .resume | .suspend => ((getb o p.below).1, ⟨-1, (getb o p.below).2⟩)
      | .fnapp => (.error "cannot apply value", ⟨-1, p.below⟩)
      | .rc => (.nil, ⟨-1, p.below⟩) := by
  rw [readb, h, if_pos hu]
  rfl

theorem readc_of_empty (h : o.closed_p p.below = false) (hu : p.ungetrune < 0) :
    readc o p = ((getc o p.below).1, { p with below := (getc o p.below).2 }) := by
  rw [readc, h, if_neg (Int.not_le.mpr hu)]
  rfl

theorem Stream.readc_of_closed (h : o.closed_p t.below = true) : t.readc o = (.error "port is closed", t) := if_pos h

theorem Stream.readc_of_open (h : o.closed_p t.below = false) : t.readc o = match t.back with
    | some ch => (.char ch, { t with back := none })
    | none => ((getc o t.below).1, { t with below := (getc o t.below).2 }) := by
  rw [Stream.readc, h]
  rfl

theorem Represents.readc (h : Represents o p t) :
    (readc o p).1 = (t.readc o).1 ∧ Represents o (readc o p).2 (t.readc o).2 := by
  cases h with
  | @empty u s hu =>
    cases hclosed : o.closed_p s with
    | true =>
      rw [readc_of_closed hclosed, Stream.readc_of_closed hclosed]
      exact ⟨rfl, .empty hu⟩
    | false =>
      rw [readc_of_empty hclosed hu, Stream.readc_of_open hclosed]
      exact ⟨rfl, .empty hu⟩
  | @pushed ch s hch =>
    cases hclosed : o.closed_p s with
    | true =>
      rw [readc_of_closed hclosed, Stream.readc_of_closed hclosed]
      exact ⟨rfl, .pushed hch⟩
    | false =>
      rw [readc_of_held hclosed hch, Stream.readc_of_open hclosed]
      exact ⟨rfl, .empty (by decide)⟩
  | @peeked ch s s' hch hopen hread =>
    have hclosed : o.closed_p s' = false := by
      have hsame := closed_getc (o := o) s
      rw [hread, hopen] at hsame
      exact hsame
    rw [readc_of_held hclosed hch, Stream.readc_of_open hopen]
    refine ⟨?_, ?_⟩
    · simp only [hread]
    · simp only [hread]
      exact .empty (by decide)

theorem Represents.empty_of_neg (h : Represents o p t) (hp : p.ungetrune < 0) : t = ⟨p.below, none⟩ := by
  cases h with
  | empty hu => rfl
  | pushed hch => exact absurd hch (Int.not_le.mpr hp)
  | peeked hch => exact absurd hch (Int.not_le.mpr hp)

theorem Represents.peekc {ch : Int} (h : Represents o p t) (hread : Pushback.readc o p = (.char ch, p'))
    (hch : 0 ≤ ch) : Represents o { p' with ungetrune := ch } t := by
  cases h with
  | @empty u s hu =>
    cases hclosed : o.closed_p s with
    | true =>
      rw [readc_of_closed hclosed] at hread
      cases hread
    | false =>
      rw [readc_of_empty hclosed hu] at hread
      have hget : getc o s = (.char ch, p'.below) :=
        Prod.ext (Prod.mk.inj hread).1 (congrArg Port.below (Prod.mk.inj hread).2)
      exact .peeked hch hclosed hget
  | @pushed ch' s hch' =>
    cases hclosed : o.closed_p s with
    | true =>
      rw [readc_of_closed hclosed] at hread
      cases hread
    | false =>
      rw [readc_of_held hclosed hch'] at hread
      cases hread
      exact .pushed hch'
  | @peeked ch' s s' hch' hopen hget =>
    have hclosed : o.closed_p s' = false := by
      have hsame := closed_getc (o := o) s
      rw [hget, hopen] at hsame
      exact hsame
    rw [readc_of_held hclosed hch'] at hread
    cases hread
    exact .peeked hch' hopen hget

/-- One step of a port that meets the condition. -/
theorem Represents.step {op : Op} (h : Represents o p t) (hok : StepOk o p op) :
    ∃ p', step o p op = some ((t.step o op).1, p') ∧ Represents o p' (t.step o op).2 := by
  cases op with
  | readc =>
    obtain ⟨hres, hrep⟩ := h.readc
    refine ⟨(Pushback.readc o p).2, ?_, hrep⟩
    exact congrArg (fun r => some (r, (Pushback.readc o p).2)) hres
  | readb =>
    have hp : p.ungetrune < 0 := hok
    obtain rfl := h.empty_of_neg hp
    obtain ⟨u, s⟩ := p
    cases hclosed : o.closed_p s with
    | true =>
      have hcode : readb o ⟨u, s⟩ = (.error "port is closed", ⟨u, s⟩) := if_pos hclosed
      have hspec : Stream.readb o ⟨s, none⟩ = (.error "port is closed", ⟨s, none⟩) := if_pos hclosed
      refine ⟨⟨u, s⟩, ?_, ?_⟩
      · rw [Pushback.step, hcode, Stream.step, hspec]
      · rw [Stream.step, hspec]
        exact .empty hp
    | false =>
      have hcode : readb o ⟨u, s⟩ = ((getb o s).1, ⟨u, (getb o s).2⟩) := by
        rw [readb, hclosed, if_neg (Int.not_le.mpr hp)]
        rfl
      have hspec : Stream.readb o ⟨s, none⟩ = ((getb o s).1, ⟨(getb o s).2, none⟩) := by
        rw [Stream.readb, hclosed]
        rfl
      refine ⟨⟨u, (getb o s).2⟩, ?_, ?_⟩
      · rw [Pushback.step, hcode, Stream.step, hspec]
      · rw [Stream.step, hspec]
        exact .empty hp
  | peekc =>
    have hres : (Pushback.readc o p).1 = (t.readc o).1 := h.readc.1
    rcases hok with hchar | herror
    · obtain ⟨ch, p', hread, hch⟩ := hchar
      rw [hread] at hres
      refine ⟨{ p' with ungetrune := ch }, ?_, h.peekc hread hch⟩
      rw [Pushback.step, Pushback.peekc, hread, Stream.step, ← hres]
    · obtain ⟨fmt, hread⟩ := herror
      rw [hread] at hres
      refine ⟨p, ?_, h⟩
      rw [Pushback.step, Pushback.peekc, hread, Stream.step, ← hres]
  | ungetc ch =>
    obtain ⟨hp, hch⟩ := hok
    obtain rfl := h.empty_of_neg hp
    exact ⟨{ p with ungetrune := ch }, rfl, .pushed hch⟩

theorem RunOk.cons {op : Op} {r : Res} (hok : StepOk o p op) (hrun : step o p op = some (r, p'))
    (h : RunOk o p' ops) : RunOk o p (op :: ops) := by
  refine ⟨hok, fun r₁ p₁ hrun₁ => ?_⟩
  rw [hrun] at hrun₁
  cases hrun₁
  exact h

theorem Represents.follows (h : Represents o p t) (hok : RunOk o p ops) : Follows o p t ops := by
  induction ops generalizing p t with
  | nil => trivial
  | cons op ops ih =>
    obtain ⟨hstep, hrest⟩ := hok
    obtain ⟨p', hrun, hrep⟩ := h.step hstep
    exact ⟨p', hrun, ih hrep (hrest _ _ hrun)⟩

/-- In a run whose steps all meet the condition a port is read as a stream is to which
characters can be put back. -/
theorem follows_of_runOk (o : IoOps σ) (p : Port σ) (ops : List Op) (h : RunOk o p ops) :
    Follows o p p.stream ops := (represents_stream o p).follows h

end Runs

section Ports

theorem sioGetb_keeps {p p' : Sio.Port} {r : Option Sio.Rune} (h : Sio.sioGetb p = some (r, p')) :
    p'.closed = p.closed ∧ p'.ungetrune = p.ungetrune := by
  obtain ⟨len, -, h⟩ := Option.bind_eq_some_iff.mp h
  split at h
  · cases h
    exact ⟨rfl, rfl⟩
  · obtain ⟨str, -, h⟩ := Option.bind_eq_some_iff.mp h
    obtain ⟨c, -, h⟩ := Option.bind_eq_some_iff.mp h
    cases h
    exact ⟨rfl, rfl⟩

/-- The operations of string ports with a string. -/
def strio : IoOps Sio.Port where
  closed_p := Sio.Port.closed
  ready _ := true
  getb p := (Sio.sioGetb p).getD (none, p)
  getbIsGetc := true
  closed_getb p := by
    cases h : Sio.sioGetb p with
    | none => rfl
    | some r => exact (sioGetb_keeps h).1

/-- The operations of a file or a socket, whose bytes are there. -/
def byteio : IoOps Arcueid.Port where
  closed_p := Arcueid.Port.closed
  ready := Arcueid.Port.ready
  getb := Arcueid.Port.getb
  getbIsGetc := false
  closed_getb p := by
    rw [Arcueid.Port.getb]
    split <;> rfl

/-- A port with the rune it holds back apart. -/
def apart (p : Arcueid.Port) : Port Arcueid.Port :=
  ⟨p.ungetrune.elim (-1) (fun r => (r : Int)), { p with ungetrune := none }⟩

def outcome (r : Res × Port Arcueid.Port) : Except String (Option Int × Arcueid.Port) :=
  match r.1 with
  | .fixnum n => .ok (some n, r.2.below)
  | .error fmt => .error fmt
  | _ => .ok (none, r.2.below)

theorem arcReadb_apart (p : Arcueid.Port) : arcReadb p = outcome (readb byteio (apart p)) := by
  have hready : ∀ q : Arcueid.Port, readReady q = outcome ((getb byteio q).1, ⟨-1, (getb byteio q).2⟩) := by
    intro q
    rw [readReady, getb]
    cases hr : q.ready with
    | false => simp [byteio, hr, outcome, throw, throwThe, MonadExceptOf.throw]
    | true =>
      cases hg : q.getb with
      | mk b q' =>
        cases b with
        | none => simp [byteio, hr, hg, outcome, pure, Except.pure]
        | some b => simp [byteio, hr, hg, outcome, pure, Except.pure]
  have hstate : ∀ n : Nat, trState (int2fix ((n + 3 : Nat) : Int)) = .rc := by
    intro n
    have hne : ∀ k : Int, k ≤ 5 → ¬ int2fix ((n + 3 : Nat) : Int) = k := by
      intro k hk h
      rw [int2fix] at h
      omega
    rw [trState, if_neg (hne 1 (by decide)), if_neg (hne 3 (by decide)), if_neg (hne 5 (by decide))]
  obtain ⟨ops, outport, flag, held, closed, data⟩ := p
  cases closed with
  | true => rfl
  | false =>
    cases held with
    | none => exact hready ⟨ops, outport, flag, none, false, data⟩
    | some ch =>
      have hge : (ch : Int) ≥ 0 := Int.natCast_nonneg ch
      rw [readb_of_held (p := apart ⟨ops, outport, flag, some ch, false, data⟩) rfl hge]
      cases ch with
      | zero => exact hready ⟨ops, outport, flag, none, false, data⟩
      | succ ch =>
        cases ch with
        | zero => exact hready ⟨ops, outport, flag, none, false, data⟩
        | succ ch =>
          cases ch with
          | zero => rfl
          | succ n =>
            have hrc : trState (int2fix (apart ⟨ops, outport, flag, some (n + 3), false, data⟩).ungetrune) = .rc :=
              hstate n
            rw [hrc]
            rfl

/-- What `arc_readc` reads from a string port. -/
theorem readc_strio {p : Sio.Port} (h : (Sio.sioGetb p).isSome = true) :
    Sio.readc p = some ((readc strio ⟨p.ungetrune, p⟩).1,
      { (readc strio ⟨p.ungetrune, p⟩).2.below with
        ungetrune := (readc strio ⟨p.ungetrune, p⟩).2.ungetrune }) := by
  cases hc : p.closed with
  | true =>
    rw [readc_of_closed hc, Sio.readc, hc]
    rfl
  | false =>
    by_cases hu : p.ungetrune ≥ 0
    · rw [readc_of_held hc hu]
      simp [Sio.readc, hc, hu]
    · obtain ⟨r, hr⟩ := Option.isSome_iff_exists.mp h
      have hget : getc strio p = (Sio.Res.ofRune r.1, r.2) := by
        change (Res.ofRune ((Sio.sioGetb p).getD (none, p)).1, ((Sio.sioGetb p).getD (none, p)).2) = _
        rw [hr]
        rfl
      rw [readc_of_empty hc (Int.not_le.mp hu)]
      simp only [hget]
      rw [Sio.readc, hc, if_neg hu, hr, ← (sioGetb_keeps hr).2]
      rfl

end Ports

section Examples

theorem follows_of_runOk_instring : Follows strio ⟨-1, Sio.instring [97, 98]⟩
    (Port.stream ⟨-1, Sio.instring [97, 98]⟩) [.peekc, .readc, .ungetc 120, .readc, .readb, .readc] := by
  refine follows_of_runOk strio ⟨-1, Sio.instring [97, 98]⟩ _ ?_
  refine RunOk.cons (.inl ⟨97, _, rfl, by decide⟩) rfl ?_
  refine RunOk.cons trivial rfl ?_
  refine RunOk.cons ⟨by decide, by decide⟩ rfl ?_
  refine RunOk.cons trivial rfl ?_
  refine RunOk.cons (show (-1 : Int) < 0 by decide) rfl ?_
  exact RunOk.cons trivial rfl trivial

/-- A character that was put back is no byte that is read. -/
theorem readb_of_held_nil : ¬ ∀ (σ : Type) (o : IoOps σ) (p : Port σ) (ops : List Op),
    p.stream.Single o ops → Follows o p p.stream ops := by
  intro hall
  have hsingle : (Port.stream ⟨-1, Sio.instring [97]⟩).Single strio [.ungetc 120, .readb] := by
    refine ⟨fun ch _ => rfl, fun ch h => ?_, trivial⟩
    cases h
  obtain ⟨p₁, h₁, p₂, h₂, -⟩ := hall Sio.Port strio ⟨-1, Sio.instring [97]⟩ _ hsingle
  cases h₁
  cases h₂

end Examples

end Arcueid.Pushback
