import Arcueid.Lib.Narrowing

/-! String ports with their position (`sio.c`), under the operations on
characters of `io.c`. -/

namespace Arcueid.Sio

open Narrowing

abbrev Rune := Int

/-- A string port. `str` is none for nil, which an output port begins with;
`ungetrune` is -1 when nothing is pushed back. -/
structure Port where
  /-- `T_OUTPORT`, otherwise `T_INPORT`. -/
  outport : Bool
  closed : Bool
  str : Option (List Rune)
  idx : Int
  ungetrune : Rune
  deriving DecidableEq

/-- `mkstringio`. -/
def mkstringio (outport : Bool) (string : Option (List Rune)) : Port where
  outport := outport
  closed := false
  str := string
  idx := 0
  ungetrune := -1

def instring (string : List Rune) : Port := mkstringio false (some string)

def outstring : Port := mkstringio true none

/-- What an operation returns. -/
inductive Res where
  | nil
  | tru
  | char (r : Rune)
  | fixnum (n : Int)
  | string (str : List Rune)
  | error (fmt : String)
  deriving DecidableEq

def Res.ofRune : Option Rune → Res
  | none => .nil
  | some r => .char r

/-- An argument `whence`, which can be left out. -/
inductive Whence where
  | unbound
  | seekSet
  | seekCur
  | seekEnd
  | fixnum (n : Int)
  | other

section Primitives

/-- `arc_strlen`, which reads through what it is given. -/
def strlen : Option (List Rune) → Option Nat
  | some str => some str.length
  | none => none

/-- `sio_getb`. -/
def sioGetb (p : Port) : Option (Option Rune × Port) := do
  let len ← strlen p.str
  if p.idx ≥ len then some (none, p)
  else do
    let str ← p.str
    let r ← str[p.idx.toNat]?
    some (some r, { p with idx := p.idx + 1 })

/-- `sio_putb`. There is no string with more characters than an `int` counts. -/
def sioPutb (p : Port) (byte : Rune) : Option (Rune × Port) := do
  let str := p.str.getD []
  if p.idx ≥ str.length then
    if str.length + 1 < 2 ^ 31 then
      some (byte, { p with idx := str.length + 1, str := some (str ++ [byte]) })
    else none
  else some (byte, { p with str := some (str.set p.idx.toNat byte) })

/-- `sio_seek`, with an offset that is a fixnum. -/
def sioSeek (p : Port) (offset whence : Int) : Option (Res × Port) := do
  let len ← strlen p.str
  let store (noffset : Int) : Option (Res × Port) :=
    if noffset ≥ len ∨ noffset < 0 then some (.nil, p) else some (.tru, { p with idx := noffset })
  if whence = 0 then store (toInt32 offset)
  else if whence = 1 then store (toInt32 (offset + len))
  else if whence = 2 then store (toInt32 (len - offset))
  else some (.error "invalid seek whence argument", p)

/-- `sio_tell`. -/
def sioTell (p : Port) : Int := p.idx

end Primitives

section Operations

/-- `arc_readc`. -/
def readc (p : Port) : Option (Res × Port) :=
  if p.closed then some (.error "port is closed", p)
  else if p.ungetrune ≥ 0 then some (.char p.ungetrune, { p with ungetrune := -1 })
  else do
    let (r, p) ← sioGetb p
    some (Res.ofRune r, p)

/-- `arc_writec`. -/
def writec (p : Port) (chr : Rune) : Option (Res × Port) :=
  if p.outport = false then some (.error "argument is not an output port", p)
  else if p.closed then some (.error "port is closed", p)
  else do
    let (byte, p) ← sioPutb p chr
    some (.char byte, p)

/-- `arc_ungetc`. -/
def ungetc (p : Port) (ch : Rune) : Res × Port := (.char ch, { p with ungetrune := ch })

/-- `arc_seek`. The whence of `stdio.h` are 0, 1 and 2. -/
def seek (p : Port) (offset : Int) (whence : Whence) : Option (Res × Port) :=
  match whence with
  | .unbound | .seekSet => sioSeek p offset 0
  | .seekCur => sioSeek p offset 1
  | .seekEnd => sioSeek p offset 2
  | .fixnum n => sioSeek p offset n
  | .other => some (.error "invalid seek whence argument", p)

/-- `arc_tell`. -/
def tell (p : Port) : Res := .fixnum (sioTell p)

/-- `arc_inside`. -/
def inside (p : Port) : Res := .string (p.str.getD [])

end Operations

/-- An operation on a string port. -/
inductive Op where
  | writec (chr : Rune)
  | readc
  | ungetc (ch : Rune)
  | seekSet (offset : Int)
  | seekCur (offset : Int)
  | tell
  | inside

/-- A step on a port; none where the memory is read outside of a string. -/
def step (p : Port) : Op → Option (Res × Port)
  | .writec chr => writec p chr
  | .readc => readc p
  | .ungetc ch => some (ungetc p ch)
  | .seekSet offset => seek p offset .seekSet
  | .seekCur offset => seek p offset .seekCur
  | .tell => some (tell p, p)
  | .inside => some (inside p, p)

end Arcueid.Sio
