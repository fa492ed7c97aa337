import Arcueid.Utf

/-! Ports: `arc_readb`, `arc_readc`, `arc_writeb` and `arc_writec` over the
operations of string, file and socket ports. -/

namespace Arcueid

open Utf

/-- The operations a port has. -/
inductive IoOps where
  | strio
  | fp
  | sock
  deriving DecidableEq

structure Port where
  io_ops : IoOps
  /-- `T_OUTPORT`, otherwise `T_INPORT`. -/
  outport : Bool
  /-- `IO_FLAG_GETB_IS_GETC`. -/
  getbIsGetc : Bool
  /-- The rune pushed back, none for the source's -1. -/
  ungetrune : Option Nat
  closed : Bool
  /-- What was written, or is still to be read: runes in a string port, the
  bytes of a file or a socket otherwise. -/
  data : List Int
  deriving DecidableEq

def mkstringio (outport : Bool) (string : List Int) : Port :=
  ⟨.strio, outport, true, none, false, string⟩

def mkfio (outport : Bool) (bytes : List Int) : Port := ⟨.fp, outport, false, none, false, bytes⟩

def mksocket (outport : Bool) (bytes : List Int) : Port :=
  ⟨.sock, outport, false, none, false, bytes⟩

namespace Port

def ready (p : Port) : Bool :=
  match p.io_ops with
  | .fp => !p.outport
  | .strio | .sock => true

def wready (p : Port) : Bool :=
  match p.io_ops with
  | .strio => p.outport
  | .fp | .sock => true

/-- A socket hands over a signed `char`, a file an unsigned one. -/
def getb (p : Port) : Option Int × Port :=
  match p.data with
  | [] => (none, p)
  | x :: xs =>
    let byte := match p.io_ops with
      | .sock => (BitVec.ofInt 8 x).toInt
      | .strio | .fp => x
    (some byte, { p with data := xs })

def putb (p : Port) (byte : Int) : Int × Port :=
  match p.io_ops with
  | .strio => (byte, { p with data := p.data ++ [byte] })
  | .fp => (byte, { p with data := p.data ++ [byte % 256] })
  | .sock => (byte % 256, { p with data := p.data ++ [byte % 256] })

end Port

def readReady (p : Port) : Except String (Option Int × Port) :=
  if p.ready then pure p.getb else throw "port is not ready for reading"

/-- A rune that is held back is returned to the trampoline for its next state, as a
fixnum: 0 and 1 go on with the function, 2 applies what `CHECK_CLOSED` left in the value
register, and from 3 on that is what is read. -/
def arcReadb (p : Port) : Except String (Option Int × Port) :=
  if p.closed then throw "port is closed" else
  match p.ungetrune with
  | some 0 | some 1 => readReady { p with ungetrune := none }
  | some 2 => throw "cannot apply value"
  | some _ => pure (none, { p with ungetrune := none })
  | none => readReady p

/-- The loop of `arc_readc`, with `n` rounds left. -/
def readcLoop : Nat → List Byte → Port → Except String (Option Nat × Port)
  | 0, _, p => pure (none, p)
  | n + 1, cbuf, p => do
    match ← arcReadb p with
    | (none, p) => pure (none, p)
    | (some chr, p) =>
      let cbuf := cbuf ++ [BitVec.ofInt 8 chr]
      if fullrune cbuf then pure (some (chartorune cbuf).1, p) else readcLoop n cbuf p

def arcReadc (p : Port) : Except String (Option Nat × Port) :=
  if p.closed then throw "port is closed" else
  match p.ungetrune with
  | some ch => pure (some ch, { p with ungetrune := none })
  | none =>
    if p.getbIsGetc then pure (p.getb.1.map Int.toNat, p.getb.2) else readcLoop UTFmax [] p

def arcWriteb (p : Port) (byte : Int) : Except String (Int × Port) :=
  if !p.outport then throw "argument is not an output port"
  else if p.closed then throw "port is closed"
  else if p.wready then pure (p.putb byte) else throw "port is not ready for writing"

def arcWritec (p : Port) (chr : Nat) : Except String (Nat × Port) :=
  if !p.outport then throw "argument is not an output port"
  else if p.closed then throw "port is closed"
  else if p.getbIsGetc then pure ((p.putb chr).1.toNat, (p.putb chr).2)
  else do
    -- the bytes pass as fixnums of signed `char`s
    let p ← (runetochar chr).foldlM (fun p b => Prod.snd <$> arcWriteb p b.toInt) p
    pure (chr, p)

def arcUngetcRune (r : Nat) (p : Port) : Port := { p with ungetrune := some r }

end Arcueid
