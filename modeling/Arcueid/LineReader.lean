import Arcueid.Atstrings

/-! The reader with a line number table: what `arc_sread` records there of the conses
it reads. A call that raises an error leaves the port and the table as they are then. -/

namespace Arcueid.Reader

open Utf Numeral

/-- The number that `lndata` has for a cons, and the text from the character that
opened it. -/
structure Mark where
  line : Nat
  opening : List Nat
  deriving DecidableEq

inductive Located (F : Type) where
  | atom (d : Datum F)
  | cons (mark : Option Mark) (car cdr : Located F)
  deriving DecidableEq

/-- A port and the line number that `lndata` has at -1. -/
structure Lines where
  port : Port
  lineno : Nat

abbrev LineM := ExceptT Stop (StateM Lines)

namespace Located

variable {F : Type}

def erase : Located F → Datum F
  | .atom d => d
  | .cons _ a d => .cons a.erase d.erase

/-- A value that was not read. -/
def plain : Datum F → Located F
  | .cons a d => .cons none (plain a) (plain d)
  | d => .atom d

/-- `add_cons_lineno`, for a cons. -/
def record (m : Mark) : Located F → Located F
  | .cons _ a d => .cons (some m) a d
  | d => d

def marks : Located F → List Mark
  | .atom _ => []
  | .cons m a d => m.toList ++ a.marks ++ d.marks

def list (xs : List (Located F)) (tail : Located F) : Located F := xs.foldr (.cons none) tail

end Located

namespace Lined

variable {F : Type}

/-- Some of the port's runes are read, or one is given back. -/
def onPort {α : Type} (x : ReadM α) : LineM α := fun s =>
  match x s.port with
  | .ok (a, p) => (.ok a, { s with port := p })
  | .error stop => (.error stop, s)

def readc : LineM (Option Nat) := onPort Reader.readc

def ungetc (r : Nat) : LineM Unit := onPort (Reader.ungetc r)

def readc1 : LineM Nat := do
  match ← readc with
  | none => throw (.error "unexpected end of source")
  | some r => pure r

def incLineno : LineM Unit := modify fun s => { s with lineno := s.lineno + 1 }

/-- `get_lineno`, in front of a datum that `r` opens. -/
def getLineno (r : Nat) : LineM Mark :=
  (fun s => ⟨s.lineno, r :: s.port.data.map Int.toNat⟩) <$> get

def scan : Nat → LineM (Option Nat)
  | 0 => throw .fuel
  | n + 1 => do
    match ← readc with
    | none => pure none
    | some r =>
      if ucisnl r then incLineno
      if ucisspace r then scan n else pure (some r)

def readComment : Nat → LineM Unit
  | 0 => throw .fuel
  | n + 1 => do
    let r := (← readc).getD Runeerror
    if r = Runeerror then pure ()
    else if ucisnl r then incLineno
    else readComment n

def finishToken (state : SymState) (buf : List Nat) : LineM Token :=
  onPort (Reader.finishToken state buf)

def getsymbol : Nat → SymState → List Nat → LineM Token
  | 0, _, _ => throw .fuel
  | n + 1, state, buf => do
    let ch ← readc
    let r := ch.getD Runeerror
    if state = .sawR ∧ r = '/'.toNat then getsymbol n .regex [] else
    match nextState state r with
    | .regex =>
      if r = '/'.toNat then getsymbol n (.regexFlags false false) buf
      else if r = Runeerror then throw (.error "unexpected end of source while reading regex")
      else getsymbol n (if r = '\\'.toNat then .regexEscape else .regex) (buf ++ [r])
    | .regexEscape =>
      match ch with
      | none => throw .undefined
      | some r => getsymbol n .regex (buf ++ [r])
    | .regexFlags casefold multiline =>
      if r = 'i'.toNat ∧ casefold = false then getsymbol n (.regexFlags true multiline) buf
      else if r = 'm'.toNat ∧ multiline = false then getsymbol n (.regexFlags casefold true) buf
      else if r = 'i'.toNat ∨ r = 'm'.toNat then
        throw (.error "regular expression flags used more than once")
      else if ucisspace r then finishToken (.regexFlags casefold multiline) buf
      else throw (.error ("invalid regular expression flag " ++ String.singleton (Char.ofNat r)))
    | state =>
      if r = Runeerror then finishToken state buf
      else if !issym r then do
        ungetc r
        finishToken state buf
      else getsymbol n state (buf ++ [r])

def readString : Nat → StrState → List Nat → LineM (List Nat)
  | 0, _, _ => throw .fuel
  | n + 1, state, buf => do
    let r ← readc1
    match state with
    | .normal =>
      if r = '"'.toNat then pure buf
      else if r = '\\'.toNat then readString n .escape buf
      else do
        if ucisnl r then incLineno
        readString n .normal (buf ++ [r])
    | .escape =>
      if r = 'U'.toNat ∨ r = 'u'.toNat then readString n (.unicode 0 0) buf
      else match escapeCode r with
        | some r => readString n .normal (buf ++ [r])
        | none => throw (.error "unknown escape code")
    | .unicode escrune digcount =>
      if digcount ≥ 5 then do
        ungetc r
        readString n .normal (buf ++ [escrune])
      else match hexDigit r with
        | some digval => readString n (.unicode (escrune * 16 + digval) (digcount + 1)) buf
        | none => throw (.error "invalid character in Unicode escape")

def readChar (n : Nat) : LineM (Datum F) := do
  let r ← readc1
  if r ≠ '\\'.toNat then throw (.error "invalid character constant")
  let r ← readc1
  if !issym r then pure (.char r) else
  ungetc r
  match ← getsymbol n .start [] with
  | .regexp .. => throw .undefined
  | .text tok =>
    match charOfToken tok with
    | some r => pure (.char r)
    | none => throw (.error "invalid character constant")

def readSymbol (flo : Flonums F) (n : Nat) : LineM (Datum F) := do
  match ← getsymbol n .start [] with
  | .regexp rx casefold multiline => pure (.regexp rx casefold multiline)
  | .text sym =>
    if sym = runes "." then pure sDot else
    match string2num flo sym with
    | .error msg => throw (.error msg)
    | .ok (some num) => pure (.number num)
    | .ok none => pure (intern sym)

structure LineEnv (F : Type) where
  flo : Flonums F
  atstrings : Option (List Nat → LineM (Located F))

mutual

def sread (e : LineEnv F) : Nat → Datum F → LineM (Located F)
  | 0, _ => throw .fuel
  | n + 1, eof => do
    match ← scan n with
    | none => pure (.plain eof)
    | some r =>
      let linenum ← getLineno r
      if r = '('.toNat then (·.record linenum) <$> readList e n eof [] none
      else if r = ')'.toNat then throw (.error "misplaced right paren")
      else if r = '['.toNat then (·.record linenum) <$> readAnonf e n eof []
      else if r = ']'.toNat then throw (.error "misplaced right bracket")
      else if r = '\''.toNat then (·.record linenum) <$> readq e n (runes "quote") eof
      else if r = '`'.toNat then (·.record linenum) <$> readq e n (runes "quasiquote") eof
      else if r = ','.toNat then (·.record linenum) <$> readComma e n eof
      else if r = '"'.toNat then do
        let s ← readString n .normal []
        match e.atstrings with
        | some readAtstring => (·.record linenum) <$> readAtstring s
        | none => pure (.atom (.string s))
      else if r = '#'.toNat then .atom <$> readChar n
      else if r = ';'.toNat then do
        readComment n
        sread e n eof
      else do
        ungetc r
        .atom <$> readSymbol e.flo n

def readList (e : LineEnv F) : Nat → Datum F → List (Located F) → Option (Located F) → LineM (Located F)
  | 0, _, _, _ => throw .fuel
  | n + 1, eof, top, dotted => do
    match ← scan n with
    | none => pure (.plain eof)
    | some r =>
      if r = ';'.toNat then do
        readComment n
        readList e n eof top dotted
      else if r = ')'.toNat then pure (.list top (dotted.getD (.atom .nil)))
      else if dotted.isSome then throw (.error "illegal use of .")
      else do
        ungetc r
        match ← sread e n eof with
        | .atom (.symbol name) =>
          if name = runes "." then do
            let val ← sread e n eof
            if top = [] then throw (.error "illegal use of .")
            else readList e n eof top (some val)
          else readList e n eof (top ++ [.atom (.symbol name)]) none
        | val => readList e n eof (top ++ [val]) none

def readAnonf (e : LineEnv F) : Nat → Datum F → List (Located F) → LineM (Located F)
  | 0, _, _ => throw .fuel
  | n + 1, eof, top => do
    match ← scan n with
    | none => pure (.plain eof)
    | some r =>
      if r = ';'.toNat then do
        readComment n
        readAnonf e n eof top
      else if r = ']'.toNat then
        pure (.list [.atom (.symbol (runes "fn")), .list [.atom (.symbol (runes "_"))] (.atom .nil),
          .list top (.atom .nil)] (.atom .nil))
      else do
        ungetc r
        let val ← sread e n eof
        readAnonf e n eof (top ++ [val])

def readq (e : LineEnv F) : Nat → List Nat → Datum F → LineM (Located F)
  | 0, _, _ => throw .fuel
  | n + 1, qsym, eof => do
    let val ← sread e n eof
    pure (.list [.atom (.symbol qsym), val] (.atom .nil))

def readComma (e : LineEnv F) : Nat → Datum F → LineM (Located F)
  | 0, _ => throw .fuel
  | n + 1, eof => do
    let r ← readc1
    if r = '@'.toNat then readq e n (runes "unquote-splicing") eof
    else do
      ungetc r
      readq e n (runes "unquote") eof

end

section Strings

/-- A call on a port of its own. -/
def onInstring {α : Type} (rest : List Nat) (x : LineM α) : LineM (α × Port) := fun s =>
  match x { s with port := instring rest } with
  | (.ok a, s') => (.ok (a, s'.port), { s' with port := s.port })
  | (.error stop, s') => (.error stop, { s' with port := s.port })

def codestring (read : List Nat → LineM (Located F × Port)) : Nat → List Nat → LineM (List (Located F))
  | 0, _ => throw .fuel
  | n + 1, s =>
    match atpos s with
    | none => pure [.atom (.string s)]
    | some i => do
      let (expr, fp) ← read (s.drop (i + 1))
      let cs ← codestring read n (fp.data.map Int.toNat)
      pure (.atom (.string (s.take i)) :: expr :: cs)

def unescaped : Located F → Located F
  | .atom d => .atom (Datum.unescaped d)
  | x => x

def readAtstring (read : List Nat → LineM (Located F × Port)) (s : List Nat) : LineM (Located F) :=
  if (atpos s).isSome then do
    let cs ← codestring read (s.length + 1) s
    pure (.cons none (.atom (.symbol (runes "string"))) (.list (cs.map unescaped) (.atom .nil)))
  else pure (.atom (.string (unescapeAts s)))

def atstringReader (flo : Flonums F) : Nat → List Nat → LineM (Located F)
  | 0, _ => throw .fuel
  | n + 1, s => readAtstring (fun rest =>
      onInstring rest (sread ⟨flo, some (atstringReader flo n)⟩ (readFuel rest) .nil)) s

end Strings

end Lined

/-- The reader of a text with a line number table. -/
def Settings.lined {F : Type} (c : Settings F) (s : List Nat) : Lined.LineEnv F :=
  ⟨c.flo, if c.atstrings then some (Lined.atstringReader c.flo s.length) else none⟩

end Arcueid.Reader
