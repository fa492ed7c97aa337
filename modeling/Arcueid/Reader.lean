import Arcueid.Io
import Arcueid.Lib.Outcome
import Arcueid.Numeral

/-! The reader: `arc_sread` and the functions it calls, on a port, without a
line number table. -/

namespace Arcueid

open Utf Numeral Outcome

/-- What is read. Symbols are their names; the empty list is `nil`. -/
inductive Datum (F : Type) where
  | nil
  | number (n : Number F)
  | symbol (name : List Nat)
  | string (s : List Nat)
  | char (r : Nat)
  | regexp (rx : List Nat) (casefold multiline : Bool)
  | cons (car cdr : Datum F)
  deriving DecidableEq

/-- Why a call does not return: an error, behaviour that the source leaves
undefined, or a bound on the loops of the model that was too small. -/
inductive Stop where
  | error (msg : String)
  | undefined
  | fuel
  deriving DecidableEq

abbrev ReadM := StateT Port (Except Stop)

namespace Reader

variable {F : Type}

def runes (s : String) : List Nat := s.toList.map Char.toNat

def readc : ReadM (Option Nat) := fun p =>
  match arcReadc p with
  | .ok r => .ok r
  | .error msg => .error (.error msg)

def ungetc (r : Nat) : ReadM Unit := modify (arcUngetcRune r)

/-- The macro `READC`. -/
def readc1 : ReadM Nat := do
  match ← readc with
  | none => throw (.error "unexpected end of source")
  | some r => pure r

/-- Is `ch` a valid character in a symbol? -/
def issym (ch : Nat) : Bool := !ucisspace ch && !(runes "()';[]").contains ch

/-- Scan for the first non-blank character. -/
def scan : Nat → ReadM (Option Nat)
  | 0 => throw .fuel
  | n + 1 => do
    match ← readc with
    | none => pure none
    | some r => if ucisspace r then scan n else pure (some r)

/-- Reads until end of line or end of file. -/
def readComment : Nat → ReadM Unit
  | 0 => throw .fuel
  | n + 1 => do
    let r := (← readc).getD Runeerror
    if r = Runeerror then pure ()
    else if ucisnl r then pure ()
    else readComment n

section Port

/-- A string port with `cs` to be read. -/
def instring (cs : List Nat) : Port := mkstringio false (cs.map Int.ofNat)

/-- The port stands in front of `cs`, whose first rune may be pushed back. -/
inductive At : Port → List Nat → Prop where
  | clean (cs : List Nat) : At (instring cs) cs
  | pushed (r : Nat) (cs : List Nat) : At (arcUngetcRune r (instring cs)) (r :: cs)

variable {p p' : Port} {c : Nat} {cs : List Nat}

theorem At.readc_nil (h : At p []) : readc p = .ok (none, instring []) := by
  cases h with
  | clean => rfl

theorem At.readc_cons (h : At p (c :: cs)) : readc p = .ok (some c, instring cs) := by
  cases h with
  | clean => rfl
  | pushed => rfl

theorem At.readc1_nil (h : At p []) :
    readc1 p = .error (.error "unexpected end of source") := by
  rw [readc1, bind_of_ok h.readc_nil]
  rfl

theorem At.readc1_cons (h : At p (c :: cs)) : readc1 p = .ok (c, instring cs) := by
  rw [readc1, bind_of_ok h.readc_cons]
  rfl

theorem ungetc_instring : ungetc c (instring cs) = .ok ((), arcUngetcRune c (instring cs)) := rfl

end Port

/-- The states of `getsymbol`, numbered 0 to 5 in the source. -/
inductive SymState where
  | start
  | sawR
  | regex
  | regexEscape
  | regexFlags (casefold multiline : Bool)
  | symbol
  deriving DecidableEq

inductive Token where
  | text (s : List Nat)
  | regexp (rx : List Nat) (casefold multiline : Bool)
  deriving DecidableEq

def finishToken (state : SymState) (buf : List Nat) : ReadM Token :=
  match state with
  | .symbol => pure (.text buf)
  | .regexFlags casefold multiline => pure (.regexp buf casefold multiline)
  | _ => throw (.error "invalid state while parsing symbol")

def nextState (state : SymState) (r : Nat) : SymState :=
  match state with
  | .start => if r = 'r'.toNat then .sawR else .symbol
  | .sawR => if r = '/'.toNat then .regex else .symbol
  | state => state

/-- Reads up to the first non-symbol character, or a regular expression. -/
def getsymbol : Nat → SymState → List Nat → ReadM Token
  | 0, _, _ => throw .fuel
  | n + 1, state, buf => do
    let ch ← readc
    let r := ch.getD Runeerror
    if state = .sawR ∧ r = '/'.toNat then getsymbol n .regex [] else
    match nextState state r with
    | .regex =>
      if r = '/'.toNat then getsymbol n (.regexFlags false false) buf
      else if r = Runeerror then throw (.error "unexpected end of source while reading regex")
      else getsymbol n (if r = '\\'.toNat then .regexEscape else .regex) (buf ++ [r])
    | .regexEscape =>
      -- at the end of the source the value written is no character
      match ch with
      | none => throw .undefined
      | some r => getsymbol n .regex (buf ++ [r])
    | .regexFlags casefold multiline =>
      if r = 'i'.toNat ∧ casefold = false then getsymbol n (.regexFlags true multiline) buf
      else if r = 'm'.toNat ∧ multiline = false then getsymbol n (.regexFlags casefold true) buf
      else if r = 'i'.toNat ∨ r = 'm'.toNat then
        throw (.error "regular expression flags used more than once")
      else if ucisspace r then finishToken (.regexFlags casefold multiline) buf
      else throw (.error ("invalid regular expression flag " ++ String.singleton (Char.ofNat r)))
    | state =>
      if r = Runeerror then finishToken state buf
      else if !issym r then do
        ungetc r
        finishToken state buf
      else getsymbol n state (buf ++ [r])

/-- The states of `read_string`, numbered 1 to 3 in the source. -/
inductive StrState where
  | normal
  | escape
  | unicode (escrune digcount : Nat)
  deriving DecidableEq

def escapeCode (r : Nat) : Option Nat :=
  if r = '\''.toNat ∨ r = '"'.toNat ∨ r = '\\'.toNat then some r
  else if r = '0'.toNat then some 0x00
  else if r = 'a'.toNat then some 0x07
  else if r = 'b'.toNat then some 0x08
  else if r = 't'.toNat then some 0x09
  else if r = 'n'.toNat then some 0x0a
  else if r = 'v'.toNat then some 0x0b
  else if r = 'f'.toNat then some 0x0c
  else if r = 'r'.toNat then some 0x0d
  else none

def hexDigit (r : Nat) : Option Nat :=
  if '0'.toNat ≤ r ∧ r ≤ '9'.toNat then some (r - '0'.toNat)
  else if 'A'.toNat ≤ r ∧ r ≤ 'F'.toNat then some (r - 'A'.toNat + 10)
  else if 'a'.toNat ≤ r ∧ r ≤ 'f'.toNat then some (r - 'a'.toNat + 10)
  else none

/-- The runes up to the closing quote. -/
def readString : Nat → StrState → List Nat → ReadM (List Nat)
  | 0, _, _ => throw .fuel
  | n + 1, state, buf => do
    let r ← readc1
    match state with
    | .normal =>
      if r = '"'.toNat then pure buf
      else if r = '\\'.toNat then readString n .escape buf
      else readString n .normal (buf ++ [r])
    | .escape =>
      if r = 'U'.toNat ∨ r = 'u'.toNat then readString n (.unicode 0 0) buf
      else match escapeCode r with
        | some r => readString n .normal (buf ++ [r])
        | none => throw (.error "unknown escape code")
    | .unicode escrune digcount =>
      if digcount ≥ 5 then do
        ungetc r
        readString n .normal (buf ++ [escrune])
      else match hexDigit r with
        | some digval => readString n (.unicode (escrune * 16 + digval) (digcount + 1)) buf
        | none => throw (.error "invalid character in Unicode escape")

/-- The value of a string of digits in a radix, if all are digits. -/
def digitsValue (radix : Nat) (digit : Nat → Option Nat) (s : List Nat) : Option Nat :=
  s.foldlM (fun val r => (digit r).map fun d => val * radix + d) 0

def octDigit (r : Nat) : Option Nat := if isdigit r then some (r - '0'.toNat) else none

def charTable : List (List Nat × Nat) :=
  [(runes "null", 0), (runes "nul", 0), (runes "backspace", 8), (runes "tab", 9),
   (runes "newline", 10), (runes "vtab", 11), (runes "page", 12), (runes "return", 13),
   (runes "space", 32), (runes "rubout", 127)]

/-- The character that the token after `#\` names. -/
def charOfToken (tok : List Nat) : Option Nat :=
  let octal := if tok.length = 3 then digitsValue 8 octDigit tok else none
  let hex := if tok.length = 3 ∧ tok.head? = some 'x'.toNat then
    digitsValue 16 hexDigit tok.tail else none
  let unicode := if (tok.head?.map tolower) = some 'u'.toNat then
    digitsValue 16 hexDigit tok.tail else none
  if tok.length = 1 then tok.head?
  else octal <|> hex <|> unicode <|> (charTable.lookup tok)

def readChar (n : Nat) : ReadM (Datum F) := do
  let r ← readc1
  if r ≠ '\\'.toNat then throw (.error "invalid character constant")
  let r ← readc1
  if !issym r then pure (.char r) else
  ungetc r
  match ← getsymbol n .start [] with
  | .regexp .. => throw .undefined
  | .text tok =>
    match charOfToken tok with
    | some r => pure (.char r)
    | none => throw (.error "invalid character constant")

/-- `arc_intern`, which gives `nil` no symbol value. -/
def intern (name : List Nat) : Datum F := if name = runes "nil" then .nil else .symbol name

/-- The symbol `.`. -/
def sDot : Datum F := .symbol (runes ".")

/-- Parse a symbol name or number. -/
def readSymbol (flo : Flonums F) (n : Nat) : ReadM (Datum F) := do
  match ← getsymbol n .start [] with
  | .regexp rx casefold multiline => pure (.regexp rx casefold multiline)
  | .text sym =>
    if sym = runes "." then pure sDot else
    match string2num flo sym with
    | .error msg => throw (.error msg)
    | .ok (some num) => pure (.number num)
    | .ok none => pure (intern sym)

def list (xs : List (Datum F)) (tail : Datum F) : Datum F := xs.foldr .cons tail

/-- What the declarations and the floating point numbers are: `atstrings` is
the reader of strings when it is declared. -/
structure ReadEnv (F : Type) where
  flo : Flonums F
  atstrings : Option (List Nat → ReadM (Datum F))

mutual

def sread (e : ReadEnv F) : Nat → Datum F → ReadM (Datum F)
  | 0, _ => throw .fuel
  | n + 1, eof => do
    match ← scan n with
    | none => pure eof
    | some r =>
      if r = '('.toNat then readList e n eof [] none
      else if r = ')'.toNat then throw (.error "misplaced right paren")
      else if r = '['.toNat then readAnonf e n eof []
      else if r = ']'.toNat then throw (.error "misplaced right bracket")
      else if r = '\''.toNat then readq e n (runes "quote") eof
      else if r = '`'.toNat then readq e n (runes "quasiquote") eof
      else if r = ','.toNat then readComma e n eof
      else if r = '"'.toNat then do
        let s ← readString n .normal []
        match e.atstrings with
        | some readAtstring => readAtstring s
        | none => pure (.string s)
      else if r = '#'.toNat then readChar n
      else if r = ';'.toNat then do
        readComment n
        sread e n eof
      else do
        ungetc r
        readSymbol e.flo n

/-- The elements read so far are `top`; `dotted` is the tail after a dot. -/
def readList (e : ReadEnv F) : Nat → Datum F → List (Datum F) → Option (Datum F) → ReadM (Datum F)
  | 0, _, _, _ => throw .fuel
  | n + 1, eof, top, dotted => do
    match ← scan n with
    | none => pure eof
    | some r =>
      if r = ';'.toNat then do
        readComment n
        readList e n eof top dotted
      else if r = ')'.toNat then pure (list top (dotted.getD .nil))
      else if dotted.isSome then throw (.error "illegal use of .")
      else do
        ungetc r
        match ← sread e n eof with
        | .symbol name =>
          if name = runes "." then do
            let val ← sread e n eof
            if top = [] then throw (.error "illegal use of .")
            else readList e n eof top (some val)
          else readList e n eof (top ++ [.symbol name]) none
        | val => readList e n eof (top ++ [val]) none

/-- `[ ... _ ... ]` as `(fn (_) (... _ ...))`. -/
def readAnonf (e : ReadEnv F) : Nat → Datum F → List (Datum F) → ReadM (Datum F)
  | 0, _, _ => throw .fuel
  | n + 1, eof, top => do
    match ← scan n with
    | none => pure eof
    | some r =>
      if r = ';'.toNat then do
        readComment n
        readAnonf e n eof top
      else if r = ']'.toNat then
        pure (list [.symbol (runes "fn"), list [.symbol (runes "_")] .nil, list top .nil] .nil)
      else do
        ungetc r
        let val ← sread e n eof
        readAnonf e n eof (top ++ [val])

/-- A form, enclosed in one of `qsym`. -/
def readq (e : ReadEnv F) : Nat → List Nat → Datum F → ReadM (Datum F)
  | 0, _, _ => throw .fuel
  | n + 1, qsym, eof => do
    let val ← sread e n eof
    pure (list [.symbol qsym, val] .nil)

def readComma (e : ReadEnv F) : Nat → Datum F → ReadM (Datum F)
  | 0, _ => throw .fuel
  | n + 1, eof => do
    let r ← readc1
    if r = '@'.toNat then readq e n (runes "unquote-splicing") eof
    else do
      ungetc r
      readq e n (runes "unquote") eof

end

end Reader

end Arcueid
