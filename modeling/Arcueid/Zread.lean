import Arcueid.Reader

/-! The reader in Arc (`compiler/reader.arc`, with `newlinec` and `hexdigit` of
`bootstrap.arc`). A port is the characters to come; `peekc` and `readc` give
nothing at its end. Loops and calls have a bound, the `fuel`. -/

namespace Arcueid.Zread

open Numeral Reader

/-- Why a call does not return: an error of the reader, an error of a function
that it calls, or a bound that was too small. -/
inductive ZStop where
  | error (msg : String)
  | rejected
  | fuel
  deriving DecidableEq

abbrev ZM := StateT (List Nat) (Except ZStop)

/-- `string->num` with its radix, and `coerce` of a number to a character;
either may raise an error. -/
structure ZEnv (F : Type) where
  stringToNum : List Nat → Nat → Option (Option (Number F))
  numToChar : Number F → Option Nat

variable {F : Type}

def readc : ZM (Option Nat) := fun s => .ok (s.head?, s.tail)

def peekc : ZM (Option Nat) := fun s => .ok (s.head?, s)

/-- What a function gives, or its error. -/
def ofOption {α : Type} : Option α → ZM α
  | some a => pure a
  | none => throw .rejected

def whitec (c : Nat) : Bool := (runes " \n\t\r").contains c

def newlinec (c : Nat) : Bool := ([13, 10, 0x85, 12, 0x2028, 0x2029] : List Nat).contains c

def digit (c : Nat) : Bool := '0'.toNat ≤ c ∧ c ≤ '9'.toNat

def hexdigit (c : Nat) : Bool :=
  digit c || ('a'.toNat ≤ c ∧ c ≤ 'f'.toNat) || ('A'.toNat ≤ c ∧ c ≤ 'F'.toNat)

/-- Scan for the first non-blank character, and leave it. -/
def scan : List Nat → Except ZStop (Option Nat × List Nat)
  | [] => .ok (none, [])
  | r :: s => if whitec r then scan s else .ok (some r, r :: s)

def symc (ch : Nat) : Bool := !(whitec ch || (runes "()',;[]").contains ch)

def getsymbol (buf : List Nat) : List Nat → Except ZStop (List Nat × List Nat)
  | [] => .ok (buf, [])
  | ch :: s => if symc ch then getsymbol (buf ++ [ch]) s else .ok (buf, ch :: s)

def readsym (e : ZEnv F) (pre : List Nat) : ZM (Datum F) := do
  let mysym := pre ++ (← getsymbol [])
  match ← ofOption (e.stringToNum mysym 10) with
  | some n => pure (.number n)
  | none => pure (intern mysym)

/-- Reads until end of line or end of file. -/
def readcomment : List Nat → Except ZStop (Option Nat × List Nat)
  | [] => .ok (none, [])
  | r :: s => if newlinec r then .ok (some r, s) else readcomment s

/-- The loop of `readblockcomment`; `r` is always `(readc fp)`. -/
def blockLoop : Nat → Nat → ZM (Option Nat)
  | 0, _ => throw .fuel
  | n + 1, nestlevel => do
    let r ← readc
    let ch ← peekc
    if r = some '|'.toNat ∧ ch = some '#'.toNat then do
      let _ ← readc
      if nestlevel = 0 then peekc else blockLoop n (nestlevel - 1)
    else if r = some '#'.toNat ∧ ch = some '|'.toNat then do
      let _ ← readc
      blockLoop n (nestlevel + 1)
    else blockLoop n nestlevel

def readblockcomment (n : Nat) : ZM (Option Nat) := do
  let _ ← readc
  blockLoop n 0

def charTable : List (List Nat × Nat) :=
  [(runes "null", 0), (runes "nul", 0), (runes "backspace", 8), (runes "tab", 9),
   (runes "newline", 10), (runes "linefeed", 10), (runes "vtab", 11), (runes "page", 12),
   (runes "return", 13), (runes "space", 32), (runes "rubout", 127)]

def readchar (e : ZEnv F) : ZM (Datum F) := do
  let _ ← readc
  let sym ← getsymbol []
  match charTable.lookup sym with
  | some r => pure (.char r)
  | none =>
    let octal ← ofOption (e.stringToNum sym 8)
    let num ← match octal with
      | some num => pure (some num)
      | none => do
        let first ← ofOption sym.head?
        if first = 'u'.toNat ∨ first = 'U'.toNat then ofOption (e.stringToNum sym.tail 16)
        else pure none
    match num with
    | some num => return .char (← ofOption (e.numToChar num))
    -- the test for one character is `(is (len sym 1))`: `len` has one argument
    | none => throw .rejected

/-- `coerce` of an integer that was read to a character. -/
def intToChar (value : Nat) : Option Nat :=
  if value > 0x10FFFF ∨ (0xd800 ≤ value ∧ value ≤ 0xdfff) then none else some value

/-- The states of `readstring`, numbered 0 to 5 in the source, with `digits`. -/
inductive ZState where
  | normal
  | done
  | escape
  | octal (value ndigits : Nat)
  | unicode (max : Nat)
  | hex (value ndigits max : Nat)
  deriving DecidableEq

def escapes : List (Nat × Nat) :=
  [('a'.toNat, 7), ('b'.toNat, 8), ('t'.toNat, 9), ('n'.toNat, 10), ('v'.toNat, 11),
   ('f'.toNat, 12), ('r'.toNat, 13), ('e'.toNat, 27), ('\''.toNat, '\''.toNat),
   ('\\'.toNat, '\\'.toNat)]

def hexValue (ch : Nat) : Nat :=
  if digit ch then ch - 48 else if 'a'.toNat ≤ ch then ch - 87 else ch + 32 - 87

/-- The loop of `readstring`; `ch` is always `(peekc fp)`, except in the state
`done` where it is not used. -/
def stringLoop (endch : Nat) (metachar : Nat → Option (List Nat)) :
    Nat → ZState → List Nat → ZM (List Nat)
  | 0, _, _ => throw .fuel
  | n + 1, state, buf => do
    let ch ← peekc
    match state with
    | .normal =>
      if ch = some endch then do
        let _ ← readc
        stringLoop endch metachar n .done buf
      else if ch = some '\\'.toNat then do
        let _ ← readc
        stringLoop endch metachar n .escape buf
      else do
        let r ← ofOption (← readc)
        stringLoop endch metachar n .normal (buf ++ [r])
    | .done => pure buf
    | .escape => do
      -- `digit` of nothing is an error
      let ch ← ofOption ch
      if ch = endch then do
        let _ ← readc
        stringLoop endch metachar n .normal (buf ++ [endch])
      else match escapes.lookup ch with
        | some r => do
          let _ ← readc
          stringLoop endch metachar n .normal (buf ++ [r])
        | none =>
          if ch = 'u'.toNat then do
            let _ ← readc
            stringLoop endch metachar n (.unicode 4) buf
          else if ch = 'U'.toNat then do
            let _ ← readc
            stringLoop endch metachar n (.unicode 8) buf
          else match metachar ch with
            | some written => do
              let _ ← readc
              stringLoop endch metachar n .normal (buf ++ written)
            | none =>
              if digit ch ∧ ch < '8'.toNat then stringLoop endch metachar n (.octal 0 0) buf
              else throw (.error
                ("unknown escape sequence \\" ++ String.singleton (Char.ofNat ch) ++ " in string"))
    | .octal value ndigits => do
      let ch ← ofOption ch
      if digit ch ∧ ch < '8'.toNat ∧ ndigits < 3 then do
        let _ ← readc
        stringLoop endch metachar n (.octal (value * 8 + (ch - 48)) (ndigits + 1)) buf
      else do
        let r ← ofOption (intToChar value)
        stringLoop endch metachar n .normal (buf ++ [r])
    | .unicode max => do
      let ch ← ofOption ch
      if hexdigit ch then stringLoop endch metachar n (.hex 0 0 max) buf
      else throw (.error "no hex digit following Unicode escape in string")
    | .hex value ndigits max =>
      if ndigits < max then do
        let ch ← ofOption ch
        if hexdigit ch then do
          let _ ← readc
          stringLoop endch metachar n (.hex (value * 16 + hexValue ch) (ndigits + 1) max) buf
        else do
          let r ← ofOption (intToChar value)
          stringLoop endch metachar n .normal (buf ++ [r])
      else do
        let r ← ofOption (intToChar value)
        stringLoop endch metachar n .normal (buf ++ [r])

def readstring (endch : Nat) (metachar : Nat → Option (List Nat)) (n : Nat) : ZM (List Nat) := do
  let _ ← readc
  stringLoop endch metachar n .normal []

/-- The regular expression escapes are written as they are. -/
def regexMetachar (ch : Nat) : Option (List Nat) :=
  if (runes "[^$.|?*+()\x7b\x7d").contains ch then some ['\\'.toNat, ch] else none

def regexFlags (iflag mflag : Bool) : List Nat → Except ZStop ((Bool × Bool) × List Nat)
  | [] => .ok ((iflag, mflag), [])
  | ch :: s =>
    if ch = 'i'.toNat then
      if iflag then .error (.error "case-insensitive flag specified more than once")
      else regexFlags true mflag s
    else if ch = 'm'.toNat then
      if mflag then .error (.error "multiline flag specified more than once")
      else regexFlags iflag true s
    else .ok ((iflag, mflag), ch :: s)

def readregex (n : Nat) : ZM (Datum F) := do
  let rx ← readstring '/'.toNat regexMetachar n
  let (iflag, mflag) ← regexFlags false false
  pure (.regexp rx iflag mflag)

/-- What `zread` comes to: a datum, or a closing character, with which its
argument `rparen` is called and does not return. -/
inductive Zitem (F : Type) where
  | val (d : Datum F)
  | rparen (ch : Nat)
  deriving DecidableEq

def misplaced (ch : Nat) : ZStop := .error ("misplaced " ++ String.singleton (Char.ofNat ch))

/-- `rparen` by default. -/
def noRparen : Zitem F → ZM (Datum F)
  | .val d => pure d
  | .rparen ch => throw (misplaced ch)

/-- The value of `indot`. -/
inductive Indot where
  | no
  | sawDot
  | sawTail
  deriving DecidableEq

mutual

def zread (e : ZEnv F) : Nat → Datum F → ZM (Zitem F)
  | 0, _ => throw .fuel
  | n + 1, eof => do
    match ← scan with
    | none => pure (.val eof)
    | some ch =>
      if ch = '('.toNat then do
        let _ ← readc
        return .val (← readlist e n eof [] .nil .no)
      else if ch = ')'.toNat ∨ ch = ']'.toNat then do
        let _ ← readc
        pure (.rparen ch)
      else if ch = '['.toNat then do
        let _ ← readc
        return .val (← readbrfn e n eof [])
      else if ch = '\''.toNat then do
        let _ ← readc
        return .val (← readquote e n eof (runes "quote"))
      else if ch = '`'.toNat then do
        let _ ← readc
        return .val (← readquote e n eof (runes "quasiquote"))
      else if ch = ','.toNat then return .val (← readcomma e n eof)
      else if ch = '"'.toNat then
        return .val (.string (← readstring '"'.toNat (fun _ => none) n))
      else if ch = '#'.toNat then do
        let _ ← readc
        match ← peekc with
        | none => throw (.error "end of file reached while reading #")
        | some ch =>
          if ch = '\\'.toNat then return .val (← readchar e)
          else if ch = '|'.toNat then do
            let _ ← readblockcomment n
            zread e n eof
          else if ch = '!'.toNat then do
            let _ ← readcomment
            zread e n eof
          else if ch = ';'.toNat then do
            let _ ← readsexprcomment e n eof
            zread e n eof
          else if ch = '/'.toNat then return .val (← readregex n)
          else return .val (← readsym e ['#'.toNat])
      else if ch = ';'.toNat then do
        let _ ← readcomment
        zread e n eof
      else return .val (← readsym e [])

/-- The loop of `readlist`: the elements so far are `top`, and `tail` is what
`last` ends in. -/
def readlist (e : ZEnv F) : Nat → Datum F → List (Datum F) → Datum F → Indot → ZM (Datum F)
  | 0, _, _, _, _ => throw .fuel
  | n + 1, eof, top, tail, indot => do
    let _ ← scan
    match ← peekc with
    | none => throw (.error "unterminated list meets end of file")
    | some ch =>
      if ch = '.'.toNat then
        if indot ≠ .no then throw (.error "illegal use of .")
        else do
          let _ ← readc
          readlist e n eof top tail .sawDot
      else
        match ← zread e n eof with
        | .rparen ch => if ch = ')'.toNat then pure (list top tail) else throw (misplaced ch)
        | .val val =>
          match indot with
          | .sawDot =>
            if top = [] then throw (.error "illegal use of .")
            else readlist e n eof top val .sawTail
          | .sawTail => throw (.error "illegal use of .")
          | .no => readlist e n eof (top ++ [val]) tail .no

/-- The loop of `readbrfn`: `[ ... _ ... ]` as `(fn (_) (... _ ...))`. -/
def readbrfn (e : ZEnv F) : Nat → Datum F → List (Datum F) → ZM (Datum F)
  | 0, _, _ => throw .fuel
  | n + 1, eof, top => do
    let _ ← scan
    match ← peekc with
    | none => throw (.error "unterminated bracket fn meets end of file")
    | some _ =>
      match ← zread e n eof with
      | .rparen ch =>
        if ch = ']'.toNat then
          pure (list [.symbol (runes "fn"), list [.symbol (runes "_")] .nil, list top .nil] .nil)
        else throw (misplaced ch)
      | .val val => readbrfn e n eof (top ++ [val])

def readsexprcomment (e : ZEnv F) : Nat → Datum F → ZM (Datum F)
  | 0, _ => throw .fuel
  | n + 1, eof => do
    let _ ← readc
    noRparen (← zread e n eof)

def readquote (e : ZEnv F) : Nat → Datum F → List Nat → ZM (Datum F)
  | 0, _, _ => throw .fuel
  | n + 1, eof, qsym => do
    let val ← noRparen (← zread e n eof)
    pure (list [.symbol qsym, val] .nil)

def readcomma (e : ZEnv F) : Nat → Datum F → ZM (Datum F)
  | 0, _ => throw .fuel
  | n + 1, eof => do
    let _ ← readc
    if (← peekc) = some '@'.toNat then do
      let _ ← readc
      readquote e n eof (runes "unquote-splicing")
    else readquote e n eof (runes "unquote")

end

end Arcueid.Zread
