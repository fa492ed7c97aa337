import Mathlib.Logic.Function.Iterate

/-! Values of the interpreter. Conses of source expressions and of argument
lists are trees; the other literal objects (strings, characters, numbers
outside the fixnum range and so on) are opaque. -/

namespace Arcueid

/-- The symbols the compiler looks for, and all others. -/
inductive Sym where
  | sIf | sFn | sQuote | sAssign | sNil | sT | sO | sCons | sCar | sCdr
  | sPlus | sTimes | sMinus | sDiv | sCompose | sComplement | sAndf | sAnd | sNo
  | id (n : Nat)
  deriving DecidableEq

inductive Value where
  | nil
  | tru
  | unbound
  | undef
  | fixnum (n : Int)
  | symbol (s : Sym)
  | atom (n : Nat)
  | cons (car cdr : Value)
  | env (ofs : Nat)
  | vector (a : Nat)
  | cont (a : Nat)
  | code (n : Nat)
  | clos (code env : Value)
  | ccode (n : Nat) (env : Value)
  deriving DecidableEq

def fix2int : Value → Int
  | .fixnum n => n
  | _ => 0

def envP : Value → Bool
  | .env _ => true
  | _ => false

end Arcueid
