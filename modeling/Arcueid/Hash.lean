import Arcueid.Table

/-! The 64-bit hash function of `hash.c` (Jenkins' lookup8) on fixnum keys. -/

namespace Arcueid

structure ArcHs where
  s0 : BitVec 64
  s1 : BitVec 64
  s2 : BitVec 64
  state : Nat

/-- Three steps `x -= y; x -= z; x ^= shift z` of `MIX`, one on each word. -/
def mixRound (r l r' : Nat) (a b c : BitVec 64) : BitVec 64 × BitVec 64 × BitVec 64 :=
  let a := (a - b - c) ^^^ (c >>> r)
  let b := (b - c - a) ^^^ (a <<< l)
  let c := (c - a - b) ^^^ (b >>> r')
  (a, b, c)

def mix (a b c : BitVec 64) : BitVec 64 × BitVec 64 × BitVec 64 :=
  let (a, b, c) := mixRound 43 9 8 a b c
  let (a, b, c) := mixRound 38 23 5 a b c
  let (a, b, c) := mixRound 35 49 11 a b c
  mixRound 12 18 22 a b c

def arcHashInit (level : BitVec 64) : ArcHs := ⟨level, level, 0x9e3779b97f4a7c13, 0⟩

def arcHashUpdate (s : ArcHs) (val : BitVec 64) : ArcHs :=
  match s.state with
  | 0 => { s with s0 := s.s0 + val, state := 1 }
  | 1 => { s with s1 := s.s1 + val, state := 2 }
  | _ =>
    let (a, b, c) := mix s.s0 s.s1 (s.s2 + val)
    ⟨a, b, c, 0⟩

def arcHashFinal (s : ArcHs) (len : BitVec 64) : BitVec 64 :=
  (mix s.s0 s.s1 (s.s2 + len <<< 3)).2.2

/-- The type number of fixnums, which `arc_hash_increment` hashes first. -/
def tFixnum : BitVec 64 := 2

def arcHashFixnum (n : Int) : BitVec 64 :=
  arcHashFinal (arcHashUpdate (arcHashUpdate (arcHashInit 0) tFixnum) (BitVec.ofInt 64 n)) 1

/-- Fixnum keys: `arc_is2` is identity on immediates. -/
def fixnumKeying : Keying Int where
  same a b := a == b
  hash n := (arcHashFixnum n).toNat

end Arcueid
