import Arcueid.ReadTotal

/-! Strings with expressions in them, read where `atstrings` is declared, and what
`arc_sread` makes of a string. -/

namespace Arcueid.Reader

open Outcome Bounded

variable {F : Type}

section Definitions

/-- First unescaped `@`, if any. One at the end is none. -/
def atpos : List Nat → Option Nat
  | [] => none
  | c :: s =>
    if c = '@'.toNat then
      match s with
      | [] => none
      | d :: s' => if d ≠ '@'.toNat then some 0 else (atpos s').map (· + 2)
    else (atpos s).map (· + 1)

def unescapeAts : List Nat → List Nat
  | [] => []
  | c :: s =>
    match s with
    | [] => [c]
    | d :: s' => if c = '@'.toNat ∧ d = '@'.toNat then c :: unescapeAts s' else c :: unescapeAts (d :: s')

/-- The fragments of a string; `read` is `arc_sread` on a port on the rest. What is
read ahead of an expression's end is not in the next fragment. -/
def codestring (read : List Nat → Except Stop (Datum F × Port)) : Nat → List Nat →
    Except Stop (List (Datum F))
  | 0, _ => throw .fuel
  | n + 1, s =>
    match atpos s with
    | none => pure [.string s]
    | some i => do
      let (expr, fp) ← read (s.drop (i + 1))
      let cs ← codestring read n (fp.data.map Int.toNat)
      pure (.string (s.take i) :: expr :: cs)

def Datum.unescaped : Datum F → Datum F
  | .string s => .string (unescapeAts s)
  | x => x

def readAtstring (read : List Nat → Except Stop (Datum F × Port)) (s : List Nat) :
    Except Stop (Datum F) :=
  if (atpos s).isSome then do
    let cs ← codestring read (s.length + 1) s
    pure (.cons (.symbol (runes "string")) (list (cs.map Datum.unescaped) .nil))
  else pure (.string (unescapeAts s))

/-- Steps enough to read a string. -/
def readFuel (s : List Nat) : Nat := 3 * s.length + 3

/-- `read_atstring`, for strings in strings up to the given depth. -/
def atstringReader (flo : Flonums F) : Nat → List Nat → ReadM (Datum F)
  | 0, _ => throw .fuel
  | n + 1, s => liftM (readAtstring (fun rest =>
      sread ⟨flo, some (atstringReader flo n)⟩ (readFuel rest) .nil (instring rest)) s)

/-- What the reader is set to: `atstrings` may be declared. -/
structure Settings (F : Type) where
  flo : Flonums F
  atstrings : Bool

def Settings.env (c : Settings F) (s : List Nat) : ReadEnv F :=
  ⟨c.flo, if c.atstrings then some (atstringReader c.flo s.length) else none⟩

/-- `arc_sread` on a port on a string, for nil at its end. -/
def readText (c : Settings F) (s : List Nat) : Except Stop (Datum F) :=
  Prod.fst <$> sread (c.env s) (readFuel s) .nil (instring s)

end Definitions

section Total

variable {read : List Nat → Except Stop (Datum F × Port)} {n : Nat} {s : List Nat}

theorem atpos_lt {i : Nat} (h : atpos s = some i) : i < s.length := by
  fun_induction atpos s generalizing i with
  | case1 => cases h
  | case2 => cases h
  | case3 =>
    cases h
    simp
  | case4 _ _ _ ih =>
    obtain ⟨j, hj, rfl⟩ := Option.map_eq_some_iff.mp h
    have hlt := ih hj
    simp only [List.length_cons]
    omega
  | case5 _ _ _ ih =>
    obtain ⟨j, hj, rfl⟩ := Option.map_eq_some_iff.mp h
    have hlt := ih hj
    simp only [List.length_cons]
    omega

/-- The reader ends on what is shorter than `n`, and leaves no more than it had. -/
def EndsBelow (read : List Nat → Except Stop (Datum F × Port)) (n : Nat) : Prop :=
  ∀ rest : List Nat, rest.length < n → read rest ≠ .error .fuel ∧
    ∀ r, read rest = .ok r → r.2.data.length ≤ rest.length

theorem codestring_enough (hread : EndsBelow read n) {k : Nat} (hk : s.length < k) (hs : s.length ≤ n) :
    codestring read k s ≠ .error .fuel := by
  induction k generalizing s with
  | zero => omega
  | succ k ih =>
    rw [codestring]
    cases hat : atpos s with
    | none => exact fun h => by cases h
    | some i =>
      have hi := atpos_lt hat
      have hdrop : (s.drop (i + 1)).length < s.length := by
        rw [List.length_drop]
        omega
      obtain ⟨henough, hshort⟩ := hread (s.drop (i + 1)) (by omega)
      refine ne_error_bind henough fun r hr => ?_
      have hle := hshort r hr
      have hrest : codestring read k (r.2.data.map Int.toNat) ≠ .error .fuel :=
        ih (by rw [List.length_map]; omega) (by rw [List.length_map]; omega)
      exact ne_error_bind hrest fun cs _ h => by cases h

theorem readAtstring_enough (hread : EndsBelow read n) (hs : s.length ≤ n) :
    readAtstring read s ≠ .error .fuel := by
  rw [readAtstring]
  split
  · exact ne_error_bind (codestring_enough hread (Nat.lt_succ_self _) hs) fun cs _ h => by cases h
  · exact fun h => by cases h

theorem readAtstring_ne_symbol {x : Datum F} (h : readAtstring read s = .ok x) (m : List Nat) :
    x ≠ .symbol m := by
  rw [readAtstring] at h
  split at h
  · cases hcs : codestring read (s.length + 1) s with
    | error stop =>
      rw [hcs] at h
      cases h
    | ok cs =>
      rw [hcs] at h
      cases h
      exact fun h => by cases h
  · cases h
    exact fun h => by cases h

theorem At.data_length_le {p : Port} (h : At p s) : p.data.length ≤ s.length := by
  cases h with
  | clean => exact (List.length_map _).le
  | pushed r cs =>
    have hlen : (arcUngetcRune r (instring cs)).data.length = cs.length := List.length_map _
    rw [hlen]
    exact Nat.le_succ _

/-- Where strings in strings are bounded in depth, the reader ends. -/
theorem sread_endsBelow {e : ReadEnv F} (hat : AtstringsSettle e n) :
    EndsBelow (fun rest => sread e (readFuel rest) .nil (instring rest)) n := by
  intro rest hrest
  have hsettles : Settles (sread e (readFuel rest) .nil) (instring rest) (SreadDone .nil rest) :=
    (readersSettle hat (readFuel rest)).sread (At.clean rest) (by omega) (by rw [readFuel])
  refine ⟨hsettles.enough, ?_⟩
  rintro r hr
  obtain ⟨⟨t, ht, hsuf, -⟩, -⟩ := hsettles.ensures r.1 r.2 hr
  exact ht.data_length_le.trans hsuf.length_le

theorem atstringReader_settles (flo : Flonums F) (n : Nat) :
    AtstringsSettle ⟨flo, some (atstringReader flo n)⟩ n := by
  induction n with
  | zero => exact fun f _ s hs => by omega
  | succ n ih =>
    rintro f hf s hs p
    cases hf
    have henough : readAtstring (fun rest => sread ⟨flo, some (atstringReader flo n)⟩ (readFuel rest) .nil
        (instring rest)) s ≠ .error .fuel := readAtstring_enough (sread_endsBelow ih) (by omega)
    refine ⟨?_, ?_⟩
    · intro h
      rw [atstringReader] at h
      generalize readAtstring (fun rest => sread ⟨flo, some (atstringReader flo n)⟩ (readFuel rest) .nil
        (instring rest)) s = r at henough h
      cases r with
      | error stop =>
        cases h
        exact henough rfl
      | ok x => cases h
    · intro x p' hy
      obtain ⟨hx, rfl⟩ := yields_lift_iff.mp hy
      exact ⟨rfl, readAtstring_ne_symbol hx⟩

theorem Settings.settle (c : Settings F) (s : List Nat) : AtstringsSettle (c.env s) s.length := by
  cases hc : c.atstrings with
  | true =>
    have henv : c.env s = ⟨c.flo, some (atstringReader c.flo s.length)⟩ := by rw [Settings.env, hc]; rfl
    rw [henv]
    exact atstringReader_settles c.flo s.length
  | false =>
    rintro f hf
    rw [Settings.env, hc] at hf
    cases hf

variable (c : Settings F)

theorem readText_settles (s : List Nat) :
    Settles (sread (c.env s) (readFuel s) .nil) (instring s) (SreadDone .nil s) :=
  (readersSettle (c.settle s) (readFuel s)).sread (At.clean s) le_rfl (by rw [readFuel])

theorem readText_ne_fuel (s : List Nat) : readText c s ≠ .error .fuel := by
  have henough := (readText_settles c s).enough
  rw [Enough] at henough
  rw [readText]
  cases hr : sread (c.env s) (readFuel s) .nil (instring s) with
  | error stop =>
    rw [hr] at henough
    intro h
    cases h
    exact henough rfl
  | ok r => exact fun h => by cases h

theorem readText_symbol {m : List Nat} (h : readText c s = .ok (.symbol m)) : ∀ r ∈ m, r ∈ s := by
  rw [readText] at h
  cases hr : sread (c.env s) (readFuel s) .nil (instring s) with
  | error stop =>
    rw [hr] at h
    cases h
  | ok r =>
    rw [hr] at h
    have hsym : r.1 = .symbol m := Except.ok.inj h
    rcases ((readText_settles c s).ensures r.1 r.2 hr).2 with hnil | hfrom
    · rw [hsym] at hnil
      cases hnil
    · exact hfrom m hsym

end Total

end Arcueid.Reader
