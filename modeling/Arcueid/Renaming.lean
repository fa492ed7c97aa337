import Arcueid.CompileFollows

/-! Expressions that differ in the names of required parameters (`compiler.c`).
`Renames` goes through the forms the compiler knows; a list of pairs says which
names have been renamed where, the latest binding first. -/

namespace Arcueid.Scope

open Parts (isMacro)

/-- A name and what it becomes. -/
abbrev Renaming := List (Sym × Sym)

/-- The names stand for the same binding, or for the same free name. -/
def Alike : Renaming → Sym → Sym → Prop
  | [], s, t => s = t
  | (a, b) :: ps, s, t => s = a ∧ t = b ∨ s ≠ a ∧ t ≠ b ∧ Alike ps s t

theorem Alike.head {ps : Renaming} {a b : Sym} : Alike ((a, b) :: ps) a b := .inl ⟨rfl, rfl⟩

theorem Alike.skip {ps : Renaming} {a b s t : Sym} (hs : s ≠ a) (ht : t ≠ b) (h : Alike ps s t) :
    Alike ((a, b) :: ps) s t := .inr ⟨hs, ht, h⟩

/-- Names that stay what they are. -/
def kept (gs : List Sym) : Renaming := gs.map fun g => (g, g)

theorem Alike.kept {gs : List Sym} {g : Sym} (hg : g ∈ gs) (ps : Renaming) :
    Alike (kept gs ++ ps) g g := by
  induction gs with
  | nil => simp at hg
  | cons a gs ih =>
    by_cases ha : g = a
    · exact .inl ⟨ha, ha⟩
    · exact .inr ⟨ha, ha, ih ((List.mem_cons.mp hg).resolve_left ha)⟩

section Environments

/-- Compile-time environments of the same shape, with the names of a renaming. -/
inductive EnvsAlike : Renaming → CEnv → CEnv → Prop
  | base (env : CEnv) : EnvsAlike [] env env
  | frame {ps : Renaming} {env env' : CEnv} :
      EnvsAlike ps env env' → EnvsAlike ps ([] :: env) ([] :: env')
  | name {ps : Renaming} {f f' : EnvFrame} {env env' : CEnv} (a b : Sym) (idx : Nat) :
      EnvsAlike ps (f :: env) (f' :: env') →
      EnvsAlike ((a, b) :: ps) (addEnvName (f :: env) (.symbol a) idx)
        (addEnvName (f' :: env') (.symbol b) idx)

variable {W : Type} {host : Host W} {ps : Renaming} {env env' : CEnv}

theorem EnvsAlike.ne_nil (h : EnvsAlike ps env env') (hne : env ≠ []) : env' ≠ [] := by
  cases h with
  | base => exact hne
  | frame => simp
  | name => simp [addEnvName]

theorem addEnvName_ne_nil {name : Value} {idx : Nat} (hne : env ≠ []) :
    addEnvName env name idx ≠ [] := by
  cases env with
  | nil => exact absurd rfl hne
  | cons => simp [addEnvName]

theorem EnvsAlike.add (h : EnvsAlike ps env env') (hne : env ≠ []) (a b : Sym) (idx : Nat) :
    EnvsAlike ((a, b) :: ps) (addEnvName env (.symbol a) idx) (addEnvName env' (.symbol b) idx) := by
  cases env with
  | nil => exact absurd rfl hne
  | cons f env =>
    cases env' with
    | nil => exact absurd rfl (h.ne_nil hne)
    | cons f' env' => exact .name a b idx h

theorem findVar_frame (var : Value) (env : CEnv) :
    findVar host var ([] :: env) = (findVar host var env).map fun p => (p.1 + 1, p.2) := rfl

theorem findVar_entry (var k v : Value) (f : EnvFrame) (env : CEnv) :
    findVar host var (((k, v) :: f) :: env) =
      if var = k then some (0, frameIndex host v) else findVar host var (f :: env) := by
  rw [findVar, List.lookup_cons]
  by_cases h : var = k
  · rw [if_pos h, beq_iff_eq.mpr h]
  · rw [if_neg h, beq_eq_false_iff_ne.mpr h, findVar]

theorem findVar_addEnvName (s a : Sym) (f : EnvFrame) (env : CEnv) (idx : Nat) :
    findVar host (.symbol s) (addEnvName (f :: env) (.symbol a) idx) =
      if s = a then some (0, idx) else findVar host (.symbol s) (f :: env) := by
  rw [addEnvName, findVar_entry, findVar_entry, if_neg (by simp [int2fix])]
  simp [int2fix, frameIndex]

/-- A name is found where the name it became is found. -/
theorem EnvsAlike.finds (h : EnvsAlike ps env env') {s t : Sym} (hst : Alike ps s t) :
    findVar host (.symbol s) env = findVar host (.symbol t) env' := by
  induction h with
  | base env => rw [show s = t from hst]
  | frame _ ih => rw [findVar_frame, findVar_frame, ih hst]
  | name a b idx _ ih =>
    rw [findVar_addEnvName, findVar_addEnvName]
    rcases hst with ⟨rfl, rfl⟩ | ⟨hs, ht, hst⟩
    · rw [if_pos rfl, if_pos rfl]
    · rw [if_neg hs, if_neg ht, ih hst]

/-- What is neither a name nor an index is found in no new frame. -/
theorem EnvsAlike.finds_other (h : EnvsAlike ps env env') {v : Value}
    (hsym : ∀ s, v ≠ .symbol s) (hfix : ∀ n, v ≠ .fixnum n) :
    findVar host v env = findVar host v env' := by
  induction h with
  | base env => rfl
  | frame _ ih => rw [findVar_frame, findVar_frame, ih]
  | name a b idx _ ih =>
    have hskip (c : Sym) (g : EnvFrame) (e : CEnv) :
        findVar host v (addEnvName (g :: e) (.symbol c) idx) =
          findVar host v (g :: e) := by
      rw [addEnvName, findVar_entry, findVar_entry, if_neg (show v ≠ int2fix idx from hfix _),
        if_neg (hsym _)]
    rw [hskip, hskip, ih]

theorem EnvsAlike.eq (h : EnvsAlike ps env env') (hps : ∀ p ∈ ps, p.1 = p.2) : env = env' := by
  induction h with
  | base env => rfl
  | frame _ ih => rw [ih hps]
  | name a b idx _ ih =>
    rw [show a = b from hps (a, b) (.head _), ih fun p hp => hps p (.tail _ hp)]

end Environments

/-- Neither a cons nor the end of a list. -/
def isTail : Value → Bool
  | .nil | .cons _ _ => false
  | _ => true

def consP : Value → Bool
  | .cons _ _ => true
  | _ => false

/-- Lists of the same length, element by element. -/
inductive Each (R : Renaming → Value → Value → Prop) : Value → Value → Renaming → Prop
  | nil (ps : Renaming) : Each R .nil .nil ps
  | cons {ps : Renaming} {a a' d d' : Value} : R ps a a' → Each R d d' ps →
      Each R (.cons a d) (.cons a' d') ps
  | tail {ps : Renaming} {v v' : Value} : isTail v → isTail v' → Each R v v' ps

/-- The places and values of an assignment. -/
inductive Places (P R : Renaming → Value → Value → Prop) : Value → Value → Renaming → Prop
  | nil (ps : Renaming) : Places P R .nil .nil ps
  | pair {ps : Renaming} {a a' v v' d d' : Value} : P ps a a' → R ps v v' → Places P R d d' ps →
      Places P R (.cons a (.cons v d)) (.cons a' (.cons v' d')) ps
  | odd {ps : Renaming} {a a' d d' : Value} : P ps a a' → consP d = false → consP d' = false →
      Places P R (.cons a d) (.cons a' d') ps
  | tail {ps : Renaming} {v v' : Value} : isTail v → isTail v' → Places P R v v' ps

section Parameters

/-! The names that parameters bind, in the order in which the compiler adds
them; `R` relates the defaults, `B` the names of required parameters. -/

variable (R : Renaming → Value → Value → Prop) (B : Sym → Sym → Prop)

/-- What follows the name of an optional argument. -/
inductive Default : Value → Value → Renaming → Prop
  | none (ps : Renaming) : Default .nil .nil ps
  | some {ps : Renaming} {e e' : Value} (d d' : Value) : R ps e e' →
      Default (.cons e d) (.cons e' d') ps
  | tail {ps : Renaming} {v v' : Value} : isTail v → isTail v' → Default v v' ps

/-- What follows the `o` of an optional argument. -/
inductive Optional : Value → Value → Renaming → Renaming → Prop
  | named {ps : Renaming} {d d' : Value} (s : Sym) : Default R d d' ps →
      Optional (.cons (.symbol s) d) (.cons (.symbol s) d') ps ((s, s) :: ps)
  | unnamed {ps : Renaming} {n : Value} (d d' : Value) : isSymbol n = false →
      Optional (.cons n d) (.cons n d') ps ps
  | other {ps : Renaming} {v v' : Value} : consP v = false → consP v' = false →
      Optional v v' ps ps

/-- Whether a cons inside a pattern is read as an optional argument. -/
def optionalP (optional : Bool) (a d : Value) : Bool :=
  optional && decide (a = .symbol .sO) && match d with
    | .nil | .cons .nil _ => false
    | _ => true

/-- A pattern. -/
inductive Pattern : Bool → Value → Value → Renaming → Renaming → Prop
  | nil (b : Bool) (ps : Renaming) : Pattern b .nil .nil ps ps
  | name (b : Bool) (ps : Renaming) (s : Sym) :
      Pattern b (.symbol s) (.symbol s) ps ((s, s) :: ps)
  | optional {ps ps₁ : Renaming} {d d' : Value} : optionalP true (.symbol .sO) d →
      optionalP true (.symbol .sO) d' → Optional R d d' ps ps₁ →
      Pattern true (.cons (.symbol .sO) d) (.cons (.symbol .sO) d') ps ps₁
  | cons {b : Bool} {ps ps₁ ps₂ : Renaming} {a a' d d' : Value} : optionalP b a d = false →
      optionalP b a' d' = false → Pattern true a a' ps ps₁ → Pattern false d d' ps₁ ps₂ →
      Pattern b (.cons a d) (.cons a' d') ps ps₂
  | other {b : Bool} {ps : Renaming} {v : Value} : isTail v → isSymbol v = false →
      Pattern b v v ps ps

/-- The patterns that were put off: the parameters, and what they became. -/
abbrev PutOff := List (Value × Value)

/-- One argument. -/
inductive Arg : Value → Value → Renaming → PutOff → Renaming → PutOff → Prop
  | required {ps : Renaming} {dsb : PutOff} {s t : Sym} : B s t →
      Arg (.symbol s) (.symbol t) ps dsb ((s, t) :: ps) dsb
  | optional {ps ps₁ : Renaming} {dsb : PutOff} {d d' : Value} : Optional R d d' ps ps₁ →
      Arg (.cons (.symbol .sO) d) (.cons (.symbol .sO) d') ps dsb ps₁ dsb
  | pattern {ps : Renaming} {dsb : PutOff} {a a' : Value} (d d' : Value) :
      a ≠ .symbol .sO → a' ≠ .symbol .sO →
      Arg (.cons a d) (.cons a' d') ps dsb ps ((.cons a d, .cons a' d') :: dsb)
  | blank (ps : Renaming) (dsb : PutOff) : Arg .nil .nil ps dsb ps dsb
  | other {ps : Renaming} {dsb : PutOff} {v : Value} : isTail v → isSymbol v = false →
      Arg v v ps dsb ps dsb

inductive Args : Value → Value → Renaming → PutOff → Renaming → PutOff → Prop
  | last {ps ps₁ : Renaming} {dsb dsb₁ : PutOff} {a a' : Value} :
      Arg R B a a' ps dsb ps₁ dsb₁ → Args (.cons a .nil) (.cons a' .nil) ps dsb ps₁ dsb₁
  | rest {ps ps₁ : Renaming} {dsb dsb₁ : PutOff} {a a' : Value} (s : Sym) :
      Arg R B a a' ps dsb ps₁ dsb₁ →
      Args (.cons a (.symbol s)) (.cons a' (.symbol s)) ps dsb ((s, s) :: ps₁) dsb₁
  | more {ps ps₁ ps₂ : Renaming} {dsb dsb₁ dsb₂ : PutOff} {a a' d d' : Value} :
      Arg R B a a' ps dsb ps₁ dsb₁ → Args d d' ps₁ dsb₁ ps₂ dsb₂ →
      Args (.cons a d) (.cons a' d') ps dsb ps₂ dsb₂
  | other {ps : Renaming} {dsb : PutOff} {v : Value} : isTail v → isSymbol v = false →
      Args v v ps dsb ps dsb

inductive Patterns : PutOff → Renaming → Renaming → Prop
  | nil (ps : Renaming) : Patterns [] ps ps
  | cons {ps ps₁ ps₂ : Renaming} {p p' : Value} {dsb : PutOff} :
      Pattern R false p p' ps ps₁ → Patterns dsb ps₁ ps₂ → Patterns ((p, p') :: dsb) ps ps₂

/-- The parameters of a fn. -/
inductive Params : Value → Value → Renaming → Renaming → Prop
  | none (ps : Renaming) : Params .nil .nil ps ps
  | rest (ps : Renaming) (s : Sym) : Params (.symbol s) (.symbol s) ps ((s, s) :: ps)
  | list {ps ps₁ ps₂ : Renaming} {a a' d d' : Value} {dsb : PutOff} :
      Args R B (.cons a d) (.cons a' d') ps [] ps₁ dsb → Patterns R dsb ps₁ ps₂ →
      Params (.cons a d) (.cons a' d') ps ps₂
  | other {ps : Renaming} {v : Value} : isTail v → isSymbol v = false → Params v v ps ps

end Parameters

/-- Where a name stands: as an expression, as the operator of a list, as that of
a list whose special syntax has been expanded, or as a function of a `compose`,
a `complement` or an `andf` that is an operator. -/
inductive Spot where
  | expr | op | call | operand
  deriving DecidableEq

/-- Where what a symbol with special syntax stands for is looked at. -/
def Spot.expanded : Spot → Spot
  | .expr | .call => .expr
  | .op | .operand => .call

def isSpecial : Sym → Bool
  | .sIf | .sFn | .sQuote | .sAssign => true
  | _ => false

def isInlined : Sym → Bool
  | .sCons | .sCar | .sCdr | .sPlus | .sTimes | .sMinus | .sDiv => true
  | _ => false

/-- A list with one of these in front is taken apart when it is an operator. -/
def isFunctional : Value → Bool
  | .symbol .sCompose | .symbol .sComplement | .symbol .sAndf => true
  | _ => false

def isConstant (s : Sym) : Bool := literalP (.symbol s)

/-- What may be asked of a renaming: of a name and its new name at a spot, of a
place that is assigned to, of the front of a list that is an operator, of a name
that the compiler inserts, and of names that it binds. -/
structure Care where
  name : Spot → Sym → Sym → Prop
  place : Sym → Sym → Prop
  number : Renaming → Prop
  head : Value → Value → Prop
  inserted : Renaming → Sym → Prop
  hidden : List Sym → Prop

section Expressions

variable {W : Type} (host : Host W) (w : W)

/-- A symbol that is the name of a variable, as far as a new name has to be. -/
structure Fresh (t : Sym) : Prop where
  noSyntax : host.ssexpand t = .ok .nil
  notSpecial : isSpecial t = false
  notMacro : isMacro host w (.symbol t) = false

/-- A place. -/
inductive Place (care : Care) : Renaming → Value → Value → Prop
  | name {ps : Renaming} {s t : Sym} : Alike ps s t → care.place s t →
      Place care ps (.symbol s) (.symbol t)
  | number {ps : Renaming} (n : Int) : care.number ps → Place care ps (.fixnum n) (.fixnum n)
  | other {ps : Renaming} {v : Value} : isSymbol v = false → (∀ n, v ≠ .fixnum n) →
      (∀ op args, v = .cons op args → isMacro host w op = false) → Place care ps v v

/-- `e` with required parameters renamed is `e'`; no macro is called. -/
inductive Renames (care : Care) : Spot → Renaming → Value → Value → Prop
  | atom {m : Spot} {ps : Renaming} {v : Value} : isSymbol v = false → consP v = false →
      Renames care m ps v v
  | name {m : Spot} {ps : Renaming} {s t : Sym} : host.ssexpand s = .ok .nil →
      host.ssexpand t = .ok .nil → Alike ps s t → (s = t → m = .op → isSpecial s = false) →
      (s = t → m ≠ .expr → isMacro host w (.symbol s) = false) → care.name m s t →
      Renames care m ps (.symbol s) (.symbol t)
  | special {m : Spot} {ps : Renaming} {s t : Sym} {v v' : Value} : host.ssexpand s = .ok v →
      host.ssexpand t = .ok v' → v ≠ .nil → v' ≠ .nil → isConstant s = false →
      isConstant t = false → (m = .op ∨ m = .operand → isSpecial s = false ∧ isSpecial t = false) →
      (m = .call → isInlined s = false ∧ isInlined t = false ∧
        isMacro host w (.symbol s) = false ∧ isMacro host w (.symbol t) = false) →
      Renames care m.expanded ps v v' → Renames care m ps (.symbol s) (.symbol t)
  | broken {m : Spot} {ps : Renaming} {s : Sym} {e : CompileError} :
      host.ssexpand s = .error e →
      (m ≠ .expr → isSpecial s = false ∧ isInlined s = false ∧
        isMacro host w (.symbol s) = false) →
      Renames care m ps (.symbol s) (.symbol s)
  | quote {ps : Renaming} (d : Value) :
      Renames care .expr ps (.cons (.symbol .sQuote) d) (.cons (.symbol .sQuote) d)
  | ifForm {ps : Renaming} {d d' : Value} : Each (Renames care .expr) d d' ps →
      Renames care .expr ps (.cons (.symbol .sIf) d) (.cons (.symbol .sIf) d')
  | assign {ps : Renaming} {d d' : Value} :
      Places (Place host w care) (Renames care .expr) d d' ps →
      Renames care .expr ps (.cons (.symbol .sAssign) d) (.cons (.symbol .sAssign) d')
  | fn {ps ps₁ : Renaming} {p p' b b' : Value} :
      Params (Renames care .expr) (fun s t => s ≠ t → Fresh host w t) p p' ps ps₁ →
      Each (Renames care .expr) b b' ps₁ →
      Renames care .expr ps (.cons (.symbol .sFn) (.cons p b)) (.cons (.symbol .sFn) (.cons p' b'))
  | fnOther {ps : Renaming} {v v' : Value} : consP v = false → consP v' = false →
      Renames care .expr ps (.cons (.symbol .sFn) v) (.cons (.symbol .sFn) v')
  | app {ps : Renaming} {o o' d d' : Value} : Renames care .op ps o o' →
      Each (Renames care .expr) d d' ps → Renames care .expr ps (.cons o d) (.cons o' d')
  | and {ps : Renaming} {d d' : Value} : isMacro host w (.symbol .sAnd) →
      Each (Renames care .expr) d d' ps →
      Renames care .expr ps (.cons (.symbol .sAnd) d) (.cons (.symbol .sAnd) d')
  | list {m : Spot} {ps : Renaming} {o o' d d' : Value} : m ≠ .expr → care.head o o' →
      Renames care .expr ps (.cons o d) (.cons o' d') →
      Renames care m ps (.cons o d) (.cons o' d')
  | compose {m : Spot} {ps : Renaming} {d d' : Value} : m ≠ .expr →
      Each (Renames care .operand) d d' ps →
      Renames care m ps (.cons (.symbol .sCompose) d) (.cons (.symbol .sCompose) d')
  | complement {m : Spot} {ps : Renaming} {d d' : Value} : m ≠ .expr → care.inserted ps .sNo →
      Each (Renames care .operand) d d' ps →
      Renames care m ps (.cons (.symbol .sComplement) d) (.cons (.symbol .sComplement) d')
  | andf {m : Spot} {ps : Renaming} {d d' : Value} : m ≠ .expr →
      (∀ gs, care.hidden gs → care.inserted (kept gs ++ ps) .sAnd) →
      (∀ gs, care.hidden gs → Each (Renames care .operand) d d' (kept gs ++ ps)) →
      Renames care m ps (.cons (.symbol .sAndf) d) (.cons (.symbol .sAndf) d')

/-- The compiler looks at a name at a spot for nothing but its variable. -/
structure Plain (m : Spot) (s : Sym) : Prop where
  notConstant : isConstant s = false
  notOperator : m ≠ .expr → isInlined s = false ∧ isMacro host w (.symbol s) = false
  notSpecial : m = .op → isSpecial s = false

/-- Renamings that only the environment sees. -/
def silent : Care where
  name m s t := (m = .operand → isSpecial s = false ∧ isSpecial t = false) ∧
    (s ≠ t → Plain host w m s ∧ Plain host w m t)
  place s t := s ≠ t → s ≠ .sT ∧ t ≠ .sT
  number ps := ∀ p ∈ ps, p.1 = p.2
  head o o' := isFunctional o = false ∧ isFunctional o' = false
  inserted ps s := isMacro host w (.symbol s) = true ∨ Alike ps s s
  hidden gs := ∀ g ∈ gs, ∃ n : Nat, g = host.intern s!"g{n}"

/-- All renamings. -/
def anyCare : Care where
  name _ _ _ := True
  place _ _ := True
  number _ := True
  head _ _ := True
  inserted _ _ := True
  hidden gs := gs = []

end Expressions

end Arcueid.Scope
