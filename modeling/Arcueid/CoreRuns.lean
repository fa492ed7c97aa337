import Mathlib.Logic.Relation
import Arcueid.CoreCalls

/-! The machine runs the code of an expression of the core to the value of the
expression, with the effects on variables and globals that evaluating it has. -/

namespace Arcueid.Core

section Rounds

variable (rt : Runtime) (codes : List Code)

/-- One round of the trampoline, and rounds after each other. -/
def Round (x y : Machine × Tr) : Prop := trampoline rt codes x = .ok (some y)

abbrev Reaches : Machine × Tr → Machine × Tr → Prop := Relation.ReflTransGen (Round rt codes)

variable {rt codes} {x y : Machine × Tr}

theorem Reaches.halts (h : Reaches rt codes x y) (hend : trampoline rt codes y = .ok none) :
    Halts rt codes x (.ok y.1) := by
  induction h using Relation.ReflTransGen.head_induction_on with
  | refl =>
    refine ⟨1, ?_⟩
    rw [runThread, hend]
  | head hround _ ih =>
    obtain ⟨n, hn⟩ := ih
    refine ⟨n + 1, ?_⟩
    rw [runThread, show trampoline rt codes _ = _ from hround]
    exact hn

/-- Words stand in code at a position. -/
def CodeAt (code : List Value) (p : Nat) (ws : List Value) : Prop :=
  ∃ pre suf, code = pre ++ ws ++ suf ∧ pre.length = p

variable {code ws ws' : List Value} {p q : Nat} {c : Code} {i : Instr}

theorem CodeAt.left (h : CodeAt code p (ws ++ ws')) : CodeAt code p ws := by
  obtain ⟨pre, suf, rfl, hp⟩ := h
  exact ⟨pre, ws' ++ suf, by simp, hp⟩

theorem CodeAt.right (h : CodeAt code p (ws ++ ws')) (hq : q = p + ws.length) : CodeAt code q ws' := by
  obtain ⟨pre, suf, rfl, rfl⟩ := h
  refine ⟨pre ++ ws, suf, by simp, ?_⟩
  rw [hq, List.length_append]

theorem CodeAt.instrAt (h : CodeAt c.code p i.words) (harity : i.args.length = i.op.arity) :
    c.instrAt p = some i := by
  obtain ⟨pre, suf, hcode, rfl⟩ := h
  have hword : c.code = pre ++ int2fix i.op.opcode :: (i.args ++ suf) := by
    rw [hcode]
    simp [Instr.words]
  unfold Code.instrAt
  rw [hword, List.getElem?_append_right (Nat.le_refl _)]
  have hdrop : pre.drop (pre.length + 1) = [] := List.drop_eq_nil_of_le (by omega)
  simp [int2fix, ← harity, List.drop_append, hdrop]

/-- A function that runs code which has some literals. -/
structure InCode (codes : List Code) (c : Code) (lits : List Value) (funr : Value) : Prop where
  funr : ∃ n w, funr = .clos (.code n) w ∧ codes[n]? = some c
  lits : lits <+: c.literals

variable {lits : List Value} {m : Machine}

theorem InCode.literalAt {i : Nat} {v funr : Value} (hin : InCode codes c lits funr) (hi : lits[i]? = some v) :
    literalAt c (int2fix i) = .ok v := by
  have hget : c.literals[i]? = some v := getElem?_kept hin.lits hi
  simp only [Arcueid.literalAt, int2fix, fix2int, Int.toNat_natCast, hget]

/-- One instruction. -/
theorem InCode.step (hin : InCode codes c lits m.funr) (h : CodeAt c.code m.ip i.words)
    (harity : i.args.length = i.op.arity)
    (hrun : runInstr rt c { m with ip := m.ip + i.size } m.ip i = .ok y) : Reaches rt codes (m, .resume) y := by
  obtain ⟨n, w, hfunr, hn⟩ := hin.funr
  refine .single ?_
  have hengine : vmengine rt codes m = .ok y := by
    rw [vmengine, hfunr]
    simp only [hn, h.instrAt harity]
    rw [← hfunr]
    exact hrun
  rw [Round, trampoline]
  simp only [hfunr, hengine]
  rfl

theorem InCode.loads {v : Value} (hin : InCode codes c lits m.funr) (h : CodeAt c.code m.ip ws)
    (hloads : Loads lits v ws) :
    Reaches rt codes (m, .resume) ({ m with valr := literal v, ip := m.ip + ws.length }, .resume) := by
  cases hloads with
  | inil hv => exact hin.step h rfl (by rw [hv]; rfl)
  | itrue hv => exact hin.step h rfl (by rw [hv]; rfl)
  | ildi hv => exact hin.step h rfl (by rw [hv]; rfl)
  | ildl hv hi =>
    refine hin.step h rfl ?_
    simp only [runInstr, hin.literalAt hi, hv]
    rfl

end Rounds

section Access

variable {W : Type} {host : Host W} {rt : Runtime} {codes : List Code} {κ : Places} {σ σ' : Store} {m : Machine}
  {env : Env} {B E : Nat} {outer : Value} {own : List Nat} {s : Sym} {v : CoreVal} {lits ws : List Value} {c : Code}

/-- The machine reads a variable. -/
theorem InCode.reads (hin : InCode codes c lits m.funr) (h : CodeAt c.code m.ip ws)
    (haccess : Access host .ilde0 .ilde .ildg lits (cenvOf env) s ws) (hread : σ.read env s = some v)
    (hhere : Here host codes κ σ env B E outer own m) : ∃ w, Holds host codes κ v w ∧
      Reaches rt codes (m, .resume) ({ m with valr := w, ip := m.ip + ws.length }, .resume) := by
  have hframe : ∀ level i, position s env = some (level, i) →
      ∃ w, arcGetenv m level i = some w ∧ Holds host codes κ v w := by
    intro level i hpos
    rw [Store.read, hpos] at hread
    obtain ⟨⟨f, vals⟩, hat, hi⟩ := Option.bind_eq_some_iff.mp hread
    exact hhere.getenv hat hi
  cases haccess with
  | @inner i hvar =>
    rw [findVar_cenvOf] at hvar
    obtain ⟨w, hget, hw⟩ := hframe 0 i hvar
    refine ⟨w, hw, hin.step h rfl ?_⟩
    have hget' : arcGetenv { m with ip := m.ip + Instr.size ⟨.ilde0, [int2fix i]⟩ } 0
        (fix2int (int2fix i)).toNat = some w := hget
    simp only [runInstr, hget', Option.map_some]
    rfl
  | @outer level i hvar =>
    rw [findVar_cenvOf] at hvar
    obtain ⟨w, hget, hw⟩ := hframe (level + 1) i hvar
    refine ⟨w, hw, hin.step h rfl ?_⟩
    have hget' : arcGetenv { m with ip := m.ip + Instr.size ⟨.ilde, [int2fix (level + 1 : Nat), int2fix i]⟩ }
        (fix2int (int2fix (level + 1 : Nat))).toNat (fix2int (int2fix i)).toNat = some w := hget
    simp only [runInstr, hget', Option.map_some]
    rfl
  | @global i hvar hi =>
    rw [findVar_cenvOf] at hvar
    rw [Store.read, hvar] at hread
    have hlit := hin.literalAt hi
    by_cases hunbound : σ.globals s = .data .unbound
    · simp [hunbound] at hread
    · simp only [hunbound, if_false, Option.some.injEq] at hread
      subst hread
      have hglobal := hhere.inv.globals s
      have hbound : m.genv s ≠ .unbound := by
        intro hu
        rw [hu] at hglobal
        generalize σ.globals s = v at hglobal hunbound
        cases hglobal
        exact hunbound rfl
      refine ⟨m.genv s, hglobal, hin.step h rfl ?_⟩
      simp only [runInstr, hlit]
      exact if_neg hbound

/-- The machine sets a variable. -/
theorem InCode.writes (hin : InCode codes c lits m.funr) (h : CodeAt c.code m.ip ws)
    (haccess : Access host .iste0 .iste .istg lits (cenvOf env) s ws) (hwrite : σ.write env s v = some σ')
    (hv : Holds host codes κ v m.valr) (hhere : Here host codes κ σ env B E outer own m) :
    ∃ m', Reaches rt codes (m, .resume) (m', .resume) ∧ m'.ip = m.ip + ws.length ∧ m'.valr = m.valr ∧
      m'.sp = m.sp ∧ After host codes κ σ env B E outer own m κ σ' m' := by
  have hframe : ∀ level i, position s env = some (level, i) → ∀ k,
      ∃ m', arcPutenv { m with ip := k } level i m.valr = some m' ∧ m'.ip = k ∧ m'.valr = m.valr ∧
        m'.sp = m.sp ∧ After host codes κ σ env B E outer own m κ σ' m' := by
    intro level i hpos k
    rw [Store.write, hpos] at hwrite
    obtain ⟨⟨f, vals⟩, hat, hi⟩ := Option.bind_eq_some_iff.mp hwrite
    by_cases hlt : i < vals.length
    · simp only [hlt, if_true, Option.some.injEq] at hi
      subst hi
      obtain ⟨m', hput, hvalr, hip, hsp, hafter⟩ := (hhere.setRegs m.valr k m.argc).putenv hat hlt hv
      exact ⟨m', hput, hip, hvalr, hsp, hafter.here, hafter.grow, hafter.frozen, hafter.sp, hafter.funr, hafter.conr,
        hafter.slots⟩
    · simp [hlt] at hi
  cases haccess with
  | @inner i hvar =>
    rw [findVar_cenvOf] at hvar
    obtain ⟨m', hput, hip, hvalr, hsp, hafter⟩ := hframe 0 i hvar (m.ip + Instr.size ⟨.iste0, [int2fix i]⟩)
    refine ⟨m', hin.step h rfl ?_, hip, hvalr, hsp, hafter⟩
    have hput' : arcPutenv { m with ip := m.ip + Instr.size ⟨.iste0, [int2fix i]⟩ } 0
        (fix2int (int2fix i)).toNat m.valr = some m' := hput
    simp only [runInstr, hput']
  | @outer level i hvar =>
    rw [findVar_cenvOf] at hvar
    obtain ⟨m', hput, hip, hvalr, hsp, hafter⟩ := hframe (level + 1) i hvar
      (m.ip + Instr.size ⟨.iste, [int2fix (level + 1 : Nat), int2fix i]⟩)
    refine ⟨m', hin.step h rfl ?_, hip, hvalr, hsp, hafter⟩
    have hput' : arcPutenv { m with ip := m.ip + Instr.size ⟨.iste, [int2fix (level + 1 : Nat), int2fix i]⟩ }
        (fix2int (int2fix (level + 1 : Nat))).toNat (fix2int (int2fix i)).toNat m.valr = some m' := hput
    simp only [runInstr, hput']
  | @global i hvar hi =>
    rw [findVar_cenvOf] at hvar
    rw [Store.write, hvar] at hwrite
    obtain rfl := Option.some.inj hwrite
    have hlit := hin.literalAt hi
    have hinv := hhere.inv.setGlobal (s := s) hv
    refine ⟨{ m with ip := m.ip + 2, genv := Function.update m.genv s m.valr }, hin.step h rfl ?_, rfl, rfl, rfl,
      ⟨hinv, hhere.cur, hhere.pending, hhere.outer, hhere.base⟩, .refl κ, .refl κ σ env, le_refl _, rfl, rfl,
      fun _ _ _ _ => rfl⟩
    simp only [runInstr, hlit]
    rfl

end Access

section Outcomes

variable {W : Type} (host : Host W) (rt : Runtime) (codes : List Code)

/-- A function goes on with a value, past code of some length. -/
def Gives (κ : Places) (σ : Store) (env : Env) (B E : Nat) (outer : Value) (own : List Nat) (m : Machine)
    (len : Nat) (v : CoreVal) (σ' : Store) : Prop :=
  ∃ κ' m', Reaches rt codes (m, .resume) (m', .resume) ∧ m'.ip = m.ip + len ∧ m'.sp = m.sp ∧
    Holds host codes κ' v m'.valr ∧ After host codes κ σ env B E outer own m κ' σ' m'

/-- A function returns a value. -/
def Ends (κ : Places) (σ : Store) (env : Env) (B : Nat) (outer : Value) (x : Machine × Tr)
    (v : CoreVal) (σ' : Store) : Prop :=
  ∃ κ' m', Reaches rt codes x (m', .rc) ∧ Holds host codes κ' v m'.valr ∧
    Returned host codes κ σ env B outer x.1 κ' σ' m'

/-- What code does: it returns in a tail position, where nothing is pending. -/
def Does (cont : Bool) (κ : Places) (σ : Store) (env : Env) (B E : Nat) (outer : Value) (own : List Nat)
    (m : Machine) (len : Nat) (v : CoreVal) (σ' : Store) : Prop :=
  if cont then own = [] → Ends host rt codes κ σ env B outer (m, .resume) v σ'
  else Gives host rt codes κ σ env B E outer own m len v σ'

/-- The machine follows an evaluator. -/
def Simulates (ev : EvalFn) : Prop :=
  ∀ cont e env σ v σ' lits ws c κ B E outer own m, ev e env σ = some (v, σ') →
    Coded host codes (.expr cont) lits (cenvOf env) e ws → InCode codes c lits m.funr → CodeAt c.code m.ip ws →
    Here host codes κ σ env B E outer own m →
    Does host rt codes cont κ σ env B E outer own m ws.length v σ'

/-- Functions in C take their arguments from the stack and return what they are said
to. -/
def Primitives (prim : Nat → List Value → Option Value) : Prop :=
  ∀ (m : Machine) n env B vs r, m.valr = .ccode n env → m.argc = vs.length → m.sp = B + vs.length →
    (∀ (i : Nat) (v : Value), vs[i]? = some v → m.slot (B + i) = v) → prim n vs = some r →
    rt.applyOther { m with funr := m.valr } = .ok ({ m with funr := m.valr, sp := B, valr := r }, .rc)

variable {host rt codes} {κ κ' : Places} {σ σ₁ σ' : Store} {m m₁ : Machine} {env : Env} {B E len len' : Nat}
  {outer : Value} {own : List Nat} {v : CoreVal} {cont : Bool} {c : Code} {lits ws : List Value} {x y : Machine × Tr}

theorem Ends.of_reaches {env' : Env} (hreach : Reaches rt codes x y)
    (hafter : After host codes κ σ env B E outer [] x.1 κ' σ₁ y.1) (hB : B ≤ x.1.sp)
    (h : Ends host rt codes κ' σ₁ env' B outer y v σ')
    (henv : ∀ rib, env'.head? = some rib → env.head? = some rib) : Ends host rt codes κ σ env B outer x v σ' := by
  obtain ⟨κ₂, m₂, hrun, hv, hret⟩ := h
  refine ⟨κ₂, m₂, hreach.trans hrun, hv, hret.inv, hafter.grow.trans hret.grow, ?_, hret.conr, fun i hi => ?_⟩
  · refine hafter.frozen.trans fun f vals hvals hnone hne => hret.frozen f vals hvals hnone ?_
    exact fun rib hrib => hne rib (henv rib hrib)
  · rw [hret.slots i hi, hafter.slots i (hi.trans_le hB) (.inl hi) fun c hc => (by cases hc)]

theorem Gives.of_reaches (hreach : Reaches rt codes (m, .resume) (m₁, .resume))
    (hafter : After host codes κ σ env B E outer own m κ' σ₁ m₁) (hsp : m₁.sp = m.sp)
    (hlen : m₁.ip + len' = m.ip + len) (h : Gives host rt codes κ' σ₁ env B E outer own m₁ len' v σ') :
    Gives host rt codes κ σ env B E outer own m len v σ' := by
  obtain ⟨κ₂, m₂, hrun, hip, hsp₂, hv, hafter₂⟩ := h
  exact ⟨κ₂, m₂, hreach.trans hrun, hip.trans hlen, hsp₂.trans hsp, hv, hafter.trans hafter₂⟩

/-- What is done from a later point on. -/
theorem Does.of_reaches (hreach : Reaches rt codes (m, .resume) (m₁, .resume))
    (hafter : After host codes κ σ env B E outer own m κ' σ₁ m₁) (hsp : m₁.sp = m.sp) (hB : B ≤ m.sp)
    (hlen : cont = false → m₁.ip + len' = m.ip + len)
    (h : Does host rt codes cont κ' σ₁ env B E outer own m₁ len' v σ') :
    Does host rt codes cont κ σ env B E outer own m len v σ' := by
  cases cont with
  | false => exact Gives.of_reaches hreach hafter hsp (hlen rfl) h
  | true =>
    intro hown
    subst hown
    exact Ends.of_reaches hreach hafter hB (h rfl) fun _ hrib => hrib

/-- A value is returned, if the code is in a tail position. -/
theorem Gives.does (hin : InCode codes c lits m.funr) (hcode : CodeAt c.code m.ip (ws ++ retWords cont))
    (hB : B ≤ m.sp) (h : Gives host rt codes κ σ env B E outer own m ws.length v σ') :
    Does host rt codes cont κ σ env B E outer own m (ws ++ retWords cont).length v σ' := by
  cases cont with
  | false =>
    rw [retWords, if_neg (by simp), List.append_nil]
    exact h
  | true =>
    intro hown
    subst hown
    obtain ⟨κ', m', hrun, hip, hsp, hv, hafter⟩ := h
    have hret : CodeAt c.code m'.ip (Instr.words ⟨.iret, []⟩) := hcode.right hip
    have hin' : InCode codes c lits m'.funr := by
      rw [hafter.funr]
      exact hin
    have hstep : Reaches rt codes (m', .resume) ({ m' with ip := m'.ip + Instr.size ⟨.iret, []⟩ }, .rc) :=
      hin'.step hret rfl rfl
    exact ⟨κ', _, hrun.trans hstep, hv, (hafter.setRegs m'.valr _ m'.argc).returned hB⟩

theorem After.inCode (h : After host codes κ σ env B E outer own m κ' σ' m₁) (hin : InCode codes c lits m.funr) :
    InCode codes c lits m₁.funr := by
  rw [h.funr]
  exact hin

/-- The registers change, and the instruction pointer with them. -/
theorem Here.moved (h : Here host codes κ σ env B E outer own m) (w : Value) (ip : Nat) :
    After host codes κ σ env B E outer own m κ σ { m with valr := w, ip := ip } :=
  .of_same h (fun _ _ => rfl) (le_refl _) rfl rfl rfl rfl rfl

end Outcomes

theorem jump_nat (m : Machine) (ip k : Nat) : jump m ip (int2fix (k : Nat)) = { m with ip := ip + k } := by
  have hip : ((ip : Int) + fix2int (int2fix (k : Nat))).toNat = ip + k := by
    rw [int2fix, fix2int]
    omega
  rw [jump, hip]

section Forms

variable {W : Type} {host : Host W} {rt : Runtime} {codes : List Code} {ev : EvalFn}

theorem Simulates.gives (hev : Simulates host rt codes ev) {e : Value} {env : Env} {lits ws : List Value} {c : Code}
    {σ σ' : Store} {v : CoreVal} {κ : Places} {B E : Nat} {outer : Value} {own : List Nat} {m : Machine}
    (heval : ev e env σ = some (v, σ')) (hcoded : Coded host codes (.expr false) lits (cenvOf env) e ws)
    (hin : InCode codes c lits m.funr) (hcode : CodeAt c.code m.ip ws)
    (hhere : Here host codes κ σ env B E outer own m) : Gives host rt codes κ σ env B E outer own m ws.length v σ' :=
  hev false _ _ _ _ _ _ _ _ _ _ _ _ _ _ heval hcoded hin hcode hhere

theorem Simulates.ends (hev : Simulates host rt codes ev) {e : Value} {env : Env} {lits ws : List Value} {c : Code}
    {σ σ' : Store} {v : CoreVal} {κ : Places} {B E : Nat} {outer : Value} {m : Machine}
    (heval : ev e env σ = some (v, σ')) (hcoded : Coded host codes (.expr true) lits (cenvOf env) e ws)
    (hin : InCode codes c lits m.funr) (hcode : CodeAt c.code m.ip ws)
    (hhere : Here host codes κ σ env B E outer [] m) : Ends host rt codes κ σ env B outer (m, .resume) v σ' := by
  have hdoes := hev true _ _ _ _ _ _ _ _ _ _ _ _ _ _ heval hcoded hin hcode hhere
  exact hdoes rfl

/-- `if`. -/
theorem Simulates.clauses (hev : Simulates host rt codes ev) {clauses : Value} {cont : Bool} {env : Env}
    {lits ws : List Value} {c : Code} (hcoded : Coded host codes (.clauses cont) lits (cenvOf env) clauses ws)
    {σ σ' : Store} {v : CoreVal} {κ : Places} {B E : Nat} {outer : Value} {own : List Nat} {m : Machine}
    (heval : evalIf ev clauses env σ = some (v, σ')) (hin : InCode codes c lits m.funr)
    (hcode : CodeAt c.code m.ip ws) (hhere : Here host codes κ σ env B E outer own m) :
    Does host rt codes cont κ σ env B E outer own m ws.length v σ' := by
  generalize hspot : Spot.clauses cont = spot at hcoded
  generalize hcenv : cenvOf env = cenv at hcoded
  induction hcoded generalizing σ κ m with
  | noClause =>
    cases hspot
    obtain ⟨rfl, rfl⟩ := Prod.mk.inj (Option.some.inj heval)
    refine Gives.does hin hcode hhere.le ⟨κ, _, hin.step hcode.left rfl rfl, rfl, rfl, .data, ?_⟩
    exact hhere.moved .nil _
  | lastClause he =>
    cases hspot
    subst hcenv
    exact hev _ _ _ _ _ _ _ _ _ _ _ _ _ _ _ heval he hin hcode hhere
  | @clause cont' lits env' e thn els we wt wl he hthn hels _ _ ih =>
    cases hspot
    subst hcenv
    obtain ⟨⟨v₁, σ₁⟩, heval₁, heval₂⟩ := Option.bind_eq_some_iff.mp heval
    have hcode₁ := hcode.left.left.left.left.left
    obtain ⟨κ₁, m₁, hrun₁, hip₁, hsp₁, hv₁, hafter₁⟩ :=
      hev.gives heval₁ he hin hcode₁ hhere
    have hin₁ := hafter₁.inCode hin
    have hijf : CodeAt c.code m₁.ip (Instr.words ⟨.ijf, [int2fix (2 + wt.length + 2 : Nat)]⟩) :=
      hcode.left.left.left.left.right hip₁
    by_cases hnil : v₁ = .data .nil
    · have heval₃ : evalIf ev els env σ₁ = some (v, σ') := by
        simpa [hnil] using heval₂
      have hstep : Reaches rt codes (m₁, .resume) ({ m₁ with ip := m₁.ip + (2 + wt.length + 2) }, .resume) := by
        refine hin₁.step hijf rfl ?_
        simp only [runInstr, hv₁.nil_iff.mp hnil, if_true]
        rw [jump_nat]
      have hels' : CodeAt c.code (m₁.ip + (2 + wt.length + 2)) wl := by
        refine hcode.left.right ?_
        simp [hip₁, Instr.words]
        omega
      refine Does.of_reaches (hrun₁.trans hstep) (hafter₁.setRegs m₁.valr _ m₁.argc) hsp₁ hhere.le ?_
        (ih heval₃ hin₁ hels' (hafter₁.here.setRegs m₁.valr _ m₁.argc) rfl rfl)
      rintro rfl
      simp [hip₁, Instr.words, retWords]
      omega
    · have heval₃ : ev thn env σ₁ = some (v, σ') := by
        simpa [hnil] using heval₂
      have hstep : Reaches rt codes (m₁, .resume) ({ m₁ with ip := m₁.ip + 2 }, .resume) := by
        refine hin₁.step hijf rfl ?_
        have hne : ¬ m₁.valr = .nil := fun hw => hnil (hv₁.nil_iff.mpr hw)
        simp only [runInstr, hne, if_false]
        rfl
      have hthn' : CodeAt c.code (m₁.ip + 2) wt := by
        refine hcode.left.left.left.right ?_
        simp [hip₁, Instr.words]
        omega
      obtain ⟨κ₃, m₃, hrun₃, hip₃, hsp₃, hv₃, hafter₃⟩ := hev.gives (m := { m₁ with ip := m₁.ip + 2 }) heval₃ hthn
        hin₁ hthn' (hafter₁.here.setRegs m₁.valr _ m₁.argc)
      have hip₃' : m₃.ip = m₁.ip + 2 + wt.length := hip₃
      have hijmp : CodeAt c.code m₃.ip (Instr.words ⟨.ijmp, [int2fix (2 + wl.length : Nat)]⟩) := by
        refine hcode.left.left.right ?_
        simp [hip₃', hip₁, Instr.words]
        omega
      have hskip : Reaches rt codes (m₃, .resume) ({ m₃ with ip := m₃.ip + (2 + wl.length) }, .resume) := by
        refine (hafter₃.inCode hin₁).step hijmp rfl ?_
        simp only [runInstr]
        rw [jump_nat]
      have hafter := (hafter₁.setRegs m₁.valr (m₁.ip + 2) m₁.argc).trans hafter₃
      refine Gives.does hin hcode hhere.le ⟨κ₃, _, hrun₁.trans (hstep.trans (hrun₃.trans hskip)), ?_,
        hsp₃.trans hsp₁, hv₃, hafter.setRegs m₃.valr _ m₃.argc⟩
      simp [hip₃', hip₁, Instr.words]
      omega
  | _ => cases hspot

/-- Arguments are pushed from left to right. -/
theorem Simulates.args (hev : Simulates host rt codes ev) {args : Value} {n : Nat} {env : Env}
    {lits ws : List Value} {c : Code} (hcoded : Coded host codes (.args n) lits (cenvOf env) args ws)
    {σ σ' : Store} {vs : List CoreVal} {κ : Places} {B E : Nat} {outer : Value} {own : List Nat} {m : Machine}
    (heval : evalArgs ev args env σ = some (vs, σ')) (hin : InCode codes c lits m.funr)
    (hcode : CodeAt c.code m.ip ws) (hhere : Here host codes κ σ env B E outer own m) :
    ∃ κ' m', Reaches rt codes (m, .resume) (m', .resume) ∧ m'.ip = m.ip + ws.length ∧ vs.length = n ∧
      m'.sp = m.sp + n ∧
      (∀ (i : Nat) (v : CoreVal), vs[i]? = some v → Holds host codes κ' v (m'.slot (m.sp + i))) ∧
      After host codes κ σ env B E outer own m κ' σ' m' := by
  generalize hspot : Spot.args n = spot at hcoded
  generalize hcenv : cenvOf env = cenv at hcoded
  induction hcoded generalizing n σ κ m vs with
  | noArg =>
    cases hspot
    obtain ⟨rfl, rfl⟩ := Prod.mk.inj (Option.some.inj heval)
    exact ⟨κ, m, .refl, rfl, rfl, rfl, fun i v hi => (by cases hi), .of_same hhere (fun _ _ => rfl) (le_refl _) rfl rfl
      rfl rfl rfl⟩
  | @arg lits env' e rest n' we wr he hrest _ ih =>
    cases hspot
    subst hcenv
    obtain ⟨⟨v₁, σ₁⟩, heval₁, hevalr⟩ := Option.bind_eq_some_iff.mp heval
    obtain ⟨⟨vs', σ₂⟩, heval₂, hvs⟩ := Option.bind_eq_some_iff.mp hevalr
    obtain ⟨rfl, rfl⟩ := Prod.mk.inj (Option.some.inj hvs)
    obtain ⟨κ₁, m₁, hrun₁, hip₁, hsp₁, hv₁, hafter₁⟩ :=
      hev.gives heval₁ he hin hcode.left.left hhere
    have hin₁ := hafter₁.inCode hin
    have hpush : Reaches rt codes (m₁, .resume) ({ m₁ with ip := m₁.ip + 1 }.cpush m₁.valr, .resume) :=
      hin₁.step (hcode.left.right hip₁) rfl rfl
    have hafterp : After host codes κ₁ σ₁ env B E outer own m₁ κ₁ σ₁ ({ m₁ with ip := m₁.ip + 1 }.cpush m₁.valr) :=
      .of_same hafter₁.here (fun i hi => Function.update_of_ne (Nat.ne_of_lt hi) _ _) (Nat.le_succ _) rfl rfl rfl rfl
        rfl
    have hcode₂ : CodeAt c.code (m₁.ip + 1) wr := by
      refine hcode.right ?_
      simp [hip₁, Instr.words]
      omega
    obtain ⟨κ₂, m₂, hrun₂, hip₂, hlen, hsp₂, hslots, hafter₂⟩ :=
      ih (m := { m₁ with ip := m₁.ip + 1 }.cpush m₁.valr) heval₂ hin₁ hcode₂ hafterp.here rfl rfl
    have hip₂' : m₂.ip = m₁.ip + 1 + wr.length := hip₂
    have hsp₂' : m₂.sp = m₁.sp + 1 + n' := hsp₂
    refine ⟨κ₂, m₂, hrun₁.trans (hpush.trans hrun₂), ?_, by simp [hlen], by omega, fun i v hi => ?_,
      hafter₁.trans (hafterp.trans hafter₂)⟩
    · simp [hip₂', hip₁, Instr.words]
      omega
    · cases i with
      | zero =>
        obtain rfl := Option.some.inj hi
        have hE := hafter₁.here.height
        have hkept : m₂.slot (m.sp + 0) = m₁.valr := by
          rw [Nat.add_zero, ← hsp₁, hafter₂.slots m₁.sp (Nat.lt_succ_self _) (.inr hE) fun d hd heq => ?_]
          · exact Function.update_self ..
          · have := hafter₁.here.pending.mem_le hd
            omega
        rw [hkept]
        exact hv₁.grow hafter₂.grow
      | succ i =>
        have hrest' := hslots i v hi
        have hindex : m.sp + (i + 1) = m₁.sp + 1 + i := by omega
        rw [hindex]
        exact hrest'
  | _ => cases hspot

/-- `assign`. -/
theorem Simulates.places (hev : Simulates host rt codes ev) {places : Value} {env : Env}
    {lits ws : List Value} {c : Code} (hcoded : Coded host codes .places lits (cenvOf env) places ws)
    {σ σ' : Store} {v : CoreVal} {κ : Places} {B E : Nat} {outer : Value} {own : List Nat} {m : Machine}
    (heval : evalAssign ev places env σ = some (v, σ')) (hin : InCode codes c lits m.funr)
    (hcode : CodeAt c.code m.ip ws) (hhere : Here host codes κ σ env B E outer own m) :
    Gives host rt codes κ σ env B E outer own m ws.length v σ' := by
  generalize hspot : Spot.places = spot at hcoded
  generalize hcenv : cenvOf env = cenv at hcoded
  induction hcoded generalizing σ κ m with
  | noPlace => cases heval
  | @place lits env' s e rest we ws' wr he hacc hrest _ ih =>
    subst hcenv
    obtain ⟨⟨v₁, σ₁⟩, heval₁, hevalr⟩ := Option.bind_eq_some_iff.mp heval
    obtain ⟨σ₂, hwrite, heval₂⟩ := Option.bind_eq_some_iff.mp hevalr
    obtain ⟨κ₁, m₁, hrun₁, hip₁, hsp₁, hv₁, hafter₁⟩ :=
      hev.gives heval₁ he hin hcode.left.left hhere
    have hin₁ := hafter₁.inCode hin
    obtain ⟨m₂, hrun₂, hip₂, hvalr₂, hsp₂, hafter₂⟩ :=
      hin₁.writes (hcode.left.right hip₁) hacc hwrite hv₁ hafter₁.here
    have hafter := hafter₁.trans hafter₂
    by_cases hnil : rest = .nil
    · subst hnil
      obtain ⟨rfl, rfl⟩ : v₁ = v ∧ σ₂ = σ' := by
        simpa using heval₂
      cases hrest with
      | noPlace =>
        refine ⟨κ₁, m₂, hrun₁.trans hrun₂, ?_, hsp₂.trans hsp₁, hvalr₂ ▸ hv₁, hafter⟩
        simp [hip₂, hip₁]
        omega
    · have heval₃ : evalAssign ev rest env σ₂ = some (v, σ') := by
        simpa [hnil] using heval₂
      have hcode₂ : CodeAt c.code m₂.ip wr := by
        refine hcode.right ?_
        simp [hip₂, hip₁]
        omega
      refine Gives.of_reaches (hrun₁.trans hrun₂) hafter (hsp₂.trans hsp₁) ?_
        (ih heval₃ (hafter.inCode hin) hcode₂ hafter.here rfl rfl)
      simp [hip₂, hip₁]
      omega
  | _ => cases hspot

/-- The body of a function. -/
theorem Simulates.body (hev : Simulates host rt codes ev) {body : Value} {env : Env}
    {lits ws : List Value} {c : Code} (hcoded : Coded host codes .body lits (cenvOf env) body ws)
    {σ σ' : Store} {v : CoreVal} {κ : Places} {B E : Nat} {outer : Value} {m : Machine}
    (heval : evalBody ev body env σ = some (v, σ')) (hin : InCode codes c lits m.funr)
    (hcode : CodeAt c.code m.ip ws) (hhere : Here host codes κ σ env B E outer [] m) :
    Ends host rt codes κ σ env B outer (m, .resume) v σ' := by
  generalize hspot : Spot.body = spot at hcoded
  generalize hcenv : cenvOf env = cenv at hcoded
  induction hcoded generalizing σ κ m with
  | noBody =>
    obtain ⟨rfl, rfl⟩ := Prod.mk.inj (Option.some.inj heval)
    have hgives : Gives host rt codes κ σ env B E outer [] m (Instr.words ⟨.inil, []⟩).length (.data .nil) σ :=
      ⟨κ, _, hin.step hcode.left rfl rfl, rfl, rfl, .data, hhere.moved .nil _⟩
    have hdoes : Does host rt codes true κ σ env B E outer [] m _ (.data .nil) σ := hgives.does hin hcode hhere.le
    exact hdoes rfl
  | @lastBody lits env' e ws he =>
    subst hcenv
    have hone : ev e env σ = some (v, σ') := by
      obtain ⟨⟨v₁, σ₁⟩, heval₁, heval₂⟩ := Option.bind_eq_some_iff.mp heval
      obtain ⟨rfl, rfl⟩ : v₁ = v ∧ σ₁ = σ' := by
        simpa using heval₂
      exact heval₁
    exact hev.ends hone he hin hcode hhere
  | @body lits env' e rest we wr hne he hrest _ ih =>
    subst hcenv
    obtain ⟨⟨v₁, σ₁⟩, heval₁, heval₂⟩ := Option.bind_eq_some_iff.mp heval
    have heval₃ : evalBody ev rest env σ₁ = some (v, σ') := by
      simpa [hne] using heval₂
    obtain ⟨κ₁, m₁, hrun₁, hip₁, hsp₁, hv₁, hafter₁⟩ :=
      hev.gives heval₁ he hin hcode.left hhere
    refine Ends.of_reaches hrun₁ hafter₁ hhere.le
      (ih heval₃ (hafter₁.inCode hin) (hcode.right hip₁) hafter₁.here rfl rfl) fun _ hrib => hrib
  | _ => cases hspot

end Forms

section Application

variable {W : Type} {host : Host W} {rt : Runtime} {codes : List Code} {ev : EvalFn} {κ κ' : Places} {σ σ₁ σ' : Store}
  {m : Machine} {env : Env} {B E : Nat} {outer : Value} {v f : CoreVal} {x y : Machine × Tr} {vs : List CoreVal}
  {prim : Nat → List Value → Option Value}

theorem dataOf_some {ws : List Value} (h : dataOf vs = some ws) : ws.length = vs.length ∧
    ∀ (i : Nat) (w : Value), ws[i]? = some w → vs[i]? = some (.data w) := by
  induction vs generalizing ws with
  | nil =>
    obtain rfl := Option.some.inj h
    exact ⟨rfl, fun i w hi => (by cases hi)⟩
  | cons v vs ih =>
    cases v with
    | clos => cases h
    | data w =>
      obtain ⟨rest, hrest, rfl⟩ := Option.map_eq_some_iff.mp h
      obtain ⟨hlen, hall⟩ := ih hrest
      refine ⟨by simp [hlen], fun i u hi => ?_⟩
      cases i with
      | zero => simpa using hi
      | succ i => exact hall i u hi

/-- A function that is called runs in an environment of its own. -/
theorem Ends.enter (hreach : Reaches rt codes x y) (h : Ends host rt codes κ σ₁ env B outer y v σ')
    (hslots : ∀ i, i < B → y.1.slot i = x.1.slot i)
    (hframes : ∀ f vals, σ.frames[f]? = some vals → κ f = none → σ₁.frames[f]? = some vals ∧
      ∀ rib, env.head? = some rib → f ≠ rib.frame) : Ends host rt codes κ σ [] B outer x v σ' := by
  obtain ⟨κ', m', hrun, hv, hret⟩ := h
  refine ⟨κ', m', hreach.trans hrun, hv, hret.inv, hret.grow, ?_, hret.conr, fun i hi =>
    (hret.slots i hi).trans (hslots i hi)⟩
  intro f vals hvals hnone _
  obtain ⟨hvals', hne⟩ := hframes f vals hvals hnone
  exact hret.frozen f vals hvals' hnone hne

theorem runEnv_exact (m : Machine) {n : Nat} (hargc : m.argc = n) : runEnv m n 0 0 = .ok (arcMkenv m n 0) := by
  rw [runEnv, if_neg (by omega), if_neg (by omega), hargc]
  simp

/-- A call of a function with its arguments on the stack. -/
theorem Simulates.applies (hev : Simulates host rt codes ev) (hprim : Primitives rt prim)
    (happly : apply ev prim σ vs f = some (v, σ')) (hf : Holds host codes κ f m.valr) (hargc : m.argc = vs.length)
    (hsp : m.sp = B + vs.length)
    (hslots : ∀ (i : Nat) (v : CoreVal), vs[i]? = some v → Holds host codes κ v (m.slot (B + i)))
    (hinv : Inv host codes κ σ m.heap m.genv) (houter : Outer m.slot B m.conr) :
    Ends host rt codes κ σ [] B m.conr (m, .fnapp) v σ' := by
  generalize hvalr : m.valr = valr at hf
  cases hf with
  | data =>
    cases valr with
    | ccode n cenv =>
      obtain ⟨args, hargs, happly⟩ := Option.bind_eq_some_iff.mp happly
      obtain ⟨r, hr, hres⟩ := Option.bind_eq_some_iff.mp happly
      obtain ⟨rfl, rfl⟩ := Prod.mk.inj (Option.some.inj hres)
      obtain ⟨hlen, hall⟩ := dataOf_some hargs
      have hother := hprim m n cenv B args r hvalr (by rw [hargc, hlen]) (by rw [hsp, hlen])
        (fun i u hi => (hslots i _ (hall i u hi)).data_iff) hr
      have hround : Reaches rt codes (m, .fnapp) ({ m with funr := m.valr, sp := B, valr := r }, .rc) := by
        refine .single ?_
        rw [Round, trampoline]
        simp only [applyVr]
        rw [hvalr] at hother ⊢
        rw [hother]
        rfl
      exact ⟨κ, _, hround, .data, hinv, .refl κ, .refl κ σ [], rfl, fun _ _ => rfl⟩
    | _ => cases happly
  | @clos params body w cenv names n c ws more lits hparams hn hcode hlits hbody henv =>
    have hstart : Reaches rt codes (m, .fnapp) ({ m with ip := 0, envr := w, funr := m.valr }, .resume) := by
      refine .single ?_
      rw [Round, trampoline]
      simp only [applyVr, hvalr]
      rfl
    have hin : InCode codes c lits m.valr := ⟨⟨n, w, hvalr, hn⟩, hlits⟩
    have hentry : CodeAt c.code 0 (entryWords names ++ ws) := ⟨[], more, by rw [hcode]; rfl, rfl⟩
    obtain ⟨names', hnames', happly⟩ := Option.bind_eq_some_iff.mp happly
    obtain rfl := Option.some.inj (hparams.symm.trans hnames')
    by_cases hlen : vs.length = names.length
    · by_cases hnil : names = []
      · have heval : evalBody ev body cenv σ = some (v, σ') := by
          simpa [hnil, hlen] using happly
        subst hnil
        rw [hlen, List.length_nil, Nat.add_zero] at hsp
        subst hsp
        have hhere : Here host codes κ σ cenv m.sp m.sp m.conr []
            { m with ip := 0, envr := w, funr := m.valr } :=
          Here.enter (m := { m with ip := 0, envr := w, funr := m.valr }) hinv henv houter
        refine Ends.enter hstart (hev.body hbody heval hin (hentry.right rfl) hhere) (fun _ _ => rfl) ?_
        intro f vals hvals hnone
        refine ⟨hvals, fun rib hrib heq => ?_⟩
        cases henv with
        | nil => cases hrib
        | cons ha =>
          obtain rfl := Option.some.inj hrib
          rw [heq] at hnone
          cases hnone.symm.trans ha
      · have heval : evalBody ev body (⟨names, σ.frames.length⟩ :: cenv)
            { σ with frames := σ.frames ++ [vs] } = some (v, σ') := by
          simpa [hnil, hlen] using happly
        have hwords : entryWords names = Instr.words ⟨.ienv, [int2fix names.length, int2fix 0, int2fix 0]⟩ :=
          if_neg hnil
        have hcenv : entryEnv names (cenvOf cenv) = cenvOf (⟨names, σ.frames.length⟩ :: cenv) := if_neg hnil
        rw [hwords] at hentry
        rw [hcenv] at hbody
        have hmkenv : Reaches rt codes ({ m with ip := 0, envr := w, funr := m.valr }, .resume)
            (arcMkenv { m with ip := 4, envr := w, funr := m.valr } vs.length 0, .resume) := by
          have hin' : InCode codes c lits { m with ip := 0, envr := w, funr := m.valr }.funr := hin
          refine hin'.step hentry.left rfl ?_
          have henter := runEnv_exact { m with ip := 4, envr := w, funr := m.valr } (hargc.trans hlen)
          rw [← hlen] at henter
          change (runEnv { m with ip := 4, envr := w, funr := m.valr } names.length 0 0).bind _ = _
          rw [← hlen, henter]
          rfl
        obtain ⟨hhere, hlow⟩ := Here.mkenv (m := { m with ip := 4, envr := w, funr := m.valr }) names
          hinv henv houter hsp hslots
        refine Ends.enter (hstart.trans hmkenv) (hev.body hbody heval hin (hentry.right rfl) hhere) hlow ?_
        intro f vals hvals hnone
        have hlt := (List.getElem?_eq_some_iff.mp hvals).1
        refine ⟨?_, fun rib hrib heq => ?_⟩
        · rw [List.getElem?_append_left hlt]
          exact hvals
        · obtain rfl := Option.some.inj hrib
          exact absurd hlt (heq ▸ lt_irrefl _)
    · simp [hlen] at happly

end Application

section Expressions

variable {W : Type} {host : Host W} {rt : Runtime} {codes : List Code} {prim : Nat → List Value → Option Value}

theorem eval_call {op args : Value} (hspecial : ∀ s, op = .symbol s → Scope.isSpecial s = false) (fuel : Nat)
    (env : Env) (σ : Store) : eval prim (fuel + 1) (.cons op args) env σ =
      (evalArgs (eval prim fuel) args env σ).bind fun p =>
        (eval prim fuel op env p.2).bind fun q => apply (eval prim fuel) prim q.2 p.1 q.1 := by
  cases op with
  | symbol s =>
    have hs := hspecial s rfl
    cases s <;> first | rfl | cases hs
  | _ => rfl

/-- Before a call, a continuation is made. -/
theorem InCode.icont {c : Code} {lits : List Value} {m : Machine} {k : Nat} {κ : Places} {σ : Store} {env : Env}
    {B E : Nat} {outer : Value} {own : List Nat} (hin : InCode codes c lits m.funr)
    (hcode : CodeAt c.code m.ip (Instr.words ⟨.icont, [int2fix (k : Nat)]⟩))
    (hhere : Here host codes κ σ env B E outer own m) :
    ∃ m₁, Reaches rt codes (m, .resume) (m₁, .resume) ∧ m₁.ip = m.ip + 2 ∧ m₁.sp = m.sp + 6 ∧ m₁.funr = m.funr ∧
      (∀ i, i < m.sp → m₁.slot i = m.slot i) ∧ m₁.slot (m.sp + 1) = .fixnum (m.ip + k : Nat) ∧
      m₁.slot (m.sp + 3) = m.funr ∧ m₁.slot (m.sp + 5) = m.conr ∧
      Here host codes κ σ env B E outer (m.sp :: own) m₁ := by
  obtain ⟨slot, hmk, hlow, hofs, hfun, hcont, hhere₁⟩ :=
    (hhere.setRegs m.valr (m.ip + 2) m.argc).mkcont (m.ip + k)
  refine ⟨{ m with ip := m.ip + 2, slot := slot, sp := m.sp + 6, conr := .fixnum (m.sp + 6 : Nat) },
    hin.step hcode rfl ?_, rfl, rfl, rfl, hlow, hofs, hfun, hcont, hhere₁⟩
  have htarget : ((m.ip : Int) + fix2int (int2fix (k : Nat))).toNat = m.ip + k := by
    rw [int2fix, fix2int]
    omega
  simp only [runInstr]
  rw [htarget]
  exact congrArg (fun m => Except.ok (m, Tr.resume)) hmk

/-- A call that comes back. -/
theorem Simulates.call {ev : EvalFn} (hev : Simulates host rt codes ev) (hprim : Primitives rt prim)
    {op args : Value} {n : Nat} {env : Env} {lits wargs wop : List Value} {c : Code} {σ σ₁ σ₂ σ' : Store}
    {vs : List CoreVal} {f v : CoreVal} {κ : Places} {B E : Nat} {outer : Value} {own : List Nat} {m : Machine}
    (hargs : Coded host codes (.args n) lits (cenvOf env) args wargs)
    (hop : Coded host codes (.expr false) lits (cenvOf env) op wop)
    (heval₁ : evalArgs ev args env σ = some (vs, σ₁)) (heval₂ : ev op env σ₁ = some (f, σ₂))
    (happly : apply ev prim σ₂ vs f = some (v, σ')) (hin : InCode codes c lits m.funr)
    (hcode : CodeAt c.code m.ip (Instr.words ⟨.icont, [int2fix (2 + wargs.length + wop.length + 2 : Nat)]⟩ ++ wargs ++
      wop ++ Instr.words ⟨.iapply, [int2fix n]⟩)) (hhere : Here host codes κ σ env B E outer own m) :
    Gives host rt codes κ σ env B E outer own m (2 + wargs.length + wop.length + 2) v σ' := by
  obtain ⟨m₁, hicont, hip₁, hsp₁, hfunr₁, hlow, hofs, hfun, hcont, hhere₁⟩ := hin.icont hcode.left.left.left hhere
  have hin₁ : InCode codes c lits m₁.funr := by
    rw [hfunr₁]
    exact hin
  have hE := hhere.height
  obtain ⟨κ₂, m₂, hrun₂, hip₂, hlen, hsp₂, hslots₂, hafter₂⟩ :=
    hev.args hargs heval₁ hin₁ (hcode.left.left.right (by simp [hip₁, Instr.words])) hhere₁
  have hin₂ := hafter₂.inCode hin₁
  obtain ⟨κ₃, m₃, hrun₃, hip₃, hsp₃, hf₃, hafter₃⟩ := hev.gives heval₂ hop hin₂
    (hcode.left.right (by simp [hip₂, hip₁, Instr.words]; omega)) hafter₂.here
  have hafter := hafter₂.trans hafter₃
  have hiapply : Reaches rt codes (m₃, .resume) ({ m₃ with ip := m₃.ip + 2, argc := n }, .fnapp) := by
    refine (hafter₃.inCode hin₂).step (hcode.right ?_) rfl rfl
    simp [hip₃, hip₂, hip₁, Instr.words]
    omega
  have hargs₃ : ∀ (i : Nat) (u : CoreVal), vs[i]? = some u → Holds host codes κ₃ u (m₃.slot (m.sp + 6 + i)) := by
    intro i u hi
    have hlt := (List.getElem?_eq_some_iff.mp hi).1
    rw [← hsp₁, hafter₃.slots _ (by omega) (.inr (by omega)) fun d hd heq => ?_]
    · exact (hslots₂ i u hi).grow hafter₃.grow
    · have := hhere₁.pending.mem_le hd
      omega
  have hframe : ∀ i, i < m.sp + 6 → (i < B ∨ E ≤ i) → (∀ d ∈ m.sp :: own, i ≠ d + 2) → m₃.slot i = m₁.slot i :=
    fun i hi => hafter.slots i (by omega)
  have hown : ∀ d ∈ own, d + 6 ≤ m.sp := fun d hd => (hhere.pending.mem_le hd).2
  have hends := hev.applies (m := { m₃ with ip := m₃.ip + 2, argc := n }) (B := m.sp + 6) hprim happly hf₃ hlen.symm
    (by rw [hlen]; exact hsp₃.trans (hsp₂.trans (by rw [hsp₁]))) hargs₃ hafter₃.here.inv hafter₃.here.toOuterTop
  obtain ⟨κ₄, m₄, hrun₄, hv₄, hret⟩ := hends
  obtain ⟨hconr₄, hhere₅⟩ := (hafter₃.here.setRegs m₃.valr (m₃.ip + 2) n).restorecont hret
  have hslot₄ : ∀ i, i < m.sp + 6 → m₄.slot i = m₃.slot i := hret.slots
  have hrestore : Reaches rt codes (m₄, .rc) (arcRestorecont m₄ (.fixnum (m.sp + 6 : Nat)), .resume) := by
    refine .single ?_
    rw [Round, trampoline]
    simp only [hconr₄]
  have hone : ∀ k, k < 6 → k ≠ 2 → m₄.slot (m.sp + k) = m₁.slot (m.sp + k) := by
    intro k hk hk2
    rw [hslot₄ _ (by omega), hframe _ (by omega) (.inr (by omega)) fun d hd heq => ?_]
    rcases List.mem_cons.mp hd with rfl | hd
    · omega
    · have := hown d hd
      omega
  refine ⟨κ₄, _, hicont.trans (hrun₂.trans (hrun₃.trans (hiapply.trans (hrun₄.trans hrestore)))), ?_, rfl, hv₄, hhere₅,
    hafter.grow.trans hret.grow, ?_, le_refl _, ?_, ?_, fun i hi hzone hne => ?_⟩
  · rw [restorecont_stack, hone 1 (by decide) (by decide), hofs]
    rfl
  · exact hafter.frozen.trans hret.frozen.of_nil
  · rw [restorecont_stack, hone 3 (by decide) (by decide), hfun]
  · rw [restorecont_stack, hone 5 (by decide) (by decide), hcont]
  · have hi' : m₄.slot i = m₁.slot i := by
      rw [hslot₄ _ (by omega), hframe i (by omega) hzone fun d hd heq => ?_]
      rcases List.mem_cons.mp hd with rfl | hd
      · omega
      · exact hne d hd heq
    exact hi'.trans (hlow i hi)

/-- A call in a tail position. -/
theorem Simulates.tailCall {ev : EvalFn} (hev : Simulates host rt codes ev) (hprim : Primitives rt prim)
    {op args : Value} {n : Nat} {env : Env} {lits wargs wop : List Value} {c : Code} {σ σ₁ σ₂ σ' : Store}
    {vs : List CoreVal} {f v : CoreVal} {κ : Places} {B E : Nat} {outer : Value} {m : Machine}
    (hargs : Coded host codes (.args n) lits (cenvOf env) args wargs)
    (hop : Coded host codes (.expr false) lits (cenvOf env) op wop)
    (heval₁ : evalArgs ev args env σ = some (vs, σ₁)) (heval₂ : ev op env σ₁ = some (f, σ₂))
    (happly : apply ev prim σ₂ vs f = some (v, σ')) (hin : InCode codes c lits m.funr)
    (hcode : CodeAt c.code m.ip
      (wargs ++ wop ++ Instr.words ⟨.imenv, [int2fix n]⟩ ++ Instr.words ⟨.iapply, [int2fix n]⟩))
    (hhere : Here host codes κ σ env B E outer [] m) : Ends host rt codes κ σ env B outer (m, .resume) v σ' := by
  have hE := hhere.height
  obtain ⟨κ₁, m₁, hrun₁, hip₁, hlen, hsp₁, hslots₁, hafter₁⟩ :=
    hev.args hargs heval₁ hin hcode.left.left.left hhere
  have hin₁ := hafter₁.inCode hin
  obtain ⟨κ₂, m₂, hrun₂, hip₂, hsp₂, hf₂, hafter₂⟩ := hev.gives heval₂ hop hin₁
    (hcode.left.left.right hip₁) hafter₁.here
  have hin₂ := hafter₂.inCode hin₁
  have hafter := hafter₁.trans hafter₂
  obtain ⟨B', hB', hmenv, hmoved, hlow⟩ := (hafter₂.here.setRegs m₂.valr (m₂.ip + 2) m₂.argc).menv
    (hsp₂.trans hsp₁) hE
  obtain ⟨m₃, hm₃⟩ : ∃ m₃, m₃ = arcMenv { m₂ with ip := m₂.ip + 2 } n := ⟨_, rfl⟩
  change arcMenv { m₂ with ip := m₂.ip + 2 } n = _ at hmenv
  rw [← hm₃] at hmenv hmoved hlow
  have himenv : Reaches rt codes (m₂, .resume) ({ m₃ with argc := n }, .resume) := by
    refine hin₂.step (hcode.left.right ?_) rfl ?_
    · simp [hip₂, hip₁]
      omega
    · rw [hm₃]
      rfl
  have hip₃ : m₃.ip = m₂.ip + 2 := by rw [hmenv]
  have hsp₃ : m₃.sp = B' + n := by rw [hmenv]
  have hfunr₃ : m₃.funr = m₂.funr := by rw [hmenv]
  have hvalr₃ : m₃.valr = m₂.valr := by rw [hmenv]
  have hheap₃ : m₃.heap = m₂.heap := by rw [hmenv]
  have hgenv₃ : m₃.genv = m₂.genv := by rw [hmenv]
  have hconr₃ : m₃.conr = outer := by
    rw [hmenv]
    exact hafter₂.here.conr_eq
  have hin₃ : InCode codes c lits m₃.funr := by
    rw [hfunr₃]
    exact hin₂
  have hiapply : Reaches rt codes ({ m₃ with argc := n }, .resume)
      ({ m₃ with ip := m₃.ip + 2, argc := n }, .fnapp) := by
    refine InCode.step (m := { m₃ with argc := n }) hin₃ (hcode.right ?_) rfl rfl
    simp [hip₃, hip₂, hip₁, Instr.words]
    omega
  have hargs₃ : ∀ (i : Nat) (u : CoreVal), vs[i]? = some u → Holds host codes κ₂ u (m₃.slot (B' + i)) := by
    intro i u hi
    have hlt := (List.getElem?_eq_some_iff.mp hi).1
    have hslot₂ : m₃.slot (B' + i) = m₂.slot (m.sp + i) := hmoved i (by omega)
    rw [hslot₂, hafter₂.slots _ (by omega) (.inr (by omega)) fun d hd => (by cases hd)]
    exact (hslots₁ i u hi).grow hafter₂.grow
  have hinv₃ : Inv host codes κ₂ σ₂ m₃.heap m₃.genv := by
    rw [hheap₃, hgenv₃]
    exact hafter₂.here.inv
  have houter₃ : Outer m₃.slot B' m₃.conr := by
    rw [hconr₃]
    exact (hafter₂.here.outer.of_same hlow).mono hB'
  obtain ⟨κ₄, m₄, hrun₄, hv₄, hret⟩ := hev.applies (m := { m₃ with ip := m₃.ip + 2, argc := n }) (B := B') hprim happly
    (by rw [← hvalr₃] at hf₂; exact hf₂) hlen.symm (by rw [hlen]; exact hsp₃) hargs₃ hinv₃ houter₃
  refine ⟨κ₄, m₄, hrun₁.trans (hrun₂.trans (himenv.trans (hiapply.trans hrun₄))), hv₄, hret.inv,
    hafter.grow.trans hret.grow, hafter.frozen.trans hret.frozen.of_nil, hret.conr.trans hconr₃, fun i hi => ?_⟩
  have hm₄ : m₄.slot i = m₃.slot i := hret.slots i (by omega)
  have hle := hhere.le
  rw [hm₄, hlow i hi]
  exact hafter.slots i (by omega) (.inl hi) fun d hd => (by cases hd)

/-- The machine follows the evaluator. -/
theorem eval_simulates (hprim : Primitives rt prim) (fuel : Nat) : Simulates host rt codes (eval prim fuel) := by
  induction fuel with
  | zero =>
    intro cont e env σ v σ' lits ws c κ B E outer own m heval
    cases heval
  | succ fuel ih =>
    intro cont e env σ v σ' lits ws c κ B E outer own m heval hcoded hin hcode hhere
    generalize hspot : Spot.expr cont = spot at hcoded
    generalize hcenv : cenvOf env = cenv at hcoded
    cases hcoded with
    | literal hlit hloads =>
      cases hspot
      unfold eval at heval
      rw [if_pos hlit] at heval
      obtain ⟨rfl, rfl⟩ := Prod.mk.inj (Option.some.inj heval)
      exact Gives.does hin hcode hhere.le
        ⟨κ, _, hin.loads hcode.left hloads, rfl, rfl, .data, hhere.moved _ _⟩
    | @name _ _ _ s _ hlit hacc =>
      cases hspot
      subst hcenv
      unfold eval at heval
      rw [if_neg (by simp [hlit])] at heval
      obtain ⟨u, hread, hu⟩ := Option.map_eq_some_iff.mp heval
      obtain ⟨rfl, rfl⟩ := Prod.mk.inj hu
      obtain ⟨w, hw, hrun⟩ := hin.reads hcode.left hacc hread hhere
      exact Gives.does hin hcode hhere.le ⟨κ, _, hrun, rfl, rfl, hw, hhere.moved _ _⟩
    | quote hloads =>
      cases hspot
      obtain ⟨rfl, rfl⟩ := Prod.mk.inj (Option.some.inj heval)
      exact Gives.does hin hcode hhere.le
        ⟨κ, _, hin.loads hcode.left hloads, rfl, rfl, .data, hhere.moved _ _⟩
    | cond hclauses =>
      cases hspot
      subst hcenv
      exact ih.clauses hclauses heval hin hcode hhere
    | @fn _ _ _ params body names ws' more n i c' nlits hparams hn hcode' hnlits hbody hi =>
      cases hspot
      subst hcenv
      obtain ⟨rfl, rfl⟩ := Prod.mk.inj (Option.some.inj heval)
      have hlit : Reaches rt codes (m, .resume) ({ m with valr := .code n, ip := m.ip + 2 }, .resume) :=
        hin.loads hcode.left.left (.ildl rfl hi)
      obtain ⟨κ', m', w, hrun, hvalr, henv, hsp, hip, hafter⟩ := (hhere.setRegs (.code n) (m.ip + 3) m.argc).runCls
      have hcls : Reaches rt codes ({ m with valr := .code n, ip := m.ip + 2 }, .resume) (m', .resume) := by
        refine InCode.step (m := { m with valr := .code n, ip := m.ip + 2 }) hin (hcode.left.right rfl) rfl ?_
        exact hrun
      refine Gives.does hin hcode hhere.le ⟨κ', m', hlit.trans hcls, hip, hsp, ?_, hafter.here, hafter.grow,
        hafter.frozen, hafter.sp, hafter.funr, hafter.conr, hafter.slots⟩
      rw [hvalr]
      exact .clos hparams hn hcode' hnlits hbody henv
    | assign hplaces =>
      cases hspot
      subst hcenv
      exact Gives.does hin hcode hhere.le (ih.places hplaces heval hin hcode.left hhere)
    | @call _ _ op args n wargs wop hspecial hargs hop =>
      cases hspot
      subst hcenv
      rw [eval_call hspecial] at heval
      obtain ⟨⟨vs, σ₁⟩, heval₁, heval⟩ := Option.bind_eq_some_iff.mp heval
      obtain ⟨⟨f, σ₂⟩, heval₂, happly⟩ := Option.bind_eq_some_iff.mp heval
      have hgives := ih.call hprim hargs hop heval₁ heval₂ happly hin hcode hhere
      have hlen : (Instr.words ⟨.icont, [int2fix (2 + wargs.length + wop.length + 2 : Nat)]⟩ ++ wargs ++ wop ++
          Instr.words ⟨.iapply, [int2fix n]⟩).length = 2 + wargs.length + wop.length + 2 := by
        simp [Instr.words]
        omega
      rw [hlen]
      exact hgives
    | tailCall hspecial hargs hop =>
      cases hspot
      subst hcenv
      rw [eval_call hspecial] at heval
      obtain ⟨⟨vs, σ₁⟩, heval₁, heval⟩ := Option.bind_eq_some_iff.mp heval
      obtain ⟨⟨f, σ₂⟩, heval₂, happly⟩ := Option.bind_eq_some_iff.mp heval
      intro hown
      subst hown
      exact ih.tailCall hprim hargs hop heval₁ heval₂ happly hin hcode hhere
    | _ => cases hspot

end Expressions

end Arcueid.Core
