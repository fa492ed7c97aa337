import Mathlib.Data.Set.List
import Arcueid.AccLayout

/-! A placeholder or a pattern is not counted as an argument, and a placeholder
shifts the accumulators of `acc-processargs`: the names before it are lost. -/

namespace Arcueid.Acc

open Outcome

/-- The first `n` words stay as they are. -/
def Keeps {α : Type} (n : Nat) (x : AccM α) : Prop :=
  ∀ c, n ≤ c.code.length → Ensures x c fun _ c' => n ≤ c'.code.length ∧ c'.code.take n = c.code.take n

section Keeps

variable {α β : Type} {n : Nat} {x : AccM α}

theorem Keeps.pure (a : α) : Keeps n (pure a) := by
  rintro c hc b c' h
  obtain ⟨-, rfl⟩ := yields_pure_iff.mp h
  exact ⟨hc, rfl⟩

theorem Keeps.throw (e : AccError) : Keeps n (throw e : AccM α) :=
  fun _ _ _ _ h => absurd h not_yields_throw

theorem Keeps.bind {f : α → AccM β} (hx : Keeps n x) (hf : ∀ a, Keeps n (f a)) :
    Keeps n (x >>= f) := by
  intro c hc b c'' h
  obtain ⟨a, c', ha, hb⟩ := yields_bind h
  obtain ⟨hn', htake⟩ := hx c hc a c' ha
  obtain ⟨hn'', htake'⟩ := hf a c' hn' b c'' hb
  exact ⟨hn'', htake'.trans htake⟩

theorem keeps_accGen (ctx : Arg) (inst : Inst) (args : List Int) :
    Keeps n (accGen ctx inst args) := by
  intro c hc a c' h
  unfold accGen at h
  split at h
  · cases h
    simp only [List.length_append, List.take_append_of_le_length hc]
    exact ⟨by omega, trivial⟩
  · exact absurd h not_yields_throw

theorem Keeps.bind_codeptr {f : Nat → AccM β} (ctx : Arg) (hf : ∀ a, n ≤ a → Keeps n (f a)) :
    Keeps n (accCodeptr ctx >>= f) := by
  intro c hc b c' h
  obtain ⟨a, c₁, ha, hb⟩ := yields_bind h
  unfold accCodeptr at ha
  split at ha
  · cases ha
    exact hf _ hc c hc b c' hb
  · exact absurd ha not_yields_throw

theorem keeps_accPatch (ctx : Arg) {offset : Nat} (w : Word) (ho : n ≤ offset) :
    Keeps n (accPatch ctx offset w) := by
  intro c hc a c' h
  unfold accPatch at h
  split at h
  · cases h
    simp only [List.length_set, List.take_set_of_le ho]
    exact ⟨hc, trivial⟩
  · exact absurd h not_yields_throw

theorem keeps_dcar (v : Value) : Keeps n (dcar v) := by
  unfold dcar
  split
  · exact .pure _
  · exact .pure _
  · exact .pure _
  · exact .throw _

theorem keeps_dcdr (v : Value) : Keeps n (dcdr v) := by
  unfold dcdr
  split
  · exact .pure _
  · exact .pure _
  · exact .pure _
  · exact .throw _

variable {acc : AccFn} (hacc : ∀ d nenv env, Keeps n (acc d nenv env))

include hacc in
/-- What both kinds of optional argument emit for a default. -/
theorem keeps_accDefault {α : Type} (ctx nenv env : Arg) (default : Value) (slot : Int) (a : α) :
    Keeps n (do
      let jumpaddr ← accCodeptr ctx
      accGen ctx .ijbnd [0]
      acc default nenv env
      accGen ctx .iste0 [slot]
      accPatch ctx (jumpaddr + 1) (.arg ((← accCodeptr ctx) - jumpaddr))
      pure a) := by
  refine .bind_codeptr ctx fun jumpaddr hj => ?_
  refine .bind (keeps_accGen _ _ _) fun _ => ?_
  refine .bind (hacc _ _ _) fun _ => ?_
  refine .bind (keeps_accGen _ _ _) fun _ => ?_
  refine .bind_codeptr ctx fun _ _ => ?_
  exact .bind (keeps_accPatch ctx _ (Nat.le_succ_of_le hj)) fun _ => .pure _

include hacc in
theorem keeps_accDestructureOptional (d : Value) (env ctx nenv : Arg) (dsbidx dsbargc : Nat) :
    Keeps n (accDestructureOptional acc d env ctx nenv dsbidx dsbargc) := by
  refine (keeps_dcar d).bind fun name => (keeps_dcdr d).bind fun d => (keeps_dcar d).bind fun v => ?_
  exact keeps_accDefault hacc ctx nenv env v dsbidx _

include hacc in
theorem keeps_accDestructure (env ctx : Arg) (v : Value) (nenv : Arg) (dsbidx dsbargc : Nat)
    (optflag : Bool) : Keeps n (accDestructure acc env ctx v nenv dsbidx dsbargc optflag) := by
  induction v generalizing nenv dsbidx dsbargc optflag with
  | nil => exact .throw _
  | cons a d iha ihd =>
    rw [accDestructure]
    split
    · exact keeps_accDestructureOptional hacc d env ctx nenv dsbidx dsbargc
    split
    · refine .bind (keeps_accGen _ _ _) fun _ => ?_
      refine .bind (keeps_accGen _ _ _) fun _ => ?_
      refine .bind (iha _ _ _ _) fun _ => ?_
      refine .bind (keeps_accGen _ _ _) fun _ => ?_
      exact .bind (keeps_accGen _ _ _) fun _ => ihd _ _ _ _
    split
    · exact .bind (keeps_accGen _ _ _) fun _ => iha _ _ _ _
    split
    · exact .bind (keeps_accGen _ _ _) fun _ => ihd _ _ _ _
    · exact .throw _
  | _ =>
    unfold accDestructure
    split
    · exact .bind (keeps_accGen _ _ _) fun _ => .pure _
    · exact .throw _

include hacc in
theorem keeps_accDsbind (dsarg : Value) (env ctx nenv dsbidx : Arg) (idx dsbargc : Nat) :
    Keeps n (accDsbind acc dsarg env ctx nenv dsbidx idx dsbargc) := by
  refine .bind (keeps_accGen _ _ _) fun _ => ?_
  cases dsbidx with
  | num k => exact .bind (keeps_accDestructure hacc _ _ _ _ _ _ _) fun _ => .pure _
  | _ => exact .throw _

include hacc in
theorem keeps_accOptional (d : Value) (env ctx nenv : Arg) (idx : Nat) :
    Keeps n (accOptional acc d env ctx nenv idx) := by
  refine (keeps_dcar d).bind fun name => (keeps_dcdr d).bind fun d => (keeps_dcar d).bind fun v => ?_
  refine .bind (keeps_accGen _ _ _) fun _ => ?_
  exact keeps_accDefault hacc ctx nenv env v idx _

include hacc in
theorem keeps_accProcessargs (args : Value) (env ctx dsbidx nenv : Arg)
    (idx regargc dsbargc optargc : Nat) :
    Keeps n (accProcessargs acc args env ctx dsbidx nenv idx regargc dsbargc optargc) := by
  induction args generalizing env ctx dsbidx nenv idx regargc dsbargc optargc with
  | nil => exact .pure _
  | cons a rest _ ih =>
    unfold accProcessargs
    split
    · exact ih _ _ _ _ _ _ _ _
    split
    · split
      · exact ih _ _ _ _ _ _ _ _
      · exact .throw _
    split
    · exact .bind (keeps_accOptional hacc _ _ _ _ _) fun _ => ih _ _ _ _ _ _ _ _
    · split
      · exact .bind (keeps_accDsbind hacc _ _ _ _ _ _ _) fun _ => ih _ _ _ _ _ _ _ _
      · exact .throw _
    · exact .throw _
  | _ =>
    unfold accProcessargs
    split
    · exact .pure _
    · exact .throw _

end Keeps

section Cases

variable (acc : AccFn)

theorem process_blank (rest : Value) (env ctx dsb nenv : Arg)
    (idx regargc dsbargc optargc : Nat) :
    accProcessargs acc (.cons .nil rest) env ctx dsb nenv idx regargc dsbargc optargc =
      accProcessargs acc rest ctx dsb nenv (.num (idx + 1)) (regargc + 1) dsbargc optargc 0 := by
  simp [accProcessargs]

theorem process_pat {a d : Value} (ho : a ≠ .symbol .sO) (rest : Value) (env ctx dsb nenv : Arg)
    (idx regargc dsbargc : Nat) :
    accProcessargs acc (.cons (.cons a d) rest) env ctx dsb nenv idx regargc dsbargc 0 =
      (do
        let (ndsbargc, nenv) ← accDsbind acc (.cons a d) env ctx nenv dsb idx dsbargc
        accProcessargs acc rest env ctx dsb nenv idx regargc ndsbargc 0) := by
  simp [accProcessargs, isSym]

theorem process_optional' (s : Sym) (d rest : Value) (env ctx dsb nenv : Arg)
    (idx regargc dsbargc optargc : Nat) :
    accProcessargs acc (.cons (optArg s d) rest) env ctx dsb nenv idx regargc dsbargc optargc =
      (do
        let name ← accOptional acc (.cons (.symbol s) (.cons d .nil)) env ctx nenv idx
        accProcessargs acc rest env ctx dsb (.bind name (.num idx) nenv) (idx + 1) regargc dsbargc
          (optargc + 1)) := by
  simp [accProcessargs, isSym, optArg]

end Cases

section Count

variable {acc : AccFn} {env ctx dsb : Arg}

theorem regargc_rest (rest : Option Sym) (nenv : Arg) (idx regargc dsbargc optargc : Nat)
    (c : Ctx) :
    Ensures (accProcessargs acc (rest.elim .nil .symbol) env ctx dsb nenv idx regargc dsbargc
      optargc) c fun p _ => p.regargc = regargc := by
  intro p c' h
  cases rest with
  | none =>
    cases h
    rfl
  | some s =>
    cases h
    rfl

theorem regargc_optional (os : List (Sym × Value)) (rest : Option Sym) (nenv : Arg)
    (idx regargc dsbargc optargc : Nat) (c : Ctx) :
    Ensures (accProcessargs acc (listOnto (os.map fun p => optArg p.1 p.2)
      (rest.elim .nil .symbol)) env ctx dsb nenv idx regargc dsbargc optargc) c
      fun p _ => p.regargc = regargc := by
  induction os generalizing nenv idx optargc c with
  | nil => exact regargc_rest rest nenv idx regargc dsbargc optargc c
  | cons q os ih =>
    intro p c' h
    rw [List.map_cons, listOnto_cons, process_optional'] at h
    obtain ⟨name, c₁, -, hrest⟩ := yields_bind h
    exact ih _ _ _ c₁ p c' hrest

theorem regargc_required (required : List Value) (hreq : ∀ p ∈ required, IsRequired p)
    (hblank : .nil ∉ required) (os : List (Sym × Value)) (rest : Option Sym) (nenv : Arg)
    (idx regargc dsbargc : Nat) (c : Ctx) :
    Ensures (accProcessargs acc (listOnto required (listOnto (os.map fun p => optArg p.1 p.2)
      (rest.elim .nil .symbol))) env ctx dsb nenv idx regargc dsbargc 0) c
      fun p _ => p.regargc = regargc + required.countP isSym := by
  induction required generalizing nenv idx regargc dsbargc c with
  | nil => exact regargc_optional os rest nenv idx regargc dsbargc 0 c
  | cons q required ih =>
    intro p c' h
    have hreq' : ∀ p ∈ required, IsRequired p := fun p hp => hreq p (.tail _ hp)
    have hblank' : .nil ∉ required := fun hp => hblank (.tail _ hp)
    rw [listOnto_cons] at h
    cases hreq q (.head _) with
    | blank => exact absurd (.head _) hblank
    | name s =>
      rw [process_name] at h
      rw [ih hreq' hblank' _ _ _ _ _ p c' h, List.countP_cons_of_pos rfl]
      omega
    | pat hp ho =>
      rw [process_pat acc ho] at h
      obtain ⟨r, c₁, -, hrest⟩ := yields_bind h
      rw [ih hreq' hblank' _ _ _ _ _ p c' hrest, List.countP_cons_of_neg (by simp [isSym])]

end Count

section Shifted

variable {acc : AccFn} {env ctx dsb : Arg}

theorem not_yields_accGen {c c' : Ctx} {inst : Inst} {args : List Int} (hctx : ctx ≠ .context)
    (u : Unit) : ¬ Yields (accGen ctx inst args) c u c' := by
  rw [accGen, if_neg hctx]
  exact not_yields_throw

theorem not_yields_accOptional {c c' : Ctx} {nenv : Arg} {v name : Value} {idx : Nat}
    (hctx : ctx ≠ .context) : ¬ Yields (accOptional acc v env ctx nenv idx) c name c' := by
  intro h
  obtain ⟨_, _, -, h⟩ := yields_bind h
  obtain ⟨_, _, -, h⟩ := yields_bind h
  obtain ⟨_, _, -, h⟩ := yields_bind h
  obtain ⟨_, _, h, -⟩ := yields_bind h
  exact not_yields_accGen hctx _ h

/-- With anything but a context, only names are let through. -/
theorem shifted_names (hctx : ctx ≠ .context) (required : List Value)
    (hreq : ∀ p ∈ required, IsRequired p) (hblank : .nil ∉ required) (os : List (Sym × Value))
    (rest : Option Sym) (nenv : Arg) (idx regargc dsbargc : Nat) (c : Ctx) :
    Ensures (accProcessargs acc (listOnto required (listOnto (os.map fun p => optArg p.1 p.2)
      (rest.elim .nil .symbol))) env ctx dsb nenv idx regargc dsbargc 0) c fun p _ =>
      ∃ names : List Sym, required = names.map .symbol ∧ os = [] ∧
        p.regargc = regargc + names.length ∧
        p.nenv = rest.elim (recordFrom nenv idx names) fun s =>
          .bind (.symbol s) dsb (recordFrom nenv idx names) := by
  induction required generalizing nenv idx regargc c with
  | nil =>
    intro p c' h
    cases os with
    | cons q os =>
      rw [listOnto_nil, List.map_cons, listOnto_cons, process_optional'] at h
      obtain ⟨_, _, h, -⟩ := yields_bind h
      exact absurd h (not_yields_accOptional hctx)
    | nil =>
      refine ⟨[], rfl, rfl, regargc_rest rest nenv idx regargc dsbargc 0 c p c' h, ?_⟩
      cases rest with
      | none =>
        cases h
        rfl
      | some s =>
        cases h
        rfl
  | cons q required ih =>
    intro p c' h
    have hreq' : ∀ p ∈ required, IsRequired p := fun p hp => hreq p (.tail _ hp)
    have hblank' : .nil ∉ required := fun hp => hblank (.tail _ hp)
    rw [listOnto_cons] at h
    cases hreq q (.head _) with
    | blank => exact absurd (.head _) hblank
    | name s =>
      rw [process_name] at h
      obtain ⟨names, rfl, hos, hcount, hnenv⟩ := ih hreq' hblank' _ _ _ c p c' h
      refine ⟨s :: names, rfl, hos, ?_, hnenv⟩
      rw [hcount, List.length_cons]
      omega
    | pat hp ho =>
      rw [process_pat acc ho] at h
      obtain ⟨_, _, h, -⟩ := yields_bind h
      obtain ⟨_, _, h, -⟩ := yields_bind h
      exact absurd h (not_yields_accGen hctx _)

theorem accDestructure_nenv (v : Value) (nenv : Arg) (dsbidx dsbargc : Nat) (optflag : Bool)
    (c : Ctx) :
    Ensures (accDestructure acc env ctx v nenv dsbidx dsbargc optflag) c
      fun r _ => r.2.2 ≠ .context := by
  induction v generalizing nenv dsbidx dsbargc optflag c with
  | nil => exact fun _ _ h => absurd h not_yields_throw
  | cons a d iha ihd =>
    intro r c' h
    rw [accDestructure] at h
    split at h
    · obtain ⟨_, _, -, h⟩ := yields_bind h
      obtain ⟨_, _, -, h⟩ := yields_bind h
      obtain ⟨_, _, -, h⟩ := yields_bind h
      obtain ⟨_, _, -, h⟩ := yields_bind h
      obtain ⟨_, _, -, h⟩ := yields_bind h
      obtain ⟨_, _, -, h⟩ := yields_bind h
      obtain ⟨_, _, -, h⟩ := yields_bind h
      obtain ⟨_, _, -, h⟩ := yields_bind h
      obtain ⟨_, _, -, h⟩ := yields_bind h
      obtain ⟨rfl, -⟩ := yields_pure_iff.mp h
      nofun
    split at h
    · obtain ⟨_, _, -, h⟩ := yields_bind h
      obtain ⟨_, _, -, h⟩ := yields_bind h
      obtain ⟨_, _, -, h⟩ := yields_bind h
      obtain ⟨_, _, -, h⟩ := yields_bind h
      obtain ⟨_, _, -, h⟩ := yields_bind h
      exact ihd _ _ _ _ _ _ _ h
    split at h
    · obtain ⟨_, _, -, h⟩ := yields_bind h
      exact iha _ _ _ _ _ _ _ h
    split at h
    · obtain ⟨_, _, -, h⟩ := yields_bind h
      exact ihd _ _ _ _ _ _ _ h
    · exact absurd h not_yields_throw
  | _ =>
    intro r c' h
    unfold accDestructure at h
    split at h
    · obtain ⟨_, _, -, h⟩ := yields_bind h
      obtain ⟨rfl, -⟩ := yields_pure_iff.mp h
      nofun
    · exact absurd h not_yields_throw

theorem accDsbind_nenv (v : Value) (nenv dsbidx : Arg) (idx dsbargc : Nat) (c : Ctx) :
    Ensures (accDsbind acc v env ctx nenv dsbidx idx dsbargc) c fun r _ => r.2 ≠ .context := by
  intro r c' h
  obtain ⟨_, c₁, -, h⟩ := yields_bind h
  cases dsbidx with
  | num k =>
    obtain ⟨r', c₂, hd, h⟩ := yields_bind h
    obtain ⟨rfl, -⟩ := yields_pure_iff.mp h
    exact accDestructure_nenv v nenv k dsbargc false c₁ r' c₂ hd
  | _ => exact absurd h not_yields_throw

/-- After the last of the placeholders there is no context and no name, and
nothing is counted if there were only placeholders. -/
theorem to_last_blank (before : List Value) (hreq : ∀ p ∈ before, IsRequired p) (v : Value)
    {nenv : Arg} (hdsb : dsb ≠ .context) (hnenv : nenv ≠ .context)
    (idx regargc dsbargc : Nat) (c : Ctx) :
    Ensures (accProcessargs acc (listOnto before (.cons .nil v)) env ctx dsb nenv idx regargc
      dsbargc 0) c fun p c' =>
      ∃ env' ctx' dsb' k idx' regargc' dsbargc' c₁, ctx' ≠ .context ∧
        ((∀ p ∈ before, p = .nil) → dsbargc = 0 → regargc' = 0) ∧
        Yields (accProcessargs acc v env' ctx' dsb' (.num k) idx' regargc' dsbargc' 0) c₁ p c' := by
  induction before generalizing env ctx dsb nenv idx regargc dsbargc c with
  | nil =>
    intro p c' h
    rw [listOnto_nil, process_blank] at h
    exact ⟨_, _, _, _, _, _, _, c, hdsb, fun _ hd => hd, h⟩
  | cons q before ih =>
    intro p c' h
    have hreq' : ∀ p ∈ before, IsRequired p := fun p hp => hreq p (.tail _ hp)
    rw [listOnto_cons] at h
    cases hreq q (.head _) with
    | blank =>
      rw [process_blank] at h
      obtain ⟨env', ctx', dsb', k, idx', r, d, c₁, hctx, hr, h⟩ :=
        ih hreq' hnenv (by nofun) _ _ _ c p c' h
      exact ⟨env', ctx', dsb', k, idx', r, d, c₁, hctx,
        fun hall _ => hr (fun p hp => hall p (.tail _ hp)) rfl, h⟩
    | name s =>
      rw [process_name] at h
      obtain ⟨env', ctx', dsb', k, idx', r, d, c₁, hctx, -, h⟩ :=
        ih hreq' hdsb (by nofun) _ _ _ c p c' h
      exact ⟨env', ctx', dsb', k, idx', r, d, c₁, hctx,
        fun hall _ => absurd (hall _ (.head _)) nofun, h⟩
    | pat hp ho =>
      rw [process_pat acc ho] at h
      obtain ⟨r, c₂, hd, h⟩ := yields_bind h
      obtain ⟨env', ctx', dsb', k, idx', r, d, c₁, hctx, -, h⟩ :=
        ih hreq' hdsb (accDsbind_nenv _ _ _ _ _ c r c₂ hd) _ _ _ c₂ p c' h
      exact ⟨env', ctx', dsb', k, idx', r, d, c₁, hctx,
        fun hall _ => absurd (hall _ (.head _)) nofun, h⟩

end Shifted

theorem slotOf_recordFrom (v : Value) (nenv : Arg) (idx : Nat) (names : List Sym)
    (hv : ∀ s ∈ names, Value.symbol s ≠ v) :
    slotOf v (recordFrom nenv idx names) = slotOf v nenv := by
  induction names generalizing nenv idx with
  | nil => rfl
  | cons s names ih =>
    rw [recordFrom, ih _ _ fun s hs => hv s (.tail _ hs), slotOf, if_neg (hv s (.head _))]

section Layout

variable {W : Type} {acc : AccFn} {other : Ctx → Inst → Entry W → Option (Entry W)}
  {eval : Eval W} {ps : Params}

theorem accArgs_processed {a d : Value} {nenv : Arg} {c : Ctx}
    (hkeeps : ∀ d nenv env, Keeps 4 (acc d nenv env))
    (hok : accArgs acc (.cons a d) accContext = .ok (some nenv, c)) :
    ∃ p c₁ c', Yields (accProcessargs acc (.cons a d) .outer .context (.num (conses (.cons a d)))
        .nil 0 0 0 0) c₁ p c' ∧
      nenv = p.nenv ∧ c.fetch.envCounts = some ⟨p.regargc, p.dsbargc, p.optargc, p.restarg⟩ := by
  have h := hok
  rw [accArgs, bind_of_ok (accCodeptr_ok _), bind_of_ok (accGen_ok _ _ _)] at h
  obtain ⟨p, c', hp, -⟩ := yields_bind h
  obtain ⟨-, htake⟩ := keeps_accProcessargs hkeeps _ _ _ _ _ _ _ _ _ _ (by decide) p c' hp
  have hcode : c'.code = [.op .ienv, .arg 0, .arg 0, .arg 0] ++ c'.code.drop 4 := by
    conv_lhs => rw [← List.take_append_drop 4 c'.code, htake]
    rfl
  rw [accArgs_cons hp hcode] at hok
  cases hok
  exact ⟨p, _, c', hp, rfl, envCounts_envCode rfl⟩

/-- A call with the smallest number of arguments is let in. -/
theorem not_layoutHolds [Nonempty W] {f : Fetch} {other : Inst → Entry W → Option (Entry W)}
    {slot : Sym → Option Nat} {n : Nat} {counts : EnvCounts} (hc : f.envCounts = some counts)
    (hnames : ps.names ≠ [])
    (h : counts.minenv < ps.required.length ∨ ∃ s ∈ ps.names, slot s = none) :
    ¬ LayoutHolds f other eval ps slot n := by
  intro hlay
  obtain ⟨w⟩ := ‹Nonempty W›
  have hargs : Value.unbound ∉ List.replicate counts.minenv Value.nil := by simp
  obtain ⟨frame, hframe⟩ : ∃ frame, counts.enter (List.replicate counts.minenv .nil) = some frame := by
    obtain ⟨r, ds, o, rest⟩ := counts
    cases rest with
    | false => simp [EnvCounts.enter]
    | true => simp [EnvCounts.enter]
  have hall := hlay _ hargs counts hc frame hframe .nil w
  rcases h with hlt | ⟨s, hs, hnone⟩
  · obtain ⟨s, hs⟩ := List.exists_mem_of_ne_nil _ hnames
    obtain ⟨k, -, -, htakes, -⟩ := hall s hs
    have hle := htakes.1
    rw [List.length_replicate] at hle
    omega
  · obtain ⟨k, hk, -⟩ := hall s hs
    rw [hnone] at hk
    cases hk

theorem exists_last {α : Type} {a : α} {l : List α} (h : a ∈ l) :
    ∃ before after, l = before ++ a :: after ∧ a ∉ after := by
  obtain ⟨as, bs, heq, has⟩ := List.eq_append_cons_of_mem (List.mem_reverse.mpr h)
  refine ⟨bs.reverse, as.reverse, ?_, by simpa using has⟩
  rw [← List.reverse_reverse l, heq]
  simp

/-- A parameter that is no name is not counted, or takes names away. -/
theorem miscounted {nenv : Arg} {c : Ctx} (hkeeps : ∀ d nenv env, Keeps 4 (acc d nenv env))
    (hok : accArgs acc ps.toValue accContext = .ok (some nenv, c))
    (hreq : ¬ ∀ p ∈ ps.required, ∃ s, p = .symbol s) :
    ∃ counts, c.fetch.envCounts = some counts ∧
      (counts.minenv < ps.required.length ∨ ∃ s ∈ ps.names, slotIn nenv s = none) := by
  obtain ⟨a, d, hv⟩ : ∃ a d, ps.toValue = .cons a d := by
    rcases ps.toValue_cases with h | ⟨h, -, -⟩
    · exact h
    · exact absurd (by simp [h]) hreq
  rw [hv] at hok
  obtain ⟨p, c₁, c', hp, rfl, hcounts⟩ := accArgs_processed hkeeps hok
  refine ⟨_, hcounts, ?_⟩
  rw [← hv, Params.toValue] at hp
  by_cases hblank : .nil ∈ ps.required
  · obtain ⟨before, after, hsplit, hlast⟩ := exists_last hblank
    have hok := ps.required_ok
    rw [hsplit] at hok hp
    have hjoin : ∀ tail, listOnto (before ++ .nil :: after) tail =
        listOnto before (.cons .nil (listOnto after tail)) := by simp [listOnto]
    rw [hjoin] at hp
    obtain ⟨env, ctx, dsb, k, idx, r, d', c₂, hctx, hr, hp⟩ :=
      to_last_blank before (fun p hp => hok p (by simp [hp])) _ (fun h => by cases h) (fun h => by cases h) _ _ _ c₁ p c' hp
    obtain ⟨names, hafter, hos, hcount, hnenv⟩ :=
      shifted_names hctx after (fun p hp => hok p (by simp [hp])) hlast _ _ _ _ _ _ c₂ p c' hp
    by_cases hbefore : before.flatMap (patNames false) = []
    · left
      have hnil : ∀ p ∈ before, p = .nil := by
        intro p hp
        have hp' := List.flatMap_eq_nil_iff.mp hbefore p hp
        cases hok p (by simp [hp]) with
        | blank => rfl
        | name s => simp [patNames] at hp'
        | pat hpat _ => exact absurd hp' hpat.names_ne_nil
      change p.regargc < _
      rw [hcount, hr hnil rfl, hsplit, hafter]
      simp
      omega
    · right
      obtain ⟨s, hs⟩ := List.exists_mem_of_ne_nil _ hbefore
      have hdist := ps.distinct
      rw [hsplit, hafter, List.flatMap_append, List.flatMap_cons, List.flatMap_map] at hdist
      simp only [patNames, List.nil_append, List.flatMap_singleton', List.append_assoc] at hdist
      have hnot := (List.nodup_append.mp hdist).2.2 s hs
      refine ⟨s, by simp [Params.names, hsplit, hs], ?_⟩
      have hfirst : slotOf (.symbol s) (recordFrom (.num k) idx names) = none := by
        rw [slotOf_recordFrom _ _ _ _ fun s' hs' h => hnot s' (by simp [hs']) (by simpa using h.symm)]
        rfl
      rw [slotIn, hnenv]
      cases hrest : ps.rest with
      | none => simp [hfirst]
      | some s' =>
        have hne : s' ≠ s := fun h => hnot s' (by simp [hrest]) h.symm
        simp [slotOf, hne, hfirst]
  · left
    have hcount := regargc_required _ ps.required_ok hblank _ _ _ _ _ _ c₁ p c' hp
    change p.regargc < _
    rw [hcount, Nat.zero_add]
    refine Nat.lt_of_le_of_ne List.countP_le_length fun h => hreq fun q hq => ?_
    have hsym := List.countP_eq_length.mp h q hq
    cases ps.required_ok q hq with
    | blank => exact absurd hq hblank
    | name s => exact ⟨s, rfl⟩
    | pat _ _ => cases hsym

end Layout

/-- `acc` leaves the code that is there alone. -/
def AppendsOnly (acc : AccFn) : Prop :=
  ∀ d nenv env c c', acc d nenv env c = .ok ((), c') → c.code <+: c'.code

theorem AppendsOnly.keeps {acc : AccFn} (h : AppendsOnly acc) (n : Nat) (d : Value)
    (nenv env : Arg) : Keeps n (acc d nenv env) := by
  intro c hc _ c' hacc
  obtain ⟨seg, hseg⟩ := h d nenv env c c' hacc
  rw [← hseg, List.take_append_of_le_length hc, List.length_append]
  exact ⟨Nat.le_add_right_of_le hc, rfl⟩

section Layout

variable {W : Type}

/-- Each default is compiled among the names before it. -/
def CompilesDefaults (acc : AccFn) (other : Ctx → Inst → Entry W → Option (Entry W))
    (eval : Eval W) (ps : Params) : Prop :=
  ∀ l₁ p l₂, ps.optional = l₁ ++ p :: l₂ →
    CompilesDefault acc other eval (ps.required.flatMap (patNames false) ++ l₁.map Prod.fst) p.2

/-- The slots agree with the frame exactly if each required parameter is a name
(or no name is there to have a slot). -/
theorem accArgs_layout_iff [Nonempty W] {acc : AccFn}
    {other : Ctx → Inst → Entry W → Option (Entry W)} {eval : Eval W} {ps : Params}
    {nenv : Arg} {c : Ctx} (happends : AppendsOnly acc)
    (hdefaults : CompilesDefaults acc other eval ps)
    (hok : accArgs acc ps.toValue accContext = .ok (some nenv, c)) :
    LayoutHolds c.fetch (other c) eval ps (slotIn nenv) c.code.length ↔
      (∀ p ∈ ps.required, ∃ s, p = .symbol s) ∨ ps.names = [] := by
  constructor
  · intro hlay
    by_contra hcon
    rw [not_or] at hcon
    obtain ⟨counts, hcounts, h⟩ := miscounted (happends.keeps 4) hok hcon.1
    exact not_layoutHolds hcounts hcon.2 h hlay
  · rintro (hreq | hnames)
    · have hrange : ps.required ∈ Set.range (List.map Value.symbol) := by
        rw [Set.range_list_map]
        exact fun p hp => (hreq p hp).imp fun s hs => hs.symm
      obtain ⟨names, hnames⟩ := hrange
      refine layout_of_names names hnames.symm ?_ hok
      intro l₁ p l₂ hsplit
      have h := hdefaults l₁ p l₂ hsplit
      rw [← hnames, List.flatMap_map] at h
      simpa [patNames] using h
    · intro args _ counts _ frame _ valr w name hname
      rw [hnames] at hname
      cases hname

end Layout

/-- Only numbers are compiled. -/
def numAcc : AccFn
  | .fixnum n, _, _ => accGen .context .ildi [n]
  | _, _, _ => throw .rejected

/-- Only `ildi` is run. -/
def numStep (o : Ctx) : Inst → Entry Unit → Option (Entry Unit)
  | .ildi, s => do
    let n ← o.fetch.operand (s.pc + 1)
    some { s with pc := s.pc + 2, valr := .fixnum n }
  | _, _ => none

def numEval : Eval Unit
  | .fixnum n, ρ, w => some (.fixnum n, fun s => (ρ.lookup s).getD .nil, w)
  | _, _, _ => none

/-- `(x (o y 5))` -/
def optionalParams : Params where
  required := [.symbol (.id 0)]
  optional := [(.id 1, .fixnum 5)]
  rest := none
  required_ok := by simp [IsRequired.name]
  distinct := by decide

theorem numAcc_appendsOnly : AppendsOnly numAcc := by
  intro d nenv env c c' h
  cases d with
  | fixnum n =>
    cases h
    exact List.prefix_append _ _
  | _ => exact absurd h not_yields_throw

theorem numAcc_compilesDefault (s : Sym) (n : Int) :
    CompilesDefault numAcc numStep numEval [s] (.fixnum n) := by
  intro c
  refine ⟨[.op .ildi, .arg n], _, accGen_one _ _ c, rfl, List.prefix_rfl, ?_⟩
  intro o ho _ t ρ hpc hnames hframe
  have hop : o.code[t.pc]? = some (.op .ildi) := by
    rw [hpc]
    exact ho.getElem? (i := 0) (by simp)
  have harg : o.code[t.pc + 1]? = some (.arg n) := by
    rw [hpc]
    exact ho.getElem? (i := 1) (by simp)
  obtain ⟨v, rfl⟩ : ∃ v, ρ = [(s, v)] := by
    cases ρ with
    | nil => cases hnames
    | cons p ρ =>
      cases ρ with
      | nil =>
        cases hnames
        exact ⟨p.2, rfl⟩
      | cons _ _ => cases hnames
  have hstep : entryStep o.fetch (numStep o) t = some { t with pc := t.pc + 2, valr := .fixnum n } := by
    simp [entryStep, Ctx.fetch, hop, numStep, harg]
  have hkeep : t.frame = [v] ++ t.frame.drop 1 := by
    conv_lhs => rw [← List.take_append_drop 1 t.frame]
    exact congrArg (· ++ t.frame.drop 1) hframe
  simp only [numEval, rebind]
  refine .single (hstep.trans ?_)
  simpa using hkeep

theorem optional_layout :
    ∃ nenv c, accArgs numAcc optionalParams.toValue accContext = .ok (some nenv, c) ∧
      LayoutHolds c.fetch (numStep c) numEval optionalParams (slotIn nenv) c.code.length := by
  refine ⟨_, _, rfl, (accArgs_layout_iff numAcc_appendsOnly ?_ rfl).mpr (.inl ?_)⟩
  · intro l₁ p l₂ hsplit
    obtain ⟨rfl, rfl⟩ : l₁ = [] ∧ p = (.id 1, .fixnum 5) := by
      cases l₁ with
      | nil =>
        cases hsplit
        exact ⟨rfl, rfl⟩
      | cons q l₁ => simp [optionalParams] at hsplit
    exact numAcc_compilesDefault _ _
  · simp [optionalParams]

/-- `(x (y z) w)` -/
def patternParams : Params where
  required := [.symbol (.id 0), .cons (.symbol (.id 1)) (.cons (.symbol (.id 2)) .nil),
    .symbol (.id 3)]
  optional := []
  rest := none
  required_ok := by
    have hp : IsPat false (.cons (.symbol (.id 1)) (.cons (.symbol (.id 2)) .nil)) :=
      .both (.name _) (.left (.name _) nofun) nofun
    simp [IsRequired.name, IsRequired.pat hp]
  distinct := by decide

/-- Two arguments are let in where three are needed, and the slot of the last
name is past the frame. -/
theorem pattern_not_layout :
    ∃ nenv c, accArgs numAcc patternParams.toValue accContext = .ok (some nenv, c) ∧
      c.fetch.envCounts = some ⟨2, 2, 0, false⟩ ∧ slotIn nenv (.id 2) = some 4 ∧
      ¬ LayoutHolds c.fetch (numStep c) numEval patternParams (slotIn nenv) c.code.length := by
  have hcounts : ∀ c : Ctx, c.fetch.envCounts = some ⟨2, 2, 0, false⟩ → ∀ slot : Sym → Option Nat,
      ¬ LayoutHolds c.fetch (numStep c) numEval patternParams slot c.code.length :=
    fun c hc slot => not_layoutHolds hc (by decide) (.inl (by decide))
  exact ⟨_, _, rfl, rfl, rfl, hcounts _ rfl _⟩

end Arcueid.Acc
