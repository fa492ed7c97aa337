import Arcueid.Dispatch

/-! The run queue through the passes of the dispatcher: which threads are in
it, in which order, and where its tail is. -/

namespace Arcueid.Dispatch

open LinkedList

/-- The conses `l` are the run queue: they hold the threads that were spawned
and not unlinked, in that order. -/
structure Queued (w : World) (l : List Nat) : Prop where
  chain : Seg w.cdr w.vmthreads l none
  tail : w.vmthrtail = l.getLast?
  made : ∀ c ∈ l, c < w.conses
  threads : l.map w.car = w.spawned.filter (· ∉ w.unlinked)
  spawned_nodup : w.spawned.Nodup
  spawned_lt : ∀ t ∈ w.spawned, t < w.count
  unlinked_spawned : ∀ t ∈ w.unlinked, t ∈ w.spawned

section Acts

variable {w w' : World} {l : List Nat}

theorem queued_initThreads : Queued initThreads [] where
  chain := rfl
  tail := rfl
  made := fun _ h => absurd h List.not_mem_nil
  threads := rfl
  spawned_nodup := List.nodup_nil
  spawned_lt := fun _ h => absurd h List.not_mem_nil
  unlinked_spawned := fun _ h => absurd h List.not_mem_nil

theorem Queued.setThread (h : Queued w l) (t : Nat) (thr : Thread) : Queued (w.setThread t thr) l :=
  ⟨h.chain, h.tail, h.made, h.threads, h.spawned_nodup, h.spawned_lt, h.unlinked_spawned⟩

theorem Queued.woken (h : Queued w l) (ts : List Nat) : Queued (ts.foldl wake w) l := by
  induction ts generalizing w with
  | nil => exact h
  | cons t ts ih => exact ih (h.setThread t _)

theorem woken_kept (ts : List Nat) : (ts.foldl wake w).car = w.car ∧ (ts.foldl wake w).cdr = w.cdr ∧
    (ts.foldl wake w).unlinked = w.unlinked := by
  induction ts generalizing w with
  | nil => exact ⟨rfl, rfl, rfl⟩
  | cons t ts ih => exact ih

theorem Queued.threads_nodup (h : Queued w l) : (l.map w.car).Nodup := by
  rw [h.threads]
  exact h.spawned_nodup.filter _

/-- The head is nil exactly when the tail is. -/
theorem Queued.vmthreads_eq_none_iff (h : Queued w l) : w.vmthreads = none ↔ l = [] := by
  constructor
  · intro hnil
    have hchain := h.chain
    rw [hnil] at hchain
    exact eq_nil_of_seg_none hchain
  · rintro rfl
    exact h.chain

/-- Behind the last cons of a list that leads to nil, a new one. -/
theorem Queued.snoc_chain {tail : Nat} (h : Queued w (l ++ [tail])) (thr : Nat) :
    Seg ((w.cons thr).scdr tail (some w.conses)).cdr w.vmthreads (l ++ [tail] ++ [w.conses]) none := by
  have hnodup := nodup_of_seg h.chain
  have htail : tail < w.conses := h.made tail (by simp)
  have hnew : w.conses ∉ l ++ [tail] := fun hmem => Nat.lt_irrefl _ (h.made _ hmem)
  have hseg := (seg_concat.mp h.chain).1
  have hl : w.conses ∉ l := fun hmem => hnew (List.mem_append_left _ hmem)
  have hnot : tail ∉ l := by
    intro hmem
    exact (List.nodup_append.mp hnodup).2.2 tail hmem tail (by simp) rfl
  have hcons : Seg (w.cons thr).cdr w.vmthreads l (some tail) := (seg_update_of_not_mem hl).mpr hseg
  refine seg_concat.mpr ⟨seg_redirect hcons hnot, ?_⟩
  have hne : w.conses ≠ tail := by omega
  simp [World.scdr, World.cons, hne]

theorem enqueue_empty (hhead : w.vmthreads = none) (htail : w.vmthrtail = none) (thr : Nat) :
    w.enqueue thr =
      some { w.cons thr with vmthreads := some w.conses, vmthrtail := some w.conses } := by
  rw [World.enqueue]
  simp only [hhead, htail]

theorem enqueue_tail {tail : Nat} (htail : w.vmthrtail = some tail) (thr : Nat) :
    w.enqueue thr =
      some { (w.cons thr).scdr tail (some w.conses) with vmthrtail := some w.conses } := by
  rw [World.enqueue]
  simp only [htail]

/-- The run queue `l` of `w` has become longer, and nothing else. -/
structure Grown (w : World) (l : List Nat) (w' : World) (l' : List Nat) : Prop where
  queued : Queued w' (l ++ l')
  unlinked : w'.unlinked = w.unlinked
  conses : w.conses ≤ w'.conses
  car : ∀ c, c < w.conses → w'.car c = w.car c

theorem Queued.grown (h : Queued w l) : Grown w l w [] :=
  ⟨by rwa [List.append_nil], rfl, Nat.le_refl _, fun _ _ => rfl⟩

theorem Queued.grown_setThread (h : Queued w l) (t : Nat) (thr : Thread) :
    Grown w l (w.setThread t thr) [] :=
  ⟨(h.setThread t thr).grown.queued, rfl, Nat.le_refl _, fun _ _ => rfl⟩

theorem Grown.trans {w'' : World} {l' l'' : List Nat} (h : Grown w l w' l')
    (h' : Grown w' (l ++ l') w'' l'') : Grown w l w'' (l' ++ l'') where
  queued := by
    rw [← List.append_assoc]
    exact h'.queued
  unlinked := h'.unlinked.trans h.unlinked
  conses := Nat.le_trans h.conses h'.conses
  car := fun c hc => (h'.car c (Nat.lt_of_lt_of_le hc h.conses)).trans (h.car c hc)

/-- Spawning a thread puts it behind the others. -/
theorem Queued.spawn (h : Queued w l) (thr : Thread) :
    ∃ w', act w (.spawn thr) = some w' ∧ Grown w l w' [w.conses] := by
  have hfresh : w.count ∉ w.spawned := fun hmem => Nat.lt_irrefl _ (h.spawned_lt _ hmem)
  have hkept : w.count ∉ w.unlinked := fun hmem => hfresh (h.unlinked_spawned _ hmem)
  have hspawned : (w.spawned ++ [w.count]).filter (· ∉ w.unlinked) =
      w.spawned.filter (· ∉ w.unlinked) ++ [w.count] := by
    simp [List.filter_append, hkept]
  have hcar : ∀ c ∈ l, Function.update w.car w.conses w.count c = w.car c := by
    intro c hc
    have hlt := h.made c hc
    exact Function.update_of_ne (by omega) _ _
  have hthreads : (l ++ [w.conses]).map (Function.update w.car w.conses w.count) =
      (w.spawned ++ [w.count]).filter (· ∉ w.unlinked) := by
    rw [hspawned, ← h.threads, List.map_append, List.map_congr_left hcar]
    simp
  have hmade : ∀ c ∈ l ++ [w.conses], c < w.conses + 1 := by
    intro c hc
    rcases List.mem_append.mp hc with hc | hc
    · have hlt := h.made c hc
      omega
    · have heq := List.mem_singleton.mp hc
      omega
  have hnodup : (w.spawned ++ [w.count]).Nodup := by
    rw [List.nodup_append]
    refine ⟨h.spawned_nodup, List.nodup_singleton _, ?_⟩
    intro t ht u hu htu
    rw [List.mem_singleton.mp hu] at htu
    exact hfresh (htu ▸ ht)
  have hlt : ∀ t ∈ w.spawned ++ [w.count], t < w.count + 1 := by
    intro t ht
    rcases List.mem_append.mp ht with ht | ht
    · have hold := h.spawned_lt t ht
      omega
    · have heq := List.mem_singleton.mp ht
      omega
  have hunlinked : ∀ t ∈ w.unlinked, t ∈ w.spawned ++ [w.count] := fun t ht =>
    List.mem_append_left _ (h.unlinked_spawned t ht)
  have hold : ∀ c, c < w.conses → Function.update w.car w.conses w.count c = w.car c := fun c hc =>
    Function.update_of_ne (Nat.ne_of_lt hc) _ _
  let u : World := { w.setThread w.count thr with
    count := w.count + 1, spawned := w.spawned ++ [w.count] }
  rcases List.eq_nil_or_concat' l with rfl | ⟨l', tail, rfl⟩
  · have hhead : w.vmthreads = none := h.chain
    have htail : w.vmthrtail = none := h.tail
    refine ⟨_, enqueue_empty (w := u) hhead htail w.count, ?_, rfl, Nat.le_succ _, hold⟩
    have hchain : Seg (Function.update w.cdr w.conses none) (some w.conses) [w.conses] none :=
      ⟨rfl, Function.update_self _ _ _⟩
    exact ⟨hchain, rfl, hmade, hthreads, hnodup, hlt, hunlinked⟩
  · have htail : w.vmthrtail = some tail := by rw [h.tail, List.getLast?_concat]
    refine ⟨_, enqueue_tail (w := u) htail w.count, ?_, rfl, Nat.le_succ _, hold⟩
    exact ⟨h.snoc_chain w.count, List.getLast?_concat.symm, hmade, hthreads, hnodup, hlt, hunlinked⟩

/-- What is done to the threads adds conses behind the queue. -/
theorem Queued.act (h : Queued w l) (a : Act) :
    ∃ w' l', Dispatch.act w a = some w' ∧ Grown w l w' l' := by
  cases a with
  | spawn thr =>
    obtain ⟨w', hw', hgrown⟩ := h.spawn thr
    exact ⟨w', [w.conses], hw', hgrown⟩
  | spawnEnded thr =>
    refine ⟨_, [], rfl, ?_, rfl, Nat.le_refl _, fun _ _ => rfl⟩
    rw [List.append_nil]
    exact ⟨h.chain, h.tail, h.made, h.threads, h.spawned_nodup,
      fun t ht => Nat.lt_succ_of_lt (h.spawned_lt t ht), h.unlinked_spawned⟩
  | set t thr =>
    refine ⟨_, [], rfl, ?_, rfl, Nat.le_refl _, fun _ _ => rfl⟩
    rw [List.append_nil]
    exact h.setThread t thr

theorem Queued.acts (h : Queued w l) (as : List Act) :
    ∃ w' l', Dispatch.acts w as = some w' ∧ Grown w l w' l' := by
  induction as generalizing w l with
  | nil => exact ⟨w, [], rfl, h.grown⟩
  | cons a as ih =>
    obtain ⟨w₁, l₁, h₁, hgrown₁⟩ := h.act a
    obtain ⟨w₂, l₂, h₂, hgrown₂⟩ := ih hgrown₁.queued
    refine ⟨w₂, l₁ ++ l₂, ?_, hgrown₁.trans hgrown₂⟩
    rw [Dispatch.acts, List.foldlM_cons, h₁]
    exact h₂

end Acts

section Unlink

variable {w : World} {before after : List Nat} {cell : Nat} {prev : Option Nat}

theorem unlink_cdr : (w.unlink prev cell).cdr = (w.bypass prev cell).cdr := by
  rw [World.unlink]
  split_ifs <;> rfl

theorem unlink_vmthreads : (w.unlink prev cell).vmthreads = (w.bypass prev cell).vmthreads := by
  rw [World.unlink]
  split_ifs <;> rfl

theorem unlink_kept (w : World) (prev : Option Nat) (cell : Nat) :
    (w.unlink prev cell).car = w.car ∧ (w.unlink prev cell).conses = w.conses ∧
    (w.unlink prev cell).count = w.count ∧ (w.unlink prev cell).threads = w.threads ∧
    (w.unlink prev cell).spawned = w.spawned ∧ (w.unlink prev cell).unlinked = w.unlinked := by
  rw [World.unlink]
  cases prev with
  | none => split_ifs <;> exact ⟨rfl, rfl, rfl, rfl, rfl, rfl⟩
  | some p => split_ifs <;> exact ⟨rfl, rfl, rfl, rfl, rfl, rfl⟩

theorem unlink_vmthrtail : (w.unlink prev cell).vmthrtail =
    if (w.bypass prev cell).cdr cell = none then prev else w.vmthrtail := by
  rw [World.unlink]
  cases prev with
  | none => split_ifs <;> rfl
  | some p => split_ifs <;> rfl

/-- The chain without one of its conses, which leads on as before. -/
theorem bypass_chain (hchain : Seg w.cdr w.vmthreads (before ++ cell :: after) none) :
    Seg (w.bypass before.getLast? cell).cdr (w.bypass before.getLast? cell).vmthreads before
        (w.cdr cell) ∧
      Seg (w.bypass before.getLast? cell).cdr (w.cdr cell) after none ∧
      (w.bypass before.getLast? cell).cdr cell = w.cdr cell := by
  rcases List.eq_nil_or_concat' before with rfl | ⟨init, p, rfl⟩
  · exact ⟨rfl, hchain.2, rfl⟩
  · rw [List.getLast?_concat]
    exact seg_unlink hchain

theorem filter_ne_middle {a : Nat} {xs ys : List Nat} (h : (xs ++ a :: ys).Nodup) :
    (xs ++ a :: ys).filter (· ≠ a) = xs ++ ys := by
  rw [List.nodup_middle, List.nodup_cons, List.mem_append, not_or] at h
  obtain ⟨⟨hxs, hys⟩, -⟩ := h
  rw [List.filter_append, List.filter_cons_of_neg (by simp)]
  congr 1
  · exact List.filter_eq_self.mpr fun t ht => decide_eq_true fun heq => hxs (heq ▸ ht)
  · exact List.filter_eq_self.mpr fun t ht => decide_eq_true fun heq => hys (heq ▸ ht)

/-- A cons is taken out at the head, in the middle or at the tail. -/
theorem Queued.unlink (h : Queued w (before ++ cell :: after)) :
    Queued { w.unlink before.getLast? cell with
      unlinked := (w.unlink before.getLast? cell).unlinked ++ [w.car cell] } (before ++ after) ∧
    Seg (w.unlink before.getLast? cell).cdr ((w.unlink before.getLast? cell).cdr cell) after none := by
  obtain ⟨hfront, hback, hcdr⟩ := bypass_chain h.chain
  obtain ⟨hcar, hconses, hcount, -, hspawned, hunlinked⟩ := unlink_kept w before.getLast? cell
  obtain ⟨r, -, rfl, hafter⟩ := seg_append.mp h.chain
  have hend : w.cdr cell = none ↔ after = [] := by
    constructor
    · intro hnil
      rw [hnil] at hafter
      exact eq_nil_of_seg_none hafter
    · rintro rfl
      exact hafter
  have htail : (w.unlink before.getLast? cell).vmthrtail = (before ++ after).getLast? := by
    rw [unlink_vmthrtail, hcdr]
    by_cases hnil : after = []
    · rw [if_pos (hend.mpr hnil), hnil, List.append_nil]
    · rw [if_neg fun hc => hnil (hend.mp hc), h.tail]
      obtain ⟨init, last, rfl⟩ := (List.eq_nil_or_concat' after).resolve_left hnil
      rw [← List.append_assoc, List.getLast?_concat, ← List.cons_append, ← List.append_assoc,
        List.getLast?_concat]
  have hmem : w.car cell ∈ w.spawned ∧ w.car cell ∉ w.unlinked := by
    have hin : w.car cell ∈ (before ++ cell :: after).map w.car :=
      List.mem_map_of_mem (List.mem_append_right _ List.mem_cons_self)
    rw [h.threads] at hin
    simpa using List.mem_filter.mp hin
  have hthreads : (before ++ after).map w.car =
      w.spawned.filter (· ∉ w.unlinked ++ [w.car cell]) := by
    have hsplit : w.spawned.filter (· ∉ w.unlinked ++ [w.car cell]) =
        (w.spawned.filter (· ∉ w.unlinked)).filter (· ≠ w.car cell) := by
      rw [List.filter_filter]
      apply List.filter_congr
      intro t _
      simp [not_or, Bool.and_comm]
    have hnodup := h.threads_nodup
    rw [List.map_append, List.map_cons] at hnodup
    rw [hsplit, ← h.threads, List.map_append, List.map_append, List.map_cons,
      filter_ne_middle hnodup]
  refine ⟨⟨?_, htail, ?_, ?_, ?_, ?_, ?_⟩, by rwa [unlink_cdr, hcdr]⟩
  · rw [← unlink_cdr, ← unlink_vmthreads] at hfront
    rw [← unlink_cdr] at hback
    exact seg_append.mpr ⟨_, hfront, hback⟩
  · intro c hc
    have hmade : c ∈ before ++ cell :: after := by
      rcases List.mem_append.mp hc with hc | hc
      · exact List.mem_append_left _ hc
      · exact List.mem_append_right _ (List.mem_cons_of_mem _ hc)
    exact hconses ▸ h.made c hmade
  · change (before ++ after).map (w.unlink before.getLast? cell).car =
      (w.unlink before.getLast? cell).spawned.filter
        (· ∉ (w.unlink before.getLast? cell).unlinked ++ [w.car cell])
    rw [hcar, hspawned, hunlinked]
    exact hthreads
  · exact hspawned ▸ h.spawned_nodup
  · intro t ht
    have ht' : t ∈ w.spawned := hspawned ▸ ht
    exact hcount ▸ h.spawned_lt t ht'
  · intro t ht
    have ht' : t ∈ w.unlinked ++ [w.car cell] := hunlinked ▸ ht
    have hin : t ∈ w.spawned := by
      rcases List.mem_append.mp ht' with hold | hnew
      · exact h.unlinked_spawned t hold
      · exact List.mem_singleton.mp hnew ▸ hmem.1
    exact hspawned ▸ hin

end Unlink

section Passes

variable {w w' : World} {d d' : Pass} {start : List Nat}

/-- The threads visited in a pass that were stopped, or were not. -/
def Pass.found (d : Pass) (stopped : Bool) : List Nat :=
  (d.visited.filter (·.2.stopped = stopped)).map Prod.fst

/-- In the middle of a pass that began when `start` had been unlinked: the
conses before `vmqueue`, which ends at `prev`, and those from there on. -/
structure Passing (start : List Nat) (w : World) (d : Pass) (before after : List Nat) : Prop where
  queued : Queued w (before ++ after)
  prev : d.prev = before.getLast?
  ahead : Seg w.cdr d.vmqueue after none
  kept : before.map w.car = d.found false
  unlinked : w.unlinked = start ++ d.found true

theorem passing_startPass {l : List Nat} (h : Queued w l) :
    Passing w.unlinked w (startPass w) [] l :=
  ⟨h, rfl, h.chain, rfl, (List.append_nil _).symm⟩

/-- The visited thread is kept, and may have spawned others. -/
theorem Passing.finish {before rest l' : List Nat} {cell : Nat} {s : TState}
    (h : Passing start w d before (cell :: rest)) (hgrown : Grown w (before ++ cell :: rest) w' l')
    (hvisited : d'.visited = d.visited ++ [(w.car cell, s)]) (hst : s.stopped = false)
    (hprev : d'.prev = some cell) (hnext : d'.vmqueue = w'.cdr cell) :
    Passing start w' d' (before ++ [cell]) (rest ++ l') := by
  have hqueued : Queued w' (before ++ [cell] ++ (rest ++ l')) := by
    have hq := hgrown.queued
    rwa [List.append_assoc, List.cons_append, ← List.singleton_append, ← List.append_assoc] at hq
  have hahead : Seg w'.cdr (w'.cdr cell) (rest ++ l') none := by
    obtain ⟨r, hr, hseg⟩ := seg_append.mp hqueued.chain
    rwa [← (seg_concat.mp hr).2] at hseg
  have hcar : ∀ c ∈ before ++ [cell], w'.car c = w.car c := by
    intro c hc
    refine hgrown.car c (h.queued.made c ?_)
    rcases List.mem_append.mp hc with hc | hc
    · exact List.mem_append_left _ hc
    · exact List.mem_append_right _ (List.mem_singleton.mp hc ▸ List.mem_cons_self)
  refine ⟨hqueued, by rw [hprev, List.getLast?_concat], hnext ▸ hahead, ?_, ?_⟩
  · rw [List.map_congr_left hcar, List.map_append, h.kept, Pass.found, Pass.found, hvisited,
      List.filter_append, List.map_append]
    simp [hst]
  · rw [hgrown.unlinked, h.unlinked, Pass.found, Pass.found, hvisited, List.filter_append]
    simp [hst]

/-- A stopped thread is taken out of the queue. -/
theorem Passing.stop {before rest : List Nat} {cell : Nat} {st : TState} (woken : List Nat)
    (h : Passing start w d before (cell :: rest)) (hst : st.stopped = true) :
    Passing start ((d.meet (w.car cell) st).stop w cell woken).1
      ((d.meet (w.car cell) st).stop w cell woken).2 before rest := by
  obtain ⟨hcar, -, hunlinked⟩ := woken_kept (w := w) woken
  obtain ⟨hkept, -, -, -, -, hkept'⟩ := unlink_kept (woken.foldl wake w) d.prev cell
  obtain ⟨hqueued, hahead⟩ := (h.queued.woken woken).unlink
  rw [hcar, ← h.prev] at hqueued
  rw [← h.prev] at hahead
  refine ⟨hqueued, h.prev, hahead, ?_, ?_⟩
  · change before.map ((woken.foldl wake w).unlink d.prev cell).car = _
    rw [hkept, hcar, h.kept]
    simp [Pass.found, Pass.stop, Pass.meet, List.filter_append, hst]
  · change ((woken.foldl wake w).unlink d.prev cell).unlinked ++ [w.car cell] = _
    rw [hkept', hunlinked, h.unlinked]
    simp [Pass.found, Pass.stop, Pass.meet, List.filter_append, hst]

theorem Passing.run {before rest : List Nat} {cell : Nat} {st : TState} {as : List Act}
    (h : Passing start w d before (cell :: rest)) (hst : st.stopped = false) {w₁ : World}
    (hgrown : Grown w (before ++ cell :: rest) w₁ []) {r : World × Pass}
    (hrun : (d.meet (w.car cell) st).run w₁ cell as = some r) :
    ∃ before' after', Passing start r.1 r.2 before' after' := by
  have hqueued := hgrown.queued
  obtain ⟨w₂, l₂, hacts, hgrown₂⟩ := hqueued.acts as
  rw [Pass.run, hacts] at hrun
  simp only [Option.bind_eq_bind, Option.bind_some] at hrun
  split_ifs at hrun
  obtain rfl := Option.some.inj hrun
  exact ⟨_, _, h.finish (hgrown.trans hgrown₂) rfl hst rfl rfl⟩

theorem Passing.visitThread {before rest : List Nat} {cell : Nat} {s : Slice} {r : World × Pass}
    (h : Passing start w d before (cell :: rest))
    (hvisit : Dispatch.visitThread w d cell s = some r) :
    ∃ before' after', Passing start r.1 r.2 before' after' := by
  rw [Dispatch.visitThread] at hvisit
  have hstay := h.queued.grown
  cases hst : (w.threads (w.car cell)).tstate with
  | Trelease =>
    rw [hst] at hvisit
    obtain rfl := Option.some.inj hvisit
    exact ⟨_, _, h.stop s.woken rfl⟩
  | Tbroken =>
    rw [hst] at hvisit
    obtain rfl := Option.some.inj hvisit
    exact ⟨_, _, h.stop s.woken rfl⟩
  | Tsleep =>
    rw [hst] at hvisit
    simp only at hvisit
    split_ifs at hvisit
    · exact h.run rfl (h.queued.grown_setThread _ _) hvisit
    · obtain rfl := Option.some.inj hvisit
      exact ⟨_, _, h.finish (s := .Tsleep) hstay rfl rfl rfl rfl⟩
  | Tready =>
    rw [hst] at hvisit
    exact h.run rfl hstay hvisit
  | Tcritical =>
    rw [hst] at hvisit
    exact h.run rfl hstay hvisit
  | Talt =>
    rw [hst] at hvisit
    obtain rfl := Option.some.inj hvisit
    exact ⟨_, _, h.finish (s := .Talt) hstay rfl rfl rfl rfl⟩
  | Tsend =>
    rw [hst] at hvisit
    obtain rfl := Option.some.inj hvisit
    exact ⟨_, _, h.finish (s := .Tsend) hstay rfl rfl rfl rfl⟩
  | Trecv =>
    rw [hst] at hvisit
    obtain rfl := Option.some.inj hvisit
    exact ⟨_, _, h.finish (s := .Trecv) hstay rfl rfl rfl rfl⟩
  | Tiowait =>
    rw [hst] at hvisit
    obtain rfl := Option.some.inj hvisit
    exact ⟨_, _, h.finish (s := .Tiowait) hstay rfl rfl rfl rfl⟩

/-- One turn of the loop. -/
theorem Passing.visit {before after : List Nat} {s : Slice} {r : World × Pass}
    (h : Passing start w d before after) (hvisit : Dispatch.visit (w, d) s = some r) :
    ∃ before' after', Passing start r.1 r.2 before' after' := by
  rw [Dispatch.visit] at hvisit
  obtain ⟨cell, hcell, hvisit⟩ := Option.bind_eq_some_iff.mp hvisit
  have hahead := h.ahead
  simp only at hcell
  rw [hcell] at hahead
  cases after with
  | nil => cases hahead
  | cons c rest =>
    obtain rfl := Option.some.inj hahead.1
    exact h.visitThread hvisit

theorem Passing.visits {before after : List Nat} {slices : List Slice} {r : World × Pass}
    (h : Passing start w d before after) (hvisits : Dispatch.visits (w, d) slices = some r) :
    ∃ before' after', Passing start r.1 r.2 before' after' := by
  induction slices generalizing w d before after with
  | nil =>
    obtain rfl := Option.some.inj hvisits
    exact ⟨before, after, h⟩
  | cons s slices ih =>
    rw [Dispatch.visits, List.foldlM_cons] at hvisits
    obtain ⟨p, hp, hrest⟩ := Option.bind_eq_some_iff.mp hvisits
    obtain ⟨before', after', h'⟩ := h.visit hp
    exact ih h' hrest

/-- At the end of a pass nothing is left ahead. -/
theorem Passing.pass {l : List Nat} {slices : List Slice} {r : World × Pass} (h : Queued w l)
    (hpass : Dispatch.pass w slices = some r) : ∃ l', Passing w.unlinked r.1 r.2 l' [] := by
  rw [Dispatch.pass] at hpass
  obtain ⟨p, hvisits, hend⟩ := Option.bind_eq_some_iff.mp hpass
  split_ifs at hend with hnil
  obtain rfl := Option.some.inj hend
  obtain ⟨before, after, h'⟩ := (passing_startPass h).visits hvisits
  have hahead := h'.ahead
  rw [hnil] at hahead
  rw [eq_nil_of_seg_none hahead] at h'
  exact ⟨before, h'⟩

end Passes

section Runs

variable {w w' : World} {d : Pass} {slices : List Slice}

/-- The worlds between the passes of the dispatcher. -/
inductive Reaches : World → Prop
  | init : Reaches initThreads
  | acts {w w' : World} {as : List Act} : Reaches w → acts w as = some w' → Reaches w'
  | pass {w w' : World} {slices : List Slice} {d : Pass} : Reaches w →
      pass w slices = some (w', d) → Reaches w'

theorem Reaches.queued (h : Reaches w) : ∃ l, Queued w l := by
  induction h with
  | init => exact ⟨[], queued_initThreads⟩
  | acts _ hacts ih =>
    obtain ⟨l, hl⟩ := ih
    obtain ⟨w₁, l', h₁, hgrown⟩ := hl.acts _
    obtain rfl := Option.some.inj (h₁.symm.trans hacts)
    exact ⟨l ++ l', hgrown.queued⟩
  | pass _ hpass ih =>
    obtain ⟨l, hl⟩ := ih
    obtain ⟨l', h'⟩ := Passing.pass hl hpass
    exact ⟨l' ++ [], h'.queued⟩

/-- The list from `vmthreads` holds the threads that were spawned and not
unlinked, in spawn order, and `vmthrtail` is its last cons. -/
structure Intact (w : World) (l : List Nat) : Prop where
  chain : Seg w.cdr w.vmthreads l none
  threads : l.map w.car = w.spawned.filter (· ∉ w.unlinked)
  once : w.spawned.Nodup
  tail : w.vmthrtail = l.getLast?
  empty : w.vmthrtail = none ↔ w.vmthreads = none

/-- The threads that a pass unlinks are those it finds stopped. -/
theorem runQueue_intact (h : Reaches w) (hpass : pass w slices = some (w', d)) :
    ∃ l, Intact w' l ∧ w'.unlinked = w.unlinked ++ d.found true ∧
      ∀ t st, (t, st) ∈ d.visited → st.stopped = true → t ∉ l.map w'.car := by
  obtain ⟨l, hl⟩ := h.queued
  obtain ⟨l', h'⟩ := Passing.pass hl hpass
  have hq : Queued w' l' := by simpa using h'.queued
  refine ⟨l', ⟨hq.chain, hq.threads, hq.spawned_nodup, hq.tail, ?_⟩, h'.unlinked, ?_⟩
  · rw [hq.tail, hq.vmthreads_eq_none_iff, List.getLast?_eq_none_iff]
  · intro t st hvisited hst hmem
    rw [hq.threads] at hmem
    have hkept : t ∉ w'.unlinked := by simpa using (List.mem_filter.mp hmem).2
    apply hkept
    rw [h'.unlinked]
    have hfound : (t, st) ∈ d.visited.filter (·.2.stopped = true) :=
      List.mem_filter.mpr ⟨hvisited, by simpa using hst⟩
    exact List.mem_append_right _ (List.mem_map_of_mem hfound)

/-- A thread spawned in the pass that unlinks the head. -/
theorem runQueue_intact_head :
    ∃ w w' d, acts initThreads [.spawn ⟨.Tbroken, 0⟩, .spawn ⟨.Tready, 0⟩] = some w ∧
      pass w [⟨0, [], []⟩, ⟨0, [.spawn ⟨.Trecv, 0⟩], []⟩, ⟨0, [], []⟩] = some (w', d) ∧
      ∃ l, Intact w' l ∧ w'.unlinked = w.unlinked ++ d.found true ∧
        ∀ t st, (t, st) ∈ d.visited → st.stopped = true → t ∉ l.map w'.car := by
  have hends : ((acts initThreads [.spawn ⟨.Tbroken, 0⟩, .spawn ⟨.Tready, 0⟩]).bind fun w =>
      pass w [⟨0, [], []⟩, ⟨0, [.spawn ⟨.Trecv, 0⟩], []⟩, ⟨0, [], []⟩]).isSome = true := by decide
  obtain ⟨⟨w', d⟩, h⟩ := Option.isSome_iff_exists.mp hends
  obtain ⟨w, hw, hpass⟩ := Option.bind_eq_some_iff.mp h
  exact ⟨w, w', d, hw, hpass, runQueue_intact (.acts .init hw) hpass⟩

/-- One thread, which ends as it runs, is left for the next pass. -/
theorem ended_not_unlinked :
    ∃ w w' d, acts initThreads [.spawn ⟨.Tready, 0⟩] = some w ∧
      pass w [⟨0, [.set 0 ⟨.Trelease, 0⟩], []⟩] = some (w', d) ∧
      ∃ l, Intact w' l ∧ 0 ∈ l.map w'.car ∧ (w'.threads 0).tstate = .Trelease ∧
        0 ∈ d.visited.map Prod.fst :=
  ⟨_, _, _, rfl, rfl, [0], ⟨⟨rfl, rfl⟩, rfl, List.nodup_singleton 0, rfl, by decide⟩, by decide, rfl, by decide⟩

end Runs

end Arcueid.Dispatch
