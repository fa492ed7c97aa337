import Mathlib.Data.ENat.Basic
import Arcueid.RunQueue

/-! How long the dispatcher waits for its sleeping threads. -/

namespace Arcueid.Dispatch

/-- The conversion of an `unsigned long long` to `int`. -/
def narrow (n : UInt64) : Int := (n.toNat : Int).bmod (2 ^ 32)

/-- A call that waits: `process_iowait` with its timeout in milliseconds, and
`nanosleep`. -/
inductive Wait where
  | iowait (eptimeout : Int)
  | nanosleep (tvSec tvNsec : Nat)

/-- The time a call may wait, in nanoseconds. `epoll_wait` takes a negative
timeout for none. -/
def Wait.time : Wait → ℕ∞
  | .iowait eptimeout => if eptimeout < 0 then ⊤ else (eptimeout.toNat * 1000000 : Nat)
  | .nanosleep tvSec tvNsec => (tvSec * 1000000000 + tvNsec : Nat)

namespace Pass

/-- The test for the timeout until the first sleep expires. -/
def WaitsIo (d : Pass) (gcstatus : Int) : Prop :=
  0 < d.iowait ∧ gcstatus ≠ 0 ∧ d.iowait + d.blockedthreads ≠ d.nthreads ∧
    d.iowait + d.sleepthreads + d.blockedthreads = d.nthreads

/-- The test for `nanosleep`. -/
def AllAsleep (d : Pass) : Prop := d.sleepthreads = d.nthreads

def eptimeout (d : Pass) (gcstatus : Int) (now : UInt64) : Int :=
  if gcstatus = 0 then 0
  else if d.iowait + d.blockedthreads = d.nthreads then -1
  else if d.iowait + d.sleepthreads + d.blockedthreads = d.nthreads then narrow (d.minsleep - now)
  else 0

def nanosleep (d : Pass) (now : UInt64) : Wait :=
  let st := d.minsleep - now
  .nanosleep (st / 1000).toNat (st % 1000 * 1000000).toNat

/-- The calls that wait after a pass. `now` is what the clock reads. -/
def waits (d : Pass) (gcstatus : Int) (now : UInt64) : List Wait :=
  if d.nthreads = 0 ∨ d.nthreads = d.blockedthreads then []
  else
    (if 0 < d.iowait then [.iowait (d.eptimeout gcstatus now)] else []) ++
      if d.sleepthreads = d.nthreads then [d.nanosleep now] else []

end Pass

/-- A thread of the run queue that sleeps. -/
def Sleeps (w : World) (t : Nat) : Prop :=
  t ∈ w.spawned ∧ t ∉ w.unlinked ∧ (w.threads t).tstate = .Tsleep

/-- The earliest wake-up. -/
def Earliest (w : World) (e : UInt64) : Prop :=
  (∃ t, Sleeps w t ∧ (w.threads t).twakeup = e) ∧ ∀ t, Sleeps w t → e ≤ (w.threads t).twakeup

/-- The call waits no longer than until the earliest wake-up, and not at all
when that has passed. -/
def Fits (w : World) (now : UInt64) (wait : Wait) : Prop :=
  ∀ e, Earliest w e → wait.time ≤ ((e.toNat - now.toNat) * 1000000 : Nat)

section Idle

variable {w₀ w : World} {d : Pass}

/-- How many of the threads met have not run. -/
def Pass.idle (d : Pass) : Nat := d.iowait + d.sleepthreads + d.blockedthreads

theorem idle_waitIo : d.waitIo.idle = d.idle + 1 := by
  simp only [Pass.idle, Pass.waitIo]
  omega

theorem idle_sleep {twakeup : UInt64} : (d.sleep twakeup).idle = d.idle + 1 := by
  simp only [Pass.idle, Pass.sleep]
  omega

/-- `minsleep` is the earliest wake-up of the threads found asleep. -/
structure Minimal (w : World) (d : Pass) : Prop where
  le : ∀ t, (t, .Tsleep) ∈ d.visited → d.minsleep ≤ (w.threads t).twakeup
  eq : 0 < d.sleepthreads → ∃ t, (t, .Tsleep) ∈ d.visited ∧ d.minsleep = (w.threads t).twakeup
  none : d.sleepthreads = 0 → d.minsleep = ullongMax ∧ ∀ t, (t, .Tsleep) ∉ d.visited

/-- As long as no thread has run or been unlinked, all is as it was. -/
structure Idle (w₀ w : World) (d : Pass) : Prop where
  le : d.idle ≤ d.nthreads
  same : d.idle = d.nthreads → w = w₀
  found : d.idle = d.nthreads → ∀ t st, (t, st) ∈ d.visited → (w₀.threads t).tstate = st
  minimal : d.idle = d.nthreads → Minimal w₀ d

theorem idle_startPass : Idle w w (startPass w) :=
  ⟨Nat.le_refl _, fun _ => rfl, fun _ _ _ h => absurd h List.not_mem_nil,
    fun _ => ⟨fun _ h => absurd h List.not_mem_nil, fun h => absurd h (Nat.lt_irrefl _),
      fun _ => ⟨rfl, fun _ h => absurd h List.not_mem_nil⟩⟩⟩

/-- A visit that runs or unlinks a thread. -/
theorem Idle.busy {w' : World} {d' : Pass} (h : Idle w₀ w d) (hidle : d'.idle = d.idle)
    (hcount : d'.nthreads = d.nthreads + 1) : Idle w₀ w' d' := by
  have hne : d'.idle ≠ d'.nthreads := by
    have hle := h.le
    omega
  have hle := h.le
  exact ⟨by omega, fun heq => absurd heq hne, fun heq => absurd heq hne, fun heq => absurd heq hne⟩

/-- A visit that leaves its thread as it is. -/
theorem Idle.met {d' : Pass} {t : Nat} (h : Idle w₀ w d) (hidle : d'.idle = d.idle + 1)
    (hcount : d'.nthreads = d.nthreads + 1)
    (hvisited : d'.visited = d.visited ++ [(t, (w.threads t).tstate)])
    (hminimal : w = w₀ → Minimal w₀ d → Minimal w₀ d') : Idle w₀ w d' := by
  have hback : d'.idle = d'.nthreads → d.idle = d.nthreads := fun heq => by omega
  have hle := h.le
  refine ⟨by omega, fun heq => h.same (hback heq), fun heq u st hu => ?_,
    fun heq => hminimal (h.same (hback heq)) (h.minimal (hback heq))⟩
  rw [hvisited] at hu
  rcases List.mem_append.mp hu with hold | hnew
  · exact h.found (hback heq) u st hold
  · obtain ⟨rfl, rfl⟩ := Prod.mk.inj (List.mem_singleton.mp hnew)
    rw [h.same (hback heq)]

/-- A thread found in another state than asleep. -/
theorem Minimal.met {d' : Pass} {t : Nat} {st : TState} (h : Minimal w d)
    (hvisited : d'.visited = d.visited ++ [(t, st)]) (hst : st ≠ .Tsleep)
    (hsleep : d'.sleepthreads = d.sleepthreads) (hmin : d'.minsleep = d.minsleep) :
    Minimal w d' := by
  have hmem : ∀ u, (u, TState.Tsleep) ∈ d'.visited ↔ (u, TState.Tsleep) ∈ d.visited := by
    intro u
    rw [hvisited, List.mem_append, List.mem_singleton]
    constructor
    · rintro (hold | hnew)
      · exact hold
      · exact absurd (Prod.mk.inj hnew).2.symm hst
    · exact Or.inl
  refine ⟨fun u hu => ?_, fun hpos => ?_, fun hzero => ?_⟩
  · rw [hmin]
    exact h.le u ((hmem u).mp hu)
  · rw [hsleep] at hpos
    obtain ⟨u, hu, heq⟩ := h.eq hpos
    exact ⟨u, (hmem u).mpr hu, hmin.trans heq⟩
  · rw [hsleep] at hzero
    obtain ⟨hmax, hno⟩ := h.none hzero
    exact ⟨hmin.trans hmax, fun u hu => hno u ((hmem u).mp hu)⟩

/-- The first thread found asleep, or one more. -/
theorem Minimal.sleep {t : Nat} (h : Minimal w d) :
    Minimal w ((d.meet t .Tsleep).sleep (w.threads t).twakeup) := by
  have hle : ∀ x y : UInt64, (if x < y then x else y) ≤ x ∧ (if x < y then x else y) ≤ y := by
    intro x y
    split_ifs with hxy
    · exact ⟨UInt64.le_refl x, UInt64.le_of_lt hxy⟩
    · exact ⟨UInt64.not_lt.mp hxy, UInt64.le_refl y⟩
  have hmem : ∀ u, (u, TState.Tsleep) ∈ (d.visited ++ [(t, .Tsleep)]) →
      (u, TState.Tsleep) ∈ d.visited ∨ u = t := by
    intro u hu
    rcases List.mem_append.mp hu with hold | hnew
    · exact .inl hold
    · exact .inr (Prod.mk.inj (List.mem_singleton.mp hnew)).1
  refine ⟨fun u hu => ?_, fun _ => ?_, fun hzero => absurd hzero (Nat.succ_ne_zero _)⟩
  · rcases hmem u hu with hold | rfl
    · exact UInt64.le_trans (hle _ _).2 (h.le u hold)
    · exact (hle _ _).1
  · by_cases hlt : (w.threads t).twakeup < d.minsleep
    · exact ⟨t, by simp [Pass.sleep, Pass.meet], if_pos hlt⟩
    · have hmin : ((d.meet t .Tsleep).sleep (w.threads t).twakeup).minsleep = d.minsleep := if_neg hlt
      rw [hmin]
      by_cases hzero : d.sleepthreads = 0
      · -- the first one, which wakes up at the end of time
        refine ⟨t, by simp [Pass.sleep, Pass.meet], ?_⟩
        have hmax := (h.none hzero).1
        rw [hmax] at hlt ⊢
        have hbound : (w.threads t).twakeup.toNat ≤ ullongMax.toNat := by
          have hsize := (w.threads t).twakeup.toNat_lt
          have hvalue : ullongMax.toNat = 2 ^ 64 - 1 := rfl
          omega
        exact UInt64.le_antisymm (UInt64.not_lt.mp hlt) (UInt64.le_iff_toNat_le.mpr hbound)
      · obtain ⟨u, hu, heq⟩ := h.eq (Nat.pos_of_ne_zero hzero)
        exact ⟨u, List.mem_append_left _ hu, heq⟩

theorem Idle.run {d' : Pass} {w₁ : World} {cell : Nat} {as : List Act} {r : World × Pass}
    (h : Idle w₀ w d) (hidle : d'.idle = d.idle) (hcount : d'.nthreads = d.nthreads + 1)
    (hrun : d'.run w₁ cell as = some r) : Idle w₀ r.1 r.2 := by
  rw [Pass.run] at hrun
  obtain ⟨w₂, -, hrest⟩ := Option.bind_eq_some_iff.mp hrun
  split_ifs at hrest
  obtain rfl := Option.some.inj hrest
  have hbusy : Idle w₀ (d'.finishThread w₂ cell).1 (d'.finishThread w₂ cell).2 := h.busy hidle hcount
  exact hbusy

theorem Idle.visitThread {cell : Nat} {s : Slice} {r : World × Pass} (h : Idle w₀ w d)
    (hvisit : Dispatch.visitThread w d cell s = some r) : Idle w₀ r.1 r.2 := by
  rw [Dispatch.visitThread] at hvisit
  have hsame : ∀ {d' : Pass} {st : TState}, (w.threads (w.car cell)).tstate = st → st ≠ .Tsleep →
      d'.visited = d.visited ++ [(w.car cell, st)] → d'.idle = d.idle + 1 →
      d'.nthreads = d.nthreads + 1 → d'.sleepthreads = d.sleepthreads → d'.minsleep = d.minsleep →
      Idle w₀ w d' := by
    intro d' st hst hne hvisited hidle hcount hsleep hmin
    refine h.met (t := w.car cell) hidle hcount (by rw [hvisited, hst]) fun _ hold => ?_
    exact hold.met hvisited hne hsleep hmin
  cases hst : (w.threads (w.car cell)).tstate with
  | Trelease =>
    rw [hst] at hvisit
    obtain rfl := Option.some.inj hvisit
    exact h.busy rfl rfl
  | Tbroken =>
    rw [hst] at hvisit
    obtain rfl := Option.some.inj hvisit
    exact h.busy rfl rfl
  | Tsleep =>
    rw [hst] at hvisit
    simp only at hvisit
    split_ifs at hvisit
    · exact h.run (by rfl) rfl hvisit
    · obtain rfl := Option.some.inj hvisit
      let d' := (d.meet (w.car cell) .Tsleep).sleep (w.threads (w.car cell)).twakeup
      have hminimal : w = w₀ → Minimal w₀ d → Minimal w₀ d' := by
        rintro rfl hold
        exact hold.sleep
      have hvisited : d'.visited = d.visited ++ [(w.car cell, (w.threads (w.car cell)).tstate)] := by
        rw [hst]
        rfl
      have hmet : Idle w₀ w d' := h.met idle_sleep rfl hvisited hminimal
      exact ⟨hmet.le, hmet.same, hmet.found, fun heq =>
        ⟨(hmet.minimal heq).le, (hmet.minimal heq).eq, (hmet.minimal heq).none⟩⟩
  | Tready =>
    rw [hst] at hvisit
    exact h.run (by rfl) rfl hvisit
  | Tcritical =>
    rw [hst] at hvisit
    exact h.run (by rfl) rfl hvisit
  | Talt =>
    rw [hst] at hvisit
    obtain rfl := Option.some.inj hvisit
    exact hsame hst TState.noConfusion rfl rfl rfl rfl rfl
  | Tsend =>
    rw [hst] at hvisit
    obtain rfl := Option.some.inj hvisit
    exact hsame hst TState.noConfusion rfl rfl rfl rfl rfl
  | Trecv =>
    rw [hst] at hvisit
    obtain rfl := Option.some.inj hvisit
    exact hsame hst TState.noConfusion rfl rfl rfl rfl rfl
  | Tiowait =>
    rw [hst] at hvisit
    obtain rfl := Option.some.inj hvisit
    exact hsame hst TState.noConfusion rfl idle_waitIo rfl rfl rfl

theorem Idle.visits {slices : List Slice} {r : World × Pass} (h : Idle w₀ w d)
    (hvisits : Dispatch.visits (w, d) slices = some r) : Idle w₀ r.1 r.2 := by
  induction slices generalizing w d with
  | nil =>
    obtain rfl := Option.some.inj hvisits
    exact h
  | cons s slices ih =>
    rw [Dispatch.visits, List.foldlM_cons] at hvisits
    obtain ⟨p, hp, hrest⟩ := Option.bind_eq_some_iff.mp hvisits
    rw [Dispatch.visit] at hp
    obtain ⟨cell, -, hvisit⟩ := Option.bind_eq_some_iff.mp hp
    exact ih (h.visitThread hvisit) hrest

theorem Idle.pass {w' : World} {slices : List Slice}
    (hpass : Dispatch.pass w slices = some (w', d)) : Idle w w' d := by
  rw [Dispatch.pass] at hpass
  obtain ⟨p, hvisits, hend⟩ := Option.bind_eq_some_iff.mp hpass
  split_ifs at hend
  obtain rfl := Option.some.inj hend
  exact idle_startPass.visits hvisits

end Idle

section Waiting

variable {w w' : World} {d : Pass} {slices : List Slice} {now e : UInt64} {gcstatus : Int}

/-- The threads that sleep after an idle pass are those found asleep. -/
theorem sleeps_iff_visited (h : Reaches w) (hpass : pass w slices = some (w', d))
    (hidle : d.idle = d.nthreads) {t : Nat} : Sleeps w' t ↔ (t, .Tsleep) ∈ d.visited := by
  obtain ⟨l, hl⟩ := h.queued
  obtain ⟨l', h'⟩ := Passing.pass hl hpass
  have hi := Idle.pass hpass
  have hqueue : ∀ u, u ∈ d.found false ↔ u ∈ w'.spawned ∧ u ∉ w'.unlinked := by
    intro u
    have hthreads := h'.queued.threads
    rw [List.append_nil, h'.kept] at hthreads
    rw [hthreads, List.mem_filter]
    simp
  constructor
  · rintro ⟨hspawned, hkept, hstate⟩
    obtain ⟨⟨u, st⟩, hfound, rfl⟩ := List.mem_map.mp ((hqueue t).mpr ⟨hspawned, hkept⟩)
    have hvisited := (List.mem_filter.mp hfound).1
    have hst := hi.found hidle u st hvisited
    rw [← hi.same hidle, hstate] at hst
    rwa [hst]
  · intro hvisited
    have hfound : t ∈ d.found false :=
      List.mem_map_of_mem (List.mem_filter.mpr ⟨hvisited, by simp [TState.stopped]⟩)
    obtain ⟨hspawned, hkept⟩ := (hqueue t).mp hfound
    have hst := hi.found hidle t _ hvisited
    rw [← hi.same hidle] at hst
    exact ⟨hspawned, hkept, hst⟩

theorem no_earliest (h : Reaches w) (hpass : pass w slices = some (w', d))
    (hidle : d.idle = d.nthreads) (hzero : d.sleepthreads = 0) : ¬ Earliest w' e := by
  rintro ⟨⟨t, ht, -⟩, -⟩
  exact (((Idle.pass hpass).minimal hidle).none hzero).2 t ((sleeps_iff_visited h hpass hidle).mp ht)

/-- After an idle pass `minsleep` is the earliest wake-up. -/
theorem minsleep_eq (h : Reaches w) (hpass : pass w slices = some (w', d))
    (hidle : d.idle = d.nthreads) (he : Earliest w' e) : d.minsleep = e := by
  have hi := Idle.pass hpass
  have hm := hi.minimal hidle
  rw [← hi.same hidle] at hm
  have hpos : 0 < d.sleepthreads := Nat.pos_of_ne_zero fun hzero => no_earliest h hpass hidle hzero he
  obtain ⟨⟨t, ht, hwake⟩, hleast⟩ := he
  obtain ⟨u, hu, heq⟩ := hm.eq hpos
  have hle := hm.le t ((sleeps_iff_visited h hpass hidle).mp ht)
  have hge := hleast u ((sleeps_iff_visited h hpass hidle).mpr hu)
  rw [hwake] at hle
  rw [← heq] at hge
  exact UInt64.le_antisymm hle hge

theorem bmod_le (n m : Nat) : (n : Int).bmod m ≤ n := by
  have hle : (n : Int) % m ≤ n := by
    rw [← Int.natCast_emod]
    exact Int.ofNat_le.mpr (Nat.mod_le n m)
  rw [Int.bmod_def]
  split_ifs
  · exact hle
  · omega

theorem narrow_le (h : now ≤ e) : narrow (e - now) ≤ ((e.toNat - now.toNat : Nat) : Int) := by
  have hsub : (e - now).toNat = e.toNat - now.toNat := UInt64.toNat_sub_of_le e now h
  calc
    narrow (e - now) ≤ ((e - now).toNat : Int) := bmod_le _ _
    _ = ((e.toNat - now.toNat : Nat) : Int) := congrArg Nat.cast hsub

/-- The time to sleep, in nanoseconds. -/
theorem nanosleep_time (d : Pass) (now : UInt64) :
    (d.nanosleep now).time = ((d.minsleep - now).toNat * 1000000 : Nat) := by
  generalize hst : d.minsleep - now = st
  have hsmall : st.toNat % 1000 * 1000000 < 2 ^ 64 :=
    Nat.lt_of_lt_of_le (Nat.mul_lt_mul_of_pos_right (Nat.mod_lt _ (by decide)) (by decide)) (by decide)
  have hnsec : (st % 1000 * 1000000).toNat = st.toNat % 1000 * 1000000 := by
    rw [UInt64.toNat_mul, UInt64.toNat_mod]
    exact Nat.mod_eq_of_lt hsmall
  have hsec : (st / 1000).toNat = st.toNat / 1000 := UInt64.toNat_div st 1000
  have hsum : st.toNat / 1000 * 1000000000 + st.toNat % 1000 * 1000000 = st.toNat * 1000000 := by
    omega
  rw [Pass.nanosleep, Wait.time, hst]
  simp only [hnsec, hsec, hsum]

theorem Earliest.unique {e' : UInt64} (he : Earliest w e) (he' : Earliest w e') : e' = e := by
  obtain ⟨⟨t, ht, hwake⟩, hleast⟩ := he
  obtain ⟨⟨u, hu, hwake'⟩, hleast'⟩ := he'
  exact UInt64.le_antisymm (hwake ▸ hleast' t ht) (hwake' ▸ hleast u hu)

theorem fits_nanosleep_iff (he : Earliest w e) (hmin : d.minsleep = e) :
    Fits w now (d.nanosleep now) ↔ now ≤ e := by
  constructor
  · intro hfits
    have htime := hfits e he
    rw [nanosleep_time, hmin, Nat.cast_le] at htime
    by_contra hpast
    rw [UInt64.le_iff_toNat_le] at hpast
    have hsub := UInt64.toNat_sub e now
    have hnow := now.toNat_lt
    have hend := e.toNat_lt
    omega
  · intro hle e' he'
    rw [he.unique he', nanosleep_time, hmin, UInt64.toNat_sub_of_le _ _ hle]

theorem fits_iowait_iff (he : Earliest w e) :
    Fits w now (.iowait (narrow (e - now))) ↔
      0 ≤ narrow (e - now) ∧ (now ≤ e ∨ narrow (e - now) = 0) := by
  have hpast : ¬ now ≤ e → e.toNat - now.toNat = 0 := by
    intro hnot
    rw [UInt64.le_iff_toNat_le] at hnot
    omega
  have hbound : now ≤ e → narrow (e - now) ≤ ((e.toNat - now.toNat : Nat) : Int) := narrow_le
  generalize narrow (e - now) = timeout at hbound ⊢
  constructor
  · intro hfits
    have htime := hfits e he
    rw [Wait.time] at htime
    split_ifs at htime with hneg
    · exact absurd (top_le_iff.mp htime) (ENat.natCast_ne_top _)
    · rw [Nat.cast_le] at htime
      refine ⟨by omega, ?_⟩
      by_cases hle : now ≤ e
      · exact .inl hle
      · rw [hpast hle] at htime
        exact .inr (by omega)
  · rintro ⟨hnonneg, hcase⟩ e' he'
    rw [he.unique he', Wait.time, if_neg (by omega), Nat.cast_le]
    rcases hcase with hle | hzero
    · have hle' := hbound hle
      omega
    · omega

/-- The times passed to the calls that wait. -/
theorem sleepTimes_fit_iff (h : Reaches w) (hpass : pass w slices = some (w', d)) (gcstatus : Int)
    (now : UInt64) :
    (∀ wait ∈ d.waits gcstatus now, Fits w' now wait) ↔ ∀ e, Earliest w' e →
      (d.AllAsleep → now ≤ e) ∧
      (d.WaitsIo gcstatus → 0 ≤ narrow (e - now) ∧ (now ≤ e ∨ narrow (e - now) = 0)) := by
  have hle := (Idle.pass hpass).le
  rw [Pass.idle] at hle
  constructor
  · intro hfits e he
    constructor
    · intro hall
      rw [Pass.AllAsleep] at hall
      have hidle : d.idle = d.nthreads := by rw [Pass.idle]; omega
      have hpos : d.sleepthreads ≠ 0 := fun hzero => no_earliest h hpass hidle hzero he
      have hmem : d.nanosleep now ∈ d.waits gcstatus now := by
        rw [Pass.waits, if_neg (by omega), if_pos hall]
        exact List.mem_append_right _ List.mem_cons_self
      exact (fits_nanosleep_iff he (minsleep_eq h hpass hidle he)).mp (hfits _ hmem)
    · rintro ⟨hio, hgc, hne, heq⟩
      have hidle : d.idle = d.nthreads := heq
      have hmem : .iowait (d.eptimeout gcstatus now) ∈ d.waits gcstatus now := by
        rw [Pass.waits, if_neg (by omega), if_pos hio]
        exact List.mem_append_left _ List.mem_cons_self
      have htimeout : d.eptimeout gcstatus now = narrow (e - now) := by
        rw [Pass.eptimeout, if_neg hgc, if_neg hne, if_pos heq, minsleep_eq h hpass hidle he]
      rw [htimeout] at hmem
      exact (fits_iowait_iff he).mp (hfits _ hmem)
  · intro hcond wait hwait e he
    obtain ⟨hsleep, hio⟩ := hcond e he
    rw [Pass.waits] at hwait
    by_cases hret : d.nthreads = 0 ∨ d.nthreads = d.blockedthreads
    · rw [if_pos hret] at hwait
      exact absurd hwait List.not_mem_nil
    rw [if_neg hret, List.mem_append] at hwait
    rcases hwait with hwait | hwait
    · split_ifs at hwait with hpos
      · obtain rfl := List.mem_singleton.mp hwait
        rw [Pass.eptimeout]
        have hzero : Wait.time (.iowait 0) ≤ ((e.toNat - now.toNat) * 1000000 : Nat) := zero_le
        split_ifs with hgc hblocked hidle
        · exact hzero
        · -- nobody sleeps
          have hall : d.idle = d.nthreads := by rw [Pass.idle]; omega
          exact absurd he (no_earliest h hpass hall (by omega))
        · rw [minsleep_eq h hpass hidle he]
          exact (fits_iowait_iff he).mpr (hio ⟨hpos, hgc, hblocked, hidle⟩) e he
        · exact hzero
      · exact absurd hwait List.not_mem_nil
    · split_ifs at hwait with hall
      · obtain rfl := List.mem_singleton.mp hwait
        have hidle : d.idle = d.nthreads := by rw [Pass.idle]; omega
        exact (fits_nanosleep_iff he (minsleep_eq h hpass hidle he)).mpr (hsleep hall) e he
      · exact absurd hwait List.not_mem_nil

section One

/-- A thread that sleeps until 1000, met when the clock reads 999. -/
def oneSleeper : Option World := acts initThreads [.spawn ⟨.Tready, 0⟩, .set 0 ⟨.Tsleep, 1000⟩]

def oneSlice : List Slice := [⟨999, [], []⟩]

theorem exists_oneSleeper : ∃ w w' d, oneSleeper = some w ∧ pass w oneSlice = some (w', d) ∧
    d.minsleep = 1000 ∧ Earliest w' 1000 ∧ ∀ now, d.waits 1 now = [d.nanosleep now] := by
  have hends : (oneSleeper.bind fun w => (pass w oneSlice).map fun r =>
      ((r.1.spawned, r.1.unlinked, (r.1.threads 0).tstate, (r.1.threads 0).twakeup),
        (r.2.nthreads, r.2.blockedthreads, r.2.iowait, r.2.sleepthreads, r.2.minsleep))) =
      some (([0], [], .Tsleep, 1000), (1, 0, 0, 1, 1000)) := rfl
  obtain ⟨w, hw, hmap⟩ := Option.bind_eq_some_iff.mp hends
  obtain ⟨⟨w', d⟩, hpass, heq⟩ := Option.map_eq_some_iff.mp hmap
  simp only [Prod.mk.injEq] at heq
  obtain ⟨⟨hspawned, hunlinked, hstate, hwake⟩, hn, hblocked, hio, hsleep, hmin⟩ := heq
  have hsleeps : ∀ t, Sleeps w' t → t = 0 := by
    rintro t ⟨ht, -⟩
    rw [hspawned] at ht
    exact List.mem_singleton.mp ht
  have hzero : Sleeps w' 0 := ⟨by simp [hspawned], by simp [hunlinked], hstate⟩
  refine ⟨w, w', d, hw, hpass, hmin, ⟨⟨0, hzero, hwake⟩, fun t ht => ?_⟩, fun now => ?_⟩
  · rw [hsleeps t ht, hwake]
    exact UInt64.le_refl _
  · rw [Pass.waits, if_neg (by omega), if_neg (by omega), if_pos (by omega), List.nil_append]

theorem sleepTimes_one : ∃ w w' d, oneSleeper = some w ∧ pass w oneSlice = some (w', d) ∧
    ((∀ wait ∈ d.waits 1 1000, Fits w' 1000 wait) ↔ ∀ e, Earliest w' e →
      (d.AllAsleep → 1000 ≤ e) ∧
      (d.WaitsIo 1 → 0 ≤ narrow (e - 1000) ∧ (1000 ≤ e ∨ narrow (e - 1000) = 0))) := by
  obtain ⟨w, w', d, hw, hpass, -⟩ := exists_oneSleeper
  exact ⟨w, w', d, hw, hpass, sleepTimes_fit_iff (.acts .init hw) hpass 1 1000⟩

/-- The clock passes the wake-up between the two readings. -/
theorem sleepTimes_wrap : ∃ w w' d, oneSleeper = some w ∧ pass w oneSlice = some (w', d) ∧
    ∃ wait ∈ d.waits 1 1001, ¬ Fits w' 1001 wait ∧
      wait.time = (18446744073709551615 * 1000000 : Nat) := by
  obtain ⟨w, w', d, hw, hpass, hmin, hearliest, hwaits⟩ := exists_oneSleeper
  refine ⟨w, w', d, hw, hpass, d.nanosleep 1001, by simp [hwaits], fun hfits => ?_, ?_⟩
  · exact absurd ((fits_nanosleep_iff hearliest hmin).mp hfits) (by decide)
  · rw [nanosleep_time, hmin]
    rfl

end One

end Waiting

end Arcueid.Dispatch
