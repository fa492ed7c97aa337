import Mathlib.Algebra.Order.Ring.Nat
import Mathlib.Data.List.Basic
import Mathlib.Algebra.BigOperators.Group.List.Basic

/-! Linear code with forward jumps whose instructions carry the stack height
they are reached with. A fragment starts at one height, and either is left
past its last instruction at one height or is never left that way. -/

namespace StackCode

section Layout

variable {ι : Type*} (size : ι → Nat)

/-- The number of words of code. -/
def width (A : List (ι × Nat)) : Nat := (A.map fun p => size p.1).sum

/-- An instruction starts at offset `o` and is reached with height `h`. -/
def At (A : List (ι × Nat)) (o h : Nat) : Prop :=
  ∃ pre i suf, A = pre ++ (i, h) :: suf ∧ width size pre = o

/-- Control may go to offset `o` with height `h`: to an instruction, or past
the end if the code can be left there. -/
def Lands (A : List (ι × Nat)) (out : Option Nat) (o h : Nat) : Prop :=
  At size A o h ∨ o = width size A ∧ out = some h

variable {size} {A B : List (ι × Nat)} {out : Option Nat} {i : ι} {o h k : Nat}

@[simp] theorem width_nil : width size [] = 0 := rfl

@[simp] theorem width_cons (p : ι × Nat) : width size (p :: A) = size p.1 + width size A := by
  simp [width]

@[simp] theorem width_append : width size (A ++ B) = width size A + width size B := by
  simp [width]

theorem at_head : At size ((i, h) :: A) 0 h := ⟨[], i, A, rfl, rfl⟩

theorem At.append_right (hat : At size A o h) : At size (A ++ B) o h := by
  obtain ⟨pre, i, suf, rfl, ho⟩ := hat
  exact ⟨pre, i, suf ++ B, by simp, ho⟩

theorem At.append_left (hat : At size B o h) : At size (A ++ B) (width size A + o) h := by
  obtain ⟨pre, i, suf, rfl, ho⟩ := hat
  exact ⟨A ++ pre, i, suf, by simp, by simp [ho]⟩

theorem At.lt_width (hsize : ∀ i : ι, 0 < size i) (hat : At size A o h) :
    o < width size A := by
  obtain ⟨pre, i, suf, rfl, ho⟩ := hat
  have hi := hsize i
  rw [width_append, width_cons, ← ho]
  exact Nat.lt_add_of_pos_right (Nat.add_pos_left hi _)

/-- An offset is reached with one height only. -/
theorem At.unique (hsize : ∀ i : ι, 0 < size i) (hh : At size A o h) (hk : At size A o k) :
    h = k := by
  induction A generalizing o with
  | nil =>
    obtain ⟨pre, i, suf, heq, -⟩ := hh
    simp at heq
  | cons p A ih =>
    have hp := hsize p.1
    have hsplit : ∀ {o h}, At size (p :: A) o h →
        o = 0 ∧ p.2 = h ∨ ∃ o', o = size p.1 + o' ∧ At size A o' h := by
      intro o h hat
      obtain ⟨pre, i, suf, heq, ho⟩ := hat
      cases pre with
      | nil =>
        obtain ⟨rfl, -⟩ := List.cons.inj heq
        exact .inl ⟨ho.symm, rfl⟩
      | cons q pre =>
        obtain ⟨rfl, hA⟩ := List.cons.inj heq
        exact .inr ⟨width size pre, by rw [← ho, width_cons], pre, i, suf, hA, rfl⟩
    rcases hsplit hh with ⟨h0, heq⟩ | ⟨o', h1, hat⟩
    · rcases hsplit hk with ⟨-, heq'⟩ | ⟨o', h1, -⟩
      · exact heq.symm.trans heq'
      · omega
    · rcases hsplit hk with ⟨h0, -⟩ | ⟨o'', h2, hat'⟩
      · omega
      · have ho : o' = o'' := by omega
        exact ih hat (ho ▸ hat')

theorem lands_end : Lands size A (some h) (width size A) h := .inr ⟨rfl, rfl⟩

theorem Lands.append_left (hl : Lands size B out o h) :
    Lands size (A ++ B) out (width size A + o) h := by
  rcases hl with hat | ⟨ho, hout⟩
  · exact .inl hat.append_left
  · exact .inr ⟨by rw [ho, width_append], hout⟩

/-- What leaves `A` at its end goes on at the start of what follows. -/
theorem Lands.append_right {mid : Option Nat} (hl : Lands size A mid o h)
    (hmid : ∀ k, mid = some k → Lands size B out 0 k) : Lands size (A ++ B) out o h := by
  rcases hl with hat | ⟨ho, hout⟩
  · exact .inl hat.append_right
  · rw [ho, ← Nat.add_zero (width size A)]
    exact (hmid h hout).append_left

theorem Lands.at (hl : Lands size A none o h) : At size A o h := by
  rcases hl with hat | ⟨-, hout⟩
  · exact hat
  · simp at hout

end Layout

/-- What may follow an instruction at a height: the distance to each successor
and the height there, or nothing if the instruction cannot run. -/
abbrev Flow (ι : Type*) := ι → Nat → Option (List (Nat × Nat))

section Steps

variable {ι : Type*} (size : ι → Nat) (flow : Flow ι)

/-- All that may follow `i` at height `h` is a place `P`. -/
def Flow.To (i : ι) (h : Nat) (P : Nat → Nat → Prop) : Prop :=
  ∃ succs, flow i h = some succs ∧ ∀ d k, (d, k) ∈ succs → P d k

/-- From each instruction of `A`, which starts at offset `o`, control goes to
places `P`. -/
def Steps (P : Nat → Nat → Prop) : Nat → List (ι × Nat) → Prop
  | _, [] => True
  | o, (i, h) :: A => flow.To i h (fun d k => P (o + d) k) ∧ Steps P (o + size i) A

variable {size flow} {P Q : Nat → Nat → Prop} {A B : List (ι × Nat)} {i : ι} {o h k c d : Nat}

theorem Flow.To.mono (hto : flow.To i h P) (hPQ : ∀ d k, P d k → Q d k) : flow.To i h Q := by
  obtain ⟨succs, hflow, hall⟩ := hto
  exact ⟨succs, hflow, fun d k hd => hPQ d k (hall d k hd)⟩

theorem Flow.to_nil (hflow : flow i h = some []) : flow.To i h P :=
  ⟨_, hflow, fun _ _ hd => absurd hd List.not_mem_nil⟩

theorem Flow.to_one (hflow : flow i h = some [(d, k)]) (hP : P d k) : flow.To i h P := by
  refine ⟨_, hflow, ?_⟩
  intro d' k' hd
  obtain ⟨rfl, rfl⟩ := Prod.mk.inj (List.mem_singleton.mp hd)
  exact hP

theorem Flow.to_two {d' k' : Nat} (hflow : flow i h = some [(d, k), (d', k')]) (hP : P d k)
    (hP' : P d' k') : flow.To i h P := by
  refine ⟨_, hflow, ?_⟩
  intro e l he
  rcases List.mem_pair.mp he with he | he
  · obtain ⟨rfl, rfl⟩ := Prod.mk.inj he
    exact hP
  · obtain ⟨rfl, rfl⟩ := Prod.mk.inj he
    exact hP'

theorem Steps.mono (hsteps : Steps size flow P o A) (hPQ : ∀ o k, P o k → Q o k) :
    Steps size flow Q o A := by
  induction A generalizing o with
  | nil => trivial
  | cons p A ih => exact ⟨hsteps.1.mono fun _ _ => hPQ _ _, ih hsteps.2⟩

theorem Steps.shift (hsteps : Steps size flow (fun o k => P (c + o) k) o A) :
    Steps size flow P (c + o) A := by
  induction A generalizing o with
  | nil => trivial
  | cons p A ih =>
    refine ⟨hsteps.1.mono fun d k hP => ?_, ?_⟩
    · rwa [Nat.add_assoc]
    · rw [Nat.add_assoc]
      exact ih hsteps.2

theorem steps_append :
    Steps size flow P o (A ++ B) ↔
      Steps size flow P o A ∧ Steps size flow P (o + width size A) B := by
  induction A generalizing o with
  | nil => simp [Steps]
  | cons p A ih =>
    simp only [List.cons_append, Steps, ih, width_cons, Nat.add_assoc, and_assoc]

theorem Steps.at (hsteps : Steps size flow P o A) {pre suf : List (ι × Nat)}
    (hA : A = pre ++ (i, h) :: suf) :
    flow.To i h fun d k => P (o + width size pre + d) k := by
  rw [hA, steps_append] at hsteps
  exact hsteps.2.1

end Steps

/-- Code entered at its start with height `hin`. -/
structure Fragment {ι : Type*} (size : ι → Nat) (flow : Flow ι) (A : List (ι × Nat))
    (hin : Nat) (out : Option Nat) : Prop where
  entry : Lands size A out 0 hin
  steps : Steps size flow (Lands size A out) 0 A

section Rules

variable {ι : Type*} {size : ι → Nat} {flow : Flow ι} {A B : List (ι × Nat)}
  {i j : ι} {h k l m : Nat} {out : Option Nat}

theorem Fragment.nil : Fragment size flow [] h (some h) := ⟨.inr ⟨rfl, rfl⟩, trivial⟩

/-- An instruction followed by the next one. -/
theorem Fragment.next (hflow : flow i h = some [(size i, k)]) :
    Fragment size flow [(i, h)] h (some k) where
  entry := .inl at_head
  steps := ⟨Flow.to_one hflow (.inr ⟨by simp, rfl⟩), trivial⟩

/-- An instruction that ends the code. -/
theorem Fragment.halt (hflow : flow i h = some []) : Fragment size flow [(i, h)] h none where
  entry := .inl at_head
  steps := ⟨Flow.to_nil hflow, trivial⟩

/-- The steps of code that other code precedes. -/
theorem Steps.prepend (hsteps : Steps size flow (Lands size B out) 0 B) :
    Steps size flow (Lands size (A ++ B) out) (width size A) B := by
  rw [← Nat.add_zero (width size A)]
  exact Steps.shift (hsteps.mono fun _ _ hl => hl.append_left)

/-- The steps of code that other code follows. -/
theorem Fragment.steps_followed (hA : Fragment size flow A h (some k))
    (hB : Lands size B out 0 k) : Steps size flow (Lands size (A ++ B) out) 0 A :=
  hA.steps.mono fun _ _ hl => hl.append_right fun _ hk => Option.some.inj hk ▸ hB

theorem Fragment.append (hA : Fragment size flow A h (some k))
    (hB : Fragment size flow B k out) : Fragment size flow (A ++ B) h out where
  entry := hA.entry.append_right fun _ hk => Option.some.inj hk ▸ hB.entry
  steps := by
    rw [steps_append, Nat.zero_add]
    exact ⟨hA.steps_followed hB.entry, hB.steps.prepend⟩

/-- Code that is not left at its end, or with height `k`. -/
theorem Fragment.weaken (hA : Fragment size flow A h out) (hout : ∀ l, out = some l → l = k) :
    Fragment size flow A h (some k) := by
  have hl : ∀ o l, Lands size A out o l → Lands size A (some k) o l := by
    intro o l hl
    rcases hl with hat | ⟨ho, heq⟩
    · exact .inl hat
    · exact .inr ⟨ho, by rw [hout l heq]⟩
  exact ⟨hl _ _ hA.entry, hA.steps.mono hl⟩

theorem Fragment.flow_mono {flow' : Flow ι} (hA : Fragment size flow A h out)
    (hflow : ∀ i h succs, flow i h = some succs → flow' i h = some succs) :
    Fragment size flow' A h out := by
  refine ⟨hA.entry, ?_⟩
  have hsteps := hA.steps
  generalize Lands size A out = P, 0 = o at hsteps
  clear hA
  induction A generalizing o with
  | nil => trivial
  | cons p A ih =>
    obtain ⟨⟨succs, hp, hall⟩, hrest⟩ := hsteps
    exact ⟨⟨succs, hflow _ _ _ hp, hall⟩, ih _ hrest⟩

/-- A jump over `A`: control goes to the start of `A` or past its end. -/
theorem Fragment.skip (hflow : flow j h = some [(size j, l), (size j + width size A, k)])
    (hA : Fragment size flow A l out) (hout : ∀ l, out = some l → l = k) :
    Fragment size flow ((j, h) :: A) h (some k) where
  entry := .inl at_head
  steps := by
    have hA := hA.weaken hout
    have hentry := hA.entry.append_left (A := [(j, h)])
    have hsteps := hA.steps.prepend (A := [(j, h)])
    simp only [width_cons, width_nil, Nat.add_zero, List.singleton_append] at hentry hsteps
    refine ⟨Flow.to_two hflow ?_ ?_, ?_⟩
    · rwa [Nat.zero_add]
    · exact .inr ⟨by simp, rfl⟩
    · rwa [Nat.zero_add]

/-- Two ways on: `j` goes to `A` or past the jump `e` that follows `A`, and `e`
goes past `B`. -/
theorem Fragment.branch {e : ι}
    (hj : flow j h = some [(size j, l), (size j + width size A + size e, l)])
    (he : flow e m = some [(size e + width size B, m)])
    (hA : Fragment size flow A l (some m)) (hB : Fragment size flow B l out)
    (hout : ∀ k, out = some k → k = m) :
    Fragment size flow ((j, h) :: (A ++ (e, m) :: B)) h (some m) where
  entry := .inl at_head
  steps := by
    have hB := hB.weaken hout
    have hjump : Lands size ((e, m) :: B) (some m) 0 m := .inl at_head
    have hAlands : Lands size (A ++ (e, m) :: B) (some m) 0 l :=
      hA.entry.append_right fun _ hk => Option.some.inj hk ▸ hjump
    have hAentry := hAlands.append_left (A := [(j, h)])
    have hAsteps := Steps.shift (c := size j) (o := 0)
      ((hA.steps_followed hjump).mono fun _ _ hl => hl.append_left (A := [(j, h)]))
    have hBentry := hB.entry.append_left (A := (j, h) :: A ++ [(e, m)])
    have hBsteps := hB.steps.prepend (A := (j, h) :: A ++ [(e, m)])
    simp only [width_append, width_cons, width_nil, Nat.add_zero, List.cons_append,
      List.append_assoc, List.nil_append] at hAentry hAsteps hBentry hBsteps
    refine ⟨Flow.to_two hj ?_ ?_, ?_⟩
    · rwa [Nat.zero_add]
    · rwa [Nat.zero_add, Nat.add_assoc]
    · rw [steps_append, Nat.zero_add]
      refine ⟨hAsteps, Flow.to_one he (.inr ⟨by simp [Nat.add_assoc], rfl⟩), ?_⟩
      rwa [Nat.add_assoc]

/-- Control that starts at the start of closed code stays on its instructions. -/
inductive Reaches (size : ι → Nat) (flow : Flow ι) (A : List (ι × Nat)) (hin : Nat) :
    Nat → Nat → Prop
  | start : Reaches size flow A hin 0 hin
  | step {pre suf i h succs d k} : Reaches size flow A hin (width size pre) h →
      A = pre ++ (i, h) :: suf → flow i h = some succs → (d, k) ∈ succs →
      Reaches size flow A hin (width size pre + d) k

theorem Fragment.reaches_at {o : Nat} (hA : Fragment size flow A h none)
    (hr : Reaches size flow A h o k) : At size A o k := by
  induction hr with
  | start => exact hA.entry.at
  | step _ hsplit hflow hd _ =>
    obtain ⟨succs, hflow', hall⟩ := hA.steps.at hsplit
    obtain rfl := Option.some.inj (hflow.symm.trans hflow')
    have hl := hall _ _ hd
    rw [Nat.zero_add] at hl
    exact hl.at

end Rules

end StackCode
