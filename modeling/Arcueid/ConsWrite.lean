import Mathlib.Data.Fintype.EquivFin
import Mathlib.Logic.Relation
import Mathlib.Order.WellFounded
import Arcueid.Reader

/-! `cons_pprint`, over a memory of cons cells. -/

namespace Arcueid

open Numeral Reader

/-- A value to be printed; a cons is its address. -/
inductive PVal where
  | nil
  | fixnum (n : Fixnum)
  | symbol (name : List Nat)
  | cons (a : Nat)

/-- A memory of cons cells, none of which points outside. -/
structure ConsHeap where
  cells : List (PVal × PVal)
  closed : ∀ (a : Nat) (x y : PVal) (b : Nat), cells[a]? = some (x, y) →
    x = .cons b ∨ y = .cons b → b < cells.length

namespace ConsHeap

variable (h : ConsHeap)

/-- `__arc_visitp`: the visit table holds the conses that are being printed. -/
def visitp (visited : List Nat) : PVal → Bool
  | .cons a => visited.contains a
  | _ => false

mutual

/-- `__arc_disp_write`, with the visit table as it stands. -/
def dispWrite : Nat → List Nat → PVal → Except Stop (List Nat)
  | 0, _, _ => throw .fuel
  | _ + 1, _, .nil => pure (runes "nil")
  | _ + 1, _, .fixnum n => pure (fixnumText n.val)
  | _ + 1, _, .symbol name => pure name
  | n + 1, visited, .cons a =>
    if visited.contains a then pure (runes "(...)")
    else do
      let text ← consLoop n (a :: visited) a
      pure ('('.toNat :: text ++ [')'.toNat])

/-- The loop of `cons_pprint` from the cons `b` on, and what follows it. -/
def consLoop : Nat → List Nat → Nat → Except Stop (List Nat)
  | 0, _, _ => throw .fuel
  | n + 1, visited, b =>
    match h.cells[b]? with
    | none => throw .undefined
    | some (x, y) => do
      let text ← if visitp visited x then pure (runes "(...)") else dispWrite n visited x
      if visitp visited y then
        let tail ← dispWrite n visited y
        pure (text ++ runes " . " ++ tail)
      else match y with
        | .nil => pure text
        | .cons b' => do
          let texts ← consLoop n visited b'
          pure (text ++ ' '.toNat :: texts)
        | y => do
          -- the blank after the element, then the dot between blanks
          let tail ← dispWrite n visited y
          pure (text ++ ' '.toNat :: runes " . " ++ tail)

end

def arcWrite (n : Nat) (v : PVal) : Except Stop (List Nat) := h.dispWrite n [] v

/-- `w` is the car or the cdr of `v`. -/
def Child (w v : PVal) : Prop := ∃ a x y, v = .cons a ∧ h.cells[a]? = some (x, y) ∧ (w = x ∨ w = y)

/-- `v` is a value of the memory. -/
def Valid (v : PVal) : Prop := ∀ a, v = .cons a → a < h.cells.length

/-- No cons within `v` is part of itself. -/
def Acyclic (v : PVal) : Prop :=
  ∀ w, Relation.ReflTransGen h.Child w v → ¬ Relation.TransGen h.Child w w

variable {F : Type}

/-- The structure of a value. -/
inductive Denotes : PVal → Datum F → Prop where
  | nil : Denotes .nil .nil
  | fixnum (n : Fixnum) : Denotes (.fixnum n) (.number (.fixnum n.val))
  | symbol (name : List Nat) : Denotes (.symbol name) (.symbol name)
  | cons {a : Nat} {x y : PVal} {s t : Datum F} : h.cells[a]? = some (x, y) → Denotes x s →
      Denotes y t → Denotes (.cons a) (.cons s t)

variable {h} {v : PVal} {t : Datum F} {visited : List Nat}

theorem Denotes.unique {t' : Datum F} (ht : h.Denotes v t) (ht' : h.Denotes v t') : t = t' := by
  induction ht generalizing t' with
  | nil =>
    cases ht'
    rfl
  | fixnum n =>
    cases ht'
    rfl
  | symbol name =>
    cases ht'
    rfl
  | cons hcell _ _ ihx ihy =>
    cases ht' with
    | cons hcell' hx hy =>
      rw [hcell] at hcell'
      cases hcell'
      rw [ihx hx, ihy hy]

/-- Where every cell points to earlier ones only, nothing is part of itself. -/
theorem acyclic_of_backward (hb : ∀ (a : Nat) (x y : PVal) (b : Nat), h.cells[a]? = some (x, y) →
    x = .cons b ∨ y = .cons b → b < a) (v : PVal) : h.Acyclic v := by
  let rank : PVal → Nat
    | .cons a => a + 1
    | _ => 0
  have hchild : ∀ w u, h.Child w u → rank w < rank u := by
    rintro w u ⟨a, x, y, rfl, hcell, hw⟩
    cases w with
    | cons b => exact Nat.succ_lt_succ (hb a x y b hcell (hw.imp Eq.symm Eq.symm))
    | _ => exact Nat.succ_pos a
  intro w _ hcycle
  have hlt : ∀ u, Relation.TransGen h.Child w u → rank w < rank u := by
    intro u hu
    induction hu with
    | single huw => exact hchild _ _ huw
    | tail _ huw ih => exact ih.trans (hchild _ _ huw)
  exact Nat.lt_irrefl _ (hlt w hcycle)

theorem exists_denotes_of_children {a : Nat} (ha : a < h.cells.length)
    (hch : ∀ b, h.Child (.cons b) (.cons a) → b < h.cells.length →
      ∃ t : Datum F, h.Denotes (.cons b) t) : ∃ t : Datum F, h.Denotes (.cons a) t := by
  obtain ⟨⟨x, y⟩, hxy⟩ : ∃ xy, h.cells[a] = xy := ⟨_, rfl⟩
  have hcell : h.cells[a]? = some (x, y) := by rw [List.getElem?_eq_getElem ha, hxy]
  have hpart : ∀ w : PVal, w = x ∨ w = y → ∃ t : Datum F, h.Denotes w t := by
    intro w hw
    cases w with
    | nil => exact ⟨.nil, .nil⟩
    | fixnum n => exact ⟨_, .fixnum n⟩
    | symbol name => exact ⟨_, .symbol name⟩
    | cons b =>
      exact hch b ⟨a, x, y, rfl, hcell, hw⟩ (h.closed a x y b hcell (hw.imp Eq.symm Eq.symm))
  obtain ⟨s, hs⟩ := hpart x (.inl rfl)
  obtain ⟨t, ht⟩ := hpart y (.inr rfl)
  exact ⟨.cons s t, .cons hcell hs ht⟩

/-- A value of the memory that is no part of itself has a structure. -/
theorem exists_denotes (hv : h.Valid v) (hac : h.Acyclic v) : ∃ t : Datum F, h.Denotes v t := by
  let S := { a : Fin h.cells.length // Relation.ReflTransGen h.Child (.cons a) v }
  let r : S → S → Prop := fun a b => Relation.TransGen h.Child (.cons a.1) (.cons b.1)
  have htrans : IsTrans S r := ⟨fun _ _ _ hab hbc => hab.trans hbc⟩
  have hirrefl : Std.Irrefl r := ⟨fun a haa => hac _ a.2 haa⟩
  have : Finite S := inferInstance
  have hwf : WellFounded r := Finite.wellFounded_of_trans_of_irrefl r
  have hcons : ∀ a : S, ∃ t : Datum F, h.Denotes (.cons a.1) t := by
    intro a
    induction a using hwf.induction with
    | _ a ih =>
      refine exists_denotes_of_children a.1.2 fun b hb hlt => ?_
      exact ih ⟨⟨b, hlt⟩, .head hb a.2⟩ (.single hb)
  cases v with
  | nil => exact ⟨.nil, .nil⟩
  | fixnum n => exact ⟨_, .fixnum n⟩
  | symbol name => exact ⟨_, .symbol name⟩
  | cons a => exact hcons ⟨⟨a, hv a rfl⟩, .refl⟩

end ConsHeap

section Text

variable {F : Type}

def atomText : Datum F → List Nat
  | .nil => runes "nil"
  | .number (.fixnum n) => fixnumText n
  | .symbol name => name
  | _ => []

mutual

/-- The text of a value. -/
def text : Datum F → List Nat
  | .cons s t => '('.toNat :: text s ++ loopText t ++ [')'.toNat]
  | d => atomText d

/-- The text of a list after its first element. -/
def loopText : Datum F → List Nat
  | .nil => []
  | .cons s t => ' '.toNat :: text s ++ loopText t
  | d => ' '.toNat :: runes " . " ++ atomText d

end

end Text

namespace ConsHeap

variable {F : Type} {h : ConsHeap} {v : PVal} {s t : Datum F} {visited : List Nat}

/-- The values that are being printed are larger than `t`. -/
def Below (h : ConsHeap) (visited : List Nat) (t : Datum F) : Prop :=
  ∀ a ∈ visited, ∀ t' : Datum F, h.Denotes (.cons a) t' → sizeOf t < sizeOf t'

theorem Below.visitp (hb : h.Below visited t) (ht : h.Denotes v t) : visitp visited v = false := by
  cases v with
  | cons a =>
    by_contra hmem
    have hlt := hb a (by simpa [ConsHeap.visitp] using hmem) t ht
    omega
  | _ => rfl

theorem Below.car (hb : ∀ a ∈ visited, ∀ t' : Datum F, h.Denotes (.cons a) t' →
    sizeOf (Datum.cons s t) ≤ sizeOf t') : h.Below visited s := fun a ha t' ht' => by
  have hle := hb a ha t' ht'
  simp only [Datum.cons.sizeOf_spec] at hle
  omega

theorem Below.cdr (hb : ∀ a ∈ visited, ∀ t' : Datum F, h.Denotes (.cons a) t' →
    sizeOf (Datum.cons s t) ≤ sizeOf t') : h.Below visited t := fun a ha t' ht' => by
  have hle := hb a ha t' ht'
  simp only [Datum.cons.sizeOf_spec] at hle
  omega

/-- What is printed for a value, and by the loop for a cons. -/
theorem dispWrite_denotes (ht : h.Denotes v t) :
    (∃ N, ∀ n ≥ N, ∀ visited, h.Below visited t → h.dispWrite n visited v = .ok (text t)) ∧
      ∀ a s u, v = .cons a → t = .cons s u → ∃ N, ∀ n ≥ N, ∀ visited,
        (∀ b ∈ visited, ∀ t' : Datum F, h.Denotes (.cons b) t' → sizeOf t ≤ sizeOf t') →
        h.consLoop n visited a = .ok (text s ++ loopText u) := by
  induction ht with
  | nil =>
    refine ⟨⟨1, fun n hn visited _ => ?_⟩, nofun⟩
    obtain ⟨n, rfl⟩ := Nat.exists_eq_add_of_le hn
    rw [Nat.add_comm, dispWrite]
    rfl
  | fixnum k =>
    refine ⟨⟨1, fun n hn visited _ => ?_⟩, nofun⟩
    obtain ⟨n, rfl⟩ := Nat.exists_eq_add_of_le hn
    rw [Nat.add_comm, dispWrite]
    rfl
  | symbol name =>
    refine ⟨⟨1, fun n hn visited _ => ?_⟩, nofun⟩
    obtain ⟨n, rfl⟩ := Nat.exists_eq_add_of_le hn
    rw [Nat.add_comm, dispWrite]
    rfl
  | @cons a x y s u hcell hx hy ihx ihy =>
    obtain ⟨⟨Nx, hX⟩, -⟩ := ihx
    obtain ⟨⟨Ny, hY⟩, hLoop⟩ := ihy
    have hloop : ∃ N, ∀ n ≥ N, ∀ visited, (∀ b ∈ visited, ∀ t' : Datum F,
        h.Denotes (.cons b) t' → sizeOf (Datum.cons s u) ≤ sizeOf t') →
        h.consLoop n visited a = .ok (text s ++ loopText u) := by
      -- the head of the list, whatever follows it
      have hhead : ∀ n ≥ Nx, ∀ visited, (∀ b ∈ visited, ∀ t' : Datum F,
          h.Denotes (.cons b) t' → sizeOf (Datum.cons s u) ≤ sizeOf t') →
          ConsHeap.visitp visited x = false ∧ ConsHeap.visitp visited y = false ∧
            h.dispWrite n visited x = .ok (text s) := fun n hn visited hb =>
        ⟨(Below.car hb).visitp hx, (Below.cdr hb).visitp hy, hX n hn visited (Below.car hb)⟩
      cases hy with
      | nil =>
        refine ⟨Nx + 1, fun n hn visited hb => ?_⟩
        obtain ⟨n, rfl⟩ := Nat.exists_eq_add_of_le' (show 1 ≤ n by omega)
        obtain ⟨hvx, hvy, hdisp⟩ := hhead n (by omega) visited hb
        simp [consLoop, hcell, hvx, hvy, hdisp, loopText, bind, Except.bind, pure, Except.pure]
      | fixnum k =>
        refine ⟨max Nx Ny + 1, fun n hn visited hb => ?_⟩
        obtain ⟨n, rfl⟩ := Nat.exists_eq_add_of_le' (show 1 ≤ n by omega)
        obtain ⟨hvx, hvy, hdisp⟩ := hhead n (by omega) visited hb
        simp [consLoop, hcell, hvx, hvy, hdisp, hY n (by omega) visited (Below.cdr hb), loopText,
          text, bind, Except.bind, pure, Except.pure]
      | symbol name =>
        refine ⟨max Nx Ny + 1, fun n hn visited hb => ?_⟩
        obtain ⟨n, rfl⟩ := Nat.exists_eq_add_of_le' (show 1 ≤ n by omega)
        obtain ⟨hvx, hvy, hdisp⟩ := hhead n (by omega) visited hb
        simp [consLoop, hcell, hvx, hvy, hdisp, hY n (by omega) visited (Below.cdr hb), loopText,
          text, bind, Except.bind, pure, Except.pure]
      | @cons b _ _ s' u' hcell' hx' hy' =>
        obtain ⟨Nl, hL⟩ := hLoop b s' u' rfl rfl
        refine ⟨max Nx Nl + 1, fun n hn visited hb => ?_⟩
        obtain ⟨n, rfl⟩ := Nat.exists_eq_add_of_le' (show 1 ≤ n by omega)
        obtain ⟨hvx, hvy, hdisp⟩ := hhead n (by omega) visited hb
        have hL' := hL n (by omega) visited fun c hc t' ht' => (Below.cdr hb c hc t' ht').le
        simp [consLoop, hcell, hvx, hvy, hdisp, hL', loopText, bind, Except.bind, pure, Except.pure]
    refine ⟨?_, ?_⟩
    · obtain ⟨N, hN⟩ := hloop
      refine ⟨N + 1, fun n hn visited hb => ?_⟩
      obtain ⟨n, rfl⟩ := Nat.exists_eq_add_of_le' (show 1 ≤ n by omega)
      have hcons : h.Denotes (.cons a) (.cons s u) := .cons hcell hx hy
      have hnot : visited.contains a = false := hb.visitp hcons
      have hrun := hN n (by omega) (a :: visited) fun b hmem t' ht' => by
        rcases List.mem_cons.mp hmem with rfl | hmem
        · rw [hcons.unique ht']
        · exact (hb b hmem t' ht').le
      simp only [dispWrite, hnot, hrun, bind, Except.bind, pure, Except.pure, text]
      rfl
    · rintro _ _ _ ⟨⟩ ⟨⟩
      exact hloop

end ConsHeap

end Arcueid
