import Mathlib.Data.List.Nodup
import Mathlib.Logic.Function.Basic

/-! Singly linked lists in a memory of `next` fields, and what stores to these
fields do to them. -/

namespace LinkedList

variable {α : Type*}

/-- Going on by `next` from `p`, the nodes `l` are visited before `q`. -/
def Seg (next : α → Option α) : Option α → List α → Option α → Prop
  | p, [], q => p = q
  | p, a :: l, q => p = some a ∧ Seg next (next a) l q

section Shape

variable {next : α → Option α} {p q : Option α} {a : α} {l l₁ l₂ : List α}

@[simp] theorem seg_nil : Seg next p [] q ↔ p = q := Iff.rfl

@[simp] theorem seg_cons : Seg next p (a :: l) q ↔ p = some a ∧ Seg next (next a) l q := Iff.rfl

theorem seg_append : Seg next p (l₁ ++ l₂) q ↔ ∃ r, Seg next p l₁ r ∧ Seg next r l₂ q := by
  induction l₁ generalizing p with
  | nil => simp
  | cons b l₁ ih => simp only [List.cons_append, seg_cons, ih, and_assoc, exists_and_left]

theorem seg_concat : Seg next p (l ++ [a]) q ↔ Seg next p l (some a) ∧ next a = q := by
  rw [seg_append]
  constructor
  · rintro ⟨r, hl, rfl, hq⟩
    exact ⟨hl, hq⟩
  · rintro ⟨hl, hq⟩
    exact ⟨some a, hl, rfl, hq⟩

theorem eq_nil_of_seg_none (h : Seg next none l none) : l = [] := by
  cases l with
  | nil => rfl
  | cons a l => cases h.1

/-- The nodes before the end are determined by where the list starts. -/
theorem seg_unique (h₁ : Seg next p l₁ none) (h₂ : Seg next p l₂ none) : l₁ = l₂ := by
  induction l₁ generalizing p l₂ with
  | nil =>
    rw [seg_nil] at h₁
    subst h₁
    exact (eq_nil_of_seg_none h₂).symm
  | cons a l₁ ih =>
    obtain ⟨rfl, h₁⟩ := h₁
    cases l₂ with
    | nil => cases h₂
    | cons b l₂ =>
      obtain ⟨hab, h₂⟩ := h₂
      obtain rfl := Option.some.inj hab
      rw [ih h₁ h₂]

/-- A list that ends visits no node twice. -/
theorem nodup_of_seg (h : Seg next p l none) : l.Nodup := by
  induction l generalizing p with
  | nil => exact List.nodup_nil
  | cons a l ih =>
    refine List.nodup_cons.mpr ⟨fun ha => ?_, ih h.2⟩
    obtain ⟨s, t, rfl⟩ := List.append_of_mem ha
    obtain ⟨r, -, -, ht⟩ := seg_append.mp h.2
    have hlen := congrArg List.length (seg_unique h.2 ht)
    rw [List.length_append, List.length_cons] at hlen
    omega

end Shape

section Store

variable {next next' : α → Option α} {p q q' : Option α} {a : α} {l : List α}

theorem seg_congr (h : ∀ b ∈ l, next' b = next b) : Seg next' p l q ↔ Seg next p l q := by
  induction l generalizing p with
  | nil => exact Iff.rfl
  | cons b l ih =>
    rw [seg_cons, seg_cons, h b List.mem_cons_self, ih fun c hc => h c (List.mem_cons_of_mem b hc)]

variable [DecidableEq α]

theorem seg_update_of_not_mem (ha : a ∉ l) :
    Seg (Function.update next a q') p l q ↔ Seg next p l q := by
  apply seg_congr
  intro b hb
  have hne : b ≠ a := fun hba => ha (hba ▸ hb)
  rw [Function.update_of_ne hne]

/-- The last node is made to lead elsewhere. -/
theorem seg_redirect (h : Seg next p l (some a)) (ha : a ∉ l) :
    Seg (Function.update next a q') p (l ++ [a]) q' :=
  seg_concat.mpr ⟨(seg_update_of_not_mem ha).mpr h, Function.update_self a q' next⟩

/-- The last node of one list is made to lead to another one. -/
theorem seg_join {l₂ : List α} (h : Seg next p (l ++ [a]) none) (h₂ : Seg next q l₂ none)
    (ha : a ∉ l₂) : Seg (Function.update next a q) p (l ++ [a] ++ l₂) none := by
  have hnot : a ∉ l := by
    intro hmem
    exact (List.nodup_append.mp (nodup_of_seg h)).2.2 a hmem a List.mem_cons_self rfl
  exact seg_append.mpr ⟨q, seg_redirect (seg_concat.mp h).1 hnot, (seg_update_of_not_mem ha).mpr h₂⟩

/-- A node is taken out behind another. -/
theorem seg_unlink {b : α} {init after : List α}
    (h : Seg next p (init ++ [b] ++ a :: after) none) :
    Seg (Function.update next b (next a)) p (init ++ [b]) (next a) ∧
      Seg (Function.update next b (next a)) (next a) after none ∧
      Function.update next b (next a) a = next a := by
  obtain ⟨r, hbefore, rfl, hafter⟩ := seg_append.mp h
  have hnodup := nodup_of_seg h
  rw [List.append_assoc] at hnodup
  have hsuffix := (List.nodup_append.mp hnodup).2.1
  have hcross := (List.nodup_append.mp hnodup).2.2
  have hmem : b ∈ [b] ++ a :: after := List.mem_cons_self
  rw [List.singleton_append, List.nodup_cons, List.mem_cons, not_or] at hsuffix
  have hinit : b ∉ init := fun hb => hcross b hb b hmem rfl
  exact ⟨seg_redirect (seg_concat.mp hbefore).1 hinit,
    (seg_update_of_not_mem hsuffix.1.2).mpr hafter, Function.update_of_ne (Ne.symm hsuffix.1.1) _ _⟩

end Store

end LinkedList
