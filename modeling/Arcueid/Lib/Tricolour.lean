import Mathlib.Logic.Relation

/-! Colours of an object graph during incremental marking. A white object is
found when a path of white objects leads to it from a grey one. -/

namespace Tricolour

variable {α : Type*}

/-- What a path leads to from a source. -/
def From (edge : α → α → Prop) (src : α → Prop) (b : α) : Prop :=
  ∃ r, src r ∧ Relation.ReflTransGen edge r b

/-- What marking that starts at the grey objects will come to. -/
def Found (edge : α → α → Prop) (grey white : α → Prop) : α → Prop :=
  From (fun x y => edge x y ∧ white y) grey

section From

variable {edge edge' : α → α → Prop} {src src' : α → Prop} {x y b : α}

theorem From.of_src (h : src b) : From edge src b := ⟨b, h, .refl⟩

theorem From.step (h : From edge src x) (he : edge x y) : From edge src y := by
  obtain ⟨r, hr, hpath⟩ := h
  exact ⟨r, hr, hpath.tail he⟩

theorem From.induct {P : α → Prop} (h : From edge src b) (hsrc : ∀ r, src r → P r)
    (hstep : ∀ x y, From edge src x → P x → edge x y → P y) : P b := by
  obtain ⟨r, hr, hpath⟩ := h
  induction hpath with
  | refl => exact hsrc r hr
  | tail hxy he ih => exact hstep _ _ ⟨r, hr, hxy⟩ ih he

/-- New sources and new edges that lead to what was there add nothing. -/
theorem From.of_changed (h : From edge' src' b) (hsrc : ∀ r, src' r → From edge src r)
    (hedge : ∀ x y, From edge src x → edge' x y → edge x y ∨ From edge src y) :
    From edge src b := by
  refine h.induct hsrc fun x y _ hx he => ?_
  rcases hedge x y hx he with hold | hfrom
  · exact hx.step hold
  · exact hfrom

theorem From.mono (h : From edge src b) (hsrc : ∀ r, src r → src' r)
    (hedge : ∀ x y, edge x y → edge' x y) : From edge' src' b :=
  h.induct (fun r hr => .of_src (hsrc r hr)) fun x y _ hx he => hx.step (hedge x y he)

end From

section Found

variable {edge edge' : α → α → Prop} {grey white black grey' white' black' src : α → Prop} {b : α}

/-- A change keeps what marking will find if no edge is cut or made to start
at a black object, unless its end has become grey or black. -/
theorem Found.change (h : Found edge grey white b) (hgrey : ∀ x, grey x → grey' x ∨ black' x)
    (hwhite : ∀ x, white x → white' x ∨ grey' x ∨ black' x)
    (hedge : ∀ x y, grey x ∨ white x → edge x y → white y →
      (grey' y ∨ black' y) ∨ ¬ black' x ∧ edge' x y) :
    black' b ∨ Found edge' grey' white' b := by
  have hsafe : ∀ {x}, grey' x ∨ black' x → black' x ∨ Found edge' grey' white' x :=
    fun hx => hx.elim (fun hg => .inr (From.of_src hg)) .inl
  have hboth : (grey b ∨ white b) ∧ (black' b ∨ Found edge' grey' white' b) := by
    refine From.induct (P := fun x => (grey x ∨ white x) ∧ (black' x ∨ Found edge' grey' white' x))
      h (fun r hr => ⟨.inl hr, hsafe (hgrey r hr)⟩) fun x y _ hx he => ⟨.inr he.2, ?_⟩
    rcases hedge x y hx.1 he.1 he.2 with hy | ⟨hblack, hxy⟩
    · exact hsafe hy
    · have hfound := hx.2.resolve_left hblack
      rcases hwhite y he.2 with hw | hy
      · exact .inr (hfound.step ⟨hxy, hw⟩)
      · exact hsafe hy
  exact hboth.2

/-- Where all that is reachable is grey or white and the sources are grey. -/
theorem found_of_from (h : From edge src b) (hsrc : ∀ r, src r → grey r)
    (hcol : ∀ x, From edge src x → grey x ∨ white x) : Found edge grey white b := by
  refine h.induct (fun r hr => .of_src (hsrc r hr)) fun x y hx hfound he => ?_
  rcases hcol y (hx.step he) with hg | hw
  · exact From.of_src hg
  · exact hfound.step ⟨he, hw⟩

theorem not_found (hgrey : ∀ x, ¬ grey x) : ¬ Found edge grey white b :=
  fun ⟨r, hr, _⟩ => hgrey r hr

end Found

end Tricolour
