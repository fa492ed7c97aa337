import Arcueid.IsoEnds

/-! `is` and `iso` of any number of values: the loop over the list compares every
other pair of neighbours, and for `iso` with one pair of visit tables. -/

namespace Arcueid.Objects

open Filter Outcome Settling

/-- The pairs of neighbours. -/
def adjacent : List Val → List (Val × Val)
  | a :: b :: rest => (a, b) :: adjacent (b :: rest)
  | _ => []

variable {h : Heap} {vh1 vh2 a b : Val} {list : List Val} {roots roots' : List (Val × Val)}
  {p : Val × Val} {x y : Nat}

section Lists

theorem mem_adjacent : p ∈ adjacent list ↔ p ∈ strides list ∨ p ∈ strides list.tail := by
  fun_induction adjacent list with
  | case1 a b rest ih =>
    rw [List.mem_cons, ih, strides, List.mem_cons, List.tail_cons, List.tail_cons]
    tauto
  | case2 list hshort =>
    match list, hshort with
    | [], _ => simp [strides]
    | [a], _ => simp [strides]
    | a :: b :: rest, hshort => exact absurd rfl (hshort a b rest)

theorem arcIs_iff : arcIs h list = true ↔ ∀ p ∈ strides list, arcIs2 h p.1 p.2 = true := by
  unfold arcIs
  fun_induction strides list with
  | case1 a b rest ih =>
    cases hab : arcIs2 h a b
    · simp [pairwise, hab]
    · simp [pairwise, hab, ih]
  | case2 list hshort =>
    cases list with
    | nil => simp [pairwise]
    | cons a tail =>
      cases tail with
      | nil => simp [pairwise]
      | cons b rest => exact absurd rfl (hshort a b rest)

end Lists

section Roots

theorem Met.mono (hmet : Met h roots a b) (hsub : ∀ q ∈ roots, Met h roots' q.1 q.2) :
    Met h roots' a b := by
  induction hmet with
  | root hq => exact hsub _ hq
  | step _ hne hc ih => exact .step ih hne hc

theorem Met.of_root (hmet : Met h roots a b) : ∃ p ∈ roots, Met h [p] a b := by
  induction hmet with
  | root hq => exact ⟨_, hq, .root List.mem_cons_self⟩
  | step _ hne hc ih =>
    obtain ⟨p, hp, hm⟩ := ih
    exact ⟨p, hp, .step hm hne hc⟩

variable (hsub : ∀ q ∈ roots, Met h roots' q.1 q.2)
include hsub

theorem Node.mono (hn : Node h roots x y) : Node h roots' x y :=
  ⟨hn.met.mono hsub, hn.ne, hn.type, hn.compound⟩

theorem KeysApart.mono (hap : KeysApart h roots') : KeysApart h roots where
  left hn hn' := hap.left (hn.mono hsub) (hn'.mono hsub)
  right hn hn' := hap.right (hn.mono hsub) (hn'.mono hsub)

theorem NoSlot.mono (hns : NoSlot h roots') : NoSlot h roots :=
  fun hn hvec => hns (hn.mono hsub) hvec

theorem Alike.mono (halike : Alike h roots') : Alike h roots where
  agree hmet := halike.agree (hmet.mono hsub)
  matched hn hn' := halike.matched (hn.mono hsub) (hn'.mono hsub)

theorem nodes_finite_mono (hfin : {x | ∃ y, Node h roots' x y}.Finite) :
    {x | ∃ y, Node h roots x y}.Finite :=
  hfin.subset fun _ ⟨y, hn⟩ => ⟨y, hn.mono hsub⟩

omit hsub

theorem Alike.comparable (halike : Alike h roots) (hfin : {x | ∃ y, Node h roots x y}.Finite) :
    Comparable h roots := by
  have hfits : ∀ {x y}, Node h roots x y → Fits h (h x) (h y) := fun hn =>
    (halike.agree hn.met).fits hn.ne hn.compound
  refine ⟨fun {x y} hn => ?_, fun {x y tbl1 tbl2} hn hx hy {i e} hi he => ?_, hfin⟩
  · have hf := hfits hn
    generalize h x = o at hf
    generalize h y = o' at hf
    cases hf <;> rfl
  · have hf := hfits hn
    rw [hx, hy] at hf
    cases hf with
    | table _ hslots =>
      obtain ⟨v, hv, -⟩ := hslots i hi e he
      exact ⟨v, hv⟩

end Roots

/-- `iso` of the values comes to the answer `t`. -/
def IsoHolds (h : Heap) (vh1 vh2 : Val) (list : List Val) : Prop :=
  ∀ᶠ fuel in atTop, arcIso h vh1 vh2 fuel list = .ok true

theorem isoHolds_iff (hap : KeysApart h (strides list)) (hns : NoSlot h (strides list))
    (hfin : {x | ∃ y, Node h (strides list) x y}.Finite) :
    IsoHolds h vh1 vh2 list ↔ Alike h (strides list) := by
  constructor
  · intro hh
    obtain ⟨fuel, hfuel⟩ := hh.exists
    obtain ⟨s', hs⟩ := arcIso_ok_iff.mp hfuel
    exact (compareAll_iff hap hns hs).mp rfl
  · intro halike
    obtain ⟨r, s', hs, hr⟩ := compareAll_answers hap (halike.comparable hfin)
    filter_upwards [hs] with fuel hfuel
    rw [hr.mpr halike] at hfuel
    exact arcIso_ok_iff.mpr ⟨s', hfuel⟩

/-- The pairs compared being the same, the pairs left out are the same. -/
def IsDecided (h : Heap) (list : List Val) : Prop :=
  (∀ p ∈ strides list, arcIs2 h p.1 p.2 = true) →
    ∀ p ∈ strides list.tail, arcIs2 h p.1 p.2 = true

/-- The pairs compared being alike, the pairs left out are alike; and all neighbours
being alike, the objects met from the pairs compared are matched one to one. -/
structure IsoDecided (h : Heap) (list : List Val) : Prop where
  skipped : Alike h (strides list) → ∀ p ∈ strides list.tail, Alike h [p]
  shared : (∀ p ∈ adjacent list, Alike h [p]) → Matched h (strides list)

theorem is_adjacent_iff : (arcIs h list = true ↔ ∀ p ∈ adjacent list, arcIs2 h p.1 p.2 = true) ↔
    IsDecided h list := by
  simp only [arcIs_iff, mem_adjacent, IsDecided]
  constructor
  · intro hiff hodd p hp
    exact hiff.mp hodd p (.inr hp)
  · intro hdec
    refine ⟨fun hodd p hp => ?_, fun hall p hp => hall p (.inl hp)⟩
    exact hp.elim (hodd p) (hdec hodd p)

theorem alike_adjacent_iff :
    (Alike h (strides list) ↔ ∀ p ∈ adjacent list, Alike h [p]) ↔ IsoDecided h list := by
  constructor
  · intro hiff
    refine ⟨fun halike p hp => hiff.mp halike p (mem_adjacent.mpr (.inr hp)), fun hall => ?_⟩
    exact (hiff.mpr hall).matched
  · intro hdec
    refine ⟨fun halike p hp => ?_, fun hall => ⟨fun {a b} hmet => ?_, hdec.shared hall⟩⟩
    · rcases mem_adjacent.mp hp with hp | hp
      · exact halike.mono fun q hq => .root (by rwa [List.mem_singleton.mp hq])
      · exact hdec.skipped halike p hp
    · obtain ⟨p, hp, hm⟩ := hmet.of_root
      exact (hall p (mem_adjacent.mpr (.inl hp))).agree hm

/-- The law of neighbours holds of `is`, and of `iso`, exactly when what the loop
leaves out, and the tables it shares, make no difference. -/
theorem pairwise_law_iff (h : Heap) (vh1 vh2 : Val) (list : List Val) :
    ((arcIs h list = true ↔ ∀ p ∈ adjacent list, arcIs2 h p.1 p.2 = true) ↔ IsDecided h list) ∧
      (KeysApart h (adjacent list) → NoSlot h (adjacent list) →
        {x | ∃ y, Node h (adjacent list) x y}.Finite →
        ((IsoHolds h vh1 vh2 list ↔ ∀ p ∈ adjacent list, IsoHolds h vh1 vh2 [p.1, p.2]) ↔
          IsoDecided h list)) := by
  refine ⟨is_adjacent_iff, fun hap hns hfin => ?_⟩
  rw [← alike_adjacent_iff]
  have hstrides : ∀ q ∈ strides list, Met h (adjacent list) q.1 q.2 :=
    fun q hq => .root (mem_adjacent.mpr (.inl hq))
  have hone : ∀ p ∈ adjacent list, IsoHolds h vh1 vh2 [p.1, p.2] ↔ Alike h [p] := by
    intro p hp
    have hp' : ∀ q ∈ [p], Met h (adjacent list) q.1 q.2 :=
      fun q hq => .root (by rwa [List.mem_singleton.mp hq])
    exact isoHolds_iff (hap.mono hp') (hns.mono hp') (nodes_finite_mono hp' hfin)
  rw [isoHolds_iff (hap.mono hstrides) (hns.mono hstrides) (nodes_finite_mono hstrides hfin)]
  rw [forall₂_congr hone]

/-- Two lists of one nil, of which the second is given twice. -/
theorem pairwise_law_lists :
    (IsoHolds (fun _ => .cons .nil .nil) .nil .nil [.obj 16, .obj 32, .obj 32] ↔
      ∀ p ∈ adjacent [.obj 16, .obj 32, .obj 32],
        IsoHolds (fun _ => .cons .nil .nil) .nil .nil [p.1, p.2]) ↔
      IsoDecided (fun _ => .cons .nil .nil) [.obj 16, .obj 32, .obj 32] := by
  have hmet : ∀ {u v}, Met (fun _ => .cons .nil .nil) (adjacent [.obj 16, .obj 32, .obj 32]) u v →
      u = .obj 16 ∧ v = .obj 32 ∨ u = v := by
    intro u v hm
    cases hm with
    | root hq =>
      rcases List.mem_cons.mp hq with hq | hq
      · cases hq
        exact .inl ⟨rfl, rfl⟩
      · cases List.mem_singleton.mp hq
        exact .inr rfl
    | step _ _ hc => cases hc <;> exact .inr rfl
  have hnode : ∀ {x y}, Node (fun _ => .cons .nil .nil) (adjacent [.obj 16, .obj 32, .obj 32]) x y →
      x = 16 ∧ y = 32 := by
    intro x y hn
    rcases hmet hn.met with ⟨hx, hy⟩ | heq
    · exact ⟨Val.obj.inj hx, Val.obj.inj hy⟩
    · exact absurd (Val.obj.inj heq) hn.ne
  refine (pairwise_law_iff _ .nil .nil _).2 ⟨fun hn hn' _ => ?_, fun hn hn' _ => ?_⟩
    (fun _ hvec => by cases hvec) ((Set.finite_singleton 16).subset ?_)
  · rw [(hnode hn).1, (hnode hn').1]
  · rw [(hnode hn).2, (hnode hn').2]
  · rintro x ⟨y, hn⟩
    exact (hnode hn).1

/-- The third value is never looked at. -/
theorem pairwise_skips : arcIs (fun _ => .char 0) [.fixnum 1, .fixnum 1, .fixnum 2] = true ∧
    arcIs2 (fun _ => .char 0) (.fixnum 1) (.fixnum 2) = false ∧
    arcIso (fun _ => .char 0) .nil .nil 2 [.fixnum 1, .fixnum 1, .fixnum 2] = .ok true ∧
    arcIso (fun _ => .char 0) .nil .nil 2 [.fixnum 1, .fixnum 2] = .ok false := by
  decide +kernel

end Arcueid.Objects
