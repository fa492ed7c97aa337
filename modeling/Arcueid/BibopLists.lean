import Arcueid.Lib.LinkedList
import Arcueid.Bibop

/-! The lists of the allocator in every state that its operations reach: the
pages and the free slots of each size, and the allocated blocks. -/

namespace Arcueid.Bibop

open LinkedList

/-- `h` is a slot of one of the pages. -/
def SlotOf (pages : List Nat) (h : Blk) : Prop :=
  ∃ bpage ∈ pages, ∃ j < pageSize, h = .slot bpage j

/-- `P i` are the pages of size `i`, `F i` its free list, and `A` the list of
allocated blocks. -/
structure Inv (m : Mem) (P : Nat → List Nat) (F : Nat → List Blk) (A : List Blk) : Prop where
  pages : ∀ i, Seg m.pnext (m.bibopPages i) (P i) none
  free : ∀ i, Seg m.next (m.bibopfl i) (F i) none
  alloc : Seg m.next m.allocHead A none
  unallocated : ∀ i, ∀ h ∈ F i, SlotOf (P i) h ∧ m.ballocp h = false
  sized : ∀ i, ∀ h, SlotOf (P i) h → m.bsize h = i
  allocated : ∀ h ∈ A, m.ballocp h = true
  slot : ∀ bpage j, .slot bpage j ∈ A → ∃ i ≤ maxBibop, SlotOf (P i) (.slot bpage j)
  big : ∀ area, .big area ∈ A → m.owned area = true ∧ maxBibop < m.bsize (.big area) ∧
    ∀ i, area ∉ P i
  held : ∀ i h, SlotOf (P i) h → m.ballocp h = true → h ∈ A
  owned : ∀ i, ∀ bpage ∈ P i, m.owned bpage = true
  apart : ∀ i i', ∀ bpage ∈ P i, bpage ∈ P i' → i = i'
  small : ∀ i, P i ≠ [] → i ≤ maxBibop

section Slots

variable {m : Mem} {P : Nat → List Nat} {F : Nat → List Blk} {A : List Blk} {h : Blk} {i : Nat}

theorem slotOf_slot {pages : List Nat} {bpage j : Nat} :
    SlotOf pages (.slot bpage j) ↔ bpage ∈ pages ∧ j < pageSize := by
  constructor
  · rintro ⟨bpage', hmem, j', hj, heq⟩
    obtain ⟨rfl, rfl⟩ := Blk.slot.inj heq
    exact ⟨hmem, hj⟩
  · rintro ⟨hmem, hj⟩
    exact ⟨bpage, hmem, j, hj, rfl⟩

theorem SlotOf.cons {pages : List Nat} {bpage : Nat} (hslot : SlotOf pages h) :
    SlotOf (bpage :: pages) h := by
  obtain ⟨p, hmem, j, hj, rfl⟩ := hslot
  exact ⟨p, List.mem_cons_of_mem _ hmem, j, hj, rfl⟩

theorem inv_initMemmgr : Inv initMemmgr (fun _ => []) (fun _ => []) [] where
  pages := fun _ => rfl
  free := fun _ => rfl
  alloc := rfl
  unallocated := fun _ _ hmem => absurd hmem List.not_mem_nil
  sized := by
    rintro i h ⟨_, hmem, _⟩
    exact absurd hmem List.not_mem_nil
  allocated := fun _ hmem => absurd hmem List.not_mem_nil
  slot := fun _ _ hmem => absurd hmem List.not_mem_nil
  big := fun _ hmem => absurd hmem List.not_mem_nil
  held := by
    rintro i h ⟨_, hmem, _⟩
    exact absurd hmem List.not_mem_nil
  owned := fun _ _ hmem => absurd hmem List.not_mem_nil
  apart := fun _ _ _ hmem => absurd hmem List.not_mem_nil
  small := fun _ hne => absurd rfl hne

theorem Inv.not_mem_alloc (hinv : Inv m P F A) (hfree : m.ballocp h = false) : h ∉ A := by
  intro hmem
  rw [hinv.allocated h hmem] at hfree
  exact Bool.noConfusion hfree

theorem Inv.not_mem_free (hinv : Inv m P F A) (halloc : m.ballocp h = true) : h ∉ F i := by
  intro hmem
  rw [(hinv.unallocated i h hmem).2] at halloc
  exact Bool.noConfusion halloc

/-- The slots of one size are not those of another. -/
theorem Inv.size_unique {i' : Nat} (hinv : Inv m P F A) (hslot : SlotOf (P i) h)
    (hslot' : SlotOf (P i') h) : i = i' :=
  (hinv.sized i h hslot).symm.trans (hinv.sized i' h hslot')

theorem Inv.slotOf_small (hinv : Inv m P F A) (hslot : SlotOf (P i) h) : i ≤ maxBibop := by
  obtain ⟨bpage, hmem, -⟩ := hslot
  exact hinv.small i (List.ne_nil_of_mem hmem)

/-- The size of an allocated block tells where it is. -/
theorem Inv.slotOf_bsize (hinv : Inv m P F A) (hmem : h ∈ A) (hsize : m.bsize h ≤ maxBibop) :
    SlotOf (P (m.bsize h)) h := by
  cases h with
  | slot bpage j =>
    obtain ⟨i, -, hslot⟩ := hinv.slot bpage j hmem
    rwa [hinv.sized i _ hslot]
  | big area =>
    have hbig := (hinv.big area hmem).2.1
    omega

end Slots

section NewPage

variable {m : Mem} {P : Nat → List Nat} {F : Nat → List Blk} {A : List Blk} {osize bpage : Nat}

/-- The slots `0` to `n - 1`, the last one first. -/
def slotsBelow (bpage n : Nat) : List Blk := ((List.range n).map (Blk.slot bpage)).reverse

theorem mem_slotsBelow {n : Nat} {h : Blk} :
    h ∈ slotsBelow bpage n ↔ ∃ j < n, h = .slot bpage j := by
  rw [slotsBelow, List.mem_reverse, List.mem_map]
  constructor
  · rintro ⟨j, hj, rfl⟩
    exact ⟨j, List.mem_range.mp hj, rfl⟩
  · rintro ⟨j, hj, rfl⟩
    exact ⟨j, List.mem_range.mpr hj, rfl⟩

theorem slotsBelow_succ (bpage n : Nat) :
    slotsBelow bpage (n + 1) = .slot bpage n :: slotsBelow bpage n := by
  rw [slotsBelow, List.range_succ, List.map_append, List.reverse_append]
  rfl

/-- The first `n` slots of a page have been made, and are the free list. -/
structure Made (m₀ m : Mem) (osize bpage n : Nat) : Prop where
  chain : Seg m.next (m.bibopfl osize) (slotsBelow bpage n) none
  fresh : ∀ h ∈ slotsBelow bpage n, m.bsize h = osize ∧ m.ballocp h = false
  same : ∀ h ∉ slotsBelow bpage n, m.bsize h = m₀.bsize h ∧ m.ballocp h = m₀.ballocp h ∧
    m.next h = m₀.next h
  bibopfl : ∀ i, i ≠ osize → m.bibopfl i = m₀.bibopfl i
  kept : m.pnext = m₀.pnext ∧ m.bibopPages = m₀.bibopPages ∧ m.allocHead = m₀.allocHead ∧
    m.owned = m₀.owned

theorem made_zero (hnone : m.bibopfl osize = none) : Made m m osize bpage 0 :=
  ⟨hnone, fun _ hmem => absurd hmem List.not_mem_nil, fun _ _ => ⟨rfl, rfl, rfl⟩, fun _ _ => rfl,
    rfl, rfl, rfl, rfl⟩

theorem Made.newSlot {m₀ : Mem} {n : Nat} (hmade : Made m₀ m osize bpage n) :
    Made m₀ (newSlot osize bpage m n) osize bpage (n + 1) := by
  have hnew : Blk.slot bpage n ∉ slotsBelow bpage n := by
    rw [mem_slotsBelow]
    rintro ⟨j, hj, heq⟩
    have hjn := (Blk.slot.inj heq).2
    omega
  refine ⟨?_, fun h hh => ?_, fun h hh => ?_, fun i hi => ?_, hmade.kept⟩
  · rw [slotsBelow_succ]
    refine ⟨Function.update_self _ _ _, ?_⟩
    have hlink : (Bibop.newSlot osize bpage m n).next (.slot bpage n) = m.bibopfl osize :=
      Function.update_self _ _ _
    rw [hlink]
    exact (seg_update_of_not_mem hnew).mpr hmade.chain
  · rw [slotsBelow_succ, List.mem_cons] at hh
    by_cases heq : h = .slot bpage n
    · subst heq
      exact ⟨Function.update_self _ _ _, Function.update_self _ _ _⟩
    · obtain ⟨hsize, hfree⟩ := hmade.fresh h (hh.resolve_left heq)
      rw [← hsize, ← hfree]
      exact ⟨Function.update_of_ne heq _ _, Function.update_of_ne heq _ _⟩
  · rw [slotsBelow_succ, List.mem_cons, not_or] at hh
    obtain ⟨hsize, hfree, hnext⟩ := hmade.same h hh.2
    rw [← hsize, ← hfree, ← hnext]
    exact ⟨Function.update_of_ne hh.1 _ _, Function.update_of_ne hh.1 _ _,
      Function.update_of_ne hh.1 _ _⟩
  · rw [← hmade.bibopfl i hi]
    exact Function.update_of_ne hi _ _

theorem made_newSlots {m₀ : Mem} (hnone : m₀.bibopfl osize = none) (bpage n : Nat) :
    Made m₀ ((List.range n).foldl (newSlot osize bpage) m₀) osize bpage n := by
  induction n with
  | zero => exact made_zero hnone
  | succ n ih =>
    rw [List.range_succ, List.foldl_append]
    exact ih.newSlot

/-- A page for a size without free slots. -/
theorem Inv.newPage (hinv : Inv m P F A) (hsmall : osize ≤ maxBibop)
    (hnone : m.bibopfl osize = none) (hfresh : m.owned bpage = false) :
    Inv (newPage m osize bpage) (Function.update P osize (bpage :: P osize))
      (Function.update F osize (slotsBelow bpage pageSize)) A := by
  have hnot : ∀ i, bpage ∉ P i := by
    intro i hmem
    rw [hinv.owned i bpage hmem] at hfresh
    exact Bool.noConfusion hfresh
  have hbig : .big bpage ∉ A := by
    intro hmem
    rw [(hinv.big bpage hmem).1] at hfresh
    exact Bool.noConfusion hfresh
  have hslots : ∀ j, .slot bpage j ∉ A := by
    intro j hmem
    obtain ⟨i, -, hslot⟩ := hinv.slot bpage j hmem
    exact hnot i (slotOf_slot.mp hslot).1
  let m₀ := ((m.memAlloc bpage).setPnext bpage (m.bibopPages osize)).setPages osize (some bpage)
  have hnone₀ : m₀.bibopfl osize = none := hnone
  have hmade := made_newSlots hnone₀ bpage pageSize
  change Made m₀ (Bibop.newPage m osize bpage) osize bpage pageSize at hmade
  obtain ⟨hpnext, hpages, hhead, howned⟩ := hmade.kept
  have hsame : ∀ h, (∀ j, h ≠ .slot bpage j) → (Bibop.newPage m osize bpage).bsize h = m.bsize h ∧
      (Bibop.newPage m osize bpage).ballocp h = m.ballocp h ∧
      (Bibop.newPage m osize bpage).next h = m.next h := by
    intro h hne
    refine hmade.same h ?_
    rw [mem_slotsBelow]
    rintro ⟨j, -, heq⟩
    exact hne j heq
  have holdslot : ∀ {i h}, SlotOf (P i) h → ∀ j, h ≠ .slot bpage j := by
    rintro i h hslot j rfl
    exact hnot i (slotOf_slot.mp hslot).1
  have holdalloc : ∀ h ∈ A, ∀ j, h ≠ .slot bpage j := by
    rintro h hmem j rfl
    exact hslots j hmem
  have hcases : ∀ {i h}, SlotOf (Function.update P osize (bpage :: P osize) i) h →
      SlotOf (P i) h ∨ (i = osize ∧ h ∈ slotsBelow bpage pageSize) := by
    rintro i h ⟨p, hp, j, hj, rfl⟩
    by_cases hi : i = osize
    · subst hi
      rw [Function.update_self] at hp
      rcases List.mem_cons.mp hp with rfl | hp
      · exact .inr ⟨rfl, mem_slotsBelow.mpr ⟨j, hj, rfl⟩⟩
      · exact .inl ⟨p, hp, j, hj, rfl⟩
    · rw [Function.update_of_ne hi] at hp
      exact .inl ⟨p, hp, j, hj, rfl⟩
  have hmono : ∀ {i h}, SlotOf (P i) h → SlotOf (Function.update P osize (bpage :: P osize) i) h := by
    intro i h hslot
    by_cases hi : i = osize
    · subst hi
      rw [Function.update_self]
      exact hslot.cons
    · rwa [Function.update_of_ne hi]
  refine ⟨fun i => ?_, fun i => ?_, ?_, fun i h hmem => ?_, fun i h hslot => ?_, fun h hmem => ?_,
    fun p j hmem => ?_, fun area hmem => ?_, fun i h hslot halloc => ?_, fun i p hp => ?_,
    fun i i' p hp hp' => ?_, fun i hne => ?_⟩
  · have hold : Seg m₀.pnext (m.bibopPages i) (P i) none :=
      (seg_update_of_not_mem (hnot i)).mpr (hinv.pages i)
    rw [hpnext, hpages]
    by_cases hi : i = osize
    · subst hi
      have hlink : m₀.pnext bpage = m.bibopPages i := Function.update_self _ _ _
      rw [Function.update_self, seg_cons, hlink]
      exact ⟨Function.update_self _ _ _, hold⟩
    · rw [Function.update_of_ne hi]
      have hhead : m₀.bibopPages i = m.bibopPages i := Function.update_of_ne hi _ _
      rwa [hhead]
  · by_cases hi : i = osize
    · subst hi
      rw [Function.update_self]
      exact hmade.chain
    · rw [Function.update_of_ne hi, hmade.bibopfl i hi]
      refine (seg_congr fun h hmem => ?_).mpr (hinv.free i)
      exact (hsame h (holdslot (hinv.unallocated i h hmem).1)).2.2
  · rw [hhead]
    exact (seg_congr fun h hmem => (hsame h (holdalloc h hmem)).2.2).mpr hinv.alloc
  · by_cases hi : i = osize
    · subst hi
      rw [Function.update_self] at hmem ⊢
      refine ⟨?_, (hmade.fresh h hmem).2⟩
      obtain ⟨j, hj, rfl⟩ := mem_slotsBelow.mp hmem
      exact slotOf_slot.mpr ⟨List.mem_cons_self, hj⟩
    · rw [Function.update_of_ne hi] at hmem
      obtain ⟨hslot, hfree⟩ := hinv.unallocated i h hmem
      exact ⟨hmono hslot, (hsame h (holdslot hslot)).2.1.trans hfree⟩
  · rcases hcases hslot with hold | ⟨rfl, hnew⟩
    · exact (hsame h (holdslot hold)).1.trans (hinv.sized i h hold)
    · exact (hmade.fresh h hnew).1
  · exact (hsame h (holdalloc h hmem)).2.1.trans (hinv.allocated h hmem)
  · obtain ⟨i, hi, hslot⟩ := hinv.slot p j hmem
    exact ⟨i, hi, hmono hslot⟩
  · obtain ⟨hown, hsize, hapart⟩ := hinv.big area hmem
    have hne : area ≠ bpage := fun heq => hbig (heq ▸ hmem)
    refine ⟨?_, ?_, fun i hp => ?_⟩
    · rw [howned]
      exact (Function.update_of_ne hne _ _).trans hown
    · rwa [(hsame _ (holdalloc _ hmem)).1]
    · by_cases hi : i = osize
      · subst hi
        rw [Function.update_self] at hp
        exact (List.mem_cons.mp hp).elim hne (hapart i)
      · rw [Function.update_of_ne hi] at hp
        exact hapart i hp
  · rcases hcases hslot with hold | ⟨rfl, hnew⟩
    · rw [(hsame h (holdslot hold)).2.1] at halloc
      exact hinv.held i h hold halloc
    · rw [(hmade.fresh h hnew).2] at halloc
      exact Bool.noConfusion halloc
  · rw [howned]
    by_cases heq : p = bpage
    · subst heq
      exact Function.update_self _ _ _
    · refine (Function.update_of_ne heq _ _).trans (hinv.owned i p ?_)
      by_cases hi : i = osize
      · subst hi
        rw [Function.update_self] at hp
        exact (List.mem_cons.mp hp).resolve_left heq
      · rwa [Function.update_of_ne hi] at hp
  · have hold : ∀ k, p ∈ Function.update P osize (bpage :: P osize) k →
        p ∈ P k ∨ (p = bpage ∧ k = osize) := by
      intro k hk
      by_cases hi : k = osize
      · subst hi
        rw [Function.update_self] at hk
        exact (List.mem_cons.mp hk).elim (fun heq => .inr ⟨heq, rfl⟩) .inl
      · rw [Function.update_of_ne hi] at hk
        exact .inl hk
    rcases hold i hp with hin | ⟨heq, rfl⟩
    · rcases hold i' hp' with hin' | ⟨heq, -⟩
      · exact hinv.apart i i' p hin hin'
      · exact absurd (heq ▸ hin) (hnot i)
    · rcases hold i' hp' with hin' | ⟨-, rfl⟩
      · exact absurd (heq ▸ hin') (hnot i')
      · rfl
  · by_cases hi : i = osize
    · exact hi ▸ hsmall
    · rw [Function.update_of_ne hi] at hne
      exact hinv.small i hne

end NewPage

section Operations

variable {m : Mem} {P : Nat → List Nat} {F : Nat → List Blk} {A : List Blk} {h : Blk} {i : Nat}

/-- The first free slot of a size is handed out. -/
theorem Inv.take (hinv : Inv m P F A) {l : List Blk} (hF : F i = h :: l) :
    Inv ((m.setFl i (m.next h)).handOut i h) P (Function.update F i l) (h :: A) := by
  have hmem : h ∈ F i := hF ▸ List.mem_cons_self
  obtain ⟨hslot, hfree⟩ := hinv.unallocated i h hmem
  have hA : h ∉ A := hinv.not_mem_alloc hfree
  have hl : h ∉ l := by
    have hnodup := nodup_of_seg (hinv.free i)
    rw [hF] at hnodup
    exact (List.nodup_cons.mp hnodup).1
  have hother : ∀ i', i' ≠ i → h ∉ F i' := fun i' hne hmem' =>
    hne (hinv.size_unique (hinv.unallocated i' h hmem').1 hslot)
  have hrest : ∀ i', ∀ b ∈ Function.update F i l i', b ∈ F i' ∧ b ≠ h := by
    intro i' b hb
    by_cases hi : i' = i
    · subst hi
      rw [Function.update_self] at hb
      exact ⟨hF ▸ List.mem_cons_of_mem _ hb, fun heq => hl (heq ▸ hb)⟩
    · rw [Function.update_of_ne hi] at hb
      exact ⟨hb, fun heq => hother i' hi (heq ▸ hb)⟩
  have hsize : ∀ b, ((m.setFl i (m.next h)).handOut i h).bsize b = m.bsize b := by
    intro b
    by_cases hb : b = h
    · subst hb
      exact (Function.update_self _ _ _).trans (hinv.sized i b hslot).symm
    · exact Function.update_of_ne hb _ _
  have hallocp : ∀ b, b ≠ h → ((m.setFl i (m.next h)).handOut i h).ballocp b = m.ballocp b :=
    fun b hb => Function.update_of_ne hb _ _
  refine ⟨hinv.pages, fun i' => ?_, ?_, fun i' b hb => ?_, fun i' b hb => ?_, fun b hb => ?_,
    fun p j hb => ?_, fun area hb => ?_, fun i' b hb halloc => ?_, hinv.owned, hinv.apart, hinv.small⟩
  · have hchain : Seg m.next ((m.setFl i (m.next h)).bibopfl i') (Function.update F i l i') none := by
      by_cases hi : i' = i
      · subst hi
        have hseg := hinv.free i'
        rw [hF] at hseg
        have hfl : (m.setFl i' (m.next h)).bibopfl i' = m.next h := Function.update_self _ _ _
        rw [Function.update_self, hfl]
        exact hseg.2
      · have hfl : (m.setFl i (m.next h)).bibopfl i' = m.bibopfl i' := Function.update_of_ne hi _ _
        rw [Function.update_of_ne hi, hfl]
        exact hinv.free i'
    exact (seg_update_of_not_mem fun hb => (hrest i' h hb).2 rfl).mpr hchain
  · have hlink : ((m.setFl i (m.next h)).handOut i h).next h = m.allocHead := Function.update_self _ _ _
    rw [seg_cons, hlink]
    exact ⟨rfl, (seg_update_of_not_mem hA).mpr hinv.alloc⟩
  · obtain ⟨hb, hne⟩ := hrest i' b hb
    obtain ⟨hslot', hfree'⟩ := hinv.unallocated i' b hb
    exact ⟨hslot', (hallocp b hne).trans hfree'⟩
  · exact (hsize b).trans (hinv.sized i' b hb)
  · by_cases heq : b = h
    · subst heq
      exact Function.update_self _ _ _
    · exact (hallocp b heq).trans (hinv.allocated b ((List.mem_cons.mp hb).resolve_left heq))
  · rcases List.mem_cons.mp hb with rfl | hb
    · exact ⟨i, hinv.slotOf_small hslot, hslot⟩
    · exact hinv.slot p j hb
  · rcases List.mem_cons.mp hb with rfl | hb
    · obtain ⟨p, -, j, -, heq⟩ := hslot
      cases heq
    · rw [hsize]
      exact hinv.big area hb
  · by_cases heq : b = h
    · exact heq ▸ List.mem_cons_self
    · rw [hallocp b heq] at halloc
      exact List.mem_cons_of_mem _ (hinv.held i' b hb halloc)

/-- Memory of its own is handed out. -/
theorem Inv.takeBig {area osize : Nat} (hinv : Inv m P F A) (hlarge : maxBibop < osize)
    (hfresh : m.owned area = false) :
    Inv ((m.memAlloc area).handOut osize (.big area)) P F (.big area :: A) := by
  have hA : .big area ∉ A := by
    intro hmem
    rw [(hinv.big area hmem).1] at hfresh
    exact Bool.noConfusion hfresh
  have hslot : ∀ {i b}, SlotOf (P i) b → b ≠ .big area := by
    rintro i b ⟨p, -, j, -, rfl⟩ heq
    cases heq
  have hown : ∀ p, m.owned p = true → ((m.memAlloc area).handOut osize (.big area)).owned p = true := by
    intro p hp
    by_cases heq : p = area
    · subst heq
      exact Function.update_self _ _ _
    · exact (Function.update_of_ne heq _ _).trans hp
  have hsame : ∀ b, b ≠ .big area →
      ((m.memAlloc area).handOut osize (.big area)).bsize b = m.bsize b ∧
      ((m.memAlloc area).handOut osize (.big area)).ballocp b = m.ballocp b := fun b hb =>
    ⟨Function.update_of_ne hb _ _, Function.update_of_ne hb _ _⟩
  refine ⟨hinv.pages, fun i => ?_, ?_, fun i b hb => ?_, fun i b hb => ?_, fun b hb => ?_,
    fun p j hb => ?_, fun a hb => ?_, fun i b hb halloc => ?_, fun i p hp => ?_, hinv.apart, hinv.small⟩
  · exact (seg_update_of_not_mem fun hb => hslot (hinv.unallocated i _ hb).1 rfl).mpr (hinv.free i)
  · have hlink : ((m.memAlloc area).handOut osize (.big area)).next (.big area) = m.allocHead :=
      Function.update_self _ _ _
    rw [seg_cons, hlink]
    exact ⟨rfl, (seg_update_of_not_mem hA).mpr hinv.alloc⟩
  · obtain ⟨hb', hfree⟩ := hinv.unallocated i b hb
    exact ⟨hb', (hsame b (hslot hb')).2.trans hfree⟩
  · exact (hsame b (hslot hb)).1.trans (hinv.sized i b hb)
  · by_cases heq : b = .big area
    · subst heq
      exact Function.update_self _ _ _
    · exact (hsame b heq).2.trans (hinv.allocated b ((List.mem_cons.mp hb).resolve_left heq))
  · exact hinv.slot p j ((List.mem_cons.mp hb).resolve_left fun heq => Blk.noConfusion heq)
  · by_cases heq : a = area
    · subst heq
      refine ⟨Function.update_self _ _ _, ?_, fun i hp => ?_⟩
      · have hsize : ((m.memAlloc a).handOut osize (.big a)).bsize (.big a) = osize :=
          Function.update_self _ _ _
        rwa [hsize]
      · rw [hinv.owned i a hp] at hfresh
        exact Bool.noConfusion hfresh
    · have hb' : Blk.big a ≠ .big area := fun hab => heq (Blk.big.inj hab)
      obtain ⟨howned, hsize, hapart⟩ := hinv.big a ((List.mem_cons.mp hb).resolve_left hb')
      exact ⟨hown a howned, by rwa [(hsame _ hb').1], hapart⟩
  · rw [(hsame b (hslot hb)).2] at halloc
    exact List.mem_cons_of_mem _ (hinv.held i b hb halloc)
  · exact hown p (hinv.owned i p hp)

/-- An allocation puts a block in front of the allocated ones, which was none of them. -/
theorem Inv.allocBlock {fresh : Nat} (hinv : Inv m P F A) (osize : Nat)
    (hfresh : m.owned fresh = false) :
    ∃ m' b P' F', Bibop.alloc m osize fresh = some (m', b) ∧ Inv m' P' F' (b :: A) ∧ b ∉ A := by
  by_cases hsmall : osize ≤ maxBibop
  · obtain ⟨m₁, P₁, F₁, hm₁, hinv₁, hsome⟩ : ∃ m₁ P₁ F₁,
        m₁ = (if m.bibopfl osize = none then Bibop.newPage m osize fresh else m) ∧ Inv m₁ P₁ F₁ A ∧
        F₁ osize ≠ [] := by
      by_cases hnone : m.bibopfl osize = none
      · refine ⟨_, _, _, (if_pos hnone).symm, hinv.newPage hsmall hnone hfresh, ?_⟩
        rw [Function.update_self]
        exact List.cons_ne_nil _ _
      · refine ⟨m, P, F, (if_neg hnone).symm, hinv, fun hnil => hnone ?_⟩
        have hseg := hinv.free osize
        rwa [hnil] at hseg
    obtain ⟨b, l, hF⟩ := List.exists_cons_of_ne_nil hsome
    have hseg := hinv₁.free osize
    rw [hF] at hseg
    refine ⟨_, b, P₁, _, ?_, hinv₁.take hF, ?_⟩
    · rw [Bibop.alloc, if_pos hsmall, bibopAlloc, ← hm₁, hseg.1]
      rfl
    · exact hinv₁.not_mem_alloc (hinv₁.unallocated osize b (hF ▸ List.mem_cons_self)).2
  · refine ⟨_, .big fresh, P, F, if_neg hsmall, hinv.takeBig (Nat.lt_of_not_le hsmall) hfresh, ?_⟩
    intro hmem
    rw [(hinv.big fresh hmem).1] at hfresh
    exact Bool.noConfusion hfresh

/-- The memory after a block has been taken out of the list of the allocated ones. -/
def unlinkBlock (m : Mem) (h : Blk) : Option Blk → Mem
  | none => { m with allocHead := m.next h }
  | some p => m.setNext p (m.next h)

theorem unlinkBlock_spec {before after : List Blk}
    (halloc : Seg m.next m.allocHead (before ++ h :: after) none) :
    Seg (unlinkBlock m h before.getLast?).next (unlinkBlock m h before.getLast?).allocHead
        (before ++ after) none ∧
      ∀ b ∉ before, (unlinkBlock m h before.getLast?).next b = m.next b := by
  rcases List.eq_nil_or_concat' before with rfl | ⟨init, p, rfl⟩
  · exact ⟨halloc.2, fun _ _ => rfl⟩
  · rw [List.getLast?_concat]
    obtain ⟨hfront, hback, -⟩ := seg_unlink halloc
    refine ⟨seg_append.mpr ⟨_, hfront, hback⟩, fun b hb => ?_⟩
    have hne : b ≠ p := fun heq => hb (heq ▸ List.mem_append_right _ List.mem_cons_self)
    exact Function.update_of_ne hne _ _

theorem unlinkBlock_kept (m : Mem) (h : Blk) (prevblk : Option Blk) :
    (unlinkBlock m h prevblk).bsize = m.bsize ∧ (unlinkBlock m h prevblk).ballocp = m.ballocp ∧
    (unlinkBlock m h prevblk).pnext = m.pnext ∧ (unlinkBlock m h prevblk).bibopfl = m.bibopfl ∧
    (unlinkBlock m h prevblk).bibopPages = m.bibopPages ∧
    (unlinkBlock m h prevblk).owned = m.owned := by
  cases prevblk with
  | none => exact ⟨rfl, rfl, rfl, rfl, rfl, rfl⟩
  | some p => exact ⟨rfl, rfl, rfl, rfl, rfl, rfl⟩

theorem freeBlock_eq (m : Mem) (h : Blk) (prevblk : Option Blk) : Bibop.freeBlock m h prevblk =
    (let m₁ := { unlinkBlock m h prevblk with
      usedmem := (unlinkBlock m h prevblk).usedmem - UInt64.ofNat (m.bsize h) }
     if m.bsize h ≤ maxBibop then some ((m₁.setAlloc h false).pushFree (m.bsize h) h)
     else match h with
      | .big area => some (m₁.memFree area)
      | .slot _ _ => none) := by
  cases prevblk with
  | none => rfl
  | some p => rfl

/-- The memory `m₁` is `m` with the allocated blocks `A'` in place of `A`, which
had `h` among them. -/
structure Unlinked (m m₁ : Mem) (F : Nat → List Blk) (h : Blk) (A A' : List Blk) : Prop where
  chain : Seg m₁.next m₁.allocHead A' none
  free : ∀ i, Seg m₁.next (m₁.bibopfl i) (F i) none
  mem : h ∈ A
  mem_iff : ∀ b, b ∈ A' ↔ b ∈ A ∧ b ≠ h
  bsize : m₁.bsize = m.bsize
  ballocp : m₁.ballocp = m.ballocp
  pnext : m₁.pnext = m.pnext
  bibopPages : m₁.bibopPages = m.bibopPages
  owned : m₁.owned = m.owned

theorem Inv.unlinked {before after : List Blk} (hinv : Inv m P F (before ++ h :: after)) :
    Unlinked m (unlinkBlock m h before.getLast?) F h (before ++ h :: after) (before ++ after) := by
  obtain ⟨hchain, hnext⟩ := unlinkBlock_spec hinv.alloc
  obtain ⟨hbsize, hballocp, hpnext, hfl, hpages, howned⟩ := unlinkBlock_kept m h before.getLast?
  refine ⟨hchain, fun i => ?_, List.mem_append_right _ List.mem_cons_self, fun b => ?_, hbsize,
    hballocp, hpnext, hpages, howned⟩
  · rw [hfl]
    refine (seg_congr fun b hb => hnext b fun hb' => ?_).mpr (hinv.free i)
    exact hinv.not_mem_free (hinv.allocated b (List.mem_append_left _ hb')) hb
  · have hnodup := nodup_of_seg hinv.alloc
    rw [List.nodup_middle, List.nodup_cons] at hnodup
    constructor
    · intro hb
      refine ⟨?_, fun heq => hnodup.1 (heq ▸ hb)⟩
      rcases List.mem_append.mp hb with hb | hb
      · exact List.mem_append_left _ hb
      · exact List.mem_append_right _ (List.mem_cons_of_mem _ hb)
    · rintro ⟨hb, hne⟩
      rcases List.mem_append.mp hb with hb | hb
      · exact List.mem_append_left _ hb
      · exact List.mem_append_right _ ((List.mem_cons.mp hb).resolve_left hne)

/-- A block of a small size becomes the first free slot of that size. -/
theorem Inv.putBack {m₁ : Mem} {A' : List Blk} (hinv : Inv m P F A) (hun : Unlinked m m₁ F h A A')
    (hslot : SlotOf (P i) h) :
    Inv ((m₁.setAlloc h false).pushFree i h) P (Function.update F i (h :: F i)) A' := by
  have hhF : ∀ i, h ∉ F i := fun i => hinv.not_mem_free (hinv.allocated h hun.mem)
  have hA' : h ∉ A' := fun hb => ((hun.mem_iff h).mp hb).2 rfl
  have hallocp : ∀ b, b ≠ h → ((m₁.setAlloc h false).pushFree i h).ballocp b = m.ballocp b := by
    intro b hb
    rw [← hun.ballocp]
    exact Function.update_of_ne hb _ _
  have hfreeh : ((m₁.setAlloc h false).pushFree i h).ballocp h = false := Function.update_self _ _ _
  have hbsize : ((m₁.setAlloc h false).pushFree i h).bsize = m.bsize := hun.bsize
  have howned : ((m₁.setAlloc h false).pushFree i h).owned = m.owned := hun.owned
  refine ⟨fun i' => ?_, fun i' => ?_, ?_, fun i' b hb => ?_, fun i' b hb => ?_, fun b hb => ?_,
    fun p j hb => ?_, fun area hb => ?_, fun i' b hb halloc => ?_, fun i' p hp => ?_, hinv.apart,
    hinv.small⟩
  · have hpages := hinv.pages i'
    rwa [← hun.pnext, ← hun.bibopPages] at hpages
  · by_cases hi : i' = i
    · subst hi
      have hfl : ((m₁.setAlloc h false).pushFree i' h).bibopfl i' = some h := Function.update_self _ _ _
      have hlink : ((m₁.setAlloc h false).pushFree i' h).next h = m₁.bibopfl i' :=
        Function.update_self _ _ _
      rw [Function.update_self, seg_cons, hlink]
      exact ⟨hfl, (seg_update_of_not_mem (hhF i')).mpr (hun.free i')⟩
    · have hfl : ((m₁.setAlloc h false).pushFree i h).bibopfl i' = m₁.bibopfl i' :=
        Function.update_of_ne hi _ _
      rw [Function.update_of_ne hi, hfl]
      exact (seg_update_of_not_mem (hhF i')).mpr (hun.free i')
  · exact (seg_update_of_not_mem hA').mpr hun.chain
  · by_cases hb' : b ∈ F i'
    · obtain ⟨hslot', hfree⟩ := hinv.unallocated i' b hb'
      exact ⟨hslot', (hallocp b fun heq => hhF i' (heq ▸ hb')).trans hfree⟩
    · by_cases hi : i' = i
      · subst hi
        rw [Function.update_self] at hb
        obtain rfl := (List.mem_cons.mp hb).resolve_right hb'
        exact ⟨hslot, hfreeh⟩
      · rw [Function.update_of_ne hi] at hb
        exact absurd hb hb'
  · rw [hbsize]
    exact hinv.sized i' b hb
  · obtain ⟨hb, hne⟩ := (hun.mem_iff b).mp hb
    exact (hallocp b hne).trans (hinv.allocated b hb)
  · exact hinv.slot p j ((hun.mem_iff _).mp hb).1
  · rw [hbsize, howned]
    exact hinv.big area ((hun.mem_iff _).mp hb).1
  · have hne : b ≠ h := by
      rintro rfl
      rw [hfreeh] at halloc
      exact Bool.noConfusion halloc
    rw [hallocp b hne] at halloc
    exact (hun.mem_iff b).mpr ⟨hinv.held i' b hb halloc, hne⟩
  · rw [howned]
    exact hinv.owned i' p hp

/-- The memory of a large block is released. -/
theorem Inv.release {m₁ : Mem} {A' : List Blk} {area : Nat} (hinv : Inv m P F A)
    (hun : Unlinked m m₁ F (.big area) A A') : Inv (m₁.memFree area) P F A' := by
  obtain ⟨-, -, hapart⟩ := hinv.big area hun.mem
  have hbsize : (m₁.memFree area).bsize = m.bsize := hun.bsize
  have hallocp : (m₁.memFree area).ballocp = m.ballocp := hun.ballocp
  have howned : ∀ p, p ≠ area → (m₁.memFree area).owned p = m.owned p := by
    intro p hp
    rw [← hun.owned]
    exact Function.update_of_ne hp _ _
  refine ⟨fun i => ?_, hun.free, hun.chain, fun i b hb => ?_, fun i b hb => ?_, fun b hb => ?_,
    fun p j hb => ?_, fun a hb => ?_, fun i b hb halloc => ?_, fun i p hp => ?_, hinv.apart, hinv.small⟩
  · have hpages := hinv.pages i
    rwa [← hun.pnext, ← hun.bibopPages] at hpages
  · rw [hallocp]
    exact hinv.unallocated i b hb
  · rw [hbsize]
    exact hinv.sized i b hb
  · rw [hallocp]
    exact hinv.allocated b ((hun.mem_iff b).mp hb).1
  · exact hinv.slot p j ((hun.mem_iff _).mp hb).1
  · obtain ⟨hb, hne⟩ := (hun.mem_iff _).mp hb
    obtain ⟨hown, hsize, hapart'⟩ := hinv.big a hb
    have hne' : a ≠ area := fun heq => hne (heq ▸ rfl)
    rw [hbsize]
    exact ⟨(howned a hne').trans hown, hsize, hapart'⟩
  · rw [hallocp] at halloc
    refine (hun.mem_iff b).mpr ⟨hinv.held i b hb halloc, ?_⟩
    rintro rfl
    obtain ⟨p, -, j, -, heq⟩ := hb
    cases heq
  · have hne : p ≠ area := by
      rintro rfl
      exact hapart i hp
    exact (howned p hne).trans (hinv.owned i p hp)

/-- A block is taken out of the allocated ones, and given back. -/
theorem Inv.freeBlock {before after : List Blk} (hinv : Inv m P F (before ++ h :: after)) :
    ∃ m' F', Bibop.freeBlock m h before.getLast? = some m' ∧ Inv m' P F' (before ++ after) := by
  have hun := hinv.unlinked
  have hun' : Unlinked m { unlinkBlock m h before.getLast? with
      usedmem := (unlinkBlock m h before.getLast?).usedmem - UInt64.ofNat (m.bsize h) } F h
      (before ++ h :: after) (before ++ after) :=
    ⟨hun.chain, hun.free, hun.mem, hun.mem_iff, hun.bsize, hun.ballocp, hun.pnext, hun.bibopPages,
      hun.owned⟩
  rw [freeBlock_eq]
  by_cases hsmall : m.bsize h ≤ maxBibop
  · exact ⟨_, _, if_pos hsmall, hinv.putBack hun' (hinv.slotOf_bsize hun.mem hsmall)⟩
  · cases h with
    | slot bpage j =>
      obtain ⟨i, hi, hslot⟩ := hinv.slot bpage j hun.mem
      rw [hinv.sized i _ hslot] at hsmall
      exact absurd hi hsmall
    | big area => exact ⟨_, F, if_neg hsmall, hinv.release hun'⟩

end Operations

end Arcueid.Bibop
