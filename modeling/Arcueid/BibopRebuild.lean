import Mathlib.Data.Finset.Lattice.Fold
import Arcueid.BibopLists

/-! What `free_unused_bibop` makes of the pages and the free lists. -/

namespace Arcueid.Bibop

open LinkedList

/-- The slots of a page up to `j` are unallocated. -/
def Early (m : Mem) (bpage j : Nat) : Prop := ∀ k ≤ j, m.ballocp (.slot bpage k) = false

/-- Some slot of the page is allocated. -/
def InUse (m : Mem) (bpage : Nat) : Prop := ∃ j < pageSize, m.ballocp (.slot bpage j) = true

instance (m : Mem) (bpage : Nat) : Decidable (InUse m bpage) :=
  inferInstanceAs (Decidable (∃ j < pageSize, _))

section Slots

variable {m m₀ : Mem} {bpage j : Nat} {pfl pflt : Option Blk} {l : List Blk}

/-- The first `j` slots of a page, which are unallocated, have been threaded. -/
structure Threaded (m₀ m : Mem) (bpage j : Nat) (pfl pflt : Option Blk) (l : List Blk) : Prop where
  chain : Seg m.next pfl l none
  tail : pflt = l.getLast?
  mem : ∀ h, h ∈ l ↔ ∃ k < j, h = .slot bpage k
  early : ∀ k < j, m₀.ballocp (.slot bpage k) = false
  kept : m = { m₀ with next := m.next }
  frame : ∀ h ∉ l, m.next h = m₀.next h

theorem threaded_zero (m : Mem) (bpage : Nat) : Threaded m m bpage 0 none none [] where
  chain := rfl
  tail := rfl
  mem := by simp
  early := fun k hk => absurd hk (Nat.not_lt_zero k)
  kept := rfl
  frame := fun _ _ => rfl

theorem Threaded.slot (h : Threaded m₀ m bpage j pfl pflt l)
    (hfree : m.ballocp (.slot bpage j) = false) :
    Threaded m₀ (m.setNext (.slot bpage j) pfl) bpage (j + 1) (some (.slot bpage j))
      (if pflt = none then some (.slot bpage j) else pflt) (.slot bpage j :: l) := by
  have hnew : .slot bpage j ∉ l := by
    rw [h.mem]
    rintro ⟨k, hk, heq⟩
    have hjk := (Blk.slot.inj heq).2
    omega
  have hfree₀ : m₀.ballocp (.slot bpage j) = false := by
    rw [h.kept] at hfree
    exact hfree
  refine ⟨⟨rfl, ?_⟩, ?_, fun b => ?_, fun k hk => ?_, ?_, fun b hb => ?_⟩
  · have hlink : (m.setNext (.slot bpage j) pfl).next (.slot bpage j) = pfl := Function.update_self _ _ _
    rw [hlink]
    exact (seg_update_of_not_mem hnew).mpr h.chain
  · rw [h.tail]
    cases l with
    | nil => rfl
    | cons b l => rw [List.getLast?_cons_cons, if_neg (by simp)]
  · rw [List.mem_cons, h.mem]
    constructor
    · rintro (rfl | ⟨k, hk, rfl⟩)
      · exact ⟨j, Nat.lt_succ_self j, rfl⟩
      · exact ⟨k, Nat.lt_succ_of_lt hk, rfl⟩
    · rintro ⟨k, hk, rfl⟩
      rcases Nat.lt_succ_iff_lt_or_eq.mp hk with hk | rfl
      · exact .inr ⟨k, hk, rfl⟩
      · exact .inl rfl
  · rcases Nat.lt_succ_iff_lt_or_eq.mp hk with hk | rfl
    · exact h.early k hk
    · exact hfree₀
  · rw [h.kept]
    rfl
  · rw [List.mem_cons, not_or] at hb
    rw [← h.frame b hb.2]
    exact Function.update_of_ne hb.1 _ _

/-- A page has been scanned: the slots before the first allocated one have been
threaded. -/
structure Scanned (m₀ m : Mem) (bpage : Nat) (empty : Bool) (pfl pflt : Option Blk) (l : List Blk) :
    Prop where
  chain : Seg m.next pfl l none
  tail : pflt = l.getLast?
  mem : ∀ h, h ∈ l ↔ ∃ k < pageSize, h = .slot bpage k ∧ Early m₀ bpage k
  empty : empty = true ↔ ¬ InUse m₀ bpage
  kept : m = { m₀ with next := m.next }
  frame : ∀ h ∉ l, m.next h = m₀.next h

theorem Threaded.scanSlots {n : Nat} (h : Threaded m₀ m bpage j pfl pflt l)
    (hn : j + n = pageSize) : ∃ m' empty pfl' pflt' l',
      Bibop.scanSlots bpage n j m pfl pflt = (m', empty, pfl', pflt') ∧
      Scanned m₀ m' bpage empty pfl' pflt' l' := by
  induction n generalizing m j pfl pflt l with
  | zero =>
    refine ⟨m, true, pfl, pflt, l, rfl, h.chain, h.tail, fun b => ?_, ?_, h.kept, h.frame⟩
    · rw [h.mem]
      constructor
      · rintro ⟨k, hk, rfl⟩
        exact ⟨k, by omega, rfl, fun k' hk' => h.early k' (by omega)⟩
      · rintro ⟨k, hk, rfl, -⟩
        exact ⟨k, by omega, rfl⟩
    · refine iff_of_true rfl ?_
      rintro ⟨k, hk, halloc⟩
      rw [h.early k (by omega)] at halloc
      exact Bool.noConfusion halloc
  | succ n ih =>
    rw [Bibop.scanSlots]
    by_cases halloc : m.ballocp (.slot bpage j) = true
    · have halloc₀ : m₀.ballocp (.slot bpage j) = true := by
        rw [h.kept] at halloc
        exact halloc
      refine ⟨m, false, pfl, pflt, l, if_pos halloc, h.chain, h.tail, fun b => ?_, ?_, h.kept, h.frame⟩
      · rw [h.mem]
        constructor
        · rintro ⟨k, hk, rfl⟩
          exact ⟨k, by omega, rfl, fun k' hk' => h.early k' (by omega)⟩
        · rintro ⟨k, hk, rfl, hearly⟩
          refine ⟨k, Nat.lt_of_not_le fun hle => ?_, rfl⟩
          rw [hearly j hle] at halloc₀
          exact Bool.noConfusion halloc₀
      · exact iff_of_false Bool.false_ne_true fun hnot => hnot ⟨j, by omega, halloc₀⟩
    · simp only [if_neg halloc]
      exact ih (h.slot (Bool.eq_false_of_not_eq_true halloc)) (by omega)

end Slots

section Pages

variable {m m' m₀ : Mem} {size bpage : Nat} {all done rest : List Nat} {prev h : Option Nat}
  {nfl pfl pflt : Option Blk} {l lp : List Blk} {empty : Bool}

/-- In the middle of the loop over the pages `all` of a size: `done` were kept,
`rest` are to be scanned, and `l` are the slots found in the ones kept. -/
structure Scanning (m₀ m : Mem) (size : Nat) (all done rest : List Nat) (nfl : Option Blk)
    (l : List Blk) : Prop where
  pages : Seg m.pnext (m.bibopPages size) (done ++ rest) none
  free : Seg m.next nfl l none
  mem : ∀ h, h ∈ l ↔ ∃ bpage ∈ done, ∃ k < pageSize, h = .slot bpage k ∧ Early m₀ bpage k
  inUse : done ++ rest.filter (InUse m₀ ·) = all.filter (InUse m₀ ·)
  within : ∀ bpage ∈ done ++ rest, bpage ∈ all
  owned : ∀ bpage, m.owned bpage = true ↔
    m₀.owned bpage = true ∧ (bpage ∈ all → bpage ∈ done ++ rest)
  bsize : m.bsize = m₀.bsize
  ballocp : m.ballocp = m₀.ballocp
  allocHead : m.allocHead = m₀.allocHead
  bibopfl : m.bibopfl = m₀.bibopfl
  bibopPages : ∀ i, i ≠ size → m.bibopPages i = m₀.bibopPages i
  pnext : ∀ bpage ∉ all, m.pnext bpage = m₀.pnext bpage
  next : ∀ h, ¬ (SlotOf all h ∧ m₀.ballocp h = false) → m.next h = m₀.next h

/-- The memory in which a page is left out of the pages of its size. -/
def unlinkPage (m : Mem) (size : Nat) (h : Option Nat) : Option Nat → Mem
  | none => m.setPages size h
  | some p => m.setPnext p h

theorem unlinkPage_kept (m : Mem) (size : Nat) (h prev : Option Nat) :
    (unlinkPage m size h prev).next = m.next ∧ (unlinkPage m size h prev).owned = m.owned ∧
    (unlinkPage m size h prev).bsize = m.bsize ∧ (unlinkPage m size h prev).ballocp = m.ballocp ∧
    (unlinkPage m size h prev).allocHead = m.allocHead ∧
    (unlinkPage m size h prev).bibopfl = m.bibopfl := by
  cases prev with
  | none => exact ⟨rfl, rfl, rfl, rfl, rfl, rfl⟩
  | some p => exact ⟨rfl, rfl, rfl, rfl, rfl, rfl⟩

theorem unlinkPage_pages (hpages : Seg m.pnext (m.bibopPages size) (done ++ bpage :: rest) none) :
    Seg (unlinkPage m size (m.pnext bpage) done.getLast?).pnext
      ((unlinkPage m size (m.pnext bpage) done.getLast?).bibopPages size) (done ++ rest) none := by
  rcases List.eq_nil_or_concat' done with rfl | ⟨init, p, rfl⟩
  · have hhead : (unlinkPage m size (m.pnext bpage) none).bibopPages size = m.pnext bpage :=
      Function.update_self _ _ _
    rw [List.getLast?_nil, hhead]
    exact hpages.2
  · rw [List.getLast?_concat]
    obtain ⟨hfront, hback, -⟩ := seg_unlink hpages
    exact seg_append.mpr ⟨_, hfront, hback⟩

theorem unlinkPage_other {i : Nat} (hi : i ≠ size) :
    (unlinkPage m size h prev).bibopPages i = m.bibopPages i := by
  cases prev with
  | none => exact Function.update_of_ne hi _ _
  | some p => rfl

theorem unlinkPage_pnext (hprev : prev ≠ some bpage) :
    (unlinkPage m size h prev).pnext bpage = m.pnext bpage := by
  cases prev with
  | none => rfl
  | some p => exact Function.update_of_ne (fun heq => hprev (congrArg some heq.symm)) _ _

theorem Scanning.early_iff (h : Scanning m₀ m size all done rest nfl l) (b k : Nat) :
    Early m b k ↔ Early m₀ b k := by
  rw [Early, Early, h.ballocp]

/-- The slots found so far are not on the page that is scanned next. -/
theorem Scanning.apart (h : Scanning m₀ m size all done (bpage :: rest) nfl l)
    (hscan : Scanned m m' bpage empty pfl pflt lp) : ∀ b ∈ lp, b ∉ l := by
  intro b hb hmem
  obtain ⟨k, -, rfl, -⟩ := (hscan.mem b).mp hb
  obtain ⟨p, hp, k', -, heq, -⟩ := (h.mem _).mp hmem
  obtain ⟨rfl, -⟩ := Blk.slot.inj heq
  exact (List.nodup_append.mp (nodup_of_seg h.pages)).2.2 _ hp _ List.mem_cons_self rfl

/-- The scan of a page links unallocated slots of it only. -/
theorem Scanning.scan_next (h : Scanning m₀ m size all done (bpage :: rest) nfl l)
    (hscan : Scanned m m' bpage empty pfl pflt lp) {b : Blk}
    (hb : ¬ (SlotOf all b ∧ m₀.ballocp b = false)) : b ∉ lp ∧ m'.next b = m₀.next b := by
  have hnot : b ∉ lp := by
    intro hmem
    obtain ⟨k, hk, rfl, hearly⟩ := (hscan.mem b).mp hmem
    have hall := h.within bpage (List.mem_append_right _ List.mem_cons_self)
    exact hb ⟨slotOf_slot.mpr ⟨hall, hk⟩, h.ballocp ▸ hearly k (Nat.le_refl k)⟩
  exact ⟨hnot, (hscan.frame b hnot).trans (h.next b hb)⟩

/-- A page without allocated slots is released. -/
theorem Scanning.drop (h : Scanning m₀ m size all done (bpage :: rest) nfl l)
    (hscan : Scanned m m' bpage empty pfl pflt lp) (hempty : ¬ InUse m₀ bpage) :
    Scanning m₀ ((unlinkPage m' size (m'.pnext bpage) done.getLast?).memFree bpage) size all done rest
      nfl l := by
  obtain ⟨hnext, howned, hbsize, hballocp, hhead, hfl⟩ :=
    unlinkPage_kept m' size (m'.pnext bpage) done.getLast?
  have hm' : m' = { m with next := m'.next } := hscan.kept
  have hall := h.within bpage (List.mem_append_right _ List.mem_cons_self)
  have hnodup := nodup_of_seg h.pages
  rw [List.nodup_middle, List.nodup_cons] at hnodup
  refine ⟨?_, ?_, h.mem, ?_, fun p hp => ?_, fun p => ?_, ?_, ?_, ?_, ?_, fun i hi => ?_,
    fun p hp => ?_, fun b hb => ?_⟩
  · have hpages : Seg m'.pnext (m'.bibopPages size) (done ++ bpage :: rest) none := by
      rw [hm']
      exact h.pages
    exact unlinkPage_pages hpages
  · change Seg (unlinkPage m' size (m'.pnext bpage) done.getLast?).next nfl l none
    rw [hnext]
    exact (seg_congr fun b hb => hscan.frame b fun hlp => h.apart hscan b hlp hb).mpr h.free
  · rw [← h.inUse, List.filter_cons_of_neg (by simpa using hempty)]
  · refine h.within p ?_
    rcases List.mem_append.mp hp with hp | hp
    · exact List.mem_append_left _ hp
    · exact List.mem_append_right _ (List.mem_cons_of_mem _ hp)
  · have hm'owned : m'.owned = m.owned := by rw [hm']
    by_cases hp : p = bpage
    · subst hp
      refine iff_of_false ?_ fun hkept => hnodup.1 (hkept.2 hall)
      have hfreed : ((unlinkPage m' size (m'.pnext p) done.getLast?).memFree p).owned p = false :=
        Function.update_self _ _ _
      rw [hfreed]
      exact Bool.false_ne_true
    · have hkept : ((unlinkPage m' size (m'.pnext bpage) done.getLast?).memFree bpage).owned p =
          m.owned p := by
        rw [← hm'owned, ← howned]
        exact Function.update_of_ne hp _ _
      rw [hkept, h.owned p, List.mem_append, List.mem_append, List.mem_cons, or_iff_right hp]
  · exact hbsize.trans ((congrArg Mem.bsize hm').trans h.bsize)
  · exact hballocp.trans ((congrArg Mem.ballocp hm').trans h.ballocp)
  · exact hhead.trans ((congrArg Mem.allocHead hm').trans h.allocHead)
  · exact hfl.trans ((congrArg Mem.bibopfl hm').trans h.bibopfl)
  · refine (unlinkPage_other hi).trans ?_
    rw [hm']
    exact h.bibopPages i hi
  · have hne : done.getLast? ≠ some p := fun heq =>
      hp (h.within p (List.mem_append_left _ (List.mem_of_getLast? heq)))
    refine (unlinkPage_pnext hne).trans ?_
    rw [hm']
    exact h.pnext p hp
  · exact (congrFun hnext b).trans (h.scan_next hscan hb).2

/-- A page with an allocated slot is kept. -/
theorem Scanning.advance {l' : List Blk} {nfl' : Option Blk} {next' : Blk → Option Blk}
    (h : Scanning m₀ m size all done (bpage :: rest) nfl l) (huse : InUse m₀ bpage)
    (hfree : Seg next' nfl' l' none)
    (hmem : ∀ b, b ∈ l' ↔ b ∈ l ∨ ∃ k < pageSize, b = .slot bpage k ∧ Early m₀ bpage k)
    (hnext : ∀ b, ¬ (SlotOf all b ∧ m₀.ballocp b = false) → next' b = m₀.next b) :
    Scanning m₀ { m with next := next' } size all (done ++ [bpage]) rest nfl' l' := by
  have happ : done ++ [bpage] ++ rest = done ++ bpage :: rest := by
    rw [List.append_assoc, List.singleton_append]
  refine ⟨?_, hfree, fun b => ?_, ?_, ?_, fun p => ?_, h.bsize, h.ballocp, h.allocHead, h.bibopfl,
    h.bibopPages, h.pnext, hnext⟩
  · rw [happ]
    exact h.pages
  · rw [hmem, h.mem]
    constructor
    · rintro (⟨p, hp, hold⟩ | hnew)
      · exact ⟨p, List.mem_append_left _ hp, hold⟩
      · exact ⟨bpage, List.mem_append_right _ List.mem_cons_self, hnew⟩
    · rintro ⟨p, hp, hslot⟩
      rcases List.mem_append.mp hp with hp | hp
      · exact .inl ⟨p, hp, hslot⟩
      · rw [List.mem_singleton.mp hp] at hslot
        exact .inr hslot
  · rw [← h.inUse, List.filter_cons_of_pos (by simpa using huse), List.append_assoc,
      List.singleton_append]
  · rw [happ]
    exact h.within
  · rw [happ]
    exact h.owned p

/-- One round of the loop. -/
theorem Scanning.round (h : Scanning m₀ m size all done (bpage :: rest) nfl l) :
    ∃ m' done' nfl' l', Scanning m₀ m' size all done' rest nfl' l' ∧
      (∀ p ∈ rest, m'.pnext p = m.pnext p) ∧
      ∀ fuel, pageLoop size (fuel + 1) m (some bpage) done.getLast? nfl =
        pageLoop size fuel m' (m.pnext bpage) done'.getLast? nfl' := by
  obtain ⟨m', empty, pfl, pflt, lp, hrun, hscan⟩ :=
    (threaded_zero m bpage).scanSlots (Nat.zero_add pageSize)
  have hm' : m' = { m with next := m'.next } := hscan.kept
  have hpnext : m'.pnext = m.pnext := by rw [hm']
  have huse : InUse m bpage ↔ InUse m₀ bpage := by rw [InUse, InUse, h.ballocp]
  simp only [pageLoop, hrun, ← hpnext]
  by_cases hempty : empty = true
  · have hdrop := h.drop hscan (huse.not.mp (hscan.empty.mp hempty))
    refine ⟨_, done, nfl, l, hdrop, fun p hp => ?_, ?_⟩
    · have hne : done.getLast? ≠ some p := fun heq =>
        (List.nodup_append.mp (nodup_of_seg h.pages)).2.2 p (List.mem_of_getLast? heq) p
          (List.mem_cons_of_mem _ hp) rfl
      exact unlinkPage_pnext hne
    intro fuel
    simp only [if_pos hempty]
    cases done.getLast? with
    | none => rfl
    | some p => rfl
  · have hkept : InUse m₀ bpage := huse.mp (not_not.mp (hempty ∘ hscan.empty.mpr))
    have hlast : (done ++ [bpage]).getLast? = some bpage := List.getLast?_concat
    have hmem : ∀ b, b ∈ lp ↔ ∃ k < pageSize, b = .slot bpage k ∧ Early m₀ bpage k := by
      intro b
      simp only [hscan.mem, h.early_iff]
    have hl : Seg m'.next nfl l none :=
      (seg_congr fun b hb => hscan.frame b fun hlp => h.apart hscan b hlp hb).mpr h.free
    simp only [if_neg hempty]
    rcases List.eq_nil_or_concat' lp with rfl | ⟨init, t, rfl⟩
    · have hpflt : pflt = none := hscan.tail
      refine ⟨m', done ++ [bpage], nfl, l, ?_, fun _ _ => rfl,
        fun fuel => by rw [hlast, hpflt]⟩
      rw [hm']
      refine h.advance hkept hl (fun b => ?_) fun b hb => (h.scan_next hscan hb).2
      rw [← hmem, or_iff_left List.not_mem_nil]
    · have hpflt : pflt = some t := hscan.tail.trans List.getLast?_concat
      obtain ⟨b, hpfl⟩ : ∃ b, pfl = some b := by
        have hchain := hscan.chain
        cases init with
        | nil => exact ⟨t, hchain.1⟩
        | cons b init => exact ⟨b, hchain.1⟩
      have ht : t ∉ l := h.apart hscan t (List.mem_append_right _ List.mem_cons_self)
      refine ⟨m'.setNext t nfl, done ++ [bpage], pfl, init ++ [t] ++ l, ?_, fun _ _ => rfl,
        fun fuel => by rw [hlast, hpflt, hpfl]⟩
      rw [hm']
      refine h.advance hkept (seg_join hscan.chain hl ht) (fun b => ?_) fun b hb => ?_
      · rw [List.mem_append, hmem, or_comm]
      · obtain ⟨hb', hnext⟩ := h.scan_next hscan hb
        have hne : b ≠ t := fun heq => hb' (heq ▸ List.mem_append_right _ List.mem_cons_self)
        exact (Function.update_of_ne hne _ _).trans hnext

theorem Scanning.pageLoop {p : Option Nat} (h : Scanning m₀ m size all done rest nfl l)
    (hp : Seg m.pnext p rest none) : ∃ m' nfl' l',
      (∀ fuel, rest.length < fuel →
        Bibop.pageLoop size fuel m p done.getLast? nfl = some (m', nfl')) ∧
      Scanning m₀ m' size all (all.filter (InUse m₀ ·)) [] nfl' l' := by
  induction rest generalizing m done nfl l p with
  | nil =>
    have hdone : done = all.filter (InUse m₀ ·) := by
      rw [← h.inUse, List.filter_nil, List.append_nil]
    obtain rfl : p = none := hp
    refine ⟨m, nfl, l, fun fuel hfuel => ?_, hdone ▸ h⟩
    obtain ⟨fuel, rfl⟩ := Nat.exists_eq_add_one_of_ne_zero (Nat.ne_of_gt hfuel)
    rfl
  | cons bpage rest ih =>
    obtain ⟨m₁, done₁, nfl₁, l₁, h₁, hpnext, hround⟩ := h.round
    obtain ⟨rfl, hnext⟩ := hp
    obtain ⟨m', nfl', l', hloop, h'⟩ := ih h₁ ((seg_congr hpnext).mpr hnext)
    refine ⟨m', nfl', l', fun fuel hfuel => ?_, h'⟩
    obtain ⟨fuel, rfl⟩ := Nat.exists_eq_add_one_of_ne_zero (Nat.ne_of_gt (Nat.zero_lt_of_lt hfuel))
    rw [hround]
    exact hloop fuel (Nat.lt_of_succ_lt_succ hfuel)

/-- The loop over the pages of a size begins. -/
theorem scanning_start (hpages : Seg m.pnext (m.bibopPages size) all none) :
    Scanning m m size all [] all none [] where
  pages := hpages
  free := rfl
  mem := by simp
  inUse := rfl
  within := fun _ hp => hp
  owned := fun _ => ⟨fun hown => ⟨hown, id⟩, And.left⟩
  bsize := rfl
  ballocp := rfl
  allocHead := rfl
  bibopfl := rfl
  bibopPages := fun _ _ => rfl
  pnext := fun _ _ => rfl
  next := fun _ _ => rfl

end Pages

section Sizes

variable {m m' : Mem} {P : Nat → List Nat} {F : Nat → List Blk} {A : List Blk} {i : Nat}

/-- The free list of a size that a scan of its pages `pages` makes. -/
def Found (m : Mem) (pages : List Nat) (l : List Blk) : Prop :=
  ∀ h, h ∈ l ↔ ∃ bpage ∈ pages, InUse m bpage ∧ ∃ k < pageSize, h = .slot bpage k ∧ Early m bpage k

theorem Inv.rebuildSize (hinv : Inv m P F A) :
    ∃ m' l, (∀ fuel, (P i).length < fuel → Bibop.rebuildSize fuel m i = some m') ∧
      m'.ballocp = m.ballocp ∧ Found m (P i) l ∧
      Inv m' (Function.update P i ((P i).filter (InUse m ·))) (Function.update F i l) A := by
  obtain ⟨m₁, nfl, l, hloop, hscan⟩ := (scanning_start (hinv.pages i)).pageLoop (hinv.pages i)
  have hkept : ∀ p, p ∈ (P i).filter (InUse m ·) ↔ p ∈ P i ∧ InUse m p := by simp
  have hfound : Found m (P i) l := by
    intro h
    rw [hscan.mem]
    constructor
    · rintro ⟨p, hp, hslot⟩
      obtain ⟨hp, huse⟩ := (hkept p).mp hp
      exact ⟨p, hp, huse, hslot⟩
    · rintro ⟨p, hp, huse, hslot⟩
      exact ⟨p, (hkept p).mpr ⟨hp, huse⟩, hslot⟩
  have hP : ∀ i' p, p ∈ Function.update P i ((P i).filter (InUse m ·)) i' →
      p ∈ P i' ∧ (i' = i → InUse m p) := by
    intro i' p hp
    by_cases hi : i' = i
    · subst hi
      rw [Function.update_self] at hp
      exact ⟨((hkept p).mp hp).1, fun _ => ((hkept p).mp hp).2⟩
    · rw [Function.update_of_ne hi] at hp
      exact ⟨hp, fun heq => absurd heq hi⟩
  have hslot : ∀ {i' h}, SlotOf (Function.update P i ((P i).filter (InUse m ·)) i') h →
      SlotOf (P i') h := by
    rintro i' h ⟨p, hp, hj⟩
    exact ⟨p, (hP i' p hp).1, hj⟩
  have halloc : ∀ {i' h}, SlotOf (P i') h → m.ballocp h = true →
      SlotOf (Function.update P i ((P i).filter (InUse m ·)) i') h := by
    rintro i' h ⟨p, hp, j, hj, rfl⟩ hallocp
    by_cases hi : i' = i
    · subst hi
      rw [Function.update_self]
      exact ⟨p, (hkept p).mpr ⟨hp, j, hj, hallocp⟩, j, hj, rfl⟩
    · rw [Function.update_of_ne hi]
      exact ⟨p, hp, j, hj, rfl⟩
  have hother : ∀ {i' h}, i' ≠ i → h ∈ F i' → m₁.next h = m.next h := by
    intro i' h hi hh
    refine hscan.next h fun hs => hi ?_
    exact hinv.size_unique (hinv.unallocated i' h hh).1 hs.1
  refine ⟨m₁.setFl i nfl, l, fun fuel hfuel => ?_, hscan.ballocp, hfound, fun i' => ?_, fun i' => ?_, ?_,
    fun i' h hh => ?_, fun i' h hh => ?_, fun h hh => ?_, fun p j hh => ?_, fun area hh => ?_,
    fun i' h hh hallocp => ?_, fun i' p hp => ?_, fun i' i'' p hp hp' => ?_, fun i' hne => ?_⟩
  · rw [Bibop.rebuildSize]
    exact Option.bind_eq_some_iff.mpr ⟨_, hloop fuel hfuel, rfl⟩
  · change Seg m₁.pnext (m₁.bibopPages i') _ none
    by_cases hi : i' = i
    · subst hi
      have hpages := hscan.pages
      rwa [List.append_nil, ← Function.update_self i' ((P i').filter (InUse m ·)) P] at hpages
    · rw [Function.update_of_ne hi, hscan.bibopPages i' hi]
      refine (seg_congr fun p hp => hscan.pnext p fun hp' => hi ?_).mpr (hinv.pages i')
      exact hinv.apart i' i p hp hp'
  · by_cases hi : i' = i
    · subst hi
      have hfl : (m₁.setFl i' nfl).bibopfl i' = nfl := Function.update_self _ _ _
      rw [Function.update_self, hfl]
      exact hscan.free
    · have hfl : (m₁.setFl i nfl).bibopfl i' = m.bibopfl i' :=
        (Function.update_of_ne hi _ _).trans (congrFun hscan.bibopfl i')
      rw [Function.update_of_ne hi, hfl]
      exact (seg_congr fun h hh => hother hi hh).mpr (hinv.free i')
  · change Seg m₁.next m₁.allocHead A none
    rw [hscan.allocHead]
    refine (seg_congr fun h hh => hscan.next h fun hs => ?_).mpr hinv.alloc
    exact hinv.not_mem_alloc hs.2 hh
  · change _ ∧ m₁.ballocp h = false
    rw [hscan.ballocp]
    by_cases hi : i' = i
    · subst hi
      rw [Function.update_self] at hh ⊢
      obtain ⟨p, hp, huse, k, hk, rfl, hearly⟩ := (hfound h).mp hh
      exact ⟨slotOf_slot.mpr ⟨(hkept p).mpr ⟨hp, huse⟩, hk⟩, hearly k (Nat.le_refl k)⟩
    · rw [Function.update_of_ne hi] at hh ⊢
      exact hinv.unallocated i' h hh
  · change m₁.bsize h = i'
    rw [hscan.bsize]
    exact hinv.sized i' h (hslot hh)
  · change m₁.ballocp h = true
    rw [hscan.ballocp]
    exact hinv.allocated h hh
  · obtain ⟨i', hi', hs⟩ := hinv.slot p j hh
    exact ⟨i', hi', halloc hs (hinv.allocated _ hh)⟩
  · change m₁.owned area = true ∧ maxBibop < m₁.bsize (.big area) ∧ _
    obtain ⟨hown, hsize, hapart⟩ := hinv.big area hh
    rw [hscan.bsize, hscan.owned]
    exact ⟨⟨hown, fun hp => absurd hp (hapart i)⟩, hsize, fun i' hp => hapart i' (hP i' area hp).1⟩
  · change m₁.ballocp h = true at hallocp
    rw [hscan.ballocp] at hallocp
    exact hinv.held i' h (hslot hh) hallocp
  · obtain ⟨hp', huse⟩ := hP i' p hp
    refine (hscan.owned p).mpr ⟨hinv.owned i' p hp', fun hpi => ?_⟩
    rw [List.append_nil]
    exact (hkept p).mpr ⟨hpi, huse (hinv.apart i' i p hp' hpi)⟩
  · exact hinv.apart i' i'' p (hP i' p hp).1 (hP i'' p hp').1
  · obtain ⟨p, hp⟩ := List.exists_mem_of_ne_nil _ hne
    exact hinv.small i' (List.ne_nil_of_mem (hP i' p hp).1)

/-- The loop over the sizes. -/
theorem Inv.rebuildSizes (hinv : Inv m P F A) (n : Nat) :
    ∃ m' F', (∀ fuel, (∀ i < n, (P i).length < fuel) →
        (List.range n).foldlM (Bibop.rebuildSize fuel) m = some m') ∧ m'.ballocp = m.ballocp ∧
      (∀ i < n, Found m (P i) (F' i)) ∧
      Inv m' (fun i => if i < n then (P i).filter (InUse m ·) else P i) F' A := by
  induction n with
  | zero =>
    exact ⟨m, F, fun _ _ => rfl, rfl, fun i hi => absurd hi (Nat.not_lt_zero i), by simpa using hinv⟩
  | succ n ih =>
    obtain ⟨m₁, F₁, hrun₁, hballocp₁, hfound₁, hinv₁⟩ := ih
    have huse : ∀ p, InUse m₁ p ↔ InUse m p := fun p => by rw [InUse, InUse, hballocp₁]
    have hP : (if n < n then (P n).filter (InUse m ·) else P n) = P n := if_neg (Nat.lt_irrefl n)
    obtain ⟨m₂, l, hrun₂, hballocp₂, hfound₂, hinv₂⟩ := hinv₁.rebuildSize (i := n)
    refine ⟨m₂, Function.update F₁ n l, fun fuel hfuel => ?_, hballocp₂.trans hballocp₁,
      fun i hi => ?_, ?_⟩
    · have hlen : (if n < n then (P n).filter (InUse m ·) else P n).length < fuel := by
        rw [hP]
        exact hfuel n (Nat.lt_succ_self n)
      rw [List.range_succ, List.foldlM_append, hrun₁ fuel fun i hi => hfuel i (Nat.lt_succ_of_lt hi)]
      refine Option.bind_eq_some_iff.mpr ⟨m₁, rfl, ?_⟩
      exact Option.bind_eq_some_iff.mpr ⟨m₂, hrun₂ fuel hlen, rfl⟩
    · rcases Nat.lt_succ_iff_lt_or_eq.mp hi with hi | rfl
      · rw [Function.update_of_ne (Nat.ne_of_lt hi)]
        exact hfound₁ i hi
      · rw [Function.update_self]
        intro h
        have hh := hfound₂ h
        simp only [hP, huse, Early, hballocp₁] at hh
        exact hh
    · convert hinv₂ using 1
      funext i
      by_cases hi : i = n
      · subst hi
        rw [Function.update_self, hP, if_pos (Nat.lt_succ_self i)]
        simp only [huse]
      · rw [Function.update_of_ne hi]
        have hiff : i < n + 1 ↔ i < n := by omega
        simp only [hiff]

theorem exists_fuel (P : Nat → List Nat) : ∃ n, ∀ i < maxBibop + 1, (P i).length < n := by
  refine ⟨(Finset.range (maxBibop + 1)).sup (fun i => (P i).length) + 1, fun i hi => ?_⟩
  have hmem : i ∈ Finset.range (maxBibop + 1) := Finset.mem_range.mpr hi
  exact Nat.lt_succ_of_le (Finset.le_sup (f := fun i => (P i).length) hmem)

/-- The free lists hold the early slots of the pages in use, which are kept. -/
theorem Inv.rebuild (hinv : Inv m P F A) :
    ∃ m' F' n, (∀ fuel ≥ n, freeUnusedBibop fuel m = some m') ∧ m'.ballocp = m.ballocp ∧
      (∀ i, Found m (P i) (F' i)) ∧ Inv m' (fun i => (P i).filter (InUse m ·)) F' A := by
  obtain ⟨m', F', hrun, hballocp, hfound, hinv'⟩ := hinv.rebuildSizes (maxBibop + 1)
  obtain ⟨n, hn⟩ := exists_fuel P
  have hnil : ∀ i, ¬ i < maxBibop + 1 → P i = [] := by
    intro i hi
    by_contra hne
    have hsmall := hinv.small i hne
    omega
  have hP : (fun i => if i < maxBibop + 1 then (P i).filter (InUse m ·) else P i) =
      fun i => (P i).filter (InUse m ·) := by
    funext i
    split_ifs with hi
    · rfl
    · rw [hnil i hi, List.filter_nil]
  rw [hP] at hinv'
  refine ⟨m', F', n, fun fuel hfuel => hrun fuel fun i hi =>
    Nat.lt_of_lt_of_le (hn i hi) hfuel, hballocp, fun i => ?_, hinv'⟩
  by_cases hi : i < maxBibop + 1
  · exact hfound i hi
  · intro h
    rw [hnil i hi]
    refine iff_of_false (fun hh => ?_) (by simp)
    obtain ⟨⟨p, hp, -⟩, -⟩ := hinv'.unallocated i h hh
    simp [hnil i hi] at hp

end Sizes

section Runs

variable {m m' : Mem}

/-- The memories that allocations, releases and rebuilds lead to. A block is
freed behind its predecessor in the list of the allocated ones. -/
inductive Reaches : Mem → Prop
  | init : Reaches initMemmgr
  | alloc {m m' : Mem} {osize fresh : Nat} {h : Blk} : Reaches m → m.owned fresh = false →
      Bibop.alloc m osize fresh = some (m', h) → Reaches m'
  | free {m m' : Mem} {before after : List Blk} {h : Blk} : Reaches m →
      Seg m.next m.allocHead (before ++ h :: after) none →
      freeBlock m h before.getLast? = some m' → Reaches m'
  | rebuild {m m' : Mem} : Reaches m → (∃ n, ∀ fuel ≥ n, freeUnusedBibop fuel m = some m') →
      Reaches m'

theorem Reaches.inv (hm : Reaches m) : ∃ P F A, Inv m P F A := by
  induction hm with
  | init => exact ⟨_, _, _, inv_initMemmgr⟩
  | alloc _ hfresh halloc ih =>
    obtain ⟨P, F, A, hinv⟩ := ih
    obtain ⟨m₁, b, P', F', halloc₁, hinv', -⟩ := hinv.allocBlock _ hfresh
    obtain ⟨rfl, -⟩ := Prod.mk.inj (Option.some.inj (halloc₁.symm.trans halloc))
    exact ⟨P', F', _, hinv'⟩
  | free _ hlist hfree ih =>
    obtain ⟨P, F, A, hinv⟩ := ih
    obtain rfl := seg_unique hinv.alloc hlist
    obtain ⟨m₁, F', hfree₁, hinv'⟩ := hinv.freeBlock
    obtain rfl := Option.some.inj (hfree₁.symm.trans hfree)
    exact ⟨P, F', _, hinv'⟩
  | rebuild _ hrebuild ih =>
    obtain ⟨P, F, A, hinv⟩ := ih
    obtain ⟨n, hn⟩ := hrebuild
    obtain ⟨m₁, F', n', hrun, -, -, hinv'⟩ := hinv.rebuild
    obtain rfl := Option.some.inj
      ((hrun _ (Nat.le_max_right n n')).symm.trans (hn _ (Nat.le_max_left n n')))
    exact ⟨_, F', A, hinv'⟩

/-- The pages of size `i`, which are in use, and its free list, where each
unallocated slot of the pages is once and nothing else is. -/
def Exact (m : Mem) (i : Nat) : Prop :=
  ∃ pages l, Seg m.pnext (m.bibopPages i) pages none ∧ (∀ bpage ∈ pages, m.owned bpage = true) ∧
    Seg m.next (m.bibopfl i) l none ∧ l.Nodup ∧ ∀ h, h ∈ l ↔ SlotOf pages h ∧ m.ballocp h = false

/-- No slot that is unallocated is behind an allocated one on its page. -/
def FreeFirst (m : Mem) : Prop :=
  ∀ i pages, Seg m.pnext (m.bibopPages i) pages none → ∀ bpage ∈ pages, ∀ j k, j < k → k < pageSize →
    m.ballocp (.slot bpage j) = true → m.ballocp (.slot bpage k) = true

theorem Inv.exact_iff {P : Nat → List Nat} {F F' : Nat → List Blk} {A A' : List Blk}
    (hinv : Inv m P F A) (hballocp : m'.ballocp = m.ballocp) (hfound : ∀ i, Found m (P i) (F' i))
    (hinv' : Inv m' (fun i => (P i).filter (InUse m ·)) F' A') :
    (∀ i, Exact m' i) ↔ FreeFirst m := by
  have hslot : ∀ {i p k}, SlotOf ((P i).filter (InUse m ·)) (.slot p k) ↔
      (p ∈ P i ∧ InUse m p) ∧ k < pageSize := by simp [slotOf_slot]
  constructor
  · intro hexact i pages hpages p hp j k hjk hk hj
    obtain rfl := seg_unique (hinv.pages i) hpages
    by_contra hfree
    have hfree' : m'.ballocp (.slot p k) = false := by
      rw [hballocp]
      exact Bool.eq_false_of_not_eq_true hfree
    have huse : InUse m p := ⟨j, Nat.lt_trans hjk hk, hj⟩
    -- the slot is one of a kept page, and not one of the new free list
    obtain ⟨pages', l, hpages', -, hl, -, hmem⟩ := hexact i
    obtain rfl := seg_unique (hinv'.pages i) hpages'
    obtain rfl := seg_unique (hinv'.free i) hl
    have hin := (hmem (.slot p k)).mpr ⟨hslot.mpr ⟨⟨hp, huse⟩, hk⟩, hfree'⟩
    obtain ⟨q, -, -, k', -, heq, hearly⟩ := (hfound i _).mp hin
    obtain ⟨rfl, rfl⟩ := Blk.slot.inj heq
    rw [hearly j (Nat.le_of_lt hjk)] at hj
    exact Bool.noConfusion hj
  · intro hfirst i
    refine ⟨_, _, hinv'.pages i, hinv'.owned i, hinv'.free i, nodup_of_seg (hinv'.free i), fun h => ?_⟩
    refine ⟨hinv'.unallocated i h, ?_⟩
    rintro ⟨⟨p, hp, k, hk, rfl⟩, hfree⟩
    obtain ⟨⟨hp, huse⟩, -⟩ := hslot.mp (slotOf_slot.mpr ⟨hp, hk⟩)
    refine (hfound i _).mpr ⟨p, hp, huse, k, hk, rfl, fun k' hk' => ?_⟩
    rw [hballocp] at hfree
    rcases Nat.lt_or_eq_of_le hk' with hlt | rfl
    · by_contra halloc
      rw [hfirst i _ (hinv.pages i) p hp k' k hlt hk (Bool.eq_true_of_not_eq_false halloc)] at hfree
      exact Bool.noConfusion hfree
    · exact hfree

/-- The free slots that are lost are those behind an allocated one. -/
theorem freeUnusedBibop_exact_iff (hm : Reaches m) :
    ∃ m' n, (∀ fuel ≥ n, freeUnusedBibop fuel m = some m') ∧ ((∀ i, Exact m' i) ↔ FreeFirst m) := by
  obtain ⟨P, F, A, hinv⟩ := hm.inv
  obtain ⟨m', F', n, hrun, hballocp, hfound, hinv'⟩ := hinv.rebuild
  exact ⟨m', n, hrun, hinv.exact_iff hballocp hfound hinv'⟩

/-- The memory after two blocks of a size have been allocated, and the first one
freed. -/
def withHole : Option Mem := do
  let (m, first) ← alloc initMemmgr 16 0
  let (m, second) ← alloc m 16 1
  freeBlock m first (some second)

theorem withHole_reaches {m : Mem} (hm : withHole = some m) : Reaches m := by
  have hfree : initMemmgr.owned 0 = false := rfl
  obtain ⟨m₁, a, P₁, F₁, h₁, hinv₁, -⟩ := inv_initMemmgr.allocBlock 16 hfree
  have hfresh : ((alloc initMemmgr 16 0).map fun r => r.1.owned 1) = some false := by decide
  rw [h₁] at hfresh
  obtain ⟨m₂, b, P₂, F₂, h₂, hinv₂, -⟩ := hinv₁.allocBlock 16 (Option.some.inj hfresh)
  have hreach : Reaches m₂ := .alloc (.alloc .init rfl h₁) (Option.some.inj hfresh) h₂
  simp only [withHole, h₁, h₂, Option.bind_eq_bind, Option.bind_some] at hm
  have hlist : Seg m₂.next m₂.allocHead ([b] ++ a :: []) none := hinv₂.alloc
  exact .free hreach hlist hm

/-- The slot that was freed is lost. -/
theorem free_slot_lost : ∃ m, withHole = some m ∧ Reaches m ∧
    ∃ m' n, (∀ fuel ≥ n, freeUnusedBibop fuel m = some m') ∧ ¬ ∀ i, Exact m' i := by
  have hsome : withHole.isSome = true := by decide
  obtain ⟨m, hm⟩ := Option.isSome_iff_exists.mp hsome
  have hvalues : (withHole.map fun m => (m.ballocp (.slot 0 62), m.ballocp (.slot 0 63),
      m.bibopPages 16, m.pnext 0)) = some (true, false, some 0, none) := by decide
  rw [hm] at hvalues
  obtain ⟨hfirst, hrest⟩ := Prod.mk.inj (Option.some.inj hvalues)
  obtain ⟨hsecond, hrest⟩ := Prod.mk.inj hrest
  obtain ⟨hhead, hnext⟩ := Prod.mk.inj hrest
  have hreach := withHole_reaches hm
  obtain ⟨P, F, A, hinv⟩ := hreach.inv
  obtain ⟨m', F', n, hrun, hballocp, hfound, hinv'⟩ := hinv.rebuild
  refine ⟨m, hm, hreach, m', n, hrun, fun hexact => ?_⟩
  have hfree := (hinv.exact_iff hballocp hfound hinv').mp hexact 16 [0] ⟨hhead, hnext⟩ 0
    List.mem_cons_self 62 63 (by decide) (by decide) hfirst
  rw [hsecond] at hfree
  exact Bool.noConfusion hfree

theorem freeUnusedBibop_exact_iff_withHole : ∃ m, withHole = some m ∧
    ∃ m' n, (∀ fuel ≥ n, freeUnusedBibop fuel m = some m') ∧ ((∀ i, Exact m' i) ↔ FreeFirst m) := by
  have hsome : withHole.isSome = true := by decide
  obtain ⟨m, hm⟩ := Option.isSome_iff_exists.mp hsome
  exact ⟨m, hm, freeUnusedBibop_exact_iff (withHole_reaches hm)⟩

/-- A block that is handed out was none of the allocated ones. -/
theorem Reaches.alloc_not_held {osize fresh : Nat} {h : Blk} {l : List Blk} (hm : Reaches m)
    (hfresh : m.owned fresh = false) (halloc : Bibop.alloc m osize fresh = some (m', h))
    (hl : Seg m.next m.allocHead l none) : h ∉ l := by
  obtain ⟨P, F, A, hinv⟩ := hm.inv
  obtain ⟨m₁, b, P', F', halloc₁, -, hnot⟩ := hinv.allocBlock osize hfresh
  obtain ⟨-, rfl⟩ := Prod.mk.inj (Option.some.inj (halloc₁.symm.trans halloc))
  rwa [← seg_unique hinv.alloc hl]

end Runs

end Arcueid.Bibop
