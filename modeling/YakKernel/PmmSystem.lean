/-
# Runs of the page allocator

Zones are set up, regions are added, and blocks are allocated and freed one operation
at a time.  The state remembers which blocks the regions were cut into and which
blocks are handed out.
-/
import YakKernel.TransitionSystem
import YakKernel.PmmRegion

namespace Pmm

open Buddy

/-! ## Setting the zones up -/

/-- Calls of `pmm_zone_init` with the given `may_alloc`, base and end. -/
def bootZones : List (Bool × ℕ × ℕ) → Pmm → Except Error Pmm
  | [], p => .ok p
  | (mayAlloc, base, endAddr) :: zones, p =>
    match p.pmmZoneInit mayAlloc base endAddr with
    | .error e => .error e
    | .ok p => bootZones zones p

/-- The address ranges of two zones are disjoint. -/
def DisjointZones (a z : Bool × ℕ × ℕ) : Prop := a.2.2 ≤ z.2.1 ∨ z.2.2 ≤ a.2.1

variable {p q : Pmm} {I U : Multiset Block} {P : ℕ → Prop}

/-- An allocator with disjoint zones and no memory. -/
structure Booted (p : Pmm) : Prop where
  zones_nodup : p.zoneList.Nodup
  zones_lt : ∀ z ∈ p.zoneList, z < p.staticZonesPos
  zones_disjoint : ∀ a ∈ p.zoneList, ∀ z ∈ p.zoneList, a ≠ z →
    (p.staticZones a).endAddr ≤ (p.staticZones z).base ∨
    (p.staticZones z).endAddr ≤ (p.staticZones a).base
  zones_empty : ∀ z ∈ p.zoneList, ∀ k,
    (p.staticZones z).orders k = [] ∧ (p.staticZones z).npages k = 0
  regions : p.regionList = []
  pagecnt : p.freePagecnt = 0

theorem Booted.pmmZoneInit (h : Booted p) {mayAlloc : Bool} {base endAddr : ℕ}
    (hdisj : ∀ z ∈ p.zoneList, (p.staticZones z).endAddr ≤ base ∨
      endAddr ≤ (p.staticZones z).base)
    (hq : p.pmmZoneInit mayAlloc base endAddr = .ok q) :
    Booted q ∧ ∀ z ∈ q.zoneList, ((q.staticZones z).base = base ∧
      (q.staticZones z).endAddr = endAddr) ∨ z ∈ p.zoneList ∧
      (q.staticZones z).base = (p.staticZones z).base ∧
      (q.staticZones z).endAddr = (p.staticZones z).endAddr := by
  simp only [Pmm.pmmZoneInit] at hq
  split_ifs at hq
  cases hq
  have hne : ∀ z ∈ p.zoneList, z ≠ p.staticZonesPos := fun z hz => (h.zones_lt z hz).ne
  refine ⟨⟨?_, ?_, ?_, ?_, h.regions, h.pagecnt⟩, ?_⟩
  · have hperm : ∀ key : ℕ → ℕ, (insertSorted key p.staticZonesPos p.zoneList).Perm
        (p.staticZonesPos :: p.zoneList) := fun key =>
      (List.perm_middle).trans (by rw [List.takeWhile_append_dropWhile])
    refine (hperm _).nodup_iff.mpr (List.nodup_cons.mpr ⟨fun hmem => ?_, h.zones_nodup⟩)
    exact hne _ hmem rfl
  · intro z hz
    rcases mem_insertSorted.mp hz with rfl | hz
    · exact Nat.lt_succ_self _
    · exact Nat.lt_succ_of_lt (h.zones_lt z hz)
  · intro a ha z hz haz
    rcases mem_insertSorted.mp ha with rfl | ha
    · rcases mem_insertSorted.mp hz with rfl | hz
      · exact absurd rfl haz
      · simp only [Function.update_self, Function.update_of_ne (hne z hz)]
        exact (hdisj z hz).symm
    · rcases mem_insertSorted.mp hz with rfl | hz
      · simp only [Function.update_self, Function.update_of_ne (hne a ha)]
        exact hdisj a ha
      · simp only [Function.update_of_ne (hne a ha), Function.update_of_ne (hne z hz)]
        exact h.zones_disjoint a ha z hz haz
  · intro z hz k
    rcases mem_insertSorted.mp hz with rfl | hz
    · simp only [Function.update_self, and_self]
    · simp only [Function.update_of_ne (hne z hz)]
      exact h.zones_empty z hz k
  · intro z hz
    rcases mem_insertSorted.mp hz with rfl | hz
    · exact Or.inl ⟨by simp only [Function.update_self], by simp only [Function.update_self]⟩
    · refine Or.inr ⟨hz, ?_, ?_⟩ <;> simp only [Function.update_of_ne (hne z hz)]

theorem booted_empty : Booted Pmm.empty where
  zones_nodup := List.nodup_nil
  zones_lt := fun _ hz => absurd hz List.not_mem_nil
  zones_disjoint := fun _ ha => absurd ha List.not_mem_nil
  zones_empty := fun _ hz => absurd hz List.not_mem_nil
  regions := rfl
  pagecnt := rfl

theorem Booted.bootZones : ∀ (zones : List (Bool × ℕ × ℕ)) {p : Pmm}, Booted p →
    zones.Pairwise DisjointZones →
    (∀ z ∈ p.zoneList, ∀ zone ∈ zones, (p.staticZones z).endAddr ≤ zone.2.1 ∨
      zone.2.2 ≤ (p.staticZones z).base) →
    Pmm.bootZones zones p = .ok q → Booted q := by
  intro zones
  induction zones with
  | nil =>
    intro p h _ _ hq
    cases hq
    exact h
  | cons zone zones ih =>
    obtain ⟨mayAlloc, base, endAddr⟩ := zone
    intro p h hpair hdisj hq
    rw [List.pairwise_cons] at hpair
    simp only [Pmm.bootZones] at hq
    cases hinit : p.pmmZoneInit mayAlloc base endAddr with
    | error e => simp [hinit] at hq
    | ok p' =>
      simp only [hinit] at hq
      obtain ⟨hboot, hzones⟩ := h.pmmZoneInit (fun z hz => hdisj z hz _ List.mem_cons_self) hinit
      refine ih hboot hpair.2 (fun z hz zone hzone => ?_) hq
      rcases hzones z hz with ⟨hb, he⟩ | ⟨hz', hb, he⟩
      · rw [hb, he]
        exact hpair.1 zone hzone
      · rw [hb, he]
        exact hdisj z hz' zone (List.mem_cons_of_mem _ hzone)

theorem Booted.inv (h : Booted p) : Inv p 0 0 (fun _ => False) ∧ Memory p 0 := by
  have hfree : p.freeBlocks = 0 := by
    refine Multiset.eq_zero_of_forall_notMem (fun b hb => ?_)
    obtain ⟨z, hz, -, hx⟩ := mem_freeBlocks.mp hb
    rw [(h.zones_empty z hz _).1] at hx
    exact List.not_mem_nil hx
  have hno : ∀ {Q : Block → Prop}, ∀ b ∈ (0 : Multiset Block), Q b :=
    fun b hb => absurd hb (Multiset.notMem_zero b)
  refine ⟨⟨⟨⟨h.zones_nodup, hno, hno, hno⟩, ?_, hno, hno, ?_, hno, fun _ hx => hx.elim, ?_, ?_⟩,
    h.pagecnt⟩, ?_⟩
  · rw [hfree]
    exact Tiling.refl (fun x => Nat.zero_le _) hno
  · intro z hz k _ x hx
    rw [(h.zones_empty z hz k).1] at hx
    exact absurd hx List.not_mem_nil
  · intro z hz k
    rw [(h.zones_empty z hz k).1, (h.zones_empty z hz k).2]
    rfl
  · rw [hfree]
    exact hno
  · refine ⟨h.zones_disjoint, ?_, ?_, ?_, fun x => ?_⟩
    · rw [h.regions]
      exact fun r hr => absurd hr List.not_mem_nil
    · rw [h.regions]
      exact fun r hr => absurd hr List.not_mem_nil
    · rw [h.regions]
      exact fun r hr => absurd hr List.not_mem_nil
    · simp [Usable, h.regions]

/-! ## The system -/

/-- The allocator, the blocks its regions were cut into, and the blocks handed out. -/
structure State where
  pmm : Pmm
  initialBlocks : Multiset Block
  used : Multiset Block

/-- One operation at a time. -/
inductive Event : Type where
  | pmmAddRegion (base endAddr : ℕ)
  | pmmAllocOrder (order : ℕ)
  | pmmFreePagesOrder (page order : ℕ)

/-- One step.  A block is freed with the order it was allocated with, after its
references are gone. -/
def step (s : State) : Event → Option State
  | .pmmAddRegion base endAddr =>
    if s.pmm.NewRegion base endAddr then
      match s.pmm.pmmAddRegion base endAddr with
      | .error _ => none
      | .ok pmm => some { s with
          pmm := pmm
          initialBlocks := s.initialBlocks + newBlocks base endAddr }
    else none
  | .pmmAllocOrder order =>
    match s.pmm.pmmAllocOrder order with
    | .error _ => none
    | .ok (pmm, none) => some { s with pmm := pmm }
    | .ok (pmm, some page) => some { s with pmm := pmm, used := ⟨page, order⟩ ::ₘ s.used }
  | .pmmFreePagesOrder page order =>
    if ⟨page, order⟩ ∈ s.used then
      match (s.pmm.setPage page (fun pg => { pg with shares := 0 })).pmmFreePagesOrder
          page order with
      | .error _ => none
      | .ok pmm => some { s with pmm := pmm, used := s.used.erase ⟨page, order⟩ }
    else none

/-- Runs over any disjoint zones. -/
def system : TransitionSystem State Event where
  init := fun s => (∃ zones, zones.Pairwise DisjointZones ∧
    bootZones zones Pmm.empty = .ok s.pmm) ∧ s.initialBlocks = 0 ∧ s.used = 0
  step := step

/-- The invariant of a state of the system. -/
def State.Inv (s : State) : Prop :=
  Pmm.Inv s.pmm s.initialBlocks s.used (fun _ => False) ∧ Memory s.pmm s.initialBlocks

/-- **`pmm_free_pages_order`.**  A block without references comes back, if the merging
loop meets no page `P`. -/
theorem Inv.pmmFreePagesOrder {b : Block} (h : Pmm.Inv p I (b ::ₘ U) P)
    (hs : (p.pages b.page).shares = 0) (hset : p.FindsSettled P b.page b.order) :
    ∃ q, p.pmmFreePagesOrder b.page b.order = .ok q ∧ SameLayout p q ∧
      Pmm.Inv q I U (fun x => P x ∧ x ≠ b.page) := by
  obtain ⟨i, hi, hbi⟩ := (h.core.takeBack hs).exists_within
  obtain ⟨z, hz⟩ := h.core.layout.home i hi
  have hzb := hz b.page (hbi.covers b.covers_page)
  obtain ⟨q, hq, hlay, hinv⟩ := h.zoneFree hzb hs hset
  exact ⟨q, by rw [Pmm.pmmFreePagesOrder, hzb]; exact hq, hlay, hinv⟩

theorem findsSettled_self (p : Pmm) (x o : ℕ) : p.FindsSettled (fun y => False ∨ y = x) x o := by
  rintro k - - - (hf | heq)
  · exact hf
  · exact (buddyAt_ne (Block.ofPage_aligned x k) (Block.ofPage_covers x k)
      (Block.ofPage_covers x k) le_rfl).2 heq

theorem Inv.free {b : Block} (h : Pmm.Inv p I (b ::ₘ U) (fun _ => False)) :
    ∃ q, (p.setPage b.page (fun pg => { pg with shares := 0 })).pmmFreePagesOrder
      b.page b.order = .ok q ∧ SameLayout p q ∧ Pmm.Inv q I U (fun _ => False) := by
  have hdrop : Pmm.Inv (p.setPage b.page (fun pg => { pg with shares := 0 })) I (b ::ₘ U)
      (fun x => False ∨ x = b.page) :=
    h.setShares (Multiset.mem_cons_self b U) (fun pg => { pg with shares := 0 })
      (fun _ => ⟨rfl, rfl⟩) (fun x hx => by simp [hx]) (by simp)
  obtain ⟨q, hq, hlay, hinv⟩ := hdrop.pmmFreePagesOrder (by simp [setPage])
    (findsSettled_self _ _ _)
  exact ⟨q, hq, (sameLayout_setPage _ _ _).trans hlay,
    hinv.core.congr (fun x => by simp), hinv.pagecnt⟩

/-- An order beyond the lists fails its assertion in the first zone that may allocate. -/
theorem pmmAllocOrder_of_ge (p : Pmm) {o : ℕ} (ho : buddyOrders ≤ o) :
    p.pmmAllocOrder o = .error .badOrder ∨ p.pmmAllocOrder o = .ok (p, none) := by
  have hloop : ∀ zs, allocFrom o zs p = .error .badOrder ∨ allocFrom o zs p = .ok (p, none) := by
    intro zs
    induction zs with
    | nil => exact Or.inr rfl
    | cons z zs ih =>
      rw [allocFrom]
      split_ifs
      · exact ih
      · rw [show p.zoneAlloc z o = .error .badOrder by rw [Pmm.zoneAlloc, if_pos ho]]
        exact Or.inl rfl
  exact hloop p.zoneList

/-- **Step lemma.** -/
theorem State.Inv.step {s s' : State} {ev : Event} (h : s.Inv) (hs : step s ev = some s') :
    s'.Inv := by
  obtain ⟨hinv, hmem⟩ := h
  cases ev with
  | pmmAddRegion base endAddr =>
    simp only [Pmm.step] at hs
    split_ifs at hs with hnew
    cases hadd : s.pmm.pmmAddRegion base endAddr with
    | error e => simp [hadd] at hs
    | ok q =>
      simp only [hadd] at hs
      cases hs
      exact hinv.of_pmmAddRegion hmem hnew hadd
  | pmmAllocOrder order =>
    simp only [Pmm.step] at hs
    by_cases ho : order < buddyOrders
    · rcases hinv.pmmAllocOrder ho with hnone | ⟨q, x, hq, hlay, hinv'⟩
      · simp only [hnone] at hs
        cases hs
        exact ⟨hinv, hmem⟩
      · simp only [hq] at hs
        cases hs
        exact ⟨hinv', hmem.congr hlay⟩
    · rcases pmmAllocOrder_of_ge s.pmm (Nat.le_of_not_lt ho) with herr | hnone
      · simp [herr] at hs
      · simp only [hnone] at hs
        cases hs
        exact ⟨hinv, hmem⟩
  | pmmFreePagesOrder page order =>
    simp only [Pmm.step] at hs
    split_ifs at hs with hused
    obtain ⟨U, hU⟩ := Multiset.exists_cons_of_mem hused
    rw [hU] at hinv
    obtain ⟨q, hq, hlay, hinv'⟩ := hinv.free
    simp only [hq] at hs
    cases hs
    rw [hU, Multiset.erase_cons_head]
    exact ⟨hinv', hmem.congr hlay⟩

/-- **Run lemma.** -/
theorem State.Inv.of_reachable {s : State} (h : system.Reachable s) : s.Inv := by
  refine TransitionSystem.Reachable.invariant ?_ (fun _ _ _ hI hs => hI.step hs) h
  rintro s ⟨⟨zones, hpair, hboot⟩, hI, hU⟩
  have hbooted := booted_empty.bootZones zones hpair (fun z hz => absurd hz List.not_mem_nil) hboot
  rw [State.Inv, hI, hU]
  exact hbooted.inv

/-! ## The allocator is sound -/

/-- All blocks, free and handed out. -/
def State.blocks (s : State) : Multiset Block := s.pmm.freeBlocks + s.used

/-- What holds of the allocator between operations. -/
structure State.Sound (s : State) : Prop where
  /-- the blocks are naturally aligned -/
  aligned : ∀ b ∈ s.blocks, b.Aligned
  /-- they are pairwise disjoint -/
  disjoint : ∀ b ∈ s.blocks, ∀ c ∈ s.blocks.erase b, ∀ x, b.Covers x → ¬ c.Covers x
  /-- they tile the usable pages -/
  tile : ∀ x, (∃ b ∈ s.blocks, b.Covers x) ↔ s.pmm.Usable x
  /-- the counts are the lengths of the lists -/
  npages : ∀ z ∈ s.pmm.zoneList, ∀ o,
    (s.pmm.staticZones z).npages o = ((s.pmm.staticZones z).orders o).length
  /-- queued pages have no references and the order of their list -/
  queued : ∀ z ∈ s.pmm.zoneList, ∀ o < buddyOrders, ∀ x ∈ (s.pmm.staticZones z).orders o,
    (s.pmm.pages x).shares = 0 ∧ (s.pmm.pages x).order = o
  /-- a block and its buddy below the largest order are not both free -/
  no_buddies : ∀ b ∈ s.pmm.freeBlocks, b.order < (s.pmm.pages b.page).maxOrder →
    b.buddy ∉ s.pmm.freeBlocks
  /-- the free page count is exact -/
  pagecnt : s.pmm.freePagecnt = (s.pmm.zoneList.map (fun z =>
    ((List.range buddyOrders).map (fun o => (s.pmm.staticZones z).npages o * 2 ^ o)).sum)).sum
  /-- with everything freed, the free blocks are the initial ones -/
  all_freed : s.used = 0 → s.pmm.freeBlocks = s.initialBlocks
  /-- allocations fail no assertion -/
  alloc_ok : ∀ o < buddyOrders, ∃ r, s.pmm.pmmAllocOrder o = .ok r
  /-- nor do frees -/
  free_ok : ∀ b ∈ s.used, ∃ q, (s.pmm.setPage b.page
    (fun pg => { pg with shares := 0 })).pmmFreePagesOrder b.page b.order = .ok q

theorem size_blocksOf (k : ℕ) (list : List ℕ) : size (blocksOf k list) = list.length * 2 ^ k := by
  simp [blocksOf, size, Function.comp_def]

theorem Core.size_freeBlocks {H : Multiset Block} (h : Core p I U H P) :
    size p.freeBlocks = (p.zoneList.map (fun z =>
      ((List.range buddyOrders).map (fun o => (p.staticZones z).npages o * 2 ^ o)).sum)).sum := by
  simp only [freeBlocks, size_bind, Zone.freeBlocks, size_blocksOf, Multiset.map_coe,
    Multiset.sum_coe]
  refine congrArg List.sum (List.map_congr_left (fun z hz => ?_))
  refine congrArg List.sum (List.map_congr_left (fun o _ => ?_))
  rw [h.npages z hz]

/-- **The buddy allocator.**  After any sequence of regions, allocations and frees, the
free blocks and the blocks handed out tile the usable pages, the lists and counts are
exact, no two buddies are free, no assertion can fail, and once everything is freed the
lists hold the blocks the regions were cut into. -/
theorem sound_of_reachable {s : State} (h : system.Reachable s) : s.Sound := by
  obtain ⟨hinv, hmem⟩ := State.Inv.of_reachable h
  have ht := hinv.core.tiling
  rw [zero_add] at ht
  refine ⟨ht.aligned, fun b hb c hc x hx => ht.not_covers_of_mem_erase hb hc hx, fun x => ?_,
    hinv.core.npages, fun z hz o ho x hx => ?_, hinv.core.no_buddies, ?_, fun hU => ?_,
    fun o ho => ?_, fun b hb => ?_⟩
  · rw [← hmem.usable, ← ht.cover_eq, cover_pos_iff]
    rfl
  · have hfree : (⟨x, o⟩ : Block) ∈ s.pmm.freeBlocks := mem_freeBlocks.mpr ⟨z, hz, ho, hx⟩
    exact ⟨hinv.core.shares_free hfree, (hinv.core.queued z hz o ho x hx).2⟩
  · rw [hinv.freePagecnt_eq, hinv.core.size_freeBlocks]
  · rw [hU, add_zero] at ht
    refine ht.eq_initial (fun b hb i hi hbi ho => hinv.core.no_buddies b hb ?_)
    rwa [hinv.core.maxOrder i hi _ (hbi.covers b.covers_page)]
  · rcases hinv.pmmAllocOrder ho with hnone | ⟨q, x, hq, -, -⟩
    · exact ⟨_, hnone⟩
    · exact ⟨_, hq⟩
  · obtain ⟨U, hU⟩ := Multiset.exists_cons_of_mem hb
    rw [hU] at hinv
    obtain ⟨q, hq, -, -⟩ := hinv.free
    exact ⟨q, hq⟩

/-- One zone above the first megabyte. -/
def lowZone : Pmm where
  regionList := []
  zoneList := [0]
  totalPagecnt := 0
  usablePagecnt := 0
  freePagecnt := 0
  staticZones := Function.update Pmm.empty.staticZones 0
    ⟨0, 2 ^ 20, uint32Max, true, fun _ => [], fun _ => 0⟩
  staticZonesPos := 1
  pages := Pmm.empty.pages

/-- A region of eight pages is added, and two pages are taken from it and given back. -/
def allocFreeRun : List Event :=
  [.pmmAddRegion (2 ^ 20) (2 ^ 20 + 8 * 2 ^ 12), .pmmAllocOrder 0, .pmmAllocOrder 1,
    .pmmFreePagesOrder 258 1]

theorem sound_of_reachable_region : ∃ s, system.Reachable s ∧ s.Sound ∧
    s.used = {⟨257, 0⟩} ∧ s.pmm.freePagecnt = 6 ∧ (s.pmm.staticZones 0).orders 1 = [258, 260] := by
  have hinit : system.init ⟨lowZone, 0, 0⟩ :=
    ⟨⟨[(true, 2 ^ 20, uint32Max)], List.pairwise_singleton _ _, rfl⟩, rfl, rfl⟩
  obtain ⟨s, hs, hp⟩ := TransitionSystem.exists_reachable_of_run hinit allocFreeRun
    (fun s => s.used = {⟨257, 0⟩} ∧ s.pmm.freePagecnt = 6 ∧
      (s.pmm.staticZones 0).orders 1 = [258, 260]) (by decide)
  simp only [decide_eq_true_eq] at hp
  exact ⟨s, hs, sound_of_reachable hs, hp⟩

end Pmm
