/-
# Page references on several CPUs

`page_ref` and `page_deref` from `GENERATE_REFMAINT(page, shares, page_free)`.  A deref
is two steps: the atomic decrement of `shares`, and, when it was the last one,
`zone_free` under the zone lock.  In between the page is pending: its count is 0, but it
is on no list.
-/
import YakKernel.PmmSystem

namespace Pmm.Refcount

open Buddy

/-! ## The system -/

/-- The allocator with the blocks handed out, the pages whose last reference is gone but
which are not freed yet, and the first assertion that failed. -/
structure State where
  pmm : Pmm
  initialBlocks : Multiset Block
  used : Multiset Block
  pending : List ℕ
  failed : Option Error

/-- The steps of any number of CPUs, and the regions that boot adds. -/
inductive Event : Type where
  | pmmAddRegion (base endAddr : ℕ)
  | pmmAllocOrder (order : ℕ)
  | pageRef (page : ℕ)
  | pageDeref (page : ℕ)
  | pageFree (page : ℕ)

/-- Somebody holds a reference to the block at `page`. -/
def State.Referenced (s : State) (page : ℕ) : Prop :=
  page ∈ s.used.map Block.page ∧ 0 < (s.pmm.pages page).shares

instance (s : State) (page : ℕ) : Decidable (s.Referenced page) := by
  unfold State.Referenced
  infer_instance

/-- One step; references are taken and dropped by those who hold one. -/
def step (s : State) (ev : Event) : Option State :=
  if s.failed.isSome then none
  else match ev with
  | .pmmAddRegion base endAddr =>
    if s.pmm.NewRegion base endAddr then
      match s.pmm.pmmAddRegion base endAddr with
      | .error _ => none
      | .ok pmm => some { s with
          pmm := pmm
          initialBlocks := s.initialBlocks + newBlocks base endAddr }
    else none
  | .pmmAllocOrder order =>
    if order < buddyOrders then
      match s.pmm.pmmAllocOrder order with
      | .error e => some { s with failed := some e }
      | .ok (pmm, none) => some { s with pmm := pmm }
      | .ok (pmm, some page) => some { s with pmm := pmm, used := ⟨page, order⟩ ::ₘ s.used }
    else none
  | .pageRef page =>
    if s.Referenced page then
      some { s with pmm := s.pmm.setPage page (fun pg => { pg with shares := pg.shares + 1 }) }
    else none
  | .pageDeref page =>
    if s.Referenced page then
      some { s with
        pmm := s.pmm.setPage page (fun pg => { pg with shares := pg.shares - 1 })
        -- __atomic_fetch_sub(&p->shares, 1) == 1
        pending := if (s.pmm.pages page).shares = 1 then page :: s.pending else s.pending }
    else none
  | .pageFree page =>
    if page ∈ s.pending then
      let order := (s.pmm.pages page).order
      match s.pmm.pmmFreePagesOrder page order with
      | .error e => some { s with failed := some e }
      | .ok pmm => some { s with
          pmm := pmm
          used := s.used.erase ⟨page, order⟩
          pending := s.pending.erase page }
    else none

/-- Runs over any disjoint zones. -/
def system : TransitionSystem State Event where
  init := fun s => (∃ zones, zones.Pairwise DisjointZones ∧
    bootZones zones Pmm.empty = .ok s.pmm) ∧ s.initialBlocks = 0 ∧ s.used = 0 ∧
    s.pending = [] ∧ s.failed = none
  step := step

/-- No buddy that `zone_free` would merge with is pending itself. -/
def BuddiesSettled (s : State) : Event → Prop
  | .pageFree page =>
    s.pmm.FindsSettled (fun x => x ∈ s.pending) page (s.pmm.pages page).order
  | _ => True

instance (s : State) (ev : Event) : Decidable (BuddiesSettled s ev) := by
  unfold BuddiesSettled
  split <;> infer_instance

/-- No assertion has failed, so that every buddy that `zone_free` merged with was on its
list; and no page is in two blocks, free or handed out. -/
def State.Safe (s : State) : Prop :=
  s.failed = none ∧
    ∀ b ∈ s.pmm.freeBlocks + s.used, ∀ c ∈ (s.pmm.freeBlocks + s.used).erase b,
      ∀ x, b.Covers x → ¬ c.Covers x

/-! ## The invariant -/

/-- The invariant of the runs that free no page beside a pending buddy. -/
structure State.Inv (s : State) : Prop where
  inv : Pmm.Inv s.pmm s.initialBlocks s.used (fun x => x ∈ s.pending)
  memory : Memory s.pmm s.initialBlocks
  nodup : s.pending.Nodup
  failed : s.failed = none

variable {s s' : State}

theorem exists_cons_of_page {U : Multiset Block} {x : ℕ} (h : x ∈ U.map Block.page) :
    ∃ b U', U = b ::ₘ U' ∧ b.page = x := by
  obtain ⟨b, hb, hx⟩ := Multiset.mem_map.mp h
  obtain ⟨U', hU⟩ := Multiset.exists_cons_of_mem hb
  exact ⟨b, U', hU, hx⟩

theorem State.Inv.not_pending (h : s.Inv) {x : ℕ} (hx : s.Referenced x) : x ∉ s.pending := by
  obtain ⟨b, U, hU, rfl⟩ := exists_cons_of_page hx.1
  intro hmem
  have hzero := (h.inv.core.held b (by simp [hU])).2.mp hmem
  exact absurd hx.2 (by omega)

/-- **Step lemma.** -/
theorem State.Inv.step {ev : Event} (h : s.Inv) (hC : BuddiesSettled s ev)
    (hs : step s ev = some s') : s'.Inv := by
  have hnf : s.failed.isSome = false := by rw [h.failed]; rfl
  simp only [Refcount.step, hnf, Bool.false_eq_true, if_false] at hs
  cases ev with
  | pmmAddRegion base endAddr =>
    simp only at hs
    split_ifs at hs with hnew
    cases hadd : s.pmm.pmmAddRegion base endAddr with
    | error e => simp [hadd] at hs
    | ok q =>
      simp only [hadd] at hs
      cases hs
      obtain ⟨hinv, hmem⟩ := h.inv.of_pmmAddRegion h.memory hnew hadd
      exact ⟨hinv, hmem, h.nodup, h.failed⟩
  | pmmAllocOrder order =>
    simp only at hs
    split_ifs at hs with ho
    rcases h.inv.pmmAllocOrder ho with hnone | ⟨q, x, hq, hlay, hinv⟩
    · simp only [hnone] at hs
      cases hs
      exact ⟨h.inv, h.memory, h.nodup, h.failed⟩
    · simp only [hq] at hs
      cases hs
      exact ⟨hinv, h.memory.congr hlay, h.nodup, h.failed⟩
  | pageRef page =>
    simp only at hs
    split_ifs at hs with href
    cases hs
    have hnp := h.not_pending href
    obtain ⟨b, U, hU, rfl⟩ := exists_cons_of_page href.1
    have hlay := sameLayout_setPage s.pmm b.page (fun pg => { pg with shares := pg.shares + 1 })
    refine ⟨h.inv.setShares (by simp [hU]) (fun pg => { pg with shares := pg.shares + 1 })
      (fun _ => ⟨rfl, rfl⟩) (fun _ _ => Iff.rfl) ?_, h.memory.congr hlay,
      h.nodup, h.failed⟩
    exact iff_of_false hnp (Nat.succ_ne_zero _)
  | pageDeref page =>
    simp only at hs
    by_cases href : s.Referenced page
    · rw [if_pos href] at hs
      cases hs
      have hnp := h.not_pending href
      have hpos := href.2
      obtain ⟨b, U, hU, rfl⟩ := exists_cons_of_page href.1
      have hlay := sameLayout_setPage s.pmm b.page (fun pg => { pg with shares := pg.shares - 1 })
      refine ⟨h.inv.setShares (by simp [hU]) (fun pg => { pg with shares := pg.shares - 1 })
        (fun _ => ⟨rfl, rfl⟩) (fun x hx => ?_) ?_, h.memory.congr hlay, ?_, h.failed⟩
      · simp only
        split_ifs
        · simp [hx]
        · exact Iff.rfl
      · simp only
        split_ifs with hone
        · simp [hone]
        · exact iff_of_false hnp (by omega)
      · simp only
        split_ifs
        · exact List.nodup_cons.mpr ⟨hnp, h.nodup⟩
        · exact h.nodup
    · simp [href] at hs
  | pageFree page =>
    simp only at hs
    split_ifs at hs with hpend
    obtain ⟨b, hb, rfl⟩ := h.inv.core.pending page hpend
    obtain ⟨hord, hzero⟩ := h.inv.core.held b hb
    obtain ⟨U, hU⟩ := Multiset.exists_cons_of_mem hb
    have hinv := h.inv
    rw [hU] at hinv
    have hset : s.pmm.FindsSettled (fun x => x ∈ s.pending) b.page b.order := hord ▸ hC
    obtain ⟨q, hq, hlay, hinv'⟩ := hinv.pmmFreePagesOrder (hzero.mp hpend) hset
    simp only [hord, hq] at hs
    cases hs
    refine ⟨?_, h.memory.congr hlay, h.nodup.erase _, h.failed⟩
    rw [hU, Multiset.erase_cons_head]
    refine ⟨hinv'.core.congr (fun x => ?_), hinv'.pagecnt⟩
    rw [h.nodup.mem_erase_iff, and_comm]

theorem State.Inv.of_reachableUnder (h : system.ReachableUnder BuddiesSettled s) : s.Inv := by
  refine TransitionSystem.ReachableUnder.invariant ?_ (fun _ _ _ hI hC hs => hI.step hC hs) h
  rintro s ⟨⟨zones, hpair, hboot⟩, hI, hU, hpend, hfail⟩
  obtain ⟨hinv, hmem⟩ := (booted_empty.bootZones zones hpair
    (fun z hz => absurd hz List.not_mem_nil) hboot).inv
  rw [← hI] at hmem
  refine ⟨?_, hmem, by simp [hpend], hfail⟩
  rw [hI, hU]
  exact ⟨hinv.core.congr (fun x => by simp [hpend]), hinv.pagecnt⟩

/-! ## Freeing beside a pending buddy -/

/-- **Merges stay on the lists.**  As long as no page is freed while a buddy it would
merge with is pending, no assertion of the allocator fails and no page is handed out
twice. -/
theorem safe_of_reachableUnder (h : system.ReachableUnder BuddiesSettled s) : s.Safe := by
  have hinv := State.Inv.of_reachableUnder h
  have ht := hinv.inv.core.tiling
  rw [zero_add] at ht
  exact ⟨hinv.failed, fun b hb c hc x hx => ht.not_covers_of_mem_erase hb hc hx⟩

theorem init_lowZone : system.init ⟨lowZone, 0, 0, [], none⟩ :=
  ⟨⟨[(true, 2 ^ 20, uint32Max)], List.pairwise_singleton _ _, rfl⟩, rfl, rfl, rfl, rfl⟩

/-- Of seven free pages, the buddies 258 and 259 are handed out and page 257 is free. -/
def buddiesRun : List Event :=
  [.pmmAddRegion (2 ^ 20) (2 ^ 20 + 8 * 2 ^ 12), .pmmAllocOrder 0, .pmmAllocOrder 0,
    .pmmAllocOrder 0, .pmmAllocOrder 0, .pmmAllocOrder 0, .pageDeref 257, .pageFree 257]

/-- Both buddies lose their last reference before either of them is freed. -/
def pendingBuddyRun : List Event := buddiesRun ++ [.pageDeref 258, .pageDeref 259, .pageFree 258]

/-- The page freed first takes its pending buddy, which is on no list, for a free one. -/
theorem pending_buddy : ∃ s, system.Reachable s ∧ s.failed = some .buddyNotOnList ∧
    259 ∈ s.pending ∧ (⟨259, 0⟩ : Block) ∈ s.used := by
  obtain ⟨s, hs, hp⟩ := TransitionSystem.exists_reachable_of_run init_lowZone pendingBuddyRun
    (fun s => s.failed = some .buddyNotOnList ∧ 259 ∈ s.pending ∧ (⟨259, 0⟩ : Block) ∈ s.used)
    (by decide +kernel)
  exact ⟨s, hs, by simpa using hp⟩

/-- One buddy after the other, with a reference taken and dropped between. -/
def settledRun : List Event :=
  buddiesRun ++ [.pageRef 259, .pageDeref 258, .pageFree 258, .pageDeref 259, .pageDeref 259,
    .pageFree 259]

theorem safe_of_reachableUnder_settled : ∃ s, system.ReachableUnder BuddiesSettled s ∧
    (s.pmm.staticZones 0).orders 1 = [258, 260] ∧ s.Safe := by
  obtain ⟨s, hs, hp⟩ := TransitionSystem.exists_reachableUnder_of_runUnder (C := BuddiesSettled)
    init_lowZone settledRun (fun s => (s.pmm.staticZones 0).orders 1 = [258, 260])
    (by decide +kernel)
  exact ⟨s, hs, by simpa using hp, safe_of_reachableUnder hs⟩

end Pmm.Refcount
