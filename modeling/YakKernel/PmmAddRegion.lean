/-
# The regions of the platform

`plat_mem_init` sets three zones up and hands the usable entries of the memory map to
`pmm_add_region`, whose zone is looked up from the base alone.  A region is added
soundly exactly if it is not empty, does not end at 4 GiB, and does not reach across
the first MiB.
-/
import YakKernel.PmmLookup

namespace Pmm

open Buddy

variable {p q : Pmm} {z k x : ℕ} {bs : List Block} {b : Block} {base endAddr : ℕ}

/-! ## Queueing a list of blocks -/

theorem addBlock_staticZones_of_ne {a : ℕ} (ha : a ≠ z) :
    (addBlock z p b).staticZones a = p.staticZones a := by
  simp only [addBlock, insertTail, setOrder, Function.update_of_ne ha]

theorem addBlock_orders :
    ((addBlock z p b).staticZones z).orders k =
      (p.staticZones z).orders k ++ if b.order = k then [b.page] else [] := by
  simp only [addBlock, insertTail, setOrder, Function.update_self]
  by_cases hk : b.order = k
  · subst hk
    rw [Function.update_self, if_pos rfl]
  · rw [Function.update_of_ne (Ne.symm hk), if_neg hk, List.append_nil]

theorem addBlock_npages :
    ((addBlock z p b).staticZones z).npages k =
      (p.staticZones z).npages k + if b.order = k then 1 else 0 := by
  simp only [addBlock, insertTail, setOrder, Function.update_self]
  by_cases hk : b.order = k
  · subst hk
    rw [Function.update_self, if_pos rfl]
  · rw [Function.update_of_ne (Ne.symm hk), if_neg hk, Nat.add_zero]

/-- The blocks of one order. -/
def pagesOf (bs : List Block) (k : ℕ) : List ℕ :=
  (bs.filter (fun b => b.order = k)).map Block.page

theorem pagesOf_cons :
    pagesOf (b :: bs) k = (if b.order = k then [b.page] else []) ++ pagesOf bs k := by
  rw [pagesOf, pagesOf, List.filter_cons]
  by_cases hk : b.order = k
  · rw [if_pos (decide_eq_true hk), if_pos hk, List.map_cons, List.singleton_append]
  · rw [if_neg (by simp [hk]), if_neg hk, List.nil_append]

/-- What the `for` loop leaves: every block is at the end of the list of its order, and
nothing else is written. -/
structure Queued (p q : Pmm) (z : ℕ) (bs : List Block) : Prop where
  layout : SameLayout p q
  orders : ∀ k, (q.staticZones z).orders k = (p.staticZones z).orders k ++ pagesOf bs k
  npages : ∀ k, (q.staticZones z).npages k =
    (p.staticZones z).npages k + (pagesOf bs k).length
  others : ∀ a, a ≠ z → q.staticZones a = p.staticZones a
  pages : ∀ x, (∀ b ∈ bs, ¬ b.Covers x) → q.pages x = p.pages x
  total : q.totalPagecnt = p.totalPagecnt
  usable : q.usablePagecnt = p.usablePagecnt
  free : q.freePagecnt = p.freePagecnt

/-- **The `for` loop of `pmm_add_region`.** -/
theorem queued_foldl (z : ℕ) (bs : List Block) (p : Pmm) :
    Queued p (bs.foldl (addBlock z) p) z bs := by
  induction bs generalizing p with
  | nil =>
    exact ⟨SameLayout.refl p, fun k => (List.append_nil _).symm, fun k => rfl, fun _ _ => rfl,
      fun _ _ => rfl, rfl, rfl, rfl⟩
  | cons b bs ih =>
    have h := ih (addBlock z p b)
    refine ⟨(sameLayout_addBlock p z b).trans h.layout, ?_, ?_, ?_, ?_, h.total, h.usable,
      h.free⟩
    · intro k
      rw [List.foldl_cons, h.orders, addBlock_orders, pagesOf_cons, List.append_assoc]
    · intro k
      rw [List.foldl_cons, h.npages, addBlock_npages, pagesOf_cons, List.length_append,
        Nat.add_assoc]
      by_cases hk : b.order = k
      · rw [if_pos hk, if_pos hk, List.length_singleton]
      · rw [if_neg hk, if_neg hk, List.length_nil]
    · intro a ha
      exact (h.others a ha).trans (addBlock_staticZones_of_ne ha)
    · intro x hx
      rw [List.foldl_cons, h.pages x (fun c hc => hx c (List.mem_cons_of_mem _ hc))]
      simp only [addBlock, insertTail, setOrder, if_neg (hx b List.mem_cons_self)]

theorem Queued.zoneValidate (h : Queued p q z bs)
    (hval : zoneValidate (p.staticZones z) = true) : zoneValidate (q.staticZones z) = true := by
  simp only [Pmm.zoneValidate, List.all_eq_true, decide_eq_true_eq] at hval ⊢
  intro k hk
  have hold := hval k hk
  rw [h.orders, h.npages]
  cases hpages : pagesOf bs k with
  | nil => simpa using hold
  | cons y rest => simp

/-! ## The zones of the platform -/

/-- The calls of `pmm_zone_init` in `plat_mem_init`. -/
def platZones : List (Bool × ℕ × ℕ) :=
  [(true, uint32Max, 2 ^ 64 - 1), (true, 1048576, uint32Max), (false, 0, 1048576)]

/-- The page `x` is inside a region. -/
def InRegion (p : Pmm) (x : ℕ) : Prop :=
  ∃ r ∈ p.regionList, r.base ≤ x * pageSize ∧ x * pageSize < r.endAddr

instance (p : Pmm) (x : ℕ) : Decidable (p.InRegion x) := by
  unfold InRegion
  infer_instance

/-- The pages of all regions. -/
def regionPages (p : Pmm) : Finset ℕ :=
  (Finset.range (physEnd / pageSize)).filter p.InRegion

/-- The allocator on the platform, while regions are added and pages are allocated and
freed. -/
structure PlatMem (p : Pmm) : Prop where
  zoneList : p.zoneList = [2, 1, 0]
  high : (p.staticZones 0).base = uint32Max ∧ (p.staticZones 0).endAddr = 2 ^ 64 - 1
  low : (p.staticZones 1).base = 1048576 ∧ (p.staticZones 1).endAddr = uint32Max
  first : (p.staticZones 2).base = 0 ∧ (p.staticZones 2).endAddr = 1048576
  validate : ∀ z < 3, zoneValidate (p.staticZones z) = true
  total : p.totalPagecnt = p.regionPages.card
  usable : p.usablePagecnt ≤ p.totalPagecnt
  free : p.freePagecnt ≤ p.usablePagecnt

/-- The zone that an address belongs to. -/
def platZone (addr : ℕ) : ℕ :=
  if addr < 1048576 then 2 else if addr < uint32Max then 1 else 0

theorem PlatMem.lookupZone (h : PlatMem p) {addr : ℕ} (ha : addr < physEnd) :
    p.lookupZone addr = some (platZone addr) := by
  have hmax : uint32Max = 4294967295 := rfl
  have hphys : physEnd = 4503599627370496 := rfl
  rw [Pmm.lookupZone, h.zoneList, platZone]
  simp only [List.find?_cons, List.find?_nil, h.first, h.low, h.high]
  split_ifs with h1 h2
  · simp [h1]
  · simp [h1, h2, Nat.not_lt.mp h1]
  · have h3 : uint32Max ≤ addr := Nat.not_lt.mp h2
    have h4 : addr < 18446744073709551615 := by omega
    simp [h1, h2, h3, h4]

theorem platZone_lt (addr : ℕ) : platZone addr < 3 := by
  rw [platZone]
  split_ifs <;> decide

theorem regionPages_of_nil (h : p.regionList = []) : p.regionPages = ∅ := by
  refine Finset.filter_false_of_mem ?_
  rintro x - ⟨r, hr, -⟩
  rw [h] at hr
  cases hr

/-- **`plat_mem_init`** sets the zones up. -/
theorem platMem_boot : ∃ p, bootZones platZones Pmm.empty = .ok p ∧ PlatMem p ∧
    p.regionList = [] := by
  refine ⟨_, rfl, ⟨rfl, ⟨rfl, rfl⟩, ⟨rfl, rfl⟩, ⟨rfl, rfl⟩, by decide, ?_, le_rfl, le_rfl⟩, rfl⟩
  exact (Finset.card_eq_zero.mpr (regionPages_of_nil rfl)).symm

/-! ## Adding a region soundly -/

/-- What `pmm_add_region` is for: nothing outside the region is written, the counters
grow by its pages, and its free pages are cut into aligned blocks that wait in the zone
they belong to. -/
structure AddsRegion (p q : Pmm) (base endAddr n u : ℕ) : Prop where
  /-- the descriptor with the pages that are set up lies inside the region -/
  inside : base + sizeofRegion + sizeofPage * max n u ≤ endAddr
  outside : ∀ x, ¬ (base ≤ x * pageSize ∧ x * pageSize < endAddr) → q.pages x = p.pages x
  used_le : u ≤ n
  total : q.totalPagecnt = p.totalPagecnt + n
  usable : q.usablePagecnt = p.usablePagecnt + (n - u)
  free : q.freePagecnt = p.freePagecnt + (n - u)
  queued : ∃ z < 3, ∃ bs : List Block,
    (∀ x, cover (bs : Multiset Block) x =
      if base + u * pageSize ≤ x * pageSize ∧ x * pageSize < endAddr then 1 else 0) ∧
    (∀ b ∈ bs, b.Aligned ∧ b.order < buddyOrders) ∧
    (∀ k, (q.staticZones z).orders k = (p.staticZones z).orders k ++ pagesOf bs k) ∧
    (∀ k, (q.staticZones z).npages k =
      (p.staticZones z).npages k + (pagesOf bs k).length) ∧
    (∀ a, a ≠ z → q.staticZones a = p.staticZones a) ∧
    ∀ b ∈ bs, q.lookupZone (b.page * pageSize) = some z

/-- `pmm_add_region` runs through and adds the region. -/
def SoundFor (p : Pmm) (base endAddr : ℕ) : Prop :=
  ∃ q, p.pmmAddRegion base endAddr = .ok q ∧
    AddsRegion p q base endAddr ((endAddr - base) / pageSize)
      (pagecntUsed ((endAddr - base) / pageSize))

/-- A region that the callers can pass: page-aligned, below or above 4 GiB, and apart
from the regions that are there. -/
structure CallerRegion (p : Pmm) (base endAddr : ℕ) : Prop where
  base_aligned : base % pageSize = 0
  end_aligned : endAddr % pageSize = 0
  le : base ≤ endAddr
  phys : endAddr ≤ physEnd
  side : endAddr ≤ 2 ^ 32 ∨ 2 ^ 32 ≤ base
  apart : ∀ r ∈ p.regionList, endAddr ≤ r.base ∨ r.endAddr ≤ base

/-- The regions that are added soundly. -/
def GoodRegion (base endAddr : ℕ) : Prop :=
  base < endAddr ∧ endAddr ≠ 2 ^ 32 ∧ ¬ (base < 1048576 ∧ 1048576 < endAddr)

/-! ## The counters -/

theorem CallerRegion.pages (hc : CallerRegion p base endAddr) :
    ∃ B E, base = B * pageSize ∧ endAddr = E * pageSize ∧ B ≤ E ∧
      (endAddr - base) / pageSize = E - B := by
  have hps := pageSize_pos
  have hb := Nat.div_mul_cancel (Nat.dvd_of_mod_eq_zero hc.base_aligned)
  have he := Nat.div_mul_cancel (Nat.dvd_of_mod_eq_zero hc.end_aligned)
  refine ⟨base / pageSize, endAddr / pageSize, hb.symm, he.symm,
    Nat.div_le_div_right hc.le, ?_⟩
  conv_lhs => rw [← hb, ← he, ← Nat.sub_mul, Nat.mul_div_cancel _ hps]

/-- The page numbers of a new region. -/
def newPages (base endAddr : ℕ) : Finset ℕ := Finset.Ico (base / pageSize) (endAddr / pageSize)

theorem CallerRegion.card_newPages (hc : CallerRegion p base endAddr) :
    (newPages base endAddr).card = (endAddr - base) / pageSize := by
  obtain ⟨B, E, hB, hE, -, hn⟩ := hc.pages
  rw [hn, newPages, hB, hE, Nat.mul_div_cancel _ pageSize_pos, Nat.mul_div_cancel _ pageSize_pos,
    Nat.card_Ico]

theorem CallerRegion.disjoint (hc : CallerRegion p base endAddr) :
    Disjoint p.regionPages (newPages base endAddr) := by
  obtain ⟨B, E, hB, hE, -, -⟩ := hc.pages
  have hps := pageSize_pos
  rw [Finset.disjoint_left]
  intro x hx hin
  obtain ⟨-, r, hr, hrb, hre⟩ := Finset.mem_filter.mp hx
  rw [newPages, hB, hE, Nat.mul_div_cancel _ hps, Nat.mul_div_cancel _ hps] at hin
  obtain ⟨h1, h2⟩ := Finset.mem_Ico.mp hin
  have h3 := Nat.mul_le_mul_right pageSize h1
  have h4 := Nat.mul_lt_mul_of_pos_right h2 hps
  rcases hc.apart r hr with hr' | hr' <;> omega

theorem regionPages_insert (hc : CallerRegion p base endAddr)
    (hlist : q.regionList = insertSorted Region.base ⟨base, endAddr⟩ p.regionList) :
    q.regionPages = p.regionPages ∪ newPages base endAddr := by
  obtain ⟨B, E, hB, hE, hBE, hn⟩ := hc.pages
  have hps := pageSize_pos
  have hphys := Nat.div_le_div_right (c := pageSize) hc.phys
  rw [hE, Nat.mul_div_cancel _ hps] at hphys
  ext x
  rw [newPages, hB, hE, Nat.mul_div_cancel _ hps, Nat.mul_div_cancel _ hps]
  simp only [regionPages, InRegion, hlist, mem_insertSorted, Finset.mem_union, Finset.mem_filter,
    Finset.mem_range, Finset.mem_Ico]
  constructor
  · rintro ⟨hx, r, rfl | hr, hrb, hre⟩
    · right
      rw [hB] at hrb
      rw [hE] at hre
      exact ⟨Nat.le_of_mul_le_mul_right hrb hps, Nat.lt_of_mul_lt_mul_right hre⟩
    · exact Or.inl ⟨hx, r, hr, hrb, hre⟩
  · rintro (⟨hx, r, hr, hrb, hre⟩ | ⟨hbx, hxe⟩)
    · exact ⟨hx, r, Or.inr hr, hrb, hre⟩
    · refine ⟨hxe.trans_le hphys, ⟨base, endAddr⟩, Or.inl rfl, ?_, ?_⟩
      · simp only [hB]
        exact Nat.mul_le_mul_right pageSize hbx
      · simp only [hE]
        exact Nat.mul_lt_mul_of_pos_right hxe hps

theorem PlatMem.total_add_le (h : PlatMem p) (hc : CallerRegion p base endAddr) :
    p.totalPagecnt + (endAddr - base) / pageSize ≤ physEnd / pageSize := by
  have hphys := Nat.div_le_div_right (c := pageSize) hc.phys
  rw [h.total, ← hc.card_newPages, ← Finset.card_union_of_disjoint hc.disjoint]
  refine (Finset.card_le_card (Finset.union_subset (Finset.filter_subset _ _) ?_)).trans
    (Finset.card_range _).le
  intro x hx
  exact Finset.mem_range.mpr ((Finset.mem_Ico.mp hx).2.trans_le hphys)

/-! ## Good regions are added soundly -/

theorem CallerRegion.not_crossing (hc : CallerRegion p base endAddr) (hlt : base < endAddr) :
    ((uint32Max < base ∧ uint32Max < endAddr) ∨ (base < uint32Max ∧ endAddr < uint32Max)) ↔
      endAddr ≠ 2 ^ 32 := by
  have hb := hc.base_aligned
  have he := hc.end_aligned
  have hside := hc.side
  have hps : pageSize = 4096 := rfl
  rw [hps] at hb he
  have hmax : uint32Max = 4294967295 := rfl
  omega

theorem CallerRegion.run (hc : CallerRegion p base endAddr) (h : PlatMem p)
    (hlt : base < endAddr) (h4G : endAddr ≠ 2 ^ 32) :
    ∃ q, p.pmmAddRegion base endAddr = .ok q ∧
      Queued (p.initRegion base endAddr) q (platZone base) (newBlocks base endAddr) := by
  obtain ⟨B, E, hB, hE, hBE, hn⟩ := hc.pages
  have hBE' : B < E := Nat.lt_of_mul_lt_mul_right (hB ▸ hE ▸ hlt)
  have hqueued := queued_foldl (platZone base) (newBlocks base endAddr)
    (p.initRegion base endAddr)
  have hval := h.validate _ (platZone_lt base)
  have hval' := hqueued.zoneValidate hval
  have hu := (pagecntUsed_bounds (n := E - B) (by omega)).2
  have hsmall : E - B < 2 ^ 64 := by
    have hps : pageSize = 4096 := rfl
    have hphys := hc.phys
    rw [hE, hps, physEnd] at hphys
    omega
  refine ⟨_, ?_, hqueued⟩
  rw [pmmAddRegion, if_neg (by simp [hc.base_aligned, hc.end_aligned]),
    if_neg (not_not.mpr ((hc.not_crossing hlt).mpr h4G)),
    h.lookupZone (hlt.trans_le hc.phys)]
  simp only [hval, hn, subSize_eq hu hsmall, Bool.true_eq_false, if_false]
  split_ifs with h0 h1
  · rw [newBlocks_eq_nil hB hE hBE' hc.phys (by omega)]
    rfl
  · rw [hval'] at h1
    cases h1
  · rfl

theorem GoodRegion.platZone_eq (hg : GoodRegion base endAddr) (hc : CallerRegion p base endAddr)
    {a : ℕ} (hba : base ≤ a) (hae : a < endAddr) : platZone a = platZone base := by
  obtain ⟨hlt, h4G, hmb⟩ := hg
  have h4G' := (hc.not_crossing hlt).mpr h4G
  rw [platZone, platZone]
  split_ifs <;> omega

/-- **Good regions.** -/
theorem GoodRegion.sound (hg : GoodRegion base endAddr) (hc : CallerRegion p base endAddr)
    (h : PlatMem p) : SoundFor p base endAddr := by
  have hlt := hg.1
  obtain ⟨q, hq, hqueued⟩ := hc.run h hlt hg.2.1
  obtain ⟨B, E, hB, hE, hBE, hn⟩ := hc.pages
  have hBE' : B < E := Nat.lt_of_mul_lt_mul_right (hB ▸ hE ▸ hlt)
  obtain ⟨hu1, hu2⟩ := pagecntUsed_bounds (n := E - B) (by omega)
  obtain ⟨hstart, hcov, hal⟩ := newBlocks_tile hB hE hBE' hc.phys
  have htotal := h.total_add_le hc
  have husable := h.usable
  have hfree := h.free
  have hps : pageSize = 4096 := rfl
  have hend : physEnd / pageSize = 2 ^ 40 := rfl
  rw [hend, hn] at htotal
  have hsub := subSize_eq hu2 (by omega)
  refine ⟨q, hq, ?_⟩
  rw [hn]
  refine ⟨?_, ?_, hu2, ?_, ?_, ?_, platZone base, platZone_lt base, newBlocks base endAddr,
    ?_, hal, hqueued.orders, hqueued.npages, hqueued.others, ?_⟩
  · rw [max_eq_left hu2, hB, hE, sizeofRegion, sizeofPage, hps]
    omega
  · intro x hx
    rw [hqueued.pages x]
    · simp only [initRegion, hn]
      rw [hB, Nat.mul_div_cancel _ pageSize_pos]
      rw [hB, hE, hps] at hx
      rw [if_neg (by omega), if_neg (by omega)]
    · intro b hb hbx
      have hpos := cover_pos_iff.mpr ⟨b, Multiset.mem_coe.mpr hb, hbx⟩
      rw [hcov] at hpos
      rw [hB, hE, hps] at hx
      split_ifs at hpos <;> omega
  · rw [hqueued.total]
    simp only [initRegion, hn]
    exact Nat.mod_eq_of_lt (by omega)
  · rw [hqueued.usable]
    simp only [initRegion, hn, hsub]
    exact Nat.mod_eq_of_lt (by omega)
  · rw [hqueued.free]
    simp only [initRegion, hn, hsub]
    exact Nat.mod_eq_of_lt (by omega)
  · intro x
    rw [hcov, hB, hE, hps]
    exact if_congr (by omega) rfl rfl
  · intro b hb
    have hpos := cover_pos_iff.mpr ⟨b, Multiset.mem_coe.mpr hb, b.covers_page⟩
    have hin : base ≤ b.page * pageSize ∧ b.page * pageSize < endAddr := by
      rw [hcov] at hpos
      rw [hB, hE, hps]
      split_ifs at hpos <;> omega
    rw [hqueued.layout.lookupZone, ← hg.platZone_eq hc hin.1 hin.2]
    exact h.lookupZone (hin.2.trans_le hc.phys)


theorem PlatMem.addRegion (h : PlatMem p) (hc : CallerRegion p base endAddr)
    (hg : GoodRegion base endAddr) (hq : p.pmmAddRegion base endAddr = .ok q) : PlatMem q := by
  obtain ⟨q', hq', hqueued⟩ := hc.run h hg.1 hg.2.1
  obtain ⟨q'', hq'', hadds⟩ := hg.sound hc h
  rw [hq] at hq' hq''
  cases hq'
  cases hq''
  have hlay := hqueued.layout
  have husable := h.usable
  have hfree := h.free
  have hused := hadds.used_le
  refine ⟨hlay.zoneList.trans h.zoneList, ?_, ?_, ?_, ?_, ?_, ?_, ?_⟩
  · exact ⟨(hlay.base 0).trans h.high.1, (hlay.endAddr 0).trans h.high.2⟩
  · exact ⟨(hlay.base 1).trans h.low.1, (hlay.endAddr 1).trans h.low.2⟩
  · exact ⟨(hlay.base 2).trans h.first.1, (hlay.endAddr 2).trans h.first.2⟩
  · intro z hz
    by_cases hzone : z = platZone base
    · rw [hzone]
      exact hqueued.zoneValidate (h.validate _ (platZone_lt base))
    · rw [hqueued.others z hzone]
      exact h.validate z hz
  · rw [hadds.total, regionPages_insert hc (pmmAddRegion_regionList hq).2.2,
      Finset.card_union_of_disjoint hc.disjoint, hc.card_newPages, h.total]
  · rw [hadds.usable, hadds.total]
    omega
  · rw [hadds.free, hadds.usable]
    omega

/-- **The memory map.**  Entries that are good and apart are all added soundly. -/
theorem PlatMem.addRegions {rs : List Region} (h : PlatMem p)
    (hgood : ∀ r ∈ rs, GoodRegion r.base r.endAddr ∧ CallerRegion p r.base r.endAddr)
    (hapart : rs.Pairwise (fun r s => r.endAddr ≤ s.base ∨ s.endAddr ≤ r.base)) :
    ∃ q, addRegions rs p = .ok q ∧ PlatMem q := by
  induction rs generalizing p with
  | nil => exact ⟨p, rfl, h⟩
  | cons r rs ih =>
    obtain ⟨hfirst, hrest⟩ := List.pairwise_cons.mp hapart
    obtain ⟨hg, hc⟩ := hgood r List.mem_cons_self
    obtain ⟨p₁, hadd, -⟩ := hg.sound hc h
    have hlist := (pmmAddRegion_regionList hadd).2.2
    obtain ⟨q, hq, hplat⟩ := ih (h.addRegion hc hg hadd) (fun s hs => by
      obtain ⟨hgs, hcs⟩ := hgood s (List.mem_cons_of_mem _ hs)
      refine ⟨hgs, { hcs with apart := fun t ht => ?_ }⟩
      rw [hlist] at ht
      rcases mem_insertSorted.mp ht with rfl | ht
      · exact (hfirst s hs).symm
      · exact hcs.apart t ht) hrest
    refine ⟨q, ?_, hplat⟩
    rw [Pmm.addRegions, List.foldlM_cons, hadd]
    exact hq

/-! ## The other regions -/

theorem page_of_covers (hal : b.Aligned) (hord : b.order < buddyOrders) (hx : b.Covers x)
    (hmb : 256 ≤ x) : 256 ≤ b.page := by
  by_contra hlt
  have hsix : b.order ≤ 6 := Nat.le_of_lt_succ hord
  have hdvd : 2 ^ b.order ∣ 256 := pow_dvd_pow 2 (hsix.trans (by decide) : b.order ≤ 8)
  have hle := Block.add_le_of_dvd_of_lt hal hdvd (Nat.not_le.mp hlt)
  have hend := hx.2
  omega

/-- **A region across the first MiB.**  Its last block waits in the zone of the first
MiB, but does not belong there. -/
theorem not_sound_across (h : PlatMem p) (hc : CallerRegion p base endAddr)
    (hmb : base < 1048576 ∧ 1048576 < endAddr) (h4G : endAddr ≠ 2 ^ 32) :
    ¬ SoundFor p base endAddr := by
  rintro ⟨q, hq, hadds⟩
  have hlt : base < endAddr := hmb.1.trans hmb.2
  obtain ⟨q', hq', hqueued⟩ := hc.run h hlt h4G
  rw [hq] at hq'
  cases hq'
  obtain ⟨B, E, hB, hE, hBE, hn⟩ := hc.pages
  rw [hn] at hadds
  obtain ⟨z, -, bs, hcov, hal, horders, -, hothers, hlookup⟩ := hadds.queued
  have hps : pageSize = 4096 := rfl
  have hBlt : B < 256 := by
    rw [hB, hps] at hmb
    omega
  have hElt : 256 < E := by
    rw [hE, hps] at hmb
    omega
  have hu : pagecntUsed (E - B) < E - B := by
    simp only [pagecntUsed, alignUp, sizeofRegion, sizeofPage, hps]
    rw [Nat.mul_div_cancel _ (by decide)]
    omega
  have hzone : platZone base = 2 := if_pos hmb.1
  by_cases hz : z = 2
  · -- the last page
    have hcovers := hcov (E - 1)
    rw [if_pos (by rw [hB, hE, hps]; omega)] at hcovers
    obtain ⟨b, hb, hbx⟩ := cover_pos_iff.mp (hcovers ▸ Nat.one_pos)
    have hpage := page_of_covers (hal b hb).1 (hal b hb).2 hbx (by omega)
    have hphys : b.page * pageSize < physEnd := by
      have hbE := hbx.1
      have hend := hc.phys
      rw [hE, hps] at hend
      rw [hps]
      omega
    have hfound := hlookup b hb
    rw [hqueued.layout.lookupZone, show (p.initRegion base endAddr).lookupZone _ = _ from
      h.lookupZone hphys, hz] at hfound
    have hval := Option.some.inj hfound
    rw [platZone, hps, if_neg (by omega)] at hval
    split_ifs at hval
    exact absurd hval (by decide)
  · obtain ⟨-, hcov', -⟩ := newBlocks_tile hB hE (by omega) hc.phys
    have hcovers := hcov' (E - 1)
    rw [if_pos (by omega)] at hcovers
    obtain ⟨b, hb, -⟩ := cover_pos_iff.mp (hcovers ▸ Nat.one_pos)
    have hlists := hqueued.orders b.order
    rw [hzone, hothers 2 (Ne.symm hz)] at hlists
    have hnil : pagesOf (newBlocks base endAddr) b.order = [] :=
      List.self_eq_append_right.mp hlists
    have hmem : b.page ∈ pagesOf (newBlocks base endAddr) b.order :=
      List.mem_map.mpr ⟨b, List.mem_filter.mpr ⟨Multiset.mem_coe.mp hb, by simp⟩, rfl⟩
    rw [hnil] at hmem
    exact List.not_mem_nil hmem

/-- **`pmm_add_region`** is sound for the good regions and no others. -/
theorem soundFor_iff (h : PlatMem p) (hc : CallerRegion p base endAddr) :
    SoundFor p base endAddr ↔ GoodRegion base endAddr := by
  refine ⟨fun hsound => ?_, fun hg => hg.sound hc h⟩
  have hlt : base < endAddr := by
    refine lt_of_le_of_ne hc.le fun heq => ?_
    obtain ⟨q, -, hadds⟩ := hsound
    have hused := hadds.used_le
    rw [heq, Nat.sub_self] at hused
    exact absurd hused (by decide)
  have h4G : endAddr ≠ 2 ^ 32 := by
    intro heq
    obtain ⟨q, hq, -⟩ := hsound
    rw [pmmAddRegion, if_neg (by simp [hc.base_aligned, hc.end_aligned]),
      if_pos (fun hno => (hc.not_crossing hlt).mp hno heq)] at hq
    cases hq
  exact ⟨hlt, h4G, fun hmb => not_sound_across h hc hmb h4G hsound⟩

/-- Four pages above the first MiB. -/
theorem soundFor_low : ∃ p, bootZones platZones Pmm.empty = .ok p ∧
    SoundFor p 0x100000 0x104000 := by
  obtain ⟨p, hboot, hplat, hnil⟩ := platMem_boot
  refine ⟨p, hboot, (soundFor_iff hplat ⟨by decide, by decide, by decide, by decide, by decide,
    ?_⟩).mpr (by unfold GoodRegion; decide)⟩
  rw [hnil]
  exact fun r hr => absurd hr List.not_mem_nil

/-- The last pages below 4 GiB. -/
theorem not_soundFor_4G : ∃ p, bootZones platZones Pmm.empty = .ok p ∧
    CallerRegion p 0xffff0000 0x100000000 ∧ ¬ SoundFor p 0xffff0000 0x100000000 := by
  obtain ⟨p, hboot, hplat, hnil⟩ := platMem_boot
  have hc : CallerRegion p 0xffff0000 0x100000000 := by
    refine ⟨by decide, by decide, by decide, by decide, by decide, ?_⟩
    rw [hnil]
    exact fun r hr => absurd hr List.not_mem_nil
  refine ⟨p, hboot, hc, ?_⟩
  rintro ⟨q, hq, -⟩
  rw [pmmAddRegion, if_neg (by decide), if_pos (by decide)] at hq
  cases hq

end Pmm
