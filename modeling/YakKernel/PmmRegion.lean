/-
# Adding memory to the page allocator

`pmm_zone_init` and `pmm_add_region`: the blocks a region is cut into tile its usable
pages, and adding a region that is disjoint from the others and inside one zone keeps
the invariant of the allocator.
-/
import YakKernel.PmmInvariant

namespace Pmm

open Buddy

variable {p q : Pmm} {z k x : ℕ} {I U H : Multiset Block} {b c i : Block} {P : ℕ → Prop}
variable {base endAddr : ℕ}

theorem pageSize_pos : 0 < pageSize := Nat.two_pow_pos _

theorem blockSize_eq (k : ℕ) : blockSize k = 2 ^ k * pageSize := by
  rw [blockSize, pageSize, ← pow_add, Nat.add_comm]

/-! ## Cutting a region into blocks -/

/-- The order found by the loop fits at the address: it divides it and stays inside the
region. -/
theorem maxOrderLoop_fits (addr : ℕ) (hphys : endAddr ≤ physEnd) :
    ∀ (n m : ℕ), m + n = buddyOrders - 1 → addr % blockSize m = 0 →
      addr + blockSize m ≤ endAddr →
      addr % blockSize (maxOrderLoop endAddr addr n m) = 0 ∧
        addr + blockSize (maxOrderLoop endAddr addr n m) ≤ endAddr ∧
        maxOrderLoop endAddr addr n m < buddyOrders := by
  intro n
  induction n with
  | zero =>
    intro m hm hdiv hle
    exact ⟨hdiv, hle, by simp only [maxOrderLoop, buddyOrders] at *; omega⟩
  | succ n ih =>
    intro m hm hdiv hle
    rw [maxOrderLoop]
    split_ifs with hcond
    · refine ih (m + 1) (by omega) hcond.2 ?_
      have hblock : blockSize (m + 1) ≤ 2 ^ 18 :=
        Nat.pow_le_pow_right (by decide) (by simp only [pageShift, buddyOrders] at *; omega)
      have hnowrap : (addr + blockSize (m + 1)) % 2 ^ 64 = addr + blockSize (m + 1) :=
        Nat.mod_eq_of_lt (by simp only [physEnd] at *; omega)
      omega
    · exact ⟨hdiv, hle, by simp only [buddyOrders] at *; omega⟩

/-- **The blocks of a region.**  They are aligned, and hold each page from the start to
the end once. -/
theorem regionBlocks_tile {e : ℕ} (hphys : e * pageSize ≤ physEnd) :
    ∀ (n s : ℕ), s ≤ e → e - s ≤ n →
      (∀ x, cover (regionBlocks (e * pageSize) n (s * pageSize) : List Block) x =
        if s ≤ x ∧ x < e then 1 else 0) ∧
      ∀ b ∈ regionBlocks (e * pageSize) n (s * pageSize), b.Aligned ∧ b.order < buddyOrders := by
  intro n
  induction n with
  | zero =>
    intro s hs hn
    refine ⟨fun x => ?_, by simp [regionBlocks]⟩
    rw [if_neg (by omega)]
    rfl
  | succ n ih =>
    intro s hs hn
    have hpos := pageSize_pos
    rw [regionBlocks]
    by_cases hlt : s < e
    · have hlt' : s * pageSize < e * pageSize := Nat.mul_lt_mul_of_pos_right hlt hpos
      obtain ⟨hdiv, hle, hord⟩ := maxOrderLoop_fits (s * pageSize) hphys
        (buddyOrders - 1) 0 (Nat.zero_add _) (by simp [blockSize_eq])
        (by rw [blockSize_eq]
            have := Nat.mul_le_mul_right pageSize (show s + 1 ≤ e from hlt)
            rw [Nat.add_mul] at this
            simpa using this)
      rw [if_pos hlt']
      simp only
      generalize maxOrderLoop (e * pageSize) (s * pageSize) (buddyOrders - 1) 0 = m at *
      rw [blockSize_eq] at hdiv hle
      have hdvd : 2 ^ m ∣ s := Nat.dvd_of_mul_dvd_mul_right hpos (Nat.dvd_of_mod_eq_zero hdiv)
      have hle' : s + 2 ^ m ≤ e := by
        rw [← Nat.add_mul] at hle
        exact Nat.le_of_mul_le_mul_right hle hpos
      have hpow := Nat.two_pow_pos m
      obtain ⟨hcov, hal⟩ := ih (s + 2 ^ m) hle' (by omega)
      rw [blockSize_eq, ← Nat.add_mul, Nat.mul_div_cancel _ hpos]
      refine ⟨fun x => ?_, fun b hb => ?_⟩
      · rw [← Multiset.cons_coe, cover_cons, hcov]
        have hblock : Block.Covers ⟨s, m⟩ x ↔ s ≤ x ∧ x < s + 2 ^ m := Iff.rfl
        rcases Nat.lt_or_ge x (s + 2 ^ m) with hx | hx
        · rw [if_neg (show ¬ (s + 2 ^ m ≤ x ∧ x < e) by omega), Nat.zero_add]
          exact if_congr (hblock.trans (by omega)) rfl rfl
        · rw [if_neg (fun hc => absurd (hblock.mp hc).2 (Nat.not_lt.mpr hx)), Nat.add_zero]
          exact if_congr (by omega) rfl rfl
      · rcases List.mem_cons.mp hb with rfl | hb
        · exact ⟨hdvd, hord⟩
        · exact hal b hb
    · have hge : ¬ s * pageSize < e * pageSize :=
        fun h => hlt (Nat.lt_of_mul_lt_mul_right h)
      rw [if_neg hge]
      refine ⟨fun x => ?_, by simp⟩
      rw [if_neg (by omega)]
      rfl

/-- The descriptor takes at least one page of a region and never more than there are. -/
theorem pagecntUsed_bounds {n : ℕ} (hn : 0 < n) : 1 ≤ pagecntUsed n ∧ pagecntUsed n ≤ n := by
  have hps : pageSize = 4096 := rfl
  simp only [pagecntUsed, alignUp, sizeofRegion, sizeofPage, hps]
  rw [Nat.mul_div_cancel _ (by decide)]
  omega

theorem subSize_eq {n u : ℕ} (hu : u ≤ n) (hn : n < 2 ^ 64) : subSize n u = n - u := by
  rw [subSize]
  omega

/-- **The blocks of a new region**, in page numbers. -/
theorem newBlocks_tile {B E : ℕ} (hb : base = B * pageSize) (he : endAddr = E * pageSize)
    (hlt : B < E) (hphys : endAddr ≤ physEnd) :
    usableStart base endAddr = (B + pagecntUsed (E - B)) * pageSize ∧
      (∀ x, cover (newBlocks base endAddr : Multiset Block) x =
        if B + pagecntUsed (E - B) ≤ x ∧ x < E then 1 else 0) ∧
      ∀ b ∈ newBlocks base endAddr, b.Aligned ∧ b.order < buddyOrders := by
  have hps := pageSize_pos
  have hu := (pagecntUsed_bounds (n := E - B) (by omega)).2
  have htotal : (endAddr - base) / pageSize = E - B := by
    rw [hb, he, ← Nat.sub_mul, Nat.mul_div_cancel _ hps]
  have hstart : usableStart base endAddr = (B + pagecntUsed (E - B)) * pageSize := by
    rw [usableStart, htotal, hb, Nat.add_mul]
  have hblocks : newBlocks base endAddr =
      regionBlocks (E * pageSize) E ((B + pagecntUsed (E - B)) * pageSize) := by
    rw [newBlocks, hstart, he, Nat.mul_div_cancel _ hps]
  rw [hblocks]
  exact ⟨hstart, regionBlocks_tile (he ▸ hphys) E (B + pagecntUsed (E - B)) (by omega) (by omega)⟩

theorem newBlocks_eq_nil {B E : ℕ} (hb : base = B * pageSize) (he : endAddr = E * pageSize)
    (hlt : B < E) (hphys : endAddr ≤ physEnd) (hu : B + pagecntUsed (E - B) = E) :
    newBlocks base endAddr = [] := by
  refine List.eq_nil_iff_forall_not_mem.mpr fun b hmem => ?_
  obtain ⟨-, hcov, -⟩ := newBlocks_tile hb he hlt hphys
  have hx := cover_pos_iff.mpr ⟨b, Multiset.mem_coe.mpr hmem, b.covers_page⟩
  rw [hcov, if_neg (by omega)] at hx
  exact absurd hx (Nat.lt_irrefl 0)

/-- The page `x` lies in a region, behind its descriptor. -/
def Usable (p : Pmm) (x : ℕ) : Prop :=
  ∃ r ∈ p.regionList, usableStart r.base r.endAddr ≤ x * pageSize ∧ x * pageSize < r.endAddr

/-- A region that `pmm_add_region` may be called with: page-aligned and not empty,
disjoint from the others and inside one zone. -/
def NewRegion (p : Pmm) (base endAddr : ℕ) : Prop :=
  base < endAddr ∧ endAddr ≤ physEnd ∧ base % pageSize = 0 ∧ endAddr % pageSize = 0 ∧
    (∀ r ∈ p.regionList, endAddr ≤ r.base ∨ r.endAddr ≤ base) ∧
    ∃ z ∈ p.zoneList, (p.staticZones z).base ≤ base ∧ endAddr ≤ (p.staticZones z).endAddr

instance (p : Pmm) (base endAddr : ℕ) : Decidable (p.NewRegion base endAddr) := by
  unfold NewRegion
  infer_instance

/-- The zones and the regions are disjoint, and the initial blocks are the usable pages. -/
structure Memory (p : Pmm) (I : Multiset Block) : Prop where
  zones_disjoint : ∀ a ∈ p.zoneList, ∀ z ∈ p.zoneList, a ≠ z →
    (p.staticZones a).endAddr ≤ (p.staticZones z).base ∨
    (p.staticZones z).endAddr ≤ (p.staticZones a).base
  regions_aligned : ∀ r ∈ p.regionList, r.base < r.endAddr ∧
    r.base % pageSize = 0 ∧ r.endAddr % pageSize = 0
  regions_disjoint : ∀ r ∈ p.regionList, ∀ s ∈ p.regionList, r ≠ s →
    r.endAddr ≤ s.base ∨ s.endAddr ≤ r.base
  regions_phys : ∀ r ∈ p.regionList, r.endAddr ≤ physEnd
  usable : ∀ x, 0 < cover I x ↔ p.Usable x

theorem Memory.congr (h : Memory p I) (hs : SameLayout p q) : Memory q I where
  zones_disjoint := by
    rw [hs.zoneList]
    intro a ha z hz haz
    rw [hs.base, hs.base, hs.endAddr, hs.endAddr]
    exact h.zones_disjoint a ha z hz haz
  regions_aligned := hs.regionList ▸ h.regions_aligned
  regions_disjoint := hs.regionList ▸ h.regions_disjoint
  regions_phys := hs.regionList ▸ h.regions_phys
  usable := fun x => by rw [h.usable, Usable, Usable, hs.regionList]

theorem base_lt_usableStart (hlt : base < endAddr) (hb : base % pageSize = 0)
    (he : endAddr % pageSize = 0) :
    base < usableStart base endAddr ∧ usableStart base endAddr ≤ endAddr := by
  have hps : pageSize = 4096 := rfl
  have hn : 0 < (endAddr - base) / pageSize := by
    rw [hps] at hb he ⊢
    omega
  obtain ⟨h1, h2⟩ := pagecntUsed_bounds hn
  have h3 := Nat.mul_le_mul_right pageSize h1
  have h4 := Nat.mul_le_mul_right pageSize h2
  have h5 := Nat.div_mul_le_self (endAddr - base) pageSize
  rw [usableStart]
  omega

/-- **Lookups.**  A usable page of a region is found in that region, although the end of
a region counts as inside. -/
theorem lookup_of_usable
    (hal : ∀ r ∈ p.regionList, r.base < r.endAddr ∧ r.base % pageSize = 0 ∧
      r.endAddr % pageSize = 0)
    (hdisj : ∀ r ∈ p.regionList, ∀ s ∈ p.regionList, r ≠ s →
      r.endAddr ≤ s.base ∨ s.endAddr ≤ r.base)
    (hx : p.Usable x) : p.pmmLookupPage (x * pageSize) = some x := by
  obtain ⟨r, hr, hstart, hend⟩ := hx
  obtain ⟨hlt, hb, he⟩ := hal r hr
  have hbase := (base_lt_usableStart hlt hb he).1
  have hfind : p.lookupRegion (x * pageSize) = some r := by
    cases hf : p.lookupRegion (x * pageSize) with
    | none =>
      have hnone := List.find?_eq_none.mp hf r hr
      simp only [decide_eq_true_eq, not_and, not_le] at hnone
      have := hnone (by omega)
      omega
    | some s =>
      have hs := List.mem_of_find?_eq_some hf
      have hin := List.find?_some hf
      simp only [decide_eq_true_eq] at hin
      by_contra hne
      have hrs : r ≠ s := fun heq => hne (by rw [heq])
      have := hdisj r hr s hs hrs
      have := (hal s hs).1
      omega
  rw [pmmLookupPage, hfind]
  simp only [Nat.mul_div_cancel _ pageSize_pos]
  rw [if_pos ((Nat.lt_div_iff_mul_lt' (Nat.dvd_of_mod_eq_zero he) x).mpr ?_)]
  rwa [Nat.mul_comm]

theorem lookupZone_of_disjoint
    (hdisj : ∀ a ∈ p.zoneList, ∀ z ∈ p.zoneList, a ≠ z →
      (p.staticZones a).endAddr ≤ (p.staticZones z).base ∨
      (p.staticZones z).endAddr ≤ (p.staticZones a).base)
    (hz : z ∈ p.zoneList) {addr : ℕ} (h1 : (p.staticZones z).base ≤ addr)
    (h2 : addr < (p.staticZones z).endAddr) : p.lookupZone addr = some z := by
  cases hf : p.lookupZone addr with
  | none =>
    have hnone := List.find?_eq_none.mp hf z hz
    simp only [decide_eq_true_eq, not_and, not_lt] at hnone
    have := hnone h1
    omega
  | some a =>
    have ha := List.mem_of_find?_eq_some hf
    have hin := List.find?_some hf
    simp only [decide_eq_true_eq] at hin
    by_contra hne
    have haz : a ≠ z := fun heq => hne (by rw [heq])
    have := hdisj a ha z hz haz
    omega

/-! ## Queueing the blocks -/

theorem Core.fresh (h : Core p I U H P) (hsame : SameLayout p q)
    (hzones : ∀ z, (q.staticZones z).orders = (p.staticZones z).orders ∧
      (q.staticZones z).npages = (p.staticZones z).npages)
    (hpages : q.pages = fun x => if b.Covers x then ⟨0, b.order, b.order⟩ else p.pages x)
    (hal : b.Aligned) (hord : b.order < buddyOrders) (hnew : ∀ x, b.Covers x → cover I x = 0)
    (hz : ∀ x, b.Covers x → p.lookupZone (x * pageSize) = some z)
    (hlook : ∀ x, b.Covers x → p.pmmLookupPage (x * pageSize) = some x) :
    Core q (I + {b}) U (b ::ₘ H) P := by
  have hfree : q.freeBlocks = p.freeBlocks := by
    simp only [freeBlocks, Zone.freeBlocks, hsame.zoneList, (hzones _).1]
  have hsingle : Tiling {b} {b} := by
    refine Tiling.refl (fun x => ?_) (fun i hi => Multiset.mem_singleton.mp hi ▸ hal)
    rw [cover_singleton]
    split_ifs <;> omega
  have ht := h.tiling.add hsingle (fun x => by
    by_cases hx : b.Covers x
    · exact Or.inl (hnew x hx)
    · exact Or.inr (by rw [cover_singleton, if_neg hx]))
  have hold : ∀ {c x}, c ∈ p.freeBlocks + (H + U) → c.Covers x → ¬ b.Covers x := by
    intro c x hc hcx hbx
    have h0 := hnew x hbx
    rw [← h.tiling.cover_eq, cover_eq_zero_iff] at h0
    exact h0 c hc hcx
  have hinit : ∀ {i x}, i ∈ I → i.Covers x → ¬ b.Covers x := fun hi hix hbx =>
    cover_eq_zero_iff.mp (hnew _ hbx) _ hi hix
  have hpage : ∀ {x}, ¬ b.Covers x → q.pages x = p.pages x := by
    intro x hx
    rw [hpages]
    exact if_neg hx
  have hpage' : ∀ {x}, b.Covers x → q.pages x = ⟨0, b.order, b.order⟩ := by
    intro x hx
    rw [hpages]
    exact if_pos hx
  refine ⟨⟨?_, ?_, ?_, ?_⟩, ?_, ?_, ?_, ?_, ?_, h.pending, ?_, ?_⟩
  · exact hsame.zoneList ▸ h.layout.zones_nodup
  · intro i hi
    rcases Multiset.mem_add.mp hi with hi | hi
    · exact h.layout.order_lt i hi
    · exact Multiset.mem_singleton.mp hi ▸ hord
  · intro i hi
    rcases Multiset.mem_add.mp hi with hi | hi
    · exact (h.layout.congr hsame).home i hi
    · rw [Multiset.mem_singleton.mp hi]
      exact ⟨z, fun x hx => by rw [hsame.lookupZone, hz x hx]⟩
  · intro i hi x hx
    rcases Multiset.mem_add.mp hi with hi | hi
    · exact (h.layout.congr hsame).lookup i hi x hx
    · rw [Multiset.mem_singleton.mp hi] at hx
      rw [hsame.pmmLookupPage, hlook x hx]
  · have hsum : p.freeBlocks + (b ::ₘ H + U) = p.freeBlocks + (H + U) + {b} := by
      rw [← Multiset.singleton_add]
      abel
    rw [hfree, hsum]
    exact ht
  · intro i hi x hx
    rcases Multiset.mem_add.mp hi with hi | hi
    · rw [hpage (hinit hi hx), h.maxOrder i hi x hx]
    · rw [Multiset.mem_singleton.mp hi] at hx ⊢
      rw [hpage' hx]
  · intro i hi x hx hU
    rcases Multiset.mem_add.mp hi with hi | hi
    · rw [hpage (hinit hi hx), h.idle i hi x hx hU]
    · rw [Multiset.mem_singleton.mp hi] at hx
      rw [hpage' hx]
  · intro a ha j hj y hy
    rw [hsame.zoneList] at ha
    rw [(hzones a).1] at hy
    have hyf : (⟨y, j⟩ : Block) ∈ p.freeBlocks := mem_freeBlocks.mpr ⟨a, ha, hj, hy⟩
    rw [hsame.lookupZone, hpage (hold (Multiset.mem_add.mpr (Or.inl hyf)) (Block.covers_page _))]
    exact h.queued a ha j hj y hy
  · intro c hc
    rw [hpage (hold (Multiset.mem_add.mpr (Or.inr (Multiset.mem_add.mpr (Or.inr hc))))
      c.covers_page)]
    exact h.held c hc
  · intro a ha j
    rw [hsame.zoneList] at ha
    rw [(hzones a).1, (hzones a).2, h.npages a ha]
  · intro c hc hlt
    rw [hfree] at hc ⊢
    rw [hpage (hold (Multiset.mem_add.mpr (Or.inl hc)) c.covers_page)] at hlt
    exact h.no_buddies c hc hlt

theorem sameLayout_addBlock (p : Pmm) (z : ℕ) (b : Block) : SameLayout p (addBlock z p b) := by
  refine ⟨rfl, rfl, fun a => ?_, fun a => ?_⟩ <;>
  · by_cases ha : a = z
    · subst ha
      simp [addBlock, insertTail, setOrder]
    · simp [addBlock, insertTail, setOrder, Function.update_of_ne ha]

theorem Core.addBlock (h : Core p I U 0 P) (hal : b.Aligned) (hord : b.order < buddyOrders)
    (hnew : ∀ x, b.Covers x → cover I x = 0)
    (hz : ∀ x, b.Covers x → p.lookupZone (x * pageSize) = some z)
    (hlook : ∀ x, b.Covers x → p.pmmLookupPage (x * pageSize) = some x) :
    Core (addBlock z p b) (I + {b}) U 0 P := by
  have hsame : SameLayout p { p with
      staticZones := Function.update p.staticZones z
        { p.staticZones z with maxZoneOrder := max (p.staticZones z).maxZoneOrder b.order }
      pages := fun x => if b.Covers x then ⟨0, b.order, b.order⟩ else p.pages x } := by
    refine ⟨rfl, rfl, fun a => ?_, fun a => ?_⟩ <;>
    · by_cases ha : a = z
      · subst ha
        simp
      · simp [Function.update_of_ne ha]
  have hfresh := h.fresh (b := b) (z := z) hsame (fun a => by
    by_cases ha : a = z
    · subst ha
      simp
    · simp [Function.update_of_ne ha]) rfl hal hord hnew hz hlook
  refine hfresh.insert (z := z) ?_ hord ?_ ?_ (List.perm_append_singleton _ _)
  · rw [hsame.lookupZone, hz _ b.covers_page]
  · simp [b.covers_page]
  · simp [b.covers_page]

theorem Core.addBlocks : ∀ (bs : List Block) {p : Pmm} {I : Multiset Block}, Core p I U 0 P →
    (∀ b ∈ bs, b.Aligned ∧ b.order < buddyOrders) →
    (∀ x, cover I x + cover (bs : Multiset Block) x ≤ 1) →
    (∀ b ∈ bs, ∀ x, b.Covers x → p.lookupZone (x * pageSize) = some z ∧
      p.pmmLookupPage (x * pageSize) = some x) →
    Core (bs.foldl (Pmm.addBlock z) p) (I + bs) U 0 P ∧
      SameLayout p (bs.foldl (Pmm.addBlock z) p) ∧
      (bs.foldl (Pmm.addBlock z) p).freePagecnt = p.freePagecnt := by
  intro bs
  induction bs with
  | nil =>
    intro p I h _ _ _
    exact ⟨by simpa using h, SameLayout.refl p, rfl⟩
  | cons b bs ih =>
    intro p I h hal hcov hlook
    simp only [← Multiset.cons_coe, cover_cons] at hcov
    have hstep := h.addBlock (z := z) (hal b List.mem_cons_self).1 (hal b List.mem_cons_self).2
      (fun x hx => by
        have := hcov x
        rw [if_pos hx] at this
        omega)
      (fun x hx => (hlook b List.mem_cons_self x hx).1)
      (fun x hx => (hlook b List.mem_cons_self x hx).2)
    have hlay := sameLayout_addBlock p z b
    obtain ⟨hcore, hlay', hcnt⟩ := ih hstep (fun c hc => hal c (List.mem_cons_of_mem _ hc))
      (fun x => by
        have := hcov x
        rw [cover_add, cover_singleton]
        omega)
      (fun c hc x hx => by
        rw [hlay.lookupZone, hlay.pmmLookupPage]
        exact hlook c (List.mem_cons_of_mem _ hc) x hx)
    refine ⟨?_, hlay.trans hlay', hcnt⟩
    rwa [← Multiset.cons_coe, ← Multiset.singleton_add, ← add_assoc]

/-! ## Adding a region -/

theorem mem_insertSorted {α : Type*} {key : α → ℕ} {a y : α} {l : List α} :
    y ∈ insertSorted key a l ↔ y = a ∨ y ∈ l := by
  simp only [insertSorted, List.mem_append, List.mem_cons]
  constructor
  · rintro (hy | rfl | hy)
    · exact Or.inr ((List.takeWhile_sublist _).subset hy)
    · exact Or.inl rfl
    · exact Or.inr ((List.dropWhile_sublist _).subset hy)
  · rintro (rfl | hy)
    · exact Or.inr (Or.inl rfl)
    · rw [← List.takeWhile_append_dropWhile (p := fun ent => decide (key ent ≤ key a)) (l := l),
        List.mem_append] at hy
      exact hy.imp_right Or.inr

/-- Pages outside the initial blocks may change, and the regions may, as long as the
lookups stay. -/
theorem Core.frame (h : Core p I U H P) (hlay : Layout q I) (hzones : q.staticZones = p.staticZones)
    (hlist : q.zoneList = p.zoneList)
    (hpages : ∀ x, 0 < cover I x → q.pages x = p.pages x) : Core q I U H P := by
  have hfree : q.freeBlocks = p.freeBlocks := by simp only [freeBlocks, hlist, hzones]
  have hcov : ∀ {b}, b ∈ p.freeBlocks + (H + U) → q.pages b.page = p.pages b.page := by
    intro b hb
    refine hpages _ ?_
    rw [← h.tiling.cover_eq]
    exact cover_pos_iff.mpr ⟨b, hb, b.covers_page⟩
  have hinit : ∀ {i x}, i ∈ I → i.Covers x → q.pages x = p.pages x := fun hi hx =>
    hpages _ (cover_pos_iff.mpr ⟨_, hi, hx⟩)
  have hzone : ∀ addr, q.lookupZone addr = p.lookupZone addr := by
    intro addr
    simp only [lookupZone, hlist, hzones]
  refine ⟨hlay, hfree ▸ h.tiling, ?_, ?_, ?_, ?_, h.pending, ?_, ?_⟩
  · exact fun i hi x hx => by rw [hinit hi hx, h.maxOrder i hi x hx]
  · exact fun i hi x hx hU => by rw [hinit hi hx, h.idle i hi x hx hU]
  · intro a ha j hj y hy
    rw [hlist] at ha
    rw [hzones] at hy
    have hyf : (⟨y, j⟩ : Block) ∈ p.freeBlocks := mem_freeBlocks.mpr ⟨a, ha, hj, hy⟩
    have hpg : q.pages y = p.pages y := hcov (Multiset.mem_add.mpr (Or.inl hyf))
    rw [hzone, hpg]
    exact h.queued a ha j hj y hy
  · intro c hc
    rw [hcov (Multiset.mem_add.mpr (Or.inr (Multiset.mem_add.mpr (Or.inr hc))))]
    exact h.held c hc
  · rw [hlist, hzones]
    exact h.npages
  · intro c hc hlt
    rw [hfree] at hc ⊢
    rw [hcov (Multiset.mem_add.mpr (Or.inl hc))] at hlt
    exact h.no_buddies c hc hlt

/-- The size of a list of blocks that holds each page from `s` to `e` once. -/
theorem size_of_cover {B : Multiset Block} {s e : ℕ}
    (h : ∀ x, cover B x = if s ≤ x ∧ x < e then 1 else 0) : size B = e - s := by
  have hend : ∀ b ∈ B, b.page + 2 ^ b.order ≤ e := by
    intro b hb
    have hpos := Nat.two_pow_pos b.order
    by_contra hlt
    have hlast : b.Covers (b.page + 2 ^ b.order - 1) := ⟨by omega, by omega⟩
    have hcov := cover_pos_iff.mpr ⟨b, hb, hlast⟩
    rw [h, if_neg (by omega)] at hcov
    exact absurd hcov (Nat.lt_irrefl 0)
  have hico : (Finset.range e).filter (fun x => s ≤ x ∧ x < e) = Finset.Ico s e := by
    ext x
    simp only [Finset.mem_filter, Finset.mem_range, Finset.mem_Ico]
    omega
  rw [size_eq_sum_cover hend, Finset.sum_congr rfl (fun x _ => h x), Finset.sum_boole, hico,
    Nat.card_Ico, Nat.cast_id]

theorem Memory.initRegion (h : Memory p I) (hnew : p.NewRegion base endAddr)
    (hJ : ∀ x, 0 < cover H x ↔ usableStart base endAddr ≤ x * pageSize ∧ x * pageSize < endAddr) :
    Memory (p.initRegion base endAddr) (I + H) := by
  obtain ⟨hlt, hphys, hb, he, hdisj, -⟩ := hnew
  refine ⟨h.zones_disjoint, ?_, ?_, ?_, ?_⟩
  · intro r hr
    rcases mem_insertSorted.mp hr with rfl | hr
    · exact ⟨hlt, hb, he⟩
    · exact h.regions_aligned r hr
  · intro r hr s hs hrs
    rcases mem_insertSorted.mp hr with rfl | hr
    · rcases mem_insertSorted.mp hs with rfl | hs
      · exact absurd rfl hrs
      · exact hdisj s hs
    · rcases mem_insertSorted.mp hs with rfl | hs
      · exact (hdisj r hr).symm
      · exact h.regions_disjoint r hr s hs hrs
  · intro r hr
    rcases mem_insertSorted.mp hr with rfl | hr
    · exact hphys
    · exact h.regions_phys r hr
  · intro x
    rw [cover_add, Nat.add_pos_iff_pos_or_pos, h.usable, hJ]
    constructor
    · rintro (⟨r, hr, hx⟩ | hx)
      · exact ⟨r, mem_insertSorted.mpr (Or.inr hr), hx⟩
      · exact ⟨⟨base, endAddr⟩, mem_insertSorted.mpr (Or.inl rfl), hx⟩
    · rintro ⟨r, hr, hx⟩
      rcases mem_insertSorted.mp hr with rfl | hr
      · exact Or.inr hx
      · exact Or.inl ⟨r, hr, hx⟩

theorem Memory.size_le (h : Memory p I) (hcov : ∀ x, cover I x ≤ 1) :
    size I ≤ physEnd / pageSize := by
  have hin : ∀ x, 0 < cover I x → x < physEnd / pageSize := by
    intro x hx
    obtain ⟨r, hr, _, hend⟩ := (h.usable x).mp hx
    have hphys := h.regions_phys r hr
    rw [Nat.lt_div_iff_mul_lt_of_dvd (by decide) (by decide)]
    omega
  have hend : ∀ b ∈ I, b.page + 2 ^ b.order ≤ physEnd / pageSize := by
    intro b hb
    have hpos := Nat.two_pow_pos b.order
    have hlast : b.Covers (b.page + 2 ^ b.order - 1) := ⟨by omega, by omega⟩
    have hlt := hin _ (cover_pos_iff.mpr ⟨b, hb, hlast⟩)
    omega
  rw [size_eq_sum_cover hend]
  refine (Finset.sum_le_sum (fun x _ => hcov x)).trans ?_
  rw [Finset.sum_const, Finset.card_range, smul_eq_mul, Nat.mul_one]

theorem Memory.not_in_new (h : Memory p I) (hnew : p.NewRegion base endAddr)
    (hx : 0 < cover I x) : ¬ (base ≤ x * pageSize ∧ x * pageSize < endAddr) := by
  obtain ⟨r, hr, hstart, hend⟩ := (h.usable x).mp hx
  obtain ⟨hlt, hb, he⟩ := h.regions_aligned r hr
  have hbase := (base_lt_usableStart hlt hb he).1
  have := hnew.2.2.2.2.1 r hr
  omega

/-- **`pmm_add_region`.**  A new region that does not reach across the first 4 GiB is
added without a failed assertion, and its blocks are free. -/
theorem Inv.pmmAddRegion (h : Inv p I U P) (hm : Memory p I) (hnew : p.NewRegion base endAddr)
    (h4G : (uint32Max < base ∧ uint32Max < endAddr) ∨ (base < uint32Max ∧ endAddr < uint32Max)) :
    ∃ q, p.pmmAddRegion base endAddr = .ok q ∧ Inv q (I + newBlocks base endAddr) U P ∧
      Memory q (I + newBlocks base endAddr) := by
  obtain ⟨hlt, hphys, hb₀, he, hdisj, z, hz, hzb, hze⟩ := id hnew
  obtain ⟨B, hB⟩ := Nat.dvd_of_mod_eq_zero hb₀
  obtain ⟨E, hE⟩ := Nat.dvd_of_mod_eq_zero he
  rw [Nat.mul_comm] at hB hE
  have hps := pageSize_pos
  have hBE : B < E := Nat.lt_of_mul_lt_mul_right (hB ▸ hE ▸ hlt)
  have htotal : (endAddr - base) / pageSize = E - B := by
    rw [hB, hE, ← Nat.sub_mul, Nat.mul_div_cancel _ hps]
  obtain ⟨hu1, hu2⟩ := pagecntUsed_bounds (n := E - B) (by omega)
  obtain ⟨hstart, hcov, hal⟩ := newBlocks_tile hB hE hBE hphys
  have hJ : ∀ x, 0 < cover (newBlocks base endAddr : Multiset Block) x ↔
      usableStart base endAddr ≤ x * pageSize ∧ x * pageSize < endAddr := by
    intro x
    rw [hcov, hstart, hE, Nat.mul_le_mul_right_iff hps, Nat.mul_lt_mul_right hps]
    split_ifs with hx
    · exact iff_of_true Nat.one_pos hx
    · exact iff_of_false (Nat.lt_irrefl 0) hx
  have hm' := hm.initRegion hnew hJ
  have hpg : ∀ x, base ≤ x * pageSize ∧ x * pageSize < endAddr ↔ B ≤ x ∧ x < E := by
    intro x
    rw [hB, hE, Nat.mul_le_mul_right_iff hps, Nat.mul_lt_mul_right hps]
  have hold : ∀ x, 0 < cover I x → ¬ (B ≤ x ∧ x < E) := fun x hx hc =>
    hm.not_in_new hnew hx ((hpg x).mpr hc)
  have hlookup : ∀ x, 0 < cover (I + newBlocks base endAddr) x →
      (p.initRegion base endAddr).pmmLookupPage (x * pageSize) = some x := fun x hx =>
    lookup_of_usable hm'.regions_aligned hm'.regions_disjoint ((hm'.usable x).mp hx)
  have hinit : Core (p.initRegion base endAddr) I U 0 P := by
    refine h.core.frame ⟨h.core.layout.zones_nodup, h.core.layout.order_lt, h.core.layout.home,
      fun i hi x hx => hlookup x ?_⟩ rfl rfl (fun x hx => ?_)
    · rw [cover_add]
      exact Nat.add_pos_left (cover_pos_iff.mpr ⟨i, hi, hx⟩) _
    · have hx' := hold x hx
      have hbase : base / pageSize = B := by rw [hB, Nat.mul_div_cancel _ hps]
      simp only [Pmm.initRegion, htotal, hbase]
      rw [if_neg (by omega), if_neg (by omega)]
  obtain ⟨hcore, hlay, hcnt⟩ := hinit.addBlocks (z := z) (newBlocks base endAddr) hal
    (fun x => by
      have hle := h.core.tiling.cover_le x
      have hx := hcov x
      split_ifs at hx with hin
      · have := hold x
        omega
      · omega)
    (fun b hb x hx => by
      have hpos := cover_pos_iff.mpr ⟨b, Multiset.mem_coe.mpr hb, hx⟩
      have hin := (hJ x).mp hpos
      have hbase := (base_lt_usableStart hlt hb₀ he).1
      refine ⟨lookupZone_of_disjoint hm.zones_disjoint hz (by omega) (by omega), hlookup x ?_⟩
      rw [cover_add]
      exact Nat.add_pos_right _ hpos)
  have hlookz : p.lookupZone base = some z :=
    lookupZone_of_disjoint hm.zones_disjoint hz hzb (hlt.trans_le hze)
  have hval := hcore.zoneValidate (z := z) (hlay.zoneList ▸ hz)
  have hsize : E - B < 2 ^ 64 := by
    rw [hE, physEnd] at hphys
    have hle := Nat.le_mul_of_pos_right E hps
    omega
  have hfree := subSize_eq hu2 hsize
  refine ⟨(newBlocks base endAddr).foldl (Pmm.addBlock z) (p.initRegion base endAddr), ?_,
    ⟨hcore, ?_⟩, hm'.congr hlay⟩
  · rw [Pmm.pmmAddRegion, if_neg (by simp [hb₀, he]), if_neg (not_not.mpr h4G), hlookz]
    simp only [h.core.zoneValidate hz, htotal, hval, hfree, Bool.true_eq_false, if_false]
    split_ifs with h0
    · rw [newBlocks_eq_nil hB hE hBE hphys (by omega)]
      rfl
    · rfl
  · have hcnt' := h.pagecnt
    have hle := hm'.size_le (fun x => by
      rw [cover_add]
      have hx := hcov x
      have hxI := h.core.tiling.cover_le x
      split_ifs at hx with hin
      · have hno := hold x
        omega
      · omega)
    rw [size_add, size_of_cover hcov] at hle
    have hphysPages : physEnd / pageSize < 2 ^ 64 := by decide
    rw [hcnt, size_add, size_of_cover hcov]
    simp only [Pmm.initRegion, htotal, hfree]
    rw [Nat.mod_eq_of_lt (by omega)]
    omega

/-- The invariant after `pmm_add_region`, whenever its own assertions hold. -/
theorem Inv.of_pmmAddRegion (h : Inv p I U P) (hm : Memory p I) (hnew : p.NewRegion base endAddr)
    (hq : p.pmmAddRegion base endAddr = .ok q) :
    Inv q (I + newBlocks base endAddr) U P ∧ Memory q (I + newBlocks base endAddr) := by
  have h4G : (uint32Max < base ∧ uint32Max < endAddr) ∨
      (base < uint32Max ∧ endAddr < uint32Max) := by
    by_contra hno
    rw [Pmm.pmmAddRegion] at hq
    split_ifs at hq
  obtain ⟨q', hq', hinv, hmem⟩ := h.pmmAddRegion hm hnew h4G
  rw [hq] at hq'
  cases hq'
  exact ⟨hinv, hmem⟩

end Pmm
