/-
# The invariant of the page allocator

The free lists and the blocks handed out tile the blocks queued by `pmm_add_region`,
and the fields of the first page of each block say what the block is.  `Core` states
this with some blocks `H` in hand, off the lists and not handed out, as they are inside
`zone_alloc` and `zone_free`.
-/
import YakKernel.Pmm

namespace Pmm

open Buddy

variable {p q : Pmm} {z k x : ℕ} {I U H : Multiset Block} {b c i : Block}

/-! ## The free blocks -/

/-- The blocks of order `k` at the pages of a list. -/
def blocksOf (k : ℕ) (list : List ℕ) : Multiset Block :=
  ((list.map (fun x => ⟨x, k⟩) : List Block) : Multiset Block)

/-- The free blocks of a zone. -/
def Zone.freeBlocks (zone : Zone) : Multiset Block :=
  (List.range buddyOrders : Multiset ℕ).bind (fun k => blocksOf k (zone.orders k))

/-- The free blocks of all zones. -/
def freeBlocks (p : Pmm) : Multiset Block :=
  (p.zoneList : Multiset ℕ).bind (fun z => (p.staticZones z).freeBlocks)

theorem blocksOf_perm {list list' : List ℕ} (h : list.Perm (x :: list')) :
    blocksOf k list = ⟨x, k⟩ ::ₘ blocksOf k list' := by
  rw [blocksOf, blocksOf, Multiset.cons_coe, Multiset.coe_eq_coe]
  exact h.map _

theorem Zone.mem_freeBlocks {zone : Zone} :
    b ∈ zone.freeBlocks ↔ b.order < buddyOrders ∧ b.page ∈ zone.orders b.order := by
  simp only [Zone.freeBlocks, blocksOf, Multiset.mem_bind, Multiset.mem_coe, List.mem_range,
    List.mem_map]
  constructor
  · rintro ⟨k, hk, x, hx, rfl⟩
    exact ⟨hk, hx⟩
  · rintro ⟨hk, hx⟩
    exact ⟨b.order, hk, b.page, hx, rfl⟩

theorem mem_freeBlocks :
    b ∈ p.freeBlocks ↔
      ∃ z ∈ p.zoneList, b.order < buddyOrders ∧ b.page ∈ (p.staticZones z).orders b.order := by
  simp only [freeBlocks, Multiset.mem_bind, Multiset.mem_coe, Zone.mem_freeBlocks]

theorem freeBlocks_setOrder (hnd : p.zoneList.Nodup) (hz : z ∈ p.zoneList) (hk : k < buddyOrders)
    (list : List ℕ) (n : ℕ) :
    (p.setOrder z k list n).freeBlocks + blocksOf k ((p.staticZones z).orders k) =
      p.freeBlocks + blocksOf k list := by
  have hzone : (p.setOrder z k list n).freeBlocks + (p.staticZones z).freeBlocks =
      p.freeBlocks + ((p.setOrder z k list n).staticZones z).freeBlocks :=
    bind_change (f := fun a => (p.staticZones a).freeBlocks)
      (g := fun a => ((p.setOrder z k list n).staticZones a).freeBlocks)
      (Multiset.coe_nodup.mpr hnd) (Multiset.mem_coe.mpr hz)
      (fun a _ ha => by simp only [setOrder, Function.update_of_ne ha])
  have horder : ((p.setOrder z k list n).staticZones z).freeBlocks +
      blocksOf k ((p.staticZones z).orders k) =
      (p.staticZones z).freeBlocks +
        blocksOf k (((p.setOrder z k list n).staticZones z).orders k) :=
    bind_change (f := fun j => blocksOf j ((p.staticZones z).orders j))
      (g := fun j => blocksOf j (((p.setOrder z k list n).staticZones z).orders j))
      (Multiset.coe_nodup.mpr List.nodup_range) (Multiset.mem_coe.mpr (List.mem_range.mpr hk))
      (fun j _ hj => by simp only [setOrder, Function.update_self, Function.update_of_ne hj])
  have hlist : ((p.setOrder z k list n).staticZones z).orders k = list := by
    simp only [setOrder, Function.update_self]
  rw [hlist] at horder
  refine add_right_cancel (b := (p.staticZones z).freeBlocks) ?_
  calc _ = (p.setOrder z k list n).freeBlocks + (p.staticZones z).freeBlocks +
        blocksOf k ((p.staticZones z).orders k) := by abel
    _ = p.freeBlocks + (((p.setOrder z k list n).staticZones z).freeBlocks +
        blocksOf k ((p.staticZones z).orders k)) := by rw [hzone]; abel
    _ = _ := by rw [horder]; abel

theorem freeBlocks_insert (hnd : p.zoneList.Nodup) (hz : z ∈ p.zoneList) (hk : k < buddyOrders)
    {list : List ℕ} (hl : list.Perm (x :: (p.staticZones z).orders k)) (n : ℕ) :
    (p.setOrder z k list n).freeBlocks = ⟨x, k⟩ ::ₘ p.freeBlocks := by
  have h := freeBlocks_setOrder hnd hz hk list n
  rw [blocksOf_perm hl, ← Multiset.singleton_add, ← add_assoc] at h
  rw [add_right_cancel h, add_comm, Multiset.singleton_add]

theorem freeBlocks_remove (hnd : p.zoneList.Nodup) (hz : z ∈ p.zoneList) (hk : k < buddyOrders)
    (hx : x ∈ (p.staticZones z).orders k) :
    ⟨x, k⟩ ::ₘ (p.remove z k x).freeBlocks = p.freeBlocks := by
  have h := freeBlocks_setOrder hnd hz hk (((p.staticZones z).orders k).erase x)
    ((p.staticZones z).npages k - 1)
  rw [blocksOf_perm (List.perm_cons_erase hx), ← Multiset.singleton_add, ← add_assoc] at h
  have h' := add_right_cancel h
  rw [add_comm, Multiset.singleton_add] at h'
  exact h'

/-! ## What never changes between regions -/

/-- The zones and regions are the same, and so are the results of the lookups. -/
structure SameLayout (p q : Pmm) : Prop where
  regionList : q.regionList = p.regionList
  zoneList : q.zoneList = p.zoneList
  base : ∀ z, (q.staticZones z).base = (p.staticZones z).base
  endAddr : ∀ z, (q.staticZones z).endAddr = (p.staticZones z).endAddr

theorem SameLayout.refl (p : Pmm) : SameLayout p p := ⟨rfl, rfl, fun _ => rfl, fun _ => rfl⟩

theorem SameLayout.trans {r : Pmm} (h : SameLayout p q) (h' : SameLayout q r) : SameLayout p r :=
  ⟨h'.1.trans h.1, h'.2.trans h.2, fun z => (h'.3 z).trans (h.3 z), fun z => (h'.4 z).trans (h.4 z)⟩

theorem SameLayout.lookupZone (h : SameLayout p q) (addr : ℕ) :
    q.lookupZone addr = p.lookupZone addr := by
  simp only [Pmm.lookupZone, h.zoneList, h.base, h.endAddr]

theorem SameLayout.pmmLookupPage (h : SameLayout p q) (addr : ℕ) :
    q.pmmLookupPage addr = p.pmmLookupPage addr := by
  simp only [Pmm.pmmLookupPage, Pmm.lookupRegion, h.regionList]

theorem sameLayout_setOrder (p : Pmm) (z k : ℕ) (list : List ℕ) (n : ℕ) :
    SameLayout p (p.setOrder z k list n) := by
  refine ⟨rfl, rfl, fun a => ?_, fun a => ?_⟩ <;>
  · by_cases ha : a = z
    · subst ha
      simp [setOrder]
    · simp [setOrder, Function.update_of_ne ha]

theorem sameLayout_setPage (p : Pmm) (x : ℕ) (f : Page → Page) : SameLayout p (p.setPage x f) :=
  ⟨rfl, rfl, fun _ => rfl, fun _ => rfl⟩

theorem sameLayout_remove (p : Pmm) (z k x : ℕ) : SameLayout p (p.remove z k x) :=
  sameLayout_setOrder _ _ _ _ _

theorem mem_zoneList_of_lookupZone {addr : ℕ} (h : p.lookupZone addr = some z) :
    z ∈ p.zoneList := List.mem_of_find?_eq_some h

/-! ## The invariant -/

/-- The pages of the initial blocks `I` are where the lookups find them, each block in
one zone, with the order of its block as `max_order`. -/
structure Layout (p : Pmm) (I : Multiset Block) : Prop where
  zones_nodup : p.zoneList.Nodup
  order_lt : ∀ i ∈ I, i.order < buddyOrders
  home : ∀ i ∈ I, ∃ z, ∀ x, i.Covers x → p.lookupZone (x * pageSize) = some z
  lookup : ∀ i ∈ I, ∀ x, i.Covers x → p.pmmLookupPage (x * pageSize) = some x

/-- The state of the lists and pages with the blocks `U` handed out and the blocks `H`
in hand.  The pages `P` are those of the blocks handed out that have no reference. -/
structure Core (p : Pmm) (I U H : Multiset Block) (P : ℕ → Prop) : Prop where
  layout : Layout p I
  tiling : Tiling I (p.freeBlocks + (H + U))
  maxOrder : ∀ i ∈ I, ∀ x, i.Covers x → (p.pages x).maxOrder = i.order
  idle : ∀ i ∈ I, ∀ x, i.Covers x → (∀ b ∈ U, b.page ≠ x) → (p.pages x).shares = 0
  queued : ∀ z ∈ p.zoneList, ∀ k < buddyOrders, ∀ x ∈ (p.staticZones z).orders k,
    p.lookupZone (x * pageSize) = some z ∧ (p.pages x).order = k
  held : ∀ b ∈ U, (p.pages b.page).order = b.order ∧ (P b.page ↔ (p.pages b.page).shares = 0)
  pending : ∀ x, P x → ∃ b ∈ U, b.page = x
  npages : ∀ z ∈ p.zoneList, ∀ k,
    (p.staticZones z).npages k = ((p.staticZones z).orders k).length
  no_buddies : ∀ b ∈ p.freeBlocks, b.order < (p.pages b.page).maxOrder → b.buddy ∉ p.freeBlocks

variable {P : ℕ → Prop}

theorem Layout.congr (h : Layout p I) (hs : SameLayout p q) : Layout q I where
  zones_nodup := hs.zoneList ▸ h.zones_nodup
  order_lt := h.order_lt
  home := fun i hi => by
    obtain ⟨z, hz⟩ := h.home i hi
    exact ⟨z, fun x hx => by rw [hs.lookupZone, hz x hx]⟩
  lookup := fun i hi x hx => by rw [hs.pmmLookupPage, h.lookup i hi x hx]

theorem Layout.lookupZone_eq (h : Layout p I) (hi : i ∈ I) {y : ℕ} (hx : i.Covers x)
    (hy : i.Covers y) : p.lookupZone (y * pageSize) = p.lookupZone (x * pageSize) := by
  obtain ⟨z, hz⟩ := h.home i hi
  rw [hz x hx, hz y hy]

namespace Core

theorem zoneValidate (h : Core p I U H P) (hz : z ∈ p.zoneList) :
    zoneValidate (p.staticZones z) = true := by
  simp only [Pmm.zoneValidate, List.all_eq_true, decide_eq_true_eq]
  intro k _
  rw [h.npages z hz, List.length_pos_iff]

theorem not_covers_of_free (h : Core p I U H P) (hb : b ∈ p.freeBlocks) (hc : c ∈ H + U)
    (hx : b.Covers x) : ¬ c.Covers x := by
  have hmem : c ∈ (p.freeBlocks + (H + U)).erase b := by
    rw [Multiset.erase_add_left_pos _ hb]
    exact Multiset.mem_add.mpr (Or.inr hc)
  exact h.tiling.not_covers_of_mem_erase (Multiset.mem_add.mpr (Or.inl hb)) hmem hx

theorem not_covers_of_hand (h : Core p I U H P) (hb : b ∈ H) (hc : c ∈ U)
    (hx : b.Covers x) : ¬ c.Covers x := by
  have hmem : c ∈ (p.freeBlocks + (H + U)).erase b := by
    rw [Multiset.erase_add_right_pos _ (Multiset.mem_add.mpr (Or.inl hb)),
      Multiset.erase_add_left_pos _ hb]
    simp [hc]
  exact h.tiling.not_covers_of_mem_erase (by simp [hb]) hmem hx

theorem queued_of_free (h : Core p I U H P) (hb : b ∈ p.freeBlocks) :
    (p.pages b.page).order = b.order := by
  obtain ⟨z, hz, hk, hx⟩ := mem_freeBlocks.mp hb
  exact (h.queued z hz _ hk _ hx).2

theorem exists_within (h : Core p I U (b ::ₘ H) P) : ∃ i ∈ I, b.Within i :=
  h.tiling.within b (by simp)

theorem aligned_hand (h : Core p I U (b ::ₘ H) P) : b.Aligned := h.tiling.aligned b (by simp)

theorem shares_hand (h : Core p I U (b ::ₘ H) P) (hx : b.Covers x) : (p.pages x).shares = 0 := by
  obtain ⟨i, hi, hbi⟩ := h.exists_within
  refine h.idle i hi x (hbi.covers hx) ?_
  rintro c hc rfl
  exact h.not_covers_of_hand (Multiset.mem_cons_self b H) hc hx c.covers_page

theorem shares_free (h : Core p I U H P) (hb : b ∈ p.freeBlocks) : (p.pages b.page).shares = 0 := by
  obtain ⟨i, hi, hbi⟩ := h.tiling.within b (Multiset.mem_add.mpr (Or.inl hb))
  refine h.idle i hi _ (hbi.covers b.covers_page) (fun c hc heq => ?_)
  exact h.not_covers_of_free hb (Multiset.mem_add.mpr (Or.inr hc)) b.covers_page
    (heq ▸ c.covers_page)

/-! ## Steps of the loops -/

theorem hand_congr {H' : Multiset Block} (h : Core p I U H P)
    (ht : Tiling I (p.freeBlocks + (H' + U))) : Core p I U H' P :=
  { h with tiling := ht }

theorem take (h : Core p I U H P) (hz : z ∈ p.zoneList) (hk : k < buddyOrders)
    (hx : x ∈ (p.staticZones z).orders k) : Core (p.remove z k x) I U (⟨x, k⟩ ::ₘ H) P := by
  have hfree := freeBlocks_remove h.layout.zones_nodup hz hk hx
  have hsub : ∀ b ∈ (p.remove z k x).freeBlocks, b ∈ p.freeBlocks := by
    intro b hb
    rw [← hfree]
    exact Multiset.mem_cons_of_mem hb
  have hlist : ∀ a ∈ p.zoneList, ∀ j, ((p.remove z k x).staticZones a).npages j =
      (((p.remove z k x).staticZones a).orders j).length ∧
      ∀ y ∈ ((p.remove z k x).staticZones a).orders j, y ∈ (p.staticZones a).orders j := by
    intro a ha j
    by_cases haz : a = z
    · subst haz
      by_cases hj : j = k
      · subst hj
        simp only [remove, setOrder, Function.update_self]
        exact ⟨by rw [h.npages a ha, List.length_erase_of_mem hx],
          fun y hy => List.mem_of_mem_erase hy⟩
      · simp only [remove, setOrder, Function.update_self, Function.update_of_ne hj]
        exact ⟨h.npages a ha j, fun y hy => hy⟩
    · simp only [remove, setOrder, Function.update_of_ne haz]
      exact ⟨h.npages a ha j, fun y hy => hy⟩
  have hsame := sameLayout_remove p z k x
  refine ⟨h.layout.congr hsame, ?_, h.maxOrder, h.idle, ?_, h.held, h.pending, ?_, ?_⟩
  · have hsum : (p.remove z k x).freeBlocks + (⟨x, k⟩ ::ₘ H + U) = p.freeBlocks + (H + U) := by
      rw [← hfree, Multiset.cons_add, Multiset.add_cons, Multiset.cons_add]
    rw [hsum]
    exact h.tiling
  · intro a ha j hj y hy
    rw [hsame.lookupZone]
    exact h.queued a ha j hj y ((hlist a ha j).2 y hy)
  · exact fun a ha j => (hlist a ha j).1
  · exact fun b hb hlt hbud => h.no_buddies b (hsub b hb) hlt (hsub _ hbud)

theorem insert (h : Core p I U (⟨x, k⟩ ::ₘ H) P) (hz : p.lookupZone (x * pageSize) = some z)
    (hk : k < buddyOrders) (hord : (p.pages x).order = k)
    (hno : k < (p.pages x).maxOrder → Block.buddy ⟨x, k⟩ ∉ p.freeBlocks) {list : List ℕ}
    (hl : list.Perm (x :: (p.staticZones z).orders k)) :
    Core (p.setOrder z k list ((p.staticZones z).npages k + 1)) I U H P := by
  have hzm := mem_zoneList_of_lookupZone hz
  have hfree := freeBlocks_insert h.layout.zones_nodup hzm hk hl ((p.staticZones z).npages k + 1)
  have hlist : ∀ a ∈ p.zoneList, ∀ j,
      ((p.setOrder z k list ((p.staticZones z).npages k + 1)).staticZones a).npages j =
      (((p.setOrder z k list ((p.staticZones z).npages k + 1)).staticZones a).orders j).length ∧
      ∀ y ∈ ((p.setOrder z k list ((p.staticZones z).npages k + 1)).staticZones a).orders j,
        (a = z ∧ j = k ∧ y = x) ∨ y ∈ (p.staticZones a).orders j := by
    intro a ha j
    by_cases haz : a = z
    · subst haz
      by_cases hj : j = k
      · subst hj
        simp only [setOrder, Function.update_self]
        refine ⟨by rw [hl.length_eq, List.length_cons, h.npages a ha], fun y hy => ?_⟩
        rcases List.mem_cons.mp (hl.mem_iff.mp hy) with rfl | hy
        · simp
        · exact Or.inr hy
      · simp only [setOrder, Function.update_self, Function.update_of_ne hj]
        exact ⟨h.npages a ha j, fun y hy => Or.inr hy⟩
    · simp only [setOrder, Function.update_of_ne haz]
      exact ⟨h.npages a ha j, fun y hy => Or.inr hy⟩
  have hsame := sameLayout_setOrder p z k list ((p.staticZones z).npages k + 1)
  refine ⟨h.layout.congr hsame, ?_, h.maxOrder, h.idle, ?_, h.held, h.pending,
    fun a ha j => (hlist a ha j).1, ?_⟩
  · have hsum : (⟨x, k⟩ ::ₘ p.freeBlocks) + (H + U) = p.freeBlocks + (⟨x, k⟩ ::ₘ H + U) := by
      rw [Multiset.cons_add, Multiset.cons_add, Multiset.add_cons]
    rw [hfree, hsum]
    exact h.tiling
  · intro a ha j hj y hy
    rw [hsame.lookupZone]
    rcases (hlist a ha j).2 y hy with ⟨rfl, rfl, rfl⟩ | hy
    · exact ⟨hz, hord⟩
    · exact h.queued a ha j hj y hy
  · have hself : Block.buddy ⟨x, k⟩ ≠ ⟨x, k⟩ := by
      intro heq
      have hx := (h.aligned_hand.covers_parent x).2
      rw [heq] at hx
      exact hx ⟨Block.covers_page _, Block.covers_page _⟩
    have hmax : ∀ b ∈ p.freeBlocks, b.buddy = ⟨x, k⟩ →
        b.order < (p.pages b.page).maxOrder → k < (p.pages x).maxOrder := by
      intro b hb heq hlt
      have hbt : b ∈ p.freeBlocks + (⟨x, k⟩ ::ₘ H + U) := Multiset.mem_add.mpr (Or.inl hb)
      obtain ⟨i, hi, hbi⟩ := h.tiling.within b hbt
      rw [h.maxOrder i hi _ (hbi.covers b.covers_page)] at hlt
      have hbud := (h.tiling.aligned b hbt).buddy_within (h.tiling.initial_aligned i hi) hbi hlt
      rw [heq] at hbud
      have hxi : i.Covers x := hbud.covers (Block.covers_page ⟨x, k⟩)
      rw [h.maxOrder i hi x hxi]
      have hbk : b.order = k := congrArg Block.order heq
      omega
    intro b hb hlt
    rw [hfree, Multiset.mem_cons] at hb ⊢
    rw [not_or]
    rcases hb with rfl | hb
    · exact ⟨hself, hno hlt⟩
    · refine ⟨fun heq => ?_, h.no_buddies b hb hlt⟩
      refine hno (hmax b hb heq hlt) ?_
      rwa [← heq, Block.buddy_buddy]

theorem setPage_hand (h : Core p I U H P) (hb : b ∈ H) (hx : b.Covers x) {f : Page → Page}
    (hf : ∀ pg, (f pg).shares = pg.shares ∧ (f pg).maxOrder = pg.maxOrder) :
    Core (p.setPage x f) I U H P := by
  have hpage : ∀ y, ((p.setPage x f).pages y).shares = (p.pages y).shares ∧
      ((p.setPage x f).pages y).maxOrder = (p.pages y).maxOrder ∧
      (y ≠ x → ((p.setPage x f).pages y).order = (p.pages y).order) := by
    intro y
    by_cases hy : y = x
    · subst hy
      simp [setPage, hf]
    · simp [setPage, Function.update_of_ne hy]
  have hfree : ∀ c ∈ p.freeBlocks, c.page ≠ x := by
    rintro c hc rfl
    exact h.not_covers_of_free hc (Multiset.mem_add.mpr (Or.inl hb)) c.covers_page hx
  refine ⟨h.layout.congr (sameLayout_setPage _ _ _), h.tiling, ?_, ?_, ?_, ?_, h.pending, h.npages,
    ?_⟩
  · exact fun i hi y hy => by rw [(hpage y).2.1, h.maxOrder i hi y hy]
  · exact fun i hi y hy hU => by rw [(hpage y).1, h.idle i hi y hy hU]
  · intro a ha j hj y hy
    have hyx : y ≠ x := hfree ⟨y, j⟩ (mem_freeBlocks.mpr ⟨a, ha, hj, hy⟩)
    obtain ⟨hzone, hord⟩ := h.queued a ha j hj y hy
    exact ⟨hzone, by rw [(hpage y).2.2 hyx, hord]⟩
  · intro c hc
    have hcx : c.page ≠ x := by
      rintro rfl
      exact h.not_covers_of_hand hb hc hx c.covers_page
    rw [(hpage c.page).1, (hpage c.page).2.2 hcx]
    exact h.held c hc
  · intro c hc hlt
    rw [(hpage c.page).2.1] at hlt
    exact h.no_buddies c hc hlt

theorem giveOut (h : Core p I U (b ::ₘ H) P) (hord : (p.pages b.page).order = b.order) :
    Core (p.setPage b.page (fun pg => { pg with shares := 1 })) I (b ::ₘ U) H P := by
  have hpage : ∀ y, ((p.setPage b.page (fun pg => { pg with shares := 1 })).pages y).order =
      (p.pages y).order ∧ ((p.setPage b.page (fun pg => { pg with shares := 1 })).pages y).maxOrder =
      (p.pages y).maxOrder ∧ (y ≠ b.page →
      ((p.setPage b.page (fun pg => { pg with shares := 1 })).pages y).shares =
      (p.pages y).shares) := by
    intro y
    by_cases hy : y = b.page
    · subst hy
      simp [setPage]
    · simp [setPage, Function.update_of_ne hy]
  refine ⟨h.layout.congr (sameLayout_setPage _ _ _), ?_, ?_, ?_, ?_, ?_, ?_, h.npages, ?_⟩
  · have hsum : p.freeBlocks + (H + b ::ₘ U) = p.freeBlocks + (b ::ₘ H + U) := by
      rw [Multiset.cons_add, Multiset.add_cons]
    rw [show (p.setPage b.page _).freeBlocks = p.freeBlocks from rfl, hsum]
    exact h.tiling
  · exact fun i hi y hy => by rw [(hpage y).2.1, h.maxOrder i hi y hy]
  · intro i hi y hy hU
    rw [(hpage y).2.2 (hU b (Multiset.mem_cons_self b U)).symm]
    exact h.idle i hi y hy (fun c hc => hU c (Multiset.mem_cons_of_mem hc))
  · intro a ha j hj y hy
    obtain ⟨hzone, hord⟩ := h.queued a ha j hj y hy
    exact ⟨hzone, by rw [(hpage y).1, hord]⟩
  · intro c hc
    rw [(hpage c.page).1]
    rcases Multiset.mem_cons.mp hc with rfl | hc
    · refine ⟨hord, iff_of_false (fun hP => ?_) (by simp [setPage])⟩
      obtain ⟨d, hd, hpage⟩ := h.pending _ hP
      exact h.not_covers_of_hand (Multiset.mem_cons_self c H) hd c.covers_page
        (hpage ▸ d.covers_page)
    · have hcb : c.page ≠ b.page := by
        intro heq
        exact h.not_covers_of_hand (Multiset.mem_cons_self b H) hc b.covers_page
          (heq ▸ c.covers_page)
      rw [(hpage c.page).2.2 hcb]
      exact h.held c hc
  · intro y hy
    obtain ⟨c, hc, hcy⟩ := h.pending y hy
    exact ⟨c, Multiset.mem_cons_of_mem hc, hcy⟩
  · intro c hc hlt
    rw [(hpage c.page).2.1] at hlt
    exact h.no_buddies c hc hlt

theorem takeBack (h : Core p I (b ::ₘ U) H P) (hs : (p.pages b.page).shares = 0) :
    Core p I U (b ::ₘ H) (fun x => P x ∧ x ≠ b.page) where
  layout := h.layout
  tiling := by
    have hsum : p.freeBlocks + (b ::ₘ H + U) = p.freeBlocks + (H + b ::ₘ U) := by
      simp only [Multiset.cons_add, Multiset.add_cons]
    rw [hsum]
    exact h.tiling
  maxOrder := h.maxOrder
  idle := by
    intro i hi x hx hU
    by_cases hxb : x = b.page
    · rw [hxb, hs]
    · refine h.idle i hi x hx (fun c hc => ?_)
      rcases Multiset.mem_cons.mp hc with rfl | hc
      · exact fun heq => hxb heq.symm
      · exact hU c hc
  queued := h.queued
  held := by
    intro c hc
    obtain ⟨hord, hP⟩ := h.held c (Multiset.mem_cons_of_mem hc)
    refine ⟨hord, ?_⟩
    rw [← hP, and_iff_left_iff_imp]
    rintro - heq
    have hmem : c ∈ (p.freeBlocks + (H + b ::ₘ U)).erase b := by
      rw [Multiset.add_cons, Multiset.add_cons, Multiset.erase_cons_head]
      simp [hc]
    exact h.tiling.not_covers_of_mem_erase (by simp) hmem b.covers_page (heq ▸ c.covers_page)
  pending := by
    rintro x ⟨hx, hne⟩
    obtain ⟨c, hc, rfl⟩ := h.pending x hx
    rcases Multiset.mem_cons.mp hc with rfl | hc
    · exact absurd rfl hne
    · exact ⟨c, hc, rfl⟩
  npages := h.npages
  no_buddies := h.no_buddies

theorem setShares {P' : ℕ → Prop} (h : Core p I U H P) (hb : b ∈ U) {f : Page → Page}
    (hf : ∀ pg, (f pg).order = pg.order ∧ (f pg).maxOrder = pg.maxOrder)
    (hP : ∀ x, x ≠ b.page → (P' x ↔ P x))
    (hb' : P' b.page ↔ (f (p.pages b.page)).shares = 0) : Core (p.setPage b.page f) I U H P' := by
  have hpage : ∀ y, ((p.setPage b.page f).pages y).order = (p.pages y).order ∧
      ((p.setPage b.page f).pages y).maxOrder = (p.pages y).maxOrder ∧
      (y ≠ b.page → ((p.setPage b.page f).pages y).shares = (p.pages y).shares) := by
    intro y
    by_cases hy : y = b.page
    · subst hy
      simp [setPage, hf]
    · simp [setPage, Function.update_of_ne hy]
  refine ⟨h.layout.congr (sameLayout_setPage _ _ _), h.tiling, ?_, ?_, ?_, ?_, ?_, h.npages, ?_⟩
  · exact fun i hi y hy => by rw [(hpage y).2.1, h.maxOrder i hi y hy]
  · intro i hi y hy hU
    rw [(hpage y).2.2 (hU b hb).symm]
    exact h.idle i hi y hy hU
  · intro a ha j hj y hy
    obtain ⟨hzone, hord⟩ := h.queued a ha j hj y hy
    exact ⟨hzone, by rw [(hpage y).1, hord]⟩
  · intro c hc
    rw [(hpage c.page).1]
    refine ⟨(h.held c hc).1, ?_⟩
    by_cases hcb : c.page = b.page
    · rw [hcb]
      simpa [setPage] using hb'
    · rw [(hpage c.page).2.2 hcb, hP _ hcb]
      exact (h.held c hc).2
  · intro y hy
    by_cases hyb : y = b.page
    · exact ⟨b, hb, hyb.symm⟩
    · exact h.pending y ((hP y hyb).mp hy)
  · intro c hc hlt
    rw [(hpage c.page).2.1] at hlt
    exact h.no_buddies c hc hlt

theorem congr {P' : ℕ → Prop} (h : Core p I U H P) (hP : ∀ x, P' x ↔ P x) : Core p I U H P' := by
  have hPP : P' = P := funext (fun x => propext (hP x))
  exact hPP ▸ h

/-! ## The splitting loop -/

theorem split (h : Core p I U (⟨x, k + 1⟩ ::ₘ H) P)
    (hz : p.lookupZone (x * pageSize) = some z) :
    Core ((p.insertTail z k (x + 2 ^ k)).setPage (x + 2 ^ k) (fun pg => { pg with order := k }))
      I U (⟨x, k⟩ ::ₘ H) P := by
  obtain ⟨hal, hpar, hbud⟩ := Block.lower_half h.aligned_hand
  have hcut : Core p I U (⟨x + 2 ^ k, k⟩ ::ₘ ⟨x, k⟩ ::ₘ H) P := by
    refine h.hand_congr ?_
    have ht := h.tiling
    rw [← hpar, Multiset.cons_add, Multiset.add_cons] at ht
    have hsplit := ht.split hal
    rw [hbud] at hsplit
    rw [Multiset.cons_add, Multiset.cons_add, Multiset.add_cons, Multiset.add_cons,
      Multiset.cons_swap]
    exact hsplit
  obtain ⟨i, hi, hxi⟩ := h.exists_within
  have hlow : i.Covers x := hxi.covers (Block.covers_page _)
  obtain ⟨j, hj, hyj⟩ := hcut.exists_within
  have hyi : Block.Within ⟨x + 2 ^ k, k⟩ i := by
    refine h.tiling.initial.eq_of_covers hi hj (hxi.covers ?_) (hyj.covers (Block.covers_page _)) ▸ hyj
    have hpos := Nat.two_pow_pos k
    simp only [Block.Covers, pow_succ]
    omega
  have hzone : p.lookupZone ((x + 2 ^ k) * pageSize) = some z := by
    rw [h.layout.lookupZone_eq hi hlow (hyi.covers (Block.covers_page _)), hz]
  have hk : k < buddyOrders := hyi.order_le.trans_lt (h.layout.order_lt i hi)
  have hset := hcut.setPage_hand (Multiset.mem_cons_self _ _) (Block.covers_page _)
    (f := fun pg => { pg with order := k }) (fun _ => ⟨rfl, rfl⟩)
  refine hset.insert (z := z) hzone hk ?_ ?_
    (List.perm_append_singleton _ _)
  · simp [setPage]
  · intro _ hmem
    refine hset.not_covers_of_free (c := ⟨x, k⟩) hmem (by simp) (x := x) ?_ (Block.covers_page _)
    rw [← hbud, Block.buddy_buddy]
    exact Block.covers_page _

theorem splitLoop {o : ℕ} : ∀ (n : ℕ) {p : Pmm}, Core p I U (⟨x, o + n⟩ ::ₘ H) P →
    p.lookupZone (x * pageSize) = some z →
    Core (splitLoop z x o n p) I U (⟨x, o⟩ ::ₘ H) P ∧ SameLayout p (Pmm.splitLoop z x o n p) ∧
      (Pmm.splitLoop z x o n p).freePagecnt = p.freePagecnt := by
  intro n
  induction n with
  | zero => exact fun h _ => ⟨h, SameLayout.refl _, rfl⟩
  | succ n ih =>
    intro p h hz
    have hstep := Core.split (k := o + n) h hz
    have hsame : SameLayout p ((p.insertTail z (o + n) (x + 2 ^ (o + n))).setPage (x + 2 ^ (o + n))
        (fun pg => { pg with order := o + n })) :=
      (sameLayout_setOrder _ _ _ _ _).trans (sameLayout_setPage _ _ _)
    obtain ⟨hcore, hlay, hcnt⟩ := ih hstep (by rw [hsame.lookupZone, hz])
    exact ⟨hcore, hsame.trans hlay, hcnt⟩

end Core

/-! ## Allocation -/

/-- The invariant between operations. -/
structure Inv (p : Pmm) (I U : Multiset Block) (P : ℕ → Prop) : Prop where
  core : Core p I U 0 P
  pagecnt : p.freePagecnt + size U = size I

theorem Inv.freePagecnt_eq (h : Inv p I U P) : p.freePagecnt = size p.freeBlocks := by
  have hsize := h.core.tiling.size_eq
  rw [zero_add, size_add] at hsize
  have hcnt := h.pagecnt
  omega

theorem Inv.setShares {P' : ℕ → Prop} (h : Inv p I U P) (hb : b ∈ U) (f : Page → Page)
    (hf : ∀ pg, (f pg).order = pg.order ∧ (f pg).maxOrder = pg.maxOrder)
    (hP : ∀ x, x ≠ b.page → (P' x ↔ P x))
    (hb' : P' b.page ↔ (f (p.pages b.page)).shares = 0) : Inv (p.setPage b.page f) I U P' :=
  ⟨h.core.setShares hb hf hP hb', h.pagecnt⟩

theorem Core.handOut {o : ℕ} (h : Core p I U (⟨x, o⟩ ::ₘ 0) P) (hz : z ∈ p.zoneList)
    (hord : (p.pages x).order = o) (hcnt : p.freePagecnt + size U = size I) :
    ∃ q, p.handOut z x o = .ok (q, some x) ∧ SameLayout p q ∧ Inv q I (⟨x, o⟩ ::ₘ U) P := by
  have hgive := h.giveOut hord
  have hval := hgive.zoneValidate (z := z) hz
  have hshares := h.shares_hand (Block.covers_page ⟨x, o⟩)
  have hsize := h.tiling.size_eq
  simp only [size_add, size_cons] at hsize
  simp only at hshares
  refine ⟨{ p.setPage x (fun pg => { pg with shares := 1 }) with
    freePagecnt := p.freePagecnt - 2 ^ o }, ?_, ⟨rfl, rfl, fun _ => rfl, fun _ => rfl⟩, ?_, ?_⟩
  · simp only [Pmm.handOut, hshares, ne_eq, not_true_eq_false, if_false]
    simp only at hval
    rw [hval]
    rfl
  · exact ⟨hgive.layout.congr ⟨rfl, rfl, fun _ => rfl, fun _ => rfl⟩, hgive.tiling, hgive.maxOrder,
      hgive.idle, hgive.queued, hgive.held, hgive.pending, hgive.npages, hgive.no_buddies⟩
  · simp only [size_cons]
    omega

/-- **`zone_alloc`.**  It fails no assertion, and hands out a block of the desired order
or changes nothing. -/
theorem Inv.zoneAlloc {o : ℕ} (h : Inv p I U P) (hz : z ∈ p.zoneList) (ho : o < buddyOrders) :
    (p.zoneAlloc z o = .ok (p, none)) ∨
    ∃ q x, p.zoneAlloc z o = .ok (q, some x) ∧ SameLayout p q ∧ Inv q I (⟨x, o⟩ ::ₘ U) P := by
  have hval := h.core.zoneValidate hz
  simp only [Pmm.zoneAlloc, if_neg (Nat.not_le.mpr ho), hval]
  split_ifs with hmax _ hpos
  · exact Or.inl rfl
  · contradiction
  · rw [h.core.npages z hz, List.length_pos_iff] at hpos
    obtain ⟨x, list, hl⟩ := List.exists_cons_of_ne_nil hpos
    have hx : x ∈ (p.staticZones z).orders o := by simp [hl]
    right
    simp only [hl]
    obtain ⟨q, hq, hlay, hinv⟩ := (h.core.take hz ho hx).handOut hz
      (h.core.queued z hz o ho x hx).2 h.pagecnt
    exact ⟨q, x, hq, (sameLayout_remove _ _ _ _).trans hlay, hinv⟩
  · cases hfind : (List.range' (o + 1) (buddyOrders - (o + 1))).find?
        (fun order => (p.staticZones z).orders order ≠ []) with
    | none => exact Or.inl rfl
    | some order =>
      right
      have hmem := List.mem_of_find?_eq_some hfind
      have hne := List.find?_some hfind
      simp only [List.mem_range'_1, decide_eq_true_eq] at hmem hne
      obtain ⟨x, list, hl⟩ := List.exists_cons_of_ne_nil hne
      have hx : x ∈ (p.staticZones z).orders order := by simp [hl]
      have hlt : order < buddyOrders := by omega
      obtain ⟨n, rfl⟩ : ∃ n, order = o + n := ⟨order - o, by omega⟩
      have htake := h.core.take hz hlt hx
      have hzone := (h.core.queued z hz _ hlt x hx).1
      obtain ⟨hsplit, hlay, hcnt⟩ := htake.splitLoop n (z := z)
        (by rw [(sameLayout_remove _ _ _ _).lookupZone, hzone])
      have hset := hsplit.setPage_hand (Multiset.mem_cons_self _ _) (Block.covers_page _)
        (f := fun pg => { pg with order := o }) (fun _ => ⟨rfl, rfl⟩)
      have hlay' := (sameLayout_remove p z (o + n) x).trans
        (hlay.trans (sameLayout_setPage _ x (fun pg => { pg with order := o })))
      have hcnt' : (Pmm.splitLoop z x o n (p.remove z (o + n) x)).freePagecnt + size U = size I := by
        rw [hcnt]
        exact h.pagecnt
      obtain ⟨q, hq, hlay'', hinv⟩ := hset.handOut (z := z) (hlay'.zoneList ▸ hz)
        (by simp [setPage]) hcnt'
      refine ⟨q, x, ?_, hlay'.trans hlay'', hinv⟩
      simp only [hl, Nat.add_sub_cancel_left]
      exact hq

/-- **`pmm_alloc_order`.** -/
theorem Inv.pmmAllocOrder {o : ℕ} (h : Inv p I U P) (ho : o < buddyOrders) :
    (p.pmmAllocOrder o = .ok (p, none)) ∨
    ∃ q x, p.pmmAllocOrder o = .ok (q, some x) ∧ SameLayout p q ∧ Inv q I (⟨x, o⟩ ::ₘ U) P := by
  have hloop : ∀ zs, (∀ z ∈ zs, z ∈ p.zoneList) → (allocFrom o zs p = .ok (p, none)) ∨
      ∃ q x, allocFrom o zs p = .ok (q, some x) ∧ SameLayout p q ∧ Inv q I (⟨x, o⟩ ::ₘ U) P := by
    intro zs
    induction zs with
    | nil => exact fun _ => Or.inl rfl
    | cons z zs ih =>
      intro hzs
      have ih' := ih (fun a ha => hzs a (List.mem_cons_of_mem _ ha))
      simp only [allocFrom]
      split_ifs
      · exact ih'
      · rcases h.zoneAlloc (hzs z List.mem_cons_self) ho with hnone | ⟨q, x, hq, hlay, hinv⟩
        · rw [hnone]
          exact ih'
        · rw [hq]
          exact Or.inr ⟨q, x, rfl, hlay, hinv⟩
  exact hloop p.zoneList (fun _ hz => hz)

/-! ## The merging loop -/

/-- The page that the merging loop compares with at order `k`, when it started at the
page `x`. -/
def buddyAt (x k : ℕ) : ℕ := (Block.ofPage x k).buddy.page

/-- What the merging loop takes for a free block. -/
def LooksFree (p : Pmm) (y k : ℕ) : Prop := (p.pages y).shares = 0 ∧ (p.pages y).order = k

instance (p : Pmm) (y k : ℕ) : Decidable (p.LooksFree y k) := by
  unfold LooksFree
  infer_instance

/-- None of the buddies that look free to the merging loop on its way up from order `o`
is a page `P`. -/
def FindsSettled (p : Pmm) (P : ℕ → Prop) (x o : ℕ) : Prop :=
  ∀ k < (p.pages x).maxOrder, o ≤ k → (∀ j < k + 1, o ≤ j → p.LooksFree (buddyAt x j) j) →
    ¬ P (buddyAt x k)

instance (p : Pmm) (P : ℕ → Prop) [DecidablePred P] (x o : ℕ) :
    Decidable (p.FindsSettled P x o) := by
  unfold FindsSettled
  infer_instance

theorem buddyAddr_eq (x k : ℕ) : x * pageSize ^^^ blockSize k = (x ^^^ 2 ^ k) * pageSize := by
  have hshift := Nat.shiftLeft_xor_distrib (i := pageShift) (a := x) (b := 2 ^ k)
  simp only [Nat.shiftLeft_eq, ← pow_add] at hshift
  rw [blockSize, pageSize, hshift, Nat.add_comm k pageShift]

theorem lowerAddr_eq (x y : ℕ) :
    (if y * pageSize < x * pageSize then y * pageSize else x * pageSize) = min x y * pageSize := by
  have hpos : 0 < pageSize := Nat.two_pow_pos _
  have hlt : y * pageSize < x * pageSize ↔ y < x := Nat.mul_lt_mul_right hpos
  rcases Nat.lt_or_ge y x with h | h
  · rw [if_pos (hlt.mpr h), Nat.min_eq_right h.le]
  · rw [if_neg (fun hc => absurd (hlt.mp hc) (Nat.not_lt.mpr h)), Nat.min_eq_left h]

theorem sameLayout_mergeBuddy (p : Pmm) (z k x y : ℕ) : SameLayout p (p.mergeBuddy z k x y) := by
  simp only [mergeBuddy]
  exact (sameLayout_remove _ _ _ _).trans
    ((sameLayout_setPage _ _ _).trans (sameLayout_setPage _ _ _))

theorem mergeBuddy_order {y : ℕ} (hyx : y ≠ x) (hx : (p.pages x).order = k)
    (hy : (p.pages y).order = k) :
    (∀ a, a = x ∨ a = y → ((p.mergeBuddy z k x y).pages a).order = k + 1) ∧
    ∀ a, a ≠ x → a ≠ y → (p.mergeBuddy z k x y).pages a = p.pages a := by
  constructor
  · rintro a (rfl | rfl)
    · simp [mergeBuddy, setPage, remove, setOrder, Function.update_of_ne hyx.symm, hx]
    · simp [mergeBuddy, setPage, remove, setOrder, Function.update_of_ne hyx, hy]
  · intro a hax hay
    simp [mergeBuddy, setPage, remove, setOrder, Function.update_of_ne hax,
      Function.update_of_ne hay]

theorem Core.merge (h : Core p I U (⟨x, k⟩ ::ₘ H) P) (hi : i ∈ I)
    (hxi : Block.Within ⟨x, k⟩ i) (hk : k < i.order) (hz : z ∈ p.zoneList)
    (hbud : x ^^^ 2 ^ k ∈ (p.staticZones z).orders k) :
    Core (p.mergeBuddy z k x (x ^^^ 2 ^ k)) I U (⟨min x (x ^^^ 2 ^ k), k + 1⟩ ::ₘ H) P := by
  have hlt := h.layout.order_lt i hi
  have htake := h.take hz (by omega) hbud
  have hset := (htake.setPage_hand (Multiset.mem_cons_self _ _) (Block.covers_page _)
    (f := fun pg => { pg with order := pg.order + 1 }) (fun _ => ⟨rfl, rfl⟩)).setPage_hand
    (b := ⟨x, k⟩) (Multiset.mem_cons_of_mem (Multiset.mem_cons_self _ _)) (Block.covers_page _)
    (f := fun pg => { pg with order := pg.order + 1 }) (fun _ => ⟨rfl, rfl⟩)
  refine hset.hand_congr ?_
  have ht := hset.tiling
  rw [Multiset.cons_swap, Multiset.cons_add, Multiset.cons_add, Multiset.add_cons,
    Multiset.add_cons] at ht
  rw [Multiset.cons_add, Multiset.add_cons]
  exact ht.merge hi hxi hk

/-- The buddy of a block in hand is queued if it looks free and is not a page `P`. -/
theorem Core.buddy_queued (h : Core p I U (⟨x, k⟩ ::ₘ H) P) (hH : H = 0) (hi : i ∈ I)
    (hxi : Block.Within ⟨x, k⟩ i) (hk : k < i.order) (hz : p.lookupZone (x * pageSize) = some z)
    (hlook : p.LooksFree (x ^^^ 2 ^ k) k) (hP : ¬ P (x ^^^ 2 ^ k)) :
    x ^^^ 2 ^ k ∈ (p.staticZones z).orders k := by
  subst hH
  obtain ⟨c, hc, hpage, hle⟩ := h.tiling.exists_at_buddy (b := ⟨x, k⟩) (by simp) hi hxi hk
  have hpage' : c.page = x ^^^ 2 ^ k := hpage
  have hne : c ≠ ⟨x, k⟩ := by
    rintro rfl
    have hx := (h.aligned_hand.covers_parent x).2
    rw [← hpage'] at hlook
    refine hx ⟨Block.covers_page _, ?_⟩
    have hcov := Block.covers_page (Block.buddy ⟨x, k⟩)
    rwa [← hpage] at hcov
  have hfree : c ∈ p.freeBlocks := by
    simp only [Multiset.mem_add, Multiset.mem_cons, Multiset.notMem_zero, or_false] at hc
    rcases hc with hc | hc | hc
    · exact hc
    · exact absurd hc hne
    · rw [← hpage'] at hlook hP
      exact absurd ((h.held c hc).2.mpr hlook.1) hP
  have hord := h.queued_of_free hfree
  rw [hpage', hlook.2] at hord
  obtain ⟨a, ha, hlt, hmem⟩ := mem_freeBlocks.mp hfree
  rw [hpage', ← hord] at hmem
  have hbud := h.aligned_hand.buddy_within (h.tiling.initial_aligned i hi) hxi hk
  have hza := (h.queued a ha k (by omega) _ hmem).1
  have hzy : p.lookupZone ((x ^^^ 2 ^ k) * pageSize) = some z :=
    (h.layout.lookupZone_eq hi (hxi.covers (Block.covers_page _))
      (hbud.covers (Block.covers_page (Block.buddy ⟨x, k⟩)))).trans hz
  rw [hzy] at hza
  cases hza
  exact hmem

/-- The pages written while merging at order `k` are not compared with later. -/
theorem buddyAt_ne {w j : ℕ} (hb : b.Aligned) (hw : b.Covers w) (hx : b.Covers x)
    (hj : b.order ≤ j) : buddyAt w j = buddyAt x j ∧ buddyAt w j ≠ x := by
  have heq := hb.ofPage_eq hw hx hj
  refine ⟨by rw [buddyAt, buddyAt, heq], ?_⟩
  rintro rfl
  rw [buddyAt] at heq
  have hcov := ((Block.ofPage_aligned w j).covers_parent (buddyAt w j)).2
  refine hcov ⟨?_, Block.covers_page _⟩
  rw [← heq]
  exact Block.ofPage_covers _ _

/-- **The merging loop.**  It fails no assertion and ends with a block in hand that has
no free buddy. -/
theorem Core.mergeLoop : ∀ (n : ℕ) {p : Pmm} {x k : ℕ}, Core p I U (⟨x, k⟩ ::ₘ 0) P →
    (p.pages x).order = k → p.lookupZone (x * pageSize) = some z → k + n = buddyOrders →
    p.FindsSettled P x k →
    ∃ q y l, mergeLoop z n p x k = .ok (q, y, l) ∧ Core q I U (⟨y, l⟩ ::ₘ 0) P ∧
      (q.pages y).order = l ∧ q.lookupZone (y * pageSize) = some z ∧
      (l < (q.pages y).maxOrder → Block.buddy ⟨y, l⟩ ∉ q.freeBlocks) ∧ SameLayout p q ∧
      q.freePagecnt = p.freePagecnt := by
  intro n
  induction n with
  | zero =>
    intro p x k h _ _ hn _
    obtain ⟨i, hi, hxi⟩ := h.exists_within
    have hlt := h.layout.order_lt i hi
    have hle := hxi.order_le
    simp only at hle
    omega
  | succ n ih =>
    intro p x k h hord hz hn hset
    obtain ⟨i, hi, hxi⟩ := h.exists_within
    have hix : i.Covers x := hxi.covers (Block.covers_page _)
    have hmax : (p.pages x).maxOrder = i.order := h.maxOrder i hi x hix
    rw [Pmm.mergeLoop, hmax]
    by_cases hk : i.order ≤ k
    · refine ⟨p, x, k, by rw [if_pos hk], h, hord, hz, ?_, SameLayout.refl p, rfl⟩
      rw [hmax]
      exact fun hlt => absurd hlt (Nat.not_lt.mpr hk)
    · have hki : k < i.order := Nat.lt_of_not_le hk
      have hal := h.aligned_hand
      have hbud := hal.buddy_within (h.tiling.initial_aligned i hi) hxi hki
      have hiy : i.Covers (x ^^^ 2 ^ k) := hbud.covers (Block.covers_page (Block.buddy ⟨x, k⟩))
      rw [if_neg hk]
      simp only [buddyAddr_eq, h.layout.lookup i hi _ hiy, h.maxOrder i hi _ hiy, ne_eq,
        not_true_eq_false, if_false, hord, lowerAddr_eq]
      have hat : buddyAt x k = x ^^^ 2 ^ k := by
        rw [buddyAt, ← hal.eq_ofPage (Block.covers_page ⟨x, k⟩)]
        rfl
      by_cases hlook : p.LooksFree (x ^^^ 2 ^ k) k
      · have hP : ¬ P (x ^^^ 2 ^ k) := by
          rw [← hat]
          refine hset k (hmax ▸ hki) le_rfl (fun j hj hkj => ?_)
          obtain rfl : j = k := by omega
          rwa [hat]
        have hzm := mem_zoneList_of_lookupZone hz
        have hmem := h.buddy_queued rfl hi hxi hki hz hlook hP
        have hpos : (p.staticZones z).npages k ≠ 0 := by
          rw [h.npages z hzm]
          exact (List.length_pos_of_mem hmem).ne'
        rw [if_neg (by simp [hlook.1, hlook.2]), if_neg hpos, if_neg (List.ne_nil_of_mem hmem),
          if_neg (not_not.mpr hmem)]
        have hmerge := h.merge hi hxi hki hzm hmem
        have hlay := sameLayout_mergeBuddy p z k x (x ^^^ 2 ^ k)
        have hwi := hal.parent_within (h.tiling.initial_aligned i hi) hxi hki
        have hiw : i.Covers (min x (x ^^^ 2 ^ k)) :=
          hwi.covers (Block.covers_page (Block.parent ⟨x, k⟩))
        rw [hlay.pmmLookupPage, h.layout.lookup i hi _ hiw]
        have hxp : (Block.parent ⟨x, k⟩).Covers x :=
          hal.within_parent.covers (Block.covers_page ⟨x, k⟩)
        have hyp : (Block.parent ⟨x, k⟩).Covers (x ^^^ 2 ^ k) := by
          rw [← Block.parent_buddy]
          exact hal.buddy.within_parent.covers (Block.covers_page (Block.buddy ⟨x, k⟩))
        have hyx : x ^^^ 2 ^ k ≠ x := by
          rw [← hat]
          exact (buddyAt_ne hal (Block.covers_page _) (Block.covers_page _) le_rfl).2
        obtain ⟨hord', hpages⟩ := mergeBuddy_order (z := z) hyx hord hlook.2
        have hset' : (p.mergeBuddy z k x (x ^^^ 2 ^ k)).FindsSettled P
            (min x (x ^^^ 2 ^ k)) (k + 1) := by
          intro l hl hkl hall
          rw [hmerge.maxOrder i hi _ hiw] at hl
          have hwp : (Block.parent ⟨x, k⟩).Covers (min x (x ^^^ 2 ^ k)) := Block.covers_page _
          rw [(buddyAt_ne hal.parent hwp hxp hkl).1]
          refine hset l (hmax ▸ hl) (by omega) (fun j hj hkj => ?_)
          rcases Nat.eq_or_lt_of_le hkj with rfl | hkj
          · rwa [hat]
          · obtain ⟨hw, hjx⟩ := buddyAt_ne hal.parent hwp hxp hkj
            obtain ⟨hw', hjy⟩ := buddyAt_ne hal.parent hwp hyp hkj
            have hfree := hall j hj hkj
            rw [hw] at hfree
            rw [hw] at hjx hjy
            simpa only [LooksFree, hpages _ hjx hjy] using hfree
        have hzw : (p.mergeBuddy z k x (x ^^^ 2 ^ k)).lookupZone
            (min x (x ^^^ 2 ^ k) * pageSize) = some z := by
          rw [hlay.lookupZone, h.layout.lookupZone_eq hi hix hiw, hz]
        obtain ⟨q, y, l, hq, hcore, hl, hz', hno, hlay', hcnt⟩ :=
          ih hmerge (hord' _ (min_choice x _)) hzw (by omega) hset'
        exact ⟨q, y, l, hq, hcore, hl, hz', hno, hlay.trans hlay', hcnt⟩
      · refine ⟨p, x, k, ?_, h, hord, hz, fun _ hmem => hlook ?_, SameLayout.refl p, rfl⟩
        · rw [if_pos]
          by_contra hno
          rw [not_or, not_not, Nat.not_lt, Nat.le_zero] at hno
          exact hlook hno
        · exact ⟨h.shares_free hmem, h.queued_of_free hmem⟩

/-! ## Freeing -/

/-- **`zone_free`.**  A block without references comes back, if the merging loop meets no
page `P`. -/
theorem Inv.zoneFree (h : Inv p I (b ::ₘ U) P) (hz : p.lookupZone (b.page * pageSize) = some z)
    (hs : (p.pages b.page).shares = 0) (hset : p.FindsSettled P b.page b.order) :
    ∃ q, p.zoneFree z b.page b.order = .ok q ∧ SameLayout p q ∧
      Inv q I U (fun x => P x ∧ x ≠ b.page) := by
  have hback := h.core.takeBack hs
  have hord := (h.core.held b (Multiset.mem_cons_self b U)).1
  have hzm := mem_zoneList_of_lookupZone hz
  obtain ⟨i, hi, hbi⟩ := hback.exists_within
  have hlt : b.order < buddyOrders := hbi.order_le.trans_lt (h.core.layout.order_lt i hi)
  obtain ⟨q, y, l, hq, hcore, hl, hz', hno, hlay, hcnt⟩ :=
    hback.mergeLoop (buddyOrders - b.order) hord hz (by omega)
      (fun k hk hle hall hP => hset k hk hle hall hP.1)
  obtain ⟨j, hj, hyj⟩ := hcore.exists_within
  have hlt' : l < buddyOrders := hyj.order_le.trans_lt (hcore.layout.order_lt j hj)
  have hins : Core (q.insertHead z l y) I U 0 (fun x => P x ∧ x ≠ b.page) :=
    hcore.insert hz' hlt' hl hno (List.Perm.refl _)
  have hlay' := hlay.trans (sameLayout_setOrder q z l (y :: (q.staticZones z).orders l)
    ((q.staticZones z).npages l + 1))
  have hval := hins.zoneValidate (z := z) (hlay'.zoneList ▸ hzm)
  refine ⟨{ q.insertHead z l y with freePagecnt := q.freePagecnt + 2 ^ b.order }, ?_, ?_, ?_, ?_⟩
  · rw [Pmm.zoneFree, if_neg (Nat.not_le.mpr hlt), h.core.zoneValidate hzm]
    simp only [hs, hq, hval]
    simp [insertHead, setOrder, hl]
  · exact hlay'.trans ⟨rfl, rfl, fun _ => rfl, fun _ => rfl⟩
  · exact ⟨hins.layout.congr ⟨rfl, rfl, fun _ => rfl, fun _ => rfl⟩, hins.tiling, hins.maxOrder,
      hins.idle, hins.queued, hins.held, hins.pending, hins.npages, hins.no_buddies⟩
  · have hcnt' := h.pagecnt
    simp only [size_cons] at hcnt'
    simp only [hcnt]
    omega

end Pmm
