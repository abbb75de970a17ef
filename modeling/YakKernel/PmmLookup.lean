/-
# Looking a page up

`lookup_region` takes the end of a region for a part of it, and `pmm_lookup_page` does not check
the index: at the end of a region it returns a pointer behind the pages of that region.
-/
import Mathlib.Data.List.TakeWhile
import YakKernel.PmmSystem

namespace Pmm

open Buddy

variable {p q : Pmm} {r s : Region} {rs : List Region} {base endAddr a : ℕ}

/-! ## The pointer -/

/-- The address `&region->pages[index]`. -/
structure PageRef where
  region : Region
  index : ℕ
  deriving DecidableEq

/-- `pmm_lookup_page`, with the pointer that it returns. -/
def pmmLookupPageRef (p : Pmm) (addr : ℕ) : Option PageRef :=
  (p.lookupRegion addr).map (fun region => ⟨region, addr / pageSize - region.base / pageSize⟩)

/-- The `pfn` of the page behind a pointer; there is none behind the pages of the region. -/
def PageRef.pfn (ref : PageRef) : Option ℕ :=
  if ref.index < (ref.region.endAddr - ref.region.base) / pageSize then
    some (ref.region.base / pageSize + ref.index)
  else none

/-- An address of a region. -/
def Region.Contains (region : Region) (addr : ℕ) : Prop :=
  region.base ≤ addr ∧ addr < region.endAddr

/-- The page of an address of a region is found, and nothing for any other address. -/
structure ExactAt (p : Pmm) (addr : ℕ) : Prop where
  found : ∀ region ∈ p.regionList, region.Contains addr →
    (p.pmmLookupPageRef addr).bind PageRef.pfn = some (addr / pageSize)
  null : (∀ region ∈ p.regionList, ¬ region.Contains addr) → p.pmmLookupPageRef addr = none

/-! ## The list of regions -/

theorem insertSorted_pairwise {α : Type*} {key : α → ℕ} {x : α} {l : List α}
    (h : l.Pairwise (fun y z => key y ≤ key z)) :
    (insertSorted key x l).Pairwise (fun y z => key y ≤ key z) := by
  have hsplit := List.takeWhile_append_dropWhile (p := fun ent => decide (key ent ≤ key x)) (l := l)
  rw [← hsplit, List.pairwise_append] at h
  obtain ⟨hbefore, hafter, hcross⟩ := h
  have hle : ∀ y ∈ l.takeWhile (fun ent => key ent ≤ key x), key y ≤ key x := by
    intro y hy
    have htrue := List.mem_takeWhile_imp hy
    exact of_decide_eq_true htrue
  have hge : ∀ z ∈ l.dropWhile (fun ent => key ent ≤ key x), key x ≤ key z := by
    intro z hz
    cases hdrop : l.dropWhile (fun ent => key ent ≤ key x) with
    | nil =>
      rw [hdrop] at hz
      cases hz
    | cons y rest =>
      have hfirst : ¬ key y ≤ key x := by
        have hno := List.head_dropWhile_not (fun ent => decide (key ent ≤ key x)) (l := l)
          (by rw [hdrop]; exact List.cons_ne_nil _ _)
        simp only [hdrop, List.head_cons, decide_eq_false_iff_not] at hno
        exact hno
      rw [hdrop] at hz hafter
      rcases List.mem_cons.mp hz with rfl | hz
      · omega
      · have hyz := (List.pairwise_cons.mp hafter).1 z hz
        omega
  rw [insertSorted, List.pairwise_append, List.pairwise_cons]
  refine ⟨hbefore, ⟨hge, hafter⟩, ?_⟩
  intro y hy z hz
  rcases List.mem_cons.mp hz with rfl | hz
  · exact hle y hy
  · exact hcross y hy z hz

theorem addBlocks_regionList (z : ℕ) (bs : List Block) (p : Pmm) :
    (bs.foldl (addBlock z) p).regionList = p.regionList := by
  induction bs generalizing p with
  | nil => rfl
  | cons b bs ih => exact (ih _).trans (sameLayout_addBlock p z b).regionList

theorem pmmAddRegion_regionList (h : p.pmmAddRegion base endAddr = .ok q) :
    base % pageSize = 0 ∧ endAddr % pageSize = 0 ∧
      q.regionList = insertSorted Region.base ⟨base, endAddr⟩ p.regionList := by
  rw [pmmAddRegion] at h
  by_cases haligned : base % pageSize ≠ 0 ∨ endAddr % pageSize ≠ 0
  · rw [if_pos haligned] at h
    cases h
  rw [if_neg haligned] at h
  rw [not_or, not_not, not_not] at haligned
  refine ⟨haligned.1, haligned.2, ?_⟩
  by_cases h4G : ¬ ((uint32Max < base ∧ uint32Max < endAddr) ∨
      (base < uint32Max ∧ endAddr < uint32Max))
  · rw [if_pos h4G] at h
    cases h
  rw [if_neg h4G] at h
  cases hz : p.lookupZone base with
  | none =>
    rw [hz] at h
    cases h
  | some z =>
    rw [hz] at h
    simp only at h
    split_ifs at h
    · rw [← Except.ok.inj h]
      rfl
    · rw [← Except.ok.inj h]
      exact addBlocks_regionList z _ _

/-- Regions are added one after the other. -/
def addRegions (rs : List Region) (p : Pmm) : Except Error Pmm :=
  rs.foldlM (fun p r => p.pmmAddRegion r.base r.endAddr) p

/-- What the list is then. -/
structure Added (rs : List Region) (l : List Region) : Prop where
  sorted : l.Pairwise (fun r s => r.base ≤ s.base)
  mem : ∀ r, r ∈ l ↔ r ∈ rs

theorem Added.insert (h : Added rs l) (r : Region) :
    Added (rs ++ [r]) (insertSorted Region.base r l) where
  sorted := insertSorted_pairwise h.sorted
  mem := by
    intro s
    rw [mem_insertSorted, h.mem, List.mem_append, List.mem_singleton, or_comm]

theorem added_of_run {old l : List Region} (h : Added old p.regionList) (hl : rs = old ++ l)
    (hrun : addRegions l p = .ok q) :
    Added rs q.regionList ∧ ∀ r ∈ l, r.base % pageSize = 0 ∧ r.endAddr % pageSize = 0 := by
  induction l generalizing p old with
  | nil =>
    rw [← Except.ok.inj hrun, hl, List.append_nil]
    exact ⟨h, fun r hr => absurd hr List.not_mem_nil⟩
  | cons r l ih =>
    rw [addRegions, List.foldlM_cons] at hrun
    cases hadd : p.pmmAddRegion r.base r.endAddr with
    | error e =>
      rw [hadd] at hrun
      cases hrun
    | ok p₁ =>
      rw [hadd] at hrun
      obtain ⟨hb, he, hlist⟩ := pmmAddRegion_regionList hadd
      have hnext : Added (old ++ [r]) p₁.regionList := by
        rw [hlist]
        exact h.insert r
      have hsplit : rs = old ++ [r] ++ l := by
        rw [hl, List.append_assoc, List.singleton_append]
      obtain ⟨hadded, hal⟩ := ih hnext hsplit hrun
      refine ⟨hadded, ?_⟩
      intro s hs
      rcases List.mem_cons.mp hs with rfl | hs
      · exact ⟨hb, he⟩
      · exact hal s hs

/-! ## Lookups -/

/-- Regions one can look pages up in: in pages, not empty, and apart. -/
structure Apart (l : List Region) : Prop where
  aligned : ∀ r ∈ l, r.base % pageSize = 0 ∧ r.endAddr % pageSize = 0
  nonempty : ∀ r ∈ l, r.base < r.endAddr
  disjoint : ∀ r ∈ l, ∀ s ∈ l, r ≠ s → r.endAddr ≤ s.base ∨ s.endAddr ≤ r.base
  sorted : l.Pairwise (fun r s => r.base ≤ s.base)

section

variable (h : Apart p.regionList)

include h

/-- At the end of a region this region is found, even if another one begins there. -/
theorem Apart.lookupRegion_end (hr : r ∈ p.regionList) :
    p.lookupRegion r.endAddr = some r := by
  have hlt := h.nonempty r hr
  cases hf : p.lookupRegion r.endAddr with
  | none =>
    have hno := List.find?_eq_none.mp hf r hr
    exact absurd (decide_eq_true ⟨Nat.le_of_lt hlt, Nat.le_refl _⟩) hno
  | some s =>
    obtain ⟨hin, before, after, hlist, hbefore⟩ := List.find?_eq_some_iff_append.mp hf
    obtain ⟨hbase, hend⟩ := of_decide_eq_true hin
    have hs : s ∈ p.regionList := List.mem_of_find?_eq_some hf
    by_contra hne
    have hrs : r ≠ s := fun heq => hne (by rw [heq])
    have hapart := h.disjoint r hr s hs hrs
    -- then the other one begins there, and stands behind this one in the list
    have hsorted := h.sorted
    rw [hlist, List.pairwise_append, List.pairwise_cons] at hsorted
    rw [hlist, List.mem_append, List.mem_cons] at hr
    rcases hr with hr | rfl | hr
    · have hout := hbefore r hr
      simp only [Nat.le_refl, and_true, Nat.le_of_lt hlt, decide_true, Bool.not_true,
        Bool.false_eq_true] at hout
    · exact hrs rfl
    · have hle := hsorted.2.1.1 r hr
      have hs' := h.nonempty s hs
      omega

/-- **Where no region ends** the lookup is exact. -/
theorem Apart.exactAt (hno : ∀ r ∈ p.regionList, a ≠ r.endAddr) : ExactAt p a where
  found := by
    rintro r hr ⟨hbase, hend⟩
    have hfind : p.lookupRegion a = some r := by
      cases hf : p.lookupRegion a with
      | none =>
        have hnone := List.find?_eq_none.mp hf r hr
        exact absurd (decide_eq_true ⟨hbase, Nat.le_of_lt hend⟩) hnone
      | some s =>
        have hs : s ∈ p.regionList := List.mem_of_find?_eq_some hf
        have hin := List.find?_some hf
        obtain ⟨hsb, hse⟩ := of_decide_eq_true hin
        by_contra hne
        have hapart := h.disjoint r hr s hs (fun heq => hne (by rw [heq]))
        have hend' := hno s hs
        omega
    obtain ⟨hb, he⟩ := h.aligned r hr
    have hps : pageSize = 4096 := rfl
    rw [pmmLookupPageRef, hfind, Option.map_some, Option.bind_some, PageRef.pfn]
    rw [hps] at hb he ⊢
    have hindex : a / 4096 - r.base / 4096 < (r.endAddr - r.base) / 4096 := by omega
    rw [if_pos hindex, Option.some.injEq]
    show r.base / 4096 + (a / 4096 - r.base / 4096) = a / 4096
    omega
  null := by
    intro hnone
    have hf : p.lookupRegion a = none := by
      apply List.find?_eq_none.mpr
      intro r hr hin
      obtain ⟨hbase, hend⟩ := of_decide_eq_true hin
      exact hnone r hr ⟨hbase, Nat.lt_of_le_of_ne hend (hno r hr)⟩
    rw [pmmLookupPageRef, hf]
    rfl

/-- **At the end of a region** it is not. -/
theorem Apart.not_exactAt_end (hr : r ∈ p.regionList) : ¬ ExactAt p r.endAddr := by
  intro hexact
  have hfind := h.lookupRegion_end hr
  have href : p.pmmLookupPageRef r.endAddr =
      some ⟨r, r.endAddr / pageSize - r.base / pageSize⟩ := by
    rw [pmmLookupPageRef, hfind]
    rfl
  by_cases hother : ∃ s ∈ p.regionList, s.Contains r.endAddr
  · obtain ⟨s, hs, hin⟩ := hother
    have hfound := hexact.found s hs hin
    obtain ⟨hb, he⟩ := h.aligned r hr
    have hlt := h.nonempty r hr
    have hps : pageSize = 4096 := rfl
    rw [href, Option.bind_some, PageRef.pfn] at hfound
    rw [hps] at hb he hfound
    have hindex : ¬ r.endAddr / 4096 - r.base / 4096 < (r.endAddr - r.base) / 4096 := by omega
    rw [if_neg hindex] at hfound
    cases hfound
  · have hnull := hexact.null (fun s hs hin => hother ⟨s, hs, hin⟩)
    rw [href] at hnull
    cases hnull

end

theorem apart_of_run (hp : p.regionList = []) (hne : ∀ r ∈ rs, r.base < r.endAddr)
    (hdisj : rs.Pairwise (fun r s => r.endAddr ≤ s.base ∨ s.endAddr ≤ r.base))
    (hrun : addRegions rs p = .ok q) :
    Apart q.regionList ∧ ∀ r, r ∈ q.regionList ↔ r ∈ rs := by
  have hnone : Added [] p.regionList := by
    rw [hp]
    exact ⟨List.Pairwise.nil, fun r => Iff.rfl⟩
  obtain ⟨hadded, haligned⟩ := added_of_run hnone (List.nil_append rs).symm hrun
  have hsymm : Std.Symm (fun r s : Region => r.endAddr ≤ s.base ∨ s.endAddr ≤ r.base) :=
    ⟨fun _ _ hrs => hrs.symm⟩
  refine ⟨⟨fun r hr => haligned r ((hadded.mem r).mp hr),
    fun r hr => hne r ((hadded.mem r).mp hr), ?_, hadded.sorted⟩, hadded.mem⟩
  intro r hr s hs hrs
  exact hdisj.forall ((hadded.mem r).mp hr) ((hadded.mem s).mp hs) hrs

/-- **Looking a page up** is exact, for every address that is not the end of a region. -/
theorem exactAt_iff (hp : p.regionList = []) (hne : ∀ r ∈ rs, r.base < r.endAddr)
    (hdisj : rs.Pairwise (fun r s => r.endAddr ≤ s.base ∨ s.endAddr ≤ r.base))
    (hrun : addRegions rs p = .ok q) (a : ℕ) :
    ExactAt q a ↔ ∀ r ∈ rs, a ≠ r.endAddr := by
  obtain ⟨hapart, hmem⟩ := apart_of_run hp hne hdisj hrun
  constructor
  · rintro hexact r hr rfl
    exact hapart.not_exactAt_end ((hmem r).mpr hr) hexact
  · intro hno
    exact hapart.exactAt (fun r hr => hno r ((hmem r).mp hr))

/-- Two adjacent regions of four pages. -/
def twoRegions : List Region := [⟨0x100000, 0x104000⟩, ⟨0x104000, 0x108000⟩]

theorem twoRegions_run : ∃ q, addRegions twoRegions lowZone = .ok q := by
  have hok : (addRegions twoRegions lowZone).isOk = true := by decide +kernel
  cases hrun : addRegions twoRegions lowZone with
  | error e =>
    rw [hrun] at hok
    cases hok
  | ok q => exact ⟨q, rfl⟩

/-- Inside the second region. -/
theorem exactAt_inside :
    ∃ q, addRegions twoRegions lowZone = .ok q ∧ ExactAt q 0x105000 := by
  obtain ⟨q, hrun⟩ := twoRegions_run
  exact ⟨q, hrun, (exactAt_iff rfl (by decide) (by decide) hrun 0x105000).mpr (by decide)⟩

/-- At the start of the second region, which is the end of the first. -/
theorem not_exactAt_boundary :
    ∃ q, addRegions twoRegions lowZone = .ok q ∧ ¬ ExactAt q 0x104000 := by
  obtain ⟨q, hrun⟩ := twoRegions_run
  obtain ⟨hapart, hmem⟩ := apart_of_run rfl (by decide) (by decide) hrun
  refine ⟨q, hrun, ?_⟩
  exact hapart.not_exactAt_end ((hmem ⟨0x100000, 0x104000⟩).mpr List.mem_cons_self)

end Pmm
