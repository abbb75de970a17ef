/-
# Mapping a range with large pages

`pmap_large_map_range` of `vm/generic_pmap.c`: at every turn the largest page that both addresses
and the rest of the range allow, else small pages up to the next boundary of a large page.  The
number of turns is bounded by `fuel`; `none` is a turn too many or a failed assertion.
-/
import YakKernel.PmapDecode

namespace Pmap

set_option linter.unusedSectionVars false

/-! ## The call -/

/-- `IS_ALIGNED_POW2`. -/
def isAlignedPow2 (addr align : BitVec 64) : Bool := addr &&& (align - 1) = 0

/-- A large page of this size fits: it ends in the range, and both addresses are aligned. -/
def fitsLarge (curr fin : Paddr) (va : Vaddr) (size : BitVec 64) : Bool :=
  ¬ fin < curr + size ∧ isAlignedPow2 curr size ∧ isAlignedPow2 va size

/-- `chosen_level`: the sizes are tried from the largest on, and `0` is none. -/
def chosenLevel (curr fin : Paddr) (va : Vaddr) : ℕ :=
  ([2, 1].find? (fun level => (pgsz level).any (fun size =>
    fitsLarge curr fin va (BitVec.ofNat 64 size)))).getD 0

section

variable {P : Type} [DecidableEq P] (kernel p : P) (base : Paddr) (fin : Paddr) (vb : Vaddr)
  (prot : VmProt) (cache : VmCache)

/-- A page is mapped at `curr`, which goes on by its size. -/
def mapPage (level : ℕ) (r : State P × Paddr) : Option (State P × Paddr) :=
  (pgsz level).bind (fun size =>
    (pmapMap kernel p (vb + (r.2 - base)) r.2 level prot cache r.1).map
      (fun s => (s, r.2 + BitVec.ofNat 64 size)))

/-- `while (pages--)`. -/
def mapPages : ℕ → State P × Paddr → Option (State P × Paddr)
  | 0, r => some r
  | pages + 1, r => (mapPage kernel p base vb prot cache 0 r).bind (mapPages pages)

/-- `smallest_large`. -/
def smallestLarge : BitVec 64 := 2097152

/-- The small pages up to the boundary of a large page or the end of the range. -/
def pagesToBoundary (curr fin : Paddr) : ℕ :=
  ((if fin < curr + (smallestLarge - (curr &&& (smallestLarge - 1))) then fin - curr
    else smallestLarge - (curr &&& (smallestLarge - 1))) >>> 12).toNat

/-- A turn of the loop. -/
def largeMapTurn (r : State P × Paddr) : Option (State P × Paddr) :=
  if chosenLevel r.2 fin (vb + (r.2 - base)) ≠ 0 then
    mapPage kernel p base vb prot cache (chosenLevel r.2 fin (vb + (r.2 - base))) r
  else if r.2 &&& (smallestLarge - 1) ≠ 0 then
    mapPages kernel p base vb prot cache (pagesToBoundary r.2 fin) r
  else mapPage kernel p base vb prot cache 0 r

def largeMapLoop : ℕ → State P × Paddr → Option (State P × Paddr)
  | 0, _ => none
  | fuel + 1, r =>
    if r.2 < fin then (largeMapTurn kernel p base fin vb prot cache r).bind (largeMapLoop fuel)
    else some r

end

theorem isAlignedPow2_iff (addr : BitVec 64) {k : ℕ} (hk : k < 64) :
    isAlignedPow2 addr (BitVec.ofNat 64 (2 ^ k)) = true ↔ addr.toNat % 2 ^ k = 0 := by
  have hpos := Nat.two_pow_pos k
  have hlt : 2 ^ k < 2 ^ 64 := Nat.pow_lt_pow_right (by decide) hk
  have hmask : (BitVec.ofNat 64 (2 ^ k) - 1).toNat = 2 ^ k - 1 := by
    rw [BitVec.toNat_sub, BitVec.toNat_ofNat]
    have hone : (1 : BitVec 64).toNat = 1 := rfl
    omega
  rw [isAlignedPow2, decide_eq_true_iff, ← BitVec.toNat_inj, BitVec.toNat_and, hmask,
    Nat.and_two_pow_sub_one_eq_mod]
  rfl

theorem add_sub_self (x y : BitVec 64) : x + y - x = y := by
  rw [BitVec.add_comm, BitVec.add_sub_cancel]

theorem chosenLevel_spec (curr fin : Paddr) (va : Vaddr) :
    ∃ size, pgsz (chosenLevel curr fin va) = some size ∧ (chosenLevel curr fin va ≠ 0 →
      fitsLarge curr fin va (BitVec.ofNat 64 size) = true) := by
  rw [chosenLevel]
  cases hfind : [2, 1].find? (fun level => (pgsz level).any (fun size =>
    fitsLarge curr fin va (BitVec.ofNat 64 size))) with
  | none => exact ⟨4096, rfl, fun hno => absurd rfl hno⟩
  | some level =>
    have hany := List.find?_some hfind
    cases hsize : pgsz level with
    | none =>
      rw [hsize] at hany
      cases hany
    | some size =>
      rw [hsize] at hany
      exact ⟨size, hsize, fun _ => hany⟩

/-! ## What is mapped so far -/

/-- The ranges that can be mapped: in pages, with physical addresses and addresses that the
processor takes. -/
structure LargeRange (base : Paddr) (length : BitVec 64) (vb : Vaddr) : Prop where
  baseAligned : base.toNat % 4096 = 0
  lengthAligned : length.toNat % 4096 = 0
  virtualAligned : vb.toNat % 4096 = 0
  physical : base.toNat + length.toNat ≤ 2 ^ 52
  canonical : ∀ va, (va - vb).toNat < length.toNat → Canonical va

/-- The physical address of `va` if the processor finds this entry at this level. -/
def physical (va : Vaddr) (entry : Pte × ℕ) : ℕ :=
  (pteFrame entry.2 entry.1).toNat + va.toNat % 2 ^ (12 + 9 * entry.2)

section

variable {P : Type} [DecidableEq P] {kernel p : P} {base : Paddr} {length : BitVec 64} {vb : Vaddr}
  {prot : VmProt} {cache : VmCache} {s₀ s s' : State P} {off size lvl : ℕ}

/-- An address of the range is translated to its physical address, with the protection. -/
def State.MapsTo (s : State P) (p : P) (va : Vaddr) (pa : ℕ) (prot : VmProt) (cache : VmCache) :
    Prop :=
  ∃ lvl frame, s.translation p va = some (pteMake lvl frame prot cache, lvl) ∧
    physical va (pteMake lvl frame prot cache, lvl) = pa

/-- **The invariant of the loop**: the first `off` bytes are mapped, and nothing else is changed. -/
structure MappedUpTo (kernel p : P) (base : Paddr) (length : BitVec 64) (vb : Vaddr) (prot : VmProt)
    (cache : VmCache) (s₀ s : State P) (off : ℕ) : Prop where
  labelled : s.Labelled kernel p
  le : off ≤ length.toNat
  aligned : off % 4096 = 0
  inside : ∀ va, Canonical va → (va - vb).toNat < off →
    s.MapsTo p va (base.toNat + (va - vb).toNat) prot cache
  outside : ∀ va, Canonical va → off ≤ (va - vb).toNat → s.translation p va = s₀.translation p va
  supplied : s.Supplied (3 * ((length.toNat - off) / 4096))

theorem sub_page_lt_iff (va : Vaddr) (hoff : off + size ≤ 2 ^ 52) :
    (va - (vb + BitVec.ofNat 64 off)).toNat < size ↔
      off ≤ (va - vb).toNat ∧ (va - vb).toNat < off + size := by
  have hlt := va.isLt
  have hlt' := vb.isLt
  rw [BitVec.toNat_sub, BitVec.toNat_add, BitVec.toNat_sub, BitVec.toNat_ofNat]
  omega

theorem offset_in_page {page va : Vaddr} (hlvl : lvl ≤ 2)
    (halign : page.toNat % 2 ^ (12 + 9 * lvl) = 0)
    (hin : (va - page).toNat < 2 ^ (12 + 9 * lvl)) :
    va.toNat % 2 ^ (12 + 9 * lvl) = (va - page).toNat := by
  have hlt := va.isLt
  have hlt' := page.isLt
  rw [BitVec.toNat_sub] at hin ⊢
  interval_cases lvl
  all_goals omega

/-- **A page of the range is mapped.** -/
theorem MappedUpTo.mapPage (hr : LargeRange base length vb) (hprot : prot &&& vmRead ≠ 0)
    (hfree : ∀ va, (va - vb).toNat < length.toNat → s₀.translation p va = none)
    (h : MappedUpTo kernel p base length vb prot cache s₀ s off) (hsize : pgsz lvl = some size)
    (hoff : off + size ≤ length.toNat) (hpa : (base.toNat + off) % size = 0)
    (hva : (vb + BitVec.ofNat 64 off).toNat % size = 0) :
    ∃ s', Pmap.mapPage kernel p base vb prot cache lvl (s, base + BitVec.ofNat 64 off)
        = some (s', base + BitVec.ofNat 64 (off + size)) ∧
      MappedUpTo kernel p base length vb prot cache s₀ s' (off + size) := by
  obtain ⟨hlvl, hpow⟩ := pgsz_cases hsize
  have hphys := hr.physical
  have hsmall : 4096 ∣ size := by
    rw [hpow]
    exact Nat.pow_dvd_pow 2 (by omega : 12 ≤ 12 + 9 * lvl)
  have hpos : 4096 ≤ size := by
    rw [hpow]
    exact Nat.pow_le_pow_right Nat.two_pos (by omega : 12 ≤ 12 + 9 * lvl)
  have hdist : ∀ va : Vaddr, (va - (vb + BitVec.ofNat 64 off)).toNat < size ↔
      off ≤ (va - vb).toNat ∧ (va - vb).toNat < off + size :=
    fun va => sub_page_lt_iff va (by omega)
  have hfirst : (vb + BitVec.ofNat 64 off - vb).toNat = off := by
    rw [add_sub_self, BitVec.toNat_ofNat]
    omega
  have hcanon := hr.canonical (vb + BitVec.ofNat 64 off) (by omega)
  have hpaNat : (base + BitVec.ofNat 64 off).toNat = base.toNat + off := by
    rw [BitVec.toNat_add, BitVec.toNat_ofNat]
    omega
  have hnone : s.translation p (vb + BitVec.ofNat 64 off) = none := by
    rw [h.outside _ hcanon (by omega)]
    exact hfree _ (by omega)
  have hsup : s.Supplied (3 * ((length.toNat - (off + size)) / 4096) + 3) :=
    ⟨h.supplied.nodup, h.supplied.fresh, by have henough := h.supplied.enough; omega⟩
  obtain ⟨s', hmap, hmaps⟩ := pmapMap_maps (base + BitVec.ofNat 64 off) cache h.labelled
    (Nat.le_succ_of_le hlvl) hprot hnone hsup
  refine ⟨s', ?_, hmaps.labelled, hoff, ?_, ?_, ?_, hmaps.supplied⟩
  · rw [Pmap.mapPage, hsize, Option.bind_some, add_sub_self, hmap, Option.map_some,
      BitVec.add_assoc, ← BitVec.ofNat_add]
  · have haligned := h.aligned
    omega
  · intro va hcan hlt
    have hblock := pathTo_eq_iff_sub_lt hlvl hcanon hcan (hpow ▸ hva)
    rw [← hpow, hdist va] at hblock
    by_cases hold : (va - vb).toNat < off
    · obtain ⟨lvl', frame, htrans, hphysical⟩ := h.inside va hcan hold
      refine ⟨lvl', frame, ?_, hphysical⟩
      rw [hmaps.translation, if_neg (fun hno => by have hin := hblock.mp hno; omega)]
      exact htrans
    · have hin : (va - (vb + BitVec.ofNat 64 off)).toNat < size := (hdist va).mpr ⟨by omega, hlt⟩
      refine ⟨lvl, base + BitVec.ofNat 64 off, ?_, ?_⟩
      · rw [hmaps.translation, if_pos (hblock.mpr ⟨by omega, hlt⟩)]
      · have hframe := pteFrame_make hsize (by rw [hpaNat]; exact hpa) (by omega) prot cache
        show (pteFrame lvl _).toNat + va.toNat % 2 ^ (12 + 9 * lvl) = _
        rw [hframe, offset_in_page hlvl (hpow ▸ hva) (hpow ▸ hin), hpaNat]
        have hsub : (va - (vb + BitVec.ofNat 64 off)).toNat = (va - vb).toNat - off := by
          have hge : off ≤ (va - vb).toNat := by omega
          rw [← BitVec.sub_sub, BitVec.toNat_sub, BitVec.toNat_ofNat]
          have hbound := (va - vb).isLt
          omega
        omega
  · intro va hcan hge
    have hblock := pathTo_eq_iff_sub_lt hlvl hcanon hcan (hpow ▸ hva)
    rw [← hpow, hdist va] at hblock
    rw [hmaps.translation, if_neg (fun hno => by have hin := hblock.mp hno; omega)]
    exact h.outside va hcan (by omega)

/-! ## The loop -/

theorem LargeRange.cursor_toNat (hr : LargeRange base length vb) (hoff : off ≤ length.toNat) :
    (base + BitVec.ofNat 64 off).toNat = base.toNat + off := by
  have hphys := hr.physical
  rw [BitVec.toNat_add, BitVec.toNat_ofNat]
  omega

theorem LargeRange.fin_toNat (hr : LargeRange base length vb) :
    (base + length).toNat = base.toNat + length.toNat := by
  have hphys := hr.physical
  rw [BitVec.toNat_add]
  omega

theorem MappedUpTo.mapPages (hr : LargeRange base length vb) (hprot : prot &&& vmRead ≠ 0)
    (hfree : ∀ va, (va - vb).toNat < length.toNat → s₀.translation p va = none) {pages : ℕ}
    (h : MappedUpTo kernel p base length vb prot cache s₀ s off)
    (hoff : off + pages * 4096 ≤ length.toNat) :
    ∃ s', Pmap.mapPages kernel p base vb prot cache pages (s, base + BitVec.ofNat 64 off)
        = some (s', base + BitVec.ofNat 64 (off + pages * 4096)) ∧
      MappedUpTo kernel p base length vb prot cache s₀ s' (off + pages * 4096) := by
  induction pages generalizing s off with
  | zero => exact ⟨s, by rw [Nat.zero_mul]; rfl, by rw [Nat.zero_mul]; exact h⟩
  | succ pages ih =>
    have hbase := hr.baseAligned
    have hvb := hr.virtualAligned
    have haligned := h.aligned
    have hvaligned : (vb + BitVec.ofNat 64 off).toNat % 4096 = 0 := by
      rw [BitVec.toNat_add, BitVec.toNat_ofNat]
      omega
    have hsize : pgsz 0 = some 4096 := rfl
    obtain ⟨s₁, hmap, h₁⟩ := h.mapPage hr hprot hfree hsize (by omega) (by omega) hvaligned
    obtain ⟨s₂, hrest, h₂⟩ := ih h₁ (by omega)
    have hsum : off + (pages + 1) * 4096 = off + 4096 + pages * 4096 := by omega
    refine ⟨s₂, ?_, by rw [hsum]; exact h₂⟩
    rw [Pmap.mapPages, hmap, Option.bind_some, hsum]
    exact hrest

theorem misalign_toNat (curr : Paddr) :
    (curr &&& (smallestLarge - 1)).toNat = curr.toNat % 2097152 := by
  rw [BitVec.toNat_and]
  exact Nat.and_two_pow_sub_one_eq_mod _ 21

theorem LargeRange.pagesToBoundary_spec (hr : LargeRange base length vb)
    (haligned : off % 4096 = 0) (hoff : off < length.toNat)
    (hmis : base + BitVec.ofNat 64 off &&& (smallestLarge - 1) ≠ 0) :
    0 < pagesToBoundary (base + BitVec.ofNat 64 off) (base + length) ∧
      off + pagesToBoundary (base + BitVec.ofNat 64 off) (base + length) * 4096
        ≤ length.toNat := by
  have hphys := hr.physical
  have hbase := hr.baseAligned
  have hlength := hr.lengthAligned
  have hcurr := hr.cursor_toNat (Nat.le_of_lt hoff)
  have hfin := hr.fin_toNat
  have hm := misalign_toNat (base + BitVec.ofNat 64 off)
  have hmpos : (base + BitVec.ofNat 64 off).toNat % 2097152 ≠ 0 := by
    intro hzero
    exact hmis (BitVec.eq_of_toNat_eq (hm.trans hzero))
  have hadv : (smallestLarge - (base + BitVec.ofNat 64 off &&& (smallestLarge - 1))).toNat =
      2097152 - (base.toNat + off) % 2097152 := by
    have hlarge : smallestLarge.toNat = 2097152 := rfl
    rw [BitVec.toNat_sub, hm, hcurr, hlarge]
    omega
  have hend : (base + BitVec.ofNat 64 off +
      (smallestLarge - (base + BitVec.ofNat 64 off &&& (smallestLarge - 1)))).toNat =
      base.toNat + off + (2097152 - (base.toNat + off) % 2097152) := by
    rw [BitVec.toNat_add, hadv, hcurr]
    omega
  rw [hcurr] at hmpos
  rw [pagesToBoundary, BitVec.toNat_ushiftRight, Nat.shiftRight_eq_div_pow]
  split
  · rename_i hover
    rw [BitVec.lt_def, hend, hfin] at hover
    rw [BitVec.toNat_sub, hcurr, hfin]
    omega
  · rename_i hover
    rw [BitVec.lt_def, hend, hfin] at hover
    rw [hadv]
    omega

/-- **A turn of the loop** goes on in the range. -/
theorem MappedUpTo.largeMapTurn (hr : LargeRange base length vb) (hprot : prot &&& vmRead ≠ 0)
    (hfree : ∀ va, (va - vb).toNat < length.toNat → s₀.translation p va = none)
    (h : MappedUpTo kernel p base length vb prot cache s₀ s off) (hoff : off < length.toNat) :
    ∃ s' off', off + 4096 ≤ off' ∧
      Pmap.largeMapTurn kernel p base (base + length) vb prot cache (s, base + BitVec.ofNat 64 off)
        = some (s', base + BitVec.ofNat 64 off') ∧
      MappedUpTo kernel p base length vb prot cache s₀ s' off' := by
  have hphys := hr.physical
  have hcurr := hr.cursor_toNat h.le
  have hfin := hr.fin_toNat
  rw [Pmap.largeMapTurn, add_sub_self]
  obtain ⟨size, hsize, hfits⟩ := chosenLevel_spec (base + BitVec.ofNat 64 off) (base + length)
    (vb + BitVec.ofNat 64 off)
  generalize chosenLevel (base + BitVec.ofNat 64 off) (base + length)
    (vb + BitVec.ofNat 64 off) = lvl at hsize hfits ⊢
  by_cases hlarge : lvl ≠ 0
  · rw [if_pos hlarge]
    obtain ⟨hend, hpa, hva⟩ := of_decide_eq_true (hfits hlarge)
    obtain ⟨hlvl, hpow⟩ := pgsz_cases hsize
    have hbig : 4096 ≤ size ∧ size ≤ 2 ^ 30 := by
      rw [hpow]
      exact ⟨Nat.pow_le_pow_right Nat.two_pos (by omega : 12 ≤ 12 + 9 * lvl),
        Nat.pow_le_pow_right Nat.two_pos (by omega : 12 + 9 * lvl ≤ 30)⟩
    rw [hpow, isAlignedPow2_iff _ (by omega), ← hpow] at hpa hva
    rw [hcurr] at hpa
    have hle : off + size ≤ length.toNat := by
      rw [BitVec.lt_def, hfin, BitVec.toNat_add, hcurr, BitVec.toNat_ofNat] at hend
      omega
    obtain ⟨s', hmap, h'⟩ := h.mapPage hr hprot hfree hsize hle hpa hva
    exact ⟨s', off + size, by omega, hmap, h'⟩
  rw [if_neg hlarge]
  by_cases hmis : base + BitVec.ofNat 64 off &&& (smallestLarge - 1) ≠ 0
  · rw [if_pos hmis]
    obtain ⟨hpos, hle⟩ := hr.pagesToBoundary_spec h.aligned hoff hmis
    obtain ⟨s', hmap, h'⟩ := h.mapPages hr hprot hfree hle
    exact ⟨s', _, by omega, hmap, h'⟩
  · rw [if_neg hmis]
    have haligned := h.aligned
    have hlength := hr.lengthAligned
    have hone : off + 1 * 4096 ≤ length.toNat := by omega
    obtain ⟨s', hmap, h'⟩ := h.mapPages hr hprot hfree hone
    refine ⟨s', _, by omega, ?_, h'⟩
    rw [Pmap.mapPages] at hmap
    obtain ⟨r, hr', hdone⟩ := Option.bind_eq_some_iff.mp hmap
    rw [hr']
    exact hdone

/-- **The loop ends at the end of the range.** -/
theorem MappedUpTo.largeMapLoop (hr : LargeRange base length vb) (hprot : prot &&& vmRead ≠ 0)
    (hfree : ∀ va, (va - vb).toNat < length.toNat → s₀.translation p va = none) {fuel : ℕ}
    (h : MappedUpTo kernel p base length vb prot cache s₀ s off)
    (hfuel : (length.toNat - off) / 4096 < fuel) :
    ∃ s', Pmap.largeMapLoop kernel p base (base + length) vb prot cache fuel
        (s, base + BitVec.ofNat 64 off) = some (s', base + length) ∧
      MappedUpTo kernel p base length vb prot cache s₀ s' length.toNat := by
  induction fuel generalizing s off with
  | zero => exact absurd hfuel (Nat.not_lt_zero _)
  | succ fuel ih =>
    have hle := h.le
    have hcond : base + BitVec.ofNat 64 off < base + length ↔ off < length.toNat := by
      rw [BitVec.lt_def, hr.fin_toNat, hr.cursor_toNat hle]
      exact Nat.add_lt_add_iff_left
    rw [Pmap.largeMapLoop]
    by_cases hoff : off < length.toNat
    · rw [if_pos (hcond.mpr hoff)]
      obtain ⟨s₁, off', hon, hturn, h₁⟩ := h.largeMapTurn hr hprot hfree hoff
      rw [hturn, Option.bind_some]
      have hle' := h₁.le
      exact ih h₁ (by omega)
    · have hdone : off = length.toNat := by omega
      rw [if_neg (fun hno => hoff (hcond.mp hno))]
      rw [hdone] at h ⊢
      rw [BitVec.ofNat_toNat, BitVec.setWidth_eq]
      exact ⟨s, rfl, h⟩

end

/-! ## The range is mapped exactly -/

end Pmap
