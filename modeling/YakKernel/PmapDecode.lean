/-
# Decoding page table entries

`pte_make` against `pte_paddr`, `pte_is_large` and `pmap_protect_range`.  `pte_paddr` reads the
address field of a small page on every level; in the entry of a large page its lowest bit is the
`PAT` bit, which `VM_WC` sets.
-/
import YakKernel.PmapEntry
import YakKernel.PmapWalk

namespace Pmap

set_option linter.unusedSectionVars false

/-! ## Masks -/

/-- The address bits of an entry at a level. -/
def frameMask (level : ℕ) : Pte := pteAddress &&& ~~~(BitVec.ofNat 64 (2 ^ (12 + 9 * level) - 1))

/-- The frame that the processor finds in an entry at a level. -/
def pteFrame (level : ℕ) (pte : Pte) : Paddr := pte &&& frameMask level

theorem pgsz_cases {level size : ℕ} (h : pgsz level = some size) :
    level ≤ 2 ∧ size = 2 ^ (12 + 9 * level) := by
  by_cases h3 : level ≤ 2
  · refine ⟨h3, ?_⟩
    interval_cases level
    all_goals exact (Option.some.inj h).symm
  · have hlen : pmapLargePageSizes.length ≤ level - 1 := by
      rw [pmapLargePageSizes, List.length_cons, List.length_singleton]
      omega
    rw [pgsz, if_neg (by omega), List.getElem?_eq_none hlen] at h
    cases h

theorem pteAddress_and_frameMask (level : ℕ) :
    pteAddress &&& frameMask level = frameMask level := by
  rw [frameMask, ← BitVec.and_assoc, BitVec.and_self]

theorem pteFrame_paddr (level : ℕ) (pte : Pte) : pteFrame level (ptePaddr pte) = pteFrame level pte := by
  rw [pteFrame, pteFrame, ptePaddr, BitVec.and_assoc, pteAddress_and_frameMask]

/-- The flags that `pte_make` sets beside the cache mode. -/
def flagBits : Pte :=
  ptePresent ||| pteWrite ||| pteNoExecute ||| pteUser ||| pteGlobal ||| ptePagesize

theorem pteFlags_and {mask : Pte} (hmask : flagBits &&& mask = 0) (level : ℕ) (prot : VmProt)
    (cache : VmCache) : pteFlags level prot cache &&& mask = ptePatBits level cache &&& mask := by
  have hflag : ∀ x : Pte, x &&& flagBits = x → x &&& mask = 0 := by
    intro x hx
    rw [← hx, BitVec.and_assoc, hmask]
    exact BitVec.and_zero
  have hzero : (0 : Pte) &&& mask = 0 := BitVec.zero_and
  have hdrop : ∀ {x y : Pte}, x &&& mask = 0 → (x ||| y) &&& mask = y &&& mask := by
    intro x y hx
    rw [BitVec.and_or_distrib_right, hx]
    exact BitVec.zero_or
  unfold pteFlags pteMake
  refine (congrArg (fun x : Pte => x &&& mask) BitVec.or_zero).trans (hdrop ?_)
  refine or_and_eq_zero (or_and_eq_zero (or_and_eq_zero (or_and_eq_zero (or_and_eq_zero
    (ite_and_eq_zero (hflag _ (by decide)) hzero) (ite_and_eq_zero (hflag _ (by decide)) hzero))
    (ite_and_eq_zero hzero (hflag _ (by decide)))) (ite_and_eq_zero (hflag _ (by decide)) hzero))
    (ite_and_eq_zero (hflag _ (by decide)) hzero)) (ite_and_eq_zero (hflag _ (by decide)) hzero)

theorem pteFlags_and_frameMask {level : ℕ} (hlevel : level ≤ 2) (prot : VmProt) (cache : VmCache) :
    pteFlags level prot cache &&& frameMask level = 0 := by
  have hmask : flagBits &&& frameMask level = 0 := by
    interval_cases level
    all_goals decide +kernel
  rw [pteFlags_and hmask, ptePatBits]
  interval_cases level
  all_goals
    exact ite_and_eq_zero (by decide +kernel) (ite_and_eq_zero (by decide +kernel)
      (ite_and_eq_zero (by decide +kernel) (ite_and_eq_zero (by decide +kernel)
        (by decide +kernel))))

theorem pteFrame_of_aligned {level size : ℕ} {pa : Paddr} (hsize : pgsz level = some size)
    (halign : pa.toNat % size = 0) (hlt : pa.toNat < 2 ^ 52) : pteFrame level pa = pa := by
  obtain ⟨hlevel, rfl⟩ := pgsz_cases hsize
  have hlow : pa &&& BitVec.ofNat 64 (2 ^ (12 + 9 * level) - 1) = 0 := by
    apply BitVec.eq_of_toNat_eq
    have hmask : 2 ^ (12 + 9 * level) - 1 < 2 ^ 64 := by
      have hpow : 2 ^ (12 + 9 * level) ≤ 2 ^ 30 := Nat.pow_le_pow_right (by omega) (by omega)
      omega
    rw [BitVec.toNat_and, BitVec.toNat_ofNat, Nat.mod_eq_of_lt hmask, Nat.and_two_pow_sub_one_eq_mod]
    exact halign
  have hpaddr : pa &&& pteAddress = pa := by
    have hsmall : pa.toNat % 4096 = 0 := by
      have hdvd : 4096 ∣ 2 ^ (12 + 9 * level) := Nat.pow_dvd_pow 2 (by omega : 12 ≤ 12 + 9 * level)
      exact Nat.mod_eq_zero_of_dvd (Nat.dvd_trans hdvd (Nat.dvd_of_mod_eq_zero halign))
    have hofNat := @ptePaddr_ofNat pa.toNat 0 hsmall (by omega) hlt
    rw [Nat.add_zero, BitVec.ofNat_toNat, BitVec.setWidth_eq] at hofNat
    exact hofNat
  rw [pteFrame, frameMask, ← BitVec.and_assoc, hpaddr]
  exact and_not_of_and_eq_zero hlow

/-- **The processor finds the address** that `pte_make` was given. -/
theorem pteFrame_make {level size : ℕ} {pa : Paddr} (hsize : pgsz level = some size)
    (halign : pa.toNat % size = 0) (hlt : pa.toNat < 2 ^ 52) (prot : VmProt) (cache : VmCache) :
    pteFrame level (pteMake level pa prot cache) = pa := by
  have hpa : pa &&& frameMask level = pa := pteFrame_of_aligned hsize halign hlt
  rw [pteMake_eq, pteFrame, BitVec.and_or_distrib_right,
    pteFlags_and_frameMask (pgsz_cases hsize).1, hpa]
  exact BitVec.zero_or

theorem pteFrame_remake {level : ℕ} (hlevel : level ≤ 2) (pte : Pte) (prot : VmProt)
    (cache : VmCache) :
    pteFrame level (pteMake level (ptePaddr pte) prot cache) = pteFrame level pte := by
  rw [← pteFrame_paddr level pte, pteMake_eq, pteFrame, BitVec.and_or_distrib_right,
    pteFlags_and_frameMask hlevel]
  exact BitVec.zero_or

/-! ## What `pte_paddr` reads -/

theorem pteFlags_and_pteAddress (level : ℕ) (prot : VmProt) (cache : VmCache) :
    pteFlags level prot cache &&& pteAddress =
      if 0 < level ∧ cache = vmWc then ptePatLarge else 0 := by
  have hmask : flagBits &&& pteAddress = 0 := by decide
  rw [pteFlags_and hmask, ptePatBits]
  by_cases hcache : cache = vmWc
  · rw [if_pos hcache]
    by_cases hlevel : 0 < level
    · rw [if_pos hlevel, if_pos ⟨hlevel, hcache⟩]
      decide
    · rw [if_neg hlevel, if_neg (fun hand => hlevel hand.1)]
      decide
  · rw [if_neg hcache]
    refine (ite_and_eq_zero (by decide) (ite_and_eq_zero (by decide)
      (ite_and_eq_zero (by decide) (by decide)))).trans ?_
    rw [if_neg (fun hand : 0 < level ∧ cache = vmWc => hcache hand.2)]

/-- **What `pte_paddr` reads** from a mapping of an aligned address. -/
theorem ptePaddr_pteMake {level size : ℕ} {pa : Paddr} (hsize : pgsz level = some size)
    (halign : pa.toNat % size = 0) (hlt : pa.toNat < 2 ^ 52) (prot : VmProt) (cache : VmCache) :
    ptePaddr (pteMake level pa prot cache) = pa ↔ ¬ (0 < level ∧ cache = vmWc) := by
  have hpa : pa &&& pteAddress = pa := by
    have hframe : pa &&& frameMask level = pa := pteFrame_of_aligned hsize halign hlt
    rw [← hframe, BitVec.and_assoc, BitVec.and_comm (frameMask level), pteAddress_and_frameMask]
  have hread : ptePaddr (pteMake level pa prot cache) =
      (if 0 < level ∧ cache = vmWc then ptePatLarge else 0) ||| pa := by
    rw [pteMake_eq, ptePaddr, BitVec.and_or_distrib_right, pteFlags_and_pteAddress, hpa]
  rw [hread]
  by_cases hbad : 0 < level ∧ cache = vmWc
  · rw [if_pos hbad]
    refine iff_of_false ?_ (fun hno => hno hbad)
    intro hsame
    -- the bit of `PAT` is none of an aligned address
    have hbit : (ptePatLarge ||| pa) &&& ptePatLarge = ptePatLarge := by
      rw [BitVec.and_or_distrib_right, BitVec.and_self]
      ext i hi
      simp only [BitVec.getElem_or, BitVec.getElem_and]
      cases ptePatLarge[i] <;> cases pa[i] <;> rfl
    have hpat : pa &&& ptePatLarge = 0 := by
      have hframe : pa &&& frameMask level = pa := pteFrame_of_aligned hsize halign hlt
      have hout : frameMask level &&& ptePatLarge = 0 := by
        have hlevel := (pgsz_cases hsize).1
        have hpos := hbad.1
        interval_cases level
        all_goals decide +kernel
      rw [← hframe, BitVec.and_assoc, hout]
      exact BitVec.and_zero
    rw [hsame, hpat] at hbit
    exact absurd hbit (by decide)
  · rw [if_neg hbad]
    exact iff_of_true BitVec.zero_or hbad

theorem pteIsLarge_make (level : ℕ) (pa : Paddr) (prot : VmProt) (cache : VmCache) :
    pteIsLarge (pteMake level pa prot cache) level = true ↔ 0 < level := by
  rw [pteIsLarge, decide_eq_true_iff]
  refine and_iff_left_of_imp (fun hpos hzero => ?_)
  have hbit := congrArg (fun x : BitVec 64 => x.getLsbD 7) hzero
  simp [pteMake, ptePagesize, hpos] at hbit

/-! ## `pmap_protect_range` -/

section

variable {P : Type} [DecidableEq P] {s : State P} {p : P} {va : Vaddr} {level size : ℕ}

/-- The entry for `va` at a level. -/
def State.entry (s : State P) (p : P) (va : Vaddr) (level : ℕ) : Option Pte :=
  (s.tableAt p (pathTo va (3 - level))).map (fun table => s.mem table (levelIndex va level))

theorem offsets_page {length : BitVec 64} (hsize : pgsz level = some size)
    (hpos : 0 < length.toNat) (hle : length.toNat ≤ size) : offsets length level = some [0] := by
  have hlevel := pgsz_cases hsize
  have hbound : size ≤ 2 ^ 30 := by
    rw [hlevel.2]
    exact Nat.pow_le_pow_right (by omega) (by omega)
  have hone : (length.toNat + size - 1) / size = 1 := by
    rw [Nat.div_eq_iff (by omega)]
    omega
  rw [offsets, hsize, Option.bind_some, hone, if_pos (by omega), List.range_one,
    List.map_singleton, Nat.zero_mul]

/-- **`pmap_protect_range` of one page**: its entry is made again. -/
theorem pmapProtectRange_page (kernel : P) {length : BitVec 64} {pte : Pte} (h : s.Separate p)
    (hsize : pgsz level = some size) (hpos : 0 < length.toNat) (hle : length.toNat ≤ size)
    (hentry : s.entry p va level = some pte) (hzero : pteIsZero pte = false) (prot : VmProt)
    (cache : VmCache) : ∃ s', pmapProtectRange kernel p va length prot cache level s = some s' ∧
      s'.entry p va level = some (pteMake level (ptePaddr pte) prot cache) := by
  obtain ⟨t, ht, hpte⟩ := Option.map_eq_some_iff.mp hentry
  have hlevel : level ≤ 3 := Nat.le_succ_of_le (pgsz_cases hsize).1
  refine ⟨s.pteStore t (levelIndex va level) (pteMake level (ptePaddr pte) prot cache), ?_, ?_⟩
  · have hva : va + BitVec.ofNat 64 0 = va := BitVec.add_zero va
    rw [pmapProtectRange, offsets_page hsize hpos hle, Option.bind_some, List.foldlM_cons, hva,
      protectPage, pteFetch_of_tableAt false hlevel ht, Option.map_some, Option.elim_some, hpte,
      hzero, if_neg Bool.false_ne_true]
    rfl
  · rw [State.entry, h.tableAt_pteStore_self hlevel ht, Option.map_some, State.pteStore_apply,
      if_pos ⟨rfl, rfl⟩]

/-- What the encoding is for: the address reads back, large pages are known, and a protected page
stays on its frame. -/
structure Decodable (kernel : P) (level : ℕ) (pa : Paddr) (prot : VmProt) (cache : VmCache) :
    Prop where
  paddr : ptePaddr (pteMake level pa prot cache) = pa
  large : pteIsLarge (pteMake level pa prot cache) level = true ↔ 0 < level
  protect : ∀ (s : State P) (p : P) (va : Vaddr) (length : BitVec 64) (prot' : VmProt)
    (cache' : VmCache), s.Separate p → 0 < length.toNat → (∀ size ∈ pgsz level,
      length.toNat ≤ size) → s.entry p va level = some (pteMake level pa prot cache) →
    ∃ s', pmapProtectRange kernel p va length prot' cache' level s = some s' ∧
      (s'.entry p va level).map (pteFrame level) = some pa

/-- **Decodability.**  An entry of a level is decodable exactly if it is none of a large page that
combines writes. -/
theorem decodable_iff (kernel : P) {pa : Paddr} {prot : VmProt} (hsize : pgsz level = some size)
    (halign : pa.toNat % size = 0) (hlt : pa.toNat < 2 ^ 52) (hprot : prot &&& vmRead ≠ 0)
    (cache : VmCache) :
    Decodable kernel level pa prot cache ↔ ¬ (0 < level ∧ cache = vmWc) := by
  rw [← ptePaddr_pteMake hsize halign hlt prot cache]
  refine ⟨fun h => h.paddr, fun hpaddr => ⟨hpaddr, pteIsLarge_make level pa prot cache, ?_⟩⟩
  intro s p va length prot' cache' hsep hpos hle hentry
  obtain ⟨s', hs', hentry'⟩ := pmapProtectRange_page kernel hsep hsize hpos (hle size hsize) hentry
    (pteIsZero_make hprot level pa cache) prot' cache'
  refine ⟨s', hs', ?_⟩
  rw [hentry', Option.map_some, pteFrame_remake (pgsz_cases hsize).1,
    pteFrame_make hsize halign hlt]

/-- A large page that combines writes: the address that is read is another. -/
theorem decodable_large_wc : ¬ Decodable () 1 0x40000000 vmRead vmWc :=
  fun h => absurd h.paddr (by decide)

/-- A large page with the default cache mode. -/
theorem decodable_large_wb : Decodable () 1 0x40000000 vmRead vmWb :=
  (@decodable_iff Unit _ 1 2097152 () 0x40000000 vmRead rfl (by decide) (by decide) (by decide)
    vmWb).mpr (by decide)

end

end Pmap
