/-
# The geometry of a cache

The chunks of every slab of a cache are aligned, disjoint and inside the slab exactly if the
alignment is no larger than a page and sixteen chunks fit into 63 pages.
-/
import YakKernel.VmemCache

namespace Kmem

open Vmem

/-! ## Sound caches -/

/-- The color of the slab number `n`. -/
def KmemCache.color (cp : KmemCache) (n : ℕ) : ℕ := cp.nextColor^[n] 0

/-- Where the chunks of a slab end: a small one has its header behind them. -/
def KmemCache.chunksEnd (cp : KmemCache) (pg : ℕ) : ℕ :=
  if cp.isSmall then pg + pageSize - slabHeaderSize else pg + cp.slabSize

/-- The objects of a slab: aligned, disjoint, and inside the slab without its header. -/
structure KmemCache.WellCut (cp : KmemCache) (align pg : ℕ) (objects : List ℕ) : Prop where
  length : objects.length = cp.maxChunks
  dvd : ∀ obj ∈ objects, align ∣ obj
  inside : ∀ obj ∈ objects, pg ≤ obj ∧ obj + cp.chunkSize ≤ cp.chunksEnd pg
  disjoint : objects.Pairwise
    (fun a b => a + cp.chunkSize ≤ b ∨ b + cp.chunkSize ≤ a)

/-- **Sound geometry**: the cache is defined, with two chunks or more, and every slab on whole
pages can be cut, whatever its color. -/
def SoundGeometry (size align : ℕ) : Prop :=
  ∃ cp, kmemCacheCreate size align none = some cp ∧ 2 ≤ cp.maxChunks ∧
    ∀ n pg, 0 < pg → pageSize ∣ pg → pg + cp.slabSize ≤ 2 ^ 64 →
      ∃ objects, cp.createSlab pg (cp.color n) = some objects ∧ cp.WellCut align pg objects

/-- The largest chunk of which sixteen fit into a slab. -/
def largestChunk : ℕ := (kmPagesMax - 1) * pageSize / 16

/-! ## The number of pages -/

variable {c size align : ℕ} {cp : KmemCache}

/-- What the search has found so far is large enough, and it has found something if there was
anything to find. -/
theorem foldl_lessWaste (xs : List ℕ) {best : ℕ × Option ℕ}
    (hxs : ∀ i ∈ xs, i < kmPagesMax) (hbest : best.2 = none → best.1 = 2 ^ 64 - 1) :
    (∀ i, (xs.foldl (lessWaste c) best).2 = some i →
      best.2 = some i ∨ i ∈ xs ∧ 16 ≤ i * pageSize / c) ∧
    ((xs.foldl (lessWaste c) best).2 = none →
      best.2 = none ∧ ∀ i ∈ xs, i * pageSize / c < 16) := by
  induction xs generalizing best with
  | nil => exact ⟨fun i hi => Or.inl hi, fun hnone => ⟨hnone, by simp⟩⟩
  | cons x xs ih =>
    have hxs' : ∀ i ∈ xs, i < kmPagesMax := fun i hi => hxs i (List.mem_cons_of_mem x hi)
    rw [List.foldl_cons]
    by_cases hfew : x * pageSize / c < 16
    · -- too few chunks: this number of pages is passed over
      have hsame : lessWaste c best x = best := if_pos hfew
      rw [hsame]
      obtain ⟨hsome, hnone⟩ := ih hxs' hbest
      refine ⟨fun i hi => ?_, fun hn => ⟨(hnone hn).1, ?_⟩⟩
      · rcases hsome i hi with h | ⟨hmem, h⟩
        · exact Or.inl h
        · exact Or.inr ⟨List.mem_cons_of_mem x hmem, h⟩
      · intro i hi
        rcases List.mem_cons.mp hi with rfl | hi
        · exact hfew
        · exact (hnone hn).2 i hi
    · have hwaste : x * pageSize - c * (x * pageSize / c) < 2 ^ 64 - 1 := by
        have hx := hxs x List.mem_cons_self
        have hpage : pageSize = 4096 := rfl
        have hmax : kmPagesMax = 64 := rfl
        rw [hpage]
        omega
      have hstep : (lessWaste c best x = best ∧ best.2 ≠ none) ∨
          lessWaste c best x = (x * pageSize - c * (x * pageSize / c), some x) := by
        unfold lessWaste
        simp only [if_neg hfew]
        by_cases hless : x * pageSize - c * (x * pageSize / c) < best.1
        · exact Or.inr (if_pos hless)
        · refine Or.inl ⟨if_neg hless, fun hn => hless ?_⟩
          rw [hbest hn]
          exact hwaste
      rcases hstep with ⟨hsame, hfound⟩ | hnew
      · rw [hsame]
        obtain ⟨hsome, hnone⟩ := ih hxs' hbest
        refine ⟨fun i hi => ?_, fun hn => absurd (hnone hn).1 hfound⟩
        rcases hsome i hi with h | ⟨hmem, h⟩
        · exact Or.inl h
        · exact Or.inr ⟨List.mem_cons_of_mem x hmem, h⟩
      · rw [hnew]
        obtain ⟨hsome, hnone⟩ := @ih (x * pageSize - c * (x * pageSize / c), some x) hxs'
          (fun hn => by cases hn)
        refine ⟨fun i hi => ?_, fun hn => by cases (hnone hn).1⟩
        rcases hsome i hi with h | ⟨hmem, h⟩
        · cases h
          exact Or.inr ⟨List.mem_cons_self, Nat.not_lt.mp hfew⟩
        · exact Or.inr ⟨List.mem_cons_of_mem x hmem, h⟩

/-- **The search finds a number of pages** exactly for chunks that are not too large, and it has
room for sixteen. -/
theorem bestPages_spec (hc : 0 < c) :
    (∀ i, bestPages c = some i → i < kmPagesMax ∧ 16 ≤ i * pageSize / c) ∧
      (bestPages c = none ↔ largestChunk < c) := by
  have hrange : ∀ i ∈ List.range' 1 (kmPagesMax - 1), i < kmPagesMax := by
    intro i hi
    rw [List.mem_range'_1] at hi
    have hmax : kmPagesMax = 64 := rfl
    omega
  obtain ⟨hsome, hnone⟩ := @foldl_lessWaste c _ (2 ^ 64 - 1, none) hrange (fun _ => rfl)
  have hpage : pageSize = 4096 := rfl
  have hlargest : largestChunk = 16128 := rfl
  refine ⟨fun i hi => ?_, fun hn => ?_, fun hlarge => ?_⟩
  · rcases hsome i hi with h | ⟨hmem, h⟩
    · cases h
    · exact ⟨hrange i hmem, h⟩
  · -- 63 pages would have done
    have h63 := (hnone hn).2 63 (by decide)
    rw [Nat.div_lt_iff_lt_mul hc, hpage] at h63
    rw [hlargest]
    omega
  · by_contra hfound
    obtain ⟨i, hi⟩ := Option.ne_none_iff_exists'.mp hfound
    rcases hsome i hi with h | ⟨hmem, h⟩
    · cases h
    · have hi64 := hrange i hmem
      have hmax : kmPagesMax = 64 := rfl
      rw [Nat.le_div_iff_mul_le hc, hpage] at h
      rw [hlargest] at hlarge
      omega

/-! ## The chunks of a slab -/

theorem nextColor_le {colorSeq : ℕ} (h : colorSeq ≤ cp.colorMax) :
    cp.nextColor colorSeq ≤ cp.colorMax := by
  unfold KmemCache.nextColor
  split_ifs with hmax
  · exact Nat.zero_le _
  · omega

theorem color_le (n : ℕ) : cp.color n ≤ cp.colorMax := by
  induction n with
  | zero => exact Nat.zero_le _
  | succ n ih =>
    unfold KmemCache.color at ih ⊢
    rw [Function.iterate_succ_apply']
    exact nextColor_le ih

/-- The part of a slab that is cut into chunks. -/
def KmemCache.usable (cp : KmemCache) : ℕ :=
  if cp.isSmall then pageSize - slabHeaderSize else cp.slabSize

/-- **What makes a slab well cut**: its chunks and the largest color fit, and the alignment divides
what the positions are made of. -/
structure KmemCache.Fits (cp : KmemCache) (align : ℕ) : Prop where
  room : cp.chunkSize * cp.maxChunks + cp.colorMax * cp.align ≤ cp.usable
  small : cp.isSmall → cp.slabSize = pageSize
  pos : 0 < cp.chunkSize
  dvd_align : align ∣ cp.align
  dvd_chunk : align ∣ cp.chunkSize
  dvd_page : align ∣ pageSize

theorem KmemCache.Fits.usable_le (h : cp.Fits align) : cp.usable ≤ cp.slabSize := by
  unfold KmemCache.usable
  split_ifs with hs
  · rw [h.small hs]
    exact Nat.sub_le _ _
  · exact le_refl _

theorem KmemCache.Fits.chunksEnd_eq {pg : ℕ} : cp.chunksEnd pg = pg + cp.usable := by
  unfold KmemCache.chunksEnd KmemCache.usable
  split_ifs
  · rfl
  · rfl

theorem KmemCache.Fits.chunk {pg color i : ℕ} (h : cp.Fits align) (hcolor : color ≤ cp.colorMax)
    (hpg : pg + cp.slabSize ≤ 2 ^ 64) (hi : i < cp.maxChunks) :
    wadd pg (cp.chunkSize * i + color * cp.align) = pg + (cp.chunkSize * i + color * cp.align) ∧
      cp.chunkSize * i + color * cp.align + cp.chunkSize ≤ cp.usable := by
  have hlast : cp.chunkSize * i + cp.chunkSize ≤ cp.chunkSize * cp.maxChunks := by
    calc cp.chunkSize * i + cp.chunkSize = cp.chunkSize * (i + 1) := by rw [Nat.mul_add_one]
      _ ≤ cp.chunkSize * cp.maxChunks := Nat.mul_le_mul_left _ hi
  have hshift : color * cp.align ≤ cp.colorMax * cp.align := Nat.mul_le_mul_right _ hcolor
  have hroom := h.room
  have husable := h.usable_le
  have hpos := h.pos
  refine ⟨wadd_of_lt (by omega), by omega⟩

/-- **Every slab is well cut**, whatever its color. -/
theorem KmemCache.Fits.wellCut {pg color : ℕ} (h : cp.Fits align) (hcolor : color ≤ cp.colorMax)
    (hdvd : pageSize ∣ pg) (hpg : pg + cp.slabSize ≤ 2 ^ 64) :
    ∃ objects, cp.createSlab pg color = some objects ∧ cp.WellCut align pg objects := by
  have hpos := h.pos
  have husable := h.usable_le
  unfold KmemCache.createSlab
  rw [if_neg]
  · refine ⟨_, rfl, ?_, ?_, ?_, ?_⟩
    · rw [List.length_reverse, List.length_map, List.length_range]
    · intro obj hobj
      simp only [List.mem_reverse, List.mem_map, List.mem_range] at hobj
      obtain ⟨i, hi, rfl⟩ := hobj
      rw [(h.chunk hcolor hpg hi).1]
      refine Nat.dvd_add (h.dvd_page.trans hdvd) (Nat.dvd_add ?_ ?_)
      · exact Dvd.dvd.mul_right h.dvd_chunk i
      · exact Dvd.dvd.mul_left h.dvd_align color
    · intro obj hobj
      simp only [List.mem_reverse, List.mem_map, List.mem_range] at hobj
      obtain ⟨i, hi, rfl⟩ := hobj
      obtain ⟨heq, hend⟩ := h.chunk hcolor hpg hi
      rw [heq, KmemCache.Fits.chunksEnd_eq]
      omega
    · -- the chunks were pushed onto the free list: the later one is the lower number
      rw [List.pairwise_reverse, List.pairwise_map]
      refine List.Pairwise.imp_of_mem ?_ List.pairwise_lt_range
      intro i j hi hj hlt
      rw [List.mem_range] at hi hj
      rw [(h.chunk hcolor hpg hi).1, (h.chunk hcolor hpg hj).1]
      have hstep : cp.chunkSize * i + cp.chunkSize ≤ cp.chunkSize * j := by
        calc cp.chunkSize * i + cp.chunkSize = cp.chunkSize * (i + 1) := by rw [Nat.mul_add_one]
          _ ≤ cp.chunkSize * j := Nat.mul_le_mul_left _ hlt
      omega
  · rintro ⟨hs, obj, hobj, hle⟩
    rw [List.mem_map] at hobj
    obtain ⟨i, hi, rfl⟩ := hobj
    rw [List.mem_range] at hi
    obtain ⟨heq, hend⟩ := h.chunk hcolor hpg hi
    have hslab := h.small hs
    have husableEq : cp.usable = pageSize - slabHeaderSize := if_pos hs
    have hpage : pageSize = 4096 := rfl
    have hheader : slabHeaderSize = 48 := rfl
    rw [heq, wadd_of_lt (by omega)] at hle
    omega

/-! ## The sizes of a cache -/

theorem kmemCacheCreate_cut (halign : align ≠ 0)
    (h : kmemCacheCreate size align none = some cp) :
    0 < cp.chunkSize ∧ cp.maxChunks = cp.usable / cp.chunkSize ∧
      cp.colorMax = (cp.usable - cp.chunkSize * cp.maxChunks) / cp.align := by
  unfold kmemCacheCreate at h
  simp only [if_neg halign, Option.ite_none_left_eq_some, not_or] at h
  obtain ⟨⟨-, hpos⟩, h⟩ := h
  by_cases hsmall : alignUp size (max align kmAlign) ≤ kmSmallslabMax
  · rw [if_pos hsmall] at h
    cases h
    have husable : ∀ m k, KmemCache.usable ⟨max align kmAlign, alignUp size (max align kmAlign), m,
        pageSize, k⟩ = pageSize - slabHeaderSize := fun m k => if_pos (decide_eq_true hsmall)
    refine ⟨Nat.pos_of_ne_zero hpos, ?_, ?_⟩
    · rw [husable]
    · rw [husable]
  · rw [if_neg hsmall] at h
    simp only [Option.bind_eq_bind, Option.bind_eq_some_iff, Option.some.injEq,
      Option.isSome_none, Bool.false_eq_true, if_false] at h
    obtain ⟨slabSize, -, rfl⟩ := h
    have husable : ∀ m k, KmemCache.usable ⟨max align kmAlign, alignUp size (max align kmAlign), m,
        slabSize, k⟩ = slabSize := fun m k => if_neg (by simpa [KmemCache.isSmall] using hsmall)
    refine ⟨Nat.pos_of_ne_zero hpos, ?_, ?_⟩
    · rw [husable]
    · rw [husable]

theorem kmemCacheCreate_slab (halign : align ≠ 0)
    (h : kmemCacheCreate size align none = some cp) :
    2 ≤ cp.maxChunks ∧ cp.slabSize ≤ kmPagesMax * pageSize ∧ cp.chunkSize ≤ largestChunk := by
  obtain ⟨hpos, hchunks, -⟩ := kmemCacheCreate_cut halign h
  obtain ⟨-, -, hsmall, hlarge⟩ := kmemCacheCreate_spec halign h
  have hpage : pageSize = 4096 := rfl
  have hlargest : largestChunk = 16128 := rfl
  have hsmallMax : kmSmallslabMax = 512 := rfl
  have hpages : kmPagesMax = 64 := rfl
  by_cases hs : cp.chunkSize ≤ kmSmallslabMax
  · have husable : cp.usable = 4048 := if_pos (decide_eq_true hs)
    refine ⟨?_, ?_, ?_⟩
    · rw [hchunks, husable, Nat.le_div_iff_mul_le hpos]
      omega
    · rw [hsmall hs, hpage]
      omega
    · omega
  · have hslab := hlarge (Nat.not_le.mp hs)
    have husable : cp.usable = cp.slabSize := if_neg (by simpa [KmemCache.isSmall] using hs)
    obtain ⟨hbest, hnone⟩ := bestPages_spec hpos
    obtain ⟨i, hi, hsize⟩ := Option.map_eq_some_iff.mp hslab
    obtain ⟨hlt, hroom⟩ := hbest i hi
    refine ⟨?_, ?_, ?_⟩
    · rw [hchunks, husable, ← hsize]
      omega
    · rw [← hsize]
      exact Nat.mul_le_mul_right _ hlt.le
    · refine Nat.not_lt.mp (fun hlt' => ?_)
      rw [hnone.mpr hlt'] at hi
      cases hi

/-- A cache is defined if its chunks are neither too large nor wrap around to nothing. -/
theorem kmemCacheCreate_exists (halign : align ≠ 0) (hsize : 0 < size)
    (hpos : 0 < alignUp size (max align kmAlign))
    (hle : alignUp size (max align kmAlign) ≤ largestChunk) :
    ∃ cp, kmemCacheCreate size align none = some cp := by
  unfold kmemCacheCreate
  simp only [if_neg halign]
  rw [if_neg (by omega)]
  by_cases hsmall : alignUp size (max align kmAlign) ≤ kmSmallslabMax
  · rw [if_pos hsmall]
    exact ⟨_, rfl⟩
  · rw [if_neg hsmall]
    obtain ⟨-, hnone⟩ := bestPages_spec hpos
    cases hbest : bestPages (alignUp size (max align kmAlign)) with
    | none => exact absurd (hnone.mp hbest) (Nat.not_lt.mpr hle)
    | some i =>
      unfold largeSlabSize
      rw [hbest]
      exact ⟨_, rfl⟩

/-! ## Which caches are sound -/

theorem alignUp_le {a q : ℕ} (ha : 0 < a) (hle : size ≤ q * a) (hroom : size + a ≤ 2 ^ 64) :
    alignUp size a ≤ q * a := by
  unfold alignUp
  rw [wadd_of_lt (by omega)]
  refine Nat.mul_le_mul_right _ (Nat.lt_succ_iff.mp ?_)
  rw [Nat.div_lt_iff_lt_mul ha, Nat.succ_mul]
  omega

theorem alignUp_of_wrap {a : ℕ} (hsize : size < 2 ^ 64) (ha : a ≤ 2 ^ 64)
    (hwrap : 2 ^ 64 < size + a) : alignUp size a = 0 := by
  unfold alignUp wadd
  rw [Nat.mod_eq_sub_mod (by omega), Nat.mod_eq_of_lt (by omega),
    Nat.div_eq_of_lt (by omega), Nat.zero_mul]

/-- **The geometry of a cache is sound** exactly if the alignment is not larger than a page and
sixteen chunks fit into 63 pages. -/
theorem soundGeometry_iff (size j : ℕ) (hpos : 0 < size) (hsize : size < 2 ^ 64) :
    SoundGeometry size (2 ^ j) ↔
      2 ^ j ≤ pageSize ∧
        size ≤ largestChunk / max (2 ^ j) kmAlign * max (2 ^ j) kmAlign := by
  have halign : (2 : ℕ) ^ j ≠ 0 := (Nat.two_pow_pos j).ne'
  obtain ⟨hdvdAlign, -⟩ := @max_kmAlign j
  have ha : 0 < max (2 ^ j) kmAlign := lt_max_of_lt_right (by decide)
  have hpage : pageSize = 2 ^ 12 := rfl
  have hlargest : largestChunk = 16128 := rfl
  have hkm : kmAlign = 16 := rfl
  constructor
  · rintro ⟨cp, hcreate, htwo, hslabs⟩
    obtain ⟨hchunkPos, -, -⟩ := kmemCacheCreate_cut halign hcreate
    obtain ⟨-, hslab, hlarge⟩ := kmemCacheCreate_slab halign hcreate
    obtain ⟨-, hchunk, -, -⟩ := kmemCacheCreate_spec halign hcreate
    have hle : 2 ^ j ≤ pageSize := by
      -- the first chunk of a slab of the first color is where the slab begins
      have hpages : cp.slabSize ≤ 64 * 4096 := hslab
      obtain ⟨objects, hobjects, hcut⟩ := hslabs 0 pageSize (by decide) (Nat.dvd_refl _)
        (by omega)
      have hfirst : pageSize ∈ objects := by
        unfold KmemCache.createSlab at hobjects
        simp only [Option.ite_none_left_eq_some, Option.some.injEq] at hobjects
        obtain ⟨-, rfl⟩ := hobjects
        rw [List.mem_reverse, List.mem_map]
        refine ⟨0, List.mem_range.mpr (by omega), ?_⟩
        rw [KmemCache.color, Function.iterate_zero_apply, Nat.mul_zero, Nat.zero_mul]
        rfl
      exact Nat.le_of_dvd (by decide) (hcut.dvd _ hfirst)
    refine ⟨hle, ?_⟩
    by_cases hwrap : 2 ^ 64 < size + max (2 ^ j) kmAlign
    · rw [hchunk, alignUp_of_wrap hsize (by omega) hwrap] at hchunkPos
      exact absurd hchunkPos (Nat.lt_irrefl 0)
    · obtain ⟨hge, hdvd⟩ := le_alignUp ha (Nat.not_lt.mp hwrap)
      rw [← hchunk] at hge hdvd
      obtain ⟨m, hm⟩ := hdvd
      rw [Nat.mul_comm] at hm
      have hdiv : m ≤ largestChunk / max (2 ^ j) kmAlign := by
        rw [Nat.le_div_iff_mul_le ha, ← hm]
        exact hlarge
      calc size ≤ cp.chunkSize := hge
        _ = m * max (2 ^ j) kmAlign := hm
        _ ≤ _ := Nat.mul_le_mul_right _ hdiv
  · rintro ⟨hle, hfits⟩
    have hmul : largestChunk / max (2 ^ j) kmAlign * max (2 ^ j) kmAlign ≤ largestChunk :=
      Nat.div_mul_le_self _ _
    have hroom : size + max (2 ^ j) kmAlign ≤ 2 ^ 64 := by omega
    obtain ⟨hge, hdvd⟩ := le_alignUp ha hroom
    obtain ⟨cp, hcreate⟩ := kmemCacheCreate_exists halign hpos (by omega)
      ((alignUp_le ha hfits hroom).trans hmul)
    obtain ⟨hchunkPos, hchunks, hcolor⟩ := kmemCacheCreate_cut halign hcreate
    obtain ⟨htwo, -, -⟩ := kmemCacheCreate_slab halign hcreate
    obtain ⟨hcpAlign, hchunk, hsmall, -⟩ := kmemCacheCreate_spec halign hcreate
    have hfit : cp.Fits (2 ^ j) := by
      refine ⟨?_, fun hs => hsmall (of_decide_eq_true hs), hchunkPos, ?_, ?_, ?_⟩
      · have hused : cp.chunkSize * cp.maxChunks ≤ cp.usable := by
          rw [hchunks]
          exact Nat.mul_div_le _ _
        have hrest : cp.colorMax * cp.align ≤ cp.usable - cp.chunkSize * cp.maxChunks := by
          rw [hcolor]
          exact Nat.div_mul_le_self _ _
        omega
      · rw [hcpAlign]
        exact hdvdAlign
      · rw [hchunk]
        exact hdvdAlign.trans hdvd
      · rw [hpage] at hle ⊢
        exact Nat.pow_dvd_pow 2 ((Nat.pow_le_pow_iff_right (by decide)).mp hle)
    exact ⟨cp, hcreate, htwo, fun n pg _ hpg hend => hfit.wellCut (color_le n) hpg hend⟩

/-- Objects of 600 bytes have large slabs. -/
theorem soundGeometry_large : SoundGeometry 600 (2 ^ 4) :=
  (soundGeometry_iff 600 4 (by decide) (by decide)).mpr ⟨by decide, by decide⟩

/-- No number of pages is chosen for objects of 20000 bytes. -/
theorem not_soundGeometry_huge : ¬ SoundGeometry 20000 (2 ^ 4) := by
  rintro ⟨cp, hcreate, -⟩
  have hnone : kmemCacheCreate 20000 (2 ^ 4) none = none := by decide +kernel
  rw [hnone] at hcreate
  cases hcreate

end Kmem
