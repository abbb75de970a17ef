/-
# Object caches

`vm/kmem_slab.c`: the sizes that `kmem_cache_create` chooses for a cache, and the objects that
`create_slab` cuts from the memory of a slab.
-/
import YakKernel.Vmem

namespace Kmem

open Vmem

/-! ## The sizes of a cache -/

/-- `PAGE_SIZE`. -/
def pageSize : ℕ := 4096

/-- `KM_ALIGN`. -/
def kmAlign : ℕ := 16

/-- `SLAB_SIZE`: the header of a slab. -/
def slabHeaderSize : ℕ := 48

/-- `KM_SMALLSLAB_MAX`. -/
def kmSmallslabMax : ℕ := pageSize / 8

/-- `KM_PAGES_MAX`. -/
def kmPagesMax : ℕ := 64

/-- The sizes in `struct kmem_cache`. -/
structure KmemCache where
  align : ℕ
  chunkSize : ℕ
  maxChunks : ℕ
  slabSize : ℕ
  colorMax : ℕ

/-- `KM_IS_SMALL`. -/
def KmemCache.isSmall (cp : KmemCache) : Bool := cp.chunkSize ≤ kmSmallslabMax

/-- `next_ilog2`. -/
def nextIlog2 (num : ℕ) : ℕ := if num ≤ 1 then 1 else Nat.log 2 (num - 1) + 1

/-- `1 << next_ilog2(3 * qcache_max)`, of type `int`. -/
def qcacheSlabSize (qcacheMax : ℕ) : Option ℕ :=
  let n := nextIlog2 (3 * qcacheMax % 2 ^ 64)
  if n < 31 then some (2 ^ n) else none

/-- One round of the search for the size of a large slab. -/
def lessWaste (chunkSize : ℕ) (best : ℕ × Option ℕ) (i : ℕ) : ℕ × Option ℕ :=
  let slabSize := i * pageSize
  let maxChunks := slabSize / chunkSize
  let waste := slabSize - chunkSize * maxChunks
  if maxChunks < 16 then best
  else if waste < best.1 then (waste, some i)
  else best

/-- The number of pages with the least waste; `best` is not set when none has 16 chunks. -/
def bestPages (chunkSize : ℕ) : Option ℕ :=
  ((List.range' 1 (kmPagesMax - 1)).foldl (lessWaste chunkSize) (2 ^ 64 - 1, none)).2

/-- `slab_size` of a large slab; `qcache` is the `private` of a `KMC_QCACHE`. -/
def largeSlabSize (chunkSize : ℕ) (qcache : Option ℕ) : Option ℕ :=
  match qcache with
  | some qcacheMax => qcacheSlabSize qcacheMax
  | none => (bestPages chunkSize).map (· * pageSize)

/-- The sizes that `kmem_cache_create` computes. -/
def kmemCacheCreate (size align : ℕ) (qcache : Option ℕ) : Option KmemCache :=
  let align := if align = 0 then kmAlign else max align kmAlign
  let chunkSize := alignUp size align
  if size = 0 ∨ chunkSize = 0 then none
  else if chunkSize ≤ kmSmallslabMax then
    let maxChunks := (pageSize - slabHeaderSize) / chunkSize
    some {
      align := align
      chunkSize := chunkSize
      maxChunks := maxChunks
      slabSize := pageSize
      colorMax := (pageSize - slabHeaderSize - chunkSize * maxChunks) / align }
  else do
    let slabSize ← largeSlabSize chunkSize qcache
    let maxChunks := slabSize / chunkSize
    some {
      align := align
      chunkSize := chunkSize
      maxChunks := maxChunks
      slabSize := slabSize
      colorMax := if qcache.isSome then 0 else (slabSize - chunkSize * maxChunks) / align }

/-! ## Slabs -/

/-- `next_color`: the value of `color_seq` after it; the color is the value before. -/
def KmemCache.nextColor (cp : KmemCache) (colorSeq : ℕ) : ℕ :=
  if colorSeq = cp.colorMax then 0 else colorSeq + 1

/-- The objects of a new slab at `pg`, the one on top of the free list first; those of a small
slab must stand before its header. -/
def KmemCache.createSlab (cp : KmemCache) (pg color : ℕ) : Option (List ℕ) :=
  let objects := (List.range cp.maxChunks).map
    (fun i => wadd pg (cp.chunkSize * i + color * cp.align))
  if cp.isSmall ∧ ∃ obj ∈ objects, wadd pg (pageSize - slabHeaderSize) ≤ obj then none
  else some objects.reverse

/-! ## Aligned objects -/

variable {size align q : ℕ} {qcache : Option ℕ} {cp : KmemCache}

theorem createSlab_dvd {pg color : ℕ} {objects : List ℕ} (hq : q ∣ 2 ^ 64) (hpg : q ∣ pg)
    (hchunk : q ∣ cp.chunkSize) (halign : q ∣ cp.align)
    (h : cp.createSlab pg color = some objects) : ∀ obj ∈ objects, q ∣ obj := by
  unfold KmemCache.createSlab at h
  simp only [Option.ite_none_left_eq_some, Option.some.injEq] at h
  obtain ⟨-, rfl⟩ := h
  intro obj hobj
  rw [List.mem_reverse, List.mem_map] at hobj
  obtain ⟨i, -, rfl⟩ := hobj
  unfold wadd
  refine (Nat.dvd_mod_iff hq).mpr (Nat.dvd_add hpg (Nat.dvd_add ?_ ?_))
  · exact Dvd.dvd.mul_right hchunk i
  · exact Dvd.dvd.mul_left halign color

theorem kmemCacheCreate_spec (halign : align ≠ 0)
    (h : kmemCacheCreate size align qcache = some cp) :
    cp.align = max align kmAlign ∧ cp.chunkSize = alignUp size (max align kmAlign) ∧
      (cp.chunkSize ≤ kmSmallslabMax → cp.slabSize = pageSize) ∧
      (kmSmallslabMax < cp.chunkSize → largeSlabSize cp.chunkSize qcache = some cp.slabSize) := by
  unfold kmemCacheCreate at h
  simp only [if_neg halign, Option.ite_none_left_eq_some] at h
  obtain ⟨-, h⟩ := h
  by_cases hsmall : alignUp size (max align kmAlign) ≤ kmSmallslabMax
  · rw [if_pos hsmall] at h
    cases h
    exact ⟨rfl, rfl, fun _ => rfl, fun hlarge => absurd hsmall hlarge.not_ge⟩
  · rw [if_neg hsmall] at h
    simp only [Option.bind_eq_bind, Option.bind_eq_some_iff, Option.some.injEq] at h
    obtain ⟨slabSize, hslab, rfl⟩ := h
    exact ⟨rfl, rfl, fun hle => absurd hle hsmall, fun _ => hslab⟩

end Kmem
