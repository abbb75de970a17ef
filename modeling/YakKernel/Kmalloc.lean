/-
# The kernel heap

`vm/heap.c`: `kmalloc` and `kcalloc` put a header before what they return, and `kfree` reads it.
A block comes from the cache of a size class or, when it is too large, from `vm_kalloc`.

What the allocators return is part of a request; the contents of the blocks are left out.
-/
import YakKernel.KmemGeometry
import YakKernel.TransitionSystem

namespace Kmalloc

open Vmem Kmem

/-! ## The code -/

/-- `kmalloc_sizes`. -/
def kmallocSizes : List ℕ :=
  [16, 32, 64, 128, 160, 256, 512, 640, 768, 1024, 2048, 3072, 4096, 5120, 8192]

/-- `KMALLOC_MAX`. -/
def kmallocMax : ℕ := 8192

/-- `alloc_meta_t`; `cache` is an index into `kmalloc_caches`. -/
structure AllocMeta where
  size : ℕ
  cache : Option ℕ

/-- `sizeof(alloc_meta_t)`. -/
def metaSize : ℕ := 16

/-- What an allocator has handed out: the object of a cache, or pages of the heap arena. -/
structure Block where
  addr : ℕ
  cache : Option ℕ
  length : ℕ
  deriving DecidableEq

/-- The headers in memory.  Ghosts: the blocks that the allocators have handed out, and the
pointers that `kmalloc` has returned, with the sizes they were asked for. -/
structure Heap where
  metas : ℕ → AllocMeta
  blocks : List Block
  live : List (ℕ × ℕ)

/-- A block with its header. -/
def Heap.handOut (h : Heap) (b : Block) (size : ℕ) : Heap :=
  { h with
    metas := Function.update h.metas b.addr ⟨size, b.cache⟩
    blocks := b :: h.blocks }

/-- `kmalloc`; `ans` is what `kmem_cache_alloc` or `vm_kalloc` returns.  The header is written
before the pointer is compared with `NULL`. -/
def kmalloc (h : Heap) (size : ℕ) (ans : Option ℕ) : Option (Option ℕ × Heap) :=
  let size := wadd size metaSize
  if size ≤ kmallocMax then
    match kmallocSizes.findIdx? (size ≤ ·) with
    | none => some (none, h)
    | some i => ans.map (fun ptr =>
        (some (wadd ptr metaSize), h.handOut ⟨ptr, some i, kmallocSizes.getD i 0⟩ size))
  else
    let size := alignUp size pageSize
    -- an assertion of `vmem_alloc`
    if size = 0 then none
    else ans.map (fun ptr => (some (wadd ptr metaSize), h.handOut ⟨ptr, none, size⟩ size))

/-- `kcalloc`. -/
def kcalloc (h : Heap) (count size : ℕ) (ans : Option ℕ) : Option (Option ℕ × Heap) :=
  kmalloc h (count * size % 2 ^ 64) ans

/-- The size that `kfree` compares with the header. -/
def freedSize (size : ℕ) : ℕ :=
  let size := wadd size metaSize
  if size > kmallocMax then alignUp size pageSize else size

/-- `kmem_cache_free` and `vm_kfree` take back what the same allocator has handed out. -/
def Heap.takeBack (h : Heap) (b : Block) : Option Heap :=
  if b ∈ h.blocks then some { h with blocks := h.blocks.erase b } else none

/-- `kfree`. -/
def kfree (h : Heap) (ptr size : ℕ) : Option Heap :=
  if ptr = 0 then some h
  else
    let addr := wsub ptr metaSize
    if size ≠ 0 ∧ ¬ freedSize size ≤ (h.metas addr).size then none
    else
      match (h.metas addr).cache with
      | some i => h.takeBack ⟨addr, some i, kmallocSizes.getD i 0⟩
      | none => h.takeBack ⟨addr, none, (h.metas addr).size⟩

/-! ## The system -/

inductive Call where
  | kmalloc (size : ℕ) (ans : Option ℕ)
  | kcalloc (count size : ℕ) (ans : Option ℕ)
  | kfree (ptr size : ℕ)

/-- The allocators hand out memory that is not in use, with room for a header. -/
def Heap.Fresh (h : Heap) (ans : Option ℕ) : Prop :=
  ∀ addr ∈ ans, 0 < addr ∧ addr + metaSize < 2 ^ 64 ∧ ∀ b ∈ h.blocks, b.addr ≠ addr

instance (h : Heap) (ans : Option ℕ) : Decidable (h.Fresh ans) := by
  unfold Heap.Fresh
  infer_instance

/-- The answer of a call that allocates, remembered with the size asked for. -/
def Heap.remember (size : ℕ) (r : Option ℕ × Heap) : Heap :=
  { r.2 with live := r.1.toList.map (fun ptr => (ptr, size)) ++ r.2.live }

theorem pair_lawful : LawfulBEq (ℕ × ℕ) := inferInstance

attribute [local instance] pair_lawful

/-- One call; `kfree` is for a live pointer and the size it was asked for. -/
def Heap.step (h : Heap) : Call → Option Heap
  | .kmalloc size ans =>
    if size < 2 ^ 64 ∧ h.Fresh ans then
      (kmalloc h size ans).map (Heap.remember size)
    else none
  | .kcalloc count size ans =>
    if h.Fresh ans then
      (kcalloc h count size ans).map (Heap.remember (count * size % 2 ^ 64))
    else none
  | .kfree ptr size =>
    if (ptr, size) ∈ h.live then
      (kfree h ptr size).map (fun h' => { h' with live := h'.live.erase (ptr, size) })
    else none

/-- **What a request for `bytes` is promised**: the call returns, `NULL` exactly if the allocator
has returned `NULL`, and otherwise a new block with room for the header and for the bytes. -/
def Heap.Serves (h : Heap) (bytes : ℕ) (ans : Option ℕ) (r : Option (Option ℕ × Heap)) : Prop :=
  ∃ res h', r = some (res, h') ∧ (res = none ↔ ans = none) ∧ (res = none → h' = h) ∧
    ∀ ptr, res = some ptr → ∃ b, h'.blocks = b :: h.blocks ∧ ptr = b.addr + metaSize ∧
      bytes + metaSize ≤ b.length

/-- **The condition on a request**: the allocator has a block, and neither adding the header nor
rounding up to pages wraps around. -/
def Granted (bytes : ℕ) (ans : Option ℕ) : Prop :=
  ans ≠ none ∧ bytes + metaSize + (pageSize - 1) < 2 ^ 64

/-! ## One request -/

variable {h h' : Heap} {size bytes ptr : ℕ} {ans res : Option ℕ}

/-- The length of a block for a given size with the header. -/
def blockLength (cache : Option ℕ) (size : ℕ) : ℕ :=
  match cache with
  | some i => kmallocSizes.getD i 0
  | none => size

theorem findIdx_class (hsize : size ≤ kmallocMax) :
    ∃ i, kmallocSizes.findIdx? (size ≤ ·) = some i ∧ size ≤ kmallocSizes.getD i 0 := by
  cases hfind : kmallocSizes.findIdx? (size ≤ ·) with
  | none =>
    have hlast := List.findIdx?_eq_none_iff.mp hfind kmallocMax (by decide)
    simp only [decide_eq_false_iff_not] at hlast
    exact absurd hsize hlast
  | some i =>
    obtain ⟨hi, hle, -⟩ := List.findIdx?_eq_some_iff_getElem.mp hfind
    refine ⟨i, rfl, ?_⟩
    rw [List.getD_eq_getElem?_getD, List.getElem?_eq_getElem hi]
    exact of_decide_eq_true hle

/-- **What `kmalloc` does**, when it comes back: a header of the size is written into the block. -/
theorem kmalloc_spec (hrun : kmalloc h size ans = some (res, h')) :
    ∃ b : Block, ans = some b.addr ∧ res = some (wadd b.addr metaSize) ∧
      h' = h.handOut b (freedSize size) ∧ b.length = blockLength b.cache (freedSize size) ∧
      freedSize size ≤ b.length := by
  unfold kmalloc at hrun
  by_cases hsmall : wadd size metaSize ≤ kmallocMax
  · have hfreed : freedSize size = wadd size metaSize := if_neg (Nat.not_lt.mpr hsmall)
    obtain ⟨i, hfind, hle⟩ := findIdx_class hsmall
    simp only [if_pos hsmall, hfind, Option.map_eq_some_iff, Prod.mk.injEq] at hrun
    obtain ⟨a, rfl, rfl, rfl⟩ := hrun
    rw [hfreed]
    exact ⟨⟨a, some i, kmallocSizes.getD i 0⟩, rfl, rfl, rfl, rfl, hle⟩
  · have hfreed : freedSize size = alignUp (wadd size metaSize) pageSize :=
      if_pos (Nat.lt_of_not_le hsmall)
    simp only [if_neg hsmall, Option.ite_none_left_eq_some, Option.map_eq_some_iff,
      Prod.mk.injEq] at hrun
    obtain ⟨-, a, rfl, rfl, rfl⟩ := hrun
    rw [hfreed]
    exact ⟨⟨a, none, alignUp (wadd size metaSize) pageSize⟩, rfl, rfl, rfl, rfl, le_refl _⟩

theorem le_freedSize (hroom : size + metaSize + (pageSize - 1) < 2 ^ 64) :
    size + metaSize ≤ freedSize size := by
  have hpage : pageSize = 4096 := rfl
  simp only [freedSize, wadd_of_lt (by omega : size + metaSize < 2 ^ 64)]
  split_ifs
  · exact (le_alignUp (by decide) (by omega)).1
  · exact le_refl _

theorem freedSize_of_wrap (hlt : size + metaSize < 2 ^ 64)
    (hwrap : 2 ^ 64 ≤ size + metaSize + (pageSize - 1)) : freedSize size = 0 := by
  have hpage : pageSize = 4096 := rfl
  have hmax : kmallocMax = 8192 := rfl
  simp only [freedSize, wadd_of_lt hlt]
  rw [if_pos (by omega)]
  exact alignUp_of_wrap hlt (by decide) (by omega)

theorem freedSize_lt (size : ℕ) : freedSize size < 2 ^ 64 := by
  have hadd : wadd size metaSize < 2 ^ 64 := Nat.mod_lt _ (Nat.two_pow_pos 64)
  unfold freedSize
  simp only
  split_ifs
  · unfold alignUp
    refine (Nat.div_mul_le_self _ _).trans_lt ?_
    exact Nat.mod_lt _ (Nat.two_pow_pos 64)
  · exact hadd

theorem blockLength_le (cache : Option ℕ) (size : ℕ) :
    blockLength cache size ≤ max kmallocMax size := by
  cases cache with
  | none => exact le_max_right _ _
  | some i =>
    refine le_max_of_le_left ?_
    show kmallocSizes.getD i 0 ≤ kmallocMax
    rw [List.getD_eq_getElem?_getD]
    cases hi : kmallocSizes[i]? with
    | none => exact Nat.zero_le _
    | some n =>
      have hall : kmallocSizes.all (· ≤ kmallocMax) = true := by decide
      exact of_decide_eq_true (List.all_eq_true.mp hall n (List.mem_of_getElem? hi))

/-- Where the allocator has a block and nothing wraps around, `kmalloc` comes back. -/
theorem kmalloc_isSome (hroom : size + metaSize + (pageSize - 1) < 2 ^ 64) (addr : ℕ) :
    (kmalloc h size (some addr)).isSome := by
  have hmeta : metaSize = 16 := rfl
  have hle := le_freedSize hroom
  unfold kmalloc
  by_cases hsmall : wadd size metaSize ≤ kmallocMax
  · obtain ⟨i, hfind, -⟩ := findIdx_class hsmall
    simp only [if_pos hsmall, hfind, Option.map_some, Option.isSome_some]
  · have hfreed : freedSize size = alignUp (wadd size metaSize) pageSize :=
      if_pos (Nat.lt_of_not_le hsmall)
    rw [hfreed] at hle
    have hne : alignUp (wadd size metaSize) pageSize ≠ 0 := by omega
    simp only [if_neg hsmall, if_neg hne, Option.map_some, Option.isSome_some]

/-- **A request is served** exactly under the condition. -/
theorem serves_iff (hfresh : h.Fresh ans) :
    h.Serves bytes ans (kmalloc h (bytes % 2 ^ 64) ans) ↔ Granted bytes ans := by
  have hpage : pageSize = 4096 := rfl
  have hmeta : metaSize = 16 := rfl
  have hmax : kmallocMax = 8192 := rfl
  constructor
  · rintro ⟨res, h', hrun, -, -, hblock⟩
    obtain ⟨b, hans, hres, hh', hlen, -⟩ := kmalloc_spec hrun
    obtain ⟨b', hb', -, hbytes⟩ := hblock _ hres
    rw [hh'] at hb'
    have hsame : b' = b := (List.cons.inj hb').1.symm
    rw [hsame, hlen] at hbytes
    refine ⟨by rw [hans]; exact Option.some_ne_none _, ?_⟩
    -- a block is a word long
    have hshort := blockLength_le b.cache (freedSize (bytes % 2 ^ 64))
    have hword := freedSize_lt (bytes % 2 ^ 64)
    by_contra hwrap
    by_cases hadd : bytes + metaSize < 2 ^ 64
    · rw [Nat.mod_eq_of_lt (by omega), freedSize_of_wrap hadd (Nat.not_lt.mp hwrap)]
        at hbytes hshort
      omega
    · omega
  · rintro ⟨hans, hroom⟩
    rw [Nat.mod_eq_of_lt (by omega)]
    obtain ⟨addr, rfl⟩ := Option.ne_none_iff_exists'.mp hans
    obtain ⟨⟨res, h'⟩, hrun⟩ := Option.isSome_iff_exists.mp (@kmalloc_isSome h bytes hroom addr)
    obtain ⟨b, hb, hres, hh', -, hle⟩ := kmalloc_spec hrun
    have hbytes := le_freedSize hroom
    refine ⟨res, h', hrun, ?_, fun hnone => ?_, fun ptr hptr => ?_⟩
    · rw [hres]
      exact iff_of_false (Option.some_ne_none _) (Option.some_ne_none _)
    · rw [hres] at hnone
      exact absurd hnone (Option.some_ne_none _)
    · rw [hres, Option.some.injEq] at hptr
      obtain ⟨-, hlt, -⟩ := hfresh b.addr hb
      rw [wadd_of_lt hlt] at hptr
      refine ⟨b, ?_, hptr.symm, hbytes.trans hle⟩
      rw [hh']
      rfl

/-! ## Runs -/

/-- **The headers are right**: a live pointer is behind the header of a block, which has the size
that `kfree` computes and the allocator that the block came from. -/
structure Heap.Sound (h : Heap) : Prop where
  addrs : (h.blocks.map Block.addr).Nodup
  range : ∀ b ∈ h.blocks, 0 < b.addr ∧ b.addr + metaSize < 2 ^ 64
  ptrs : (h.live.map Prod.fst).Nodup
  live : ∀ p ∈ h.live, ∃ b ∈ h.blocks, p.1 = b.addr + metaSize ∧
    h.metas b.addr = ⟨freedSize p.2, b.cache⟩ ∧ b.length = blockLength b.cache (freedSize p.2)

/-- **`kfree`** of a live pointer gives its block back. -/
theorem Heap.Sound.kfree (hs : h.Sound) (hlive : (ptr, size) ∈ h.live) :
    ∃ b ∈ h.blocks, ptr = b.addr + metaSize ∧
      kfree h ptr size = some { h with blocks := h.blocks.erase b } := by
  have hmeta : metaSize = 16 := rfl
  obtain ⟨b, hb, hptr, hheader, hlen⟩ := hs.live _ hlive
  obtain ⟨hpos, hlt⟩ := hs.range b hb
  simp only at hptr hheader hlen
  refine ⟨b, hb, hptr, ?_⟩
  have haddr : wsub ptr metaSize = b.addr := by
    rw [hptr, wsub_of_le (Nat.le_add_left _ _) hlt, Nat.add_sub_cancel]
  have hblock : ∀ b' : Block, b' = b →
      h.takeBack b' = some { h with blocks := h.blocks.erase b } := by
    rintro b' rfl
    exact if_pos hb
  unfold Kmalloc.kfree
  rw [if_neg (by omega)]
  simp only [haddr, hheader, le_refl, not_true_eq_false, and_false, if_false]
  cases hcache : b.cache with
  | some i =>
    refine hblock _ ?_
    rw [hcache] at hlen
    rw [← hcache, show kmallocSizes.getD i 0 = b.length from hlen.symm]
  | none =>
    refine hblock _ ?_
    rw [hcache] at hlen
    rw [← hcache, show freedSize size = b.length from hlen.symm]

theorem Heap.Sound.allocate (hs : h.Sound) (hfresh : h.Fresh ans)
    (hrun : kmalloc h size ans = some (res, h')) : (Heap.remember size (res, h')).Sound := by
  obtain ⟨b, hans, hres, rfl, hlen, -⟩ := kmalloc_spec hrun
  obtain ⟨hpos, hlt, hnew⟩ := hfresh b.addr hans
  rw [wadd_of_lt hlt] at hres
  subst hres
  -- the old headers are at other addresses
  have hold : ∀ b' ∈ h.blocks, (h.handOut b (freedSize size)).metas b'.addr = h.metas b'.addr :=
    fun b' hb' => Function.update_of_ne (hnew b' hb') _ _
  refine ⟨?_, ?_, ?_, ?_⟩
  · refine List.nodup_cons.mpr ⟨fun hin => ?_, hs.addrs⟩
    obtain ⟨b', hb', heq⟩ := List.mem_map.mp hin
    exact hnew b' hb' heq
  · intro b' hb'
    rcases List.mem_cons.mp hb' with rfl | hb'
    · exact ⟨hpos, hlt⟩
    · exact hs.range b' hb'
  · refine List.nodup_cons.mpr ⟨fun hin => ?_, hs.ptrs⟩
    obtain ⟨p, hp, heq⟩ := List.mem_map.mp hin
    obtain ⟨b', hb', hptr, -⟩ := hs.live p hp
    refine hnew b' hb' ?_
    have hsum : b'.addr + metaSize = b.addr + metaSize := hptr.symm.trans heq
    omega
  · intro p hp
    rcases List.mem_cons.mp hp with rfl | hp
    · exact ⟨b, List.mem_cons_self, rfl, Function.update_self .., hlen⟩
    · obtain ⟨b', hb', hptr, hheader, hlength⟩ := hs.live p hp
      exact ⟨b', List.mem_cons_of_mem b hb', hptr, (hold b' hb').trans hheader, hlength⟩

theorem Heap.Sound.free {b : Block} (hs : h.Sound) (hlive : (ptr, size) ∈ h.live)
    (hptr : ptr = b.addr + metaSize) :
    ({ h with blocks := h.blocks.erase b, live := h.live.erase (ptr, size) } : Heap).Sound := by
  have hnodup : h.blocks.Nodup := List.Nodup.of_map _ hs.addrs
  have hlnodup : h.live.Nodup := List.Nodup.of_map _ hs.ptrs
  refine ⟨?_, ?_, ?_, ?_⟩
  · exact hs.addrs.sublist (List.erase_sublist.map _)
  · exact fun b' hb' => hs.range b' (List.mem_of_mem_erase hb')
  · exact hs.ptrs.sublist (List.erase_sublist.map _)
  · intro p hp
    obtain ⟨hne, hp⟩ := hlnodup.mem_erase_iff.mp hp
    obtain ⟨b', hb', hptr', hrest⟩ := hs.live p hp
    refine ⟨b', hnodup.mem_erase_iff.mpr ⟨fun heq => hne ?_, hb'⟩, hptr', hrest⟩
    -- two live pointers are not behind one header
    have hfst : p.1 = ptr := by rw [hptr', heq, hptr]
    exact List.inj_on_of_nodup_map hs.ptrs hp hlive hfst

theorem Heap.Sound.step {c : Call} (hs : h.Sound) (hstep : h.step c = some h') : h'.Sound := by
  cases c with
  | kmalloc size ans =>
    simp only [Heap.step, Option.ite_none_right_eq_some, Option.map_eq_some_iff] at hstep
    obtain ⟨⟨-, hfresh⟩, ⟨res, h''⟩, hrun, rfl⟩ := hstep
    exact hs.allocate hfresh hrun
  | kcalloc count size ans =>
    simp only [Heap.step, Option.ite_none_right_eq_some, Option.map_eq_some_iff] at hstep
    obtain ⟨hfresh, ⟨res, h''⟩, hrun, rfl⟩ := hstep
    exact hs.allocate hfresh hrun
  | kfree ptr size =>
    simp only [Heap.step, Option.ite_none_right_eq_some, Option.map_eq_some_iff] at hstep
    obtain ⟨hlive, h'', hrun, rfl⟩ := hstep
    obtain ⟨b, -, hptr, hfree⟩ := hs.kfree hlive
    rw [hfree, Option.some.injEq] at hrun
    subst hrun
    exact hs.free hlive hptr

/-- An empty heap. -/
def emptyHeap : Heap := ⟨fun _ => ⟨0, none⟩, [], []⟩

end Kmalloc
