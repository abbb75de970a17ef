/-
# Copying strings

`strndup` (`lib/string.c`) copies as many bytes as it is told to into a block of that size, and puts
a `NUL` behind them.  So the last write is never inside what was asked for; whether it is inside the
block depends on the size class.
-/
import YakKernel.Kmalloc

namespace Strndup

open Kmalloc Vmem Kmem Function

/-! ## The code -/

/-- A string in memory. -/
structure CString where
  bytes : ℕ → UInt8
  length : ℕ
  text : ∀ i < length, bytes i ≠ 0
  terminated : bytes length = 0

/-- The contents of a new block, and at which indices the source was read and the block written. -/
structure Copy where
  block : ℕ → UInt8
  reads : List ℕ
  writes : List ℕ

/-- Write a byte of the block. -/
def Copy.write (c : Copy) (i : ℕ) (b : UInt8) : Copy :=
  { c with block := update c.block i b, writes := c.writes ++ [i] }

/-- Read a byte of the source. -/
def Copy.read (c : Copy) (i : ℕ) : Copy := { c with reads := c.reads ++ [i] }

/-- `memcpy`. -/
def memcpy (src : ℕ → UInt8) : ℕ → Copy → Copy
  | 0, c => c
  | n + 1, c => ((memcpy src n c).read n).write n (src n)

/-- `strndup`, with what the allocator answers and what is in the block at first; `none` if `kmalloc`
does not come back.  The result is the pointer, or `NULL`. -/
def strndup (h : Heap) (ans : Option ℕ) (old src : ℕ → UInt8) (size : ℕ) :
    Option (Option (ℕ × Copy) × Heap) :=
  (kmalloc h size ans).map fun r =>
    (r.1.map fun buf => (buf, (memcpy src size ⟨old, [], []⟩).write size 0), r.2)

/-! ## What is asked of it -/

/-- The writes are inside what was asked for. -/
def Copy.WritesInside (c : Copy) (size : ℕ) : Prop := ∀ i ∈ c.writes, i < size

/-- The reads are inside the string with its terminator, and inside the size. -/
def Copy.ReadsInside (c : Copy) (src : CString) (size : ℕ) : Prop :=
  ∀ i ∈ c.reads, i ≤ src.length ∧ i < size

/-- The block holds the first bytes of the string and a `NUL`. -/
def Copy.IsPrefix (c : Copy) (src : CString) (size : ℕ) : Prop :=
  (∀ i < min size src.length, c.block i = src.bytes i) ∧ c.block (min size src.length) = 0

/-- **A copy as it should be.** -/
def Sound (src : CString) (size : ℕ) (r : Option (Option (ℕ × Copy) × Heap)) : Prop :=
  ∃ buf c h, r = some (some (buf, c), h) ∧ c.WritesInside size ∧ c.ReadsInside src size ∧
    c.IsPrefix src size

variable {h h' : Heap} {ans : Option ℕ} {old bytes : ℕ → UInt8} {src : CString} {size n buf : ℕ}
  {c : Copy} {r : Option (ℕ × Copy)}

/-! ## What it does -/

theorem memcpy_spec (src : ℕ → UInt8) (n : ℕ) (c : Copy) :
    (∀ i < n, (memcpy src n c).block i = src i) ∧
      (memcpy src n c).reads = c.reads ++ List.range n := by
  induction n with
  | zero =>
    refine ⟨fun i hi => absurd hi (Nat.not_lt_zero i), ?_⟩
    rw [memcpy, List.range_zero, List.append_nil]
  | succ n ih =>
    obtain ⟨hblock, hreads⟩ := ih
    refine ⟨fun i hi => ?_, ?_⟩
    · show update (memcpy src n c).block n (src n) i = src i
      rcases Nat.lt_succ_iff_lt_or_eq.mp hi with hlt | rfl
      · rw [update_of_ne hlt.ne]
        exact hblock i hlt
      · rw [update_self]
    · show (memcpy src n c).reads ++ [n] = _
      rw [hreads, List.range_succ, List.append_assoc]

theorem strndup_eq (hrun : strndup h ans old bytes size = some (r, h')) :
    ∃ b : Block, kmalloc h size ans = some (some (wadd b.addr metaSize), h') ∧
      r = some (wadd b.addr metaSize, (memcpy bytes size ⟨old, [], []⟩).write size 0) ∧
      b.length = blockLength b.cache (freedSize size) := by
  obtain ⟨⟨res, h''⟩, hk, heq⟩ := Option.map_eq_some_iff.mp hrun
  obtain ⟨b, -, rfl, -, hlen, -⟩ := kmalloc_spec hk
  obtain ⟨rfl, rfl⟩ := Prod.mk.inj heq
  exact ⟨b, hk, rfl, hlen⟩

theorem strndup_writes (hrun : strndup h ans old bytes size = some (some (buf, c), h')) :
    size ∈ c.writes := by
  obtain ⟨b, -, heq, -⟩ := strndup_eq hrun
  rw [(Prod.mk.inj (Option.some.inj heq)).2]
  exact List.mem_append_right _ (List.mem_singleton.mpr rfl)

/-- **The source is read beyond its terminator** when more is asked for than there is. -/
theorem strndup_readsInside_iff
    (hrun : strndup h ans old src.bytes size = some (some (buf, c), h')) :
    c.ReadsInside src size ↔ size ≤ src.length + 1 := by
  obtain ⟨b, -, heq, -⟩ := strndup_eq hrun
  have hreads : c.reads = List.range size := by
    rw [(Prod.mk.inj (Option.some.inj heq)).2]
    exact (memcpy_spec src.bytes size _).2.trans (List.nil_append _)
  rw [Copy.ReadsInside, hreads]
  constructor
  · intro hin
    by_contra hlt
    have hle := (hin (src.length + 1) (List.mem_range.mpr (by omega))).1
    omega
  · intro hle i hi
    have hi := List.mem_range.mp hi
    exact ⟨by omega, hi⟩

/-- **The result is the prefix of the string.** -/
theorem strndup_isPrefix (hrun : strndup h ans old src.bytes size = some (some (buf, c), h')) :
    c.IsPrefix src size := by
  obtain ⟨b, -, heq, -⟩ := strndup_eq hrun
  rw [(Prod.mk.inj (Option.some.inj heq)).2]
  have hblock := (memcpy_spec src.bytes size ⟨old, [], []⟩).1
  refine ⟨fun i hi => ?_, ?_⟩
  · show update _ size 0 i = _
    rw [update_of_ne (by omega)]
    exact hblock i (by omega)
  · show update _ size 0 (min size src.length) = 0
    rcases Nat.lt_or_ge src.length size with hlt | hge
    · rw [min_eq_right hlt.le, update_of_ne hlt.ne, hblock _ hlt]
      exact src.terminated
    · rw [min_eq_left hge, update_self]

/-- **No copy is as it should be.** -/
theorem strndup_not_sound (h : Heap) (ans : Option ℕ) (old : ℕ → UInt8) (src : CString)
    (size : ℕ) : ¬ Sound src size (strndup h ans old src.bytes size) := by
  rintro ⟨buf, c, h', hrun, hwrites, -⟩
  exact lt_irrefl size (hwrites size (strndup_writes hrun))

/-- Nothing is allocated. -/
def emptyHeap : Heap := ⟨fun _ => ⟨0, none⟩, [], []⟩

theorem sixteen_text (i : ℕ) (hi : i < 16) : (if i < 16 then 0x61 else 0 : UInt8) ≠ 0 := by
  rw [if_pos hi]
  decide

theorem sixteen_terminated : (if 16 < 16 then 0x61 else 0 : UInt8) = 0 := rfl

/-- A name of sixteen letters. -/
def sixteen : CString := ⟨fun i => if i < 16 then 0x61 else 0, 16, sixteen_text, sixteen_terminated⟩

/-- A copy of it comes back, with a write behind what was asked for. -/
theorem strndup_sixteen : ∃ buf c h,
    strndup emptyHeap (some 0x1000) (fun _ => 0) sixteen.bytes sixteen.length =
      some (some (buf, c), h) ∧ ¬ c.WritesInside sixteen.length := by
  have hsome : (kmalloc emptyHeap 16 (some 0x1000)).isSome :=
    kmalloc_isSome (by decide) 0x1000
  obtain ⟨k, hk⟩ := Option.isSome_iff_exists.mp hsome
  obtain ⟨⟨r, h⟩, hrun⟩ : ∃ r, strndup emptyHeap (some 0x1000) (fun _ => 0) sixteen.bytes 16 =
      some r := ⟨_, by rw [strndup, hk]; rfl⟩
  obtain ⟨b, -, rfl, -⟩ := strndup_eq hrun
  exact ⟨_, _, h, hrun, fun hin => lt_irrefl 16 (hin 16 (strndup_writes hrun))⟩

/-! ## The neighbour -/

/-- The class of a size has no room to spare exactly if the size is that of a class. -/
theorem class_eq_iff {i : ℕ} (hfind : kmallocSizes.findIdx? (size ≤ ·) = some i) :
    kmallocSizes.getD i 0 = size ↔ size ∈ kmallocSizes := by
  obtain ⟨hi, hle, hfirst⟩ := List.findIdx?_eq_some_iff_getElem.mp hfind
  have hle : size ≤ kmallocSizes[i] := of_decide_eq_true hle
  rw [List.getD_eq_getElem?_getD, List.getElem?_eq_getElem hi, Option.getD_some]
  constructor
  · rintro rfl
    exact List.getElem_mem hi
  · intro hmem
    obtain ⟨j, hj, rfl⟩ := List.getElem_of_mem hmem
    have hsorted : kmallocSizes.Pairwise (· ≤ ·) := by decide
    have hij : i ≤ j := by
      by_contra hlt
      exact hfirst j (by omega) (decide_eq_true le_rfl)
    rcases Nat.lt_or_eq_of_le hij with hlt | rfl
    · exact le_antisymm (List.pairwise_iff_getElem.mp hsorted i j hi hj hlt) hle
    · rfl

/-- **The `NUL` is written into a neighbour** exactly when the size with the header fills a class or
whole pages. -/
theorem strndup_leaves_block_iff (hrun : strndup h ans old bytes size = some (some (buf, c), h'))
    (hroom : size + metaSize + (pageSize - 1) < 2 ^ 64) :
    (∃ b, h'.blocks = b :: h.blocks ∧ ∃ i ∈ c.writes, b.length ≤ metaSize + i) ↔
      if size + metaSize ≤ kmallocMax then size + metaSize ∈ kmallocSizes
      else pageSize ∣ size + metaSize := by
  have hpage : pageSize = 4096 := rfl
  have hmem := strndup_writes hrun
  obtain ⟨b, hk, heq, -⟩ := strndup_eq hrun
  have hcopy := (Prod.mk.inj (Option.some.inj heq)).2
  -- the last write is the `NUL`
  have hlast : ∀ i ∈ c.writes, i ≤ size := by
    have hwrites : ∀ n, (memcpy bytes n ⟨old, [], []⟩).writes = List.range n := by
      intro n
      induction n with
      | zero => rfl
      | succ n ih =>
        show (memcpy bytes n ⟨old, [], []⟩).writes ++ [n] = _
        rw [ih, List.range_succ]
    intro i hi
    rw [hcopy] at hi
    rcases List.mem_append.mp hi with hi | hi
    · exact (List.mem_range.mp (hwrites size ▸ hi)).le
    · exact (List.mem_singleton.mp hi).le
  have hcut : ∀ length, size + metaSize ≤ length →
      ((∃ i ∈ c.writes, length ≤ metaSize + i) ↔ length = size + metaSize) := by
    intro length hle
    constructor
    · rintro ⟨i, hi, hlt⟩
      have := hlast i hi
      omega
    · rintro rfl
      exact ⟨size, hmem, by omega⟩
  have hadd : wadd size metaSize = size + metaSize := wadd_of_lt (by omega)
  unfold kmalloc at hk
  rw [hadd] at hk
  by_cases hsmall : size + metaSize ≤ kmallocMax
  · obtain ⟨i, hfind, hle⟩ := findIdx_class hsmall
    simp only [if_pos hsmall, hfind, Option.map_eq_some_iff, Prod.mk.injEq] at hk
    obtain ⟨a, -, -, rfl⟩ := hk
    rw [if_pos hsmall, ← class_eq_iff hfind]
    constructor
    · rintro ⟨b, hb, hi⟩
      obtain rfl := (List.cons.inj hb).1
      exact (hcut _ hle).mp hi
    · exact fun hlen => ⟨_, rfl, (hcut _ hle).mpr hlen⟩
  · have hword : size + metaSize + pageSize ≤ 2 ^ 64 := by omega
    obtain ⟨hle, hdvd⟩ := le_alignUp (by decide : 0 < pageSize) hword
    simp only [if_neg hsmall, Option.ite_none_left_eq_some, Option.map_eq_some_iff,
      Prod.mk.injEq] at hk
    obtain ⟨-, a, -, -, rfl⟩ := hk
    rw [if_neg hsmall]
    have hfull : alignUp (size + metaSize) pageSize = size + metaSize ↔
        pageSize ∣ size + metaSize :=
      ⟨fun heq => heq ▸ hdvd, fun hd => alignUp_of_dvd (by decide) hword hd⟩
    rw [← hfull]
    constructor
    · rintro ⟨b, hb, hi⟩
      obtain rfl := (List.cons.inj hb).1
      exact (hcut _ hle).mp hi
    · exact fun hlen => ⟨_, rfl, (hcut _ hle).mpr hlen⟩

/-- A copy of 16 letters fills its block of 32 bytes. -/
theorem strndup_leaves_full : ∃ buf c h',
    strndup emptyHeap (some 0x1000) (fun _ => 0) sixteen.bytes 16 = some (some (buf, c), h') ∧
      ∃ b, h'.blocks = [b] ∧ ∃ i ∈ c.writes, b.length ≤ metaSize + i := by
  have hsome : (kmalloc emptyHeap 16 (some 0x1000)).isSome := kmalloc_isSome (by decide) 0x1000
  obtain ⟨k, hk⟩ := Option.isSome_iff_exists.mp hsome
  obtain ⟨⟨r, h⟩, hrun⟩ : ∃ r, strndup emptyHeap (some 0x1000) (fun _ => 0) sixteen.bytes 16 =
      some r := ⟨_, by rw [strndup, hk]; rfl⟩
  obtain ⟨b, -, rfl, -⟩ := strndup_eq hrun
  exact ⟨_, _, h, hrun, (strndup_leaves_block_iff hrun (by decide)).mpr (by decide)⟩

end Strndup
