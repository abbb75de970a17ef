/-
# Runs of a cache of large objects

`create_large_slab`, `slab_alloc` and the slab layer of `kmem_cache_free`: in every run in which the
first table is allocated, the index finds exactly the objects that are handed out.
-/
import YakKernel.KmemIndex
import YakKernel.TransitionSystem
import Mathlib.Order.Interval.Finset.Nat

namespace Kmem

open Vmem BucketTable

/-! ## The slab layer -/

/-- `kmem_slab_t`. -/
structure KmemSlab where
  freelist : List ℕ
  largeBase : ℕ
  color : ℕ
  freeCount : ℕ

/-- `kmem_cache_t` without its magazines.  Ghosts: the numbers of the next slab and of the next
`kmem_bufctl`, and those that `slab_alloc` has handed out. -/
structure LargeCache where
  sizes : KmemCache
  colorSeq : ℕ
  slabsFull : List ℕ
  slabsPartial : List ℕ
  slabsEmpty : List ℕ
  index : Index
  slabs : ℕ → KmemSlab
  nextSlab : ℕ
  nextBufctl : ℕ
  allocated : List ℕ

/-- A new cache. -/
def LargeCache.initial (cp : KmemCache) : LargeCache where
  sizes := cp
  colorSeq := 0
  slabsFull := []
  slabsPartial := []
  slabsEmpty := []
  index := ⟨⟨0, 0, []⟩, fun _ => ⟨none, 0, 0⟩, false⟩
  slabs := fun _ => ⟨[], 0, 0, 0⟩
  nextSlab := 0
  nextBufctl := 0
  allocated := []

/-- `LIST_REMOVE` of a slab. -/
def LargeCache.unlist (s : LargeCache) (sp : ℕ) : LargeCache :=
  { s with
    slabsFull := s.slabsFull.erase sp
    slabsPartial := s.slabsPartial.erase sp
    slabsEmpty := s.slabsEmpty.erase sp }

/-- The `kmem_bufctl` of the chunk number `i` of a new slab at `pg`. -/
def LargeCache.newBufctl (s : LargeCache) (pg i : ℕ) : LargeBufctl :=
  ⟨none, wadd pg (s.sizes.chunkSize * i + s.colorSeq * s.sizes.align), s.nextSlab⟩

/-- `create_large_slab` with the memory at `pg`; `kmem_cache_alloc` puts the slab on the list of
the empty ones. -/
def createLargeSlab (s : LargeCache) (pg : ℕ) : LargeCache :=
  { s with
    colorSeq := s.sizes.nextColor s.colorSeq
    slabsEmpty := s.nextSlab :: s.slabsEmpty
    index := { s.index with
      bufctls := fun bp =>
        if s.nextBufctl ≤ bp ∧ bp < s.nextBufctl + s.sizes.maxChunks then
          s.newBufctl pg (bp - s.nextBufctl)
        else s.index.bufctls bp }
    slabs := Function.update s.slabs s.nextSlab
      ⟨(List.range' s.nextBufctl s.sizes.maxChunks).reverse, pg, s.colorSeq, s.sizes.maxChunks⟩
    nextSlab := s.nextSlab + 1
    nextBufctl := s.nextBufctl + s.sizes.maxChunks }

/-- The lists of the slabs in `slab_alloc`. -/
def LargeCache.relistAlloc (s : LargeCache) (sp prevCount : ℕ) : LargeCache :=
  if prevCount = s.sizes.maxChunks then
    { s.unlist sp with slabsPartial := sp :: (s.unlist sp).slabsPartial }
  else if prevCount = 1 then
    { s.unlist sp with slabsFull := sp :: (s.unlist sp).slabsFull }
  else s

/-- The lists of the slabs in `slab_free`. -/
def LargeCache.relistFree (s : LargeCache) (sp newCount : ℕ) : LargeCache :=
  if newCount = s.sizes.maxChunks then
    { s.unlist sp with slabsEmpty := sp :: (s.unlist sp).slabsEmpty }
  else if newCount = 1 then
    { s.unlist sp with slabsPartial := sp :: (s.unlist sp).slabsPartial }
  else s

/-- The chunks of a slab that are free. -/
def LargeCache.setFree (s : LargeCache) (sp : ℕ) (freelist : List ℕ) (freeCount : ℕ) :
    LargeCache :=
  { s with
    slabs := Function.update s.slabs sp
      ⟨freelist, (s.slabs sp).largeBase, (s.slabs sp).color, freeCount⟩ }

/-- `slab_alloc`. -/
def slabAlloc (s : LargeCache) (sp : ℕ) (mem : Option ℕ) : Option (ℕ × LargeCache) :=
  if (s.slabs sp).freeCount = 0 then none
  else do
    let bp ← (s.slabs sp).freelist.head?
    if (s.index.bufctls bp).slab ≠ sp then none
    let index ← hashtableInsert s.index bp mem
    let s' := (s.setFree sp (s.slabs sp).freelist.tail ((s.slabs sp).freeCount - 1)).relistAlloc sp
      (s.slabs sp).freeCount
    some ((index.bufctls bp).base, { s' with index := index, allocated := bp :: s.allocated })

/-- `slab_free`. -/
def slabFree (s : LargeCache) (sp bp : ℕ) : Option LargeCache :=
  if s.sizes.maxChunks ≤ (s.slabs sp).freeCount then none
  else some ((s.setFree sp (bp :: (s.slabs sp).freelist) ((s.slabs sp).freeCount + 1)).relistFree sp
    ((s.slabs sp).freeCount + 1))

/-- `kmem_cache_free` in the slab layer: an object that is not found fails the assertion. -/
def kmemCacheFree (s : LargeCache) (obj : ℕ) (mem : Option ℕ) : Option LargeCache := do
  let found ← hashtableLookup s.index obj
  let bp ← found
  let index ← hashtableRemove s.index bp mem
  slabFree { s with index := index, allocated := s.allocated.erase bp } (index.bufctls bp).slab bp

/-! ## The system -/

/-- The calls, with what `vmem_alloc` returns for a slab and for a table. -/
inductive SlabCall where
  | create (pg : ℕ)
  | alloc (sp : ℕ) (mem : Option ℕ)
  | free (obj : ℕ) (mem : Option ℕ)

/-- A call can be made: the memory of a new slab is not in use, an allocation is from a slab with
a free chunk, and what is freed is an object that was handed out. -/
def LargeCache.Allowed (s : LargeCache) : SlabCall → Prop
  | .create pg =>
    0 < pg ∧ pg + s.sizes.slabSize ≤ 2 ^ 64 ∧ ∀ k < s.nextSlab,
      (s.slabs k).largeBase + s.sizes.slabSize ≤ pg ∨
        pg + s.sizes.slabSize ≤ (s.slabs k).largeBase
  | .alloc sp _ => sp < s.nextSlab ∧ 0 < (s.slabs sp).freeCount
  | .free obj _ => ∃ bp ∈ s.allocated, (s.index.bufctls bp).base = obj

instance (s : LargeCache) : (c : SlabCall) → Decidable (s.Allowed c)
  | .create pg => inferInstanceAs (Decidable (0 < pg ∧ pg + s.sizes.slabSize ≤ 2 ^ 64 ∧
      ∀ k < s.nextSlab, (s.slabs k).largeBase + s.sizes.slabSize ≤ pg ∨
        pg + s.sizes.slabSize ≤ (s.slabs k).largeBase))
  | .alloc sp _ => inferInstanceAs (Decidable (sp < s.nextSlab ∧ 0 < (s.slabs sp).freeCount))
  | .free obj _ =>
    inferInstanceAs (Decidable (∃ bp ∈ s.allocated, (s.index.bufctls bp).base = obj))

/-- What a call does. -/
def LargeCache.perform (s : LargeCache) : SlabCall → Option LargeCache
  | .create pg => some (createLargeSlab s pg)
  | .alloc sp mem => (slabAlloc s sp mem).map Prod.snd
  | .free obj mem => kmemCacheFree s obj mem

/-- One call; after a write to no array nothing is known. -/
def LargeCache.step (s : LargeCache) (c : SlabCall) : Option LargeCache :=
  if s.index.clobbered = false ∧ s.Allowed c then s.perform c else none

/-- The runs of a cache. -/
def largeCacheSystem (cp : KmemCache) : TransitionSystem LargeCache SlabCall where
  init := fun s => s = .initial cp
  step := LargeCache.step

/-- **What the index is for.**  An object is found exactly while it is handed out; its
`kmem_bufctl` is on one bucket and points to it; and the entries are counted. -/
structure LargeCache.Indexed (s : LargeCache) : Prop where
  nodup : s.allocated.Nodup
  lookup : ∀ base bp, hashtableLookup s.index base = some (some bp) ↔
    bp ∈ s.allocated ∧ (s.index.bufctls bp).base = base
  ends : s.index.bucketCount ≠ 0 → ∀ base, (hashtableLookup s.index base).isSome
  once : ∀ bp ∈ s.allocated, s.index.tbl.lists.flatten.count bp = 1
  hashlist : ∀ bp ∈ s.allocated,
    (s.index.bufctls bp).hashlist = some (s.index.hashList (s.index.bufctls bp).base) ∧
      bp ∈ bucket s.index.tbl.lists (s.index.hashList (s.index.bufctls bp).base).2
  entryCount : s.index.tbl.entryCount = s.allocated.length

/-- **The condition on a call**: the first table is allocated. -/
def HasTable (s : LargeCache) : SlabCall → Prop
  | .alloc _ mem => s.index.bucketCount = 0 → mem ≠ none
  | _ => True

/-! ## The slabs -/

/-- What is known of the sizes: the chunks and the largest color fit into a slab. -/
structure KmemCache.Large (cp : KmemCache) : Prop where
  pos : 0 < cp.chunkSize
  room : cp.chunkSize * cp.maxChunks + cp.colorMax * cp.align ≤ cp.slabSize

/-- **The slabs are right**: their memory is apart, every chunk is inside, free chunks have no
pointer to a bucket, and the chunks that are not free are handed out. -/
structure LargeCache.Sound (s : LargeCache) : Prop where
  large : s.sizes.Large
  clear : s.index.clobbered = false
  color : s.colorSeq ≤ s.sizes.colorMax
  memory : ∀ k < s.nextSlab,
    0 < (s.slabs k).largeBase ∧ (s.slabs k).largeBase + s.sizes.slabSize ≤ 2 ^ 64
  bufctl : ∀ bp < s.nextBufctl, (s.index.bufctls bp).slab < s.nextSlab ∧
    (s.slabs (s.index.bufctls bp).slab).largeBase ≤ (s.index.bufctls bp).base ∧
    (s.index.bufctls bp).base <
      (s.slabs (s.index.bufctls bp).slab).largeBase + s.sizes.slabSize
  bases : ∀ a < s.nextBufctl, ∀ b < s.nextBufctl,
    (s.index.bufctls a).base = (s.index.bufctls b).base → a = b
  freeCount : ∀ k < s.nextSlab, (s.slabs k).freeCount = (s.slabs k).freelist.length
  freelist : ∀ k < s.nextSlab, (s.slabs k).freelist.Nodup ∧ ∀ bp ∈ (s.slabs k).freelist,
    bp < s.nextBufctl ∧ (s.index.bufctls bp).slab = k ∧ (s.index.bufctls bp).hashlist = none ∧
      bp ∉ s.allocated
  nodup : s.allocated.Nodup
  allocated : ∀ bp ∈ s.allocated, bp < s.nextBufctl
  balance : ∀ k < s.nextSlab, (s.slabs k).freeCount +
    s.allocated.countP (fun bp => (s.index.bufctls bp).slab = k) = s.sizes.maxChunks
  holds : s.index.Holds s.allocated

variable {s s' : LargeCache} {cp : KmemCache} {size align bp sp pg : ℕ} {mem qcache : Option ℕ}

theorem kmemCacheCreate_large (h : kmemCacheCreate size align qcache = some cp)
    (hlarge : kmSmallslabMax < cp.chunkSize) : cp.Large := by
  unfold kmemCacheCreate at h
  simp only [Option.ite_none_left_eq_some] at h
  obtain ⟨-, h⟩ := h
  generalize (if align = 0 then kmAlign else max align kmAlign) = a at h
  by_cases hsmall : alignUp size a ≤ kmSmallslabMax
  · rw [if_pos hsmall] at h
    cases h
    exact absurd hsmall (Nat.not_le.mpr hlarge)
  rw [if_neg hsmall] at h
  simp only [Option.bind_eq_bind, Option.bind_eq_some_iff, Option.some.injEq] at h
  obtain ⟨slabSize, -, rfl⟩ := h
  refine ⟨Nat.zero_lt_of_lt hlarge, ?_⟩
  have hused : alignUp size a * (slabSize / alignUp size a) ≤ slabSize := Nat.mul_div_le _ _
  show alignUp size a * (slabSize / alignUp size a) + (if qcache.isSome then 0 else _) * a ≤
    slabSize
  split_ifs
  · omega
  · have := Nat.div_mul_le_self (slabSize - alignUp size a * (slabSize / alignUp size a)) a
    omega

theorem sound_initial (hcp : cp.Large) : (LargeCache.initial cp).Sound where
  large := hcp
  clear := rfl
  color := Nat.zero_le _
  memory := fun k hk => absurd hk (Nat.not_lt_zero k)
  bufctl := fun bp hbp => absurd hbp (Nat.not_lt_zero bp)
  bases := fun a ha => absurd ha (Nat.not_lt_zero a)
  freeCount := fun k hk => absurd hk (Nat.not_lt_zero k)
  freelist := fun k hk => absurd hk (Nat.not_lt_zero k)
  nodup := List.nodup_nil
  allocated := fun bp hbp => absurd hbp List.not_mem_nil
  balance := fun k hk => absurd hk (Nat.not_lt_zero k)
  holds := ⟨Or.inl rfl, fun i bp hbp => absurd hbp (by simp [bucket, LargeCache.initial]),
    List.Perm.refl _, fun bp hbp => absurd hbp List.not_mem_nil, rfl⟩

/-- **The index is right** where the slabs are. -/
theorem LargeCache.Sound.indexed (h : s.Sound) : s.Indexed where
  nodup := h.nodup
  lookup := h.holds.lookup (fun a ha b hb => h.bases a (h.allocated a ha) b (h.allocated b hb))
  ends := h.holds.lookup_isSome
  once := by
    intro bp hbp
    rw [h.holds.perm.count_eq bp]
    exact List.count_eq_one_of_mem h.nodup hbp
  hashlist := by
    intro bp hbp
    exact ⟨h.holds.hashlist bp hbp, h.holds.placed.mem_bucket (h.holds.perm.mem_iff.mpr hbp)⟩
  entryCount := h.holds.entryCount

/-! ## A new slab -/

theorem LargeCache.Sound.newBufctl_base (h : s.Sound) {i : ℕ} (hi : i < s.sizes.maxChunks)
    (hpg : pg + s.sizes.slabSize ≤ 2 ^ 64) :
    (s.newBufctl pg i).base = pg + (s.sizes.chunkSize * i + s.colorSeq * s.sizes.align) ∧
      s.sizes.chunkSize * i + s.colorSeq * s.sizes.align < s.sizes.slabSize := by
  have hlast : s.sizes.chunkSize * i + s.sizes.chunkSize ≤
      s.sizes.chunkSize * s.sizes.maxChunks := by
    rw [← Nat.mul_add_one]
    exact Nat.mul_le_mul_left _ hi
  have hshift : s.colorSeq * s.sizes.align ≤ s.sizes.colorMax * s.sizes.align :=
    Nat.mul_le_mul_right _ h.color
  have hroom := h.large.room
  have hpos := h.large.pos
  exact ⟨wadd_of_lt (by omega), by omega⟩

theorem createLargeSlab_old (hbp : bp < s.nextBufctl) :
    (createLargeSlab s pg).index.bufctls bp = s.index.bufctls bp :=
  if_neg (fun h => absurd h.1 (Nat.not_le.mpr hbp))

theorem createLargeSlab_new {i : ℕ} (hi : i < s.sizes.maxChunks) :
    (createLargeSlab s pg).index.bufctls (s.nextBufctl + i) = s.newBufctl pg i := by
  have hnew : s.nextBufctl ≤ s.nextBufctl + i ∧
      s.nextBufctl + i < s.nextBufctl + s.sizes.maxChunks := by omega
  exact (if_pos hnew).trans (congrArg (s.newBufctl pg) (Nat.add_sub_cancel_left _ _))

theorem old_or_new (hbp : bp < (createLargeSlab s pg).nextBufctl) :
    bp < s.nextBufctl ∨ ∃ i, i < s.sizes.maxChunks ∧ bp = s.nextBufctl + i := by
  have hlt : bp < s.nextBufctl + s.sizes.maxChunks := hbp
  rcases Nat.lt_or_ge bp s.nextBufctl with hold | hnew
  · exact Or.inl hold
  · exact Or.inr ⟨bp - s.nextBufctl, by omega, by omega⟩

theorem createLargeSlab_slabs_old {k : ℕ} (hk : k < s.nextSlab) :
    (createLargeSlab s pg).slabs k = s.slabs k := Function.update_of_ne hk.ne _ _

theorem createLargeSlab_slabs_new : (createLargeSlab s pg).slabs s.nextSlab =
    ⟨(List.range' s.nextBufctl s.sizes.maxChunks).reverse, pg, s.colorSeq, s.sizes.maxChunks⟩ :=
  Function.update_self ..

/-- **A new slab** in memory that is not in use. -/
theorem LargeCache.Sound.create (h : s.Sound) (hpos : 0 < pg)
    (hpg : pg + s.sizes.slabSize ≤ 2 ^ 64)
    (happart : ∀ k < s.nextSlab, (s.slabs k).largeBase + s.sizes.slabSize ≤ pg ∨
      pg + s.sizes.slabSize ≤ (s.slabs k).largeBase) : (createLargeSlab s pg).Sound := by
  -- the chunks that are handed out are old ones
  have hkept : ∀ bp ∈ s.allocated,
      (createLargeSlab s pg).index.bufctls bp = s.index.bufctls bp :=
    fun bp hbp => createLargeSlab_old (h.allocated bp hbp)
  have hslab : ∀ k, k < (createLargeSlab s pg).nextSlab → k < s.nextSlab ∨ k = s.nextSlab := by
    intro k hk
    exact Nat.lt_succ_iff_lt_or_eq.mp hk
  refine ⟨h.large, h.clear, nextColor_le h.color, ?_, ?_, ?_, ?_, ?_, h.nodup, ?_, ?_, ?_⟩
  · intro k hk
    rcases hslab k hk with hk | rfl
    · rw [createLargeSlab_slabs_old hk]
      exact h.memory k hk
    · rw [createLargeSlab_slabs_new]
      exact ⟨hpos, hpg⟩
  · intro bp hbp
    rcases old_or_new hbp with hbp | ⟨i, hi, rfl⟩
    · rw [createLargeSlab_old hbp]
      obtain ⟨hlt, hin⟩ := h.bufctl bp hbp
      rw [createLargeSlab_slabs_old hlt]
      exact ⟨Nat.lt_succ_of_lt hlt, hin⟩
    · obtain ⟨hbase, hlt⟩ := h.newBufctl_base hi hpg
      rw [createLargeSlab_new hi]
      have hof : (s.newBufctl pg i).slab = s.nextSlab := rfl
      rw [hof, createLargeSlab_slabs_new, hbase]
      refine ⟨Nat.lt_succ_self _, Nat.le_add_right _ _, ?_⟩
      show _ < pg + s.sizes.slabSize
      omega
  · -- an old chunk is in the memory of an old slab
    have hmixed : ∀ a < s.nextBufctl, ∀ i < s.sizes.maxChunks,
        (s.index.bufctls a).base ≠ (s.newBufctl pg i).base := by
      intro a ha i hi heq
      obtain ⟨hbase, hlt⟩ := h.newBufctl_base hi hpg
      obtain ⟨hk, hge, hend⟩ := h.bufctl a ha
      have := happart _ hk
      omega
    intro a ha b hb heq
    rcases old_or_new ha with ha | ⟨i, hi, rfl⟩
    · rcases old_or_new hb with hb | ⟨j, hj, rfl⟩
      · rw [createLargeSlab_old ha, createLargeSlab_old hb] at heq
        exact h.bases a ha b hb heq
      · rw [createLargeSlab_old ha, createLargeSlab_new hj] at heq
        exact absurd heq (hmixed a ha j hj)
    · rcases old_or_new hb with hb | ⟨j, hj, rfl⟩
      · rw [createLargeSlab_old hb, createLargeSlab_new hi] at heq
        exact absurd heq.symm (hmixed b hb i hi)
      · rw [createLargeSlab_new hi, createLargeSlab_new hj, (h.newBufctl_base hi hpg).1,
          (h.newBufctl_base hj hpg).1] at heq
        have hmul : s.sizes.chunkSize * i = s.sizes.chunkSize * j := by omega
        rw [Nat.eq_of_mul_eq_mul_left h.large.pos hmul]
  · intro k hk
    rcases hslab k hk with hk | rfl
    · rw [createLargeSlab_slabs_old hk]
      exact h.freeCount k hk
    · rw [createLargeSlab_slabs_new, List.length_reverse, List.length_range']
  · intro k hk
    rcases hslab k hk with hk | rfl
    · rw [createLargeSlab_slabs_old hk]
      obtain ⟨hnodup, hfree⟩ := h.freelist k hk
      refine ⟨hnodup, fun bp hbp => ?_⟩
      obtain ⟨hlt, hrest⟩ := hfree bp hbp
      rw [createLargeSlab_old hlt]
      exact ⟨hlt.trans_le (Nat.le_add_right _ _), hrest⟩
    · rw [createLargeSlab_slabs_new]
      refine ⟨List.nodup_reverse.mpr List.nodup_range', fun bp hbp => ?_⟩
      rw [List.mem_reverse, List.mem_range'_1] at hbp
      obtain ⟨i, rfl⟩ := Nat.exists_eq_add_of_le hbp.1
      have hi : i < s.sizes.maxChunks := by omega
      rw [createLargeSlab_new hi]
      refine ⟨hbp.2, rfl, rfl, fun hin => ?_⟩
      have := h.allocated _ hin
      omega
  · intro bp hbp
    exact (h.allocated bp hbp).trans_le (Nat.le_add_right _ _)
  · intro k hk
    have hcount : s.allocated.countP
          (fun bp => ((createLargeSlab s pg).index.bufctls bp).slab = k) =
        s.allocated.countP (fun bp => (s.index.bufctls bp).slab = k) := by
      refine List.countP_congr (fun bp hbp => ?_)
      rw [hkept bp hbp]
    show _ + s.allocated.countP _ = s.sizes.maxChunks
    rw [hcount]
    rcases hslab k hk with hk | rfl
    · rw [createLargeSlab_slabs_old hk]
      exact h.balance k hk
    · -- nothing of the new slab is handed out yet
      rw [createLargeSlab_slabs_new]
      have hnone : s.allocated.countP (fun bp => (s.index.bufctls bp).slab = s.nextSlab) = 0 := by
        rw [List.countP_eq_zero]
        intro bp hbp
        have := (h.bufctl bp (h.allocated bp hbp)).1
        simpa using this.ne
      rw [hnone, Nat.add_zero]
  · exact h.holds.congr rfl hkept

/-! ## What leaves the slabs alone -/

/-- The two differ in the lists of the slabs at most. -/
structure LargeCache.SameSlabs (s s' : LargeCache) : Prop where
  sizes : s'.sizes = s.sizes
  colorSeq : s'.colorSeq = s.colorSeq
  index : s'.index = s.index
  slabs : s'.slabs = s.slabs
  nextSlab : s'.nextSlab = s.nextSlab
  nextBufctl : s'.nextBufctl = s.nextBufctl
  allocated : s'.allocated = s.allocated

theorem LargeCache.Sound.congr (h : s.Sound) (hs : s.SameSlabs s') : s'.Sound := by
  obtain ⟨h1, h2, h3, h4, h5, h6, h7⟩ := hs
  cases s
  cases s'
  simp only at h1 h2 h3 h4 h5 h6 h7
  subst h1 h2 h3 h4 h5 h6 h7
  exact ⟨h.large, h.clear, h.color, h.memory, h.bufctl, h.bases, h.freeCount, h.freelist, h.nodup,
    h.allocated, h.balance, h.holds⟩

theorem relistAlloc_same (s : LargeCache) (sp n : ℕ) : s.SameSlabs (s.relistAlloc sp n) := by
  unfold LargeCache.relistAlloc
  split_ifs
  · exact ⟨rfl, rfl, rfl, rfl, rfl, rfl, rfl⟩
  · exact ⟨rfl, rfl, rfl, rfl, rfl, rfl, rfl⟩
  · exact ⟨rfl, rfl, rfl, rfl, rfl, rfl, rfl⟩

theorem relistFree_same (s : LargeCache) (sp n : ℕ) : s.SameSlabs (s.relistFree sp n) := by
  unfold LargeCache.relistFree
  split_ifs
  · exact ⟨rfl, rfl, rfl, rfl, rfl, rfl, rfl⟩
  · exact ⟨rfl, rfl, rfl, rfl, rfl, rfl, rfl⟩
  · exact ⟨rfl, rfl, rfl, rfl, rfl, rfl, rfl⟩

theorem setFree_slabs (s : LargeCache) (sp : ℕ) (l : List ℕ) (n k : ℕ) :
    (s.setFree sp l n).slabs k =
      if k = sp then ⟨l, (s.slabs sp).largeBase, (s.slabs sp).color, n⟩ else s.slabs k :=
  Function.update_apply ..

theorem setFree_largeBase (s : LargeCache) (sp : ℕ) (l : List ℕ) (n k : ℕ) :
    ((s.setFree sp l n).slabs k).largeBase = (s.slabs k).largeBase := by
  rw [setFree_slabs]
  split_ifs with hk
  · rw [hk]
  · rfl

/-- The state after a chunk has moved between a slab and the table. -/
def LargeCache.moved (s : LargeCache) (sp : ℕ) (l : List ℕ) (n : ℕ) (index : Index)
    (xs : List ℕ) : LargeCache :=
  { s.setFree sp l n with index := index, allocated := xs }

/-- **A chunk moves** between the free list of its slab and the objects handed out. -/
theorem LargeCache.Sound.move {l xs ys : List ℕ} {n : ℕ} {index : Index} (h : s.Sound)
    (hsame : s.index.SameBufctls index ys) (hclear : index.clobbered = s.index.clobbered)
    (hholds : index.Holds xs) (hlen : n = l.length) (hnodup : xs.Nodup)
    (hxs : ∀ bp ∈ xs, bp < s.nextBufctl)
    (hl : l.Nodup ∧ ∀ bp ∈ l, bp < s.nextBufctl ∧ (s.index.bufctls bp).slab = sp ∧
      (index.bufctls bp).hashlist = none ∧ bp ∉ xs)
    (hother : ∀ bp, (s.index.bufctls bp).slab ≠ sp → (bp ∈ ys ∨ bp ∈ xs → bp ∈ s.allocated))
    (hbalance : n + xs.countP (fun bp => (s.index.bufctls bp).slab = sp) = s.sizes.maxChunks)
    (hcount : ∀ k, k ≠ sp → xs.countP (fun bp => (s.index.bufctls bp).slab = k) =
      s.allocated.countP (fun bp => (s.index.bufctls bp).slab = k)) :
    (s.moved sp l n index xs).Sound := by
  have hslabs : ∀ k, (s.moved sp l n index xs).slabs k =
      if k = sp then ⟨l, (s.slabs sp).largeBase, (s.slabs sp).color, n⟩ else s.slabs k :=
    setFree_slabs s sp l n
  have hlarge : ∀ k, ((s.moved sp l n index xs).slabs k).largeBase = (s.slabs k).largeBase :=
    setFree_largeBase s sp l n
  refine ⟨h.large, hclear.trans h.clear, h.color, ?_, ?_, ?_, ?_, ?_, hnodup, hxs, ?_, hholds⟩
  · intro k hk
    rw [hlarge]
    exact h.memory k hk
  · intro bp hbp
    rw [hlarge]
    show (index.bufctls bp).slab < _ ∧ (s.slabs (index.bufctls bp).slab).largeBase ≤
      (index.bufctls bp).base ∧ (index.bufctls bp).base <
        (s.slabs (index.bufctls bp).slab).largeBase + _
    rw [hsame.slab bp, hsame.base bp]
    exact h.bufctl bp hbp
  · intro a ha b hb heq
    have heq' : (index.bufctls a).base = (index.bufctls b).base := heq
    rw [hsame.base a, hsame.base b] at heq'
    exact h.bases a ha b hb heq'
  · intro k hk
    rw [hslabs]
    split_ifs with hksp
    · exact hlen
    · exact h.freeCount k hk
  · intro k hk
    rw [hslabs]
    split_ifs with hksp
    · refine ⟨hl.1, fun bp hbp => ?_⟩
      obtain ⟨hlt, hof, hnull, hout⟩ := hl.2 bp hbp
      exact ⟨hlt, (hsame.slab bp).trans (hof.trans hksp.symm), hnull, hout⟩
    · -- another slab
      obtain ⟨hfreeNodup, hfree⟩ := h.freelist k hk
      refine ⟨hfreeNodup, fun bp hbp => ?_⟩
      obtain ⟨hlt, hof, hnull, hout⟩ := hfree bp hbp
      have hne : (s.index.bufctls bp).slab ≠ sp := by rwa [hof]
      refine ⟨hlt, (hsame.slab bp).trans hof, ?_, fun hin => hout (hother bp hne (Or.inr hin))⟩
      exact (hsame.hashlist bp (fun hin => hout (hother bp hne (Or.inl hin)))).trans hnull
  · intro k hk
    have hsum : xs.countP (fun bp => (index.bufctls bp).slab = k) =
        xs.countP (fun bp => (s.index.bufctls bp).slab = k) := by
      refine List.countP_congr (fun bp _ => ?_)
      rw [hsame.slab bp]
    show ((s.moved sp l n index xs).slabs k).freeCount +
      xs.countP (fun bp => (index.bufctls bp).slab = k) = s.sizes.maxChunks
    rw [hsum, hslabs]
    split_ifs with hksp
    · rw [hksp]
      exact hbalance
    · rw [hcount k hksp]
      exact h.balance k hk

/-! ## The calls -/

theorem length_lt_of_nodup {N : ℕ} {l : List ℕ} (hnodup : l.Nodup)
    (hl : ∀ x ∈ l, 0 < x ∧ x < N) (hN : 0 < N) : l.length < N := by
  have hsub : l.toFinset ⊆ Finset.Ioo 0 N := by
    intro x hx
    exact Finset.mem_Ioo.mpr (hl x (List.mem_toFinset.mp hx))
  have hcard := Finset.card_le_card hsub
  rw [List.toFinset_card_of_nodup hnodup, Nat.card_Ioo] at hcard
  omega

theorem LargeCache.Sound.length_lt (h : s.Sound) (hnodup : (bp :: s.allocated).Nodup)
    (hbp : bp < s.nextBufctl) : s.allocated.length + 1 < 2 ^ 64 := by
  have hlt : ∀ x ∈ bp :: s.allocated, x < s.nextBufctl := by
    intro x hx
    rcases List.mem_cons.mp hx with rfl | hx
    · exact hbp
    · exact h.allocated x hx
  have hinj : ((bp :: s.allocated).map (fun x => (s.index.bufctls x).base)).Nodup := by
    refine List.Nodup.map_on (fun a ha b hb heq => ?_) hnodup
    exact h.bases a (hlt a ha) b (hlt b hb) heq
  have hlen := length_lt_of_nodup hinj (N := 2 ^ 64) ?_ (by decide)
  · rwa [List.length_map, List.length_cons] at hlen
  · intro addr haddr
    obtain ⟨x, hx, rfl⟩ := List.mem_map.mp haddr
    obtain ⟨hk, hge, hend⟩ := h.bufctl x (hlt x hx)
    have := h.memory _ hk
    omega

/-- **Allocation**: the object on top of the free list is handed out, and it is in the index unless
there was no memory for the first table. -/
theorem LargeCache.Sound.slabAlloc (h : s.Sound) (hsp : sp < s.nextSlab)
    (hfree : 0 < (s.slabs sp).freeCount) (mem : Option ℕ) :
    ∃ addr s', slabAlloc s sp mem = some (addr, s') ∧
      (s.index.bucketCount = 0 ∧ mem = none → ¬ s'.Indexed) ∧
      (¬ (s.index.bucketCount = 0 ∧ mem = none) → s'.Sound) := by
  have hcountEq := h.freeCount sp hsp
  obtain ⟨hfreeNodup, hfreelist⟩ := h.freelist sp hsp
  obtain ⟨bp, rest, hlist⟩ : ∃ bp rest, (s.slabs sp).freelist = bp :: rest :=
    List.exists_cons_of_length_pos (by omega)
  rw [hlist] at hfreeNodup hfreelist hcountEq
  rw [List.nodup_cons] at hfreeNodup
  obtain ⟨hlt, hof, hnull, hout⟩ := hfreelist bp List.mem_cons_self
  have hnodup : (bp :: s.allocated).Nodup := List.nodup_cons.mpr ⟨hout, h.nodup⟩
  obtain ⟨index, hinsert, hsame, hbad, hgood⟩ :=
    h.holds.insert (h.length_lt hnodup hlt) hout hnull mem
  unfold Kmem.slabAlloc
  rw [if_neg hfree.ne', hlist]
  simp only [Option.bind_eq_bind, List.head?_cons, Option.bind_some, hof, ne_eq, not_true_eq_false,
    if_false, hinsert, List.tail_cons]
  refine ⟨_, _, rfl, fun h0 hindexed => ?_, fun h0 => ?_⟩
  · -- no bucket holds the object
    have hone := hindexed.once bp List.mem_cons_self
    have hnil := hbad h0
    simp only [hnil, List.flatten_nil, List.count_nil] at hone
    omega
  obtain ⟨hholds, hclear⟩ := hgood h0
  have hbalance := h.balance sp hsp
  have hmoved : (s.moved sp rest ((s.slabs sp).freeCount - 1) index (bp :: s.allocated)).Sound := by
    refine h.move hsame hclear hholds ?_ hnodup ?_ ⟨hfreeNodup.2, ?_⟩ ?_ ?_ ?_
    · rw [hcountEq, List.length_cons, Nat.add_sub_cancel]
    · intro x hx
      rcases List.mem_cons.mp hx with rfl | hx
      · exact hlt
      · exact h.allocated x hx
    · intro x hx
      obtain ⟨hxlt, hxof, hxnull, hxout⟩ := hfreelist x (List.mem_cons_of_mem bp hx)
      have hne : x ≠ bp := fun heq => hfreeNodup.1 (heq ▸ hx)
      have hxout' : x ∉ bp :: s.allocated := by
        rw [List.mem_cons, not_or]
        exact ⟨hne, hxout⟩
      exact ⟨hxlt, hxof, (hsame.hashlist x hxout').trans hxnull, hxout'⟩
    · intro x hx hin
      have hne : x ≠ bp := fun heq => hx (heq ▸ hof)
      rcases hin with hin | hin
      · exact (List.mem_cons.mp hin).resolve_left hne
      · exact (List.mem_cons.mp hin).resolve_left hne
    · rw [List.countP_cons_of_pos (by simpa using hof)]
      omega
    · intro k hk
      rw [List.countP_cons_of_neg]
      simpa [hof] using Ne.symm hk
  refine hmoved.congr ?_
  have hrelist := relistAlloc_same (s.setFree sp rest ((s.slabs sp).freeCount - 1)) sp
    (s.slabs sp).freeCount
  exact ⟨hrelist.sizes, hrelist.colorSeq, rfl, hrelist.slabs, hrelist.nextSlab, hrelist.nextBufctl,
    rfl⟩

/-- **Freeing**: the object is found by its address and goes back to its slab. -/
theorem LargeCache.Sound.kmemCacheFree (h : s.Sound) (hbp : bp ∈ s.allocated) (mem : Option ℕ) :
    ∃ s', kmemCacheFree s (s.index.bufctls bp).base mem = some s' ∧ s'.Sound := by
  have hlookup := (h.indexed.lookup _ bp).mpr ⟨hbp, rfl⟩
  obtain ⟨index, hremove, hholds, hsame, hnull, hclear⟩ := h.holds.remove h.nodup hbp mem
  obtain ⟨hsp, -, -⟩ := h.bufctl bp (h.allocated bp hbp)
  have hcountEq := h.freeCount _ hsp
  obtain ⟨hfreeNodup, hfreelist⟩ := h.freelist _ hsp
  have hbalance := h.balance _ hsp
  -- the object is one of those handed out from the slab
  have hcountP : ∀ k, s.allocated.countP (fun x => (s.index.bufctls x).slab = k) =
      (s.allocated.erase bp).countP (fun x => (s.index.bufctls x).slab = k) +
        if (s.index.bufctls bp).slab = k then 1 else 0 := by
    intro k
    rw [(List.perm_cons_erase hbp).countP_eq, List.countP_cons]
    simp only [decide_eq_true_eq]
  have hcountSelf := hcountP (s.index.bufctls bp).slab
  rw [if_pos rfl] at hcountSelf
  have hmoved : (s.moved (s.index.bufctls bp).slab
      (bp :: (s.slabs (s.index.bufctls bp).slab).freelist)
      ((s.slabs (s.index.bufctls bp).slab).freeCount + 1) index (s.allocated.erase bp)).Sound := by
    have hnotFree : bp ∉ (s.slabs (s.index.bufctls bp).slab).freelist :=
      fun hin => (hfreelist bp hin).2.2.2 hbp
    refine h.move hsame hclear hholds ?_ (h.nodup.erase bp) ?_
      ⟨List.nodup_cons.mpr ⟨hnotFree, hfreeNodup⟩, ?_⟩ ?_ ?_ ?_
    · rw [hcountEq, List.length_cons]
    · intro x hx
      exact h.allocated x (h.nodup.mem_erase_iff.mp hx).2
    · intro x hx
      rcases List.mem_cons.mp hx with rfl | hx
      · exact ⟨h.allocated x hbp, rfl, hnull, h.nodup.not_mem_erase⟩
      · obtain ⟨hxlt, hxof, hxnull, hxout⟩ := hfreelist x hx
        exact ⟨hxlt, hxof, (hsame.hashlist x hxout).trans hxnull,
          fun hin => hxout (h.nodup.mem_erase_iff.mp hin).2⟩
    · intro x _ hin
      rcases hin with hin | hin
      · exact hin
      · exact (h.nodup.mem_erase_iff.mp hin).2
    · omega
    · intro k hk
      have hother := hcountP k
      rw [if_neg (Ne.symm hk)] at hother
      exact hother.symm
  unfold Kmem.kmemCacheFree slabFree
  simp only [Option.bind_eq_bind, hlookup, Option.bind_some, hremove, hsame.slab bp]
  rw [if_neg (by omega)]
  refine ⟨_, rfl, hmoved.congr ?_⟩
  have hrelist := relistFree_same
    (({ s with index := index, allocated := s.allocated.erase bp } : LargeCache).setFree
      (s.index.bufctls bp).slab (bp :: (s.slabs (s.index.bufctls bp).slab).freelist)
      ((s.slabs (s.index.bufctls bp).slab).freeCount + 1)) (s.index.bufctls bp).slab
    ((s.slabs (s.index.bufctls bp).slab).freeCount + 1)
  exact ⟨hrelist.sizes, hrelist.colorSeq, hrelist.index, hrelist.slabs, hrelist.nextSlab,
    hrelist.nextBufctl, hrelist.allocated⟩

/-! ## The index finds what is handed out -/

/-- **Every call is carried out**, and leaves a right index exactly if the first table was
allocated. -/
theorem LargeCache.Sound.step {c : SlabCall} (h : s.Sound) (hc : s.Allowed c) :
    ∃ s', s.step c = some s' ∧ (HasTable s c → s'.Sound) ∧ (s'.Indexed → HasTable s c) := by
  rw [LargeCache.step, if_pos ⟨h.clear, hc⟩]
  cases c with
  | create pg =>
    obtain ⟨hpos, hpg, happart⟩ := hc
    exact ⟨_, rfl, fun _ => h.create hpos hpg happart, fun _ => trivial⟩
  | alloc sp mem =>
    obtain ⟨addr, s', hs', hbad, hgood⟩ := h.slabAlloc hc.1 hc.2 mem
    refine ⟨s', by simp only [LargeCache.perform, hs', Option.map_some], fun htable => ?_,
      fun hindexed h0 hmem => ?_⟩
    · exact hgood (fun h0 => htable h0.1 h0.2)
    · exact hbad ⟨h0, hmem⟩ hindexed
  | free obj mem =>
    obtain ⟨bp, hbp, rfl⟩ := hc
    obtain ⟨s', hs', hsound⟩ := h.kmemCacheFree hbp mem
    exact ⟨s', hs', fun _ => hsound, fun _ => trivial⟩

/-- **The index of large objects.**  In every run in which the first table is allocated, an object
is found exactly while it is handed out, and every call that can be made is carried out; the call
without memory for the first table is the one after which this is lost. -/
theorem index_indexed (hcreate : kmemCacheCreate size align qcache = some cp)
    (hlarge : kmSmallslabMax < cp.chunkSize)
    (h : (largeCacheSystem cp).ReachableUnder HasTable s) :
    s.Indexed ∧ ∀ c, s.Allowed c → ∃ s', s.step c = some s' ∧ (s'.Indexed ↔ HasTable s c) := by
  have hsound : s.Sound := by
    refine h.invariant (fun s hinit => ?_) (fun s c s' hs hc hstep => ?_)
    · rw [show s = .initial cp from hinit]
      exact sound_initial (kmemCacheCreate_large hcreate hlarge)
    · by_cases hguard : s.index.clobbered = false ∧ s.Allowed c
      · obtain ⟨s'', hs'', hgood, -⟩ := hs.step hguard.2
        have hstep' : s.step c = some s' := hstep
        rw [hs'', Option.some.injEq] at hstep'
        rw [← hstep']
        exact hgood hc
      · have hstep' : s.step c = some s' := hstep
        rw [LargeCache.step, if_neg hguard] at hstep'
        cases hstep'
  refine ⟨hsound.indexed, fun c hc => ?_⟩
  obtain ⟨s', hs', hgood, hback⟩ := hsound.step hc
  exact ⟨s', hs', hback, fun htable => (hgood htable).indexed⟩

instance (s : LargeCache) : (c : SlabCall) → Decidable (HasTable s c)
  | .create _ => inferInstanceAs (Decidable True)
  | .alloc _ mem => inferInstanceAs (Decidable (s.index.bucketCount = 0 → mem ≠ none))
  | .free _ _ => inferInstanceAs (Decidable True)

/-- A cache for objects of 600 bytes. -/
def cache600 : KmemCache := (kmemCacheCreate 600 0 none).get (by decide +kernel)

theorem cache600_create : kmemCacheCreate 600 0 none = some cache600 := (Option.some_get _).symm

/-- Nine objects from a slab, for which the table grows to 16 buckets; then one is freed. -/
theorem index_indexed_grown :
    ∃ s, (largeCacheSystem cache600).Reachable s ∧ s.index.bucketCount = 16 ∧
      s.allocated.length = 8 ∧ s.Indexed := by
  obtain ⟨s, hs, hp⟩ := TransitionSystem.exists_reachableUnder_of_runUnder (C := HasTable)
    (show (largeCacheSystem cache600).init (.initial cache600) from rfl)
    [.create 0x100000, .alloc 0 (some 1), .alloc 0 none, .alloc 0 none, .alloc 0 none,
      .alloc 0 none, .alloc 0 none, .alloc 0 none, .alloc 0 none, .alloc 0 (some 2),
      .free 0x112da0 none]
    (fun s => decide (s.index.bucketCount = 16 ∧ s.allocated.length = 8)) (by decide +kernel)
  obtain ⟨hcount, hlen⟩ := of_decide_eq_true hp
  exact ⟨s, hs.reachable, hcount, hlen,
    (index_indexed cache600_create (by decide +kernel) hs).1⟩

/-- Without memory for the first table the object is in no bucket. -/
theorem index_not_indexed : ∃ s, (largeCacheSystem cache600).Reachable s ∧ ¬ s.Indexed := by
  obtain ⟨s, hs, hp⟩ := TransitionSystem.exists_reachable_of_run
    (show (largeCacheSystem cache600).init (.initial cache600) from rfl)
    [.create 0x100000, .alloc 0 none]
    (fun s => decide (s.index.tbl.lists = [] ∧ s.allocated ≠ [])) (by decide +kernel)
  obtain ⟨hnil, hne⟩ := of_decide_eq_true hp
  refine ⟨s, hs, fun h => ?_⟩
  obtain ⟨bp, rest, hlist⟩ := List.exists_cons_of_ne_nil hne
  have hone := h.once bp (by rw [hlist]; exact List.mem_cons_self)
  rw [hnil, List.flatten_nil, List.count_nil] at hone
  omega

end Kmem
