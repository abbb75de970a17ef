/-
# The index of large objects

The hash table of `vm/kmem_slab.c`: from the address of a large object to its `kmem_bufctl`.
`hashtable_insert` doubles the table and `hashtable_remove` shrinks it; every `kmem_bufctl` has a
pointer back to its bucket.
-/
import YakKernel.BucketTable
import YakKernel.KmemGeometry

namespace Kmem

open Vmem BucketTable

/-! ## The table -/

/-- `kmem_large_bufctl_t`.  A pointer to a bucket is the address of the array and the index. -/
structure LargeBufctl where
  hashlist : Option (ℕ × ℕ)
  base : ℕ
  slab : ℕ

/-- The assignment to `hashlist`. -/
def LargeBufctl.setHashlist (b : LargeBufctl) (hashlist : Option (ℕ × ℕ)) : LargeBufctl :=
  { b with hashlist := hashlist }

/-- `kmem_hashtable_t`: `buckets` is the address of the array, `lists` are its buckets, and there
are `bucket_count` of them. -/
structure KmemHashtable where
  entryCount : ℕ
  buckets : ℕ
  lists : List (List ℕ)

/-- The table and the `kmem_bufctl`s; `clobbered` tells that the head of a list was written that is
not in the array. -/
structure Index where
  tbl : KmemHashtable
  bufctls : ℕ → LargeBufctl
  clobbered : Bool

/-- `bucket_count`. -/
def Index.bucketCount (s : Index) : ℕ := s.tbl.lists.length

/-- `hash_index`. -/
def hashIndex (ptr count : ℕ) : ℕ := murmur64 ptr &&& wsub count 1

/-- `hash_list`. -/
def Index.hashList (s : Index) (ptr : ℕ) : ℕ × ℕ := (s.tbl.buckets, hashIndex ptr s.bucketCount)

/-- The index of the bucket of a `kmem_bufctl` among `count`. -/
def Index.place (s : Index) (count bp : ℕ) : ℕ := hashIndex (s.bufctls bp).base count

/-- `n++` of a `size_t`. -/
def incr (n : ℕ) : ℕ := if n = 2 ^ 64 - 1 then 0 else n + 1

/-- `n--`. -/
def decr (n : ℕ) : ℕ := if n = 0 then 2 ^ 64 - 1 else n - 1

/-- `load_factor`. -/
def loadFactor (count total : ℕ) : ℕ := count * 1000 % 2 ^ 64 / total

/-- `1 << n` of type `int`; the shift takes the count modulo 32. -/
def oneShl (n : ℕ) : ℤ := if n % 32 = 31 then -2 ^ 31 else 2 ^ (n % 32)

/-- `hashtable_reinsert` into the array at `addr`. -/
def reinsert (addr count : ℕ) (s : (ℕ → LargeBufctl) × List (List ℕ)) (bp : ℕ) :
    (ℕ → LargeBufctl) × List (List ℕ) :=
  (Function.update s.1 bp ((s.1 bp).setHashlist (some (addr, hashIndex (s.1 bp).base count))),
    insertHead s.2 (hashIndex (s.1 bp).base count) bp)

/-- `hashtable_resize`; `mem` is what `vmem_alloc` returns.  The callers do not look at the
answer. -/
def hashtableResize (s : Index) (newSize : ℕ) (mem : Option ℕ) : Option Index :=
  if newSize &&& wsub newSize 1 ≠ 0 then none
  else if s.bucketCount = newSize then some s
  else if newSize * 8 % 2 ^ 64 = 0 then none
  else
    match mem with
    | none => some s
    | some addr =>
      -- an array that is shorter than the count
      if 2 ^ 64 ≤ newSize * 8 then none
      else
        let moved := s.tbl.lists.flatten.foldl (reinsert addr newSize)
          (s.bufctls, List.replicate newSize [])
        some { s with
          tbl := { s.tbl with buckets := addr, lists := moved.2 }
          bufctls := moved.1 }

/-- `hashtable_lookup`; without a table it reads what is not there. -/
def hashtableLookup (s : Index) (base : ℕ) : Option (Option ℕ) :=
  let idx := hashIndex base s.bucketCount
  if s.bucketCount ≤ idx then none
  else some ((bucket s.tbl.lists idx).find? (fun bp => (s.bufctls bp).base = base))

/-- The table that `hashtable_insert` puts the entry into. -/
def hashtableGrow (s : Index) (mem : Option ℕ) : Option Index :=
  if s.bucketCount = 0 then hashtableResize s 8 mem
  else if loadFactor s.tbl.entryCount s.bucketCount > 800 then
    hashtableResize s (s.bucketCount * 2 % 2 ^ 64) mem
  else some s

/-- `hashtable_insert`. -/
def hashtableInsert (s : Index) (bp : ℕ) (mem : Option ℕ) : Option Index := do
  let s ← hashtableGrow s mem
  if (s.bufctls bp).hashlist ≠ none then none
  let idx := s.place s.bucketCount bp
  some {
    tbl := { s.tbl with
      entryCount := incr s.tbl.entryCount
      lists := insertHead s.tbl.lists idx bp }
    bufctls := Function.update s.bufctls bp
      ((s.bufctls bp).setHashlist (some (s.tbl.buckets, idx)))
    clobbered := s.clobbered || decide (s.bucketCount ≤ idx) }

/-- The end of `hashtable_remove`: a table that is mostly empty shrinks. -/
def hashtableShrink (s : Index) (mem : Option ℕ) : Option Index :=
  if s.bucketCount > 8 ∧ loadFactor s.tbl.entryCount s.bucketCount < 250 then
    let newSize := (max 8 (oneShl (nextIlog2 (s.tbl.entryCount * 2 % 2 ^ 64)))).toNat
    if newSize < s.bucketCount then hashtableResize s newSize mem else some s
  else some s

/-- The beginning of `hashtable_remove`: the entry is taken off its list. -/
def Index.unlink (s : Index) (bp : ℕ) : Index :=
  { s with
    tbl := { s.tbl with
      entryCount := decr s.tbl.entryCount
      lists := removeFrom s.tbl.lists (s.place s.bucketCount bp) bp }
    bufctls := Function.update s.bufctls bp ((s.bufctls bp).setHashlist none) }

/-- `hashtable_remove`; `SLIST_REMOVE` of what is not on the list runs off its end. -/
def hashtableRemove (s : Index) (bp : ℕ) (mem : Option ℕ) : Option Index :=
  let idx := s.place s.bucketCount bp
  if (s.bufctls bp).hashlist ≠ some (s.tbl.buckets, idx) ∨ bp ∉ bucket s.tbl.lists idx then none
  else hashtableShrink (s.unlink bp) mem

/-! ## The table is right -/

/-- **The table is right for the entries `xs`**: it holds them and nothing else, each in its bucket
and with a pointer to it, and their number. -/
structure Index.Holds (s : Index) (xs : List ℕ) : Prop where
  pow : s.bucketCount = 0 ∨ ∃ j, s.bucketCount = 2 ^ j
  placed : Placed (s.place s.bucketCount) s.tbl.lists
  perm : s.tbl.lists.flatten.Perm xs
  hashlist : ∀ bp ∈ xs,
    (s.bufctls bp).hashlist = some (s.tbl.buckets, s.place s.bucketCount bp)
  entryCount : s.tbl.entryCount = xs.length

/-- What the operations on the table leave alone: everything but the pointers of the entries
`xs`. -/
structure Index.SameBufctls (s s' : Index) (xs : List ℕ) : Prop where
  base : ∀ bp, (s'.bufctls bp).base = (s.bufctls bp).base
  slab : ∀ bp, (s'.bufctls bp).slab = (s.bufctls bp).slab
  hashlist : ∀ bp, bp ∉ xs → (s'.bufctls bp).hashlist = (s.bufctls bp).hashlist

variable {s s' : Index} {xs : List ℕ} {bp count newSize addr : ℕ} {mem : Option ℕ}

theorem Index.SameBufctls.refl (s : Index) (xs : List ℕ) : s.SameBufctls s xs :=
  ⟨fun _ => rfl, fun _ => rfl, fun _ _ => rfl⟩

theorem Index.SameBufctls.place (h : s.SameBufctls s' xs) : s'.place count bp = s.place count bp :=
  congrArg (fun base => hashIndex base count) (h.base bp)

theorem hashIndex_lt {j : ℕ} (hcount : count = 2 ^ j) (ptr : ℕ) : hashIndex ptr count < count := by
  have hpos : 0 < 2 ^ j := Nat.two_pow_pos j
  unfold hashIndex
  refine lt_of_le_of_lt Nat.and_le_right ?_
  rw [hcount]
  unfold wsub
  rcases Nat.lt_or_ge j 65 with hj | hj
  · have hle : (2 : ℕ) ^ j ≤ 2 ^ 64 := Nat.pow_le_pow_right (by decide) (by omega)
    omega
  · have hle : (2 : ℕ) ^ 65 ≤ 2 ^ j := Nat.pow_le_pow_right (by decide) hj
    have := Nat.mod_lt (2 ^ j + 2 ^ 64 - 1) (Nat.two_pow_pos 64)
    omega

theorem Index.Holds.congr (h : s.Holds xs) (htbl : s'.tbl = s.tbl)
    (hbufctls : ∀ bp ∈ xs, s'.bufctls bp = s.bufctls bp) : s'.Holds xs := by
  have hcount : s'.bucketCount = s.bucketCount := congrArg (fun t => t.lists.length) htbl
  have hplace : ∀ bp ∈ xs, ∀ count, s'.place count bp = s.place count bp := by
    intro bp hbp count
    unfold Index.place
    rw [hbufctls bp hbp]
  refine ⟨by rw [hcount]; exact h.pow, ?_, by rw [htbl]; exact h.perm, ?_,
    by rw [htbl]; exact h.entryCount⟩
  · intro i bp hbp
    rw [htbl] at hbp
    rw [hcount, hplace bp (h.perm.mem_iff.mp (mem_flatten_of_mem_bucket hbp))]
    exact h.placed i bp hbp
  · intro bp hbp
    rw [hbufctls bp hbp, htbl, hcount, hplace bp hbp]
    exact h.hashlist bp hbp

/-! ## Resizing -/

theorem reinsert_bufctls (addr count : ℕ) (s : (ℕ → LargeBufctl) × List (List ℕ)) (x bp : ℕ) :
    (reinsert addr count s x).1 bp =
      if bp = x then (s.1 x).setHashlist (some (addr, hashIndex (s.1 x).base count))
      else s.1 bp := Function.update_apply ..

/-- The buckets filled so far are those of the library, and the pointers of what was moved point
to them. -/
theorem foldl_reinsert (addr count : ℕ) (bases : ℕ → ℕ) (l : List ℕ) :
    ∀ acc : (ℕ → LargeBufctl) × List (List ℕ), (∀ bp, (acc.1 bp).base = bases bp) →
      (l.foldl (reinsert addr count) acc).2 =
        l.foldl (fun t bp => insertHead t (hashIndex (bases bp) count) bp) acc.2 ∧
      ∀ bp, (l.foldl (reinsert addr count) acc).1 bp =
        if bp ∈ l then (acc.1 bp).setHashlist (some (addr, hashIndex (bases bp) count))
        else acc.1 bp := by
  induction l with
  | nil => exact fun acc _ => ⟨rfl, fun bp => (if_neg List.not_mem_nil).symm⟩
  | cons x l ih =>
    intro acc hbases
    have hkeep : ∀ bp, ((reinsert addr count acc x).1 bp).base = bases bp := by
      intro bp
      rw [← hbases bp, reinsert_bufctls]
      split_ifs with hbp
      · rw [hbp]
        rfl
      · rfl
    obtain ⟨hlists, hbufctls⟩ := ih (reinsert addr count acc x) hkeep
    rw [List.foldl_cons, List.foldl_cons]
    refine ⟨?_, fun bp => ?_⟩
    · rw [hlists, reinsert, hbases x]
    · rw [hbufctls bp, reinsert_bufctls]
      by_cases hbp : bp = x
      · subst hbp
        rw [if_pos rfl, if_pos List.mem_cons_self, hbases bp]
        exact ite_self _
      · simp only [List.mem_cons, hbp, false_or, if_false]

/-- **Resizing** keeps the entries and directs every pointer to the new bucket; without memory it
changes nothing. -/
theorem Index.Holds.resize (h : s.Holds xs) (hpow : ∃ j, newSize = 2 ^ j)
    (hroom : newSize * 8 < 2 ^ 64) (mem : Option ℕ) :
    ∃ s', hashtableResize s newSize mem = some s' ∧ s'.Holds xs ∧ s.SameBufctls s' xs ∧
      s'.clobbered = s.clobbered ∧
      s'.bucketCount = if mem = none then s.bucketCount else newSize := by
  obtain ⟨j, hj⟩ := hpow
  have hpos : 0 < newSize := hj ▸ Nat.two_pow_pos j
  have hcheck : newSize &&& wsub newSize 1 = 0 := by
    rw [wsub_of_le hpos (by omega), hj, Nat.and_two_pow_sub_one_eq_mod, Nat.mod_self]
  unfold hashtableResize
  rw [if_neg (not_not.mpr hcheck)]
  by_cases hsame : s.bucketCount = newSize
  · rw [if_pos hsame]
    refine ⟨s, rfl, h, .refl s xs, rfl, ?_⟩
    rw [hsame, ite_self]
  rw [if_neg hsame, if_neg (by rw [Nat.mod_eq_of_lt hroom]; omega)]
  cases mem with
  | none => exact ⟨s, rfl, h, .refl s xs, rfl, rfl⟩
  | some addr =>
    obtain ⟨hlists, hbufctls⟩ := foldl_reinsert addr newSize (fun bp => (s.bufctls bp).base)
      s.tbl.lists.flatten (s.bufctls, List.replicate newSize []) (fun _ => rfl)
    obtain ⟨hlen, hplaced, hperm⟩ :=
      rehash_spec (fun bp => hashIndex_lt hj (s.bufctls bp).base) s.tbl.lists
    have hmem : ∀ bp, bp ∈ s.tbl.lists.flatten ↔ bp ∈ xs := fun bp => h.perm.mem_iff
    simp only [if_neg (Nat.not_le.mpr hroom), hlists]
    set moved := (s.tbl.lists.flatten.foldl (reinsert addr newSize)
      (s.bufctls, List.replicate newSize [])).1 with hmoved
    have hbase : ∀ bp, (moved bp).base = (s.bufctls bp).base := by
      intro bp
      rw [hbufctls bp]
      split_ifs
      · rfl
      · rfl
    refine ⟨_, rfl, ⟨Or.inr ⟨j, hlen.trans hj⟩, ?_, hperm.trans h.perm, ?_, h.entryCount⟩,
      ⟨hbase, fun bp => ?_, fun bp hbp => ?_⟩, rfl, hlen⟩
    · intro i bp hbp
      have := hplaced i bp hbp
      rw [← this]
      show hashIndex (moved bp).base _ = _
      rw [hbase bp]
      exact congrArg (hashIndex _) hlen
    · intro bp hbp
      show (moved bp).hashlist = some (addr, hashIndex (moved bp).base _)
      rw [hbase bp, hbufctls bp, if_pos ((hmem bp).mpr hbp)]
      exact congrArg (fun n => some (addr, hashIndex _ n)) hlen.symm
    · show (moved bp).slab = _
      rw [hbufctls bp]
      split_ifs
      · rfl
      · rfl
    · show (moved bp).hashlist = _
      rw [hbufctls bp, if_neg (fun hin => hbp ((hmem bp).mp hin))]

/-- **Growing**: the table is there afterwards, unless there was none and no memory either. -/
theorem Index.Holds.grow (h : s.Holds xs) (mem : Option ℕ) :
    ∃ s', hashtableGrow s mem = some s' ∧ s'.Holds xs ∧ s.SameBufctls s' xs ∧
      s'.clobbered = s.clobbered ∧
      (s'.bucketCount = 0 ↔ s.bucketCount = 0 ∧ mem = none) := by
  unfold hashtableGrow
  by_cases hzero : s.bucketCount = 0
  · rw [if_pos hzero]
    obtain ⟨s', hs', hholds, hsame, hclob, hcount⟩ := h.resize ⟨3, rfl⟩ (by decide) mem
    refine ⟨s', hs', hholds, hsame, hclob, ?_⟩
    rw [hcount]
    by_cases hmem : mem = none
    · rw [if_pos hmem]
      simp only [hzero, hmem, and_self]
    · rw [if_neg hmem]
      simp only [hmem, and_false, iff_false]
      decide
  rw [if_neg hzero]
  by_cases hload : loadFactor s.tbl.entryCount s.bucketCount > 800
  · rw [if_pos hload]
    -- what is divided by the number of buckets is a word, so that is small
    have hsmall : s.bucketCount * 801 < 2 ^ 64 := by
      have hle := (Nat.le_div_iff_mul_le (Nat.pos_of_ne_zero hzero)).mp hload
      have hmod := Nat.mod_lt (s.tbl.entryCount * 1000) (Nat.two_pow_pos 64)
      omega
    rw [Nat.mod_eq_of_lt (by omega)]
    obtain ⟨j, hj⟩ := h.pow.resolve_left hzero
    obtain ⟨s', hs', hholds, hsame, hclob, hcount⟩ :=
      @Index.Holds.resize s xs (s.bucketCount * 2) h ⟨j + 1, by rw [hj, Nat.pow_succ]⟩
        (by omega) mem
    refine ⟨s', hs', hholds, hsame, hclob, fun h0 => ?_, fun h0 => absurd h0.1 hzero⟩
    rw [hcount] at h0
    split_ifs at h0 with hmem
    · exact absurd h0 hzero
    · omega
  · rw [if_neg hload]
    exact ⟨s, rfl, h, .refl s xs, rfl, fun h0 => absurd h0 hzero, fun h0 => absurd h0.1 hzero⟩

/-! ## Insertion -/

/-- **Insertion** into the table; where there is none, it writes to no array. -/
theorem Index.Holds.insert (h : s.Holds xs) (hfew : xs.length + 1 < 2 ^ 64) (hbp : bp ∉ xs)
    (hnull : (s.bufctls bp).hashlist = none) (mem : Option ℕ) :
    ∃ s', hashtableInsert s bp mem = some s' ∧ s.SameBufctls s' (bp :: xs) ∧
      (s.bucketCount = 0 ∧ mem = none → s'.tbl.lists = []) ∧
      (¬ (s.bucketCount = 0 ∧ mem = none) →
        s'.Holds (bp :: xs) ∧ s'.clobbered = s.clobbered) := by
  obtain ⟨s', hs', hholds, hsame, hclob, hcount⟩ := h.grow mem
  have hnull' : (s'.bufctls bp).hashlist = none := (hsame.hashlist bp hbp).trans hnull
  unfold hashtableInsert
  rw [hs']
  simp only [Option.bind_eq_bind, Option.bind_some, hnull', ne_eq, not_true_eq_false, if_false]
  set b := (s'.bufctls bp).setHashlist (some (s'.tbl.buckets, s'.place s'.bucketCount bp)) with hb
  have hbase : ∀ x, (Function.update s'.bufctls bp b x).base = (s'.bufctls x).base := by
    intro x
    rw [Function.update_apply]
    split_ifs with hx
    · rw [hx]
      rfl
    · rfl
  have hslab : ∀ x, (Function.update s'.bufctls bp b x).slab = (s'.bufctls x).slab := by
    intro x
    rw [Function.update_apply]
    split_ifs with hx
    · rw [hx]
      rfl
    · rfl
  refine ⟨_, rfl, ⟨fun x => (hbase x).trans (hsame.base x), fun x => (hslab x).trans (hsame.slab x),
    fun x hx => ?_⟩, fun h0 => ?_, fun h0 => ?_⟩
  · rw [List.mem_cons, not_or] at hx
    show (Function.update s'.bufctls bp b x).hashlist = _
    rw [Function.update_of_ne hx.1]
    exact hsame.hashlist x hx.2
  · have hnil : s'.tbl.lists = [] := List.eq_nil_of_length_eq_zero (hcount.mpr h0)
    show insertHead s'.tbl.lists _ bp = []
    rw [hnil]
    exact List.modify_nil ..
  · have hne : s'.bucketCount ≠ 0 := fun hz => h0 (hcount.mp hz)
    obtain ⟨j, hj⟩ := hholds.pow.resolve_left hne
    have hlt : s'.place s'.bucketCount bp < s'.tbl.lists.length :=
      hashIndex_lt hj (s'.bufctls bp).base
    have hlen : ∀ i, (insertHead s'.tbl.lists i bp).length = s'.bucketCount :=
      fun i => insertHead_length ..
    refine ⟨⟨Or.inr ⟨j, (hlen _).trans hj⟩, ?_, ?_, ?_, ?_⟩, ?_⟩
    · intro i x hx
      have hplace := hholds.placed.insertHead hlt i x hx
      rw [← hplace]
      show hashIndex (Function.update s'.bufctls bp b x).base _ = _
      rw [hbase x]
      exact congrArg (hashIndex _) (hlen _)
    · exact (insertHead_perm hlt bp).trans (hholds.perm.cons bp)
    · intro x hx
      show (Function.update s'.bufctls bp b x).hashlist =
        some (s'.tbl.buckets, hashIndex (Function.update s'.bufctls bp b x).base
          (insertHead s'.tbl.lists _ bp).length)
      rw [hbase x, hlen]
      by_cases hxb : x = bp
      · rw [hxb, Function.update_self]
        rfl
      · rw [Function.update_of_ne hxb]
        exact hholds.hashlist x ((List.mem_cons.mp hx).resolve_left hxb)
    · show incr s'.tbl.entryCount = _
      rw [hholds.entryCount, incr, if_neg (by omega), List.length_cons]
    · show (s'.clobbered || decide _) = _
      have hinside : ¬ s'.bucketCount ≤ s'.place s'.bucketCount bp := Nat.not_le.mpr hlt
      rw [decide_eq_false hinside, Bool.or_false, hclob]

/-! ## Removal -/

theorem shrunk_pow (n : ℕ) : ∃ j, j < 31 ∧ (max 8 (oneShl n)).toNat = 2 ^ j := by
  unfold oneShl
  by_cases hneg : n % 32 = 31
  · exact ⟨3, by decide, by rw [if_pos hneg]; decide⟩
  rw [if_neg hneg]
  have hlt := Nat.mod_lt n (by decide : 0 < 32)
  rcases Nat.le_total 3 (n % 32) with h3 | h3
  · refine ⟨n % 32, by omega, ?_⟩
    have hle : (8 : ℤ) ≤ 2 ^ (n % 32) := by
      have : 2 ^ 3 ≤ 2 ^ (n % 32) := Nat.pow_le_pow_right (by decide) h3
      exact_mod_cast this
    rw [max_eq_right hle]
    have hcast : ((2 : ℤ) ^ (n % 32)) = ((2 ^ (n % 32) : ℕ) : ℤ) := by push_cast; rfl
    rw [hcast, Int.toNat_natCast]
  · refine ⟨3, by decide, ?_⟩
    have hle : (2 : ℤ) ^ (n % 32) ≤ 8 := by
      have : 2 ^ (n % 32) ≤ 2 ^ 3 := Nat.pow_le_pow_right (by decide) h3
      exact_mod_cast this
    rw [max_eq_left hle]
    rfl

/-- **Shrinking** keeps the entries. -/
theorem Index.Holds.shrink (h : s.Holds xs) (mem : Option ℕ) :
    ∃ s', hashtableShrink s mem = some s' ∧ s'.Holds xs ∧ s.SameBufctls s' xs ∧
      s'.clobbered = s.clobbered := by
  unfold hashtableShrink
  by_cases hload : s.bucketCount > 8 ∧ loadFactor s.tbl.entryCount s.bucketCount < 250
  · rw [if_pos hload]
    obtain ⟨j, hj, hpow⟩ := shrunk_pow (nextIlog2 (s.tbl.entryCount * 2 % 2 ^ 64))
    simp only [hpow]
    by_cases hsmaller : 2 ^ j < s.bucketCount
    · rw [if_pos hsmaller]
      have hroom : 2 ^ j * 8 < 2 ^ 64 := by
        have : 2 ^ j < 2 ^ 31 := Nat.pow_lt_pow_right (by decide) hj
        omega
      obtain ⟨s', hs', hholds, hsame, hclob, -⟩ := h.resize ⟨j, rfl⟩ hroom mem
      exact ⟨s', hs', hholds, hsame, hclob⟩
    · rw [if_neg hsmaller]
      exact ⟨s, rfl, h, .refl s xs, rfl⟩
  · rw [if_neg hload]
    exact ⟨s, rfl, h, .refl s xs, rfl⟩

theorem Index.unlink_bufctls (s : Index) (bp x : ℕ) :
    (s.unlink bp).bufctls x =
      if x = bp then (s.bufctls bp).setHashlist none else s.bufctls x := Function.update_apply ..

theorem Index.unlink_lists (s : Index) (bp : ℕ) : (s.unlink bp).tbl.lists =
    removeFrom s.tbl.lists (s.place s.bucketCount bp) bp := rfl

theorem Index.unlink_buckets (s : Index) (bp : ℕ) :
    (s.unlink bp).tbl.buckets = s.tbl.buckets := by simp only [Index.unlink]

theorem Index.unlink_clobbered (s : Index) (bp : ℕ) :
    (s.unlink bp).clobbered = s.clobbered := by simp only [Index.unlink]

theorem Index.unlink_bucketCount (s : Index) (bp : ℕ) :
    (s.unlink bp).bucketCount = s.bucketCount := removeFrom_length ..

theorem Index.unlink_same (s : Index) (hbp : bp ∈ xs) : s.SameBufctls (s.unlink bp) xs := by
  refine ⟨fun x => ?_, fun x => ?_, fun x hx => ?_⟩
  · rw [s.unlink_bufctls]
    split_ifs with h
    · rw [h]
      rfl
    · rfl
  · rw [s.unlink_bufctls]
    split_ifs with h
    · rw [h]
      rfl
    · rfl
  · have hne : x ≠ bp := fun h => hx (h.symm ▸ hbp)
    rw [s.unlink_bufctls, if_neg hne]

theorem Index.Holds.unlink (h : s.Holds xs) (hnodup : xs.Nodup) (hbp : bp ∈ xs) :
    (s.unlink bp).Holds (xs.erase bp) := by
  have hin : bp ∈ bucket s.tbl.lists (s.place s.bucketCount bp) :=
    h.placed.mem_bucket (h.perm.mem_iff.mpr hbp)
  have hlen := s.unlink_bucketCount bp
  have hplace : ∀ x, (s.unlink bp).place (s.unlink bp).bucketCount x = s.place s.bucketCount x := by
    intro x
    rw [hlen]
    exact (s.unlink_same hbp).place
  refine ⟨by rw [hlen]; exact h.pow, ?_, ?_, ?_, ?_⟩
  · intro i x hx
    rw [s.unlink_lists] at hx
    rw [hplace x]
    have hplaced := h.placed.removeFrom hin
    exact hplaced i x hx
  · have hperm := (removeFrom_perm hin).symm.trans h.perm
    exact (List.perm_cons bp).mp (hperm.trans (List.perm_cons_erase hbp))
  · intro x hx
    obtain ⟨hne, hx⟩ := hnodup.mem_erase_iff.mp hx
    rw [hplace x, s.unlink_bufctls, if_neg hne, s.unlink_buckets]
    exact h.hashlist x hx
  · have hpos : 0 < xs.length := List.length_pos_of_mem hbp
    have hcount : (s.unlink bp).tbl.entryCount = decr s.tbl.entryCount := rfl
    rw [hcount, h.entryCount, decr, if_neg (by omega), List.length_erase_of_mem hbp]

/-- **Removal** of an entry: it loses its pointer. -/
theorem Index.Holds.remove (h : s.Holds xs) (hnodup : xs.Nodup) (hbp : bp ∈ xs)
    (mem : Option ℕ) :
    ∃ s', hashtableRemove s bp mem = some s' ∧ s'.Holds (xs.erase bp) ∧ s.SameBufctls s' xs ∧
      (s'.bufctls bp).hashlist = none ∧ s'.clobbered = s.clobbered := by
  have hin : bp ∈ bucket s.tbl.lists (s.place s.bucketCount bp) :=
    h.placed.mem_bucket (h.perm.mem_iff.mpr hbp)
  have hgone : bp ∉ xs.erase bp := hnodup.not_mem_erase
  obtain ⟨s', hs', hholds, hsame, hclob⟩ := (h.unlink hnodup hbp).shrink mem
  have hunlink := s.unlink_same hbp
  have hok : ¬ ((s.bufctls bp).hashlist ≠ some (s.tbl.buckets, s.place s.bucketCount bp) ∨
      bp ∉ bucket s.tbl.lists (s.place s.bucketCount bp)) := by
    rintro (hwrong | hout)
    · exact hwrong (h.hashlist bp hbp)
    · exact hout hin
  unfold hashtableRemove
  simp only [if_neg hok]
  refine ⟨s', hs', hholds, ⟨fun x => (hsame.base x).trans (hunlink.base x),
    fun x => (hsame.slab x).trans (hunlink.slab x), fun x hx => ?_⟩, ?_,
    hclob.trans (s.unlink_clobbered bp)⟩
  · have hout : x ∉ xs.erase bp := fun hin => hx (hnodup.mem_erase_iff.mp hin).2
    rw [hsame.hashlist x hout]
    exact hunlink.hashlist x hx
  · rw [hsame.hashlist bp hgone, s.unlink_bufctls, if_pos rfl]
    rfl

/-! ## Lookup -/

/-- **Lookup** finds exactly the entries. -/
theorem Index.Holds.lookup (h : s.Holds xs)
    (hbases : ∀ a ∈ xs, ∀ b ∈ xs, (s.bufctls a).base = (s.bufctls b).base → a = b)
    (base bp : ℕ) :
    hashtableLookup s base = some (some bp) ↔ bp ∈ xs ∧ (s.bufctls bp).base = base := by
  unfold hashtableLookup
  constructor
  · intro hfind
    simp only [Option.ite_none_left_eq_some, Option.some.injEq] at hfind
    obtain ⟨-, hfind⟩ := hfind
    refine ⟨h.perm.mem_iff.mp (mem_flatten_of_mem_bucket (List.mem_of_find?_eq_some hfind)), ?_⟩
    simpa using List.find?_some hfind
  · rintro ⟨hbp, rfl⟩
    have hin : bp ∈ bucket s.tbl.lists (s.place s.bucketCount bp) :=
      h.placed.mem_bucket (h.perm.mem_iff.mpr hbp)
    have hlt : hashIndex (s.bufctls bp).base s.bucketCount < s.bucketCount :=
      lt_length_of_mem_bucket hin
    rw [if_neg (Nat.not_le.mpr hlt)]
    refine congrArg some ?_
    cases hfind : (bucket s.tbl.lists (hashIndex (s.bufctls bp).base s.bucketCount)).find?
        (fun x => (s.bufctls x).base = (s.bufctls bp).base) with
    | none =>
      have hmiss := List.find?_eq_none.mp hfind bp hin
      simp only [decide_true, not_true_eq_false] at hmiss
    | some x =>
      have hx := h.perm.mem_iff.mp (mem_flatten_of_mem_bucket (List.mem_of_find?_eq_some hfind))
      rw [hbases x hx bp hbp (by simpa using List.find?_some hfind)]

theorem Index.Holds.lookup_isSome (h : s.Holds xs) (hne : s.bucketCount ≠ 0) (base : ℕ) :
    (hashtableLookup s base).isSome := by
  obtain ⟨j, hj⟩ := h.pow.resolve_left hne
  unfold hashtableLookup
  rw [if_neg (Nat.not_le.mpr (hashIndex_lt hj base))]
  rfl

end Kmem
