/-
# Quantum caches

`vmem_init`, `vmem_alloc` and `vmem_free`: sizes up to `qcache_max` are served by caches of
objects, one for each multiple of the quantum; larger ones by `vmem_xalloc`.

Which of the free objects of a cache `kmem_cache_alloc` hands out, and when it makes a new slab,
depends on the magazines of the CPUs; it is part of a request here.
-/
import YakKernel.KmemCache
import YakKernel.VmemAligned

namespace Vmem

open Kmem

/-! ## Arenas with caches -/

/-- `struct vmem` with its quantum caches: the caches created, the color and the free objects of
each, and the segments.  Ghosts: the addresses handed out by `vmem_alloc` and by `vmem_xalloc`
that have not been freed. -/
structure Vmp where
  quantum : ℕ
  qcacheMax : ℕ
  qcaches : List KmemCache
  colorSeq : ℕ → ℕ
  objects : ℕ → List ℕ
  arena : Arena
  live : List (ℕ × ℕ)
  xlive : List (ℕ × ℕ)

/-- `VMEM_QCACHE_MAX`. -/
def vmemQcacheMax : ℕ := 16

/-- The largest size that `vmem_init` creates a cache for. -/
def clampedMax (quantum qcacheMax : ℕ) : ℕ := min qcacheMax (quantum * vmemQcacheMax % 2 ^ 64)

/-- `vmem_init`; `populate` is `VM_POPULATE`. -/
def vmemInit (source : Option ℕ) (base size quantum qcacheMax : ℕ) (populate : Bool) :
    Option Vmp := do
  if quantum = 0 ∨ qcacheMax % quantum ≠ 0 ∨ quantum &&& (quantum - 1) ≠ 0 ∨
      (base ≠ 0 ∧ source ≠ none) then none
  let arena := if base ≠ 0 ∧ size ≠ 0 then
      (vmemAddLocked initial base size .span populate).getD initial
    else initial
  let qcaches ← (List.range (clampedMax quantum qcacheMax / quantum)).mapM
    (fun i => kmemCacheCreate (quantum + quantum * i) quantum (some (clampedMax quantum qcacheMax)))
  some {
    quantum := quantum
    qcacheMax := qcacheMax
    qcaches := qcaches
    colorSeq := fun _ => 0
    objects := fun _ => []
    arena := arena
    live := []
    xlive := [] }

/-- `size / quantum - 1`. -/
def Vmp.cacheIndex (v : Vmp) (size : ℕ) : ℕ := wsub (size / v.quantum) 1

/-- `kmem_cache_alloc` of the cache `idx`: the free object `pick`, or the first one of a new
slab, whose memory comes from `alloc`. -/
def kmemCacheAlloc (alloc : Vmp → ℕ → Option (Option ℕ × Vmp)) (idx : ℕ) (pick : Option ℕ)
    (v : Vmp) : Option (ℕ × Vmp) := do
  let cp ← v.qcaches[idx]?
  match pick with
  | some obj =>
    if obj ∈ v.objects idx then
      some (obj, { v with
        objects := Function.update v.objects idx ((v.objects idx).erase obj) })
    else none
  | none => do
    let (pg, v) ← alloc v cp.slabSize
    let pg ← pg
    let objects ← cp.createSlab pg (v.colorSeq idx)
    let obj ← objects.head?
    some (obj, { v with
      colorSeq := Function.update v.colorSeq idx (cp.nextColor (v.colorSeq idx))
      objects := Function.update v.objects idx (objects.tail ++ v.objects idx) })

/-- `VM_SLEEP` alone, as `create_slab` passes it. -/
def sleep : Flags := ⟨false, false, false⟩

/-- `vmem_alloc`.  A new slab takes its memory from the arena again, so there is a list of
picks. -/
def vmemAlloc (source : Option ℕ) (rv : ℕ) : List (Option ℕ) → Flags → Vmp → ℕ →
    Option (Option ℕ × Vmp)
  | picks, flags, v, size =>
    if size = 0 then none
    else if size ≤ v.qcacheMax then
      match picks with
      | [] => none
      | pick :: picks => do
        let (obj, v) ← kmemCacheAlloc (vmemAlloc source rv picks sleep) (v.cacheIndex size) pick v
        if obj = 0 then none else some (some obj, v)
    else do
      let (addr, arena) ← vmemXalloc source v.arena size 0 0 flags rv
      some (addr, { v with arena := arena })

/-- `vmem_free`. -/
def vmemFree (v : Vmp) (addr size : ℕ) : Option Vmp :=
  if addr = 0 ∨ size = 0 then none
  else if size ≤ v.qcacheMax then do
    let _ ← v.qcaches[v.cacheIndex size]?
    some { v with
      objects := Function.update v.objects (v.cacheIndex size)
        (addr :: v.objects (v.cacheIndex size)) }
  else (vmemXfree v.arena addr size).map (fun arena => { v with arena := arena })

/-! ## The system -/

inductive Call where
  | add (addr size : ℕ) (populate : Bool)
  | alloc (size : ℕ) (flags : Flags) (picks : List (Option ℕ)) (rv : ℕ)
  | free (addr size : ℕ)
  | xalloc (size minaddr maxaddr : ℕ) (flags : Flags) (rv : ℕ)
  | xfree (addr size : ℕ)

attribute [local instance] pair_lawful

/-- One call, of words; what is freed was handed out by the sibling of the call, with the same
size. -/
def Vmp.step (source : Option ℕ) (v : Vmp) : Call → Option Vmp
  | .add addr size populate =>
    if v.arena.clobbered = false ∧ addr < 2 ^ 64 ∧ size < 2 ^ 64 then
      (vmemAddLocked v.arena addr size .span populate).map (fun arena => { v with arena := arena })
    else none
  | .alloc size flags picks rv =>
    if v.arena.clobbered = false ∧ size < 2 ^ 64 ∧ rv < 2 ^ 64 then
      (vmemAlloc source rv picks flags v size).map (fun r =>
        r.1.elim r.2 (fun addr => { r.2 with live := (addr, size) :: r.2.live }))
    else none
  | .free addr size =>
    if v.arena.clobbered = false ∧ (addr, size) ∈ v.live then
      (vmemFree v addr size).map (fun v' => { v' with live := v'.live.erase (addr, size) })
    else none
  | .xalloc size minaddr maxaddr flags rv =>
    if v.arena.clobbered = false ∧ size < 2 ^ 64 ∧ minaddr < 2 ^ 64 ∧ maxaddr < 2 ^ 64 ∧
        rv < 2 ^ 64 then
      (vmemXalloc source v.arena size minaddr maxaddr flags rv).map (fun r =>
        r.1.elim { v with arena := r.2 }
          (fun addr => { v with arena := r.2, xlive := (addr, size) :: v.xlive }))
    else none
  | .xfree addr size =>
    if v.arena.clobbered = false ∧ (addr, size) ∈ v.xlive then
      (vmemXfree v.arena addr size).map (fun arena =>
        { v with arena := arena, xlive := v.xlive.erase (addr, size) })
    else none

/-- The runs of an arena that `vmem_init` built. -/
def vmpSystem (source : Option ℕ) (base size quantum qcacheMax : ℕ) (populate : Bool) :
    TransitionSystem Vmp Call where
  init := fun v => vmemInit source base size quantum qcacheMax populate = some v
  step := Vmp.step source

/-! ## What a size needs -/

/-- The cache of a size is one that was created, and its objects are large enough; the list that
the search for a larger size starts at is one of the array. -/
structure Vmp.Serves (v : Vmp) (size : ℕ) : Prop where
  index : size ≤ v.qcacheMax → v.cacheIndex size < v.qcaches.length
  object : size ≤ v.qcacheMax → ∀ cp, v.qcaches[v.cacheIndex size]? = some cp →
    size ≤ cp.chunkSize
  list : v.qcacheMax < size → 0 < freelistIdx size ∧ freelistIdx size ≤ freelistCount

/-- **What is expected of a call.**  The size of an allocation is served, and so are the sizes of
the slabs when a cache is used; no segment that it cuts goes to a list outside the array; and the
address is a multiple of the quantum.  The size of what is freed has a cache. -/
def Vmp.Honours (source : Option ℕ) (v : Vmp) : Call → Prop
  | .alloc size flags picks rv =>
    v.Serves size ∧ (size ≤ v.qcacheMax → ∀ cp ∈ v.qcaches, v.Serves cp.slabSize) ∧
    ∀ res v', vmemAlloc source rv picks flags v size = some (res, v') →
      (v.arena.clobbered = false → v'.arena.clobbered = false) ∧
        ∀ addr, res = some addr → v.quantum ∣ addr
  | .free _ size => size ≤ v.qcacheMax → v.cacheIndex size < v.qcaches.length
  | _ => True

/-- **The condition on an arena**: the quantum is not a single byte, the largest size to cache is
not clamped, and the first span is aligned. -/
structure Regular (base size quantum qcacheMax : ℕ) : Prop where
  two_le : 2 ≤ quantum
  quantum_lt : quantum < 2 ^ 64
  unclamped : qcacheMax ≤ quantum * vmemQcacheMax % 2 ^ 64
  base_dvd : quantum ∣ base
  base_lt : base < 2 ^ 64
  size_dvd : quantum ∣ size

/-- The size of a cached object: it is not smaller than the quantum, and what exceeds the last
multiple fits into the rounding of the objects to 16 bytes. -/
def FitsObject (quantum size : ℕ) : Prop :=
  quantum ≤ size ∧
    (quantum ∣ size ∨ quantum < kmAlign ∧ ¬ kmAlign ∣ quantum * (size / quantum))

/-- **The condition on a call.**  Sizes are multiples of the quantum, but for cached ones that fit
their object anyway, and so is what comes from outside; the source does not hand out an import of
no bytes; and what is freed is live. -/
def Suitable (source : Option ℕ) (v : Vmp) : Call → Prop
  | .add addr size _ => v.quantum ∣ addr ∧ v.quantum ∣ size ∧ 0 < size
  | .alloc size _ _ rv =>
    0 < size ∧ size < 2 ^ 64 ∧ (size ≤ v.qcacheMax → FitsObject v.quantum size) ∧
    (v.qcacheMax < size → v.quantum ∣ size ∧ ImportsBytes source size rv) ∧
    v.quantum ∣ rv ∧ rv < 2 ^ 64
  | .xalloc size minaddr _ _ rv =>
    v.quantum ∣ size ∧ v.quantum ∣ minaddr ∧ v.quantum ∣ rv ∧ ImportsBytes source size rv
  | .free addr size => (addr, size) ∈ v.live
  | .xfree _ _ => True

/-! ## The caches of an arena -/

/-- What `vmem_init` has set up for good. -/
structure Setup (v : Vmp) : Prop where
  pow : ∃ j, v.quantum = 2 ^ j
  two_le : 2 ≤ v.quantum
  lt : v.quantum < 2 ^ 64
  unclamped : v.qcacheMax ≤ v.quantum * vmemQcacheMax % 2 ^ 64
  dvd_max : v.quantum ∣ v.qcacheMax
  length : v.qcaches.length = v.qcacheMax / v.quantum
  cache : ∀ i cp, v.qcaches[i]? = some cp →
    kmemCacheCreate (v.quantum + v.quantum * i) v.quantum (some v.qcacheMax) = some cp

/-- The set-up is the same. -/
structure SameSetup (v v' : Vmp) : Prop where
  quantum : v'.quantum = v.quantum
  qcacheMax : v'.qcacheMax = v.qcacheMax
  qcaches : v'.qcaches = v.qcaches

variable {source : Option ℕ} {v v' : Vmp} {size rv : ℕ} {flags : Flags} {cp : KmemCache}

theorem Setup.congr (h : Setup v) (hs : SameSetup v v') : Setup v' := by
  obtain ⟨hq, hm, hc⟩ := hs
  refine ⟨?_, ?_, ?_, ?_, ?_, ?_, ?_⟩
  · rw [hq]
    exact h.pow
  · rw [hq]
    exact h.two_le
  · rw [hq]
    exact h.lt
  · rw [hq, hm]
    exact h.unclamped
  · rw [hq, hm]
    exact h.dvd_max
  · rw [hq, hm, hc]
    exact h.length
  · rw [hq, hm, hc]
    exact h.cache

theorem Setup.pos (h : Setup v) : 0 < v.quantum := Nat.zero_lt_of_lt h.two_le

theorem Setup.dvd_word (h : Setup v) : v.quantum ∣ 2 ^ 64 := by
  obtain ⟨j, hj⟩ := h.pow
  have hlt := h.lt
  rw [hj] at hlt ⊢
  exact Nat.pow_dvd_pow 2 ((Nat.pow_lt_pow_iff_right (by decide)).mp hlt).le

theorem Setup.word (h : Setup v) (hpos : 0 < v.qcacheMax) : v.quantum * vmemQcacheMax < 2 ^ 64 := by
  obtain ⟨j, hj⟩ := h.pow
  have hun := h.unclamped
  by_contra hno
  rw [hj] at hun hno
  have hdvd : 2 ^ 64 ∣ 2 ^ j * vmemQcacheMax := by
    have hsixteen : 2 ^ j * vmemQcacheMax = 2 ^ (j + 4) := by
      rw [Nat.pow_add]
      rfl
    rw [hsixteen] at hno ⊢
    exact Nat.pow_dvd_pow 2 ((Nat.pow_le_pow_iff_right (by decide)).mp (Nat.not_lt.mp hno))
  rw [Nat.mod_eq_zero_of_dvd hdvd] at hun
  omega

theorem Setup.max_le (h : Setup v) : v.qcacheMax ≤ v.quantum * vmemQcacheMax :=
  h.unclamped.trans (Nat.mod_le _ _)

theorem Setup.max_lt (h : Setup v) : v.qcacheMax < 2 ^ 64 :=
  h.unclamped.trans_lt (Nat.mod_lt _ (Nat.two_pow_pos 64))

/-- The alignment of the objects is a multiple of the quantum and of `KM_ALIGN`. -/
theorem max_kmAlign {j : ℕ} : 2 ^ j ∣ max (2 ^ j) kmAlign ∧ kmAlign ∣ max (2 ^ j) kmAlign := by
  have hkm : kmAlign = 2 ^ 4 := rfl
  rw [hkm]
  rcases Nat.le_total j 4 with hj | hj
  · have hle : (2 : ℕ) ^ j ≤ 2 ^ 4 := Nat.pow_le_pow_right (by decide) hj
    rw [Nat.max_eq_right hle]
    exact ⟨Nat.pow_dvd_pow 2 hj, Nat.dvd_refl _⟩
  · have hle : (2 : ℕ) ^ 4 ≤ 2 ^ j := Nat.pow_le_pow_right (by decide) hj
    rw [Nat.max_eq_left hle]
    exact ⟨Nat.dvd_refl _, Nat.pow_dvd_pow 2 hj⟩

theorem le_alignUp {n a : ℕ} (ha : 0 < a) (hroom : n + a ≤ 2 ^ 64) :
    n ≤ alignUp n a ∧ a ∣ alignUp n a := by
  unfold alignUp
  rw [wadd_of_lt (by omega)]
  refine ⟨?_, Nat.dvd_mul_left _ _⟩
  have hdiv := Nat.div_add_mod (n + (a - 1)) a
  have hmod := Nat.mod_lt (n + (a - 1)) ha
  rw [Nat.mul_comm] at hdiv
  omega

theorem alignUp_of_dvd {n a : ℕ} (ha : 0 < a) (hroom : n + a ≤ 2 ^ 64) (hn : a ∣ n) :
    alignUp n a = n := by
  unfold alignUp
  rw [wadd_of_lt (by omega)]
  obtain ⟨c, rfl⟩ := hn
  rw [Nat.mul_add_div ha, Nat.div_eq_of_lt (by omega : a - 1 < a), Nat.add_zero, Nat.mul_comm]

/-- The cache `i` has objects for the `i + 1`-fold of the quantum, rounded up. -/
theorem Setup.objects {i : ℕ} (h : Setup v) (hi : v.qcaches[i]? = some cp) :
    cp.align = max v.quantum kmAlign ∧
      cp.chunkSize = alignUp (v.quantum * (i + 1)) (max v.quantum kmAlign) ∧
      v.quantum * (i + 1) ≤ v.qcacheMax ∧
      v.quantum * (i + 1) + max v.quantum kmAlign ≤ 2 ^ 64 := by
  have hq := h.pos
  obtain ⟨halign, hchunk, -⟩ := kmemCacheCreate_spec hq.ne' (h.cache i cp hi)
  have hlen : i < v.qcacheMax / v.quantum := by
    rw [← h.length]
    exact (List.getElem?_eq_some_iff.mp hi).1
  have hle : v.quantum * (i + 1) ≤ v.qcacheMax := by
    rw [Nat.mul_comm]
    exact (Nat.le_div_iff_mul_le hq).mp hlen
  have hsum : v.quantum + v.quantum * i = v.quantum * (i + 1) := by
    rw [Nat.mul_add, Nat.mul_one, Nat.add_comm]
  rw [hsum] at hchunk
  refine ⟨halign, hchunk, hle, ?_⟩
  have hword := h.word (hq.trans_le ((Nat.le_mul_of_pos_right _ (Nat.succ_pos i)).trans hle))
  have hmax := h.max_le
  have hkm : kmAlign = 16 := rfl
  have hqm : vmemQcacheMax = 16 := rfl
  rw [hqm] at hword hmax
  -- a power of two whose sixteenfold is a word is at most `2 ^ 59`
  obtain ⟨j, hj⟩ := h.pow
  have hj59 : v.quantum ≤ 2 ^ 59 := by
    rw [hj] at hword ⊢
    refine Nat.pow_le_pow_right (by decide) ?_
    have : 2 ^ (j + 4) < 2 ^ 64 := by
      rw [Nat.pow_add]
      exact hword
    have := (Nat.pow_lt_pow_iff_right (by decide)).mp this
    omega
  omega

/-- What exceeds the last multiple of the quantum has to fit into the rounding of the object. -/
theorem le_object_iff {j : ℕ} (hroom : 2 ^ j * (size / 2 ^ j) + max (2 ^ j) kmAlign ≤ 2 ^ 64) :
    size ≤ alignUp (2 ^ j * (size / 2 ^ j)) (max (2 ^ j) kmAlign) ↔
      2 ^ j ∣ size ∨ 2 ^ j < kmAlign ∧ ¬ kmAlign ∣ 2 ^ j * (size / 2 ^ j) := by
  have hq : 0 < 2 ^ j := Nat.two_pow_pos j
  have hdiv := Nat.div_add_mod size (2 ^ j)
  have hmod := Nat.mod_lt size hq
  have hmax : 0 < max (2 ^ j) kmAlign := lt_max_of_lt_left hq
  obtain ⟨hle, hdvd⟩ := le_alignUp hmax hroom
  obtain ⟨hqa, hka⟩ := @max_kmAlign j
  by_cases hsize : 2 ^ j ∣ size
  · simp only [hsize, true_or, iff_true]
    rwa [Nat.mul_div_cancel' hsize] at hle ⊢
  have hrest : 0 < size % 2 ^ j :=
    Nat.pos_of_ne_zero (fun h => hsize (Nat.dvd_of_mod_eq_zero h))
  simp only [hsize, false_or]
  by_cases hlarge : kmAlign ≤ 2 ^ j
  · -- the object is as large as the multiple
    rw [Nat.max_eq_left hlarge] at hroom ⊢
    rw [alignUp_of_dvd hq hroom (Nat.dvd_mul_right _ _)]
    exact iff_of_false (by omega) (fun h => absurd hlarge h.1.not_ge)
  · have hsmall : 2 ^ j < kmAlign := Nat.not_le.mp hlarge
    simp only [hsmall, true_and]
    rw [Nat.max_eq_right hsmall.le] at hroom hle hdvd hqa ⊢
    by_cases hk : kmAlign ∣ 2 ^ j * (size / 2 ^ j)
    · rw [alignUp_of_dvd (by decide) hroom hk]
      exact iff_of_false (by omega) (fun h => h hk)
    · -- rounding up reaches the next multiple of the quantum
      refine iff_of_true ?_ hk
      have hne : 2 ^ j * (size / 2 ^ j) ≠ alignUp (2 ^ j * (size / 2 ^ j)) kmAlign := by
        intro heq
        rw [← heq] at hdvd
        exact hk hdvd
      have hgap : 2 ^ j ∣ alignUp (2 ^ j * (size / 2 ^ j)) kmAlign - 2 ^ j * (size / 2 ^ j) :=
        Nat.dvd_sub (hqa.trans hdvd) (Nat.dvd_mul_right _ _)
      have := Nat.le_of_dvd (by omega) hgap
      omega

theorem cacheIndex_of_le (hq : 0 < v.quantum) (hlt : size < 2 ^ 64) (hle : v.quantum ≤ size) :
    v.cacheIndex size + 1 = size / v.quantum := by
  have hpos : 0 < size / v.quantum := Nat.div_pos hle hq
  have hself := Nat.div_le_self size v.quantum
  rw [Vmp.cacheIndex, wsub_of_le hpos (by omega)]
  omega

/-- **When a size is served**: a cached one has to fit its object, and one that is not cached must
not be a single byte. -/
theorem Setup.serves_iff (h : Setup v) (hpos : 0 < size) (hlt : size < 2 ^ 64) :
    v.Serves size ↔
      (size ≤ v.qcacheMax → FitsObject v.quantum size) ∧ (v.qcacheMax < size → size ≠ 1) := by
  have hq := h.pos
  obtain ⟨j, hj⟩ := h.pow
  -- the object of a size that has a cache
  have hobj : ∀ cp, v.quantum ≤ size → v.qcaches[v.cacheIndex size]? = some cp →
      (size ≤ cp.chunkSize ↔
        v.quantum ∣ size ∨ v.quantum < kmAlign ∧ ¬ kmAlign ∣ v.quantum * (size / v.quantum)) := by
    intro cp hle hcp
    obtain ⟨-, hchunk, -, hroom⟩ := h.objects hcp
    rw [cacheIndex_of_le hq hlt hle] at hchunk hroom
    rw [hj] at hchunk hroom ⊢
    rw [hchunk]
    exact le_object_iff hroom
  constructor
  · rintro ⟨hindex, hobject, hlist⟩
    refine ⟨fun hle => ?_, fun hlarge => ?_⟩
    · have hindex := hindex hle
      have hle' : v.quantum ≤ size := by
        by_contra hno
        rw [Vmp.cacheIndex, Nat.div_eq_of_lt (Nat.not_le.mp hno), h.length] at hindex
        have hmax := h.max_lt
        have hdiv := Nat.div_le_self v.qcacheMax v.quantum
        simp only [wsub] at hindex
        omega
      have hcp := List.getElem?_eq_getElem hindex
      exact ⟨hle', (hobj _ hle' hcp).mp (hobject hle _ hcp)⟩
    · rintro rfl
      have := (hlist hlarge).1
      simp [freelistIdx] at this
  · rintro ⟨hfits, hone⟩
    refine ⟨fun hle => ?_, fun hle cp hcp => ?_, fun hlarge => ?_⟩
    · have hidx := cacheIndex_of_le hq hlt (hfits hle).1
      have hdiv := Nat.div_le_div_right (c := v.quantum) hle
      rw [h.length]
      omega
    · exact (hobj cp (hfits hle).1 hcp).mpr (hfits hle).2
    · have hlog : Nat.log 2 size < 64 := Nat.log_lt_of_lt_pow hpos.ne' hlt
      exact ⟨Nat.log_pos (by decide) (by have := hone hlarge; omega), hlog.le⟩

theorem three_mul_mod_ne {m : ℕ} (hpos : 0 < m) (hlt : m < 2 ^ 64) : 3 * m % 2 ^ 64 ≠ 0 := by
  intro h
  obtain ⟨k, hk⟩ := Nat.dvd_of_mod_eq_zero h
  clear h
  have hk3 : k < 3 := by
    refine @Nat.lt_of_mul_lt_mul_left (2 ^ 64) _ _ ?_
    rw [← hk, Nat.mul_comm]
    exact Nat.mul_lt_mul_of_pos_right hlt (by decide)
  have hcases : k = 0 ∨ k = 1 ∨ k = 2 := by
    clear hk
    omega
  rcases hcases with rfl | rfl | rfl
  · omega
  · omega
  · omega

/-- The slab of a cache with large objects has room for three of the largest size. -/
theorem qcacheSlabSize_spec {q m slabSize : ℕ} (hq : ∃ j, q = 2 ^ j) (hpos : 0 < m)
    (hdvd : q ∣ m) (hmax : m ≤ q * vmemQcacheMax) (hlt : m < 2 ^ 64)
    (h : qcacheSlabSize m = some slabSize) :
    ∃ n, n < 31 ∧ slabSize = 2 ^ n ∧ m < 2 ^ n := by
  obtain ⟨j, rfl⟩ := hq
  have hqm : vmemQcacheMax = 16 := rfl
  rw [hqm] at hmax
  unfold qcacheSlabSize at h
  simp only [Option.ite_none_right_eq_some, Option.some.injEq] at h
  obtain ⟨hn, hslab⟩ := h
  by_cases hwrap : 3 * m < 2 ^ 64
  · rw [Nat.mod_eq_of_lt hwrap] at hn hslab
    refine ⟨_, hn, hslab.symm, ?_⟩
    rw [nextIlog2, if_neg (by omega)]
    have := Nat.lt_pow_succ_log_self (b := 2) (by decide) (3 * m - 1)
    omega
  · -- a product that wraps around leaves a multiple of the quantum, which is large
    exfalso
    have hj : 57 ≤ j := by
      by_contra hno
      have : (2 : ℕ) ^ j ≤ 2 ^ 56 := Nat.pow_le_pow_right (by decide) (by omega)
      omega
    have hj64 : j ≤ 64 := by
      by_contra hno
      have hle := Nat.le_of_dvd hpos hdvd
      have : (2 : ℕ) ^ 64 ≤ 2 ^ j := Nat.pow_le_pow_right (by decide) (by omega)
      omega
    have hrest : 2 ^ j ∣ 3 * m % 2 ^ 64 :=
      (Nat.dvd_mod_iff (Nat.pow_dvd_pow 2 hj64)).mpr (Dvd.dvd.mul_left hdvd 3)
    have hne := three_mul_mod_ne hpos hlt
    have hge : 2 ^ 57 ≤ 3 * m % 2 ^ 64 :=
      (Nat.pow_le_pow_right (by decide) hj).trans (Nat.le_of_dvd (Nat.pos_of_ne_zero hne) hrest)
    rw [nextIlog2, if_neg (by omega)] at hn
    have hlog : 56 ≤ Nat.log 2 (3 * m % 2 ^ 64 - 1) := by
      refine Nat.le_log_of_pow_le (by decide) ?_
      omega
    omega

/-- **The memory of a slab** is asked for in a multiple of the quantum, and cut into multiples. -/
theorem Setup.slab {i : ℕ} (h : Setup v) (hi : v.qcaches[i]? = some cp) :
    v.quantum ∣ cp.align ∧ v.quantum ∣ cp.chunkSize ∧ v.quantum ∣ cp.slabSize ∧
      0 < cp.slabSize ∧ cp.slabSize < 2 ^ 31 ∧ v.quantum ≤ cp.slabSize := by
  obtain ⟨halign, hchunk, hle, hroom⟩ := h.objects hi
  obtain ⟨j, hj⟩ := h.pow
  have hq := h.pos
  have hqa : v.quantum ∣ max v.quantum kmAlign := by
    rw [hj]
    exact max_kmAlign.1
  obtain ⟨hge, hdvd⟩ := le_alignUp (lt_max_of_lt_left hq) hroom
  rw [← hchunk] at hge hdvd
  have hqi : v.quantum ≤ v.quantum * (i + 1) := Nat.le_mul_of_pos_right _ (Nat.succ_pos i)
  obtain ⟨-, -, hsmall, hlarge⟩ := kmemCacheCreate_spec hq.ne' (h.cache i cp hi)
  refine ⟨by rw [halign]; exact hqa, hqa.trans hdvd, ?_⟩
  by_cases hs : cp.chunkSize ≤ kmSmallslabMax
  · have hpage : pageSize = 2 ^ 12 := rfl
    rw [hsmall hs, hpage]
    have hkm : kmSmallslabMax = 2 ^ 9 := rfl
    rw [hkm] at hs
    have hj9 : j ≤ 9 := by
      refine (Nat.pow_le_pow_iff_right (by decide : 1 < 2)).mp ?_
      rw [← hj]
      omega
    refine ⟨?_, by decide, by decide, by omega⟩
    rw [hj]
    exact Nat.pow_dvd_pow 2 (by omega)
  · have hslab := hlarge (Nat.not_le.mp hs)
    obtain ⟨n, hn, hslab, hlt⟩ := qcacheSlabSize_spec ⟨j, hj⟩ (hq.trans_le (hqi.trans hle))
      h.dvd_max h.max_le h.max_lt hslab
    rw [hslab]
    have hqn : v.quantum < 2 ^ n := by omega
    have hjn : j < n := by
      rw [hj] at hqn
      exact (Nat.pow_lt_pow_iff_right (by decide)).mp hqn
    refine ⟨?_, Nat.two_pow_pos n, Nat.pow_lt_pow_right (by decide) hn, hqn.le⟩
    rw [hj]
    exact Nat.pow_dvd_pow 2 hjn.le

theorem Setup.serves_slab (h : Setup v) (hcp : cp ∈ v.qcaches) : v.Serves cp.slabSize := by
  obtain ⟨i, hi, rfl⟩ := List.getElem_of_mem hcp
  obtain ⟨-, -, hdvd, hpos, hlt, hle⟩ := h.slab (List.getElem?_eq_getElem hi)
  rw [h.serves_iff hpos (by omega)]
  refine ⟨fun _ => ⟨hle, Or.inl hdvd⟩, fun _ hone => ?_⟩
  have := h.two_le
  omega

end Vmem
