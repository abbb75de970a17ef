/-
# Runs of an arena with quantum caches

In an arena with a regular set-up, calls with suitable sizes keep all segments and all cached
objects at multiples of the quantum, and each of them is served.
-/
import YakKernel.VmemCache

namespace Vmem

open Kmem

variable {source : Option ℕ} {v v' : Vmp} {size rv : ℕ} {flags : Flags} {cp : KmemCache}

/-! ## The invariant -/

/-- Segments and objects are multiples of the quantum, and what can be freed has its cache. -/
structure Tidy (v : Vmp) : Prop where
  setup : Setup v
  aligned : Aligned v.quantum v.arena
  objects : ∀ i, ∀ obj ∈ v.objects i, v.quantum ∣ obj
  live : ∀ p ∈ v.live, v.quantum ∣ p.1 ∧
    (p.2 ≤ v.qcacheMax → v.cacheIndex p.2 < v.qcaches.length)

/-- What an allocation leaves. -/
structure Kept (v v' : Vmp) : Prop where
  tidy : Tidy v'
  same : SameSetup v v'
  clobbered : v'.arena.clobbered = v.arena.clobbered
  live : v'.live = v.live

theorem Tidy.change {arena : Arena} {colorSeq : ℕ → ℕ} {objects : ℕ → List ℕ} (h : Tidy v)
    (harena : Aligned v.quantum arena) (hobjects : ∀ i, ∀ obj ∈ objects i, v.quantum ∣ obj) :
    Tidy { v with arena := arena, colorSeq := colorSeq, objects := objects } where
  setup := h.setup.congr ⟨rfl, rfl, rfl⟩
  aligned := harena
  objects := hobjects
  live := h.live

theorem Tidy.update_objects {idx : ℕ} {objs : List ℕ} (h : Tidy v)
    (hobjs : ∀ obj ∈ objs, v.quantum ∣ obj) :
    ∀ i, ∀ obj ∈ Function.update v.objects idx objs i, v.quantum ∣ obj := by
  intro i obj hobj
  by_cases hi : i = idx
  · subst hi
    rw [Function.update_self] at hobj
    exact hobjs obj hobj
  · rw [Function.update_of_ne hi] at hobj
    exact h.objects i obj hobj

/-! ## Allocating -/

theorem importsBytes_of_lt (hsource : ∀ k, source = some k → k < 64) (hpos : 0 < size)
    (hlt : size < 2 ^ 31) : ImportsBytes source size rv := by
  intro k hk _
  have hk63 : 2 ^ k ≤ 2 ^ 63 := Nat.pow_le_pow_right (by decide) (by have := hsource k hk; omega)
  exact hpos.trans_le (le_alignUp (Nat.two_pow_pos k) (by omega)).1

/-- **`kmem_cache_alloc`** hands out a multiple of the quantum, if the memory of a new slab is
one. -/
theorem Tidy.kmemCacheAlloc {alloc : Vmp → ℕ → Option (Option ℕ × Vmp)} {idx obj : ℕ}
    {pick : Option ℕ} (h : Tidy v)
    (halloc : ∀ cp res v₁, v.qcaches[idx]? = some cp → alloc v cp.slabSize = some (res, v₁) →
      Kept v v₁ ∧ ∀ addr, res = some addr → v.quantum ∣ addr)
    (hs : Vmem.kmemCacheAlloc alloc idx pick v = some (obj, v')) : Kept v v' ∧ v.quantum ∣ obj := by
  unfold Vmem.kmemCacheAlloc at hs
  simp only [Option.bind_eq_bind, Option.bind_eq_some_iff] at hs
  obtain ⟨cp, hcp, hs⟩ := hs
  cases pick with
  | some pick =>
    simp only [Option.ite_none_right_eq_some, Option.some.injEq, Prod.mk.injEq] at hs
    obtain ⟨hmem, rfl, rfl⟩ := hs
    refine ⟨⟨?_, ⟨rfl, rfl, rfl⟩, rfl, rfl⟩, h.objects idx pick hmem⟩
    refine h.change h.aligned (h.update_objects ?_)
    exact fun obj hobj => h.objects idx obj (List.mem_of_mem_erase hobj)
  | none =>
    simp only [Option.bind_eq_some_iff, Prod.exists, Option.some.injEq, Prod.mk.injEq] at hs
    obtain ⟨res, v₁, hrun, pg, rfl, objects, hslab, obj, hhead, rfl, rfl⟩ := hs
    obtain ⟨hkept, hpg⟩ := halloc cp _ _ hcp hrun
    obtain ⟨halign, hchunk, -⟩ := h.setup.slab hcp
    have hobjs : ∀ o ∈ objects, v.quantum ∣ o :=
      createSlab_dvd h.setup.dvd_word (hpg pg rfl) hchunk halign hslab
    refine ⟨⟨?_, ⟨hkept.same.quantum, hkept.same.qcacheMax, hkept.same.qcaches⟩,
      hkept.clobbered, hkept.live⟩, hobjs obj (List.mem_of_head? hhead)⟩
    refine hkept.tidy.change hkept.tidy.aligned (hkept.tidy.update_objects ?_)
    intro o ho
    rcases List.mem_append.mp ho with ho | ho
    · rw [hkept.same.quantum]
      exact hobjs o (List.mem_of_mem_tail ho)
    · exact hkept.tidy.objects idx o ho

theorem Tidy.vmemXalloc {minaddr maxaddr : ℕ} {res : Option ℕ} {arena : Arena} (h : Tidy v)
    (hsize : v.quantum ∣ size) (hlt : size < 2 ^ 64) (hmin : v.quantum ∣ minaddr)
    (hminlt : minaddr < 2 ^ 64) (hrvd : v.quantum ∣ rv) (hrvlt : rv < 2 ^ 64)
    (himport : ImportsBytes source size rv)
    (hs : Vmem.vmemXalloc source v.arena size minaddr maxaddr flags rv = some (res, arena)) :
    Aligned v.quantum arena ∧ arena.clobbered = v.arena.clobbered ∧
      ∀ addr, res = some addr → v.quantum ∣ addr := by
  have hr : AlignedRequest v.quantum size minaddr :=
    ⟨h.setup.two_le, h.setup.dvd_word, hsize, hmin, hminlt⟩
  have ha := h.aligned
  obtain ⟨j, hj⟩ := h.setup.pow
  rw [hj] at hr ha hrvd ⊢
  exact ha.vmemXalloc hr hlt hrvd hrvlt himport hs

/-- **`vmem_alloc`**: by induction on the slabs that are made on the way. -/
theorem Tidy.vmemAlloc (h : Tidy v) (hsource : ∀ k, source = some k → k < 64)
    (hrvd : v.quantum ∣ rv) (hrvlt : rv < 2 ^ 64) :
    ∀ (picks : List (Option ℕ)) (flags : Flags) (size : ℕ) (res : Option ℕ) (v' : Vmp),
      size < 2 ^ 64 → (v.qcacheMax < size → v.quantum ∣ size ∧ ImportsBytes source size rv) →
      Vmem.vmemAlloc source rv picks flags v size = some (res, v') →
      Kept v v' ∧ ∀ addr, res = some addr → v.quantum ∣ addr := by
  have hlarge : ∀ (flags : Flags) (size : ℕ) (res : Option ℕ) (arena : Arena), size < 2 ^ 64 →
      v.quantum ∣ size ∧ ImportsBytes source size rv →
      Vmem.vmemXalloc source v.arena size 0 0 flags rv = some (res, arena) →
      Kept v { v with arena := arena } ∧ ∀ addr, res = some addr → v.quantum ∣ addr := by
    rintro flags size res arena hlt ⟨hsize, himport⟩ hrun
    obtain ⟨ha, hc, haddr⟩ := h.vmemXalloc hsize hlt (Nat.dvd_zero _) (Nat.two_pow_pos 64) hrvd
      hrvlt himport hrun
    exact ⟨⟨h.change ha h.objects, ⟨rfl, rfl, rfl⟩, hc, rfl⟩, haddr⟩
  intro picks
  induction picks with
  | nil =>
    intro flags size res v' hlt hsize hs
    rw [Vmem.vmemAlloc] at hs
    split_ifs at hs with hz hle
    simp only [Option.bind_eq_bind, Option.bind_eq_some_iff, Prod.exists, Option.some.injEq,
      Prod.mk.injEq] at hs
    obtain ⟨res, arena, hrun, rfl, rfl⟩ := hs
    exact hlarge flags size res arena hlt (hsize (Nat.not_le.mp hle)) hrun
  | cons pick picks ih =>
    intro flags size res v' hlt hsize hs
    rw [Vmem.vmemAlloc] at hs
    split_ifs at hs with hz hle
    · simp only [Option.bind_eq_bind, Option.bind_eq_some_iff, Prod.exists,
        Option.ite_none_left_eq_some, Option.some.injEq, Prod.mk.injEq] at hs
      obtain ⟨obj, v₁, hrun, -, rfl, rfl⟩ := hs
      have halloc : ∀ cp res v₁, v.qcaches[v.cacheIndex size]? = some cp →
          Vmem.vmemAlloc source rv picks sleep v cp.slabSize = some (res, v₁) →
          Kept v v₁ ∧ ∀ addr, res = some addr → v.quantum ∣ addr := by
        intro cp res v₁ hcp hslab
        obtain ⟨-, -, hdvd, hpos, hlt', -⟩ := h.setup.slab hcp
        refine ih sleep cp.slabSize res v₁ (by omega) (fun _ => ⟨hdvd, ?_⟩) hslab
        exact importsBytes_of_lt hsource hpos hlt'
      obtain ⟨hkept, hobj⟩ := h.kmemCacheAlloc halloc hrun
      refine ⟨hkept, ?_⟩
      rintro addr ⟨⟩
      exact hobj
    · simp only [Option.bind_eq_bind, Option.bind_eq_some_iff, Prod.exists, Option.some.injEq,
        Prod.mk.injEq] at hs
      obtain ⟨res, arena, hrun, rfl, rfl⟩ := hs
      exact hlarge flags size res arena hlt (hsize (Nat.not_le.mp hle)) hrun

/-! ## Building an arena -/

theorem mapM_eq_some {α β : Type} {f : α → Option β} {xs : List α} :
    ∀ {ys : List β}, xs.mapM f = some ys →
      ys.length = xs.length ∧
        ∀ (i : ℕ) (y : β), ys[i]? = some y → ∃ x, xs[i]? = some x ∧ f x = some y := by
  induction xs with
  | nil =>
    intro ys h
    cases h
    exact ⟨rfl, fun i y h => by simp at h⟩
  | cons x xs ih =>
    intro ys h
    simp only [List.mapM_cons, Option.bind_eq_bind, Option.bind_eq_some_iff, Option.pure_def,
      Option.some.injEq] at h
    obtain ⟨z, hz, zs, hzs, rfl⟩ := h
    obtain ⟨hlen, hget⟩ := ih hzs
    refine ⟨by simp [hlen], fun i y hy => ?_⟩
    cases i with
    | zero =>
      simp only [List.getElem?_cons_zero, Option.some.injEq] at hy ⊢
      exact ⟨x, rfl, hz.trans (congrArg some hy)⟩
    | succ i =>
      simp only [List.getElem?_cons_succ] at hy ⊢
      exact hget i y hy

/-- **`vmem_init`** of a regular arena. -/
theorem Regular.tidy {base quantum qcacheMax : ℕ} {populate : Bool}
    (h : Regular base size quantum qcacheMax)
    (hinit : vmemInit source base size quantum qcacheMax populate = some v) : Tidy v := by
  unfold vmemInit at hinit
  by_cases hbad : quantum = 0 ∨ qcacheMax % quantum ≠ 0 ∨ quantum &&& (quantum - 1) ≠ 0 ∨
      (base ≠ 0 ∧ source ≠ none)
  · simp [hbad] at hinit
  simp only [hbad, if_false, Option.bind_eq_bind, Option.bind_eq_some_iff,
    Option.some.injEq] at hinit
  obtain ⟨qcaches, hcaches, rfl⟩ := hinit
  rw [not_or, not_or, not_or, not_not, not_not] at hbad
  obtain ⟨hzero, hmod, hpow, -⟩ := hbad
  have hclamp : clampedMax quantum qcacheMax = qcacheMax := Nat.min_eq_left h.unclamped
  rw [hclamp] at hcaches
  obtain ⟨hlen, hget⟩ := mapM_eq_some hcaches
  rw [List.length_range] at hlen
  have hsetup : ∀ i cp, qcaches[i]? = some cp →
      kmemCacheCreate (quantum + quantum * i) quantum (some qcacheMax) = some cp := by
    intro i cp hcp
    obtain ⟨j, hj, hcreate⟩ := hget i cp hcp
    rw [List.getElem?_range] at hj
    · cases hj
      exact hcreate
    · rw [← hlen]
      exact (List.getElem?_eq_some_iff.mp hcp).1
  refine ⟨⟨?_, h.two_le, h.quantum_lt, h.unclamped, Nat.dvd_of_mod_eq_zero hmod, hlen, hsetup⟩,
    ?_, ?_, ?_⟩
  · exact (Nat.and_sub_one_eq_zero_iff_isPowerOfTwo hzero).mp hpow
  · simp only
    split_ifs with hspan
    · cases hadd : vmemAddLocked initial base size .span populate with
      | none => exact aligned_initial
      | some s =>
        exact (aligned_initial.vmemAddLocked h.two_le h.base_dvd h.base_lt h.size_dvd
          (Nat.pos_of_ne_zero hspan.2) hadd).1
    · exact aligned_initial
  · intro i obj hobj
    cases hobj
  · intro p hp
    cases hp

/-! ## Runs -/

/-- **Every suitable call keeps the invariant.** -/
theorem Tidy.step (h : Tidy v) (hsource : ∀ k, source = some k → k < 64) {c : Call}
    (hc : Suitable source v c) (hs : v.step source c = some v') : Tidy v' := by
  cases c with
  | add addr size populate =>
    simp only [Vmp.step, Option.ite_none_right_eq_some, Option.map_eq_some_iff] at hs
    obtain ⟨⟨-, haddr, -⟩, arena, hadd, rfl⟩ := hs
    obtain ⟨hda, hds, hpos⟩ := hc
    exact h.change (h.aligned.vmemAddLocked h.setup.two_le hda haddr hds hpos hadd).1 h.objects
  | alloc size flags picks rv =>
    simp only [Vmp.step, Option.ite_none_right_eq_some, Option.map_eq_some_iff, Prod.exists] at hs
    obtain ⟨-, res, v₁, hrun, hres⟩ := hs
    obtain ⟨hpos, hlt, hfits, hlarge, hrvd, hrvlt⟩ := hc
    obtain ⟨hkept, haddr⟩ := h.vmemAlloc hsource hrvd hrvlt picks flags size res v₁ hlt hlarge hrun
    cases res with
    | none =>
      subst hres
      exact hkept.tidy
    | some addr =>
      subst hres
      refine ⟨hkept.tidy.setup.congr ⟨rfl, rfl, rfl⟩, hkept.tidy.aligned, hkept.tidy.objects, ?_⟩
      intro p hp
      rcases List.mem_cons.mp hp with rfl | hp
      · have hserved : v.Serves size := by
          rw [h.setup.serves_iff hpos hlt]
          refine ⟨hfits, fun hm hone => ?_⟩
          have hle := Nat.le_of_dvd hpos (hlarge hm).1
          have := h.setup.two_le
          omega
        have hsame := hkept.same
        refine ⟨?_, ?_⟩
        · show v₁.quantum ∣ addr
          rw [hsame.quantum]
          exact haddr addr rfl
        · show size ≤ v₁.qcacheMax → wsub (size / v₁.quantum) 1 < v₁.qcaches.length
          rw [hsame.quantum, hsame.qcacheMax, hsame.qcaches]
          exact hserved.index
      · exact hkept.tidy.live p hp
  | free addr size =>
    simp only [Vmp.step, Option.ite_none_right_eq_some, Option.map_eq_some_iff] at hs
    obtain ⟨⟨-, hlive⟩, v₁, hfree, rfl⟩ := hs
    have herase : ∀ p ∈ v.live.erase (addr, size), v.quantum ∣ p.1 ∧
        (p.2 ≤ v.qcacheMax → v.cacheIndex p.2 < v.qcaches.length) :=
      fun p hp => h.live p (List.mem_of_mem_erase hp)
    unfold vmemFree at hfree
    split_ifs at hfree with hz hle
    · simp only [Option.bind_eq_bind, Option.bind_eq_some_iff, Option.some.injEq] at hfree
      obtain ⟨cp, -, rfl⟩ := hfree
      have hobjs : ∀ obj ∈ addr :: v.objects (v.cacheIndex size), v.quantum ∣ obj := by
        intro obj hobj
        rcases List.mem_cons.mp hobj with rfl | hobj
        · exact (h.live _ hlive).1
        · exact h.objects _ obj hobj
      have hnew := @Tidy.update_objects v (v.cacheIndex size) _ h hobjs
      exact ⟨h.setup.congr ⟨rfl, rfl, rfl⟩, h.aligned, hnew, herase⟩
    · obtain ⟨arena, hxfree, rfl⟩ := Option.map_eq_some_iff.mp hfree
      have ha := h.aligned.vmemXfree h.setup.dvd_word hxfree
      exact ⟨h.setup.congr ⟨rfl, rfl, rfl⟩, ha, h.objects, herase⟩
  | xalloc size minaddr maxaddr flags rv =>
    simp only [Vmp.step, Option.ite_none_right_eq_some, Option.map_eq_some_iff, Prod.exists] at hs
    obtain ⟨⟨-, hlt, hmin, -, hrv⟩, res, arena, hrun, hres⟩ := hs
    obtain ⟨hsize, hmind, hrvd, himport⟩ := hc
    have ha := (h.vmemXalloc hsize hlt hmind hmin hrvd hrv himport hrun).1
    cases res with
    | none =>
      subst hres
      exact h.change ha h.objects
    | some addr =>
      subst hres
      exact ⟨h.setup.congr ⟨rfl, rfl, rfl⟩, ha, h.objects, h.live⟩
  | xfree addr size =>
    simp only [Vmp.step, Option.ite_none_right_eq_some, Option.map_eq_some_iff] at hs
    obtain ⟨-, arena, hxfree, rfl⟩ := hs
    have ha := h.aligned.vmemXfree h.setup.dvd_word hxfree
    exact ⟨h.setup.congr ⟨rfl, rfl, rfl⟩, ha, h.objects, h.live⟩

/-- **`vmem_alloc` honours size and quantum** in every run of suitable calls on a regular
arena. -/
theorem vmemAlloc_honours {base quantum qcacheMax : ℕ} {populate : Bool}
    (hr : Regular base size quantum qcacheMax) (hsource : ∀ k, source = some k → k < 64)
    (h : (vmpSystem source base size quantum qcacheMax populate).ReachableUnder
      (Suitable source) v) {c : Call} (hc : Suitable source v c) : v.Honours source c := by
  have htidy : Tidy v :=
    h.invariant (fun v hinit => hr.tidy hinit) (fun v c v' hv hc hs => hv.step hsource hc hs)
  cases c with
  | alloc size flags picks rv =>
    obtain ⟨hpos, hlt, hfits, hlarge, hrvd, hrvlt⟩ := hc
    refine ⟨?_, fun _ cp hcp => htidy.setup.serves_slab hcp, fun res v' hrun => ?_⟩
    · rw [htidy.setup.serves_iff hpos hlt]
      refine ⟨hfits, fun hm hone => ?_⟩
      have hle := Nat.le_of_dvd hpos (hlarge hm).1
      have := htidy.setup.two_le
      omega
    · obtain ⟨hkept, haddr⟩ :=
        htidy.vmemAlloc hsource hrvd hrvlt picks flags size res v' hlt hlarge hrun
      exact ⟨fun hclear => hkept.clobbered.trans hclear, haddr⟩
  | free addr size => exact (htidy.live _ hc).2
  | add addr size populate => trivial
  | xalloc size minaddr maxaddr flags rv => trivial
  | xfree addr size => trivial

instance (source : Option ℕ) (size rv : ℕ) : Decidable (ImportsBytes source size rv) :=
  match source with
  | none => isTrue (fun k hk => by cases hk)
  | some k => decidable_of_iff (rv ≠ 0 → 0 < alignUp size (2 ^ k)) (by simp [ImportsBytes])

instance (source : Option ℕ) (v : Vmp) : (c : Call) → Decidable (Suitable source v c)
  | .add addr size _ => inferInstanceAs (Decidable (v.quantum ∣ addr ∧ v.quantum ∣ size ∧ 0 < size))
  | .alloc size _ _ rv => by
    unfold Suitable FitsObject
    infer_instance
  | .free addr size => inferInstanceAs (Decidable ((addr, size) ∈ v.live))
  | .xalloc size minaddr _ _ rv => inferInstanceAs (Decidable (v.quantum ∣ size ∧
      v.quantum ∣ minaddr ∧ v.quantum ∣ rv ∧ ImportsBytes source size rv))
  | .xfree _ _ => inferInstanceAs (Decidable True)

/-- An arena of pages with caches for up to eight of them. -/
def pages : Vmp := (vmemInit none 0x100000 0x100000 0x1000 0x8000 false).get (by decide +kernel)

theorem pages_init : (vmpSystem none 0x100000 0x100000 0x1000 0x8000 false).init pages :=
  (Option.some_get _).symm

/-- Two pages from a cache, nine from the segments, and the two freed; then three pages. -/
theorem vmemAlloc_honours_pages :
    ∃ v, (vmpSystem none 0x100000 0x100000 0x1000 0x8000 false).Reachable v ∧
      v.live = [(0x120000, 0x9000)] ∧ v.Honours none (.alloc 0x3000 sleep [none] 0) := by
  obtain ⟨v, hv, hp⟩ := TransitionSystem.exists_reachableUnder_of_runUnder
    (C := Suitable none) pages_init
    [.alloc 0x2000 sleep [none] 0, .alloc 0x9000 sleep [] 0, .free 0x11e000 0x2000]
    (fun v => decide (v.live = [(0x120000, 0x9000)] ∧
      Suitable none v (.alloc 0x3000 sleep [none] 0))) (by decide +kernel)
  obtain ⟨hlive, hc⟩ := of_decide_eq_true hp
  refine ⟨v, hv.reachable, hlive, ?_⟩
  exact vmemAlloc_honours ⟨by decide, by decide, by decide, by decide, by decide, by decide⟩
    (fun k hk => by cases hk) hv hc

/-- A single byte from an arena of pages would come from the cache before the first one; and 24
bytes from an arena of 16 make the next address no multiple of 16. -/
theorem vmemAlloc_not_honours :
    (∃ v, (vmpSystem none 0x100000 0x100000 0x1000 0x8000 false).Reachable v ∧
      ¬ v.Honours none (.alloc 1 sleep [none] 0)) ∧
    (∃ v, (vmpSystem none 0x100000 0x100000 16 0 false).Reachable v ∧
      ¬ v.Honours none (.alloc 16 sleep [] 0)) := by
  constructor
  · refine ⟨pages, .init pages_init, fun h => ?_⟩
    have hindex : ¬ (1 ≤ pages.qcacheMax → pages.cacheIndex 1 < pages.qcaches.length) := by
      decide +kernel
    exact hindex h.1.index
  · obtain ⟨v, hv, hp⟩ := TransitionSystem.exists_reachable_of_run
      (show (vmpSystem none 0x100000 0x100000 16 0 false).init
        ((vmemInit none 0x100000 0x100000 16 0 false).get (by decide +kernel)) from
        (Option.some_get _).symm)
      [.alloc 24 sleep [] 0]
      (fun v => decide (v.quantum = 16) && (vmemAlloc none 0 [] sleep v 16).any
        (fun r : Option ℕ × Vmp => decide (r.1 = some 0x100018))) (by decide +kernel)
    refine ⟨v, hv, fun h => ?_⟩
    obtain ⟨hq, hrun⟩ := Bool.and_eq_true_iff.mp hp
    obtain ⟨⟨res, v'⟩, hrun, hres⟩ := (Option.any_eq_true _ _).mp hrun
    have hdvd := (h.2.2 res v' hrun).2 0x100018 (of_decide_eq_true hres)
    rw [of_decide_eq_true hq] at hdvd
    exact absurd hdvd (by decide)

end Vmem
