/-
# Well-formed trees of map entries

What a map says about an address, the trees that `vm/map.c` builds, and the replacement of an
entry by pieces of it: pieces inside its range, apart from each other and saying what it says
keep the tree well-formed, and every address they cover covered as before.
-/
import YakKernel.VmMap

namespace Vm

/-! ## Well-formed trees -/

/-- What an entry says about an address it covers. -/
structure View where
  type : EntryType
  protection : Prot
  maxProtection : Prot
  inheritance : Inheritance
  object : Option ℕ
  amap : Option ℕ
  offset : ℕ
  deriving DecidableEq, Repr

/-- The view of an entry at an address. -/
def MapEntry.view (entry : MapEntry) (a : ℕ) : View where
  type := entry.type
  protection := entry.protection
  maxProtection := entry.maxProtection
  inheritance := entry.inheritance
  object := entry.object
  amap := entry.amap
  offset := wadd entry.offset (wsub a entry.base)

/-- What a map says about an address. -/
def coverage (tree : List MapEntry) (a : ℕ) : Option View :=
  (vmMapLookupEntryLocked tree a).map (fun entry => entry.view a)

/-- Two entries share no address. -/
def MapEntry.Apart (e e' : MapEntry) : Prop := e.endAddr ≤ e'.base ∨ e'.endAddr ≤ e.base

/-- An entry on its own: a non-empty range of whole pages, with an object if and only if its
type asks for one. -/
structure MapEntry.Sound (e : MapEntry) : Prop where
  lt : e.base < e.endAddr
  base_aligned : IsAligned e.base
  end_aligned : IsAligned e.endAddr
  end_lt : e.endAddr < 2 ^ 64
  object : e.type = .obj → e.object ≠ none
  no_object : e.type ≠ .obj → e.object = none ∧ e.amap = none

/-- The entries of a map: in key order, sound, pairwise disjoint, at different addresses. -/
structure WellFormed (tree : List MapEntry) : Prop where
  sorted : KeyedTree.Sorted key tree
  sound : ∀ e ∈ tree, e.Sound
  apart : ∀ e ∈ tree, ∀ e' ∈ tree, e ≠ e' → e.Apart e'
  ptr : ∀ e ∈ tree, ∀ e' ∈ tree, e.ptr = e'.ptr → e = e'

variable {tree tree' : List MapEntry} {c e : MapEntry} {a : ℕ}

theorem WellFormed.join (hw : WellFormed tree) (hsorted : KeyedTree.Sorted key tree')
    (hmem : ∀ x, x ∈ tree' ↔ x = c ∨ x ∈ tree) (hsound : c.Sound)
    (hfree : ∀ e ∈ tree, e.Apart c) (hptr : ∀ e ∈ tree, e.ptr ≠ c.ptr) : WellFormed tree' := by
  refine ⟨hsorted, ?_, ?_, ?_⟩
  · intro e he
    rcases (hmem e).mp he with rfl | het
    · exact hsound
    · exact hw.sound e het
  · intro e he e' he' hne
    rcases (hmem e).mp he with rfl | het
    · rcases (hmem e').mp he' with rfl | het'
      · exact absurd rfl hne
      · exact (hfree e' het').symm
    · rcases (hmem e').mp he' with rfl | het'
      · exact hfree e het
      · exact hw.apart e het e' het' hne
  · intro e he e' he' heq
    rcases (hmem e).mp he with rfl | het
    · rcases (hmem e').mp he' with rfl | het'
      · rfl
      · exact absurd heq.symm (hptr e' het')
    · rcases (hmem e').mp he' with rfl | het'
      · exact absurd heq (hptr e het)
      · exact hw.ptr e het e' het' heq

theorem WellFormed.eq_of_covers (h : WellFormed tree) {e' : MapEntry} (he : e ∈ tree)
    (he' : e' ∈ tree) (hc : e.Covers a) (hc' : e'.Covers a) : e = e' := by
  by_contra hne
  obtain ⟨h1, h2⟩ := hc
  obtain ⟨h3, h4⟩ := hc'
  rcases h.apart e he e' he' hne with h5 | h5
  · omega
  · omega

/-- Of two entries the one with the lower address ends before the other one. -/
theorem WellFormed.endAddr_le (h : WellFormed tree) {e' : MapEntry} (he : e ∈ tree)
    (he' : e' ∈ tree) (hlt : e.base < e'.base) : e.endAddr ≤ e'.base := by
  have h2 := (h.sound e' he').lt
  rcases h.apart e he e' he' (fun h => absurd (h ▸ hlt) (lt_irrefl _)) with h5 | h5
  · exact h5
  · omega

theorem WellFormed.lookup_iff (h : WellFormed tree) :
    vmMapLookupEntryLocked tree a = some e ↔ e ∈ tree ∧ e.Covers a := by
  rw [vmMapLookupEntryLocked, h.sorted.find?_eq_some_iff]
  simp only [decide_eq_true_eq]
  constructor
  · rintro ⟨he, hc, -⟩
    exact ⟨he, hc⟩
  · rintro ⟨he, hc⟩
    refine ⟨he, hc, ?_⟩
    intro e' he' hc'
    rw [h.eq_of_covers he he' hc hc']

theorem WellFormed.coverage_iff (h : WellFormed tree) {v : View} :
    coverage tree a = some v ↔ ∃ e ∈ tree, e.Covers a ∧ e.view a = v := by
  simp only [coverage, Option.map_eq_some_iff, h.lookup_iff]
  constructor
  · rintro ⟨e, ⟨he, hc⟩, hv⟩
    exact ⟨e, he, hc, hv⟩
  · rintro ⟨e, he, hc, hv⟩
    exact ⟨e, ⟨he, hc⟩, hv⟩

/-! ## Replacing an entry by pieces -/

/-- `ps` are pieces of `c`: inside its range, apart, and saying what `c` says; one may keep
the address of `c` and the others have addresses from `fresh` on. -/
structure PiecesOf (c : MapEntry) (fresh : ℕ) (ps : List MapEntry) : Prop where
  sound : ∀ p ∈ ps, p.Sound
  inside : ∀ p ∈ ps, c.base ≤ p.base ∧ p.endAddr ≤ c.endAddr
  apart : ∀ p ∈ ps, ∀ q ∈ ps, p ≠ q → p.Apart q
  view : ∀ p ∈ ps, ∀ a, p.Covers a → p.view a = c.view a
  ptr : ∀ p ∈ ps, p.ptr = c.ptr ∨ fresh ≤ p.ptr
  ptr_nodup : (ps.map MapEntry.ptr).Nodup

/-- `tree'` is `tree` with the entry `c` replaced by `ps`. -/
structure Replaced (tree : List MapEntry) (c : MapEntry) (ps tree' : List MapEntry) : Prop where
  sorted : KeyedTree.Sorted key tree'
  mem : ∀ x, x ∈ tree' ↔ (x ∈ tree ∧ x ≠ c) ∨ x ∈ ps

section Replaced

variable {ps : List MapEntry} {fresh : ℕ}

theorem PiecesOf.nil : PiecesOf c fresh [] := by
  constructor <;> simp

theorem PiecesOf.cons (h : PiecesOf c fresh ps) {p : MapEntry} (hp : p.Sound)
    (hin : c.base ≤ p.base ∧ p.endAddr ≤ c.endAddr) (hapart : ∀ q ∈ ps, p.Apart q)
    (hview : ∀ a, p.Covers a → p.view a = c.view a) (hptr : p.ptr = c.ptr ∨ fresh ≤ p.ptr)
    (hne : ∀ q ∈ ps, p.ptr ≠ q.ptr) : PiecesOf c fresh (p :: ps) := by
  refine ⟨?_, ?_, ?_, ?_, ?_, ?_⟩
  · exact List.forall_mem_cons.mpr ⟨hp, h.sound⟩
  · exact List.forall_mem_cons.mpr ⟨hin, h.inside⟩
  · intro x hx y hy hxy
    rcases List.mem_cons.mp hx with hxp | hxs
    · rcases List.mem_cons.mp hy with hyp | hys
      · exact absurd (hxp.trans hyp.symm) hxy
      · rw [hxp]
        exact hapart y hys
    · rcases List.mem_cons.mp hy with hyp | hys
      · rw [hyp]
        exact (hapart x hxs).symm
      · exact h.apart x hxs y hys hxy
  · exact List.forall_mem_cons.mpr ⟨hview, h.view⟩
  · exact List.forall_mem_cons.mpr ⟨hptr, h.ptr⟩
  · rw [List.map_cons, List.nodup_cons]
    refine ⟨?_, h.ptr_nodup⟩
    intro hmem
    obtain ⟨q, hq, hqp⟩ := List.mem_map.mp hmem
    exact hne q hq hqp.symm

theorem PiecesOf.of_cons {p : MapEntry} (h : PiecesOf c fresh (p :: ps)) :
    PiecesOf c fresh ps := by
  have hnd := h.ptr_nodup
  rw [List.map_cons, List.nodup_cons] at hnd
  exact ⟨fun x hx => h.sound x (List.mem_cons_of_mem _ hx),
    fun x hx => h.inside x (List.mem_cons_of_mem _ hx),
    fun x hx y hy => h.apart x (List.mem_cons_of_mem _ hx) y (List.mem_cons_of_mem _ hy),
    fun x hx => h.view x (List.mem_cons_of_mem _ hx),
    fun x hx => h.ptr x (List.mem_cons_of_mem _ hx), hnd.2⟩

theorem PiecesOf.notMem {p : MapEntry} (h : PiecesOf c fresh (p :: ps)) : p ∉ ps := by
  intro hp
  have hnd := h.ptr_nodup
  rw [List.map_cons, List.nodup_cons] at hnd
  exact hnd.1 (List.mem_map_of_mem hp)

theorem WellFormed.mem_rbtRemove (hw : WellFormed tree) (hc : c ∈ tree) {x : MapEntry} :
    x ∈ rbtRemove tree c ↔ x ∈ tree ∧ x ≠ c := by
  simp only [rbtRemove, List.mem_filter, decide_eq_true_eq]
  constructor
  · rintro ⟨hx, hp⟩
    refine ⟨hx, ?_⟩
    rintro rfl
    exact hp rfl
  · rintro ⟨hx, hne⟩
    exact ⟨hx, fun hp => hne (hw.ptr x hx c hc hp)⟩

theorem Replaced.remove (hw : WellFormed tree) (hc : c ∈ tree) :
    Replaced tree c [] (rbtRemove tree c) := by
  refine ⟨hw.sorted.filter _, ?_⟩
  intro x
  simp [hw.mem_rbtRemove hc]

theorem PiecesOf.self (fresh : ℕ) (hs : c.Sound) : PiecesOf c fresh [c] :=
  PiecesOf.nil.cons hs ⟨le_rfl, le_rfl⟩ (by simp) (fun _ _ => rfl) (Or.inl rfl) (by simp)

theorem Replaced.self (hw : WellFormed tree) (hc : c ∈ tree) : Replaced tree c [c] tree := by
  refine ⟨hw.sorted, ?_⟩
  intro x
  rw [List.mem_singleton]
  constructor
  · intro hx
    by_cases hxc : x = c
    · exact Or.inr hxc
    · exact Or.inl ⟨hx, hxc⟩
  · rintro (⟨hx, -⟩ | rfl)
    · exact hx
    · exact hc

theorem Replaced.insert (h : Replaced tree c ps tree') (hw : WellFormed tree) (hc : c ∈ tree)
    {p : MapEntry} (hp : PiecesOf c fresh (p :: ps)) :
    Replaced tree c (p :: ps) (rbtInsert tree' p) := by
  have hps := hp.sound p List.mem_cons_self
  obtain ⟨hin1, hin2⟩ := hp.inside p List.mem_cons_self
  have hnew : ∀ z ∈ tree', key z ≠ key p := by
    intro z hz hzp
    have hlt := hps.lt
    simp only [key] at hzp
    rcases (h.mem z).mp hz with ⟨hzt, hzc⟩ | hzps
    · have hzlt := (hw.sound z hzt).lt
      rcases hw.apart z hzt c hc hzc with h1 | h1
      · omega
      · omega
    · have hzlt := (hp.sound z (List.mem_cons_of_mem _ hzps)).lt
      have hzne : p ≠ z := fun hpz => hp.notMem (hpz ▸ hzps)
      rcases hp.apart p List.mem_cons_self z (List.mem_cons_of_mem _ hzps) hzne with h1 | h1
      · omega
      · omega
  refine ⟨h.sorted.insert, ?_⟩
  intro x
  rw [rbtInsert, KeyedTree.mem_insert_of_new hnew, h.mem, List.mem_cons]
  constructor
  · rintro (hx | hx | hx)
    · exact Or.inr (Or.inl hx)
    · exact Or.inl hx
    · exact Or.inr (Or.inr hx)
  · rintro (hx | hx | hx)
    · exact Or.inr (Or.inl hx)
    · exact Or.inl hx
    · exact Or.inr (Or.inr hx)

theorem Replaced.drop {p : MapEntry} (h : Replaced tree c (p :: ps) tree')
    (hw : WellFormed tree) (hw' : WellFormed tree') (hc : c ∈ tree)
    (hp : PiecesOf c fresh (p :: ps)) : Replaced tree c ps (rbtRemove tree' p) := by
  have hpt : p ∈ tree' := (h.mem p).mpr (Or.inr List.mem_cons_self)
  have hout : ∀ x ∈ tree, x ≠ c → x ≠ p := by
    rintro x hx hxc rfl
    obtain ⟨hin1, hin2⟩ := hp.inside x List.mem_cons_self
    have hlt := (hw.sound x hx).lt
    rcases hw.apart x hx c hc hxc with h1 | h1
    · omega
    · omega
  refine ⟨hw'.sorted.filter _, ?_⟩
  intro x
  rw [hw'.mem_rbtRemove hpt, h.mem, List.mem_cons]
  constructor
  · rintro ⟨hx | rfl | hx, hxp⟩
    · exact Or.inl hx
    · exact absurd rfl hxp
    · exact Or.inr hx
  · rintro (⟨hx, hxc⟩ | hx)
    · exact ⟨Or.inl ⟨hx, hxc⟩, hout x hx hxc⟩
    · exact ⟨Or.inr (Or.inr hx), fun hxp => hp.notMem (hxp ▸ hx)⟩

theorem Replaced.wellFormed (h : Replaced tree c ps tree') (hw : WellFormed tree)
    (hc : c ∈ tree) (hf : ∀ e ∈ tree, e.ptr < fresh) (hp : PiecesOf c fresh ps) :
    WellFormed tree' := by
  have hout : ∀ x ∈ tree, x ≠ c → ∀ p ∈ ps, x.Apart p := by
    intro x hx hxc p hps
    obtain ⟨h1, h2⟩ := hp.inside p hps
    rcases hw.apart x hx c hc hxc with h3 | h3
    · left
      omega
    · right
      omega
  have hptr : ∀ x ∈ tree, x ≠ c → ∀ p ∈ ps, x.ptr ≠ p.ptr := by
    intro x hx hxc p hps hxp
    rcases hp.ptr p hps with h1 | h1
    · exact hxc (hw.ptr x hx c hc (hxp.trans h1))
    · have := hf x hx
      omega
  refine ⟨h.sorted, ?_, ?_, ?_⟩
  · intro x hx
    rcases (h.mem x).mp hx with ⟨hxt, -⟩ | hxp
    · exact hw.sound x hxt
    · exact hp.sound x hxp
  · intro x hx y hy hxy
    rcases (h.mem x).mp hx with ⟨hxt, hxc⟩ | hxp
    · rcases (h.mem y).mp hy with ⟨hyt, -⟩ | hyp
      · exact hw.apart x hxt y hyt hxy
      · exact hout x hxt hxc y hyp
    · rcases (h.mem y).mp hy with ⟨hyt, hyc⟩ | hyp
      · exact (hout y hyt hyc x hxp).symm
      · exact hp.apart x hxp y hyp hxy
  · intro x hx y hy hxy
    rcases (h.mem x).mp hx with ⟨hxt, hxc⟩ | hxp
    · rcases (h.mem y).mp hy with ⟨hyt, -⟩ | hyp
      · exact hw.ptr x hxt y hyt hxy
      · exact absurd hxy (hptr x hxt hxc y hyp)
    · rcases (h.mem y).mp hy with ⟨hyt, hyc⟩ | hyp
      · exact absurd hxy.symm (hptr y hyt hyc x hxp)
      · exact List.inj_on_of_nodup_map hp.ptr_nodup hxp hyp hxy

theorem Replaced.coverage_eq (h : Replaced tree c ps tree') (hw : WellFormed tree)
    (hw' : WellFormed tree') (hc : c ∈ tree) (hp : PiecesOf c fresh ps)
    (hcov : c.Covers a → ∃ p ∈ ps, p.Covers a) : coverage tree' a = coverage tree a := by
  apply Option.ext
  intro v
  rw [hw.coverage_iff, hw'.coverage_iff]
  constructor
  · rintro ⟨e, he, hea, hv⟩
    rcases (h.mem e).mp he with ⟨het, -⟩ | hep
    · exact ⟨e, het, hea, hv⟩
    · obtain ⟨h1, h2⟩ := hp.inside e hep
      obtain ⟨h3, h4⟩ := hea
      exact ⟨c, hc, ⟨h1.trans h3, h4.trans_le h2⟩, (hp.view e hep a ⟨h3, h4⟩).symm.trans hv⟩
  · rintro ⟨e, he, hea, hv⟩
    by_cases hec : e = c
    · subst hec
      obtain ⟨p, hps, hpa⟩ := hcov hea
      exact ⟨p, (h.mem p).mpr (Or.inr hps), hpa, (hp.view p hps a hpa).trans hv⟩
    · exact ⟨e, (h.mem e).mpr (Or.inl ⟨he, hec⟩), hea, hv⟩

end Replaced

/-! ## Changing an entry -/

section Store

variable {entry : MapEntry}

theorem storeEntry_mem {tree tree' : List MapEntry} {entry₀ : MapEntry}
    (hmem : ∀ e, e ∈ tree' ↔ e = entry₀ ∨ e ∈ tree) (hptr : entry.ptr = entry₀.ptr)
    (hfresh : ∀ e ∈ tree, e.ptr ≠ entry₀.ptr) :
    e ∈ storeEntry tree' entry ↔ e = entry ∨ e ∈ tree := by
  simp only [storeEntry, List.mem_map]
  constructor
  · rintro ⟨x, hx, rfl⟩
    split
    · exact Or.inl rfl
    · rename_i hne
      rcases (hmem x).mp hx with rfl | hxt
      · exact absurd hptr.symm hne
      · exact Or.inr hxt
  · rintro (rfl | he)
    · exact ⟨entry₀, (hmem entry₀).mpr (Or.inl rfl), if_pos hptr.symm⟩
    · refine ⟨e, (hmem e).mpr (Or.inr he), if_neg ?_⟩
      rw [hptr]
      exact hfresh e he

theorem storeEntry_sorted {tree : List MapEntry} (h : KeyedTree.Sorted key tree)
    (hbase : ∀ e ∈ tree, e.ptr = entry.ptr → e.base = entry.base) :
    KeyedTree.Sorted key (storeEntry tree entry) := by
  have hkeys : (storeEntry tree entry).map key = tree.map key := by
    rw [storeEntry, List.map_map]
    apply List.map_congr_left
    intro e he
    simp only [Function.comp]
    split
    · rename_i hptr
      exact (hbase e he hptr).symm
    · rfl
  have hiff : ∀ t : List MapEntry, KeyedTree.Sorted key t ↔ (t.map key).Pairwise (· < ·) := by
    intro t
    rw [KeyedTree.Sorted, List.pairwise_map]
  rw [hiff, hkeys, ← hiff]
  exact h

theorem WellFormed.map {f : MapEntry → MapEntry} (hw : WellFormed tree)
    (hf : ∀ e ∈ tree, (f e).ptr = e.ptr ∧ (f e).base = e.base ∧ (f e).endAddr = e.endAddr)
    (hs : ∀ e ∈ tree, (f e).Sound) : WellFormed (tree.map f) := by
  refine ⟨?_, ?_, ?_, ?_⟩
  · refine List.pairwise_map.mpr (hw.sorted.imp_of_mem ?_)
    intro x y hx hy hlt
    show (f x).base < (f y).base
    rw [(hf x hx).2.1, (hf y hy).2.1]
    exact hlt
  · intro x hx
    obtain ⟨e, he, rfl⟩ := List.mem_map.mp hx
    exact hs e he
  · intro x hx y hy hxy
    obtain ⟨e, he, rfl⟩ := List.mem_map.mp hx
    obtain ⟨e', he', rfl⟩ := List.mem_map.mp hy
    have hapart := hw.apart e he e' he' (fun h => hxy (by rw [h]))
    unfold MapEntry.Apart at hapart ⊢
    rw [(hf e he).2.1, (hf e he).2.2, (hf e' he').2.1, (hf e' he').2.2]
    exact hapart
  · intro x hx y hy hxy
    obtain ⟨e, he, rfl⟩ := List.mem_map.mp hx
    obtain ⟨e', he', rfl⟩ := List.mem_map.mp hy
    rw [(hf e he).1, (hf e' he').1] at hxy
    rw [hw.ptr e he e' he' hxy]

end Store

/-! ## A map with one entry -/

/-- The map 1 with one entry. -/
def oneEntry (entry : MapEntry) : Vm := { empty.setTree 1 [entry] with heapNext := 5 }

end Vm
