/-
# MMIO mappings

What `vm_map_mmio` leaves in the map, the pages that a fault installs in the new mapping, and
what `vm_unmap` of the address and length given by the caller takes away again.
-/
import YakKernel.VmUnmap
import YakKernel.VmSearch
import YakKernel.VmBacking

namespace Vm

open Prog

/-! ## The new mapping -/

/-- The offset in its page. -/
abbrev pageOffset (addr : ℕ) : ℕ := addr - alignDown addr

/-- The length of the mapping that `vm_map_mmio` makes. -/
abbrev mmioLength (deviceAddr length : ℕ) : ℕ := alignUp (wadd (pageOffset deviceAddr) length)

/-- `entry` is the mapping that `vm_map_mmio` has made, at the address `out`. -/
structure MmioMapped (s s' : Vm) (m deviceAddr length : ℕ) (prot : Prot) (cache out : ℕ)
    (entry : MapEntry) : Prop where
  pos : 0 < mmioLength deviceAddr length
  fits : Fits (s.tree m) (minAddrOf m) (maxAddrOf m) (mmioLength deviceAddr length) entry.base
  endAddr : entry.endAddr = entry.base + mmioLength deviceAddr length
  aligned : IsAligned entry.base
  out_eq : out = entry.base + pageOffset deviceAddr
  ptr : entry.ptr = s.heapNext
  type : entry.type = .mmio
  mmioAddr : entry.mmioAddr = alignDown deviceAddr
  offset : entry.offset = pageOffset deviceAddr
  protection : entry.protection = prot
  cache_eq : entry.cache = cache
  unbacked : entry.object = none ∧ entry.amap = none
  sorted : KeyedTree.Sorted key (s'.tree m)
  mem : ∀ e, e ∈ s'.tree m ↔ e = entry ∨ e ∈ s.tree m
  held : s'.held = s.held
  pmap : (s'.maps m).pmap = (s.maps m).pmap
  heapNext : s'.heapNext = s.heapNext + 1

/-- The entries of a map as its operations keep them: well-formed, inside the bounds of the map,
and not at the addresses that the heap gives out next. -/
structure MapReady (s : Vm) (m : ℕ) : Prop where
  wf : WellFormed (s.tree m)
  bounds : ∀ e ∈ s.tree m, minAddrOf m ≤ e.base ∧ e.endAddr ≤ maxAddrOf m
  fresh : ∀ e ∈ s.tree m, e.ptr < s.heapNext
  unlocked : s.held (.map m) = none

variable {env : Env} {s s' : Vm} {m deviceAddr length cache out : ℕ} {prot : Prot}
  {entry e : MapEntry}

theorem vaBounds_aligned (m : ℕ) : IsAligned (minAddrOf m) ∧ IsAligned (maxAddrOf m) := by
  unfold minAddrOf maxAddrOf vaBounds
  split
  · decide
  · decide

theorem alignUp_aligned (n : ℕ) : IsAligned (alignUp n) := by
  unfold IsAligned alignUp
  exact Nat.mul_mod_left _ _

theorem searchRange_aligned {tree : List MapEntry} {b : ℕ} (hw : WellFormed tree)
    (hb : searchRange tree (minAddrOf m) (maxAddrOf m) 0 length = .ok (some b)) :
    IsAligned b := by
  have hbounds := vaBounds_lt m
  have hclamp : clampHint (minAddrOf m) (maxAddrOf m) 0 = minAddrOf m := by
    unfold clampHint
    omega
  rcases searchRange_origin hbounds.1.le hb with h | h | ⟨e, he, h⟩
  · rw [h, hclamp]
    exact (vaBounds_aligned m).1
  · rw [h]
    exact (vaBounds_aligned m).1
  · rw [h]
    exact (hw.sound e he).end_aligned

theorem allocMapRangeLocked_zero {hint cache offset : ℕ} {prot : Prot} {inheritance : Inheritance}
    {type : EntryType} {flags : MapFlags} {Q : Except Status MapEntry → Vm → Prop}
    {R : Failure → Prop} :
    (allocMapRangeLocked m hint 0 prot inheritance cache offset type flags).Ends env s Q R ↔
      Q (.error .invalidArgs) s := by
  simp only [allocMapRangeLocked, chooseBase, ends_bind, if_true, ends_pure]

/-- The entry that `vm_map_mmio` makes at `b`. -/
def mmioEntryAt (ptr b deviceAddr length : ℕ) (prot : Prot) (cache : ℕ) : MapEntry :=
  { initMapEntry ptr (pageOffset deviceAddr) b (wadd b (mmioLength deviceAddr length)) prot .none
      cache .mmio with mmioAddr := alignDown deviceAddr }

theorem mmioMapped_of_search {b : ℕ} (hw : WellFormed (s.tree m))
    (hin : ∀ e ∈ s.tree m, minAddrOf m ≤ e.base ∧ e.endAddr ≤ maxAddrOf m)
    (hf : ∀ e ∈ s.tree m, e.ptr < s.heapNext) (hpos : 0 < mmioLength deviceAddr length)
    (hroom : mmioLength deviceAddr length ≤ maxAddrOf m - minAddrOf m)
    (hb : searchRange (s.tree m) (minAddrOf m) (maxAddrOf m) 0 (mmioLength deviceAddr length)
      = .ok (some b))
    (htree : s'.tree m = storeEntry (rbtInsert (s.tree m)
      (initMapEntry s.heapNext (pageOffset deviceAddr) b (wadd b (mmioLength deviceAddr length))
        prot .none cache .mmio)) (mmioEntryAt s.heapNext b deviceAddr length prot cache))
    (hheld : s'.held = s.held) (hpmap : (s'.maps m).pmap = (s.maps m).pmap)
    (hheap : s'.heapNext = s.heapNext + 1) :
    MmioMapped s s' m deviceAddr length prot cache (b + pageOffset deviceAddr)
      (mmioEntryAt s.heapNext b deviceAddr length prot cache) := by
  obtain ⟨hbounds, hmax⟩ := vaBounds_lt m
  have hl := hw.laid hin
  have hfits := searchRange_fits hl hmax (by omega) hb
  have hend : wadd b (mmioLength deviceAddr length) = b + mmioLength deviceAddr length := by
    have := hfits.le_max
    rw [wadd, Nat.mod_eq_of_lt (by omega)]
  have hmem := fun e => @Fits.mem_insert _ _ _ _ _ hfits hl hpos (initMapEntry s.heapNext
    (pageOffset deviceAddr) b (wadd b (mmioLength deviceAddr length)) prot .none cache .mmio) e rfl
  have hfresh : ∀ e ∈ s.tree m, e.ptr ≠ s.heapNext := fun e he => (hf e he).ne
  refine ⟨hpos, hfits, hend, searchRange_aligned hw hb, rfl, rfl, rfl, rfl, rfl, rfl, rfl,
    ⟨rfl, rfl⟩, ?_, ?_, hheld, hpmap, hheap⟩
  · rw [htree]
    refine storeEntry_sorted hw.sorted.insert ?_
    intro e he hptr
    rcases (hmem e).mp he with rfl | het
    · rfl
    · exact absurd hptr (hfresh e het)
  · intro e
    rw [htree]
    exact storeEntry_mem hmem rfl hfresh

/-- **What `vm_map_mmio` does** when it succeeds. -/
theorem vmMapMmio_spec (hq : env.Undisturbed) (hr : MapReady s m) :
    (vmMapMmio m deviceAddr length prot cache).Ends env s
      (fun r s' => r.1 = .success → ∃ entry out, r.2 = some out ∧
        MmioMapped s s' m deviceAddr length prot cache out entry)
      (fun _ => True) := by
  -- the state in which the lock is granted differs in the lock and the clock
  have hgranted : granted env s = { s with clock := s.clock + 1 } := by
    rw [granted, hq]
  unfold vmMapMmio
  refine ends_guardRwlock hr.unlocked ?_
  rw [hgranted]
  simp only [ends_bind]
  rcases Nat.eq_zero_or_pos (alignUp (wadd (deviceAddr - alignDown deviceAddr) length)) with
    hzero | hpos
  · rw [hzero, allocMapRangeLocked_zero]
    simp only [ends_pure, setHeld_held, Function.update_self, true_and]
    rintro ⟨⟩
  rw [allocMapRangeLocked_ends hpos rfl]
  refine ⟨fun _ => ?_, fun hroom => ⟨fun _ _ => trivial, fun _ => ?_, fun b hb =>
    ⟨fun _ => ⟨fun _ => ?_, fun _ => trivial⟩, fun _ => trivial⟩⟩⟩
  · simp only [ends_pure, setHeld_held, Function.update_self, true_and]
    rintro ⟨⟩
  · simp only [ends_pure, setHeld_held, Function.update_self, true_and]
    rintro ⟨⟩
  · simp only [ends_bind, ends_change, ends_pure]
    refine ⟨Function.update_self _ _ _, fun _ => ⟨mmioEntryAt s.heapNext b deviceAddr length prot
      cache, b + pageOffset deviceAddr, rfl, ?_⟩⟩
    refine mmioMapped_of_search hr.wf hr.bounds hr.fresh hpos hroom hb ?_ ?_ ?_ rfl
    · show (Vm.setTree _ m _).tree m = _
      rw [tree_setTree, tree_setTree]
      rfl
    · show Function.update (Function.update s.held (.map m) (some .exclusive)) (.map m) none = _
      rw [Function.update_idem, ← hr.unlocked, Function.update_eq_self]
    · show ((Vm.setTree _ m _).maps m).pmap = _
      simp only [setTree_maps, Function.update_self]
      rfl

/-! ## Unmapping it again -/

section Unmap

variable {c : MapEntry} {n endAddr : ℕ}

theorem alignDown_out {base : ℕ} (h : IsAligned base) :
    alignDown (base + pageOffset deviceAddr) = base := by
  unfold IsAligned at h
  unfold pageOffset alignDown
  simp only [pageSize] at *
  omega

/-- Rounding the length up without the offset never gives more than rounding it up with the
offset, except when that gives nothing. -/
theorem alignUp_le_mmioLength (hpos : 0 < mmioLength deviceAddr length) :
    alignUp length ≤ mmioLength deviceAddr length := by
  unfold mmioLength pageOffset alignUp alignDown wadd at *
  simp only [pageSize] at *
  omega

theorem MmioMapped.sound (h : MmioMapped s s' m deviceAddr length prot cache out entry) :
    entry.Sound := by
  have hmax := (vaBounds_lt m).2
  have hle := h.fits.le_max
  have hpos := h.pos
  have haligned := alignUp_aligned (wadd (pageOffset deviceAddr) length)
  have hend := h.endAddr
  refine ⟨by omega, h.aligned, ?_, by omega, ?_, fun _ => h.unbacked⟩
  · have hbase := h.aligned
    rw [hend]
    unfold IsAligned at *
    unfold mmioLength
    simp only [pageSize] at *
    omega
  · intro hobj
    rw [h.type] at hobj
    cases hobj

theorem MmioMapped.wellFormed (h : MmioMapped s s' m deviceAddr length prot cache out entry)
    (hr : MapReady s m) : WellFormed (s'.tree m) := by
  have hfree : ∀ e ∈ s.tree m, e.Apart entry := by
    intro e he
    have hend := h.endAddr
    rcases h.fits.free e he with h1 | h1
    · exact Or.inl h1
    · right
      omega
  have hfresh : ∀ e ∈ s.tree m, e.ptr ≠ entry.ptr := by
    intro e he
    rw [h.ptr]
    exact (hr.fresh e he).ne
  exact hr.wf.join h.sorted h.mem h.sound hfree hfresh

theorem MmioMapped.ready (h : MmioMapped s s' m deviceAddr length prot cache out entry)
    (hr : MapReady s m) : MapReady s' m := by
  refine ⟨h.wellFormed hr, fun x hx => ?_, fun x hx => ?_, ?_⟩
  · rcases (h.mem x).mp hx with rfl | hxt
    · have hend := h.endAddr
      have hle := h.fits.le_max
      exact ⟨h.fits.min_le, by omega⟩
    · exact hr.bounds x hxt
  · rw [h.heapNext]
    rcases (h.mem x).mp hx with rfl | hxt
    · have hptr := h.ptr
      omega
    · have hlt := hr.fresh x hxt
      omega
  · rw [h.held]
    exact hr.unlocked

theorem MmioMapped.removed (h : MmioMapped s s' m deviceAddr length prot cache out entry)
    (hr : MapReady s m) : rbtRemove (s'.tree m) entry = s.tree m := by
  have hw := h.wellFormed hr
  have hentry : entry ∈ s'.tree m := (h.mem entry).mpr (Or.inl rfl)
  have hnot : entry ∉ s.tree m := by
    intro he
    have := hr.fresh entry he
    rw [h.ptr] at this
    exact absurd this (lt_irrefl _)
  refine KeyedTree.Sorted.eq_of_mem_iff (h.sorted.filter _) hr.wf.sorted fun e => ?_
  rw [hw.mem_rbtRemove hentry, h.mem]
  constructor
  · rintro ⟨rfl | het, hne⟩
    · exact absurd rfl hne
    · exact het
  · intro het
    refine ⟨Or.inr het, ?_⟩
    rintro rfl
    exact hnot het

/-- From an entry at or behind the end of the range on, the loop ends at once. -/
theorem unmapLoop_stop {start : ℕ} {current : Option MapEntry}
    (h : ∀ c, current = some c → endAddr ≤ c.base) :
    (loop (unmapRound m start endAddr) .diverges (n + 1) current).Ends env s
      (fun rv s' => rv = .success ∧ s' = s) (fun _ => False) := by
  rw [loop, ends_bind]
  cases current with
  | none => exact ⟨rfl, rfl⟩
  | some c =>
    simp only [unmapRound, if_pos (h c rfl), ends_pure]
    exact ⟨trivial, trivial⟩

theorem unmapRound_whole (hlt : c.base < c.endAddr) (htype : c.type ≠ .obj) :
    (unmapRound m c.base c.endAddr (some c)).Ends env s
      (fun r s' => r = .inl (rbtNext (s.tree m) c) ∧
        s'.tree m = rbtRemove (s.tree m) c ∧ s'.held = s.held)
      (fun _ => False) := by
  simp only [unmapRound, if_neg (not_le.mpr hlt), ends_bind, ends_getState,
    max_self, min_self, carveAndFind, ne_eq, not_true_eq_false, or_self, if_false, ends_pure,
    Status.isErr_success, Bool.false_eq_true, pmapUnmapRange, ends_change, derefEntry,
    if_neg htype, tree_setTree, tree_setPmap]
  exact ⟨trivial, trivial, rfl⟩

/-- A range that is the beginning of an entry without an object: the rest of the entry stays, in
a piece of its own, or the cut fails. -/
theorem unmapRound_part (hw : WellFormed (s.tree m)) (hc : c ∈ s.tree m)
    (hf : c.ptr < s.heapNext) (hlt : c.base < endAddr) (hend : endAddr < c.endAddr)
    (htype : c.type ≠ .obj) :
    (unmapRound m c.base endAddr (some c)).Ends env s
      (fun r s' => s'.held = s.held ∧ (r = .inr .oom ∨
        r = .inl (rbtNext (s.tree m) c) ∧ ∃ e ∈ s'.tree m, e.Covers endAddr))
      (fun _ => True) := by
  have hsound := hw.sound c hc
  have hcut : Cut c c.base endAddr := ⟨le_rfl, hlt, hend.le, Or.inr hend, hsound.end_lt⟩
  simp only [unmapRound, if_neg (not_le.mpr hlt), ends_bind, ends_getState,
    if_neg (show ¬ (c.endAddr ≤ c.base ∨ endAddr ≤ c.base) by omega), max_self,
    min_eq_right hend.le, carveAndFind, if_pos (show c.base ≠ c.base ∨ c.endAddr ≠ endAddr from
      Or.inr hend.ne')]
  refine (carveEntry_ends le_rfl (by omega) (by omega) hend).mono ?_ (fun _ h => h.elim)
  rintro ⟨rv, left⟩ s₁ ⟨hrecut, ⟨-, hr, ht⟩ | ⟨-, hr, -⟩⟩
  · obtain ⟨rfl, -⟩ := Prod.mk.inj hr
    have hmem := fun p => @mem_carveTree _ _ _ _ s.heapNext p (hw.keepOff hc) hcut hend
    obtain ⟨m1, m2, -⟩ := middlePiece_fields endAddr (le_refl c.base)
    obtain ⟨r1, r2, r3⟩ := rightPiece_fields c c.base endAddr
      (s.heapNext + (leftPieces c c.base s.heapNext).length)
    have hfind : mapLowerBound (s₁.tree m) c.base = some (middlePiece c c.base endAddr) := by
      have hsorted : KeyedTree.Sorted key (s₁.tree m) := by
        rw [ht]
        exact carveTree_sorted hw.sorted
      rw [mapLowerBound, hsorted.lowerBound_eq_some_iff]
      refine ⟨?_, m2.ge, fun y _ hy => m2.le.trans hy⟩
      rw [ht, hmem]
      exact Or.inl rfl
    have htype' : (middlePiece c c.base endAddr).type ≠ .obj := by
      show (cutLeft c c.base).type ≠ .obj
      rw [(cutLeft_keeps c c.base).2.1]
      exact htype
    simp only [ends_pure, hfind, Status.isErr_success, Bool.false_eq_true, if_false, ends_bind,
      pmapUnmapRange, ends_change, derefEntry, if_neg htype', tree_setTree, tree_setPmap]
    refine ⟨hrecut.held, Or.inr ⟨trivial, _, ?_, ⟨r2.le, ?_⟩⟩⟩
    · rw [rbtRemove, List.mem_filter, ht, hmem, decide_eq_true_eq, r1, m1]
      exact ⟨Or.inr (Or.inl List.mem_cons_self), by omega⟩
    · rw [r3]
      exact hend
  · obtain rfl : rv = .oom := hr
    exact ⟨hrecut.held, Or.inl rfl⟩

theorem WellFormed.next_behind {tree : List MapEntry} (hw : WellFormed tree) (hc : c ∈ tree)
    (nx : MapEntry) (hn : rbtNext tree c = some nx) : c.endAddr ≤ nx.base := by
  obtain ⟨hmem, hlt, -⟩ := hw.sorted.next_eq_some_iff.mp hn
  exact hw.endAddr_le hc hmem hlt

/-- **The loop of `vm_unmap` over the new mapping**, from any state with its entries. -/
theorem MmioMapped.ends_vmUnmap (h : MmioMapped s s' m deviceAddr length prot cache out entry)
    (hq : env.Undisturbed) (hr : MapReady s m) {Q : Status → List MapEntry → Prop}
    {R : Failure → Prop}
    (hbody : ∀ s₁, s₁.tree m = s'.tree m → s₁.heapNext = s'.heapNext →
      (loop (unmapRound m entry.base (entry.base + alignUp length)) .diverges
        ((s₁.tree m).length + 1) (some entry)).Ends env s₁
        (fun rv s₂ => s₂.held = s₁.held ∧ Q rv (s₂.tree m)) R) :
    (vmUnmap m out length {}).Ends env s' (fun rv s₂ => Q rv (s₂.tree m)) R := by
  have hmax := (vaBounds_lt m).2
  have hfits := h.fits.le_max
  have hle := alignUp_le_mmioLength h.pos
  have hstart : alignDown out = entry.base := by
    rw [h.out_eq, alignDown_out h.aligned]
  have hend : wadd entry.base (alignUp length) = entry.base + alignUp length := by
    rw [wadd, Nat.mod_eq_of_lt (by omega)]
  have hentry : entry ∈ s'.tree m := (h.mem entry).mpr (Or.inl rfl)
  have hunlocked : s'.held (.map m) = none := by
    rw [h.held]
    exact hr.unlocked
  have hgranted : granted env s' = { s' with clock := s'.clock + 1 } := by
    rw [granted, hq]
  simp only [vmUnmap, hstart, hend]
  refine ends_guardRwlock hunlocked ?_
  rw [hgranted, ends_bind, ends_getState]
  have htree : ({ s' with clock := s'.clock + 1 }.setHeld (.map m) (some .exclusive)).tree m
      = s'.tree m := rfl
  rw [if_neg (by rw [htree]; exact List.ne_nil_of_mem hentry), htree,
    firstOverlap_eq (h.wellFormed hr) hentry le_rfl h.sound.lt, ← htree]
  refine (hbody _ htree rfl).imp ?_
  rintro rv s₂ ⟨hheld, hQ⟩
  refine ⟨?_, hQ⟩
  rw [hheld]
  exact Function.update_self _ _ _

/-- **`vm_unmap` undoes `vm_map_mmio`** exactly where the offset in the page makes no difference
to the number of pages. -/
theorem vmUnmap_undoes_iff (hq : env.Undisturbed) (hr : MapReady s m)
    (hmap : vmMapMmio m deviceAddr length prot cache env s = .ok ((.success, some out), s')) :
    (∃ s₂, vmUnmap m out length {} env s' = .ok (.success, s₂) ∧ s₂.tree m = s.tree m) ↔
      mmioLength deviceAddr length = alignUp length := by
  obtain ⟨entry, out', hout, h⟩ := (vmMapMmio_spec hq hr).of_ok hmap rfl
  obtain rfl : out = out' := Option.some_inj.mp hout
  have hw := h.wellFormed hr
  have hentry : entry ∈ s'.tree m := (h.mem entry).mpr (Or.inl rfl)
  have htype : entry.type ≠ .obj := by
    rw [h.type]
    decide
  have hlt := h.sound.lt
  have hend := h.endAddr
  constructor
  · rintro ⟨s₂, hrun, htree⟩
    by_contra hne
    have hshort : alignUp length < mmioLength deviceAddr length :=
      lt_of_le_of_ne (alignUp_le_mmioLength h.pos) (Ne.symm hne)
    have hkept := h.ends_vmUnmap (Q := fun rv tree' => rv = .success → tree' ≠ s.tree m)
      (R := fun _ => True) hq hr ?_
    · exact hkept.of_ok hrun rfl htree
    intro s₁ ht₁ hheap
    rcases Nat.eq_zero_or_pos (alignUp length) with hzero | hpos
    · -- an empty range: the mapping stays
      refine (unmapLoop_stop ?_).mono ?_ (fun _ h => h.elim)
      · rintro c ⟨⟩
        omega
      · rintro rv s₂ ⟨rfl, rfl⟩
        refine ⟨rfl, fun _ hsame => ?_⟩
        rw [ht₁] at hsame
        rw [hsame] at hentry
        have := hr.fresh entry hentry
        rw [h.ptr] at this
        exact absurd this (lt_irrefl _)
    · -- a shorter range: the last page stays
      have hw₁ : WellFormed (s₁.tree m) := by
        rw [ht₁]
        exact hw
      have hentry₁ : entry ∈ s₁.tree m := by
        rw [ht₁]
        exact hentry
      have hf₁ : entry.ptr < s₁.heapNext := by
        rw [hheap, h.heapNext, h.ptr]
        omega
      rw [loop, ends_bind]
      refine (unmapRound_part hw₁ hentry₁ hf₁ (by omega) (by omega) htype).imp ?_
      rintro r s₂ ⟨hheld, rfl | ⟨rfl, e, he, hcovers⟩⟩
      · exact ⟨hheld, by simp⟩
      · refine (unmapLoop_idle ?_).imp ?_
        · intro nx hnx
          have := hw₁.next_behind hentry₁ nx hnx
          omega
        · rintro rv _ rfl
          refine ⟨hheld, fun _ hsame => ?_⟩
          rw [hsame] at he
          obtain ⟨h1, h2⟩ := hcovers
          rcases h.fits.free e he with h3 | h3
          · omega
          · omega
  · intro heq
    have hundone := h.ends_vmUnmap (Q := fun rv tree' => rv = .success ∧ tree' = s.tree m)
      (R := fun _ => False) hq hr ?_
    · obtain ⟨rv, s₂, hrun, rfl, htree⟩ := hundone.exists_ok
      exact ⟨s₂, hrun, htree⟩
    intro s₁ ht₁ _
    rw [← heq, ← hend, loop, ends_bind]
    refine (unmapRound_whole hlt htype).imp ?_
    rintro _ s₂ ⟨rfl, ht₂, hheld⟩
    obtain ⟨n, hn⟩ : ∃ n, (s₁.tree m).length = n + 1 := by
      refine ⟨(s₁.tree m).length - 1, ?_⟩
      have := List.length_pos_of_mem hentry
      rw [← ht₁] at this
      omega
    rw [hn]
    refine (unmapLoop_stop ?_).imp ?_
    · intro nx hnx
      rw [ht₁] at hnx
      exact hw.next_behind hentry nx hnx
    · rintro rv _ ⟨rfl, rfl⟩
      refine ⟨hheld, rfl, ?_⟩
      rw [ht₂, ht₁]
      exact h.removed hr

theorem empty_mapReady (m : ℕ) : MapReady empty m := by
  have hnone : ∀ e, e ∉ empty.tree m := fun e => List.not_mem_nil
  refine ⟨⟨KeyedTree.Sorted.nil, ?_, ?_, ?_⟩, ?_, ?_, rfl⟩
  · exact fun e he => absurd he (hnone e)
  · exact fun e he => absurd he (hnone e)
  · exact fun e he => absurd he (hnone e)
  · exact fun e he => absurd he (hnone e)
  · exact fun e he => absurd he (hnone e)

/-- A whole page is mapped in the kernel's map, and unmapped again. -/
theorem vmUnmap_undoes_page :
    ∃ s', vmMapMmio kmap 0xfee00000 0x1000 ⟨true, true, false, false, false⟩ 0
        (Env.alone (fun _ => none)) empty = .ok ((.success, some 0xffffffe800000000), s') ∧
      ((∃ s₂, vmUnmap kmap 0xffffffe800000000 0x1000 {} (Env.alone (fun _ => none)) s'
          = .ok (.success, s₂) ∧ s₂.tree kmap = empty.tree kmap) ↔
        mmioLength 0xfee00000 0x1000 = alignUp 0x1000) :=
  ⟨_, rfl, vmUnmap_undoes_iff (fun _ _ => rfl) (empty_mapReady kmap) rfl⟩

/-- **Sixteen bytes across a page boundary** take two pages, and give back one. -/
theorem vmUnmap_leaves_page :
    MapReady empty kmap ∧
      ∃ s' s₂, vmMapMmio kmap 0xfee00ff8 0x10 ⟨true, true, false, false, false⟩ 0
          (Env.alone (fun _ => none)) empty = .ok ((.success, some 0xffffffe800000ff8), s') ∧
        vmUnmap kmap 0xffffffe800000ff8 0x10 {} (Env.alone (fun _ => none)) s'
          = .ok (.success, s₂) ∧
        (s₂.tree kmap).map (fun e => (e.base, e.endAddr)) =
          [(0xffffffe800001000, 0xffffffe800002000)] ∧
        s₂.tree kmap ≠ empty.tree kmap := by
  refine ⟨empty_mapReady kmap, _, _, rfl, rfl, rfl, ?_⟩
  exact List.cons_ne_nil _ _

end Unmap

end Vm
