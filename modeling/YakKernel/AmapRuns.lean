/-
# Runs of amaps

In every run the tables of the amaps stay apart, so a slot is known by the three indices of its
offset.  They hold 27 bits of the page number: offsets that are `2 ^ 39` apart share a slot.
-/
import YakKernel.AmapCopy

namespace Amap

open RadixTree

variable {h h' : Heap} {amaps : List ℕ} {a b : ℕ} {path : List ℕ} {s s' : State}

/-! ## A new amap -/

theorem tableAt_new (h : Heap) (path : List ℕ) :
    h.alloc.tableAt h.next path = if path = [] then some h.next else none := by
  cases path with
  | nil => rfl
  | cons i path =>
    have hzero : h.alloc.mem h.next i = 0 := by
      rw [Heap.alloc_mem, Function.update_self]
    rw [Heap.tableAt, walk_cons, child_none _ hzero]
    rfl

theorem Sound.alloc_mem (hs : Sound h amaps) (ha : a ∈ amaps) {n : ℕ}
    (hn : h.tableAt a path = some n) : h.alloc.mem n = h.mem n := by
  have hlt := hs.lt a ha path n hn
  rw [Heap.alloc_mem, Function.update_of_ne (Nat.ne_of_lt hlt)]

theorem Sound.tableAt_alloc (hs : Sound h amaps) (ha : a ∈ amaps) (path : List ℕ) :
    h.alloc.tableAt a path = h.tableAt a path := by
  refine walk_congr path ?_
  intro path' n j hn
  exact child_congr _ (congrFun (hs.alloc_mem ha hn) j)

theorem Sound.content_alloc (hs : Sound h amaps) (ha : a ∈ amaps) (path : List ℕ) (i : ℕ) :
    h.alloc.content a path i = h.content a path i := by
  rw [Heap.content, hs.tableAt_alloc ha, Heap.content]
  cases hn : h.tableAt a path with
  | none => rfl
  | some n => rw [Option.elim_some, Option.elim_some, hs.alloc_mem ha hn]

theorem Sound.next_not_mem (hs : Sound h amaps) : h.next ∉ amaps :=
  fun hno => Nat.lt_irrefl _ (hs.lt h.next hno [] h.next rfl)

/-- **A new amap** is apart from all others. -/
theorem Sound.alloc (hs : Sound h amaps) : Sound h.alloc (h.next :: amaps) := by
  have hnew : ∀ {path t}, h.alloc.tableAt h.next path = some t → path = [] ∧ t = h.next := by
    intro path t ht
    rw [tableAt_new] at ht
    obtain ⟨hpath, heq⟩ := Option.ite_none_right_eq_some.mp ht
    exact ⟨hpath, (Option.some.inj heq).symm⟩
  have hold : ∀ {a path t}, a ∈ amaps → h.alloc.tableAt a path = some t → t < h.next := by
    intro a path t ha ht
    rw [hs.tableAt_alloc ha] at ht
    exact hs.lt a ha path t ht
  refine ⟨Nat.succ_pos _, ?_, ?_⟩
  · intro a ha path t ht
    rcases List.mem_cons.mp ha with rfl | ha
    · rw [(hnew ht).2]
      exact Nat.lt_succ_self _
    · exact Nat.lt_succ_of_lt (hold ha ht)
  · intro a ha b hb path path' t ht ht'
    rcases List.mem_cons.mp ha with rfl | ha
    · rcases List.mem_cons.mp hb with rfl | hb
      · exact ⟨rfl, (hnew ht).1.trans (hnew ht').1.symm⟩
      · have hlt := hold hb ht'
        rw [(hnew ht).2] at hlt
        exact absurd hlt (Nat.lt_irrefl _)
    · rcases List.mem_cons.mp hb with rfl | hb
      · have hlt := hold ha ht
        rw [(hnew ht').2] at hlt
        exact absurd hlt (Nat.lt_irrefl _)
      · rw [hs.tableAt_alloc ha] at ht
        rw [hs.tableAt_alloc hb] at ht'
        exact hs.separate a ha b hb path path' t ht ht'

/-! ## `vm_amap_copy` -/

theorem content_of_no_l3 (hzero : h.mem a 0 = 0) (offset i : ℕ) :
    h.content a (pathOf offset) i = 0 := by
  rw [Heap.content, Heap.tableAt, pathOf, walk_cons, child_none _ hzero]
  rfl

theorem inBounds_pathOf (offset : ℕ) : InBounds (pathOf offset) (l1i offset) where
  length := rfl
  path := by
    intro j hj
    rcases List.mem_cons.mp hj with rfl | hj
    · decide
    rcases List.mem_cons.mp hj with rfl | hj
    · exact Nat.mod_lt _ (by decide)
    · rw [List.mem_singleton.mp hj]
      exact Nat.mod_lt _ (by decide)
  index := Nat.mod_lt _ (by decide)

/-- **A copy** has the anons of the amap, and no other amap is touched. -/
theorem Sound.vmAmapCopy (hs : Sound h amaps) (ha : a ∈ amaps) :
    Sound (Amap.vmAmapCopy a h) (h.next :: amaps) ∧ ∀ offset,
      anonAt (Amap.vmAmapCopy a h) h.next offset = anonAt h a offset ∧
      ∀ c ∈ amaps, anonAt (Amap.vmAmapCopy a h) c offset = anonAt h c offset := by
  have hnew := hs.alloc
  have hne : a ≠ h.next := fun hno => hs.next_not_mem (hno ▸ ha)
  have hempty : ∀ j, h.alloc.mem h.next j = 0 := by
    intro j
    rw [Heap.alloc_mem, Function.update_self]
  rw [Amap.vmAmapCopy]
  by_cases hzero : h.alloc.mem a 0 = 0
  · rw [if_pos hzero]
    refine ⟨hnew, fun offset => ⟨?_, fun c hc => ?_⟩⟩
    · rw [anonAt_eq, anonAt_eq, content_of_no_l3 (hempty 0), ← hs.content_alloc ha,
        content_of_no_l3 hzero]
    · rw [anonAt_eq, anonAt_eq, hs.content_alloc hc]
  · rw [if_neg hzero]
    have hroot : h.alloc.tableAt h.next [] = some h.next := rfl
    have hshort : ([] : List ℕ).length < 3 := by decide
    have hself : h.next ∈ h.next :: amaps := List.mem_cons_self
    have hsource : a ∈ h.next :: amaps := List.mem_cons_of_mem _ ha
    have htable := fun c hc path =>
      @Sound.tableAt_addTable _ _ h.next c _ 0 _ hnew hself hroot hshort (hempty 0) hc path
    have hlt : h.next < h.alloc.next := Nat.lt_succ_self _
    have hcopying : Copying (h.next :: amaps) a h.next [0] (h.alloc.mem a 0) h.alloc.next
        (h.alloc.addTable h.next 0) := by
      refine ⟨hnew.addTable hself hroot hshort (hempty 0), hsource, hself, hne, ?_, ?_,
        Nat.one_le_ofNat, ?_⟩
      · rw [htable a hsource, if_neg (fun hand => hne hand.2)]
        have hsrc : h.alloc.tableAt a [] = some a := rfl
        have hstep := tableAt_concat hsrc hshort 0
        rw [if_pos hzero] at hstep
        exact hstep
      · rw [htable h.next hself, if_pos ⟨rfl, rfl⟩]
      · intro j
        rw [Heap.addTable_mem, if_neg (fun hand => Nat.ne_of_gt hlt hand.1), if_pos rfl]
    have hlvl : ([0] : List ℕ).length + 2 = 3 := rfl
    have hcopied := hcopying.copyTable hlvl
    have hcontent : ∀ c ∈ h.next :: amaps, ∀ offset,
        (h.alloc.addTable h.next 0).content c (pathOf offset) (l1i offset) =
          h.alloc.content c (pathOf offset) (l1i offset) :=
      fun c hc offset => hnew.content_addTable hself hroot hshort (hempty 0) hc rfl _
    refine ⟨hcopied.sound, fun offset => ⟨?_, fun c hc => ?_⟩⟩
    · have hfirst : [0] <+: pathOf offset := ⟨[l3i offset, l2i offset], rfl⟩
      rw [anonAt_eq, anonAt_eq, hcopied.content h.next hself _ _ (inBounds_pathOf offset),
        if_pos ⟨rfl, hfirst⟩, hcontent a hsource, hs.content_alloc ha]
    · have hother : c ≠ h.next := fun hno => hs.next_not_mem (hno ▸ hc)
      have hin : c ∈ h.next :: amaps := List.mem_cons_of_mem _ hc
      rw [anonAt_eq, anonAt_eq, hcopied.content c hin _ _ (inBounds_pathOf offset),
        if_neg (fun hand => hother hand.1), hcontent c hin, hs.content_alloc hc]

/-! ## Every run -/

/-- **Step lemma.** -/
theorem Sound.step {e : Event} (hs : Sound s.heap s.amaps) (h : Amap.step s e = some s') :
    Sound s'.heap s'.amaps := by
  cases e with
  | create =>
    rw [← Option.some.inj h]
    exact hs.alloc
  | fill amap offset anon =>
    obtain ⟨ha, h⟩ := Option.ite_none_right_eq_some.mp h
    obtain ⟨h₁, hfill, hsound, _⟩ := hs.fillSlot ha offset anon
    rw [hfill] at h
    rw [← Option.some.inj h]
    exact hsound
  | copy amap =>
    obtain ⟨ha, h⟩ := Option.ite_none_right_eq_some.mp h
    rw [← Option.some.inj h]
    exact (hs.vmAmapCopy ha).1

/-- **Run lemma.** -/
theorem sound_of_run (h : system.Reachable s) : Sound s.heap s.amaps := by
  refine @TransitionSystem.Reachable.invariant _ _ system (fun s => Sound s.heap s.amaps) ?_ ?_ s h
  · rintro s₀ ⟨hnone, hnext⟩
    refine ⟨hnext, ?_, ?_⟩
    · intro a ha
      rw [hnone] at ha
      cases ha
    · intro a ha
      rw [hnone] at ha
      cases ha
  · intro s₁ e s₂ hs h
    exact hs.step h

/-! ## Offsets and slots -/

theorem slot_eq_iff (o₁ o₂ : ℕ) : (pathOf o₁ = pathOf o₂ ∧ l1i o₁ = l1i o₂) ↔
    o₁ / 2 ^ 12 % 2 ^ 27 = o₂ / 2 ^ 12 % 2 ^ 27 := by
  have hpath : pathOf o₁ = pathOf o₂ ↔ l3i o₁ = l3i o₂ ∧ l2i o₁ = l2i o₂ := by
    simp only [pathOf, List.cons.injEq, and_true, true_and]
  rw [hpath, l3i, l3i, l2i, l2i, l1i, l1i]
  generalize o₁ / 2 ^ 12 = p₁
  generalize o₂ / 2 ^ 12 = p₂
  omega

/-- **An amap is faithful** at two offsets exactly if the lowest 27 bits of their page numbers are
not the same. -/
theorem faithful_iff (hreach : system.Reachable s) (ha : a ∈ s.amaps) (o₁ o₂ : ℕ) :
    Faithful s a o₁ o₂ ↔ o₁ / 2 ^ 12 % 2 ^ 27 ≠ o₂ / 2 ^ 12 % 2 ^ 27 := by
  have hs := sound_of_run hreach
  obtain ⟨t₁, h₁, hlook₁, ht₁, hext₁⟩ := hs.lookup ha o₁
  obtain ⟨t₂, h₂, hlook₂, ht₂, hext₂⟩ := hext₁.sound.lookup ha o₂
  have ht₁' := hext₂.tableAt a ha _ _ ht₁
  rw [Ne, ← slot_eq_iff]
  constructor
  · rintro h ⟨hpath, hindex⟩
    obtain ⟨slot₁, g₁, slot₂, g₂, hl₁, hl₂, hne⟩ := h.slots
    rw [hlook₁, Option.some.injEq, Prod.mk.injEq] at hl₁
    obtain ⟨rfl, rfl⟩ := hl₁
    rw [hlook₂, Option.some.injEq, Prod.mk.injEq] at hl₂
    obtain ⟨rfl, rfl⟩ := hl₂
    rw [hpath, ht₂, Option.some.injEq] at ht₁'
    rw [ht₁', hindex] at hne
    exact hne rfl
  · intro hne
    refine ⟨⟨_, h₁, _, h₂, hlook₁, hlook₂, ?_⟩, ?_, fun offset => ((hs.vmAmapCopy ha).2 offset).1⟩
    · intro hsame
      obtain ⟨htable, hindex⟩ := Slot.mk.inj hsame
      rw [htable] at ht₁'
      exact hne ⟨(hext₂.sound.separate a ha a ha _ _ t₂ ht₁' ht₂).2, hindex⟩
    · intro anon
      obtain ⟨h', hfill, _, hcontent⟩ := hs.fillSlot ha o₁ anon
      refine ⟨h', hfill, ?_, ?_⟩
      · rw [anonAt_eq, hcontent a ha _ _ rfl, if_pos ⟨rfl, rfl, rfl⟩]
      · rw [anonAt_eq, anonAt_eq, hcontent a ha _ _ rfl, if_neg]
        rintro ⟨_, hpath, hindex⟩
        exact hne ⟨hpath.symm, hindex.symm⟩

/-- No amap yet. -/
def noAmaps : State := ⟨⟨fun _ _ => 0, fun _ => 0, 1⟩, []⟩

/-- One amap. -/
def oneAmap : State := ⟨noAmaps.heap.alloc, [1]⟩

theorem oneAmap_reachable : system.Reachable oneAmap :=
  .step (e := .create) (.init ⟨rfl, Nat.one_pos⟩) trivial rfl

/-- Two pages of one amap. -/
theorem faithful_pages : Faithful oneAmap 1 0 4096 :=
  (faithful_iff oneAmap_reachable List.mem_cons_self 0 4096).mpr (by decide)

/-- Two offsets that are 512 GiB apart. -/
theorem not_faithful_far : ¬ Faithful oneAmap 1 0 549755813888 := by
  intro h
  obtain ⟨slot₁, h₁, slot₂, h₂, hl₁, hl₂, hne⟩ := h.slots
  have hfirst : (vmAmapLookup 1 0 true oneAmap.heap).map Prod.fst = some ⟨4, 0⟩ := by decide
  have hsecond : ((vmAmapLookup 1 0 true oneAmap.heap).bind
      (fun r => vmAmapLookup 1 549755813888 true r.2)).map Prod.fst = some ⟨4, 0⟩ := by decide
  rw [hl₁, Option.bind_some, hl₂] at hsecond
  rw [hl₁] at hfirst
  exact hne ((Option.some.inj hfirst).trans (Option.some.inj hsecond).symm)

end Amap
